/-
Operations of the machine on integers and truth values.

A quad with an operator reads two cells, pastes their values together and stores what
the result is.  Between integers and truth values this is the exact operation, up to
numbers that are too long to be written:

* `Operator.exact`, `Operator.compute` — the exact operation, and the one that refuses
  long numbers;
* `Value.Means.paste` — pasting computes it;
* `Exec.yields_operateCell` — a cell of an operation is filled with its result;
* `Exec.goToIfFalse_right_iff` — when a jump on a condition is made where the condition is false.

Design notes: `Fills S` says that a run changed no cells but those in `S`, and nothing
else than what every quad may change.  `Walks` is a run that does one quad after the
other, without jumps.
-/
import QuadLang.Proofs.Emission
import QuadLang.Proofs.Frames
import QuadLang.Proofs.Spots

namespace QuadLang

open Steps

variable {a b i r : Int} {f : MachineFault} {n : Nat} {qs : List Quad} {s : Spot}

/-! ### Meanings -/

/-- What a value of a program stands for: an integer or a truth value. -/
inductive Meaning where
  | int (i : Int)
  | truth (b : Bool)
deriving DecidableEq

namespace Meaning

def type : Meaning → Scalar
  | .int _ => .int
  | .truth _ => .bool

/-- The value that a result is stored as. -/
def value : Meaning → Value
  | .int i => .int i
  | .truth b => .truth b

/-- Whether there is a text for it. -/
def Short : Meaning → Prop
  | .int i => Number.Short i
  | .truth _ => True

instance (u : Meaning) : Decidable u.Short :=
  match u with
  | .int i => inferInstanceAs (Decidable (i.natAbs < 10 ^ Number.maxDigits))
  | .truth _ => inferInstanceAs (Decidable True)

/-- Numbers that are too long to be written are refused. -/
def checked (u : Meaning) : Except MachineFault Meaning :=
  if u.Short then .ok u else .error .longNumber

theorem checked_eq_ok {u w : Meaning} : u.checked = .ok w ↔ u.Short ∧ u = w := by
  rw [checked]
  split
  · next h => simp [h]
  · next h => simp [h]

theorem type_cases (u : Meaning) : u.type = .int ∨ u.type = .bool := by
  cases u
  · exact .inl rfl
  · exact .inr rfl

end Meaning

/-- The cell of a result. -/
def Meaning.cell (u : Meaning) : Cell := ⟨u.value, .of u.type⟩

theorem Meaning.read_cell (u : Meaning) : u.cell.read = .ok u.value := by
  cases u <;> rfl

/-- What a value stands for.  The words for truth values stand for them. -/
inductive Value.Means : Value → Meaning → Prop where
  | int (i : Int) : Means (.int i) (.int i)
  | truth (b : Bool) : Means (.truth b) (.truth b)
  | word (b : Bool) : Means (.text (Value.truthWord b)) (.truth b)

namespace Operator

def exact : Operator → Meaning → Meaning → Except MachineFault Meaning
  | .add, .int a, .int b => .ok (.int (a + b))
  | .sub, .int a, .int b => .ok (.int (a - b))
  | .mul, .int a, .int b => .ok (.int (a * b))
  | .mod, .int a, .int b => if b = 0 then .error .intModulo else .ok (.int (a.fmod b))
  | .eq, .int a, .int b => .ok (.truth (a = b))
  | .ne, .int a, .int b => .ok (.truth (a ≠ b))
  | .lt, .int a, .int b => .ok (.truth (a < b))
  | .le, .int a, .int b => .ok (.truth (a ≤ b))
  | .gt, .int a, .int b => .ok (.truth (a > b))
  | .ge, .int a, .int b => .ok (.truth (a ≥ b))
  | .eq, .truth a, .truth b => .ok (.truth (a = b))
  | .ne, .truth a, .truth b => .ok (.truth (a ≠ b))
  | .and, .truth a, .truth b => .ok (.truth (a && b))
  | .or, .truth a, .truth b => .ok (.truth (a || b))
  | _, _, _ => .error .badExpression

/-- The exact operation, when operands and result can be written. -/
def compute (o : Operator) (u v : Meaning) : Except MachineFault Meaning :=
  if u.Short ∧ v.Short then (o.exact u v).bind Meaning.checked else .error .longNumber

/-- The operation of one cell.  The result is stored before it is written down, if there is
room for it. -/
def fill (o : Operator) (room : Bool) (u v : Meaning) : Except MachineFault Meaning :=
  if u.Short ∧ v.Short then
    (o.exact u v).bind fun w => if room then w.checked else .error .badStore
  else .error .longNumber

theorem fill_true (o : Operator) (u v : Meaning) : o.fill true u v = o.compute u v := rfl

/-- The operator takes operands of these types. -/
def Fits (o : Operator) (u v : Meaning) : Prop :=
  o ≠ .div ∧ (u.type.combine v.type o.word).isSome

variable {o : Operator} {u v w : Meaning}

/-- The operands that an operator takes. -/
theorem Fits.cases (h : o.Fits u v) :
    ((∃ a b, u = .int a ∧ v = .int b) ∧ o ≠ .div ∧ o ≠ .and ∧ o ≠ .or) ∨
    (∃ a b, u = .truth a ∧ v = .truth b) ∧ (o = .and ∨ o = .or ∨ o = .eq ∨ o = .ne) := by
  obtain ⟨t, ht⟩ := Option.isSome_iff_exists.mp h.2
  have hc := (of_combine h.1 u.type_cases v.type_cases ht).2
  cases u <;> cases v <;> simp [Meaning.type] at hc ⊢ <;> grind [h.1]

theorem type_of_exact (h : o.Fits u v) (hw : o.exact u v = .ok w) : w.type = o.result := by
  rcases h.cases with ⟨⟨a, b, rfl, rfl⟩, h1, h2, h3⟩ | ⟨⟨a, b, rfl, rfl⟩, h1⟩
  · cases o <;> simp_all [exact] <;> (try split at hw) <;> cases hw <;> rfl
  · rcases h1 with rfl | rfl | rfl | rfl <;> cases hw <;> rfl

/-- Only a division by zero has no result. -/
theorem exact_cases (h : o.Fits u v) :
    (∃ w, o.exact u v = .ok w) ∨ o.exact u v = .error .intModulo := by
  rcases h.cases with ⟨⟨a, b, rfl, rfl⟩, h1, h2, h3⟩ | ⟨⟨a, b, rfl, rfl⟩, h1⟩
  · cases o with
    | div | and | or => contradiction
    | mod =>
      by_cases hb : b = 0
      · exact .inr (by simp [exact, hb])
      · exact .inl ⟨.int (a.fmod b), by simp [exact, hb]⟩
    | add | sub | mul | eq | ne | lt | le | gt | ge => exact .inl ⟨_, rfl⟩
  · rcases h1 with rfl | rfl | rfl | rfl <;> exact .inl ⟨_, rfl⟩

theorem exact_of_compute (h : o.compute u v = .ok w) : o.exact u v = .ok w := by
  rw [compute] at h
  split at h
  · rcases hw : o.exact u v with f | w'
    · rw [hw] at h; cases h
    · rw [hw] at h
      rw [(Meaning.checked_eq_ok.mp h).2]
  · cases h

/-- Where the result is, there was room for it. -/
theorem fill_eq_ok {room : Bool} : o.fill room u v = .ok w ↔ room = true ∧ o.compute u v = .ok w := by
  cases room with
  | true => simp [fill_true]
  | false =>
    have hnone : o.fill false u v ≠ .ok w := by
      rw [fill]
      split
      · rcases o.exact u v with f | w'
        · nofun
        · nofun
      · nofun
    simp [hnone]

/-- Between values that stand for themselves the machine does the exact operation. -/
theorem apply_value (h : o.Fits u v) :
    o.apply u.value v.value = (o.exact u v).map Meaning.value := by
  rcases h.cases with ⟨⟨a, b, rfl, rfl⟩, h1, h2, h3⟩ | ⟨⟨a, b, rfl, rfl⟩, h1⟩
  · have hcompare : a < b ∧ compare a b = .lt ∨ a = b ∧ compare a b = .eq ∨
        b < a ∧ compare a b = .gt := by
      rw [Std.compare_eq_lt, Std.compare_eq_gt, Std.compare_eq_iff_eq]
      omega
    cases o with
    | div | and | or => contradiction
    | add | sub | mul => rfl
    | mod =>
      by_cases hb : b = 0 <;>
        simp [apply, Meaning.value, Value.arithmetic, Value.num?, Value.numArithmetic,
          Value.intArithmetic, exact, hb, Except.map]
    | eq | ne =>
      simp only [apply, Meaning.value, Value.same, Value.num?, Value.compareNum, exact, Except.map]
      rcases hcompare with ⟨h, hc⟩ | ⟨h, hc⟩ | ⟨h, hc⟩ <;> simp [hc] <;> omega
    | lt | le | gt | ge =>
      simp only [apply, Meaning.value, Value.order, Value.num?, Value.compareNum, Value.holds, exact,
        Except.map, Option.map_some, Option.getD_some]
      rcases hcompare with ⟨h, hc⟩ | ⟨h, hc⟩ | ⟨h, hc⟩ <;> simp [hc, bne] <;> omega
  · rcases h1 with rfl | rfl | rfl | rfl <;> cases a <;> cases b <;> rfl

end Operator

namespace Value.Means

variable {x y : Value} {u v : Meaning}

theorem ofMeaning (u : Meaning) : u.value.Means u := by
  cases u <;> constructor

/-- A value can be written when its meaning can. -/
theorem plain (h : x.Means u) :
    (u.Short ∧ ∃ s, x.plain = .ok s) ∨ (¬ u.Short ∧ x.plain = .error .longNumber) := by
  cases h with
  | int i =>
    have hplain : (Value.int i).plain = Value.intText i := by rw [Value.plain, Value.shown]; simp
    by_cases hi : Number.Short i
    · exact .inl ⟨hi, toString i, by rw [hplain, Value.intText_ok hi]⟩
    · exact .inr ⟨hi, by rw [hplain, Value.intText_long hi]⟩
  | truth b | word b => exact .inl ⟨trivial, _, rfl⟩

theorem standing? (h : x.Means u) : x.standing? = some u.value := by
  cases h with
  | int i => rfl
  | truth b => rfl
  | word b => cases b <;> rfl

/-- A value has one meaning. -/
theorem unique (h : x.Means u) (h' : x.Means v) : u = v := by
  have hvalue := Option.some.inj (h.standing?.symm.trans h'.standing?)
  cases u <;> cases v <;> cases hvalue <;> rfl

/-- Among truth values only false itself counts as false, and not the word for it. -/
theorem truthy_eq_false {b : Bool} (h : x.Means (.truth b)) : x.truthy = false ↔ x = .truth false := by
  cases h with
  | truth b => simp [truthy]
  | word b => cases b <;> simp [truthy, truthWord]

/-- Pasting two operands together does the operation, when both can be written. -/
theorem paste (hx : x.Means u) (hy : y.Means v) {o : Operator} (h : o.Fits u v)
    (names : Table Value) : QuadLang.paste names o x y = if u.Short ∧ v.Short then
      (o.exact u v).map Meaning.value else .error .longNumber := by
  rw [QuadLang.paste, hx.standing?, hy.standing?, ← Operator.apply_value h]
  rcases hx.plain with ⟨hu, s, hs⟩ | ⟨hu, hs⟩
  · rcases hy.plain with ⟨hv, s', hs'⟩ | ⟨hv, hs'⟩
    · rw [hs, hs', if_pos ⟨hu, hv⟩]
      rfl
    · rw [hs, hs', if_neg fun h => hv h.2]
      rfl
  · rw [hs, if_neg fun h => hu h.1]
    rfl

end Value.Means

/-! ### Runs without jumps -/

namespace Machine

variable {m m' m₁ : Machine} {u : Meaning}

/-- The quads of a list stand from a place on. -/
def CodeAt (m : Machine) (place : Nat) (qs : List Quad) : Prop :=
  ∀ i q, qs[i]? = some q → m.quads[place + i]? = some (q.map Field.shown)

/-- The run does `n` quads that stand one after the other. -/
inductive Walks : Nat → Machine → Machine → Prop where
  | refl (m : Machine) : Walks 0 m m
  | step {n : Nat} {m m₁ m' : Machine} (h : m.Next m₁) (hp : m₁.place = m.place + 1)
      (h' : Walks n m₁ m') : Walks (n + 1) m m'

/-- The run stops with a fault at one of the next `n` quads. -/
def StopsWithin (n : Nat) (m : Machine) (f : MachineFault) : Prop :=
  ∃ i m₁ m₂, i < n ∧ Walks i m m₁ ∧ Exec.step.run m₁ = (.error f, m₂)

theorem codeAt_append {place : Nat} {qs' : List Quad} :
    m.CodeAt place (qs ++ qs') ↔ m.CodeAt place qs ∧ m.CodeAt (place + qs.length) qs' := by
  constructor
  · intro h
    refine ⟨fun i q hq => h i q ?_, fun i q hq => ?_⟩
    · rw [List.getElem?_append_left (by grind)]
      exact hq
    · rw [Nat.add_assoc]
      exact h (qs.length + i) q (by rw [List.getElem?_append_right (by omega)]; simpa using hq)
  · rintro ⟨h, h'⟩ i q hq
    by_cases hi : i < qs.length
    · exact h i q (by rwa [List.getElem?_append_left hi] at hq)
    · rw [List.getElem?_append_right (by omega)] at hq
      have := h' (i - qs.length) q hq
      rwa [show place + qs.length + (i - qs.length) = place + i by omega] at this

theorem CodeAt.quad? {place : Nat} {q : Quad} (h : m.CodeAt place (q :: qs)) (hp : m.place = place)
    : m.quad? = some (q.map Field.shown) := by
  have hq := h 0 q rfl
  have hlt : place < m.quads.size := by
    by_contra hge
    rw [Nat.add_zero, Array.getElem?_eq_none (by omega)] at hq
    cases hq
  rw [Machine.quad?, hp, rowIndex?_of_lt (by omega) (by omega)]
  exact hq

theorem Walks.trans {i j : Nat} (h : Walks i m m₁) (h' : Walks j m₁ m') : Walks (i + j) m m' := by
  induction h with
  | refl m => rwa [Nat.zero_add]
  | step hn hp _ ih =>
    rw [Nat.add_right_comm]
    exact .step hn hp (ih h')

theorem Walks.place (h : Walks n m m') : m'.place = m.place + n := by
  induction h with
  | refl m => simp
  | step _ hp _ ih => rw [ih, hp]; push_cast; omega

theorem Walks.stops {i : Nat} (h : Walks i m m₁) (h' : StopsWithin n m₁ f) :
    StopsWithin (i + n) m f := by
  obtain ⟨j, m₂, m₃, hj, hw, hs⟩ := h'
  exact ⟨i + j, m₂, m₃, by omega, h.trans hw, hs⟩

theorem StopsWithin.mono {n' : Nat} (h : StopsWithin n m f) (hn : n ≤ n') : StopsWithin n' m f := by
  obtain ⟨i, m₁, m₂, hi, hw, hs⟩ := h
  exact ⟨i, m₁, m₂, by omega, hw, hs⟩

theorem StopsWithin.ofStep (h : (Exec.step.run m).1 = .error f) (n : Nat) :
    StopsWithin (n + 1) m f :=
  ⟨0, m, (Exec.step.run m).2, by omega, .refl m, Prod.ext h rfl⟩

/-! ### Filling cells -/

/-- A run from `m` to `m'` that filled no cells but those in `S`. -/
structure Fills (S : Spot → Prop) (m m' : Machine) : Prop where
  rest : m' = { m with
    globals := m'.globals
    constants := m'.constants
    frames := m'.frames
    place := m'.place
    extents := m'.extents
    lastValue := m'.lastValue
    names := m'.names
    printed := m'.printed }
  size : ∀ r, (m'.row r).size = (m.row r).size
  content : ∀ s, ¬ S s → m'.content s = m.content s

/-- The cell at an offset from an address stands for `u`. -/
def Holds (m : Machine) (a i : Int) (u : Meaning) : Prop :=
  ∃ x, m.value (.text (toString a)) i = .ok x ∧ x.Means u

theorem Holds.unique {v : Meaning} (h : m.Holds a i u) (h' : m.Holds a i v) : u = v := by
  obtain ⟨x, hx, hu⟩ := h
  obtain ⟨y, hy, hv⟩ := h'
  cases hx.symm.trans hy
  exact hu.unique hv

/-- The cell of a result stands for the result. -/
theorem holds_of_content (hm : m.Standard) (hs : m.spot? (a + i) = some s)
    (hc : m.content s = some u.cell) (ha : a.natAbs < 10 ^ 10) (h0 : 1000 ≤ a + i)
    (h1 : a + i < 38000) : m.Holds a i u :=
  ⟨u.value, by rw [value_spot hm hs ha h0 h1, hc]; exact u.read_cell, .ofMeaning u⟩

namespace Fills

variable {S S' : Spot → Prop} {m m₁ m' : Machine}

theorem refl (S : Spot → Prop) (m : Machine) : Fills S m m := ⟨rfl, fun _ => rfl, fun _ _ => rfl⟩

theorem mono (h : Fills S m m') (hS : ∀ s, S s → S' s) : Fills S' m m' :=
  ⟨h.rest, h.size, fun s hs => h.content s fun hs' => hs (hS s hs')⟩

theorem trans (h : Fills S m m₁) (h' : Fills S m₁ m') : Fills S m m' where
  rest := by rw [h'.rest, h.rest]
  size r := (h'.size r).trans (h.size r)
  content s hs := (h'.content s hs).trans (h.content s hs)

theorem standard (h : Fills S m m') (hm : m.Standard) : m'.Standard := by
  rw [h.rest]
  exact { hm with }

theorem codeAt (h : Fills S m m') {place : Nat} (hc : m.CodeAt place qs) :
    m'.CodeAt place qs := by
  rw [h.rest]
  exact hc

/-- Filling cells moves no address. -/
theorem spot? (h : Fills S m m') (a : Int) : m'.spot? a = m.spot? a := by
  have hplace : m'.placeOf a = m.placeOf a := by rw [h.rest]; rfl
  have hrow : ∀ p, m'.rowOf? p = m.rowOf? p := by
    intro p
    rw [h.rest]
    cases p <;> rfl
  have hspot : ∀ p, m'.spotAt? p = m.spotAt? p := by
    intro p
    simp only [spotAt?, hrow, h.size]
  simp only [Machine.spot?, hplace, hspot]

/-- A cell that is not filled stands for what it stood for. -/
theorem holds (h : Fills S m m') (hm : m.Standard) {u : Meaning} (hs : m.spot? (a + i) = some s)
    (hS : ¬ S s) (ha : a.natAbs < 10 ^ 10) (h0 : 1000 ≤ a + i) (h1 : a + i < 38000)
    (hu : m.Holds a i u) : m'.Holds a i u := by
  obtain ⟨x, hx, hxu⟩ := hu
  refine ⟨x, ?_, hxu⟩
  rw [value_spot (h.standard hm) (by rw [h.spot?, hs]) ha h0 h1, h.content s hS,
    ← value_spot hm hs ha h0 h1]
  exact hx

theorem tempFrame (h : Fills S m m') {k : Counts} (ht : m.TempFrame n k) :
    m'.TempFrame n k where
  top := by rw [h.rest]; exact ht.top
  apart := by rw [h.rest]; exact ht.apart
  nonneg := ht.nonneg
  fits := ht.fits
  size := by
    have := h.size (.frame n)
    simp only [row] at this
    rw [this]
    exact ht.size
  offsets := by rw [h.rest]; exact ht.offsets

/-- Filling one cell. -/
theorem ofWrite (hs : s.index < (m.row s.row).size) (c : Cell) {names : Table Value}
    {printed : List String} {place : Int} {extents : List Int} {lastValue : Option Value} :
    Fills (· = s) m { m.write s c with
      names := names, printed := printed, place := place, extents := extents, lastValue := lastValue } where
  rest := by
    rw [write_eq]
  size := by
    intro r
    have := size_row_write m s c r
    cases r <;> exact this
  content := by
    intro s' hs'
    have := content_write hs c s'
    rw [if_neg hs'] at this
    obtain ⟨r, k⟩ := s'
    cases r <;> exact this

end Fills

end Machine

/-! ### One cell of an operation -/

namespace Exec

open Machine

variable {x : Value} {m : Machine} {o : Operator} {u v : Meaning}

/-- What an operation does for one cell. -/
def operateCell (place : Int) (q : List String) (op : Operator) (word : String) (i : Int) :
    Exec Unit := do
  let left ← value (← field q 1) i
  let right ← value (← field q 2) i
  modify fun m => { m with names := m.names.put indexName (.int i) }
  let result ← ofExcept fun m => paste m.names op left right
  let target ← field q 3
  store result target i
  let shown ← textOf result
  say place ((← textOf left) ++ " " ++ word ++ " " ++ (← textOf right) ++ " = " ++ shown ++ " -> (" ++
    target ++ offsetText i ++ ")")

theorem operate_eq (place : Int) (q : List String) (op : Operator) (word : String) :
    operate place q op word = forCells (operateCell place q op word) := rfl

theorem run_value {operand : String} (h : m.value (.text operand) i = .ok x) :
    (value operand i).run m = (.ok x, m) := by
  rw [value, run_ofExcept, h]

theorem run_textOf {s : String} (h : x.plain = .ok s) (m : Machine) :
    (textOf x).run m = (.ok s, m) := by
  rw [textOf, run_ofExcept, h]

theorem run_number {q : List String} {i : Nat} (h : q[i]? = some (toString r)) (hr : r.natAbs < 10 ^ 10)
    (m : Machine) : (number q i).run m = (.ok r, m) := by
  rw [number, run_bind_ok (run_field h m), Value.toInt_text_toString (Number.short_of_natAbs_lt hr)]
  rfl

/-- A value is stored in the cell of a plain address. -/
theorem run_store (hm : m.Standard) (h : m.spot? (a + i) = some s) (ha : a.natAbs < 10 ^ 10)
    (h0 : 1000 ≤ a + i) (h1 : a + i < 31000) (v : Value) : (store v (toString a) i).run m
      = (.ok (), m.write s ⟨v, .of (m.storeType (a + i))⟩) := by
  simp only [store, ExceptT.run, store_spot hm h ha h0 h1 v]

/-- The operands of a cell are read and pasted together before anything is stored. -/
theorem yields_operateCell_paste (ha : m.Holds a i u) (hb : m.Holds b i v) (hfit : o.Fits u v)
    (place : Int) {room : Bool} {P : Meaning → Machine → Prop}
    (hfill : ∀ x y (w : Meaning), x.Means u → y.Means v → u.Short ∧ v.Short → Yields (do
        store w.value (toString r) i
        let shown ← textOf w.value
        say place ((← textOf x) ++ " " ++ o.word ++ " " ++ (← textOf y) ++ " = " ++ shown ++ " -> (" ++
          toString r ++ offsetText i ++ ")"))
      { m with names := m.names.put indexName (.int i) } (if room then w.checked else .error .badStore) P) :
    Yields (operateCell place [o.word, toString a, toString b, toString r] o o.word i) m
      (o.fill room u v) P := by
  obtain ⟨x, hx, hxu⟩ := ha
  obtain ⟨y, hy, hyv⟩ := hb
  let m₁ : Machine := { m with names := m.names.put indexName (.int i) }
  have hpaste : (ofExcept fun m => paste m.names o x y).run m₁ = (if u.Short ∧ v.Short then
      (o.exact u v).map Meaning.value else .error .longNumber, m₁) := by
    rw [run_ofExcept, hxu.paste hyv hfit]
  unfold Yields
  rw [operateCell, run_bind_ok (run_field rfl m), run_bind_ok (run_value hx),
    run_bind_ok (run_field rfl m), run_bind_ok (run_value hy), run_bind_ok (run_modify _ m), Operator.fill]
  by_cases hshort : u.Short ∧ v.Short
  case neg =>
    rw [if_neg hshort] at hpaste ⊢
    exact ⟨m₁, run_bind_error hpaste⟩
  rw [if_pos hshort] at hpaste ⊢
  rcases hw : o.exact u v with f | w <;> rw [hw] at hpaste
  · exact ⟨m₁, run_bind_error hpaste⟩
  · rw [run_bind_ok hpaste, run_bind_ok (run_field rfl m₁)]
    exact hfill x y w hxu hyv hshort

theorem yields_operateCell (hm : m.Standard) (ha : m.Holds a i u) (hb : m.Holds b i v)
    (hfit : o.Fits u v) (hs : m.spot? (r + i) = some s) (hr : r.natAbs < 10 ^ 10)
    (h0 : 1000 ≤ r + i) (h1 : r + i < 31000) (place : Int) :
    Yields (operateCell place [o.word, toString a, toString b, toString r] o o.word i) m
      (o.compute u v) fun w m' => ∃ names printed,
        m' = { m.write s ⟨w.value, .of (m.storeType (r + i))⟩ with names, printed } := by
  rw [← Operator.fill_true]
  refine yields_operateCell_paste ha hb hfit place fun x y w hxu hyv hshort => ?_
  let m₁ : Machine := { m with names := m.names.put indexName (.int i) }
  let m₂ := m₁.write s ⟨w.value, .of (m.storeType (r + i))⟩
  have hstore : (store w.value (toString r) i).run m₁ = (.ok (), m₂) :=
    run_store (m := m₁) ⟨hm.1, hm.2, hm.3, hm.4⟩ hs hr h0 h1 w.value
  rw [if_pos rfl, Meaning.checked]
  rcases (Value.Means.ofMeaning w).plain with ⟨hws, sw, hsw⟩ | ⟨hws, hsw⟩
  · obtain ⟨sx, hsx⟩ := hxu.plain.resolve_right (fun h => h.1 hshort.1) |>.2
    obtain ⟨sy, hsy⟩ := hyv.plain.resolve_right (fun h => h.1 hshort.2) |>.2
    obtain ⟨printed, hsay⟩ := run_say place (sx ++ " " ++ o.word ++ " " ++ sy ++ " = " ++ sw ++
      " -> (" ++ toString r ++ offsetText i ++ ")") m₂
    rw [if_pos hws]
    refine ⟨{ m₂ with printed := printed }, ?_, m₁.names, printed, ?_⟩
    · rw [run_bind_ok hstore, run_bind_ok (run_textOf hsw m₂), run_bind_ok (run_textOf hsx m₂),
        run_bind_ok (run_textOf hsy m₂), hsay]
    · simp only [m₂, m₁, write]
      cases s.row <;> rfl
  · rw [if_neg hws]
    exact ⟨m₂, (run_bind_ok hstore).trans (run_bind_error (by rw [textOf, run_ofExcept, hsw]))⟩

/-- Behind the last cell of a frame there is no room for a result. -/
theorem yields_operateCell_full (hm : m.Standard) {era : Counts} (hframe : m.TempFrame n era)
    (ha : m.Holds a i u) (hb : m.Holds b i v) (hfit : o.Fits u v) {t : Scalar}
    (hr : r.natAbs < 10 ^ 10) (h0 : Segment.temp.start t ≤ r + i)
    (h1 : r + i < Segment.temp.start t + Counts.wholeTemps.get t)
    (h2 : era.total ≤ era.before t + (r + i - Segment.temp.start t)) (place : Int)
    (P : Meaning → Machine → Prop) :
    Yields (operateCell place [o.word, toString a, toString b, toString r] o o.word i) m
      (o.fill false u v) P := by
  refine yields_operateCell_paste ha hb hfit place fun x y w _ _ _ => ?_
  let m₁ : Machine := { m with names := m.names.put indexName (.int i) }
  have hframe₁ : m₁.TempFrame n era :=
    { hframe with }
  have hstore : (store w.value (toString r) i).run m₁ = (.error .badStore, m₁) := by
    have hfull := hframe₁.store_of_le ⟨hm.1, hm.2, hm.3, hm.4⟩ t hr h0 h1 h2 w.value
    simp only [store, ExceptT.run, hfull]
  exact ⟨m₁, run_bind_error hstore⟩

/-- A quad with an operator is an operation on all cells. -/
theorem run_perform_operator {q : List String} (hq : q.headD "" = o.word) {m' : Machine}
    {place : Int} {r : Except MachineFault Unit}
    (h : (forCells (operateCell place q o o.word)).run m = (r, m')) :
    (perform place q).run m = (r.map fun _ => .after place, m') := by
  rw [perform, hq, Operator.ofWord?_word]
  rw [← operate_eq] at h
  cases r with
  | ok _ => exact run_bind_ok h
  | error f => exact run_bind_error h

/-! ### Branches -/

variable {xs : Nat → Value}

theorem run_allTrue {q : List String} {operand : String} (hq : q[1]? = some operand) {is : List Nat}
    (h : ∀ i ∈ is, m.value (.text operand) i = .ok (xs i)) :
    (allTrue (field q 1) is).run m = (.ok (is.all fun i => (xs i).truthy), m) := by
  induction is with
  | nil => rfl
  | cons i is ih =>
    rw [allTrue, run_bind_ok (run_field hq m), run_bind_ok (run_value (h i List.mem_cons_self)), List.all_cons]
    split
    · next htrue => rw [ih fun j hj => h j (List.mem_cons_of_mem i hj), htrue, Bool.true_and]
    · next hfalse => rw [Bool.eq_false_iff.mpr hfalse]; rfl

/-- The jump is made unless all cells count as true. -/
theorem run_goToIfFalse (hn : m.width = .ok n)
    (hxs : ∀ i < n, m.value (.text (toString a)) i = .ok (xs i)) (hr : r.natAbs < 10 ^ 10)
    (place : Int) (none : String) : ∃ m', (goToIfFalse place ["GoToF", toString a, none, toString r]).run m =
      (.ok (if (List.range n).all fun i => (xs i).truthy then .after place else .jump r), m') := by
  have hwidth : (ofExcept Machine.width).run m = (.ok (n : Int), m) := by rw [run_ofExcept, hn]
  rw [goToIfFalse, run_bind_ok hwidth, Int.toNat_natCast,
    run_bind_ok (run_allTrue rfl fun i hi => hxs i (List.mem_range.mp hi))]
  split
  · obtain ⟨printed, hsay⟩ := run_say place "Denied jump because true" m
    exact ⟨_, run_bind_ok hsay⟩
  · obtain ⟨printed, hsay⟩ := run_say place ("Allowed jump -> " ++ toString r) m
    rw [run_bind_ok (run_field rfl m), run_bind_ok hsay]
    exact ⟨_, run_bind_ok (run_number rfl hr _)⟩

/-- The jump is made exactly if a cell holds false itself.  So it is missed exactly where some cells stand
for false and all of these hold the word for it. -/
theorem goToIfFalse_right_iff {bs : Nat → Bool} (hn : m.width = .ok n)
    (hxs : ∀ i < n, m.value (.text (toString a)) i = .ok (xs i)) (hbs : ∀ i < n, (xs i).Means (.truth (bs i)))
    (hr : r.natAbs < 10 ^ 10) (place : Int) (none : String) :
    ∃ flow m', (perform place ["GoToF", toString a, none, toString r]).run m = (.ok flow, m') ∧
      (flow = .jump r ∨ flow = .after place) ∧ (flow = .jump r ↔ ∃ i < n, xs i = .truth false) ∧
      ((flow = .jump r ↔ ∃ i < n, bs i = false) ↔ ((∃ i < n, bs i = false) → ∃ i < n, xs i = .truth false)) := by
  obtain ⟨m', hrun⟩ := run_goToIfFalse hn hxs hr place none
  have hfalse : ¬(List.range n).all (fun i => (xs i).truthy) ↔ ∃ i < n, xs i = .truth false := by
    simp only [List.all_eq_true, List.mem_range, not_forall, Bool.not_eq_true, exists_prop]
    exact exists_congr fun i => and_congr_right fun hi => (hbs i hi).truthy_eq_false
  have hmeans : (∃ i < n, xs i = .truth false) → ∃ i < n, bs i = false := by
    rintro ⟨i, hi, hx⟩
    have hb := hbs i hi
    rw [hx] at hb
    exact ⟨i, hi, Meaning.truth.inj (hb.unique (.truth false))⟩
  refine ⟨_, m', hrun, ?_⟩
  rw [← hfalse] at hmeans ⊢
  split
  · simp_all
  · simp_all

/-- A condition that is the constant false. -/
theorem goToIfFalse_misses : ∃ m flow m', Machine.value m (.text "31000") 0 = .ok (.text "False") ∧
    (perform 7 ["GoToF", "31000", "None", "9"]).run m = (.ok flow, m') ∧ flow ≠ .jump 9 := by
  let m : Machine := { Machine.blank with constants := #[some ⟨.text "False", .of .bool⟩] }
  have hfalse : ∀ i < 1, m.value (.text (toString (31000 : Int))) (i : Nat) = .ok (.text "False") := by
    intro i hi
    obtain rfl := Nat.lt_one_iff.mp hi
    rfl
  obtain ⟨flow, m', hrun, -, hjump, -⟩ := goToIfFalse_right_iff (m := m) (n := 1) (r := 9) rfl hfalse
    (fun _ _ => .word false) (by decide) 7 "None"
  refine ⟨m, flow, m', rfl, hrun, fun h => ?_⟩
  obtain ⟨i, -, hi⟩ := hjump.mp h
  cases hi

end Exec

end QuadLang
