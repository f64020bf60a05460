/-
Assignments of whole arrays.

An assignment copies one cell after the other, from an array or from the temporary cells
of a result.  So what the variable gets is the batch of the expression:

* `Machine.runs_assignment` — the quads of an assignment copy all cells, when none of them
  is written before it is read;
* `Formula.batch_assigned` — an assignment of an expression of arrays is compiled to quads
  that store its batch, which is right cell by cell when there is at most one operator.

Design notes: the cells of the arrays are said to be apart in memory, where different
indexes have different cells.  A variable is then apart from itself, so that it may stand on
both sides.
-/
import QuadLang.Proofs.Batches

namespace QuadLang

variable {m : Machine} {dims : List Int} {u : Meaning} {place : Nat} {c' : Compiler}

/-! ### Copying a cell -/

namespace Exec

open Machine

/-- What an assignment does for one cell. -/
def assignCell (place : Int) (q : List String) (i : Int) : Exec Unit := do
  let v ← value (← field q 1) i
  modify fun m => { m with lastValue := some v }
  let target ← field q 3
  store v target i
  say place ((← textOf v) ++ " -> (" ++ target ++ offsetText i ++ ")")

theorem run_perform_assign {q : List String} (hq : q.headD "" = "=") {m' : Machine} {place : Int}
    {r : Except MachineFault Unit} (h : (forCells (assignCell place q)).run m = (r, m')) :
    (perform place q).run m = (r.map fun _ => .after place, m') := by
  have hassign : (assign place q).run m = (r, m') := h
  rw [perform, hq, show Operator.ofWord? "=" = none from rfl]
  cases r with
  | ok _ => exact Steps.run_bind_ok hassign
  | error f => exact Steps.run_bind_error hassign

/-- An integer is stored before it is written down. -/
theorem yields_assignCell (hm : m.Standard) {a x i : Int} {s : Spot} (ha : m.Holds a i u)
    (hu : u.type = .int) (hs : m.spot? (x + i) = some s) (hx : x.natAbs < 10 ^ 10)
    (h0 : 1000 ≤ x + i) (h1 : x + i < 31000) (htype : m.storeType (x + i) = .int) (place : Int)
    (word none : String) :
    Steps.Yields (assignCell place [word, toString a, none, toString x] i) m u.checked
      fun w m' => w = u ∧ ∃ last printed,
        m' = { m.write s u.cell with lastValue := last, printed := printed } := by
  obtain ⟨v, hv, hvu⟩ := ha
  obtain rfl : v = u.value := by
    cases hvu with
    | int i => rfl
    | truth b => rfl
    | word b => cases hu
  let m₁ : Machine := { m with lastValue := some u.value }
  let m₂ := m₁.write s u.cell
  have hstore : (store u.value (toString x) i).run m₁ = (.ok (), m₂) := by
    have := run_store (m := m₁) ⟨hm.1, hm.2, hm.3, hm.4⟩ hs hx h0 h1 u.value
    rwa [show m₁.storeType (x + i) = u.type from htype.trans hu.symm] at this
  have hrun : (assignCell place [word, toString a, none, toString x] i).run m = (do
      say place ((← textOf u.value) ++ " -> (" ++ toString x ++ offsetText i ++ ")") :
        Exec Unit).run m₂ := by
    rw [assignCell, Steps.run_bind_ok (run_field rfl m), Steps.run_bind_ok (run_value hv),
      Steps.run_bind_ok (Steps.run_modify _ m), Steps.run_bind_ok (run_field rfl m₁),
      Steps.run_bind_ok hstore]
  rcases (Value.Means.ofMeaning u).plain with ⟨hshort, t, ht⟩ | ⟨hshort, ht⟩
  · obtain ⟨printed, hsay⟩ := run_say place (t ++ " -> (" ++ toString x ++ offsetText i ++ ")") m₂
    rw [Meaning.checked, if_pos hshort]
    refine ⟨_, hrun.trans ((Steps.run_bind_ok (run_textOf ht m₂)).trans hsay), rfl,
      some u.value, printed, ?_⟩
    simp only [m₂, m₁, write]
    cases s.row <;> rfl
  · rw [Meaning.checked, if_neg hshort]
    exact ⟨m₂, hrun.trans (Steps.run_bind_error (by rw [textOf, run_ofExcept, ht]))⟩

end Exec

/-! ### Copying an array -/

namespace Machine

/-- Different indexes into two arrays have different cells. -/
def Apart (m : Machine) (a b : Int) (size : Nat) : Prop :=
  ∀ i j : Nat, i < size → j < size → m.spot? (a + i) = m.spot? (b + j) → i = j

/-- The variable at an address is an array of integers. -/
structure IntsAt (m : Machine) (x : Int) (size : Nat) : Prop where
  inside : 1000 ≤ x ∧ x + size ≤ 4000 ∨ 9000 ≤ x ∧ x + size ≤ 13000
  spot : ∀ i : Nat, i < size → ∃ s, m.spot? (x + i) = some s
  apart : m.Apart x x size

/-- What is true while cells are copied to an array. -/
structure Copying (m : Machine) (x : Int) (done : List Meaning) (m' : Machine) : Prop where
  fills : Fills (fun s => ∃ j : Nat, j < done.length ∧ m.spot? (x + j) = some s) m m'
  copied : ∀ (i : Nat) u s, done[i]? = some u → m.spot? (x + i) = some s → m'.content s = some u.cell

variable {m m' : Machine} {a x : Int} {size : Nat} {cells done : List Meaning}

theorem storeType_variable (hm : m.Standard) (h : 1000 ≤ x ∧ x < 4000 ∨ 9000 ≤ x ∧ x < 13000) :
    m.storeType x = .int := by
  simp [storeType, hm.globalBounds, hm.localBounds, hm.tempBounds, Bounds.stop, Bounds.at_,
    Bounds.typeOf, Segment.bounds]
  grind

theorem Copying.moved (h : Copying m x done m') (place : Int) (extents : List Int)
    (printed : List String) :
    Copying m x done { m' with place := place, extents := extents, printed := printed } where
  fills := h.fills.trans (.moved _ m' place extents printed)
  copied i u s hu hs := by
    rw [(Fills.moved (fun _ => False) m' place extents printed).content s id]
    exact h.copied i u s hu hs

/-- A copied cell has been read before anything was written to it. -/
theorem Copying.next (h : Copying m x done m') (hm : m.Standard) (hx : m.IntsAt x size)
    (h0 : 1000 ≤ a) (h1 : a + size ≤ 38000)
    (ha : ∀ i : Nat, i < size → m.Holds a i (cells.getD i (.int 0))) (hints : Ints cells)
    (hapart : m.Apart a x size) (hdone : done.length < size) (place : Int) (word none : String) :
    Steps.Yields (Exec.assignCell place [word, toString a, none, toString x] done.length) m'
      (cells.getD done.length (.int 0)).checked fun u => Copying m x (done ++ [u]) := by
  have hread : m'.Holds a done.length (cells.getD done.length (.int 0)) := by
    obtain ⟨v, hv, hvu⟩ := ha done.length hdone
    obtain ⟨s, hs⟩ := spot?_of_value (by omega) hv
    refine h.fills.holds hm hs ?_ (by omega) (by omega) (by omega) ⟨v, hv, hvu⟩
    rintro ⟨j, hj, hsj⟩
    have := hapart done.length j hdone (by omega) (hs.trans hsj.symm)
    omega
  obtain ⟨s, hs⟩ := hx.spot done.length hdone
  have hs' : m'.spot? (x + done.length) = some s := by rw [h.fills.spot?, hs]
  have hin := hx.inside
  have htype : m'.storeType (x + done.length) = .int :=
    storeType_variable (h.fills.standard hm) (by omega)
  have hcell := Exec.yields_assignCell (h.fills.standard hm) hread (hints.getD _) hs' (by omega)
    (by omega) (by omega) htype place word none
  generalize cells.getD done.length (.int 0) = u at hcell
  rcases hu : u.checked with f | w <;> rw [hu] at hcell
  · exact hcell
  obtain ⟨m'', hrun, rfl, last, printed, hm''⟩ := hcell
  have hindex := index_lt_of_spot? hs'
  have hfills : Fills (· = s) m' m'' := hm'' ▸ Fills.ofWrite hindex w.cell
  have hcontent : m''.content s = some w.cell := by
    have := content_write hindex w.cell s
    rw [if_pos rfl] at this
    rw [hm'']
    exact this
  refine ⟨m'', hrun, (h.fills.mono ?_).trans (hfills.mono ?_), ?_⟩
  · rintro s' ⟨j, hj, hsj⟩
    exact ⟨j, by rw [List.length_append]; omega, hsj⟩
  · rintro s' rfl
    exact ⟨done.length, by simp, hs⟩
  · intro i u si hi hsi
    by_cases hlt : i < done.length
    · rw [List.getElem?_append_left hlt] at hi
      rw [hfills.content si ?_]
      · exact h.copied i u si hi hsi
      · rintro rfl
        have := hx.apart i done.length (by omega) hdone (hsi.trans hs.symm)
        omega
    · obtain rfl : i = done.length := by
        have := (List.getElem?_eq_some_iff.mp hi).1
        simp at this
        omega
      rw [List.getElem?_concat_length] at hi
      cases hi
      cases hs.symm.trans hsi
      exact hcontent

/-- The quads of an assignment copy all cells, up to the first number that is too long to be
written. -/
theorem runs_assignment (hshape : Shaped dims size) (hm : m.Standard) (hplace : m.place = place)
    (hcode : m.CodeAt place (assignQuads dims a x)) (hx : m.IntsAt x size) (h0 : 1000 ≤ a)
    (h1 : a + size ≤ 38000) (ha : ∀ i : Nat, i < size → m.Holds a i (cells.getD i (.int 0)))
    (hints : Ints cells) (hapart : m.Apart a x size) :
    match collect (fun done => (cells.getD done.length (.int 0)).checked) size with
    | .ok us => ∃ m', Walks (assignQuads dims a x).length m m' ∧ Copying m x us m'
    | .error f => StopsWithin (assignQuads dims a x).length m f :=
  runs_cells hshape hplace hcode (Exec.run_perform_assign rfl)
    (fun place extents printed h => h.moved place extents printed)
    ⟨.refl _ m, nofun⟩
    fun place _ _ hdone h => h.next hm hx h0 h1 ha hints hapart hdone place _ _

/-- The cells of the variable stand for what was copied to them. -/
theorem Copying.holds (h : Copying m x done m') (hm : m.Standard) (hx : m.IntsAt x size)
    (hdone : done.length = size) {i : Nat} (hu : done[i]? = some u) : m'.Holds x i u := by
  have hi := (List.getElem?_eq_some_iff.mp hu).1
  obtain ⟨s, hs⟩ := hx.spot i (by omega)
  have hin := hx.inside
  exact holds_of_content (h.fills.standard hm) (by rw [h.fills.spot?, hs]) (h.copied i u s hu hs)
    (by omega) (by omega) (by omega)

end Machine

/-! ### The result of a tree as the source of an assignment -/

namespace Tree

open Machine

/-- What an assignment of a tree of arrays stores: the cells of its batch, which have to be
written once more. -/
def stored (ρ : Nat → Leaf → Meaning) (size room : Nat) (t : Tree) :
    Except MachineFault (List Meaning) := do
  let (cells, _) ← t.batch ρ size room
  collect (fun done => (cells.getD done.length (.int 0)).checked) size

variable {ρ : Nat → Leaf → Meaning} {size room n b : Nat} {t : Tree} {m m' : Machine} {era k : Counts}
  {at_ : Leaf → Int} {x : Int} {cells firsts us : List Meaning}

theorem stored_error {f : MachineFault} (h : t.batch ρ size room = .error f) :
    t.stored ρ size room = .error f := by
  rw [stored, h]
  rfl

theorem stored_of_batch (h : t.batch ρ size room = .ok (cells, firsts)) :
    t.stored ρ size room = collect (fun done => (cells.getD done.length (.int 0)).checked) size := by
  rw [stored, h]
  rfl

/-- What is stored is the batch. -/
theorem stored_eq_ok (h : t.stored ρ size room = .ok us) :
    ∃ firsts, t.batch ρ size room = .ok (us, firsts) := by
  rcases hb : t.batch ρ size room with f | ⟨cells, firsts⟩
  · rw [stored_error hb] at h; cases h
  rw [stored_of_batch hb] at h
  obtain ⟨hlength, hnext⟩ := collect_eq_ok h
  have hcells := length_batch hb
  suffices us = cells by exact ⟨firsts, by rw [this]⟩
  refine List.ext_getElem (by omega) fun i hi hi' => ?_
  have hu := hnext i us[i] (List.getElem?_eq_getElem hi)
  have htake : (us.take i).length = i := by
    rw [List.length_take]
    omega
  rw [htake, Meaning.checked_eq_ok, List.getD_eq_getElem?_getD, List.getElem?_eq_getElem hi'] at hu
  exact hu.2.symm

theorem stored_of_eval (hone : t.operators.length ≤ 1 ∨ size = 1)
    (hroom : t.operators ≠ [] → t.operators.length + size ≤ room + 1)
    (heval : ∀ k < size, ∃ v, t.eval (ρ k) = .ok v ∧ v.Short) :
    ∃ us, t.stored ρ size room = .ok us := by
  obtain ⟨cells, firsts, hb⟩ := batch_of_eval hone hroom fun k hk =>
    have ⟨v, hv, _⟩ := heval k hk
    ⟨v, hv⟩
  rw [stored_of_batch hb]
  refine collect_ok_of_next fun done hdone => ?_
  obtain ⟨v, hv, hshort⟩ := heval done.length hdone
  cases hv.symm.trans (eval_of_batch hb hdone (by omega))
  exact ⟨_, Meaning.checked_eq_ok.mpr ⟨hshort, rfl⟩⟩

section

variable (hm : m.Standard) (hf : m.TempFrame n era) (hops : ∀ o ∈ t.operators, o.Arithmetic) (hb : k.int = b)
  (hlimit : t.operators ≠ [] → b + t.operators.length + size ≤ 4001)
include hm hf hops hb hlimit

/-- All cells of the result of a tree can be read, when it has just been computed. -/
theorem Computed.holds (h : Computed m n b t cells firsts m')
    (hbatch : t.batch ρ size room = .ok (cells, firsts))
    (hleaf : ∀ x ∈ t.leaves, m.ArrayAt (at_ x) size (ρ · x)) :
    1000 ≤ t.address at_ k ∧ t.address at_ k + size ≤ 38000 ∧
      ∀ i : Nat, i < size → m'.Holds (t.address at_ k) i (cells.getD i (.int 0)) := by
  have hlength := length_batch hbatch
  cases t with
  | leaf y =>
    cases hbatch
    have harray := (hleaf y (List.mem_singleton_self y)).fills hm hf h.fills
    refine ⟨harray.low, Int.le_trans harray.high (by decide), fun i hi => ?_⟩
    have := harray.holds i hi
    simpa [address, List.getElem?_range hi] using this
  | op o l r =>
    replace hlimit := hlimit (by simp [operators])
    rw [length_operators_op] at hlimit
    rw [address_op hops hb]
    refine ⟨by omega, by omega, fun i hi => ?_⟩
    have hget := List.getElem?_eq_getElem (show i < cells.length by omega)
    rw [List.getD_eq_getElem?_getD, hget]
    exact (h.block o l r rfl).holds (h.fills.standard hm) (h.fills.tempFrame hf) hget (by omega)
      (by omega) (by omega)

/-- The result of a tree is apart from a variable that its arrays are apart from. -/
theorem Computed.apart (h : Computed m n b t cells firsts m') (hx : m.IntsAt x size)
    (hleaf : ∀ y ∈ t.leaves, m.Apart (at_ y) x size) : m'.Apart (t.address at_ k) x size := by
  intro i j hi hj hij
  rw [h.fills.spot?, h.fills.spot?] at hij
  cases t with
  | leaf y => exact hleaf y (List.mem_singleton_self y) i j hi hj hij
  | op o l r =>
    -- The temporary cells and the variable are not in the same row.
    exfalso
    replace hlimit := hlimit (by simp [operators])
    rw [length_operators_op] at hlimit
    rw [address_op hops hb] at hij
    obtain ⟨s, hs⟩ := hx.spot j hj
    have hin := hx.inside
    refine hf.row_ne hm hs (by omega) ?_
    rcases row_of_spot? hm (hij.trans hs) with ⟨h', -⟩ | ⟨-, h', -⟩ | ⟨-, -, n', hn, hr⟩ | ⟨h', -⟩
    · omega
    · omega
    · cases hn.symm.trans hf.top
      exact hr
    · omega

/-- The quads of a tree of arrays and of its assignment store its batch, and change nothing but
the variable and temporary cells. -/
theorem runs_stored (hshape : Shaped dims size) (hplace : m.place = place)
    (hcode : m.CodeAt place (t.quads at_ dims k ++ assignQuads dims (t.address at_ k) x))
    (hroom : (b : Int) + room = era.total) (hfit : t.operators.length ≤ room)
    (hleaf : ∀ y ∈ t.leaves, m.ArrayAt (at_ y) size (ρ · y)) (hx : m.IntsAt x size)
    (hapart : ∀ y ∈ t.leaves, m.Apart (at_ y) x size) : match t.stored ρ size room with
    | .ok us => ∃ m', Walks (t.quads at_ dims k ++ assignQuads dims (t.address at_ k) x).length m m' ∧
      (∀ (i : Nat) u, us[i]? = some u → m'.Holds x i u) ∧
      Fills (fun s => TempsFrom n b s ∨ ∃ j : Nat, j < size ∧ m.spot? (x + j) = some s) m m'
    | .error f =>
      StopsWithin (t.quads at_ dims k ++ assignQuads dims (t.address at_ k) x).length m f := by
  rw [codeAt_append] at hcode
  rw [List.length_append]
  have htree := runs_batch hshape hm hf hplace hcode.1 hb hops hroom hfit hlimit hleaf
  rcases hbatch : t.batch ρ size room with f | ⟨cells, firsts⟩ <;> rw [hbatch] at htree
  · rw [stored_error hbatch]
    exact htree.mono (Nat.le_add_right _ _)
  obtain ⟨m₁, hw₁, hc⟩ := htree
  have hplace₁ : m₁.place = (place + (t.quads at_ dims k).length : Nat) := by
    rw [hw₁.place, hplace]
    rfl
  have hx₁ : m₁.IntsAt x size := by
    refine ⟨hx.inside, fun i hi => ?_, fun i j hi hj => ?_⟩
    · rw [hc.fills.spot?]
      exact hx.spot i hi
    · rw [hc.fills.spot?, hc.fills.spot?]
      exact hx.apart i j hi hj
  obtain ⟨hlow, hhigh, hsource⟩ := hc.holds hm hf hops hb hlimit hbatch hleaf
  have hassign := runs_assignment hshape (hc.fills.standard hm) hplace₁ (hc.fills.codeAt hcode.2) hx₁
    hlow hhigh hsource hc.ints (hc.apart hm hf hops hb hlimit hx hapart)
  rw [stored_of_batch hbatch]
  rcases hus : collect _ size with f | us <;> rw [hus] at hassign
  · exact hw₁.stops hassign
  obtain ⟨m₂, hw₂, hcopy⟩ := hassign
  have hlength := (collect_eq_ok hus).1
  refine ⟨m₂, hw₁.trans hw₂, fun i u hu => hcopy.holds (hc.fills.standard hm) hx₁ hlength hu, ?_⟩
  refine (hc.fills.mono fun s => .inl).trans (hcopy.fills.mono ?_)
  rintro s ⟨j, hj, hs⟩
  rw [hc.fills.spot?] at hs
  exact .inr ⟨j, by omega, hs⟩

end

/-- A tree of integers with arithmetic operators is an integer. -/
theorem type?_int {γ : Leaf → Option Scalar} (hleaf : ∀ x ∈ t.leaves, γ x = some .int)
    (hops : ∀ o ∈ t.operators, o.Arithmetic) : t.type? γ = some .int := by
  induction t with
  | leaf x => exact hleaf x (List.mem_singleton_self x)
  | op o l r ihl ihr =>
    simp only [operators, List.mem_append, List.mem_singleton] at hops
    have hl := ihl (fun x hx => hleaf x (List.mem_append_left _ hx)) fun o ho => hops o (.inl (.inl ho))
    have hr := ihr (fun x hx => hleaf x (List.mem_append_right _ hx)) fun o ho => hops o (.inl (.inr ho))
    rw [type?, hl, hr]
    rcases hops o (.inr rfl) with rfl | rfl | rfl | rfl <;> rfl

end Tree

/-! ### The main statement -/

open Machine

/-- What a leaf stands for in the cells with index `k`. -/
def Leaf.cellMeaning (σ : String → Nat → Int) (k : Nat) : Leaf → Meaning :=
  Leaf.meaning fun name => .int (σ name k)

/-- Each cell of the variable stands for the value of the tree on the cells with its index. -/
def Machine.Elementwise (m : Machine) (x : Int) (size : Nat) (t : Tree) (ρ : Nat → Leaf → Meaning) :
    Prop :=
  ∀ k : Nat, k < size → ∃ v, t.exact (ρ k) = .ok v ∧ m.Holds x k v

/-- What the cells of the variable stand for decides whether they are right. -/
theorem Machine.elementwise_iff {x : Int} {size : Nat} {t : Tree} {ρ : Nat → Leaf → Meaning}
    {cells : List Meaning} (hlength : cells.length = size)
    (h : ∀ (k : Nat) u, cells[k]? = some u → m.Holds x k u) :
    m.Elementwise x size t ρ ↔ ∀ k < size, t.exact (ρ k) = .ok (cells.getD k (.int 0)) := by
  have hholds : ∀ k : Nat, k < size → m.Holds x k (cells.getD k (.int 0)) := by
    intro k hk
    have hget := List.getElem?_eq_getElem (show k < cells.length by omega)
    rw [List.getD_eq_getElem?_getD, hget]
    exact h k _ hget
  constructor
  · intro helement k hk
    obtain ⟨v, hv, hvx⟩ := helement k hk
    rw [hv, hvx.unique (hholds k hk)]
  · exact fun hexact k hk => ⟨_, hexact k hk, hholds k hk⟩

/-- The temporary integers in use fit in the frame. -/
theorem Machine.Poised.int_le_total {c : Compiler} {n : Nat} {era : Counts}
    (h : m.Poised c c' n era) : c'.space.temps.int ≤ era.total := by
  have hle : c'.space.temps.int ≤ era.int := h.temps .int
  have hbefore : 0 + era.int ≤ era.total := Counts.before_add_get_le h.frame.nonneg .int
  omega

/-- The variable and the arrays of a tree, assigned and apart. -/
structure Machine.Arrays (m : Machine) (c : Compiler) (x : Variable) (size : Nat) (t : Tree)
    (σ : String → Nat → Int) : Prop where
  target : m.IntsAt x.address size
  operand : ∀ name v, .var name ∈ t.leaves → c.lookup? name = some v →
    m.ArrayAt v.address size fun k => .int (σ name k)
  apart : ∀ name v, .var name ∈ t.leaves → c.lookup? name = some v →
    m.Apart v.address x.address size

/-! ### An example -/

/-- The compiler in a function with four arrays of two integers. -/
def Compiler.inArrays : Compiler := { Compiler.start false "" with
  functions := [("main", ⟨"main", .void, none, [], none, some [], [], []⟩),
    ("f", ⟨"f", .void, none, [], none,
      some [("x", ⟨"x", .of .int, 9000, [2]⟩), ("a", ⟨"a", .of .int, 9002, [2]⟩),
        ("b", ⟨"b", .of .int, 9004, [2]⟩), ("c", ⟨"c", .of .int, 9006, [2]⟩)], [], []⟩)]
  globalName := some "main"
  currentName := some "f" }

theorem Operator.level_add : Operator.add.level = 2 := rfl

/-- The expression `a + b + c`. -/
def Formula.sum : Formula 4 :=
  .chain (n := 3) (.chain (n := 2) (.chain (n := 1) (.chain (n := 0) (.var "a") .stop)
    (.more (n := 1) .add Operator.level_add (.chain (n := 0) (.var "b") .stop)
      (.more (n := 1) .add Operator.level_add (.chain (n := 0) (.var "c") .stop) .stop))) .stop) .stop

/-- What the arrays of the example stand for. -/
def Meaning.inArrays (name : String) (k : Nat) : Int :=
  (if name = "a" then [1, 2] else if name = "b" then [10, 20] else [100, 200]).getD k 0

/-- The machine in a call of the function, before the quads of `x = a + b + c`. -/
def Machine.inArrays : Machine := { blank with
  frames := #[#[], #[], (none :: none :: [1, 2, 10, 20, 100, 200].map fun i =>
    some ⟨.int i, .of .int⟩).toArray, #[none, none, none]]
  locals := [2, 0]
  temps := [3, 1]
  localOffsets := [offsetsOf [8, 0, 0, 0]]
  tempOffsets := [offsetsOf [3, 0, 0, 0]]
  quads := #[["MAT", "1", "2", "None"], ["+", "9002", "9004", "20000"], ["MAT", "1", "2", "None"],
    ["+", "20000", "9006", "20001"], ["MAT", "1", "2", "None"], ["=", "20001", "None", "9000"]] }

theorem Formula.run_sum : ∃ c', ((Dialect.plain.assignmentPhrase "x"
      (.expr (sum.phrase .plain))).run none).run .inArrays = (.ok none, c') ∧
    c'.space.temps = ⟨2, 0, 0, 0⟩ ∧
    c'.quads.map (·.map Field.shown) = Machine.inArrays.quads := by
  have hok : (((Dialect.plain.assignmentPhrase "x" (.expr (sum.phrase .plain))).run
      none).run .inArrays).1.toOption.any (·.isNone) = true := by decide +kernel
  refine ⟨(((Dialect.plain.assignmentPhrase "x" (.expr (sum.phrase .plain))).run
    none).run .inArrays).2, ?_, by decide +kernel, by decide +kernel⟩
  generalize ((Dialect.plain.assignmentPhrase "x" (.expr (sum.phrase .plain))).run none).run
    .inArrays = p at hok ⊢
  obtain ⟨_ | _ | _, c'⟩ := p
  · cases hok
  · rfl
  · cases hok

namespace Machine

theorem poised_inArrays (hrun : ((Dialect.plain.assignmentPhrase "x"
    (.expr (Formula.sum.phrase .plain))).run none).run .inArrays = (.ok none, c')) :
    inArrays.Poised .inArrays c' 3 ⟨3, 0, 0, 0⟩ := by
  obtain ⟨c, hrun', htemps, hcode⟩ := Formula.run_sum
  obtain rfl : c = c' := congrArg Prod.snd (hrun'.symm.trans hrun)
  refine ⟨⟨rfl, rfl, rfl, rfl⟩, ⟨rfl, by simp [inArrays], ?_, ?_, rfl, rfl⟩, rfl, ?_, ?_, ?_⟩
  · intro t; cases t <;> decide
  · intro t; cases t <;> decide
  · intro i q hq
    have hi : c.quads[i]? = some q := by simpa [Compiler.inArrays, Compiler.start] using hq
    rw [← hcode, Array.getElem?_map, show Compiler.inArrays.quads.size + i = i from Nat.zero_add i, hi]
    rfl
  · intro t; cases t <;> decide
  · intro t; rw [htemps]; cases t <;> decide

theorem arrays_inArrays : inArrays.Arrays .inArrays ⟨"x", .of .int, 9000, [2]⟩ 2 Formula.sum.tree
    Meaning.inArrays := by
  have hm : inArrays.Standard := ⟨rfl, rfl, rfl, rfl⟩
  have hspot : ∀ i : Nat, i < 8 → inArrays.spot? (9000 + i) = some ⟨.frame 2, i⟩ := by decide +kernel
  have hspots : ∀ o k : Nat, o + k < 8 →
      inArrays.spot? (9000 + (o : Int) + k) = some ⟨.frame 2, o + k⟩ := by
    intro o k hk
    rw [Int.add_assoc, ← Int.natCast_add]
    exact hspot (o + k) hk
  have hapart : ∀ o : Nat, o = 0 ∨ 2 ≤ o → o + 2 ≤ 8 → inArrays.Apart (9000 + o) 9000 2 := by
    intro o ho ho' i j hi hj hij
    rw [hspots o i (by omega), hspot j (by omega)] at hij
    have := congrArg Spot.index (Option.some.inj hij)
    simp only at this
    omega
  have harray : ∀ (o : Nat) (f : Nat → Int), o + 2 ≤ 8 →
      (∀ k < 2, inArrays.content ⟨.frame 2, o + k⟩ = some (Meaning.int (f k)).cell) →
      inArrays.ArrayAt (9000 + o) 2 fun k => .int (f k) := fun o f ho hf =>
    ⟨by omega, by omega, fun k hk => holds_of_content hm (hspots o k (by omega)) (hf k hk) (by omega)
      (by omega) (by omega), fun _ _ => rfl⟩
  have hcontent : ∀ (o : Nat) (f : Nat → Int), inArrays.content ⟨.frame 2, o⟩ = some (Meaning.int (f 0)).cell →
      inArrays.content ⟨.frame 2, o + 1⟩ = some (Meaning.int (f 1)).cell →
      ∀ k < 2, inArrays.content ⟨.frame 2, o + k⟩ = some (Meaning.int (f k)).cell := by
    intro o f h0 h1 k hk
    match k, hk with
    | 0, _ => exact h0
    | 1, _ => exact h1
  have hname : ∀ name v, Leaf.var name ∈ Formula.sum.tree.leaves →
      Compiler.inArrays.lookup? name = some v → inArrays.ArrayAt v.address 2
        (fun k => .int (Meaning.inArrays name k)) ∧ inArrays.Apart v.address 9000 2 := by
    intro name v hmem hv
    have hname : name = "a" ∨ name = "b" ∨ name = "c" := by
      simpa [Formula.sum, Formula.tree, Rest.tree, Tree.leaves] using hmem
    rcases hname with rfl | rfl | rfl
    · have ha : Compiler.inArrays.lookup? "a" = some ⟨"a", .of .int, 9002, [2]⟩ := by decide +kernel
      cases ha.symm.trans hv
      exact ⟨harray 2 _ (by omega) (hcontent 2 _ rfl rfl), hapart 2 (by omega) (by omega)⟩
    · have hb : Compiler.inArrays.lookup? "b" = some ⟨"b", .of .int, 9004, [2]⟩ := by decide +kernel
      cases hb.symm.trans hv
      exact ⟨harray 4 _ (by omega) (hcontent 4 _ rfl rfl), hapart 4 (by omega) (by omega)⟩
    · have hc : Compiler.inArrays.lookup? "c" = some ⟨"c", .of .int, 9006, [2]⟩ := by decide +kernel
      cases hc.symm.trans hv
      exact ⟨harray 6 _ (by omega) (hcontent 6 _ rfl rfl), hapart 6 (by omega) (by omega)⟩
  refine ⟨⟨.inr ⟨by decide, by decide⟩, fun i hi => ⟨_, hspot i (by omega)⟩, ?_⟩,
    fun name v hmem hv => (hname name v hmem hv).1, fun name v hmem hv => (hname name v hmem hv).2⟩
  exact hapart 0 (.inl rfl) (by omega)

end Machine

/-- Running an assignment `x = e` of whole arrays of integers, or of matrices, stores the batch
of `e`.  That is the value of `e` cell by cell when `e` has at most one operator or the arrays
have one cell; otherwise it is so where the batch happens to be. -/
theorem Formula.batch_assigned (d : Dialect) (e : Formula 4) (before : Option Literal)
    {c c' : Compiler} {r : Option Literal} {name : String} {x : Variable} {size : Nat}
    (htyped : c.ConstantsTyped) (hx : c.lookup? name = some x) (hxtype : x.type = .of .int)
    (hdims : x.dims.length = 1 ∨ x.dims.length = 2) (hcells : Compile.sizeOf x.dims = size)
    (hsize : 0 < size)
    (hleaf : ∀ l ∈ e.tree.leaves, ∃ y v, l = .var y ∧ c.lookup? y = some v ∧ v.type = .of .int ∧
      v.dims = x.dims)
    (hops : ∀ o ∈ e.tree.operators, o.Arithmetic)
    (hrun : ((d.assignmentPhrase name (.expr (e.phrase d))).run before).run c = (.ok r, c')) :
    (d.assignmentPhrase name (.expr (e.phrase d))).Valid d ∧ ∃ qs, c'.quads = c.quads ++ qs ∧
      ∀ m n era σ, m.Poised c c' n era → m.Arrays c x size e.tree σ →
        (e.tree.operators ≠ [] → c'.space.temps.int + size ≤ 4001) →
        (match e.tree.stored (Leaf.cellMeaning σ) size (era.total - c.space.temps.int).toNat with
        | .ok cells => ∃ m', Walks qs.size m m' ∧
          (∀ (k : Nat) u, cells[k]? = some u → m'.Holds x.address k u) ∧
          (m'.Elementwise x.address size e.tree (Leaf.cellMeaning σ) ↔
            ∀ k < size, e.tree.exact (Leaf.cellMeaning σ k) = .ok (cells.getD k (.int 0))) ∧
          e.tree.exact (Leaf.cellMeaning σ 0) = .ok (cells.getD 0 (.int 0)) ∧
          ∀ sp, m'.content sp ≠ m.content sp → sp.row = .frame n ∨
            ∃ k : Nat, k < size ∧ m.spot? (x.address + k) = some sp
        | .error f => StopsWithin qs.size m f) ∧
        (e.tree.operators.length ≤ 1 ∨ size = 1 →
          (e.tree.operators ≠ [] → c'.space.temps.int + size ≤ era.total + 1) →
          (∀ k < size, ∃ v, e.tree.eval (Leaf.cellMeaning σ k) = .ok v ∧ v.Short) →
          ∃ m', Walks qs.size m m' ∧ m'.Elementwise x.address size e.tree (Leaf.cellMeaning σ)) := by
  have htype : e.tree.type? (c.leafType? x.dims) = some .int := by
    refine Tree.type?_int (fun l hl => ?_) hops
    obtain ⟨y, v, rfl, hv, hvtype, hvdims⟩ := hleaf l hl
    simp [Compiler.leafType?, hv, hvtype, hvdims]
  obtain ⟨at_, hat, hquads, htemps⟩ := e.assigns d (by omega) htyped hx rfl htype
    (t := .int) (by rw [hxtype]; rfl) before hrun
  have hvalid := e.valid_phrase d (Nat.le_refl 4)
  refine ⟨Phrase.valid_assignmentPhrase (Phrase.valid_expr hvalid.1 hvalid.2) rfl name, _, hquads, ?_⟩
  intro m n era σ hm harrays hlimit
  -- Where the temporary cells begin, and how many there are.
  have hb : c.space.temps.int = (c.space.temps.int.toNat : Nat) :=
    (Int.toNat_of_nonneg (hm.nonneg .int)).symm
  have hused : c'.space.temps.int = c.space.temps.int + e.tree.operators.length := by
    rw [htemps, Tree.slots_int hops]
  have htotal := hm.int_le_total
  have hroom : ((c.space.temps.int.toNat : Nat) : Int) + (era.total - c.space.temps.int).toNat
      = era.total := by omega
  have hsmall : size < 10 ^ 10 := by
    have := harrays.target.inside
    omega
  have hvars : ∀ y ∈ e.tree.leaves, m.ArrayAt (at_ y) size (Leaf.cellMeaning σ · y) ∧
      m.Apart (at_ y) x.address size := by
    intro l hl
    obtain ⟨y, v, rfl, hv, -⟩ := hleaf l hl
    rw [hat y v hv]
    exact ⟨harrays.operand y v hl hv, harrays.apart y v hl hv⟩
  have hruns := Tree.runs_stored hm.standard hm.frame hops hb (fun h => by have := hlimit h; omega)
    ⟨hdims, hcells, hsize, hsmall⟩ hm.place (hm.codeAt hquads) hroom (by omega)
    (fun y hy => (hvars y hy).1) harrays.target fun y hy => (hvars y hy).2
  rw [← List.size_toArray] at hruns
  constructor
  · rcases hstored : e.tree.stored (Leaf.cellMeaning σ) size _ with f | cells <;>
      rw [hstored] at hruns
    · exact hruns
    obtain ⟨m', hwalks, hholds, hfills⟩ := hruns
    obtain ⟨firsts, hbatch⟩ := Tree.stored_eq_ok hstored
    refine ⟨m', hwalks, hholds, elementwise_iff (Tree.length_batch hbatch) hholds,
      Tree.exact_of_eval (Tree.eval_of_batch hbatch hsize (.inr rfl)), fun sp hsp => ?_⟩
    by_contra hnot
    rw [not_or] at hnot
    refine hsp (hfills.content sp ?_)
    rintro (h | h)
    · exact hnot.1 h.1
    · exact hnot.2 h
  · intro hone hspace heval
    obtain ⟨cells, hstored⟩ : ∃ cells, e.tree.stored (Leaf.cellMeaning σ) size
        (era.total - c.space.temps.int).toNat = .ok cells :=
      Tree.stored_of_eval hone (fun h => by have := hspace h; omega) heval
    rw [hstored] at hruns
    obtain ⟨m', hwalks, hholds, -⟩ := hruns
    obtain ⟨firsts, hbatch⟩ := Tree.stored_eq_ok hstored
    refine ⟨m', hwalks, (elementwise_iff (Tree.length_batch hbatch) hholds).mpr fun k hk => ?_⟩
    exact Tree.exact_of_eval (Tree.eval_of_batch hbatch hk (by omega))

theorem Formula.sum_assigned : ∃ c' m', ((Dialect.plain.assignmentPhrase "x"
      (.expr (sum.phrase .plain))).run none).run .inArrays = (.ok none, c') ∧
    Walks 6 .inArrays m' ∧ m'.Holds 9000 0 (.int 111) ∧ m'.Holds 9000 1 (.int 311) ∧
    sum.tree.exact (Leaf.cellMeaning Meaning.inArrays 1) = .ok (.int 222) ∧
    ¬ m'.Elementwise 9000 2 sum.tree (Leaf.cellMeaning Meaning.inArrays) := by
  obtain ⟨c', hrun, htemps, hcode⟩ := run_sum
  have hleaf : ∀ l ∈ sum.tree.leaves, ∃ y v, l = .var y ∧ Compiler.inArrays.lookup? y = some v ∧
      v.type = .of .int ∧ v.dims = [2] := by
    simp only [sum, tree, Rest.tree, Tree.leaves, List.mem_append, List.mem_singleton]
    rintro l ((rfl | rfl) | rfl)
    · exact ⟨"a", ⟨"a", .of .int, 9002, [2]⟩, rfl, by decide +kernel, rfl, rfl⟩
    · exact ⟨"b", ⟨"b", .of .int, 9004, [2]⟩, rfl, by decide +kernel, rfl, rfl⟩
    · exact ⟨"c", ⟨"c", .of .int, 9006, [2]⟩, rfl, by decide +kernel, rfl, rfl⟩
  have hops : ∀ o ∈ sum.tree.operators, o.Arithmetic := by
    simp [sum, tree, Rest.tree, Tree.operators, Operator.Arithmetic]
  have hcells : Compile.sizeOf [2] = (2 : Nat) := rfl
  obtain ⟨-, qs, hquads, hresult⟩ := batch_assigned .plain sum none (c := .inArrays)
    (x := ⟨"x", .of .int, 9000, [2]⟩) (fun _ hk => absurd hk List.not_mem_nil) (by decide +kernel) rfl (.inl rfl) hcells (by decide) hleaf
    hops hrun
  have hsize : qs.size = 6 := by
    have := congrArg Array.size hcode
    rw [hquads, Array.size_map, Array.size_append] at this
    simpa [Compiler.inArrays, Compiler.start, Machine.inArrays] using this
  have hbatch := hresult _ 3 ⟨3, 0, 0, 0⟩ _ (poised_inArrays hrun) arrays_inArrays (by
    rw [htemps]
    intro _
    decide)
  have hstored : sum.tree.stored (Leaf.cellMeaning Meaning.inArrays) 2
      ((⟨3, 0, 0, 0⟩ : Counts).total - Compiler.inArrays.space.temps.int).toNat
        = .ok [.int 111, .int 311] := by decide +kernel
  rw [hstored, hsize] at hbatch
  obtain ⟨⟨m', hwalks, hholds, helement, -⟩, -⟩ := hbatch
  have hexact : sum.tree.exact (Leaf.cellMeaning Meaning.inArrays 1) = .ok (.int 222) := by
    decide +kernel
  refine ⟨c', m', hrun, hwalks, hholds 0 _ rfl, hholds 1 _ rfl, hexact, fun h => ?_⟩
  have := helement.mp h 1 (by decide)
  rw [hexact] at this
  cases this

end QuadLang
