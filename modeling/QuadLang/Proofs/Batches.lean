/-
Operations on whole arrays.

An operator between arrays works on one cell after the other, but its result has one
temporary cell of its own: the others are those of the operators that come later.  So
the cells of an operand after its first are overwritten before they are read, by the
results of later operators and of the operator that reads them.

* `Tree.batch` — the cells of the result of a tree, given those of its arrays: an operand
  that is itself a result is read as what was written after its first cell;
* `Tree.batch_eq_exact` — these are the results cell by cell when there is at most one
  operator, or one cell;
* `Tree.runs_batch` — the quads of a tree compute its batch.

Design notes: the arrays of a tree are outside of the frame of temporary cells.  All
values are integers, so all temporary cells in question follow each other.
-/
import QuadLang.Proofs.Assignments
import QuadLang.Proofs.Evaluation

namespace QuadLang

variable {a : Int} {dims : List Int} {done us later : List Meaning} {j place : Nat} {o : Operator}
  {u : Meaning}

/-! ### Batches -/

/-- All results are integers. -/
def Ints (us : List Meaning) : Prop := ∀ u ∈ us, u.type = .int

theorem Ints.getD (h : Ints us) (i : Nat) : (us.getD i (.int 0)).type = .int := by
  rw [List.getD_eq_getElem?_getD]
  rcases hi : us[i]? with _ | u
  · rfl
  · exact h u (List.mem_of_getElem? hi)

theorem Ints.append {vs : List Meaning} (h : Ints us) (h' : Ints vs) : Ints (us ++ vs) :=
  fun u hu => (List.mem_append.mp hu).elim (h u) (h' u)

namespace Operator

variable {o : Operator}

/-- The operators between numbers that give numbers, without the division. -/
def Arithmetic (o : Operator) : Prop := o = .add ∨ o = .sub ∨ o = .mul ∨ o = .mod

theorem Arithmetic.result (h : o.Arithmetic) : o.result = .int := by
  rcases h with rfl | rfl | rfl | rfl <;> rfl

theorem Arithmetic.fits (h : o.Arithmetic) {v : Meaning} (hu : u.type = .int) (hv : v.type = .int) :
    o.Fits u v := by
  rw [Fits, hu, hv]
  rcases h with rfl | rfl | rfl | rfl <;> decide

end Operator

namespace Tree

/-- The operators of a tree, in the order of their quads. -/
def operators : Tree → List Operator
  | .leaf _ => []
  | .op o l r => l.operators ++ r.operators ++ [o]

/-- What an operand is read as when some cells of the result are done.  An array is what it
was; a result is so in its first cell only, and after it come the results `later`, and then
those that are done. -/
def readCell (t : Tree) (cells later done : List Meaning) : Meaning :=
  match t, done.length with
  | .leaf _, i => cells.getD i (.int 0)
  | .op .., 0 => cells.getD 0 (.int 0)
  | .op .., i + 1 => (later ++ done).getD i (.int 0)

/-- The cells of the result of a tree, and the first cells of the results of all its
operators.  There is room for some results only: the cells of an operator take the room of
the operators after it. -/
def batch (ρ : Nat → Leaf → Meaning) (size room : Nat) :
    Tree → Except MachineFault (List Meaning × List Meaning)
  | .leaf x => .ok ((List.range size).map (ρ · x), [])
  | .op o l r => do
    let (left, firsts) ← l.batch ρ size room
    let (right, later) ← r.batch ρ size (room - l.operators.length)
    let cells ← collect (fun done =>
      o.fill (done.length < room - (l.operators ++ r.operators).length)
        (l.readCell left later done) (r.readCell right [] done)) size
    return (cells, firsts ++ later ++ cells.take 1)

variable {ρ : Nat → Leaf → Meaning} {size room : Nat} {t l r : Tree} {o : Operator}
  {cells firsts : List Meaning} {f : MachineFault}

theorem type_readCell (hc : Ints cells) (hl : Ints later) (hd : Ints done) (t : Tree) :
    (t.readCell cells later done).type = .int := by
  unfold readCell
  split
  · exact hc.getD _
  · exact hc.getD _
  · exact (hl.append hd).getD _

/-- An array is read cell by cell, and a result so in its first cell. -/
theorem readCell_eq (h : t.operators = [] ∨ done = []) (cells later : List Meaning) :
    t.readCell cells later done = cells.getD done.length (.int 0) := by
  cases t with
  | leaf x => rfl
  | op o l r =>
    rcases h with h | rfl
    · simp [operators] at h
    · rfl

theorem length_operators_op (o : Operator) (l r : Tree) :
    (op o l r).operators.length = (l.operators ++ r.operators).length + 1 :=
  List.length_append

theorem batch_op_left (h : l.batch ρ size room = .error f) :
    (op o l r).batch ρ size room = .error f := by
  rw [batch, h]
  rfl

theorem batch_op_right {left first : List Meaning} (hl : l.batch ρ size room = .ok (left, first))
    (hr : r.batch ρ size (room - l.operators.length) = .error f) :
    (op o l r).batch ρ size room = .error f := by
  rw [batch, hl]
  simp only [bind, Except.bind, hr]

theorem batch_op {left first right : List Meaning} (hl : l.batch ρ size room = .ok (left, first))
    (hr : r.batch ρ size (room - l.operators.length) = .ok (right, later)) :
    (op o l r).batch ρ size room = (collect (fun done =>
      o.fill (done.length < room - (l.operators ++ r.operators).length)
        (l.readCell left later done) (r.readCell right [] done)) size).map fun cells =>
          (cells, first ++ later ++ cells.take 1) := by
  rw [batch, hl]
  simp only [bind, Except.bind, hr]
  split <;> (next h => rw [h]; rfl)

/-- The batch of an operator comes from those of its operands. -/
theorem batch_op_eq_ok (h : (op o l r).batch ρ size room = .ok (cells, firsts)) :
    ∃ left first right later, l.batch ρ size room = .ok (left, first) ∧
      r.batch ρ size (room - l.operators.length) = .ok (right, later) ∧ cells.length = size ∧
      ∀ i u, cells[i]? = some u → o.compute (l.readCell left later (cells.take i))
        (r.readCell right [] (cells.take i)) = .ok u := by
  rcases hl : l.batch ρ size room with f | ⟨left, first⟩
  · rw [batch_op_left hl] at h; cases h
  rcases hr : r.batch ρ size (room - l.operators.length) with f | ⟨right, later⟩
  · rw [batch_op_right hl hr] at h; cases h
  rw [batch_op hl hr] at h
  rcases hc : collect _ size with f | cells' <;> rw [hc] at h <;> cases h
  obtain ⟨hlength, hnext⟩ := collect_eq_ok hc
  exact ⟨left, first, right, later, rfl, rfl, hlength,
    fun i u hu => (Operator.fill_eq_ok.mp (hnext i u hu)).2⟩

theorem length_batch (h : t.batch ρ size room = .ok (cells, firsts)) : cells.length = size := by
  cases t with
  | leaf x =>
    cases h
    simp
  | op o l r =>
    obtain ⟨left, first, right, later, -, -, hlength, -⟩ := batch_op_eq_ok h
    exact hlength

/-- The first cell is right, and with one operator or less each cell is. -/
theorem eval_of_batch (h : t.batch ρ size room = .ok (cells, firsts)) {k : Nat} (hk : k < size)
    (hone : t.operators.length ≤ 1 ∨ k = 0) : t.eval (ρ k) = .ok (cells.getD k (.int 0)) := by
  induction t generalizing room cells firsts with
  | leaf x =>
    cases h
    simp [eval, List.getElem?_range hk]
  | op o l r ihl ihr =>
    obtain ⟨left, first, right, later, hl, hr, hlength, hcells⟩ := batch_op_eq_ok h
    rw [length_operators_op, List.length_append] at hone
    have hk' : k < cells.length := by omega
    have hu := hcells k cells[k] (List.getElem?_eq_getElem hk')
    have htake : (cells.take k).length = k := by
      rw [List.length_take]
      omega
    have hread : ∀ t : Tree, t.operators.length ≤ 0 ∨ k = 0 →
        t.operators = [] ∨ cells.take k = [] := by
      rintro t (h | rfl)
      · exact .inl (List.eq_nil_of_length_eq_zero (by omega))
      · exact .inr rfl
    rw [readCell_eq (hread l (by omega)), readCell_eq (hread r (by omega)), htake] at hu
    have hget : cells.getD k (.int 0) = cells[k] := by
      rw [List.getD_eq_getElem?_getD, List.getElem?_eq_getElem hk', Option.getD_some]
    rw [eval, ihl hl (by omega), ihr hr (by omega), hget]
    exact hu

/-- Both operands of what has a value have values. -/
theorem eval_op_eq_ok {ρ : Leaf → Meaning} {w : Meaning} (h : (op o l r).eval ρ = .ok w) :
    ∃ u v, l.eval ρ = .ok u ∧ r.eval ρ = .ok v ∧ o.compute u v = .ok w := by
  rw [eval] at h
  rcases hu : l.eval ρ with f | u
  · rw [hu] at h; cases h
  rcases hv : r.eval ρ with f | v
  · rw [hu] at h
    simp only [bind, Except.bind, hv] at h
    cases h
  rw [hu] at h
  simp only [bind, Except.bind, hv] at h
  exact ⟨u, v, rfl, rfl, h⟩

/-- There is a batch when there is room for it and each cell has a value, if there is one
operator or less, or one cell. -/
theorem batch_of_eval (hone : t.operators.length ≤ 1 ∨ size = 1)
    (hroom : t.operators ≠ [] → t.operators.length + size ≤ room + 1)
    (heval : ∀ k < size, ∃ v, t.eval (ρ k) = .ok v) :
    ∃ cells firsts, t.batch ρ size room = .ok (cells, firsts) := by
  induction t generalizing room with
  | leaf x => exact ⟨_, _, rfl⟩
  | op o l r ihl ihr =>
    replace hroom := hroom (by simp [operators])
    rw [length_operators_op, List.length_append] at hroom hone
    have hoperands : ∀ k < size, ∃ u v w, l.eval (ρ k) = .ok u ∧ r.eval (ρ k) = .ok v ∧
        o.compute u v = .ok w := by
      intro k hk
      obtain ⟨w, hw⟩ := heval k hk
      obtain ⟨u, v, h⟩ := eval_op_eq_ok hw
      exact ⟨u, v, w, h⟩
    have hroomr : r.operators.length + size ≤ room - l.operators.length + 1 := by omega
    obtain ⟨left, first, hl⟩ : ∃ cells firsts, l.batch ρ size room = .ok (cells, firsts) :=
      ihl (by omega) (fun _ => by omega) fun k hk =>
        have ⟨u, _, _, hu, _⟩ := hoperands k hk
        ⟨u, hu⟩
    obtain ⟨right, later, hr⟩ := ihr (by omega) (fun _ => hroomr) fun k hk =>
      have ⟨_, v, _, _, hv, _⟩ := hoperands k hk
      ⟨v, hv⟩
    have hnext : ∀ done : List Meaning, done.length < size → ∃ w,
        o.fill (done.length < room - (l.operators ++ r.operators).length)
          (l.readCell left later done) (r.readCell right [] done) = .ok w := by
      intro done hdone
      have hread : ∀ t : Tree, t.operators.length ≤ 0 ∨ size = 1 → t.operators = [] ∨ done = [] := by
        rintro t (h | rfl)
        · exact .inl (List.eq_nil_of_length_eq_zero (by omega))
        · exact .inr (List.eq_nil_of_length_eq_zero (by omega))
      obtain ⟨u, v, w, hu, hv, hw⟩ := hoperands done.length hdone
      cases hu.symm.trans (eval_of_batch hl hdone (by omega))
      cases hv.symm.trans (eval_of_batch hr hdone (by omega))
      refine ⟨w, ?_⟩
      rw [readCell_eq (hread l (by omega)), readCell_eq (hread r (by omega)), Operator.fill_eq_ok,
        List.length_append, decide_eq_true (by omega)]
      exact ⟨rfl, hw⟩
    obtain ⟨cells, hcells⟩ := collect_ok_of_next hnext
    rw [batch_op hl hr, hcells]
    exact ⟨_, _, rfl⟩

end Tree

/-! ### Cells of a frame -/

namespace Machine

/-- The cells of a frame from number `b` on. -/
def TempsFrom (n b : Nat) (s : Spot) : Prop := s.row = .frame n ∧ b ≤ s.index

/-- The results are in the cells of a frame from number `b` on. -/
def Stored (m : Machine) (n b : Nat) (us : List Meaning) : Prop :=
  ∀ i u, us[i]? = some u → m.content ⟨.frame n, b + i⟩ = some u.cell

/-- The variable at an address is an array of integers, and stands for what `f` says. -/
structure ArrayAt (m : Machine) (a : Int) (size : Nat) (f : Nat → Meaning) : Prop where
  low : 1000 ≤ a
  high : a + size ≤ 20000
  holds : ∀ i : Nat, i < size → m.Holds a i (f i)
  ints : ∀ i < size, (f i).type = .int

variable {m m' : Machine} {n b b' size : Nat} {era : Counts} {us vs : List Meaning}
  {f : Nat → Meaning}

theorem TempsFrom.mono {s : Spot} (hb : b ≤ b') (h : TempsFrom n b' s) : TempsFrom n b s :=
  ⟨h.1, Nat.le_trans hb h.2⟩

theorem stored_nil (m : Machine) (n b : Nat) : m.Stored n b [] := by
  intro i u hu
  cases hu

theorem Stored.append (h : m.Stored n b us) (h' : m.Stored n (b + us.length) vs) :
    m.Stored n b (us ++ vs) := by
  intro i u hu
  by_cases hi : i < us.length
  · exact h i u (by rwa [List.getElem?_append_left hi] at hu)
  · rw [List.getElem?_append_right (by omega)] at hu
    have := h' (i - us.length) u hu
    rwa [show b + us.length + (i - us.length) = b + i by omega] at this

theorem Stored.take (h : m.Stored n b us) (i : Nat) : m.Stored n b (us.take i) := by
  intro j u hu
  rw [List.getElem?_take] at hu
  split at hu
  · exact h j u hu
  · cases hu

theorem Stored.fills (h : m.Stored n b us) (hf : Fills (TempsFrom n b') m m')
    (hb : b + us.length ≤ b') : m'.Stored n b us := by
  intro i u hu
  have hi := (List.getElem?_eq_some_iff.mp hu).1
  rw [hf.content _ fun hS => by have := hS.2; simp only at this; omega]
  exact h i u hu

/-- The temporary integers of a frame have its first cells. -/
theorem TempFrame.spot?_int (hf : m.TempFrame n era) (hm : m.Standard) (h : j < 4000)
    (h' : (j : Int) < era.total) : m.spot? (20000 + j) = some ⟨.frame n, j⟩ := by
  have hbefore : era.before .int + (j : Int) = j := Int.zero_add _
  have hlt : (j : Int) < Counts.wholeTemps.get .int := by
    show (j : Int) < 4000
    omega
  have htotal : era.before .int + (j : Int) < era.total := by omega
  have hspot := hf.spot?_of_lt hm .int (Int.natCast_nonneg j) hlt htotal
  rwa [tempSpot, hbefore, Int.toNat_natCast] at hspot

/-- What is stored in a frame is read at the addresses of temporary integers. -/
theorem Stored.holds (h : m.Stored n b us) (hm : m.Standard) (hf : m.TempFrame n era)
    (hu : us[j]? = some u) (hj : b + j < 4000) {i : Int} (ha : a.natAbs < 10 ^ 10)
    (hi : a + i = 20000 + (b + j : Nat)) : m.Holds a i u := by
  have hc := h j u hu
  have hsize : ((b + j : Nat) : Int) < era.total := by
    rw [← hf.size]
    by_contra hge
    have hnone : (m.frame n)[b + j]? = none := Array.getElem?_eq_none (by omega)
    simp [content, row, hnone] at hc
  exact holds_of_content hm (hi ▸ hf.spot?_int hm hj hsize) hc ha (by omega) (by omega)

/-- Filling temporary cells leaves arrays alone. -/
theorem ArrayAt.fills (h : m.ArrayAt a size f) (hm : m.Standard) (hf : m.TempFrame n era)
    (hfills : Fills (TempsFrom n b) m m') : m'.ArrayAt a size f := by
  obtain ⟨h0, h1, hholds, hints⟩ := h
  refine ⟨h0, h1, fun i hi => ?_, hints⟩
  obtain ⟨x, hx, hu⟩ := hholds i hi
  obtain ⟨s, hs⟩ := spot?_of_value (by omega) hx
  exact hfills.holds hm hs (fun hS => hf.row_ne hm hs (by omega) hS.1) (by omega) (by omega)
    (by omega) ⟨x, hx, hu⟩

/-- While an operator fills its cells from number `j` on, an operand is read as `read` says. -/
def Reads (m : Machine) (n j : Nat) (a : Int) (size : Nat) (read : List Meaning → Meaning) : Prop :=
  ∀ m' done, Fills (TempsFrom n j) m m' → m'.Stored n j done → done.length < size →
    m'.Holds a done.length (read done)

theorem ArrayAt.reads (h : m.ArrayAt a size f) (hm : m.Standard) (hf : m.TempFrame n era) {x : Leaf}
    (later : List Meaning) :
    m.Reads n j a size ((Tree.leaf x).readCell ((List.range size).map f) later) := by
  intro m' done hfills _ hlt
  have := (h.fills hm hf hfills).holds done.length hlt
  simpa [Tree.readCell, List.getElem?_range hlt] using this

/-- The operand that is a result: its own cells are overwritten, but for the first. -/
theorem Stored.reads {p : Nat} {cells : List Meaning} (h : m.Stored n p (cells.take 1))
    (hlater : m.Stored n (p + 1) later) (hm : m.Standard) (hf : m.TempFrame n era)
    (hcells : cells ≠ []) (hsize : p + size ≤ 4000) {l r : Tree} :
    m.Reads n (p + 1 + later.length) (20000 + p) size ((Tree.op o l r).readCell cells later) := by
  intro m' done hfills hdone hlt
  have hm' := hfills.standard hm
  have hf' := hfills.tempFrame hf
  obtain ⟨u, rest, rfl⟩ := List.exists_cons_of_ne_nil hcells
  unfold Tree.readCell
  split
  · next he => cases he
  · next h0 =>
    rw [h0]
    exact (h.fills hfills (by simp)).holds hm' hf' (j := 0) rfl (by omega) (by omega) (by omega)
  · next i _ hi =>
    have hall := (hlater.fills hfills (Nat.le_refl _)).append hdone
    have hlt' : i < (later ++ done).length := by
      rw [List.length_append]
      omega
    have hget := List.getElem?_eq_getElem hlt'
    rw [List.getD_eq_getElem?_getD, hget, hi]
    exact hall.holds hm' hf' hget (by omega) (by omega) (by omega)

end Machine

/-! ### Quads that work on arrays -/

/-- The dimensions of an array or a matrix with `size` cells. -/
structure Shaped (dims : List Int) (size : Nat) : Prop where
  length : dims.length = 1 ∨ dims.length = 2
  cells : Compile.sizeOf dims = size
  pos : 0 < size
  small : size < 10 ^ 10

theorem Shaped.shapeQuads {size : Nat} (h : Shaped dims size) :
    ∃ rows cols : Int, QuadLang.shapeQuads dims = [[.text "MAT", .number rows, .number cols, .none]] ∧
      rows.natAbs < 10 ^ 10 ∧ cols.natAbs < 10 ^ 10 ∧ rows * cols = size := by
  obtain ⟨hlength, hcells, hpos, hsmall⟩ := h
  have hbound : ∀ rows cols : Int, rows * cols = size →
      rows.natAbs < 10 ^ 10 ∧ cols.natAbs < 10 ^ 10 := by
    intro rows cols hmul
    have habs : rows.natAbs * cols.natAbs = size := by rw [← Int.natAbs_mul, hmul, Int.natAbs_natCast]
    have hrows := Nat.le_of_dvd hpos ⟨cols.natAbs, habs.symm⟩
    have hcols := Nat.le_of_dvd hpos ⟨rows.natAbs, (habs.symm.trans (Nat.mul_comm _ _))⟩
    omega
  match dims, hlength with
  | [n], _ =>
    have hmul : 1 * n = (size : Int) := hcells
    exact ⟨1, n, rfl, (hbound 1 n hmul).1, (hbound 1 n hmul).2, hmul⟩
  | [r, n], _ =>
    have hmul : r * n = (size : Int) := by rw [← hcells, Compile.sizeOf]; simp
    exact ⟨r, n, rfl, (hbound r n hmul).1, (hbound r n hmul).2, hmul⟩

namespace Machine

variable {m m' : Machine} {S : Spot → Prop} {size n room : Nat} {era : Counts} {o : Operator}
  {b : Int}

theorem Fills.moved (S : Spot → Prop) (m : Machine) (place : Int) (extents : List Int)
    (printed : List String) :
    Fills S m { m with place := place, extents := extents, printed := printed } where
  rest := rfl
  size r := by cases r <;> rfl
  content := by
    rintro ⟨r, i⟩ _
    cases r <;> rfl

theorem step_shape {rows cols : Int} {last : String}
    (hq : m.quad? = some ["MAT", toString rows, toString cols, last]) (hr : rows.natAbs < 10 ^ 10)
    (hc : cols.natAbs < 10 ^ 10) : ∃ printed, m.Next { m with
      place := m.place + 1, extents := [rows, cols], printed := printed } := by
  obtain ⟨printed, hsay⟩ := Exec.run_say m.place ("Preparing for matrix of size [" ++ toString rows ++
    "][" ++ toString cols ++ "]") { m with extents := [rows, cols] }
  have hset : (Exec.setExtents m.place ["MAT", toString rows, toString cols, last]).run m
      = (.ok (), { m with extents := [rows, cols], printed := printed }) := by
    rw [Exec.setExtents, Steps.run_bind_ok (Exec.run_number rfl hr m), Steps.run_bind_ok (Exec.run_number rfl hc m),
      Steps.run_bind_ok (Steps.run_modify _ m), hsay]
  exact ⟨printed, next_of_perform hq (Steps.run_bind_ok hset) rfl⟩

/-- A quad that works on all cells of an array, with the one that announces the array: it
collects results cell by cell. -/
theorem runs_cells {q : Quad} {act : Int → Int → Exec Unit}
    {next : List Meaning → Except MachineFault Meaning} {Inv : List Meaning → Machine → Prop}
    (hshape : Shaped dims size) (hplace : m.place = place)
    (hcode : m.CodeAt place (shapeQuads dims ++ [q]))
    (hperform : ∀ {place r m m'}, (Exec.forCells (act place)).run m = (r, m') → (Exec.perform place (q.map Field.shown)).run m = (r.map fun _ => .after place, m'))
    (hmoved : ∀ {done m} place extents printed, Inv done m → Inv done { m with place := place, extents := extents, printed := printed })
    (hnil : Inv [] m)
    (hnext : ∀ place done m, done.length < size → Inv done m → Steps.Yields (act place done.length) m (next done) fun x => Inv (done ++ [x]))
    : match collect next size with
    | .ok cells => ∃ m', Walks (shapeQuads dims ++ [q]).length m m' ∧ Inv cells m'
    | .error f => StopsWithin (shapeQuads dims ++ [q]).length m f := by
  obtain ⟨rows, cols, hquads, hrows, hcols, hsize⟩ := hshape.shapeQuads
  rw [hquads] at hcode ⊢
  obtain ⟨printed, hshaped⟩ := step_shape (hcode.quad? hplace) hrows hcols
  let m₁ : Machine := { m with place := m.place + 1, extents := [rows, cols], printed := printed }
  have hq : m₁.quad? = some (q.map Field.shown) := by
    have hcode₁ : m₁.CodeAt (place + 1) [q] := (codeAt_append.mp hcode).2
    exact hcode₁.quad? (by rw [show m₁.place = m.place + 1 from rfl, hplace]; rfl)
  have hnil₁ : Inv [] m₁ := hmoved _ _ _ hnil
  have hloop := Steps.yields_forM (fun i => act m₁.place i) hnil₁ (hnext m₁.place)
    (Nat.le_refl size)
  have hcells : ∀ {r m'}, ((List.range size).forM fun i => act m₁.place (i : Int)).run m₁ = (r, m') →
      (Exec.forCells (act m₁.place)).run m₁ = (r, m') := by
    intro r m' h
    have hwidth : (Exec.ofExcept Machine.width).run m₁ = (.ok (size : Int), m₁) := by
      rw [Exec.run_ofExcept, width, ← hsize]
    rw [Exec.forCells, Steps.run_bind_ok hwidth, Int.toNat_natCast]
    exact h
  rcases hc : collect next size with f | cells
  · rw [hc] at hloop
    obtain ⟨m', hrun⟩ := hloop
    exact ⟨1, m₁, m', by simp, .step hshaped rfl (.refl m₁),
      step_of_perform_error hq (hperform (hcells hrun))⟩
  · rw [hc] at hloop
    obtain ⟨m', hrun, hinv⟩ := hloop
    refine ⟨{ m' with place := m₁.place + 1, extents := [1, 1] }, ?_, hmoved _ _ _ hinv⟩
    exact .step hshaped rfl (.step (next_of_perform hq (hperform (hcells hrun)) rfl) rfl (.refl _))

/-- What is true while an operator fills its cells from number `j` on. -/
structure Filling (m : Machine) (n j : Nat) (done : List Meaning) (m' : Machine) : Prop where
  fills : Fills (TempsFrom n j) m m'
  stored : m'.Stored n j done
  ints : Ints done

/-- An operator fills its next cell from its operands as they are read then. -/
theorem Filling.next {left right : List Meaning → Meaning} (h : Filling m n j done m')
    (hm : m.Standard) (hf : m.TempFrame n era) (ho : o.Arithmetic) (ha : m.Reads n j a size left)
    (hb : m.Reads n j b size right) (htype : (left done).type = .int ∧ (right done).type = .int)
    (hroom : (j : Int) + room = era.total) (hlimit : j + size ≤ 4000) (hdone : done.length < size)
    (place : Int) : Steps.Yields (Exec.operateCell place
        [o.word, toString a, toString b, toString (20000 + (j : Int))] o o.word done.length) m'
      (o.fill (done.length < room) (left done) (right done)) fun u => Filling m n j (done ++ [u]) := by
  have hm' := h.fills.standard hm
  have hf' := h.fills.tempFrame hf
  have hleft := ha m' done h.fills h.stored hdone
  have hright := hb m' done h.fills h.stored hdone
  have hfit := ho.fits htype.1 htype.2
  by_cases hlt : done.length < room
  · have hspot : m'.spot? (20000 + (j : Int) + done.length) = some ⟨.frame n, j + done.length⟩ := by
      have := hf'.spot?_int hm' (j := j + done.length) (by omega) (by omega)
      rwa [Int.natCast_add, ← Int.add_assoc] at this
    have hcell := Exec.yields_operateCell hm' hleft hright hfit hspot (by omega) (by omega) (by omega)
      place
    rw [decide_eq_true hlt, Operator.fill_true]
    rcases hw : o.compute (left done) (right done) with f | w <;> rw [hw] at hcell
    · exact hcell
    have hwtype : w.type = .int := by
      rw [Operator.type_of_exact hfit (Operator.exact_of_compute hw), ho.result]
    have hstore : m'.storeType (20000 + (j : Int) + done.length) = w.type := by
      have := storeType_temp hm' (t := .int) (i := (j : Int) + done.length) (by omega)
        (show _ < (4000 : Int) by omega)
      rw [← Int.add_assoc] at this
      exact this.trans hwtype.symm
    rw [hstore] at hcell
    obtain ⟨m'', hrun, names, printed, hm''⟩ := hcell
    have hindex := index_lt_of_spot? hspot
    have hfills : Fills (· = ⟨.frame n, j + done.length⟩) m' m'' :=
      hm'' ▸ Fills.ofWrite hindex w.cell
    have hcontent : m''.content ⟨.frame n, j + done.length⟩ = some w.cell := by
      have := content_write hindex w.cell ⟨.frame n, j + done.length⟩
      rw [if_pos rfl] at this
      rw [hm'']
      exact this
    refine ⟨m'', hrun, h.fills.trans (hfills.mono ?_), Stored.append (h.stored.fills
      (hfills.mono ?_) (Nat.le_refl _)) ?_, h.ints.append (by simp [Ints, hwtype])⟩
    · rintro s rfl
      exact ⟨rfl, Nat.le_add_right _ _⟩
    · rintro s rfl
      exact ⟨rfl, Nat.le_refl _⟩
    · intro i u hu
      obtain ⟨rfl, rfl⟩ : i = 0 ∧ w = u := by
        cases i with
        | zero => exact ⟨rfl, Option.some.inj hu⟩
        | succ i => cases hu
      exact hcontent
  · rw [decide_eq_false hlt]
    exact Exec.yields_operateCell_full hm' hf' hleft hright hfit (t := .int) (by omega)
      (show (20000 : Int) ≤ 20000 + (j : Int) + done.length by omega)
      (show 20000 + (j : Int) + done.length < 20000 + 4000 by omega)
      (show era.total ≤ 0 + (20000 + (j : Int) + done.length - 20000) by omega) place _

theorem Filling.moved (h : Filling m n j done m') (place : Int) (extents : List Int)
    (printed : List String) :
    Filling m n j done { m' with place := place, extents := extents, printed := printed } :=
  ⟨h.fills.trans (.moved _ m' place extents printed),
    h.stored.fills (.moved _ m' place extents printed) (Nat.le_refl _), h.ints⟩

/-- The quads of an operation on arrays fill the cells of its result. -/
theorem runs_operation {left right : List Meaning → Meaning} (hshape : Shaped dims size)
    (hm : m.Standard) (hf : m.TempFrame n era) (hplace : m.place = place)
    (hcode : m.CodeAt place (o.quads dims a b (20000 + j))) (ho : o.Arithmetic)
    (ha : m.Reads n j a size left) (hb : m.Reads n j b size right)
    (htype : ∀ done, Ints done → (left done).type = .int ∧ (right done).type = .int)
    (hroom : (j : Int) + room = era.total) (hlimit : j + size ≤ 4000) :
    match collect (fun done => o.fill (done.length < room) (left done) (right done)) size with
    | .ok cells => ∃ m', Walks (o.quads dims a b (20000 + j)).length m m' ∧ Filling m n j cells m'
    | .error f => StopsWithin (o.quads dims a b (20000 + j)).length m f :=
  runs_cells hshape hplace hcode (Exec.run_perform_operator rfl)
    (fun place extents printed h => h.moved place extents printed)
    ⟨.refl _ m, stored_nil m n j, nofun⟩
    fun place done _ hdone h => h.next hm hf ho ha hb (htype done h.ints) hroom hlimit hdone place

end Machine

/-! ### Running the quads of a tree on arrays -/

namespace Tree

open Machine

variable {m m' : Machine} {n b size room : Nat} {era k : Counts} {at_ : Leaf → Int}
  {ρ : Nat → Leaf → Meaning} {t : Tree} {cells firsts later : List Meaning}

/-- Every arithmetic operator takes one temporary integer. -/
theorem slots_int (h : ∀ o ∈ t.operators, o.Arithmetic) (k : Counts) :
    (t.slots k).int = k.int + t.operators.length := by
  induction t generalizing k with
  | leaf x => simp [slots, operators]
  | op o l r ihl ihr =>
    simp only [operators, List.mem_append, List.mem_singleton] at h
    have hl := ihl (fun o ho => h o (.inl (.inl ho))) k
    have hr := ihr (fun o ho => h o (.inl (.inr ho))) (l.slots k)
    have hget : ∀ k : Counts, (k.put .int (k.get .int + 1)).int = k.int + 1 := fun _ => rfl
    rw [slots, (h o (.inr rfl)).result, hget, hr, hl]
    simp only [operators, List.length_append, List.length_singleton]
    omega

theorem address_op {l r : Tree} (h : ∀ o' ∈ (op o l r).operators, o'.Arithmetic) (hb : k.int = b) :
    (op o l r).address at_ k = 20000 + (b + (l.operators ++ r.operators).length : Nat) := by
  simp only [operators, List.mem_append, List.mem_singleton] at h
  have hl := slots_int (fun o ho => h o (.inl (.inl ho))) k
  have hr := slots_int (fun o ho => h o (.inl (.inr ho))) (l.slots k)
  have hget : ∀ k : Counts, k.get .int = k.int := fun _ => rfl
  rw [address, (h o (.inr rfl)).result, hget, hr, hl, hb, List.length_append]
  show 20000 + _ = _
  omega

/-- How an operand is read: an array has all its cells, and a result its first one. -/
theorem reads (hbatch : t.batch ρ size room = .ok (cells, firsts)) (hm : m.Standard)
    (hf : m.TempFrame n era) (hops : ∀ o ∈ t.operators, o.Arithmetic) (hb : k.int = b)
    (hsize : 0 < size) (hlimit : b + t.operators.length + size ≤ 4001)
    (hleaf : ∀ x ∈ t.leaves, m.ArrayAt (at_ x) size (ρ · x))
    (hfirst : ∀ o l r, t = .op o l r →
      m.Stored n (b + (l.operators ++ r.operators).length) (cells.take 1))
    (hlater : m.Stored n (b + t.operators.length) later) :
    m.Reads n (b + t.operators.length + later.length) (t.address at_ k) size
      (t.readCell cells later) := by
  have hlength := length_batch hbatch
  cases t with
  | leaf x =>
    cases hbatch
    exact (hleaf x (List.mem_singleton_self x)).reads hm hf later
  | op o l r =>
    have hnil : cells ≠ [] := List.ne_nil_of_length_pos (by omega)
    rw [length_operators_op] at hlimit hlater ⊢
    rw [address_op hops hb]
    exact (hfirst o l r rfl).reads hlater hm hf hnil (by omega)

/-- A tree has been computed: the first cells of all results are in the frame from number
`b` on, and so are all cells of its own result, from its first one on. -/
structure Computed (m : Machine) (n b : Nat) (t : Tree) (cells firsts : List Meaning)
    (m' : Machine) : Prop where
  fills : Fills (TempsFrom n b) m m'
  ints : Ints cells
  intsFirst : Ints firsts
  length : firsts.length = t.operators.length
  firsts : m'.Stored n b firsts
  block : ∀ o l r, t = .op o l r → m'.Stored n (b + (l.operators ++ r.operators).length) cells

theorem runs_batch (hshape : Shaped dims size) (hm : m.Standard) (hf : m.TempFrame n era)
    (hplace : m.place = place) (hcode : m.CodeAt place (t.quads at_ dims k)) (hb : k.int = b)
    (hops : ∀ o ∈ t.operators, o.Arithmetic) (hroom : (b : Int) + room = era.total)
    (hfit : t.operators.length ≤ room)
    (hlimit : t.operators ≠ [] → b + t.operators.length + size ≤ 4001)
    (hleaf : ∀ x ∈ t.leaves, m.ArrayAt (at_ x) size (ρ · x)) :
    match t.batch ρ size room with
    | .ok (cells, firsts) => ∃ m', Walks (t.quads at_ dims k).length m m' ∧
      Computed m n b t cells firsts m'
    | .error f => StopsWithin (t.quads at_ dims k).length m f := by
  have hsize := hshape.pos
  induction t generalizing m k b room place with
  | leaf x =>
    refine ⟨m, .refl m, .refl _ m, ?_, by simp [Ints], rfl, stored_nil m n b, nofun⟩
    intro u hu
    obtain ⟨i, hi, rfl⟩ := List.mem_map.mp hu
    exact (hleaf x (List.mem_singleton_self x)).ints i (List.mem_range.mp hi)
  | op o l r ihl ihr =>
    let k₁ := l.slots k
    have hlimit := hlimit (by simp [operators])
    rw [length_operators_op, List.length_append] at hlimit hfit
    have haddress : (op o l r).address at_ k = _ := address_op hops hb
    simp only [operators, List.mem_append, List.mem_singleton] at hops
    have hopsl : ∀ o ∈ l.operators, o.Arithmetic := fun o ho => hops o (.inl (.inl ho))
    have hopsr : ∀ o ∈ r.operators, o.Arithmetic := fun o ho => hops o (.inl (.inr ho))
    have hb₁ : k₁.int = (b + l.operators.length : Nat) := by
      rw [slots_int hopsl, hb]
      rfl
    rw [quads, codeAt_append, codeAt_append] at hcode
    obtain ⟨⟨hcl, hcr⟩, hco⟩ := hcode
    have hlength : ((op o l r).quads at_ dims k).length
        = (l.quads at_ dims k).length + ((r.quads at_ dims k₁).length + (o.quads dims
          (l.address at_ k) (r.address at_ k₁) ((op o l r).address at_ k)).length) := by
      rw [quads, List.length_append, List.length_append, Nat.add_assoc]
    rw [hlength]
    -- The left operand.
    have hl := ihl hm hf hplace hcl hb hopsl hroom (by omega) (fun _ => by omega)
      fun x hx => hleaf x (List.mem_append_left _ hx)
    rcases hbl : l.batch ρ size room with f | ⟨left, firsts⟩
    · rw [hbl] at hl
      rw [batch_op_left hbl]
      exact hl.mono (Nat.le_add_right _ _)
    rw [hbl] at hl
    obtain ⟨m₁, hw₁, hc₁⟩ := hl
    have hm₁ := hc₁.fills.standard hm
    have hf₁ := hc₁.fills.tempFrame hf
    have hplace₁ : m₁.place = (place + (l.quads at_ dims k).length : Nat) := by
      rw [hw₁.place, hplace]
      rfl
    -- The right operand.
    have hroom₁ : ((b + l.operators.length : Nat) : Int) + (room - l.operators.length : Nat)
        = era.total := by omega
    have hr := ihr hm₁ hf₁ hplace₁ (hc₁.fills.codeAt hcr) hb₁ hopsr hroom₁ (by omega)
      (fun _ => by omega) fun x hx => (hleaf x (List.mem_append_right _ hx)).fills hm hf hc₁.fills
    rcases hbr : r.batch ρ size (room - l.operators.length) with f | ⟨right, later⟩
    · rw [hbr] at hr
      rw [batch_op_right hbl hbr]
      exact hw₁.stops (hr.mono (Nat.le_add_right _ _))
    rw [hbr] at hr
    obtain ⟨m₂, hw₂, hc₂⟩ := hr
    have hm₂ := hc₂.fills.standard hm₁
    have hf₂ := hc₂.fills.tempFrame hf₁
    have hplace₂ : m₂.place = (place + (l.quads at_ dims k ++ r.quads at_ dims k₁).length : Nat) := by
      rw [hw₂.place, hplace₁, List.length_append, ← Nat.add_assoc]
      rfl
    -- The operator: of the left operand the first cell is still there, and then come the
    -- first cells of the results in the right one.
    have hj : b + l.operators.length + r.operators.length
        = b + (l.operators ++ r.operators).length := by rw [List.length_append, Nat.add_assoc]
    have hreadl := reads hbl hm₂ hf₂ hopsl hb hsize (by omega)
      (fun x hx => ((hleaf x (List.mem_append_left _ hx)).fills hm hf hc₁.fills).fills hm₁ hf₁ hc₂.fills)
      (fun o' l' r' he => ((hc₁.block o' l' r' he).take 1).fills hc₂.fills (by
        rw [he, length_operators_op, List.length_take]
        omega)) hc₂.firsts
    have hreadr := reads hbr hm₂ hf₂ hopsr hb₁ hsize (by omega)
      (fun x hx => ((hleaf x (List.mem_append_right _ hx)).fills hm hf hc₁.fills).fills hm₁ hf₁ hc₂.fills)
      (fun o' l' r' he => (hc₂.block o' l' r' he).take 1) (stored_nil _ _ _)
    rw [hc₂.length, hj] at hreadl
    rw [List.length_nil, Nat.add_zero, hj] at hreadr
    have hroom₂ : ((b + (l.operators ++ r.operators).length : Nat) : Int)
        + (room - (l.operators ++ r.operators).length : Nat) = era.total := by
      rw [← hj, List.length_append]
      omega
    have hop := runs_operation hshape hm₂ hf₂ hplace₂
      (haddress ▸ hc₂.fills.codeAt (hc₁.fills.codeAt hco)) (hops o (.inr rfl)) hreadl hreadr
      (fun done hdone => ⟨type_readCell hc₁.ints hc₂.intsFirst hdone l,
        type_readCell hc₂.ints (by simp [Ints]) hdone r⟩) hroom₂ (by omega)
    rw [← haddress] at hop
    rw [batch_op hbl hbr]
    rcases hcells : collect _ size with f | cells <;> rw [hcells] at hop
    · exact hw₁.stops (hw₂.stops hop)
    obtain ⟨m₃, hw₃, hfilling⟩ := hop
    refine ⟨m₃, hw₁.trans (hw₂.trans hw₃), ?_, hfilling.ints, ?_, ?_, ?_, ?_⟩
    · exact hc₁.fills.trans ((hc₂.fills.mono fun _ => .mono (by omega)).trans
        (hfilling.fills.mono fun _ => .mono (by omega)))
    · exact (hc₁.intsFirst.append hc₂.intsFirst).append fun u hu => hfilling.ints u (List.mem_of_mem_take hu)
    · have hfirst : (cells.take 1).length = 1 := by
        rw [List.length_take, (collect_eq_ok hcells).1]
        omega
      rw [List.length_append, List.length_append, hc₁.length, hc₂.length, hfirst, length_operators_op,
        List.length_append]
    · have hlater := hc₂.firsts.fills hfilling.fills (by rw [hc₂.length, hj])
      have hfirst := (hc₁.firsts.fills hc₂.fills (by rw [hc₁.length])).fills hfilling.fills (by
        rw [hc₁.length, List.length_append]
        omega)
      rw [← hc₁.length] at hlater
      refine (hfirst.append hlater).append ?_
      rw [List.length_append, hc₁.length, hc₂.length, ← List.length_append]
      exact hfilling.stored.take 1
    · rintro _ _ _ ⟨⟩
      exact hfilling.stored

end Tree

end QuadLang
