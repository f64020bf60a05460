/-
Running the quads of expressions.

The value of an expression is computed in temporary cells, one for each operator.  The
cells of both operands are settled before the operator is done: a later temporary cell
is none of them.  So the quads of a tree leave its exact value in the cell of its last
operator, when every number on the way can be written:

* `Tree.exact`, `Tree.eval` — the exact value of a tree, and the one that the machine
  computes, which stops at numbers that are too long;
* `Tree.runs` — the quads of a tree compute its value, and fill new temporary cells
  only;
* `Formula.runs` — so does compiling a formula and running what was compiled.
-/
import QuadLang.Proofs.Operations

namespace QuadLang

open Segment Steps

variable {i : Int} {s : Scalar} {t : Tree} {γ : Leaf → Option Scalar} {value : Literal}
  {k : Constant} {v : Meaning}

/-! ### Values of trees -/

namespace Leaf

/-- What a leaf stands for, given the variables. -/
def meaning (σ : String → Meaning) : Leaf → Meaning
  | .var name => σ name
  | .int i _ => .int i
  | .truth b => .truth b

end Leaf

namespace Tree

/-- The exact value of a tree; there is none when something is divided by zero. -/
def exact (ρ : Leaf → Meaning) : Tree → Except MachineFault Meaning
  | .leaf x => .ok (ρ x)
  | .op o l r => do o.exact (← l.exact ρ) (← r.exact ρ)

/-- The value of a tree when every operand and every result has to be written. -/
def eval (ρ : Leaf → Meaning) : Tree → Except MachineFault Meaning
  | .leaf x => .ok (ρ x)
  | .op o l r => do o.compute (← l.eval ρ) (← r.eval ρ)

/-- All operands and results can be written. -/
def Writable (ρ : Leaf → Meaning) : Tree → Prop
  | .leaf _ => True
  | .op o l r => l.Writable ρ ∧ r.Writable ρ ∧
      ∀ t ∈ [l, r, .op o l r], ∀ v, t.exact ρ = .ok v → v.Short

variable {ρ : Leaf → Meaning}

/-- The machine computes the exact value, up to numbers that are too long. -/
theorem eval_eq_exact_or (t : Tree) : t.eval ρ = t.exact ρ ∨ t.eval ρ = .error .longNumber := by
  induction t with
  | leaf x => exact .inl rfl
  | op o l r ihl ihr =>
    rw [eval, exact]
    rcases ihl with hl | hl <;> rw [hl]
    case inr => exact .inr rfl
    rcases hu : l.exact ρ with f | u
    · exact .inl rfl
    rcases ihr with hr | hr <;> rw [hr]
    case inr => exact .inr rfl
    rcases hv : r.exact ρ with f | v
    · exact .inl rfl
    show o.compute u v = o.exact u v ∨ o.compute u v = .error .longNumber
    rw [Operator.compute]
    split
    · rcases o.exact u v with f | w
      · exact .inl rfl
      · simp only [Except.bind, Meaning.checked]
        split
        · exact .inl rfl
        · exact .inr rfl
    · exact .inr rfl

theorem exact_of_eval (h : t.eval ρ = .ok v) : t.exact ρ = .ok v := by
  rcases t.eval_eq_exact_or (ρ := ρ) with he | he
  · rw [← he, h]
  · rw [h] at he; cases he

/-- The exact value of a well-typed tree has its type; what goes wrong is a division by
zero. -/
theorem exact_cases (hγ : ∀ x s, γ x = some s → s = .int ∨ s = .bool) (ht : t.type? γ = some s)
    (hleaf : ∀ x ∈ t.leaves, γ x = some (ρ x).type) :
    (∃ v, t.exact ρ = .ok v ∧ v.type = s) ∨ t.exact ρ = .error .intModulo := by
  induction t generalizing s with
  | leaf x =>
    exact .inl ⟨ρ x, rfl, Option.some.inj ((hleaf x (List.mem_singleton_self x)).symm.trans ht)⟩
  | op o l r ihl ihr =>
    obtain ⟨ho, a, b, ha, hb, hab⟩ := type?_op_eq_some ht
    rw [exact]
    rcases ihl ha fun x hx => hleaf x (List.mem_append_left _ hx) with ⟨u, hu, hua⟩ | hu <;> rw [hu]
    case inr => exact .inr rfl
    rcases ihr hb fun x hx => hleaf x (List.mem_append_right _ hx) with ⟨v, hv, hvb⟩ | hv <;> rw [hv]
    case inr => exact .inr rfl
    have hfit : o.Fits u v := ⟨ho, by rw [hua, hvb, hab]; rfl⟩
    show (∃ w, o.exact u v = .ok w ∧ w.type = s) ∨ o.exact u v = .error .intModulo
    rcases o.exact_cases hfit with ⟨w, hw⟩ | hw
    · rw [(Operator.of_combine ho (type?_cases hγ ha) (type?_cases hγ hb) hab).1]
      exact .inl ⟨w, hw, Operator.type_of_exact hfit hw⟩
    · exact .inr hw

theorem eval_eq_exact (h : t.Writable ρ) : t.eval ρ = t.exact ρ := by
  induction t with
  | leaf x => rfl
  | op o l r ihl ihr =>
    obtain ⟨hl, hr, hshort⟩ := h
    simp only [List.mem_cons, List.not_mem_nil, or_false, forall_eq_or_imp, forall_eq] at hshort
    rw [exact] at hshort
    rw [eval, exact, ihl hl, ihr hr]
    rcases hu : l.exact ρ with f | u
    · rfl
    rcases hv : r.exact ρ with f | v
    · rfl
    rw [hu, hv] at hshort
    show o.compute u v = o.exact u v
    rw [Operator.compute, if_pos ⟨hshort.1 u rfl, hshort.2.1 v rfl⟩]
    rcases hw : o.exact u v with f | w
    · rfl
    · have hw' := hshort.2.2 w hw
      simp only [Except.bind, Meaning.checked, if_pos hw']

end Tree

/-! ### Temporary cells -/

theorem Tree.get_le_slots (t : Tree) (k : Counts) (s : Scalar) : k.get s ≤ (t.slots k).get s := by
  induction t generalizing k with
  | leaf x => exact Int.le_refl _
  | op o l r ihl ihr =>
    have hl := ihl k
    have hr := ihr (l.slots k)
    rw [Tree.slots, Counts.get_put]
    split
    · next h => rw [← h]; omega
    · omega

namespace Machine

/-- The temporary cells from `k` up to `k'`. -/
def TempsBetween (n : Nat) (era k k' : Counts) (s : Spot) : Prop :=
  ∃ t i, k.get t ≤ i ∧ i < k'.get t ∧ s = tempSpot n era t i

/-- The machine works on single cells, in a frame of its own. -/
structure Ready (m : Machine) (n : Nat) (era : Counts) : Prop where
  standard : m.Standard
  frame : m.TempFrame n era
  extents : m.extents = [1, 1]

/-- The cell of an address is none of the temporary cells from `k` on. -/
def Settled (m : Machine) (n : Nat) (era k : Counts) (a : Int) : Prop :=
  1000 ≤ a ∧ a < 38000 ∧ ∃ s, m.spot? a = some s ∧ ¬ TempsBetween n era k era s

variable {m m' : Machine} {n : Nat} {era k k' : Counts} {a : Int} {u : Meaning} {t : Scalar}

theorem TempsBetween.mono {l l' : Counts} {s : Spot} (h : TempsBetween n era k k' s)
    (hk : ∀ t, l.get t ≤ k.get t) (hk' : ∀ t, k'.get t ≤ l'.get t) : TempsBetween n era l l' s := by
  obtain ⟨t, i, h0, h1, hs⟩ := h
  exact ⟨t, i, Int.le_trans (hk t) h0, Int.lt_of_lt_of_le h1 (hk' t), hs⟩

theorem Settled.mono (h : m.Settled n era k a) (hk : ∀ t, k.get t ≤ k'.get t) :
    m.Settled n era k' a := by
  obtain ⟨h0, h1, s, hs, hnot⟩ := h
  exact ⟨h0, h1, s, hs, fun ht => hnot (ht.mono hk fun _ => Int.le_refl _)⟩

theorem Settled.fills {S : Spot → Prop} (h : m.Settled n era k a) (hf : Fills S m m') :
    m'.Settled n era k a := by
  obtain ⟨h0, h1, s, hs, hnot⟩ := h
  exact ⟨h0, h1, s, by rw [hf.spot?, hs], hnot⟩

/-- A settled cell stands for what it stood for while temporary cells are filled. -/
theorem Settled.holds (h : m.Settled n era k a) (hm : m.Standard)
    (hf : Fills (TempsBetween n era k k') m m') (hk' : ∀ t, k'.get t ≤ era.get t)
    (hu : m.Holds a 0 u) : m'.Holds a 0 u := by
  obtain ⟨h0, h1, s, hs, hnot⟩ := h
  refine hf.holds hm (s := s) (by simpa using hs) (fun hS => hnot (hS.mono (fun _ => Int.le_refl _) hk'))
    ?_ (by omega) (by omega) hu
  omega

/-- The next temporary cell is settled once it is counted. -/
theorem TempFrame.settled (hm : m.Standard) (hf : m.TempFrame n era) (h0 : 0 ≤ i)
    (h1 : i < era.get t) (hk : ∀ t, 0 ≤ k.get t) (hi : i < k.get t) :
    m.Settled n era k (temp.start t + i) := by
  have hin := tempAddress_bounds h0 (Int.lt_of_lt_of_le h1 (hf.fits t))
  refine ⟨by omega, by omega, tempSpot n era t i, hf.spot? hm t h0 h1, ?_⟩
  rintro ⟨t', j, hj, hj', he⟩
  have hb := Counts.before_nonneg hf.nonneg t
  have hb' := Counts.before_nonneg hf.nonneg t'
  have hk' := hk t'
  have hindex : era.before t + i = era.before t' + j := by
    have := congrArg Spot.index he
    simp only [tempSpot] at this
    omega
  obtain ⟨rfl, rfl⟩ := Counts.before_add_inj hf.nonneg h0 h1 (by omega) hj' hindex
  omega

theorem storeType_temp (hm : m.Standard) (h0 : 0 ≤ i) (h1 : i < Counts.wholeTemps.get t) :
    m.storeType (temp.start t + i) = t := by
  cases t <;> simp [storeType, hm.globalBounds, hm.localBounds, hm.tempBounds, Bounds.stop,
    Bounds.at_, Bounds.typeOf, bounds, start, Scalar.index, Counts.get,
    Counts.wholeTemps] at * <;> grind

/-- A quad with an operator fills its cell with the result, unless there is none. -/
theorem step_operation (hm : m.Ready n era) {o : Operator} {b : Int}
    (hq : m.quad? = some [o.word, toString a, toString b, toString (temp.start o.result + i)])
    (ha : m.Holds a 0 u) (hb : m.Holds b 0 v) (hfit : o.Fits u v) (h0 : 0 ≤ i)
    (h1 : i < era.get o.result) : match o.compute u v with
    | .ok w => ∃ m', m.Next m' ∧ m'.place = m.place + 1 ∧ m'.Ready n era ∧
      Fills (· = tempSpot n era o.result i) m m' ∧
      m'.Holds (temp.start o.result + i) 0 w
    | .error f => ∃ m', Exec.step.run m = (.error f, m') := by
  have hfits := hm.frame.fits o.result
  have hin := tempAddress_bounds h0 (Int.lt_of_lt_of_le h1 hfits)
  have hspot := hm.frame.spot? hm.standard o.result h0 h1
  have hindex := index_lt_of_spot? hspot
  have hwidth : (Exec.ofExcept Machine.width).run m = (.ok 1, m) := by
    rw [Exec.run_ofExcept, width, hm.extents]
    rfl
  have hsingle : ∀ {act : Int → Exec Unit} {r : Except MachineFault Unit} {m₁ : Machine},
      (act 0).run m = (r, m₁) → (Exec.forCells act).run m = (r, m₁) := by
    intro act r m₁ hact
    rw [Exec.forCells, run_bind_ok hwidth]
    cases r with
    | ok _ => exact run_bind_ok hact
    | error f => exact run_bind_error hact
  have hcell := Exec.yields_operateCell hm.standard ha hb hfit (i := 0)
    (r := temp.start o.result + i) (by simpa using hspot) (by omega) (by omega) (by omega)
    m.place
  rcases hw : o.compute u v with f | w
  · rw [hw] at hcell
    obtain ⟨m', hrun⟩ := hcell
    exact ⟨m', step_of_perform_error hq (Exec.run_perform_operator rfl (hsingle hrun))⟩
  · rw [hw] at hcell
    obtain ⟨_, hrun, names, printed, rfl⟩ := hcell
    have htype : m.storeType (temp.start o.result + i + 0) = w.type := by
      rw [Operator.type_of_exact hfit (Operator.exact_of_compute hw), Int.add_zero]
      exact storeType_temp hm.standard h0 (by omega)
    rw [htype] at hrun
    let m' : Machine := { m.write (tempSpot n era o.result i) w.cell with
      names := names, printed := printed, place := m.place + 1, extents := [1, 1] }
    have hfills : Fills (· = tempSpot n era o.result i) m m' := Fills.ofWrite hindex w.cell
    have hcontent : m'.content (tempSpot n era o.result i) = some w.cell := by
      have := content_write hindex w.cell (tempSpot n era o.result i)
      rwa [if_pos rfl] at this
    refine ⟨m', next_of_perform hq (Exec.run_perform_operator rfl (hsingle hrun)) rfl, rfl,
      ⟨hfills.standard hm.standard, hfills.tempFrame hm.frame, rfl⟩, hfills, ?_⟩
    exact holds_of_content (hfills.standard hm.standard)
      (by rw [hfills.spot?, Int.add_zero]; exact hspot) hcontent (by omega) (by omega) (by omega)

end Machine

/-! ### Running the quads of a tree -/

namespace Tree

open Machine

/-- The quads of a tree compute its value.  They fill new temporary cells only, and the
cell of the value is settled from then on. -/
theorem runs {m : Machine} {n : Nat} {era k : Counts} {ρ : Leaf → Meaning} {at_ : Leaf → Int}
    (hm : m.Ready n era) {place : Nat} (hplace : m.place = place)
    (hcode : m.CodeAt place (t.quads at_ [] k)) (hk : ∀ s, 0 ≤ k.get s)
    (hera : ∀ s, (t.slots k).get s ≤ era.get s) (hγ : ∀ x s, γ x = some s → s = .int ∨ s = .bool)
    (htype : t.type? γ = some s)
    (hleaf : ∀ x ∈ t.leaves, γ x = some (ρ x).type ∧ m.Settled n era k (at_ x) ∧ m.Holds (at_ x) 0 (ρ x)) :
    match t.eval ρ with
    | .ok v => v.type = s ∧ ∃ m', Walks (t.quads at_ [] k).length m m' ∧ m'.Ready n era ∧
      Fills (TempsBetween n era k (t.slots k)) m m' ∧
      m'.Settled n era (t.slots k) (t.address at_ k) ∧ m'.Holds (t.address at_ k) 0 v
    | .error f => StopsWithin (t.quads at_ [] k).length m f := by
  induction t generalizing m k place s with
  | leaf x =>
    obtain ⟨hx, hsettled, hholds⟩ := hleaf x (List.mem_singleton_self x)
    have hs : (ρ x).type = s := Option.some.inj (hx.symm.trans htype)
    exact ⟨hs, m, .refl m, hm, .refl _ m, hsettled, hholds⟩
  | op o l r ihl ihr =>
    obtain ⟨ho, a, b, ha, hb, hab⟩ := type?_op_eq_some htype
    let k₁ := l.slots k
    let k₂ := r.slots k₁
    have hk₁ : ∀ s, k.get s ≤ k₁.get s := l.get_le_slots k
    have hk₂ : ∀ s, k₁.get s ≤ k₂.get s := r.get_le_slots k₁
    have hk₃ : ∀ s, ((op o l r).slots k).get s
        = if s = o.result then k₂.get o.result + 1 else k₂.get s  :=
      fun s => Counts.get_put k₂ _ s _
    have hera₂ : ∀ s, k₂.get s ≤ era.get s := by grind
    have hlast : 0 ≤ k₂.get o.result ∧ k₂.get o.result < era.get o.result := by grind
    rw [quads, codeAt_append, codeAt_append] at hcode
    obtain ⟨⟨hcl, hcr⟩, hco⟩ := hcode
    have hlength : ((op o l r).quads at_ [] k).length
        = (l.quads at_ [] k).length + ((r.quads at_ [] k₁).length + 1) := by
      simp [quads, Operator.quads, shapeQuads, k₁]
    rw [eval, hlength]
    -- The left operand.
    have hl := ihl hm hplace hcl hk (by grind) ha fun x hx => hleaf x (List.mem_append_left _ hx)
    rcases hu : l.eval ρ with f | u
    · rw [hu] at hl
      exact hl.mono (Nat.le_add_right _ _)
    rw [hu] at hl
    obtain ⟨hua, m₁, hw₁, hm₁, hf₁, hs₁, hh₁⟩ := hl
    -- The right operand: filling temporary cells for the left one left its leaves alone.
    have hplace₁ : m₁.place = (place + (l.quads at_ [] k).length : Nat) := by
      rw [hw₁.place, hplace]; rfl
    have hr := ihr hm₁ hplace₁ (hf₁.codeAt hcr) (by grind) hera₂ hb fun x hx => by
      obtain ⟨hx, hsettled, hholds⟩ := hleaf x (List.mem_append_right _ hx)
      exact ⟨hx, (hsettled.mono hk₁).fills hf₁, hsettled.holds hm.standard hf₁ (by grind) hholds⟩
    rcases hv : r.eval ρ with f | v
    · rw [hv] at hr
      exact hw₁.stops (hr.mono (Nat.le_succ _))
    rw [hv] at hr
    obtain ⟨hvb, m₂, hw₂, hm₂, hf₂, hs₂, hh₂⟩ := hr
    -- The operator.
    have hq : m₂.quad? = some [o.word, toString (l.address at_ k), toString (r.address at_ k₁),
        toString (temp.start o.result + k₂.get o.result)] :=
      (hf₂.codeAt (hf₁.codeAt hco)).quad? (by
        rw [hw₂.place, hplace₁, List.length_append, ← Nat.add_assoc]; rfl)
    have hop := step_operation hm₂ hq (hs₁.holds hm₁.standard hf₂ hera₂ hh₁) hh₂
      ⟨ho, by rw [hua, hvb, hab]; rfl⟩ hlast.1 hlast.2
    rw [show (do let a ← Except.ok u; let b ← Except.ok v; o.compute a b : Except MachineFault Meaning)
      = o.compute u v from rfl]
    rcases hw : o.compute u v with f | w
    · rw [hw] at hop
      obtain ⟨m₃, hstop⟩ := hop
      exact hw₁.stops (hw₂.stops ⟨0, m₂, m₃, by omega, .refl m₂, hstop⟩)
    · rw [hw] at hop
      obtain ⟨m₃, hnext, hplace₃, hm₃, hf₃, hh₃⟩ := hop
      refine ⟨?_, m₃, hw₁.trans (hw₂.trans (.step hnext hplace₃ (.refl m₃))), hm₃, ?_, ?_, hh₃⟩
      · have hresult := Operator.of_combine ho (type?_cases hγ ha) (type?_cases hγ hb) hab
        rw [hresult.1, Operator.type_of_exact ⟨ho, by rw [hua, hvb, hab]; rfl⟩
          (Operator.exact_of_compute hw)]
      · refine (hf₁.mono fun s hs => hs.mono (fun _ => Int.le_refl _) (by grind)).trans
          ((hf₂.mono fun s hs => hs.mono hk₁ (by grind)).trans (hf₃.mono ?_))
        rintro s rfl
        exact ⟨o.result, k₂.get o.result, by grind, by grind, rfl⟩
      · exact hm₃.frame.settled hm₃.standard hlast.1 hlast.2 (by grind) (by grind)

theorem type?_leaves (h : t.type? γ = some s) :
    ∀ x ∈ t.leaves, ∃ s', γ x = some s' := by
  induction t generalizing s with
  | leaf x =>
    intro y hy
    rw [List.mem_singleton.mp hy]
    exact ⟨s, h⟩
  | op o l r ihl ihr =>
    obtain ⟨-, a, b, ha, hb, -⟩ := type?_op_eq_some h
    intro x hx
    rcases List.mem_append.mp hx with hx | hx
    · exact ihl ha x hx
    · exact ihr hb x hx

end Tree

/-! ### Compiling and running -/

/-- The address is that of a variable or a constant, or of a temporary cell in use. -/
def Compiler.Placed (c : Compiler) (a : Int) : Prop :=
  1000 ≤ a ∧ a < 20000 ∨ 31000 ≤ a ∧ a < 38000 ∨
    ∃ t i, a = Segment.temp.start t + i ∧ 0 ≤ i ∧ i < c.space.temps.get t

/-- The constant for an integer or a truth value is that value. -/
theorem Compiler.constant?_eq_some {c : Compiler} (h : c.ConstantsTyped)
    (hv : (∃ i, value = .int i) ∨ ∃ b, value = .truth b) (hk : c.constant? value = some k) :
    k ∈ c.constants ∧ k.value = value ∧ k.type = Compile.typeOfLiteral value := by
  have hmem := List.mem_of_find?_eq_some hk
  have hfits := List.find?_some hk
  have htype := h k hmem
  simp only [Bool.and_eq_true, beq_iff_eq, htype] at hfits
  obtain ⟨hsame, hname⟩ := hfits
  obtain ⟨kv, kt, ka⟩ := k
  rcases hv with ⟨i, rfl⟩ | ⟨b, rfl⟩ <;> cases kv <;>
    simp_all [Literal.same, Compile.typeOfLiteral, Ty.name, Scalar.name]

namespace Machine

/-- The machine is about to run what was compiled between `c` and `c'`, in a frame that has
the temporary cells for it. -/
structure Poised (m : Machine) (c c' : Compiler) (n : Nat) (era : Counts) : Prop where
  standard : m.Standard
  frame : m.TempFrame n era
  place : m.place = c.quads.size
  code : m.CodeAt c.quads.size (c'.quads.toList.drop c.quads.size)
  nonneg : ∀ t, 0 ≤ c.space.temps.get t
  temps : ∀ t, c'.space.temps.get t ≤ era.get t

/-- It also has the constants, and is to work on single cells. -/
structure Loaded (m : Machine) (c c' : Compiler) (n : Nat) (era : Counts) : Prop extends
    m.Poised c c' n era where
  extents : m.extents = [1, 1]
  constants : ∀ k ∈ c'.constants, 31000 ≤ k.address ∧ k.address < 38000 ∧
    ∃ s, m.spot? k.address = some s ∧ m.content s = some ⟨.text k.value.plainText, k.type⟩

theorem Loaded.ready {m : Machine} {c c' : Compiler} {n : Nat} {era : Counts}
    (h : m.Loaded c c' n era) : m.Ready n era :=
  ⟨h.standard, h.frame, h.extents⟩

theorem Poised.codeAt {m : Machine} {c c' : Compiler} {n : Nat} {era : Counts}
    (h : m.Poised c c' n era) {qs : List Quad} (hqs : c'.quads = c.quads ++ qs.toArray) :
    m.CodeAt c.quads.size qs := by
  have := h.code
  rw [hqs] at this
  simpa using this

/-- The variables of a tree are assigned, and stand for what `σ` says. -/
def Assigned (m : Machine) (c : Compiler) (t : Tree) (σ : String → Meaning) : Prop :=
  ∀ name v, .var name ∈ t.leaves → c.lookup? name = some v →
    v.type = .of (σ name).type ∧ c.Placed v.address ∧ m.Holds v.address 0 (σ name)

variable {m : Machine} {c c' : Compiler} {n : Nat} {era : Counts} {a : Int} {u : Meaning}

/-- What has a place already is settled. -/
theorem Ready.settled (hm : m.Ready n era) (hk : ∀ t, 0 ≤ c.space.temps.get t)
    (hera : ∀ t, c.space.temps.get t ≤ era.get t) {s : Spot} (ha : c.Placed a)
    (hs : m.spot? a = some s) : m.Settled n era c.space.temps a := by
  have hrow : s.row ≠ .frame n → ¬ TempsBetween n era c.space.temps era s := by
    rintro hr ⟨t, i, -, -, rfl⟩
    exact hr rfl
  rcases ha with ⟨h0, h1⟩ | ⟨h0, h1⟩ | ⟨t, i, rfl, h0, h1⟩
  · exact ⟨h0, by omega, s, hs, hrow (hm.frame.row_ne hm.standard hs h1)⟩
  · refine ⟨by omega, h1, s, hs, hrow ?_⟩
    rcases row_of_spot? hm.standard hs with ⟨h, -⟩ | ⟨-, h, -⟩ | ⟨-, h, -⟩ | ⟨-, hr⟩
    · omega
    · omega
    · omega
    · rw [hr]; exact Row.noConfusion
  · exact hm.frame.settled hm.standard h0 (Int.lt_of_lt_of_le h1 (hera t)) hk h1

theorem Ready.settled_of_holds (hm : m.Ready n era) (hk : ∀ t, 0 ≤ c.space.temps.get t)
    (hera : ∀ t, c.space.temps.get t ≤ era.get t) (ha : c.Placed a) (hu : m.Holds a 0 u) :
    m.Settled n era c.space.temps a := by
  have hbound : a.natAbs < 10 ^ 10 := by
    rcases ha with ⟨h0, h1⟩ | ⟨h0, h1⟩ | ⟨t, i, rfl, h0, h1⟩
    · omega
    · omega
    · have hin := tempAddress_bounds h0
        (Int.lt_of_lt_of_le h1 (Int.le_trans (hera t) (hm.frame.fits t)))
      omega
  obtain ⟨x, hx, -⟩ := hu
  obtain ⟨s, hs⟩ := spot?_of_value hbound hx
  rw [Int.add_zero] at hs
  exact hm.settled hk hera ha hs

/-- The cell of a constant stands for the constant. -/
theorem Loaded.holds_constant (hm : m.Loaded c c' n era) (htyped : c'.ConstantsTyped)
    (hera : ∀ t, c.space.temps.get t ≤ era.get t) (hk : c'.constant? value = some k)
    (hu : (∃ i, Number.Short i ∧ value = .int i ∧ u = .int i) ∨ ∃ b, value = .truth b ∧ u = .truth b)
    : m.Settled n era c.space.temps k.address ∧ m.Holds k.address 0 u := by
  obtain ⟨hmem, hvalue, htype⟩ := Compiler.constant?_eq_some htyped
    (hu.imp (fun ⟨i, _, h, _⟩ => ⟨i, h⟩) fun ⟨b, h, _⟩ => ⟨b, h⟩) hk
  obtain ⟨h0, h1, s, hs, hcontent⟩ := hm.constants k hmem
  refine ⟨hm.ready.settled hm.nonneg hera (.inr (.inl ⟨h0, h1⟩)) hs, ?_⟩
  rw [Holds, value_spot hm.ready.standard (by simpa using hs) (by omega) (by omega) (by omega),
    hcontent]
  simp only [hvalue, htype]
  rcases hu with ⟨i, hi, rfl, rfl⟩ | ⟨b, rfl, rfl⟩
  · refine ⟨.int i, ?_, .int i⟩
    have hread := Value.toInt_text_toString hi
    simp only [Literal.plainText, Number.writeInt, Compile.typeOfLiteral, Cell.read, hread]
    rfl
  · exact ⟨_, rfl, .word b⟩

/-- The leaves of what was compiled are settled and stand for their meanings. -/
theorem Loaded.leaf (hm : m.Loaded c c' n era) {σ : String → Meaning}
    (ht : t.type? (c.leafType? []) = some s) (hemits : Emits [] t s c c')
    (htyped : c.ConstantsTyped) (hσ : m.Assigned c t σ) {x : Leaf} (hx : x ∈ t.leaves) :
    c.leafType? [] x = some (x.meaning σ).type ∧
      m.Settled n era c.space.temps (c'.addressOf x) ∧ m.Holds (c'.addressOf x) 0 (x.meaning σ) := by
  have hera : ∀ t, c.space.temps.get t ≤ era.get t := by
    intro s
    have hle := t.get_le_slots c.space.temps s
    rw [← hemits.temps] at hle
    exact Int.le_trans hle (hm.temps s)
  obtain ⟨a, ha⟩ := Option.isSome_iff_exists.mp (hemits.located x hx)
  have haddress : c'.addressOf x = a := by rw [Compiler.addressOf, ha]; rfl
  rw [haddress]
  cases x with
  | var name =>
    obtain ⟨s', hs'⟩ := Tree.type?_leaves ht _ hx
    obtain ⟨v, hv, rfl⟩ := Option.map_eq_some_iff.mp ha
    rw [hemits.grows.lookup?] at hv
    obtain ⟨htype, hplaced, hholds⟩ := hσ name v hx hv
    refine ⟨?_, ?_, hholds⟩
    · simp only [Compiler.leafType?, hv, htype] at hs' ⊢
      cases hu : σ name <;> simp_all [Meaning.type, Leaf.meaning]
    · exact hm.ready.settled_of_holds hm.nonneg hera hplaced hholds
  | int i hi =>
    obtain ⟨k, hk, rfl⟩ := Option.map_eq_some_iff.mp ha
    exact ⟨rfl, hm.holds_constant (hemits.grows.typed htyped) hera hk (.inl ⟨i, hi, rfl, rfl⟩)⟩
  | truth b =>
    obtain ⟨k, hk, rfl⟩ := Option.map_eq_some_iff.mp ha
    exact ⟨rfl, hm.holds_constant (hemits.grows.typed htyped) hera hk (.inr ⟨b, rfl, rfl⟩)⟩

/-- Nothing that has a place is changed when new temporary cells are filled. -/
theorem Loaded.content_of_fills (hm : m.Loaded c c' n era)
    (hera : ∀ t, c.space.temps.get t ≤ era.get t) {m' : Machine}
    (hf : Fills (TempsBetween n era c.space.temps c'.space.temps) m m') {s : Spot} (ha : c.Placed a)
    (hs : m.spot? a = some s) : m'.content s = m.content s := by
  obtain ⟨-, -, s', hs', hnot⟩ := hm.ready.settled hm.nonneg hera ha hs
  cases hs.symm.trans hs'
  exact hf.content s fun h => hnot (h.mono (fun _ => Int.le_refl _) hm.temps)

end Machine

/-! ### An example -/

/-- The compiler in a function with two integers, after the sign of an assignment. -/
def Compiler.inFunction : Compiler := { Compiler.start false "" with
  functions := [("main", ⟨"main", .void, none, [], none, some [], [], []⟩),
    ("f", ⟨"f", .void, none, [], none,
      some [("x", ⟨"x", .of .int, 9000, []⟩), ("y", ⟨"y", .of .int, 9001, []⟩)], [], []⟩)]
  globalName := some "main"
  currentName := some "f"
  operators := ["="] }

/-- The expression `x + y * 2 > 3`. -/
def Formula.weighted : Formula 4 :=
  .chain (.chain (.chain (.chain (.var "x") .stop) (.more .add rfl (.chain (.var "y")
      (.more .mul rfl (.int 2 (Number.short_of_natAbs_lt (by decide))) .stop)) .stop))
    (.more .gt rfl (.chain (.chain (.int 3 (Number.short_of_natAbs_lt (by decide))) .stop) .stop)
      .stop)) .stop

/-- The machine in a call of the function, before the quads of the expression. -/
def Machine.inFunction (x y : Int) (extents : List Int) (temps : Frame) : Machine := { blank with
  constants := #[some ⟨.text "2", .of .int⟩, some ⟨.text "3", .of .int⟩]
  frames := #[#[], #[], #[some ⟨.int x, .of .int⟩, some ⟨.int y, .of .int⟩], temps]
  locals := [2, 0]
  temps := [3, 1]
  localOffsets := [offsetsOf [2, 0, 0, 0]]
  tempOffsets := [offsetsOf [2, 0, 0, 1]]
  quads := #[["*", "9001", "31000", "20000"], ["+", "9000", "20000", "20001"],
    [">", "20001", "31001", "29500"]]
  extents := extents }

/-- What the variables of the example stand for. -/
def Meaning.inFunction (x y : Int) (name : String) : Meaning := if name = "x" then .int x else .int y

theorem Formula.run_weighted :
    ∃ c', ((Phrase.expr (weighted.phrase .plain)).run none).run .inFunction = (.ok none, c') ∧
      c'.operands.map (·.address) = [.cell 29500] ∧ c'.space.temps = ⟨2, 0, 0, 1⟩ ∧
      c'.quads = #[[.text "*", .number 9001, .number 31000, .number 20000],
        [.text "+", .number 9000, .number 20000, .number 20001],
        [.text ">", .number 20001, .number 31001, .number 29500]] ∧
      c'.constants.map (fun k => (k.value.plainText, k.type, k.address))
        = [("2", .of .int, 31000), ("3", .of .int, 31001)] := by
  have hok : (((Phrase.expr (weighted.phrase .plain)).run none).run .inFunction).1.toOption.any
      (·.isNone) = true := by decide +kernel
  refine ⟨(((Phrase.expr (weighted.phrase .plain)).run none).run .inFunction).2, ?_,
    by decide +kernel, by decide +kernel, by decide +kernel, by decide +kernel⟩
  generalize ((Phrase.expr (weighted.phrase .plain)).run none).run .inFunction = p at hok ⊢
  obtain ⟨_ | _ | _, c'⟩ := p
  · cases hok
  · rfl
  · cases hok

namespace Machine

theorem loaded_inFunction (x y : Int) : ∀ c', ((Phrase.expr (Formula.weighted.phrase .plain)).run
    none).run .inFunction = (.ok none, c') →
    (inFunction x y [1, 1] #[none, none, none]).Loaded .inFunction c' 3 ⟨2, 0, 0, 1⟩ := by
  intro c' hrun
  obtain ⟨c, hrun', -, htemps, hcode, hconstants⟩ := Formula.run_weighted
  obtain rfl : c = c' := congrArg Prod.snd (hrun'.symm.trans hrun)
  refine ⟨⟨⟨rfl, rfl, rfl, rfl⟩, ⟨rfl, by simp [inFunction], ?_, ?_, rfl, rfl⟩, rfl, ?_, ?_, ?_⟩, rfl, ?_⟩
  · intro t; cases t <;> decide
  · intro t; cases t <;> decide
  · have hquads : (inFunction x y [1, 1] #[none, none, none]).quads
        = c.quads.map (·.map Field.shown) := by
      rw [hcode, show (Array.map _ _ : Array (List String)) = #[["*", "9001", "31000", "20000"],
        ["+", "9000", "20000", "20001"], [">", "20001", "31001", "29500"]] by decide +kernel]
      rfl
    intro i q hq
    have hi : c.quads[i]? = some q := by simpa [Compiler.inFunction, Compiler.start] using hq
    rw [hquads, Array.getElem?_map, show Compiler.inFunction.quads.size + i = i from Nat.zero_add i, hi]
    rfl
  · intro t; cases t <;> decide
  · intro t; cases t <;> rw [htemps]
  · intro k hk
    have hmem := List.mem_map_of_mem (f := fun k => (k.value.plainText, k.type, k.address)) hk
    rw [hconstants] at hmem
    simp only [List.mem_cons, Prod.mk.injEq, List.not_mem_nil, or_false] at hmem
    rcases hmem with ⟨hv, ht, ha⟩ | ⟨hv, ht, ha⟩ <;> rw [hv, ht, ha]
    · exact ⟨by decide, by decide, ⟨.constants, 0⟩, rfl, rfl⟩
    · exact ⟨by decide, by decide, ⟨.constants, 1⟩, rfl, rfl⟩

theorem assigned_inFunction (x y : Int) (extents : List Int) (temps : Frame) :
    (inFunction x y extents temps).Assigned .inFunction Formula.weighted.tree
      (Meaning.inFunction x y) := by
  have hm : (inFunction x y extents temps).Standard := ⟨rfl, rfl, rfl, rfl⟩
  intro name v hname hv
  have hname : name = "x" ∨ name = "y" := by
    simpa [Formula.weighted, Formula.tree, Rest.tree, Tree.leaves] using hname
  rcases hname with rfl | rfl
  · have hx : Compiler.inFunction.lookup? "x" = some ⟨"x", .of .int, 9000, []⟩ := by decide +kernel
    cases hx.symm.trans hv
    refine ⟨rfl, .inl ⟨by decide, by decide⟩, .int x, ?_, .int x⟩
    exact value_spot hm (s := ⟨.frame 2, 0⟩) rfl (by decide) (by decide) (by decide)
  · have hy : Compiler.inFunction.lookup? "y" = some ⟨"y", .of .int, 9001, []⟩ := by decide +kernel
    cases hy.symm.trans hv
    refine ⟨rfl, .inl ⟨by decide, by decide⟩, .int y, ?_, .int y⟩
    exact value_spot hm (s := ⟨.frame 2, 1⟩) rfl (by decide) (by decide) (by decide)

end Machine

/-! ### The main statement -/

open Machine

/-- Compiling an expression and running it gives its exact value.  Of `e`, a well-typed
expression of integers and truth values as it is written, with the usual precedence, the
steps of its rules put one operand on the stack and make quads that the machine does one
after the other; then the cell of the operand stands for the value.  A division by zero
stops the run, and so does a number that is too long to be written. -/
theorem Formula.compiled_computes (d : Dialect) (e : Formula 4) (before : Option Literal)
    {c : Compiler} {s : Scalar} (htyped : c.ConstantsTyped) (hclear : c.Clear 4)
    (hs : e.tree.type? (c.leafType? []) = some s)
    (hspace : ∀ type scope c', ((Phrase.expr (e.phrase d)).run before).run c
      ≠ (.error (.space (.full type scope)), c')) :
    (Phrase.expr (e.phrase d)).Valid d ∧ (Phrase.expr (e.phrase d)).yield = e.written d ∧
    ∃ c' name a qs, ((Phrase.expr (e.phrase d)).run before).run c = (.ok none, c') ∧
      c'.operands = ⟨name, .cell a, .of s, []⟩ :: c.operands ∧ c'.operators = c.operators ∧
      c'.quads = c.quads ++ qs ∧
      ∀ m n era σ, m.Loaded c c' n era → m.Assigned c e.tree σ →
        (e.tree.Writable (Leaf.meaning σ) →
          e.tree.eval (Leaf.meaning σ) = e.tree.exact (Leaf.meaning σ)) ∧
        match e.tree.eval (Leaf.meaning σ) with
        | .ok v => e.tree.exact (Leaf.meaning σ) = .ok v ∧ ∃ m', Walks qs.size m m' ∧
          m'.Holds a 0 v ∧ (∀ sp, m'.content sp ≠ m.content sp →
            TempsBetween n era c.space.temps c'.space.temps sp) ∧
          ∀ b sp, c.Placed b → m.spot? b = some sp → m'.content sp = m.content sp
        | .error f => StopsWithin qs.size m f ∧
          (f = .longNumber ∨ f = .intModulo ∧ e.tree.exact (Leaf.meaning σ) = .error f) := by
  have hvalid := e.valid_phrase d (Nat.le_refl 4)
  refine ⟨Phrase.valid_expr hvalid.1 hvalid.2, ?_, ?_⟩
  · rw [← e.yield_phrase d]
    simp [Phrase.expr]
  rw [Phrase.run_expr] at hspace ⊢
  have hscalar : ([] : List Int).length ≤ 2 := Nat.zero_le 2
  rcases e.emits d hscalar (Nat.le_refl 4) htyped hclear hs before with
    ⟨type, scope, c', hfull⟩ | ⟨c', hrun, hemits⟩
  · exact absurd (Steps.run_bind_error hfull) (hspace type scope c')
  obtain ⟨name, hoperands⟩ := hemits.operands
  refine ⟨c', name, _, _, by rw [Steps.run_bind_ok hrun]; rfl, hoperands, hemits.operators,
    hemits.quads, ?_⟩
  intro m n era σ hm hσ
  refine ⟨Tree.eval_eq_exact, ?_⟩
  have hera : ∀ t, c.space.temps.get t ≤ era.get t := by
    intro t
    have hle := e.tree.get_le_slots c.space.temps t
    rw [← hemits.temps] at hle
    exact Int.le_trans hle (hm.temps t)
  have hleaf : ∀ x ∈ e.tree.leaves, _ := fun x hx => hm.leaf hs hemits htyped hσ hx
  have hruns := Tree.runs hm.ready hm.place (hm.codeAt hemits.quads) hm.nonneg (hemits.temps ▸ hm.temps)
    Compiler.leafType?_cases hs hleaf
  have hexact := Tree.exact_cases Compiler.leafType?_cases hs fun x hx => (hleaf x hx).1
  have heval := e.tree.eval_eq_exact_or (ρ := Leaf.meaning σ)
  rcases hv : e.tree.eval (Leaf.meaning σ) with f | v
  · rw [hv] at hruns heval
    refine ⟨by simpa using hruns, ?_⟩
    rcases heval with heval | heval
    · rcases hexact with ⟨v, hv, -⟩ | hzero
      · rw [hv] at heval; cases heval
      · rw [hzero] at heval
        cases heval
        exact .inr ⟨rfl, hzero⟩
    · cases heval
      exact .inl rfl
  · rw [hv] at hruns heval
    obtain ⟨-, m', hwalks, -, hfills, -, hholds⟩ := hruns
    rw [← hemits.temps] at hfills
    refine ⟨(heval.resolve_right nofun).symm, m', by simpa using hwalks, hholds, ?_,
      fun b sp => hm.content_of_fills hera hfills⟩
    intro sp hsp
    by_contra hnot
    exact hsp (hfills.content sp hnot)


theorem Formula.weighted_computed :
    ∃ c' m', ((Phrase.expr (weighted.phrase .plain)).run none).run .inFunction = (.ok none, c') ∧
      c'.operands.map (·.address) = [.cell 29500] ∧ c'.operators = ["="] ∧
      Walks 3 (.inFunction 5 4 [1, 1] #[none, none, none]) m' ∧ m'.Holds 29500 0 (.truth true) := by
  have hclear : Compiler.inFunction.Clear 4 := by
    rintro w hw
    cases hw
    exact Level.notMem_words (.inr rfl)
  obtain ⟨c₁, hrun₁, haddress, -, hcode, -⟩ := run_weighted
  obtain ⟨-, -, c', name, a, qs, hrun, hoperands, hoperators, hquads, hcomputes⟩ :=
    compiled_computes .plain weighted none (c := .inFunction) (s := .bool) nofun hclear
      (by decide +kernel) (fun type scope c' h => nomatch hrun₁.symm.trans h)
  obtain rfl : c₁ = c' := congrArg Prod.snd (hrun₁.symm.trans hrun)
  obtain rfl : a = 29500 := by
    rw [hoperands] at haddress
    simpa using (List.cons.inj haddress).1
  have hsize : qs.size = 3 := by
    have := congrArg Array.size hquads
    rw [hcode, Array.size_append] at this
    simpa [Compiler.inFunction, Compiler.start] using this.symm
  have heval : weighted.tree.eval (Leaf.meaning (Meaning.inFunction 5 4)) = .ok (.truth true) := by
    decide +kernel
  have hresult := hcomputes _ 3 ⟨2, 0, 0, 1⟩ _ (loaded_inFunction 5 4 c₁ hrun)
    (assigned_inFunction 5 4 _ _)
  rw [heval, hsize] at hresult
  obtain ⟨-, -, m', hwalks, hholds, -⟩ := hresult
  exact ⟨c₁, m', hrun, haddress, hoperators, hwalks, hholds⟩

/-- Without a value in its cell the expression stops although its variables are assigned: a
product that is too long to be written, cells that an earlier quad left to be worked on, or
a frame without room for the temporary values. -/
theorem Formula.weighted_stops :
    (∃ c', ((Phrase.expr (weighted.phrase .plain)).run none).run .inFunction = (.ok none, c') ∧
      (inFunction 5 (10 ^ 4300 - 1) [1, 1] #[none, none, none]).Loaded .inFunction c' 3
        ⟨2, 0, 0, 1⟩) ∧
    (inFunction 5 (10 ^ 4300 - 1) [1, 1] #[none, none, none]).Assigned .inFunction weighted.tree
      (Meaning.inFunction 5 (10 ^ 4300 - 1)) ∧
    weighted.tree.exact (Leaf.meaning (Meaning.inFunction 5 (10 ^ 4300 - 1))) = .ok (.truth true) ∧
    StopsWithin 3 (inFunction 5 (10 ^ 4300 - 1) [1, 1] #[none, none, none]) .longNumber ∧
    (∀ extents temps, (inFunction 5 4 extents temps).Assigned .inFunction weighted.tree
      (Meaning.inFunction 5 4)) ∧
    weighted.tree.exact (Leaf.meaning (Meaning.inFunction 5 4)) = .ok (.truth true) ∧
    StopsWithin 3 (inFunction 5 4 [1, 2] #[none, none, none]) (.unreachable "9002 + 1") ∧
    StopsWithin 3 (inFunction 5 4 [1, 1] #[]) .badStore := by
  obtain ⟨c', hrun, -⟩ := run_weighted
  exact ⟨⟨c', hrun, loaded_inFunction _ _ c' hrun⟩, assigned_inFunction _ _ _ _, by decide +kernel,
    .ofStep (by decide +kernel) 2, assigned_inFunction 5 4, by decide +kernel,
    .ofStep (by decide +kernel) 2, .ofStep (by decide +kernel) 2⟩

end QuadLang
