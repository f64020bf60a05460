/-
The steps of control.

Jumps forward are made without a target and completed when the target is known; until then
their numbers are on stacks.  Here is exactly what the steps of conditionals and loops do to
the code and to the stacks.

* `Retargets` — the targets of some quads are set, and no other quad is changed;
* `Compile.addElse_eq_ok`, `Compile.completeLoop_eq_ok` and so on — the steps, when the top of
  the stack of jumps is known.
-/
import QuadLang.Proofs.Walks

namespace QuadLang

open Steps

/-- A quad with another target. -/
def Quad.retarget (t : Int) : Quad → Quad
  | op :: a :: b :: _ :: rest => op :: a :: b :: .number t :: rest
  | q => q

structure Retargets (bs : List Nat) (t : Int) (A A' : Array Quad) : Prop where
  size : A'.size = A.size
  get? : ∀ k, A'[k]? = if k ∈ bs then A[k]?.map (Quad.retarget t) else A[k]?

theorem Quad.retarget_retarget (t : Int) (q : Quad) : retarget t (retarget t q) = retarget t q := by
  rcases q with _ | ⟨op, _ | ⟨a, _ | ⟨b, _ | ⟨r, rest⟩⟩⟩⟩ <;> rfl

namespace Retargets

variable {bs bs' : List Nat} {t : Int} {A A₁ A' : Array Quad}

theorem refl (t : Int) (A : Array Quad) : Retargets [] t A A where
  size := rfl
  get? k := by rw [if_neg List.not_mem_nil]

theorem trans (h : Retargets bs t A A₁) (h' : Retargets bs' t A₁ A') :
    Retargets (bs ++ bs') t A A' where
  size := h'.size.trans h.size
  get? k := by
    rw [h'.get?, h.get?]
    by_cases hb : k ∈ bs <;> by_cases hb' : k ∈ bs'
    · have hcomp : Quad.retarget t ∘ Quad.retarget t = Quad.retarget t :=
        funext (Quad.retarget_retarget t)
      rw [if_pos hb', if_pos hb, if_pos (List.mem_append_left _ hb), Option.map_map, hcomp]
    · rw [if_neg hb', if_pos hb, if_pos (List.mem_append_left _ hb)]
    · rw [if_pos hb', if_neg hb, if_pos (List.mem_append_right _ hb')]
    · rw [if_neg hb', if_neg hb, if_neg (fun hm => (List.mem_append.mp hm).elim hb hb')]

end Retargets

namespace Compile

variable {c c' : Compiler} {rest : List Int} {x : Unit} {j : Nat}

/-! ### The steps of control -/

theorem complete_eq_ok {t : Int} (h : (complete j t).run c = (.ok x, c')) :
    ∃ printed quads, c' = { c with printed, quads } ∧ Retargets [j] t c.quads quads := by
  rw [complete, run_bind_ok (run_get c)] at h
  have hindex : quadIndex? c.quads.size j = if j < c.quads.size then some j else none := by
    have hj : ¬ (j : Int) < 0 := by omega
    rw [quadIndex?, if_neg hj]
    by_cases hlt : j < c.quads.size
    · rw [if_pos hlt, if_pos (by rw [Bool.and_eq_true, decide_eq_true_eq, decide_eq_true_eq]; omega),
        Int.toNat_natCast]
    · rw [if_neg hlt, if_neg (by rw [Bool.and_eq_true, decide_eq_true_eq, decide_eq_true_eq]; omega)]
  rw [hindex] at h
  by_cases hlt : j < c.quads.size
  · rw [if_pos hlt, Option.bind_some] at h
    rcases hq : c.quads[j]? with _ | q
    · rw [hq] at h
      cases h
    rw [hq, Option.map_some] at h
    rcases q with _ | ⟨op, _ | ⟨a, _ | ⟨b, _ | ⟨r, tail⟩⟩⟩⟩
    · cases h
    · cases h
    · cases h
    · cases h
    · obtain ⟨_, c₁, hset, hremark⟩ := bind_eq_ok h
      cases hset
      obtain ⟨printed, rfl⟩ := say_eq_ok hremark
      refine ⟨printed, _, rfl, ⟨Array.size_setIfInBounds, fun k => ?_⟩⟩
      rw [Array.getElem?_setIfInBounds]
      by_cases hk : j = k
      · subst hk
        rw [if_pos rfl, if_pos hlt, if_pos List.mem_cons_self, hq]
        rfl
      · rw [if_neg hk, if_neg (fun hm => hk (List.mem_singleton.mp hm).symm)]
  · rw [if_neg hlt] at h
    cases h

theorem completeHere_eq_ok (h : (completeHere j).run c = (.ok x, c')) :
    ∃ printed quads, c' = { c with printed, quads } ∧ Retargets [j] c.quads.size c.quads quads := by
  rw [completeHere, run_bind_ok (show quadCount.run c = (.ok (c.quads.size : Int), c) from rfl)] at h
  exact complete_eq_ok h

theorem addJumpIfFalse_eq_ok (h : addJumpIfFalse.run c = (.ok x, c')) :
    ∃ u a c₁ printed, u ≠ Due.product ∧ Goes .nothing u c c₁ ∧ c' = { c₁ with
      printed, quads := c₁.quads.push [.text "GoToF", a, .none, .none]
      jumps := c₁.quads.size :: c₁.jumps } := by
  obtain ⟨v, c₁, hpop, h₁⟩ := bind_eq_ok h
  obtain ⟨_, c₂, hshape, h₂⟩ := bind_eq_ok h₁
  split at h₂
  · obtain ⟨_, c₃, hemit, h₃⟩ := bind_eq_ok h₂
    obtain ⟨printed, rfl⟩ := emit_eq_ok hemit
    cases h₃
    refine ⟨.ofDims v.dims, .address v.address, c₂, printed, Walk.due_ofDims_ne _, ?_, ?_⟩
    · exact Goes.trans (leads_popOperand.apply hpop) ((leads_addShapeOf v.dims).apply hshape)
    · simp
  · cases h₂

theorem addElse_eq_ok (h : addElse.run c = (.ok x, c')) (hj : c.jumps = (j : Int) :: rest) :
    ∃ printed quads, c' = { c with printed, quads, jumps := c.quads.size :: rest } ∧
      Retargets [j] (c.quads.size + 1 : Nat) (c.quads.push [.text "GoTo", .none, .none, .none]) quads := by
  obtain ⟨_, c₁, hemit, h₁⟩ := bind_eq_ok h
  obtain ⟨printed, rfl⟩ := emit_eq_ok hemit
  obtain ⟨n, c₂, hpop, h₂⟩ := bind_eq_ok h₁
  obtain ⟨rfl, rfl⟩ := pop_eq_of_cons hpop hj
  obtain ⟨_, c₃, hcount, h₃⟩ := bind_eq_ok h₂
  cases hcount
  obtain ⟨_, c₄, hpush, h₄⟩ := bind_eq_ok h₃
  cases hpush
  obtain ⟨printed', quads, rfl, hquads⟩ := completeHere_eq_ok h₄
  simp only [Array.size_push] at hquads
  exact ⟨printed', quads, by simp, hquads⟩

theorem completeIf_eq_ok (h : completeIf.run c = (.ok x, c')) (hj : c.jumps = (j : Int) :: rest) :
    ∃ printed quads, c' = { c with printed, quads, jumps := rest } ∧
      Retargets [j] c.quads.size c.quads quads := by
  obtain ⟨n, c₁, hpop, h₁⟩ := bind_eq_ok h
  obtain ⟨rfl, rfl⟩ := pop_eq_of_cons hpop hj
  obtain ⟨printed, quads, rfl, hquads⟩ := completeHere_eq_ok h₁
  exact ⟨printed, quads, rfl, hquads⟩

/-- The numbers of quads, as they are on the stacks. -/
def numbers (bs : List Nat) : List Int := bs.map Int.ofNat

/-- All breaks of a loop are completed. -/
theorem completeAll_eq_ok {bs : List Nat}
    (h : (do for b in numbers bs do completeHere b : Compile Unit).run c = (.ok x, c')) :
    ∃ printed quads, c' = { c with printed, quads } ∧ Retargets bs c.quads.size c.quads quads := by
  induction bs generalizing c with
  | nil =>
    cases h
    exact ⟨_, _, rfl, .refl _ _⟩
  | cons b bs ih =>
    simp only [numbers, List.map_cons, List.forIn_cons, bind_assoc, pure_bind] at h
    obtain ⟨_, c₁, hfirst, hrest⟩ := bind_eq_ok h
    obtain ⟨printed, quads, rfl, hquads⟩ := completeHere_eq_ok (j := b) hfirst
    obtain ⟨printed', quads', rfl, hquads'⟩ := ih hrest
    rw [show Compiler.quads { c with printed, quads } = quads from rfl, hquads.size] at hquads'
    exact ⟨printed', quads', rfl, hquads.trans hquads'⟩

theorem completeLoop_eq_ok {exit again : Nat} {bs : List Nat} {breaks : List (List Int)}
    (h : completeLoop.run c = (.ok x, c')) (hj : c.jumps = (exit : Int) :: (again : Int) :: rest)
    (hb : c.breaks = numbers bs :: breaks) :
    ∃ printed quads, c' = { c with printed, quads, breaks, jumps := rest } ∧
      Retargets (exit :: bs) (c.quads.size + 1 : Nat)
        (c.quads.push [.text "GoTo", .none, .none, .number again]) quads := by
  obtain ⟨n, c₁, hpop, h₁⟩ := bind_eq_ok h
  obtain ⟨rfl, rfl⟩ := pop_eq_of_cons hpop hj
  obtain ⟨n, c₂, hpop', h₂⟩ := bind_eq_ok h₁
  obtain ⟨rfl, rfl⟩ := pop_eq_of_cons hpop' rfl
  obtain ⟨_, c₃, hemit, h₃⟩ := bind_eq_ok h₂
  obtain ⟨printed, rfl⟩ := emit_eq_ok hemit
  obtain ⟨_, c₄, hexit, h₄⟩ := bind_eq_ok h₃
  obtain ⟨printed₁, quads₁, rfl, hquads₁⟩ := completeHere_eq_ok hexit
  obtain ⟨bs', c₅, hbreaks, h₅⟩ := bind_eq_ok h₄
  obtain ⟨rfl, rfl⟩ := pop_eq_of_cons hbreaks hb
  obtain ⟨printed₂, quads₂, rfl, hquads₂⟩ := completeAll_eq_ok h₅
  rw [Array.size_push] at hquads₁
  rw [show Compiler.quads { c with printed := printed₁, quads := quads₁, jumps := rest, breaks } = quads₁
    from rfl, hquads₁.size, Array.size_push] at hquads₂
  exact ⟨printed₂, quads₂, rfl, hquads₁.trans hquads₂⟩

theorem addBreak_eq_ok (h : addBreak.run c = (.ok x, c')) :
    ∃ inner breaks printed, c.breaks = inner :: breaks ∧ c' = { c with
      printed, quads := c.quads.push [.text "GoTo", .none, .none, .none]
      breaks := (inner ++ numbers [c.quads.size]) :: breaks } := by
  rw [addBreak, run_bind_ok (run_get c)] at h
  rcases hb : c.breaks with _ | ⟨inner, breaks⟩
  · rw [hb] at h
    cases h
  · rw [hb] at h
    obtain ⟨_, c₁, hemit, h₁⟩ := bind_eq_ok h
    obtain ⟨printed, rfl⟩ := emit_eq_ok hemit
    cases h₁
    refine ⟨inner, breaks, printed, rfl, ?_⟩
    simp [hb, numbers]

/-- A loop begins after code that computes. -/
theorem addLoopStart_eq_ok (h : addLoopStart.run c = (.ok x, c')) :
    ∃ c₁, Goes .nothing .nothing c c₁ ∧ c' = { c₁ with
      jumps := c₁.quads.size :: c₁.jumps, breaks := [] :: c₁.breaks } := by
  obtain ⟨_, c₁, hpush, h₁⟩ := bind_eq_ok h
  obtain ⟨_, c₂, hassign, h₂⟩ := bind_eq_ok h₁
  cases h₂
  exact ⟨c₂, Goes.trans ((leads_pushOperator _).apply hpush) (leads_addAssign.apply hassign), rfl⟩

/-- At the end of a counting loop comes code that computes, then the end of the loop. -/
theorem addLoopEnd_eq_ok (h : addLoopEnd.run c = (.ok x, c')) :
    ∃ c₁ c₂, Goes .nothing .nothing c c₁ ∧ completeLoop.run c₁ = (.ok (), c₂) ∧
      Goes .silence .silence c₂ c' := by
  obtain ⟨one, c₁, h₁, h⟩ := bind_eq_ok h
  obtain ⟨top, c₂, h₂, h⟩ := bind_eq_ok h
  obtain ⟨_, c₃, h₃, h⟩ := bind_eq_ok h
  obtain ⟨top', c₄, h₄, h⟩ := bind_eq_ok h
  obtain ⟨_, c₅, h₅, h⟩ := bind_eq_ok h
  obtain ⟨_, c₆, h₆, h⟩ := bind_eq_ok h
  obtain ⟨_, c₇, h₇, h⟩ := bind_eq_ok h
  obtain ⟨_, c₈, h₈, h⟩ := bind_eq_ok h
  obtain ⟨_, c₉, h₉, h⟩ := bind_eq_ok h
  obtain ⟨_, c₁₀, h₁₀, h⟩ := bind_eq_ok h
  obtain ⟨_, c₁₁, h₁₁, h⟩ := bind_eq_ok h
  refine ⟨c₁₀, c₁₁, ?_, h₁₁, (leads_bind leads_popOperand fun _ => leads_pure _ _).apply h⟩
  have hconstant : Goes .nothing .nothing c c₁ := (leads_number _ _).apply h₁
  have htop : Goes .nothing .nothing c₁ c₃ := Goes.trans (looks_topOperand.leads.apply h₂) ((leads_pushOperand _).apply h₃)
  have htop' : Goes .nothing .nothing c₃ c₅ := Goes.trans (looks_topOperand.leads.apply h₄) ((leads_pushOperand _).apply h₅)
  have hpushes : Goes .nothing .nothing c₅ c₈ :=
    (Goes.trans ((leads_pushConstant _).apply h₆) ((leads_pushOperator _).apply h₇)).trans ((leads_pushOperator _).apply h₈)
  exact ((hconstant.trans htop).trans htop').trans (hpushes.trans
    (Goes.trans ((leads_addOperation _).apply h₉) (leads_addAssign.apply h₁₀)))

end Compile

end QuadLang
