/-
Calls in preparation.

A call is prepared by `ERA`, its arguments are computed and queued, and `GoSub`
enters the function.  Any number of other calls may be prepared, entered and left
in between, when an argument is itself a call.  `Preparing m₀ l m` says that `m`
is reached between the `ERA` of `m₀` and the `GoSub` that answers it, and that `l`
did the latest `ERA` so far.

* `resolve_eq_iff_of_preparing` — an address means the same cell while a call is
  prepared exactly when the main program prepares it, or the frames of caller and
  callee begin the cells of its type at the same place;
* `entered_frames_of_preparing` — the frames that `GoSub` enters are those of the
  function prepared last; they are new, and have the size that the called
  function needs, when no argument was a call.
-/
import QuadLang.Proofs.Frames
import QuadLang.Proofs.Spots

namespace QuadLang

open Segment Steps

variable {a place : Int} {q : List String}

namespace Machine

/-- The next quad has the given operator. -/
def Does (m : Machine) (word : String) : Prop := ∃ q, m.quad? = some q ∧ q.headD "" = word

/-- `m` is reached after the `ERA` of `m₀` and before the `GoSub` that answers it;
the latest `ERA` on the way was that of `l`.  The call is still in preparation as
long as more calls are in preparation than at `m₀`, and the function that prepares
it has not been left as long as no fewer calls are open. -/
inductive Preparing (m₀ : Machine) : Machine → Machine → Prop where
  | era {m : Machine} (hq : m₀.Does "ERA") (h : m₀.Next m) : Preparing m₀ m₀ m
  | again {l m m' : Machine} (h : Preparing m₀ l m) (hq : m.Does "ERA") (hn : m.Next m')
      (hc : m₀.calls.length ≤ m'.calls.length)
      (ha : m₀.arguments.length < m'.arguments.length) : Preparing m₀ m m'
  | next {l m m' : Machine} (h : Preparing m₀ l m) (hq : ¬ m.Does "ERA") (hn : m.Next m')
      (hc : m₀.calls.length ≤ m'.calls.length)
      (ha : m₀.arguments.length < m'.arguments.length) : Preparing m₀ l m'

/-! ### The stacks of a step -/

theorem prepare_eq_ok {m m₁ : Machine} {f : String} (h : m.prepare f = .ok m₁) :
    ∃ ls ts, m.eras.get? f = some (ls, ts) ∧ m₁ = { m with
      frames := (m.frames.push (.empty ls.sum)).push (.empty ts.sum)
      nextLocals := m.frames.size
      nextTemps := m.frames.size + 1
      localOffsets := offsetsOf ls :: m.localOffsets
      tempOffsets := offsetsOf ts :: m.tempOffsets
      arguments := [] :: m.arguments } := by
  rw [prepare] at h
  split at h
  · cases h
  · next ls ts hf =>
    cases h
    exact ⟨ls, ts, hf, rfl⟩

theorem leave_eq_ok {m m₁ : Machine} (h : m.leave = (m₁, .ok place)) :
    ∃ l t lo po c, m.locals = l :: m₁.locals ∧ m.temps = t :: m₁.temps ∧
      m.localOffsets = lo :: m₁.localOffsets ∧ m.tempOffsets = po :: m₁.tempOffsets ∧
      m.calls = c :: m₁.calls ∧ m₁ = { m with
        locals := m₁.locals, temps := m₁.temps, localOffsets := m₁.localOffsets,
        tempOffsets := m₁.tempOffsets, calls := m₁.calls } := by
  rcases hl : m.locals with _ | ⟨l, ls⟩
  · simp [leave, hl] at h
  rcases ht : m.temps with _ | ⟨t, ts⟩
  · simp [leave, hl, ht] at h
  rcases hlo : m.localOffsets with _ | ⟨lo, los⟩
  · simp [leave, hl, ht, hlo] at h
  rcases hto : m.tempOffsets with _ | ⟨po, tos⟩
  · simp [leave, hl, ht, hlo, hto] at h
  rcases hc : m.calls with _ | ⟨c, cs⟩
  · simp [leave, hl, ht, hlo, hto, hc] at h
  simp only [leave, hl, ht, hlo, hto, hc, Prod.mk.injEq] at h
  obtain ⟨rfl, -⟩ := h
  exact ⟨l, t, lo, po, c, rfl, rfl, rfl, rfl, rfl, rfl⟩

theorem era_eq_ok {m m' : Machine} (hq : m.Does "ERA") (hn : m.Next m') :
    ∃ q f m₁, m.quad? = some q ∧ q[3]? = some f ∧ m.prepare f = .ok m₁ ∧ SameCalls m₁ m' := by
  obtain ⟨q, hq, hw⟩ := hq
  obtain ⟨q', hq', hstep⟩ := step_calls hn
  rw [hq] at hq'
  cases hq'
  cases hstep with
  | prepare f m₁ _ hf hp hs => exact ⟨q, f, m₁, hq, hf, hp, hs⟩
  | plain hplain _ => rw [hw] at hplain; exact absurd (by decide) hplain
  | enter _ hother | leave _ _ _ hother => rw [hw] at hother; exact absurd hother (by decide)

theorem goSub_eq_ok {m m' : Machine} (hq : m.Does "GoSub") (hn : m.Next m') :
    ∃ m₁, ((m.arguments.headD []).forM Exec.bindArgument).run m.entered = (.ok (), m₁) ∧
      m'.frames = m₁.frames ∧ SameCalls m.entered m' := by
  obtain ⟨q, hq, hw⟩ := hq
  obtain ⟨q', hq', hstep⟩ := step_calls hn
  rw [hq] at hq'
  cases hq'
  cases hstep with
  | enter m₁ _ _ h₁ hframes hs =>
    have hk := Exec.sameCalls_of_keeps (keeps_forM Exec.keeps_bindArgument _) h₁
    exact ⟨m₁, h₁, hframes, IsTrans.trans _ _ _ hk hs⟩
  | plain hplain _ => rw [hw] at hplain; exact absurd (by decide) hplain
  | prepare _ _ hother | leave _ _ _ hother => rw [hw] at hother; exact absurd hother (by decide)

/-! ### What stays below a call in preparation -/

/-- `m` stands above `m₀`: the stacks of `m₀` are still there, below the offsets `o`
and `p` of the call that `m₀` prepared. -/
structure Above (m₀ : Machine) (o p : List Int) (m : Machine) : Prop where
  globalBounds : m.globalBounds = m₀.globalBounds
  localBounds : m.localBounds = m₀.localBounds
  tempBounds : m.tempBounds = m₀.tempBounds
  constantBounds : m.constantBounds = m₀.constantBounds
  locals : ∃ ls, m.locals = ls ++ m₀.locals ∧ m.calls.length = ls.length + m₀.calls.length
  temps : ∃ ts, m.temps = ts ++ m₀.temps ∧ m.calls.length = ts.length + m₀.calls.length
  localOffsets : ∃ os, m.localOffsets = os ++ o :: m₀.localOffsets ∧
    os.length + 1 + (m₀.calls.length + m₀.arguments.length) = m.calls.length + m.arguments.length
  tempOffsets : ∃ os, m.tempOffsets = os ++ p :: m₀.tempOffsets ∧
    os.length + 1 + (m₀.calls.length + m₀.arguments.length) = m.calls.length + m.arguments.length

variable {m₀ m m' : Machine} {o p : List Int}

theorem Above.congr (h : Above m₀ o p m) (hs : SameCalls m m') : Above m₀ o p m' where
  globalBounds := hs.globalBounds.trans h.globalBounds
  localBounds := hs.localBounds.trans h.localBounds
  tempBounds := hs.tempBounds.trans h.tempBounds
  constantBounds := hs.constantBounds.trans h.constantBounds
  locals := by rw [hs.locals, hs.calls]; exact h.locals
  temps := by rw [hs.temps, hs.calls]; exact h.temps
  localOffsets := by rw [hs.localOffsets, hs.calls, hs.pending]; exact h.localOffsets
  tempOffsets := by rw [hs.tempOffsets, hs.calls, hs.pending]; exact h.tempOffsets

theorem Above.prepare {f : String} (h : Above m₀ o p m) (hp : m.prepare f = .ok m') :
    Above m₀ o p m' := by
  obtain ⟨ls, ts, -, rfl⟩ := prepare_eq_ok hp
  obtain ⟨os, hos, hlen⟩ := h.localOffsets
  obtain ⟨ps, hps, hlen'⟩ := h.tempOffsets
  exact { h with
    localOffsets := ⟨offsetsOf ls :: os, by simp [hos], by simp; omega⟩
    tempOffsets := ⟨offsetsOf ts :: ps, by simp [hps], by simp; omega⟩ }

theorem Above.entered (h : Above m₀ o p m) (ha : m.arguments ≠ []) : Above m₀ o p m.entered := by
  obtain ⟨ls, hls, hl⟩ := h.locals
  obtain ⟨ts, hts, ht⟩ := h.temps
  obtain ⟨os, hos, hlen⟩ := h.localOffsets
  obtain ⟨ps, hps, hlen'⟩ := h.tempOffsets
  have hpos : 0 < m.arguments.length := List.length_pos_iff.mpr ha
  exact { h with
    locals := ⟨m.nextLocals :: ls, by simp [Machine.entered, enter, hls], by
      simp [Machine.entered, enter]; omega⟩
    temps := ⟨m.nextTemps :: ts, by simp [Machine.entered, enter, hts], by
      simp [Machine.entered, enter]; omega⟩
    localOffsets := ⟨os, hos, by simp [Machine.entered, enter]; omega⟩
    tempOffsets := ⟨ps, hps, by simp [Machine.entered, enter]; omega⟩ }

theorem Above.leave (h : Above m₀ o p m) (hl : m.leave = (m', .ok place))
    (hc : m₀.calls.length ≤ m'.calls.length) (ha : m₀.arguments.length < m'.arguments.length) :
    Above m₀ o p m' := by
  obtain ⟨l, t, lo, po, c, hl, ht, hlo, hto, hcalls, heq⟩ := leave_eq_ok hl
  have hargs : m'.arguments = m.arguments := by rw [heq]
  have hlen : m.calls.length = m'.calls.length + 1 := by rw [hcalls]; rfl
  obtain ⟨ls, hls, hlsl⟩ := h.locals
  obtain ⟨ts, hts, htsl⟩ := h.temps
  obtain ⟨os, hos, hosl⟩ := h.localOffsets
  obtain ⟨ps, hps, hpsl⟩ := h.tempOffsets
  rw [← hargs] at hosl hpsl
  -- The frame and the offsets that are dropped stand above those of `m₀`.
  obtain ⟨_, ls, rfl⟩ := List.exists_cons_of_length_pos (show 0 < ls.length by omega)
  obtain ⟨_, ts, rfl⟩ := List.exists_cons_of_length_pos (show 0 < ts.length by omega)
  obtain ⟨_, os, rfl⟩ := List.exists_cons_of_length_pos (show 0 < os.length by omega)
  obtain ⟨_, ps, rfl⟩ := List.exists_cons_of_length_pos (show 0 < ps.length by omega)
  simp only [List.length_cons] at hlsl htsl hosl hpsl
  rw [hls, List.cons_append, List.cons.injEq] at hl
  rw [hts, List.cons_append, List.cons.injEq] at ht
  rw [hos, List.cons_append, List.cons.injEq] at hlo
  rw [hps, List.cons_append, List.cons.injEq] at hto
  exact {
    globalBounds := by rw [heq]; exact h.globalBounds
    localBounds := by rw [heq]; exact h.localBounds
    tempBounds := by rw [heq]; exact h.tempBounds
    constantBounds := by rw [heq]; exact h.constantBounds
    locals := ⟨ls, hl.2.symm, by omega⟩
    temps := ⟨ts, ht.2.symm, by omega⟩
    localOffsets := ⟨os, hlo.2.symm, by omega⟩
    tempOffsets := ⟨ps, hto.2.symm, by omega⟩ }

/-- As long as the call stays in preparation, a step keeps what is below it. -/
theorem Above.step (h : Above m₀ o p m) (hn : m.Next m')
    (hc : m₀.calls.length ≤ m'.calls.length) (ha : m₀.arguments.length < m'.arguments.length) :
    Above m₀ o p m' := by
  obtain ⟨q, -, hstep⟩ := step_calls hn
  cases hstep with
  | plain _ hs => exact h.congr hs
  | prepare f m₁ _ _ hp hs => exact (h.prepare hp).congr hs
  | enter m₁ _ hargs h₁ _ hs =>
    have hk := Exec.sameCalls_of_keeps (keeps_forM Exec.keeps_bindArgument _) h₁
    exact ((h.entered hargs).congr hk).congr hs
  | leave m₁ m₂ place _ h₁ h₂ hs =>
    refine ((h.congr h₁).leave h₂ ?_ ?_).congr hs
    · rwa [hs.calls] at hc
    · rwa [hs.pending] at ha

theorem above_of_era (hq : m₀.Does "ERA") (hn : m₀.Next m) :
    ∃ q f ls ts, m₀.quad? = some q ∧ q[3]? = some f ∧ m₀.eras.get? f = some (ls, ts) ∧
      Above m₀ (offsetsOf ls) (offsetsOf ts) m := by
  obtain ⟨q, f, m₁, hquad, hf, hp, hs⟩ := era_eq_ok hq hn
  obtain ⟨ls, ts, he, rfl⟩ := prepare_eq_ok hp
  refine ⟨q, f, ls, ts, hquad, hf, he, Above.congr ?_ hs⟩
  exact {
    globalBounds := rfl
    localBounds := rfl
    tempBounds := rfl
    constantBounds := rfl
    locals := ⟨[], rfl, by simp⟩
    temps := ⟨[], rfl, by simp⟩
    localOffsets := ⟨[], rfl, by simp; omega⟩
    tempOffsets := ⟨[], rfl, by simp; omega⟩ }

/-- While a call is prepared, the stacks of the caller stay as they were, below the
offsets of the callee. -/
theorem above_of_preparing {l : Machine} (h : Preparing m₀ l m) :
    ∃ q f ls ts, m₀.quad? = some q ∧ q[3]? = some f ∧ m₀.eras.get? f = some (ls, ts) ∧
      Above m₀ (offsetsOf ls) (offsetsOf ts) m := by
  induction h with
  | era hq hn => exact above_of_era hq hn
  | again _ _ hn hc ha ih | next _ _ hn hc ha ih =>
    obtain ⟨q, f, ls, ts, hq, hf, he, hm⟩ := ih
    exact ⟨q, f, ls, ts, hq, hf, he, hm.step hn hc ha⟩

/-! ### What addresses mean while a call is prepared -/

/-- The frame that an address of a segment with frames leads to, and its place there. -/
def resolveIn (stack : List Nat) (offsets : List (List Int)) (bounds : Bounds) (address : Int) :
    Except MachineFault (Nat × Int) := do
  let i ← frameIndex stack offsets bounds address
  return (← innermost stack, i)

/-- The frame that a local or temporary address leads to, and its place there. -/
def resolve (m : Machine) (address : Int) : Except MachineFault (Nat × Int) :=
  if address < m.localBounds.stop then
    resolveIn m.locals m.localOffsets m.localBounds address
  else resolveIn m.temps m.tempOffsets m.tempBounds address

/-- Where the cells of a type begin, by the offsets on top. -/
def offset? (offsets : List (List Int)) (t : Scalar) : Option Int :=
  offsets.head?.bind fun os => os[t.index]?

/-- A local or temporary address is read and stored where it resolves to. -/
theorem cellAt_placeOf_eq_resolve (hm : m.Standard) (h0 : 9000 ≤ a) (h1 : a < 31000) :
    (m.placeOf a).bind m.cellAt = (m.resolve a).bind fun p => (m.frame p.1).get p.2 := by
  have hstop : m.localBounds.stop = 20000 := by rw [hm.localBounds]; rfl
  rw [resolve, hstop]
  by_cases hl : a < 20000
  · rw [placeOf_local hm h0 hl, if_pos hl, hm.localBounds, resolveIn]
    cases frameIndex m.locals m.localOffsets local.bounds a with
    | error e => rfl
    | ok i =>
      show (innermost m.locals).bind (fun n => (m.frame n).get i)
        = ((innermost m.locals).bind fun n => .ok (n, i)).bind fun p => (m.frame p.1).get p.2
      cases innermost m.locals <;> rfl
  · rw [placeOf_temp hm (by omega) h1, if_neg hl, hm.tempBounds, resolveIn]
    cases frameIndex m.temps m.tempOffsets temp.bounds a with
    | error e => rfl
    | ok i =>
      show (innermost m.temps).bind (fun n => (m.frame n).get i)
        = ((innermost m.temps).bind fun n => .ok (n, i)).bind fun p => (m.frame p.1).get p.2
      cases innermost m.temps <;> rfl

theorem resolveIn_eq_iff (s : Segment) (t : Scalar) (stack : List Nat) (os os' : List (List Int))
    (h0 : s.start t ≤ a) (h1 : a < s.stop t) :
    resolveIn stack os s.bounds a = resolveIn stack os' s.bounds a ↔
      stack.length ≤ 1 ∨ offset? os t = offset? os' t := by
  -- Outside of the main program the place depends on the offset of the type.
  have hframe : ∀ os, stack.length ≠ 1 → frameIndex stack os s.bounds a =
      (offset? os t).elim (.error .badIndex) fun o => .ok (a - s.start t + o) := by
    intro os hl
    unfold frameIndex
    rw [if_neg (by simpa using hl)]
    cases os with
    | nil => rfl
    | cons o os =>
      show localIndex a s.bounds o = _
      rw [localIndex_of_mem s t o h0 h1, offset?, List.head?_cons, Option.bind_some]
      cases o[t.index]? <;> rfl
  rcases stack with _ | ⟨n, _ | ⟨n', rest⟩⟩
  · have hfail : ∀ os, resolveIn [] os s.bounds a = .error .badIndex := by
      intro os
      rw [resolveIn, hframe os (by simp)]
      cases offset? os t <;> rfl
    simp [hfail]
  · simp [resolveIn, frameIndex]
  · have hok : ∀ os, resolveIn (n :: n' :: rest) os s.bounds a =
        (offset? os t).elim (.error .badIndex) fun o => .ok (n, a - s.start t + o) := by
      intro os
      rw [resolveIn, hframe os (by simp)]
      cases offset? os t <;> rfl
    rw [hok, hok]
    cases offset? os t <;> cases offset? os' t <;> simp

end Machine

/-! ### The arguments of a call -/

namespace Exec

theorem addArgument_eq_ok {a : Exec Argument} {m m' : Machine} (ha : ∀ m, (a.run m).2 = m)
    (h : (addArgument a).run m = (.ok (), m')) :
    ∃ x, a.run m = (.ok x, m) ∧ m' = { m with arguments := m.arguments.modifyHead (· ++ [x]) } := by
  obtain ⟨_, m₁, hg, h₁⟩ := bind_eq_ok h
  cases hg
  split at h₁
  · cases h₁
  · next mine rest hm =>
    obtain ⟨x, m₂, hx, h₂⟩ := bind_eq_ok h₁
    have hm₂ : m₂ = m := by simpa [hx] using ha m
    subst hm₂
    cases h₂
    exact ⟨x, hx, by rw [hm]; rfl⟩

/-- Every `PARAM` quad queues the values of its operand, behind those that wait
already. -/
theorem passArgument_eq_ok {m m' : Machine} (h : (passArgument place q).run m = (.ok (), m')) :
    ∃ xs, m'.arguments = m.arguments.modifyHead (· ++ xs) ∧
      ∀ (i : Nat) (x : Argument), xs[i]? = some x →
        ∃ operand, q[1]? = some operand ∧ m.value (.text operand) i = .ok x.value := by
  obtain ⟨n, m₁, hn, h₁⟩ := bind_eq_ok h
  obtain ⟨-, rfl⟩ := ofExcept_eq_ok hn
  -- A loop over the cells `is` queues one argument for each of them.
  suffices hloop : ∃ xs, m' = { m₁ with
        arguments := m₁.arguments.modifyHead (· ++ xs), printed := m'.printed } ∧
      ∀ (j : Nat) (x : Argument), xs[j]? = some x → ∃ i operand, (List.range n.toNat)[j]? = some i ∧
        q[1]? = some operand ∧ m₁.value (.text operand) i = .ok x.value by
    obtain ⟨xs, hm', hxs⟩ := hloop
    refine ⟨xs, by rw [hm'], fun j x hx => ?_⟩
    obtain ⟨i, operand, hi, hq, hv⟩ := hxs j x hx
    obtain ⟨hlt, hi⟩ := List.getElem?_eq_some_iff.mp hi
    rw [List.getElem_range] at hi
    subst hi
    exact ⟨operand, hq, hv⟩
  refine forM_eq_ok (R := fun is m m' => ∃ xs, m' = { m with
        arguments := m.arguments.modifyHead (· ++ xs), printed := m'.printed } ∧
      ∀ (j : Nat) (x : Argument), xs[j]? = some x → ∃ i operand, is[j]? = some i ∧
        q[1]? = some operand ∧ m.value (.text operand) (i : Nat) = .ok x.value) ?_ ?_ _ h₁
  · intro m
    refine ⟨[], ?_, by simp⟩
    cases m with | mk => simp [List.modifyHead]; split <;> rfl
  · rintro i is m m₁ m' hi ⟨xs, hm', hxs⟩
    obtain ⟨operand, m₂, hf, h₂⟩ := bind_eq_ok hi
    obtain ⟨hq, rfl⟩ := field_eq_ok hf
    obtain ⟨v, m₃, hv, h₃⟩ := bind_eq_ok h₂
    obtain ⟨hv, rfl⟩ := ofExcept_eq_ok hv
    obtain ⟨_, m₄, ha, h₄⟩ := bind_eq_ok h₃
    obtain ⟨x, hx, rfl⟩ := addArgument_eq_ok (run_argument q v i) ha
    obtain ⟨address, m₅, hf, h₅⟩ := bind_eq_ok hx
    obtain ⟨-, rfl⟩ := field_eq_ok hf
    cases h₅
    obtain ⟨_, m₆, hf, h₆⟩ := bind_eq_ok h₄
    obtain ⟨-, rfl⟩ := field_eq_ok hf
    have hm₁ := say_eq_ok h₆
    refine ⟨⟨v, address, i⟩ :: xs, ?_, ?_⟩
    · rw [hm', hm₁]
      cases m₅.arguments <;> simp [List.modifyHead]
    · intro j x hx
      cases j with
      | zero =>
        cases hx
        exact ⟨i, operand, rfl, hq, hv⟩
      | succ j =>
        obtain ⟨i', operand', hi', hq', hv'⟩ := hxs j x hx
        rw [Machine.value_congr (m := m₅) (by rw [hm₁]; exact fun _ _ => rfl)] at hv'
        exact ⟨i', operand', hi', hq', hv'⟩

theorem perform_param {m m' : Machine} {flow : Flow} (hw : q.headD "" = "PARAM")
    (h : (perform place q).run m = (.ok flow, m')) :
    (passArgument place q).run m = (.ok (), m') := by
  rw [perform, hw] at h
  obtain ⟨_, m₁, h₁, h₂⟩ := bind_eq_ok h
  cases h₂
  exact h₁

end Exec

namespace Machine

variable {m₀ l m : Machine}

/-- A `PARAM` quad whose operand is a local or temporary address queues what is in the
cells that the address resolves to. -/
theorem queued_of_param {m' : Machine} (hm : m.Standard) (hq : m.quad? = some q)
    (hw : q.headD "" = "PARAM") (ha : q[1]? = some (toString a)) (h9 : 9000 ≤ a) (hn : m.Next m') :
    ∃ xs, m'.arguments = m.arguments.modifyHead (· ++ xs) ∧
      ∀ (i : Nat) (x : Argument), xs[i]? = some x → a + i < 31000 →
        ∃ p c, m.resolve (a + i) = .ok p ∧ (m.frame p.1).get p.2 = .ok (some c) ∧
          c.read = .ok x.value := by
  obtain ⟨q', flow, m₁, hq', hp, hgo⟩ := next_eq_ok hn
  rw [hq] at hq'
  cases hq'
  obtain ⟨xs, hargs, hxs⟩ := Exec.passArgument_eq_ok (Exec.perform_param hw hp)
  refine ⟨xs, ?_, ?_⟩
  · rw [← hargs]
    cases flow with
    | stop => cases hgo
    | after _ => cases hgo; rfl
    | keep _ => cases hgo; rfl
    | jump _ => cases hgo; rfl
  · intro i x hx h31
    obtain ⟨operand, ho, hv⟩ := hxs i x hx
    rw [ha] at ho
    cases ho
    obtain ⟨c, hc, hr⟩ := value_eq_ok (by omega) hv
    rw [cellAt_placeOf_eq_resolve hm (by omega) h31] at hc
    rcases hp : m.resolve (a + i) with e | p
    · rw [hp] at hc; cases hc
    rw [hp] at hc
    exact ⟨p, c, rfl, hc, hr⟩

theorem Above.standard {o p : List Int} (h : Above m₀ o p m) (hm : m₀.Standard) : m.Standard where
  globalBounds := h.globalBounds.trans hm.globalBounds
  localBounds := h.localBounds.trans hm.localBounds
  tempBounds := h.tempBounds.trans hm.tempBounds
  constantBounds := h.constantBounds.trans hm.constantBounds

/-- With no more calls open than at the `ERA`, the frames on top are those of the
caller. -/
theorem Above.frames_eq {o p : List Int} (h : Above m₀ o p m)
    (hc : m.calls.length = m₀.calls.length) : m.locals = m₀.locals ∧ m.temps = m₀.temps := by
  obtain ⟨ls, hls, hl⟩ := h.locals
  obtain ⟨ts, hts, ht⟩ := h.temps
  obtain rfl : ls = [] := List.length_eq_zero_iff.mp (by omega)
  obtain rfl : ts = [] := List.length_eq_zero_iff.mp (by omega)
  exact ⟨hls, hts⟩

/-- While a call is prepared and its caller is at work, the frames on top are those of
the caller, and an address leads to the cell that it led to before the `ERA` exactly
when the main program is the caller, or the offsets on top begin its type where those
of the caller do.  The offsets on top are those of the callee, unless a call in an
argument is prepared at the time.  A `PARAM` quad queues what the caller has in a cell
when the address leads to that cell still. -/
theorem resolve_eq_iff_of_preparing (hm : m₀.Standard) (h : Preparing m₀ l m)
    (hc : m.calls.length = m₀.calls.length) :
    m.locals = m₀.locals ∧ m.temps = m₀.temps ∧
    (∀ t a, Segment.local.start t ≤ a → a < Segment.local.stop t →
      (m.resolve a = m₀.resolve a ↔
        m₀.locals.length ≤ 1 ∨ offset? m.localOffsets t = offset? m₀.localOffsets t)) ∧
    (∀ t a, Segment.temp.start t ≤ a → a < Segment.temp.stop t →
      (m.resolve a = m₀.resolve a ↔
        m₀.temps.length ≤ 1 ∨ offset? m.tempOffsets t = offset? m₀.tempOffsets t)) ∧
    (m.arguments.length = m₀.arguments.length + 1 →
      ∃ q f ls ts, m₀.quad? = some q ∧ q[3]? = some f ∧ m₀.eras.get? f = some (ls, ts) ∧
        m.localOffsets = offsetsOf ls :: m₀.localOffsets ∧
        m.tempOffsets = offsetsOf ts :: m₀.tempOffsets) ∧
    (∀ q (a : Int) m', m.quad? = some q → q.headD "" = "PARAM" → q[1]? = some (toString a) →
      9000 ≤ a → m.Next m' → ∃ xs, m'.arguments = m.arguments.modifyHead (· ++ xs) ∧
        ∀ (i : Nat) (x : Argument), xs[i]? = some x → a + i < 31000 →
          m.resolve (a + i) = m₀.resolve (a + i) →
          ∃ p c, m₀.resolve (a + i) = .ok p ∧ (m.frame p.1).get p.2 = .ok (some c) ∧
            c.read = .ok x.value) := by
  obtain ⟨q, f, ls, ts, hq, hf, he, habove⟩ := above_of_preparing h
  obtain ⟨hlocals, htemps⟩ := habove.frames_eq hc
  have hms := habove.standard hm
  have hstop : Bounds.stop Segment.local.bounds = 20000 := rfl
  refine ⟨hlocals, htemps, ?_, ?_, ?_, ?_⟩
  · intro t a h0 h1
    have hl : a < 20000 := by
      cases t <;> simp [Segment.stop, Segment.bounds, Scalar.index] at h1 <;> omega
    rw [resolve, resolve, hms.localBounds, hm.localBounds, hstop, if_pos hl, if_pos hl, hlocals]
    exact resolveIn_eq_iff .local t _ _ _ h0 h1
  · intro t a h0 h1
    have hl : ¬ a < 20000 := by
      cases t <;> simp [Segment.start, Segment.bounds, Scalar.index] at h0 <;> omega
    rw [resolve, resolve, hms.localBounds, hm.localBounds, hstop, if_neg hl, if_neg hl, htemps,
      hms.tempBounds, hm.tempBounds]
    exact resolveIn_eq_iff .temp t _ _ _ h0 h1
  · intro ha
    obtain ⟨os, hos, hol⟩ := habove.localOffsets
    obtain ⟨ps, hps, hpl⟩ := habove.tempOffsets
    obtain rfl : os = [] := List.length_eq_zero_iff.mp (by omega)
    obtain rfl : ps = [] := List.length_eq_zero_iff.mp (by omega)
    exact ⟨q, f, ls, ts, hq, hf, he, hos, hps⟩
  · intro q' a m' hq' hw ha h9 hn
    obtain ⟨xs, hargs, hxs⟩ := queued_of_param hms hq' hw ha h9 hn
    refine ⟨xs, hargs, fun i x hx h31 hr => ?_⟩
    obtain ⟨p, c, hp, hc, hv⟩ := hxs i x hx h31
    exact ⟨p, c, hr ▸ hp, hc, hv⟩

/-- A function with an integer and a truth value, about to call one that has a truth
value only. -/
def inCaller : Machine :=
  { blank with
    frames := #[#[], #[], #[some ⟨.int 5, .of .int⟩, some ⟨.truth true, .of .bool⟩], #[]]
    locals := [2, 0]
    temps := [3, 1]
    localOffsets := [[0, 1, 1, 1], [0, 0, 0, 0]]
    tempOffsets := [[0, 0, 0, 0], [0, 0, 0, 0]]
    eras := [("g", ([0, 0, 0, 1], [0, 0, 0, 0]))]
    quads := #[["ERA", "None", "None", "g"], ["PARAM", "18500", "18500", "0"]]
    calls := [9] }

/-- The argument is then looked up in the cell of the integer. -/
theorem resolve_ne_of_inCaller : ∃ m, Preparing inCaller inCaller m ∧
    m.resolve 18500 ≠ inCaller.resolve 18500 := by
  have hp : Preparing inCaller inCaller (Exec.step.run inCaller).2 := .era ⟨_, rfl, rfl⟩ rfl
  refine ⟨_, hp, fun h => ?_⟩
  have hoff := ((resolve_eq_iff_of_preparing ⟨rfl, rfl, rfl, rfl⟩ hp rfl).2.2.1 .bool 18500
    (by decide) (by decide)).mp h
  revert hoff
  decide

end Machine

end QuadLang
