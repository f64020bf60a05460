/-
What the steps take from the stacks and put on them.

* `Profile.on` — a profile on top of another;
* `Profile.Over.split`, `Profile.Over.join` — a state with such stacks is one over one, and the part above
  can be exchanged;
* `Exchange` — what is on the stacks before, and what is there instead after;
* `Step.exchanges` — the exchanges of every step of the grammar, and `Compile.sure_perform`.

Design notes: some steps have more than one exchange.  Which one it is depends on what is there: an operation
takes place only if its operator is on top, and the second index of an array is added to the first.
-/
import QuadLang.Proofs.Profiles

namespace QuadLang

variable {e : Exchange} {step : Step}

theorem exists_append_of_length {α : Type} {xs : List α} {m n : Nat} (h : xs.length = m + n) :
    ∃ ys zs, xs = ys ++ zs ∧ ys.length = m ∧ zs.length = n :=
  ⟨xs.take m, xs.drop m, (List.take_append_drop m xs).symm, by rw [List.length_take]; omega,
    by rw [List.length_drop]; omega⟩

theorem exists_append_of_forall₂ {α β : Type} {R : α → β → Prop} {as bs : List α} {xs : List β}
    (h : List.Forall₂ R (as ++ bs) xs) : ∃ ys zs, xs = ys ++ zs ∧ List.Forall₂ R as ys ∧ List.Forall₂ R bs zs := by
  induction as generalizing xs with
  | nil => exact ⟨[], xs, rfl, .nil, h⟩
  | cons a as ih =>
    obtain ⟨x, xs, hx, hxs, rfl⟩ := List.forall₂_cons_left_iff.1 h
    obtain ⟨ys, zs, rfl, hys, hzs⟩ := ih hxs
    exact ⟨x :: ys, zs, rfl, .cons hx hys, hzs⟩

namespace Profile

def on (σ rest : Profile) : Profile where
  operands := σ.operands + rest.operands
  operators := σ.operators ++ rest.operators
  jumps := σ.jumps ++ rest.jumps
  breaks := σ.breaks + rest.breaks
  calls := σ.calls + rest.calls
  accesses := σ.accesses ++ rest.accesses
  floor := rest.floor
  whole := rest.whole
  still := rest.still && σ.still

/-- The profile below can have the other on top: the operator on top of it is not of too high a level, and
there is nothing if nothing may be below. -/
def Bears (rest σ : Profile) : Prop :=
  (match rest.operators with
    | [] => rest.floor
    | l :: _ => l) ≤ σ.floor ∧
  (σ.whole = true → rest.whole = true ∧ rest.operands = 0 ∧ rest.operators = [] ∧ rest.jumps = [] ∧
    rest.breaks = 0 ∧ rest.calls = 0 ∧ rest.accesses = [])

instance (rest σ : Profile) : Decidable (rest.Bears σ) := inferInstanceAs (Decidable (_ ∧ _))

variable {σ rest : Profile} {F F' c c' : Compiler}

/-- The stacks can be cut between the two. -/
theorem Over.split (h : (σ.on rest).Over F c) (hbears : rest.Bears σ) (hs : σ.still = true) :
    ∃ F', σ.Over F' c ∧ rest.Over F F' := by
  obtain ⟨operands, hoperands, hn⟩ := h.operands
  obtain ⟨operands, operands', rfl, hn, hn'⟩ := exists_append_of_length hn
  obtain ⟨operators, hoperators, hls⟩ := h.operators
  obtain ⟨operators, operators', rfl, hls, hls'⟩ := List.map_eq_append_iff.1 hls
  obtain ⟨jumps, hjumps, hjs⟩ := h.jumps
  obtain ⟨jumps, jumps', rfl, hjs, hjs'⟩ := exists_append_of_forall₂ hjs
  obtain ⟨breaks, below, hbreaks, hb, hgrown, hstill⟩ := h.breaks
  obtain ⟨breaks, breaks', rfl, hb, hb'⟩ := exists_append_of_length hb
  obtain ⟨calls, hcalls, hk⟩ := h.calls
  obtain ⟨calls, calls', rfl, hk, hk'⟩ := exists_append_of_length hk
  obtain ⟨accesses, haccesses, has⟩ := h.accesses
  obtain ⟨accesses, accesses', rfl, has, has'⟩ := exists_append_of_forall₂ has
  rw [List.append_assoc] at hoperands hoperators hjumps hbreaks hcalls haccesses
  have hon : (σ.on rest).still = rest.still := by rw [on, hs, Bool.and_true]
  -- the stacks of the frame in between are what stays when the upper part is taken away
  refine ⟨{ c with
    operands := operands' ++ F.operands
    operators := operators' ++ F.operators
    jumps := jumps' ++ F.jumps
    breaks := breaks' ++ below
    calls := calls' ++ F.calls
    accesses := accesses' ++ F.accesses }, {
      operands := ⟨operands, hoperands, hn⟩
      operators := ⟨operators, hoperators, hls⟩
      jumps := ⟨jumps, hjumps, hjs⟩
      breaks := ⟨breaks, _, hbreaks, hb, .refl _, fun _ => rfl⟩
      calls := ⟨calls, hcalls, hk⟩
      accesses := ⟨accesses, haccesses, has⟩
      floor := ?_
      whole := ?_
      still := fun _ => ⟨rfl, rfl, rfl⟩
      size := Nat.le_refl _
      flat := h.flat
      broken := h.broken }, {
      operands := ⟨operands', rfl, hn'⟩
      operators := ⟨operators', rfl, hls'⟩
      jumps := ⟨jumps', rfl, hjs'⟩
      breaks := ⟨breaks', below, rfl, hb', hgrown, fun hs' => hstill (hon.trans hs')⟩
      calls := ⟨calls', rfl, hk'⟩
      accesses := ⟨accesses', rfl, has'⟩
      floor := h.floor
      whole := h.whole
      still := fun hs' => h.still (hon.trans hs')
      size := h.size
      flat := h.flat
      broken := fun bs hbs => h.broken bs (hbreaks ▸ List.mem_append_right breaks hbs) }⟩
  · intro w hw
    have hfloor := hbears.1
    rw [← hls'] at hfloor
    rcases operators' with _ | ⟨op, operators'⟩
    · exact Nat.le_trans (h.floor w hw) hfloor
    · cases hw
      exact hfloor
  · intro hw
    obtain ⟨hwhole, h₁, h₂, h₃, h₄, h₅, h₆⟩ := hbears.2 hw
    obtain ⟨hF₁, hF₂, hF₃, hF₄, hF₅, hF₆⟩ := h.whole hwhole
    rw [h₁] at hn'
    rw [h₂] at hls'
    rw [h₃] at hjs'
    rw [h₄] at hb'
    rw [h₅] at hk'
    rw [h₆] at has'
    rw [hF₄] at hgrown
    rw [List.length_eq_zero_iff] at hn' hb' hk'
    rw [List.map_eq_nil_iff] at hls'
    rw [List.forall₂_nil_left_iff] at hjs' has'
    subst hn' hb' hk' hls' hjs' has'
    exact ⟨hF₁, hF₂, hF₃, hgrown.eq_nil, hF₅, hF₆⟩

/-- What is put on the stacks instead. -/
theorem Over.join (h : σ.Over F' c) (hrest : rest.Over F F') (ha : σ.still = false → rest.accesses = []) :
    (σ.on rest).Over F c := by
  obtain ⟨operands, hoperands, hn⟩ := h.operands
  obtain ⟨operators, hoperators, hls⟩ := h.operators
  obtain ⟨jumps, hjumps, hjs⟩ := h.jumps
  obtain ⟨breaks, below, hbreaks, hb, hgrown, hstill⟩ := h.breaks
  obtain ⟨calls, hcalls, hk⟩ := h.calls
  obtain ⟨accesses, haccesses, has⟩ := h.accesses
  obtain ⟨operands', hoperands', hn'⟩ := hrest.operands
  obtain ⟨operators', hoperators', hls'⟩ := hrest.operators
  obtain ⟨jumps', hjumps', hjs'⟩ := hrest.jumps
  obtain ⟨breaks', below', hbreaks', hb', hgrown', hstill'⟩ := hrest.breaks
  obtain ⟨calls', hcalls', hk'⟩ := hrest.calls
  obtain ⟨accesses', haccesses', has'⟩ := hrest.accesses
  have hson : (σ.on rest).still = true → rest.still = true ∧ σ.still = true := by
    simp only [on, Bool.and_eq_true, imp_self]
  refine {
    operands := ⟨operands ++ operands', ?_, ?_⟩
    operators := ⟨operators ++ operators', ?_, ?_⟩
    jumps := ⟨jumps ++ jumps', ?_, ?_⟩
    breaks := ?_
    calls := ⟨calls ++ calls', ?_, ?_⟩
    accesses := ⟨accesses ++ accesses', ?_, ?_⟩
    floor := hrest.floor
    whole := hrest.whole
    still := fun hs => (hrest.still (hson hs).1).trans (h.still (hson hs).2)
    size := Nat.le_trans hrest.size h.size
    flat := h.flat
    broken := h.broken }
  · rw [hoperands, hoperands', List.append_assoc]
  · rw [List.length_append, hn, hn']
    rfl
  · rw [hoperators, hoperators', List.append_assoc]
  · rw [List.map_append, hls, hls']
    rfl
  · rw [hjumps, hjumps', List.append_assoc]
  · exact List.rel_append hjs (hjs'.imp fun _ _ hj => hj.mono h.size)
  · -- the breaks of the frame in between may have grown
    rw [hbreaks'] at hgrown hstill
    obtain ⟨xs, rest', rfl, hlength, hrest', -⟩ := hgrown.of_append
    refine ⟨breaks ++ xs, rest', by rw [hbreaks, List.append_assoc], ?_, hgrown'.trans hrest', fun hs => ?_⟩
    · rw [List.length_append, hb, hlength, hb']
      rfl
    · rw [← hstill' (hson hs).1]
      exact (List.append_inj (hstill (hson hs).2) hlength).2
  · rw [hcalls, hcalls', List.append_assoc]
  · rw [List.length_append, hk, hk']
    rfl
  · rw [haccesses, haccesses', List.append_assoc]
  · rcases hs : σ.still with _ | _
    · rw [ha hs, List.forall₂_nil_left_iff] at has'
      rw [has', on, ha hs, List.append_nil, List.append_nil]
      exact has
    · exact List.rel_append has (has'.imp fun _ _ hn => ⟨hn.1, (h.still hs).indexed hn.2⟩)

/-- The profile that is left when one is taken from the top of another. -/
def without? (σ τ : Profile) : Option Profile :=
  if τ.operands ≤ σ.operands ∧ τ.breaks ≤ σ.breaks ∧ τ.calls ≤ σ.calls then
    (τ.operators.isPrefixOf? σ.operators).bind fun operators =>
      (τ.jumps.isPrefixOf? σ.jumps).bind fun jumps =>
        (τ.accesses.isPrefixOf? σ.accesses).map fun accesses =>
          ⟨σ.operands - τ.operands, operators, jumps, σ.breaks - τ.breaks, σ.calls - τ.calls, accesses, σ.floor,
            σ.whole, σ.still⟩
  else none

theorem on_of_without? {τ : Profile} (h : σ.without? τ = some rest) (hs : τ.still = true) : τ.on rest = σ := by
  rw [without?] at h
  split at h
  · next hle =>
    obtain ⟨operators, hoperators, h⟩ := Option.bind_eq_some_iff.1 h
    obtain ⟨jumps, hjumps, h⟩ := Option.bind_eq_some_iff.1 h
    obtain ⟨accesses, haccesses, rfl⟩ := Option.map_eq_some_iff.1 h
    rw [List.isPrefixOf?_eq_some_iff_append_eq] at hoperators hjumps haccesses
    simp only [on, hoperators, hjumps, haccesses, hs, Bool.and_true, Nat.add_sub_cancel' hle.1,
      Nat.add_sub_cancel' hle.2.1, Nat.add_sub_cancel' hle.2.2]
  · cases h

/-- Nothing on any stack, nothing known of what is below, and nothing changed. -/
def bare : Profile := ⟨0, [], [], 0, 0, [], 4, false, true⟩

end Profile

/-- What is on top of the stacks before, and after.  It may be asked that the value before is a word of some
level. -/
structure Exchange where
  word : Option Nat
  pre : Profile
  post : Profile
deriving DecidableEq

/-- The value is a word of a level, if a level is given. -/
def Leveled (word : Option Nat) (v : Option Literal) : Prop := ∀ l ∈ word, operatorLevel (Compile.wordOf v) = l

namespace Exchange

open Profile

/-- The profile after an exchange, if it can take place. -/
def apply (e : Exchange) (word : Option Nat) (σ : Profile) : Option Profile :=
  (σ.without? e.pre).bind fun rest =>
    if (e.word = none ∨ e.word = word) ∧ rest.Bears e.pre ∧ (e.post.still = true ∨ rest.accesses = []) then
      some (e.post.on rest)
    else none

/-- What an exchange needs is there, and what it gives can be put in its place. -/
theorem exists_of_apply {word : Option Nat} {σ σ' : Profile} (h : e.apply word σ = some σ')
    (hs : e.pre.still = true) {F c : Compiler} (hc : σ.Over F c) {before : Option Literal}
    (hbefore : Leveled word before) :
    Leveled e.word before ∧ ∃ F', e.pre.Over F' c ∧ ∀ c', e.post.Over F' c' → σ'.Over F c' := by
  obtain ⟨rest, hrest, h⟩ := Option.bind_eq_some_iff.1 h
  split at h
  · next hfits =>
    cases h
    rw [← on_of_without? hrest hs] at hc
    obtain ⟨F', hpre, hbelow⟩ := hc.split hfits.2.1 hs
    refine ⟨?_, F', hpre, fun c' hc' => hc'.join hbelow fun hstill => ?_⟩
    · rcases hfits.1 with hw | hw
      · rw [hw]
        exact fun l hl => by cases hl
      · rw [hw]
        exact hbefore
    · rcases hfits.2.2 with h | h
      · rw [hstill] at h
        cases h
      · exact h
  · cases h

/-- The first exchange that can take place. -/
def first (es : List Exchange) (word : Option Nat) (σ : Profile) : Option Profile :=
  es.findSome? fun e => e.apply word σ

/-- Nothing is taken and nothing put. -/
def keep : Exchange := ⟨none, bare, bare⟩

/-- Only the meaning of names may change. -/
def stir : Exchange := ⟨none, bare, { bare with still := false }⟩

/-- Work off an operator of a level. -/
def work (l : Nat) : Exchange := ⟨none, { bare with operands := 2, operators := [l] }, { bare with operands := 1 }⟩

/-- The operators of a level have been worked off. -/
def idle (l : Nat) : Exchange := ⟨none, { bare with floor := l - 1 }, { bare with floor := l - 1 }⟩

/-- Push an operator of a level. -/
def push (l : Nat) : Exchange := ⟨some l, bare, { bare with operators := [l] }⟩

end Exchange

open Exchange Profile in
def Step.exchanges : Step → List Exchange
  | .skip | .finish | .setType | .setVoid | .give _ | .size _ _ | .printText => [keep]
  | .openTable | .declare | .reserve | .beginFunction | .returnDims | .param | .paramDims | .markStart
  | .endFunction | .leave => [stir]
  | .begin => [⟨none, bare, { bare with jumps := [.main], still := false }⟩]
  | .beginMain => [⟨none, { bare with jumps := [.main] }, bare⟩]
  | .assign => [⟨none, { bare with operands := 2, operators := [0] }, bare⟩]
  | .ret => [⟨none, { bare with operands := 1 }, { bare with still := false }⟩]
  | .read | .printValue => [⟨none, { bare with operands := 1 }, bare⟩]
  | .endIf => [⟨none, { bare with jumps := [.forth] }, bare⟩]
  | .jumpIfFalse => [⟨none, { bare with operands := 1 }, { bare with jumps := [.forth] }⟩]
  | .orElse => [⟨none, { bare with jumps := [.forth] }, { bare with jumps := [.forth] }⟩]
  | .iterator => [⟨none, bare, { bare with operands := 3, still := false }⟩]
  | .loopStart => [⟨none, { bare with operands := 2 }, { bare with jumps := [.back], breaks := 1 }⟩]
  | .loopBound => [⟨none, { bare with operands := 2 }, { bare with jumps := [.forth] }⟩]
  | .loopEnd => [⟨none, { bare with operands := 1, jumps := [.forth, .back], breaks := 1 }, bare⟩]
  | .beginLoop => [⟨none, bare, { bare with jumps := [.back], breaks := 1 }⟩]
  | .endLoop => [⟨none, { bare with jumps := [.forth, .back], breaks := 1 }, bare⟩]
  | .operation ops => ([1, 2, 3, 4].filter fun l => ops == operatorsOf l).flatMap fun l => [work l, idle l]
  | .pushOperator => [0, 1, 2, 3, 4].map push
  | .matrixOperation => [⟨none, { bare with operands := 1 }, { bare with operands := 1 }⟩]
  | .closeGroup => [⟨none, { bare with operators := [0] }, bare⟩]
  | .pushVariable | .constant => [⟨none, bare, { bare with operands := 1 }⟩]
  | .beginAccess => [⟨none, bare, { bare with accesses := [0] }⟩]
  | .openIndex => [0, 1].map fun n =>
    ⟨none, { bare with accesses := [n] }, { bare with operators := [0], accesses := [n + 1] }⟩
  | .closeIndex => [0, 1].map fun n => ⟨none, { bare with operands := n + 1, operators := [0], accesses := [n + 1] },
    { bare with operands := 1, accesses := [n + 1] }⟩
  | .endAccess => [1, 2].map fun n => ⟨none, { bare with operands := 2, accesses := [n] }, { bare with operands := 1 }⟩
  | .callResult => [⟨none, { bare with calls := 1 }, { bare with operands := 1 }⟩]
  | .callStatement => [⟨none, { bare with calls := 1 }, bare⟩]
  | .beginCall => [⟨none, bare, { bare with operators := [0], calls := 1 }⟩]
  | .argument => [⟨none, { bare with operands := 1, calls := 1 }, { bare with calls := 1 }⟩]
  | .endCall => [⟨none, { bare with operators := [0], calls := 1 }, { bare with calls := 1 }⟩]

theorem Step.still_of_mem (he : e ∈ step.exchanges) : e.pre.still = true := by
  cases step with
  | operation ops =>
    obtain ⟨l, -, hmem⟩ := List.mem_flatMap.1 he
    rcases List.mem_cons.1 hmem with rfl | hmem
    · rfl
    · rw [List.mem_singleton.1 hmem]
      rfl
  | pushOperator | openIndex | closeIndex | endAccess =>
    obtain ⟨l, -, rfl⟩ := List.mem_map.1 he
    rfl
  | _ => rw [List.mem_singleton.1 he]; rfl

/-- What a step expects of its values: no more than two dimensions, and that a constant has a value. -/
def Step.Ready (step : Step) (args : List (Option Literal)) : Prop :=
  match step with
  | .reserve | .paramDims => args.length ≤ 2
  | .constant => ∃ v, args.headD none = some v
  | _ => True

theorem operatorLevel_of_mem {l : Nat} (hl : l ∈ [1, 2, 3, 4]) {op : String} (h : op ∈ operatorsOf l) :
    operatorLevel op = l := by
  have hall : ∀ l ∈ [1, 2, 3, 4], ∀ op ∈ operatorsOf l, operatorLevel op = l := by decide +kernel
  exact hall l hl op h

theorem mem_operatorsOf_of_level {l : Nat} (hl : l ∈ [1, 2, 3, 4]) {op : String} (h : operatorLevel op = l) :
    op ∈ operatorsOf l := by
  rw [operatorLevel] at h
  rcases hfind : [1, 2, 3, 4].find? fun l => (operatorsOf l).contains op with _ | k <;> rw [hfind] at h
  · rw [← h] at hl
    exact absurd hl (by decide)
  · cases h
    have hk := List.find?_some hfind
    exact List.contains_iff_mem.1 hk

namespace Compile

open Profile Exchange

variable {F : Compiler} {before : Option Literal} {args : List (Option Literal)}

theorem Sure.none {x : Compile Unit} {I J : Compiler → Prop} (h : Sure I x fun _ => J) :
    Sure I (do x; return (Option.none : Option Literal)) fun _ => J :=
  h.bind fun _ => sure_pure fun _ => id

theorem Leaves.none {R : Compiler → Compiler → Prop} [IsPreorder Compiler R] {x : Compile Unit} (h : Leaves R x) :
    Leaves R (do x; return (Option.none : Option Literal)) := h.bind fun _ => leaves_pure _

/-- The steps that only look, take cells or make code. -/
theorem calm_perform (h : step.exchanges = [keep]) : Calm (perform before args step) := by
  cases step with
  | skip => exact leaves_pure _
  | finish => exact (calm_emit _ _ _ _).bind fun _ => Leaves.none calm_build
  | setType => exact (calm_setType _).bind fun _ => leaves_pure _
  | setVoid => exact Leaves.none (calm_setType _)
  | give word => exact leaves_pure _
  | size i shown => exact leaves_ite (fun _ _ => sure_throw_bind rfl _) fun _ => leaves_pure _
  | printText => exact Leaves.none (calm_emit _ _ _ _)
  | operation ops =>
    rw [Step.exchanges] at h
    rcases hops : [1, 2, 3, 4].filter fun l => ops == operatorsOf l with _ | ⟨l, ls⟩ <;> rw [hops] at h <;> cases h
  | _ => cases h

/-- The steps that change tables. -/
theorem tame_perform (h : step.exchanges = [stir]) (hleave : step ≠ .leave)
    (hready : step.Ready args) :
    Tame (perform before args step) := by
  cases step with
  | openTable => exact Leaves.none tame_openTable
  | declare =>
    exact (reads_isAvailable _).calm.tame.bind fun _ => leaves_ite (fun _ => reads_scope.calm.tame.bind fun _ =>
      leaves_get_bind fun _ => (calm_take _).tame.bind fun _ => (tame_addVariable _ _).bind fun _ =>
        Leaves.none (calm_setNamed _).tame) fun _ _ => sure_throw_bind rfl _
  | reserve =>
    have hdims : (args.map numberOf).length ≤ 2 := by rw [List.length_map]; exact hready
    exact (tame_setDims hdims).bind fun _ => (calm_takeArray _).tame.bind fun _ => leaves_pure _
  | beginFunction =>
    exact (reads_functionExists _).calm.tame.bind fun _ => leaves_ite (fun _ _ => sure_throw_bind rfl _) fun _ =>
      (tame_addFunction _).bind fun _ => Leaves.none tame_openTable
  | returnDims =>
    refine Leaves.none (tame_changeCurrent ?_)
    exact fun _ => id
  | param =>
    exact (reads_isAvailable _).calm.tame.bind fun _ => leaves_ite (fun _ => (calm_setNamed _).tame.bind fun _ =>
      reads_scope.calm.tame.bind fun _ => leaves_get_bind fun _ => (calm_take _).tame.bind fun _ =>
        (tame_addVariable _ _).bind fun _ => Leaves.none (tame_addParam _)) fun _ _ => sure_throw_bind rfl _
  | paramDims =>
    have hdims : (args.map numberOf).length ≤ 2 := by rw [List.length_map]; exact hready
    exact (tame_setParamDims _).bind fun _ => (tame_setDims hdims).bind fun _ => Leaves.none (calm_takeArray _).tame
  | markStart =>
    refine reads_quadCount.calm.tame.bind fun _ => Leaves.none (tame_changeCurrent ?_)
    exact fun _ => id
  | endFunction => exact tame_addFunctionEnd.bind fun _ => Leaves.none tame_closeTable
  | leave => exact absurd rfl hleave
  | operation ops =>
    rw [Step.exchanges] at h
    rcases hops : [1, 2, 3, 4].filter fun l => ops == operatorsOf l with _ | ⟨l, ls⟩ <;> rw [hops] at h <;> cases h
  | _ => cases h

/-- An operation takes place if and only if an operator of its level is on top. -/
theorem sure_operation {ops : List String} (he : e ∈ (Step.operation ops).exchanges) :
    Sure (e.pre.Over F) (addOperation ops) fun _ => e.post.Over F := by
  obtain ⟨l, hl, hmem⟩ := List.mem_flatMap.1 he
  obtain ⟨hlevel, hops⟩ := List.mem_filter.1 hl
  rw [beq_iff_eq] at hops
  subst hops
  rcases List.mem_cons.1 hmem with rfl | hmem
  · refine sure_addOperation.pre fun c h => ⟨h, fun op hop => ?_⟩
    obtain ⟨_ | ⟨op', xs⟩, hxs, hlevels⟩ := h.operators
    · cases hlevels
    · rw [hxs] at hop
      cases hop
      exact List.contains_iff_mem.2 (mem_operatorsOf_of_level hlevel (List.cons.inj hlevels).1)
  · rw [List.mem_singleton.1 hmem]
    refine sure_addOperation_idle.pre fun c h => ⟨h, fun op hop => ?_⟩
    obtain ⟨_ | ⟨op', xs⟩, hxs, hlevels⟩ := h.operators
    · rw [hxs] at hop
      rw [Bool.eq_false_iff, Ne, List.contains_iff_mem]
      intro hasked
      have hfloor : operatorLevel op ≤ l - 1 := h.floor op hop
      rw [operatorLevel_of_mem hlevel hasked] at hfloor
      have hpos : l ≠ 0 := by rintro rfl; exact absurd hlevel (by decide)
      omega
    · cases hlevels

/-- Every step exchanges what it is said to exchange. -/
theorem sure_sole {e' : Exchange} (he : e ∈ [e']) {x : Compile Unit}
    (h : Sure (e'.pre.Over F) x fun _ => e'.post.Over F) :
    Sure (e.pre.Over F) (do x; return (none : Option Literal)) fun _ => e.post.Over F := by
  rw [List.mem_singleton.1 he]
  exact Sure.none h

theorem sure_perform (he : e ∈ step.exchanges) (hword : Leveled e.word before)
    (hready : step.Ready args) :
    Sure (e.pre.Over F) (perform before args step) fun _ => e.post.Over F := by
  by_cases hkeep : step.exchanges = [keep]
  · rw [hkeep, List.mem_singleton] at he
    rw [he]
    exact (calm_perform hkeep).over
  by_cases hstir : step.exchanges = [stir] ∧ step ≠ .leave
  · rw [hstir.1, List.mem_singleton] at he
    rw [he]
    exact ((tame_perform hstir.1 hstir.2 hready).over rfl rfl).pre fun _ => Over.forget
  cases step with
  | operation ops => exact Sure.none (sure_operation he)
  | pushOperator =>
    obtain ⟨l, -, rfl⟩ := List.mem_map.1 he
    refine Sure.none ((sure_pushOperator _).mono (fun _ => id) fun _ c h => ?_)
    rw [hword l rfl] at h
    exact h.1
  | openIndex =>
    obtain ⟨n, -, rfl⟩ := List.mem_map.1 he
    exact Sure.none sure_openIndex
  | closeIndex =>
    obtain ⟨n, hn, rfl⟩ := List.mem_map.1 he
    rcases List.mem_cons.1 hn with rfl | hn
    · exact Sure.none (sure_addIndex Nat.two_pos)
    · rw [List.mem_singleton.1 hn]
      exact Sure.none (sure_addIndex Nat.one_lt_two)
  | endAccess =>
    obtain ⟨n, -, rfl⟩ := List.mem_map.1 he
    exact Sure.none sure_addElement
  | begin =>
    rw [List.mem_singleton.1 he]
    exact ((calm_say _).over.bind fun _ => ((tame_addFunction _).over rfl rfl).bind fun _ =>
      (tame_setGlobal.over rfl rfl).bind fun _ => Sure.none sure_addMain).pre fun _ => Over.forget
  | ret =>
    rw [List.mem_singleton.1 he]
    exact (Sure.none sure_addReturn).pre fun _ => Over.forget
  | iterator =>
    rw [List.mem_singleton.1 he]
    exact (Sure.none (sure_addIterator _)).pre fun _ => Over.forget
  | leave =>
    rw [List.mem_singleton.1 he]
    exact (Sure.none sure_addBreak).pre fun _ => Over.forget
  | beginMain => exact sure_sole he sure_completeMain
  | assign => exact sure_sole he sure_addAssign
  | read => exact sure_sole he sure_addRead
  | printValue => exact sure_sole he sure_addPrint
  | endIf => exact sure_sole he sure_completeIf
  | jumpIfFalse => exact sure_sole he sure_addJumpIfFalse
  | orElse => exact sure_sole he sure_addElse
  | loopStart => exact sure_sole he sure_addLoopStart
  | loopBound => exact sure_sole he sure_addLoopBound
  | loopEnd => exact sure_sole he sure_addLoopEnd
  | beginLoop => exact sure_sole he sure_beginLoop
  | endLoop => exact sure_sole he sure_completeLoop
  | matrixOperation => exact sure_sole he (sure_addMatrixOperation _)
  | closeGroup =>
    rw [List.mem_singleton.1 he]
    exact sure_popOperator.bind fun _ => sure_pure fun _ => id
  | pushVariable =>
    rw [List.mem_singleton.1 he]
    exact (reads_variableOf _).calm.over.bind fun v => (calm_setNamed _).over.bind fun _ => Sure.none (sure_pushOperand _)
  | constant =>
    rw [List.mem_singleton.1 he]
    obtain ⟨value, hvalue⟩ := hready
    rw [perform, hvalue]
    exact (calm_constant _ _).over.bind fun _ => Sure.none (sure_pushOperand _)
  | beginAccess =>
    rw [List.mem_singleton.1 he]
    refine Sure.none ⟨fun c _ c' h hrun => ?_, fun _ _ _ _ hrun => by cases hrun⟩
    cases hrun
    obtain ⟨xs, hxs, hdepths⟩ := h.accesses
    exact { h with accesses := ⟨(c.named, 0) :: xs, congrArg ((c.named, 0) :: ·) hxs, .cons ⟨rfl, .inl rfl⟩ hdepths⟩ }
  | callResult => exact sure_sole he sure_addCallResult
  | callStatement =>
    rw [List.mem_singleton.1 he]
    exact sure_popCall.bind fun _ => (reads_functionOf _).calm.over.bind fun _ => sure_ite (fun _ => sure_throw_bind rfl _)
      fun _ => sure_pure fun _ => id
  | beginCall => exact sure_sole he (sure_beginCall _)
  | argument => exact sure_sole he sure_addNextArgument
  | endCall => exact sure_sole he sure_endCall
  | _ => first | exact absurd rfl hkeep | exact absurd ⟨rfl, by simp⟩ hstir

end Compile

end QuadLang
