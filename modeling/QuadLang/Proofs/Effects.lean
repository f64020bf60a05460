/-
What the steps of the compiler do to the code.

Most steps append quads that compute something and leave alone everything that control
depends on: open jumps and breaks, calls in preparation, and the heads of functions.

* `Due.next` — which quads may follow one another in such code: a quad that announces an
  array is followed by one that works on all its cells;
* `Goes` — the state goes on by code of this kind, and nothing else changes that matters to
  control;
* `Computing` — relations between states that hold across what such steps do, one thing at a time,
  and so across the steps;
* `Compile.leads_perform` — all steps that are ordinary go on like this.

Design notes: `Leads R` is about steps that go through, so a relation need not hold where
a step stops half-way.  Between an announcement and the quad it is for, the state is `due` one
of the two kinds of batches; `Goes u v` leads from one such state to another.  A step that
makes no quads goes from any of them to itself, `silence` included.
-/
import QuadLang.Proofs.Derivations
import QuadLang.Proofs.Digraph
import QuadLang.Proofs.Emission

namespace QuadLang

variable {p : Prop}

section

variable {ε σ α β : Type} {x : Steps ε σ α} {f : α → Steps ε σ β} (e : ε) {R : σ → σ → Prop}

/-- A step that goes through leads to a state that `R` relates to the one before. -/
def Leads (R : σ → σ → Prop) (x : Steps ε σ α) : Prop :=
  ∀ s a s', x.run s = (.ok a, s') → R s s'

theorem Leads.mono {S : σ → σ → Prop} (h : Leads R x) (hrs : ∀ s s', R s s' → S s s') : Leads S x :=
  fun s a s' hs => hrs s s' (h s a s' hs)

theorem Leads.bind {S T : σ → σ → Prop} (hx : Leads R x) (hf : ∀ a, Leads S (f a))
    (ht : ∀ {s s₁ s'}, R s s₁ → S s₁ s' → T s s') : Leads T (x >>= f) := by
  intro s b s' h
  obtain ⟨a, s₁, h₁, h₂⟩ := Steps.bind_eq_ok h
  exact ht (hx s a s₁ h₁) (hf a s₁ b s' h₂)

theorem Leads.apply {s s' : σ} {a : α} (h : Leads R x) (hs : x.run s = (.ok a, s')) :
    R s s' := h s a s' hs

theorem leads_throw : Leads R (throw e : Steps ε σ α) := by
  intro s a s' h
  cases h

theorem leads_ite [Decidable p] {y : Steps ε σ α} (hx : Leads R x) (hy : Leads R y) :
    Leads R (if p then x else y) := by
  split
  · exact hx
  · exact hy

theorem leads_get_bind {f : σ → Steps ε σ β} (h : ∀ s a s', (f s).run s = (.ok a, s') → R s s') :
    Leads R (get >>= f) := h

theorem leads_modify {f : σ → σ} (h : ∀ s, R s (f s)) : Leads R (modify f : Steps ε σ PUnit) := by
  intro s a s' hs
  cases hs
  exact h s

/-- The step changes nothing, if it goes through. -/
def Looks (x : Steps ε σ α) : Prop := ∀ ⦃s a s'⦄, x.run s = (.ok a, s') → s' = s

theorem looks_pure (a : α) : Looks (pure a : Steps ε σ α) := by
  intro s b s' h
  cases h
  rfl

theorem looks_throw : Looks (throw e : Steps ε σ α) := by
  intro s b s' h
  cases h

theorem looks_get : Looks (get : Steps ε σ σ) := by
  intro s b s' h
  cases h
  rfl

theorem Looks.bind (hx : Looks x) (hf : ∀ a, Looks (f a)) : Looks (x >>= f) := by
  intro s b s' h
  obtain ⟨a, s₁, h₁, h₂⟩ := Steps.bind_eq_ok h
  exact (hf a h₂).trans (hx h₁)

end

/-- The reason is that a stack was empty. -/
def CompileFault.ofStack : CompileFault → Bool
  | .popEmpty | .peekEmpty => true
  | _ => false

namespace Compile

variable {α β : Type} {x y : Compile α} {f : α → Compile β}

/-- The step changes nothing, also where it stops, and then not because of an empty stack. -/
structure Reads (x : Compile α) : Prop where
  state : ∀ c, (x.run c).2 = c
  fault : ∀ ⦃c e c'⦄, x.run c = (.error e, c') → e.ofStack = false

theorem Reads.looks (h : Reads x) : Looks x := fun c _ _ hrun => (congrArg Prod.snd hrun).symm.trans (h.state c)

theorem reads_pure (a : α) : Reads (pure a) := ⟨fun _ => rfl, fun _ _ _ h => by cases h⟩

theorem reads_throw {e : CompileFault} (h : e.ofStack = false) : Reads (throw e : Compile α) :=
  ⟨fun _ => rfl, fun _ _ _ hrun => by cases hrun; exact h⟩

theorem reads_get : Reads get := ⟨fun _ => rfl, fun _ _ _ h => by cases h⟩

theorem Reads.bind (hx : Reads x) (hf : ∀ a, Reads (f a)) : Reads (x >>= f) := by
  constructor
  · intro c
    have hc := hx.state c
    rcases hfirst : x.run c with ⟨e | a, c₁⟩ <;> rw [hfirst] at hc <;> cases hc
    · rw [Steps.run_bind_error hfirst]
    · rw [Steps.run_bind_ok hfirst]
      exact (hf a).state _
  · intro c e c' hrun
    rcases hfirst : x.run c with ⟨e' | a, c₁⟩
    · rw [Steps.run_bind_error hfirst] at hrun
      cases hrun
      exact hx.fault hfirst
    · rw [Steps.run_bind_ok hfirst] at hrun
      exact (hf a).fault hrun

theorem reads_ite [Decidable p] (hx : Reads x) (hy : Reads y) : Reads (if p then x else y) := by
  split
  · exact hx
  · exact hy

end Compile

/-! ### Code that computes -/

def Quad.word : Quad → String
  | .text w :: _ => w
  | _ => ""

/-- What a quad that announces an array is for. -/
inductive Due where
  | nothing
  /-- The next quad works on all cells of an array. -/
  | cells
  /-- The next quad is a matrix product. -/
  | product
  /-- No quad may follow. -/
  | silence
deriving DecidableEq

/-- The words of quads that compute and may work on all cells of an array. -/
def batchWords : List String :=
  ["=", "&", "|", "==", "!=", "<", "<=", ">", ">=", "+", "-", "*", "/", ".", "%", "$", "!", "?",
    "READ", "PRINT"]

/-- The words of quads that compute with single cells only. -/
def cellWords : List String := ["VERIFY", "+->"]

namespace Due

/-- What is due after a quad of code that computes. -/
def next : Due → String → Option Due
  | .nothing, w =>
    if w = "MAT" then some .cells
    else if w = "MAT·" then some .product
    else if w ∈ batchWords ++ cellWords then some .nothing
    else none
  | .cells, w => if w ∈ batchWords then some .nothing else none
  | .product, w => if w = "·" then some .nothing else none
  | .silence, _ => none

/-- What is due after code that computes. -/
def run (u : Due) : List Quad → Option Due
  | [] => some u
  | q :: qs => (u.next (Quad.word q)).bind fun v => v.run qs

theorem run_append (u : Due) (qs qs' : List Quad) :
    u.run (qs ++ qs') = (u.run qs).bind fun v => v.run qs' := by
  induction qs generalizing u with
  | nil => rfl
  | cons q qs ih =>
    rw [List.cons_append, run, run]
    rcases u.next (Quad.word q) with _ | v
    · rfl
    · exact ih v

end Due

/-- A type that is called void is void. -/
def Ty.Proper (t : Ty) : Prop := t.name = "void" → t = .void

theorem Ty.proper_ofName (s : String) : (Ty.ofName s).Proper := by
  intro h
  rw [ofName] at h ⊢
  split at h
  · next t ht =>
    cases t <;> exact absurd h (by decide)
  · next hnone =>
    split at h
    · next hs => rw [if_pos hs]
    · next hs => exact absurd (beq_iff_eq.mpr h) hs

/-- What a call depends on. -/
structure Head where
  returnType : Ty
  returnDims : List Int
  start : Option Int
  params : List Param

def Function.head (f : Function) : Head := ⟨f.returnType, f.returnDims, f.start, f.params⟩

/-- The head of the function of a name. -/
def Compiler.head? (c : Compiler) (name : String) : Option Head :=
  (c.functions.get? name).map Function.head

/-- What control depends on, the code apart. -/
structure SameControl (c c' : Compiler) : Prop where
  jumps : c'.jumps = c.jumps
  breaks : c'.breaks = c.breaks
  calls : c'.calls = c.calls
  paramCount : c'.paramCount = c.paramCount
  currentName : c'.currentName = c.currentName
  globalName : c'.globalName = c.globalName
  returnCount : c'.returnCount = c.returnCount
  head? : c'.head? = c.head?
  currentType : c.currentType.Proper → c'.currentType.Proper

structure Goes (u v : Due) (c c' : Compiler) : Prop extends SameControl c c' where
  code : ∃ qs, c'.quads.toList = c.quads.toList ++ qs ∧ u.run qs = some v

namespace SameControl

variable {c c₁ c' : Compiler}

theorem refl (c : Compiler) : SameControl c c := ⟨rfl, rfl, rfl, rfl, rfl, rfl, rfl, rfl, id⟩

theorem trans (h : SameControl c c₁) (h' : SameControl c₁ c') : SameControl c c' where
  jumps := h'.jumps.trans h.jumps
  breaks := h'.breaks.trans h.breaks
  calls := h'.calls.trans h.calls
  paramCount := h'.paramCount.trans h.paramCount
  currentName := h'.currentName.trans h.currentName
  globalName := h'.globalName.trans h.globalName
  returnCount := h'.returnCount.trans h.returnCount
  head? := h'.head?.trans h.head?
  currentType := h'.currentType ∘ h.currentType

end SameControl

namespace Goes

variable {u v w : Due} {c c₁ c' : Compiler}

theorem trans (h : Goes u v c c₁) (h' : Goes v w c₁ c') : Goes u w c c' where
  toSameControl := h.toSameControl.trans h'.toSameControl
  code := by
    obtain ⟨qs, hqs, hu⟩ := h.code
    obtain ⟨qs', hqs', hv⟩ := h'.code
    refine ⟨qs ++ qs', by rw [hqs', hqs, List.append_assoc], ?_⟩
    rw [Due.run_append, hu, Option.bind_some, hv]

/-- No code at all. -/
theorem of_same (h : SameControl c c') (hq : c'.quads = c.quads) : Goes u u c c' where
  toSameControl := h
  code := ⟨[], by rw [hq, List.append_nil], rfl⟩

theorem refl (u : Due) (c : Compiler) : Goes u u c c := of_same (.refl c) rfl

/-- No code at all leaves due what was due. -/
theorem of_reports (h : c.Reports c') : Goes u u c c' := by
  obtain ⟨printed, rfl⟩ := h
  exact of_same ⟨rfl, rfl, rfl, rfl, rfl, rfl, rfl, rfl, id⟩ rfl

/-- One quad. -/
theorem push {op : String} (h : u.next op = some v) (x y r : Field) (printed : List String) :
    Goes u v c { c with printed, quads := c.quads.push [.text op, x, y, r] } := by
  refine ⟨⟨rfl, rfl, rfl, rfl, rfl, rfl, rfl, rfl, id⟩, [[.text op, x, y, r]], by simp, ?_⟩
  rw [Due.run, show Quad.word [.text op, x, y, r] = op from rfl, h]
  rfl

theorem quads_eq (h : Goes .silence .silence c c') : c'.quads = c.quads := by
  obtain ⟨qs, hqs, hrun⟩ := h.code
  rcases qs with _ | ⟨q, qs⟩
  · rw [List.append_nil] at hqs
    exact Array.toList_inj.mp hqs
  · cases hrun

end Goes

/-! ### What computing may do -/

/-- A function that is called in the same way, with its name and the count of its cells. -/
structure Function.Like (f g : Function) : Prop where
  head : g.head = f.head
  name : g.name = f.name
  era : g.era = f.era

/-- A field without a text. -/
def Field.Plain : Field → Prop
  | .text _ => False
  | _ => True

theorem Field.Plain.address (a : Address) : (Field.address a).Plain := by cases a <;> trivial

/-- The parts of the state that control and texts depend on, and the code. -/
def Compiler.matter (c : Compiler) :=
  ((c.jumps, c.breaks, c.calls, c.paramCount, c.currentName, c.globalName, c.returnCount, c.currentType),
    c.functions, c.constants, c.quads)

/-- What code that computes may do, every time, is in the relation. -/
class Computing (R : Due → Due → Compiler → Compiler → Prop) : Prop where
  trans : ∀ {u v w c c₁ c'}, R u v c c₁ → R v w c₁ c' → R u w c c'
  same : ∀ {u c c'}, c'.matter = c.matter → R u u c c'
  type : ∀ {u c} {t : Ty}, t.Proper → R u u c { c with currentType := t }
  function : ∀ {u c n f g}, c.functions.get? n = some f → f.Like g →
    R u u c { c with functions := c.functions.put n g }
  numbers : ∀ {u c ks}, (∀ k ∈ ks, k ∈ c.constants ∨ ∃ n, k.value = .int n) → R u u c { c with constants := ks }
  quad : ∀ {u v c op} {x y r : Field}, u.next op = some v → x.Plain → y.Plain → r.Plain →
    R u v c { c with quads := c.quads.push [.text op, x, y, r] }

variable {R : Due → Due → Compiler → Compiler → Prop} [Computing R] {α : Type} {step : Step}
  {c c' : Compiler}

theorem Looks.leads {u : Due} {x : Compile α} (h : Looks x) : Leads (R u u) x := by
  intro c a c' hrun
  rw [h hrun]
  exact Computing.same rfl

namespace Compile

variable {α β : Type} {u v w : Due} {x : Compile α} (line : Unit → String)
  {stack : Compiler → List α} {put : Compiler → List α → Compiler} (name : Option String)
  (value : Literal)

theorem Reads.leads (h : Reads x) : Leads (R u u) x := h.looks.leads

theorem leads_pure (u : Due) (a : α) : Leads (R u u) (pure a : Compile α) := (looks_pure a).leads

theorem leads_bind {f : α → Compile β} (hx : Leads (R u v) x) (hf : ∀ a, Leads (R v w) (f a)) :
    Leads (R u w) (x >>= f) :=
  hx.bind hf Computing.trans

/-- A look at the state. -/
theorem leads_get (u : Due) : Leads (R u u) (get : Compile Compiler) := looks_get.leads

/-- A change of something else. -/
theorem leads_change {f : Compiler → Compiler} (h : Compiler.matter ∘ f = Compiler.matter) :
    Leads (R u u) (modify f : Compile PUnit) :=
  leads_modify fun c => Computing.same (congrFun h c)

theorem leads_say : Leads (R u u) (say line) := by
  intro c a c' h
  obtain ⟨printed, rfl⟩ := say_eq_ok h
  exact Computing.same rfl

theorem leads_remark : Leads (R u u) (remark line) := leads_say _

/-- One quad. -/
theorem leads_emit {op : String} {x y r : Field} (h : u.next op = some v) (hx : x.Plain) (hy : y.Plain)
    (hr : r.Plain) : Leads (R u v) (emit op x y r) := by
  intro c a c' ha
  obtain ⟨printed, rfl⟩ := emit_eq_ok ha
  exact Computing.trans (Computing.quad h hx hy hr) (Computing.same rfl)

theorem leads_take (request : Space → Space × Except SpaceFault Int) :
    Leads (R u u) (take request) := by
  refine leads_get_bind fun c a c' h => ?_
  rcases hr : request c.space with ⟨space, e | n⟩
  · simp only [hr] at h
    cases h
  · simp only [hr] at h
    cases h
    exact Computing.same rfl

theorem pop_eq_ok {x : α} (h : (pop stack put).run c = (.ok x, c')) :
    ∃ rest, stack c = x :: rest ∧ c' = put c rest := by
  rw [pop, Steps.run_bind_ok (Steps.run_get c)] at h
  rcases hstack : stack c with _ | ⟨y, rest⟩ <;> simp only [hstack] at h <;> cases h
  exact ⟨rest, rfl, rfl⟩

/-- What is popped was on top. -/
theorem pop_eq_of_cons {x y : α} {rest : List α} (h : (pop stack put).run c = (.ok x, c'))
    (hs : stack c = y :: rest) : x = y ∧ c' = put c rest := by
  obtain ⟨rest', hs', rfl⟩ := pop_eq_ok h
  obtain ⟨rfl, rfl⟩ := List.cons.inj (hs.symm.trans hs')
  exact ⟨rfl, rfl⟩

theorem leads_pop (h : ∀ c s, (put c s).matter = c.matter) : Leads (R u u) (pop stack put) := by
  intro c a c' hrun
  obtain ⟨rest, -, rfl⟩ := pop_eq_ok hrun
  exact Computing.same (h c rest)

theorem leads_popOperand : Leads (R u u) popOperand := leads_pop fun _ _ => rfl

theorem leads_popOperator : Leads (R u u) popOperator := leads_pop fun _ _ => rfl

theorem leads_popAccess : Leads (R u u) popAccess := leads_pop fun _ _ => rfl

theorem leads_pushOperand (o : Operand) : Leads (R u u) (pushOperand o) := leads_change rfl

theorem leads_pushOperator (op : String) : Leads (R u u) (pushOperator op) := leads_change rfl

theorem leads_countTemp : Leads (R u u) countTemp := leads_change rfl

theorem leads_setType {t : Ty} (ht : t.Proper) : Leads (R u u) (setType t) :=
  leads_modify fun _ => Computing.type ht

theorem leads_setNamed : Leads (R u u) (setNamed name) := leads_change rfl

theorem leads_pushTemp (address : Address) (type : Ty) (dims : List Int) :
    Leads (R u u) (pushTemp address type dims) :=
  leads_bind (leads_get u) fun _ => leads_pushOperand _

theorem leads_pushVariable (x : Variable) : Leads (R u u) (pushVariable x) := leads_pushOperand _

theorem leads_pushConstant (k : Constant) : Leads (R u u) (pushConstant k) := leads_pushOperand _

/-! ### Looking things up -/

theorem reads_functionOf : Reads (functionOf name) := by
  refine reads_get.bind fun c => ?_
  split
  · exact reads_pure _
  · exact reads_throw rfl

theorem reads_current : Reads current := reads_get.bind fun _ => reads_functionOf _

theorem reads_tableOf : Reads (tableOf name) := by
  refine (reads_functionOf name).bind fun f => ?_
  split
  · exact reads_pure _
  · exact reads_throw rfl

theorem reads_findVariable? (name : String) : Reads (findVariable? name) := by
  refine reads_get.bind fun c => (reads_tableOf _).bind fun t => ?_
  split
  · exact reads_pure _
  · exact reads_get.bind fun _ => (reads_tableOf _).bind fun _ => reads_pure _

theorem reads_variableOf (name : String) : Reads (variableOf name) := by
  refine (reads_findVariable? name).bind fun r => ?_
  split
  · exact reads_pure _
  · exact reads_throw rfl

theorem reads_dimsOf : Reads (dimsOf name) := by
  refine reads_get.bind fun c => ?_
  split
  · exact reads_pure _
  · exact reads_throw rfl

theorem reads_isAvailable (name : String) : Reads (isAvailable name) :=
  reads_get.bind fun _ => (reads_tableOf _).bind fun _ => reads_pure _

theorem reads_variableExists (name : String) : Reads (variableExists name) :=
  reads_get.bind fun _ => (reads_tableOf _).bind fun _ => reads_ite (reads_pure _)
    (reads_get.bind fun _ => (reads_tableOf _).bind fun _ => reads_pure _)

theorem reads_functionExists (name : String) : Reads (functionExists name) :=
  reads_get.bind fun _ => reads_pure _

theorem reads_paramOf (function : String) : Reads (paramOf function) := by
  refine (reads_functionOf _).bind fun f => reads_get.bind fun c => ?_
  dsimp only
  split
  · exact reads_pure _
  · exact reads_throw rfl

theorem reads_constantOf (type : Ty) : Reads (constantOf value type) := by
  refine Reads.bind (reads_get.bind fun _ => reads_pure _) fun r => ?_
  split
  · exact reads_pure _
  · exact reads_throw rfl

theorem reads_quadCount : Reads quadCount := reads_get.bind fun _ => reads_pure _

theorem reads_scope : Reads scope := reads_get.bind fun _ => reads_pure _

theorem reads_entry (xs : List Int) (i : Int) : Reads (entry xs i) := by
  rw [entry]
  split
  · exact reads_pure _
  · exact reads_throw rfl

theorem reads_checkShapes (left right : Operand) : Reads (checkShapes left right) :=
  reads_ite (reads_throw rfl) (reads_pure _)

theorem reads_constant? (type : Ty) : Reads (constant? value type) :=
  reads_get.bind fun _ => reads_pure _

theorem reads_resultType (left right : Operand) (op : String) : Reads (resultType left right op) := by
  rw [resultType]
  split
  · exact reads_pure _
  · exact reads_throw rfl

theorem looks_topCall : Looks topCall := by
  refine looks_get.bind fun c => ?_
  split
  · exact looks_pure _
  · exact looks_throw _

theorem looks_topOperand : Looks topOperand := by
  refine looks_get.bind fun c => ?_
  split
  · exact looks_pure _
  · exact looks_throw _

/-! ### Names -/

/-- A function that is found. -/
theorem functionOf_eq_ok {name : Option String} {f : Function}
    (h : (functionOf name).run c = (.ok f, c')) :
    c' = c ∧ ∃ n, name = some n ∧ c.functions.get? n = some f := by
  rw [functionOf, Steps.run_bind_ok (Steps.run_get c)] at h
  rcases hf : name.bind c.functions.get? with _ | g
  · rw [hf] at h
    cases h
  · rw [hf] at h
    cases h
    obtain ⟨n, hn, hg⟩ := Option.bind_eq_some_iff.mp hf
    exact ⟨rfl, n, hn, hg⟩

end Compile

theorem Table.get?_eq_none {t : Table α} {k : String} (h : t.has k = false) : t.get? k = none := by
  refine List.lookup_eq_none_iff.mpr fun e he => ?_
  rw [bne_iff_ne]
  rintro rfl
  rw [has_iff.mpr (List.mem_map_of_mem he)] at h
  cases h

theorem Table.get?_put (t : Table α) (k : String) (v : α) (x : String) :
    (t.put k v).get? x = if x = k then some v else t.get? x := by
  rw [put]
  by_cases hk : t.has k = true
  · have hmap : (t.map fun e => if e.1 == k then (k, v) else e) =
        t.map fun e => if e.1 == k then (e.1, v) else e := by
      refine List.map_congr_left fun e _ => ?_
      by_cases he : e.1 = k <;> simp [he]
    rw [if_pos hk, hmap]
    refine (Lalr.lookup_map_ite (· == k) v x t).trans ?_
    by_cases hx : x = k
    · subst hx
      obtain ⟨w, hw⟩ := get?_of_mem (has_iff.mp hk)
      rw [if_pos rfl, show t.lookup x = some w from hw, Option.map_some, beq_self_eq_true, if_pos rfl]
    · rw [if_neg hx, beq_false_of_ne hx]
      exact Option.map_id'
  · have hnone : t.lookup k = none := get?_eq_none (Bool.eq_false_iff.mpr hk)
    rw [if_neg hk]
    show (t ++ [(k, v)]).lookup x = _
    rw [List.lookup_append]
    by_cases hx : x = k
    · subst hx
      rw [if_pos rfl, hnone]
      simp [List.lookup]
    · rw [if_neg hx]
      simp [List.lookup_cons, beq_false_of_ne hx, get?]

namespace Compile

variable {α β : Type} {u v w : Due} (name function : Option String) {change : Function → Function}
  (dims : List Int) (type : Ty) {op : String} {t : Scalar}

/-- A function is changed and called as before. -/
theorem leads_changeFunction (h : ∀ f : Function, f.Like (change f)) :
    Leads (R u u) (changeFunction name change) := by
  intro c a c' hrun
  obtain ⟨f, c₁, hf, hchange⟩ := Steps.bind_eq_ok hrun
  obtain ⟨rfl, n, rfl, hget⟩ := functionOf_eq_ok hf
  cases hchange
  exact Computing.function hget (h f)

theorem leads_changeCurrent (h : ∀ f : Function, f.Like (change f)) :
    Leads (R u u) (changeCurrent change) :=
  leads_bind (leads_get u) fun _ => leads_changeFunction _ h

theorem leads_addVariableTo (name : String) (type : Ty) (address : Int) :
    Leads (R u u) (addVariableTo function name type address) := by
  refine leads_bind (reads_functionOf function).leads fun f => ?_
  split
  · exact leads_throw _
  · exact leads_bind (leads_changeFunction _ fun _ => ⟨rfl, rfl, rfl⟩) fun _ => leads_remark _

theorem leads_addVariable (name : String) (address : Int) :
    Leads (R u u) (addVariable name address) :=
  leads_bind (leads_get u) fun _ => leads_bind (leads_get u) fun _ => leads_addVariableTo _ _ _ _

theorem leads_setDimsIn (dims : List Int) : Leads (R u u) (setDimsIn function name dims) := by
  refine leads_bind (reads_functionOf function).leads fun f => ?_
  split
  · exact leads_throw _
  · split
    · exact leads_throw _
    · refine leads_bind (leads_changeFunction _ fun _ => ⟨rfl, rfl, rfl⟩) fun _ => leads_bind (leads_get u) fun c => ?_
      split
      · split
        · exact leads_throw _
        · exact leads_remark _
      · exact leads_pure u _

theorem leads_setDims : Leads (R u u) (setDims dims) :=
  leads_bind (leads_get u) fun _ => leads_bind (leads_get u) fun _ => leads_setDimsIn _ _ _

theorem leads_openTable : Leads (R u u) openTable := leads_changeCurrent fun _ => ⟨rfl, rfl, rfl⟩

/-! ### Constants and cells -/

/-- A constant, if there may be one of its value. -/
theorem leads_constant {value : Literal}
    (h : ∀ c ks, (∀ k ∈ ks, k ∈ c.constants ∨ k.value = value) →
    R u u c { c with constants := ks }) : Leads (R u u) (constant value type) := by
  have hadd : ∀ address, Leads (R u u) (addConstant value type address) := by
    refine fun address => leads_bind (leads_modify fun c => ?_) fun _ => leads_remark _
    split
    · refine h c _ fun k hk => ?_
      obtain ⟨k', hk', rfl⟩ := List.mem_map.mp hk
      split
      · exact .inr rfl
      · exact .inl hk'
    · refine h c _ fun k hk => (List.mem_append.mp hk).imp_right fun hk => ?_
      rw [List.mem_singleton.mp hk]
  refine leads_bind (reads_constant? value type).leads fun k => ?_
  split
  · exact leads_bind (leads_take _) fun _ => leads_bind (hadd _) fun _ => (reads_constantOf _ _).leads
  · exact (reads_constantOf _ _).leads

theorem leads_number (n : Int) (type : Ty) : Leads (R u u) (constant (.int n) type) :=
  leads_constant type fun _ _ hks => Computing.numbers fun k hk => (hks k hk).imp_right fun h => ⟨n, h⟩

theorem leads_declared (name : String) (type : Ty) : Leads (R u u) (declared name type) := by
  refine leads_bind (reads_variableExists name).leads fun b => ?_
  split
  · exact leads_bind (leads_get u) fun _ => leads_bind (leads_take _) fun _ =>
      leads_bind (leads_addVariable _ _) fun _ => (reads_variableOf _).leads
  · exact (reads_variableOf _).leads

/-- The cells for a result are no part of how a function is called. -/
theorem leads_returnAddress (dims : List Int) : Leads (R u u) (returnAddress type dims) := by
  refine leads_bind reads_current.leads fun f => ?_
  split
  · exact leads_pure _ _
  · refine leads_bind (leads_get _) fun _ => leads_bind (leads_take _) fun _ =>
      leads_bind (leads_changeCurrent fun _ => ⟨rfl, rfl, rfl⟩) fun _ => ?_
    split
    · exact leads_bind (leads_take _) fun _ => leads_bind (leads_remark _) fun _ => leads_pure _ _
    · exact leads_bind (leads_remark _) fun _ => leads_pure _ _

theorem leads_takeArray : Leads (R u u) (takeArray dims) :=
  leads_bind reads_scope.leads fun _ => leads_bind (leads_get u) fun _ => leads_bind (leads_take _) fun _ =>
    leads_pure u _

/-! ### Quads -/

/-- Operators between values are words of quads that compute. -/
theorem mem_batchWords_of_combine {left right : Ty} (h : left.combine right op = some t) :
    op ∈ batchWords := by
  simp only [Ty.combine, Option.bind_eq_bind, Option.bind_eq_some_iff] at h
  obtain ⟨l, -, r, -, h⟩ := h
  by_contra hop
  simp only [batchWords, List.mem_cons, List.not_mem_nil, or_false, not_or] at hop
  cases l <;> cases r <;> simp [Scalar.combine, orderings, equalities, Scalar.isNumeric, hop] at h

theorem mem_batchWords_of_apply {type : Ty} (h : type.apply op = some t) : op ∈ batchWords := by
  simp only [Ty.apply, Option.bind_eq_bind, Option.bind_eq_some_iff] at h
  obtain ⟨s, -, h⟩ := h
  by_contra hop
  simp only [batchWords, List.mem_cons, List.not_mem_nil, or_false, not_or] at hop
  simp [Scalar.apply, hop] at h

end Compile

namespace Due

variable {w : String}

/-- The batch that an operand announces. -/
def ofDims (dims : List Int) : Due := if dims.isEmpty then .nothing else .cells

theorem next_of_mem (h : w ∈ batchWords ++ cellWords) : Due.nothing.next w = some .nothing := by
  have hmat : w ≠ "MAT" := by
    rintro rfl
    exact absurd h (by decide)
  have hproduct : w ≠ "MAT·" := by
    rintro rfl
    exact absurd h (by decide)
  rw [next, if_neg hmat, if_neg hproduct, if_pos h]

theorem next_ofDims (dims : List Int) (h : w ∈ batchWords) :
    (ofDims dims).next w = some .nothing := by
  rw [ofDims]
  split
  · exact next_of_mem (List.mem_append_left _ h)
  · rw [next, if_pos h]

end Due

namespace Compile

variable {α β : Type} {u v w : Due} (dims : List Int) {left right : Operand} {op : String}

theorem leads_addShape : Leads (R .nothing .cells) (addShape dims) := by
  have hmat : Due.nothing.next "MAT" = some .cells := by decide
  unfold addShape
  dsimp only
  split
  all_goals refine leads_bind (u := .nothing) ?_ fun _ => leads_bind (leads_remark _) fun _ => leads_emit hmat trivial trivial trivial
  · exact leads_pure _ _
  · exact leads_pure _ _
  · exact leads_throw _

theorem leads_addShapeOf : Leads (R .nothing (.ofDims dims)) (addShapeOf dims) := by
  rw [addShapeOf, Due.ofDims]
  cases dims.isEmpty with
  | true => exact leads_pure _ _
  | false => exact leads_addShape dims

theorem resultType_eq_ok {t : Scalar} (h : (resultType left right op).run c = (.ok t, c')) :
    c' = c ∧ op ∈ batchWords := by
  rw [resultType] at h
  split at h
  · next ht =>
    cases h
    exact ⟨rfl, mem_batchWords_of_combine ht⟩
  · cases h

omit [Computing R] in
/-- The type of a result is found for an operator between values. -/
theorem leads_resultType_bind {f : Scalar → Compile α}
    (h : op ∈ batchWords → ∀ t, Leads (R u v) (f t)) :
    Leads (R u v) (resultType left right op >>= f) := by
  intro c a c' hrun
  obtain ⟨t, c₁, h₁, h₂⟩ := Steps.bind_eq_ok hrun
  obtain ⟨rfl, hop⟩ := resultType_eq_ok h₁
  exact h hop t c₁ a c' h₂

theorem leads_addAssign : Leads (R .nothing .nothing) addAssign := by
  refine leads_bind leads_popOperand fun right => leads_bind leads_popOperand fun left =>
    leads_bind leads_popOperator fun op => leads_resultType_bind fun hop t => ?_
  refine leads_bind (reads_checkShapes _ _).leads fun _ => leads_bind (leads_addShapeOf _) fun _ => ?_
  exact leads_emit (Due.next_ofDims _ hop) (.address _) trivial (.address _)

theorem leads_addDot : Leads (R .nothing .nothing) addDot := by
  have hmat : Due.nothing.next "MAT·" = some .product := by decide
  have hdot : Due.product.next "·" = some .nothing := by decide
  refine leads_bind leads_popOperand fun right => leads_bind leads_popOperand fun left =>
    leads_bind leads_popOperator fun op => leads_resultType_bind fun _ t => ?_
  split
  · split
    · exact leads_throw _
    · refine leads_bind (leads_take _) fun _ => leads_bind (leads_take _) fun _ =>
        leads_bind (leads_remark _) fun _ => ?_
      exact leads_bind (leads_emit hmat trivial trivial trivial) fun _ => leads_bind
        (leads_emit hdot (.address _) (.address _) trivial) fun _ =>
          leads_bind (leads_pushTemp _ _ _) fun _ => leads_countTemp
  · exact leads_throw _

theorem leads_remarkTemp (type : Scalar) (result : Int) : Leads (R u u) (remarkTemp type result) :=
  leads_bind (leads_get u) fun _ => leads_remark _

theorem leads_addOperation (ops : List String) : Leads (R .nothing .nothing) (addOperation ops) := by
  refine leads_bind (leads_get _) fun c => ?_
  split
  · exact leads_pure _ _
  · split
    · exact leads_pure _ _
    · split
      · exact leads_addDot
      · refine leads_bind leads_popOperand fun right => leads_bind leads_popOperand fun left =>
          leads_bind leads_popOperator fun op => leads_resultType_bind fun hop t => ?_
        refine leads_bind (reads_checkShapes _ _).leads fun _ => leads_bind (leads_addShapeOf _) fun _ =>
          leads_bind (leads_take _) fun _ => ?_
        exact leads_bind (leads_emit (Due.next_ofDims _ hop) (.address _) (.address _) trivial) fun _ =>
          leads_bind (leads_pushTemp _ _ _) fun _ => leads_bind (leads_remarkTemp _ _) fun _ =>
            leads_countTemp

theorem leads_addMatrixOperation (op : String) :
    Leads (R .nothing .nothing) (addMatrixOperation op) := by
  refine leads_bind leads_popOperand fun mat => ?_
  split
  · next rows cols hdims =>
    split
    · exact leads_throw _
    · next type htype =>
      have hnext : Due.cells.next op = some .nothing := if_pos (mem_batchWords_of_apply htype)
      intro c a c' h
      dsimp only at h
      by_cases hsquare : ((op == "$" || op == "?") && rows != cols) = true
      · rw [if_pos hsquare] at h
        cases h
      · rw [if_neg hsquare] at h
        revert h
        generalize (if (op == "$") = true then [] else if (op == "!") = true then [cols, rows]
          else mat.dims) = dims
        revert c a c'
        refine leads_bind (leads_take _) fun result => leads_bind (leads_remarkTemp _ _) fun _ => ?_
        refine have hend := ?_; leads_ite (leads_bind (leads_take _) fun _ => leads_bind (leads_get _) fun _ =>
          leads_bind (leads_remark _) fun _ => hend) hend
        exact leads_bind (leads_addShape _) fun _ => leads_bind
          (leads_emit hnext (.address _) trivial trivial) fun _ => leads_bind (leads_pushTemp _ _ _) fun _ => leads_countTemp
  · exact leads_throw _

theorem leads_addRead : Leads (R .nothing .nothing) addRead :=
  leads_bind leads_popOperand fun _ => leads_bind (leads_addShapeOf _) fun _ =>
    leads_emit (Due.next_ofDims _ (by decide)) trivial trivial (.address _)

theorem leads_addPrint : Leads (R .nothing .nothing) addPrint :=
  leads_bind leads_popOperand fun _ => leads_bind (leads_addShapeOf _) fun _ =>
    leads_emit (Due.next_ofDims _ (by decide)) trivial trivial (.address _)

theorem leads_addIterator (name : String) : Leads (R u u) (addIterator name) :=
  leads_bind (leads_setType fun h => absurd h (by decide)) fun _ => leads_bind (leads_take _) fun _ =>
    leads_bind (leads_addVariable _ _) fun _ => leads_bind (leads_declared _ _) fun _ =>
      leads_bind (leads_pushVariable _) fun _ => leads_bind (leads_pushVariable _) fun _ =>
        leads_pushVariable _

theorem leads_addIndex : Leads (R .nothing .nothing) addIndex := by
  have hend : Leads (R .nothing .nothing) (do let _ ← popOperator : Compile Unit) :=
    leads_bind leads_popOperator fun _ => leads_pure _ _
  refine leads_bind looks_topOperand.leads fun x => ?_
  split
  · exact leads_throw _
  · refine leads_bind (leads_get _) fun c => ?_
    split
    · exact leads_throw _
    · refine leads_bind (reads_dimsOf _).leads fun dims => leads_bind (reads_entry _ _).leads fun n =>
        leads_bind (leads_emit (Due.next_of_mem (by decide)) (.address _) trivial trivial) fun _ => ?_
      split
      · exact leads_bind (reads_entry _ _).leads fun _ => leads_bind (leads_number _ _) fun _ =>
          leads_bind (leads_pushConstant _) fun _ => leads_bind (leads_pushOperator _) fun _ =>
            leads_bind (leads_addOperation _) fun _ => hend
      · split
        · exact leads_bind (leads_pushOperator _) fun _ => leads_bind (leads_addOperation _) fun _ => hend
        · exact hend

theorem leads_addElement : Leads (R .nothing .nothing) addElement :=
  leads_bind leads_popAccess fun _ => leads_bind leads_popOperand fun _ =>
    leads_bind leads_popOperand fun _ => leads_bind (leads_take _) fun _ =>
      leads_bind (leads_emit (Due.next_of_mem (by decide)) (.address _) (.address _) trivial) fun _ =>
        leads_bind (leads_pushTemp _ _ _) fun _ => leads_bind (leads_get _) fun _ =>
          leads_bind (leads_remark _) fun _ => leads_countTemp

theorem leads_openIndex : Leads (R u u) openIndex := by
  refine leads_bind leads_popAccess fun x => leads_bind (reads_dimsOf _).leads fun dims => ?_
  split
  · exact leads_throw _
  · exact leads_bind (leads_change rfl)
      fun _ => leads_pushOperator _

end Compile

/-- A step that computes, or that declares something and is not part of the head of a
function. -/
def Step.ordinary : Step → Bool
  | .skip | .openTable | .declare | .reserve | .setType | .setVoid | .give _ | .size _ _ | .assign
  | .read | .printValue | .printText | .iterator | .operation _ | .pushOperator | .matrixOperation
  | .closeGroup | .pushVariable | .beginAccess | .openIndex | .closeIndex | .endAccess
  | .constant => true
  | _ => false

/-- A step that makes no quads and is no part of the head of a function. -/
def Step.quiet : Step → Bool
  | .skip | .openTable | .declare | .reserve | .setType | .setVoid | .give _ | .size _ _ => true
  | _ => false

namespace Compile

variable {u : Due}

/-- A step that gives no value does nothing more. -/
theorem leads_none {v : Due} {x : Compile Unit} (h : Leads (R u v) x) :
    Leads (R u v) (do x; return (none : Option Literal)) :=
  leads_bind h fun _ => leads_pure _ _

theorem leads_perform_quiet (h : step.quiet = true) (before : Option Literal)
    (args : List (Option Literal)) : Leads (R u u) (perform before args step) := by
  cases step with
  | skip => exact leads_pure _ _
  | give word => exact leads_pure _ _
  | openTable => exact leads_none leads_openTable
  | declare =>
    refine leads_bind (reads_isAvailable _).leads fun b => ?_
    split
    · exact leads_bind reads_scope.leads fun _ => leads_bind (leads_get _) fun _ => leads_bind (leads_take _)
        fun _ => leads_bind (leads_addVariable _ _) fun _ => leads_bind (leads_setNamed _) fun _ =>
          leads_pure _ _
    · intro c a c' hrun
      cases hrun
  | reserve =>
    exact leads_bind (leads_setDims _) fun _ => leads_bind (leads_takeArray _) fun _ => leads_pure _ _
  | setType => exact leads_bind (leads_setType (Ty.proper_ofName _)) fun _ => leads_pure _ _
  | setVoid => exact leads_none (leads_setType fun _ => rfl)
  | size i shown =>
    intro c a c' hrun
    simp only [perform] at hrun
    split at hrun
    · cases hrun
    · cases hrun
      exact Computing.same rfl
  | _ => cases h

end Compile

instance : Computing Goes where
  trans := .trans
  same h := by
    simp only [Compiler.matter, Prod.mk.injEq] at h
    obtain ⟨⟨h₁, h₂, h₃, h₄, h₅, h₆, h₇, htype⟩, hfunctions, -, hquads⟩ := h
    refine .of_same ⟨h₁, h₂, h₃, h₄, h₅, h₆, h₇, ?_, fun ht => htype ▸ ht⟩ hquads
    unfold Compiler.head?
    rw [hfunctions]
  type ht := .of_same ⟨rfl, rfl, rfl, rfl, rfl, rfl, rfl, rfl, fun _ => ht⟩ rfl
  function {u c n f g} hget hlike := by
    refine .of_same ⟨rfl, rfl, rfl, rfl, rfl, rfl, rfl, funext fun x => ?_, id⟩ rfl
    show ((c.functions.put n g).get? x).map Function.head = (c.functions.get? x).map Function.head
    rw [Table.get?_put]
    by_cases hx : x = n
    · subst hx
      rw [if_pos rfl, hget, Option.map_some, Option.map_some, hlike.head]
    · rw [if_neg hx]
  numbers _ := .of_same ⟨rfl, rfl, rfl, rfl, rfl, rfl, rfl, rfl, id⟩ rfl
  quad h _ _ _ := .push h _ _ _ _

namespace Compile

theorem leads_addPrintText (s : String) : Leads (Goes .nothing .nothing) (addPrintText s) := by
  intro c a c' h
  obtain ⟨printed, rfl⟩ := emit_eq_ok h
  exact .push (by decide) _ _ _ _

theorem leads_perform (h : step.ordinary = true) (before : Option Literal)
    (args : List (Option Literal)) : Leads (Goes .nothing .nothing) (perform before args step) := by
  cases step with
  | skip | give _ | openTable | declare | reserve | setType | setVoid | size _ _ =>
    exact leads_perform_quiet rfl before args
  | assign => exact leads_none leads_addAssign
  | read => exact leads_none leads_addRead
  | printValue => exact leads_none leads_addPrint
  | printText => exact leads_none (leads_addPrintText _)
  | iterator => exact leads_none (leads_addIterator _)
  | operation ops => exact leads_none (leads_addOperation ops)
  | pushOperator => exact leads_none (leads_pushOperator _)
  | matrixOperation => exact leads_none (leads_addMatrixOperation _)
  | closeGroup => exact leads_bind leads_popOperator fun _ => leads_pure _ _
  | pushVariable =>
    exact leads_bind (reads_variableOf _).leads fun _ => leads_bind (leads_setNamed _) fun _ =>
      leads_bind (leads_pushVariable _) fun _ => leads_pure _ _
  | beginAccess =>
    exact leads_bind (leads_change rfl)
      fun _ => leads_pure _ _
  | openIndex => exact leads_none leads_openIndex
  | closeIndex => exact leads_none leads_addIndex
  | endAccess => exact leads_none leads_addElement
  | constant =>
    rcases hargs : args.headD none with _ | value
    · intro c a c' hrun
      simp only [perform, hargs] at hrun
      cases hrun
      exact .refl _ _
    · intro c a c' hrun
      simp only [perform, hargs] at hrun
      have hconstant : Leads (Goes .nothing .nothing) (constant value (typeOfLiteral value)) :=
        leads_constant _ fun _ _ _ => .of_same ⟨rfl, rfl, rfl, rfl, rfl, rfl, rfl, rfl, id⟩ rfl
      exact (leads_bind hconstant fun k => leads_bind (leads_pushConstant k) fun _ =>
        leads_pure _ (none : Option Literal)) c a c' hrun
  | _ => cases h

end Compile

end QuadLang
