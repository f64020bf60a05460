/-
Empty stacks.

The compiler keeps operands, operators, jumps, breaks, calls and array accesses on stacks.  Taking from
an empty one stops it, and that must never be the reason to refuse a program.  This file is about
everything that does not use the stacks.

* `Sure` — a step that goes through leads from states with `I` to states with `J`, and when it
  stops, the reason is not an empty stack;
* `Compile.Calm`, `Compile.Tame` — the step leaves the stacks alone, and with them the meaning of names,
  or at least the bound of two on the number of dimensions.

Design notes: whether an index takes one operand or two depends on the number of dimensions of an array.
So it is kept that there are no more than two, and, while an array is indexed, that its name goes on
to mean the same.
-/
import QuadLang.Proofs.Texts

namespace QuadLang

variable {c : Compiler} {change : Function → Function} {e : CompileFault} {f : Compiler → Compiler}

section

variable {α β : Type} {I I' : Compiler → Prop} {J J' : α → Compiler → Prop}
  {K : β → Compiler → Prop} {x : Compile α}

structure Sure (I : Compiler → Prop) (x : Compile α) (J : α → Compiler → Prop) : Prop where
  carries : Carries I x J
  fault : ∀ ⦃c e c'⦄, I c → x.run c = (.error e, c') → e.ofStack = false

theorem sure_pure {a : α} (h : ∀ c, I c → J a c) : Sure I (pure a) J :=
  ⟨carries_pure h, fun _ _ _ _ hrun => by cases hrun⟩

theorem sure_throw (h : e.ofStack = false) : Sure I (throw e : Compile α) J :=
  ⟨carries_throw e, fun _ _ _ _ hrun => by cases hrun; exact h⟩

theorem Sure.bind {f : α → Compile β} (hx : Sure I x J) (hf : ∀ a, Sure (J a) (f a) K) :
    Sure I (x >>= f) K := by
  refine ⟨hx.carries.bind fun a => (hf a).carries, fun c e c' hc hrun => ?_⟩
  rcases hfirst : x.run c with ⟨e' | a, c₁⟩
  · rw [Steps.run_bind_error hfirst] at hrun
    cases hrun
    exact hx.fault hc hfirst
  · rw [Steps.run_bind_ok hfirst] at hrun
    exact (hf a).fault (hx.carries hc hfirst) hrun

theorem sure_throw_bind (h : e.ofStack = false) (f : α → Compile β) :
    Sure I (throw e >>= f) K :=
  (sure_throw (J := fun _ _ => False) h).bind fun _ => ⟨fun _ _ _ hc => hc.elim, fun _ _ _ hc => hc.elim⟩

/-- What follows a look at the state may rely on all that is known of it. -/
theorem sure_get_bind {f : Compiler → Compile β} (h : ∀ c, I c → Sure (· = c) (f c) K) :
    Sure I (get >>= f) K :=
  ⟨fun c _ _ hc hrun => (h c hc).carries rfl hrun, fun c _ _ hc hrun => (h c hc).fault rfl hrun⟩

theorem sure_modify {J : PUnit → Compiler → Prop} (h : ∀ c, I c → J () (f c)) :
    Sure I (modify f) J :=
  ⟨carries_modify h, fun _ _ _ _ hrun => by cases hrun⟩

theorem sure_set {J : PUnit → Compiler → Prop} (h : J () c) : Sure I (set c) J :=
  ⟨fun _ _ _ _ hrun => by cases hrun; exact h, fun _ _ _ _ hrun => by cases hrun⟩

theorem sure_ite {p : Prop} [Decidable p] {y : Compile α} (hx : p → Sure I x J)
    (hy : ¬p → Sure I y J) : Sure I (if p then x else y) J := by
  split
  · next h => exact hx h
  · next h => exact hy h

theorem Sure.mono (h : Sure I x J) (hI : ∀ c, I' c → I c) (hJ : ∀ a c, J a c → J' a c) :
    Sure I' x J' :=
  ⟨fun _ _ _ hc hrun => hJ _ _ (h.carries (hI _ hc) hrun), fun _ _ _ hc hrun => h.fault (hI _ hc) hrun⟩

theorem Sure.pre (h : Sure I x J) (hI : ∀ c, I' c → I c) : Sure I' x J := h.mono hI fun _ _ => id

theorem sure_and {P : Prop} (h : P → Sure I x J) : Sure (fun c => I c ∧ P) x J :=
  ⟨fun _ _ _ hc hrun => (h hc.2).carries hc.1 hrun, fun _ _ _ hc hrun => (h hc.2).fault hc.1 hrun⟩

theorem Sure.of (h : Sure I x J) (hc : I c) : Sure (· = c) x J :=
  h.pre fun _ heq => heq ▸ hc

end

/-! ### Steps that leave the stacks alone -/

/-- No variable of a function has more than two dimensions. -/
def Function.Flat (f : Function) : Prop := ∀ t, f.declared = some t → ∀ y ∈ t, y.2.dims.length ≤ 2

theorem Function.Flat.put {g : Function} {t : Table Variable} (hg : g.Flat) (ht : g.declared = some t) {name : String}
    {v : Variable} (hv : v.dims.length ≤ 2) : Function.Flat { g with declared := some (t.put name v) } := by
  intro t' ht' y hy
  cases ht'
  rcases Table.mem_of_mem_put hy with rfl | hy
  · exact hv
  · exact hg t ht y hy

namespace Compiler

variable {c' : Compiler}

/-- The stacks stay, and the code does not get shorter. -/
structure Rests (c c' : Compiler) : Prop where
  operands : c'.operands = c.operands
  operators : c'.operators = c.operators
  jumps : c'.jumps = c.jumps
  breaks : c'.breaks = c.breaks
  calls : c'.calls = c.calls
  accesses : c'.accesses = c.accesses
  size : c.quads.size ≤ c'.quads.size

theorem Rests.refl (c : Compiler) : c.Rests c := ⟨rfl, rfl, rfl, rfl, rfl, rfl, Nat.le_refl _⟩

theorem Rests.trans {c₁ c₂ : Compiler} (h : c.Rests c₁) (h' : c₁.Rests c₂) : c.Rests c₂ where
  operands := h'.operands.trans h.operands
  operators := h'.operators.trans h.operators
  jumps := h'.jumps.trans h.jumps
  breaks := h'.breaks.trans h.breaks
  calls := h'.calls.trans h.calls
  accesses := h'.accesses.trans h.accesses
  size := Nat.le_trans h.size h'.size

/-- What names mean stays. -/
def SameNames (c c' : Compiler) : Prop :=
  c'.functions = c.functions ∧ c'.currentName = c.currentName ∧ c'.globalName = c.globalName

theorem SameNames.trans {c₁ c₂ : Compiler} (h : c.SameNames c₁) (h' : c₁.SameNames c₂) :
    c.SameNames c₂ :=
  ⟨h'.1.trans h.1, h'.2.1.trans h.2.1, h'.2.2.trans h.2.2⟩

theorem SameNames.lookup? (h : c.SameNames c') (name : String) :
    c'.lookup? name = c.lookup? name := by
  simp only [Compiler.lookup?, Compiler.table?, h.1, h.2.1, h.2.2]

/-- No variable has more than two dimensions. -/
def Flat (c : Compiler) : Prop := ∀ x ∈ c.functions, x.2.Flat

/-- The stacks stay, and names keep their meaning. -/
def Calmly (c c' : Compiler) : Prop := c.Rests c' ∧ c.SameNames c'

/-- The stacks, the code and what names mean. -/
def standing (c : Compiler) := ((c.operands, c.operators, c.jumps, c.breaks, c.calls, c.accesses, c.quads),
  c.functions, c.currentName, c.globalName)

theorem Calmly.of_eq (h : c'.standing = c.standing) : c.Calmly c' := by
  simp only [standing, Prod.mk.injEq] at h
  obtain ⟨⟨h₁, h₂, h₃, h₄, h₅, h₆, hq⟩, hnames⟩ := h
  exact ⟨⟨h₁, h₂, h₃, h₄, h₅, h₆, (congrArg Array.size hq).ge⟩, hnames⟩

/-- The stacks stay, and there are no more than two dimensions. -/
def Tamely (c c' : Compiler) : Prop := c.Rests c' ∧ (c.Flat → c'.Flat)

theorem Calmly.tamely (h : c.Calmly c') : c.Tamely c' :=
  ⟨h.1, fun hflat => by rw [Flat, h.2.1]; exact hflat⟩

instance : IsPreorder Compiler Calmly where
  refl c := ⟨.refl c, rfl, rfl, rfl⟩
  trans _ _ _ h h' := ⟨h.1.trans h'.1, h.2.trans h'.2⟩

instance : IsPreorder Compiler Tamely where
  refl c := ⟨.refl c, id⟩
  trans _ _ _ h h' := ⟨h.1.trans h'.1, h'.2 ∘ h.2⟩

end Compiler

namespace Compile

variable {α : Type} {x : Compile α} (line : Unit → String) (name function : Option String)
  (value : Literal) (dims : List Int)

section

variable {α β : Type} {R : Compiler → Compiler → Prop} {x : Compile α}

/-- The step leads to a state that `R` relates to the one before, or it stops for another reason
than an empty stack. -/
def Leaves (R : Compiler → Compiler → Prop) (x : Compile α) : Prop := ∀ c, Sure (· = c) x fun _ => R c

theorem leaves_throw (h : e.ofStack = false) : Leaves R (throw e : Compile α) :=
  fun _ => sure_throw h

theorem leaves_modify (h : ∀ c, R c (f c)) : Leaves R (modify f) :=
  fun _ => sure_modify fun c hc => hc ▸ h c

theorem leaves_get_bind {f : Compiler → Compile β} (h : ∀ c, Leaves R (f c)) : Leaves R (get >>= f) :=
  fun c => sure_get_bind fun c' hc => by rw [← hc]; exact h c' c'

theorem leaves_ite {p : Prop} [Decidable p] {y : Compile α} (hx : p → Leaves R x)
    (hy : ¬p → Leaves R y) : Leaves R (if p then x else y) :=
  fun c => sure_ite (fun h => hx h c) fun h => hy h c

theorem Leaves.mono {S : Compiler → Compiler → Prop} (h : Leaves R x)
    (hrs : ∀ c c', R c c' → S c c') : Leaves S x :=
  fun c => (h c).mono (fun _ => id) fun _ => hrs c

variable [IsPreorder Compiler R]

theorem leaves_pure (a : α) : Leaves R (pure a : Compile α) := fun c =>
  sure_pure fun _ hc => by rw [hc]; exact refl c

/-- What is related already stays so. -/
theorem Leaves.from (h : Leaves R x) : Sure (R c) x fun _ => R c :=
  ⟨fun c₁ _ _ hc hrun => IsTrans.trans _ _ _ hc ((h c₁).carries rfl hrun), fun c₁ _ _ _ hrun => (h c₁).fault rfl hrun⟩

theorem Leaves.bind {f : α → Compile β} (hx : Leaves R x) (hf : ∀ a, Leaves R (f a)) :
    Leaves R (x >>= f) := fun c => (hx c).bind fun a => (hf a).from

end

/-- The step leaves the stacks and the names alone. -/
abbrev Calm {α : Type} (x : Compile α) : Prop := Leaves Compiler.Calmly x

/-- The step leaves the stacks alone. -/
abbrev Tame {α : Type} (x : Compile α) : Prop := Leaves Compiler.Tamely x

theorem Calm.tame (h : Calm x) : Tame x :=
  h.mono fun _ _ => Compiler.Calmly.tamely

theorem Reads.calm (h : Reads x) : Calm x :=
  fun c => ⟨fun c₁ _ _ hc hrun => by rw [h.looks hrun, hc]; exact refl c, fun _ _ _ _ hrun => h.fault hrun⟩

/-- A change of something else. -/
theorem calm_change (h : Compiler.standing ∘ f = Compiler.standing) : Calm (modify f) :=
  leaves_modify fun c => .of_eq (congrFun h c)

theorem calm_print (line : String) : Calm (print line) := calm_change rfl

theorem calm_say : Calm (say line) :=
  leaves_get_bind fun _ => leaves_ite (fun _ => calm_print _) fun _ => leaves_pure _

theorem calm_remark : Calm (remark line) := calm_say _

theorem calm_take (request : Space → Space × Except SpaceFault Int) : Calm (take request) := by
  refine fun c => sure_get_bind fun c' hc => ?_
  subst hc
  rcases request c'.space with ⟨space, fault | address⟩
  all_goals refine .bind (J := fun _ => c'.Calmly) (sure_set ⟨?_, rfl, rfl, rfl⟩) fun _ => ?_
  · exact ⟨rfl, rfl, rfl, rfl, rfl, rfl, Nat.le_refl _⟩
  · exact sure_throw rfl
  · exact ⟨rfl, rfl, rfl, rfl, rfl, rfl, Nat.le_refl _⟩
  · exact sure_pure fun _ => id

theorem calm_setType (t : Ty) : Calm (setType t) := calm_change rfl

theorem calm_setNamed : Calm (setNamed name) := calm_change rfl

theorem calm_countTemp : Calm countTemp := calm_change rfl

theorem calm_resetCounters : Calm resetCounters := calm_change rfl

/-! ### Constants and cells -/

theorem calm_addConstant (type : Ty) (address : Int) : Calm (addConstant value type address) := by
  refine Leaves.bind (leaves_modify fun c => .of_eq ?_) fun _ => calm_remark _
  split <;> rfl

theorem calm_constant (type : Ty) : Calm (constant value type) :=
  (reads_constant? value type).calm.bind fun _ => leaves_ite
    (fun _ => (calm_take _).bind fun _ => (calm_addConstant _ _ _).bind fun _ => (reads_constantOf value type).calm)
    fun _ => (reads_constantOf value type).calm

theorem calm_takeArray : Calm (takeArray dims) :=
  reads_scope.calm.bind fun _ => leaves_get_bind fun _ => (calm_take _).bind fun _ => leaves_pure _

/-! ### Code that is appended -/

theorem calm_addQuad (q : Quad) : Calm (addQuad q) := by
  have hpush : Calm (modify fun c => { c with quads := c.quads.push q }) :=
    leaves_modify fun c => ⟨⟨rfl, rfl, rfl, rfl, rfl, rfl, by simp⟩, rfl, rfl, rfl⟩
  refine leaves_get_bind fun c => leaves_ite (fun _ => ?_) fun _ => hpush
  split
  · exact reads_quadCount.calm.bind fun _ => (calm_print _).bind fun _ => hpush
  · exact fun c => sure_throw_bind rfl _

theorem calm_emit (op : String) (a b r : Field) : Calm (emit op a b r) := calm_addQuad _

theorem calm_addShape : Calm (addShape dims) := by
  unfold addShape
  dsimp only
  split
  all_goals refine Leaves.bind ?_ fun _ => (calm_remark _).bind fun _ => calm_emit _ _ _ _
  · exact leaves_pure _
  · exact leaves_pure _
  · exact leaves_throw rfl

theorem calm_addShapeOf : Calm (addShapeOf dims) :=
  leaves_ite (fun _ => calm_addShape dims) fun _ => leaves_pure _

theorem calm_remarkTemp (type : Scalar) (result : Int) : Calm (remarkTemp type result) :=
  leaves_get_bind fun _ => calm_remark _

theorem exists_of_mapM_eq_error {ε β : Type} {f : α → Except ε β} {e : ε} {xs : List α}
    (h : xs.mapM f = .error e) : ∃ x ∈ xs, f x = .error e := by
  induction xs with
  | nil => cases h
  | cons x xs ih =>
    rw [List.mapM_cons] at h
    rcases hx : f x with e' | y <;> rw [hx] at h
    · cases h
      exact ⟨x, List.mem_cons_self, hx⟩
    · rcases hxs : xs.mapM f with e' | ys <;> rw [hxs] at h <;> cases h
      obtain ⟨x', hx', he⟩ := ih hxs
      exact ⟨x', List.mem_cons_of_mem x hx', he⟩

theorem ofStack_of_objectText (h : c.objectText = .error e) :
    e.ofStack = false := by
  rw [Compiler.objectText] at h
  rcases heras : c.functions.mapM (fun x => eraLine? x.2) with e' | eras <;> rw [heras] at h
  · cases h
    obtain ⟨x, -, hx⟩ := exists_of_mapM_eq_error heras
    rw [eraLine?] at hx
    split at hx
    · cases hx
    · split at hx <;> cases hx
      rfl
  · rcases hquads : c.quads.toList.mapM quadLine with e' | quads <;> rw [hquads] at h <;> cases h
    obtain ⟨q, -, hq⟩ := exists_of_mapM_eq_error hquads
    rw [quadLine] at hq
    split at hq <;> cases hq
    rfl

theorem calm_build : Calm build := by
  refine leaves_get_bind fun c => (calm_say _).bind fun _ => leaves_get_bind fun c => ?_
  split
  · next fault hfault => exact fun c => sure_throw_bind (ofStack_of_objectText hfault) _
  · exact .bind (calm_change rfl) fun _ => calm_say _

/-! ### Tables -/

theorem sure_functionOf (c : Compiler) : Sure (· = c) (functionOf name) fun f c' =>
    c' = c ∧ ∃ n, name = some n ∧ c.functions.get? n = some f := by
  refine ⟨fun c₁ f c' hc hrun => ?_, fun _ _ _ _ h => (reads_functionOf name).fault h⟩
  rw [hc] at hrun
  exact functionOf_eq_ok hrun

theorem sure_changeFunction {name : Option String}
    (h : ∀ n g, name = some n → c.functions.get? n = some g → g.Flat → (change g).Flat) :
    Sure (· = c) (changeFunction name change) fun _ => c.Tamely := by
  refine (sure_functionOf name c).bind fun g => sure_modify ?_
  rintro c' ⟨rfl, n, rfl, hget⟩
  refine ⟨⟨rfl, rfl, rfl, rfl, rfl, rfl, Nat.le_refl _⟩, fun hflat x hx => ?_⟩
  rcases Table.mem_of_mem_put hx with rfl | hx
  · exact h n g rfl hget (hflat (n, g) (Table.mem_of_get? hget))
  · exact hflat x hx

theorem tame_changeFunction {name : Option String} (h : ∀ g, g.Flat → (change g).Flat) :
    Tame (changeFunction name change) :=
  fun _ => sure_changeFunction fun _ g _ _ => h g

theorem tame_changeCurrent (h : ∀ g, g.Flat → (change g).Flat) :
    Tame (changeCurrent change) := leaves_get_bind fun _ => tame_changeFunction h

/-- A variable is written into the table of a function. -/
theorem sure_putVariable {n name : String} {g : Function} {t : Table Variable} {v : Variable}
    (hget : c.functions.get? n = some g) (ht : g.declared = some t) (hv : v.dims.length ≤ 2) :
    Sure (· = c) (changeFunction (some n) fun f => { f with declared := some (t.put name v) })
      fun _ => c.Tamely := by
  refine sure_changeFunction fun m g' hm hg hflat => ?_
  cases hm
  cases hget.symm.trans hg
  exact hflat.put ht hv

theorem tame_addVariableTo (name : String) (type : Ty) (address : Int) :
    Tame (addVariableTo function name type address) := by
  refine fun c => (sure_functionOf function c).bind fun f => sure_and fun hf => ?_
  obtain ⟨n, rfl, hget⟩ := hf
  split
  · exact sure_throw rfl
  · next t ht => exact (sure_putVariable hget ht (Nat.zero_le _)).bind fun _ => (calm_remark _).tame.from

theorem tame_addVariable (name : String) (address : Int) : Tame (addVariable name address) :=
  leaves_get_bind fun _ => leaves_get_bind fun _ => tame_addVariableTo _ _ _ _

theorem tame_setDimsIn {dims : List Int} (hdims : dims.length ≤ 2) :
    Tame (setDimsIn function name dims) := by
  refine fun c => (sure_functionOf function c).bind fun f => sure_and fun hf => ?_
  obtain ⟨n, rfl, hget⟩ := hf
  split
  · exact sure_throw rfl
  · next t ht =>
    split
    · split <;> exact sure_throw rfl
    · refine (sure_putVariable hget ht hdims).bind fun _ => Leaves.from ?_
      refine leaves_get_bind fun _ => leaves_ite (fun _ => ?_) fun _ => leaves_pure _
      split
      · exact leaves_throw rfl
      · exact (calm_remark _).tame

theorem tame_setDims {dims : List Int} (hdims : dims.length ≤ 2) : Tame (setDims dims) :=
  leaves_get_bind fun _ => leaves_get_bind fun _ => tame_setDimsIn _ _ hdims

theorem tame_addParam (address : Int) : Tame (addParam address) :=
  leaves_get_bind fun _ => tame_changeCurrent fun _ => id

theorem tame_setParamDims : Tame (setParamDims dims) := by
  refine leaves_get_bind fun c => (reads_functionOf _).calm.tame.bind fun f => ?_
  split
  · exact leaves_throw rfl
  · exact tame_changeFunction fun _ => id

theorem tame_openTable : Tame openTable := by
  refine tame_changeCurrent fun g hg t ht => ?_
  rcases hdeclared : g.declared with _ | t'
  · rw [hdeclared] at ht
    cases ht
    exact fun y hy => absurd hy List.not_mem_nil
  · rw [hdeclared] at ht
    cases ht
    exact hg t hdeclared

theorem tame_closeTable : Tame closeTable := by
  refine (tame_changeCurrent fun g _ t ht => by cases ht).bind fun _ => leaves_modify fun c => ?_
  exact ⟨⟨rfl, rfl, rfl, rfl, rfl, rfl, Nat.le_refl _⟩, id⟩

theorem tame_addFunction (name : String) : Tame (addFunction name) := by
  refine fun c => sure_get_bind fun c' hc => ?_
  subst hc
  refine .bind (J := fun _ => c'.Tamely) (sure_set ⟨⟨rfl, rfl, rfl, rfl, rfl, rfl, Nat.le_refl _⟩, ?_⟩) fun _ =>
    (calm_say _).tame.from
  intro hflat x hx
  rcases Table.mem_of_mem_put hx with rfl | hx
  · exact fun t ht => by cases ht
  · exact hflat x hx

theorem tame_setGlobal : Tame setGlobal :=
  leaves_modify fun _ => ⟨⟨rfl, rfl, rfl, rfl, rfl, rfl, Nat.le_refl _⟩, id⟩

theorem tame_declared (name : String) (type : Ty) : Tame (declared name type) := by
  have hrest : Tame (variableOf name) := (reads_variableOf name).calm.tame
  refine (reads_variableExists name).calm.tame.bind fun b => leaves_ite (fun _ => ?_) fun _ => hrest
  exact leaves_get_bind fun _ => (calm_take _).tame.bind fun _ => (tame_addVariable _ _).bind fun _ => hrest

theorem tame_returnAddress (type : Ty) (dims : List Int) : Tame (returnAddress type dims) := by
  refine reads_current.calm.tame.bind fun f => ?_
  split
  · exact leaves_pure _
  · refine leaves_get_bind fun _ => (calm_take _).tame.bind fun _ =>
      Leaves.bind (tame_changeCurrent ?_) fun _ => leaves_ite (fun _ => ?_) fun _ => ?_
    · exact fun _ => id
    · exact (calm_take _).tame.bind fun _ => (calm_remark _).tame.bind fun _ => leaves_pure _
    · exact (calm_remark _).tame.bind fun _ => leaves_pure _

theorem tame_addFunctionEnd : Tame addFunctionEnd := by
  refine leaves_get_bind fun c => leaves_ite (fun _ => reads_current.calm.tame.bind fun f => leaves_ite
    (fun _ _ => sure_throw_bind rfl _) fun _ => ?_) fun _ => ?_
  all_goals
    refine leaves_get_bind fun _ => Leaves.bind (tame_changeCurrent ?_) fun _ =>
      calm_resetCounters.tame.bind fun _ => (calm_emit _ _ _ _).tame
    exact fun _ => id

end Compile

end QuadLang
