/-
Types and ranges of addresses.

The machine knows the type of a cell from its address alone, so the compiler has to give every
value an address in a range of its type.  Here this is stated, and shown for all that looks things up and notes them:

* `Space.Sound` — the cells in use of every range are within the range;
* `Compiler.InRange` — operands, variables, parameters, constants and results have addresses in
  ranges of their types;
* `Compile.Ranges` — a step keeps this, also where it stops half-way, and gives values that are
  in range as well.

Design notes: an address is taken from the space in one place and written into a table in
another.  `Holds I x Q` is about both: `x` keeps `I`, and what it gives has `Q`.  The type for
declarations is read twice on the way, so it is part of what is kept (`Compiler.InRangeAt`).
-/
import QuadLang.Proofs.Compiled
import QuadLang.Proofs.Shapes
import QuadLang.Proofs.Spots

namespace QuadLang

open Segment Compiler

variable {address n : Int} {c c' : Compiler} {dims : List Int} {s : Space} {type t : Ty}

section

variable {ε σ α β : Type} {I : σ → Prop} {Q : α → Prop} {R : β → Prop} {a : α} (e : ε)
  {x y : Steps ε σ α} {f : α → Steps ε σ β} {p : Prop} {s : σ}

/-- From `s` the step leads to a state with `I`, also where it stops, and what it gives has `Q`. -/
def HoldsAt (I : σ → Prop) (x : Steps ε σ α) (Q : α → Prop) (s : σ) : Prop :=
  I (x.run s).2 ∧ ∀ a, (x.run s).1 = .ok a → Q a

/-- The step keeps `I`, and what it gives has `Q`. -/
def Holds (I : σ → Prop) (x : Steps ε σ α) (Q : α → Prop) : Prop := ∀ s, I s → HoldsAt I x Q s

theorem holds_pure (ha : Q a) : Holds I (pure a : Steps ε σ α) Q := by
  intro s hs
  refine ⟨hs, fun b hb => ?_⟩
  cases hb
  exact ha

theorem holds_throw : Holds I (throw e : Steps ε σ α) Q := by
  intro s hs
  refine ⟨hs, fun b hb => ?_⟩
  cases hb

theorem holds_throw_bind (f : α → Steps ε σ β) : Holds I (throw e >>= f) R := by
  intro s hs
  refine ⟨hs, fun b hb => ?_⟩
  cases hb

theorem holds_get : Holds I (get : Steps ε σ σ) I := by
  intro s hs
  refine ⟨hs, fun b hb => ?_⟩
  cases hb
  exact hs

theorem holds_set {s' : σ} (h : I s') : Holds I (set s' : Steps ε σ PUnit) fun _ => True :=
  fun _ _ => ⟨h, fun _ _ => trivial⟩

theorem holds_modify {f : σ → σ} (h : ∀ s, I s → I (f s)) :
    Holds I (modify f : Steps ε σ PUnit) fun _ => True :=
  fun s hs => ⟨h s hs, fun _ _ => trivial⟩

theorem HoldsAt.bind (hx : HoldsAt I x Q s) (hf : ∀ a, Q a → Holds I (f a) R) :
    HoldsAt I (x >>= f) R s := by
  obtain ⟨hstate, hvalue⟩ := hx
  rcases hrun : x.run s with ⟨e | a, s₁⟩ <;> rw [hrun] at hstate hvalue
  · rw [HoldsAt, Steps.run_bind_error hrun]
    exact ⟨hstate, fun b hb => by cases hb⟩
  · rw [HoldsAt, Steps.run_bind_ok hrun]
    exact hf a (hvalue a rfl) s₁ hstate

theorem Holds.at (h : Holds I x Q) (hs : I s) : HoldsAt I x Q s := h s hs

theorem Holds.bind (hx : Holds I x Q) (hf : ∀ a, Q a → Holds I (f a) R) : Holds I (x >>= f) R :=
  fun s hs => (hx s hs).bind hf

/-- What follows a look may rely on the state that was seen. -/
theorem HoldsAt.read (hx : x.run s = (.ok a, s)) (hf : HoldsAt I (f a) R s) :
    HoldsAt I (x >>= f) R s := by
  rw [HoldsAt, Steps.run_bind_ok hx]
  exact hf

theorem HoldsAt.throw_bind (hs : I s) (e : ε) (f : α → Steps ε σ β) :
    HoldsAt I (throw e >>= f) R s :=
  ⟨hs, fun b hb => by cases hb⟩

theorem HoldsAt.ite [Decidable p] (hx : p → HoldsAt I x Q s) (hy : ¬p → HoldsAt I y Q s) :
    HoldsAt I (if p then x else y) Q s := by
  split
  · next h => exact hx h
  · next h => exact hy h

theorem holds_ite [Decidable p] (hx : p → Holds I x Q) (hy : ¬p → Holds I y Q) :
    Holds I (if p then x else y) Q :=
  fun s hs => .ite (fun h => hx h s hs) fun h => hy h s hs

end

/-! ### Ranges -/

/-- All numbers are positive. -/
def Positive (dims : List Int) : Prop := ∀ n ∈ dims, 0 < n

theorem Positive.sizeOf_pos (h : Positive dims) : 0 < Compile.sizeOf dims := by
  have hfold : ∀ (dims : List Int) (a : Int), 0 < a → Positive dims → 0 < dims.foldl (· * ·) a := by
    intro dims
    induction dims with
    | nil => exact fun a ha _ => ha
    | cons n dims ih =>
      intro a ha hdims
      exact ih _ (Int.mul_pos ha (hdims n List.mem_cons_self)) fun m hm =>
        hdims m (List.mem_cons_of_mem n hm)
  exact hfold dims 1 Int.one_pos h

theorem Positive.pair {m : Int} (hm : 0 < m) (hn : 0 < n) : Positive [m, n] := by
  intro k hk
  simp only [List.mem_cons, List.not_mem_nil, or_false] at hk
  rcases hk with rfl | rfl <;> assumption

theorem Positive.drop (h : Positive dims) (n : Nat) : Positive (dims.drop n) :=
  fun k hk => h k (List.mem_of_mem_drop hk)

/-- The address is in the range of a type in a segment. -/
def Segment.Contains (g : Segment) (t : Ty) (a : Int) : Prop :=
  ∃ s, t.scalar? = some s ∧ g.start s ≤ a ∧ a < g.stop s

/-- The address is in a range of a type. -/
def Ty.Contains (t : Ty) (a : Int) : Prop := ∃ g : Segment, g.Contains t a

/-- An address of a value of a type: pointers are kept in temporary cells of the type that they
lead to. -/
def Address.InRange (t : Ty) : Address → Prop
  | .cell n => t.Contains n
  | .pointer n => Segment.temp.Contains t n

theorem Segment.Contains.pointer (h : temp.Contains t n) : (Address.pointer n).InRange t := h

theorem Segment.Contains.cell {g : Segment} (h : g.Contains t n) :
    (Address.cell n).InRange t := ⟨g, h⟩

def Space.Sound (s : Space) : Prop :=
  ∀ (g : Segment) (t : Scalar), 0 ≤ (s.counts g).get t ∧ g.start t + (s.counts g).get t < g.stop t - 1

namespace Space

variable {s' : Space} {scope : String}

theorem sound_empty : Space.empty.Sound := by
  intro g t
  cases g <;> cases t <;> decide

theorem Sound.resetLocals (h : s.Sound) : s.resetLocals.Sound := by
  intro g t
  have hempty := sound_empty g t
  cases g
  · exact h .global t
  · exact hempty
  · exact hempty
  · exact h .constant t

theorem counts_withCounts (s : Space) (g g' : Segment) (n : Counts) :
    (s.withCounts g n).counts g' = if g' = g then n else s.counts g' := by
  cases g <;> cases g' <;> rfl

theorem counts_total (s : Space) (n : Int) : ({ s with total := n } : Space).counts = s.counts := by
  funext g
  cases g <;> rfl

/-- What taking cells does, when there is room. -/
theorem take_eq_ok {a : Int} (h : s.take scope type n = (s', .ok a)) : ∃ t, type.scalar? = some t ∧
      a = (ofScope scope).start t + ((s.counts (ofScope scope)).get t + n) - 1 ∧
      (ofScope scope).start t + (s.counts (ofScope scope)).get t + n <
        (ofScope scope).stop t - 1 ∧
      ∀ g t', (s'.counts g).get t' = if g = ofScope scope ∧ t' = t then (s.counts g).get t' + n
        else (s.counts g).get t' := by
  rw [Space.take] at h
  rcases htype : type.scalar? with _ | t
  · rw [htype] at h
    cases h
  rw [htype] at h
  dsimp only at h
  rw [counts_total] at h
  split at h
  · cases h
  · next hroom =>
    cases h
    refine ⟨t, rfl, rfl, by omega, fun g t' => ?_⟩
    rw [counts_withCounts, counts_total s (s.total + n)]
    by_cases hg : g = ofScope scope
    · subst hg
      rw [if_pos rfl, Counts.get_put]
      by_cases ht : t' = t
      · subst ht
        rw [if_pos rfl, if_pos ⟨rfl, rfl⟩]
      · rw [if_neg ht, if_neg (fun h => ht h.2)]
    · rw [if_neg hg, if_neg (fun h => hg h.1)]

theorem counts_of_take_error {fault : SpaceFault} (h : s.take scope type n = (s', .error fault)) :
    s'.counts = s.counts := by
  rw [Space.take] at h
  split at h
  · cases h
    exact counts_total _ _
  · dsimp only at h
    split at h
    · cases h
      exact counts_total _ _
    · cases h

/-- All that is in use in one space is in use in the other. -/
def Within (s s' : Space) : Prop := ∀ g t, (s.counts g).get t ≤ (s'.counts g).get t

theorem Within.refl (s : Space) : s.Within s := fun _ _ => Int.le_refl _

theorem within_take (s : Space) (scope : String) (type : Ty) (hn : 0 ≤ n) :
    s.Within (s.take scope type n).1 := by
  intro g t
  rcases htake : s.take scope type n with ⟨s', fault | a⟩
  · rw [counts_of_take_error htake]
  · obtain ⟨t₀, -, -, -, hcounts⟩ := take_eq_ok htake
    rw [hcounts]
    split <;> omega

/-- Taking cells keeps the ranges, and one cell has an address in the range of its type. -/
theorem Sound.take (h : s.Sound) (scope : String) (type : Ty) (hn : 0 ≤ n) :
    (s.take scope type n).1.Sound ∧ ∀ a, (s.take scope type n).2 = .ok a → 1 ≤ n →
      (ofScope scope).Contains type a := by
  rcases htake : s.take scope type n with ⟨s', fault | a⟩
  · refine ⟨fun g t => ?_, fun a ha => by cases ha⟩
    rw [counts_of_take_error htake]
    exact h g t
  · obtain ⟨t₀, htype, ha, hroom, hcounts⟩ := take_eq_ok htake
    obtain ⟨hlow, -⟩ := h (ofScope scope) t₀
    refine ⟨fun g t => ?_, fun b hb hone => ?_⟩
    · obtain ⟨hlow', hhigh'⟩ := h g t
      rw [hcounts]
      split
      · next hsame =>
        obtain ⟨rfl, rfl⟩ := hsame
        omega
      · exact ⟨hlow', hhigh'⟩
    · cases hb
      exact ⟨t₀, htype, by omega, by omega⟩

end Space

/-- A variable, parameter or result has an address in a range of its type, and its dimensions are
positive. -/
structure Sited (type : Ty) (address : Int) (dims : List Int) : Prop where
  address : type.Contains address
  dims : Positive dims

structure Function.InRange (f : Function) : Prop where
  table : ∀ t, f.declared = some t → ∀ x ∈ t, Sited x.2.type x.2.address x.2.dims
  params : ∀ p ∈ f.params, Sited p.type p.address p.dims
  result : ∀ a, f.returnAddress = some a → f.returnType.Contains a
  returnDims : Positive f.returnDims

/-- All that the compiler holds has an address in a range of its type. -/
structure Compiler.InRange (c : Compiler) : Prop where
  operands : ∀ o ∈ c.operands, o.address.InRange o.type ∧ Positive o.dims
  functions : ∀ x ∈ c.functions, x.2.InRange
  constants : ∀ k ∈ c.constants, Segment.constant.Contains k.type k.address
  space : c.space.Sound

theorem Compiler.inRange_start (debug : Bool) (objectName : String) :
    (start debug objectName).InRange where
  operands _ h := absurd h List.not_mem_nil
  functions _ h := absurd h List.not_mem_nil
  constants _ h := absurd h List.not_mem_nil
  space := Space.sound_empty

namespace Table

variable {α : Type} {t : Table α} {k : String} {v : α} {x : String × α}

theorem mem_of_get? (h : t.get? k = some v) : (k, v) ∈ t := Lalr.mem_of_lookup h

theorem mem_of_mem_put (h : x ∈ t.put k v) : x = (k, v) ∨ x ∈ t := by
  rw [put] at h
  split at h
  · obtain ⟨e, he, rfl⟩ := List.mem_map.mp h
    split
    · exact .inl rfl
    · exact .inr he
  · rcases List.mem_append.mp h with h | h
    · exact .inr h
    · exact .inl (List.mem_singleton.mp h)

end Table

/-- What is stored and declared stays, and no cells are given back. -/
structure Compiler.Quiet (c c' : Compiler) : Prop where
  functions : c'.functions = c.functions
  constants : c'.constants = c.constants
  currentType : c'.currentType = c.currentType
  currentName : c'.currentName = c.currentName
  globalName : c'.globalName = c.globalName
  space : c.space.Within c'.space

/-- What holds of a state holds after changes that store and declare nothing. -/
class Compiler.Stable (J : Compiler → Prop) : Prop where
  quiet : ∀ {c c' : Compiler}, J c → c.Quiet c' → J c'

/-- What holds of a state depends on the type for declarations alone. -/
class Compiler.Loose (J : Compiler → Prop) : Prop where
  loose : ∀ {c c' : Compiler}, J c → c'.currentType = c.currentType → J c'

instance {J : Compiler → Prop} [Compiler.Loose J] : Compiler.Stable J :=
  ⟨fun hJ h => Compiler.Loose.loose hJ h.currentType⟩

/-- Any state. -/
def Compiler.Any (_ : Compiler) : Prop := True

/-- The type for declarations is `t`. -/
def Compiler.Declaring (t : Ty) (c : Compiler) : Prop := c.currentType = t

instance : Compiler.Loose Compiler.Any := ⟨fun h _ => h⟩

instance (t : Ty) : Compiler.Loose (Compiler.Declaring t) := ⟨fun ht h => Eq.trans h ht⟩

/-- All is in range, and `J` holds. -/
structure Compiler.InRangeAt (J : Compiler → Prop) (c : Compiler) : Prop extends c.InRange where
  rest : J c

theorem Compiler.InRange.any (h : c.InRange) : c.InRangeAt Any := ⟨h, trivial⟩

/-- Nothing changes that is about storage. -/
structure Compiler.SameStore (c c' : Compiler) : Prop where
  operands : c'.operands = c.operands
  functions : c'.functions = c.functions
  constants : c'.constants = c.constants
  space : c'.space = c.space
  currentType : c'.currentType = c.currentType
  currentName : c'.currentName = c.currentName
  globalName : c'.globalName = c.globalName

/-- The parts of the state that are about storage. -/
def Compiler.store (c : Compiler) :=
  (c.operands, c.functions, c.constants, c.space, c.currentType, c.currentName, c.globalName)

theorem Compiler.SameStore.of_eq (h : c'.store = c.store) : c.SameStore c' := by
  simp only [store, Prod.mk.injEq] at h
  exact ⟨h.1, h.2.1, h.2.2.1, h.2.2.2.1, h.2.2.2.2.1, h.2.2.2.2.2.1, h.2.2.2.2.2.2⟩

theorem Compiler.SameStore.quiet (h : c.SameStore c') : c.Quiet c' where
  __ := h
  space := h.space ▸ .refl _

theorem Compiler.InRangeAt.same {J : Compiler → Prop} [Stable J] (hc : c.InRangeAt J)
    (h : c.SameStore c') : c'.InRangeAt J where
  operands := h.operands ▸ hc.operands
  functions := h.functions ▸ hc.functions
  constants := h.constants ▸ hc.constants
  space := h.space ▸ hc.space
  rest := Stable.quiet hc.rest h.quiet

namespace Compile

/-- The step keeps all addresses in range, and `J`, and what it gives has `Q`. -/
abbrev Ranges {α : Type} (J : Compiler → Prop) (x : Compile α) (Q : α → Prop) : Prop :=
  Holds (Compiler.InRangeAt J) x Q

/-- A step that is done for its effect. -/
abbrev Keeping {α : Type} (J : Compiler → Prop) (x : Compile α) : Prop := Ranges J x fun _ => True

/-! ### Looking things up -/

section

variable {α : Type} {Q : α → Prop} {J : Compiler → Prop} (name : Option String) (value : Literal)

theorem Reads.keeping {x : Compile α} (h : Reads x) : Keeping J x :=
  fun c hc => ⟨by rw [h.state c]; exact hc, fun _ _ => trivial⟩

theorem ranges_get : Ranges J get (InRangeAt J) := holds_get

theorem ranges_pop {stack : Compiler → List α} {put : Compiler → List α → Compiler}
    (hput : ∀ c x rest, stack c = x :: rest → c.InRangeAt J → (put c rest).InRangeAt J ∧ Q x) :
    Ranges J (pop stack put) Q := by
  refine ranges_get.bind fun c hc => ?_
  rcases hstack : stack c with _ | ⟨x, rest⟩
  · exact holds_throw _
  · obtain ⟨hnext, hx⟩ := hput c x rest hstack hc
    exact (holds_set hnext).bind fun _ _ => holds_pure hx

theorem keeping_topCall : Keeping J topCall := by
  refine ranges_get.bind fun c _ => ?_
  rcases c.calls with _ | ⟨f, rest⟩
  · exact holds_throw _
  · exact holds_pure trivial

theorem ranges_functionOf : Ranges J (functionOf name) Function.InRange := by
  refine ranges_get.bind fun c hc => ?_
  rcases hname : name.bind c.functions.get? with _ | f
  · exact holds_throw _
  · obtain ⟨n, -, hget⟩ := Option.bind_eq_some_iff.mp hname
    exact holds_pure (hc.functions (n, f) (Table.mem_of_get? hget))

theorem ranges_current : Ranges J current Function.InRange :=
  ranges_get.bind fun _ _ => ranges_functionOf _

/-- A variable as a table holds it. -/
def Known (v : Variable) : Prop := Sited v.type v.address v.dims

theorem ranges_tableOf : Ranges J (tableOf name) fun t => ∀ x ∈ t, Known x.2 := by
  refine (ranges_functionOf name).bind fun f hf => ?_
  rcases hdeclared : f.declared with _ | table
  · exact holds_throw _
  · exact holds_pure (hf.table table hdeclared)

theorem ranges_findVariable? (name : String) :
    Ranges J (findVariable? name) fun r => ∀ v, r = some v → Known v := by
  refine ranges_get.bind fun c _ => (ranges_tableOf _).bind fun table htable => ?_
  rcases hv : table.get? name with _ | v
  · refine ranges_get.bind fun _ _ => (ranges_tableOf _).bind fun table htable => holds_pure fun v hv => ?_
    exact htable _ (Table.mem_of_get? hv)
  · refine holds_pure fun v' hv' => ?_
    cases hv'
    exact htable _ (Table.mem_of_get? hv)

theorem ranges_variableOf (name : String) : Ranges J (variableOf name) Known := by
  refine (ranges_findVariable? name).bind fun r hr => ?_
  rcases r with _ | v
  · exact holds_throw _
  · exact holds_pure (hr v rfl)

theorem ranges_dimsOf : Ranges J (dimsOf name) Positive := by
  refine ranges_get.bind fun c hc => ?_
  obtain ⟨-, hvalue⟩ := ranges_variableOf (name.getD "") c hc
  rcases hrun : (variableOf (name.getD "")).run c with ⟨fault | v, c'⟩
  · exact holds_throw _
  · rw [hrun] at hvalue
    exact holds_pure (hvalue v rfl).dims

theorem ranges_paramOf (function : String) :
    Ranges J (paramOf function) fun p => Sited p.type p.address p.dims := by
  refine (ranges_functionOf _).bind fun f hf => ranges_get.bind fun c _ => ?_
  dsimp only
  generalize (if c.paramCount < 0 then c.paramCount + f.params.length else c.paramCount) = i
  rcases hp : (if i < 0 then none else f.params[i.toNat]?) with _ | p
  · exact holds_throw _
  · refine holds_pure (hf.params p ?_)
    split at hp
    · cases hp
    · exact List.mem_of_getElem? hp

/-- A constant as the list holds it. -/
def Fixed (k : Constant) : Prop := Segment.constant.Contains k.type k.address

theorem ranges_constant? (type : Ty) :
    Ranges J (constant? value type) fun r => ∀ k, r = some k → Fixed k :=
  ranges_get.bind fun _ hc => holds_pure fun k hk => hc.constants k (List.mem_of_find?_eq_some hk)

theorem ranges_constantOf (type : Ty) : Ranges J (constantOf value type) Fixed := by
  refine (ranges_constant? value type).bind fun r hr => ?_
  rcases r with _ | k
  · exact holds_throw _
  · exact holds_pure (hr k rfl)

end

/-! ### Taking and passing on -/

section

variable {α : Type} {J : Compiler → Prop} [Compiler.Stable J] (line : Unit → String)
  (scope : String)

/-- A change of other parts of the state. -/
theorem keeping_change {f : Compiler → Compiler} (h : store ∘ f = store) :
    Keeping J (modify f) :=
  holds_modify fun c hc => hc.same (.of_eq (congrFun h c))

theorem keeping_print (line : String) : Keeping J (print line) := keeping_change rfl

theorem keeping_say : Keeping J (say line) :=
  ranges_get.bind fun _ _ => holds_ite (fun _ => keeping_print _) fun _ => holds_pure trivial

theorem keeping_remark : Keeping J (remark line) := keeping_say _

theorem ranges_take {request : Space → Space × Except SpaceFault Int} {Q : Int → Prop}
    (h : ∀ s : Space, s.Sound → (request s).1.Sound ∧ s.Within (request s).1 ∧
      ∀ a, (request s).2 = .ok a → Q a) : Ranges J (take request) Q := by
  refine ranges_get.bind fun c hc => ?_
  obtain ⟨hsound, hwithin, hvalue⟩ := h c.space hc.space
  rcases hrequest : request c.space with ⟨space, fault | address⟩ <;> rw [hrequest] at hsound hvalue hwithin
  · exact (holds_set ⟨{ hc with space := hsound },
      Stable.quiet hc.rest ⟨rfl, rfl, rfl, rfl, rfl, hwithin⟩⟩).bind fun _ _ => holds_throw _
  · exact (holds_set ⟨{ hc with space := hsound },
      Stable.quiet hc.rest ⟨rfl, rfl, rfl, rfl, rfl, hwithin⟩⟩).bind fun _ _ =>
        holds_pure (hvalue address rfl)

theorem ranges_takeOne (type : Ty) :
    Ranges J (take (·.takeOne scope type)) ((ofScope scope).Contains type) :=
  ranges_take fun _ hs => ⟨(hs.take scope type Int.one_nonneg).1, Space.within_take _ _ _ Int.one_nonneg,
    fun a ha => (hs.take scope type Int.one_nonneg).2 a ha (Int.le_refl 1)⟩

theorem keeping_takeRest (type : Ty) {size : Int} (h : 0 < size) :
    Keeping J (take (·.takeRest scope type size)) :=
  ranges_take fun _ hs =>
    ⟨(hs.take scope type (by omega)).1, Space.within_take _ _ _ (by omega), fun _ _ => trivial⟩

/-- An operand as the stack holds it. -/
def Sound (o : Operand) : Prop := o.address.InRange o.type ∧ Positive o.dims

theorem ranges_popOperand : Ranges J popOperand Sound := by
  refine ranges_pop fun c o rest hstack hc => ?_
  have hall := hc.operands
  rw [hstack] at hall
  exact ⟨⟨{ hc with operands := fun o' ho => hall o' (List.mem_cons_of_mem o ho) },
    Stable.quiet hc.rest ⟨rfl, rfl, rfl, rfl, rfl, .refl _⟩⟩, hall o List.mem_cons_self⟩

/-- The top of another stack. -/
theorem keeping_pop {stack : Compiler → List α} {put : Compiler → List α → Compiler}
    (h : ∀ c s, (put c s).store = c.store) : Keeping J (pop stack put) :=
  ranges_pop fun _ _ _ _ hc => ⟨hc.same (.of_eq (h _ _)), trivial⟩

theorem keeping_popOperator : Keeping J popOperator := keeping_pop fun _ _ => rfl

theorem keeping_popJump : Keeping J popJump := keeping_pop fun _ _ => rfl

theorem keeping_popBreaks : Keeping J popBreaks := keeping_pop fun _ _ => rfl

theorem keeping_popCall : Keeping J popCall := keeping_pop fun _ _ => rfl

theorem keeping_popAccess : Keeping J popAccess := keeping_pop fun _ _ => rfl

theorem keeping_pushOperand {o : Operand} (h : Sound o) : Keeping J (pushOperand o) := by
  refine holds_modify fun c hc => ⟨{ hc with operands := fun o' ho => ?_ },
    Stable.quiet hc.rest ⟨rfl, rfl, rfl, rfl, rfl, .refl _⟩⟩
  rcases List.mem_cons.mp ho with rfl | ho
  · exact h
  · exact hc.operands o' ho

theorem keeping_pushOperator (op : String) : Keeping J (pushOperator op) := keeping_change rfl

theorem keeping_pushJump (n : Int) : Keeping J (pushJump n) := keeping_change rfl

theorem keeping_setNamed (name : Option String) : Keeping J (setNamed name) := keeping_change rfl

end

/-! ### Noting things -/

section

variable {α : Type} {Q : α → Prop} {J : Compiler → Prop} [Compiler.Loose J] {t : Ty} {x : Compile α}
  {change : Function → Function} (name : String) (function : Option String)

/-- The type for declarations may be named. -/
theorem ranges_of_type (h : ∀ t, Ranges (Declaring t) x Q) : Ranges Any x Q := by
  intro c hc
  obtain ⟨hstate, hvalue⟩ := h c.currentType c ⟨hc.toInRange, rfl⟩
  exact ⟨hstate.toInRange.any, hvalue⟩

/-- After the type for declarations has been set, it is known. -/
theorem ranges_setType_bind (h : Ranges (Declaring t) x Q) : Ranges Any (do setType t; x) Q := by
  intro c hc
  obtain ⟨hstate, hvalue⟩ := h { c with currentType := t }
    ⟨{ hc with }, rfl⟩
  exact ⟨hstate.toInRange.any, hvalue⟩

theorem keeping_changeFunction (name : Option String) (h : ∀ f, f.InRange → (change f).InRange) :
    Keeping J (changeFunction name change) := by
  refine (ranges_functionOf name).bind fun f hf => holds_modify fun c hc => ?_
  refine ⟨{ hc with functions := fun x hx => ?_ }, Loose.loose hc.rest rfl⟩
  rcases Table.mem_of_mem_put hx with rfl | hx
  · exact h f hf
  · exact hc.functions x hx

theorem keeping_changeCurrent (h : ∀ f, f.InRange → (change f).InRange) :
    Keeping J (changeCurrent change) :=
  ranges_get.bind fun _ _ => keeping_changeFunction _ h

theorem keeping_addFunction : Keeping J (addFunction name) := by
  refine ranges_get.bind fun c hc => (holds_set ?_).bind fun _ _ => keeping_say _
  refine ⟨{ hc with functions := fun x hx => ?_ }, Loose.loose hc.rest rfl⟩
  rcases Table.mem_of_mem_put hx with rfl | hx
  · exact ⟨fun _ h => by (cases h), fun _ h => absurd h List.not_mem_nil, fun _ h => by (cases h),
      fun _ h => absurd h List.not_mem_nil⟩
  · exact hc.functions x hx

theorem keeping_setGlobal : Keeping J setGlobal :=
  holds_modify fun _ hc =>
    ⟨{ hc with }, Loose.loose hc.rest rfl⟩

theorem keeping_addVariableTo (name : String) (h : type.Contains address) :
    Keeping J (addVariableTo function name type address) := by
  refine (ranges_functionOf function).bind fun f hf => ?_
  rcases hdeclared : f.declared with _ | table
  · exact holds_throw _
  · refine Holds.bind (keeping_changeFunction function ?_) fun _ _ => keeping_remark _
    refine fun g hg => { hg with table := fun table' htable x hx => ?_ }
    cases htable
    rcases Table.mem_of_mem_put hx with rfl | hx
    · exact ⟨h, fun _ hn => absurd hn List.not_mem_nil⟩
    · exact hf.table table hdeclared x hx

theorem keeping_addVariable (h : t.Contains address) :
    Keeping (Declaring t) (addVariable name address) := by
  refine ranges_get.bind fun _ _ => ranges_get.bind fun c hc => keeping_addVariableTo _ _ ?_
  rw [show c.currentType = t from hc.rest]
  exact h

theorem keeping_setDimsIn (function name : Option String) (h : Positive dims) :
    Keeping J (setDimsIn function name dims) := by
  refine (ranges_functionOf function).bind fun f hf => ?_
  rcases hdeclared : f.declared with _ | table
  · exact holds_throw _
  dsimp only
  rcases hv : name.bind table.get? with _ | v
  · exact holds_throw _
  refine Holds.bind (keeping_changeFunction function ?_) fun _ _ => ranges_get.bind fun c _ => ?_
  · refine fun g hg => { hg with table := fun table' htable x hx => ?_ }
    cases htable
    obtain ⟨n, -, hget⟩ := Option.bind_eq_some_iff.mp hv
    rcases Table.mem_of_mem_put hx with rfl | hx
    · exact ⟨(hf.table table hdeclared _ (Table.mem_of_get? hget)).address, h⟩
    · exact hf.table table hdeclared x hx
  · refine holds_ite (fun _ => ?_) fun _ => holds_pure trivial
    split
    · exact holds_throw _
    · exact keeping_remark _

theorem keeping_setDims (h : Positive dims) : Keeping J (setDims dims) :=
  ranges_get.bind fun _ _ => ranges_get.bind fun _ _ => keeping_setDimsIn _ _ h

theorem keeping_addParam (h : t.Contains address) :
    Keeping (Declaring t) (addParam address) := by
  refine ranges_get.bind fun c hc => keeping_changeCurrent fun f hf =>
    { hf with params := fun p hp => ?_ }
  rcases List.mem_append.mp hp with hp | hp
  · exact hf.params p hp
  · rw [List.mem_singleton.mp hp, show c.currentType = t from hc.rest]
    exact ⟨h, fun _ hn => absurd hn List.not_mem_nil⟩

theorem keeping_setParamDimsIn (h : Positive dims) : Keeping J (setParamDimsIn function dims) := by
  refine (ranges_functionOf function).bind fun f hf => ?_
  rcases hparams : f.params.reverse with _ | ⟨p, rest⟩
  · exact holds_throw _
  have hmem : ∀ q ∈ p :: rest, q ∈ f.params := fun q hq => List.mem_reverse.mp (hparams ▸ hq)
  refine keeping_changeFunction function fun g hg => { hg with params := fun q hq => ?_ }
  rcases List.mem_cons.mp (List.mem_reverse.mp hq) with rfl | hq
  · exact ⟨(hf.params p (hmem p List.mem_cons_self)).address, h⟩
  · exact hf.params q (hmem q (List.mem_cons_of_mem p hq))

theorem keeping_setParamDims (h : Positive dims) : Keeping J (setParamDims dims) :=
  ranges_get.bind fun _ _ => keeping_setParamDimsIn _ h

theorem keeping_openTable : Keeping J openTable := by
  refine keeping_changeCurrent fun f hf => { hf with table := fun table htable x hx => ?_ }
  rcases hdeclared : f.declared with _ | table' <;> simp only [hdeclared] at htable <;> cases htable
  · exact absurd hx List.not_mem_nil
  · exact hf.table _ hdeclared x hx

theorem keeping_closeTable : Keeping J closeTable := by
  refine Holds.bind (keeping_changeCurrent ?_) fun _ _ => holds_modify fun _ hc =>
    ⟨{ hc with }, Loose.loose hc.rest rfl⟩
  refine fun f hf => { hf with table := fun table htable => ?_ }
  cases htable

theorem keeping_addConstant (value : Literal) (h : Segment.constant.Contains type address) :
    Keeping J (addConstant value type address) := by
  refine (holds_modify fun c hc => ?_).bind fun _ _ => keeping_remark _
  dsimp only
  split
  · refine ⟨{ hc with constants := fun k hk => ?_ }, Loose.loose hc.rest rfl⟩
    obtain ⟨k', hk', rfl⟩ := List.mem_map.mp hk
    split
    · exact h
    · exact hc.constants k' hk'
  · refine ⟨{ hc with constants := fun k hk => ?_ }, Loose.loose hc.rest rfl⟩
    rcases List.mem_append.mp hk with hk | hk
    · exact hc.constants k hk
    · rw [List.mem_singleton.mp hk]
      exact h

theorem ranges_constant (value : Literal) (type : Ty) : Ranges J (constant value type) Fixed := by
  refine (ranges_constant? value type).bind fun r _ => ?_
  dsimp only
  split
  · exact (ranges_takeOne "cte" type).bind fun a ha => (keeping_addConstant value ha).bind fun _ _ =>
      ranges_constantOf value type
  · exact ranges_constantOf value type

theorem ranges_declared : Ranges (Declaring t) (declared name t) Known := by
  refine (reads_variableExists name).keeping.bind fun b _ => ?_
  dsimp only
  split
  · exact ranges_get.bind fun c _ => (ranges_takeOne _ t).bind fun a ha =>
      (keeping_addVariable name ⟨_, ha⟩).bind fun _ _ => ranges_variableOf name
  · exact ranges_variableOf name

end

end Compile

end QuadLang
