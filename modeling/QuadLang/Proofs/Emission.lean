/-
The quads of expressions.

Operators wait on a stack until an operand is complete, and the mark of a level makes
the quad of the operator on top when it is one of the level.  So the quads of a formula
are those of its tree, operands first, whatever waited on the stack before:

* `Tree.quads`, `Tree.address`, `Tree.slots` — the quads of a tree, where its value is
  put, and the temporary cells in use afterwards;
* `Formula.emits` — compiling a well-typed formula makes these quads, puts one operand
  on the stack and leaves the operators as they were, unless a segment is full.

Design notes: the quads are given by the addresses of leaves in the state after
compiling, since constants get theirs on the way.  All operands have the same
dimensions; there are none for scalars.
-/
import QuadLang.Proofs.Phrases

namespace QuadLang

open Steps

variable {n : Nat} {o : Operator} {ops : List String} {rest : List Operand} {value : Literal}
  {x : Leaf} {w : String} {t : Tree}

/-! ### Well-typed trees and their quads -/

namespace Operator

/-- The type of the results of an operator between integers or truth values. -/
def result : Operator → Scalar
  | .add | .sub | .mul | .div | .mod => .int
  | _ => .bool

end Operator

namespace Tree

def leaves : Tree → List Leaf
  | .leaf x => [x]
  | .op _ l r => l.leaves ++ r.leaves

/-- The type of a tree of exact operations, given the types of its leaves. -/
def type? (γ : Leaf → Option Scalar) : Tree → Option Scalar
  | .leaf x => γ x
  | .op o l r =>
    match l.type? γ, r.type? γ with
    | some a, some b => if o = .div then none else a.combine b o.word
    | _, _ => none

/-- The temporary cells in use after the quads of a tree. -/
def slots : Tree → Counts → Counts
  | .leaf _, k => k
  | .op o l r, k =>
    let k := r.slots (l.slots k)
    k.put o.result (k.get o.result + 1)

/-- Where the value of a tree is put, given the addresses of its leaves. -/
def address (at_ : Leaf → Int) : Tree → Counts → Int
  | .leaf x, _ => at_ x
  | .op o l r, k => Segment.temp.start o.result + (r.slots (l.slots k)).get o.result

end Tree

/-- The quad that announces an array. -/
def shapeQuads : List Int → List Quad
  | [n] => [[.text "MAT", .number 1, .number n, .none]]
  | [m, n] => [[.text "MAT", .number m, .number n, .none]]
  | _ => []

/-- The quads of an operation on all cells of operands of the dimensions. -/
def Operator.quads (o : Operator) (dims : List Int) (left right result : Int) : List Quad :=
  shapeQuads dims ++ [[.text o.word, .number left, .number right, .number result]]

/-- The quads of a tree: those of its operands, and then its own. -/
def Tree.quads (at_ : Leaf → Int) (dims : List Int) : Tree → Counts → List Quad
  | .leaf _, _ => []
  | .op o l r, k =>
    l.quads at_ dims k ++ r.quads at_ dims (l.slots k) ++ o.quads dims (l.address at_ k)
      (r.address at_ (l.slots k)) ((Tree.op o l r).address at_ k)

namespace Compiler

/-- The variables of a function, when it has a table. -/
def table? (c : Compiler) (name : Option String) : Option (Table Variable) :=
  (name.bind c.functions.get?).bind (·.declared)

/-- The variable of a name: one of the function at work, or a global one. -/
def lookup? (c : Compiler) (name : String) : Option Variable :=
  match c.table? c.currentName with
  | none => none
  | some t =>
    match t.get? name with
    | some v => some v
    | none => (c.table? c.globalName).bind (·.get? name)

def constant? (c : Compiler) (value : Literal) : Option Constant :=
  c.constants.find? fun k =>
    k.value.same value && k.type.name == (Compile.typeOfLiteral value).name

/-- The address of a leaf, when it has one. -/
def address? (c : Compiler) : Leaf → Option Int
  | .var name => (c.lookup? name).map (·.address)
  | .int i _ => (c.constant? (.int i)).map (·.address)
  | .truth b => (c.constant? (.truth b)).map (·.address)

/-- The address of a leaf that has one. -/
def addressOf (c : Compiler) (x : Leaf) : Int := (c.address? x).getD 0

/-- The type of a leaf, when it is an integer or a truth value of the dimensions. -/
def leafType? (c : Compiler) (dims : List Int) : Leaf → Option Scalar
  | .var name =>
    match c.lookup? name with
    | some v =>
      if v.dims = dims then
        if v.type = .of .int then some .int else if v.type = .of .bool then some .bool else none
      else none
    | none => none
  | .int _ _ => if dims = [] then some .int else none
  | .truth _ => if dims = [] then some .bool else none

/-- Every constant has the type of its value. -/
def ConstantsTyped (c : Compiler) : Prop := ∀ k ∈ c.constants, k.type = Compile.typeOfLiteral k.value

/-- No operator up to a level waits on top of the stack. -/
def Clear (c : Compiler) (n : Nat) : Prop :=
  ∀ w ∈ c.operators.head?, ∀ k, k ≤ n → w ∉ (Level.of k).words

/-- What compiling an expression never changes: all but the stacks of operands and
operators, the quads, temporary cells and constants, and of these the constants that there
were. -/
structure Grows (c c' : Compiler) : Prop where
  functions : c'.functions = c.functions
  globalName : c'.globalName = c.globalName
  currentName : c'.currentName = c.currentName
  jumps : c'.jumps = c.jumps
  breaks : c'.breaks = c.breaks
  calls : c'.calls = c.calls
  accesses : c'.accesses = c.accesses
  globals : c'.space.globals = c.space.globals
  locals : c'.space.locals = c.space.locals
  constants : ∃ ks, c'.constants = c.constants ++ ks
  typed : c.ConstantsTyped → c'.ConstantsTyped

end Compiler

/-- Compiling the tree `t`, of type `type`, leads from `c` to `c'`. -/
structure Emits (dims : List Int) (t : Tree) (type : Scalar) (c c' : Compiler) : Prop where
  grows : c.Grows c'
  located : ∀ x ∈ t.leaves, (c'.address? x).isSome
  operators : c'.operators = c.operators
  operands : ∃ name, c'.operands =
    ⟨name, .cell (t.address c'.addressOf c.space.temps), .of type, dims⟩ :: c.operands
  quads : c'.quads = c.quads ++ (t.quads c'.addressOf dims c.space.temps).toArray
  temps : c'.space.temps = t.slots c.space.temps

/-! ### Growing -/

namespace Compiler.Grows

variable {c c' c'' : Compiler}

theorem refl (c : Compiler) : c.Grows c :=
  ⟨rfl, rfl, rfl, rfl, rfl, rfl, rfl, rfl, rfl, ⟨[], by simp⟩, id⟩

theorem trans (h : c.Grows c') (h' : c'.Grows c'') : c.Grows c'' where
  functions := h'.functions.trans h.functions
  globalName := h'.globalName.trans h.globalName
  currentName := h'.currentName.trans h.currentName
  jumps := h'.jumps.trans h.jumps
  breaks := h'.breaks.trans h.breaks
  calls := h'.calls.trans h.calls
  accesses := h'.accesses.trans h.accesses
  globals := h'.globals.trans h.globals
  locals := h'.locals.trans h.locals
  constants := by
    obtain ⟨ks, hks⟩ := h.constants
    obtain ⟨ks', hks'⟩ := h'.constants
    exact ⟨ks ++ ks', by rw [hks', hks, List.append_assoc]⟩
  typed := h'.typed ∘ h.typed

/-- The stacks do not matter. -/
theorem withStacks (h : c.Grows c') (ops ops' : List String) (xs xs' : List Operand) :
    Grows { c with operators := ops, operands := xs } { c' with operators := ops', operands := xs' } :=
  { h with }

theorem lookup? (h : c.Grows c') (name : String) : c'.lookup? name = c.lookup? name := by
  simp only [Compiler.lookup?, Compiler.table?, h.functions, h.globalName, h.currentName]

theorem leafType? (h : c.Grows c') (dims : List Int) : c'.leafType? dims = c.leafType? dims := by
  funext x
  cases x <;> simp only [Compiler.leafType?, h.lookup?]

theorem constant? (h : c.Grows c') (hs : (c.constant? value).isSome) :
    c'.constant? value = c.constant? value := by
  obtain ⟨ks, hks⟩ := h.constants
  obtain ⟨k, hk⟩ := Option.isSome_iff_exists.mp hs
  rw [Compiler.constant?] at hk ⊢
  rw [hks, List.find?_append, hk]
  exact hk.symm

/-- A leaf that has an address keeps it. -/
theorem address? (h : c.Grows c') (hs : (c.address? x).isSome) :
    c'.address? x = c.address? x := by
  cases x with
  | var name => simp only [Compiler.address?, h.lookup?]
  | int i _ | truth b =>
    simp only [Compiler.address?, Option.isSome_map] at hs ⊢
    rw [h.constant? hs]

end Compiler.Grows

theorem Tree.quads_congr {f g : Leaf → Int} (dims : List Int) (h : ∀ x ∈ t.leaves, f x = g x)
    (k : Counts) : t.quads f dims k = t.quads g dims k ∧ t.address f k = t.address g k := by
  induction t generalizing k with
  | leaf x => exact ⟨rfl, h x (List.mem_singleton_self x)⟩
  | op o l r ihl ihr =>
    have hl := ihl (fun x hx => h x (List.mem_append_left _ hx))
    have hr := ihr (fun x hx => h x (List.mem_append_right _ hx))
    exact ⟨by simp only [Tree.quads, hl, hr]; rfl, rfl⟩

/-! ### The parts of making quads -/

namespace Compile

variable {dims : List Int} {c : Compiler} {t : Scalar} {waiting : List String}

theorem run_say (line : Unit → String) (c : Compiler) :
    ∃ printed, (say line).run c = (.ok (), { c with printed }) := by
  by_cases hd : c.debug
  · exact ⟨(line () ++ "\n") :: c.printed, by
      show (if c.debug = true then print _ else pure () : Compile Unit).run c = _
      rw [if_pos hd]
      rfl⟩
  · exact ⟨c.printed, by
      show (if c.debug = true then print _ else pure () : Compile Unit).run c = _
      rw [if_neg hd]
      rfl⟩

theorem run_emit (op : String) (a b r : Field) (c : Compiler) :
    ∃ printed, (emit op a b r).run c =
      (.ok (), { c with printed, quads := c.quads.push [.text op, a, b, r] }) := by
  rw [emit, addQuad, run_bind_ok (run_get c)]
  by_cases hd : c.debug
  · rw [if_pos hd]
    exact ⟨_, rfl⟩
  · rw [if_neg hd]
    exact ⟨_, rfl⟩

section

variable {u : Unit} {c' : Compiler}

theorem say_eq_ok {line : Unit → String} (h : (say line).run c = (.ok u, c')) :
    ∃ printed, c' = { c with printed } := by
  obtain ⟨printed, hrun⟩ := run_say line c
  exact ⟨printed, congrArg Prod.snd (h.symm.trans hrun)⟩

theorem emit_eq_ok {op : String} {a b r : Field} (h : (emit op a b r).run c = (.ok u, c')) :
    ∃ printed, c' = { c with printed, quads := c.quads.push [.text op, a, b, r] } := by
  obtain ⟨printed, hrun⟩ := run_emit op a b r c
  exact ⟨printed, congrArg Prod.snd (h.symm.trans hrun)⟩

theorem addFunction_eq_ok {name : String} (h : (addFunction name).run c = (.ok u, c')) :
    ∃ printed, c' = { c with
      printed, currentName := some name
      functions := c.functions.put name {
        name, returnType := c.currentType, returnAddress := none, returnDims := []
        start := none, declared := none, params := [], era := [] } } := by
  rw [addFunction, run_bind_ok (run_get c)] at h
  obtain ⟨_, c₁, hset, hsay⟩ := bind_eq_ok h
  cases hset
  exact say_eq_ok hsay

end

theorem run_addShapeOf (h : dims.length ≤ 2) (c : Compiler) : ∃ printed, (addShapeOf dims).run c =
      (.ok (), { c with printed, quads := c.quads ++ (shapeQuads dims).toArray }) := by
  have hshape : ∀ rows cols, ∃ printed, (do
      remark fun _ => "! Preparing for matrix of [" ++ toString rows ++ "][" ++ toString cols ++ "]"
      emit "MAT" (.number rows) (.number cols) .none : Compile Unit).run c = (.ok (), { c with
        printed, quads := c.quads ++ [[.text "MAT", .number rows, .number cols, .none]].toArray }) := by
    intro rows cols
    obtain ⟨printed, hs⟩ := run_say (fun _ => "\t\t\t\t\t" ++ ("! Preparing for matrix of [" ++
      toString rows ++ "][" ++ toString cols ++ "]")) c
    obtain ⟨printed', he⟩ := run_emit "MAT" (.number rows) (.number cols) .none { c with printed }
    exact ⟨printed', by rw [remark, run_bind_ok hs, he]; simp⟩
  match dims, h with
  | [], _ => exact ⟨c.printed, by simp [addShapeOf, shapeQuads]⟩
  | [n], _ => exact hshape 1 n
  | [m, n], _ => exact hshape m n

/-- A cell is taken, unless its range is full. -/
theorem run_takeOne (scope : String) (seg : Segment) (hseg : Segment.ofScope scope = seg) (t : Scalar)
    (c : Compiler) :
    (∃ c', (take (·.takeOne scope (.of t))).run c = (.error (.space (.full t.name scope)), c')) ∨
    ∃ space, (take (·.takeOne scope (.of t))).run c =
        (.ok (seg.start t + (c.space.counts seg).get t), { c with space }) ∧
      space.counts seg = (c.space.counts seg).put t ((c.space.counts seg).get t + 1) ∧
      ∀ s, s ≠ seg → space.counts s = c.space.counts s := by
  have hcounts : ∀ s, ({ c.space with total := c.space.total + 1 } : Space).counts s
      = c.space.counts s := by intro s; cases s <;> rfl
  by_cases hfull : seg.start t + (c.space.counts seg).get t + 1 ≥ seg.stop t - 1
  · left
    refine ⟨{ c with space := { c.space with total := c.space.total + 1 } }, ?_⟩
    have ht : c.space.takeOne scope (.of t)
        = ({ c.space with total := c.space.total + 1 }, .error (.full t.name scope)) := by
      simp only [Space.takeOne, Space.take, Ty.scalar?, hseg, hcounts]
      rw [if_pos hfull]
      rfl
    rw [take, run_bind_ok (run_get c)]
    simp only [ht]
    rfl
  · right
    let space := Space.withCounts { c.space with total := c.space.total + 1 } seg
      ((c.space.counts seg).put t ((c.space.counts seg).get t + 1))
    have ht : c.space.takeOne scope (.of t)
        = (space, .ok (seg.start t + (c.space.counts seg).get t)) := by
      simp only [Space.takeOne, Space.take, Ty.scalar?, hseg, hcounts]
      rw [if_neg hfull]
      congr 2
      omega
    refine ⟨space, ?_, ?_, ?_⟩
    · rw [take, run_bind_ok (run_get c)]
      simp only [ht]
      rfl
    · cases seg <;> rfl
    · intro s hs
      cases s <;> cases seg <;> first | exact absurd rfl hs | rfl

theorem run_tableOf {name : Option String} {t : Table Variable} (h : c.table? name = some t) :
    (tableOf name).run c = (.ok t, c) := by
  obtain ⟨f, hf, ht⟩ := Option.bind_eq_some_iff.mp h
  have hrun : (functionOf name).run c = (.ok f, c) := by
    rw [functionOf, run_bind_ok (run_get c)]
    simp only [hf]
    rfl
  rw [tableOf, run_bind_ok hrun]
  simp only [ht]
  rfl

theorem run_variableOf {name : String} {v : Variable} (h : c.lookup? name = some v) :
    (variableOf name).run c = (.ok v, c) := by
  have hfind : (findVariable? name).run c = (.ok (some v), c) := by
    rw [Compiler.lookup?] at h
    rcases ht : c.table? c.currentName with _ | t
    · simp only [ht, reduceCtorEq] at h
    · rw [findVariable?, run_bind_ok (run_get c), run_bind_ok (run_tableOf ht)]
      rcases hv : t.get? name with _ | v'
      · simp only [ht, hv] at h
        obtain ⟨t', ht', hv'⟩ := Option.bind_eq_some_iff.mp h
        show ((do return (← tableOf (← get).globalName).get? name) : Compile _).run c = _
        rw [run_bind_ok (run_get c), run_bind_ok (run_tableOf ht'), hv']
        rfl
      · simp only [ht, hv] at h
        cases h
        rfl
  rw [variableOf, run_bind_ok hfind]
  rfl

/-- A constant that the table does not have is appended. -/
theorem run_addConstant (h : c.constant? value = none) (address : Int) :
    ∃ printed, (addConstant value (typeOfLiteral value) address).run c =
      (.ok (), { c with
        constants := c.constants ++ [⟨value, typeOfLiteral value, address⟩], printed }) := by
  obtain ⟨printed, hs⟩ := run_say (fun _ => "\t\t\t\t\t" ++ ("> CTE: " ++ value.plainText ++ " - " ++
    (typeOfLiteral value).name ++ " -> " ++ toString address))
    { c with constants := c.constants ++ [⟨value, typeOfLiteral value, address⟩] }
  have hany : c.constants.any (fun k =>
      k.value.same value && k.type.name == (typeOfLiteral value).name) = false := by
    rw [Compiler.constant?, List.find?_eq_none] at h
    rw [List.any_eq_false]
    exact h
  refine ⟨printed, ?_⟩
  rw [addConstant, run_bind_ok (run_modify _ c)]
  simp only [hany, Bool.false_eq_true, if_false]
  exact hs

/-- The constant for a value is found, or made unless its range is full. -/
theorem run_constant (hsame : value.same value = true) (c : Compiler) :
    (∃ type c', (constant value (typeOfLiteral value)).run c
      = (.error (.space (.full type "cte")), c')) ∨
    ∃ k c', (constant value (typeOfLiteral value)).run c = (.ok k, c') ∧
      c'.constant? value = some k ∧ c.Grows c' ∧ c'.operators = c.operators ∧
      c'.operands = c.operands ∧ c'.quads = c.quads ∧ c'.space.temps = c.space.temps := by
  rw [constant]
  have hrun : ∀ c : Compiler, (constant? value (typeOfLiteral value)).run c
      = (.ok (c.constant? value), c) := fun _ => rfl
  have hof : ∀ {c : Compiler} {k : Constant}, c.constant? value = some k →
      (constantOf value (typeOfLiteral value)).run c = (.ok k, c) := by
    intro c k hk
    rw [constantOf, run_bind_ok (hrun c), hk]
    rfl
  rcases hfound : c.constant? value with _ | k
  · obtain ⟨t, ht⟩ : ∃ t, typeOfLiteral value = .of t := by cases value <;> exact ⟨_, rfl⟩
    rw [run_bind_ok (hrun c), hfound]
    simp only [Option.isNone_none, if_true]
    rcases run_takeOne "cte" .constant rfl t c with ⟨c', hfull⟩ | ⟨space, htake, -, hother⟩
    · left
      rw [← ht] at hfull
      exact ⟨_, c', run_bind_error hfull⟩
    · right
      rw [← ht] at htake
      rw [run_bind_ok htake]
      let k : Constant := ⟨value, typeOfLiteral value,
        Segment.constant.start t + (c.space.counts .constant).get t⟩
      obtain ⟨printed, hadd⟩ := run_addConstant (c := { c with space := space }) hfound k.address
      have hk : ({ c with constants := c.constants ++ [k], space := space, printed := printed } :
          Compiler).constant? value = some k := by
        rw [Compiler.constant?] at hfound ⊢
        simp [List.find?_append, hfound, hsame, k]
      refine ⟨k, _, (run_bind_ok hadd).trans (hof hk), hk, ⟨rfl, rfl, rfl, rfl, rfl, rfl, rfl,
        hother .global (by decide), hother .local (by decide), ⟨[k], rfl⟩, fun htyped k' hk' => ?_⟩,
        rfl, rfl, rfl, hother .temp (by decide)⟩
      rcases List.mem_append.mp hk' with hk' | hk'
      · exact htyped k' hk'
      · rw [List.mem_singleton.mp hk']
  · right
    refine ⟨k, c, ?_, hfound, .refl c, rfl, rfl, rfl, rfl⟩
    rw [run_bind_ok (hrun c), hfound]
    exact hof hfound

/-- Nothing is done for an operator of another level. -/
theorem run_addOperation_of_notMem (h : ∀ w ∈ c.operators.head?, w ∉ ops) :
    (addOperation ops).run c = (.ok (), c) := by
  rw [addOperation, run_bind_ok (run_get c)]
  rcases hops : c.operators with _ | ⟨w, rest⟩
  · rfl
  · have hw : ops.contains w = false := by
      rw [hops] at h
      simpa using h w rfl
    simp only [hw, Bool.not_false, if_true]
    rfl

theorem run_popOperand {x : Operand} (h : c.operands = x :: rest) :
    popOperand.run c = (.ok x, { c with operands := rest }) := by
  rw [popOperand, pop, run_bind_ok (run_get c), h]
  rfl

theorem run_popOperator {rest : List String} (h : c.operators = w :: rest) :
    popOperator.run c = (.ok w, { c with operators := rest }) := by
  rw [popOperator, pop, run_bind_ok (run_get c), h]
  rfl

theorem sameShape_self (h : dims.length ≤ 2) : sameShape dims dims = true := by
  match dims, h with
  | [], _ => rfl
  | [n], _ => simp [sameShape]
  | [m, n], _ => simp [sameShape]

/-- The first part of making a quad from two operands of the same dimensions: they and the
operator are taken from the stacks. -/
theorem run_operands {α : Type} {x y : Literal} {a b : Int} {ta tb : Ty} {op : String}
    (hops : c.operators = op :: waiting)
    (hargs : c.operands = ⟨y, .cell b, tb, dims⟩ :: ⟨x, .cell a, ta, dims⟩ :: rest)
    (ht : ta.combine tb op = some t) (hdims : dims.length ≤ 2)
    (f : Operand → Operand → String → Scalar → Compile α) : ∃ printed, (do
        let right ← popOperand
        let left ← popOperand
        let op ← popOperator
        let type ← resultType left right op
        checkShapes left right
        addShapeOf left.dims
        f left right op type : Compile α).run c
      = (f ⟨x, .cell a, ta, dims⟩ ⟨y, .cell b, tb, dims⟩ op t).run { c with
        operands := rest
        operators := waiting
        quads := c.quads ++ (shapeQuads dims).toArray
        printed } := by
  let c₁ : Compiler := { c with operands := rest, operators := waiting }
  have hleft : popOperand.run { c with operands := ⟨x, .cell a, ta, dims⟩ :: rest }
      = (.ok ⟨x, .cell a, ta, dims⟩, { c with operands := rest }) := run_popOperand rfl
  have hoperator : popOperator.run { c with operands := rest } = (.ok op, c₁) :=
    run_popOperator hops
  have hresult : (resultType ⟨x, .cell a, ta, dims⟩ ⟨y, .cell b, tb, dims⟩ op).run c₁
      = (.ok t, c₁) := by
    simp only [resultType, ht]
    rfl
  have hcheck : (checkShapes ⟨x, .cell a, ta, dims⟩ ⟨y, .cell b, tb, dims⟩).run c₁
      = (.ok (), c₁) := by
    simp only [checkShapes, sameShape_self hdims]
    rfl
  obtain ⟨printed, hshape⟩ := run_addShapeOf hdims c₁
  refine ⟨printed, ?_⟩
  rw [run_bind_ok (run_popOperand hargs), run_bind_ok hleft, run_bind_ok hoperator,
    run_bind_ok hresult, run_bind_ok hcheck, run_bind_ok hshape]

/-- The last part of an operation: its result goes to a new temporary cell. -/
def addResult (word : String) (a b : Int) (t : Scalar) (dims : List Int) : Compile Unit := do
  let r ← take (·.takeOne "temp" (.of t))
  emit word (.number a) (.number b) (.number r)
  pushTemp (.cell r) (.of t) dims
  remarkTemp t r
  countTemp

theorem run_pushTemp (address : Address) (type : Ty) (dims : List Int) (c : Compiler) :
    (pushTemp address type dims).run c = (.ok (), { c with
      operands := ⟨.text ("t" ++ toString c.tempCount), address, type, dims⟩ :: c.operands }) := by
  rw [pushTemp, run_bind_ok (run_get c), pushOperand, run_modify]

theorem run_remarkTemp (t : Scalar) (r : Int) (c : Compiler) :
    ∃ printed, (remarkTemp t r).run c = (.ok (), { c with printed }) := by
  obtain ⟨printed, hsay⟩ := run_say (fun _ => "\t\t\t\t\t" ++ ("> TMP: t" ++ toString c.tempCount ++
    " - " ++ t.name ++ " -> " ++ toString r)) c
  refine ⟨printed, ?_⟩
  rw [remarkTemp, run_bind_ok (run_get c), remark, hsay]

theorem run_addResult (word : String) (a b : Int) (t : Scalar) (dims : List Int) (c : Compiler) :
    (∃ c', (addResult word a b t dims).run c = (.error (.space (.full t.name "temp")), c')) ∨
    ∃ space printed name tempCount, (addResult word a b t dims).run c = (.ok (), { c with
        operands := ⟨name, .cell (Segment.temp.start t + c.space.temps.get t), .of t, dims⟩ ::
          c.operands
        quads := c.quads ++ #[[.text word, .number a, .number b,
          .number (Segment.temp.start t + c.space.temps.get t)]]
        space
        tempCount
        printed }) ∧
      space.temps = c.space.temps.put t (c.space.temps.get t + 1) ∧
      space.globals = c.space.globals ∧ space.locals = c.space.locals := by
  rw [addResult]
  rcases run_takeOne "temp" .temp rfl t c with ⟨c', hfull⟩ | ⟨space, htake, htemps, hother⟩
  · exact .inl ⟨c', run_bind_error hfull⟩
  · right
    simp only [Space.counts] at htake htemps
    obtain ⟨p₁, hemit⟩ := run_emit word (.number a) (.number b)
      (.number (Segment.temp.start t + c.space.temps.get t)) { c with space }
    obtain ⟨p₂, hremark⟩ := run_remarkTemp t (Segment.temp.start t + c.space.temps.get t) { c with
      space
      printed := p₁
      quads := c.quads.push [.text word, .number a, .number b,
        .number (Segment.temp.start t + c.space.temps.get t)]
      operands := ⟨.text ("t" ++ toString c.tempCount),
        .cell (Segment.temp.start t + c.space.temps.get t), .of t, dims⟩ :: c.operands }
    refine ⟨space, p₂, .text ("t" ++ toString c.tempCount), c.tempCount + 1, ?_, htemps,
      hother .global (by decide), hother .local (by decide)⟩
    rw [run_bind_ok htake, run_bind_ok hemit, run_bind_ok (run_pushTemp _ _ _ _),
      run_bind_ok hremark, countTemp, run_modify, Array.push_eq_append]

/-- The operator on top takes the two top operands, unless no temporary cell is left. -/
theorem run_addOperation {x y : Literal} {a b : Int} {ta tb : Ty} (ho : o.word ∈ ops)
    (hops : c.operators = o.word :: waiting)
    (hargs : c.operands = ⟨y, .cell b, tb, dims⟩ :: ⟨x, .cell a, ta, dims⟩ :: rest)
    (ht : ta.combine tb o.word = some t) (hdims : dims.length ≤ 2) :
    (∃ c', (addOperation ops).run c = (.error (.space (.full t.name "temp")), c')) ∨
    ∃ name c', (addOperation ops).run c = (.ok (), c') ∧ c.Grows c' ∧ c'.operators = waiting ∧
      c'.operands = ⟨name, .cell (Segment.temp.start t + c.space.temps.get t), .of t, dims⟩ :: rest ∧
      c'.quads = c.quads ++
        (o.quads dims a b (Segment.temp.start t + c.space.temps.get t)).toArray ∧
      c'.space.temps = c.space.temps.put t (c.space.temps.get t + 1) := by
  have hmem : ops.contains o.word = true := by simpa using ho
  have hdot : (o.word == ".") = false := by cases o <;> decide
  obtain ⟨p, hoperands⟩ := run_operands hops hargs ht hdims fun left right op type => do
    let result ← take (·.takeOne "temp" (.of type))
    emit op (.address left.address) (.address right.address) (.number result)
    pushTemp (.cell result) (.of type) left.dims
    remarkTemp type result
    countTemp
  let c₂ : Compiler := { c with
    operands := rest
    operators := waiting
    quads := c.quads ++ (shapeQuads dims).toArray
    printed := p }
  have hbegin : (addOperation ops).run c = (addResult o.word a b t dims).run c₂ := by
    rw [addOperation, run_bind_ok (run_get c), hops]
    simp only [hmem, hdot, Bool.not_true, Bool.false_eq_true, if_false]
    exact hoperands
  rw [hbegin]
  rcases run_addResult o.word a b t dims c₂ with
    hfull | ⟨space, printed, name, n, hrun, htemps, hglobals, hlocals⟩
  · exact .inl hfull
  · refine .inr ⟨name, _, hrun, ⟨rfl, rfl, rfl, rfl, rfl, rfl, rfl, hglobals, hlocals,
      ⟨[], (List.append_nil _).symm⟩, id⟩, rfl, rfl, ?_, htemps⟩
    simp only [c₂, Operator.quads, ← List.append_toArray, Array.append_assoc]

end Compile

/-! ### Types of trees -/

theorem Scalar.name_inj {a b : Scalar} (h : (Ty.of a).name = (Ty.of b).name) : a = b := by
  cases a <;> cases b <;> first | rfl | exact absurd h (by decide)

namespace Operator

/-- The operands of an operator are all integers or all truth values. -/
theorem of_combine (ho : o ≠ .div) {a b t : Scalar} (ha : a = .int ∨ a = .bool)
    (hb : b = .int ∨ b = .bool) (h : a.combine b o.word = some t) : t = o.result ∧
      (a = .int ∧ b = .int ∧ o ≠ .and ∧ o ≠ .or ∨
        a = .bool ∧ b = .bool ∧ (o = .and ∨ o = .or ∨ o = .eq ∨ o = .ne)) := by
  rcases ha with rfl | rfl <;> rcases hb with rfl | rfl <;> cases o <;>
    simp_all [Scalar.combine, word, sign, result, orderings, equalities, Scalar.isNumeric]

/-- The level of an operator is the one that has its word. -/
theorem mem_words_iff (o : Operator) : ∀ k ≤ 4, o.word ∈ (Level.of k).words ↔ o.level = k := by
  cases o <;> decide

end Operator

/-- Parentheses and assignments are no operators of a level. -/
theorem Level.notMem_words (hw : w = "(" ∨ w = "=") : ∀ k ≤ 4, w ∉ (Level.of k).words := by
  rcases hw with rfl | rfl <;> decide

namespace Tree

variable {γ : Leaf → Option Scalar}

theorem type?_op_eq_some {l r : Tree} {t : Scalar} (h : (Tree.op o l r).type? γ = some t) :
    o ≠ .div ∧
      ∃ a b, l.type? γ = some a ∧ r.type? γ = some b ∧ a.combine b o.word = some t := by
  rw [type?] at h
  split at h
  · next a b ha hb =>
    split at h
    · cases h
    · next ho => exact ⟨ho, a, b, ha, hb, h⟩
  · cases h

/-- A tree of integers and truth values is one of them. -/
theorem type?_cases (hγ : ∀ x s, γ x = some s → s = .int ∨ s = .bool) {s : Scalar}
    (h : t.type? γ = some s) : s = .int ∨ s = .bool := by
  induction t generalizing s with
  | leaf x => exact hγ x s h
  | op o l r ihl ihr =>
    obtain ⟨ho, a, b, ha, hb, hab⟩ := type?_op_eq_some h
    rw [(Operator.of_combine ho (ihl ha) (ihr hb) hab).1]
    cases o <;> simp [Operator.result]

end Tree

theorem Compiler.leafType?_cases {c : Compiler} {dims : List Int} (x : Leaf) (s : Scalar)
    (h : c.leafType? dims x = some s) : s = .int ∨ s = .bool := by
  unfold Compiler.leafType? at h
  grind

/-- What follows an operand is well typed only when the operand is. -/
theorem Rest.type?_of_tree {γ : Leaf → Option Scalar} (rest : Rest n) {t : Tree} {s : Scalar}
    (h : (rest.tree t).type? γ = some s) : ∃ a, t.type? γ = some a := by
  match rest with
  | .stop => exact ⟨s, h⟩
  | .more op _ next rest =>
    rw [Rest.tree] at h
    obtain ⟨a, ha⟩ := rest.type?_of_tree h
    obtain ⟨-, a, _, ha, -, -⟩ := Tree.type?_op_eq_some ha
    exact ⟨a, ha⟩

/-! ### Compiling formulas -/

namespace Emits

variable {dims : List Int} {l r t : Tree} {a b s : Scalar} {c c₁ c₂ c₃ : Compiler}

/-- What was compiled stays as it is while more is compiled. -/
theorem quads_of_grows (h : Emits dims t s c c₁) (hg : c₁.Grows c₂) (k : Counts) :
    t.quads c₁.addressOf dims k = t.quads c₂.addressOf dims k ∧
      t.address c₁.addressOf k = t.address c₂.addressOf k := by
  refine Tree.quads_congr dims (fun x hx => ?_) k
  rw [Compiler.addressOf, Compiler.addressOf, hg.address? (h.located x hx)]

/-- An operator that waits between two operands takes them. -/
theorem op (hl : Emits dims l a c c₁)
    (hr : Emits dims r b { c₁ with operators := o.word :: c₁.operators } c₂) (ho : o.word ∈ ops)
    (hs : a.combine b o.word = some s) (hresult : s = o.result) (hdims : dims.length ≤ 2) :
    (∃ type scope c', (Compile.addOperation ops).run c₂
      = (.error (.space (.full type scope)), c')) ∨
    ∃ c₃, (Compile.addOperation ops).run c₂ = (.ok (), c₃) ∧ Emits dims (.op o l r) s c c₃ := by
  obtain ⟨x, hx⟩ := hl.operands
  obtain ⟨y, hy⟩ := hr.operands
  have hargs : c₂.operands = ⟨y, .cell (r.address c₂.addressOf c₁.space.temps), .of b, dims⟩ ::
      ⟨x, .cell (l.address c₁.addressOf c.space.temps), .of a, dims⟩ :: c.operands := by
    rw [hy, hx]
  have htypes : (Ty.of a).combine (.of b) o.word = some s := hs
  rcases Compile.run_addOperation ho hr.operators hargs htypes hdims with
    ⟨c', hfull⟩ | ⟨name, c₃, hrun, hgrows, hops, hoperands, hquads, htemps⟩
  · exact .inl ⟨_, _, c', hfull⟩
  · have hpush : c₁.Grows c₂ := hr.grows.withStacks _ _ _ _
    have hql := hl.quads_of_grows (hpush.trans hgrows) c.space.temps
    have hqr := hr.quads_of_grows hgrows c₁.space.temps
    have hlocated : ∀ x, (c₁.address? x).isSome → (c₃.address? x).isSome := by
      intro x hx
      rwa [(hpush.trans hgrows).address? hx]
    have hslots : c₂.space.temps = r.slots (l.slots c.space.temps) := by
      rw [hr.temps, ← hl.temps]
    refine .inr ⟨c₃, hrun, (hl.grows.trans hpush).trans hgrows, ?_, ?_, ⟨name, ?_⟩, ?_, ?_⟩
    · intro x hx
      rcases List.mem_append.mp hx with hx | hx
      · exact hlocated x (hl.located x hx)
      · rw [hgrows.address? (hr.located x hx)]
        exact hr.located x hx
    · rw [hops, hl.operators]
    · rw [hoperands, hslots, hresult]
      rfl
    · rw [hquads, hr.quads, hl.quads, hql.1, hql.2, hqr.1, hqr.2, hslots, hresult, hl.temps]
      simp only [Tree.quads, Tree.address, ← List.append_toArray, Array.append_assoc]
    · rw [htemps, hslots, hresult]
      rfl

theorem leaf {name : Literal} {n : Int} (hgrows : c.Grows c₁) (hx : c₁.address? x = some n)
    (hops : c₁.operators = c.operators)
    (hoperands : c₁.operands = ⟨name, .cell n, .of s, dims⟩ :: c.operands)
    (hquads : c₁.quads = c.quads) (htemps : c₁.space.temps = c.space.temps) :
    Emits dims (.leaf x) s c c₁ where
  grows := hgrows
  located y hy := by rw [List.mem_singleton.mp hy, hx]; rfl
  operators := hops
  operands := ⟨name, by rw [hoperands, Tree.address, Compiler.addressOf, hx]; rfl⟩
  quads := by rw [hquads]; simp [Tree.quads]
  temps := htemps

/-- A variable is put on the stack as it is. -/
theorem ofVariable {name : String} (h : c.leafType? dims (.var name) = some s)
    (before : Option Literal) : ∃ c', ((Phrase.mono (.ofVariable name)).run before).run c
      = (.ok none, c') ∧ Emits dims (.leaf (.var name)) s c c' := by
  obtain ⟨v, hv, hdims, htype⟩ :
      ∃ v, c.lookup? name = some v ∧ v.dims = dims ∧ v.type = .of s := by
    rw [Compiler.leafType?] at h
    grind
  refine ⟨{ c with
    named := some v.name
    operands := ⟨.text v.name, .cell v.address, v.type, v.dims⟩ :: c.operands }, ?_, ?_⟩
  · rw [Phrase.run_mono, Phrase.run_ofVariable]
    rw [bind_assoc, run_bind_ok (Compile.run_variableOf hv)]
    rfl
  · rw [hdims, htype]
    exact leaf ⟨rfl, rfl, rfl, rfl, rfl, rfl, rfl, rfl, rfl, ⟨[], by simp⟩, id⟩
      (congrArg (Option.map Variable.address) hv) rfl rfl rfl rfl

/-- A constant is put on the stack, and in the table when it is new. -/
theorem ofConstant (hx : ∀ c : Compiler, c.address? x = (c.constant? value).map (·.address))
    (htype : Compile.typeOfLiteral value = .of s) (hsame : value.same value = true)
    (htyped : c.ConstantsTyped) (kind : String) (before : Option Literal) :
    (∃ type scope c', ((Phrase.mono (.ofConstant kind value)).run before).run c
      = (.error (.space (.full type scope)), c')) ∨
    ∃ c', ((Phrase.mono (.ofConstant kind value)).run before).run c = (.ok none, c') ∧
      Emits [] (.leaf x) s c c' := by
  rw [Phrase.run_mono, Phrase.run_ofConstant, bind_assoc]
  rcases Compile.run_constant hsame c with
    ⟨type, c', hfull⟩ | ⟨k, c₁, hrun, hk, hgrows, hops, hoperands, hquads, htemps⟩
  · exact .inl ⟨type, "cte", c', run_bind_error hfull⟩
  · right
    have hkt : k.type = .of s := by
      have hname : k.type.name = (Compile.typeOfLiteral value).name := by
        have := List.find?_some hk
        simp only [Bool.and_eq_true, beq_iff_eq] at this
        exact this.2
      obtain ⟨s', hs'⟩ : ∃ s', Compile.typeOfLiteral k.value = .of s' := by
        cases k.value <;> exact ⟨_, rfl⟩
      rw [hgrows.typed htyped k (List.mem_of_find?_eq_some hk), hs'] at hname ⊢
      rw [htype] at hname
      rw [Scalar.name_inj hname]
    refine ⟨{ c₁ with operands := ⟨k.value, .cell k.address, k.type, []⟩ :: c₁.operands }, ?_, ?_⟩
    · rw [run_bind_ok hrun]
      rfl
    · rw [hkt]
      exact leaf (hgrows.withStacks _ _ _ _)
        ((hx _).trans (congrArg (Option.map Constant.address) hk)) hops (by rw [hoperands]) hquads htemps

/-- What waits on the stack of operators is as before when it is put back. -/
theorem group (h : Emits dims t s { c with operators := ops } c₁) :
    Emits dims t s c { c₁ with operators := c.operators } where
  __ := h
  grows := h.grows.withStacks _ _ _ _
  operators := rfl

end Emits

mutual

/-- Compiling a well-typed formula of a level makes the quads of its tree, whatever waits
on the stack of operators below the level. -/
theorem Formula.emits (d : Dialect) {dims : List Int} (hdims : dims.length ≤ 2) {n : Nat} (hn : n ≤ 4)
    (e : Formula n) {s : Scalar} {c : Compiler} (htyped : c.ConstantsTyped) (hclear : c.Clear n)
    (hs : e.tree.type? (c.leafType? dims) = some s) (before : Option Literal) :
    (∃ type scope c', ((e.phrase d).run before).run c = (.error (.space (.full type scope)), c')) ∨
    ∃ c', ((e.phrase d).run before).run c = (.ok none, c') ∧ Emits dims e.tree s c c' := by
  match e with
  | .var name => exact .inr (Emits.ofVariable hs before)
  | .int i h =>
    have hd : dims = [] ∧ s = .int := by
      simp only [Formula.tree, Tree.type?, Compiler.leafType?] at hs
      grind
    rw [hd.1, hd.2]
    exact Emits.ofConstant (fun _ => rfl) rfl (by simp [Literal.same]) htyped "CTE_INT" before
  | .truth b =>
    have hd : dims = [] ∧ s = .bool := by
      simp only [Formula.tree, Tree.type?, Compiler.leafType?] at hs
      grind
    rw [hd.1, hd.2]
    exact Emits.ofConstant (fun _ => rfl) rfl (by simp [Literal.same]) htyped "CTE_BOOL" before
  | .group e =>
    let c₁ : Compiler := { c with operators := "(" :: c.operators }
    have hopen : c₁.Clear 4 := by
      rintro w hw k hk
      cases hw
      exact Level.notMem_words (.inl rfl) k hk
    rw [Formula.phrase, Phrase.run_mono, Phrase.run_groupPhrase, Phrase.run_expr]
    simp only [bind_assoc, pure_bind]
    rw [run_bind_ok (show (Compile.pushOperator "(").run c = (.ok (), c₁) from rfl)]
    rcases e.emits d hdims (le_refl 4) (c := c₁) htyped hopen hs none with
      ⟨type, scope, c', hfull⟩ | ⟨c', hrun, hemits⟩
    · exact .inl ⟨type, scope, c', run_bind_error hfull⟩
    · refine .inr ⟨_, ?_, hemits.group⟩
      rw [run_bind_ok hrun, run_bind_ok (Compile.run_popOperator hemits.operators)]
      rfl
  | .chain first rest =>
    rw [Formula.phrase, Phrase.run_chain]
    obtain ⟨a, ha⟩ := rest.type?_of_tree hs
    rcases first.emits d hdims (by omega) htyped (fun w hw k hk => hclear w hw k (by omega)) ha before
      with ⟨type, scope, c', hfull⟩ | ⟨c₁, hrun, hemits⟩
    · exact .inl ⟨type, scope, c', run_bind_error hfull⟩
    · rw [run_bind_ok hrun, run_bind_ok (Compile.run_addOperation_of_notMem
        (fun w hw => hclear w (hemits.operators ▸ hw) _ (le_refl _)))]
      rcases rest.emits d hdims (by omega) hemits ha htyped hs none with
        ⟨type, scope, c', hfull⟩ | ⟨c₂, hrun, hemits⟩
      · exact .inl ⟨type, scope, c', run_bind_error hfull⟩
      · exact .inr ⟨c₂, by rw [run_bind_ok hrun]; rfl, hemits⟩

theorem Rest.emits (d : Dialect) {dims : List Int} (hdims : dims.length ≤ 2) {n : Nat} (hn : n < 4)
    (rest : Rest n) {t : Tree} {a s : Scalar} {c c₁ : Compiler} (hfirst : Emits dims t a c c₁)
    (ha : t.type? (c.leafType? dims) = some a) (htyped : c.ConstantsTyped)
    (hs : (rest.tree t).type? (c.leafType? dims) = some s) (before : Option Literal) :
    (∃ type scope c', ((rest.phrase d).run before).run c₁
      = (.error (.space (.full type scope)), c')) ∨
    ∃ c', ((rest.phrase d).run before).run c₁ = (.ok none, c') ∧ Emits dims (rest.tree t) s c c' := by
  match rest with
  | .stop =>
    rw [Rest.tree, ha] at hs
    cases hs
    exact .inr ⟨c₁, by rw [Rest.run_phrase_stop]; rfl, hfirst⟩
  | .more o h next rest =>
    let c₂ : Compiler := { c₁ with operators := o.word :: c₁.operators }
    have hclear : c₂.Clear n := by
      rintro w hw k hk
      cases hw
      rw [o.mem_words_iff k (by omega)]
      omega
    obtain ⟨b, hb⟩ := rest.type?_of_tree hs
    obtain ⟨ho, a', s', ha', hs', hab⟩ := Tree.type?_op_eq_some hb
    obtain rfl : a' = a := Option.some.inj (ha'.symm.trans ha)
    have hresult := (Operator.of_combine ho (Tree.type?_cases Compiler.leafType?_cases ha)
      (Tree.type?_cases Compiler.leafType?_cases hs') hab).1
    have hnext : next.tree.type? (c₂.leafType? dims) = some s' := by
      rw [show c₂.leafType? dims = c₁.leafType? dims from rfl, hfirst.grows.leafType?]
      exact hs'
    rw [Rest.run_phrase_more]
    rw [run_bind_ok (show (Compile.pushOperator o.word).run c₁ = (.ok (), c₂) from rfl)]
    rcases next.emits d hdims (by omega) (c := c₂) (hfirst.grows.typed htyped) hclear hnext none with
      ⟨type, scope, c', hfull⟩ | ⟨c₃, hrun, hemits⟩
    · exact .inl ⟨type, scope, c', run_bind_error hfull⟩
    rw [run_bind_ok hrun]
    rcases hfirst.op hemits ((o.mem_words_iff (n + 1) (by omega)).mpr h) hab hresult hdims with
      ⟨type, scope, c', hfull⟩ | ⟨c₄, hrun, hemits⟩
    · exact .inl ⟨type, scope, c', run_bind_error hfull⟩
    rw [run_bind_ok hrun]
    rcases rest.emits d hdims hn hemits hb htyped hs none with
      ⟨type, scope, c', hfull⟩ | ⟨c₅, hrun, hemits⟩
    · exact .inl ⟨type, scope, c', run_bind_error hfull⟩
    · exact .inr ⟨c₅, by rw [run_bind_ok hrun]; rfl, hemits⟩

end

end QuadLang
