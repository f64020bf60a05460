/-
The addresses of a program.

Every step of the compiler keeps all addresses in ranges of their types, so they are in range at
every moment, whatever the compiler reads:

* `Compile.keeping_perform` — every step keeps this, also one that stops half-way;
* `Values.size` — the dimensions that steps are given are positive;
* `Reached.inRange` — addresses are in range in every state that the compiler comes to.

Design notes: a range would run backwards if an array had no cells, so the steps rely on the
dimensions of all that they find.  Those come from the program through a rule that checks them.
-/
import QuadLang.Proofs.Ranges

namespace QuadLang

open Steps

variable {d : Dialect}

namespace Compile

variable {c : Compiler} {f : Function}

theorem run_current (h : c.currentName.bind c.functions.get? = some f) :
    current.run c = (.ok f, c) := by
  rw [current, run_bind_ok (run_get c), functionOf, run_bind_ok (run_get c), h]
  rfl

theorem run_take (request : Space → Space × Except SpaceFault Int) (c : Compiler) :
    (take request).run c = ((request c.space).2.mapError .space, { c with space := (request c.space).1 }) := by
  rw [take, run_bind_ok (run_get c)]
  rcases request c.space with ⟨space, fault | address⟩ <;> rfl

section

variable {J : Compiler → Prop}

/-- A step for its effect alone. -/
theorem keeping_none {x : Compile Unit} (h : Keeping J x) :
    Keeping J (do x; return (none : Option Literal)) :=
  h.bind fun _ _ => holds_pure trivial

theorem ranges_topOperand : Ranges J topOperand Sound := by
  refine ranges_get.bind fun c hc => ?_
  rcases hstack : c.operands with _ | ⟨o, rest⟩
  · exact holds_throw _
  · exact holds_pure (hc.operands o (hstack ▸ List.mem_cons_self))

end

section

variable {J : Compiler → Prop} [Compiler.Stable J] {dims : List Int}

/-! ### Making quads -/

theorem keeping_addQuad (q : Quad) : Keeping J (addQuad q) := by
  have hpush : Keeping J (modify fun c => { c with quads := c.quads.push q }) :=
    keeping_change rfl
  refine ranges_get.bind fun c _ => ?_
  dsimp only
  split
  · split
    · exact reads_quadCount.keeping.bind fun _ _ => (keeping_print _).bind fun _ _ => hpush
    · exact holds_throw_bind _ _
  · exact hpush

theorem keeping_emit (op : String) (a b r : Field) : Keeping J (emit op a b r) := keeping_addQuad _

theorem keeping_complete (index target : Int) : Keeping J (complete index target) := by
  refine ranges_get.bind fun c hc => ?_
  split
  · exact holds_throw _
  · refine Holds.bind (holds_set ?_) fun _ _ => keeping_remark _
    exact hc.same ⟨rfl, rfl, rfl, rfl, rfl, rfl, rfl⟩
  · exact holds_throw _

theorem keeping_completeHere (index : Int) : Keeping J (completeHere index) :=
  reads_quadCount.keeping.bind fun _ _ => keeping_complete _ _

theorem keeping_pushVariable {v : Variable} (h : Known v) : Keeping J (pushVariable v) :=
  keeping_pushOperand ⟨h.address, h.dims⟩

theorem keeping_pushConstant {k : Constant} (h : Fixed k) : Keeping J (pushConstant k) :=
  keeping_pushOperand ⟨h.cell, fun _ hn => absurd hn List.not_mem_nil⟩

theorem keeping_pushTemp {address : Address} {type : Ty} (h : address.InRange type)
    (hd : Positive dims) : Keeping J (pushTemp address type dims) :=
  ranges_get.bind fun _ _ => keeping_pushOperand ⟨h, hd⟩

theorem keeping_countTemp : Keeping J countTemp :=
  keeping_change rfl

theorem keeping_addMain : Keeping J addMain :=
  (keeping_emit _ _ _ _).bind fun _ _ => keeping_pushJump 0

theorem keeping_completeMain : Keeping J completeMain :=
  keeping_popJump.bind fun _ _ => (keeping_completeHere _).bind fun _ _ => keeping_say _

theorem keeping_addShape (dims : List Int) : Keeping J (addShape dims) := by
  unfold addShape
  dsimp only
  split
  all_goals refine Holds.bind (Q := fun _ => True) ?_ fun _ _ => (keeping_remark _).bind fun _ _ => keeping_emit _ _ _ _
  · exact holds_pure trivial
  · exact holds_pure trivial
  · exact holds_throw _

theorem keeping_addShapeOf (dims : List Int) : Keeping J (addShapeOf dims) :=
  holds_ite (fun _ => keeping_addShape dims) fun _ => holds_pure trivial

theorem keeping_addAssign : Keeping J addAssign :=
  ranges_popOperand.bind fun _ _ => ranges_popOperand.bind fun _ _ => keeping_popOperator.bind fun _ _ =>
    (reads_resultType _ _ _).keeping.bind fun _ _ => (reads_checkShapes _ _).keeping.bind fun _ _ =>
      (keeping_addShapeOf _).bind fun _ _ => keeping_emit _ _ _ _

/-- A temporary cell of a type. -/
theorem ranges_takeTemp (type : Ty) :
    Ranges J (take (·.takeOne "temp" type)) (Segment.temp.Contains type) := ranges_takeOne "temp" type

theorem keeping_remarkTemp (type : Scalar) (result : Int) : Keeping J (remarkTemp type result) :=
  ranges_get.bind fun _ _ => keeping_remark _

theorem keeping_addDot : Keeping J addDot := by
  refine ranges_popOperand.bind fun right hr => ranges_popOperand.bind fun left hl =>
    keeping_popOperator.bind fun op _ => (reads_resultType _ _ _).keeping.bind fun type _ => ?_
  split
  · next m n n' p hleft hright =>
    have hm : 0 < m := hl.2 m (hleft ▸ List.mem_cons_self)
    have hp : 0 < p := hr.2 p (hright ▸ List.mem_cons_of_mem _ List.mem_cons_self)
    exact holds_ite (fun _ => holds_throw_bind _ _) fun _ => (ranges_takeTemp _).bind fun result hresult =>
      (keeping_takeRest _ _ (Int.mul_pos hm hp)).bind fun _ _ => (keeping_remark _).bind fun _ _ =>
        (keeping_emit _ _ _ _).bind fun _ _ => (keeping_emit _ _ _ _).bind fun _ _ =>
          (keeping_pushTemp hresult.cell (.pair hm hp)).bind fun _ _ => keeping_countTemp
  · exact holds_throw _

theorem keeping_addOperation (ops : List String) : Keeping J (addOperation ops) := by
  refine ranges_get.bind fun c _ => ?_
  split
  · exact holds_pure trivial
  · split
    · exact holds_pure trivial
    split
    · exact keeping_addDot
    exact ranges_popOperand.bind fun right hr => ranges_popOperand.bind fun left hl =>
      keeping_popOperator.bind fun op _ => (reads_resultType _ _ _).keeping.bind fun type _ =>
        (reads_checkShapes _ _).keeping.bind fun _ _ => (keeping_addShapeOf _).bind fun _ _ =>
          (ranges_takeTemp _).bind fun result hresult => (keeping_emit _ _ _ _).bind fun _ _ =>
            (keeping_pushTemp hresult.cell hl.2).bind fun _ _ => (keeping_remarkTemp _ _).bind
              fun _ _ => keeping_countTemp

theorem keeping_addMatrixOperation (op : String) : Keeping J (addMatrixOperation op) := by
  refine ranges_popOperand.bind fun mat hmat => ?_
  split
  · next rows cols hdims =>
    have hrows : 0 < rows := hmat.2 rows (hdims ▸ List.mem_cons_self)
    have hcols : 0 < cols := hmat.2 cols (hdims ▸ List.mem_cons_of_mem _ List.mem_cons_self)
    split
    · exact holds_throw _
    · next type htype =>
      have hresult : Positive (if op == "$" then [] else if op == "!" then [cols, rows] else mat.dims) := by
        split
        · exact fun _ hn => absurd hn List.not_mem_nil
        · split
          · exact .pair hcols hrows
          · exact hmat.2
      generalize (if op == "$" then [] else if op == "!" then [cols, rows] else mat.dims) = dims at hresult
      refine holds_ite (fun _ => holds_throw_bind _ _) fun _ => (ranges_takeTemp _).bind fun result h =>
        (keeping_remarkTemp _ _).bind fun _ _ => ?_
      refine have hlast := ?_; holds_ite (fun _ => (keeping_takeRest _ _ (Int.mul_pos hrows hcols)).bind fun _ _ =>
        ranges_get.bind fun _ _ => (keeping_remark _).bind fun _ _ => hlast) fun _ => hlast
      exact (keeping_addShape _).bind fun _ _ => (keeping_emit _ _ _ _).bind fun _ _ =>
        (keeping_pushTemp h.cell hresult).bind fun _ _ => keeping_countTemp
  · exact holds_throw _

theorem keeping_addRead : Keeping J addRead :=
  ranges_popOperand.bind fun _ _ => (keeping_addShapeOf _).bind fun _ _ => keeping_emit _ _ _ _

theorem keeping_addPrint : Keeping J addPrint :=
  ranges_popOperand.bind fun _ _ => (keeping_addShapeOf _).bind fun _ _ => keeping_emit _ _ _ _

theorem keeping_addJumpIfFalse : Keeping J addJumpIfFalse :=
  ranges_popOperand.bind fun _ _ => (keeping_addShapeOf _).bind fun _ _ => holds_ite
    (fun _ => (keeping_emit _ _ _ _).bind fun _ _ => reads_quadCount.keeping.bind fun _ _ => keeping_pushJump _)
    fun _ => holds_throw _

theorem keeping_addElse : Keeping J addElse :=
  (keeping_emit _ _ _ _).bind fun _ _ => keeping_popJump.bind fun _ _ => reads_quadCount.keeping.bind fun _ _ =>
    (keeping_pushJump _).bind fun _ _ => keeping_completeHere _

theorem keeping_completeIf : Keeping J completeIf :=
  keeping_popJump.bind fun _ _ => keeping_completeHere _

theorem keeping_beginLoop : Keeping J beginLoop :=
  reads_quadCount.keeping.bind fun _ _ => (keeping_pushJump _).bind fun _ _ =>
    keeping_change rfl

theorem keeping_completeAll (bs : List Int) :
    Keeping J (do for b in bs do completeHere b : Compile Unit) := by
  induction bs with
  | nil => exact holds_pure trivial
  | cons b bs ih =>
    simp only [List.forIn_cons, bind_assoc, pure_bind]
    exact (keeping_completeHere b).bind fun _ _ => ih

theorem keeping_completeLoop : Keeping J completeLoop :=
  keeping_popJump.bind fun _ _ => keeping_popJump.bind fun _ _ => (keeping_emit _ _ _ _).bind
    fun _ _ => (keeping_completeHere _).bind fun _ _ => keeping_popBreaks.bind fun bs _ =>
      keeping_completeAll bs

theorem keeping_addBreak : Keeping J addBreak := by
  refine ranges_get.bind fun _ _ => fun c hc => .ite (fun _ => .throw_bind hc _ _) fun _ => ?_
  refine Holds.at ((keeping_emit _ _ _ _).bind fun _ _ => reads_quadCount.keeping.bind fun _ _ => ?_) hc
  exact keeping_change rfl

theorem keeping_addLoopStart : Keeping J addLoopStart :=
  (keeping_pushOperator _).bind fun _ _ => keeping_addAssign.bind fun _ _ => keeping_beginLoop

theorem keeping_addLoopBound : Keeping J addLoopBound :=
  (keeping_pushOperator _).bind fun _ _ => (keeping_addOperation _).bind fun _ _ => keeping_addJumpIfFalse

theorem keeping_addLoopEnd (h : ∀ value, Ranges J (constant value (typeOfLiteral value)) Fixed) :
    Keeping J addLoopEnd :=
  (h (.int 1)).bind fun _ hone => ranges_topOperand.bind fun _ ho => (keeping_pushOperand ho).bind
    fun _ _ => ranges_topOperand.bind fun _ ho' => (keeping_pushOperand ho').bind fun _ _ =>
      (keeping_pushConstant hone).bind fun _ _ => (keeping_pushOperator _).bind fun _ _ =>
        (keeping_pushOperator _).bind fun _ _ => (keeping_addOperation _).bind fun _ _ =>
          keeping_addAssign.bind fun _ _ => keeping_completeLoop.bind fun _ _ =>
            ranges_popOperand.bind fun _ _ => holds_pure trivial

theorem keeping_addIndex (h : ∀ value, Ranges J (constant value (typeOfLiteral value)) Fixed) :
    Keeping J addIndex := by
  have hpop : Keeping J (do let _ ← popOperator) := keeping_popOperator.bind fun _ _ => holds_pure trivial
  refine ranges_topOperand.bind fun v _ => fun c hc => .ite (fun _ => .throw_bind hc _ _) fun _ => ?_
  refine Holds.at (ranges_get.bind fun c _ => ?_) hc
  split
  · exact holds_throw _
  · refine (ranges_dimsOf _).bind fun dims _ => (reads_entry _ _).keeping.bind fun _ _ =>
      (keeping_emit _ _ _ _).bind fun _ _ => holds_ite (fun _ => ?_) fun _ => holds_ite (fun _ => ?_) fun _ => hpop
    · exact (reads_entry _ _).keeping.bind fun _ _ => (h (.int _)).bind fun _ hk =>
        (keeping_pushConstant hk).bind fun _ _ => (keeping_pushOperator _).bind fun _ _ =>
          (keeping_addOperation _).bind fun _ _ => hpop
    · exact (keeping_pushOperator _).bind fun _ _ => (keeping_addOperation _).bind fun _ _ => hpop

theorem keeping_addElement : Keeping J addElement := by
  refine keeping_popAccess.bind fun access _ => ranges_popOperand.bind fun offset _ =>
    ranges_popOperand.bind fun arr harr => (ranges_takeTemp _).bind fun result hresult =>
      (keeping_emit _ _ _ _).bind fun _ _ => ?_
  refine Holds.bind (keeping_pushTemp hresult.pointer ?_) fun _ _ =>
    ranges_get.bind fun _ _ => (keeping_remark _).bind fun _ _ => keeping_countTemp
  split
  · exact harr.2.drop _
  · exact harr.2.drop _

theorem keeping_addArgument (p : Param) (k : Int) : Keeping J (addArgument p k) := by
  exact ranges_popOperand.bind fun v _ => holds_ite (fun _ => holds_throw_bind _ _) fun _ =>
    holds_ite (fun _ => holds_throw_bind _ _) fun _ => (keeping_addShapeOf _).bind fun _ _ => keeping_emit _ _ _ _

theorem keeping_addCallResult : Keeping J addCallResult := by
  refine keeping_popCall.bind fun name _ => (ranges_functionOf _).bind fun f hf =>
    holds_ite (fun _ => holds_throw_bind _ _) fun _ => (ranges_takeTemp _).bind fun result h => ?_
  refine have hlast := ?_; holds_ite (fun _ => (keeping_takeRest _ _ hf.returnDims.sizeOf_pos).bind fun _ _ =>
    (keeping_addShape _).bind fun _ _ => hlast) fun _ => hlast
  exact (keeping_emit _ _ _ _).bind fun _ _ => (keeping_pushTemp h.cell hf.returnDims).bind fun _ _ =>
    ranges_get.bind fun _ _ => (keeping_remark _).bind fun _ _ => keeping_countTemp

/-! ### Steps -/

theorem keeping_build : Keeping J build := by
  refine ranges_get.bind fun c _ => (keeping_say _).bind fun _ _ => ranges_get.bind fun c _ => ?_
  split
  · exact holds_throw_bind _ _
  · exact Holds.bind (keeping_change rfl) fun _ _ => keeping_say _

theorem keeping_takeArray (h : Positive dims) : Keeping J (takeArray dims) :=
  Holds.bind (Q := fun _ => True) (ranges_get.bind fun _ _ => holds_pure trivial) fun _ _ =>
    ranges_get.bind fun _ _ => (keeping_takeRest _ _ h.sizeOf_pos).bind fun _ _ => holds_pure trivial

theorem keeping_openIndex : Keeping J openIndex := by
  refine keeping_popAccess.bind fun access _ => (ranges_dimsOf _).bind fun dims _ => ?_
  exact holds_ite (fun _ => holds_throw_bind _ _) fun _ => Holds.bind
    (keeping_change rfl) fun _ _ => keeping_pushOperator _

theorem keeping_beginCall (name : String) : Keeping J (beginCall name) :=
  (reads_functionExists name).keeping.bind fun _ _ => holds_ite (fun _ => (keeping_emit _ _ _ _).bind
    fun _ _ => Holds.bind (keeping_change rfl) fun _ _ => keeping_pushOperator _) fun _ => holds_throw _

theorem keeping_addNextArgument : Keeping J addNextArgument :=
  keeping_topCall.bind fun _ _ => (ranges_paramOf _).bind fun _ _ => ranges_get.bind fun _ _ =>
    (keeping_addArgument _ _).bind fun _ _ =>
      keeping_change rfl

theorem keeping_endCall : Keeping J endCall :=
  keeping_topCall.bind fun _ _ => (ranges_functionOf _).bind fun _ _ => ranges_get.bind fun _ _ =>
    holds_ite (fun _ => Holds.bind (keeping_change rfl) fun _ _ => (keeping_emit _ _ _ _).bind fun _ _ =>
        keeping_popOperator.bind fun _ _ => holds_pure trivial) fun _ => holds_throw _

end

/-! ### Steps that store -/

section

variable {J : Compiler → Prop} [Compiler.Loose J]

/-- The cells for the result are of the type of the function at work. -/
theorem keeping_returnAddress (hc : c.InRangeAt J)
    (hf : c.currentName.bind c.functions.get? = some f) :
    HoldsAt (Compiler.InRangeAt J) (returnAddress f.returnType f.returnDims) (fun _ => True) c := by
  refine ⟨?_, fun _ _ => trivial⟩
  obtain ⟨n, hname, hget⟩ := Option.bind_eq_some_iff.mp hf
  have hfun := hc.functions _ (Table.mem_of_get? hget)
  rw [returnAddress, run_bind_ok (run_current hf)]
  rcases f.returnAddress with _ | a
  · dsimp only
    rw [run_bind_ok (run_get c)]
    obtain ⟨hstate, haddress⟩ := ranges_takeOne (c.currentName.getD "None") f.returnType c hc
    rcases htake : (take (·.takeOne (c.currentName.getD "None") f.returnType)).run c
      with ⟨fault | address, c₁⟩ <;> rw [htake] at hstate haddress
    · rw [run_bind_error htake]
      exact hstate
    · rw [run_bind_ok htake]
      have hsame := (run_take _ c).symm.trans htake
      obtain ⟨space, rfl⟩ : ∃ space, c₁ = { c with space } := ⟨_, (congrArg Prod.snd hsame).symm⟩
      have hchange : (changeCurrent fun f => { f with returnAddress := some address }).run { c with space } =
          (.ok (), { c with space, functions := c.functions.put n { f with returnAddress := some address } }) := by
        have hread := run_current (c := { c with space }) hf
        rw [current, run_bind_ok (run_get _)] at hread
        rw [changeCurrent, run_bind_ok (run_get _), changeFunction, run_bind_ok hread, hname]
        rfl
      rw [run_bind_ok hchange]
      have hchanged : Compiler.InRangeAt J
          { c with space, functions := c.functions.put n { f with returnAddress := some address } } := by
        refine ⟨{ hstate with functions := fun x hx => ?_ }, Compiler.Loose.loose hstate.rest rfl⟩
        rcases Table.mem_of_mem_put hx with rfl | hx
        · refine { hfun with result := fun a ha => ?_ }
          cases ha
          exact ⟨_, haddress address rfl⟩
        · exact hstate.functions x hx
      split
      · exact ((keeping_takeRest (c.currentName.getD "None") f.returnType hfun.returnDims.sizeOf_pos).bind
          fun _ _ => (keeping_remark _).bind fun _ _ => holds_pure (Q := fun _ => True) trivial) _ hchanged |>.1
      · exact ((keeping_remark _).bind fun _ _ => holds_pure (Q := fun _ => True) trivial) _ hchanged |>.1
  · exact hc

theorem keeping_addReturn : Keeping J addReturn := by
  refine ranges_popOperand.bind fun value _ => fun c hc => ?_
  rcases hf : c.currentName.bind c.functions.get? with _ | f
  · have hnone : current.run c = (.error (.noFunction c.currentName), c) := by
      rw [current, run_bind_ok (run_get c), functionOf, run_bind_ok (run_get c), hf]
      rfl
    rw [HoldsAt, run_bind_error hnone]
    exact ⟨hc, fun _ _ => trivial⟩
  · have hreturn := (keeping_returnAddress hc hf).bind fun address _ =>
      (keeping_addShapeOf f.returnDims).bind fun _ _ =>
        (keeping_emit "=" (.address value.address) .none (.number address)).bind fun _ _ =>
          (keeping_addShapeOf f.returnDims).bind fun _ _ =>
            (keeping_emit "RETURN" .none .none (.number address)).bind fun _ _ =>
              keeping_change (f := fun c => { c with returnCount := c.returnCount + 1 }) rfl
    exact .read (run_current hf) (.read (run_get c) (.read (run_get c)
      (.ite (fun _ => .throw_bind hc _ _) fun _ => .ite (fun _ => .throw_bind hc _ _) fun _ =>
        .ite (fun _ => .throw_bind hc _ _) fun _ => .ite (fun _ => .throw_bind hc _ _) fun _ => hreturn)))

theorem keeping_addIterator (name : String) : Keeping Compiler.Any (addIterator name) :=
  ranges_setType_bind ((ranges_takeTemp _).bind fun _ h => (keeping_addVariable name ⟨_, h⟩).bind
    fun _ _ => (ranges_declared name).bind fun _ hv => (keeping_pushVariable hv).bind fun _ _ =>
      (keeping_pushVariable hv).bind fun _ _ => keeping_pushVariable hv)

theorem keeping_resetCounters : Keeping J resetCounters :=
  holds_modify fun _ hc =>
    ⟨{ hc with space := hc.space.resetLocals }, Compiler.Loose.loose hc.rest rfl⟩

theorem keeping_addFunctionEnd : Keeping J addFunctionEnd := by
  refine have hrest := ?_; ranges_get.bind fun c _ => holds_ite (fun _ => ranges_current.bind fun f _ =>
    holds_ite (fun _ => holds_throw_bind _ _) fun _ => hrest) fun _ => hrest
  refine ranges_get.bind fun c _ => Holds.bind (keeping_changeCurrent ?_) fun _ _ =>
    keeping_resetCounters.bind fun _ _ => keeping_emit _ _ _ _
  exact fun f hf => { hf with }

end

theorem keeping_declare (before : Option Literal) (args : List (Option Literal)) :
    Keeping Compiler.Any (perform before args .declare) := by
  refine ranges_of_type fun t => (reads_isAvailable _).keeping.bind fun _ _ => holds_ite (fun _ => ?_)
    fun _ => holds_throw_bind _ _
  refine Holds.bind (Q := fun _ => True) (ranges_get.bind fun _ _ => holds_pure trivial) fun scope _ =>
    ranges_get.bind fun c hc => ?_
  rw [show c.currentType = t from hc.rest]
  exact (ranges_takeOne scope t).bind fun _ h => (keeping_addVariable _ ⟨_, h⟩).bind fun _ _ =>
    (keeping_setNamed _).bind fun _ _ => holds_pure trivial

theorem keeping_param (before : Option Literal) (args : List (Option Literal)) :
    Keeping Compiler.Any (perform before args .param) := by
  refine ranges_of_type fun t => (reads_isAvailable _).keeping.bind fun _ _ => holds_ite (fun _ => ?_)
    fun _ => holds_throw_bind _ _
  refine (keeping_setNamed _).bind fun _ _ => Holds.bind (Q := fun _ => True)
    (ranges_get.bind fun _ _ => holds_pure trivial) fun scope _ => ranges_get.bind fun c hc => ?_
  rw [show c.currentType = t from hc.rest]
  exact (ranges_takeOne scope t).bind fun _ h => (keeping_addVariable _ ⟨_, h⟩).bind fun _ _ =>
    (keeping_addParam ⟨_, h⟩).bind fun _ _ => holds_pure trivial

end Compile

/-- A step that is given the dimensions of an array. -/
def Step.sizing : Step → Bool
  | .reserve | .paramDims | .returnDims => true
  | _ => false

/-- A step that declares something, or takes cells for a result. -/
def Step.storing : Step → Bool
  | .begin | .openTable | .declare | .reserve | .setType | .setVoid | .beginFunction | .returnDims
  | .param | .paramDims | .markStart | .endFunction | .ret | .iterator => true
  | _ => false

/-- A step that checks a dimension. -/
def Step.isSize : Step → Bool
  | .size _ _ => true
  | _ => false

theorem Step.eq_size {step : Step} (h : step.isSize = true) : ∃ i shown, step = .size i shown := by
  cases step with
  | size i shown => exact ⟨i, shown, rfl⟩
  | _ => cases h

namespace Compile

/-- A step that stores and declares nothing, constants apart, keeps all addresses in range, and all
that a constant keeps. -/
theorem keeping_computing {J : Compiler → Prop} [Compiler.Stable J]
    (hk : ∀ value, Ranges J (constant value (typeOfLiteral value)) Fixed) (before : Option Literal)
    (args : List (Option Literal)) {step : Step} (h : step.storing = false) :
    Keeping J (perform before args step) := by
  cases step with
  | skip => exact holds_pure trivial
  | finish => exact (keeping_emit _ _ _ _).bind fun _ _ => keeping_none keeping_build
  | give word => exact holds_pure trivial
  | size i shown => exact fun c hc => .ite (fun _ => .throw_bind hc _ _) fun _ => holds_pure trivial c hc
  | beginMain => exact keeping_none keeping_completeMain
  | assign => exact keeping_none keeping_addAssign
  | read => exact keeping_none keeping_addRead
  | printValue => exact keeping_none keeping_addPrint
  | printText => exact keeping_none (keeping_emit _ _ _ _)
  | endIf => exact keeping_none keeping_completeIf
  | jumpIfFalse => exact keeping_none keeping_addJumpIfFalse
  | orElse => exact keeping_none keeping_addElse
  | loopStart => exact keeping_none keeping_addLoopStart
  | loopBound => exact keeping_none keeping_addLoopBound
  | loopEnd => exact keeping_none (keeping_addLoopEnd hk)
  | beginLoop => exact keeping_none keeping_beginLoop
  | endLoop => exact keeping_none keeping_completeLoop
  | leave => exact keeping_none keeping_addBreak
  | operation ops => exact keeping_none (keeping_addOperation ops)
  | pushOperator => exact keeping_none (keeping_pushOperator _)
  | matrixOperation => exact keeping_none (keeping_addMatrixOperation _)
  | closeGroup => exact keeping_popOperator.bind fun _ _ => holds_pure trivial
  | pushVariable =>
    exact (ranges_variableOf _).bind fun _ hv => (keeping_setNamed _).bind fun _ _ =>
      keeping_none (keeping_pushVariable hv)
  | beginAccess =>
    exact keeping_none (keeping_change rfl)
  | openIndex => exact keeping_none keeping_openIndex
  | closeIndex => exact keeping_none (keeping_addIndex hk)
  | endAccess => exact keeping_none keeping_addElement
  | constant =>
    rw [perform]
    split
    · exact (hk _).bind fun _ h => keeping_none (keeping_pushConstant h)
    · exact holds_pure trivial
  | callResult => exact keeping_none keeping_addCallResult
  | callStatement =>
    exact keeping_popCall.bind fun _ _ => (ranges_functionOf _).bind fun _ _ => fun c hc =>
      .ite (fun _ => .throw_bind hc _ _) fun _ => holds_pure trivial c hc
  | beginCall => exact keeping_none (keeping_beginCall _)
  | argument => exact keeping_none keeping_addNextArgument
  | endCall => exact keeping_none keeping_endCall
  | _ => cases h

/-- Every step keeps all addresses in range, when the dimensions that it is given are positive. -/
theorem keeping_perform (before : Option Literal) {args : List (Option Literal)} {step : Step}
    (h : step.sizing = true → Positive (args.map numberOf)) :
    Keeping Compiler.Any (perform before args step) := by
  by_cases hstoring : step.storing = false
  · exact keeping_computing (fun _ => ranges_constant _ _) before args hstoring
  cases step with
  | begin =>
    exact (keeping_say _).bind fun _ _ => (keeping_addFunction _).bind fun _ _ =>
      keeping_setGlobal.bind fun _ _ => keeping_none keeping_addMain
  | openTable => exact keeping_none keeping_openTable
  | declare => exact keeping_declare _ _
  | reserve =>
    exact (keeping_setDims (h rfl)).bind fun _ _ => (keeping_takeArray (h rfl)).bind fun _ _ =>
      holds_pure trivial
  | setType | setVoid => exact ranges_setType_bind (holds_pure trivial)
  | beginFunction =>
    exact (reads_functionExists _).keeping.bind fun _ _ => fun c hc => .ite (fun _ => .throw_bind hc _ _)
      fun _ => ((keeping_addFunction _).bind fun _ _ => keeping_none keeping_openTable) c hc
  | returnDims =>
    refine keeping_none (keeping_changeCurrent ?_)
    exact fun f hf => { hf with returnDims := h rfl }
  | param => exact keeping_param _ _
  | paramDims =>
    exact (keeping_setParamDims (h rfl)).bind fun _ _ => (keeping_setDims (h rfl)).bind fun _ _ =>
      keeping_none (keeping_takeArray (h rfl))
  | markStart =>
    refine reads_quadCount.keeping.bind fun _ _ => keeping_none (keeping_changeCurrent ?_)
    exact fun f hf => { hf with }
  | endFunction => exact keeping_addFunctionEnd.bind fun _ _ => keeping_none keeping_closeTable
  | ret => exact keeping_none keeping_addReturn
  | iterator => exact keeping_none (keeping_addIterator _)
  | _ => exact absurd rfl hstoring

end Compile

/-! ### The sizes of arrays -/

namespace Dialect

open Text

/-- The check that steps which are given dimensions are given checked ones. -/
def sizesChecked (d : Dialect) : Bool :=
  (d.rules.map fun r => key r.name).contains (key "dim") &&
  d.rules.all fun r => (!r.step.sizing || (r.symbols.map key).all (· == key "dim")) &&
    (key r.name != key "dim" || r.step.isSize)

theorem sizesChecked_eq_true (d : Dialect) : d.sizesChecked = true := by
  cases d <;> decide +kernel

variable {d : Dialect} {r : DialectRule}

theorem exists_dim (d : Dialect) : ∃ r ∈ d.rules, r.name = "dim" := by
  have hall := d.sizesChecked_eq_true
  rw [sizesChecked, Bool.and_eq_true, List.contains_iff_mem] at hall
  obtain ⟨r, hr, hkey⟩ := List.mem_map.mp hall.1
  exact ⟨r, hr, key_inj hkey⟩

theorem symbols_of_sizing (hr : r ∈ d.rules) (h : r.step.sizing = true) : ∀ s ∈ r.symbols, s = "dim" := by
  have hall := d.sizesChecked_eq_true
  rw [sizesChecked, Bool.and_eq_true, List.all_eq_true] at hall
  have hrule := hall.2 r hr
  rw [h, Bool.not_true, Bool.false_or, Bool.and_eq_true, List.all_eq_true] at hrule
  exact fun s hs => key_inj (beq_iff_eq.mp (hrule.1 (key s) (List.mem_map_of_mem hs)))

theorem isSize_of_dim (hr : r ∈ d.rules) (h : r.name = "dim") : r.step.isSize = true := by
  have hall := d.sizesChecked_eq_true
  rw [sizesChecked, Bool.and_eq_true, List.all_eq_true] at hall
  have hrule := hall.2 r hr
  rw [Bool.and_eq_true, h, bne_self_eq_false, Bool.false_or] at hrule
  exact hrule.2

end Dialect

open Phrase

/-- The value of a dimension is a positive number. -/
theorem Values.size {v : Option Literal} (h : Values d "dim" v) :
    ∃ n, v = some (.int n) ∧ 0 < n := by
  obtain ⟨P, before, c, c', hP, hs, hsteps⟩ := h
  cases hP with
  | @token s v hs' =>
    obtain ⟨r, hr, hname⟩ := d.exists_dim
    exact absurd (hname.trans hs.symm) (hs' r hr)
  | @node rule parts hrule hsymbols hparts =>
    obtain ⟨args, c₁, -, hrun⟩ := compiles_node.mp hsteps
    have hsize := Dialect.isSize_of_dim hrule hs
    obtain ⟨i, shown, hstep⟩ := Step.eq_size hsize
    simp only [hstep, Compile.perform] at hrun
    split at hrun
    · cases hrun
    · next hpos =>
      cases hrun
      exact ⟨_, rfl, by omega⟩

theorem Values.positive : ∀ {symbols : List String} {args : List (Option Literal)},
    List.Forall₂ (Values d) symbols args → (∀ s ∈ symbols, s = "dim") →
      Positive (args.map Compile.numberOf) := by
  intro symbols args h
  induction h with
  | nil => exact fun _ n hn => absurd hn List.not_mem_nil
  | @cons s v symbols args hv hargs ih =>
    intro hdim n hn
    rcases List.mem_cons.mp hn with rfl | hn
    · obtain ⟨k, rfl, hk⟩ := Values.size (hdim s List.mem_cons_self ▸ hv)
      exact hk
    · exact ih (fun s' hs' => hdim s' (List.mem_cons_of_mem s hs')) n hn

/-- Being in range is an invariant of the compiler. -/
theorem invariant_inRange (d : Dialect) : Invariant d Compiler.InRange where
  start := Compiler.inRange_start
  reports := by
    rintro c c' ⟨printed, rfl⟩ hc
    exact { hc with }
  step := by
    intro rule hrule before args hargs c hc
    have hstep := @Compile.keeping_perform before args rule.step fun h =>
      Values.positive hargs (Dialect.symbols_of_sizing hrule h)
    exact (hstep c hc.any).1.toInRange

/-- Whatever the compiler reads, at every moment all that it holds has an address in a range of its
type. -/
theorem Reached.inRange {d : Dialect} {c : Compiler} (h : Reached d c) : c.InRange :=
  (invariant_inRange d).reached h

theorem loopedCall_inRange : ∃ c, Compiled .plain
    (loopedCall.yield.map fun x => (Spelling.kindOf x.1, x.2)) c ∧ c.InRange := by
  obtain ⟨c, hc⟩ := exists_compiled_loopedCall
  exact ⟨c, hc, Reached.inRange hc.reached⟩

end QuadLang
