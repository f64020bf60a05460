/-
What becomes of the literals of a program.

The characters of a program are among its constants, and its strings in its quads, and there they
stay.  Everything else that is written into the code is clean if the literals are.

* `Compile.carries_perform` — every step keeps states tidy, in the modes in which it may come;
* `Phrase.Derives.tidy` — what is compiled from clean tokens is clean;
* `Phrase.Derives.char_mem`, `Phrase.Derives.string_mem` — characters and strings are in the code.
-/
import QuadLang.Proofs.Cells
import QuadLang.Proofs.Texts

namespace QuadLang

variable {s : String} {step : Step}

/-- A step that has to do with the quad to which a loop goes back, or with the cells in use. -/
def Step.marks : Step → Bool
  | .begin | .endFunction | .printText | .jumpIfFalse | .loopStart | .loopBound | .beginLoop => true
  | _ => false

/-- The other steps keep it open what the next quad is. -/
theorem Mode.ne_fresh_of_afterStep {m m' : Mode} (hs : step.marks = false)
    (h : Mode.afterStep step m = some m') (hm' : m' ≠ .fresh) : m ≠ .fresh := by
  rintro rfl
  refine hm' ?_
  cases step <;> first | (cases hs; done) | (cases h; rfl) | cases h

namespace Compile

variable {A : String → Prop} {Q₀ : Array Quad} {P : List Int} {b b' : Prop} {j : Int}
  {I : Compiler → Prop} {before : Option Literal} {args : List (Option Literal)}

/-! ### Control -/

theorem carries_popJump :
    Carries (Compiler.Tidy A Q₀ P b) popJump fun j => Compiler.Tidy A Q₀ (j :: P) b := by
  intro c j c' hc h
  obtain ⟨rest, hstack, rfl⟩ := pop_eq_ok h
  refine hc.move rfl rfl rfl fun i hi => ?_
  simp only [Compiler.pending, hstack, List.mem_append, List.mem_cons] at hi ⊢
  tauto

theorem carries_popBreaks :
    Carries (Compiler.Tidy A Q₀ P b) popBreaks fun bs => Compiler.Tidy A Q₀ (bs ++ P) b := by
  intro c bs c' hc h
  obtain ⟨rest, hstack, rfl⟩ := pop_eq_ok h
  refine hc.move rfl rfl rfl fun i hi => ?_
  simp only [Compiler.pending, hstack, List.mem_append, List.flatten_cons] at hi ⊢
  tauto

theorem tidies_pushJump (hj : j ∈ P) : Tidies A Q₀ P b (pushJump j) := by
  refine carries_modify fun c hc => hc.move rfl rfl rfl fun i hi => ?_
  simp only [Compiler.pending, List.mem_append, List.mem_cons] at hi ⊢
  rcases hi with hi | (rfl | hi) | hi
  · exact .inl hi
  · exact .inl hj
  · exact .inr (.inl hi)
  · exact .inr (.inr hi)

theorem tidies_completeHere (hj : j ∈ P) : Tidies A Q₀ P b (completeHere j) := by
  intro c x c' hc h
  obtain ⟨n, rfl⟩ := Int.eq_ofNat_of_zero_le (hc.spare j (List.mem_append_left _ hj)).nonneg
  obtain ⟨printed, quads, rfl, hr⟩ := completeHere_eq_ok h
  refine hc.retarget (fun i hi => ?_) hr
  rw [List.mem_singleton.mp hi]
  exact hj

/-- Numbers that are in hand can be dropped at the end. -/
theorem carries_drop {α : Type} {x : Compile α} (P' : List Int)
    (h : Carries I x fun _ => Compiler.Tidy A Q₀ (P' ++ P) b) :
    Carries I x fun _ => Compiler.Tidy A Q₀ P b :=
  fun _ _ _ hc hrun => (h hc hrun).mono (fun _ hj => List.mem_append_right _ hj) id

theorem tidies_completeAll {bs : List Int} (hbs : ∀ j ∈ bs, j ∈ P) :
    Tidies A Q₀ P b (do for j in bs do completeHere j : Compile Unit) := by
  induction bs with
  | nil => exact carries_pure fun _ hc => hc
  | cons j bs ih =>
    simp only [List.forIn_cons, bind_assoc, pure_bind]
    exact (tidies_completeHere (hbs j List.mem_cons_self)).bind fun _ =>
      ih fun i hi => hbs i (List.mem_cons_of_mem j hi)

theorem tidies_completeIf : Tidies A Q₀ P b completeIf :=
  carries_popJump.bind fun j => carries_drop [j] (tidies_completeHere List.mem_cons_self)

theorem tidies_completeMain : Tidies A Q₀ P b completeMain :=
  carries_popJump.bind fun j => carries_drop [j]
    ((tidies_completeHere List.mem_cons_self).bind fun _ => tidies_say _)

/-- Where a loop begins, the number of the next quad goes to the stack. -/
theorem carries_beginLoop :
    Carries (Compiler.Tidy A Q₀ P b) beginLoop fun _ => Compiler.Tidy A Q₀ P False := by
  intro c x c' hc h
  cases h
  refine { hc with spare := fun j hj => ?_, lt := False.elim }
  simp only [Compiler.pending, List.flatten_cons, List.nil_append, List.mem_append, List.mem_cons] at hj
  have hold : j ∈ P ++ c.pending ∨ j = c.quads.size := by
    simp only [Compiler.pending, List.mem_append]
    tauto
  rcases hold with hold | rfl
  · exact hc.spare j hold
  · refine ⟨by omega, Int.le_refl _, fun s hs => ?_⟩
    rw [Int.toNat_natCast, Array.getElem?_eq_none (Nat.le_refl _)] at hs
    cases hs

section

variable (hA : ∀ s, Clean s → A s)
include hA

/-- The first quad is the jump to the main part. -/
theorem carries_addMain (h0 : 0 ∈ P) :
    Carries (Compiler.Tidy A Q₀ P b) addMain fun _ => Compiler.Tidy A Q₀ P b' :=
  .bind (carries_emit (fits_of_all hA (by decide)) trivial trivial trivial) fun _ =>
    fun _ _ _ hc hrun => tidies_pushJump h0 hc.tail hrun

/-- After a jump that is made forward no number is that of the next quad. -/
theorem carries_addJumpIfFalse :
    Carries (Compiler.Tidy A Q₀ P b) addJumpIfFalse fun _ => Compiler.Tidy A Q₀ P b' := by
  refine (tidies hA leads_popOperand).bind fun v => (tidies hA (leads_addShapeOf _)).bind fun _ =>
    carries_ite (fun _ => ?_) fun _ => carries_throw _
  have hemit : Carries (Compiler.Tidy A Q₀ P b) (emit "GoToF" (.address v.address) .none .none) fun _ c =>
      c.Tidy A Q₀ (((c.quads.size : Int) - 1) :: P) b' :=
    carries_emit (fits_of_all hA (by decide)) (.address _) trivial trivial
  refine hemit.bind fun _ => ?_
  intro c x c' hc hrun
  have hcount : quadCount.run c = (.ok (c.quads.size : Int), c) := rfl
  rw [Steps.run_bind_ok hcount] at hrun
  exact (tidies_pushJump List.mem_cons_self hc hrun).tail

theorem tidies_addElse : Tidies A Q₀ P b addElse := by
  intro c x c' hc h
  obtain ⟨_, c₁, hemit, h₁⟩ := Steps.bind_eq_ok h
  obtain ⟨j, c₂, hpop, h₂⟩ := Steps.bind_eq_ok h₁
  have hemits : Carries (Compiler.Tidy A Q₀ P b) (emit "GoTo" .none .none .none) fun _ c =>
      c.Tidy A Q₀ (((c.quads.size : Int) - 1) :: P) b :=
    carries_emit (fits_of_all hA (by decide)) trivial trivial trivial
  have hc₂ := carries_popJump (hemits hc hemit) hpop
  obtain ⟨rest, -, rfl⟩ := pop_eq_ok hpop
  have hcount : quadCount.run { c₁ with jumps := rest } =
      (.ok (c₁.quads.size : Int), { c₁ with jumps := rest }) := rfl
  rw [Steps.run_bind_ok hcount] at h₂
  obtain ⟨_, c₃, hpush, h₃⟩ := Steps.bind_eq_ok h₂
  have hc₃ := tidies_pushJump (List.mem_cons_of_mem j List.mem_cons_self) hc₂ hpush
  have hc₄ := tidies_completeHere List.mem_cons_self hc₃ h₃
  exact hc₄.tail.tail

theorem tidies_completeLoop : Tidies A Q₀ P b completeLoop := by
  refine carries_popJump.bind fun exit => carries_popJump.bind fun again => carries_drop [again, exit] ?_
  refine .bind (tidies_emit (fits_of_all hA (by decide)) trivial trivial trivial) fun _ =>
    (tidies_completeHere (List.mem_cons_of_mem _ List.mem_cons_self)).bind fun _ =>
      carries_popBreaks.bind fun bs => carries_drop bs ?_
  exact tidies_completeAll fun j hj => List.mem_append_left _ hj

theorem tidies_addBreak : Tidies A Q₀ P b addBreak := by
  intro c x c' hc h
  obtain ⟨inner, breaks, printed, hbreaks, rfl⟩ := addBreak_eq_ok h
  have hpush : Compiler.Tidy A Q₀ (c.quads.size :: P) b
      { c with printed, quads := c.quads.push [.text "GoTo", .none, .none, .none] } :=
    hc.pushPlain (fits_of_all hA (by decide)) trivial trivial trivial
  refine hpush.move rfl rfl rfl fun j hj => ?_
  simp only [Compiler.pending, hbreaks, numbers, List.map_cons, List.map_nil, List.flatten_cons, List.mem_append,
    List.mem_cons, List.not_mem_nil, or_false] at hj ⊢
  tauto

theorem carries_addLoopStart :
    Carries (Compiler.Tidy A Q₀ P b) addLoopStart fun _ => Compiler.Tidy A Q₀ P False :=
  (tidies hA (leads_pushOperator _)).bind fun _ => (tidies hA leads_addAssign).bind fun _ => carries_beginLoop

theorem carries_addLoopBound :
    Carries (Compiler.Tidy A Q₀ P b) addLoopBound fun _ => Compiler.Tidy A Q₀ P b' :=
  (tidies hA (leads_pushOperator _)).bind fun _ => (tidies hA (leads_addOperation _)).bind fun _ => carries_addJumpIfFalse hA

theorem tidies_addLoopEnd : Tidies A Q₀ P b addLoopEnd :=
  (tidies hA (leads_number _ _)).bind fun _ => looks_topOperand.carries.bind fun _ =>
    (tidies hA (leads_pushOperand _)).bind fun _ => looks_topOperand.carries.bind fun _ => (tidies hA (leads_pushOperand _)).bind fun _ =>
      (tidies hA (leads_pushConstant _)).bind fun _ => (tidies hA (leads_pushOperator _)).bind fun _ => (tidies hA (leads_pushOperator _)).bind fun _ =>
        (tidies hA (leads_addOperation _)).bind fun _ => (tidies hA leads_addAssign).bind fun _ =>
          (tidies_completeLoop hA).bind fun _ => (tidies hA leads_popOperand).bind fun _ => carries_pure fun _ hc => hc

end

/-! ### All steps -/

/-- A value that is a text has `A`. -/
def TextIn (A : String → Prop) (v : Option Literal) : Prop := ∀ s, v = some (.text s) → A s

theorem TextIn.wordOf {v : Option Literal} (hA : ∀ s, Clean s → A s) (h : TextIn A v) : A (wordOf v) := by
  have hempty : A "" := fits_of_all hA (by decide)
  rcases v with _ | s | i | x | t
  · exact hempty
  · exact h s rfl
  · exact hempty
  · exact hempty
  · exact hempty

theorem textIn_none : TextIn A none := fun s h => by cases h

theorem textIn_headD (h : ∀ a ∈ args, TextIn A a) : TextIn A (args.headD none) := by
  rcases args with _ | ⟨a, args⟩
  · exact textIn_none
  · exact h a List.mem_cons_self

/-- A step that gives no value. -/
theorem Tidies.none {x : Compile Unit} (h : Carries I x fun _ => Compiler.Tidy A Q₀ P b) :
    Carries I (do x; return (Option.none : Option Literal)) fun v c => c.Tidy A Q₀ P b ∧ TextIn A v :=
  h.bind fun _ => carries_pure fun _ hc => ⟨hc, textIn_none⟩

/-- All steps but those that have to do with the quad to which a loop goes back, or with the cells in
use. -/
theorem tidies_perform (hA : ∀ s, Clean s → A s) (hstep : step.marks = false)
    (hgive : ∀ w, step = .give w → A w) (hbefore : TextIn A before) (hargs : ∀ a ∈ args, TextIn A a)
    : Carries (Compiler.Tidy A Q₀ P b) (perform before args step) fun v c => c.Tidy A Q₀ P b ∧ TextIn A v := by
  have hhead := textIn_headD hargs
  cases step with
  | skip => exact carries_pure fun _ hc => ⟨hc, textIn_none⟩
  | finish =>
    exact .bind (tidies_emit (fits_of_all hA (by decide)) trivial trivial trivial) fun _ =>
      Tidies.none tidies_build
  | openTable => exact Tidies.none (tidies hA leads_openTable)
  | declare =>
    exact (reads_isAvailable _).carries.bind fun _ => carries_ite (fun _ => reads_scope.carries.bind fun _ =>
      carries_get_bind fun _ => (tidies hA (leads_take _)).bind fun _ => (tidies hA (leads_addVariable _ _)).bind fun _ =>
        Tidies.none (tidies hA (leads_setNamed _))) fun _ => carries_throw_bind _ _
  | reserve =>
    exact (tidies hA (leads_setDims _)).bind fun _ => (tidies hA (leads_takeArray _)).bind fun _ =>
      carries_pure fun _ hc => ⟨hc, fun s hs => by cases hs⟩
  | setType => exact (tidies hA (leads_setType (Ty.proper_ofName _))).bind fun _ => carries_pure fun _ hc => ⟨hc, hhead⟩
  | setVoid => exact Tidies.none (tidies_change rfl)
  | give word =>
    refine carries_pure fun _ hc => ⟨hc, fun s hs => ?_⟩
    cases hs
    exact hgive word rfl
  | beginFunction =>
    exact (reads_functionExists _).carries.bind fun _ => carries_ite (fun _ => carries_throw_bind _ _) fun _ =>
      (tidies_addFunction (hbefore.wordOf hA)).bind fun _ => Tidies.none (tidies hA leads_openTable)
  | returnDims =>
    refine Tidies.none (tidies_changeCurrent ?_)
    exact fun _ => ⟨rfl, rfl⟩
  | size i shown =>
    exact carries_ite (fun _ => carries_throw_bind _ _) fun _ =>
      carries_pure fun _ hc => ⟨hc, fun s hs => by cases hs⟩
  | param =>
    exact (reads_isAvailable _).carries.bind fun _ => carries_ite (fun _ => (tidies hA (leads_setNamed _)).bind fun _ =>
      reads_scope.carries.bind fun _ => carries_get_bind fun _ => (tidies hA (leads_take _)).bind fun _ =>
        (tidies hA (leads_addVariable _ _)).bind fun _ => Tidies.none (tidies_addParam _)) fun _ => carries_throw_bind _ _
  | paramDims =>
    exact (tidies_setParamDims _).bind fun _ => (tidies hA (leads_setDims _)).bind fun _ => Tidies.none (tidies hA (leads_takeArray _))
  | markStart =>
    refine reads_quadCount.carries.bind fun _ => Tidies.none (tidies_changeCurrent ?_)
    exact fun _ => ⟨rfl, rfl⟩
  | beginMain => exact Tidies.none tidies_completeMain
  | assign => exact Tidies.none (tidies hA leads_addAssign)
  | ret => exact Tidies.none (tidies_addReturn hA)
  | read => exact Tidies.none (tidies hA leads_addRead)
  | printValue => exact Tidies.none (tidies hA leads_addPrint)
  | endIf => exact Tidies.none tidies_completeIf
  | orElse => exact Tidies.none (tidies_addElse hA)
  | iterator => exact Tidies.none (tidies hA (leads_addIterator _))
  | loopEnd => exact Tidies.none (tidies_addLoopEnd hA)
  | endLoop => exact Tidies.none (tidies_completeLoop hA)
  | leave => exact Tidies.none (tidies_addBreak hA)
  | operation ops => exact Tidies.none (tidies hA (leads_addOperation ops))
  | pushOperator => exact Tidies.none (tidies hA (leads_pushOperator _))
  | matrixOperation => exact Tidies.none (tidies hA (leads_addMatrixOperation _))
  | closeGroup => exact (tidies hA leads_popOperator).bind fun _ => carries_pure fun _ hc => ⟨hc, textIn_none⟩
  | pushVariable =>
    exact (reads_variableOf _).carries.bind fun _ => (tidies hA (leads_setNamed _)).bind fun _ =>
      Tidies.none (tidies hA (leads_pushVariable _))
  | beginAccess => exact Tidies.none (tidies_change rfl)
  | openIndex => exact Tidies.none (tidies hA leads_openIndex)
  | closeIndex => exact Tidies.none (tidies hA leads_addIndex)
  | endAccess => exact Tidies.none (tidies hA leads_addElement)
  | constant =>
    rw [perform]
    split
    · next value hvalue =>
      refine (tidies_constant hA (fun s hs => hhead s ?_) _).bind fun _ => Tidies.none (tidies hA (leads_pushConstant _))
      rw [hvalue, hs]
    · exact carries_pure fun _ hc => ⟨hc, textIn_none⟩
  | callResult => exact Tidies.none (tidies_addCallResult hA)
  | callStatement =>
    exact tidies_popCall.bind fun _ => (reads_functionOf _).carries.bind fun _ => carries_ite
      (fun _ => carries_throw_bind _ _) fun _ => carries_pure fun _ hc => ⟨hc, textIn_none⟩
  | beginCall => exact Tidies.none (tidies_beginCall hA (hbefore.wordOf hA))
  | argument => exact Tidies.none (tidies_addNextArgument hA)
  | endCall => exact Tidies.none (tidies_endCall hA)
  | _ => cases hstep

theorem carries_perform (hA : ∀ s, Clean s → A s) {m m' : Mode}
    (hm : Mode.afterStep step m = some m') (hgive : ∀ w, step = .give w → A w)
    (hbefore : TextIn A before) (hargs : ∀ a ∈ args, TextIn A a) :
    Carries (fun c => c.Tidy A Q₀ [0] (m ≠ .fresh) ∧ c.space.Sound) (perform before args step)
      fun v c => c.Tidy A Q₀ [0] (m' ≠ .fresh) ∧ TextIn A v := by
  by_cases hmarks : step.marks = false
  · intro c v c' hc hrun
    exact tidies_perform hA hmarks hgive hbefore hargs
      (hc.1.mono (fun _ hj => hj) (Mode.ne_fresh_of_afterStep hmarks hm)) hrun
  have hhead := textIn_headD hargs
  intro c v c' hc hrun
  cases step with
  | begin =>
    have hglobal : Tidies A Q₀ [0] (m ≠ .fresh) setGlobal := tidies_change rfl
    exact ((tidies_say _).bind fun _ => (tidies_addFunction (fits_of_all hA (by decide))).bind fun _ =>
      hglobal.bind fun _ => Tidies.none (carries_addMain hA List.mem_cons_self)) hc.1 hrun
  | endFunction =>
    obtain ⟨_, c₁, hend, hrun⟩ := Steps.bind_eq_ok hrun
    have hmode : m' ≠ .fresh → m ≠ .fresh := by cases m <;> cases hm <;> decide
    exact Tidies.none tidies_closeTable ((carries_addFunctionEnd hA hc hend).mono (fun _ hj => hj) hmode) hrun
  | printText =>
    have hmode : m ≠ .fresh := by
      rintro rfl
      cases hm
    obtain ⟨hc', hv⟩ := Tidies.none (tidies_addPrintText hA (hhead.wordOf hA) hmode) hc.1 hrun
    exact ⟨hc'.mono (fun _ hj => hj) fun _ => hmode, hv⟩
  | jumpIfFalse => exact Tidies.none (carries_addJumpIfFalse hA) hc.1 hrun
  | loopBound => exact Tidies.none (carries_addLoopBound hA) hc.1 hrun
  | loopStart =>
    cases hm
    obtain ⟨hc', hv⟩ := Tidies.none (carries_addLoopStart hA) hc.1 hrun
    exact ⟨hc'.mono (fun _ hj => hj) fun h => h rfl, hv⟩
  | beginLoop =>
    cases hm
    obtain ⟨hc', hv⟩ := Tidies.none carries_beginLoop hc.1 hrun
    exact ⟨hc'.mono (fun _ hj => hj) fun h => h rfl, hv⟩
  | _ => exact absurd rfl hmarks

end Compile

/-! ### All phrases -/

/-- The word that a step gives. -/
def Step.words : Step → List String
  | .give w => [w]
  | _ => []

namespace Dialect

open Text

variable {d : Dialect} {r : DialectRule}

/-- The words which rules give are clean. -/
theorem clean_of_give (hr : r ∈ d.rules) {w : String} (h : r.step = .give w) : Clean w := by
  have hall : (d.rules.all fun r => r.step.words.all fun w => w.toList.all fun c => decide (32 ≤ c.toNat)) =
      true := by
    cases d <;> decide +kernel
  have hrule := List.all_eq_true.mp hall r hr
  rw [h] at hrule
  exact clean_of_all (List.all_eq_true.mp hrule w List.mem_cons_self)

/-- The check that a token stands alone in its rules, and which step they have. -/
def alone (d : Dialect) (s : String) (step : Step) : Bool :=
  d.rules.all fun r => !(r.symbols.map key).contains (key s) ||
    (decide (r.symbols.map key = [key s]) && decide (r.step = step))

theorem rule_of_alone (h : d.alone s step = true) (hr : r ∈ d.rules) (hs : s ∈ r.symbols) :
    r.symbols = [s] ∧ r.step = step := by
  have hrule := List.all_eq_true.mp h r hr
  rw [Bool.or_eq_true, Bool.not_eq_true', Bool.and_eq_true, decide_eq_true_eq, decide_eq_true_eq] at hrule
  rcases hrule with hnot | ⟨hsymbols, hstep⟩
  · have hmem : (r.symbols.map key).contains (key s) = true := List.contains_iff_mem.mpr (List.mem_map_of_mem hs)
    rw [hmem] at hnot
    cases hnot
  · refine ⟨?_, hstep⟩
    obtain ⟨s', hs', hkey⟩ := List.map_eq_singleton_iff.mp hsymbols
    rw [hs', key_inj hkey]

theorem alone_char (d : Dialect) : d.alone "CTE_CHAR" .constant = true := by cases d <;> decide +kernel

theorem alone_string (d : Dialect) : d.alone "STRING" .printText = true := by cases d <;> decide +kernel

end Dialect

open Compile Phrase

/-- Tidy states are guarded by all steps. -/
theorem guard_tidy {A : String → Prop} (hA : ∀ s, Clean s → A s) (d : Dialect) (Q₀ : Array Quad) :
    Guard d (TextIn A) fun m c => c.InRange ∧ c.Tidy A Q₀ [0] (m ≠ .fresh) where
  weaken hm h := ⟨h.1, h.2.mono (fun _ hj => hj) fun _ => hm⟩
  reports := by
    rintro m c c' ⟨printed, rfl⟩ h
    exact ⟨(invariant_inRange d).reports ⟨printed, rfl⟩ h.1, h.2.same ⟨rfl, rfl, rfl, rfl, rfl⟩⟩
  step rule hrule {m m'} hm {before v args c c'} hvalues hbefore hargs hc hrun := by
    have hrange := (invariant_inRange d).step rule hrule before args hvalues c hc.1
    rw [hrun] at hrange
    obtain ⟨hc', hv⟩ := carries_perform hA hm (fun w hw => hA w (Dialect.clean_of_give hrule hw)) hbefore hargs
      ⟨hc.2, hc.1.space⟩ hrun
    exact ⟨⟨hrange, hc'⟩, hv⟩

theorem Compiler.tidy_start (A : String → Prop) (debug : Bool) (objectName : String) :
    (Compiler.start debug objectName).Tidy A #[] [0] (Mode.fresh ≠ .fresh) where
  functions _ h := absurd h List.not_mem_nil
  names := List.nodup_nil
  constants _ h := absurd h List.not_mem_nil
  quads i q h := by cases h
  kept i s h := by cases h
  spare j hj := by
    rw [show ([0] ++ (Compiler.start debug objectName).pending : List Int) = [0] from rfl, List.mem_singleton] at hj
    subst hj
    exact ⟨Int.le_refl 0, Int.le_refl 0, fun s h => by cases h⟩
  lt h := absurd rfl h

theorem Mode.after_program_fresh (d : Dialect) : Mode.after d "program" .fresh = some .any := by
  cases d <;> decide +kernel

namespace Phrase

variable {d : Dialect} {P : Phrase} {debug : Bool} {objectName : String} {v : Option Literal} {c c' : Compiler}

/-- What is compiled from tokens with texts of a kind has texts of this kind alone. -/
theorem Derives.tidy {A : String → Prop} (hA : ∀ s, Clean s → A s) (hP : Derives d P) (hs : P.symbol = "program")
    (hfits : P.Fits (TextIn A)) (h : P.Compiles none (.start debug objectName) v c) : c.Tidy A #[] [0] True := by
  have hmode : Mode.after d P.symbol .fresh = some .any := by rw [hs]; exact Mode.after_program_fresh d
  have hstart : (Compiler.start debug objectName).InRange ∧
      (Compiler.start debug objectName).Tidy A #[] [0] (Mode.fresh ≠ .fresh) :=
    ⟨Compiler.inRange_start debug objectName, Compiler.tidy_start A debug objectName⟩
  have hc := (guard_tidy hA d #[]).compiles hP hfits hmode textIn_none hstart h
  exact hc.1.2.mono (fun _ hj => hj) fun _ => by decide

/-- What prints a text at some stage does so in the end. -/
theorem Derives.text_kept (hP : Derives d P) (hs : P.symbol = "program")
    (h : P.During none (.start debug objectName) c' v c) {i : Nat}
    (hi : c'.quads[i]? = some (.ofText s)) : c.quads[i]? = some (.ofText s) := by
  have hmode : Mode.after d P.symbol .fresh = some .any := by rw [hs]; exact Mode.after_program_fresh d
  have hA : ∀ s, Clean s → (fun _ => True : String → Prop) s := fun _ _ => trivial
  have hstart : (Compiler.start debug objectName).InRange ∧
      (Compiler.start debug objectName).Tidy (fun _ => True) (Compiler.start debug objectName).quads [0]
        (Mode.fresh ≠ .fresh) :=
    ⟨Compiler.inRange_start debug objectName, Compiler.tidy_start _ debug objectName⟩
  have hc := Guard.onward (G := fun c₀ m c => c.InRange ∧ c.Tidy (fun _ => True) c₀.quads [0] (m ≠ .fresh))
    (fun c₀ => guard_tidy hA d c₀.quads) (fun h => ⟨h.1, h.2.functions, h.2.names, h.2.constants, h.2.quads,
      fun _ _ hi => hi, h.2.spare, h.2.lt⟩) h hP (fun _ _ _ _ => trivial) hmode textIn_none hstart
  exact hc.1.2.kept i s hi

/-- A token of a phrase is a part of a rule, and the step of the rule is done. -/
theorem Derives.exists_step (hP : Derives d P) : ∀ {before v : Option Literal} {c c'' : Compiler} {x : String × Literal},
    x ∈ P.yield → P.Compiles before c v c'' → P = .token x.1 x.2 ∨
      ∃ rule ∈ d.rules, ∃ (parts : List Phrase) (before' w : Option Literal) (args : List (Option Literal))
        (c₀ c₁ c' : Compiler), parts.map symbol = rule.symbols ∧ .token x.1 x.2 ∈ parts ∧
          CompilesAll before' parts c₀ args c₁ ∧
          (perform before' args rule.step).run c₁ = (.ok w, c') ∧ P.During before c c' v c'' := by
  induction hP with
  | @token s v hs =>
    intro before w c c'' x hx _
    rw [yield_token, List.mem_singleton] at hx
    rw [hx]
    exact .inl rfl
  | @node rule parts hrule hsymbols hparts ih =>
    intro before v c c'' x hx hP
    right
    obtain ⟨p, hp, hxp⟩ := mem_yieldAll.mp hx
    obtain ⟨args, c₁, hall, hrun⟩ := compiles_node.mp hP
    obtain ⟨ps, qs, rfl⟩ := List.append_of_mem hp
    obtain ⟨args₁, args₂, c₂, rfl, hps, hrest⟩ := compilesAll_append.mp hall
    obtain ⟨w, c₃, args₃, hpc, hqs, rfl⟩ := compilesAll_cons.mp hrest
    rcases ih p hp hxp hpc with rfl | ⟨rule', hrule', parts', before', w', args', c₀, c₁', c', hsym, hmem, hall', hrun', hduring⟩
    · exact ⟨rule, hrule, _, before, v, _, c, c₁, c'', hsymbols, hp, hall, hrun, .done hP⟩
    · exact ⟨rule', hrule', parts', before', w', args', c₀, c₁', c', hsym, hmem, hall', hrun',
        .inside hps hduring hqs hrun⟩

/-- Where a token stands alone in its rules, their step is done with its value. -/
theorem Derives.exists_alone (hP : Derives d P) (hs : P.symbol = "program")
    (h : P.Compiles none (.start debug objectName) v c) {x : Literal}
    (halone : d.alone s step = true) (hne : s ≠ "program") (hx : (s, x) ∈ P.yield) :
    ∃ before w c₁ c', (perform before [some x] step).run c₁ = (.ok w, c') ∧
      P.During none (.start debug objectName) c' v c := by
  rcases hP.exists_step hx h with rfl | ⟨rule, hrule, parts, before, w, args, c₀, c₁, c', hsymbols, hmem, hall,
    hrun, hduring⟩
  · exact absurd hs hne
  · have hin : s ∈ rule.symbols := hsymbols ▸ List.mem_map_of_mem hmem
    obtain ⟨hone, rfl⟩ := Dialect.rule_of_alone halone hrule hin
    rw [hone] at hsymbols
    obtain ⟨p, rfl, -⟩ := List.map_eq_singleton_iff.mp hsymbols
    obtain rfl := List.mem_singleton.mp hmem
    obtain ⟨_, c₂, rest, htoken, hnil, rfl⟩ := compilesAll_cons.mp hall
    obtain ⟨rfl, -⟩ := compiles_token.mp htoken
    obtain ⟨rfl, -⟩ := compilesAll_nil.mp hnil
    exact ⟨before, w, c₁, c', hrun, hduring⟩

/-- The characters of a program are among its constants. -/
theorem Derives.char_mem (hP : Derives d P) (hs : P.symbol = "program")
    (h : P.Compiles none (.start debug objectName) v c) (hx : ("CTE_CHAR", .text s) ∈ P.yield) :
    ∃ k ∈ c.constants, k.value = .text s := by
  obtain ⟨before, w, c₁, c', hrun, hduring⟩ := hP.exists_alone hs h d.alone_char (by decide) hx
  obtain ⟨k, c₂, hconstant, hrest⟩ := Steps.bind_eq_ok hrun
  have hsame : Literal.same (.text s) (.text s) = true := beq_self_eq_true s
  rcases run_constant hsame c₁ with ⟨type, c₃, hfull⟩ | ⟨k', c₃, hok, hfind, -⟩
  · rw [hfull] at hconstant
    cases hconstant
  rw [hok] at hconstant
  cases hconstant
  have hk : k ∈ c₂.constants := List.mem_of_find?_eq_some hfind
  have hvalue := List.find?_some hfind
  cases hrest
  refine ⟨k, (hP.settled hs hduring).2.subset hk, ?_⟩
  rw [Bool.and_eq_true] at hvalue
  rcases hkv : k.value with t | i | y | t <;> rw [hkv] at hvalue
  · rw [beq_iff_eq.mp hvalue.1]
  · cases hvalue.1
  · cases hvalue.1
  · cases hvalue.1

/-- The strings of a program are in its code. -/
theorem Derives.string_mem (hP : Derives d P) (hs : P.symbol = "program")
    (h : P.Compiles none (.start debug objectName) v c) (hx : ("STRING", .text s) ∈ P.yield) :
    ∃ i : Nat, c.quads[i]? = some (.ofText s) := by
  obtain ⟨before, w, c₁, c', hrun, hduring⟩ := hP.exists_alone hs h d.alone_string (by decide) hx
  obtain ⟨_, c₂, hprint, hrest⟩ := Steps.bind_eq_ok hrun
  obtain ⟨printed, rfl⟩ := emit_eq_ok hprint
  cases hrest
  refine ⟨c₁.quads.size, hP.text_kept hs hduring ?_⟩
  rw [Array.getElem?_push, if_pos rfl]
  rfl

end Phrase

end QuadLang
