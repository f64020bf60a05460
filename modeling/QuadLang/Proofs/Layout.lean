/-
The layout of programs.

The code of a program is one jump to the main part, then the functions, one after the other,
each with its end, and then the main part with the end of the program.

* `FunctionsLaid`, `ProgramLaid` — the code of functions and of a program;
* `Phrase.Derives.laysAll` — all functions are compiled so that their code is laid out;
* `compile_laid` — the code of every program that is compiled is laid out.

Design notes: the kinds of functions only grow while a program is compiled, and a walk over the
code of a function stays one when there are more functions.
-/
import QuadLang.Proofs.Statements

namespace QuadLang

open Phrase Steps

variable {c c₁ c₂ c₃ c' : Compiler} {Q : Array Quad} {args : List (Option Literal)}
  {before v : Option Literal} {change : Function → Function} {debug : Bool} {e s : Nat}
  {kinds kinds' : Kinds} {name objectName n : String} {rs : List Routine} {f : Function}
  {body functions : Phrase} {α : Type} {x r : Unit}

/-! ### Declarations -/

/-- A declaration makes no code. -/
structure Declares (c c' : Compiler) : Prop where
  quads : c'.quads = c.quads
  jumps : c'.jumps = c.jumps
  breaks : c'.breaks = c.breaks
  calls : c'.calls = c.calls
  currentName : c'.currentName = c.currentName
  globalName : c'.globalName = c.globalName
  kinds : c'.kinds = c.kinds
  currentType : c.currentType.Proper → c'.currentType.Proper

namespace Declares

theorem trans (h : Declares c c₁) (h' : Declares c₁ c') : Declares c c' where
  quads := h'.quads.trans h.quads
  jumps := h'.jumps.trans h.jumps
  breaks := h'.breaks.trans h.breaks
  calls := h'.calls.trans h.calls
  currentName := h'.currentName.trans h.currentName
  globalName := h'.globalName.trans h.globalName
  kinds := h'.kinds.trans h.kinds
  currentType := h'.currentType ∘ h.currentType

theorem of_goes (h : Goes .silence .silence c c') : Declares c c' where
  __ := h
  quads := h.quads_eq
  kinds := by
    funext f
    rw [Compiler.kinds, Compiler.kinds, h.head?]

theorem of_reports (h : c.Reports c') : Declares c c' := of_goes (.of_reports h)

end Declares

/-- The kinds when a function is put into the table. -/
theorem kinds_put (h : c'.functions = c.functions.put n f) (x : String) :
    c'.kinds x = if x = n then some (f.returnType, f.start) else c.kinds x := by
  rw [Compiler.kinds, Compiler.head?, h, Table.get?_put]
  split
  · rfl
  · rfl

/-- The kinds when a function is changed, but not its kind. -/
theorem kinds_put_same {g : Function} (h : c'.functions = c.functions.put n g)
    (hget : c.functions.get? n = some f) (ht : g.returnType = f.returnType) (hs : g.start = f.start)
    : c'.kinds = c.kinds := by
  funext x
  rw [kinds_put h, ht, hs]
  split
  · next hx =>
    rw [hx, Compiler.kinds, Compiler.head?, hget]
    rfl
  · rfl

namespace Compile

variable {name : Option String}

theorem leads_declares_bind {β : Type} {x : Compile α} {f : α → Compile β} (hx : Leads Declares x)
    (hf : ∀ a, Leads Declares (f a)) : Leads Declares (x >>= f) :=
  hx.bind hf Declares.trans

theorem leads_declares {x : Compile α} (h : Leads (Goes .silence .silence) x) :
    Leads Declares x := h.mono fun _ _ => .of_goes

theorem changeFunction_eq_ok (h : (changeFunction name change).run c = (.ok x, c')) :
    ∃ n f, name = some n ∧ c.functions.get? n = some f ∧
      c' = { c with functions := c.functions.put n (change f) } := by
  obtain ⟨f, c₁, hf, hchange⟩ := bind_eq_ok h
  obtain ⟨rfl, n, rfl, hget⟩ := functionOf_eq_ok hf
  cases hchange
  exact ⟨n, f, rfl, hget, rfl⟩

theorem changeCurrent_eq_ok (h : (changeCurrent change).run c = (.ok r, c')) :
    ∃ f g, c.currentName = some f ∧ c.functions.get? f = some g ∧
      c' = { c with functions := c.functions.put f (change g) } := by
  rw [changeCurrent, run_bind_ok (run_get c)] at h
  exact changeFunction_eq_ok h

theorem leads_declares_change
    (h : ∀ f, (change f).returnType = f.returnType ∧ (change f).start = f.start) :
    Leads Declares (changeFunction name change) := by
  intro c x c' hrun
  obtain ⟨n, f, rfl, hget, rfl⟩ := changeFunction_eq_ok hrun
  exact ⟨rfl, rfl, rfl, rfl, rfl, rfl, kinds_put_same rfl hget (h f).1 (h f).2, id⟩

theorem leads_declares_current
    (h : ∀ f, (change f).returnType = f.returnType ∧ (change f).start = f.start) :
    Leads Declares (changeCurrent change) :=
  leads_declares_bind (leads_declares (leads_get _)) fun _ => leads_declares_change h

/-- A step of a declaration declares. -/
theorem leads_perform_declaring {step : Step} (h : step.declaring = true) (before : Option Literal)
    (args : List (Option Literal)) : Leads Declares (perform before args step) := by
  cases step with
  | skip | give _ | openTable | declare | reserve | setType | setVoid | size _ _ =>
    exact leads_declares (leads_perform_quiet rfl before args)
  | returnDims =>
    exact leads_declares_bind (leads_declares_current fun _ => ⟨rfl, rfl⟩) fun _ =>
      leads_declares (leads_pure _ _)
  | param =>
    refine leads_declares_bind (leads_declares (reads_isAvailable _).leads) fun b => ?_
    split
    · refine leads_declares_bind (leads_declares (leads_setNamed _)) fun _ =>
        leads_declares_bind (leads_declares reads_scope.leads) fun _ =>
          leads_declares_bind (leads_declares (leads_get _)) fun _ =>
            leads_declares_bind (leads_declares (leads_take _)) fun _ =>
              leads_declares_bind (leads_declares (leads_addVariable _ _)) fun _ => ?_
      exact leads_declares_bind (leads_declares_bind (leads_declares (leads_get _)) fun _ =>
        leads_declares_current fun _ => ⟨rfl, rfl⟩) fun _ => leads_declares (leads_pure _ _)
    · intro c a c' hrun
      cases hrun
  | paramDims =>
    have hdims : ∀ dims, Leads Declares (setParamDims dims) := by
      intro dims
      refine leads_declares_bind (leads_declares (leads_get _)) fun _ =>
        leads_declares_bind (leads_declares (reads_functionOf _).leads) fun f => ?_
      split
      · exact leads_throw _
      · exact leads_declares_change fun _ => ⟨rfl, rfl⟩
    exact leads_declares_bind (hdims _) fun _ =>
      leads_declares_bind (leads_declares (leads_setDims _)) fun _ =>
        leads_declares_bind (leads_declares (leads_takeArray _)) fun _ => leads_declares (leads_pure _ _)
  | _ => cases h

end Compile

namespace Phrase

variable {d : Dialect} {P : Phrase}

/-- Declarations declare. -/
theorem Derives.declares (h : Derives d P) : P.symbol ∈ declaringNames ∨ P.symbol = "empty" →
    ∀ {before v c c'}, P.Compiles before c v c' → Declares c c' := by
  induction h with
  | token v hs => exact fun _ _ _ _ _ hP => .of_reports hP.2
  | @node rule parts hrule hsymbols hparts ih =>
    have hderives : Derives d (.node rule parts) := .node hrule hsymbols hparts
    intro hs before v c c' hP
    rcases hs with hs | hs
    · obtain ⟨hstep, hinner⟩ := hderives.declaring hs
      obtain ⟨args, c₁, hpasses, hrun⟩ := hP.node
      refine Declares.trans ?_ ((Compile.leads_perform_declaring hstep before args).apply hrun)
      exact Passes.leads .of_reports .trans (fun p hp => ih p (List.mem_of_mem_filter hp) (hinner p hp).2)
        hpasses
    · exact .of_reports (hderives.empty_reports hs hP)

end Phrase

/-! ### The steps around functions -/

/-- The quads at the ends of functions and of the program. -/
def endQuad (word : String) : Quad := [.text word, .none, .none, .none]

/-- A function is begun. -/
structure Opens (name : String) (c c' : Compiler) : Prop where
  fresh : c.kinds name = none
  quads : c'.quads = c.quads
  jumps : c'.jumps = c.jumps
  breaks : c'.breaks = c.breaks
  calls : c'.calls = c.calls
  currentName : c'.currentName = some name
  globalName : c'.globalName = c.globalName
  kinds : ∀ x, c'.kinds x = if x = name then some (c.currentType, none) else c.kinds x
  currentType : c.currentType.Proper → c'.currentType.Proper

/-- A function is ended. -/
structure Closes (c c' : Compiler) : Prop where
  quads : c'.quads = c.quads.push (endQuad "EndFunc")
  jumps : c'.jumps = c.jumps
  breaks : c'.breaks = c.breaks
  calls : c'.calls = c.calls
  currentName : c'.currentName = c.globalName
  globalName : c'.globalName = c.globalName
  kinds : c'.kinds = c.kinds
  currentType : c.currentType.Proper → c'.currentType.Proper

namespace Compile

/-- A function that begins is new. -/
theorem beginFunction_eq_ok (h : (perform before args .beginFunction).run c = (.ok v, c')) :
    c.functions.get? (wordOf before) = none ∧ ∃ c₁,
      (addFunction (wordOf before)).run c = (.ok (), c₁) ∧ openTable.run c₁ = (.ok (), c') := by
  rw [perform, run_bind_ok (show (functionExists (wordOf before)).run c =
    (.ok (c.functions.has (wordOf before)), c) from rfl)] at h
  by_cases hex : c.functions.has (wordOf before) = true
  · rw [if_pos hex] at h
    cases h
  rw [if_neg hex] at h
  obtain ⟨_, c₁, hadd, h₁⟩ := bind_eq_ok h
  obtain ⟨_, c₂, hopen, h₂⟩ := bind_eq_ok h₁
  cases h₂
  exact ⟨Table.get?_eq_none (Bool.eq_false_iff.mpr hex), c₁, hadd, hopen⟩

theorem opens_beginFunction (h : (perform before args .beginFunction).run c = (.ok v, c')) :
    Opens (wordOf before) c c' := by
  obtain ⟨hget, c₁, hadd, hopen⟩ := beginFunction_eq_ok h
  obtain ⟨printed, rfl⟩ := addFunction_eq_ok hadd
  have hdeclares := (leads_declares leads_openTable).apply hopen
  exact { hdeclares with
    fresh := by rw [Compiler.kinds, Compiler.head?, hget]; rfl
    kinds := fun x => (congrFun hdeclares.kinds x).trans ((kinds_put (c := c) rfl x).trans rfl) }

theorem addFunctionEnd_eq_ok (h : addFunctionEnd.run c = (.ok r, c')) :
    ∃ f g era printed, c.currentName = some f ∧ c.functions.get? f = some g ∧ c' = { c with
      functions := c.functions.put f { g with era }, tempCount := 0, returnCount := 0
      space := c.space.resetLocals, quads := c.quads.push (endQuad "EndFunc"), printed } := by
  rw [addFunctionEnd, run_bind_ok (run_get c)] at h
  dsimp only at h
  obtain ⟨era, hend⟩ : ∃ era, (do
      changeCurrent fun f => { f with era }
      resetCounters
      emit "EndFunc" .none .none .none : Compile Unit).run c = (.ok r, c') := by
    by_cases hcount : (c.returnCount == 0) = true
    · rw [if_pos hcount] at h
      obtain ⟨f, c₁, hcurrent, hrest⟩ := bind_eq_ok h
      obtain rfl := reads_current.looks hcurrent
      by_cases hvoid : (f.returnType.name != "void") = true
      · rw [if_pos hvoid] at hrest
        cases hrest
      rw [if_neg hvoid, run_bind_ok (run_get c₁)] at hrest
      exact ⟨_, hrest⟩
    · rw [if_neg hcount, run_bind_ok (run_get c)] at h
      exact ⟨_, h⟩
  obtain ⟨_, c₁, hchange, h₁⟩ := bind_eq_ok hend
  obtain ⟨_, c₂, hreset, h₂⟩ := bind_eq_ok h₁
  cases hreset
  obtain ⟨f, g, hname, hget, rfl⟩ := changeCurrent_eq_ok hchange
  obtain ⟨printed, rfl⟩ := emit_eq_ok h₂
  exact ⟨f, g, era, printed, hname, hget, rfl⟩

theorem closes_endFunction (h : (perform before args .endFunction).run c = (.ok v, c')) :
    Closes c c' := by
  obtain ⟨_, c₁, hend, h₁⟩ := bind_eq_ok h
  obtain ⟨_, c₂, hclose, h₂⟩ := bind_eq_ok h₁
  cases h₂
  obtain ⟨f, g, era, printed, hname, hget, rfl⟩ := addFunctionEnd_eq_ok hend
  obtain ⟨_, c₃, hchange, h₃⟩ := bind_eq_ok hclose
  cases h₃
  have hdropped : Declares _ c₃ := (leads_declares_current (by exact fun _ => ⟨rfl, rfl⟩)).apply hchange
  exact { hdropped with
    currentName := hdropped.globalName
    kinds := hdropped.kinds.trans (kinds_put_same rfl hget rfl rfl) }

end Compile

/-! ### Walks and kinds -/

/-- All that is known of functions stays known. -/
def Kinds.le (kinds kinds' : Kinds) : Prop := ∀ f k, kinds f = some k → kinds' f = some k

/-- Whether values can be returned from a function. -/
def Kinds.returns (kinds : Kinds) (f : String) : Bool := (kinds f).any (·.1 != .void)

theorem Kinds.le.trans {kinds₁ : Kinds} (h : kinds.le kinds₁) (h' : kinds₁.le kinds') :
    kinds.le kinds' := fun f k hf => h' f k (h f k hf)

theorem Kinds.le.returns (h : kinds.le kinds') {f : String} {k : Ty × Option Int}
    (hf : kinds f = some k) : kinds'.returns f = kinds.returns f := by
  rw [Kinds.returns, Kinds.returns, hf, h f k hf]

theorem Walk.next_mono (h : kinds.le kinds') {returns : Bool} {w w' : Walk} {q : Quad}
    (hnext : w.next kinds returns q = some w') : w.next kinds' returns q = some w' := by
  obtain ⟨u, fs, answer⟩ := w
  rw [next] at hnext ⊢
  cases answer with
  | true => exact hnext
  | false =>
    simp only [Bool.false_eq_true, if_false] at hnext ⊢
    by_cases hera : Quad.word q = "ERA"
    · rwa [if_pos hera] at hnext ⊢
    rw [if_neg hera] at hnext ⊢
    by_cases hparam : Quad.word q = "PARAM"
    · rwa [if_pos hparam] at hnext ⊢
    rw [if_neg hparam] at hnext ⊢
    by_cases hsub : Quad.word q = "GoSub"
    · rw [if_pos hsub] at hnext ⊢
      rcases fs with _ | ⟨f, rest⟩
      · exact hnext
      · obtain ⟨k, hk, hnext⟩ := Option.bind_eq_some_iff.mp hnext
        exact Option.bind_eq_some_iff.mpr ⟨k, h f k hk, hnext⟩
    · rwa [if_neg hsub] at hnext ⊢

theorem Walk.run_mono (h : kinds.le kinds') {returns : Bool} {qs : List Quad} {w w' : Walk}
    (hrun : w.run kinds returns qs = some w') : w.run kinds' returns qs = some w' := by
  induction qs generalizing w with
  | nil => exact hrun
  | cons q qs ih =>
    obtain ⟨w₁, hnext, hrest⟩ := Option.bind_eq_some_iff.mp hrun
    rw [run, next_mono h hnext]
    exact ih hrest

theorem Walked.mono (h : kinds.le kinds') {returns : Bool} {u : Due}
    (hw : Walked kinds returns Q u s e) : Walked kinds' returns Q u s e :=
  ⟨hw.1, Walk.run_mono h hw.2⟩

theorem Laid.mono {W W' : Due → Nat → Nat → Prop} (h : ∀ u s e, W u s e → W' u s e)
    {exit : Option Nat} {P : Phrase} (hl : Laid Q W exit P s e) : Laid Q W' exit P s e := by
  induction hl with
  | plain hs code => exact .plain hs (h _ _ _ code)
  | pass hs hparts code ih => exact .pass hs hparts ih
  | sequence hs hparts first rest ih ih' => exact .sequence hs hparts ih ih'
  | ifThen hs hparts hu test skip code ih => exact .ifThen hs hparts hu (h _ _ _ test) skip ih
  | ifElse hs hparts hparts' hu test skip code leave other ih ih' =>
    exact .ifElse hs hparts hparts' hu (h _ _ _ test) skip ih leave ih'
  | whileLoop hs hparts hu test done code again ih =>
    exact .whileLoop hs hparts hu (h _ _ _ test) done ih again
  | fromLoop hs hparts start hu test done code count again ih =>
    exact .fromLoop hs hparts (h _ _ _ start) hu (h _ _ _ test) done ih (h _ _ _ count) again
  | leave hs jump => exact .leave hs jump

/-! ### Functions -/

/-- A function in the code: its first quad and its end. -/
structure Routine where
  name : String
  start : Nat
  last : Nat
deriving DecidableEq

/-- The code of functions, from `s` to before `e`. -/
inductive FunctionsLaid (Q : Array Quad) (W : String → Due → Nat → Nat → Prop) :
    Phrase → List Routine → Nat → Nat → Prop
  | none {rule : DialectRule} {parts : List Phrase} {p : Phrase} {s : Nat}
      (hs : rule.name = "functions") (hparts : inner parts = [p]) :
      FunctionsLaid Q W (.node rule parts) [] s s
  | some {rule : DialectRule} {parts : List Phrase}
      {type mark dims params vars mark' body mark'' rest : Phrase} {name : String}
      {rs : List Routine} {s k e : Nat} (hs : rule.name = "functions")
      (hparts : inner parts = [type, mark, dims, params, vars, mark', body, mark'', rest])
      (code : Laid Q (W name) none body s k) (last : Q[k]? = some (endQuad "EndFunc"))
      (more : FunctionsLaid Q W rest rs (k + 1) e) :
      FunctionsLaid Q W (.node rule parts) (⟨name, s, k⟩ :: rs) s e

/-- The state between functions. -/
structure Outside (c : Compiler) : Prop where
  names : c.currentName = c.globalName
  main : ∃ g, c.globalName = some g ∧ c.kinds g ≠ none
  breaks : c.breaks = []

/-- Types that are called void are void. -/
structure Compiler.Proper (c : Compiler) : Prop where
  currentType : c.currentType.Proper
  kinds : ∀ f k, c.kinds f = some k → k.1.Proper

/-- Functions are compiled so that their code is laid out. -/
structure LaysAll (rs : List Routine) (P : Phrase) (c c' : Compiler) : Prop where
  jumps : c'.jumps = c.jumps
  calls : c'.calls = c.calls
  outside : Outside c'
  globalName : c'.globalName = c.globalName
  size : c.quads.size ≤ c'.quads.size
  old : ∀ i, i < c.quads.size → c'.quads[i]? = c.quads[i]?
  kinds : c.kinds.le c'.kinds
  routines : ∀ r ∈ rs, ∃ t, c'.kinds r.name = some (t, some (r.start : Int))
  known : ∀ f k, c'.kinds f = some k → c.kinds f = some k ∨ ∃ r ∈ rs, r.name = f
  proper : c.Proper → c'.Proper
  laid : ∀ Q kinds, c'.kinds.le kinds → Agrees Q c'.quads [] c.quads.size c'.quads.size →
    FunctionsLaid Q (fun f => Walked kinds (kinds.returns f) Q) P rs c.quads.size c'.quads.size

/-- The head of a function, up to its first quad. -/
structure Begins (name : String) (c c' : Compiler) : Prop where
  fresh : c.kinds name = none
  quads : c'.quads = c.quads
  jumps : c'.jumps = c.jumps
  breaks : c'.breaks = c.breaks
  calls : c'.calls = c.calls
  currentName : c'.currentName = some name
  globalName : c'.globalName = c.globalName
  kinds : ∃ t, ∀ x, c'.kinds x =
    if x = name then some (t, some (c.quads.size : Int)) else c.kinds x
  proper : c.Proper → c'.Proper

theorem Begins.of_steps (h₁ : Declares c c₁) (h₂ : Opens name c₁ c₂) (h₃ : Declares c₂ c₃)
    (h₄ : (Compile.perform before args .markStart).run c₃ = (.ok v, c')) : Begins name c c' := by
  obtain ⟨n, c₄, hcount, hrun⟩ := bind_eq_ok h₄
  cases hcount
  obtain ⟨_, c₅, hchange, hpure⟩ := bind_eq_ok hrun
  cases hpure
  obtain ⟨n, f, hn, hget, rfl⟩ := Compile.changeFunction_eq_ok
    (show (Compile.changeFunction c₃.currentName _).run c₃ = _ from hchange)
  have hcurrent : c₃.currentName = some name := h₃.currentName.trans h₂.currentName
  obtain rfl : name = n := Option.some.inj (hcurrent.symm.trans hn)
  have hquads : c₃.quads = c.quads := (h₃.quads.trans h₂.quads).trans h₁.quads
  have hkinds₃ : ∀ x, c₃.kinds x = if x = name then some (c₁.currentType, none) else c.kinds x := by
    intro x
    rw [h₃.kinds, h₂.kinds, h₁.kinds]
  have htype : f.returnType = c₁.currentType := by
    have hf : c₃.kinds name = some (f.returnType, f.start) := by
      rw [Compiler.kinds, Compiler.head?, hget]
      rfl
    rw [hkinds₃, if_pos rfl] at hf
    exact (congrArg Prod.fst (Option.some.inj hf)).symm
  have hkinds : ∀ c₅ : Compiler, c₅.functions = c₃.functions.put name
      { f with start := some (c₃.quads.size : Int) } → ∀ x, c₅.kinds x =
        if x = name then some (c₁.currentType, some (c.quads.size : Int)) else c.kinds x := by
    intro c₅ hput x
    rw [kinds_put hput, hkinds₃, ← hquads, ← htype]
    by_cases hx : x = name
    · rw [if_pos hx, if_pos hx]
    · rw [if_neg hx, if_neg hx, if_neg hx]
  exact {
    fresh := by rw [← h₁.kinds]; exact h₂.fresh
    quads := hquads
    jumps := (h₃.jumps.trans h₂.jumps).trans h₁.jumps
    breaks := (h₃.breaks.trans h₂.breaks).trans h₁.breaks
    calls := (h₃.calls.trans h₂.calls).trans h₁.calls
    currentName := hcurrent
    globalName := (h₃.globalName.trans h₂.globalName).trans h₁.globalName
    kinds := ⟨c₁.currentType, hkinds _ rfl⟩
    proper := fun hc => {
      currentType := h₃.currentType (h₂.currentType (h₁.currentType hc.currentType))
      kinds := by
        intro x k hx
        rw [hkinds _ rfl] at hx
        by_cases hn : x = name
        · rw [if_pos hn] at hx
          cases hx
          exact h₁.currentType hc.currentType
        · rw [if_neg hn] at hx
          exact hc.kinds x k hx } }

/-- After a function the state is again that between functions. -/
theorem Outside.next (h : Outside c) (hbegin : Begins name c c₁) (hbody : Lays body c₁ c₂)
    (hclose : Closes c₂ c') : Outside c' where
  names := hclose.currentName.trans hclose.globalName.symm
  main := by
    obtain ⟨bs, hbody⟩ := hbody
    obtain ⟨g, hg, hmain⟩ := h.main
    obtain ⟨t, hkinds⟩ := hbegin.kinds
    refine ⟨g, ((hclose.globalName.trans hbody.globalName).trans hbegin.globalName).trans hg, ?_⟩
    rw [hclose.kinds, hbody.kinds, hkinds, if_neg]
    · exact hmain
    · rintro rfl
      exact hmain hbegin.fresh
  breaks := by
    obtain ⟨bs, hbody⟩ := hbody
    rw [hclose.breaks, hbody.breaks, hbody.inLoop (hbegin.breaks.trans h.breaks), withBreaks_nil,
      hbegin.breaks, h.breaks]

namespace LaysAll

variable {P body rest : Phrase} {rule : DialectRule} {parts : List Phrase}

theorem none {p : Phrase} (hs : rule.name = "functions") (hparts : inner parts = [p])
    (hout : Outside c) (h : c.Reports c') : LaysAll [] (.node rule parts) c c' := by
  obtain ⟨printed, rfl⟩ := h
  exact {
    jumps := rfl
    calls := rfl
    outside := ⟨hout.names, hout.main, hout.breaks⟩
    globalName := rfl
    size := Nat.le_refl _
    old := fun _ _ => rfl
    kinds := fun _ _ hf => hf
    routines := fun r hr => absurd hr List.not_mem_nil
    known := fun f k hf => .inl hf
    proper := fun hc => ⟨hc.currentType, hc.kinds⟩
    laid := fun Q kinds _ _ => .none hs hparts }

theorem reports (h : LaysAll rs P c c₁) (hr : c₁.Reports c') :
    LaysAll rs P c c' := by
  obtain ⟨printed, rfl⟩ := hr
  exact ⟨h.jumps, h.calls, ⟨h.outside.names, h.outside.main, h.outside.breaks⟩, h.globalName, h.size,
    h.old, h.kinds, h.routines, h.known, fun hc => ⟨(h.proper hc).currentType, (h.proper hc).kinds⟩,
    h.laid⟩

theorem some {type mark dims params vars mark' mark'' : Phrase} (hs : rule.name = "functions")
    (hparts : inner parts = [type, mark, dims, params, vars, mark', body, mark'', rest])
    (hout : Outside c) (hbegin : Begins name c c₁) (hbody : Lays body c₁ c₂) (hclose : Closes c₂ c₃)
    (hrest : LaysAll rs rest c₃ c') :
    LaysAll (⟨name, c.quads.size, c₂.quads.size⟩ :: rs) (.node rule parts) c c' := by
  obtain ⟨bs, hbody⟩ := hbody
  obtain rfl : bs = [] := hbody.inLoop (hbegin.breaks.trans hout.breaks)
  obtain ⟨t, hkinds⟩ := hbegin.kinds
  have hkinds₃ : c₃.kinds = c₁.kinds := hclose.kinds.trans hbody.kinds
  have hmore : c.kinds.le c₁.kinds := by
    intro f k hf
    rw [hkinds, if_neg, hf]
    rintro rfl
    rw [hbegin.fresh] at hf
    cases hf
  have hstart : c₁.quads.size = c.quads.size := by rw [hbegin.quads]
  have hend : c₃.quads.size = c₂.quads.size + 1 := by rw [hclose.quads, Array.size_push]
  have hcode : c.quads.size ≤ c₂.quads.size := hstart ▸ hbody.size
  have hlast : c₃.quads.size ≤ c'.quads.size := hrest.size
  have hold : ∀ i, i < c₂.quads.size → c'.quads[i]? = c₂.quads[i]? := by
    intro i hi
    rw [hrest.old i (by omega), hclose.quads, Array.getElem?_push, if_neg (by omega)]
  have hname : c₁.kinds name = Option.some (t, Option.some (c.quads.size : Int)) := by
    rw [hkinds, if_pos rfl]
  have hle : c₁.kinds.le c'.kinds := hkinds₃ ▸ hrest.kinds
  have hreturning : c₁.returning = c₁.kinds.returns name := by
    obtain ⟨g, hg, hmain⟩ := hout.main
    have hne : (Option.some name != Option.some g) = true := by
      rw [bne_iff_ne]
      rintro ⟨⟩
      exact hmain hbegin.fresh
    rw [Compiler.returning, hbegin.currentName, hbegin.globalName, hg, hne, Bool.true_and,
      Option.bind_some, Kinds.returns, Compiler.kinds, Option.any_map]
  exact {
    jumps := (hrest.jumps.trans hclose.jumps).trans (hbody.jumps.trans hbegin.jumps)
    calls := (hrest.calls.trans hclose.calls).trans (hbody.calls.trans hbegin.calls)
    outside := hrest.outside
    globalName := (hrest.globalName.trans hclose.globalName).trans
      (hbody.globalName.trans hbegin.globalName)
    size := by omega
    old := by
      intro i hi
      rw [hold i (by omega), hbody.old i (by omega), hbegin.quads]
    kinds := hmore.trans hle
    routines := by
      intro r hr
      rcases List.mem_cons.mp hr with rfl | hr
      · exact ⟨t, hle _ _ hname⟩
      · exact hrest.routines r hr
    known := by
      intro f k hf
      rcases hrest.known f k hf with hf | ⟨r, hr, rfl⟩
      · by_cases hfn : f = name
        · exact .inr ⟨_, List.mem_cons_self, hfn.symm⟩
        · rw [hkinds₃, hkinds, if_neg hfn] at hf
          exact .inl hf
      · exact .inr ⟨r, List.mem_cons_of_mem _ hr, rfl⟩
    proper := fun hc => hrest.proper {
      currentType := hclose.currentType (hbody.currentType (hbegin.proper hc).currentType)
      kinds := hkinds₃ ▸ (hbegin.proper hc).kinds }
    laid := by
      intro Q kinds hkinds' hQ
      have hlaid := hbody.laid Q Option.none (fun i hle hlt _ => ?_) fun b hb =>
        absurd hb List.not_mem_nil
      · rw [hstart] at hlaid
        refine .some hs hparts (hlaid.mono fun u s e hw => ?_) ?_ ?_
        · rw [hreturning, ← (hle.trans hkinds').returns hname] at hw
          exact hw.mono (hle.trans hkinds')
        · rw [hQ _ hcode (by omega) List.not_mem_nil, hrest.old _ (by omega), hclose.quads,
            Array.getElem?_push, if_pos rfl]
        · rw [← hend]
          exact hrest.laid Q kinds hkinds' fun i hle hlt _ =>
            hQ i (by omega) hlt List.not_mem_nil
      · rw [hQ i (by omega) (by omega) List.not_mem_nil, hold i hlt] }

end LaysAll

namespace Phrase

variable {d : Dialect} {P : Phrase}

theorem Derives.laysAll (h : Derives d P) : P.symbol = "functions" → ∀ {before v c c'},
    P.Compiles before c v c' → Outside c → ∃ rs, LaysAll rs P c c' := by
  induction h with
  | @token s v hs =>
    rintro rfl
    obtain ⟨r, hr, hname⟩ := Dialect.mem_rules_of_mem_frameNames (d := d) (s := "functions") (by decide)
    exact absurd hname (hs r hr)
  | @node rule parts hrule hsymbols hparts ih =>
    intro hs before v c c' hP hout
    have hderives : Derives d (.node rule parts) := .node hrule hsymbols hparts
    obtain ⟨_, _, heq, -, hframe, hp⟩ := hderives.byFrame hs (by decide)
    cases heq
    obtain ⟨args, c₉, hpasses, hrun⟩ := hP.node
    rw [show framesOf "functions" = [(["func_type", "found_func_name", "func_dims", "func_params",
      "vars", "found_func_start", "body", "found_func_end", "functions"], .skip), (["empty"], .skip)] by
        decide, List.mem_pair, Prod.mk.injEq, Prod.mk.injEq] at hframe
    rcases hframe with ⟨hsyms, hstep⟩ | ⟨hsyms, hstep⟩
    · rw [hstep] at hrun
      cases hrun
      simp only [List.map_eq_cons_iff, List.map_eq_nil_iff] at hsyms
      obtain ⟨type, _, hinner, htype, mark, _, rfl, hmark, dims, _, rfl, hdims, params, _, rfl, hparams, vars, _,
        rfl, hvars, mark', _, rfl, hmark', body, _, rfl, hbody, mark'', _, rfl, hmark'', rest, _, rfl, hrest, rfl⟩ :=
        hsyms
      have hmem : rest ∈ parts := List.mem_of_mem_filter (show rest ∈ inner parts by simp [hinner])
      rw [hinner] at hpasses hp
      obtain ⟨_, _, c₁, hP₁, _, _, c₂, hP₂, _, _, c₃, hP₃, _, _, c₄, hP₄, _, _, c₅, hP₅, _, _, c₆, hP₆,
        _, _, c₇, hP₇, _, _, c₈, hP₈, _, _, c₉, hP₉, hreports⟩ := hpasses
      -- the head
      have hd₁ := (hp type (by simp)).declares (.inl (by rw [htype]; decide)) hP₁
      obtain ⟨_, c₁', hr₁, hopen⟩ := (hp mark (by simp)).mark hmark
        (show framesOf _ = [(["empty"], .beginFunction)] by decide) hP₂
      have hd₃ := (hp dims (by simp)).declares (.inl (by rw [hdims]; decide)) hP₃
      have hd₄ := (hp params (by simp)).declares (.inl (by rw [hparams]; decide)) hP₄
      have hd₅ := (hp vars (by simp)).declares (.inl (by rw [hvars]; decide)) hP₅
      obtain ⟨_, c₅', hr₅, hstart⟩ := (hp mark' (by simp)).mark hmark'
        (show framesOf _ = [(["empty"], .markStart)] by decide) hP₆
      have hbegin := Begins.of_steps (hd₁.trans (.of_reports hr₁)) (Compile.opens_beginFunction hopen)
        (((hd₃.trans hd₄).trans hd₅).trans (.of_reports hr₅)) hstart
      -- the body and the end
      have hlays := (hp body (by simp)).lays.1 (by rw [hbody]; decide) hP₇
      obtain ⟨_, c₇', hr₇, hend⟩ := (hp mark'' (by simp)).mark hmark''
        (show framesOf _ = [(["empty"], .endFunction)] by decide) hP₈
      have hclose := Compile.closes_endFunction hend
      have hlays := hlays.reports hr₇
      obtain ⟨rs, hmore⟩ := ih rest hmem hrest hP₉ (hout.next hbegin hlays hclose)
      exact ⟨_, .some hs hinner hout hbegin hlays hclose (hmore.reports hreports)⟩
    · rw [hstep] at hrun
      cases hrun
      obtain ⟨p, hinner, hempty⟩ := List.map_eq_singleton_iff.mp hsyms
      rw [hinner] at hpasses hp
      obtain ⟨_, _, c₁, hP₁, hreports⟩ := hpasses
      exact ⟨[], .none hs hinner hout
        (((hp p List.mem_cons_self).empty_reports hempty hP₁).trans hreports)⟩

end Phrase

/-! ### Programs -/

/-- The code `Q` of a program with the functions `rs`: first a jump to `s`, where the main part
begins, then the functions, and at `k` the end of the main part, which is the end of the code. -/
inductive ProgramLaid (Q : Array Quad) (W : Option String → Due → Nat → Nat → Prop) :
    Phrase → List Routine → Nat → Nat → Prop
  | intro {rule : DialectRule} {parts : List Phrase} {mark vars functions main body : Phrase}
      {rs : List Routine} {s k : Nat} (hs : rule.name = "program")
      (hparts : inner parts = [mark, vars, functions, main, body]) (entry : Jump Q 0 "GoTo" s)
      (routines : FunctionsLaid Q (fun f => W (some f)) functions rs 1 s)
      (code : Laid Q (W none) none body s k) (last : Q[k]? = some (endQuad "END"))
      (size : Q.size = k + 1) : ProgramLaid Q W (.node rule parts) rs s k

/-- Whether values can be returned from a function, or from the main part. -/
def Kinds.returnsIn (kinds : Kinds) : Option String → Bool
  | some f => kinds.returns f
  | none => false

/-- The functions that are known at the end: the main part, which nothing leads into, and those
of the code. -/
structure Kinds.Covers (kinds : Kinds) (rs : List Routine) : Prop where
  routines : ∀ r ∈ rs, ∃ t, kinds r.name = some (t, some (r.start : Int))
  main : kinds "main" = some (.void, none)
  known : ∀ f k, kinds f = some k → f = "main" ∨ ∃ r ∈ rs, r.name = f
  proper : ∀ f k, kinds f = some k → k.1.Proper

/-- A program is begun. -/
structure Starts (c c' : Compiler) : Prop where
  quads : c'.quads = c.quads.push openQuad
  jumps : c'.jumps = 0 :: c.jumps
  breaks : c'.breaks = c.breaks
  currentName : c'.currentName = some "main"
  globalName : c'.globalName = some "main"
  kinds : ∀ x, c'.kinds x = if x = "main" then some (c.currentType, none) else c.kinds x
  currentType : c'.currentType = c.currentType

namespace Compile

theorem starts_begin (h : (perform before args .begin).run c = (.ok v, c')) : Starts c c' := by
  obtain ⟨_, c₁, hlog, h⟩ := bind_eq_ok h
  obtain ⟨_, c₂, hadd, h⟩ := bind_eq_ok h
  obtain ⟨_, c₃, hglobal, h⟩ := bind_eq_ok h
  obtain ⟨_, c₄, hmain, h⟩ := bind_eq_ok h
  cases h
  obtain ⟨printed, rfl⟩ := say_eq_ok hlog
  obtain ⟨printed₁, rfl⟩ := addFunction_eq_ok hadd
  cases hglobal
  obtain ⟨_, c₅, hemit, hpush⟩ := bind_eq_ok hmain
  obtain ⟨printed₂, rfl⟩ := emit_eq_ok hemit
  cases hpush
  exact ⟨rfl, rfl, rfl, rfl, rfl, fun x => (kinds_put (c := c) rfl x).trans rfl, rfl⟩

theorem beginMain_eq_ok {j : Nat} {rest : List Int}
    (h : (perform before args .beginMain).run c = (.ok v, c')) (hj : c.jumps = (j : Int) :: rest) :
    ∃ printed quads, c' = { c with printed, quads, jumps := rest } ∧
      Retargets [j] c.quads.size c.quads quads := by
  obtain ⟨_, hmain⟩ := of_run_none h
  obtain ⟨n, c₁, hpop, h₁⟩ := bind_eq_ok hmain
  obtain ⟨rfl, rfl⟩ := pop_eq_of_cons hpop hj
  obtain ⟨_, c₂, hcomplete, hsay⟩ := bind_eq_ok h₁
  obtain ⟨printed, quads, rfl, hquads⟩ := completeHere_eq_ok hcomplete
  obtain ⟨printed', rfl⟩ := say_eq_ok hsay
  exact ⟨printed', quads, rfl, hquads⟩

theorem build_eq_ok (h : build.run c = (.ok x, c')) :
    ∃ printed text, c' = { c with printed, object := some text } ∧ c.objectText = .ok text := by
  rw [build, run_bind_ok (run_get _)] at h
  obtain ⟨_, c₁, hsay, h⟩ := bind_eq_ok h
  obtain ⟨printed, rfl⟩ := say_eq_ok hsay
  rw [run_bind_ok (run_get _)] at h
  have htext : Compiler.objectText { c with printed } = c.objectText := rfl
  dsimp only at h
  rw [htext] at h
  rcases hobject : c.objectText with e | text <;> rw [hobject] at h
  · cases h
  · obtain ⟨_, c₂, hmodify, h⟩ := bind_eq_ok h
    cases hmodify
    obtain ⟨printed', rfl⟩ := say_eq_ok h
    exact ⟨printed', text, rfl, rfl⟩

theorem finish_eq_ok (h : (perform before args .finish).run c = (.ok v, c')) :
    ∃ printed text, c' = { c with
      printed, quads := c.quads.push (endQuad "END"), object := some text } ∧
      { c with quads := c.quads.push (endQuad "END") }.objectText = .ok text := by
  obtain ⟨_, c₁, hend, h⟩ := bind_eq_ok h
  obtain ⟨_, c₂, hbuild, h⟩ := bind_eq_ok h
  cases h
  obtain ⟨printed, rfl⟩ := emit_eq_ok hend
  obtain ⟨printed', text, rfl, htext⟩ := build_eq_ok hbuild
  exact ⟨printed', text, rfl, htext⟩

end Compile

/-- The steps of a program lay its code out. -/
theorem ProgramLaid.of_steps {rule : DialectRule} {parts : List Phrase} {mark vars main : Phrase}
    (hs : rule.name = "program") (hparts : inner parts = [mark, vars, functions, main, body])
    (hstart : Starts (.start debug objectName) c₁) (hvars : Declares c₁ c₂)
    (hfunctions : LaysAll rs functions c₂ c₃) {quads : Array Quad}
    (hentry : Retargets [0] c₃.quads.size c₃.quads quads) {printed : List String}
    (hbody : Lays body { c₃ with printed, quads, jumps := [] } c')
    (hQ : Q = c'.quads.push (endQuad "END")) :
    ∃ s k, ProgramLaid Q (fun f => Walked c'.kinds (c'.kinds.returnsIn f) Q)
      (.node rule parts) rs s k := by
  obtain ⟨bs, hbody⟩ := hbody
  have hbreaks : c₃.breaks = [] := hfunctions.outside.breaks
  obtain rfl : bs = [] := hbody.inLoop hbreaks
  have hkinds : c'.kinds = c₃.kinds := hbody.kinds
  have hreturning : Compiler.returning { c₃ with printed, quads, jumps := [] } = false := by
    rw [Compiler.returning, show Compiler.currentName _ = _ from hfunctions.outside.names, bne_self_eq_false,
      Bool.false_and]
  have hquads : c₂.quads = #[openQuad] := hvars.quads.trans hstart.quads
  have hone : c₂.quads.size = 1 := by rw [hquads]; rfl
  have hfirst : 1 ≤ c₃.quads.size := hone ▸ hfunctions.size
  have hsize : quads.size = c₃.quads.size := hentry.size
  have hmain : quads.size ≤ c'.quads.size := hbody.size
  -- what is in the final code: the jump, the functions, the main part and the end
  have hold : ∀ i, i < c'.quads.size → Q[i]? = c'.quads[i]? := by
    intro i hi
    rw [hQ, Array.getElem?_push, if_neg (by omega)]
  have hroutines : ∀ i, 1 ≤ i → i < c₃.quads.size → Q[i]? = c₃.quads[i]? := by
    intro i hle hlt
    rw [hold i (by omega), hbody.old i (show i < quads.size by omega)]
    show quads[i]? = _
    rw [hentry.get?, if_neg (by rw [List.mem_singleton]; omega)]
  have hjump : Q[0]? = some [.text "GoTo", .none, .none, .number (c₃.quads.size : Int)] := by
    rw [hold 0 (by omega), hbody.old 0 (show 0 < quads.size by omega)]
    show quads[0]? = _
    rw [hentry.get?, if_pos List.mem_cons_self, hfunctions.old 0 (by omega), hquads]
    rfl
  have hlaid := hbody.laid Q none (fun i _ hlt _ => hold i hlt) fun b hb => absurd hb List.not_mem_nil
  rw [hreturning, ← hbody.kinds, show Array.size _ = _ from hsize] at hlaid
  refine ⟨c₃.quads.size, c'.quads.size, .intro hs hparts ⟨.none, hjump⟩ ?_ hlaid ?_ ?_⟩
  · have hcode := hfunctions.laid Q c'.kinds (by rw [hkinds]; exact fun _ _ hf => hf)
      fun i hle hlt _ => hroutines i (hone ▸ hle) hlt
    rwa [hone] at hcode
  · rw [hQ, Array.getElem?_push, if_pos rfl]
  · rw [hQ, Array.size_push]

/-- All functions that are known at the end of a program are in its code. -/
theorem Kinds.Covers.of_steps (hstart : Starts (.start debug objectName) c₁)
    (hvars : Declares c₁ c₂) (hfunctions : LaysAll rs functions c₂ c₃) : c₃.kinds.Covers rs := by
  have hkinds : ∀ x, c₂.kinds x = if x = "main" then some (.void, none) else none := by
    intro x
    rw [hvars.kinds, hstart.kinds]
    rfl
  have hknown : ∀ f k, c₂.kinds f = some k → f = "main" ∧ k = (.void, none) := by
    intro f k hf
    rw [hkinds] at hf
    split at hf
    · next hmain => exact ⟨hmain, (Option.some.inj hf).symm⟩
    · cases hf
  have hproper : c₂.Proper := {
    currentType := hvars.currentType (by rw [hstart.currentType]; exact fun _ => rfl)
    kinds := fun f k hf => by rw [(hknown f k hf).2]; exact fun _ => rfl }
  exact {
    routines := hfunctions.routines
    main := hfunctions.kinds _ _ (by rw [hkinds, if_pos rfl])
    known := fun f k hf => (hfunctions.known f k hf).imp (fun h => (hknown f k h).1) id
    proper := (hfunctions.proper hproper).kinds }

theorem Starts.outside (h : Starts (.start debug objectName) c) :
    Outside c where
  names := h.currentName.trans h.globalName.symm
  main := ⟨"main", h.globalName, by rw [h.kinds, if_pos rfl]; exact Option.some_ne_none _⟩
  breaks := h.breaks

theorem Outside.declares (h : Outside c) (hd : Declares c c') : Outside c' where
  names := hd.currentName.trans (h.names.trans hd.globalName.symm)
  main := by rw [hd.globalName, hd.kinds]; exact h.main
  breaks := hd.breaks.trans h.breaks

namespace Phrase

variable {d : Dialect} {P : Phrase}

/-- A program is compiled so that its code is laid out. -/
theorem Derives.programLaid (h : Derives d P) (hs : P.symbol = "program")
    (hP : P.Compiles none (.start debug objectName) v c') :
    ∃ rs s k, ProgramLaid c'.quads (fun f => Walked c'.kinds (c'.kinds.returnsIn f) c'.quads) P rs s k ∧
      c'.kinds.Covers rs := by
  obtain ⟨rule, parts, args, c₉, rfl, hname, hsyms, hp, hpasses, hrun⟩ := h.only hs (show framesOf _ =
    [(["found_program_name", "vars", "functions", "main", "body"], .finish)] by decide) hP
  simp only [List.map_eq_cons_iff, List.map_eq_nil_iff] at hsyms
  obtain ⟨mark, _, hinner, hmark, vars, _, rfl, hvars, functions, _, rfl, hfunctions, main, _, rfl, hmain,
    body, _, rfl, hbody, rfl⟩ := hsyms
  rw [hinner] at hpasses hp
  obtain ⟨_, _, c₁, hP₁, _, _, c₂, hP₂, _, _, c₃, hP₃, _, _, c₄, hP₄, _, _, c₅, hP₅, hreports⟩ := hpasses
  -- the beginning, the global variables and the functions
  obtain ⟨_, c₀, ⟨printed₀, rfl⟩, hbegin⟩ := (hp mark (by simp)).mark hmark
    (show framesOf _ = [(["empty"], .begin)] by decide) hP₁
  have hstart := Compile.starts_begin hbegin
  have hstart : Starts (.start debug objectName) c₁ :=
    { hstart with }
  have hd := (hp vars (by simp)).declares (.inl (by rw [hvars]; decide)) hP₂
  obtain ⟨rs, hlays⟩ := (hp functions (by simp)).laysAll hfunctions hP₃ (hstart.outside.declares hd)
  -- the main part
  obtain ⟨printed, quads, rfl, hentry⟩ : ∃ printed quads, c₄ = { c₃ with printed, quads, jumps := [] } ∧
      Retargets [0] c₃.quads.size c₃.quads quads := by
    obtain ⟨_, _, _, c₃', -, -, hsyms', -, hpasses', hrun'⟩ := (hp main (by simp)).only hmain
      (show framesOf _ = [([], .beginMain)] by decide) hP₄
    rw [List.map_eq_nil_iff.mp hsyms'] at hpasses'
    obtain ⟨printed', rfl⟩ := hpasses'
    have hjumps : c₃.jumps = ((0 : Nat) : Int) :: [] := by
      rw [hlays.jumps, hd.jumps, hstart.jumps]
      rfl
    exact Compile.beginMain_eq_ok (c := { c₃ with printed := printed' }) hrun' hjumps
  have hcode := ((hp body (by simp)).lays.1 (by rw [hbody]; decide) hP₅).reports hreports
  obtain ⟨printed', text, rfl, -⟩ := Compile.finish_eq_ok hrun
  obtain ⟨s, k, hlaid⟩ := ProgramLaid.of_steps hname hinner hstart hd hlays hentry hcode rfl
  refine ⟨rs, s, k, hlaid, ?_⟩
  obtain ⟨bs, hcode⟩ := hcode
  have hkinds : c₉.kinds = c₃.kinds := hcode.kinds
  show c₉.kinds.Covers rs
  rw [hkinds]
  exact .of_steps hstart hd hlays

end Phrase

end QuadLang
