/-
Storage through a compilation.

The steps of the compiler keep the cells of all that can be in use at the same time apart.  So
in an accepted program no two variables, parameters, results or constants share cells, and each
lies in the range of its type.

* `Compiler.Settled` — the cells are arranged, and the constants of an earlier state are there;
* `Mode.Ready` — what a step needs of the step before it, and `Compiler.Staged`, both together;
* `guard_staged` — every step keeps this, in the places where the grammar has it.

Design notes: a step that stores is followed through its changes one by one, to the state that it
ends in.  The others change neither functions nor constants, and use up more cells at most.
-/
import QuadLang.Proofs.Storage

namespace QuadLang

open Steps

variable {dims : List Int} {name : String} {r : Unit} {α : Type} (t : Table α)

theorem Table.has_put (k : String) (v : α) : (t.put k v).has k = true :=
  has_iff.mpr (mem_put.mpr (.inr rfl))

theorem Table.put_put (k : String) (v w : α) : (t.put k v).put k w = t.put k w := by
  rw [put, if_pos (t.has_put k v)]
  by_cases h : t.has k = true
  · rw [put, put, if_pos h, if_pos h, List.map_map]
    refine List.map_congr_left fun e _ => ?_
    by_cases hk : (e.1 == k) = true
    · rw [Function.comp_apply, if_pos hk, if_pos hk, if_pos (beq_self_eq_true k)]
    · rw [Function.comp_apply, if_neg hk, if_neg hk]
  · have hrest : (t.map fun e => if e.1 == k then (k, w) else e) = t := by
      refine (List.map_congr_left fun e he => ?_).trans (List.map_id t)
      rw [if_neg fun hk => h (List.any_eq_true.mpr ⟨e, he, hk⟩)]
      rfl
    rw [put, put, if_neg h, if_neg h, List.map_append, hrest, List.map_singleton,
      if_pos (beq_self_eq_true k)]

/-! ### Where steps end -/

namespace Compile

variable {c c' : Compiler} {a : Int} {change : Function → Function} {f : String} {g : Function}

theorem take_eq_ok {request : Space → Space × Except SpaceFault Int}
    (h : (take request).run c = (.ok a, c')) :
    ∃ space, request c.space = (space, .ok a) ∧ c' = { c with space } := by
  rw [run_take] at h
  rcases hrequest : request c.space with ⟨space, fault | b⟩ <;> rw [hrequest] at h <;> cases h
  exact ⟨space, rfl, rfl⟩

theorem changeFunction_eq_of_get? {function : Option String}
    (h : (changeFunction function change).run c = (.ok r, c')) (hname : function = some f)
    (hget : c.functions.get? f = some g) :
    c' = { c with functions := c.functions.put f (change g) } := by
  obtain ⟨f', g', hname', hget', rfl⟩ := changeFunction_eq_ok h
  cases hname.symm.trans hname'
  cases hget.symm.trans hget'
  rfl

theorem changeCurrent_eq_of_get? (h : (changeCurrent change).run c = (.ok r, c'))
    (hname : c.currentName = some f) (hget : c.functions.get? f = some g) :
    c' = { c with functions := c.functions.put f (change g) } :=
  changeFunction_eq_of_get? h hname hget

theorem addVariable_eq_ok (h : (addVariable name a).run c = (.ok r, c')) :
    ∃ f g t printed, c.currentName = some f ∧
      c.functions.get? f = some g ∧ g.declared = some t ∧
      c' = { c with
        printed
        functions := c.functions.put f { g with declared := some (t.put name ⟨name, c.currentType, a, []⟩) } } := by
  rw [addVariable, run_bind_ok (run_get c), run_bind_ok (run_get c), addVariableTo] at h
  obtain ⟨g, c₁, hfun, h⟩ := bind_eq_ok h
  obtain ⟨rfl, f, hname, hget⟩ := functionOf_eq_ok hfun
  rcases hdeclared : g.declared with _ | t
  · rw [hdeclared] at h
    cases h
  rw [hdeclared] at h
  obtain ⟨_, c₂, hchange, hremark⟩ := bind_eq_ok h
  obtain rfl := changeFunction_eq_of_get? hchange hname hget
  obtain ⟨printed, rfl⟩ := say_eq_ok hremark
  exact ⟨f, g, t, printed, hname, hget, hdeclared, rfl⟩

theorem setParamDims_eq_ok (h : (setParamDims dims).run c = (.ok r, c')) :
    ∃ f g ps p, c.currentName = some f ∧ c.functions.get? f = some g ∧ g.params = ps ++ [p] ∧
      c' = { c with functions := c.functions.put f { g with params := ps ++ [{ p with dims }] } } := by
  rw [setParamDims, run_bind_ok (run_get c), setParamDimsIn] at h
  obtain ⟨g, c₁, hfun, h⟩ := bind_eq_ok h
  obtain ⟨rfl, f, hname, hget⟩ := functionOf_eq_ok hfun
  rcases hparams : g.params.reverse with _ | ⟨p, rest⟩
  · rw [hparams] at h
    cases h
  rw [hparams] at h
  obtain rfl := changeFunction_eq_of_get? h hname hget
  refine ⟨f, g, rest.reverse, p, hname, hget, ?_, ?_⟩
  · rw [← List.reverse_reverse g.params, hparams, List.reverse_cons]
  · rw [List.reverse_cons]

theorem takeArray_eq_ok (h : (takeArray dims).run c = (.ok r, c')) :
    ∃ space a, c.space.takeRest (c.currentName.getD "None") c.currentType (Compile.sizeOf dims) =
      (space, .ok a) ∧ c' = { c with space } := by
  obtain ⟨scope, c₁, hscope, h⟩ := bind_eq_ok h
  cases hscope
  rw [run_bind_ok (run_get _)] at h
  obtain ⟨a, c₂, htake, h⟩ := bind_eq_ok h
  cases h
  obtain ⟨space, hrest, rfl⟩ := take_eq_ok htake
  exact ⟨space, a, hrest, rfl⟩

end Compile

/-! ### What is kept -/

structure Compiler.Settled (c₀ c : Compiler) : Prop extends c.Arranged where
  kept : c₀.constants <+: c.constants

/-- Changes that store and declare nothing. -/
instance (c₀ : Compiler) : Compiler.Stable (Compiler.Settled c₀) where
  quiet hc h := ⟨hc.same h.currentName h.globalName h.functions h.constants h.space, h.constants ▸ hc.kept⟩

/-- A constant that is not there yet is added at the end. -/
theorem Compile.ranges_constant_settled (c₀ : Compiler) (value : Literal) :
    Ranges (Compiler.Settled c₀) (constant value (typeOfLiteral value)) Fixed := by
  intro c hc
  obtain ⟨hrange, hfixed⟩ := ranges_constant (J := Compiler.Any) value (typeOfLiteral value) c hc.toInRange.any
  refine ⟨⟨hrange.toInRange, ?_⟩, hfixed⟩
  rw [constant, run_bind_ok (show (constant? value (typeOfLiteral value)).run c = (.ok (c.constant? value), c)
    from rfl)]
  dsimp only
  rcases hfind : c.constant? value with _ | k
  · rw [Option.isNone_none, if_pos rfl]
    rcases htake : (take (·.takeOne "cte" (typeOfLiteral value))).run c with ⟨fault | a, c₁⟩
    · rw [run_bind_error htake]
      have hstate := congrArg Prod.snd ((run_take _ c).symm.trans htake)
      rw [← show _ = c₁ from hstate]
      exact Compiler.Stable.quiet hc.rest
        ⟨rfl, rfl, rfl, rfl, rfl, Space.within_take _ _ _ Int.one_nonneg⟩
    · rw [run_bind_ok htake]
      obtain ⟨space, hone, rfl⟩ := take_eq_ok htake
      obtain ⟨r, htype, htaken⟩ := Space.taken_takeOne hc.space hone
      obtain ⟨printed, hadd⟩ := run_addConstant (c := { c with space }) hfind a
      rw [run_bind_ok hadd, (reads_constantOf _ _).state]
      exact ⟨hc.rest.addConstant rfl rfl htype htaken rfl rfl, hc.rest.kept.trans (List.prefix_append _ _)⟩
  · rw [Option.isNone_some, if_neg Bool.false_ne_true, (reads_constantOf _ _).state]
    exact hc.rest

/-! ### What is ready -/

/-- What the step before has made ready: the variable named last is new and not among the parameters,
or it is the last of them, or the function has no result yet. -/
def Mode.Ready (c : Compiler) : Mode → Prop
  | .any | .fresh => True
  | .var => ∃ f x g t v, c.Latest f x g t v ∧ ∀ p ∈ g.params, p.address ≠ v.address
  | .param => ∃ f x g t v ps, c.Latest f x g t v ∧ g.params = ps ++ [⟨v.type, v.address, []⟩] ∧
      ∀ p ∈ ps, p.address ≠ v.address
  | .head => ∃ f g, c.currentName = some f ∧ c.functions.get? f = some g ∧ g.returnAddress = none

/-- In a mode all is settled, since `c₀`, and ready. -/
structure Compiler.Staged (c₀ : Compiler) (m : Mode) (c : Compiler) : Prop
    extends c.InRangeAt (Compiler.Settled c₀) where
  ready : m.Ready c

namespace Compiler

variable {c₀ c c' : Compiler} {f x : String} {g : Function} {t : Table Variable} {a : Int}
  {v : Variable}

theorem Latest.reports (h : c.Latest f x g t v) (hr : c.Reports c') : c'.Latest f x g t v := by
  obtain ⟨printed, rfl⟩ := hr
  exact { h with }

/-- The function at work is changed, but not its table. -/
theorem Latest.put {k : Function} (h : c.Latest f x g t v) (hd : k.declared = g.declared) :
    ({ c with functions := c.functions.put f k } : Compiler).Latest f x k t v :=
  { h with function := (Table.get?_put _ _ _ _).trans (if_pos rfl), table := hd.trans h.table }

theorem ready_reports {m : Mode} (h : m.Ready c) (hr : c.Reports c') : m.Ready c' := by
  cases m with
  | any | fresh => trivial
  | var =>
    obtain ⟨f, x, g, t, v, hlatest, hparams⟩ := h
    exact ⟨f, x, g, t, v, hlatest.reports hr, hparams⟩
  | param =>
    obtain ⟨f, x, g, t, v, ps, hlatest, hparams⟩ := h
    exact ⟨f, x, g, t, v, ps, hlatest.reports hr, hparams⟩
  | head =>
    obtain ⟨printed, rfl⟩ := hr
    exact h

/-- The dimensions of the latest variable are set, and its other cells are taken. -/
theorem Latest.reserve (h : c.Latest f x g t v) (hpos : Positive dims) {c₁ : Compiler}
    (hdims : (Compile.setDims dims).run c = (.ok r, c₁))
    (harray : (Compile.takeArray dims).run c₁ = (.ok r, c')) :
    ∃ printed space a, c.space.takeRest f v.type (Compile.sizeOf dims) = (space, .ok a) ∧
      c.space.Within space ∧ c' = { c with
        printed, space
        functions := c.functions.put f { g with declared := some (t.put v.name { v with dims }) } } := by
  rw [Compile.setDims, run_bind_ok (run_get c), run_bind_ok (run_get c)] at hdims
  obtain ⟨g', c₂, hfun, hdims⟩ := bind_eq_ok hdims
  obtain ⟨rfl, f', hname, hget⟩ := Compile.functionOf_eq_ok hfun
  cases h.currentName.symm.trans hname
  cases h.function.symm.trans hget
  rw [h.table] at hdims
  dsimp only at hdims
  rw [h.named, Option.bind_some, h.entry] at hdims
  obtain ⟨_, c₃, hchange, hremark⟩ := bind_eq_ok hdims
  have hreports : c₃.Reports c₁ := by
    rw [run_bind_ok (run_get _)] at hremark
    split at hremark
    · split at hremark
      · cases hremark
      · exact Compile.say_eq_ok hremark
    · cases hremark
      exact .refl _
  obtain ⟨printed, rfl⟩ := hreports
  obtain rfl := Compile.changeFunction_eq_of_get? hchange hname hget
  obtain ⟨space, a, hrest, rfl⟩ := Compile.takeArray_eq_ok harray
  rw [show c₂.currentName = _ from hname, show c₂.currentType = _ from h.type] at hrest
  have hwithin := Space.within_take c₂.space f v.type (n := Compile.sizeOf dims - 1)
    (by have := hpos.sizeOf_pos; omega)
  rw [show c₂.space.take f v.type _ = _ from hrest] at hwithin
  exact ⟨printed, space, a, hrest, hwithin, rfl⟩

/-- A new variable has a cell of its own, and it is the latest. -/
theorem Arranged.declare (hc : c.Arranged) (c' : Compiler) (hs : c.space.Sound) (hname : c.currentName = some f)
    (hget : c.functions.get? f = some g) (ht : g.declared = some t)
    (htake : c.space.takeOne f c.currentType = (c'.space, .ok a))
    (hf : c'.functions = c.functions.put f { g with declared := some (t.put x ⟨x, c.currentType, a, []⟩) })
    (hk : c'.constants = c.constants) (hn : c'.currentName = c.currentName)
    (hg : c'.globalName = c.globalName) (hnamed : c'.named = some x)
    (htype : c'.currentType = c.currentType) :
    c'.Arranged ∧ c'.Latest f x { g with declared := some (t.put x ⟨x, c.currentType, a, []⟩) }
      (t.put x ⟨x, c.currentType, a, []⟩) ⟨x, c.currentType, a, []⟩ ∧ ∀ p ∈ g.params, p.address ≠ a := by
  obtain ⟨r, hr, htaken⟩ := Space.taken_takeOne hs htake
  have haddress : a = _ := htaken.address
  have hnonneg := htaken.nonneg
  have hinside : a + 1 ≤ _ := htaken.inside
  have hlow : (Segment.ofScope f).start r ≤ a := by omega
  refine ⟨hc.putVariable hn hg hname hget ht rfl hr htaken hf hk, ?_, ?_⟩
  · exact {
      currentName := hn.trans hname
      named := hnamed
      function := by rw [hf, Table.get?_put, if_pos rfl]
      table := rfl
      entry := by rw [Table.get?_put, if_pos rfl]
      name := rfl
      dims := rfl
      type := htype
      last := fun r' hr' => by
        cases hr.symm.trans hr'
        exact htaken.counted
      own := ⟨r, hr, hlow, hinside⟩ }
  · intro p hp heq
    obtain ⟨i, hi⟩ := List.mem_iff_getElem?.mp hp
    have hparam : c.Gives (.param f i) p.type ⟨p.address, Compile.sizeOf p.dims⟩ := .function hget (.param hi)
    obtain ⟨-, -, hsize, -⟩ := hc.cells.inside hparam
    have hapart := hc.cells.apart_of_fresh (p := .var f x) (b := ⟨a, 1⟩) (r := r) (.inr hname.symm)
      (Int.le_of_eq haddress.symm) hlow hinside hparam (.inr (.inr (.inr (.inr rfl))))
    rcases hapart with h | h <;> dsimp only at h hsize <;> omega

/-- A function that gives nothing at all. -/
theorem not_gives_of_blank (hd : g.declared = none ∨ g.declared = some []) (hp : g.params = [])
    (hr : g.returnAddress = none) (p : Holder) (u : Ty) (b : Block) : ¬g.Gives f p u b := by
  rintro (⟨ht, hv⟩ | hp' | ha)
  · rcases hd with hd | hd <;> rw [hd] at ht <;> cases ht
    cases hv
  · rw [hp] at hp'
    cases hp'
  · rw [hr] at ha
    cases ha

end Compiler

/-- The last parameter has the cells of its variable. -/
theorem Function.Gives.of_putParam {f x : String} {g : Function} {t : Table Variable} {w : Variable}
    {ps : List Param} {p : Holder} {u : Ty} {b : Block} (ht : g.declared = some t)
    (hps : ∀ i, i < ps.length → g.params[i]? = ps[i]?) (h : Function.Gives f { g with
      declared := some (t.put x w), params := ps ++ [⟨w.type, w.address, w.dims⟩] } p u b) :
    (g.Gives f p u b ∧ ¬(p = .var f x ∨ p = .param f ps.length)) ∨
      ((p = .var f x ∨ p = .param f ps.length) ∧ u = w.type ∧ b = ⟨w.address, Compile.sizeOf w.dims⟩) := by
  cases h with
  | @var _ y _ ht' hv own =>
    have hvar : Function.Gives f { g with declared := _ } (.var f y) _ _ := .var ht' hv own
    rcases hvar.of_putVariable ht with ⟨hvar, hne⟩ | ⟨hy, htype, hblock, -⟩
    · exact .inl ⟨hvar, by rintro (h | h); exacts [hne h, by cases h]⟩
    · exact .inr ⟨.inl hy, htype, hblock⟩
  | @param i _ hi =>
    rcases getElem?_concat_cases hi with ⟨hlt, hi⟩ | ⟨rfl, rfl⟩
    · refine .inl ⟨.param ((hps i hlt).trans hi), ?_⟩
      rintro (h | h) <;> cases h
      exact absurd hlt (Nat.lt_irrefl _)
    · exact .inr ⟨.inr rfl, rfl, rfl⟩
  | result ha => exact .inl ⟨.result ha, by rintro (h | h) <;> cases h⟩

/-! ### The steps that store -/

namespace Compile

variable {c₀ c c' : Compiler} {before v : Option Literal} {args : List (Option Literal)}
  {f : String} {g : Function}

theorem Keeping.apply {J : Compiler → Prop} {α : Type} {x : Compile α} (h : Keeping J x) (hc : c.InRangeAt J)
    {r : Except CompileFault α} (hrun : x.run c = (r, c')) : c'.InRangeAt J := by
  have hstate := (h c hc).1
  rw [hrun] at hstate
  exact hstate

theorem settled_begin (hc : c.InRangeAt (Compiler.Settled c₀))
    (h : (perform before args .begin).run c = (.ok v, c')) : c₀.Settled c' := by
  obtain ⟨_, c₁, hsay, h⟩ := bind_eq_ok h
  obtain ⟨_, c₂, hadd, h⟩ := bind_eq_ok h
  obtain ⟨_, c₃, hglobal, h⟩ := bind_eq_ok h
  obtain ⟨_, c₄, hmain, h⟩ := bind_eq_ok h
  cases h
  have hc₁ := Keeping.apply (keeping_say _) hc hsay
  have hc₂ := (keeping_addFunction (J := Compiler.Any) "main").apply hc₁.toInRange.any hadd
  obtain ⟨printed, rfl⟩ := addFunction_eq_ok hadd
  cases hglobal
  refine (Keeping.apply (J := Compiler.Settled c₀) keeping_addMain ?_ hmain).rest
  refine ⟨{ hc₂ with }, ?_, hc₁.rest.kept⟩
  exact hc₁.rest.begin (f := "main") rfl rfl rfl rfl (.inr rfl)
    (Compiler.not_gives_of_blank (.inl rfl) rfl rfl)

theorem settled_beginFunction (hc : c.InRangeAt (Compiler.Settled c₀))
    (h : (perform before args .beginFunction).run c = (.ok v, c')) : c₀.Settled c' ∧ Mode.head.Ready c' := by
  obtain ⟨-, c₁, hadd, hopen⟩ := beginFunction_eq_ok h
  obtain ⟨printed, rfl⟩ := addFunction_eq_ok hadd
  obtain ⟨f, g', hname, hget, rfl⟩ := changeCurrent_eq_ok hopen
  cases hname
  rw [Table.get?_put, if_pos rfl] at hget
  cases hget
  refine ⟨⟨hc.rest.begin (f := wordOf before) (Table.put_put _ _ _ _) rfl rfl rfl (.inl rfl) ?_, hc.rest.kept⟩,
    wordOf before, _, rfl, (Table.get?_put _ _ _ _).trans (if_pos rfl), rfl⟩
  exact Compiler.not_gives_of_blank (.inr rfl) rfl rfl

theorem settled_openTable (hc : c₀.Settled c)
    (h : (perform before args .openTable).run c = (.ok v, c')) : c₀.Settled c' := by
  obtain ⟨_, c₁, hopen, h⟩ := bind_eq_ok h
  cases h
  obtain ⟨f, g, hname, hget, rfl⟩ := changeCurrent_eq_ok hopen
  refine ⟨hc.put rfl rfl rfl rfl (.refl _) ?_, hc.kept⟩
  rintro p u b (⟨ht, hv, own⟩ | hp | ha)
  · rcases hdeclared : g.declared with _ | t' <;> simp only [hdeclared] at ht <;> cases ht
    · cases hv
    · exact .function hget (.var hdeclared hv own)
  · exact .function hget (.param hp)
  · exact .function hget (.result ha)

theorem settled_markStart (hc : c₀.Settled c)
    (h : (perform before args .markStart).run c = (.ok v, c')) : c₀.Settled c' := by
  obtain ⟨n, c₁, hcount, h⟩ := bind_eq_ok h
  cases hcount
  obtain ⟨_, c₂, hchange, h⟩ := bind_eq_ok h
  cases h
  obtain ⟨f, g, hname, hget, rfl⟩ := changeCurrent_eq_ok hchange
  refine ⟨hc.put rfl rfl rfl rfl (.refl _) ?_, hc.kept⟩
  rintro p u b (⟨ht, hv, own⟩ | hp | ha)
  · exact .function hget (.var ht hv own)
  · exact .function hget (.param hp)
  · exact .function hget (.result ha)

theorem settled_returnDims (hc : c₀.Settled c) (hready : Mode.head.Ready c)
    (h : (perform before args .returnDims).run c = (.ok v, c')) : c₀.Settled c' := by
  obtain ⟨_, c₁, hchange, h⟩ := bind_eq_ok h
  cases h
  obtain ⟨f, g, hname, hget, hresult⟩ := hready
  obtain rfl := changeCurrent_eq_of_get? hchange hname hget
  refine ⟨hc.put rfl rfl rfl rfl (.refl _) ?_, hc.kept⟩
  rintro p u b (⟨ht, hv, own⟩ | hp | ha)
  · exact .function hget (.var ht hv own)
  · exact .function hget (.param hp)
  · -- there is no result yet
    rw [show g.returnAddress = _ from ha] at hresult
    cases hresult

theorem settled_declare (hc : c.InRangeAt (Compiler.Settled c₀))
    (h : (perform before args .declare).run c = (.ok v, c')) : c₀.Settled c' ∧ Mode.var.Ready c' := by
  obtain ⟨b, c₁, havailable, hrest⟩ := bind_eq_ok h
  obtain rfl := (reads_isAvailable _).looks havailable
  dsimp only at hrest
  by_cases hb : b = true
  · rw [if_pos hb] at hrest
    obtain ⟨scope, c₂, hscope, h⟩ := bind_eq_ok hrest
    cases hscope
    rw [run_bind_ok (run_get _)] at h
    obtain ⟨a, c₃, htake, h⟩ := bind_eq_ok h
    obtain ⟨_, c₄, hadd, h⟩ := bind_eq_ok h
    obtain ⟨_, c₅, hnamed, h⟩ := bind_eq_ok h
    cases h
    cases hnamed
    obtain ⟨space, hone, rfl⟩ := take_eq_ok htake
    obtain ⟨f, g, t, printed, hname, hget, ht, rfl⟩ := addVariable_eq_ok hadd
    rw [show c₁.currentName = some f from hname] at hone
    obtain ⟨harranged, hlatest, hparams⟩ := hc.rest.declare
      { c₁ with space, printed, named := some (wordOf (args.headD none)), functions := _ }
      hc.space hname hget ht hone rfl rfl rfl rfl rfl rfl
    exact ⟨⟨harranged, hc.rest.kept⟩, f, _, _, _, _, hlatest, hparams⟩
  · rw [if_neg hb] at hrest
    cases hrest

/-- The cells of an array are the first one and those after it. -/
theorem settled_reserve (hc : c₀.Settled c) (hready : Mode.var.Ready c) (hpos : Positive (args.map numberOf))
    (h : (perform before args .reserve).run c = (.ok v, c')) : c₀.Settled c' := by
  obtain ⟨_, c₁, hdims, h⟩ := bind_eq_ok h
  obtain ⟨_, c₂, harray, h⟩ := bind_eq_ok h
  cases h
  obtain ⟨f, x, g, t, w, hlatest, hparams⟩ := hready
  obtain ⟨printed, space, a, hrest, hwithin, rfl⟩ := hlatest.reserve hpos hdims harray
  refine ⟨hlatest.extend hc.toArranged (S := (· = .var f x)) (fun p hp => .inl hp) rfl
    (fun i j h => by (cases h)) hpos.sizeOf_pos (fun i p hp _ => hparams p (List.mem_of_getElem? hp))
    (hlatest.room hrest) ?_ rfl rfl hwithin rfl rfl, hc.kept⟩
  intro p u b hp
  rcases hp.of_putVariable hlatest.table with ⟨hp, hne⟩ | ⟨rfl, rfl, rfl, -⟩
  · exact .inl ⟨hp, hlatest.name ▸ hne⟩
  · exact .inr ⟨congrArg _ hlatest.name, rfl, rfl⟩

/-- The cells of a parameter are those of its variable. -/
theorem settled_param (hc : c.InRangeAt (Compiler.Settled c₀))
    (h : (perform before args .param).run c = (.ok v, c')) : c₀.Settled c' ∧ Mode.param.Ready c' := by
  obtain ⟨b, c₁, havailable, hrest⟩ := bind_eq_ok h
  obtain rfl := (reads_isAvailable _).looks havailable
  dsimp only at hrest
  by_cases hb : b = true
  · rw [if_pos hb] at hrest
    obtain ⟨_, c₂, hnamed, h⟩ := bind_eq_ok hrest
    cases hnamed
    obtain ⟨scope, c₃, hscope, h⟩ := bind_eq_ok h
    cases hscope
    rw [run_bind_ok (run_get _)] at h
    obtain ⟨a, c₄, htake, h⟩ := bind_eq_ok h
    obtain ⟨_, c₅, hadd, h⟩ := bind_eq_ok h
    obtain ⟨_, c₆, hparam, h⟩ := bind_eq_ok h
    cases h
    obtain ⟨space, hone, rfl⟩ := take_eq_ok htake
    obtain ⟨f, g, t, printed, hname, hget, ht, rfl⟩ := addVariable_eq_ok hadd
    rw [show c₁.currentName = some f from hname] at hone
    obtain ⟨harranged, hlatest, hparams⟩ := hc.rest.declare
      { c₁ with space, printed, named := some (wordOf before), functions := _ }
      hc.space hname hget ht hone rfl rfl rfl rfl rfl rfl
    rw [addParam, run_bind_ok (run_get _)] at hparam
    obtain rfl := changeCurrent_eq_of_get? hparam hname hlatest.function
    have hown : ∀ r, c₁.currentType.scalar? = some r → a + 1 ≤ (Segment.ofScope f).stop r ∧
        a + 1 ≤ (Segment.ofScope f).start r + (space.counts (Segment.ofScope f)).get r := by
      intro r hr
      obtain ⟨r', hr', -, hhigh⟩ := hlatest.own
      cases hr.symm.trans hr'
      exact ⟨hhigh, Int.le_of_eq (hlatest.last r hr)⟩
    refine ⟨⟨hlatest.extend harranged (S := fun p => p = .var f (wordOf before) ∨ p = .param f g.params.length)
      (fun p hp => hp.imp_right fun h => ⟨_, h⟩) (.inl rfl) ?_ Int.one_pos ?_ hown ?_ rfl rfl (.refl _) rfl rfl,
      hc.rest.kept⟩, ?_⟩
    · rintro i j (h | h) (h' | h') <;> cases h <;> cases h'
      rfl
    · exact fun i p hp _ => hparams p (List.mem_of_getElem? hp)
    · refine fun p u b hp => Function.Gives.of_putParam rfl (fun _ _ => rfl) ?_
      rw [Table.put_put]
      exact hp
    · exact ⟨f, _, _, _, _, g.params, hlatest.put rfl, rfl, hparams⟩
  · rw [if_neg hb] at hrest
    cases hrest

/-- The cells of a parameter that is an array are those of its variable. -/
theorem settled_paramDims (hc : c₀.Settled c) (hready : Mode.param.Ready c) (hpos : Positive (args.map numberOf))
    (h : (perform before args .paramDims).run c = (.ok v, c')) : c₀.Settled c' := by
  obtain ⟨_, c₁, hparamDims, h⟩ := bind_eq_ok h
  obtain ⟨_, c₂, hdims, h⟩ := bind_eq_ok h
  obtain ⟨_, c₃, harray, h⟩ := bind_eq_ok h
  cases h
  obtain ⟨f, x, g, t, w, ps, hlatest, hparams, hfirst⟩ := hready
  obtain rfl := hlatest.name
  obtain ⟨f', g', ps', p, hname, hget, hparams', rfl⟩ := setParamDims_eq_ok hparamDims
  cases hlatest.currentName.symm.trans hname
  cases hlatest.function.symm.trans hget
  obtain ⟨rfl, hp⟩ := List.append_inj' (hparams.symm.trans hparams') rfl
  cases hp
  have hlatest' := hlatest.put (k := { g with
    params := ps ++ [⟨w.type, w.address, args.map numberOf⟩] }) rfl
  obtain ⟨printed, space, a, hrest, hwithin, rfl⟩ := hlatest'.reserve hpos hdims harray
  refine ⟨hlatest.extend hc.toArranged (S := fun p => p = .var f w.name ∨ p = .param f ps.length)
    (fun p hp => hp.imp_right fun h => ⟨_, h⟩) (.inl rfl) ?_ hpos.sizeOf_pos ?_ (hlatest.room hrest) ?_
    (Table.put_put _ _ _ _) rfl hwithin rfl rfl, hc.kept⟩
  · rintro i j (h | h) (h' | h') <;> cases h <;> cases h'
    rfl
  · intro i p hi hnot
    rw [hparams] at hi
    rcases getElem?_concat_cases hi with ⟨-, hi⟩ | ⟨rfl, -⟩
    · exact hfirst p (List.mem_of_getElem? hi)
    · exact absurd (.inr rfl) hnot
  · refine fun p u b hp => Function.Gives.of_putParam hlatest.table (fun i hi => ?_) hp
    rw [hparams, List.getElem?_append_left hi]

theorem settled_endFunction (hc : c₀.Settled c)
    (h : (perform before args .endFunction).run c = (.ok v, c')) : c₀.Settled c' := by
  obtain ⟨_, c₁, hend, h⟩ := bind_eq_ok h
  obtain ⟨_, c₂, hclose, h⟩ := bind_eq_ok h
  cases h
  obtain ⟨f, g, era, printed, hname, hget, rfl⟩ := addFunctionEnd_eq_ok hend
  obtain ⟨_, c₃, hchange, h⟩ := bind_eq_ok hclose
  cases h
  obtain rfl := changeCurrent_eq_of_get? hchange hname ((Table.get?_put _ _ _ _).trans (if_pos rfl))
  exact ⟨hc.finish hget (Table.put_put _ _ _ _) rfl rfl rfl rfl rfl rfl rfl rfl rfl, hc.kept⟩

theorem settled_setType (hc : c₀.Settled c) (type : Ty) : c₀.Settled { c with currentType := type } :=
  ⟨hc.same rfl rfl rfl rfl (.refl _), hc.kept⟩

/-- The cells of a result are taken at the first return. -/
theorem returnAddress_eq_ok {a : Int} (hs : c.space.Sound) (hname : c.currentName = some f)
    (hget : c.functions.get? f = some g) (hpos : Positive g.returnDims)
    (h : (returnAddress g.returnType g.returnDims).run c = (.ok a, c')) :
    c' = c ∨ ∃ r space printed, g.returnType.scalar? = some r ∧
      c.space.Taken space (Segment.ofScope f) r ⟨a, Compile.sizeOf g.returnDims⟩ ∧ c' = { c with
        space, printed, functions := c.functions.put f { g with returnAddress := some a } } := by
  have hbind : c.currentName.bind c.functions.get? = some g := by rw [hname]; exact hget
  rw [returnAddress, run_bind_ok (run_current hbind)] at h
  rcases hresult : g.returnAddress with _ | b <;> rw [hresult] at h
  · right
    dsimp only at h
    rw [run_bind_ok (run_get c), hname] at h
    obtain ⟨b, c₁, htake, h⟩ := bind_eq_ok h
    obtain ⟨_, c₂, hchange, h⟩ := bind_eq_ok h
    obtain ⟨space, hone, rfl⟩ := take_eq_ok htake
    obtain ⟨r, htype, htaken⟩ := Space.taken_takeOne hs hone
    obtain rfl := changeCurrent_eq_of_get? hchange hname hget
    split at h
    · obtain ⟨_, c₃, hmore, h⟩ := bind_eq_ok h
      obtain ⟨_, c₄, hremark, h⟩ := bind_eq_ok h
      cases h
      obtain ⟨space', hrest, rfl⟩ := take_eq_ok hmore
      obtain ⟨printed, rfl⟩ := say_eq_ok hremark
      exact ⟨r, space', printed, htype, htaken.rest htype hpos.sizeOf_pos hrest, rfl⟩
    · next hempty =>
      obtain ⟨_, c₃, hremark, h⟩ := bind_eq_ok h
      cases h
      obtain ⟨printed, rfl⟩ := say_eq_ok hremark
      have hdims : g.returnDims = [] := by simpa using hempty
      refine ⟨r, space, printed, htype, ?_, rfl⟩
      rw [hdims]
      exact htaken
  · cases h
    exact .inl rfl

theorem settled_ret (hc : c.InRangeAt (Compiler.Settled c₀))
    (h : (perform before args .ret).run c = (.ok v, c')) : c₀.Settled c' := by
  obtain ⟨_, c₁, hreturn, h⟩ := bind_eq_ok h
  cases h
  obtain ⟨value, c₂, hpop, h⟩ := bind_eq_ok hreturn
  have hpopped := (ranges_popOperand c hc).1
  rw [hpop] at hpopped
  obtain ⟨g, c₃, hcurrent, hrest⟩ := bind_eq_ok h
  rw [current, run_bind_ok (run_get c₂)] at hcurrent
  obtain ⟨rfl, f, hname, hget⟩ := functionOf_eq_ok hcurrent
  rw [run_bind_ok (run_get _), run_bind_ok (run_get _)] at hrest
  dsimp only at hrest
  split at hrest
  · cases hrest
  split at hrest
  · cases hrest
  split at hrest
  · cases hrest
  split at hrest
  · cases hrest
  obtain ⟨a, c₄, haddress, hrest⟩ := bind_eq_ok hrest
  have hfun := hpopped.functions _ (Table.mem_of_get? hget)
  have hbind : c₃.currentName.bind c₃.functions.get? = some g := by rw [hname]; exact hget
  have hrange := (keeping_returnAddress hpopped.toInRange.any hbind).1
  rw [haddress] at hrange
  have hsettled : c₀.Settled c₄ := by
    rcases returnAddress_eq_ok hpopped.space hname hget hfun.returnDims haddress with
      rfl | ⟨r, space, printed, htype, htaken, rfl⟩
    · exact hpopped.rest
    · exact ⟨hpopped.rest.putResult rfl rfl hname hget htype hfun.returnDims htaken rfl rfl, hpopped.rest.kept⟩
  have hkeep := (keeping_addShapeOf (J := Compiler.Settled c₀) g.returnDims).bind fun _ _ =>
    (keeping_emit "=" (.address value.address) .none (.number a)).bind fun _ _ =>
      (keeping_addShapeOf g.returnDims).bind fun _ _ =>
        (keeping_emit "RETURN" .none .none (.number a)).bind fun _ _ =>
          keeping_change (f := fun c => { c with returnCount := c.returnCount + 1 }) rfl
  exact (Keeping.apply hkeep ⟨hrange.toInRange, hsettled⟩ hrest).rest

/-- A name that the function at work has is not declared again. -/
theorem run_declared {t : Table Variable} (type : Ty) (hname : c.currentName = some f)
    (hget : c.functions.get? f = some g) (ht : g.declared = some t) (hhas : t.has name = true) :
    (declared name type).run c = (variableOf name).run c := by
  have htable : c.table? c.currentName = some t := by
    rw [Compiler.table?, hname, Option.bind_some, hget, Option.bind_some, ht]
  have hexists : (variableExists name).run c = (.ok true, c) := by
    rw [variableExists, run_bind_ok (run_get c), run_bind_ok (run_tableOf htable), if_pos hhas]
    rfl
  rw [declared, run_bind_ok hexists]
  rfl

/-- The variable of a counting loop is a temporary cell. -/
theorem settled_iterator (hc : c.InRangeAt (Compiler.Settled c₀))
    (h : (perform before args .iterator).run c = (.ok v, c')) : c₀.Settled c' := by
  obtain ⟨_, c₁, hiterator, h⟩ := bind_eq_ok h
  cases h
  obtain ⟨_, c₂, htype, h⟩ := bind_eq_ok hiterator
  cases htype
  obtain ⟨a, c₃, htake, h⟩ := bind_eq_ok h
  obtain ⟨_, c₄, hadd, h⟩ := bind_eq_ok h
  obtain ⟨w, c₅, hdeclared, hpush⟩ := bind_eq_ok h
  have hint : Compiler.InRangeAt (Compiler.Declaring (.of .int)) { c with currentType := .of .int } :=
    ⟨{ hc with }, rfl⟩
  obtain ⟨hrange, hcell⟩ := ranges_takeTemp (.of .int) _ hint
  rw [htake] at hrange hcell
  have hrange' := Keeping.apply (keeping_addVariable _ ⟨_, hcell a rfl⟩) hrange hadd
  obtain ⟨space, hone, rfl⟩ := take_eq_ok htake
  obtain ⟨r, hr, htaken⟩ := Space.taken_takeOne hint.space hone
  obtain ⟨f, g, t, printed, hname, hget, ht, hc₄⟩ := addVariable_eq_ok hadd
  have hsettled : c₀.Settled c₄ := by
    rw [hc₄]
    exact ⟨(settled_setType hc.rest (.of .int)).putVariable rfl rfl hname hget ht rfl hr htaken rfl rfl,
      hc.rest.kept⟩
  have hget₄ : c₄.functions.get? f = some { g with
      declared := some (t.put (wordOf before) ⟨wordOf before, .of .int, a, []⟩) } := by
    rw [hc₄, Table.get?_put, if_pos rfl]
  rw [run_declared _ (by rw [hc₄]; exact hname) hget₄ rfl (Table.has_put _ _ _)] at hdeclared
  obtain ⟨hstate, hknown⟩ := ranges_variableOf (J := Compiler.Settled c₀) _ c₄ ⟨hrange'.toInRange, hsettled⟩
  rw [hdeclared] at hstate hknown
  have hw := hknown w rfl
  exact (Keeping.apply ((keeping_pushVariable hw).bind fun _ _ => (keeping_pushVariable hw).bind fun _ _ =>
    keeping_pushVariable hw) hstate hpush).rest

end Compile

/-! ### All steps -/

open Compile

/-- A step that does not store leaves nothing ready, or it does nothing. -/
theorem Mode.afterStep_of_not_storing {step : Step} {m m' : Mode} (hs : step.storing = false)
    (h : Mode.afterStep step m = some m') {before v : Option Literal} {args : List (Option Literal)}
    {c c' : Compiler} (hrun : (perform before args step).run c = (.ok v, c')) :
    (m' = .any ∨ m' = .fresh) ∨ (m' = m ∧ c' = c) := by
  cases step with
  | skip | give =>
    cases h
    cases hrun
    exact .inr ⟨rfl, rfl⟩
  | size i shown =>
    cases h
    rw [perform] at hrun
    dsimp only at hrun
    split at hrun <;> cases hrun
    exact .inr ⟨rfl, rfl⟩
  | _ =>
    first
    | (cases hs; done)
    | (cases m <;> cases h <;> first | exact .inl (.inl rfl) | exact .inl (.inr rfl))

/-- Every step keeps what is settled and ready. -/
theorem guard_staged (d : Dialect) (c₀ : Compiler) : Guard d (fun _ => True) (Compiler.Staged c₀) where
  weaken _ h := ⟨h.toInRangeAt, trivial⟩
  reports {m c c'} hr h := by
    have hready := Compiler.ready_reports h.ready hr
    obtain ⟨printed, rfl⟩ := hr
    exact ⟨h.toInRangeAt.same ⟨rfl, rfl, rfl, rfl, rfl, rfl, rfl⟩, hready⟩
  step rule hrule {m m'} hm {before v args c c'} hvalues _ _ hc hrun := by
    refine ⟨?_, trivial⟩
    have hpos : rule.step.sizing = true → Positive (args.map numberOf) := fun hsizing =>
      Values.positive hvalues (Dialect.symbols_of_sizing hrule hsizing)
    have hrange := Keeping.apply (keeping_perform before hpos) hc.toInRange.any hrun
    by_cases hstoring : rule.step.storing = false
    · have hkeep := Keeping.apply (keeping_computing (ranges_constant_settled c₀) before args hstoring)
        hc.toInRangeAt hrun
      refine ⟨hkeep, ?_⟩
      rcases Mode.afterStep_of_not_storing hstoring hm hrun with (rfl | rfl) | ⟨rfl, rfl⟩
      · trivial
      · trivial
      · exact hc.ready
    · suffices hall : c₀.Settled c' ∧ m'.Ready c' from ⟨⟨hrange.toInRange, hall.1⟩, hall.2⟩
      generalize rule.step = step at *
      cases step with
      | begin => cases hm; exact ⟨settled_begin hc.toInRangeAt hrun, trivial⟩
      | openTable => cases m <;> cases hm <;> exact ⟨settled_openTable hc.rest hrun, trivial⟩
      | declare => cases m <;> cases hm <;> exact settled_declare hc.toInRangeAt hrun
      | reserve =>
        cases m <;> cases hm
        exact ⟨settled_reserve hc.rest hc.ready (hpos rfl) hrun, trivial⟩
      | setType | setVoid =>
        cases hrun
        cases m <;> cases hm <;> exact ⟨settled_setType hc.rest _, trivial⟩
      | beginFunction => cases m <;> cases hm <;> exact settled_beginFunction hc.toInRangeAt hrun
      | returnDims =>
        cases m <;> cases hm
        exact ⟨settled_returnDims hc.rest hc.ready hrun, trivial⟩
      | param => cases m <;> cases hm <;> exact settled_param hc.toInRangeAt hrun
      | paramDims =>
        cases m <;> cases hm
        exact ⟨settled_paramDims hc.rest hc.ready (hpos rfl) hrun, trivial⟩
      | markStart => cases m <;> cases hm <;> exact ⟨settled_markStart hc.rest hrun, trivial⟩
      | endFunction => cases m <;> cases hm <;> exact ⟨settled_endFunction hc.rest hrun, trivial⟩
      | ret => cases m <;> cases hm <;> exact ⟨settled_ret hc.toInRangeAt hrun, trivial⟩
      | iterator => cases m <;> cases hm <;> exact ⟨settled_iterator hc.toInRangeAt hrun, trivial⟩
      | _ => exact absurd rfl hstoring

end QuadLang
