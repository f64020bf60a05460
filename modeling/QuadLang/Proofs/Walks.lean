/-
Calls in the code.

The quads of a call are `ERA`, then the code of the arguments with a `PARAM` after each, then
`GoSub`, and for a function with a result `=>` right after it.  Calls can be nested in
arguments.  A `Walk` goes over code from one quad to the next and keeps which calls are
being prepared, and whether a result has to be taken.

* `Walk.next` — the walk over one quad; there is none when the quad is out of place;
* `Walks` — the state of the compiler goes on by code that a walk leads over;
* `Phrase.Derives.evaluates` — expressions and simple statements, calls included, go on by
  code that can be walked over within any calls.
-/
import QuadLang.Proofs.Shapes

namespace QuadLang

open Steps

variable {f name op : String} {u v : Due} {x : Unit}

/-- The last field of a quad: where the result goes, or what a call or jump leads to. -/
def Quad.target (q : Quad) : Field := q.getD 3 .none

/-- The types of the results of functions and where they start. -/
abbrev Kinds := String → Option (Ty × Option Int)

/-- Where a walk over code stands. -/
structure Walk where
  due : Due
  /-- The functions whose calls are being prepared, the innermost first. -/
  preparing : List String
  /-- Whether the result of a call has to be taken next. -/
  answer : Bool
deriving DecidableEq

namespace Walk

/-- In the code of an expression, within calls. -/
def within (fs : List String) : Walk := ⟨.nothing, fs, false⟩

/-- Between statements. -/
def idle : Walk := within []

/-- The walk over one quad.  A value can be returned only from a function that has one, and
not within a call. -/
def next (kinds : Kinds) (returns : Bool) (w : Walk) (q : Quad) : Option Walk :=
  if w.answer then
    if Quad.word q = "MAT" ∧ w.due = .nothing then some { w with due := .cells }
    else if Quad.word q = "=>" ∧ w.due ≠ .product then some { w with due := .nothing, answer := false }
    else none
  else if Quad.word q = "ERA" then
    if w.due = .nothing then
      match Quad.target q with
      | .text f => some { w with preparing := f :: w.preparing }
      | _ => none
    else none
  else if Quad.word q = "PARAM" then
    if w.preparing ≠ [] ∧ w.due ≠ .product then some { w with due := .nothing } else none
  else if Quad.word q = "GoSub" then
    match w.preparing with
    | f :: rest => (kinds f).bind fun k =>
      if w.due = .nothing ∧ Quad.target q = .number? k.2 then
        some { w with preparing := rest, answer := k.1.name != "void" }
      else none
    | [] => none
  else if Quad.word q = "RETURN" then
    if returns = true ∧ w.preparing = [] ∧ w.due ≠ .product then some { w with due := .nothing }
    else none
  else (w.due.next (Quad.word q)).map fun u => { w with due := u }

/-- The walk over code. -/
def run (kinds : Kinds) (returns : Bool) (w : Walk) : List Quad → Option Walk
  | [] => some w
  | q :: qs => (w.next kinds returns q).bind fun w => w.run kinds returns qs

variable {kinds : Kinds} {returns : Bool} {w w₁ w' : Walk} {q : Quad} {qs qs' : List Quad}

theorem run_append (kinds : Kinds) (returns : Bool) (w : Walk) (qs qs' : List Quad) :
    w.run kinds returns (qs ++ qs') = (w.run kinds returns qs).bind fun w => w.run kinds returns qs' := by
  induction qs generalizing w with
  | nil => rfl
  | cons q qs ih =>
    rw [List.cons_append, run, run]
    rcases w.next kinds returns q with _ | w'
    · rfl
    · exact ih w'

theorem run_trans (h : w.run kinds returns qs = some w₁) (h' : w₁.run kinds returns qs' = some w') :
    w.run kinds returns (qs ++ qs') = some w' := by
  rw [run_append, h, Option.bind_some, h']

theorem run_singleton (kinds : Kinds) (returns : Bool) (w : Walk) (q : Quad) :
    w.run kinds returns [q] = w.next kinds returns q := by
  rw [run]
  cases w.next kinds returns q <;> rfl

/-- The words of calls and of control. -/
def callWords : List String :=
  ["ERA", "PARAM", "GoSub", "RETURN", "=>", "GoTo", "GoToF", "EndFunc", "END"]

/-- The words of code that computes are not those of calls and of control. -/
theorem not_call_of_next {word : String} (h : u.next word = some v) :
    word ∉ callWords := by
  have hwords : word ∈ ["MAT", "MAT·", "·"] ++ (batchWords ++ cellWords) := by
    cases u with
    | nothing =>
      rw [Due.next] at h
      split at h
      · next hw => rw [hw]; decide
      · split at h
        · next hw => rw [hw]; decide
        · split at h
          · next hw => exact List.mem_append_right _ hw
          · cases h
    | cells =>
      rw [Due.next] at h
      split at h
      · next hw => exact List.mem_append_right _ (List.mem_append_left _ hw)
      · cases h
    | product =>
      rw [Due.next] at h
      split at h
      · next hw => rw [hw]; decide
      · cases h
    | silence => cases h
  exact (show ∀ w ∈ ["MAT", "MAT·", "·"] ++ (batchWords ++ cellWords), w ∉ callWords by decide) _ hwords

/-- A quad that computes is walked over within any calls. -/
theorem next_of_due (h : u.next (Quad.word q) = some v) (fs : List String) :
    (Walk.mk u fs false).next kinds returns q = some ⟨v, fs, false⟩ := by
  have hword := not_call_of_next h
  simp only [callWords, List.mem_cons, List.not_mem_nil, or_false, not_or] at hword
  simp only [next, Bool.false_eq_true, if_false, hword.1, hword.2.1, hword.2.2.1, hword.2.2.2.1, h,
    Option.map_some]

/-- Code that computes is walked over within any calls. -/
theorem run_of_due {fs : List String} {qs : List Quad} (h : u.run qs = some v) :
    (Walk.mk u fs false).run kinds returns qs = some ⟨v, fs, false⟩ := by
  induction qs generalizing u with
  | nil =>
    rw [Due.run, Option.some.injEq] at h
    rw [h]
    rfl
  | cons q qs ih =>
    obtain ⟨u', hu', hrest⟩ := Option.bind_eq_some_iff.mp h
    rw [run, next_of_due hu' fs]
    exact ih hrest

/-- An announcement is followed by a quad that can work on all cells, or by a condition. -/
theorem due_ofDims_ne (dims : List Int) : Due.ofDims dims ≠ .product := by
  rw [Due.ofDims]
  split <;> exact Due.noConfusion

end Walk

/-! ### Walks of the compiler -/

namespace Compiler

/-- The kinds of the functions that the compiler knows. -/
def kinds (c : Compiler) : Kinds := fun name =>
  (c.head? name).map fun h => (h.returnType, h.start)

/-- Whether values can be returned from the function at work. -/
def returning (c : Compiler) : Bool :=
  c.currentName != c.globalName && (c.currentName.bind c.head?).any (·.returnType != .void)

end Compiler

/-- The state goes on by code that a walk leads over. -/
structure Extends (w w' : Walk) (c c' : Compiler) : Prop where
  jumps : c'.jumps = c.jumps
  breaks : c'.breaks = c.breaks
  currentName : c'.currentName = c.currentName
  globalName : c'.globalName = c.globalName
  head? : c'.head? = c.head?
  currentType : c.currentType.Proper → c'.currentType.Proper
  code : ∃ qs, c'.quads.toList = c.quads.toList ++ qs ∧ w.run c.kinds c.returning qs = some w'

/-- The same, and the calls are the same after it. -/
structure Walks (w w' : Walk) (c c' : Compiler) : Prop extends Extends w w' c c' where
  calls : c'.calls = c.calls

/-- The state goes on by code that can be walked over within calls. -/
def Evaluates (ok : List String → Prop) (c c' : Compiler) : Prop :=
  ∀ fs, ok fs → Walks (.within fs) (.within fs) c c'

variable {w w₁ w' : Walk} {ok : List String → Prop} {c c₁ c' : Compiler}

namespace Extends

theorem kinds (h : Extends w w' c c') : c'.kinds = c.kinds := by
  funext f
  rw [Compiler.kinds, Compiler.kinds, h.head?]

theorem returning (h : Extends w w' c c') : c'.returning = c.returning := by
  rw [Compiler.returning, Compiler.returning, h.head?, h.currentName, h.globalName]

theorem trans (h : Extends w w₁ c c₁) (h' : Extends w₁ w' c₁ c') : Extends w w' c c' where
  jumps := h'.jumps.trans h.jumps
  breaks := h'.breaks.trans h.breaks
  currentName := h'.currentName.trans h.currentName
  globalName := h'.globalName.trans h.globalName
  head? := h'.head?.trans h.head?
  currentType := h'.currentType ∘ h.currentType
  code := by
    obtain ⟨qs, hqs, hwalk⟩ := h.code
    obtain ⟨qs', hqs', hwalk'⟩ := h'.code
    rw [h.kinds, h.returning] at hwalk'
    exact ⟨qs ++ qs', by rw [hqs', hqs, List.append_assoc], Walk.run_trans hwalk hwalk'⟩

end Extends

namespace Walks

theorem trans (h : Walks w w₁ c c₁) (h' : Walks w₁ w' c₁ c') : Walks w w' c c' where
  toExtends := h.toExtends.trans h'.toExtends
  calls := h'.calls.trans h.calls

/-- A change by code. -/
theorem of_same (h : SameControl c c') {qs : List Quad} (hqs : c'.quads.toList = c.quads.toList ++ qs)
    (hwalk : w.run c.kinds c.returning qs = some w') : Walks w w' c c' where
  __ := h
  code := ⟨qs, hqs, hwalk⟩

theorem of_goes (h : Goes u v c c') (fs : List String) :
    Walks ⟨u, fs, false⟩ ⟨v, fs, false⟩ c c' := by
  obtain ⟨qs, hqs, hrun⟩ := h.code
  exact of_same h.toSameControl hqs (Walk.run_of_due hrun)

/-- No code leaves any walk as it is. -/
theorem of_silence (h : Goes .silence .silence c c') (w : Walk) : Walks w w c c' := by
  obtain ⟨qs, hqs, hrun⟩ := h.code
  rcases qs with _ | ⟨q, qs⟩
  · exact of_same h.toSameControl hqs rfl
  · cases hrun

theorem of_reports (h : c.Reports c') (w : Walk) : Walks w w c c' := of_silence (.of_reports h) w

theorem of_emit {a b r : Field} (h : (Compile.emit op a b r).run c = (.ok x, c'))
    (hnext : w.next c.kinds c.returning [.text op, a, b, r] = some w') : Walks w w' c c' := by
  obtain ⟨printed, rfl⟩ := Compile.emit_eq_ok h
  have hquads : (c.quads.push [.text op, a, b, r]).toList = c.quads.toList ++ [[.text op, a, b, r]] :=
    Array.toList_push
  exact of_same ⟨rfl, rfl, rfl, rfl, rfl, rfl, rfl, rfl, id⟩ hquads (by rw [Walk.run_singleton, hnext])

end Walks

namespace Evaluates

theorem trans (h : Evaluates ok c c₁) (h' : Evaluates ok c₁ c') : Evaluates ok c c' :=
  fun fs hok => (h fs hok).trans (h' fs hok)

theorem mono {ok' : List String → Prop} (h : Evaluates ok c c') (hok : ∀ fs, ok' fs → ok fs) :
    Evaluates ok' c c' := fun fs hfs => h fs (hok fs hfs)

theorem of_goes (h : Goes .nothing .nothing c c') : Evaluates ok c c' := fun fs _ => .of_goes h fs

theorem of_reports (h : c.Reports c') : Evaluates ok c c' := fun _ _ => .of_reports h _

end Evaluates

namespace Compile

theorem leads_walks_bind {α β : Type} {x : Compile α} {f : α → Compile β} (hx : Leads (Walks w w₁) x)
    (hf : ∀ a, Leads (Walks w₁ w') (f a)) : Leads (Walks w w') (x >>= f) :=
  hx.bind hf Walks.trans

theorem leads_of_silence {α : Type} {x : Compile α} (h : Leads (Goes .silence .silence) x) (w : Walk) :
    Leads (Walks w w) x := h.mono fun _ _ hg => .of_silence hg w

theorem leads_of_goes {α : Type} {x : Compile α} (h : Leads (Goes u v) x) (fs : List String) :
    Leads (Walks ⟨u, fs, false⟩ ⟨v, fs, false⟩) x :=
  h.mono fun _ _ hg => .of_goes hg fs

/-- A quad whose place does not depend on the functions. -/
theorem leads_walks_emit {a b r : Field}
    (h : ∀ kinds returns, w.next kinds returns [.text op, a, b, r] = some w') :
    Leads (Walks w w') (emit op a b r) :=
  fun _ _ _ hrun => .of_emit hrun (h _ _)

/-- A step that gives no value. -/
theorem of_run_none {x : Compile Unit} {v : Option Literal}
    (h : (do x; return none : Compile (Option Literal)).run c = (.ok v, c')) :
    ∃ a, x.run c = (.ok a, c') := by
  obtain ⟨a, c₁, hx, hpure⟩ := bind_eq_ok h
  cases hpure
  exact ⟨a, hx⟩

/-! ### Calls -/

theorem topCall_eq_ok (h : topCall.run c = (.ok f, c')) :
    c' = c ∧ ∃ rest, c.calls = f :: rest := by
  rw [topCall, run_bind_ok (run_get c)] at h
  rcases hcalls : c.calls with _ | ⟨x, rest⟩
  · rw [hcalls] at h
    cases h
  · rw [hcalls] at h
    cases h
    exact ⟨rfl, rest, rfl⟩

theorem kinds_of_functionOf {g : Function} (h : (functionOf (some f)).run c = (.ok g, c')) :
    c' = c ∧ c.kinds f = some (g.returnType, g.start) := by
  obtain ⟨rfl, n, hn, hget⟩ := functionOf_eq_ok h
  cases hn
  refine ⟨rfl, ?_⟩
  rw [Compiler.kinds, Compiler.head?, hget]
  rfl

theorem beginCall_spec (h : (beginCall name).run c = (.ok x, c')) :
    c'.calls = name :: c.calls ∧ ∀ fs, Extends (.within fs) (.within (name :: fs)) c c' := by
  rw [beginCall, run_bind_ok (show (functionExists name).run c = (.ok (c.functions.has name), c)
    from rfl)] at h
  split at h
  · obtain ⟨_, c₁, hera, hrest⟩ := bind_eq_ok h
    obtain ⟨printed, rfl⟩ := emit_eq_ok hera
    cases hrest
    refine ⟨rfl, fun fs => ⟨rfl, rfl, rfl, rfl, rfl, id, [[.text "ERA", .none, .none, .text name]],
      by simp, ?_⟩⟩
    rw [Walk.run_singleton]
    rfl
  · cases h

theorem addShape_eq_ok {dims : List Int} (h : (addShape dims).run c = (.ok x, c')) :
    ∃ rows cols printed, c' = { c with
      printed, quads := c.quads.push [.text "MAT", .number rows, .number cols, .none] } := by
  have hend : ∀ rows cols : Int, (do
      remark fun _ => "! Preparing for matrix of [" ++ toString rows ++ "][" ++ toString cols ++ "]"
      emit "MAT" (.number rows) (.number cols) .none : Compile Unit).run c = (.ok x, c') →
      ∃ printed, c' = { c with
        printed, quads := c.quads.push [.text "MAT", .number rows, .number cols, .none] } := by
    intro rows cols hrun
    obtain ⟨_, c₁, hremark, hemit⟩ := bind_eq_ok hrun
    obtain ⟨printed, rfl⟩ := say_eq_ok hremark
    obtain ⟨printed', rfl⟩ := emit_eq_ok hemit
    exact ⟨printed', rfl⟩
  rcases dims with _ | ⟨m, _ | ⟨n, _ | ⟨k, rest⟩⟩⟩
  · cases h
  · exact ⟨1, m, hend 1 m h⟩
  · exact ⟨m, n, hend m n h⟩
  · cases h

theorem leads_addNextArgument (f : String) (fs : List String) :
    Leads (Walks (.within (f :: fs)) (.within (f :: fs))) addNextArgument := by
  have hcount : Leads (Walks (.within (f :: fs)) (.within (f :: fs)))
      (modify fun c => { c with paramCount := c.paramCount + 1 } : Compile PUnit) :=
    leads_modify fun c => ⟨⟨rfl, rfl, rfl, rfl, rfl, id, [], by simp, rfl⟩, rfl⟩
  have hargument : ∀ p k, Leads (Walks (.within (f :: fs)) (.within (f :: fs))) (addArgument p k) := by
    intro p k
    refine leads_walks_bind (leads_of_silence leads_popOperand _) fun v => ?_
    have hnext : ∀ kinds returns, (Walk.mk (.ofDims v.dims) (f :: fs) false).next kinds returns
        [.text "PARAM", .address v.address, .number p.address, .number k] =
          some (.within (f :: fs)) := by
      intro kinds returns
      show (if f :: fs ≠ [] ∧ Due.ofDims v.dims ≠ .product then _ else _) = _
      rw [if_pos ⟨List.cons_ne_nil f fs, Walk.due_ofDims_ne v.dims⟩]
      rfl
    intro c a c' h
    dsimp only at h
    by_cases htype : (v.type.name != p.type.name) = true
    · rw [if_pos htype] at h
      cases h
    rw [if_neg htype] at h
    by_cases hdims : (v.dims != p.dims) = true
    · rw [if_pos hdims] at h
      cases h
    rw [if_neg hdims] at h
    exact (leads_walks_bind (leads_of_goes (leads_addShapeOf v.dims) (f :: fs)) fun _ =>
      leads_walks_emit hnext) c a c' h
  exact leads_walks_bind (leads_of_silence looks_topCall.leads _) fun name => leads_walks_bind
    (leads_of_silence (reads_paramOf name).leads _) fun p => leads_walks_bind (leads_of_silence (leads_get _) _)
      fun _ => leads_walks_bind (hargument _ _) fun _ => hcount

theorem endCall_spec (h : endCall.run c = (.ok x, c')) :
    ∃ f rest k, c.calls = f :: rest ∧ c.kinds f = some k ∧
      ∀ fs, Walks (.within (f :: fs)) ⟨.nothing, fs, k.1.name != "void"⟩ c c' := by
  obtain ⟨f, c₁, htop, h₁⟩ := bind_eq_ok h
  obtain ⟨rfl, rest, hcalls⟩ := topCall_eq_ok htop
  obtain ⟨g, c₂, hf, h₂⟩ := bind_eq_ok h₁
  obtain ⟨rfl, hkinds⟩ := kinds_of_functionOf hf
  refine ⟨f, rest, _, hcalls, hkinds, fun fs => ?_⟩
  rw [run_bind_ok (run_get c₂)] at h₂
  split at h₂
  · obtain ⟨_, c₃, hreset, h₃⟩ := bind_eq_ok h₂
    cases hreset
    obtain ⟨_, c₄, hsub, h₄⟩ := bind_eq_ok h₃
    have hpop : Leads (Walks ⟨.nothing, fs, g.returnType.name != "void"⟩ _)
        (do let _ ← popOperator : Compile Unit) :=
      leads_of_silence (leads_bind leads_popOperator fun _ => leads_pure _ _) _
    have hreset : Walks (.within (f :: fs)) (.within (f :: fs)) c₂ { c₂ with paramCount := 0 } :=
      ⟨⟨rfl, rfl, rfl, rfl, rfl, id, [], by simp, rfl⟩, rfl⟩
    refine (hreset.trans (.of_emit hsub ?_)).trans (hpop c₄ x c' h₄)
    show (Compiler.kinds { c₂ with paramCount := 0 } f).bind _ = _
    rw [show Compiler.kinds { c₂ with paramCount := 0 } f = c₂.kinds f from rfl, hkinds,
      Option.bind_some]
    exact if_pos ⟨rfl, rfl⟩
  · cases h₂

theorem addCallResult_spec (h : addCallResult.run c = (.ok x, c')) :
    ∃ f rest k, c.calls = f :: rest ∧ c.kinds f = some k ∧ (k.1.name != "void") = true ∧
      c'.calls = rest ∧ ∀ fs, Extends ⟨.nothing, fs, true⟩ (.within fs) c c' := by
  obtain ⟨f, c₁, hpop, h₁⟩ := bind_eq_ok h
  obtain ⟨rest, hcalls, hc₁⟩ := pop_eq_ok hpop
  obtain ⟨g, c₂, hf, h₂⟩ := bind_eq_ok h₁
  obtain ⟨hc₂, hkinds⟩ := kinds_of_functionOf hf
  rw [hc₂] at h₂
  by_cases hvoid : (g.returnType.name == "void") = true
  · rw [if_pos hvoid] at h₂
    cases h₂
  · rw [if_neg hvoid] at h₂
    -- after the announcement, if there is one, the result is taken
    have hend : ∀ (u : Due) (fs : List String) (result : Int), u ≠ .product →
        Leads (Walks ⟨u, fs, true⟩ (.within fs)) (do
          emit "=>" .none .none (.number result)
          pushTemp (.cell result) g.returnType g.returnDims
          let n := (← get).tempCount
          remark fun _ =>
            "> RET: t" ++ toString n ++ " - " ++ g.returnType.name ++ " -> " ++ toString result ++
              if g.returnDims.isEmpty then "" else " - " ++ toString (result + sizeOf g.returnDims - 1)
          countTemp) := by
      intro u fs result hu
      have hnext : ∀ kinds returns, (Walk.mk u fs true).next kinds returns
          [.text "=>", .none, .none, .number result] = some (.within fs) := by
        intro kinds returns
        have hmat : ¬ (Quad.word [.text "=>", .none, .none, .number result] = "MAT" ∧ u = .nothing) :=
          fun hw => absurd hw.1 (by decide : "=>" ≠ "MAT")
        rw [Walk.next, if_pos rfl, if_neg hmat, if_pos ⟨rfl, hu⟩]
        rfl
      exact leads_walks_bind (leads_walks_emit hnext) fun _ => leads_of_silence
        (leads_bind (leads_pushTemp _ _ _) fun _ => leads_bind (leads_get _) fun _ =>
          leads_bind (leads_remark _) fun _ => leads_countTemp) _
    have hshape : ∀ fs, Leads (Walks ⟨.nothing, fs, true⟩ ⟨.cells, fs, true⟩)
        (addShape g.returnDims) := by
      intro fs c a c' hrun
      obtain ⟨rows, cols, printed, rfl⟩ := addShape_eq_ok hrun
      exact .of_same ⟨rfl, rfl, rfl, rfl, rfl, rfl, rfl, rfl, id⟩ Array.toList_push
        (by rw [Walk.run_singleton]; rfl)
    have hwalks : ∀ fs, Walks ⟨.nothing, fs, true⟩ (.within fs) c₁ c' := by
      intro fs
      refine Leads.apply ?_ h₂
      refine leads_walks_bind (leads_of_silence (leads_take _) _) fun result c a c' hrun => ?_
      dsimp only at hrun
      by_cases hdims : (!g.returnDims.isEmpty) = true
      · rw [if_pos hdims] at hrun
        exact (leads_walks_bind (leads_of_silence (leads_take _) _) fun _ => leads_walks_bind
          (hshape fs) fun _ => hend .cells fs result (by decide)).apply hrun
      · rw [if_neg hdims] at hrun
        exact (hend .nothing fs result (by decide)).apply hrun
    subst hc₁
    refine ⟨f, rest, _, hcalls, hkinds, ?_, (hwalks []).calls, fun fs => ?_⟩
    · rw [bne, Bool.not_eq_true', Bool.eq_false_iff]
      exact hvoid
    · exact { hwalks fs with }

theorem callStatement_spec {before v : Option Literal} {args : List (Option Literal)}
    (h : (perform before args .callStatement).run c = (.ok v, c')) :
    ∃ f rest k, c.calls = f :: rest ∧ c.kinds f = some k ∧ (k.1.name != "void") = false ∧
      c' = { c with calls := rest } := by
  obtain ⟨f, c₁, hpop, h₁⟩ := bind_eq_ok h
  obtain ⟨rest, hcalls, hc₁⟩ := pop_eq_ok hpop
  obtain ⟨g, c₂, hf, h₂⟩ := bind_eq_ok h₁
  obtain ⟨hc₂, hkinds⟩ := kinds_of_functionOf hf
  subst hc₂ hc₁
  split at h₂
  · cases h₂
  · next hvoid =>
    cases h₂
    exact ⟨f, rest, _, hcalls, hkinds, Bool.eq_false_iff.mpr hvoid, rfl⟩

/-! ### Returns -/

/-- A return is in a function that has a result. -/
theorem walks_addReturn (h : addReturn.run c = (.ok x, c')) : Walks .idle .idle c c' := by
  obtain ⟨value, c₁, hpop, h₁⟩ := bind_eq_ok h
  have hpopped := leads_of_silence leads_popOperand .idle c value c₁ hpop
  obtain ⟨f, c₂, hcurrent, h₂⟩ := bind_eq_ok h₁
  obtain ⟨hc₂, name, hname, hget⟩ := functionOf_eq_ok
    (show (functionOf c₁.currentName).run c₁ = (.ok f, c₂) from hcurrent)
  rw [hc₂, run_bind_ok (run_get c₁), run_bind_ok (run_get c₁)] at h₂
  by_cases hmain : (c₁.currentName == c₁.globalName) = true
  · rw [if_pos hmain] at h₂
    cases h₂
  rw [if_neg hmain] at h₂
  by_cases hvoid : (f.returnType == .void) = true
  · rw [if_pos hvoid] at h₂
    cases h₂
  rw [if_neg hvoid] at h₂
  have hreturning : c₁.returning = true := by
    rw [Compiler.returning, hname, Option.bind_some, Compiler.head?, hget, ← hname, Bool.and_eq_true]
    refine ⟨?_, ?_⟩
    · rw [bne, Bool.not_eq_true', Bool.eq_false_iff]
      exact hmain
    · show (f.returnType != .void) = true
      rw [bne, Bool.not_eq_true', Bool.eq_false_iff]
      exact hvoid
  refine hpopped.trans ?_
  by_cases htype : (value.type.name != f.returnType.name) = true
  · rw [if_pos htype] at h₂
    cases h₂
  rw [if_neg htype] at h₂
  by_cases hdims : (value.dims != f.returnDims) = true
  · rw [if_pos hdims] at h₂
    cases h₂
  rw [if_neg hdims] at h₂
  obtain ⟨address, c₃, haddress, h₃⟩ := bind_eq_ok h₂
  obtain ⟨_, c₄, hshape, h₄⟩ := bind_eq_ok h₃
  obtain ⟨_, c₅, hassign, h₅⟩ := bind_eq_ok h₄
  obtain ⟨_, c₆, hshape', h₆⟩ := bind_eq_ok h₅
  obtain ⟨_, c₇, hreturn, h₇⟩ := bind_eq_ok h₆
  have hassigned : Goes .nothing .nothing c₁ c₅ :=
    (Goes.trans ((leads_returnAddress _ _).apply haddress) ((leads_addShapeOf _).apply hshape)).trans
      ((leads_emit (y := .none) (r := .number _) (Due.next_ofDims _ (by decide)) (.address _) trivial trivial).apply hassign)
  have hwalk : Walks .idle ⟨.ofDims f.returnDims, [], false⟩ c₁ c₆ :=
    .of_goes (hassigned.trans ((leads_addShapeOf _).apply hshape')) []
  have hnext : (Walk.mk (.ofDims f.returnDims) [] false).next c₆.kinds c₆.returning
      [.text "RETURN", .none, .none, .number address] = some .idle := by
    rw [hwalk.returning, hreturning]
    show (if true = true ∧ ([] : List String) = [] ∧ Due.ofDims f.returnDims ≠ .product then _ else _) = _
    rw [if_pos ⟨rfl, rfl, Walk.due_ofDims_ne _⟩]
    rfl
  refine (hwalk.trans (.of_emit hreturn hnext)).trans ?_
  cases h₇
  exact ⟨⟨rfl, rfl, rfl, rfl, rfl, id, [], by simp, rfl⟩, rfl⟩

end Compile

/-! ### Expressions and simple statements -/

namespace Phrase

variable {d : Dialect} {P : Phrase}

/-- What a phrase of a symbol with a single empty phrase inside does is its step. -/
theorem Derives.mark {step : Step} (h : Derives d P) (hs : P.symbol = name)
    (hframe : framesOf name = [(["empty"], step)]) {before v : Option Literal}
    (hP : P.Compiles before c v c') : ∃ args c₁, c.Reports c₁ ∧
      (Compile.perform before args step).run c₁ = (.ok v, c') := by
  obtain ⟨_, _, args, c₁, -, -, hsymbols, hparts, hpasses, hrun⟩ := h.only hs hframe hP
  obtain ⟨p, hinner, hp⟩ := List.map_eq_singleton_iff.mp hsymbols
  rw [hinner] at hpasses hparts
  obtain ⟨before', v', c₂, hempty, hreports⟩ := hpasses
  exact ⟨args, c₁, ((hparts p List.mem_cons_self).empty_reports hp hempty).trans hreports, hrun⟩

/-- The frame of a call: what happens around its arguments. -/
theorem call_parts {parts : List Phrase} (hparts : ∀ p ∈ inner parts, Derives d p)
    (hsymbols : (inner parts).map symbol =
      ["found_call_func_name", "call_func_params", "found_call_func_end"])
    (hargs : ∀ p ∈ inner parts, p.symbol = "call_func_params" → ∀ {before v : Option Literal}
      {c c' : Compiler}, p.Compiles before c v c' → Evaluates (· ≠ []) c c')
    (h : Passes (inner parts) c c') :
    ∃ f k, c'.calls = f :: c.calls ∧ c'.kinds f = some k ∧
      ∀ fs, Extends (.within fs) ⟨.nothing, fs, k.1.name != "void"⟩ c c' := by
  simp only [List.map_eq_cons_iff, List.map_eq_nil_iff] at hsymbols
  obtain ⟨x, _, hx, hname, y, _, rfl, hparams, z, _, rfl, hend, rfl⟩ := hsymbols
  rw [hx] at h hparts hargs
  obtain ⟨before, _, c₁, hbegin, _, _, c₂, hpass, _, _, c₃, hdone, hreports⟩ := h
  obtain ⟨_, c₀, hr₀, hrun⟩ := (hparts x (by simp)).mark hname
    (show framesOf _ = [(["empty"], .beginCall)] by decide) hbegin
  obtain ⟨_, hcall⟩ := Compile.of_run_none hrun
  obtain ⟨hcalls, hera⟩ := Compile.beginCall_spec hcall
  obtain ⟨_, c₂', hr₂, hrun'⟩ := (hparts z (by simp)).mark hend
    (show framesOf _ = [(["empty"], .endCall)] by decide) hdone
  obtain ⟨_, hsub⟩ := Compile.of_run_none hrun'
  obtain ⟨f, rest, k, hcalls', hkinds, hgosub⟩ := Compile.endCall_spec hsub
  have hpassed : ∀ g fs, Walks (.within (g :: fs)) (.within (g :: fs)) c₁ c₂' := fun g fs =>
    (hargs y (by simp) hparams hpass _ (List.cons_ne_nil g fs)).trans (.of_reports hr₂ _)
  have hclose : ∀ fs, Walks (.within (f :: fs)) ⟨.nothing, fs, k.1.name != "void"⟩ c₂' c' := fun fs =>
    (hgosub fs).trans (.of_reports hreports _)
  -- the call that is closed is the one that was begun
  have hsame : f :: rest = Compile.wordOf before :: c.calls := by
    rw [← hcalls', (hpassed f []).calls, hcalls, (Walks.of_reports hr₀ .idle).calls]
  obtain ⟨rfl, rfl⟩ := List.cons.inj hsame
  refine ⟨Compile.wordOf before, k, ?_, ?_, fun fs => ?_⟩
  · rw [(hclose []).calls, hcalls']
  · rw [(hclose []).kinds, hkinds]
  · exact ((Walks.of_reports hr₀ _).toExtends.trans (hera fs)).trans
      ((hpassed _ fs).toExtends.trans (hclose fs).toExtends)

/-- Expressions, calls and lists of arguments, by induction on the derivation: the argument
lists are within a call, the others need not be. -/
theorem Derives.evaluates (h : Derives d P) :
    (IsOrdinary P.symbol ∨ P.symbol ∈ ["expr_call_func", "call_func", "empty"] →
      ∀ {before v c c'}, P.Compiles before c v c' → Evaluates (fun _ => True) c c') ∧
    (P.symbol ∈ ["call_func_params", "call_func_param"] →
      ∀ {before v c c'}, P.Compiles before c v c' → Evaluates (· ≠ []) c c') := by
  induction h with
  | token v hs =>
    exact ⟨fun _ _ _ _ _ hP => .of_reports hP.2, fun _ _ _ _ _ hP => .of_reports hP.2⟩
  | @node rule parts hrule hsymbols hparts ih =>
    have hderives : Derives d (.node rule parts) := .node hrule hsymbols hparts
    have hinner : ∀ p ∈ inner parts, p ∈ parts := fun p hp => List.mem_of_mem_filter hp
    refine ⟨fun hs => ?_, fun hs => ?_⟩
    · rcases hs with hs | hs
      · -- all parts are of this kind, and the step is ordinary
        intro before v c c' hP
        obtain ⟨args, c₁, hpasses, hrun⟩ := hP.node
        obtain ⟨hstep, hsyms⟩ := hderives.ordinary hs
        refine Evaluates.trans ?_ (.of_goes ((Compile.leads_perform hstep before args).apply hrun))
        refine Passes.leads .of_reports .trans ?_ hpasses
        intro p hp before v c c' hp'
        refine (ih p (hinner p hp)).1 ?_ hp'
        rcases (hsyms p hp).2 with (hord | hcall) | hempty
        · exact .inl hord
        · exact .inr (by rw [hcall]; decide)
        · exact .inr (by rw [hempty]; decide)
      · have hargs : ∀ p ∈ inner parts, p.symbol = "call_func_params" → ∀ {before v c c'},
            p.Compiles before c v c' → Evaluates (· ≠ []) c c' :=
          fun p hp hs => (ih p (hinner p hp)).2 (by rw [hs]; decide)
        intro before v c c' hP
        simp only [List.mem_cons, List.not_mem_nil, or_false] at hs
        rcases hs with hs | hs | hs
        · obtain ⟨_, _, args, c₁, heq, -, hsyms, hp, hpasses, hrun⟩ := hderives.only hs (show framesOf _ =
            [(["found_call_func_name", "call_func_params", "found_call_func_end"], .callResult)] by decide) hP
          cases heq
          obtain ⟨_, hresult⟩ := Compile.of_run_none hrun
          obtain ⟨f, k, hcalls, hkinds, hext⟩ := call_parts hp hsyms hargs hpasses
          obtain ⟨f', rest, k', hcalls', hkinds', hvalue, hrest, hext'⟩ :=
            Compile.addCallResult_spec hresult
          obtain ⟨rfl, rfl⟩ := List.cons.inj (hcalls'.symm.trans hcalls)
          cases hkinds'.symm.trans hkinds
          intro fs _
          refine ⟨Extends.trans (hext fs) ?_, hrest⟩
          rw [hvalue]
          exact hext' fs
        · obtain ⟨_, _, args, c₁, heq, -, hsyms, hp, hpasses, hrun⟩ := hderives.only hs (show framesOf _ =
            [(["found_call_func_name", "call_func_params", "found_call_func_end"], .callStatement)] by decide) hP
          cases heq
          obtain ⟨f, k, hcalls, hkinds, hext⟩ := call_parts hp hsyms hargs hpasses
          obtain ⟨f', rest, k', hcalls', hkinds', hvoid, rfl⟩ := Compile.callStatement_spec hrun
          obtain ⟨rfl, rfl⟩ := List.cons.inj (hcalls'.symm.trans hcalls)
          cases hkinds'.symm.trans hkinds
          intro fs _
          refine ⟨Extends.trans (hext fs) ?_, rfl⟩
          rw [hvoid]
          exact ⟨rfl, rfl, rfl, rfl, rfl, id, [], (List.append_nil _).symm, rfl⟩
        · exact .of_reports (hderives.empty_reports hs hP)
    · -- the parts are expressions, more arguments, and the steps that pass them
      intro before v c c' hP
      obtain ⟨args, c₁, hpasses, hrun⟩ := hP.node
      have hname : rule.name ∈ frameNames :=
        (show ∀ s ∈ ["call_func_params", "call_func_param"], s ∈ frameNames by decide) _ hs
      obtain ⟨_, _, heq, hframe, -⟩ := hderives.frame hname
      cases heq
      obtain ⟨hstep, hsyms⟩ := (show ∀ f ∈ frames, f.1 ∈ ["call_func_params", "call_func_param"] →
        f.2.2 = .skip ∧ ∀ s ∈ f.2.1, s ∈ ["call_func_param", "empty", "expr", "func_single_step"] by
          decide) _ hframe hs
      have hskip : rule.step = .skip := hstep
      rw [hskip] at hrun
      cases hrun
      refine Passes.leads .of_reports .trans (fun p hp before v c c' hp' => ?_) hpasses
      have hsym : p.symbol ∈ ["call_func_param", "empty", "expr", "func_single_step"] :=
        hsyms _ (List.mem_map_of_mem hp)
      simp only [List.mem_cons, List.not_mem_nil, or_false] at hsym
      rcases hsym with hsym | hsym | hsym | hsym
      · exact (ih p (hinner p hp)).2 (by rw [hsym]; decide) hp'
      · exact ((ih p (hinner p hp)).1 (.inr (by rw [hsym]; decide)) hp').mono fun _ _ => trivial
      · refine ((ih p (hinner p hp)).1 (.inl ?_) hp').mono fun _ _ => trivial
        rw [hsym]
        exact ⟨by decide, by decide⟩
      · obtain ⟨_, c₀, hr, hrun⟩ := (hparts p (hinner p hp)).mark hsym
          (show framesOf _ = [(["empty"], .argument)] by decide) hp'
        obtain ⟨_, hargument⟩ := Compile.of_run_none hrun
        intro fs hfs
        obtain ⟨f, rest, rfl⟩ := List.exists_cons_of_ne_nil hfs
        exact (Walks.of_reports hr _).trans ((Compile.leads_addNextArgument f rest).apply hargument)

end Phrase

end QuadLang
