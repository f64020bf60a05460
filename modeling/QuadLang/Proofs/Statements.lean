/-
The layout of statements.

Every statement has an interval of the final code, and its jumps lead where they should.

* `Laid` — the code of a statement, in final code;
* `Lays` — a statement is compiled so that its code is laid out like this, whatever comes
  after it, once the breaks that are left open are completed;
* `Phrase.Derives.lays` — all statements are compiled like this.

Design notes: `Lays` quantifies over the final code `Q`, which is like the code made so far
except for the targets of open breaks.  So nothing has to be said about code being changed
later.
-/
import QuadLang.Proofs.Jumps

namespace QuadLang

variable {Q : Array Quad}

/-- The quad of a number is a jump. -/
def Jump (Q : Array Quad) (i : Nat) (word : String) (t : Nat) : Prop :=
  ∃ a, Q[i]? = some [.text word, a, .none, .number t]

open Phrase

/-- The symbols of statements with jumps, and of statements that consist of others. -/
def controlNames : List String :=
  ["body", "statements", "statement", "if", "else", "from", "while", "break"]

/-- The code `Q` of a phrase is from `s` to before `e`, in a loop that ends at `exit`.  About code
without jumps `W` says what it is, and which batch is due at its end. -/
inductive Laid (Q : Array Quad) (W : Due → Nat → Nat → Prop) : Option Nat → Phrase → Nat → Nat → Prop
  | plain {exit : Option Nat} {P : Phrase} {s e : Nat} (hs : P.symbol ∉ controlNames)
      (code : W .nothing s e) : Laid Q W exit P s e
  | pass {exit : Option Nat} {rule : DialectRule} {parts : List Phrase} {p : Phrase} {s e : Nat}
      (hs : rule.name ∈ ["body", "statements", "statement"]) (hparts : inner parts = [p])
      (code : Laid Q W exit p s e) : Laid Q W exit (.node rule parts) s e
  | sequence {exit : Option Nat} {rule : DialectRule} {parts : List Phrase} {p q : Phrase}
      {s m e : Nat} (hs : rule.name = "statements") (hparts : inner parts = [p, q])
      (first : Laid Q W exit p s m) (rest : Laid Q W exit q m e) : Laid Q W exit (.node rule parts) s e
  | ifThen {exit : Option Nat} {rule : DialectRule} {parts : List Phrase} {cond mark body : Phrase}
      {u : Due} {s g e : Nat} (hs : rule.name = "if") (hparts : inner parts = [cond, mark, body])
      (hu : u ≠ .product) (test : W u s g) (skip : Jump Q g "GoToF" e) (code : Laid Q W exit body (g + 1) e) :
      Laid Q W exit (.node rule parts) s e
  | ifElse {exit : Option Nat} {rule rule' : DialectRule} {parts parts' : List Phrase}
      {cond mark body mark' other : Phrase} {u : Due} {s g k e : Nat} (hs : rule.name = "if")
      (hparts : inner parts = [cond, mark, body, .node rule' parts'])
      (hparts' : inner parts' = [mark', other]) (hu : u ≠ .product) (test : W u s g) (skip : Jump Q g "GoToF" (k + 1))
      (code : Laid Q W exit body (g + 1) k) (leave : Jump Q k "GoTo" e)
      (other : Laid Q W exit other (k + 1) e) : Laid Q W exit (.node rule parts) s e
  | whileLoop {exit : Option Nat} {rule : DialectRule} {parts : List Phrase}
      {mark cond mark' body : Phrase} {u : Due} {s g k : Nat} (hs : rule.name = "while")
      (hparts : inner parts = [mark, cond, mark', body]) (hu : u ≠ .product) (test : W u s g)
      (done : Jump Q g "GoToF" (k + 1)) (code : Laid Q W (some (k + 1)) body (g + 1) k)
      (again : Jump Q k "GoTo" s) : Laid Q W exit (.node rule parts) s (k + 1)
  | fromLoop {exit : Option Nat} {rule : DialectRule} {parts : List Phrase}
      {iterator first mark last mark' body : Phrase} {u : Due} {s b g l k : Nat}
      (hs : rule.name = "from") (hparts : inner parts = [iterator, first, mark, last, mark', body])
      (start : W .nothing s b) (hu : u ≠ .product) (test : W u b g) (done : Jump Q g "GoToF" (k + 1))
      (code : Laid Q W (some (k + 1)) body (g + 1) l) (count : W .nothing l k)
      (again : Jump Q k "GoTo" b) : Laid Q W exit (.node rule parts) s (k + 1)
  | leave {rule : DialectRule} {parts : List Phrase} {s t : Nat} (hs : rule.name = "break")
      (jump : Jump Q s "GoTo" t) : Laid Q W (some t) (.node rule parts) s (s + 1)

/-- A part of the code. -/
def slice (Q : Array Quad) (s e : Nat) : List Quad := (Q.toList.drop s).take (e - s)

/-- `Q` is like `A` from `s` to before `e`, some quads apart. -/
def Agrees (Q A : Array Quad) (bs : List Nat) (s e : Nat) : Prop :=
  ∀ i, s ≤ i → i < e → i ∉ bs → Q[i]? = A[i]?

/-- A walk that begins between statements leads over the code. -/
def Walked (kinds : Kinds) (returns : Bool) (Q : Array Quad) (u : Due) (s e : Nat) : Prop :=
  s ≤ e ∧ Walk.idle.run kinds returns (slice Q s e) = some ⟨u, [], false⟩

theorem slice_eq {A A' : Array Quad} {qs : List Quad} (hqs : A'.toList = A.toList ++ qs)
    (h : Agrees Q A' [] A.size A'.size) : slice Q A.size A'.size = qs := by
  have hsize : A'.size = A.size + qs.length := by
    rw [← Array.length_toList, hqs, List.length_append, Array.length_toList]
  refine List.ext_getElem? fun i => ?_
  rw [slice, List.getElem?_take, List.getElem?_drop]
  split
  · next hi =>
    rw [Array.getElem?_toList, h _ (Nat.le_add_right _ _) (by omega) List.not_mem_nil,
      ← Array.getElem?_toList, hqs, List.getElem?_append_right (by rw [Array.length_toList]; omega),
      Array.length_toList, Nat.add_sub_cancel_left]
  · next hi => rw [List.getElem?_eq_none (by omega)]

/-- What the compiler keeps while it makes code. -/
structure Steady (c c' : Compiler) : Prop where
  calls : c'.calls = c.calls
  currentName : c'.currentName = c.currentName
  globalName : c'.globalName = c.globalName
  head? : c'.head? = c.head?
  currentType : c.currentType.Proper → c'.currentType.Proper
  size : c.quads.size ≤ c'.quads.size
  old : ∀ i, i < c.quads.size → c'.quads[i]? = c.quads[i]?

variable {w w' : Walk} {c c₁ c₂ c₃ c₄ c₅ c' : Compiler}

namespace Steady

variable {printed : List String} {jumps : List Int} {breaks : List (List Int)}

theorem trans (h : Steady c c₁) (h' : Steady c₁ c') : Steady c c' where
  calls := h'.calls.trans h.calls
  currentName := h'.currentName.trans h.currentName
  globalName := h'.globalName.trans h.globalName
  head? := h'.head?.trans h.head?
  currentType := h'.currentType ∘ h.currentType
  size := h.size.trans h'.size
  old i hi := (h'.old i (hi.trans_le h.size)).trans (h.old i hi)

theorem kinds (h : Steady c c') : c'.kinds = c.kinds := by
  funext f
  rw [Compiler.kinds, Compiler.kinds, h.head?]

theorem returning (h : Steady c c') : c'.returning = c.returning := by
  rw [Compiler.returning, Compiler.returning, h.head?, h.currentName, h.globalName]

theorem of_walks (h : Walks w w' c c') : Steady c c' where
  __ := h
  size := by
    obtain ⟨qs, hqs, -⟩ := h.code
    rw [← Array.length_toList, ← Array.length_toList, hqs, List.length_append]
    exact Nat.le_add_right _ _
  old i hi := by
    obtain ⟨qs, hqs, -⟩ := h.code
    rw [← Array.getElem?_toList, ← Array.getElem?_toList, hqs, List.getElem?_append_left]
    rwa [Array.length_toList]

/-- One more quad, and perhaps other jumps and breaks. -/
theorem push {q : Quad} : Steady c { c with printed, quads := c.quads.push q, jumps, breaks } where
  calls := rfl
  currentName := rfl
  globalName := rfl
  head? := rfl
  currentType := id
  size := by
    rw [Array.size_push]
    exact Nat.le_succ _
  old i hi := Array.getElem?_push_lt hi ▸ (Array.getElem?_eq_getElem hi).symm

/-- Targets in code that was made since are set. -/
theorem retarget {bs : List Nat} {t : Int} {quads : Array Quad} (h : Steady c c₁)
    (hr : Retargets bs t c₁.quads quads) (hbs : ∀ b ∈ bs, c.quads.size ≤ b) :
    Steady c { c₁ with printed, quads, jumps, breaks } where
  __ := h
  size := by
    rw [hr.size]
    exact h.size
  old i hi := by
    have hnot : i ∉ bs := fun hb => absurd (hbs i hb) (Nat.not_le_of_lt hi)
    rw [hr.get?, if_neg hnot, h.old i hi]

end Steady

theorem Walks.walked {u : Due} (h : Walks .idle ⟨u, [], false⟩ c c')
    (hQ : Agrees Q c'.quads [] c.quads.size c'.quads.size) :
    Walked c.kinds c.returning Q u c.quads.size c'.quads.size := by
  obtain ⟨qs, hqs, hrun⟩ := h.code
  refine ⟨(Steady.of_walks h).size, ?_⟩
  rw [slice_eq hqs hQ, hrun]

/-- More breaks of the innermost loop. -/
def withBreaks (bs : List Nat) : List (List Int) → List (List Int)
  | mine :: rest => (mine ++ Compile.numbers bs) :: rest
  | [] => []

theorem withBreaks_nil (breaks : List (List Int)) : withBreaks [] breaks = breaks := by
  rcases breaks with _ | ⟨mine, rest⟩
  · rfl
  · simp [withBreaks, Compile.numbers]

theorem withBreaks_append (bs bs' : List Nat) (breaks : List (List Int)) :
    withBreaks bs' (withBreaks bs breaks) = withBreaks (bs ++ bs') breaks := by
  rcases breaks with _ | ⟨mine, rest⟩
  · rfl
  · simp [withBreaks, Compile.numbers]

/-- The jump of a break that is open. -/
def openQuad : Quad := [.text "GoTo", .none, .none, .none]

/-- The breaks of a statement lead to the end of the loop around it. -/
def Exits (Q : Array Quad) (bs : List Nat) (exit : Option Nat) : Prop :=
  ∀ b ∈ bs, ∃ t, exit = some t ∧ Jump Q b "GoTo" t

/-- A phrase is compiled so that its code is laid out, once the breaks `bs` are completed. -/
structure LaysWith (bs : List Nat) (P : Phrase) (c c' : Compiler) : Prop extends Steady c c' where
  jumps : c'.jumps = c.jumps
  breaks : c'.breaks = withBreaks bs c.breaks
  inLoop : c.breaks = [] → bs = []
  range : ∀ b ∈ bs, c.quads.size ≤ b ∧ b < c'.quads.size ∧ c'.quads[b]? = some openQuad
  laid : ∀ Q exit, Agrees Q c'.quads bs c.quads.size c'.quads.size → Exits Q bs exit →
    Laid Q (Walked c.kinds c.returning Q) exit P c.quads.size c'.quads.size

/-- A phrase is compiled so that its code is laid out. -/
def Lays (P : Phrase) (c c' : Compiler) : Prop := ∃ bs, LaysWith bs P c c'

namespace Lays

variable {P p q : Phrase} {rule : DialectRule} {parts : List Phrase}

theorem plain (hs : P.symbol ∉ controlNames) (h : Walks .idle .idle c c') : Lays P c c' := by
  refine ⟨[], .of_walks h, h.jumps, ?_, fun _ => rfl, fun b hb => absurd hb List.not_mem_nil,
    fun Q exit hQ _ => .plain hs (h.walked hQ)⟩
  rw [withBreaks_nil, h.breaks]

/-- Reports before a phrase. -/
theorem after (h : Lays P c₁ c') (hr : c.Reports c₁) : Lays P c c' := by
  obtain ⟨printed, rfl⟩ := hr
  obtain ⟨bs, h⟩ := h
  exact ⟨bs, { h with }⟩

/-- After a phrase something may happen that makes no code. -/
theorem silence (h : Lays P c c₁) (hg : Goes .silence .silence c₁ c') : Lays P c c' := by
  obtain ⟨bs, h⟩ := h
  have hsteady : Steady c₁ c' := .of_walks (.of_silence hg .idle)
  refine ⟨bs, h.toSteady.trans hsteady, hg.jumps.trans h.jumps, hg.breaks.trans h.breaks, h.inLoop,
    ?_, ?_⟩
  · rw [hg.quads_eq]
    exact h.range
  · rw [hg.quads_eq]
    exact h.laid

theorem reports (h : Lays P c c₁) (hr : c₁.Reports c') : Lays P c c' := h.silence (.of_reports hr)

theorem pass (hs : rule.name ∈ ["body", "statements", "statement"]) (hparts : inner parts = [p])
    (h : Lays p c c') : Lays (.node rule parts) c c' := by
  obtain ⟨bs, h⟩ := h
  exact ⟨bs, { h with laid := fun Q exit hQ hexit => .pass hs hparts (h.laid Q exit hQ hexit) }⟩

theorem sequence (hs : rule.name = "statements") (hparts : inner parts = [p, q]) (hp : Lays p c c₁)
    (hq : Lays q c₁ c') : Lays (.node rule parts) c c' := by
  obtain ⟨bs, hp⟩ := hp
  obtain ⟨bs', hq⟩ := hq
  refine ⟨bs ++ bs', hp.toSteady.trans hq.toSteady, hq.jumps.trans hp.jumps, ?_, fun hb => ?_,
    fun b hb => ?_, fun Q exit hQ hexit => ?_⟩
  · rw [hq.breaks, hp.breaks, withBreaks_append]
  · have hnil := hp.inLoop hb
    rw [hnil, hq.inLoop (by rw [hp.breaks, hb]; rfl)]
    rfl
  · rcases List.mem_append.mp hb with hb | hb
    · obtain ⟨hle, hlt, hget⟩ := hp.range b hb
      exact ⟨hle, hlt.trans_le hq.size, (hq.old b hlt).trans hget⟩
    · obtain ⟨hle, hlt, hget⟩ := hq.range b hb
      exact ⟨hp.size.trans hle, hlt, hget⟩
  · refine .sequence hs hparts (hp.laid Q exit (fun i hle hlt hnot => ?_) fun b hb =>
      hexit b (List.mem_append_left _ hb)) ?_
    · rw [hQ i hle (hlt.trans_le hq.size), hq.old i hlt]
      rintro hmem
      rcases List.mem_append.mp hmem with hb | hb
      · exact hnot hb
      · exact absurd (hq.range i hb).1 (Nat.not_le_of_lt hlt)
    · have hlaid := hq.laid Q exit (fun i hle hlt hnot => ?_) fun b hb =>
        hexit b (List.mem_append_right _ hb)
      · rwa [hp.kinds, hp.returning] at hlaid
      · refine hQ i (hp.size.trans hle) hlt fun hmem => ?_
        rcases List.mem_append.mp hmem with hb | hb
        · exact absurd (hp.range i hb).2.1 (Nat.not_lt_of_le hle)
        · exact hnot hb

end Lays

/-- The state goes on by a condition and the open jump for when it is false. -/
def Tests (c c' : Compiler) : Prop :=
  ∃ u a c₁ printed, u ≠ Due.product ∧ Walks .idle ⟨u, [], false⟩ c c₁ ∧ c' = { c₁ with
    printed, quads := c₁.quads.push [.text "GoToF", a, .none, .none]
    jumps := c₁.quads.size :: c₁.jumps }

/-- A condition with its open jump at `g`, and a statement for when it is true. -/
structure Guards (bs : List Nat) (body : Phrase) (u : Due) (a : Field) (g : Nat) (c c' : Compiler) : Prop
    extends Steady c c' where
  due : u ≠ .product
  jumps : c'.jumps = (g : Int) :: c.jumps
  breaks : c'.breaks = withBreaks bs c.breaks
  inLoop : c.breaks = [] → bs = []
  start : c.quads.size ≤ g
  lt : g < c'.quads.size
  quad : c'.quads[g]? = some [.text "GoToF", a, .none, .none]
  range : ∀ b ∈ bs, g < b ∧ b < c'.quads.size ∧ c'.quads[b]? = some openQuad
  laid : ∀ Q exit, Agrees Q c'.quads (g :: bs) c.quads.size c'.quads.size → Exits Q bs exit →
    Walked c.kinds c.returning Q u c.quads.size g ∧
      Laid Q (Walked c.kinds c.returning Q) exit body (g + 1) c'.quads.size

theorem Tests.guards {body : Phrase} (ht : Tests c c₁) (hb : Lays body c₁ c') :
    ∃ bs u a g, Guards bs body u a g c c' := by
  obtain ⟨u, a, c₀, printed, hu, hw, rfl⟩ := ht
  obtain ⟨bs, hb⟩ := hb
  have htest : Steady c { c₀ with
      printed, quads := c₀.quads.push [.text "GoToF", a, .none, .none]
      jumps := c₀.quads.size :: c₀.jumps } := (Steady.of_walks hw).trans .push
  have hstart : c.quads.size ≤ c₀.quads.size := (Steady.of_walks hw).size
  have hlt : c₀.quads.size < c'.quads.size := by
    have := hb.size
    rwa [Array.size_push] at this
  have hrange : ∀ b ∈ bs, c₀.quads.size < b := by
    intro b hmem
    have := (hb.range b hmem).1
    rwa [Array.size_push] at this
  refine ⟨bs, u, a, c₀.quads.size, htest.trans hb.toSteady, hu, hb.jumps.trans (congrArg _ hw.jumps),
    hb.breaks.trans (congrArg _ hw.breaks), fun hnil => hb.inLoop (hw.breaks.trans hnil), hstart, hlt, ?_,
    fun b hmem => ⟨hrange b hmem, (hb.range b hmem).2⟩, fun Q exit hQ hexit =>
      ⟨hw.walked fun i hle hi _ => ?_, ?_⟩⟩
  · rw [hb.old _ (by rw [Array.size_push]; omega), Array.getElem?_push, if_pos rfl]
  · have hnot : i ∉ c₀.quads.size :: bs := fun hmem =>
      (List.mem_cons.mp hmem).elim (by omega) fun hmem => absurd (hrange i hmem) (by omega)
    rw [hQ i hle (by omega) hnot, hb.old i (by rw [Array.size_push]; omega), Array.getElem?_push,
      if_neg (by omega)]
  · have hlaid := hb.laid Q exit (fun i hle hi hmem => ?_) hexit
    · rwa [htest.kinds, htest.returning, Array.size_push] at hlaid
    · rw [Array.size_push] at hle
      exact hQ i (by omega) hi fun hm => (List.mem_cons.mp hm).elim (by omega) hmem

namespace Lays

variable {P body other cond mark mark' : Phrase} {rule rule' : DialectRule}
  {parts parts' : List Phrase} {x : Unit}

theorem ifThen (hs : rule.name = "if") (hparts : inner parts = [cond, mark, body]) (ht : Tests c c₁)
    (hb : Lays body c₁ c₂) (hend : Compile.completeIf.run c₂ = (.ok x, c')) :
    Lays (.node rule parts) c c' := by
  obtain ⟨bs, u, a, g, hg⟩ := ht.guards hb
  obtain ⟨printed, quads, rfl, hr⟩ := Compile.completeIf_eq_ok hend hg.jumps
  have hstart := hg.start
  have hcode : ∀ i, i ≠ g → quads[i]? = c₂.quads[i]? := fun i hi => by
    rw [hr.get?, if_neg (by rwa [List.mem_singleton])]
  have hjump : quads[g]? = some [.text "GoToF", a, .none, .number (c₂.quads.size : Int)] := by
    rw [hr.get?, if_pos List.mem_cons_self, hg.quad]
    rfl
  refine ⟨bs, hg.toSteady.retarget hr fun b hmem => ?_, rfl, hg.breaks, hg.inLoop, fun b hmem => ?_,
    fun Q exit hQ hexit => ?_⟩
  · rwa [List.mem_singleton.mp hmem]
  · obtain ⟨hlt, hb⟩ := hg.range b hmem
    exact ⟨by omega, hr.size ▸ hb.1, (hcode b (by omega)).trans hb.2⟩
  · rw [show Array.size (Compiler.quads { c₂ with
      printed, quads, jumps := c.jumps }) = c₂.quads.size from hr.size] at hQ ⊢
    have hlaid := hg.laid Q exit (fun i hle hlt hmem => ?_) hexit
    · refine .ifThen hs hparts hg.due hlaid.1 ⟨a, ?_⟩ hlaid.2
      rw [hQ g hstart hg.lt fun hmem => absurd (hg.range g hmem).1 (Nat.lt_irrefl g)]
      exact hjump
    · rw [List.mem_cons, not_or] at hmem
      exact (hQ i hle hlt hmem.2).trans (hcode i hmem.1)

theorem ifElse (hs : rule.name = "if")
    (hparts : inner parts = [cond, mark, body, .node rule' parts'])
    (hparts' : inner parts' = [mark', other]) (ht : Tests c c₁) (hb : Lays body c₁ c₂)
    (helse : Compile.addElse.run c₂ = (.ok x, c₃)) (ho : Lays other c₃ c₄)
    (hend : Compile.completeIf.run c₄ = (.ok x, c')) : Lays (.node rule parts) c c' := by
  obtain ⟨bs, u, a, g, hg⟩ := ht.guards hb
  obtain ⟨bs', ho⟩ := ho
  obtain ⟨printed₁, quads₁, rfl, hr₁⟩ := Compile.addElse_eq_ok helse hg.jumps
  obtain ⟨printed₂, quads, rfl, hr⟩ := Compile.completeIf_eq_ok hend ho.jumps
  have hstart := hg.start
  have hlt := hg.lt
  have hsize : quads₁.size = c₂.quads.size + 1 := hr₁.size.trans (Array.size_push _)
  have hother : quads₁.size ≤ c₄.quads.size := ho.size
  have hrange' : ∀ b ∈ bs', c₂.quads.size < b := fun b hmem =>
    hsize.symm.trans_le (ho.range b hmem).1
  have hafter : Steady c { c₂ with
      printed := printed₁, quads := quads₁, jumps := c₂.quads.size :: c.jumps } := by
    have hpush : Steady c { c₂ with quads := c₂.quads.push [.text "GoTo", .none, .none, .none] } :=
      hg.toSteady.trans .push
    refine hpush.retarget hr₁ fun b hmem => ?_
    rwa [List.mem_singleton.mp hmem]
  -- what is in the final code: the condition and the body, the two jumps and the other part
  have hfirst : ∀ i, i < c₂.quads.size → i ≠ g → quads[i]? = c₂.quads[i]? := by
    intro i hi hne
    rw [hr.get?, if_neg (by rw [List.mem_singleton]; omega), ho.old i (by rw [hsize]; omega), hr₁.get?,
      if_neg (by rwa [List.mem_singleton]), Array.getElem?_push, if_neg (by omega)]
  have hjump : quads[g]? =
      some [.text "GoToF", a, .none, .number ((c₂.quads.size + 1 : Nat) : Int)] := by
    rw [hr.get?, if_neg (by rw [List.mem_singleton]; omega), ho.old _ (by rw [hsize]; omega), hr₁.get?,
      if_pos List.mem_cons_self, Array.getElem?_push, if_neg (by omega), hg.quad]
    rfl
  have hleave : quads[c₂.quads.size]? =
      some [.text "GoTo", .none, .none, .number (c₄.quads.size : Int)] := by
    rw [hr.get?, if_pos List.mem_cons_self, ho.old _ (by rw [hsize]; omega), hr₁.get?,
      if_neg (by rw [List.mem_singleton]; omega), Array.getElem?_push, if_pos rfl]
    rfl
  have hsecond : ∀ i, c₂.quads.size < i → quads[i]? = c₄.quads[i]? := by
    intro i hi
    rw [hr.get?, if_neg (by rw [List.mem_singleton]; omega)]
  refine ⟨bs ++ bs', (hafter.trans ho.toSteady).retarget hr fun b hmem => ?_, rfl, ?_, fun hnil => ?_,
    fun b hmem => ?_, fun Q exit hQ hexit => ?_⟩
  · rw [List.mem_singleton.mp hmem]
    omega
  · rw [← withBreaks_append, ← hg.breaks]
    exact ho.breaks
  · have hbs := hg.inLoop hnil
    have hbs' : bs' = [] := ho.inLoop (hg.breaks.trans (by rw [hbs, withBreaks_nil, hnil]))
    rw [hbs, hbs']
    rfl
  · rw [show Array.size (Compiler.quads { c₄ with
      printed := printed₂, quads, jumps := c.jumps }) = c₄.quads.size from hr.size]
    rcases List.mem_append.mp hmem with hmem | hmem
    · obtain ⟨hle, hlt, hget⟩ := hg.range b hmem
      exact ⟨by omega, by omega, (hfirst b hlt (by omega)).trans hget⟩
    · have hle := hrange' b hmem
      exact ⟨by omega, (ho.range b hmem).2.1, (hsecond b hle).trans (ho.range b hmem).2.2⟩
  · rw [show Array.size (Compiler.quads { c₄ with
      printed := printed₂, quads, jumps := c.jumps }) = c₄.quads.size from hr.size] at hQ ⊢
    have hnot : ∀ i, i = g ∨ i = c₂.quads.size → i ∉ bs ++ bs' := by
      intro i hi hmem
      rcases List.mem_append.mp hmem with hmem | hmem
      · have := hg.range i hmem
        omega
      · have := hrange' i hmem
        omega
    have hlaid := hg.laid Q exit (fun i hle hlt hmem => ?_) fun b hmem =>
      hexit b (List.mem_append_left _ hmem)
    · refine .ifElse hs hparts hparts' hg.due hlaid.1 ⟨a, ?_⟩ hlaid.2 ⟨.none, ?_⟩ ?_
      · rw [hQ g hstart (by omega) (hnot g (.inl rfl))]
        exact hjump
      · rw [hQ _ (by omega) (by omega) (hnot _ (.inr rfl))]
        exact hleave
      · have hlaid := ho.laid Q exit (fun i hle hlt hmem => ?_) fun b hmem =>
          hexit b (List.mem_append_right _ hmem)
        · rw [hafter.kinds, hafter.returning] at hlaid
          exact hsize ▸ hlaid
        · have hle : quads₁.size ≤ i := hle
          rw [hQ i (by omega) hlt fun hm => (List.mem_append.mp hm).elim (fun hm =>
            absurd (hg.range i hm).2.1 (by omega)) hmem]
          exact hsecond i (by omega)
    · rw [List.mem_cons, not_or] at hmem
      rw [hQ i hle (by omega) fun hm => (List.mem_append.mp hm).elim hmem.2 fun hm =>
        absurd (hrange' i hm) (by omega)]
      exact hfirst i hlt hmem.1

/-- What a loop is in the final code: the condition, the jump out of it, the body, what is done
after the body, and the jump back. -/
theorem loop (ht : Tests { c with jumps := c.quads.size :: c.jumps, breaks := [] :: c.breaks } c₁)
    (hb : Lays body c₁ c₂) (hn : Walks .idle .idle c₂ c₃)
    (hend : Compile.completeLoop.run c₃ = (.ok x, c')) :
    Steady c c' ∧ c'.jumps = c.jumps ∧ c'.breaks = c.breaks ∧ c'.quads.size = c₃.quads.size + 1 ∧
      ∀ Q, Agrees Q c'.quads [] c.quads.size c'.quads.size → ∃ u g,
        u ≠ Due.product ∧ Walked c.kinds c.returning Q u c.quads.size g ∧ Jump Q g "GoToF" (c₃.quads.size + 1) ∧
        Laid Q (Walked c.kinds c.returning Q) (some (c₃.quads.size + 1)) body (g + 1) c₂.quads.size ∧
        Walked c.kinds c.returning Q .nothing c₂.quads.size c₃.quads.size ∧
        Jump Q c₃.quads.size "GoTo" c.quads.size := by
  obtain ⟨bs, u, a, g, hg⟩ := ht.guards hb
  have hjumps : c₃.jumps = (g : Int) :: (c.quads.size : Int) :: c.jumps := hn.jumps.trans hg.jumps
  have hbreaks : c₃.breaks = Compile.numbers bs :: c.breaks := hn.breaks.trans hg.breaks
  obtain ⟨printed', quads, rfl, hr⟩ := Compile.completeLoop_eq_ok hend hjumps hbreaks
  have hbody : Steady c c₂ :=
    { hg with }
  have hstart : c.quads.size ≤ g := hg.start
  have hlt := hg.lt
  have hnext : c₂.quads.size ≤ c₃.quads.size := (Steady.of_walks hn).size
  have hpush : Steady c { c₃ with
      quads := c₃.quads.push [.text "GoTo", .none, .none, .number (c.quads.size : Int)] } :=
    (hbody.trans (.of_walks hn)).trans .push
  have hsize : quads.size = c₃.quads.size + 1 := hr.size.trans (Array.size_push _)
  have hkept : ∀ i, i < c₃.quads.size → i ∉ g :: bs → quads[i]? = c₃.quads[i]? := by
    intro i hi hmem
    rw [hr.get?, if_neg hmem, Array.getElem?_push, if_neg (by omega)]
  have hset : ∀ i, i ∈ g :: bs → i < c₂.quads.size →
      quads[i]? = c₂.quads[i]?.map (Quad.retarget ((c₃.quads.size + 1 : Nat) : Int)) := by
    intro i hmem hi
    rw [hr.get?, if_pos hmem, Array.getElem?_push, if_neg (by omega), (Steady.of_walks hn).old i hi]
  have hnot : ∀ i, c₂.quads.size ≤ i → i ∉ g :: bs := by
    intro i hi hmem
    rcases List.mem_cons.mp hmem with rfl | hmem
    · omega
    · exact absurd (hg.range i hmem).2.1 (by omega)
  refine ⟨hpush.retarget hr fun b hmem => ?_, rfl, rfl, hsize, fun Q hQ => ?_⟩
  · rcases List.mem_cons.mp hmem with rfl | hmem
    · exact hstart
    · have := hg.range b hmem
      omega
  · have hQ : ∀ i, c.quads.size ≤ i → i < c₃.quads.size + 1 → Q[i]? = quads[i]? :=
      fun i hle hlt => hQ i hle (hsize ▸ hlt) List.not_mem_nil
    have hlaid := hg.laid Q (some (c₃.quads.size + 1)) (fun i hle hi hmem => ?_) fun b hmem =>
      ⟨_, rfl, .none, ?_⟩
    · refine ⟨u, g, hg.due, hlaid.1, ⟨a, ?_⟩, hlaid.2, ?_, ⟨.none, ?_⟩⟩
      · rw [hQ g hstart (by omega), hset g List.mem_cons_self hlt, hg.quad]
        rfl
      · have hwalked := hn.walked (Q := Q) fun i hle hlt _ => ?_
        · rwa [hbody.kinds, hbody.returning] at hwalked
        · rw [hQ i (by omega) (by omega)]
          exact hkept i hlt (hnot i hle)
      · rw [hQ _ (by omega) (by omega), hr.get?, if_neg (hnot _ hnext), Array.getElem?_push, if_pos rfl]
    · have hle : c.quads.size ≤ i := hle
      rw [hQ i hle (by omega), hkept i (by omega) hmem, (Steady.of_walks hn).old i hi]
    · obtain ⟨hle, hi, hget⟩ := hg.range b hmem
      rw [hQ b (by omega) (by omega), hset b (List.mem_cons_of_mem g hmem) hi, hget]
      rfl

theorem whileLoop (hs : rule.name = "while") (hparts : inner parts = [mark, cond, mark', body])
    (ht : Tests { c with jumps := c.quads.size :: c.jumps, breaks := [] :: c.breaks } c₁)
    (hb : Lays body c₁ c₂) (hend : Compile.completeLoop.run c₂ = (.ok x, c')) :
    Lays (.node rule parts) c c' := by
  obtain ⟨hsteady, hjumps, hbreaks, hsize, hlaid⟩ := loop ht hb (.of_reports (.refl c₂) .idle) hend
  refine ⟨[], hsteady, hjumps, by rw [hbreaks, withBreaks_nil], fun _ => rfl,
    fun b hb => absurd hb List.not_mem_nil, fun Q exit hQ _ => ?_⟩
  obtain ⟨u, g, hu, htest, hdone, hcode, -, hagain⟩ := hlaid Q hQ
  rw [hsize]
  exact .whileLoop hs hparts hu htest hdone hcode hagain

theorem fromLoop {iterator first last : Phrase} (hs : rule.name = "from")
    (hparts : inner parts = [iterator, first, mark, last, mark', body])
    (hw : Walks .idle .idle c c₁)
    (ht : Tests { c₁ with jumps := c₁.quads.size :: c₁.jumps, breaks := [] :: c₁.breaks } c₂)
    (hb : Lays body c₂ c₃) (hn : Walks .idle .idle c₃ c₄)
    (hend : Compile.completeLoop.run c₄ = (.ok x, c')) : Lays (.node rule parts) c c' := by
  obtain ⟨hsteady, hjumps, hbreaks, hsize, hlaid⟩ := loop ht hb hn hend
  refine ⟨[], (Steady.of_walks hw).trans hsteady, hjumps.trans hw.jumps, ?_, fun _ => rfl,
    fun b hb => absurd hb List.not_mem_nil, fun Q exit hQ _ => ?_⟩
  · rw [hbreaks, hw.breaks, withBreaks_nil]
  · have hstart := (Steady.of_walks hw).size
    obtain ⟨u, g, hu, htest, hdone, hcode, hcount, hagain⟩ :=
      hlaid Q fun i hle hlt hmem => hQ i (hstart.trans hle) hlt hmem
    rw [hw.kinds, hw.returning] at htest hcode hcount
    rw [hsize]
    refine .fromLoop hs hparts (hw.walked fun i hle hlt hmem => ?_) hu htest hdone hcode hcount hagain
    rw [hQ i hle (hlt.trans_le hsteady.size) hmem, hsteady.old i hlt]

theorem leave (hs : rule.name = "break") (h : Compile.addBreak.run c = (.ok x, c')) :
    Lays (.node rule parts) c c' := by
  obtain ⟨mine, breaks, printed, hbreaks, rfl⟩ := Compile.addBreak_eq_ok h
  refine ⟨[c.quads.size], .push, rfl, ?_, fun hnil => ?_, fun b hb => ?_, fun Q exit _ hexit => ?_⟩
  · rw [hbreaks]
    rfl
  · rw [hbreaks] at hnil
    cases hnil
  · rw [List.mem_singleton.mp hb]
    exact ⟨Nat.le_refl _, by rw [Array.size_push]; exact Nat.lt_succ_self _,
      by rw [Array.getElem?_push, if_pos rfl]; rfl⟩
  · obtain ⟨t, rfl, hjump⟩ := hexit _ List.mem_cons_self
    rw [Array.size_push]
    exact .leave hs hjump

end Lays

/-! ### All statements -/

/-- A condition and the jump after it. -/
theorem Tests.of_run {x : Unit} (hw : Walks .idle .idle c c₁)
    (h : Compile.addJumpIfFalse.run c₁ = (.ok x, c')) : Tests c c' := by
  obtain ⟨u, a, c₂, printed, hu, hgoes, rfl⟩ := Compile.addJumpIfFalse_eq_ok h
  exact ⟨u, a, c₂, printed, hu, hw.trans (.of_goes hgoes []), rfl⟩

namespace Phrase

variable {d : Dialect} {P : Phrase} {rule : DialectRule} {parts : List Phrase}
  {before v : Option Literal}

/-- The symbols of statements and of what consists of statements. -/
def statementNames : List String :=
  ["body", "statements", "statement", "if", "from", "while", "break", "return", "assignment",
    "call_func", "read", "print", "empty"]

/-- A phrase is always compiled so that its code is laid out. -/
def LaidOut (P : Phrase) : Prop := ∀ ⦃before v : Option Literal⦄ ⦃c c' : Compiler⦄,
  P.Compiles before c v c' → Lays P c c'

/-- The other part of a conditional is always compiled so that its code is laid out. -/
def LaidOutElse (P : Phrase) : Prop := ∀ ⦃before v : Option Literal⦄ ⦃c c' : Compiler⦄,
  P.Compiles before c v c' → ∃ rule parts mark body c₀ c₁, P = .node rule parts ∧
    inner parts = [mark, body] ∧ c.Reports c₀ ∧ Compile.addElse.run c₀ = (.ok (), c₁) ∧ Lays body c₁ c'

theorem Derives.walks_expr (h : Derives d P) (hs : P.symbol = "expr")
    (hP : P.Compiles before c v c') : Walks .idle .idle c c' := by
  refine h.evaluates.1 (.inl ?_) hP [] trivial
  rw [hs]
  exact ⟨by decide, by decide⟩

/-- A mark with the jump for a false condition. -/
theorem Derives.tests {name : String} (h : Derives d P) (hs : P.symbol = name)
    (hframe : framesOf name = [(["empty"], .jumpIfFalse)]) (hw : Walks .idle .idle c c₁)
    (hP : P.Compiles before c₁ v c') : Tests c c' := by
  obtain ⟨_, c₂, hr, hrun⟩ := h.mark hs hframe hP
  obtain ⟨_, hjump⟩ := Compile.of_run_none hrun
  exact .of_run (hw.trans (.of_reports hr .idle)) hjump

theorem Derives.laidOut_simple (h : Derives d P)
    (hs : P.symbol ∈ ["return", "assignment", "call_func", "read", "print", "empty"]) : P.LaidOut := by
  intro before v c c' hP
  have hcontrol : P.symbol ∉ controlNames := (show ∀ s ∈ ["return", "assignment", "call_func", "read",
    "print", "empty"], s ∉ controlNames by decide) _ hs
  refine .plain hcontrol ?_
  simp only [List.mem_cons, List.not_mem_nil, or_false] at hs
  rcases hs with hs | hs | hs | hs | hs | hs
  · obtain ⟨_, _, args, c₁, -, -, hsymbols, hparts, hpasses, hrun⟩ :=
      h.only hs (show framesOf _ = [(["expr"], .ret)] by decide) hP
    obtain ⟨p, hinner, hp⟩ := List.map_eq_singleton_iff.mp hsymbols
    rw [hinner] at hpasses hparts
    obtain ⟨_, _, c₂, hexpr, hreports⟩ := hpasses
    obtain ⟨_, hreturn⟩ := Compile.of_run_none hrun
    exact (((hparts p List.mem_cons_self).walks_expr hp hexpr).trans (.of_reports hreports _)).trans
      (Compile.walks_addReturn hreturn)
  · exact h.evaluates.1 (.inl (by rw [hs]; exact ⟨by decide, by decide⟩)) hP [] trivial
  · exact h.evaluates.1 (.inr (by rw [hs]; decide)) hP [] trivial
  · exact h.evaluates.1 (.inl (by rw [hs]; exact ⟨by decide, by decide⟩)) hP [] trivial
  · exact h.evaluates.1 (.inl (by rw [hs]; exact ⟨by decide, by decide⟩)) hP [] trivial
  · exact h.evaluates.1 (.inr (by rw [hs]; decide)) hP [] trivial

section

variable (h : Derives d (.node rule parts))
include h

theorem Derives.laidOut_if (hs : rule.name = "if")
    (ih : ∀ p ∈ inner parts, p.symbol = "body" → p.LaidOut)
    (ihelse : ∀ p ∈ inner parts, p.symbol = "else" → p.LaidOutElse) :
    (Phrase.node rule parts).LaidOut := by
  intro before v c c' hP
  obtain ⟨_, _, heq, -, hframe, hparts⟩ := h.byFrame hs (by decide)
  cases heq
  rw [show framesOf "if" = [(["expr", "found_if_expr", "body"], .endIf),
    (["expr", "found_if_expr", "body", "else"], .endIf)] by decide, List.mem_pair, Prod.mk.injEq,
    Prod.mk.injEq] at hframe
  obtain ⟨args, c₅, hpasses, hrun⟩ := hP.node
  have hstep : rule.step = .endIf := hframe.elim And.right And.right
  rw [hstep] at hrun
  obtain ⟨x, hend⟩ := Compile.of_run_none hrun
  have hsymbols : ∃ rest, (inner parts).map symbol = "expr" :: "found_if_expr" :: "body" :: rest ∧
      (rest = [] ∨ rest = ["else"]) :=
    hframe.elim (fun hf => ⟨[], hf.1, .inl rfl⟩) fun hf => ⟨["else"], hf.1, .inr rfl⟩
  obtain ⟨rest, hsymbols, hrest⟩ := hsymbols
  simp only [List.map_eq_cons_iff] at hsymbols
  obtain ⟨cond, _, hinner, hcond, mark, _, rfl, hmark, body, _, rfl, hbody, hsymbols⟩ := hsymbols
  rw [hinner] at hpasses hparts ih ihelse
  obtain ⟨_, _, c₁, hP₁, _, _, c₂, hP₂, _, _, c₃, hP₃, hpasses⟩ := hpasses
  have htests : Tests c c₂ := (hparts mark (by simp)).tests hmark (by decide)
    ((hparts cond (by simp)).walks_expr hcond hP₁) hP₂
  have hlays := ih body (by simp) hbody hP₃
  rcases hrest with rfl | rfl
  · rw [List.map_eq_nil_iff] at hsymbols
    subst hsymbols
    exact .ifThen hs hinner htests (hlays.reports hpasses) hend
  · obtain ⟨other, ps, rfl, hother, hsymbols⟩ := List.map_eq_cons_iff.mp hsymbols
    rw [List.map_eq_nil_iff] at hsymbols
    subst hsymbols
    obtain ⟨_, _, c₄, hP₄, hreports⟩ := hpasses
    obtain ⟨rule', parts', mark', body', c₀, c₁', rfl, hinner', hr, helse, hlays'⟩ :=
      ihelse other (by simp) hother hP₄
    exact .ifElse hs hinner hinner' htests (hlays.reports hr) helse (hlays'.reports hreports) hend

theorem Derives.laidOutElse (hs : rule.name = "else")
    (ih : ∀ p ∈ inner parts, p.symbol = "body" → p.LaidOut) :
    (Phrase.node rule parts).LaidOutElse := by
  intro before v c c' hP
  obtain ⟨_, _, args, c₃, heq, -, hsymbols, hparts, hpasses, hrun⟩ :=
    h.only hs (show framesOf _ = [(["found_else", "body"], .skip)] by decide) hP
  cases heq
  cases hrun
  simp only [List.map_eq_cons_iff, List.map_eq_nil_iff] at hsymbols
  obtain ⟨mark, _, hinner, hmark, body, _, rfl, hbody, rfl⟩ := hsymbols
  rw [hinner] at hpasses hparts ih
  obtain ⟨_, _, c₁, hP₁, _, _, c₂, hP₂, hreports⟩ := hpasses
  obtain ⟨_, c₀, hr, hrun⟩ := (hparts mark (by simp)).mark hmark
    (show framesOf _ = [(["empty"], .orElse)] by decide) hP₁
  obtain ⟨_, helse⟩ := Compile.of_run_none hrun
  exact ⟨rule, parts, mark, body, c₀, c₁, rfl, hinner, hr, helse,
    (ih body (by simp) hbody hP₂).reports hreports⟩

theorem Derives.laidOut_while (hs : rule.name = "while")
    (ih : ∀ p ∈ inner parts, p.symbol = "body" → p.LaidOut) : (Phrase.node rule parts).LaidOut := by
  intro before v c c' hP
  obtain ⟨_, _, args, c₅, heq, -, hsymbols, hparts, hpasses, hrun⟩ := h.only hs (show framesOf _ =
    [(["found_while", "expr", "found_while_expr", "body"], .endLoop)] by decide) hP
  cases heq
  simp only [List.map_eq_cons_iff, List.map_eq_nil_iff] at hsymbols
  obtain ⟨mark, _, hinner, hmark, cond, _, rfl, hcond, mark', _, rfl, hmark', body, _, rfl, hbody, rfl⟩ :=
    hsymbols
  obtain ⟨x, hend⟩ := Compile.of_run_none hrun
  rw [hinner] at hpasses hparts ih
  obtain ⟨_, _, c₁, hP₁, _, _, c₂, hP₂, _, _, c₃, hP₃, _, _, c₄, hP₄, hreports⟩ := hpasses
  obtain ⟨_, c₀, hr, hrun⟩ := (hparts mark (by simp)).mark hmark
    (show framesOf _ = [(["empty"], .beginLoop)] by decide) hP₁
  obtain ⟨_, hbegin⟩ := Compile.of_run_none hrun
  cases hbegin
  have htests := (hparts mark' (by simp)).tests hmark' (by decide)
    ((hparts cond (by simp)).walks_expr hcond hP₂) hP₃
  have hlays := (ih body (by simp) hbody hP₄).reports hreports
  exact (Lays.whileLoop hs hinner htests hlays hend).after hr

theorem Derives.laidOut_from (hs : rule.name = "from")
    (ih : ∀ p ∈ inner parts, p.symbol = "body" → p.LaidOut) : (Phrase.node rule parts).LaidOut := by
  intro before v c c' hP
  obtain ⟨_, _, args, c₇, heq, -, hsymbols, hparts, hpasses, hrun⟩ := h.only hs (show framesOf _ =
    [(["found_from_iterator", "expr", "found_from_start", "expr", "found_from_cond", "body"], .loopEnd)] by
      decide) hP
  cases heq
  simp only [List.map_eq_cons_iff, List.map_eq_nil_iff] at hsymbols
  obtain ⟨iterator, _, hinner, hiterator, first, _, rfl, hfirst, mark, _, rfl, hmark, last, _, rfl, hlast,
    mark', _, rfl, hmark', body, _, rfl, hbody, rfl⟩ := hsymbols
  obtain ⟨x, hend⟩ := Compile.of_run_none hrun
  rw [hinner] at hpasses hparts ih
  obtain ⟨_, _, c₁, hP₁, _, _, c₂, hP₂, _, _, c₃, hP₃, _, _, c₄, hP₄, _, _, c₅, hP₅, _, _, c₆, hP₆,
    hreports⟩ := hpasses
  -- the start: the iterator and its first value
  have hiter : Walks .idle .idle c c₁ := by
    refine (hparts iterator (by simp)).evaluates.1 (.inl ?_) hP₁ [] trivial
    rw [hiterator]
    exact ⟨by decide, by decide⟩
  obtain ⟨_, c₂', hr, hrun⟩ := (hparts mark (by simp)).mark hmark
    (show framesOf _ = [(["empty"], .loopStart)] by decide) hP₃
  obtain ⟨_, hbegin⟩ := Compile.of_run_none hrun
  obtain ⟨c₀, hassign, rfl⟩ := Compile.addLoopStart_eq_ok hbegin
  have hstart : Walks .idle .idle c c₀ :=
    ((hiter.trans ((hparts first (by simp)).walks_expr hfirst hP₂)).trans (.of_reports hr _)).trans
      (.of_goes hassign [])
  -- the condition
  obtain ⟨_, c₄', hr', hrun'⟩ := (hparts mark' (by simp)).mark hmark'
    (show framesOf _ = [(["empty"], .loopBound)] by decide) hP₅
  obtain ⟨_, hbound⟩ := Compile.of_run_none hrun'
  obtain ⟨_, c₄₁, hpush, hbound⟩ := Steps.bind_eq_ok hbound
  obtain ⟨_, c₄₂, hoperation, hjump⟩ := Steps.bind_eq_ok hbound
  have hgoes : Goes .nothing .nothing c₄' c₄₂ := Goes.trans ((Compile.leads_pushOperator _).apply hpush)
    ((Compile.leads_addOperation _).apply hoperation)
  have htests := Tests.of_run ((((hparts last (by simp)).walks_expr hlast hP₄).trans
    (.of_reports hr' _)).trans (.of_goes hgoes [])) hjump
  have hlays := (ih body (by simp) hbody hP₆).reports hreports
  -- the end: one more, and again
  obtain ⟨c₈, c₉, hcount, hloop, hpop⟩ := Compile.addLoopEnd_eq_ok hend
  exact (Lays.fromLoop hs hinner hstart htests hlays (.of_goes hcount []) hloop).silence hpop

theorem Derives.laidOut_break (hs : rule.name = "break") : (Phrase.node rule parts).LaidOut := by
  intro before v c c' hP
  obtain ⟨_, _, args, c₁, heq, -, hsymbols, -, hpasses, hrun⟩ :=
    h.only hs (show framesOf _ = [([], .leave)] by decide) hP
  cases heq
  rw [List.map_eq_nil_iff.mp hsymbols] at hpasses
  obtain ⟨_, hleave⟩ := Compile.of_run_none hrun
  exact (Lays.leave hs hleave).after hpasses

/-- A phrase that consists of one statement, or of two. -/
theorem Derives.laidOut_parts (hs : rule.name ∈ ["body", "statements", "statement"])
    (ih : ∀ p ∈ inner parts, p.symbol ∈ statementNames → p.LaidOut) :
    (Phrase.node rule parts).LaidOut := by
  intro before v c c' hP
  have hname : rule.name ∈ frameNames :=
    (show ∀ s ∈ ["body", "statements", "statement"], s ∈ frameNames by decide) _ hs
  obtain ⟨_, _, heq, hframe, -⟩ := h.frame hname
  cases heq
  obtain ⟨hstep, hsymbols, hlength⟩ := (show ∀ f ∈ frames,
    f.1 ∈ ["body", "statements", "statement"] → f.2.2 = .skip ∧ (∀ s ∈ f.2.1, s ∈ statementNames) ∧
      (f.2.1.length = 1 ∨ f.2.1.length = 2 ∧ f.1 = "statements") by decide) _ hframe hs
  have hstep : rule.step = .skip := hstep
  have hall : ∀ p ∈ inner parts, p.LaidOut := fun p hp =>
    ih p hp (hsymbols _ (List.mem_map_of_mem hp))
  obtain ⟨args, c₁, hpasses, hrun⟩ := hP.node
  rw [hstep] at hrun
  cases hrun
  rw [List.length_map] at hlength
  rcases hlength with hone | ⟨htwo, hseq⟩
  · obtain ⟨p, hinner⟩ := List.length_eq_one_iff.mp hone
    rw [hinner] at hpasses
    obtain ⟨_, _, c₂, hp, hreports⟩ := hpasses
    exact .pass hs hinner ((hall p (by rw [hinner]; exact List.mem_cons_self) hp).reports hreports)
  · obtain ⟨p, q, hinner⟩ := List.length_eq_two.mp htwo
    rw [hinner] at hpasses
    obtain ⟨_, _, c₂, hp, _, _, c₃, hq, hreports⟩ := hpasses
    exact .sequence hseq hinner (hall p (by simp [hinner]) hp)
      ((hall q (by simp [hinner]) hq).reports hreports)

end

/-- All statements are compiled so that their code is laid out.  The induction is on the
derivation, with the other parts of conditionals on the side. -/
theorem Derives.lays (h : Derives d P) :
    (P.symbol ∈ statementNames → P.LaidOut) ∧ (P.symbol = "else" → P.LaidOutElse) := by
  induction h with
  | @token s v hs =>
    have hnot : ∀ s' ∈ frameNames, s ≠ s' := by
      rintro s' hs' rfl
      obtain ⟨r, hr, hname⟩ := Dialect.mem_rules_of_mem_frameNames (d := d) hs'
      exact hs r hr hname
    refine ⟨fun hmem => ?_, fun helse => absurd helse (hnot "else" (by decide))⟩
    intro before v c c' hP
    refine .plain (fun hcontrol => ?_) (.of_reports hP.2 .idle)
    exact hnot s ((show ∀ s ∈ controlNames, s ∈ frameNames by decide) _ hcontrol) rfl
  | @node rule parts hrule hsymbols hparts ih =>
    have hderives : Derives d (.node rule parts) := .node hrule hsymbols hparts
    have hstatement : ∀ p ∈ inner parts, p.symbol ∈ statementNames → p.LaidOut := fun p hp =>
      (ih p (List.mem_of_mem_filter hp)).1
    have hbody : ∀ p ∈ inner parts, p.symbol = "body" → p.LaidOut := fun p hp hs =>
      hstatement p hp (by rw [hs]; decide)
    refine ⟨fun hs => ?_, fun hs => hderives.laidOutElse hs hbody⟩
    have hcases : rule.name ∈ ["body", "statements", "statement"] ++ (["if", "from", "while", "break"] ++
        ["return", "assignment", "call_func", "read", "print", "empty"]) := hs
    rcases List.mem_append.mp hcases with hs | hs
    · exact hderives.laidOut_parts hs hstatement
    rcases List.mem_append.mp hs with hs | hs
    · simp only [List.mem_cons, List.not_mem_nil, or_false] at hs
      rcases hs with hs | hs | hs | hs
      · exact hderives.laidOut_if hs hbody fun p hp hs => (ih p (List.mem_of_mem_filter hp)).2 hs
      · exact hderives.laidOut_from hs hbody
      · exact hderives.laidOut_while hs hbody
      · exact hderives.laidOut_break hs
    · exact hderives.laidOut_simple hs

end Phrase

end QuadLang
