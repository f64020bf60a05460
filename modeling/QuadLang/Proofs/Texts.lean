/-
The texts of a compilation.

Names and literals of a program come into its code as they are written.  Here is what becomes of
them, and what it needs for them to stay where they are put.

* `Carries` — a step that goes through leads from states with `I` to states with `J`;
* `Compiler.Tidy` — the rows of code have four fields; all texts in them, and those of names and
  constants, are of a kind; no quad that prints a text is ever changed;
* `Compile.tidies` — steps that compute something keep this, if their texts are of the kind.

Design notes: a quad is changed when the target of a jump is set, and the numbers of the jumps are
on stacks, or in hand (the list `P`) while a step is at work.  None of them may be that of a quad that
prints a text.  Where a loop begins, the number is that of the next quad, so nothing is printed there
(`strict` says that there is no such number).
-/
import QuadLang.Proofs.Numeral
import QuadLang.Proofs.Placement

namespace QuadLang

variable {op s : String} {x y r : Field} {c : Compiler} {α : Type} {A : String → Prop}
  {Q₀ : Array Quad} {P : List Int} {b : Prop} {v : Due}

section

variable {ε σ α β : Type} {I : σ → Prop} {J : α → σ → Prop} {K : β → σ → Prop} (e : ε)
  {x : Steps ε σ α}

def Carries (I : σ → Prop) (x : Steps ε σ α) (J : α → σ → Prop) : Prop :=
  ∀ ⦃s a s'⦄, I s → x.run s = (.ok a, s') → J a s'

theorem Carries.bind {f : α → Steps ε σ β} (hx : Carries I x J) (hf : ∀ a, Carries (J a) (f a) K) :
    Carries I (x >>= f) K := by
  intro s b s' hs h
  obtain ⟨a, s₁, h₁, h₂⟩ := Steps.bind_eq_ok h
  exact hf a (hx hs h₁) h₂

theorem carries_pure {a : α} (h : ∀ s, I s → J a s) : Carries I (pure a : Steps ε σ α) J := by
  intro s b s' hs hrun
  cases hrun
  exact h s hs

theorem carries_throw : Carries I (throw e : Steps ε σ α) J := by
  intro s b s' _ hrun
  cases hrun

theorem carries_throw_bind (f : α → Steps ε σ β) : Carries I (throw e >>= f) K := by
  intro s b s' _ hrun
  cases hrun

theorem carries_get_bind {f : σ → Steps ε σ β} (h : ∀ s, Carries I (f s) K) : Carries I (get >>= f) K :=
  fun s _ _ hs hrun => h s hs hrun

theorem carries_modify {f : σ → σ} {J : PUnit → σ → Prop} (h : ∀ s, I s → J () (f s)) :
    Carries I (modify f : Steps ε σ PUnit) J := by
  intro s b s' hs hrun
  cases hrun
  exact h s hs

theorem carries_ite {p : Prop} [Decidable p] {y : Steps ε σ α} (hx : p → Carries I x J)
    (hy : ¬p → Carries I y J) : Carries I (if p then x else y) J := by
  split
  · next h => exact hx h
  · next h => exact hy h

theorem Looks.carries (h : Looks x) : Carries I x fun _ => I := by
  intro s a s' hs hrun
  rwa [h hrun]

theorem Compile.Reads.carries {I : Compiler → Prop} {x : Compile α} (h : Reads x) : Carries I x fun _ => I := h.looks.carries

end

/-! ### Tidy states -/

def Quad.ofText (s : String) : Quad := [.text "PRINT", .none, .none, .text s]

/-- A text in a field has `A`. -/
def Field.Fits (A : String → Prop) : Field → Prop
  | .text s => A s
  | _ => True

/-- A quad has four fields, the first with a word, and all texts have `A`. -/
def Quad.Fits (A : String → Prop) (q : Quad) : Prop :=
  ∃ w a b r, q = [.text w, a, b, r] ∧ A w ∧ a.Fits A ∧ b.Fits A ∧ r.Fits A

/-- The target of the quad of a number may be set: it prints no text, now and later. -/
structure Spare (Q : Array Quad) (j : Int) : Prop where
  nonneg : 0 ≤ j
  le : j ≤ Q.size
  quad : ∀ s, Q[j.toNat]? ≠ some (.ofText s)

/-- The cells that a function needs are counted, four numbers twice, or not yet. -/
def Function.Counted (f : Function) : Prop :=
  f.era = [] ∨ ∃ l t, f.era = [l, t] ∧ l.length = 4 ∧ t.length = 4 ∧ ∀ n ∈ l ++ t, Number.Short n

theorem Space.Sound.counted {s : Space} (h : s.Sound) (f : Function) :
    ({ f with era := [s.locals.toList, s.temps.toList] } : Function).Counted := by
  have hbound : ∀ g t, Number.Short ((s.counts g).get t) := by
    intro g t
    have hrange : 0 ≤ g.start t ∧ g.stop t ≤ 38000 := by cases g <;> cases t <;> decide
    have hsound := h g t
    exact Number.short_of_natAbs_lt (by omega)
  refine .inr ⟨_, _, rfl, rfl, rfl, fun k hk => ?_⟩
  simp only [Counts.toList, List.mem_append, List.mem_cons, List.not_mem_nil, or_false] at hk
  rcases hk with (rfl | rfl | rfl | rfl) | rfl | rfl | rfl | rfl
  · exact hbound .local .int
  · exact hbound .local .float
  · exact hbound .local .char
  · exact hbound .local .bool
  · exact hbound .temp .int
  · exact hbound .temp .float
  · exact hbound .temp .char
  · exact hbound .temp .bool

/-- The numbers of jumps and breaks that are open. -/
def Compiler.pending (c : Compiler) : List Int := c.jumps ++ c.breaks.flatten

/-- All texts have `A`, and what prints a text in `Q₀` still does. -/
structure Compiler.Tidy (A : String → Prop) (Q₀ : Array Quad) (P : List Int) (strict : Prop)
    (c : Compiler) : Prop where
  functions : ∀ x ∈ c.functions, x.2.name = x.1 ∧ A x.1 ∧ x.2.Counted
  names : (c.functions.map (·.1)).Nodup
  constants : ∀ k ∈ c.constants, ∀ s, k.value = .text s → A s
  quads : ∀ (i : Nat) q, c.quads[i]? = some q → q.Fits A
  kept : ∀ (i : Nat) s, Q₀[i]? = some (.ofText s) → c.quads[i]? = some (.ofText s)
  spare : ∀ j ∈ P ++ c.pending, Spare c.quads j
  lt : strict → ∀ j ∈ P ++ c.pending, j < c.quads.size

/-- Nothing changes that is about texts and jumps. -/
structure Compiler.SameText (c c' : Compiler) : Prop where
  functions : c'.functions = c.functions
  constants : c'.constants = c.constants
  quads : c'.quads = c.quads
  jumps : c'.jumps = c.jumps
  breaks : c'.breaks = c.breaks

/-- The parts of the state that are about texts and jumps. -/
def Compiler.texts (c : Compiler) := (c.functions, c.constants, c.quads, c.jumps, c.breaks)

theorem Compiler.SameText.of_eq {c' : Compiler} (h : c'.texts = c.texts) : c.SameText c' := by
  simp only [texts, Prod.mk.injEq] at h
  exact ⟨h.1, h.2.1, h.2.2.1, h.2.2.2.1, h.2.2.2.2⟩

theorem Table.nodup_put {t : Table α} (h : (t.map (·.1)).Nodup) (k : String) (v : α) :
    ((t.put k v).map (·.1)).Nodup := by
  rw [map_fst_put]
  split
  · exact h
  · next hhas =>
    rw [← List.concat_eq_append]
    exact h.concat fun hmem => hhas (has_iff.mpr hmem)

namespace Compiler

variable {A : String → Prop} {Q₀ : Array Quad} {P P' : List Int} {b b' : Prop} {c c' : Compiler}
  {printed : List String} {f : Function}

theorem pending_eq (hj : c'.jumps = c.jumps) (hb : c'.breaks = c.breaks) : c'.pending = c.pending := by
  rw [pending, pending, hj, hb]

/-- Fewer numbers are in hand. -/
theorem Tidy.mono (hc : c.Tidy A Q₀ P b) (hP : ∀ j ∈ P', j ∈ P) (hb : b' → b) : c.Tidy A Q₀ P' b' where
  __ := hc
  spare j hj := hc.spare j ((List.mem_append.mp hj).elim (fun h => List.mem_append_left _ (hP j h))
    (List.mem_append_right _))
  lt h j hj := hc.lt (hb h) j ((List.mem_append.mp hj).elim (fun h => List.mem_append_left _ (hP j h))
    (List.mem_append_right _))

theorem Tidy.tail {j : Int} (hc : c.Tidy A Q₀ (j :: P) b) : c.Tidy A Q₀ P b :=
  hc.mono (fun _ hj => List.mem_cons_of_mem _ hj) id

theorem retarget_ne_ofText (t : Int) (q : Quad) (h : q.retarget t = .ofText s) : q = .ofText s := by
  rcases q with _ | ⟨op, _ | ⟨a, _ | ⟨b, _ | ⟨r, rest⟩⟩⟩⟩ <;> cases h

section

variable (hc : c.Tidy A Q₀ P b)
include hc

/-- Numbers go between hand and stacks. -/
theorem Tidy.move (hf : c'.functions = c.functions) (hk : c'.constants = c.constants)
    (hq : c'.quads = c.quads) (hP : ∀ j ∈ P' ++ c'.pending, j ∈ P ++ c.pending) : c'.Tidy A Q₀ P' b where
  functions := hf ▸ hc.functions
  names := hf ▸ hc.names
  constants := hk ▸ hc.constants
  quads := hq ▸ hc.quads
  kept := hq ▸ hc.kept
  spare j hj := hq ▸ hc.spare j (hP j hj)
  lt h j hj := hq ▸ hc.lt h j (hP j hj)

theorem Tidy.same (h : c.SameText c') : c'.Tidy A Q₀ P b := by
  refine hc.move h.functions h.constants h.quads fun j hj => ?_
  rwa [pending_eq h.jumps h.breaks] at hj

/-- After a quad that prints no text no number is that of the next quad, and the number of the new
one is in hand. -/
theorem Tidy.push {q : Quad} (hq : q.Fits A) (hne : ∀ s, q ≠ .ofText s)
    (hf : c'.functions = c.functions) (hk : c'.constants = c.constants) (hquads : c'.quads = c.quads.push q)
    (hj : c'.jumps = c.jumps) (hb : c'.breaks = c.breaks) : c'.Tidy A Q₀ (c.quads.size :: P) b' where
  functions := hf ▸ hc.functions
  names := hf ▸ hc.names
  constants := hk ▸ hc.constants
  quads i q' h := by
    rw [hquads, Array.getElem?_push] at h
    split at h
    · cases h
      exact hq
    · exact hc.quads i q' h
  kept i s h := by
    have hold := hc.kept i s h
    obtain ⟨hlt, -⟩ := Array.getElem?_eq_some_iff.mp hold
    rw [hquads, Array.getElem?_push, if_neg (Nat.ne_of_lt hlt), hold]
  spare j hmem := by
    rw [pending_eq hj hb, List.cons_append, List.mem_cons] at hmem
    have hspare : 0 ≤ j ∧ j ≤ c.quads.size ∧ ∀ s, j < c.quads.size → c.quads[j.toNat]? ≠ some (.ofText s) := by
      rcases hmem with rfl | hmem
      · exact ⟨by omega, by omega, fun s hlt => absurd hlt (by omega)⟩
      · have h := hc.spare j hmem
        exact ⟨h.nonneg, h.le, fun s _ => h.quad s⟩
    obtain ⟨hnonneg, hle, hquad⟩ := hspare
    refine ⟨hnonneg, by rw [hquads, Array.size_push]; omega, fun s h => ?_⟩
    rw [hquads, Array.getElem?_push] at h
    split at h
    · cases h
      exact hne s rfl
    · exact hquad s (by omega) h
  lt _ j hmem := by
    rw [pending_eq hj hb, List.cons_append, List.mem_cons] at hmem
    rw [hquads, Array.size_push]
    rcases hmem with rfl | hmem
    · omega
    · have := (hc.spare j hmem).le
      omega

/-- A text may be printed when no number is that of the next quad. -/
theorem Tidy.pushText (hb : b) (hs : A s) (hword : A "PRINT") :
    ({ c with printed, quads := c.quads.push (.ofText s) } : Compiler).Tidy A Q₀ P b where
  __ := hc
  quads i q' h := by
    rw [Array.getElem?_push] at h
    split at h
    · cases h
      exact ⟨_, _, _, _, rfl, hword, trivial, trivial, hs⟩
    · exact hc.quads i q' h
  kept i t h := by
    have hold := hc.kept i t h
    obtain ⟨hlt, -⟩ := Array.getElem?_eq_some_iff.mp hold
    rw [Array.getElem?_push, if_neg (Nat.ne_of_lt hlt), hold]
  spare j hmem := by
    have h := hc.spare j hmem
    have hlt := hc.lt hb j hmem
    refine ⟨h.nonneg, by rw [Array.size_push]; omega, fun t => ?_⟩
    have := h.nonneg
    rw [Array.getElem?_push, if_neg (by omega)]
    exact h.quad t
  lt _ j hmem := by
    have hlt := hc.lt hb j hmem
    rw [Array.size_push]
    omega

/-- The targets of jumps that are in hand are set. -/
theorem Tidy.retarget {bs : List Nat} {t : Int} {quads : Array Quad}
    (hbs : ∀ i ∈ bs, (i : Int) ∈ P) (hr : Retargets bs t c.quads quads) :
    ({ c with printed, quads } : Compiler).Tidy A Q₀ P b where
  __ := hc
  quads i q h := by
    rw [hr.get?] at h
    split at h
    · obtain ⟨q', hq', rfl⟩ := Option.map_eq_some_iff.mp h
      obtain ⟨w, x, y, r, rfl, hw, hx, hy, -⟩ := hc.quads i q' hq'
      exact ⟨w, x, y, .number t, rfl, hw, hx, hy, trivial⟩
    · exact hc.quads i q h
  kept i s h := by
    have hold := hc.kept i s h
    have hnot : i ∉ bs := by
      intro hmem
      have hspare := hc.spare i (List.mem_append_left _ (hbs i hmem))
      exact hspare.quad s (by rwa [Int.toNat_natCast])
    rw [hr.get?, if_neg hnot, hold]
  spare j hmem := by
    have h := hc.spare j hmem
    refine ⟨h.nonneg, by rw [hr.size]; exact h.le, fun s hs => h.quad s ?_⟩
    rw [hr.get?] at hs
    split at hs
    · obtain ⟨q', hq', hq⟩ := Option.map_eq_some_iff.mp hs
      rw [hq', retarget_ne_ofText t q' hq]
    · exact hs
  lt h j hmem := by
    rw [hr.size]
    exact hc.lt h j hmem

/-- A function is changed or added. -/
theorem Tidy.putFunction (hA : A f.name) (hcounted : f.Counted)
    (hf : c'.functions = c.functions.put f.name f) (hk : c'.constants = c.constants)
    (hq : c'.quads = c.quads) (hj : c'.jumps = c.jumps) (hb : c'.breaks = c.breaks) :
    c'.Tidy A Q₀ P b where
  functions x hx := by
    rw [hf] at hx
    rcases Table.mem_of_mem_put hx with rfl | hx
    · exact ⟨rfl, hA, hcounted⟩
    · exact hc.functions x hx
  names := by
    rw [hf]
    exact Table.nodup_put hc.names _ _
  constants := hk ▸ hc.constants
  quads := hq ▸ hc.quads
  kept := hq ▸ hc.kept
  spare := by
    rw [hq, pending_eq hj hb]
    exact hc.spare
  lt := by
    rw [hq, pending_eq hj hb]
    exact hc.lt

/-- A function is changed, its name and the count of its cells apart. -/
theorem Tidy.function {n : String} {g : Function}
    (hget : c.functions.get? n = some f) (hname : g.name = f.name) (hera : g.era = f.era) :
    ({ c with functions := c.functions.put n g } : Compiler).Tidy A Q₀ P b := by
  obtain ⟨hkey, hfits, hcounted⟩ := hc.functions _ (Table.mem_of_get? hget)
  obtain rfl : g.name = n := hname.trans hkey
  refine hc.putFunction hfits ?_ rfl rfl rfl rfl rfl
  rw [Function.Counted, hera]
  exact hcounted

end

end Compiler

/-- Constants are changed or added. -/
theorem Compiler.Tidy.constants_put {ks : List Constant} (hc : c.Tidy A Q₀ P b)
    (h : ∀ k ∈ ks, k ∈ c.constants ∨ ∀ s, k.value = .text s → A s) :
    ({ c with constants := ks } : Compiler).Tidy A Q₀ P b :=
  { hc with constants := fun k hk => (h k hk).elim (hc.constants k) id }

theorem Field.Plain.fits (h : x.Plain) : x.Fits A := by
  cases x with
  | text s => cases h
  | _ => trivial

theorem Field.Plain.ne_ofText (h : r.Plain) (s : String) : [.text op, x, y, r] ≠ Quad.ofText s := by
  intro heq
  cases heq
  cases h

theorem Compiler.Tidy.pushPlain {b' : Prop} {printed : List String} (hc : c.Tidy A Q₀ P b)
    (hop : A op) (hx : x.Plain) (hy : y.Plain) (hr : r.Plain) :
    ({ c with printed, quads := c.quads.push [.text op, x, y, r] } : Compiler).Tidy A Q₀
      (c.quads.size :: P) b' :=
  hc.push ⟨op, x, y, r, rfl, hop, hx.fits, hy.fits, hr.fits⟩ hr.ne_ofText rfl rfl rfl rfl rfl

/-- What is tidy stays so. -/
def Compiler.Tidying (A : String → Prop) (Q₀ : Array Quad) (_ _ : Due) (c c' : Compiler) : Prop :=
  ∀ P b, c.Tidy A Q₀ P b → c'.Tidy A Q₀ P b

theorem Due.clean_of_next {u : Due} (h : u.next op = some v) : Clean op := by
  have hall : (("MAT" :: "MAT·" :: "·" :: (batchWords ++ cellWords)).all fun w =>
      w.toList.all fun c => decide (32 ≤ c.toNat)) = true := by decide +kernel
  refine clean_of_all (List.all_eq_true.mp hall op ?_)
  simp only [List.mem_cons, List.mem_append]
  cases u with
  | silence => cases h
  | _ =>
    rw [next] at h
    split_ifs at h <;> simp_all

namespace Compile

variable {A : String → Prop} {Q₀ : Array Quad} {P : List Int} {b b' : Prop}
  {change : Function → Function} {r : Field} {name : String}

/-- The step leads from tidy states to tidy states. -/
abbrev Tidies {α : Type} (A : String → Prop) (Q₀ : Array Quad) (P : List Int) (b : Prop) (x : Compile α) :
    Prop := Carries (Compiler.Tidy A Q₀ P b) x fun _ => Compiler.Tidy A Q₀ P b

/-! ### Steps without code -/

theorem tidies_change {f : Compiler → Compiler} (h : Compiler.texts ∘ f = Compiler.texts) :
    Tidies A Q₀ P b (modify f) :=
  carries_modify fun c hc => hc.same (.of_eq (congrFun h c))

theorem tidies_say (line : Unit → String) : Tidies A Q₀ P b (say line) := by
  intro c r c' hc h
  obtain ⟨printed, rfl⟩ := say_eq_ok h
  exact hc.same ⟨rfl, rfl, rfl, rfl, rfl⟩

theorem tidies_popCall : Tidies A Q₀ P b popCall := by
  intro c x c' hc h
  obtain ⟨rest, -, rfl⟩ := pop_eq_ok h
  exact hc.same ⟨rfl, rfl, rfl, rfl, rfl⟩

/-- A change of a function that leaves its name and the count of its cells. -/
theorem tidies_changeFunction (name : Option String)
    (h : ∀ f, (change f).name = f.name ∧ (change f).era = f.era) :
    Tidies A Q₀ P b (changeFunction name change) := by
  intro c r c' hc hrun
  obtain ⟨n, f, -, hget, rfl⟩ := changeFunction_eq_ok hrun
  exact hc.function hget (h f).1 (h f).2

theorem tidies_changeCurrent (h : ∀ f, (change f).name = f.name ∧ (change f).era = f.era) :
    Tidies A Q₀ P b (changeCurrent change) :=
  carries_get_bind fun _ => tidies_changeFunction _ h

theorem tidies_addParam (address : Int) : Tidies A Q₀ P b (addParam address) := by
  refine carries_get_bind fun _ => tidies_changeCurrent ?_
  exact fun _ => ⟨rfl, rfl⟩

theorem tidies_setParamDimsIn (function : Option String) (dims : List Int) :
    Tidies A Q₀ P b (setParamDimsIn function dims) := by
  refine (reads_functionOf function).carries.bind fun f => ?_
  split
  · exact carries_throw _
  · refine tidies_changeFunction function ?_
    exact fun _ => ⟨rfl, rfl⟩

theorem tidies_setParamDims (dims : List Int) : Tidies A Q₀ P b (setParamDims dims) :=
  carries_get_bind fun _ => tidies_setParamDimsIn _ _

theorem tidies_closeTable : Tidies A Q₀ P b closeTable := by
  refine Carries.bind (tidies_changeCurrent ?_) fun _ => tidies_change rfl
  exact fun _ => ⟨rfl, rfl⟩

theorem tidies_addFunction (h : A name) : Tidies A Q₀ P b (addFunction name) := by
  intro c r c' hc hrun
  rw [addFunction, Steps.run_bind_ok (Steps.run_get c)] at hrun
  obtain ⟨_, c₁, hset, hsay⟩ := Steps.bind_eq_ok hrun
  have htidy : c₁.Tidy A Q₀ P b := by
    cases hset
    exact hc.putFunction (f := ⟨name, c.currentType, none, [], none, none, [], []⟩) h (.inl rfl) rfl rfl rfl rfl rfl
  exact tidies_say _ htidy hsay

/-! ### Making quads -/

/-- A quad whose last field is no text.  Its number is in hand when it has been made. -/
theorem carries_emit (hop : A op) (hx : x.Plain) (hy : y.Plain) (hr : r.Plain) :
    Carries (Compiler.Tidy A Q₀ P b) (emit op x y r) fun _ c =>
      c.Tidy A Q₀ (((c.quads.size : Int) - 1) :: P) b' := by
  intro c u c' hc h
  obtain ⟨printed, rfl⟩ := emit_eq_ok h
  rw [Array.size_push, show ((c.quads.size + 1 : Nat) : Int) - 1 = c.quads.size by omega]
  exact hc.pushPlain hop hx hy hr

theorem tidies_emit (hop : A op) (hx : x.Plain) (hy : y.Plain) (hr : r.Plain) :
    Tidies A Q₀ P b (emit op x y r) :=
  fun _ _ _ hc h => (carries_emit hop hx hy hr hc h).tail

section

variable (hA : ∀ s, Clean s → A s)

include hA

theorem fits_of_all {w : String} (hw : (w.toList.all fun c => decide (32 ≤ c.toNat)) = true) : A w :=
  hA w (clean_of_all hw)

/-- All that computes keeps states tidy. -/
theorem computing_tidying : Computing (Compiler.Tidying A Q₀) where
  trans h h' P b hc := h' P b (h P b hc)
  same h P b hc := by
    simp only [Compiler.matter, Prod.mk.injEq] at h
    exact hc.same ⟨h.2.1, h.2.2.1, h.2.2.2, h.1.1, h.1.2.1⟩
  type _ P b hc := hc.same ⟨rfl, rfl, rfl, rfl, rfl⟩
  function hget hlike P b hc := hc.function hget hlike.name hlike.era
  numbers h P b hc := hc.constants_put fun k hk => (h k hk).imp_right <| by
    rintro ⟨n, hn⟩ s hs
    rw [hn] at hs
    cases hs
  quad h hx hy hr P b hc := (hc.pushPlain (hA _ (Due.clean_of_next h)) hx hy hr).tail

theorem tidies {α : Type} {x : Compile α}
    (h : [Computing (Compiler.Tidying A Q₀)] → Leads (Compiler.Tidying A Q₀ .nothing v) x) :
    Tidies A Q₀ P b x :=
  fun _ _ _ hc hrun => (@h (computing_tidying hA)).apply hrun P b hc

theorem tidies_constant {value : Literal} (h : ∀ s, value = .text s → A s) (type : Ty) :
    Tidies A Q₀ P b (constant value type) :=
  tidies hA (leads_constant type fun _ _ hks _ _ hc => hc.constants_put fun k hk => (hks k hk).imp_right fun hv s hs =>
    h s (hv.symm.trans hs))

theorem tidies_addReturn : Tidies A Q₀ P b addReturn := by
  refine (tidies hA leads_popOperand).bind fun value => reads_current.carries.bind fun f => carries_get_bind fun _ =>
    carries_get_bind fun _ => carries_ite (fun _ => carries_throw_bind _ _) fun _ =>
      carries_ite (fun _ => carries_throw_bind _ _) fun _ => carries_ite (fun _ => carries_throw_bind _ _) fun _ =>
        carries_ite (fun _ => carries_throw_bind _ _) fun _ => ?_
  exact (tidies hA (leads_returnAddress _ _)).bind fun _ => (tidies hA (leads_addShapeOf _)).bind fun _ =>
    Carries.bind (tidies_emit (fits_of_all hA (by decide)) (.address _) trivial trivial) fun _ =>
      (tidies hA (leads_addShapeOf _)).bind fun _ =>
        Carries.bind (tidies_emit (fits_of_all hA (by decide)) trivial trivial trivial) fun _ =>
          tidies_change rfl

theorem tidies_addPrintText (hs : A s) (hb : b) : Tidies A Q₀ P b (addPrintText s) := by
  intro c u c' hc h
  obtain ⟨printed, rfl⟩ := emit_eq_ok h
  exact hc.pushText hb hs (fits_of_all hA (by decide))

/-! ### Calls and functions -/

theorem tidies_beginCall (hname : A name) : Tidies A Q₀ P b (beginCall name) := by
  have hera : Tidies A Q₀ P b (emit "ERA" .none .none (.text name)) := by
    intro c u c' hc h
    obtain ⟨printed, rfl⟩ := emit_eq_ok h
    have hfits : Quad.Fits A [.text "ERA", .none, .none, .text name] :=
      ⟨_, _, _, _, rfl, fits_of_all hA (by decide), trivial, trivial, hname⟩
    exact Compiler.Tidy.tail (hc.push hfits (by simp [Quad.ofText]) rfl rfl rfl rfl rfl)
  exact (reads_functionExists name).carries.bind fun _ => carries_ite (fun _ => hera.bind fun _ =>
    Carries.bind (tidies_change rfl) fun _ => tidies hA (leads_pushOperator _)) fun _ => carries_throw _

theorem tidies_addNextArgument : Tidies A Q₀ P b addNextArgument := by
  refine looks_topCall.carries.bind fun f => (reads_paramOf f).carries.bind fun p => carries_get_bind fun c =>
    Carries.bind (J := fun _ => Compiler.Tidy A Q₀ P b) ?_ fun _ => tidies_change rfl
  refine (tidies hA leads_popOperand).bind fun v => carries_ite (fun _ => carries_throw_bind _ _) fun _ =>
    carries_ite (fun _ => carries_throw_bind _ _) fun _ => (tidies hA (leads_addShapeOf _)).bind fun _ => ?_
  exact tidies_emit (fits_of_all hA (by decide)) (.address _) trivial trivial

theorem tidies_endCall : Tidies A Q₀ P b endCall := by
  refine looks_topCall.carries.bind fun _ => (reads_functionOf _).carries.bind fun f => carries_get_bind fun _ =>
    carries_ite (fun _ => Carries.bind (tidies_change rfl) fun _ => ?_)
      fun _ => carries_throw _
  refine Carries.bind (J := fun _ => Compiler.Tidy A Q₀ P b) ?_ fun _ =>
    (tidies hA leads_popOperator).bind fun _ => carries_pure fun _ hc => hc
  rcases hstart : f.start with _ | n <;> rw [addGoSub] <;>
    exact tidies_emit (fits_of_all hA (by decide)) trivial trivial trivial

theorem tidies_addCallResult : Tidies A Q₀ P b addCallResult := by
  refine tidies_popCall.bind fun name => (reads_functionOf _).carries.bind fun f =>
    carries_ite (fun _ => carries_throw_bind _ _) fun _ => (tidies hA (leads_take _)).bind fun result => ?_
  refine have hlast := ?_; carries_ite (fun _ => (tidies hA (leads_take _)).bind fun _ =>
    (tidies hA (leads_addShape _)).bind fun _ => hlast) fun _ => hlast
  exact Carries.bind (tidies_emit (fits_of_all hA (by decide)) trivial trivial trivial) fun _ =>
    (tidies hA (leads_pushTemp _ _ _)).bind fun _ => carries_get_bind fun _ => (tidies hA (leads_remark _)).bind fun _ =>
      tidies hA leads_countTemp

/-- The cells of the function at work are counted at its end. -/
theorem carries_addFunctionEnd :
    Carries (fun c => c.Tidy A Q₀ P b ∧ c.space.Sound) addFunctionEnd fun _ => Compiler.Tidy A Q₀ P b := by
  refine have hrest := ?_; carries_get_bind fun c => carries_ite (fun _ => reads_current.carries.bind fun f =>
    carries_ite (fun _ => carries_throw_bind _ _) fun _ => hrest) fun _ => hrest
  intro c r c' hc hrun
  rw [Steps.run_bind_ok (Steps.run_get c)] at hrun
  obtain ⟨_, c₁, hchange, hrun⟩ := Steps.bind_eq_ok hrun
  obtain ⟨n, f, -, hget, hc₁⟩ := changeCurrent_eq_ok hchange
  obtain ⟨hkey, hfits, -⟩ := hc.1.functions _ (Table.mem_of_get? hget)
  have hput : c₁.Tidy A Q₀ P b := by
    obtain rfl : f.name = n := hkey
    rw [hc₁]
    exact hc.1.putFunction (f := { f with era := [c.space.locals.toList, c.space.temps.toList] }) hfits
      (hc.2.counted f) rfl rfl rfl rfl rfl
  obtain ⟨_, c₂, hreset, hemit⟩ := Steps.bind_eq_ok hrun
  have hlast : Tidies A Q₀ P b (emit "EndFunc" .none .none .none) :=
    tidies_emit (fits_of_all hA (by decide)) trivial trivial trivial
  have hcounters : Tidies A Q₀ P b resetCounters := tidies_change rfl
  exact hlast (hcounters hput hreset) hemit

end

theorem tidies_build : Tidies A Q₀ P b build := by
  refine carries_get_bind fun c => (tidies_say _).bind fun _ => carries_get_bind fun c => ?_
  split
  · exact carries_throw_bind _ _
  · exact Carries.bind (tidies_change rfl) fun _ => tidies_say _

end Compile

end QuadLang
