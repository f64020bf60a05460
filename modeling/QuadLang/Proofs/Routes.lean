/-
Where code leads.

To every place of the code of a program belongs a walk that stands there, however a run comes
to the place.  So what is being prepared at a place, and whether a result has to be taken
there, can be read off the code.

* `Route` — the quad at a place leads on from the walk that stands there;
* `Laid.routed` — there are such walks for all places of the code of a statement;
* `ProgramLaid.covered` — the same for a program, with the stretches of its functions;
* `Compiled.structured` — the jumps of an accepted program are structured and completed.

Design notes: the walks of parts are put together at places where nothing is due, so all that
has to be known about a part is that the walk is idle at both of its ends.
-/
import QuadLang.Proofs.Compiled
import QuadLang.Proofs.Layout

namespace QuadLang

open Phrase

variable {P : Phrase} {g i k t : Nat} {q : Quad} {rs : List Routine} {xs : List Stretch}
/-- The quad at `i` leads on: a jump to places that are goals, any other quad to the next place.
`T` gives the walks that stand at the places. -/
inductive Route (kinds : Kinds) (returns : Bool) (Q : Array Quad) (T : Nat → Walk)
    (goal : Nat → Prop) (i : Nat) : Prop
  | goTo {t : Nat} (jump : Jump Q i "GoTo" t) (here : T i = .idle) (next : T (i + 1) = .idle) (there : goal t)
  | goToF {u : Due} {t : Nat} (jump : Jump Q i "GoToF" t) (hu : u ≠ .product)
      (here : T i = ⟨u, [], false⟩) (next : T (i + 1) = .idle) (there : goal t)
  | step {q : Quad} (quad : Q[i]? = some q) (next : (T i).next kinds returns q = some (T (i + 1)))

/-- A jump may lead to an idle place from `s` to `e`, or to the exit. -/
def Goal (T : Nat → Walk) (exit : Option Nat) (s e t : Nat) : Prop :=
  (s ≤ t ∧ t ≤ e ∧ T t = .idle) ∨ exit = some t

/-- The code from `s` to before `e` leads on at every place, and ends with `u` due. -/
structure Routed (kinds : Kinds) (returns : Bool) (Q : Array Quad) (exit : Option Nat)
    (T : Nat → Walk) (u : Due) (s e : Nat) : Prop where
  le : s ≤ e
  first : T s = .idle
  last : T e = ⟨u, [], false⟩
  route : ∀ i, s ≤ i → i < e → Route kinds returns Q T (Goal T exit s e) i

variable {kinds : Kinds} {returns : Bool} {Q : Array Quad} {exit exit' : Option Nat}
  {T T' : Nat → Walk} {u v : Due} {s m e : Nat}

theorem Route.mono {goal goal' : Nat → Prop} (h : Route kinds returns Q T goal i) (hi : T' i = T i)
    (hnext : T' (i + 1) = T (i + 1)) (hgoal : ∀ t, goal t → goal' t) :
    Route kinds returns Q T' goal' i := by
  cases h with
  | goTo jump here next there => exact .goTo jump (hi.trans here) (hnext.trans next) (hgoal _ there)
  | goToF jump hu here next there =>
    exact .goToF jump hu (hi.trans here) (hnext.trans next) (hgoal _ there)
  | step quad next => exact .step quad (by rw [hi, hnext, next])

/-- A part of routed code, seen from the whole. -/
theorem Routed.within {s' e' : Nat} (h : Routed kinds returns Q exit' T u s' e') (hs : s ≤ s')
    (he : e' ≤ e) (hT : ∀ j, s' ≤ j → j ≤ e' → T' j = T j)
    (hexit : ∀ t, exit' = some t → Goal T' exit s e t) (hle : s' ≤ i) (hlt : i < e') :
    Route kinds returns Q T' (Goal T' exit s e) i := by
  refine (h.route i hle hlt).mono (hT i hle (by omega)) (hT (i + 1) (by omega) (by omega)) ?_
  rintro t (⟨hst, hte, hidle⟩ | ht)
  · exact .inl ⟨by omega, by omega, (hT t hst hte).trans hidle⟩
  · exact hexit t ht

/-- The walks of one part before `m` and those of another from there on. -/
def glue (m : Nat) (T T' : Nat → Walk) (i : Nat) : Walk := if i < m then T i else T' i

theorem glue_of_lt (h : i < m) : glue m T T' i = T i := if_pos h

theorem glue_of_le (h : m ≤ i) : glue m T T' i = T' i := if_neg (Nat.not_lt_of_le h)

/-- The walks of a part and of the next one agree at the place where they meet. -/
theorem glue_meet (h : T m = T' m) (hi : i ≤ m) : glue m T T' i = T i := by
  rcases Nat.lt_or_eq_of_le hi with hlt | rfl
  · exact glue_of_lt hlt
  · rw [glue_of_le (Nat.le_refl _), h]

/-- One part after the other. -/
theorem Routed.append (h : Routed kinds returns Q exit T .nothing s m)
    (h' : Routed kinds returns Q exit T' u m e) :
    Routed kinds returns Q exit (glue m T T') u s e where
  le := h.le.trans h'.le
  first := by rw [glue_meet (h.last.trans h'.first.symm) h.le, h.first]
  last := by rw [glue_of_le h'.le, h'.last]
  route i hle hlt := by
    have hmeet : T m = T' m := h.last.trans h'.first.symm
    by_cases hi : i < m
    · exact h.within (Nat.le_refl _) h'.le (fun j _ hj => glue_meet hmeet hj) (fun t ht => .inr ht)
        hle hi
    · exact h'.within h.le (Nat.le_refl _) (fun j hj _ => glue_of_le hj) (fun t ht => .inr ht)
        (Nat.le_of_not_lt hi) hlt

theorem slice_append (Q : Array Quad) (hs : s ≤ m) (hm : m ≤ e) :
    slice Q s e = slice Q s m ++ slice Q m e := by
  have hsplit : e - s = (m - s) + (e - m) := by omega
  rw [slice, hsplit, List.take_add, List.drop_drop, Nat.add_sub_cancel' hs]
  rfl

theorem slice_succ (hq : Q[i]? = some q) : slice Q i (i + 1) = [q] := by
  rw [slice, Nat.add_sub_cancel_left, List.take_one, List.head?_drop, Array.getElem?_toList, hq]
  rfl

/-- Code without jumps is routed: at each place stands the walk that has come there. -/
theorem Walked.routed (h : Walked kinds returns Q u s e) (he : e ≤ Q.size) (exit : Option Nat) :
    ∃ T, Routed kinds returns Q exit T u s e := by
  have hprefix : ∀ i, s ≤ i → i ≤ e → ∃ w, Walk.idle.run kinds returns (slice Q s i) = some w := by
    intro i hle hie
    have hrun := h.2
    rw [slice_append Q hle hie, Walk.run_append] at hrun
    obtain ⟨w, hw, -⟩ := Option.bind_eq_some_iff.mp hrun
    exact ⟨w, hw⟩
  refine ⟨fun i => (Walk.idle.run kinds returns (slice Q s i)).getD .idle, h.1, ?_, ?_, ?_⟩
  · rw [slice, Nat.sub_self, List.take_zero]
    rfl
  · rw [h.2]
    rfl
  · intro i hle hlt
    have hq : Q[i]? = some Q[i] := Array.getElem?_eq_getElem (by omega)
    obtain ⟨w, hw⟩ := hprefix i hle (Nat.le_of_lt hlt)
    obtain ⟨w', hw'⟩ := hprefix (i + 1) (by omega) hlt
    refine .step hq ?_
    rw [hw, hw']
    rw [slice_append Q hle (Nat.le_succ i), Walk.run_append, hw, Option.bind_some, slice_succ hq,
      Walk.run_singleton] at hw'
    exact hw'

/-- A condition with its jump, and what comes when it is true, seen from the whole. -/
theorem Routed.test {T₁ T₂ : Nat → Walk} (h : Routed kinds returns Q none T₁ u s g)
    (hu : u ≠ .product) (jump : Jump Q g "GoToF" t)
    (h' : Routed kinds returns Q exit' T₂ .nothing (g + 1) m) (hm : m ≤ e)
    (hT₁ : ∀ j, j ≤ g → T j = T₁ j) (hT₂ : ∀ j, g + 1 ≤ j → j ≤ m → T j = T₂ j)
    (ht : Goal T exit s e t) (hexit : ∀ t, exit' = some t → Goal T exit s e t) (hle : s ≤ i)
    (hlt : i < m) : Route kinds returns Q T (Goal T exit s e) i := by
  have hsg := h.le
  have hgm := h'.le
  rcases Nat.lt_trichotomy i g with hi | rfl | hi
  · exact h.within (Nat.le_refl _) (by omega) (fun j _ => hT₁ j) (fun t ht => by cases ht) hle hi
  · exact .goToF jump hu ((hT₁ i (Nat.le_refl _)).trans h.last)
      ((hT₂ (i + 1) (Nat.le_refl _) hgm).trans h'.first) ht
  · exact h'.within (by omega) hm hT₂ hexit hi hlt

/-- A statement that is left out when a condition is false. -/
theorem Routed.ifThen (h : Routed kinds returns Q none T u s g) (hu : u ≠ .product)
    (skip : Jump Q g "GoToF" e) (h' : Routed kinds returns Q exit T' .nothing (g + 1) e) :
    Routed kinds returns Q exit (glue (g + 1) T T') .nothing s e := by
  have hsg := h.le
  have hge := h'.le
  have hlast : glue (g + 1) T T' e = .idle := (glue_of_le hge).trans h'.last
  refine ⟨by omega, (glue_of_lt (by omega)).trans h.first, hlast, fun i hle hlt => ?_⟩
  exact h.test hu skip h' (Nat.le_refl _) (fun j hj => glue_of_lt (by omega))
    (fun j hj _ => glue_of_le hj) (.inl ⟨by omega, Nat.le_refl _, hlast⟩) (fun t ht => .inr ht) hle hlt

/-- Two statements, one for each outcome of a condition. -/
theorem Routed.ifElse {T'' : Nat → Walk} (h : Routed kinds returns Q none T u s g)
    (hu : u ≠ .product) (skip : Jump Q g "GoToF" (k + 1))
    (h' : Routed kinds returns Q exit T' .nothing (g + 1) k) (leave : Jump Q k "GoTo" e)
    (h'' : Routed kinds returns Q exit T'' .nothing (k + 1) e) :
    Routed kinds returns Q exit (glue (g + 1) T (glue (k + 1) T' T'')) .nothing s e := by
  have hsg := h.le
  have hgk := h'.le
  have hke := h''.le
  have htrue : ∀ j, g + 1 ≤ j → j ≤ k → glue (g + 1) T (glue (k + 1) T' T'') j = T' j := fun j hj hjk =>
    (glue_of_le hj).trans (glue_of_lt (by omega))
  have hfalse : ∀ j, k + 1 ≤ j → glue (g + 1) T (glue (k + 1) T' T'') j = T'' j := fun j hj =>
    (glue_of_le (by omega)).trans (glue_of_le hj)
  have hlast := (hfalse e hke).trans h''.last
  refine ⟨by omega, (glue_of_lt (by omega)).trans h.first, hlast, fun i hle hlt => ?_⟩
  rcases Nat.lt_trichotomy i k with hi | rfl | hi
  · exact h.test hu skip h' (by omega) (fun j hj => glue_of_lt (by omega)) htrue
      (.inl ⟨by omega, hke, (hfalse _ (Nat.le_refl _)).trans h''.first⟩) (fun t ht => .inr ht) hle hi
  · exact .goTo leave ((htrue i hgk (Nat.le_refl _)).trans h'.last)
      ((hfalse _ (Nat.le_refl _)).trans h''.first) (.inl ⟨by omega, Nat.le_refl _, hlast⟩)
  · exact h''.within (by omega) (Nat.le_refl _) (fun j hj _ => hfalse j hj) (fun t ht => .inr ht) hi hlt

/-- A loop: its exit is the place after it, whatever the exit around it is. -/
theorem Routed.loop (h : Routed kinds returns Q none T u s g) (hu : u ≠ .product)
    (done : Jump Q g "GoToF" (k + 1))
    (h' : Routed kinds returns Q (some (k + 1)) T' .nothing (g + 1) k) (again : Jump Q k "GoTo" s) :
    Routed kinds returns Q exit (glue (g + 1) T (glue (k + 1) T' fun _ => .idle)) .nothing s (k + 1) := by
  have hsg := h.le
  have hgk := h'.le
  have hbody : ∀ j, g + 1 ≤ j → j ≤ k →
      glue (g + 1) T (glue (k + 1) T' fun _ => .idle) j = T' j := fun j hj hjk =>
    (glue_of_le hj).trans (glue_of_lt (by omega))
  have hfirst : glue (g + 1) T (glue (k + 1) T' fun _ => .idle) s = .idle :=
    (glue_of_lt (by omega)).trans h.first
  have hlast : glue (g + 1) T (glue (k + 1) T' fun _ => .idle) (k + 1) = .idle :=
    (glue_of_le (by omega)).trans (glue_of_le (Nat.le_refl _))
  refine ⟨by omega, hfirst, hlast, fun i hle hlt => ?_⟩
  rcases Nat.lt_or_eq_of_le (Nat.le_of_lt_succ hlt) with hi | rfl
  · refine h.test hu done h' (Nat.le_succ k) (fun j hj => glue_of_lt (by omega)) hbody
      (.inl ⟨by omega, Nat.le_refl _, hlast⟩) (fun t ht => ?_) hle hi
    cases ht
    exact .inl ⟨by omega, Nat.le_refl _, hlast⟩
  · exact .goTo again ((hbody i hgk (Nat.le_refl _)).trans h'.last) hlast
      (.inl ⟨Nat.le_refl _, by omega, hfirst⟩)

/-- A jump to the exit alone. -/
theorem Routed.leave (jump : Jump Q s "GoTo" t) :
    Routed kinds returns Q (some t) (fun _ => .idle) .nothing s (s + 1) :=
  ⟨Nat.le_succ s, rfl, rfl, fun i hle hlt => by
    obtain rfl : i = s := by omega
    exact .goTo jump rfl rfl (.inr rfl)⟩

/-- The code of a statement is routed. -/
theorem Laid.routed (h : Laid Q (Walked kinds returns Q) exit P s e) (he : e ≤ Q.size) :
    ∃ T, Routed kinds returns Q exit T .nothing s e := by
  induction h with
  | plain hs code => exact code.routed he _
  | pass hs hparts code ih => exact ih he
  | sequence hs hparts first rest ihfirst ihrest =>
    obtain ⟨T', hrest⟩ := ihrest he
    obtain ⟨T, hfirst⟩ := ihfirst (hrest.le.trans he)
    exact ⟨_, hfirst.append hrest⟩
  | ifThen hs hparts hu test skip code ih =>
    obtain ⟨T', hcode⟩ := ih he
    have hge := hcode.le
    obtain ⟨T, htest⟩ := test.routed (by omega) none
    exact ⟨_, htest.ifThen hu skip hcode⟩
  | ifElse hs hparts hparts' hu test skip code leave other ih ihother =>
    obtain ⟨T'', hother⟩ := ihother he
    have hke := hother.le
    obtain ⟨T', hcode⟩ := ih (by omega)
    have hgk := hcode.le
    obtain ⟨T, htest⟩ := test.routed (by omega) none
    exact ⟨_, htest.ifElse hu skip hcode leave hother⟩
  | whileLoop hs hparts hu test done code again ih =>
    obtain ⟨T', hcode⟩ := ih (by omega)
    have hgk := hcode.le
    obtain ⟨T, htest⟩ := test.routed (by omega) none
    exact ⟨_, htest.loop hu done hcode again⟩
  | @fromLoop exit _ _ _ _ _ _ _ _ _ s b g l k hs hparts start hu test done code count again ih =>
    have hlk : l ≤ k := count.1
    obtain ⟨T', hcode⟩ := ih (by omega)
    have hgl := hcode.le
    have hbg : b ≤ g := test.1
    obtain ⟨T'', hcount⟩ := count.routed (by omega) (some (k + 1))
    obtain ⟨T, htest⟩ := test.routed (by omega) none
    obtain ⟨T₀, hstart⟩ := start.routed (by omega) exit
    exact ⟨_, hstart.append (htest.loop hu done (hcode.append hcount) again)⟩
  | leave hs jump => exact ⟨_, Routed.leave jump⟩

theorem Routed.congr (h : Routed kinds returns Q exit T u s e)
    (hT : ∀ j, s ≤ j → j ≤ e → T' j = T j) : Routed kinds returns Q exit T' u s e where
  le := h.le
  first := (hT s (Nat.le_refl _) h.le).trans h.first
  last := (hT e h.le (Nat.le_refl _)).trans h.last
  route _ := h.within (Nat.le_refl _) (Nat.le_refl _) hT (fun _ ht => .inr ht)

/-- A walk leads over neither jumps nor ends. -/
theorem Walk.not_control_of_next {w w' : Walk} (h : w.next kinds returns q = some w') :
    Quad.word q ∉ ["GoTo", "GoToF", "EndFunc", "END"] := by
  intro hmem
  have hword : Quad.word q ∉ ["MAT", "=>", "ERA", "PARAM", "GoSub", "RETURN"] := by
    intro hmem'
    revert hmem hmem'
    generalize Quad.word q = word
    simp only [List.mem_cons, List.not_mem_nil, or_false]
    rintro (rfl | rfl | rfl | rfl) <;> decide
  simp only [List.mem_cons, List.not_mem_nil, or_false, not_or] at hword
  simp only [Walk.next, hword, false_and, if_false] at h
  split at h
  · cases h
  · obtain ⟨v, hv, -⟩ := Option.map_eq_some_iff.mp h
    exact not_call_of_next hv (List.mem_of_mem_drop (i := 5) hmem)

/-- The word of a quad that leads on. -/
theorem Route.word {goal : Nat → Prop} (h : Route kinds returns Q T goal i) (hq : Q[i]? = some q) :
    Quad.word q ∉ ["EndFunc", "END"] ∧
      (Quad.word q ∈ ["GoTo", "GoToF"] → ∃ t, Jump Q i (Quad.word q) t ∧ goal t) := by
  cases h with
  | @goTo t jump here next there =>
    obtain ⟨a, hjump⟩ := jump
    obtain rfl := Option.some.inj (hq.symm.trans hjump)
    exact ⟨(by decide : "GoTo" ∉ ["EndFunc", "END"]), fun _ => ⟨t, ⟨a, hjump⟩, there⟩⟩
  | @goToF u t jump hu here next there =>
    obtain ⟨a, hjump⟩ := jump
    obtain rfl := Option.some.inj (hq.symm.trans hjump)
    exact ⟨(by decide : "GoToF" ∉ ["EndFunc", "END"]), fun _ => ⟨t, ⟨a, hjump⟩, there⟩⟩
  | step quad next =>
    obtain rfl := Option.some.inj (hq.symm.trans quad)
    have hword := Walk.not_control_of_next next
    exact ⟨fun hmem => hword (List.mem_cons_of_mem _ (List.mem_cons_of_mem _ hmem)), fun hmem =>
      absurd (List.mem_append_left ["EndFunc", "END"] hmem) hword⟩

/-- A stretch of the code: the code of a function, or with no name that of the main part, and the
quad at its end. -/
structure Stretch where
  name : Option String
  start : Nat
  last : Nat

def Stretch.word (x : Stretch) : String := if x.name = none then "END" else "EndFunc"

def Routine.stretch (r : Routine) : Stretch := ⟨some r.name, r.start, r.last⟩

/-- The stretches of a program. -/
def stretches (rs : List Routine) (s k : Nat) : List Stretch := rs.map Routine.stretch ++ [⟨none, s, k⟩]

/-- The code of a stretch leads on at every place, up to its end. -/
structure Stretch.Routed (kinds : Kinds) (Q : Array Quad) (T : Nat → Walk) (x : Stretch) : Prop where
  code : QuadLang.Routed kinds (kinds.returnsIn x.name) Q none T .nothing x.start x.last
  last : Q[x.last]? = some (endQuad x.word)

/-- Stretches that cover the code from `s` to before `e`. -/
structure Covered (kinds : Kinds) (Q : Array Quad) (T : Nat → Walk) (xs : List Stretch) (s e : Nat) :
    Prop where
  le : s ≤ e
  routed : ∀ x ∈ xs, x.Routed kinds Q T ∧ s ≤ x.start ∧ x.last < e
  cover : ∀ i, s ≤ i → i < e → ∃ x ∈ xs, x.start ≤ i ∧ i ≤ x.last

variable {x : Stretch}

/-- A stretch before others. -/
theorem Covered.cons (h : x.Routed kinds Q T) (h' : Covered kinds Q T' xs (x.last + 1) e) :
    Covered kinds Q (glue (x.last + 1) T T') (x :: xs) x.start e := by
  have hle := h.code.le
  have hle' := h'.le
  refine ⟨by omega, fun y hy => ?_, fun i hi hie => ?_⟩
  · rcases List.mem_cons.mp hy with rfl | hy
    · exact ⟨⟨h.code.congr fun j _ hj => glue_of_lt (by omega), h.last⟩, Nat.le_refl _, by omega⟩
    · obtain ⟨hr, hs, he⟩ := h'.routed y hy
      exact ⟨⟨hr.code.congr fun j hj _ => glue_of_le (by omega), hr.last⟩, by omega, he⟩
  · rcases Nat.lt_or_ge x.last i with hlt | hge
    · obtain ⟨y, hy, hin⟩ := h'.cover i hlt hie
      exact ⟨y, List.mem_cons_of_mem _ hy, hin⟩
    · exact ⟨x, List.mem_cons_self, hi, hge⟩

/-- The code of functions, with what comes after it. -/
theorem FunctionsLaid.covered
    (h : FunctionsLaid Q (fun f => Walked kinds (kinds.returnsIn (Option.some f)) Q) P rs s m)
    (hm : m ≤ Q.size) (h' : Covered kinds Q T' xs m e) :
    ∃ T, Covered kinds Q T (rs.map Routine.stretch ++ xs) s e := by
  induction h with
  | none hs hparts => exact ⟨T', h'⟩
  | some hs hparts code last more ih =>
    obtain ⟨T₂, hmore⟩ := ih hm h'
    obtain ⟨hlt, -⟩ := Array.getElem?_eq_some_iff.mp last
    obtain ⟨T₁, hcode⟩ := code.routed (Nat.le_of_lt hlt)
    exact ⟨_, Covered.cons (x := ⟨Option.some _, _, _⟩) ⟨hcode, last⟩ hmore⟩

/-- The code of a program is covered by its stretches. -/
theorem ProgramLaid.covered
    (h : ProgramLaid Q (fun f => Walked kinds (kinds.returnsIn f) Q) P rs s k) :
    ∃ T, Covered kinds Q T (stretches rs s k) 1 Q.size := by
  cases h with
  | intro hs hparts entry routines code last size =>
    obtain ⟨T₁, hcode⟩ := code.routed (by omega)
    have hmain : Covered kinds Q T₁ [⟨none, s, k⟩] s Q.size := by
      have hle := hcode.le
      refine ⟨by omega, fun x hx => ?_, fun i hi hie => ⟨_, List.mem_singleton_self _, hi, ?_⟩⟩
      · obtain rfl := List.mem_singleton.mp hx
        exact ⟨⟨hcode, last⟩, Nat.le_refl _, by show k < Q.size; omega⟩
      · show i ≤ k
        omega
    exact routines.covered hmain.le hmain

/-- No jump of covered code is left open, and its ends are those of its stretches. -/
theorem Covered.words (h : Covered kinds Q T xs s e) (hi : s ≤ i) (hie : i < e)
    (hq : Q[i]? = some q) :
    (Quad.word q ∈ ["GoTo", "GoToF"] → ∃ t, Jump Q i (Quad.word q) t ∧ s ≤ t ∧ t < e) ∧
      (Quad.word q ∈ ["EndFunc", "END"] → ∃ x ∈ xs, x.last = i ∧ q = endQuad x.word) := by
  obtain ⟨x, hx, hxi, hix⟩ := h.cover i hi hie
  obtain ⟨hrouted, hsx, hxe⟩ := h.routed x hx
  rcases Nat.lt_or_eq_of_le hix with hlt | rfl
  · obtain ⟨hend, hjump⟩ := (hrouted.code.route i hxi hlt).word hq
    refine ⟨fun hword => ?_, fun hword => absurd hword hend⟩
    obtain ⟨t, ht, hgoal⟩ := hjump hword
    obtain ⟨hst, hte, -⟩ : x.start ≤ t ∧ t ≤ x.last ∧ T t = .idle := by
      rcases hgoal with hin | hexit
      · exact hin
      · cases hexit
    exact ⟨t, ht, by omega, by omega⟩
  · obtain rfl := Option.some.inj (hq.symm.trans hrouted.last)
    refine ⟨fun hword => ?_, fun _ => ⟨x, hx, rfl, rfl⟩⟩
    rw [show Quad.word (endQuad x.word) = x.word from rfl, Stretch.word] at hword
    split at hword <;> exact absurd hword (by decide)

theorem mem_stretches : x ∈ stretches rs s k ↔ (∃ r ∈ rs, r.stretch = x) ∨ x = ⟨none, s, k⟩ := by
  rw [stretches, List.mem_append, List.mem_map, List.mem_singleton]

/-- No jump of a program is left open; an `EndFunc` stands at the end of each function and an
`END` at the end of the main part, and nowhere else. -/
theorem ProgramLaid.words (h : ProgramLaid Q (fun f => Walked kinds (kinds.returnsIn f) Q) P rs s k)
    (hq : Q[i]? = some q) :
    (Quad.word q ∈ ["GoTo", "GoToF"] → ∃ t, Jump Q i (Quad.word q) t ∧ 0 < t ∧ t < Q.size) ∧
      (Quad.word q = "EndFunc" ↔ ∃ r ∈ rs, r.last = i) ∧ (Quad.word q = "END" ↔ i = k) := by
  obtain ⟨T, hcovered⟩ := h.covered
  have hroutine : ∀ r ∈ rs, 1 ≤ r.last ∧ Q[r.last]? = some (endQuad "EndFunc") := by
    intro r hr
    obtain ⟨hrouted, hstart, -⟩ := hcovered.routed r.stretch (mem_stretches.mpr (.inl ⟨r, hr, rfl⟩))
    exact ⟨hstart.trans hrouted.code.le, hrouted.last⟩
  obtain ⟨hmain, hs, hk⟩ := hcovered.routed ⟨none, s, k⟩ (mem_stretches.mpr (.inr rfl))
  have hsk := hmain.code.le
  dsimp only at hs hk hsk
  rcases Nat.eq_zero_or_pos i with rfl | hi
  · cases h with
    | intro _ _ entry _ _ _ _ =>
      obtain ⟨a, hjump⟩ := entry
      obtain rfl := Option.some.inj (hq.symm.trans hjump)
      refine ⟨fun _ => ⟨s, ⟨a, hjump⟩, hs, by omega⟩, ⟨fun hword => ?_, ?_⟩, fun hword => ?_, fun hzero => ?_⟩
      · exact absurd (show "GoTo" = "EndFunc" from hword) (by decide)
      · rintro ⟨r, hr, hlast⟩
        exact absurd (hroutine r hr).1 (by omega)
      · exact absurd (show "GoTo" = "END" from hword) (by decide)
      · omega
  · obtain ⟨hlt, -⟩ := Array.getElem?_eq_some_iff.mp hq
    obtain ⟨hjump, hend⟩ := hcovered.words hi hlt hq
    refine ⟨hjump, ⟨fun hword => ?_, ?_⟩, fun hword => ?_, ?_⟩
    · obtain ⟨x, hx, rfl, hqx⟩ := hend (by rw [hword]; decide)
      rcases mem_stretches.mp hx with ⟨r, hr, rfl⟩ | rfl
      · exact ⟨r, hr, rfl⟩
      · rw [hqx] at hword
        exact absurd (show "END" = "EndFunc" from hword) (by decide)
    · rintro ⟨r, hr, rfl⟩
      rw [Option.some.inj (hq.symm.trans (hroutine r hr).2)]
      rfl
    · obtain ⟨x, hx, rfl, hqx⟩ := hend (by rw [hword]; decide)
      rcases mem_stretches.mp hx with ⟨r, hr, rfl⟩ | rfl
      · rw [hqx] at hword
        exact absurd (show "EndFunc" = "END" from hword) (by decide)
      · rfl
    · rintro rfl
      rw [Option.some.inj (hq.symm.trans hmain.last)]
      rfl

/-- The code of every program that is compiled is laid out. -/
theorem Compiled.laid {d : Dialect} {leaves : List (String × Literal)} {c : Compiler}
    (h : Compiled d leaves c) : ∃ P rs s k, Derives d P ∧ P.symbol = "program" ∧
      P.yield.map (fun x => (Spelling.kindOf x.1, x.2)) = leaves ∧
      ProgramLaid c.quads (fun f => Walked c.kinds (c.kinds.returnsIn f) c.quads) P rs s k ∧
      c.kinds.Covers rs := by
  obtain ⟨P, debug, objectName, v, c₁, hP, hs, hsteps, ⟨printed, rfl⟩, hyield⟩ := h.exists_phrase
  obtain ⟨rs, s, k, hlaid, hcovers⟩ := hP.programLaid hs hsteps
  exact ⟨P, rs, s, k, hP, hs, hyield, hlaid, hcovers⟩

end QuadLang
