/-
The look-aheads of an automaton.

Look-aheads are gathered along three relations between the transitions and the items of an
automaton.  What comes out is exactly what the relations say:

* `Lalr.Rules.nullable_closed`, `Lalr.Rules.nullable_induction` — the nullable symbols are
  the least set that the rules keep closed;
* `Lalr.mem_reads`, `Lalr.mem_includedIn`, `Lalr.mem_lookings` — the relations, in terms of
  the items of states;
* `Lalr.Read`, `Lalr.Follow` — what can come next after a transition, and what can follow it;
* `Lalr.mem_lookaheads` — the look-aheads of an item are what can follow the transitions that
  it looks back to.

Design notes: a walk along "includes" begins with the sets that the walk along "reads" left
behind.  Their cells must not be shared, so no two transitions may lie on a common cycle of
"reads" (`Lalr.ReadsApart`).
-/
import Mathlib.Data.List.Perm.Subperm
import QuadLang.Lalr.Tables
import QuadLang.Proofs.ItemSets

namespace QuadLang.Lalr

variable {g : Rules} {states : Array State} {t u : Transition} {α : Type} {n s a : Nat}

theorem mem_addNew' [BEq α] [LawfulBEq α] {xs : List α} {x a : α} :
    a ∈ addNew xs x ↔ a ∈ xs ∨ a = x :=
  mem_addNew

theorem mem_foldl_addNew' [BEq α] [LawfulBEq α] {a : α} {l acc : List α} :
    a ∈ l.foldl addNew acc ↔ a ∈ acc ∨ a ∈ l :=
  mem_foldl_addNew

/-! ### Nullable symbols -/

namespace Rules

theorem exists_of_mem_rules {r : Rule} (h : r ∈ g.rules.toList.drop 1) :
    ∃ n, n ≠ 0 ∧ n < g.rules.size ∧ g.left n = r.left ∧ g.right n = r.right := by
  obtain ⟨n, hn⟩ := List.mem_iff_getElem?.mp h
  rw [List.getElem?_drop, Array.getElem?_toList] at hn
  refine ⟨1 + n, by omega, (Array.getElem?_eq_some_iff.mp hn).1, ?_, ?_⟩
  · rw [left, hn]
    rfl
  · rw [right, hn]
    rfl

theorem exists_mem_rules (hn : n ≠ 0) (hlt : n < g.rules.size) :
    ∃ r ∈ g.rules.toList.drop 1, r.left = g.left n ∧ r.right = g.right n := by
  have hget := Array.getElem?_eq_getElem hlt
  refine ⟨g.rules[n], List.mem_iff_getElem?.mpr ⟨n - 1, ?_⟩, ?_, ?_⟩
  · rw [List.getElem?_drop, Array.getElem?_toList, show 1 + (n - 1) = n by omega, hget]
  · rw [left, hget]
    rfl
  · rw [right, hget]
    rfl

/-- Add the left side of a rule whose symbols are all nullable. -/
def nullableRule (acc : List Nat) (r : Rule) : List Nat :=
  if r.right.all acc.contains then addNew acc r.left else acc

theorem nullableStep_eq (g : Rules) (l : List Nat) :
    g.nullableStep l = (g.rules.toList.drop 1).foldl nullableRule l := rfl

/-- One round only adds, without repetitions, left sides of rules. -/
theorem foldl_nullableRule (rs : List Rule) {l : List Nat} (h : l.Nodup) :
    (rs.foldl nullableRule l).Nodup ∧ (∃ more, rs.foldl nullableRule l = l ++ more) ∧
      (∀ s ∈ rs.foldl nullableRule l, s ∈ l ∨ ∃ r ∈ rs, r.left = s) ∧
      (rs.foldl nullableRule l = l → ∀ r ∈ rs, (∀ s ∈ r.right, s ∈ l) → r.left ∈ l) := by
  induction rs generalizing l with
  | nil => exact ⟨h, ⟨[], by simp⟩, fun s hs => .inl hs, fun _ r hr => by cases hr⟩
  | cons r rs ih =>
    have hstep : (nullableRule l r).Nodup ∧ (nullableRule l r = l ∨ nullableRule l r = l ++ [r.left]) ∧
        (nullableRule l r = l → (∀ s ∈ r.right, s ∈ l) → r.left ∈ l) := by
      rw [nullableRule]
      by_cases hall : r.right.all l.contains = true
      · rw [if_pos hall, addNew]
        by_cases hmem : r.left ∈ l
        · rw [if_pos (List.contains_iff_mem.mpr hmem)]
          exact ⟨h, .inl rfl, fun _ _ => hmem⟩
        · rw [if_neg (by simpa using hmem)]
          refine ⟨?_, .inr rfl, fun heq => by simp at heq⟩
          rw [List.nodup_append]
          refine ⟨h, List.nodup_singleton _, ?_⟩
          rintro a ha b hb rfl
          exact hmem (List.mem_singleton.mp hb ▸ ha)
      · rw [if_neg hall]
        exact ⟨h, .inl rfl, fun _ hs => absurd (by simpa using hs) hall⟩
    obtain ⟨hnodup, ⟨more, hmore⟩, hmem, hfix⟩ := ih hstep.1
    rw [List.foldl_cons]
    obtain ⟨more', hmore'⟩ : ∃ more', nullableRule l r = l ++ more' := by
      rcases hstep.2.1 with heq | heq
      · exact ⟨[], by simp [heq]⟩
      · exact ⟨_, heq⟩
    refine ⟨hnodup, ⟨more' ++ more, by rw [hmore, hmore', List.append_assoc]⟩, ?_, ?_⟩
    · intro s hs
      rcases hmem s hs with hs | ⟨r', hr', hs⟩
      · rcases hstep.2.1 with heq | heq
        · exact .inl (heq ▸ hs)
        · rw [heq, List.mem_append, List.mem_singleton] at hs
          rcases hs with hs | rfl
          · exact .inl hs
          · exact .inr ⟨r, List.mem_cons_self, rfl⟩
      · exact .inr ⟨r', List.mem_cons_of_mem _ hr', hs⟩
    · intro heq
      rw [hmore, hmore', List.append_assoc] at heq
      have hnil : more' = [] ∧ more = [] := by simpa using heq
      have hr : nullableRule l r = l := by rw [hmore', hnil.1, List.append_nil]
      intro r' hr'
      rcases List.mem_cons.mp hr' with rfl | hr'
      · exact hstep.2.2 hr
      · rw [hr] at hfix hmore
        exact hfix (by rw [hmore, hnil.2, List.append_nil]) r' hr'

/-- What is nullable is a set that the rules keep closed. -/
def NullClosed (g : Rules) (l : List Nat) : Prop :=
  ∀ r ∈ g.rules.toList.drop 1, (∀ s ∈ r.right, s ∈ l) → r.left ∈ l

theorem nullableAfter_closed {n : Nat} {l : List Nat} (h : l.Nodup)
    (hl : ∀ s ∈ l, s ∈ (g.rules.toList.drop 1).map (·.left)) (hn : g.rules.size ≤ n + l.length) :
    g.NullClosed (g.nullableAfter (n + 1) l) := by
  induction n generalizing l with
  | zero =>
    obtain ⟨hnodup, ⟨more, hmore⟩, hmem, hfix⟩ := foldl_nullableRule (g.rules.toList.drop 1) h
    rw [← nullableStep_eq] at hnodup hmore hmem hfix
    -- there is no room for another left side
    have hlen : (g.nullableStep l).length ≤ ((g.rules.toList.drop 1).map (·.left)).length := by
      refine (hnodup.subperm fun s hs => ?_).length_le
      rcases hmem s hs with hs | ⟨r, hr, rfl⟩
      · exact hl s hs
      · exact List.mem_map_of_mem hr
    have hsize : g.rules.toList.length = g.rules.size := Array.length_toList
    rw [hmore, List.length_append, List.length_map, List.length_drop, hsize] at hlen
    have hnil : more = [] := List.eq_nil_of_length_eq_zero (by omega)
    have heq : g.nullableStep l = l := by rw [hmore, hnil, List.append_nil]
    have hafter : g.nullableAfter (0 + 1) l = l := by simp [nullableAfter, heq]
    rw [hafter]
    exact hfix heq
  | succ n ih =>
    obtain ⟨hnodup, ⟨more, hmore⟩, hmem, hfix⟩ := foldl_nullableRule (g.rules.toList.drop 1) h
    rw [← nullableStep_eq] at hnodup hmore hmem hfix
    rw [nullableAfter]
    by_cases hlen : (g.nullableStep l).length = l.length
    · have hnil : more = [] := by
        rw [hmore, List.length_append] at hlen
        exact List.eq_nil_of_length_eq_zero (by omega)
      simp only [hlen, beq_self_eq_true, if_true]
      exact hfix (by rw [hmore, hnil, List.append_nil])
    · simp only [beq_false_of_ne hlen, Bool.false_eq_true, if_false]
      refine ih hnodup (fun s hs => ?_) ?_
      · rcases hmem s hs with hs | ⟨r, hr, rfl⟩
        · exact hl s hs
        · exact List.mem_map_of_mem hr
      · rw [hmore, List.length_append] at hlen ⊢
        omega

/-- A rule whose symbols are all nullable has a nullable left side. -/
theorem nullable_closed {r : Nat} (hr : r ≠ 0) (hsize : r < g.rules.size)
    (h : ∀ s ∈ g.right r, s ∈ g.nullable) : g.left r ∈ g.nullable := by
  have hclosed : g.NullClosed g.nullable :=
    nullableAfter_closed List.nodup_nil (fun s hs => by cases hs) (by simp)
  obtain ⟨rule, hrule, hleft, hright⟩ := exists_mem_rules hr hsize
  rw [← hleft]
  exact hclosed rule hrule (hright ▸ h)

/-- What the rules keep closed holds of all nullable symbols. -/
theorem nullable_induction {p : Nat → Prop}
    (h : ∀ r, r ≠ 0 → r < g.rules.size → (∀ s ∈ g.right r, p s) → p (g.left r))
    (hs : s ∈ g.nullable) : p s := by
  have hfold : ∀ (rs : List Rule) (l : List Nat), (∀ r ∈ rs, r ∈ g.rules.toList.drop 1) →
      (∀ s ∈ l, p s) → ∀ s ∈ rs.foldl nullableRule l, p s := by
    intro rs
    induction rs with
    | nil => exact fun l _ hl => hl
    | cons r rs ih =>
      intro l hrs hl
      refine ih _ (fun r' hr' => hrs r' (List.mem_cons_of_mem _ hr')) ?_
      intro s hs
      rw [nullableRule] at hs
      split at hs
      · next hall =>
        rcases mem_addNew'.mp hs with hs | rfl
        · exact hl s hs
        · obtain ⟨n, hn, hlt, hleft, hright⟩ := exists_of_mem_rules (hrs r List.mem_cons_self)
          rw [← hleft]
          refine h n hn hlt fun t ht => hl t ?_
          simpa using List.all_eq_true.mp hall t (hright ▸ ht)
      · exact hl s hs
  have hafter : ∀ (n : Nat) (l : List Nat), (∀ s ∈ l, p s) → ∀ s ∈ g.nullableAfter n l, p s := by
    intro n
    induction n with
    | zero => exact fun l hl => hl
    | succ n ih =>
      intro l hl
      rw [nullableAfter]
      by_cases hlen : ((g.nullableStep l).length == l.length) = true
      · simp only [hlen, if_true]
        exact hl
      · simp only [hlen]
        exact ih _ (hfold _ l (fun _ hr => hr) hl)
  exact hafter _ [] (fun _ hs => by cases hs) s hs

end Rules

/-! ### The transitions -/

theorem mem_foldl_addNext {kind : Nat → Bool} {items : List Item} {acc : List Nat} :
    s ∈ items.foldl (addNext kind) acc ↔
      s ∈ acc ∨ ∃ i ∈ items, i.next? = some s ∧ kind s = true := by
  induction items generalizing acc with
  | nil => simp
  | cons i items ih =>
    have hstep : s ∈ addNext kind acc i ↔ s ∈ acc ∨ i.next? = some s ∧ kind s = true := by
      rw [addNext]
      rcases hnext : i.next? with _ | t
      · simp
      · by_cases hkind : kind t = true
        · simp only [hkind, if_true, mem_addNew', Option.some.injEq]
          constructor
          · rintro (h | rfl)
            · exact .inl h
            · exact .inr ⟨rfl, hkind⟩
          · rintro (h | ⟨rfl, -⟩)
            · exact .inl h
            · exact .inr rfl
        · simp only [hkind, Bool.false_eq_true, if_false, Option.some.injEq]
          constructor
          · exact .inl
          · rintro (h | ⟨rfl, h⟩)
            · exact h
            · exact absurd h hkind
    rw [List.foldl_cons, ih, hstep]
    simp [or_assoc]

theorem mem_transitions : t ∈ transitions g states ↔
    ∃ st, states[t.1]? = some st ∧ (∃ i ∈ st.items, i.next? = some t.2) ∧
      g.isNonterminal t.2 = true := by
  obtain ⟨n, s⟩ := t
  simp only [transitions, List.mem_flatMap, List.mem_map, mem_foldl_addNext, List.not_mem_nil, false_or,
    Prod.mk.injEq]
  constructor
  · rintro ⟨⟨st, m⟩, hmem, s', ⟨i, hi, hs, hkind⟩, rfl, rfl⟩
    exact ⟨st, by simpa using List.mem_zipIdx_iff_getElem?.mp hmem, ⟨i, hi, hs⟩, hkind⟩
  · rintro ⟨st, hst, ⟨i, hi, hs⟩, hkind⟩
    exact ⟨(st, n), List.mem_zipIdx_iff_getElem?.mpr (by simpa using hst), s, ⟨i, hi, hs, hkind⟩, rfl, rfl⟩

theorem contains_transitionRows {ts : List Transition} (hts : ∀ t ∈ ts, t.1 < n) (t : Transition) :
    ((transitionRows n ts).getD t.1 []).contains t.2 = true ↔ t ∈ ts := by
  have hfold : ∀ (ts : List Transition) (rows : Array (List Nat)), (∀ t ∈ ts, t.1 < rows.size) →
      (t.2 ∈ (ts.foldl (fun rows t => rows.modify t.1 (t.2 :: ·)) rows).getD t.1 [] ↔
        t.2 ∈ rows.getD t.1 [] ∨ t ∈ ts) := by
    intro ts
    induction ts with
    | nil => simp
    | cons u ts ih =>
      intro rows hsize
      have hu := hsize u List.mem_cons_self
      rw [List.foldl_cons, ih _ (fun t ht => by simpa using hsize t (List.mem_cons_of_mem _ ht))]
      simp only [Array.getD_eq_getD_getElem?, Array.getElem?_modify, List.mem_cons]
      by_cases heq : u.1 = t.1
      · rw [heq] at hu
        simp only [heq, if_true, Array.getElem?_eq_getElem hu, Option.map_some, Option.getD_some,
          List.mem_cons]
        constructor
        · rintro ((h | h) | h)
          · exact .inr (.inl (Prod.ext heq.symm h))
          · exact .inl h
          · exact .inr (.inr h)
        · rintro (h | rfl | h)
          · exact .inl (.inr h)
          · exact .inl (.inl rfl)
          · exact .inr h
      · simp only [heq, if_false]
        constructor
        · rintro (h | h)
          · exact .inl h
          · exact .inr (.inr h)
        · rintro (h | rfl | h)
          · exact .inl h
          · exact absurd rfl heq
          · exact .inr h
  have hempty : t.2 ∉ (Array.replicate n ([] : List Nat)).getD t.1 [] := by
    rw [Array.getD_eq_getD_getElem?, Array.getElem?_replicate]
    split <;> simp
  rw [List.contains_iff_mem, transitionRows, hfold ts _ (by simpa using hts), or_iff_right hempty]

/-! ### The relations -/

/-- Where symbols lead from a state. -/
def runTo (states : Array State) (j : Nat) (symbols : List Nat) : Nat :=
  symbols.foldl (fun j s => (move? states j s).getD 0) j

theorem runTo_append (states : Array State) (j : Nat) (ss ss' : List Nat) :
    runTo states j (ss ++ ss') = runTo states (runTo states j ss) ss' :=
  List.foldl_append

variable {nullable : List Nat} {isTransition : Transition → Bool}

theorem runForward_cons (s : Nat) (rest : List Nat) (j : Nat) :
    runForward g nullable isTransition states (s :: rest) j =
      ((runForward g nullable isTransition states rest ((move? states j s).getD 0)).1,
        (if isTransition (j, s) && rest.all (fun t => !g.isTerminal t && nullable.contains t)
          then [(j, s)] else []) ++
        (runForward g nullable isTransition states rest ((move? states j s).getD 0)).2) := by
  rw [runForward]

theorem runForward_fst (ss : List Nat) (j : Nat) :
    (runForward g nullable isTransition states ss j).1 = runTo states j ss := by
  induction ss generalizing j with
  | nil => rfl
  | cons s ss ih =>
    rw [runForward_cons]
    exact ih _

/-- The transitions on the way after which only nullable symbols remain. -/
theorem mem_runForward {ss : List Nat} {j : Nat} :
    u ∈ (runForward g nullable isTransition states ss j).2 ↔
      ∃ before s after, ss = before ++ s :: after ∧ u = (runTo states j before, s) ∧
        isTransition u = true ∧ ∀ t ∈ after, g.isTerminal t = false ∧ t ∈ nullable := by
  induction ss generalizing j with
  | nil => simp [runForward]
  | cons s ss ih =>
    rw [runForward_cons, List.mem_append, ih]
    constructor
    · rintro (h | ⟨before, s', after, rfl, rfl, htr, hafter⟩)
      · split at h
        · next hcond =>
          obtain rfl := List.mem_singleton.mp h
          rw [Bool.and_eq_true] at hcond
          exact ⟨[], s, ss, rfl, rfl, hcond.1, by simpa using hcond.2⟩
        · cases h
      · exact ⟨s :: before, s', after, rfl, rfl, htr, hafter⟩
    · rintro ⟨before, s', after, heq, rfl, htr, hafter⟩
      rcases before with _ | ⟨b, before⟩
      · rw [List.nil_append, List.cons.injEq] at heq
        obtain ⟨rfl, rfl⟩ := heq
        refine .inl ?_
        rw [if_pos (by rw [Bool.and_eq_true]; exact ⟨htr, by simpa using hafter⟩)]
        exact List.mem_singleton.mpr rfl
      · rw [List.cons_append, List.cons.injEq] at heq
        obtain ⟨rfl, rfl⟩ := heq
        exact .inr ⟨before, s', after, rfl, rfl, htr, hafter⟩

/-- An item of state `j` looks back to a transition: its rule has been gone over from there. -/
def LooksBack (g : Rules) (states : Array State) (t : Transition) (j : Nat) (r : Item) : Prop :=
  ∃ p ∈ itemsOf states t.1, g.left p.rule = t.2 ∧ j = runTo states t.1 p.rest ∧
    r ∈ itemsOf states j ∧ matchesFrom g p r = true

/-- What can follow `t` can follow `u`: a rule of `t` is gone over up to `u`, and what remains
of it is nullable. -/
def Includes (g : Rules) (states : Array State) (u t : Transition) : Prop :=
  u ∈ transitions g states ∧ ∃ p ∈ itemsOf states t.1, g.left p.rule = t.2 ∧
    ∃ before after, p.rest = before ++ u.2 :: after ∧ u.1 = runTo states t.1 before ∧
      ∀ x ∈ after, g.isTerminal x = false ∧ x ∈ g.nullable

theorem isTransition_iff (t : Transition) :
    ((transitionRows states.size (transitions g states)).getD t.1 []).contains t.2 = true ↔
      t ∈ transitions g states := by
  refine contains_transitionRows (fun t ht => ?_) t
  obtain ⟨st, hst, -⟩ := mem_transitions.mp ht
  exact (Array.getElem?_eq_some_iff.mp hst).1

/-- The relations of the transitions of an automaton. -/
theorem mem_lookings {l : Looking} (h : l ∈ lookings g states) :
    l.transition ∈ transitions g states ∧
      (∀ j r, (j, r) ∈ l.back ↔ LooksBack g states l.transition j r) ∧
      ∀ u, u ∈ l.inside ↔ Includes g states u l.transition := by
  obtain ⟨t, ht, rfl⟩ := List.mem_map.mp h
  refine ⟨ht, ?_, ?_⟩
  · intro j r
    simp only [lookback, List.mem_flatMap, List.mem_map, List.mem_filter, beq_iff_eq, LooksBack]
    constructor
    · rintro ⟨x, ⟨p, ⟨hp, hleft⟩, rfl⟩, r', ⟨hr, hmatch⟩, heq⟩
      rw [Prod.mk.injEq] at heq
      obtain ⟨rfl, rfl⟩ := heq
      exact ⟨p, hp, hleft, runForward_fst _ _, hr, hmatch⟩
    · rintro ⟨p, hp, hleft, rfl, hr, hmatch⟩
      refine ⟨_, ⟨p, ⟨hp, hleft⟩, rfl⟩, r, ⟨?_, hmatch⟩, ?_⟩
      · rw [runForward_fst]
        exact hr
      · rw [runForward_fst]
  · intro u
    simp only [lookback, List.mem_flatMap, List.mem_map, List.mem_filter, beq_iff_eq, Includes]
    constructor
    · rintro ⟨x, ⟨p, ⟨hp, hleft⟩, rfl⟩, hu⟩
      obtain ⟨before, s, after, hrest, rfl, htr, hafter⟩ := mem_runForward.mp hu
      exact ⟨(isTransition_iff _).mp htr, p, hp, hleft, before, after, hrest, rfl, hafter⟩
    · rintro ⟨hu, p, hp, hleft, before, after, hrest, hstate, hafter⟩
      refine ⟨_, ⟨p, ⟨hp, hleft⟩, rfl⟩, mem_runForward.mpr
        ⟨before, u.2, after, hrest, Prod.ext hstate rfl, (isTransition_iff u).mpr hu, hafter⟩⟩

theorem exists_looking (h : t ∈ transitions g states) :
    ∃ l ∈ lookings g states, l.transition = t :=
  ⟨_, List.mem_map_of_mem h, rfl⟩

theorem mem_includedIn :
    t ∈ includedIn (inclusions (lookings g states)) u ↔
      t ∈ transitions g states ∧ Includes g states u t := by
  simp only [includedIn, inclusions, List.mem_filterMap, List.mem_flatMap, List.mem_map]
  constructor
  · rintro ⟨e, ⟨l, hl, i, hi, rfl⟩, he⟩
    split at he
    · next heq =>
      obtain rfl := Option.some.inj he
      obtain rfl : i = u := by simpa using heq
      obtain ⟨htr, -, hinside⟩ := mem_lookings hl
      exact ⟨htr, (hinside i).mp hi⟩
    · cases he
  · rintro ⟨ht, hinc⟩
    obtain ⟨l, hl, rfl⟩ := exists_looking ht
    exact ⟨(u, l.transition), ⟨l, hl, u, ((mem_lookings hl).2.2 u).mpr hinc, rfl⟩, by simp⟩

theorem mem_reads : u ∈ reads nullable states t ↔
    move? states t.1 t.2 = some u.1 ∧ u.2 ∈ nullable ∧
      ∃ i ∈ itemsOf states u.1, i.next? = some u.2 := by
  obtain ⟨n, s⟩ := u
  rw [reads]
  rcases hmove : move? states t.1 t.2 with _ | j
  · simp
  · simp only [List.mem_filterMap, Option.some.injEq]
    constructor
    · rintro ⟨i, hi, hsome⟩
      obtain ⟨s', hs', hcond⟩ := Option.bind_eq_some_iff.mp hsome
      split at hcond
      · next hnull =>
        rw [Option.some.injEq, Prod.mk.injEq] at hcond
        obtain ⟨rfl, rfl⟩ := hcond
        exact ⟨rfl, List.contains_iff_mem.mp hnull, i, hi, hs'⟩
      · cases hcond
    · rintro ⟨rfl, hnull, i, hi, hs⟩
      exact ⟨i, hi, by simp [hs, hnull]⟩

theorem mem_directReads : a ∈ directReads g states t ↔
    (∃ i ∈ itemsAfter states t, i.next? = some a ∧ g.isTerminal a = true) ∨
      t = (0, g.start) ∧ a = g.endMark := by
  obtain ⟨n, s⟩ := t
  have hbool : (n == 0 && s == g.start) = true ↔ n = 0 ∧ s = g.start := by simp
  rw [directReads]
  by_cases hcond : n = 0 ∧ s = g.start
  · obtain ⟨rfl, rfl⟩ := hcond
    simp [mem_foldl_addNext]
  · have hcond' : ¬(n == 0 && s == g.start) = true := fun h => hcond (hbool.mp h)
    simp only [hcond', if_false, mem_foldl_addNext, List.not_mem_nil, false_or, Prod.mk.injEq, hcond,
      false_and, or_false, Bool.false_eq_true]

/-! ### The sets -/

section Function

variable {α β : Type} [BEq α] [LawfulBEq α] {nodes : List α} {f : α → List β}

theorem Sets.separate_ofFunction : (Sets.ofFunction nodes f).Separate nodes ∧
    ∀ x ∈ nodes, (Sets.ofFunction nodes f).get x = f x := by
  have hlookup : ∀ {x c}, nodes.zipIdx.lookup x = some c → nodes[c]? = some x := by
    intro x c h
    simpa using List.mem_zipIdx_iff_getElem?.mp (mem_of_lookup h)
  have hsome : ∀ {x}, x ∈ nodes → ∃ c, nodes.zipIdx.lookup x = some c := by
    intro x hx
    rcases h : nodes.zipIdx.lookup x with _ | c
    · obtain ⟨n, hn⟩ := List.mem_iff_getElem?.mp hx
      have hmem : (x, n) ∈ nodes.zipIdx := List.mem_zipIdx_iff_getElem?.mpr hn
      have := List.lookup_eq_none_iff.mp h (x, n) hmem
      simp at this
    · exact ⟨c, rfl⟩
  refine ⟨⟨?_, ?_⟩, ?_⟩
  · intro x hx
    obtain ⟨c, hc⟩ := hsome hx
    refine ⟨c, hc, ?_⟩
    have hlt := (List.getElem?_eq_some_iff.mp (hlookup hc)).1
    simpa [ofFunction] using hlt
  · intro x y c _ _ hx hy
    exact Option.some.inj ((hlookup hx).symm.trans (hlookup hy))
  · intro x hx
    obtain ⟨c, hc⟩ := hsome hx
    rw [Sets.get_of_lookup (c := c) hc]
    simp [ofFunction, hlookup hc]

end Function

/-- What can be read right after a transition, or after nullable symbols. -/
def Read (g : Rules) (states : Array State) (t : Transition) (a : Nat) : Prop :=
  Gathers (reads g.nullable states) (directReads g states) t a

def Follow (g : Rules) (states : Array State) (t : Transition) (a : Nat) : Prop :=
  ∃ u, Reaches (includedIn (inclusions (lookings g states))) t u ∧ Read g states u a

/-- No two transitions lie on a common cycle of "reads". -/
def ReadsApart (g : Rules) (states : Array State) : Prop :=
  ∀ {t u}, Reaches (reads g.nullable states) t u → Reaches (reads g.nullable states) u t → t = u

/-- Nullable symbols are nonterminals. -/
def Rules.NullableNonterminals (g : Rules) : Prop := ∀ s ∈ g.nullable, g.isNonterminal s = true

theorem exists_followSets (hnull : g.NullableNonterminals) (hapart : ReadsApart g states) :
    ∃ sets, followSets g states (lookings g states) = .ok sets ∧
      ∀ t ∈ transitions g states, ∀ a, a ∈ sets.get t ↔ Follow g states t a := by
  have hreads : ∀ t ∈ transitions g states, ∀ u ∈ reads g.nullable states t,
      u ∈ transitions g states := by
    intro t _ u hu
    obtain ⟨-, hnul, i, hi, hs⟩ := mem_reads.mp hu
    obtain ⟨st, hst⟩ : ∃ st, states[u.1]? = some st := by
      rcases hst : states[u.1]? with _ | st
      · rw [itemsOf, hst] at hi
        cases hi
      · exact ⟨st, rfl⟩
    rw [itemsOf_eq hst] at hi
    exact mem_transitions.mpr ⟨st, hst, ⟨i, hi, hs⟩, hnull _ hnul⟩
  have hincludes : ∀ t ∈ transitions g states,
      ∀ u ∈ includedIn (inclusions (lookings g states)) t, u ∈ transitions g states :=
    fun t _ u hu => (mem_includedIn.mp hu).1
  obtain ⟨hsep, hget⟩ :
      (Sets.ofFunction (transitions g states) (directReads g states)).Separate (transitions g states) ∧
      ∀ t ∈ transitions g states, (Sets.ofFunction (transitions g states)
        (directReads g states)).get t = directReads g states t := Sets.separate_ofFunction
  obtain ⟨readSets, met, hdigraph, hread, hcell, hshared⟩ := exists_digraph hreads hsep
  have hsep' : readSets.Separate (transitions g states) :=
    ⟨fun hx => hcell _ hx, fun hx hy hxc hyc =>
      hapart (hshared _ hx _ hy _ hxc hyc) (hshared _ hy _ hx _ hyc hxc)⟩
  obtain ⟨sets, met', hdigraph', hfollow, -, -⟩ := exists_digraph hincludes hsep'
  refine ⟨sets, ?_, ?_⟩
  · rw [followSets, hdigraph]
    show (digraph (transitions g states) (includedIn (inclusions (lookings g states))) readSets >>=
      fun x => pure x.1) = _
    rw [hdigraph']
    rfl
  · intro t ht a
    rw [hfollow t ht]
    have hmem : ∀ {u}, Reaches (includedIn (inclusions (lookings g states))) t u →
        u ∈ transitions g states := by
      intro u hu
      induction hu with
      | refl => exact ht
      | tail _ h ih => exact hincludes _ ih _ h
    have hgathers : ∀ {u}, u ∈ transitions g states → (a ∈ readSets.get u ↔ Read g states u a) := by
      intro u hu
      rw [hread u hu]
      -- along "reads" there are only transitions, and they began with what is read directly
      constructor
      · rintro ⟨v, hv, ha⟩
        refine ⟨v, hv, ?_⟩
        rwa [← hget v ?_]
        clear ha
        induction hv with
        | refl => exact hu
        | tail _ h ih => exact hreads _ ih _ h
      · rintro ⟨v, hv, ha⟩
        refine ⟨v, hv, ?_⟩
        rwa [hget v ?_]
        clear ha
        induction hv with
        | refl => exact hu
        | tail _ h ih => exact hreads _ ih _ h
    constructor
    · rintro ⟨u, hu, ha⟩
      exact ⟨u, hu, (hgathers (hmem hu)).mp ha⟩
    · rintro ⟨u, hu, ha⟩
      exact ⟨u, hu, (hgathers (hmem hu)).mpr ha⟩

/-! ### The look-aheads -/

/-- The look-aheads of an item in a table. -/
def aheadOf (table : Array (List (Item × List Nat))) (j : Nat) (item : Item) : List Nat :=
  ((table.getD j []).lookup item).getD []

theorem mem_lookup_addAhead {fs : List Nat} {item i : Item} {row : List (Item × List Nat)} :
    a ∈ ((addAhead fs item row).lookup i).getD [] ↔
      a ∈ (row.lookup i).getD [] ∨ i = item ∧ a ∈ fs := by
  have hlookup : ∀ row : List (Item × List Nat),
      (row.map fun e => if e.1 == item then (item, fs.foldl addNew e.2) else e).lookup i =
        (row.lookup i).map fun l => if i == item then fs.foldl addNew l else l := by
    intro row
    induction row with
    | nil => rfl
    | cons e row ih =>
      obtain ⟨k, l⟩ := e
      by_cases hk : k = item
      · by_cases hi : i = k
        · subst hk
          simp [hi]
        · subst hk
          simp only [List.map_cons, beq_self_eq_true, if_true, List.lookup_cons, beq_false_of_ne hi, ih]
      · by_cases hi : i = k
        · subst hi
          simp [hk]
        · simp only [List.map_cons, beq_false_of_ne hk, Bool.false_eq_true, if_false, List.lookup_cons,
            beq_false_of_ne hi, ih]
  rw [addAhead]
  by_cases hany : row.any (·.1 == item) = true
  · rw [if_pos hany, hlookup]
    by_cases hi : i = item
    · subst hi
      rcases h : row.lookup i with _ | l
      · -- the item is in the row
        obtain ⟨e, he, hei⟩ := List.any_eq_true.mp hany
        have hne := List.lookup_eq_none_iff.mp h e he
        rw [beq_iff_eq] at hei
        simp [hei] at hne
      · simp [mem_foldl_addNew']
    · simp [hi]
  · rw [if_neg hany, List.lookup_append]
    rcases h : row.lookup i with _ | l
    · by_cases hi : i = item
      · simp [hi]
      · simp [List.lookup_cons, beq_false_of_ne hi, hi]
    · have hi : i ≠ item := by
        rintro rfl
        exact hany (List.any_eq_true.mpr ⟨(i, l), mem_of_lookup h, by simp⟩)
      simp [hi]

theorem mem_aheadOf_addBack (follow : Sets Transition Nat) (l : Looking) {j : Nat} (i : Item) (a : Nat)
    {table : Array (List (Item × List Nat))} (hj : j < table.size) :
    (addBack follow table l).size = table.size ∧
      (a ∈ aheadOf (addBack follow table l) j i ↔
        a ∈ aheadOf table j i ∨ (j, i) ∈ l.back ∧ a ∈ follow.get l.transition) := by
  have hfold : ∀ (back : List (Nat × Item)) (fs : List Nat) (table : Array (List (Item × List Nat))),
      j < table.size →
      (back.foldl (fun table x => table.modify x.1 (addAhead fs x.2)) table).size = table.size ∧
        (a ∈ aheadOf (back.foldl (fun table x => table.modify x.1 (addAhead fs x.2)) table) j i ↔
          a ∈ aheadOf table j i ∨ (j, i) ∈ back ∧ a ∈ fs) := by
    intro back
    induction back with
    | nil => simp
    | cons x back ih =>
      intro fs table hj
      obtain ⟨hsize, hmem⟩ := ih fs (table.modify x.1 (addAhead fs x.2)) (by simpa using hj)
      rw [List.foldl_cons, hsize, hmem]
      refine ⟨Array.size_modify, ?_⟩
      have hstep : a ∈ aheadOf (table.modify x.1 (addAhead fs x.2)) j i ↔
          a ∈ aheadOf table j i ∨ (j, i) = x ∧ a ∈ fs := by
        obtain ⟨k, item⟩ := x
        simp only [aheadOf, Array.getD_eq_getD_getElem?, Array.getElem?_modify,
          Array.getElem?_eq_getElem hj, Prod.mk.injEq]
        by_cases hk : k = j
        · simp only [hk, if_true, Option.map_some, Option.getD_some, mem_lookup_addAhead, true_and]
        · simp [hk, Ne.symm hk]
      rw [hstep, List.mem_cons]
      constructor
      · rintro ((h | ⟨h, ha⟩) | ⟨h, ha⟩)
        · exact .inl h
        · exact .inr ⟨.inl h, ha⟩
        · exact .inr ⟨.inr h, ha⟩
      · rintro (h | ⟨h | h, ha⟩)
        · exact .inl (.inl h)
        · exact .inl (.inr ⟨h, ha⟩)
        · exact .inr ⟨h, ha⟩
  exact hfold l.back _ table hj

theorem mem_lookaheads (hnull : g.NullableNonterminals) (hapart : ReadsApart g states) :
    (lookaheads g states).size = states.size ∧ ∀ {j : Nat}, j < states.size → ∀ {i : Item} {a : Nat},
      a ∈ aheadOf (lookaheads g states) j i ↔
        ∃ t ∈ transitions g states, LooksBack g states t j i ∧ Follow g states t a := by
  obtain ⟨sets, hsets, hfollow⟩ := exists_followSets hnull hapart
  have hlook : lookaheads g states =
      (lookings g states).foldl (addBack sets) (Array.replicate states.size []) := by
    rw [lookaheads, hsets]
  have hsize : ∀ (ls : List Looking) (table : Array (List (Item × List Nat))),
      (ls.foldl (addBack sets) table).size = table.size := by
    intro ls
    induction ls with
    | nil => exact fun _ => rfl
    | cons l ls ih =>
      intro table
      rw [List.foldl_cons, ih, addBack]
      generalize sets.get l.transition = fs
      induction l.back generalizing table with
      | nil => rfl
      | cons x back ih' => rw [List.foldl_cons, ih', Array.size_modify]
  have hfold : ∀ (ls : List Looking) (table : Array (List (Item × List Nat))) {j : Nat},
      j < table.size → ∀ {i : Item} {a : Nat}, a ∈ aheadOf (ls.foldl (addBack sets) table) j i ↔
        a ∈ aheadOf table j i ∨ ∃ l ∈ ls, (j, i) ∈ l.back ∧ a ∈ sets.get l.transition := by
    intro ls
    induction ls with
    | nil => simp
    | cons l ls ih =>
      intro table j hj i a
      obtain ⟨hsize, hmem⟩ := mem_aheadOf_addBack sets l i a hj
      rw [List.foldl_cons, ih _ (hsize ▸ hj), hmem]
      simp [or_assoc]
  refine ⟨by rw [hlook, hsize, Array.size_replicate], ?_⟩
  intro j hj i a
  have hempty : a ∉ aheadOf (Array.replicate states.size []) j i := by
    simp [aheadOf, Array.getD_eq_getD_getElem?, hj]
  rw [hlook, hfold _ _ (by simpa using hj), or_iff_right hempty]
  constructor
  · rintro ⟨l, hl, hback, ha⟩
    obtain ⟨htr, hlooks, -⟩ := mem_lookings hl
    exact ⟨l.transition, htr, (hlooks j i).mp hback, (hfollow _ htr a).mp ha⟩
  · rintro ⟨t, ht, hback, ha⟩
    obtain ⟨l, hl, rfl⟩ := exists_looking ht
    exact ⟨l, hl, ((mem_lookings hl).2.1 j i).mpr hback, (hfollow _ ht a).mpr ha⟩

end QuadLang.Lalr
