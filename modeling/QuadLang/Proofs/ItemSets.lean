/-
The automaton of item sets is complete.

Building the automaton follows every symbol of every state, and closing a kernel leaves no
rule out:

* `Lalr.mem_closure_initial` — with an item the closure of a kernel holds the rules of the
  symbol after its dot;
* `Lalr.closure_induction` — and nothing is in it but for such a reason;
* `Lalr.size_le_stateLimit` — different lists of different items are not too many;
* `Lalr.complete_build` — every state is closed and has a move over the symbol after each dot,
  and states with the same kernel are the same.

Design notes: a build that starts without marks never meets an old one, so no rule is kept
out of a closure.  That the bound on the states is never met is a count of kernels: a list of
items is a number whose digits are the places of the items in the list of all items.
-/
import Mathlib.Data.List.Perm.Subperm
import Mathlib.Data.Nat.Digits.Defs
import QuadLang.Proofs.Automaton
import QuadLang.Proofs.Digraph

namespace QuadLang.Lalr

variable {g : Rules} {b : Builder} {i : Item} {items kernel k : List Item} {r s t n : Nat}
  {p : Item → Prop} {states : Array State} {st : State}

theorem Rules.mem_rulesOf :
    r ∈ g.rulesOf s ↔ r < g.rules.size ∧ r ≠ 0 ∧ g.left r = s := by
  simp [rulesOf]

theorem Rules.nodup_rulesOf (g : Rules) (s : Nat) : (g.rulesOf s).Nodup :=
  List.nodup_range.filter _

theorem Item.initial_inj {r' : Nat} (h : Item.initial g r = Item.initial g r') : r = r' :=
  congrArg Item.rule h

/-! ### Closing a kernel -/

/-- The rules that join after an item. -/
def joining (g : Rules) (joined : List Nat) (i : Item) : List Nat :=
  (i.next?.map fun s => (g.rulesOf s).filter fun r => !joined.contains r).getD []

theorem expand_cons (n : Nat) (joined : List Nat) (i : Item) (queue : List Item) :
    expand g (n + 1) joined (i :: queue) = i :: expand g n (joining g joined i ++ joined)
      (queue ++ (joining g joined i).map (Item.initial g)) := by
  rw [expand, joining]
  rcases i.next? with _ | s <;> rfl

theorem mem_joining {joined : List Nat} : r ∈ joining g joined i ↔
    ∃ s, i.next? = some s ∧ r ∈ g.rulesOf s ∧ r ∉ joined := by
  rcases h : i.next? with _ | s
  · simp [joining, h]
  · simp [joining, h]

theorem nodup_joining (g : Rules) (joined : List Nat) (i : Item) : (joining g joined i).Nodup := by
  rcases h : i.next? with _ | s
  · simp [joining, h]
  · simpa [joining, h] using (g.nodup_rulesOf s).filter _

theorem mem_expand_of_mem {joined : List Nat} {queue : List Item} (h : i ∈ queue) :
    i ∈ expand g n joined queue := by
  induction n generalizing joined queue with
  | zero => exact h
  | succ n ih =>
    rcases queue with _ | ⟨j, queue⟩
    · cases h
    · rw [expand_cons]
      rcases List.mem_cons.mp h with rfl | h
      · exact List.mem_cons_self
      · exact List.mem_cons_of_mem _ (ih (List.mem_append_left _ h))

/-- How many rules have not joined. -/
def unjoined (g : Rules) (joined : List Nat) : Nat :=
  (List.range g.rules.size).countP fun r => !joined.contains r

/-- The rules that join are counted once. -/
theorem unjoined_joining (g : Rules) (joined : List Nat) (i : Item) :
    (joining g joined i).length + unjoined g (joining g joined i ++ joined) ≤ unjoined g joined := by
  have hcount : ∀ (p q : Nat → Bool) (l : List Nat), (∀ r ∈ l, p r = true → q r = true) →
      (l.filter p).length + l.countP (fun r => q r && !p r) ≤ l.countP q := by
    intro p q l
    induction l with
    | nil => simp
    | cons r l ih =>
      intro h
      have hl := ih fun r' hr' => h r' (List.mem_cons_of_mem _ hr')
      have hr := h r List.mem_cons_self
      by_cases hp : p r = true
      · simp [hp, hr hp]
        omega
      · by_cases hq : q r = true <;> simp [hp, hq] <;> omega
  rcases hnext : i.next? with _ | s
  · simp [joining, hnext]
  · have h := hcount (fun r => (r != 0 && g.left r == s) && !joined.contains r)
      (fun r => !joined.contains r) (List.range g.rules.size) (by simp)
    have hjoining : joining g joined i = (List.range g.rules.size).filter
        fun r => (r != 0 && g.left r == s) && !joined.contains r := by
      simp only [joining, hnext, Rules.rulesOf, List.filter_filter, Option.map_some, Option.getD_some]
      congr 1
      funext r
      exact Bool.and_comm _ _
    refine Nat.le_trans (Nat.add_le_add (Nat.le_of_eq (by rw [hjoining])) ?_) h
    refine List.countP_mono_left fun r hr hnot => ?_
    have hnot : r ∉ joining g joined i ∧ r ∉ joined := by simpa using hnot
    have hout : ¬((r ≠ 0 ∧ g.left r = s) ∧ r ∉ joined) := by
      rintro ⟨⟨hr0, hleft⟩, hj⟩
      exact hnot.1 (mem_joining.mpr ⟨s, hnext,
        Rules.mem_rulesOf.mpr ⟨List.mem_range.mp hr, hr0, hleft⟩, hj⟩)
    simp only [Bool.and_eq_true, Bool.not_eq_true', Bool.and_eq_false_iff]
    simp_all

/-- With enough steps every rule joins that is asked for. -/
theorem mem_expand_initial {joined : List Nat} {queue : List Item}
    (hn : queue.length + unjoined g joined ≤ n) (hi : i ∈ expand g n joined queue)
    (hs : i.next? = some s) (hr : r ∈ g.rulesOf s) :
    r ∈ joined ∨ Item.initial g r ∈ expand g n joined queue := by
  induction n generalizing joined queue with
  | zero =>
    obtain rfl : queue = [] := List.eq_nil_of_length_eq_zero (by omega)
    cases hi
  | succ n ih =>
    rcases queue with _ | ⟨j, queue⟩
    · cases hi
    rw [expand_cons] at hi ⊢
    have hle := unjoined_joining g joined j
    rw [List.length_cons] at hn
    have hsize : (queue ++ (joining g joined j).map (Item.initial g)).length +
        unjoined g (joining g joined j ++ joined) ≤ n := by
      rw [List.length_append, List.length_map]
      omega
    have hnew : r ∈ joining g joined j → Item.initial g r ∈ expand g n (joining g joined j ++ joined)
        (queue ++ (joining g joined j).map (Item.initial g)) := fun h =>
      mem_expand_of_mem (List.mem_append_right _ (List.mem_map_of_mem h))
    rcases List.mem_cons.mp hi with rfl | hi
    · by_cases hj : r ∈ joined
      · exact .inl hj
      · exact .inr (List.mem_cons_of_mem _ (hnew (mem_joining.mpr ⟨s, hs, hr, hj⟩)))
    · rcases ih hsize hi with hj | hmem
      · rcases List.mem_append.mp hj with hj | hj
        · exact .inr (List.mem_cons_of_mem _ (hnew hj))
        · exact .inl hj
      · exact .inr (List.mem_cons_of_mem _ hmem)

/-- What holds of a queue and is passed on to the rules that join holds of all items. -/
theorem expand_induction
    (hstep : ∀ {i s r}, p i → i.next? = some s → r ∈ g.rulesOf s → p (.initial g r))
    {joined : List Nat} {queue : List Item} (h : ∀ i ∈ queue, p i) :
    ∀ i ∈ expand g n joined queue, p i := by
  induction n generalizing joined queue with
  | zero => exact h
  | succ n ih =>
    intro i hi
    rcases queue with _ | ⟨j, queue⟩
    · cases hi
    rw [expand_cons] at hi
    rcases List.mem_cons.mp hi with rfl | hi
    · exact h i List.mem_cons_self
    · refine ih ?_ i hi
      intro k hk
      rcases List.mem_append.mp hk with hk | hk
      · exact h k (List.mem_cons_of_mem _ hk)
      · obtain ⟨r, hr, rfl⟩ := List.mem_map.mp hk
        obtain ⟨s, hs, hrule, -⟩ := mem_joining.mp hr
        exact hstep (h j List.mem_cons_self) hs hrule

/-- A rule joins only once. -/
theorem nodup_expand {joined : List Nat} {queue : List Item} (h : queue.Nodup)
    (hinit : ∀ r, r ≠ 0 → r ∉ joined → Item.initial g r ∉ queue) :
      (expand g n joined queue).Nodup ∧ ∀ i ∈ expand g n joined queue,
        i ∈ queue ∨ ∃ r, r ≠ 0 ∧ r ∉ joined ∧ i = .initial g r := by
  induction n generalizing joined queue with
  | zero => exact ⟨h, fun i hi => .inl hi⟩
  | succ n ih =>
    rcases queue with _ | ⟨j, queue⟩
    · exact ⟨h, fun i hi => by cases hi⟩
    obtain ⟨hj, hqueue⟩ := List.nodup_cons.mp h
    rw [expand_cons]
    have hjoin : ∀ r ∈ joining g joined j, r ≠ 0 ∧ r ∉ joined := by
      intro r hr
      obtain ⟨s, -, hrule, hnot⟩ := mem_joining.mp hr
      exact ⟨(Rules.mem_rulesOf.mp hrule).2.1, hnot⟩
    have hout : ∀ r, r ≠ 0 → r ∉ joined → Item.initial g r ≠ j ∧ Item.initial g r ∉ queue := by
      intro r hr hr'
      simpa using hinit r hr hr'
    have hnew : ((joining g joined j).map (Item.initial g)).Nodup :=
      (nodup_joining g joined j).map fun _ _ h => Item.initial_inj h
    have hqueue' : (queue ++ (joining g joined j).map (Item.initial g)).Nodup := by
      refine List.nodup_append.mpr ⟨hqueue, hnew, ?_⟩
      rintro a ha b hb rfl
      obtain ⟨r, hr, rfl⟩ := List.mem_map.mp hb
      exact (hout r (hjoin r hr).1 (hjoin r hr).2).2 ha
    have hinit' : ∀ r, r ≠ 0 → r ∉ joining g joined j ++ joined →
        Item.initial g r ∉ queue ++ (joining g joined j).map (Item.initial g) := by
      intro r hr hr' hmem
      have hr' : r ∉ joining g joined j ∧ r ∉ joined := by simpa using hr'
      rcases List.mem_append.mp hmem with hmem | hmem
      · exact (hout r hr hr'.2).2 hmem
      · obtain ⟨r', hr'', heq⟩ := List.mem_map.mp hmem
        exact hr'.1 (Item.initial_inj heq ▸ hr'')
    obtain ⟨hnodup, hmem⟩ := ih hqueue' hinit'
    have hfresh : ∀ r, r ∉ joining g joined j ++ joined → r ∉ joined := by
      intro r hr hr'
      exact hr (List.mem_append_right _ hr')
    refine ⟨List.nodup_cons.mpr ⟨?_, hnodup⟩, ?_⟩
    · intro hj'
      rcases hmem j hj' with hq | ⟨r, hr, hr', heq⟩
      · rcases List.mem_append.mp hq with hq | hq
        · exact hj hq
        · obtain ⟨r, hr, heq⟩ := List.mem_map.mp hq
          exact (hout r (hjoin r hr).1 (hjoin r hr).2).1 heq
      · exact (hout r hr (hfresh r hr')).1 heq.symm
    · intro i hi
      rcases List.mem_cons.mp hi with rfl | hi
      · exact .inl List.mem_cons_self
      rcases hmem i hi with hq | ⟨r, hr, hr', heq⟩
      · rcases List.mem_append.mp hq with hq | hq
        · exact .inl (List.mem_cons_of_mem _ hq)
        · obtain ⟨r, hr, rfl⟩ := List.mem_map.mp hq
          exact .inr ⟨r, (hjoin r hr).1, (hjoin r hr).2, rfl⟩
      · exact .inr ⟨r, hr, hfresh r hr', heq⟩

theorem mem_closure_of_mem (h : i ∈ kernel) :
    i ∈ closure g [] kernel :=
  mem_expand_of_mem h

theorem mem_closure_initial (hi : i ∈ closure g [] kernel) (hs : i.next? = some s)
    (hr : r ∈ g.rulesOf s) :
    Item.initial g r ∈ closure g [] kernel := by
  refine (mem_expand_initial ?_ hi hs hr).resolve_left List.not_mem_nil
  have hle : unjoined g [] ≤ (List.range g.rules.size).length := List.countP_le_length
  rw [List.length_range] at hle
  omega

/-- What holds of a kernel and is passed on to the rules of symbols after dots holds of its
closure. -/
theorem closure_induction (hkernel : ∀ i ∈ kernel, p i)
    (hstep : ∀ {i s r}, i ∈ closure g [] kernel → p i → i.next? = some s → r ∈ g.rulesOf s → p (.initial g r))
    : ∀ i ∈ closure g [] kernel, p i := by
  have h : ∀ i ∈ closure g [] kernel, i ∈ closure g [] kernel ∧ p i :=
    expand_induction (fun hi hs hr => ⟨mem_closure_initial hi.1 hs hr, hstep hi.1 hi.2 hs hr⟩)
      fun i hi => ⟨mem_closure_of_mem hi, hkernel i hi⟩
  exact fun i hi => (h i hi).2

theorem nodup_closure (h : kernel.Nodup) (hinit : ∀ r, r ≠ 0 → Item.initial g r ∉ kernel) :
    (closure g [] kernel).Nodup :=
  (nodup_expand h fun r hr _ => hinit r hr).1

/-! ### States -/

/-- What holds of the states of a build that met no old marks: they are closures of different
kernels. -/
structure Whole (g : Rules) (states : Array State) : Prop where
  items : ∀ (n : Nat) (st : State), states[n]? = some st → st.items = closure g [] st.kernel
  nodup : ∀ (n : Nat) (st : State), states[n]? = some st → st.kernel.Nodup
  inj : ∀ (n m : Nat) (st st' : State), states[n]? = some st → states[m]? = some st' →
    st.kernel = st'.kernel → n = m
  /-- Every state but the first was made by following a symbol. -/
  made : ∀ (n : Nat) (st : State), states[n]? = some st → n ≠ 0 →
    ∃ (m : Nat) (st' : State) (s : Nat), states[m]? = some st' ∧
      st.kernel = st'.items.filterMap (·.advance? s)

theorem Whole.nodup_items (h : Whole g states) (hs : Sound g states) (hst : states[n]? = some st) :
    st.items.Nodup := by
  rw [h.items n st hst]
  refine nodup_closure (h.nodup n st hst) fun r hr hmem => ?_
  have hsound := hs.state n st hst
  by_cases hn : n = 0
  · rw [hsound.first hn] at hmem
    exact hr (Item.initial_inj (List.mem_singleton.mp hmem))
  · exact absurd (hsound.moved hn _ hmem) (Nat.lt_irrefl 0)

/-- The states of `b` have the kernels and items of those of `a`. -/
theorem Whole.of_same {a b : Array State} (h : Whole g a) (hext : Extends a b)
    (hsame : ∀ (n : Nat) (st : State), b[n]? = some st →
      ∃ st' : State, a[n]? = some st' ∧ st'.kernel = st.kernel ∧ st'.items = st.items) :
    Whole g b := by
  refine ⟨?_, ?_, ?_, ?_⟩
  · intro n st hst
    obtain ⟨st', hst', hk, hi⟩ := hsame n st hst
    rw [← hi, ← hk]
    exact h.items n st' hst'
  · intro n st hst
    obtain ⟨st', hst', hk, -⟩ := hsame n st hst
    rw [← hk]
    exact h.nodup n st' hst'
  · intro n m st₁ st₂ h₁ h₂ heq
    obtain ⟨st₁', h₁', hk₁, -⟩ := hsame n st₁ h₁
    obtain ⟨st₂', h₂', hk₂, -⟩ := hsame m st₂ h₂
    exact h.inj n m st₁' st₂' h₁' h₂' (by rw [hk₁, hk₂, heq])
  · intro n st hst hn
    obtain ⟨st', hst', hk, -⟩ := hsame n st hst
    obtain ⟨m, from_, s, hfrom, hkernel⟩ := h.made n st' hst' hn
    obtain ⟨from', hfrom', -, hi⟩ := hext m from_ hfrom
    exact ⟨m, from', s, hfrom', by rw [← hk, hkernel, hi]⟩

theorem nodup_filterMap_advance? (h : items.Nodup) (s : Nat) :
    (items.filterMap (·.advance? s)).Nodup := by
  refine h.filterMap fun i j k hi hj => ?_
  obtain ⟨hir, hiu, hid⟩ := Item.advance?_eq_some (Option.mem_def.mp hi)
  obtain ⟨hjr, hju, hjd⟩ := Item.advance?_eq_some (Option.mem_def.mp hj)
  obtain ⟨ri, di, ti⟩ := i
  obtain ⟨rj, dj, tj⟩ := j
  simp only [Item.mk.injEq]
  exact ⟨hiu.symm.trans hju, by simp only at hid hjd; omega, hir.trans hjr.symm⟩

theorem Item.advance?_of_next? (h : i.next? = some s) :
    ∃ j, i.advance? s = some j := by
  obtain ⟨rule, dot, rest⟩ := i
  rcases rest with _ | ⟨t, rest⟩
  · cases h
  · obtain rfl : t = s := Option.some.inj h
    exact ⟨⟨rule, dot + 1, rest⟩, by simp [advance?]⟩

theorem Item.next?_of_advance? {j : Item} (h : i.advance? s = some j) :
    i.next? = some s := by
  rw [next?, (advance?_eq_some h).1]
  rfl

namespace Builder

/-- The marks of a builder are numbers of its states. -/
def Marked (b : Builder) : Prop := ∀ r, b.marks.getD r 0 ≤ b.states.size

theorem Marked.add (h : b.Marked) (kernel : List Item) : (b.add g kernel).Marked := by
  intro r
  show ((List.range g.rules.size).map _).getD r 0 ≤ (b.states.push _).size
  rw [Array.size_push, List.getD_eq_getElem?_getD, List.getElem?_map]
  rcases hr : (List.range g.rules.size)[r]? with _ | r'
  · simp
  · simp only [Option.map_some, Option.getD_some]
    split
    · exact Nat.le_refl _
    · exact Nat.le_succ_of_le (h r')

/-- A builder without old marks closes a new kernel completely. -/
theorem Marked.items_add (h : b.Marked) (kernel : List Item) :
    (b.add g kernel).states = b.states.push ⟨kernel, closure g [] kernel, []⟩ := by
  have hkept : ((List.range b.marks.length).filter fun r => b.marks.getD r 0 == b.states.size + 1) = [] := by
    rw [List.filter_eq_nil_iff]
    intro r _
    have := h r
    simp only [beq_iff_eq]
    omega
  rw [Builder.add, hkept]

theorem whole_add (hb : Whole g b.states) (hm : b.Marked) (hnodup : kernel.Nodup)
    (hnew : ∀ (n : Nat) (st : State), b.states[n]? = some st → st.kernel ≠ kernel)
    (hmade : b.states.size ≠ 0 → ∃ (m : Nat) (st : State) (s : Nat), b.states[m]? = some st ∧ kernel = st.items.filterMap (·.advance? s)) :
    Whole g (b.add g kernel).states := by
  have hext := extends_add (g := g) b kernel
  rw [hm.items_add] at hext ⊢
  have hcases : ∀ (n : Nat) (st : State),
      (b.states.push ⟨kernel, closure g [] kernel, []⟩)[n]? = some st →
      b.states[n]? = some st ∨ n = b.states.size ∧ st = ⟨kernel, closure g [] kernel, []⟩ := by
    intro n st hst
    rw [Array.getElem?_push] at hst
    by_cases hn : n = b.states.size
    · rw [if_pos hn, Option.some.injEq] at hst
      exact .inr ⟨hn, hst.symm⟩
    · rw [if_neg hn] at hst
      exact .inl hst
  refine ⟨?_, ?_, ?_, ?_⟩
  · intro n st hst
    rcases hcases n st hst with hold | ⟨-, rfl⟩
    · exact hb.items n st hold
    · rfl
  · intro n st hst
    rcases hcases n st hst with hold | ⟨-, rfl⟩
    · exact hb.nodup n st hold
    · exact hnodup
  · intro n m st st' hst hst' heq
    rcases hcases n st hst with hold | ⟨rfl, rfl⟩
    · rcases hcases m st' hst' with hold' | ⟨rfl, rfl⟩
      · exact hb.inj n m st st' hold hold' heq
      · exact absurd heq (hnew n st hold)
    · rcases hcases m st' hst' with hold' | ⟨rfl, -⟩
      · exact absurd heq.symm (hnew m st' hold')
      · rfl
  · intro n st hst hn
    have hfrom : ∃ (m : Nat) (st' : State) (s : Nat), b.states[m]? = some st' ∧
        st.kernel = st'.items.filterMap (·.advance? s) := by
      rcases hcases n st hst with hold | ⟨rfl, rfl⟩
      · exact hb.made n st hold hn
      · exact hmade hn
    obtain ⟨m, st', s, hst', hkernel⟩ := hfrom
    obtain ⟨st'', hst'', -, hi⟩ := hext m st' hst'
    exact ⟨m, st'', s, hst'', by rw [hkernel, hi]⟩

/-- What following symbols from items gives, when the builder began without old marks. -/
structure Reached (g : Rules) (b : Builder × List (Nat × Nat)) : Prop where
  whole : Whole g b.1.states
  marked : b.1.Marked

theorem reached_follow (hitems : items.Nodup) {b : Builder × List (Nat × Nat)} (hb : Reached g b)
    (hfrom : ∃ (m : Nat) (st : State), b.1.states[m]? = some st ∧ st.items = items) (s : Nat) :
    Reached g (follow g items b s) ∧
      (∀ (n : Nat) (st : State), b.1.states[n]? = some st →
        (follow g items b s).1.states[n]? = some st) ∧
      (∀ m ∈ b.2, m ∈ (follow g items b s).2) ∧
      ((∃ i ∈ items, i.next? = some s) → ∃ t, (s, t) ∈ (follow g items b s).2) := by
  by_cases hempty : (items.filterMap (·.advance? s)).isEmpty = true
  · rw [follow, if_pos hempty]
    refine ⟨hb, fun _ _ h => h, fun m hm => hm, ?_⟩
    rintro ⟨i, hi, hs⟩
    obtain ⟨j, hj⟩ := Item.advance?_of_next? hs
    have hmem : j ∈ items.filterMap (·.advance? s) := List.mem_filterMap.mpr ⟨i, hi, hj⟩
    rw [List.isEmpty_iff.mp hempty] at hmem
    cases hmem
  rw [follow, if_neg hempty]
  split
  · next target hfind =>
    exact ⟨⟨hb.whole, hb.marked⟩, fun _ _ h => h, fun m hm => List.mem_append_left _ hm, fun _ => ⟨target, by simp⟩⟩
  · next hfind =>
    refine ⟨⟨whole_add hb.whole hb.marked (nodup_filterMap_advance? hitems s) ?_ ?_, hb.marked.add _⟩,
      ?_, fun m hm => List.mem_append_left _ hm, fun _ => ⟨b.1.states.size, by simp⟩⟩
    · intro n st hst heq
      obtain ⟨hlt, hget⟩ := Array.getElem?_eq_some_iff.mp hst
      have hne := Array.findIdx?_eq_none_iff.mp hfind st (hget ▸ Array.getElem_mem hlt)
      simp [heq] at hne
    · intro _
      obtain ⟨m, st, hst, rfl⟩ := hfrom
      exact ⟨m, st, s, hst, rfl⟩
    · intro n st hst
      have hlt := (Array.getElem?_eq_some_iff.mp hst).1
      show (b.1.add g _).states[n]? = some st
      rw [hb.marked.items_add, Array.getElem?_push_lt hlt, ← Array.getElem?_eq_getElem hlt, hst]

theorem reached_foldl (hitems : items.Nodup) (symbols : List Nat)
    {b : Builder × List (Nat × Nat)} (hb : Reached g b)
    (hfrom : ∃ (m : Nat) (st : State), b.1.states[m]? = some st ∧ st.items = items) :
      Reached g (symbols.foldl (follow g items) b) ∧
      (∀ (n : Nat) (st : State), b.1.states[n]? = some st →
        (symbols.foldl (follow g items) b).1.states[n]? = some st) ∧
      (∀ m ∈ b.2, m ∈ (symbols.foldl (follow g items) b).2) ∧
      ∀ s ∈ symbols, (∃ i ∈ items, i.next? = some s) →
        ∃ t, (s, t) ∈ (symbols.foldl (follow g items) b).2 := by
  induction symbols generalizing b with
  | nil => exact ⟨hb, fun _ _ h => h, fun m hm => hm, fun s hs => by cases hs⟩
  | cons s symbols ih =>
    obtain ⟨h₁, hstates₁, hkeep₁, hmove₁⟩ := reached_follow hitems hb hfrom s
    obtain ⟨m, st, hst, hi⟩ := hfrom
    obtain ⟨h₂, hstates₂, hkeep₂, hmove₂⟩ := ih h₁ ⟨m, st, hstates₁ m st hst, hi⟩
    refine ⟨h₂, fun n st h => hstates₂ n st (hstates₁ n st h), fun m hm => hkeep₂ m (hkeep₁ m hm), ?_⟩
    intro s' hs' hi
    rcases List.mem_cons.mp hs' with rfl | hs'
    · obtain ⟨t, ht⟩ := hmove₁ hi
      exact ⟨t, hkeep₂ _ ht⟩
    · exact hmove₂ s' hs' hi

/-- The symbols of a state are followed, those after dots among them. -/
theorem mem_symbols (hi : i ∈ items) (hfits : i.Fits g) (hs : i.next? = some s) :
    s ∈ symbols g items := by
  refine mem_foldl_addNew.mpr (.inr (List.mem_flatMap.mpr ⟨i, hi, ?_⟩))
  refine List.mem_of_mem_drop (i := i.dot) ?_
  rw [← hfits.rest]
  exact List.mem_of_mem_head? (Option.mem_def.mpr hs)

end Builder

/-! ### The number of states -/

theorem Item.Fits.mem_all (h : i.Fits g) (hsize : 0 < g.rules.size) : i ∈ Item.all g := by
  have hrule : i.rule < g.rules.size := by
    by_cases hr : i.rule = 0
    · rw [hr]
      exact hsize
    · exact h.rule hr
  refine List.mem_flatMap.mpr ⟨i.rule, List.mem_range.mpr hrule, List.mem_map.mpr
    ⟨i.dot, List.mem_range.mpr (Nat.lt_succ_of_le h.le), ?_⟩⟩
  obtain ⟨rule, dot, rest⟩ := i
  exact congrArg (Item.mk rule dot) h.rest.symm

/-- A list of items as a number: the digits are the places of the items. -/
def kernelCode (g : Rules) (kernel : List Item) : Nat :=
  Nat.ofDigits ((Item.all g).length + 1) (kernel.map fun i => (Item.all g).idxOf i + 1)

theorem kernelCode_digit_lt (h : ∀ i ∈ kernel, i ∈ Item.all g) :
    ∀ n ∈ kernel.map fun i => (Item.all g).idxOf i + 1, n < (Item.all g).length + 1 := by
  intro n hn
  obtain ⟨i, hi, rfl⟩ := List.mem_map.mp hn
  exact Nat.succ_lt_succ (List.idxOf_lt_length_of_mem (h i hi))

theorem kernelCode_inj (hall : 0 < (Item.all g).length) {k' : List Item}
    (hk : ∀ i ∈ k, i ∈ Item.all g) (hk' : ∀ i ∈ k', i ∈ Item.all g)
    (h : kernelCode g k = kernelCode g k') : k = k' := by
  have hdigits : ∀ {k : List Item}, (∀ i ∈ k, i ∈ Item.all g) →
      Nat.digits ((Item.all g).length + 1) (kernelCode g k) =
        k.map fun i => (Item.all g).idxOf i + 1 := by
    intro k hk
    refine Nat.digits_ofDigits _ (by omega) _ (kernelCode_digit_lt hk) fun hne => ?_
    obtain ⟨i, -, hi⟩ := List.mem_map.mp (List.getLast_mem hne)
    omega
  have hmap : (k.map fun i => (Item.all g).idxOf i + 1) = k'.map fun i => (Item.all g).idxOf i + 1 := by
    rw [← hdigits hk, ← hdigits hk', h]
  exact map_reflect (fun i hi _ _ hij => (List.idxOf_inj (hk i hi)).mp (Nat.succ.inj hij)) hmap

theorem kernelCode_lt (hall : 0 < (Item.all g).length) (hk : ∀ i ∈ k, i ∈ Item.all g)
    (hnodup : k.Nodup) : kernelCode g k < stateLimit g := by
  have hlen : k.length ≤ (Item.all g).length := (hnodup.subperm fun i hi => hk i hi).length_le
  refine Nat.lt_of_lt_of_le
    (Nat.ofDigits_lt_base_pow_length (by omega) (kernelCode_digit_lt hk)) ?_
  rw [List.length_map]
  exact Nat.pow_le_pow_right (Nat.succ_pos _) hlen

/-- There are at most as many states as there are lists of different items. -/
theorem Whole.size_le (h : Whole g states) (hs : Sound g states) (hsize : 0 < g.rules.size) :
    states.size ≤ stateLimit g := by
  have hall : 0 < (Item.all g).length :=
    List.length_pos_of_mem ((Item.fits_initial fun h => absurd rfl h).mem_all hsize :
      Item.initial g 0 ∈ Item.all g)
  have hfits : ∀ (n : Nat) (st : State), states[n]? = some st → ∀ i ∈ st.kernel, i ∈ Item.all g :=
    fun n st hst i hi => ((hs.state n st hst).fits i hi).mem_all hsize
  have hnodup : (states.toList.map fun st => kernelCode g st.kernel).Nodup := by
    rw [List.nodup_iff_getElem?_ne_getElem?]
    intro n m hnm hm heq
    rw [List.length_map, Array.length_toList] at hm
    have hget : ∀ {k : Nat} (hk : k < states.size),
        (states.toList.map fun st => kernelCode g st.kernel)[k]? =
          some (kernelCode g states[k].kernel) := by
      intro k hk
      simp [hk]
    rw [hget (by omega), hget hm, Option.some.injEq] at heq
    have hn' : states[n]? = some states[n] := Array.getElem?_eq_getElem (by omega)
    have hm' : states[m]? = some states[m] := Array.getElem?_eq_getElem hm
    have := h.inj n m _ _ hn' hm' (kernelCode_inj hall (hfits n _ hn') (hfits m _ hm') heq)
    omega
  have hsub : ∀ c ∈ states.toList.map (fun st => kernelCode g st.kernel), c ∈ List.range (stateLimit g) := by
    intro c hc
    obtain ⟨st, hst, rfl⟩ := List.mem_map.mp hc
    obtain ⟨n, hn⟩ := List.mem_iff_getElem?.mp hst
    have hn : states[n]? = some st := by simpa using hn
    exact List.mem_range.mpr (kernelCode_lt hall (hfits n st hn) (h.nodup n st hn))
  simpa using (hnodup.subperm hsub).length_le

/-! ### The build -/

/-- The states below `i` have a move over the symbol after each dot. -/
def MovesBelow (states : Array State) (i : Nat) : Prop :=
  ∀ (n : Nat) (st : State), n < i → states[n]? = some st → ∀ j ∈ st.items, ∀ s, j.next? = some s →
    ∃ t, (s, t) ∈ st.moves

namespace Builder

theorem movesBelow_grow (hrules : 0 < g.rules.size) {i : Nat} (hsound : Sound g b.states)
    (hb : Reached g (b, [])) (hsize : 0 < b.states.size) (hmoves : MovesBelow b.states i)
    (hn : stateLimit g ≤ i + n) : Whole g (grow g n i b).states ∧
      MovesBelow (grow g n i b).states (grow g n i b).states.size ∧
      0 < (grow g n i b).states.size := by
  induction n generalizing i b with
  | zero =>
    have hle : b.states.size ≤ stateLimit g := hb.whole.size_le hsound hrules
    rw [grow]
    exact ⟨hb.whole, fun n st hn' => hmoves n st (Nat.lt_of_lt_of_le hn' (by omega)), hsize⟩
  | succ n ih =>
    rw [grow]
    rcases hstate : b.states[i]? with _ | state
    · have hle : b.states.size ≤ i := Array.getElem?_eq_none_iff.mp hstate
      exact ⟨hb.whole, fun n st hn' => hmoves n st (Nat.lt_of_lt_of_le hn' hle), hsize⟩
    have hst := hsound.state i state hstate
    have hnodup := hb.whole.nodup_items hsound hstate
    have hfollows := follows_foldl (fun j hj => hst.fits_items hj) (symbols g state.items)
      (b := (b, [])) hsound (fun m hm => absurd hm List.not_mem_nil) hsize
    obtain ⟨hreached, hstates, -, hmove⟩ := reached_foldl hnodup (symbols g state.items) hb
      ⟨i, state, hstate, rfl⟩
    rcases hfold : (symbols g state.items).foldl (follow g state.items) (b, []) with ⟨b', moves⟩
    rw [hfold] at hfollows hreached hstates hmove
    simp only [hfold]
    obtain ⟨hget, hext, hsound'⟩ := hfollows.set hstate
    obtain ⟨st', hst', hkernel, hitems⟩ := hfollows.extends_ i state hstate
    refine ih hsound' ⟨?_, ?_⟩ (hext.size_pos (hfollows.extends_.size_pos hsize)) ?_ (by omega)
    · refine hreached.whole.of_same hext fun n st hn' => ?_
      rcases hget n st hn' with ⟨-, hold⟩ | ⟨rfl, rfl⟩
      · exact ⟨st, hold, rfl, rfl⟩
      · exact ⟨st', hst', hkernel, hitems⟩
    · intro r
      rw [Array.size_setIfInBounds]
      exact hreached.marked r
    · -- the state that was followed has its moves now; those before it have kept theirs
      intro k st hk hst j hj s hs
      rcases hget k st hst with ⟨hne, hold⟩ | ⟨rfl, rfl⟩
      · have hlt := (Array.getElem?_eq_some_iff.mp hstate).1
        have hk' : b.states[k]? = some b.states[k] := Array.getElem?_eq_getElem (by omega)
        obtain rfl : b.states[k] = st := Option.some.inj ((hstates k _ hk').symm.trans hold)
        exact hmoves k _ (by omega) hk' j hj s hs
      · exact hmove s (mem_symbols hj (hsound.fits hstate hj) hs) ⟨j, hj, hs⟩

end Builder

/-- What holds of the automaton of a grammar. -/
structure Complete (g : Rules) (states : Array State) : Prop where
  sound : Sound g states
  whole : Whole g states
  first : ∃ st, states[0]? = some st
  moves : MovesBelow states states.size

theorem complete_build (hrules : 0 < g.rules.size) : Complete g (build g []).states := by
  have hempty : Whole g (#[] : Array State) :=
    ⟨fun n st h => by simp at h, fun n st h => by simp at h, fun n m st st' h => by simp at h,
      fun n st h => by simp at h⟩
  have hmarked : Builder.Marked { states := #[], marks := [] } := fun r => by simp
  have hsound := Builder.sound_start g []
  have hreached : Builder.Reached g
      (Builder.add g { states := #[], marks := [] } [Item.initial g 0], []) :=
    ⟨Builder.whole_add hempty hmarked (List.nodup_singleton _) (fun n st h => by simp at h)
      fun h => absurd rfl h, hmarked.add _⟩
  have hsize : 0 < (Builder.add g { states := #[], marks := [] } [Item.initial g 0]).states.size := by
    simp [Builder.add]
  have hbelow : MovesBelow (Builder.add g { states := #[], marks := [] } [Item.initial g 0]).states 0 :=
    fun n st hn => absurd hn (Nat.not_lt_zero n)
  obtain ⟨hwhole, hmoves, hpos⟩ := Builder.movesBelow_grow hrules hsound hreached hsize hbelow
    (Nat.le_of_eq (Nat.zero_add (stateLimit g)).symm)
  exact ⟨sound_build g [], hwhole, ⟨_, Array.getElem?_eq_getElem hpos⟩, hmoves⟩

namespace Complete

variable {states : Array State} (h : Complete g states) {n : Nat} {st : State}

include h

section

variable (hst : states[n]? = some st)
include hst

theorem mem_items_of_kernel (hi : i ∈ st.kernel) : i ∈ st.items := by
  rw [h.whole.items n st hst]
  exact mem_closure_of_mem hi

/-- With an item a state holds the rules of the symbol after its dot. -/
theorem mem_initial (hi : i ∈ st.items) (hs : i.next? = some s) (hr : r ∈ g.rulesOf s) :
    Item.initial g r ∈ st.items := by
  rw [h.whole.items n st hst] at hi ⊢
  exact mem_closure_initial hi hs hr

/-- What holds of a kernel and is passed on to the rules of symbols after dots holds of the
items of a state. -/
theorem items_induction {p : Item → Prop} (hkernel : ∀ i ∈ st.kernel, p i)
    (hstep : ∀ {i s r}, i ∈ st.items → p i → i.next? = some s → r ∈ g.rulesOf s →
      p (.initial g r)) : ∀ i ∈ st.items, p i := by
  rw [h.whole.items n st hst] at hstep ⊢
  exact closure_induction hkernel hstep

/-- Every symbol after a dot leads to a state, whose kernel has the dots moved over it. -/
theorem exists_move (hi : i ∈ st.items) (hs : i.next? = some s) :
    ∃ t st', (s, t) ∈ st.moves ∧ states[t]? = some st' ∧
      st'.kernel = st.items.filterMap (·.advance? s) := by
  obtain ⟨t, ht⟩ := h.moves n st (Array.getElem?_eq_some_iff.mp hst).1 hst i hi s hs
  obtain ⟨st', hst', hkernel, -⟩ := h.sound.leads n st hst (s, t) ht
  exact ⟨t, st', ht, hst', hkernel⟩

/-- A symbol leads to one state. -/
theorem move_inj {t' : Nat} (ht : (s, t) ∈ st.moves) (ht' : (s, t') ∈ st.moves) : t = t' := by
  obtain ⟨st₁, hst₁, hk₁, -⟩ := h.sound.leads n st hst (s, t) ht
  obtain ⟨st₂, hst₂, hk₂, -⟩ := h.sound.leads n st hst (s, t') ht'
  exact h.whole.inj t t' st₁ st₂ hst₁ hst₂ (hk₁.trans hk₂.symm)

theorem lookup_move (ht : (s, t) ∈ st.moves) : st.moves.lookup s = some t := by
  rcases hlookup : st.moves.lookup s with _ | t'
  · have hne := List.lookup_eq_none_iff.mp hlookup (s, t) ht
    simp at hne
  · rw [h.move_inj hst (mem_of_lookup hlookup) ht]

theorem move?_eq (ht : (s, t) ∈ st.moves) : move? states n s = some t := by
  rw [move?, hst]
  exact h.lookup_move hst ht

end

end Complete

theorem itemsOf_eq (hst : states[n]? = some st) : itemsOf states n = st.items := by
  rw [itemsOf, hst]
  rfl

end QuadLang.Lalr
