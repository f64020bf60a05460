/-
Symbols that may be nothing.

A grammar may derive nothing from many of its symbols, and from some in two ways: the end of
a list (`many → one many | blank`) can be taken for a blank member (`one → blank`) with another
end after it.  What keeps the tables of such a grammar in order:

* `Lalr.Rules.slack`, `Lalr.rank` — how many nullable symbols can come one after the other from
  a state on; moves over nullable symbols lower it, but for those over a member
  (`Lalr.rank_move`);
* `Lalr.Rules.Lists` — a grammar in which blank members are the only ambiguity of this kind;
* `Lalr.Rules.Lists.readsApart` — no two transitions lie on a common cycle of "reads";
* `Lalr.Rules.Lists.action?_after_blank` — where a list can go on and does not, its end wins
  over a blank member.

Design notes: a blank member would be completed on what can begin another member, but there
the list goes on with a shift, so the completed `blank` never gets that far; on everything
else the end of the list is completed, since it is written first.
-/
import QuadLang.Proofs.Beginnings

namespace QuadLang.Lalr

variable {g : Rules} {states : Array State} {i : Item} {m r n s : Nat} {ss ns : List Nat}
  {st' st : State} {t u : Transition}

/-! ### Ranks -/

/-- How many nullable symbols stand at the beginning, where members of a list do not count if
more of it follows. -/
def Rules.slack (g : Rules) (one : Nat) : List Nat → Nat
  | [] => 0
  | s :: rest =>
    if s ∈ g.nullable then if s = one then max 1 (g.slack one rest) else g.slack one rest + 1
    else 0

namespace Rules

variable {one s : Nat} {rest : List Nat}

theorem one_le_slack (hs : s ∈ g.nullable) : 1 ≤ g.slack one (s :: rest) := by
  rw [slack, if_pos hs]
  split
  · exact Nat.le_max_left ..
  · exact Nat.le_add_left ..

theorem slack_rest_le (hs : s ∈ g.nullable) : g.slack one rest ≤ g.slack one (s :: rest) := by
  rw [slack, if_pos hs]
  split
  · exact Nat.le_max_right ..
  · exact Nat.le_add_right ..

theorem slack_rest_lt (hs : s ∈ g.nullable) (hne : s ≠ one) :
    g.slack one rest < g.slack one (s :: rest) := by
  rw [slack, if_pos hs, if_neg hne]
  exact Nat.lt_succ_self _

end Rules

/-- The largest slack of the items of a state. -/
def rank (g : Rules) (one : Nat) (st : State) : Nat :=
  st.items.toFinset.sup fun i => g.slack one i.rest

theorem slack_le_rank {one : Nat} (hi : i ∈ st.items) : g.slack one i.rest ≤ rank g one st :=
  Finset.le_sup (f := fun i : Item => g.slack one i.rest) (List.mem_toFinset.mpr hi)

/-- Rules have no more slack than their symbols. -/
def Rules.SlackFits (g : Rules) (one : Nat) : Prop :=
  ∀ r, r ≠ 0 → r < g.rules.size → g.slack one (g.right r) ≤ if g.left r ∈ g.nullable then 1 else 0

section Rank

variable {one : Nat} (hfits : g.SlackFits one) (hc : Complete g states) {st : State}

include hfits hc

theorem rank_le_of_kernel {n : Nat} (hst : states[n]? = some st) {k : Nat}
    (h : ∀ i ∈ st.kernel, g.slack one i.rest ≤ k) : rank g one st ≤ k := by
  have hall : ∀ i ∈ st.items, g.slack one i.rest ≤ k := by
    refine hc.items_induction hst h fun {i s r} _ ih hs hr => ?_
    obtain ⟨hlt, hr0, hleft⟩ := Rules.mem_rulesOf.mp hr
    obtain ⟨rest, hrest⟩ := List.head?_eq_some_iff.mp hs
    refine (hfits r hr0 hlt).trans ?_
    split
    · next hnull =>
      rw [hleft] at hnull
      rw [hrest] at ih
      exact (Rules.one_le_slack hnull).trans ih
    · exact Nat.zero_le _
  exact Finset.sup_le fun i hi => hall i (List.mem_toFinset.mp hi)

/-- A move over a nullable symbol does not raise the rank, and lowers it unless the symbol is
a member of a list. -/
theorem rank_move {n s t : Nat} (hst : states[n]? = some st) (ht : (s, t) ∈ st.moves)
    (hst' : states[t]? = some st') (hs : s ∈ g.nullable) :
    rank g one st' ≤ rank g one st ∧ (s ≠ one → rank g one st' < rank g one st) := by
  obtain ⟨target, htarget, hkernel, hne⟩ := hc.sound.leads n st hst (s, t) ht
  cases hst'.symm.trans htarget
  have hback : ∀ j ∈ st'.kernel, ∃ i ∈ st.items, i.rest = s :: j.rest := by
    intro j hj
    rw [hkernel] at hj
    obtain ⟨i, hi, hadvance⟩ := List.mem_filterMap.mp hj
    exact ⟨i, hi, (Item.advance?_eq_some hadvance).1⟩
  constructor
  · refine rank_le_of_kernel hfits hc hst' fun j hj => ?_
    obtain ⟨i, hi, hrest⟩ := hback j hj
    have hle : g.slack one i.rest ≤ rank g one st := slack_le_rank hi
    rw [hrest] at hle
    exact (Rules.slack_rest_le hs).trans hle
  · intro hone
    have hpos : ∀ j ∈ st'.kernel, g.slack one j.rest < rank g one st := by
      intro j hj
      obtain ⟨i, hi, hrest⟩ := hback j hj
      have hle : g.slack one i.rest ≤ rank g one st := slack_le_rank hi
      rw [hrest] at hle
      exact (Rules.slack_rest_lt hs hone).trans_le hle
    obtain ⟨j, hj⟩ := List.exists_mem_of_ne_nil _ hne
    have hle : rank g one st' ≤ rank g one st - 1 :=
      rank_le_of_kernel hfits hc hst' fun j hj => Nat.le_sub_one_of_lt (hpos j hj)
    have := hpos j hj
    omega

end Rank

/-! ### Items and look-aheads of short rules -/

theorem Item.Fits.eq_initial (h : i.Fits g) (hdot : i.dot = 0) :
    i = .initial g i.rule := by
  obtain ⟨rule, dot, rest⟩ := i
  have hrest : rest = (g.right rule).drop dot := h.rest
  have hdot : dot = 0 := hdot
  rw [Item.initial, hrest, hdot, List.drop_zero]

/-- Where a rule begins, its symbol stands after a dot. -/
theorem Complete.exists_next (hc : Complete g states) (hst : states[n]? = some st) (hr : r ≠ 0)
    (hi : Item.initial g r ∈ st.items) : ∃ j ∈ st.items, j.next? = some (g.left r) := by
  have hall : ∀ i ∈ st.items, i.dot = 0 → i.rule ≠ 0 → ∃ j ∈ st.items, j.next? = some (g.left i.rule) := by
    refine hc.items_induction hst ?_ ?_
    · intro i hi hdot hrule
      have hstate := hc.sound.state n st hst
      rcases Nat.eq_zero_or_pos n with h0 | h0
      · rw [hstate.first h0, List.mem_singleton] at hi
        rw [hi] at hrule
        exact absurd rfl hrule
      · exact absurd hdot (hstate.moved h0.ne' i hi).ne'
    · intro i s r hi _ hs hr _ _
      obtain ⟨-, -, hleft⟩ := Rules.mem_rulesOf.mp hr
      exact ⟨i, hi, by rw [hs]; exact congrArg some hleft.symm⟩
  exact hall _ hi rfl hr

theorem Path.last_move (h : Path states (n :: ns) (s :: ss)) :
    ∃ m ms st, ns = m :: ms ∧ states[m]? = some st ∧ (s, n) ∈ st.moves ∧
      Path states (m :: ms) ss := by
  cases h with
  | move path hn hs => exact ⟨_, _, _, rfl, hn, hs, path⟩

theorem Path.exists_item (hc : Complete g states) (h : Path states (n :: ns) ss) :
    ∃ st i, states[n]? = some st ∧ i ∈ st.items := by
  cases h with
  | start =>
    obtain ⟨st, hst⟩ := hc.first
    refine ⟨st, .initial g 0, hst, hc.mem_items_of_kernel hst ?_⟩
    rw [(hc.sound.state 0 st hst).first rfl]
    exact List.mem_singleton_self _
  | move _ hm hmove =>
    obtain ⟨st, hst, -, hne⟩ := hc.sound.leads _ _ hm _ hmove
    obtain ⟨i, hi⟩ := List.exists_mem_of_ne_nil _ hne
    exact ⟨st, i, hst, hc.mem_items_of_kernel hst hi⟩

/-- An item with its dot after some symbols was begun as many moves before. -/
theorem Path.initial (hc : Complete g states) : ∀ {ns ss : List Nat}, Path states ns ss →
    ∀ {n : Nat} {rest : List Nat}, ns = n :: rest → ∀ {st : State}, states[n]? = some st →
      ∀ i ∈ st.items, ∃ m st', ns[i.dot]? = some m ∧ states[m]? = some st' ∧
        Item.initial g i.rule ∈ st'.items := by
  intro ns ss h
  induction h with
  | start =>
    intro n rest heq st hst i hi
    obtain ⟨rfl, -⟩ := List.cons.inj heq
    have hfits := hc.sound.fits hst hi
    have hdot := hc.sound.dot_eq_zero hst hi
    exact ⟨0, st, by rw [hdot]; rfl, hst, hfits.eq_initial hdot ▸ hi⟩
  | @move n t s ns ss state path hn hs ih =>
    intro m rest heq st hst i hi
    obtain ⟨rfl, -⟩ := List.cons.inj heq
    obtain ⟨target, htarget, hkernel, -⟩ := hc.sound.leads n state hn (s, t) hs
    cases hst.symm.trans htarget
    rcases (hc.sound.state t st hst).items i hi with hk | ⟨r, hr, hlt, rfl⟩
    · rw [hkernel] at hk
      obtain ⟨j, hj, hadvance⟩ := List.mem_filterMap.mp hk
      obtain ⟨-, hrule, hdot⟩ := Item.advance?_eq_some hadvance
      obtain ⟨k, st', hget, hst', hinit⟩ := ih rfl hn j hj
      rw [hdot, hrule]
      exact ⟨k, st', hget, hst', hinit⟩
    · exact ⟨t, st, rfl, hst, hi⟩

/-- The dot of an item moves on with the state. -/
theorem Complete.advance (hc : Complete g states) (hst : states[n]? = some st) (hi : i ∈ st.items)
    {rest : List Nat} (hrest : i.rest = s :: rest) :
    ∃ t st', (s, t) ∈ st.moves ∧ move? states n s = some t ∧ states[t]? = some st' ∧
      ⟨i.rule, i.dot + 1, rest⟩ ∈ st'.items := by
  have hnext : i.next? = some s := by rw [Item.next?, hrest]; rfl
  obtain ⟨t, st', hmem, hst', hkernel⟩ := hc.exists_move hst hi hnext
  refine ⟨t, st', hmem, hc.move?_eq hst hmem, hst', hc.mem_items_of_kernel hst' ?_⟩
  rw [hkernel]
  refine List.mem_filterMap.mpr ⟨i, hi, ?_⟩
  rw [Item.advance?, hrest]
  simp

theorem matchesFrom_initial (hi : i.Fits g) :
    matchesFrom g (.initial g i.rule) i = true := by
  have htake : ((g.right i.rule).take i.dot ++ g.dot :: (g.right i.rule).drop i.dot).take i.dot =
      (g.right i.rule).take i.dot :=
    List.take_left' (by rw [List.length_take, Nat.min_eq_left hi.le])
  simp [matchesFrom, Item.dotted, Item.initial, htake]

/-- What follows the symbol of a rule where the rule begins is a look-ahead of the rule where
it is complete. -/
theorem mem_aheadOf_of_follow (hg : g.Regular) (hc : Complete g states)
    (hapart : ReadsApart g states) (hst : states[n]? = some st) (hr : r ≠ 0)
    (hi : Item.initial g r ∈ st.items) {a : Nat} (ha : Follow g states (n, g.left r) a)
    (hm : runTo states n (g.right r) = m) (hst' : states[m]? = some st') (hi' : i ∈ st'.items)
    (hrule : i.rule = r) : a ∈ aheadOf (lookaheads g states) m i := by
  subst hrule
  have hlt := (hc.sound.fits hst hi).rule hr
  have hsize : m < states.size := (Array.getElem?_eq_some_iff.mp hst').1
  refine ((mem_lookaheads hg.nullableNonterminals hapart).2 hsize).mpr
    ⟨(n, g.left i.rule), mem_transitions.mpr ⟨st, hst, hc.exists_next hst hr hi, hg.left _ hr hlt⟩,
      ⟨.initial g i.rule, ?_, rfl, hm.symm, ?_, ?_⟩, ha⟩
  · rwa [itemsOf_eq hst]
  · rwa [itemsOf_eq hst']
  · exact matchesFrom_initial (hc.sound.fits hst' hi')

/-! ### Lists -/

/-- A grammar with lists `many → one many | blank`, whose members may be blank too. -/
structure Rules.Lists (g : Rules) (blank one many : Nat) (corner : Nat → Prop) : Prop where
  regular : g.Regular
  fits : g.SlackFits one
  /-- `blank` stands alone. -/
  alone : ∀ r, r < g.rules.size → blank ∈ g.right r → g.right r = [blank]
  /-- Members stand in front of a list only. -/
  member : ∀ r, r < g.rules.size → one ∈ g.right r → g.left r = many ∧ g.right r = [one, many]
  unique : ∀ r r', r < g.rules.size → r' < g.rules.size → one ∈ g.right r → one ∈ g.right r' → r = r'
  /-- A list may end. -/
  ending : ∃ r ∈ g.rulesOf many, g.right r = [blank]
  /-- The end of a list is written before the blank member. -/
  order : ∀ r ∈ g.rulesOf many, g.right r = [blank] → ∀ r' ∈ g.rulesOf one, g.right r' = [blank] →
    g.line r < g.line r'
  nothing : ∀ r ∈ g.rulesOf blank, g.right r = []
  apart : one ≠ many ∧ blank ≠ g.dot
  /-- What a list can begin with. -/
  corner_many : corner many
  corner_rule : ∀ r, r ≠ 0 → r < g.rules.size → corner (g.left r) → ∀ s rest, g.right r = s :: rest →
    corner s ∧ (s ∈ g.nullable → s = blank ∨ s = one)
  begun : ∃ a, Begins g [many] a

namespace Rules.Lists

variable {blank one many e : Nat} {corner : Nat → Prop} (h : g.Lists blank one many corner)

include h

theorem member_ne_zero (hr : r < g.rules.size) (hone : one ∈ g.right r) : r ≠ 0 := by
  rintro rfl
  have hright := (h.member 0 hr hone).2
  rw [h.regular.root] at hright
  cases hright

section

variable (hc : Complete g states)
include hc

/-- An item before a member is the beginning of the rule that goes on with a list. -/
theorem item_of_one {n : Nat} {st : State} (hst : states[n]? = some st) (hi : i ∈ st.items)
    (hnext : i.next? = some one) :
    g.left i.rule = many ∧ g.right i.rule = [one, many] ∧ i = .initial g i.rule ∧ i.rule ≠ 0 ∧
      i.rule < g.rules.size := by
  have hfits := hc.sound.fits hst hi
  have hlt := hfits.rule_lt h.regular.size
  obtain ⟨rest, hrest⟩ := List.head?_eq_some_iff.mp hnext
  have hdrop : (g.right i.rule).drop i.dot = one :: rest := hfits.rest.symm.trans hrest
  have hmem : one ∈ g.right i.rule := List.mem_of_mem_drop (hdrop ▸ List.mem_cons_self)
  obtain ⟨hleft, hright⟩ := h.member _ hlt hmem
  have hdot : i.dot = 0 := by
    rw [hright] at hdrop
    rcases hd : i.dot with _ | _ | k
    · rfl
    · rw [hd] at hdrop
      exact absurd (List.cons.inj hdrop).1 h.apart.1.symm
    · rw [hd] at hdrop
      simp at hdrop
  exact ⟨hleft, hright, hfits.eq_initial hdot, h.member_ne_zero hlt hmem, hlt⟩

/-- The state after a member. -/
theorem kernel_after_one {n : Nat} {st : State} (hm : move? states n one = some m)
    (hst : states[m]? = some st) :
    ∃ r, r < g.rules.size ∧ one ∈ g.right r ∧ st.kernel = [⟨r, 1, [many]⟩] := by
  obtain ⟨st₀, st', hst₀, hmem, hst', hkernel⟩ := exists_of_move? hc hm
  cases hst.symm.trans hst'
  have hall : ∀ j ∈ st.kernel, ∃ r, r < g.rules.size ∧ one ∈ g.right r ∧ j = ⟨r, 1, [many]⟩ := by
    intro j hj
    rw [hkernel] at hj
    obtain ⟨i, hi, hadvance⟩ := List.mem_filterMap.mp hj
    obtain ⟨hrest, hrule, hdot⟩ := Item.advance?_eq_some hadvance
    obtain ⟨-, hright, hinit, -, hlt⟩ := h.item_of_one hc hst₀ hi (Item.next?_of_advance? hadvance)
    refine ⟨i.rule, hlt, by rw [hright]; exact List.mem_cons_self, ?_⟩
    obtain ⟨rule, dot, rest⟩ := j
    rw [hinit, Item.initial, hright] at hrest hdot
    have hrule : rule = i.rule := hrule
    have hdot : dot = 1 := hdot
    have hrest : [many] = rest := (List.cons.inj hrest).2
    rw [hrule, hdot, hrest]
  obtain ⟨j, hj⟩ : ∃ j, j ∈ st.kernel := by
    obtain ⟨target, htarget, -, hne⟩ := hc.sound.leads n st₀ hst₀ (one, m) hmem
    cases hst.symm.trans htarget
    exact List.exists_mem_of_ne_nil _ hne
  obtain ⟨r, hr, hone, rfl⟩ := hall j hj
  refine ⟨r, hr, hone, ?_⟩
  by_contra hne
  rcases ((hc.whole.nodup m st hst).ne_singleton_iff _).mp hne with hnil | ⟨k, hk, hkne⟩
  · rw [hnil] at hj
    cases hj
  · obtain ⟨r', hr', hone', rfl⟩ := hall k hk
    rw [h.unique r r' hr hr' hone hone'] at hkne
    exact hkne rfl

/-- The rank along "reads". -/
theorem rank_reads (hu : u ∈ reads g.nullable states t) (ht : t.2 ∈ g.nullable) : ∃ st st' : State,
      states[t.1]? = some st ∧ states[u.1]? = some st' ∧ rank g one st' ≤ rank g one st ∧
        (t.2 ≠ one → rank g one st' < rank g one st) := by
  obtain ⟨hmove, -, -⟩ := mem_reads.mp hu
  obtain ⟨st, st', hst, hmem, hst', -⟩ := exists_of_move? hc hmove
  exact ⟨st, st', hst, hst', rank_move h.fits hc hst hmem hst' ht⟩

theorem rank_reaches (hu : Reaches (reads g.nullable states) t u) (ht : t.2 ∈ g.nullable)
    {st : State} (hst : states[t.1]? = some st) : u.2 ∈ g.nullable ∧
      ∃ st', states[u.1]? = some st' ∧ rank g one st' ≤ rank g one st := by
  induction hu with
  | refl => exact ⟨ht, st, hst, Nat.le_refl _⟩
  | @tail u v _ hv ih =>
    obtain ⟨hu, st₁, hst₁, hle⟩ := ih
    obtain ⟨st₁', st', hst₁', hst', hle', -⟩ := h.rank_reads hc hv hu
    cases hst₁.symm.trans hst₁'
    exact ⟨(mem_reads.mp hv).2.1, st', hst', hle'.trans hle⟩

/-- A cycle of "reads" keeps its rank, so it moves over members of lists. -/
theorem eq_one_of_cycle (ht : t.2 ∈ g.nullable) (hu : u ∈ reads g.nullable states t)
    (hut : Reaches (reads g.nullable states) u t) : t.2 = one := by
  by_contra hne
  obtain ⟨st, st', hst, hst', -, hlt⟩ := h.rank_reads hc hu ht
  obtain ⟨-, st₁, hst₁, hle⟩ := h.rank_reaches hc hut (mem_reads.mp hu).2.1 hst'
  cases hst.symm.trans hst₁
  exact absurd (hlt hne) (Nat.not_lt.mpr hle)

/-- A transition on a cycle of "reads" is over a member, from the state after a member. -/
theorem of_cycle (htu : Reaches (reads g.nullable states) t u)
    (hut : Reaches (reads g.nullable states) u t) (hne : t ≠ u) :
    t.2 = one ∧ ∃ st r, states[t.1]? = some st ∧ r < g.rules.size ∧
      one ∈ g.right r ∧ st.kernel = [⟨r, 1, [many]⟩] := by
  rcases Relation.ReflTransGen.cases_head htu with heq | ⟨v, hv, hvu⟩
  · exact absurd heq hne
  rcases Relation.ReflTransGen.cases_tail hut with heq | ⟨w, huw, hw⟩
  · exact absurd heq hne
  obtain ⟨hmove, hnull, -⟩ := mem_reads.mp hw
  have ht : t.2 = one := h.eq_one_of_cycle hc hnull hv (hvu.trans hut)
  obtain ⟨stw, st, -, -, hst, -⟩ := exists_of_move? hc hmove
  obtain ⟨hwnull, -⟩ := h.rank_reaches hc (htu.trans huw) hnull hst
  have hwone : w.2 = one := h.eq_one_of_cycle hc hwnull hw (htu.trans huw)
  rw [hwone] at hmove
  obtain ⟨r, hr, hone, hkernel⟩ := h.kernel_after_one hc hmove hst
  exact ⟨ht, st, r, hst, hr, hone, hkernel⟩

theorem readsApart : ReadsApart g states := by
  intro t u htu hut
  by_contra hne
  obtain ⟨ht, st, r, hst, hr, hone, hkernel⟩ := h.of_cycle hc htu hut hne
  obtain ⟨hu, st', r', hst', hr', hone', hkernel'⟩ := h.of_cycle hc hut htu (Ne.symm hne)
  rw [h.unique r' r hr' hr hone' hone] at hkernel'
  have hstate := hc.whole.inj t.1 u.1 st st' hst hst' (hkernel.trans hkernel'.symm)
  exact hne (Prod.ext hstate (ht.trans hu.symm))

/-! ### The end of a list -/

/-- What a list can begin with is asked for where a list can begin. -/
theorem asks_of_begins {n : Nat} {st : State} (hst : states[n]? = some st) (hi : i ∈ st.items)
    (hmany : i.next? = some many) {a : Nat} (hb : Begins g ss a) :
    ∀ {s rest}, ss = s :: rest → corner s →
      (∃ j ∈ st.items, j.next? = some s) → (s ∈ g.nullable → rest = [] ∨ rest = [many]) →
      g.isTerminal a = true ∧ ∃ j ∈ st.items, j.next? = some a := by
  induction hb with
  | @here a rest ha =>
    intro s rest heq _ hj _
    obtain ⟨rfl, rfl⟩ := List.cons.inj heq
    exact ⟨ha, hj⟩
  | @inside s r a rest hr hb ih =>
    intro s' rest' heq hs hj _
    obtain ⟨rfl, rfl⟩ := List.cons.inj heq
    obtain ⟨hlt, hr0, rfl⟩ := Rules.mem_rulesOf.mp hr
    obtain ⟨j, hj, hnext⟩ := hj
    have hinit := hc.mem_initial hst hj hnext hr
    rcases hright : g.right r with _ | ⟨x, xs⟩
    · rw [hright] at hb
      cases hb
    obtain ⟨hx, hnull⟩ := h.corner_rule r hr0 hlt hs x xs hright
    refine ih hright hx ⟨_, hinit, by rw [Item.next?, Item.initial, hright]; rfl⟩ fun hx => ?_
    rcases hnull hx with rfl | rfl
    · have halone := h.alone r hlt (hright ▸ List.mem_cons_self)
      rw [hright] at halone
      exact .inl (List.cons.inj halone).2
    · have hmember := (h.member r hlt (hright ▸ List.mem_cons_self)).2
      rw [hright] at hmember
      exact .inr (List.cons.inj hmember).2
  | @later s a rest hs hb ih =>
    intro s' rest' heq _ _ hnull
    obtain ⟨rfl, rfl⟩ := List.cons.inj heq
    rcases hnull hs with rfl | rfl
    · cases hb
    · exact ih rfl h.corner_many ⟨i, hi, hmany⟩ fun _ => .inl rfl

theorem asks_of_begins_many {n : Nat} {st : State} (hst : states[n]? = some st) (hi : i ∈ st.items)
    (hmany : i.next? = some many) {a : Nat} (ha : Begins g [many] a) :
    g.isTerminal a = true ∧ ∃ j ∈ st.items, j.next? = some a :=
  h.asks_of_begins hc hst hi hmany ha rfl h.corner_many ⟨i, hi, hmany⟩ fun _ => .inl rfl

/-- What follows a member begins more of the list, or follows the list. -/
theorem follow_one {n a : Nat} (ht : (n, one) ∈ transitions g states)
    (hf : Follow g states (n, one) a) : Begins g [many] a ∨ Follow g states (n, many) a := by
  obtain ⟨st₀, hst₀, ⟨i, hi, hnext⟩, -⟩ := mem_transitions.mp ht
  obtain ⟨-, hright, -, hrule, hlt⟩ := h.item_of_one hc hst₀ hi hnext
  obtain ⟨u, hu, hread⟩ := hf
  rcases Relation.ReflTransGen.cases_head hu with rfl | ⟨v, hv, hvu⟩
  · refine .inl ?_
    have hwithin : ∀ m st, move? states n one = some m → states[m]? = some st →
        Within g st (Begins g [many]) := by
      intro m st hm hst
      obtain ⟨r, -, -, hkernel⟩ := h.kernel_after_one hc hm hst
      refine .of_kernel hc hst fun j hj b hb => ?_
      rw [hkernel, List.mem_singleton] at hj
      rwa [hj] at hb
    rcases hread.of_within hc hwithin with hb | ⟨heq, -⟩
    · exact hb
    · have hstart : one = g.start := congrArg Prod.snd heq
      exact absurd (by rw [hright, hstart]; exact List.mem_cons_self)
        (h.regular.start i.rule hrule hlt)
  · -- the only rule with a member on its right side goes on with a list
    obtain ⟨hv', -, p, hp, hleft, before, after, hrest, hrun, -⟩ := mem_includedIn.mp hv
    obtain ⟨st, hst, -, -⟩ := mem_transitions.mp hv'
    rw [itemsOf_eq hst] at hp
    have hfits := hc.sound.fits hst hp
    have hmem : one ∈ g.right p.rule := by
      refine List.mem_of_mem_drop (i := p.dot) ?_
      rw [← hfits.rest, hrest]
      exact List.mem_append_right _ List.mem_cons_self
    obtain ⟨hmany, hright'⟩ := h.member _ (hfits.rule_lt h.regular.size) hmem
    have hbefore : before = [] := by
      have hdrop : [one, many].drop p.dot = before ++ one :: after := by
        rw [← hright', ← hfits.rest, hrest]
      have hne := h.apart.1
      rcases before with _ | ⟨x, _ | ⟨y, before⟩⟩
      · rfl
      · rcases hd : p.dot with _ | _ | k <;> rw [hd] at hdrop <;> simp_all
      · have hlength := congrArg List.length hdrop
        simp only [List.length_drop, List.length_append, List.length_cons, List.length_nil] at hlength
        omega
    rw [hbefore] at hrun
    have hvn : v = (n, many) := Prod.ext hrun.symm (hleft.symm.trans hmany)
    exact .inr ⟨u, hvn ▸ hvu, hread⟩

end

/-- An item that looks on from the place of a rule `r → blank` is the beginning of such a rule. -/
theorem right_of_matchesFrom {p : Item} (hp : p.Fits g) (hi : i.Fits g) (hrest : i.rest = [])
    (hright : g.right i.rule = [blank]) (hmatch : matchesFrom g p i = true) :
    g.left i.rule = g.left p.rule ∧ p.rest = [blank] := by
  have hidot : i.dot = 1 := by rw [hi.dot_eq hrest, hright]; rfl
  rw [matchesFrom, Bool.and_eq_true, Bool.and_eq_true, beq_iff_eq, beq_iff_eq, beq_iff_eq, hright,
    hidot, Item.dotted, hright, hidot] at hmatch
  obtain ⟨⟨hleft, hlength⟩, htake⟩ := hmatch
  refine ⟨hleft, ?_⟩
  obtain ⟨x, hx⟩ := List.length_eq_one_iff.mp hlength.symm
  have hle := hp.le
  rw [Item.dotted, hx] at htake
  rw [hp.rest, hx]
  rw [hx] at hle
  rcases hd : p.dot with _ | _ | k
  · rw [hd] at htake
    have hx : [blank] = [x] := htake
    rw [← hx]
    rfl
  · rw [hd] at htake
    exact absurd (List.cons.inj (htake : [blank] = [g.dot])).1 h.apart.2
  · rw [hd] at hle
    exact absurd hle (by simp)

theorem blank_ne_start : blank ≠ g.start := by
  obtain ⟨e, he, hright⟩ := h.ending
  obtain ⟨hlt, he0, -⟩ := Rules.mem_rulesOf.mp he
  rintro rfl
  exact h.regular.start e he0 hlt (hright ▸ List.mem_cons_self)

/-- Nothing is left to read in a rule with `blank` in it. -/
theorem rest_of_blank (hc : Complete g states) {n : Nat} {st : State} (hst : states[n]? = some st)
    (hi : i ∈ st.items) {before after : List Nat} (hrest : i.rest = before ++ blank :: after) :
    i.rule ≠ 0 ∧ i = .initial g i.rule ∧ g.right i.rule = [blank] ∧ before = [] ∧ after = [] := by
  have hfits := hc.sound.fits hst hi
  have hmem : blank ∈ g.right i.rule := by
    refine List.mem_of_mem_drop (i := i.dot) ?_
    rw [← hfits.rest, hrest]
    exact List.mem_append_right _ List.mem_cons_self
  have hright := h.alone _ (hfits.rule_lt h.regular.size) hmem
  have hdrop : [blank].drop i.dot = before ++ blank :: after := by rw [← hright, ← hfits.rest, hrest]
  have hlength := congrArg List.length hdrop
  simp only [List.length_drop, List.length_append, List.length_cons, List.length_nil] at hlength
  have hdot : i.dot = 0 := by omega
  have hbefore : before = [] := List.length_eq_zero_iff.mp (by omega)
  have hafter : after = [] := List.length_eq_zero_iff.mp (by omega)
  refine ⟨?_, ?_, hright, hbefore, hafter⟩
  · intro h0
    rw [h0, h.regular.root] at hright
    exact h.blank_ne_start (List.cons.inj hright).1.symm
  · exact hfits.eq_initial hdot

/-- After `blank` there is nothing to read. -/
theorem items_after_blank (hc : Complete g states) {n : Nat} {st : State}
    (hst : states[n]? = some st) (hm : (blank, m) ∈ st.moves) (hst' : states[m]? = some st') :
    ∀ i ∈ st'.items, i.rest = [] := by
  obtain ⟨target, htarget, hkernel, -⟩ := hc.sound.leads n st hst (blank, m) hm
  cases hst'.symm.trans htarget
  refine hc.items_induction hst' ?_ ?_
  · intro j hj
    rw [hkernel] at hj
    obtain ⟨i, hi, hadvance⟩ := List.mem_filterMap.mp hj
    have hrest : i.rest = [] ++ blank :: j.rest := (Item.advance?_eq_some hadvance).1
    exact (h.rest_of_blank hc hst hi hrest).2.2.2.2
  · intro i s r _ hrest hs _
    rw [Item.next?, hrest] at hs
    cases hs

variable {n a : Nat} {st : State} (hst : (Tables.build g).states[n]? = some st)

include hst

/-- A blank member is completed only before what can begin more of the list. -/
theorem begins_of_reduce_one (hr : r ∈ g.rulesOf one) (hright : g.right r = [blank])
    (hact : (Tables.build g).action? n a = some (.reduce r)) : Begins g [many] a := by
  have hc := Tables.complete_states h.regular
  have hapart : ReadsApart g (Tables.build g).states := h.readsApart hc
  obtain ⟨-, hr0, hleft⟩ := Rules.mem_rulesOf.mp hr
  obtain ⟨⟨i, hi, rfl, hrest, hahead⟩, hfirst, -⟩ :=
    Tables.of_action?_reduce h.regular hapart hst hact
  have hsize : n < (Tables.build g).states.size := (Array.getElem?_eq_some_iff.mp hst).1
  obtain ⟨⟨k, s⟩, ht, ⟨p, hp, hpleft, hrun, -, hmatch⟩, hfollow⟩ :=
    ((mem_lookaheads h.regular.nullableNonterminals hapart).2 hsize).mp hahead
  obtain ⟨stk, hstk, ⟨j, hj, hnext⟩, -⟩ := mem_transitions.mp ht
  rw [itemsOf_eq hstk] at hp
  obtain ⟨hsame, hprest⟩ := h.right_of_matchesFrom (hc.sound.fits hstk hp)
    (hc.sound.fits hst hi) hrest hright hmatch
  obtain rfl : s = one := hpleft.symm.trans (hsame.symm.trans hleft)
  rcases h.follow_one hc ht hfollow with hb | hmany
  · exact hb
  -- where the member is blank the list could end as well
  obtain ⟨hjleft, -, hinit, hj0, -⟩ := h.item_of_one hc hstk hj hnext
  obtain ⟨j', hj', hnext'⟩ := hc.exists_next hstk hj0 (hinit ▸ hj)
  rw [hjleft] at hnext'
  obtain ⟨e, he, heright⟩ := h.ending
  obtain ⟨-, he0, heleft⟩ := Rules.mem_rulesOf.mp he
  have heinit := hc.mem_initial hstk hj' hnext' he
  obtain ⟨m, stm, -, hmove, hstm, hend⟩ := hc.advance hstk heinit heright
  have hm : runTo (Tables.build g).states k [blank] = m := by
    rw [runTo, List.foldl_cons, List.foldl_nil, hmove]
    rfl
  rw [hprest, hm] at hrun
  subst hrun
  cases hst.symm.trans hstm
  have hahead' := mem_aheadOf_of_follow h.regular hc hapart hstk he0 heinit (heleft ▸ hmany)
    (heright ▸ hm) hst hend rfl
  have hle := hfirst _ hend rfl hahead'
  have hlt := h.order e he heright i.rule hr hright
  exact absurd hlt (Int.not_lt.mpr hle)

/-- What makes `blank` complete in a state makes a rule `r → blank` complete after it. -/
theorem action?_of_blank (he : e ∈ g.rulesOf blank)
    (hact : (Tables.build g).action? n a = some (.reduce e)) (hm : (blank, m) ∈ st.moves) :
    ∃ r, (Tables.build g).action? m a = some (.reduce r) := by
  have hc := Tables.complete_states h.regular
  have hapart : ReadsApart g (Tables.build g).states := h.readsApart hc
  obtain ⟨-, -, heleft⟩ := Rules.mem_rulesOf.mp he
  obtain ⟨⟨i, hi, rfl, -, hahead⟩, -, -⟩ := Tables.of_action?_reduce h.regular hapart hst hact
  have hsize : n < (Tables.build g).states.size := (Array.getElem?_eq_some_iff.mp hst).1
  obtain ⟨⟨k, s⟩, ht, ⟨p, hp, hpleft, hrun, -, hmatch⟩, u, hu, hread⟩ :=
    ((mem_lookaheads h.regular.nullableNonterminals hapart).2 hsize).mp hahead
  obtain ⟨stk, hstk, -, -⟩ := mem_transitions.mp ht
  rw [itemsOf_eq hstk] at hp
  -- the rule is over where it begins
  rw [matchesFrom, Bool.and_eq_true, Bool.and_eq_true, beq_iff_eq, beq_iff_eq, h.nothing _ he] at hmatch
  obtain ⟨⟨hleft, hlength⟩, -⟩ := hmatch
  have hprest : p.rest = [] := by
    rw [(hc.sound.fits hstk hp).rest, List.length_eq_zero_iff.mp hlength.symm,
      List.drop_nil]
  rw [hprest] at hrun
  obtain rfl : n = k := hrun
  obtain rfl : s = blank := hpleft.symm.trans (hleft.symm.trans heleft)
  cases hst.symm.trans hstk
  obtain ⟨stm, hstm, -, -⟩ := hc.sound.leads n st hst (s, m) hm
  have hmove : move? (Tables.build g).states n s = some m := hc.move?_eq hst hm
  have hitems := h.items_after_blank hc hst hm hstm
  rcases Relation.ReflTransGen.cases_head hu with rfl | ⟨v, hv, hvu⟩
  · -- nothing can be read right after it
    have hwithin : ∀ m' st', move? (Tables.build g).states n s = some m' →
        (Tables.build g).states[m']? = some st' → Within g st' fun _ => False := by
      intro m' st' hm' hst' j hj b hb
      cases hmove.symm.trans hm'
      cases hstm.symm.trans hst'
      rw [hitems j hj] at hb
      cases hb
    rcases hread.of_within hc hwithin with hfalse | ⟨heq, -⟩
    · exact hfalse.elim
    · exact absurd (congrArg Prod.snd heq) h.blank_ne_start
  · obtain ⟨hv', -, q, hq, hqleft, before, after, hrest, hrun, -⟩ := mem_includedIn.mp hv
    obtain ⟨stv, hstv, -, -⟩ := mem_transitions.mp hv'
    rw [itemsOf_eq hstv] at hq
    obtain ⟨hq0, hinit, hright, rfl, -⟩ := h.rest_of_blank hc hstv hq hrest
    obtain rfl : v = (n, g.left q.rule) := Prod.ext hrun.symm hqleft.symm
    cases hst.symm.trans hstv
    rw [hinit] at hq
    obtain ⟨m', stm', -, hmove', hstm', hend⟩ := hc.advance hst hq hright
    cases hmove.symm.trans hmove'
    cases hstm.symm.trans hstm'
    have hm : runTo (Tables.build g).states n (g.right q.rule) = m := by
      rw [hright, runTo, List.foldl_cons, List.foldl_nil, hmove]
      rfl
    have hahead' := mem_aheadOf_of_follow h.regular hc hapart hst hq0 hq ⟨u, hvu, hread⟩ hm hstm hend rfl
    obtain ⟨j, -, -, -, hact', -⟩ := Tables.action?_reduce h.regular hapart hstm hend rfl hq0 hahead'
      fun j hj hnext => by
        rw [Item.next?, hitems j hj] at hnext
        cases hnext
    exact ⟨j.rule, hact'⟩

/-- Where a list can go on and `blank` is completed instead, no blank member comes of it. -/
theorem action?_after_blank (hi : i ∈ st.items) (hmany : i.next? = some many)
    (he : e ∈ g.rulesOf blank) (hact : (Tables.build g).action? n a = some (.reduce e))
    (hm : (blank, m) ∈ st.moves) (hr : r ∈ g.rulesOf one) (hright : g.right r = [blank]) :
    (Tables.build g).action? m a ≠ some (.reduce r) ∧ (Tables.build g).defaulted? m ≠ some r := by
  have hc := Tables.complete_states h.regular
  have hapart : ReadsApart g (Tables.build g).states := h.readsApart hc
  obtain ⟨stm, hstm, -, -⟩ := hc.sound.leads n st hst (blank, m) hm
  have hne : (Tables.build g).action? m a ≠ some (.reduce r) := by
    intro hreduce
    have hb := h.begins_of_reduce_one hstm hr hright hreduce
    obtain ⟨hterm, j, hj, hnext⟩ := h.asks_of_begins_many hc hst hi hmany hb
    obtain ⟨-, -, hasks⟩ := Tables.of_action?_reduce h.regular hapart hst hact
    rw [hasks j hj hnext] at hterm
    cases hterm
  refine ⟨hne, fun hdefault => ?_⟩
  obtain ⟨r', hact'⟩ := h.action?_of_blank hst he hact hm
  obtain ⟨hsame, -⟩ := Tables.of_defaulted? hdefault hact'
  exact hne (hact'.trans (congrArg some hsame))

/-- Where a list can begin, more than one thing can be done. -/
theorem defaulted?_eq_none (hi : i ∈ st.items) (hmany : i.next? = some many) :
    (Tables.build g).defaulted? n = none := by
  have hc := Tables.complete_states h.regular
  obtain ⟨b, hb⟩ := h.begun
  obtain ⟨hterm, j, hj, hnext⟩ := h.asks_of_begins_many hc hst hi hmany hb
  obtain ⟨t, -, hshift⟩ := Tables.action?_shift h.regular (h.readsApart hc) hst hj hnext hterm
  rcases hdefault : (Tables.build g).defaulted? n with _ | r
  · rfl
  · obtain ⟨heq, -⟩ := Tables.of_defaulted? hdefault hshift
    cases heq

end Rules.Lists

end QuadLang.Lalr
