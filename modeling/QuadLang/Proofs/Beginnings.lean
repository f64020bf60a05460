/-
What can come next.

A terminal can begin what a list of symbols derives, and a terminal can come after a symbol
somewhere in a derivation.  Both are facts of the rules alone; the look-aheads of an automaton
are a finer matter, since they depend on the state.

* `Lalr.Begins` — a terminal begins what a list of symbols derives;
* `Lalr.Trails` — a terminal comes after a symbol in a derivation;
* `Lalr.Within` — what can be read on from a state stays within a set of terminals; it is kept
  by moves over nullable symbols (`Lalr.Within.move`);
* `Lalr.Follow.trails` — what follows a transition in the automaton comes after its symbol;
* `Lalr.Sees`, `Lalr.read_of_sees` — what the automaton sees ahead over nullable symbols it
  reads after the transition.
-/
import QuadLang.Proofs.Decisions

namespace QuadLang.Lalr

variable {g : Rules} {states : Array State} {a n : Nat} {t : Transition}

inductive Begins (g : Rules) : List Nat → Nat → Prop
  | here {a : Nat} {rest : List Nat} (ha : g.isTerminal a = true) : Begins g (a :: rest) a
  | inside {s r a : Nat} {rest : List Nat} (hr : r ∈ g.rulesOf s) (h : Begins g (g.right r) a) :
      Begins g (s :: rest) a
  | later {s a : Nat} {rest : List Nat} (hs : s ∈ g.nullable) (h : Begins g rest a) :
      Begins g (s :: rest) a

inductive Trails (g : Rules) : Nat → Nat → Prop
  | ending : Trails g g.start g.endMark
  | next {r s a : Nat} {before after : List Nat} (hr : r < g.rules.size)
      (hright : g.right r = before ++ s :: after) (h : Begins g after a) : Trails g s a
  | outer {r s a : Nat} {before after : List Nat} (hr : r < g.rules.size) (hr0 : r ≠ 0)
      (hright : g.right r = before ++ s :: after) (hafter : ∀ x ∈ after, x ∈ g.nullable)
      (h : Trails g (g.left r) a) : Trails g s a

theorem Item.Fits.rule_lt {i : Item} (h : i.Fits g) (hsize : 0 < g.rules.size) :
    i.rule < g.rules.size := by
  rcases Nat.eq_zero_or_pos i.rule with h0 | h0
  · rwa [h0]
  · exact h.rule h0.ne'

/-- What begins a rest of an item of the state is in `S`. -/
def Within (g : Rules) (st : State) (S : Nat → Prop) : Prop :=
  ∀ i ∈ st.items, ∀ a, Begins g i.rest a → S a

section Complete

variable (hc : Complete g states) {st : State} {S : Nat → Prop}

include hc

theorem Within.of_kernel (hst : states[n]? = some st)
    (h : ∀ i ∈ st.kernel, ∀ a, Begins g i.rest a → S a) : Within g st S := by
  refine hc.items_induction hst h fun {i s r} _ ih hs hr a ha => ih a ?_
  obtain ⟨rest, hrest⟩ := List.head?_eq_some_iff.mp hs
  rw [hrest]
  exact .inside hr ha

/-- Going on over a symbol that may be nothing. -/
theorem Within.move {t s : Nat} {st' : State} (hst : states[n]? = some st) (ht : (s, t) ∈ st.moves)
    (hst' : states[t]? = some st') (hs : s ∈ g.nullable) (h : Within g st S) : Within g st' S := by
  obtain ⟨target, htarget, hkernel, -⟩ := hc.sound.leads n st hst (s, t) ht
  cases hst'.symm.trans htarget
  refine .of_kernel hc hst' fun j hj a ha => ?_
  rw [hkernel] at hj
  obtain ⟨i, hi, hadvance⟩ := List.mem_filterMap.mp hj
  obtain ⟨hrest, -, -⟩ := Item.advance?_eq_some hadvance
  refine h i hi a ?_
  rw [hrest]
  exact .later hs ha

/-- The state that a transition leads to. -/
theorem exists_of_move? {s t : Nat} (h : move? states n s = some t) :
    ∃ st st', states[n]? = some st ∧ (s, t) ∈ st.moves ∧ states[t]? = some st' ∧
      st'.kernel = st.items.filterMap (·.advance? s) := by
  obtain ⟨st, hst, hlookup⟩ := Option.bind_eq_some_iff.mp h
  have hmem := mem_of_lookup hlookup
  obtain ⟨st', hst', hkernel, -⟩ := hc.sound.leads n st hst (s, t) hmem
  exact ⟨st, st', hst, hmem, hst', hkernel⟩

/-- Whatever is read on from a transition stays within what its target allows. -/
theorem Within.reaches {u : Transition} (h : Reaches (reads g.nullable states) t u)
    (ht : ∀ n st, move? states t.1 t.2 = some n → states[n]? = some st → Within g st S) :
    ∀ n st, move? states u.1 u.2 = some n → states[n]? = some st → Within g st S := by
  induction h with
  | refl => exact ht
  | @tail u v _ hv ih =>
    intro n st hn hst
    obtain ⟨hmove, hnull, -⟩ := mem_reads.mp hv
    obtain ⟨stv, st', hstv, hmem, hst', -⟩ := exists_of_move? hc hn
    cases hst.symm.trans hst'
    exact (ih v.1 stv hmove hstv).move hc hstv hmem hst hnull

/-- What is read after a transition stays within what its target allows, but for the end of
the input after the start symbol. -/
theorem Read.of_within (h : Read g states t a)
    (ht : ∀ n st, move? states t.1 t.2 = some n → states[n]? = some st → Within g st S) :
    S a ∨ t = (0, g.start) ∧ a = g.endMark := by
  obtain ⟨u, hu, ha⟩ := h
  rcases mem_directReads.mp ha with ⟨i, hi, hnext, hterm⟩ | ⟨rfl, rfl⟩
  · rw [itemsAfter] at hi
    rcases hn : move? states u.1 u.2 with _ | n
    · rw [hn] at hi
      cases hi
    rw [hn] at hi
    obtain ⟨-, st, -, -, hst, -⟩ := exists_of_move? hc hn
    have hi : i ∈ itemsOf states n := hi
    rw [itemsOf_eq hst] at hi
    obtain ⟨rest, hrest⟩ := List.head?_eq_some_iff.mp hnext
    refine .inl (Within.reaches hc hu ht n st hn hst i hi a ?_)
    rw [hrest]
    exact .here hterm
  · -- no move leads to the first state
    rcases Relation.ReflTransGen.cases_tail hu with rfl | ⟨v, -, hv⟩
    · exact .inr ⟨rfl, rfl⟩
    · obtain ⟨hmove, -, -⟩ := mem_reads.mp hv
      obtain ⟨stv, -, hstv, hmem, -, -⟩ := exists_of_move? hc hmove
      exact absurd rfl (Path.ne_zero hc.sound hstv hmem)

theorem Read.trails (hg : g.Regular) (h : Read g states t a) :
    Trails g t.2 a := by
  have hwithin : ∀ n st, move? states t.1 t.2 = some n → states[n]? = some st →
      Within g st (Trails g t.2) := by
    intro n st hn hst
    obtain ⟨st₀, st', hst₀, -, hst', hkernel⟩ := exists_of_move? hc hn
    cases hst.symm.trans hst'
    refine .of_kernel hc hst fun j hj b hb => ?_
    rw [hkernel] at hj
    obtain ⟨i, hi, hadvance⟩ := List.mem_filterMap.mp hj
    obtain ⟨hrest, hrule, -⟩ := Item.advance?_eq_some hadvance
    have hfits := hc.sound.fits hst₀ hi
    refine .next (hfits.rule_lt hg.size) (?_ : _ = (g.right i.rule).take i.dot ++ t.2 :: j.rest) hb
    rw [← hrest, hfits.rest, List.take_append_drop]
  rcases h.of_within hc hwithin with h | ⟨rfl, rfl⟩
  · exact h
  · exact .ending

theorem Follow.trails (hg : g.Regular) (hroot : ∀ r, r < g.rules.size → g.left 0 ∉ g.right r)
    (h : Follow g states t a) : Trails g t.2 a := by
  obtain ⟨u, hu, hread⟩ := h
  induction hu using Relation.ReflTransGen.head_induction_on with
  | refl => exact hread.trails hc hg
  | @head t v hv _ ih =>
    obtain ⟨hv, -, p, hp, hleft, before, after, hrest, -, hafter⟩ := mem_includedIn.mp hv
    obtain ⟨st, hst, ⟨i, hi, hnext⟩, -⟩ := mem_transitions.mp hv
    rw [itemsOf_eq hst] at hp
    have hfits := hc.sound.fits hst hp
    have hright : g.right p.rule = ((g.right p.rule).take p.dot ++ before) ++ t.2 :: after := by
      rw [List.append_assoc, ← hrest, hfits.rest, List.take_append_drop]
    have hp0 : p.rule ≠ 0 := by
      intro h0
      have hifits := hc.sound.fits hst hi
      obtain ⟨rest, hirest⟩ := List.head?_eq_some_iff.mp hnext
      refine hroot i.rule (hifits.rule_lt hg.size) (List.mem_of_mem_drop (i := i.dot) ?_)
      rw [← hifits.rest, hirest, ← hleft, h0]
      exact List.mem_cons_self
    refine .outer (hfits.rule hp0) hp0 hright (fun x hx => (hafter x hx).2) ?_
    rw [hleft]
    exact ih

end Complete

/-- A terminal stands after a dot of a state, or does so after moves over nullable symbols. -/
inductive Sees (g : Rules) (states : Array State) : Nat → Nat → Prop
  | next {n a : Nat} {st : State} {i : Item} (hst : states[n]? = some st) (hi : i ∈ st.items)
      (hnext : i.next? = some a) (ha : g.isTerminal a = true) : Sees g states n a
  | skip {n s t a : Nat} {st : State} {i : Item} (hst : states[n]? = some st) (hi : i ∈ st.items)
      (hnext : i.next? = some s) (hs : s ∈ g.nullable) (ht : (s, t) ∈ st.moves)
      (h : Sees g states t a) : Sees g states n a

/-- What is seen from the target of a transition is read after it. -/
theorem read_of_sees (hc : Complete g states) {t : Nat} (h : Sees g states t a) :
    ∀ {n s : Nat} {st : State}, states[n]? = some st → (s, t) ∈ st.moves → Read g states (n, s) a := by
  induction h with
  | @next t a stt i hst hi hnext ha =>
    intro n s st hn hs
    refine ⟨(n, s), .refl _, mem_directReads.mpr (.inl ⟨i, ?_, hnext, ha⟩)⟩
    rw [itemsAfter, hc.move?_eq hn hs, Option.map_some, Option.getD_some, itemsOf_eq hst]
    exact hi
  | @skip t s' t' a stt i hst hi hnext hs' ht' _ ih =>
    intro n s st hn hs
    have hstep : (t, s') ∈ reads g.nullable states (n, s) := by
      refine mem_reads.mpr ⟨hc.move?_eq hn hs, hs', i, ?_, hnext⟩
      rw [itemsOf_eq hst]
      exact hi
    exact (ih hst ht').of_reaches (.single hstep)

end QuadLang.Lalr
