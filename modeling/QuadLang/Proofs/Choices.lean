/-
The tables of a dialect choose as a derivation needs it.

Where a derivation completes a rule, the token to come is one that follows the rule in the
place where it began.  The tables complete the same rule there, although the state may hold
other items too: those that stand beside the end of the rule are clear of what can follow it.

* `Lalr.Follow.of_rest` — what follows a rule follows its last symbols, too;
* `Dialect.action?_end` — the tables complete a rule that a derivation completes;
* `Dialect.action?_blank` — they complete `empty` where a derivation leaves something out.

Design notes: no blank statement is completed in the derivations this is about, and no list
of statements is left out in another way than by its own rule for it; see `Phrase.Pruned`.
-/
import QuadLang.Proofs.Neighbours

namespace QuadLang.Lalr

variable {g : Rules} {states : Array State} (hc : Complete g states) (hg : g.Regular) {st : State}

include hc hg

theorem Follow.of_rest {n₀ n r s a : Nat} {st₀ : State} {before after : List Nat}
    (hf : Follow g states (n₀, g.left r) a) (hst₀ : states[n₀]? = some st₀) (hr : r ≠ 0)
    (hi : Item.initial g r ∈ st₀.items) (hright : g.right r = before ++ s :: after)
    (hafter : ∀ x ∈ after, x ∈ g.nullable) (hn : runTo states n₀ before = n)
    (hst : states[n]? = some st) (hnext : ∃ i ∈ st.items, i.next? = some s)
    (hs : g.isNonterminal s = true) : Follow g states (n, s) a := by
  obtain ⟨u, hu, hread⟩ := hf
  have hlt := (hc.sound.fits hst₀ hi).rule hr
  have ht : (n₀, g.left r) ∈ transitions g states :=
    mem_transitions.mpr ⟨st₀, hst₀, hc.exists_next hst₀ hr hi, hg.left r hr hlt⟩
  refine ⟨u, Relation.ReflTransGen.head (mem_includedIn.mpr ⟨ht, ?_, ?_⟩) hu, hread⟩
  · exact mem_transitions.mpr ⟨st, hst, hnext, hs⟩
  · refine ⟨.initial g r, by rwa [itemsOf_eq hst₀], rfl, before, after, hright, hn.symm, ?_⟩
    intro x hx
    have hmem : x ∈ g.right r := by
      rw [hright]
      exact List.mem_append_right _ (List.mem_cons_of_mem _ hx)
    refine ⟨?_, hafter x hx⟩
    rw [hg.kind r hlt x hmem, hg.nullableNonterminals x (hafter x hx)]
    rfl

omit hg in
/-- What is seen after a symbol follows it. -/
theorem Follow.of_sees {n s t a : Nat} (hst : states[n]? = some st) (ht : (s, t) ∈ st.moves)
    (h : Sees g states t a) : Follow g states (n, s) a :=
  ⟨(n, s), .refl _, read_of_sees hc h hst ht⟩

/-- What an item is completed before can come after its rule. -/
theorem trails_of_mem_aheadOf (hapart : ReadsApart g states)
    (hroot : ∀ r, r < g.rules.size → g.left 0 ∉ g.right r) {n a : Nat} (hst : states[n]? = some st)
    {j : Item} (h : a ∈ aheadOf (lookaheads g states) n j) : Trails g (g.left j.rule) a := by
  have hn : n < states.size := (Array.getElem?_eq_some_iff.mp hst).1
  obtain ⟨t, -, ⟨p, -, hleft, -, -, hmatch⟩, hfollow⟩ :=
    ((mem_lookaheads hg.nullableNonterminals hapart).2 hn).mp h
  rw [matchesFrom, Bool.and_eq_true, Bool.and_eq_true, beq_iff_eq] at hmatch
  rw [hmatch.1.1, hleft]
  exact hfollow.trails hc hg hroot

end QuadLang.Lalr

namespace QuadLang.Dialect

open Bits Numbers Lalr

variable {d : Dialect} {g : Rules} (h : d.coded = some g) {n a : Nat} {ns cs : List Nat}
  (hpath : Path (Tables.build g).states (n :: ns) cs) {st : State}
  (hst : (Tables.build g).states[n]? = some st) {i : Item}

include h hpath hst

omit hpath in
/-- The tables complete a rule if nothing stands in its way: no other item asks for the token,
and no other rule that is to be preferred is completed before it. -/
theorem action?_of_clear (hi : i ∈ st.items) (hrest : i.rest = []) (hrule : i.rule ≠ 0)
    (hahead : a ∈ aheadOf (lookaheads g (Tables.build g).states) n i)
    (hnext : ∀ j ∈ st.items, j.next? ≠ some a)
    (hend : ∀ j ∈ st.items, j.rest = [] → ∀ {m rule}, j.rule = m + 1 → d.rules[m]? = some rule →
      Trails g (code g rule.name) a → g.line j.rule ≤ g.line i.rule → j.rule = i.rule) :
    (Tables.build g).action? n a = some (.reduce i.rule) := by
  have hlists := lists h
  have hc := Tables.complete_states hlists.regular
  have hapart : ReadsApart g (Tables.build g).states := hlists.readsApart hc
  obtain ⟨j, hj, hjrest, hjahead, haction, hline⟩ := Tables.action?_reduce hlists.regular hapart hst
    hi hrest hrule hahead fun j hj heq => absurd heq (hnext j hj)
  obtain ⟨-, -, hj0, -⟩ := Tables.justified_of_action? haction
  have hlt := (hc.sound.fits hst hj).rule hj0
  obtain ⟨m, rule, hm, hrule'⟩ := Dialect.exists_rule (codes h) hj0 hlt
  have htrails := trails_of_mem_aheadOf hc hlists.regular hapart
    (fun r hr => left_zero_not_mem h hr) hst hjahead
  rw [hm, (codes h).left m rule hrule'] at htrails
  rw [haction, hend j hj hjrest hm hrule' htrails hline]

variable {n₀ m : Nat} {rule : DialectRule} (hrule : d.rules[m]? = some rule)

include hrule

theorem action?_end {st₀ : State} (hst₀ : (Tables.build g).states[n₀]? = some st₀)
    (hinit : Item.initial g (m + 1) ∈ st₀.items)
    (hfollow : Follow g (Tables.build g).states (n₀, code g rule.name) a)
    (hrun : runTo (Tables.build g).states n₀ (g.right (m + 1)) = n) (hi : i ∈ st.items)
    (hrest : i.rest = []) (hm : i.rule = m + 1) (hname : rule.name ≠ "empty")
    (hblank : ¬(rule.name = "statement" ∧ rule.symbols = ["empty"])) :
    (Tables.build g).action? n a = some (.reduce (m + 1)) := by
  have hcodes := codes h
  have hlists := lists h
  have hc := Tables.complete_states hlists.regular
  have hs := mem_symbols_of_name (List.mem_of_getElem? hrule)
  have htrails := hfollow.trails hc hlists.regular fun r hr => left_zero_not_mem h hr
  rw [← hcodes.left m rule hrule] at hfollow
  have hahead := mem_aheadOf_of_follow hlists.regular hc (hlists.readsApart hc) hst₀
    (Nat.succ_ne_zero m) hinit hfollow hrun hst hi hm
  obtain ⟨b, hclear, hbeside⟩ := clear_end h hc hpath hst hrule hi hrest hm hname hblank
  rw [← hm]
  refine action?_of_clear h hst hi hrest (by omega) hahead (fun j hj hnext => ?_)
    fun j hj hjrest m' rule' hm' hrule' htrails' hline => ?_
  · exact not_trails_of_next h hs hclear (hc.sound.fits hst hj) (hbeside j hj) hnext htrails
  · -- a rule that is written earlier cannot end here, too
    have hlt := (List.getElem?_eq_some_iff.mp hrule).1
    have hlt' := (List.getElem?_eq_some_iff.mp hrule').1
    rw [hm, hm', line_code h hlt, line_code h hlt'] at hline
    by_contra hne
    have hearlier : m' < m := by omega
    refine not_trails_of_end h hs hclear (hc.sound.fits hst hj) (hbeside j hj) hrule' hm' hjrest ?_
      ⟨htrails, htrails'⟩
    refine List.mem_of_getElem? (i := m') ?_
    rw [List.getElem?_take_of_lt hearlier, getElem?_placed hrule']

theorem action?_blank (hinit : Item.initial g (m + 1) ∈ st.items)
    (hfollow : Follow g (Tables.build g).states (n, code g rule.name) a)
    (hsymbols : rule.symbols = ["empty"]) (hname : rule.name ≠ "statement") {e : Nat}
    {nothing : DialectRule} (he : d.rules[e]? = some nothing) (hnothing : nothing.name = "empty") :
    Item.initial g (e + 1) ∈ st.items ∧
      (Tables.build g).action? n a = some (.reduce (e + 1)) := by
  have hcodes := codes h
  have hlists := lists h
  have hreg := hlists.regular
  have hc := Tables.complete_states hreg
  have hmem := List.mem_of_getElem? hrule
  have hs := mem_symbols_of_name hmem
  have hempty : "empty" ∈ d.symbols := hnothing ▸ mem_symbols_of_name (List.mem_of_getElem? he)
  have htrails := hfollow.trails hc hreg fun r hr => left_zero_not_mem h hr
  -- `empty` is begun here, and what follows the whole follows it
  have hright : g.right (m + 1) = [] ++ code g "empty" :: [] := by
    rw [hcodes.right m rule hrule, hsymbols]
    rfl
  have hnext : (Item.initial g (m + 1)).next? = some (code g "empty") := by
    show (g.right (m + 1)).head? = _
    rw [hright]
    rfl
  have hrules : e + 1 ∈ g.rulesOf (code g "empty") :=
    (mem_rulesOf_code hcodes hempty).mpr ⟨e, nothing, rfl, he, hnothing⟩
  have hinit' := hc.mem_initial hst hinit hnext hrules
  have hnil : g.right (e + 1) = [] := hlists.nothing _ hrules
  have hfollow' : Follow g (Tables.build g).states (n, g.left (e + 1)) a := by
    rw [← hcodes.left m rule hrule] at hfollow
    rw [hcodes.left e nothing he, hnothing]
    refine hfollow.of_rest hc hreg hst (Nat.succ_ne_zero m) hinit hright
      (fun x hx => absurd hx List.not_mem_nil) rfl hst ⟨_, hinit, hnext⟩ ?_
    rw [← hnothing]
    exact isNonterminal_name h (List.mem_of_getElem? he)
  have hahead := mem_aheadOf_of_follow hreg hc (hlists.readsApart hc) hst (Nat.succ_ne_zero e)
    hinit' hfollow' (by rw [hnil]; rfl) hst hinit' rfl
  obtain ⟨b, hclear, hbeside⟩ := clear_blank h hc hpath hst hrule hinit hsymbols hname
  refine ⟨hinit', action?_of_clear h hst hinit' hnil (Nat.succ_ne_zero e) hahead
    (fun j hj hnext => ?_) fun j hj hjrest m' rule' hm' hrule' htrails' _ => ?_⟩
  · exact not_trails_of_next h hs hclear (hc.sound.fits hst hj) (hbeside j hj) hnext htrails
  · -- nothing but `empty` ends here
    have hmem' := List.mem_of_getElem? hrule'
    by_cases hname' : rule'.name = "empty"
    · have hsame := rule_inj hrule' he (hname'.trans hnothing.symm) (by
        rw [symbols_of_empty hmem' hname', symbols_of_empty (List.mem_of_getElem? he) hnothing])
      rw [hm', hsame]
      rfl
    · refine absurd ⟨htrails, htrails'⟩ (not_trails_of_end h hs hclear (hc.sound.fits hst hj) (hbeside j hj)
        hrule' hm' hjrest (List.mem_filter.mpr ⟨mem_placed hrule', ?_⟩))
      have hne : d.number rule'.name ≠ d.number "empty" := fun heq =>
        hname' (number_inj (mem_symbols_of_name hmem') heq)
      rw [Bool.not_eq_true']
      exact Bool.eq_false_iff.mpr fun heq => hne (Nat.eq_of_beq_eq_true heq)

end QuadLang.Dialect
