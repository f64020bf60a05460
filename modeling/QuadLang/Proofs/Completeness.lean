/-
The parser accepts what its grammar derives.

The grammars are ambiguous: a list of statements can end, and a statement can be blank.  Of the
derivations of the same tokens one has no blank statements (`Phrase.Derives.exists_pruned`), and
that is the one the parser follows.

* `Parsing.At` — where the parser stands: a state of the automaton, and the tokens to come;
* `Parsing.ComesTo` — the parser comes to a place, unless the step of a rule fails on the way;
* `Phrase.Parses` — from before a symbol the parser comes to after it, if the tokens to come
  are derived from it and the one after them can follow it there;
* `Phrase.Pruned.parses` — this holds for all derivations without blank statements;
* `compile_accepts_iff` — the parser accepts the tokens that are derived from `program`, and
  no others, unless the step of a rule fails.

Design notes: what follows a symbol in a state is `Lalr.Follow`.  For a symbol in a rule it is
the first token of the symbols after it, or, if they derive nothing, what follows the rule
where it began; so every claim about a derivation comes with the place where it began.
-/
import QuadLang.Proofs.Compiled
import QuadLang.Proofs.Halting
import QuadLang.Proofs.Choices

namespace QuadLang

open Spelling Lalr Dialect

variable {Ps : List Phrase} {n₀ r c : Nat} {p₀ : Parsing} {st₀ : Lalr.State} {ts₀ ts' : List Token}
/-! ### The tokens to come -/

/-- These tokens come, and then the end. -/
inductive Scanner.Supplies : Scanner → List Token → Prop
  | nil {s s' : Scanner} {reports : List String} (h : s.next = (reports, .ok none, s')) :
      Supplies s []
  | cons {s s' : Scanner} {reports : List String} {t : Token} {ts : List Token}
      (h : s.next = (reports, .ok (some t), s')) (hs' : Supplies s' ts) : Supplies s (t :: ts)

namespace Scanner

theorem Supplies.next {s : Scanner} {ts : List Token} (h : s.Supplies ts) : ∃ reports s',
    s.next = (reports, .ok ts.head?, s') ∧ ∀ t rest, ts = t :: rest → s'.Supplies rest := by
  cases h with
  | nil h => exact ⟨_, _, h, fun t rest heq => absurd heq.symm (List.cons_ne_nil t rest)⟩
  | cons h hs' =>
    refine ⟨_, _, h, fun t rest heq => ?_⟩
    rwa [← (List.cons.inj heq).2]

theorem supplies_upTo : ∀ {n : Nat} {s : Scanner}, s.pieces.length < n →
    (upTo n s).2.2.1 = none → s.Supplies (upTo n s).2.1 := by
  intro n
  induction n with
  | zero => exact fun h => absurd h (Nat.not_lt_zero _)
  | succ n ih =>
    intro s hlt hfault
    rcases hnext : s.next with ⟨reports, fault | _ | t, s'⟩ <;> rw [upTo, hnext] at hfault ⊢
    · cases hfault
    · exact .nil hnext
    · have hless := ((scan_spec s.dialect hnext).2.2 t rfl).1
      exact .cons hnext (ih (by omega) hfault)

theorem supplies_all {s : Scanner} (h : s.all.2.2.1 = none) : s.Supplies s.all.2.1 :=
  supplies_upTo (Nat.lt_succ_self _) h

end Scanner

namespace Parsing

/-- The code of the first of the tokens to come. -/
def headCode (g : Lalr.Rules) (ts : List Token) : Nat :=
  (ts.head?.map fun t => g.names.idxOf t.kind).getD g.endMark

/-- The tokens to come, of which the first may have been read. -/
inductive Faces (g : Lalr.Rules) (p : Parsing) (ts : List Token) : Prop
  | unread (h : p.ahead = none) (hs : p.scanner.Supplies ts)
  | read (h : p.ahead = some ⟨headCode g ts, ts.head?⟩)
      (hs : ∀ t rest, ts = t :: rest → p.scanner.Supplies rest)

variable {d : Dialect} {g : Lalr.Rules} {p q : Parsing} {ts : List Token}

theorem Faces.look (h : p.Faces g ts) : ∃ q, p.look (.build g) = (q, .ok ⟨headCode g ts, ts.head?⟩) ∧
    q.stack = p.stack ∧ q.Faces g ts ∧ ∀ t rest, ts = t :: rest → q.scanner.Supplies rest := by
  cases h with
  | unread h hs =>
    obtain ⟨reports, s', hnext, hrest⟩ := hs.next
    refine ⟨{ p with
      scanner := s'
      compiler := { p.compiler with printed := reports.reverse ++ p.compiler.printed }
      ahead := some ⟨headCode g ts, ts.head?⟩ }, ?_, rfl, .read rfl hrest, hrest⟩
    rw [Parsing.look, h]
    simp only [hnext, Tables.rules_build]
    cases ts <;> rfl
  | read h hs =>
    refine ⟨p, ?_, rfl, .read h hs, hs⟩
    rw [Parsing.look, h]

/-! ### Coming to a place -/

/-- The step of the rule that the parser completes next fails. -/
def Raises (d : Dialect) (t : Lalr.Tables) (p : Parsing) : Prop :=
  ∃ q rule fault c, p.Completes t q rule ∧ q.StepFails d t rule fault c

def ComesTo (d : Dialect) (t : Lalr.Tables) (p : Parsing) (place : Parsing → Prop) : Prop :=
  ∃ m n q, Runs d t p m n q ∧ (Raises d t q ∨ place q)

theorem Runs.trans {t : Tables} {m n m' n' : Nat} {q' : Parsing} (h : Runs d t p m n q)
    (h' : Runs d t q m' n' q') : Runs d t p (m + m') (n + n') q' := by
  induction h' with
  | refl => exact h
  | shift _ hq ih => exact ih.shift hq
  | reduce _ hq ih => exact ih.reduce hq

namespace ComesTo

variable {t : Lalr.Tables} {P Q : Parsing → Prop}

theorem here (h : P p) : ComesTo d t p P := ⟨0, 0, p, .refl, .inr h⟩

theorem bind (h : ComesTo d t p P) (hP : ∀ q, P q → ComesTo d t q Q) : ComesTo d t p Q := by
  obtain ⟨m, n, q, hrun, hraises | hq⟩ := h
  · exact ⟨m, n, q, hrun, .inl hraises⟩
  · obtain ⟨m', n', q', hrun', hq'⟩ := hP q hq
    exact ⟨_, _, q', hrun.trans hrun', hq'⟩

end ComesTo

structure At (g : Lalr.Rules) (p : Parsing) (n : Nat) (st : Lalr.State) (ts : List Token) : Prop where
  path : ∃ ns cs, p.stack.map (·.1) = n :: ns ∧
    Lalr.Path (Lalr.Tables.build g).states (n :: ns) cs
  state : (Lalr.Tables.build g).states[n]? = some st
  faces : p.Faces g ts

namespace At

variable {n target : Nat} {st : Lalr.State}

theorem state_eq (h : p.At g n st ts) : p.state = n := by
  obtain ⟨ns, cs, hstack, -⟩ := h.path
  rw [Parsing.state, ← List.head?_map, hstack]
  rfl

/-- A symbol is put on the stack. -/
theorem push (h : p.At g n st ts) {v : Option Literal} (hmove : (c, target) ∈ st.moves)
    (hstack : q.stack = (target, v) :: p.stack) (hfaces : q.Faces g ts') :
    ∃ st', q.At g target st' ts' := by
  obtain ⟨ns, cs, hp, hpath⟩ := h.path
  obtain ⟨st', hst', -⟩ := (Tables.sound_states g).leads n st h.state _ hmove
  exact ⟨st', ⟨n :: ns, c :: cs, by rw [hstack, List.map_cons, hp], hpath.move h.state hmove⟩, hst',
    hfaces⟩

/-- The parser completes the rule that the tables say. -/
theorem exists_completes (h : p.At g n st ts)
    (haction : (Tables.build g).action? n (headCode g ts) = some (.reduce r)) :
    ∃ q, p.Completes (.build g) q r ∧ q.stack = p.stack ∧ q.Faces g ts := by
  rcases hdefault : (Tables.build g).defaulted? n with _ | r'
  · obtain ⟨q, hlook, hstack, hfaces, -⟩ := h.faces.look
    refine ⟨q, .inr ⟨h.state_eq.symm ▸ hdefault, _, hlook, ?_⟩, hstack, hfaces⟩
    rw [Parsing.state, hstack, ← Parsing.state, h.state_eq]
    exact haction
  · cases (Tables.of_defaulted? hdefault haction).1
    exact ⟨p, .inl ⟨h.state_eq.symm ▸ hdefault, rfl⟩, rfl, h.faces⟩

/-- The parser shifts the token that the tables say. -/
theorem shift {t : Token} (h : p.At g n st (t :: ts))
    (haction : (Tables.build g).action? n (g.names.idxOf t.kind) = some (.shift target)) :
    ComesTo d (.build g) p fun q => q.stack = (target, some t.value) :: p.stack ∧ q.Faces g ts := by
  obtain ⟨q, hlook, hstack, -, hsupplies⟩ := h.faces.look
  have hdefault : (Tables.build g).defaulted? n = none := by
    rcases hsome : (Tables.build g).defaulted? n with _ | r
    · rfl
    · cases (Tables.of_defaulted? hsome haction).1
  have hstate : q.state = n := by rw [Parsing.state, hstack, ← Parsing.state, h.state_eq]
  refine ⟨1, 0, _, .shift .refl ⟨h.state_eq.symm ▸ hdefault, q, _, target, hlook, ?_, rfl⟩, .inr ⟨?_, ?_⟩⟩
  · rw [hstate]
    exact haction
  · rw [hstack]
    rfl
  · exact .unread rfl (hsupplies t ts rfl)

/-- The parser completes the rule that the tables say, and goes on where the rule began. -/
theorem reduce (hg : d.coded = some g) (h : p.At g n st ts) (h₀ : p₀.At g n₀ st₀ ts₀)
    {vs : List (Nat × Option Literal)} (hstack : p.stack = vs ++ p₀.stack) (hr : r ≠ 0)
    (hlength : vs.length = (g.right r).length) (hinit : Item.initial g r ∈ st₀.items)
    (haction : (Tables.build g).action? n (headCode g ts) = some (.reduce r)) :
    ComesTo d (.build g) p fun q => ∃ target st' v, (g.left r, target) ∈ st₀.moves ∧
      q.stack = (target, v) :: p₀.stack ∧ q.At g target st' ts := by
  have hlists := lists hg
  have hc := Tables.complete_states hlists.regular
  obtain ⟨q, hcompletes, hq, hfaces⟩ := h.exists_completes haction
  have hdrop : q.stack.drop ((Tables.build g).rules.right r).length = p₀.stack := by
    rw [Tables.rules_build, hq, hstack, ← hlength, List.drop_left]
  rcases hperform : (Compile.perform
    (((q.stack.drop ((Tables.build g).rules.right r).length).head?.map (·.2)).join)
    ((q.stack.take ((Tables.build g).rules.right r).length).reverse.map (·.2))
    (d.stepOf r)).run q.compiler with ⟨fault | value, c⟩
  · exact ⟨0, 0, p, .refl, .inl ⟨q, r, fault, c, hcompletes, hperform⟩⟩
  -- the state below goes on with the symbol of the rule
  have hlt := (hc.sound.fits h₀.state hinit).rule hr
  obtain ⟨i, hi, hnext⟩ := hc.exists_next h₀.state hr hinit
  obtain ⟨target, hmove, hgoto⟩ := Tables.goto?_eq hlists.regular (hlists.readsApart hc) h₀.state
    hi hnext (hlists.regular.left r hr hlt)
  have hgoto' : (Tables.build g).goto?
      (((q.stack.drop ((Tables.build g).rules.right r).length).head?.map (·.1)).getD 0)
      ((Tables.build g).rules.left r) = some target := by
    rw [hdrop, Tables.rules_build, ← Parsing.state, h₀.state_eq]
    exact hgoto
  have hmore := reduce_of_goto hperform hgoto'
  have hpushed : ({ q with
      compiler := c
      stack := (target, value) :: q.stack.drop ((Tables.build g).rules.right r).length }
        : Parsing).stack = (target, value) :: p₀.stack := congrArg _ hdrop
  have hfaces' : Faces g { q with
      compiler := c
      stack := (target, value) :: q.stack.drop ((Tables.build g).rules.right r).length } ts := by
    cases hfaces with
    | unread h hs => exact .unread h hs
    | read h hs => exact .read h hs
  obtain ⟨st', hat⟩ := h₀.push hmove hpushed hfaces'
  exact ⟨0, 1, _, .reduce .refl ⟨q, r, hcompletes, hmore⟩,
    .inr ⟨target, st', value, hmove, hpushed, hat⟩⟩

end At

end Parsing

/-! ### Derivations -/

namespace Phrase

open Parsing

variable {d : Dialect} {g : Lalr.Rules} {E P : Phrase} {ts : List Token} {rule : DialectRule}

/-- The kinds of the tokens of a phrase. -/
def kinds (P : Phrase) : List String := P.yield.map fun x => kindOf x.1

/-- The kinds of the tokens of phrases. -/
def kindsAll (Ps : List Phrase) : List String := (yieldAll Ps).map fun x => kindOf x.1

theorem kindsAll_cons (P : Phrase) (Ps : List Phrase) :
    kindsAll (P :: Ps) = P.kinds ++ kindsAll Ps := List.map_append

theorem yieldAll_eq_nil_iff : yieldAll Ps = [] ↔ ∀ P ∈ Ps, P.yield = [] := by
  induction Ps with
  | nil => simp
  | cons P Ps ih => rw [yieldAll_cons, List.append_eq_nil_iff, ih, List.forall_mem_cons]

/-- The only derivation of `empty`. -/
theorem Derives.of_empty (h : E.Derives d) (hE : E.symbol = "empty") :
    ∃ rule ∈ d.rules, rule.name = "empty" ∧ E = .node rule [] := by
  cases h with
  | token v hs =>
    obtain ⟨⟨r, hr, hname, -⟩, -⟩ := d.exists_list_rules
    exact absurd (hname.trans hE.symm) (hs r hr)
  | @node rule parts hrule hsymbols _ =>
    rw [symbols_of_empty hrule hE] at hsymbols
    exact ⟨rule, hrule, hE, by rw [List.map_eq_nil_iff.mp hsymbols]⟩

/-- A derivation that is not of a blank statement is one without blank statements, with the
same symbol and the same tokens. -/
theorem Derives.exists_pruned (h : P.Derives d) : P.symbol = "statement" ∧ P.yield = [] ∨
      ∃ P' : Phrase, P'.Derives d ∧ P'.Pruned ∧ P'.symbol = P.symbol ∧ P'.yield = P.yield := by
  induction h with
  | @token s v hs => exact .inr ⟨.token s v, .token v hs, .token s v, rfl, rfl⟩
  | @node rule parts hrule hsymbols hparts ih =>
    by_cases hblank : rule.name = "statement" ∧ rule.symbols = ["empty"]
    · refine .inl ⟨hblank.1, ?_⟩
      rw [hblank.2] at hsymbols
      obtain ⟨E, rest, rfl, hE, hrest⟩ := List.map_eq_cons_iff.mp hsymbols
      rw [List.map_eq_nil_iff.mp hrest, yield_node, yieldAll_cons, yieldAll_nil, List.append_nil]
      obtain ⟨_, -, -, rfl⟩ := (hparts E List.mem_cons_self).of_empty hE
      rfl
    refine .inr ?_
    by_cases hstatement : "statement" ∈ rule.symbols
    · -- a list goes on; if its first statement is blank, the rest of the list is the same
      obtain ⟨hname, hmany⟩ := eq_statements_of_mem hrule hstatement
      rw [hmany] at hsymbols
      obtain ⟨S, rest, rfl, hS, hrest⟩ := List.map_eq_cons_iff.mp hsymbols
      obtain ⟨L, rest, rfl, hL, hrest⟩ := List.map_eq_cons_iff.mp hrest
      obtain rfl := List.map_eq_nil_iff.mp hrest
      obtain ⟨L', hL', hpruned, hsymbol, hyield⟩ := (ih L (by simp)).resolve_left fun hno => by
        rw [hL] at hno
        exact absurd hno.1 (by decide)
      rcases ih S List.mem_cons_self with ⟨-, hnone⟩ | ⟨S', hS', hpruned', hsymbol', hyield'⟩
      · refine ⟨L', hL', hpruned, ?_, ?_⟩
        · rw [hsymbol, hL, symbol_node, hname]
        · rw [hyield, yield_node, yieldAll_cons, yieldAll_cons, yieldAll_nil, hnone]
          simp
      · refine ⟨.node rule [S', L'], .node hrule ?_ ?_, .node hblank ?_, rfl, ?_⟩
        · rw [hmany, List.map_cons, List.map_cons, hsymbol, hsymbol', hS, hL]
          rfl
        · simp [hS', hL']
        · simp [hpruned, hpruned']
        · simp [hyield, hyield']
    · -- the parts of another rule are no statements
      have hall : ∀ {Ps : List Phrase}, (∀ p ∈ Ps, p ∈ parts) → ∃ Ps' : List Phrase,
          Ps'.map symbol = Ps.map symbol ∧ yieldAll Ps' = yieldAll Ps ∧
            (∀ p ∈ Ps', p.Derives d) ∧ ∀ p ∈ Ps', p.Pruned := by
        intro Ps
        induction Ps with
        | nil => exact fun _ => ⟨[], rfl, rfl, by simp, by simp⟩
        | cons p Ps ihPs =>
          intro hmem
          obtain ⟨Ps', hsymbols', hyield', hd', hp'⟩ := ihPs fun q hq => hmem q (List.mem_cons_of_mem _ hq)
          have hp := hmem p List.mem_cons_self
          obtain ⟨p', hd, hpruned, hsymbol, hyield⟩ := (ih p hp).resolve_left fun hno =>
            hstatement (hsymbols ▸ hno.1 ▸ List.mem_map_of_mem hp)
          refine ⟨p' :: Ps', by rw [List.map_cons, List.map_cons, hsymbol, hsymbols'],
            by rw [yieldAll_cons, yieldAll_cons, hyield, hyield'], ?_, ?_⟩
          · exact List.forall_mem_cons.mpr ⟨hd, hd'⟩
          · exact List.forall_mem_cons.mpr ⟨hpruned, hp'⟩
      obtain ⟨parts', hsymbols', hyield, hd, hp⟩ := hall fun p hp => hp
      exact ⟨.node rule parts', .node hrule (hsymbols'.trans hsymbols) hd, .node hblank hp, rfl, hyield⟩

section Automaton

variable (h : d.coded = some g) {states : Array Lalr.State} (hc : Lalr.Complete g states)
  {P : Phrase} {x : String × Literal}

include h

/-- What derives nothing is nullable. -/
theorem Derives.mem_nullable (hd : P.Derives d) : P.yield = [] → code g P.symbol ∈ g.nullable := by
  have hcodes := codes h
  induction hd with
  | token => exact fun hy => absurd hy (List.cons_ne_nil _ _)
  | @node rule parts hrule hsymbols _ ih =>
    intro hy
    obtain ⟨m, hm⟩ := List.mem_iff_getElem?.mp hrule
    rw [symbol_node, ← hcodes.left m rule hm]
    refine Rules.nullable_closed (Nat.succ_ne_zero m) ?_ ?_
    · rw [hcodes.size]
      have := (List.getElem?_eq_some_iff.mp hm).1
      omega
    · rw [hcodes.right m rule hm, ← hsymbols, List.map_map]
      intro c hcmem
      obtain ⟨p, hp, rfl⟩ := List.mem_map.mp hcmem
      exact ih p hp (yieldAll_eq_nil_iff.mp hy p hp)

include hc

/-- The first token of symbols is seen before them. -/
theorem sees_of_all {xs : List (String × Literal)} (hd : ∀ P ∈ Ps, P.Derives d)
    (ih : ∀ P ∈ Ps, ∀ {xs}, P.yield = x :: xs → ∀ {n st i}, states[n]? = some st → i ∈ st.items → i.next? = some (code g P.symbol) → Sees g states n (code g x.1))
    : yieldAll Ps = x :: xs → ∀ {n : Nat} {st : State} {i : Item}, states[n]? = some st →
      i ∈ st.items → i.rest = Ps.map (fun P => code g P.symbol) →
      Sees g states n (code g x.1) := by
  induction Ps with
  | nil => exact fun hy => absurd hy.symm (List.cons_ne_nil _ _)
  | cons P Ps ihPs =>
    intro hy n st i hst hi hrest
    have hnext : i.next? = some (code g P.symbol) := congrArg List.head? hrest
    rw [yieldAll_cons] at hy
    rcases hP : P.yield with _ | ⟨y, ys⟩
    · -- the first symbol derives nothing
      rw [hP, List.nil_append] at hy
      obtain ⟨t, st', hmove, -, hst', hi'⟩ := hc.advance hst hi hrest
      refine .skip hst hi hnext ((hd P List.mem_cons_self).mem_nullable h hP) hmove ?_
      exact ihPs (fun Q hQ => hd Q (List.mem_cons_of_mem _ hQ))
        (fun Q hQ => ih Q (List.mem_cons_of_mem _ hQ)) hy hst' hi' rfl
    · rw [hP, List.cons_append] at hy
      obtain ⟨rfl, -⟩ := List.cons.inj hy
      exact ih P List.mem_cons_self hP hst hi hnext

/-- The first token of a symbol is seen before it. -/
theorem Derives.sees (hd : P.Derives d) :
    P.symbol ∈ d.symbols → ∀ {xs : List (String × Literal)}, P.yield = x :: xs → ∀ {n : Nat}
      {st : State} {i : Item}, states[n]? = some st → i ∈ st.items → i.next? = some (code g P.symbol) →
      Sees g states n (code g x.1) := by
  have hcodes := codes h
  induction hd with
  | @token s v hs =>
    intro hsymbol xs hy n st i hst hi hnext
    obtain ⟨rfl, -⟩ := List.cons.inj hy
    exact .next hst hi hnext (isTerminal_code h hsymbol hs)
  | @node rule parts hrule hsymbols hparts ih =>
    intro _ xs hy n st i hst hi hnext
    obtain ⟨m, hm⟩ := List.mem_iff_getElem?.mp hrule
    have hmem : m + 1 ∈ g.rulesOf (code g rule.name) :=
      (mem_rulesOf_code hcodes (mem_symbols_of_name hrule)).mpr ⟨m, rule, rfl, hm, rfl⟩
    have hknown : ∀ p ∈ parts, p.symbol ∈ d.symbols := fun p hp =>
      mem_symbols_of_mem hrule (hsymbols ▸ List.mem_map_of_mem hp)
    refine sees_of_all h hc hparts (fun p hp => ih p hp (hknown p hp)) hy hst
      (hc.mem_initial hst hi hnext hmem) ?_
    show g.right (m + 1) = _
    rw [hcodes.right m rule hm, ← hsymbols, List.map_map]
    rfl

end Automaton

/-! ### Following a derivation -/

/-- The parser goes over a phrase: from a state with an item before its symbol, it comes to the
state after it, if what comes after its tokens can follow it there. -/
def Parses (d : Dialect) (g : Lalr.Rules) (P : Phrase) : Prop :=
  ∀ ⦃p : Parsing⦄ ⦃us ts : List Token⦄ ⦃n : Nat⦄ ⦃st : Lalr.State⦄ ⦃i : Lalr.Item⦄,
    p.At g n st (us ++ ts) → us.map (·.kind) = P.kinds → i ∈ st.items →
    i.next? = some (Dialect.code g P.symbol) →
    (g.isNonterminal (Dialect.code g P.symbol) = true → Lalr.Follow g (Lalr.Tables.build g).states
      (n, Dialect.code g P.symbol) (headCode g ts)) →
    ComesTo d (.build g) p fun q => ∃ target st' v, (Dialect.code g P.symbol, target) ∈ st.moves ∧
      q.stack = (target, v) :: p.stack ∧ q.At g target st' ts

variable (h : d.coded = some g)

include h

/-- A token is shifted. -/
theorem parses_token {s : String} (v : Literal) (hs : ∀ r ∈ d.rules, r.name ≠ s)
    (hsymbol : s ∈ d.symbols) : (token s v).Parses d g := by
  intro p us ts n st i hat hus hi hnext _
  have hlists := lists h
  have hc := Tables.complete_states hlists.regular
  obtain ⟨t, rest, rfl, ht, hrest⟩ := List.map_eq_cons_iff.mp hus
  obtain rfl := List.map_eq_nil_iff.mp hrest
  have hcode : g.names.idxOf t.kind = code g s := congrArg g.names.idxOf ht
  obtain ⟨target, hmove, haction⟩ := Tables.action?_shift hlists.regular (hlists.readsApart hc)
    hat.state hi hnext (isTerminal_code h hsymbol hs)
  refine (hat.shift (hcode ▸ haction)).bind fun q ⟨hstack, hfaces⟩ => ?_
  obtain ⟨st', hat'⟩ := hat.push hmove hstack hfaces
  exact .here ⟨target, st', _, hmove, hstack, hat'⟩

/-- What follows a symbol of a rule, in front of tokens that come from the rest of the rule and
of what follows the rule. -/
theorem follow_rest {p : Parsing} {n : Nat} {st : State} {us : List Token} (h₀ : p₀.At g n₀ st₀ ts₀)
    (hat : p.At g n st ts') {i : Item} (hi : i ∈ st.items) (hr : r ≠ 0) (hrule : i.rule = r)
    (hinit : Item.initial g r ∈ st₀.items)
    (hrun : runTo (Tables.build g).states n₀ ((g.right r).take i.dot) = n)
    (hfollow : Follow g (Tables.build g).states (n₀, g.left r) (headCode g ts))
    (hnon : g.isNonterminal c = true) (hd : ∀ P ∈ Ps, P.Derives d)
    (hsymbols : ∀ P ∈ Ps, P.symbol ∈ d.symbols)
    (hrest : i.rest = c :: Ps.map fun P => code g P.symbol) (hus : us.map (·.kind) = kindsAll Ps) :
    Follow g (Tables.build g).states (n, c) (headCode g (us ++ ts)) := by
  have hreg := regular h
  have hc := Tables.complete_states hreg
  subst hrule
  have hnext : i.next? = some c := congrArg List.head? hrest
  rcases hy : yieldAll Ps with _ | ⟨x, xs⟩
  · -- nothing comes of the rest of the rule
    obtain rfl : us = [] := List.map_eq_nil_iff.mp (hus.trans (by rw [kindsAll, hy]; rfl))
    have hfits := hc.sound.fits hat.state hi
    have hright : g.right i.rule =
        (g.right i.rule).take i.dot ++ c :: Ps.map fun P => code g P.symbol := by
      rw [← hrest, hfits.rest, List.take_append_drop]
    refine hfollow.of_rest hc hreg h₀.state hr hinit hright (fun a ha => ?_) hrun hat.state
      ⟨i, hi, hnext⟩ hnon
    obtain ⟨P, hP, rfl⟩ := List.mem_map.mp ha
    exact (hd P hP).mem_nullable h (yieldAll_eq_nil_iff.mp hy P hP)
  · -- its first token is seen in the next state
    obtain ⟨t, st', hmove, -, hst', hi'⟩ := hc.advance hat.state hi hrest
    rw [kindsAll, hy, List.map_cons] at hus
    obtain ⟨u, us', rfl, hu, -⟩ := List.map_eq_cons_iff.mp hus
    have hcode : headCode g (u :: us' ++ ts) = code g x.1 := congrArg g.names.idxOf hu
    rw [hcode]
    exact .of_sees hc hat.state hmove (sees_of_all h hc hd
      (fun P hP => (hd P hP).sees h hc (hsymbols P hP)) hy hst' hi' rfl)

/-- The parser goes over the symbols of a rule one after another. -/
theorem parses_all (h₀ : p₀.At g n₀ st₀ ts₀) (hr : r ≠ 0) (hinit : Item.initial g r ∈ st₀.items)
    (hfollow : Follow g (Tables.build g).states (n₀, g.left r) (headCode g ts)) :
    ∀ {Ps : List Phrase}, (∀ P ∈ Ps, P.Derives d) → (∀ P ∈ Ps, P.symbol ∈ d.symbols) →
      (∀ P ∈ Ps, P.Parses d g) → ∀ {p : Parsing} {n : Nat} {st : State} {us : List Token}
      {i : Item} {vs : List (Nat × Option Literal)}, p.At g n st (us ++ ts) →
      us.map (·.kind) = kindsAll Ps → i ∈ st.items → i.rule = r →
      i.rest = (Ps.map fun P => code g P.symbol) →
      p.stack = vs ++ p₀.stack → vs.length = i.dot →
      runTo (Tables.build g).states n₀ ((g.right r).take i.dot) = n →
      ComesTo d (.build g) p fun q => ∃ n' st' vs' j, q.At g n' st' ts ∧ j ∈ st'.items ∧
        j.rule = r ∧ j.rest = [] ∧ q.stack = vs' ++ p₀.stack ∧ vs'.length = (g.right r).length ∧
        runTo (Tables.build g).states n₀ (g.right r) = n' := by
  have hreg := regular h
  have hc := Tables.complete_states hreg
  intro Ps
  induction Ps with
  | nil =>
    intro _ _ _ p n st us i vs hat hus hi hrule hrest hstack hlength hrun
    obtain rfl : us = [] := List.map_eq_nil_iff.mp hus
    have hdot := (hc.sound.fits hat.state hi).dot_eq hrest
    rw [hrule] at hdot
    rw [hdot, List.take_length] at hrun
    exact .here ⟨n, st, vs, i, hat, hi, hrule, hrest, hstack, hlength.trans hdot, hrun⟩
  | cons P Ps ih =>
    intro hd hsymbols hparses p n st us i vs hat hus hi hrule hrest hstack hlength hrun
    rw [kindsAll_cons] at hus
    obtain ⟨us₁, us₂, rfl, hus₁, hus₂⟩ := List.map_eq_append_iff.mp hus
    rw [List.append_assoc] at hat
    have hnext : i.next? = some (code g P.symbol) := congrArg List.head? hrest
    have hd' : ∀ Q ∈ Ps, Q.Derives d := fun Q hQ => hd Q (List.mem_cons_of_mem _ hQ)
    have hsymbols' : ∀ Q ∈ Ps, Q.symbol ∈ d.symbols := fun Q hQ =>
      hsymbols Q (List.mem_cons_of_mem _ hQ)
    refine (hparses P List.mem_cons_self hat hus₁ hi hnext fun hnon =>
      follow_rest h h₀ hat hi hr hrule hinit hrun hfollow hnon hd' hsymbols' hrest hus₂).bind ?_
    rintro q ⟨target, st', v, hmove, hpushed, hat'⟩
    obtain ⟨t, st'', hmove', hmove?, hst'', hi'⟩ := hc.advance hat.state hi hrest
    obtain rfl := hc.move_inj hat.state hmove hmove'
    obtain rfl := Option.some.inj (hat'.state.symm.trans hst'')
    have hstack' : q.stack = ((target, v) :: vs) ++ p₀.stack := by
      rw [hpushed, hstack]
      rfl
    refine ih hd' hsymbols' (fun Q hQ => hparses Q (List.mem_cons_of_mem _ hQ)) hat' hus₂ hi' hrule rfl
      hstack' (by rw [List.length_cons, hlength]) ?_
    have hfits := hc.sound.fits hat.state hi
    have htake := hfits.take_succ hrest
    rw [hrule] at htake
    show runTo _ n₀ ((g.right r).take (i.dot + 1)) = target
    rw [htake, runTo_append, hrun]
    show (move? _ n _).getD 0 = target
    rw [hmove?]
    rfl

/-- A rule is completed after its symbols. -/
theorem parses_node {parts : List Phrase} (hrule : rule ∈ d.rules)
    (hsymbols : parts.map symbol = rule.symbols) (hparts : ∀ p ∈ parts, p.Derives d)
    (hparses : ∀ p ∈ parts, p.Parses d g) (hname : rule.name ≠ "empty")
    (hempty : rule.symbols ≠ ["empty"]) : (node rule parts).Parses d g := by
  intro p us ts n st i hat hus hi hnext hfollow
  have hcodes := codes h
  have hc := Tables.complete_states (regular h)
  obtain ⟨m, hm⟩ := List.mem_iff_getElem?.mp hrule
  have hinit := hc.mem_initial hat.state hi hnext
    ((mem_rulesOf_code hcodes (mem_symbols_of_name hrule)).mpr ⟨m, rule, rfl, hm, rfl⟩)
  have hf := hfollow (isNonterminal_name h hrule)
  have hleft : g.left (m + 1) = code g rule.name := hcodes.left m rule hm
  have hright : g.right (m + 1) = parts.map fun P => code g P.symbol := by
    rw [hcodes.right m rule hm, ← hsymbols, List.map_map]
    rfl
  have hknown : ∀ p ∈ parts, p.symbol ∈ d.symbols := fun p hp =>
    mem_symbols_of_mem hrule (hsymbols ▸ List.mem_map_of_mem hp)
  refine (parses_all h hat (Nat.succ_ne_zero m) hinit (hleft.symm ▸ hf) hparts hknown hparses hat hus
    hinit rfl hright (List.nil_append _).symm rfl rfl).bind ?_
  rintro q ⟨n', st', vs, j, hat', hj, hjrule, hjrest, hstack, hlength, hrun⟩
  obtain ⟨ns, cs, -, hpath⟩ := hat'.path
  have haction := action?_end h hpath hat'.state hm hat.state hinit hf hrun hj hjrest hjrule
    hname fun hblank => hempty hblank.2
  rw [symbol_node, ← hleft]
  exact hat'.reduce h hat hstack (Nat.succ_ne_zero m) hlength hinit haction

/-- Something is left out: `empty` is completed, and then the rule that says so. -/
theorem parses_blank (hrule : rule ∈ d.rules) (hsymbols : rule.symbols = ["empty"])
    (hd : E.Derives d) (hE : E.symbol = "empty") (hname : rule.name ≠ "statement") :
    (node rule [E]).Parses d g := by
  intro p us ts n st i hat hus hi hnext hfollow
  have hcodes := codes h
  have hc := Tables.complete_states (regular h)
  obtain ⟨nothing, hnothing, hempty, rfl⟩ := hd.of_empty hE
  obtain rfl : us = [] := List.map_eq_nil_iff.mp hus
  rw [List.nil_append] at hat
  obtain ⟨m, hm⟩ := List.mem_iff_getElem?.mp hrule
  obtain ⟨e, he⟩ := List.mem_iff_getElem?.mp hnothing
  have hinit := hc.mem_initial hat.state hi hnext
    ((mem_rulesOf_code hcodes (mem_symbols_of_name hrule)).mpr ⟨m, rule, rfl, hm, rfl⟩)
  have hf := hfollow (isNonterminal_name h hrule)
  have hright : g.right (m + 1) = [code g "empty"] := by
    rw [hcodes.right m rule hm, hsymbols]
    rfl
  have hnil : g.right (e + 1) = [] := by
    rw [hcodes.right e nothing he, symbols_of_empty hnothing hempty]
    rfl
  obtain ⟨ns, cs, -, hpath⟩ := hat.path
  obtain ⟨hinit', haction⟩ := action?_blank h hpath hat.state hm hinit hf hsymbols hname he hempty
  have hlength : ([] : List (Nat × Option Literal)).length = (g.right (e + 1)).length := by rw [hnil]; rfl
  refine (hat.reduce h hat (List.nil_append _).symm (Nat.succ_ne_zero e) hlength hinit' haction).bind ?_
  rintro q ⟨target, st', v, hmove, hstack, hat'⟩
  rw [hcodes.left e nothing he, hempty] at hmove
  -- the item of the rule is behind `empty` now
  obtain ⟨t, st'', hmove', hmove?, hst'', hj⟩ := hc.advance hat.state hinit hright
  obtain rfl := hc.move_inj hat.state hmove hmove'
  obtain rfl := Option.some.inj (hat'.state.symm.trans hst'')
  have hrun : runTo (Tables.build g).states n (g.right (m + 1)) = target := by
    rw [hright]
    show (move? _ n _).getD 0 = target
    rw [hmove?]
    rfl
  have hname' : rule.name ≠ "empty" := fun heq => by
    rw [symbols_of_empty hrule heq] at hsymbols
    cases hsymbols
  obtain ⟨ns', cs', -, hpath'⟩ := hat'.path
  have haction' := action?_end h hpath' hat'.state hm hat.state hinit hf hrun hj rfl rfl hname'
    fun hblank => hname hblank.1
  have hstack' : q.stack = [(target, v)] ++ p.stack := hstack
  rw [symbol_node, ← hcodes.left m rule hm]
  exact hat'.reduce h hat hstack' (Nat.succ_ne_zero m) (by rw [hright]; rfl) hinit haction'

theorem Pruned.parses (hd : P.Derives d) :
    P.Pruned → P.symbol ∈ d.symbols → P.symbol ≠ "empty" → P.Parses d g := by
  induction hd with
  | token v hs => exact fun _ hsymbol _ => parses_token h v hs hsymbol
  | @node rule parts hrule hsymbols hparts ih =>
    intro hpruned _ hname
    cases hpruned with
    | node hblank hpruned =>
      by_cases hempty : rule.symbols = ["empty"]
      · rw [hempty] at hsymbols
        obtain ⟨E, rest, rfl, hE, hrest⟩ := List.map_eq_cons_iff.mp hsymbols
        obtain rfl := List.map_eq_nil_iff.mp hrest
        exact parses_blank h hrule hempty (hparts E List.mem_cons_self) hE fun heq =>
          hblank ⟨heq, hempty⟩
      · refine parses_node h hrule hsymbols hparts (fun p hp => ?_) hname hempty
        have hmem : p.symbol ∈ rule.symbols := hsymbols ▸ List.mem_map_of_mem hp
        refine ih p hp (hpruned p hp) (mem_symbols_of_mem hrule hmem) fun heq => ?_
        exact hempty (eq_empty_of_mem hrule (heq ▸ hmem))

end Phrase

/-! ### Accepting -/

/-- Tokens of these kinds are derived from `program`. -/
def Dialect.Derivable (d : Dialect) (kinds : List String) : Prop :=
  ∃ P : Phrase, P.Derives d ∧ P.symbol = "program" ∧ P.kinds = kinds

/-- The parser comes to accept what is derived from `program`. -/
theorem Parsing.comesTo_accept {d : Dialect} {g : Rules} (h : d.coded = some g)
    {scanner : Scanner} {ts : List Token} (hs : scanner.Supplies ts)
    (hts : d.Derivable (ts.map (·.kind))) (c₀ : Compiler) :
    ComesTo d (.build g) (start scanner c₀) fun p => ∃ q, Ends d (.build g) p q none := by
  have hcodes := codes h
  have hlists := lists h
  have hc := Tables.complete_states hlists.regular
  obtain ⟨P₀, hd₀, hprogram₀, hkinds₀⟩ := hts
  obtain ⟨P, hd, hpruned, hsymbol, hyield⟩ := hd₀.exists_pruned.resolve_left fun hno => by
    rw [hprogram₀] at hno
    exact absurd hno.1 (by decide)
  have hprogram : P.symbol = "program" := hsymbol.trans hprogram₀
  have hkinds : ts.map (·.kind) = P.kinds := by rw [← hkinds₀, Phrase.kinds, Phrase.kinds, hyield]
  -- the first state has the item before `program`
  obtain ⟨st, hst⟩ := hc.first
  have hat : (start scanner c₀).At g 0 st (ts ++ []) :=
    ⟨⟨[], [], rfl, .start⟩, hst, by rw [List.append_nil]; exact .unread rfl hs⟩
  have hi : Item.initial g 0 ∈ st.items := by
    refine hc.mem_items_of_kernel hst ?_
    rw [(hc.sound.state 0 st hst).first rfl]
    exact List.mem_singleton_self _
  have hrest : (Item.initial g 0).rest = [code g P.symbol] := by
    rw [hprogram]
    exact hcodes.start
  have hstart : code g P.symbol = g.start :=
    (List.cons.inj (hrest.symm.trans hlists.regular.root)).1
  have hfollow : Follow g (Tables.build g).states (0, code g P.symbol)
      (headCode g []) := by
    refine ⟨_, .refl _, _, .refl _, mem_directReads.mpr (.inr ⟨?_, rfl⟩)⟩
    rw [hstart]
  refine (Phrase.Pruned.parses h hd hpruned (hprogram ▸ d.program_mem_symbols)
    (hprogram ▸ by decide) hat hkinds hi (congrArg List.head? hrest) fun _ => hfollow).bind ?_
  rintro q ⟨target, st', v, hmove, -, hat'⟩
  -- behind it the tables accept
  obtain ⟨t, st'', hmove', -, hst'', hj⟩ := hc.advance hst hi hrest
  obtain rfl := hc.move_inj hst hmove hmove'
  obtain rfl := Option.some.inj (hat'.state.symm.trans hst'')
  have haction := Tables.action?_accept hlists.regular (hlists.readsApart hc) hat'.state hj rfl rfl
  have hdefault : (Tables.build g).defaulted? target = none := by
    rcases hsome : (Tables.build g).defaulted? target with _ | r
    · rfl
    · cases (Tables.of_defaulted? hsome haction).1
  obtain ⟨q', hlook, hstack, -, -⟩ := hat'.faces.look
  refine .here ⟨q', .accepted (hat'.state_eq.symm ▸ hdefault) hlook ?_⟩
  rw [Parsing.state, hstack, ← Parsing.state, hat'.state_eq]
  exact haction

/-! ### All sequences of tokens -/

namespace Dialect

variable {d : Dialect} {k : String}

/-- A kind of token: a named one, or a single character. -/
def HasKind (d : Dialect) (k : String) : Prop := k ∈ d.kinds ∨ ∃ c, k = String.ofList [c]

theorem HasKind.ne_endName (h : d.HasKind k) : k ≠ endName := by
  rintro rfl
  rcases h with h | ⟨c, hc⟩
  · revert h
    cases d <;> decide +kernel
  · have hlist := congrArg String.toList hc
    rw [String.toList_ofList] at hlist
    have hlength : endName.toList.length = 1 := congrArg List.length hlist
    exact absurd hlength (by decide)

/-- There are tokens of every kind. -/
theorem exists_piece (h : d.HasKind k) : ∃ p v, d.tokenOf p = .ok (some (k, v)) := by
  have hreserved : ∀ e ∈ d.reserved, d.reserved.lookup e.1 = some e.2 := by
    cases d <;> decide +kernel
  have hoperators : ∀ e ∈ d.operators, d.operators.lookup e.1 = some e.2 := by
    cases d <;> decide +kernel
  have hfree : d.reserved.lookup "_" = none := by cases d <;> decide +kernel
  rcases h with h | ⟨c, rfl⟩
  · rcases List.mem_append.mp h with h | h
    · rcases List.mem_append.mp h with h | h
      · simp only [valueKinds, List.mem_cons, List.not_mem_nil, or_false] at h
        rcases h with rfl | rfl | rfl | rfl | rfl | rfl
        · refine ⟨⟨.word, "_".toList⟩, .text "_", ?_⟩
          rw [tokenOf, String.ofList_toList, hfree]
          rfl
        · exact ⟨⟨.integer, ['0']⟩, _, rfl⟩
        · exact ⟨⟨.real, ['0', '.', '0']⟩, _, rfl⟩
        · exact ⟨⟨.char, []⟩, _, rfl⟩
        · exact ⟨⟨.truth, []⟩, _, rfl⟩
        · exact ⟨⟨.string, []⟩, _, rfl⟩
      · obtain ⟨e, he, rfl⟩ := List.mem_map.mp h
        refine ⟨⟨.operator, e.1.toList⟩, .text e.1, ?_⟩
        rw [tokenOf, String.ofList_toList, hoperators e he]
        rfl
    · obtain ⟨e, he, rfl⟩ := List.mem_map.mp h
      refine ⟨⟨.word, e.1.toList⟩, .text e.1, ?_⟩
      rw [tokenOf, String.ofList_toList, hreserved e he]
      rfl
  · exact ⟨⟨.mark, [c]⟩, _, rfl⟩

/-- Every sequence of kinds is that of the tokens before some scanner. -/
theorem exists_scanner {kinds : List String} (h : ∀ k ∈ kinds, d.HasKind k) :
    ∃ scanner : Scanner, scanner.dialect = d ∧ scanner.Tidy ∧ scanner.all.2.2.1 = none ∧
      scanner.all.2.1.map (·.kind) = kinds := by
  suffices hpieces : ∃ pieces : List Piece,
      (∀ p ∈ pieces, ∀ k v, d.tokenOf p = .ok (some (k, v)) → k ≠ endName) ∧
      ∀ line position, (Scanner.all ⟨d, pieces, line, position⟩).2.2.1 = none ∧
        (Scanner.all ⟨d, pieces, line, position⟩).2.1.map (·.kind) = kinds by
    obtain ⟨pieces, htidy, hall⟩ := hpieces
    exact ⟨⟨d, pieces, 1, 0⟩, rfl, htidy, hall 1 0⟩
  induction kinds with
  | nil => exact ⟨[], by simp, fun _ _ => ⟨rfl, rfl⟩⟩
  | cons k kinds ih =>
    obtain ⟨pieces, htidy, hall⟩ := ih fun k hk => h k (List.mem_cons_of_mem _ hk)
    have hk := h k List.mem_cons_self
    obtain ⟨p, v, hp⟩ := exists_piece hk
    refine ⟨p :: pieces, List.forall_mem_cons.mpr ⟨fun k' v' hp' => ?_, htidy⟩, fun line position => ?_⟩
    · cases hp.symm.trans hp'
      exact hk.ne_endName
    · obtain ⟨hfault, hkinds⟩ := hall line (position + p.text.length)
      have hnext : Scanner.next ⟨d, p :: pieces, line, position⟩ = ([], .ok (some ⟨k, v, line, position⟩),
          ⟨d, pieces, line, position + p.text.length⟩) := by
        rw [Scanner.next, Scanner.scan]
        simp only [hp]
        rfl
      rw [Scanner.all, List.length_cons, Scanner.upTo, hnext]
      exact ⟨hfault, congrArg (k :: ·) hkinds⟩

end Dialect

/-- The parsers accept exactly their grammars.  Every sequence of kinds of tokens is before some
scanner.  Whatever tokens are before a scanner, and whatever the compiler did before: unless
the step of a rule that the parser completes fails, the parser accepts them if and only if
they are derived from `program` by the rules of the dialect. -/
theorem compile_accepts_iff (d : Dialect) :
    (∀ kinds : List String, (∀ k ∈ kinds, d.HasKind k) → ∃ scanner : Scanner, scanner.dialect = d ∧
      scanner.Tidy ∧ scanner.all.2.2.1 = none ∧ scanner.all.2.1.map (·.kind) = kinds) ∧
    ∀ (scanner : Scanner) (c₀ : Compiler), scanner.dialect = d → scanner.Tidy →
      scanner.all.2.2.1 = none →
      (∃ m n p, Parsing.Runs d d.tables (.start scanner c₀) m n p ∧ Parsing.Raises d d.tables p) ∨
      ((∃ p, compile scanner c₀ = (p, none)) ↔ d.Derivable (scanner.all.2.1.map (·.kind))) := by
  refine ⟨fun kinds h => Dialect.exists_scanner h, ?_⟩
  rintro scanner c₀ rfl hs hread
  obtain ⟨g, hg⟩ := scanner.dialect.exists_coded
  rw [Dialect.tables_eq_build hg]
  by_cases hraises : ∃ m n p, Parsing.Runs scanner.dialect (.build g) (.start scanner c₀) m n p ∧
      Parsing.Raises scanner.dialect (.build g) p
  · exact .inl hraises
  refine .inr ⟨?_, fun hts => ?_⟩
  · rintro ⟨p, hp⟩
    obtain ⟨P, value, c₁, hd, hprogram, -, -, hyield⟩ := compile_derives hs hp
    refine ⟨P, hd, hprogram, ?_⟩
    have hkinds := congrArg (List.map Prod.fst) hyield
    rw [List.map_map, List.map_map] at hkinds
    exact hkinds
  · obtain ⟨m, n, p, hrun, hno | ⟨q, hends⟩⟩ :=
      Parsing.comesTo_accept hg (Scanner.supplies_all hread) hts c₀
    · exact absurd ⟨m, n, p, hrun, hno⟩ hraises
    · exact ⟨q, hends.compile hs hg hrun⟩

/-- A program with a declaration, a function, a loop and a choice. -/
def loopedSource : String :=
  "Program p; var int x[2]; function int f(int n) \x7b return(n); \x7d main() \x7b while (true) do \x7b " ++
    "if (f(1) == 1) then \x7b break; \x7d else \x7b print(\"no\"); \x7d \x7d \x7d"

/-- The program is derived, so it is accepted unless a step fails; and tokens of three kinds of
the other dialect, in whatever order, are before some scanner. -/
theorem loopedSource_accepts_iff :
    (∃ scanner : Scanner, scanner.dialect = .goose ∧ scanner.Tidy ∧ scanner.all.2.2.1 = none ∧
      scanner.all.2.1.map (·.kind) = ["?", "CTE_FLOAT", "UNTITLED"]) ∧
    Dialect.plain.Derivable ((Scanner.ofSource .plain 1 loopedSource).all.2.1.map (·.kind)) ∧
    ((∃ m n p, Parsing.Runs .plain Dialect.plain.tables
        (.start (.ofSource .plain 1 loopedSource) (.start false "")) m n p ∧
        Parsing.Raises .plain Dialect.plain.tables p) ∨
      ∃ p, compile (.ofSource .plain 1 loopedSource) (.start false "") = (p, none)) := by
  have hkinds : ∀ k ∈ ["?", "CTE_FLOAT", "UNTITLED"], Dialect.goose.HasKind k := by
    simp only [List.forall_mem_cons, List.not_mem_nil, false_implies, implies_true, and_true]
    exact ⟨.inr ⟨'?', rfl⟩, .inl (by decide +kernel), .inl (by decide +kernel)⟩
  have hderivable : Dialect.plain.Derivable
      ((Scanner.ofSource .plain 1 loopedSource).all.2.1.map (·.kind)) :=
    ⟨Phrase.loopedCall, Phrase.derives_loopedCall, Phrase.symbol_loopedCall, by decide +kernel⟩
  refine ⟨(compile_accepts_iff .goose).1 _ hkinds, hderivable, ?_⟩
  exact ((compile_accepts_iff .plain).2 (.ofSource .plain 1 loopedSource) (.start false "") rfl
    (Scanner.tidy_ofSource .plain 1 _) (by decide +kernel)).imp_right fun hiff => hiff.mpr hderivable

end QuadLang
