/-
The coded grammars of the dialects are regular.

The names of rules are nonterminals and everything else that stands in a rule is a terminal;
no precedences are declared; and of two rules the one that is written first has the smaller
line.

* `Dialect.regular` — what the theory of tables asks of a grammar holds of those of the
  dialects;
* `Dialect.isTerminal_eq` — a symbol of a rule is a terminal or a nonterminal;
* `Dialect.line_code` — rules are numbered as they are written.
-/
import QuadLang.Proofs.Coding
import QuadLang.Proofs.Decisions

namespace QuadLang.Dialect

open Spelling Lalr

variable {d : Dialect} {g : Lalr.Rules} {r : DialectRule} {s : String}

/-- The parts of the coded rules, in terms of the grammar that they code. -/
structure CodesOf (d : Dialect) (m : Grammar) (g : Lalr.Rules) : Prop where
  made : Grammar.Made d.kinds d.rules m
  terminals : g.terminals = m.terminals.map fun e => g.names.idxOf e.1
  nonterminals : ∀ c, c ∈ g.nonterminals ↔ ∃ s ∈ m.nonterminals.map (·.1), c = g.names.idxOf s
  precedence : g.precedence = []
  root : g.rules[0]?.map (·.precedence) = some .default
  top : g.left 0 = g.names.idxOf startName
  dot : g.dot = g.names.idxOf "."
  rules : ∀ n, g.rules[n + 1]?.map (fun r => (r.precedence, r.line)) =
    m.rules[n]?.map fun p => (p.precedence, p.line)

theorem exists_codesOf (h : d.coded = some g) : ∃ m, CodesOf d m g := by
  obtain ⟨m, uses, hmade, hgrammar⟩ := d.exists_grammar
  rw [coded, hgrammar, Rules.ofGrammar?] at h
  simp only [Option.map_some, Option.some.injEq] at h
  obtain ⟨names, hnames⟩ : ∃ names, names = (m.terminals.map (·.1) ++
    (m.nonterminals.put "program" uses).map (·.1) ++ [endName, ".", startName]).eraseDups := ⟨_, rfl⟩
  rw [← hnames] at h
  have hcode : ∀ k, g.names.idxOf k = Rules.code names k := by
    intro k
    rw [← h, List.idxOf_toArray]
    rfl
  refine ⟨m, hmade, ?_, ?_, ?_, ?_, ?_, ?_, ?_⟩
  · rw [← h]
    simp only [List.idxOf_toArray]
    rfl
  · intro c
    have hput : ∀ s, s ∈ (m.nonterminals.put "program" uses).map (·.1) ↔
        s ∈ m.nonterminals.map (·.1) := by
      intro s
      refine ⟨fun hs => ?_, fun hs => Table.mem_put.mpr (.inl hs)⟩
      rcases Table.mem_put.mp hs with hs | rfl
      · exact hs
      · -- the start symbol was a nonterminal before it was chosen
        obtain ⟨r, hr, hname⟩ : ∃ r ∈ d.rules, r.name = "program" := by
          cases d <;> exact ⟨_, List.mem_cons_self, rfl⟩
        exact hname ▸ hmade.names r hr
    have hlist : g.nonterminals =
        ((m.nonterminals.put "program" uses).map (·.1)).map (Rules.code names) := by
      rw [← h, List.map_map]
      rfl
    rw [hlist, List.mem_map]
    simp only [hput, hcode, eq_comm]
  · rw [← h]
    simp [hmade.precedence]
  · rw [← h]
    simp
  · rw [hcode, ← h]
    simp [Rules.left]
  · rw [hcode, ← h]
  · intro n
    rw [← h]
    simp [Function.comp_def]

theorem isTerminal_iff {m : Grammar} (hc : Codes d g) (h : CodesOf d m g) (hs : s ∈ d.symbols) :
    g.isTerminal (code g s) = true ↔ kindOf s ∈ m.terminals.map (·.1) := by
  rw [Rules.isTerminal, List.contains_iff_mem, h.terminals, List.mem_map, List.mem_map]
  constructor
  · rintro ⟨e, he, heq⟩
    exact ⟨e, he, hc.kind s hs e.1 heq⟩
  · rintro ⟨e, he, heq⟩
    exact ⟨e, he, by rw [heq]; rfl⟩

theorem isNonterminal_iff {m : Grammar} (hc : Codes d g) (h : CodesOf d m g) (hs : s ∈ d.symbols) :
    g.isNonterminal (code g s) = true ↔ kindOf s ∈ m.nonterminals.map (·.1) := by
  rw [Rules.isNonterminal, List.contains_iff_mem, h.nonterminals]
  constructor
  · rintro ⟨t, ht, heq⟩
    exact hc.kind s hs t heq.symm ▸ ht
  · exact fun hmem => ⟨_, hmem, rfl⟩

theorem mem_symbols_of_name (hr : r ∈ d.rules) : r.name ∈ d.symbols :=
  List.mem_flatMap.mpr ⟨r, hr, List.mem_cons_self⟩

theorem mem_symbols_of_mem (hr : r ∈ d.rules) (hs : s ∈ r.symbols) :
    s ∈ d.symbols :=
  List.mem_flatMap.mpr ⟨r, hr, List.mem_cons_of_mem _ hs⟩

section

variable (h : d.coded = some g)
include h

theorem isTerminal_eq (hs : s ∈ d.symbols) :
    g.isTerminal (code g s) = !g.isNonterminal (code g s) := by
  have hc := codes h
  obtain ⟨m, hm⟩ := exists_codesOf h
  have hknows : m.Knows (kindOf s) := by
    obtain ⟨r, hr, hs⟩ := List.mem_flatMap.mp hs
    rcases List.mem_cons.mp hs with rfl | hs
    · rw [kindOf_of_isWord (fit_of_mem hr).name]
      exact .inr (hm.made.names r hr)
    · exact hm.made.symbols r hr s hs
  rw [Bool.eq_not]
  rcases hknows with hmem | hmem
  · have hnot : ¬g.isNonterminal (code g s) = true := fun hn =>
      (hm.made.apart _ ((isNonterminal_iff hc hm hs).mp hn)).2 hmem
    rw [(isTerminal_iff hc hm hs).mpr hmem]
    exact fun heq => hnot heq.symm
  · have hnot : ¬g.isTerminal (code g s) = true := fun ht =>
      (hm.made.apart _ hmem).2 ((isTerminal_iff hc hm hs).mp ht)
    rw [(isNonterminal_iff hc hm hs).mpr hmem]
    exact hnot

theorem isNonterminal_name (hr : r ∈ d.rules) : g.isNonterminal (code g r.name) = true := by
  obtain ⟨m, hm⟩ := exists_codesOf h
  refine (isNonterminal_iff (codes h) hm (mem_symbols_of_name hr)).mpr ?_
  rw [kindOf_of_isWord (fit_of_mem hr).name]
  exact hm.made.names r hr

/-- The left side of the start rule is in no rule. -/
theorem left_zero_not_mem {r : Nat} (hr : r < g.rules.size) : g.left 0 ∉ g.right r := by
  have hc := codes h
  obtain ⟨m, hm⟩ := exists_codesOf h
  intro hmem
  obtain ⟨s, hs, hcode⟩ := hc.of_mem_right (fun _ => hr) hmem
  have hkind : startName = kindOf s := hc.kind s hs startName (hm.top.symm.trans hcode)
  rcases spelled_of_mem_symbols hs with hword | ⟨c, hquoted⟩
  · rw [← kindOf_of_isWord hword, ← hkind] at hword
    exact absurd hword (by decide)
  · rw [kindOf_of_quoted hquoted] at hkind
    have hlength := congrArg (fun s : String => s.toList.length) hkind
    simp [startName] at hlength

/-- The mark of the place in an item is no symbol of a rule that is a word. -/
theorem code_ne_dot (hs : s ∈ d.symbols) (hword : isWord s.toList = true) : code g s ≠ g.dot := by
  intro heq
  obtain ⟨m, hm⟩ := exists_codesOf h
  have hkind : "." = kindOf s := (codes h).kind s hs "." (hm.dot.symm.trans heq.symm)
  rw [kindOf_of_isWord hword] at hkind
  rw [← hkind] at hword
  exact absurd hword (by decide)

theorem line_code {n : Nat} (hn : n < d.rules.length) : g.line (n + 1) = (n : Int) + 1 := by
  obtain ⟨m, hm⟩ := exists_codesOf h
  have hlines := congrArg (·[n]?) hm.made.lines
  simp only [List.getElem?_map, List.getElem?_range hn, Option.map_some] at hlines
  have hrule := hm.rules n
  rw [Rules.line]
  rcases hget : g.rules[n + 1]? with _ | r
  · rw [hget] at hrule
    rcases hm' : m.rules[n]? with _ | p
    · rw [hm'] at hlines
      cases hlines
    · rw [hm'] at hrule
      cases hrule
  · rw [hget] at hrule
    obtain ⟨p, hp, hline⟩ := Option.map_eq_some_iff.mp hlines
    rw [hp, Option.map_some, Option.map_some, Option.some.injEq, Prod.mk.injEq] at hrule
    exact hrule.2.trans hline

end

/-- The check that no rule has the start symbol on its right side. -/
def startsApart (d : Dialect) : Bool :=
  d.rules.all fun r => r.symbols.all fun s => Text.key s != Text.key "program"

theorem startsApart_eq_true (d : Dialect) : d.startsApart = true := by
  cases d <;> decide +kernel

theorem exists_rule (hc : Codes d g) {r : Nat} (hr : r ≠ 0) (hlt : r < g.rules.size) :
    ∃ n rule, r = n + 1 ∧ d.rules[n]? = some rule := by
  obtain ⟨n, rfl⟩ := Nat.exists_eq_succ_of_ne_zero hr
  rw [hc.size] at hlt
  exact ⟨n, _, rfl, List.getElem?_eq_getElem (by omega)⟩

theorem regular (h : d.coded = some g) : g.Regular := by
  have hc := codes h
  obtain ⟨m, hm⟩ := exists_codesOf h
  have hstart : g.start = code g "program" := by rw [Rules.start, hc.start]; rfl
  refine ⟨by rw [hc.size]; omega, by rw [hc.start, hstart], ?_, ⟨?_, ?_⟩, ?_, ?_⟩
  · intro r hr hlt hmem
    obtain ⟨n, rule, rfl, hrule⟩ := exists_rule hc hr hlt
    have hrule' := List.mem_of_getElem? hrule
    rw [hc.right n rule hrule, hstart] at hmem
    obtain ⟨s, hs, heq⟩ := List.mem_map.mp hmem
    have hs' := code_inj hc (mem_symbols_of_mem hrule' hs) d.program_mem_symbols heq
    have hall := List.all_eq_true.mp (List.all_eq_true.mp d.startsApart_eq_true rule hrule') s hs
    rw [hs'] at hall
    simp at hall
  · intro r
    rcases r with _ | n
    · obtain ⟨rule, hrule, hrank⟩ := Option.map_eq_some_iff.mp hm.root
      rw [Rules.rulePrecedence, hrule]
      exact hrank
    · rw [Rules.rulePrecedence]
      have hrule := hm.rules n
      rcases hget : g.rules[n + 1]? with _ | r
      · rfl
      · rw [hget] at hrule
        obtain ⟨p, hp, heq⟩ := Option.map_eq_some_iff.mp hrule.symm
        rw [Prod.mk.injEq] at heq
        exact heq.1.symm.trans (hm.made.ranks p (List.mem_of_getElem? hp))
  · intro s
    rw [Rules.tokenPrecedence, hm.precedence]
    rfl
  · intro r hr hlt
    obtain ⟨n, rule, rfl, hrule⟩ := exists_rule hc hr hlt
    rw [hc.left n rule hrule]
    exact isNonterminal_name h (List.mem_of_getElem? hrule)
  · intro r hlt s hs
    obtain ⟨t, ht, rfl⟩ := hc.of_mem_right (fun _ => hlt) hs
    exact isTerminal_eq h ht

end QuadLang.Dialect
