/-
The coded rules of the dialects.

A parser knows symbols by their codes.  The rules of a dialect are written with names, and
with characters in quotes for the tokens that are single characters; reading them takes the
quotes off, so a token of kind `+` fits where a rule says `'+'`.

* `Grammar.Made` — what holds of a grammar after some rules have been added to it: none
  was refused, so each has the number of its place in the list;
* `Dialect.codes` — the rules that the parser uses are those of the dialect, symbol for
  symbol, and different symbols have different codes.

Design notes: the side conditions on spelling are checked on the bytes of the names, and
that no rule is written twice is checked on numbers made from them.
-/
import QuadLang.Dialect.Rules
import QuadLang.Proofs.Automaton

namespace QuadLang

open Lalr

variable {c : Char} {k s t : String} {r : DialectRule}

/-! ### Texts and their bytes -/

namespace Text

/-- The bytes of a text. -/
def bytes (s : String) : List UInt8 := s.toByteArray.data.toList

/-- The character of a byte. -/
def charOf (b : UInt8) : Char := Char.ofNat b.toNat

theorem bytes_ofList (cs : List Char) :
    bytes (String.ofList cs) = cs.flatMap String.utf8EncodeChar := by
  rw [bytes, String.toByteArray_ofList, List.utf8Encode, List.toList_data_toByteArray]

/-- A character whose bytes are all small is its only byte. -/
theorem utf8EncodeChar_of_lt (h : ∀ b ∈ String.utf8EncodeChar c, b.toNat < 128) :
    (String.utf8EncodeChar c).map charOf = [c] := by
  by_cases hc : c.val.toNat ≤ 127
  · have hlt : c.val.toNat < 256 := by omega
    simp only [String.utf8EncodeChar, if_pos hc, List.map_cons, List.map_nil, charOf,
      UInt8.toNat_ofNat', Nat.mod_eq_of_lt hlt]
    exact congrArg (fun c => [c]) (Char.ofNat_toNat c)
  · -- the first of several bytes is large
    have hlarge : ∃ b ∈ String.utf8EncodeChar c, 128 ≤ b.toNat := by
      simp only [String.utf8EncodeChar, if_neg hc]
      split_ifs <;> exact ⟨_, List.mem_cons_self, by simp only [UInt8.toNat_ofNat']; omega⟩
    obtain ⟨b, hb, hle⟩ := hlarge
    exact absurd (h b hb) (by omega)

/-- The characters of a text of small bytes. -/
theorem toList_eq_map_bytes (h : ∀ b ∈ bytes s, b.toNat < 128) :
    s.toList = (bytes s).map charOf := by
  have hchars : ∀ cs : List Char, (∀ b ∈ cs.flatMap String.utf8EncodeChar, b.toNat < 128) →
      cs = (cs.flatMap String.utf8EncodeChar).map charOf := by
    intro cs
    induction cs with
    | nil => exact fun _ => rfl
    | cons c cs ih =>
      intro hcs
      rw [List.flatMap_cons] at hcs ⊢
      have hc := utf8EncodeChar_of_lt fun b hb => hcs b (List.mem_append_left _ hb)
      have hrest := ih fun b hb => hcs b (List.mem_append_right _ hb)
      rw [List.map_append, hc, ← hrest]
      rfl
  have hbytes : bytes s = s.toList.flatMap String.utf8EncodeChar := by
    rw [← bytes_ofList, String.ofList_toList]
  rw [hbytes] at h ⊢
  exact hchars s.toList h

/-- A number made from the bytes of a text. -/
def key (s : String) : Nat := (bytes s).foldl (fun n b => 256 * n + b.toNat) 1

end Text

/-! ### How symbols are written -/

namespace Spelling

variable {cs : List Char}

/-- A word: a letter, then letters, digits and underscores. -/
def isWord : List Char → Bool
  | [] => false
  | c :: cs => c.isAlpha && cs.all fun c => c.isAlphanum || c == '_'

/-- The character that is written in quotes; letters never are. -/
def quoted? : List Char → Option Char
  | [q, c, q'] =>
    if q == '\'' && q' == '\'' && !(c.isAlpha || c == '\'' || c == '\\' || c == '\n') then some c
    else none
  | _ => none

/-- The kind of token, or the name, that a symbol of a rule stands for. -/
def kindOf (s : String) : String :=
  match quoted? s.toList with
  | some c => String.ofList [c]
  | none => s

/-- A symbol is a word or a character in quotes. -/
def Spelled (s : String) : Prop := isWord s.toList = true ∨ ∃ c, quoted? s.toList = some c

theorem quoted?_eq_some (h : quoted? cs = some c) :
    cs = ['\'', c, '\''] ∧ c.isAlpha = false ∧ c ≠ '\'' ∧ c ≠ '\\' ∧ c ≠ '\n' := by
  rcases cs with _ | ⟨q, _ | ⟨x, _ | ⟨q', _ | _⟩⟩⟩ <;> simp only [quoted?, reduceCtorEq] at h
  split at h
  · next hcond =>
    cases h
    simp only [Bool.and_eq_true, beq_iff_eq, Bool.not_eq_true', Bool.or_eq_false_iff,
      beq_eq_false_iff_ne] at hcond
    obtain ⟨⟨rfl, rfl⟩, ⟨⟨halpha, hq⟩, hb⟩, hn⟩ := hcond
    exact ⟨rfl, halpha, hq, hb, hn⟩
  · cases h

theorem quoted?_of_isWord (h : isWord cs = true) : quoted? cs = none := by
  rcases hq : quoted? cs with _ | c
  · rfl
  · rw [(quoted?_eq_some hq).1] at h
    exact absurd h (by simp [isWord])

theorem kindOf_of_isWord (h : isWord s.toList = true) : kindOf s = s := by
  rw [kindOf, quoted?_of_isWord h]

theorem kindOf_of_quoted (h : quoted? s.toList = some c) :
    kindOf s = String.ofList [c] := by
  rw [kindOf, h]

/-- A word is not a single character that may stand in quotes. -/
theorem ne_ofList_of_isWord (h : isWord s.toList = true) (hc : c.isAlpha = false) :
    s ≠ String.ofList [c] := by
  rintro rfl
  rw [String.toList_ofList, isWord, hc] at h
  cases h

/-- Different symbols stand for different kinds. -/
theorem kindOf_inj (hs : Spelled s) (ht : Spelled t) (h : kindOf s = kindOf t) : s = t := by
  rcases hs with hs | ⟨c, hs⟩ <;> rcases ht with ht | ⟨c', ht⟩
  · rwa [kindOf_of_isWord hs, kindOf_of_isWord ht] at h
  · rw [kindOf_of_isWord hs, kindOf_of_quoted ht] at h
    exact absurd h (ne_ofList_of_isWord hs (quoted?_eq_some ht).2.1)
  · rw [kindOf_of_quoted hs, kindOf_of_isWord ht] at h
    exact absurd h.symm (ne_ofList_of_isWord ht (quoted?_eq_some hs).2.1)
  · rw [kindOf_of_quoted hs, kindOf_of_quoted ht] at h
    have hc : c = c' := by simpa using congrArg String.toList h
    rw [← String.toList_inj, (quoted?_eq_some hs).1, (quoted?_eq_some ht).1, hc]

theorem isSymbolName_of_isWord (h : isWord s.toList = true) :
    isSymbolName s = true := by
  rcases hcs : s.toList with _ | ⟨c, cs⟩ <;> rw [hcs] at h
  · cases h
  simp only [isWord, Bool.and_eq_true, List.all_eq_true, Bool.or_eq_true, beq_iff_eq] at h
  have hall : ∀ x ∈ c :: cs, x.isAlphanum = true ∨ x = '_' := by
    intro x hx
    rcases List.mem_cons.mp hx with rfl | hx
    · exact .inl (by simp [Char.isAlphanum, h.1])
    · exact h.2 x hx
  have hlast : ((c :: cs).getLast? == some '\n') = false := by
    rw [beq_eq_false_iff_ne]
    intro heq
    rcases hall _ (List.mem_of_getLast? heq) with hn | hn
    · exact absurd hn (by decide)
    · exact absurd hn (by decide)
  simp only [isSymbolName, hcs, hlast, Bool.false_eq_true, if_false, List.isEmpty_cons,
    Bool.not_false, Bool.true_and, List.all_eq_true, Bool.or_eq_true, beq_iff_eq]
  exact fun x hx => .inl (hall x hx)

/-- A character in quotes reads as itself. -/
theorem readLiteral_of_quoted (h : quoted? s.toList = some c) :
    Text.readLiteral s = some (String.ofList [c]) := by
  obtain ⟨hcs, -, hq, hb, hn⟩ := quoted?_eq_some h
  have hone : Text.readOne ['\'', c, '\''] = some ([c], []) := by
    have hcq : (c == '\'') = false := beq_false_of_ne hq
    have hcn : (c == '\n') = false := beq_false_of_ne hn
    have hlast : Text.readContents '\'' false 2 ['\''] = some ([], []) := by simp [Text.readContents]
    simp only [Text.readOne, beq_self_eq_true, Bool.true_or, if_true, hcq, Bool.false_and,
      Bool.false_eq_true, if_false, List.length_nil, Nat.zero_add]
    rw [Text.readContents]
    · simp [hcq, hcn, hlast]
    · exact hb
    · intro c₁ c₂ rest heq
      cases heq
  have hlen : s.length = 3 := by rw [← String.length_toList, hcs]; rfl
  rw [Text.readLiteral, hcs, hlen, Text.readAll, hone]
  rfl

end Spelling

open Spelling

/-! ### Adding rules to a grammar -/

namespace Table

variable {α : Type} {t : Table α}

theorem has_iff : t.has k = true ↔ k ∈ t.map (·.1) := by
  simp [has]

theorem map_fst_put (t : Table α) (k : String) (v : α) :
    (t.put k v).map (·.1) = if t.has k then t.map (·.1) else t.map (·.1) ++ [k] := by
  rw [put]
  split
  · rw [List.map_map]
    refine List.map_congr_left fun e _ => ?_
    by_cases he : e.1 = k <;> simp [he]
  · simp

theorem mem_put {x : String} {v : α} : x ∈ (t.put k v).map (·.1) ↔ x ∈ t.map (·.1) ∨ x = k := by
  rw [map_fst_put]
  split
  · next h =>
    refine ⟨.inl, ?_⟩
    rintro (hx | rfl)
    · exact hx
    · exact has_iff.mp h
  · simp

/-- An entry that is there is found. -/
theorem get?_of_mem (h : k ∈ t.map (·.1)) : ∃ v, t.get? k = some v := by
  obtain ⟨e, he, rfl⟩ := List.mem_map.mp h
  exact Option.isSome_iff_exists.mp (List.lookup_isSome_iff.mpr ⟨e, he, beq_self_eq_true _⟩)

end Table

namespace Grammar

variable (number : Nat)

/-- A single character that is no letter, as a name. -/
def IsMark (s : String) : Prop := ∃ c : Char, c.isAlpha = false ∧ s = String.ofList [c]

/-- From `g` to `g'` only single characters become terminals. -/
structure Reads (g g' : Grammar) : Prop where
  rules : g'.rules = g.rules
  nonterminals : g'.nonterminals = g.nonterminals
  terminals : ∀ s ∈ g'.terminals.map (·.1), s ∈ g.terminals.map (·.1) ∨ IsMark s
  mono : ∀ s ∈ g.terminals.map (·.1), s ∈ g'.terminals.map (·.1)
  precedence : g'.precedence = g.precedence

/-- Symbols that are spelled well are read, with the quotes taken off. -/
theorem readSymbols_eq (file : String) (line : Int) (name : String) {symbols : List String}
    (hspelled : ∀ s ∈ symbols, Spelled s) (g : Grammar) :
      ∃ g', g.readSymbols file line name symbols = (g', .ok (symbols.map kindOf)) ∧ Reads g g' ∧
        ∀ s ∈ symbols, isWord s.toList = true ∨ kindOf s ∈ g'.terminals.map (·.1) := by
  induction symbols generalizing g with
  | nil =>
    exact ⟨g, rfl, ⟨rfl, rfl, fun s hs => .inl hs, fun s hs => hs, rfl⟩, fun s hs => by cases hs⟩
  | cons s symbols ih =>
    have hrest := ih fun t ht => hspelled t (List.mem_cons_of_mem _ ht)
    rcases hspelled s List.mem_cons_self with hs | ⟨c, hs⟩
    · -- a word stays as it is
      obtain ⟨g', hg', hreads, hkinds⟩ := hrest g
      refine ⟨g', ?_, hreads, List.forall_mem_cons.mpr ⟨.inl hs, hkinds⟩⟩
      rcases hcs : s.toList with _ | ⟨c, cs⟩
      · rw [hcs] at hs
        cases hs
      have hquote : (c == '\'' || c == '"') = false := by
        rw [hcs, isWord, Bool.and_eq_true] at hs
        by_contra hc
        simp only [Bool.not_eq_false, Bool.or_eq_true, beq_iff_eq] at hc
        rcases hc with rfl | rfl
        · exact absurd hs.1 (by decide)
        · exact absurd hs.1 (by decide)
      rw [readSymbols, hcs]
      simp only [List.head?_cons, hquote, Bool.false_eq_true, if_false, isSymbolName_of_isWord hs,
        Bool.not_true, Bool.false_and, hg', List.map_cons, kindOf_of_isWord hs]
      rfl
    · -- a character in quotes becomes a terminal
      obtain ⟨hcs, hc, -⟩ := quoted?_eq_some hs
      have hlength : ¬ (String.ofList [c]).length > 1 := by simp
      obtain ⟨g', hg', hreads, hkinds⟩ := hrest (if g.isTerminal (String.ofList [c]) then g
        else { g with terminals := g.terminals.put (String.ofList [c]) [] })
      refine ⟨g', ?_, ?_, List.forall_mem_cons.mpr ⟨.inr (hreads.mono _ ?_), hkinds⟩⟩
      · rw [readSymbols, hcs]
        simp only [List.head?_cons, beq_self_eq_true, Bool.true_or, if_true,
          readLiteral_of_quoted hs, if_neg hlength, hg', List.map_cons, kindOf_of_quoted hs]
        rfl
      · by_cases ht : g.isTerminal (String.ofList [c]) = true
        · rwa [if_pos ht] at hreads
        · rw [if_neg ht] at hreads
          refine ⟨hreads.rules, hreads.nonterminals, ?_, ?_, hreads.precedence⟩
          · intro x hx
            rcases hreads.terminals x hx with hx | hx
            · rcases Table.mem_put.mp hx with hx | rfl
              · exact .inl hx
              · exact .inr ⟨c, hc, rfl⟩
            · exact .inr hx
          · exact fun x hx => hreads.mono x (Table.mem_put.mpr (.inl hx))
      · rw [kindOf_of_quoted hs]
        by_cases ht : g.isTerminal (String.ofList [c]) = true
        · rw [if_pos ht]
          exact Table.has_iff.mp ht
        · rw [if_neg ht]
          exact Table.mem_put.mpr (.inr rfl)

/-- A name is a symbol of the grammar. -/
def Knows (g : Grammar) (s : String) : Prop :=
  s ∈ g.terminals.map (·.1) ∨ s ∈ g.nonterminals.map (·.1)

/-- From `g` to `g'` only nonterminals are added. -/
structure Notes (g g' : Grammar) : Prop where
  rules : g'.rules = g.rules
  terminals : g'.terminals.map (·.1) = g.terminals.map (·.1)
  mono : ∀ s ∈ g.nonterminals.map (·.1), s ∈ g'.nonterminals.map (·.1)
  precedence : g'.precedence = g.precedence

theorem Notes.knows {g g' : Grammar} (h : Notes g g') (hs : g.Knows s) :
    g'.Knows s := by
  rcases hs with hs | hs
  · exact .inl (h.terminals ▸ hs)
  · exact .inr (h.mono s hs)

theorem notes_noteUse (g : Grammar) (s : String) :
    Notes g (noteUse number g s) ∧ (noteUse number g s).Knows s ∧
      ∀ x ∈ (noteUse number g s).nonterminals.map (·.1), x ∈ g.nonterminals.map (·.1) ∨
        x = s ∧ s ∉ g.terminals.map (·.1) := by
  rw [noteUse]
  by_cases ht : g.isTerminal s = true
  · rw [if_pos ht]
    refine ⟨⟨rfl, ?_, fun x hx => hx, rfl⟩, .inl (Table.mem_put.mpr (.inr rfl)), fun x hx => .inl hx⟩
    exact (Table.map_fst_put _ _ _).trans (if_pos ht)
  · rw [if_neg ht]
    refine ⟨⟨rfl, rfl, fun x hx => Table.mem_put.mpr (.inl hx), rfl⟩,
      .inr (Table.mem_put.mpr (.inr rfl)), fun x hx => ?_⟩
    rcases Table.mem_put.mp hx with hx | rfl
    · exact .inl hx
    · exact .inr ⟨rfl, fun h => ht (Table.has_iff.mpr h)⟩

theorem Notes.trans {g g' g'' : Grammar} (h : Notes g g') (h' : Notes g' g'') : Notes g g'' :=
  ⟨h'.rules.trans h.rules, h'.terminals.trans h.terminals, fun s hs => h'.mono s (h.mono s hs),
    h'.precedence.trans h.precedence⟩

theorem notes_name (g : Grammar) (name : String) :
    Notes g (if g.isNonterminal name then g
      else { g with nonterminals := g.nonterminals ++ [(name, [])] }) ∧
    name ∈ (if g.isNonterminal name then g
      else { g with nonterminals := g.nonterminals ++ [(name, [])] }).nonterminals.map (·.1) ∧
    ∀ x ∈ (if g.isNonterminal name then g
      else { g with nonterminals := g.nonterminals ++ [(name, [])] }).nonterminals.map (·.1),
      x ∈ g.nonterminals.map (·.1) ∨ x = name := by
  by_cases hn : g.isNonterminal name = true
  · rw [if_pos hn]
    exact ⟨⟨rfl, rfl, fun s hs => hs, rfl⟩, Table.has_iff.mp hn, fun x hx => .inl hx⟩
  · rw [if_neg hn]
    refine ⟨⟨rfl, rfl, fun s hs => ?_, rfl⟩, ?_, fun x hx => ?_⟩
    · exact List.map_append ▸ List.mem_append_left _ hs
    · exact List.map_append ▸ List.mem_append_right _ List.mem_cons_self
    · rcases List.mem_append.mp (List.map_append ▸ hx) with hx | hx
      · exact .inl hx
      · exact .inr (List.mem_singleton.mp hx)

theorem notes_foldl (symbols : List String) (g : Grammar) :
    Notes g (symbols.foldl (noteUse number) g) ∧
      (∀ s ∈ symbols, (symbols.foldl (noteUse number) g).Knows s) ∧
      ∀ x ∈ (symbols.foldl (noteUse number) g).nonterminals.map (·.1), x ∈ g.nonterminals.map (·.1) ∨
        x ∈ symbols ∧ x ∉ g.terminals.map (·.1) := by
  induction symbols generalizing g with
  | nil =>
    exact ⟨⟨rfl, rfl, fun s hs => hs, rfl⟩, fun s hs => absurd hs List.not_mem_nil,
      fun x hx => .inl hx⟩
  | cons s symbols ih =>
    obtain ⟨hs, hknows, hnew⟩ := notes_noteUse number g s
    obtain ⟨hrest, hall, hnew'⟩ := ih (noteUse number g s)
    refine ⟨hs.trans hrest, ?_, ?_⟩
    · intro x hx
      rcases List.mem_cons.mp hx with rfl | hx
      · exact hrest.knows hknows
      · exact hall x hx
    · intro x hx
      rcases hnew' x hx with hx | ⟨hx, hnot⟩
      · rcases hnew x hx with hx | ⟨rfl, hnot⟩
        · exact .inl hx
        · exact .inr ⟨List.mem_cons_self, hnot⟩
      · exact .inr ⟨List.mem_cons_of_mem _ hx, fun h => hnot (hs.terminals ▸ h)⟩

/-- What holds of a grammar over some kinds of tokens after rules have been added to it: all
were accepted. -/
structure Made (kinds : List String) (rs : List DialectRule) (g : Grammar) : Prop where
  rules : g.rules.map (fun p => (p.name, p.symbols)) =
    rs.map fun r => (r.name, r.symbols.map kindOf)
  terminals : ∀ s ∈ g.terminals.map (·.1), s ∈ kinds ∨ s = errorName ∨ IsMark s
  kinds : ∀ s ∈ kinds, s ∈ g.terminals.map (·.1)
  names : ∀ r ∈ rs, r.name ∈ g.nonterminals.map (·.1)
  symbols : ∀ r ∈ rs, ∀ s ∈ r.symbols, g.Knows (kindOf s)
  /-- The nonterminals are words that are no terminals. -/
  apart : ∀ s ∈ g.nonterminals.map (·.1), isWord s.toList = true ∧ s ∉ g.terminals.map (·.1)
  precedence : g.precedence = []
  ranks : ∀ p ∈ g.rules, p.precedence = .default
  lines : g.rules.map (·.line) = (List.range rs.length).map fun n : Nat => (n : Int) + 1

/-- A rule that can be added: its name is a word of its own, and its symbols are spelled
well. -/
structure Fit (kinds : List String) (r : DialectRule) : Prop where
  name : isWord r.name.toList = true
  fresh : r.name ∉ kinds ∧ r.name ≠ errorName
  symbols : ∀ s ∈ r.symbols, Spelled s

variable {kinds : List String} {rs : List DialectRule} {g : Grammar}

theorem precMark_not_mem {symbols : List String} (h : ∀ s ∈ symbols, Spelled s) :
    (symbols.map kindOf).contains precMark = false := by
  rw [Bool.eq_false_iff]
  intro hmem
  obtain ⟨s, hs, hk⟩ := List.mem_map.mp (List.contains_iff_mem.mp hmem)
  have hlist : precMark.toList = ['%', 'p', 'r', 'e', 'c'] := by decide
  rcases h s hs with hw | ⟨c, hc⟩
  · rw [kindOf_of_isWord hw] at hk
    rw [hk, hlist] at hw
    exact absurd hw (by decide)
  · rw [kindOf_of_quoted hc] at hk
    have := congrArg String.toList hk
    rw [hlist, String.toList_ofList] at this
    cases this

/-- The name of a fit rule is no terminal. -/
theorem Made.not_mem_terminals (hg : Made kinds rs g) (hr : Fit kinds r) :
    r.name ∉ g.terminals.map (·.1) := by
  intro h
  rcases hg.terminals _ h with h | h | ⟨c, hc, h⟩
  · exact hr.fresh.1 h
  · exact hr.fresh.2 h
  · exact ne_ofList_of_isWord hr.name hc h

/-- Adding a fit rule that is not there yet. -/
theorem Made.add (hg : Made kinds rs g) (hr : Fit kinds r)
    (hspelled : ∀ r ∈ rs, ∀ s ∈ r.symbols, Spelled s)
    (hnew : (r.name, r.symbols) ∉ rs.map fun r => (r.name, r.symbols)) {line : Int}
    (hline : line = (rs.length : Int) + 1) :
    Made kinds (rs ++ [r]) (g.addProduction r.name r.symbols none "" line).1 := by
  have hname : g.isTerminal r.name = false := by
    rw [Bool.eq_false_iff]
    exact fun h => hg.not_mem_terminals hr (Table.has_iff.mp h)
  obtain ⟨g₁, hread, hg₁, hwords⟩ := readSymbols_eq "" line r.name hr.symbols g
  -- no earlier rule has this name and these symbols
  have hfind : g₁.rules.find? (fun p => p.name == r.name && p.symbols == r.symbols.map kindOf) =
      none := by
    rw [List.find?_eq_none]
    intro p hp heq
    simp only [Bool.and_eq_true, beq_iff_eq] at heq
    rw [hg₁.rules] at hp
    have hmem : (p.name, p.symbols) ∈ g.rules.map fun p => (p.name, p.symbols) :=
      List.mem_map_of_mem hp
    rw [hg.rules, heq.1, heq.2] at hmem
    obtain ⟨r', hr', hsame⟩ := List.mem_map.mp hmem
    refine hnew (List.mem_map.mpr ⟨r', hr', ?_⟩)
    simp only [Prod.mk.injEq] at hsame ⊢
    exact ⟨hsame.1, Lalr.map_reflect (fun s hs t ht => kindOf_inj (hspelled r' hr' s hs) (hr.symbols t ht))
      hsame.2⟩
  rw [addProduction, hname]
  simp only [Bool.false_eq_true, if_false, isSymbolName_of_isWord hr.name, Bool.not_true, hread,
    readPrecedence, precMark_not_mem hr.symbols, hfind]
  -- first the name is noted, then the uses of the symbols
  obtain ⟨hnotes₁, hname₁, hnew₁⟩ := notes_name g₁ r.name
  obtain ⟨hnotes₂, hknows, hnew₂⟩ := notes_foldl (g₁.rules.length + 1) (r.symbols.map kindOf)
    (if g₁.isNonterminal r.name then g₁
      else { g₁ with nonterminals := g₁.nonterminals ++ [(r.name, [])] })
  have hnotes := hnotes₁.trans hnotes₂
  have hmono : ∀ s ∈ g.nonterminals.map (·.1), s ∈ g₁.nonterminals.map (·.1) :=
    fun s hs => hg₁.nonterminals ▸ hs
  refine ⟨?_, ?_, ?_, ?_, ?_, ?_, ?_, ?_, ?_⟩
  · refine List.map_append.trans ?_
    rw [hnotes.rules, hg₁.rules, hg.rules, List.map_append]
    rfl
  · intro s hs
    rcases hg₁.terminals s (hnotes.terminals ▸ hs) with hs | hs
    · exact hg.terminals s hs
    · exact .inr (.inr hs)
  · exact fun s hs => hnotes.terminals ▸ hg₁.mono s (hg.kinds s hs)
  · intro r' hr'
    rcases List.mem_append.mp hr' with hr' | hr'
    · exact hnotes.mono _ (hmono _ (hg.names r' hr'))
    · obtain rfl := List.mem_singleton.mp hr'
      exact hnotes₂.mono _ hname₁
  · intro r' hr' s hs
    rcases List.mem_append.mp hr' with hr' | hr'
    · refine hnotes.knows ?_
      rcases hg.symbols r' hr' s hs with hs | hs
      · exact .inl (hg₁.mono _ hs)
      · exact .inr (hmono _ hs)
    · obtain rfl := List.mem_singleton.mp hr'
      exact hknows _ (List.mem_map_of_mem hs)
  · -- a new nonterminal is the name of the rule, or one of its words
    intro s hs
    have hterminal : s ∉ g₁.terminals.map (·.1) →
        s ∉ ((r.symbols.map kindOf).foldl (noteUse (g₁.rules.length + 1)) (if g₁.isNonterminal r.name
          then g₁ else { g₁ with nonterminals := g₁.nonterminals ++ [(r.name, [])] })).terminals.map (·.1) :=
      fun hnot hmem => hnot (hnotes.terminals ▸ hmem)
    have hmark : isWord s.toList = true → s ∉ g.terminals.map (·.1) → s ∉ g₁.terminals.map (·.1) := by
      intro hword hnot hmem
      rcases hg₁.terminals s hmem with hmem | ⟨c, hc, heq⟩
      · exact hnot hmem
      · exact ne_ofList_of_isWord hword hc heq
    rcases hnew₂ s hs with hs | ⟨hs, hnot⟩
    · rcases hnew₁ s hs with hs | rfl
      · obtain ⟨hword, hnot⟩ := hg.apart s (hg₁.nonterminals ▸ hs)
        exact ⟨hword, hterminal (hmark hword hnot)⟩
      · exact ⟨hr.name, hterminal (hmark hr.name (hg.not_mem_terminals hr))⟩
    · have hnot' : s ∉ g₁.terminals.map (·.1) := fun h => hnot (hnotes₁.terminals ▸ h)
      obtain ⟨t, ht, rfl⟩ := List.mem_map.mp hs
      rcases hwords t ht with hword | hmem
      · exact ⟨by rwa [kindOf_of_isWord hword], hterminal hnot'⟩
      · exact absurd hmem hnot'
  · exact hnotes.precedence.trans (hg₁.precedence.trans hg.precedence)
  · intro p hp
    rcases List.mem_append.mp hp with hp | hp
    · rw [hnotes.rules, hg₁.rules] at hp
      exact hg.ranks p hp
    · obtain rfl := List.mem_singleton.mp hp
      rw [hg₁.precedence, hg.precedence]
      cases lastTerminal? g₁.isTerminal (r.symbols.map kindOf) <;> rfl
  · refine List.map_append.trans ?_
    rw [hnotes.rules, hg₁.rules, hg.lines, List.length_append, List.length_singleton, List.range_succ,
      List.map_append, hline]
    rfl

/-- Adding fit rules one after the other. -/
theorem Made.addAll : ∀ {added : List (DialectRule × Nat)} {g : Grammar},
    Made kinds rs g → added.map (·.2) = List.range' rs.length added.length →
      (∀ r ∈ rs ++ added.map (·.1), Fit kinds r) → ((rs ++ added.map (·.1)).map fun r => (r.name, r.symbols)).Nodup →
        Made kinds (rs ++ added.map (·.1)) (added.foldl (fun g x =>
          (g.addProduction x.1.name x.1.symbols none "" (x.2 + 1)).1) g) := by
  intro added
  induction added generalizing rs with
  | nil =>
    intro g hg _ _ _
    simpa using hg
  | cons x added ih =>
    intro g hg hlines hfit hnodup
    have hsplit : rs ++ (x :: added).map (·.1) = (rs ++ [x.1]) ++ added.map (·.1) := by simp
    rw [hsplit] at hfit hnodup ⊢
    have hx : Fit kinds x.1 := hfit x.1 (by simp)
    rw [List.map_cons, List.length_cons, List.range'_succ, List.cons.injEq] at hlines
    refine ih (hg.add hx ?_ ?_ (by rw [hlines.1])) ?_ hfit hnodup
    · exact fun r hr => (hfit r (by simp [hr])).symbols
    · rw [List.map_append, List.map_append, List.map_cons, List.map_nil] at hnodup
      intro hmem
      have hdisjoint := List.disjoint_of_nodup_append (List.Nodup.of_append_left hnodup)
      exact hdisjoint hmem (List.mem_singleton.mpr rfl)
    · rw [List.length_append]
      exact hlines.2

theorem made_ofTerminals (kinds names : List String) (h : ∀ s, s ∈ names ↔ s ∈ kinds) :
    Made kinds [] (ofTerminals names) := by
  have hput : ∀ (names : List String) (t : Table (List Nat)) (s : String),
      s ∈ (names.foldl (fun t n => t.put n []) t).map (·.1) ↔ s ∈ t.map (·.1) ∨ s ∈ names := by
    intro names
    induction names with
    | nil => simp
    | cons n names ih =>
      intro t s
      rw [List.foldl_cons, ih, Table.mem_put, List.mem_cons, or_assoc]
  refine ⟨rfl, ?_, ?_, fun r hr => absurd hr List.not_mem_nil,
    fun r hr => absurd hr List.not_mem_nil, fun s hs => absurd hs List.not_mem_nil, rfl,
    fun p hp => absurd hp List.not_mem_nil, rfl⟩
  · intro s hs
    rcases (hput _ _ s).mp hs with hs | hs
    · cases hs
    · rcases List.mem_append.mp hs with hs | hs
      · exact .inl ((h s).mp hs)
      · exact .inr (.inl (List.mem_singleton.mp hs))
  · intro s hs
    exact (hput _ _ s).mpr (.inr (List.mem_append_left _ ((h s).mpr hs)))

end Grammar

/-! ### The rules of the dialects -/

namespace Dialect

/-- The symbols of the rules of a dialect. -/
def symbols (d : Dialect) : List String := d.rules.flatMap fun r => r.name :: r.symbols

theorem program_mem_symbols (d : Dialect) : "program" ∈ d.symbols := by
  cases d <;> exact List.mem_cons_self

/-- The code of a symbol of a dialect. -/
def code (g : Lalr.Rules) (s : String) : Nat := g.names.idxOf (kindOf s)

/-- The coded rules say what the rules of the dialect say. -/
structure Codes (d : Dialect) (g : Lalr.Rules) : Prop where
  size : g.rules.size = d.rules.length + 1
  left : ∀ (n : Nat) (r : DialectRule), d.rules[n]? = some r → g.left (n + 1) = code g r.name
  right : ∀ (n : Nat) (r : DialectRule), d.rules[n]? = some r →
    g.right (n + 1) = r.symbols.map (code g)
  start : g.right 0 = [code g "program"]
  /-- The symbol that fits a kind of token. -/
  kind : ∀ s ∈ d.symbols, ∀ k : String, g.names.idxOf k = code g s → k = kindOf s
  terminal : ∀ r ∈ d.rules, g.isTerminal (code g r.name) = false
  endMark : ∀ s ∈ d.symbols, code g s ≠ g.endMark
  endKind : ∀ k : String, g.names.idxOf k = g.endMark → k = endName

/-- The check of a spelling on bytes. -/
def spelledWell (word : List Char → Bool) (s : String) : Bool :=
  (Text.bytes s).all (fun b => b.toNat < 128) && word ((Text.bytes s).map Text.charOf)

theorem of_spelledWell {word : List Char → Bool} (h : spelledWell word s = true) :
    word s.toList = true := by
  rw [spelledWell, Bool.and_eq_true, List.all_eq_true] at h
  rw [Text.toList_eq_map_bytes fun b hb => of_decide_eq_true (h.1 b hb)]
  exact h.2

/-- The check of the rules: names begin with small letters and kinds of tokens do not. -/
def wellWritten (d : Dialect) : Bool :=
  (d.kinds.all (spelledWell fun cs => !(cs.headD ' ').isLower)) &&
  d.rules.all fun r =>
    spelledWell (fun cs => (cs.headD ' ').isLower && isWord cs && cs != ['e', 'r', 'r', 'o', 'r']) r.name
      && r.symbols.all (spelledWell fun cs => isWord cs || (quoted? cs).isSome)

theorem wellWritten_eq_true (d : Dialect) : d.wellWritten = true := by
  cases d <;> decide +kernel

/-- A number made from the name and the symbols of a rule. -/
def ruleKey (r : DialectRule) : Nat :=
  (r.name :: r.symbols).foldl (fun n s => Nat.pow 2 256 * n + Text.key s) 0

theorem nodup_ruleKey (d : Dialect) : (d.rules.map ruleKey).Nodup := by
  cases d <;> decide +kernel

theorem spelled_of_mem {d : Dialect} (hr : r ∈ d.rules) :
    ((r.name.toList.headD ' ').isLower = true ∧ isWord r.name.toList = true ∧ r.name ≠ errorName) ∧
      ∀ s ∈ r.symbols, Spelled s := by
  have hall := d.wellWritten_eq_true
  simp only [wellWritten, Bool.and_eq_true, List.all_eq_true] at hall
  obtain ⟨hname, hsymbols⟩ := hall.2 r hr
  have hname := of_spelledWell hname
  simp only [Bool.and_eq_true, bne_iff_ne] at hname
  refine ⟨⟨hname.1.1, hname.1.2, ?_⟩, fun s hs => ?_⟩
  · intro h
    refine hname.2 ?_
    rw [h]
    decide
  · have hs := of_spelledWell (hsymbols s hs)
    rwa [Bool.or_eq_true, Option.isSome_iff_exists] at hs

theorem fit_of_mem {d : Dialect} (hr : r ∈ d.rules) :
    Grammar.Fit d.kinds r := by
  obtain ⟨⟨hlower, hword, herror⟩, hsymbols⟩ := spelled_of_mem hr
  refine ⟨hword, ⟨?_, herror⟩, hsymbols⟩
  intro hmem
  have hall := d.wellWritten_eq_true
  simp only [wellWritten, Bool.and_eq_true, List.all_eq_true] at hall
  have := of_spelledWell (hall.1 _ hmem)
  rw [hlower] at this
  cases this

theorem spelled_of_mem_symbols {d : Dialect} (h : s ∈ d.symbols) : Spelled s := by
  obtain ⟨r, hr, hs⟩ := List.mem_flatMap.mp h
  rcases List.mem_cons.mp hs with rfl | hs
  · exact .inl (spelled_of_mem hr).1.2.1
  · exact (spelled_of_mem hr).2 s hs

/-- All rules of a dialect are accepted. -/
theorem made_rules (d : Dialect) : Grammar.Made d.kinds d.rules
    (d.rules.zipIdx.foldl (fun g x => (g.addProduction x.1.name x.1.symbols none "" (x.2 + 1)).1)
      (Grammar.ofTerminals (sorted d.kinds))) := by
  have hnames : d.rules.zipIdx.map (·.1) = d.rules := List.zipIdx_map_fst 0 d.rules
  have hnodup : (d.rules.map fun r => (r.name, r.symbols)).Nodup := by
    refine List.Nodup.of_map (fun x => ruleKey ⟨x.1, x.2, .skip⟩) ?_
    rw [List.map_map]
    exact d.nodup_ruleKey
  have hempty : Grammar.Made d.kinds [] (Grammar.ofTerminals (sorted d.kinds)) :=
    Grammar.made_ofTerminals _ _ fun s => List.mem_mergeSort
  have hall : [] ++ d.rules.zipIdx.map (·.1) = d.rules := by rw [List.nil_append, hnames]
  have hlines : d.rules.zipIdx.map (·.2) = List.range' 0 d.rules.zipIdx.length := by
    rw [List.length_zipIdx]
    exact List.zipIdx_map_snd 0 d.rules
  have h := hempty.addAll hlines (fun r hr => fit_of_mem (hall ▸ hr)) (hall.symm ▸ hnodup)
  rwa [hall] at h

/-- The grammar of a dialect is made from its rules, with a start rule above them. -/
theorem exists_grammar (d : Dialect) : ∃ g uses, Grammar.Made d.kinds d.rules g ∧
    d.grammar = { g with
      root := some { number := 0, name := startName, symbols := ["program"],
                     precedence := .default, action := none, file := "", line := 0 }
      nonterminals := g.nonterminals.put "program" uses
      start := some "program"
      rootBuilt := false } := by
  have hmade := d.made_rules
  obtain ⟨r, hr, hname⟩ : ∃ r, d.rules.head? = some r ∧ r.name = "program" := by
    cases d <;> exact ⟨_, rfl, rfl⟩
  rcases hg : d.rules.zipIdx.foldl (fun g x => (g.addProduction x.1.name x.1.symbols none "" (x.2 + 1)).1)
    (Grammar.ofTerminals (sorted d.kinds)) with g
  rw [hg] at hmade
  have hhead : g.rules.head?.map (·.name) = some "program" := by
    have := congrArg List.head? hmade.rules
    rw [List.head?_map, List.head?_map, hr] at this
    obtain ⟨p, hp, heq⟩ := Option.map_eq_some_iff.mp this
    rw [hp, Option.map_some, ← hname]
    exact congrArg some (congrArg Prod.fst heq)
  obtain ⟨uses, huses⟩ := Table.get?_of_mem (hmade.names r (List.mem_of_mem_head? hr))
  rw [hname] at huses
  refine ⟨g, uses ++ [0], hmade, ?_⟩
  rw [grammar]
  simp only [hg, Grammar.setStart, hhead, huses]

variable {d : Dialect} {g : Rules}

theorem codes (h : d.coded = some g) : Codes d g := by
  obtain ⟨m, uses, hmade, hgrammar⟩ := d.exists_grammar
  rw [coded, hgrammar, Rules.ofGrammar?] at h
  simp only [Option.map_some, Option.some.injEq] at h
  obtain ⟨names, hnames⟩ : ∃ names, names = (m.terminals.map (·.1) ++
    (m.nonterminals.put "program" uses).map (·.1) ++ [endName, ".", startName]).eraseDups := ⟨_, rfl⟩
  rw [← hnames] at h
  have hgnames : g.names = names.toArray := by rw [← h]
  have hgterminals : g.terminals = m.terminals.map fun e => Rules.code names e.1 := by rw [← h]
  have hgend : g.endMark = names.idxOf endName := by rw [← h]; rfl
  have hcode : ∀ s, code g s = names.idxOf (kindOf s) := by
    intro s
    rw [code, hgnames, List.idxOf_toArray]
  have hknown : ∀ s, m.Knows s → s ∈ names := by
    intro s hs
    rw [hnames, List.mem_eraseDups]
    rcases hs with hs | hs
    · exact List.mem_append_left _ (List.mem_append_left _ hs)
    · exact List.mem_append_left _ (List.mem_append_right _ (Table.mem_put.mpr (.inl hs)))
  have hname : ∀ r ∈ d.rules, kindOf r.name = r.name := fun r hr =>
    kindOf_of_isWord (fit_of_mem hr).name
  have hmem : ∀ s ∈ d.symbols, kindOf s ∈ names := by
    intro s hs
    obtain ⟨r, hr, hs⟩ := List.mem_flatMap.mp hs
    rcases List.mem_cons.mp hs with rfl | hs
    · rw [hname r hr]
      exact hknown _ (.inr (hmade.names r hr))
    · exact hknown _ (hmade.symbols r hr s hs)
  have hkind : ∀ s ∈ d.symbols, ∀ k, names.idxOf k = names.idxOf (kindOf s) → k = kindOf s :=
    fun s hs k hk => ((List.idxOf_inj (hmem s hs)).mp hk.symm).symm
  -- a rule stands one place after its place in the list
  have hrule : ∀ (n : Nat) (r : DialectRule), d.rules[n]? = some r → ∃ rule : Rule,
      g.rules[n + 1]? = some rule ∧ rule.left = code g r.name ∧ rule.right = r.symbols.map (code g) := by
    intro n r hr
    have hn : (m.rules.map fun p => (p.name, p.symbols))[n]? =
        some (r.name, r.symbols.map kindOf) := by
      rw [hmade.rules, List.getElem?_map, hr, Option.map_some]
    rw [List.getElem?_map] at hn
    obtain ⟨p, hp, heq⟩ := Option.map_eq_some_iff.mp hn
    have hmemr := List.mem_of_getElem? hr
    refine ⟨{ left := Rules.code names p.name, right := p.symbols.map (Rules.code names),
              precedence := p.precedence, line := p.line }, ?_, ?_, ?_⟩
    · rw [← h]
      simp [hp]
    · rw [hcode, hname r hmemr]
      exact congrArg names.idxOf (congrArg Prod.fst heq)
    · have hsymbols : p.symbols = r.symbols.map kindOf := congrArg Prod.snd heq
      simp only [hsymbols, List.map_map]
      exact List.map_congr_left fun s _ => (hcode s).symm
  refine ⟨?_, ?_, ?_, ?_, ?_, ?_, ?_, ?_⟩
  · have hlength := congrArg List.length hmade.rules
    rw [List.length_map, List.length_map] at hlength
    rw [← h, ← hlength]
    simp
  · intro n r hr
    obtain ⟨rule, hget, hleft, -⟩ := hrule n r hr
    rw [Rules.left, hget, ← hleft]
    rfl
  · intro n r hr
    obtain ⟨rule, hget, -, hright⟩ := hrule n r hr
    rw [Rules.right, hget, ← hright]
    rfl
  · have hprogram : kindOf "program" = "program" := kindOf_of_isWord (by decide)
    rw [hcode, hprogram, ← h]
    rfl
  · intro s hs k hk
    rw [hgnames, List.idxOf_toArray, hcode] at hk
    exact hkind s hs k hk
  · intro r hr
    rw [Bool.eq_false_iff]
    intro hterminal
    rw [Rules.isTerminal, List.contains_iff_mem, hgterminals] at hterminal
    obtain ⟨e, he, heq⟩ := List.mem_map.mp hterminal
    have hsymbol : r.name ∈ d.symbols := List.mem_flatMap.mpr ⟨r, hr, List.mem_cons_self⟩
    have hsame : e.1 = r.name := by
      rw [← hname r hr]
      exact hkind _ hsymbol _ (heq.trans (hcode _))
    exact hmade.not_mem_terminals (fit_of_mem hr) (hsame ▸ List.mem_map_of_mem he)
  · intro s hs hend
    rw [hcode, hgend] at hend
    have hk := hkind s hs endName hend.symm
    have hlist : endName.toList = ['$', 'e', 'n', 'd'] := by decide
    rcases spelled_of_mem_symbols hs with hw | ⟨c, hc⟩
    · rw [kindOf_of_isWord hw] at hk
      rw [← hk, hlist] at hw
      exact absurd hw (by decide)
    · rw [kindOf_of_quoted hc] at hk
      have := congrArg String.toList hk
      rw [hlist, String.toList_ofList] at this
      cases this
  · intro k hk
    rw [hgnames, List.idxOf_toArray, hgend] at hk
    have hmem : endName ∈ names := by
      rw [hnames, List.mem_eraseDups]
      exact List.mem_append_right _ List.mem_cons_self
    exact ((List.idxOf_inj hmem).mp hk.symm).symm

/-- The symbols of right sides are symbols of the dialect. -/
theorem Codes.of_mem_right (h : Codes d g) {r x : Nat} (hr : r ≠ 0 → r < g.rules.size)
    (hx : x ∈ g.right r) : ∃ s ∈ d.symbols, x = code g s := by
  rcases r with _ | n
  · rw [h.start] at hx
    refine ⟨"program", ?_, List.mem_singleton.mp hx⟩
    cases d <;> exact List.mem_cons_self
  · have hn : n < d.rules.length := by
      have := hr (Nat.succ_ne_zero n)
      rw [h.size] at this
      omega
    rw [h.right n _ (List.getElem?_eq_getElem hn)] at hx
    obtain ⟨s, hs, rfl⟩ := List.mem_map.mp hx
    refine ⟨s, ?_, rfl⟩
    exact List.mem_flatMap.mpr ⟨_, List.getElem_mem hn, List.mem_cons_of_mem _ hs⟩

theorem code_inj (h : Codes d g) (hs : s ∈ d.symbols) (ht : t ∈ d.symbols)
    (heq : code g s = code g t) : s = t :=
  kindOf_inj (spelled_of_mem_symbols hs) (spelled_of_mem_symbols ht) (h.kind t ht _ heq)

end Dialect

end QuadLang
