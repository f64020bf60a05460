/-
Compiling follows a derivation.

Compiling shifts tokens and reduces rules with the tables of a dialect.  What it accepts is
a derivation of the grammar, and what it did is the steps of that derivation, each when
its rule was complete.

* `Phrase.Derives` — a derivation tree in which the symbols of rules are never tokens;
* `Phrase.Compiles` — the steps of a phrase lead from one state of the compiler to another;
  between steps there may be reports of illegal characters;
* `compile_derives` — a source that is compiled has a derivation of the start symbol whose
  leaves are the tokens of the source, and its steps lead to the final state.

Design notes: the invariant of the parser (`Parsing.Follows`) has phrases for the symbols on
the stack.  Which rule is reduced is decided by the tables; that the symbols of the rule are
then on top of the stack is what `Lalr.Path.take_dot` says.
-/
import QuadLang.Compile.Program
import QuadLang.Proofs.Coding
import QuadLang.Proofs.Phrases

namespace QuadLang

open Spelling Lalr Dialect

variable {a : Ahead} {before : Option Literal} {c c' : Compiler} {p' : Parsing} {r : Nat}
  {s s' : Scanner} {st : Lalr.State} {t : Lalr.Tables} {ts : List Token}
/-- `c'` is `c` with other things printed. -/
def Compiler.Reports (c c' : Compiler) : Prop := ∃ printed, c' = { c with printed }

namespace Compiler

theorem Reports.refl (c : Compiler) : c.Reports c := ⟨c.printed, rfl⟩

theorem Reports.trans {c'' : Compiler} (h : c.Reports c') (h' : c'.Reports c'') :
    c.Reports c'' := by
  obtain ⟨_, rfl⟩ := h
  obtain ⟨printed, rfl⟩ := h'
  exact ⟨printed, rfl⟩

end Compiler

namespace Phrase

variable {d : Dialect} {value : Option Literal} {args : List (Option Literal)} {p : Phrase}
  {ps : List Phrase}

/-- A derivation of the grammar of a dialect. -/
inductive Derives (d : Dialect) : Phrase → Prop where
  | token {s : String} (v : Literal) (hs : ∀ r ∈ d.rules, r.name ≠ s) : Derives d (.token s v)
  | node {rule : DialectRule} {parts : List Phrase} (hrule : rule ∈ d.rules)
      (hsymbols : parts.map symbol = rule.symbols) (hparts : ∀ p ∈ parts, Derives d p) :
      Derives d (.node rule parts)

mutual

/-- The steps of a phrase lead from `c` to `c'` and give a value. -/
def Compiles (before : Option Literal) : Phrase → Compiler → Option Literal → Compiler → Prop
  | .token _ v, c, value, c' => value = some v ∧ c.Reports c'
  | .node rule parts, c, value, c' => ∃ args c₁, CompilesAll before parts c args c₁ ∧
      (Compile.perform before args rule.step).run c₁ = (.ok value, c')

/-- The steps of phrases, one after the other, lead from `c` to `c'`. -/
def CompilesAll (before : Option Literal) :
    List Phrase → Compiler → List (Option Literal) → Compiler → Prop
  | [], c, args, c' => args = [] ∧ c.Reports c'
  | p :: ps, c, args, c' => ∃ v c₁ rest, Compiles before p c v c₁ ∧ CompilesAll v ps c₁ rest c' ∧
      args = v :: rest

end

theorem compiles_token {s : String} {v : Literal} :
    (token s v).Compiles before c value c' ↔ value = some v ∧ c.Reports c' := Iff.rfl

theorem compiles_node {rule : DialectRule} {parts : List Phrase} :
    (node rule parts).Compiles before c value c' ↔ ∃ args c₁, CompilesAll before parts c args c₁ ∧
      (Compile.perform before args rule.step).run c₁ = (.ok value, c') := Iff.rfl

theorem compilesAll_nil : CompilesAll before [] c args c' ↔ args = [] ∧ c.Reports c' := Iff.rfl

theorem compilesAll_cons : CompilesAll before (p :: ps) c args c' ↔
      ∃ v c₁ rest, p.Compiles before c v c₁ ∧ CompilesAll v ps c₁ rest c' ∧ args = v :: rest := Iff.rfl

/-- Reports may follow. -/
theorem CompilesAll.reports {c'' : Compiler} (h : CompilesAll before ps c args c')
    (hr : c'.Reports c'') : CompilesAll before ps c args c'' := by
  induction ps generalizing before c args with
  | nil => exact ⟨h.1, h.2.trans hr⟩
  | cons p ps ih =>
    obtain ⟨v, c₁, rest, hp, hps, rfl⟩ := compilesAll_cons.mp h
    exact compilesAll_cons.mpr ⟨v, c₁, rest, hp, ih hps, rfl⟩

mutual

/-- Reports may come before. -/
theorem Compiles.after : ∀ (p : Phrase) {before value : Option Literal} {c₀ c c' : Compiler},
    c₀.Reports c → p.Compiles before c value c' → p.Compiles before c₀ value c'
  | .token _ _, _, _, _, _, _, hr, h => ⟨h.1, hr.trans h.2⟩
  | .node _ parts, _, _, _, _, _, hr, h => by
    obtain ⟨args, c₁, hparts, hstep⟩ := compiles_node.mp h
    exact compiles_node.mpr ⟨args, c₁, CompilesAll.after parts hr hparts, hstep⟩

theorem CompilesAll.after : ∀ (ps : List Phrase) {before : Option Literal}
    {args : List (Option Literal)} {c₀ c c' : Compiler}, c₀.Reports c →
      CompilesAll before ps c args c' → CompilesAll before ps c₀ args c'
  | [], _, _, _, _, _, hr, h => ⟨h.1, hr.trans h.2⟩
  | p :: _, _, _, _, _, _, hr, h => by
    obtain ⟨v, c₁, rest, hp, hps, rfl⟩ := compilesAll_cons.mp h
    exact compilesAll_cons.mpr ⟨v, c₁, rest, Compiles.after p hr hp, hps, rfl⟩

end

theorem CompilesAll.length_eq (h : CompilesAll before ps c args c') : args.length = ps.length := by
  induction ps generalizing before c args with
  | nil =>
    rw [h.1]
    rfl
  | cons p ps ih =>
    obtain ⟨v, c₁, rest, -, hps, rfl⟩ := compilesAll_cons.mp h
    rw [List.length_cons, List.length_cons, ih hps]

/-- The value before what follows values. -/
def lastOf (before : Option Literal) (args : List (Option Literal)) : Option Literal :=
  args.getLast?.getD before

theorem lastOf_cons (before v : Option Literal) (args : List (Option Literal)) :
    lastOf before (v :: args) = lastOf v args := by
  rw [lastOf, lastOf, List.getLast?_cons]
  rfl

theorem compilesAll_append {qs : List Phrase} : CompilesAll before (ps ++ qs) c args c' ↔
    ∃ args₁ args₂ c₁, args = args₁ ++ args₂ ∧ CompilesAll before ps c args₁ c₁ ∧
      CompilesAll (lastOf before args₁) qs c₁ args₂ c' := by
  induction ps generalizing before c args with
  | nil =>
    constructor
    · intro h
      exact ⟨[], args, c, rfl, ⟨rfl, .refl c⟩, h⟩
    · rintro ⟨args₁, args₂, c₁, rfl, ⟨rfl, hr⟩, h⟩
      exact CompilesAll.after qs hr h
  | cons p ps ih =>
    constructor
    · intro h
      obtain ⟨v, c₁, rest, hp, hps, rfl⟩ := compilesAll_cons.mp h
      obtain ⟨args₁, args₂, c₂, rfl, hps, hqs⟩ := ih.mp hps
      refine ⟨v :: args₁, args₂, c₂, rfl, compilesAll_cons.mpr ⟨v, c₁, args₁, hp, hps, rfl⟩, ?_⟩
      rwa [lastOf_cons]
    · rintro ⟨args₁, args₂, c₂, rfl, hps, hqs⟩
      obtain ⟨v, c₁, rest, hp, hrest, rfl⟩ := compilesAll_cons.mp hps
      rw [lastOf_cons] at hqs
      have hall := ih.mpr ⟨rest, args₂, c₂, rfl, hrest, hqs⟩
      exact compilesAll_cons.mpr ⟨v, c₁, rest ++ args₂, hp, hall, rfl⟩

theorem compilesAll_singleton {v : Option Literal} (h : p.Compiles before c v c') :
    CompilesAll before [p] c [v] c' :=
  compilesAll_cons.mpr ⟨v, c', [], h, ⟨rfl, .refl c'⟩, rfl⟩

theorem yieldAll_append (ps qs : List Phrase) :
    yieldAll (ps ++ qs) = yieldAll ps ++ yieldAll qs := by
  induction ps with
  | nil => rfl
  | cons p ps ih => simp [ih]

end Phrase

/-! ### Reading tokens -/

namespace Scanner

/-- Reading the tokens leads from one place to another. -/
inductive Reads : Scanner → List Token → Scanner → Prop
  | nil (s : Scanner) : Reads s [] s
  | snoc {s s₁ s' : Scanner} {ts : List Token} {t : Token} {reports : List String}
      (h : Reads s ts s₁) (ht : s₁.next = (reports, .ok (some t), s')) : Reads s (ts ++ [t]) s'

/-- Nothing but the end is left. -/
def AtEnd (s : Scanner) : Prop := ∃ reports s', s.next = (reports, .ok none, s')

/-- No token has the name of the end of the input. -/
def Tidy (s : Scanner) : Prop :=
  ∀ p ∈ s.pieces, ∀ k v, s.dialect.tokenOf p = .ok (some (k, v)) → k ≠ endName

/-- What scanning says about the pieces that it passes. -/
theorem scan_spec (d : Dialect) {pieces : List Piece} {line position : Nat}
    {reports reports' : List String} {result : Except Number.NumeralFault (Option Token)}
    (h : scan d pieces line position reports = (reports', result, s')) :
      s'.dialect = d ∧ (∀ p ∈ s'.pieces, p ∈ pieces) ∧
        ∀ t, result = .ok (some t) → s'.pieces.length < pieces.length ∧
          ∃ p ∈ pieces, d.tokenOf p = .ok (some (t.kind, t.value)) := by
  induction pieces generalizing line position reports with
  | nil =>
    cases h
    exact ⟨rfl, fun p hp => absurd hp List.not_mem_nil, fun t ht => by cases ht⟩
  | cons p rest ih =>
    have hmore : ∀ {line position reports}, scan d rest line position reports = (reports', result, s') →
        s'.dialect = d ∧ (∀ q ∈ s'.pieces, q ∈ p :: rest) ∧
          ∀ t, result = .ok (some t) → s'.pieces.length < (p :: rest).length ∧
            ∃ q ∈ p :: rest, d.tokenOf q = .ok (some (t.kind, t.value)) := by
      intro line position reports h
      obtain ⟨hd, hmem, htoken⟩ := ih h
      refine ⟨hd, fun q hq => List.mem_cons_of_mem _ (hmem q hq), fun t ht => ?_⟩
      obtain ⟨hlt, q, hq, htok⟩ := htoken t ht
      exact ⟨Nat.lt_succ_of_lt hlt, q, List.mem_cons_of_mem _ hq, htok⟩
    rw [scan] at h
    rcases htok : d.tokenOf p with e | _ | ⟨k, v⟩
    · simp only [htok] at h
      cases h
      exact ⟨rfl, fun q hq => List.mem_cons_of_mem _ hq, fun t ht => by cases ht⟩
    · simp only [htok] at h
      split at h <;> exact hmore h
    · simp only [htok] at h
      cases h
      refine ⟨rfl, fun q hq => List.mem_cons_of_mem _ hq, fun t ht => ?_⟩
      cases ht
      exact ⟨Nat.lt_succ_self _, p, List.mem_cons_self, htok⟩

theorem Tidy.next {reports : List String} {result : Except Number.NumeralFault (Option Token)}
    (hs : s.Tidy) (h : s.next = (reports, result, s')) : s'.dialect = s.dialect ∧ s'.Tidy ∧
      ∀ t, result = .ok (some t) → t.kind ≠ endName := by
  obtain ⟨hd, hmem, htoken⟩ := scan_spec s.dialect h
  refine ⟨hd, fun p hp k v hk => hs p (hmem p hp) k v (hd ▸ hk), fun t ht => ?_⟩
  obtain ⟨-, p, hp, htok⟩ := htoken t ht
  exact hs p hp _ _ htok

end Scanner

namespace Dialect

/-- The text of an operator or a mark. -/
def Spelled (d : Dialect) (cls : PieceClass) (text : List Char) : Prop :=
  match cls with
  | .operator => String.ofList text ∈ d.operators.map (·.1)
  | .mark => ∃ c ∈ d.marks, text = [c]
  | _ => True

variable {c : Char} {cs : List Char} {n : Nat}

/-- A text is of the class that matches first; where none does, a character is illegal. -/
theorem classify_cases (d : Dialect) (cs : List Char) :
    (∃ x ∈ d.classes, ∃ n, x.2 cs = some n ∧ d.classify cs = (x.1, n)) ∨
      (∀ x ∈ d.classes, x.2 cs = none) ∧ d.classify cs = (.illegal, 1) := by
  rw [classify]
  generalize hfind : List.findSome? _ d.classes = found
  rcases found with _ | x
  · exact .inr ⟨fun x hx => Option.map_eq_none_iff.mp (List.findSome?_eq_none_iff.mp hfind x hx), rfl⟩
  · obtain ⟨x, hx, hfound⟩ := List.exists_of_findSome?_eq_some hfind
    obtain ⟨n, hn, rfl⟩ := Option.map_eq_some_iff.mp hfound
    exact .inl ⟨x, hx, n, hn, rfl⟩

theorem take_of_oneOf? {words : List String} (h : Piece.oneOf? words cs = some n) :
    ∃ w ∈ words, cs.take n = w.toList := by
  obtain ⟨w, hw, hn⟩ := List.exists_of_findSome?_eq_some h
  rw [Piece.text?] at hn
  split at hn
  · next hfront =>
    cases hn
    obtain ⟨rest, rfl⟩ := List.isPrefixOf_iff_prefix.mp hfront
    exact ⟨w, hw, by rw [← String.length_toList, List.take_left]⟩
  · cases hn

/-- The text of a piece that has characters, and the text after it. -/
theorem cons_take (h : (c :: cs).take n ≠ []) :
    c :: cs.take (n - 1) = (c :: cs).take n ∧ cs.drop (n - 1) = (c :: cs).drop n := by
  rcases n with _ | n
  · exact absurd rfl h
  · exact ⟨rfl, rfl⟩

theorem spelled_classify (d : Dialect) (c : Char) (cs : List Char) :
    d.Spelled (d.classify (c :: cs)).1 (c :: cs.take ((d.classify (c :: cs)).2 - 1)) := by
  rcases d.classify_cases (c :: cs) with ⟨⟨cls, len⟩, he, n, hn, hfound⟩ | ⟨-, hfound⟩ <;> rw [hfound]
  · simp only [classes, List.mem_cons, Prod.mk.injEq, List.not_mem_nil, or_false] at he
    cases cls <;> simp only [reduceCtorEq, false_and, true_and, false_or, or_false] at he
    case operator =>
      subst he
      obtain ⟨w, hw, htext⟩ := take_of_oneOf? hn
      have hlong : ∀ w ∈ d.operators.map (·.1), w.toList ≠ [] := by cases d <;> decide
      rw [(cons_take (htext ▸ hlong w hw)).1, htext, Spelled, String.ofList_toList]
      exact hw
    case mark =>
      subst he
      dsimp only at hn
      split at hn
      · next hc =>
        cases hn
        exact ⟨c, List.contains_iff_mem.mp hc, rfl⟩
      · cases hn
    all_goals trivial
  · trivial

end Dialect

namespace Scanner

variable (d : Dialect) {n : Nat} {cs : List Char} {p : Piece}

/-- A piece is what stands at the front of the rest of the source. -/
theorem exists_of_mem_cut (hp : p ∈ d.cut n cs) :
    ∃ c cs, p = ⟨(d.classify (c :: cs)).1, c :: cs.take ((d.classify (c :: cs)).2 - 1)⟩ := by
  induction n generalizing cs with
  | zero => cases hp
  | succ n ih =>
    rcases cs with _ | ⟨c, cs⟩
    · cases hp
    · exact (List.mem_cons.mp hp).elim (fun h => ⟨c, cs, h⟩) ih

theorem spelled_of_mem_cut (hp : p ∈ d.cut n cs) : d.Spelled p.cls p.text := by
  obtain ⟨c, cs, rfl⟩ := exists_of_mem_cut d hp
  exact d.spelled_classify c cs

theorem tidy_ofSource (line : Nat) (source : String) : (ofSource d line source).Tidy := by
  intro p hp k v htok hk
  have hp : p ∈ d.cut source.toList.length source.toList := hp
  have htok : d.tokenOf p = .ok (some (k, v)) := htok
  have hspelled := spelled_of_mem_cut d hp
  have hoperators : ∀ w ∈ d.operators.map (·.1), w ≠ endName := by cases d <;> decide
  have hlookup : ∀ (table : List (String × String)) (s other : String),
      (∀ e ∈ table, e.2 ≠ endName) → other ≠ endName → (table.lookup s).getD other ≠ endName := by
    intro table s other htable hother
    rcases h : table.lookup s with _ | x
    · exact hother
    · exact htable (s, x) (mem_of_lookup h)
  rw [tokenOf] at htok
  subst hk
  split at htok
  · rcases h : Number.readFloat (String.ofList p.text) with e | x <;> simp [h, Except.map, endName] at htok
  · rcases h : Number.readInt (String.ofList p.text) with e | x <;> simp [h, Except.map, endName] at htok
  · simp [endName] at htok
  · simp [endName] at htok
  · next hcls =>
    simp only [Except.ok.injEq, Option.some.injEq, Prod.mk.injEq] at htok
    exact hlookup d.reserved _ _ (by cases d <;> decide) (by decide) htok.1
  · simp [endName] at htok
  · next hcls =>
    simp only [Except.ok.injEq, Option.some.injEq, Prod.mk.injEq] at htok
    rw [hcls] at hspelled
    exact hlookup d.operators _ _ (by cases d <;> decide) (hoperators _ hspelled) htok.1
  · next hcls =>
    simp only [Except.ok.injEq, Option.some.injEq, Prod.mk.injEq] at htok
    rw [hcls] at hspelled
    obtain ⟨c, -, htext⟩ := hspelled
    have hlength : 1 = endName.toList.length := by
      rw [← htok.1, htext, String.toList_ofList, List.length_singleton]
    exact absurd hlength (by decide)
  all_goals cases htok

/-- Whatever the bound, the tokens from a place on are these. -/
def Gives (s : Scanner) (ts : List Token) : Prop :=
  ∀ n, s.pieces.length < n → (upTo n s).2.1 = ts

theorem AtEnd.gives (h : s.AtEnd) : s.Gives [] := by
  intro n hn
  obtain ⟨n, rfl⟩ := Nat.exists_eq_add_of_lt (Nat.zero_lt_of_lt hn)
  obtain ⟨reports, s', hnext⟩ := h
  rw [Nat.zero_add, upTo, hnext]

theorem Gives.cons {reports : List String} {t : Token} (h : s.next = (reports, .ok (some t), s'))
    (hs' : s'.Gives ts) : s.Gives (t :: ts) := by
  intro n hn
  obtain ⟨n, rfl⟩ := Nat.exists_eq_add_of_lt (Nat.zero_lt_of_lt hn)
  have hlt := ((scan_spec s.dialect h).2.2 t rfl).1
  rw [Nat.zero_add, upTo, h]
  exact congrArg (t :: ·) (hs' n (by omega))

theorem Reads.gives (h : Reads s ts s') :
    ∀ {ts' : List Token}, s'.Gives ts' → s.Gives (ts ++ ts') := by
  induction h with
  | nil => exact fun hs => hs
  | snoc h ht ih =>
    intro ts' hs'
    rw [List.append_assoc]
    exact ih (.cons ht hs')

/-- The tokens that are read up to the end are all tokens. -/
theorem Reads.all (h : Reads s ts s') (hend : s'.AtEnd) :
    s.all.2.1 = ts := by
  have hgives := h.gives hend.gives
  rw [List.append_nil] at hgives
  exact hgives _ (Nat.lt_succ_self _)

end Scanner

/-! ### The parser -/

namespace Parsing

open Phrase

/-- The tokens up to the place of the parser: those of the phrases on the stack, and the one
that has been read and not yet shifted. -/
def Stands (g : Lalr.Rules) (scanner : Scanner) (p : Parsing)
    (tokens : List Token) : Prop :=
  match p.ahead with
  | none => scanner.Reads tokens p.scanner
  | some ⟨code, some t⟩ => code = g.names.idxOf t.kind ∧ t.kind ≠ endName ∧
      scanner.Reads (tokens ++ [t]) p.scanner
  | some ⟨code, none⟩ => code = g.endMark ∧ ∃ s, scanner.Reads tokens s ∧ s.AtEnd

/-- What holds of a parser that began before `scanner` with the compiler `c₀`: there are
phrases for the symbols on its stack, and their steps lead to its compiler. -/
structure Follows (d : Dialect) (g : Lalr.Rules) (scanner : Scanner) (c₀ : Compiler)
    (ps : List Phrase) (tokens : List Token) (p : Parsing) : Prop where
  derives : ∀ q ∈ ps, q.Derives d
  symbols : ∀ q ∈ ps, q.symbol ∈ d.symbols
  path : Lalr.Path (Lalr.Tables.build g).states (p.stack.map (·.1))
    (ps.map fun q => Dialect.code g q.symbol).reverse
  steps : ∃ values, CompilesAll none ps c₀ values p.compiler ∧
    p.stack.map (·.2) = values.reverse ++ [none]
  yield : (yieldAll ps).map (fun x => (kindOf x.1, x.2)) = tokens.map fun t => (t.kind, t.value)
  stands : p.Stands g scanner tokens
  dialect : p.scanner.dialect = d
  tidy : p.scanner.Tidy

variable {d : Dialect} {g : Lalr.Rules} {scanner : Scanner} {c₀ : Compiler} {ps : List Phrase}
  {tokens : List Token} {p : Parsing} {n : Nat}

theorem follows_start (hd : scanner.dialect = d) (ht : scanner.Tidy) (c₀ : Compiler) :
    Follows d g scanner c₀ [] [] (start scanner c₀) where
  derives := fun _ hq => absurd hq List.not_mem_nil
  symbols := fun _ hq => absurd hq List.not_mem_nil
  path := .start
  steps := ⟨[], ⟨rfl, .refl c₀⟩, rfl⟩
  yield := rfl
  stands := .nil scanner
  dialect := hd
  tidy := ht

/-- Looking at the next token keeps the phrases. -/
theorem Follows.look (h : Follows d g scanner c₀ ps tokens p) (ht : t.rules = g)
    (hlook : p.look t = (p', .ok a)) :
    Follows d g scanner c₀ ps tokens p' ∧ p'.stack = p.stack ∧ p'.ahead = some a := by
  rw [Parsing.look] at hlook
  rcases hahead : p.ahead with _ | b
  · simp only [hahead] at hlook
    rcases hnext : p.scanner.next with ⟨reports, result, s'⟩
    rw [hnext] at hlook
    obtain ⟨values, hsteps, hvalues⟩ := h.steps
    have hstands : scanner.Reads tokens p.scanner := by
      have := h.stands
      rwa [Stands, hahead] at this
    obtain ⟨hd, htidy, hkind⟩ := h.tidy.next hnext
    have hreports : p.compiler.Reports
        { p.compiler with printed := reports.reverse ++ p.compiler.printed } := ⟨_, rfl⟩
    rcases result with e | _ | token <;> cases hlook <;>
      refine ⟨⟨h.derives, h.symbols, h.path, ⟨values, hsteps.reports hreports, hvalues⟩, h.yield, ?_,
        hd.trans h.dialect, htidy⟩, rfl, rfl⟩
    · exact ⟨congrArg Rules.endMark ht, p.scanner, hstands, reports, s', hnext⟩
    · exact ⟨by rw [ht], hkind token rfl, .snoc hstands hnext⟩
  · simp only [hahead] at hlook
    cases hlook
    exact ⟨h, rfl, hahead⟩

/-- The state on top of the stack and what is below it. -/
theorem Follows.stack_eq (h : Follows d g scanner c₀ ps tokens p) :
    ∃ rest, p.stack.map (·.1) = p.state :: rest := by
  rcases hstack : p.stack with _ | ⟨e, rest⟩
  · exact absurd (hstack ▸ h.path).ne_nil (by simp)
  · refine ⟨rest.map (·.1), ?_⟩
    rw [state, hstack]
    rfl

theorem join_head?_reverse (values : List (Option Literal)) :
    (values.reverse ++ [none]).head?.join = lastOf none values := by
  rcases List.eq_nil_or_concat values with rfl | ⟨vs, v, rfl⟩
  · rfl
  · rw [List.concat_eq_append, List.reverse_append, lastOf, List.getLast?_concat]
    rfl

/-- What a reduction that goes through does. -/
theorem reduce_eq_more {k : Nat} (hk : (t.rules.right r).length = k) (h : p.reduce d t r = .more p') :
    ∃ value compiler target,
      (Compile.perform (((p.stack.drop k).head?.map (·.2)).join) ((p.stack.take k).reverse.map (·.2))
        (d.stepOf r)).run p.compiler = (.ok value, compiler) ∧
      t.goto? (((p.stack.drop k).head?.map (·.1)).getD 0) (t.rules.left r) = some target ∧
      p' = { p with compiler, stack := (target, value) :: p.stack.drop k } := by
  subst hk
  rw [Parsing.reduce] at h
  rcases hperform : (Compile.perform (((p.stack.drop (t.rules.right r).length).head?.map (·.2)).join)
    ((p.stack.take (t.rules.right r).length).reverse.map (·.2)) (d.stepOf r)).run p.compiler with
    ⟨e | value, compiler⟩
  · simp only [hperform] at h
    cases h
  · simp only [hperform] at h
    split at h
    · next target hgoto =>
      cases h
      exact ⟨value, compiler, target, hperform, hgoto, rfl⟩
    · cases h

theorem reduce_ne_accepted :
    p.reduce d t r ≠ .accepted p' := by
  intro h
  rw [Parsing.reduce] at h
  split at h
  split at h
  · cases h
  · dsimp only at h
    split at h <;> cases h

/-- What a parser that accepts has found. -/
def Accepts (d : Dialect) (scanner : Scanner) (c₀ c : Compiler) : Prop :=
  ∃ P value c₁, Derives d P ∧ P.symbol = "program" ∧ P.Compiles none c₀ value c₁ ∧ c₁.Reports c ∧
    P.yield.map (fun x => (kindOf x.1, x.2)) = scanner.all.2.1.map fun t => (t.kind, t.value)

section

variable (hc : Codes d g) (h : Follows d g scanner c₀ ps tokens p)
include hc h

/-- A shift puts the token on the stack. -/
theorem Follows.shift (ha : p.ahead = some a) {target : Nat}
    (haction : (Tables.build g).action? p.state a.code = some (.shift target)) :
    ∃ s t, (∀ rule ∈ d.rules, rule.name ≠ s) ∧
      Follows d g scanner c₀ (ps ++ [.token s t.value]) (tokens ++ [t])
        { p with ahead := none, stack := (target, a.token.map (·.value)) :: p.stack } := by
  obtain ⟨st, hst, hterminal, hmove⟩ := Tables.justified_of_action? haction
  have hsound : Sound g (Tables.build g).states := Tables.sound_states g
  obtain ⟨r, hr, hright⟩ := hsound.mem_right hst hmove
  obtain ⟨s, hs, hcode⟩ := hc.of_mem_right hr hright
  have hstands := h.stands
  obtain ⟨code, token⟩ := a
  rcases token with _ | t
  · -- the end of the input is in no rule
    simp only [Stands, ha] at hstands
    exact absurd (hcode.symm.trans hstands.1) (hc.endMark s hs)
  · simp only [Stands, ha] at hstands
    have hkind : t.kind = kindOf s := hc.kind s hs t.kind (hstands.1.symm.trans hcode)
    have hleaf : ∀ rule ∈ d.rules, rule.name ≠ s := by
      rintro rule hrule rfl
      have := hc.terminal rule hrule
      rw [← hcode] at this
      exact absurd hterminal (by simp [this])
    obtain ⟨values, hsteps, hvalues⟩ := h.steps
    obtain ⟨rest, hrest⟩ := h.stack_eq
    refine ⟨s, t, hleaf, ?_⟩
    exact {
      derives := by
        intro q hq
        rcases List.mem_append.mp hq with hq | hq
        · exact h.derives q hq
        · rw [List.mem_singleton.mp hq]
          exact .token t.value hleaf
      symbols := by
        intro q hq
        rcases List.mem_append.mp hq with hq | hq
        · exact h.symbols q hq
        · rw [List.mem_singleton.mp hq]
          exact hs
      path := by
        have hpath := h.path
        rw [hrest] at hpath
        rw [List.map_append, List.reverse_append, List.map_cons, hrest]
        have hmove' : (Dialect.code g s, target) ∈ st.moves := hcode ▸ hmove
        exact .move hpath hst hmove'
      steps := by
        refine ⟨values ++ [some t.value], ?_, ?_⟩
        · exact compilesAll_append.mpr ⟨values, [some t.value], p.compiler, rfl, hsteps,
            compilesAll_singleton ⟨rfl, .refl _⟩⟩
        · rw [List.map_cons, hvalues, List.reverse_append]
          rfl
      yield := by
        rw [yieldAll_append, List.map_append, List.map_append, h.yield]
        simp [hkind]
      stands := hstands.2.2
      dialect := h.dialect
      tidy := h.tidy }

/-- The phrases of the rule that is reduced are on top of the stack. -/
theorem Follows.split {rule : DialectRule}
    (hrule : d.rules[n]? = some rule) (hst : (Tables.build g).states[p.state]? = some st) {i : Item}
    (hi : i ∈ st.items) (hir : i.rule = n + 1) (hrest : i.rest = []) :
    ∃ ps₁ ps₂, ps = ps₁ ++ ps₂ ∧ ps₂.map symbol = rule.symbols := by
  have hsound : Sound g (Tables.build g).states := Tables.sound_states g
  obtain ⟨below, hbelow⟩ := h.stack_eq
  have hdot := (hsound.fits hst hi).dot_eq hrest
  obtain ⟨hle, htake⟩ := Path.take_dot hsound h.path hbelow hst i hi
  rw [hdot, List.take_length, hir, hc.right n rule hrule] at htake
  rw [hdot, hir, hc.right n rule hrule, List.length_reverse, List.length_map, List.length_map] at hle
  rw [List.length_map, List.take_reverse, List.reverse_reverse, ← List.map_drop] at htake
  refine ⟨_, _, (List.take_append_drop (ps.length - rule.symbols.length) ps).symm, ?_⟩
  rw [List.length_map] at htake
  have hcodes : ((ps.drop (ps.length - rule.symbols.length)).map symbol).map (code g) =
      rule.symbols.map (code g) := by
    rw [List.map_map]
    exact htake
  refine map_reflect (fun s hs t ht heq => code_inj hc ?_ ?_ heq) hcodes
  · obtain ⟨q, hq, rfl⟩ := List.mem_map.mp hs
    exact h.symbols q (List.mem_of_mem_drop hq)
  · exact List.mem_flatMap.mpr ⟨rule, List.mem_of_getElem? hrule, List.mem_cons_of_mem _ ht⟩

/-- The phrases that a reduction is for are on top of the stack, with their values; it does the
step of their rule. -/
theorem Follows.parts (hst : (Tables.build g).states[p.state]? = some st) {s : Nat}
    (hr : Justified g st s (.reduce r)) :
    ∃ n rule ps₁ ps₂ values₁ values₂ c₁, r = n + 1 ∧ d.rules[n]? = some rule ∧ ps = ps₁ ++ ps₂ ∧
      ps₂.map symbol = rule.symbols ∧ CompilesAll none ps₁ c₀ values₁ c₁ ∧
      CompilesAll (lastOf none values₁) ps₂ c₁ values₂ p.compiler ∧
      ((Tables.build g).rules.right r).length = ps₂.length ∧ d.stepOf r = rule.step ∧
      (p.stack.take ps₂.length).reverse.map (·.2) = values₂ ∧
      (p.stack.drop ps₂.length).map (·.2) = values₁.reverse ++ [none] := by
  obtain ⟨hr0, i, hi, hir, hrest⟩ := hr
  have hsound : Sound g (Tables.build g).states := Tables.sound_states g
  obtain ⟨n, rfl⟩ : ∃ n, r = n + 1 := Nat.exists_eq_succ_of_ne_zero hr0
  obtain ⟨rule, hrule⟩ : ∃ rule, d.rules[n]? = some rule := by
    have hlt := (hsound.fits hst hi).rule (by omega)
    rw [hc.size, hir] at hlt
    exact ⟨_, List.getElem?_eq_getElem (by omega)⟩
  obtain ⟨ps₁, ps₂, rfl, hsymbols⟩ := h.split hc hrule hst hi hir hrest
  obtain ⟨values, hsteps, hvalues⟩ := h.steps
  obtain ⟨values₁, values₂, c₁, rfl, hsteps₁, hsteps₂⟩ := compilesAll_append.mp hsteps
  have hlength : values₂.reverse.length = ps₂.length := by
    rw [List.length_reverse, hsteps₂.length_eq]
  have hright : ((Tables.build g).rules.right (n + 1)).length = ps₂.length := by
    rw [Tables.rules_build, hc.right n rule hrule, ← hsymbols, List.length_map, List.length_map]
  rw [List.reverse_append, List.append_assoc] at hvalues
  have hargs : (p.stack.take ps₂.length).reverse.map (·.2) = values₂ := by
    rw [List.map_reverse, List.map_take, hvalues, List.take_left' hlength, List.reverse_reverse]
  have hdrop : (p.stack.drop ps₂.length).map (·.2) = values₁.reverse ++ [none] := by
    rw [List.map_drop, hvalues, List.drop_left' hlength]
  have hstep : d.stepOf (n + 1) = rule.step := by
    rw [stepOf, hrule]
    rfl
  exact ⟨n, rule, ps₁, ps₂, values₁, values₂, c₁, rfl, hrule, rfl, hsymbols, hsteps₁, hsteps₂, hright,
    hstep, hargs, hdrop⟩

/-- A reduction puts a phrase of the rule in the place of its parts. -/
theorem Follows.reduce (hst : (Tables.build g).states[p.state]? = some st) {s : Nat}
    (hr : Justified g st s (.reduce r)) (hp : p.reduce d (Tables.build g) r = .more p') :
    ∃ n rule ps₁ ps₂, r = n + 1 ∧ d.rules[n]? = some rule ∧ ps = ps₁ ++ ps₂ ∧
      ps₂.map symbol = rule.symbols ∧ Follows d g scanner c₀ (ps₁ ++ [.node rule ps₂]) tokens p' := by
  obtain ⟨n, rule, ps₁, ps₂, values₁, values₂, c₁, rfl, hrule, rfl, hsymbols, hsteps₁, hsteps₂, hright,
    hstep, hargs, hdrop⟩ := h.parts hc hst hr
  obtain ⟨value, compiler, target, hperform, hgoto, rfl⟩ := reduce_eq_more hright hp
  rw [hargs, ← List.head?_map, hdrop, join_head?_reverse, hstep] at hperform
  -- the state below, and the move over the symbol of the rule
  have hpath : Path (Tables.build g).states ((p.stack.drop ps₂.length).map (·.1))
      (ps₁.map fun q => code g q.symbol).reverse := by
    have hle : ps₂.length ≤ ((ps₁ ++ ps₂).map fun q => code g q.symbol).reverse.length := by
      simp
    have := h.path.drop hle
    rwa [← List.map_drop, List.map_append, List.reverse_append,
      List.drop_left' (by rw [List.length_reverse, List.length_map])] at this
  rcases hbelow : p.stack.drop ps₂.length with _ | ⟨e, below⟩
  · exact absurd (hbelow ▸ hpath).ne_nil (by simp)
  rw [hbelow] at hpath hgoto hdrop
  rw [Tables.rules_build, hc.left n rule hrule] at hgoto
  obtain ⟨st', hst', hmove⟩ := Tables.mem_moves_of_goto? hgoto
  refine ⟨n, rule, ps₁, ps₂, rfl, hrule, rfl, hsymbols, ?_⟩
  exact {
    derives := by
      intro q hq
      rcases List.mem_append.mp hq with hq | hq
      · exact h.derives q (List.mem_append_left _ hq)
      · rw [List.mem_singleton.mp hq]
        exact .node (List.mem_of_getElem? hrule) hsymbols fun q hq =>
          h.derives q (List.mem_append_right _ hq)
    symbols := by
      intro q hq
      rcases List.mem_append.mp hq with hq | hq
      · exact h.symbols q (List.mem_append_left _ hq)
      · rw [List.mem_singleton.mp hq]
        exact List.mem_flatMap.mpr ⟨rule, List.mem_of_getElem? hrule, List.mem_cons_self⟩
    path := by
      rw [List.map_append, List.reverse_append]
      exact .move hpath hst' hmove
    steps := by
      refine ⟨values₁ ++ [value], ?_, ?_⟩
      · refine compilesAll_append.mpr ⟨values₁, [value], c₁, rfl, hsteps₁, ?_⟩
        exact compilesAll_singleton (compiles_node.mpr ⟨values₂, p.compiler, hsteps₂, hperform⟩)
      · rw [List.map_cons, hdrop, List.reverse_append]
        rfl
    yield := by
      rw [yieldAll_append, yieldAll_cons, yield_node, yieldAll_nil, List.append_nil,
        ← yieldAll_append]
      exact h.yield
    stands := h.stands
    dialect := h.dialect
    tidy := h.tidy }

theorem Follows.accept (ha : p.ahead = some a) (haction : (Tables.build g).action? p.state a.code = some .accept) :
    Accepts d scanner c₀ p.compiler := by
  obtain ⟨st, hst, hend, i, hi, hir, hrest⟩ := Tables.justified_of_action? haction
  have hsound : Sound g (Tables.build g).states := Tables.sound_states g
  obtain ⟨below, hbelow⟩ := h.stack_eq
  have hroot : (g.right 0).length = 1 := by rw [hc.start]; rfl
  -- one phrase is on the stack, and it is a program
  have hsymbols := (hbelow ▸ h.path).accepts hsound hroot hst hi hir hrest
  rw [hc.start, List.reverse_eq_cons_iff, List.reverse_nil, List.nil_append] at hsymbols
  obtain ⟨P, rfl⟩ : ∃ P, ps = [P] := by
    rw [← List.length_eq_one_iff, ← List.length_map (f := fun q => code g q.symbol), hsymbols]
    rfl
  obtain ⟨values, hsteps, -⟩ := h.steps
  obtain ⟨value, c₁, rest, hP, ⟨rfl, hreports⟩, rfl⟩ := compilesAll_cons.mp hsteps
  have hsymbol : P.symbol = "program" :=
    code_inj hc (h.symbols P List.mem_cons_self) d.program_mem_symbols (List.cons.inj hsymbols).1
  -- the end of the input has been read
  have hall : scanner.all.2.1 = tokens := by
    have hstands := h.stands
    obtain ⟨code, token⟩ := a
    rcases token with _ | t
    · simp only [Stands, ha] at hstands
      obtain ⟨-, s, hreads, hs⟩ := hstands
      exact hreads.all hs
    · simp only [Stands, ha] at hstands
      exact absurd (hc.endKind t.kind (hstands.1.symm.trans hend)) hstands.2.1
  have hyield := h.yield
  rw [yieldAll_cons, yieldAll_nil, List.append_nil] at hyield
  exact ⟨P, value, c₁, h.derives P List.mem_cons_self, hsymbol, hP, hreports, hall ▸ hyield⟩

/-- One step keeps that there are phrases for the stack; a last step has found a program. -/
theorem Follows.advance :
    (∀ p', p.advance d (.build g) = .more p' → ∃ ps' tokens', Follows d g scanner c₀ ps' tokens' p') ∧
      ∀ p', p.advance d (.build g) = .accepted p' → Accepts d scanner c₀ p'.compiler := by
  have hreduce : ∀ {q : Parsing} {r s : Nat} {st : State},
      Follows d g scanner c₀ ps tokens q → (Tables.build g).states[q.state]? = some st →
      Justified g st s (.reduce r) →
      (∀ p', q.reduce d (.build g) r = .more p' →
        ∃ ps' tokens', Follows d g scanner c₀ ps' tokens' p') ∧
      ∀ p', q.reduce d (.build g) r ≠ .accepted p' := by
    intro q r s st hq hst hj
    refine ⟨fun p' hp' => ?_, fun p' => reduce_ne_accepted⟩
    obtain ⟨-, rule, ps₁, ps₂, -, -, -, -, h'⟩ := hq.reduce hc hst hj hp'
    exact ⟨ps₁ ++ [.node rule ps₂], tokens, h'⟩
  rw [Parsing.advance]
  rcases hdefault : (Tables.build g).defaulted? p.state with _ | r
  · dsimp only
    rcases hlook : p.look (Tables.build g) with ⟨q, e | a⟩
    · dsimp only
      exact ⟨fun p' hp' => (by cases hp'), fun p' hp' => (by cases hp')⟩
    dsimp only
    obtain ⟨hq, hstack, hahead⟩ := h.look (Tables.rules_build g) hlook
    rcases haction : (Tables.build g).action? q.state a.code with _ | action
    · exact ⟨fun p' hp' => (by cases hp'), fun p' hp' => (by cases hp')⟩
    cases action with
    | shift target =>
      refine ⟨fun p' hp' => ?_, fun p' hp' => (by cases hp')⟩
      cases hp'
      obtain ⟨s, t, -, h'⟩ := hq.shift hc hahead haction
      exact ⟨ps ++ [.token s t.value], tokens ++ [t], h'⟩
    | reduce r =>
      obtain ⟨st, hst, hj⟩ := Tables.justified_of_action? haction
      obtain ⟨hmore, haccept⟩ := hreduce hq hst hj
      exact ⟨hmore, fun p' hp' => absurd hp' (haccept p')⟩
    | accept =>
      refine ⟨fun p' hp' => (by cases hp'), fun p' hp' => ?_⟩
      cases hp'
      exact hq.accept hc hahead haction
    | refuse => exact ⟨fun p' hp' => (by cases hp'), fun p' hp' => (by cases hp')⟩
  · obtain ⟨st, s, hst, hj⟩ := Tables.justified_of_defaulted? hdefault
    obtain ⟨hmore, haccept⟩ := hreduce h hst hj
    exact ⟨hmore, fun p' hp' => absurd hp' (haccept p')⟩

end

/-- What a run of the parser that accepts has found. -/
theorem Follows.advances (hc : Codes d g) (h : Follows d g scanner c₀ ps tokens p) {q : Parsing}
    (hq : p.advances d (.build g) n = (q, none)) : Accepts d scanner c₀ q.compiler := by
  induction n generalizing p ps tokens with
  | zero => cases hq
  | succ n ih =>
    obtain ⟨hmore, haccept⟩ := h.advance hc
    rw [Parsing.advances] at hq
    rcases hstep : p.advance d (.build g) with p' | p' | ⟨p', fault⟩ <;> rw [hstep] at hq
    · obtain ⟨ps', tokens', h'⟩ := hmore p' hstep
      exact ih h' hq
    · cases hq
      exact haccept _ hstep
    · cases hq

/-- Without coded rules nothing is accepted. -/
theorem advances_of_no_rows (ht : t.rows = #[]) {q : Parsing} : p.advances d t n ≠ (q, none) := by
  intro h
  have hdefault : t.defaulted? p.state = none := by simp [Tables.defaulted?, ht]
  have haction : ∀ s k, t.action? s k = none := by simp [Tables.action?, ht]
  rcases n with _ | n
  · cases h
  · rw [Parsing.advances, Parsing.advance, hdefault] at h
    dsimp only at h
    rcases hlook : p.look t with ⟨q', e | a⟩
    · rw [hlook] at h
      cases h
    · rw [hlook] at h
      dsimp only at h
      rw [haction] at h
      cases h

end Parsing

theorem Dialect.tables_eq (d : Dialect) : d.tables = d.makeTables := by
  cases d <;> rfl

/-- A source that is compiled has a derivation of the start symbol, with the tokens of the
source as its leaves, and its steps lead to the final state of the compiler. -/
theorem compile_derives {scanner : Scanner} (hs : scanner.Tidy) {c₀ : Compiler} {p : Parsing}
    (h : compile scanner c₀ = (p, none)) :
    Parsing.Accepts scanner.dialect scanner c₀ p.compiler := by
  rw [compile, tables_eq, makeTables] at h
  rcases hcoded : scanner.dialect.coded with _ | g
  · rw [hcoded] at h
    exact absurd h (Parsing.advances_of_no_rows rfl)
  · rw [hcoded] at h
    exact (Parsing.follows_start rfl hs c₀).advances (codes hcoded) h

end QuadLang
