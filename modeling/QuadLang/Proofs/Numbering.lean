/-
The rules of a dialect by numbers.

What is said of all rules of a dialect is checked by evaluation.  For this the symbols are
numbered and a set of symbols is one number, a bit for each member.

* `Bits.has`, `Bits.has_add` — sets of numbers as numbers;
* `Dialect.number`, `Dialect.number_inj` — the numbers of the symbols of a dialect;
* `Dialect.numbered` — its rules, written with them.

Design notes: what is evaluated here is written with the operations on numbers that evaluate
at once, rather than with their notations and the decision procedures behind those.
-/
import QuadLang.Proofs.Blanks
import QuadLang.Proofs.Regular
import QuadLang.Proofs.Shapes

namespace QuadLang

open Lalr

variable {k : Nat} {s : String} {xs : List Nat}

/-! ### Sets of numbers -/

namespace Bits

def has (b n : Nat) : Bool := Nat.beq (Nat.land (Nat.shiftRight b n) 1) 1

/-- A set with one more number. -/
def add (b n : Nat) : Nat := Nat.lor b (Nat.shiftLeft 1 n)

theorem has_eq_testBit (b n : Nat) : has b n = b.testBit n := by
  have h : Nat.land (Nat.shiftRight b n) 1 = b / 2 ^ n % 2 := by
    show (b >>> n) &&& 1 = _
    rw [Nat.and_one_is_mod, Nat.shiftRight_eq_div_pow]
  rw [has, h, Nat.testBit_eq_decide_div_mod_eq, Bool.eq_iff_iff, Nat.beq_eq,
    decide_eq_true_iff]

theorem not_has_zero (n : Nat) : has 0 n = false := by
  rw [has_eq_testBit, Nat.zero_testBit]

theorem has_add {b n m : Nat} : has (add b n) m = true ↔ has b m = true ∨ m = n := by
  have h : add b n = b ||| 1 <<< n := rfl
  rw [has_eq_testBit, has_eq_testBit, h, Nat.testBit_or, Nat.shiftLeft_eq, Nat.one_mul,
    Nat.testBit_two_pow, Bool.or_eq_true, decide_eq_true_iff, eq_comm (a := n)]

end Bits

/-! ### Numbered symbols -/

/-- Whether a number is in a list. -/
def listed (k : Nat) : List Nat → Bool
  | [] => false
  | x :: xs => bif Nat.beq x k then true else listed k xs

/-- The place of a number in a list. -/
def placeOf (k : Nat) : List Nat → Nat
  | [] => 0
  | x :: xs => bif Nat.beq x k then 0 else Nat.succ (placeOf k xs)

/-- Add the numbers of a list that are not yet in another. -/
def distinct : List Nat → List Nat → List Nat
  | [], seen => seen
  | x :: xs, seen => bif listed x seen then distinct xs seen else distinct xs (x :: seen)

theorem listed_iff : listed k xs = true ↔ k ∈ xs := by
  induction xs with
  | nil => simp [listed]
  | cons x xs ih =>
    rw [listed, List.mem_cons, ← ih]
    rcases h : Nat.beq x k with _ | _
    · have hne : k ≠ x := fun heq => Nat.ne_of_beq_eq_false h heq.symm
      exact ⟨.inr, fun h => h.resolve_left hne⟩
    · exact ⟨fun _ => .inl (Nat.eq_of_beq_eq_true h).symm, fun _ => rfl⟩

theorem mem_distinct : ∀ {seen : List Nat},
    k ∈ distinct xs seen ↔ k ∈ xs ∨ k ∈ seen := by
  induction xs with
  | nil => simp [distinct]
  | cons x xs ih =>
    intro seen
    rw [distinct]
    rcases h : listed x seen with _ | _
    · rw [cond_false, ih, List.mem_cons, List.mem_cons]
      tauto
    · have hx : x ∈ seen := listed_iff.mp h
      rw [cond_true, ih, List.mem_cons]
      constructor
      · tauto
      · rintro ((rfl | h) | h)
        · exact .inr hx
        · exact .inl h
        · exact .inr h

theorem placeOf_inj {k' : Nat} (hk : k ∈ xs) (h : placeOf k xs = placeOf k' xs) : k = k' := by
  induction xs with
  | nil => cases hk
  | cons x xs ih =>
    rw [placeOf, placeOf] at h
    rcases hb : Nat.beq x k with _ | _ <;> rcases hb' : Nat.beq x k' with _ | _ <;>
      rw [hb, hb'] at h
    · have hne : k ≠ x := fun heq => Nat.ne_of_beq_eq_false hb heq.symm
      exact ih ((List.mem_cons.mp hk).resolve_left hne) (Nat.succ.inj h)
    · cases h
    · cases h
    · exact (Nat.eq_of_beq_eq_true hb).symm.trans (Nat.eq_of_beq_eq_true hb')

theorem placeOf_lt (hk : k ∈ xs) : placeOf k xs < xs.length := by
  induction xs with
  | nil => cases hk
  | cons x xs ih =>
    rw [placeOf, List.length_cons]
    rcases h : Nat.beq x k with _ | _
    · have hne : k ≠ x := fun heq => Nat.ne_of_beq_eq_false h heq.symm
      exact Nat.succ_lt_succ (ih ((List.mem_cons.mp hk).resolve_left hne))
    · exact Nat.succ_pos _

namespace Dialect

/-- The numbers of the texts of all symbols. -/
def keys (d : Dialect) : List Nat := distinct (d.symbols.map Text.key) []

def number (d : Dialect) (s : String) : Nat := placeOf (Text.key s) d.keys

theorem number_inj {d : Dialect} {t : String} (hs : s ∈ d.symbols) (h : d.number s = d.number t) :
    s = t :=
  Text.key_inj (placeOf_inj (mem_distinct.mpr (.inl (List.mem_map_of_mem hs))) h)

def numbered (d : Dialect) : List (Nat × List Nat) :=
  d.rules.map fun r => (d.number r.name, r.symbols.map d.number)

variable {d : Dialect} {r : DialectRule}

theorem mem_numbered (hr : r ∈ d.rules) :
    (d.number r.name, r.symbols.map d.number) ∈ d.numbered :=
  List.mem_map_of_mem hr

theorem symbols_inj {r : DialectRule} (hr : r ∈ d.rules) {ss : List String}
    (h : r.symbols.map d.number = ss.map d.number) : r.symbols = ss :=
  map_reflect (fun _ hs _ _ heq => number_inj (mem_symbols_of_mem hr hs) heq) h

end Dialect

/-! ### Tables over numbered rules -/

/-- Rules by numbers, with the numbers of the symbols around lists. -/
structure Numbers where
  rules : List (Nat × List Nat)
  blank : Nat
  one : Nat
  many : Nat

namespace Numbers

open Bits

/-- The symbols with a rule that derives nothing. -/
def nulls (G : Numbers) : Nat :=
  G.rules.foldr (fun r b => bif r.2.all (Nat.beq G.blank) then add b r.1 else b) 0

theorem has_nulls {G : Numbers} {s : Nat} : has G.nulls s = true ↔
    ∃ r ∈ G.rules, r.1 = s ∧ ∀ t ∈ r.2, t = G.blank := by
  rw [nulls]
  induction G.rules with
  | nil => simp [not_has_zero]
  | cons r rs ih =>
    have hall : r.2.all (Nat.beq G.blank) = true ↔ ∀ t ∈ r.2, t = G.blank := by
      rw [List.all_eq_true]
      exact forall₂_congr fun t _ => by rw [Nat.beq_eq, eq_comm]
    rw [List.foldr_cons]
    rcases h : r.2.all (Nat.beq G.blank) with _ | _
    · have hno : ¬∀ t ∈ r.2, t = G.blank := fun hyes => by
        rw [hall.mpr hyes] at h
        cases h
      rw [cond_false, ih]
      constructor
      · rintro ⟨q, hq, heq⟩
        exact ⟨q, List.mem_cons_of_mem _ hq, heq⟩
      · rintro ⟨q, hq, heq⟩
        rcases List.mem_cons.mp hq with rfl | hq
        · exact absurd heq.2 hno
        · exact ⟨q, hq, heq⟩
    · rw [cond_true, has_add, ih]
      constructor
      · rintro (⟨q, hq, heq⟩ | rfl)
        · exact ⟨q, List.mem_cons_of_mem _ hq, heq⟩
        · exact ⟨r, List.mem_cons_self, rfl, hall.mp h⟩
      · rintro ⟨q, hq, heq⟩
        rcases List.mem_cons.mp hq with rfl | hq
        · exact .inr heq.1.symm
        · exact .inl ⟨q, hq, heq⟩

/-- How many nullable symbols stand at the beginning, as in `Lalr.Rules.slack`. -/
def slack (nulls one : Nat) : List Nat → Nat
  | [] => 0
  | s :: rest =>
    if has nulls s = true then
      if s = one then max 1 (slack nulls one rest) else slack nulls one rest + 1
    else 0

/-- Add what the rules of the symbols of a set begin with. -/
def addCorners (G : Numbers) (c : Nat) : Nat :=
  G.rules.foldl (fun c r => bif has c r.1 then (r.2.take 1).foldl add c else c) c

/-- What a list can begin with. -/
def corners (G : Numbers) : Nat := G.addCorners (G.addCorners (add 0 G.many))

/-- A number below 256 in a table. -/
def field (t s : Nat) : Nat := Nat.land (Nat.shiftRight t (Nat.mul 8 s)) 255

/-- The rules in a derivation of nothing from a symbol; there is none from a member of a list. -/
def bare (G : Numbers) (s : Nat) : Nat :=
  bif Nat.beq s G.blank then 1 else bif Nat.beq s G.one then 0 else bif has G.nulls s then 2 else 0

/-- The rules in derivations of nothing from symbols. -/
def bareAll (G : Numbers) : List Nat → Nat
  | [] => 0
  | s :: rest => Nat.add (G.bare s) (G.bareAll rest)

/-- How many rules it takes to derive a token from a list of symbols, if the table says how many
it takes for each of them, and every other token that is derived pays for 40 rules. -/
def heft (G : Numbers) (w : Nat) : List Nat → Nat
  | [] => 0
  | s :: rest =>
    max (field w s + G.heft w rest - 40)
      (max (bif rest.all fun t => Nat.blt 0 (G.bare t) then field w s + G.bareAll rest else 0)
        (bif Nat.blt 0 (G.bare s) then G.bare s + G.heft w rest else 0))

/-- Raise the weight of a symbol to what one of its rules needs. -/
def raise (G : Numbers) (r : Nat × List Nat) (w : Nat) : Nat :=
  bif Nat.beq r.1 G.one && r.2.all (Nat.beq G.blank) then w
  else bif Nat.blt (G.heft w r.2) (field w r.1) then w
  else Nat.add w (Nat.shiftLeft (Nat.sub (Nat.succ (G.heft w r.2)) (field w r.1)) (Nat.mul 8 r.1))

/-- How many rules it takes to derive a token from each symbol. -/
def weights (G : Numbers) : Nat := G.rules.foldr G.raise (G.rules.foldr G.raise 0)

end Numbers

namespace Dialect

open Bits Numbers Spelling

/-- The rules of a dialect by numbers. -/
def numbers (d : Dialect) : Numbers :=
  ⟨d.numbered, d.number "empty", d.number "statement", d.number "statements"⟩

/-- The check of every rule. -/
theorem numbers_fit (d : Dialect) : ∀ r ∈ d.numbers.rules,
    (d.numbers.blank ∈ r.2 → r.2 = [d.numbers.blank]) ∧
    (d.numbers.one ∈ r.2 → r.1 = d.numbers.many ∧ r.2 = [d.numbers.one, d.numbers.many]) ∧
    (r.1 = d.numbers.blank → r.2 = []) ∧
    ((∀ s ∈ r.2, has d.numbers.nulls s = true) → has d.numbers.nulls r.1 = true ∧
      (r.2 = [] ∧ r.1 = d.numbers.blank ∨ r.2 = [d.numbers.blank] ∨
        r.2 = [d.numbers.one, d.numbers.many])) ∧
    slack d.numbers.nulls d.numbers.one r.2 ≤ (if has d.numbers.nulls r.1 = true then 1 else 0) ∧
    (∀ ss ∈ r.2.tails, slack d.numbers.nulls d.numbers.one ss ≤ 2) ∧
    (has d.numbers.corners r.1 = true → ∀ s ∈ r.2.take 1, has d.numbers.corners s = true ∧
      (has d.numbers.nulls s = true → s = d.numbers.blank ∨ s = d.numbers.one)) ∧
    (r.1 = d.numbers.one ∧ r.2 = [d.numbers.blank] ∨
      d.numbers.heft d.numbers.weights r.2 < field d.numbers.weights r.1) ∧
    field d.numbers.weights r.1 ≤ 40 := by
  cases d <;> decide +kernel

/-- The check of the rules for lists: they are there, the end of a list is written before the
blank member, and some member begins with a token. -/
theorem numbers_lists (d : Dialect) :
    has d.numbers.corners d.numbers.many = true ∧ (d.numbers.blank, []) ∈ d.numbers.rules ∧
    (d.numbers.many, [d.numbers.blank]) ∈ d.numbers.rules ∧
    (d.numbers.many, [d.numbers.one, d.numbers.many]) ∈ d.numbers.rules ∧
    (∀ x ∈ d.numbers.rules.zipIdx, x.1 = (d.numbers.many, [d.numbers.blank]) →
      ∀ y ∈ d.numbers.rules.zipIdx, y.1 = (d.numbers.one, [d.numbers.blank]) → x.2 < y.2) ∧
    ∃ r ∈ d.numbers.rules, r.1 = d.numbers.one ∧ ∃ q ∈ d.numbers.rules, r.2 = [q.1] ∧
      ∃ t ∈ q.2.take 1, ∀ x ∈ d.numbers.rules, x.1 ≠ t := by
  cases d <;> decide +kernel

variable {d : Dialect} {r : DialectRule}

theorem exists_rule_of_mem {x : Nat} {ys : List Nat} (h : (x, ys) ∈ d.numbers.rules) :
    ∃ r ∈ d.rules, d.number r.name = x ∧ r.symbols.map d.number = ys := by
  obtain ⟨r, hr, heq⟩ := List.mem_map.mp h
  exact ⟨r, hr, congrArg Prod.fst heq, congrArg Prod.snd heq⟩

/-- The symbols that derive nothing. -/
def Blank (d : Dialect) (s : String) : Prop := has d.numbers.nulls (d.number s) = true

section Rule

variable (hr : r ∈ d.rules)

include hr

theorem eq_empty_of_mem (h : "empty" ∈ r.symbols) : r.symbols = ["empty"] :=
  symbols_inj hr ((d.numbers_fit _ (mem_numbered hr)).1 (List.mem_map_of_mem h))

theorem eq_statements_of_mem (h : "statement" ∈ r.symbols) :
    r.name = "statements" ∧ r.symbols = ["statement", "statements"] := by
  obtain ⟨hname, hsymbols⟩ := (d.numbers_fit _ (mem_numbered hr)).2.1 (List.mem_map_of_mem h)
  exact ⟨number_inj (mem_symbols_of_name hr) hname, symbols_inj hr hsymbols⟩

theorem symbols_of_empty (h : r.name = "empty") : r.symbols = [] :=
  List.map_eq_nil_iff.mp ((d.numbers_fit _ (mem_numbered hr)).2.2.1 (congrArg d.number h))

theorem blank_of_forall (h : ∀ s ∈ r.symbols, d.Blank s) : d.Blank r.name ∧
    (r.symbols = [] ∧ r.name = "empty" ∨ r.symbols = ["empty"] ∨
      r.symbols = ["statement", "statements"]) := by
  have hnulls : ∀ s ∈ r.symbols.map d.number, has d.numbers.nulls s = true := by
    intro s hs
    obtain ⟨t, ht, rfl⟩ := List.mem_map.mp hs
    exact h t ht
  obtain ⟨hname, hcases⟩ := (d.numbers_fit _ (mem_numbered hr)).2.2.2.1 hnulls
  refine ⟨hname, ?_⟩
  rcases hcases with ⟨hnil, hblank⟩ | hone | hmany
  · exact .inl ⟨List.map_eq_nil_iff.mp hnil, number_inj (mem_symbols_of_name hr) hblank⟩
  · exact .inr (.inl (symbols_inj hr hone))
  · exact .inr (.inr (symbols_inj hr hmany))

end Rule

/-- What derives nothing has a rule that says so. -/
theorem Blank.exists_rule (h : d.Blank s) :
    ∃ r ∈ d.rules, r.name = s ∧ ∀ t ∈ r.symbols, t = "empty" := by
  obtain ⟨⟨x, ys⟩, hmem, hx, hys⟩ := has_nulls.mp h
  obtain ⟨r, hr, rfl, rfl⟩ := exists_rule_of_mem hmem
  refine ⟨r, hr, number_inj (mem_symbols_of_name hr) hx, fun t ht => ?_⟩
  exact number_inj (mem_symbols_of_mem hr ht) (hys _ (List.mem_map_of_mem ht))

/-- The rules for lists are there. -/
theorem exists_list_rules (d : Dialect) :
    (∃ r ∈ d.rules, r.name = "empty" ∧ r.symbols = []) ∧
    (∃ r ∈ d.rules, r.name = "statements" ∧ r.symbols = ["empty"]) ∧
    ∃ r ∈ d.rules, r.name = "statements" ∧ r.symbols = ["statement", "statements"] := by
  have hrule : ∀ (s : String) (ss : List String),
      (d.number s, ss.map d.number) ∈ d.numbers.rules → ∃ r ∈ d.rules, r.name = s ∧ r.symbols = ss := by
    intro s ss h
    obtain ⟨r, hr, hname, hsymbols⟩ := exists_rule_of_mem h
    exact ⟨r, hr, number_inj (mem_symbols_of_name hr) hname, symbols_inj hr hsymbols⟩
  obtain ⟨-, hblank, hend, hmore, -⟩ := d.numbers_lists
  exact ⟨hrule _ [] hblank, hrule _ ["empty"] hend, hrule _ ["statement", "statements"] hmore⟩

/-! ### The coded grammars -/

variable {g : Lalr.Rules}

/-- The right sides of coded rules. -/
theorem exists_symbols (hc : Codes d g) {r : Nat} (hlt : r < g.rules.size) :
    ∃ ss : List String, g.right r = ss.map (code g) ∧ (∀ s ∈ ss, s ∈ d.symbols) ∧
      (r = 0 ∧ ss = ["program"] ∨
        ∃ n rule, r = n + 1 ∧ d.rules[n]? = some rule ∧ ss = rule.symbols) := by
  rcases Nat.eq_zero_or_pos r with rfl | hr
  · refine ⟨["program"], hc.start, fun s hs => ?_, .inl ⟨rfl, rfl⟩⟩
    rw [List.mem_singleton.mp hs]
    exact d.program_mem_symbols
  · obtain ⟨n, rule, rfl, hrule⟩ := Dialect.exists_rule hc hr.ne' hlt
    exact ⟨rule.symbols, hc.right n rule hrule,
      fun s hs => mem_symbols_of_mem (List.mem_of_getElem? hrule) hs, .inr ⟨n, rule, rfl, hrule, rfl⟩⟩

theorem mem_rulesOf_code (hc : Codes d g) (hs : s ∈ d.symbols) {r : Nat} :
    r ∈ g.rulesOf (code g s) ↔ ∃ n rule, r = n + 1 ∧ d.rules[n]? = some rule ∧ rule.name = s := by
  rw [Rules.mem_rulesOf]
  constructor
  · rintro ⟨hlt, hr, hleft⟩
    obtain ⟨n, rule, rfl, hrule⟩ := Dialect.exists_rule hc hr hlt
    rw [hc.left n rule hrule] at hleft
    exact ⟨n, rule, rfl, hrule, code_inj hc (mem_symbols_of_name (List.mem_of_getElem? hrule)) hs hleft⟩
  · rintro ⟨n, rule, rfl, hrule, rfl⟩
    have hn := (List.getElem?_eq_some_iff.mp hrule).1
    exact ⟨by rw [hc.size]; omega, Nat.succ_ne_zero n, hc.left n rule hrule⟩

/-- The check that a symbol of a rule is in quotes, or a kind of token, or the name of a rule. -/
def symbolsKnown (d : Dialect) : Bool :=
  d.rules.all fun r => r.symbols.all fun s =>
    spelledWell (fun cs => (quoted? cs).isSome) s || listed (Text.key s) (d.kinds.map Text.key) ||
      listed (Text.key s) (d.rules.map fun q => Text.key q.name)

theorem symbolsKnown_eq_true (d : Dialect) : d.symbolsKnown = true := by
  cases d <;> decide +kernel

/-- A symbol that is not the name of a rule is a terminal. -/
theorem isTerminal_code (h : d.coded = some g) (hs : s ∈ d.symbols)
    (hname : ∀ r ∈ d.rules, r.name ≠ s) : g.isTerminal (code g s) = true := by
  obtain ⟨m, hm⟩ := exists_codesOf h
  obtain ⟨r, hr, hmem⟩ := List.mem_flatMap.mp hs
  have hmem : s ∈ r.symbols := (List.mem_cons.mp hmem).resolve_left fun heq => hname r hr heq.symm
  rw [isTerminal_iff (codes h) hm hs]
  rcases spelled_of_mem_symbols hs with hword | ⟨c, hquoted⟩
  · have hknown := List.all_eq_true.mp (List.all_eq_true.mp d.symbolsKnown_eq_true r hr) s hmem
    rw [Bool.or_eq_true, Bool.or_eq_true, listed_iff, listed_iff] at hknown
    rw [kindOf_of_isWord hword]
    rcases hknown with (hquoted | hkind) | hrule
    · have hsome := of_spelledWell hquoted
      rw [quoted?_of_isWord hword] at hsome
      cases hsome
    · exact hm.made.kinds s (Text.mem_of_key_mem hkind)
    · obtain ⟨q, hq, hkey⟩ := List.mem_map.mp hrule
      exact absurd (Text.key_inj hkey) (hname q hq)
  · -- a single character is no word, so it is no nonterminal
    refine (hm.made.symbols r hr s hmem).resolve_right fun hnon => ?_
    have hword := (hm.made.apart _ hnon).1
    rw [kindOf_of_quoted hquoted, String.toList_ofList, isWord, (quoted?_eq_some hquoted).2.1] at hword
    cases hword

/-- The nullable symbols of the coded grammar. -/
theorem mem_nullable_iff (h : d.coded = some g) (hs : s ∈ d.symbols) :
    code g s ∈ g.nullable ↔ d.Blank s := by
  have hc := codes h
  have hclosed : ∀ {r : DialectRule}, r ∈ d.rules → (∀ t ∈ r.symbols, code g t ∈ g.nullable) →
      code g r.name ∈ g.nullable := by
    intro r hr hall
    obtain ⟨n, hn⟩ := List.mem_iff_getElem?.mp hr
    rw [← hc.left n r hn]
    refine Rules.nullable_closed (Nat.succ_ne_zero n) ?_ fun c hcmem => ?_
    · rw [hc.size]
      have := (List.getElem?_eq_some_iff.mp hn).1
      omega
    · rw [hc.right n r hn] at hcmem
      obtain ⟨t, ht, rfl⟩ := List.mem_map.mp hcmem
      exact hall t ht
  constructor
  · intro hnull
    refine Rules.nullable_induction (p := fun c => ∀ s ∈ d.symbols, code g s = c → d.Blank s)
      (fun r hr hlt ih s hs heq => ?_) hnull s hs rfl
    obtain ⟨n, rule, rfl, hrule⟩ := Dialect.exists_rule hc hr hlt
    have hmem := List.mem_of_getElem? hrule
    rw [hc.left n rule hrule] at heq
    rw [code_inj hc hs (mem_symbols_of_name hmem) heq]
    refine (blank_of_forall hmem fun t ht => ih (code g t) ?_ t (mem_symbols_of_mem hmem ht) rfl).1
    rw [hc.right n rule hrule]
    exact List.mem_map_of_mem ht
  · intro hblank
    have hempty : code g "empty" ∈ g.nullable := by
      obtain ⟨⟨r, hr, hname, hsymbols⟩, -⟩ := d.exists_list_rules
      rw [← hname]
      exact hclosed hr fun t ht => by rw [hsymbols] at ht; cases ht
    obtain ⟨r, hr, rfl, hall⟩ := hblank.exists_rule
    exact hclosed hr fun t ht => by rw [hall t ht]; exact hempty

/-- Slack is the same by codes and by numbers. -/
theorem slack_code (h : d.coded = some g) : ∀ {ss : List String}, (∀ s ∈ ss, s ∈ d.symbols) →
    g.slack (code g "statement") (ss.map (code g)) =
      slack d.numbers.nulls d.numbers.one (ss.map d.number) := by
  have hone : "statement" ∈ d.symbols := by
    obtain ⟨-, -, r, hr, -, hsymbols⟩ := d.exists_list_rules
    exact mem_symbols_of_mem hr (hsymbols ▸ List.mem_cons_self)
  intro ss
  induction ss with
  | nil => exact fun _ => rfl
  | cons s ss ih =>
    intro hss
    have hs := hss s List.mem_cons_self
    have hnull := mem_nullable_iff h hs
    have hsame : code g s = code g "statement" ↔ d.number s = d.numbers.one :=
      ⟨fun heq => congrArg d.number (code_inj (codes h) hs hone heq),
        fun heq => congrArg (code g) (number_inj hs heq)⟩
    simp only [List.map_cons, Rules.slack, slack, hnull, hsame, Blank,
      ih fun t ht => hss t (List.mem_cons_of_mem _ ht)]

/-- No rule is written twice. -/
theorem rule_inj {n n' : Nat} {r r' : DialectRule} (hr : d.rules[n]? = some r)
    (hr' : d.rules[n']? = some r') (hname : r.name = r'.name) (hsymbols : r.symbols = r'.symbols) :
    n = n' := by
  have hkey : ruleKey r = ruleKey r' := by rw [ruleKey, ruleKey, hname, hsymbols]
  have hlt := (List.getElem?_eq_some_iff.mp hr).1
  refine (List.getElem?_inj (by rwa [List.length_map]) d.nodup_ruleKey).mp ?_
  rw [List.getElem?_map, List.getElem?_map, hr, hr', Option.map_some, Option.map_some, hkey]

/-- A symbol on a right side is in a rule of the dialect, but for the start. -/
theorem exists_rule_of_code_mem (hc : Codes d g) {r : Nat} {s : String} (hs : s ∈ d.symbols)
    (hne : s ≠ "program") (hlt : r < g.rules.size) (hr : code g s ∈ g.right r) :
    ∃ n rule, r = n + 1 ∧ d.rules[n]? = some rule ∧ s ∈ rule.symbols := by
  obtain ⟨ss, hright, hss, hcases⟩ := exists_symbols hc hlt
  rw [hright] at hr
  obtain ⟨t, ht, heq⟩ := List.mem_map.mp hr
  obtain rfl := code_inj hc (hss t ht) hs heq
  rcases hcases with ⟨-, rfl⟩ | ⟨n, rule, rfl, hrule, rfl⟩
  · exact absurd (List.mem_singleton.mp ht) hne
  · exact ⟨n, rule, rfl, hrule, ht⟩

/-- The coded grammar of a dialect has lists of statements. -/
theorem lists (h : d.coded = some g) : g.Lists (code g "empty") (code g "statement")
    (code g "statements") fun c => ∃ s ∈ d.symbols, c = code g s ∧
      has d.numbers.corners (d.number s) = true := by
  have hc := codes h
  obtain ⟨⟨r₀, hr₀, hname₀, hsymbols₀⟩, ⟨r₁, hr₁, hname₁, hsymbols₁⟩,
    ⟨r₂, hr₂, hname₂, hsymbols₂⟩⟩ := d.exists_list_rules
  have hempty : "empty" ∈ d.symbols := hname₀ ▸ mem_symbols_of_name hr₀
  have hmany : "statements" ∈ d.symbols := hname₁ ▸ mem_symbols_of_name hr₁
  have hone : "statement" ∈ d.symbols := mem_symbols_of_mem hr₂ (hsymbols₂ ▸ List.mem_cons_self)
  refine {
    regular := regular h
    fits := ?_
    alone := ?_
    member := ?_
    unique := ?_
    ending := ?_
    order := ?_
    nothing := ?_
    apart := ?_
    corner_many := ⟨"statements", hmany, rfl, d.numbers_lists.1⟩
    corner_rule := ?_
    begun := ?_ }
  · intro r hr hlt
    obtain ⟨n, rule, rfl, hrule⟩ := Dialect.exists_rule hc hr hlt
    have hmem := List.mem_of_getElem? hrule
    rw [hc.right n rule hrule, hc.left n rule hrule,
      slack_code h fun s hs => mem_symbols_of_mem hmem hs]
    simp only [mem_nullable_iff h (mem_symbols_of_name hmem), Blank]
    exact (d.numbers_fit _ (mem_numbered hmem)).2.2.2.2.1
  · intro r hlt hr
    obtain ⟨n, rule, rfl, hrule, hs⟩ := exists_rule_of_code_mem hc hempty (by decide) hlt hr
    rw [hc.right n rule hrule, eq_empty_of_mem (List.mem_of_getElem? hrule) hs]
    rfl
  · intro r hlt hr
    obtain ⟨n, rule, rfl, hrule, hs⟩ := exists_rule_of_code_mem hc hone (by decide) hlt hr
    obtain ⟨hname, hsymbols⟩ := eq_statements_of_mem (List.mem_of_getElem? hrule) hs
    rw [hc.right n rule hrule, hc.left n rule hrule, hname, hsymbols]
    exact ⟨rfl, rfl⟩
  · intro r r' hlt hlt' hr hr'
    obtain ⟨n, rule, rfl, hrule, hs⟩ := exists_rule_of_code_mem hc hone (by decide) hlt hr
    obtain ⟨n', rule', rfl, hrule', hs'⟩ := exists_rule_of_code_mem hc hone (by decide) hlt' hr'
    obtain ⟨hname, hsymbols⟩ := eq_statements_of_mem (List.mem_of_getElem? hrule) hs
    obtain ⟨hname', hsymbols'⟩ := eq_statements_of_mem (List.mem_of_getElem? hrule') hs'
    rw [rule_inj hrule hrule' (hname.trans hname'.symm) (hsymbols.trans hsymbols'.symm)]
  · obtain ⟨n, hn⟩ := List.mem_iff_getElem?.mp hr₁
    refine ⟨n + 1, (mem_rulesOf_code hc hmany).mpr ⟨n, r₁, rfl, hn, hname₁⟩, ?_⟩
    rw [hc.right n r₁ hn, hsymbols₁]
    rfl
  · intro r hr hright r' hr' hright'
    obtain ⟨n, rule, rfl, hrule, hname⟩ := (mem_rulesOf_code hc hmany).mp hr
    obtain ⟨n', rule', rfl, hrule', hname'⟩ := (mem_rulesOf_code hc hone).mp hr'
    have hplace : ∀ {n rule s}, d.rules[n]? = some rule → rule.name = s →
        g.right (n + 1) = [code g "empty"] →
          ((d.number s, [d.number "empty"]), n) ∈ d.numbers.rules.zipIdx := by
      intro n rule s hrule hname hright
      rw [hc.right n rule hrule] at hright
      have hsymbols : rule.symbols = ["empty"] := by
        refine map_reflect (fun s hs t ht heq => code_inj hc ?_ ?_ heq)
          (hright : rule.symbols.map (code g) = ["empty"].map (code g))
        · exact mem_symbols_of_mem (List.mem_of_getElem? hrule) hs
        · rw [List.mem_singleton.mp ht]
          exact hempty
      refine List.mem_zipIdx_iff_getElem?.mpr ?_
      show (d.rules.map _)[n]? = _
      rw [List.getElem?_map, hrule, Option.map_some, hname, hsymbols]
      rfl
    have hlt := d.numbers_lists.2.2.2.2.1 _ (hplace hrule hname hright) rfl _
      (hplace hrule' hname' hright') rfl
    rw [line_code h (List.getElem?_eq_some_iff.mp hrule).1,
      line_code h (List.getElem?_eq_some_iff.mp hrule').1]
    have hlt : n < n' := hlt
    omega
  · intro r hr
    obtain ⟨n, rule, rfl, hrule, hname⟩ := (mem_rulesOf_code hc hempty).mp hr
    rw [hc.right n rule hrule, symbols_of_empty (List.mem_of_getElem? hrule) hname]
    rfl
  · refine ⟨fun heq => ?_, code_ne_dot h hempty (by decide)⟩
    have := code_inj hc hone hmany heq
    simp at this
  · rintro r hr hlt ⟨s, hs, hleft, hcorner⟩ c rest hright
    obtain ⟨n, rule, rfl, hrule⟩ := Dialect.exists_rule hc hr hlt
    have hmem := List.mem_of_getElem? hrule
    rw [hc.left n rule hrule] at hleft
    rw [hc.right n rule hrule] at hright
    rw [← code_inj hc (mem_symbols_of_name hmem) hs hleft] at hcorner
    obtain ⟨t, ts, hsymbols, rfl, -⟩ := List.map_eq_cons_iff.mp hright
    have ht : t ∈ d.symbols := mem_symbols_of_mem hmem (hsymbols ▸ List.mem_cons_self)
    obtain ⟨hcorner', hnull⟩ := (d.numbers_fit _ (mem_numbered hmem)).2.2.2.2.2.2.1 hcorner
      (d.number t) (by rw [hsymbols]; exact List.mem_cons_self)
    refine ⟨⟨t, ht, rfl, hcorner'⟩, fun hn => ?_⟩
    rcases hnull ((mem_nullable_iff h ht).mp hn) with heq | heq
    · exact .inl (congrArg (code g) (number_inj ht heq))
    · exact .inr (congrArg (code g) (number_inj ht heq))
  · -- some statement begins with a token
    have hinside : ∀ {r : DialectRule} {a : Nat} {rest : List Nat}, r ∈ d.rules →
        Begins g (r.symbols.map (code g)) a → Begins g (code g r.name :: rest) a := by
      intro r a rest hr hb
      obtain ⟨n, hn⟩ := List.mem_iff_getElem?.mp hr
      refine .inside ((mem_rulesOf_code hc (mem_symbols_of_name hr)).mpr ⟨n, r, rfl, hn, rfl⟩) ?_
      rwa [hc.right n r hn]
    obtain ⟨x, hx, hxone, q, hq, hxq, t, ht, htnot⟩ := d.numbers_lists.2.2.2.2.2
    obtain ⟨rx, hrx, hxname, hxsymbols⟩ := exists_rule_of_mem hx
    obtain ⟨rq, hrq, hqname, hqsymbols⟩ := exists_rule_of_mem hq
    have hx₁ : rx.name = "statement" :=
      number_inj (mem_symbols_of_name hrx) (hxname.trans hxone)
    have hx₂ : rx.symbols = [rq.name] :=
      symbols_inj hrx (hxsymbols.trans (hxq.trans (congrArg (fun y => [y]) hqname.symm)))
    rw [← hqsymbols, ← List.map_take] at ht
    obtain ⟨u, hu, rfl⟩ := List.mem_map.mp ht
    have hleaf : ∀ r ∈ d.rules, r.name ≠ u := fun r hr heq =>
      htnot _ (mem_numbered hr) (congrArg d.number heq)
    have hterm := isTerminal_code h (mem_symbols_of_mem hrq (List.mem_of_mem_take hu)) hleaf
    refine ⟨code g u, ?_⟩
    rw [← hname₂]
    refine hinside hr₂ ?_
    rw [hsymbols₂, List.map_cons, ← hx₁]
    refine hinside hrx ?_
    rw [hx₂]
    refine hinside hrq ?_
    rcases hsymbols : rq.symbols with _ | ⟨v, vs⟩
    · rw [hsymbols] at hu
      cases hu
    · rw [hsymbols] at hu
      obtain rfl : u = v := List.mem_singleton.mp hu
      exact .here hterm

end Dialect

end QuadLang
