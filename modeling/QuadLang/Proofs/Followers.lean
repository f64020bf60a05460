/-
What can follow a symbol of a dialect.

A table of sets is one number: the set of a symbol stands in the 256 bits at its place.  Two
such tables say with which tokens what is derived from a symbol can begin, and which tokens can
come after it; the number after those of all symbols is that of the end of the input.

* `Dialect.followers_fit` — both tables are closed under the rules;
* `Dialect.has_first_of_begins` — so the first holds whatever `Lalr.Begins` says;
* `Dialect.marks_of_trails` — and the second whatever `Lalr.Trails` says.

Design notes: the tables are made in two rounds over the rules, the first table from the last
rule to the first and the second one the other way.  That two rounds are enough is not proved
but found by the check.
-/
import QuadLang.Proofs.Numbering

namespace QuadLang

/-! ### Sets and tables of sets -/

namespace Bits

/-- Whether a set is part of another. -/
def within (a b : Nat) : Bool := Nat.beq (Nat.lor a b) b

variable {a b n : Nat}

theorem has_lor : has (Nat.lor a b) n = true ↔ has a n = true ∨ has b n = true := by
  have h : Nat.lor a b = a ||| b := rfl
  rw [has_eq_testBit, has_eq_testBit, has_eq_testBit, h, Nat.testBit_or, Bool.or_eq_true]

theorem has_land : has (Nat.land a b) n = true ↔ has a n = true ∧ has b n = true := by
  have h : Nat.land a b = a &&& b := rfl
  rw [has_eq_testBit, has_eq_testBit, has_eq_testBit, h, Nat.testBit_and, Bool.and_eq_true]

theorem has_of_within (h : within a b = true) (hn : has a n = true) : has b n = true := by
  rw [← Nat.eq_of_beq_eq_true h]
  exact has_lor.mpr (.inl hn)

theorem land_ne_zero (ha : has a n = true) (hb : has b n = true) : Nat.land a b ≠ 0 := by
  intro h
  have hn := has_land.mpr ⟨ha, hb⟩
  rw [h, not_has_zero] at hn
  cases hn

end Bits

namespace Numbers

open Bits

/-- A set in a table. -/
def row (t s : Nat) : Nat :=
  Nat.land (Nat.shiftRight t (Nat.mul 256 s)) (Nat.pred (Nat.shiftLeft 1 256))

/-- Enlarge a set in a table. -/
def join (t s b : Nat) : Nat := Nat.lor t (Nat.shiftLeft b (Nat.mul 256 s))

/-- Whether a number is that of the name of a rule. -/
def isName (G : Numbers) (s : Nat) : Bool := G.rules.any fun r => Nat.beq r.1 s

theorem isName_iff {G : Numbers} {s : Nat} : G.isName s = true ↔ ∃ r ∈ G.rules, r.1 = s := by
  rw [isName, List.any_eq_true]
  exact exists_congr fun r => and_congr_right fun _ => iff_of_eq Nat.beq_eq

/-- What a list of symbols can begin with. -/
def firstOf (nulls t : Nat) : List Nat → Nat
  | [] => 0
  | s :: rest => bif has nulls s then Nat.lor (row t s) (firstOf nulls t rest) else row t s

section FirstOf

variable {nulls t s n : Nat} {rest : List Nat}

theorem has_firstOf_head (h : has (row t s) n = true) :
    has (firstOf nulls t (s :: rest)) n = true := by
  rw [firstOf]
  rcases has nulls s with _ | _
  · exact h
  · exact has_lor.mpr (.inl h)

theorem has_firstOf_tail (hs : has nulls s = true) (h : has (firstOf nulls t rest) n = true) :
    has (firstOf nulls t (s :: rest)) n = true := by
  rw [firstOf, hs]
  exact has_lor.mpr (.inr h)

end FirstOf

/-- A token begins with itself. -/
def addToken (G : Numbers) (t s : Nat) : Nat :=
  bif G.isName s then t else join t s (Nat.shiftLeft 1 s)

/-- One round over the rules for what symbols begin with. -/
def firstRound (G : Numbers) (t : Nat) : Nat :=
  G.rules.foldr (fun r t => join t r.1 (firstOf G.nulls t r.2)) t

/-- What each of `n` symbols can begin with. -/
def first (G : Numbers) (n : Nat) : Nat :=
  G.firstRound (G.firstRound ((List.range n).foldl G.addToken 0))

/-- What comes after the symbols of one rule. -/
def addAfter (nulls first left : Nat) : List Nat → Nat → Nat
  | [], t => t
  | s :: rest, t => addAfter nulls first left rest (join t s (Nat.lor (firstOf nulls first rest)
      (bif rest.all (has nulls) then row t left else 0)))

/-- One round over the rules for what comes after symbols. -/
def followRound (G : Numbers) (first t : Nat) : Nat :=
  G.rules.foldl (fun t r => addAfter G.nulls first r.1 r.2 t) t

/-- What can come after each symbol, if the end can come after one of them. -/
def follow (G : Numbers) (first ending top : Nat) : Nat :=
  G.followRound first (G.followRound first (join 0 top (Nat.shiftLeft 1 ending)))

/-- The check that a table holds what comes after the symbols of one rule. -/
def followFits (nulls first follow left : Nat) : List Nat → Bool
  | [] => true
  | s :: rest => within (firstOf nulls first rest) (row follow s) &&
      ((bif rest.all (has nulls) then within (row follow left) (row follow s) else true) &&
        followFits nulls first follow left rest)

theorem of_followFits {nulls first follow left s : Nat} {before after : List Nat}
    (h : followFits nulls first follow left (before ++ s :: after) = true) :
    within (firstOf nulls first after) (row follow s) = true ∧
      ((∀ t ∈ after, has nulls t = true) → within (row follow left) (row follow s) = true) := by
  induction before with
  | nil =>
    rw [List.nil_append, followFits, Bool.and_eq_true, Bool.and_eq_true] at h
    refine ⟨h.1, fun hafter => ?_⟩
    have hwithin := h.2.1
    rwa [List.all_eq_true.mpr hafter] at hwithin
  | cons t before ih =>
    rw [List.cons_append, followFits, Bool.and_eq_true, Bool.and_eq_true] at h
    exact ih h.2.2

end Numbers

/-! ### The tables of a dialect -/

namespace Dialect

open Bits Numbers Spelling

/-- The number of the end of the input. -/
def ending (d : Dialect) : Nat := d.keys.length

/-- With which tokens the symbols begin. -/
def first (d : Dialect) : Nat := d.numbers.first d.ending

/-- Which tokens come after the symbols. -/
def follow (d : Dialect) : Nat := d.numbers.follow d.first d.ending (d.number "program")

theorem followers_fit (d : Dialect) :
    (∀ r ∈ d.numbers.rules,
      within (firstOf d.numbers.nulls d.first r.2) (row d.first r.1) = true ∧
      followFits d.numbers.nulls d.first d.follow r.1 r.2 = true ∧
      ∀ s ∈ r.2, d.numbers.isName s = true ∨ has (row d.first s) s = true) ∧
    has (row d.follow (d.number "program")) d.ending = true := by
  cases d <;> decide +kernel

variable {d : Dialect} {g : Lalr.Rules}

/-- A token can begin with itself. -/
theorem has_first_of_terminal (h : d.coded = some g) {s : String} (hs : s ∈ d.symbols)
    (hterm : g.isTerminal (code g s) = true) : has (row d.first (d.number s)) (d.number s) = true := by
  have hname : ∀ r ∈ d.rules, r.name ≠ s := by
    rintro r hr rfl
    rw [(codes h).terminal r hr] at hterm
    cases hterm
  obtain ⟨r, hr, hmem⟩ := List.mem_flatMap.mp hs
  have hmem : s ∈ r.symbols := (List.mem_cons.mp hmem).resolve_left fun heq => hname r hr heq.symm
  refine ((d.followers_fit.1 _ (mem_numbered hr)).2.2 _ (List.mem_map_of_mem hmem)).resolve_left ?_
  intro hyes
  obtain ⟨⟨x, ys⟩, hx, hxs⟩ := isName_iff.mp hyes
  obtain ⟨q, hq, hqx, -⟩ := exists_rule_of_mem hx
  exact hname q hq (number_inj (mem_symbols_of_name hq) (hqx.trans hxs))

theorem has_first_of_begins (h : d.coded = some g) {cs : List Nat} {a : Nat}
    (hb : Lalr.Begins g cs a) : ∀ {ss : List String}, (∀ s ∈ ss, s ∈ d.symbols) →
      cs = ss.map (code g) → ∃ t ∈ d.symbols, a = code g t ∧
        has (firstOf d.numbers.nulls d.first (ss.map d.number)) (d.number t) = true := by
  have hc := codes h
  induction hb with
  | here ha =>
    intro ss hss hcs
    obtain ⟨s, rest, rfl, rfl, -⟩ := List.map_eq_cons_iff.mp hcs.symm
    have hs := hss s List.mem_cons_self
    exact ⟨s, hs, rfl, has_firstOf_head (has_first_of_terminal h hs ha)⟩
  | inside hr _ ih =>
    intro ss hss hcs
    obtain ⟨s, rest, rfl, rfl, -⟩ := List.map_eq_cons_iff.mp hcs.symm
    obtain ⟨n, rule, rfl, hrule, rfl⟩ := (mem_rulesOf_code hc (hss s List.mem_cons_self)).mp hr
    have hmem := List.mem_of_getElem? hrule
    obtain ⟨t, ht, rfl, hhas⟩ :=
      ih (fun s hs => mem_symbols_of_mem hmem hs) (hc.right n rule hrule)
    refine ⟨t, ht, rfl, has_firstOf_head (has_of_within ?_ hhas)⟩
    exact (d.followers_fit.1 _ (mem_numbered hmem)).1
  | later hs _ ih =>
    intro ss hss hcs
    obtain ⟨s, rest, rfl, rfl, rfl⟩ := List.map_eq_cons_iff.mp hcs.symm
    obtain ⟨t, ht, rfl, hhas⟩ := ih (fun s hs => hss s (List.mem_cons_of_mem _ hs)) rfl
    have hblank : d.Blank s := (mem_nullable_iff h (hss s List.mem_cons_self)).mp hs
    exact ⟨t, ht, rfl, has_firstOf_tail hblank hhas⟩

/-- A set of tokens and the end of the input, by numbers, has a code. -/
def Marks (d : Dialect) (g : Lalr.Rules) (b a : Nat) : Prop :=
  (∃ t ∈ d.symbols, a = code g t ∧ has b (d.number t) = true) ∨
    a = g.endMark ∧ has b d.ending = true

theorem Marks.mono {a b b' : Nat} (h : d.Marks g b a) (hb : within b b' = true) :
    d.Marks g b' a := by
  rcases h with ⟨t, ht, ha, hhas⟩ | ⟨ha, hhas⟩
  · exact .inl ⟨t, ht, ha, has_of_within hb hhas⟩
  · exact .inr ⟨ha, has_of_within hb hhas⟩

/-- Sets with a code in common meet. -/
theorem Marks.land_ne_zero (hc : Codes d g) {a b b' : Nat} (h : d.Marks g b a)
    (h' : d.Marks g b' a) : Nat.land b b' ≠ 0 := by
  rcases h with ⟨t, ht, rfl, hhas⟩ | ⟨rfl, hhas⟩ <;> rcases h' with ⟨t', ht', ha, hhas'⟩ | ⟨ha, hhas'⟩
  · rw [code_inj hc ht ht' ha] at hhas
    exact Bits.land_ne_zero hhas hhas'
  · exact absurd ha (hc.endMark t ht)
  · exact absurd ha.symm (hc.endMark t' ht')
  · exact Bits.land_ne_zero hhas hhas'

/-- A symbol in a coded right side, and what stands after it. -/
theorem exists_split (hc : Codes d g) {r : Nat} (hlt : r < g.rules.size) {before after : List Nat}
    {s : String} (hs : s ∈ d.symbols) (hright : g.right r = before ++ code g s :: after) :
    ∃ ss ss' : List String, after = ss'.map (code g) ∧ (∀ t ∈ ss', t ∈ d.symbols) ∧
      (r = 0 ∧ ss' = [] ∨ ∃ n rule, r = n + 1 ∧ d.rules[n]? = some rule ∧
        rule.symbols = ss ++ s :: ss') := by
  obtain ⟨all, hall, hsymbols, hcases⟩ := exists_symbols hc hlt
  rw [hall] at hright
  obtain ⟨ss, rest, rfl, rfl, hrest⟩ := List.map_eq_append_iff.mp hright
  obtain ⟨t, ss', rfl, ht, rfl⟩ := List.map_eq_cons_iff.mp hrest
  have hmem : ∀ u ∈ t :: ss', u ∈ d.symbols := fun u hu =>
    hsymbols u (List.mem_append_right _ hu)
  obtain rfl : t = s := code_inj hc (hmem t List.mem_cons_self) hs ht
  refine ⟨ss, ss', rfl, fun u hu => hmem u (List.mem_cons_of_mem _ hu), ?_⟩
  rcases hcases with ⟨hr, hprogram⟩ | ⟨n, rule, hr, hrule, heq⟩
  · rcases ss with _ | ⟨u, ss⟩
    · exact .inl ⟨hr, (List.cons.inj hprogram).2⟩
    · simp at hprogram
  · exact .inr ⟨n, rule, hr, hrule, heq.symm⟩

theorem marks_of_trails (h : d.coded = some g) {c a : Nat} (ht : Lalr.Trails g c a) :
    ∀ {s : String}, s ∈ d.symbols → c = code g s → d.Marks g (row d.follow (d.number s)) a := by
  have hc := codes h
  induction ht with
  | ending =>
    intro s hs heq
    have hstart : g.start = code g "program" :=
      (List.cons.inj ((regular h).root.symm.trans hc.start)).1
    rw [code_inj hc hs d.program_mem_symbols (heq.symm.trans hstart)]
    exact .inr ⟨rfl, d.followers_fit.2⟩
  | next hr hright hb =>
    intro s hs heq
    rw [heq] at hright
    obtain ⟨ss, ss', rfl, hss', ⟨-, rfl⟩ | ⟨n, rule, -, hrule, hsymbols⟩⟩ :=
      exists_split hc hr hs hright
    · cases hb
    · obtain ⟨t, ht, rfl, hhas⟩ := has_first_of_begins h hb hss' rfl
      have hfits := (d.followers_fit.1 _ (mem_numbered (List.mem_of_getElem? hrule))).2.1
      rw [hsymbols, List.map_append, List.map_cons] at hfits
      exact .inl ⟨t, ht, rfl, has_of_within (of_followFits hfits).1 hhas⟩
  | outer hr hr0 hright hafter _ ih =>
    intro s hs heq
    rw [heq] at hright
    obtain ⟨ss, ss', rfl, hss', ⟨h0, -⟩ | ⟨n, rule, rfl, hrule, hsymbols⟩⟩ :=
      exists_split hc hr hs hright
    · exact absurd h0 hr0
    · have hmem := List.mem_of_getElem? hrule
      have hfits := (d.followers_fit.1 _ (mem_numbered hmem)).2.1
      rw [hsymbols, List.map_append, List.map_cons] at hfits
      refine (ih (mem_symbols_of_name hmem) (hc.left n rule hrule)).mono
        ((of_followFits hfits).2 fun t ht => ?_)
      obtain ⟨u, hu, rfl⟩ := List.mem_map.mp ht
      exact (mem_nullable_iff h (hss' u hu)).mp (hafter _ (List.mem_map_of_mem hu))

end Dialect

end QuadLang
