/-
The texts of tokens.

A token lies in one line, so its text has no line feed; and only characters and strings can hold
tabs and carriage returns, since these separate tokens or are illegal everywhere else.

* `Scanned` — what is known of the texts of tokens;
* `Scanner.scanned_ofSource` — the tokens of every source are like this.
-/
import QuadLang.Proofs.Derivations

namespace QuadLang

variable {c : Char} {cs text : List Char} {n : Nat}

/-- The characters of a value that is a text. -/
def Literal.chars : Literal → List Char
  | .text s => s.toList
  | _ => []

/-- A character that neither separates tokens nor ends a line. -/
def Solid (c : Char) : Prop := c ≠ '\n' ∧ c ≠ '\t' ∧ c ≠ '\r'

/-- Tokens, kinds with values, as they are scanned: a text is in one line, and it has tabs and
carriage returns only in a character or a string. -/
def Scanned (leaves : List (String × Literal)) : Prop :=
  ∀ x ∈ leaves, '\n' ∉ x.2.chars ∧
    (x.1 = "CTE_CHAR" ∨ x.1 = "STRING" ∨ ∀ c ∈ x.2.chars, Solid c)

theorem solid_of_goesOnWord (h : Piece.goesOnWord c = true) : Solid c := by
  refine ⟨?_, ?_, ?_⟩ <;> rintro rfl <;> exact absurd h (by decide)

theorem solid_of_beginsWord (h : Piece.beginsWord c = true) : Solid c := by
  refine ⟨?_, ?_, ?_⟩ <;> rintro rfl <;> exact absurd h (by decide)

/-- All characters from the blank on are solid. -/
theorem solid_of_le (h : 32 ≤ c.toNat) : Solid c := by
  refine ⟨?_, ?_, ?_⟩ <;> rintro rfl <;> exact absurd h (by decide)

/-- A text in which nothing separates or ends anything. -/
def Clean (s : String) : Prop := ∀ c ∈ s.toList, Solid c

theorem clean_of_all {s : String} (h : (s.toList.all fun c => decide (32 ≤ c.toNat)) = true) : Clean s :=
  fun c hc => solid_of_le (of_decide_eq_true (List.all_eq_true.mp h c hc))

theorem not_mem_of_solid (h : ∀ c ∈ text, Solid c) : '\n' ∉ text :=
  fun hmem => (h _ hmem).1 rfl

theorem scanned_of_all {leaves : List (String × Literal)}
    (h : (leaves.all fun x => x.2.chars.all fun c => decide (32 ≤ c.toNat)) = true) :
    Scanned leaves := by
  intro x hx
  have hsolid : ∀ c ∈ x.2.chars, Solid c := fun c hc =>
    solid_of_le (of_decide_eq_true (List.all_eq_true.mp (List.all_eq_true.mp h x hx) c hc))
  exact ⟨not_mem_of_solid hsolid, .inr (.inr hsolid)⟩

namespace Dialect

variable {d : Dialect} {p : Piece}

/-- What is known of the characters of a piece. -/
def Taken (cls : PieceClass) (text : List Char) : Prop :=
  match cls with
  | .word | .operator | .mark => text ≠ [] ∧ ∀ c ∈ text, Solid c
  | .char | .string => text ≠ [] ∧ '\n' ∉ text
  | _ => True

theorem taken_of_char? (h : Piece.char? cs = some n) :
    Taken .char (cs.take n) := by
  rw [Piece.char?.eq_def] at h
  split at h
  · next c rest =>
    split at h
    · cases h
    · next hc =>
      cases h
      refine ⟨by simp, ?_⟩
      simp only [List.take_succ_cons, List.take_zero, List.mem_cons, List.not_mem_nil, or_false, not_or]
      exact ⟨by decide, fun heq => hc (beq_iff_eq.mpr heq.symm), by decide⟩
  · cases h

theorem taken_of_word? (h : Piece.word? cs = some n) :
    Taken .word (cs.take n) := by
  rcases cs with _ | ⟨c, cs⟩
  · cases h
  rw [Piece.word?] at h
  split at h
  · next hc =>
    cases h
    rw [Nat.add_comm, List.take_succ_cons, Piece.span,
      ← List.prefix_iff_eq_take.mp (List.takeWhile_prefix _)]
    refine ⟨List.cons_ne_nil _ _, fun x hx => ?_⟩
    rcases List.mem_cons.mp hx with rfl | hx
    · exact solid_of_beginsWord hc
    · exact solid_of_goesOnWord (List.mem_takeWhile_imp hx)
  · cases h

/-- A string ends in its line. -/
theorem taken_of_string? (h : Piece.string? cs = some n) :
    Taken .string (cs.take n) := by
  rw [Piece.string?.eq_def] at h
  split at h
  · next cs =>
    obtain ⟨k, hk, rfl⟩ := Option.map_eq_some_iff.mp h
    have hle : k ≤ (cs.takeWhile (· != '\n')).length := by
      rw [Piece.lastQuote?, Piece.some?] at hk
      split at hk
      · cases hk
      · cases hk
        exact (List.dropWhile_suffix _).length_le.trans (List.length_reverse).le
    rw [Nat.add_comm, List.take_succ_cons]
    refine ⟨List.cons_ne_nil _ _, fun hmem => ?_⟩
    rcases List.mem_cons.mp hmem with heq | hmem
    · exact absurd heq (by decide)
    · have hline : '\n' ∈ cs.takeWhile (· != '\n') := by
        rw [List.prefix_iff_eq_take.mp (List.takeWhile_prefix (p := (· != '\n')) (l := cs))]
        exact (List.take_subset_take_left cs hle) hmem
      exact absurd (List.mem_takeWhile_imp hline) (by decide)
  · cases h

theorem taken_of_spelled {cls : PieceClass} (h : d.Spelled cls text)
    (hcls : cls = .operator ∨ cls = .mark) : Taken cls text := by
  rcases hcls with rfl | rfl
  · have hsolid : ∀ w ∈ d.operators.map (·.1), w.toList ≠ [] ∧ ∀ c ∈ w.toList, Solid c := by
      cases d <;> simp [operators, Solid]
    have htext := hsolid _ h
    rwa [String.toList_ofList] at htext
  · obtain ⟨c, hc, rfl⟩ := h
    have hmarks : (d.marks.all fun c => decide (32 ≤ c.toNat)) = true := by cases d <;> decide +kernel
    refine ⟨List.cons_ne_nil _ _, fun x hx => ?_⟩
    rw [List.mem_singleton.mp hx]
    exact solid_of_le (of_decide_eq_true (List.all_eq_true.mp hmarks c hc))

/-- The piece at the front of a source. -/
theorem taken_classify (d : Dialect)
    (h : ¬ ((d.classify cs).1 = .operator ∨ (d.classify cs).1 = .mark)) :
    Taken (d.classify cs).1 (cs.take (d.classify cs).2) := by
  rcases d.classify_cases cs with ⟨⟨cls, len⟩, he, n, hn, hfound⟩ | ⟨-, hfound⟩ <;> rw [hfound] at h ⊢
  · simp only [classes, List.mem_cons, Prod.mk.injEq, List.not_mem_nil, or_false] at he
    cases cls <;> simp only [reduceCtorEq, false_and, true_and, false_or, or_false] at he
    case char =>
      subst he
      exact taken_of_char? hn
    case word =>
      subst he
      exact taken_of_word? hn
    case string =>
      subst he
      exact taken_of_string? hn
    case operator => exact absurd (.inl rfl) h
    case mark => exact absurd (.inr rfl) h
    all_goals trivial
  · trivial

theorem taken_of_mem_cut (d : Dialect) (hp : p ∈ d.cut n cs) : Taken p.cls p.text := by
  obtain ⟨c, cs, rfl⟩ := Scanner.exists_of_mem_cut d hp
  by_cases hcls : (d.classify (c :: cs)).1 = .operator ∨ (d.classify (c :: cs)).1 = .mark
  · exact taken_of_spelled (d.spelled_classify c cs) hcls
  have htaken := taken_classify d hcls
  generalize d.classify (c :: cs) = x at htaken ⊢
  obtain ⟨cls, len⟩ := x
  rcases len with _ | len
  -- a piece of no length could only be of a class about which nothing is said
  · cases cls <;> first | trivial | exact absurd rfl htaken.1
  · exact htaken

/-- The token that a piece is. -/
theorem Taken.token {k : String} {v : Literal} (h : Taken p.cls p.text)
    (htok : d.tokenOf p = .ok (some (k, v))) : '\n' ∉ v.chars ∧
      (k = "CTE_CHAR" ∨ k = "STRING" ∨ ∀ c ∈ v.chars, Solid c) := by
  rw [tokenOf] at htok
  generalize hcls : p.cls = cls at h htok
  cases cls <;> simp only [reduceCtorEq, Except.ok.injEq, Option.some.injEq, Prod.mk.injEq] at htok
  case real =>
    rcases hread : Number.readFloat (String.ofList p.text) with e | x <;> rw [hread] at htok <;> cases htok
    simp [Literal.chars]
  case integer =>
    rcases hread : Number.readInt (String.ofList p.text) with e | x <;> rw [hread] at htok <;> cases htok
    simp [Literal.chars]
  case char =>
    obtain ⟨rfl, rfl⟩ := htok
    refine ⟨fun hmem => h.2 ?_, .inl rfl⟩
    rw [Literal.chars, String.toList_ofList] at hmem
    exact List.mem_of_mem_drop (List.mem_of_mem_take hmem)
  case truth =>
    obtain ⟨rfl, rfl⟩ := htok
    simp [Literal.chars]
  case string =>
    obtain ⟨rfl, rfl⟩ := htok
    refine ⟨?_, .inr (.inl rfl)⟩
    rw [Literal.chars, String.toList_ofList]
    exact h.2
  all_goals
    obtain ⟨-, rfl⟩ := htok
    rw [Literal.chars, String.toList_ofList]
    exact ⟨not_mem_of_solid h.2, .inr (.inr h.2)⟩

end Dialect

namespace Scanner

/-- The tokens of a scanner are tokens of its pieces. -/
theorem exists_piece_of_mem_upTo {n : Nat} {s : Scanner} {t : Token} (ht : t ∈ (upTo n s).2.1) :
    ∃ p ∈ s.pieces, s.dialect.tokenOf p = .ok (some (t.kind, t.value)) := by
  induction n generalizing s with
  | zero => cases ht
  | succ n ih =>
    rw [upTo] at ht
    rcases hnext : s.next with ⟨reports, e | _ | t', s'⟩ <;> simp only [hnext] at ht
    · cases ht
    · cases ht
    · obtain ⟨hd, hmem, htoken⟩ := scan_spec s.dialect hnext
      rcases List.mem_cons.mp ht with rfl | ht
      · exact (htoken t rfl).2
      · obtain ⟨p, hp, htok⟩ := ih ht
        exact ⟨p, hmem p hp, hd ▸ htok⟩

theorem scanned_ofSource (d : Dialect) (line : Nat) (source : String) :
    Scanned ((ofSource d line source).all.2.1.map fun t => (t.kind, t.value)) := by
  intro x hx
  obtain ⟨t, ht, rfl⟩ := List.mem_map.mp hx
  obtain ⟨p, hp, htok⟩ := exists_piece_of_mem_upTo ht
  exact (Dialect.taken_of_mem_cut d hp).token htok

/-- A word for a truth value is cut off even from the front of a longer word. -/
theorem truth_cut_off (d : Dialect) (b : Bool) (rest : String) :
    ∃ ts, (ofSource d 1 ((if b then d.truthWords.1 else d.truthWords.2) ++ rest)).all.2.1 =
      ⟨"CTE_BOOL", .truth b, 1, 0⟩ :: ts := by
  rw [all, ofSource, String.toList_append]
  cases d <;> cases b <;> exact ⟨_, rfl⟩

end Scanner

end QuadLang
