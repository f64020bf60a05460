/-
The pieces of a source.

A source is cut into blanks, line ends, comments, lexemes and illegal characters.  Nothing is left out
and nothing counted twice: every token and every report carries the place at which its piece begins.

* `Dialect.Fits`, `Dialect.fits_classify` — what the piece at the front of a text is;
* `Scanner.resume_scan` — the reports and tokens from a place on are those of the pieces;
* `Scanner.accounts_for_source` — both together.
-/
import QuadLang.Proofs.Scanned

namespace QuadLang

variable {d : Dialect} {c : Char} {cs rest : List Char} {n : Nat} {p : Piece} {ps : List Piece}

/-! ### What a piece is -/

namespace Piece

theorem take_span (p : Char → Bool) (cs : List Char) : cs.take (span p cs) = cs.takeWhile p :=
  (List.prefix_iff_eq_take.mp (List.takeWhile_prefix _)).symm

/-- What follows a span does not go on with it. -/
theorem head_drop_span {p : Char → Bool} (h : c ∈ (cs.drop (span p cs)).head?) : p c = false := by
  induction cs with
  | nil => cases h
  | cons x cs ih =>
    by_cases hx : p x = true
    · rw [span, List.takeWhile_cons_of_pos hx] at h
      exact ih h
    · rw [span, List.takeWhile_cons_of_neg hx] at h
      cases h
      exact Bool.eq_false_iff.mpr hx

theorem eq_of_some? {k : Nat} (h : some? k = some n) : k = n ∧ n ≠ 0 := by
  rw [some?] at h
  split at h
  · cases h
  · next hk =>
    cases h
    exact ⟨rfl, by simpa using hk⟩

theorem take_of_integer? (h : integer? cs = some n) : ∃ negative ds, cs.take n = Number.sign negative ++ ds ∧
    ds ≠ [] ∧ ∀ c ∈ ds, Text.isDigit c = true := by
  obtain ⟨negative, ds, hcs, hminus⟩ : ∃ negative ds, cs = Number.sign negative ++ ds ∧
      minus cs = ((Number.sign negative).length, ds) := by
    rw [minus.eq_def]
    split
    · exact ⟨true, _, rfl, rfl⟩
    · exact ⟨false, _, rfl, rfl⟩
  rw [integer?, hminus] at h
  obtain ⟨k, hk, rfl⟩ := Option.map_eq_some_iff.mp h
  obtain ⟨rfl, hpos⟩ := eq_of_some? hk
  refine ⟨negative, ds.takeWhile Text.isDigit, ?_, fun hnil => hpos ?_, fun c hc => List.mem_takeWhile_imp hc⟩
  · rw [hcs, List.take_length_add_append, take_span]
  · rw [span, hnil, List.length_nil]

theorem take_of_real? (h : real? cs = some n) : ∃ negative ds places,
    cs.take n = Number.sign negative ++ ds ++ '.' :: places ∧
      ds ≠ [] ∧ (∀ c ∈ ds, Text.isDigit c = true) ∧ ∀ c ∈ places, Text.isDigit c = true := by
  rw [real?] at h
  rcases hk : integer? cs with _ | k <;> rw [hk] at h
  · cases h
  dsimp only at h
  split at h
  · next places hpoint =>
    obtain ⟨m, hm, rfl⟩ := Option.map_eq_some_iff.mp h
    obtain ⟨rfl, -⟩ := eq_of_some? hm
    obtain ⟨negative, ds, htake, hne, hds⟩ := take_of_integer? hk
    refine ⟨negative, ds, places.takeWhile Text.isDigit, ?_, hne, hds, fun c hc => List.mem_takeWhile_imp hc⟩
    rw [Nat.add_assoc, List.take_add, hpoint, htake, Nat.add_comm 1, List.take_succ_cons, take_span]
  · cases h

end Piece

theorem newline_not_mem_digits {ds : List Char} (h : ∀ c ∈ ds, Text.isDigit c = true) : '\n' ∉ ds :=
  fun hmem => absurd (h _ hmem) (by decide)

theorem newline_not_mem_sign (negative : Bool) : '\n' ∉ Number.sign negative := by
  cases negative <;> decide

namespace Dialect

/-- What a piece is, given the text after it: a blank, a run of line ends, a comment up to the end of
its line, a character that belongs nowhere, or else the lexeme of a token. -/
def Fits (d : Dialect) (p : Piece) (rest : List Char) : Prop :=
  match p.cls with
  | .blank => p.text = [' '] ∨ p.text = ['\t']
  | .lines => p.text ≠ [] ∧ (∀ c ∈ p.text, c = '\n') ∧ ∀ c ∈ rest.head?, c ≠ '\n'
  | .comment => ∃ inner, p.text = '%' :: '%' :: inner ∧ '\n' ∉ inner ∧ ∀ c ∈ rest.head?, c = '\n'
  | .illegal => ∃ c, p.text = [c] ∧ c ≠ '\n'
  | _ => p.text ≠ [] ∧ '\n' ∉ p.text ∧ ∃ t, d.tokenOf p = .ok (some t)

/-- Pieces each of which fits before those after it. -/
def Sliced (d : Dialect) : List Piece → Prop
  | [] => True
  | p :: ps => d.Fits p (ps.flatMap Piece.text) ∧ d.Sliced ps

/-- No integer among the pieces has too many digits. -/
def Readable (ps : List Piece) : Prop :=
  ∀ p ∈ ps, p.cls = .integer → (p.text.filter Text.isDigit).length ≤ Number.maxDigits

instance (ps : List Piece) : Decidable (Readable ps) :=
  inferInstanceAs (Decidable (∀ p ∈ ps, p.cls = .integer → _ ≤ _))

/-- The piece at the front of a source. -/
theorem fits_classify (d : Dialect) (c : Char) (cs : List Char)
    (hread : Readable [⟨(d.classify (c :: cs)).1, c :: cs.take ((d.classify (c :: cs)).2 - 1)⟩]) :
    d.Fits ⟨(d.classify (c :: cs)).1, c :: cs.take ((d.classify (c :: cs)).2 - 1)⟩
      (cs.drop ((d.classify (c :: cs)).2 - 1)) := by
  have htaken : Taken (d.classify (c :: cs)).1 (c :: cs.take ((d.classify (c :: cs)).2 - 1)) :=
    taken_of_mem_cut d (show _ ∈ d.cut 1 (c :: cs) from List.mem_cons_self)
  replace hread := hread _ List.mem_cons_self
  rcases d.classify_cases (c :: cs) with ⟨⟨cls, len⟩, he, n, hn, hfound⟩ | ⟨hnone, hfound⟩ <;>
    rw [hfound] at htaken hread ⊢ <;> rw [Fits]
  · simp only [classes, List.mem_cons, Prod.mk.injEq, List.not_mem_nil, or_false] at he
    rcases he with ⟨rfl, rfl⟩ | ⟨rfl, rfl⟩ | ⟨rfl, rfl⟩ | ⟨rfl, rfl⟩ | ⟨rfl, rfl⟩ | ⟨rfl, rfl⟩ | ⟨rfl, rfl⟩ |
      ⟨rfl, rfl⟩ | ⟨rfl, rfl⟩ | ⟨rfl, rfl⟩ | ⟨rfl, rfl⟩ <;> dsimp only at hn hread ⊢
    · split at hn
      · next hc =>
        cases hn
        simpa [Piece.isBlank] using hc
      · cases hn
    · obtain ⟨negative, ds, places, htext, hne, hds, hplaces⟩ := Piece.take_of_real? hn
      obtain ⟨x, hx⟩ := Number.readFloat_digits hds hne negative hplaces
      have hline : '\n' ∉ Number.sign negative ++ ds ++ '.' :: places := by
        simp [newline_not_mem_sign, newline_not_mem_digits hds, newline_not_mem_digits hplaces]
      rw [(cons_take (by simp [htext])).1, htext]
      exact ⟨by simp, hline, _, by rw [tokenOf, hx]; rfl⟩
    · obtain ⟨negative, ds, htext, hne, hds⟩ := Piece.take_of_integer? hn
      have hcount : ((Number.sign negative ++ ds).filter Text.isDigit).length = ds.length := by
        rw [List.filter_append, List.filter_eq_self.mpr hds]
        cases negative <;> rfl
      rw [(cons_take (by simp [htext, hne])).1, htext] at hread ⊢
      have hi := Number.readInt_digits hds hne negative (hcount ▸ hread rfl)
      refine ⟨by simp [hne], ?_, _, by rw [tokenOf, hi]; rfl⟩
      simp [newline_not_mem_sign, newline_not_mem_digits hds]
    · exact ⟨htaken.1, htaken.2, _, rfl⟩
    · obtain ⟨w, hw, htext⟩ := take_of_oneOf? hn
      have hwords : ∀ w ∈ [d.truthWords.1, d.truthWords.2], w.toList ≠ [] ∧ '\n' ∉ w.toList := by
        cases d <;> decide
      rw [(cons_take (htext ▸ (hwords w hw).1)).1, htext]
      exact ⟨(hwords w hw).1, (hwords w hw).2, _, rfl⟩
    · exact ⟨htaken.1, not_mem_of_solid htaken.2, _, rfl⟩
    · obtain ⟨rfl, hpos⟩ := Piece.eq_of_some? hn
      have hne : (c :: cs).take (Piece.span (· == '\n') (c :: cs)) ≠ [] := by simpa using hpos
      rw [(cons_take hne).1, (cons_take hne).2]
      refine ⟨hne, fun x hx => ?_, fun x hx => beq_eq_false_iff_ne.mp (Piece.head_drop_span (p := (· == '\n')) hx)⟩
      rw [Piece.take_span] at hx
      exact beq_iff_eq.mp (List.mem_takeWhile_imp (p := (· == '\n')) hx)
    · exact ⟨htaken.1, htaken.2, _, rfl⟩
    · rw [Piece.comment?.eq_def] at hn
      split at hn
      · next cs heq =>
        cases heq
        cases hn
        rw [show ∀ k, 2 + k - 1 = k + 1 by omega, List.take_succ_cons, List.drop_succ_cons]
        refine ⟨_, rfl, fun hmem => ?_, fun x hx => ?_⟩
        · rw [Piece.take_span] at hmem
          exact absurd (List.mem_takeWhile_imp hmem) (by decide)
        · simpa using Piece.head_drop_span hx
      · cases hn
    · exact ⟨htaken.1, not_mem_of_solid htaken.2, _, rfl⟩
    · exact ⟨htaken.1, not_mem_of_solid htaken.2, _, rfl⟩
  · -- a line end would have been taken as one
    refine ⟨c, rfl, ?_⟩
    rintro rfl
    have hlines := hnone (.lines, fun cs => Piece.some? (Piece.span (· == '\n') cs)) (by simp [classes])
    simp [Piece.some?, Piece.span] at hlines

/-- Only line ends lead to another line. -/
theorem Fits.count_newline (h : d.Fits p rest) :
    p.text.count '\n' = if p.cls = .lines then p.text.length else 0 := by
  rw [Fits] at h
  split at h
  · next hcls => rcases h with h | h <;> rw [hcls, h] <;> rfl
  · next hcls => rw [if_pos hcls, List.count_eq_length.mpr fun c hc => (h.2.1 c hc).symm]
  · next hcls =>
    obtain ⟨inner, htext, hinner, -⟩ := h
    simp [hcls, htext, List.count_eq_zero.mpr hinner]
  · next hcls =>
    obtain ⟨c, htext, hc⟩ := h
    simp [hcls, htext, hc]
  · next _ hlines _ _ => rw [if_neg hlines, List.count_eq_zero.mpr h.2.1]

theorem Fits.tokenOf_ne_error (h : d.Fits p rest) (e : Number.NumeralFault) : d.tokenOf p ≠ .error e := by
  intro herror
  rw [Fits] at h
  split at h
  case h_5 =>
    obtain ⟨-, -, t, ht⟩ := h
    cases herror.symm.trans ht
  all_goals
    next hcls =>
      rw [tokenOf, hcls] at herror
      cases herror

theorem cut_cons (d : Dialect) (n : Nat) (c : Char) (cs : List Char) : d.cut (n + 1) (c :: cs) =
    ⟨(d.classify (c :: cs)).1, c :: cs.take ((d.classify (c :: cs)).2 - 1)⟩ ::
      d.cut n (cs.drop ((d.classify (c :: cs)).2 - 1)) := rfl

theorem flatMap_cut (d : Dialect) (hn : cs.length ≤ n) : (d.cut n cs).flatMap Piece.text = cs := by
  induction n generalizing cs with
  | zero => rw [List.length_eq_zero_iff.mp (Nat.le_zero.mp hn), cut, List.flatMap_nil]
  | succ n ih =>
    rcases cs with _ | ⟨c, cs⟩
    · rfl
    · rw [cut_cons, List.flatMap_cons, ih ((List.drop_sublist _ _).length_le.trans (Nat.le_of_succ_le_succ hn))]
      exact congrArg (c :: ·) (List.take_append_drop _ _)

theorem sliced_cut (d : Dialect) (hn : cs.length ≤ n) (hread : Readable (d.cut n cs)) : d.Sliced (d.cut n cs) := by
  induction n generalizing cs with
  | zero => trivial
  | succ n ih =>
    rcases cs with _ | ⟨c, cs⟩
    · trivial
    · have hrest := (List.drop_sublist ((d.classify (c :: cs)).2 - 1) cs).length_le.trans (Nat.le_of_succ_le_succ hn)
      rw [cut_cons] at hread ⊢
      rw [Readable, List.forall_mem_cons] at hread
      refine ⟨?_, ih hrest hread.2⟩
      rw [d.flatMap_cut hrest]
      exact d.fits_classify c cs (List.forall_mem_singleton.mpr hread.1)

end Dialect

/-! ### What is made of the pieces -/

/-- Pieces, each with the text before it. -/
def Piece.placed (before : List Char) : List Piece → List (List Char × Piece)
  | [] => []
  | p :: ps => (before, p) :: placed (before ++ p.text) ps

namespace Scanner

/-- The line that a text leads to. -/
def lineAfter (before : List Char) : Nat := 1 + before.count '\n'

/-- The token of a piece after a text. -/
def token? (d : Dialect) (x : List Char × Piece) : Option Token :=
  match d.tokenOf x.2 with
  | .ok (some (kind, value)) => some { kind, value, line := lineAfter x.1, position := x.1.length }
  | _ => none

/-- The report of a piece after a text. -/
def report? (x : List Char × Piece) : Option String :=
  if x.2.cls = .illegal then some (report (lineAfter x.1) x.1.length x.2.text) else none

/-- What was found next, with at most `n` tokens after it. -/
def resume (n : Nat) : List String × Except Number.NumeralFault (Option Token) × Scanner →
    List String × List Token × Option Number.NumeralFault × Scanner
  | (reports, .ok (some t), s) => (reports ++ (upTo n s).1, t :: (upTo n s).2.1, (upTo n s).2.2)
  | (reports, .ok none, s) => (reports, [], none, s)
  | (reports, .error e, s) => (reports, [], some e, s)

theorem upTo_succ (n : Nat) (s : Scanner) : upTo (n + 1) s = resume n s.next := by
  rw [upTo]
  rcases s.next with ⟨reports, e | _ | t, s⟩ <;> rfl

/-- From any place on, the reports and tokens are those of the pieces.  Reports that have been made
already stand in front. -/
theorem resume_scan (h : d.Sliced ps) (n : Nat) (before : List Char) (reports : List String)
    (hn : ps.length ≤ n) : resume n (scan d ps (lineAfter before) before.length reports) =
      (reports.reverse ++ (Piece.placed before ps).filterMap report?,
        (Piece.placed before ps).filterMap (token? d), none,
        ⟨d, [], lineAfter (before ++ ps.flatMap Piece.text), (before ++ ps.flatMap Piece.text).length⟩) := by
  induction ps generalizing n before reports with
  | nil => simp [scan, resume, Piece.placed]
  | cons p ps ih =>
    obtain ⟨hfits, hps⟩ := h
    have hline : lineAfter (before ++ p.text) =
        lineAfter before + if p.cls = .lines then p.text.length else 0 := by
      rw [lineAfter, List.count_append, hfits.count_newline, lineAfter, Nat.add_assoc]
    have hnext := fun n => ih hps n (before ++ p.text)
    rw [hline, List.length_append, List.append_assoc] at hnext
    rw [scan, Piece.placed, List.flatMap_cons]
    rcases htok : d.tokenOf p with e | _ | ⟨kind, value⟩
    · exact absurd htok (hfits.tokenOf_ne_error e)
    · have htoken : token? d (before, p) = none := by rw [token?, htok]
      rw [List.filterMap_cons_none htoken]
      have hn := Nat.le_of_succ_le hn
      cases hcls : p.cls
      case lines =>
        rw [if_pos hcls] at hnext
        rw [List.filterMap_cons_none (by simp [report?, hcls])]
        exact hnext n reports hn
      case illegal =>
        rw [if_neg (by rw [hcls]; decide)] at hnext
        have hscan := hnext n (report (lineAfter before) before.length p.text :: reports) hn
        rw [List.reverse_cons, List.append_assoc] at hscan
        rw [List.filterMap_cons_some (show report? (before, p) = _ from if_pos hcls)]
        exact hscan
      all_goals
        rw [if_neg (by rw [hcls]; decide)] at hnext
        rw [List.filterMap_cons_none (by simp [report?, hcls])]
        exact hnext n reports hn
    · have hplain : p.cls ≠ .lines ∧ p.cls ≠ .illegal := by
        constructor <;> intro hcls <;> rw [Dialect.tokenOf, hcls] at htok <;> cases htok
      have htoken : token? d (before, p) = some ⟨kind, value, lineAfter before, before.length⟩ := by
        rw [token?, htok]
      rcases n with _ | n
      · cases hn
      have hscan := hnext n [] (Nat.le_of_succ_le_succ hn)
      rw [if_neg hplain.1] at hscan
      rw [List.filterMap_cons_none (show report? (before, p) = none from if_neg hplain.2),
        List.filterMap_cons_some htoken]
      dsimp only [resume]
      rw [upTo_succ, next]
      dsimp only
      rw [← Nat.add_zero (lineAfter before), hscan]
      rfl

/-- Every character and every line of a source is accounted for: the pieces make up the source, each of
them fits where it stands, and the reports and tokens are those of the pieces at their places. -/
theorem accounts_for_source (d : Dialect) (source : String) (hread : Dialect.Readable (d.pieces source.toList)) :
    (d.pieces source.toList).flatMap Piece.text = source.toList ∧ d.Sliced (d.pieces source.toList) ∧
      (ofSource d 1 source).all = ((Piece.placed [] (d.pieces source.toList)).filterMap report?,
        (Piece.placed [] (d.pieces source.toList)).filterMap (token? d), none,
        ⟨d, [], 1 + source.toList.count '\n', source.toList.length⟩) := by
  have hflat : (d.pieces source.toList).flatMap Piece.text = source.toList := d.flatMap_cut (Nat.le_refl _)
  have hsliced := d.sliced_cut (Nat.le_refl _) hread
  have hscan := resume_scan hsliced _ [] [] (Nat.le_refl _)
  rw [List.nil_append, ← Dialect.pieces, hflat] at hscan
  rw [all, upTo_succ]
  exact ⟨hflat, hsliced, hscan⟩

theorem accounts_for_remark : Dialect.Readable (Dialect.plain.pieces "n = -12 @;%% 3\n\"s\"".toList) ∧
    (ofSource .plain 1 "n = -12 @;%% 3\n\"s\"").all.2.2 = (none, ⟨.plain, [], 2, 18⟩) := by
  have hread : Dialect.Readable (Dialect.plain.pieces "n = -12 @;%% 3\n\"s\"".toList) := by decide +kernel
  exact ⟨hread, by rw [(accounts_for_source .plain _ hread).2.2]; rfl⟩

end Scanner

end QuadLang
