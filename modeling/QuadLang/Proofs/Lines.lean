/-
Lines and fields.

An object text is rows of fields: fields have tabs between them and rows end in line feeds, without
any escapes.  This file shows when the fields are found again, and that every text a number is
written as can be a field.

* `Text.splitBy_join` — cutting at the separator undoes joining, when no piece holds it;
* `Text.splitBy_lines` — the same for lines, with an empty one after the last;
* `Text.newlines_of_not_mem`, `Text.not_mem_newlines` — what reading in text mode does to carriage
  returns;
* `clean_plainText`, `Field.Fits.clean` — constants and fields without separators.
-/
import QuadLang.Proofs.Texts

namespace QuadLang

variable {c : Char} {n : Nat}

namespace Text

variable {sep : Char} {cs piece : List Char} {s : String}

/-! ### Cutting -/

theorem splitChars_of_not_mem (h : sep ∉ cs) : splitChars sep cs = [cs] := by
  induction cs with
  | nil => rfl
  | cons c cs ih =>
    rw [List.mem_cons, not_or] at h
    rw [splitChars, if_neg (fun heq => h.1 (beq_iff_eq.mp heq).symm), ih h.2]

theorem splitChars_append (h : sep ∉ piece) (cs : List Char) :
    splitChars sep (piece ++ sep :: cs) = piece :: splitChars sep cs := by
  induction piece with
  | nil => rw [List.nil_append, splitChars, if_pos (beq_self_eq_true sep)]
  | cons c piece ih =>
    rw [List.mem_cons, not_or] at h
    rw [List.cons_append, splitChars, if_neg (fun heq => h.1 (beq_iff_eq.mp heq).symm), ih h.2]

/-- The pieces are of the characters of the text, without the separator. -/
theorem mem_of_mem_splitChars (hp : piece ∈ splitChars sep cs) (hc : c ∈ piece) :
    c ∈ cs ∧ c ≠ sep := by
  induction cs generalizing piece with
  | nil =>
    rw [splitChars, List.mem_singleton] at hp
    rw [hp] at hc
    exact absurd hc List.not_mem_nil
  | cons d cs ih =>
    rw [splitChars] at hp
    split at hp
    · rcases List.mem_cons.mp hp with rfl | hp
      · exact absurd hc List.not_mem_nil
      · exact ⟨List.mem_cons_of_mem _ (ih hp hc).1, (ih hp hc).2⟩
    · next hd =>
      have hd : d ≠ sep := fun heq => hd (beq_iff_eq.mpr heq)
      split at hp
      · rw [List.mem_singleton] at hp
        rw [hp, List.mem_singleton] at hc
        exact ⟨hc ▸ List.mem_cons_self, hc ▸ hd⟩
      · next first rest heq =>
        rw [heq] at ih
        rcases List.mem_cons.mp hp with rfl | hp
        · rcases List.mem_cons.mp hc with rfl | hc
          · exact ⟨List.mem_cons_self, hd⟩
          · have := ih List.mem_cons_self hc
            exact ⟨List.mem_cons_of_mem _ this.1, this.2⟩
        · have := ih (List.mem_cons_of_mem _ hp) hc
          exact ⟨List.mem_cons_of_mem _ this.1, this.2⟩

theorem mem_of_mem_splitBy {p : String} (hp : p ∈ splitBy sep s) (hc : c ∈ p.toList) :
    c ∈ s.toList ∧ c ≠ sep := by
  obtain ⟨piece, hpiece, rfl⟩ := List.mem_map.mp hp
  rw [String.toList_ofList] at hc
  exact mem_of_mem_splitChars hpiece hc

theorem splitChars_intercalate {pieces : List (List Char)} (hne : pieces ≠ [])
    (h : ∀ p ∈ pieces, sep ∉ p) : splitChars sep ([sep].intercalate pieces) = pieces := by
  induction pieces with
  | nil => exact absurd rfl hne
  | cons p pieces ih =>
    have hp := h p List.mem_cons_self
    rcases pieces with _ | ⟨q, pieces⟩
    · rw [List.intercalate_singleton, splitChars_of_not_mem hp]
    · rw [List.intercalate_cons_cons, List.append_assoc, List.singleton_append, splitChars_append hp,
        ih (List.cons_ne_nil _ _) fun r hr => h r (List.mem_cons_of_mem _ hr)]

theorem splitBy_join {pieces : List String} (hne : pieces ≠ []) (h : ∀ p ∈ pieces, sep ∉ p.toList) :
    splitBy sep (join (String.singleton sep) pieces) = pieces := by
  rw [splitBy, join, String.toList_intercalate, String.toList_singleton, splitChars_intercalate,
    List.map_map]
  · simp
  · simpa using hne
  · simpa using h

/-- Lines that end in line feeds are found again, and an empty one after them. -/
theorem splitBy_lines {lines : List String} (h : ∀ l ∈ lines, '\n' ∉ l.toList) :
    splitBy '\n' (String.join (lines.map (· ++ "\n"))) = lines ++ [""] := by
  induction lines with
  | nil => decide
  | cons l lines ih =>
    rw [List.map_cons, String.join_cons, splitBy, String.toList_append, String.toList_append,
      show "\n".toList = ['\n'] from rfl, List.append_assoc, List.singleton_append,
      splitChars_append (h l List.mem_cons_self), List.map_cons, String.ofList_toList,
      ← splitBy, ih fun l' hl' => h l' (List.mem_cons_of_mem _ hl'), List.cons_append]

/-! ### Reading in text mode -/

theorem unifyNewlines_of_not_mem (h : '\r' ∉ cs) : unifyNewlines cs = cs := by
  induction cs with
  | nil => rfl
  | cons c cs ih =>
    rw [List.mem_cons, not_or] at h
    rw [unifyNewlines.eq_4 c cs (fun _ heq _ => h.1 heq.symm) (fun heq => h.1 heq.symm), ih h.2]

theorem newlines_of_not_mem (h : '\r' ∉ s.toList) : newlines s = s := by
  rw [newlines, unifyNewlines_of_not_mem h, String.ofList_toList]

theorem not_mem_unifyNewlines (cs : List Char) : '\r' ∉ unifyNewlines cs := by
  fun_induction unifyNewlines cs with
  | case1 => exact List.not_mem_nil
  | case2 cs ih | case3 cs _ ih => exact fun h => ih (List.mem_of_ne_of_mem (by decide) h)
  | case4 c cs _ hc ih => exact fun h => ih (List.mem_of_ne_of_mem (fun heq => hc heq.symm) h)

/-- No carriage return is left. -/
theorem not_mem_newlines (s : String) : '\r' ∉ (newlines s).toList := by
  rw [newlines, String.toList_ofList]
  exact not_mem_unifyNewlines _

end Text

/-! ### Clean texts -/

theorem Clean.append {s t : String} (hs : Clean s) (ht : Clean t) : Clean (s ++ t) := by
  intro c hc
  rw [String.toList_append] at hc
  exact (List.mem_append.mp hc).elim (hs c) (ht c)

theorem solid_of_isDigit (h : c.isDigit = true) : Solid c :=
  solid_of_le (Nat.le_trans (by decide) (Number.toNat_of_isDigit h).1)

theorem solid_of_mem_toDigits (h : c ∈ Nat.toDigits 10 n) : Solid c :=
  solid_of_isDigit (Number.isDigit_of_mem_toDigits h)

theorem clean_toString (i : Int) : Clean (toString i) := by
  cases i with
  | ofNat n =>
    intro c hc
    rw [show toString (Int.ofNat n) = toString (n : Int) from rfl, Number.toList_toString_ofNat] at hc
    exact solid_of_mem_toDigits hc
  | negSucc n =>
    intro c hc
    rw [Number.toList_toString_neg] at hc
    rcases List.mem_cons.mp hc with rfl | hc
    · exact solid_of_le (by decide)
    · exact solid_of_mem_toDigits hc

namespace Number

variable {d : Digits}

theorem Digits.solid_ofScaled {d : Nat} {k : Int} (h : c ∈ (Digits.ofScaled d k).digits) :
    Solid c := by
  rw [Digits.ofScaled, List.mem_reverse] at h
  exact solid_of_mem_toDigits (List.mem_reverse.mp ((List.dropWhile_suffix _).mem h))

theorem candidate?_eq_some {m : Nat} {e point : Int} (h : candidate? m e point n = some d) :
    ∃ k i, d = .ofScaled k i := by
  simp only [candidate?] at h
  split_ifs at h <;> exact ⟨_, _, (Option.some.inj h).symm⟩

theorem exists_firstCandidate (m : Nat) (e point : Int) (n fuel : Nat) :
    ∃ k i, firstCandidate m e point n fuel = .ofScaled k i := by
  induction fuel generalizing n with
  | zero => exact ⟨_, _, rfl⟩
  | succ fuel ih =>
    rw [firstCandidate]
    rcases hc : candidate? m e point n with _ | d
    · exact ih (n + 1)
    · exact candidate?_eq_some hc

theorem solid_shortest (m : Nat) (e : Int) : ∀ c ∈ (shortest m e).digits, Solid c := by
  obtain ⟨k, i, heq⟩ := exists_firstCandidate m e (pointOf (fraction m e).1 (fraction m e).2) 1 16
  intro c hc
  have hc : c ∈ (firstCandidate m e (pointOf (fraction m e).1 (fraction m e).2) 1 16).digits := hc
  rw [heq] at hc
  exact Digits.solid_ofScaled hc

theorem solid_replicate (n : Nat) : ∀ c ∈ List.replicate n '0', Solid c := by
  intro c hc
  rw [List.eq_of_mem_replicate hc]
  exact solid_of_le (by decide)

theorem solid_writeExponent (e : Int) : ∀ c ∈ writeExponent e, Solid c := by
  have hdigits : ∀ c ∈ Nat.toDigits 10 e.natAbs, Solid c := fun c => solid_of_mem_toDigits
  refine List.forall_mem_cons.mpr ⟨solid_of_le (by decide), List.forall_mem_cons.mpr ⟨?_, ?_⟩⟩
  · split <;> exact solid_of_le (by decide)
  · split
    · exact List.forall_mem_cons.mpr ⟨solid_of_le (by decide), hdigits⟩
    · exact hdigits

/-- Laying out digits adds zeros, signs, points and the letter of the exponent. -/
theorem Layout.solid_write (l : Layout) (hd : ∀ c ∈ d.digits, Solid c) :
    ∀ c ∈ l.write d, Solid c := by
  have hzero : Solid '0' := solid_of_le (by decide)
  have hpoint : Solid '.' := solid_of_le (by decide)
  rw [Layout.write]
  dsimp only
  split
  · split
    · exact List.forall_mem_cons.mpr ⟨hzero, List.forall_mem_cons.mpr ⟨hpoint,
        List.forall_mem_append.mpr ⟨solid_replicate _, hd⟩⟩⟩
    · split
      · refine List.forall_mem_append.mpr ⟨List.forall_mem_append.mpr ⟨hd, solid_replicate _⟩, ?_⟩
        split
        · exact List.forall_mem_cons.mpr ⟨hpoint, List.forall_mem_singleton.mpr hzero⟩
        · exact fun c hc => absurd hc List.not_mem_nil
      · exact List.forall_mem_append.mpr ⟨fun c hc => hd c (List.mem_of_mem_take hc),
          List.forall_mem_cons.mpr ⟨hpoint, fun c hc => hd c (List.mem_of_mem_drop hc)⟩⟩
  · split
    · next heq =>
      rw [heq] at hd
      exact List.forall_mem_cons.mpr ⟨hd _ List.mem_cons_self, solid_writeExponent _⟩
    · next heq =>
      rw [heq] at hd
      obtain ⟨hc, hcs⟩ := List.forall_mem_cons.mp hd
      exact List.forall_mem_cons.mpr ⟨hc, List.forall_mem_cons.mpr ⟨hpoint,
        List.forall_mem_append.mpr ⟨hcs, solid_writeExponent _⟩⟩⟩
    · exact solid_writeExponent _

theorem clean_writeFloat (x : Float) : Clean (writeFloat x) := by
  rw [writeFloat, writeWith]
  split
  · exact clean_of_all (by decide)
  · split <;> exact clean_of_all (by decide)
  · next negative m e _ =>
    have hbody : ∀ c ∈ (if m == 0 then '0' :: (if Layout.plain.keepFraction then ['.', '0'] else [])
        else Layout.plain.write (shortest m e)), Solid c := by
      split
      · exact clean_of_all (s := "0.0") (by decide)
      · exact Layout.solid_write _ (solid_shortest m e)
    intro c hc
    rw [String.toList_ofList] at hc
    split at hc
    · exact List.forall_mem_cons.mpr ⟨solid_of_le (by decide), hbody⟩ c hc
    · exact hbody c hc

end Number

/-- Constants are written without separators, unless they are texts that have some. -/
theorem Literal.clean_plainText {v : Literal} (h : ∀ s, v = .text s → Clean s) : Clean v.plainText := by
  cases v with
  | text s => exact h s rfl
  | int i => exact clean_toString i
  | real x => exact Number.clean_writeFloat x
  | truth b => cases b <;> exact clean_of_all (by decide)

theorem Field.Fits.clean_shown {f : Field} (h : f.Fits Clean) : Clean f.shown := by
  cases f with
  | none => exact clean_of_all (by decide)
  | text s => exact h
  | number i => exact clean_toString i
  | pointer i =>
    exact ((clean_of_all (s := "(") (by decide)).append (clean_toString i)).append
      (clean_of_all (s := ",)") (by decide))

end QuadLang
