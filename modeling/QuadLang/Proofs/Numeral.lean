/-
Integers survive being written.

Operands reach the machine as decimal text, and the operands of an operator are
written out once more.  This file shows that both are faithful as long as the
number has at most `maxDigits` digits:

* `readInt_digits`, `readFloat_digits` — a number is read, whatever the script of its digits;
* `readInt_toString` — reading the text of an integer gives the integer;
* `intText_ok`, `intText_long` — an integer can be written exactly when it is
  short enough;
* `pointerText?_toString` — no numeral looks like a pointer.
-/
import Mathlib
import QuadLang.Machine.Memory

namespace QuadLang

variable {c : Char} {ds rest places : List Char} {i : Int} {n : Nat}

namespace Number

/-- An integer that has at most `maxDigits` digits. -/
def Short (i : Int) : Prop := i.natAbs < 10 ^ maxDigits

instance (i : Int) : Decidable (Short i) := inferInstanceAs (Decidable (_ < _))

theorem isDigit_of_mem_toDigits (h : c ∈ Nat.toDigits 10 n) :
    c.isDigit = true :=
  Nat.isDigit_of_mem_toDigits (by decide) (by decide) h

theorem toNat_of_isDigit (h : c.isDigit = true) : 48 ≤ c.toNat ∧ c.toNat ≤ 57 := by
  simp only [Char.isDigit, Bool.and_eq_true, decide_eq_true_eq, ge_iff_le,
    UInt32.le_iff_toNat_le] at h
  exact h

theorem normalize_of_isDigit (h : c.isDigit = true) : normalize c = c := by
  have := (toNat_of_isDigit h).2
  rw [normalize, if_pos (by omega)]

theorem isNumeralBlank_of_isDigit (h : c.isDigit = true) :
    Text.isNumeralBlank c = false := by
  obtain ⟨h1, h2⟩ := toNat_of_isDigit h
  have hb : Text.isBlank c = false := by
    simp only [Text.isBlank, Bool.or_eq_false_iff, Bool.and_eq_false_iff, decide_eq_false_iff_not,
      beq_eq_false_iff_ne]
    omega
  simp [Text.isNumeralBlank, hb]

theorem ne_of_isDigit {d : Char} (h : c.isDigit = true) (hd : d.isDigit = false) : c ≠ d := by
  rintro rfl
  rw [h] at hd
  exact absurd hd (by decide)

/-- Digits are a run before anything that does not go on with it. -/
theorem digitRun_append (rest : List Char) (h : ∀ c ∈ ds, c.isDigit = true)
    (hrest : ∀ c ∈ rest.head?, (c.isDigit || c == '_') = false) :
    digitRun (ds ++ rest) = some (ds, rest) := by
  have hall : ∀ c ∈ ds, (c.isDigit || c == '_') = true := fun c hc => by rw [h c hc, Bool.true_or]
  have hstop : rest.takeWhile (fun c => c.isDigit || c == '_') = [] ∧
      rest.dropWhile (fun c => c.isDigit || c == '_') = rest := by
    rcases rest with _ | ⟨c, rest⟩
    · exact ⟨rfl, rfl⟩
    · simp [hrest c rfl]
  have hne : ∀ c ∈ ds, c ≠ '_' := fun c hc => ne_of_isDigit (h c hc) (by decide)
  have hdoubled : ∀ l : List Char, (∀ c ∈ l, c ≠ '_') → digitRun.doubled l = false := by
    intro l
    induction l with
    | nil => intro _; rfl
    | cons c cs ih =>
      intro hl
      have hc : c ≠ '_' := hl c (by simp)
      rw [digitRun.doubled.eq_2 c cs (fun _ h1 _ => hc h1)]
      exact ih fun d hd => hl d (by simp [hd])
  have hhead : ds.head? ≠ some '_' := fun hd => hne _ (List.mem_of_mem_head? hd) rfl
  have hlast : ds.getLast? ≠ some '_' := fun hd => hne _ (List.mem_of_mem_getLast? hd) rfl
  have hfilter : ds.filter (· != '_') = ds := by
    rw [List.filter_eq_self]
    intro c hc
    simpa using hne c hc
  rw [digitRun, List.takeWhile_append_of_pos hall, List.dropWhile_append_of_pos hall, hstop.1, hstop.2]
  simp [hdoubled ds hne, hhead, hlast, hfilter]

/-- A list of digits is one run, and nothing is left of it. -/
theorem digitRun_of_digits (h : ∀ c ∈ ds, c.isDigit = true) : digitRun ds = some (ds, []) := by
  simpa using digitRun_append [] h (by simp)

/-! ### Digits of all scripts -/

theorem isBlank_of_run : ∀ z ∈ Text.decimalZeros, ∀ v < 10, Text.isBlank (Char.ofNat (z + v)) = false := by
  decide +kernel

theorem isDigit_ofNat : ∀ v < 10, (Char.ofNat ('0'.toNat + v)).isDigit = true := by decide

/-- A digit of any script becomes one of ASCII. -/
theorem isDigit_normalize (h : Text.isDigit c = true) : (normalize c).isDigit = true := by
  obtain ⟨v, hv⟩ := Option.isSome_iff_exists.mp h
  rw [Text.digitValue?] at hv
  split_ifs at hv with hascii hlow
  · have hc : c.isDigit = true := by simpa [Char.isDigit, Char.le_def] using hascii
    rwa [normalize_of_isDigit hc]
  · obtain ⟨z, hz, rfl⟩ := Option.map_eq_some_iff.mp hv
    have hrun := List.find?_some hz
    simp only [Bool.and_eq_true, decide_eq_true_eq] at hrun
    have hblank : Text.isBlank c = false := by
      have hfar := isBlank_of_run z (List.mem_of_find?_eq_some hz) (c.toNat - z) (by omega)
      rwa [Nat.add_sub_cancel' hrun.1, Char.ofNat_toNat] at hfar
    rw [normalize, if_neg hlow, hblank, if_neg Bool.false_ne_true, Text.digitValue?, if_neg hascii,
      if_neg hlow, hz]
    exact isDigit_ofNat (c.toNat - z) (by omega)

theorem isDigit_of_mem_normalize (h : ∀ c ∈ ds, Text.isDigit c = true) :
    ∀ c ∈ ds.map normalize, c.isDigit = true := by
  intro c hc
  obtain ⟨x, hx, rfl⟩ := List.mem_map.mp hc
  exact isDigit_normalize (h x hx)

/-- What stands before the digits of a number. -/
def sign (negative : Bool) : List Char := if negative then ['-'] else []

section

variable (h : ∀ c ∈ ds, Text.isDigit c = true) (hne : ds ≠ []) (negative : Bool)
include h

/-- No part of a number is blank. -/
theorem not_blank_of_digits :
    ∀ c ∈ (sign negative ++ ds).map normalize, Text.isNumeralBlank c = false := by
  rw [List.map_append]
  intro c hc
  rcases List.mem_append.mp hc with hc | hc
  · cases negative
    · cases hc
    · rw [List.mem_singleton.mp hc]
      decide
  · exact isNumeralBlank_of_isDigit (isDigit_of_mem_normalize h c hc)

include hne

/-- A sign is taken off the digits. -/
theorem splitSign_digits (rest : List Char) :
    splitSign ((sign negative ++ ds).map normalize ++ rest) = (negative, ds.map normalize ++ rest) := by
  cases negative with
  | true => rfl
  | false =>
    obtain ⟨c, cs, rfl⟩ := List.exists_cons_of_ne_nil hne
    have hc := isDigit_of_mem_normalize h _ List.mem_cons_self
    have hminus := ne_of_isDigit hc (show '-'.isDigit = false by decide)
    have hplus := ne_of_isDigit hc (show '+'.isDigit = false by decide)
    exact splitSign.eq_3 _ (fun _ h => hminus (List.cons.inj h).1) (fun _ h => hplus (List.cons.inj h).1)

end

theorem dropWhile_of_not_blank {cs : List Char} (h : ∀ c ∈ cs, Text.isNumeralBlank c = false) :
    cs.dropWhile Text.isNumeralBlank = cs := by
  rcases cs with _ | ⟨c, cs⟩
  · rfl
  · exact List.dropWhile_cons_of_neg (by simp [h c List.mem_cons_self])

/-- An integer that is not too long is read. -/
theorem readInt_digits (h : ∀ c ∈ ds, Text.isDigit c = true) (hne : ds ≠ []) (negative : Bool)
    (hshort : ds.length ≤ maxDigits) : readInt (String.ofList (sign negative ++ ds)) =
      .ok (if negative then -(ofDigits (ds.map normalize) : Int) else ofDigits (ds.map normalize)) := by
  have hsplit := splitSign_digits h hne negative []
  rw [List.append_nil, List.append_nil] at hsplit
  have hemp : (ds.map normalize).isEmpty = false := by simpa using hne
  rw [readInt, String.toList_ofList, dropWhile_of_not_blank (not_blank_of_digits h negative), hsplit]
  simp only [digitRun_of_digits (isDigit_of_mem_normalize h), List.length_map,
    if_neg (Nat.not_lt.mpr hshort), hemp, List.all_nil]
  cases negative <;> simp

/-- A decimal is read. -/
theorem readFloat_digits (h : ∀ c ∈ ds, Text.isDigit c = true) (hne : ds ≠ []) (negative : Bool)
    (hplaces : ∀ c ∈ places, Text.isDigit c = true) :
    ∃ x, readFloat (String.ofList (sign negative ++ ds ++ '.' :: places)) = .ok x := by
  have hdigits := isDigit_of_mem_normalize hplaces
  have hblank : ∀ c ∈ (sign negative ++ ds).map normalize ++ '.' :: places.map normalize,
      Text.isNumeralBlank c = false := by
    rw [List.forall_mem_append, List.forall_mem_cons]
    exact ⟨not_blank_of_digits h negative, by decide, fun c hc => isNumeralBlank_of_isDigit (hdigits c hc)⟩
  have hpoint := digitRun_append ('.' :: places.map normalize) (isDigit_of_mem_normalize h)
    (fun c hc => by cases hc; decide)
  have hemp : (ds.map normalize).isEmpty = false := by simpa using hne
  have hread : ∃ x, readMagnitude negative (ds.map normalize ++ '.' :: places.map normalize) = some x := by
    rw [readMagnitude]
    split
    · exact ⟨_, rfl⟩
    split
    · exact ⟨_, rfl⟩
    simp only [hpoint, digitRun_of_digits hdigits, Option.bind_eq_bind, Option.bind_some, hemp]
    exact ⟨_, rfl⟩
  obtain ⟨x, hx⟩ := hread
  rw [readFloat, String.toList_ofList, List.map_append, List.map_cons, show normalize '.' = '.' by decide,
    Text.trimBy, dropWhile_of_not_blank hblank,
    dropWhile_of_not_blank (fun c hc => hblank c (List.mem_reverse.mp hc)), List.reverse_reverse,
    splitSign_digits h hne]
  exact ⟨x, by simp only [hx]⟩

/-! ### Integers and their texts -/

theorem ofDigits_toDigits (n : Nat) : ofDigits (Nat.toDigits 10 n) = n := by
  have h := Nat.ofDigitChars_ten_toDigits (n := n)
  rwa [Nat.ofDigitChars_eq_foldl] at h

theorem length_toDigits_le (h : n < 10 ^ maxDigits) :
    (Nat.toDigits 10 n).length ≤ maxDigits :=
  (Nat.length_toDigits_le_iff (by decide) (by decide)).mpr h

theorem map_normalize_toDigits (n : Nat) :
    (Nat.toDigits 10 n).map normalize = Nat.toDigits 10 n := by
  calc (Nat.toDigits 10 n).map normalize
      = (Nat.toDigits 10 n).map id :=
        List.map_congr_left fun c hc => normalize_of_isDigit (isDigit_of_mem_toDigits hc)
    _ = Nat.toDigits 10 n := List.map_id _

theorem toDigits_eq_cons (n : Nat) : ∃ c cs, Nat.toDigits 10 n = c :: cs ∧ c.isDigit = true := by
  rcases hd : Nat.toDigits 10 n with _ | ⟨c, cs⟩
  · exact absurd hd Nat.toDigits_ne_nil
  · exact ⟨c, cs, rfl, isDigit_of_mem_toDigits (n := n) (by simp [hd])⟩

theorem toList_toString_ofNat (n : Nat) : (toString (n : Int)).toList = Nat.toDigits 10 n := by
  rw [show toString (n : Int) = n.repr from rfl, Nat.toList_repr]

theorem toList_toString_neg (n : Nat) :
    (toString (Int.negSucc n)).toList = '-' :: Nat.toDigits 10 (n + 1) := by
  rw [show toString (Int.negSucc n) = "-" ++ (n + 1).repr from rfl]
  simp [Nat.toList_repr]

theorem textDigit_of_mem_toDigits (n : Nat) : ∀ c ∈ Nat.toDigits 10 n, Text.isDigit c = true := by
  intro c hc
  have hc : c.isDigit = true := isDigit_of_mem_toDigits hc
  rw [Text.isDigit, Text.digitValue?, if_pos (by simpa [Char.isDigit, Char.le_def] using hc)]
  rfl

theorem readInt_toString (h : Short i) : readInt (toString i) = .ok i := by
  have hread := fun negative =>
    readInt_digits (textDigit_of_mem_toDigits _) Nat.toDigits_ne_nil negative (length_toDigits_le h)
  rw [map_normalize_toDigits, ofDigits_toDigits] at hread
  cases i with
  | ofNat n =>
    rw [← String.ofList_toList (s := toString (Int.ofNat n)), show toString (Int.ofNat n) = toString (n : Int) from rfl,
      toList_toString_ofNat]
    exact hread false
  | negSucc n =>
    rw [← String.ofList_toList (s := toString (Int.negSucc n)), toList_toString_neg]
    exact hread true

/-- An address is short. -/
theorem short_of_natAbs_lt (h : i.natAbs < 10 ^ 10) : Short i :=
  lt_of_lt_of_le h (Nat.pow_le_pow_right (by decide) (by decide))

theorem writeInt?_of_short (h : Short i) : writeInt? i = some (toString i) := by
  have h : i.natAbs < Nat.pow 10 maxDigits := h
  simp only [writeInt?, writeInt, if_pos h, ite_self]

theorem pow_le_pow_maxDigits : (2 : Nat) ^ 14280 ≤ 10 ^ maxDigits := by
  have h2 : 14280 = 93 * 153 + 51 := by decide
  have h10 : maxDigits = 28 * 153 + 16 := by decide
  rw [h2, h10, Nat.pow_add, Nat.pow_add, Nat.pow_mul, Nat.pow_mul]
  exact Nat.mul_le_mul (Nat.pow_le_pow_left (by decide) 153) (by decide)

theorem writeInt?_of_long (h : ¬ Short i) : writeInt? i = none := by
  have hpow : Nat.pow 2 14280 ≤ Nat.pow 10 maxDigits := pow_le_pow_maxDigits
  have hlong : Nat.pow 10 maxDigits ≤ i.natAbs := Nat.le_of_not_lt h
  simp only [writeInt?, if_neg (Nat.not_lt.mpr (le_trans hpow hlong)),
    if_neg (Nat.not_lt.mpr hlong)]

end Number

open Number

theorem Value.intText_ok (h : Short i) : Value.intText i = .ok (toString i) := by
  unfold Value.intText
  rw [writeInt?_of_short h]

theorem Value.intText_long (h : ¬ Short i) : Value.intText i = .error .longNumber := by
  unfold Value.intText
  rw [writeInt?_of_long h]

theorem Value.toInt_text_toString (h : Short i) :
    (Value.text (toString i)).toInt = .ok i := by
  simp only [Value.toInt, readInt_toString h]

theorem pointerText?_toString (i : Int) : pointerText? (toString i) = none := by
  have hhead : (toString i).toList.head? ≠ some '(' := by
    cases i with
    | ofNat n =>
      obtain ⟨c, cs, hcs, hc⟩ := toDigits_eq_cons n
      rw [show toString (Int.ofNat n) = toString (n : Int) from rfl, toList_toString_ofNat, hcs]
      simpa using ne_of_isDigit hc (show '('.isDigit = false by decide)
    | negSucc n =>
      rw [toList_toString_neg]
      simp
  rw [pointerText?]
  split
  · next rest hrest =>
    rw [hrest] at hhead
    simp at hhead
  · rfl

end QuadLang
