/-
Reading and printing.

* `Exec.reads_first_valid` — reading a cell takes the lines of the input up to the first that is
  valid, and answers each line before it; no line is valid for a truth value;
* `Exec.prints_scalar` — a scalar is printed, unless no value was assigned, read or printed before.
-/
import QuadLang.Proofs.Operations

namespace QuadLang.Exec

open Steps

variable {type : Scalar} {m : Machine}

/-- What is printed for lines that are not valid, latest first. -/
def answers (rejected : List String) : List String := rejected.flatMap fun _ => [retry, prompt]

theorem answers_append (rejected printed : List String) :
    answers rejected ++ retry :: prompt :: printed = retry :: prompt :: (answers rejected ++ printed) := by
  induction rejected with
  | nil => rfl
  | cons l rejected ih => exact congrArg (retry :: prompt :: ·) ih

theorem readValue_append {rejected : List String} (h : ∀ l ∈ rejected, valueOfLine? type l = none)
    (printed rest : List String) :
    readValue type printed (rejected ++ rest) = readValue type (answers rejected ++ printed) rest := by
  induction rejected generalizing printed with
  | nil => rfl
  | cons l rejected ih =>
    obtain ⟨hl, hrejected⟩ := List.forall_mem_cons.mp h
    rw [List.cons_append, readValue, hl]
    dsimp only
    rw [ih hrejected, answers_append]
    rfl

/-- The first valid line is read; where there is none, the input comes to its end. -/
theorem reads_first_valid (type : Scalar) (m : Machine) :
    (∃ rejected line rest v, type ≠ .bool ∧ m.input = rejected ++ line :: rest ∧
      (∀ l ∈ rejected, valueOfLine? type l = none) ∧ valueOfLine? type line = some v ∧
      (readCell type).run m = (.ok v, { m with
        printed := prompt :: (answers rejected ++ m.printed), input := rest, lastValue := some v })) ∨
    (∀ l ∈ m.input, valueOfLine? type l = none) ∧
      (readCell type).run m = (.error .endOfInput, { m with
        printed := prompt :: (answers m.input ++ m.printed), input := [] }) := by
  rcases hfind : m.input.find? (fun l => (valueOfLine? type l).isSome) with _ | line
  · right
    have hall : ∀ l ∈ m.input, valueOfLine? type l = none := by simpa using hfind
    have hread := readValue_append hall m.printed []
    rw [List.append_nil, readValue] at hread
    refine ⟨hall, ?_⟩
    rw [ExceptT.run, readCell, hread]
  · left
    obtain ⟨hline, rejected, rest, hinput, hrejected⟩ := List.find?_eq_some_iff_append.mp hfind
    obtain ⟨v, hv⟩ := Option.isSome_iff_exists.mp hline
    have hinvalid : ∀ l ∈ rejected, valueOfLine? type l = none := by simpa using hrejected
    have hread := readValue_append hinvalid m.printed (line :: rest)
    rw [readValue, hv] at hread
    refine ⟨rejected, line, rest, v, ?_, hinput, hinvalid, hv, ?_⟩
    · rintro rfl
      cases hv
    · rw [ExceptT.run, readCell, hinput, hread]

/-- A scalar is printed if and only if there was a value before. -/
theorem prints_scalar {q : List String} {operand s : String} {v : Value} (hq : q[3]? = some operand)
    (hquote : quotedText? operand = none) (hwidth : m.width = .ok 1)
    (hvalue : m.value (.text operand) 0 = .ok v) (htext : v.plain = .ok s) (hdebug : m.debug = false)
    (hlast : ∀ last ∈ m.lastValue, ∃ t, last.plain = .ok t) (place : Int) :
    (printField place q).run m = if m.lastValue.isSome then
      (.ok (), { m with lastValue := some v, printed := (s ++ "\n") :: m.printed }) else (.error .noValue, m) := by
  have hsay : ∀ message, (say place message).run m = (.ok (), m) := by
    intro message
    show (if m.debug = true then print _ else pure () : Exec Unit).run m = _
    rw [hdebug]
    rfl
  rw [printField, run_bind_ok (run_field hq m)]
  simp only [hquote]
  rw [run_bind_ok (by rw [run_ofExcept, hwidth])]
  simp only [beq_self_eq_true, if_true]
  rw [run_bind_ok (run_get m)]
  rcases hm : m.lastValue with _ | last
  · rfl
  · obtain ⟨t, ht⟩ := hlast last hm
    dsimp only
    rw [run_bind_ok (run_textOf ht m), run_bind_ok (hsay _), run_bind_ok (run_value hvalue),
      run_bind_ok (run_modify _ m), run_bind_ok (run_textOf htext _)]
    rfl

theorem prints_no_letter :
    let m := { Machine.blank with
      frames := #[#[some ⟨.text "a", .of .char⟩]], locals := [0, 0], localOffsets := [[0, 0, 0, 0]] }
    (printField 0 ["PRINT", "None", "None", "17000"]).run m = (.error .noValue, m) :=
  prints_scalar (v := .text "a") (s := "a") rfl rfl rfl rfl rfl rfl (fun _ h => by cases h) 0

end QuadLang.Exec
