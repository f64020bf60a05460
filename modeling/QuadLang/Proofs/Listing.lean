/-
Listing the tokens first.

The scanner that listed the tokens of a source is used again to compile it, and goes on counting lines.
Nothing else of a session depends on the list: a source without illegal characters is compiled and run as
without the list, up to the line of a bad token.

* `Scanner.later`, `Parsing.later` — the same place, `n` lines on;
* `Parsing.advance_later`, `Parsing.advances_later` — parsing `n` lines on takes the same steps;
* `Session.run_listed` — what a session with a list of tokens comes to.
-/
import QuadLang.Proofs.Pieces
import QuadLang.Session

namespace QuadLang

variable {d : Dialect} {t : Lalr.Tables} {n : Nat} {s : Scanner} {p : Parsing}

def Token.later (n : Nat) (t : Token) : Token := { t with line := t.line + n }

namespace Scanner

def later (n : Nat) (s : Scanner) : Scanner := { s with line := s.line + n }

/-- No illegal characters are left. -/
def Clean (s : Scanner) : Prop := ∀ p ∈ s.pieces, p.cls ≠ .illegal

/-- Without illegal characters nothing is reported, and the line is only counted. -/
theorem scan_later (n : Nat) : ∀ {ps : List Piece}, (∀ p ∈ ps, p.cls ≠ .illegal) →
    ∀ line position, ∃ result s, scan d ps line position [] = ([], result, s) ∧ s.Clean ∧
      scan d ps (line + n) position [] = ([], result.map (Option.map (Token.later n)), s.later n)
  | [], _, line, position => ⟨_, _, rfl, by simp [Clean], rfl⟩
  | p :: ps, hps, line, position => by
    obtain ⟨hp, hps⟩ := List.forall_mem_cons.mp hps
    have ih := scan_later n hps
    simp only [scan]
    rcases d.tokenOf p with e | _ | ⟨kind, value⟩
    · exact ⟨_, _, rfl, hps, rfl⟩
    · cases hcls : p.cls
      case lines =>
        rw [Nat.add_right_comm]
        exact ih _ _
      case illegal => exact absurd hcls hp
      all_goals exact ih _ _
    · exact ⟨_, _, rfl, hps, rfl⟩

theorem Clean.next (h : s.Clean) (n : Nat) : ∃ result s', s.next = ([], result, s') ∧ s'.Clean ∧
    (s.later n).next = ([], result.map (Option.map (Token.later n)), s'.later n) :=
  scan_later n h _ _

/-- The list has a line for each token, and ends where the tokens end. -/
theorem Clean.listUpTo (h : s.Clean) : ∀ k, listUpTo k s =
    ((upTo k s).2.1.map (fun t => t.shown ++ "\n"), (upTo k s).2.2) := by
  intro k
  induction k generalizing s with
  | zero => rfl
  | succ k ih =>
    obtain ⟨result, s', hnext, hs', -⟩ := h.next 0
    rw [Scanner.listUpTo, upTo, hnext]
    rcases result with e | _ | t
    · rfl
    · rfl
    · simp [ih hs']

/-- The numerals can be read, so the source is read to its end. -/
theorem exists_all_ofSource (d : Dialect) (source : String)
    (h : Dialect.Readable (d.pieces source.toList)) : ∃ reports tokens, (ofSource d 1 source).all =
      (reports, tokens, none, ⟨d, [], 1 + source.toList.count '\n', source.toList.length⟩) := by
  have hscan := resume_scan (d.sliced_cut (Nat.le_refl _) h) _ [] [] (Nat.le_refl _)
  rw [List.nil_append, d.flatMap_cut (Nat.le_refl _), ← Dialect.pieces] at hscan
  rw [all, upTo_succ]
  exact ⟨_, _, hscan⟩

end Scanner

/-- The same fault, or that of the same bad token `n` lines on. -/
def CompileFault.Moved (n : Nat) (f f' : CompileFault) : Prop :=
  f' = f ∨ ∃ line value, f = .badToken line value ∧ f' = .badToken (line + n) value

/-- The same fault, or that of the same bad token `n` lines on. -/
def SessionFault.Moved (n : Nat) (f f' : SessionFault) : Prop :=
  f' = f ∨ ∃ line value, f = .compile (.badToken line value) ∧ f' = .compile (.badToken (line + n) value)

namespace Parsing

def later (n : Nat) (p : Parsing) : Parsing := { p with
  scanner := p.scanner.later n
  ahead := p.ahead.map fun a => { a with token := a.token.map (.later n) } }

/-- What a step comes to from `n` lines on. -/
inductive Later (n : Nat) : Progress → Progress → Prop
  | more {p : Parsing} (h : p.scanner.Clean) : Later n (.more p) (.more (p.later n))
  | accepted (p : Parsing) : Later n (.accepted p) (.accepted (p.later n))
  | failed (p : Parsing) {f f' : CompileFault} (h : f.Moved n f') :
      Later n (.failed p f) (.failed (p.later n) f')

theorem reduce_later (h : p.scanner.Clean) (rule : Nat) :
    Later n (p.reduce d t rule) ((p.later n).reduce d t rule) := by
  simp only [reduce, show (p.later n).stack = p.stack from rfl,
    show (p.later n).compiler = p.compiler from rfl]
  split
  next result c _ =>
  cases result with
  | error e => exact .failed _ (.inl rfl)
  | ok value =>
    dsimp only [state]
    split
    · exact .more h
    · exact .failed _ (.inl rfl)

theorem look_later (h : p.scanner.Clean) : ∃ q r, p.look t = (q, r) ∧ q.scanner.Clean ∧
    (p.later n).look t = (q.later n, r.map fun a => { a with token := a.token.map (.later n) }) := by
  rcases ha : p.ahead with _ | a
  · obtain ⟨result, s, hnext, hs, hlater⟩ := h.next n
    simp only [look, ha, hnext, show (p.later n).ahead = none by simp [later, ha],
      show (p.later n).scanner = p.scanner.later n from rfl, hlater]
    rcases result with e | _ | token <;> exact ⟨_, _, rfl, hs, rfl⟩
  · simp only [look, ha, show (p.later n).ahead = some { a with token := a.token.map (.later n) } by
      simp [later, ha]]
    exact ⟨_, _, rfl, h, rfl⟩

/-- From `n` lines on, parsing takes the same step. -/
theorem advance_later (h : p.scanner.Clean) :
    Later n (p.advance d t) ((p.later n).advance d t) := by
  rw [advance, advance, show (p.later n).state = p.state from rfl]
  split
  · exact reduce_later h _
  obtain ⟨q, r, hlook, hq, hlater⟩ := look_later (t := t) (n := n) h
  rw [hlook, hlater]
  rcases r with e | a
  · exact .failed q (.inl rfl)
  dsimp only [Except.map]
  rw [show (q.later n).state = q.state from rfl]
  rcases t.action? q.state a.code with _ | action
  · rcases a with ⟨code, _ | token⟩
    · exact .failed q (.inl rfl)
    · exact .failed q (.inr ⟨_, _, rfl, rfl⟩)
  cases action with
  | shift target =>
    have hvalue : (a.token.map (Token.later n)).map (·.value) = a.token.map (·.value) := by
      cases a.token <;> rfl
    dsimp only
    rw [hvalue]
    exact .more hq
  | reduce rule => exact reduce_later hq rule
  | accept => exact .accepted q
  | refuse =>
    rcases a with ⟨code, _ | token⟩
    · exact .failed q (.inl rfl)
    · exact .failed q (.inr ⟨_, _, rfl, rfl⟩)

theorem advances_later (h : p.scanner.Clean) : ∀ k, ∃ f, Option.Rel (CompileFault.Moved n)
    (p.advances d t k).2 f ∧ (p.later n).advances d t k = ((p.advances d t k).1.later n, f) := by
  intro k
  induction k generalizing p with
  | zero => exact ⟨_, .some (.inl rfl), rfl⟩
  | succ k ih =>
    have hstep := advance_later (d := d) (t := t) (n := n) h
    rw [advances, advances]
    generalize p.advance d t = x at hstep ⊢
    generalize (p.later n).advance d t = y at hstep ⊢
    cases hstep with
    | more hq => exact ih hq
    | accepted q => exact ⟨none, .none, rfl⟩
    | failed q hf => exact ⟨_, .some hf, rfl⟩

end Parsing

theorem compile_later (h : s.Clean) (c : Compiler) : ∃ f, Option.Rel (CompileFault.Moved n)
    (compile s c).2 f ∧ compile (s.later n) c = ((compile s c).1.later n, f) :=
  Parsing.advances_later (p := .start s c) h _

/-- Everything after the list of tokens does not depend on the list. -/
theorem Session.compileAndRun_later (x : Session)
    (h : (Scanner.ofSource x.dialect 1 x.source).Clean) (lines : List String) (n : Nat) :
    ∃ fault, Option.Rel (SessionFault.Moved n) (x.compileAndRun [] 1).fault fault ∧
      x.compileAndRun lines (1 + n) = { x.compileAndRun [] 1 with
        fault, printed := (x.compileAndRun [] 1).printed ++ lines } := by
  obtain ⟨f, hmoved, hlater⟩ := compile_later (n := n) h (.start x.debugCompiler x.objectName)
  rw [show Scanner.later n _ = Scanner.ofSource x.dialect (1 + n) x.source from rfl] at hlater
  rcases hcompile : compile (.ofSource x.dialect 1 x.source) (.start x.debugCompiler x.objectName)
    with ⟨p, _ | f₀⟩ <;> rw [hcompile] at hmoved hlater <;> simp only [compileAndRun, hcompile, hlater]
  · cases hmoved
    rcases hrun : runObject x.debugMachine (Text.newlines (p.compiler.object.getD "")) x.input
      with ⟨more, fault, machine⟩
    by_cases hc : x.compileOnly = true
    · exact ⟨none, by simp only [hc, if_true]; exact .none, by simp [hc, Parsing.later]⟩
    · refine ⟨fault, ?_, by simp [hc, hrun, Parsing.later]⟩
      simp only [hc]
      cases fault with
      | none => exact .none
      | some f => exact .some (.inl rfl)
  · cases hmoved with
    | @some _ f hf =>
      refine ⟨some (.compile f), .some ?_, by simp [Parsing.later]⟩
      rcases hf with rfl | ⟨line, value, rfl, rfl⟩
      · exact .inl rfl
      · exact .inr ⟨_, _, rfl, rfl⟩

/-- The list of the tokens of a source without illegal characters changes nothing in what a session does
after it but the line of a bad token, which is counted from the end of the list on. -/
theorem Session.run_listed (s : Session)
    (hclean : ∀ p ∈ s.dialect.pieces s.source.toList, p.cls ≠ .illegal)
    (hread : Dialect.Readable (s.dialect.pieces s.source.toList)) {o : Outcome}
    (ho : run { s with listTokens := false } = o) :
    ∃ fault, Option.Rel (SessionFault.Moved (s.source.toList.count '\n')) o.fault fault ∧
      run { s with listTokens := true } = { o with fault, printed := o.printed ++
        ((Scanner.ofSource s.dialect 1 s.source).all.2.1.map fun t => t.shown ++ "\n").reverse } := by
  have hstart : (Scanner.ofSource s.dialect 1 s.source).Clean := hclean
  obtain ⟨reports, tokens, hall⟩ := Scanner.exists_all_ofSource s.dialect s.source hread
  have hlisting : (Scanner.ofSource s.dialect 1 s.source).listing = _ := hstart.listUpTo _
  rw [← Scanner.all, hall] at hlisting
  have hwith : ∀ (b : Bool) lines line,
      compileAndRun { s with listTokens := b } lines line = s.compileAndRun lines line := by
    intro b lines line
    simp only [compileAndRun]
  rw [run, if_neg Bool.false_ne_true, hwith] at ho
  rw [run, if_pos rfl, hlisting, hall, ← ho]
  dsimp only
  rw [hwith true]
  exact s.compileAndRun_later hstart _ _

/-- A source with a token in its second line that fits nowhere. -/
def Session.misplaced (listTokens : Bool) : Session where
  dialect := .plain
  source := "Program p;\nx\n"
  input := ""
  listTokens := listTokens
  debugCompiler := false
  debugMachine := false
  compileOnly := false
  objectName := "p.o"

/-- With the list of its tokens first, the line of the token is counted two lines on. -/
theorem Session.run_listed_misplaced :
    (∀ p ∈ Dialect.plain.pieces "Program p;\nx\n".toList, p.cls ≠ .illegal) ∧
    Dialect.Readable (Dialect.plain.pieces "Program p;\nx\n".toList) ∧
    Option.Rel (SessionFault.Moved 2) (run (misplaced false)).fault (run (misplaced true)).fault := by
  have hclean : ∀ p ∈ Dialect.plain.pieces "Program p;\nx\n".toList, p.cls ≠ .illegal := by
    decide +kernel
  have hread : Dialect.Readable (Dialect.plain.pieces "Program p;\nx\n".toList) := by decide +kernel
  have hcount : (misplaced true).source.toList.count '\n' = 2 := by decide +kernel
  obtain ⟨fault, hmoved, hrun⟩ := run_listed (misplaced true) hclean hread rfl
  rw [hcount] at hmoved
  refine ⟨hclean, hread, ?_⟩
  rw [show run (misplaced true) = _ from hrun]
  exact hmoved

end QuadLang
