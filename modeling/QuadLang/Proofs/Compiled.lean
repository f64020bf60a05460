/-
The states of a compilation.

What is compiled has a derivation, and the compiler is led by its steps.  Here is what to say
about all states that the compiler can be in.

* `Compiled` — the state at the end of a program that is accepted;
* `Reached` — every state on the way, on any source, the one where a compilation stops included;
* `Invariant.reached` — what every step of the grammar keeps holds in all of them.

Design notes: a step gets the values of the symbols of its rule, and these are not arbitrary:
`Values` says which ones a symbol can have, namely those that some phrase of it gives.  Besides
the states of the parser both notions have those that are led to by derivations alone, of which
the former are a part.
-/
import QuadLang.Proofs.Scanned

namespace QuadLang

open Phrase Lalr Dialect

variable {c : Compiler} {leaves : List (String × Literal)} {d : Dialect}
/-- The compiler stands in `c` at the end of an accepted program with the given tokens, kinds
with values: after parsing a source, or after the steps of a derivation of tokens such as sources
have. -/
inductive Compiled (d : Dialect) : List (String × Literal) → Compiler → Prop
  | parsed {line : Nat} {source objectName : String} {debug : Bool} {p : Parsing}
      (h : compile (.ofSource d line source) (.start debug objectName) = (p, none)) :
      Compiled d ((Scanner.ofSource d line source).all.2.1.map fun t => (t.kind, t.value)) p.compiler
  | derived {P : Phrase} {objectName : String} {debug : Bool} {v : Option Literal} {c : Compiler}
      (h : Derives d P) (hs : P.symbol = "program")
      (hscan : Scanned (P.yield.map fun x => (Spelling.kindOf x.1, x.2)))
      (hP : P.Compiles none (.start debug objectName) v c) :
      Compiled d (P.yield.map fun x => (Spelling.kindOf x.1, x.2)) c

/-- An accepted program has a derivation, and its steps lead to the final state. -/
theorem Compiled.exists_phrase (h : Compiled d leaves c) :
    ∃ P debug objectName v c₁, Derives d P ∧ P.symbol = "program" ∧
      P.Compiles none (.start debug objectName) v c₁ ∧ c₁.Reports c ∧
      P.yield.map (fun x => (Spelling.kindOf x.1, x.2)) = leaves := by
  cases h with
  | @parsed line source objectName debug p h =>
    obtain ⟨P, v, c₁, hP, hs, hsteps, hreports, hyield⟩ :=
      compile_derives (Scanner.tidy_ofSource d line source) h
    exact ⟨P, debug, objectName, v, c₁, hP, hs, hsteps, hreports, hyield⟩
  | @derived P objectName debug v c h hs _ hP =>
    exact ⟨P, debug, objectName, v, c, h, hs, hP, .refl c, rfl⟩

theorem Compiled.scanned (h : Compiled d leaves c) : Scanned leaves := by
  cases h with
  | @parsed line source objectName debug p h => exact Scanner.scanned_ofSource d line source
  | derived h hs hscan hP => exact hscan

/-! ### Derivations that are given -/

namespace Phrase

mutual

/-- What `run` does leads along the steps of a phrase. -/
theorem compiles_of_run : ∀ (P : Phrase) {before v : Option Literal} {c c' : Compiler},
    (P.run before).run c = (.ok v, c') → P.Compiles before c v c'
  | .token _ _, _, _, _, _, h => by
    cases h
    exact ⟨rfl, .refl _⟩
  | .node _ parts, _, _, _, _, h => by
    rw [run_node] at h
    obtain ⟨args, c₁, hparts, hstep⟩ := Steps.bind_eq_ok h
    exact compiles_node.mpr ⟨args, c₁, compilesAll_of_runAll parts hparts, hstep⟩

theorem compilesAll_of_runAll : ∀ (ps : List Phrase) {before : Option Literal} {c c' : Compiler}
    {args : List (Option Literal)}, (runAll before ps).run c = (.ok args, c') →
      CompilesAll before ps c args c'
  | [], _, _, _, _, h => by
    cases h
    exact ⟨rfl, .refl _⟩
  | p :: ps, _, _, _, _, h => by
    rw [runAll_cons] at h
    obtain ⟨v, c₁, hp, h₁⟩ := Steps.bind_eq_ok h
    obtain ⟨rest, c₂, hps, h₂⟩ := Steps.bind_eq_ok h₁
    cases h₂
    exact compilesAll_cons.mpr ⟨v, c₁, rest, compiles_of_run p hp, compilesAll_of_runAll ps hps, rfl⟩

end

mutual

/-- Whether a phrase is a derivation. -/
def derives? (d : Dialect) : Phrase → Bool
  | .token s _ => d.rules.all fun r => r.name != s
  | .node rule parts =>
    d.rules.contains rule && decide (parts.map symbol = rule.symbols) && derivesAll? d parts

/-- Whether phrases are derivations. -/
def derivesAll? (d : Dialect) : List Phrase → Bool
  | [] => true
  | p :: ps => p.derives? d && derivesAll? d ps

end

mutual

theorem derives_of_derives? {d : Dialect} : ∀ (P : Phrase), P.derives? d = true → Derives d P
  | .token s v, h => by
    rw [derives?, List.all_eq_true] at h
    exact .token v fun r hr => bne_iff_ne.mp (h r hr)
  | .node rule parts, h => by
    rw [derives?, Bool.and_eq_true, Bool.and_eq_true, List.contains_iff_mem, decide_eq_true_eq] at h
    exact .node h.1.1 h.1.2 (derives_of_derivesAll? parts h.2)

theorem derives_of_derivesAll? {d : Dialect} : ∀ (ps : List Phrase), derivesAll? d ps = true →
    ∀ p ∈ ps, Derives d p
  | [], _ => fun _ hp => absurd hp List.not_mem_nil
  | p :: ps, h => by
    rw [derivesAll?, Bool.and_eq_true] at h
    intro q hq
    rcases List.mem_cons.mp hq with hq | hq
    · rw [hq]
      exact derives_of_derives? p h.1
    · exact derives_of_derivesAll? ps h.2 q hq

end

/-- The phrase of a symbol with the given parts, by the first rule that fits. -/
def ofParts (d : Dialect) (name : String) (parts : List Phrase) : Phrase :=
  match d.rules.find? fun r => r.name == name && r.symbols == parts.map symbol with
  | some rule => .node rule parts
  | none => .node ⟨name, parts.map symbol, .skip⟩ parts

end Phrase

/-- A derivation whose steps go through is accepted. -/
theorem Compiled.of_run {P : Phrase} (debug : Bool) (objectName : String) (h : Derives d P)
    (hs : P.symbol = "program") (hscan : Scanned (P.yield.map fun x => (Spelling.kindOf x.1, x.2)))
    (hok : ((P.run none).run (.start debug objectName)).1.isOk = true) :
    ∃ c, Compiled d (P.yield.map fun x => (Spelling.kindOf x.1, x.2)) c := by
  rcases hrun : (P.run none).run (.start debug objectName) with ⟨e | v, c⟩
  · rw [hrun] at hok
    cases hok
  · exact ⟨c, .derived h hs hscan (compiles_of_run P hrun)⟩

/-- One shift or reduction after the other leads from `p` to another place of the parser. -/
inductive Parsing.Visits (d : Dialect) (p : Parsing) : Parsing → Prop
  | start : Visits d p p
  | more {q q' : Parsing} (h : Visits d p q) (hstep : q.advance d d.tables = .more q') :
      Visits d p q'

/-- The parser before a source. -/
def Parsing.before (d : Dialect) (line : Nat) (source objectName : String) (debug : Bool) : Parsing :=
  .start (.ofSource d line source) (.start debug objectName)

/-- The compiler can stand in `c`: between two steps of the parser, where it stops or accepts,
or after the steps of phrases. -/
inductive Reached (d : Dialect) : Compiler → Prop
  | visited {line : Nat} {source objectName : String} {debug : Bool} {p : Parsing}
      (h : (Parsing.before d line source objectName debug).Visits d p) : Reached d p.compiler
  | stopped {line : Nat} {source objectName : String} {debug : Bool} {p q : Parsing}
      {fault : CompileFault} (h : (Parsing.before d line source objectName debug).Visits d p)
      (hstop : p.advance d d.tables = .failed q fault) : Reached d q.compiler
  | accepted {line : Nat} {source objectName : String} {debug : Bool} {p q : Parsing}
      (h : (Parsing.before d line source objectName debug).Visits d p)
      (hstop : p.advance d d.tables = .accepted q) : Reached d q.compiler
  | derived {ps : List Phrase} {objectName : String} {debug : Bool} {values : List (Option Literal)}
      {c : Compiler} (h : ∀ P ∈ ps, Derives d P)
      (hsteps : CompilesAll none ps (.start debug objectName) values c) : Reached d c

theorem Parsing.Visits.advances {p₀ p q : Parsing} {n : Nat} (h : p₀.Visits d p)
    (hq : p.advances d d.tables n = (q, none)) :
    ∃ p', p₀.Visits d p' ∧ p'.advance d d.tables = .accepted q := by
  induction n generalizing p with
  | zero => cases hq
  | succ n ih =>
    rw [Parsing.advances] at hq
    rcases hstep : p.advance d d.tables with p' | p' | ⟨p', fault⟩ <;> rw [hstep] at hq
    · exact ih (.more h hstep) hq
    · cases hq
      exact ⟨p, h, hstep⟩
    · cases hq

/-- The end of an accepted program is one of the states. -/
theorem Compiled.reached (h : Compiled d leaves c) : Reached d c := by
  cases h with
  | @parsed line source objectName debug p h =>
    have hstart : (Parsing.before d line source objectName debug).Visits d
        (.before d line source objectName debug) := .start
    obtain ⟨p', hvisits, hlast⟩ := hstart.advances h
    exact .accepted hvisits hlast
  | @derived P objectName debug v c h hs _ hP =>
    refine Reached.derived (fun Q hQ => ?_) (compilesAll_singleton hP)
    rw [List.mem_singleton.mp hQ]
    exact h

/-! ### The values of symbols -/

/-- `v` is the value of a phrase of the symbol `s`. -/
def Values (d : Dialect) (s : String) (v : Option Literal) : Prop :=
  ∃ P before c c', Derives d P ∧ P.symbol = s ∧ P.Compiles before c v c'

theorem Phrase.CompilesAll.values {ps : List Phrase} {before : Option Literal} {c' : Compiler}
    {args : List (Option Literal)} (hps : ∀ p ∈ ps, Derives d p)
    (h : CompilesAll before ps c args c') : List.Forall₂ (Values d) (ps.map symbol) args := by
  induction ps generalizing before c args with
  | nil =>
    rw [h.1]
    exact .nil
  | cons p ps ih =>
    obtain ⟨v, c₁, rest, hp, hrest, rfl⟩ := compilesAll_cons.mp h
    refine .cons ⟨p, before, c, c₁, hps p List.mem_cons_self, rfl, hp⟩ ?_
    exact ih (fun q hq => hps q (List.mem_cons_of_mem p hq)) hrest

/-! ### Invariants -/

/-- Every step of the grammar keeps `I`, whether it goes through or stops. -/
structure Invariant (d : Dialect) (I : Compiler → Prop) : Prop where
  start : ∀ debug objectName, I (.start debug objectName)
  reports : ∀ {c c'}, c.Reports c' → I c → I c'
  step : ∀ rule ∈ d.rules, ∀ before args, List.Forall₂ (Values d) rule.symbols args →
    ∀ c, I c → I ((Compile.perform before args rule.step).run c).2

namespace Invariant

variable {d : Dialect} {I : Compiler → Prop} {t : Tables} {fault : CompileFault}

/-- What the steps keep is kept by phrases one after the other. -/
theorem compilesAll_of (hI : Invariant d I) {ps : List Phrase} {before : Option Literal}
    {c' : Compiler} {args : List (Option Literal)}
    (hps : ∀ p ∈ ps, ∀ {before v c c'}, p.Compiles before c v c' → I c → I c')
    (h : CompilesAll before ps c args c') (hc : I c) : I c' := by
  induction ps generalizing before c args with
  | nil => exact hI.reports h.2 hc
  | cons p ps ih =>
    obtain ⟨v, c₁, rest, hp, hrest, -⟩ := compilesAll_cons.mp h
    exact ih (fun q hq => hps q (List.mem_cons_of_mem p hq)) hrest (hps p List.mem_cons_self hp hc)

theorem compiles (hI : Invariant d I) {P : Phrase} (h : Derives d P) : ∀ {before v c c'},
    P.Compiles before c v c' → I c → I c' := by
  induction h with
  | token v hs => exact fun hP hc => hI.reports hP.2 hc
  | @node rule parts hrule hsymbols hparts ih =>
    intro before v c c' hP hc
    obtain ⟨args, c₁, hall, hrun⟩ := compiles_node.mp hP
    have hstep := hI.step rule hrule before args (hsymbols ▸ hall.values hparts) c₁
      (hI.compilesAll_of ih hall hc)
    rwa [hrun] at hstep

theorem compilesAll (hI : Invariant d I) {ps : List Phrase} (h : ∀ p ∈ ps, Derives d p)
    {before : Option Literal} {c' : Compiler} {args : List (Option Literal)}
    (hps : CompilesAll before ps c args c') (hc : I c) : I c' :=
  hI.compilesAll_of (fun p hp => hI.compiles (h p hp)) hps hc

variable {g : Lalr.Rules} {scanner : Scanner} {debug : Bool} {objectName : String} {ps : List Phrase}
  {tokens : List Token} {p q : Parsing}

open Parsing in
theorem follows (hI : Invariant d I) (h : Follows d g scanner (.start debug objectName) ps tokens p) :
    I p.compiler := by
  obtain ⟨values, hsteps, -⟩ := h.steps
  exact hI.compilesAll h.derives hsteps (hI.start debug objectName)

/-- A look at the next token changes nothing but what is printed. -/
theorem look (hI : Invariant d I) {r : Except CompileFault Ahead} (h : p.look t = (q, r))
    (hp : I p.compiler) : I q.compiler := by
  rw [Parsing.look] at h
  rcases hahead : p.ahead with _ | a
  · simp only [hahead] at h
    rcases hnext : p.scanner.next with ⟨reports, e | _ | token, s'⟩ <;> rw [hnext] at h <;> cases h <;>
      exact hI.reports ⟨_, rfl⟩ hp
  · simp only [hahead] at h
    cases h
    exact hp

open Parsing in
/-- A reduction that stops has done a step of the grammar. -/
theorem reduce_failed (hI : Invariant d I) (hc : Codes d g)
    (h : Follows d g scanner (.start debug objectName) ps tokens p) {r s : Nat} {st : State}
    (hst : (Tables.build g).states[p.state]? = some st) (hr : Justified g st s (.reduce r))
    (hstop : p.reduce d (.build g) r = .failed q fault) : I q.compiler := by
  obtain ⟨n, rule, ps₁, ps₂, values₁, values₂, c₁, rfl, hrule, rfl, hsymbols, hsteps₁, hsteps₂, hright,
    hstep, hargs, hdrop⟩ := h.parts hc hst hr
  have hvalues := hsteps₂.values fun P hP => h.derives P (List.mem_append_right _ hP)
  rw [Parsing.reduce] at hstop
  simp only [hright, hargs, hstep] at hstop
  generalize (Option.map _ _).join = before at hstop
  have hkeeps := hI.step rule (List.mem_of_getElem? hrule) before values₂ (hsymbols ▸ hvalues)
    p.compiler (hI.follows h)
  -- the state that is left is that after the step, in both ways to stop
  rcases hrun : (Compile.perform before values₂ rule.step).run p.compiler with ⟨e | value, compiler⟩ <;>
    rw [hrun] at hstop hkeeps <;> dsimp only at hstop
  · cases hstop
    exact hkeeps
  · split at hstop
    · cases hstop
    · cases hstop
      exact hkeeps

open Parsing in
/-- Where the parser stops, the invariant holds as well. -/
theorem advance_failed (hI : Invariant d I) (hc : Codes d g)
    (h : Follows d g scanner (.start debug objectName) ps tokens p)
    (hstop : p.advance d (.build g) = .failed q fault) : I q.compiler := by
  rw [Parsing.advance] at hstop
  rcases hdefault : (Tables.build g).defaulted? p.state with _ | r
  · rw [hdefault] at hstop
    dsimp only at hstop
    rcases hlook : p.look (Tables.build g) with ⟨p', e | a⟩
    · rw [hlook] at hstop
      cases hstop
      exact hI.look hlook (hI.follows h)
    · rw [hlook] at hstop
      dsimp only at hstop
      obtain ⟨hp', -, -⟩ := h.look (Tables.rules_build g) hlook
      rcases haction : (Tables.build g).action? p'.state a.code with _ | action
      · rw [haction] at hstop
        cases hstop
        exact hI.follows hp'
      rw [haction] at hstop
      cases action with
      | shift target => cases hstop
      | accept => cases hstop
      | refuse =>
        cases hstop
        exact hI.follows hp'
      | reduce r =>
        obtain ⟨st, hst, hj⟩ := Tables.justified_of_action? haction
        exact hI.reduce_failed hc hp' hst hj hstop
  · rw [hdefault] at hstop
    obtain ⟨st, s, hst, hj⟩ := Tables.justified_of_defaulted? hdefault
    exact hI.reduce_failed hc h hst hj hstop

/-- Without coded rules the parser stops at once. -/
theorem advance_of_no_rows (ht : t.rows = #[]) (p : Parsing) :
    ∃ q r fault, p.look t = (q, r) ∧ p.advance d t = .failed q fault := by
  have hdefault : t.defaulted? p.state = none := by simp [Tables.defaulted?, ht]
  have haction : ∀ s k, t.action? s k = none := by simp [Tables.action?, ht]
  rw [Parsing.advance, hdefault]
  dsimp only
  rcases hlook : p.look t with ⟨q, e | a⟩
  · exact ⟨q, _, e, rfl, rfl⟩
  · dsimp only
    rw [haction]
    exact ⟨q, _, _, rfl, rfl⟩

end Invariant

/-- There are phrases for every place of the parser. -/
theorem Parsing.Visits.follows {g : Rules} (hg : d.coded = some g) {line : Nat}
    {source objectName : String} {debug : Bool} {p : Parsing}
    (h : (Parsing.before d line source objectName debug).Visits d p) :
    ∃ ps tokens, Follows d g (.ofSource d line source) (.start debug objectName) ps tokens p := by
  have htables : d.tables = .build g := by rw [tables_eq, makeTables, hg]
  induction h with
  | start => exact ⟨[], [], follows_start rfl (Scanner.tidy_ofSource d line source) _⟩
  | more h hstep ih =>
    obtain ⟨ps, tokens, hp⟩ := ih
    rw [htables] at hstep
    exact (hp.advance (codes hg)).1 _ hstep

/-- What every step of the grammar keeps holds in all states of the compiler. -/
theorem Invariant.reached {I : Compiler → Prop} (hI : Invariant d I) (h : Reached d c) : I c := by
  rcases hg : d.coded with _ | g
  · -- then there are no tables: the parser never leaves its first place
    have htables : d.tables.rows = #[] := by rw [tables_eq, makeTables, hg]
    have hfirst : ∀ {line source objectName debug p},
        (Parsing.before d line source objectName debug).Visits d p → I p.compiler := by
      intro line source objectName debug p hp
      cases hp with
      | start => exact hI.start debug objectName
      | more h hstep =>
        obtain ⟨q, r, fault, -, hfail⟩ := advance_of_no_rows (d := d) htables _
        rw [hfail] at hstep
        cases hstep
    cases h with
    | visited h => exact hfirst h
    | stopped h hstop =>
      obtain ⟨q, r, fault, hlook, hfail⟩ := advance_of_no_rows (d := d) htables _
      rw [hfail] at hstop
      cases hstop
      exact hI.look hlook (hfirst h)
    | accepted h hstop =>
      obtain ⟨q, r, fault, -, hfail⟩ := advance_of_no_rows (d := d) htables _
      rw [hfail] at hstop
      cases hstop
    | derived h hsteps => exact hI.compilesAll h hsteps (hI.start _ _)
  · have htables : d.tables = .build g := by rw [tables_eq, makeTables, hg]
    cases h with
    | visited h =>
      obtain ⟨ps, tokens, hp⟩ := h.follows hg
      exact hI.follows hp
    | stopped h hstop =>
      obtain ⟨ps, tokens, hp⟩ := h.follows hg
      rw [htables] at hstop
      exact hI.advance_failed (codes hg) hp hstop
    | accepted h hstop =>
      obtain ⟨ps, tokens, hp⟩ := h.follows hg
      rw [htables] at hstop
      obtain ⟨P, v, c₁, hP, -, hsteps, hreports, -⟩ := (hp.advance (codes hg)).2 _ hstop
      exact hI.reports hreports (hI.compiles hP hsteps (hI.start _ _))
    | derived h hsteps => exact hI.compilesAll h hsteps (hI.start _ _)

/-! ### A program

A loop that is left by a `break`, with a call in its condition and a function to be called. -/

namespace Phrase

/-- A phrase of the plain dialect. -/
def plain (name : String) (parts : List Phrase) : Phrase := ofParts .plain name parts

/-- Words and marks of the language, each the text of its kind. -/
def sign (kind text : String) : Phrase := .token kind (.text text)

/-- A phrase of the plain dialect that derives the empty text. -/
def stop (name : String) : Phrase := plain name [empty]

/-- The operands of a comparison. -/
def operand (atom : Phrase) : Phrase :=
  plain "expr_arith" [plain "expr_factor" [
    plain "expr_mono" [plain "expr_atom" [atom], stop "expr_mono_op"],
    stop "found_expr_factor", stop "expr_factor2"], stop "found_expr_arith", stop "expr_arith2"]

/-- An expression with at most one comparison. -/
def comparison (left rest : Phrase) : Phrase :=
  plain "expr" [plain "expr_logic" [
    plain "expr_compare" [operand left, stop "found_expr_compare", rest],
    stop "found_expr_logic", stop "expr_logic2"]]

/-- The body with one statement. -/
def block (statement : Phrase) : Phrase :=
  plain "body" [sign "'\x7b'" "\x7b",
    plain "statements" [plain "statement" [statement], stop "statements"], sign "'\x7d'" "\x7d"]

/-- An expression in parentheses after a word. -/
def bracketed (inner : Phrase) : List Phrase := [sign "'('" "(", inner, sign "')'" ")"]

/-- `function int f(int n) { return(n); }` -/
def identity : Phrase :=
  plain "functions" ([sign "FUNCTION" "function",
    plain "func_type" [plain "type" [sign "INT" "int"]], sign "ID" "f", stop "found_func_name",
    stop "func_dims"] ++
    bracketed (plain "func_params" [plain "func_param" [plain "type" [sign "INT" "int"],
      sign "ID" "n", stop "found_func_param", stop "param_dims"]]) ++
    [stop "vars", stop "found_func_start",
    block (plain "return" ([sign "RETURN" "return"] ++
      bracketed (comparison (.ofVariable "n") (stop "expr_compare2")) ++ [sign "';'" ";"])),
    stop "found_func_end", stop "functions"])

/-- `f(1) == 1` -/
def called : Phrase :=
  comparison
    (plain "expr_call_func" ([sign "ID" "f", stop "found_call_func_name"] ++
      bracketed (plain "call_func_params" [plain "call_func_param" [
        comparison (.ofConstant "CTE_INT" (.int 1)) (stop "expr_compare2"),
        stop "func_single_step"]]) ++
      [stop "found_call_func_end"]))
    (plain "expr_compare2" [sign "IS_EQUAL" "==", stop "found_expr_duo_op",
      plain "expr_compare" [operand (.ofConstant "CTE_INT" (.int 1)), stop "found_expr_compare",
        stop "expr_compare2"]])

/-- `if (f(1) == 1) then { break; } else { print("no"); }` -/
def choice : Phrase :=
  plain "if" ([sign "IF" "if"] ++ bracketed called ++ [stop "found_if_expr", sign "THEN" "then",
    block (plain "break" [sign "BREAK" "break", sign "';'" ";"]),
    plain "else" [sign "ELSE" "else", stop "found_else",
      block (plain "print" ([sign "PRINT" "print"] ++
        bracketed (plain "print_params" [plain "print_param" [sign "STRING" "\"no\""]]) ++
        [sign "';'" ";"]))]])

/-- `Program p; var int x[2]; … main() { while (true) do { … } }` -/
def loopedCall : Phrase :=
  plain "program" [sign "PROGRAM" "Program", sign "ID" "p", stop "found_program_name", sign "';'" ";",
    plain "vars" [sign "VAR" "var", stop "found_var", plain "var_declare" [
      plain "type" [sign "INT" "int"],
      plain "var_name" [plain "variable_declare" [sign "ID" "x"], plain "var_dims" [
        plain "dim" [sign "'['" "[", .token "CTE_INT" (.int 2), sign "']'" "]"]]], sign "';'" ";"]],
    identity,
    plain "main" [sign "MAIN" "main", sign "'('" "(", sign "')'" ")"],
    block (plain "while" ([sign "WHILE" "while", stop "found_while"] ++
      bracketed (comparison (.ofConstant "CTE_BOOL" (.truth true)) (stop "expr_compare2")) ++
      [stop "found_while_expr", sign "DO" "do", block choice]))]

theorem derives_loopedCall : Derives .plain loopedCall :=
  derives_of_derives? _ (by decide +kernel)

theorem symbol_loopedCall : loopedCall.symbol = "program" := by decide +kernel

end Phrase

/-- The program is accepted. -/
theorem exists_compiled_loopedCall : ∃ c, Compiled .plain
    (loopedCall.yield.map fun x => (Spelling.kindOf x.1, x.2)) c :=
  Compiled.of_run false "" derives_loopedCall symbol_loopedCall (scanned_of_all (by decide +kernel))
    (by decide +kernel)

end QuadLang
