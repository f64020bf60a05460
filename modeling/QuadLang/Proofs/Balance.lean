/-
Balanced stacks.

Whatever a program is made of, the stacks of the compiler are used in a balanced way: no step finds a stack
empty, an expression leaves one operand, a statement leaves the stacks as they were, and nothing is left
at the end of a function but the jump to the main part.

* `Exchange.ofSymbol` — what a phrase of a symbol does to the stacks, and `Exchange.fits_eq_true`, that all
  rules agree with it;
* `Phrase.Reaches` — the steps of a phrase come to the beginning of a part, in some state;
* `Phrase.Derives.acts`, `Phrase.Reaches.exists_exchange` — every phrase does what its symbol is said to do;
* `Phrase.Balanced`, `stacks_balanced` — the balance of all programs.

Design notes: the rules are checked at once, on numbers in the place of names.  The words of tokens matter, since
the level of an operator decides when it is worked off.
-/
import QuadLang.Proofs.Exchanges

namespace QuadLang

variable {args : List (Option Literal)} {c' : Compiler} {e : Exchange} {parts : List Phrase}
  {rule : DialectRule} {rest : List String} {word : Option Nat} {l : Nat} {σ : Profile}

/-! ### Words -/

/-- The symbols that stand for operators and marks, with their words. -/
def symbolWords : List (String × String) :=
  [("'='", "="), ("'('", "("), ("'&'", "&"), ("'|'", "|"), ("IS_EQUAL", "=="), ("IS_NOT_EQUAL", "!="), ("'<'", "<"),
   ("LESS_THAN_OR_EQUAL", "<="), ("'>'", ">"), ("MORE_THAN_OR_EQUAL", ">="), ("'+'", "+"), ("'-'", "-"), ("'*'", "*"),
   ("'/'", "/"), ("'%'", "%"), ("'.'", "."), ("found_assignment_op", "="), ("found_expr_group", "("), ("and_op", "&"),
   ("or_op", "|"), ("eq_op", "=="), ("noeq_op", "!="), ("less_op", "<"), ("lesseq_op", "<="), ("more_op", ">"),
   ("moreeq_op", ">="), ("plus_op", "+"), ("minus_op", "-"), ("mul_op", "*"), ("div_op", "/"), ("mod_op", "%"),
   ("dot_op", ".")]

namespace Exchange

open Profile Text

variable {s : String}

/-- Work on an expression of a level: after an operator of this level, or from the beginning. -/
def level (l : Nat) : List Exchange :=
  [⟨none, { bare with operands := 1, operators := [l], floor := l - 1 }, { bare with operands := 1, floor := l - 1 }⟩,
   ⟨none, { bare with floor := l - 1 }, { bare with operands := 1, floor := l - 1 }⟩]

/-- One operand stays one operand. -/
def same : Exchange := ⟨none, { bare with operands := 1 }, { bare with operands := 1 }⟩

/-- One operand more. -/
def value : Exchange := ⟨none, bare, { bare with operands := 1 }⟩

/-- What a statement does: no operators are below, and breaks may be added. -/
def statement : Exchange := ⟨none, { bare with floor := 0 }, { bare with floor := 0, still := false }⟩

/-- What a definition of a function does: only the jump to the main part is there. -/
def definition : Exchange :=
  ⟨none, { bare with jumps := [.main], floor := 0, whole := true },
    { bare with jumps := [.main], floor := 0, whole := true, still := false }⟩

/-- What the phrases of symbols do to the stacks. -/
def table : List (List String × List Exchange) :=
  [(["program"], [⟨none, { bare with floor := 0, whole := true },
      { bare with floor := 0, whole := true, still := false }⟩]),
   (["functions", "found_func_end"], [definition]),
   (["found_program_name"], Step.exchanges .begin),
   (["main"], Step.exchanges .beginMain),
   (["vars", "found_var", "var_declare", "var_name", "variable_declare", "var_dims", "found_func_name", "func_dims",
      "func_params", "func_param", "found_func_param", "param_dims", "found_func_start"], [stir]),
   (["body", "statements", "statement", "assignment", "call_func", "return", "read", "read_params", "print",
      "print_params", "print_param", "if", "from", "while", "break"], [statement]),
   (["else"], [⟨none, { bare with jumps := [.forth], floor := 0 },
      { bare with jumps := [.forth], floor := 0, still := false }⟩]),
   (["found_else"], Step.exchanges .orElse),
   (["found_if_expr", "found_while_expr"], Step.exchanges .jumpIfFalse),
   (["found_from_iterator"], Step.exchanges .iterator),
   (["found_from_start"], Step.exchanges .loopStart),
   (["found_from_cond"], Step.exchanges .loopBound),
   (["found_while"], Step.exchanges .beginLoop),
   (["found_assignment_end"], Step.exchanges .assign),
   (["found_read_param"], Step.exchanges .read),
   (["expr"], [⟨none, { bare with floor := 0 }, { bare with operands := 1, floor := 0 }⟩]),
   (["expr_logic"], level 1),
   (["expr_compare"], level 2),
   (["expr_arith"], level 3),
   (["expr_factor"], level 4),
   (["found_expr_logic"], [work 1, idle 1]),
   (["found_expr_compare"], [work 2, idle 2]),
   (["found_expr_arith"], [work 3, idle 3]),
   (["found_expr_factor"], [work 4, idle 4]),
   (["expr_logic2"], [⟨none, { bare with operands := 1, floor := 0 }, { bare with operands := 1, floor := 0 }⟩]),
   (["expr_compare2"], [⟨none, { bare with operands := 1, floor := 1 }, { bare with operands := 1, floor := 1 }⟩]),
   (["expr_arith2"], [⟨none, { bare with operands := 1, floor := 2 }, { bare with operands := 1, floor := 2 }⟩]),
   (["expr_factor2"], [⟨none, { bare with operands := 1, floor := 3 }, { bare with operands := 1, floor := 3 }⟩]),
   (["found_expr_duo_op"], Step.exchanges .pushOperator),
   (["expr_mono_op", "found_expr_mono_op", "expr_var_dims"], [same]),
   (["expr_mono", "expr_atom", "expr_group", "expr_var", "expr_var_name", "expr_call_func"], [value]),
   (["found_expr_var_dims"], Step.exchanges .beginAccess),
   (["expr_var_dim"], [⟨none, { bare with accesses := [0] }, { bare with operands := 1, accesses := [1] }⟩,
      ⟨none, { bare with operands := 1, accesses := [1] }, { bare with operands := 1, accesses := [2] }⟩]),
   (["expr_var_open_dim"], Step.exchanges .openIndex),
   (["found_call_func_name"], Step.exchanges .beginCall),
   (["call_func_params", "call_func_param"], [⟨none, { bare with operators := [0], calls := 1 },
      { bare with operators := [0], calls := 1 }⟩]),
   (["func_single_step"], Step.exchanges .argument),
   (["found_call_func_end"], Step.exchanges .endCall)]

/-- What a phrase of a symbol does to the stacks, by the key of the symbol. -/
def ofKey (s : Nat) : List Exchange := ((table.find? fun x => (x.1.map key).contains s).map (·.2)).getD [keep]

/-- The level of the value of a symbol, if it is a word. -/
def wordOfKey (s : Nat) : Option Nat := (symbolWords.find? fun x => key x.1 == s).map fun x => operatorLevel x.2

/-- What phrases do to the stacks. -/
def passKeys : List Nat → Option Nat → Profile → Option Profile
  | [], _, σ => some σ
  | s :: rest, word, σ => (first (ofKey s) word σ).bind (passKeys rest (wordOfKey s))

/-- The check that the step of a rule is ready for it. -/
def readyKeys (names : List Nat) (step : Step) (symbols : List Nat) : Bool :=
  match step with
  | .reserve | .paramDims => symbols.length ≤ 2
  | .constant => match symbols with
    | [] => false
    | s :: _ => !names.contains s
  | _ => true

/-- The check that a rule does what its symbol is said to do. -/
def fits (names : List Nat) (r : DialectRule) : Bool :=
  readyKeys names r.step (r.symbols.map key) &&
  (match wordOfKey (key r.name) with
    | none => true
    | some l => match r.step with
      | .give w => operatorLevel w == l
      | _ => false) &&
  (ofKey (key r.name)).all fun e =>
    match (passKeys (r.symbols.map key) e.word e.pre).bind (first r.step.exchanges e.word) with
    | none => false
    | some σ => decide ({ σ with still := e.post.still } = e.post) && (!e.post.still || σ.still)

theorem fits_eq_true (d : Dialect) : (d.rules.all (fits d.nameKeys)) = true := by
  cases d <;> decide +kernel

/-- Only symbols with rules do anything to the stacks. -/
theorem table_names (d : Dialect) : (table.all fun x => x.1.all fun s => d.nameKeys.contains (key s)) = true := by
  cases d <;> decide +kernel

theorem table_still : (table.all fun x => x.2.all fun e => e.pre.still) = true := by decide +kernel

def ofSymbol (s : String) : List Exchange := ofKey (key s)

/-- The level of the value of a symbol, if it is a word. -/
def wordOfSymbol (s : String) : Option Nat := wordOfKey (key s)

/-- What phrases of symbols do to the stacks. -/
def pass (symbols : List String) : Option Nat → Profile → Option Profile := passKeys (symbols.map key)

theorem pass_cons :
    pass (s :: rest) word σ = (first (ofSymbol s) word σ).bind (pass rest (wordOfSymbol s)) := rfl

variable {d : Dialect} {r : DialectRule}

theorem still_of_mem (he : e ∈ ofSymbol s) : e.pre.still = true := by
  rw [ofSymbol, ofKey] at he
  rcases hfind : table.find? fun x => (x.1.map key).contains (key s) with _ | x <;> rw [hfind] at he
  · rw [List.mem_singleton.1 he]
    rfl
  · have hx := List.all_eq_true.1 table_still x (List.mem_of_find?_eq_some hfind)
    exact List.all_eq_true.1 hx e he

theorem ofSymbol_token (hs : ∀ r ∈ d.rules, r.name ≠ s) : ofSymbol s = [keep] := by
  rw [ofSymbol, ofKey]
  rcases hfind : table.find? fun x => (x.1.map key).contains (key s) with _ | x
  · rw [hfind]
    rfl
  · have hmem := List.find?_some hfind
    obtain ⟨s', hs', hkey⟩ := List.mem_map.1 (List.contains_iff_mem.1 hmem)
    have hx := List.all_eq_true.1 (table_names d) x (List.mem_of_find?_eq_some hfind)
    have hname := List.all_eq_true.1 hx s' hs'
    rw [hkey] at hname
    obtain ⟨r, hr, hkey'⟩ := List.mem_map.1 (List.contains_iff_mem.1 hname)
    exact absurd (key_inj hkey') (hs r hr)

/-- The rules of a symbol do what it is said to do. -/
theorem exists_pass (hr : r ∈ d.rules) (he : e ∈ ofSymbol r.name) :
    ∃ σ σ', pass r.symbols e.word e.pre = some σ ∧ first r.step.exchanges e.word σ = some σ' ∧
      (σ' = e.post ∨ { σ' with still := false } = e.post) := by
  have hall := List.all_eq_true.1 (fits_eq_true d) r hr
  rw [fits, Bool.and_eq_true] at hall
  have hfits := List.all_eq_true.1 hall.2 e he
  rcases hpass : pass r.symbols e.word e.pre with _ | σ <;> rw [pass] at hpass <;> rw [hpass] at hfits
  · cases hfits
  rw [Option.bind_some] at hfits
  rcases hstep : first r.step.exchanges e.word σ with _ | σ' <;> rw [hstep] at hfits
  · cases hfits
  obtain ⟨hpost, hstill⟩ := Bool.and_eq_true_iff.1 hfits
  rw [decide_eq_true_eq] at hpost
  refine ⟨σ, σ', rfl, hstep, ?_⟩
  rcases hs : e.post.still with _ | _ <;> rw [hs] at hpost hstill
  · exact .inr hpost
  · have hsame : ({ σ' with still := true } : Profile) = σ' := by
      rw [← show σ'.still = true from hstill]
    exact .inl (hsame.symm.trans hpost)

/-- What is given by the rules of a word is of its level. -/
theorem level_give (hr : r ∈ d.rules) (hl : wordOfSymbol r.name = some l) :
    ∃ w, r.step = .give w ∧ operatorLevel w = l := by
  have hall := List.all_eq_true.1 (fits_eq_true d) r hr
  rw [fits, Bool.and_eq_true, Bool.and_eq_true] at hall
  have hword := hall.1.2
  rw [wordOfSymbol] at hl
  rw [hl] at hword
  dsimp only at hword
  split at hword
  · next w hw => exact ⟨w, hw, beq_iff_eq.1 hword⟩
  · cases hword

end Exchange

/-! ### Tokens -/

namespace Dialect

/-- A token of a source in the dialect has this kind and value. -/
def Lexes (d : Dialect) (kind : String) (v : Literal) : Prop :=
  ∃ line source, ∃ t ∈ (Scanner.ofSource d line source).all.2.1, t.kind = kind ∧ t.value = v

/-- A token has one of many values, or it is a reserved word, or it is an operator or a mark and has its
text as its value. -/
theorem Lexes.cases {d : Dialect} {kind : String} {v : Literal} (h : d.Lexes kind v) :
    kind ∈ valueKinds ∨ kind ∈ d.reserved.map (·.2) ∨ (∃ w, (w, kind) ∈ d.operators ∧ v = .text w) ∨
      ∃ c ∈ d.marks, String.ofList [c] = kind ∧ v = .text kind := by
  obtain ⟨line, source, t, ht, rfl, rfl⟩ := h
  obtain ⟨p, hp, htok⟩ := Scanner.exists_piece_of_mem_upTo ht
  have hspelled := Scanner.spelled_of_mem_cut d hp
  change d.tokenOf p = _ at htok
  rw [tokenOf] at htok
  generalize hcls : p.cls = cls at hspelled htok
  generalize t.kind = kind at htok ⊢
  generalize t.value = v at htok ⊢
  cases cls <;> simp only [reduceCtorEq, Except.ok.injEq, Option.some.injEq, Prod.mk.injEq] at htok
  case real =>
    rcases hread : Number.readFloat (String.ofList p.text) with e | x <;> rw [hread] at htok <;> cases htok
    exact .inl (by decide)
  case integer =>
    rcases hread : Number.readInt (String.ofList p.text) with e | x <;> rw [hread] at htok <;> cases htok
    exact .inl (by decide)
  case char => exact .inl (htok.1 ▸ by decide)
  case truth => exact .inl (htok.1 ▸ by decide)
  case string => exact .inl (htok.1 ▸ by decide)
  case word =>
    rcases hlookup : d.reserved.lookup (String.ofList p.text) with _ | k <;> rw [hlookup] at htok
    · exact .inl (htok.1 ▸ by decide)
    · exact .inr (.inl (List.mem_map.2 ⟨_, Lalr.mem_of_lookup hlookup, htok.1⟩))
  case operator =>
    obtain ⟨y, hy, hkey⟩ := List.mem_map.1 hspelled
    have hsome : (d.operators.lookup (String.ofList p.text)).isSome :=
      List.lookup_isSome_iff.2 ⟨y, hy, beq_iff_eq.2 hkey.symm⟩
    obtain ⟨k, hk⟩ := Option.isSome_iff_exists.1 hsome
    rw [hk] at htok
    refine .inr (.inr (.inl ⟨_, ?_, htok.2.symm⟩))
    rw [← htok.1]
    exact Lalr.mem_of_lookup hk
  case mark =>
    obtain ⟨c, hc, htext⟩ := hspelled
    rw [htext] at htok
    exact .inr (.inr (.inr ⟨c, hc, htok.1, by rw [← htok.1, htok.2]⟩))

end Dialect

theorem Compiler.Reports.calmly {c : Compiler} (h : c.Reports c') : c.Calmly c' := by
  obtain ⟨printed, rfl⟩ := h
  exact ⟨⟨rfl, rfl, rfl, rfl, rfl, rfl, Nat.le_refl _⟩, rfl, rfl, rfl⟩

namespace Phrase

open Exchange Profile Text

variable {d : Dialect} {s : String} {P : Phrase} {before : Option Literal} {c F : Compiler}

/-- All tokens of a phrase are tokens as sources have them. -/
def Lexed (d : Dialect) (P : Phrase) : Prop := ∀ x ∈ P.yield, d.Lexes (Spelling.kindOf x.1) x.2

theorem Lexed.part {p : Phrase} (h : Lexed d (.node rule parts)) (hp : p ∈ parts) :
    Lexed d p := fun x hx => h x (mem_yieldAll.2 ⟨p, hp, hx⟩)

/-- The check that a token of a symbol can only have its word as its value. -/
def speaks (d : Dialect) (x : String × String) : Bool :=
  !((Dialect.valueKinds ++ d.reserved.map (·.2)).map key).contains (key (Spelling.kindOf x.1)) &&
  d.operators.all (fun y => key y.2 != key (Spelling.kindOf x.1) || key y.1 == key x.2) &&
  d.marks.all fun c => key (String.ofList [c]) != key (Spelling.kindOf x.1) || key (String.ofList [c]) == key x.2

theorem speaks_eq_true (d : Dialect) : symbolWords.all (speaks d) = true := by
  cases d <;> decide +kernel

theorem word_of_token {v : Literal} (hl : wordOfSymbol s = some l)
    (hlex : d.Lexes (Spelling.kindOf s) v) : operatorLevel (Compile.wordOf (some v)) = l := by
  obtain ⟨x, hx, rfl⟩ := Option.map_eq_some_iff.1 hl
  have hkey := List.find?_some hx
  obtain rfl : x.1 = s := key_inj (beq_iff_eq.1 hkey)
  have hspeaks := List.all_eq_true.1 (speaks_eq_true d) x (List.mem_of_find?_eq_some hx)
  simp only [speaks, Bool.and_eq_true, Bool.not_eq_true', Bool.eq_false_iff, Ne, List.contains_iff_mem, List.all_eq_true,
    Bool.or_eq_true, bne_iff_ne, beq_iff_eq] at hspeaks
  obtain ⟨⟨hkind, hoperator⟩, hmark⟩ := hspeaks
  rcases hlex.cases with h | h | ⟨w, hw, rfl⟩ | ⟨c, hc, hc', rfl⟩
  · exact absurd (List.mem_map_of_mem (List.mem_append_left _ h)) hkind
  · exact absurd (List.mem_map_of_mem (List.mem_append_right _ h)) hkind
  · rcases hoperator _ hw with h | h
    · exact absurd rfl h
    · rw [Compile.wordOf, ← key_inj h]
  · rcases hmark c hc with h | h
    · exact absurd (congrArg key hc') h
    · rw [Compile.wordOf, ← hc', key_inj h]

/-- The value of a phrase for an operator is its word. -/
theorem Derives.leveled (hP : Derives d P) (hlex : P.Lexed d) {v : Option Literal}
    (h : P.Compiles before c v c') : Leveled (wordOfSymbol P.symbol) v := by
  intro l hl
  cases hP with
  | @token s w hs =>
    rw [h.1]
    exact word_of_token hl (hlex (s, w) List.mem_cons_self)
  | @node rule parts hrule hsymbols hparts =>
    obtain ⟨w, hstep, hw⟩ := level_give hrule hl
    obtain ⟨args, c₁, -, hrun⟩ := compiles_node.1 h
    rw [hstep] at hrun
    cases hrun
    exact hw

/-! ### What phrases do -/

/-- A phrase does what its symbol is said to do. -/
def Acts (P : Phrase) : Prop := ∀ e ∈ ofSymbol P.symbol, ∀ {F before v c c'}, Leveled e.word before →
  e.pre.Over F c → P.Compiles before c v c' → e.post.Over F c'

/-- One exchange of the next phrase takes place, and the others follow. -/
theorem exists_of_pass {σ' : Profile} (h : pass (s :: rest) word σ = some σ') (hc : σ.Over F c)
    (hbefore : Leveled word before) :
    ∃ e ∈ ofSymbol s, Leveled e.word before ∧ ∃ F' σ₁, e.pre.Over F' c ∧
      (∀ c', e.post.Over F' c' → σ₁.Over F c') ∧ pass rest (wordOfSymbol s) σ₁ = some σ' := by
  rw [pass_cons] at h
  obtain ⟨σ₁, hfirst, hrest⟩ := Option.bind_eq_some_iff.1 h
  obtain ⟨e, he, happly⟩ := List.exists_of_findSome?_eq_some hfirst
  obtain ⟨hword, F', hpre, hpost⟩ := exists_of_apply happly (still_of_mem he) hc hbefore
  exact ⟨e, he, hword, F', σ₁, hpre, hpost, hrest⟩

theorem CompilesAll.pass {ps : List Phrase} (hps : ∀ p ∈ ps, Derives d p ∧ p.Lexed d ∧ p.Acts) :
    ∀ {rest : List String} {before : Option Literal} {word : Option Nat} {σ σ' : Profile} {F c c' : Compiler}
      {args : List (Option Literal)}, pass (ps.map symbol ++ rest) word σ = some σ' → Leveled word before → σ.Over F c →
        CompilesAll before ps c args c' → ∃ word' σ₁, Leveled word' (lastOf before args) ∧ σ₁.Over F c' ∧
          Exchange.pass rest word' σ₁ = some σ' := by
  induction ps with
  | nil =>
    intro rest before word σ σ' F c c' args hpass hbefore hc h
    rw [h.1]
    exact ⟨word, σ, hbefore, hc.calmly h.2.calmly, hpass⟩
  | cons p ps ih =>
    intro rest before word σ σ' F c c' args hpass hbefore hc h
    obtain ⟨hP, hlex, hacts⟩ := hps p List.mem_cons_self
    obtain ⟨v, c₁, args', hp, hrest, rfl⟩ := compilesAll_cons.1 h
    obtain ⟨e, he, hword, F', σ₁, hpre, hpost, hpass'⟩ := exists_of_pass hpass hc hbefore
    rw [lastOf_cons]
    exact ih (fun q hq => hps q (List.mem_cons_of_mem p hq)) hpass' (hP.leveled hlex hp)
      (hpost c₁ (hacts e he hword hpre hp)) hrest

/-- The values that a step gets are such as it expects. -/
theorem ready_of_rule (hrule : rule ∈ d.rules) (hsymbols : parts.map symbol = rule.symbols)
    (hparts : ∀ p ∈ parts, Derives d p) (h : CompilesAll before parts c args c') :
    rule.step.Ready args := by
  have hready := List.all_eq_true.1 (fits_eq_true d) rule hrule
  rw [fits, Bool.and_eq_true, Bool.and_eq_true] at hready
  have hready := hready.1.1
  have hlength : (rule.symbols.map key).length = args.length := by
    rw [List.length_map, ← hsymbols, List.length_map, h.length_eq]
  rw [readyKeys.eq_def] at hready
  rw [Step.Ready.eq_def]
  split
  · next heq => rw [heq] at hready; rw [← hlength]; exact of_decide_eq_true hready
  · next heq => rw [heq] at hready; rw [← hlength]; exact of_decide_eq_true hready
  · next heq =>
    -- the first part is not a symbol with rules, so it is a token
    rw [heq, ← hsymbols] at hready
    rcases parts with _ | ⟨p, ps⟩
    · cases hready
    obtain ⟨v, c₁, rest, hp, -, rfl⟩ := compilesAll_cons.1 h
    cases hparts p List.mem_cons_self with
    | @token s w hs => exact ⟨w, hp.1⟩
    | @node rule' parts' hrule' _ _ =>
      have hname : d.nameKeys.contains (key rule'.name) = true :=
        List.contains_iff_mem.2 (List.mem_map.2 ⟨rule', hrule', rfl⟩)
      simp only [List.map_cons, symbol_node, hname] at hready
      cases hready
  · trivial

/-- When the parts of a rule are done, the stacks are ready for its step, and what that does is what
the symbol is said to do. -/
theorem exists_step_exchange (hrule : rule ∈ d.rules) (hsymbols : parts.map symbol = rule.symbols)
    (hparts : ∀ p ∈ parts, Derives d p ∧ p.Lexed d ∧ p.Acts) (he : e ∈ ofSymbol rule.name)
    (hword : Leveled e.word before) (hc : e.pre.Over F c) (h : CompilesAll before parts c args c') :
    ∃ e' ∈ rule.step.exchanges, Leveled e'.word before ∧ rule.step.Ready args ∧ ∃ F', e'.pre.Over F' c' ∧
      ∀ c'', e'.post.Over F' c'' → e.post.Over F c'' := by
  obtain ⟨σ, σ', hpass, hfirst, hpost⟩ := exists_pass hrule he
  rw [← hsymbols, ← List.append_nil (parts.map symbol)] at hpass
  obtain ⟨word', σ₁, -, hc', hσ⟩ := CompilesAll.pass hparts hpass hword hc h
  cases hσ
  obtain ⟨e', he', happly⟩ := List.exists_of_findSome?_eq_some hfirst
  obtain ⟨hword', F', hpre, hpost'⟩ := exists_of_apply happly (Step.still_of_mem he') hc' hword
  refine ⟨e', he', hword', ready_of_rule hrule hsymbols (fun p hp => (hparts p hp).1) h, F', hpre, fun c'' hc'' => ?_⟩
  rcases hpost with rfl | hpost
  · exact hpost' c'' hc''
  · rw [← hpost]
    exact (hpost' c'' hc'').forget

theorem Derives.acts (hP : Derives d P) : P.Lexed d → P.Acts := by
  induction hP with
  | @token s v hs =>
    intro _ e he F before w c c' _ hc h
    rw [symbol_token, ofSymbol_token hs, List.mem_singleton] at he
    rw [he] at hc ⊢
    exact hc.calmly h.2.calmly
  | @node rule parts hrule hsymbols hparts ih =>
    intro hlex e he F before v c c' hword hc h
    obtain ⟨args, c₁, hall, hrun⟩ := compiles_node.1 h
    have hacts : ∀ p ∈ parts, Derives d p ∧ p.Lexed d ∧ p.Acts := fun p hp =>
      ⟨hparts p hp, hlex.part hp, ih p hp (hlex.part hp)⟩
    obtain ⟨e', he', hword', hready, F', hpre, hpost⟩ := exists_step_exchange hrule hsymbols hacts he hword hc hall
    exact hpost c' ((Compile.sure_perform he' hword' hready).carries hpre hrun)

/-! ### Parts of phrases -/

/-- The steps of a phrase, from `c` on, come to the beginning of a part in some state: those of all parts to
the left of it have gone through. -/
inductive Reaches : Phrase → Option Literal → Compiler → Phrase → Option Literal → Compiler → Prop
  | here (P : Phrase) (before : Option Literal) (c : Compiler) : Reaches P before c P before c
  | inside {rule : DialectRule} {ps qs : List Phrase} {p q : Phrase} {before before' : Option Literal}
      {args : List (Option Literal)} {c c₁ c₂ : Compiler} (h : CompilesAll before ps c args c₁)
      (hp : Reaches p (lastOf before args) c₁ q before' c₂) : Reaches (.node rule (ps ++ p :: qs)) before c q before' c₂

/-- Where the steps come to a part, one of its exchanges can take place. -/
theorem Reaches.exists_exchange {q : Phrase} {before' : Option Literal}
    (h : P.Reaches before c q before' c') :
    Derives d P → P.Lexed d → ∀ e ∈ ofSymbol P.symbol, ∀ {F},
      Leveled e.word before → e.pre.Over F c → Derives d q ∧ q.Lexed d ∧
        ∃ e' ∈ ofSymbol q.symbol, Leveled e'.word before' ∧ ∃ F', e'.pre.Over F' c' := by
  induction h with
  | here P before c =>
    intro hP hlex e he F hword hc
    exact ⟨hP, hlex, e, he, hword, F, hc⟩
  | @inside rule ps qs p q before before' args c c₁ c₂ hps _ ih =>
    intro hP hlex e he F hword hc
    cases hP with
    | node hrule hsymbols hparts =>
      obtain ⟨σ, σ', hpass, -, -⟩ := exists_pass hrule he
      rw [← hsymbols, List.map_append, List.map_cons] at hpass
      have hleft : ∀ p' ∈ ps, Derives d p' ∧ p'.Lexed d ∧ p'.Acts := fun p' hp' => by
        have hmem : p' ∈ ps ++ p :: qs := List.mem_append_left _ hp'
        exact ⟨hparts p' hmem, hlex.part hmem, (hparts p' hmem).acts (hlex.part hmem)⟩
      obtain ⟨word', σ₁, hword', hc₁, hrest⟩ := CompilesAll.pass hleft hpass hword hc hps
      obtain ⟨e', he', hword'', F', -, hpre, -, -⟩ := exists_of_pass hrest hc₁ hword'
      have hmem : p ∈ ps ++ p :: qs := List.mem_append_right _ List.mem_cons_self
      exact ih (hparts p hmem) (hlex.part hmem) e' he' hword'' hpre

/-- A step of a phrase is reached with its parts done, and stops. -/
def Stops (P : Phrase) (before : Option Literal) (c : Compiler) (e : CompileFault) : Prop :=
  ∃ rule parts before' c₁ args c₂ c₃, P.Reaches before c (.node rule parts) before' c₁ ∧
    CompilesAll before' parts c₁ args c₂ ∧ (Compile.perform before' args rule.step).run c₂ = (.error e, c₃)

mutual

/-- What stops the steps of a phrase is one of them. -/
theorem stops_of_run : ∀ (P : Phrase) {before : Option Literal} {c c' : Compiler} {e : CompileFault},
    (P.run before).run c = (.error e, c') → P.Stops before c e
  | .token _ _, _, _, _, _, h => by cases h
  | .node rule parts, before, c, c', e, h => by
    rw [run_node] at h
    rcases hparts : (runAll before parts).run c with ⟨e' | args, c₁⟩
    · rw [Steps.run_bind_error hparts] at h
      cases h
      obtain ⟨ps, p, qs, args, c₁, rfl, hps, rule', parts', before', c₂, args', c₃, c₄, hreach, hstop⟩ :=
        stops_of_runAll parts hparts
      exact ⟨rule', parts', before', c₂, args', c₃, c₄, .inside hps hreach, hstop⟩
    · rw [Steps.run_bind_ok hparts] at h
      exact ⟨rule, parts, before, c, args, c₁, c', .here _ _ _, compilesAll_of_runAll parts hparts, h⟩

/-- What stops the steps of phrases is a step of one of them, and the ones before have gone through. -/
theorem stops_of_runAll : ∀ (parts : List Phrase) {before : Option Literal} {c c' : Compiler} {e : CompileFault},
    (runAll before parts).run c = (.error e, c') → ∃ ps p qs args c₁, parts = ps ++ p :: qs ∧
      CompilesAll before ps c args c₁ ∧ p.Stops (lastOf before args) c₁ e
  | [], _, _, _, _, h => by cases h
  | p :: ps, before, c, c', e, h => by
    rw [runAll_cons] at h
    rcases hp : (p.run before).run c with ⟨e' | v, c₁⟩
    · rw [Steps.run_bind_error hp] at h
      cases h
      exact ⟨[], p, ps, [], c, rfl, ⟨rfl, .refl c⟩, stops_of_run p hp⟩
    · rw [Steps.run_bind_ok hp] at h
      rcases hps : (runAll v ps).run c₁ with ⟨e' | args, c₂⟩
      · rw [Steps.run_bind_error hps] at h
        cases h
        obtain ⟨ps₁, q, qs, args, c₃, rfl, hps₁, hstops⟩ := stops_of_runAll ps hps
        refine ⟨p :: ps₁, q, qs, v :: args, c₃, rfl, compilesAll_cons.2 ⟨v, c₁, args, compiles_of_run p hp, hps₁, rfl⟩, ?_⟩
        rwa [lastOf_cons]
      · rw [Steps.run_bind_ok hps] at h
        cases h

end

end Phrase

/-! ### The balance of programs -/

/-- The stacks of operands, operators, breaks, calls and accesses are empty, and these are the open jumps. -/
def Compiler.Cleared (c : Compiler) (jumps : List Int) : Prop :=
  c.operands = [] ∧ c.operators = [] ∧ c.jumps = jumps ∧ c.breaks = [] ∧ c.calls = [] ∧ c.accesses = []

namespace Profile

variable {F c : Compiler} {n f : Nat} {w s : Bool}

variable {js : List JumpKind}

/-- With nothing on top, but perhaps operands and jumps, the other stacks are those below. -/
theorem Over.kept (h : Over ⟨n, [], js, 0, 0, [], f, w, s⟩ F c) : c.operators = F.operators ∧
    Grown F.breaks c.breaks ∧ (s = true → c.breaks = F.breaks) ∧ c.calls = F.calls ∧ c.accesses = F.accesses := by
  obtain ⟨operators, hoperators, hls⟩ := h.operators
  obtain ⟨breaks, below, hbreaks, hb, hgrown, hstill⟩ := h.breaks
  obtain ⟨calls, hcalls, hk⟩ := h.calls
  obtain ⟨accesses, haccesses, has⟩ := h.accesses
  rw [List.map_eq_nil_iff] at hls
  rw [List.forall₂_nil_left_iff] at has
  rw [List.length_eq_zero_iff] at hb hk
  subst hls has hb hk
  rw [List.nil_append] at hoperators hbreaks hcalls haccesses
  subst hbreaks
  exact ⟨hoperators, hgrown, hstill, hcalls, haccesses⟩

theorem Over.alike (h : Over ⟨n, [], [], 0, 0, [], f, w, s⟩ F c) : c.operators = F.operators ∧ c.jumps = F.jumps ∧
    Grown F.breaks c.breaks ∧ (s = true → c.breaks = F.breaks) ∧ c.calls = F.calls ∧ c.accesses = F.accesses := by
  obtain ⟨jumps, hjumps, hjs⟩ := h.jumps
  rw [List.forall₂_nil_left_iff.1 hjs, List.nil_append] at hjumps
  obtain ⟨hoperators, hrest⟩ := h.kept
  exact ⟨hoperators, hjumps, hrest⟩

theorem Over.operands_eq (h : Over ⟨0, [], js, 0, 0, [], f, w, s⟩ F c) : c.operands = F.operands := by
  obtain ⟨xs, hxs, hlength⟩ := h.operands
  rw [hxs, List.length_eq_zero_iff.1 hlength, List.nil_append]

/-- With nothing below, the stacks are known. -/
theorem Over.cleared (h : Over ⟨0, [], js, 0, 0, [], f, true, s⟩ F c) {jumps : List Int}
    (hjumps : ∀ xs, List.Forall₂ (fun k j => JumpKind.Holds c.quads.size j k) js xs → xs = jumps) : c.Cleared jumps := by
  obtain ⟨h₁, h₂, h₃, h₄, h₅, h₆⟩ := h.whole rfl
  obtain ⟨hoperators, hgrown, -, hcalls, haccesses⟩ := h.kept
  obtain ⟨xs, hxs, hjs⟩ := h.jumps
  rw [hjumps xs hjs, h₃, List.append_nil] at hxs
  rw [h₄] at hgrown
  exact ⟨h.operands_eq.trans h₁, hoperators.trans h₂, hxs, hgrown.eq_nil, hcalls.trans h₅, haccesses.trans h₆⟩

theorem eq_main {m : Nat} {xs : List Int} (h : List.Forall₂ (fun k j => JumpKind.Holds m j k) [.main] xs) : xs = [0] := by
  obtain ⟨j, rest, hj, hrest, rfl⟩ := List.forall₂_cons_left_iff.1 h
  rw [List.forall₂_nil_left_iff.1 hrest, hj.1]

/-- The beginning of a program. -/
theorem over_start (debug : Bool) (objectName : String) : Over ⟨0, [], [], 0, 0, [], 0, true, true⟩
    (.start debug objectName) (.start debug objectName) where
  operands := ⟨[], rfl, rfl⟩
  operators := ⟨[], rfl, rfl⟩
  jumps := ⟨[], rfl, .nil⟩
  breaks := ⟨[], [], rfl, rfl, .refl _, fun _ => rfl⟩
  calls := ⟨[], rfl, rfl⟩
  accesses := ⟨[], rfl, .nil⟩
  floor := fun _ h => by cases h
  whole := fun _ => ⟨rfl, rfl, rfl, rfl, rfl, rfl⟩
  still := fun _ => ⟨rfl, rfl, rfl⟩
  size := Nat.le_refl _
  flat := fun _ h => by cases h
  broken := fun _ h => by cases h

end Profile

open Phrase Exchange Profile

theorem ofSymbol_expr : ofSymbol "expr" =
    [⟨none, ⟨0, [], [], 0, 0, [], 0, false, true⟩, ⟨1, [], [], 0, 0, [], 0, false, true⟩⟩] := by decide +kernel

theorem ofSymbol_statement : ofSymbol "statement" = [.statement] := by decide +kernel

theorem ofSymbol_functionEnd : ofSymbol "found_func_end" = [definition] := by decide +kernel

theorem ofSymbol_program : ofSymbol "program" =
    [⟨none, ⟨0, [], [], 0, 0, [], 0, true, true⟩, ⟨0, [], [], 0, 0, [], 0, true, false⟩⟩] := by decide +kernel

theorem finish_of_program {d : Dialect} {r : DialectRule} (hr : r ∈ d.rules) (hs : r.name = "program") :
    r.step = .finish := by
  have hall : (d.rules.all fun r => Text.key r.name != Text.key "program" || decide (r.step = .finish)) = true := by
    cases d <;> decide +kernel
  have hfinish := List.all_eq_true.1 hall r hr
  rw [hs, Bool.or_eq_true, decide_eq_true_eq] at hfinish
  rcases hfinish with h | h
  · exact absurd rfl (bne_iff_ne.1 h)
  · exact h

/-- The steps of a phrase, from a state on, use the stacks in a balanced way. -/
structure Phrase.Balanced (P : Phrase) (c₀ : Compiler) : Prop where
  /-- If the steps do not go through, it is not because a stack is empty. -/
  run : ∀ {e c}, (P.run none).run c₀ = (.error e, c) → e ≠ .popEmpty ∧ e ≠ .peekEmpty
  /-- No step stops because a stack is empty. -/
  stops : ∀ {e}, P.Stops none c₀ e → e ≠ .popEmpty ∧ e ≠ .peekEmpty
  /-- An expression adds one operand. -/
  expr : ∀ {q before c v c'}, P.Reaches none c₀ q before c → q.symbol = "expr" → q.Compiles before c v c' →
    (∃ o, c'.operands = o :: c.operands) ∧ c'.operators = c.operators ∧ c'.jumps = c.jumps ∧
      c'.breaks = c.breaks ∧ c'.calls = c.calls ∧ c'.accesses = c.accesses
  /-- A statement leaves the stacks as they were, but breaks may have been added to the innermost loop. -/
  statement : ∀ {q before c v c'}, P.Reaches none c₀ q before c → q.symbol = "statement" → q.Compiles before c v c' →
    c'.operands = c.operands ∧ c'.operators = c.operators ∧ c'.jumps = c.jumps ∧ Grown c.breaks c'.breaks ∧
      c'.calls = c.calls ∧ c'.accesses = c.accesses
  /-- At the end of a function only the jump to the main part is open. -/
  functionEnd : ∀ {q before c}, P.Reaches none c₀ q before c → q.symbol = "found_func_end" → c.Cleared [0] ∧
    ∀ {v c'}, q.Compiles before c v c' → c'.Cleared [0]
  /-- At the end of the program nothing is left. -/
  programEnd : ∀ {rule parts args c}, P = .node rule parts → CompilesAll none parts c₀ args c → c.Cleared [] ∧
    ∀ {v c'}, (Compile.perform none args rule.step).run c = (.ok v, c') → c'.Cleared []

theorem ne_of_ofStack {e : CompileFault} (h : e.ofStack = false) : e ≠ .popEmpty ∧ e ≠ .peekEmpty := by
  constructor <;> rintro rfl <;> cases h

section

variable {d : Dialect} {P q : Phrase} {debug : Bool} {objectName : String} {before : Option Literal} {c : Compiler}

/-- In a program, one of the exchanges of a part can take place where the steps come to it. -/
theorem Phrase.Derives.exists_exchange (hP : Derives d P) (hs : P.symbol = "program") (hlex : P.Lexed d)
    (h : P.Reaches none (.start debug objectName) q before c) : Derives d q ∧ q.Lexed d ∧
      ∃ e ∈ ofSymbol q.symbol, Leveled e.word before ∧ ∃ F, e.pre.Over F c := by
  have he : (⟨none, ⟨0, [], [], 0, 0, [], 0, true, true⟩, ⟨0, [], [], 0, 0, [], 0, true, false⟩⟩ : Exchange) ∈
      ofSymbol P.symbol := by
    rw [hs, ofSymbol_program]
    exact List.mem_singleton_self _
  exact h.exists_exchange hP hlex _ he (fun l hl => by cases hl) (over_start debug objectName)

/-- If the part has only one exchange, that is the one. -/
theorem Phrase.Derives.exchange (hP : Derives d P) (hs : P.symbol = "program") (hlex : P.Lexed d)
    (h : P.Reaches none (.start debug objectName) q before c) (hq : ofSymbol q.symbol = [e]) :
    ∃ F, e.pre.Over F c ∧ ∀ {v c'}, q.Compiles before c v c' → e.post.Over F c' := by
  obtain ⟨hderives, hlexed, e', he', hword, F, hpre⟩ := hP.exists_exchange hs hlex h
  obtain rfl : e' = e := List.mem_singleton.1 (hq ▸ he')
  exact ⟨F, hpre, fun hsteps => hderives.acts hlexed e' he' hword hpre hsteps⟩

theorem Phrase.Derives.ofStack_of_stops (hP : Derives d P) (hs : P.symbol = "program") (hlex : P.Lexed d)
    {e : CompileFault} (h : P.Stops none (.start debug objectName) e) : e.ofStack = false := by
  obtain ⟨rule, parts, before, c₁, args, c₂, c₃, hreach, hparts, hstop⟩ := h
  obtain ⟨hderives, hlexed, e', he', hword, F, hpre⟩ := hP.exists_exchange hs hlex hreach
  cases hderives with
  | node hrule hsymbols hall =>
    have hacts : ∀ p ∈ parts, Derives d p ∧ p.Lexed d ∧ p.Acts := fun p hp =>
      ⟨hall p hp, hlexed.part hp, (hall p hp).acts (hlexed.part hp)⟩
    obtain ⟨e'', he'', hword', hready, F', hpre', -⟩ :=
      exists_step_exchange hrule hsymbols hacts he' hword hpre hparts
    exact (Compile.sure_perform he'' hword' hready).fault hpre' hstop

/-- The program is done except for its last step, which leaves the stacks alone. -/
theorem Phrase.Derives.cleared_of_parts (hP : Derives d (.node rule parts))
    (hs : rule.name = "program") (hlex : Lexed d (.node rule parts))
    (h : CompilesAll none parts (.start debug objectName) args c) : c.Cleared [] := by
  cases hP with
  | node hrule hsymbols hall =>
    have he : (⟨none, ⟨0, [], [], 0, 0, [], 0, true, true⟩, ⟨0, [], [], 0, 0, [], 0, true, false⟩⟩ : Exchange) ∈
        ofSymbol rule.name := by
      rw [hs, ofSymbol_program]
      exact List.mem_singleton_self _
    have hacts : ∀ p ∈ parts, Derives d p ∧ p.Lexed d ∧ p.Acts := fun p hp =>
      ⟨hall p hp, hlex.part hp, (hall p hp).acts (hlex.part hp)⟩
    obtain ⟨e, he', -, -, F, hpre, hpost⟩ := exists_step_exchange hrule hsymbols hacts he (fun l hl => by cases hl)
      (over_start debug objectName) h
    rw [finish_of_program hrule hs, Step.exchanges, List.mem_singleton] at he'
    rw [he'] at hpre hpost
    exact (hpost c hpre).cleared fun xs hxs => List.forall₂_nil_left_iff.1 hxs

end

/-- Every derivation of a program uses the stacks in a balanced way, whether it goes through or not. -/
theorem stacks_balanced {d : Dialect} {P : Phrase} (hP : Derives d P) (hs : P.symbol = "program") (hlex : P.Lexed d)
    (debug : Bool) (objectName : String) : P.Balanced (.start debug objectName) where
  run h := ne_of_ofStack (hP.ofStack_of_stops hs hlex (stops_of_run P h))
  stops h := ne_of_ofStack (hP.ofStack_of_stops hs hlex h)
  expr h hq hsteps := by
    obtain ⟨F, hpre, hpost⟩ := hP.exchange hs hlex h (hq ▸ ofSymbol_expr)
    have hpost := hpost hsteps
    obtain ⟨h₁, h₂, -, h₃, h₄, h₅⟩ := hpre.alike
    obtain ⟨h₁', h₂', -, h₃', h₄', h₅'⟩ := hpost.alike
    obtain ⟨xs, hxs, hlength⟩ := hpost.operands
    obtain ⟨o, rfl⟩ := List.length_eq_one_iff.1 hlength
    refine ⟨⟨o, ?_⟩, h₁'.trans h₁.symm, h₂'.trans h₂.symm, (h₃' rfl).trans (h₃ rfl).symm, h₄'.trans h₄.symm,
      h₅'.trans h₅.symm⟩
    rw [hxs, hpre.operands_eq]
    rfl
  statement h hq hsteps := by
    obtain ⟨F, hpre, hpost⟩ := hP.exchange hs hlex h (hq ▸ ofSymbol_statement)
    have hpost := hpost hsteps
    obtain ⟨h₁, h₂, -, h₃, h₄, h₅⟩ := hpre.alike
    obtain ⟨h₁', h₂', hgrown, -, h₄', h₅'⟩ := hpost.alike
    refine ⟨hpost.operands_eq.trans hpre.operands_eq.symm, h₁'.trans h₁.symm, h₂'.trans h₂.symm, ?_, h₄'.trans h₄.symm,
      h₅'.trans h₅.symm⟩
    rw [h₃ rfl]
    exact hgrown
  functionEnd h hq := by
    obtain ⟨F, hpre, hpost⟩ := hP.exchange hs hlex h (hq ▸ ofSymbol_functionEnd)
    exact ⟨hpre.cleared fun _ => eq_main, fun hsteps => (hpost hsteps).cleared fun _ => eq_main⟩
  programEnd heq hparts := by
    subst heq
    refine ⟨hP.cleared_of_parts hs hlex hparts, fun hrun => ?_⟩
    obtain ⟨F, -, hpost⟩ := hP.exchange hs hlex (.here _ _ _) (hs ▸ ofSymbol_program)
    exact (hpost (compiles_node.2 ⟨_, _, hparts, hrun⟩)).cleared fun _ hxs => List.forall₂_nil_left_iff.1 hxs

set_option maxRecDepth 100000 in
/-- The tokens of a program with a loop, a call and a function. -/
theorem tokens_loopedCall : (Scanner.ofSource .plain 1
    ("Program p; var int x[2]; function int f(int n) \x7b return(n); \x7d main() \x7b while (true) do \x7b " ++
      "if (f(1) == 1) then \x7b break; \x7d else \x7b print(\"no\"); \x7d \x7d \x7d")).all.2.1.map
        (fun t => (t.kind, t.value)) = loopedCall.yield.map fun x => (Spelling.kindOf x.1, x.2) := rfl

theorem lexed_loopedCall : loopedCall.Lexed .plain := by
  intro x hx
  have hmem := List.mem_map_of_mem (f := fun x : String × Literal => (Spelling.kindOf x.1, x.2)) hx
  rw [← tokens_loopedCall] at hmem
  obtain ⟨t, ht, heq⟩ := List.mem_map.1 hmem
  exact ⟨1, _, t, ht, congrArg (·.1) heq, congrArg (·.2) heq⟩

theorem loopedCall_balanced : Derives .plain loopedCall ∧ loopedCall.symbol = "program" ∧ loopedCall.Lexed .plain ∧
    loopedCall.Balanced (.start false "") :=
  ⟨derives_loopedCall, symbol_loopedCall, lexed_loopedCall,
    stacks_balanced derives_loopedCall symbol_loopedCall lexed_loopedCall false ""⟩

end QuadLang
