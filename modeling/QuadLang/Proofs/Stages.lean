/-
The stages of a compilation.

Between its beginning and its end the compiler stands in many states, and some steps are right
only in some of them: the cells of an array can be taken only right after its name was declared,
and a text is never printed by the quad that a loop goes back to.  Here it is shown that the grammar
puts such steps in the right places.

* `Phrase.During` — the states that the compiler comes through in a phrase that goes through;
* `Mode` — what the step before has made ready, and `Mode.after`, how phrases change it;
* `Guard` — a statement about the state for every mode, which every step hands on, given values of
  a kind, and giving such a value;
* `Guard.during`, `Guard.onward` — it holds in all states of a phrase with such tokens.

Design notes: the modes of all rules are checked at once, on numbers in the place of names.
Phrases of most symbols may come in any mode and leave nothing ready.
-/
import QuadLang.Proofs.Compiled
import QuadLang.Proofs.Shapes

namespace QuadLang

variable {P : Phrase} {before v : Option Literal} {c c' c'' : Compiler}

namespace Phrase

/-- The compiler goes from `c` to `c''` in a phrase and comes to `c'` on the way: after one of the
parts of the phrase, or in one. -/
inductive During : Phrase → Option Literal → Compiler → Compiler → Option Literal → Compiler → Prop
  | done {before v : Option Literal} {P : Phrase} {c c' : Compiler} (h : P.Compiles before c v c') :
      During P before c c' v c'
  | inside {before v w : Option Literal} {rule : DialectRule} {ps qs : List Phrase} {p : Phrase}
      {args args' : List (Option Literal)} {c c₁ c' c₂ c₃ c'' : Compiler}
      (h : CompilesAll before ps c args c₁) (hp : During p (lastOf before args) c₁ c' w c₂)
      (hqs : CompilesAll w qs c₂ args' c₃)
      (hrun : (Compile.perform before (args ++ w :: args') rule.step).run c₃ = (.ok v, c'')) :
      During (.node rule (ps ++ p :: qs)) before c c' v c''

/-- The states on the way are those of the steps of the phrase. -/
theorem During.compiles (h : P.During before c c' v c'') : P.Compiles before c v c'' := by
  induction h with
  | done h => exact h
  | @inside before v w rule ps qs p args args' c c₁ c' c₂ c₃ c'' h _ hqs hrun ih =>
    have hrest : CompilesAll (lastOf before args) (p :: qs) c₁ (w :: args') c₃ :=
      compilesAll_cons.mpr ⟨w, c₂, args', ih, hqs, rfl⟩
    exact compiles_node.mpr ⟨_, c₃, compilesAll_append.mpr ⟨args, _, c₁, rfl, h, hrest⟩, hrun⟩

end Phrase

inductive Mode where
  | any
  /-- A variable has been declared, and its dimensions may follow. -/
  | var
  /-- A parameter has been declared, and its dimensions may follow. -/
  | param
  /-- A function has been begun, and the dimensions of its result may follow. -/
  | head
  /-- The next quad is one to which a jump goes back, so it prints no text.  The program begins like
  this as well. -/
  | fresh
deriving DecidableEq

namespace Mode

def all : List Mode := [.any, .var, .param, .head, .fresh]

theorem mem_all (m : Mode) : m ∈ all := by cases m <;> decide

open Text

/-- The symbols that never come where a condition is expected. -/
def lateNames : List String := ["body", "statements", "statement", "if", "else", "from", "while",
  "print", "print_params", "print_param", "functions", "found_func_name", "func_dims", "func_params",
  "func_param", "found_func_param", "param_dims", "vars", "var_declare", "var_name",
  "variable_declare", "var_dims"]

/-- The symbols after which there is a quad. -/
def quadNames : List String :=
  ["program", "found_program_name", "found_if_expr", "found_while_expr", "found_from_cond"]

/-- The mode after a phrase of a symbol, if it may come in a mode; `names` are the keys of the
symbols with rules. -/
def afterKey (names : List Nat) (s : Nat) (m : Mode) : Option Mode :=
  if !names.contains s || s == key "dim" || s == key "empty" then some m
  else if m = .fresh then
    if (lateNames.map key).contains s then none
    else if (quadNames.map key).contains s then some .any
    else some .fresh
  else if s == key "found_while" || s == key "found_from_start" then some .fresh
  else if s == key "variable_declare" then some .var
  else if s == key "found_func_param" then some .param
  else if s == key "found_func_name" then some .head
  else if s == key "var_dims" then if m = .var then some .any else none
  else if s == key "param_dims" then if m = .param then some .any else none
  else if s == key "func_dims" then if m = .head then some .any else none
  else some .any

/-- The mode after phrases. -/
def afterKeys (names : List Nat) : List Nat → Mode → Option Mode
  | [], m => some m
  | s :: rest, m => (afterKey names s m).bind (afterKeys names rest)

/-- The mode after a step, if it may come in a mode. -/
def afterStep : Step → Mode → Option Mode
  | .printText, .fresh | .declare, .fresh | .param, .fresh | .beginFunction, .fresh => none
  | .begin, _ | .jumpIfFalse, _ | .loopBound, _ => some .any
  | .beginLoop, _ | .loopStart, _ => some .fresh
  | .declare, _ => some .var
  | .param, _ => some .param
  | .beginFunction, _ => some .head
  | .reserve, m => if m = .var then some .any else none
  | .paramDims, m => if m = .param then some .any else none
  | .returnDims, m => if m = .head then some .any else none
  | .skip, m | .size _ _, m | .give _, m => some m
  | _, .fresh => some .fresh
  | _, _ => some .any

end Mode

namespace Dialect

open Text

/-- The keys of the symbols with rules. -/
def nameKeys (d : Dialect) : List Nat := d.rules.map fun r => key r.name

/-- The check that a rule fits to the modes around its symbol. -/
def fitsModes (names : List Nat) (r : DialectRule) (m : Mode) : Bool :=
  match Mode.afterKey names (key r.name) m with
  | none => true
  | some m' => match (Mode.afterKeys names (r.symbols.map key) m).bind (Mode.afterStep r.step) with
    | none => false
    | some m'' => decide (m'' = m') || decide (m' = .any ∧ m'' ≠ .fresh)

theorem fitsModes_eq_true (d : Dialect) :
    (d.rules.all fun r => Mode.all.all (fitsModes d.nameKeys r)) = true := by
  cases d <;> decide +kernel

end Dialect

/-- The mode after a phrase of a symbol, if it may come in a mode. -/
def Mode.after (d : Dialect) (s : String) : Mode → Option Mode := Mode.afterKey d.nameKeys (Text.key s)

/-- The mode after phrases. -/
def Mode.afterAll (d : Dialect) (symbols : List String) : Mode → Option Mode :=
  Mode.afterKeys d.nameKeys (symbols.map Text.key)

namespace Mode

variable {d : Dialect} {m m' : Mode} {s : String}

theorem after_token (hs : ∀ r ∈ d.rules, r.name ≠ s) : after d s m = some m := by
  have hnot : d.nameKeys.contains (Text.key s) = false := by
    rw [Bool.eq_false_iff, Ne, List.contains_iff_mem]
    intro hmem
    obtain ⟨r, hr, hkey⟩ := List.mem_map.mp hmem
    exact hs r hr (Text.key_inj hkey)
  rw [after, afterKey, hnot]
  rfl

theorem afterAll_cons {rest : List String} :
    afterAll d (s :: rest) m = (after d s m).bind (afterAll d rest) := rfl

theorem afterAll_append {ss ss' : List String} :
    afterAll d (ss ++ ss') m = (afterAll d ss m).bind (afterAll d ss') := by
  induction ss generalizing m with
  | nil => rfl
  | cons s ss ih =>
    rw [List.cons_append, afterAll_cons, afterAll_cons]
    rcases after d s m with _ | m₁
    · rfl
    · exact ih

/-- The parts of a rule may come where its symbol may, and then its step; what is ready after it is
ready after the symbol. -/
theorem after_rule {r : DialectRule} (hr : r ∈ d.rules) (h : after d r.name m = some m') :
    ∃ m₁ m₂, afterAll d r.symbols m = some m₁ ∧ afterStep r.step m₁ = some m₂ ∧
      (m₂ = m' ∨ (m' = .any ∧ m₂ ≠ .fresh)) := by
  have hall := d.fitsModes_eq_true
  rw [List.all_eq_true] at hall
  have hfits := List.all_eq_true.mp (hall r hr) m (mem_all m)
  rw [Dialect.fitsModes] at hfits
  rw [after] at h
  rw [h] at hfits
  dsimp only at hfits
  rw [afterAll]
  rcases hsymbols : afterKeys d.nameKeys (r.symbols.map Text.key) m with _ | m₁
  · rw [hsymbols] at hfits
    cases hfits
  rw [hsymbols, Option.bind_some] at hfits
  rcases hstep : afterStep r.step m₁ with _ | m₂
  · rw [hstep] at hfits
    cases hfits
  · rw [hstep] at hfits
    dsimp only at hfits
    rw [Bool.or_eq_true, decide_eq_true_eq, decide_eq_true_eq] at hfits
    exact ⟨m₁, m₂, rfl, hstep, hfits⟩

end Mode

/-- In every mode something holds of the state, and every step hands it on; and from values with `V` it
gives one with `V`. -/
structure Guard (d : Dialect) (V : Option Literal → Prop) (G : Mode → Compiler → Prop) : Prop where
  weaken : ∀ {m : Mode} {c : Compiler}, m ≠ .fresh → G m c → G .any c
  reports : ∀ {m : Mode} {c c' : Compiler}, c.Reports c' → G m c → G m c'
  step : ∀ rule ∈ d.rules, ∀ {m m' : Mode}, Mode.afterStep rule.step m = some m' →
    ∀ {before v : Option Literal} {args : List (Option Literal)} {c c' : Compiler},
      List.Forall₂ (Values d) rule.symbols args → V before → (∀ a ∈ args, V a) → G m c →
        (Compile.perform before args rule.step).run c = (.ok v, c') → G m' c' ∧ V v

namespace Phrase

variable {V : Option Literal → Prop}

/-- All tokens of a phrase have values with `V`. -/
def Fits (V : Option Literal → Prop) (P : Phrase) : Prop := ∀ x ∈ P.yield, V (some x.2)

theorem mem_yieldAll {ps : List Phrase} {x : String × Literal} : x ∈ yieldAll ps ↔ ∃ p ∈ ps, x ∈ p.yield := by
  induction ps with
  | nil => simp
  | cons p ps ih => simp [ih]

theorem Fits.part {rule : DialectRule} {parts : List Phrase} {p : Phrase}
    (h : Fits V (.node rule parts)) (hp : p ∈ parts) : Fits V p :=
  fun x hx => h x (mem_yieldAll.mpr ⟨p, hp, hx⟩)

theorem lastOf_fits {args : List (Option Literal)} (hbefore : V before) (hargs : ∀ a ∈ args, V a) :
    V (lastOf before args) := by
  rw [lastOf]
  rcases hlast : args.getLast? with _ | a
  · exact hbefore
  · exact hargs a (List.mem_of_getLast? hlast)

end Phrase

namespace Guard

open Phrase

variable {d : Dialect} {V : Option Literal → Prop} {G : Mode → Compiler → Prop} {m m' : Mode}

theorem compilesAll_of (hG : Guard d V G) {ps : List Phrase} (hps : ∀ p ∈ ps, ∀ {m m' before v c c'},
      Mode.after d p.symbol m = some m' → V before → G m c → p.Compiles before c v c' → G m' c' ∧ V v) :
    ∀ {m m' before args c c'}, Mode.afterAll d (ps.map symbol) m = some m' → V before → G m c →
      CompilesAll before ps c args c' → G m' c' ∧ ∀ a ∈ args, V a := by
  induction ps with
  | nil =>
    intro m m' before args c c' hm _ hc h
    cases hm
    refine ⟨hG.reports h.2 hc, fun a ha => ?_⟩
    rw [h.1] at ha
    cases ha
  | cons p ps ih =>
    intro m m' before args c c' hm hbefore hc h
    obtain ⟨v, c₁, rest, hp, hrest, rfl⟩ := compilesAll_cons.mp h
    rw [List.map_cons, Mode.afterAll_cons] at hm
    obtain ⟨m₁, hm₁, hm'⟩ := Option.bind_eq_some_iff.mp hm
    obtain ⟨hc₁, hv⟩ := hps p List.mem_cons_self hm₁ hbefore hc hp
    obtain ⟨hc', hrest'⟩ := ih (fun q hq => hps q (List.mem_cons_of_mem p hq)) hm' hv hc₁ hrest
    exact ⟨hc', List.forall_mem_cons.mpr ⟨hv, hrest'⟩⟩

/-- After a step it is the mode of the symbol. -/
theorem ready (hG : Guard d V G) {m₂ : Mode} (h : m₂ = m' ∨ (m' = .any ∧ m₂ ≠ .fresh)) (hc : G m₂ c) :
    G m' c := by
  rcases h with rfl | ⟨rfl, hm⟩
  · exact hc
  · exact hG.weaken hm hc

/-- A phrase that may come in a mode leads to its mode after it. -/
theorem compiles (hG : Guard d V G) (h : Derives d P) : ∀ {m m' before v c c'}, P.Fits V →
    Mode.after d P.symbol m = some m' → V before → G m c → P.Compiles before c v c' → G m' c' ∧ V v := by
  induction h with
  | @token s v hs =>
    intro m m' before w c c' hfits hm _ hc hP
    rw [symbol_token, Mode.after_token hs, Option.some.injEq] at hm
    rw [← hm, hP.1]
    exact ⟨hG.reports hP.2 hc, hfits (s, v) List.mem_cons_self⟩
  | @node rule parts hrule hsymbols hparts ih =>
    intro m m' before v c c' hfits hm hbefore hc hP
    obtain ⟨args, c₁, hall, hrun⟩ := compiles_node.mp hP
    obtain ⟨m₁, m₂, hm₁, hm₂, hready⟩ := Mode.after_rule hrule hm
    rw [← hsymbols] at hm₁
    obtain ⟨hc₁, hargs⟩ := hG.compilesAll_of (fun p hp _ _ _ _ _ _ => ih p hp (hfits.part hp)) hm₁ hbefore hc hall
    obtain ⟨hc', hv⟩ :=
      hG.step rule hrule hm₂ (hsymbols ▸ hall.values hparts) hbefore hargs hc₁ hrun
    exact ⟨hG.ready hready hc', hv⟩

/-- What is guarded from every state on holds after a phrase from every state of it on. -/
theorem onward {G : Compiler → Mode → Compiler → Prop} (hG : ∀ c₀, Guard d V (G c₀))
    (hself : ∀ {c₀ m c}, G c₀ m c → G c m c) (h : P.During before c c' v c'') :
    ∀ {m m' c₀}, Derives d P → P.Fits V →
      Mode.after d P.symbol m = some m' → V before → G c₀ m c → G c' m' c'' ∧ V v := by
  induction h with
  | done hsteps =>
    intro m m' c₀ hP hfits hm hbefore hc
    obtain ⟨hc', hv⟩ := (hG c₀).compiles hP hfits hm hbefore hc hsteps
    exact ⟨hself hc', hv⟩
  | @inside before v w rule ps qs p args args' c c₁ c' c₂ c₃ c'' hsteps hp hqs hrun ih =>
    intro m m' c₀ hP hfits hm hbefore hc
    have hall : CompilesAll before (ps ++ p :: qs) c (args ++ w :: args') c₃ :=
      compilesAll_append.mpr ⟨args, w :: args', c₁, rfl, hsteps,
        compilesAll_cons.mpr ⟨w, c₂, args', hp.compiles, hqs, rfl⟩⟩
    cases hP with
    | node hrule hsymbols hparts =>
      obtain ⟨m₁, m₂, hm₁, hm₂, hready⟩ := Mode.after_rule hrule hm
      rw [← hsymbols, List.map_append, Mode.afterAll_append] at hm₁
      obtain ⟨m₃, hm₃, hrest⟩ := Option.bind_eq_some_iff.mp hm₁
      rw [List.map_cons, Mode.afterAll_cons] at hrest
      obtain ⟨m₄, hm₄, hm₅⟩ := Option.bind_eq_some_iff.mp hrest
      have hps := fun q hq => hparts q (List.mem_append_left _ hq)
      have hqs' := fun q hq => hparts q (List.mem_append_right _ (List.mem_cons_of_mem p hq))
      obtain ⟨hc₁, hargs⟩ := (hG c₀).compilesAll_of (fun q hq _ _ _ _ _ _ =>
        (hG c₀).compiles (hps q hq) (hfits.part (List.mem_append_left _ hq))) hm₃ hbefore hc hsteps
      have hmem := List.mem_append_right ps (List.mem_cons_self (a := p) (l := qs))
      obtain ⟨hc₂, hw⟩ := ih (hparts _ hmem) (hfits.part hmem) hm₄ (lastOf_fits hbefore hargs) hc₁
      obtain ⟨hc₃, hargs'⟩ := (hG c').compilesAll_of (fun q hq _ _ _ _ _ _ => (hG c').compiles (hqs' q hq)
        (hfits.part (List.mem_append_right _ (List.mem_cons_of_mem p hq)))) hm₅ hw hc₂ hqs
      have hvalues : ∀ a ∈ args ++ w :: args', V a := fun a ha =>
        (List.mem_append.mp ha).elim (hargs a) (List.forall_mem_cons.mpr ⟨hw, hargs'⟩ a)
      obtain ⟨hc'', hv⟩ :=
        (hG c').step rule hrule hm₂ (hsymbols ▸ hall.values hparts) hbefore hvalues hc₃ hrun
      exact ⟨(hG c').ready hready hc'', hv⟩

theorem during (hG : Guard d V G) (h : P.During before c c' v c'') (hP : Derives d P) (hfits : P.Fits V)
    (hm : Mode.after d P.symbol m = some m') (hbefore : V before) (hc : G m c) : ∃ m', G m' c' := by
  -- that it has held in some state before is guarded as well
  have hheld : ∀ c₀, Guard d V fun m c => G m c ∧ ∃ m', G m' c₀ := fun c₀ => {
    weaken := fun hm hc => ⟨hG.weaken hm hc.1, hc.2⟩
    reports := fun hr hc => ⟨hG.reports hr hc.1, hc.2⟩
    step := fun rule hrule _ _ hm _ _ _ _ _ hvalues hbefore hargs hc hrun =>
      (hG.step rule hrule hm hvalues hbefore hargs hc.1 hrun).imp_left fun h => ⟨h, hc.2⟩ }
  exact (onward hheld (fun hc => ⟨hc.1, _, hc.1⟩) h hP hfits hm hbefore ⟨hc, m, hc⟩).1.2

end Guard

end QuadLang
