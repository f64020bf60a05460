/-
Compiling ends.

Between two tokens the parser completes rules, among them many that derive nothing, and each
of them makes the stack grow.  Still it takes only so many steps for the tokens it has read.

* `Phrase.nodes` — the rules in a derivation, which is how many reductions it takes;
* `Phrase.Pruned` — a derivation without blank statements; in one with tokens there are at most
  40 rules for each of them, and in one without there are two (`Phrase.Pruned.nodes_le`);
* `Parsing.nodesAll_le` — derivations without tokens are few on the stack, since each of them
  lowers the rank of the state;
* `Parsing.Sparse.advance` — a step makes no blank statement, and it is a reduction or a shift
  unless it is the last;
* `compile_halts` — compiling ends after at most 45 steps for each piece of the source.

Design notes: a step adds a rule or a token to the derivations on the stack and takes none
away, so the number of steps is the size of these derivations (`Parsing.Sparse.steps`).
-/
import QuadLang.Proofs.Derivations
import QuadLang.Proofs.Numbering

namespace QuadLang

open Bits Numbers Lalr Dialect

variable {m n r : Nat} {q : Parsing} {d : Dialect} {g : Rules} {states : Array State} {st : State}
/-! ### The size of derivations -/

theorem Numbers.bare_le_two (G : Numbers) (s : Nat) : G.bare s ≤ 2 := by
  rw [bare]
  rcases Nat.beq s G.blank <;> rcases Nat.beq s G.one <;> rcases has G.nulls s <;> decide

namespace Dialect

variable {d : Dialect} {s : String}

theorem empty_mem_symbols (d : Dialect) : "empty" ∈ d.symbols := by
  obtain ⟨⟨r, hr, hname, -⟩, -⟩ := d.exists_list_rules
  exact hname ▸ mem_symbols_of_name hr

theorem statement_mem_symbols (d : Dialect) : "statement" ∈ d.symbols := by
  obtain ⟨-, -, r, hr, -, hsymbols⟩ := d.exists_list_rules
  exact mem_symbols_of_mem hr (hsymbols ▸ List.mem_cons_self)

theorem number_statement_ne (d : Dialect) : d.number "statement" ≠ d.number "empty" := fun h =>
  absurd (number_inj d.empty_mem_symbols h.symm) (by decide)

theorem bare_empty (d : Dialect) : d.numbers.bare (d.number "empty") = 1 := by
  have h : Nat.beq (d.number "empty") d.numbers.blank = true := Nat.beq_refl _
  rw [bare, h, cond_true]

theorem blank_empty (d : Dialect) : d.Blank "empty" :=
  has_nulls.mpr ⟨_, d.numbers_lists.2.1, rfl, fun t ht => by cases ht⟩

theorem blank_of_bare_pos (h : 0 < d.numbers.bare (d.number s)) : d.Blank s ∧ s ≠ "statement" := by
  rw [bare] at h
  rcases h₁ : Nat.beq (d.number s) d.numbers.blank with _ | _
  · rw [h₁, cond_false] at h
    rcases h₂ : Nat.beq (d.number s) d.numbers.one with _ | _
    · rw [h₂, cond_false] at h
      rcases h₃ : has d.numbers.nulls (d.number s) with _ | _
      · rw [h₃] at h
        cases h
      · exact ⟨h₃, fun heq => Nat.ne_of_beq_eq_false h₂ (congrArg d.number heq)⟩
    · rw [h₂] at h
      cases h
  · have heq : d.number s = d.number "empty" := Nat.eq_of_beq_eq_true h₁
    refine ⟨?_, fun hs => d.number_statement_ne (hs ▸ heq)⟩
    rw [Blank, heq]
    exact d.blank_empty

theorem bare_of_blank (h : d.Blank s) (hempty : s ≠ "empty") (hone : s ≠ "statement") :
    d.numbers.bare (d.number s) = 2 := by
  have h₁ : Nat.beq (d.number s) d.numbers.blank = false := by
    rw [Bool.eq_false_iff, Ne, Nat.beq_eq]
    exact fun heq => hempty (number_inj d.empty_mem_symbols heq.symm).symm
  have h₂ : Nat.beq (d.number s) d.numbers.one = false := by
    rw [Bool.eq_false_iff, Ne, Nat.beq_eq]
    exact fun heq => hone (number_inj d.statement_mem_symbols heq.symm).symm
  have h₃ : has d.numbers.nulls (d.number s) = true := h
  rw [bare, h₁, h₂, h₃]
  rfl

end Dialect

namespace Phrase

mutual

def nodes : Phrase → Nat
  | .token _ _ => 0
  | .node _ parts => nodesAll parts + 1

/-- The rules in derivations. -/
def nodesAll : List Phrase → Nat
  | [] => 0
  | p :: ps => p.nodes + nodesAll ps

end

@[simp] theorem nodes_token (s : String) (v : Literal) : (token s v).nodes = 0 := rfl

@[simp] theorem nodes_node (rule : DialectRule) (parts : List Phrase) :
    (node rule parts).nodes = nodesAll parts + 1 := rfl

@[simp] theorem nodesAll_nil : nodesAll [] = 0 := rfl

@[simp] theorem nodesAll_cons (p : Phrase) (ps : List Phrase) :
    nodesAll (p :: ps) = p.nodes + nodesAll ps := rfl

theorem nodesAll_append (ps qs : List Phrase) :
    nodesAll (ps ++ qs) = nodesAll ps + nodesAll qs := by
  induction ps with
  | nil => simp
  | cons p ps ih => simp [ih, Nat.add_assoc]

inductive Pruned : Phrase → Prop
  | token (s : String) (v : Literal) : Pruned (.token s v)
  | node {rule : DialectRule} {parts : List Phrase}
      (hrule : ¬(rule.name = "statement" ∧ rule.symbols = ["empty"]))
      (hparts : ∀ p ∈ parts, Pruned p) : Pruned (.node rule parts)

variable {d : Dialect} {p : Phrase}

/-- What is known of the size of a derivation: without tokens it is as small as can be, and
with tokens it is paid for by them. -/
structure Sized (d : Dialect) (p : Phrase) : Prop where
  bare : p.yield = [] → p.nodes ≤ d.numbers.bare (d.number p.symbol) ∧
    0 < d.numbers.bare (d.number p.symbol)
  heavy : p.yield ≠ [] →
    p.nodes + 40 ≤ field d.numbers.weights (d.number p.symbol) + 40 * p.yield.length

theorem bareAll_of_sized {ps : List Phrase} (h : ∀ p ∈ ps, p.Sized d) (hyield : yieldAll ps = []) :
    nodesAll ps ≤ d.numbers.bareAll (ps.map fun p => d.number p.symbol) ∧
      ∀ p ∈ ps, 0 < d.numbers.bare (d.number p.symbol) := by
  induction ps with
  | nil => exact ⟨Nat.le_refl 0, fun p hp => absurd hp List.not_mem_nil⟩
  | cons p ps ih =>
    obtain ⟨hp, hps⟩ := List.append_eq_nil_iff.mp hyield
    obtain ⟨hle, hpos⟩ := (h p List.mem_cons_self).bare hp
    obtain ⟨hle', hpos'⟩ := ih (fun q hq => h q (List.mem_cons_of_mem _ hq)) hps
    refine ⟨Nat.add_le_add hle hle', fun q hq => ?_⟩
    rcases List.mem_cons.mp hq with rfl | hq
    · exact hpos
    · exact hpos' q hq

/-- The tokens of derivations pay for their rules. -/
theorem heft_of_sized {ps : List Phrase} (h : ∀ p ∈ ps, p.Sized d) (hyield : yieldAll ps ≠ []) :
    nodesAll ps + 40 ≤ d.numbers.heft d.numbers.weights (ps.map fun p => d.number p.symbol) +
      40 * (yieldAll ps).length := by
  induction ps with
  | nil => exact absurd rfl hyield
  | cons p ps ih =>
    have hp := h p List.mem_cons_self
    have hps : ∀ q ∈ ps, q.Sized d := fun q hq => h q (List.mem_cons_of_mem _ hq)
    rw [List.map_cons, heft, nodesAll_cons, yieldAll_cons, List.length_append]
    by_cases hp₀ : p.yield = []
    · -- the first derives nothing
      obtain ⟨hle, hpos⟩ := hp.bare hp₀
      have hps₀ : yieldAll ps ≠ [] := fun hnil => hyield (by rw [yieldAll_cons, hp₀, hnil]; rfl)
      have htail := ih hps hps₀
      have hblt : Nat.blt 0 (d.numbers.bare (d.number p.symbol)) = true := Nat.blt_eq.mpr hpos
      rw [hp₀, hblt, cond_true, List.length_nil]
      omega
    · have hhead := hp.heavy hp₀
      by_cases hps₀ : yieldAll ps = []
      · -- the others derive nothing
        obtain ⟨hle, hpos⟩ := bareAll_of_sized hps hps₀
        have hall : (ps.map fun p => d.number p.symbol).all
            (fun t => Nat.blt 0 (d.numbers.bare t)) = true := by
          rw [List.all_eq_true]
          intro t ht
          obtain ⟨q, hq, rfl⟩ := List.mem_map.mp ht
          exact Nat.blt_eq.mpr (hpos q hq)
        rw [hps₀, hall, cond_true, List.length_nil]
        omega
      · have htail := ih hps hps₀
        omega

/-- Derivations without blank statements are small. -/
theorem Pruned.sized (hp : p.Pruned) (hd : p.Derives d) : p.Sized d := by
  induction hd with
  | @token s v hs =>
    refine ⟨fun hyield => (by cases hyield), fun _ => ?_⟩
    rw [nodes_token, yield_token, List.length_singleton]
    omega
  | @node rule parts hrule hsymbols hparts ih =>
    cases hp with
    | node hnot hpruned =>
    have hsized : ∀ p ∈ parts, p.Sized d := fun p hp => ih p hp (hpruned p hp)
    have hnumbers : parts.map (fun p => d.number p.symbol) = rule.symbols.map d.number := by
      rw [← hsymbols, List.map_map]
      rfl
    constructor
    · intro hyield
      obtain ⟨hle, hpos⟩ := bareAll_of_sized hsized hyield
      have hblank : ∀ s ∈ rule.symbols, d.Blank s ∧ s ≠ "statement" := by
        intro s hs
        rw [← hsymbols] at hs
        obtain ⟨p, hp, rfl⟩ := List.mem_map.mp hs
        exact blank_of_bare_pos (hpos p hp)
      rw [hnumbers] at hle
      rw [nodes_node, symbol_node]
      obtain ⟨hname, ⟨hnil, hempty⟩ | hone | hmany⟩ :=
        blank_of_forall hrule fun s hs => (hblank s hs).1
      · rw [hnil] at hle
        rw [hempty, bare_empty]
        exact ⟨Nat.succ_le_succ hle, Nat.one_pos⟩
      · have hne : rule.name ≠ "empty" := fun heq => by
          rw [symbols_of_empty hrule heq] at hone
          cases hone
        have hbare := bare_of_blank hname hne fun heq => hnot ⟨heq, hone⟩
        rw [hone] at hle
        have hle : nodesAll parts ≤ d.numbers.bare (d.number "empty") + 0 := hle
        rw [bare_empty] at hle
        rw [hbare]
        exact ⟨Nat.succ_le_succ hle, Nat.two_pos⟩
      · exact absurd rfl (hblank "statement" (hmany ▸ List.mem_cons_self)).2
    · intro hyield
      have hheft := heft_of_sized hsized hyield
      rw [hnumbers] at hheft
      rcases (d.numbers_fit _ (mem_numbered hrule)).2.2.2.2.2.2.2.1 with ⟨hone, hblank⟩ | hlt
      · exact absurd ⟨number_inj (mem_symbols_of_name hrule) hone,
          symbols_inj hrule hblank⟩ hnot
      · rw [nodes_node, symbol_node, yield_node]
        have hlt : d.numbers.heft d.numbers.weights (rule.symbols.map d.number) <
          field d.numbers.weights (d.number rule.name) := hlt
        omega

/-- There are few rules in a derivation without blank statements. -/
theorem Pruned.nodes_le (hp : p.Pruned) (hd : p.Derives d) :
    (p.yield = [] → p.nodes ≤ 2 ∧ d.Blank p.symbol ∧ p.symbol ≠ "statement") ∧
      (p.yield ≠ [] → p.nodes ≤ 40 * p.yield.length) := by
  have hsized := hp.sized hd
  constructor
  · intro hyield
    obtain ⟨hle, hpos⟩ := hsized.bare hyield
    exact ⟨hle.trans (bare_le_two _ _), blank_of_bare_pos hpos⟩
  · intro hyield
    have hheavy := hsized.heavy hyield
    cases hd with
    | token v hs => exact Nat.zero_le _
    | node hrule hsymbols hparts =>
      have hle := (d.numbers_fit _ (mem_numbered hrule)).2.2.2.2.2.2.2.2
      rw [symbol_node] at hheavy
      have hle : field d.numbers.weights (d.number _) ≤ 40 := hle
      omega

end Phrase

/-! ### The size of the stack -/

/-- Reading a token takes a piece. -/
theorem Scanner.Reads.length_le {s s' : Scanner} {ts : List Token} (h : Scanner.Reads s ts s') :
    ts.length + s'.pieces.length ≤ s.pieces.length := by
  induction h with
  | nil => exact Nat.le_of_eq (Nat.zero_add _)
  | @snoc s₁ s₂ ts t reports _ ht ih =>
    have hlt := ((scan_spec s₁.dialect ht).2.2 t rfl).1
    rw [List.length_append, List.length_singleton]
    omega

theorem Dialect.exists_coded (d : Dialect) : ∃ g, d.coded = some g := by
  obtain ⟨m, uses, -, hgrammar⟩ := d.exists_grammar
  rw [coded, hgrammar, Rules.ofGrammar?]
  exact ⟨_, rfl⟩

/-- No more than two nullable symbols come one after the other, members of lists apart. -/
theorem Dialect.rank_le_two (h : d.coded = some g) (hsound : Sound g states)
    (hst : states[n]? = some st) : rank g (code g "statement") st ≤ 2 := by
  refine Finset.sup_le fun i hi => ?_
  have hfits := hsound.fits hst (List.mem_toFinset.mp hi)
  obtain ⟨ss, hright, hss, hcases⟩ := exists_symbols (codes h) (hfits.rule_lt (regular h).size)
  rw [hfits.rest, hright, ← List.map_drop, slack_code h fun s hs => hss s (List.mem_of_mem_drop hs)]
  rcases hcases with ⟨-, rfl⟩ | ⟨m, rule, -, hrule, rfl⟩
  · have hone : ∀ s : Nat, slack d.numbers.nulls d.numbers.one [s] ≤ 1 := by
      intro s
      rw [slack, slack]
      split_ifs <;> decide
    rcases i.dot with _ | k
    · exact (hone _).trans (Nat.le_succ 1)
    · rw [List.drop_succ_cons, List.drop_nil]
      exact Nat.zero_le _
  · have htails := (d.numbers_fit _ (mem_numbered (List.mem_of_getElem? hrule))).2.2.2.2.2.1
    rw [List.map_drop]
    exact htails _ ((List.mem_tails _ _).mpr (List.drop_suffix _ _))

namespace Parsing

open Phrase

variable {d : Dialect} {g : Lalr.Rules} {rule : Nat} {c : Compiler} {p' : Parsing}

/-- The derivations on the stack are paid for by their tokens. -/
theorem nodesAll_le (h : d.coded = some g) (hc : Complete g states) {ps : List Phrase}
    (hd : ∀ q ∈ ps, q.Derives d) (hp : ∀ q ∈ ps, q.Pruned) (hs : ∀ q ∈ ps, q.symbol ∈ d.symbols)
    {ns : List Nat} (hpath : Path states (n :: ns) (ps.map fun q => code g q.symbol).reverse)
    (hst : states[n]? = some st) : nodesAll ps + 2 * rank g (code g "statement") st ≤
      44 * (yieldAll ps).length + 4 := by
  induction ps using List.reverseRecOn generalizing n ns st with
  | nil =>
    have := rank_le_two h hc.sound hst
    rw [nodesAll_nil]
    omega
  | append_singleton ps q ih =>
    rw [List.map_append, List.reverse_append] at hpath
    obtain ⟨m, ms, stm, rfl, hm, hmove, hpath⟩ := hpath.last_move
    have hrest := ih (fun q hq => hd q (List.mem_append_left _ hq))
      (fun q hq => hp q (List.mem_append_left _ hq)) (fun q hq => hs q (List.mem_append_left _ hq))
      hpath hm
    have hq : q ∈ ps ++ [q] := List.mem_append_right _ (List.mem_singleton_self q)
    obtain ⟨hbare, hheavy⟩ := (hp q hq).nodes_le (hd q hq)
    rw [nodesAll_append, nodesAll_cons, nodesAll_nil, yieldAll_append, yieldAll_cons, yieldAll_nil,
      List.length_append, List.append_nil]
    by_cases hyield : q.yield = []
    · -- a move over a symbol that derives nothing lowers the rank
      obtain ⟨hle, hblank, hne⟩ := hbare hyield
      have hnull := (mem_nullable_iff h (hs q hq)).mpr hblank
      have hlt := (rank_move (lists h).fits hc hm hmove hst hnull).2 fun heq =>
        hne (code_inj (codes h) (hs q hq) d.statement_mem_symbols heq)
      rw [hyield, List.length_nil]
      omega
    · have hle := hheavy hyield
      have hrank := rank_le_two h hc.sound hst
      have hpos : 0 < q.yield.length := List.length_pos_iff.mpr hyield
      omega

/-! ### Steps -/

/-- The step of a rule that the parser completes fails. -/
def StepFails (d : Dialect) (t : Lalr.Tables) (p : Parsing) (rule : Nat) (fault : CompileFault)
    (c : Compiler) : Prop :=
  (Compile.perform (((p.stack.drop (t.rules.right rule).length).head?.map (·.2)).join)
    ((p.stack.take (t.rules.right rule).length).reverse.map (·.2)) (d.stepOf rule)).run p.compiler =
      (.error fault, c)

/-- The parser completes a rule, whatever comes or because of the next token. -/
def Completes (t : Lalr.Tables) (p q : Parsing) (rule : Nat) : Prop :=
  t.defaulted? p.state = some rule ∧ q = p ∨ t.defaulted? p.state = none ∧
    ∃ a, p.look t = (q, .ok a) ∧ t.action? q.state a.code = some (.reduce rule)

/-- The ways in which the parser ends: it accepts, a token fits nowhere, a numeral cannot be
read, or the step of a rule fails. -/
inductive Ends (d : Dialect) (t : Lalr.Tables) (p : Parsing) :
    Parsing → Option CompileFault → Prop
  | accepted {q : Parsing} {a : Ahead} (hdefault : t.defaulted? p.state = none)
      (hlook : p.look t = (q, .ok a)) (haction : t.action? q.state a.code = some .accept) :
      Ends d t p q none
  | misfit {q : Parsing} {a : Ahead} (hdefault : t.defaulted? p.state = none)
      (hlook : p.look t = (q, .ok a))
      (haction : t.action? q.state a.code = some .refuse ∨ t.action? q.state a.code = none) :
      Ends d t p q (some (misfit a.token))
  | unread {q : Parsing} {fault : CompileFault} (hdefault : t.defaulted? p.state = none)
      (hlook : p.look t = (q, .error fault)) : Ends d t p q (some fault)
  | raised {q : Parsing} {rule : Nat} {fault : CompileFault} {c : Compiler}
      (hrule : p.Completes t q rule) (hfails : q.StepFails d t rule fault c) :
      Ends d t p { q with compiler := c, stack := q.stack.drop (t.rules.right rule).length }
        (some fault)

/-- A step that puts the next token on the stack. -/
def Shifts (t : Lalr.Tables) (p p' : Parsing) : Prop :=
  t.defaulted? p.state = none ∧ ∃ q a target, p.look t = (q, .ok a) ∧
    t.action? q.state a.code = some (.shift target) ∧
    p' = { q with ahead := none, stack := (target, a.token.map (·.value)) :: q.stack }

/-- A step that completes a rule. -/
def Reduces (d : Dialect) (t : Lalr.Tables) (p p' : Parsing) : Prop :=
  ∃ q rule, p.Completes t q rule ∧ q.reduce d t rule = .more p'

/-- A number of shifts and of reductions leads from one place of the parser to another. -/
inductive Runs (d : Dialect) (t : Lalr.Tables) (p : Parsing) : Nat → Nat → Parsing → Prop
  | refl : Runs d t p 0 0 p
  | shift {m n : Nat} {q q' : Parsing} (h : Runs d t p m n q) (hq : q.Shifts t q') :
      Runs d t p (m + 1) n q'
  | reduce {m n : Nat} {q q' : Parsing} (h : Runs d t p m n q) (hq : q.Reduces d t q') :
      Runs d t p m (n + 1) q'

variable {t : Lalr.Tables} {p : Parsing}

theorem reduce_of_stepFails {fault : CompileFault} (h : p.StepFails d t rule fault c) :
    p.reduce d t rule =
      .failed { p with compiler := c, stack := p.stack.drop (t.rules.right rule).length } fault := by
  rw [Parsing.reduce, StepFails] at *
  simp only [h]

theorem reduce_of_goto {target : Nat} {value : Option Literal}
    (h : (Compile.perform (((p.stack.drop (t.rules.right rule).length).head?.map (·.2)).join)
      ((p.stack.take (t.rules.right rule).length).reverse.map (·.2)) (d.stepOf rule)).run p.compiler =
        (.ok value, c))
    (hgoto : t.goto? (((p.stack.drop (t.rules.right rule).length).head?.map (·.1)).getD 0)
      (t.rules.left rule) = some target) : p.reduce d t rule = .more { p with
      compiler := c, stack := (target, value) :: p.stack.drop (t.rules.right rule).length } := by
  rw [Parsing.reduce]
  simp only [h, state, hgoto]

theorem Ends.advances {fault : Option CompileFault} (h : Ends d t p q fault) (n : Nat) :
    p.advances d t (n + 1) = (q, fault) := by
  rw [Parsing.advances, Parsing.advance]
  cases h with
  | accepted hdefault hlook haction => simp only [hdefault, hlook, haction]
  | misfit hdefault hlook haction =>
    rcases haction with haction | haction <;> simp only [hdefault, hlook, haction]
  | unread hdefault hlook => simp only [hdefault, hlook]
  | raised hrule hfails =>
    rcases hrule with ⟨hdefault, rfl⟩ | ⟨hdefault, a, hlook, haction⟩
    · simp only [hdefault, reduce_of_stepFails hfails]
    · simp only [hdefault, hlook, haction, reduce_of_stepFails hfails]

theorem Shifts.advance (h : p.Shifts t p') : p.advance d t = .more p' := by
  obtain ⟨hdefault, q, a, target, hlook, haction, rfl⟩ := h
  rw [Parsing.advance]
  simp only [hdefault, hlook, haction]

theorem Reduces.advance (h : p.Reduces d t p') : p.advance d t = .more p' := by
  obtain ⟨q, rule, ⟨hdefault, rfl⟩ | ⟨hdefault, a, hlook, haction⟩, hmore⟩ := h
  · rw [Parsing.advance]
    simp only [hdefault, hmore]
  · rw [Parsing.advance]
    simp only [hdefault, hlook, haction, hmore]

theorem Runs.advances (h : Runs d t p m n q) : ∀ k : Nat,
    p.advances d t (m + n + k) = q.advances d t k := by
  induction h with
  | refl => exact fun k => by rw [Nat.zero_add]
  | @shift m n _ _ _ hq ih =>
    intro k
    rw [show m + 1 + n + k = m + n + (k + 1) by omega, ih (k + 1), Parsing.advances, hq.advance]
  | @reduce m n _ _ _ hq ih =>
    intro k
    rw [show m + (n + 1) + k = m + n + (k + 1) by omega, ih (k + 1), Parsing.advances, hq.advance]

/-- What holds of a parser that began before `scanner`: there are derivations without blank
statements on its stack.  Where a list of statements could go on below an `empty` on top, the
token to come was read before and decided against it. -/
structure Sparse (d : Dialect) (g : Lalr.Rules) (scanner : Scanner) (c₀ : Compiler)
    (ps : List Phrase) (tokens : List Token) (p : Parsing) : Prop where
  follows : Follows d g scanner c₀ ps tokens p
  pruned : ∀ q ∈ ps, q.Pruned
  settled : ∀ {ps₁ : List Phrase} {q : Phrase}, ps = ps₁ ++ [q] → q.symbol = "empty" →
    ∀ {m : Nat} {st : Lalr.State} {i : Lalr.Item}, (p.stack.map (·.1))[1]? = some m →
      (Lalr.Tables.build g).states[m]? = some st → i ∈ st.items →
      i.next? = some (Dialect.code g "statements") → ∃ a e, p.ahead = some a ∧
        e ∈ g.rulesOf (Dialect.code g "empty") ∧
        (Lalr.Tables.build g).action? m a.code = some (.reduce e)

/-- The parser completes a rule, whatever comes or because of what comes. -/
def Chooses (t : Lalr.Tables) (p : Parsing) (r : Nat) : Prop :=
  t.defaulted? p.state = some r ∨
    ∃ a, p.ahead = some a ∧ t.action? p.state a.code = some (.reduce r)

theorem Chooses.justified (h : Chooses (.build g) p r) :
    ∃ st s, (Tables.build g).states[p.state]? = some st ∧
      Justified g st s (.reduce r) := by
  rcases h with h | ⟨a, -, h⟩
  · exact Tables.justified_of_defaulted? h
  · obtain ⟨st, hst, hj⟩ := Tables.justified_of_action? h
    exact ⟨st, a.code, hst, hj⟩

namespace Sparse

variable {scanner : Scanner} {c₀ : Compiler} {ps : List Phrase} {tokens : List Token}
  (hg : d.coded = some g) (h : Sparse d g scanner c₀ ps tokens p) {a : Ahead}

include hg h

/-- A rule that is completed was begun below its symbols. -/
theorem begun (hst : (Tables.build g).states[p.state]? = some st) {s : Nat}
    (hr : Justified g st s (.reduce r)) : ∃ m st',
      (p.stack.map (·.1))[(g.right r).length]? = some m ∧
        (Tables.build g).states[m]? = some st' ∧ r ≠ 0 ∧ r < g.rules.size ∧
        Item.initial g r ∈ st'.items := by
  have hc := Tables.complete_states (regular hg)
  obtain ⟨hr0, i, hi, rfl, hrest⟩ := hr
  obtain ⟨below, hbelow⟩ := h.follows.stack_eq
  have hfits := hc.sound.fits hst hi
  obtain ⟨m, st', hm, hst', hinit⟩ := h.follows.path.initial hc hbelow hst i hi
  rw [hfits.dot_eq hrest] at hm
  exact ⟨m, st', hm, hst', hr0, hfits.rule hr0, hinit⟩

/-- No blank statement is completed. -/
theorem not_blank {k : Nat} {rule : DialectRule} (hr : Chooses (.build g) p r) (hk : r = k + 1)
    (hrule : d.rules[k]? = some rule) {ps₁ ps₂ : List Phrase} (hps : ps = ps₁ ++ ps₂)
    (hsymbols : ps₂.map symbol = rule.symbols) :
    ¬(rule.name = "statement" ∧ rule.symbols = ["empty"]) := by
  rintro ⟨hname, hempty⟩
  have hlists := lists hg
  have hc := Tables.complete_states hlists.regular
  have hcodes := codes hg
  subst hk
  have hleft : g.left (k + 1) = code g "statement" := by rw [hcodes.left k rule hrule, hname]
  have hright : g.right (k + 1) = [code g "empty"] := by
    rw [hcodes.right k rule hrule, hempty]
    rfl
  obtain ⟨st, s, hst, hj⟩ := hr.justified
  obtain ⟨m, st', hm, hst', hr0, hlt, hinit⟩ := h.begun hg hst hj
  -- below, a list of statements can go on
  obtain ⟨j, hjmem, hjnext⟩ := hc.exists_next hst' hr0 hinit
  rw [hleft] at hjnext
  obtain ⟨hjleft, -, hjinit, hj0, -⟩ := hlists.item_of_one hc hst' hjmem hjnext
  obtain ⟨i, hi, hinext⟩ := hc.exists_next hst' hj0 (hjinit ▸ hjmem)
  rw [hjleft] at hinext
  -- `empty` is on top
  rw [hempty] at hsymbols
  obtain ⟨q, rest, rfl, hq, hrest⟩ := List.map_eq_cons_iff.mp hsymbols
  rw [List.map_eq_nil_iff.mp hrest] at hps
  rw [hright] at hm
  obtain ⟨a, e, hahead, he, haction⟩ := h.settled hps hq hm hst' hi hinext
  have hmove : (code g "empty", p.state) ∈ st'.moves := by
    obtain ⟨below, hbelow⟩ := h.follows.stack_eq
    have hpath := h.follows.path
    rw [hps, List.map_append, List.reverse_append, hbelow] at hpath
    obtain ⟨m', ms, stm, rfl, hstm, hmove, -⟩ := hpath.last_move
    rw [hbelow] at hm
    cases hm
    cases hst'.symm.trans hstm
    exact hq ▸ hmove
  obtain ⟨hne, hdefault⟩ := hlists.action?_after_blank hst' hi hinext he haction hmove
    (Rules.mem_rulesOf.mpr ⟨hlt, hr0, hleft⟩) hright
  rcases hr with hr | ⟨b, hb, hr⟩
  · exact hdefault hr
  · cases hahead.symm.trans hb
    exact hne hr

/-- Completing a rule is a step, unless the step of the rule fails. -/
theorem reduce (hr : Chooses (.build g) p r) :
    (∃ p' ps', p.reduce d (.build g) r = .more p' ∧ nodesAll ps' = nodesAll ps + 1 ∧
      Sparse d g scanner c₀ ps' tokens p') ∨ ∃ fault c, p.StepFails d (.build g) r fault c := by
  have hlists := lists hg
  have hc := Tables.complete_states hlists.regular
  have hcodes := codes hg
  obtain ⟨st, s, hst, hj⟩ := hr.justified
  rcases hperform : (Compile.perform
    (((p.stack.drop (g.right r).length).head?.map (·.2)).join)
    ((p.stack.take (g.right r).length).reverse.map (·.2)) (d.stepOf r)).run p.compiler with
    ⟨fault | value, c⟩
  · exact .inr ⟨fault, c, hperform⟩
  refine .inl ?_
  -- the state below goes on with the symbol of the rule
  obtain ⟨m, st', hm, hst', hr0, hlt, hinit⟩ := h.begun hg hst hj
  obtain ⟨i, hi, hnext⟩ := hc.exists_next hst' hr0 hinit
  obtain ⟨target, -, hgoto⟩ := Tables.goto?_eq hlists.regular (hlists.readsApart hc) hst' hi hnext
    (hlists.regular.left r hr0 hlt)
  have hstate : ((p.stack.drop (g.right r).length).head?.map (·.1)).getD 0 = m := by
    rw [List.head?_drop, ← List.getElem?_map, hm]
    rfl
  have hmore := reduce_of_goto (t := .build g) hperform (hstate.symm ▸ hgoto)
  obtain ⟨k, rule, ps₁, ps₂, hk, hrule, hps, hsymbols, hfollows⟩ := h.follows.reduce hcodes hst hj hmore
  refine ⟨_, _, hmore, ?_, hfollows, ?_, ?_⟩
  · rw [hps, nodesAll_append, nodesAll_append, nodesAll_cons, nodesAll_nil, nodes_node]
    omega
  · intro q hq
    rcases List.mem_append.mp hq with hq | hq
    · exact h.pruned q (hps ▸ List.mem_append_left _ hq)
    · rw [List.mem_singleton.mp hq]
      exact .node (h.not_blank hg hr hk hrule hps hsymbols) fun q hq =>
        h.pruned q (hps ▸ List.mem_append_right _ hq)
  · intro qs q hqs hq m' st' j hm' hst' hjmem hmany
    obtain ⟨-, hqs⟩ := List.append_inj' hqs rfl
    obtain rfl : .node rule ps₂ = q := List.singleton_inj.mp hqs
    have hnil := symbols_of_empty (List.mem_of_getElem? hrule) hq
    subst hk
    have hright : (Tables.build g).rules.right (k + 1) = [] := by
      rw [Tables.rules_build, hcodes.right k rule hrule, hnil]
      rfl
    have hleft : g.left (k + 1) = code g "empty" := by rw [hcodes.left k rule hrule]; exact congrArg _ hq
    obtain ⟨below, hbelow⟩ := h.follows.stack_eq
    have hm' : (p.stack.map (·.1))[0]? = some m' := by
      rw [hright] at hm'
      exact hm'
    rw [hbelow] at hm'
    obtain rfl : p.state = m' := Option.some.inj hm'
    rcases hr with hr | ⟨a, hahead, haction⟩
    · rw [hlists.defaulted?_eq_none hst' hjmem hmany] at hr
      cases hr
    · exact ⟨a, k + 1, hahead, Rules.mem_rulesOf.mpr ⟨hlt, hr0, hleft⟩, haction⟩

omit hg in
/-- Reading the next token, unless one has been read. -/
theorem look (hlook : p.look (.build g) = (q, .ok a)) :
    Sparse d g scanner c₀ ps tokens q ∧ q.stack = p.stack ∧ q.ahead = some a := by
  obtain ⟨hfollows, hstack, hahead⟩ := h.follows.look (Tables.rules_build g) hlook
  refine ⟨⟨hfollows, h.pruned, ?_⟩, hstack, hahead⟩
  intro ps₁ q' hps hq m st i hm hst hi hnext
  rw [hstack] at hm
  obtain ⟨b, e, hb, he, haction⟩ := h.settled hps hq hm hst hi hnext
  have hsame : q.ahead = p.ahead := by
    rw [Parsing.look, hb] at hlook
    cases hlook
    rfl
  exact ⟨b, e, hsame.trans hb, he, haction⟩

/-- A shift puts a token on the stack. -/
theorem shift (ha : p.ahead = some a) {target : Nat}
    (haction : (Tables.build g).action? p.state a.code = some (.shift target)) :
    ∃ ps' tokens', nodesAll ps' = nodesAll ps ∧ tokens'.length = tokens.length + 1 ∧
      Sparse d g scanner c₀ ps' tokens'
        { p with ahead := none, stack := (target, a.token.map (·.value)) :: p.stack } := by
  obtain ⟨s, t, hleaf, hfollows⟩ := h.follows.shift (codes hg) ha haction
  refine ⟨_, _, ?_, List.length_append, hfollows, ?_, ?_⟩
  · rw [nodesAll_append, nodesAll_cons, nodesAll_nil, nodes_token]
    omega
  · intro q hq
    rcases List.mem_append.mp hq with hq | hq
    · exact h.pruned q hq
    · rw [List.mem_singleton.mp hq]
      exact .token s t.value
  · -- a token is not `empty`
    intro ps₁ q hps hq
    obtain ⟨-, hps⟩ := List.append_inj' hps rfl
    rw [← List.singleton_inj.mp hps] at hq
    obtain ⟨⟨r, hr, hname, -⟩, -⟩ := d.exists_list_rules
    exact absurd (hname.trans hq.symm) (hleaf r hr)

theorem advance : (∃ p', p.Shifts (.build g) p') ∨ (∃ p', p.Reduces d (.build g) p') ∨
    ∃ q fault, Ends d (.build g) p q fault := by
  have hcompletes : ∀ {q r}, Sparse d g scanner c₀ ps tokens q → Chooses (.build g) q r →
      p.Completes (.build g) q r → (∃ p', p.Reduces d (.build g) p') ∨
        ∃ q fault, Ends d (.build g) p q fault := by
    intro q r hq hr hrule
    rcases hq.reduce hg hr with ⟨p', -, hmore, -⟩ | ⟨fault, c, hfails⟩
    · exact .inl ⟨p', q, r, hrule, hmore⟩
    · exact .inr ⟨_, some fault, .raised hrule hfails⟩
  rcases hdefault : (Tables.build g).defaulted? p.state with _ | r
  · rcases hlook : p.look (.build g) with ⟨q, fault | a⟩
    · exact .inr (.inr ⟨q, some fault, .unread hdefault hlook⟩)
    obtain ⟨hq, hstack, hahead⟩ := h.look hlook
    rcases haction : (Tables.build g).action? q.state a.code with _ | action
    · exact .inr (.inr ⟨q, _, .misfit hdefault hlook (.inr haction)⟩)
    cases action with
    | shift target => exact .inl ⟨_, hdefault, q, a, target, hlook, haction, rfl⟩
    | reduce r =>
      exact .inr (hcompletes hq (.inr ⟨a, hahead, haction⟩) (.inr ⟨hdefault, a, hlook, haction⟩))
    | accept => exact .inr (.inr ⟨q, none, .accepted hdefault hlook haction⟩)
    | refuse => exact .inr (.inr ⟨q, _, .misfit hdefault hlook (.inl haction)⟩)
  · exact .inr (hcompletes h (.inl hdefault) (.inl ⟨hdefault, rfl⟩))

/-- The reductions are paid for by the tokens. -/
theorem nodesAll_le : nodesAll ps ≤ 44 * tokens.length + 4 := by
  have hc := Tables.complete_states (regular hg)
  obtain ⟨below, hbelow⟩ := h.follows.stack_eq
  have hpath := h.follows.path
  rw [hbelow] at hpath
  obtain ⟨st, -, hst, -⟩ := hpath.exists_item hc
  have hnodes := Parsing.nodesAll_le hg hc h.follows.derives h.pruned h.follows.symbols hpath hst
  have hlength := congrArg List.length h.follows.yield
  rw [List.length_map, List.length_map] at hlength
  omega

end Sparse

variable {scanner : Scanner} {c₀ : Compiler}

/-- What a run of the parser keeps: the derivations on the stack have as many rules as there
were reductions and as many tokens as there were shifts. -/
theorem Runs.sparse (hg : d.coded = some g) (hd : scanner.dialect = d) (hs : scanner.Tidy)
    (h : Runs d (.build g) (start scanner c₀) m n q) :
    ∃ ps tokens, Sparse d g scanner c₀ ps tokens q ∧ nodesAll ps = n ∧ tokens.length = m := by
  induction h with
  | refl =>
    refine ⟨[], [], ⟨follows_start hd hs c₀, fun q hq => absurd hq List.not_mem_nil, ?_⟩, rfl, rfl⟩
    intro ps₁ q hps
    exact absurd hps (List.append_ne_nil_of_right_ne_nil _ (List.cons_ne_nil _ _)).symm
  | shift _ hq ih =>
    obtain ⟨ps, tokens, h, hnodes, hlength⟩ := ih
    obtain ⟨-, q₁, a, target, hlook, haction, rfl⟩ := hq
    obtain ⟨h₁, -, hahead⟩ := h.look hlook
    obtain ⟨ps', tokens', hnodes', hlength', h'⟩ := h₁.shift hg hahead haction
    exact ⟨ps', tokens', h', hnodes'.trans hnodes, by rw [hlength', hlength]⟩
  | reduce _ hq ih =>
    obtain ⟨ps, tokens, h, hnodes, hlength⟩ := ih
    obtain ⟨q₁, r, hrule, hmore⟩ := hq
    obtain ⟨h₁, hr⟩ : Sparse d g scanner c₀ ps tokens q₁ ∧ Chooses (.build g) q₁ r := by
      rcases hrule with ⟨hdefault, rfl⟩ | ⟨-, a, hlook, haction⟩
      · exact ⟨h, .inl hdefault⟩
      · obtain ⟨h₁, -, hahead⟩ := h.look hlook
        exact ⟨h₁, .inr ⟨a, hahead, haction⟩⟩
    rcases h₁.reduce hg hr with ⟨p', ps', hmore', hnodes', h'⟩ | ⟨fault, c, hfails⟩
    · cases hmore.symm.trans hmore'
      exact ⟨ps', tokens, h', by rw [hnodes', hnodes], hlength⟩
    · rw [reduce_of_stepFails hfails] at hmore
      cases hmore

/-- No more tokens are read than there are pieces. -/
theorem Follows.length_le {ps : List Phrase} {tokens : List Token}
    (h : Follows d g scanner c₀ ps tokens p) : tokens.length ≤ scanner.pieces.length := by
  have hstands := h.stands
  rw [Stands] at hstands
  rcases hahead : p.ahead with _ | ⟨code, _ | t⟩
  · rw [hahead] at hstands
    exact Nat.le_of_add_right_le hstands.length_le
  · rw [hahead] at hstands
    obtain ⟨-, s, hreads, -⟩ := hstands
    exact Nat.le_of_add_right_le hreads.length_le
  · rw [hahead] at hstands
    have hle := hstands.2.2.length_le
    rw [List.length_append] at hle
    omega

/-- The number of reductions and of shifts in a run. -/
theorem Runs.le (hg : d.coded = some g) (hd : scanner.dialect = d) (hs : scanner.Tidy)
    (h : Runs d (.build g) (start scanner c₀) m n q) :
    n ≤ 44 * m + 4 ∧ m ≤ scanner.pieces.length := by
  obtain ⟨ps, tokens, hsparse, rfl, rfl⟩ := h.sparse hg hd hs
  exact ⟨hsparse.nodesAll_le hg, hsparse.follows.length_le⟩

/-- A run that is long enough has come to its end. -/
theorem exists_ends (hg : d.coded = some g) (hd : scanner.dialect = d) (hs : scanner.Tidy)
    (c₀ : Compiler) :
    ∃ m n p q fault, Runs d (.build g) (start scanner c₀) m n p ∧ Ends d (.build g) p q fault := by
  -- otherwise every run could be prolonged
  by_contra hno
  have hlong : ∀ k, ∃ m n p, m + n = k ∧ Runs d (.build g) (start scanner c₀) m n p := by
    intro k
    induction k with
    | zero => exact ⟨0, 0, _, rfl, .refl⟩
    | succ k ih =>
      obtain ⟨m, n, p, rfl, hrun⟩ := ih
      obtain ⟨ps, tokens, hsparse, -, -⟩ := hrun.sparse hg hd hs
      rcases hsparse.advance hg with ⟨p', hshift⟩ | ⟨p', hreduce⟩ | ⟨q, fault, hends⟩
      · exact ⟨m + 1, n, p', by omega, hrun.shift hshift⟩
      · exact ⟨m, n + 1, p', by omega, hrun.reduce hreduce⟩
      · exact absurd ⟨m, n, p, q, fault, hrun, hends⟩ hno
  obtain ⟨m, n, p, hk, hrun⟩ := hlong (45 * scanner.pieces.length + 5)
  obtain ⟨hn, hm⟩ := hrun.le hg hd hs
  omega

end Parsing

theorem Dialect.tables_eq_build (hg : d.coded = some g) : d.tables = .build g := by
  rw [tables_eq, makeTables, hg]

/-- Where the parser ends is what compiling gives. -/
theorem Parsing.Ends.compile {scanner : Scanner} (hs : scanner.Tidy) {c₀ : Compiler}
    (hg : scanner.dialect.coded = some g) {p : Parsing} {fault : Option CompileFault}
    (hrun : Runs scanner.dialect (.build g) (start scanner c₀) m n p)
    (hends : Ends scanner.dialect (.build g) p q fault) : compile scanner c₀ = (q, fault) := by
  obtain ⟨hn, hm⟩ := hrun.le hg rfl hs
  obtain ⟨k, hk⟩ : ∃ k, stepLimit scanner.pieces.length = m + n + (k + 1) := by
    have hle : m + n + 1 ≤ stepLimit scanner.pieces.length := by
      rw [stepLimit]
      have hpos : 0 < scanner.pieces.length + 2 := Nat.succ_pos _
      have hmul := Nat.le_mul_of_pos_right (1000 * (scanner.pieces.length + 2)) hpos
      omega
    exact ⟨_, (Nat.add_sub_of_le hle).symm.trans (Nat.add_right_comm _ _ _).symm⟩
  rw [QuadLang.compile, tables_eq_build hg, hk, hrun.advances, hends.advances]

/-- Compiling ends: a run of the parser shifts every token at most once and makes at most 44
reductions for each shift and four more, and it comes to accept, or to a token that fits
nowhere, a numeral that cannot be read or a step that fails.  This is what compiling gives. -/
theorem compile_halts {scanner : Scanner} (hs : scanner.Tidy) (c₀ : Compiler) :
    (∀ m n p, Parsing.Runs scanner.dialect scanner.dialect.tables (.start scanner c₀) m n p →
      n ≤ 44 * m + 4 ∧ m ≤ scanner.pieces.length) ∧
    ∃ m n p q fault, Parsing.Runs scanner.dialect scanner.dialect.tables (.start scanner c₀) m n p ∧
      Parsing.Ends scanner.dialect scanner.dialect.tables p q fault ∧
      compile scanner c₀ = (q, fault) := by
  obtain ⟨g, hg⟩ := scanner.dialect.exists_coded
  rw [Dialect.tables_eq_build hg]
  refine ⟨fun m n p hrun => hrun.le hg rfl hs, ?_⟩
  obtain ⟨m, n, p, q, fault, hrun, hends⟩ := Parsing.exists_ends hg rfl hs c₀
  exact ⟨m, n, p, q, fault, hrun, hends, hends.compile hs hg hrun⟩

/-- A source whose lists, of statements, parameters and declarations, are all blank. -/
theorem compile_halts_blank_lists :
    (Scanner.ofSource .plain 1 "Program p; main() \x7b while (true) do \x7b \x7d f(); \x7d").Tidy ∧
    ∃ m n p q fault, Parsing.Runs .plain Dialect.plain.tables (.start (.ofSource .plain 1
        "Program p; main() \x7b while (true) do \x7b \x7d f(); \x7d") (.start false "")) m n p ∧
      Parsing.Ends .plain Dialect.plain.tables p q fault ∧ compile (.ofSource .plain 1
        "Program p; main() \x7b while (true) do \x7b \x7d f(); \x7d") (.start false "") = (q, fault) :=
  ⟨Scanner.tidy_ofSource .plain 1 _, (compile_halts (Scanner.tidy_ofSource .plain 1 _) _).2⟩

end QuadLang
