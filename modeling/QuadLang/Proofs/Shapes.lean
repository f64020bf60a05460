/-
The shapes of derivations.

Both dialects have the same rules for statements, functions and calls, up to the tokens in
them.  Here derivations are taken apart by these rules, whatever the dialect:

* `frames` — the rules that decide about control and calls, with the symbols of their right
  sides that are not tokens;
* `Phrase.Derives.frame` — a derivation of the symbol of such a rule is one of them;
* `Phrase.Derives.ordinary`, `Phrase.Derives.declaring` — the other symbols are those of
  expressions and simple statements, and those of declarations, each closed under taking
  parts.

Design notes: that the rules of the dialects are like this is checked once for all of them,
on numbers in the place of names (`Text.key_inj`).
-/
import QuadLang.Proofs.Effects

namespace QuadLang

variable {c c' : Compiler} {parts : List Phrase} {rule : DialectRule} {s : String}

namespace Text

theorem foldl_key_inj {xs ys : List UInt8} (h : xs.foldl (fun n b => 256 * n + b.toNat) 1 =
    ys.foldl (fun n b => 256 * n + b.toNat) 1) : xs = ys := by
  have hdigits : ∀ xs : List UInt8, Nat.digits 256 (xs.foldl (fun n b => 256 * n + b.toNat) 1) =
      (xs.map UInt8.toNat).reverse ++ [1] := by
    intro xs
    induction xs using List.reverseRecOn with
    | nil => simp
    | append_singleton xs b ih =>
      have hne : xs.foldl (fun n b => 256 * n + b.toNat) 1 ≠ 0 := fun h0 => by simp [h0] at ih
      rw [List.foldl_append, List.foldl_cons, List.foldl_nil, Nat.add_comm,
        Nat.digits_add 256 (by decide) _ _ b.toNat_lt (.inr hne), ih]
      simp
  have heq : (xs.map UInt8.toNat).reverse ++ [1] = (ys.map UInt8.toNat).reverse ++ [1] := by
    rw [← hdigits, ← hdigits, h]
  exact List.map_injective_iff.mpr (fun _ _ => UInt8.toNat_inj.mp)
    (List.reverse_injective (List.append_cancel_right heq))

/-- Different texts have different numbers. -/
theorem key_inj {t : String} (h : key s = key t) : s = t := by
  have hbytes : bytes s = bytes t := foldl_key_inj h
  rw [← String.toByteArray_inj]
  exact ByteArray.ext (Array.toList_inj.mp hbytes)

theorem mem_of_key_mem {l : List String} (h : key s ∈ l.map key) : s ∈ l := by
  obtain ⟨t, ht, hkey⟩ := List.mem_map.mp h
  exact key_inj hkey ▸ ht

end Text

/-- The rules that decide about control and calls, without their tokens: the name, the other
symbols of the right side, and the step. -/
def frames : List (String × List String × Step) := [
  ("program", ["found_program_name", "vars", "functions", "main", "body"], .finish),
  ("found_program_name", ["empty"], .begin),
  ("functions", ["func_type", "found_func_name", "func_dims", "func_params", "vars",
    "found_func_start", "body", "found_func_end", "functions"], .skip),
  ("functions", ["empty"], .skip),
  ("found_func_name", ["empty"], .beginFunction),
  ("found_func_start", ["empty"], .markStart),
  ("found_func_end", ["empty"], .endFunction),
  ("main", [], .beginMain),
  ("body", ["statements"], .skip),
  ("statements", ["statement", "statements"], .skip),
  ("statements", ["empty"], .skip),
  ("statement", ["assignment"], .skip),
  ("statement", ["call_func"], .skip),
  ("statement", ["return"], .skip),
  ("statement", ["read"], .skip),
  ("statement", ["print"], .skip),
  ("statement", ["if"], .skip),
  ("statement", ["from"], .skip),
  ("statement", ["while"], .skip),
  ("statement", ["break"], .skip),
  ("statement", ["empty"], .skip),
  ("return", ["expr"], .ret),
  ("if", ["expr", "found_if_expr", "body"], .endIf),
  ("if", ["expr", "found_if_expr", "body", "else"], .endIf),
  ("found_if_expr", ["empty"], .jumpIfFalse),
  ("else", ["found_else", "body"], .skip),
  ("found_else", ["empty"], .orElse),
  ("from", ["found_from_iterator", "expr", "found_from_start", "expr", "found_from_cond", "body"],
    .loopEnd),
  ("found_from_start", ["empty"], .loopStart),
  ("found_from_cond", ["empty"], .loopBound),
  ("while", ["found_while", "expr", "found_while_expr", "body"], .endLoop),
  ("found_while", ["empty"], .beginLoop),
  ("found_while_expr", ["empty"], .jumpIfFalse),
  ("break", [], .leave),
  ("call_func", ["found_call_func_name", "call_func_params", "found_call_func_end"],
    .callStatement),
  ("expr_call_func", ["found_call_func_name", "call_func_params", "found_call_func_end"],
    .callResult),
  ("found_call_func_name", ["empty"], .beginCall),
  ("call_func_params", ["call_func_param"], .skip),
  ("call_func_params", ["empty"], .skip),
  ("call_func_param", ["expr", "func_single_step", "call_func_param"], .skip),
  ("call_func_param", ["expr", "func_single_step"], .skip),
  ("func_single_step", ["empty"], .argument),
  ("found_call_func_end", ["empty"], .endCall),
  ("empty", [], .skip)]

/-- The symbols of the rules that decide about control and calls. -/
def frameNames : List String := frames.map (·.1)

/-- The symbols of declarations. -/
def declaringNames : List String := ["vars", "found_var", "var_declare", "var_name",
  "variable_declare", "var_dims", "type", "type_int", "type_float", "type_char", "type_bool",
  "func_type", "func_dims", "dim", "func_params", "func_param", "found_func_param", "param_dims"]

/-- A step of a declaration. -/
def Step.declaring : Step → Bool
  | .skip | .openTable | .declare | .reserve | .setType | .setVoid | .give _ | .returnDims | .size _ _
  | .param | .paramDims => true
  | _ => false

namespace Dialect

open Text

variable {d : Dialect}

/-- The check of the shapes of the rules. -/
def wellShaped (d : Dialect) : Bool :=
  let names := d.rules.map fun r => key r.name
  let frameKeys := frames.map fun f => (key f.1, f.2.1.map key, f.2.2)
  let framed := frameKeys.map (·.1)
  let declared := declaringNames.map key
  (framed.all names.contains) &&
  d.rules.all fun r =>
    let name := key r.name
    let inner := (r.symbols.map key).filter names.contains
    if framed.contains name then
      frameKeys.any fun f => f.1 == name && f.2.1 == inner && decide (f.2.2 = r.step)
    else if declared.contains name then
      r.step.declaring && inner.all fun s => declared.contains s || s == key "empty"
    else
      r.step.ordinary && inner.all fun s =>
        (!framed.contains s || s == key "expr_call_func" || s == key "empty") && !declared.contains s

theorem wellShaped_eq_true (d : Dialect) : d.wellShaped = true := by
  cases d <;> decide +kernel

/-- What the check says about one rule. -/
theorem shape_of_mem {r : DialectRule} (hr : r ∈ d.rules) :
    let inner := r.symbols.filter fun s => (d.rules.map (·.name)).contains s
    (r.name ∈ frameNames → (r.name, inner, r.step) ∈ frames) ∧
      (r.name ∉ frameNames → r.name ∈ declaringNames → r.step.declaring = true ∧
        ∀ s ∈ inner, s ∈ declaringNames ∨ s = "empty") ∧
      (r.name ∉ frameNames → r.name ∉ declaringNames → r.step.ordinary = true ∧
        ∀ s ∈ inner, ((s ∉ frameNames ∨ s = "expr_call_func") ∨ s = "empty") ∧ s ∉ declaringNames) := by
  have hinner : (r.symbols.map key).filter (d.rules.map fun r => key r.name).contains =
      (r.symbols.filter fun s => (d.rules.map (·.name)).contains s).map key := by
    rw [List.filter_map]
    congr 1
    refine List.filter_congr fun s _ => ?_
    rw [Bool.eq_iff_iff]
    show (d.rules.map fun r => key r.name).contains (key s) = true ↔ _
    rw [List.contains_iff_mem, List.contains_iff_mem]
    constructor
    · intro h
      exact mem_of_key_mem (by rwa [List.map_map])
    · intro h
      have := List.mem_map_of_mem (f := key) h
      rwa [List.map_map] at this
  have hmem : ∀ (s : String) (l : List String), (l.map key).contains (key s) = true ↔ s ∈ l := by
    intro s l
    rw [List.contains_iff_mem]
    exact ⟨mem_of_key_mem, List.mem_map_of_mem⟩
  have hframed : (frames.map fun f => (key f.1, f.2.1.map key, f.2.2)).map (·.1) =
      frameNames.map key := by
    rw [frameNames, List.map_map, List.map_map]
    rfl
  have hall := d.wellShaped_eq_true
  simp only [wellShaped, Bool.and_eq_true, List.all_eq_true, hframed] at hall
  have hrule := hall.2 r hr
  rw [hinner] at hrule
  generalize r.symbols.filter (fun s => (d.rules.map (·.name)).contains s) = inner at hrule ⊢
  by_cases hname : r.name ∈ frameNames
  · rw [if_pos ((hmem _ _).mpr hname), List.any_eq_true] at hrule
    obtain ⟨f, hf, heq⟩ := hrule
    obtain ⟨⟨name, symbols, step⟩, hframe, rfl⟩ := List.mem_map.mp hf
    simp only [Bool.and_eq_true, beq_iff_eq, decide_eq_true_eq] at heq
    obtain ⟨⟨hkey, hsymbols⟩, rfl⟩ := heq
    have hsame : symbols = inner := List.map_injective_iff.mpr (fun _ _ => key_inj) hsymbols
    refine ⟨fun _ => ?_, fun h => absurd hname h, fun h => absurd hname h⟩
    rw [← key_inj hkey, ← hsame]
    exact hframe
  · have hnot : ((frameNames.map key).contains (key r.name)) = false := by
      rw [Bool.eq_false_iff, Ne, hmem]
      exact hname
    rw [hnot] at hrule
    refine ⟨fun h => absurd h hname, fun _ hdecl => ?_, fun _ hdecl => ?_⟩
    · rw [(hmem _ _).mpr hdecl] at hrule
      simp only [Bool.false_eq_true, if_false, if_true, Bool.and_eq_true, List.all_eq_true] at hrule
      refine ⟨hrule.1, fun s hs => ?_⟩
      have := hrule.2 (key s) (List.mem_map_of_mem hs)
      rw [Bool.or_eq_true, hmem, beq_iff_eq] at this
      exact this.imp id key_inj
    · have hnot' : ((declaringNames.map key).contains (key r.name)) = false := by
        rw [Bool.eq_false_iff, Ne, hmem]
        exact hdecl
      rw [hnot'] at hrule
      simp only [Bool.false_eq_true, if_false, Bool.and_eq_true, List.all_eq_true] at hrule
      refine ⟨hrule.1, fun s hs => ?_⟩
      have := hrule.2 (key s) (List.mem_map_of_mem hs)
      simp only [Bool.or_eq_true, Bool.not_eq_true', Bool.eq_false_iff, Ne, hmem, beq_iff_eq] at this
      exact ⟨this.1.imp (Or.imp id key_inj) key_inj, this.2⟩

theorem mem_rules_of_mem_frameNames (h : s ∈ frameNames) : ∃ r ∈ d.rules, r.name = s := by
  have hall := d.wellShaped_eq_true
  simp only [wellShaped, Bool.and_eq_true, List.all_eq_true] at hall
  have hkey := hall.1 (key s) (by
    rw [List.map_map]
    obtain ⟨f, hf, rfl⟩ := List.mem_map.mp h
    exact List.mem_map_of_mem hf)
  rw [List.contains_iff_mem] at hkey
  obtain ⟨r, hr, heq⟩ := List.mem_map.mp hkey
  exact ⟨r, hr, key_inj heq⟩

end Dialect

/-! ### Derivations by their shapes -/

namespace Phrase

variable {d : Dialect} {P : Phrase} {name : String} {before v : Option Literal}

/-- Whether a phrase is no token. -/
def isNode : Phrase → Bool
  | .token _ _ => false
  | .node _ _ => true

/-- The phrases that are no tokens. -/
def inner (parts : List Phrase) : List Phrase := parts.filter isNode

theorem Derives.isNode_eq (h : Derives d P) :
    P.isNode = (d.rules.map (·.name)).contains P.symbol := by
  rw [Bool.eq_iff_iff, List.contains_iff_mem]
  cases h with
  | token v hs =>
    refine ⟨fun h => (by cases h), fun h => ?_⟩
    obtain ⟨r, hr, hname⟩ := List.mem_map.mp h
    exact absurd hname (hs r hr)
  | node hrule hsymbols hparts => exact ⟨fun _ => List.mem_map_of_mem hrule, fun _ => rfl⟩

theorem map_symbol_inner (h : ∀ p ∈ parts, Derives d p) :
    (inner parts).map symbol =
      (parts.map symbol).filter fun s => (d.rules.map (·.name)).contains s := by
  rw [inner, List.filter_map]
  exact congrArg (List.map symbol) (List.filter_congr fun p hp => (h p hp).isNode_eq)

/-- A derivation of a symbol that decides about control or calls. -/
theorem Derives.frame (h : Derives d P) (hs : P.symbol ∈ frameNames) :
    ∃ rule parts, P = .node rule parts ∧
      (rule.name, (inner parts).map symbol, rule.step) ∈ frames ∧ ∀ p ∈ parts, Derives d p := by
  cases h with
  | token v htoken =>
    obtain ⟨r, hr, hname⟩ := Dialect.mem_rules_of_mem_frameNames (d := d) hs
    exact absurd hname (htoken r hr)
  | @node rule parts hrule hsymbols hparts =>
    refine ⟨rule, parts, rfl, ?_, hparts⟩
    rw [map_symbol_inner hparts, hsymbols]
    exact (Dialect.shape_of_mem hrule).1 hs

/-- The right sides and steps of the rules for a symbol that decides about control or calls. -/
def framesOf (name : String) : List (List String × Step) :=
  (frames.filter (·.1 == name)).map (·.2)

/-- A derivation of such a symbol is by one of its rules. -/
theorem Derives.byFrame (h : Derives d P) (hs : P.symbol = name) (hname : name ∈ frameNames) :
    ∃ rule parts, P = .node rule parts ∧ rule.name = name ∧
      ((inner parts).map symbol, rule.step) ∈ framesOf name ∧ ∀ p ∈ inner parts, Derives d p := by
  subst hs
  obtain ⟨rule, parts, rfl, hframe, hparts⟩ := h.frame hname
  refine ⟨rule, parts, rfl, rfl, ?_, fun p hp => hparts p (List.mem_of_mem_filter hp)⟩
  exact List.mem_map.mpr ⟨_, List.mem_filter.mpr ⟨hframe, beq_self_eq_true _⟩, rfl⟩

/-- A symbol of an expression or of a simple statement. -/
def IsOrdinary (s : String) : Prop := s ∉ frameNames ∧ s ∉ declaringNames

/-- A derivation of an expression or of a simple statement. -/
theorem Derives.ordinary (h : Derives d (.node rule parts)) (hs : IsOrdinary rule.name) :
    rule.step.ordinary = true ∧ ∀ p ∈ inner parts, Derives d p ∧
      ((IsOrdinary p.symbol ∨ p.symbol = "expr_call_func") ∨ p.symbol = "empty") := by
  cases h with
  | node hrule hsymbols hparts =>
    obtain ⟨hstep, hinner⟩ := (Dialect.shape_of_mem hrule).2.2 hs.1 hs.2
    refine ⟨hstep, fun p hp => ⟨hparts p (List.mem_of_mem_filter hp), ?_⟩⟩
    have hmem : p.symbol ∈ (inner parts).map symbol := List.mem_map_of_mem hp
    rw [map_symbol_inner hparts, hsymbols] at hmem
    obtain ⟨hframe, hdecl⟩ := hinner _ hmem
    exact hframe.imp (Or.imp (fun hframe => ⟨hframe, hdecl⟩) id) id

/-- A derivation of a declaration. -/
theorem Derives.declaring (h : Derives d (.node rule parts)) (hs : rule.name ∈ declaringNames) :
    rule.step.declaring = true ∧ ∀ p ∈ inner parts, Derives d p ∧
      (p.symbol ∈ declaringNames ∨ p.symbol = "empty") := by
  have hnot : rule.name ∉ frameNames := fun hf => absurd hs
    ((show ∀ s ∈ frameNames, s ∉ declaringNames by decide) _ hf)
  cases h with
  | node hrule hsymbols hparts =>
    obtain ⟨hstep, hinner⟩ := (Dialect.shape_of_mem hrule).2.1 hnot hs
    refine ⟨hstep, fun p hp => ⟨hparts p (List.mem_of_mem_filter hp), ?_⟩⟩
    have hmem : p.symbol ∈ (inner parts).map symbol := List.mem_map_of_mem hp
    rw [map_symbol_inner hparts, hsymbols] at hmem
    exact hinner _ hmem

/-! ### Their steps -/

/-- The steps of phrases, one after the other, lead from `c` to `c'`; nothing is said about
values. -/
def Passes : List Phrase → Compiler → Compiler → Prop
  | [], c, c' => c.Reports c'
  | p :: ps, c, c' => ∃ before v c₁, p.Compiles before c v c₁ ∧ Passes ps c₁ c'

theorem Passes.after {ps : List Phrase} {c₀ : Compiler} (hr : c₀.Reports c) (h : Passes ps c c') :
    Passes ps c₀ c' := by
  cases ps with
  | nil => exact hr.trans h
  | cons p ps =>
    obtain ⟨before, v, c₁, hp, hps⟩ := h
    exact ⟨before, v, c₁, Compiles.after p hr hp, hps⟩

/-- Tokens do nothing. -/
theorem CompilesAll.passes {parts : List Phrase} {before : Option Literal} {c c' : Compiler}
    {args : List (Option Literal)} (h : CompilesAll before parts c args c') :
    Passes (inner parts) c c' := by
  induction parts generalizing before c args with
  | nil => exact h.2
  | cons p parts ih =>
    obtain ⟨v, c₁, rest, hp, hrest, -⟩ := compilesAll_cons.mp h
    have hpasses := ih hrest
    cases p with
    | token s value => exact hpasses.after hp.2
    | node rule ps => exact ⟨before, v, c₁, hp, hpasses⟩

/-- What every part does and what reports do, all parts do together. -/
theorem Passes.leads {R : Compiler → Compiler → Prop} (hr : ∀ {c c'}, c.Reports c' → R c c')
    (ht : ∀ {c c₁ c'}, R c c₁ → R c₁ c' → R c c') : ∀ {ps : List Phrase} {c c' : Compiler},
    (∀ p ∈ ps, ∀ {before v c c'}, p.Compiles before c v c' → R c c') → Passes ps c c' → R c c'
  | [], _, _, _, h => hr h
  | p :: _, _, _, hps, ⟨_, _, _, hp, hrest⟩ => ht (hps p List.mem_cons_self hp)
      (Passes.leads hr ht (fun q hq => hps q (List.mem_cons_of_mem p hq)) hrest)

/-- The steps of a node: those of its parts, then its own. -/
theorem Compiles.node (h : (Phrase.node rule parts).Compiles before c v c') :
    ∃ args c₁, Passes (inner parts) c c₁ ∧
      (Compile.perform before args rule.step).run c₁ = (.ok v, c') := by
  obtain ⟨args, c₁, hparts, hstep⟩ := compiles_node.mp h
  exact ⟨args, c₁, hparts.passes, hstep⟩

/-- A phrase of a symbol with a single rule is compiled by the parts and the step of that rule. -/
theorem Derives.only {symbols : List String} {step : Step} (h : Derives d P) (hs : P.symbol = name)
    (hframe : framesOf name = [(symbols, step)]) (hP : P.Compiles before c v c') :
    ∃ rule parts args c₁, P = .node rule parts ∧ rule.name = name ∧
      (inner parts).map symbol = symbols ∧ (∀ p ∈ inner parts, Derives d p) ∧ Passes (inner parts) c c₁ ∧
      (Compile.perform before args step).run c₁ = (.ok v, c') := by
  have hname : name ∈ frameNames := by
    have hmem : (symbols, step) ∈ framesOf name := hframe ▸ List.mem_cons_self
    obtain ⟨f, hf, -⟩ := List.mem_map.mp hmem
    obtain ⟨hf, heq⟩ := List.mem_filter.mp hf
    exact beq_iff_eq.mp heq ▸ List.mem_map_of_mem hf
  obtain ⟨rule, parts, rfl, hname, hmem, hparts⟩ := h.byFrame hs hname
  rw [hframe, List.mem_singleton, Prod.mk.injEq] at hmem
  obtain ⟨args, c₁, hpasses, hrun⟩ := hP.node
  exact ⟨rule, parts, args, c₁, rfl, hname, hmem.1, hparts, hpasses, hmem.2 ▸ hrun⟩

/-- The empty phrase does nothing. -/
theorem Derives.empty_reports (h : Derives d P) (hs : P.symbol = "empty")
    (hP : P.Compiles before c v c') : c.Reports c' := by
  obtain ⟨_, _, _, _, -, -, hsymbols, -, hpasses, hrun⟩ :=
    h.only hs (show framesOf _ = [([], .skip)] by decide) hP
  rw [List.map_eq_nil_iff.mp hsymbols] at hpasses
  cases hrun
  exact hpasses

end Phrase

end QuadLang
