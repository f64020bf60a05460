/-
The quads of assignments.

An assignment puts its variable on the stack of operands and `=` on that of operators,
compiles the expression, and then makes a quad from the two operands:

* `Dialect.assignmentPhrase` — an assignment of an expression to a variable without
  indexes, as a phrase of either dialect;
* `Formula.assigns` — compiling it makes the quads of the expression and one more, or
  two when the variable is an array.
-/
import QuadLang.Proofs.Emission

namespace QuadLang

namespace Dialect

/-- An assignment to a variable. -/
def assignmentPhrase (d : Dialect) (name : String) (e : Phrase) : Phrase :=
  match d with
  | .plain => .node ⟨"assignment", ["expr_var", "'='", "found_expr_duo_op", "expr",
        "found_assignment_end", "';'"], .skip⟩
      [.ofVariable name, .token "'='" (.text "="), .mark "found_expr_duo_op" .pushOperator, e,
        .mark "found_assignment_end" .assign, .token "';'" (.text ";")]
  | .goose => .node ⟨"assignment", ["expr_var", "AM", "found_assignment_op", "found_expr_duo_op",
        "expr", "found_assignment_end", "HONK"], .skip⟩
      [.ofVariable name, .token "AM" (.text "AM"), .mark "found_assignment_op" (.give "="),
        .mark "found_expr_duo_op" .pushOperator, e, .mark "found_assignment_end" .assign,
        .token "HONK" (.text "HONK")]

end Dialect

namespace Phrase

/-- An assignment is a phrase of the grammar when its expression is. -/
theorem valid_assignmentPhrase {d : Dialect} {e : Phrase} (h : Valid d e) (hs : e.symbol = "expr")
    (name : String) : Valid d (d.assignmentPhrase name e) := by
  have hmem : ∀ p ∈ [ofVariable name, mark "found_expr_duo_op" .pushOperator, e], Valid d p := by
    simp only [List.mem_cons, List.not_mem_nil, or_false, forall_eq_or_imp, forall_eq]
    exact ⟨valid_ofVariable d name, valid_mark (mem_rules d (by simp)), h⟩
  cases d with
  | plain =>
    refine .node ?_ (by simp [mark, ofVariable, hs]) ?_
    · decide +kernel
    · simp only [List.mem_cons, List.not_mem_nil, or_false, forall_eq_or_imp, forall_eq] at hmem ⊢
      exact ⟨hmem.1, .token _ _, hmem.2.1, hmem.2.2, valid_mark (by decide +kernel), .token _ _⟩
  | goose =>
    refine .node ?_ (by simp [mark, ofVariable, hs]) ?_
    · decide +kernel
    · simp only [List.mem_cons, List.not_mem_nil, or_false, forall_eq_or_imp, forall_eq] at hmem ⊢
      exact ⟨hmem.1, .token _ _, valid_mark (by decide +kernel), hmem.2.1, hmem.2.2,
        valid_mark (by decide +kernel), .token _ _⟩

theorem run_assignmentPhrase (d : Dialect) (name : String) (e : Phrase) (before : Option Literal) :
    (d.assignmentPhrase name e).run before = (do
      let v ← Compile.variableOf name
      Compile.setNamed (some v.name)
      Compile.pushVariable v
      Compile.pushOperator "="
      let _ ← e.run none
      Compile.addAssign
      return none) := by
  cases d <;> simp [Dialect.assignmentPhrase, run_mark, run_ofVariable, Compile.wordOf]

end Phrase

/-- The quads of an assignment. -/
def assignQuads (dims : List Int) (source target : Int) : List Quad :=
  shapeQuads dims ++ [[.text "=", .number source, .none, .number target]]

namespace Compile

/-- An assignment takes the two top operands. -/
theorem run_addAssign {x y : Literal} {a b : Int} {ta tb : Ty} {t : Scalar} {waiting : List String}
    {rest : List Operand} {dims : List Int} {c : Compiler} (hops : c.operators = "=" :: waiting)
    (hargs : c.operands = ⟨y, .cell b, tb, dims⟩ :: ⟨x, .cell a, ta, dims⟩ :: rest)
    (ht : ta.combine tb "=" = some t) (hdims : dims.length ≤ 2) :
    ∃ c', addAssign.run c = (.ok (), c') ∧ c'.quads = c.quads ++ (assignQuads dims b a).toArray ∧
      c'.constants = c.constants ∧ c'.space = c.space := by
  obtain ⟨p, hoperands⟩ := run_operands hops hargs ht hdims fun left right op _ =>
    emit op (.address right.address) .none (.address left.address)
  obtain ⟨p', hemit⟩ := run_emit "=" (.number b) .none (.number a) { c with
    operands := rest
    operators := waiting
    quads := c.quads ++ (shapeQuads dims).toArray
    printed := p }
  refine ⟨_, hoperands.trans hemit, ?_, rfl, rfl⟩
  simp only [assignQuads, ← List.append_toArray, ← Array.append_assoc]
  simp

end Compile

/-- Compiling an assignment makes the quads of the expression, and those of the assignment. -/
theorem Formula.assigns (d : Dialect) {dims : List Int} (hdims : dims.length ≤ 2) (e : Formula 4)
    {name : String} {v : Variable} {s t : Scalar} {c c' : Compiler} {r : Option Literal}
    (htyped : c.ConstantsTyped) (hv : c.lookup? name = some v) (hvdims : v.dims = dims)
    (hs : e.tree.type? (c.leafType? dims) = some s) (ht : v.type.combine (.of s) "=" = some t)
    (before : Option Literal)
    (hrun : ((d.assignmentPhrase name (.expr (e.phrase d))).run before).run c = (.ok r, c')) :
    ∃ at_ : Leaf → Int, (∀ name v, c.lookup? name = some v → at_ (.var name) = v.address) ∧
      c'.quads = c.quads ++ (e.tree.quads at_ dims c.space.temps ++
        assignQuads dims (e.tree.address at_ c.space.temps) v.address).toArray ∧
      c'.space.temps = e.tree.slots c.space.temps := by
  rw [Phrase.run_assignmentPhrase, Steps.run_bind_ok (Compile.run_variableOf hv)] at hrun
  let x : Operand := ⟨.text v.name, .cell v.address, v.type, v.dims⟩
  let c₁ : Compiler := { c with
    named := some v.name, operands := x :: c.operands, operators := "=" :: c.operators }
  have hclear : c₁.Clear 4 := by
    rintro w hw
    cases hw
    exact Level.notMem_words (.inr rfl)
  have hbegin : ((Phrase.expr (e.phrase d)).run none >>= fun _ => do
      Compile.addAssign
      return none).run c₁ = (.ok r, c') := hrun
  rw [Phrase.run_expr] at hbegin
  rcases e.emits d hdims (Nat.le_refl 4) (c := c₁) htyped hclear hs none with
    ⟨type, scope, c₂, hfull⟩ | ⟨c₂, hok, hemits⟩
  · rw [bind_assoc, Steps.run_bind_error hfull] at hbegin
    cases hbegin
  · rw [bind_assoc, Steps.run_bind_ok hok] at hbegin
    obtain ⟨y, hy⟩ := hemits.operands
    have hargs : c₂.operands = ⟨y, .cell (e.tree.address c₂.addressOf c.space.temps), .of s, dims⟩ ::
        ⟨.text v.name, .cell v.address, v.type, dims⟩ :: c.operands := by
      rw [hy, ← hvdims]
    obtain ⟨c₃, hassign, hquads, hconstants, hspace⟩ :=
      Compile.run_addAssign hemits.operators hargs ht hdims
    have hlast : (do Compile.addAssign; return none : Compile (Option Literal)).run c₂
        = (.ok none, c₃) := Steps.run_bind_ok hassign
    obtain rfl : c₃ = c' := congrArg Prod.snd (hlast.symm.trans hbegin)
    refine ⟨c₂.addressOf, ?_, ?_, ?_⟩
    · intro name v hv
      rw [Compiler.addressOf, Compiler.address?, hemits.grows.lookup?,
        show c₁.lookup? name = some v from hv]
      rfl
    · rw [hquads, hemits.quads, ← List.append_toArray, Array.append_assoc]
    · rw [hspace, hemits.temps]

end QuadLang
