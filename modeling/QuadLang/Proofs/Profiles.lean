/-
Profiles of the stacks.

The steps of the compiler push and pop its stacks out of step with each other: the iterator of a loop
stays on the stack of operands through the whole body, and calls and indexes leave marks among the
operators.  Here it is said what is known of the stacks before what makes code, and what after it.

* `Profile` — what a phrase has put on the stacks: how many operands and calls, operators of which
  levels, jumps of which kinds, accesses with how many indexes;
* `Profile.Over` — a state has this on top of the stacks of another, which are as they were;
* `Compile.sure_addOperation` and so on — the profiles before and after what makes code.

Design notes: an operator is looked at before it is taken, and it may be one that was there before.  So
a profile also has a bound (`floor`) for the level of the operator below.  A `break` adds to the list on
top of the stack of breaks, so that stack is as it was up to this (`Grown`).
-/
import QuadLang.Proofs.Stacks

namespace QuadLang

variable {d l : Nat} {j : Int}

/-- The operators of a level, those that bind loosest first. -/
def operatorsOf : Nat → List String
  | 1 => ["&", "|"]
  | 2 => ["==", "!=", "<", "<=", ">", ">="]
  | 3 => ["+", "-"]
  | 4 => ["*", "/", "%", "."]
  | _ => []

/-- The level of an operator; marks and assignments have none. -/
def operatorLevel (op : String) : Nat := ([1, 2, 3, 4].find? fun l => (operatorsOf l).contains op).getD 0

/-- What is known of an open jump. -/
inductive JumpKind where
  /-- The jump to the main part. -/
  | main
  /-- A jump forward, to be completed. -/
  | forth
  /-- The place to which a loop goes back. -/
  | back
deriving DecidableEq

/-- The number on the stack is such a jump, in code of `n` quads. -/
def JumpKind.Holds (n : Nat) (j : Int) : JumpKind → Prop
  | .main => j = 0 ∧ 0 < n
  | .forth => 0 ≤ j ∧ j < n
  | .back => True

theorem JumpKind.Holds.mono {n n' : Nat} {k : JumpKind} (h : k.Holds n j) (hn : n ≤ n') :
    k.Holds n' j := by
  cases k with
  | main => exact ⟨h.1, Nat.lt_of_lt_of_le h.2 hn⟩
  | forth => exact ⟨h.1, by have := h.2; omega⟩
  | back => trivial

/-- What is known of the stacks, from some state on. -/
structure Profile where
  /-- The number of operands. -/
  operands : Nat
  /-- The levels of the operators, top first. -/
  operators : List Nat
  /-- The open jumps, top first. -/
  jumps : List JumpKind
  /-- The number of loops. -/
  breaks : Nat
  /-- The number of calls. -/
  calls : Nat
  /-- The numbers of indexes of the accesses, top first. -/
  accesses : List Nat
  /-- The operator below is not of a higher level. -/
  floor : Nat
  /-- Nothing is below. -/
  whole : Bool
  /-- Names mean what they meant, and no break was added. -/
  still : Bool
deriving DecidableEq

/-- A list of breaks, with breaks added to the list on top. -/
def Grown (bs bs' : List (List Int)) : Prop :=
  bs' = bs ∨ ∃ first more rest, bs = first :: rest ∧ bs' = (first ++ more) :: rest

namespace Grown

variable {bs bs₁ bs₂ : List (List Int)}

theorem refl (bs : List (List Int)) : Grown bs bs := .inl rfl

theorem trans (h : Grown bs bs₁) (h' : Grown bs₁ bs₂) : Grown bs bs₂ := by
  rcases h with rfl | ⟨first, more, rest, rfl, rfl⟩
  · exact h'
  · rcases h' with rfl | ⟨first', more', rest', heq, rfl⟩
    · exact .inr ⟨first, more, rest, rfl, rfl⟩
    · cases heq
      exact .inr ⟨first, more ++ more', rest, rfl, by rw [List.append_assoc]⟩

theorem eq_nil (h : Grown [] bs) : bs = [] := by
  rcases h with rfl | ⟨_, _, _, heq, -⟩
  · rfl
  · cases heq

/-- Either the upper part of the stack grows, or there is none. -/
theorem of_append {xs rest : List (List Int)} (h : Grown (xs ++ rest) bs) :
    ∃ xs' rest', bs = xs' ++ rest' ∧ xs'.length = xs.length ∧ Grown rest rest' ∧ (xs ≠ [] → rest' = rest) := by
  rcases h with rfl | ⟨first, more, below, heq, rfl⟩
  · exact ⟨xs, rest, rfl, rfl, refl rest, fun _ => rfl⟩
  · rcases xs with _ | ⟨x, xs⟩
    · exact ⟨[], _, rfl, rfl, .inr ⟨first, more, below, heq, rfl⟩, fun h => absurd rfl h⟩
    · cases heq
      exact ⟨(first ++ more) :: xs, rest, rfl, rfl, refl rest, fun _ => rfl⟩

end Grown

namespace Compiler

variable {c : Compiler}

/-- The array of a name has at least `n` dimensions, as far as that matters to its indexes. -/
def Indexed (c : Compiler) (name : Option String) (n : Nat) : Prop :=
  n = 0 ∨ ∃ v, c.lookup? (name.getD "") = some v ∧ n ≤ v.dims.length

theorem SameNames.indexed {c' : Compiler} (h : c.SameNames c') {name : Option String} {n : Nat}
    (hc : c.Indexed name n) : c'.Indexed name n := by
  rwa [Indexed, h.lookup?]

theorem Flat.length_dims (h : c.Flat) {name : String} {v : Variable} (hv : c.lookup? name = some v)
    : v.dims.length ≤ 2 := by
  have htable : ∀ {m t}, c.table? m = some t → t.get? name = some v → v.dims.length ≤ 2 := by
    intro m t ht hv
    obtain ⟨g, hg, hdeclared⟩ := Option.bind_eq_some_iff.1 ht
    obtain ⟨m, rfl, hg⟩ := Option.bind_eq_some_iff.1 hg
    exact h (m, g) (Table.mem_of_get? hg) t hdeclared (name, v) (Table.mem_of_get? hv)
  rw [lookup?] at hv
  rcases ht : c.table? c.currentName with _ | t <;> simp only [ht, reduceCtorEq] at hv
  rcases hlocal : t.get? name with _ | v' <;> simp only [hlocal] at hv
  · obtain ⟨t', ht', hv⟩ := Option.bind_eq_some_iff.1 hv
    exact htable ht' hv
  · cases hv
    exact htable ht hlocal

end Compiler

/-- The state `c` has what the profile says on top of the stacks of `F`. -/
structure Profile.Over (σ : Profile) (F c : Compiler) : Prop where
  operands : ∃ xs, c.operands = xs ++ F.operands ∧ xs.length = σ.operands
  operators : ∃ xs, c.operators = xs ++ F.operators ∧ xs.map operatorLevel = σ.operators
  jumps : ∃ xs, c.jumps = xs ++ F.jumps ∧ List.Forall₂ (fun k j => JumpKind.Holds c.quads.size j k) σ.jumps xs
  breaks : ∃ xs rest, c.breaks = xs ++ rest ∧ xs.length = σ.breaks ∧ Grown F.breaks rest ∧
    (σ.still = true → rest = F.breaks)
  calls : ∃ xs, c.calls = xs ++ F.calls ∧ xs.length = σ.calls
  accesses : ∃ xs, c.accesses = xs ++ F.accesses ∧
    List.Forall₂ (fun (n : Nat) (a : Option String × Int) => a.2 = n ∧ c.Indexed a.1 n) σ.accesses xs
  floor : ∀ w ∈ F.operators.head?, operatorLevel w ≤ σ.floor
  whole : σ.whole = true → F.operands = [] ∧ F.operators = [] ∧ F.jumps = [] ∧ F.breaks = [] ∧ F.calls = [] ∧
    F.accesses = []
  still : σ.still = true → F.SameNames c
  size : F.quads.size ≤ c.quads.size
  flat : c.Flat
  broken : ∀ bs ∈ c.breaks, ∀ j ∈ bs, 0 ≤ j ∧ j < c.quads.size

namespace Profile

variable {σ : Profile} {F c c' : Compiler}

theorem broken_rests (hc : c.Rests c') (h : ∀ bs ∈ c.breaks, ∀ j ∈ bs, 0 ≤ j ∧ j < c.quads.size) :
    ∀ bs ∈ c'.breaks, ∀ j ∈ bs, 0 ≤ j ∧ j < c'.quads.size := by
  intro bs hbs j hj
  rw [hc.breaks] at hbs
  have hsize := hc.size
  have hj := h bs hbs j hj
  omega

/-- The stacks stay, and so does what is known of the accesses and the names. -/
theorem Over.rests (h : σ.Over F c) (hc : c.Rests c')
    (ha : ∀ (n : Nat) (a : Option String × Int), n ∈ σ.accesses → c.Indexed a.1 n → c'.Indexed a.1 n)
    (hs : σ.still = true → c.SameNames c') (hflat : c'.Flat) : σ.Over F c' where
  operands := by rw [hc.operands]; exact h.operands
  operators := by rw [hc.operators]; exact h.operators
  jumps := by
    obtain ⟨xs, hxs, hkinds⟩ := h.jumps
    exact ⟨xs, hc.jumps.trans hxs, hkinds.imp fun _ _ hk => hk.mono hc.size⟩
  breaks := by rw [hc.breaks]; exact h.breaks
  calls := by rw [hc.calls]; exact h.calls
  accesses := by
    obtain ⟨xs, hxs, hdepths⟩ := h.accesses
    refine ⟨xs, hc.accesses.trans hxs, ?_⟩
    clear hxs
    generalize σ.accesses = ns at ha hdepths
    induction hdepths with
    | nil => exact .nil
    | cons hd _ ih =>
      exact .cons ⟨hd.1, ha _ _ List.mem_cons_self hd.2⟩ (ih fun n a hn => ha n a (List.mem_cons_of_mem _ hn))
  floor := h.floor
  whole := h.whole
  still hs' := (h.still hs').trans (hs hs')
  size := Nat.le_trans h.size hc.size
  flat := hflat
  broken := broken_rests hc h.broken

theorem Over.calmly (h : σ.Over F c) (hc : c.Calmly c') : σ.Over F c' :=
  h.rests hc.1 (fun _ _ _ => hc.2.indexed) (fun _ => hc.2) (hc.tamely.2 h.flat)

theorem Over.tamely (h : σ.Over F c) (hc : c.Tamely c') (hs : σ.still = false) (ha : σ.accesses = []) :
    σ.Over F c' :=
  h.rests hc.1 (fun _ _ hn => by rw [ha] at hn; cases hn) (fun hs' => by rw [hs] at hs'; cases hs') (hc.2 h.flat)

/-- It can be forgotten that names keep their meaning. -/
theorem Over.forget (h : σ.Over F c) : Over { σ with still := false } F c where
  __ := h
  breaks := by
    obtain ⟨xs, rest, hxs, hlength, hgrown, -⟩ := h.breaks
    exact ⟨xs, rest, hxs, hlength, hgrown, fun hs => by cases hs⟩
  still hs := by cases hs

end Profile

namespace Compile

open Profile

section

variable {α : Type} {σ : Profile} {F : Compiler} {x : Compile α} {I : Compiler → Prop}

theorem Calm.keeps (h : Calm x) (hI : ∀ c c', I c → c.Calmly c' → I c') : Sure I x fun _ => I :=
  ⟨fun c _ _ hc hrun => hI c _ hc ((h c).carries rfl hrun), fun c _ _ _ hrun => (h c).fault rfl hrun⟩

theorem Calm.over (h : Calm x) : Sure (σ.Over F) x fun _ => σ.Over F := h.keeps fun _ _ => Over.calmly

theorem Tame.over (h : Tame x) (hs : σ.still = false) (ha : σ.accesses = []) : Sure (σ.Over F) x fun _ => σ.Over F :=
  ⟨fun c _ _ hc hrun => hc.tamely ((h c).carries rfl hrun) hs ha, fun c _ _ _ hrun => (h c).fault rfl hrun⟩

/-- A stack that has something on top. -/
theorem sure_pop {β : Type} {stack : Compiler → List β} {put : Compiler → List β → Compiler}
    {J : β → Compiler → Prop} (h : ∀ c, I c → ∃ y rest, stack c = y :: rest ∧ J y (put c rest)) :
    Sure I (pop stack put) J := by
  refine sure_get_bind fun c hc => ?_
  obtain ⟨y, rest, hstack, hJ⟩ := h c hc
  rw [hstack]
  exact .bind (J := fun _ => J y) (sure_set hJ) fun _ => sure_pure fun _ => id

end

/-! ### The stacks themselves -/

section

variable {F : Compiler} {n b k f m : Nat} {ls as : List Nat} {js : List JumpKind} {w s : Bool}
  (op name : String) {σ : Profile} {I : Compiler → Prop} {ops : List String}

theorem sure_popOperand : Sure (Over ⟨n + 1, ls, js, b, k, as, f, w, s⟩ F) popOperand fun _ =>
    Over ⟨n, ls, js, b, k, as, f, w, s⟩ F := by
  refine sure_pop fun c h => ?_
  obtain ⟨_ | ⟨o, xs⟩, hxs, hlength⟩ := h.operands
  · cases hlength
  · exact ⟨o, xs ++ F.operands, hxs, { h with operands := ⟨xs, rfl, Nat.succ.inj hlength⟩ }⟩

theorem sure_pushOperand (o : Operand) : Sure (Over ⟨n, ls, js, b, k, as, f, w, s⟩ F) (pushOperand o) fun _ =>
    Over ⟨n + 1, ls, js, b, k, as, f, w, s⟩ F := by
  refine sure_modify fun c h => ?_
  obtain ⟨xs, hxs, hlength⟩ := h.operands
  exact { h with operands := ⟨o :: xs, congrArg (o :: ·) hxs, congrArg (· + 1) hlength⟩ }

theorem sure_popOperator : Sure (Over ⟨n, l :: ls, js, b, k, as, f, w, s⟩ F) popOperator fun _ =>
    Over ⟨n, ls, js, b, k, as, f, w, s⟩ F := by
  refine sure_pop fun c h => ?_
  obtain ⟨_ | ⟨op, xs⟩, hxs, hlevels⟩ := h.operators
  · cases hlevels
  · exact ⟨op, xs ++ F.operators, hxs, { h with operators := ⟨xs, rfl, (List.cons.inj hlevels).2⟩ }⟩

/-- The operator that was pushed is the one on top. -/
theorem sure_pushOperator :
    Sure (Over ⟨n, ls, js, b, k, as, f, w, s⟩ F) (pushOperator op) fun _ c =>
    Over ⟨n, operatorLevel op :: ls, js, b, k, as, f, w, s⟩ F c ∧ c.operators.head? = some op := by
  refine sure_modify fun c h => ⟨?_, rfl⟩
  obtain ⟨xs, hxs, hlevels⟩ := h.operators
  exact { h with operators := ⟨op :: xs, congrArg (op :: ·) hxs, congrArg (operatorLevel op :: ·) hlevels⟩ }

theorem sure_popJump {κ : JumpKind} : Sure (Over ⟨n, ls, κ :: js, b, k, as, f, w, s⟩ F) popJump fun j c =>
    Over ⟨n, ls, js, b, k, as, f, w, s⟩ F c ∧ κ.Holds c.quads.size j := by
  refine sure_pop fun c h => ?_
  obtain ⟨_ | ⟨j, xs⟩, hxs, hkinds⟩ := h.jumps
  · cases hkinds
  · obtain ⟨hj, hkinds⟩ := List.forall₂_cons.1 hkinds
    exact ⟨j, xs ++ F.jumps, hxs, { h with jumps := ⟨xs, rfl, hkinds⟩ }, hj⟩

theorem sure_pushJump (κ : JumpKind) : Sure (fun c => Over ⟨n, ls, js, b, k, as, f, w, s⟩ F c ∧
    κ.Holds c.quads.size j) (pushJump j) fun _ => Over ⟨n, ls, κ :: js, b, k, as, f, w, s⟩ F := by
  refine sure_modify fun c h => ?_
  obtain ⟨xs, hxs, hkinds⟩ := h.1.jumps
  exact { h.1 with jumps := ⟨j :: xs, congrArg (j :: ·) hxs, .cons h.2 hkinds⟩ }

/-- The breaks of a loop are numbers of quads. -/
theorem sure_popBreaks : Sure (Over ⟨n, ls, js, b + 1, k, as, f, w, s⟩ F) popBreaks fun bs c =>
    Over ⟨n, ls, js, b, k, as, f, w, s⟩ F c ∧ ∀ j ∈ bs, 0 ≤ j ∧ j < c.quads.size := by
  refine sure_pop fun c h => ?_
  obtain ⟨_ | ⟨bs, xs⟩, rest, hxs, hlength, hgrown, hstill⟩ := h.breaks
  · cases hlength
  · have hbroken := h.broken
    rw [hxs] at hbroken
    refine ⟨bs, xs ++ rest, hxs, ?_, hbroken bs List.mem_cons_self⟩
    exact { h with
      breaks := ⟨xs, rest, rfl, Nat.succ.inj hlength, hgrown, hstill⟩
      broken := fun bs' hbs' => hbroken bs' (List.mem_cons_of_mem bs hbs') }

theorem sure_pushBreaks : Sure (Over ⟨n, ls, js, b, k, as, f, w, s⟩ F)
    (modify fun c => { c with breaks := [] :: c.breaks }) fun _ => Over ⟨n, ls, js, b + 1, k, as, f, w, s⟩ F := by
  refine sure_modify fun c h => ?_
  obtain ⟨xs, rest, hxs, hlength, hgrown, hstill⟩ := h.breaks
  refine { h with
    breaks := ⟨[] :: xs, rest, congrArg ([] :: ·) hxs, congrArg (· + 1) hlength, hgrown, hstill⟩
    broken := fun bs hbs j hj => ?_ }
  rcases List.mem_cons.1 hbs with rfl | hbs
  · exact absurd hj List.not_mem_nil
  · exact h.broken bs hbs j hj

theorem sure_popCall : Sure (Over ⟨n, ls, js, b, k + 1, as, f, w, s⟩ F) popCall fun _ =>
    Over ⟨n, ls, js, b, k, as, f, w, s⟩ F := by
  refine sure_pop fun c h => ?_
  obtain ⟨_ | ⟨name, xs⟩, hxs, hlength⟩ := h.calls
  · cases hlength
  · exact ⟨name, xs ++ F.calls, hxs, { h with calls := ⟨xs, rfl, Nat.succ.inj hlength⟩ }⟩

theorem sure_pushCall : Sure (Over ⟨n, ls, js, b, k, as, f, w, s⟩ F)
    (modify fun c => { c with calls := name :: c.calls }) fun _ => Over ⟨n, ls, js, b, k + 1, as, f, w, s⟩ F := by
  refine sure_modify fun c h => ?_
  obtain ⟨xs, hxs, hlength⟩ := h.calls
  exact { h with calls := ⟨name :: xs, congrArg (name :: ·) hxs, congrArg (· + 1) hlength⟩ }

theorem sure_topCall : Sure (Over ⟨n, ls, js, b, k + 1, as, f, w, s⟩ F) topCall fun _ =>
    Over ⟨n, ls, js, b, k + 1, as, f, w, s⟩ F := by
  refine sure_get_bind fun c h => ?_
  obtain ⟨_ | ⟨name, xs⟩, hxs, hlength⟩ := h.calls
  · cases hlength
  · rw [hxs]
    exact sure_pure fun _ hc => hc ▸ h

theorem sure_topOperand : Sure (Over ⟨n + 1, ls, js, b, k, as, f, w, s⟩ F) topOperand fun _ =>
    Over ⟨n + 1, ls, js, b, k, as, f, w, s⟩ F := by
  refine sure_get_bind fun c h => ?_
  obtain ⟨_ | ⟨o, xs⟩, hxs, hlength⟩ := h.operands
  · cases hlength
  · rw [hxs]
    exact sure_pure fun _ hc => hc ▸ h

theorem sure_popAccess : Sure (Over ⟨n, ls, js, b, k, d :: as, f, w, s⟩ F) popAccess fun a c =>
    Over ⟨n, ls, js, b, k, as, f, w, s⟩ F c ∧ a.2 = d ∧ c.Indexed a.1 d := by
  refine sure_pop fun c h => ?_
  obtain ⟨_ | ⟨a, xs⟩, hxs, hdepths⟩ := h.accesses
  · cases hdepths
  · obtain ⟨ha, hdepths⟩ := List.forall₂_cons.1 hdepths
    exact ⟨a, xs ++ F.accesses, hxs, { h with accesses := ⟨xs, rfl, hdepths⟩ }, ha⟩

theorem sure_pushAccess {a : Option String × Int} : Sure (fun c =>
    Over ⟨n, ls, js, b, k, as, f, w, s⟩ F c ∧ a.2 = d ∧ c.Indexed a.1 d)
    (modify fun c => { c with accesses := a :: c.accesses }) fun _ =>
    Over ⟨n, ls, js, b, k, d :: as, f, w, s⟩ F := by
  refine sure_modify fun c h => ?_
  obtain ⟨xs, hxs, hdepths⟩ := h.1.accesses
  exact { h.1 with accesses := ⟨a :: xs, congrArg (a :: ·) hxs, .cons h.2 hdepths⟩ }

/-! ### Jumps -/

/-- There is a quad then. -/
theorem sure_emit (a₁ a₂ r : Field) : Sure (σ.Over F) (emit op a₁ a₂ r) fun _ c =>
    σ.Over F c ∧ 0 < c.quads.size := by
  refine ⟨fun c _ c' hc hrun => ⟨(calm_emit op a₁ a₂ r).over.carries hc hrun, ?_⟩, (calm_emit op a₁ a₂ r).over.fault⟩
  obtain ⟨printed, hemit⟩ := run_emit op a₁ a₂ r c
  cases hemit.symm.trans hrun
  simp

theorem sure_quadCount : Sure I quadCount fun m c => I c ∧ m = c.quads.size :=
  sure_get_bind fun c h => sure_pure fun c' hc => by rw [hc]; exact ⟨h, rfl⟩

/-- The quad made last is a jump to be completed. -/
theorem sure_pushLast : Sure (fun c => Over ⟨n, ls, js, b, k, as, f, w, s⟩ F c ∧ 0 < c.quads.size)
    (do pushJump ((← quadCount) - 1)) fun _ => Over ⟨n, ls, .forth :: js, b, k, as, f, w, s⟩ F := by
  refine sure_quadCount.bind fun m => (sure_pushJump .forth).pre ?_
  rintro c ⟨⟨h, hsize⟩, rfl⟩
  exact ⟨h, by omega, by omega⟩

theorem quadIndex?_of_lt {size : Nat} (h : 0 ≤ j) (h' : j < size) :
    quadIndex? size j = some j.toNat := by
  have hneg : ¬ j < 0 := by omega
  simp only [quadIndex?, hneg, if_false, h, h', decide_true, Bool.and_self, if_true]

/-- Setting the target of a quad that is there. -/
theorem sure_complete {target : Int} (hj : 0 ≤ j) (hm : j < m) :
    Sure (fun c => σ.Over F c ∧ m ≤ c.quads.size) (complete j target) fun _ c => σ.Over F c ∧ m ≤ c.quads.size := by
  refine sure_get_bind fun c h => ?_
  obtain ⟨hover, hsize⟩ := h
  have hlt : j.toNat < c.quads.size := by omega
  have hplace : ((quadIndex? c.quads.size j).bind fun i => c.quads[i]?.map fun q => (i, q)) =
      some (j.toNat, c.quads[j.toNat]) := by
    rw [quadIndex?_of_lt hj (by omega), Option.bind_some, Array.getElem?_eq_getElem hlt, Option.map_some]
  rw [hplace]
  obtain _ | ⟨op, _ | ⟨a₁, _ | ⟨a₂, _ | ⟨r, rest⟩⟩⟩⟩ := c.quads[j.toNat]
  case cons.cons.cons.cons =>
    refine .bind (J := fun _ c => σ.Over F c ∧ m ≤ c.quads.size) (sure_set ⟨hover.calmly ⟨?_, rfl, rfl, rfl⟩, ?_⟩)
      fun _ => (calm_remark _).keeps fun c c' h hc => ⟨h.1.calmly hc, Nat.le_trans h.2 hc.1.size⟩
    · exact ⟨rfl, rfl, rfl, rfl, rfl, rfl, by simp⟩
    · simpa using hsize
  all_goals exact sure_throw rfl

theorem sure_completeHere : Sure (fun c => σ.Over F c ∧ 0 ≤ j ∧ j < c.quads.size)
    (completeHere j) fun _ => σ.Over F := by
  refine sure_get_bind fun c h => Sure.of (I := fun c' => σ.Over F c' ∧ c.quads.size ≤ c'.quads.size) ?_ ?_
  · exact (sure_complete h.2.1 h.2.2).mono (fun _ => id) fun _ _ => And.left
  · exact ⟨h.1, Nat.le_refl _⟩

theorem sure_completeAll {bs : List Int} (hbs : ∀ j ∈ bs, 0 ≤ j ∧ j < m) :
    Sure (fun c => σ.Over F c ∧ m ≤ c.quads.size) (do for j in bs do completeHere j : Compile Unit) fun _ =>
      σ.Over F := by
  induction bs with
  | nil => exact sure_pure fun _ => And.left
  | cons j bs ih =>
    simp only [List.forIn_cons, bind_assoc, pure_bind]
    have hj := hbs j List.mem_cons_self
    refine .bind (J := fun _ c => σ.Over F c ∧ m ≤ c.quads.size) ?_ fun _ => ih fun j' hj' =>
      hbs j' (List.mem_cons_of_mem j hj')
    exact sure_quadCount.bind fun _ => (sure_complete hj.1 hj.2).pre fun _ => And.left

theorem sure_addMain : Sure (Over ⟨n, ls, js, b, k, as, f, w, s⟩ F) addMain fun _ =>
    Over ⟨n, ls, .main :: js, b, k, as, f, w, s⟩ F :=
  (sure_emit _ _ _ _).bind fun _ => (sure_pushJump .main).pre fun _ h => ⟨h.1, rfl, h.2⟩

theorem sure_completeMain : Sure (Over ⟨n, ls, .main :: js, b, k, as, f, w, s⟩ F) completeMain fun _ =>
    Over ⟨n, ls, js, b, k, as, f, w, s⟩ F := by
  refine sure_popJump.bind fun j => Sure.bind (sure_completeHere.pre ?_) fun _ => (calm_say _).over
  rintro c ⟨h, rfl, hsize⟩
  exact ⟨h, Int.le_refl 0, by omega⟩

theorem sure_completeIf : Sure (Over ⟨n, ls, .forth :: js, b, k, as, f, w, s⟩ F) completeIf fun _ =>
    Over ⟨n, ls, js, b, k, as, f, w, s⟩ F :=
  sure_popJump.bind fun _ => sure_completeHere.pre fun _ => id

theorem sure_addElse : Sure (Over ⟨n, ls, .forth :: js, b, k, as, f, w, s⟩ F) addElse fun _ =>
    Over ⟨n, ls, .forth :: js, b, k, as, f, w, s⟩ F := by
  refine (calm_emit _ _ _ _).over.bind fun _ => sure_popJump.bind fun j => ?_
  refine sure_quadCount.bind fun m => ?_
  -- the jump that was open stays a number of a quad while the new one is pushed
  refine .bind (J := fun _ c => Over ⟨n, ls, .forth :: js, b, k, as, f, w, s⟩ F c ∧ 0 ≤ j ∧ j < c.quads.size)
    (sure_modify ?_) fun _ => sure_completeHere
  rintro c ⟨⟨h, hj⟩, rfl⟩
  obtain ⟨xs, hxs, hkinds⟩ := h.jumps
  have hsize : (0 : Int) ≤ c.quads.size - 1 ∧ (c.quads.size : Int) - 1 < c.quads.size := by
    have := hj.1; have := hj.2; omega
  exact ⟨{ h with jumps := ⟨_ :: xs, congrArg (_ :: ·) hxs, .cons hsize hkinds⟩ }, hj⟩

theorem sure_addJumpIfFalse : Sure (Over ⟨n + 1, ls, js, b, k, as, f, w, s⟩ F) addJumpIfFalse fun _ =>
    Over ⟨n, ls, .forth :: js, b, k, as, f, w, s⟩ F :=
  sure_popOperand.bind fun _ => (calm_addShapeOf _).over.bind fun _ => sure_ite
    (fun _ => (sure_emit _ _ _ _).bind fun _ => sure_pushLast) fun _ => sure_throw rfl

theorem sure_beginLoop : Sure (Over ⟨n, ls, js, b, k, as, f, w, s⟩ F) beginLoop fun _ =>
    Over ⟨n, ls, .back :: js, b + 1, k, as, f, w, s⟩ F :=
  sure_quadCount.bind fun _ => Sure.bind ((sure_pushJump .back).pre fun _ h => ⟨h.1, trivial⟩) fun _ =>
    sure_pushBreaks

theorem sure_completeLoop : Sure (Over ⟨n, ls, .forth :: .back :: js, b + 1, k, as, f, w, s⟩ F) completeLoop fun _ =>
    Over ⟨n, ls, js, b, k, as, f, w, s⟩ F := by
  refine sure_popJump.bind fun exit => ?_
  -- the exit stays a number of a quad until it is completed
  refine .bind (J := fun _ c => Over ⟨n, ls, js, b + 1, k, as, f, w, s⟩ F c ∧ 0 ≤ exit ∧ exit < c.quads.size)
    ?_ fun again => ?_
  · refine sure_pop fun c h => ?_
    obtain ⟨_ | ⟨j, xs⟩, hxs, hkinds⟩ := h.1.jumps
    · cases hkinds
    · exact ⟨j, xs ++ F.jumps, hxs, { h.1 with jumps := ⟨xs, rfl, (List.forall₂_cons.1 hkinds).2⟩ }, h.2⟩
  · refine Sure.bind ((calm_emit _ _ _ _).keeps ?_) fun _ => sure_completeHere.bind fun _ => sure_popBreaks.bind
      fun bs => ?_
    · intro c c' h hc
      exact ⟨h.1.calmly hc, h.2.1, by have := h.2.2; have := hc.1.size; omega⟩
    · refine ⟨fun c _ _ h hrun => ?_, fun c _ _ h hrun => ?_⟩
      · exact (sure_completeAll h.2).carries ⟨h.1, Nat.le_refl _⟩ hrun
      · exact (sure_completeAll h.2).fault ⟨h.1, Nat.le_refl _⟩ hrun

/-! ### Operations -/

theorem sure_pushTemp (address : Address) (type : Ty) (dims : List Int) :
    Sure (Over ⟨n, ls, js, b, k, as, f, w, s⟩ F) (pushTemp address type dims) fun _ =>
      Over ⟨n + 1, ls, js, b, k, as, f, w, s⟩ F :=
  sure_get_bind fun _ h => (sure_pushOperand _).of h

theorem sure_addAssign : Sure (Over ⟨n + 2, l :: ls, js, b, k, as, f, w, s⟩ F) addAssign fun _ =>
    Over ⟨n, ls, js, b, k, as, f, w, s⟩ F :=
  sure_popOperand.bind fun _ => sure_popOperand.bind fun _ => sure_popOperator.bind fun _ =>
    (reads_resultType _ _ _).calm.over.bind fun _ => (reads_checkShapes _ _).calm.over.bind fun _ =>
      (calm_addShapeOf _).over.bind fun _ => (calm_emit _ _ _ _).over

theorem sure_addDot : Sure (Over ⟨n + 2, l :: ls, js, b, k, as, f, w, s⟩ F) addDot fun _ =>
    Over ⟨n + 1, ls, js, b, k, as, f, w, s⟩ F := by
  refine sure_popOperand.bind fun right => sure_popOperand.bind fun left => sure_popOperator.bind fun op =>
    (reads_resultType _ _ _).calm.over.bind fun type => ?_
  split
  · refine sure_ite (fun _ => sure_throw_bind rfl _) fun _ => (calm_take _).over.bind fun result =>
      (calm_take _).over.bind fun _ => (calm_remark _).over.bind fun _ => (calm_emit _ _ _ _).over.bind fun _ =>
        (calm_emit _ _ _ _).over.bind fun _ => (sure_pushTemp _ _ _).bind fun _ => calm_countTemp.over
  · exact sure_throw rfl

/-- The operator on top is one of those asked for. -/
theorem sure_addOperation : Sure (fun c =>
    Over ⟨n + 2, l :: ls, js, b, k, as, f, w, s⟩ F c ∧ ∀ op ∈ c.operators.head?, ops.contains op = true)
    (addOperation ops) fun _ => Over ⟨n + 1, ls, js, b, k, as, f, w, s⟩ F := by
  refine sure_get_bind fun c h => ?_
  obtain ⟨hover, htop⟩ := h
  obtain ⟨_ | ⟨op, xs⟩, hxs, hlevels⟩ := hover.operators
  · cases hlevels
  · rw [hxs] at htop ⊢
    have hop : ops.contains op = true := htop op rfl
    refine Sure.of (I := Over ⟨n + 2, l :: ls, js, b, k, as, f, w, s⟩ F) ?_ hover
    refine sure_ite (fun hno => ?_) fun _ => sure_ite (fun _ => sure_addDot) fun _ => ?_
    · rw [hop] at hno
      cases hno
    · exact sure_popOperand.bind fun right => sure_popOperand.bind fun left => sure_popOperator.bind fun op =>
        (reads_resultType _ _ _).calm.over.bind fun type => (reads_checkShapes _ _).calm.over.bind fun _ =>
          (calm_addShapeOf _).over.bind fun _ => (calm_take _).over.bind fun result =>
            (calm_emit _ _ _ _).over.bind fun _ => (sure_pushTemp _ _ _).bind fun _ =>
              (calm_remarkTemp _ _).over.bind fun _ => calm_countTemp.over

/-- The operator on top, if there is one, is not one of those asked for. -/
theorem sure_addOperation_idle : Sure (fun c =>
    σ.Over F c ∧ ∀ op ∈ c.operators.head?, ops.contains op = false) (addOperation ops) fun _ => σ.Over F := by
  refine sure_get_bind fun c h => ?_
  obtain ⟨hover, htop⟩ := h
  rcases hops : c.operators with _ | ⟨op, rest⟩
  · exact sure_pure fun _ hc => hc ▸ hover
  · have hop : ops.contains op = false := htop op (by rw [hops]; rfl)
    exact sure_ite (fun _ => sure_pure fun _ hc => hc ▸ hover) fun hno => absurd (by rw [hop]; rfl) hno

/-- An operator is pushed and worked off at once. -/
theorem sure_operate {α : Type} {K : α → Compiler → Prop} {rest : Compile α}
    (h : Sure (Over ⟨n + 1, ls, js, b, k, as, f, w, s⟩ F) rest K) :
    Sure (Over ⟨n + 2, ls, js, b, k, as, f, w, s⟩ F) (do pushOperator op; addOperation [op]; rest) K := by
  refine (sure_pushOperator op).bind fun _ => Sure.bind (sure_addOperation.pre fun c h => ⟨h.1, ?_⟩)
    fun _ => h
  intro op' hop'
  rw [h.2, Option.mem_some_iff] at hop'
  rw [← hop']
  exact List.contains_iff_mem.2 List.mem_cons_self

theorem sure_addMatrixOperation : Sure (Over ⟨n + 1, ls, js, b, k, as, f, w, s⟩ F)
    (addMatrixOperation op) fun _ => Over ⟨n + 1, ls, js, b, k, as, f, w, s⟩ F := by
  refine sure_popOperand.bind fun mat => ?_
  split
  · split
    · exact sure_throw rfl
    · next rows cols _ _ type _ =>
      refine sure_ite (fun _ => sure_throw_bind rfl _) fun _ => (calm_take _).over.bind fun result =>
        (calm_remarkTemp _ _).over.bind fun _ => ?_
      refine have hlast := ?_; sure_ite (fun _ => (calm_take _).over.bind fun _ => sure_get_bind fun c h =>
        ((calm_remark _).over.bind fun _ => hlast).of h) fun _ => hlast
      exact (calm_addShape _).over.bind fun _ => (calm_emit _ _ _ _).over.bind fun _ =>
        (sure_pushTemp _ _ _).bind fun _ => calm_countTemp.over
  · exact sure_throw rfl

theorem sure_addRead : Sure (Over ⟨n + 1, ls, js, b, k, as, f, w, s⟩ F) addRead fun _ =>
    Over ⟨n, ls, js, b, k, as, f, w, s⟩ F :=
  sure_popOperand.bind fun _ => (calm_addShapeOf _).over.bind fun _ => (calm_emit _ _ _ _).over

theorem sure_addPrint : Sure (Over ⟨n + 1, ls, js, b, k, as, f, w, s⟩ F) addPrint fun _ =>
    Over ⟨n, ls, js, b, k, as, f, w, s⟩ F :=
  sure_popOperand.bind fun _ => (calm_addShapeOf _).over.bind fun _ => (calm_emit _ _ _ _).over

/-- A return may take the cells of the result; no array is being indexed then. -/
theorem sure_addReturn : Sure (Over ⟨n + 1, ls, js, b, k, [], f, w, false⟩ F) addReturn fun _ =>
    Over ⟨n, ls, js, b, k, [], f, w, false⟩ F := by
  refine sure_popOperand.bind fun value => Tame.over ?_ rfl rfl
  refine reads_current.calm.tame.bind fun g => leaves_get_bind fun _ => leaves_get_bind fun _ =>
    leaves_ite (fun _ _ => sure_throw_bind rfl _) fun _ => leaves_ite (fun _ _ => sure_throw_bind rfl _) fun _ =>
      leaves_ite (fun _ _ => sure_throw_bind rfl _) fun _ => leaves_ite (fun _ _ => sure_throw_bind rfl _) fun _ => ?_
  refine (tame_returnAddress _ _).bind fun address => (calm_addShapeOf _).tame.bind fun _ =>
    (calm_emit _ _ _ _).tame.bind fun _ => (calm_addShapeOf _).tame.bind fun _ =>
      (calm_emit _ _ _ _).tame.bind fun _ => Calm.tame (calm_change rfl)

/-! ### Loops -/

/-- A break is added to the innermost loop, which may have begun before. -/
theorem sure_addBreak : Sure (Over ⟨n, ls, js, b, k, as, f, w, false⟩ F) addBreak fun _ =>
    Over ⟨n, ls, js, b, k, as, f, w, false⟩ F := by
  refine sure_get_bind fun c h => Sure.of ?_ h
  refine sure_ite (fun _ => sure_throw_bind rfl _) fun _ => (sure_emit _ _ _ _).bind fun _ =>
    sure_quadCount.bind fun m => sure_modify ?_
  rintro c ⟨⟨h, hsize⟩, rfl⟩
  rcases hbreaks : c.breaks with _ | ⟨inner, rest⟩
  · have hsame : ({ c with breaks := [] } : Compiler) = c := by rw [← hbreaks]
    dsimp only
    rwa [hsame]
  · obtain ⟨xs, below, hxs, hlength, hgrown, -⟩ := h.breaks
    have hnew : Grown (xs ++ below) ((inner ++ [(c.quads.size : Int) - 1]) :: rest) :=
      .inr ⟨inner, _, rest, hxs.symm.trans hbreaks, rfl⟩
    obtain ⟨xs', below', heq, hlength', hgrown', -⟩ := hnew.of_append
    refine { h with
      breaks := ⟨xs', below', heq, hlength'.trans hlength, hgrown.trans hgrown', fun hs => by cases hs⟩
      broken := fun bs hbs j hj => ?_ }
    have hbroken := h.broken
    rw [hbreaks] at hbroken
    rcases List.mem_cons.1 hbs with rfl | hbs
    · rcases List.mem_append.1 hj with hj | hj
      · exact hbroken inner List.mem_cons_self j hj
      · rw [List.mem_singleton.1 hj]
        exact ⟨by omega, Int.sub_lt_self _ Int.one_pos⟩
    · exact hbroken bs (List.mem_cons_of_mem inner hbs) j hj

/-- The iterator is a new variable, so no array is being indexed then. -/
theorem sure_addIterator :
    Sure (Over ⟨n, ls, js, b, k, [], f, w, false⟩ F) (addIterator name) fun _ =>
    Over ⟨n + 3, ls, js, b, k, [], f, w, false⟩ F :=
  (calm_setType _).over.bind fun _ => (calm_take _).over.bind fun _ => ((tame_addVariable _ _).over rfl rfl).bind fun _ =>
    ((tame_declared _ _).over rfl rfl).bind fun _ => (sure_pushOperand _).bind fun _ => (sure_pushOperand _).bind fun _ =>
      sure_pushOperand _

theorem sure_addLoopStart : Sure (Over ⟨n + 2, ls, js, b, k, as, f, w, s⟩ F) addLoopStart fun _ =>
    Over ⟨n, ls, .back :: js, b + 1, k, as, f, w, s⟩ F :=
  (sure_pushOperator "=").bind fun _ => Sure.bind (sure_addAssign.pre fun _ => And.left) fun _ =>
    sure_beginLoop

theorem sure_addLoopBound : Sure (Over ⟨n + 2, ls, js, b, k, as, f, w, s⟩ F) addLoopBound fun _ =>
    Over ⟨n, ls, .forth :: js, b, k, as, f, w, s⟩ F :=
  sure_operate "<=" sure_addJumpIfFalse

/-- The iterator stays below while its next value is computed. -/
theorem sure_addLoopEnd : Sure (Over ⟨n + 1, ls, .forth :: .back :: js, b + 1, k, as, f, w, s⟩ F) addLoopEnd fun _ =>
    Over ⟨n, ls, js, b, k, as, f, w, s⟩ F := by
  refine (calm_constant _ _).over.bind fun one => sure_topOperand.bind fun o => (sure_pushOperand o).bind fun _ =>
    sure_topOperand.bind fun o => (sure_pushOperand o).bind fun _ => (sure_pushOperand _).bind fun _ =>
      Sure.bind ((sure_pushOperator "=").mono (fun _ => id) fun _ _ => And.left) fun _ => sure_operate "+" ?_
  exact sure_addAssign.bind fun _ => sure_completeLoop.bind fun _ => sure_popOperand.bind fun _ => sure_pure fun _ => id

/-! ### Arrays -/

theorem sure_tableOf (name : Option String) (c : Compiler) : Sure (· = c) (tableOf name) fun t c' =>
    c' = c ∧ c.table? name = some t := by
  refine (sure_functionOf name c).bind fun g => sure_and fun hg => ?_
  obtain ⟨m, rfl, hget⟩ := hg
  split
  · next t ht => exact sure_pure fun c' hc => ⟨hc, by simp only [Compiler.table?, Option.bind_some, hget, ht]⟩
  · exact sure_throw rfl

theorem sure_variableOf (c : Compiler) : Sure (· = c) (variableOf name) fun v c' =>
    c' = c ∧ c.lookup? name = some v := by
  have hfind : Sure (· = c) (findVariable? name) fun r c' => c' = c ∧ c.lookup? name = r := by
    refine sure_get_bind fun c' hc => ?_
    subst hc
    refine (sure_tableOf _ c').bind fun t => sure_and fun ht => ?_
    split
    · next v hv => exact sure_pure fun c₁ hc => ⟨hc, by simp only [Compiler.lookup?, ht, hv]⟩
    · next hv =>
      refine sure_get_bind fun c₁ hc => ?_
      subst hc
      refine (sure_tableOf _ c₁).bind fun t' => sure_and fun ht' => sure_pure fun c₂ hc => ⟨hc, ?_⟩
      simp only [Compiler.lookup?, ht, hv, ht', Option.bind_some]
  refine hfind.bind fun r => sure_and fun hr => ?_
  split
  · exact sure_pure fun c' hc => ⟨hc, hr⟩
  · exact sure_throw rfl

theorem sure_dimsOf (name : Option String) : Sure I (dimsOf name) fun dims c =>
    I c ∧ ∃ v, c.lookup? (name.getD "") = some v ∧ v.dims = dims := by
  refine sure_get_bind fun c h => ?_
  split
  · next v c' hrun =>
    refine sure_pure fun c₁ hc => ?_
    rw [hc]
    exact ⟨h, v, ((sure_variableOf _ c).carries rfl hrun).2, rfl⟩
  · exact sure_throw rfl

theorem sure_openIndex : Sure (Over ⟨n, ls, js, b, k, d :: as, f, w, s⟩ F) openIndex fun _ =>
    Over ⟨n, 0 :: ls, js, b, k, (d + 1) :: as, f, w, s⟩ F := by
  refine sure_popAccess.bind fun a => (sure_dimsOf a.1).bind fun dims => sure_ite (fun _ => sure_throw_bind rfl _)
    fun hmore => ?_
  refine .bind (J := fun _ => Over ⟨n, ls, js, b, k, (d + 1) :: as, f, w, s⟩ F) ?_ fun _ =>
    (sure_pushOperator "(").mono (fun _ => id) fun _ _ => And.left
  refine sure_pushAccess.pre ?_
  rintro c ⟨⟨h, ha, -⟩, v, hv, rfl⟩
  refine ⟨h, by rw [ha]; rfl, .inr ⟨v, hv, ?_⟩⟩
  rw [ha] at hmore
  omega

/-- The array of the innermost access has as many dimensions as there are indexes, and no more than two. -/
theorem sure_dimsOf_access {c : Compiler} {name : Option String} (hflat : c.Flat)
    (hname : c.Indexed name (d + 1)) : Sure (· = c) (dimsOf name) fun dims c' =>
      c' = c ∧ d + 1 ≤ dims.length ∧ dims.length ≤ 2 := by
  refine (sure_dimsOf name).mono (fun _ => id) ?_
  rintro dims c' ⟨rfl, v, hv, rfl⟩
  obtain h | ⟨v', hv', hlength⟩ := hname
  · cases h
  · cases hv.symm.trans hv'
    exact ⟨rfl, hlength, hflat.length_dims hv⟩

/-- The first index is multiplied by the length of a row, if there are rows; the second one is added. -/
theorem sure_addIndex (hd : d < 2) :
    Sure (Over ⟨n + d + 1, 0 :: ls, js, b, k, (d + 1) :: as, f, w, s⟩ F)
    addIndex fun _ => Over ⟨n + 1, ls, js, b, k, (d + 1) :: as, f, w, s⟩ F := by
  refine sure_topOperand.bind fun v => sure_ite (fun _ => sure_throw_bind rfl _) fun _ => sure_get_bind fun c h => ?_
  obtain ⟨_ | ⟨⟨name, depth⟩, xs⟩, hxs, hdepths⟩ := h.accesses
  · cases hdepths
  obtain ⟨⟨hdepth, hname⟩, -⟩ := List.forall₂_cons.1 hdepths
  dsimp only at hdepth
  rw [hxs, hdepth]
  refine (sure_dimsOf_access h.flat hname).bind fun dims => sure_and fun hdims => Sure.of ?_ h
  have hlast : ∀ m, Sure (Over ⟨m, 0 :: ls, js, b, k, (d + 1) :: as, f, w, s⟩ F) (do let _ ← popOperator) fun _ =>
      Over ⟨m, ls, js, b, k, (d + 1) :: as, f, w, s⟩ F :=
    fun m => sure_popOperator.bind fun _ => sure_pure fun _ => id
  refine (reads_entry _ _).calm.over.bind fun e => (calm_emit _ _ _ _).over.bind fun _ => sure_ite (fun hfirst => ?_)
    fun hfirst => sure_ite (fun hsecond => ?_) fun hsecond => ?_
  · -- the first of two indexes
    obtain rfl : d = 0 := by simp only [beq_iff_eq] at hfirst; omega
    exact (reads_entry _ _).calm.over.bind fun e => (calm_constant _ _).over.bind fun cols => (sure_pushOperand _).bind fun _ =>
      sure_operate "*" (hlast _)
  · -- the second of two indexes
    obtain rfl : d = 1 := by simp only [beq_iff_eq] at hfirst hsecond; omega
    exact sure_operate "+" (hlast _)
  · -- the only index
    obtain rfl : d = 0 := by simp only [beq_iff_eq] at hfirst hsecond; omega
    exact hlast _

theorem sure_addElement : Sure (Over ⟨n + 2, ls, js, b, k, d :: as, f, w, s⟩ F) addElement fun _ =>
    Over ⟨n + 1, ls, js, b, k, as, f, w, s⟩ F := by
  refine Sure.bind (sure_popAccess.mono (fun _ => id) fun _ _ => And.left) fun a => sure_popOperand.bind fun offset =>
    sure_popOperand.bind fun arr => (calm_take _).over.bind fun result => (calm_emit _ _ _ _).over.bind fun _ => ?_
  exact (sure_pushTemp _ _ _).bind fun _ => sure_get_bind fun c h =>
    ((calm_remark _).over.bind fun _ => calm_countTemp.over).of h

/-! ### Calls -/

theorem sure_beginCall : Sure (Over ⟨n, ls, js, b, k, as, f, w, s⟩ F) (beginCall name) fun _ =>
    Over ⟨n, 0 :: ls, js, b, k + 1, as, f, w, s⟩ F :=
  (reads_functionExists name).calm.over.bind fun _ => sure_ite (fun _ => (calm_emit _ _ _ _).over.bind fun _ =>
    (sure_pushCall name).bind fun _ => (sure_pushOperator "(").mono (fun _ => id) fun _ _ => And.left)
      fun _ => sure_throw rfl

theorem sure_addNextArgument : Sure (Over ⟨n + 1, ls, js, b, k + 1, as, f, w, s⟩ F) addNextArgument fun _ =>
    Over ⟨n, ls, js, b, k + 1, as, f, w, s⟩ F := by
  refine sure_topCall.bind fun name => (reads_paramOf name).calm.over.bind fun p => sure_get_bind fun c h => Sure.of ?_ h
  refine .bind (J := fun _ => Over ⟨n, ls, js, b, k + 1, as, f, w, s⟩ F) ?_ fun _ =>
    Calm.over (calm_change rfl)
  exact sure_popOperand.bind fun v => sure_ite (fun _ => sure_throw_bind rfl _) fun _ =>
    sure_ite (fun _ => sure_throw_bind rfl _) fun _ => (calm_addShapeOf _).over.bind fun _ => (calm_emit _ _ _ _).over

theorem sure_endCall : Sure (Over ⟨n, l :: ls, js, b, k + 1, as, f, w, s⟩ F) endCall fun _ =>
    Over ⟨n, ls, js, b, k + 1, as, f, w, s⟩ F := by
  refine sure_topCall.bind fun name => (reads_functionOf _).calm.over.bind fun g => sure_get_bind fun c h => Sure.of ?_ h
  refine sure_ite (fun _ => ?_) fun _ => sure_throw rfl
  refine Sure.bind (Calm.over (calm_change rfl)) fun _ => (calm_emit _ _ _ _).over.bind fun _ =>
    sure_popOperator.bind fun _ => sure_pure fun _ => id

theorem sure_addCallResult : Sure (Over ⟨n, ls, js, b, k + 1, as, f, w, s⟩ F) addCallResult fun _ =>
    Over ⟨n + 1, ls, js, b, k, as, f, w, s⟩ F := by
  refine sure_popCall.bind fun name => (reads_functionOf _).calm.over.bind fun g => sure_ite (fun _ => sure_throw_bind rfl _)
    fun _ => (calm_take _).over.bind fun result => ?_
  refine have hlast := ?_; sure_ite (fun _ => (calm_take _).over.bind fun _ => (calm_addShape _).over.bind fun _ =>
    hlast) fun _ => hlast
  exact (calm_emit _ _ _ _).over.bind fun _ => (sure_pushTemp _ _ _).bind fun _ => sure_get_bind fun c h =>
    ((calm_remark _).over.bind fun _ => calm_countTemp.over).of h

end

end Compile

end QuadLang
