/-
The cells of variables, constants and results.

The compiler hands out addresses one after the other and begins anew with every function.  Cells
that can be in use at the same time never overlap:

* `Holder`, `Compiler.Gives` — what has cells, and which;
* `Arrangement` — the cells of holders that can meet are apart, each within the range of its
  type;
* `Arrangement.grow` — new cells are apart from all others, as they come after those in use.

Design notes: an array gets its first cell with its name and the others with its dimensions.  In
between its cell is the last one in use, so the array can grow.  The cells of a function at work
are below the counts of its ranges; those of a finished function need not be, as its ranges are
used again.
-/
import QuadLang.Proofs.Addresses
import QuadLang.Proofs.Layout
import QuadLang.Proofs.Stages

namespace QuadLang

open Segment

variable {a n : Int} {b' : Block} {q : Holder} {r : Scalar} {scope : String} {type : Ty}

/-- Cells one after the other. -/
structure Block where
  address : Int
  size : Int

/-- No cell is in both. -/
def Block.Apart (b b' : Block) : Prop :=
  b.address + b.size ≤ b'.address ∨ b'.address + b'.size ≤ b.address

theorem Block.Apart.symm {b : Block} (h : b.Apart b') : b'.Apart b := h.elim .inr .inl

/-- What cells are given to: the constant of a number, and the variables, parameters and results of
functions. -/
inductive Holder where
  | constant (i : Nat)
  | var (f x : String)
  | param (f : String) (i : Nat)
  | result (f : String)
deriving DecidableEq

namespace Holder

variable {p : Holder}

/-- The function that has the cells. -/
def owner : Holder → Option String
  | .constant _ => none
  | .var f _ | .param f _ | .result f => some f

/-- Where the cells are. -/
def segment : Holder → Segment
  | .constant _ => .constant
  | .var f _ | .param f _ | .result f => Segment.ofScope f

/-- Both can be in use at the same time. -/
def Meets (p q : Holder) : Prop :=
  p.owner = none ∨ q.owner = none ∨ p.owner = some "main" ∨ q.owner = some "main" ∨ p.owner = q.owner

/-- A variable and a parameter of one function. -/
def Named : Holder → Holder → Prop
  | .var f _, .param f' _ | .param f _, .var f' _ => f = f'
  | _, _ => False

theorem Meets.symm (h : p.Meets q) : q.Meets p := by
  rcases h with h | h | h | h | h
  · exact .inr (.inl h)
  · exact .inl h
  · exact .inr (.inr (.inr (.inl h)))
  · exact .inr (.inr (.inl h))
  · exact .inr (.inr (.inr (.inr h.symm)))

/-- The cells are counted: those of globals and constants for ever, those of a function while it is
at work. -/
def Live (current : Option String) (p : Holder) : Prop :=
  p.segment = .global ∨ p.segment = .constant ∨ p.owner = current

theorem segment_of_owner_none (h : p.owner = none) : p.segment = .constant := by
  cases p <;> first | rfl | cases h

theorem segment_of_owner {f : String} (h : p.owner = some f) : p.segment = ofScope f := by
  cases p <;> cases h <;> rfl

/-- What meets a holder of the function at work in its segment is counted. -/
theorem Meets.live {current : Option String} (h : p.Meets q)
    (hp : p.owner = none ∨ p.owner = current) (hs : q.segment = p.segment) : q.Live current := by
  rcases h with h | h | h | h | h
  · exact .inr (.inl (hs.trans (segment_of_owner_none h)))
  · exact .inr (.inl (segment_of_owner_none h))
  · exact .inl (hs.trans (segment_of_owner h))
  · exact .inl (segment_of_owner h)
  · rcases hp with hp | hp
    · exact .inr (.inl (hs.trans (segment_of_owner_none hp)))
    · exact .inr (.inr (h.symm.trans hp))

end Holder

/-- An entry of a list to which one was appended. -/
theorem getElem?_concat_cases {α : Type} {l : List α} {x y : α} {i : Nat} (h : (l ++ [x])[i]? = some y) :
    (i < l.length ∧ l[i]? = some y) ∨ (i = l.length ∧ y = x) := by
  rcases Nat.lt_trichotomy i l.length with hi | rfl | hi
  · exact .inl ⟨hi, by rwa [List.getElem?_append_left hi] at h⟩
  · rw [List.getElem?_concat_length] at h
    exact .inr ⟨rfl, (Option.some.inj h).symm⟩
  · rw [List.getElem?_eq_none (by rw [List.length_append, List.length_singleton]; omega)] at h
    cases h

/-! ### Ranges -/

theorem Segment.mem_all (g : Segment) : g ∈ all := by cases g <;> decide

theorem Scalar.mem_all (t : Scalar) : t ∈ Scalar.all := by cases t <;> decide

/-- Different ranges have no addresses in common. -/
theorem Segment.ranges_apart {g g' : Segment} {t t' : Scalar} (h : ¬(g = g' ∧ t = t')) :
    g.stop t ≤ g'.start t' ∨ g'.stop t' ≤ g.start t := by
  have hall : ∀ g ∈ all, ∀ t ∈ Scalar.all, ∀ g' ∈ all, ∀ t' ∈ Scalar.all,
      ¬(g = g' ∧ t = t') → g.stop t ≤ g'.start t' ∨ g'.stop t' ≤ g.start t := by decide +kernel
  exact hall g g.mem_all t t.mem_all g' g'.mem_all t' t'.mem_all h

/-- Between two spaces, cells of a range are taken. -/
structure Space.Taken (s s' : Space) (g : Segment) (r : Scalar) (b : Block) : Prop where
  address : b.address = g.start r + (s.counts g).get r
  nonneg : 0 ≤ (s.counts g).get r
  inside : b.address + b.size ≤ g.stop r
  counted : b.address + b.size = g.start r + (s'.counts g).get r
  within : s.Within s'

theorem Space.taken_takeOne {s s' : Space} (hs : s.Sound) (h : s.takeOne scope type = (s', .ok a)) :
    ∃ r, type.scalar? = some r ∧ s.Taken s' (ofScope scope) r ⟨a, 1⟩ := by
  have hwithin := Space.within_take s scope type Int.one_nonneg
  rw [show s.take scope type 1 = _ from h] at hwithin
  obtain ⟨r, htype, ha, hroom, hcounts⟩ := Space.take_eq_ok h
  obtain ⟨hlow, -⟩ := hs (ofScope scope) r
  refine ⟨r, htype, by show a = _; omega, hlow, by show a + 1 ≤ _; omega, ?_, hwithin⟩
  rw [hcounts, if_pos ⟨rfl, rfl⟩]
  show a + 1 = _
  omega

/-- The other cells of an array come right after the first. -/
theorem Space.Taken.rest {s s₁ s' : Space} {a' : Int} (h : s.Taken s₁ (ofScope scope) r ⟨a, 1⟩)
    (htype : type.scalar? = some r) (hn : 0 < n) (hrest : s₁.takeRest scope type n = (s', .ok a')) :
    s.Taken s' (ofScope scope) r ⟨a, n⟩ := by
  have hwithin := Space.within_take s₁ scope type (n := n - 1) (by omega)
  rw [show s₁.take scope type (n - 1) = _ from hrest] at hwithin
  obtain ⟨r', htype', -, hroom, hcounts⟩ := Space.take_eq_ok hrest
  obtain rfl : r = r' := Option.some.inj (htype.symm.trans htype')
  have hcounted : a + 1 = _ := h.counted
  have hinside : a + 1 ≤ _ := h.inside
  refine ⟨h.address, h.nonneg, by show a + n ≤ _; omega, ?_, fun g t => (h.within g t).trans (hwithin g t)⟩
  rw [hcounts, if_pos ⟨rfl, rfl⟩]
  show a + n = _
  omega

/-- The cells of holders, given the cells in use and the function at work: those of holders that meet
are apart, unless they are those of a parameter and its variable, and all are in a range of their
type. -/
structure Arrangement (A : Holder → Ty → Block → Prop) (s : Space) (current : Option String) : Prop where
  apart : ∀ {p q : Holder} {t u : Ty} {b b' : Block}, A p t b → A q u b' → p.Meets q → p ≠ q →
    b.Apart b' ∨ (p.Named q ∧ t = u ∧ b = b')
  inside : ∀ {p : Holder} {t : Ty} {b : Block}, A p t b → ∃ r, t.scalar? = some r ∧ 0 < b.size ∧
    p.segment.start r ≤ b.address ∧ b.address + b.size ≤ p.segment.stop r ∧
    (p.Live current → b.address + b.size ≤ p.segment.start r + (s.counts p.segment).get r)

namespace Arrangement

variable {A A' : Holder → Ty → Block → Prop} {s s' : Space} {current current' : Option String}
  {p : Holder} {b : Block} {u : Ty}

section

variable (h : Arrangement A s current)
include h

/-- Fewer holders, more cells in use. -/
theorem mono (hA : ∀ p t b, A' p t b → A p t b)
    (hs : ∀ p t b, A' p t b → p.Live current' → p.Live current ∧
      ∀ r, (s.counts p.segment).get r ≤ (s'.counts p.segment).get r) :
    Arrangement A' s' current' where
  apart hp hq := h.apart (hA _ _ _ hp) (hA _ _ _ hq)
  inside {p t b} hp := by
    obtain ⟨r, ht, hsize, hlow, hhigh, hlive⟩ := h.inside (hA _ _ _ hp)
    refine ⟨r, ht, hsize, hlow, hhigh, fun hl => ?_⟩
    obtain ⟨hold, hcounts⟩ := hs p t b hp hl
    have := hlive hold
    have := hcounts r
    omega

/-- Cells after those in use are apart from all others. -/
theorem apart_of_fresh (hp : p.owner = none ∨ p.owner = current)
    (hlow : p.segment.start r + (s.counts p.segment).get r ≤ b.address)
    (hbase : p.segment.start r ≤ b.address) (hhigh : b.address + b.size ≤ p.segment.stop r)
    (hq : A q u b') (hm : p.Meets q) : b.Apart b' := by
  obtain ⟨r', -, -, hlow', hhigh', hlive⟩ := h.inside hq
  by_cases hsame : p.segment = q.segment ∧ r = r'
  · obtain ⟨hs, rfl⟩ := hsame
    have hend := hlive (hm.live hp hs.symm)
    rw [← hs] at hend
    right
    omega
  · rcases ranges_apart hsame with hr | hr
    · left
      omega
    · right
      omega

/-- The last cell in use may be followed by more: they are apart from all that the cell is apart
from. -/
theorem apart_of_last (hp : p.owner = none ∨ p.owner = current)
    (hlast : a + 1 = p.segment.start r + (s.counts p.segment).get r) (hbase : p.segment.start r ≤ a)
    (hhigh : a + n ≤ p.segment.stop r) (hq : A q u b') (hm : p.Meets q)
    (hcell : Block.Apart ⟨a, 1⟩ b') : Block.Apart ⟨a, n⟩ b' := by
  obtain ⟨r', -, hsize, hlow', hhigh', hlive⟩ := h.inside hq
  by_cases hsame : p.segment = q.segment ∧ r = r'
  · obtain ⟨hs, rfl⟩ := hsame
    have hend := hlive (hm.live hp hs.symm)
    rw [← hs] at hend
    right
    rcases hcell with hc | hc <;> dsimp only at hc ⊢ <;> omega
  · rcases ranges_apart hsame with hr | hr
    · left
      dsimp only
      omega
    · right
      dsimp only
      omega

/-- The holders in `S` get cells that are apart from all others. -/
theorem grow {S : Holder → Prop} {t₀ : Ty} {b₀ : Block}
    (hA : ∀ p t b, A' p t b → A p t b ∧ ¬S p ∨ S p ∧ t = t₀ ∧ b = b₀)
    (hnamed : ∀ p q, S p → S q → p ≠ q → p.Named q)
    (hapart : ∀ p q u b', S p → A q u b' → ¬S q → p.Meets q → b₀.Apart b')
    (htype : t₀.scalar? = some r) (hsize : 0 < b₀.size)
    (hinside : ∀ p, S p → p.segment.start r ≤ b₀.address ∧ b₀.address + b₀.size ≤ p.segment.stop r ∧ b₀.address + b₀.size ≤ p.segment.start r + (s'.counts p.segment).get r)
    (hs : s.Within s') : Arrangement A' s' current where
  apart {p q t u b b'} hp hq hm hne := by
    rcases hA p t b hp with ⟨hp, hSp⟩ | ⟨hSp, rfl, rfl⟩ <;> rcases hA q u b' hq with ⟨hq, hSq⟩ | ⟨hSq, rfl, rfl⟩
    · exact h.apart hp hq hm hne
    · exact .inl (hapart q p t b hSq hp hSp hm.symm).symm
    · exact .inl (hapart p q u b' hSp hq hSq hm)
    · exact .inr ⟨hnamed p q hSp hSq hne, rfl, rfl⟩
  inside {p t b} hp := by
    rcases hA p t b hp with ⟨hp, -⟩ | ⟨hSp, rfl, rfl⟩
    · obtain ⟨r', ht, hsize', hlow, hhigh, hlive⟩ := h.inside hp
      refine ⟨r', ht, hsize', hlow, hhigh, fun hl => ?_⟩
      have := hlive hl
      have := hs p.segment r'
      omega
    · obtain ⟨hlow, hhigh, hcount⟩ := hinside p hSp
      exact ⟨r, htype, hsize, hlow, hhigh, fun _ => hcount⟩

/-- A holder gets cells that have just been taken. -/
theorem add (hp : p.owner = none ∨ p.owner = current) {t : Ty} (htype : t.scalar? = some r)
    (hsize : 0 < b.size) (htaken : s.Taken s' p.segment r b)
    (hA : ∀ q u b', A' q u b' → A q u b' ∧ q ≠ p ∨ q = p ∧ u = t ∧ b' = b) :
    Arrangement A' s' current := by
  have haddress := htaken.address
  have hnonneg := htaken.nonneg
  refine h.grow (S := (· = p)) hA ?_ ?_ htype hsize ?_ htaken.within
  · rintro q q' rfl rfl hne
    exact absurd rfl hne
  · rintro q q' u b' rfl hq - hm
    exact h.apart_of_fresh (r := r) hp (by omega) (by omega) htaken.inside hq hm
  · rintro q rfl
    exact ⟨by omega, htaken.inside, Int.le_of_eq htaken.counted⟩

end

end Arrangement

/-! ### What the compiler gives -/

open Compile

/-- The cells of a function `f`.  The variables of counting loops are temporary cells, unless that
is where the function has its own. -/
inductive Function.Gives (f : String) (g : Function) : Holder → Ty → Block → Prop
  | var {t : Table Variable} {x : String} {v : Variable} (ht : g.declared = some t)
      (hv : t.get? x = some v) (own : (Segment.ofScope f).Contains v.type v.address) :
      Gives f g (.var f x) v.type ⟨v.address, Compile.sizeOf v.dims⟩
  | param {i : Nat} {p : Param} (hp : g.params[i]? = some p) :
      Gives f g (.param f i) p.type ⟨p.address, Compile.sizeOf p.dims⟩
  | result {a : Int} (ha : g.returnAddress = some a) :
      Gives f g (.result f) g.returnType ⟨a, Compile.sizeOf g.returnDims⟩

/-- The cells of constants and functions. -/
inductive Compiler.Gives (c : Compiler) : Holder → Ty → Block → Prop
  | constant {i : Nat} {k : Constant} (hk : c.constants[i]? = some k) :
      Gives c (.constant i) k.type ⟨k.address, 1⟩
  | function {f : String} {g : Function} {p : Holder} {t : Ty} {b : Block}
      (hf : c.functions.get? f = some g) (h : g.Gives f p t b) : Gives c p t b

/-- The cells that the compiler gives are arranged, and constants have the types of their values. -/
structure Compiler.Arranged (c : Compiler) : Prop where
  cells : Arrangement c.Gives c.space c.currentName
  globalName : c.globalName = none ∨ c.globalName = some "main"
  literals : ∀ k ∈ c.constants, k.type = typeOfLiteral k.value

section

variable {c c' : Compiler} {f x : String} {g g' : Function} {p : Holder} {u : Ty} {b : Block}
  {t : Table Variable} {v : Variable}

theorem Function.Gives.owner (h : g.Gives f p u b) : p.owner = some f := by cases h <;> rfl

theorem Compiler.Gives.congr (hf : c'.functions = c.functions) (hk : c'.constants = c.constants)
    (h : c'.Gives p u b) : c.Gives p u b := by
  cases h with
  | constant h => exact .constant (hk ▸ h)
  | function h hg => exact .function (hf ▸ h) hg

/-- When a function is changed, the cells of the others stay. -/
theorem Compiler.Gives.of_put (hf : c'.functions = c.functions.put f g')
    (hk : c'.constants = c.constants) (h : c'.Gives p u b) :
    (p.owner ≠ some f ∧ c.Gives p u b) ∨ g'.Gives f p u b := by
  cases h with
  | constant h => exact .inl ⟨fun h => by (cases h), .constant (hk ▸ h)⟩
  | @function n g _ _ _ hget hg =>
    rw [hf, Table.get?_put] at hget
    split at hget
    · next hn =>
      cases hget
      exact .inr (hn ▸ hg)
    · next hn => exact .inl ⟨fun ho => hn (Option.some.inj (hg.owner.symm.trans ho)), .function hget hg⟩

/-- When a variable is noted, the cells of the others stay. -/
theorem Function.Gives.of_putVariable (ht : g.declared = some t)
    (h : Function.Gives f { g with declared := some (t.put x v) } p u b) :
    (g.Gives f p u b ∧ p ≠ .var f x) ∨ (p = .var f x ∧ u = v.type ∧
      b = ⟨v.address, Compile.sizeOf v.dims⟩ ∧ (ofScope f).Contains v.type v.address) := by
  cases h with
  | @var t' y w ht' hw own =>
    cases ht'
    rw [Table.get?_put] at hw
    split at hw
    · next hy =>
      cases hw
      exact .inr ⟨by rw [hy], rfl, rfl, own⟩
    · next hy =>
      exact .inl ⟨.var ht hw own, fun heq => hy (Holder.var.inj heq).2⟩
  | param hp => exact .inl ⟨.param hp, fun heq => by cases heq⟩
  | result ha => exact .inl ⟨.result ha, fun heq => by cases heq⟩

end

namespace Compiler.Arranged

variable {c c' : Compiler} {f x : String} {g g' : Function} {t : Table Variable} {v : Variable}

theorem start (debug : Bool) (objectName : String) : (Compiler.start debug objectName).Arranged where
  cells := by
    have hnone : ∀ p u b, ¬(Compiler.start debug objectName).Gives p u b := by
      rintro p u b (h | ⟨h, -⟩) <;> cases h
    exact ⟨fun h => absurd h (hnone _ _ _), fun h => absurd h (hnone _ _ _)⟩
  globalName := .inl rfl
  literals _ h := absurd h List.not_mem_nil

section

variable (hc : c.Arranged) (hn : c'.currentName = c.currentName) (hg : c'.globalName = c.globalName)
include hc hn hg

/-- Nothing is stored or declared. -/
theorem same (hf : c'.functions = c.functions) (hk : c'.constants = c.constants)
    (hs : c.space.Within c'.space) : c'.Arranged where
  cells := by
    refine hc.cells.mono (fun p t b => Compiler.Gives.congr hf hk) fun p t b _ hl => ?_
    exact ⟨hn ▸ hl, hs p.segment⟩
  globalName := hg ▸ hc.globalName
  literals := hk ▸ hc.literals

/-- A function is changed and keeps its cells, or gives some up. -/
theorem put (hf : c'.functions = c.functions.put f g') (hk : c'.constants = c.constants)
    (hs : c.space.Within c'.space) (hgives : ∀ p u b, g'.Gives f p u b → c.Gives p u b) :
    c'.Arranged where
  cells := by
    refine hc.cells.mono (fun p u b h => ?_) fun p u b _ hl => ⟨hn ▸ hl, hs p.segment⟩
    rcases h.of_put hf hk with ⟨-, h⟩ | h
    · exact h
    · exact hgives p u b h
  globalName := hg ▸ hc.globalName
  literals := hk ▸ hc.literals

/-- A new constant. -/
theorem addConstant {value : Literal} (htype : (typeOfLiteral value).scalar? = some r)
    (htaken : c.space.Taken c'.space .constant r ⟨a, 1⟩) (hf : c'.functions = c.functions)
    (hk : c'.constants = c.constants ++ [⟨value, typeOfLiteral value, a⟩]) : c'.Arranged := by
  have hgives : ∀ p u b, c'.Gives p u b → c.Gives p u b ∧ p ≠ .constant c.constants.length ∨
      p = .constant c.constants.length ∧ u = typeOfLiteral value ∧ b = ⟨a, 1⟩ := by
    intro p u b h
    cases h with
    | @constant i k h =>
      rw [hk] at h
      rcases getElem?_concat_cases h with ⟨hi, h⟩ | ⟨rfl, rfl⟩
      · refine .inl ⟨.constant h, fun heq => ?_⟩
        cases heq
        omega
      · exact .inr ⟨rfl, rfl, rfl⟩
    | function h hg =>
      refine .inl ⟨.function (hf ▸ h) hg, fun heq => ?_⟩
      rw [heq] at hg
      cases hg.owner
  refine ⟨?_, hg ▸ hc.globalName, fun k hk' => ?_⟩
  · rw [hn]
    exact hc.cells.add (p := .constant c.constants.length) (.inl rfl) htype Int.one_pos htaken hgives
  · rw [hk] at hk'
    rcases List.mem_append.mp hk' with h | h
    · exact hc.literals k h
    · rw [List.mem_singleton.mp h]

/-- A variable gets a cell that has just been taken, in a segment of its own or not. -/
theorem putVariable (hname : c.currentName = some f) (hget : c.functions.get? f = some g)
    (ht : g.declared = some t) {segment : Segment} (hdims : v.dims = []) (htype : v.type.scalar? = some r)
    (htaken : c.space.Taken c'.space segment r ⟨v.address, 1⟩)
    (hf : c'.functions = c.functions.put f { g with declared := some (t.put x v) })
    (hk : c'.constants = c.constants) : c'.Arranged := by
  have hgives : ∀ p u b, c'.Gives p u b → c.Gives p u b ∧ p ≠ .var f x ∨
      (p = .var f x ∧ u = v.type ∧ b = ⟨v.address, 1⟩) ∧ (ofScope f).Contains v.type v.address := by
    intro p u b h
    rcases h.of_put hf hk with ⟨howner, h⟩ | h
    · refine .inl ⟨h, fun heq => howner ?_⟩
      rw [heq]
      rfl
    · rcases h.of_putVariable ht with ⟨h, hne⟩ | ⟨rfl, rfl, rfl, own⟩
      · exact .inl ⟨.function hget h, hne⟩
      · exact .inr ⟨⟨rfl, rfl, by rw [hdims]; rfl⟩, own⟩
  refine ⟨?_, hg ▸ hc.globalName, hk ▸ hc.literals⟩
  rw [hn]
  by_cases hsegment : segment = ofScope f
  · subst hsegment
    exact hc.cells.add (p := .var f x) (.inr hname.symm) htype Int.one_pos htaken fun p u b h =>
      (hgives p u b h).imp_right And.left
  · -- the cell is of another segment, so the variable has none of its own
    refine hc.cells.mono (fun p u b h => ?_) fun p u b _ hl => ⟨hl, htaken.within p.segment⟩
    rcases hgives p u b h with ⟨h, -⟩ | ⟨-, own⟩
    · exact h
    · exfalso
      obtain ⟨r', htype', hlow, hhigh⟩ := own
      obtain rfl : r = r' := Option.some.inj (htype.symm.trans htype')
      have haddress : v.address = _ := htaken.address
      have hinside : v.address + 1 ≤ _ := htaken.inside
      have hnonneg := htaken.nonneg
      have hdiffer : ¬(segment = ofScope f ∧ r = r) := fun h => hsegment h.1
      rcases ranges_apart hdiffer with hr | hr <;> omega

/-- A result gets cells that have just been taken. -/
theorem putResult (hname : c.currentName = some f) (hget : c.functions.get? f = some g)
    (htype : g.returnType.scalar? = some r) (hdims : Positive g.returnDims)
    (htaken : c.space.Taken c'.space (ofScope f) r ⟨a, Compile.sizeOf g.returnDims⟩)
    (hf : c'.functions = c.functions.put f { g with returnAddress := some a })
    (hk : c'.constants = c.constants) : c'.Arranged := by
  refine ⟨?_, hg ▸ hc.globalName, hk ▸ hc.literals⟩
  rw [hn]
  refine hc.cells.add (p := .result f) (.inr hname.symm) htype hdims.sizeOf_pos htaken fun p u b h => ?_
  rcases h.of_put hf hk with ⟨howner, h⟩ | h
  · refine .inl ⟨h, fun heq => howner ?_⟩
    rw [heq]
    rfl
  · cases h with
    | var ht hv own => exact .inl ⟨.function hget (.var ht hv own), fun heq => by cases heq⟩
    | param hp => exact .inl ⟨.function hget (.param hp), fun heq => by cases heq⟩
    | result ha =>
      cases ha
      exact .inr ⟨rfl, rfl, rfl⟩

end

/-- A function is begun that gives nothing yet. -/
theorem begin (hc : c.Arranged) (hf : c'.functions = c.functions.put f g')
    (hk : c'.constants = c.constants) (hs : c'.space = c.space) (hn : c'.currentName = some f)
    (hg : c'.globalName = c.globalName ∨ c'.globalName = some "main")
    (hempty : ∀ p u b, ¬g'.Gives f p u b) : c'.Arranged where
  cells := by
    have hgives : ∀ p u b, c'.Gives p u b → p.owner ≠ some f ∧ c.Gives p u b := by
      intro p u b h
      rcases h.of_put hf hk with h | h
      · exact h
      · exact absurd h (hempty p u b)
    refine hc.cells.mono (fun p u b h => (hgives p u b h).2) fun p u b h hl => ?_
    refine ⟨?_, fun r => by rw [hs]⟩
    rcases hl with hl | hl | hl
    · exact .inl hl
    · exact .inr (.inl hl)
    · exact absurd (hl.trans hn) (hgives p u b h).1
  globalName := by
    rcases hg with hg | hg
    · exact hg ▸ hc.globalName
    · exact .inr hg
  literals := hk ▸ hc.literals

/-- A function is finished: its variables are forgotten, and its ranges are used again. -/
theorem finish (hc : c.Arranged) (hget : c.functions.get? f = some g)
    (hf : c'.functions = c.functions.put f g') (hdeclared : g'.declared = none)
    (hparams : g'.params = g.params) (hresult : g'.returnAddress = g.returnAddress)
    (htype : g'.returnType = g.returnType) (hdims : g'.returnDims = g.returnDims)
    (hk : c'.constants = c.constants) (hs : c'.space = c.space.resetLocals)
    (hn : c'.currentName = c.globalName) (hg : c'.globalName = c.globalName) : c'.Arranged where
  cells := by
    refine hc.cells.mono (fun p u b h => ?_) fun p u b _ hl => ?_
    · rcases h.of_put hf hk with ⟨-, h⟩ | h
      · exact h
      · cases h with
        | var ht => rw [hdeclared] at ht; cases ht
        | param hp => exact .function hget (.param (hparams ▸ hp))
        | result ha =>
          rw [htype, hdims]
          exact .function hget (.result (hresult ▸ ha))
    · -- what is counted now is a global or a constant
      have hsegment : p.segment = .global ∨ p.segment = .constant := by
        rcases hl with hl | hl | hl
        · exact .inl hl
        · exact .inr hl
        · rw [hn] at hl
          rcases hc.globalName with hglobal | hglobal <;> rw [hglobal] at hl
          · exact .inr (Holder.segment_of_owner_none hl)
          · exact .inl (Holder.segment_of_owner hl)
      refine ⟨hsegment.imp_right .inl, fun r => ?_⟩
      rw [hs]
      rcases hsegment with h | h <;> rw [h] <;> exact Int.le_refl _
  globalName := hg ▸ hc.globalName
  literals := hk ▸ hc.literals

end Compiler.Arranged

/-! ### The latest variable -/

/-- The variable named last is that of `x` in the function `f` at work, and its cell is the last one
of its range. -/
structure Compiler.Latest (c : Compiler) (f x : String) (g : Function) (t : Table Variable)
    (v : Variable) : Prop where
  currentName : c.currentName = some f
  named : c.named = some x
  function : c.functions.get? f = some g
  table : g.declared = some t
  entry : t.get? x = some v
  name : v.name = x
  dims : v.dims = []
  type : c.currentType = v.type
  last : ∀ r, v.type.scalar? = some r → v.address + 1 =
    (Segment.ofScope f).start r + (c.space.counts (Segment.ofScope f)).get r
  own : (Segment.ofScope f).Contains v.type v.address

namespace Compiler.Latest

variable {c c' : Compiler} {f x : String} {g g' : Function} {t : Table Variable} {v : Variable}

theorem gives (h : c.Latest f x g t v) : c.Gives (.var f x) v.type ⟨v.address, 1⟩ := by
  have hgives := Compiler.Gives.function h.function (.var h.table h.entry h.own)
  rw [h.dims] at hgives
  exact hgives

/-- There is room for the other cells of an array, when they are taken. -/
theorem room (h : c.Latest f x g t v) {space : Space}
    (hrest : c.space.takeRest f v.type n = (space, .ok a)) :
    ∀ r, v.type.scalar? = some r → v.address + n ≤ (ofScope f).stop r ∧
      v.address + n ≤ (ofScope f).start r + (space.counts (ofScope f)).get r := by
  intro r htype
  obtain ⟨r', htype', -, hroom, hcounts⟩ := Space.take_eq_ok hrest
  obtain rfl : r = r' := Option.some.inj (htype.symm.trans htype')
  have hlast := h.last r htype
  rw [hcounts, if_pos ⟨rfl, rfl⟩]
  omega

/-- The cells of the latest variable become `n`, and those of the parameter that it is, if any: `S`
says which holders that are. -/
theorem extend (h : c.Latest f x g t v) (hc : c.Arranged) {S : Holder → Prop}
    (hS : ∀ p, S p → p = .var f x ∨ ∃ i, p = .param f i) (hvar : S (.var f x))
    (hone : ∀ i j, S (.param f i) → S (.param f j) → i = j) (hn : 0 < n)
    (hparams : ∀ i p, g.params[i]? = some p → ¬S (.param f i) → p.address ≠ v.address)
    (hroom : ∀ r, v.type.scalar? = some r → v.address + n ≤ (ofScope f).stop r ∧ v.address + n ≤ (ofScope f).start r + (c'.space.counts (ofScope f)).get r)
    (hgives : ∀ p u b, g'.Gives f p u b → g.Gives f p u b ∧ ¬S p ∨ S p ∧ u = v.type ∧ b = ⟨v.address, n⟩)
    (hf : c'.functions = c.functions.put f g') (hk : c'.constants = c.constants)
    (hs : c.space.Within c'.space) (hcurrent : c'.currentName = c.currentName)
    (hg : c'.globalName = c.globalName) : c'.Arranged := by
  obtain ⟨r, htype, hlow, -⟩ := h.own
  have hlast := h.last r htype
  obtain ⟨hstop, hcount⟩ := hroom r htype
  have howner : ∀ p, S p → p.owner = some f := by
    intro p hp
    rcases hS p hp with rfl | ⟨i, rfl⟩ <;> rfl
  refine ⟨?_, hg ▸ hc.globalName, hk ▸ hc.literals⟩
  rw [hcurrent]
  have hall : ∀ p u b, c'.Gives p u b → c.Gives p u b ∧ ¬S p ∨ S p ∧ u = v.type ∧ b = ⟨v.address, n⟩ := by
    intro p u b hp
    rcases hp.of_put hf hk with ⟨hne, hp⟩ | hp
    · exact .inl ⟨hp, fun hSp => hne (howner p hSp)⟩
    · exact (hgives p u b hp).imp_left fun hp => ⟨.function h.function hp.1, hp.2⟩
  refine hc.cells.grow hall ?_ ?_ htype hn ?_ hs
  · intro p q hp hq hne
    rcases hS p hp with rfl | ⟨i, rfl⟩ <;> rcases hS q hq with rfl | ⟨j, rfl⟩
    · exact absurd rfl hne
    · exact rfl
    · exact rfl
    · exact absurd (congrArg _ (hone i j hp hq)) hne
  · intro p q u b' hp hq hSq hm
    have hm' : (Holder.var f x).Meets q := by
      rw [Holder.Meets, show (Holder.var f x).owner = p.owner from (howner p hp).symm]
      exact hm
    have hcell : Block.Apart ⟨v.address, 1⟩ b' := by
      rcases hc.cells.apart h.gives hq hm' (fun heq => hSq (heq ▸ hvar)) with hapart | ⟨hnamed, -, heq⟩
      · exact hapart
      · -- a parameter in the same cell would be that of the variable
        exfalso
        cases q with
        | param f' i =>
          obtain rfl : f = f' := hnamed
          cases hq with
          | function hget hgp =>
            cases hgp with
            | param hp =>
              rw [h.function] at hget
              cases hget
              exact hparams i _ hp hSq (congrArg Block.address heq).symm
        | _ => exact hnamed
    exact hc.cells.apart_of_last (p := .var f x) (.inr h.currentName.symm) hlast hlow
      hstop hq hm' hcell
  · intro p hp
    rw [show p.segment = ofScope f from Holder.segment_of_owner (howner p hp)]
    exact ⟨hlow, hstop, hcount⟩

end Compiler.Latest

end QuadLang
