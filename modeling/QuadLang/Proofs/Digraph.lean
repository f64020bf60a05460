/-
Sets along a relation, computed by one walk.

`digraph` walks a relation depth first and gives every node a set.  The sets are the least
ones: the set of a node holds what the nodes that it reaches began with, and nothing else.

* `Lalr.Reaches` — one node leads to another along the relation;
* `Lalr.Walk.Sane` — what holds of a walk between its steps;
* `Lalr.Walk.Explores` — what a walk from a node has found while the node is on the stack;
* `Lalr.exists_digraph` — the walk ends, and the sets are the least ones.

Design notes: a node that has been left can stay on the stack, when it leads to a node that
lies deeper.  Then it leads to every node above that one, so all that stays above a node
lies on common cycles with it, and sharing one cell loses nothing.  Positions on the stack
are counted from its bottom: they do not change when something is put on top.
-/
import Mathlib.Logic.Relation
import QuadLang.Lalr.Digraph

namespace QuadLang.Lalr

variable {α β : Type} {rel : α → List α} {b : β}

def Reaches (rel : α → List α) (x y : α) : Prop := Relation.ReflTransGen (fun x y => y ∈ rel x) x y

namespace Reaches

theorem refl (x : α) : Reaches rel x x := Relation.ReflTransGen.refl

theorem trans {x y z : α} (h : Reaches rel x y) (h' : Reaches rel y z) : Reaches rel x z :=
  Relation.ReflTransGen.trans h h'

theorem single {x y : α} (h : y ∈ rel x) : Reaches rel x y := Relation.ReflTransGen.single h

end Reaches

/-- What the nodes that `x` reaches begin with. -/
def Gathers (rel : α → List α) (f : α → List β) (x : α) (b : β) : Prop :=
  ∃ y, Reaches rel x y ∧ b ∈ f y

theorem Gathers.of_reaches {f : α → List β} {x y : α} (h : Reaches rel x y) (hb : Gathers rel f y b)
    : Gathers rel f x b := by
  obtain ⟨z, hz, hb⟩ := hb
  exact ⟨z, h.trans hz, hb⟩

/-- `y` is the node at place `k` of a stack, counted from its bottom. -/
def At (stack : List α) (k : Nat) (y : α) : Prop :=
  ∃ above below, stack = above ++ y :: below ∧ k = below.length + 1

namespace At

variable {stack extra : List α} {k j : Nat} {y z : α}

theorem mem (h : At stack k y) : y ∈ stack := by
  obtain ⟨above, below, rfl, -⟩ := h
  simp

theorem pos (h : At stack k y) : 0 < k := by
  obtain ⟨-, below, -, rfl⟩ := h
  exact Nat.succ_pos _

theorem le_length (h : At stack k y) : k ≤ stack.length := by
  obtain ⟨above, below, rfl, rfl⟩ := h
  simp

theorem exists_of_mem (h : y ∈ stack) : ∃ k, At stack k y := by
  obtain ⟨above, below, rfl⟩ := List.append_of_mem h
  exact ⟨_, above, below, rfl, rfl⟩

theorem append (h : At stack k y) (extra : List α) : At (extra ++ stack) k y := by
  obtain ⟨above, below, rfl, rfl⟩ := h
  exact ⟨extra ++ above, below, by simp, rfl⟩

/-- A place below the top part of a stack. -/
theorem of_append (h : At (extra ++ stack) k y) (hk : k ≤ stack.length) : At stack k y := by
  obtain ⟨above, below, heq, rfl⟩ := h
  rcases List.append_eq_append_iff.mp heq with ⟨as, rfl, rfl⟩ | ⟨bs, rfl, hbs⟩
  · exact ⟨as, below, rfl, rfl⟩
  · rcases bs with _ | ⟨b, bs⟩
    · exact ⟨[], below, by simpa using hbs.symm, rfl⟩
    · have := congrArg List.length hbs
      simp at this
      omega

theorem le_of_nodup (h : At stack k y) (h' : At stack j y) (hs : stack.Nodup) : j ≤ k := by
  obtain ⟨above, below, rfl, rfl⟩ := h'
  rw [List.append_cons] at h
  rcases Nat.lt_or_ge below.length k with hlt | hge
  · exact hlt
  · -- a deeper place would be a second one
    have hmem : y ∈ below := (h.of_append hge).mem
    exact absurd hmem (List.nodup_cons.mp (List.nodup_append.mp hs).2.1).1

/-- A node has one place on a stack without repetitions. -/
theorem eq_of_nodup (h : At stack k y) (h' : At stack j y) (hs : stack.Nodup) : k = j :=
  Nat.le_antisymm (h'.le_of_nodup h hs) (h.le_of_nodup h' hs)

end At

/-! ### The parts of a walk -/

section Parts

variable [BEq α] [LawfulBEq α]

/-- Looking up after the entries of some keys have got one value. -/
theorem lookup_map_ite {γ : Type} (p : α → Bool) (v : γ) (x : α) (l : List (α × γ)) :
    (l.map fun e => if p e.1 then (e.1, v) else e).lookup x =
      (l.lookup x).map fun u => if p x then v else u := by
  induction l with
  | nil => rfl
  | cons e l ih =>
    obtain ⟨y, u⟩ := e
    by_cases hxy : x = y
    · subst hxy
      by_cases hp : p x <;> simp [hp]
    · have hne : (x == y) = false := beq_false_of_ne hxy
      by_cases hp : p y <;> simp [hp, List.lookup_cons, hne, ih]

theorem mem_addNew [BEq β] [LawfulBEq β] {acc : List β} {a : β} :
    b ∈ (if acc.contains a then acc else acc ++ [a]) ↔ b ∈ acc ∨ b = a := by
  split
  · next h =>
    have ha : a ∈ acc := List.contains_iff_mem.mp h
    constructor
    · exact .inl
    · rintro (hb | rfl)
      · exact hb
      · exact ha
  · simp

theorem mem_foldl_addNew [BEq β] [LawfulBEq β] {l acc : List β} :
    b ∈ l.foldl (fun acc a => if acc.contains a then acc else acc ++ [a]) acc ↔ b ∈ acc ∨ b ∈ l := by
  induction l generalizing acc with
  | nil => simp
  | cons a l ih =>
    rw [List.foldl_cons, ih, mem_addNew, List.mem_cons, or_assoc]

namespace Walk

variable {w : Walk α β} {x y z : α} {m : Mark}

theorem mark?_setMark : (w.setMark x m).mark? y =
    (w.mark? y).map fun u => if y == x then m else u :=
  lookup_map_ite (· == x) m y w.marks

theorem mark?_setMark_self (h : w.mark? x ≠ none) : (w.setMark x m).mark? x = some m := by
  rw [mark?_setMark]
  obtain ⟨u, hu⟩ := Option.ne_none_iff_exists'.mp h
  simp [hu]

theorem mark?_setMark_of_ne (h : y ≠ x) : (w.setMark x m).mark? y = w.mark? y := by
  rw [mark?_setMark, beq_false_of_ne h]
  simp

end Walk

end Parts

namespace Sets

variable [BEq α] {s : Sets α β} {x : α} {c : Nat}

theorem get_of_lookup (h : s.cellOf.lookup x = some c) : s.get x = (s.cells[c]?).getD [] := by
  rw [get, h]
  rfl

theorem get_set_of_ne (h : s.cellOf.lookup x = some c) {c' : Nat} (hne : c' ≠ c) (l : List β) :
    (Sets.mk s.cellOf (s.cells.setIfInBounds c' l)).get x = s.get x := by
  simp [get, h, Array.getElem?_setIfInBounds, hne]

theorem get_set_self (h : s.cellOf.lookup x = some c) (hc : c < s.cells.size) (l : List β) :
    (Sets.mk s.cellOf (s.cells.setIfInBounds c l)).get x = l := by
  simp [get, h, hc]

end Sets

namespace Walk

variable [BEq α] {nodes extra extra' : List α} {f : α → List β} {w v v' : Walk α β} {x y z u : α}
  {c : Nat} {go : α → Walk α β → Except α (Walk α β)}

structure Sane (nodes : List α) (rel : α → List α) (f : α → List β) (w : Walk α β) : Prop where
  known : ∀ {x}, w.mark? x ≠ none ↔ x ∈ nodes
  nodup : w.stack.Nodup
  opened : ∀ {x}, x ∈ w.stack ↔ ∃ l, w.mark? x = some (.opened l)
  /-- The number of a node on the stack is a place that it reaches. -/
  low : ∀ {x k l}, At w.stack k x → w.mark? x = some (.opened l) →
    l ≤ k ∧ ∃ y, At w.stack l y ∧ Reaches rel x y
  cell : ∀ {x}, x ∈ nodes → ∃ c, w.sets.cellOf.lookup x = some c ∧ c < w.sets.cells.size
  /-- A node that is not closed has a cell of its own. -/
  alone : ∀ {x y c}, x ∈ nodes → y ∈ nodes → w.mark? x ≠ some .closed →
    w.sets.cellOf.lookup x = some c → w.sets.cellOf.lookup y = some c → x = y
  shared : ∀ {x y c}, x ∈ nodes → y ∈ nodes → w.sets.cellOf.lookup x = some c →
    w.sets.cellOf.lookup y = some c → Reaches rel x y
  closed : ∀ {x y}, w.mark? x = some .closed → y ∈ rel x → w.mark? y = some .closed
  full : ∀ {x b}, w.mark? x = some .closed → Gathers rel f x b → b ∈ w.sets.get x
  own : ∀ {x b}, x ∈ nodes → b ∈ f x → b ∈ w.sets.get x
  sound : ∀ {x b}, x ∈ nodes → b ∈ w.sets.get x → Gathers rel f x b

namespace Sane

variable (h : Sane nodes rel f w)

include h

theorem mem_of_mark {m : Mark} (hm : w.mark? x = some m) : x ∈ nodes :=
  h.known.mp (by rw [hm]; exact Option.some_ne_none m)

theorem mem_of_stack (hx : x ∈ w.stack) : x ∈ nodes := by
  obtain ⟨l, hl⟩ := h.opened.mp hx
  exact h.mem_of_mark hl

theorem get_subset_of_closed (hx : w.mark? x = some .closed) (hy : y ∈ rel x)
    (hb : b ∈ w.sets.get y) : b ∈ w.sets.get x := by
  have hy' := h.closed hx hy
  exact h.full hx ((h.sound (h.mem_of_mark hy') hb).of_reaches (.single hy))

end Sane

/-! ### Meeting a node -/

/-- What `v` is after the set of `y` and the place that `y` reaches have been brought to `x`. -/
structure Meets (nodes : List α) (x y : α) (w v : Walk α β) : Prop where
  stack : v.stack = w.stack
  cellOf : v.sets.cellOf = w.sets.cellOf
  size : v.sets.cells.size = w.sets.cells.size
  mark_of_ne : ∀ {z}, z ≠ x → v.mark? z = w.mark? z
  mark : ∃ l l', w.mark? x = some (.opened l) ∧ v.mark? x = some (.opened l') ∧ l' ≤ l ∧
    (∀ e, w.mark? y = some (.opened e) → l' ≤ e) ∧ (l' = l ∨ w.mark? y = some (.opened l'))
  get_of_ne : ∀ {z}, z ∈ nodes → z ≠ x → v.sets.get z = w.sets.get z
  get : ∀ {b}, b ∈ v.sets.get x ↔ b ∈ w.sets.get x ∨ b ∈ w.sets.get y

theorem lower_spec [LawfulBEq α] {l : Nat} (hx : w.mark? x = some (.opened l)) :
    (w.lower x y).stack = w.stack ∧ (w.lower x y).sets = w.sets ∧
      (∀ {z}, z ≠ x → (w.lower x y).mark? z = w.mark? z) ∧
      ∃ l', (w.lower x y).mark? x = some (.opened l') ∧ l' ≤ l ∧
        (∀ e, w.mark? y = some (.opened e) → l' ≤ e) ∧ (l' = l ∨ w.mark? y = some (.opened l')) := by
  rw [lower, hx]
  rcases hy : w.mark? y with _ | m
  · exact ⟨rfl, rfl, fun _ => rfl, l, hx, Nat.le_refl l, fun e he => (by cases he), .inl rfl⟩
  cases m with
  | unseen | closed => exact ⟨rfl, rfl, fun _ => rfl, l, hx, Nat.le_refl l, fun e he => (by cases he), .inl rfl⟩
  | opened e =>
    refine ⟨rfl, rfl, fun hz => mark?_setMark_of_ne hz, min l e,
      mark?_setMark_self (by rw [hx]; exact Option.some_ne_none _), Nat.min_le_left l e, ?_, ?_⟩
    · intro e' he'
      cases he'
      exact Nat.min_le_right l e
    · rcases Nat.le_total l e with hle | hle
      · exact .inl (Nat.min_eq_left hle)
      · exact .inr (by rw [Nat.min_eq_right hle])

theorem absorb_eq [BEq β] (hc : w.sets.cellOf.lookup x = some c) : w.absorb x y =
    Walk.mk w.marks w.stack w.met (Sets.mk w.sets.cellOf (w.sets.cells.setIfInBounds c
      ((w.sets.get y).foldl (fun acc a => if acc.contains a then acc else acc ++ [a])
        (w.sets.get x)))) := by
  rw [absorb, hc]

theorem Sane.meets [LawfulBEq α] [BEq β] [LawfulBEq β] (h : Sane nodes rel f w) (hx : x ∈ w.stack) :
    Meets nodes x y w ((w.lower x y).absorb x y) := by
  obtain ⟨l, hl⟩ := h.opened.mp hx
  obtain ⟨hstack, hsets, hmarks, l', hl', hle, hy, hor⟩ := lower_spec (y := y) hl
  have hmem := h.mem_of_mark hl
  obtain ⟨c, hc, hlt⟩ := h.cell hmem
  rw [absorb_eq (c := c) (by rw [hsets, hc]), hsets]
  refine ⟨hstack, rfl, Array.size_setIfInBounds, hmarks, ⟨l, l', hl, hl', hle, hy, hor⟩, ?_, ?_⟩
  · intro z hz hne
    obtain ⟨c', hc', -⟩ := h.cell hz
    -- the cell of `x` is its own, since `x` is not closed
    have hcc : c ≠ c' := by
      rintro rfl
      exact hne (h.alone hmem hz (by rw [hl]; simp) hc hc').symm
    exact Sets.get_set_of_ne hc' hcc _
  · intro b
    rw [← mem_foldl_addNew]
    exact iff_of_eq (congrArg (b ∈ ·) (Sets.get_set_self hc hlt _))

theorem Meets.closed (hv : Meets nodes x y v v') (hs : Sane nodes rel f v)
    (hu : v.mark? u = some .closed) : v'.mark? u = some .closed ∧ v'.sets.get u = v.sets.get u := by
  have hne : u ≠ x := by
    rintro rfl
    obtain ⟨l, l', hl, -⟩ := hv.mark
    rw [hl] at hu
    cases hu
  exact ⟨by rw [hv.mark_of_ne hne, hu], hv.get_of_ne (hs.mem_of_mark hu) hne⟩

/-- Meeting a node that has been seen keeps a walk sane. -/
theorem Sane.meet (h : Sane nodes rel f w) (hv : Meets nodes x y w v) (hx : x ∈ w.stack)
    (hxy : y ∈ rel x) (hy : y ∈ nodes) : Sane nodes rel f v := by
  obtain ⟨l, l', hl, hl', hle, hlow, hor⟩ := hv.mark
  have hxmem := h.mem_of_stack hx
  have hclosed : ∀ {z}, v.mark? z = some .closed → w.mark? z = some .closed ∧ z ≠ x := by
    intro z hz
    have hne : z ≠ x := by
      rintro rfl
      rw [hl'] at hz
      cases hz
    exact ⟨by rw [← hv.mark_of_ne hne, hz], hne⟩
  refine ⟨?_, by rw [hv.stack]; exact h.nodup, ?_, ?_, ?_, ?_, ?_, ?_, ?_, ?_, ?_⟩
  · intro z
    by_cases hz : z = x
    · subst hz
      rw [hl']
      simpa using hxmem
    · rw [hv.mark_of_ne hz]
      exact h.known
  · intro z
    rw [hv.stack]
    by_cases hz : z = x
    · subst hz
      exact iff_of_true hx ⟨l', hl'⟩
    · rw [hv.mark_of_ne hz]
      exact h.opened
  · intro z k e hk he
    rw [hv.stack] at hk ⊢
    by_cases hz : z = x
    · subst hz
      obtain rfl : l' = e := by simpa [hl'] using he
      refine ⟨Nat.le_trans hle (h.low hk hl).1, ?_⟩
      -- the lower place is the old one, or the one that `y` reaches
      rcases hor with rfl | hyl
      · exact (h.low hk hl).2
      · obtain ⟨j, hj⟩ := At.exists_of_mem (h.opened.mpr ⟨l', hyl⟩)
        obtain ⟨-, u, hu, hyu⟩ := h.low hj hyl
        exact ⟨u, hu, (Reaches.single hxy).trans hyu⟩
    · rw [hv.mark_of_ne hz] at he
      exact h.low hk he
  · intro z hz
    rw [hv.cellOf, hv.size]
    exact h.cell hz
  · intro z u c hz hu hopen hzc huc
    rw [hv.cellOf] at hzc huc
    exact h.alone hz hu (fun hzclosed => hopen (hv.closed h hzclosed).1) hzc huc
  · intro z u c hz hu hzc huc
    rw [hv.cellOf] at hzc huc
    exact h.shared hz hu hzc huc
  · intro z u hz hu
    exact (hv.closed h (h.closed (hclosed hz).1 hu)).1
  · intro z b hz hb
    obtain ⟨hz', hne⟩ := hclosed hz
    rw [hv.get_of_ne (h.mem_of_mark hz') hne]
    exact h.full hz' hb
  · intro z b hz hb
    by_cases hzx : z = x
    · subst hzx
      exact hv.get.mpr (.inl (h.own hz hb))
    · rw [hv.get_of_ne hz hzx]
      exact h.own hz hb
  · intro z b hz hb
    by_cases hzx : z = x
    · subst hzx
      rcases hv.get.mp hb with hb | hb
      · exact h.sound hz hb
      · exact (h.sound hy hb).of_reaches (.single hxy)
    · rw [hv.get_of_ne hz hzx] at hb
      exact h.sound hz hb

/-! ### Exploring a node -/

/-- What has been seen stays as it is. -/
def Keeps (w v : Walk α β) : Prop :=
  ∀ ⦃y m⦄, w.mark? y = some m → m ≠ .unseen → v.mark? y = some m ∧ v.sets.get y = w.sets.get y

theorem Keeps.trans (h : Keeps w v) (h' : Keeps v v') : Keeps w v' := by
  intro y m hy hm
  obtain ⟨hy', hset⟩ := h hy hm
  rw [← hset]
  exact h' hy' hm

/-- The relation to `u` is accounted for at `x`, which was put on the stack of `w`: the set of
`u` is complete and part of that of `x`, or `u` lies above `x`, or `x` knows of a place that is
at least as deep. -/
def Settled (x : α) (w : Walk α β) (extra : List α) (v : Walk α β) (u : α) : Prop :=
  (v.mark? u = some .closed ∧ ∀ b ∈ v.sets.get u, b ∈ v.sets.get x) ∨ u ∈ x :: extra ∨
    ∃ l k, v.mark? x = some (.opened l) ∧ At w.stack k u ∧ l ≤ k

/-- What a walk from `x` that began at `w` has found at `v`, when it has gone to the nodes
`done` next to `x`.  The nodes `extra` have been left and lie above `x`. -/
structure Explores (nodes : List α) (rel : α → List α) (f : α → List β) (x : α) (w : Walk α β)
    (extra done : List α) (v : Walk α β) : Prop where
  fresh : w.mark? x = some .unseen
  sane : Sane nodes rel f v
  stack : v.stack = extra ++ x :: w.stack
  keeps : Keeps w v
  cycle : ∀ z ∈ extra, Reaches rel x z ∧ Reaches rel z x
  own : ∀ z ∈ extra, ∀ b ∈ f z, b ∈ v.sets.get x
  left : ∀ z ∈ extra, ∀ u ∈ rel z, Settled x w extra v u
  here : ∀ u ∈ done, Settled x w extra v u

theorem Sane.enter [LawfulBEq α] (h : Sane nodes rel f w) (hx : w.mark? x = some .unseen) :
    Explores nodes rel f x w [] [] (w.enter x) := by
  have hmem := h.mem_of_mark hx
  obtain ⟨v, hv⟩ : ∃ v, v = w.enter x := ⟨_, rfl⟩
  have hself : v.mark? x = some (.opened (w.stack.length + 1)) := by
    rw [hv]
    exact mark?_setMark_self (by rw [hx]; exact Option.some_ne_none _)
  have hne : ∀ {z}, z ≠ x → v.mark? z = w.mark? z := by
    intro z hz
    rw [hv]
    exact mark?_setMark_of_ne hz
  have hstack : v.stack = x :: w.stack := by rw [hv]; rfl
  have hsets : v.sets = w.sets := by rw [hv]; rfl
  rw [← hv]
  have hnot : x ∉ w.stack := by
    intro hmem
    obtain ⟨l, hl⟩ := h.opened.mp hmem
    rw [hx] at hl
    cases hl
  have hclosed : ∀ {z}, v.mark? z = some .closed ↔ w.mark? z = some .closed := by
    intro z
    by_cases hz : z = x
    · subst hz
      simp [hself, hx]
    · rw [hne hz]
  refine ⟨hx, ⟨?_, ?_, ?_, ?_, ?_, ?_, ?_, ?_, ?_, ?_, ?_⟩, hstack, ?_, by simp, by simp, by simp, by simp⟩
  · intro z
    by_cases hz : z = x
    · subst hz
      simpa [hself] using hmem
    · rw [hne hz]
      exact h.known
  · rw [hstack]
    exact List.nodup_cons.mpr ⟨hnot, h.nodup⟩
  · intro z
    rw [hstack, List.mem_cons]
    by_cases hz : z = x
    · subst hz
      exact iff_of_true (.inl rfl) ⟨_, hself⟩
    · rw [hne hz, ← h.opened]
      simp [hz]
  · intro z k l hk hl
    rw [hstack] at hk ⊢
    by_cases hz : z = x
    · subst hz
      obtain rfl : w.stack.length + 1 = l := by simpa [hself] using hl
      have htop : At (z :: w.stack) (w.stack.length + 1) z := ⟨[], w.stack, rfl, rfl⟩
      exact ⟨hk.le_of_nodup htop (List.nodup_cons.mpr ⟨hnot, h.nodup⟩), z, htop, .refl z⟩
    · rw [hne hz] at hl
      obtain ⟨j, hj⟩ := At.exists_of_mem (h.opened.mpr ⟨l, hl⟩)
      obtain ⟨hle, y, hy, hzy⟩ := h.low hj hl
      have hjk := hk.eq_of_nodup (hj.append [x]) (List.nodup_cons.mpr ⟨hnot, h.nodup⟩)
      exact ⟨hjk ▸ hle, y, hy.append [x], hzy⟩
  · intro z hz
    rw [hsets]
    exact h.cell hz
  · intro z u c hz hu hopen hzc huc
    rw [hsets] at hzc huc
    exact h.alone hz hu (fun hc => hopen (hclosed.mpr hc)) hzc huc
  · intro z u c hz hu hzc huc
    rw [hsets] at hzc huc
    exact h.shared hz hu hzc huc
  · intro z u hz hu
    exact hclosed.mpr (h.closed (hclosed.mp hz) hu)
  · intro z b hz hb
    rw [hsets]
    exact h.full (hclosed.mp hz) hb
  · intro z b hz hb
    rw [hsets]
    exact h.own hz hb
  · intro z b hz hb
    rw [hsets] at hb
    exact h.sound hz hb
  · intro y m hy hm
    have hyx : y ≠ x := by
      rintro rfl
      rw [hx] at hy
      cases hy
      exact hm rfl
    exact ⟨by rw [hne hyx, hy], by rw [hsets]⟩

theorem Settled.mono (h : Settled x w extra v u) (hextra : ∀ z ∈ extra, z ∈ extra')
    (hclosed : ∀ {u}, v.mark? u = some .closed →
      v'.mark? u = some .closed ∧ v'.sets.get u = v.sets.get u)
    (hget : ∀ b ∈ v.sets.get x, b ∈ v'.sets.get x)
    (hlow : ∀ {l}, v.mark? x = some (.opened l) → ∃ l', v'.mark? x = some (.opened l') ∧ l' ≤ l) :
    Settled x w extra' v' u := by
  rcases h with ⟨hu, hsub⟩ | hu | ⟨l, k, hl, hk, hle⟩
  · obtain ⟨hu', hset⟩ := hclosed hu
    exact .inl ⟨hu', fun b hb => hget b (hsub b (hset ▸ hb))⟩
  · rcases List.mem_cons.mp hu with rfl | hu
    · exact .inr (.inl List.mem_cons_self)
    · exact .inr (.inl (List.mem_cons_of_mem _ (hextra u hu)))
  · obtain ⟨l', hl', hle'⟩ := hlow hl
    exact .inr (.inr ⟨l', k, hl', hk, Nat.le_trans hle' hle⟩)

/-- What the walk to a node that gets closed leaves behind. -/
structure Closes (nodes : List α) (rel : α → List α) (f : α → List β) (x : α)
    (w v : Walk α β) : Prop where
  sane : Sane nodes rel f v
  stack : v.stack = w.stack
  keeps : Keeps w v
  mark : v.mark? x = some .closed

namespace Explores

variable {extra done : List α} {m : Mark} {v' : Walk α β}

theorem mem_stack (h : Explores nodes rel f x w extra done v) : x ∈ v.stack := by
  rw [h.stack]
  simp

theorem opened (h : Explores nodes rel f x w extra done v) :
    ∃ l, v.mark? x = some (.opened l) ∧ l ≤ w.stack.length + 1 := by
  obtain ⟨l, hl⟩ := h.sane.opened.mp h.mem_stack
  have hat : At v.stack (w.stack.length + 1) x := ⟨extra, w.stack, h.stack, rfl⟩
  exact ⟨l, hl, (h.sane.low hat hl).1⟩

section

variable (h : Explores nodes rel f x w extra done v)
include h

/-- Every node on the stack leads to the node that is explored. -/
theorem reaches (hw : ∀ z ∈ w.stack, Reaches rel z x) (hz : z ∈ v.stack) : Reaches rel z x := by
  rw [h.stack, List.mem_append, List.mem_cons] at hz
  rcases hz with hz | rfl | hz
  · exact (h.cycle z hz).2
  · exact .refl z
  · exact hw z hz

/-- What had been seen before is not the node that is explored. -/
theorem ne (hz : w.mark? z = some m) (hm : m ≠ .unseen) : z ≠ x := by
  rintro rfl
  rw [h.fresh] at hz
  cases hz
  exact hm rfl

/-- A node on the stack lies above the others, or it was there before, as deep as it is now. -/
theorem stack_cases {u : α} (hu : u ∈ v.stack) :
    u ∈ x :: extra ∨ ∃ k, At w.stack k u ∧ At v.stack k u := by
  rw [h.stack, List.mem_append, List.mem_cons] at hu
  rcases hu with hu | rfl | hu
  · exact .inl (List.mem_cons_of_mem _ hu)
  · exact .inl List.mem_cons_self
  · obtain ⟨k, hk⟩ := At.exists_of_mem hu
    refine .inr ⟨k, hk, ?_⟩
    rw [h.stack, List.append_cons]
    exact hk.append _

/-- The walk to a node that gets closed changes nothing else. -/
theorem after_closes (h' : Closes nodes rel f y v v') : Explores nodes rel f x w extra done v' := by
  obtain ⟨l, hl, -⟩ := h.opened
  obtain ⟨hl', hget⟩ := h'.keeps hl (by simp)
  have hmono : ∀ {u}, Settled x w extra v u → Settled x w extra v' u := by
    intro u hu
    refine hu.mono (fun z hz => hz) (fun hu => h'.keeps hu (by simp)) (by simp [hget]) ?_
    intro l₀ hl₀
    exact ⟨l, hl', by simp_all⟩
  refine ⟨h.fresh, h'.sane, by rw [h'.stack, h.stack], h.keeps.trans h'.keeps, h.cycle, ?_, ?_, ?_⟩
  · intro z hz b hb
    rw [hget]
    exact h.own z hz b hb
  · exact fun z hz u hu => hmono (h.left z hz u hu)
  · exact fun u hu => hmono (h.here u hu)

end

/-- A node that has been seen is met. -/
theorem meet (h : Explores nodes rel f x w extra done v) (hv : Meets nodes x y v v')
    (hxy : y ∈ rel x) (hy : v.mark? y = some m) (hm : m ≠ .unseen) :
    Explores nodes rel f x w extra (y :: done) v' := by
  obtain ⟨l, l', hl, hl', hle, hlow, -⟩ := hv.mark
  have hymem := h.sane.mem_of_mark hy
  have hclosed := fun {u} => hv.closed (u := u) h.sane
  have hmono : ∀ {u}, Settled x w extra v u → Settled x w extra v' u := by
    intro u hu
    refine hu.mono (fun z hz => hz) hclosed (fun b hb => hv.get.mpr (.inl hb)) ?_
    intro l₀ hl₀
    exact ⟨l', hl', by simp_all⟩
  refine ⟨h.fresh, h.sane.meet hv h.mem_stack hxy hymem, by rw [hv.stack, h.stack], ?_, h.cycle,
    ?_, ?_, ?_⟩
  · intro z m hz hm
    have hzx := h.ne hz hm
    obtain ⟨hz', hset⟩ := h.keeps hz hm
    exact ⟨by rw [hv.mark_of_ne hzx, hz'], by rw [hv.get_of_ne (h.sane.mem_of_mark hz') hzx, hset]⟩
  · exact fun z hz b hb => hv.get.mpr (.inl (h.own z hz b hb))
  · exact fun z hz u hu => hmono (h.left z hz u hu)
  · intro u hu
    rcases List.mem_cons.mp hu with rfl | hu
    · cases m with
      | unseen => exact absurd rfl hm
      | closed =>
        obtain ⟨hu', hset⟩ := hclosed hy
        exact .inl ⟨hu', fun b hb => hv.get.mpr (.inr (hset ▸ hb))⟩
      | opened e =>
        -- it lies above, or it is deeper than what `x` now knows of
        rcases h.stack_cases (h.sane.opened.mpr ⟨e, hy⟩) with hu | ⟨k, hk, hk'⟩
        · exact .inr (.inl hu)
        · exact .inr (.inr ⟨l', k, hl', hk, Nat.le_trans (hlow e hy) (h.sane.low hk' hy).1⟩)
    · exact hmono (h.here u hu)

/-- A node that has been explored and stays on the stack is met. -/
theorem child (h : Explores nodes rel f x w extra done v) (hw : ∀ z ∈ w.stack, Reaches rel z x)
    {v'' : Walk α β} (h' : Explores nodes rel f y v extra' (rel y) v') {e : Nat}
    (he : v'.mark? y = some (.opened e)) (hle : e ≤ v.stack.length) (hv : Meets nodes x y v' v'')
    (hxy : y ∈ rel x) : Explores nodes rel f x w (extra' ++ y :: extra) (y :: done) v'' := by
  obtain ⟨l₀, hl₀, -⟩ := h.opened
  obtain ⟨hx', hgetx⟩ := h'.keeps hl₀ (by simp)
  obtain ⟨l, l', hl, hl', hll, hlow, -⟩ := hv.mark
  obtain rfl : l₀ = l := by simp_all
  have hstack : v'.stack = (extra' ++ [y]) ++ v.stack := by rw [h'.stack]; simp
  -- `y` reaches something that lay on the stack before, and hence `x`
  have hyx : Reaches rel y x := by
    have hat : At v'.stack (v.stack.length + 1) y := ⟨extra', v.stack, h'.stack, rfl⟩
    obtain ⟨-, u, hu, hyu⟩ := h'.sane.low hat he
    rw [hstack] at hu
    exact hyu.trans (h.reaches hw (hu.of_append hle).mem)
  have hxy' : Reaches rel x y := .single hxy
  have hclosed := fun {u} => hv.closed (u := u) h'.sane
  have hold : ∀ {u}, Settled x w extra v u → Settled x w (extra' ++ y :: extra) v'' u := by
    intro u hu
    refine hu.mono (fun z hz => by simp [hz]) ?_ (fun b hb => hv.get.mpr (.inl (hgetx ▸ hb))) ?_
    · intro u hu
      obtain ⟨hu', hset⟩ := h'.keeps hu (by simp)
      rw [← hset]
      exact hclosed hu'
    · intro l₁ hl₁
      exact ⟨l', hl', by simp_all⟩
  have hnew : ∀ {u}, Settled y v extra' v' u → Settled x w (extra' ++ y :: extra) v'' u := by
    intro u hu
    rcases hu with ⟨hu, hsub⟩ | hu | ⟨e', k, he', hk, hek⟩
    · obtain ⟨hu', hset⟩ := hclosed hu
      exact .inl ⟨hu', fun b hb => hv.get.mpr (.inr (hsub b (hset ▸ hb)))⟩
    · refine .inr (.inl (List.mem_cons_of_mem _ ?_))
      rcases List.mem_cons.mp hu with rfl | hu
      · simp
      · simp [hu]
    · rcases h.stack_cases hk.mem with hu | ⟨j, hj, hj'⟩
      · refine .inr (.inl ?_)
        rcases List.mem_cons.mp hu with rfl | hu
        · exact List.mem_cons_self
        · simp [hu]
      · obtain rfl := hk.eq_of_nodup hj' h.sane.nodup
        exact .inr (.inr ⟨l', k, hl', hj, Nat.le_trans (hlow e' he') hek⟩)
  refine ⟨h.fresh, h'.sane.meet hv ?_ hxy (h'.sane.mem_of_mark he), ?_, ?_, ?_, ?_, ?_, ?_⟩
  · rw [hstack]
    exact List.mem_append_right _ h.mem_stack
  · rw [hv.stack, h'.stack, h.stack]
    simp
  · intro z m hz hm
    have hzx := h.ne hz hm
    obtain ⟨hz', hset⟩ := h.keeps hz hm
    obtain ⟨hz'', hset'⟩ := h'.keeps hz' hm
    exact ⟨by rw [hv.mark_of_ne hzx, hz''],
      by rw [hv.get_of_ne (h'.sane.mem_of_mark hz'') hzx, hset', hset]⟩
  · intro z hz
    rcases List.mem_append.mp hz with hz | hz
    · exact ⟨hxy'.trans (h'.cycle z hz).1, (h'.cycle z hz).2.trans hyx⟩
    · rcases List.mem_cons.mp hz with rfl | hz
      · exact ⟨hxy', hyx⟩
      · exact h.cycle z hz
  · intro z hz b hb
    rcases List.mem_append.mp hz with hz | hz
    · exact hv.get.mpr (.inr (h'.own z hz b hb))
    · rcases List.mem_cons.mp hz with rfl | hz
      · exact hv.get.mpr (.inr (h'.sane.own (h'.sane.mem_of_mark he) hb))
      · exact hv.get.mpr (.inl (hgetx ▸ h.own z hz b hb))
  · intro z hz u hu
    rcases List.mem_append.mp hz with hz | hz
    · exact hnew (h'.left z hz u hu)
    · rcases List.mem_cons.mp hz with rfl | hz
      · exact hnew (h'.here u hu)
      · exact hold (h.left z hz u hu)
  · intro u hu
    rcases List.mem_cons.mp hu with rfl | hu
    · exact .inr (.inl (by simp))
    · exact hold (h.here u hu)

end Explores

/-! ### Closing a node -/

/-- What `v` is after the nodes `cycle` on top of its stack have been closed with the cell `c`. -/
structure Shuts (cycle below : List α) (c : Nat) (w v : Walk α β) : Prop where
  stack : v.stack = below
  cells : v.sets.cells = w.sets.cells
  mark_of_mem : ∀ {z}, z ∈ cycle → w.mark? z ≠ none → v.mark? z = some .closed
  mark_of_notMem : ∀ {z}, z ∉ cycle → v.mark? z = w.mark? z
  cell_of_mem : ∀ {z}, z ∈ cycle → w.sets.cellOf.lookup z ≠ none → v.sets.cellOf.lookup z = some c
  cell_of_notMem : ∀ {z}, z ∉ cycle → v.sets.cellOf.lookup z = w.sets.cellOf.lookup z

theorem shuts_close [LawfulBEq α] {below : List α} (hstack : w.stack = extra ++ x :: below)
    (hx : x ∉ extra) (hc : w.sets.cellOf.lookup x = some c) :
    Shuts (extra ++ [x]) below c w (w.close x) := by
  have hcycle : w.stack.takeWhile (fun y => !(y == x)) = extra := by
    rw [hstack, List.takeWhile_append_of_pos]
    · simp
    · intro z hz
      simpa using fun h : z = x => hx (h ▸ hz)
  have hmark : ∀ z, (w.close x).mark? z =
      (w.mark? z).map fun u => if (extra ++ [x]).contains z then .closed else u := by
    intro z
    rw [← hcycle]
    exact lookup_map_ite _ _ z w.marks
  have hcell : ∀ z, (w.close x).sets.cellOf.lookup z =
      (w.sets.cellOf.lookup z).map fun u => if (extra ++ [x]).contains z then c else u := by
    intro z
    have hval : (w.sets.cellOf.lookup x).getD 0 = c := by rw [hc]; rfl
    rw [← hcycle, ← hval]
    exact lookup_map_ite _ _ z w.sets.cellOf
  refine ⟨?_, rfl, ?_, ?_, ?_, ?_⟩
  · show w.stack.drop (w.stack.takeWhile (fun y => !(y == x)) ++ [x]).length = below
    rw [hcycle, hstack, List.append_cons extra x below, List.drop_left]
  · intro z hz hknown
    obtain ⟨u, hu⟩ := Option.ne_none_iff_exists'.mp hknown
    rw [hmark, hu, List.contains_iff_mem.mpr hz]
    rfl
  · intro z hz
    simp [hmark, hz]
  · intro z hz hknown
    obtain ⟨u, hu⟩ := Option.ne_none_iff_exists'.mp hknown
    rw [hcell, hu, List.contains_iff_mem.mpr hz]
    rfl
  · intro z hz
    simp [hcell, hz]

/-- When `x` knows of no deeper place, everything that it reaches is above it or closed. -/
theorem Explores.gathers (h : Explores nodes rel f x w extra (rel x) v)
    (hx : v.mark? x = some (.opened (w.stack.length + 1))) (hz : z ∈ x :: extra)
    (hu : Reaches rel z u) :
    u ∈ x :: extra ∨ v.mark? u = some .closed ∧ ∀ b ∈ v.sets.get u, b ∈ v.sets.get x := by
  induction hu with
  | refl => exact .inl hz
  | @tail u t _ ht ih =>
    rcases ih with hu | ⟨hu, hsub⟩
    · have hsettled : Settled x w extra v t := by
        rcases List.mem_cons.mp hu with rfl | hu
        · exact h.here t ht
        · exact h.left u hu t ht
      rcases hsettled with hclosed | hmem | ⟨l, k, hl, hk, hle⟩
      · exact .inr hclosed
      · exact .inl hmem
      · obtain rfl : w.stack.length + 1 = l := by simpa [hx] using hl
        exact absurd hk.le_length (by omega)
    · exact .inr ⟨h.sane.closed hu ht, fun b hb => hsub b (h.sane.get_subset_of_closed hu ht hb)⟩

/-- A node that knows of no deeper place is closed. -/
theorem Explores.close (h : Explores nodes rel f x w extra (rel x) v) (hw : Sane nodes rel f w)
    (hx : v.mark? x = some (.opened (w.stack.length + 1))) (hc : v.sets.cellOf.lookup x = some c)
    (hv : Shuts (extra ++ [x]) w.stack c v v') : Closes nodes rel f x w v' := by
  have hxmem := h.sane.mem_of_mark hx
  have hstack : v.stack = (extra ++ [x]) ++ w.stack := by rw [h.stack]; simp
  have hcycle : ∀ {z}, z ∈ extra ++ [x] ↔ z ∈ x :: extra := by simp [or_comm]
  have hmem : ∀ {z}, z ∈ extra ++ [x] → z ∈ nodes ∧ z ∈ v.stack := by
    intro z hz
    have hz' : z ∈ v.stack := by
      rw [hstack]
      exact List.mem_append_left _ hz
    exact ⟨h.sane.mem_of_stack hz', hz'⟩
  have hbelow : ∀ {z}, z ∈ w.stack → z ∉ extra ++ [x] := by
    intro z hz hz'
    have hnodup := h.sane.nodup
    rw [hstack] at hnodup
    exact (List.nodup_append.mp hnodup).2.2 z hz' z hz rfl
  have hcell : ∀ {z}, z ∈ nodes → ∃ c', v.sets.cellOf.lookup z = some c' := fun hz =>
    (h.sane.cell hz).imp fun _ h => h.1
  have hcellmem : ∀ {z}, z ∈ extra ++ [x] → v'.sets.cellOf.lookup z = some c := by
    intro z hz
    obtain ⟨c', hc'⟩ := hcell (hmem hz).1
    exact hv.cell_of_mem hz (by rw [hc']; exact Option.some_ne_none _)
  have hclosedmem : ∀ {z}, z ∈ extra ++ [x] → v'.mark? z = some .closed :=
    fun hz => hv.mark_of_mem hz (h.sane.known.mpr (hmem hz).1)
  have hopen : v.mark? x ≠ some .closed := by rw [hx]; simp
  -- the sets: those of the cycle become that of `x`, the others stay
  have hgetmem : ∀ {z}, z ∈ extra ++ [x] → v'.sets.get z = v.sets.get x := by
    intro z hz
    rw [Sets.get_of_lookup (hcellmem hz), Sets.get_of_lookup hc, hv.cells]
  have hget : ∀ {z}, z ∉ extra ++ [x] → v'.sets.get z = v.sets.get z := by
    intro z hz
    rw [Sets.get, Sets.get, hv.cell_of_notMem hz, hv.cells]
  have hreach : ∀ {z}, z ∈ extra ++ [x] → Reaches rel x z ∧ Reaches rel z x := by
    intro z hz
    rcases List.mem_cons.mp (hcycle.mp hz) with rfl | hz
    · exact ⟨.refl z, .refl z⟩
    · exact h.cycle z hz
  have hclosed : ∀ {z}, v'.mark? z = some .closed → z ∉ extra ++ [x] →
      v.mark? z = some .closed := by
    intro z hz hnot
    rw [← hv.mark_of_notMem hnot, hz]
  have hgather : ∀ {z u}, z ∈ extra ++ [x] → Reaches rel z u →
      u ∈ extra ++ [x] ∨ v.mark? u = some .closed ∧ ∀ b ∈ v.sets.get u, b ∈ v.sets.get x := by
    intro z u hz hu
    rw [hcycle]
    exact h.gathers hx (hcycle.mp hz) hu
  refine ⟨⟨?_, ?_, ?_, ?_, ?_, ?_, ?_, ?_, ?_, ?_, ?_⟩, hv.stack, ?_, hclosedmem (by simp)⟩
  · intro z
    by_cases hz : z ∈ extra ++ [x]
    · rw [hclosedmem hz]
      exact iff_of_true (by simp) (hmem hz).1
    · rw [hv.mark_of_notMem hz]
      exact h.sane.known
  · rw [hv.stack]
    exact hw.nodup
  · intro z
    rw [hv.stack]
    by_cases hz : z ∈ extra ++ [x]
    · rw [hclosedmem hz]
      exact iff_of_false (fun hz' => hbelow hz' hz) (by simp)
    · rw [hv.mark_of_notMem hz, ← h.sane.opened, hstack, List.mem_append]
      simp only [hz, false_or]
  · intro z k l hk hl
    rw [hv.stack] at hk ⊢
    rw [hv.mark_of_notMem (hbelow hk.mem)] at hl
    have hk' : At v.stack k z := by
      rw [hstack]
      exact hk.append _
    obtain ⟨hle, u, hu, hzu⟩ := h.sane.low hk' hl
    rw [hstack] at hu
    exact ⟨hle, u, hu.of_append (Nat.le_trans hle hk.le_length), hzu⟩
  · intro z hz
    rw [hv.cells]
    by_cases hzc : z ∈ extra ++ [x]
    · obtain ⟨c', hc', hlt⟩ := h.sane.cell hxmem
      obtain rfl : c = c' := by simpa [hc] using hc'
      exact ⟨c, hcellmem hzc, hlt⟩
    · rw [hv.cell_of_notMem hzc]
      exact h.sane.cell hz
  · intro z u c' hz hu hopen' hzc huc
    have hznot : z ∉ extra ++ [x] := fun hz => hopen' (hclosedmem hz)
    rw [hv.cell_of_notMem hznot] at hzc
    rw [hv.mark_of_notMem hznot] at hopen'
    by_cases hum : u ∈ extra ++ [x]
    · rw [hcellmem hum] at huc
      cases huc
      exact absurd (h.sane.alone hz hxmem hopen' hzc hc) (fun heq => hznot (by simp [heq]))
    · rw [hv.cell_of_notMem hum] at huc
      exact h.sane.alone hz hu hopen' hzc huc
  · intro z u c' hz hu hzc huc
    by_cases hzm : z ∈ extra ++ [x]
    · rw [hcellmem hzm] at hzc
      cases hzc
      by_cases hum : u ∈ extra ++ [x]
      · exact (hreach hzm).2.trans (hreach hum).1
      · rw [hv.cell_of_notMem hum] at huc
        exact absurd (h.sane.alone hxmem hu hopen hc huc) (fun heq => hum (by simp [heq]))
    · rw [hv.cell_of_notMem hzm] at hzc
      by_cases hum : u ∈ extra ++ [x]
      · rw [hcellmem hum] at huc
        cases huc
        exact absurd (h.sane.alone hxmem hz hopen hc hzc) (fun heq => hzm (by simp [heq]))
      · rw [hv.cell_of_notMem hum] at huc
        exact h.sane.shared hz hu hzc huc
  · intro z u hz hu
    have hor : u ∈ extra ++ [x] ∨ v.mark? u = some .closed := by
      by_cases hzm : z ∈ extra ++ [x]
      · exact (hgather hzm (.single hu)).imp id And.left
      · exact .inr (h.sane.closed (hclosed hz hzm) hu)
    by_cases hum : u ∈ extra ++ [x]
    · exact hclosedmem hum
    · rw [hv.mark_of_notMem hum]
      exact hor.resolve_left hum
  · intro z b hz hb
    by_cases hzm : z ∈ extra ++ [x]
    · rw [hgetmem hzm]
      obtain ⟨u, hu, hb⟩ := hb
      rcases hgather hzm hu with hum | ⟨hu', hsub⟩
      · rcases List.mem_cons.mp (hcycle.mp hum) with rfl | hum
        · exact h.sane.own hxmem hb
        · exact h.own u hum b hb
      · exact hsub b (h.sane.own (h.sane.mem_of_mark hu') hb)
    · rw [hget hzm]
      exact h.sane.full (hclosed hz hzm) hb
  · intro z b hz hb
    by_cases hzm : z ∈ extra ++ [x]
    · rw [hgetmem hzm]
      rcases List.mem_cons.mp (hcycle.mp hzm) with rfl | hzm
      · exact h.sane.own hz hb
      · exact h.own z hzm b hb
    · rw [hget hzm]
      exact h.sane.own hz hb
  · intro z b hz hb
    by_cases hzm : z ∈ extra ++ [x]
    · rw [hgetmem hzm] at hb
      exact (h.sane.sound hxmem hb).of_reaches (hreach hzm).2
    · rw [hget hzm] at hb
      exact h.sane.sound hz hb
  · intro z m hz hm
    obtain ⟨hz', hset⟩ := h.keeps hz hm
    have hznot : z ∉ extra ++ [x] := by
      intro hzm
      -- a node above `x` had not been seen, since it was not on the stack
      obtain ⟨l, hl⟩ := h.sane.opened.mp (hmem hzm).2
      rw [hz'] at hl
      cases hl
      exact hbelow (hw.opened.mpr ⟨l, hz⟩) hzm
    exact ⟨by rw [hv.mark_of_notMem hznot, hz'], by rw [hget hznot, hset]⟩

/-! ### The walk -/

/-- How many nodes have not been seen. -/
def unseen (nodes : List α) (w : Walk α β) : Nat :=
  nodes.countP fun y => w.mark? y == some .unseen

theorem Keeps.unseen_of_unseen (hw : Sane nodes rel f w) (h : Keeps w v) (hy : y ∈ nodes)
    (hvy : v.mark? y = some .unseen) : w.mark? y = some .unseen := by
  obtain ⟨m, hm⟩ := Option.ne_none_iff_exists'.mp (hw.known.mpr hy)
  by_cases hmu : m = .unseen
  · rw [hm, hmu]
  · rw [(h hm hmu).1] at hvy
    rw [hm, hvy]

theorem Keeps.unseen_lt (hw : Sane nodes rel f w) (h : Keeps w v) (hx : w.mark? x = some .unseen)
    (hx' : v.mark? x ≠ some .unseen) : v.unseen nodes < w.unseen nodes := by
  have hmono : ∀ l : List α, (∀ y ∈ l, y ∈ nodes) →
      l.countP (fun y => v.mark? y == some .unseen) ≤ l.countP fun y => w.mark? y == some .unseen := by
    intro l hl
    refine List.countP_mono_left fun y hy hvy => ?_
    rw [beq_iff_eq] at hvy ⊢
    exact h.unseen_of_unseen hw (hl y hy) hvy
  obtain ⟨as, bs, rfl⟩ := List.append_of_mem (hw.mem_of_mark hx)
  have has := hmono as fun y hy => by simp [hy]
  have hbs := hmono bs fun y hy => by simp [hy]
  simp only [unseen, List.countP_append, List.countP_cons, hx, beq_self_eq_true, if_true,
    beq_eq_false_iff_ne.mpr hx', Bool.false_eq_true, if_false]
  omega

theorem Explores.unseen_lt {done : List α} (hw : Sane nodes rel f w)
    (h : Explores nodes rel f x w extra done v) : v.unseen nodes < w.unseen nodes := by
  obtain ⟨l, hl, -⟩ := h.opened
  exact h.keeps.unseen_lt hw h.fresh (by rw [hl]; simp)

variable [LawfulBEq α] [BEq β] [LawfulBEq β]

/-- What the walk to a node leaves behind: the node is closed, or it stays on the stack and
knows of a deeper place. -/
def Visits (nodes : List α) (rel : α → List α) (f : α → List β) (x : α) (w v : Walk α β) : Prop :=
  Closes nodes rel f x w v ∨ ∃ extra l, Explores nodes rel f x w extra (rel x) v ∧
    v.mark? x = some (.opened l) ∧ l ≤ w.stack.length

/-- Going from `x` to one node next to it. -/
theorem Explores.exists_meet {done : List α} (h : Explores nodes rel f x w extra done v)
    (hw : ∀ z ∈ w.stack, Reaches rel z x) (hxy : y ∈ rel x) (hy : y ∈ nodes)
    (hgo : v.mark? y = some .unseen → (∀ z ∈ v.stack, Reaches rel z y) →
      ∃ v', go y v = .ok v' ∧ Visits nodes rel f y v v') :
    ∃ v' extra', Walk.meet go x v y = .ok v' ∧ Explores nodes rel f x w extra' (y :: done) v' := by
  obtain ⟨m, hm⟩ := Option.ne_none_iff_exists'.mp (h.sane.known.mpr hy)
  have hseen : m ≠ .unseen → Walk.meet go x v y = .ok ((v.lower x y).absorb x y) := by
    intro hne
    rw [Walk.meet, hm]
    cases m with
    | unseen => exact absurd rfl hne
    | opened _ => rfl
    | closed => rfl
  by_cases hne : m = .unseen
  · subst hne
    obtain ⟨v', hv', hvisit⟩ := hgo hm fun z hz => (h.reaches hw hz).trans (.single hxy)
    refine ⟨(v'.lower x y).absorb x y, ?_⟩
    have hmeet : Walk.meet go x v y = .ok ((v'.lower x y).absorb x y) := by
      rw [Walk.meet, hm]
      show (go y v >>= fun w => pure ((w.lower x y).absorb x y)) = _
      rw [hv']
      rfl
    rcases hvisit with hclose | ⟨extra', l, hexp, hl, hle⟩
    · have h' := h.after_closes hclose
      exact ⟨extra, hmeet, h'.meet (h'.sane.meets h'.mem_stack) hxy hclose.mark (by simp)⟩
    · have hx : x ∈ v'.stack := by
        rw [hexp.stack]
        exact List.mem_append_right _ (List.mem_cons_of_mem _ h.mem_stack)
      exact ⟨_, hmeet, h.child hw hexp hl hle (hexp.sane.meets hx) hxy⟩
  · exact ⟨_, extra, hseen hne, h.meet (h.sane.meets h.mem_stack) hxy hm hne⟩

/-- Going from `x` to the nodes next to it, one after the other. -/
theorem Explores.exists_foldlM (hw : ∀ z ∈ w.stack, Reaches rel z x)
    (hgo : ∀ {y v extra done}, Explores nodes rel f x w extra done v → v.mark? y = some .unseen →
      (∀ z ∈ v.stack, Reaches rel z y) → ∃ v', go y v = .ok v' ∧ Visits nodes rel f y v v')
    {ys extra done : List α} {v : Walk α β} (h : Explores nodes rel f x w extra done v)
    (hys : ∀ y ∈ ys, y ∈ rel x ∧ y ∈ nodes) :
    ∃ v' extra', ys.foldlM (Walk.meet go x) v = .ok v' ∧
      Explores nodes rel f x w extra' (ys.reverse ++ done) v' := by
  induction ys generalizing extra done v with
  | nil => exact ⟨v, extra, rfl, h⟩
  | cons y ys ih =>
    obtain ⟨hxy, hy⟩ := hys y List.mem_cons_self
    obtain ⟨v₁, extra₁, hv₁, h₁⟩ := h.exists_meet hw hxy hy (hgo h)
    obtain ⟨v', extra', hv', h'⟩ := ih h₁ fun u hu => hys u (List.mem_cons_of_mem _ hu)
    refine ⟨v', extra', ?_, by simpa using h'⟩
    rw [List.foldlM_cons, hv₁]
    exact hv'

/-- The walk to a new node. -/
theorem exists_visit (hrel : ∀ x ∈ nodes, ∀ y ∈ rel x, y ∈ nodes) {n : Nat} {x : α} {w : Walk α β}
    (h : Sane nodes rel f w) (hx : w.mark? x = some .unseen) (hw : ∀ z ∈ w.stack, Reaches rel z x)
    (hn : w.unseen nodes ≤ n) : ∃ v, w.visit rel n x = .ok v ∧ Visits nodes rel f x w v := by
  induction n generalizing x w with
  | zero =>
    -- the node itself has not been seen
    have hpos : 0 < w.unseen nodes :=
      List.countP_pos_iff.mpr ⟨x, h.mem_of_mark hx, by rw [hx]; rfl⟩
    omega
  | succ n ih =>
    have hmem := h.mem_of_mark hx
    have hnext : ∀ y ∈ rel x, y ∈ rel x ∧ y ∈ nodes := fun y hy => ⟨hy, hrel x hmem y hy⟩
    obtain ⟨v, extra, hv, hexp⟩ := Explores.exists_foldlM hw
      (fun hexp hy hreach => ih hexp.sane hy hreach (by have := hexp.unseen_lt h; omega))
      (h.enter hx) hnext
    have hexp : Explores nodes rel f x w extra (rel x) v :=
      { hexp with here := fun u hu => hexp.here u (by simp [hu]) }
    obtain ⟨l, hl, hle⟩ := hexp.opened
    have hvisit : w.visit rel (n + 1) x =
        if v.mark? x == some (.opened (w.stack.length + 1)) then .ok (v.close x) else .ok v := by
      rw [visit, hv]
      rfl
    rw [hvisit, hl]
    by_cases hdepth : l = w.stack.length + 1
    · subst hdepth
      rw [if_pos (beq_self_eq_true _)]
      obtain ⟨c, hc, -⟩ := hexp.sane.cell hmem
      have hnot : x ∉ extra := by
        intro hx
        have hnodup := hexp.sane.nodup
        rw [hexp.stack] at hnodup
        exact (List.nodup_append.mp hnodup).2.2 x hx x List.mem_cons_self rfl
      exact ⟨_, rfl, .inl (hexp.close h hl hc (shuts_close hexp.stack hnot hc))⟩
    · rw [if_neg (by simpa using hdepth)]
      exact ⟨v, rfl, .inr ⟨extra, l, hexp, hl, by omega⟩⟩

/-- A walk with nothing on its stack goes to all nodes. -/
theorem exists_foldlM_begin (hrel : ∀ x ∈ nodes, ∀ y ∈ rel x, y ∈ nodes) {xs : List α}
    {w : Walk α β} (h : Sane nodes rel f w) (hstack : w.stack = []) (hxs : ∀ x ∈ xs, x ∈ nodes) :
      ∃ v, xs.foldlM (begin rel nodes.length) w = .ok v ∧ Sane nodes rel f v ∧ v.stack = [] ∧
        Keeps w v ∧ ∀ x ∈ xs, v.mark? x = some .closed := by
  induction xs generalizing w with
  | nil =>
    exact ⟨w, rfl, h, hstack, fun _ _ hy _ => ⟨hy, rfl⟩, fun _ hx => absurd hx List.not_mem_nil⟩
  | cons x xs ih =>
    obtain ⟨v, hv, hsane, hempty, hkeeps, hmark⟩ : ∃ v, begin rel nodes.length w x = .ok v ∧
        Sane nodes rel f v ∧ v.stack = [] ∧ Keeps w v ∧ v.mark? x = some .closed := by
      obtain ⟨m, hm⟩ := Option.ne_none_iff_exists'.mp (h.known.mpr (hxs x List.mem_cons_self))
      rw [begin, hm]
      cases m with
      | unseen =>
        obtain ⟨v, hv, hclose | ⟨extra, l, hexp, hl, hle⟩⟩ :=
          exists_visit hrel h hm (by simp [hstack]) List.countP_le_length
        · exact ⟨v, hv, hclose.sane, hclose.stack.trans hstack, hclose.keeps, hclose.mark⟩
        · -- there is no deeper place than the bottom
          obtain ⟨-, u, hu, -⟩ := hexp.sane.low ⟨extra, w.stack, hexp.stack, rfl⟩ hl
          have hpos := hu.pos
          rw [hstack, List.length_nil] at hle
          omega
      | opened l =>
        have hmem := h.opened.mpr ⟨l, hm⟩
        rw [hstack] at hmem
        cases hmem
      | closed => exact ⟨w, rfl, h, hstack, fun _ _ hy _ => ⟨hy, rfl⟩, hm⟩
    obtain ⟨v', hv', hsane', hempty', hkeeps', hmark'⟩ :=
      ih hsane hempty fun y hy => hxs y (List.mem_cons_of_mem _ hy)
    refine ⟨v', ?_, hsane', hempty', hkeeps.trans hkeeps', ?_⟩
    · rw [List.foldlM_cons, hv]
      exact hv'
    · intro y hy
      rcases List.mem_cons.mp hy with rfl | hy
      · exact (hkeeps' hmark (by simp)).1
      · exact hmark' y hy

end Walk

/-! ### The sets -/

variable [BEq α] [LawfulBEq α] [BEq β] [LawfulBEq β] {nodes : List α}

/-- Every node has a cell of its own. -/
structure Sets.Separate (nodes : List α) (s : Sets α β) : Prop where
  cell : ∀ {x}, x ∈ nodes → ∃ c, s.cellOf.lookup x = some c ∧ c < s.cells.size
  alone : ∀ {x y c}, x ∈ nodes → y ∈ nodes → s.cellOf.lookup x = some c →
    s.cellOf.lookup y = some c → x = y

/-- The walk along a relation ends, and the set of a node holds what the nodes that it reaches
began with.  Only nodes on a common cycle share a cell. -/
theorem exists_digraph (hrel : ∀ x ∈ nodes, ∀ y ∈ rel x, y ∈ nodes) {start : Sets α β}
    (hstart : start.Separate nodes) :
    ∃ sets met, digraph nodes rel start = .ok (sets, met) ∧
      (∀ x ∈ nodes, ∀ b, b ∈ sets.get x ↔ Gathers rel start.get x b) ∧
      (∀ x ∈ nodes, ∃ c, sets.cellOf.lookup x = some c ∧ c < sets.cells.size) ∧
      ∀ x ∈ nodes, ∀ y ∈ nodes, ∀ c, sets.cellOf.lookup x = some c →
        sets.cellOf.lookup y = some c → Reaches rel x y := by
  obtain ⟨w, hw⟩ : ∃ w : Walk α β, w = Walk.mk (nodes.map fun x => (x, .unseen)) [] [] start := ⟨_, rfl⟩
  have hmark : ∀ {x}, w.mark? x = if x ∈ nodes then some .unseen else none := by
    intro x
    rw [hw, Walk.mark?]
    clear hrel hstart hw
    induction nodes with
    | nil => rfl
    | cons y ys ih =>
      by_cases hxy : x = y
      · simp [hxy]
      · simp [List.lookup_cons, beq_false_of_ne hxy, ih, hxy]
  have hunseen : ∀ {x m}, w.mark? x = some m → m = .unseen := by
    intro x m hm
    rw [hmark] at hm
    split at hm
    · exact (Option.some.inj hm).symm
    · cases hm
  have hstack : w.stack = [] := by rw [hw]
  have hsets : w.sets = start := by rw [hw]
  have hsane : Walk.Sane nodes rel start.get w := by
    refine ⟨?_, by simp [hstack], ?_, ?_, ?_, ?_, ?_, ?_, ?_, ?_, ?_⟩
    · intro x
      rw [hmark]
      split <;> simp_all
    · intro x
      rw [hstack]
      exact iff_of_false List.not_mem_nil fun ⟨l, hl⟩ => by cases hunseen hl
    · intro x k l hk
      rw [hstack] at hk
      exact absurd hk.mem List.not_mem_nil
    · intro x hx
      rw [hsets]
      exact hstart.cell hx
    · intro x y c hx hy _ hxc hyc
      rw [hsets] at hxc hyc
      exact hstart.alone hx hy hxc hyc
    · intro x y c hx hy hxc hyc
      rw [hsets] at hxc hyc
      rw [hstart.alone hx hy hxc hyc]
      exact .refl y
    · intro x y hx
      cases hunseen hx
    · intro x b hx
      cases hunseen hx
    · intro x b _ hb
      rw [hsets]
      exact hb
    · intro x b _ hb
      rw [hsets] at hb
      exact ⟨x, .refl x, hb⟩
  obtain ⟨v, hv, hsane', -, -, hclosed⟩ := Walk.exists_foldlM_begin hrel hsane hstack fun _ hx => hx
  refine ⟨v.sets, v.met, ?_, ?_, fun x hx => hsane'.cell hx,
    fun x hx y hy c hxc hyc => hsane'.shared hx hy hxc hyc⟩
  · rw [digraph, ← hw]
    show (nodes.foldlM (Walk.begin rel nodes.length) w >>= fun w => pure (w.sets, w.met)) = _
    rw [hv]
    rfl
  · intro x hx b
    exact ⟨hsane'.sound hx, hsane'.full (hclosed x hx)⟩

end QuadLang.Lalr
