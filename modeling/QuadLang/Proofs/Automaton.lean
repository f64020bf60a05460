/-
The automaton of item sets and the tables over it.

A parser trusts its tables: where they say to reduce a rule, the symbols of the rule are
on top of its stack.  That is a property of the automaton that the tables are made from:

* `Lalr.sound_build` — every state but the first has a kernel that was reached by moving
  dots, and the items beside the kernel begin their rules;
* `Lalr.Tables.justified_of_action?` — every action of the tables has its reason in the
  items or the moves of its state;
* `Lalr.Path.take_dot` — along a path of moves, the symbols before the dot of an item are
  the last symbols of the path;
* `Lalr.Path.accepts` — the tables accept after one move only, that over the start symbol.

Design notes: nothing here looks at look-aheads or at precedence.  They decide which of
the justified actions is taken, and any of them is sound.
-/
import QuadLang.Lalr.Tables
import QuadLang.Proofs.Keeps

namespace QuadLang.Lalr

variable {g : Rules} {a b states : Array State} {i item : Item} {items : List Item} {s t n : Nat}
  {m : Nat × Nat} {state : State}

/-! ### Items -/

namespace Item

variable {j : Item}

/-- An item is a place in the right side of its rule. -/
structure Fits (g : Rules) (i : Item) : Prop where
  rule : i.rule ≠ 0 → i.rule < g.rules.size
  le : i.dot ≤ (g.right i.rule).length
  rest : i.rest = (g.right i.rule).drop i.dot

theorem fits_initial {rule : Nat} (h : rule ≠ 0 → rule < g.rules.size) : (initial g rule).Fits g :=
  ⟨h, Nat.zero_le _, rfl⟩

theorem advance?_eq_some (h : i.advance? s = some j) :
    i.rest = s :: j.rest ∧ j.rule = i.rule ∧ j.dot = i.dot + 1 := by
  obtain ⟨rule, dot, rest⟩ := i
  rcases rest with _ | ⟨t, rest⟩
  · simp [advance?] at h
  · by_cases ht : t = s
    · subst ht
      simp only [advance?, beq_self_eq_true, if_true, Option.some.injEq] at h
      subst h
      exact ⟨rfl, rfl, rfl⟩
    · simp [advance?, ht] at h

theorem Fits.advance (hi : i.Fits g) (h : i.advance? s = some j) : j.Fits g := by
  obtain ⟨hrest, hrule, hdot⟩ := advance?_eq_some h
  have hdrop : (g.right i.rule).drop i.dot = s :: j.rest := hi.rest.symm.trans hrest
  have hlt : i.dot < (g.right i.rule).length := by
    by_contra hge
    rw [List.drop_eq_nil_of_le (by omega)] at hdrop
    cases hdrop
  refine ⟨hrule ▸ hi.rule, by rw [hrule, hdot]; omega, ?_⟩
  rw [hrule, hdot, ← List.tail_drop, hdrop, List.tail_cons]

/-- The symbols before the dot, when it has moved over one more. -/
theorem Fits.take_succ {rest : List Nat} (hi : i.Fits g) (h : i.rest = s :: rest) :
    (g.right i.rule).take (i.dot + 1) = (g.right i.rule).take i.dot ++ [s] := by
  have hget : (g.right i.rule)[i.dot]? = some s := by
    rw [← List.head?_drop, ← hi.rest, h, List.head?_cons]
  rw [List.take_add_one, hget, Option.toList_some]

/-- A complete item has its dot at the end. -/
theorem Fits.dot_eq (hi : i.Fits g) (h : i.rest = []) :
    i.dot = (g.right i.rule).length := by
  have hle : (g.right i.rule).length ≤ i.dot := by
    rw [← List.drop_eq_nil_iff, ← hi.rest, h]
  exact Nat.le_antisymm hi.le hle

end Item

/-- Closing a queue adds beginnings of rules, the start rule apart. -/
theorem mem_expand {joined : List Nat} {queue : List Item} (h : i ∈ expand g n joined queue) :
    i ∈ queue ∨ ∃ r, r ≠ 0 ∧ r < g.rules.size ∧ i = .initial g r := by
  induction n generalizing joined queue with
  | zero => exact .inl h
  | succ n ih =>
    rcases queue with _ | ⟨j, queue⟩
    · cases h
    · simp only [expand, List.mem_cons] at h
      rcases h with rfl | h
      · exact .inl List.mem_cons_self
      · rcases ih h with hq | hr
        · rcases List.mem_append.mp hq with hq | hq
          · exact .inl (List.mem_cons_of_mem _ hq)
          · -- what joins is the beginning of a rule of the symbol after the dot
            obtain ⟨r, hr, rfl⟩ := List.mem_map.mp hq
            suffices r ≠ 0 ∧ r < g.rules.size from .inr ⟨r, this.1, this.2, rfl⟩
            rcases hnext : j.next? with _ | s
            · rw [hnext] at hr
              cases hr
            · rw [hnext] at hr
              have hmem := (List.mem_filter.mp hr).1
              simp only [Rules.rulesOf, List.mem_filter, List.mem_range, Bool.and_eq_true,
                bne_iff_ne] at hmem
              exact ⟨hmem.2.1, hmem.1⟩
        · exact .inr hr

/-! ### States -/

/-- What holds of the state with number `n`. -/
structure State.Sound (g : Rules) (n : Nat) (state : State) : Prop where
  fits : ∀ i ∈ state.kernel, i.Fits g
  items : ∀ i ∈ state.items, i ∈ state.kernel ∨ ∃ r, r ≠ 0 ∧ r < g.rules.size ∧ i = .initial g r
  first : n = 0 → state.kernel = [.initial g 0]
  moved : n ≠ 0 → ∀ i ∈ state.kernel, 0 < i.dot

theorem State.Sound.fits_items (h : state.Sound g n) (hi : i ∈ state.items) : i.Fits g := by
  rcases h.items i hi with hk | ⟨r, -, hr, rfl⟩
  · exact h.fits i hk
  · exact Item.fits_initial fun _ => hr

/-- The items lead over a symbol to a state. -/
def Leads (states : Array State) (items : List Item) (m : Nat × Nat) : Prop :=
  ∃ target, states[m.2]? = some target ∧ target.kernel = items.filterMap (·.advance? m.1) ∧
    target.kernel ≠ []

/-- All states are sound, and their moves lead where they say. -/
structure Sound (g : Rules) (states : Array State) : Prop where
  state : ∀ (n : Nat) (st : State), states[n]? = some st → st.Sound g n
  leads : ∀ (n : Nat) (st : State), states[n]? = some st → ∀ m ∈ st.moves, Leads states st.items m

theorem Sound.fits (h : Sound g states) {st : State} (hn : states[n]? = some st) (hi : i ∈ st.items) : i.Fits g :=
  (h.state n st hn).fits_items hi

/-- States move over symbols of right sides. -/
theorem Sound.mem_right (h : Sound g states) {st : State} (hn : states[n]? = some st)
    (hm : m ∈ st.moves) : ∃ r, (r ≠ 0 → r < g.rules.size) ∧ m.1 ∈ g.right r := by
  obtain ⟨target, -, hkernel, hne⟩ := h.leads n st hn m hm
  obtain ⟨i, hi⟩ := List.exists_mem_of_ne_nil _ hne
  rw [hkernel] at hi
  obtain ⟨j, hj, hadvance⟩ := List.mem_filterMap.mp hi
  have hfits := h.fits hn hj
  refine ⟨j.rule, hfits.rule, List.mem_of_mem_drop (i := j.dot) ?_⟩
  rw [← hfits.rest, (Item.advance?_eq_some hadvance).1]
  exact List.mem_cons_self

/-- States keep their items when others are added. -/
def Extends (states states' : Array State) : Prop :=
  ∀ (n : Nat) (st : State), states[n]? = some st →
    ∃ st' : State, states'[n]? = some st' ∧ st'.kernel = st.kernel ∧ st'.items = st.items

theorem Extends.refl (states : Array State) : Extends states states :=
  fun _ st h => ⟨st, h, rfl, rfl⟩

theorem Extends.trans {c : Array State} (h : Extends a b) (h' : Extends b c) :
    Extends a c := by
  intro n st hst
  obtain ⟨st₁, hst₁, hk₁, hi₁⟩ := h n st hst
  obtain ⟨st₂, hst₂, hk₂, hi₂⟩ := h' n st₁ hst₁
  exact ⟨st₂, hst₂, hk₂.trans hk₁, hi₂.trans hi₁⟩

theorem Leads.mono (h : Leads a items m) (hab : Extends a b) : Leads b items m := by
  obtain ⟨target, ht, hk, hne⟩ := h
  obtain ⟨target', ht', hk', -⟩ := hab _ _ ht
  exact ⟨target', ht', hk'.trans hk, hk' ▸ hne⟩

theorem Extends.size_pos (h : Extends a b) (ha : 0 < a.size) :
    0 < b.size := by
  obtain ⟨st, hst, -⟩ := h 0 a[0] (Array.getElem?_eq_getElem ha)
  exact (Array.getElem?_eq_some_iff.mp hst).1

namespace Builder

variable {b : Builder}

theorem extends_add (b : Builder) (kernel : List Item) :
    Extends b.states (b.add g kernel).states := by
  intro n st hst
  have hlt := (Array.getElem?_eq_some_iff.mp hst).1
  refine ⟨st, ?_, rfl, rfl⟩
  rw [add, Array.getElem?_push_lt hlt, ← Array.getElem?_eq_getElem hlt, hst]

/-- The state that is added is sound when its kernel is. -/
theorem sound_add {kernel : List Item} (hb : Sound g b.states) (hfits : ∀ i ∈ kernel, i.Fits g)
    (hfirst : b.states.size = 0 → kernel = [.initial g 0])
    (hmoved : b.states.size ≠ 0 → ∀ i ∈ kernel, 0 < i.dot) : Sound g (b.add g kernel).states := by
  have hext := extends_add (g := g) b kernel
  -- a state is an old one, or the new one with no moves
  have hcases : ∀ (n : Nat) (st : State), (b.add g kernel).states[n]? = some st →
      b.states[n]? = some st ∨ n = b.states.size ∧ st.kernel = kernel ∧ st.moves = [] ∧
        st.items = closure g
          ((List.range b.marks.length).filter fun r => b.marks.getD r 0 == b.states.size + 1)
            kernel := by
    intro n st hst
    rw [add, Array.getElem?_push] at hst
    by_cases hn : n = b.states.size
    · rw [if_pos hn, Option.some.injEq] at hst
      subst hst
      exact .inr ⟨hn, rfl, rfl, rfl⟩
    · rw [if_neg hn] at hst
      exact .inl hst
  constructor
  · intro n st hst
    rcases hcases n st hst with hold | ⟨rfl, hk, -, hi⟩
    · exact hb.state n st hold
    · exact {
        fits := by rw [hk]; exact hfits
        items := by
          intro i hmem
          rw [hi] at hmem
          rw [hk]
          exact mem_expand hmem
        first := fun h => hk.trans (hfirst h)
        moved := fun h => hk ▸ hmoved h }
  · intro n st hst m hm
    rcases hcases n st hst with hold | ⟨-, -, hmoves, -⟩
    · exact (hb.leads n st hold m hm).mono hext
    · rw [hmoves] at hm
      cases hm

/-- What following symbols from items keeps. -/
structure Follows (g : Rules) (items : List Item) (b b' : Builder × List (Nat × Nat)) : Prop where
  sound : Sound g b'.1.states
  leads : ∀ m ∈ b'.2, Leads b'.1.states items m
  extends_ : Extends b.1.states b'.1.states

theorem follows_follow (hitems : ∀ i ∈ items, i.Fits g) {b : Builder × List (Nat × Nat)}
    (hb : Sound g b.1.states) (hleads : ∀ m ∈ b.2, Leads b.1.states items m)
    (hsize : 0 < b.1.states.size) (s : Nat) :
    Follows g items b (follow g items b s) := by
  have hkernel : ∀ i ∈ items.filterMap (·.advance? s), i.Fits g ∧ 0 < i.dot := by
    intro i hi
    obtain ⟨j, hj, hadvance⟩ := List.mem_filterMap.mp hi
    refine ⟨(hitems j hj).advance hadvance, ?_⟩
    rw [(Item.advance?_eq_some hadvance).2.2]
    exact Nat.succ_pos _
  by_cases hempty : (items.filterMap (·.advance? s)).isEmpty = true
  · rw [follow, if_pos hempty]
    exact ⟨hb, hleads, .refl _⟩
  have hne : items.filterMap (·.advance? s) ≠ [] := by simpa using hempty
  rw [follow, if_neg hempty]
  split
  · -- a state that was there before
    next target hfind =>
    refine ⟨hb, ?_, .refl _⟩
    intro m hm
    rcases List.mem_append.mp hm with hm | hm
    · exact hleads m hm
    · obtain rfl := List.mem_singleton.mp hm
      obtain ⟨hlt, hk, -⟩ := Array.findIdx?_eq_some_iff_getElem.mp hfind
      have hk : b.1.states[target].kernel = items.filterMap (·.advance? s) := by simpa using hk
      exact ⟨_, Array.getElem?_eq_getElem hlt, hk, hk ▸ hne⟩
  · -- a new state
    have hext := extends_add (g := g) b.1 (items.filterMap (·.advance? s))
    refine ⟨sound_add hb (fun i hi => (hkernel i hi).1) (fun h => by omega)
      fun _ i hi => (hkernel i hi).2, ?_, hext⟩
    intro m hm
    rcases List.mem_append.mp hm with hm | hm
    · exact (hleads m hm).mono hext
    · obtain rfl := List.mem_singleton.mp hm
      exact ⟨_, Array.getElem?_push_size, rfl, hne⟩

theorem follows_foldl (hitems : ∀ i ∈ items, i.Fits g) (symbols : List Nat)
    {b : Builder × List (Nat × Nat)} (hb : Sound g b.1.states)
    (hleads : ∀ m ∈ b.2, Leads b.1.states items m) (hsize : 0 < b.1.states.size) :
    Follows g items b (symbols.foldl (follow g items) b) := by
  induction symbols generalizing b with
  | nil => exact ⟨hb, hleads, .refl _⟩
  | cons s symbols ih =>
    have h := follows_follow hitems hb hleads hsize s
    have h' := ih h.sound h.leads (h.extends_.size_pos hsize)
    exact ⟨h'.sound, h'.leads, h.extends_.trans h'.extends_⟩

/-- A state gets its moves and keeps its items. -/
theorem Follows.set {b' : Builder} {moves : List (Nat × Nat)} {i : Nat}
    (h : Follows g state.items (b, []) (b', moves)) (hstate : b.states[i]? = some state) :
    (∀ (k : Nat) (st : State), (b'.states.setIfInBounds i { state with moves })[k]? = some st →
      k ≠ i ∧ b'.states[k]? = some st ∨ k = i ∧ st = { state with moves }) ∧
    Extends b'.states (b'.states.setIfInBounds i { state with moves }) ∧
    Sound g (b'.states.setIfInBounds i { state with moves }) := by
  obtain ⟨st, hst, hkernel, hitems⟩ := h.extends_ i state hstate
  have hlt := (Array.getElem?_eq_some_iff.mp hst).1
  have hget : ∀ (k : Nat) (st' : State), (b'.states.setIfInBounds i { state with moves })[k]? = some st' →
      k ≠ i ∧ b'.states[k]? = some st' ∨ k = i ∧ st' = { state with moves } := by
    intro k st' hk
    rw [Array.getElem?_setIfInBounds] at hk
    by_cases hik : i = k
    · rw [if_pos hik, if_pos hlt, Option.some.injEq] at hk
      exact .inr ⟨hik.symm, hk.symm⟩
    · rw [if_neg hik] at hk
      exact .inl ⟨Ne.symm hik, hk⟩
  have hext : Extends b'.states (b'.states.setIfInBounds i { state with moves }) := by
    intro k st' hk
    by_cases hik : i = k
    · subst hik
      refine ⟨{ state with moves }, ?_, ?_⟩
      · rw [Array.getElem?_setIfInBounds, if_pos rfl, if_pos hlt]
      · rw [hst, Option.some.injEq] at hk
        exact hk ▸ ⟨hkernel.symm, hitems.symm⟩
    · refine ⟨st', ?_, rfl, rfl⟩
      rw [Array.getElem?_setIfInBounds, if_neg hik, hk]
  have hs := h.sound.state i st hst
  refine ⟨hget, hext, ⟨?_, ?_⟩⟩
  · intro k st' hk
    rcases hget k st' hk with ⟨-, hold⟩ | ⟨rfl, rfl⟩
    · exact h.sound.state k st' hold
    · exact ⟨hkernel ▸ hs.fits, hkernel ▸ hitems ▸ hs.items, hkernel ▸ hs.first, hkernel ▸ hs.moved⟩
  · intro k st' hk m hm
    rcases hget k st' hk with ⟨-, hold⟩ | ⟨rfl, rfl⟩
    · exact (h.sound.leads k st' hold m hm).mono hext
    · exact (h.leads m hm).mono hext

theorem sound_grow {i : Nat} {b : Builder} (hb : Sound g b.states) (hsize : 0 < b.states.size) :
    Sound g (grow g n i b).states := by
  induction n generalizing i b with
  | zero => exact hb
  | succ n ih =>
    rw [grow]
    rcases hstate : b.states[i]? with _ | state
    · exact hb
    have hs := hb.state i state hstate
    have h := follows_foldl (fun j hj => hs.fits_items hj) (symbols g state.items)
      (b := (b, [])) hb (fun m hm => absurd hm List.not_mem_nil) hsize
    rcases hfold : (symbols g state.items).foldl (follow g state.items) (b, []) with ⟨b', moves⟩
    rw [hfold] at h
    simp only [hfold]
    obtain ⟨-, hext, hsound⟩ := h.set hstate
    exact ih hsound (hext.size_pos (h.extends_.size_pos hsize))

/-- The first state. -/
theorem sound_start (g : Rules) (marks : List Nat) :
    Sound g (add g { states := #[], marks } [Item.initial g 0]).states := by
  have hnone : Sound g (#[] : Array State) :=
    ⟨fun n st h => by simp at h, fun n st h => by simp at h⟩
  refine sound_add hnone ?_ (fun _ => rfl) fun h => absurd rfl h
  intro i hi
  obtain rfl := List.mem_singleton.mp hi
  exact Item.fits_initial fun h => absurd rfl h

end Builder

theorem sound_build (g : Rules) (marks : List Nat) : Sound g (build g marks).states :=
  Builder.sound_grow (Builder.sound_start g marks) (by simp [Builder.add])

/-- The items of the first state have their dots at the beginning. -/
theorem Sound.dot_eq_zero {states : Array State} {st : State} {i : Item} (h : Sound g states)
    (hst : states[0]? = some st) (hi : i ∈ st.items) : i.dot = 0 := by
  have hs := h.state 0 st hst
  rcases hs.items i hi with hk | ⟨r, -, -, rfl⟩
  · rw [hs.first rfl] at hk
    obtain rfl := List.mem_singleton.mp hk
    rfl
  · rfl

/-! ### Rows -/

/-- The reason for an action in the items and moves of a state. -/
def Justified (g : Rules) (state : State) (s : Nat) : Action → Prop
  | .shift t => g.isTerminal s = true ∧ (s, t) ∈ state.moves
  | .reduce r => r ≠ 0 ∧ ∃ i ∈ state.items, i.rule = r ∧ i.rest = []
  | .accept => s = g.endMark ∧ ∃ i ∈ state.items, i.rule = 0 ∧ i.rest = []
  | .refuse => True

theorem mem_of_lookup {α β : Type} [BEq α] [LawfulBEq α] {a : α} {b : β} {l : List (α × β)}
    (h : l.lookup a = some b) : (a, b) ∈ l := by
  obtain ⟨l₁, l₂, rfl, -⟩ := List.lookup_eq_some_iff.mp h
  exact List.mem_append_right _ List.mem_cons_self

theorem map_reflect {α β : Type} {f : α → β} {xs ys : List α}
    (hf : ∀ x ∈ xs, ∀ y ∈ ys, f x = f y → x = y) (h : xs.map f = ys.map f) : xs = ys := by
  induction xs generalizing ys with
  | nil => exact (List.map_eq_nil_iff.mp h.symm).symm
  | cons x xs ih =>
    rcases ys with _ | ⟨y, ys⟩
    · cases h
    · obtain ⟨hxy, hrest⟩ := List.cons.inj h
      rw [hf x List.mem_cons_self y List.mem_cons_self hxy]
      rw [ih (fun a ha b hb => hf a (List.mem_cons_of_mem _ ha) b (List.mem_cons_of_mem _ hb)) hrest]

namespace Row

variable {state : State} {row row' : Row} {ahead : Item → List Nat}

/-- Every chosen action is justified. -/
def Sound (g : Rules) (state : State) (row : Row) : Prop :=
  ∀ e ∈ row.chosen, Justified g state e.1 e.2.1

theorem Sound.choose (h : row.Sound g state) {a : Action} (ha : Justified g state s a) (item : Item) :
    (row.choose s a item).Sound g state := by
  intro e he
  by_cases hany : row.chosen.any (·.1 == s) = true
  · rw [Row.choose, if_pos hany] at he
    obtain ⟨e', he', rfl⟩ := List.mem_map.mp he
    by_cases hs : (e'.1 == s) = true
    · rw [if_pos hs]
      exact ha
    · rw [if_neg hs]
      exact h e' he'
  · rw [Row.choose, if_neg hany] at he
    rcases List.mem_append.mp he with he | he
    · exact h e he
    · obtain rfl := List.mem_singleton.mp he
      exact ha

theorem Sound.forbid (h : row.Sound g state) (s : Nat) : (row.forbid s).Sound g state := by
  intro e he
  obtain ⟨e', he', rfl⟩ := List.mem_map.mp he
  by_cases hs : (e'.1 == s) = true
  · rw [if_pos hs]
    exact trivial
  · rw [if_neg hs]
    exact h e' he'

theorem Sound.note (h : row.Sound g state) (keep : Bool) (c : Conflict) :
    (row.note keep c).Sound g state := by
  cases keep <;> exact h

theorem Sound.count (h : row.Sound g state) (rule : Nat) (change : Int) :
    (row.count rule change).Sound g state := h

theorem sound_offerReduce (hitem : item ∈ state.items) (hrule : item.rule ≠ 0)
    (hrest : item.rest = []) (h : row.Sound g state) (hr : offerReduce g item row s = some row') :
    row'.Sound g state := by
  have ha : Justified g state s (.reduce item.rule) := ⟨hrule, item, hitem, rfl, hrest⟩
  have h₀ : Row.Sound g state
      { row with offers := row.offers ++ [Offer.mk s item (.reduce item.rule)] } := h
  rw [offerReduce] at hr
  split at hr
  · cases hr; exact (h₀.choose ha item).count _ _
  · cases hr; exact (h₀.choose ha item).count _ _
  · split at hr
    · cases hr; exact ((h₀.choose ha item).note _ _).count _ _
    · split at hr
      · cases hr; exact h₀.forbid s
      · cases hr; exact h₀.note _ _
  · split at hr
    · cases hr; exact (((h₀.choose ha item).count _ _).count _ _).note _ _
    · cases hr; exact h₀.note _ _
  · cases hr

theorem sound_offerShift (hs : g.isTerminal s = true) (ht : (s, t) ∈ state.moves)
    (h : row.Sound g state) (hr : offerShift g item row s t = some row') :
    row'.Sound g state := by
  have ha : Justified g state s (.shift t) := ⟨hs, ht⟩
  have h₀ : Row.Sound g state
      { row with offers := row.offers ++ [Offer.mk s item (.shift t)] } := h
  rw [offerShift] at hr
  split at hr
  · cases hr; exact h₀.choose ha item
  · cases hr; exact h₀.choose ha item
  · cases hr; exact h₀
  · dsimp only at hr
    split at hr
    · cases hr
      exact ((h₀.count _ _).choose ha item).note _ _
    · split at hr
      · cases hr; exact h₀.forbid s
      · cases hr; exact h₀.note _ _
  · cases hr

theorem sound_offerAll {α : Type} {offer : Row → α → Option Row}
    (hoffer : ∀ x row row', row.Sound g state → offer row x = some row' → row'.Sound g state)
    (xs : List α) (h : row.Sound g state) : (offerAll offer xs row).1.Sound g state := by
  induction xs generalizing row with
  | nil => exact h
  | cons x xs ih =>
    rw [offerAll]
    rcases hx : offer row x with _ | row'
    · exact h
    · exact ih (hoffer x row row' h hx)

theorem sound_addItem (hitem : item ∈ state.items) (h : row.Sound g state) :
    (row.addItem g state.moves ahead item).1.Sound g state := by
  rw [addItem]
  rcases hnext : item.next? with _ | s
  · have hrest : item.rest = [] := List.head?_eq_none_iff.mp hnext
    by_cases hrule : item.rule = 0
    · simp only [hrule, beq_self_eq_true, if_true]
      have ha : Justified g state g.endMark .accept := ⟨rfl, item, hitem, hrule, hrest⟩
      exact h.choose ha item
    · simp only [beq_false_of_ne hrule, Bool.false_eq_true, if_false]
      exact sound_offerAll (fun s row row' hrow hr => sound_offerReduce hitem hrule hrest hrow hr)
        (ahead item) h
  · by_cases hterminal : g.isTerminal s = true
    · simp only [hterminal, if_true]
      rcases hmove : state.moves.lookup s with _ | t
      · exact h
      · exact sound_offerAll
          (fun _ row row' hrow hr => sound_offerShift hterminal (mem_of_lookup hmove) hrow hr) [()] h
    · simp only [hterminal]
      exact h

theorem sound_addItems (hitems : ∀ i ∈ items, i ∈ state.items) (h : row.Sound g state) :
    (row.addItems g state.moves ahead items).1.Sound g state := by
  induction items generalizing row with
  | nil => exact h
  | cons i items ih =>
    have hi : (row.addItem g state.moves ahead i).1.Sound g state :=
      sound_addItem (hitems i List.mem_cons_self) h
    rw [addItems]
    rcases hadd : row.addItem g state.moves ahead i with ⟨row', done⟩
    rw [hadd] at hi
    cases done with
    | true => exact ih (fun j hj => hitems j (List.mem_cons_of_mem _ hj)) hi
    | false => exact hi

theorem sound_build (g : Rules) (state : State) (ahead : List (Item × List Nat)) :
    (build g state ahead).1.Sound g state ∧ ∀ m ∈ (build g state ahead).1.moves, m ∈ state.moves := by
  constructor
  · have hempty : Row.empty.Sound g state := fun e he => absurd he List.not_mem_nil
    exact sound_addItems (fun _ h => h) hempty
  · intro m hm
    exact (List.mem_filter.mp hm).1

/-- What a row says on a symbol is one of its chosen actions. -/
theorem Sound.action? (h : row.Sound g state) {a : Action} (ha : row.action? s = some a) :
    Justified g state s a := by
  obtain ⟨e, he, rfl⟩ := Option.map_eq_some_iff.mp ha
  exact h _ (mem_of_lookup he)

end Row

/-! ### Tables -/

namespace Tables

variable {n : Nat}

theorem rowsOf_getElem? {xs : List (State × List (Item × List Nat))} {rows : Array Row} {row : Row}
    (h : (rowsOf g xs rows).1[n]? = some row) : rows[n]? = some row ∨
      ∃ x, xs[n - rows.size]? = some x ∧ rows.size ≤ n ∧ row = (Row.build g x.1 x.2).1 := by
  induction xs generalizing rows with
  | nil => exact .inl h
  | cons x xs ih =>
    obtain ⟨state, ahead⟩ := x
    rw [rowsOf] at h
    rcases hbuild : Row.build g state ahead with ⟨row₀, done⟩
    rw [hbuild] at h
    cases done with
    | false => exact .inl h
    | true =>
      rcases ih h with hold | ⟨x, hx, hle, hrow⟩
      · rw [Array.getElem?_push] at hold
        by_cases hn : n = rows.size
        · rw [if_pos hn, Option.some.injEq] at hold
          refine .inr ⟨(state, ahead), by simp [hn], Nat.le_of_eq hn.symm, ?_⟩
          rw [hbuild, hold]
        · rw [if_neg hn] at hold
          exact .inl hold
      · rw [Array.size_push] at hx hle
        refine .inr ⟨x, ?_, by omega, hrow⟩
        rw [show n - rows.size = (n - (rows.size + 1)) + 1 by omega, List.getElem?_cons_succ]
        exact hx

/-- A row is built from the state of its number. -/
theorem row_of_getElem? {row : Row} (h : (ofStates g states).rows[n]? = some row) :
    ∃ state, states[n]? = some state ∧ row.Sound g state ∧ ∀ m ∈ row.moves, m ∈ state.moves := by
  rcases rowsOf_getElem? h with hnone | ⟨x, hx, -, rfl⟩
  · simp at hnone
  · obtain ⟨hstate, -⟩ := List.getElem?_zip_eq_some.mp (by simpa using hx)
    exact ⟨x.1, by simpa using hstate, Row.sound_build g x.1 x.2⟩

theorem states_build (g : Rules) : (build g).states = (Lalr.build g []).states := by
  simp only [build, ofStates]

theorem rules_build (g : Rules) : (build g).rules = g := by
  simp only [build, ofStates]

theorem sound_states (g : Rules) : Sound g (build g).states :=
  (states_build g).symm ▸ sound_build g []

theorem justified_of_action? {a : Action} (h : (build g).action? n s = some a) :
    ∃ state, (build g).states[n]? = some state ∧ Justified g state s a := by
  obtain ⟨row, hrow, ha⟩ := Option.bind_eq_some_iff.mp h
  obtain ⟨state, hstate, hsound, -⟩ := row_of_getElem? hrow
  exact ⟨state, states_build g ▸ hstate, hsound.action? ha⟩

theorem justified_of_defaulted? {r : Nat} (h : (build g).defaulted? n = some r) :
    ∃ state s, (build g).states[n]? = some state ∧ Justified g state s (.reduce r) := by
  obtain ⟨row, hrow, hr⟩ := Option.bind_eq_some_iff.mp h
  obtain ⟨state, hstate, hsound, -⟩ := row_of_getElem? hrow
  rw [soleReduction?] at hr
  split at hr
  · next s rule item hchosen =>
    cases hr
    exact ⟨state, s, states_build g ▸ hstate, hsound _ (hchosen ▸ List.mem_cons_self)⟩
  · cases hr

theorem mem_moves_of_goto? (h : (build g).goto? n s = some t) :
    ∃ state, (build g).states[n]? = some state ∧ (s, t) ∈ state.moves := by
  obtain ⟨row, hrow, ht⟩ := Option.bind_eq_some_iff.mp h
  obtain ⟨state, hstate, -, hmoves⟩ := row_of_getElem? hrow
  exact ⟨state, states_build g ▸ hstate, hmoves _ (mem_of_lookup ht)⟩

end Tables

/-! ### Paths -/

/-- States that follow one another by moves from the first state on, latest first, and the
symbols of the moves. -/
inductive Path (states : Array State) : List Nat → List Nat → Prop
  | start : Path states [0] []
  | move {n t s : Nat} {ns ss : List Nat} {state : State} (path : Path states (n :: ns) ss)
      (hn : states[n]? = some state) (hs : (s, t) ∈ state.moves) :
      Path states (t :: n :: ns) (s :: ss)

namespace Path

variable {states : Array State} {n : Nat} {ns ss : List Nat} {state : State}

theorem ne_nil (h : Path states ns ss) : ns ≠ [] := by
  cases h <;> simp

/-- What is left of a path when the latest moves are taken back. -/
theorem drop (h : Path states ns ss) : ∀ {k : Nat}, k ≤ ss.length →
    Path states (ns.drop k) (ss.drop k) := by
  induction h with
  | start =>
    intro k hk
    obtain rfl : k = 0 := by simpa using hk
    exact .start
  | move path hn hs ih =>
    intro k hk
    rcases k with _ | k
    · exact .move path hn hs
    · exact ih (by simpa using hk)

theorem take_dot (hstates : Sound g states) : ∀ {ns ss : List Nat}, Path states ns ss →
    ∀ {n : Nat} {rest : List Nat}, ns = n :: rest → ∀ {state : State}, states[n]? = some state →
      ∀ i ∈ state.items, i.dot ≤ ss.length ∧
        (ss.take i.dot).reverse = (g.right i.rule).take i.dot := by
  intro ns ss h
  induction h with
  | start =>
    intro n rest hns state hstate i hi
    cases hns
    simp [hstates.dot_eq_zero hstate hi]
  | @move n t s ns ss st path hn hs ih =>
    intro n' rest hns state hstate i hi
    cases hns
    obtain ⟨target, htarget, hkernel, -⟩ := hstates.leads n st hn (s, t) hs
    obtain rfl : target = state := Option.some.inj (htarget.symm.trans hstate)
    rcases (hstates.state t target htarget).items i hi with hk | ⟨r, -, -, rfl⟩
    · -- the dot has moved over the latest symbol
      rw [hkernel] at hk
      obtain ⟨j, hj, hadvance⟩ := List.mem_filterMap.mp hk
      obtain ⟨hrest, hrule, hdot⟩ := Item.advance?_eq_some hadvance
      obtain ⟨hle, htake⟩ := ih rfl hn j hj
      have hfits := hstates.fits hn hj
      refine ⟨by rw [hdot, List.length_cons]; omega, ?_⟩
      rw [hdot, hrule, List.take_succ_cons, List.reverse_cons, htake, hfits.take_succ hrest]
    · exact ⟨Nat.zero_le _, rfl⟩

/-- No move leads back to the first state. -/
theorem ne_zero (hstates : Sound g states) (hn : states[n]? = some state)
    (hs : (s, t) ∈ state.moves) : t ≠ 0 := by
  rintro rfl
  obtain ⟨target, htarget, hkernel, -⟩ := hstates.leads n state hn (s, 0) hs
  have hfirst := (hstates.state 0 target htarget).first rfl
  have hmem : Item.initial g 0 ∈ state.items.filterMap (·.advance? s) := by
    rw [← hkernel, hfirst]
    exact List.mem_cons_self
  obtain ⟨j, -, hadvance⟩ := List.mem_filterMap.mp hmem
  have := (Item.advance?_eq_some hadvance).2.2
  simp [Item.initial] at this

/-- A state with the complete start rule is reached from the first state, by a move over the
start symbol. -/
theorem accepts (hstates : Sound g states) (hroot : (g.right 0).length = 1)
    (h : Path states (n :: ns) ss) (hn : states[n]? = some state) (hi : i ∈ state.items)
    (hrule : i.rule = 0) (hrest : i.rest = []) : ss = g.right 0 := by
  have hdot : i.dot = 1 := by
    rw [(hstates.fits hn hi).dot_eq hrest, hrule, hroot]
  have hkernel : ∀ (k : Nat) (st : State) (j : Item), states[k]? = some st → j ∈ st.items → j.rule = 0 →
      j ∈ st.kernel := by
    intro k st j hst hj hr
    rcases (hstates.state k st hst).items j hj with hk | ⟨r, hr0, -, rfl⟩
    · exact hk
    · exact absurd hr hr0
  cases h with
  | start =>
    have hk := hkernel 0 state i hn hi hrule
    rw [(hstates.state 0 state hn).first rfl] at hk
    obtain rfl := List.mem_singleton.mp hk
    cases hdot
  | @move m t s ms ss st path hm hs =>
    obtain ⟨htake, hsymbols⟩ := take_dot hstates (.move path hm hs) rfl hn i hi
    -- the item before the move has its dot at the beginning, so it is in the first state
    obtain ⟨target, htarget, htk, -⟩ := hstates.leads m st hm (s, n) hs
    obtain rfl : target = state := Option.some.inj (htarget.symm.trans hn)
    have hk := hkernel n target i hn hi hrule
    rw [htk] at hk
    obtain ⟨j, hj, hadvance⟩ := List.mem_filterMap.mp hk
    obtain ⟨-, hjrule, hjdot⟩ := Item.advance?_eq_some hadvance
    have hm0 : m = 0 := by
      by_contra hm0
      have := (hstates.state m st hm).moved hm0 j (hkernel m st j hm hj (hjrule ▸ hrule))
      omega
    subst hm0
    cases path with
    | start =>
      rw [hdot, hrule] at hsymbols
      simpa [List.take_of_length_le (Nat.le_of_eq hroot)] using hsymbols
    | move path' hn' hs' => exact absurd rfl (ne_zero hstates hn' hs')

end Path

end QuadLang.Lalr
