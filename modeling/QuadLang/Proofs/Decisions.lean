/-
What the tables decide.

Without declared precedences a row of the tables is settled by two rules: a shift wins over
a reduction, and of two reductions the one whose rule is written first wins.

* `Lalr.Row.Decides` — what a row does on each symbol, in terms of the items of its state;
* `Lalr.Row.decides_addItems` — taking the items into account one after the other comes to it;
* `Lalr.Tables.action?_shift`, `Lalr.Tables.action?_reduce` — what the tables do when a state
  has a dot before a terminal, and when it has completed items;
* `Lalr.Tables.goto?_eq` — the tables go on after every nonterminal that has a dot before it.

Design notes: acceptance competes with nothing, since the state that accepts has one item.
So no row is left unfinished.
-/
import QuadLang.Proofs.Lookaheads

namespace QuadLang.Lalr

variable {g : Rules} {states : Array State} {i : Item}

/-- No precedences have been declared. -/
structure Rules.Unranked (g : Rules) : Prop where
  rule : ∀ r, g.rulePrecedence r = .default
  token : ∀ s, g.tokenPrecedence s = .default

namespace Row

variable {row : Row} {s : Nat} (item : Item)

theorem action?_choose (row : Row) (s : Nat) (a : Action) (item : Item) (s' : Nat) :
    (row.choose s a item).action? s' = if s' = s then some a else row.action? s' := by
  rw [choose]
  by_cases hany : row.chosen.any (·.1 == s) = true
  · have hmap : (row.chosen.map fun e => if e.1 == s then (s, a, item) else e) =
        row.chosen.map fun e => if e.1 == s then (e.1, a, item) else e := by
      refine List.map_congr_left fun e _ => ?_
      by_cases he : (e.1 == s) = true
      · rw [if_pos he, if_pos he, beq_iff_eq.mp he]
      · rw [if_neg he, if_neg he]
    rw [if_pos hany, action?, hmap, lookup_map_ite (· == s)]
    by_cases hs : s' = s
    · obtain ⟨e, he, hes⟩ := List.any_eq_true.mp hany
      rcases h : row.chosen.lookup s' with _ | x
      · have hne := List.lookup_eq_none_iff.mp h e he
        rw [beq_iff_eq] at hes
        simp [hes, hs] at hne
      · simp [hs]
    · rw [action?, if_neg hs, beq_false_of_ne hs]
      simp
  · rw [if_neg hany, action?, List.lookup_append]
    by_cases hs : s' = s
    · subst hs
      have hnone : row.chosen.lookup s' = none := by
        rw [List.lookup_eq_none_iff]
        intro e he
        rw [bne_iff_ne]
        rintro rfl
        exact hany (List.any_eq_true.mpr ⟨e, he, beq_self_eq_true _⟩)
      simp [hnone]
    · rw [action?, if_neg hs]
      rcases row.chosen.lookup s' with _ | x
      · simp [List.lookup_cons, beq_false_of_ne hs]
      · rfl

theorem action?_note (row : Row) (keep : Bool) (c : Conflict) (s : Nat) :
    (row.note keep c).action? s = row.action? s := by
  cases keep <;> rfl

theorem action?_count (row : Row) (rule : Nat) (change : Int) (s : Nat) :
    (row.count rule change).action? s = row.action? s := rfl

/-- What becomes of a choice when a reduction is offered. -/
def settle (g : Rules) (rule : Nat) : Option Action → Action
  | some (.reduce old) => if g.line rule < g.line old then .reduce rule else .reduce old
  | some a => a
  | none => .reduce rule

/-- A choice between shifts and reductions. -/
def Open : Option Action → Prop
  | some .accept => False
  | some .refuse => False
  | _ => True

theorem open_settle {o : Option Action} (h : Open o) (rule : Nat) : Open (some (settle g rule o)) := by
  rcases o with _ | a
  · trivial
  cases a with
  | shift _ => trivial
  | reduce old =>
    rw [settle]
    split <;> trivial
  | accept | refuse => exact h

theorem settle_settle (rule : Nat) (o : Option Action) :
    settle g rule (some (settle g rule o)) = settle g rule o := by
  rcases o with _ | a
  · simp [settle]
  cases a with
  | reduce old =>
    by_cases h : g.line rule < g.line old <;> simp [settle, h]
  | shift _ | accept | refuse => rfl

theorem offerReduce_spec (hg : g.Unranked) (h : Open (row.action? s)) :
    ∃ row', offerReduce g item row s = some row' ∧ ∀ s', row'.action? s' =
      if s' = s then some (settle g item.rule (row.action? s)) else row.action? s' := by
  have hsp := hg.token s
  have hrp := hg.rule item.rule
  obtain ⟨row₀, hrow₀⟩ : ∃ row₀ : Row, row₀ =
    { row with offers := row.offers ++ [Offer.mk s item (.reduce item.rule)] } := ⟨_, rfl⟩
  have hact : ∀ s', row₀.action? s' = row.action? s' := by
    rw [hrow₀]
    exact fun _ => rfl
  rw [← hact s] at h ⊢
  simp only [← hact]
  rw [offerReduce, ← hrow₀]
  simp only [hsp, hrp]
  rcases ha : row₀.action? s with _ | a
  · refine ⟨_, rfl, fun s' => ?_⟩
    rw [action?_count, action?_choose]
    rfl
  cases a with
  | shift t =>
    refine ⟨_, rfl, fun s' => ?_⟩
    rw [action?_note]
    by_cases hs : s' = s
    · rw [if_pos hs, hs, ha]
      rfl
    · rw [if_neg hs]
  | reduce old =>
    by_cases hline : g.line item.rule < g.line old
    · simp only [gt_iff_lt, hline, if_true]
      refine ⟨_, rfl, fun s' => ?_⟩
      rw [action?_note, action?_count, action?_count, action?_choose]
      simp [settle, hline]
    · simp only [gt_iff_lt, hline, if_false]
      refine ⟨_, rfl, fun s' => ?_⟩
      rw [action?_note]
      by_cases hs : s' = s
      · rw [if_pos hs, hs, ha]
        simp [settle, hline]
      · rw [if_neg hs]
  | accept | refuse =>
    rw [ha] at h
    cases h

theorem offerAll_spec (hg : g.Unranked) (ss : List Nat) (h : ∀ s, Open (row.action? s)) :
    ∃ row', offerAll (offerReduce g item) ss row = (row', true) ∧ ∀ s, row'.action? s =
      if s ∈ ss then some (settle g item.rule (row.action? s)) else row.action? s := by
  induction ss generalizing row with
  | nil => exact ⟨row, rfl, fun s => by simp⟩
  | cons s ss ih =>
    obtain ⟨row₁, hrow₁, hact₁⟩ := offerReduce_spec item hg (h s)
    have hopen : ∀ s', Open (row₁.action? s') := by
      intro s'
      rw [hact₁]
      split
      · exact open_settle (h s) item.rule
      · exact h s'
    obtain ⟨row', hrow', hact'⟩ := ih hopen
    refine ⟨row', by rw [offerAll, hrow₁]; exact hrow', fun s' => ?_⟩
    rw [hact', hact₁]
    by_cases hs : s' = s
    · subst hs
      by_cases hmem : s' ∈ ss <;> simp [hmem, settle_settle]
    · simp [hs]

theorem offerShift_spec (hg : g.Unranked) {target : Nat} (h : Open (row.action? s))
    (hsame : ∀ t, row.action? s = some (.shift t) → t = target) :
    ∃ row', offerShift g item row s target = some row' ∧ ∀ s', row'.action? s' =
      if s' = s then some (.shift target) else row.action? s' := by
  have hsp := hg.token s
  obtain ⟨row₀, hrow₀⟩ : ∃ row₀ : Row, row₀ =
    { row with offers := row.offers ++ [Offer.mk s item (.shift target)] } := ⟨_, rfl⟩
  have hact : ∀ s', row₀.action? s' = row.action? s' := by
    rw [hrow₀]
    exact fun _ => rfl
  rw [← hact s] at h hsame
  simp only [← hact]
  rw [offerShift, ← hrow₀]
  rcases ha : row₀.chosen.lookup s with _ | ⟨a, owner⟩
  · exact ⟨_, rfl, fun s' => action?_choose _ _ _ _ _⟩
  have haction : row₀.action? s = some a := by rw [action?, ha]; rfl
  cases a with
  | shift t =>
    refine ⟨_, rfl, fun s' => ?_⟩
    by_cases hs : s' = s
    · rw [if_pos hs, hs, haction, hsame t haction]
    · rw [if_neg hs]
  | reduce old =>
    simp only [hsp, hg.rule owner.rule]
    refine ⟨_, rfl, fun s' => ?_⟩
    rw [action?_note, action?_choose, action?_count]
  | accept | refuse =>
    rw [haction] at h
    cases h

/-! ### All items of a state -/

/-- An item asks for a shift of a terminal. -/
def Asks (g : Rules) (items : List Item) (s : Nat) : Prop :=
  g.isTerminal s = true ∧ ∃ i ∈ items, i.next? = some s

/-- A completed item whose rule can be reduced on a look-ahead. -/
def Ends (ahead : Item → List Nat) (items : List Item) (s : Nat) (i : Item) : Prop :=
  i ∈ items ∧ i.rest = [] ∧ s ∈ ahead i

/-- What a row does on a symbol: it shifts if an item asks for it; else it reduces the rule
that is written first of those that end. -/
structure Decides (g : Rules) (moves : List (Nat × Nat)) (ahead : Item → List Nat)
    (items : List Item) (s : Nat) (a : Option Action) : Prop where
  shift : Asks g items s → ∃ t, moves.lookup s = some t ∧ a = some (.shift t)
  reduce : ¬Asks g items s → ∀ i, Ends ahead items s i →
    ∃ j, Ends ahead items s j ∧ a = some (.reduce j.rule) ∧ g.line j.rule ≤ g.line i.rule ∧
      ∀ k, Ends ahead items s k → g.line j.rule ≤ g.line k.rule
  none : ¬Asks g items s → (∀ i, ¬Ends ahead items s i) → a = none

variable {moves : List (Nat × Nat)} {ahead : Item → List Nat} {items : List Item}

theorem Decides.open (h : Decides g moves ahead items s (row.action? s)) : Open (row.action? s) := by
  by_cases hasks : Asks g items s
  · obtain ⟨t, -, ht⟩ := h.shift hasks
    rw [ht]
    trivial
  · by_cases hends : ∃ i, Ends ahead items s i
    · obtain ⟨i, hi⟩ := hends
      obtain ⟨j, -, hj, -⟩ := h.reduce hasks i hi
      rw [hj]
      trivial
    · rw [h.none hasks fun i hi => hends ⟨i, hi⟩]
      trivial

/-- One more item is taken into account. -/
theorem decides_addItem (hg : g.Unranked) (h : ∀ s, Decides g moves ahead items s (row.action? s))
    (hrule : i.rest = [] → i.rule ≠ 0)
    (hmove : ∀ s, i.next? = some s → g.isTerminal s = true → ∃ t, moves.lookup s = some t) :
    ∃ row', row.addItem g moves ahead i = (row', true) ∧
      ∀ s, Decides g moves ahead (items ++ [i]) s (row'.action? s) := by
  have hasks : ∀ s, Asks g (items ++ [i]) s ↔
      Asks g items s ∨ g.isTerminal s = true ∧ i.next? = some s := by
    intro s
    simp only [Asks, List.mem_append, List.mem_singleton]
    constructor
    · rintro ⟨hs, j, hj | rfl, hnext⟩
      · exact .inl ⟨hs, j, hj, hnext⟩
      · exact .inr ⟨hs, hnext⟩
    · rintro (⟨hs, j, hj, hnext⟩ | ⟨hs, hnext⟩)
      · exact ⟨hs, j, .inl hj, hnext⟩
      · exact ⟨hs, i, .inr rfl, hnext⟩
  have hends : ∀ s j, Ends ahead (items ++ [i]) s j ↔
      Ends ahead items s j ∨ j = i ∧ i.rest = [] ∧ s ∈ ahead i := by
    intro s j
    simp only [Ends, List.mem_append, List.mem_singleton]
    constructor
    · rintro ⟨hj | rfl, hrest, hs⟩
      · exact .inl ⟨hj, hrest, hs⟩
      · exact .inr ⟨rfl, hrest, hs⟩
    · rintro (⟨hj, hrest, hs⟩ | ⟨rfl, hrest, hs⟩)
      · exact ⟨.inl hj, hrest, hs⟩
      · exact ⟨.inr rfl, hrest, hs⟩
  -- an item that asks for nothing and ends nowhere changes nothing
  have hidle : ∀ s, ¬(g.isTerminal s = true ∧ i.next? = some s) → ¬(i.rest = [] ∧ s ∈ ahead i) →
      ∀ {a}, Decides g moves ahead items s a → Decides g moves ahead (items ++ [i]) s a := by
    intro s hnot hnot' a hd
    have hasks' : Asks g (items ++ [i]) s ↔ Asks g items s := by rw [hasks, or_iff_left hnot]
    have hends' : ∀ j, Ends ahead (items ++ [i]) s j ↔ Ends ahead items s j := by
      intro j
      rw [hends, or_iff_left fun h => hnot' h.2]
    exact ⟨fun ha => hd.shift (hasks'.mp ha),
      fun ha => by simpa only [hends'] using hd.reduce fun h => ha (hasks'.mpr h),
      fun ha => by simpa only [hends'] using hd.none fun h => ha (hasks'.mpr h)⟩
  rw [addItem]
  rcases hnext : i.next? with _ | s
  · have hrest : i.rest = [] := List.head?_eq_none_iff.mp hnext
    simp only [beq_false_of_ne (hrule hrest), Bool.false_eq_true, if_false]
    obtain ⟨row', hrow', hact⟩ := offerAll_spec i hg (ahead i) fun s => (h s).open
    refine ⟨row', hrow', fun s => ?_⟩
    rw [hact]
    by_cases hs : s ∈ ahead i
    · rw [if_pos hs]
      have hasks' : Asks g (items ++ [i]) s ↔ Asks g items s := by rw [hasks, hnext]; simp
      have hi : Ends ahead (items ++ [i]) s i := (hends s i).mpr (.inr ⟨rfl, hrest, hs⟩)
      refine ⟨?_, ?_, fun _ hnone => absurd hi (hnone i)⟩
      · intro ha
        obtain ⟨t, ht, hshift⟩ := (h s).shift (hasks'.mp ha)
        exact ⟨t, ht, by rw [hshift]; rfl⟩
      · intro ha
        have ha' : ¬Asks g items s := fun h => ha (hasks'.mpr h)
        -- the first of the old rules, or the new one
        suffices hsuff : ∃ j, Ends ahead (items ++ [i]) s j ∧
            settle g i.rule (row.action? s) = .reduce j.rule ∧
            ∀ k, Ends ahead (items ++ [i]) s k → g.line j.rule ≤ g.line k.rule by
          obtain ⟨j, hj, hsettle, hmin⟩ := hsuff
          exact fun k hk => ⟨j, hj, by rw [hsettle], hmin k hk, hmin⟩
        by_cases hold : ∃ j, Ends ahead items s j
        · obtain ⟨j, hj⟩ := hold
          obtain ⟨j, hj, hact, -, hmin⟩ := (h s).reduce ha' j hj
          rw [hact, settle]
          by_cases hline : g.line i.rule < g.line j.rule
          · refine ⟨i, hi, by rw [if_pos hline], fun k hk => ?_⟩
            rcases (hends s k).mp hk with hk | ⟨rfl, -⟩
            · have := hmin k hk
              omega
            · exact Int.le_refl _
          · refine ⟨j, (hends s j).mpr (.inl hj), by rw [if_neg hline], fun k hk => ?_⟩
            rcases (hends s k).mp hk with hk | ⟨rfl, -⟩
            · exact hmin k hk
            · omega
        · have hnone := (h s).none ha' fun j hj => hold ⟨j, hj⟩
          refine ⟨i, hi, by rw [hnone]; rfl, fun k hk => ?_⟩
          rcases (hends s k).mp hk with hk | ⟨rfl, -⟩
          · exact absurd ⟨k, hk⟩ hold
          · exact Int.le_refl _
    · rw [if_neg hs]
      exact hidle s (by rw [hnext]; simp) (fun h => hs h.2) (h s)
  · have hrest : i.rest ≠ [] := by
      intro hnil
      rw [Item.next?, hnil] at hnext
      cases hnext
    by_cases hterm : g.isTerminal s = true
    · obtain ⟨t, ht⟩ := hmove s hnext hterm
      simp only [hterm, if_true, ht]
      have hsame : ∀ t', row.action? s = some (.shift t') → t' = t := by
        intro t' ht'
        by_cases ha : Asks g items s
        · obtain ⟨t'', hmove', hshift⟩ := (h s).shift ha
          rw [ht] at hmove'
          cases hmove'
          rw [ht'] at hshift
          cases hshift
          rfl
        · by_cases hold : ∃ j, Ends ahead items s j
          · obtain ⟨j, hj⟩ := hold
            obtain ⟨j, -, hact, -⟩ := (h s).reduce ha j hj
            rw [ht'] at hact
            cases hact
          · rw [(h s).none ha fun j hj => hold ⟨j, hj⟩] at ht'
            cases ht'
      obtain ⟨row', hrow', hact⟩ := offerShift_spec i hg (h s).open hsame
      refine ⟨row', by rw [offerAll, hrow']; rfl, fun s' => ?_⟩
      rw [hact]
      by_cases hs : s' = s
      · subst hs
        have hask : Asks g (items ++ [i]) s' := (hasks s').mpr (.inr ⟨hterm, hnext⟩)
        rw [if_pos rfl]
        exact ⟨fun _ => ⟨t, ht, rfl⟩, fun hnot => absurd hask hnot, fun hnot => absurd hask hnot⟩
      · rw [if_neg hs]
        refine hidle s' ?_ (fun h => hrest h.1) (h s')
        rintro ⟨-, hs'⟩
        rw [hnext] at hs'
        exact hs (Option.some.inj hs').symm
    · simp only [hterm]
      refine ⟨row, rfl, fun s' => hidle s' ?_ (fun h => hrest h.1) (h s')⟩
      rintro ⟨hterm', hs'⟩
      rw [hnext] at hs'
      cases hs'
      exact hterm hterm'

theorem decides_addItems (hg : g.Unranked) {rest items : List Item}
    (h : ∀ s, Decides g moves ahead items s (row.action? s))
    (hrule : ∀ i ∈ rest, i.rest = [] → i.rule ≠ 0)
    (hmove : ∀ i ∈ rest, ∀ s, i.next? = some s → g.isTerminal s = true →
      ∃ t, moves.lookup s = some t) :
    ∃ row', row.addItems g moves ahead rest = (row', true) ∧
      ∀ s, Decides g moves ahead (items ++ rest) s (row'.action? s) := by
  induction rest generalizing items row with
  | nil => exact ⟨row, rfl, by simpa using h⟩
  | cons i rest ih =>
    obtain ⟨row₁, hrow₁, h₁⟩ := decides_addItem hg h (hrule i List.mem_cons_self)
      (hmove i List.mem_cons_self)
    obtain ⟨row', hrow', h'⟩ := ih h₁ (fun j hj => hrule j (List.mem_cons_of_mem _ hj))
      fun j hj => hmove j (List.mem_cons_of_mem _ hj)
    refine ⟨row', ?_, by simpa using h'⟩
    rw [addItems, hrow₁]
    exact hrow'

theorem decides_empty (s : Nat) : Decides g moves ahead [] s (Row.empty.action? s) where
  shift := by simp [Asks]
  reduce := by simp [Ends]
  none := fun _ _ => rfl

end Row

/-! ### The tables -/

/-- A grammar whose start symbol stands in no rule, with terminals and nonterminals apart and
without precedences. -/
structure Rules.Regular (g : Rules) : Prop where
  size : 0 < g.rules.size
  root : g.right 0 = [g.start]
  start : ∀ r, r ≠ 0 → r < g.rules.size → g.start ∉ g.right r
  unranked : g.Unranked
  left : ∀ r, r ≠ 0 → r < g.rules.size → g.isNonterminal (g.left r) = true
  kind : ∀ r, r < g.rules.size → ∀ s ∈ g.right r, g.isTerminal s = !g.isNonterminal s

namespace Rules.Regular

variable (h : g.Regular)

include h

theorem nullableNonterminals : g.NullableNonterminals := fun _ hs =>
  Rules.nullable_induction (p := fun s => g.isNonterminal s = true)
    (fun r hr hlt _ => h.left r hr hlt) hs

end Rules.Regular

/-- The state that accepts has one item. -/
theorem Complete.items_eq_of_root (hc : Complete g states) (hg : g.Regular) {n : Nat} {st : State}
    (hst : states[n]? = some st) (hi : i ∈ st.items) (hrule : i.rule = 0) (hrest : i.rest = []) :
    st.items = [i] := by
  have hsound := hc.sound.state n st hst
  have hkernel : i ∈ st.kernel := by
    rcases hsound.items i hi with hk | ⟨r, hr, -, rfl⟩
    · exact hk
    · exact absurd hrule hr
  have hn : n ≠ 0 := by
    intro hn
    rw [hsound.first hn, List.mem_singleton] at hkernel
    rw [hkernel] at hrest
    have hroot : g.right 0 = [] := hrest
    rw [hg.root] at hroot
    cases hroot
  obtain ⟨m, st', s, hst', hmade⟩ := hc.whole.made n st hst hn
  -- an item with its dot before the start symbol begins the start rule
  have hstart : ∀ {j : Item}, j ∈ st'.items → j.next? = some g.start → j.rule = 0 := by
    intro j hj hs
    have hfits := hc.sound.fits hst' hj
    by_contra hr
    refine hg.start j.rule hr (hfits.rule hr) (List.mem_of_mem_drop (i := j.dot) ?_)
    rw [← hfits.rest]
    exact List.mem_of_mem_head? (Option.mem_def.mpr hs)
  have hs : s = g.start := by
    rw [hmade] at hkernel
    obtain ⟨j, hj, hadv⟩ := List.mem_filterMap.mp hkernel
    have hfits := hc.sound.fits hst' hj
    obtain ⟨hjrest, hjrule, -⟩ := Item.advance?_eq_some hadv
    have hmem : s ∈ g.right 0 := by
      refine List.mem_of_mem_drop (i := j.dot) ?_
      rw [← hrule, hjrule, ← hfits.rest, hjrest]
      exact List.mem_cons_self
    rw [hg.root] at hmem
    exact List.mem_singleton.mp hmem
  have hone : ∀ j ∈ st.kernel, j = i := by
    have hroot : ∀ {j : Item}, j ∈ st.kernel → j.rule = 0 ∧ j.dot = 1 ∧ j.rest = [] := by
      intro j hj
      have hfits := hsound.fits j hj
      have hmoved := hsound.moved hn j hj
      rw [hmade] at hj
      obtain ⟨k, hk, hadv⟩ := List.mem_filterMap.mp hj
      obtain ⟨-, hjrule, -⟩ := Item.advance?_eq_some hadv
      have hr : j.rule = 0 := by
        rw [hjrule]
        exact hstart hk (hs ▸ Item.next?_of_advance? hadv)
      have hle := hfits.le
      rw [hr, hg.root] at hle
      have hdot : j.dot = 1 := by
        simp at hle
        omega
      refine ⟨hr, hdot, ?_⟩
      rw [hfits.rest, hr, hg.root, hdot]
      rfl
    intro j hj
    obtain ⟨hr, hd, he⟩ := hroot hj
    obtain ⟨-, hd', he'⟩ := hroot hkernel
    obtain ⟨r, d, e⟩ := j
    obtain ⟨r', d', e'⟩ := i
    simp_all
  have hall : ∀ j ∈ st.items, j = i := by
    refine hc.items_induction hst hone ?_
    rintro j t r - rfl hnext
    rw [Item.next?, hrest] at hnext
    cases hnext
  have hnodup := hc.whole.nodup_items hc.sound hst
  rcases hitems : st.items with _ | ⟨j, items⟩
  · rw [hitems] at hi
    cases hi
  · rw [hitems] at hall hnodup
    obtain rfl := hall j List.mem_cons_self
    have hnil : items = [] := by
      refine List.eq_nil_iff_forall_not_mem.mpr fun k hk => ?_
      have hk' := hall k (List.mem_cons_of_mem _ hk)
      exact (List.nodup_cons.mp hnodup).1 (hk' ▸ hk)
    rw [hnil]

namespace Tables

variable {n : Nat} {st : State}

theorem rowsOf_eq {xs : List (State × List (Item × List Nat))} {rows : Array Row}
    (h : ∀ x ∈ xs, (Row.build g x.1 x.2).2 = true) :
    rowsOf g xs rows = (rows ++ (xs.map fun x => (Row.build g x.1 x.2).1).toArray, none) := by
  induction xs generalizing rows with
  | nil => simp [rowsOf]
  | cons x xs ih =>
    obtain ⟨state, ahead⟩ := x
    have hx := h (state, ahead) List.mem_cons_self
    rw [rowsOf]
    rcases hbuild : Row.build g state ahead with ⟨row, done⟩
    rw [hbuild] at hx
    obtain rfl : done = true := hx
    simp only
    rw [ih fun y hy => h y (List.mem_cons_of_mem _ hy)]
    simp [hbuild]

/-- What the row of a state says. -/
structure RowOf (g : Rules) (states : Array State) (n : Nat) (st : State) (row : Row) : Prop where
  moves : row.moves = st.moves.filter fun m => g.isNonterminal m.1
  decides : (∀ i ∈ st.items, i.rest = [] → i.rule ≠ 0) → ∀ s,
    Row.Decides g st.moves (aheadOf (lookaheads g states) n) st.items s (row.action? s)
  accepts : ∀ i ∈ st.items, i.rest = [] → i.rule = 0 →
    st.items = [i] ∧ row.chosen = [(g.endMark, .accept, i)]

theorem rowOf_build (hc : Complete g states) (hg : g.Regular) (hst : states[n]? = some st)
    {ahead : List (Item × List Nat)} (hahead : (lookaheads g states).getD n [] = ahead) :
    RowOf g states n st (Row.build g st ahead).1 ∧ (Row.build g st ahead).2 = true := by
  have hfun : (fun i => (ahead.lookup i).getD []) = aheadOf (lookaheads g states) n := by
    funext i
    rw [aheadOf, hahead]
  by_cases hroot : ∃ i ∈ st.items, i.rest = [] ∧ i.rule = 0
  · obtain ⟨i, hi, hrest, hrule⟩ := hroot
    have hitems := hc.items_eq_of_root hg hst hi hrule hrest
    have hadd : Row.empty.addItems g st.moves (fun i => (ahead.lookup i).getD []) st.items =
        (Row.empty.choose g.endMark .accept i, true) := by
      have hnext : i.next? = none := by rw [Item.next?, hrest]; rfl
      have hone : Row.empty.addItem g st.moves (fun i => (ahead.lookup i).getD []) i =
          (Row.empty.choose g.endMark .accept i, true) := by
        rw [Row.addItem, hnext]
        simp [hrule]
      rw [hitems, Row.addItems, hone]
      rfl
    rw [Row.build, hadd]
    refine ⟨⟨rfl, fun h => absurd hrule (h i hi hrest), ?_⟩, rfl⟩
    intro j hj _ _
    rw [hitems, List.mem_singleton] at hj
    subst hj
    exact ⟨hitems, rfl⟩
  · have hrule : ∀ i ∈ st.items, i.rest = [] → i.rule ≠ 0 :=
      fun i hi hrest hrule => hroot ⟨i, hi, hrest, hrule⟩
    have hempty : ∀ s, Row.Decides g st.moves (aheadOf (lookaheads g states) n) [] s
        (Row.empty.action? s) := Row.decides_empty
    have hmove : ∀ i ∈ st.items, ∀ s, i.next? = some s → g.isTerminal s = true →
        ∃ t, st.moves.lookup s = some t := by
      intro i hi s hs _
      obtain ⟨t, -, ht, -⟩ := hc.exists_move hst hi hs
      exact ⟨t, hc.lookup_move hst ht⟩
    obtain ⟨row, hrow, hdecides⟩ := Row.decides_addItems hg.unranked hempty hrule hmove
    rw [Row.build, hfun, hrow]
    exact ⟨⟨rfl, fun _ => hdecides, fun i hi hrest hr => absurd hr (hrule i hi hrest)⟩, rfl⟩

/-- Every state has a row. -/
theorem exists_rowOf (hg : g.Regular) (hapart : ReadsApart g (build g).states)
    (hst : (build g).states[n]? = some st) :
    ∃ row, (build g).rows[n]? = some row ∧ RowOf g (build g).states n st row := by
  rw [states_build] at hapart hst ⊢
  have hc := complete_build hg.size
  obtain ⟨hsize, -⟩ := mem_lookaheads hg.nullableNonterminals hapart
  obtain ⟨states, hstates⟩ : ∃ states, states = (Lalr.build g []).states := ⟨_, rfl⟩
  rw [← hstates] at hst hc hsize ⊢
  have hzip : ∀ {k : Nat} {x : State × List (Item × List Nat)},
      (states.toList.zip (lookaheads g states).toList)[k]? = some x →
        states[k]? = some x.1 ∧ (lookaheads g states).getD k [] = x.2 := by
    intro k x hx
    obtain ⟨h₁, h₂⟩ := List.getElem?_zip_eq_some.mp hx
    rw [Array.getElem?_toList] at h₁ h₂
    exact ⟨h₁, by rw [Array.getD_eq_getD_getElem?, h₂]; rfl⟩
  have hdone : ∀ x ∈ states.toList.zip (lookaheads g states).toList, (Row.build g x.1 x.2).2 = true := by
    intro x hx
    obtain ⟨k, hk⟩ := List.mem_iff_getElem?.mp hx
    obtain ⟨h₁, h₂⟩ := hzip hk
    exact (rowOf_build hc hg h₁ h₂).2
  have hrows : (build g).rows = (((states.toList.zip (lookaheads g states).toList).map
      fun x => (Row.build g x.1 x.2).1)).toArray := by
    rw [build, ofStates, ← hstates, rowsOf_eq hdone]
    simp
  have hlt := (Array.getElem?_eq_some_iff.mp hst).1
  obtain ⟨x, hx⟩ : ∃ x, (states.toList.zip (lookaheads g states).toList)[n]? = some x := by
    refine ⟨_, List.getElem?_eq_getElem ?_⟩
    rw [List.length_zip, Array.length_toList, Array.length_toList, hsize, Nat.min_self]
    exact hlt
  obtain ⟨h₁, h₂⟩ := hzip hx
  obtain rfl : st = x.1 := Option.some.inj (hst.symm.trans h₁)
  refine ⟨(Row.build g x.1 x.2).1, ?_, (rowOf_build hc hg h₁ h₂).1⟩
  rw [hrows]
  simp [hx]

theorem complete_states (hg : g.Regular) : Complete g (build g).states :=
  (states_build g).symm ▸ complete_build hg.size

section Spec

variable (hg : g.Regular) (hapart : ReadsApart g (build g).states) {n s : Nat} {st : State}
  (hst : (build g).states[n]? = some st)

include hg hst

/-- A state with an item that is not completed does not accept. -/
theorem decides_of_next (hi : i ∈ st.items) (hs : i.next? = some s) :
    ∀ j ∈ st.items, j.rest = [] → j.rule ≠ 0 := by
  intro j hj hrest hrule
  rw [(complete_states hg).items_eq_of_root hg hst hj hrule hrest, List.mem_singleton] at hi
  rw [hi, Item.next?, hrest] at hs
  cases hs

include hapart

/-- A dot before a terminal: the tables shift it. -/
theorem action?_shift (hi : i ∈ st.items) (hs : i.next? = some s) (hterm : g.isTerminal s = true) :
    ∃ t, (s, t) ∈ st.moves ∧ (build g).action? n s = some (.shift t) := by
  obtain ⟨row, hrow, hspec⟩ := exists_rowOf hg hapart hst
  obtain ⟨t, ht, hact⟩ :=
    (hspec.decides (decides_of_next hg hst hi hs) s).shift ⟨hterm, i, hi, hs⟩
  exact ⟨t, mem_of_lookup ht, by rw [action?, hrow]; exact hact⟩

/-- A completed item with a look-ahead that no item asks for: the tables reduce, and the rule
is the first of those that end. -/
theorem action?_reduce (hi : i ∈ st.items) (hrest : i.rest = []) (hrule : i.rule ≠ 0)
    (hs : s ∈ aheadOf (lookaheads g (build g).states) n i)
    (hasks : ∀ j ∈ st.items, j.next? = some s → g.isTerminal s = false) :
    ∃ j ∈ st.items, j.rest = [] ∧ s ∈ aheadOf (lookaheads g (build g).states) n j ∧
      (build g).action? n s = some (.reduce j.rule) ∧ g.line j.rule ≤ g.line i.rule := by
  obtain ⟨row, hrow, hspec⟩ := exists_rowOf hg hapart hst
  have hroot : ∀ j ∈ st.items, j.rest = [] → j.rule ≠ 0 := by
    intro j hj hjrest hjrule
    rw [(complete_states hg).items_eq_of_root hg hst hj hjrule hjrest, List.mem_singleton] at hi
    exact hrule (hi ▸ hjrule)
  obtain ⟨j, hj, hact, hle, -⟩ := (hspec.decides hroot s).reduce
    (fun ⟨hterm, j, hj, hnext⟩ => by simp [hasks j hj hnext] at hterm) i ⟨hi, hrest, hs⟩
  exact ⟨j, hj.1, hj.2.1, hj.2.2, by rw [action?, hrow]; exact hact, hle⟩

/-- Why the tables reduce. -/
theorem of_action?_reduce {r : Nat} (hact : (build g).action? n s = some (.reduce r)) :
    (∃ i ∈ st.items, i.rule = r ∧ i.rest = [] ∧ s ∈ aheadOf (lookaheads g (build g).states) n i) ∧
      (∀ i ∈ st.items, i.rest = [] → s ∈ aheadOf (lookaheads g (build g).states) n i →
        g.line r ≤ g.line i.rule) ∧
      ∀ i ∈ st.items, i.next? = some s → g.isTerminal s = false := by
  obtain ⟨row, hrow, hspec⟩ := exists_rowOf hg hapart hst
  rw [action?, hrow, Option.bind_some] at hact
  by_cases hroot : ∃ i ∈ st.items, i.rest = [] ∧ i.rule = 0
  · obtain ⟨i, hi, hrest, hrule⟩ := hroot
    have hchosen := (hspec.accepts i hi hrest hrule).2
    obtain ⟨x, hx, hred⟩ := Option.map_eq_some_iff.mp hact
    have hmem := mem_of_lookup hx
    rw [hchosen, List.mem_singleton, Prod.mk.injEq] at hmem
    rw [hmem.2] at hred
    cases hred
  have hdecides := hspec.decides (fun i hi hrest hrule => hroot ⟨i, hi, hrest, hrule⟩) s
  have hasks : ¬Row.Asks g st.items s := by
    intro hasks
    obtain ⟨t, -, hshift⟩ := hdecides.shift hasks
    rw [hact] at hshift
    cases hshift
  have hends : ∃ i, Row.Ends (aheadOf (lookaheads g (build g).states) n) st.items s i := by
    by_contra hnone
    rw [hdecides.none hasks fun i hi => hnone ⟨i, hi⟩] at hact
    cases hact
  obtain ⟨i, hi⟩ := hends
  obtain ⟨j, hj, hred, -, hmin⟩ := hdecides.reduce hasks i hi
  rw [hact] at hred
  cases hred
  refine ⟨⟨j, hj.1, rfl, hj.2.1, hj.2.2⟩, fun k hk hrest hs => hmin k ⟨hk, hrest, hs⟩, ?_⟩
  intro k hk hnext
  by_contra hterm
  exact hasks ⟨by simpa using hterm, k, hk, hnext⟩

/-- The state of the completed start rule accepts at the end. -/
theorem action?_accept (hi : i ∈ st.items) (hrest : i.rest = []) (hrule : i.rule = 0) :
    (build g).action? n g.endMark = some .accept := by
  obtain ⟨row, hrow, hspec⟩ := exists_rowOf hg hapart hst
  rw [action?, hrow, Option.bind_some, Row.action?, (hspec.accepts i hi hrest hrule).2]
  simp

theorem goto?_eq (hi : i ∈ st.items) (hs : i.next? = some s) (hnon : g.isNonterminal s = true) :
    ∃ t, (s, t) ∈ st.moves ∧ (build g).goto? n s = some t := by
  obtain ⟨row, hrow, hspec⟩ := exists_rowOf hg hapart hst
  obtain ⟨t, -, ht, -⟩ := (complete_states hg).exists_move hst hi hs
  refine ⟨t, ht, ?_⟩
  have hmem : (s, t) ∈ row.moves := by
    rw [hspec.moves]
    exact List.mem_filter.mpr ⟨ht, hnon⟩
  rw [goto?, hrow, Option.bind_some]
  rcases hlookup : row.moves.lookup s with _ | t'
  · have hne := List.lookup_eq_none_iff.mp hlookup (s, t) hmem
    simp at hne
  · have hmem' := mem_of_lookup hlookup
    rw [hspec.moves] at hmem'
    rw [(complete_states hg).move_inj hst (List.mem_filter.mp hmem').1 ht]

end Spec

/-- A state that always reduces a rule has no other action. -/
theorem of_defaulted? {t : Tables} {r s : Nat} {a : Action} (h : t.defaulted? n = some r)
    (ha : t.action? n s = some a) : a = .reduce r ∧
      ∀ s' a', t.action? n s' = some a' → s' = s := by
  obtain ⟨row, hrow, hsole⟩ := Option.bind_eq_some_iff.mp h
  rw [soleReduction?] at hsole
  split at hsole
  · next b rule item hchosen =>
    cases hsole
    have hone : ∀ s' a', t.action? n s' = some a' → s' = b ∧ a' = .reduce r := by
      intro s' a' ha'
      rw [action?, hrow, Option.bind_some, Row.action?, hchosen] at ha'
      obtain ⟨x, hx, rfl⟩ := Option.map_eq_some_iff.mp ha'
      have hmem := mem_of_lookup hx
      rw [List.mem_singleton, Prod.mk.injEq] at hmem
      exact ⟨hmem.1, by rw [hmem.2]⟩
    obtain ⟨rfl, rfl⟩ := hone s a ha
    exact ⟨rfl, fun s' a' ha' => (hone s' a' ha').1⟩
  · cases hsole

end Tables

end QuadLang.Lalr
