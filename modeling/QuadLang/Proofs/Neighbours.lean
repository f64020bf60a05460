/-
Items that stand in one state.

Whether a state of the automaton of a dialect has to choose depends on which of its items
stand side by side.  Items are numbered, and for every item there is the set of all items that
it can share a state with.  These sets are found without the states: the neighbours of an
item at the beginning of a rule are those of the items that stand before its left side, and
they move on with it along the rule.

* `Dialect.neighbours_fit` — the table of the neighbours is closed under the rules;
* `Dialect.has_rowOf` — so it holds for any two items of a state;
* `Dialect.clear_end`, `Dialect.clear_blank` — what stands beside the end of a rule, or before
  something that can be left out, is clear of what can come after it: no item asks for such a
  token (`Dialect.not_trails_of_next`), and no other rule ends where it can come after that
  one too (`Dialect.not_trails_of_end`).

Of rules that end in one state those written later give way.  The rule of `empty` and the blank
statement are left aside: where they end, others can end.

Design notes: the number of an item is sixteen times that of its rule, plus the place of its
dot.  To go through a set, its least member is cut off again and again.  Which power of two
it is, is looked up by its remainder on division by 2579, of which 2 is a primitive root;
nothing is proved about this, since whether all members were found is part of the check.
-/
import QuadLang.Proofs.Followers

namespace QuadLang

open Lalr

variable {b k : Nat}

/-! ### Sets of items -/

namespace Bits

variable {n : Nat}

theorem has_foldl_add {ns : List Nat} :
    has (ns.foldl add b) n = true ↔ has b n = true ∨ n ∈ ns := by
  induction ns generalizing b with
  | nil => simp
  | cons m ns ih =>
    rw [List.foldl_cons, ih, has_add, List.mem_cons, or_assoc]

theorem has_shiftLeft_succ (h : has b n = true) : has (Nat.shiftLeft b 1) (n + 1) = true := by
  have heq : Nat.shiftLeft b 1 = b <<< 1 := rfl
  rw [has_eq_testBit] at h ⊢
  rw [heq, Nat.testBit_shiftLeft, Nat.add_sub_cancel, h, Bool.and_true, decide_eq_true_iff]
  omega

/-- The logarithms of the powers of two, by their remainders. -/
def addLog : Nat → Nat → Nat → Nat → Nat
  | 0, _, _, t => t
  | n + 1, c, b, t => addLog n (Nat.succ c) (Nat.mod (Nat.mul 2 b) 2579)
      (Nat.lor t (Nat.shiftLeft c (Nat.mul 16 b)))

/-- All these logarithms. -/
def logs : Nat := addLog 2578 0 1 0

/-- The least member of a set. -/
def least (b : Nat) : Nat :=
  Nat.land (Nat.shiftRight logs
    (Nat.mul 16 (Nat.mod (Nat.xor b (Nat.land b (Nat.pred b))) 2579))) 65535

/-- The members of a set, if there are not more than so many. -/
def members : Nat → Nat → List Nat
  | 0, _ => []
  | n + 1, b => bif Nat.beq b 0 then [] else least b :: members n (Nat.land b (Nat.pred b))

/-- Whether all members were found. -/
def listedAll (b : Nat) : Bool := Nat.beq ((members 64 b).foldl add 0) b

theorem mem_members (h : listedAll b = true) (hn : has b n = true) : n ∈ members 64 b := by
  rw [← Nat.eq_of_beq_eq_true h, has_foldl_add, not_has_zero] at hn
  exact hn.resolve_left Bool.false_ne_true

end Bits

namespace Numbers

open Bits

/-- A set in a table of sets of items. -/
def wide (t s : Nat) : Nat :=
  Nat.land (Nat.shiftRight t (Nat.mul 4096 s)) (Nat.pred (Nat.shiftLeft 1 4096))

/-- The number of an item. -/
def itemAt (rule dot : Nat) : Nat := Nat.add (Nat.mul 16 rule) dot

/-- The items of a rule before its symbols. -/
def addStanding : List Nat → Nat → Nat → Nat
  | [], _, t => t
  | s :: rest, c, t => addStanding rest (Nat.succ c)
      (Nat.lor t (Nat.shiftLeft 1 (Nat.add c (Nat.mul 4096 s))))

/-- The symbols after the items of a rule. -/
def addNext : List Nat → Nat → Nat → Nat
  | [], _, t => t
  | s :: rest, c, t => addNext rest (Nat.succ c)
      (Nat.lor t (Nat.shiftLeft (Nat.succ s) (Nat.mul 8 c)))

/-- One round over the rules for the items at the beginning of a rule that come with an item
before a symbol. -/
def openRound (G : Numbers) (t : Nat) : Nat :=
  (G.rules.zipIdx 1).foldr (fun x t => Nat.lor t (Nat.shiftLeft
    ((x.1.2.take 1).foldl (fun b s => Nat.lor b (wide t s)) (Nat.shiftLeft 1 (itemAt x.2 0)))
    (Nat.mul 4096 x.1.1))) t

/-- The items before each symbol, the symbol after each item, and the items that come with an
item before a symbol. -/
structure ItemTables where
  standing : Nat
  next : Nat
  opening : Nat

/-- The tables of the items of all rules, if the first rule is one for a symbol alone. -/
def itemTables (G : Numbers) (top : Nat) : ItemTables where
  standing := (G.rules.zipIdx 1).foldl (fun t x => addStanding x.1.2 (itemAt x.2 0) t)
    (addStanding [top] 0 0)
  next := (G.rules.zipIdx 1).foldl (fun t x => addNext x.1.2 (itemAt x.2 0) t) (addNext [top] 0 0)
  opening := G.openRound (G.openRound (G.openRound 0))

namespace ItemTables

variable (t : ItemTables) {n c s w : Nat} {before after : List Nat}

/-- Add the items that come with an item. -/
def attach (b c : Nat) : Nat :=
  bif Nat.beq (field t.next c) 0 then b
  else Nat.lor b (wide t.opening (Nat.pred (field t.next c)))

/-- The items of a state, by those it was made with. -/
def close (k : Nat) : Nat := (members 64 k).foldl t.attach k

/-- The items before a symbol, after it. -/
def moved (b s : Nat) : Nat := Nat.shiftLeft (Nat.land b (wide t.standing s)) 1

/-- What stands beside an item that is moved over a symbol. -/
def pass (b s : Nat) : Nat := t.close (t.moved b s)

/-- What stands beside an item that is moved over symbols. -/
def along (b : Nat) : List Nat → Nat
  | [] => b
  | s :: rest => along (t.pass b s) rest

/-- Add what stands beside the items of a rule to what stands beside the symbols after them. -/
def spread : List Nat → Nat → Nat → Nat
  | [], _, n => n
  | s :: rest, b, n => spread rest (t.pass b s) (Nat.lor n (Nat.shiftLeft b (Nat.mul 4096 s)))

/-- The check of a table on the items of one rule. -/
def spreadFits (n : Nat) : List Nat → Nat → Bool
  | [], _ => true
  | s :: rest, b => within b (wide n s) && (listedAll (t.moved b s) &&
      spreadFits n rest (t.pass b s))

/-- The check of the items of one rule. -/
def standsFit : List Nat → Nat → Bool
  | [], _ => true
  | s :: rest, c => has (wide t.standing s) c && (Nat.beq (field t.next c) (Nat.succ s) &&
      standsFit rest (Nat.succ c))

/-- The items before a symbol of a set. -/
def asking (n w : Nat) : Nat :=
  (List.range n).foldl (fun b s => bif has w s then Nat.lor b (wide t.standing s) else b) 0

/-- The items at the end of a rule whose left side meets a set. -/
def ended (follow w : Nat) (xs : List ((Nat × List Nat) × Nat)) : Nat :=
  xs.foldr (fun x b => bif Nat.beq (Nat.land (row follow x.1.1) w) 0 then b
    else add b (itemAt x.2 x.1.2.length)) 0

/-- Whether none of a set of items asks for a token of a set or ends a rule before one. -/
def clear (n follow w : Nat) (xs : List ((Nat × List Nat) × Nat)) (b : Nat) : Bool :=
  Nat.beq (Nat.land b (t.asking n w)) 0 && Nat.beq (Nat.land b (ended follow w xs)) 0

variable {t}

theorem has_foldl_attach {cs : List Nat} (h : has b n = true) : has (cs.foldl t.attach b) n = true := by
  induction cs generalizing b with
  | nil => exact h
  | cons c cs ih =>
    refine ih ?_
    rw [attach]
    rcases Nat.beq (field t.next c) 0 with _ | _
    · exact has_lor.mpr (.inl h)
    · exact h

theorem has_foldl_attach_opening (hnext : field t.next c = s + 1)
    (hn : has (wide t.opening s) n = true) {cs : List Nat} (hmem : c ∈ cs) :
    has (cs.foldl t.attach b) n = true := by
  induction cs generalizing b with
  | nil => exact absurd hmem List.not_mem_nil
  | cons c' cs ih =>
    rw [List.foldl_cons]
    rcases List.mem_cons.mp hmem with rfl | hmem
    · refine has_foldl_attach ?_
      rw [attach, hnext]
      exact has_lor.mpr (.inr hn)
    · exact ih hmem

theorem has_close (h : has k n = true) : has (t.close k) n = true :=
  has_foldl_attach h

/-- What comes with an item is added. -/
theorem has_close_opening (hk : listedAll k = true) (hc : has k c = true)
    (hnext : field t.next c = s + 1) (hn : has (wide t.opening s) n = true) :
    has (t.close k) n = true :=
  has_foldl_attach_opening hnext hn (mem_members hk hc)

theorem along_append (b : Nat) (ss ss' : List Nat) :
    t.along b (ss ++ ss') = t.along (t.along b ss) ss' := by
  induction ss generalizing b with
  | nil => rfl
  | cons s ss ih => exact ih (t.pass b s)

theorem of_spreadFits (h : t.spreadFits n (before ++ s :: after) b = true) :
    within (t.along b before) (wide n s) = true ∧ listedAll (t.moved (t.along b before) s) = true := by
  induction before generalizing b with
  | nil =>
    rw [List.nil_append, spreadFits, Bool.and_eq_true, Bool.and_eq_true] at h
    exact ⟨h.1, h.2.1⟩
  | cons s' before ih =>
    rw [List.cons_append, spreadFits, Bool.and_eq_true, Bool.and_eq_true] at h
    exact ih h.2.2

theorem of_standsFit (h : t.standsFit (before ++ s :: after) c = true) :
    has (wide t.standing s) (c + before.length) = true ∧ field t.next (c + before.length) = s + 1 := by
  induction before generalizing c with
  | nil =>
    rw [List.nil_append, standsFit, Bool.and_eq_true, Bool.and_eq_true] at h
    exact ⟨h.1, Nat.eq_of_beq_eq_true h.2.1⟩
  | cons s' before ih =>
    rw [List.cons_append, standsFit, Bool.and_eq_true, Bool.and_eq_true] at h
    have heq : c + (s' :: before).length = Nat.succ c + before.length := by
      rw [List.length_cons]
      omega
    rw [heq]
    exact ih h.2.2

theorem has_asking (hs : s < n) (hw : has w s = true) (hc : has (wide t.standing s) c = true) :
    has (t.asking n w) c = true := by
  have hstep : ∀ (ss : List Nat) (b : Nat), has b c = true ∨ s ∈ ss → has (ss.foldl
      (fun b s => bif has w s then Nat.lor b (wide t.standing s) else b) b) c = true := by
    intro ss
    induction ss with
    | nil => exact fun b h => h.resolve_right List.not_mem_nil
    | cons s' ss ih =>
      intro b h
      rw [List.foldl_cons]
      refine ih _ ?_
      rcases h with h | h
      · refine .inl ?_
        rcases has w s' with _ | _
        · exact h
        · exact has_lor.mpr (.inl h)
      · rcases List.mem_cons.mp h with rfl | h
        · rw [hw]
          exact .inl (has_lor.mpr (.inr hc))
        · exact .inr h
  exact hstep _ _ (.inr (List.mem_range.mpr hs))

theorem has_ended {follow : Nat} {xs : List ((Nat × List Nat) × Nat)} {x : (Nat × List Nat) × Nat}
    (hx : x ∈ xs) (hmeet : Nat.land (row follow x.1.1) w ≠ 0) :
    has (ended follow w xs) (itemAt x.2 x.1.2.length) = true := by
  rw [ended]
  induction xs with
  | nil => cases hx
  | cons y xs ih =>
    rw [List.foldr_cons]
    rcases List.mem_cons.mp hx with rfl | hx
    · rcases hbeq : Nat.beq (Nat.land (row follow x.1.1) w) 0 with _ | _
      · exact has_add.mpr (.inr rfl)
      · exact absurd (Nat.eq_of_beq_eq_true hbeq) hmeet
    · rcases Nat.beq (Nat.land (row follow y.1.1) w) 0 with _ | _
      · exact has_add.mpr (.inl (ih hx))
      · exact ih hx

end ItemTables

end Numbers

namespace Dialect

open Bits Numbers ItemTables

def itemTables (d : Dialect) : ItemTables := d.numbers.itemTables (d.number "program")

/-- One round over the rules for what stands beside the items before each symbol. -/
def spreadRound (d : Dialect) (n : Nat) : Nat :=
  d.numbers.rules.foldl (fun n r => d.itemTables.spread r.2 (wide n r.1) n) n

/-- What stands beside the items before each symbol. -/
def neighbours (d : Dialect) : Nat :=
  d.spreadRound (d.spreadRound
    (d.itemTables.spread [d.number "program"] (d.itemTables.close 1) 0))

/-- What stands beside the first item of each rule, and the symbols of the rule. -/
def lanes (d : Dialect) : List (Nat × List Nat) :=
  (d.itemTables.close 1, [d.number "program"]) ::
    d.numbers.rules.map fun r => (wide d.neighbours r.1, r.2)

/-- The rules with their numbers. -/
def placed (d : Dialect) : List ((Nat × List Nat) × Nat) := d.numbers.rules.zipIdx 1

/-- Whether nothing among a set of items stands in the way of completing something. -/
def clear (d : Dialect) (s : Nat) (xs : List ((Nat × List Nat) × Nat)) (b : Nat) : Bool :=
  d.itemTables.clear d.ending d.follow (row d.follow s) xs b

/-- The check of the tables, and of the items that stand beside the end of a rule or before
something that can be left out. -/
theorem neighbours_fit (d : Dialect) :
    listedAll 1 = true ∧
    (∀ x ∈ d.lanes.zipIdx, d.itemTables.standsFit x.1.2 (itemAt x.2 0) = true ∧
      d.itemTables.spreadFits d.neighbours x.1.2 x.1.1 = true) ∧
    ∀ x ∈ d.placed, has (wide d.itemTables.opening x.1.1) (itemAt x.2 0) = true ∧
      (∀ s ∈ x.1.2.take 1,
        within (wide d.itemTables.opening s) (wide d.itemTables.opening x.1.1) = true) ∧
      (x.1.1 = d.numbers.blank ∨ x.1 = (d.numbers.one, [d.numbers.blank]) ∨
        d.clear x.1.1 (d.placed.take (x.2 - 1))
          (d.itemTables.along (wide d.neighbours x.1.1) x.1.2) = true) ∧
      (x.1.2 = [d.numbers.blank] → x.1.1 = d.numbers.one ∨
        d.clear x.1.1 (d.placed.filter fun y => !Nat.beq y.1.1 d.numbers.blank)
          (wide d.neighbours x.1.1) = true) := by
  cases d <;> decide +kernel

/-! ### Neighbours in the automaton -/

/-- What stands beside an item. -/
def rowOf (d : Dialect) (rule dot : Nat) : Nat :=
  (d.lanes[rule]?.map fun x => d.itemTables.along x.1 (x.2.take dot)).getD 0

variable {d : Dialect} {g : Lalr.Rules} {n : Nat} {rule : DialectRule} {i : Item} {ss : List Nat}

theorem rowOf_eq {rule : Nat} (h : d.lanes[rule]? = some (b, ss)) (dot : Nat) :
    d.rowOf rule dot = d.itemTables.along b (ss.take dot) := by
  rw [rowOf, h]
  rfl

/-- The rules by codes and by numbers. -/
theorem exists_lane (hc : Codes d g) {r : Nat} (hr : r < g.rules.size) :
    ∃ b, ∃ ss : List String, g.right r = ss.map (code g) ∧ (∀ s ∈ ss, s ∈ d.symbols) ∧
      d.lanes[r]? = some (b, ss.map d.number) := by
  obtain ⟨ss, hright, hss, ⟨rfl, rfl⟩ | ⟨n, rule, rfl, hrule, rfl⟩⟩ := exists_symbols hc hr
  · exact ⟨_, _, hright, hss, rfl⟩
  · refine ⟨wide d.neighbours (d.number rule.name), _, hright, hss, ?_⟩
    show ((d.rules.map _).map _)[n]? = _
    rw [List.getElem?_map, List.getElem?_map, hrule]
    rfl

/-- A rule among the rules with their numbers. -/
theorem getElem?_placed (h : d.rules[n]? = some rule) :
    d.placed[n]? = some ((d.number rule.name, rule.symbols.map d.number), n + 1) := by
  show ((d.rules.map _).zipIdx 1)[n]? = _
  rw [List.getElem?_zipIdx, List.getElem?_map, h, Nat.add_comm]
  rfl

theorem mem_placed (h : d.rules[n]? = some rule) :
    ((d.number rule.name, rule.symbols.map d.number), n + 1) ∈ d.placed :=
  List.mem_of_getElem? (getElem?_placed h)

theorem rowOf_rule (h : d.rules[n]? = some rule) (dot : Nat) :
    d.rowOf (n + 1) dot = d.itemTables.along (wide d.neighbours (d.number rule.name))
      ((rule.symbols.map d.number).take dot) := by
  refine rowOf_eq ?_ dot
  show ((d.rules.map _).map _)[n]? = _
  rw [List.getElem?_map, List.getElem?_map, h]
  rfl

/-- What the tables say of an item before a symbol. -/
structure Stands (d : Dialect) (rule dot s : Nat) : Prop where
  standing : has (wide d.itemTables.standing s) (itemAt rule dot) = true
  next : field d.itemTables.next (itemAt rule dot) = s + 1
  row : within (d.rowOf rule dot) (wide d.neighbours s) = true
  listed : listedAll (d.itemTables.moved (d.rowOf rule dot) s) = true
  advance : d.rowOf rule (dot + 1) = d.itemTables.pass (d.rowOf rule dot) s

theorem exists_stands (hc : Codes d g) (hsize : 0 < g.rules.size) (hi : i.Fits g) {c : Nat}
    (hnext : i.next? = some c) :
    ∃ s ∈ d.symbols, c = code g s ∧ d.Stands i.rule i.dot (d.number s) := by
  obtain ⟨rest, hrest⟩ := List.head?_eq_some_iff.mp hnext
  obtain ⟨b, all, hright, hall, hlane⟩ := exists_lane hc (hi.rule_lt hsize)
  -- the dot parts the symbols of the rule
  have hdrop := hi.rest.symm.trans hrest
  rw [hright, ← List.map_drop] at hdrop
  obtain ⟨s, after, hafter, rfl, -⟩ := List.map_eq_cons_iff.mp hdrop
  have hsplit : all.take i.dot ++ s :: after = all := by rw [← hafter, List.take_append_drop]
  have hlen : (all.take i.dot).length = i.dot := by
    have hle := hi.le
    rw [hright, List.length_map] at hle
    exact List.length_take_of_le hle
  have hnumbers : all.map d.number =
      (all.map d.number).take i.dot ++ d.number s :: after.map d.number := by
    rw [← List.map_take, ← List.map_cons, ← List.map_append, hsplit]
  have hlen' : ((all.map d.number).take i.dot).length = i.dot := by
    rw [← List.map_take, List.length_map, hlen]
  obtain ⟨hstands, hspread⟩ := d.neighbours_fit.2.1 ((b, all.map d.number), i.rule)
    (List.mem_zipIdx_iff_getElem?.mpr hlane)
  rw [hnumbers] at hstands hspread
  obtain ⟨hstanding, hfield⟩ := of_standsFit hstands
  obtain ⟨hrow, hlisted⟩ := of_spreadFits hspread
  rw [hlen'] at hstanding hfield
  refine ⟨s, hall s (hsplit ▸ List.mem_append_right _ List.mem_cons_self), rfl, ?_⟩
  refine ⟨hstanding, hfield, ?_, ?_, ?_⟩
  · rw [rowOf_eq hlane]
    exact hrow
  · rw [rowOf_eq hlane]
    exact hlisted
  · have htake : (all.map d.number).take (i.dot + 1) =
        (all.map d.number).take i.dot ++ [d.number s] := by
      conv_lhs => rw [hnumbers]
      rw [List.take_append, hlen', Nat.add_sub_cancel_left, List.take_take]
      simp
    rw [rowOf_eq hlane, rowOf_eq hlane, htake, along_append]
    rfl

section Automaton

variable (h : d.coded = some g) {states : Array Lalr.State} (hc : Lalr.Complete g states) {n : Nat}
  {st : State}

include h hc

/-- The items of a state, if the set that it was made with is known. -/
theorem has_close_of_kernel (hst : states[n]? = some st) (hk : listedAll k = true)
    (hkernel : ∀ j ∈ st.kernel, has k (itemAt j.rule j.dot) = true) :
    ∀ j ∈ st.items, has (d.itemTables.close k) (itemAt j.rule j.dot) = true := by
  have hcodes := codes h
  have hsize := (regular h).size
  -- with an item before a symbol comes all that its rules begin with
  suffices hall : ∀ j ∈ st.items, has (d.itemTables.close k) (itemAt j.rule j.dot) = true ∧
      ∀ s ∈ d.symbols, j.next? = some (code g s) → ∀ n,
        has (wide d.itemTables.opening (d.number s)) n = true → has (d.itemTables.close k) n = true from
    fun j hj => (hall j hj).1
  refine hc.items_induction hst (fun j hj => ?_) fun {j c r} hj hjp hnext hr => ?_
  · refine ⟨has_close (hkernel j hj), fun s hs hnext m hm => ?_⟩
    have hfits := hc.sound.fits hst (hc.mem_items_of_kernel hst hj)
    obtain ⟨t, ht, hcode, hstands⟩ := exists_stands hcodes hsize hfits hnext
    rw [code_inj hcodes hs ht hcode] at hm
    exact has_close_opening hk (hkernel j hj) hstands.next hm
  · have hfits := hc.sound.fits hst hj
    obtain ⟨s, hs, rfl, -⟩ := exists_stands hcodes hsize hfits hnext
    obtain ⟨m, rule, rfl, hrule, rfl⟩ := (mem_rulesOf_code hcodes hs).mp hr
    obtain ⟨hopen, hhead, -⟩ := d.neighbours_fit.2.2 _ (mem_placed hrule)
    refine ⟨hjp.2 _ hs hnext _ hopen, fun t ht hnext' x hx => hjp.2 _ hs hnext x ?_⟩
    -- the first symbol of the rule
    obtain ⟨rest, hrest⟩ := List.head?_eq_some_iff.mp hnext'
    have hright : rule.symbols.map (code g) = code g t :: rest :=
      (hcodes.right m rule hrule).symm.trans hrest
    obtain ⟨u, us, hsymbols, hu, -⟩ := List.map_eq_cons_iff.mp hright
    have hmem : u ∈ rule.symbols := hsymbols ▸ List.mem_cons_self
    rw [← code_inj hcodes (mem_symbols_of_mem (List.mem_of_getElem? hrule) hmem) ht hu] at hx
    refine has_of_within (hhead _ ?_) hx
    rw [hsymbols]
    exact List.mem_cons_self

/-- If the kernel of a state stands side by side, so do all its items. -/
theorem has_rowOf_of_kernel (hst : states[n]? = some st)
    (hkernel : ∀ i ∈ st.kernel, ∃ k, listedAll k = true ∧
      d.rowOf i.rule i.dot = d.itemTables.close k ∧
      ∀ j ∈ st.kernel, has k (itemAt j.rule j.dot) = true) :
    ∀ i ∈ st.items, ∀ j ∈ st.items, has (d.rowOf i.rule i.dot) (itemAt j.rule j.dot) = true := by
  have hcodes := codes h
  refine hc.items_induction hst (fun i hi j hj => ?_) fun {i c r} hi hip hnext hr j hj => ?_
  · obtain ⟨k, hk, hrow, hall⟩ := hkernel i hi
    rw [hrow]
    exact has_close_of_kernel h hc hst hk hall j hj
  · -- what stands beside an item before a symbol stands beside the beginning of its rules
    have hfits := hc.sound.fits hst hi
    obtain ⟨s, hs, rfl, hstands⟩ := exists_stands hcodes (regular h).size hfits hnext
    obtain ⟨m, rule, rfl, hrule, rfl⟩ := (mem_rulesOf_code hcodes hs).mp hr
    show has (d.rowOf (m + 1) 0) _ = true
    rw [rowOf_rule hrule]
    exact has_of_within hstands.row (hip j hj)

theorem has_rowOf {ns : List Nat} (hpath : Path states ns ss) :
    ∀ {n : Nat} {rest : List Nat}, ns = n :: rest → ∀ {st : State}, states[n]? = some st →
      ∀ i ∈ st.items, ∀ j ∈ st.items, has (d.rowOf i.rule i.dot) (itemAt j.rule j.dot) = true := by
  have hcodes := codes h
  induction hpath with
  | start =>
    intro n rest heq st hst
    obtain ⟨rfl, -⟩ := List.cons.inj heq
    have hkernel := (hc.sound.state 0 st hst).first rfl
    refine has_rowOf_of_kernel h hc hst fun i hi => ⟨1, d.neighbours_fit.1, ?_, fun j hj => ?_⟩
    · rw [hkernel, List.mem_singleton] at hi
      rw [hi]
      rfl
    · rw [hkernel, List.mem_singleton] at hj
      rw [hj]
      show has 1 0 = true
      decide
  | @move m t c ns ss st₀ _ hm hmove ih =>
    intro n rest heq st hst
    obtain ⟨rfl, -⟩ := List.cons.inj heq
    obtain ⟨st', hst', hkernel, -⟩ := hc.sound.leads m st₀ hm _ hmove
    obtain rfl := Option.some.inj (hst.symm.trans hst')
    -- an item of the kernel was moved, and so was each of its neighbours
    have hfrom : ∀ i ∈ st.kernel, ∃ i₀ ∈ st₀.items, i₀.next? = some c ∧ i.rule = i₀.rule ∧
        i.dot = i₀.dot + 1 := by
      intro i hi
      rw [hkernel] at hi
      obtain ⟨i₀, hi₀, hadvance⟩ := List.mem_filterMap.mp hi
      obtain ⟨-, hrule, hdot⟩ := Item.advance?_eq_some hadvance
      exact ⟨i₀, hi₀, Item.next?_of_advance? hadvance, hrule, hdot⟩
    have hstands : ∀ {i₀}, i₀ ∈ st₀.items → i₀.next? = some c →
        ∃ s ∈ d.symbols, c = code g s ∧ d.Stands i₀.rule i₀.dot (d.number s) := fun hi₀ hnext =>
      exists_stands hcodes (regular h).size (hc.sound.fits hm hi₀) hnext
    refine has_rowOf_of_kernel h hc hst fun i hi => ?_
    obtain ⟨i₀, hi₀, hnext, hrule, hdot⟩ := hfrom i hi
    obtain ⟨s, hs, hcode, hsi⟩ := hstands hi₀ hnext
    refine ⟨d.itemTables.moved (d.rowOf i₀.rule i₀.dot) (d.number s), hsi.listed, ?_, fun j hj => ?_⟩
    · rw [hrule, hdot, hsi.advance]
      rfl
    · obtain ⟨j₀, hj₀, hnext', hrule', hdot'⟩ := hfrom j hj
      obtain ⟨s', hs', hcode', hsj⟩ := hstands hj₀ hnext'
      obtain rfl := code_inj hcodes hs hs' (hcode.symm.trans hcode')
      rw [hrule', hdot']
      exact has_shiftLeft_succ (has_land.mpr ⟨ih rfl hm i₀ hi₀ j₀ hj₀, hsj.standing⟩)

end Automaton

/-! ### Nothing stands in the way -/

theorem number_lt {s : String} (hs : s ∈ d.symbols) : d.number s < d.ending :=
  placeOf_lt (mem_distinct.mpr (.inl (List.mem_map_of_mem hs)))

section Clear

variable (h : d.coded = some g) {s : String} (hs : s ∈ d.symbols)
  {xs : List ((Nat × List Nat) × Nat)} {b : Nat} (hclear : d.clear (d.number s) xs b = true)
  {j : Lalr.Item} (hfits : j.Fits g) (hj : has b (itemAt j.rule j.dot) = true) {a : Nat}

include h hs hclear hfits hj

theorem not_trails_of_next (hnext : j.next? = some a) : ¬Trails g (code g s) a := by
  intro htrails
  have hc := codes h
  obtain ⟨t, ht, rfl, hstands⟩ := exists_stands hc (regular h).size hfits hnext
  have hmark : has (row d.follow (d.number s)) (d.number t) = true := by
    rcases marks_of_trails h htrails hs rfl with ⟨u, hu, hcode, hhas⟩ | ⟨hend, -⟩
    · rwa [code_inj hc ht hu hcode]
    · exact absurd hend (hc.endMark t ht)
  rw [clear, ItemTables.clear, Bool.and_eq_true] at hclear
  exact land_ne_zero hj (has_asking (number_lt ht) hmark hstands.standing)
    (Nat.eq_of_beq_eq_true hclear.1)

theorem not_trails_of_end {m : Nat} {rule : DialectRule} (hrule : d.rules[m]? = some rule)
    (hm : j.rule = m + 1) (hrest : j.rest = [])
    (hx : ((d.number rule.name, rule.symbols.map d.number), m + 1) ∈ xs) :
    ¬(Trails g (code g s) a ∧ Trails g (code g rule.name) a) := by
  rintro ⟨htrails, htrails'⟩
  have hc := codes h
  have hmeet := (marks_of_trails h htrails'
    (mem_symbols_of_name (List.mem_of_getElem? hrule)) rfl).land_ne_zero hc
      (marks_of_trails h htrails hs rfl)
  have hdot : j.dot = (rule.symbols.map d.number).length := by
    rw [hfits.dot_eq hrest, hm, hc.right m rule hrule, List.length_map, List.length_map]
  rw [clear, ItemTables.clear, Bool.and_eq_true] at hclear
  rw [hm, hdot] at hj
  exact land_ne_zero hj (has_ended hx hmeet) (Nat.eq_of_beq_eq_true hclear.2)

end Clear

section State

variable (h : d.coded = some g) {states : Array Lalr.State} (hc : Lalr.Complete g states)
  {n : Nat} {ns ss : List Nat} (hpath : Lalr.Path states (n :: ns) ss) {st : Lalr.State}
  (hst : states[n]? = some st) {m : Nat} {rule : DialectRule} (hrule : d.rules[m]? = some rule)

include h hc hpath hst hrule

/-- What stands beside the end of a rule is in no way. -/
theorem clear_end (hi : i ∈ st.items) (hrest : i.rest = []) (hm : i.rule = m + 1)
    (hname : rule.name ≠ "empty") (hblank : ¬(rule.name = "statement" ∧ rule.symbols = ["empty"])) :
    ∃ b, d.clear (d.number rule.name) (d.placed.take m) b = true ∧
      ∀ j ∈ st.items, has b (itemAt j.rule j.dot) = true := by
  have hmem := List.mem_of_getElem? hrule
  obtain ⟨-, -, hcases, -⟩ := d.neighbours_fit.2.2 _ (mem_placed hrule)
  refine ⟨_, (hcases.resolve_left fun heq => ?_).resolve_left fun heq => ?_, fun j hj => ?_⟩
  · exact hname (number_inj (mem_symbols_of_name hmem) heq)
  · obtain ⟨hone, hempty⟩ := Prod.mk.inj heq
    have hsymbols : rule.symbols = ["empty"] := symbols_inj hmem hempty
    exact hblank ⟨number_inj (mem_symbols_of_name hmem) hone, hsymbols⟩
  · have hfits := hc.sound.fits hst hi
    have hhas := has_rowOf h hc hpath rfl hst i hi j hj
    rw [hm, rowOf_rule hrule, hfits.dot_eq hrest, hm, (codes h).right m rule hrule,
      List.length_map, List.take_of_length_le (by rw [List.length_map])] at hhas
    exact hhas

/-- What stands beside something that can be left out is in no way. -/
theorem clear_blank (hi : Item.initial g (m + 1) ∈ st.items) (hsymbols : rule.symbols = ["empty"])
    (hname : rule.name ≠ "statement") :
    ∃ b, d.clear (d.number rule.name)
        (d.placed.filter fun y => !Nat.beq y.1.1 d.numbers.blank) b = true ∧
      ∀ j ∈ st.items, has b (itemAt j.rule j.dot) = true := by
  have hmem := List.mem_of_getElem? hrule
  obtain ⟨-, -, -, hcases⟩ := d.neighbours_fit.2.2 _ (mem_placed hrule)
  refine ⟨_, (hcases (congrArg (List.map d.number) hsymbols)).resolve_left fun heq => ?_,
    fun j hj => ?_⟩
  · exact hname (number_inj (mem_symbols_of_name hmem) heq)
  · have hhas := has_rowOf h hc hpath rfl hst _ hi j hj
    rwa [show (Item.initial g (m + 1)).rule = m + 1 from rfl, rowOf_rule hrule] at hhas

end State

end Dialect

end QuadLang
