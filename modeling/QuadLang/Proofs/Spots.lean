/-
The cells behind addresses.

An address leads to a cell through the segment that it is in, the innermost frame
and the offsets of the types.  `Machine.spot?` is where it leads to: a row of cells
and a place in that row.  Reading and storing through a plain address are then what
they are for any array of cells:

* `value_spot`, `store_spot` — reading and storing go through the spot;
* `spot?_write`, `content_write` — storing moves no address, and changes the one
  cell;
* `spot?_of_offset`, `spot?_main` — where the addresses of a segment with frames
  lead to.
-/
import QuadLang.Proofs.Numeral
import QuadLang.Space

namespace QuadLang

open Segment

variable {i a : Int} {m' : Machine} {v : Value} {t : Scalar} {size : Nat}

/-- A row of cells. -/
inductive Row where
  | globals
  | frame (n : Nat)
  | constants
deriving DecidableEq

/-- A cell by its row and its place there. -/
structure Spot where
  row : Row
  index : Nat
deriving DecidableEq

theorem Counts.get_put (k : Counts) (t t' : Scalar) (n : Int) :
    (k.put t n).get t' = if t' = t then n else k.get t' := by
  cases t <;> cases t' <;> rfl

theorem rowIndex?_of_lt (h0 : 0 ≤ i) (h1 : i < size) : rowIndex? size i = some i.toNat := by
  have hneg : ¬ i < 0 := by omega
  simp [rowIndex?, hneg, h0, h1]

theorem lt_of_rowIndex? {k : Nat} (h : rowIndex? size i = some k) : k < size := by
  rw [rowIndex?] at h
  by_cases hc : 0 ≤ (if i < 0 then i + size else i) ∧ (if i < 0 then i + size else i) < size
  · rw [if_pos (by simpa using hc)] at h
    have hk := Option.some.inj h
    omega
  · rw [if_neg (by simpa using hc)] at h
    cases h

namespace Machine

/-- The cells of a row. -/
def row (m : Machine) : Row → Frame
  | .globals => m.globals
  | .frame n => m.frame n
  | .constants => m.constants

/-- The row that a place is in, and its number there. -/
def rowOf? (m : Machine) : Place → Option (Row × Int)
  | .global i => some (.globals, i)
  | .local i => m.locals.head?.map fun n => (.frame n, i)
  | .temp i => m.temps.head?.map fun n => (.frame n, i)
  | .constant i => some (.constants, i)

/-- The cell of a place, if there is one. -/
def spotAt? (m : Machine) (p : Place) : Option Spot :=
  (m.rowOf? p).bind fun r => (rowIndex? (m.row r.1).size r.2).map fun k => ⟨r.1, k⟩

/-- The cell that an address leads to, if there is one. -/
def spot? (m : Machine) (address : Int) : Option Spot :=
  match m.placeOf address with
  | .ok p => m.spotAt? p
  | .error _ => none

/-- What is in a cell. -/
def content (m : Machine) (s : Spot) : Option Cell := ((m.row s.row)[s.index]?).join

/-- Fill a cell. -/
def write (m : Machine) (s : Spot) (c : Cell) : Machine :=
  match s.row with
  | .globals => { m with globals := m.globals.setIfInBounds s.index (some c) }
  | .frame n => { m with frames := m.frames.modify n fun f => f.setIfInBounds s.index (some c) }
  | .constants => { m with constants := m.constants.setIfInBounds s.index (some c) }

/-- Memory is divided as the compiler divides it. -/
structure Standard (m : Machine) : Prop where
  globalBounds : m.globalBounds = Segment.global.bounds
  localBounds : m.localBounds = Segment.local.bounds
  tempBounds : m.tempBounds = Segment.temp.bounds
  constantBounds : m.constantBounds = Segment.constant.bounds

/-- A machine with nothing in it, for examples. -/
def blank : Machine where
  debug := false
  globalBounds := Segment.global.bounds
  localBounds := Segment.local.bounds
  tempBounds := Segment.temp.bounds
  constantBounds := Segment.constant.bounds
  globals := #[]
  constants := #[]
  frames := #[]
  locals := []
  temps := []
  localOffsets := []
  tempOffsets := []
  nextLocals := 0
  nextTemps := 0
  eras := []
  quads := #[]
  place := 0
  calls := []
  returns := []
  arguments := []
  extents := [1, 1]
  lastValue := none
  names := []
  input := []
  printed := []

variable {m : Machine} {s : Spot} {c : Cell} {p : Place} {a : Int}

/-! ### Reading -/

theorem spotAt?_eq_some (h : m.spotAt? p = some s) :
    ∃ i, m.rowOf? p = some (s.row, i) ∧ rowIndex? (m.row s.row).size i = some s.index := by
  obtain ⟨⟨r, i⟩, hr, hs⟩ := Option.bind_eq_some_iff.mp h
  obtain ⟨k, hk, rfl⟩ := Option.map_eq_some_iff.mp hs
  exact ⟨i, hr, hk⟩

theorem cellAt_of_spotAt? (h : m.spotAt? p = some s) : m.cellAt p = .ok (m.content s) := by
  obtain ⟨r, k⟩ := s
  obtain ⟨i, hr, hk⟩ := spotAt?_eq_some h
  have hget : Frame.get (m.row r) i = .ok (m.content ⟨r, k⟩) := by
    rw [Frame.get, hk]
    rfl
  match p, hr with
  | .global i, hr | .constant i, hr => cases hr; exact hget
  | .local i, hr | .temp i, hr =>
    obtain ⟨n, hn, hr⟩ := Option.map_eq_some_iff.mp hr
    obtain ⟨rest, hn⟩ := List.head?_eq_some_iff.mp hn
    cases hr
    simp only [cellAt, hn, innermost]
    exact hget

theorem spotAt?_of_cellAt {o : Option Cell} (h : m.cellAt p = .ok o) : ∃ s, m.spotAt? p = some s := by
  have hget : ∀ {f : Frame} {i : Int}, f.get i = .ok o → ∃ k, rowIndex? f.size i = some k := by
    intro f i hf
    rw [Frame.get] at hf
    split at hf
    · next k hk => exact ⟨k, hk⟩
    · cases hf
  match p, h with
  | .global i, h | .constant i, h =>
    obtain ⟨k, hk⟩ := hget h
    exact ⟨⟨_, k⟩, by simp only [spotAt?, rowOf?, Option.bind_some, row, hk]; rfl⟩
  | .local i, h =>
    rcases hl : m.locals with _ | ⟨n, rest⟩
    · simp only [cellAt, hl, innermost] at h; cases h
    · simp only [cellAt, hl, innermost] at h
      obtain ⟨k, hk⟩ := hget h
      exact ⟨⟨.frame n, k⟩, by simp [spotAt?, rowOf?, hl, row, hk]⟩
  | .temp i, h =>
    rcases ht : m.temps with _ | ⟨n, rest⟩
    · simp only [cellAt, ht, innermost] at h; cases h
    · simp only [cellAt, ht, innermost] at h
      obtain ⟨k, hk⟩ := hget h
      exact ⟨⟨.frame n, k⟩, by simp [spotAt?, rowOf?, ht, row, hk]⟩

theorem cellOf_spot (hm : m.Standard) (h : m.spot? a = some s) (h0 : 1000 ≤ a) (h1 : a < 38000)
    (offset : Int) : m.cellOf a offset = .ok (m.content s) := by
  have hin : ¬ (a < m.globalBounds.at_ 0 || a ≥ m.constantBounds.stop) = true := by
    simp [hm.globalBounds, hm.constantBounds, Bounds.stop, Bounds.at_, bounds]
    omega
  rw [spot?] at h
  split at h
  · next p hp =>
    rw [cellOf, if_neg hin, hp]
    simp only [Except.bind, cellAt_of_spotAt? h]
  · cases h

/-- A plain address is no pointer. -/
theorem value_address (m : Machine) (ha : a.natAbs < 10 ^ 10) (i : Int) :
    m.value (.text (toString a)) i = valueOf (.text (toString a)) i (m.cellOf (a + i) i) := by
  have hint := Value.toInt_text_toString (Number.short_of_natAbs_lt ha)
  have hcell : m.cell (.text (toString a)) i = m.cellOf (a + i) i := by
    rw [cell, show pointerLimit = 899 + 1 from rfl, follow]
    simp only [pointer?, pointerText?_toString, direct, hint]
  rw [value, hcell]

theorem value_eq_ok (ha : a.natAbs < 10 ^ 10) (h : m.value (.text (toString a)) i = .ok v) :
    ∃ c, (m.placeOf (a + i)).bind m.cellAt = .ok (some c) ∧ c.read = .ok v := by
  rw [value_address m ha] at h
  rcases hc : m.cellOf (a + i) i with e | c
  · rw [hc] at h; cases h
  rw [hc] at h
  cases c with
  | none => cases h
  | some c =>
    refine ⟨c, ?_, h⟩
    rw [cellOf] at hc
    split at hc
    · cases hc
    · split at hc
      · next hp => rw [hp, ← hc]
      · cases hc

/-- An address that can be read leads to a cell. -/
theorem spot?_of_value (ha : a.natAbs < 10 ^ 10) (h : m.value (.text (toString a)) i = .ok v) :
    ∃ s, m.spot? (a + i) = some s := by
  obtain ⟨c, hc, -⟩ := value_eq_ok ha h
  rcases hp : m.placeOf (a + i) with e | p
  · rw [hp] at hc; cases hc
  · rw [hp] at hc
    rw [spot?, hp]
    exact spotAt?_of_cellAt hc

/-- A plain address is read at the spot that it leads to, the offset added. -/
theorem value_spot (hm : m.Standard) (h : m.spot? (a + i) = some s) (ha : a.natAbs < 10 ^ 10)
    (h0 : 1000 ≤ a + i) (h1 : a + i < 38000) :
    m.value (.text (toString a)) i = match m.content s with
      | some c => c.read
      | none => .error (.unassigned (toString a ++ offsetText i)) := by
  rw [value_address m ha, cellOf_spot hm h h0 h1]
  cases m.content s with
  | some c => rfl
  | none => rfl

/-- What a machine reads depends on nothing but the cells of addresses. -/
theorem value_congr (h : ∀ a i, m'.cellOf a i = m.cellOf a i) (v : Value) (i : Int) :
    m'.value v i = m.value v i := by
  have hdirect : ∀ v i, m'.direct v i = m.direct v i := by
    intro v i
    simp only [direct, h]
  have hfollow : ∀ n v i, m'.follow n v i = m.follow n v i := by
    intro n
    induction n with
    | zero => exact fun _ _ => rfl
    | succ n ih => intro v i; simp only [follow, hdirect, ih]
  simp only [value, cell, hfollow]

/-! ### Storing -/

theorem putAt_of_spotAt? (h : m.spotAt? p = some s) : m.putAt c p = (m.write s c, none) := by
  obtain ⟨r, k⟩ := s
  obtain ⟨i, hr, hk⟩ := spotAt?_eq_some h
  match p, hr with
  | .global i, hr =>
    cases hr
    have hk : rowIndex? m.globals.size i = some k := hk
    simp only [putAt, hk, write]
  | .constant i, hr =>
    cases hr
    have hk : rowIndex? m.constants.size i = some k := hk
    simp only [putAt, hk, write]
  | .local i, hr | .temp i, hr =>
    obtain ⟨n, hn, hr⟩ := Option.map_eq_some_iff.mp hr
    obtain ⟨rest, hn⟩ := List.head?_eq_some_iff.mp hn
    cases hr
    have hk : rowIndex? (m.frame n).size i = some k := hk
    simp only [putAt, hn, putIn, hk, write]

theorem storeAt_spot (hm : m.Standard) (h : m.spot? a = some s) (h0 : 1000 ≤ a) (h1 : a < 31000)
    (v : Value) (offset : Int) :
    m.storeAt v a offset = (m.write s ⟨v, .of (m.storeType a)⟩, .ok none) := by
  have hin : ¬ (a < m.globalBounds.at_ 0 || a ≥ m.tempBounds.stop) = true := by
    simp [hm.globalBounds, hm.tempBounds, Bounds.stop, Bounds.at_, bounds]
    omega
  rw [spot?] at h
  split at h
  · next p hp =>
    rw [storeAt, if_neg hin, hp]
    simp only [putAt_of_spotAt? h]
  · cases h

theorem target_address (ha : a.natAbs < 10 ^ 10) (i : Int) :
    m.target pointerLimit (.text (toString a)) i = .ok (a, i, false) := by
  rw [show pointerLimit = 899 + 1 from rfl, target]
  simp only [pointer?, pointerText?_toString,
    Value.toInt_text_toString (Number.short_of_natAbs_lt ha)]
  rfl

/-- A value is stored at the spot that a plain address leads to, the offset added. -/
theorem store_spot (hm : m.Standard) (h : m.spot? (a + i) = some s) (ha : a.natAbs < 10 ^ 10)
    (h0 : 1000 ≤ a + i) (h1 : a + i < 31000) (v : Value) :
    m.store v (.text (toString a)) i
      = (m.write s ⟨v, .of (m.storeType (a + i))⟩, .ok none) := by
  rw [store, target_address ha]
  simp only [storeAt_spot hm h h0 h1]
  rfl

theorem putAt_eq_none (h : m.putAt c p = (m', none)) :
    ∃ s, m.spotAt? p = some s ∧ m' = m.write s c := by
  rcases hs : m.spotAt? p with _ | s
  · -- Without a cell for the place, storing fails.
    exfalso
    match p with
    | .global i =>
      have hk : rowIndex? m.globals.size i = none := Option.map_eq_none_iff.mp hs
      simp [putAt, hk] at h
    | .constant i =>
      have hk : rowIndex? m.constants.size i = none := Option.map_eq_none_iff.mp hs
      simp [putAt, hk] at h
    | .local i =>
      rcases hl : m.locals with _ | ⟨n, rest⟩
      · simp [putAt, hl, putIn] at h
      · have hk : rowIndex? (m.frame n).size i = none := by
          simpa [spotAt?, rowOf?, hl, row] using hs
        simp [putAt, hl, putIn, hk] at h
    | .temp i =>
      rcases ht : m.temps with _ | ⟨n, rest⟩
      · simp [putAt, ht, putIn] at h
      · have hk : rowIndex? (m.frame n).size i = none := by
          simpa [spotAt?, rowOf?, ht, row] using hs
        simp [putAt, ht, putIn, hk] at h
  · rw [putAt_of_spotAt? hs] at h
    cases h
    exact ⟨s, rfl, rfl⟩

/-- Storing at an address fills its cell, or is refused. -/
theorem storeAt_eq_ok {r : Option MachineFault} (hm : m.Standard) (h : m.storeAt v a i = (m', .ok r)) :
    (m' = m ∧ ¬ (1000 ≤ a ∧ a < 31000)) ∨ ∃ s, 1000 ≤ a ∧ a < 31000 ∧ m.spot? a = some s ∧
      m' = m.write s ⟨v, .of (m.storeType a)⟩ := by
  rw [storeAt] at h
  simp only [hm.globalBounds, hm.tempBounds, Bounds.stop, Bounds.at_, bounds,
    List.getD_cons_zero, List.getD_cons_succ, Bool.or_eq_true, decide_eq_true_eq] at h
  split at h
  · exact .inl ⟨(congrArg Prod.fst h).symm, by omega⟩
  · split at h
    · cases h
    · next place hplace =>
      split at h
      · next m₁ hput =>
        cases h
        obtain ⟨s, hs, rfl⟩ := putAt_eq_none hput
        exact .inr ⟨s, by omega, by omega, by rw [spot?, hplace]; exact hs, rfl⟩
      · cases h

theorem storeAt_of_store {operand : Value} {r : Option MachineFault} {j : Int} {b : Bool}
    (ht : m.target pointerLimit operand i = .ok (a, j, b)) (h : m.store v operand i = (m', .ok r)) :
    ∃ r', m.storeAt v (a + j) j = (m', .ok r') := by
  rw [store, ht] at h
  dsimp only at h
  split at h
  · next m₁ refusal hs =>
    cases h
    exact ⟨refusal, hs⟩
  · exact ⟨r, h⟩

/-- Storing through an operand that is no pointer fills the cell of its address, or
is refused. -/
theorem store_eq_ok {operand : String} {r : Option MachineFault} (hm : m.Standard)
    (hp : pointerText? operand = none) (h : m.store v (.text operand) i = (m', .ok r)) :
    ∃ a, (Value.text operand).toInt = .ok a ∧
      ((m' = m ∧ ¬ (1000 ≤ a + i ∧ a + i < 31000)) ∨
        ∃ s, m.spot? (a + i) = some s ∧ m' = m.write s ⟨v, .of (m.storeType (a + i))⟩) := by
  have htarget : m.target pointerLimit (.text operand) i
      = (Value.text operand).toInt.map fun a => (a, i, false) := by
    rw [show pointerLimit = 899 + 1 from rfl, target]
    simp only [pointer?, hp]
    cases (Value.text operand).toInt <;> rfl
  rcases ha : (Value.text operand).toInt with e | a
  · rw [store, htarget, ha] at h; cases h
  rw [ha] at htarget
  obtain ⟨r', hat⟩ := storeAt_of_store htarget h
  obtain hrefused | ⟨s, -, -, hs⟩ := storeAt_eq_ok hm hat
  · exact ⟨a, rfl, .inl hrefused⟩
  · exact ⟨a, rfl, .inr ⟨s, hs⟩⟩

/-! ### Cells after storing -/

theorem index_lt_of_spot? (h : m.spot? a = some s) : s.index < (m.row s.row).size := by
  rw [spot?] at h
  split at h
  · obtain ⟨i, -, hk⟩ := spotAt?_eq_some h
    exact lt_of_rowIndex? hk
  · cases h

theorem row_write (m : Machine) (s : Spot) (c : Cell) (r : Row) :
    (m.write s c).row r
      = if r = s.row then (m.row r).setIfInBounds s.index (some c) else m.row r := by
  obtain ⟨r', k⟩ := s
  cases r' with
  | globals | constants => cases r <;> simp [write, row, frame]
  | frame n =>
    cases r with
    | globals | constants => simp [write, row]
    | frame n' =>
      simp only [write, row, frame, Array.getElem?_modify, Row.frame.injEq]
      by_cases h : n = n'
      · subst h
        cases m.frames[n]? with
        | none => simp
        | some f => simp
      · simp [h, Ne.symm h]

@[simp] theorem size_row_write (m : Machine) (s : Spot) (c : Cell) (r : Row) :
    ((m.write s c).row r).size = (m.row r).size := by
  rw [row_write]
  split <;> simp

theorem content_write (h : s.index < (m.row s.row).size) (c : Cell) (s' : Spot) :
    (m.write s c).content s' = if s' = s then some c else m.content s' := by
  obtain ⟨r, k⟩ := s
  obtain ⟨r', k'⟩ := s'
  simp only [content, row_write, Spot.mk.injEq]
  by_cases hr : r' = r
  · subst hr
    by_cases hk : k' = k
    · subst hk
      simp [h]
    · simp [hk, Array.getElem?_setIfInBounds_ne (Ne.symm hk)]
  · simp [hr]

theorem write_eq (m : Machine) (s : Spot) (c : Cell) : m.write s c = { m with
    globals := (m.write s c).globals, frames := (m.write s c).frames,
    constants := (m.write s c).constants } := by
  rw [write]
  split <;> rfl

@[simp] theorem spot?_write (m : Machine) (s : Spot) (c : Cell) (a : Int) :
    (m.write s c).spot? a = m.spot? a := by
  have hplace : (m.write s c).placeOf a = m.placeOf a := by rw [write_eq]; rfl
  have hrow : ∀ p, (m.write s c).rowOf? p = m.rowOf? p := by
    intro p
    rw [write_eq]
    cases p <;> rfl
  have hspot : ∀ p, (m.write s c).spotAt? p = m.spotAt? p := by
    intro p
    simp only [spotAt?, hrow, size_row_write]
  simp only [spot?, hplace, hspot]

/-! ### The rows of the segments -/

theorem placeOf_global (hm : m.Standard) (h : a < 9000) : m.placeOf a = .ok (.global (a - 1000)) := by
  simp [placeOf, hm.globalBounds, Bounds.stop, Bounds.at_, bounds, h]

theorem placeOf_local (hm : m.Standard) (h0 : 9000 ≤ a) (h1 : a < 20000) :
    m.placeOf a = (frameIndex m.locals m.localOffsets local.bounds a).map .local := by
  simp [placeOf, hm.globalBounds, hm.localBounds, Bounds.stop, Bounds.at_, bounds, h1,
    Int.not_lt.mpr h0]

theorem placeOf_temp (hm : m.Standard) (h0 : 20000 ≤ a) (h1 : a < 31000) :
    m.placeOf a = (frameIndex m.temps m.tempOffsets temp.bounds a).map .temp := by
  have h2 : ¬ a < 9000 := by omega
  simp [placeOf, hm.globalBounds, hm.localBounds, hm.tempBounds, Bounds.stop, Bounds.at_,
    bounds, h1, h2, Int.not_lt.mpr h0]

theorem placeOf_constant (hm : m.Standard) (h : 31000 ≤ a) :
    m.placeOf a = .ok (.constant (a - 31000)) := by
  have h2 : ¬ a < 9000 := by omega
  have h3 : ¬ a < 20000 := by omega
  simp [placeOf, hm.globalBounds, hm.localBounds, hm.tempBounds, hm.constantBounds, Bounds.stop,
    Bounds.at_, bounds, h2, h3, Int.not_lt.mpr h]

/-- Which row an address leads to depends on its segment only. -/
theorem row_of_spot? (hm : m.Standard) (h : m.spot? a = some s) :
    (a < 9000 ∧ s.row = .globals) ∨
    (9000 ≤ a ∧ a < 20000 ∧ ∃ n, m.locals.head? = some n ∧ s.row = .frame n) ∨
    (20000 ≤ a ∧ a < 31000 ∧ ∃ n, m.temps.head? = some n ∧ s.row = .frame n) ∨
    (31000 ≤ a ∧ s.row = .constants) := by
  rw [spot?] at h
  split at h
  case h_2 => cases h
  next p hp =>
  obtain ⟨i, hr, -⟩ := spotAt?_eq_some h
  by_cases h1 : a < 9000
  · rw [placeOf_global hm h1] at hp
    cases hp
    exact .inl ⟨h1, (congrArg Prod.fst (Option.some.inj hr)).symm⟩
  by_cases h2 : a < 20000
  · rw [placeOf_local hm (by omega) h2] at hp
    rcases hf : frameIndex m.locals m.localOffsets local.bounds a with e | j
    · rw [hf] at hp; cases hp
    rw [hf] at hp
    cases hp
    obtain ⟨n, hn, hr⟩ := Option.map_eq_some_iff.mp hr
    exact .inr (.inl ⟨by omega, h2, n, hn, (congrArg Prod.fst hr).symm⟩)
  by_cases h3 : a < 31000
  · rw [placeOf_temp hm (by omega) h3] at hp
    rcases hf : frameIndex m.temps m.tempOffsets temp.bounds a with e | j
    · rw [hf] at hp; cases hp
    rw [hf] at hp
    cases hp
    obtain ⟨n, hn, hr⟩ := Option.map_eq_some_iff.mp hr
    exact .inr (.inr (.inl ⟨by omega, h3, n, hn, (congrArg Prod.fst hr).symm⟩))
  · rw [placeOf_constant hm (by omega)] at hp
    cases hp
    exact .inr (.inr (.inr ⟨by omega, (congrArg Prod.fst (Option.some.inj hr)).symm⟩))

end Machine

/-! ### Compact frames -/

/-- In a segment, an address is looked up by the offset of its type. -/
theorem localIndex_of_mem (s : Segment) (t : Scalar) (os : List Int) (h0 : s.start t ≤ a)
    (h1 : a < s.stop t) : localIndex a s.bounds os = match os[t.index]? with
      | some o => .ok (a - s.start t + o)
      | none => .error .badIndex := by
  -- The bounds up to that of the type are passed, and the next one is not.
  have hbelow : s.bounds.dropLast.takeWhile (fun b => decide (b ≤ a))
      = s.bounds.take (t.index + 1) := by
    cases s <;> cases t <;>
      simp only [start, stop, bounds, Scalar.index, List.getD_cons_zero,
        List.getD_cons_succ] at h0 h1 <;>
      simp only [bounds, Scalar.index, List.dropLast, List.take, List.takeWhile_cons,
        List.takeWhile_nil] <;>
      grind
  have hlength : (s.bounds.take (t.index + 1)).length - 1 = t.index := by
    cases s <;> cases t <;> rfl
  have hlast : (s.bounds.take (t.index + 1)).getLast? = some (s.start t) := by
    cases s <;> cases t <;> rfl
  cases hos : os[t.index]? <;> simp only [localIndex, hbelow, hlast, hlength, hos]

namespace Counts

/-- The cells of the types that come before a type. -/
def before (k : Counts) : Scalar → Int
  | .int => 0
  | .float => k.int
  | .char => k.int + k.float
  | .bool => k.int + k.float + k.char

/-- All cells. -/
def total (k : Counts) : Int := k.int + k.float + k.char + k.bool

/-- The cells of the whole temporary segment. -/
def wholeTemps : Counts := { int := 4000, float := 4000, char := 1500, bool := 1500 }

theorem offsetsOf_toList (k : Counts) (t : Scalar) :
    (Machine.offsetsOf k.toList)[t.index]? = some (k.before t) := by
  cases t <;> simp [Machine.offsetsOf, toList, Scalar.index, before]

variable {k : Counts}

theorem before_add_get_le (h : ∀ t, 0 ≤ k.get t) (t : Scalar) : k.before t + k.get t ≤ k.total := by
  have hi := h .int
  have hf := h .float
  have hc := h .char
  have hb := h .bool
  cases t <;> simp only [before, get, total] at * <;> omega

theorem before_nonneg (h : ∀ t, 0 ≤ k.get t) (t : Scalar) : 0 ≤ k.before t := by
  have hi := h .int
  have hf := h .float
  have hc := h .char
  cases t <;> simp only [before, get] at * <;> omega

/-- Cells of different types or different numbers are at different places. -/
theorem before_add_inj (h : ∀ t, 0 ≤ k.get t) {t' : Scalar} {i' : Int} (h0 : 0 ≤ i)
    (h1 : i < k.get t) (h0' : 0 ≤ i') (h1' : i' < k.get t') (he : k.before t + i = k.before t' + i')
    : t = t' ∧ i = i' := by
  have hi := h .int
  have hf := h .float
  have hc := h .char
  have hb := h .bool
  cases t <;> cases t' <;> simp only [before, get] at hi hf hc hb h1 h1' he <;>
    first
    | exact ⟨rfl, by omega⟩
    | exact absurd he (by omega)

end Counts

namespace Machine

variable {m : Machine} {n : Nat} {k : Counts}

/-- The innermost frame of temporary cells is number `n` and has `k` cells. -/
structure TempFrame (m : Machine) (n : Nat) (k : Counts) : Prop where
  top : m.temps.head? = some n
  apart : m.locals.head? ≠ some n
  nonneg : ∀ t, 0 ≤ k.get t
  fits : ∀ t, k.get t ≤ Counts.wholeTemps.get t
  size : ((m.frame n).size : Int) = k.total
  /-- The main program has the whole segment, and a call what its function needs. -/
  offsets : if m.temps.length = 1 then k = .wholeTemps
    else m.tempOffsets.head? = some (offsetsOf k.toList)

/-- The variables have no cell in a frame of temporary cells. -/
theorem TempFrame.row_ne (h : m.TempFrame n k) (hm : m.Standard) {s : Spot}
    (hs : m.spot? a = some s) (ha : a < 20000) : s.row ≠ .frame n := by
  rcases row_of_spot? hm hs with ⟨-, hr⟩ | ⟨-, -, n', hn, hr⟩ | ⟨h', -⟩ | ⟨h', -⟩
  · rw [hr]; exact Row.noConfusion
  · rw [hr]
    intro he
    cases he
    exact h.apart hn
  · omega
  · omega

/-- The cell of a temporary value in a compact frame. -/
def tempSpot (n : Nat) (k : Counts) (t : Scalar) (i : Int) : Spot :=
  ⟨.frame n, (k.before t + i).toNat⟩

/-- The addresses of temporary cells. -/
theorem tempAddress_bounds (h0 : 0 ≤ i) (h1 : i < Counts.wholeTemps.get t) :
    20000 ≤ temp.start t + i ∧ temp.start t + i < 31000 ∧
      temp.start t + i < temp.stop t := by
  cases t <;> simp [start, stop, bounds, Scalar.index, Counts.get,
    Counts.wholeTemps] at * <;> omega

section

variable (h : m.TempFrame n k) (hm : m.Standard) (t : Scalar)
include h hm

/-- Where the addresses of temporary cells of a type lead to, be it among the cells of other
types. -/
theorem TempFrame.placeOf (h0 : 0 ≤ i) (h1 : i < Counts.wholeTemps.get t) :
    m.placeOf (temp.start t + i) = .ok (.temp (k.before t + i)) := by
  obtain ⟨hlow, hhigh, hstop⟩ := tempAddress_bounds h0 h1
  have hindex : frameIndex m.temps m.tempOffsets temp.bounds (temp.start t + i)
      = .ok (k.before t + i) := by
    have ho := h.offsets
    unfold frameIndex
    split at ho
    · next hl =>
      rw [if_pos (by simpa using hl), ho]
      cases t <;> simp [start, bounds, Scalar.index, Bounds.at_, Counts.before,
        Counts.wholeTemps] <;> omega
    · next hl =>
      obtain ⟨rest, hos⟩ := List.head?_eq_some_iff.mp ho
      rw [if_neg (by simpa using hl), hos]
      simp only [localIndex_of_mem .temp t _ (by omega) hstop, Counts.offsetsOf_toList]
      congr 1
      omega
  rw [placeOf_temp hm hlow hhigh, hindex]
  rfl

theorem TempFrame.spot?_of_lt (h0 : 0 ≤ i) (h1 : i < Counts.wholeTemps.get t)
    (h2 : k.before t + i < k.total) :
    m.spot? (temp.start t + i) = some (tempSpot n k t i) := by
  have hb := Counts.before_nonneg h.nonneg t
  rw [Machine.spot?, h.placeOf hm t h0 h1]
  simp only [spotAt?, rowOf?, h.top, Option.map_some, Option.bind_some, row]
  rw [rowIndex?_of_lt (by omega) (by rw [h.size]; omega)]
  rfl

/-- Behind its last cell nothing is stored in a frame. -/
theorem TempFrame.store_of_le (ha : a.natAbs < 10 ^ 10) (h0 : temp.start t ≤ a + i)
    (h1 : a + i < temp.start t + Counts.wholeTemps.get t)
    (h2 : k.total ≤ k.before t + (a + i - temp.start t)) (v : Value) :
    m.store v (.text (toString a)) i = (m, .error .badStore) := by
  have hplace := h.placeOf hm t (i := a + i - temp.start t) (by omega) (by omega)
  have hin := tempAddress_bounds (t := t) (i := a + i - temp.start t) (by omega) (by omega)
  rw [show temp.start t + (a + i - temp.start t) = a + i by omega] at hplace hin
  have hindex : rowIndex? (m.frame n).size (k.before t + (a + i - temp.start t)) = none := by
    have hb := Counts.before_nonneg h.nonneg t
    have hsize := h.size
    have hnonneg : ¬ k.before t + (a + i - temp.start t) < 0 := by omega
    rw [rowIndex?, if_neg hnonneg]
    exact if_neg (by simp; omega)
  obtain ⟨rest, htop⟩ := List.head?_eq_some_iff.mp h.top
  have hput : ∀ c, m.putAt c (.temp (k.before t + (a + i - temp.start t)))
      = (m, some .badStore) := by
    intro c
    simp only [putAt, htop, putIn, hindex]
  have hrange : ¬ (a + i < m.globalBounds.at_ 0 || a + i ≥ m.tempBounds.stop) = true := by
    simp [hm.globalBounds, hm.tempBounds, Bounds.stop, Bounds.at_, bounds]
    omega
  rw [store, target_address ha]
  simp only [storeAt, if_neg hrange, hplace, hput]

/-- Where the temporary cells of a type are. -/
theorem TempFrame.spot? (h0 : 0 ≤ i) (h1 : i < k.get t) :
    m.spot? (temp.start t + i) = some (tempSpot n k t i) := by
  have hle := Counts.before_add_get_le h.nonneg t
  exact h.spot?_of_lt hm t h0 (Int.lt_of_lt_of_le h1 (h.fits t)) (by omega)

end

end Machine

end QuadLang
