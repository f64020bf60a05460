/-
Compact frames are faithful.

A call has a frame with just the cells that its function needs, where the main program has whole
segments.  The addresses are the same, so the two have to give back the same values:

* `Counts.bijOn_localIndex` — the addresses given out for counts of cells fill a compact frame, each
  a place of its own;
* `Machine.Houses` — addresses lead to cells of their own;
* `Machine.Alike` — two machines hold the same under the same addresses; storing the same values in
  both keeps that (`Alike.store`, `Alike.storeAll`);
* `Machine.compact_faithful` — a call and the main program hold the same after the same stores.
-/
import QuadLang.Proofs.Calls

namespace QuadLang

open Segment

variable {s : Segment} {t : Scalar} {a i : Int} {v : Value}

namespace Counts

variable {k : Counts}

/-- The ranges of a segment have so many cells. -/
def Fits (k : Counts) (s : Segment) : Prop := ∀ t, 0 ≤ k.get t ∧ k.get t ≤ s.stop t - s.start t

/-- The addresses of a segment that are given out for counts of cells. -/
def addresses (k : Counts) (s : Segment) : Set Int :=
  {a | ∃ t i, 0 ≤ i ∧ i < k.get t ∧ a = s.start t + i}

theorem cellCount_toList (k : Counts) : Machine.cellCount k.toList = k.total := by
  simp only [Machine.cellCount, toList, total, List.foldr]
  omega

theorem localIndex_address (hk : k.Fits s) (h0 : 0 ≤ i) (h1 : i < k.get t) :
    localIndex (s.start t + i) s.bounds (Machine.offsetsOf k.toList) = .ok (k.before t + i) := by
  have hfits := (hk t).2
  rw [localIndex_of_mem s t _ (by omega) (by omega), offsetsOf_toList]
  simp only [Except.ok.injEq]
  omega

/-- Every place of a compact frame is that of a cell of some type. -/
theorem exists_before_add (h0 : 0 ≤ i) (h1 : i < k.total) :
    ∃ t j, 0 ≤ j ∧ j < k.get t ∧ k.before t + j = i := by
  simp only [total] at h1
  by_cases hi : i < k.int
  · exact ⟨.int, i, h0, hi, by simp [before]⟩
  by_cases hf : i < k.int + k.float
  · exact ⟨.float, i - k.int, by omega, by simp only [get]; omega, by simp [before]⟩
  by_cases hc : i < k.int + k.float + k.char
  · exact ⟨.char, i - (k.int + k.float), by omega, by simp only [get]; omega, by simp [before]⟩
  · exact ⟨.bool, i - (k.int + k.float + k.char), by omega, by simp only [get]; omega,
      by simp [before]⟩

theorem bijOn_localIndex (hk : k.Fits s) :
    Set.BijOn (fun a => localIndex a s.bounds (Machine.offsetsOf k.toList)) (k.addresses s)
      (Set.image Except.ok (Set.Ico 0 k.total)) := by
  have hnonneg : ∀ t, 0 ≤ k.get t := fun t => (hk t).1
  refine ⟨?_, ?_, ?_⟩
  · rintro _ ⟨t, i, h0, h1, rfl⟩
    have hle := before_add_get_le hnonneg t
    have hb := before_nonneg hnonneg t
    exact ⟨k.before t + i, ⟨by omega, by omega⟩, (localIndex_address hk h0 h1).symm⟩
  · rintro _ ⟨t, i, h0, h1, rfl⟩ _ ⟨t', i', h0', h1', rfl⟩ heq
    simp only [localIndex_address hk h0 h1, localIndex_address hk h0' h1', Except.ok.injEq] at heq
    obtain ⟨rfl, rfl⟩ := before_add_inj hnonneg h0 h1 h0' h1' heq
    rfl
  · rintro _ ⟨i, ⟨h0, h1⟩, rfl⟩
    obtain ⟨t, j, hj0, hj1, rfl⟩ := exists_before_add h0 h1
    exact ⟨s.start t + j, ⟨t, j, hj0, hj1, rfl⟩, localIndex_address hk hj0 hj1⟩

/-- Addresses that are given out are addresses of the segment. -/
theorem bounds_of_mem_addresses (hk : k.Fits s) (ha : a ∈ k.addresses s) :
    s.start .int ≤ a ∧ a < s.stop .bool := by
  obtain ⟨t, i, h0, h1, rfl⟩ := ha
  have hfits := (hk t).2
  cases s <;> cases t <;> simp [start, stop, bounds, Scalar.index] at * <;> omega

end Counts

namespace Machine

variable {m m' m₀ m₁ : Machine} {n : Nat} {A : Set Int} {k k' : Counts}

/-! ### Machines that hold the same -/

/-- The addresses are those of variables and temporary values, and lead to cells of their own. -/
structure Houses (m : Machine) (A : Set Int) : Prop where
  standard : m.Standard
  stored : ∀ a ∈ A, 1000 ≤ a ∧ a < 31000
  spot : ∀ a ∈ A, ∃ s, m.spot? a = some s
  apart : Set.InjOn m.spot? A

/-- What an address holds. -/
def held (m : Machine) (a : Int) : Option Cell := (m.spot? a).bind m.content

structure Alike (A : Set Int) (m m' : Machine) : Prop where
  left : m.Houses A
  right : m'.Houses A
  held : ∀ a ∈ A, m.held a = m'.held a

/-- Storing gives the address its value, and takes none from the others. -/
theorem Houses.store (h : m.Houses A) (ha : a ∈ A) (v : Value) :
    ∃ m', m.store v (.text (toString a)) 0 = (m', .ok none) ∧ m'.Houses A ∧
      ∀ b ∈ A, m'.held b = if b = a then some ⟨v, .of (m.storeType a)⟩ else m.held b := by
  obtain ⟨h0, h1⟩ := h.stored a ha
  obtain ⟨s, hs⟩ := h.spot a ha
  refine ⟨m.write s ⟨v, .of (m.storeType a)⟩, ?_, ⟨?_, h.stored, ?_, ?_⟩, fun b hb => ?_⟩
  · simpa using store_spot (i := 0) h.standard (by simpa using hs) (by omega) (by omega) (by omega) v
  · rw [write_eq]
    exact ⟨h.standard.globalBounds, h.standard.localBounds, h.standard.tempBounds,
      h.standard.constantBounds⟩
  · simpa using h.spot
  · intro b hb b' hb' heq
    exact h.apart hb hb' (by simpa using heq)
  · obtain ⟨s', hs'⟩ := h.spot b hb
    simp only [Machine.held, spot?_write, hs', Option.bind_some, content_write (index_lt_of_spot? hs)]
    by_cases hba : b = a
    · subst hba
      rw [hs] at hs'
      simp [Option.some.inj hs']
    · rw [if_neg hba, if_neg fun he => hba (h.apart hb ha (by rw [hs, hs', he]))]

/-- Storing the same in both keeps them alike. -/
theorem Alike.store (h : Alike A m m') (ha : a ∈ A) (v : Value) :
    ∃ n n', m.store v (.text (toString a)) 0 = (n, .ok none) ∧
      m'.store v (.text (toString a)) 0 = (n', .ok none) ∧ Alike A n n' := by
  obtain ⟨n, hn, hhouses, hheld⟩ := h.left.store ha v
  obtain ⟨n', hn', hhouses', hheld'⟩ := h.right.store ha v
  have htype : m.storeType a = m'.storeType a := by
    simp only [storeType, h.left.standard.globalBounds, h.left.standard.localBounds,
      h.left.standard.tempBounds, h.right.standard.globalBounds, h.right.standard.localBounds,
      h.right.standard.tempBounds]
  refine ⟨n, n', hn, hn', hhouses, hhouses', fun b hb => ?_⟩
  rw [hheld b hb, hheld' b hb, htype, h.held b hb]

/-- Values are stored under addresses, one after the other. -/
inductive Stores : Machine → List (Int × Value) → Machine → Prop
  | nil (m : Machine) : Stores m [] m
  | cons {m n m' : Machine} {w : Int × Value} {ws : List (Int × Value)}
      (h : m.store w.2 (.text (toString w.1)) 0 = (n, .ok none)) (hs : Stores n ws m') :
      Stores m (w :: ws) m'

theorem Alike.storeAll {ws : List (Int × Value)} (h : Alike A m m') (hws : ∀ w ∈ ws, w.1 ∈ A) :
    ∃ n n', Stores m ws n ∧ Stores m' ws n' ∧ Alike A n n' := by
  induction ws generalizing m m' with
  | nil => exact ⟨m, m', .nil m, .nil m', h⟩
  | cons w ws ih =>
    obtain ⟨n, n', hn, hn', hnext⟩ := h.store (hws w (by simp)) w.2
    obtain ⟨q, q', hq, hq', halike⟩ := ih hnext fun w hw => hws w (by simp [hw])
    exact ⟨q, q', .cons hn hq, .cons hn' hq', halike⟩

/-- Machines that hold the same give back the same. -/
theorem Alike.value (h : Alike A m m') (ha : a ∈ A) :
    m.value (.text (toString a)) 0 = m'.value (.text (toString a)) 0 := by
  obtain ⟨h0, h1⟩ := h.left.stored a ha
  obtain ⟨s, hs⟩ := h.left.spot a ha
  obtain ⟨s', hs'⟩ := h.right.spot a ha
  have heq := h.held a ha
  simp only [Machine.held, hs, hs', Option.bind_some] at heq
  rw [value_spot h.left.standard (by simpa using hs) (by omega) (by omega) (by omega),
    value_spot h.right.standard (by simpa using hs') (by omega) (by omega) (by omega), heq]

/-! ### Frames -/

/-- The frames and offsets of a segment, the innermost first. -/
def framesOf (m : Machine) : Segment → List Nat × List (List Int)
  | .local => (m.locals, m.localOffsets)
  | _ => (m.temps, m.tempOffsets)

/-- An address leads to the place in the innermost frame that is looked up for it. -/
theorem spot?_of_frameIndex (hm : m.Standard) (hs : s = .local ∨ s = .temp) (h0 : s.start .int ≤ a)
    (h1 : a < s.stop .bool) (hn : (m.framesOf s).1.head? = some n)
    (hi : frameIndex (m.framesOf s).1 (m.framesOf s).2 s.bounds a = .ok i) (hi0 : 0 ≤ i)
    (hi1 : i < (m.frame n).size) : m.spot? a = some ⟨.frame n, i.toNat⟩ := by
  rcases hs with rfl | rfl
  · rw [spot?, placeOf_local hm h0 h1, show frameIndex m.locals m.localOffsets _ a = _ from hi]
    simp only [Except.map, spotAt?, rowOf?, show m.locals.head? = some n from hn, Option.map_some,
      Option.bind_some, row, rowIndex?_of_lt hi0 hi1]
  · rw [spot?, placeOf_temp hm h0 h1, show frameIndex m.temps m.tempOffsets _ a = _ from hi]
    simp only [Except.map, spotAt?, rowOf?, show m.temps.head? = some n from hn, Option.map_some,
      Option.bind_some, row, rowIndex?_of_lt hi0 hi1]

/-- The addresses lead to empty cells of their own. -/
structure Opened (m : Machine) (A : Set Int) : Prop extends m.Houses A where
  empty : ∀ a ∈ A, m.held a = none

/-- The addresses of a segment lead to empty cells of the innermost frame, by the places `index`. -/
structure InFrame (m : Machine) (s : Segment) (n : Nat) (index : Int → Int) (A : Set Int) : Prop where
  segment : s = .local ∨ s = .temp
  bounds : ∀ a ∈ A, s.start .int ≤ a ∧ a < s.stop .bool
  top : (m.framesOf s).1.head? = some n
  frame : ∃ size, m.frame n = .empty size ∧ ∀ a ∈ A, 0 ≤ index a ∧ index a < size
  looked : ∀ a ∈ A, frameIndex (m.framesOf s).1 (m.framesOf s).2 s.bounds a = .ok (index a)
  inj : Set.InjOn index A

theorem InFrame.spot? {index : Int → Int} (h : m.InFrame s n index A) (hm : m.Standard) (ha : a ∈ A) :
    m.spot? a = some ⟨.frame n, (index a).toNat⟩ ∧ 0 ≤ index a ∧ m.held a = none := by
  obtain ⟨size, hframe, hsize⟩ := h.frame
  obtain ⟨h0, h1⟩ := hsize a ha
  have hspot := spot?_of_frameIndex hm h.segment (h.bounds a ha).1 (h.bounds a ha).2 h.top
    (h.looked a ha) h0 (by rw [hframe, Frame.empty, Array.size_replicate]; omega)
  refine ⟨hspot, h0, ?_⟩
  rw [held, hspot, Option.bind_some, content, row, hframe, Frame.empty, Array.getElem?_replicate]
  split <;> rfl

theorem InFrame.opened {index : Int → Int} (h : m.InFrame s n index A) (hm : m.Standard) :
    m.Opened A where
  standard := hm
  stored a ha := by
    have hb := h.bounds a ha
    rcases h.segment with rfl | rfl <;> simp [start, stop, Segment.bounds, Scalar.index] at hb <;> omega
  spot a ha := ⟨_, (h.spot? hm ha).1⟩
  apart a ha b hb heq := by
    obtain ⟨hsa, ha0, -⟩ := h.spot? hm ha
    obtain ⟨hsb, hb0, -⟩ := h.spot? hm hb
    rw [hsa, hsb] at heq
    simp only [Option.some.injEq, Spot.mk.injEq, true_and] at heq
    exact h.inj ha hb (by omega)
  empty a ha := (h.spot? hm ha).2.2

/-- Addresses in different frames lead to different cells. -/
theorem InFrame.opened_union {A' : Set Int} {s' : Segment} {n' : Nat} {index index' : Int → Int}
    (hm : m.Standard) (h : m.InFrame s n index A) (h' : m.InFrame s' n' index' A') (hn : n ≠ n') :
    m.Opened (A ∪ A') := by
  have hapart : ∀ a ∈ A, ∀ b ∈ A', m.spot? a ≠ m.spot? b := by
    intro a ha b hb
    rw [(h.spot? hm ha).1, (h'.spot? hm hb).1]
    simp [hn]
  have hdisjoint : Disjoint A A' := Set.disjoint_left.mpr fun a ha ha' => hapart a ha a ha' rfl
  obtain ⟨⟨-, hstored, hspot, hinj⟩, hempty⟩ := h.opened hm
  obtain ⟨⟨-, hstored', hspot', hinj'⟩, hempty'⟩ := h'.opened hm
  exact ⟨⟨hm, fun a => Or.rec (hstored a) (hstored' a), fun a => Or.rec (hspot a) (hspot' a),
    (Set.injOn_union hdisjoint).mpr ⟨hinj, hinj', hapart⟩⟩, fun a => Or.rec (hempty a) (hempty' a)⟩

/-- The main program has the whole segment. -/
theorem inFrame_whole (hs : s = .local ∨ s = .temp) (hk : k.Fits s) (hstack : (m.framesOf s).1 = [n])
    (hframe : m.frame n = .empty (s.stop .bool - s.start .int)) :
    m.InFrame s n (fun a => a - s.start .int) (k.addresses s) where
  segment := hs
  bounds a ha := Counts.bounds_of_mem_addresses hk ha
  top := by rw [hstack]; rfl
  frame := by
    refine ⟨_, hframe, fun a ha => ?_⟩
    have hb := Counts.bounds_of_mem_addresses hk ha
    exact ⟨by omega, by omega⟩
  looked a _ := by rw [hstack]; rfl
  inj a _ b _ heq := by simp only at heq; omega

/-- A call has a compact frame. -/
theorem inFrame_compact {rest : List Nat} {os : List (List Int)} (hs : s = .local ∨ s = .temp)
    (hk : k.Fits s) (hstack : (m.framesOf s).1 = n :: rest) (hrest : rest ≠ [])
    (hos : (m.framesOf s).2 = offsetsOf k.toList :: os) (hframe : m.frame n = .empty k.total) :
    ∃ index, m.InFrame s n index (k.addresses s) := by
  obtain ⟨hmaps, hinj, -⟩ := Counts.bijOn_localIndex hk
  have hindex : ∀ a : Int, ∃ i, a ∈ k.addresses s → (0 ≤ i ∧ i < k.total) ∧
      localIndex a s.bounds (offsetsOf k.toList) = .ok i := by
    intro a
    by_cases ha : a ∈ k.addresses s
    · obtain ⟨i, hi, heq⟩ := hmaps ha
      exact ⟨i, fun _ => ⟨hi, heq.symm⟩⟩
    · exact ⟨0, fun h => absurd h ha⟩
  choose index hindex using hindex
  refine ⟨index, hs, fun a ha => Counts.bounds_of_mem_addresses hk ha, by rw [hstack]; rfl,
    ⟨_, hframe, fun a ha => (hindex a ha).1⟩, fun a ha => ?_, fun a ha b hb heq => ?_⟩
  · have hlength : ((n :: rest).length == 1) = false := by simpa using hrest
    simp only [frameIndex, hstack, hos, hlength, Bool.false_eq_true, if_false]
    exact (hindex a ha).2
  · exact hinj ha hb (by simp only [(hindex a ha).2, (hindex b hb).2, heq])

/-- The main program, with whole segments and nothing stored in them. -/
structure Untouched (m : Machine) (l t : Nat) : Prop where
  standard : m.Standard
  locals : m.locals = [l]
  temps : m.temps = [t]
  apart : l ≠ t
  localCells : m.frame l = .empty m.localBounds.size
  tempCells : m.frame t = .empty m.tempBounds.size

/-- A call that has been prepared and entered, for a function that needs `k` local and `k'` temporary
cells.  The addresses of its cells fill the frames that were made for it, each a place of its own, and
lead to cells of their own; and whatever is stored under them is given back as by the main program. -/
theorem compact_faithful {f : String} {l t : Nat} (place : Int) (hm : m.Standard)
    (hlocals : m.locals ≠ []) (htemps : m.temps ≠ []) (hk : k.Fits .local) (hk' : k'.Fits .temp)
    (hera : m.eras.get? f = some (k.toList, k'.toList)) (h₀ : m₀.Untouched l t) :
    ∃ m₁, m.prepare f = .ok m₁ ∧
      Set.BijOn (fun a => localIndex a m₁.localBounds (m₁.localOffsets.headD [])) (k.addresses .local)
        (Set.image .ok (Set.Ico 0 ((m₁.frame m₁.nextLocals).size : Int))) ∧
      Set.BijOn (fun a => localIndex a m₁.tempBounds (m₁.tempOffsets.headD [])) (k'.addresses .temp)
        (Set.image .ok (Set.Ico 0 ((m₁.frame m₁.nextTemps).size : Int))) ∧
      (m₁.enter place).Houses (k.addresses .local ∪ k'.addresses .temp) ∧
      ∀ ws : List (Int × Value), (∀ w ∈ ws, w.1 ∈ k.addresses .local ∪ k'.addresses .temp) →
        ∃ n n₀, Stores (m₁.enter place) ws n ∧ Stores m₀ ws n₀ ∧
          ∀ a ∈ k.addresses .local ∪ k'.addresses .temp,
            n.value (.text (toString a)) 0 = n₀.value (.text (toString a)) 0 := by
  let m₁ : Machine := { m with
    frames := (m.frames.push (.empty (cellCount k.toList))).push (.empty (cellCount k'.toList))
    nextLocals := m.frames.size
    nextTemps := m.frames.size + 1
    localOffsets := offsetsOf k.toList :: m.localOffsets
    tempOffsets := offsetsOf k'.toList :: m.tempOffsets
    arguments := [] :: m.arguments }
  have hprepare : m.prepare f = .ok m₁ := by rw [prepare, hera]
  have hframe : m₁.frame m.frames.size = .empty k.total := by
    simp [m₁, Machine.frame, Array.getElem_push, Counts.cellCount_toList]
  have hframe' : m₁.frame (m.frames.size + 1) = .empty k'.total := by
    simp [m₁, Machine.frame, Array.getElem_push, Counts.cellCount_toList]
  have hsize : ∀ {k : Counts} {s : Segment}, k.Fits s → ((Frame.empty k.total).size : Int) = k.total := by
    intro k s hk
    have hi := (hk .int).1
    have hle := Counts.before_add_get_le (fun t => (hk t).1) .int
    simp only [Frame.empty, Array.size_replicate]
    simp only [Counts.before] at hle
    omega
  obtain ⟨index, hin⟩ := inFrame_compact (m := m₁.enter place) (.inl rfl) hk rfl hlocals rfl hframe
  obtain ⟨index', hin'⟩ := inFrame_compact (m := m₁.enter place) (.inr rfl) hk' rfl htemps rfl hframe'
  have hstandard : (m₁.enter place).Standard :=
    { hm with }
  have hcall := hin.opened_union hstandard hin' (by simp [m₁])
  have hmain := InFrame.opened_union h₀.standard
    (inFrame_whole (.inl rfl) hk h₀.locals (by rw [h₀.localCells, h₀.standard.localBounds]; rfl))
    (inFrame_whole (.inr rfl) hk' h₀.temps (by rw [h₀.tempCells, h₀.standard.tempBounds]; rfl)) h₀.apart
  have halike : Alike _ (m₁.enter place) m₀ :=
    ⟨hcall.toHouses, hmain.toHouses, fun a ha => (hcall.empty a ha).trans (hmain.empty a ha).symm⟩
  refine ⟨m₁, hprepare, ?_, ?_, hcall.toHouses, fun ws hws => ?_⟩
  · rw [show m₁.nextLocals = m.frames.size from rfl, hframe, hsize hk,
      show m₁.localBounds = local.bounds from hm.localBounds]
    exact Counts.bijOn_localIndex hk
  · rw [show m₁.nextTemps = m.frames.size + 1 from rfl, hframe', hsize hk',
      show m₁.tempBounds = temp.bounds from hm.tempBounds]
    exact Counts.bijOn_localIndex hk'
  · obtain ⟨n, n₀, hn, hn₀, hafter⟩ := halike.storeAll hws
    exact ⟨n, n₀, hn, hn₀, fun a ha => hafter.value ha⟩

/-- A function with two integers, no reals, a character and a truth value, and two temporary truth
values, called from the main program: what is stored under the last truth value, over an integer and
after the character, is given back as by the main program. -/
def calling : Machine := { blank with
  frames := #[.empty 11000, .empty 11000]
  locals := [0]
  temps := [1]
  eras := [("f", [2, 0, 1, 1], [0, 0, 0, 2])] }

theorem compact_faithful_calling : ∃ m₁, calling.prepare "f" = .ok m₁ ∧
    ∃ n n₀, Stores (m₁.enter 7) [(17000, .text "c"), (9001, .int 5), (18500, .truth true)] n ∧
      Stores calling [(17000, .text "c"), (9001, .int 5), (18500, .truth true)] n₀ ∧
      n.value (.text (toString (18500 : Int))) 0 = n₀.value (.text (toString (18500 : Int))) 0 := by
  have hk : Counts.Fits ⟨2, 0, 1, 1⟩ .local := by intro t; cases t <;> decide
  have hk' : Counts.Fits ⟨0, 0, 0, 2⟩ .temp := by intro t; cases t <;> decide
  have hmain : calling.Untouched 0 1 := ⟨⟨rfl, rfl, rfl, rfl⟩, rfl, rfl, by decide, rfl, rfl⟩
  obtain ⟨m₁, hprepare, -, -, -, hstores⟩ := compact_faithful (f := "f") 7 hmain.standard (by decide)
    (by decide) hk hk' rfl hmain
  have hc : (17000 : Int) ∈ Counts.addresses ⟨2, 0, 1, 1⟩ .local := ⟨.char, 0, by decide, by decide, rfl⟩
  have hi : (9001 : Int) ∈ Counts.addresses ⟨2, 0, 1, 1⟩ .local := ⟨.int, 1, by decide, by decide, rfl⟩
  have hb : (18500 : Int) ∈ Counts.addresses ⟨2, 0, 1, 1⟩ .local := ⟨.bool, 0, by decide, by decide, rfl⟩
  obtain ⟨n, n₀, hn, hn₀, hvalue⟩ := hstores
    [(17000, .text "c"), (9001, .int 5), (18500, .truth true)] (by simp [hc, hi, hb])
  exact ⟨m₁, hprepare, n, n₀, hn, hn₀, hvalue _ (.inl hb)⟩

end Machine

end QuadLang
