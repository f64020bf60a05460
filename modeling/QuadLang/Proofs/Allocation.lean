/-
The address space is allocated soundly.

A `Space` is used by three kinds of calls: for one cell, for the rest of the cells of an
array, and to forget the cells of a function.  This file follows any sequence of them.

* `Taking` — a space with the cells reserved in it since they were last forgotten, in the
  order of the requests;
* `Ledger` — the same counts kept in lists that are changed in place, so that a list that
  was handed out sees later requests;
* `Space.allocation_sound` — the cells of a range follow each other from its start, a
  request is refused exactly when it would come too near to the end, and changes nothing
  outside of its range; the lists handed out before cells were forgotten keep their counts.

Design notes: a space has its counts by value, where nothing handed out could ever change.
What is said about lists is said about the ledger, which goes on as a space does
(`Ledger.Separate.run`).
-/
import QuadLang.Proofs.Ranges

namespace QuadLang

namespace Space

variable {s : Space} (a : Int) {n : Int}

/-- A request for cells: one cell, or the rest of an array whose first cell has been taken. -/
inductive Request where
  | one (scope : String) (type : Scalar)
  | rest (scope : String) (type : Scalar) (size : Int) (positive : 1 ≤ size)

namespace Request

variable (r : Request)

def scope : Request → String
  | one scope _ => scope
  | rest scope _ _ _ => scope

def type : Request → Scalar
  | one _ type => type
  | rest _ type _ _ => type

/-- The segment that a request is served from. -/
def segment (r : Request) : Segment := .ofScope r.scope

/-- The number of cells asked for. -/
def size : Request → Int
  | one _ _ => 1
  | rest _ _ size _ => size - 1

/-- The answer to a request. -/
def take : Request → Space → Space × Except SpaceFault Int
  | one scope type, s => s.takeOne scope (.of type)
  | rest scope type size _, s => s.takeRest scope (.of type) size

theorem take_eq (s : Space) : r.take s = s.take r.scope (.of r.type) r.size := by
  cases r <;> rfl

theorem size_nonneg : 0 ≤ r.size := by
  cases r with
  | one scope type => exact Int.zero_le_ofNat 1
  | rest scope type size positive => exact Int.sub_nonneg_of_le positive

end Request

/-- What can be asked of a space. -/
inductive Call where
  | request (r : Request)
  | reset

def after (s : Space) : Call → Space
  | .request r => (r.take s).1
  | .reset => s.resetLocals

/-! ### One request -/

/-- There is room for a request when its cells stay away from the last two of the range. -/
def Room (s : Space) (r : Request) : Prop :=
  (s.counts r.segment).get r.type + r.size ≤ r.segment.stop r.type - r.segment.start r.type - 2

instance (s : Space) (r : Request) : Decidable (s.Room r) := inferInstanceAs (Decidable (_ ≤ _))

theorem eq_of_counts {s' : Space} (hcounts : ∀ g, s.counts g = s'.counts g)
    (htotal : s.total = s'.total) : s = s' := by
  cases s
  cases s'
  cases htotal
  cases hcounts .global
  cases hcounts .local
  cases hcounts .temp
  cases hcounts .constant
  rfl

variable {r : Request}

theorem take_of_room (h : s.Room r) :
    r.take s = (({ s with total := s.total + r.size } : Space).withCounts r.segment
        ((s.counts r.segment).put r.type ((s.counts r.segment).get r.type + r.size)),
      .ok (r.segment.start r.type + (s.counts r.segment).get r.type + r.size - 1)) := by
  have hroom : ¬ r.segment.start r.type + (s.counts r.segment).get r.type + r.size ≥
      r.segment.stop r.type - 1 := by
    rw [Room] at h
    omega
  rw [Request.take_eq, Space.take]
  simp only [Ty.scalar?]
  change (if _ ≥ _ then _ else _) = _
  rw [← Request.segment, counts_total, if_neg hroom, Int.add_assoc (r.segment.start r.type)]

theorem take_of_not_room (h : ¬ s.Room r) :
    r.take s = ({ s with total := s.total + r.size }, .error (.full r.type.name r.scope)) := by
  have hroom : r.segment.start r.type + (s.counts r.segment).get r.type + r.size ≥
      r.segment.stop r.type - 1 := by
    rw [Room] at h
    omega
  rw [Request.take_eq, Space.take]
  simp only [Ty.scalar?]
  change (if _ ≥ _ then _ else _) = _
  rw [← Request.segment, counts_total, if_pos hroom]
  rfl

/-- A request is served exactly when there is room for it. -/
theorem take_isOk_iff (s : Space) (r : Request) : (∃ a, (r.take s).2 = .ok a) ↔ s.Room r := by
  by_cases h : s.Room r
  · rw [take_of_room h]
    exact ⟨fun _ => h, fun _ => ⟨_, rfl⟩⟩
  · rw [take_of_not_room h]
    exact ⟨fun hok => (by cases hok.choose_spec), fun hroom => absurd hroom h⟩

/-- A request that is refused is only counted. -/
theorem take_error {fault : SpaceFault} (h : (r.take s).2 = .error fault) :
    (r.take s).1 = { s with total := s.total + r.size } := by
  by_cases hroom : s.Room r
  · rw [take_of_room hroom] at h
    cases h
  · rw [take_of_not_room hroom]

theorem take_ok {a : Int} (h : (r.take s).2 = .ok a) :
    s.Room r ∧ a = r.segment.start r.type + (s.counts r.segment).get r.type + r.size - 1 := by
  have hroom : s.Room r := (take_isOk_iff s r).1 ⟨a, h⟩
  rw [take_of_room hroom] at h
  cases h
  exact ⟨hroom, rfl⟩

/-- The counts after a request. -/
theorem get_counts_take (s : Space) (r : Request) (g : Segment) (t : Scalar) :
    ((r.take s).1.counts g).get t = if s.Room r ∧ g = r.segment ∧ t = r.type
      then (s.counts g).get t + r.size else (s.counts g).get t := by
  by_cases hroom : s.Room r
  · rw [take_of_room hroom, counts_withCounts, counts_total]
    by_cases hg : g = r.segment
    · rw [if_pos hg, Counts.get_put]
      subst hg
      by_cases ht : t = r.type
      · rw [if_pos ht, if_pos ⟨hroom, rfl, ht⟩, ht]
      · rw [if_neg ht, if_neg fun h => ht h.2.2]
    · rw [if_neg hg, if_neg fun h => hg h.2.1, counts_total]
  · rw [take_of_not_room hroom, counts_total, if_neg fun h => hroom h.1]

theorem counts_take_of_ne {g : Segment} (h : g ≠ r.segment) :
    (r.take s).1.counts g = s.counts g := by
  by_cases hroom : s.Room r
  · rw [take_of_room hroom, counts_withCounts, if_neg h, counts_total]
  · rw [take_of_not_room hroom, counts_total]

theorem get_counts_resetLocals (s : Space) (g : Segment) (t : Scalar) :
    (s.resetLocals.counts g).get t =
      if g = .local ∨ g = .temp then 0 else (s.counts g).get t := by
  cases g
  · rfl
  · cases t <;> rfl
  · cases t <;> rfl
  · rfl

/-! ### The cells of a sequence of calls -/

/-- `n` addresses that follow each other, from `a` on. -/
def block (a n : Int) : List Int := (List.range n.toNat).map fun i : Nat => a + i

theorem length_block (h : 0 ≤ n) : ((block a n).length : Int) = n := by
  rw [block, List.length_map, List.length_range, Int.toNat_of_nonneg h]

theorem nodup_block (a n : Int) : (block a n).Nodup :=
  List.nodup_range.map fun i j h => by simpa using h

theorem mem_block {a b : Int} (h : b ∈ block a n) : a ≤ b ∧ b < a + n := by
  obtain ⟨i, hi, rfl⟩ := List.mem_map.1 h
  have hlt := List.mem_range.1 hi
  omega

theorem block_append {m : Int} (hm : 0 ≤ m) (hn : 0 ≤ n) :
    block a m ++ block (a + m) n = block a (m + n) := by
  have hlength : (m + n).toNat = m.toNat + n.toNat := Int.toNat_add hm hn
  have hshift : ∀ i : Nat, a + m + i = a + ((m.toNat + i : Nat) : Int) := by omega
  rw [block, block, block, hlength, List.range_add, List.map_append, List.map_map]
  simp only [Function.comp_def, hshift]

/-- A space with the cells reserved in each range since they were last forgotten, the oldest
first. -/
structure Taking where
  space : Space
  cells : Segment → Scalar → List Int

namespace Taking

variable {x : Taking}

/-- Nothing is in use. -/
def empty : Taking := { space := .empty, cells := fun _ _ => [] }

/-- What a call does: the cells of a request are those up to the address that it gets. -/
def next (x : Taking) : Call → Taking
  | .request r =>
    { space := (r.take x.space).1
      cells := fun g t =>
        match (r.take x.space).2 with
        | .ok last =>
          if g = r.segment ∧ t = r.type then x.cells g t ++ block (last - r.size + 1) r.size
          else x.cells g t
        | .error _ => x.cells g t }
  | .reset =>
    { space := x.space.resetLocals
      cells := fun g t => if g = .local ∨ g = .temp then [] else x.cells g t }

/-- A sequence of calls. -/
def run (x : Taking) (calls : List Call) : Taking := calls.foldl next x

/-- The cells of every range follow each other from its start, and the space counts them. -/
structure Orderly (x : Taking) : Prop where
  sound : x.space.Sound
  cells : ∀ g t, x.cells g t = block (g.start t) ((x.space.counts g).get t)

theorem orderly_empty : empty.Orderly where
  sound := sound_empty
  cells g t := by
    have hzero : (Space.empty.counts g).get t = 0 := by cases g <;> cases t <;> rfl
    rw [empty, hzero]
    rfl

theorem Orderly.next (h : x.Orderly) (call : Call) : (x.next call).Orderly := by
  cases call with
  | reset =>
    refine ⟨h.sound.resetLocals, fun g t => ?_⟩
    change (if g = .local ∨ g = .temp then [] else x.cells g t) =
      block (g.start t) ((x.space.resetLocals.counts g).get t)
    rw [get_counts_resetLocals]
    by_cases hg : g = .local ∨ g = .temp
    · rw [if_pos hg, if_pos hg]
      rfl
    · rw [if_neg hg, if_neg hg, h.cells]
  | request r =>
    have hsound : (r.take x.space).1.Sound := by
      rw [Request.take_eq]
      exact (h.sound.take r.scope (.of r.type) r.size_nonneg).1
    refine ⟨hsound, fun g t => ?_⟩
    change _ = block (g.start t) (((r.take x.space).1.counts g).get t)
    rw [get_counts_take]
    rcases htake : (r.take x.space).2 with fault | last
    · have hroom : ¬ x.space.Room r := by
        rw [← take_isOk_iff, htake]
        rintro ⟨a, ha⟩
        cases ha
      simp only [Taking.next, htake]
      rw [if_neg fun hr => hroom hr.1, h.cells]
    · obtain ⟨hroom, hlast⟩ := take_ok htake
      simp only [Taking.next, htake]
      by_cases hr : g = r.segment ∧ t = r.type
      · rw [if_pos hr, if_pos ⟨hroom, hr⟩, h.cells]
        obtain ⟨rfl, rfl⟩ := hr
        have hfirst : last - r.size + 1 =
            r.segment.start r.type + (x.space.counts r.segment).get r.type := by omega
        rw [hfirst, block_append _ (h.sound _ _).1 r.size_nonneg]
      · rw [if_neg hr, if_neg fun hr' => hr hr'.2, h.cells]

theorem Orderly.run (h : x.Orderly) (calls : List Call) : (x.run calls).Orderly := by
  induction calls generalizing x with
  | nil => exact h
  | cons call calls ih => exact ih (h.next call)

theorem Orderly.length (h : x.Orderly) (g : Segment) (t : Scalar) :
    ((x.cells g t).length : Int) = (x.space.counts g).get t := by
  rw [h.cells, length_block _ (h.sound g t).1]

theorem Orderly.inside (h : x.Orderly) {g : Segment} {t : Scalar} {a : Int} (ha : a ∈ x.cells g t) :
    g.start t ≤ a ∧ a < g.stop t - 2 := by
  rw [h.cells] at ha
  obtain ⟨hlow, hhigh⟩ := mem_block ha
  have hstop := (h.sound g t).2
  omega

theorem space_run (x : Taking) (calls : List Call) :
    (x.run calls).space = calls.foldl after x.space := by
  induction calls generalizing x with
  | nil => rfl
  | cons call calls ih =>
    rw [run, List.foldl_cons, ← run, ih, List.foldl_cons]
    cases call <;> rfl

end Taking

end Space

/-! ### Lists that are changed in place -/

/-- The counts of a space as lists in a store.  A request changes the list of its segment in
place; to forget cells is to go on with new lists. -/
structure Ledger where
  lists : Nat → Counts
  /-- Which list counts the cells of a segment. -/
  current : Segment → Nat
  /-- The number of the next list. -/
  fresh : Nat
  total : Int

namespace Ledger

open Space (Request Call)

variable {l : Ledger} {n : Nat} {S : Segment → Prop}

/-- Four lists, and nothing is in use. -/
def empty : Ledger :=
  { lists := fun _ => .zero
    current := fun
      | .global => 0
      | .local => 1
      | .temp => 2
      | .constant => 3
    fresh := 4
    total := 0 }

/-- The counts at present. -/
def space (l : Ledger) : Space :=
  { globals := l.lists (l.current .global)
    locals := l.lists (l.current .local)
    temps := l.lists (l.current .temp)
    constants := l.lists (l.current .constant)
    total := l.total }

/-- The lists that are handed out as the needs of a function. -/
def era (l : Ledger) : Nat × Nat := (l.current .local, l.current .temp)

/-- What a call does. -/
def next (l : Ledger) : Call → Ledger
  | .request r =>
    { l with
      lists := Function.update l.lists (l.current r.segment) ((r.take l.space).1.counts r.segment)
      total := (r.take l.space).1.total }
  | .reset =>
    { l with
      lists := fun n => if l.fresh ≤ n then .zero else l.lists n
      current := fun
        | .local => l.fresh
        | .temp => l.fresh + 1
        | g => l.current g
      fresh := l.fresh + 2 }

/-- A sequence of calls. -/
def run (l : Ledger) (calls : List Call) : Ledger := calls.foldl next l

/-- Every segment has a list of its own. -/
structure Separate (l : Ledger) : Prop where
  known : ∀ g, l.current g < l.fresh
  apart : ∀ g g', l.current g = l.current g' → g = g'

theorem counts_space (l : Ledger) (g : Segment) : l.space.counts g = l.lists (l.current g) := by
  cases g <;> rfl

theorem fresh_next (l : Ledger) (call : Call) : l.fresh ≤ (l.next call).fresh := by
  cases call with
  | request r => exact Nat.le_refl _
  | reset => exact Nat.le_add_right _ 2

/-- A segment keeps its list, or it gets a new one. -/
theorem current_next (l : Ledger) (call : Call) (g : Segment) :
    (l.next call).current g = l.current g ∨ l.fresh ≤ (l.next call).current g := by
  cases call with
  | request r => exact .inl rfl
  | reset =>
    cases g with
    | «local» => exact .inr (Nat.le_refl _)
    | temp => exact .inr (Nat.le_succ _)
    | global | constant => exact .inl rfl

/-- A call changes no list that is there, but those of segments. -/
theorem lists_next (hn : n < l.fresh) (h : ∀ g, l.current g ≠ n) (call : Call) :
    (l.next call).lists n = l.lists n := by
  cases call with
  | request r => exact Function.update_of_ne (h r.segment).symm _ _
  | reset => exact if_neg (Nat.not_le_of_lt hn)

theorem separate_empty : empty.Separate where
  known g := by cases g <;> decide
  apart g g' := by cases g <;> cases g' <;> decide

theorem Separate.next (h : l.Separate) (call : Call) : (l.next call).Separate := by
  cases call with
  | request r => exact ⟨h.known, h.apart⟩
  | reset =>
    refine ⟨fun g => ?_, fun g g' hg => ?_⟩
    · have hknown := h.known g
      cases g <;> simp only [Ledger.next] <;> omega
    · have hknown := h.known g
      have hknown' := h.known g'
      cases g <;> cases g' <;> simp only [Ledger.next] at hg <;> first | rfl | omega | exact h.apart _ _ hg

/-- The ledger goes on as its space does. -/
theorem Separate.space_next (h : l.Separate) (call : Call) :
    (l.next call).space = l.space.after call := by
  cases call with
  | request r =>
    refine Space.eq_of_counts (fun g => ?_) rfl
    rw [counts_space]
    by_cases hg : g = r.segment
    · subst hg
      exact Function.update_self _ _ _
    · refine (Function.update_of_ne (fun hn => hg (h.apart _ _ hn)) _ _).trans ?_
      rw [← counts_space]
      exact (Space.counts_take_of_ne hg).symm
  | reset =>
    refine Space.eq_of_counts (fun g => ?_) rfl
    rw [counts_space]
    cases g with
    | global => exact if_neg (Nat.not_le_of_lt (h.known .global))
    | constant => exact if_neg (Nat.not_le_of_lt (h.known .constant))
    | «local» => exact if_pos (Nat.le_refl _)
    | temp => exact if_pos (Nat.le_succ _)

theorem Separate.run (h : l.Separate) (calls : List Call) :
    (l.run calls).Separate ∧ (l.run calls).space = calls.foldl Space.after l.space := by
  induction calls generalizing l with
  | nil => exact ⟨h, rfl⟩
  | cons call calls ih =>
    rw [List.foldl_cons, ← h.space_next call]
    exact ih (h.next call)

/-- A list that is there counts cells of no segments but these. -/
structure UsedBy (S : Segment → Prop) (l : Ledger) (n : Nat) : Prop where
  known : n < l.fresh
  only : ∀ g, l.current g = n → S g

theorem UsedBy.run (h : l.UsedBy S n) (calls : List Call) : (l.run calls).UsedBy S n := by
  induction calls generalizing l with
  | nil => exact h
  | cons call calls ih =>
    refine ih ⟨Nat.lt_of_lt_of_le h.known (l.fresh_next call), fun g hg => ?_⟩
    rcases l.current_next call g with hsame | hnew
    · exact h.only g (hsame.symm.trans hg)
    · exact absurd (Nat.lt_of_lt_of_le h.known (hg ▸ hnew)) (Nat.lt_irrefl n)

/-- A list that counts the cells of no segment stays as it is. -/
theorem UsedBy.lists_run (h : l.UsedBy (fun _ => False) n) (calls : List Call) :
    (l.run calls).lists n = l.lists n := by
  induction calls generalizing l with
  | nil => rfl
  | cons call calls ih => exact (ih (h.run [call])).trans (lists_next h.known h.only call)

/-- A list that was handed out keeps its counts from the moment when new lists are made. -/
theorem UsedBy.lists_run_reset (h : l.UsedBy (fun g => g = .local ∨ g = .temp) n)
    (calls : List Call) : (l.run (.reset :: calls)).lists n = l.lists n := by
  have hidle : (l.next .reset).UsedBy (fun _ => False) n := by
    refine ⟨Nat.lt_add_right 2 h.known, fun g hg => ?_⟩
    have hknown := h.known
    cases g with
    | global => simpa using h.only .global hg
    | constant => simpa using h.only .constant hg
    | «local» => exact Nat.ne_of_gt hknown hg
    | temp => exact Nat.ne_of_gt (Nat.lt_succ_of_lt hknown) hg
  exact (hidle.lists_run calls).trans (if_neg (Nat.not_le_of_lt h.known))

theorem run_append (l : Ledger) (calls calls' : List Call) :
    l.run (calls ++ calls') = (l.run calls).run calls' :=
  List.foldl_append

end Ledger

/-- **The address space is allocated soundly.**  After any calls, the cells reserved in a range
follow each other from its start, none of them twice and none of them among the last two; a
request is served exactly when its cells end before these, one cell is the next one, a request
that is refused is only counted in the total, and no request changes the counts of another range.
The lists that were handed out as the needs of a function have its counts, and keep what they
have from the moment when the cells of the function are forgotten. -/
theorem Space.allocation_sound (calls : List Space.Call) :
    let x := Space.Taking.empty.run calls
    let l := Ledger.empty.run calls
    (∀ g t, (x.space.counts g).get t = (x.cells g t).length ∧
      x.cells g t = Space.block (g.start t) (x.cells g t).length ∧ (x.cells g t).Nodup ∧
      ∀ a ∈ x.cells g t, g.start t ≤ a ∧ a < g.stop t - 2) ∧
    (∀ r : Space.Request,
      ((∃ a, (r.take x.space).2 = .ok a) ↔ (x.cells r.segment r.type).length + r.size ≤
        r.segment.stop r.type - r.segment.start r.type - 2) ∧
      (∀ a, r = .one r.scope r.type → (r.take x.space).2 = .ok a →
        a = r.segment.start r.type + (x.cells r.segment r.type).length) ∧
      (∀ fault, (r.take x.space).2 = .error fault →
        (r.take x.space).1 = { x.space with total := x.space.total + r.size }) ∧
      (∀ g t, ¬ (g = r.segment ∧ t = r.type) →
        ((r.take x.space).1.counts g).get t = (x.space.counts g).get t)) ∧
    x.space = calls.foldl Space.after .empty ∧ l.space = x.space ∧
    x.space.era = (l.lists l.era.1, l.lists l.era.2) ∧
    (∀ n, n = l.era.1 ∨ n = l.era.2 → ∀ between later : List Space.Call,
      (Ledger.empty.run (calls ++ between ++ .reset :: later)).lists n =
        (Ledger.empty.run (calls ++ between)).lists n) := by
  have horder := Space.Taking.orderly_empty.run calls
  obtain ⟨hseparate, hledger⟩ := Ledger.separate_empty.run calls
  have hspace : (Ledger.empty.run calls).space = (Space.Taking.empty.run calls).space := by
    rw [hledger, Space.Taking.space_run]
    rfl
  refine ⟨fun g t => ⟨(horder.length g t).symm, ?_, ?_, fun a => horder.inside⟩,
    fun r => ⟨?_, fun a hone ha => ?_, fun fault => Space.take_error, fun g t hne => ?_⟩,
    Space.Taking.space_run .empty calls, hspace, ?_, fun n hn between later => ?_⟩
  · rw [horder.length, horder.cells]
  · rw [horder.cells]
    exact Space.nodup_block _ _
  · rw [Space.take_isOk_iff, Space.Room, horder.length]
  · have hsize : r.size = 1 := by
      rw [hone]
      rfl
    rw [horder.length, (Space.take_ok ha).2]
    omega
  · rw [Space.get_counts_take, if_neg fun h => hne h.2]
  · rw [← hspace]
    rfl
  · have hlent : (Ledger.empty.run calls).UsedBy (fun g => g = .local ∨ g = .temp) n := by
      rcases hn with rfl | rfl
      · exact ⟨hseparate.known _, fun g hg => .inl (hseparate.apart _ _ hg)⟩
      · exact ⟨hseparate.known _, fun g hg => .inr (hseparate.apart _ _ hg)⟩
    rw [Ledger.run_append, Ledger.run_append]
    exact (hlent.run between).lists_run_reset later

/-- A function with an array of five integers: the next cell follows them, there is no room for
1500 truth values, and the list that was handed out still counts five cells when the next
function has taken one. -/
theorem Space.allocation_of_array :
    let calls : List Space.Call :=
      [.request (.one "f" .int), .request (.rest "f" .int 5 (by decide))]
    let x := Space.Taking.empty.run calls
    x.cells .local .int = [9000, 9001, 9002, 9003, 9004] ∧
    ((Space.Request.one "f" .int).take x.space).2 = .ok 9005 ∧
    (¬ ∃ a, ((Space.Request.rest "f" .bool 1500 (by decide)).take x.space).2 = .ok a) ∧
    (Ledger.empty.run (calls ++ [] ++ [.reset, .request (.one "g" .int)])).lists 1 =
      { int := 5, float := 0, char := 0, bool := 0 } := by
  intro calls x
  obtain ⟨hcells, hrequest, -, -, -, hlists⟩ := Space.allocation_sound calls
  have hlength : (x.cells .local .int).length = 5 := rfl
  refine ⟨?_, ?_, ?_, ?_⟩
  · rw [(hcells .local .int).2.1, hlength]
    rfl
  · obtain ⟨hroom, hone, -, -⟩ := hrequest (.one "f" .int)
    obtain ⟨a, ha⟩ := hroom.2 (by decide)
    rw [ha, hone a rfl ha]
    rfl
  · rw [(hrequest (.rest "f" .bool 1500 (by decide))).1]
    decide
  · rw [hlists 1 (.inl rfl) [] [.request (.one "g" .int)]]
    rfl

end QuadLang
