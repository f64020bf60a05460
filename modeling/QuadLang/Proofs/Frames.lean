/-
What quads do to frames and calls.

Most quads only store in the frames on top and never touch the stacks of calls:
`SameCalls` is the relation that they keep.  The other quads are those of calls,
and `step_calls` lists all that a step can do:

* a plain quad keeps `SameCalls`;
* `ERA` prepares two new frames (`Prepares`);
* `GoSub` enters the frames prepared last (`Enters`);
* `RETURN` and `EndFunc` leave the innermost frames (`Leaves`).
-/
import QuadLang.Machine.Step
import QuadLang.Proofs.Keeps

namespace QuadLang

open Steps

variable {flow : Flow} {i : Nat} {m m' : Machine} {place : Int} {q : List String}

namespace Machine

/-- The stacks of calls are the same, and no frame has changed but for cells of
the innermost ones. -/
structure SameCalls (m m' : Machine) : Prop where
  globalBounds : m'.globalBounds = m.globalBounds
  localBounds : m'.localBounds = m.localBounds
  tempBounds : m'.tempBounds = m.tempBounds
  constantBounds : m'.constantBounds = m.constantBounds
  eras : m'.eras = m.eras
  quads : m'.quads = m.quads
  locals : m'.locals = m.locals
  temps : m'.temps = m.temps
  localOffsets : m'.localOffsets = m.localOffsets
  tempOffsets : m'.tempOffsets = m.tempOffsets
  nextLocals : m'.nextLocals = m.nextLocals
  nextTemps : m'.nextTemps = m.nextTemps
  calls : m'.calls = m.calls
  pending : m'.arguments.length = m.arguments.length
  earlier : m'.arguments.tail = m.arguments.tail
  framesSize : m'.frames.size = m.frames.size
  frameSize : ∀ n, (m'.frame n).size = (m.frame n).size
  frame : ∀ n, m.locals.head? ≠ some n → m.temps.head? ≠ some n → m'.frame n = m.frame n

instance : IsPreorder Machine SameCalls where
  refl m := by constructor <;> intros <;> rfl
  trans a b c h k := by
    constructor
    case frame =>
      intro n hl ht
      rw [k.frame n (by rwa [h.locals]) (by rwa [h.temps]), h.frame n hl ht]
    case frameSize => exact fun n => (k.frameSize n).trans (h.frameSize n)
    case globalBounds => exact k.globalBounds.trans h.globalBounds
    case localBounds => exact k.localBounds.trans h.localBounds
    case tempBounds => exact k.tempBounds.trans h.tempBounds
    case constantBounds => exact k.constantBounds.trans h.constantBounds
    case eras => exact k.eras.trans h.eras
    case quads => exact k.quads.trans h.quads
    case locals => exact k.locals.trans h.locals
    case temps => exact k.temps.trans h.temps
    case localOffsets => exact k.localOffsets.trans h.localOffsets
    case tempOffsets => exact k.tempOffsets.trans h.tempOffsets
    case nextLocals => exact k.nextLocals.trans h.nextLocals
    case nextTemps => exact k.nextTemps.trans h.nextTemps
    case calls => exact k.calls.trans h.calls
    case pending => exact k.pending.trans h.pending
    case earlier => exact k.earlier.trans h.earlier
    case framesSize => exact k.framesSize.trans h.framesSize

/-! ### Storing -/

theorem frame_modify (m : Machine) (n k : Nat) (c : Cell) (n' : Nat) :
    ({ m with frames := m.frames.modify n fun f => f.setIfInBounds k (some c) } : Machine).frame n'
      = if n = n' then (m.frame n').setIfInBounds k (some c) else m.frame n' := by
  simp only [frame, Array.getElem?_modify]
  by_cases h : n = n'
  · subst h
    cases m.frames[n]? with
    | none => simp
    | some f => simp
  · simp [h]

theorem sameCalls_putIn (m : Machine) (c : Cell) {stack : List Nat} (i : Int)
    (h : stack = m.locals ∨ stack = m.temps) : SameCalls m (m.putIn c stack i).1 := by
  rcases stack with _ | ⟨n, rest⟩
  · exact refl m
  · rw [putIn]
    split
    · next k _ =>
      constructor
      case framesSize => simp
      case frameSize =>
        intro n'
        rw [frame_modify]
        split <;> simp
      case frame =>
        intro n' hl ht
        rw [frame_modify, if_neg]
        rintro rfl
        rcases h with h | h <;> simp [← h] at hl ht
      all_goals rfl
    · exact refl m

theorem sameCalls_putAt (m : Machine) (c : Cell) : ∀ p, SameCalls m (m.putAt c p).1
  | .global i => by rw [putAt]; split <;> (constructor <;> intros <;> rfl)
  | .local i => sameCalls_putIn m c i (.inl rfl)
  | .temp i => sameCalls_putIn m c i (.inr rfl)
  | .constant i => by rw [putAt]; split <;> (constructor <;> intros <;> rfl)

theorem sameCalls_storeAt (m : Machine) (v : Value) (address offset : Int) :
    SameCalls m (m.storeAt v address offset).1 := by
  rw [storeAt]
  split
  · exact refl m
  · split
    · exact refl m
    · next place _ =>
      have h := sameCalls_putAt m { value := v, type := .of (m.storeType address) } place
      dsimp only
      split <;> (next hp => rw [hp] at h; exact h)

theorem sameCalls_store (m : Machine) (v operand : Value) (offset : Int) :
    SameCalls m (m.store v operand offset).1 := by
  rw [store]
  split
  · exact refl m
  · next address offset followed _ =>
    have h := sameCalls_storeAt m v (address + offset) offset
    split
    · next hs => rw [hs] at h; exact h
    · exact h

end Machine

namespace Exec

open Machine

variable (v : Value) {s : String}

/-! ### Plain quads -/

theorem keeps_ofExcept {α : Type} (f : Machine → Except MachineFault α) :
    Keeps SameCalls (ofExcept f) := by
  refine keeps_get_bind fun m => ?_
  split
  · exact keeps_pure (R := SameCalls) _ m
  · exact keeps_throw (R := SameCalls) _ m

/-- Changing anything but the calls and the frames. -/
theorem keeps_note {f : Machine → Machine}
    (h : ∀ m, f m = { m with
      globals := (f m).globals, constants := (f m).constants, place := (f m).place,
      returns := (f m).returns, extents := (f m).extents, lastValue := (f m).lastValue,
      names := (f m).names, input := (f m).input, printed := (f m).printed }) :
    Keeps SameCalls (modify f : Exec PUnit) := by
  refine keeps_modify fun m => ?_
  rw [h m]
  constructor <;> intros <;> rfl

theorem keeps_print (s : String) : Keeps SameCalls (print s) := keeps_note fun _ => rfl

theorem keeps_say (place : Int) (message : String) : Keeps SameCalls (say place message) := by
  refine keeps_bind keeps_get fun m => ?_
  split
  · exact keeps_print _
  · exact keeps_pure _

section

variable (place : Int) (q : List String)

theorem keeps_field (i : Nat) : Keeps SameCalls (field q i) := by
  rw [field]
  split
  · exact keeps_pure _
  · exact keeps_throw _

theorem keeps_number (i : Nat) : Keeps SameCalls (number q i) := by
  refine keeps_bind (keeps_field q i) fun s => ?_
  split
  · exact keeps_pure _
  · exact keeps_throw _

theorem keeps_textOf : Keeps SameCalls (textOf v) := keeps_ofExcept _

theorem keeps_value (operand : String) (offset : Int) : Keeps SameCalls (value operand offset) :=
  keeps_ofExcept _

theorem keeps_store (operand : String) (offset : Int) :
    Keeps SameCalls (store v operand offset) := by
  intro m
  have h := sameCalls_store m v (.text operand) offset
  rcases hs : m.store v (.text operand) offset with ⟨m', r⟩
  have hr : ((store v operand offset).run m).2 = m' := by
    cases r <;> simp only [store, ExceptT.run, hs]
  rw [hr]
  simpa only [hs] using h

theorem keeps_forCells {act : Int → Exec Unit} (h : ∀ i, Keeps SameCalls (act i)) :
    Keeps SameCalls (forCells act) := by
  refine keeps_bind (keeps_ofExcept _) fun _ => ?_
  have hcell : ∀ i : Nat, Keeps SameCalls (act i) := fun i => h i
  exact keeps_forM hcell _

theorem keeps_storeAll (vs : List Value) (q : List String) : Keeps SameCalls (storeAll vs q) :=
  keeps_forM (fun _ => keeps_bind (keeps_field q 3) fun _ => keeps_store _ _ _) _

theorem keeps_rangeText (count : Int) : Keeps SameCalls (rangeText q count) :=
  keeps_bind (keeps_field q 3) fun _ => keeps_bind (keeps_number q 3) fun _ => keeps_pure _

theorem keeps_operate (op : Operator) (word : String) :
    Keeps SameCalls (operate place q op word) := by
  refine keeps_forCells fun i => ?_
  refine keeps_bind (keeps_field q 1) fun _ => keeps_bind (keeps_value _ _) fun _ => ?_
  refine keeps_bind (keeps_field q 2) fun _ => keeps_bind (keeps_value _ _) fun _ => ?_
  refine keeps_bind (keeps_note fun _ => rfl) fun _ => keeps_bind (keeps_ofExcept _) fun _ => ?_
  refine keeps_bind (keeps_field q 3) fun _ => keeps_bind (keeps_store _ _ _) fun _ => ?_
  refine keeps_bind (keeps_textOf _) fun _ => keeps_bind (keeps_textOf _) fun _ => ?_
  exact keeps_bind (keeps_textOf _) fun _ => keeps_say _ _

theorem keeps_assign : Keeps SameCalls (assign place q) := by
  refine keeps_forCells fun i => ?_
  refine keeps_bind (keeps_field q 1) fun _ => keeps_bind (keeps_value _ _) fun _ => ?_
  refine keeps_bind (keeps_note fun _ => rfl) fun _ => keeps_bind (keeps_field q 3) fun _ => ?_
  exact keeps_bind (keeps_store _ _ _) fun _ => keeps_bind (keeps_textOf _) fun _ => keeps_say _ _

theorem keeps_matrix (i : Nat) (first : Int) : Keeps SameCalls (matrix q i first) :=
  keeps_bind (keeps_field q i) fun _ => keeps_ofExcept _

theorem keeps_extents : Keeps SameCalls extents :=
  keeps_bind (keeps_ofExcept _) fun _ => keeps_bind (keeps_ofExcept _) fun _ => keeps_pure _

theorem keeps_determinant : Keeps SameCalls (determinant place q) := by
  refine keeps_bind (keeps_matrix q 1 0) fun _ => keeps_bind keeps_extents fun _ => ?_
  refine keeps_bind (keeps_ofExcept _) fun _ => keeps_bind (keeps_field q 3) fun _ => ?_
  exact keeps_bind (keeps_store _ _ _) fun _ => keeps_say _ _

theorem keeps_transpose : Keeps SameCalls (transpose place q) := by
  refine keeps_bind (keeps_matrix q 1 0) fun _ => keeps_bind (keeps_storeAll _ q) fun _ => ?_
  exact keeps_bind (keeps_rangeText q _) fun _ => keeps_say _ _

theorem keeps_storeInverse (rows : Rows) : Keeps SameCalls (storeInverse place q rows) := by
  refine keeps_bind keeps_extents fun _ => keeps_bind (keeps_ofExcept _) fun _ => ?_
  split
  · exact keeps_throw _
  · exact keeps_bind (keeps_storeAll _ q) fun _ => keeps_bind (keeps_rangeText q _) fun _ =>
      keeps_say _ _

theorem keeps_invert : Keeps SameCalls (invert place q) := by
  refine keeps_bind (keeps_matrix q 1 0) fun rows => keeps_bind (keeps_field q 1) fun operand => ?_
  intro m
  have h := keeps_storeInverse place q rows m
  rcases hs : (storeInverse place q rows).run m with ⟨_ | _, m'⟩ <;>
  · rw [hs] at h
    rw [ExceptT.run] at hs
    simpa only [ExceptT.run, hs] using h

theorem keeps_multiply : Keeps SameCalls (multiply place q) := by
  refine keeps_bind (keeps_matrix q 1 0) fun _ => keeps_bind (keeps_matrix q 2 1) fun _ => ?_
  refine keeps_bind keeps_extents fun _ => keeps_bind (keeps_ofExcept _) fun _ => ?_
  refine keeps_bind (keeps_ofExcept _) fun _ => keeps_bind (keeps_storeAll _ q) fun _ => ?_
  exact keeps_bind (keeps_rangeText q _) fun _ => keeps_say _ _

theorem keeps_setExtents : Keeps SameCalls (setExtents place q) := by
  refine keeps_bind (keeps_number q 1) fun _ => keeps_bind (keeps_number q 2) fun _ => ?_
  exact keeps_bind (keeps_note fun _ => rfl) fun _ => keeps_say _ _

theorem keeps_setProductExtents : Keeps SameCalls (setProductExtents place q) := by
  refine keeps_bind (keeps_number q 1) fun _ => keeps_bind (keeps_number q 2) fun _ => ?_
  refine keeps_bind (keeps_number q 3) fun _ => keeps_bind (keeps_note fun _ => rfl) fun _ => ?_
  exact keeps_say _ _

theorem keeps_goTo : Keeps SameCalls (goTo place q) :=
  keeps_bind (keeps_field q 3) fun _ => keeps_bind (keeps_say _ _) fun _ =>
    keeps_bind (keeps_number q 3) fun _ => keeps_pure _

theorem keeps_allTrue {operand : Exec String} (h : Keeps SameCalls operand) :
    ∀ l : List Nat, Keeps SameCalls (allTrue operand l)
  | [] => keeps_pure _
  | i :: rest => by
    refine keeps_bind h fun _ => keeps_bind (keeps_value _ _) fun _ => ?_
    split
    · exact keeps_allTrue h rest
    · exact keeps_pure _

theorem keeps_goToIfFalse : Keeps SameCalls (goToIfFalse place q) := by
  refine keeps_bind (keeps_ofExcept _) fun _ =>
    keeps_bind (keeps_allTrue (keeps_field q 1) _) fun _ => ?_
  split
  · exact keeps_bind (keeps_say _ _) fun _ => keeps_pure _
  · exact keeps_bind (keeps_field q 3) fun _ => keeps_bind (keeps_say _ _) fun _ =>
      keeps_bind (keeps_number q 3) fun _ => keeps_pure _

theorem keeps_printField : Keeps SameCalls (printField place q) := by
  refine keeps_bind (keeps_field q 3) fun _ => ?_
  split
  · exact keeps_bind (keeps_say _ _) fun _ => keeps_print _
  · refine keeps_bind (keeps_ofExcept _) fun _ => ?_
    split
    · refine keeps_bind keeps_get fun _ => ?_
      split
      · exact keeps_throw _
      · refine keeps_bind (keeps_textOf _) fun _ => keeps_bind (keeps_say _ _) fun _ => ?_
        refine keeps_bind (keeps_value _ _) fun _ => keeps_bind (keeps_note fun _ => rfl) fun _ => ?_
        exact keeps_bind (keeps_textOf _) fun _ => keeps_print _
    · refine keeps_bind (keeps_rangeText q _) fun _ => keeps_bind (keeps_say _ _) fun _ => ?_
      refine keeps_bind (keeps_matrix q 3 0) fun _ => ?_
      exact keeps_bind (keeps_textOf _) fun _ => keeps_print _

theorem keeps_readCell (type : Scalar) : Keeps SameCalls (readCell type) := by
  intro m
  rcases hv : readValue type m.printed m.input with ⟨printed, _ | ⟨v, input⟩⟩ <;>
  · simp only [readCell, ExceptT.run, hv]
    constructor <;> intros <;> rfl

theorem keeps_readField : Keeps SameCalls (readField place q) := by
  refine keeps_bind (keeps_field q 3) fun _ => keeps_bind (keeps_ofExcept _) fun _ => ?_
  refine keeps_forCells fun i => keeps_bind (keeps_say _ _) fun _ => ?_
  exact keeps_bind (keeps_readCell _) fun _ => keeps_store _ _ _

theorem keeps_verify : Keeps SameCalls (verify place q) := by
  refine keeps_bind (keeps_field q 1) fun _ => keeps_bind (keeps_value _ _) fun index => ?_
  refine keeps_bind (keeps_number q 3) fun limit => keeps_bind (keeps_textOf _) fun _ => ?_
  refine keeps_bind (keeps_say _ _) fun _ => keeps_bind (keeps_ofExcept _) fun _ => ?_
  have hupper : Keeps SameCalls (do
      if ← ofExcept fun _ => Value.order .ge index (.int limit) then
        throw (.outside (← textOf index) limit) : Exec Unit) :=
    keeps_bind (keeps_ofExcept _) fun _ => by
      split
      · exact keeps_bind (keeps_textOf _) fun _ => keeps_throw _
      · exact keeps_pure _
  dsimp only
  split
  · exact keeps_bind (keeps_textOf _) fun _ => keeps_bind (keeps_throw _) fun _ => hupper
  · exact hupper

theorem keeps_makePointer : Keeps SameCalls (makePointer place q) := by
  refine keeps_bind (keeps_field q 1) fun _ => keeps_bind (keeps_value _ _) fun _ => ?_
  refine keeps_bind (keeps_number q 2) fun _ => keeps_bind (keeps_field q 3) fun _ => ?_
  refine keeps_bind (keeps_textOf _) fun _ => keeps_bind (keeps_say _ _) fun _ => ?_
  exact keeps_bind (keeps_ofExcept _) fun _ => keeps_store _ _ _

end

theorem run_field (h : q[i]? = some s) (m : Machine) : (field q i).run m = (.ok s, m) := by
  simp only [field, h]
  rfl

theorem field_eq_ok (h : (field q i).run m = (.ok s, m')) : q[i]? = some s ∧ m' = m := by
  rw [field] at h
  split at h
  · next hs =>
    cases h
    exact ⟨hs, rfl⟩
  · cases h

/-- Making an argument does not change anything but the arguments of the call that
was prepared last. -/
theorem keeps_addArgument {a : Exec Argument} (h : ∀ m, (a.run m).2 = m) :
    Keeps SameCalls (addArgument a) := by
  refine keeps_get_bind fun m => ?_
  split
  · exact keeps_throw (R := SameCalls) _ m
  · next mine rest hm =>
    rcases ha : a.run m with ⟨r, m₁⟩
    have hm₁ : m₁ = m := by simpa [ha] using h m
    subst hm₁
    cases r with
    | error e =>
      rw [run_bind_error ha]
      exact refl (r := SameCalls) _
    | ok b =>
      rw [run_bind_ok ha, run_modify]
      constructor
      case pending => simp [hm]
      case earlier => simp [hm]
      all_goals intros; rfl

/-- Making an argument changes nothing. -/
theorem run_argument (q : List String) (v : Value) (i : Int) (m : Machine) :
    ((do return { value := v, address := ← field q 2, offset := i } : Exec Argument).run m).2
      = m := by
  rcases hf : (field q 2).run m with ⟨r, m₁⟩
  have hm₁ : m₁ = m := by
    rw [field] at hf
    split at hf <;> exact (congrArg Prod.snd hf).symm
  cases r with
  | error e => rw [run_bind_error hf, hm₁]
  | ok s => rw [run_bind_ok hf, hm₁]; rfl

theorem keeps_passArgument (place : Int) (q : List String) :
    Keeps SameCalls (passArgument place q) := by
  refine keeps_forCells fun i => keeps_bind (keeps_field q 1) fun _ => ?_
  refine keeps_bind (keeps_value _ _) fun v =>
    keeps_bind (keeps_addArgument fun m => run_argument q v i m) fun _ => ?_
  exact keeps_bind (keeps_field q 3) fun _ => keeps_say _ _

theorem keeps_takeReturned (place : Int) (q : List String) :
    Keeps SameCalls (takeReturned place q) := by
  refine keeps_bind keeps_get fun m => ?_
  split
  · exact keeps_throw _
  · refine keeps_bind (keeps_note fun _ => rfl) fun _ => keeps_forM (fun _ => ?_) _
    refine keeps_bind (keeps_field q 3) fun _ => keeps_bind (keeps_store _ _ _) fun _ => ?_
    refine keeps_bind keeps_get fun _ => ?_
    split
    · exact keeps_throw _
    · exact keeps_bind (keeps_textOf _) fun _ => keeps_say _ _

theorem keeps_bindArgument (a : Argument) : Keeps SameCalls (bindArgument a) :=
  keeps_bind (keeps_note fun _ => rfl) fun _ => keeps_store _ _ _

theorem keeps_comeback : Keeps SameCalls comeback := by
  refine keeps_bind keeps_get fun m => ?_
  split
  · exact keeps_throw _
  · exact keeps_pure _

end Exec

namespace Machine

/-! ### All that a step can do -/

/-- The quad that is to be done next. -/
def quad? (m : Machine) : Option (List String) :=
  (rowIndex? m.quads.size m.place).bind fun i => m.quads[i]?

/-- The next quad is done, and the run goes on with `m'`. -/
def Next (m m' : Machine) : Prop := Exec.step.run m = (.ok true, m')

/-- The machine that has just entered a function: its arguments are to be stored. -/
def entered (m : Machine) : Machine :=
  { m.enter m.place with arguments := m.arguments.tail }

/-- What a quad can do to calls and frames. -/
inductive CallStep (m : Machine) (q : List String) (m' : Machine) : Prop where
  | plain (hq : q.headD "" ∉ ["ERA", "GoSub", "RETURN", "EndFunc"]) (h : SameCalls m m')
  | prepare (function : String) (m₁ : Machine) (hq : q.headD "" = "ERA")
      (hf : q[3]? = some function) (h₁ : m.prepare function = .ok m₁) (h : SameCalls m₁ m')
  | enter (m₁ : Machine) (hq : q.headD "" = "GoSub") (ha : m.arguments ≠ [])
      (h₁ : ((m.arguments.headD []).forM Exec.bindArgument).run m.entered = (.ok (), m₁))
      (hframes : m'.frames = m₁.frames) (h : SameCalls m₁ m')
  | leave (m₁ m₂ : Machine) (place : Int) (hq : q.headD "" = "RETURN" ∨ q.headD "" = "EndFunc")
      (h₁ : SameCalls m m₁) (h₂ : m₁.leave = (m₂, .ok place)) (h : SameCalls m₂ m')

/-- A change of the place and the extents adds nothing to what a quad did. -/
theorem CallStep.note (h : CallStep m q m') (place : Int) (extents : List Int) :
    CallStep m q { m' with place, extents } := by
  have hn : SameCalls m' { m' with place, extents } := by constructor <;> intros <;> rfl
  cases h with
  | plain hq h => exact .plain hq (IsTrans.trans _ _ _ h hn)
  | prepare f m₁ hq hf h₁ h => exact .prepare f m₁ hq hf h₁ (IsTrans.trans _ _ _ h hn)
  | enter m₁ hq ha h₁ hframes h => exact .enter m₁ hq ha h₁ hframes (IsTrans.trans _ _ _ h hn)
  | leave m₁ m₂ place' hq h₁ h₂ h => exact .leave m₁ m₂ place' hq h₁ h₂ (IsTrans.trans _ _ _ h hn)

end Machine

namespace Exec

open Machine

variable {α : Type} {w : String}

theorem sameCalls_of_keeps {x : Exec α} {r : Except MachineFault α} (hx : Keeps SameCalls x)
    (h : x.run m = (r, m')) : SameCalls m m' := by
  have hm := hx m
  rwa [h] at hm

theorem run_ofExcept (f : Machine → Except MachineFault α) (m : Machine) : (ofExcept f).run m = (f m, m) := by
  rw [ofExcept, run_bind_ok (run_get m)]
  cases f m <;> rfl

theorem ofExcept_eq_ok {f : Machine → Except MachineFault α} {a : α}
    (h : (ofExcept f).run m = (.ok a, m')) : f m = .ok a ∧ m' = m := by
  rw [run_ofExcept] at h
  exact ⟨congrArg Prod.fst h, (congrArg Prod.snd h).symm⟩

theorem run_say (place : Int) (message : String) (m : Machine) :
    ∃ printed, (say place message).run m = (.ok (), { m with printed }) := by
  by_cases hd : m.debug
  · exact ⟨debugLine (toString place) message :: m.printed, by
      show (if m.debug = true then print _ else pure () : Exec Unit).run m = _
      rw [if_pos hd]
      rfl⟩
  · exact ⟨m.printed, by
      show (if m.debug = true then print _ else pure () : Exec Unit).run m = _
      rw [if_neg hd]
      rfl⟩

theorem say_eq_ok {message : String} (h : (say place message).run m = (.ok (), m')) :
    m' = { m with printed := m'.printed } := by
  obtain ⟨printed, hs⟩ := run_say place message m
  rw [hs] at h
  cases h
  rfl

theorem number_eq_ok {n : Int} (h : (number q i).run m = (.ok n, m')) : m' = m := by
  obtain ⟨s, m₁, hs, h₁⟩ := bind_eq_ok h
  obtain ⟨-, rfl⟩ := field_eq_ok hs
  split at h₁
  · cases h₁; rfl
  · cases h₁

theorem prepare_calls (h : (prepare place q).run m = (.ok (), m')) :
    ∃ f m₁, q[3]? = some f ∧ m.prepare f = .ok m₁ ∧ SameCalls m₁ m' := by
  obtain ⟨f, m₁, hf, h₁⟩ := bind_eq_ok h
  obtain ⟨hq, rfl⟩ := field_eq_ok hf
  obtain ⟨m₂, m₃, hp, h₂⟩ := bind_eq_ok h₁
  obtain ⟨hp, rfl⟩ := ofExcept_eq_ok hp
  obtain ⟨_, m₄, hs, h₃⟩ := bind_eq_ok h₂
  cases hs
  exact ⟨f, m₂, hq, hp, sameCalls_of_keeps (keeps_say _ _) h₃⟩

theorem goSub_calls (h : (goSub m.place q).run m = (.ok flow, m')) :
    m.arguments ≠ [] ∧ ∃ m₁,
      ((m.arguments.headD []).forM bindArgument).run m.entered = (.ok (), m₁) ∧
      m'.frames = m₁.frames ∧ SameCalls m₁ m' := by
  obtain ⟨_, m₁, he, h₁⟩ := bind_eq_ok h
  cases he
  obtain ⟨_, m₂, hg, h₂⟩ := bind_eq_ok h₁
  cases hg
  split at h₂
  · cases h₂
  · next mine rest hm =>
    have hargs : m.arguments = mine :: rest := hm
    obtain ⟨_, m₃, hmod, h₃⟩ := bind_eq_ok h₂
    cases hmod
    obtain ⟨_, m₄, hbind, h₄⟩ := bind_eq_ok h₃
    obtain ⟨start, m₅, hn, h₅⟩ := bind_eq_ok h₄
    obtain rfl := number_eq_ok hn
    obtain ⟨printed, hsay⟩ := run_say m.place
      ("Jump to function: " ++ toString m.place ++ " -> " ++ toString start) m₅
    rw [run_bind_ok hsay] at h₅
    cases h₅
    refine ⟨by simp [hargs], m₅, ?_, rfl, ?_⟩
    · simpa [entered, hargs] using hbind
    · constructor <;> intros <;> rfl

theorem leave_calls (h : (do return Flow.after (← leave) : Exec Flow).run m = (.ok flow, m')) :
    ∃ place, m.leave = (m', .ok place) := by
  obtain ⟨place, m₁, h₁, h₂⟩ := bind_eq_ok h
  cases h₂
  have hr : leave.run m = (m.leave.2, m.leave.1) := rfl
  rw [hr] at h₁
  exact ⟨place, Prod.ext (congrArg Prod.snd h₁) (congrArg Prod.fst h₁)⟩

/-- Coming back is told before the frames are left. -/
theorem comeback_calls {message : Int → String}
    (h : (do say place (message (← comeback)); return Flow.after (← leave) : Exec Flow).run m = (.ok flow, m')) :
    ∃ m₁ place', SameCalls m m₁ ∧ m₁.leave = (m', .ok place') := by
  obtain ⟨back, m₁, hback, h₁⟩ := bind_eq_ok h
  obtain ⟨_, m₂, hsay, h₂⟩ := bind_eq_ok h₁
  obtain ⟨place', hleave⟩ := leave_calls h₂
  refine ⟨m₂, place', ?_, hleave⟩
  calc SameCalls m m₁ := sameCalls_of_keeps keeps_comeback hback
    SameCalls _ m₂ := sameCalls_of_keeps (keeps_say _ _) hsay

theorem returnValues_calls (h : (returnValues place q).run m = (.ok flow, m')) :
    ∃ m₁ place', SameCalls m m₁ ∧ m₁.leave = (m', .ok place') := by
  obtain ⟨n, m₁, hn, h₁⟩ := bind_eq_ok h
  obtain ⟨vs, m₂, hvs, h₂⟩ := bind_eq_ok h₁
  obtain ⟨_, m₃, hmod, h₃⟩ := bind_eq_ok h₂
  obtain ⟨m₄, place', hback, hleave⟩ := comeback_calls h₃
  refine ⟨m₄, place', ?_, hleave⟩
  have hread : ∀ i : Nat, Keeps SameCalls (do
      let source ← field q 3
      say place ("Return found! Assigning value -> (" ++ source ++ offsetText (i : Int) ++ ")")
      value source (i : Int)) := fun i =>
    keeps_bind (keeps_field q 3) fun _ => keeps_bind (keeps_say _ _) fun _ => keeps_value _ _
  calc SameCalls m m₁ := sameCalls_of_keeps (keeps_ofExcept _) hn
    SameCalls _ m₂ := sameCalls_of_keeps (keeps_mapM hread _) hvs
    SameCalls _ m₃ := sameCalls_of_keeps (keeps_note fun _ => rfl) hmod
    SameCalls _ m₄ := hback

theorem ofWord?_of_call (h : w ∈ ["ERA", "GoSub", "RETURN", "EndFunc"]) :
    Operator.ofWord? w = none := by
  simp only [List.mem_cons, List.not_mem_nil, or_false] at h
  rcases h with rfl | rfl | rfl | rfl <;> decide

/-- A quad that is no quad of a call and only works on memory. -/
theorem callStep_of_keeps {x : Exec Unit} {next : Flow} (hq : q.headD "" = w)
    (hx : Keeps SameCalls x) (hw : w ∉ ["ERA", "GoSub", "RETURN", "EndFunc"])
    (h : (do x; return next).run m = (.ok flow, m')) : CallStep m q m' :=
  .plain (hq ▸ hw) (sameCalls_of_keeps (keeps_bind hx fun _ => keeps_pure _) h)

/-- What a quad does to calls and frames. -/
theorem perform_calls (h : (perform m.place q).run m = (.ok flow, m')) : CallStep m q m' := by
  unfold perform at h
  dsimp only at h
  split at h
  · next op hop =>
    refine .plain ?_
      (sameCalls_of_keeps (keeps_bind (keeps_operate _ _ _ _) fun _ => keeps_pure _) h)
    intro hw
    rw [ofWord?_of_call hw] at hop
    cases hop
  · split at h
    · next hw => exact callStep_of_keeps hw (keeps_assign _ _) (by decide) h
    · next hw => exact callStep_of_keeps hw (keeps_determinant _ _) (by decide) h
    · next hw => exact callStep_of_keeps hw (keeps_transpose _ _) (by decide) h
    · next hw => exact callStep_of_keeps hw (keeps_invert _ _) (by decide) h
    · next hw => exact callStep_of_keeps hw (keeps_setExtents _ _) (by decide) h
    · next hw => exact callStep_of_keeps hw (keeps_multiply _ _) (by decide) h
    · next hw => exact callStep_of_keeps hw (keeps_setProductExtents _ _) (by decide) h
    · next hw => exact .plain (by rw [hw]; decide) (sameCalls_of_keeps (keeps_goTo _ _) h)
    · next hw => exact .plain (by rw [hw]; decide) (sameCalls_of_keeps (keeps_goToIfFalse _ _) h)
    · next hw => exact callStep_of_keeps hw (keeps_printField _ _) (by decide) h
    · next hw => exact callStep_of_keeps hw (keeps_readField _ _) (by decide) h
    · next hw => exact callStep_of_keeps hw (keeps_verify _ _) (by decide) h
    · next hw => exact callStep_of_keeps hw (keeps_makePointer _ _) (by decide) h
    · next hw =>
      obtain ⟨_, m₁, h₁, h₂⟩ := bind_eq_ok h
      cases h₂
      obtain ⟨f, m₂, hf, hp, hs⟩ := prepare_calls h₁
      exact .prepare f m₂ hw hf hp hs
    · next hw => exact callStep_of_keeps hw (keeps_passArgument _ _) (by decide) h
    · next hw =>
      obtain ⟨ha, m₁, hb, hframes, hs⟩ := goSub_calls h
      exact .enter m₁ hw ha hb hframes hs
    · next hw =>
      obtain ⟨m₁, place, hs, hl⟩ := returnValues_calls h
      exact .leave m₁ m' place (.inl hw) hs hl (refl _)
    · next hw => exact callStep_of_keeps hw (keeps_takeReturned _ _) (by decide) h
    · next hw =>
      obtain ⟨m₁, place, hs, hl⟩ := comeback_calls h
      exact .leave m₁ m' place (.inr hw) hs hl (refl _)
    · next hw => exact callStep_of_keeps hw (keeps_say _ _) (by decide) h
    · refine .plain ?_ (sameCalls_of_keeps (keeps_bind (keeps_say _ _) fun _ => keeps_pure _) h)
      simp only [List.mem_cons, List.not_mem_nil, or_false]
      tauto

end Exec

namespace Machine

variable {m₁ : Machine}

/-- Where a run goes on after a quad; nowhere after the last one. -/
def goOn (m : Machine) : Flow → Option Machine
  | .after place => some { m with place := place + 1, extents := [1, 1] }
  | .keep place => some { m with place := place + 1 }
  | .jump place => some { m with place }
  | .stop => none

/-- A step does the next quad, and goes on as the quad says. -/
theorem next_eq_ok (h : m.Next m') :
    ∃ q flow m₁, m.quad? = some q ∧ (Exec.perform m.place q).run m = (.ok flow, m₁) ∧
      m₁.goOn flow = some m' := by
  obtain ⟨_, m₁, hg, h₁⟩ := bind_eq_ok h
  cases hg
  split at h₁
  · cases h₁
  · next q hq =>
    obtain ⟨flow, m₂, hp, h₂⟩ := bind_eq_ok h₁
    refine ⟨q, flow, m₂, hq, hp, ?_⟩
    split at h₂ <;> cases h₂ <;> rfl

theorem next_of_perform (hq : m.quad? = some q)
    (hp : (Exec.perform m.place q).run m = (.ok flow, m₁)) (hm : m₁.goOn flow = some m') :
    m.Next m' := by
  have hq' : ((rowIndex? m.quads.size m.place).bind fun i => m.quads[i]?) = some q := hq
  rw [Next, Exec.step, run_bind_ok (run_get m)]
  simp only [hq']
  rw [run_bind_ok hp]
  cases flow <;> cases hm <;> rfl

theorem step_of_perform_error {f : MachineFault} (hq : m.quad? = some q)
    (hp : (Exec.perform m.place q).run m = (.error f, m₁)) : Exec.step.run m = (.error f, m₁) := by
  have hq' : ((rowIndex? m.quads.size m.place).bind fun i => m.quads[i]?) = some q := hq
  rw [Exec.step, run_bind_ok (run_get m)]
  simp only [hq']
  exact run_bind_error hp

/-- All that a step can do to calls and frames. -/
theorem step_calls (h : m.Next m') :
    ∃ q, m.quad? = some q ∧ CallStep m q m' := by
  obtain ⟨q, flow, m₁, hq, hp, hm⟩ := next_eq_ok h
  have hc := Exec.perform_calls hp
  refine ⟨q, hq, ?_⟩
  cases flow with
  | stop => cases hm
  | after place | keep place | jump place => cases hm; exact hc.note _ _

end Machine

end QuadLang
