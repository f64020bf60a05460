/-
The frames that functions are entered with.

`ERA` makes the two frames of a call, and `GoSub` enters the frames made last.  So
they are those of the called function when no argument was a call itself, and those
of a call in an argument otherwise: with the size that the other function needs, and
with what it left in them.

* `prepared_of_preparing` — the frames that wait to be entered are those of the
  latest `ERA`;
* `unassigned_of_preparing` — nothing has touched them when that was the `ERA` of the
  call itself;
* `freshFrames_iff_of_preparing` — when the frames that `GoSub` enters have the size
  that the function needs, with no cell assigned but those of its arguments.
-/
import QuadLang.Proofs.Calls

namespace QuadLang

/-- The cell that an argument is stored in. -/
def Argument.spot? (x : Argument) (m : Machine) : Option Spot :=
  match (Value.text x.address).toInt with
  | .ok a => m.spot? (a + x.offset)
  | .error _ => none

/-! ### Storing the arguments -/

namespace Exec

open Machine

theorem bindArgument_eq_ok {m m' : Machine} {x : Argument} (hm : m.Standard)
    (hp : pointerText? x.address = none) (h : (bindArgument x).run m = (.ok (), m')) :
    m'.Standard ∧ (∀ a, m'.spot? a = m.spot? a) ∧
      ∀ s n, s.row = .frame n → ((m'.content s).isSome ↔ (m.content s).isSome ∨ x.spot? m = some s) := by
  obtain ⟨_, m₁, hnames, h₁⟩ := Steps.bind_eq_ok h
  cases hnames
  set m₁ : Machine := { m with
    names := m.names.put "p" (.tuple [x.value, .text x.address, .int x.offset]) } with hm₁
  replace h₁ : (store x.value x.address x.offset).run m₁ = (.ok (), m') := h₁
  rcases hs : m₁.store x.value (.text x.address) x.offset with ⟨m₂, f | r⟩ <;>
    simp only [store, ExceptT.run, hs] at h₁
  · cases h₁
  cases h₁
  have hstd : m₁.Standard := { hm with }
  have hspot : ∀ a, m₁.spot? a = m.spot? a := fun _ => rfl
  have hcontent : ∀ s, m₁.content s = m.content s := fun _ => rfl
  obtain ⟨a, ha, ⟨rfl, hout⟩ | ⟨s₀, hs₀, rfl⟩⟩ := store_eq_ok hstd hp hs
  · refine ⟨hstd, hspot, fun s n hn => ?_⟩
    rw [hcontent]
    -- A refused address leads to no frame.
    have hno : x.spot? m ≠ some s := by
      intro hx
      rw [Argument.spot?, ha] at hx
      rcases row_of_spot? hm hx with ⟨_, hr⟩ | ⟨h0, h1, _⟩ | ⟨h0, h1, _⟩ | ⟨_, hr⟩
      · rw [hn] at hr; cases hr
      · omega
      · omega
      · rw [hn] at hr; cases hr
    simp [hno]
  · refine ⟨?_, fun b => by rw [spot?_write, hspot], fun s n hn => ?_⟩
    · rw [write_eq]
      exact { hstd with }
    · have hx : x.spot? m = some s₀ := by rw [Argument.spot?, ha]; exact hs₀
      rw [content_write (index_lt_of_spot? hs₀), hcontent, hx]
      by_cases he : s = s₀
      · simp [he]
      · simp [he, Ne.symm he]

/-- Storing the arguments of a call assigns their cells, and no others of a frame. -/
theorem bindArguments_eq_ok {xs : List Argument} {m m' : Machine} (hm : m.Standard)
    (hp : ∀ x ∈ xs, pointerText? x.address = none)
    (h : (xs.forM bindArgument).run m = (.ok (), m')) :
    ∀ s n, s.row = .frame n →
      ((m'.content s).isSome ↔ (m.content s).isSome ∨ ∃ x ∈ xs, x.spot? m = some s) := by
  revert hm hp
  refine Steps.forM_eq_ok (R := fun xs m m' => m.Standard → (∀ x ∈ xs, pointerText? x.address = none) →
    ∀ s n, s.row = .frame n →
      ((m'.content s).isSome ↔ (m.content s).isSome ∨ ∃ x ∈ xs, x.spot? m = some s)) ?_ ?_ xs h
  · intro m _ _ s n _
    simp
  · intro x xs m m₁ m' hx ih hm hp s n hn
    obtain ⟨hm₁, hspot, hc⟩ := bindArgument_eq_ok hm (hp x (by simp)) hx
    have hsame : ∀ y : Argument, y.spot? m₁ = y.spot? m := by
      intro y
      simp only [Argument.spot?, hspot]
    rw [ih hm₁ (fun y hy => hp y (by simp [hy])) s n hn, hc s n hn]
    simp only [hsame, List.mem_cons, exists_eq_or_imp, or_assoc]

end Exec

namespace Machine

variable {m₀ l m m' : Machine} {s : Spot} {n : Nat}

/-! ### The frames in use -/

/-- The frames in use and those to be entered next have been made. -/
structure FramesExist (m : Machine) : Prop where
  locals : ∀ n ∈ m.locals, n < m.frames.size
  temps : ∀ n ∈ m.temps, n < m.frames.size
  nextLocals : m.nextLocals < m.frames.size
  nextTemps : m.nextTemps < m.frames.size

theorem FramesExist.congr (h : m.FramesExist) (hs : SameCalls m m') : m'.FramesExist where
  locals := by rw [hs.locals, hs.framesSize]; exact h.locals
  temps := by rw [hs.temps, hs.framesSize]; exact h.temps
  nextLocals := by rw [hs.nextLocals, hs.framesSize]; exact h.nextLocals
  nextTemps := by rw [hs.nextTemps, hs.framesSize]; exact h.nextTemps

/-- Every step keeps the frames in use. -/
theorem FramesExist.next (h : m.FramesExist) (hn : m.Next m') : m'.FramesExist := by
  obtain ⟨q, -, hstep⟩ := step_calls hn
  cases hstep with
  | plain _ hs => exact h.congr hs
  | prepare f m₁ _ _ hp hs =>
    obtain ⟨ls, ts, -, rfl⟩ := prepare_eq_ok hp
    refine FramesExist.congr ?_ hs
    exact {
      locals := fun n hn => by have := h.locals n hn; simp; omega
      temps := fun n hn => by have := h.temps n hn; simp; omega
      nextLocals := by simp only [Array.size_push]; omega
      nextTemps := by simp only [Array.size_push]; omega }
  | enter m₁ _ _ h₁ _ hs =>
    have hk := Exec.sameCalls_of_keeps (keeps_forM Exec.keeps_bindArgument _) h₁
    refine (FramesExist.congr ?_ hk).congr hs
    exact { h with
      locals := List.forall_mem_cons.mpr ⟨h.nextLocals, h.locals⟩
      temps := List.forall_mem_cons.mpr ⟨h.nextTemps, h.temps⟩ }
  | leave m₁ m₂ place _ h₁ h₂ hs =>
    have h₁ := h.congr h₁
    obtain ⟨l, t, lo, po, c, hl, ht, -, -, -, heq⟩ := leave_eq_ok h₂
    refine FramesExist.congr ?_ hs
    exact {
      locals := fun n hn => by rw [heq]; exact h₁.locals n (by rw [hl]; simp [hn])
      temps := fun n hn => by rw [heq]; exact h₁.temps n (by rw [ht]; simp [hn])
      nextLocals := by rw [heq]; exact h₁.nextLocals
      nextTemps := by rw [heq]; exact h₁.nextTemps }

/-- A program is loaded with the frames of its main part. -/
theorem framesExist_load {debug : Bool} {object input : String} {printed : List String}
    (h : Machine.load debug object input = (printed, .ok m)) : m.FramesExist := by
  rw [load] at h
  rcases hl : Load.machine.run { debug, lines := Text.splitBy '\n' object, printed := [] }
    with ⟨r, s⟩
  rw [hl] at h
  cases r with
  | error f => cases h
  | ok m₁ =>
    cases h
    -- Whatever the sections of the object text hold, the frames come last.
    rw [Load.machine] at hl
    iterate 18 obtain ⟨_, _, -, hl⟩ := Steps.bind_eq_ok hl
    cases hl
    exact ⟨by simp, by simp, by simp, by simp⟩

/-! ### The frames that wait to be entered -/

/-- The frames to be entered next have cells for `ls` and `ts`. -/
structure Waiting (m : Machine) (ls ts : List Int) : Prop where
  locals : (m.frame m.nextLocals).size = ls.sum.toNat
  temps : (m.frame m.nextTemps).size = ts.sum.toNat

variable {ls ts : List Int}

theorem Waiting.congr (h : m.Waiting ls ts) (hl : m'.nextLocals = m.nextLocals)
    (ht : m'.nextTemps = m.nextTemps) (hs : ∀ n, (m'.frame n).size = (m.frame n).size) :
    m'.Waiting ls ts where
  locals := by rw [hs, hl]; exact h.locals
  temps := by rw [hs, ht]; exact h.temps

/-- The frames that an `ERA` makes: new ones, with no cell assigned. -/
theorem prepare_frames {f : String} (h : m.prepare f = .ok m') :
    ∃ ls ts, m.eras.get? f = some (ls, ts) ∧ m'.frame m'.nextLocals = .empty ls.sum ∧
      m'.frame m'.nextTemps = .empty ts.sum := by
  obtain ⟨ls, ts, he, rfl⟩ := prepare_eq_ok h
  refine ⟨ls, ts, he, ?_, ?_⟩
  · simp [frame, Array.getElem_push]
  · simp [frame, Array.getElem_push]

theorem waiting_of_era (hq : m.Does "ERA") (hn : m.Next m') :
    m'.eras = m.eras ∧ ∃ q f ls ts, m.quad? = some q ∧ q[3]? = some f ∧
      m.eras.get? f = some (ls, ts) ∧ m'.Waiting ls ts := by
  obtain ⟨q, f, m₁, hquad, hf, hp, hs⟩ := era_eq_ok hq hn
  obtain ⟨ls, ts, he, hl, ht⟩ := prepare_frames hp
  have heras : m₁.eras = m.eras := by
    obtain ⟨_, _, _, rfl⟩ := prepare_eq_ok hp
    rfl
  have hw : m₁.Waiting ls ts := ⟨by rw [hl]; simp [Frame.empty], by rw [ht]; simp [Frame.empty]⟩
  exact ⟨hs.eras.trans heras, q, f, ls, ts, hquad, hf, he,
    hw.congr hs.nextLocals hs.nextTemps hs.frameSize⟩

/-- Only `ERA` changes which frames wait, and nothing changes their size. -/
theorem Waiting.next (h : m.Waiting ls ts) (hq : ¬ m.Does "ERA") (hn : m.Next m') :
    m'.eras = m.eras ∧ m'.Waiting ls ts := by
  obtain ⟨q, hquad, hstep⟩ := step_calls hn
  cases hstep with
  | plain _ hs => exact ⟨hs.eras, h.congr hs.nextLocals hs.nextTemps hs.frameSize⟩
  | prepare _ _ hw => exact absurd ⟨q, hquad, hw⟩ hq
  | enter m₁ _ _ h₁ _ hs =>
    have hk := Exec.sameCalls_of_keeps (keeps_forM Exec.keeps_bindArgument _) h₁
    have hs : SameCalls m.entered m' := IsTrans.trans _ _ _ hk hs
    exact ⟨hs.eras, h.congr hs.nextLocals hs.nextTemps hs.frameSize⟩
  | leave m₁ m₂ place _ h₁ h₂ hs =>
    obtain ⟨_, _, _, _, _, _, _, _, _, _, heq⟩ := leave_eq_ok h₂
    have h₁ : m₂.eras = m.eras ∧ m₂.Waiting ls ts := by
      rw [heq]
      exact ⟨h₁.eras, h.congr h₁.nextLocals h₁.nextTemps h₁.frameSize⟩
    exact ⟨hs.eras.trans h₁.1, h₁.2.congr hs.nextLocals hs.nextTemps hs.frameSize⟩

theorem prepared_of_preparing (h : Preparing m₀ l m) :
    m.eras = m₀.eras ∧ ∃ q g ls ts, l.quad? = some q ∧ q[3]? = some g ∧
      m₀.eras.get? g = some (ls, ts) ∧ m.Waiting ls ts := by
  induction h with
  | era hq hn => exact waiting_of_era hq hn
  | again h hq hn _ _ ih =>
    obtain ⟨heras, -⟩ := ih
    obtain ⟨heras', q, g, ls, ts, hquad, hg, he, hw⟩ := waiting_of_era hq hn
    exact ⟨heras'.trans heras, q, g, ls, ts, hquad, hg, heras ▸ he, hw⟩
  | next h hq hn _ _ ih =>
    obtain ⟨heras, q, g, ls, ts, hquad, hg, he, hw⟩ := ih
    obtain ⟨heras', hw'⟩ := hw.next hq hn
    exact ⟨heras'.trans heras, q, g, ls, ts, hquad, hg, he, hw'⟩

theorem Preparing.pending (h : Preparing m₀ l m) : m₀.arguments.length < m.arguments.length := by
  cases h with
  | era hq hn =>
    obtain ⟨q, f, m₁, -, -, hp, hs⟩ := era_eq_ok hq hn
    obtain ⟨ls, ts, -, rfl⟩ := prepare_eq_ok hp
    rw [hs.pending]
    simp
  | again _ _ _ _ ha => exact ha
  | next _ _ _ _ ha => exact ha

/-- Without another `ERA`, plain quads are all that happens while a call is prepared. -/
theorem sameCalls_of_preparing (h : Preparing m₀ l m) (hl : l = m₀) :
    ∃ f m₁, m₀.prepare f = .ok m₁ ∧ SameCalls m₁ m := by
  induction h with
  | era hq hn =>
    obtain ⟨q, f, m₁, -, -, hp, hs⟩ := era_eq_ok hq hn
    exact ⟨f, m₁, hp, hs⟩
  | again h _ _ _ _ _ =>
    subst hl
    exact absurd h.pending (lt_irrefl _)
  | @next l m m' h hq hn hc ha ih =>
    obtain ⟨f, m₁, hp, hs⟩ := ih hl
    refine ⟨f, m₁, hp, ?_⟩
    obtain ⟨ls, ts, -, hm₁⟩ := prepare_eq_ok hp
    obtain ⟨q, hquad, hstep⟩ := step_calls hn
    cases hstep with
    | plain _ hs' => exact IsTrans.trans _ _ _ hs hs'
    | prepare _ _ hw => exact absurd ⟨q, hquad, hw⟩ hq
    | enter m₂ _ hargs h₂ _ hs' =>
      -- Entering takes the call out of preparation.
      have hk := Exec.sameCalls_of_keeps (keeps_forM Exec.keeps_bindArgument _) h₂
      rw [hs'.pending, hk.pending] at ha
      have hp := hs.pending
      rw [hm₁] at hp
      simp [Machine.entered, enter] at ha hp
      omega
    | leave m₂ m₃ place _ h₂ h₃ hs' =>
      -- Leaving closes the function that prepares the call.
      obtain ⟨_, _, _, _, _, _, _, _, _, hcalls, _⟩ := leave_eq_ok h₃
      have hlen := congrArg List.length hcalls
      rw [h₂.calls, hs.calls, hm₁] at hlen
      rw [hs'.calls] at hc
      simp at hlen
      omega

/-- Until the call is entered, no cell of its frames is assigned, when the `ERA` of the
call is the latest. -/
theorem unassigned_of_preparing (hm : m₀.FramesExist) (h : Preparing m₀ m₀ m)
    (hs : s.row = .frame m.nextLocals ∨ s.row = .frame m.nextTemps) : m.content s = none := by
  obtain ⟨f, m₁, hp, hsame⟩ := sameCalls_of_preparing h rfl
  obtain ⟨ls, ts, -, hl, ht⟩ := prepare_frames hp
  have hempty : ∀ (size : Int) (k : Nat), ((Frame.empty size)[k]?).join = none := by
    intro size k
    simp only [Frame.empty, Array.getElem?_replicate]
    split <;> rfl
  -- The new frames are not among those in use, which plain quads can change.
  have hnew : m₁.nextLocals = m₀.frames.size ∧ m₁.nextTemps = m₀.frames.size + 1 ∧
      m₁.locals = m₀.locals ∧ m₁.temps = m₀.temps := by
    obtain ⟨_, _, -, rfl⟩ := prepare_eq_ok hp
    exact ⟨rfl, rfl, rfl, rfl⟩
  have hframe : ∀ n, m₀.frames.size ≤ n → m.frame n = m₁.frame n := by
    intro n hn
    refine hsame.frame n (fun hh => ?_) (fun hh => ?_)
    · rw [hnew.2.2.1] at hh
      exact absurd (hm.locals n (List.mem_of_mem_head? hh)) (by omega)
    · rw [hnew.2.2.2] at hh
      exact absurd (hm.temps n (List.mem_of_mem_head? hh)) (by omega)
  obtain ⟨r, k⟩ := s
  rcases hs with hs | hs
  · rw [show r = _ from hs, content, row, hsame.nextLocals, hframe _ (by omega), hl]
    exact hempty _ _
  · rw [show r = _ from hs, content, row, hsame.nextTemps, hframe _ (by omega), ht]
    exact hempty _ _

theorem not_does {q : List String} {word : String} (hq : m.quad? = some q)
    (hw : q.headD "" ≠ word) : ¬ m.Does word := by
  rintro ⟨q', hq', hw'⟩
  rw [hq] at hq'
  cases hq'
  exact hw hw'

/-! ### The frames that are entered -/

/-- The cells of frames that an address leads to are the same as long as the calls are. -/
theorem spot?_of_sameCalls (h : SameCalls m m') (hs : s.row = .frame n) (a : Int) :
    m'.spot? a = some s ↔ m.spot? a = some s := by
  have hplace : m'.placeOf a = m.placeOf a := by
    simp only [placeOf, h.globalBounds, h.localBounds, h.tempBounds, h.constantBounds, h.locals,
      h.temps, h.localOffsets, h.tempOffsets]
  have hrow : ∀ p, m'.rowOf? p = m.rowOf? p := by
    intro p
    cases p <;> simp only [rowOf?, h.locals, h.temps]
  have hspot : ∀ p, m'.spotAt? p = some s ↔ m.spotAt? p = some s := by
    intro p
    rw [spotAt?, spotAt?, hrow]
    rcases m.rowOf? p with _ | ⟨r, i⟩
    · rfl
    · cases r with
      | frame n' => simp only [Option.bind_some, row, h.frameSize]
      | globals | constants =>
        constructor <;> (intro hk; obtain ⟨_, -, rfl⟩ := Option.map_eq_some_iff.mp hk; cases hs)
  rw [spot?, spot?, hplace]
  cases m.placeOf a with
  | error e => simp
  | ok p => exact hspot p

theorem argumentSpot?_of_sameCalls (h : SameCalls m m') (hs : s.row = .frame n) (x : Argument) :
    x.spot? m' = some s ↔ x.spot? m = some s := by
  rw [Argument.spot?, Argument.spot?]
  cases (Value.text x.address).toInt with
  | error e => simp
  | ok a => exact spot?_of_sameCalls h hs _

/-- The frames on top have the cells of `ls` and `ts`, and none of these is assigned but
those of the arguments `xs`. -/
structure FreshFrames (m : Machine) (ls ts : List Int) (xs : List Argument) : Prop where
  locals : ∃ n, m.locals.head? = some n ∧ (m.frame n).size = ls.sum.toNat
  temps : ∃ n, m.temps.head? = some n ∧ (m.frame n).size = ts.sum.toNat
  assigned : ∀ s n, s.row = .frame n → m.locals.head? = some n ∨ m.temps.head? = some n →
    (m.content s).isSome → ∃ x ∈ xs, x.spot? m = some s

/-- What `GoSub` enters: the frames that wait, with the arguments in them. -/
theorem entered_of_goSub (hm : m.Standard) (hq : m.Does "GoSub") (hn : m.Next m')
    (hp : ∀ x ∈ m.arguments.headD [], pointerText? x.address = none) :
    m'.locals = m.nextLocals :: m.locals ∧ m'.temps = m.nextTemps :: m.temps ∧
    m'.calls.length = m.calls.length + 1 ∧ m'.arguments.length = m.arguments.length - 1 ∧
    (∀ n, (m'.frame n).size = (m.frame n).size) ∧
    ∀ s n, s.row = .frame n → ((m'.content s).isSome ↔
      (m.content s).isSome ∨ ∃ x ∈ m.arguments.headD [], x.spot? m' = some s) := by
  obtain ⟨m₁, h₁, hframes, hs⟩ := goSub_eq_ok hq hn
  have hcalls : m'.calls.length = m.calls.length + 1 := by rw [hs.calls]; rfl
  have hargs : m'.arguments.length = m.arguments.length - 1 := by
    rw [hs.pending]
    exact List.length_tail
  refine ⟨hs.locals, hs.temps, hcalls, hargs, hs.frameSize, fun s n hn => ?_⟩
  have hstd : m.entered.Standard :=
    { hm with }
  have hbound := Exec.bindArguments_eq_ok hstd hp h₁ s n hn
  have hcontent : m'.content s = m₁.content s := by
    rw [content, content, hn, row, row, frame, frame, hframes]
  rw [hcontent, hbound]
  simp only [argumentSpot?_of_sameCalls hs hn]
  rfl

/-- The frames that a call is entered with are fresh and of its own size exactly when the
function prepared last needs as many cells as the called one, and has left no cell
assigned but those of the arguments.  So they are when no argument was a call. -/
theorem freshFrames_iff_of_preparing (hm : m₀.Standard) (hf : m₀.FramesExist)
    (h : Preparing m₀ l m) (hc : m.calls.length = m₀.calls.length)
    (ha : m.arguments.length = m₀.arguments.length + 1) (hq : m.Does "GoSub") (hn : m.Next m')
    (hp : ∀ x ∈ m.arguments.headD [], pointerText? x.address = none) :
    ∃ f ls ts g gls gts, (∃ q, m₀.quad? = some q ∧ q[3]? = some f) ∧
      m₀.eras.get? f = some (ls, ts) ∧ (∃ q, l.quad? = some q ∧ q[3]? = some g) ∧
      m₀.eras.get? g = some (gls, gts) ∧
      m'.locals = m.nextLocals :: m₀.locals ∧ m'.temps = m.nextTemps :: m₀.temps ∧
      m'.calls.length = m₀.calls.length + 1 ∧ m'.arguments.length = m₀.arguments.length ∧
      (FreshFrames m' ls ts (m.arguments.headD []) ↔
        gls.sum.toNat = ls.sum.toNat ∧ gts.sum.toNat = ts.sum.toNat ∧
        ∀ s, s.row = .frame m.nextLocals ∨ s.row = .frame m.nextTemps →
          (m.content s).isSome → ∃ x ∈ m.arguments.headD [], x.spot? m' = some s) ∧
      (l = m₀ → FreshFrames m' ls ts (m.arguments.headD [])) := by
  obtain ⟨q, f, ls, ts, hquad, hfun, he, habove⟩ := above_of_preparing h
  obtain ⟨-, q', g, gls, gts, hquad', hg, hge, hw⟩ := prepared_of_preparing h
  obtain ⟨hlocals, htemps⟩ := habove.frames_eq hc
  obtain ⟨hl, ht, hcalls, hargs, hsize, hassigned⟩ := entered_of_goSub (habove.standard hm) hq hn hp
  rw [hlocals] at hl
  rw [htemps] at ht
  have hiff : FreshFrames m' ls ts (m.arguments.headD []) ↔
      gls.sum.toNat = ls.sum.toNat ∧ gts.sum.toNat = ts.sum.toNat ∧
      ∀ s, s.row = .frame m.nextLocals ∨ s.row = .frame m.nextTemps →
        (m.content s).isSome → ∃ x ∈ m.arguments.headD [], x.spot? m' = some s := by
    constructor
    · rintro ⟨⟨n, hn, hns⟩, ⟨k, hk, hks⟩, hcells⟩
      rw [hl] at hn
      rw [ht] at hk
      cases hn
      cases hk
      rw [hsize, hw.locals] at hns
      rw [hsize, hw.temps] at hks
      refine ⟨hns, hks, ?_⟩
      rintro s (hs | hs) hsome
      · exact hcells s _ hs (.inl (by rw [hl]; rfl)) ((hassigned s _ hs).mpr (.inl hsome))
      · exact hcells s _ hs (.inr (by rw [ht]; rfl)) ((hassigned s _ hs).mpr (.inl hsome))
    · rintro ⟨hls, hts, hcells⟩
      refine ⟨⟨_, by rw [hl]; rfl, ?_⟩, ⟨_, by rw [ht]; rfl, ?_⟩, ?_⟩
      · rw [hsize, hw.locals, hls]
      · rw [hsize, hw.temps, hts]
      · intro s n hs htop hsome
        rw [hl, ht] at htop
        rcases (hassigned s n hs).mp hsome with hold | hnew
        · refine hcells s ?_ hold
          rcases htop with htop | htop
          · cases htop; exact .inl hs
          · cases htop; exact .inr hs
        · exact hnew
  refine ⟨f, ls, ts, g, gls, gts, ⟨q, hquad, hfun⟩, he, ⟨q', hquad', hg⟩, hge, hl, ht,
    by omega, by omega, hiff, ?_⟩
  rintro rfl
  rw [hquad] at hquad'
  cases hquad'
  rw [hfun] at hg
  cases hg
  rw [he] at hge
  cases hge
  refine hiff.mpr ⟨rfl, rfl, fun s hs hsome => ?_⟩
  rw [unassigned_of_preparing hf h hs] at hsome
  cases hsome

/-- A call of `f`, which needs two cells, with a call of `g`, which needs one, in its
argument. -/
def nestedCall : Machine :=
  { blank with
    frames := #[#[], #[], #[], #[]]
    locals := [0]
    temps := [1]
    localOffsets := [[0, 0, 0, 0]]
    tempOffsets := [[0, 0, 0, 0]]
    nextLocals := 2
    nextTemps := 3
    eras := [("f", ([2, 0, 0, 0], [0, 0, 0, 0])), ("g", ([1, 0, 0, 0], [0, 0, 0, 0]))]
    quads := #[["ERA", "None", "None", "f"], ["ERA", "None", "None", "g"],
      ["GoSub", "None", "None", "4"], ["GoSub", "None", "None", "5"],
      ["EndFunc", "None", "None", "None"]] }

/-- The frames of `g` are entered for `f`, which has no room in them. -/
theorem not_freshFrames_nestedCall : ∃ l m m', Preparing nestedCall l m ∧ m.Does "GoSub" ∧
    m.Next m' ∧ ¬ FreshFrames m' [2, 0, 0, 0] [0, 0, 0, 0] [] := by
  let m₁ : Machine := { nestedCall with
    frames := #[#[], #[], #[], #[], #[none, none], #[]], nextLocals := 4, nextTemps := 5
    localOffsets := [[0, 2, 2, 2], [0, 0, 0, 0]], tempOffsets := [[0, 0, 0, 0], [0, 0, 0, 0]]
    arguments := [[]], place := 1 }
  let m₂ : Machine := { m₁ with
    frames := #[#[], #[], #[], #[], #[none, none], #[], #[none], #[]]
    nextLocals := 6, nextTemps := 7, localOffsets := [0, 1, 1, 1] :: m₁.localOffsets
    tempOffsets := [0, 0, 0, 0] :: m₁.tempOffsets, arguments := [[], []], place := 2 }
  let m₃ : Machine := { m₂ with
    locals := [6, 0], temps := [7, 1], calls := [2], arguments := [[]], place := 4 }
  let m₄ : Machine := { m₂ with
    localOffsets := m₁.localOffsets, tempOffsets := m₁.tempOffsets, arguments := [[]], place := 3 }
  let m₅ : Machine := { m₄ with
    locals := [6, 0], temps := [7, 1], calls := [3], arguments := [], place := 5 }
  have h₁ : Preparing nestedCall nestedCall m₁ := .era ⟨_, rfl, rfl⟩ rfl
  have h₂ : Preparing nestedCall m₁ m₂ := h₁.again ⟨_, rfl, rfl⟩ rfl (by decide) (by decide)
  have h₃ : Preparing nestedCall m₁ m₃ :=
    h₂.next (not_does rfl (by decide)) rfl (by decide) (by decide)
  have h₄ : Preparing nestedCall m₁ m₄ :=
    h₃.next (not_does rfl (by decide)) rfl (by decide) (by decide)
  have hq : m₄.Does "GoSub" := ⟨_, rfl, rfl⟩
  have hn : m₄.Next m₅ := rfl
  refine ⟨_, _, _, h₄, hq, hn, ?_⟩
  obtain ⟨f, ls, ts, g, gls, gts, ⟨q, hquad, hf⟩, he, ⟨q', hquad', hg⟩, hge, -, -, -, -, hiff, -⟩ :=
    freshFrames_iff_of_preparing ⟨rfl, rfl, rfl, rfl⟩
      ⟨by decide, by decide, by decide, by decide⟩ h₄ rfl rfl hq hn (by decide)
  cases hquad
  cases hf
  cases he
  cases hquad'
  cases hg
  cases hge
  intro hfresh
  exact absurd (hiff.mp hfresh).1 (by decide)

end Machine

end QuadLang
