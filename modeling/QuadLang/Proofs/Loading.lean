/-
Loading an object text.

A section is read up to the line that ends it, and its rows are used one after the other.  This file
runs the loader on sections of rows, and looks at what it can have loaded from any text.

* `Load.run_each` — a section of rows that can be told from its last line;
* `Load.run_machine` — loading four sections of rows;
* `Machine.load_plain` — a text in a field or in a constant of a loaded program has no tab and no
  carriage return.
-/
import QuadLang.Proofs.Lines
import QuadLang.Machine.Object

namespace QuadLang

open Steps Segment

variable {f : Frame} {ks : List Constant} {last : String} {rest : List String}

/-- Numbers that are written and read again. -/
theorem toNumbers_map_toString {xs : List Int} (h : ∀ i ∈ xs, Number.Short i) :
    toNumbers (xs.map toString) = .ok xs := by
  induction xs with
  | nil => rfl
  | cons i xs ih =>
    obtain ⟨hi, hxs⟩ := List.forall_mem_cons.mp h
    have hrest : (xs.map toString).mapM (fun s => (Value.text s).toInt) = .ok xs := ih hxs
    rw [toNumbers, List.map_cons, List.mapM_cons, Value.toInt_text_toString hi, hrest]
    rfl

namespace Load

variable {α : Type} {s s' : Loading} (message : String) {fields : List String}
  {rows : List (List String)} {start : α} {use : α → List String → Load α}
  {t : Table (List Int × List Int)} {x : Load α}

/-! ### Runs -/

theorem run_say (s : Loading) :
    ∃ printed, (say message).run s = (.ok (), { s with printed := printed }) := by
  rw [show (say message).run s = (.ok (), if s.debug then
    { s with printed := debugLine "Init" message :: s.printed } else s) from rfl]
  split
  · exact ⟨_, rfl⟩
  · exact ⟨s.printed, rfl⟩

/-- What a message is said before. -/
theorem exists_say_bind {P : α → Prop} {message : String} {f : Unit → Load α}
    (h : ∀ printed, ∃ a s', (f ()).run { s with printed := printed } = (.ok a, s') ∧ P a) :
    ∃ a s', (say message >>= f).run s = (.ok a, s') ∧ P a := by
  obtain ⟨printed, hsay⟩ := run_say message s
  rw [run_bind_ok hsay]
  exact h printed

theorem run_line {l : String} (h : s.lines = l :: rest) :
    line.run s = (.ok l, { s with lines := rest }) := by
  rw [line, run_bind_ok (run_get s)]
  simp only [h]
  rfl

theorem run_expect {text : String} (h : s.lines = text :: rest) :
    (expect text).run s = (.ok (), { s with lines := rest }) := by
  rw [expect, run_bind_ok (run_line h), if_neg (by simp)]
  rfl

theorem run_bounds {xs : List Int} (hne : xs ≠ []) (hxs : ∀ i ∈ xs, Number.Short i)
    (h : s.lines = Text.join "\t" (xs.map toString) :: rest) :
    bounds.run s = (.ok xs, { s with lines := rest }) := by
  have hfields : Text.splitBy '\t' (Text.join "\t" (xs.map toString)) = xs.map toString := by
    refine Text.splitBy_join (by simpa using hne) fun p hp hmem => ?_
    obtain ⟨i, -, rfl⟩ := List.mem_map.mp hp
    exact (clean_toString i _ hmem).2.1 rfl
  rw [bounds, run_bind_ok (run_line h), hfields, toNumbers_map_toString hxs]
  rfl

theorem run_body {mine : List String} (hmine : last ∉ mine) (h : s.lines = mine ++ last :: rest) :
    (body last).run s = (.ok (mine, true), { s with lines := rest }) := by
  have hspan : s.lines.span (· != last) = (mine, last :: rest) := by
    have hall : ∀ l ∈ mine, (l != last) = true := fun l hl =>
      bne_iff_ne.mpr fun heq => hmine (heq ▸ hl)
    rw [h, List.span_eq_takeWhile_dropWhile, List.takeWhile_append_of_pos hall,
      List.dropWhile_append_of_pos hall, List.takeWhile_cons_of_neg (by simp),
      List.dropWhile_cons_of_neg (by simp), List.append_nil]
  rw [body, run_bind_ok (run_get s), hspan]
  rfl

/-- A row that can be told from the lines that end sections: it has at least two fields, and none
of them has a tab. -/
def Row (fields : List String) : Prop := 2 ≤ fields.length ∧ ∀ f ∈ fields, '\t' ∉ f.toList

theorem Row.splitBy (h : Row fields) : Text.splitBy '\t' (Text.join "\t" fields) = fields :=
  Text.splitBy_join (fun heq => by simp [heq, Row] at h) h.2

theorem Row.mem_join (h : Row fields) : '\t' ∈ (Text.join "\t" fields).toList := by
  obtain _ | ⟨f, _ | ⟨g, fields⟩⟩ := fields
  · exact absurd h.1 (by simp)
  · exact absurd h.1 (by simp)
  · rw [Text.join, String.toList_intercalate, List.map_cons, List.map_cons, List.intercalate_cons_cons]
    simp

theorem foldlM_rows (h : ∀ row ∈ rows, Row row) (start : α) (use : α → List String → Load α) :
    (rows.map (Text.join "\t")).foldlM (fun acc l => use acc (Text.splitBy '\t' l)) start
      = rows.foldlM use start := by
  rw [List.foldlM_map]
  induction rows generalizing start with
  | nil => rfl
  | cons row rows ih =>
    obtain ⟨hrow, hrows⟩ := List.forall_mem_cons.mp h
    simp only [List.foldlM_cons, hrow.splitBy, ih hrows]

/-- A section of rows is read to its end, and the rows are used in order. -/
theorem run_each {result : α} (hrows : ∀ row ∈ rows, Row row) (hlast : '\t' ∉ last.toList)
    (h : s.lines = rows.map (Text.join "\t") ++ last :: rest)
    (hrun : (rows.foldlM use start).run { s with lines := rest } = (.ok result, s')) :
    (each last start use).run s = (.ok result, s') := by
  -- The line that ends the section has no tab, so it is none of the rows.
  have hmine : last ∉ rows.map (Text.join "\t") := by
    intro hmem
    obtain ⟨row, hrow, rfl⟩ := List.mem_map.mp hmem
    exact hlast (hrows row hrow).mem_join
  rw [each, run_bind_ok (run_body hmine h)]
  dsimp only
  rw [foldlM_rows hrows, run_bind_ok hrun]
  rfl

/-! ### The sections -/

/-- The place of a constant. -/
def indexOf (k : Constant) : Nat := (k.address - 31000).toNat

def cellOf (k : Constant) : Cell := { value := .text k.value.plainText, type := .ofName k.type.name }

def rowOf (k : Constant) : List String := [k.value.plainText, k.type.name, toString k.address]

/-- Constants one after the other, each in its place. -/
def placeAll (ks : List Constant) (f : Frame) : Frame :=
  ks.foldl (fun f k => f.setIfInBounds (indexOf k) (some (cellOf k))) f

theorem size_placeAll (ks : List Constant) (f : Frame) : (placeAll ks f).size = f.size := by
  induction ks generalizing f with
  | nil => rfl
  | cons k ks ih => exact (ih _).trans Array.size_setIfInBounds

/-- What is in a place after that: the constant that belongs there, or what was there before. -/
theorem getElem?_placeAll (hks : ks.Pairwise fun k l => indexOf k ≠ indexOf l) (f : Frame) (i : Nat)
    (hi : i < f.size) :
    (∃ k ∈ ks, indexOf k = i ∧ (placeAll ks f)[i]? = some (some (cellOf k))) ∨
      (∀ k ∈ ks, indexOf k ≠ i) ∧ (placeAll ks f)[i]? = f[i]? := by
  induction ks generalizing f with
  | nil => exact .inr ⟨fun _ h => absurd h List.not_mem_nil, rfl⟩
  | cons k ks ih =>
    obtain ⟨hk, hks⟩ := List.pairwise_cons.mp hks
    have hset : placeAll (k :: ks) f = placeAll ks (f.setIfInBounds (indexOf k) (some (cellOf k))) := rfl
    rw [hset]
    rcases ih hks (f.setIfInBounds (indexOf k) (some (cellOf k))) (by rwa [Array.size_setIfInBounds]) with
      ⟨l, hl, hli, hget⟩ | ⟨hnone, hget⟩
    · exact .inl ⟨l, List.mem_cons_of_mem k hl, hli, hget⟩
    · by_cases hki : indexOf k = i
      · refine .inl ⟨k, List.mem_cons_self, hki, ?_⟩
        rw [hget, hki, Array.getElem?_setIfInBounds_self_of_lt hi]
      · refine .inr ⟨List.forall_mem_cons.mpr ⟨hki, hnone⟩, ?_⟩
        rw [hget, Array.getElem?_setIfInBounds_ne hki]

theorem run_constant {k : Constant} (hk : 31000 ≤ k.address ∧ k.address < 38000)
    (hf : f.size = 7000) (s : Loading) : ∃ printed,
      (constant Segment.constant.bounds f (rowOf k)).run s =
        (.ok (f.setIfInBounds (indexOf k) (some (cellOf k))), { s with printed := printed }) := by
  have hshort : Number.Short k.address := Number.short_of_natAbs_lt (by omega)
  obtain ⟨printed, hsay⟩ := run_say (k.value.plainText ++ " -> (" ++ toString k.address ++ ")") s
  have hindex : rowIndex? f.size (k.address - Bounds.at_ Segment.constant.bounds 0) = some (indexOf k) := by
    have hnonneg : ¬ k.address - 31000 < 0 := by omega
    have hinside : (decide (0 ≤ k.address - 31000) && decide (k.address - 31000 < (7000 : Nat))) = true := by
      simp only [Bool.and_eq_true, decide_eq_true_eq]
      omega
    rw [show Bounds.at_ Segment.constant.bounds 0 = 31000 from rfl, hf, rowIndex?]
    simp only [if_neg hnonneg, if_pos hinside, indexOf]
  have hread : (liftM ((Value.text (toString k.address)).toInt) : Load Int).run s = (.ok k.address, s) := by
    rw [Value.toInt_text_toString hshort]
    rfl
  refine ⟨printed, ?_⟩
  rw [rowOf, constant, run_bind_ok hread, hindex]
  dsimp only
  rw [run_bind_ok hsay]
  rfl

theorem run_constants (hks : ∀ k ∈ ks, 31000 ≤ k.address ∧ k.address < 38000) (hf : f.size = 7000)
    (s : Loading) : ∃ printed,
      ((ks.map rowOf).foldlM (constant Segment.constant.bounds) f).run s =
        (.ok (placeAll ks f), { s with printed := printed }) := by
  induction ks generalizing f s with
  | nil => exact ⟨s.printed, rfl⟩
  | cons k ks ih =>
    obtain ⟨hk, hks⟩ := List.forall_mem_cons.mp hks
    obtain ⟨printed, hone⟩ := run_constant hk hf s
    obtain ⟨printed', hrest⟩ := ih hks (f := f.setIfInBounds (indexOf k) (some (cellOf k)))
      (by rwa [Array.size_setIfInBounds]) { s with printed := printed }
    exact ⟨printed', by rw [List.map_cons, List.foldlM_cons, Steps.run_bind_ok hone, hrest]; rfl⟩

/-- What a function needs: its name, and four numbers twice. -/
structure Need where
  name : String
  locals : List Int
  temps : List Int

namespace Need

/-- The entry for a function. -/
def entry (n : Need) : String × List Int × List Int := (n.name, n.locals, n.temps)

/-- The row of a function. -/
def row (n : Need) : List String := n.name :: (n.locals.map toString ++ n.temps.map toString)

/-- There are four numbers twice, and all can be read. -/
structure Fits (n : Need) : Prop where
  locals : n.locals.length = 4
  temps : n.temps.length = 4
  short : ∀ i ∈ n.locals ++ n.temps, Number.Short i

end Need

theorem run_era {n : Need} (hn : n.Fits) (s : Loading) : ∃ printed,
    (era t n.row).run s = (.ok (t.put n.name (n.locals, n.temps)), { s with printed := printed }) := by
  have hlocals : (n.row.drop 1).take 4 = n.locals.map toString := by
    rw [Need.row, List.drop_one, List.tail_cons, List.take_left' (by rw [List.length_map, hn.locals])]
  have htemps : (n.row.drop 5).take 4 = n.temps.map toString := by
    rw [Need.row, List.drop_succ_cons, List.drop_left' (by rw [List.length_map, hn.locals]),
      List.take_of_length_le (by rw [List.length_map, hn.temps])]
  have hread : ∀ xs : List Int, (∀ i ∈ xs, Number.Short i) →
      (liftM (toNumbers (xs.map toString)) : Load (List Int)).run s = (.ok xs, s) := by
    intro xs hxs
    rw [toNumbers_map_toString hxs]
    rfl
  obtain ⟨printed, hsay⟩ := run_say ("ERA - " ++ n.name ++ " -> [" ++ numberList n.locals ++ ", " ++
    numberList n.temps ++ "]") s
  refine ⟨printed, ?_⟩
  rw [era, hlocals, htemps, show n.row.headD "" = n.name from rfl,
    run_bind_ok (hread _ fun i hi => hn.short i (List.mem_append_left _ hi)),
    run_bind_ok (hread _ fun i hi => hn.short i (List.mem_append_right _ hi)), run_bind_ok hsay]
  rfl

variable {ns : List Need}

theorem run_eras (hns : ∀ n ∈ ns, n.Fits) (hnames : (t.map (·.1) ++ ns.map (·.name)).Nodup)
    (s : Loading) : ∃ printed,
      ((ns.map Need.row).foldlM era t).run s =
        (.ok (t ++ ns.map Need.entry), { s with printed := printed }) := by
  induction ns generalizing t s with
  | nil => exact ⟨s.printed, by rw [List.map_nil, List.map_nil, List.append_nil]; rfl⟩
  | cons n ns ih =>
    obtain ⟨hn, hns⟩ := List.forall_mem_cons.mp hns
    obtain ⟨printed, hone⟩ := run_era hn (t := t) s
    -- The name is new, so its entry comes last.
    have hput : t.put n.name (n.locals, n.temps) = t ++ [n.entry] := by
      have hnew : t.has n.name = false := by
        rw [Table.has, List.any_eq_false]
        intro e he heq
        refine (List.nodup_append.mp hnames).2.2 e.1 (List.mem_map_of_mem he) n.name List.mem_cons_self ?_
        exact beq_iff_eq.mp heq
      rw [Table.put, hnew]
      rfl
    rw [hput] at hone
    obtain ⟨printed', hrest⟩ := ih hns (t := t ++ [n.entry]) (by simpa [Need.entry] using hnames)
      { s with printed := printed }
    refine ⟨printed', ?_⟩
    rw [List.map_cons, List.foldlM_cons, run_bind_ok hone, hrest, List.append_assoc]
    rfl

theorem run_quads (qs : List (List String)) (start : Array (List String)) (s : Loading) :
    (qs.foldlM (fun acc q => (return acc.push q : Load (Array (List String)))) start).run s =
      (.ok (start ++ qs.toArray), s) := by
  induction qs generalizing start with
  | nil => simp
  | cons q qs ih =>
    rw [List.foldlM_cons, run_bind_ok (run_pure _ _), ih]
    simp

/-- What is loaded: the bounds of the segments, constants, needs and quads. -/
structure Loaded (m : Machine) (ks : List Constant) (ns : List Need) (qs : List (List String)) : Prop where
  globals : m.globalBounds = Segment.global.bounds
  locals : m.localBounds = Segment.local.bounds
  temps : m.tempBounds = Segment.temp.bounds
  constantsBounds : m.constantBounds = Segment.constant.bounds
  constants : m.constants = placeAll ks (Frame.empty 7000)
  eras : m.eras = ns.map Need.entry
  quads : m.quads = qs.toArray

/-- The lines of a section. -/
def marked (name : String) (lines : List String) : List String :=
  ("-> " ++ name ++ " START") :: lines ++ ["->| " ++ name ++ " END"]

/-- The lines of the four sections. -/
def sections (ks : List Constant) (ns : List Need) (qs : List (List String)) : List String :=
  marked "RANGES" (Segment.all.map fun s => Text.join "\t" (s.bounds.map toString)) ++
  marked "CTES" ((ks.map rowOf).map (Text.join "\t")) ++
  marked "ERAS" ((ns.map Need.row).map (Text.join "\t")) ++
  marked "QUADS" (qs.map (Text.join "\t"))

theorem run_machine {qs : List (List String)}
    (hks : ∀ k ∈ ks, 31000 ≤ k.address ∧ k.address < 38000) (hns : ∀ n ∈ ns, n.Fits)
    (hnames : (ns.map (·.name)).Nodup) (hkrows : ∀ k ∈ ks, Row (rowOf k))
    (hnrows : ∀ n ∈ ns, Row n.row) (hqrows : ∀ q ∈ qs, Row q)
    (h : s.lines = sections ks ns qs ++ rest) :
    ∃ m s', machine.run s = (.ok m, s') ∧ Loaded m ks ns qs := by
  have hbounds : ∀ g : Segment, (g.bounds ≠ []) ∧ ∀ i ∈ g.bounds, Number.Short i := by
    intro g
    refine ⟨by cases g <;> decide, fun i hi => Number.short_of_natAbs_lt ?_⟩
    revert i
    cases g <;> decide
  simp only [sections, marked, all, List.map_cons, List.map_nil, List.cons_append, List.nil_append,
    List.append_assoc, String.reduceAppend] at h
  have hread : ∀ (g : Segment) {s : Loading} {rest : List String},
      s.lines = Text.join "\t" (g.bounds.map toString) :: rest →
      bounds.run s = (.ok g.bounds, { s with lines := rest }) :=
    fun g => run_bounds (hbounds g).1 (hbounds g).2
  -- The bounds have five parts each.
  have hcheck : ∀ s : Loading, (forIn [global.bounds, local.bounds, temp.bounds,
      Segment.constant.bounds] PUnit.unit fun b _ => do
        checkBounds b
        pure (ForInStep.yield PUnit.unit) : Load PUnit).run s = (.ok (), s) := fun _ => rfl
  rw [machine, run_bind_ok (run_expect h), run_bind_ok (hread .global rfl),
    run_bind_ok (hread .local rfl), run_bind_ok (hread .temp rfl),
    run_bind_ok (hread .constant rfl)]
  refine exists_say_bind fun p₁ => exists_say_bind fun p₂ => exists_say_bind fun p₃ =>
    exists_say_bind fun p₄ => ?_
  dsimp only
  rw [run_bind_ok (run_expect rfl), run_bind_ok (hcheck _), run_bind_ok (run_expect rfl)]
  obtain ⟨p₅, hconstants⟩ := run_constants hks (f := Frame.empty (Bounds.size Segment.constant.bounds))
    Array.size_replicate { s with printed := p₄, lines := "-> ERAS START" :: ((ns.map Need.row).map (Text.join "\t") ++
      "->| ERAS END" :: "-> QUADS START" :: (qs.map (Text.join "\t") ++ "->| QUADS END" :: rest)) }
  rw [run_bind_ok (run_each (List.forall_mem_map.mpr hkrows) (by decide) rfl hconstants),
    run_bind_ok (run_expect rfl)]
  obtain ⟨p₆, heras⟩ := run_eras hns (t := []) hnames { s with printed := p₅, lines :=
    "-> QUADS START" :: (qs.map (Text.join "\t") ++ "->| QUADS END" :: rest) }
  rw [run_bind_ok (run_each (List.forall_mem_map.mpr hnrows) (by decide) rfl heras),
    run_bind_ok (run_expect rfl),
    run_bind_ok (run_each hqrows (by decide) rfl (run_quads qs #[] _))]
  exact ⟨_, _, rfl, rfl, rfl, rfl, rfl, rfl, List.nil_append _, Array.empty_append⟩

/-! ### What can be loaded -/

/-- No tab and no carriage return. -/
def Plain (s : String) : Prop := '\t' ∉ s.toList ∧ '\r' ∉ s.toList

/-- No line has a carriage return. -/
def Textual (s : Loading) : Prop := ∀ l ∈ s.lines, '\r' ∉ l.toList

/-- From lines without carriage returns, the step leads to such lines, and its result is as `P` says. -/
def Gives (x : Load α) (P : α → Prop) : Prop := Carries Textual x fun a s => Textual s ∧ P a

variable {β : Type} {P : α → Prop} {Q : β → Prop}

theorem gives_pure {a : α} (h : P a) : Gives (pure a) P := carries_pure fun _ hs => ⟨hs, h⟩

theorem gives_throw (f : MachineFault) : Gives (throw f) P := carries_throw f

theorem gives_of_looks (h : Looks x) : Gives x fun _ => True := by
  intro s a s' hs hrun
  exact ⟨h hrun ▸ hs, trivial⟩

theorem looks_lift (r : Except MachineFault α) : Looks (liftM r : Load α) := by
  cases r with
  | error f => exact looks_throw f
  | ok a => exact looks_pure a

theorem Gives.bind {f : α → Load β} (hx : Gives x P) (hf : ∀ a, P a → Gives (f a) Q) :
    Gives (x >>= f) Q :=
  Carries.bind hx fun a _ _ _ hs hrun => hf a hs.2 hs.1 hrun

theorem gives_ite {p : Prop} [Decidable p] {y : Load α} (hx : Gives x P) (hy : Gives y P) :
    Gives (if p then x else y) P := carries_ite (fun _ => hx) fun _ => hy

theorem gives_say : Gives (say message) fun _ => True := by
  intro s a s' hs hrun
  obtain ⟨printed, hsay⟩ := run_say message s
  cases hsay.symm.trans hrun
  exact ⟨hs, trivial⟩

theorem gives_line : Gives line fun l => '\r' ∉ l.toList := by
  intro s l s' hs hrun
  cases hlines : s.lines with
  | nil =>
    rw [line, run_bind_ok (run_get s)] at hrun
    simp only [hlines] at hrun
    cases hrun
  | cons first rest =>
    rw [Textual, hlines] at hs
    obtain ⟨hfirst, hrest⟩ := List.forall_mem_cons.mp hs
    cases (run_line hlines).symm.trans hrun
    exact ⟨hrest, hfirst⟩

theorem gives_expect (text : String) : Gives (expect text) fun _ => True :=
  gives_line.bind fun _ _ => gives_ite (gives_throw _) (gives_pure trivial)

theorem gives_bounds : Gives bounds fun _ => True := gives_line.bind fun _ _ => (gives_of_looks (looks_lift _))

theorem gives_body (last : String) : Gives (body last) fun r => ∀ l ∈ r.1, '\r' ∉ l.toList := by
  intro s r s' hs hrun
  rw [body, run_bind_ok (run_get s), List.span_eq_takeWhile_dropWhile] at hrun
  cases hrun
  refine ⟨fun l hl => hs l ?_, fun l hl => hs l ((List.takeWhile_sublist _).mem hl)⟩
  exact (List.dropWhile_sublist _).mem (List.mem_of_mem_drop hl)

/-- What a section gives, when it holds at the start and every row keeps it. -/
theorem gives_each (hstart : P start)
    (huse : ∀ acc row, P acc → (∀ f ∈ row, Plain f) → Gives (use acc row) P) :
    Gives (each last start use) P := by
  have hfold : ∀ (lines : List String) (acc : α), (∀ l ∈ lines, '\r' ∉ l.toList) → P acc →
      Gives (lines.foldlM (fun acc l => use acc (Text.splitBy '\t' l)) acc) P := by
    intro lines
    induction lines with
    | nil => exact fun acc _ hacc => gives_pure hacc
    | cons l lines ih =>
      intro acc hlines hacc
      obtain ⟨hl, hlines⟩ := List.forall_mem_cons.mp hlines
      rw [List.foldlM_cons]
      refine (huse acc _ hacc fun f hf => ⟨fun hmem => ?_, fun hmem => ?_⟩).bind fun acc' => ih acc' hlines
      · exact (Text.mem_of_mem_splitBy hf hmem).2 rfl
      · exact hl (Text.mem_of_mem_splitBy hf hmem).1
  refine (gives_body last).bind fun r hr => (hfold r.1 start hr hstart).bind fun a ha => ?_
  exact gives_ite (gives_pure ha) (gives_throw _)

/-- The constants are plain. -/
def PlainCells (f : Frame) : Prop := ∀ (i : Nat) (cell : Cell) (s : String),
  f[i]? = some (some cell) → cell.value = .text s → Plain s

theorem gives_constant (b : Bounds) {row : List String} (hf : PlainCells f)
    (hrow : ∀ t ∈ row, Plain t) : Gives (constant b f row) PlainCells := by
  obtain _ | ⟨value, _ | ⟨type, _ | ⟨address, rest⟩⟩⟩ := row
  · exact gives_throw _
  · exact gives_throw _
  · exact gives_throw _
  · refine (gives_of_looks (looks_lift _)).bind fun i _ => ?_
    split
    · exact gives_throw _
    · next k _ =>
      refine (gives_say _).bind fun _ _ => gives_pure fun j cell s hcell hs => ?_
      rw [Array.getElem?_setIfInBounds] at hcell
      split at hcell
      · split at hcell
        · cases Option.some.inj (Option.some.inj hcell)
          cases hs
          exact hrow value List.mem_cons_self
        · cases hcell
      · exact hf j cell s hcell hs

theorem gives_era (t : Table (List Int × List Int)) (row : List String) :
    Gives (era t row) fun _ => True :=
  (gives_of_looks (looks_lift _)).bind fun _ _ => (gives_of_looks (looks_lift _)).bind fun _ _ => (gives_say _).bind fun _ _ => gives_pure trivial

theorem gives_checks (bs : List Bounds) : Gives (forIn bs PUnit.unit fun b _ => do
    checkBounds b
    pure (ForInStep.yield PUnit.unit)) fun _ => True := by
  induction bs with
  | nil => exact gives_pure trivial
  | cons b bs ih =>
    have hone : Gives (checkBounds b >>= fun _ => pure (ForInStep.yield PUnit.unit))
        fun r => r = ForInStep.yield PUnit.unit :=
      (gives_ite (P := fun _ => True) (gives_throw _) (gives_pure trivial)).bind fun _ _ => gives_pure rfl
    rw [List.forIn_cons]
    refine hone.bind ?_
    rintro _ rfl
    exact ih

theorem gives_machine : Gives machine fun m =>
    PlainCells m.constants ∧ ∀ q ∈ m.quads, ∀ f ∈ q, Plain f := by
  have hempty : ∀ n : Int, PlainCells (Frame.empty n) := by
    intro n i cell s hcell
    rw [Frame.empty, Array.getElem?_replicate] at hcell
    split at hcell <;> cases hcell
  have hquads : ∀ (qs : Array (List String)) (q : List String), (∀ q ∈ qs, ∀ f ∈ q, Plain f) →
      (∀ f ∈ q, Plain f) → Gives (pure (qs.push q) : Load _) fun qs => ∀ q ∈ qs, ∀ f ∈ q, Plain f := by
    intro qs q hqs hq
    refine gives_pure fun q' hq' => ?_
    rcases Array.mem_push.mp hq' with hq' | rfl
    · exact hqs q' hq'
    · exact hq
  refine (gives_expect _).bind fun _ _ => gives_bounds.bind fun _ _ => gives_bounds.bind fun _ _ =>
    gives_bounds.bind fun _ _ => gives_bounds.bind fun _ _ => (gives_say _).bind fun _ _ =>
    (gives_say _).bind fun _ _ => (gives_say _).bind fun _ _ => (gives_say _).bind fun _ _ =>
    (gives_expect _).bind fun _ _ => (gives_checks _).bind fun _ _ => (gives_expect _).bind fun _ _ =>
    (gives_each (hempty _) fun f row => gives_constant _).bind fun _ hconstants =>
    (gives_expect _).bind fun _ _ =>
    (gives_each (P := fun _ => True) trivial fun t row _ _ => gives_era t row).bind fun _ _ =>
    (gives_expect _).bind fun _ _ =>
    (gives_each (fun _ h => absurd h (Array.not_mem_empty _)) hquads).bind fun _ hquads =>
    (gives_of_looks looks_get).bind fun _ _ => gives_pure ⟨hconstants, hquads⟩

end Load

/-- The texts of a loaded program are plain, when the object text was read in text mode. -/
theorem Machine.load_plain {debug : Bool} {object input : String} {printed : List String} {m : Machine}
    (h : Machine.load debug (Text.newlines object) input = (printed, .ok m)) :
    Load.PlainCells m.constants ∧ ∀ q ∈ m.quads, ∀ f ∈ q, Load.Plain f := by
  rw [Machine.load] at h
  generalize hstart : ({ debug := debug, lines := Text.splitBy '\n' (Text.newlines object),
                         printed := [] } : Loading) = start at h
  have hlines : Load.Textual start := by
    intro l hl hmem
    rw [← hstart] at hl
    exact Text.not_mem_newlines object (Text.mem_of_mem_splitBy hl hmem).1
  rcases hrun : Load.machine.run start with ⟨result, s⟩
  rw [hrun] at h
  cases result with
  | error f => cases h
  | ok m' =>
    have hgives := (Load.gives_machine hlines hrun).2
    cases h
    exact hgives

end QuadLang
