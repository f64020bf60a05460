/-
The object text and the loaded program.

An accepted program is written as rows of fields without escapes, and loaded from such rows.  The two
fit together as long as the texts of the program have no tab and no carriage return; then nothing is
lost and nothing comes in between.

* `Compiler.objectText_eq_lines` — the object text, line by line;
* `Machine.Has` — a loaded program has the bounds, the constants, the needs of the functions and the
  quads of a compilation;
* `load_object_iff` — loading what was built gives the program back exactly when no character and no
  printed text in it has a tab or a carriage return.
-/
import QuadLang.Proofs.Loading
import QuadLang.Proofs.Literals
import QuadLang.Proofs.Cells

namespace QuadLang

open Phrase Segment

variable {s : String} {fields lines : List String} {A : String → Prop} {k : Constant}

/-! ### Texts from pieces -/

theorem objectSection_eq_join (name : String) (lines : List String) :
    objectSection name (lines.map (· ++ "\n")) =
      String.join ((Load.marked name lines).map (· ++ "\n")) := by
  rw [objectSection, Load.marked, List.map_append, String.join_append, List.map_cons, String.join_cons, List.map_singleton,
    String.join_cons, String.join_nil, String.append_empty]
  simp only [String.append_assoc]
  rfl

/-- Results of a list that go through, when it is known what each can be. -/
theorem mapM_eq_ok {ε α β : Type} {f : α → Except ε β} {g : α → β} {Q : α → Prop} {xs : List α}
    {ys : List β} (h : xs.mapM f = .ok ys) (hfg : ∀ x ∈ xs, ∀ y, f x = .ok y → y = g x ∧ Q x) :
    ys = xs.map g ∧ ∀ x ∈ xs, Q x := by
  induction xs generalizing ys with
  | nil =>
    cases h
    exact ⟨rfl, fun _ hx => absurd hx List.not_mem_nil⟩
  | cons x xs ih =>
    obtain ⟨hx, hxs⟩ := List.forall_mem_cons.mp hfg
    rw [List.mapM_cons] at h
    rcases hy : f x with e | y
    · rw [hy] at h
      cases h
    · rcases hrest : xs.mapM f with e | rest
      · rw [hy, hrest] at h
        cases h
      · rw [hy, hrest] at h
        cases h
        obtain ⟨rfl, hq⟩ := hx y hy
        obtain ⟨rfl, hqs⟩ := ih hrest hxs
        exact ⟨rfl, List.forall_mem_cons.mpr ⟨hq, hqs⟩⟩

/-! ### The object text -/

namespace Function

/-- What a function other than the main program needs. -/
def need? (f : Function) : Option Load.Need :=
  if f.name == "main" then none else some ⟨f.name, f.era.headD [], f.era.tail.headD []⟩

/-- The row of a function, and what is known of it. -/
theorem eraLine?_eq_ok {f : Function} (hf : f.Counted) {line : Option String} (h : eraLine? f = .ok line) :
    line = f.need?.map (fun n => Text.join "\t" n.row ++ "\n") ∧ ∀ n ∈ f.need?, n.Fits := by
  rw [eraLine?] at h
  rw [need?]
  split at h
  · next hmain =>
    cases h
    rw [if_pos hmain]
    exact ⟨rfl, fun n hn => by cases hn⟩
  · next hmain =>
    rw [if_neg hmain]
    rcases hf with hera | ⟨l, t, hera, hl, ht, hshort⟩
    · rw [hera] at h
      cases h
    · rw [hera] at h ⊢
      cases h
      have hne : ∀ xs : List Int, xs.length = 4 → xs.map toString ≠ [] := by
        intro xs hxs heq
        rw [List.map_eq_nil_iff.mp heq] at hxs
        cases hxs
      refine ⟨?_, fun n hn => ?_⟩
      · have hrow : Text.join "\t" (f.name :: (l.map toString ++ t.map toString)) =
            f.name ++ "\t" ++ (Text.join "\t" (l.map toString) ++ "\t" ++ Text.join "\t" (t.map toString)) := by
          rw [Text.join, String.intercalate_cons_of_ne_nil (by simp [hne l hl]),
            String.intercalate_append_of_ne_nil (hne l hl) (hne t ht)]
          rfl
        rw [Option.map_some, Load.Need.row]
        dsimp only [List.headD_cons, List.tail_cons]
        rw [hrow]
        simp only [String.append_assoc]
      · cases hn
        exact ⟨hl, ht, hshort⟩

end Function

theorem quadLine_eq_ok {q : Quad} (hq : q.Fits A) {line : String} (h : quadLine q = .ok line) :
    line = Text.join "\t" (q.map Field.shown) ++ "\n" := by
  obtain ⟨w, a, b, r, rfl, -⟩ := hq
  cases h
  simp [Text.join, String.intercalate_cons_cons, String.append_assoc]

namespace Compiler

/-- What the functions need, in order. -/
def needs (c : Compiler) : List Load.Need := c.functions.filterMap fun x => x.2.need?

/-- The texts of the quads. -/
def rows (c : Compiler) : List (List String) := c.quads.toList.map (·.map Field.shown)

variable {A : String → Prop} {Q₀ : Array Quad} {P : List Int} {strict : Prop} {c : Compiler} {text : String}

theorem objectText_eq_lines (hc : c.Tidy A Q₀ P strict) (h : c.objectText = .ok text) :
    text = String.join ((Load.sections c.constants c.needs c.rows).map (· ++ "\n")) ∧
      ∀ n ∈ c.needs, n.Fits := by
  rw [objectText] at h
  rcases heras : c.functions.mapM (fun x => eraLine? x.2) with e | eras
  · rw [heras] at h
    cases h
  rcases hquads : c.quads.toList.mapM quadLine with e | quads
  · rw [heras, hquads] at h
    cases h
  rw [heras, hquads] at h
  obtain ⟨rfl, hfits⟩ := mapM_eq_ok (Q := fun x => ∀ n ∈ x.2.need?, n.Fits) heras fun x hx line hline =>
    Function.eraLine?_eq_ok (hc.functions x hx).2.2 hline
  obtain ⟨rfl, -⟩ := mapM_eq_ok (Q := fun _ => True) hquads fun q hq line hline => by
    obtain ⟨i, hi⟩ := List.mem_iff_getElem?.mp hq
    exact ⟨quadLine_eq_ok (hc.quads i q (by simpa using hi)) hline, trivial⟩
  refine ⟨?_, fun n hn => ?_⟩
  · cases h
    have hranges : (all.map fun s => tabbed (s.bounds.map toString)) =
        (all.map fun s => Text.join "\t" (s.bounds.map toString)).map (· ++ "\n") := by
      rw [List.map_map]
      rfl
    have hconstants : (c.constants.map fun k => tabbed [k.value.plainText, k.type.name, toString k.address]) =
        ((c.constants.map Load.rowOf).map (Text.join "\t")).map (· ++ "\n") := by
      rw [List.map_map, List.map_map]
      rfl
    have hneeds : (c.functions.map fun x => x.2.need?.map fun n => Text.join "\t" n.row ++ "\n").filterMap id =
        ((c.needs.map Load.Need.row).map (Text.join "\t")).map (· ++ "\n") := by
      rw [needs, List.filterMap_map, List.map_map, List.map_map, List.map_filterMap]
      rfl
    have hrows : (c.quads.toList.map fun q => Text.join "\t" (q.map Field.shown) ++ "\n") =
        (c.rows.map (Text.join "\t")).map (· ++ "\n") := by
      rw [rows, List.map_map, List.map_map]
      rfl
    rw [hranges, hconstants, hneeds, hrows, objectSection_eq_join, objectSection_eq_join, objectSection_eq_join,
      objectSection_eq_join, ← String.join_append, ← String.join_append, ← String.join_append,
      ← List.map_append, ← List.map_append, ← List.map_append]
    rfl
  · obtain ⟨x, hx, hn⟩ := List.mem_filterMap.mp hn
    exact hfits x hx n hn

end Compiler

/-! ### Lines of an object text -/

/-- A text in one line, whichever way lines end. -/
def Single (s : String) : Prop := ∀ c ∈ s.toList, c ≠ '\n' ∧ c ≠ '\r'

theorem Clean.single (h : Clean s) : Single s := fun c hc => ⟨(h c hc).1, (h c hc).2.2⟩

theorem single_join (h : ∀ f ∈ fields, Clean f) : Single (Text.join "\t" fields) := by
  induction fields with
  | nil => exact (clean_of_all (by decide)).single
  | cons f fields ih =>
    obtain ⟨hf, hfields⟩ := List.forall_mem_cons.mp h
    rcases fields with _ | ⟨g, fields⟩
    · rw [Text.join, String.intercalate_singleton]
      exact hf.single
    · intro c hc
      rw [Text.join, String.intercalate_cons_cons, String.toList_append, String.toList_append] at hc
      rcases List.mem_append.mp hc with hc | hc
      · rcases List.mem_append.mp hc with hc | hc
        · exact hf.single c hc
        · rw [List.mem_singleton.mp hc]
          decide
      · exact ih hfields c hc

/-- Lines are found again in text mode. -/
theorem splitBy_newlines_lines (h : ∀ l ∈ lines, Single l) :
    Text.splitBy '\n' (Text.newlines (String.join (lines.map (· ++ "\n")))) = lines ++ [""] := by
  have hreturn : '\r' ∉ (String.join (lines.map (· ++ "\n"))).toList := by
    induction lines with
    | nil => decide
    | cons l lines ih =>
      obtain ⟨hl, hlines⟩ := List.forall_mem_cons.mp h
      rw [List.map_cons, String.join_cons, String.toList_append, String.toList_append, List.mem_append,
        List.mem_append]
      rintro ((hmem | hmem) | hmem)
      · exact (hl _ hmem).2 rfl
      · exact absurd hmem (by decide)
      · exact ih hlines hmem
  rw [Text.newlines_of_not_mem hreturn, Text.splitBy_lines fun l hl hmem => (h l hl _ hmem).1 rfl]

theorem single_marked {name : String} (hname : Clean name) (h : ∀ l ∈ lines, Single l) :
    ∀ l ∈ Load.marked name lines, Single l := by
  have hmark : ∀ {before after : String}, Clean before → Clean after → Single (before ++ name ++ after) :=
    fun hbefore hafter => ((hbefore.append hname).append hafter).single
  rw [Load.marked, List.cons_append]
  refine List.forall_mem_cons.mpr ⟨hmark (clean_of_all (by decide)) (clean_of_all (by decide)), ?_⟩
  refine List.forall_mem_append.mpr ⟨h, List.forall_mem_singleton.mpr ?_⟩
  exact hmark (clean_of_all (by decide)) (clean_of_all (by decide))

/-- A row of at least two fields without separators. -/
theorem row_of_clean (hlength : 2 ≤ fields.length) (h : ∀ f ∈ fields, Clean f) : Load.Row fields :=
  ⟨hlength, fun f hf hmem => (h f hf _ hmem).2.1 rfl⟩

namespace Compiler

variable {Q₀ : Array Quad} {P : List Int} {strict : Prop} {c : Compiler} {k : Constant}
  {A : String → Prop}

/-- The types of constants are scalar. -/
theorem Arranged.exists_scalar (hc : c.Arranged) (hk : k ∈ c.constants) :
    ∃ s : Scalar, k.type = .of s := by
  rw [hc.literals k hk]
  cases k.value <;> exact ⟨_, rfl⟩

theorem Tidy.clean_rowOf (hc : c.Tidy Clean Q₀ P strict) (ht : c.Arranged) (hk : k ∈ c.constants) :
    ∀ f ∈ Load.rowOf k, Clean f := by
  have htype : Clean k.type.name := by
    obtain ⟨s, hs⟩ := ht.exists_scalar hk
    rw [hs]
    cases s <;> exact clean_of_all (by decide)
  simp only [Load.rowOf, List.forall_mem_cons]
  exact ⟨Literal.clean_plainText (hc.constants k hk), htype, clean_toString _, fun _ h => absurd h List.not_mem_nil⟩

theorem Tidy.clean_need (hc : c.Tidy Clean Q₀ P strict) {n : Load.Need} (hn : n ∈ c.needs) :
    ∀ f ∈ n.row, Clean f := by
  obtain ⟨x, hx, hneed⟩ := List.mem_filterMap.mp hn
  obtain ⟨hname, hclean, -⟩ := hc.functions x hx
  rw [Function.need?] at hneed
  split at hneed
  · cases hneed
  · cases hneed
    refine List.forall_mem_cons.mpr ⟨by rwa [hname], List.forall_mem_append.mpr ⟨?_, ?_⟩⟩ <;>
      exact List.forall_mem_map.mpr fun i _ => clean_toString i

theorem Tidy.clean_quad (hc : c.Tidy Clean Q₀ P strict) {row : List String} (hrow : row ∈ c.rows) :
    row.length = 4 ∧ ∀ f ∈ row, Clean f := by
  obtain ⟨q, hq, rfl⟩ := List.mem_map.mp hrow
  obtain ⟨i, hi⟩ := List.mem_iff_getElem?.mp hq
  obtain ⟨w, a, b, r, rfl, hw, ha, hb, hr⟩ := hc.quads i q (by simpa using hi)
  refine ⟨rfl, ?_⟩
  simp only [List.map_cons, List.map_nil, List.forall_mem_cons]
  exact ⟨hw, ha.clean_shown, hb.clean_shown, hr.clean_shown, fun _ h => absurd h List.not_mem_nil⟩

/-- The functions other than the main program. -/
def others (c : Compiler) : List (String × Function) := c.functions.filter fun x => x.1 != "main"

theorem Tidy.needs_eq (hc : c.Tidy A Q₀ P strict) :
    c.needs = c.others.map fun x => ⟨x.1, x.2.era.headD [], x.2.era.tail.headD []⟩ := by
  have hlist : ∀ xs : List (String × Function), (∀ x ∈ xs, x.2.name = x.1) →
      xs.filterMap (fun x => x.2.need?) =
        (xs.filter fun x => x.1 != "main").map fun x => ⟨x.1, x.2.era.headD [], x.2.era.tail.headD []⟩ := by
    intro xs hxs
    induction xs with
    | nil => rfl
    | cons x xs ih =>
      obtain ⟨hx, hxs⟩ := List.forall_mem_cons.mp hxs
      by_cases hmain : x.1 = "main"
      · have hnone : x.2.need? = none := by rw [Function.need?, hx, if_pos (beq_iff_eq.mpr hmain)]
        simp only [List.filterMap_cons, hnone]
        rw [List.filter_cons_of_neg (by simpa using hmain), ih hxs]
      · have hsome : x.2.need? = some ⟨x.1, x.2.era.headD [], x.2.era.tail.headD []⟩ := by
          rw [Function.need?, hx, if_neg fun h => hmain (beq_iff_eq.mp h)]
        simp only [List.filterMap_cons, hsome]
        rw [List.filter_cons_of_pos (by simpa using hmain), ih hxs, List.map_cons]
  exact hlist c.functions fun x hx => (hc.functions x hx).1

/-- The needs have different names. -/
theorem Tidy.nodup_needs (hc : c.Tidy A Q₀ P strict) : (c.needs.map (·.name)).Nodup := by
  rw [hc.needs_eq, List.map_map]
  exact hc.names.sublist (List.Sublist.map Prod.fst List.filter_sublist)

/-- A need has all of the counts of its function. -/
theorem Tidy.era_eq (hc : c.Tidy A Q₀ P strict) {x : String × Function} (hx : x ∈ c.others)
    (hlength : (x.2.era.headD []).length = 4) :
    [x.2.era.headD [], x.2.era.tail.headD []] = x.2.era := by
  rcases (hc.functions x (List.mem_filter.mp hx).1).2.2 with hera | ⟨l, t, hera, -⟩
  · rw [hera] at hlength
    cases hlength
  · rw [hera]
    rfl

end Compiler

/-- The machine has the program of a compilation: the bounds of memory, the constants at their
addresses and nothing else, the eight counts of each function but the main program, and the texts
of the quads. -/
structure Machine.Has (m : Machine) (c : Compiler) : Prop where
  bounds : m.globalBounds = Segment.global.bounds ∧ m.localBounds = Segment.local.bounds ∧
    m.tempBounds = Segment.temp.bounds ∧ m.constantBounds = Segment.constant.bounds
  size : m.constants.size = 7000
  constants : ∀ (i : Nat) (cell : Cell), m.constants[i]? = some (some cell) ↔
    ∃ k ∈ c.constants, k.address = 31000 + i ∧ cell = { value := .text k.value.plainText, type := k.type }
  eras : m.eras.map (fun e => (e.1, [e.2.1, e.2.2])) =
    c.others.map fun x => (x.1, x.2.era)
  counts : ∀ e ∈ m.eras, e.2.1.length = 4 ∧ e.2.2.length = 4
  quads : m.quads = c.quads.map (·.map Field.shown)

section

variable {Q₀ : Array Quad} {P : List Int} {strict : Prop} {c : Compiler} {text : String}

theorem constant_range (hr : c.InRange) (hk : k ∈ c.constants) :
    31000 ≤ k.address ∧ k.address < 38000 := by
  obtain ⟨s, -, hlow, hhigh⟩ := hr.constants k hk
  have hbounds : 31000 ≤ constant.start s ∧ constant.stop s ≤ 38000 := by
    cases s <;> decide
  omega

/-- Where a constant has its cell. -/
theorem getElem?_placeAll_iff (ht : c.Arranged) (hr : c.InRange) (i : Nat) (cell : Cell) :
    (Load.placeAll c.constants (Frame.empty 7000))[i]? = some (some cell) ↔
      ∃ k ∈ c.constants, k.address = 31000 + i ∧ cell = { value := .text k.value.plainText, type := k.type } := by
  have hrange := fun k hk => constant_range hr (k := k) hk
  have hcell : ∀ k ∈ c.constants, Load.cellOf k = { value := .text k.value.plainText, type := k.type } := by
    intro k hk
    obtain ⟨s, hs⟩ := ht.exists_scalar hk
    rw [Load.cellOf, hs]
    cases s <;> rfl
  have hapart : c.constants.Pairwise fun k l => Load.indexOf k ≠ Load.indexOf l := by
    rw [List.pairwise_iff_getElem]
    intro i j hi hj hij heq
    have hne := ht.address_ne (List.getElem?_eq_getElem hi) (List.getElem?_eq_getElem hj) (by omega)
    have hrange₁ := hrange _ (List.getElem_mem hi)
    have hrange₂ := hrange _ (List.getElem_mem hj)
    rw [Load.indexOf, Load.indexOf] at heq
    omega
  have hsize : (Load.placeAll c.constants (Frame.empty 7000)).size = 7000 := by
    rw [Load.size_placeAll]
    exact Array.size_replicate
  constructor
  · intro hget
    have hi : i < 7000 := hsize ▸ (Array.getElem?_eq_some_iff.mp hget).1
    rcases Load.getElem?_placeAll hapart (Frame.empty 7000) i (by rwa [Frame.empty, Array.size_replicate]) with
      ⟨k, hk, hki, hplace⟩ | ⟨-, hplace⟩
    · have hbound := hrange k hk
      rw [hget, hcell k hk] at hplace
      rw [Load.indexOf] at hki
      exact ⟨k, hk, by omega, Option.some.inj (Option.some.inj hplace)⟩
    · rw [hget, Frame.empty, Array.getElem?_replicate] at hplace
      split at hplace <;> cases hplace
  · rintro ⟨k, hk, haddress, rfl⟩
    have hbound := hrange k hk
    have hki : Load.indexOf k = i := by
      rw [Load.indexOf]
      omega
    rcases Load.getElem?_placeAll hapart (Frame.empty 7000) i (by rw [Frame.empty, Array.size_replicate]; omega) with
      ⟨l, hl, hli, hplace⟩ | ⟨hnone, -⟩
    · have hbound' := hrange l hl
      obtain rfl : k = l := ht.eq_of_address hk hl (by rw [Load.indexOf] at hki hli; omega)
      rw [hplace, hcell k hk]
    · exact absurd hki (hnone k hk)

theorem Load.Loaded.has (hc : c.Tidy A Q₀ P strict) (ht : c.Arranged) (hr : c.InRange)
    (hfits : ∀ n ∈ c.needs, n.Fits) {m : Machine} (h : Load.Loaded m c.constants c.needs c.rows) :
    m.Has c where
  bounds := ⟨h.globals, h.locals, h.temps, h.constantsBounds⟩
  size := by
    rw [h.constants, Load.size_placeAll]
    exact Array.size_replicate
  constants i cell := by
    rw [h.constants]
    exact getElem?_placeAll_iff ht hr i cell
  eras := by
    rw [h.eras, hc.needs_eq, List.map_map, List.map_map]
    refine List.map_congr_left fun x hx => ?_
    have hneed : (⟨x.1, x.2.era.headD [], x.2.era.tail.headD []⟩ : Load.Need) ∈ c.needs := by
      rw [hc.needs_eq]
      exact List.mem_map_of_mem hx
    exact congrArg (Prod.mk x.1) (hc.era_eq hx (hfits _ hneed).locals)
  counts e he := by
    rw [h.eras] at he
    obtain ⟨n, hn, rfl⟩ := List.mem_map.mp he
    exact ⟨(hfits n hn).locals, (hfits n hn).temps⟩
  quads := by rw [h.quads, Compiler.rows, ← Array.toList_map]

/-- What was built is loaded, when nothing in it separates. -/
theorem exists_load (hc : c.Tidy Clean Q₀ P strict) (ht : c.Arranged) (hr : c.InRange)
    (htext : c.objectText = .ok text) (debug : Bool) (input : String) :
    ∃ printed m, Machine.load debug (Text.newlines text) input = (printed, .ok m) ∧ m.Has c := by
  obtain ⟨rfl, hfits⟩ := Compiler.objectText_eq_lines hc htext
  have hranges : ∀ l ∈ all.map (fun s => Text.join "\t" (s.bounds.map toString)), Single l :=
    List.forall_mem_map.mpr fun s _ => single_join (List.forall_mem_map.mpr fun i _ => clean_toString i)
  have hlines : ∀ l ∈ Load.sections c.constants c.needs c.rows, Single l := by
    rw [Load.sections]
    refine List.forall_mem_append.mpr ⟨List.forall_mem_append.mpr ⟨List.forall_mem_append.mpr ⟨?_, ?_⟩, ?_⟩, ?_⟩
    · exact single_marked (clean_of_all (by decide)) hranges
    · refine single_marked (clean_of_all (by decide)) (List.forall_mem_map.mpr (List.forall_mem_map.mpr ?_))
      exact fun k hk => single_join (hc.clean_rowOf ht hk)
    · refine single_marked (clean_of_all (by decide)) (List.forall_mem_map.mpr (List.forall_mem_map.mpr ?_))
      exact fun n hn => single_join (hc.clean_need hn)
    · refine single_marked (clean_of_all (by decide)) (List.forall_mem_map.mpr ?_)
      exact fun q hq => single_join (hc.clean_quad hq).2
  obtain ⟨m, s, hrun, hloaded⟩ := Load.run_machine
    (s := { debug := debug, lines := Load.sections c.constants c.needs c.rows ++ [""], printed := [] })
    (fun k hk => constant_range hr hk) hfits hc.nodup_needs
    (fun k hk => row_of_clean (by simp [Load.rowOf]) (hc.clean_rowOf ht hk))
    (fun n hn => row_of_clean (by simp [Load.Need.row, (hfits n hn).locals, (hfits n hn).temps]) (hc.clean_need hn))
    (fun q hq => row_of_clean (by rw [(hc.clean_quad hq).1]; decide) (hc.clean_quad hq).2) rfl
  have hhas := hloaded.has hc ht hr hfits
  refine ⟨s.printed, { m with input := inputLines input, printed := s.printed }, ?_, ?_⟩
  · rw [Machine.load, splitBy_newlines_lines hlines, hrun]
  · exact { hhas with }

end

/-! ### Accepted programs -/

namespace Phrase

variable {d : Dialect} {P : Phrase} {debug : Bool} {objectName : String} {v : Option Literal} {c : Compiler}

/-- The last step of a program makes the object text. -/
theorem Derives.objectText (hP : Derives d P) (hs : P.symbol = "program")
    (h : P.Compiles none (.start debug objectName) v c) :
    ∃ text, c.object = some text ∧ c.objectText = .ok text := by
  obtain ⟨_, _, _, _, -, -, -, -, -, hrun⟩ := hP.only hs (show framesOf _ =
    [(["found_program_name", "vars", "functions", "main", "body"], .finish)] by decide) h
  obtain ⟨printed, text, rfl, htext⟩ := Compile.finish_eq_ok hrun
  exact ⟨text, rfl, htext⟩

/-- Characters and strings are all that can separate. -/
theorem fits_clean_of_scanned (hscan : Scanned (P.yield.map fun x => (Spelling.kindOf x.1, x.2)))
    (h : ∀ x ∈ P.yield.map (fun x => (Spelling.kindOf x.1, x.2)), x.1 = "CTE_CHAR" ∨ x.1 = "STRING" →
      '\t' ∉ x.2.chars ∧ '\r' ∉ x.2.chars) : P.Fits (Compile.TextIn Clean) := by
  intro x hx s hs c hc
  have hmem : (Spelling.kindOf x.1, x.2) ∈ P.yield.map fun x => (Spelling.kindOf x.1, x.2) :=
    List.mem_map_of_mem hx
  have hchars : x.2.chars = s.toList := by
    rw [Option.some.inj hs]
    rfl
  obtain ⟨hline, hkind⟩ := hscan _ hmem
  have hplain := h _ hmem
  rw [hchars] at hline hkind hplain
  rcases hkind with hkind | hkind | hsolid
  · obtain ⟨htab, hreturn⟩ := hplain (.inl hkind)
    exact ⟨fun heq => hline (heq ▸ hc), fun heq => htab (heq ▸ hc), fun heq => hreturn (heq ▸ hc)⟩
  · obtain ⟨htab, hreturn⟩ := hplain (.inr hkind)
    exact ⟨fun heq => hline (heq ▸ hc), fun heq => htab (heq ▸ hc), fun heq => hreturn (heq ▸ hc)⟩
  · exact hsolid c hc

end Phrase

/-- A kind of token of more than one character is the symbol itself. -/
theorem Spelling.eq_of_kindOf {k : String} (hk : k.toList.length ≠ 1) (h : kindOf s = k) :
    s = k := by
  rw [kindOf] at h
  split at h
  · rw [← h, String.toList_ofList] at hk
    exact absurd rfl hk
  · exact h

namespace Machine.Has

variable {m : Machine} {c : Compiler} {s : String}

theorem plain_char (h : m.Has c) (hr : c.InRange) (hcells : Load.PlainCells m.constants)
    (hk : k ∈ c.constants) (hs : k.value = .text s) : Load.Plain s := by
  have hrange := constant_range hr hk
  have hcell := (h.constants (Load.indexOf k) _).mpr ⟨k, hk, by rw [Load.indexOf]; omega, rfl⟩
  exact hcells _ _ s hcell (by rw [hs]; rfl)

theorem plain_string (h : m.Has c) (hquads : ∀ q ∈ m.quads, ∀ f ∈ q, Load.Plain f) {i : Nat}
    (hs : c.quads[i]? = some (.ofText s)) : Load.Plain s := by
  have hmem : (Quad.ofText s).map Field.shown ∈ m.quads := by
    rw [h.quads]
    exact Array.mem_map_of_mem (Array.mem_of_getElem? hs)
  refine hquads _ hmem s ?_
  rw [Quad.ofText]
  simp [Field.shown]

end Machine.Has

/-- Loading what was built gives the program back exactly when none of its characters and none of its
strings has a tab or a carriage return. -/
theorem load_object_iff {d : Dialect} {leaves : List (String × Literal)} {c : Compiler} (h : Compiled d leaves c) :
    ∃ text, c.object = some text ∧ ∀ (debug : Bool) (input : String),
      (∃ printed m, Machine.load debug (Text.newlines text) input = (printed, .ok m) ∧ m.Has c) ↔
        ∀ x ∈ leaves, x.1 = "CTE_CHAR" ∨ x.1 = "STRING" → '\t' ∉ x.2.chars ∧ '\r' ∉ x.2.chars := by
  have hscan := h.scanned
  obtain ⟨P, debug₀, objectName, v, c₁, hP, hs, hsteps, ⟨printed₀, rfl⟩, rfl⟩ := h.exists_phrase
  obtain ⟨text, hobject, htext⟩ := hP.objectText hs hsteps
  have ht := (hP.settled hs (.done hsteps)).1
  have hr := (invariant_inRange d).compiles hP hsteps (Compiler.inRange_start debug₀ objectName)
  refine ⟨text, hobject, fun debug input => ⟨?_, fun hplain => ?_⟩⟩
  · rintro ⟨printed, m, hload, hhas⟩ x hx hkind
    obtain ⟨y, hy, rfl⟩ := List.mem_map.mp hx
    obtain ⟨hcells, hquads⟩ := Machine.load_plain hload
    obtain ⟨symbol, value⟩ := y
    cases value with
    | text s =>
      rcases hkind with hkind | hkind
      · obtain rfl := Spelling.eq_of_kindOf (by decide) hkind
        obtain ⟨k, hk, hks⟩ := hP.char_mem hs hsteps hy
        exact hhas.plain_char ((invariant_inRange d).reports ⟨printed₀, rfl⟩ hr) hcells hk hks
      · obtain rfl := Spelling.eq_of_kindOf (by decide) hkind
        obtain ⟨i, hi⟩ := hP.string_mem hs hsteps hy
        exact hhas.plain_string hquads hi
    | int i => exact ⟨List.not_mem_nil, List.not_mem_nil⟩
    | real r => exact ⟨List.not_mem_nil, List.not_mem_nil⟩
    | truth b => exact ⟨List.not_mem_nil, List.not_mem_nil⟩
  · have hc := hP.tidy (fun _ => id) hs (fits_clean_of_scanned hscan hplain) hsteps
    obtain ⟨printed, m, hload, hhas⟩ := exists_load hc ht hr htext debug input
    exact ⟨printed, m, hload, { hhas with }⟩

/-- The program with a loop and a call, whose texts are plain, comes back. -/
theorem loopedCall_load_object : ∃ c text,
    Compiled .plain (loopedCall.yield.map fun x => (Spelling.kindOf x.1, x.2)) c ∧ c.object = some text ∧
    ∃ printed m, Machine.load false (Text.newlines text) "" = (printed, .ok m) ∧ m.Has c := by
  obtain ⟨c, hc⟩ := exists_compiled_loopedCall
  obtain ⟨text, htext, hload⟩ := load_object_iff hc
  have hplain : ((loopedCall.yield.map fun x => (Spelling.kindOf x.1, x.2)).all fun x =>
      decide ('\t' ∉ x.2.chars ∧ '\r' ∉ x.2.chars)) = true := by decide +kernel
  refine ⟨c, text, hc, htext, (hload false "").mpr fun x hx _ => ?_⟩
  exact of_decide_eq_true (List.all_eq_true.mp hplain x hx)

end QuadLang
