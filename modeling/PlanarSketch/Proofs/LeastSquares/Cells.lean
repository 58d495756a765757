import PlanarSketch.LeastSquares.Basic

/-!
The scalars of the solver through two views: the value at an address and whether it is fixed.
Every operation is described by what it does to the views. Scalars are appended and never taken
away; constraints are appended, and those with a tag can be removed, which fixes their datums.
-/

namespace PlanarSketch.LeastSquares

variable {α : Type}

def value? (s : LeastSquares α) (a : Address) : Option α := s.cells[a]?.map Cell.value

def fixed? (s : LeastSquares α) (a : Address) : Option Bool := s.cells[a]?.map Cell.fixed

theorem isFixed_eq (s : LeastSquares α) (a : Address) : s.isFixed a = (s.fixed? a).getD true := by
  unfold isFixed fixed?
  cases s.cells[a]? <;> rfl

theorem fixed?_isSome {s : LeastSquares α} {a : Address} : (s.fixed? a).isSome ↔ a < s.size := by
  simp [fixed?, size]

theorem value?_isSome {s : LeastSquares α} {a : Address} : (s.value? a).isSome ↔ a < s.size := by
  simp [value?, size]

theorem isFixed_eq_false {s : LeastSquares α} {a : Address} :
    a ∈ List.range s.size ∧ s.isFixed a = false ↔ s.fixed? a = some false := by
  rw [isFixed_eq, List.mem_range, ← fixed?_isSome]
  cases s.fixed? a <;> simp

theorem read_values [Scalar α] {s : LeastSquares α} {a : Address} {v : α}
    (h : s.value? a = some v) : System.read s.values a = v := by
  rw [System.read, values, Array.getD_eq_getD_getElem?, Array.getElem?_map]
  rw [value?] at h
  rw [h, Option.getD_some]

theorem read_congr [Scalar α] {s t : LeastSquares α} {a : Address}
    (h : t.value? a = s.value? a) : System.read t.values a = System.read s.values a := by
  simp only [System.read, values, Array.getD_eq_getD_getElem?, Array.getElem?_map]
  exact congrArg (fun v => v.getD 0.0) h

theorem mem_unknowns {s : LeastSquares α} {a : Address} :
    a ∈ s.unknowns ↔ s.fixed? a = some false ∧ a ∉ s.measured := by
  rw [← isFixed_eq_false, and_assoc]
  simp [unknowns]

theorem mem_outputs {s : LeastSquares α} {a : Address} :
    a ∈ s.outputs ↔ s.fixed? a = some false ∧ a ∈ s.measured := by
  rw [← isFixed_eq_false, and_assoc]
  simp [outputs]

theorem mem_measured {s : LeastSquares α} {a : Address} :
    a ∈ s.measured ↔ ∃ e ∈ s.entries, e.driving = false ∧ a ∈ e.datums := by
  simp [measured, measuringEntries, and_assoc]

/-! ### Fixing scalars -/

theorem getElem?_fix (cells : Array (Cell α)) (a b : Address) :
    (fix cells a)[b]? =
      cells[b]?.map fun c => if b = a then { c with fixed := true } else c := by
  rw [fix, Array.getElem?_modify]
  by_cases hab : a = b
  · subst hab
    simp
  · have hba : b ≠ a := fun h => hab h.symm
    simp [hab, hba]

theorem fix_of_none {cells : Array (Cell α)} {a : Address} (h : cells[a]? = none) :
    fix cells a = cells := by
  apply Array.ext_getElem?
  intro b
  rw [getElem?_fix]
  by_cases hb : b = a
  · subst hb
    rw [h]
    rfl
  · simp [hb]

theorem fix_of_some {cells : Array (Cell α)} {a : Address} {c : Cell α}
    (h : cells[a]? = some c) : fix cells a = cells.setIfInBounds a ⟨c.value, true⟩ := by
  obtain ⟨ha, -⟩ := Array.getElem?_eq_some_iff.1 h
  apply Array.ext_getElem?
  intro b
  rw [getElem?_fix, Array.getElem?_setIfInBounds]
  by_cases hb : a = b
  · subst hb
    rw [if_pos rfl, if_pos ha, h]
    simp
  · have hba : b ≠ a := fun h => hb h.symm
    simp [hb, hba]

@[simp] theorem size_foldl_fix (as : List Address) (cells : Array (Cell α)) :
    (as.foldl fix cells).size = cells.size := by
  induction as generalizing cells with
  | nil => rfl
  | cons a as ih => simp [ih, fix]

theorem getElem?_foldl_fix (as : List Address) (cells : Array (Cell α)) (b : Address) :
    (as.foldl fix cells)[b]? =
      cells[b]?.map fun c => if b ∈ as then { c with fixed := true } else c := by
  induction as generalizing cells with
  | nil => simp
  | cons a as ih =>
      rw [List.foldl_cons, ih, getElem?_fix, Option.map_map]
      congr 1
      funext c
      by_cases hba : b = a <;> by_cases hb : b ∈ as <;> simp [hba, hb]

theorem foldl_fix_append {β : Type} (cells : Array (Cell α)) (ls : List β) (f : β → α)
    (fixed : Bool) :
    (List.range' cells.size ls.length).foldl fix
        (cells ++ (ls.map fun l => (⟨f l, fixed⟩ : Cell α)).toArray) =
      cells ++ (ls.map fun l => (⟨f l, true⟩ : Cell α)).toArray := by
  apply Array.ext_getElem?
  intro b
  rw [getElem?_foldl_fix]
  -- the range begins where the old scalars end
  by_cases hb : b < cells.size
  · have hout : b ∉ List.range' cells.size ls.length := by
      rw [List.mem_range'_1]
      omega
    rw [Array.getElem?_append_left hb, Array.getElem?_append_left hb]
    simp [hout]
  · rw [Array.getElem?_append_right (by omega), Array.getElem?_append_right (by omega)]
    by_cases hlen : b - cells.size < ls.length
    · have hin : b ∈ List.range' cells.size ls.length := by
        rw [List.mem_range'_1]
        omega
      simp [hin, hlen]
    · simp [hlen]

theorem mem_entries_clearTag {s : LeastSquares α} {tag : Int} {e : Entry α} :
    e ∈ (s.clearTag tag).entries ↔ e ∈ s.entries ∧ e.tag ≠ tag := by
  simp [clearTag]

theorem getElem?_clearTag (s : LeastSquares α) (tag : Int) (a : Address) :
    (s.clearTag tag).cells[a]? = s.cells[a]?.map fun c =>
      if ∃ e ∈ s.entries, e.tag = tag ∧ a ∈ e.datums then { c with fixed := true } else c := by
  rw [clearTag, getElem?_foldl_fix]
  congr 1
  funext c
  simp [and_assoc]

theorem value?_clearTag (s : LeastSquares α) (tag : Int) (a : Address) :
    (s.clearTag tag).value? a = s.value? a := by
  rw [value?, value?, getElem?_clearTag, Option.map_map]
  congr 1
  funext c
  rw [Function.comp_apply]
  split <;> rfl

theorem size_clearTag (s : LeastSquares α) (tag : Int) : (s.clearTag tag).size = s.size :=
  size_foldl_fix _ _

/-- Removing constraints fixes what they measured into and frees nothing. -/
theorem fixed?_clearTag_of_not_mem {s : LeastSquares α} {tag : Int} {a : Address}
    (h : ∀ e ∈ s.entries, a ∉ e.datums) : (s.clearTag tag).fixed? a = s.fixed? a := by
  have hno : ¬ ∃ e ∈ s.entries, e.tag = tag ∧ a ∈ e.datums := by
    rintro ⟨e, he, -, ha⟩
    exact h e he ha
  rw [fixed?, getElem?_clearTag]
  simp only [hno, if_false, Option.map_id', fixed?]

theorem fixed?_clearTag_eq_true {s : LeastSquares α} {tag : Int} {a : Address}
    (h : s.fixed? a = some true) : (s.clearTag tag).fixed? a = some true := by
  obtain ⟨c, hc, hfixed⟩ := Option.map_eq_some_iff.1 h
  rw [fixed?, getElem?_clearTag, hc]
  simp only [Option.map_some]
  split
  · rfl
  · rw [hfixed]

/-- A scalar that is still free is measured into by a constraint that is still there. -/
theorem fixed?_clearTag_eq_false {s : LeastSquares α} {tag : Int} {a : Address}
    (h : (s.clearTag tag).fixed? a = some false) :
    s.fixed? a = some false ∧ ∀ e ∈ s.entries, e.tag = tag → a ∉ e.datums := by
  rw [fixed?, getElem?_clearTag, Option.map_map] at h
  obtain ⟨c, hc, hfixed⟩ := Option.map_eq_some_iff.1 h
  rw [Function.comp_apply] at hfixed
  split at hfixed
  · cases hfixed
  · next hno =>
      refine ⟨by rw [fixed?, hc, Option.map_some, hfixed], ?_⟩
      intro e he htag ha
      exact hno ⟨e, he, htag, ha⟩

theorem fixed?_write (cells : Array (Cell α)) (e : Address × α) (a : Address) :
    (write cells e)[a]?.map Cell.fixed = cells[a]?.map Cell.fixed := by
  rw [write, Array.getElem?_modify]
  by_cases ha : e.1 = a
  · rw [if_pos ha, Option.map_map]
    rfl
  · rw [if_neg ha]

/-- A solution moves scalars and leaves their status alone. -/
theorem fixed?_applySolution (s : LeastSquares α) : s.applySolution.fixed? = s.fixed? := by
  funext a
  rw [fixed?, applySolution, fixed?]
  -- whatever was found, each entry only writes a value
  generalize s.pending.getD [] = solution
  generalize s.cells = cells
  induction solution generalizing cells with
  | nil => rfl
  | cons e solution ih => rw [List.foldl_cons, ih, fixed?_write]

theorem getElem?_write (cells : Array (Cell α)) (e : Address × α) (a : Address) :
    (write cells e)[a]? =
      if e.1 = a then cells[a]?.map fun c => { c with value := e.2 } else cells[a]? :=
  Array.getElem?_modify ..

theorem getElem?_foldl_write_congr {cells cells' : Array (Cell α)} {a : Address}
    (h : cells[a]? = cells'[a]?) (solution : List (Address × α)) :
    (solution.foldl write cells)[a]? = (solution.foldl write cells')[a]? := by
  induction solution generalizing cells cells' with
  | nil => exact h
  | cons e solution ih =>
      refine ih ?_
      rw [getElem?_write, getElem?_write, h]

theorem value?_applySolution_of_not_mem {s : LeastSquares α} {a : Address}
    (h : ∀ e ∈ s.pending.getD [], e.1 ≠ a) : s.applySolution.value? a = s.value? a := by
  rw [value?, applySolution, value?]
  revert h
  generalize s.pending.getD [] = solution
  generalize s.cells = cells
  intro h
  induction solution generalizing cells with
  | nil => rfl
  | cons e solution ih =>
      rw [List.foldl_cons, ih _ fun e' he' => h e' (List.mem_cons_of_mem e he'), getElem?_write,
        if_neg (h e List.mem_cons_self)]

theorem value_foldl_write (cells : Array (Cell α)) (as : List Address) (x : Address → α)
    (a : Address) :
    ((as.map fun a => (a, x a)).foldl write cells)[a]?.map Cell.value =
      if a ∈ as then cells[a]?.map fun _ => x a else cells[a]?.map Cell.value := by
  induction as generalizing cells with
  | nil => rfl
  | cons b as ih =>
      rw [List.map_cons, List.foldl_cons, ih, getElem?_write]
      by_cases hb : b = a
      · subst hb
        simp [Option.map_map, Function.comp_def]
      · have hab : a ≠ b := Ne.symm hb
        simp [hb, hab]

/-- A pending solution goes to the scalars that it was found for, and the others stay. -/
theorem value?_applySolution_of_pending {s : LeastSquares α} {as : List Address} {x : Address → α}
    (hpending : s.pending = some (as.map fun a => (a, x a))) {a : Nat} (ha : a < s.size) :
    s.applySolution.value? a = if a ∈ as then some (x a) else s.value? a := by
  have hcell : s.cells[a]? = some s.cells[a] := Array.getElem?_eq_getElem ha
  have hwrite := value_foldl_write s.cells as x a
  rw [hcell] at hwrite
  rw [value?, applySolution, hpending, value?, hcell]
  exact hwrite

theorem size_applySolution (s : LeastSquares α) : s.applySolution.size = s.size := by
  rw [LeastSquares.size, applySolution, LeastSquares.size]
  generalize s.pending.getD [] = solution
  generalize s.cells = cells
  induction solution generalizing cells with
  | nil => rfl
  | cons e solution ih => rw [List.foldl_cons, ih, write, Array.size_modify]

theorem applySolution_of_none {s : LeastSquares α} (h : s.pending = none) : s.applySolution = s := by
  obtain ⟨cells, pending, records, nextHandle, radii, entries, config, diagnosis⟩ := s
  cases h
  rfl

theorem value?_applySolution_congr {s t : LeastSquares α} {a : Address} (hpending : t.pending = s.pending)
    (hcell : t.cells[a]? = s.cells[a]?) :
    t.applySolution.value? a = s.applySolution.value? a := by
  rw [value?, value?, applySolution, applySolution, hpending,
    getElem?_foldl_write_congr hcell]

/-! ### Calls that may fail -/

/-- A geometry is made, or has an address that does not exist. -/
theorem make_cases [Scalar α] [Decompositions α] (s : LeastSquares α) (r : Record) :
    (∃ a ∈ r.addresses, s.size ≤ a ∧ Solver.make s r = (.error (.addressOutOfRange a), s)) ∨
      (∀ a ∈ r.addresses, a < s.size) ∧ Solver.make s r = (.ok ⟨s.nextHandle⟩, { s with
        radii := addRadius s.radii r
        nextHandle := s.nextHandle + 1
        records := s.records.insert ⟨s.nextHandle⟩ r }) := by
  have hmake : Solver.make s r = s.attempt (s.make r) := rfl
  rw [hmake, LeastSquares.make]
  cases hfind : r.addresses.find? fun a => decide (s.size ≤ a) with
  | some a =>
      have hsize : s.size ≤ a := by simpa using List.find?_some hfind
      exact .inl ⟨a, List.mem_of_find?_eq_some hfind, hsize, rfl⟩
  | none => exact .inr ⟨fun a ha => by simpa using List.find?_eq_none.1 hfind a ha, rfl⟩

theorem add_eq [Scalar α] [Decompositions α] (s : LeastSquares α) (c : Call α) :
    Solver.add s c = match Entry.ofCall s.scope c with
      | .error e => (.error e, s)
      | .ok e => (.ok (), { s with entries := s.entries ++ [e] }) := by
  change s.attempt ((s.add c).map fun t => ((), t)) = _
  rw [LeastSquares.add]
  cases Entry.ofCall s.scope c <;> rfl

/-! ### Radii -/

theorem mem_addresses_of_radius? {r : Record} {a : Nat} (h : radius? r = some a) :
    a ∈ r.addresses := by
  cases r <;> cases h <;> simp [Shape.addresses, Shape.scalars]

theorem mem_addRadius {radii : List Address} {r : Record} {a : Nat} (h : a ∈ addRadius radii r) :
    a ∈ radii ∨ radius? r = some a := by
  unfold addRadius at h
  cases hr : radius? r with
  | none =>
      rw [hr] at h
      exact .inl h
  | some b =>
      rw [hr] at h
      dsimp only at h
      split at h
      · exact .inl h
      · rcases List.mem_cons.1 h with rfl | h
        · exact .inr rfl
        · exact .inl h

theorem subset_addRadius (radii : List Address) (r : Record) : radii ⊆ addRadius radii r := by
  unfold addRadius
  split
  · split
    · exact List.Subset.refl _
    · exact List.subset_cons_self _ _
  · exact List.Subset.refl _

/-! ### Growth -/

/-- The solver `t` is `s` with scalars and constraints appended. Its handles may differ. -/
structure Grown (s : LeastSquares α) (cells : List (Cell α)) (entries : List (Entry α))
    (t : LeastSquares α) : Prop where
  cells : t.cells = s.cells ++ cells.toArray
  entries : t.entries = s.entries ++ entries
  pending : t.pending = s.pending
  config : t.config = s.config
  diagnosis : t.diagnosis = s.diagnosis

namespace Grown

variable {s t u : LeastSquares α} {cells cells' : List (Cell α)} {entries entries' : List (Entry α)}

theorem refl (s : LeastSquares α) : Grown s [] [] s := ⟨by simp, by simp, rfl, rfl, rfl⟩

theorem trans (h : Grown s cells entries t) (h' : Grown t cells' entries' u) :
    Grown s (cells ++ cells') (entries ++ entries') u where
  cells := by simp [h'.cells, h.cells]
  entries := by rw [h'.entries, h.entries, List.append_assoc]
  pending := h'.pending.trans h.pending
  config := h'.config.trans h.config
  diagnosis := h'.diagnosis.trans h.diagnosis

theorem size (h : Grown s cells entries t) : t.size = s.size + cells.length := by
  simp [LeastSquares.size, h.cells]

theorem getElem?_old (h : Grown s cells entries t) {a : Address} (ha : a < s.size) :
    t.cells[a]? = s.cells[a]? := by
  rw [h.cells, Array.getElem?_append_left ha]

theorem getElem?_new (h : Grown s cells entries t) (i : Nat) :
    t.cells[s.size + i]? = cells[i]? := by
  rw [h.cells, Array.getElem?_append_right (by simp [LeastSquares.size])]
  simp [LeastSquares.size]

theorem value?_old (h : Grown s cells entries t) {a : Address} (ha : a < s.size) :
    t.value? a = s.value? a := by
  rw [value?, h.getElem?_old ha, value?]

theorem fixed?_old (h : Grown s cells entries t) {a : Address} (ha : a < s.size) :
    t.fixed? a = s.fixed? a := by
  rw [fixed?, h.getElem?_old ha, fixed?]

theorem fixed?_new {β : Type} {ls : List β} {f : β → α} {b : Bool} {a : Nat}
    (h : Grown s (ls.map fun l => ⟨f l, b⟩) entries t) (ha : s.size ≤ a) (hlt : a < t.size) :
    t.fixed? a = some b := by
  obtain ⟨i, rfl⟩ := Nat.exists_eq_add_of_le ha
  rw [h.size, List.length_map] at hlt
  have hi : i < ls.length := Nat.lt_of_add_lt_add_left hlt
  rw [fixed?, h.getElem?_new, List.getElem?_map, List.getElem?_eq_getElem hi]
  rfl

theorem measured (h : Grown s cells entries t) {a : Address} :
    a ∈ t.measured ↔ a ∈ s.measured ∨ ∃ e ∈ entries, e.driving = false ∧ a ∈ e.datums := by
  simp only [mem_measured, h.entries, List.mem_append, or_and_right, exists_or]

end Grown

/-- The solver `t` is `s` with scalars of nobody's appended: each is fixed or measured into, and
the new constraints measure into new scalars only. -/
structure Annexed (s t : LeastSquares α) : Prop where
  grown : ∃ cells entries, s.Grown cells entries t ∧
    ∀ {e} {a : Nat}, e ∈ entries → a ∈ e.datums → s.size ≤ a ∧ a < t.size
  settled : ∀ {a : Nat}, s.size ≤ a → t.fixed? a = some false → a ∈ t.measured

namespace Annexed

variable {s t : LeastSquares α} {β : Type} {ls : List β} {f : β → α}

theorem of_fixed (h : s.Grown (ls.map fun l => ⟨f l, true⟩) [] t) : s.Annexed t where
  grown := ⟨_, [], h, fun he => (List.not_mem_nil he).elim⟩
  settled := by
    intro a ha hfixed
    have htrue := h.fixed?_new ha (fixed?_isSome.1 (by rw [hfixed]; rfl))
    cases htrue.symm.trans hfixed

theorem of_entry {e : Entry α} {d : Bool} (h : s.Grown (ls.map fun l => ⟨f l, d⟩) [e] t)
    (hd : e.driving = d) (hdatums : e.datums = List.range' s.size ls.length) :
    s.Annexed t := by
  have hsize := h.size
  rw [List.length_map] at hsize
  have hmem : ∀ {a : Nat}, a ∈ e.datums ↔ s.size ≤ a ∧ a < t.size := by
    intro a
    rw [hdatums, List.mem_range'_1, hsize]
  refine ⟨⟨_, _, h, ?_⟩, ?_⟩
  · intro e' a he ha
    rw [List.mem_singleton] at he
    subst he
    exact hmem.1 ha
  · intro a ha hfixed
    have hlt : a < t.size := fixed?_isSome.1 (by rw [hfixed]; rfl)
    have hdriving : e.driving = false :=
      hd.trans (Option.some.inj ((h.fixed?_new ha hlt).symm.trans hfixed))
    exact h.measured.2 (.inr ⟨e, List.mem_singleton_self e, hdriving, hmem.2 ⟨ha, hlt⟩⟩)

end Annexed

end PlanarSketch.LeastSquares
