import Mathlib.Data.List.Dedup
import Mathlib.Data.List.Sort
import PlanarSketch.Proofs.LeastSquares.Bounds

/-!
The scalars of the solver in two arrays, one of values and one of flags. Every operation has to keep
the two alike, and each access to one of them may miss it; an operation that misses has no result.
Run side by side, the cells say what both arrays hold. So no operation misses after any others, and
the arrays do not come to differ in length.
-/

namespace PlanarSketch

section

variable {β γ : Type} {as : List β}

theorem filterM_eq {test : β → Option Bool} {p : β → Bool}
    (h : ∀ a ∈ as, test a = some (p a)) : as.filterM test = some (as.filter p) := by
  have haux : ∀ acc, as.filterAuxM test acc = some ((as.filter p).reverse ++ acc) := by
    induction as with
    | nil => exact fun _ => rfl
    | cons a as ih =>
        obtain ⟨ha, has⟩ := List.forall_mem_cons.1 h
        intro acc
        rw [List.filterAuxM, ha]
        change as.filterAuxM test _ = _
        rw [ih has]
        cases hp : p a <;> simp [hp]
  rw [List.filterM, haux]
  simp

theorem mapM_eq {f : β → Option γ} {g : β → γ}
    (h : ∀ a ∈ as, f a = some (g a)) : as.mapM f = some (as.map g) := by
  induction as with
  | nil => rfl
  | cons a as ih =>
      obtain ⟨ha, has⟩ := List.forall_mem_cons.1 h
      rw [List.mapM_cons, ha, ih has]
      rfl

end

/-- The state of the solver, with the values of the scalars apart from their flags. -/
structure Columns (α : Type) where
  values : Array α
  flags : Array Bool
  pending : Option (List (Address × α))
  records : Table Handle Record
  nextHandle : UInt32
  radii : List Address
  entries : List (Entry α)
  config : Config α
  diagnosis : Diagnosis

namespace Columns

section

variable {β : Type}

/-- An access that misses the array fails. -/
def write? (xs : Array β) (a : Address) (x : β) : Option (Array β) :=
  if a < xs.size then some (xs.setIfInBounds a x) else none

theorem write?_of_lt {xs : Array β} {a : Address} (h : a < xs.size) (x : β) :
    write? xs a x = some (xs.setIfInBounds a x) := if_pos h

end

variable {α : Type}

def ofConfig (config : Config α) : Columns α :=
  ⟨#[], #[], none, .empty, 0, [], [], config, .empty⟩

def push (s : Columns α) (v : α) (fixed : Bool) : Columns α :=
  { s with values := s.values.push v, flags := s.flags.push fixed }

def assign? (s : Columns α) (a : Address) (v : α) (fixed : Bool) : Option (Columns α) :=
  if a < s.values.size then do
    let values ← write? s.values a v
    let flags ← write? s.flags a fixed
    return { s with values, flags }
  else some s

def make (s : Columns α) (r : Record) : Columns α :=
  match r.addresses.find? fun a => s.values.size ≤ a with
  | some _ => s
  | none =>
      { s with
        radii := LeastSquares.addRadius s.radii r
        nextHandle := s.nextHandle + 1
        records := s.records.insert ⟨s.nextHandle⟩ r }

def clearTag? (s : Columns α) (tag : Int) : Option (Columns α) := do
  let gone := s.entries.filter fun e => e.tag = tag
  let flags ← (gone.flatMap Entry.datums).foldlM (fun flags a => write? flags a true) s.flags
  return { s with flags, entries := s.entries.filter fun e => e.tag ≠ tag }

def drivingEntries (s : Columns α) : List (Entry α) := s.entries.filter Entry.driving

def measuringEntries (s : Columns α) : List (Entry α) := s.entries.filter fun e => !e.driving

def measured (s : Columns α) : List Address := s.measuringEntries.flatMap Entry.datums

def isFree? (s : Columns α) (a : Address) : Option Bool := s.flags[a]?.map not

/-- Of all scalars, those that are free and not measured into. -/
def unknowns? (s : Columns α) : Option (List Address) :=
  (List.range s.values.size).filterM fun a =>
    (s.isFree? a).map fun free => free && !s.measured.contains a

/-- Of the scalars that are measured into, those that are free, in order. -/
def outputs? (s : Columns α) : Option (List Address) :=
  (s.measured.dedup.filterM s.isFree?).map List.mergeSort

def applySolution (s : Columns α) : Columns α :=
  { s with
    values := (s.pending.getD []).foldl (fun values e => values.setIfInBounds e.1 e.2) s.values
    pending := none }

variable [Scalar α]

def add (s : Columns α) (c : Call α) : Columns α :=
  match Entry.ofCall ⟨s.records, s.values.size⟩ c with
  | .ok e => { s with entries := s.entries ++ [e] }
  | .error _ => s

def rowTolerance (s : Columns α) : α :=
  Scalar.sqrt (2.0 * s.config.convergence * LeastSquares.relaxation)

/-- Radii are looked up in the solution only where all else has been met. -/
def classify? (s : Columns α) (error : α) (solution : Array α) (d : Diagnosis) : Option Status :=
  if !d.conflicting.isEmpty then some .failed
  else if error ≤ s.config.convergence then do
    let radii ← s.radii.mapM fun r => solution[r]?
    return if radii.any fun r => decide (r < 0.0) then .invalid else .success
  else if error ≤ s.config.convergence * LeastSquares.relaxation then some .converged
  else some .failed

variable [Decompositions α]

def solve? (s : Columns α) (algorithm : Algorithm) : Option (Status × Columns α) := do
  let limits : Limits α := ⟨s.config.maxIterations, s.config.convergence⟩
  let unknowns ← s.unknowns?
  let driving : System α := ⟨s.values, unknowns, s.drivingEntries.map LeastSquares.Entry.scaled⟩
  let outcome := (LeastSquares.problem driving).minimize Decompositions.algebra algorithm limits
  let jacobian := driving.jacobian outcome.x
  let diagnosis := Diagnosis.diagnose jacobian.width s.rowTolerance
    (LeastSquares.rowGroups s.drivingEntries (jacobian.rows.zip (driving.residuals outcome.x)))
  let outputs ← s.outputs?
  let solved := driving.expand outcome.x
  let measuring : System α :=
    ⟨solved, outputs, s.measuringEntries.map LeastSquares.Entry.scaled⟩
  let solution := if outputs.isEmpty then solved else
    measuring.expand ((LeastSquares.problem measuring).minimize Decompositions.algebra
      .levenbergMarquardt limits).x
  let status ← s.classify? outcome.error solution diagnosis
  let found ← (unknowns ++ outputs).mapM fun a => solution[a]?.map fun v => (a, v)
  return (status, { s with diagnosis, pending := some found })

/-- What an operation leaves, also when it is refused; nothing when it misses an array. -/
def run? (s : Columns α) : Operation α → Option (Columns α)
  | .push v fixed => some (s.push v fixed)
  | .assign a v fixed => s.assign? a v fixed
  | .make r => some (s.make r)
  | .release h => some { s with records := s.records.erase h }
  | .add c => some (s.add c)
  | .clearTag tag => s.clearTag? tag
  | .solve algorithm => (s.solve? algorithm).map Prod.snd
  | .applySolution => some s.applySolution
  | .clear => some (ofConfig s.config)
  | .setDebugMode m => some { s with config := { s.config with debugMode := m } }
  | .setMaxIterations n => some { s with config := { s.config with maxIterations := n } }
  | .setConvergence c => some { s with config := { s.config with convergence := c } }

end Columns

namespace LeastSquares

variable {α : Type} {s : LeastSquares α} {a : Nat}

/-- The two arrays that hold the cells. -/
def columns (s : LeastSquares α) : Columns α :=
  ⟨s.values, s.cells.map Cell.fixed, s.pending, s.records, s.nextHandle, s.radii, s.entries,
    s.config, s.diagnosis⟩

theorem size_flags (s : LeastSquares α) : s.columns.flags.size = s.size := Array.size_map ..

theorem columns_ofConfig (config : Config α) :
    (ofConfig config).columns = Columns.ofConfig config := by
  simp [columns, ofConfig, values, Columns.ofConfig]

theorem columns_push (s : LeastSquares α) (v : α) (fixed : Bool) :
    s.columns.push v fixed = (s.push v fixed).columns := by
  simp [Columns.push, columns, push, values]

theorem columns_assign (s : LeastSquares α) (a : Address) (v : α) (fixed : Bool) :
    s.columns.assign? a v fixed =
      some (s.attempt ((s.assign a v fixed).map fun t => ((), t))).2.columns := by
  have hsize : s.columns.values.size = s.size := s.size_values
  rw [Columns.assign?, hsize, assign]
  by_cases ha : a < s.size
  · rw [if_pos ha, if_pos ha, Columns.write?_of_lt (hsize.symm ▸ ha),
      Columns.write?_of_lt (s.size_flags.symm ▸ ha)]
    simp [attempt, Except.map, columns, values]
  · rw [if_neg ha, if_neg ha]
    rfl

theorem columns_make (s : LeastSquares α) (r : Record) :
    s.columns.make r = (s.attempt (s.make r)).2.columns := by
  have hsize : s.columns.values.size = s.size := s.size_values
  rw [Columns.make, make, hsize]
  cases r.addresses.find? fun a => s.size ≤ a <;> rfl

section

variable {cells : Array (Cell α)}

theorem map_fixed_fix (ha : a < cells.size) :
    (fix cells a).map Cell.fixed = (cells.map Cell.fixed).setIfInBounds a true := by
  rw [fix_of_some (Array.getElem?_eq_getElem ha), Array.map_setIfInBounds]

theorem map_value_fix (cells : Array (Cell α)) (a : Nat) :
    (fix cells a).map Cell.value = cells.map Cell.value := by
  apply Array.ext_getElem?
  intro b
  rw [Array.getElem?_map, getElem?_fix, Option.map_map, Array.getElem?_map]
  congr 1
  funext c
  rw [Function.comp_apply]
  split <;> rfl

theorem map_value_write (cells : Array (Cell α)) (e : Address × α) :
    (write cells e).map Cell.value = (cells.map Cell.value).setIfInBounds e.1 e.2 := by
  apply Array.ext_getElem?
  intro b
  rw [Array.getElem?_setIfInBounds, Array.getElem?_map, Array.getElem?_map, write,
    Array.getElem?_modify, Array.size_map]
  by_cases hb : e.1 = b
  · subst hb
    rw [if_pos rfl, if_pos rfl, Option.map_map]
    by_cases hlt : e.1 < cells.size
    · simp [hlt]
    · simp [hlt]
  · rw [if_neg hb, if_neg hb]

theorem map_fixed_write (cells : Array (Cell α)) (e : Address × α) :
    (write cells e).map Cell.fixed = cells.map Cell.fixed := by
  apply Array.ext_getElem?
  intro b
  rw [Array.getElem?_map, Array.getElem?_map, fixed?_write]

theorem foldlM_write? {as : List Address} (h : ∀ a ∈ as, a < cells.size) :
    as.foldlM (fun flags a => Columns.write? flags a true) (cells.map Cell.fixed) =
        some ((as.foldl fix cells).map Cell.fixed) ∧
      (as.foldl fix cells).map Cell.value = cells.map Cell.value := by
  induction as generalizing cells with
  | nil => exact ⟨rfl, rfl⟩
  | cons a as ih =>
      obtain ⟨ha, has⟩ := List.forall_mem_cons.1 h
      have hrest : ∀ b ∈ as, b < (fix cells a).size := by simpa [fix] using has
      obtain ⟨hflags, hvalues⟩ := ih hrest
      rw [List.foldlM_cons, Columns.write?_of_lt (by simpa using ha), ← map_fixed_fix ha]
      exact ⟨hflags, hvalues.trans (map_value_fix cells a)⟩

theorem foldl_write (found : List (Address × α)) (cells : Array (Cell α)) :
    found.foldl (fun values e => values.setIfInBounds e.1 e.2) (cells.map Cell.value) =
        (found.foldl write cells).map Cell.value ∧
      (found.foldl write cells).map Cell.fixed = cells.map Cell.fixed := by
  induction found generalizing cells with
  | nil => exact ⟨rfl, rfl⟩
  | cons e found ih =>
      obtain ⟨hfound, hkept⟩ := ih (write cells e)
      rw [List.foldl_cons, List.foldl_cons, ← map_value_write]
      exact ⟨hfound, hkept.trans (map_fixed_write cells e)⟩

end

theorem columns_clearTag (hs : s.Bounded) (tag : Int) :
    s.columns.clearTag? tag = some (s.clearTag tag).columns := by
  have hdatums : ∀ a ∈ (s.entries.filter fun e => e.tag = tag).flatMap Entry.datums,
      a < s.cells.size := by
    intro a ha
    obtain ⟨e, he, ha⟩ := List.mem_flatMap.1 ha
    exact hs a (.datum (List.mem_of_mem_filter he) ha)
  obtain ⟨hflags, hvalues⟩ := foldlM_write? hdatums
  rw [Columns.clearTag?]
  simp only [columns, hflags]
  simp [clearTag, values, hvalues]

theorem columns_applySolution (s : LeastSquares α) :
    s.columns.applySolution = s.applySolution.columns := by
  obtain ⟨hvalues, hflags⟩ := foldl_write (s.pending.getD []) s.cells
  rw [Columns.applySolution]
  simp [columns, applySolution, values, hvalues, hflags]

theorem isFree?_columns (ha : a < s.size) : s.columns.isFree? a = some !s.isFixed a := by
  have hcell : s.cells[a]? = some s.cells[a] := Array.getElem?_eq_getElem ha
  have hflag : s.columns.flags[a]? = some s.cells[a].fixed := by
    rw [columns, Array.getElem?_map, hcell]
    rfl
  rw [Columns.isFree?, hflag, isFixed, hcell]
  rfl

theorem unknowns?_columns (s : LeastSquares α) : s.columns.unknowns? = some s.unknowns := by
  have hsize : s.columns.values.size = s.size := s.size_values
  rw [Columns.unknowns?, hsize, unknowns]
  refine filterM_eq fun a ha => ?_
  rw [isFree?_columns (List.mem_range.1 ha)]
  rfl

theorem outputs?_columns (hs : s.Bounded) : s.columns.outputs? = some s.outputs := by
  have hmeasured : ∀ a ∈ s.measured, a < s.size := by
    intro a ha
    obtain ⟨e, he, -, ha⟩ := mem_measured.1 ha
    exact hs a (.datum he ha)
  have hfree : s.columns.measured.dedup.filterM s.columns.isFree? =
      some (s.measured.dedup.filter fun a => !s.isFixed a) :=
    filterM_eq fun a ha => isFree?_columns (hmeasured a (List.mem_dedup.1 ha))
  rw [Columns.outputs?, hfree, Option.map_some, Option.some_inj]
  -- both are in order, and have the same elements once each
  refine List.Perm.eq_of_sortedLE (List.sortedLE_mergeSort) ?_ ?_
  · exact ((List.pairwise_lt_range.filter _).imp Nat.le_of_lt).sortedLE
  · refine (List.mergeSort_perm ..).trans ((List.perm_ext_iff_of_nodup ?_ ?_).2 fun a => ?_)
    · exact (List.nodup_dedup _).filter _
    · exact List.nodup_range.filter _
    · rw [List.mem_filter, List.mem_dedup, mem_outputs, ← isFixed_eq_false, List.mem_range]
      have hlt := hmeasured a
      simp only [Bool.not_eq_true']
      tauto

variable [Scalar α]

theorem getElem?_eq_read {values : Array α} (h : a < values.size) :
    values[a]? = some (System.read values a) := by
  rw [System.read, Array.getD_eq_getD_getElem?, Array.getElem?_eq_getElem h, Option.getD_some]

theorem columns_add [Decompositions α] (s : LeastSquares α) (c : Call α) :
    s.columns.add c = (s.attempt ((s.add c).map fun t => ((), t))).2.columns := by
  have hscope : (⟨s.columns.records, s.columns.values.size⟩ : Scope) = s.scope :=
    congrArg (Scope.mk _) s.size_values
  rw [Columns.add, hscope, add]
  cases Entry.ofCall s.scope c <;> rfl

theorem classify?_columns {solution : Array α} (h : ∀ a ∈ s.radii, a < solution.size) (error : α)
    (d : Diagnosis) :
    s.columns.classify? error solution d = some (s.classify error solution d) := by
  have hradii : s.columns.radii.mapM (fun r => solution[r]?) =
      some (s.radii.map (System.read solution)) :=
    mapM_eq fun a ha => getElem?_eq_read (h a ha)
  rw [Columns.classify?, classify, hradii, show s.columns.config = s.config from rfl]
  by_cases hconflicting : (!d.conflicting.isEmpty) = true
  · rw [if_pos hconflicting, if_pos hconflicting]
  rw [if_neg hconflicting, if_neg hconflicting]
  by_cases hmet : error ≤ s.config.convergence
  · have hany : (s.radii.map (System.read solution)).any (fun r => decide (r < 0.0)) =
        s.radii.any fun r => decide (System.read solution r < 0.0) := List.any_map ..
    rw [if_pos hmet, if_pos hmet, ← hany]
    rfl
  rw [if_neg hmet, if_neg hmet]
  exact (apply_ite some ..).symm

variable [Decompositions α]

theorem solve?_columns (hs : s.Bounded) (algorithm : Algorithm) :
    s.columns.solve? algorithm =
      some ((s.solve algorithm).1, (s.solve algorithm).2.columns) := by
  have hcontained := hs.contained
  have hstatus := classify?_columns (hcontained.classify algorithm) (s.descend algorithm).error
    (s.diagnose (s.descend algorithm).x)
  have hfound : (s.unknowns ++ s.outputs).mapM
      (fun a => (s.solution algorithm)[a]?.map fun v => (a, v)) =
        some ((s.unknowns ++ s.outputs).map fun a => (a, System.read (s.solution algorithm) a)) :=
    mapM_eq fun a ha => by rw [getElem?_eq_read (hcontained.result algorithm a ha), Option.map_some]
  rw [Columns.solve?, unknowns?_columns, outputs?_columns hs]
  -- up to here both have computed the same, from values, free scalars and entries
  change (s.columns.classify? (s.descend algorithm).error (s.solution algorithm)
    (s.diagnose (s.descend algorithm).x) >>= _) = _
  rw [hstatus]
  change ((s.unknowns ++ s.outputs).mapM
      (fun a => (s.solution algorithm)[a]?.map fun v => (a, v)) >>= _) = _
  rw [hfound]
  rfl

theorem run?_columns (hs : s.Bounded) (op : Operation α) :
    s.columns.run? op = some (op.run s).columns := by
  cases op with
  | push v fixed => exact congrArg some (s.columns_push v fixed)
  | assign a v fixed => exact s.columns_assign a v fixed
  | make r => exact congrArg some (s.columns_make r)
  | add c => exact congrArg some (s.columns_add c)
  | clearTag tag => exact columns_clearTag hs tag
  | solve algorithm => exact congrArg (Option.map Prod.snd) (solve?_columns hs algorithm)
  | applySolution => exact congrArg some s.columns_applySolution
  | clear => exact congrArg some (columns_ofConfig s.config).symm
  | release | setDebugMode | setMaxIterations | setConvergence => rfl

theorem foldlM_run? (hs : s.Bounded) (ops : List (Operation α)) :
    ops.foldlM Columns.run? s.columns = some (Operation.runAll s ops).columns := by
  induction ops generalizing s with
  | nil => rfl
  | cons op ops ih =>
      rw [List.foldlM_cons, run?_columns hs]
      exact ih (bounded_run hs op)

/-- After any operations with any arguments, every scalar has a value and a flag, every address
that the solver holds is that of a scalar, and no operation would miss the scalars. With values and
flags in two arrays none of the operations has missed either, and the arrays are as long. -/
theorem contained_runAll (config : Config α) (ops : List (Operation α)) :
    let s := Operation.runAll (ofConfig config) ops
    (s.cells.map Cell.fixed).size = s.values.size ∧ (∀ a, s.Holds a → a < s.values.size) ∧
      s.Contained ∧ ∃ t, ops.foldlM Columns.run? (Columns.ofConfig config) = some t ∧
        t = s.columns ∧ t.flags.size = t.values.size := by
  intro s
  have hs : s.Bounded := bounded_runAll (bounded_ofConfig config) ops
  have hrun := foldlM_run? (bounded_ofConfig config) ops
  rw [columns_ofConfig] at hrun
  have hsize : s.columns.flags.size = s.columns.values.size := s.size_flags.trans s.size_values.symm
  refine ⟨hsize, fun a ha => ?_, hs.contained, s.columns, hrun, rfl, hsize⟩
  rw [size_values]
  exact hs a ha

end LeastSquares

end PlanarSketch
