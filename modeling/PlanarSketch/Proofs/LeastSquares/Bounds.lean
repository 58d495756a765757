import PlanarSketch.Proofs.LeastSquares.Operands
import PlanarSketch.Proofs.LeastSquares.Solve

/-!
The addresses that the solver holds are those of scalars that it has. An address is checked once,
when geometry is made over it or a call mentions it, and is used unchecked from then on, even after
the geometry has been released. This is sound because scalars are only taken away together with
everything that could mention them. So whatever is asked of the solver, and however often it
refuses, no access to the scalars misses them.
-/

namespace PlanarSketch

/-- What can be asked of a solver, other than what it tells about itself. -/
inductive Operation (α : Type) where
  | push (v : α) (fixed : Bool)
  | assign (a : Address) (v : α) (fixed : Bool)
  | make (r : Record)
  | release (h : Handle)
  | add (c : Call α)
  | clearTag (tag : Int)
  | solve (algorithm : Algorithm)
  | applySolution
  | clear
  | setDebugMode (m : DebugMode)
  | setMaxIterations (n : Nat)
  | setConvergence (c : α)

section

variable {σ α : Type} [Solver σ α]

/-- The solver that an operation leaves, also when it is refused. -/
def Operation.run (s : σ) : Operation α → σ
  | push v fixed => Solver.push s v fixed
  | assign a v fixed => (Solver.assign s a v fixed).2
  | make r => (Solver.make s r).2
  | release h => Solver.release s h
  | add c => (Solver.add s c).2
  | clearTag tag => Solver.clearTag s tag
  | solve algorithm => (Solver.solve s algorithm).2
  | applySolution => Solver.applySolution s
  | clear => Solver.clear s
  | setDebugMode m => Solver.setDebugMode s m
  | setMaxIterations n => Solver.setMaxIterations s n
  | setConvergence c => Solver.setConvergence s c

def Operation.runAll (s : σ) (ops : List (Operation α)) : σ := ops.foldl run s

end

namespace LeastSquares

variable {α : Type} {s t : LeastSquares α} {a : Nat}

/-- Where the solver keeps an address. -/
inductive Holds (s : LeastSquares α) (a : Nat) : Prop where
  | record {h : Handle} {r : Record} (hr : s.records.find? h = some r) (ha : a ∈ r.addresses)
  | radius (ha : a ∈ s.radii)
  | equation {e : Entry α} (he : e ∈ s.entries) (ha : a ∈ e.equation.addresses)
  | datum {e : Entry α} (he : e ∈ s.entries) (ha : a ∈ e.datums)
  | pending {v : α} (ha : (a, v) ∈ s.pending.getD [])

/-- Every address that the solver holds is that of one of its scalars. -/
def Bounded (s : LeastSquares α) : Prop := ∀ a, s.Holds a → a < s.size

theorem bounded_ofConfig (config : Config α) : (ofConfig config).Bounded := by
  rintro a (⟨hr, ha⟩ | ha | ⟨he, ha⟩ | ⟨he, ha⟩ | ha)
  · cases hr
  all_goals exact (List.not_mem_nil ‹_›).elim

/-- It is sound to forget addresses and to take in scalars. -/
theorem Bounded.mono (hs : s.Bounded) (hsize : s.size ≤ t.size)
    (hrecords : ∀ h r, t.records.find? h = some r → s.records.find? h = some r)
    (hradii : t.radii ⊆ s.radii) (hentries : t.entries ⊆ s.entries)
    (hpending : t.pending.getD [] ⊆ s.pending.getD []) : t.Bounded := by
  intro a ha
  refine Nat.lt_of_lt_of_le (hs a ?_) hsize
  rcases ha with ⟨hr, ha⟩ | ha | ⟨he, ha⟩ | ⟨he, ha⟩ | ha
  · exact .record (hrecords _ _ hr) ha
  · exact .radius (hradii ha)
  · exact .equation (hentries he) ha
  · exact .datum (hentries he) ha
  · exact .pending (hpending ha)

/-! ### One operation -/

theorem bounded_push (hs : s.Bounded) (v : α) (fixed : Bool) : (s.push v fixed).Bounded := by
  refine hs.mono ?_ (fun _ _ => id) (fun _ => id) (fun _ => id) (fun _ => id)
  simp [push, size]

theorem bounded_assign (hs : s.Bounded) {v : α} {fixed : Bool} (h : s.assign a v fixed = .ok t) :
    t.Bounded := by
  unfold assign at h
  split at h
  · cases h
    refine hs.mono ?_ (fun _ _ => id) (fun _ => id) (fun _ => id) (fun _ => id)
    simp [size]
  · cases h

theorem bounded_make (hs : s.Bounded) {r : Record} {h : Handle} (hmake : s.make r = .ok (h, t)) :
    t.Bounded := by
  unfold make at hmake
  cases hfind : r.addresses.find? (fun a => s.size ≤ a) with
  | some a =>
      rw [hfind] at hmake
      cases hmake
  | none =>
      have hr : ∀ a ∈ r.addresses, a < s.size := by simpa using hfind
      rw [hfind] at hmake
      cases hmake
      rintro a (⟨hrecord, ha⟩ | ha | ⟨he, ha⟩ | ⟨he, ha⟩ | ha)
      · -- the record is the new one, or an old one under another handle
        rw [Table.find?_insert] at hrecord
        split at hrecord
        · cases hrecord
          exact hr a ha
        · exact hs a (.record hrecord ha)
      · rcases mem_addRadius ha with ha | ha
        · exact hs a (.radius ha)
        · exact hr a (mem_addresses_of_radius? ha)
      · exact hs a (.equation he ha)
      · exact hs a (.datum he ha)
      · exact hs a (.pending ha)

theorem bounded_release (hs : s.Bounded) (h : Handle) : (s.release h).Bounded := by
  refine hs.mono (Nat.le_refl _) ?_ (fun _ => id) (fun _ => id) (fun _ => id)
  intro h' r hr
  rw [release, Table.find?_erase] at hr
  split at hr
  · cases hr
  · exact hr

theorem bounded_clearTag (hs : s.Bounded) (tag : Int) : (s.clearTag tag).Bounded :=
  hs.mono (Nat.le_of_eq (size_clearTag s tag).symm) (fun _ _ => id) (fun _ => id)
    (fun _ he => (mem_entries_clearTag.1 he).1) (fun _ => id)

theorem bounded_applySolution (hs : s.Bounded) : s.applySolution.Bounded :=
  hs.mono (Nat.le_of_eq (size_applySolution s).symm) (fun _ _ => id) (fun _ => id) (fun _ => id)
    (List.nil_subset _)

/-- An attempt that fails changes nothing. -/
theorem bounded_attempt {β : Type} {r : Except SolverError (β × LeastSquares α)} (hs : s.Bounded)
    (h : ∀ b t, r = .ok (b, t) → t.Bounded) : (s.attempt r).2.Bounded := by
  cases r with
  | error e => exact hs
  | ok p => exact h p.1 p.2 rfl

variable [Scalar α]

/-- The scalars that a call mentions are there when it is made. -/
theorem bounded_add (hs : s.Bounded) {c : Call α} (h : s.add c = .ok t) : t.Bounded := by
  obtain ⟨e, he, rfl⟩ := map_eq_ok.1 h
  obtain ⟨hequation, hdatums⟩ := Entry.ofCall_ok he
  have hread : ∀ a ∈ e.equation.addresses, a < s.size := by
    intro a ha
    obtain ⟨arg, -, harg⟩ := hequation a ha
    cases harg with
    | param hlt | datum hlt => exact hlt
    | geometry hr ha => exact hs a (.record hr ha)
  rintro a (⟨hr, ha⟩ | ha | ⟨he, ha⟩ | ⟨he, ha⟩ | ha)
  · exact hs a (.record hr ha)
  · exact hs a (.radius ha)
  · rcases List.mem_append.1 he with he | he
    · exact hs a (.equation he ha)
    · obtain rfl := List.mem_singleton.1 he
      exact hread a ha
  · rcases List.mem_append.1 he with he | he
    · exact hs a (.datum he ha)
    · obtain rfl := List.mem_singleton.1 he
      exact hdatums a ha
  · exact hs a (.pending ha)

variable [Decompositions α]

theorem bounded_solve (hs : s.Bounded) (algorithm : Algorithm) : (s.solve algorithm).2.Bounded := by
  rintro a (⟨hr, ha⟩ | ha | ⟨he, ha⟩ | ⟨he, ha⟩ | ha)
  · exact hs a (.record hr ha)
  · exact hs a (.radius ha)
  · exact hs a (.equation he ha)
  · exact hs a (.datum he ha)
  · obtain ⟨b, hb, heq⟩ := List.mem_map.1 ha
    obtain rfl : b = a := congrArg Prod.fst heq
    rcases List.mem_append.1 hb with hb | hb
    · exact lt_of_mem_unknowns hb
    · exact lt_of_mem_outputs hb

theorem bounded_run (hs : s.Bounded) (op : Operation α) : (op.run s).Bounded := by
  cases op with
  | push v fixed => exact bounded_push hs v fixed
  | assign a v fixed =>
      refine bounded_attempt hs fun _ t h => ?_
      obtain ⟨t, ht, heq⟩ := map_eq_ok.1 h
      cases heq
      exact bounded_assign hs ht
  | make r => exact bounded_attempt hs fun _ t h => bounded_make hs h
  | release h => exact bounded_release hs h
  | add c =>
      refine bounded_attempt hs fun _ t h => ?_
      obtain ⟨t, ht, heq⟩ := map_eq_ok.1 h
      cases heq
      exact bounded_add hs ht
  | clearTag tag => exact bounded_clearTag hs tag
  | solve algorithm => exact bounded_solve hs algorithm
  | applySolution => exact bounded_applySolution hs
  | clear => exact bounded_ofConfig s.config
  | setDebugMode m | setMaxIterations n | setConvergence c =>
      exact hs.mono (Nat.le_refl _) (fun _ _ => id) (fun _ => id) (fun _ => id) (fun _ => id)

theorem bounded_runAll (hs : s.Bounded) (ops : List (Operation α)) :
    (Operation.runAll s ops).Bounded := by
  induction ops generalizing s with
  | nil => exact hs
  | cons op ops ih => exact ih (bounded_run hs op)

end LeastSquares

/-! ### Accesses -/

variable {α : Type} [Scalar α] [Decompositions α]

/-- A search for a solution of the system stays within its scalars. -/
structure System.Contained (s : System α) : Prop where
  unknowns : ∀ a ∈ s.unknowns, ∀ x, a < (s.expand x).size
  reads : ∀ e ∈ s.equations, ∀ a ∈ e.1.addresses, ∀ x, a < (s.expand x).size
  /-- What might stand behind the last scalar does not matter to a residual. -/
  residuals : ∀ e ∈ s.equations, ∀ x y,
    (∀ a < (s.expand x).size, y a = System.read (s.expand x) a) →
      e.1.residuals y = e.1.residuals (System.read (s.expand x))
  /-- What the problem is at points with too few or too many coordinates does not matter to a
  search, for it never asks. -/
  points : ∀ q, (LeastSquares.problem s).Agrees q → ∀ algorithm limits,
    q.minimize Decompositions.algebra algorithm limits =
      (LeastSquares.problem s).minimize Decompositions.algebra algorithm limits

theorem System.contained {s : System α} (hunknowns : ∀ a ∈ s.unknowns, a < s.values.size)
    (hreads : ∀ e ∈ s.equations, ∀ a ∈ e.1.addresses, a < s.values.size) : s.Contained where
  unknowns := fun a ha x => Nat.lt_of_lt_of_eq (hunknowns a ha) (s.size_expand x).symm
  reads := fun e he a ha x => Nat.lt_of_lt_of_eq (hreads e he a ha) (s.size_expand x).symm
  residuals := by
    intro e he x y hy
    refine Equation.residuals_congr fun a ha => hy a ?_
    rw [System.size_expand]
    exact hreads e he a ha
  points := fun q hq algorithm limits =>
    (Problem.minimize_spec (LeastSquares.sized_problem s) Decompositions.sized hq algorithm
      limits).1

namespace LeastSquares

variable {s : LeastSquares α}

/-- The accesses to the scalars that are not guarded, operation by operation. -/
structure Contained (s : LeastSquares α) : Prop where
  clearTag : ∀ tag, ∀ e ∈ s.entries, e.tag = tag → ∀ a ∈ e.datums, a < s.cells.size
  drive : s.drivingSystem.Contained
  measure : ∀ algorithm,
    (s.measuringSystem (s.drivingSystem.expand (s.descend algorithm).x)).Contained
  classify : ∀ algorithm, ∀ a ∈ s.radii, a < (s.solution algorithm).size
  result : ∀ algorithm, ∀ a ∈ s.unknowns ++ s.outputs, a < (s.solution algorithm).size
  applySolution : ∀ e ∈ s.pending.getD [], e.1 < s.cells.size

theorem Bounded.contained (hs : s.Bounded) : s.Contained where
  clearTag := fun _ e he _ a ha => hs a (.datum he ha)
  drive := by
    refine System.contained s.proper_drivingSystem.lt ?_
    intro e he a ha
    obtain ⟨entry, hentry, rfl⟩ := List.mem_map.1 he
    exact Nat.lt_of_lt_of_eq (hs a (.equation (List.mem_filter.1 hentry).1 ha))
      s.size_values.symm
  measure := by
    intro algorithm
    have hsize : (s.drivingSystem.expand (s.descend algorithm).x).size = s.size :=
      (System.size_expand ..).trans s.size_values
    refine System.contained (s.proper_measuringSystem hsize).lt ?_
    intro e he a ha
    obtain ⟨entry, hentry, rfl⟩ := List.mem_map.1 he
    exact Nat.lt_of_lt_of_eq (hs a (.equation (List.mem_filter.1 hentry).1 ha)) hsize.symm
  classify := by
    intro algorithm a ha
    rw [size_solution]
    exact hs a (.radius ha)
  result := by
    intro algorithm a ha
    rw [size_solution]
    rcases List.mem_append.1 ha with ha | ha
    · exact lt_of_mem_unknowns ha
    · exact lt_of_mem_outputs ha
  applySolution := fun e he => hs e.1 (.pending he)

end LeastSquares

end PlanarSketch
