import PlanarSketch.Proofs.Session.Alike
import PlanarSketch.Proofs.Session.Entries

/-!
Constraints that only measure do not take part in a solve. What one of them brings is neither an
unknown nor read by a driving constraint, so a solve with it takes the same way to the same point
and finds the same constraints in conflict. It can only add circles whose radius is checked
afterwards, and so have a solution rejected that would have passed.
-/

namespace PlanarSketch

open LeastSquares

variable {α : Type}

namespace Session

variable {s t : Session (LeastSquares α) α} [Scalar α]

namespace Admitted

variable {c : Constraint α} {e : Entry α} {outputs : Outputs}

theorem owns_iff (h : Admitted s c e outputs t) {o : Outline} {a : Nat} :
    t.Owns o a ↔ s.Owns o a := by
  refine owns_congr (outline?_congr ?_) (by rw [h.allocator])
  rw [h.index]
  exact Index.geometryAt?_insert_constraint _ h.fresh

theorem unknowns_eq (h : Admitted s c e outputs t) (hs : Sound s) :
    t.solver.unknowns = s.solver.unknowns := by
  refine unknowns_congr fun a => ?_
  simp only [(hs.step h.step).mem_unknowns, hs.mem_unknowns, h.owns_iff]

theorem read_old (h : Admitted s c e outputs t) {a : Nat} (ha : a < s.solver.size) :
    System.read t.solver.values a = System.read s.solver.values a := by
  obtain ⟨vs, hgrown, -⟩ := h.enters.grown
  exact read_congr (hgrown.value?_old ha)

theorem sameDrive (h : Admitted s c e outputs t) (hs : Sound s) (hw : Wired s)
    (hc : c.isDriving = false) : SameDrive s.solver t.solver := by
  obtain ⟨vs, hgrown, -⟩ := h.enters.grown
  refine ⟨hgrown.config, ?_, h.unknowns_eq hs, ?_⟩
  · have hdriving : e.driving = false := h.enters.stores.driving.trans hc
    rw [drivingEntries, hgrown.entries, List.filter_append,
      List.filter_cons_of_neg (by rw [hdriving]; exact Bool.false_ne_true), List.filter_nil,
      List.append_nil, drivingEntries]
  · intro f hf a ha _
    obtain ⟨hf, hdriving⟩ := List.mem_filter.1 hf
    exact h.read_old (hs.lt_of_steady (hw.reads hf hdriving ha))

theorem alike (h : Admitted s c e outputs t) (hs : Sound s) (hw : Wired s)
    (hc : c.isDriving = false) : Alike s t :=
  ⟨hs, hs.step h.step, h.owns_iff, h.sameDrive hs hw hc, h.read_old⟩

variable [Decompositions α]

theorem descend_eq (h : Admitted s c e outputs t) (hs : Sound s) (hw : Wired s)
    (hc : c.isDriving = false) (algorithm : Algorithm) :
    t.solver.descend algorithm = s.solver.descend algorithm :=
  (h.alike hs hw hc).descend_eq algorithm

/-- Scalars of geometry are solved for the same values. -/
theorem read_solution_eq (h : Admitted s c e outputs t) (hs : Sound s) (hw : Wired s)
    (hc : c.isDriving = false) (algorithm : Algorithm) {o : Outline} {a : Nat}
    (ho : s.Owns o a) :
    System.read (t.solver.solution algorithm) a = System.read (s.solver.solution algorithm) a :=
  (h.alike hs hw hc).read_solution_eq algorithm ho

end Admitted

variable [Decompositions α]

/-- A constraint that only measures leaves the unknowns as they are, has them solved for the same
values and the same constraints found to conflict or to be redundant. The verdict is the same, too,
unless a success is rejected for the geometry that is measured. -/
theorem Reachable.push_measurement (h : Reachable s) (hb : s.index.BuiltOnPoints)
    {c : Constraint α} (hc : c.isDriving = false) (hpush : s.push (.constraint c) = (.ok (), t))
    (algorithm : Algorithm) :
    t.solver.unknowns = s.solver.unknowns ∧
    (∀ a ∈ s.solver.unknowns, ∃ v,
      (s.solveWith algorithm).2.solver.found? a = some v ∧
        (t.solveWith algorithm).2.solver.found? a = some v) ∧
    (t.solveWith algorithm).2.solver.diagnosis = (s.solveWith algorithm).2.solver.diagnosis ∧
    ((t.solveWith algorithm).1 = (s.solveWith algorithm).1 ∨
      (s.solveWith algorithm).1 = .success ∧ (t.solveWith algorithm).1 = .invalid) := by
  have hs := h.sound
  have hw := h.wired hb
  obtain ⟨e, outputs, hadmitted⟩ := hs.toAnchored.admitted_of_push hpush
  have hradii : s.solver.radii ⊆ t.solver.radii := by
    have hsubset := (wiring_push s (.constraint c)).subset_radii
    rwa [hpush] at hsubset
  have hsame := hadmitted.sameDrive hs hw hc
  have hdescend := hadmitted.descend_eq hs hw hc algorithm
  have hlength := length_descend s.solver algorithm
  have hdiagnosis : t.solver.diagnose (t.solver.descend algorithm).x =
      s.solver.diagnose (s.solver.descend algorithm).x := by
    rw [hdescend, hsame.diagnose hlength]
  refine ⟨hsame.unknowns, ?_, hdiagnosis, ?_⟩
  · intro a ha
    have ha' : a ∈ t.solver.unknowns := by rwa [hsame.unknowns]
    refine ⟨_, found?_of_mem_unknowns algorithm ha, ?_⟩
    show (t.solver.solve algorithm).2.found? a = _
    rw [found?_of_mem_unknowns algorithm ha', hdescend]
    exact congrArg some (hsame.read_expand hlength fun hno => absurd ha hno)
  · have hinverted : s.solver.Inverted (s.solver.solution algorithm) →
        t.solver.Inverted (t.solver.solution algorithm) := by
      rintro ⟨r, hr, hneg⟩
      obtain ⟨o, ho⟩ := hw.radii hr
      refine ⟨r, hradii hr, ?_⟩
      rwa [hadmitted.read_solution_eq hs hw hc algorithm ho]
    show (t.solver.solve algorithm).1 = (s.solver.solve algorithm).1 ∨
      (s.solver.solve algorithm).1 = .success ∧ (t.solver.solve algorithm).1 = .invalid
    rw [status_solve, status_solve, hdiagnosis, hdescend]
    exact classify_of_inverted hsame.config hinverted

/-- Measuring the distance of the free point does not move it. -/
theorem push_measuredDistance :
    measuredDistance.isDriving = false ∧
    smallSession.push (.constraint measuredDistance) =
      (.ok (), smallSession.perform (.push (.constraint measuredDistance))) ∧
    (smallSession.perform (.push (.constraint measuredDistance))).solver.unknowns = [0, 1] ∧
    ∃ v, (smallSession.solveWith .dogLeg).2.solver.found? 1 = some v ∧
      ((smallSession.perform (.push (.constraint measuredDistance))).solveWith
        .dogLeg).2.solver.found? 1 = some v := by
  have hpush : smallSession.push (.constraint measuredDistance) =
      (.ok (), smallSession.perform (.push (.constraint measuredDistance))) := Prod.ext rfl rfl
  have hold : smallSession.solver.unknowns = [0, 1] := by decide +kernel
  obtain ⟨hunknowns, hfound, -⟩ :=
    reachable_smallSession.push_measurement builtOnPoints_smallSession rfl hpush .dogLeg
  exact ⟨rfl, hpush, hunknowns.trans hold, hfound 1 (by rw [hold]; decide)⟩

end Session

end PlanarSketch
