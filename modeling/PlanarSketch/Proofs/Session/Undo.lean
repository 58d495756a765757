import PlanarSketch.Proofs.Session.Alike
import PlanarSketch.Proofs.Session.Containment
import PlanarSketch.Proofs.Session.Entries
import PlanarSketch.Proofs.Session.Verdict

/-!
Edits that come to nothing: a push that is refused, and a constraint that is pushed and taken out
again. Of either nothing stays but scalars at the end, all of them fixed, and radii that are looked
at from then on. The scalars do not take part in a solve. The radii do, once it is over, so a
session may have a solution rejected for a constraint that it no longer has.
-/

namespace PlanarSketch

open LeastSquares

variable {α : Type}

/-- Taking out the one entry that has come in leaves its datums, all of them fixed. -/
theorem LeastSquares.Grown.clearTag {s t : LeastSquares α} {vs : List α} {d : Bool} {e : Entry α}
    (h : s.Grown (vs.map fun v => ⟨v, d⟩) [e] t) (hdatums : e.datums = List.range' s.size vs.length)
    (hother : ∀ e' ∈ s.entries, e'.tag ≠ e.tag) :
    s.Grown (vs.map fun v => ⟨v, true⟩) [] (t.clearTag e.tag) := by
  have hgone : t.entries.filter (fun e' => e'.tag = e.tag) = [e] := by
    rw [h.entries, List.filter_append,
      List.filter_eq_nil_iff.2 fun e' he' => by simpa using hother e' he']
    simp
  have hrest : t.entries.filter (fun e' => e'.tag ≠ e.tag) = s.entries := by
    rw [h.entries, List.filter_append,
      List.filter_eq_self.2 fun e' he' => decide_eq_true (hother e' he')]
    simp
  refine ⟨?_, ?_, h.pending, h.config, h.diagnosis⟩
  · rw [LeastSquares.clearTag, hgone, List.flatMap_singleton, hdatums, h.cells]
    exact foldl_fix_append s.cells vs (fun v => v) d
  · rw [LeastSquares.clearTag, hrest, List.append_nil]

namespace Session

variable {s t u : Session (LeastSquares α) α}

/-- The session `t` has the geometry and the constraints of `s`, and some fixed scalars more. -/
structure Restored (s t : Session (LeastSquares α) α) : Prop where
  geometries : t.index.geometryAt? = s.index.geometryAt?
  allocator : t.allocator = s.allocator
  grown : ∃ vs : List α, s.solver.Grown (vs.map fun v => ⟨v, true⟩) [] t.solver

theorem Restored.step (h : Restored s t) : Step s t := by
  obtain ⟨vs, hgrown⟩ := h.grown
  refine .append h.geometries (by rw [h.allocator]) ?_ (.of_fixed (f := fun v => v) hgrown)
  rw [h.allocator]
  exact .inl

theorem Restored.owns_iff (h : Restored s t) {o : Outline} {a : Nat} : t.Owns o a ↔ s.Owns o a :=
  owns_congr (outline?_congr h.geometries) (by rw [h.allocator])

theorem Restored.radiusAt_iff (h : Restored s t) {id : Oid} {a : Nat} :
    t.RadiusAt id a ↔ s.RadiusAt id a :=
  radiusAt_congr (outline?_congr h.geometries) (by rw [h.allocator])

theorem Untouched.restored (h : Untouched s t) : Restored s t := by
  obtain ⟨vs, hcells⟩ := h.cells
  exact ⟨by rw [h.index], h.allocator, vs,
    hcells, by rw [h.entries, List.append_nil], h.pending, h.config, h.diagnosis⟩

variable [Scalar α]

/-- What a solve sees of the scalars has not changed. -/
theorem Restored.alike (h : Restored s t) (hs : Sound s) (hb : s.solver.Bounded) : Alike s t := by
  have ht := hs.step h.step
  obtain ⟨vs, hgrown⟩ := h.grown
  have hentries : t.solver.entries = s.solver.entries := by
    rw [hgrown.entries, List.append_nil]
  have hread : ∀ {a : Nat}, a < s.solver.size →
      System.read t.solver.values a = System.read s.solver.values a :=
    fun ha => read_congr (hgrown.value?_old ha)
  refine ⟨hs, ht, h.owns_iff, ⟨hgrown.config, ?_, ?_, ?_⟩, hread⟩
  · rw [drivingEntries, drivingEntries, hentries]
  · refine unknowns_congr fun a => ?_
    simp only [ht.mem_unknowns, hs.mem_unknowns, h.owns_iff]
  · intro e he a ha _
    exact hread (hb a (.equation (List.mem_filter.1 he).1 ha))

/-! ### Edits -/

def Primitive.handed (p : Primitive α) : List Oid := (p.constraint?.map Constraint.handed).getD []

variable [Decompositions α]

/-- An edit of `s` that names these ids has come to nothing, and left `t`. -/
inductive Undone (s : Session (LeastSquares α) α) : List Oid → Session (LeastSquares α) α → Prop where
  | refused {p : Primitive α} {e : SketchError} {t : Session (LeastSquares α) α}
      (h : s.push p = (.error e, t)) : Undone s (Primitive.handed p) t
  | refusedExtra {c : Constraint α} {e : SketchError} {t : Session (LeastSquares α) α}
      (h : s.pushExtra c = (.error e, t)) : Undone s c.handed t
  | deleted {c : Constraint α} {u : Session (LeastSquares α) α}
      (h : s.push (.constraint c) = (.ok (), u)) : Undone s c.handed (u.delete c.id).2
  | cleared {c : Constraint α} {u : Session (LeastSquares α) α}
      (alone : s.solver.extraEntries = []) (h : s.pushExtra c = (.ok (), u)) :
      Undone s c.handed u.clearExtra

variable {ids : List Oid} {es : History α}

/-- The deletion of a constraint that has just been taken finds its entry and no other. -/
theorem Admitted.restored {c : Constraint α} {e : Entry α} {outputs : Outputs}
    (h : Admitted s c e outputs t) (hl : Ledger es s) :
    Restored s (t.delete c.id).2 ∧ (t.delete c.id).2.solver.radii = t.solver.radii := by
  have habsent : s.index.geometryAt? c.id = none := Index.geometryAt?_of_has h.fresh
  have hgeometries : t.index.geometryAt? = s.index.geometryAt? := by
    rw [h.index]
    exact Index.geometryAt?_insert_constraint _ h.fresh
  rcases t.delete_cases c.id with ⟨e', hdelete⟩ | ⟨tag, habsent', htag, hdelete⟩
  · -- a constraint with a tag is not refused
    unfold delete at hdelete
    split at hdelete
    · next g hget =>
        rw [← Index.geometryAt?_eq_some, hgeometries, habsent] at hget
        cases hget
    · rw [h.tagged] at hdelete
      cases hdelete
  · cases h.tagged.symm.trans htag
    obtain ⟨vs, hgrown, hdatums⟩ := h.enters.grown
    rw [hdelete]
    exact ⟨⟨(Index.geometryAt?_delete habsent').trans hgeometries, h.allocator, vs,
      hgrown.clearTag hdatums (hl.tag_ne h.fresh h.tagged)⟩, rfl⟩

theorem restored_clearExtra {c : Constraint α} (alone : s.solver.extraEntries = [])
    (h : s.pushExtra c = (.ok (), u)) : Restored s u.clearExtra := by
  rcases s.pushExtra_cases c with hpush | ⟨e, solver, -, hpush⟩ |
    ⟨outputs, solver, -, hcall, hpush⟩
  · cases h.symm.trans hpush
  · cases h.symm.trans hpush
  · cases h.symm.trans hpush
    obtain ⟨e, henters⟩ := Constraint.push_ok hcall
    obtain ⟨vs, hgrown, hdatums⟩ := henters.grown
    have htag : e.tag = extraTag := henters.stores.tag
    have hother : ∀ e' ∈ s.solver.entries, e'.tag ≠ e.tag := by
      intro e' he'
      rw [htag]
      simpa using List.filter_eq_nil_iff.1 alone e' he'
    have hclear := hgrown.clearTag hdatums hother
    rw [htag] at hclear
    exact ⟨rfl, rfl, vs, hclear⟩

theorem Undone.restored (hs : Sound s) (hl : Ledger es s) (h : Undone s ids t) : Restored s t := by
  cases h with
  | refused h => exact (hs.toAnchored.untouched_push h).restored
  | refusedExtra h => exact (untouched_pushExtra h).restored
  | deleted h =>
      obtain ⟨e, outputs, hadmitted⟩ := hs.toAnchored.admitted_of_push h
      exact (hadmitted.restored hl).1
  | cleared alone h => exact restored_clearExtra alone h

/-- The radii that have come in are those of circles and arcs with these ids. -/
structure Recalls (s : Session (LeastSquares α) α) (ids : List Oid)
    (t : Session (LeastSquares α) α) : Prop where
  subset : s.solver.radii ⊆ t.solver.radii
  named : ∀ a ∈ t.solver.radii, a ∈ s.solver.radii ∨ ∃ id ∈ ids, t.RadiusAt id a

theorem Sound.recalls_push (hs : Sound s) {p : Primitive α} {r : Except SketchError Unit}
    (h : s.push p = (r, t)) : Recalls s (Primitive.handed p) t := by
  obtain rfl : (s.push p).2 = t := congrArg Prod.snd h
  refine ⟨(wiring_push s p).subset_radii, fun a ha => (hs.mem_radii_push p ha).imp_right ?_⟩
  rintro ⟨c, hc, id, hid, hradius⟩
  refine ⟨id, ?_, hradius⟩
  rw [Primitive.handed, Option.mem_def.1 hc]
  exact hid

theorem Sound.recalls_pushExtra (hs : Sound s) {c : Constraint α} {r : Except SketchError Unit}
    (h : s.pushExtra c = (r, t)) : Recalls s c.handed t := by
  obtain rfl : (s.pushExtra c).2 = t := congrArg Prod.snd h
  exact ⟨(wiring_pushExtra s c).subset_radii, fun a ha => hs.mem_radii_pushExtra c ha⟩

/-- The radii that stay are those of circles and arcs which the edit has named by id. -/
theorem Undone.recalls (hs : Sound s) (hl : Ledger es s) (h : Undone s ids t) :
    Recalls s ids t := by
  cases h with
  | refused h => exact hs.recalls_push h
  | refusedExtra h => exact hs.recalls_pushExtra h
  | @deleted c u h =>
      obtain ⟨e, outputs, hadmitted⟩ := hs.toAnchored.admitted_of_push h
      obtain ⟨hsubset, hnamed⟩ := hs.recalls_push h
      have hu := hs.step hadmitted.step
      have hradii := (hadmitted.restored hl).2
      refine ⟨hradii ▸ hsubset, fun a ha => (hnamed a (hradii ▸ ha)).imp_right ?_⟩
      rintro ⟨id, hid, hradius⟩
      exact ⟨id, hid, hradius.step hu.toAnchored (step_delete u c.id)⟩
  | cleared alone h =>
      obtain ⟨hsubset, hnamed⟩ := hs.recalls_pushExtra h
      exact ⟨hsubset, hnamed⟩

/-- After the edit a solve looks at one of these circles or arcs and finds a negative radius. -/
def Exposed (s t : Session (LeastSquares α) α) (ids : List Oid) (algorithm : Algorithm) : Prop :=
  ∃ id ∈ ids, t.Checks id ∧ ∃ v, s.FindsRadius algorithm id v ∧ v < 0.0

theorem Undone.inverted_iff (hs : Sound s) (hl : Ledger es s) (hb : s.solver.Bounded)
    (hradii : ∀ a ∈ s.solver.radii, ∃ id, s.RadiusAt id a) (h : Undone s ids t)
    (algorithm : Algorithm) :
    t.solver.Inverted (t.solver.solution algorithm) ↔
      s.solver.Inverted (s.solver.solution algorithm) ∨ Exposed s t ids algorithm := by
  have hrestored := h.restored hs hl
  have halike := hrestored.alike hs hb
  obtain ⟨hsubset, hnamed⟩ := h.recalls hs hl
  have hread : ∀ {id a}, s.RadiusAt id a → System.read (t.solver.solution algorithm) a =
      System.read (s.solver.solution algorithm) a := by
    intro id a hradius
    obtain ⟨o, -, -, ho⟩ := hradius.owned hs.toAnchored
    exact halike.read_solution_eq algorithm ho
  constructor
  · rintro ⟨a, ha, hneg⟩
    rcases hnamed a ha with hold | ⟨id, hid, hradius⟩
    · refine .inl ⟨a, hold, ?_⟩
      obtain ⟨id, hradius⟩ := hradii a hold
      rwa [hread hradius] at hneg
    · have hradius' := hrestored.radiusAt_iff.1 hradius
      rw [hread hradius'] at hneg
      exact .inr ⟨id, hid, ⟨a, ha, hradius⟩, _, (hradius'.findsRadius_iff hs algorithm).2 rfl, hneg⟩
  · rintro (⟨a, ha, hneg⟩ | ⟨id, -, ⟨a, ha, hradius⟩, v, hv, hneg⟩)
    · refine ⟨a, hsubset ha, ?_⟩
      obtain ⟨id, hradius⟩ := hradii a ha
      rwa [hread hradius]
    · have hradius' := hrestored.radiusAt_iff.1 hradius
      obtain rfl := (hradius'.findsRadius_iff hs algorithm).1 hv
      exact ⟨a, ha, by rwa [hread hradius']⟩

/-- What an edit that came to nothing leaves behind can only turn a success into a rejection, and
does so exactly if it has exposed a circle or arc that the edit named by id. Everything else about
a solve is as if there had been no edit. -/
theorem Reachable.solve_undone (h : Reachable s) (hundone : Undone s ids t)
    (algorithm : Algorithm) :
    t.solver.unknowns = s.solver.unknowns ∧
    (∀ a ∈ s.solver.unknowns, ∃ v,
      (s.solveWith algorithm).2.solver.found? a = some v ∧
        (t.solveWith algorithm).2.solver.found? a = some v) ∧
    (t.solveWith algorithm).2.solver.diagnosis = (s.solveWith algorithm).2.solver.diagnosis ∧
    ((s.solveWith algorithm).1 = .success → Exposed s t ids algorithm →
      (t.solveWith algorithm).1 = .invalid) ∧
    (((s.solveWith algorithm).1 = .success → ¬ Exposed s t ids algorithm) →
      (t.solveWith algorithm).1 = (s.solveWith algorithm).1) := by
  have hs := h.sound
  obtain ⟨es, hl⟩ := h.exists_ledger
  have halike := (hundone.restored hs hl).alike hs h.bounded
  have hinverted := hundone.inverted_iff hs hl h.bounded h.radiusAt algorithm
  refine ⟨halike.drive.unknowns, ?_, halike.diagnose_eq algorithm, ?_, ?_⟩
  · intro a ha
    have hfound := found?_of_mem_unknowns algorithm ha
    exact ⟨_, hfound, (halike.found?_eq algorithm ha).trans hfound⟩
  · intro hsuccess hexposed
    change (s.solver.solve algorithm).1 = .success at hsuccess
    change (t.solver.solve algorithm).1 = .invalid
    rw [status_solve, classify_eq_success] at hsuccess
    rw [status_solve, classify_eq_invalid, halike.diagnose_eq, halike.descend_eq,
      halike.drive.config]
    exact ⟨hsuccess.1, hinverted.2 (.inr hexposed)⟩
  · intro hhidden
    change (t.solver.solve algorithm).1 = (s.solver.solve algorithm).1
    by_cases hexposed : Exposed s t ids algorithm
    · rw [status_solve, status_solve, halike.diagnose_eq, halike.descend_eq]
      rcases classify_of_inverted halike.drive.config fun h => hinverted.2 (.inl h) with
        hsame | ⟨hsuccess, -⟩
      · exact hsame
      · exact absurd hexposed (hhidden ((status_solve ..).trans hsuccess))
    · exact halike.status_eq algorithm (by rw [hinverted, or_iff_left hexposed])

/-- Names the circle by its id and is refused for want of a radius. -/
def radiusMissing : Constraint Float :=
  { Constraint.new ⟨4⟩ .circleRadius with params := .ofList [("c_id", .number 3.0)] }

/-- The inverted circle passes, but not after a constraint that named it has been refused. -/
theorem solve_refusedRadius :
    ∃ e t, circleSession.push (.constraint radiusMissing) = (.error e, t) ∧
      (circleSession.solveWith .dogLeg).1 = .success ∧ (t.solveWith .dogLeg).1 = .invalid ∧
      (t.solveWith .dogLeg).2.solver.diagnosis =
        (circleSession.solveWith .dogLeg).2.solver.diagnosis := by
  have hs : Reachable circleSession := reachable_smallSession.perform _
  obtain ⟨e, t, hpush⟩ : ∃ e t, circleSession.push (.constraint radiusMissing) = (.error e, t) :=
    ⟨_, _, rfl⟩
  have hsuccess : (circleSession.solveWith .dogLeg).1 = .success := by decide +kernel
  have hradius : circleSession.RadiusAt ⟨3⟩ 5 := ⟨_, rfl, rfl⟩
  have hneg : System.read (circleSession.solver.solution .dogLeg) 5 < 0.0 := by decide +kernel
  obtain ⟨-, -, hdiagnosis, hinvalid, -⟩ := hs.solve_undone (.refused hpush) .dogLeg
  refine ⟨e, t, hpush, hsuccess, hinvalid hsuccess ⟨⟨3⟩, ?_, ⟨5, ?_, ?_⟩, _, ?_, hneg⟩, hdiagnosis⟩
  · decide +kernel
  · cases hpush
    decide +kernel
  · cases hpush
    exact ⟨_, rfl, rfl⟩
  · exact (hradius.findsRadius_iff hs.sound .dogLeg).2 rfl

end Session

end PlanarSketch
