import PlanarSketch.Proofs.Session.Naming
import PlanarSketch.Proofs.Session.Reports

/-!
What a session reports when its sketch has changed since the last solve. The diagnosis stays as it
was until the next solve, and its tags are translated by the ids of the constraints that are there
now. So a constraint that has been deleted is no longer reported, unless its id has been taken by
another constraint: this is then reported in its place, although no solve has seen it.
-/

namespace PlanarSketch

open LeastSquares

variable {α : Type}

inductive Report where
  | conflicting
  | redundant
  | partiallyRedundant

def Report.tags : Report → Diagnosis → List Int
  | conflicting, d => d.conflicting
  | redundant, d => d.redundant
  | partiallyRedundant, d => d.partiallyRedundant

namespace History

/-- The id was deleted, and given to this constraint afterwards. -/
def Reissued (es : History α) (id : Oid) (c : Constraint α) : Prop :=
  ∃ es₁ es₂, es = es₁ ++ .deleted id :: es₂ ∧ .deleted id ∉ es₂ ∧
    .pushed (.constraint c) ∈ es₂ ∧ c.id = id

/-- What comes to stand has been pushed. -/
theorem mem_of_standing {before es : History α} {id : Oid} {p : Primitive α}
    (hnone : before.standing id = none) (h : (before ++ es).standing id = some p) :
    .pushed p ∈ es ∧ p.id = id := by
  induction es using List.reverseRecOn with
  | nil =>
      rw [List.append_nil, hnone] at h
      cases h
  | append_singleton es e ih =>
      have hkeep : (before ++ es).standing id = some p → .pushed p ∈ es ++ [e] ∧ p.id = id := by
        intro h
        obtain ⟨hmem, hid⟩ := ih h
        exact ⟨List.mem_append_left _ hmem, hid⟩
      rw [← List.append_assoc, standing_concat] at h
      cases e with
      | pushed q =>
          rw [Event.place, Function.update_apply] at h
          split at h
          · next hid =>
              cases h
              exact ⟨by simp, hid.symm⟩
          · exact hkeep h
      | deleted id' =>
          rw [Event.place, Function.update_apply] at h
          split at h
          · cases h
          · exact hkeep h
      | cleared => cases h
      | _ => exact hkeep h

/-- An id under which something stands in spite of a deletion has been given away again. -/
theorem reissued_of_standing {before es : History α} {id : Oid} {c : Constraint α}
    (hdeleted : .deleted id ∈ es) (h : (before ++ es).standing id = some (.constraint c)) :
    es.Reissued id c := by
  obtain ⟨later, earlier, hsplit, hlast⟩ := List.eq_append_cons_of_mem (List.mem_reverse.2 hdeleted)
  have hes : es = earlier.reverse ++ .deleted id :: later.reverse := by
    rw [← List.reverse_inj, hsplit]
    simp
  have hgone : standing (before ++ (earlier.reverse ++ [Event.deleted id])) id = none := by
    rw [← List.append_assoc]
    exact (congrFun (standing_concat _ _) id).trans (Function.update_self ..)
  rw [hes, List.append_cons, ← List.append_assoc] at h
  obtain ⟨hpushed, hid⟩ := mem_of_standing hgone h
  exact ⟨_, _, hes, fun hmem => hlast (List.mem_reverse.1 hmem), hpushed, hid⟩

end History

namespace Session

variable {s t u : Session (LeastSquares α) α} {es es' : History α} {id : Oid}

/-! ### Reports -/

/-- The ids that a session reports. -/
def reported (s : Session (LeastSquares α) α) (r : Report) : List Oid :=
  s.constraintsOf (r.tags s.solver.diagnosis)

theorem reported_of_empty (h : s.solver.diagnosis = .empty) (r : Report) : s.reported r = [] := by
  cases r <;> rw [reported, h] <;> rfl

theorem mem_constraintsOf {tags : List Int} : id ∈ s.constraintsOf tags ↔
    (id.val.toNat : Int) ∈ tags ∧ ∃ c, s.index.get? id = some (.constraint c) := by
  have hconstraint : ((s.index.get? id).bind Primitive.constraint?).isSome = true ↔
      ∃ c, s.index.get? id = some (.constraint c) := by
    cases s.index.get? id with
    | none => simp
    | some p => cases p <;> simp [Primitive.constraint?]
  rw [constraintsOf, List.mem_filter, hconstraint, List.mem_filterMap]
  refine and_congr_left fun _ => ⟨?_, ?_⟩
  · rintro ⟨tag, htag, hid⟩
    split at hid
    · next hrange =>
        cases hid
        have htag' : ((tag.toNat.toUInt32.toNat : Nat) : Int) = tag := by
          rw [Nat.toUInt32, UInt32.toNat_ofNat', Nat.mod_eq_of_lt hrange.2,
            Int.toNat_of_nonneg hrange.1]
        rwa [htag']
    · cases hid
  · intro htag
    refine ⟨_, htag, ?_⟩
    rw [if_pos ⟨Int.natCast_nonneg _, id.val.toNat_lt⟩, Int.toNat_natCast]
    simp

/-- What is reported right after a solve are driving constraints. -/
theorem Translated.exists_driving {tags : List Int} (h : Translated s tags)
    (hid : (id.val.toNat : Int) ∈ tags) :
    ∃ c, s.index.get? id = some (.constraint c) ∧ c.isDriving = true := by
  obtain ⟨id', c, htag, hget, hdriving⟩ := h.driving _ hid
  obtain ⟨-, heq⟩ := Oid.tag_eq_ok.1 htag
  obtain rfl : id' = id := by
    obtain ⟨n⟩ := id
    obtain ⟨m⟩ := id'
    exact congrArg Oid.mk (UInt32.toNat_inj.1 (Int.ofNat_inj.1 heq.symm))
  exact ⟨c, hget, hdriving⟩

variable [Scalar α] [Decompositions α]

theorem Reachable.translated_reports (h : Reachable s) (algorithm : Algorithm) (r : Report) :
    Translated (s.solveWith algorithm).2 (r.tags (s.solveWith algorithm).2.solver.diagnosis) := by
  obtain ⟨es, hl⟩ := h.exists_ledger
  have hindex : (s.solveWith algorithm).2.index = s.index := rfl
  cases r with
  | conflicting =>
      exact hl.translated hindex (Diagnosis.pairwise_tags ..) fun _ =>
        (Diagnosis.mem_conflicting ..).1
  | redundant =>
      exact hl.translated hindex (Diagnosis.pairwise_tags ..) fun _ =>
        (Diagnosis.mem_redundant ..).1
  | partiallyRedundant =>
      exact hl.translated hindex (Diagnosis.pairwise_tags ..) fun _ =>
        (Diagnosis.mem_partiallyRedundant ..).1

/-! ### A diagnosis lasts until the next solve -/

theorem Move.diagnosis (h : Move s es t) (hsolved : .solved ∉ es) (hcleared : .cleared ∉ es) :
    t.solver.diagnosis = s.solver.diagnosis := by
  cases h with
  | refuse h => exact h.diagnosis
  | tune config algorithm => rfl
  | place h => exact h.grown.diagnosis
  | enter h =>
      obtain ⟨vs, hgrown, -⟩ := h.enters.grown
      exact hgrown.diagnosis
  | extra driving enters =>
      obtain ⟨vs, hgrown, -⟩ := enters.grown
      exact hgrown.diagnosis
  | clearExtra => rfl
  | delete absent tagged => rfl
  | bind name v => rfl
  | assign v bound => rfl
  | solve x d => exact absurd (List.mem_singleton_self _) hsolved
  | apply hphase =>
      rw [(applySolution_of_solved hphase).2.2]
      rfl
  | clear => exact absurd (List.mem_singleton_self _) hcleared

theorem Run.diagnosis (hs : Sound s) (h : Run s es t) (hsolved : .solved ∉ es)
    (hcleared : .cleared ∉ es) : t.solver.diagnosis = s.solver.diagnosis := by
  refine h.invariant (P := fun es t => .solved ∉ es → .cleared ∉ es →
    t.solver.diagnosis = s.solver.diagnosis) hs (fun _ _ => rfl) ?_ hsolved hcleared
  intro es t es' u _ ih hmove hsolved hcleared
  rw [List.mem_append, not_or] at hsolved hcleared
  exact (hmove.diagnosis hsolved.2 hcleared.2).trans (ih hsolved.1 hcleared.1)

/-- A solve has led from `s`, and neither another solve nor a clear has been since. -/
structure SolvedSince (s : Session (LeastSquares α) α) (algorithm : Algorithm) (es : History α)
    (u : Session (LeastSquares α) α) : Prop where
  reachable : Reachable s
  run : Run (s.solveWith algorithm).2 es u
  solved : .solved ∉ es
  cleared : .cleared ∉ es

theorem SolvedSince.start (h : Reachable s) (algorithm : Algorithm) :
    SolvedSince s algorithm [] (s.solveWith algorithm).2 :=
  ⟨h, .refl, List.not_mem_nil, List.not_mem_nil⟩

theorem SolvedSince.perform {algorithm : Algorithm} {r : Request α}
    (h : SolvedSince s algorithm es u) (hsolved : .solved ∉ u.events r)
    (hcleared : .cleared ∉ u.events r) :
    SolvedSince s algorithm (es ++ u.events r) (u.perform r) := by
  refine ⟨h.reachable, h.run.call r, ?_, ?_⟩
  · rw [List.mem_append, not_or]
    exact ⟨h.solved, hsolved⟩
  · rw [List.mem_append, not_or]
    exact ⟨h.cleared, hcleared⟩

/-- A session has no diagnosis, or that of its last solve. -/
theorem Reachable.exists_solvedSince (h : Reachable u) :
    u.solver.diagnosis = .empty ∨ ∃ s algorithm es, SolvedSince s algorithm es u := by
  induction h with
  | new own => exact .inl rfl
  | ofConfig own c => exact .inl rfl
  | @perform s h r ih =>
      by_cases hcleared : .cleared ∈ s.events r
      · obtain rfl := cleared_mem_events hcleared
        exact .inl rfl
      by_cases hsolved : .solved ∈ s.events r
      · obtain rfl | ⟨algorithm, rfl⟩ := solved_mem_events hsolved
        · exact .inr ⟨s, s.algorithm, [], .start h _⟩
        · exact .inr ⟨s, algorithm, [], .start h _⟩
      obtain hempty | ⟨s₀, algorithm, es, hsince⟩ := ih
      · have hrun : Run s (s.events r) (s.perform r) := Run.refl.call r
        exact .inl ((hrun.diagnosis h.sound hsolved hcleared).trans hempty)
      · exact .inr ⟨s₀, algorithm, _, hsince.perform hsolved hcleared⟩

/-- The constraint is in the sketch, and a solve takes its equations into account. -/
def TakesPart (s : Session (LeastSquares α) α) (id : Oid) (c : Constraint α) : Prop :=
  s.index.get? id = some (.constraint c) ∧ ∃ e ∈ s.solver.drivingEntries, e.Belongs c

/-! ### Constraints last until they are deleted -/

/-- A driving constraint stays as it is. -/
theorem Run.driving_kept (hs : Fresh s) (h : Run s es t) (h' : Run t es' u) {c : Constraint α}
    (hget : t.index.get? id = some (.constraint c)) (hdriving : c.isDriving = true)
    (hcleared : .cleared ∉ es') (hdeleted : .deleted id ∉ es') :
    u.index.get? id = some (.constraint c) := by
  obtain ⟨-, -, hinputs⟩ := h.inputs hs
  obtain ⟨-, -, hinputs'⟩ := (h.trans h').inputs hs
  have hledger := h.ledger hs
  obtain ⟨q, hq, hreread⟩ := hledger.get?_eq_some hget
  have hin : q.isInput = true := by
    rw [← hreread.isInput_eq]
    exact hdriving
  have hkept := hinputs.kept hq hin
  obtain rfl : q = .constraint c := Option.some.inj (hkept.symm.trans hget)
  refine hinputs'.kept ?_ hin
  exact h'.standing_append (h.sound hs.sound) hledger hq hcleared fun _ _ => hdeleted

/-- What is reported has been found by the last solve, of constraints that took part in it and have
stayed ever since, or of ids that were deleted and have been given to other constraints. -/
theorem Reachable.reported_since (h : Reachable u) :
    ((∀ r, u.reported r = []) ∨ ∃ s algorithm es, SolvedSince s algorithm es u) ∧
    ∀ s algorithm es, SolvedSince s algorithm es u → ∀ r id,
      let t := (s.solveWith algorithm).2
      (id ∈ u.reported r ↔ id ∈ t.reported r ∧ ∃ c, u.index.get? id = some (.constraint c)) ∧
      (id ∈ t.reported r → ∃ c, s.TakesPart id c ∧
        (.deleted id ∉ es → ∀ es' v, es' <+: es → Run t es' v →
          v.index.get? id = some (.constraint c))) ∧
      (.deleted id ∈ es → ∀ c, u.index.get? id = some (.constraint c) →
        ∃ c₀, es.Reissued id c₀ ∧ Primitive.Reread (.constraint c₀) (.constraint c)) := by
  refine ⟨h.exists_solvedSince.imp_left reported_of_empty, ?_⟩
  intro s algorithm es hsince r id t
  obtain ⟨s₀, before, hfresh, hbefore⟩ := hsince.reachable.exists_run
  have hsolve : Run s₀ (before ++ [.solved]) t := hbefore.call (.solveWith algorithm)
  have hdiagnosis : u.solver.diagnosis = t.solver.diagnosis :=
    hsince.run.diagnosis (hsolve.sound hfresh.sound) hsince.solved hsince.cleared
  have htranslated := hsince.reachable.translated_reports algorithm r
  refine ⟨?_, ?_, ?_⟩
  · rw [reported, hdiagnosis, mem_constraintsOf, reported, mem_constraintsOf]
    refine and_congr_left fun _ => ⟨fun htag => ⟨htag, ?_⟩, fun h => h.1⟩
    obtain ⟨c, hget, -⟩ := htranslated.exists_driving htag
    exact ⟨c, hget⟩
  · intro hreported
    obtain ⟨c, hget, hdriving⟩ := htranslated.exists_driving (mem_constraintsOf.1 hreported).1
    obtain ⟨i, e, hentry, hbelongs, -⟩ := (hbefore.ledger hfresh).driving_place hget hdriving
    refine ⟨c, ⟨hget, e, List.mem_of_getElem? hentry, hbelongs⟩, ?_⟩
    intro hdeleted es' v hearlier hrun
    apply hsolve.driving_kept hfresh hrun hget hdriving
    · exact fun hmem => hsince.cleared (hearlier.subset hmem)
    · exact fun hmem => hdeleted (hearlier.subset hmem)
  · intro hdeleted c hget
    obtain ⟨p, hp, hreread⟩ := ((hsolve.trans hsince.run).ledger hfresh).get?_eq_some hget
    cases hreread with
    | constraint c₀ params => exact ⟨c₀, History.reissued_of_standing hdeleted hp, .constraint ..⟩

/-- The same constraint once more. -/
def xIsWidthAgain : Constraint Float := { xIsWidth with id := ⟨8⟩ }

def repeatedSession : Session (LeastSquares Float) Float :=
  drivenSession.perform (.push (.constraint xIsWidthAgain))

/-- Another constraint under the id of the repeated one. -/
def yIsWidth : Constraint Float :=
  { Constraint.new ⟨8⟩ .equal with
    params := .ofList [("param1", .ref ⟨⟨1⟩, .y⟩), ("param2", .name "width")] }

/-- After a solve the redundant constraint makes way for one that is not redundant. -/
def reusedSession : Session (LeastSquares Float) Float :=
  ((repeatedSession.solveWith .dogLeg).2.perform (.delete ⟨8⟩)).perform
    (.push (.constraint yIsWidth))

/-- The new constraint is reported, and has not been solved with. -/
theorem reported_reusedSession :
    ∃ es, SolvedSince repeatedSession .dogLeg es reusedSession ∧
      ⟨8⟩ ∈ reusedSession.reported .redundant ∧
      repeatedSession.index.get? ⟨8⟩ = some (.constraint xIsWidthAgain) ∧
      reusedSession.index.get? ⟨8⟩ = some (.constraint yIsWidth) ∧ xIsWidthAgain ≠ yIsWidth := by
  have hrepeated : Reachable repeatedSession :=
    (reachable_smallSession.perform (.push (.constraint xIsWidth))).perform _
  have hreused : Reachable reusedSession :=
    ((hrepeated.perform (.solveWith .dogLeg)).perform (.delete ⟨8⟩)).perform _
  have hdeleted := (SolvedSince.start hrepeated .dogLeg).perform (r := .delete ⟨8⟩)
    (mt solved_mem_events (by simp)) (mt cleared_mem_events nofun)
  have hsince := hdeleted.perform (r := .push (.constraint yIsWidth))
    (mt solved_mem_events (by simp)) (mt cleared_mem_events nofun)
  have hredundant : 8 ∈ (repeatedSession.solveWith .dogLeg).2.solver.diagnosis.redundant := by
    decide +kernel
  obtain ⟨-, hreports⟩ := hreused.reported_since
  obtain ⟨hreported, -, -⟩ := hreports _ _ _ hsince .redundant ⟨8⟩
  refine ⟨_, hsince, hreported.2 ⟨mem_constraintsOf.2 ⟨hredundant, _, rfl⟩, _, rfl⟩, rfl, rfl, ?_⟩
  intro h
  have hparam : xIsWidthAgain.params.find? "param1" = yIsWidth.params.find? "param1" := by rw [h]
  cases hparam

end Session

end PlanarSketch
