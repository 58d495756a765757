import PlanarSketch.Proofs.Session.Entries

/-!
When a solution may be applied, and what it then writes. A solution is kept until something else
happens, so what is applied is what the last solve found for the sketch as it still is; scalars
that refused calls leave behind do not matter. Once it has been written, the solver and the sketch
agree and a further application finds nothing to do.
-/

namespace PlanarSketch

open LeastSquares

variable {α : Type}

namespace Session

variable {s t : Session (LeastSquares α) α}

/-- A read-back of `t` finds what a read-back of `s` finds. -/
structure Idle (s t : Session (LeastSquares α) α) : Prop where
  index : t.index = s.index
  allocator : t.allocator = s.allocator
  measured : t.measured = s.measured
  pending : t.solver.pending = s.solver.pending
  size : s.solver.size ≤ t.solver.size
  cells : ∀ {a : Nat}, a < s.solver.size → t.solver.cells[a]? = s.solver.cells[a]?

theorem Untouched.idle (h : Untouched s t) : Idle s t := by
  obtain ⟨vs, hcells⟩ := h.cells
  refine ⟨h.index, h.allocator, h.measured, h.pending, ?_, h.getElem?_old⟩
  rw [LeastSquares.size, LeastSquares.size, hcells, Array.size_append]
  exact Nat.le_add_right _ _

theorem value?_found (s : Session (LeastSquares α) α) (x : Address → α) (d : Diagnosis) {a : Nat}
    (ha : a < s.solver.size) :
    (s.found x d).solver.applySolution.value? a =
      if a ∈ s.solver.unknowns ++ s.solver.outputs then some (x a)
      else s.solver.value? a :=
  value?_applySolution_of_pending (s := (s.found x d).solver) rfl ha

variable [Scalar α] [Decompositions α] {u : Session (LeastSquares α) α} {es es' : History α}

/-- A move without an event is idle or applies a solution. Any other event than a solve leaves
nothing to be applied. -/
theorem Move.phase_cases (hs : Readable s) (h : Move s es t) :
    (es = [] ∧ t.phase = s.phase ∧ (Idle s t ∨ t = s.applied)) ∨
      (es = [.solved] ∧ t.phase = .solved) ∨
      (∃ e, es = [e] ∧ e ≠ .solved) ∧ t.phase ≠ .solved := by
  cases h with
  | refuse h => exact .inl ⟨rfl, h.phase, .inl h.idle⟩
  | tune config algorithm =>
      exact .inl ⟨rfl, rfl, .inl ⟨rfl, rfl, rfl, rfl, Nat.le_refl _, fun _ => rfl⟩⟩
  | place h => exact .inr (.inr ⟨⟨_, rfl, nofun⟩, by rw [h.phase]; nofun⟩)
  | enter h => exact .inr (.inr ⟨⟨_, rfl, nofun⟩, by rw [h.phase]; nofun⟩)
  | extra _ _ => exact .inr (.inr ⟨⟨_, rfl, nofun⟩, nofun⟩)
  | clearExtra => exact .inr (.inr ⟨⟨_, rfl, nofun⟩, nofun⟩)
  | delete _ _ => exact .inr (.inr ⟨⟨_, rfl, nofun⟩, nofun⟩)
  | bind name v => exact .inr (.inr ⟨⟨_, rfl, nofun⟩, nofun⟩)
  | assign v bound => exact .inr (.inr ⟨⟨_, rfl, nofun⟩, nofun⟩)
  | solve x d => exact .inr (.inl ⟨rfl, rfl⟩)
  | apply hphase =>
      rw [hs.applySolution_eq hphase]
      exact .inl ⟨rfl, rfl, .inr rfl⟩
  | clear => exact .inr (.inr ⟨⟨_, rfl, nofun⟩, nofun⟩)

theorem Run.phase_iff (hs : Fresh s) (h : Run s es t) : t.phase = .solved ↔ es.Solved := by
  refine (h.invariant_of_ledger (P := fun es t => t.phase = .solved ↔ es.Solved) hs.sound
    hs.ledger ?_ fun es t es' u ht hl ih hmove => ?_).2
  · cases hs <;> exact ⟨nofun, nofun⟩
  · rcases hmove.phase_cases (hl.readable ht) with
      ⟨rfl, hphase, -⟩ | ⟨rfl, hphase⟩ | ⟨⟨e, rfl, he⟩, hphase⟩
    · rw [List.append_nil, hphase, ih]
    · simp [hphase]
    · simp [hphase, he]

/-- As long as nothing but a call without an event follows, what would be written is what the solve
found. -/
theorem Run.value_found {before : History α} {x : Address → α} {d : Diagnosis} (hs : Sound s)
    (hl : Ledger before s) (h : Run (s.found x d) es t) (hes : .solved ∉ es)
    (ht : t.phase = .solved) : s.solver.size ≤ t.solver.size ∧ ∀ {a : Nat}, a < s.solver.size →
      t.solver.applySolution.value? a =
        if a ∈ s.solver.unknowns ++ s.solver.outputs then some (x a)
        else s.solver.value? a := by
  have hfound := Move.solve (s := s) x d
  refine (h.invariant_of_ledger
    (P := fun es t => .solved ∉ es → t.phase = .solved → s.solver.size ≤ t.solver.size ∧
      ∀ {a : Nat}, a < s.solver.size → t.solver.applySolution.value? a =
        if a ∈ s.solver.unknowns ++ s.solver.outputs then some (x a)
        else s.solver.value? a)
    (hfound.sound hs) (hl.move hs hfound) ?_
    (fun es t es' u ht' hl' ih hmove hno hphase => ?_)).2 hes ht
  · exact fun _ _ => ⟨Nat.le_refl _, s.value?_found x d⟩
  · rcases hmove.phase_cases (hl'.readable ht') with
      ⟨rfl, hsame, hquiet⟩ | ⟨rfl, -⟩ | ⟨-, hne⟩
    · rw [List.append_nil] at hno
      obtain ⟨hsize, hvalue⟩ := ih hno (hsame.symm.trans hphase)
      rcases hquiet with hidle | rfl
      · refine ⟨Nat.le_trans hsize hidle.size, fun ha => ?_⟩
        rw [value?_applySolution_congr hidle.pending (hidle.cells (Nat.lt_of_lt_of_le ha hsize))]
        exact hvalue ha
      · -- what has been written is not written again
        have hwritten : t.applied.solver.applySolution = t.solver.applySolution :=
          applySolution_of_none rfl
        have hsame : t.applied.solver.size = t.solver.size := t.solver.size_applySolution
        rw [hwritten, hsame]
        exact ⟨hsize, hvalue⟩
    · exact absurd (List.mem_append_right _ (List.mem_singleton_self _)) hno
    · exact absurd hphase hne

/-- A solution that has been applied leaves nothing to apply, as long as nothing is solved
again. -/
theorem Run.applied_again {before : History α} (hs : Sound s) (hl : Ledger before s)
    (hphase : s.phase = .solved) (h : Run s.applied es t) (hes : .solved ∉ es) :
    t.applySolution.2 = t := by
  have hread : Readable s := hl.readable hs
  have hs' : Sound s.applied := by
    have hsound := hs.applied (applied_applySolution s)
    rwa [hread.applySolution_eq hphase] at hsound
  have hdone : t.phase = .solved → t.solver.pending = none ∧ Synced t := by
    refine (h.invariant_of_ledger
      (P := fun es t => .solved ∉ es → t.phase = .solved → t.solver.pending = none ∧ Synced t)
      hs' hl.applied ?_ (fun es t es' u ht' hl' ih hmove hno ht => ?_)).2 hes
    · exact fun _ _ => ⟨rfl, hread.synced_applied⟩
    · have hread : Readable t := hl'.readable ht'
      rcases hmove.phase_cases hread with
        ⟨rfl, hsame, hidle | rfl⟩ | ⟨rfl, -⟩ | ⟨-, hne⟩
      · rw [List.append_nil] at hno
        obtain ⟨hpending, hsynced⟩ := ih hno (hsame.symm.trans ht)
        refine ⟨hidle.pending.trans hpending, fun id p hp => ?_⟩
        rw [hidle.index] at hp
        rw [hread.reread_congr hp hidle.allocator hidle.measured
          fun a ha => read_congr (by rw [value?, hidle.cells ha, value?])]
        exact hsynced id p hp
      · exact ⟨rfl, hread.synced_applied⟩
      · exact absurd (List.mem_append_right _ (List.mem_singleton_self _)) hno
      · exact absurd ht hne
  by_cases ht : t.phase = .solved
  · obtain ⟨hpending, hsynced⟩ := hdone ht
    have hread := (h.ledger_append hs' hl.applied).readable (h.sound hs')
    rw [hread.applySolution_eq ht]
    exact hsynced.applied_eq hpending
  · rw [applySolution, if_neg ht]

/-- A solution can be applied exactly if a solve is what happened last; otherwise the call is
refused. A solve leaves everything but the pending solution alone. What is applied is what the last
solve found for the scalars it may set; the others keep their values, and applying again, without
another solve, changes nothing. -/
theorem Run.apply_last_solution (hs : Fresh s) (h : Run s es t) :
    (t.applySolution.1 = .ok () ↔ es.Solved) ∧
    (¬ es.Solved → t.applySolution = (.error (.notSolved t.phase), t)) ∧
    (∀ algorithm, (t.solveWith algorithm).2 =
      t.found (System.read (t.solver.solution algorithm))
        (t.solver.diagnose (t.solver.descend algorithm).x)) ∧
    ∀ x d, ((t.found x d).solver.cells = t.solver.cells ∧
        (t.found x d).solver.entries = t.solver.entries ∧ (t.found x d).index = t.index ∧
        (t.found x d).allocator = t.allocator ∧ (t.found x d).measured = t.measured) ∧
      ∀ es' u, Run (t.found x d) es' u → .solved ∉ es' → u.applySolution.1 = .ok () →
        (∀ a : Nat, a < t.solver.size → u.applySolution.2.solver.value? a =
          if a ∈ t.solver.unknowns ++ t.solver.outputs then some (x a)
          else t.solver.value? a) ∧
        ∀ es'' w, Run u.applySolution.2 es'' w → .solved ∉ es'' → w.applySolution.2 = w := by
  have hphase := h.phase_iff hs
  have hsound := h.sound hs.sound
  have hledger := h.ledger hs
  have hrefused : ∀ u : Session (LeastSquares α) α, u.phase ≠ .solved →
      u.applySolution = (.error (.notSolved u.phase), u) :=
    fun u hu => by rw [applySolution, if_neg hu]
  refine ⟨⟨fun hok => ?_, fun hsolved => ?_⟩, fun hno => ?_, t.solveWith_eq_found, fun x d =>
    ⟨⟨rfl, rfl, rfl, rfl, rfl⟩, fun es' u hrun hes hok => ?_⟩⟩
  · rw [← hphase]
    by_contra hne
    rw [hrefused t hne] at hok
    cases hok
  · rw [(hledger.readable hsound).applySolution_eq (hphase.2 hsolved)]
  · exact hrefused t fun hp => hno (hphase.1 hp)
  · have hu : u.phase = .solved := by
      by_contra hne
      rw [hrefused u hne] at hok
      cases hok
    have hfound := Move.solve (s := t) x d
    have hsound' := hrun.sound (hfound.sound hsound)
    have hledger' := hrun.ledger_append (hfound.sound hsound) (hledger.move hsound hfound)
    rw [(hledger'.readable hsound').applySolution_eq hu]
    exact ⟨fun a ha => (hrun.value_found hsound hledger hes hu).2 ha,
      fun es'' w hrun' hes' => hrun'.applied_again hsound' hledger' hu hes'⟩

/-- Whatever a solve finds for the free point, it gets; the fixed point stays. -/
theorem apply_smallSession :
    ∃ es u, Run (.new (.ofConfig .standard)) es smallSession ∧
      Run (smallSession.found (fun _ => 9.0) .empty) [] u ∧ u.applySolution.1 = .ok () ∧
      u.applySolution.2.solver.value? 0 = some 9.0 ∧
      u.applySolution.2.solver.value? 2 = smallSession.solver.value? 2 ∧
      u.applySolution.2.applySolution.2 = u.applySolution.2 := by
  have hrun : Run (.new (.ofConfig .standard)) _ smallSession := .call (.call .refl _) _
  have hok : (smallSession.found (fun _ => 9.0) .empty).applySolution.1 = .ok () :=
    (Run.apply_last_solution (.new .standard) (hrun.solve _ _)).1.2
      ((History.solved_concat _ _).2 rfl)
  obtain ⟨-, hafter⟩ :=
    (Run.apply_last_solution (.new .standard) hrun).2.2.2 (fun _ => 9.0) .empty
  obtain ⟨hvalue, hagain⟩ := hafter [] _ .refl (by simp) hok
  refine ⟨_, _, hrun, .refl, hok, ?_, ?_, hagain [] _ .refl (by simp)⟩
  · rw [hvalue 0 (by decide +kernel), if_pos (by decide +kernel)]
  · rw [hvalue 2 (by decide +kernel), if_neg (by decide +kernel)]

end Session

end PlanarSketch
