import PlanarSketch.Proofs.LeastSquares.Diagnosis
import PlanarSketch.Proofs.Session.Inputs

/-!
What a session reports after a solve. A report is in terms of tags, and is read back as ids of
constraints. The solver has one entry for each constraint of the sketch, so no report is lost on the
way back, and each is of one constraint, by the verdict on the group of its rows. Constraints that
are not part of the sketch take part in the diagnosis, but are not reported.
-/

namespace PlanarSketch

open LeastSquares

section

variable {β γ : Type} {R : β → γ → Prop} {bs : List β} {cs : List γ} {c : γ} {i : Nat}

theorem getElem?_of_forall₂ (h : List.Forall₂ R bs cs) (hc : cs[i]? = some c) :
    ∃ b, bs[i]? = some b ∧ R b c := by
  induction h generalizing i with
  | nil => cases hc
  | cons hbc _ ih =>
      cases i with
      | zero =>
          cases hc
          exact ⟨_, rfl, hbc⟩
      | succ i => exact ih hc

variable {P : β → Prop} {before after : List β} {b b' : β}

/-- An element that is the only one of its kind has one place. -/
theorem eq_length_of_split (hother : ∀ b' ∈ before ++ after, ¬ P b')
    (h : (before ++ b :: after)[i]? = some b') (hb' : P b') : i = before.length := by
  rcases Nat.lt_trichotomy i before.length with hlt | heq | hgt
  · rw [List.getElem?_append_left hlt] at h
    exact absurd hb' (hother b' (List.mem_append_left _ (List.mem_of_getElem? h)))
  · exact heq
  · obtain ⟨k, rfl⟩ := Nat.exists_eq_add_of_lt hgt
    rw [List.getElem?_append_right (by omega), Nat.add_assoc, Nat.add_sub_cancel_left,
      List.getElem?_cons_succ] at h
    exact absurd hb' (hother b' (List.mem_append_right _ (List.mem_of_getElem? h)))

end

namespace Session

variable {α : Type} {s t : Session (LeastSquares α) α} {id : Oid} {c : Constraint α}

/-! ### From tags to ids -/

theorem constraintsOf_cons {tag : Int} {tags : List Int} (htag : id.tag = .ok tag)
    (hget : s.index.get? id = some (.constraint c)) :
    s.constraintsOf (tag :: tags) = id :: s.constraintsOf tags := by
  obtain ⟨-, rfl⟩ := Oid.tag_eq_ok.1 htag
  have hlt : 0 ≤ (id.val.toNat : Int) ∧ (id.val.toNat : Int).toNat < UInt32.size :=
    ⟨Int.natCast_nonneg _, id.val.toNat_lt⟩
  rw [constraintsOf, constraintsOf, List.filterMap_cons, if_pos hlt]
  simp [hget, Primitive.constraint?]

/-- The tags ascend, and each is that of a driving constraint of the sketch, which is found again
by it. -/
structure Translated (s : Session (LeastSquares α) α) (tags : List Int) : Prop where
  ascending : tags.Pairwise (· < ·)
  driving : ∀ tag ∈ tags, ∃ id c, id.tag = .ok tag ∧
    s.index.get? id = some (.constraint c) ∧ c.isDriving = true
  ids : (s.constraintsOf tags).map Oid.tag = tags.map .ok

theorem translated {tags : List Int} (hascending : tags.Pairwise (· < ·))
    (hdriving : ∀ tag ∈ tags, ∃ id c, id.tag = .ok tag ∧
      s.index.get? id = some (.constraint c) ∧ c.isDriving = true) : Translated s tags := by
  refine ⟨hascending, hdriving, ?_⟩
  clear hascending
  induction tags with
  | nil => rfl
  | cons tag tags ih =>
      obtain ⟨⟨id, c, htag, hget, -⟩, htags⟩ := List.forall_mem_cons.1 hdriving
      rw [constraintsOf_cons htag hget, List.map_cons, List.map_cons, ih htags, htag]

/-! ### From constraints to entries -/

variable [Scalar α] {es : History α}

theorem Ledger.exists_constraint (h : Ledger es t) {e : Entry α} (he : e ∈ t.solver.entries)
    (htag : 0 ≤ e.tag) :
    ∃ c, t.index.get? c.id = some (.constraint c) ∧ e.Belongs c := by
  have hsketch : e ∈ t.solver.sketchEntries := List.mem_filter.2 ⟨he, decide_eq_true htag⟩
  refine forall₂_right (Q := fun e => ∃ c, t.index.get? c.id = some (.constraint c) ∧ e.Belongs c)
    h.belongs.flip (fun c e hc hbelongs => ⟨c, ?_, hbelongs⟩) e hsketch
  rw [Index.constraints_eq] at hc
  obtain ⟨⟨id, p⟩, hmem, hp⟩ := List.mem_filterMap.1 hc
  cases p with
  | geometry g => cases hp
  | constraint c' =>
      cases hp
      obtain rfl : c.id = id := h.keyed _ hmem
      exact Table.find?_of_mem hmem

variable [Decompositions α]

/-- A driving constraint has one entry among the driving ones, by its tag. -/
theorem Ledger.driving_place (h : Ledger es t) (hget : t.index.get? id = some (.constraint c))
    (hc : c.isDriving = true) : ∃ (i : Nat) (e : Entry α),
      t.solver.drivingEntries[i]? = some e ∧ e.Belongs c ∧ ∀ (j : Nat) (e' : Entry α),
        t.solver.drivingEntries[j]? = some e' → e'.tag = e.tag → j = i := by
  obtain ⟨before, e, after, hbelongs, hsplit, hother, -⟩ := h.delete_constraint hget
  have hdriving : t.solver.drivingEntries =
      before.filter Entry.driving ++ e :: after.filter Entry.driving := by
    rw [drivingEntries, hsplit, List.filter_append,
      List.filter_cons_of_pos (hbelongs.2.driving.trans hc)]
  refine ⟨(before.filter Entry.driving).length, e, ?_, hbelongs, fun j e' he' htag => ?_⟩
  · rw [hdriving]
    simp
  · rw [hdriving] at he'
    refine eq_length_of_split (P := fun e' => e'.tag = e.tag) (fun e' he' => ?_) he' htag
    rw [← List.filter_append] at he'
    exact hother e' (List.mem_of_mem_filter he')

/-- Of the tags that are reported, each is that of one constraint. -/
theorem Ledger.tagsApart (h : Ledger es s) (x : Vec α) :
    Diagnosis.TagsApart (s.solver.groupsAt x) := by
  obtain ⟨hgroups, -⟩ := s.solver.groupOf_groupsAt x
  intro i j g g' hg hg' htag hsame
  obtain ⟨e, he, hgroup⟩ := getElem?_of_forall₂ hgroups hg
  obtain ⟨e', he', hgroup'⟩ := getElem?_of_forall₂ hgroups hg'
  rw [hgroup.tag] at htag hsame
  rw [hgroup'.tag] at hsame
  obtain ⟨hentry, hdriving⟩ := List.mem_filter.1 (List.mem_of_getElem? he)
  obtain ⟨c, hget, hbelongs⟩ := h.exists_constraint hentry htag
  obtain ⟨k, e₀, -, hbelongs₀, hone⟩ :=
    h.driving_place hget (hbelongs.2.driving.symm.trans hdriving)
  have htag₀ : e.tag = e₀.tag := Except.ok.inj (hbelongs.1.symm.trans hbelongs₀.1)
  rw [hone i e he htag₀, hone j e' he' (hsame.trans htag₀)]

omit [Decompositions α] in
/-- What is reported of the groups comes from driving constraints of the sketch. -/
theorem Ledger.translated (h : Ledger es s) (hindex : t.index = s.index) {x : Vec α}
    {P : Nat → Prop} {tags : List Int} (hascending : tags.Pairwise (· < ·))
    (hreported : ∀ tag ∈ tags, Diagnosis.Reported (s.solver.groupsAt x) P tag) :
    Translated t tags := by
  refine Session.translated hascending fun tag htag => ?_
  obtain ⟨hnonneg, i, g, -, hg, rfl⟩ := hreported tag htag
  obtain ⟨e, he, hgroup⟩ := getElem?_of_forall₂ (s.solver.groupOf_groupsAt x).1 hg
  obtain ⟨hentry, hdriving⟩ := List.mem_filter.1 (List.mem_of_getElem? he)
  rw [hgroup.tag] at hnonneg ⊢
  obtain ⟨c, hget, hbelongs⟩ := h.exists_constraint hentry hnonneg
  exact ⟨c.id, c, hbelongs.1, hindex ▸ hget, hbelongs.2.driving.symm.trans hdriving⟩

/-- The reports after a solve are ascending and translate to driving constraints of the sketch, all
of them. What is redundant is in no other report. The rows of the derivative belong to the driving
constraints in the order in which these have come, and by its rows and residuals each of the sketch
is classified. Which constraints a row has parts of is left open. -/
def Diagnosed (s : Session (LeastSquares α) α) (algorithm : Algorithm)
    (part : Diagnosis.Span α → Vec α → Nat → Prop) : Prop :=
  let t := (s.solveWith algorithm).2
  let d := t.solver.diagnosis
  let x := (s.solver.descend algorithm).x
  let groups := s.solver.groupsAt x
  (Translated t d.conflicting ∧ Translated t d.redundant ∧
    Translated t d.partiallyRedundant) ∧
  (List.Disjoint d.redundant d.conflicting ∧ List.Disjoint d.redundant d.partiallyRedundant) ∧
  (List.Forall₂ (GroupOf (s.solver.drivingSystem.expand x)) s.solver.drivingEntries groups ∧
    (groups.flatMap RowGroup.rows).map Prod.fst = (s.solver.drivingSystem.jacobian x).rows) ∧
  ∀ id c, t.index.get? id = some (.constraint c) → c.isDriving = true →
    ∃ (i : Nat) (e : Entry α), s.solver.drivingEntries[i]? = some e ∧ e.Belongs c ∧
      (∀ j e', s.solver.drivingEntries[j]? = some e' → e'.Belongs c → j = i) ∧
      id.tag = .ok e.tag ∧ Diagnosis.Classified part d s.solver.rowTolerance groups i e.tag

/-- A row has parts of the constraints whose rows have a share in it, by the linear algebra. -/
theorem Reachable.diagnosed (h : Reachable s) (algorithm : Algorithm) :
    s.Diagnosed algorithm Diagnosis.Shared := by
  let x := (s.solver.descend algorithm).x
  obtain ⟨es, hl⟩ := h.exists_ledger
  have hapart := hl.tagsApart x
  have hindex : (s.solveWith algorithm).2.index = s.index := rfl
  have hd : (s.solveWith algorithm).2.solver.diagnosis = Diagnosis.diagnose
      (s.solver.drivingSystem.jacobian x).width s.solver.rowTolerance (s.solver.groupsAt x) :=
    s.solver.diagnose_eq x
  rw [Diagnosed, hd]
  refine ⟨⟨?_, ?_, ?_⟩, Diagnosis.disjoint_redundant hapart, s.solver.groupOf_groupsAt x, ?_⟩
  · exact hl.translated hindex (Diagnosis.pairwise_tags ..) fun _ =>
      (Diagnosis.mem_conflicting ..).1
  · exact hl.translated hindex (Diagnosis.pairwise_tags ..) fun _ => (Diagnosis.mem_redundant ..).1
  · exact hl.translated hindex (Diagnosis.pairwise_tags ..) fun _ =>
      (Diagnosis.mem_partiallyRedundant ..).1
  · intro id c hget hc
    have hid : c.id = id := hl.keyed _ (Table.mem_of_find? hget)
    obtain ⟨i, e, he, hbelongs, hone⟩ := hl.driving_place hget hc
    obtain ⟨g, hg, hgroup⟩ := getElem?_of_forall₂ (s.solver.groupOf_groupsAt x).1.flip he
    have hnonneg : 0 ≤ g.tag := hgroup.tag ▸ Oid.tag_nonneg hbelongs.1
    refine ⟨i, e, he, hbelongs, fun j e' he' hbelongs' => ?_, hid ▸ hbelongs.1, ?_⟩
    · exact hone j e' he' (Except.ok.inj (hbelongs'.1.symm.trans hbelongs.1))
    · rw [← hgroup.tag]
      exact Diagnosis.classified hapart hg hnonneg hgroup.rows_ne_nil

theorem Diagnosed.congr {algorithm : Algorithm} {part part' : Diagnosis.Span α → Vec α → Nat → Prop}
    (h : s.Diagnosed algorithm part)
    (hpart : ∀ i j, let groups := s.solver.groupsAt (s.solver.descend algorithm).x
      Diagnosis.Conflicts s.solver.rowTolerance groups j →
        (Diagnosis.Blames groups part j i ↔ Diagnosis.Blames groups part' j i)) :
    s.Diagnosed algorithm part' := by
  obtain ⟨htranslated, hdisjoint, hgroups, heach⟩ := h
  refine ⟨htranslated, hdisjoint, hgroups, fun id c hget hc => ?_⟩
  obtain ⟨i, e, he, hbelongs, hone, htag, hclassified⟩ := heach id c hget hc
  exact ⟨i, e, he, hbelongs, hone, htag, hclassified.congr fun j hj => hpart i j hj⟩

end Session

end PlanarSketch
