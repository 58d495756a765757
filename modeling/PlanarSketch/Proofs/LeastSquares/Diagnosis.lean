import Mathlib.Data.List.Induction
import PlanarSketch.Proofs.LeastSquares.Solve

/-!
What a diagnosis finds. The rows are visited one by one, those of a group after those of all
groups before it. Whether a row is dependent is a matter of the rows before it and of nothing else,
so the verdict on a group can be said without the visit: it follows from the rows up to the end of
the group and from its residuals. Only a conflict may come from later, from a conflicting group with
a dependent row that combines rows of this one. A group that is blamed so has rows of its own to be
combined, and so is not redundant.
-/

namespace PlanarSketch

namespace Diagnosis

/-! ### Tags -/

theorem mem_insertTag {t u : Int} {ts : List Int} : u ∈ insertTag t ts ↔ u = t ∨ u ∈ ts := by
  induction ts with
  | nil => simp [insertTag]
  | cons v ts ih =>
      rw [insertTag]
      by_cases hlt : t < v
      · rw [if_pos hlt, List.mem_cons]
      rw [if_neg hlt]
      by_cases heq : t = v
      · subst heq
        rw [if_pos rfl, List.mem_cons, or_self_left]
      · rw [if_neg heq, List.mem_cons, List.mem_cons, ih, or_left_comm]

theorem pairwise_insertTag {t : Int} {ts : List Int} (h : ts.Pairwise (· < ·)) :
    (insertTag t ts).Pairwise (· < ·) := by
  induction ts with
  | nil => exact List.pairwise_singleton _ t
  | cons v ts ih =>
      obtain ⟨hv, hts⟩ := List.pairwise_cons.1 h
      rw [insertTag]
      by_cases hlt : t < v
      · rw [if_pos hlt]
        refine List.pairwise_cons.2 ⟨fun u hu => ?_, h⟩
        rcases List.mem_cons.1 hu with rfl | hu
        · exact hlt
        · exact Int.lt_trans hlt (hv u hu)
      rw [if_neg hlt]
      by_cases heq : t = v
      · rwa [if_pos heq]
      · rw [if_neg heq]
        refine List.pairwise_cons.2 ⟨fun u hu => ?_, ih hts⟩
        rcases mem_insertTag.1 hu with rfl | hu
        · omega
        · exact hv u hu

theorem foldl_insertTag (ts us : List Int) (h : us.Pairwise (· < ·)) :
    let all := ts.foldl (fun us t => if 0 ≤ t then insertTag t us else us) us
    all.Pairwise (· < ·) ∧ ∀ u, u ∈ all ↔ u ∈ us ∨ 0 ≤ u ∧ u ∈ ts := by
  induction ts generalizing us with
  | nil => exact ⟨h, fun u => by simp⟩
  | cons t ts ih =>
      rw [List.foldl_cons]
      by_cases ht : 0 ≤ t
      · rw [if_pos ht]
        obtain ⟨hsorted, hmem⟩ := ih (insertTag t us) (pairwise_insertTag h)
        refine ⟨hsorted, fun u => ?_⟩
        rw [hmem, mem_insertTag, List.mem_cons]
        grind
      · rw [if_neg ht]
        obtain ⟨hsorted, hmem⟩ := ih us h
        refine ⟨hsorted, fun u => ?_⟩
        rw [hmem, List.mem_cons]
        grind

section

variable {α : Type} (groups : List (RowGroup α)) (is : List Nat)

theorem pairwise_tags : (tags groups is).Pairwise (· < ·) :=
  (foldl_insertTag _ [] .nil).1

/-- The tag of a group that has the property. -/
def Reported (P : Nat → Prop) (t : Int) : Prop :=
  0 ≤ t ∧ ∃ i g, P i ∧ groups[i]? = some g ∧ g.tag = t

theorem mem_tags {t : Int} : t ∈ tags groups is ↔ Reported groups (· ∈ is) t := by
  rw [tags, (foldl_insertTag _ [] .nil).2]
  simp [Reported, List.mem_filterMap]

/-- No two groups have the same tag and are reported by it. -/
def TagsApart : Prop :=
  ∀ (i j : Nat) (g g' : RowGroup α), groups[i]? = some g → groups[j]? = some g' → 0 ≤ g.tag →
    g'.tag = g.tag → j = i

variable {groups} in
theorem reported_iff (hapart : TagsApart groups) {g : RowGroup α} {i : Nat}
    (hg : groups[i]? = some g) (ht : 0 ≤ g.tag) {P : Nat → Prop} :
    Reported groups P g.tag ↔ P i := by
  constructor
  · rintro ⟨-, j, g', hp, hg', heq⟩
    exact hapart i j g g' hg hg' ht heq ▸ hp
  · exact fun hp => ⟨ht, i, g, hp, hg, rfl⟩

end

/-! ### The rows of groups -/

section

variable {β : Type} {P : List β → β → Prop} {a b : β} {as : List β}

/-- A place in a list is its head, or a place further on. -/
theorem exists_split_cons : (∃ own rest, a :: as = own ++ b :: rest ∧ P own b) ↔
    (b = a ∧ P [] a) ∨ ∃ own rest, as = own ++ b :: rest ∧ P (a :: own) b := by
  constructor
  · rintro ⟨own, rest, heq, hp⟩
    cases own with
    | nil =>
        obtain ⟨rfl, -⟩ := List.cons.inj heq
        exact .inl ⟨rfl, hp⟩
    | cons c own =>
        obtain ⟨rfl, hrest⟩ := List.cons.inj heq
        exact .inr ⟨own, rest, hrest, hp⟩
  · rintro (⟨rfl, hp⟩ | ⟨own, rest, rfl, hp⟩)
    · exact ⟨[], as, rfl, hp⟩
    · exact ⟨a :: own, rest, rfl, hp⟩

theorem forall_split_cons : (∀ own b rest, a :: as = own ++ b :: rest → P own b) ↔
    P [] a ∧ ∀ own b rest, as = own ++ b :: rest → P (a :: own) b := by
  constructor
  · intro h
    refine ⟨h [] a as rfl, ?_⟩
    rintro own b rest rfl
    exact h (a :: own) b rest rfl
  · rintro ⟨hhead, htail⟩ own b rest heq
    cases own with
    | nil =>
        obtain ⟨rfl, -⟩ := List.cons.inj heq
        exact hhead
    | cons c own =>
        obtain ⟨rfl, hrest⟩ := List.cons.inj heq
        exact htail own b rest hrest

end

section

variable {α : Type} {groups : List (RowGroup α)} {g : RowGroup α} {i k : Nat} {row : Vec α}

/-- The rows of some groups in order, with the group that each belongs to. -/
def labelled (groups : List (RowGroup α)) : List (Nat × Vec α) :=
  groups.zipIdx.flatMap fun g => g.1.rows.map fun r => (g.2, r.1)

/-- The row stands in a group, right behind these of the group's own. -/
def RowAt (groups : List (RowGroup α)) (i : Nat) (own : List (Vec α)) (row : Vec α) : Prop :=
  ∃ g rest, groups[i]? = some g ∧ g.rows.map Prod.fst = own ++ row :: rest

theorem RowAt.lt {own : List (Vec α)} (h : RowAt groups i own row) : i < groups.length := by
  obtain ⟨g, rest, hg, -⟩ := h
  exact (List.getElem?_eq_some_iff.1 hg).1

theorem getElem?_concat_of_lt (h : i < groups.length) : (groups ++ [g])[i]? = groups[i]? :=
  List.getElem?_append_left h

theorem take_concat_of_le (h : i ≤ groups.length) : (groups ++ [g]).take i = groups.take i :=
  List.take_append_of_le_length h

theorem rowAt_concat (h : i < groups.length) : RowAt (groups ++ [g]) i = RowAt groups i := by
  funext own row
  simp only [RowAt, getElem?_concat_of_lt h]

theorem rowAt_last {own : List (Vec α)} : RowAt (groups ++ [g]) groups.length own row ↔
    ∃ rest, g.rows.map Prod.fst = own ++ row :: rest := by
  simp [RowAt]

theorem rowAt_take {own : List (Vec α)} (h : RowAt (groups.take k) i own row) :
    i < k ∧ RowAt groups i own row := by
  have hlt : i < k := Nat.lt_of_lt_of_le h.lt (List.length_take_le k groups)
  obtain ⟨g, rest, hg, hrow⟩ := h
  rw [List.getElem?_take_of_lt hlt] at hg
  exact ⟨hlt, g, rest, hg, hrow⟩

/-- Of a property that only groups have and the first ones keep, the last group adds its own
case. -/
theorem concat_iff {P Q : Nat → Prop} (hlt : ∀ {i}, Q i → i < groups.length + 1)
    (hold : ∀ {i}, P i → i < groups.length) (h : ∀ {i}, i < groups.length → (Q i ↔ P i)) :
    Q i ↔ P i ∨ i = groups.length ∧ Q groups.length := by
  constructor
  · intro hi
    rcases Nat.lt_succ_iff_lt_or_eq.1 (hlt hi) with hlt | rfl
    · exact .inl ((h hlt).1 hi)
    · exact .inr ⟨rfl, hi⟩
  · rintro (hi | ⟨rfl, hi⟩)
    · exact (h (hold hi)).2 hi
    · exact hi

theorem labelled_concat (groups : List (RowGroup α)) (g : RowGroup α) :
    labelled (groups ++ [g]) =
      labelled groups ++ (g.rows.map Prod.fst).map fun row => (groups.length, row) := by
  simp [labelled, List.zipIdx_append]

/-- A row comes after those of the groups before its own and those of its group before it. -/
theorem labelled_eq_append {before after : List (Nat × Vec α)}
    (h : labelled groups = before ++ (i, row) :: after) : ∃ own, RowAt groups i own row ∧
      before = labelled (groups.take i) ++ own.map fun row => (i, row) := by
  induction groups using List.reverseRecOn generalizing after with
  | nil => cases before <;> cases h
  | append_singleton groups g ih =>
      rw [labelled_concat] at h
      have hlast : ∀ mid, before = labelled groups ++ mid →
          (g.rows.map Prod.fst).map (fun row => (groups.length, row)) = mid ++ (i, row) :: after →
          ∃ own, RowAt (groups ++ [g]) i own row ∧
            before = labelled ((groups ++ [g]).take i) ++ own.map fun row => (i, row) := by
        intro mid hbefore hrows
        obtain ⟨own, rest, hsplit, rfl, hrest⟩ := List.map_eq_append_iff.1 hrows
        obtain ⟨row', rest', rfl, hlabel, -⟩ := List.map_eq_cons_iff.1 hrest
        cases hlabel
        exact ⟨own, rowAt_last.2 ⟨rest', hsplit⟩, by rw [hbefore, take_concat_of_le (Nat.le_refl _),
          List.take_length]⟩
      rcases List.append_eq_append_iff.1 h with ⟨mid, hbefore, hrows⟩ | ⟨mid, hgroups, hrows⟩
      · exact hlast mid hbefore hrows
      · cases mid with
        | nil =>
            rw [List.append_nil] at hgroups
            exact hlast [] (by rw [hgroups, List.append_nil]) hrows.symm
        | cons r mid =>
            obtain ⟨rfl, -⟩ := List.cons.inj hrows
            obtain ⟨own, hrow, hbefore⟩ := ih hgroups
            refine ⟨own, by rwa [rowAt_concat hrow.lt], ?_⟩
            rw [hbefore, take_concat_of_le (Nat.le_of_lt hrow.lt)]

end

variable {α : Type} [Scalar α]

/-! ### Dependent rows -/

/-- Visits one more row. -/
def take (s : Span α) (r : Nat × Vec α) : Span α :=
  let left := reduce s.basis r.2
  if isIndependent r.2 left then ⟨s.basis ++ [direction left], s.accepted ++ [r]⟩ else s

/-- What has been accepted of some rows, visited in this order. -/
def spanOf (rows : List (Nat × Vec α)) : Span α := rows.foldl take ⟨[], []⟩

/-- The rows before leave nothing of this one. -/
def Dependent (before : List (Nat × Vec α)) (row : Vec α) : Prop :=
  isIndependent row (reduce (spanOf before).basis row) = false

theorem spanOf_concat (rows : List (Nat × Vec α)) (r : Nat × Vec α) :
    spanOf (rows ++ [r]) = take (spanOf rows) r := by
  simp [spanOf]

/-- An accepted row is one that did not depend on those before it. -/
theorem exists_of_accepted {rows : List (Nat × Vec α)} {r : Nat × Vec α}
    (h : r ∈ (spanOf rows).accepted) :
    ∃ before after, rows = before ++ r :: after ∧ ¬ Dependent before r.2 := by
  induction rows using List.reverseRecOn with
  | nil => cases h
  | append_singleton rows r' ih =>
      have hold : r ∈ (spanOf rows).accepted →
          ∃ before after, rows ++ [r'] = before ++ r :: after ∧ ¬ Dependent before r.2 := by
        intro hr
        obtain ⟨before, after, heq, hno⟩ := ih hr
        exact ⟨before, after ++ [r'], by rw [heq, List.append_assoc, List.cons_append], hno⟩
      rw [spanOf_concat, take] at h
      by_cases hfree : isIndependent r'.2 (reduce (spanOf rows).basis r'.2) = true
      · simp only [hfree, if_true] at h
        rcases List.mem_append.1 h with h | h
        · exact hold h
        · obtain rfl := List.mem_singleton.1 h
          exact ⟨rows, [], rfl, by simp [Dependent, hfree]⟩
      · rw [Bool.not_eq_true] at hfree
        simp only [hfree, Bool.false_eq_true, if_false] at h
        exact hold h

/-- The row depends on the rows before its group and on those of the group before it. -/
def DependentIn (before : List (Nat × Vec α)) (owner : Nat) (own : List (Vec α)) (row : Vec α) :
    Prop :=
  Dependent (before ++ own.map fun row => (owner, row)) row

theorem dependentIn_nil {before : List (Nat × Vec α)} {owner : Nat} {row : Vec α} :
    DependentIn before owner [] row ↔ Dependent before row := by
  rw [DependentIn, List.map_nil, List.append_nil]

theorem dependentIn_cons {before : List (Nat × Vec α)} {owner : Nat} {own : List (Vec α)}
    {row row' : Vec α} : DependentIn before owner (row :: own) row' ↔
      DependentIn (before ++ [(owner, row)]) owner own row' := by
  rw [DependentIn, List.map_cons, List.append_cons, DependentIn]

/-- The rows of a group that are not accepted are those that depend on the rows before them. -/
theorem absorb_spanOf (owner : Nat) (rows : List (Vec α)) (before : List (Nat × Vec α)) :
    (absorb owner rows (spanOf before)).1 = spanOf (before ++ rows.map fun row => (owner, row)) ∧
    (∀ row, row ∈ (absorb owner rows (spanOf before)).2 ↔
      ∃ own rest, rows = own ++ row :: rest ∧ DependentIn before owner own row) ∧
    (absorb owner rows (spanOf before)).2.length ≤ rows.length ∧
    ((absorb owner rows (spanOf before)).2.length = rows.length ↔
      ∀ own row rest, rows = own ++ row :: rest → DependentIn before owner own row) := by
  induction rows generalizing before with
  | nil => simp [absorb]
  | cons row rows ih =>
      obtain ⟨hspan, hmem, hle, hlength⟩ := ih (before ++ [(owner, row)])
      simp only [exists_split_cons, forall_split_cons, dependentIn_nil, dependentIn_cons]
      rw [spanOf_concat, take] at hspan hmem hle hlength
      rw [List.map_cons, List.append_cons, absorb]
      by_cases hfree : isIndependent row (reduce (spanOf before).basis row) = true
      · have hno : ¬ Dependent before row := by simp [Dependent, hfree]
        simp only [hfree, if_true] at hspan hmem hle hlength ⊢
        refine ⟨hspan, fun row' => ?_, Nat.le_succ_of_le hle, ?_⟩
        · exact (hmem row').trans (or_iff_right fun h => hno h.2).symm
        · rw [List.length_cons]
          exact iff_of_false (by omega) fun h => hno h.1
      · rw [Bool.not_eq_true] at hfree
        have hyes : Dependent before row := hfree
        simp only [hfree, Bool.false_eq_true, if_false] at hspan hmem hle hlength ⊢
        refine ⟨hspan, fun row' => ?_, Nat.succ_le_succ hle, ?_⟩
        · rw [List.mem_cons, hmem]
          exact or_congr_left (iff_self_and.2 fun _ => hyes)
        · rw [List.length_cons, List.length_cons, Nat.add_right_cancel_iff, hlength]
          exact (and_iff_right hyes).symm

/-! ### Verdicts -/

section

variable (tolerance : α) (groups : List (RowGroup α))

def AllDependent (i : Nat) : Prop :=
  ∀ own row, RowAt groups i own row → DependentIn (labelled (groups.take i)) i own row

def SomeDependent (i : Nat) : Prop :=
  ∃ own row, RowAt groups i own row ∧ DependentIn (labelled (groups.take i)) i own row

/-- The residuals of a group are within the tolerance. -/
def Within (i : Nat) : Prop := ∀ g, groups[i]? = some g → ∀ r ∈ g.rows, Scalar.abs r.2 ≤ tolerance

def Redundant (i : Nat) : Prop :=
  SomeDependent groups i ∧ AllDependent groups i ∧ Within tolerance groups i

def PartiallyRedundant (i : Nat) : Prop :=
  SomeDependent groups i ∧ ¬ AllDependent groups i ∧ Within tolerance groups i

def Conflicts (i : Nat) : Prop := SomeDependent groups i ∧ ¬ Within tolerance groups i

variable (part : Span α → Vec α → Nat → Prop)

/-- A dependent row of group `j` has a part of group `i`, by what has been accepted so far. -/
def Blames (j i : Nat) : Prop :=
  ∃ own row, RowAt groups j own row ∧ DependentIn (labelled (groups.take j)) j own row ∧
    part (spanOf (labelled (groups.take (j + 1)))) row i

/-- The group conflicts, or is blamed by a later one that does. -/
def InConflict (i : Nat) : Prop :=
  Conflicts tolerance groups i ∨
    ∃ j, i < j ∧ Conflicts tolerance groups j ∧ Blames groups part j i

end

section

variable {groups : List (RowGroup α)} {g : RowGroup α} {tolerance : α} {i j k : Nat}

theorem SomeDependent.lt (h : SomeDependent groups i) : i < groups.length := by
  obtain ⟨own, row, hrow, -⟩ := h
  exact hrow.lt

/-- The owner of an accepted row has come before, and the row did not depend on others. -/
theorem of_mem_accepted {row : Vec α}
    (h : (i, row) ∈ (spanOf (labelled (groups.take k))).accepted) :
    i < k ∧ ¬ AllDependent groups i := by
  obtain ⟨before, after, hsplit, hno⟩ := exists_of_accepted h
  obtain ⟨own, hrow, rfl⟩ := labelled_eq_append hsplit
  obtain ⟨hlt, hrow⟩ := rowAt_take hrow
  rw [List.take_take, Nat.min_eq_left (Nat.le_of_lt hlt)] at hno
  exact ⟨hlt, fun hall => hno (hall own row hrow)⟩

/-! A further group leaves the verdicts on those before it as they are. -/

theorem someDependent_concat (h : i < groups.length) :
    SomeDependent (groups ++ [g]) i ↔ SomeDependent groups i := by
  simp only [SomeDependent, rowAt_concat h, take_concat_of_le (Nat.le_of_lt h)]

theorem allDependent_concat (h : i < groups.length) :
    AllDependent (groups ++ [g]) i ↔ AllDependent groups i := by
  simp only [AllDependent, rowAt_concat h, take_concat_of_le (Nat.le_of_lt h)]

theorem within_concat (h : i < groups.length) :
    Within tolerance (groups ++ [g]) i ↔ Within tolerance groups i := by
  simp only [Within, getElem?_concat_of_lt h]

theorem blames_concat {part : Span α → Vec α → Nat → Prop} (h : j < groups.length) :
    Blames (groups ++ [g]) part j i ↔ Blames groups part j i := by
  simp only [Blames, rowAt_concat h, take_concat_of_le (Nat.le_of_lt h), take_concat_of_le h]

theorem Blames.congr {part part' : Span α → Vec α → Nat → Prop}
    (h : ∀ own row, RowAt groups j own row →
      (part (spanOf (labelled (groups.take (j + 1)))) row i ↔
        part' (spanOf (labelled (groups.take (j + 1)))) row i)) :
    Blames groups part j i ↔ Blames groups part' j i := by
  refine exists_congr fun own => exists_congr fun row => and_congr_right fun hrow => ?_
  rw [h own row hrow]

/-- What is found of the last group is what depends on the rows of the groups before it. -/
theorem absorb_last (part : Span α → Vec α → Nat → Prop) {span : Span α}
    {dependent : List (Vec α)}
    (h : absorb groups.length (g.rows.map Prod.fst) (spanOf (labelled groups)) =
      (span, dependent)) :
    span = spanOf (labelled (groups ++ [g])) ∧
    (SomeDependent (groups ++ [g]) groups.length ↔ dependent ≠ []) ∧
    (AllDependent (groups ++ [g]) groups.length ↔ dependent.length = g.rows.length) ∧
    ∀ i, Blames (groups ++ [g]) part groups.length i ↔ ∃ row ∈ dependent, part span row i := by
  obtain ⟨hspan, hdependent, -, hlength⟩ :=
    absorb_spanOf groups.length (g.rows.map Prod.fst) (labelled groups)
  rw [h, ← labelled_concat] at hspan
  rw [h] at hdependent hlength
  obtain rfl : span = spanOf (labelled (groups ++ [g])) := hspan
  have htake : (groups ++ [g]).take groups.length = groups := List.take_left
  have htake' : (groups ++ [g]).take (groups.length + 1) = groups ++ [g] :=
    List.take_of_length_le (by simp)
  have hrow : ∀ row, row ∈ dependent ↔ ∃ own, RowAt (groups ++ [g]) groups.length own row ∧
      DependentIn (labelled groups) groups.length own row := by
    intro row
    rw [hdependent]
    refine exists_congr fun own => ?_
    rw [rowAt_last, exists_and_right]
  refine ⟨rfl, ?_, ?_, fun i => ?_⟩
  · rw [SomeDependent, htake, exists_comm, ← List.length_pos_iff, List.length_pos_iff_exists_mem]
    exact exists_congr fun row => (hrow row).symm
  · rw [List.length_map] at hlength
    rw [AllDependent, htake, hlength]
    simp only [rowAt_last, forall_exists_index]
  · rw [Blames, htake, htake', exists_comm]
    simp only [hrow, exists_and_right, ← and_assoc]

variable [Decompositions α]

/-- A row has a part of a group that one of its accepted rows has a share in it. -/
def Shared (s : Span α) (row : Vec α) (i : Nat) : Prop :=
  ∃ (k : Nat) (r : Vec α) (c : α), s.accepted[k]? = some (i, r) ∧
    (shares s row)[k]? = some c ∧ dependencyTolerance < Scalar.abs c

theorem mem_owners {s : Span α} {row : Vec α} : i ∈ owners s row ↔ Shared s row i := by
  rw [owners]
  split
  · next hnone =>
      rw [List.isEmpty_iff] at hnone
      exact iff_of_false List.not_mem_nil fun ⟨k, r, c, hk, _⟩ => by simp [hnone] at hk
  · rw [List.mem_filterMap]
    simp only [Option.ite_none_right_eq_some, Option.some.injEq]
    constructor
    · rintro ⟨⟨⟨_, r⟩, c⟩, hzip, hlarge, rfl⟩
      obtain ⟨k, hk⟩ := List.mem_iff_getElem?.1 hzip
      obtain ⟨hr, hc⟩ := List.getElem?_zip_eq_some.1 hk
      exact ⟨k, r, c, hr, hc, hlarge⟩
    · rintro ⟨k, r, c, hr, hc, hlarge⟩
      have hzip : ((i, r), c) ∈ s.accepted.zip (shares s row) :=
        List.mem_iff_getElem?.2 ⟨k, List.getElem?_zip_eq_some.2 ⟨hr, hc⟩⟩
      exact ⟨_, hzip, hlarge, rfl⟩

theorem Shared.lt_and_not {row : Vec α} (h : Shared (spanOf (labelled (groups.take k))) row i) :
    i < k ∧ ¬ AllDependent groups i := by
  obtain ⟨_, _, _, hr, -⟩ := h
  exact of_mem_accepted (List.mem_of_getElem? hr)

/-- What a visit adds to the verdicts. -/
theorem mem_visit (tolerance : α) (v : Verdicts) {n : Nat} {span span' : Span α}
    {dependent : List (Vec α)}
    (h : absorb n (g.rows.map Prod.fst) span = (span', dependent)) :
    let state := visit tolerance (span, v) (g, n)
    let within := ∀ r ∈ g.rows, Scalar.abs r.2 ≤ tolerance
    state.1 = span' ∧
    (∀ i, i ∈ state.2.redundant ↔ i ∈ v.redundant ∨ i = n ∧
      dependent ≠ [] ∧ dependent.length = g.rows.length ∧ within) ∧
    (∀ i, i ∈ state.2.partiallyRedundant ↔ i ∈ v.partiallyRedundant ∨ i = n ∧
      dependent ≠ [] ∧ ¬ dependent.length = g.rows.length ∧ within) ∧
    ∀ i, i ∈ state.2.conflicting ↔ i ∈ v.conflicting ∨
      (dependent ≠ [] ∧ ¬ within) ∧ (i = n ∨ ∃ row ∈ dependent, Shared span' row i) := by
  intro state within
  have hwithin : (g.rows.all fun r => decide (Scalar.abs r.2 ≤ tolerance)) = true ↔ within := by
    simp [within]
  have hstate : state = visit tolerance (span, v) (g, n) := rfl
  simp only [visit, h] at hstate
  cases dependent with
  | nil =>
      rw [hstate]
      simp
  | cons row rows =>
      rw [List.length_cons] at hstate ⊢
      by_cases hw : within
      · rw [List.isEmpty_cons, hwithin.2 hw] at hstate
        by_cases hlength : rows.length + 1 = g.rows.length
        · rw [if_pos hlength] at hstate
          rw [hstate]
          simp [hw, hlength]
        · rw [if_neg hlength] at hstate
          rw [hstate]
          simp [hw, hlength]
      · rw [List.isEmpty_cons, Bool.eq_false_iff.2 (mt hwithin.1 hw)] at hstate
        rw [hstate]
        simp [hw, mem_owners]

/-- The verdicts after a visit of all groups. -/
structure Judged (tolerance : α) (groups : List (RowGroup α)) (state : Span α × Verdicts) :
    Prop where
  span : state.1 = spanOf (labelled groups)
  redundant : ∀ i, i ∈ state.2.redundant ↔ Redundant tolerance groups i
  partiallyRedundant : ∀ i, i ∈ state.2.partiallyRedundant ↔ PartiallyRedundant tolerance groups i
  conflicting : ∀ i, i ∈ state.2.conflicting ↔ ∃ j, Conflicts tolerance groups j ∧
    (i = j ∨ Blames groups Shared j i)

theorem Judged.visit {state : Span α × Verdicts} (h : Judged tolerance groups state) :
    Judged tolerance (groups ++ [g]) (visit tolerance state (g, groups.length)) := by
  obtain ⟨span, v⟩ := state
  obtain rfl : span = spanOf (labelled groups) := h.span
  rcases habsorb : absorb groups.length (g.rows.map Prod.fst) (spanOf (labelled groups)) with
    ⟨span, dependent⟩
  obtain ⟨rfl, hsome, hall, hblames⟩ := absorb_last Shared habsorb
  have hwithin : Within tolerance (groups ++ [g]) groups.length ↔
      ∀ r ∈ g.rows, Scalar.abs r.2 ≤ tolerance := by
    simp [Within]
  obtain ⟨hstate, hredundant, hpartial, hconflicting⟩ := mem_visit tolerance v habsorb
  simp only [← hsome, ← hall, ← hwithin, ← hblames] at hredundant hpartial hconflicting
  have hlast : ∀ {i}, SomeDependent (groups ++ [g]) i → i < groups.length + 1 := by
    intro i hi
    simpa using hi.lt
  refine ⟨hstate, fun i => ?_, fun i => ?_, fun i => ?_⟩
  · rw [hredundant, h.redundant]
    refine (concat_iff (Q := Redundant tolerance (groups ++ [g])) (fun hi => hlast hi.1)
      (fun hi => hi.1.lt) fun hi => ?_).symm
    rw [Redundant, someDependent_concat hi, allDependent_concat hi, within_concat hi, Redundant]
  · rw [hpartial, h.partiallyRedundant]
    refine (concat_iff (Q := PartiallyRedundant tolerance (groups ++ [g])) (fun hi => hlast hi.1)
      (fun hi => hi.1.lt) fun hi => ?_).symm
    rw [PartiallyRedundant, someDependent_concat hi, allDependent_concat hi, within_concat hi,
      PartiallyRedundant]
  · have hblamed : ∀ j, (Conflicts tolerance (groups ++ [g]) j ∧
        (i = j ∨ Blames (groups ++ [g]) Shared j i)) ↔
        (Conflicts tolerance groups j ∧ (i = j ∨ Blames groups Shared j i)) ∨ j = groups.length ∧
          Conflicts tolerance (groups ++ [g]) groups.length ∧
          (i = groups.length ∨ Blames (groups ++ [g]) Shared groups.length i) := by
      intro j
      refine concat_iff
        (P := fun j => Conflicts tolerance groups j ∧ (i = j ∨ Blames groups Shared j i))
        (Q := fun j => Conflicts tolerance (groups ++ [g]) j ∧
          (i = j ∨ Blames (groups ++ [g]) Shared j i))
        (fun hj => hlast hj.1.1) (fun hj => hj.1.1.lt) fun hj => ?_
      rw [Conflicts, someDependent_concat hj, within_concat hj, blames_concat hj, Conflicts]
    rw [hconflicting, h.conflicting, exists_congr hblamed, exists_or, exists_eq_left]
    rfl

theorem judged (tolerance : α) (groups : List (RowGroup α)) : Judged tolerance groups
    (groups.zipIdx.foldl (Diagnosis.visit tolerance) (⟨[], []⟩, ⟨[], [], []⟩)) := by
  induction groups using List.reverseRecOn with
  | nil =>
      have hnone : ∀ {i}, ¬ SomeDependent ([] : List (RowGroup α)) i :=
        fun h => Nat.not_lt_zero _ h.lt
      refine ⟨rfl, fun i => ?_, fun i => ?_, fun i => ?_⟩
      · exact iff_of_false List.not_mem_nil fun h => hnone h.1
      · exact iff_of_false List.not_mem_nil fun h => hnone h.1
      · exact iff_of_false List.not_mem_nil fun ⟨_, h⟩ => hnone h.1.1
  | append_singleton groups g ih =>
      rw [List.zipIdx_append, List.foldl_append]
      simpa using ih.visit

/-- Whoever is blamed comes before. -/
theorem exists_conflicts_iff :
    (∃ j, Conflicts tolerance groups j ∧ (i = j ∨ Blames groups Shared j i)) ↔
      InConflict tolerance groups Shared i := by
  constructor
  · rintro ⟨j, hj, rfl | hblames⟩
    · exact .inl hj
    · obtain ⟨own, row, -, -, howner⟩ := id hblames
      rcases Nat.lt_succ_iff_lt_or_eq.1 howner.lt_and_not.1 with hlt | rfl
      · exact .inr ⟨j, hlt, hj, hblames⟩
      · exact .inl hj
  · rintro (hi | ⟨j, -, hj, hblames⟩)
    · exact ⟨i, hi, .inl rfl⟩
    · exact ⟨j, hj, .inr hblames⟩

theorem InConflict.not_redundant (h : InConflict tolerance groups Shared i) :
    ¬ Redundant tolerance groups i := by
  rintro ⟨-, hall, hwithin⟩
  rcases h with h | ⟨j, -, -, own, row, -, -, howner⟩
  · exact h.2 hwithin
  · exact howner.lt_and_not.2 hall

end

/-! ### Reports -/

section

variable [Decompositions α] (tolerance : α) (groups : List (RowGroup α)) (width : Nat)

theorem mem_redundant {t : Int} : t ∈ (diagnose width tolerance groups).redundant ↔
    Reported groups (Redundant tolerance groups) t := by
  simp only [diagnose, mem_tags, (judged tolerance groups).redundant, Reported]

theorem mem_partiallyRedundant {t : Int} :
    t ∈ (diagnose width tolerance groups).partiallyRedundant ↔
      Reported groups (PartiallyRedundant tolerance groups) t := by
  simp only [diagnose, mem_tags, (judged tolerance groups).partiallyRedundant, Reported]

theorem mem_conflicting {t : Int} : t ∈ (diagnose width tolerance groups).conflicting ↔
    Reported groups (InConflict tolerance groups Shared) t := by
  simp only [diagnose, mem_tags, (judged tolerance groups).conflicting, exists_conflicts_iff,
    Reported]

end

/-- What a diagnosis says of the group in a place, by its tag. Which groups a row has parts of is
left open. -/
structure Classified (part : Span α → Vec α → Nat → Prop) (d : Diagnosis) (tolerance : α)
    (groups : List (RowGroup α)) (i : Nat) (t : Int) : Prop where
  redundant : t ∈ d.redundant ↔ AllDependent groups i ∧ Within tolerance groups i
  partiallyRedundant : t ∈ d.partiallyRedundant ↔
    SomeDependent groups i ∧ ¬ AllDependent groups i ∧ Within tolerance groups i
  conflicting : t ∈ d.conflicting ↔ InConflict tolerance groups part i
  unreported : ¬ SomeDependent groups i →
    (∀ j, i < j → Conflicts tolerance groups j → ¬ Blames groups part j i) →
    t ∉ d.conflicting ∧ t ∉ d.redundant ∧ t ∉ d.partiallyRedundant

section

variable {groups : List (RowGroup α)} {g : RowGroup α} {tolerance : α} {width i : Nat}

theorem AllDependent.someDependent (h : AllDependent groups i) (hg : groups[i]? = some g)
    (hrows : g.rows ≠ []) : SomeDependent groups i := by
  obtain ⟨r, rest, hsplit⟩ := List.exists_cons_of_ne_nil hrows
  have hrow : RowAt groups i [] r.1 := ⟨g, rest.map Prod.fst, hg, by rw [hsplit]; rfl⟩
  exact ⟨[], r.1, hrow, h [] r.1 hrow⟩

/-- Only the parts of the rows in conflict matter. -/
theorem Classified.congr {part part' : Span α → Vec α → Nat → Prop} {d : Diagnosis} {t : Int}
    (h : Classified part d tolerance groups i t)
    (hpart : ∀ j, Conflicts tolerance groups j →
      (Blames groups part j i ↔ Blames groups part' j i)) :
    Classified part' d tolerance groups i t where
  redundant := h.redundant
  partiallyRedundant := h.partiallyRedundant
  conflicting := h.conflicting.trans <| or_congr_right <| exists_congr fun j =>
    and_congr_right fun _ => and_congr_right fun hj => hpart j hj
  unreported hno hblames := h.unreported hno fun j hlt hj hblamed =>
    hblames j hlt hj ((hpart j hj).1 hblamed)

variable [Decompositions α]

theorem classified (hapart : TagsApart groups) (hg : groups[i]? = some g) (ht : 0 ≤ g.tag)
    (hrows : g.rows ≠ []) :
    Classified Shared (diagnose width tolerance groups) tolerance groups i g.tag := by
  have hredundant : g.tag ∈ (diagnose width tolerance groups).redundant ↔
      Redundant tolerance groups i := by
    rw [mem_redundant, reported_iff hapart hg ht]
  have hpartial : g.tag ∈ (diagnose width tolerance groups).partiallyRedundant ↔
      PartiallyRedundant tolerance groups i := by
    rw [mem_partiallyRedundant, reported_iff hapart hg ht]
  have hconflicting : g.tag ∈ (diagnose width tolerance groups).conflicting ↔
      InConflict tolerance groups Shared i := by
    rw [mem_conflicting, reported_iff hapart hg ht]
  refine ⟨hredundant.trans ?_, hpartial, hconflicting, fun hno hblames => ?_⟩
  · exact and_iff_right_of_imp fun h => h.1.someDependent hg hrows
  · rw [hconflicting, hredundant, hpartial]
    refine ⟨?_, fun h => hno h.1, fun h => hno h.1⟩
    rintro (h | ⟨j, hj, hconflicts, hblamed⟩)
    · exact hno h.1
    · exact hblames j hj hconflicts hblamed

/-- What is redundant is not reported otherwise. -/
theorem disjoint_redundant (hapart : TagsApart groups) :
    List.Disjoint (diagnose width tolerance groups).redundant
      (diagnose width tolerance groups).conflicting ∧
    List.Disjoint (diagnose width tolerance groups).redundant
      (diagnose width tolerance groups).partiallyRedundant := by
  constructor
  · intro t hredundant hconflicting
    obtain ⟨ht, i, g, hi, hg, rfl⟩ := (mem_redundant ..).1 hredundant
    rw [mem_conflicting, reported_iff hapart hg ht] at hconflicting
    exact hconflicting.not_redundant hi
  · intro t hredundant hpartial
    obtain ⟨ht, i, g, hi, hg, rfl⟩ := (mem_redundant ..).1 hredundant
    rw [mem_partiallyRedundant, reported_iff hapart hg ht] at hpartial
    exact hpartial.2.1 hi.2.1

end

end Diagnosis

/-! ### The groups of the entries -/

theorem Equation.rows_pos {α : Type} (e : Equation α) : 0 < e.rows := by
  cases e <;> exact Nat.succ_pos _

namespace LeastSquares

variable {α : Type} [Scalar α]

/-- The group has the tag of the entry, and a row for each residual that the entry has. -/
structure GroupOf (values : Array α) (e : Entry α) (g : RowGroup α) : Prop where
  tag : g.tag = e.tag
  residuals : g.rows.map Prod.snd = System.equationResiduals values (Entry.scaled e)

theorem GroupOf.rows_ne_nil {values : Array α} {e : Entry α} {g : RowGroup α}
    (h : GroupOf values e g) : g.rows ≠ [] := by
  have hlength := congrArg List.length h.residuals
  rw [List.length_map, System.equationResiduals_length] at hlength
  exact List.ne_nil_of_length_pos (hlength ▸ e.equation.rows_pos)

theorem groupOf_rowGroups {values : Array α} {es : List (Entry α)} {rows : List (Vec α × α)}
    (h : rows.map Prod.snd =
      es.flatMap fun e => System.equationResiduals values (Entry.scaled e)) :
    List.Forall₂ (GroupOf values) es (rowGroups es rows) ∧
      (rowGroups es rows).flatMap RowGroup.rows = rows := by
  induction es generalizing rows with
  | nil =>
      obtain rfl := List.map_eq_nil_iff.1 h
      exact ⟨.nil, rfl⟩
  | cons e es ih =>
      obtain ⟨own, rest, rfl, hown, hrest⟩ := List.map_eq_append_iff.1 h
      obtain ⟨hgroups, hrows⟩ := ih hrest
      have hlength : own.length = e.equation.rows := by
        rw [← List.length_map (f := Prod.snd), hown]
        exact System.equationResiduals_length ..
      rw [rowGroups, List.take_left' hlength, List.drop_left' hlength]
      exact ⟨.cons ⟨rfl, hown⟩ hgroups, by rw [List.flatMap_cons, hrows]⟩

/-- The groups that are visited after a solve that has found this point. -/
def groupsAt (s : LeastSquares α) (x : Vec α) : List (RowGroup α) :=
  rowGroups s.drivingEntries
    ((s.drivingSystem.jacobian x).rows.zip (s.drivingSystem.residuals x))

variable (s : LeastSquares α) (x : Vec α)

/-- The rows of the derivative are dealt out in order, to the driving entries in theirs. -/
theorem groupOf_groupsAt :
    List.Forall₂ (GroupOf (s.drivingSystem.expand x)) s.drivingEntries (s.groupsAt x) ∧
      ((s.groupsAt x).flatMap RowGroup.rows).map Prod.fst = (s.drivingSystem.jacobian x).rows := by
  have hlength : (s.drivingSystem.jacobian x).rows.length =
      (s.drivingSystem.residuals x).length := by
    rw [System.residuals_length, ColumnMatrix.rows, List.length_map, List.length_range]
    rfl
  have hresiduals : ((s.drivingSystem.jacobian x).rows.zip (s.drivingSystem.residuals x)).map
      Prod.snd = s.drivingEntries.flatMap fun e =>
        System.equationResiduals (s.drivingSystem.expand x) (Entry.scaled e) := by
    rw [List.map_snd_zip (Nat.le_of_eq hlength.symm), System.residuals]
    exact List.flatMap_map ..
  obtain ⟨hgroups, hrows⟩ := groupOf_rowGroups hresiduals
  refine ⟨hgroups, ?_⟩
  rw [groupsAt, hrows, List.map_fst_zip (Nat.le_of_eq hlength)]

theorem width_jacobian : (s.drivingSystem.jacobian x).width = x.length := by
  simp [System.jacobian, ColumnMatrix.width]

theorem length_row_groupsAt : ∀ g ∈ s.groupsAt x, ∀ r ∈ g.rows, r.1.length = x.length := by
  intro g hg r hr
  have hrow : r.1 ∈ ((s.groupsAt x).flatMap RowGroup.rows).map Prod.fst :=
    List.mem_map_of_mem (List.mem_flatMap.2 ⟨g, hg, hr⟩)
  rw [(s.groupOf_groupsAt x).2, ColumnMatrix.rows] at hrow
  obtain ⟨i, -, hi⟩ := List.mem_map.1 hrow
  rw [← hi, ColumnMatrix.length_row, s.width_jacobian]

theorem diagnose_eq [Decompositions α] : s.diagnose x =
    Diagnosis.diagnose (s.drivingSystem.jacobian x).width s.rowTolerance (s.groupsAt x) := rfl

end LeastSquares

end PlanarSketch
