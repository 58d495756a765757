import Mathlib.Data.Finset.Card
import PlanarSketch.Proofs.Sketch.Listing

/-!
What the counter of an index counts. An insertion is counted where the id is not present, whether or
not it has been before, so an id that is deleted and set again is counted again. The counter is the
number of distinct ids that have been brought in only as long as none of them comes back.

A `Tally` follows the edits without an index: it keeps the ids that have been set since the last
clear, those of them that are gone, and how often one came back.
-/

namespace PlanarSketch

variable {α : Type}

/-- Edits that set a primitive after some others and do not clear from there on. -/
def SetAfter (es before : List (Edit α)) (p : Primitive α) : Prop :=
  ∃ after, es = before ++ .set p :: after ∧ .clear ∉ after

theorem setAfter_nil {before : List (Edit α)} {p : Primitive α} : ¬ SetAfter [] before p := by
  rintro ⟨after, h, -⟩
  simp at h

theorem setAfter_concat {es before : List (Edit α)} {e : Edit α} {p : Primitive α} :
    SetAfter (es ++ [e]) before p ↔
      (es = before ∧ e = .set p) ∨ (e ≠ .clear ∧ SetAfter es before p) := by
  constructor
  · rintro ⟨after, h, hclear⟩
    obtain rfl | ⟨after, d, rfl⟩ := after.eq_nil_or_concat
    · obtain ⟨rfl, hlast⟩ := List.append_inj' h rfl
      exact .inl ⟨rfl, List.head_eq_of_cons_eq hlast⟩
    · rw [List.concat_eq_append] at h hclear
      rw [← List.cons_append, ← List.append_assoc] at h
      obtain ⟨rfl, hlast⟩ := List.append_inj' h rfl
      obtain rfl := List.head_eq_of_cons_eq hlast
      rw [List.mem_append, not_or, List.mem_singleton] at hclear
      exact .inr ⟨fun h => hclear.2 h.symm, after, rfl, hclear.1⟩
  · rintro (⟨rfl, rfl⟩ | ⟨he, after, rfl, hclear⟩)
    · exact ⟨[], rfl, List.not_mem_nil⟩
    · refine ⟨after ++ [e], by rw [List.append_assoc, List.cons_append], ?_⟩
      rw [List.mem_append, not_or, List.mem_singleton]
      exact ⟨hclear, fun h => he h.symm⟩

/-! ### Tallies -/

structure Tally where
  inserted : Finset Oid
  gone : Finset Oid
  returns : Nat

namespace Tally

def empty : Tally := ⟨∅, ∅, 0⟩

def add (t : Tally) : Edit α → Tally
  | .set p =>
      ⟨insert p.id t.inserted, t.gone.erase p.id, t.returns + if p.id ∈ t.gone then 1 else 0⟩
  | .overwrite _ _ => t
  | .delete id => if id ∈ t.inserted then { t with gone := insert id t.gone } else t
  | .clear => empty

def of (es : List (Edit α)) : Tally := es.foldl add empty

theorem of_concat (es : List (Edit α)) (e : Edit α) : of (es ++ [e]) = (of es).add e := by
  rw [of, List.foldl_append]
  rfl

@[simp] theorem inserted_delete (t : Tally) (id : Oid) :
    (t.add (.delete id : Edit α)).inserted = t.inserted := by
  rw [add]
  split <;> rfl

@[simp] theorem returns_delete (t : Tally) (id : Oid) :
    (t.add (.delete id : Edit α)).returns = t.returns := by
  rw [add]
  split <;> rfl

theorem mem_gone_delete {t : Tally} {id id' : Oid} : id' ∈ (t.add (.delete id : Edit α)).gone ↔
    (id' = id ∧ id' ∈ t.inserted) ∨ id' ∈ t.gone := by
  rw [add]
  split
  · next h =>
      rw [Finset.mem_insert]
      exact or_congr_left (iff_self_and.2 fun heq => heq ▸ h)
  · next h => exact (or_iff_right_of_imp fun hid => absurd (hid.1 ▸ hid.2) h).symm

/-- The ids that count as inserted are those that have been set since the last clear. -/
theorem mem_inserted {es : List (Edit α)} {id : Oid} :
    id ∈ (of es).inserted ↔ ∃ before p, SetAfter es before p ∧ p.id = id := by
  induction es using List.reverseRecOn with
  | nil => simp [of, empty, setAfter_nil]
  | append_singleton es e ih =>
      rw [of_concat]
      simp only [setAfter_concat]
      cases e with
      | set p =>
          rw [add, Finset.mem_insert, ih]
          constructor
          · rintro (rfl | ⟨before, q, hset, rfl⟩)
            · exact ⟨es, p, .inl ⟨rfl, rfl⟩, rfl⟩
            · exact ⟨before, q, .inr ⟨nofun, hset⟩, rfl⟩
          · rintro ⟨before, q, ⟨-, ⟨⟩⟩ | ⟨-, hset⟩, rfl⟩
            · exact .inl rfl
            · exact .inr ⟨before, q, hset, rfl⟩
      | overwrite id' p => simp [add, ih]
      | delete id' => simp [ih]
      | clear => simp [add, empty]

/-- No id comes back as long as what is set has not been deleted before. -/
theorem returns_eq_zero {es : List (Edit α)} :
    (of es).returns = 0 ↔ ∀ before p, SetAfter es before p → p.id ∉ (of before).gone := by
  induction es using List.reverseRecOn with
  | nil => simp [of, empty, setAfter_nil]
  | append_singleton es e ih =>
      rw [of_concat]
      simp only [setAfter_concat]
      cases e with
      | set p =>
          have hzero : (if p.id ∈ (of es).gone then 1 else 0) = 0 ↔ p.id ∉ (of es).gone := by simp
          rw [add, Nat.add_eq_zero_iff, ih, hzero]
          constructor
          · rintro ⟨hall, hp⟩ before q (⟨rfl, ⟨⟩⟩ | ⟨-, hset⟩)
            · exact hp
            · exact hall before q hset
          · intro hall
            exact ⟨fun before q hset => hall before q (.inr ⟨nofun, hset⟩),
              hall es p (.inl ⟨rfl, rfl⟩)⟩
      | overwrite id' p => simp [add, ih]
      | delete id' => simp [ih]
      | clear => simp [add, empty]

end Tally

/-! ### The counter follows the tally -/

namespace Index

variable {x y : Index α} {t : Tally}

theorem has_insert (id id' : Oid) (p : Primitive α) (n : Nat) :
    (⟨x.items.insert id p, n⟩ : Index α).has id' ↔ id' = id ∨ x.has id' := by
  simp only [has, Table.contains, Table.find?_insert]
  by_cases h : id' = id
  · simp [h]
  · simp [h]

theorem has_put (id id' : Oid) (p : Primitive α) : (x.put id p).has id' ↔ x.has id' := by
  rw [put]
  split
  · next h =>
      rw [has_insert]
      exact or_iff_right_of_imp fun heq => heq ▸ h
  · exact Iff.rfl

theorem has_delete (id id' : Oid) : (x.delete id).has id' ↔ id' ≠ id ∧ x.has id' := by
  simp only [has_iff, get?_delete]
  by_cases h : id' = id
  · simp [h]
  · simp [h]

/-- The ids present are those inserted and not gone. The counter has counted each id that was
inserted and each that came back. -/
structure Counts (x : Index α) (t : Tally) : Prop where
  has : ∀ id, x.has id ↔ id ∈ t.inserted ∧ id ∉ t.gone
  gone : t.gone ⊆ t.inserted
  counter : x.counter = t.inserted.card + t.returns

theorem counts_empty : (empty : Index α).Counts .empty where
  has id := by simp [empty, Tally.empty, has, Table.contains, Table.find?, Table.empty]
  gone := Finset.Subset.refl _
  counter := rfl

/-- A primitive goes where one is, or its id is counted, be it for the first time or not. -/
theorem set_cases {p : Primitive α} (h : x.set p = .ok y) :
    (x.has p.id = true ∧ y = ⟨x.items.insert p.id p, x.counter⟩) ∨
      (x.has p.id = false ∧ y = ⟨x.items.insert p.id p, x.counter + 1⟩) := by
  unfold set at h
  split at h
  · next hhas =>
      cases h
      exact .inl ⟨hhas, rfl⟩
  · next hhas =>
      split at h
      · cases h
      · cases h
        exact .inr ⟨eq_false_of_ne_true hhas, rfl⟩

theorem Counts.set (h : x.Counts t) {p : Primitive α} (hset : x.set p = .ok y) :
    y.Counts (t.add (.set p : Edit α)) := by
  have hhas (n : Nat) (id : Oid) : (⟨x.items.insert p.id p, n⟩ : Index α).has id ↔
      id ∈ insert p.id t.inserted ∧ id ∉ t.gone.erase p.id := by
    rw [has_insert, h.has, Finset.mem_insert, Finset.mem_erase]
    tauto
  have hgone : t.gone.erase p.id ⊆ insert p.id t.inserted :=
    (Finset.erase_subset _ _).trans (h.gone.trans (Finset.subset_insert _ _))
  obtain ⟨hpresent, rfl⟩ | ⟨habsent, rfl⟩ := set_cases hset
  · refine ⟨hhas _, hgone, ?_⟩
    obtain ⟨hinserted, hnot⟩ := (h.has p.id).1 hpresent
    rw [Tally.add, Finset.insert_eq_of_mem hinserted, if_neg hnot]
    exact h.counter
  · refine ⟨hhas _, hgone, ?_⟩
    have hreturned : p.id ∈ t.inserted → p.id ∈ t.gone := by
      intro hinserted
      by_contra hnot
      rw [(h.has p.id).2 ⟨hinserted, hnot⟩] at habsent
      cases habsent
    rw [Tally.add, h.counter]
    by_cases hinserted : p.id ∈ t.inserted
    · rw [Finset.insert_eq_of_mem hinserted, if_pos (hreturned hinserted), Nat.add_assoc]
    · rw [Finset.card_insert_of_notMem hinserted, if_neg fun hmem => hinserted (h.gone hmem)]
      exact Nat.add_right_comm ..

theorem Counts.perform (h : x.Counts t) {e : Edit α} {a : Option Bool}
    (hperform : perform e x = .ok (a, y)) : y.Counts (t.add e) := by
  cases e with
  | set p =>
      obtain ⟨z, hset, heq⟩ := map_eq_ok.1 hperform
      cases heq
      exact h.set hset
  | overwrite id p =>
      cases hperform
      refine ⟨fun id' => (has_put id id' p).trans (h.has id'), h.gone, ?_⟩
      rw [Tally.add, ← h.counter, put]
      split <;> rfl
  | delete id =>
      cases hperform
      refine ⟨?_, ?_, ?_⟩
      · intro id'
        rw [has_delete, h.has, Tally.inserted_delete, Tally.mem_gone_delete]
        tauto
      · intro id' hgone
        rw [Tally.inserted_delete]
        obtain ⟨-, hinserted⟩ | hgone := Tally.mem_gone_delete.1 hgone
        · exact hinserted
        · exact h.gone hgone
      · rw [Tally.inserted_delete, Tally.returns_delete]
        exact h.counter
  | clear =>
      cases hperform
      exact counts_empty

theorem Counts.performAll {es : List (Edit α)} {as : List (Option Bool)} (h : x.Counts t)
    (hall : Edit.performAll Index.perform es x = .ok (as, y)) :
    y.Counts (es.foldl Tally.add t) := by
  induction es generalizing x t as with
  | nil =>
      cases hall
      exact h
  | cons e es ih =>
      obtain ⟨⟨a, z⟩, hperform, hrest⟩ := bind_eq_ok.1 hall
      obtain ⟨⟨as', y'⟩, hall, heq⟩ := bind_eq_ok.1 hrest
      cases heq
      exact ih (h.perform hperform) hall

/-- Edits that bring in no more ids than can be counted are all performed. The counter is the number
of distinct ids that they have set since the last clear, and one more for each time that an id came
back; it is just that number exactly if no id that was deleted has been set again. -/
theorem counter_performAll (es : List (Edit α)) :
    (∀ id, id ∈ (Tally.of es).inserted ↔ ∃ before p, SetAfter es before p ∧ p.id = id) ∧
    (∀ as n l, Listing.Run [] es as n l → n < UInt32.size →
      ∃ x, Edit.performAll perform es .empty = .ok (as, x)) ∧
    ∀ as x, Edit.performAll perform es .empty = .ok (as, x) →
      x.counter = (Tally.of es).inserted.card + (Tally.of es).returns ∧
      (x.counter = (Tally.of es).inserted.card ↔
        ∀ before p, SetAfter es before p → p.id ∉ (Tally.of before).gone) := by
  refine ⟨fun id => Tally.mem_inserted, ?_, ?_⟩
  · intro as n l hrun hn
    have hlimit : (empty : Index α).counter + n ≤ counterLimit := by
      show 0 + n ≤ 4294967295
      have hsize : UInt32.size = 4294967296 := rfl
      omega
    obtain ⟨x, hall, -⟩ := performAll_run hrun rfl hlimit
    exact ⟨x, hall⟩
  · intro as x hall
    have hcounts : x.Counts (Tally.of es) := counts_empty.performAll hall
    refine ⟨hcounts.counter, ?_⟩
    rw [hcounts.counter, Nat.add_eq_left, Tally.returns_eq_zero]

/-- A point that is deleted and set again has been counted twice. -/
theorem counter_returned :
    ∃ x : Index Nat, Edit.performAll perform
        [.set (pointNamed 1 0), .delete ⟨1⟩, .set (pointNamed 1 0)] .empty =
          .ok ([none, some true, none], x) ∧
      x.counter = 2 ∧
      (Tally.of [.set (pointNamed 1 0), .delete ⟨1⟩, .set (pointNamed 1 0)]).inserted = {⟨1⟩} := by
  have hfirst : Listing.Step [] (.set (pointNamed 1 0)) none 1 [(⟨1⟩, pointNamed 1 0)] :=
    .append (by simp)
  have hdelete : Listing.Step ([] ++ (⟨1⟩, pointNamed 1 0) :: []) (.delete ⟨1⟩) (some true) 0 [] :=
    .delete
  have hrun := Listing.Run.cons hfirst <| .cons hdelete <| .cons hfirst .nil
  obtain ⟨-, hperformed, hcounted⟩ := counter_performAll
    [.set (pointNamed 1 0), .delete ⟨1⟩, .set (pointNamed 1 0)]
  obtain ⟨x, hall⟩ := hperformed _ _ _ hrun (by decide)
  obtain ⟨hcounter, -⟩ := hcounted _ x hall
  refine ⟨x, hall, ?_, by decide⟩
  rw [hcounter]
  decide

end Index

end PlanarSketch
