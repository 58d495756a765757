import Mathlib.Data.List.Nodup
import PlanarSketch.Session.Basic

/-!
When a look-up in a sketch succeeds, and what it then gives. The operations of a session chain
look-ups that may fail; the lemmas on `Except` take such a chain apart.
-/

namespace PlanarSketch

section

variable {ε β γ : Type} {x : Except ε β} {f : β → Except ε γ} {g : β → γ}

@[simp] theorem ok_bind (b : β) : (Except.ok b : Except ε β) >>= f = f b := rfl

@[simp] theorem error_bind (e : ε) : (Except.error e : Except ε β) >>= f = .error e := rfl

theorem bind_eq_ok {c : γ} : x >>= f = .ok c ↔ ∃ b, x = .ok b ∧ f b = .ok c := by
  cases x with
  | error e => simp [bind, Except.bind]
  | ok b => simp [bind, Except.bind]

theorem map_eq_ok {c : γ} : x.map g = .ok c ↔ ∃ b, x = .ok b ∧ g b = c := by
  cases x with
  | error e => simp [Except.map]
  | ok b => simp [Except.map]

end

namespace Table

variable {κ ν : Type} [DecidableEq κ]

theorem mem_of_find? {t : Table κ ν} {k : κ} {v : ν} (h : t.find? k = some v) :
    (k, v) ∈ t.entries := by
  obtain ⟨e, he, hv⟩ := Option.map_eq_some_iff.1 h
  have hk : e.1 = k := by simpa using List.find?_some he
  have hmem := List.mem_of_find?_eq_some he
  rwa [← hk, ← hv]

theorem find?_of_mem {t : Table κ ν} {k : κ} {v : ν} (h : (k, v) ∈ t.entries) :
    t.find? k = some v := by
  cases hf : t.entries.find? (fun e => decide (e.1 = k)) with
  | none =>
      have := List.find?_eq_none.1 hf _ h
      simp at this
  | some e =>
      have hk : e.1 = k := by simpa using List.find?_some hf
      have heq := List.inj_on_of_nodup_map t.nodup (List.mem_of_find?_eq_some hf) h hk
      simp [find?, hf, heq]

theorem contains_eq_false {t : Table κ ν} {k : κ} : t.contains k = false ↔ t.find? k = none := by
  rw [contains, Option.isSome_eq_false_iff, Option.isNone_iff_eq_none]

theorem mem_values {t : Table κ ν} {v : ν} : v ∈ t.values ↔ ∃ k, t.find? k = some v := by
  constructor
  · intro h
    obtain ⟨⟨k, w⟩, hmem, rfl⟩ := List.mem_map.1 h
    exact ⟨k, find?_of_mem hmem⟩
  · rintro ⟨k, h⟩
    exact List.mem_map.2 ⟨(k, v), mem_of_find? h, rfl⟩

end Table

/-- The parameters of a kind are told apart by their names. -/
theorem Kind.nodup_schema (k : Kind) : (k.schema.map ParamSpec.name).Nodup := by
  cases k <;> decide

theorem Primitive.geometry?_eq_some {α : Type} {p : Primitive α} {g : Geometry α} :
    p.geometry? = some g ↔ p = .geometry g := by
  unfold Primitive.geometry?
  cases p <;> simp

namespace Index

variable {α : Type} {x : Index α} {id : Oid}

theorem has_iff : x.has id ↔ ∃ p, x.get? id = some p := by
  rw [has, Table.contains, Option.isSome_iff_exists]
  rfl

theorem mem_geometries {g : Geometry α} :
    g ∈ x.geometries ↔ ∃ id, x.get? id = some (.geometry g) := by
  simp only [geometries, List.mem_filterMap, Primitive.geometry?_eq_some, all, exists_eq_right,
    Table.mem_values]
  rfl

theorem get_eq_ok {p : Primitive α} : x.get id = .ok p ↔ x.get? id = some p := by
  unfold get
  cases x.get? id <;> simp

theorem geometryOf_eq_ok {c : GeometryClass} {g : Geometry α} :
    x.geometryOf c id = .ok g ↔ x.get? id = some (.geometry g) ∧ g.geometryClass = c := by
  unfold geometryOf
  rw [bind_eq_ok]
  simp only [get_eq_ok]
  constructor
  · rintro ⟨p, hp, h⟩
    cases p with
    | geometry g' =>
        by_cases hc : g'.geometryClass = c
        · simp only [hc, if_true, Except.ok.injEq] at h
          exact h ▸ ⟨hp, hc⟩
        · simp [hc] at h
    | constraint c' => simp at h
  · rintro ⟨hp, hc⟩
    exact ⟨_, hp, by simp [hc]⟩

/-- Storing under an unused id, as long as insertions can still be counted. -/
theorem set_new {p : Primitive α} (h : x.has p.id = false) (hc : x.counter ≠ counterLimit) :
    x.set p = .ok ⟨x.items.insert p.id p, x.counter + 1⟩ := by
  simp [set, h, hc]

theorem get?_put (p : Primitive α) (id' : Oid) :
    (x.put id p).get? id' = if id' = id ∧ x.has id then some p else x.get? id' := by
  unfold put
  by_cases h : x.has id
  · simp only [h, if_true, and_true]
    exact Table.find?_insert x.items id id' p
  · simp [h]

theorem get?_delete (id' : Oid) :
    (x.delete id).get? id' = if id' = id then none else x.get? id' :=
  Table.find?_erase x.items id id'

end Index

namespace Allocator

variable {al : Allocator} {id : Oid} {a : Address}

theorem has_iff : al.has id ↔ ∃ a, al.blocks.find? id = some a := by
  rw [has, Table.contains, Option.isSome_iff_exists]

theorem address_eq_ok : al.address id = .ok a ↔ al.blocks.find? id = some a := by
  unfold address
  cases al.blocks.find? id <;> simp

theorem nameAddress_eq_ok {name : String} :
    al.nameAddress name = .ok a ↔ al.names.find? name = some a := by
  unfold nameAddress
  cases al.names.find? name <;> simp

end Allocator

end PlanarSketch
