import Mathlib.Logic.Function.Basic
import Mathlib.Logic.Relation
import PlanarSketch.Proofs.LeastSquares.Cells
import PlanarSketch.Proofs.Lookup

/-!
Which scalars of the solver belong to which geometry. A session keeps the geometry it has: an
operation may give it new values, never another class, other points or another block. All scalars
that no geometry owns are fixed or measured into. What one operation can do is said once, by
`Step`; the invariant follows step by step.
-/

namespace PlanarSketch

variable {α : Type}

/-- What stays the same about a geometry for as long as a session holds it. -/
structure Outline where
  id : Oid
  geometryClass : GeometryClass
  points : List Oid
  fixed : Bool

def Outline.count (o : Outline) : Nat := o.geometryClass.ownCount

def Geometry.outline (g : Geometry α) : Outline :=
  ⟨g.id, g.geometryClass, g.points, g.shape.fixed⟩

namespace Index

variable {x : Index α} {id : Oid} {g : Geometry α}

def geometryAt? (x : Index α) (id : Oid) : Option (Geometry α) :=
  (x.get? id).bind Primitive.geometry?

def outline? (x : Index α) (id : Oid) : Option Outline := (x.geometryAt? id).map Geometry.outline

theorem geometryAt?_eq_some : x.geometryAt? id = some g ↔ x.get? id = some (.geometry g) := by
  unfold geometryAt?
  cases x.get? id with
  | none => simp
  | some p => exact Primitive.geometry?_eq_some.trans (by simp)

theorem geometryAt?_eq_none (h : ∀ g, x.get? id ≠ some (.geometry g)) :
    x.geometryAt? id = none := by
  rw [Option.eq_none_iff_forall_ne_some]
  intro g hg
  exact h g (geometryAt?_eq_some.1 hg)

theorem outline?_eq_some {o : Outline} :
    x.outline? id = some o ↔ ∃ g, x.get? id = some (.geometry g) ∧ g.outline = o := by
  simp only [outline?, Option.map_eq_some_iff, geometryAt?_eq_some]

theorem outline?_of_get? (h : x.get? id = some (.geometry g)) :
    x.outline? id = some g.outline := outline?_eq_some.2 ⟨g, h, rfl⟩

theorem geometryAt?_of_has (h : x.has id = false) : x.geometryAt? id = none := by
  have hget : x.get? id = none := by
    cases hx : x.get? id with
    | none => rfl
    | some p =>
        have := has_iff.2 ⟨p, hx⟩
        simp [h] at this
  rw [geometryAt?, hget]
  rfl

end Index

namespace Session

/-- The scalar at an address belongs to the geometry with this outline. -/
def Owns (s : Session (LeastSquares α) α) (o : Outline) (a : Nat) : Prop :=
  s.index.outline? o.id = some o ∧
    ∃ base : Nat, s.allocator.blocks.find? o.id = some base ∧ base ≤ a ∧ a < base + o.count

/-- Blocks and the geometries that own scalars belong to each other, and every point that a
geometry is built on has a block. -/
structure Anchored (s : Session (LeastSquares α) α) : Prop where
  keyed : ∀ {id o}, s.index.outline? id = some o → o.id = id
  held : ∀ {id} {base : Nat}, s.allocator.blocks.find? id = some base →
    ∃ o, s.index.outline? id = some o ∧ 0 < o.count ∧ base + o.count ≤ s.solver.size
  allocated : ∀ {id o}, s.index.outline? id = some o → 0 < o.count → s.allocator.has id
  grounded : ∀ {id o p}, s.index.outline? id = some o → p ∈ o.points → s.allocator.has p

structure Sound (s : Session (LeastSquares α) α) : Prop extends Anchored s where
  flagged : ∀ {o} {a : Nat}, s.Owns o a → s.solver.fixed? a = some o.fixed
  settled : ∀ {a : Nat}, (∀ o, ¬ s.Owns o a) → s.solver.fixed? a = some false →
    a ∈ s.solver.measured
  datums : ∀ {e} {a : Nat}, e ∈ s.solver.entries → a ∈ e.datums →
    a < s.solver.size ∧ ∀ o, ¬ s.Owns o a
  named : ∀ {n} {a : Nat}, s.allocator.names.find? n = some a →
    s.solver.fixed? a = some true ∧ ∀ o, ¬ s.Owns o a

/-- What one operation can do to the scalars of a session, short of applying a solution or
clearing everything. -/
inductive Step (s t : Session (LeastSquares α) α) : Prop where
  /-- Scalars that belong to no geometry come in, fixed or measured into. -/
  | append (geometries : t.index.geometryAt? = s.index.geometryAt?)
      (blocks : t.allocator.blocks = s.allocator.blocks)
      (names : ∀ {n} {a : Nat}, t.allocator.names.find? n = some a →
        s.allocator.names.find? n = some a ∨
          s.solver.size ≤ a ∧ t.solver.fixed? a = some true)
      (solver : s.solver.Annexed t.solver)
  /-- A geometry comes in with its block. -/
  | place {g : Geometry α} (fresh : s.index.geometryAt? g.id = none)
      (points : ∀ p ∈ g.points, s.allocator.has p)
      (geometries : t.index.geometryAt? = Function.update s.index.geometryAt? g.id (some g))
      (blocks : ∀ id, t.allocator.blocks.find? id =
        if id = g.id ∧ 0 < g.geometryClass.ownCount then some s.solver.size
        else s.allocator.blocks.find? id)
      (names : t.allocator.names = s.allocator.names)
      (grown : s.solver.Grown (g.shape.scalars.map fun v => ⟨v, g.shape.fixed⟩) [] t.solver)
  | forget (tag : Int) (geometries : t.index.geometryAt? = s.index.geometryAt?)
      (allocator : t.allocator = s.allocator) (solver : t.solver = s.solver.clearTag tag)
  | assign {n : String} {a : Nat} {v : α}
      (geometries : t.index.geometryAt? = s.index.geometryAt?)
      (allocator : t.allocator = s.allocator) (bound : s.allocator.names.find? n = some a)
      (cells : t.solver.cells = s.solver.cells.setIfInBounds a ⟨v, true⟩)
      (entries : t.solver.entries = s.solver.entries)
  | keep (geometries : t.index.geometryAt? = s.index.geometryAt?)
      (allocator : t.allocator = s.allocator) (cells : t.solver.cells = s.solver.cells)
      (entries : t.solver.entries = s.solver.entries)

/-- New values for what is there. -/
structure Applied (s t : Session (LeastSquares α) α) : Prop where
  outlines : t.index.outline? = s.index.outline?
  allocator : t.allocator = s.allocator
  fixed : t.solver.fixed? = s.solver.fixed?
  entries : t.solver.entries = s.solver.entries

variable {s t : Session (LeastSquares α) α} {o : Outline} {a : Nat}

theorem Owns.lt (h : Anchored s) (ho : s.Owns o a) : a < s.solver.size := by
  obtain ⟨hindexed, base, hbase, -, hlt⟩ := ho
  obtain ⟨o', ho', -, hsize⟩ := h.held hbase
  obtain rfl : o = o' := Option.some.inj (hindexed.symm.trans ho')
  omega

theorem Anchored.key (h : Anchored s) {id : Oid} {g : Geometry α}
    (hg : s.index.get? id = some (.geometry g)) : g.id = id :=
  h.keyed (Index.outline?_of_get? hg)

/-- A geometry owns the scalars of its block. -/
theorem Anchored.owns_offset (h : Anchored s) {id : Oid} {g : Geometry α} {base i : Nat}
    (hg : s.index.get? id = some (.geometry g)) (hbase : s.allocator.blocks.find? id = some base)
    (hi : i < g.geometryClass.ownCount) : s.Owns g.outline (base + i) := by
  have hkey : g.outline.id = id := h.key hg
  refine ⟨?_, base, by rw [hkey, hbase], Nat.le_add_right _ _, Nat.add_lt_add_left hi base⟩
  rw [hkey]
  exact Index.outline?_of_get? hg

theorem owns_congr (hg : t.index.outline? = s.index.outline?)
    (hb : t.allocator.blocks = s.allocator.blocks) : t.Owns o a ↔ s.Owns o a := by
  rw [Owns, Owns, hg, hb]

theorem outline?_congr (hg : t.index.geometryAt? = s.index.geometryAt?) :
    t.index.outline? = s.index.outline? := by
  funext id
  rw [Index.outline?, Index.outline?, hg]

theorem Anchored.same (h : Anchored s) (hg : t.index.outline? = s.index.outline?)
    (hb : t.allocator.blocks = s.allocator.blocks) (hsize : s.solver.size ≤ t.solver.size) :
    Anchored t := by
  have hhas : t.allocator.has = s.allocator.has := by
    funext id
    rw [Allocator.has, Allocator.has, hb]
  refine ⟨?_, ?_, ?_, ?_⟩
  · rw [hg]
    exact h.keyed
  · rw [hg, hb]
    intro id base hbase
    obtain ⟨o, ho, hpos, hle⟩ := h.held hbase
    exact ⟨o, ho, hpos, by omega⟩
  · rw [hg, hhas]
    exact h.allocated
  · rw [hg, hhas]
    exact h.grounded

theorem Applied.size (ht : Applied s t) : t.solver.size = s.solver.size := by
  -- the addresses that have a status are those below the size
  have hiff : ∀ a, a < t.solver.size ↔ a < s.solver.size := by
    intro a
    rw [← LeastSquares.fixed?_isSome, ht.fixed, LeastSquares.fixed?_isSome]
  exact Nat.le_antisymm (Nat.not_lt.1 fun hlt => Nat.lt_irrefl _ ((hiff _).1 hlt))
    (Nat.not_lt.1 fun hlt => Nat.lt_irrefl _ ((hiff _).2 hlt))

namespace Sound

theorem applied (h : Sound s) (ht : Applied s t) : Sound t := by
  have howns : ∀ o a, t.Owns o a ↔ s.Owns o a := fun o a =>
    owns_congr ht.outlines (by rw [ht.allocator])
  have hmeasured : ∀ a, a ∈ t.solver.measured ↔ a ∈ s.solver.measured := fun a => by
    rw [LeastSquares.mem_measured, LeastSquares.mem_measured, ht.entries]
  refine ⟨h.toAnchored.same ht.outlines (by rw [ht.allocator]) (Nat.le_of_eq ht.size.symm),
    ?_, ?_, ?_, ?_⟩
  · intro o a ho
    rw [ht.fixed]
    exact h.flagged ((howns o a).1 ho)
  · intro a ho hfixed
    rw [ht.fixed] at hfixed
    rw [hmeasured]
    exact h.settled (fun o hs => ho o ((howns o a).2 hs)) hfixed
  · intro e a he ha
    rw [ht.entries] at he
    obtain ⟨hlt, hno⟩ := h.datums he ha
    exact ⟨by rw [ht.size]; exact hlt, fun o ho => hno o ((howns o a).1 ho)⟩
  · intro n a hn
    rw [ht.allocator] at hn
    obtain ⟨hfixed, hno⟩ := h.named hn
    exact ⟨by rw [ht.fixed]; exact hfixed, fun o ho => hno o ((howns o a).1 ho)⟩

theorem of_append (h : Sound s) (geometries : t.index.geometryAt? = s.index.geometryAt?)
    (blocks : t.allocator.blocks = s.allocator.blocks)
    (names : ∀ {n} {a : Nat}, t.allocator.names.find? n = some a →
      s.allocator.names.find? n = some a ∨ s.solver.size ≤ a ∧ t.solver.fixed? a = some true)
    (solver : s.solver.Annexed t.solver) : Sound t := by
  obtain ⟨⟨cells, entries, grown, datums⟩, settled⟩ := solver
  have hsize : s.solver.size ≤ t.solver.size := by
    rw [grown.size]
    omega
  have howns : ∀ o a, t.Owns o a ↔ s.Owns o a := fun o a =>
    owns_congr (outline?_congr geometries) blocks
  have hnew : ∀ o {a : Nat}, s.solver.size ≤ a → ¬ t.Owns o a := by
    intro o a ha ho
    have := ((howns o a).1 ho).lt h.toAnchored
    omega
  refine ⟨h.toAnchored.same (outline?_congr geometries) blocks hsize, ?_, ?_, ?_, ?_⟩
  · intro o a ho
    rw [howns] at ho
    rw [grown.fixed?_old (ho.lt h.toAnchored)]
    exact h.flagged ho
  · intro a hno hfixed
    by_cases ha : a < s.solver.size
    · -- measured into before, and no constraint has gone
      rw [grown.fixed?_old ha] at hfixed
      exact grown.measured.2 (.inl (h.settled (fun o ho => hno o ((howns o a).2 ho)) hfixed))
    · exact settled (Nat.not_lt.1 ha) hfixed
  · intro e a he ha
    rw [grown.entries] at he
    rcases List.mem_append.1 he with he | he
    · obtain ⟨hlt, hno⟩ := h.datums he ha
      exact ⟨by omega, fun o ho => hno o ((howns o a).1 ho)⟩
    · obtain ⟨hge, hlt⟩ := datums he ha
      exact ⟨hlt, fun o => hnew o hge⟩
  · intro n a hn
    rcases names hn with hn | ⟨hge, hfixed⟩
    · obtain ⟨hfixed, hno⟩ := h.named hn
      have ha : a < s.solver.size := LeastSquares.fixed?_isSome.1 (by rw [hfixed]; rfl)
      exact ⟨by rw [grown.fixed?_old ha]; exact hfixed, fun o ho => hno o ((howns o a).1 ho)⟩
    · exact ⟨hfixed, fun o => hnew o hge⟩

theorem of_forget {tag : Int} (h : Sound s) (geometries : t.index.geometryAt? = s.index.geometryAt?)
    (allocator : t.allocator = s.allocator) (solver : t.solver = s.solver.clearTag tag) :
    Sound t := by
  have hblocks : t.allocator.blocks = s.allocator.blocks := by rw [allocator]
  have hsize : t.solver.size = s.solver.size := by rw [solver, LeastSquares.size_clearTag]
  have howns : ∀ o a, t.Owns o a ↔ s.Owns o a := fun o a =>
    owns_congr (outline?_congr geometries) hblocks
  refine ⟨h.toAnchored.same (outline?_congr geometries) hblocks (Nat.le_of_eq hsize.symm),
    ?_, ?_, ?_, ?_⟩
  · intro o a ho
    rw [howns] at ho
    rw [solver, LeastSquares.fixed?_clearTag_of_not_mem fun e he ha => (h.datums he ha).2 o ho]
    exact h.flagged ho
  · intro a hno hfixed
    rw [solver] at hfixed
    -- had the constraint that measures into it gone, the scalar would be fixed
    obtain ⟨hfixed, hgone⟩ := LeastSquares.fixed?_clearTag_eq_false hfixed
    obtain ⟨e, he, hdriving, ha⟩ :=
      LeastSquares.mem_measured.1 (h.settled (fun o ho => hno o ((howns o a).2 ho)) hfixed)
    rw [solver, LeastSquares.mem_measured]
    refine ⟨e, LeastSquares.mem_entries_clearTag.2 ⟨he, ?_⟩, hdriving, ha⟩
    exact fun htag => hgone e he htag ha
  · intro e a he ha
    rw [solver, LeastSquares.mem_entries_clearTag] at he
    obtain ⟨hlt, hno⟩ := h.datums he.1 ha
    exact ⟨by omega, fun o ho => hno o ((howns o a).1 ho)⟩
  · intro n a hn
    rw [allocator] at hn
    obtain ⟨hfixed, hno⟩ := h.named hn
    refine ⟨?_, fun o ho => hno o ((howns o a).1 ho)⟩
    rw [solver]
    exact LeastSquares.fixed?_clearTag_eq_true hfixed

/-- An assignment to a name leaves the scalar fixed, as it was. -/
theorem of_assign {n : String} {a : Nat} {v : α} (h : Sound s)
    (geometries : t.index.geometryAt? = s.index.geometryAt?)
    (allocator : t.allocator = s.allocator) (bound : s.allocator.names.find? n = some a)
    (cells : t.solver.cells = s.solver.cells.setIfInBounds a ⟨v, true⟩)
    (entries : t.solver.entries = s.solver.entries) : Sound t := by
  refine h.applied ⟨outline?_congr geometries, allocator, ?_, entries⟩
  funext b
  obtain ⟨c, hc, hfixed⟩ := Option.map_eq_some_iff.1 (h.named bound).1
  rw [LeastSquares.fixed?, cells, Array.getElem?_setIfInBounds, LeastSquares.fixed?]
  by_cases hb : a = b
  · subst hb
    have ha := (Array.getElem?_eq_some_iff.1 hc).1
    rw [if_pos rfl, if_pos ha, hc, Option.map_some, Option.map_some, hfixed]
  · rw [if_neg hb]

theorem of_keep (h : Sound s) (geometries : t.index.geometryAt? = s.index.geometryAt?)
    (allocator : t.allocator = s.allocator) (cells : t.solver.cells = s.solver.cells)
    (entries : t.solver.entries = s.solver.entries) : Sound t := by
  refine h.applied ⟨outline?_congr geometries, allocator, ?_, entries⟩
  funext a
  rw [LeastSquares.fixed?, cells, LeastSquares.fixed?]

end Sound

/-! ### A new geometry -/

section

variable {g : Geometry α} (fresh : s.index.geometryAt? g.id = none)
  (geometries : t.index.geometryAt? = Function.update s.index.geometryAt? g.id (some g))
  (blocks : ∀ id, t.allocator.blocks.find? id =
    if id = g.id ∧ 0 < g.geometryClass.ownCount then some s.solver.size
    else s.allocator.blocks.find? id)

include geometries in
theorem outline?_place (id : Oid) :
    t.index.outline? id = if id = g.id then some g.outline else s.index.outline? id := by
  rw [Index.outline?, geometries, Function.update_apply]
  by_cases hid : id = g.id
  · simp [hid]
  · simp [hid, Index.outline?]

include fresh geometries in
theorem outline?_place_old {id : Oid} (ho : s.index.outline? id = some o) :
    t.index.outline? id = some o ∧ id ≠ g.id := by
  have hid : id ≠ g.id := by
    rintro rfl
    simp [Index.outline?, fresh] at ho
  exact ⟨by rw [outline?_place geometries, if_neg hid, ho], hid⟩

include fresh geometries blocks in
theorem owns_place :
    t.Owns o a ↔ s.Owns o a ∨
      o = g.outline ∧ s.solver.size ≤ a ∧ a < s.solver.size + g.geometryClass.ownCount := by
  constructor
  · rintro ⟨ho, base, hbase, hle, hlt⟩
    rw [outline?_place geometries] at ho
    rw [blocks] at hbase
    by_cases hid : o.id = g.id
    · rw [if_pos hid, Option.some.injEq] at ho
      subst ho
      have hpos : 0 < g.geometryClass.ownCount := by
        change a < base + g.geometryClass.ownCount at hlt
        omega
      rw [if_pos ⟨rfl, hpos⟩, Option.some.injEq] at hbase
      subst hbase
      exact .inr ⟨rfl, hle, hlt⟩
    · rw [if_neg hid] at ho
      rw [if_neg fun h => hid h.1] at hbase
      exact .inl ⟨ho, base, hbase, hle, hlt⟩
  · rintro (⟨ho, base, hbase, hle, hlt⟩ | ⟨rfl, hle, hlt⟩)
    · obtain ⟨ho, hid⟩ := outline?_place_old fresh geometries ho
      refine ⟨ho, base, ?_, hle, hlt⟩
      rw [blocks, if_neg fun h => hid h.1, hbase]
    · have hpos : 0 < g.geometryClass.ownCount := by omega
      refine ⟨?_, s.solver.size, ?_, hle, hlt⟩
      · rw [outline?_place geometries]
        exact if_pos rfl
      · rw [blocks]
        exact if_pos ⟨rfl, hpos⟩

include fresh geometries blocks in
theorem Anchored.place (h : Anchored s) (points : ∀ p ∈ g.points, s.allocator.has p)
    (hsize : t.solver.size = s.solver.size + g.geometryClass.ownCount) : Anchored t := by
  have hhas : ∀ id, s.allocator.has id → t.allocator.has id := by
    intro id hid
    obtain ⟨base, hbase⟩ := Allocator.has_iff.1 hid
    rw [Allocator.has_iff, blocks]
    split
    · exact ⟨_, rfl⟩
    · exact ⟨base, hbase⟩
  refine ⟨?_, ?_, ?_, ?_⟩
  · intro id o ho
    rw [outline?_place geometries] at ho
    by_cases hid : id = g.id
    · rw [if_pos hid, Option.some.injEq] at ho
      rw [← ho, hid]
      rfl
    · rw [if_neg hid] at ho
      exact h.keyed ho
  · intro id base hbase
    rw [blocks] at hbase
    by_cases hid : id = g.id ∧ 0 < g.geometryClass.ownCount
    · rw [if_pos hid, Option.some.injEq] at hbase
      subst hbase
      refine ⟨g.outline, ?_, hid.2, Nat.le_of_eq hsize.symm⟩
      rw [outline?_place geometries, if_pos hid.1]
    · rw [if_neg hid] at hbase
      obtain ⟨o, ho, hpos, hle⟩ := h.held hbase
      exact ⟨o, (outline?_place_old fresh geometries ho).1, hpos, by omega⟩
  · intro id o ho hpos
    rw [outline?_place geometries] at ho
    by_cases hid : id = g.id
    · rw [if_pos hid, Option.some.injEq] at ho
      subst ho
      rw [Allocator.has_iff, blocks, if_pos ⟨hid, hpos⟩]
      exact ⟨_, rfl⟩
    · rw [if_neg hid] at ho
      exact hhas id (h.allocated ho hpos)
  · intro id o p ho hp
    rw [outline?_place geometries] at ho
    by_cases hid : id = g.id
    · rw [if_pos hid, Option.some.injEq] at ho
      subst ho
      exact hhas p (points p hp)
    · rw [if_neg hid] at ho
      exact hhas p (h.grounded ho hp)

include fresh geometries blocks in
theorem Sound.of_place (h : Sound s) (points : ∀ p ∈ g.points, s.allocator.has p)
    (names : t.allocator.names = s.allocator.names)
    (grown : s.solver.Grown (g.shape.scalars.map fun v => ⟨v, g.shape.fixed⟩) [] t.solver) :
    Sound t := by
  have hsize : t.solver.size = s.solver.size + g.geometryClass.ownCount := by
    rw [grown.size, List.length_map, Shape.scalars_length]
    rfl
  have howns : ∀ o a, t.Owns o a ↔ s.Owns o a ∨
      o = g.outline ∧ s.solver.size ≤ a ∧ a < s.solver.size + g.geometryClass.ownCount :=
    fun o a => owns_place fresh geometries blocks
  have hold : ∀ {a : Nat}, a < s.solver.size → (∀ o, ¬ s.Owns o a) → ∀ o, ¬ t.Owns o a := by
    intro a ha hno o ho
    rcases (howns o a).1 ho with ho | ⟨-, hge, -⟩
    · exact hno o ho
    · omega
  refine ⟨h.toAnchored.place fresh geometries blocks points hsize, ?_, ?_, ?_, ?_⟩
  · intro o a ho
    rcases (howns o a).1 ho with ho | ⟨rfl, hge, hlt⟩
    · rw [grown.fixed?_old (ho.lt h.toAnchored)]
      exact h.flagged ho
    · exact grown.fixed?_new (f := id) hge (by omega)
  · intro a hno hfixed
    have ha : a < t.solver.size := LeastSquares.fixed?_isSome.1 (by rw [hfixed]; rfl)
    by_cases hlt : a < s.solver.size
    · rw [grown.fixed?_old hlt] at hfixed
      exact grown.measured.2
        (.inl (h.settled (fun o ho => hno o ((howns o a).2 (.inl ho))) hfixed))
    · -- a new scalar belongs to the new geometry
      exact absurd ((howns g.outline a).2 (.inr ⟨rfl, by omega, by omega⟩)) (hno _)
  · intro e a he ha
    rw [grown.entries, List.append_nil] at he
    obtain ⟨hlt, hno⟩ := h.datums he ha
    exact ⟨by omega, hold hlt hno⟩
  · intro n a hn
    rw [names] at hn
    obtain ⟨hfixed, hno⟩ := h.named hn
    have ha : a < s.solver.size := LeastSquares.fixed?_isSome.1 (by rw [hfixed]; rfl)
    exact ⟨by rw [grown.fixed?_old ha]; exact hfixed, hold ha hno⟩

end

theorem Sound.step (h : Sound s) (ht : Step s t) : Sound t := by
  cases ht with
  | append geometries blocks names solver => exact h.of_append geometries blocks names solver
  | place fresh points geometries blocks names grown =>
      exact h.of_place fresh geometries blocks points names grown
  | forget tag geometries allocator solver => exact h.of_forget geometries allocator solver
  | assign geometries allocator bound cells entries =>
      exact h.of_assign geometries allocator bound cells entries
  | keep geometries allocator cells entries => exact h.of_keep geometries allocator cells entries

theorem Sound.steps (h : Sound s) (ht : Relation.ReflTransGen Step s t) : Sound t := by
  induction ht with
  | refl => exact h
  | tail _ hstep ih => exact ih.step hstep

theorem Sound.of_empty (hindex : s.index.outline? = fun _ => none)
    (hblocks : s.allocator.blocks.find? = fun _ => none)
    (hnames : s.allocator.names.find? = fun _ => none) (hcells : s.solver.cells = #[])
    (hentries : s.solver.entries = []) : Sound s := by
  have howns : ∀ o a, ¬ s.Owns o a := by
    rintro o a ⟨ho, -⟩
    simp [hindex] at ho
  have hfixed : ∀ a, s.solver.fixed? a = none := by
    intro a
    simp [LeastSquares.fixed?, hcells]
  refine ⟨⟨?_, ?_, ?_, ?_⟩, ?_, ?_, ?_, ?_⟩
  · simp [hindex]
  · simp [hblocks]
  · simp [hindex]
  · simp [hindex]
  · exact fun ho => (howns _ _ ho).elim
  · simp [hfixed]
  · simp [hentries]
  · simp [hnames]

/-! ### The unknowns of a solve -/

theorem Sound.mem_unknowns (h : Sound s) :
    a ∈ s.solver.unknowns ↔ ∃ o, s.Owns o a ∧ o.fixed = false := by
  rw [LeastSquares.mem_unknowns]
  constructor
  · rintro ⟨hfixed, hmeasured⟩
    by_cases hown : ∃ o, s.Owns o a
    · obtain ⟨o, ho⟩ := hown
      exact ⟨o, ho, Option.some.inj ((h.flagged ho).symm.trans hfixed)⟩
    · exact absurd (h.settled (fun o ho => hown ⟨o, ho⟩) hfixed) hmeasured
  · rintro ⟨o, ho, hfixed⟩
    refine ⟨by rw [h.flagged ho, hfixed], fun hmeasured => ?_⟩
    obtain ⟨e, he, -, ha⟩ := LeastSquares.mem_measured.1 hmeasured
    exact (h.datums he ha).2 o ho

end Session

end PlanarSketch
