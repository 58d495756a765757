import PlanarSketch.Proofs.Session.Points
import PlanarSketch.Proofs.Tables

/-!
What a session brings back from its solver when a solution is applied. Each primitive is replaced
in its place by one that depends on the solver and on what stays the same about the primitive, not
on the values it had. So a second read-back of the same scalars finds nothing to change. It cannot
fail as long as the scalars of blocks and outputs exist.
-/

namespace PlanarSketch

open LeastSquares

variable {α : Type}

namespace Shape

variable {π : Type}

/-- The shape with new scalars, each from its property and its place among the shape's own. -/
def refill (s : Shape π α) (own : Property × Nat → α) : Shape π α :=
  s.geometryClass.ownProperties.zipIdx.foldl (fun t e => t.set e.1 (own e)) s

@[simp] theorem refill_refill (s : Shape π α) (own own' : Property × Nat → α) :
    (s.refill own).refill own' = s.refill own' := by
  cases s <;> rfl

@[simp] theorem class_refill (s : Shape π α) (own : Property × Nat → α) :
    (s.refill own).geometryClass = s.geometryClass := by
  cases s <;> rfl

@[simp] theorem points_refill (s : Shape π α) (own : Property × Nat → α) :
    (s.refill own).points = s.points := by
  cases s <;> rfl

@[simp] theorem fixed_refill (s : Shape π α) (own : Property × Nat → α) :
    (s.refill own).fixed = s.fixed := by
  cases s <;> rfl

end Shape

/-- A primitive that a read-back may make of another: a geometry with other scalars, or a
constraint with other parameters. -/
inductive Primitive.Reread : Primitive α → Primitive α → Prop where
  | geometry {g g' : Geometry α} (h : g'.outline = g.outline) :
      Reread (.geometry g) (.geometry g')
  | constraint (c : Constraint α) (params : NameMap (ParamValue α)) :
      Reread (.constraint c) (.constraint { c with params := params })

theorem Primitive.Reread.refl (p : Primitive α) : Reread p p := by
  cases p with
  | geometry g => exact .geometry rfl
  | constraint c => exact .constraint c c.params

theorem Primitive.Reread.trans {p q r : Primitive α} (h : Reread p q) (h' : Reread q r) : Reread p r := by
  cases h with
  | geometry h =>
      cases h' with
      | geometry h' => exact .geometry (h'.trans h)
  | constraint c params =>
      cases h' with
      | constraint _ params' => exact .constraint c params'

theorem Primitive.Reread.id_eq {p q : Primitive α} (h : Reread p q) : q.id = p.id := by
  cases h with
  | geometry h => exact congrArg Outline.id h
  | constraint c params => rfl

theorem Index.entries_put {x : Index α} {id : Oid}
    {before after : List (Oid × Primitive α)} {q : Primitive α}
    (p : Primitive α) (h : x.items.entries = before ++ (id, q) :: after) :
    (x.put id p).items.entries = before ++ (id, p) :: after ∧ (x.put id p).counter = x.counter := by
  have hmem : (id, q) ∈ x.items.entries := by
    rw [h]
    exact List.mem_append_right _ List.mem_cons_self
  have hhas : x.has id := Index.has_iff.2 ⟨q, Table.find?_of_mem hmem⟩
  rw [Index.put, if_pos hhas]
  exact ⟨Table.entries_insert_old p h, rfl⟩

namespace Session

variable {s t : Session (LeastSquares α) α}

/-- The scalars that primitives are read back from exist. -/
structure Readable (s : Session (LeastSquares α) α) : Prop where
  blocks : ∀ {id g} {base : Nat}, s.index.get? id = some (.geometry g) →
    s.allocator.blocks.find? g.id = some base → base + g.geometryClass.ownCount ≤ s.solver.size
  outputs : ∀ {id os}, s.measured.find? id = some os →
    (os.map Prod.fst).Nodup ∧ ∀ o ∈ os, o.2 < s.solver.size

/-- The session with the pending solution written, and not read back. -/
def written (s : Session (LeastSquares α) α) : Session (LeastSquares α) α :=
  { s with solver := s.solver.applySolution }

theorem Readable.written (h : Readable s) : Readable s.written := by
  have hsize := s.solver.size_applySolution
  exact ⟨fun hg hbase => hsize ▸ h.blocks hg hbase, fun hos => hsize ▸ h.outputs hos⟩

theorem Readable.recorded (h : Readable s) (id : Oid) :
    (((s.measured.find? id).getD []).map Prod.fst).Nodup ∧
      ∀ o ∈ (s.measured.find? id).getD [], o.2 < s.solver.size := by
  cases hos : s.measured.find? id with
  | none => exact ⟨List.nodup_nil, fun o ho => nomatch ho⟩
  | some os => exact h.outputs hos

end Session

variable [Scalar α]

namespace Layout

/-- What a property at a place in a block is read back as. -/
def reading (s : LeastSquares α) (base : Address) (e : Property × Nat) : α :=
  let v := System.read s.values (base + e.2)
  if e.1.isAngle then Angle.normalize v else v

/-- What a value is read back as, by its property. -/
def settle (p : Property) (v : α) : α := if p.isAngle then Angle.normalize v else v

section

variable {σ : Type} [Solver σ α] {s : σ} {base : Nat} {own : Property × Nat → α}

theorem pullFrom_of_values {ps : List (Property × Nat)} (g : Geometry α)
    (h : ∀ e ∈ ps, Solver.value s (base + e.2) = .ok (own e)) :
    pullFrom s base ps g = (.ok (), { g with
      shape := ps.foldl (fun t e => t.set e.1 (settle e.1 (own e))) g.shape }) := by
  induction ps generalizing g with
  | nil => rfl
  | cons e ps ih =>
      rw [pullFrom, h e List.mem_cons_self]
      exact ih _ fun e' he' => h e' (List.mem_cons_of_mem e he')

/-- A geometry with a block gets its scalars from there, whatever they were. -/
theorem pull_of_values {al : Allocator} {g : Geometry α}
    (hbase : al.blocks.find? g.id = some base)
    (h : ∀ e ∈ g.geometryClass.ownProperties.zipIdx, Solver.value s (base + e.2) = .ok (own e)) :
    pull s al g = (.ok (), { g with shape := g.shape.refill fun e => settle e.1 (own e) }) := by
  rw [pull, hbase]
  exact pullFrom_of_values g h

end

variable [Decompositions α]

theorem value_of_lt {s : LeastSquares α} {a : Nat} (h : a < s.size) :
    Solver.value s a = .ok (System.read s.values a) := by
  have hcell : s.cells[a]? = some s.cells[a] := Array.getElem?_eq_getElem h
  change s.value a = _
  rw [LeastSquares.value, hcell, System.read, LeastSquares.values, Array.getD_eq_getD_getElem?,
    Array.getElem?_map, hcell]
  rfl

theorem pull_eq {s : LeastSquares α} {al : Allocator} {g : Geometry α} {base : Nat}
    (hbase : al.blocks.find? g.id = some base)
    (hlt : base + g.geometryClass.ownCount ≤ s.size) :
    pull s al g = (.ok (), { g with shape := g.shape.refill (reading s base) }) := by
  refine pull_of_values hbase fun e he => value_of_lt ?_
  have hplace : e.2 < g.geometryClass.ownCount := List.snd_lt_of_mem_zipIdx he
  omega

end Layout

/-- The parameters of a constraint with what it measures. -/
def remeasure (s : LeastSquares α) (outputs : Outputs) (params : NameMap (ParamValue α)) :
    NameMap (ParamValue α) :=
  outputs.foldl (fun m o => m.insert o.1 (.number (System.read s.values o.2))) params

theorem find?_remeasure_of_not_mem {s : LeastSquares α} {outputs : Outputs}
    (params : NameMap (ParamValue α)) {name : String} (h : name ∉ outputs.map Prod.fst) :
    (remeasure s outputs params).find? name = params.find? name := by
  induction outputs generalizing params with
  | nil => rfl
  | cons o outputs ih =>
      rw [List.map_cons, List.mem_cons, not_or] at h
      refine (ih (params.insert o.1 _) h.2).trans ?_
      rw [NameMap.find?_insert, if_neg h.1]

theorem find?_remeasure {s : LeastSquares α} {outputs : Outputs}
    (params : NameMap (ParamValue α)) (hnodup : (outputs.map Prod.fst).Nodup)
    {o : String × Address} (ho : o ∈ outputs) :
    (remeasure s outputs params).find? o.1 = some (.number (System.read s.values o.2)) := by
  induction outputs generalizing params with
  | nil => cases ho
  | cons o' outputs ih =>
      rw [List.map_cons, List.nodup_cons] at hnodup
      rcases List.mem_cons.1 ho with rfl | hmem
      · refine (find?_remeasure_of_not_mem _ hnodup.1).trans ?_
        rw [NameMap.find?_insert, if_pos rfl]
      · exact ih _ hnodup.2 hmem

theorem remeasure_eq_self {s : LeastSquares α} {outputs : Outputs}
    {params : NameMap (ParamValue α)}
    (h : ∀ o ∈ outputs, params.find? o.1 = some (.number (System.read s.values o.2))) :
    remeasure s outputs params = params := by
  induction outputs with
  | nil => rfl
  | cons o outputs ih =>
      rw [remeasure, List.foldl_cons, NameMap.insert_eq_self (h o List.mem_cons_self)]
      exact ih fun o' ho' => h o' (List.mem_cons_of_mem o ho')

namespace Session

/-- A primitive as it is read back from the solver. -/
def reread (s : Session (LeastSquares α) α) (id : Oid) : Primitive α → Primitive α
  | .geometry g =>
      match s.allocator.blocks.find? g.id with
      | none => .geometry g
      | some base => .geometry { g with shape := g.shape.refill (Layout.reading s.solver base) }
  | .constraint c => .constraint { c with
      params := remeasure s.solver ((s.measured.find? id).getD []) c.params }

/-- The session with its primitives read back. -/
def readBack (s : Session (LeastSquares α) α) : Session (LeastSquares α) α :=
  { s with index := ⟨s.index.items.mapValues s.reread, s.index.counter⟩ }

variable {s t : Session (LeastSquares α) α} {id : Oid} {p : Primitive α}

theorem rereads (s : Session (LeastSquares α) α) (id : Oid) (p : Primitive α) :
    p.Reread (s.reread id p) := by
  cases p with
  | geometry g =>
      rw [reread]
      cases s.allocator.blocks.find? g.id with
      | none => exact .refl _
      | some base =>
          refine .geometry ?_
          simp [Geometry.outline, Geometry.geometryClass, Geometry.points]
  | constraint c => exact .constraint c _

theorem reread_again (h : Readable s) (id : Oid) (p : Primitive α) :
    s.reread id (s.reread id p) = s.reread id p := by
  cases p with
  | geometry g =>
      cases hbase : s.allocator.blocks.find? g.id with
      | none => simp only [reread, hbase]
      | some base => simp only [reread, hbase, Shape.refill_refill]
  | constraint c =>
      simp only [reread]
      rw [remeasure_eq_self fun o ho => find?_remeasure _ (h.recorded id).1 ho]

/-- What a geometry is read back as depends on the scalars of its block. -/
theorem reread_geometry_congr {g : Geometry α} (hal : t.allocator = s.allocator)
    (hread : ∀ {base i : Nat}, s.allocator.blocks.find? g.id = some base →
      i < g.geometryClass.ownCount →
      System.read t.solver.values (base + i) = System.read s.solver.values (base + i)) :
    t.reread id (.geometry g) = s.reread id (.geometry g) := by
  rw [reread, reread, hal]
  cases hbase : s.allocator.blocks.find? g.id with
  | none => rfl
  | some base =>
      have hreading : ∀ e ∈ g.geometryClass.ownProperties.zipIdx,
          Layout.reading t.solver base e = Layout.reading s.solver base e := by
        intro e he
        rw [Layout.reading, hread hbase (List.snd_lt_of_mem_zipIdx he), Layout.reading]
      have hfill : g.shape.refill (Layout.reading t.solver base) =
          g.shape.refill (Layout.reading s.solver base) :=
        List.foldl_ext _ _ _ fun shape e he => by rw [hreading e he]
      simp only [hfill]

/-- What is read back depends on the scalars that are there, not on how many follow. -/
theorem Readable.reread_congr (h : Readable s) (hp : s.index.get? id = some p)
    (hal : t.allocator = s.allocator) (hm : t.measured = s.measured)
    (hread : ∀ a, a < s.solver.size →
      System.read t.solver.values a = System.read s.solver.values a) :
    t.reread id p = s.reread id p := by
  cases p with
  | geometry g =>
      refine reread_geometry_congr hal fun {base i} hbase hi => hread _ ?_
      have hlt := h.blocks hp hbase
      omega
  | constraint c =>
      have hfold : remeasure t.solver ((s.measured.find? id).getD []) c.params =
          remeasure s.solver ((s.measured.find? id).getD []) c.params :=
        List.foldl_ext _ _ _ fun m o ho => by rw [hread o.2 ((h.recorded id).2 o ho)]
      rw [reread, reread, hm, hfold]

/-- The primitives are what would be read back. -/
def Synced (s : Session (LeastSquares α) α) : Prop :=
  ∀ id p, s.index.get? id = some p → s.reread id p = p

theorem get?_readBack (s : Session (LeastSquares α) α) (id : Oid) :
    s.readBack.index.get? id = (s.index.get? id).map (s.reread id) :=
  Table.find?_mapValues s.reread s.index.items id

theorem synced_readBack (h : Readable s) : Synced s.readBack := by
  intro id p hp
  rw [get?_readBack] at hp
  obtain ⟨q, -, rfl⟩ := Option.map_eq_some_iff.1 hp
  exact reread_again h id q

theorem Synced.readBack_eq (h : Synced s) : s.readBack = s := by
  rw [readBack, Table.mapValues_eq_self fun e he => h e.1 e.2 (Table.find?_of_mem he)]

/-- Solver and sketch after a solution has been written and read back. -/
def applied (s : Session (LeastSquares α) α) : Session (LeastSquares α) α := s.written.readBack

theorem Readable.synced_applied (h : Readable s) : Synced s.applied := synced_readBack h.written

theorem Synced.applied_eq (h : Synced s) (hpending : s.solver.pending = none) :
    s.applied = s := by
  rw [applied, written, applySolution_of_none hpending]
  exact h.readBack_eq

variable [Decompositions α]

theorem pullOutputs_eq {solver : LeastSquares α} {outputs : Outputs} (c : Constraint α)
    (h : ∀ o ∈ outputs, o.2 < solver.size) :
    pullOutputs solver outputs c =
      (.ok (), { c with params := remeasure solver outputs c.params }) := by
  induction outputs generalizing c with
  | nil => rfl
  | cons o outputs ih =>
      rw [pullOutputs, Layout.value_of_lt (h o List.mem_cons_self)]
      exact ih _ fun o' ho' => h o' (List.mem_cons_of_mem o ho')

theorem Readable.pullPrimitive_eq (h : Readable s) (hp : s.index.get? id = some p) :
    s.pullPrimitive id p = (.ok (), s.reread id p) := by
  cases p with
  | geometry g =>
      rw [pullPrimitive, reread]
      cases hbase : s.allocator.blocks.find? g.id with
      | none => simp only [Layout.pull, hbase]
      | some base => rw [Layout.pull_eq hbase (h.blocks hp hbase)]
  | constraint c =>
      rw [pullPrimitive, pullOutputs_eq c (h.recorded id).2, reread]

/-- Ids are brought up to date one after another, and the primitives before stay as they are. -/
theorem pullAll_append {before after : List (Oid × Primitive α)} {x : Index α}
    (hx : x.items.entries = before ++ after)
    (h : ∀ e ∈ after, s.pullPrimitive e.1 e.2 = (.ok (), s.reread e.1 e.2)) :
    ∃ y, pullAll (after.map Prod.fst) { s with index := x } = (.ok (), { s with index := y }) ∧
      y.items.entries = before ++ after.map (fun e => (e.1, s.reread e.1 e.2)) ∧
      y.counter = x.counter := by
  induction after generalizing before x with
  | nil => exact ⟨x, rfl, hx, rfl⟩
  | cons e after ih =>
      obtain ⟨id, p⟩ := e
      have hget : x.get? id = some p := by
        refine Table.find?_of_mem ?_
        rw [hx]
        exact List.mem_append_right _ List.mem_cons_self
      have hpull : ({ s with index := x } : Session (LeastSquares α) α).pullPrimitive id p =
          (.ok (), s.reread id p) := h (id, p) List.mem_cons_self
      obtain ⟨hput, hcounter⟩ := Index.entries_put (s.reread id p) hx
      rw [List.append_cons] at hput
      obtain ⟨y, hall, hy, hyc⟩ := ih hput fun e he => h e (List.mem_cons_of_mem _ he)
      refine ⟨y, ?_, ?_, hyc.trans hcounter⟩
      · rw [List.map_cons, pullAll]
        simp only [hget, hpull]
        exact hall
      · rw [hy, List.map_cons, List.append_assoc]
        rfl

theorem Readable.pullAll_eq (h : Readable s) : pullAll s.index.ids s = (.ok (), s.readBack) := by
  have hentries : s.index.items.entries = [] ++ s.index.items.entries := rfl
  obtain ⟨y, hall, hy, hc⟩ := pullAll_append hentries
    fun e he => h.pullPrimitive_eq (Table.find?_of_mem he)
  have hindex : y = ⟨s.index.items.mapValues s.reread, s.index.counter⟩ := by
    obtain ⟨items, counter⟩ := y
    cases hc
    have hitems : items = s.index.items.mapValues s.reread := Table.ext_entries hy
    rw [hitems]
  rw [hindex] at hall
  exact hall

/-! ### Reading back again -/

/-- A solution can be applied whenever there is one. -/
theorem Readable.applySolution_eq (h : Readable s) (hphase : s.phase = .solved) :
    s.applySolution = (.ok (), s.applied) := by
  rw [Session.applySolution, if_pos hphase]
  exact h.written.pullAll_eq

end Session

end PlanarSketch
