import PlanarSketch.Proofs.Session.ReadBack

/-!
A geometry stored in a solver and read back. The solver is any whose scalars are an array that
grows at its end. The points that a geometry is built on come first, each once and only when it has
no block yet; then come its own scalars in the order of its properties. What is read back is what
was stored, its angles normalised.
-/

namespace PlanarSketch

/-- The scalars of the solver are an array: a push appends one and leaves the others alone. -/
class Solver.Growing (σ : Type) {α : Type} [Solver σ α] : Prop where
  size_push : ∀ (s : σ) (v : α) (fixed : Bool), size (push s v fixed) = size s + 1
  value_push_of_lt : ∀ (s : σ) (v : α) (fixed : Bool) {a : Nat}, a < size s →
    value (push s v fixed) a = value s a
  value_push_size : ∀ (s : σ) (v : α) (fixed : Bool), value (push s v fixed) (size s) = .ok v

variable {σ α : Type}

theorem LeastSquares.value_push (s : LeastSquares α) (v : α) (fixed : Bool) (a : Nat) :
    (s.push v fixed).value a = if a = s.size then .ok v else s.value a := by
  have hcell : (s.push v fixed).cells[a]? = if a = s.size then some ⟨v, fixed⟩ else s.cells[a]? :=
    Array.getElem?_push
  rw [value, value, hcell]
  by_cases ha : a = s.size
  · rw [if_pos ha, if_pos ha]
  · rw [if_neg ha, if_neg ha]

instance [Scalar α] [Decompositions α] : Solver.Growing (LeastSquares α) where
  size_push _ _ _ := Array.size_push _
  value_push_of_lt s v fixed a h := (s.value_push v fixed a).trans (if_neg (Nat.ne_of_lt h))
  value_push_size s v fixed := (s.value_push v fixed s.size).trans (if_pos rfl)

/-! ### The tables of properties -/

namespace Shape

variable {π : Type}

/-- The scalars of a shape by name. -/
def property? : Shape π α → Property → Option α
  | point x _ _, .x => some x
  | point _ y _, .y => some y
  | circle _ r, .radius => some r
  | arc _ _ _ a _ _, .startAngle => some a
  | arc _ _ _ _ b _, .endAngle => some b
  | arc _ _ _ _ _ r, .radius => some r
  | ellipse _ _ r, .radmin => some r
  | hyperbola _ _ r, .radmin => some r
  | arcOfEllipse _ _ _ _ a _ _, .startAngle => some a
  | arcOfEllipse _ _ _ _ _ b _, .endAngle => some b
  | arcOfEllipse _ _ _ _ _ _ r, .radmin => some r
  | arcOfHyperbola _ _ _ _ a _ _, .startAngle => some a
  | arcOfHyperbola _ _ _ _ _ b _, .endAngle => some b
  | arcOfHyperbola _ _ _ _ _ _ r, .radmin => some r
  | arcOfParabola _ _ _ _ a _, .startAngle => some a
  | arcOfParabola _ _ _ _ _ b, .endAngle => some b
  | _, _ => none

/-- The shape with its angles replaced. -/
def mapAngles (f : α → α) : Shape π α → Shape π α
  | arc c s e a b r => arc c s e (f a) (f b) r
  | arcOfEllipse c g s e a b r => arcOfEllipse c g s e (f a) (f b) r
  | arcOfHyperbola c g s e a b r => arcOfHyperbola c g s e (f a) (f b) r
  | arcOfParabola v g s e a b => arcOfParabola v g s e (f a) (f b)
  | s => s

theorem get?_eq_property? (s : Shape π α) (p : Property) : s.get? p = s.property? p := by
  cases s <;> cases p <;> rfl

/-- Every property in the block of a class is one that its shapes have. -/
theorem filterMap_property? (s : Shape π α) :
    s.geometryClass.ownProperties.filterMap s.property? = s.scalars := by
  cases s <;> rfl

theorem refill_scalars [Scalar α] (s : Shape π α) (v₀ : α) :
    (s.refill fun e => Layout.settle e.1 (s.scalars[e.2]?.getD v₀)) =
      s.mapAngles Angle.normalize := by
  cases s <;> rfl

theorem mapAngles_of_no_scalars {s : Shape π α} (f : α → α) (h : s.scalars = []) :
    s.mapAngles f = s := by
  cases s <;> first | rfl | cases h

end Shape

theorem Layout.propertyAddress_of_none {g : Geometry α} {p : Property} (al : Allocator)
    (h : g.shape.property? p = none) :
    propertyAddress al g p = .error (.unknownProperty g.geometryClass p) := by
  have hoffset : g.geometryClass.offset? p = none := by
    rw [← Shape.get?_eq_property?, Shape.get?, Option.bind_eq_none_iff] at h
    refine Option.eq_none_iff_forall_not_mem.2 fun i hi => ?_
    have hlt : i < g.shape.scalars.length :=
      (Shape.scalars_length g.shape).symm ▸ GeometryClass.offset?_lt hi
    have hnone := h i hi
    rw [List.getElem?_eq_getElem hlt] at hnone
    cases hnone
  rw [propertyAddress, hoffset]

/-! ### Scalars at the end of the array -/

namespace Layout

section

variable [Solver σ α]

/-- Appends scalars that are fixed or free. -/
def pushAll (s : σ) (es : List (α × Bool)) : σ := es.foldl (fun s e => Solver.push s e.1 e.2) s

theorem pushPrivate_eq_pushAll (s : σ) (vs : List α) (fixed : Bool) :
    Allocator.pushPrivate s vs fixed = pushAll s (vs.map fun v => (v, fixed)) := by
  rw [pushAll, List.foldl_map]
  rfl

theorem pushAll_append (s : σ) (es es' : List (α × Bool)) :
    pushAll s (es ++ es') = pushAll (pushAll s es) es' :=
  List.foldl_append

variable [Solver.Growing σ]

theorem size_pushAll (s : σ) (es : List (α × Bool)) :
    Solver.size (pushAll s es) = Solver.size s + es.length := by
  induction es generalizing s with
  | nil => rfl
  | cons e es ih =>
      refine (ih (Solver.push s e.1 e.2)).trans ?_
      rw [Solver.Growing.size_push, List.length_cons]
      omega

theorem value_pushAll_of_lt (es : List (α × Bool)) {s : σ} {a : Nat} (h : a < Solver.size s) :
    Solver.value (pushAll s es) a = Solver.value s a := by
  induction es generalizing s with
  | nil => rfl
  | cons e es ih =>
      have hlt : a < Solver.size (Solver.push s e.1 e.2) := by
        rw [Solver.Growing.size_push]
        omega
      exact (ih hlt).trans (Solver.Growing.value_push_of_lt s e.1 e.2 h)

theorem value_pushAll {es : List (α × Bool)} {i : Nat} {e : α × Bool} (s : σ)
    (h : es[i]? = some e) : Solver.value (pushAll s es) (Solver.size s + i) = .ok e.1 := by
  induction es generalizing s i with
  | nil => cases h
  | cons e' es ih =>
      have hsize := Solver.Growing.size_push s e'.1 e'.2
      cases i with
      | zero =>
          obtain rfl : e' = e := by simpa using h
          have hlt : Solver.size s < Solver.size (Solver.push s e'.1 e'.2) := by omega
          exact (value_pushAll_of_lt es hlt).trans (Solver.Growing.value_push_size s e'.1 e'.2)
      | succ i =>
          have hrest := ih (Solver.push s e'.1 e'.2) (i := i) h
          rw [hsize, Nat.add_right_comm] at hrest
          exact hrest

end

/-! ### The points of a geometry -/

/-- The points of a list that have no block yet, each once, in the order of the list. -/
def missing (al : Allocator) (ids : List Oid) : List Oid :=
  (ids.filter fun id => !al.has id).eraseDups

/-- The scalars of the point with an id. -/
def pointScalars (x : Index α) (id : Oid) : List (α × Bool) :=
  match x.get? id with
  | some (.geometry ⟨_, .point a b fixed⟩) => [(a, fixed), (b, fixed)]
  | _ => []

theorem missing_cons_of_has {al : Allocator} {id : Oid} (ids : List Oid) (h : al.has id) :
    missing al (id :: ids) = missing al ids := by
  rw [missing, missing, List.filter_cons_of_neg (by simp [h])]

theorem has_insert (al : Allocator) (id id' : Oid) (a : Address) :
    Allocator.has { al with blocks := al.blocks.insert id a } id' =
      (decide (id' = id) || al.has id') := by
  rw [Allocator.has, Allocator.has, Table.contains, Table.contains, Table.find?_insert]
  by_cases h : id' = id <;> simp [h]

/-- A point that has been given a block is missing no more. -/
theorem missing_cons_of_not_has {al : Allocator} {id : Oid} (ids : List Oid) (a : Address)
    (h : al.has id = false) :
    missing al (id :: ids) =
      id :: missing { al with blocks := al.blocks.insert id a } ids := by
  rw [missing, List.filter_cons_of_pos (by simp [h]), List.eraseDups_cons, List.filter_filter,
    missing]
  congr 3
  funext id'
  rw [has_insert]
  by_cases hid : id' = id <;> simp [hid]

theorem mem_missing {al : Allocator} {ids : List Oid} {id : Oid} :
    id ∈ missing al ids ↔ id ∈ ids ∧ al.has id = false := by
  rw [missing, List.mem_eraseDups, List.mem_filter, Bool.not_eq_true']

/-- Where the block of an id is once the missing points have got theirs from an address on. -/
def blockAmong (al : Allocator) (ids : List Oid) (base : Nat) (id : Oid) : Option Address :=
  (((missing al ids).idxOf? id).map fun i => base + 2 * i).or (al.blocks.find? id)

theorem blockAmong_of_not_mem {al : Allocator} {ids : List Oid} (base : Nat) {id : Oid}
    (h : id ∉ missing al ids) : blockAmong al ids base id = al.blocks.find? id := by
  rw [blockAmong, List.idxOf?_eq_none_iff.2 h]
  rfl

theorem blockAmong_cons_of_not_has {al : Allocator} {id : Oid} (ids : List Oid) (base : Nat)
    (h : al.has id = false) (id' : Oid) :
    blockAmong al (id :: ids) base id' =
      blockAmong { al with blocks := al.blocks.insert id base } ids (base + 2) id' := by
  rw [blockAmong, missing_cons_of_not_has ids base h, List.idxOf?_cons]
  by_cases hid : id' = id
  · subst hid
    have hgiven : id' ∉ missing { al with blocks := al.blocks.insert id' base } ids := by
      rw [mem_missing, has_insert]
      simp
    rw [blockAmong_of_not_mem _ hgiven, Table.find?_insert, if_pos rfl,
      if_pos (beq_self_eq_true id')]
    rfl
  · rw [blockAmong, Table.find?_insert, if_neg hid, if_neg (by simpa using Ne.symm hid),
      Option.map_map]
    congr 2
    funext i
    simp only [Function.comp_apply]
    omega

theorem geometryOf_point {x : Index α} {id : Oid} {q : Geometry α}
    (hown : ∀ id p, x.get? id = some p → p.id = id) (hget : x.get? id = some (.geometry q))
    (hclass : q.geometryClass = .point) :
    ∃ a b fixed, x.geometryOf .point id = .ok ⟨id, .point a b fixed⟩ ∧
      pointScalars x id = [(a, fixed), (b, fixed)] := by
  obtain ⟨id', shape⟩ := q
  obtain rfl : id' = id := hown _ _ hget
  cases shape with
  | point a b fixed =>
      refine ⟨a, b, fixed, Index.geometryOf_eq_ok.2 ⟨hget, rfl⟩, ?_⟩
      rw [pointScalars, hget]
  | _ => cases hclass

variable [Solver σ α]

theorem pushPoints_of_has {x : Index α} {ids : List Oid} {s : Allocator × σ}
    (h : ∀ id ∈ ids, s.1.has id) : pushPoints x ids s = (.ok (), s) := by
  induction ids with
  | nil => rfl
  | cons id ids ih =>
      obtain ⟨hid, hids⟩ := List.forall_mem_cons.1 h
      rw [pushPoints, if_pos hid, ih hids]

theorem pushPoints_cons_of_not_has {x : Index α} {id : Oid} {q : Geometry α} (ids : List Oid)
    {al : Allocator} (s : σ) (hown : ∀ id p, x.get? id = some p → p.id = id)
    (hget : x.get? id = some (.geometry q)) (hclass : q.geometryClass = .point)
    (h : al.has id = false) :
    (pointScalars x id).length = 2 ∧
      pushPoints x (id :: ids) (al, s) =
        pushPoints x ids ({ al with blocks := al.blocks.insert id (Solver.size s) },
          pushAll s (pointScalars x id)) := by
  obtain ⟨a, b, fixed, hof, hscalars⟩ := geometryOf_point hown hget hclass
  rw [hscalars, pushPoints, h, if_neg Bool.false_ne_true, hof]
  dsimp only
  rw [Allocator.push, h, if_neg Bool.false_ne_true, pushPrivate_eq_pushAll]
  exact ⟨rfl, rfl⟩

/-- The missing points get their blocks in turn. -/
theorem pushPoints_spec [Solver.Growing σ] {x : Index α} {ids : List Oid} {al : Allocator} {s : σ}
    (hown : ∀ id p, x.get? id = some p → p.id = id)
    (h : ∀ id ∈ ids, al.has id ∨
      ∃ q, x.get? id = some (.geometry q) ∧ q.geometryClass = .point) :
    ((missing al ids).flatMap (pointScalars x)).length = 2 * (missing al ids).length ∧
    ∃ al', pushPoints x ids (al, s) =
        (.ok (), al', pushAll s ((missing al ids).flatMap (pointScalars x))) ∧
      al'.names = al.names ∧ ∀ id, al'.blocks.find? id = blockAmong al ids (Solver.size s) id := by
  induction ids generalizing al s with
  | nil => exact ⟨rfl, al, rfl, rfl, fun _ => rfl⟩
  | cons id ids ih =>
      obtain ⟨hid, hids⟩ := List.forall_mem_cons.1 h
      cases hhas : al.has id with
      | true =>
          simp only [blockAmong, missing_cons_of_has ids hhas]
          rw [pushPoints, if_pos hhas]
          exact ih hids
      | false =>
          obtain ⟨q, hget, hclass⟩ := hid.resolve_left (by rw [hhas]; exact Bool.false_ne_true)
          obtain ⟨htwo, hstep⟩ := pushPoints_cons_of_not_has ids s hown hget hclass hhas
          have hids' : ∀ id' ∈ ids,
              Allocator.has { al with blocks := al.blocks.insert id (Solver.size s) } id' ∨
                ∃ q, x.get? id' = some (.geometry q) ∧ q.geometryClass = .point := by
            intro id' hid'
            refine (hids id' hid').imp_left fun hold => ?_
            rw [has_insert, hold, Bool.or_true]
          obtain ⟨hlen, al', hpush, hnames, hblocks⟩ :=
            ih (s := pushAll s (pointScalars x id)) hids'
          rw [missing_cons_of_not_has ids (Solver.size s) hhas, List.flatMap_cons, hstep, hpush,
            pushAll_append]
          refine ⟨?_, al', rfl, hnames, fun id' => ?_⟩
          · rw [List.length_append, hlen, htwo, List.length_cons]
            omega
          · rw [hblocks, size_pushAll, htwo, blockAmong_cons_of_not_has ids _ hhas]

/-! ### A geometry with its points -/

/-- What a geometry adds to the solver: the scalars of the points that are missing, then its own. -/
def appended (x : Index α) (al : Allocator) (g : Geometry α) : List (α × Bool) :=
  (missing al g.points).flatMap (pointScalars x) ++
    (g.geometryClass.ownProperties.filterMap g.shape.property?).map fun v => (v, g.shape.fixed)

/-- The allocator and solver after a geometry has been stored: nothing was done but to append its
scalars and to note where the new blocks begin. -/
structure Stored (x : Index α) (g : Geometry α) (al : Allocator) (s : σ) (al' : Allocator)
    (t : σ) : Prop where
  scalars : t = pushAll s (appended x al g)
  count : (appended x al g).length = 2 * (missing al g.points).length + g.geometryClass.ownCount
  blocks : ∀ id, al'.blocks.find? id =
    if id = g.id ∧ 0 < g.geometryClass.ownCount then
      some (Solver.size s + 2 * (missing al g.points).length)
    else blockAmong al g.points (Solver.size s) id
  names : al'.names = al.names

/-- A geometry without a block gets none by its points. -/
theorem blockAmong_self {al : Allocator} {g : Geometry α} (base : Nat)
    (hfresh : al.has g.id = false) (hself : g.id ∉ g.points) :
    blockAmong al g.points base g.id = none := by
  rw [blockAmong_of_not_mem base fun hmem => hself (mem_missing.1 hmem).1]
  exact Table.contains_eq_false.1 hfresh

variable {x : Index α} {g : Geometry α} {al al' : Allocator} {s t : σ}

namespace Stored

theorem address_of_has (h : Stored x g al s al' t) (hfresh : al.has g.id = false) {id : Oid}
    (hid : al.has id) : al'.address id = al.address id := by
  have hne : id ≠ g.id := by
    rintro rfl
    rw [hfresh] at hid
    cases hid
  have hold : id ∉ missing al g.points := by
    rw [mem_missing, hid]
    nofun
  rw [Allocator.address, Allocator.address, h.blocks, if_neg fun hc => hne hc.1,
    blockAmong_of_not_mem _ hold]

theorem has_point (h : Stored x g al s al' t) {p : Oid} (hp : p ∈ g.points) : al'.has p := by
  rw [Allocator.has, Table.contains, h.blocks]
  split
  · rfl
  · rw [blockAmong, Option.isSome_or, Option.isSome_map, Bool.or_eq_true]
    cases hhas : al.has p with
    | true => exact .inr hhas
    | false => exact .inl (List.isSome_idxOf?.2 (mem_missing.2 ⟨hp, hhas⟩))

end Stored

variable [Solver.Growing σ]

theorem exists_stored (hown : ∀ id p, x.get? id = some p → p.id = id)
    (hfresh : al.has g.id = false) (hself : g.id ∉ g.points)
    (hpoints : ∀ p ∈ g.points, al.has p ∨
      ∃ q, x.get? p = some (.geometry q) ∧ q.geometryClass = .point) :
    ∃ al' t, push x g (al, s) = (.ok (), al', t) ∧ Stored x g al s al' t := by
  have hvalues : g.geometryClass.ownProperties.filterMap g.shape.property? = g.shape.scalars :=
    g.shape.filterMap_property?
  obtain ⟨hlen, al₁, hpush, hnames₁, hblocks₁⟩ := pushPoints_spec (s := s) hown hpoints
  have hfresh₁ : al₁.has g.id = false := by
    rw [Allocator.has, Table.contains_eq_false, hblocks₁, blockAmong_self _ hfresh hself]
  obtain ⟨hblocks, hnames, hsolver⟩ := Session.pushOwn_blocks
    (pushAll s ((missing al g.points).flatMap (pointScalars x))) hfresh₁
  refine ⟨_, _, by rw [push, hpush], ⟨?_, ?_, fun id => ?_, hnames.trans hnames₁⟩⟩
  · rw [hsolver, pushPrivate_eq_pushAll, ← pushAll_append, appended, hvalues]
  · rw [appended, hvalues, List.length_append, hlen, List.length_map, Shape.scalars_length]
    rfl
  · rw [hblocks, size_pushAll, hlen, hblocks₁]

namespace Stored

theorem size_eq (h : Stored x g al s al' t) :
    Solver.size t = Solver.size s + (appended x al g).length := by
  rw [h.scalars, size_pushAll]

theorem value_of_lt (h : Stored x g al s al' t) {a : Nat} (ha : a < Solver.size s) :
    Solver.value t a = Solver.value s a := by
  rw [h.scalars, value_pushAll_of_lt _ ha]

theorem value_new (h : Stored x g al s al' t) {i : Nat} {e : α × Bool}
    (he : (appended x al g)[i]? = some e) : Solver.value t (Solver.size s + i) = .ok e.1 := by
  rw [h.scalars, value_pushAll s he]

/-- The scalars of a geometry are in its block, in the order of its properties. -/
theorem own_value (h : Stored x g al s al' t) {i : Nat} {v : α}
    (hv : g.shape.scalars[i]? = some v) :
    ∃ base, al'.blocks.find? g.id = some base ∧ Solver.value t (base + i) = .ok v := by
  have hvalues : g.geometryClass.ownProperties.filterMap g.shape.property? = g.shape.scalars :=
    g.shape.filterMap_property?
  have hcount : g.shape.scalars.length = g.geometryClass.ownCount := Shape.scalars_length _
  have hi : i < g.geometryClass.ownCount := hcount ▸ (List.getElem?_eq_some_iff.1 hv).1
  have hlen : ((missing al g.points).flatMap (pointScalars x)).length =
      2 * (missing al g.points).length := by
    have htotal := h.count
    rw [appended, hvalues, List.length_append, List.length_map, hcount] at htotal
    omega
  have hplace : (appended x al g)[2 * (missing al g.points).length + i]? =
      some (v, g.shape.fixed) := by
    rw [appended, hvalues, List.getElem?_append_right (by omega), hlen, Nat.add_sub_cancel_left,
      List.getElem?_map, hv, Option.map_some]
  refine ⟨_, (h.blocks g.id).trans (if_pos ⟨rfl, by omega⟩), ?_⟩
  rw [Nat.add_assoc]
  exact h.value_new hplace

theorem property_value (h : Stored x g al s al' t) {p : Property} {v : α}
    (hv : g.shape.property? p = some v) :
    ∃ a, propertyAddress al' g p = .ok a ∧ Solver.value t a = .ok v := by
  rw [← Shape.get?_eq_property?, Shape.get?] at hv
  obtain ⟨i, hoffset, hvalue⟩ := Option.bind_eq_some_iff.1 hv
  obtain ⟨base, hbase, hread⟩ := h.own_value hvalue
  refine ⟨base + i, ?_, hread⟩
  rw [propertyAddress, show g.geometryClass.offset? p = some i from hoffset]
  dsimp only
  rw [Allocator.address, hbase]
  rfl

variable [Scalar α]

/-- A geometry is read back as it was, but for its angles. -/
theorem pull_eq (h : Stored x g al s al' t) (hfresh : al.has g.id = false)
    (hself : g.id ∉ g.points) :
    pull t al' g = (.ok (), { g with shape := g.shape.mapAngles Angle.normalize }) := by
  cases hscalars : g.shape.scalars with
  | nil =>
      have hcount : g.geometryClass.ownCount = 0 := by
        rw [Geometry.geometryClass, ← Shape.scalars_length, hscalars, List.length_nil]
      have hnone : al'.blocks.find? g.id = none := by
        rw [h.blocks, if_neg fun hc => by omega, blockAmong_self _ hfresh hself]
      rw [pull, hnone, Shape.mapAngles_of_no_scalars _ hscalars]
  | cons v vs =>
      obtain ⟨base, hbase, -⟩ := h.own_value (i := 0) (by rw [hscalars]; rfl)
      have hread : ∀ e ∈ g.geometryClass.ownProperties.zipIdx,
          Solver.value t (base + e.2) = .ok (g.shape.scalars[e.2]?.getD v) := by
        intro e he
        have hlt : e.2 < g.shape.scalars.length := by
          rw [Shape.scalars_length]
          exact List.snd_lt_of_mem_zipIdx he
        have hvalue := List.getElem?_eq_getElem hlt
        obtain ⟨base', hbase', hvalue'⟩ := h.own_value hvalue
        obtain rfl : base' = base := Option.some.inj (hbase'.symm.trans hbase)
        rw [hvalue', hvalue, Option.getD_some]
      rw [pull_of_values hbase hread]
      exact congrArg (fun shape => (Except.ok (), { g with shape := shape }))
        (g.shape.refill_scalars v)

omit [Scalar α] in
/-- A geometry that is stored is not stored again. -/
theorem push_again (h : Stored x g al s al' t) : push x g (al', t) = (.ok (), al', t) := by
  rw [push, pushPoints_of_has fun p hp => h.has_point hp]
  dsimp only
  cases hscalars : g.shape.scalars with
  | nil => rw [pushOwn, hscalars, List.isEmpty_nil, Bool.or_true, if_pos rfl]
  | cons v vs =>
      obtain ⟨base, hbase, -⟩ := h.own_value (i := 0) (by rw [hscalars]; rfl)
      have hhas : al'.has g.id := Allocator.has_iff.2 ⟨base, hbase⟩
      rw [pushOwn, hhas, Bool.true_or, if_pos rfl]

end Stored

variable [Scalar α]

/-- A geometry whose points are stored or can be is stored with what is missing of them and read
back with its angles normalised; what was there before stays, and nothing is stored twice. -/
theorem pull_undoes_push (x : Index α) (g : Geometry α) (al : Allocator) (s : σ)
    (hown : ∀ id p, x.get? id = some p → p.id = id) (hfresh : al.has g.id = false)
    (hself : g.id ∉ g.points)
    (hpoints : ∀ p ∈ g.points, al.has p ∨
      ∃ q, x.get? p = some (.geometry q) ∧ q.geometryClass = .point) :
    ∃ al' t, push x g (al, s) = (.ok (), al', t) ∧ Stored x g al s al' t ∧
      Solver.size t = Solver.size s + (appended x al g).length ∧
      (∀ i e, (appended x al g)[i]? = some e →
        Solver.value t (Solver.size s + i) = .ok e.1) ∧
      (∀ a < Solver.size s, Solver.value t a = Solver.value s a) ∧
      (∀ id, al.has id → al'.address id = al.address id) ∧
      (∀ p v, g.shape.property? p = some v →
        ∃ a, propertyAddress al' g p = .ok a ∧ Solver.value t a = .ok v) ∧
      (∀ p, g.shape.property? p = none →
        propertyAddress al' g p = .error (.unknownProperty g.geometryClass p)) ∧
      pull t al' g = (.ok (), { g with shape := g.shape.mapAngles Angle.normalize }) ∧
      push x g (al', t) = (.ok (), al', t) := by
  obtain ⟨al', t, hpush, h⟩ := exists_stored (s := s) hown hfresh hself hpoints
  exact ⟨al', t, hpush, h, h.size_eq, fun i e => h.value_new, fun a => h.value_of_lt,
    fun id => h.address_of_has hfresh, fun p v => h.property_value,
    fun p => propertyAddress_of_none al', h.pull_eq hfresh hself, h.push_again⟩

def threePoints : Index Float :=
  ⟨⟨[(⟨1⟩, .geometry ⟨⟨1⟩, .point 0.0 0.0 true⟩), (⟨2⟩, .geometry ⟨⟨2⟩, .point 1.0 0.0 false⟩),
    (⟨3⟩, .geometry ⟨⟨3⟩, .point 2.0 0.0 false⟩)], by decide⟩, 3⟩

/-- An arc that begins and ends in one point, and whose start angle is negative. -/
def closedArc : Geometry Float := ⟨⟨9⟩, .arcOfEllipse ⟨1⟩ ⟨2⟩ ⟨3⟩ ⟨3⟩ (-1.0) 0.5 1.5⟩

/-- The center of the arc, stored before the arc is. -/
def centerStored : Allocator × LeastSquares Float :=
  Allocator.empty.push (.ofConfig .standard) ⟨1⟩ [0.0, 0.0] true

theorem push_closedArc :
    missing centerStored.1 closedArc.points = [⟨2⟩, ⟨3⟩] ∧
    ∃ al' t, push threePoints closedArc centerStored = (.ok (), al', t) ∧
      Solver.size t = 9 ∧
      (∃ a, propertyAddress al' closedArc .radmin = .ok a ∧ Solver.value t a = .ok 1.5) ∧
      propertyAddress al' closedArc .radius = .error (.unknownProperty .arcOfEllipse .radius) ∧
      pull t al' closedArc = (.ok (), ⟨⟨9⟩, .arcOfEllipse ⟨1⟩ ⟨2⟩ ⟨3⟩ ⟨3⟩
        (Angle.normalize (-1.0)) (Angle.normalize 0.5) 1.5⟩) ∧
      push threePoints closedArc (al', t) = (.ok (), al', t) := by
  have hown : ∀ id p, threePoints.get? id = some p → p.id = id := by
    intro id p hp
    have hmem := Table.mem_of_find? hp
    simp only [threePoints, List.mem_cons, Prod.mk.injEq, List.not_mem_nil, or_false] at hmem
    rcases hmem with ⟨rfl, rfl⟩ | ⟨rfl, rfl⟩ | ⟨rfl, rfl⟩ <;> rfl
  have hmissing : missing centerStored.1 closedArc.points = [⟨2⟩, ⟨3⟩] := by decide
  have hpoints : ∀ p ∈ closedArc.points, centerStored.1.has p ∨
      ∃ q, threePoints.get? p = some (.geometry q) ∧ q.geometryClass = .point := by
    intro p hp
    simp only [closedArc, Geometry.points, Shape.points, List.mem_cons, List.not_mem_nil,
      or_false] at hp
    rcases hp with rfl | rfl | rfl | rfl
    · exact .inl rfl
    · exact .inr ⟨_, rfl, rfl⟩
    · exact .inr ⟨_, rfl, rfl⟩
    · exact .inr ⟨_, rfl, rfl⟩
  obtain ⟨al', t, hpush, -, hsize, -, -, -, hknown, hunknown, hpull, hagain⟩ :=
    pull_undoes_push threePoints closedArc centerStored.1 centerStored.2 hown rfl (by decide)
      hpoints
  exact ⟨hmissing, al', t, hpush, hsize, hknown .radmin 1.5 rfl, hunknown .radius rfl, hpull,
    hagain⟩

end Layout

end PlanarSketch
