import PlanarSketch.Proofs.LeastSquares.Meaning
import PlanarSketch.Proofs.Session.Points

/-!
What a stored constraint means. Until a solution is applied the solver has the scalars of the
sketch at their addresses; the equation that a push stores then reads off the solver what the
formula of its kind reads off the sketch.
-/

namespace PlanarSketch

open LeastSquares Relation

variable {α : Type}

theorem Shape.eq_point_of_class {π : Type} {s : Shape π α} (h : s.geometryClass = .point) :
    ∃ x y fixed, s = .point x y fixed := by
  cases s <;> first | exact ⟨_, _, _, rfl⟩ | cases h

namespace Index

variable {x : Index α} {id : Oid}

theorem pointAt?_eq_some {v : Vec2 α} :
    x.pointAt? id = some v ↔ ∃ i fixed, x.get? id = some (.geometry ⟨i, .point v.x v.y fixed⟩) := by
  unfold pointAt?
  split
  · next i a b fixed hget =>
      rw [hget]
      constructor
      · rintro ⟨⟩
        exact ⟨i, fixed, rfl⟩
      · rintro ⟨i, fixed, ⟨⟩⟩
        rfl
  · next hno =>
      constructor
      · nofun
      · rintro ⟨i, fixed, hget⟩
        exact (hno i v.x v.y fixed hget).elim

theorem figure?_of_mapM {ε : Type} {v : Address → α} {f : Oid → Except ε (Vec2 Address)}
    {own : Nat → Except ε Address} {shape : Shape Oid α} {r : Record}
    (hr : shape.mapM f own = .ok r)
    (hf : ∀ p ∈ shape.points, ∀ {q}, f p = .ok q → x.pointAt? p = some (Equation.pointAt v q))
    (hown : ∀ i {a w}, own i = .ok a → shape.scalars[i]? = some w → w = v a) :
    x.figure? shape = some (r.figureAt v) := by
  cases shape <;>
    simp only [Shape.mapM, bind_eq_ok, Shape.points, List.forall_mem_cons] at hr hf
  case point a b fixed =>
    obtain ⟨a', ha, b', hb, ⟨⟩⟩ := hr
    obtain rfl := hown 0 ha rfl
    obtain rfl := hown 1 hb rfl
    rfl
  case line p q =>
    obtain ⟨p', hp, q', hq, ⟨⟩⟩ := hr
    rw [figure?, hf.1 hp, hf.2.1 hq]
    rfl
  case circle c r =>
    obtain ⟨c', hc, r', hr, ⟨⟩⟩ := hr
    obtain rfl := hown 0 hr rfl
    rw [figure?, hf.1 hc]
    rfl
  case arc c s e a b r =>
    obtain ⟨c', hc, s', hs, e', he, a', ha, b', hb, r', hr, ⟨⟩⟩ := hr
    obtain rfl := hown 0 ha rfl
    obtain rfl := hown 1 hb rfl
    obtain rfl := hown 2 hr rfl
    rw [figure?, hf.1 hc, hf.2.1 hs, hf.2.2.1 he]
    rfl
  case ellipse c g r =>
    obtain ⟨c', hc, g', hg, r', hr, ⟨⟩⟩ := hr
    obtain rfl := hown 0 hr rfl
    rw [figure?, hf.1 hc, hf.2.1 hg]
    rfl
  case arcOfEllipse c g s e a b r =>
    obtain ⟨c', hc, g', hg, s', hs, e', he, a', ha, b', hb, r', hr, ⟨⟩⟩ := hr
    obtain rfl := hown 0 ha rfl
    obtain rfl := hown 1 hb rfl
    obtain rfl := hown 2 hr rfl
    rw [figure?, hf.1 hc, hf.2.1 hg, hf.2.2.1 hs, hf.2.2.2.1 he]
    rfl
  case hyperbola c g r =>
    obtain ⟨c', hc, g', hg, r', hr, ⟨⟩⟩ := hr
    obtain rfl := hown 0 hr rfl
    rw [figure?, hf.1 hc, hf.2.1 hg]
    rfl
  case arcOfHyperbola c g s e a b r =>
    obtain ⟨c', hc, g', hg, s', hs, e', he, a', ha, b', hb, r', hr, ⟨⟩⟩ := hr
    obtain rfl := hown 0 ha rfl
    obtain rfl := hown 1 hb rfl
    obtain rfl := hown 2 hr rfl
    rw [figure?, hf.1 hc, hf.2.1 hg, hf.2.2.1 hs, hf.2.2.2.1 he]
    rfl
  case parabola w g =>
    obtain ⟨w', hw, g', hg, ⟨⟩⟩ := hr
    rw [figure?, hf.1 hw, hf.2.1 hg]
    rfl
  case arcOfParabola w g s e a b =>
    obtain ⟨w', hw, g', hg, s', hs, e', he, a', ha, b', hb, ⟨⟩⟩ := hr
    obtain rfl := hown 0 ha rfl
    obtain rfl := hown 1 hb rfl
    rw [figure?, hf.1 hw, hf.2.1 hg, hf.2.2.1 hs, hf.2.2.2.1 he]
    rfl

end Index

namespace Session

/-- The solver has the scalars of the sketch at their addresses. -/
structure Mirrored (s : Session (LeastSquares α) α) : Prop where
  value : ∀ {id g} {base i : Nat} {v}, s.index.geometryAt? id = some g →
    s.allocator.blocks.find? id = some base → g.shape.scalars[i]? = some v →
      s.solver.value? (base + i) = some v

variable {s t : Session (LeastSquares α) α}

theorem Anchored.owns (h : Anchored s) {id : Oid} {g : Geometry α} {base i : Nat} {v : α}
    (hg : s.index.geometryAt? id = some g) (hbase : s.allocator.blocks.find? id = some base)
    (hv : g.shape.scalars[i]? = some v) : s.Owns g.outline (base + i) := by
  have hi : i < g.shape.scalars.length := (List.getElem?_eq_some_iff.1 hv).1
  rw [Shape.scalars_length] at hi
  exact h.owns_offset (Index.geometryAt?_eq_some.1 hg) hbase hi

/-- The solver has the scalars of this geometry at their addresses. -/
def Mirrors (s : Session (LeastSquares α) α) (id : Oid) (g : Geometry α) : Prop :=
  ∀ {base i : Nat} {v}, s.allocator.blocks.find? id = some base → g.shape.scalars[i]? = some v →
    s.solver.value? (base + i) = some v

/-- A geometry that a step leaves is mirrored if it is new or was mirrored before. -/
theorem Step.mirrors (ht : Step s t) (hs : Sound s) {id : Oid} {g : Geometry α}
    (hg : t.index.geometryAt? id = some g)
    (h : s.index.geometryAt? id = some g → s.Mirrors id g) : t.Mirrors id g := by
  intro base i v hbase hv
  cases ht with
  | append geometries blocks _ solver =>
      obtain ⟨_, _, grown, -⟩ := solver.grown
      rw [geometries] at hg
      rw [blocks] at hbase
      rw [grown.value?_old ((hs.owns hg hbase hv).lt hs.toAnchored)]
      exact h hg hbase hv
  | @place g' fresh points geometries blocks names grown =>
      rw [geometries, Function.update_apply] at hg
      rw [blocks] at hbase
      by_cases hid : id = g'.id
      · rw [if_pos hid, Option.some.injEq] at hg
        subst hg
        have hi : i < g'.shape.scalars.length := (List.getElem?_eq_some_iff.1 hv).1
        have hpos : 0 < g'.geometryClass.ownCount := by
          rw [Shape.scalars_length] at hi
          exact Nat.lt_of_le_of_lt (Nat.zero_le i) hi
        rw [if_pos ⟨hid, hpos⟩, Option.some.injEq] at hbase
        subst hbase
        rw [LeastSquares.value?, grown.getElem?_new, List.getElem?_map, hv]
        rfl
      · rw [if_neg hid] at hg
        rw [if_neg fun hc => hid hc.1] at hbase
        rw [grown.value?_old ((hs.owns hg hbase hv).lt hs.toAnchored)]
        exact h hg hbase hv
  | forget tag geometries allocator solver =>
      rw [geometries] at hg
      rw [allocator] at hbase
      rw [solver, value?_clearTag]
      exact h hg hbase hv
  | @assign n a w geometries allocator bound cells _ =>
      rw [geometries] at hg
      rw [allocator] at hbase
      -- the scalar of a name belongs to no geometry
      have hne : a ≠ base + i := by
        rintro rfl
        exact (hs.named bound).2 _ (hs.owns hg hbase hv)
      rw [LeastSquares.value?, cells, Array.getElem?_setIfInBounds, if_neg hne]
      exact h hg hbase hv
  | keep geometries allocator cells _ =>
      rw [geometries] at hg
      rw [allocator] at hbase
      rw [LeastSquares.value?, cells]
      exact h hg hbase hv

theorem Mirrored.step (hs : Sound s) (h : Mirrored s) (ht : Step s t) : Mirrored t :=
  ⟨fun hg => ht.mirrors hs hg fun hg' => h.value hg'⟩

theorem Mirrored.steps (hs : Sound s) (h : Mirrored s) (ht : ReflTransGen Step s t) :
    Mirrored t := by
  induction ht with
  | refl => exact h
  | tail hsteps hstep ih => exact ih.step (hs.steps hsteps) hstep

theorem Mirrored.of_empty (h : s.index.geometryAt? = fun _ => none) : Mirrored s :=
  ⟨fun hg => by simp [h] at hg⟩

variable {x : Address → α}

/-- The record of a geometry describes its figure to the solver. -/
theorem Mirrored.figure (hs : Anchored s) (hm : Mirrored s) (hb : s.index.BuiltOnPoints) {id : Oid}
    {g : Geometry α} {r : Record} (hg : s.index.get? id = some (.geometry g))
    (hr : Layout.record s.allocator g = .ok r)
    (hx : ∀ {a v}, s.solver.value? a = some v → x a = v) :
    s.index.figure? g.shape = some (r.figureAt x) := by
  have hkey : g.id = id := hs.key hg
  refine Index.figure?_of_mapM hr ?_ ?_
  · intro p hp q hq
    obtain ⟨base, hbase, rfl⟩ := map_eq_ok.1 hq
    rw [Allocator.address_eq_ok] at hbase
    obtain ⟨⟨i, shape⟩, hget, hclass⟩ := hb g (Index.mem_geometries.2 ⟨id, hg⟩) p hp
    obtain ⟨a, b, fixed, rfl⟩ := Shape.eq_point_of_class hclass
    have hgeo := Index.geometryAt?_eq_some.2 hget
    have ha : x base = a := hx (hm.value (i := 0) hgeo hbase rfl)
    have hb : x (base + 1) = b := hx (hm.value (i := 1) hgeo hbase rfl)
    refine Index.pointAt?_eq_some.2 ⟨i, fixed, ?_⟩
    rw [hget, Equation.pointAt, ha, hb]
  · intro i a w ha hw
    obtain ⟨base, hbase, rfl⟩ := map_eq_ok.1 ha
    rw [Allocator.address_eq_ok, hkey] at hbase
    exact (hx (hm.value (Index.geometryAt?_eq_some.2 hg) hbase hw)).symm

variable [Scalar α] [Decompositions α]

/-- What a parameter of a constraint reads as in the sketch. -/
def reading? (s : Session (LeastSquares α) α) (c : Constraint α) (p : ParamSpec) :
    Option (Reading α) :=
  match p.slot, c.param? p.name with
  | .value, some (.number v) => some (.value v)
  | .value, some (.name n) => (s.getName n).toOption.map .value
  | .value, some (.ref r) => do
      let g ← s.index.geometryAt? r.target
      (g.shape.get? r.property).map .value
  | .geometry _, some v => do
      let g ← s.index.geometryAt? (← v.toOid?)
      (s.index.figure? g.shape).map .figure
  | .raw, some (.bool b) => some (.flag b)
  | .raw, some (.number v) =>
      some (if c.kind = .perpendicularArc2arc then .flag (!(v == 0.0)) else .number v)
  | _, _ => none

theorem Unapplied.mirrored (h : Unapplied s) : Mirrored s := by
  induction h with
  | new own => exact .of_empty rfl
  | ofConfig own c => exact .of_empty rfl
  | clear _ => exact .of_empty rfl
  | @perform s hs r hr ih =>
      rcases perform_cases hs.reachable.sound r with hsteps | ⟨happly, hphase, -⟩ | rfl
      · exact ih.steps hs.reachable.sound hsteps
      · exact absurd hphase (hr happly)
      · exact .of_empty rfl

/-- The operand that comes from a parameter reads off the solver what the parameter reads off the
sketch. -/
theorem Mirrored.reads (hs : Sound s) (hm : Mirrored s) (hb : s.index.BuiltOnPoints)
    {c : Constraint α} {tag : Int} {pl : Placement (LeastSquares α)}
    (hpl : ∀ {a v}, s.solver.value? a = some v → pl.solver.value? a = some v)
    (hx : ∀ {a v}, pl.solver.value? a = some v → x a = v) {p : ParamSpec} {o : Operand α}
    (hp : p.isUserData)
    (h : pl.solver.scope.Yields c.kind (c.Supplies s.index s.allocator tag pl) p o) :
    ∃ r, s.reading? c p = some r ∧ Operand.Reads x o r := by
  obtain ⟨a, i, ⟨r, hr, ha⟩, ho⟩ := h
  cases Constraint.resolves_of_ok hr with
  | tag hslot => simp [ParamSpec.isUserData, hslot] at hp
  | driving hslot => simp [ParamSpec.isUserData, hslot] at hp
  | alignment hslot => simp [ParamSpec.isUserData, hslot] at hp
  | @literal v hslot hv =>
      cases a <;> try exact False.elim ha
      case datum a =>
        rw [hslot] at ho
        obtain ⟨b, hb, rfl⟩ := map_eq_ok.1 ho
        obtain ⟨-, rfl⟩ := Scope.checkAddress_eq_ok.1 hb
        refine ⟨.value v, by simp only [reading?, hslot, hv], ?_⟩
        rw [← hx ha]
        exact .address a
  | @name n a hslot hv hn =>
      obtain rfl := ha
      rw [hslot] at ho
      obtain ⟨b, hb, rfl⟩ := map_eq_ok.1 ho
      obtain ⟨-, rfl⟩ := Scope.checkAddress_eq_ok.1 hb
      obtain ⟨cell, hcell, -⟩ := Option.map_eq_some_iff.1 (hs.named hn).1
      have hvalue : s.solver.value? a = some cell.value := by
        rw [value?, hcell]
        rfl
      have hget : s.getName n = .ok cell.value := by
        rw [getName, Allocator.nameAddress_eq_ok.2 hn]
        change (s.solver.value a).mapError _ = _
        rw [LeastSquares.value, hcell]
        rfl
      refine ⟨.value cell.value, by simp only [reading?, hslot, hv, hget]; rfl, ?_⟩
      rw [← hx (hpl hvalue)]
      exact .address a
  | truth hslot hv =>
      obtain rfl := ha
      rw [hslot] at ho
      cases ho
  | @ref q g j base hslot hv hg hj hbase =>
      obtain rfl := ha
      rw [hslot] at ho
      obtain ⟨b, hb, rfl⟩ := map_eq_ok.1 ho
      obtain ⟨-, rfl⟩ := Scope.checkAddress_eq_ok.1 hb
      have hgeo := Index.geometryAt?_eq_some.2 hg
      have hkey : g.id = q.target := hs.key hg
      have hlt : j < g.shape.scalars.length := by
        rw [Shape.scalars_length]
        exact GeometryClass.offset?_lt hj
      have hvalue := hm.value hgeo (hkey ▸ hbase) (List.getElem?_eq_getElem hlt)
      have hprop : g.shape.get? q.property = some g.shape.scalars[j] := by
        rw [Shape.get?, show g.shape.geometryClass.offset? q.property = some j from hj,
          Option.bind_some, List.getElem?_eq_getElem hlt]
      refine ⟨.value g.shape.scalars[j], ?_, ?_⟩
      · simp only [reading?, hslot, hv, hgeo]
        change (g.shape.get? q.property).map _ = _
        rw [hprop]
        rfl
      · rw [← hx (hpl hvalue)]
        exact .address _
  | @geometry k v id g r hslot hv hid hg hk hrec =>
      cases a <;> try exact False.elim ha
      case geometry handle =>
        rw [hslot] at ho
        obtain ⟨r', hr', rfl⟩ := map_eq_ok.1 ho
        obtain rfl : r = r' :=
          Option.some.inj (ha.2.symm.trans (Scope.checkHandle_eq_ok.1 hr').1)
        have hfigure := hm.figure hs.toAnchored hb hg hrec fun hv => hx (hpl hv)
        refine ⟨.figure (r.figureAt x), ?_, .record r⟩
        simp only [reading?, hslot, hv, hid]
        change (do
          let g ← s.index.geometryAt? id
          (s.index.figure? g.shape).map Reading.figure) = _
        rw [Index.geometryAt?_eq_some.2 hg, Option.bind_eq_bind, Option.bind_some, hfigure]
        rfl
  | @number v hslot hv =>
      obtain rfl := ha
      rw [hslot] at ho
      by_cases hk : c.kind = .perpendicularArc2arc
      · simp only [Scope.operand, hk, if_true, Except.ok.injEq] at ho
        subst ho
        exact ⟨_, by simp only [reading?, hslot, hv, hk, if_true], .flag _⟩
      · simp only [Scope.operand, hk, if_false, Except.ok.injEq] at ho
        subst ho
        exact ⟨_, by simp only [reading?, hslot, hv, hk, if_false], .number _⟩
  | @flag b hslot hv =>
      obtain rfl := ha
      rw [hslot] at ho
      by_cases hk : c.kind = .perpendicularArc2arc
      · simp only [Scope.operand, hk, if_true, Except.ok.injEq] at ho
        subst ho
        exact ⟨_, by simp only [reading?, hslot, hv], .flag _⟩
      · simp [Scope.operand, hk] at ho

theorem exists_mapM {β γ δ : Type} {R : β → γ → Prop} {Q : γ → δ → Prop} {f : β → Option δ}
    {ps : List β} {os : List γ} (h : List.Forall₂ R ps os)
    (hf : ∀ p ∈ ps, ∀ o, R p o → ∃ r, f p = some r ∧ Q o r) :
    ∃ rs, ps.mapM f = some rs ∧ List.Forall₂ Q os rs := by
  induction h with
  | nil => exact ⟨[], rfl, .nil⟩
  | @cons p o ps os hpo _ ih =>
      obtain ⟨r, hr, hq⟩ := hf p List.mem_cons_self o hpo
      obtain ⟨rs, hrs, hqs⟩ := ih fun p hp => hf p (List.mem_cons_of_mem _ hp)
      refine ⟨r :: rs, ?_, .cons hq hqs⟩
      rw [List.mapM_cons, hr, hrs]
      rfl

theorem Mirrored.push (hs : Sound s) (hm : Mirrored s) (hb : s.index.BuiltOnPoints)
    {c : Constraint α} {tag : Int} {outputs : Outputs} {t : LeastSquares α}
    (hpush : c.push s.index s.allocator s.solver tag = (.ok outputs, t)) :
    ∃ e, t.entries = s.solver.entries ++ [e] ∧ e.tag = tag ∧ e.driving = c.isDriving ∧
      e.scale = c.scaleOrDefault ∧
      (c.kind.userParams.mapM (s.reading? c)).bind c.kind.formula =
        some (e.equation.residuals (System.read t.values)) := by
  obtain ⟨literals, pl, hcont, hrest⟩ := c.push_outcome s.index s.allocator s.solver tag
  rcases hrest with ⟨e, herror, -⟩ | ⟨-, ⟨e, herror, -⟩ | ⟨os, eq, hok, -, hos, heq⟩⟩
  · cases hpush.symm.trans herror
  · cases hpush.symm.trans herror
  · cases hpush.symm.trans hok
    refine ⟨⟨tag, c.isDriving, c.scaleOrDefault, eq, List.range' s.solver.size literals.length⟩,
      ?_, rfl, rfl, rfl, ?_⟩
    · rw [hcont.grown.entries, List.append_nil]
    · -- the literals are appended, and the handles hold no values
      have hpl : ∀ {a v}, s.solver.value? a = some v → pl.solver.value? a = some v := by
        intro a v hv
        rw [hcont.grown.value?_old (value?_isSome.1 (by rw [hv]; rfl))]
        exact hv
      have hx : ∀ {a v}, pl.solver.value? a = some v →
          System.read pl.close.values a = v := by
        intro a v hv
        refine read_values ?_
        rw [Placement.close_eq]
        exact hv
      obtain ⟨rs, hrs, hreads⟩ := exists_mapM hos fun p hp o ho =>
        hm.reads hs hb hpl hx (c.kind.userParams_isUserData p hp) ho
      rw [hrs, Option.bind_some]
      refine Equation.formula_eq_residuals ?_ hreads heq
      exact hos.imp fun p o ⟨_, _, _, ho⟩ => Scope.operand_suits ho

/-- As long as no solution has been applied, a constraint that is taken stores one equation. It
reads off the solver what the formula of its kind reads off the sketch. -/
theorem Unapplied.push_formula (h : Unapplied s) (hb : s.index.BuiltOnPoints) {c : Constraint α}
    {tag : Int} (hpush : s.push (.constraint c) = (.ok (), t) ∧ tag = c.id.val.toNat ∨
      s.pushExtra c = (.ok (), t) ∧ tag = -1) :
    ∃ e, t.solver.entries = s.solver.entries ++ [e] ∧ e.tag = tag ∧ e.driving = c.isDriving ∧
      e.scale = c.scaleOrDefault ∧
      (c.kind.userParams.mapM (s.reading? c)).bind c.kind.formula =
        some (e.equation.residuals (System.read t.solver.values)) := by
  have hs := h.reachable.sound
  rcases hpush with ⟨hpush, rfl⟩ | ⟨hpush, rfl⟩
  · rcases push_guard s (.constraint c) with ⟨e, hsame⟩ | ⟨hid, hc⟩
    · cases hpush.symm.trans hsame
    rcases pushConstraint_cases hid hc with ⟨e, -, hsame⟩ |
      ⟨tag, htag, ⟨e, -, hsame⟩ | ⟨outputs, u, houtputs, hok, hsolver, -, -⟩⟩
    · cases hpush.symm.trans hsame
    · cases hpush.symm.trans hsame
    · cases hpush.symm.trans hok
      rw [hsolver]
      rw [← (Oid.tag_eq_ok.1 htag).2]
      exact h.mirrored.push hs hb (Prod.ext houtputs rfl)
  · unfold pushExtra at hpush
    split at hpush
    · rcases hcall : c.push s.index s.allocator s.solver extraTag with ⟨e | outputs, u⟩ <;>
        rw [hcall] at hpush
      · cases hpush
      · cases hpush
        exact h.mirrored.push hs hb hcall
    · cases hpush

/-- The abscissa of the free point is the width. -/
def xIsWidth : Constraint Float :=
  { Constraint.new ⟨3⟩ .equal with
    params := .ofList [("param1", .ref ⟨⟨1⟩, .x⟩), ("param2", .name "width")] }

theorem formula_xIsWidth :
    ∃ e, (smallSession.push (.constraint xIsWidth)).2.solver.entries = [e] ∧ e.tag = 3 ∧
      e.equation.residuals
        (System.read (smallSession.push (.constraint xIsWidth)).2.solver.values) = [1.0 - 3.0] := by
  have h : Unapplied smallSession :=
    .perform (.perform (.new _) (.pushAll _) nofun) (.pushName _ _) nofun
  have hok : (smallSession.push (.constraint xIsWidth)).1 = .ok () := rfl
  obtain ⟨e, hentries, htag, -, -, hformula⟩ :=
    h.push_formula builtOnPoints_smallSession (.inl ⟨Prod.ext hok rfl, rfl⟩)
  have hreadings : (xIsWidth.kind.userParams.mapM (smallSession.reading? xIsWidth)).bind
      xIsWidth.kind.formula = some [1.0 - 3.0] := rfl
  refine ⟨e, hentries, htag, ?_⟩
  exact Option.some.inj (hformula.symm.trans hreadings)

end Session

end PlanarSketch
