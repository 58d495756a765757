import PlanarSketch.Proofs.Session.Resolution
import PlanarSketch.Proofs.Session.Run

/-!
What a push of a constraint looks up. The ids and names that a constraint lists are all that it
depends on: in two sketches that agree on these, whatever else they hold, it is pushed with the same
result and leaves the same solver. A push that goes through has found every one of them.
-/

namespace PlanarSketch

variable {α : Type}

theorem Shape.mapM_congr {π ρ β : Type} {m : Type → Type} [Monad m] {f f' : π → m ρ}
    (own : Nat → m β) (s : Shape π α) (h : ∀ p ∈ s.points, f p = f' p) :
    s.mapM f own = s.mapM f' own := by
  cases s <;> simp only [points, List.forall_mem_cons, List.not_mem_nil, false_imp_iff,
    implies_true, and_true] at h <;> simp only [mapM, h]

theorem Layout.record_congr {al al' : Allocator} {g : Geometry α}
    (hblock : al.address g.id = al'.address g.id)
    (hpoints : ∀ p ∈ g.points, al.address p = al'.address p) : record al g = record al' g := by
  rw [record, record, hblock]
  refine Shape.mapM_congr _ g.shape fun p hp => ?_
  rw [pointAddress, pointAddress, hpoints p hp]

theorem Layout.propertyAddress_congr {al al' : Allocator} {g : Geometry α} (p : Property)
    (hblock : al.address g.id = al'.address g.id) :
    propertyAddress al g p = propertyAddress al' g p := by
  rw [propertyAddress, propertyAddress, hblock]

/-- A parameter that carries data of the constraint is one that its kind names. -/
theorem Kind.mem_userParams {k : Kind} {p : ParamSpec} :
    p ∈ k.userParams ↔ p ∈ k.schema ∧ p.isUserData := by
  rw [← filter_schema, List.mem_filter]

namespace Constraint

theorem mem_referencedNames {c : Constraint α} {p : ParamSpec} {n : String}
    (hp : p ∈ c.kind.userParams) (hv : c.param? p.name = some (.name n)) :
    n ∈ c.referencedNames :=
  List.mem_filterMap.2 ⟨p, hp, by rw [paramNameOf?, hv]⟩

theorem referenced_congr {x x' : Index α} {id : Oid} (h : x.get? id = x'.get? id) :
    referenced x id = referenced x' id := by
  rw [referenced, referenced, Index.get, Index.get, h]

variable [Scalar α]

/-- Two sketches hold the same under the ids that a constraint lists, and have it in the same
places, as they have the names that it lists. -/
structure AgreeOn (c : Constraint α) (x : Index α) (al : Allocator) (x' : Index α)
    (al' : Allocator) : Prop where
  primitives : ∀ id ∈ c.referencedIds, x.get? id = x'.get? id
  blocks : ∀ id ∈ c.referencedIds, ∀ g, x.get? id = some (.geometry g) →
    al.address g.id = al'.address g.id
  points : ∀ id ∈ c.referencedIds, ∀ g, x.get? id = some (.geometry g) →
    ∀ p ∈ g.points, al.address p = al'.address p
  names : ∀ n ∈ c.referencedNames, al.nameAddress n = al'.nameAddress n

variable {c : Constraint α} {x x' : Index α} {al al' : Allocator} {tag : Int} {p : ParamSpec}

theorem mem_referencedIds_of_ref {r : PropertyRef} (hp : p ∈ c.kind.userParams)
    (hv : c.param? p.name = some (.ref r)) (hs : p.slot = .value) : r.target ∈ c.referencedIds :=
  List.mem_filterMap.2 ⟨p, hp, by rw [idOf?, hs, hv]⟩

theorem mem_referencedIds_of_slot {k : GeometryClass} {v : ParamValue α} {id : Oid}
    (hp : p ∈ c.kind.userParams) (hs : p.slot = .geometry k) (hv : c.param? p.name = some v)
    (hid : v.toOid? = some id) : id ∈ c.referencedIds :=
  List.mem_filterMap.2 ⟨p, hp, by rw [idOf?, hs, hv]; exact hid⟩

theorem AgreeOn.resolveValue_eq (h : c.AgreeOn x al x' al') (hp : p ∈ c.kind.userParams)
    (hs : p.slot = .value) {v : ParamValue α} (hv : c.param? p.name = some v) :
    resolveValue x al v = resolveValue x' al' v := by
  cases v with
  | number v => rfl
  | bool b => rfl
  | name n => rw [resolveValue, resolveValue, h.names n (mem_referencedNames hp hv)]
  | ref r =>
      have hid := mem_referencedIds_of_ref hp hv hs
      rw [resolveValue, resolveValue, ← referenced_congr (h.primitives _ hid)]
      cases hg : referenced x r.target with
      | error e => rfl
      | ok g =>
          rw [ok_bind, ok_bind,
            Layout.propertyAddress_congr _ (h.blocks _ hid g (referenced_eq_ok.1 hg))]

theorem AgreeOn.resolveGeometry_eq (h : c.AgreeOn x al x' al') (hp : p ∈ c.kind.userParams)
    {k : GeometryClass} (hs : p.slot = .geometry k) {v : ParamValue α}
    (hv : c.param? p.name = some v) :
    resolveGeometry x al c p k v = resolveGeometry x' al' c p k v := by
  unfold resolveGeometry
  cases hoid : v.toOid? with
  | none => rfl
  | some id =>
      have hid := mem_referencedIds_of_slot hp hs hv hoid
      dsimp only
      rw [← referenced_congr (h.primitives id hid)]
      cases hg : referenced x id with
      | error e => rfl
      | ok g =>
          have hget := referenced_eq_ok.1 hg
          rw [ok_bind, ok_bind,
            Layout.record_congr (h.blocks id hid g hget) (h.points id hid g hget)]

/-- Each parameter of the schema resolves to the same, or fails for the same reason. -/
theorem AgreeOn.resolve_eq (h : c.AgreeOn x al x' al') (tag : Int) (hp : p ∈ c.kind.schema) :
    c.resolve x al tag p = c.resolve x' al' tag p := by
  have huser : p.isUserData → p ∈ c.kind.userParams := fun hdata =>
    Kind.mem_userParams.2 ⟨hp, hdata⟩
  cases hs : p.slot with
  | tag => simp only [resolve, hs]
  | driving => simp only [resolve, hs]
  | alignment => simp only [resolve, hs]
  | raw => simp only [resolve, hs]
  | value =>
      simp only [resolve, hs, required]
      cases hv : c.param? p.name with
      | none => rfl
      | some v => exact h.resolveValue_eq (huser (by rw [ParamSpec.isUserData, hs])) hs hv
  | geometry k =>
      simp only [resolve, hs, required]
      cases hv : c.param? p.name with
      | none => rfl
      | some v => exact h.resolveGeometry_eq (huser (by rw [ParamSpec.isUserData, hs])) hs hv

/-- What resolves has found the id that its parameter stands for. -/
theorem Resolves.indexed {r : Resolved α} {id : Oid} (h : Resolves x al c tag p r)
    (hp : p ∈ c.kind.userParams) (hid : c.idOf? p = some id) :
    ∃ g, x.get? id = some (.geometry g) := by
  have hdata := c.kind.userParams_isUserData p hp
  cases h with
  | tag hs | driving hs | alignment hs => simp [ParamSpec.isUserData, hs] at hdata
  | literal hs hv | name hs hv _ | truth hs hv | number hs hv | flag hs hv =>
      simp [idOf?, hs, hv] at hid
  | ref hs hv hg _ _ =>
      simp only [idOf?, hs, hv, Option.some.injEq] at hid
      exact ⟨_, hid ▸ hg⟩
  | geometry hs hv hoid hg _ _ =>
      simp only [idOf?, hs, hv, hoid, Option.some.injEq] at hid
      exact ⟨_, hid ▸ hg⟩

/-- What resolves has found the name that its parameter gives. -/
theorem Resolves.bound {r : Resolved α} {n : String} (h : Resolves x al c tag p r)
    (hp : p ∈ c.kind.userParams) (hn : c.param? p.name = some (.name n)) :
    ∃ a, al.names.find? n = some a := by
  have hdata := c.kind.userParams_isUserData p hp
  cases h with
  | tag hs | driving hs | alignment hs => simp [ParamSpec.isUserData, hs] at hdata
  | literal hs hv | truth hs hv | ref hs hv _ _ _ | number hs hv | flag hs hv =>
      cases hv.symm.trans hn
  | name hs hv ha =>
      cases hv.symm.trans hn
      exact ⟨_, ha⟩
  | geometry hs hv hoid hg _ _ =>
      cases hv.symm.trans hn
      -- a name is no id
      cases hoid

end Constraint

namespace Placement

variable {σ : Type} [Solver σ α] [Scalar α] {x x' : Index α} {al al' : Allocator}
  {c : Constraint α} {tag : Int}

theorem placeAll_congr {ps : List ParamSpec} (pl : Placement σ)
    (h : ∀ p ∈ ps, c.resolve x al tag p = c.resolve x' al' tag p) :
    placeAll x al c tag ps pl = placeAll x' al' c tag ps pl := by
  induction ps generalizing pl with
  | nil => rfl
  | cons p ps ih =>
      rw [placeAll, placeAll, h p List.mem_cons_self]
      cases c.resolve x' al' tag p with
      | error e => rfl
      | ok r =>
          dsimp only
          rcases pl.place c.isDriving p.name r with ⟨e | a, pl'⟩
          · rfl
          · dsimp only
            rw [ih pl' fun q hq => h q (List.mem_cons_of_mem p hq)]

theorem resolve_of_placeAll {ps : List ParamSpec} {pl pl' : Placement σ} {as : List (Arg α)}
    (h : placeAll x al c tag ps pl = (.ok as, pl')) :
    ∀ p ∈ ps, ∃ r, c.resolve x al tag p = .ok r := by
  induction ps generalizing pl pl' as with
  | nil => nofun
  | cons p ps ih =>
      rw [placeAll] at h
      cases hr : c.resolve x al tag p with
      | error e =>
          rw [hr] at h
          cases h
      | ok r =>
          rw [hr] at h
          dsimp only at h
          rcases hplace : pl.place c.isDriving p.name r with ⟨e | a, pl₁⟩
          · rw [hplace] at h
            cases h
          · rw [hplace] at h
            dsimp only at h
            rcases hrest : placeAll x al c tag ps pl₁ with ⟨e | as', pl₂⟩
            · rw [hrest] at h
              cases h
            · intro q hq
              rcases List.mem_cons.1 hq with rfl | hq
              · exact ⟨r, hr⟩
              · exact ih hrest q hq

end Placement

namespace Constraint

variable {σ : Type} [Solver σ α] [Scalar α]

theorem resolve_of_push {c : Constraint α} {x : Index α} {al : Allocator} {s t : σ} {tag : Int}
    {outputs : Outputs} (h : c.push x al s tag = (.ok outputs, t)) :
    ∀ p ∈ c.kind.schema, ∃ r, c.resolve x al tag p = .ok r := by
  rw [push] at h
  rcases hall : Placement.placeAll x al c tag c.kind.schema ⟨s, [], []⟩ with ⟨e | as, pl⟩
  · rw [hall] at h
    cases h
  · exact Placement.resolve_of_placeAll hall

/-- A constraint is pushed in the same way in all sketches that agree on the ids and names that it
lists, and only where each of these ids is that of a geometry and each of these names is bound. -/
theorem push_depends (c : Constraint α) (x : Index α) (al : Allocator) (s : σ) (tag : Int) :
    (∀ x' al', c.AgreeOn x al x' al' → c.push x al s tag = c.push x' al' s tag) ∧
      ∀ outputs t, c.push x al s tag = (.ok outputs, t) →
        (∀ id ∈ c.referencedIds, ∃ g, x.get? id = some (.geometry g)) ∧
          ∀ n ∈ c.referencedNames, ∃ a, al.nameAddress n = .ok a := by
  refine ⟨fun x' al' hagree => ?_, fun outputs t hpush => ⟨fun id hid => ?_, fun n hn => ?_⟩⟩
  · rw [push, push, Placement.placeAll_congr _ fun p hp => hagree.resolve_eq tag hp]
  · obtain ⟨p, hp, hof⟩ := List.mem_filterMap.1 hid
    obtain ⟨r, hr⟩ := resolve_of_push hpush p (Kind.mem_userParams.1 hp).1
    exact (resolves_of_ok hr).indexed hp hof
  · obtain ⟨p, hp, hof⟩ := List.mem_filterMap.1 hn
    obtain ⟨r, hr⟩ := resolve_of_push hpush p (Kind.mem_userParams.1 hp).1
    have hv : c.param? p.name = some (.name n) := by
      unfold paramNameOf? at hof
      split at hof
      · next hv => rw [hv, Option.some.inj hof]
      · cases hof
    obtain ⟨a, ha⟩ := (resolves_of_ok hr).bound hp hv
    exact ⟨a, Allocator.nameAddress_eq_ok.2 ha⟩

end Constraint

namespace Session

/-- Two points at a distance that has a name. -/
def distanceIsWidth : Constraint Float :=
  { Constraint.new ⟨7⟩ .p2pDistance with
    params := .ofList [("p1_id", .number 1.0), ("p2_id", .number 2.0), ("distance", .name "width")] }

/-- The same points and name among others. -/
def crowdedSession : Session (LeastSquares Float) Float :=
  (smallSession.perform (.pushAll
    [.geometry ⟨⟨3⟩, .circle ⟨2⟩ 5.0⟩, .geometry ⟨⟨4⟩, .line ⟨1⟩ ⟨2⟩⟩])).perform
    (.pushName "height" 4.0)

theorem push_distanceIsWidth :
    distanceIsWidth.referencedIds = [⟨1⟩, ⟨2⟩] ∧
    distanceIsWidth.referencedNames = ["width"] ∧
    crowdedSession.index.ids = [⟨1⟩, ⟨2⟩, ⟨3⟩, ⟨4⟩] ∧
    distanceIsWidth.push smallSession.index smallSession.allocator smallSession.solver 7 =
      distanceIsWidth.push crowdedSession.index crowdedSession.allocator smallSession.solver 7 ∧
    (distanceIsWidth.push smallSession.index smallSession.allocator smallSession.solver 7).1 =
      .ok [] ∧
    ∃ a, smallSession.allocator.nameAddress "width" = .ok a := by
  have hids : distanceIsWidth.referencedIds = [⟨1⟩, ⟨2⟩] := by decide +kernel
  have hnames : distanceIsWidth.referencedNames = ["width"] := by decide +kernel
  have hagree : distanceIsWidth.AgreeOn smallSession.index smallSession.allocator
      crowdedSession.index crowdedSession.allocator := by
    constructor
    · rw [hids, List.forall_mem_cons, List.forall_mem_singleton]
      exact ⟨rfl, rfl⟩
    · rw [hids, List.forall_mem_cons, List.forall_mem_singleton]
      constructor <;>
      · rintro g ⟨⟩
        rfl
    · rw [hids, List.forall_mem_cons, List.forall_mem_singleton]
      constructor <;>
      · rintro g ⟨⟩ p hp
        cases hp
    · rw [hnames, List.forall_mem_singleton]
      rfl
  have hok : (distanceIsWidth.push smallSession.index smallSession.allocator
      smallSession.solver 7).1 = .ok [] := by decide +kernel
  obtain ⟨hsame, hfound⟩ := distanceIsWidth.push_depends smallSession.index
    smallSession.allocator smallSession.solver 7
  refine ⟨hids, hnames, rfl, hsame _ _ hagree, hok, ?_⟩
  exact (hfound [] _ (Prod.ext hok rfl)).2 "width" (by rw [hnames]; exact List.mem_singleton.2 rfl)

end Session

end PlanarSketch
