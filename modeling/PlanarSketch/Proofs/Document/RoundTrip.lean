import Mathlib.Data.List.Nodup
import PlanarSketch.Proofs.Document.Records

/-!
Documents and all that they are made of, written and read back. Nothing is lost as long as every
number is finite and no parameter of a constraint has the name of one of its own members. The
variants are told apart by their tags: no kind of constraint has the name of a class of geometry,
and neither is called a parameter.
-/

namespace PlanarSketch

open Json

variable {α : Type}

/-! ### Names -/

theorem GeometryClass.nodup_memberNames (c : GeometryClass) : ("type" :: c.memberNames).Nodup := by
  cases c <;> decide

namespace Shape

variable {π : Type}

theorem find?_class (s : Shape π α) :
    (GeometryClass.concrete.find? fun c => c.name = s.geometryClass.name) =
      some s.geometryClass := by
  cases s <;> rfl

theorem fixed_of_class_ne {s : Shape π α} (h : s.geometryClass ≠ .point) : s.fixed = false := by
  cases s <;> first | rfl | exact absurd rfl h

theorem scalars_of_ofParts? {c : GeometryClass} {points : List π} {scalars : List α}
    {fixed : Bool} {s : Shape π α} (h : ofParts? c points scalars fixed = some s) :
    s.scalars = scalars := by
  unfold ofParts? at h
  split at h <;> cases h <;> rfl

end Shape

variable [Scalar α]

/-! ### Values -/

theorem roundTrips_oid : RoundTrips (α := α) Oid.toJson toOid? fun _ => True where
  read_write id _ := by
    have hlt : id.val.toNat < UInt32.size := id.val.toNat_lt
    have hread : toOid? (Oid.toJson id : Json α) =
        if id.val.toNat < UInt32.size then some ⟨id.val.toNat.toUInt32⟩ else none := rfl
    rw [hread, if_pos hlt]
    simp
  lossless _ _ _ _ := trivial

theorem roundTrips_bool : RoundTrips (α := α) .bool toBool? fun _ => True where
  read_write _ _ := rfl
  lossless _ _ _ _ := trivial

theorem roundTrips_alignment :
    RoundTrips (α := α) (fun a : Alignment => .ofNat a.code) Alignment.ofJson? fun _ => True where
  read_write a _ := by cases a <;> rfl
  lossless _ _ _ _ := trivial

theorem roundTrips_ref :
    RoundTrips (α := α) PropertyRef.toJson PropertyRef.ofJson? fun _ => True where
  read_write r _ := by
    have hread : PropertyRef.ofJson? (r.toJson : Json α) = (toOid? (r.target.toJson : Json α)).bind
        fun id => (Property.ofName? r.property.name).bind fun p => some ⟨id, p⟩ := rfl
    rw [hread, roundTrips_oid.read_write _ trivial, Property.ofName?_name]
    rfl
  lossless _ _ _ _ := trivial

theorem roundTrips_scalar [Scalar.HoldsWords α] :
    RoundTrips (α := α) ofScalar toScalar? fun x => Scalar.isFinite x = true where
  read_write x hx := by
    rw [ofScalar, if_pos hx]
    rfl
  lossless j x hj hx := by
    cases hj with
    | int low high =>
        cases hx
        exact Scalar.HoldsWords.isFinite_ofInt _ low high
    | real finite =>
        cases hx
        exact finite
    | _ => cases hx

def ParamValue.Lossless : ParamValue α → Prop
  | .number x => Scalar.isFinite x = true
  | _ => True

theorem roundTrips_value [Scalar.HoldsWords α] :
    RoundTrips (α := α) ParamValue.toJson ParamValue.ofJson? ParamValue.Lossless where
  read_write v hv := by
    cases v with
    | bool b => rfl
    | number x =>
        have hx : Scalar.isFinite x = true := hv
        rw [ParamValue.toJson, ofScalar, if_pos hx]
        rfl
    | name s => rfl
    | ref r => exact congrArg (Option.map ParamValue.ref) (roundTrips_ref.read_write r trivial)
  lossless j v hj hv := by
    have href (h : (PropertyRef.ofJson? j).map .ref = some v) : v.Lossless := by
      obtain ⟨r, -, rfl⟩ := Option.map_eq_some_iff.1 h
      trivial
    cases hj with
    | int low high =>
        cases hv
        exact Scalar.HoldsWords.isFinite_ofInt _ low high
    | real finite =>
        cases hv
        exact finite
    | bool b | str s =>
        cases hv
        trivial
    | null | arr elements | obj members_sound => exact href hv

/-! ### Geometry -/

namespace Geometry

def Lossless (g : Geometry α) : Prop := ∀ x ∈ g.shape.scalars, Scalar.isFinite x = true

theorem names_members (g : Geometry α) : names g.members = g.geometryClass.memberNames := by
  obtain ⟨id, shape⟩ := g
  cases shape <;> rfl

theorem ofMembers?_eq (c : GeometryClass) (j : Json α) : ofMembers? c j =
    (record? c.memberNames j).bind fun ms => (get? ms "id").bind fun i => i.toOid?.bind fun id =>
      (c.pointNames.mapM fun n => (get? ms n).bind toOid?).bind fun points =>
        ((c.ownProperties.map Property.name).mapM fun n => (get? ms n).bind toScalar?).bind
          fun scalars => (if c = .point then flag? ms "fixed" else some false).bind fun fixed =>
            (Shape.ofParts? c points scalars fixed).bind fun shape => some ⟨id, shape⟩ := by
  unfold ofMembers?
  by_cases hc : c = .point <;> simp only [hc, if_true, if_false] <;> rfl

variable [Scalar.HoldsWords α]

theorem ofMembers?_members {g : Geometry α} (hg : g.Lossless) :
    ofMembers? g.geometryClass (.obj g.members) = some g := by
  have hnodup : (names g.members).Nodup := by
    rw [names_members]
    exact (List.nodup_cons.1 g.geometryClass.nodup_memberNames).2
  have hid : get? g.members "id" = some g.id.toJson := get?_of_mem hnodup List.mem_cons_self
  have hpoints := roundTrips_oid.mapM_get? g.geometryClass.pointNames g.points hnodup
    g.shape.points_length.symm
    (fun e he => List.mem_cons_of_mem _ (List.mem_append_left _ he)) fun _ _ => trivial
  have hscalars := roundTrips_scalar.mapM_get?
    (g.geometryClass.ownProperties.map Property.name) g.shape.scalars hnodup
    (by rw [List.length_map]; exact g.shape.scalars_length.symm)
    (fun e he => List.mem_cons_of_mem _ (List.mem_append_right _ (List.mem_append_left _ he))) hg
  have hfixed : (if g.geometryClass = .point then flag? g.members "fixed" else some false) =
      some g.shape.fixed := by
    by_cases hc : g.geometryClass = .point
    · have hmem : ("fixed", .bool g.shape.fixed) ∈ g.members := by
        rw [members, if_pos hc]
        exact List.mem_cons_of_mem _ (List.mem_append_right _ (List.mem_append_right _
          List.mem_cons_self))
      rw [if_pos hc, flag?, get?_of_mem hnodup hmem]
      rfl
    · rw [if_neg hc, Shape.fixed_of_class_ne hc]
  rw [ofMembers?_eq, record?_obj hnodup]
  simp only [Option.bind_some, hid, roundTrips_oid.read_write _ trivial, hpoints, hscalars, hfixed]
  rw [show Shape.ofParts? g.geometryClass g.points g.shape.scalars g.shape.fixed = some g.shape from
    g.shape.ofParts?_parts]
  rfl

theorem roundTrips_ofTagged? (byPlace : Bool) :
    RoundTrips (α := α) toJson (ofTagged? byPlace) Lossless where
  read_write g hg := by
    have hnodup : (names (("type", .str g.geometryClass.name) :: g.members)).Nodup := by
      have hnames : names (("type", .str g.geometryClass.name) :: g.members) =
          "type" :: g.geometryClass.memberNames := congrArg _ g.names_members
      rw [hnames]
      exact g.geometryClass.nodup_memberNames
    have hvariant : (Json.str (α := α) g.geometryClass.name).variant? byPlace GeometryClass.name
        GeometryClass.concrete = some g.geometryClass := g.shape.find?_class
    rw [ofTagged?, toJson, tagged?_obj hnodup]
    simp only [Option.bind_eq_bind, Option.bind_some, hvariant]
    exact ofMembers?_members hg
  lossless j g hj hg := by
    simp only [ofTagged?, ofMembers?_eq, Option.bind_eq_bind, Option.bind_eq_some_iff] at hg
    obtain ⟨⟨tag, rest⟩, htag, c, -, ms, hms, i, -, id, -, points, -, scalars, hscalars, fixed, -,
      shape, hshape, heq⟩ := hg
    cases heq
    rw [Lossless, Shape.scalars_of_ofParts? hshape]
    exact roundTrips_scalar.lossless_mapM (sound_record? (sound_tagged? hj htag) hms) hscalars

end Geometry

/-! ### Constraints -/

structure Constraint.Lossless (c : Constraint α) : Prop where
  scale : ∀ x ∈ c.scale, Scalar.isFinite x = true
  names : ∀ e ∈ c.params.entries, e.1 ∉ Constraint.ownNames
  values : ∀ e ∈ c.params.entries, e.2.Lossless

namespace Constraint

/-- The members of a constraint besides its parameters. -/
def ownMembers (c : Constraint α) : List (String × Json α) :=
  ("id", c.id.toJson) :: ("type", .str c.kind.name) ::
    (optionalMember "driving" .bool c.driving ++ optionalMember "scale" .ofScalar c.scale ++
      optionalMember "internalalignment" (fun a => .ofNat a.code) c.alignment)

def paramMembers (c : Constraint α) : List (String × Json α) :=
  c.params.entries.map fun e => (e.1, e.2.toJson)

theorem toJson_eq (c : Constraint α) : c.toJson = .obj (c.ownMembers ++ c.paramMembers) := by
  simp [toJson, ownMembers, paramMembers]

theorem names_ownMembers (c : Constraint α) : (names c.ownMembers).Sublist ownNames := by
  refine .cons_cons _ (.cons_cons _ ?_)
  change (Json.names (_ ++ _)).Sublist _
  rw [names_append, names_append]
  exact ((names_optionalMember ..).append (names_optionalMember ..)).append
    (names_optionalMember ..)

theorem names_paramMembers (c : Constraint α) :
    names c.paramMembers = c.params.entries.map Prod.fst :=
  List.map_map

variable {c : Constraint α}

theorem Lossless.nodup (hc : c.Lossless) : (Json.names (c.ownMembers ++ c.paramMembers)).Nodup := by
  have hparams : (Json.names c.paramMembers).Nodup := by
    rw [names_paramMembers, List.Nodup, List.pairwise_map]
    refine c.params.sorted.imp fun {a b} hlt heq => ?_
    rw [heq] at hlt
    exact String.lt_irrefl _ hlt
  rw [names_append]
  refine List.Nodup.append (c.names_ownMembers.nodup (by decide)) hparams fun name hown hparam => ?_
  rw [names_paramMembers] at hparam
  obtain ⟨e, he, rfl⟩ := List.mem_map.1 hparam
  exact hc.names e he (c.names_ownMembers.subset hown)

theorem get?_ownMembers (c : Constraint α) :
    get? c.ownMembers "id" = some c.id.toJson ∧
    get? c.ownMembers "type" = some (.str c.kind.name) ∧
    get? c.ownMembers "driving" = c.driving.map .bool ∧
    get? c.ownMembers "scale" = c.scale.map .ofScalar ∧
    get? c.ownMembers "internalalignment" = c.alignment.map fun a => .ofNat a.code := by
  simp [ownMembers, get?_cons, get?_append, get?_optionalMember]

/-- A parameter is not taken for a member of the constraint's own. -/
theorem Lossless.get?_own (hc : c.Lossless) {name : String} (hname : name ∈ ownNames) :
    get? (c.ownMembers ++ c.paramMembers) name = get? c.ownMembers name := by
  have hno : name ∉ Json.names c.paramMembers := by
    rw [names_paramMembers]
    intro hparam
    obtain ⟨e, he, rfl⟩ := List.mem_map.1 hparam
    exact hc.names e he hname
  rw [get?_append, get?_eq_none hno, Option.or_none]

theorem Lossless.filter_params (hc : c.Lossless) :
    (c.ownMembers ++ c.paramMembers).filter (fun e => !ownNames.contains e.1) = c.paramMembers := by
  have hown : c.ownMembers.filter (fun e => !ownNames.contains e.1) = [] := by
    rw [List.filter_eq_nil_iff]
    intro e he
    have hname : e.1 ∈ ownNames := c.names_ownMembers.subset (List.mem_map_of_mem he)
    simpa using hname
  have hparams : c.paramMembers.filter (fun e => !ownNames.contains e.1) = c.paramMembers := by
    rw [List.filter_eq_self]
    intro e he
    obtain ⟨e', he', rfl⟩ := List.mem_map.1 he
    simpa using hc.names e' he'
  rw [List.filter_append, hown, hparams, List.nil_append]

end Constraint

theorem roundTrips_constraint [Scalar.HoldsWords α] :
    RoundTrips (α := α) Constraint.toJson Constraint.ofJson? Constraint.Lossless where
  read_write c hc := by
    obtain ⟨hid, hkind, hdriving, hscale, halignment⟩ := c.get?_ownMembers
    rw [← hc.get?_own (by decide)] at hid hkind hdriving hscale halignment
    have hparams : c.paramMembers.mapM (fun e => (ParamValue.ofJson? e.2).map fun v => (e.1, v)) =
        some c.params.entries := by
      rw [mapM_eq_some_iff, Constraint.paramMembers, List.forall₂_map_left_iff, List.forall₂_same]
      intro e he
      rw [roundTrips_value.read_write _ (hc.values e he)]
      rfl
    rw [Constraint.toJson_eq, Constraint.ofJson?, record?_obj hc.nodup]
    simp only [Option.bind_eq_bind, Option.bind_some, hid, hkind,
      roundTrips_oid.read_write _ trivial, Kind.ofJson?, toStr?, Kind.ofName?_name,
      roundTrips_bool.optional hdriving rfl fun _ _ => trivial,
      roundTrips_scalar.optional hscale rfl hc.scale,
      roundTrips_alignment.optional halignment rfl fun _ _ => trivial,
      hc.filter_params, hparams, NameMap.ofList_entries]
    rfl
  lossless j c hj hc := by
    cases hj with
    | obj members_sound =>
        simp only [Constraint.ofJson?, Option.bind_eq_bind, Option.bind_eq_some_iff] at hc
        obtain ⟨ms, hms, -, -, id, -, -, -, kind, -, driving, -, scale, hscale, alignment, -,
          params, hparams, heq⟩ := hc
        cases heq
        have hsound := sound_record? (.obj members_sound) hms
        have hentries := forall_of_mapM (P := fun e => e.1 ∉ Constraint.ownNames ∧ e.2.Lossless)
          hparams ?_
        · exact ⟨roundTrips_scalar.lossless_optional hsound hscale,
            fun e he => (hentries e (NameMap.mem_ofList he)).1,
            fun e he => (hentries e (NameMap.mem_ofList he)).2⟩
        · intro e he e' heq
          obtain ⟨hmem, hname⟩ := List.mem_filter.1 he
          obtain ⟨v, hv, rfl⟩ := Option.map_eq_some_iff.1 heq
          exact ⟨by simpa using hname, roundTrips_value.lossless _ v (hsound e hmem) hv⟩
    | _ => cases hc

/-! ### Primitives -/

theorem GeometryClass.name_ne_kind (k : Kind) : ∀ c ∈ concrete, c.name ≠ k.name := by
  cases k <;> decide

namespace Primitive

def Lossless : Primitive α → Prop
  | .geometry g => g.Lossless
  | .constraint c => c.Lossless

theorem exists_tag {p : Primitive α} (hp : p.Lossless) :
    ∃ members, p.toJson = .obj members ∧ get? members "type" = some (.str p.sort.name) := by
  cases p with
  | geometry g => exact ⟨_, rfl, get?_cons ("type", _)⟩
  | constraint c =>
      have hc : c.Lossless := hp
      refine ⟨_, c.toJson_eq, ?_⟩
      rw [hc.get?_own (by decide)]
      exact c.get?_ownMembers.2.1

end Primitive

theorem PrimitiveSort.name_ne_param (s : PrimitiveSort) : s.name ≠ "param" := by
  cases s with
  | geometry c => cases c <;> decide
  | constraint k => cases k <;> decide

theorem roundTrips_primitive [Scalar.HoldsWords α] :
    RoundTrips (α := α) Primitive.toJson Primitive.ofJson? Primitive.Lossless where
  read_write p hp := by
    cases p with
    | geometry g =>
        rw [Primitive.ofJson?, show (Primitive.geometry g).toJson = g.toJson from rfl,
          (Geometry.roundTrips_ofTagged? true).read_write g hp]
    | constraint c =>
        obtain ⟨members, hmembers, htag⟩ := Primitive.exists_tag hp
        have hnone : Geometry.ofTagged? true (Primitive.constraint c).toJson = none := by
          rw [hmembers]
          exact variant_eq_none htag (GeometryClass.name_ne_kind c.kind) Geometry.ofMembers?
        rw [Primitive.ofJson?, hnone, show (Primitive.constraint c).toJson = c.toJson from rfl,
          roundTrips_constraint.read_write c hp]
        rfl
  lossless j p hj hp := by
    rw [Primitive.ofJson?] at hp
    split at hp
    · next g hg =>
        cases hp
        exact (Geometry.roundTrips_ofTagged? true).lossless j g hj hg
    · obtain ⟨c, hc, rfl⟩ := Option.map_eq_some_iff.1 hp
      exact roundTrips_constraint.lossless j c hj hc

/-! ### Parameters, objects and documents -/

def NamedParam.Lossless (p : NamedParam α) : Prop := Scalar.isFinite p.value = true

theorem roundTrips_namedParam [Scalar.HoldsWords α] :
    RoundTrips (α := α) NamedParam.toJson NamedParam.ofJson? NamedParam.Lossless where
  read_write p hp := by
    have hread : NamedParam.ofJson? p.toJson =
        (toScalar? (ofScalar p.value)).bind fun x => some ⟨p.name, x⟩ := rfl
    rw [hread, roundTrips_scalar.read_write _ hp]
    rfl
  lossless j p hj hp := by
    simp only [NamedParam.ofJson?, Option.bind_eq_bind, Option.bind_eq_some_iff] at hp
    obtain ⟨ms, hms, -, -, name, -, i, hi, x, hx, heq⟩ := hp
    cases heq
    exact roundTrips_scalar.lossless i x (sound_get? (sound_record? hj hms) hi) hx

def SketchObject.Lossless : SketchObject α → Prop
  | .param p => p.Lossless
  | .primitive p => p.Lossless

theorem roundTrips_object [Scalar.HoldsWords α] :
    RoundTrips (α := α) SketchObject.toJson SketchObject.ofJson? SketchObject.Lossless where
  read_write o ho := by
    cases o with
    | param p =>
        have hread : NamedParam.ofTagged? (SketchObject.param p).toJson =
            NamedParam.ofJson? p.toJson := rfl
        rw [SketchObject.ofJson?, hread, roundTrips_namedParam.read_write p ho]
    | primitive p =>
        obtain ⟨members, hmembers, htag⟩ := Primitive.exists_tag ho
        have hnone : NamedParam.ofTagged? (SketchObject.primitive p).toJson = none := by
          rw [show (SketchObject.primitive p).toJson = p.toJson from rfl, hmembers]
          have hother : ∀ s ∈ ["param"], id s ≠ p.sort.name :=
            fun s hs heq => p.sort.name_ne_param (heq ▸ List.mem_singleton.1 hs)
          exact variant_eq_none htag hother fun _ => NamedParam.ofJson?
        rw [SketchObject.ofJson?, hnone, show (SketchObject.primitive p).toJson = p.toJson from rfl,
          roundTrips_primitive.read_write p ho]
        rfl
  lossless j o hj ho := by
    rw [SketchObject.ofJson?] at ho
    split at ho
    · next p hp =>
        cases ho
        obtain ⟨⟨tag, rest⟩, htag, hp⟩ := Option.bind_eq_some_iff.1 hp
        obtain ⟨-, -, hp⟩ := Option.bind_eq_some_iff.1 hp
        exact roundTrips_namedParam.lossless rest p (sound_tagged? hj htag) hp
    · obtain ⟨p, hp, rfl⟩ := Option.map_eq_some_iff.1 ho
      exact roundTrips_primitive.lossless j p hj hp

structure Document.Lossless (d : Document α) : Prop where
  params : ∀ p ∈ d.params, p.Lossless
  primitives : ∀ p ∈ d.primitives, p.Lossless

theorem Document.ofJson?_eq (j : Json α) : Document.ofJson? j =
    (record? Document.memberNames j).bind fun ms =>
      (match get? ms "params" with
        | some i => i.toArray?.bind (·.mapM NamedParam.ofJson?)
        | none => some []).bind fun params =>
          (get? ms "primitives").bind fun i => (i.toArray?.bind (·.mapM Primitive.ofJson?)).bind
            fun primitives => some ⟨params, primitives⟩ := by
  unfold Document.ofJson?
  simp only [Option.bind_eq_bind]
  congr
  funext ms
  cases get? ms "params" <;> simp [Option.bind_assoc]

theorem roundTrips_document [Scalar.HoldsWords α] :
    RoundTrips (α := α) Document.toJson Document.ofJson? Document.Lossless where
  read_write d hd := by
    have hread : Document.ofJson? d.toJson =
        ((d.params.map NamedParam.toJson).mapM NamedParam.ofJson?).bind fun ps =>
          ((d.primitives.map Primitive.toJson).mapM Primitive.ofJson?).bind fun qs =>
            some ⟨ps, qs⟩ := rfl
    have hparams : (d.params.map NamedParam.toJson).mapM NamedParam.ofJson? = some d.params :=
      roundTrips_namedParam.list.read_write d.params hd.params
    have hprimitives : (d.primitives.map Primitive.toJson).mapM Primitive.ofJson? =
        some d.primitives :=
      roundTrips_primitive.list.read_write d.primitives hd.primitives
    rw [hread, hparams, hprimitives]
    rfl
  lossless j d hj hd := by
    rw [Document.ofJson?_eq] at hd
    obtain ⟨ms, hms, hd⟩ := Option.bind_eq_some_iff.1 hd
    obtain ⟨params, hparams, hd⟩ := Option.bind_eq_some_iff.1 hd
    obtain ⟨i, hi, hd⟩ := Option.bind_eq_some_iff.1 hd
    obtain ⟨primitives, hprimitives, heq⟩ := Option.bind_eq_some_iff.1 hd
    cases heq
    have hsound := sound_record? hj hms
    refine ⟨?_, roundTrips_primitive.list.lossless i primitives (sound_get? hsound hi) hprimitives⟩
    split at hparams
    · next i hi =>
        exact roundTrips_namedParam.list.lossless i params (sound_get? hsound hi) hparams
    · cases hparams
      exact nofun

/-- Whatever has no number but finite ones, and no parameter under the name of a member of its
constraint's own, is read back as it was written. Everything that is ever read from a sound value is
like that, however it was spelled; so a document that has been read stays the same when it is
written and read again. -/
theorem reads_back [Scalar.HoldsWords α] :
    RoundTrips (α := α) Primitive.toJson Primitive.ofJson? Primitive.Lossless ∧
    RoundTrips (α := α) SketchObject.toJson SketchObject.ofJson? SketchObject.Lossless ∧
    RoundTrips (α := α) NamedParam.toJson NamedParam.ofJson? NamedParam.Lossless ∧
    RoundTrips (α := α) Document.toJson Document.ofJson? Document.Lossless ∧
    ∀ (j : Json α) (d : Document α), j.Sound → Document.ofJson? j = some d →
      Document.ofJson? d.toJson = some d :=
  ⟨roundTrips_primitive, roundTrips_object, roundTrips_namedParam, roundTrips_document,
    fun _ _ hj hd => roundTrips_document.stable hj hd⟩

/-- A name, a point and a constraint, all spelled otherwise than they are written. -/
def spelledDocument : Json Float :=
  .arr [.arr [.arr [.str "width", .int 3]], .arr [.arr [.str "point", .int 1, .real 0.5, .int 2],
    .obj [("id", .int 7), ("type", .str "equal"), ("driving", .null), ("param2", .bool true),
      ("param1", .obj [("prop", .str "x"), ("o_id", .int 1)]), ("param2", .str "width")]]]

theorem sound_spelledDocument : spelledDocument.Sound := by
  repeat' first
    | exact List.forall_mem_nil _
    | exact .null
    | exact .bool _
    | exact .str _
    | exact .int (by decide) (by decide)
    | exact .real (by decide +kernel)
    | refine .arr ?_
    | refine .obj ?_
    | refine List.forall_mem_cons.2 ⟨?_, ?_⟩

def smallDocument : Document Float where
  params := [⟨"width", 3.0⟩]
  primitives := [.geometry ⟨⟨1⟩, .point 0.5 2.0 false⟩, .constraint { Constraint.new ⟨7⟩ .equal with
    params := .ofList [("param1", .ref ⟨⟨1⟩, .x⟩), ("param2", .name "width")] }]

theorem reads_back_spelledDocument : Document.ofJson? spelledDocument = some smallDocument ∧
    Document.ofJson? smallDocument.toJson = some smallDocument := by
  have hread : Document.ofJson? spelledDocument = some smallDocument := rfl
  exact ⟨hread, reads_back.2.2.2.2 _ _ sound_spelledDocument hread⟩

end PlanarSketch
