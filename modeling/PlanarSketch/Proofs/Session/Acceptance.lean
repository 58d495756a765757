import PlanarSketch.Proofs.Session.Refusal

/-!
Which constraints a session takes. The parameters are judged in schema order, twice: first whether
each of them can be resolved in the sketch, then whether the solver takes what they resolve to.
The first parameter that fails decides the error.
-/

namespace PlanarSketch

open LeastSquares

variable {α : Type}

namespace Session

/-- Why the solver does not take what a parameter resolves to, when `i` is the parameter's place in
the schema. -/
def untaken? [Scalar α] (s : Session (LeastSquares α) α) (c : Constraint α) (p : ParamSpec)
    (i : Nat) : Option SolverError :=
  match p.slot, c.param? p.name with
  | .value, some (.bool _) => some (.argumentType c.kind i .address)
  | .raw, some (.bool _) =>
      if c.kind = .perpendicularArc2arc then none else some (.argumentType c.kind i .number)
  | .geometry k, some v =>
      match v.toOid?.bind s.index.geometryAt? with
      | none => none
      | some g =>
          if k = .curve → g.geometryClass ∈ [.line, .circle, .arc] then none
          else some (.unsupportedGeometry c.kind g.geometryClass)
  | _, _ => none

/-- How the push of a constraint with an unused id ends. -/
def verdict [Scalar α] (s : Session (LeastSquares α) α) (c : Constraint α) :
    Except SketchError Unit :=
  if c.id.val < 0x80000000 then
    match c.kind.schema.findSome? (s.unresolved? c) with
    | some e => .error e
    | none =>
        match c.kind.schema.zipIdx.findSome? fun p => s.untaken? c p.1 p.2 with
        | some e => .error (.solver e)
        | none => .ok ()
  else .error (.tagOutOfRange c.id)

/-- What a parameter must be for a push to take the constraint. -/
def Suitable [Scalar α] (s : Session (LeastSquares α) α) (c : Constraint α) (p : ParamSpec) :
    Prop :=
  match p.slot with
  | .tag | .driving | .alignment => True
  | .value =>
      (∃ v, c.param? p.name = some (.number v)) ∨
      (∃ n, c.param? p.name = some (.name n) ∧ (s.allocator.names.find? n).isSome) ∨
      ∃ r g, c.param? p.name = some (.ref r) ∧ s.index.get? r.target = some (.geometry g) ∧
        r.property ∈ g.geometryClass.ownProperties
  | .geometry k => ∃ v n g, c.param? p.name = some (.number v) ∧ Scalar.toIndex? v = some n ∧
      s.index.get? ⟨n⟩ = some (.geometry g) ∧ k.accepts g.geometryClass ∧
      (k = .curve → g.geometryClass ∈ [.line, .circle, .arc])
  | .raw =>
      (∃ v, c.param? p.name = some (.number v)) ∨
      (p.name = "reverse1" ∨ p.name = "reverse2") ∧ ∃ b, c.param? p.name = some (.bool b)

/-! ### Taking -/

variable [Scalar α] {s : Session (LeastSquares α) α} {c : Constraint α} {tag : Int} {p : ParamSpec}
  {pl : Placement (LeastSquares α)} {literals : List (String × α)}

theorem operand_address (k : Kind) (i : Nat) {a : Nat} (ha : a < pl.solver.size) :
    ∃ o : Operand α, pl.solver.scope.operand k .value i (.param a) = .ok o ∧
      pl.solver.scope.operand k .value i (.datum a) = .ok o := by
  have hcheck : pl.solver.scope.checkAddress a = .ok a := Scope.checkAddress_eq_ok.2 ⟨ha, rfl⟩
  exact ⟨.address a, by rw [Scope.operand, hcheck]; rfl, by rw [Scope.operand, hcheck]; rfl⟩

theorem operand_geometry (k : Kind) (cl : GeometryClass) (i : Nat) {h : Handle} {q : Record}
    (hq : pl.solver.records.find? h = some q) :
    pl.solver.scope.operand k (.geometry cl) i (.geometry h : Arg α) =
      if Scope.supported cl q then .ok (.record q)
      else .error (.unsupportedGeometry k q.geometryClass) := by
  rw [Scope.operand, Scope.checkHandle, scope, hq]
  dsimp only
  split <;> rfl

/-- What a parameter resolves to is taken by the solver, or refused for the one reason there can
be. -/
theorem Sound.operand_cases (hs : Sound s) (hb : s.index.BuiltOnPoints)
    (hpl : Placement.Continues c.isDriving ⟨s.solver, [], []⟩ literals pl) {a : Arg α}
    (ha : c.Supplies s.index s.allocator tag pl p a) (i : Nat) :
    (∃ e, s.untaken? c p i = some e ∧ pl.solver.scope.operand c.kind p.slot i a = .error e) ∨
      s.untaken? c p i = none ∧ ∃ o, pl.solver.scope.operand c.kind p.slot i a = .ok o := by
  obtain ⟨r, hr, hfits⟩ := ha
  -- literals of other parameters may have come in since
  have hle : s.solver.size ≤ pl.solver.size := by
    rw [hpl.grown.size]
    exact Nat.le_add_right _ _
  cases Constraint.resolves_of_ok hr with
  | tag hslot =>
      obtain rfl : a = .tag tag := hfits
      rw [untaken?, hslot]
      exact .inr ⟨rfl, _, rfl⟩
  | driving hslot =>
      obtain rfl : a = .bool c.isDriving := hfits
      rw [untaken?, hslot]
      exact .inr ⟨rfl, _, rfl⟩
  | alignment hslot =>
      obtain rfl : a = .alignment (c.alignment.getD .free) := hfits
      rw [untaken?, hslot]
      exact .inr ⟨rfl, _, rfl⟩
  | literal hslot hv =>
      rw [untaken?, hslot, hv]
      cases a <;> try exact hfits.elim
      case datum b =>
        have hlt : b < pl.solver.size := value?_isSome.1 (by rw [hfits]; rfl)
        obtain ⟨o, -, ho⟩ := operand_address c.kind i hlt
        exact .inr ⟨rfl, o, ho⟩
  | @name n b hslot hv hname =>
      obtain rfl : a = .param b := hfits
      have hlt : b < s.solver.size := fixed?_isSome.1 (by rw [(hs.named hname).1]; rfl)
      obtain ⟨o, ho, -⟩ := operand_address c.kind i (Nat.lt_of_lt_of_le hlt hle)
      rw [untaken?, hslot, hv]
      exact .inr ⟨rfl, o, ho⟩
  | @truth b hslot hv =>
      obtain rfl : a = .bool b := hfits
      rw [untaken?, hslot, hv]
      exact .inl ⟨_, rfl, rfl⟩
  | @ref r g j base hslot hv hg hj hbase =>
      obtain rfl : a = .param (base + j) := hfits
      have hlt := GeometryClass.offset?_lt hj
      obtain ⟨base', hbase', hsize⟩ := hs.block hg (Nat.lt_of_le_of_lt (Nat.zero_le j) hlt)
      rw [hs.key hg] at hbase
      cases hbase.symm.trans hbase'
      obtain ⟨o, ho, -⟩ := operand_address c.kind i
        (Nat.lt_of_lt_of_le (Nat.add_lt_add_left hlt base) (Nat.le_trans hsize hle))
      rw [untaken?, hslot, hv]
      exact .inr ⟨rfl, o, ho⟩
  | @geometry cl v id g q hslot hv hid hg hcl hq =>
      cases a <;> try exact hfits.elim
      case geometry h =>
        obtain ⟨q', hq', hclass, -⟩ := hs.record_ok hb hg
        cases hq.symm.trans hq'
        rw [← hclass] at hcl
        have hop := operand_geometry c.kind cl i hfits.2
        have hgeometry : v.toOid?.bind s.index.geometryAt? = some g := by
          rw [hid]
          exact Index.geometryAt?_eq_some.2 hg
        simp only [untaken?, hslot, hv, hop, hgeometry, Scope.supported_iff hcl, hclass]
        split
        · exact .inr ⟨rfl, _, rfl⟩
        · exact .inl ⟨_, rfl, rfl⟩
  | number hslot hv =>
      obtain rfl := hfits
      rw [untaken?, hslot, hv]
      refine .inr ⟨rfl, ?_⟩
      by_cases hk : c.kind = .perpendicularArc2arc <;> simp [Scope.operand, hk]
  | flag hslot hv =>
      obtain rfl := hfits
      rw [untaken?, hslot, hv]
      by_cases hk : c.kind = .perpendicularArc2arc
      · exact .inr ⟨by simp [hk], by simp [Scope.operand, hk]⟩
      · exact .inl ⟨.argumentType c.kind i .number, by simp [hk], by simp [Scope.operand, hk]⟩

/-- The solver refuses the first argument that it does not take. -/
theorem Sound.findSome?_of_rejects (hs : Sound s) (hb : s.index.BuiltOnPoints)
    (hpl : Placement.Continues c.isDriving ⟨s.solver, [], []⟩ literals pl) {e : SolverError}
    {i : Nat} {ps : List ParamSpec}
    (h : pl.solver.scope.Rejects c.kind (c.Supplies s.index s.allocator tag pl) e i ps) :
    (ps.zipIdx i).findSome? (fun p => s.untaken? c p.1 p.2) = some e := by
  induction h with
  | here ha he =>
      rcases hs.operand_cases hb hpl ha _ with ⟨e', hsome, he'⟩ | ⟨-, o, ho⟩
      · cases he'.symm.trans he
        rw [List.zipIdx_cons, List.findSome?_cons, hsome]
      · cases ho.symm.trans he
  | later ha ho _ ih =>
      rcases hs.operand_cases hb hpl ha _ with ⟨e', -, he'⟩ | ⟨hnone, -⟩
      · cases he'.symm.trans ho
      · rw [List.zipIdx_cons, List.findSome?_cons, hnone]
        exact ih

/-- The place of a parameter only matters for the error. -/
theorem untaken?_place {i : Nat} (h : s.untaken? c p i = none) (j : Nat) :
    s.untaken? c p j = none := by
  unfold untaken? at h ⊢
  split at h <;> simp_all

theorem findSome?_untaken? {ps : List ParamSpec} {i : Nat} :
    (ps.zipIdx i).findSome? (fun p => s.untaken? c p.1 p.2) = none ↔
      ∀ p ∈ ps, s.untaken? c p 0 = none := by
  induction ps generalizing i with
  | nil => simp
  | cons p ps ih =>
      rw [List.zipIdx_cons, List.findSome?_cons, List.forall_mem_cons]
      cases h : s.untaken? c p i with
      | none => simpa [untaken?_place h 0] using ih
      | some e =>
          have hne : s.untaken? c p 0 ≠ none := fun h' => by
            rw [untaken?_place h' i] at h
            cases h
          simp [hne]

theorem untaken?_of_not_isUserData (h : ¬ p.isUserData) : s.untaken? c p 0 = none := by
  obtain ⟨name, slot⟩ := p
  cases slot
  case value | geometry | raw => exact absurd rfl h
  all_goals rfl

theorem Sound.untaken?_of_yields (hs : Sound s) (hb : s.index.BuiltOnPoints)
    (hpl : Placement.Continues c.isDriving ⟨s.solver, [], []⟩ literals pl)
    {os : List (Operand α)} (h : List.Forall₂ (pl.solver.scope.Yields c.kind
      (c.Supplies s.index s.allocator tag pl)) c.kind.userParams os) :
    ∀ p ∈ c.kind.schema, s.untaken? c p 0 = none := by
  intro p hp
  rcases List.mem_append.1 hp with hp | hp
  · have hnone : ∀ p ∈ c.kind.userParams, s.untaken? c p 0 = none := by
      refine forall₂_right h.flip ?_
      rintro o p - ⟨a, i, ha, ho⟩
      rcases hs.operand_cases hb hpl ha i with ⟨e, -, he⟩ | ⟨hnone, -⟩
      · cases he.symm.trans ho
      · exact untaken?_place hnone 0
    exact hnone p hp
  · exact untaken?_of_not_isUserData (c.kind.sharedParams_not_isUserData p hp)

/-! ### The verdict -/

theorem verdict_eq_ok : s.verdict c = .ok () ↔ c.id.val < 0x80000000 ∧
    ∀ p ∈ c.kind.schema, s.unresolved? c p = none ∧ s.untaken? c p 0 = none := by
  rw [forall₂_and, ← List.findSome?_eq_none_iff, ← findSome?_untaken? (i := 0), verdict]
  by_cases hid : c.id.val < 0x80000000
  · rw [if_pos hid]
    cases c.kind.schema.findSome? (s.unresolved? c) with
    | some e => simp
    | none =>
        cases c.kind.schema.zipIdx.findSome? fun p => s.untaken? c p.1 p.2 with
        | some e => simp
        | none => simp [hid]
  · simp [hid]

/-! ### Suitable parameters -/

theorem suitable_value (hslot : p.slot = .value) :
    s.Suitable c p ↔ s.unresolved? c p = none ∧ s.untaken? c p 0 = none := by
  simp only [Suitable, unresolved?, untaken?, hslot]
  cases hv : c.param? p.name with
  | none => simp
  | some v =>
      cases v with
      | number v => simp [unresolvedValue?]
      | bool b => simp [unresolvedValue?]
      | name n => cases hn : s.allocator.names.find? n <;> simp [unresolvedValue?, hn]
      | ref r =>
          simp only [unresolvedValue?]
          rcases hget : s.index.get? r.target with _ | (g | c) <;> simp [hget]

theorem suitable_raw (hp : p ∈ c.kind.schema) (hslot : p.slot = .raw) :
    s.Suitable c p ↔ s.unresolved? c p = none ∧ s.untaken? c p 0 = none := by
  simp only [Suitable, unresolved?, untaken?, hslot, Kind.raw_name p hp hslot]
  cases hv : c.param? p.name with
  | none => simp
  | some v => cases v <;> simp [unresolvedRaw?]

theorem suitable_geometry {k : GeometryClass} (hslot : p.slot = .geometry k) :
    s.Suitable c p ↔ s.unresolved? c p = none ∧ s.untaken? c p 0 = none := by
  simp only [Suitable, unresolved?, untaken?, hslot, unresolvedGeometry?]
  cases hv : c.param? p.name with
  | none => simp
  | some v =>
      cases v with
      | number x =>
          simp only [ParamValue.toOid?]
          cases hn : Scalar.toIndex? x with
          | none => simp [hn]
          | some n =>
              rcases hget : s.index.get? ⟨n⟩ with _ | (g | c)
              · simp [hn, hget]
              · have hgeometry : s.index.geometryAt? ⟨n⟩ = some g :=
                  Index.geometryAt?_eq_some.2 hget
                simp only [Option.map_some, Option.bind_some, hget, hgeometry, ite_eq_left_iff,
                  reduceCtorEq, imp_false, not_not]
                constructor
                · rintro ⟨x', n', g', hx, hn', hg, hk, hcurve⟩
                  cases hx
                  cases hn.symm.trans hn'
                  cases hget.symm.trans hg
                  exact ⟨hk, hcurve⟩
                · rintro ⟨hk, hcurve⟩
                  exact ⟨x, n, g, rfl, hn, hget, hk, hcurve⟩
              · simp [hn, hget]
      | bool b => simp [ParamValue.toOid?]
      | name n => simp [ParamValue.toOid?]
      | ref r => simp [ParamValue.toOid?]

theorem suitable_iff (hp : p ∈ c.kind.schema) :
    s.Suitable c p ↔ s.unresolved? c p = none ∧ s.untaken? c p 0 = none := by
  cases hslot : p.slot with
  | value => exact suitable_value hslot
  | geometry k => exact suitable_geometry hslot
  | raw => exact suitable_raw hp hslot
  | tag => simp [Suitable, unresolved?, untaken?, hslot]
  | driving => simp [Suitable, unresolved?, untaken?, hslot]
  | alignment => simp [Suitable, unresolved?, untaken?, hslot]

/-! ### The verdict on a push -/

variable [Decompositions α]

theorem Sound.push_eq_verdict (hs : Sound s) (hb : s.index.BuiltOnPoints)
    (hc : s.index.counter ≠ Index.counterLimit) (hid : s.index.has c.id = false) :
    (s.push (.constraint c)).1 = s.verdict c := by
  rcases pushConstraint_cases hid hc with ⟨e, htag, hpush⟩ | ⟨tag, htag, hcall⟩
  · rw [hpush, verdict]
    by_cases hlt : c.id.val < 0x80000000
    · cases (Oid.tag_eq_ok.2 ⟨hlt, rfl⟩).symm.trans htag
    · rw [Oid.tag, if_neg hlt] at htag
      cases htag
      rw [if_neg hlt]
  have hlt : c.id.val < 0x80000000 := (Oid.tag_eq_ok.1 htag).1
  have hpush : (s.push (.constraint c)).1 =
      (c.push s.index s.allocator s.solver tag).1.map fun _ => () := by
    rcases hcall with ⟨e, he, hpush⟩ | ⟨outputs, t, hok, hpush, -⟩
    · rw [hpush, he]
      rfl
    · rw [hpush, hok]
      rfl
  obtain ⟨literals, pl, hpl, hout⟩ := c.push_outcome s.index s.allocator s.solver tag
  rw [hpush, verdict, if_pos hlt]
  -- the solver sees no argument before the last parameter has been resolved
  rcases hout with ⟨e, he, hstop⟩ | ⟨hres, hout⟩
  · rw [he, hs.findSome?_of_stops hb hstop]
    rfl
  have hnone : c.kind.schema.findSome? (s.unresolved? c) = none := by
    rw [List.findSome?_eq_none_iff]
    intro p hp
    obtain ⟨r, hr⟩ := hres p hp
    exact hs.unresolved?_eq_none hb hr
  rw [hnone]
  rcases hout with ⟨e, he, hrej⟩ | ⟨os, eq, hok, -, hos, -⟩
  · rw [he, hs.findSome?_of_rejects hb hpl hrej]
    rfl
  · rw [hok, findSome?_untaken?.2 (hs.untaken?_of_yields hb hpl hos)]
    rfl

/-- A constraint with an unused id is taken exactly if the id fits a tag and all its parameters are
suitable; otherwise the first parameter that cannot be resolved, or else the first that the solver
does not take, decides the error. -/
theorem Reachable.push_verdict (h : Reachable s) (hb : s.index.BuiltOnPoints)
    (hc : s.index.counter < Index.counterLimit) (hid : s.index.has c.id = false) :
    (s.push (.constraint c)).1 = s.verdict c ∧
    ((s.push (.constraint c)).1 = .ok () ↔
      c.id.val < 0x80000000 ∧ ∀ p ∈ c.kind.schema, s.Suitable c p) := by
  have hpush := h.sound.push_eq_verdict hb (Nat.ne_of_lt hc) hid
  refine ⟨hpush, ?_⟩
  rw [hpush, verdict_eq_ok]
  refine and_congr_right fun _ => forall₂_congr fun p hp => ?_
  exact (suitable_iff hp).symm

/-- The abscissa of the free point is a name that is not bound. -/
def xIsHeight : Constraint Float :=
  { Constraint.new ⟨3⟩ .equal with
    params := .ofList [("param1", .ref ⟨⟨1⟩, .x⟩), ("param2", .name "height")] }

theorem verdict_xIsHeight :
    (smallSession.push (.constraint xIsHeight)).1 = .error (.unknownName "height") ∧
    ((smallSession.perform (.pushName "height" 5.0)).push (.constraint xIsHeight)).1 = .ok () := by
  have h := reachable_smallSession
  have hb := builtOnPoints_smallSession
  have hverdict : smallSession.verdict xIsHeight = .error (.unknownName "height") := rfl
  refine ⟨?_, ?_⟩
  · rw [(h.push_verdict hb (by decide) rfl).1, hverdict]
  · have hschema : xIsHeight.kind.schema = [⟨"param1", .value⟩, ⟨"param2", .value⟩,
      ⟨"tagId", .tag⟩, ⟨"driving", .driving⟩, ⟨"internalalignment", .alignment⟩] := rfl
    refine ((h.perform (.pushName "height" 5.0)).push_verdict hb (by decide) rfl).2.2
      ⟨by decide, ?_⟩
    rw [hschema]
    simp only [List.forall_mem_cons]
    refine ⟨?_, ?_, trivial, trivial, trivial, nofun⟩
    · exact .inr (.inr ⟨⟨⟨1⟩, .x⟩, ⟨⟨1⟩, .point 1.0 2.0 false⟩, rfl, rfl, by decide⟩)
    · exact .inr (.inl ⟨"height", rfl, rfl⟩)

end Session

end PlanarSketch
