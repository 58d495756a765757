import PlanarSketch.Proofs.Session.Naming

/-!
Sketch and solver after a solution has been applied. A geometry has the scalars of its block, and a
constraint that only measures has, for each of its parameters that was a literal when it was pushed,
the number in the datum that was made for it: the one that its equation reads for that parameter.
Nothing else in the sketch has changed.
-/

namespace PlanarSketch

open LeastSquares

variable {α : Type}

namespace Shape

variable {π : Type}

theorem get?_refill (s : Shape π α) (own : Property × Nat → α) {p : Property} {i : Nat}
    (h : s.geometryClass.offset? p = some i) : (s.refill own).get? p = some (own (p, i)) := by
  cases s <;> cases p <;> first | cases h; rfl | cases h

end Shape

theorem Constraint.isLiteral_iff {c : Constraint α} {p : ParamSpec} (hslot : p.slot = .value) :
    c.isLiteral p ↔ ∃ v, c.param? p.name = some (.number v) := by
  rw [isLiteral, hslot]
  constructor
  · intro h
    split at h
    · next v _ hv => exact ⟨v, hv⟩
    · cases h
  · rintro ⟨v, hv⟩
    rw [hv]

namespace Placement

/-- When the datums are those of the literals, each stands beside the name of its own. -/
theorem forall₂_datums {c : Constraint α} {ps : List ParamSpec} {as : List (Arg α)}
    (h : List.Forall₂ (fun p a => a.datum?.isSome = c.isLiteral p) ps as) :
    List.Forall₂ (fun p a => c.isLiteral p → ∃ b, a = .datum b ∧
      (p.name, b) ∈ ((ps.filter c.isLiteral).map ParamSpec.name).zip (as.filterMap Arg.datum?))
      ps as := by
  induction h with
  | nil => exact .nil
  | @cons p a ps as ha _ ih =>
      cases hdatum : a.datum? with
      | none =>
          have hlit : c.isLiteral p = false := by rw [← ha, hdatum]; rfl
          rw [List.filter_cons_of_neg (by simp [hlit]), List.filterMap_cons_none hdatum]
          exact .cons (fun hc => absurd hc (by simp [hlit])) ih
      | some b =>
          have hlit : c.isLiteral p = true := by rw [← ha, hdatum]; rfl
          obtain rfl : a = .datum b := by
            cases a <;> cases hdatum
            rfl
          rw [List.filter_cons_of_pos hlit, List.filterMap_cons_some hdatum, List.map_cons,
            List.zip_cons_cons]
          refine .cons (fun _ => ⟨b, rfl, List.mem_cons_self⟩) (ih.imp fun p a hp hc => ?_)
          obtain ⟨b', rfl, hmem⟩ := hp hc
          exact ⟨b', rfl, List.mem_cons_of_mem _ hmem⟩

end Placement

variable [Scalar α]

/-- For parameters that are literals the entry reads the datums made for them. -/
def Entry.ReadsLiterals (e : Entry α) (c : Constraint α) : Prop :=
  List.Forall₂ (fun p a => ∀ v, c.param? p.name = some (.number v) →
      (p.name, a) ∈ c.literalNames.zip e.datums)
    c.kind.valueParams (c.kind.valueReads e.equation)

namespace Placement

/-- Datums are made for literals, and for nothing else. -/
theorem datum?_of_fits {pl : Placement (LeastSquares α)} {x : Index α} {al : Allocator}
    {c : Constraint α} {tag : Int} {p : ParamSpec} {r : Resolved α} {a : Arg α}
    (hr : c.resolve x al tag p = .ok r) (ha : Fits pl r a) :
    a.datum?.isSome = c.isLiteral p := by
  have hresolves := Constraint.resolves_of_ok hr
  have hliteral : (r.literals p.name).length = if c.isLiteral p then 1 else 0 := by
    have hnames := congrArg List.length (Constraint.literals_of_resolves hresolves)
    rw [List.length_map, List.length_map] at hnames
    rw [hnames]
    cases hc : c.isLiteral p <;> simp [hc]
  cases hc : c.isLiteral p <;> rw [hc] at hliteral <;> cases r <;> cases hliteral
  case false.record r =>
    cases a <;> first | exact ha.elim | rfl
  case false.ready b =>
    obtain rfl : a = b := ha
    rw [not_datum_of_resolves hresolves]
    rfl
  case true.literal v =>
    cases a <;> first | exact ha.elim | rfl

end Placement

namespace Constraint

variable [Decompositions α] {x : Index α} {al : Allocator} {c : Constraint α} {tag : Int}

theorem readsLiterals_of_push {s t : LeastSquares α} {outputs : Outputs}
    (h : c.push x al s tag = (.ok outputs, t)) :
    ∃ e, t.entries = s.entries ++ [e] ∧ e.ReadsLiterals c := by
  obtain ⟨literals, pl, hcont, hrest⟩ := push_cases x al s c tag
  rcases hrest with ⟨e', hpush, -⟩ | ⟨rs, as, hrs, has, -, -, ⟨e', hpush, -⟩ | ⟨e, hpush, he⟩⟩
  · cases h.symm.trans hpush
  · cases h.symm.trans hpush
  · cases h.symm.trans hpush
    have hentries : pl.solver.entries = s.entries := by
      rw [hcont.grown.entries, List.append_nil]
    refine ⟨e, congrArg (· ++ [e]) hentries, ?_⟩
    have hplaced := Placement.forall₂_datums ((forall₂_comp hrs has).imp
      fun p a ⟨r, hr, ha⟩ => Placement.datum?_of_fits hr ha)
    rcases Entry.ofCall_cases (s := pl.solver.scope) (some c.scaleOrDefault) hplaced with
      ⟨e', hcall, -⟩ | ⟨os, t, d, eq, hcall, hos, heq, -⟩
    · cases he.symm.trans hcall
    · cases he.symm.trans hcall
      obtain ⟨eq', heq', -, hreads⟩ := Equation.exists_ofOperands c.kind os
        (hos.imp fun p o ho => Scope.yields_suits ho)
      cases heq.symm.trans heq'
      have hvalues := Operand.forall₂_values (fun p o ho => Scope.yields_suits ho) hos
      rw [Entry.ReadsLiterals, hreads]
      refine hvalues.imp fun p a ⟨hslot, arg, i, hp, ho⟩ v hv => ?_
      obtain ⟨b, rfl, hmem⟩ := hp ((isLiteral_iff hslot).2 ⟨v, hv⟩)
      rw [hslot] at ho
      obtain ⟨b', hb, heq⟩ := map_eq_ok.1 ho
      cases heq
      rwa [← (Scope.checkAddress_eq_ok.1 hb).2]

end Constraint

namespace Session

variable {s t u : Session (LeastSquares α) α} {ns : List String} {id : Oid} {c c₀ : Constraint α}
  {e : Entry α} {es : History α}

/-- The outputs of a constraint are recorded: the datums of its entry, if it only measures. -/
def Records (c₀ : Constraint α) (e : Entry α) (t : Session (LeastSquares α) α) : Prop :=
  (t.measured.find? c₀.id).getD [] =
    if c₀.isDriving then [] else c₀.literalNames.zip e.datums

variable [Decompositions α]

/-- A push that is taken has its entry read the datums made for the literals, and records them. -/
theorem Sound.records_of_push (hs : Sound s) (hl : Ledger es s)
    (hpush : s.push (.constraint c₀) = (.ok (), u)) :
    ∃ e : Entry α, e.Belongs c₀ ∧ Stands c₀ e u ∧ e.ReadsLiterals c₀ ∧ Records c₀ e u := by
  obtain ⟨e, outputs, hadmitted⟩ := hs.toAnchored.admitted_of_push hpush
  obtain ⟨tag, outputs', hcall⟩ := call_of_push hpush
  obtain ⟨e', hentries, hreads⟩ := Constraint.readsLiterals_of_push hcall
  obtain rfl := hadmitted.entry_eq hentries
  obtain ⟨hbelongs, hstands⟩ := hadmitted.stands
  refine ⟨e', hbelongs, hstands, hreads, ?_⟩
  have hrecorded : (u.measured.find? c₀.id).getD [] = outputs := by
    rw [hadmitted.measured]
    cases outputs with
    | nil => rw [List.isEmpty_nil, if_pos rfl, hl.measured_none hadmitted.fresh]; rfl
    | cons o os =>
        rw [List.isEmpty_cons, if_neg Bool.false_ne_true, Table.find?_insert, if_pos rfl]
        rfl
  have hnames := hadmitted.enters.names
  have haddresses := hadmitted.enters.addresses
  rw [Records, hrecorded]
  cases hd : c₀.isDriving with
  | true =>
      rw [hd, if_pos rfl, List.map_eq_nil_iff] at hnames
      exact hnames
  | false =>
      rw [hd, if_neg Bool.false_ne_true] at hnames haddresses
      rw [if_neg Bool.false_ne_true, ← hnames, ← haddresses]
      exact List.zip_of_prod rfl rfl

/-- What is recorded for a constraint stays as long as the constraint. -/
theorem Stands.measured_eq (h : Stands c₀ e s) (hr : Readable s) (hmove : Move s es t)
    (hclear : .cleared ∉ es) (hdelete : .deleted c₀.id ∉ es) :
    t.measured.find? c₀.id = s.measured.find? c₀.id := by
  cases hmove with
  | refuse hsame => rw [hsame.measured]
  | place hp => rw [hp.measured]
  | @enter c _ outputs _ ha =>
      have hne : c₀.id ≠ c.id := by
        intro heq
        have hhas := h.has
        rw [heq, ha.fresh] at hhas
        cases hhas
      rw [ha.measured]
      split
      · rfl
      · rw [Table.find?_insert, if_neg hne]
  | @delete id _ _ _ =>
      have hne : c₀.id ≠ id := by
        rintro rfl
        exact hdelete List.mem_cons_self
      exact (Table.find?_erase ..).trans (if_neg hne)
  | apply hphase => rw [hr.applySolution_eq hphase]; rfl
  | clear => exact absurd List.mem_cons_self hclear
  | extra | clearExtra | tune | bind | assign | solve => rfl

theorem Keeps.records (h : Keeps c₀.id s ns t) (hs : Reachable s) (hstands : Stands c₀ e s)
    (hrecords : Records c₀ e s) : Records c₀ e t := by
  refine (h.preserves (P := fun t => Stands c₀ e t ∧ Records c₀ e t) hs ⟨hstands, hrecords⟩ ?_).2
  intro es t u hr ht hmove hclear hdelete
  refine ⟨ht.1.move hr hmove hclear hdelete, ?_⟩
  rw [Records, ht.1.measured_eq hr hmove hclear hdelete]
  exact ht.2

/-! ### What a solution brings -/

/-- The scalars of a geometry are those that the solver has in its block, angles normalised. -/
def Shows (s : Session (LeastSquares α) α) (id : Oid) (g : Geometry α) : Prop :=
  ∀ p i, g.geometryClass.offset? p = some i → ∃ base v,
    s.allocator.address id = .ok base ∧ Solver.value s.solver (base + i) = .ok v ∧
      g.shape.get? p = some (if p.isAngle then Angle.normalize v else v)

theorem Readable.shows_applied (hr : Readable t) (ht : Anchored t) {g : Geometry α}
    (hget : t.index.get? id = some (.geometry g)) :
    ∃ g', t.applied.index.get? id = some (.geometry g') ∧ g'.outline = g.outline ∧
      t.applied.Shows id g' := by
  have hkey : g.id = id := ht.key hget
  have happlied : t.applied.index.get? id = some (t.written.reread id (.geometry g)) :=
    (t.written.get?_readBack id).trans (congrArg _ hget)
  have hreread := t.written.rereads id (.geometry g)
  rw [reread] at happlied hreread
  rw [happlied]
  cases hbase : t.written.allocator.blocks.find? g.id with
  | none =>
      refine ⟨g, rfl, rfl, fun p i hi => ?_⟩
      -- a geometry with scalars has a block
      have hpos : 0 < g.outline.count := Nat.zero_lt_of_lt (GeometryClass.offset?_lt hi)
      obtain ⟨base, hbase'⟩ := Allocator.has_iff.1 (ht.allocated (Index.outline?_of_get? hget) hpos)
      rw [← hkey] at hbase'
      cases hbase.symm.trans hbase'
  | some base =>
      simp only [hbase] at hreread
      cases hreread with
      | geometry houtline =>
          refine ⟨_, rfl, houtline, fun p i hi => ?_⟩
          rw [Geometry.geometryClass, Shape.class_refill] at hi
          have hlt : base + i < t.written.solver.size := by
            have hblock := hr.written.blocks hget hbase
            have hplace : i < g.geometryClass.ownCount := GeometryClass.offset?_lt hi
            exact Nat.lt_of_lt_of_le (Nat.add_lt_add_left hplace base) hblock
          refine ⟨base, _, ?_, Layout.value_of_lt hlt, Shape.get?_refill _ _ hi⟩
          rw [← hkey]
          exact Allocator.address_eq_ok.2 hbase

/-- For parameters that were literals of `c₀`, the datums that the entry reads have the numbers that
stand among the parameters now. -/
def Measures (s : Session (LeastSquares α) α) (c₀ : Constraint α) (e : Entry α)
    (params : NameMap (ParamValue α)) : Prop :=
  List.Forall₂ (fun p a => ∀ x, c₀.param? p.name = some (.number x) →
      (p.name, a) ∈ c₀.literalNames.zip e.datums ∧
        ∃ v, Solver.value s.solver a = .ok v ∧ params.find? p.name = some (.number v))
    c₀.kind.valueParams (c₀.kind.valueReads e.equation)

theorem Readable.measures_applied (hr : Readable t) (hreads : e.ReadsLiterals c₀)
    (hrecords : Records c₀ e t) (hget : t.index.get? c₀.id = some (.constraint c))
    (hc : c₀.isDriving = false) :
    ∃ params, t.applied.index.get? c₀.id = some (.constraint { c with params := params }) ∧
      t.applied.Measures c₀ e params ∧
      ∀ name, name ∉ c₀.literalNames → params.find? name = c.params.find? name := by
  have happlied : t.applied.index.get? c₀.id = some (t.written.reread c₀.id (.constraint c)) :=
    (t.written.get?_readBack c₀.id).trans (congrArg _ hget)
  obtain ⟨hnodup, hlt⟩ := hr.written.recorded c₀.id
  have houtputs : (t.written.measured.find? c₀.id).getD [] = c₀.literalNames.zip e.datums := by
    rw [show t.written.measured = t.measured from rfl, hrecords, hc, if_neg Bool.false_ne_true]
  rw [reread, houtputs] at happlied
  rw [houtputs] at hnodup hlt
  refine ⟨_, happlied, hreads.imp fun p a hp x hx => ?_, fun name hname => ?_⟩
  · have hmem := hp x hx
    exact ⟨hmem, _, Layout.value_of_lt (hlt _ hmem), find?_remeasure _ hnodup hmem⟩
  · refine find?_remeasure_of_not_mem _ fun hmem => hname ?_
    obtain ⟨o, ho, rfl⟩ := List.mem_map.1 hmem
    exact (List.of_mem_zip ho).1

/-- After a solution has been applied, sketch and solver agree. Every scalar of a geometry is the
one in its block, angles normalised. Of a constraint that only measures, every parameter that was
pushed as a literal is the number in the datum that was made for it. All else is as before. -/
theorem Reachable.applySolution_agrees (h : Reachable t) (hok : t.applySolution = (.ok (), u)) :
    (u.index.ids = t.index.ids ∧ u.index.counter = t.index.counter) ∧
    (∀ id g, t.index.get? id = some (.geometry g) →
      ∃ g', u.index.get? id = some (.geometry g') ∧ g'.outline = g.outline ∧ u.Shows id g') ∧
    (∀ id c, t.index.get? id = some (.constraint c) → c.isDriving = true →
      u.index.get? id = some (.constraint c)) ∧
    (∀ id c, t.index.get? id = some (.constraint c) →
      ∃ s c₀ w ns, c₀.id = id ∧ Origin s c₀ w ns t) ∧
    ∀ s c₀ w ns, Origin s c₀ w ns t → c₀.isDriving = false →
      ∃ c e params, t.index.get? c₀.id = some (.constraint c) ∧
        Primitive.Reread (.constraint c₀) (.constraint c) ∧
        u.index.get? c₀.id = some (.constraint { c with params := params }) ∧
        (e ∈ u.solver.entries ∧ e.Belongs c₀ ∧
          ∀ e' ∈ u.solver.entries, e'.Belongs c₀ → e' = e) ∧
        u.Measures c₀ e params ∧
        ∀ name, name ∉ c₀.literalNames → params.find? name = c.params.find? name := by
  obtain ⟨es, hl⟩ := h.exists_ledger
  have hs := h.sound
  have hr := hl.readable hs
  have hphase : t.phase = .solved := by
    by_contra hphase
    rw [applySolution, if_neg hphase] at hok
    cases hok
  obtain rfl : t.applied = u := congrArg Prod.snd ((hr.applySolution_eq hphase).symm.trans hok)
  refine ⟨⟨Table.keys_mapValues _ _, rfl⟩, fun id g hget => hr.shows_applied hs.toAnchored hget,
    ?_, fun id c => h.exists_origin, ?_⟩
  · intro id c hget hc
    have happlied : t.applied.index.get? id = some (t.written.reread id (.constraint c)) :=
      (t.written.get?_readBack id).trans (congrArg _ hget)
    rw [happlied, reread, show t.written.measured = t.measured from rfl,
      hl.measured_driving hget hc]
    rfl
  · intro s c₀ w ns horigin hc₀
    obtain ⟨es', hl'⟩ := horigin.reachable.exists_ledger
    obtain ⟨e, hbelongs, hstands, hreads, hrecords⟩ :=
      horigin.reachable.sound.records_of_push hl' horigin.push
    have hw : Reachable w := by
      have hlater := horigin.reachable.perform (.push (.constraint c₀))
      rwa [Session.perform, horigin.push] at hlater
    obtain ⟨-, ⟨c, hget, hreread, -⟩, hentry⟩ := horigin.keeps.stands hw hstands
    obtain ⟨params, hparams, hmeasures, hothers⟩ := hr.measures_applied hreads
      (horigin.keeps.records hw hstands hrecords) hget hc₀
    refine ⟨c, e, params, hget, hreread, hparams, ⟨hentry, hbelongs, ?_⟩, hmeasures, hothers⟩
    intro e' he' hb'
    exact hl.belongs_unique hget hentry he' (hbelongs.reread hreread) (hb'.reread hreread)

/-- The free point has the ordinate that was solved for, and the distance that is measured is the
one in its datum. -/
theorem agrees_measuringSession :
    Reachable (measuringSession.perform .solve) ∧
    (measuringSession.perform .solve).applySolution =
      (.ok (), (measuringSession.perform .solve).applied) ∧
    (∃ g v, (measuringSession.perform .solve).applied.index.get? ⟨1⟩ = some (.geometry g) ∧
      Solver.value (measuringSession.perform .solve).applied.solver 1 = .ok v ∧
      g.shape.get? .y = some v) ∧
    ∃ c v, (measuringSession.perform .solve).applied.index.get? ⟨7⟩ = some (.constraint c) ∧
      Solver.value (measuringSession.perform .solve).applied.solver 6 = .ok v ∧
      c.param? "distance" = some (.number v) ∧ c.param? "p1_id" = some (.number 1.0) := by
  have hpushed : Reachable ((smallSession.perform (.push (.constraint measuredDistance))).perform
      (.delete ⟨7⟩)) := (reachable_smallSession.perform _).perform _
  have hsolved : Reachable (measuringSession.perform .solve) :=
    (hpushed.perform (.push (.constraint measuredDistance))).perform .solve
  obtain ⟨es, hl⟩ := hsolved.exists_ledger
  have hok := (hl.readable hsolved.sound).applySolution_eq rfl
  obtain ⟨-, hgeometries, -, -, hmeasures⟩ := hsolved.applySolution_agrees hok
  refine ⟨hsolved, hok, ?_, ?_⟩
  · obtain ⟨g, hg, houtline, hshows⟩ := hgeometries ⟨1⟩ _ rfl
    have hclass : g.geometryClass = .point := congrArg Outline.geometryClass houtline
    obtain ⟨base, v, hbase, hv, hy⟩ := hshows .y 1 (by rw [hclass]; rfl)
    cases hbase
    exact ⟨g, v, hg, hv, hy⟩
  · have horigin : Origin _ measuredDistance measuringSession _ (measuringSession.perform .solve) :=
      ⟨hpushed, Prod.ext rfl rfl, .perform .refl .solve nofun nofun⟩
    have hnames : measuredDistance.literalNames = ["distance"] := by decide +kernel
    have hdatums : measuringSession.solver.entries.map Entry.datums = [[6]] := by decide +kernel
    obtain ⟨c, e, params, hget, -, hparams, ⟨hentry, -⟩, hmeasured, hothers⟩ :=
      hmeasures _ _ _ _ horigin rfl
    cases hget
    have he : e.datums = [6] := by
      have hmem : e.datums ∈ measuringSession.solver.entries.map Entry.datums :=
        List.mem_map_of_mem hentry
      rw [hdatums] at hmem
      exact List.mem_singleton.1 hmem
    obtain ⟨a, _, hdistance, -, -⟩ := List.forall₂_cons_left_iff.1 hmeasured
    obtain ⟨hmem, v, hv, hparam⟩ := hdistance 0.5 rfl
    rw [hnames, he] at hmem
    cases List.mem_singleton.1 hmem
    refine ⟨_, v, hparams, hv, hparam, (hothers "p1_id" ?_).trans rfl⟩
    rw [hnames]
    decide

end Session

end PlanarSketch
