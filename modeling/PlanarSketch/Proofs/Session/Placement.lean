import Mathlib.Data.List.Forall2
import PlanarSketch.Proofs.LeastSquares.Cells
import PlanarSketch.Proofs.Session.Resolution

/-!
What a push of a constraint does to the solver while its parameters are placed one after another.
A placement only ever appends scalars and handles, so an argument that was placed early still
means the same at the end. Handles count up from some first one; a push makes far fewer of them
than there are, so no two of its handles are the same even when the count wraps.
-/

namespace PlanarSketch

open LeastSquares

variable {α : Type}

/-- The scalars that a resolved parameter is given, under the parameter's name. -/
def Resolved.literals (name : String) : Resolved α → List (String × α)
  | .literal v => [(name, v)]
  | .record _ | .ready _ => []

namespace Constraint

/-- Whether a parameter is a number that needs a scalar of its own. -/
def isLiteral (c : Constraint α) (p : ParamSpec) : Bool :=
  match p.slot, c.param? p.name with
  | .value, some (.number _) => true
  | _, _ => false

/-- Names of the parameters that are literals, in schema order. -/
def literalNames (c : Constraint α) : List String :=
  (c.kind.schema.filter c.isLiteral).map ParamSpec.name

theorem literals_of_resolves [Scalar α] {x : Index α} {al : Allocator} {c : Constraint α}
    {tag : Int} {p : ParamSpec} {r : Resolved α} (h : c.Resolves x al tag p r) :
    (r.literals p.name).map Prod.fst = ([p].filter c.isLiteral).map ParamSpec.name := by
  cases h <;> simp [Resolved.literals, isLiteral, *]

end Constraint

namespace Placement

/-- Handles of a placement count up from a first one. -/
structure Numbered (first : UInt32) (pl : Placement (LeastSquares α)) : Prop where
  next : pl.solver.nextHandle = first + pl.handles.length.toUInt32
  handle : ∀ h ∈ pl.handles, ∃ i < pl.handles.length, h.val = first + i.toUInt32

/-- The placement `pl'` is `pl` gone on with these literals. -/
structure Continues (driving : Bool) (pl : Placement (LeastSquares α))
    (literals : List (String × α)) (pl' : Placement (LeastSquares α)) : Prop where
  grown : pl.solver.Grown (literals.map fun l => ⟨l.2, driving⟩) [] pl'.solver
  outputs : pl'.outputs = pl.outputs ++
    if driving then [] else (literals.zipIdx pl.solver.size).map fun l => (l.1.1, l.2)
  handles : pl.handles ⊆ pl'.handles
  records : ∀ h ∈ pl.handles, pl'.solver.records.find? h = pl.solver.records.find? h

/-- The argument stands for the resolved parameter. -/
def Fits (pl : Placement (LeastSquares α)) : Resolved α → Arg α → Prop
  | .literal v, .datum a => pl.solver.value? a = some v
  | .record r, .geometry h => h ∈ pl.handles ∧ pl.solver.records.find? h = some r
  | .ready a, b => b = a
  | _, _ => False

variable {driving : Bool} {pl pl' pl'' : Placement (LeastSquares α)}
  {literals literals' : List (String × α)} {first : UInt32}

theorem Continues.refl (driving : Bool) (pl : Placement (LeastSquares α)) :
    Continues driving pl [] pl where
  grown := Grown.refl pl.solver
  outputs := by cases driving <;> simp
  handles := fun _ h => h
  records := fun _ _ => rfl

theorem Continues.trans (h : Continues driving pl literals pl')
    (h' : Continues driving pl' literals' pl'') :
    Continues driving pl (literals ++ literals') pl'' where
  grown := by simpa using h.grown.trans h'.grown
  outputs := by
    have hsize := h.grown.size
    rw [List.length_map] at hsize
    rw [h'.outputs, h.outputs, hsize]
    cases driving
    · simp only [Bool.false_eq_true, if_false, List.zipIdx_append, List.map_append,
        List.append_assoc]
    · simp
  handles := fun k hk => h'.handles (h.handles hk)
  records := fun k hk => (h'.records k (h.handles hk)).trans (h.records k hk)

theorem Fits.mono {r : Resolved α} {a : Arg α} (hf : Fits pl r a)
    (h : Continues driving pl literals pl') : Fits pl' r a := by
  cases r with
  | literal v =>
      cases a <;> try exact hf.elim
      case datum a =>
        have ha : a < pl.solver.size := value?_isSome.1 (by rw [hf]; rfl)
        exact (h.grown.value?_old ha).trans hf
  | record r =>
      cases a <;> try exact hf.elim
      case geometry k => exact ⟨h.handles hf.1, (h.records k hf.1).trans hf.2⟩
  | ready b => exact hf

theorem Numbered.start (s : LeastSquares α) : Numbered s.nextHandle ⟨s, [], []⟩ :=
  ⟨by simp, by simp⟩

/-- A handle that is about to be made is none of those made so far. -/
theorem Numbered.fresh (h : Numbered first pl) (hroom : pl.handles.length < UInt32.size) :
    ⟨pl.solver.nextHandle⟩ ∉ pl.handles := by
  intro hmem
  obtain ⟨i, hi, heq⟩ := h.handle _ hmem
  -- below 2 ^ 32 the count determines its value even after a wrap
  have hsame : pl.handles.length.toUInt32 = i.toUInt32 := by
    have := h.next.symm.trans heq
    exact (UInt32.add_right_inj first).1 this
  have hnat := congrArg UInt32.toNat hsame
  rw [Nat.toUInt32_eq, UInt32.toNat_ofNat_of_lt' hroom, Nat.toUInt32_eq,
    UInt32.toNat_ofNat_of_lt' (by omega)] at hnat
  omega

theorem Continues.output_addresses {s : LeastSquares α}
    (h : Continues driving ⟨s, [], []⟩ literals pl) :
    pl.outputs.map Prod.snd = if driving then [] else List.range' s.size literals.length := by
  rw [h.outputs]
  cases driving with
  | true => rfl
  | false =>
      simp only [Bool.false_eq_true, if_false, List.nil_append, List.map_map]
      exact List.zipIdx_map_snd s.size literals

theorem Continues.output_names {s : LeastSquares α}
    (h : Continues driving ⟨s, [], []⟩ literals pl) :
    pl.outputs.map Prod.fst = if driving then [] else literals.map Prod.fst := by
  rw [h.outputs]
  cases driving with
  | true => rfl
  | false =>
      simp only [Bool.false_eq_true, if_false, List.nil_append, List.map_map]
      -- the place of a literal only matters for its address
      have hnames := congrArg (List.map Prod.fst) (List.zipIdx_map_fst s.size literals)
      rwa [List.map_map] at hnames

theorem filterMap_datum?_cons {a : Arg α} {as : List (Arg α)} {size m n : Nat}
    (ha : a.datum?.toList = List.range' size m)
    (has : as.filterMap Arg.datum? = List.range' (size + m) n) :
    (a :: as).filterMap Arg.datum? = List.range' size (m + n) := by
  have hcons : (a :: as).filterMap Arg.datum? = a.datum?.toList ++ as.filterMap Arg.datum? := by
    rw [List.filterMap_cons]
    cases a.datum? <;> rfl
  rw [hcons, ha, has, List.range'_append_1]

/-! ### One parameter -/

variable [Scalar α]

/-- Scalars of a constraint's own are made while it is placed, never while it is resolved. -/
theorem not_datum_of_resolves {x : Index α} {al : Allocator} {c : Constraint α} {tag : Int}
    {p : ParamSpec} {a : Arg α} (h : c.Resolves x al tag p (.ready a)) :
    a.datum? = none := by
  cases h <;> rfl

variable [Decompositions α]

theorem pushPrivate_eq (s : LeastSquares α) (vs : List α) (fixed : Bool) :
    Allocator.pushPrivate s vs fixed =
      { s with cells := s.cells ++ (vs.map fun v => (⟨v, fixed⟩ : Cell α)).toArray } := by
  induction vs generalizing s with
  | nil => simp [Allocator.pushPrivate]
  | cons v vs ih =>
      have hstep : Allocator.pushPrivate s (v :: vs) fixed =
          Allocator.pushPrivate (s.push v fixed) vs fixed := rfl
      rw [hstep, ih]
      simp [LeastSquares.push]

theorem place_literal (driving : Bool) (name : String) (v : α) (hn : Numbered first pl) :
    ∃ pl', pl.place driving name (.literal v) = (.ok (.datum pl.solver.size), pl') ∧
      Continues driving pl [(name, v)] pl' ∧ Numbered first pl' ∧ pl'.handles = pl.handles ∧
      pl'.solver.value? pl.solver.size = some v := by
  have hcells := pushPrivate_eq pl.solver [v] driving
  have hgrown : pl.solver.Grown [⟨v, driving⟩] []
      (Allocator.pushPrivate pl.solver [v] driving) := by
    rw [hcells]
    exact ⟨rfl, by simp, rfl, rfl, rfl⟩
  refine ⟨_, rfl, ⟨hgrown, ?_, fun _ h => h, ?_⟩, ⟨?_, hn.handle⟩, rfl, ?_⟩
  · cases driving
    · rfl
    · simp
  · intro h _
    rw [hcells]
  · rw [hcells]
    exact hn.next
  · have hnew := hgrown.getElem?_new 0
    rw [Nat.add_zero] at hnew
    simp [value?, hnew]

variable (driving) in
theorem place_record (name : String) (r : Record) (hn : Numbered first pl)
    (hroom : pl.handles.length < UInt32.size) (hr : ∀ a ∈ r.addresses, a < pl.solver.size) :
    ∃ h pl', pl.place driving name (.record r) = (.ok (.geometry h), pl') ∧
      Continues driving pl [] pl' ∧ Numbered first pl' ∧
      pl'.handles.length = pl.handles.length + 1 ∧
      h ∈ pl'.handles ∧ pl'.solver.records.find? h = some r := by
  rcases make_cases pl.solver r with ⟨a, ha, hout, -⟩ | ⟨-, hmake⟩
  · exact absurd hout (Nat.not_le.2 (hr a ha))
  have hfresh := hn.fresh hroom
  simp only [place, hmake]
  refine ⟨_, _, rfl, ⟨⟨by simp, by simp, rfl, rfl, rfl⟩, ?_, ?_, ?_⟩, ⟨?_, ?_⟩, ?_, ?_, ?_⟩
  · cases driving <;> simp
  · exact List.subset_append_left _ _
  · intro h hh
    have hne : h ≠ ⟨pl.solver.nextHandle⟩ := fun heq => hfresh (heq ▸ hh)
    rw [Table.find?_insert, if_neg hne]
  · simp only [hn.next, List.length_append, List.length_singleton]
    rw [Nat.toUInt32_eq, Nat.toUInt32_eq, UInt32.ofNat_add, UInt32.add_assoc]
    rfl
  · intro h hh
    rw [List.length_append, List.length_singleton]
    rcases List.mem_append.1 hh with hh | hh
    · obtain ⟨i, hi, heq⟩ := hn.handle h hh
      exact ⟨i, by omega, heq⟩
    · rw [List.mem_singleton] at hh
      subst hh
      exact ⟨pl.handles.length, by omega, hn.next⟩
  · simp
  · simp
  · rw [Table.find?_insert, if_pos rfl]

variable (driving) in
theorem place_record_outOfRange {r : Record} {a : Address} (name : String)
    (ha : a ∈ r.addresses) (hout : pl.solver.size ≤ a) :
    ∃ e, pl.place driving name (.record r) = (.error e, pl) := by
  rcases make_cases pl.solver r with ⟨b, -, -, hmake⟩ | ⟨hr, -⟩
  · exact ⟨.solver (.addressOutOfRange b), by rw [place, hmake]⟩
  · exact absurd hout (Nat.not_le.2 (hr a ha))

variable (driving) in
/-- A resolved parameter is placed, or it is a geometry with an address that the solver does not
have and nothing happens. -/
theorem place_cases (name : String) (r : Resolved α) (hn : Numbered first pl)
    (hroom : pl.handles.length < UInt32.size) (hready : ∀ a, r = .ready a → a.datum? = none) :
    (∃ a pl', pl.place driving name r = (.ok a, pl') ∧
      Continues driving pl (r.literals name) pl' ∧ Numbered first pl' ∧
      pl'.handles.length ≤ pl.handles.length + 1 ∧ Fits pl' r a ∧
      a.datum?.toList = List.range' pl.solver.size (r.literals name).length) ∨
    ∃ e rec, pl.place driving name r = (.error e, pl) ∧ r = .record rec ∧
      ∃ a ∈ rec.addresses, pl.solver.size ≤ a := by
  cases r with
  | literal v =>
      obtain ⟨pl', hplace, hcont, hnum, hhandles, hvalue⟩ := place_literal driving name v hn
      exact .inl ⟨_, pl', hplace, hcont, hnum, by rw [hhandles]; omega, hvalue, rfl⟩
  | ready a =>
      refine .inl ⟨a, pl, rfl, .refl driving pl, hn, by omega, rfl, ?_⟩
      rw [hready a rfl]
      rfl
  | record r =>
      by_cases hr : ∀ a ∈ r.addresses, a < pl.solver.size
      · obtain ⟨h, pl', hplace, hcont, hnum, hlen, hmem, hfind⟩ :=
          place_record driving name r hn hroom hr
        exact .inl ⟨_, pl', hplace, hcont, hnum, by omega, ⟨hmem, hfind⟩, rfl⟩
      · obtain ⟨a, ha, hout⟩ : ∃ a ∈ r.addresses, pl.solver.size ≤ a := by simpa using hr
        obtain ⟨e, hplace⟩ := place_record_outOfRange driving name ha hout
        exact .inr ⟨e, r, hplace, rfl, a, ha, hout⟩

/-! ### A whole schema -/

/-- Why the parameters of a schema cannot all be placed: one does not resolve, or is a geometry
with an address from `size` on, and all before it resolve. -/
inductive Stops (x : Index α) (al : Allocator) (c : Constraint α) (tag : Int) (size : Nat)
    (e : SketchError) : List ParamSpec → Prop where
  | unresolved {p : ParamSpec} {ps : List ParamSpec} (h : c.resolve x al tag p = .error e) :
      Stops x al c tag size e (p :: ps)
  | outOfRange {p : ParamSpec} {ps : List ParamSpec} {r : Record} {a : Address}
      (h : c.resolve x al tag p = .ok (.record r)) (ha : a ∈ r.addresses) (hs : size ≤ a) :
      Stops x al c tag size e (p :: ps)
  | later {p : ParamSpec} {ps : List ParamSpec} {r : Resolved α}
      (h : c.resolve x al tag p = .ok r) (hps : Stops x al c tag size e ps) :
      Stops x al c tag size e (p :: ps)

omit [Decompositions α] in
theorem Stops.mono {x : Index α} {al : Allocator} {c : Constraint α} {tag : Int} {m n : Nat}
    {e : SketchError} {ps : List ParamSpec} (h : Stops x al c tag n e ps) (hmn : m ≤ n) :
    Stops x al c tag m e ps := by
  induction h with
  | unresolved h => exact .unresolved h
  | outOfRange h ha hs => exact .outOfRange h ha (Nat.le_trans hmn hs)
  | later h _ ih => exact .later h ih

/-- The parameters of a schema are placed up to the first that cannot be. -/
theorem placeAll_cases (x : Index α) (al : Allocator) (c : Constraint α) (tag : Int)
    (ps : List ParamSpec) (hn : Numbered first pl)
    (hroom : pl.handles.length + ps.length ≤ UInt32.size) :
    ∃ literals pl', Continues c.isDriving pl literals pl' ∧
      ((∃ rs as, placeAll x al c tag ps pl = (.ok as, pl') ∧
        List.Forall₂ (fun p r => c.resolve x al tag p = .ok r) ps rs ∧
        List.Forall₂ (Fits pl') rs as ∧
        as.filterMap Arg.datum? = List.range' pl.solver.size literals.length ∧
        literals.map Prod.fst = (ps.filter c.isLiteral).map ParamSpec.name) ∨
      ∃ e, placeAll x al c tag ps pl = (.error e, pl') ∧
        Stops x al c tag pl.solver.size e ps) := by
  -- along the schema; each parameter takes at most one handle of the room that is left
  induction ps generalizing pl with
  | nil => exact ⟨[], pl, .refl _ pl, .inl ⟨[], [], rfl, .nil, .nil, rfl, rfl⟩⟩
  | cons p ps ih =>
      rw [List.length_cons] at hroom
      rw [placeAll]
      cases hr : c.resolve x al tag p with
      | error e => exact ⟨[], pl, .refl _ pl, .inr ⟨e, rfl, .unresolved hr⟩⟩
      | ok r =>
          have hready : ∀ a, r = .ready a → a.datum? = none := by
            rintro a rfl
            exact not_datum_of_resolves (Constraint.resolves_of_ok hr)
          rcases place_cases c.isDriving p.name r hn (by omega) hready with
            ⟨a, pl₁, hplace, hcont, hnum, hlen, hfits, hdatum⟩ |
            ⟨e, rec, hplace, rfl, a, ha, hout⟩
          · obtain ⟨literals, pl₂, hcont', hrest⟩ := ih hnum (by omega)
            have hsize := hcont.grown.size
            rw [List.length_map] at hsize
            simp only [hplace]
            refine ⟨_, pl₂, hcont.trans hcont', ?_⟩
            rcases hrest with ⟨rs, as, hall, hrs, has, hdatums, hnames⟩ | ⟨e, hall, hstop⟩
            · rw [hsize] at hdatums
              rw [hall, List.length_append]
              refine .inl ⟨r :: rs, a :: as, rfl, .cons hr hrs, .cons (hfits.mono hcont') has,
                filterMap_datum?_cons hdatum hdatums, ?_⟩
              rw [List.map_append, hnames,
                Constraint.literals_of_resolves (Constraint.resolves_of_ok hr), ← List.map_append,
                ← List.filter_append, List.singleton_append]
            · rw [hall]
              exact .inr ⟨e, rfl, .later hr (hstop.mono (by omega))⟩
          · simp only [hplace]
            exact ⟨[], pl, .refl _ pl, .inr ⟨e, rfl, .outOfRange hr ha hout⟩⟩

/-! ### The end of a push -/

theorem pin_eq (s : LeastSquares α) (a : Address) :
    pin s a = { s with cells := fix s.cells a } := by
  have hvalue : Solver.value s a = s.value a := rfl
  have hassign (v : α) : Solver.assign s a v true =
      s.attempt ((s.assign a v true).map fun t => ((), t)) := rfl
  rw [pin, hvalue, LeastSquares.value]
  cases hc : s.cells[a]? with
  | none => rw [fix_of_none hc]
  | some cell =>
      have ha : a < s.size := (Array.getElem?_eq_some_iff.1 hc).1
      simp [hassign, LeastSquares.assign, ha, fix_of_some hc, Except.map, attempt]

theorem pinAll_solver (pl : Placement (LeastSquares α)) :
    pl.pinAll.solver =
      { pl.solver with cells := (pl.outputs.map Prod.snd).foldl fix pl.solver.cells } := by
  obtain ⟨s, hs, outputs⟩ := pl
  simp only [pinAll]
  induction outputs generalizing s with
  | nil => rfl
  | cons o outputs ih => rw [List.foldl_cons, pin_eq, ih, List.map_cons, List.foldl_cons]

theorem close_eq (pl : Placement (LeastSquares α)) :
    pl.close =
      { pl.solver with records := pl.handles.foldl Table.erase pl.solver.records } := by
  obtain ⟨s, hs, outputs⟩ := pl
  simp only [close]
  induction hs generalizing s with
  | nil => rfl
  | cons h hs ih =>
      rw [List.foldl_cons, ih, List.foldl_cons]
      rfl

theorem Continues.grown_close (h : Continues driving pl literals pl') :
    pl.solver.Grown (literals.map fun l => ⟨l.2, driving⟩) [] pl'.close := by
  rw [close_eq]
  exact ⟨h.grown.cells, h.grown.entries, h.grown.pending, h.grown.config, h.grown.diagnosis⟩

/-- A push that fails leaves its literals behind, all of them fixed. -/
theorem Continues.grown_pinAll {s : LeastSquares α}
    (h : Continues driving ⟨s, [], []⟩ literals pl) :
    s.Grown (literals.map fun l => ⟨l.2, true⟩) [] pl.pinAll.close := by
  have hcells : (pl.outputs.map Prod.snd).foldl fix pl.solver.cells =
      s.cells ++ (literals.map fun l => (⟨l.2, true⟩ : Cell α)).toArray := by
    rw [h.output_addresses, h.grown.cells]
    -- the literals of a driving constraint are fixed from the start
    cases driving with
    | true => rfl
    | false => exact foldl_fix_append s.cells literals Prod.snd false
  rw [close_eq, pinAll_solver]
  exact ⟨hcells, h.grown.entries, h.grown.pending, h.grown.config, h.grown.diagnosis⟩

theorem call_error {c : Constraint α} {args : List (Arg α)} {e : SolverError}
    (h : Entry.ofCall pl.solver.scope ⟨c.kind, args ++ [.scale c.scaleOrDefault]⟩ = .error e) :
    pl.call c args = (.error (.solver e), pl) := by
  have hscale : Solver.takesScale pl.solver = true := rfl
  simp only [call, hscale, if_true, add_eq, h]

theorem call_ok {c : Constraint α} {args : List (Arg α)} {entry : Entry α}
    (h : Entry.ofCall pl.solver.scope ⟨c.kind, args ++ [.scale c.scaleOrDefault]⟩ = .ok entry) :
    pl.call c args =
      (.ok (), { pl with
        solver := { pl.solver with entries := pl.solver.entries ++ [entry] } }) := by
  have hscale : Solver.takesScale pl.solver = true := rfl
  simp only [call, hscale, if_true, add_eq, h]

/-- What placing one parameter preserves, placing a whole schema preserves. -/
theorem placeAll_preserves {P : Placement (LeastSquares α) → Prop} {x : Index α} {al : Allocator}
    {c : Constraint α} {tag : Int} {ps : List ParamSpec} (start : P pl)
    (step : ∀ pl p r, p ∈ ps → c.resolve x al tag p = .ok r → P pl →
      P (pl.place c.isDriving p.name r).2) : P (placeAll x al c tag ps pl).2 := by
  induction ps generalizing pl with
  | nil => exact start
  | cons p ps ih =>
      rw [placeAll]
      cases hr : c.resolve x al tag p with
      | error e => exact start
      | ok r =>
          have hplace := step pl p r List.mem_cons_self hr start
          dsimp only
          rcases hcase : pl.place c.isDriving p.name r with ⟨e | a, pl₁⟩ <;> rw [hcase] at hplace
          · exact hplace
          · have hrest := ih hplace fun pl q r hq => step pl q r (List.mem_cons_of_mem p hq)
            dsimp only
            rcases hcase' : placeAll x al c tag ps pl₁ with ⟨e | as, pl₂⟩ <;>
              rw [hcase'] at hrest <;> exact hrest

end Placement

/-- Whether a push goes through or not, it closes a placement with whatever placing a parameter,
calling the solver and pinning outputs preserve. -/
theorem Constraint.push_preserves [Scalar α] [Decompositions α]
    {P : Placement (LeastSquares α) → Prop} {x : Index α} {al : Allocator} {s : LeastSquares α}
    {c : Constraint α} {tag : Int}
    (start : P ⟨s, [], []⟩)
    (place : ∀ pl p r, p ∈ c.kind.schema → c.resolve x al tag p = .ok r → P pl →
      P (pl.place c.isDriving p.name r).2)
    (call : ∀ pl args, P pl → P (pl.call c args).2) (pinAll : ∀ pl, P pl → P pl.pinAll) :
    ∃ pl, P pl ∧ (c.push x al s tag).2 = pl.close := by
  have hall := Placement.placeAll_preserves start place
  unfold Constraint.push
  rcases hplaced : Placement.placeAll x al c tag c.kind.schema ⟨s, [], []⟩ with ⟨e | args, pl⟩ <;>
    rw [hplaced] at hall
  · exact ⟨_, pinAll pl hall, rfl⟩
  · have hcall := call pl args hall
    dsimp only
    rcases hcalled : pl.call c args with ⟨e | u, pl'⟩ <;> rw [hcalled] at hcall
    · exact ⟨_, pinAll pl' hcall, rfl⟩
    · exact ⟨_, hcall, rfl⟩

open Placement in
/-- A push of a constraint stops at a parameter that cannot be placed, or at the solver's own
check of the call, or adds one entry. -/
theorem Constraint.push_cases [Scalar α] [Decompositions α] (x : Index α) (al : Allocator)
    (s : LeastSquares α) (c : Constraint α) (tag : Int) :
    ∃ literals pl, Continues c.isDriving ⟨s, [], []⟩ literals pl ∧
      ((∃ e, c.push x al s tag = (.error e, pl.pinAll.close) ∧
        Stops x al c tag s.size e c.kind.schema) ∨
      ∃ rs as, List.Forall₂ (fun p r => c.resolve x al tag p = .ok r) c.kind.schema rs ∧
        List.Forall₂ (Fits pl) rs as ∧
        as.filterMap Arg.datum? = List.range' s.size literals.length ∧
        literals.map Prod.fst = c.literalNames ∧
        ((∃ e, c.push x al s tag = (.error (.solver e), pl.pinAll.close) ∧
          Entry.ofCall pl.solver.scope ⟨c.kind, as ++ [.scale c.scaleOrDefault]⟩ = .error e) ∨
        ∃ entry, c.push x al s tag = (.ok pl.outputs,
            { pl.close with entries := pl.solver.entries ++ [entry] }) ∧
          Entry.ofCall pl.solver.scope ⟨c.kind, as ++ [.scale c.scaleOrDefault]⟩ = .ok entry)) := by
  have hroom : ([] : List Handle).length + c.kind.schema.length ≤ UInt32.size := by
    cases c.kind <;> decide
  obtain ⟨literals, pl, hcont, hrest⟩ :=
    placeAll_cases x al c tag c.kind.schema (Numbered.start s) hroom
  refine ⟨literals, pl, hcont, ?_⟩
  rcases hrest with ⟨rs, as, hall, hrs, has, hdatums, hnames⟩ | ⟨e, hall, hstop⟩
  · refine .inr ⟨rs, as, hrs, has, hdatums, hnames, ?_⟩
    cases hcall : Entry.ofCall pl.solver.scope ⟨c.kind, as ++ [.scale c.scaleOrDefault]⟩ with
    | error e =>
        refine .inl ⟨e, ?_, rfl⟩
        simp only [Constraint.push, hall, call_error hcall]
    | ok entry =>
        refine .inr ⟨entry, ?_, rfl⟩
        simp only [Constraint.push, hall, call_ok hcall, close_eq]
  · refine .inl ⟨e, ?_, hstop⟩
    simp only [Constraint.push, hall]

end PlanarSketch
