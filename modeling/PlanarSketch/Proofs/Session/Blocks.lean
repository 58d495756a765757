import Mathlib.Data.List.Flatten
import Mathlib.Data.List.Nodup
import PlanarSketch.Proofs.Session.Inputs

/-!
Who holds which scalars. A block is handed out when its geometry is pushed, a named parameter gets
its scalar between two blocks and a constraint its datums in one go, and what a refused push leaves
behind is nobody's. All of them begin where the solver ended before, so no two ever overlap, and a
block stays where it is for as long as anything stays.
-/

namespace PlanarSketch

open LeastSquares Relation

variable {α : Type}

/-- What scalars are handed out to. -/
inductive Holder where
  | geometry (id : Oid)
  | name (n : String)
  /-- The constraint that stands at a place of the solver's list. -/
  | entry (i : Nat)
  deriving DecidableEq

namespace Session

def held (s : Session (LeastSquares α) α) : Holder → List Address
  | .geometry id => ((s.index.geometryAt? id).map s.allocator.own).getD []
  | .name n => (s.allocator.names.find? n).toList
  | .entry i => (s.solver.entries[i]?.map Entry.datums).getD []

/-- Addresses of all scalars that came in with a constraint which still stands. -/
def datums (s : Session (LeastSquares α) α) : List Address :=
  s.solver.entries.flatMap Entry.datums

variable {s t : Session (LeastSquares α) α} {a : Nat}

theorem mem_datums : a ∈ s.datums ↔ ∃ e ∈ s.solver.entries, a ∈ e.datums := List.mem_flatMap

theorem mem_held_geometry (h : Anchored s) {id : Oid} :
    a ∈ s.held (.geometry id) ↔ ∃ o, o.id = id ∧ s.Owns o a := by
  rw [held]
  constructor
  · intro ha
    cases hg : s.index.geometryAt? id with
    | none => simp [hg] at ha
    | some g =>
        rw [hg, Option.map_some, Option.getD_some, mem_own] at ha
        have hid : g.id = id := h.key (Index.geometryAt?_eq_some.1 hg)
        refine ⟨g.outline, hid, ?_, ha⟩
        rw [show g.outline.id = id from hid, Index.outline?, hg]
        rfl
  · rintro ⟨o, rfl, ho, hblock⟩
    obtain ⟨g, hg, rfl⟩ := Option.map_eq_some_iff.1 ho
    rw [hg, Option.map_some, Option.getD_some, mem_own]
    exact hblock

theorem mem_held_name {n : String} :
    a ∈ s.held (.name n) ↔ s.allocator.names.find? n = some a := Option.mem_toList

theorem mem_held_entry {i : Nat} :
    a ∈ s.held (.entry i) ↔ ∃ e, s.solver.entries[i]? = some e ∧ a ∈ e.datums := by
  rw [held]
  cases s.solver.entries[i]? <;> simp

/-- No scalar has two owners, or came in with two constraints, or with a constraint and a name. -/
structure Apart (s : Session (LeastSquares α) α) : Prop where
  owners : ∀ {o o'} {a : Nat}, s.Owns o a → s.Owns o' a → o = o'
  datums : s.datums.Nodup
  names : ∀ {n} {a : Nat}, s.allocator.names.find? n = some a → a ∉ s.datums

namespace Apart

theorem of_empty (hindex : s.index.outline? = fun _ => none)
    (hnames : s.allocator.names.find? = fun _ => none) (hentries : s.solver.entries = []) :
    Apart s where
  owners := by
    rintro o o' a ⟨ho, -⟩
    rw [hindex] at ho
    cases ho
  datums := by
    rw [Session.datums, hentries]
    exact List.nodup_nil
  names := by
    rw [hnames]
    nofun

/-- It does no harm when constraints go. -/
theorem congr (h : Apart s) (houtlines : t.index.outline? = s.index.outline?)
    (hallocator : t.allocator = s.allocator)
    (hentries : t.solver.entries.Sublist s.solver.entries) : Apart t := by
  have hdatums : t.datums.Sublist s.datums := hentries.flatMap Entry.datums
  refine ⟨fun ho ho' => ?_, h.datums.sublist hdatums, fun hn hmem => ?_⟩
  · rw [owns_congr houtlines (by rw [hallocator])] at ho ho'
    exact h.owners ho ho'
  · rw [hallocator] at hn
    exact h.names hn (hdatums.subset hmem)

/-- The block of a new geometry lies behind everything. -/
theorem place (h : Apart s) (hs : Sound s) {g : Geometry α} (hplaced : Placed s g t) :
    Apart t := by
  have hentries : t.datums = s.datums := by
    rw [Session.datums, hplaced.grown.entries, List.append_nil, Session.datums]
  have howns : ∀ o a, t.Owns o a ↔ s.Owns o a ∨
      o = g.outline ∧ s.solver.size ≤ a ∧ a < s.solver.size + g.geometryClass.ownCount := by
    refine fun o a => owns_place (Index.geometryAt?_of_has hplaced.fresh) ?_ hplaced.blocks
    rw [hplaced.index]
    exact Index.geometryAt?_insert _ (.geometry g) _
  refine ⟨?_, hentries ▸ h.datums, ?_⟩
  · intro o o' a ho ho'
    rcases (howns o a).1 ho with ho | ⟨rfl, hge, -⟩ <;>
      rcases (howns o' a).1 ho' with ho' | ⟨rfl, hge', -⟩
    · exact h.owners ho ho'
    · exact absurd (ho.lt hs.toAnchored) (Nat.not_lt.2 hge')
    · exact absurd (ho'.lt hs.toAnchored) (Nat.not_lt.2 hge)
    · rfl
  · intro n a hn
    rw [hplaced.names] at hn
    rw [hentries]
    exact h.names hn

theorem lt_of_mem_datums (hs : Sound s) (h : a ∈ s.datums) : a < s.solver.size := by
  obtain ⟨e, he, ha⟩ := mem_datums.1 h
  exact (hs.datums he ha).1

variable [Scalar α]

/-- So do the datums of a new constraint. -/
theorem enter (h : Apart s) (hs : Sound s) {c : Constraint α} {tag : Int} {e : Entry α}
    {outputs : Outputs} (henters : c.Enters tag s.solver e outputs t.solver)
    (houtlines : t.index.outline? = s.index.outline?) (hallocator : t.allocator = s.allocator) :
    Apart t := by
  obtain ⟨vs, hgrown, hnew⟩ := henters.grown
  have hdatums : t.datums = s.datums ++ List.range' s.solver.size vs.length := by
    simp [Session.datums, hgrown.entries, hnew]
  have hge : ∀ {b : Nat}, b ∈ List.range' s.solver.size vs.length → s.solver.size ≤ b :=
    fun hb => (List.mem_range'_1.1 hb).1
  refine ⟨fun ho ho' => ?_, ?_, fun {n a} hn hmem => ?_⟩
  · rw [owns_congr houtlines (by rw [hallocator])] at ho ho'
    exact h.owners ho ho'
  · rw [hdatums, List.nodup_append]
    refine ⟨h.datums, List.nodup_range', ?_⟩
    rintro a ha b hb rfl
    exact absurd (lt_of_mem_datums hs ha) (Nat.not_lt.2 (hge hb))
  · rw [hallocator] at hn
    rw [hdatums] at hmem
    rcases List.mem_append.1 hmem with hmem | hmem
    · exact h.names hn hmem
    · exact absurd (hs.lt_of_isInput (.inl ⟨n, hn⟩)) (Nat.not_lt.2 (hge hmem))

variable [Decompositions α]

theorem bind (h : Apart s) (hs : Sound s) (name : String) (v : α) :
    Apart (s.pushName name v) := by
  have hdatums : (s.pushName name v).datums = s.datums := by
    rw [Session.datums, pushName]
    change (Allocator.pushPrivate s.solver [v] true).entries.flatMap Entry.datums = s.datums
    rw [(grown_pushPrivate s.solver [v] true).entries, List.append_nil, Session.datums]
  refine ⟨h.owners, hdatums ▸ h.datums, ?_⟩
  intro n a hn
  rw [hdatums]
  have hfind : (s.pushName name v).allocator.names.find? n =
      if n = name then some s.solver.size else s.allocator.names.find? n := Table.find?_insert ..
  rw [hfind] at hn
  split at hn
  · cases hn
    exact fun hmem => Nat.lt_irrefl _ (lt_of_mem_datums hs hmem)
  · exact h.names hn

theorem move (h : Apart s) (hs : Sound s) {es : History α} (hmove : Move s es t) : Apart t := by
  cases hmove with
  | refuse hsame =>
      exact h.congr (by rw [hsame.index]) hsame.allocator (by rw [hsame.entries])
  | tune config algorithm => exact h.congr rfl rfl (List.Sublist.refl _)
  | place hplaced => exact h.place hs hplaced
  | enter hadmitted =>
      refine h.enter hs hadmitted.enters (outline?_congr ?_) hadmitted.allocator
      rw [hadmitted.index]
      exact Index.geometryAt?_insert_constraint _ hadmitted.fresh
  | extra _ henters => exact h.enter hs henters rfl rfl
  | clearExtra => exact h.congr rfl rfl List.filter_sublist
  | delete absent _ =>
      exact h.congr (outline?_congr (Index.geometryAt?_delete absent)) rfl List.filter_sublist
  | bind name v => exact h.bind hs name v
  | assign v bound => exact h.congr rfl rfl (List.Sublist.refl _)
  | solve x d => exact h.congr rfl rfl (List.Sublist.refl _)
  | apply _ =>
      have happlied := applied_applySolution s
      exact h.congr happlied.outlines happlied.allocator (by rw [happlied.entries])
  | clear => exact of_empty rfl rfl rfl

end Apart

/-! ### Holders -/

theorem nodup_held (h : Apart s) (k : Holder) : (s.held k).Nodup := by
  cases k with
  | geometry id =>
      rw [held]
      cases s.index.geometryAt? id with
      | none => exact List.nodup_nil
      | some g =>
          rw [Option.map_some, Option.getD_some, Allocator.own]
          split
          · exact List.nodup_range'
          · exact List.nodup_nil
  | name n =>
      rw [held]
      cases s.allocator.names.find? n with
      | none => exact List.nodup_nil
      | some a => exact List.nodup_singleton a
  | entry i =>
      rw [held]
      cases he : s.solver.entries[i]? with
      | none => exact List.nodup_nil
      | some e => exact (List.nodup_flatMap.1 h.datums).1 e (List.mem_of_getElem? he)

theorem lt_of_mem_held (hs : Sound s) {k : Holder} (h : a ∈ s.held k) : a < s.solver.size := by
  cases k with
  | geometry id =>
      obtain ⟨o, -, ho⟩ := (mem_held_geometry hs.toAnchored).1 h
      exact ho.lt hs.toAnchored
  | name n => exact hs.lt_of_isInput (.inl ⟨n, mem_held_name.1 h⟩)
  | entry i =>
      obtain ⟨e, he, ha⟩ := mem_held_entry.1 h
      exact (hs.datums (List.mem_of_getElem? he) ha).1

theorem entry_inj {es : List (Entry α)} (h : (es.flatMap Entry.datums).Nodup) {i j : Nat}
    {e f : Entry α} (hi : es[i]? = some e) (hj : es[j]? = some f) (he : a ∈ e.datums)
    (hf : a ∈ f.datums) : i = j := by
  obtain ⟨hilt, rfl⟩ := List.getElem?_eq_some_iff.1 hi
  obtain ⟨hjlt, rfl⟩ := List.getElem?_eq_some_iff.1 hj
  have hpairwise := List.pairwise_iff_getElem.1 (List.nodup_flatMap.1 h).2
  rcases Nat.lt_trichotomy i j with hij | rfl | hij
  · exact absurd hf (hpairwise i j hilt hjlt hij he)
  · rfl
  · exact absurd he (hpairwise j i hjlt hilt hij hf)

/-- A scalar has one holder. -/
theorem holder_inj (hs : Sound s) (h : Apart s)
    (hdistinct : ∀ {m n} {a : Nat}, s.allocator.names.find? m = some a →
      s.allocator.names.find? n = some a → m = n)
    {k l : Holder} (hk : a ∈ s.held k) (hl : a ∈ s.held l) : k = l := by
  have hentry : ∀ {i}, a ∈ s.held (.entry i) → a ∈ s.datums ∧ ∀ o, ¬ s.Owns o a := by
    intro i ha
    obtain ⟨e, he, ha⟩ := mem_held_entry.1 ha
    have hmem := List.mem_of_getElem? he
    exact ⟨mem_datums.2 ⟨e, hmem, ha⟩, (hs.datums hmem ha).2⟩
  cases k with
  | geometry id =>
      obtain ⟨o, rfl, ho⟩ := (mem_held_geometry hs.toAnchored).1 hk
      cases l with
      | geometry id' =>
          obtain ⟨o', rfl, ho'⟩ := (mem_held_geometry hs.toAnchored).1 hl
          rw [h.owners ho ho']
      | name n => exact absurd ho ((hs.named (mem_held_name.1 hl)).2 o)
      | entry j => exact absurd ho ((hentry hl).2 o)
  | name n =>
      have hn := mem_held_name.1 hk
      cases l with
      | geometry id =>
          obtain ⟨o, -, ho⟩ := (mem_held_geometry hs.toAnchored).1 hl
          exact absurd ho ((hs.named hn).2 o)
      | name m => rw [hdistinct hn (mem_held_name.1 hl)]
      | entry j => exact absurd (hentry hl).1 (h.names hn)
  | entry i =>
      cases l with
      | geometry id =>
          obtain ⟨o, -, ho⟩ := (mem_held_geometry hs.toAnchored).1 hl
          exact absurd ho ((hentry hk).2 o)
      | name n => exact absurd (hentry hk).1 (h.names (mem_held_name.1 hl))
      | entry j =>
          obtain ⟨e, hi, he⟩ := mem_held_entry.1 hk
          obtain ⟨f, hj, hf⟩ := mem_held_entry.1 hl
          rw [entry_inj h.datums hi hj he hf]

/-! ### Blocks stay where they are -/

theorem Step.block_old (hs : Anchored s) (h : Step s t) {id : Oid} {base : Nat}
    (hbase : s.allocator.blocks.find? id = some base) :
    t.allocator.blocks.find? id = some base := by
  cases h with
  | append _ blocks _ _ => rw [blocks, hbase]
  | place fresh _ geometries blocks _ _ =>
      obtain ⟨o, ho, -⟩ := hs.held hbase
      have hne := (outline?_place_old fresh geometries ho).2
      rw [blocks, if_neg fun h => hne h.1, hbase]
  | forget _ _ allocator _ => rw [allocator, hbase]
  | assign _ allocator _ _ _ => rw [allocator, hbase]
  | keep _ allocator _ _ => rw [allocator, hbase]

theorem Sound.block_steps (hs : Sound s) (h : ReflTransGen Step s t) {id : Oid} {base : Nat}
    (hbase : s.allocator.blocks.find? id = some base) :
    t.allocator.blocks.find? id = some base := by
  induction h with
  | refl => exact hbase
  | tail hsteps hstep ih => exact hstep.block_old (hs.steps hsteps).toAnchored ih

variable [Scalar α] [Decompositions α]

theorem Sound.block_perform (hs : Sound s) {r : Request α} (hr : r ≠ .clear) :
    s.solver.size ≤ (s.perform r).solver.size ∧
      ∀ {id} {base : Nat}, s.allocator.blocks.find? id = some base →
        (s.perform r).allocator.blocks.find? id = some base := by
  rcases perform_cases hs r with hsteps | ⟨-, -, happlied⟩ | hclear
  · exact ⟨(Retains.steps hsteps).size, hs.block_steps hsteps⟩
  · exact ⟨happlied.retains.size, fun hbase => by rw [happlied.allocator, hbase]⟩
  · exact absurd hclear hr

/-- Exactly the geometries with scalars of their own have a block. No two holders share a scalar,
all scalars that are held exist, and no call but one that clears everything moves a block or takes
scalars away. -/
theorem Reachable.blocks_apart (h : Reachable s) :
    (∀ id, s.allocator.has id ↔
      ∃ g, s.index.get? id = some (.geometry g) ∧ 0 < g.geometryClass.ownCount) ∧
    (∀ k, (s.held k).Nodup ∧ ∀ a ∈ s.held k, a < s.solver.size) ∧
    (∀ k l, k ≠ l → (s.held k).Disjoint (s.held l)) ∧
    ∀ r, r ≠ Request.clear → s.solver.size ≤ (s.perform r).solver.size ∧
      ∀ id base, s.allocator.address id = .ok base →
        (s.perform r).allocator.address id = .ok base := by
  have hs := h.sound
  obtain ⟨s₀, es, hfresh, hrun⟩ := h.exists_run
  obtain ⟨-, hnames, -⟩ := hrun.inputs hfresh
  have hapart : Apart s := by
    refine hrun.invariant (P := fun _ t => Apart t) hfresh.sound ?_ ?_
    · cases hfresh <;> exact .of_empty rfl rfl rfl
    · intro es t es' u ht hapart hmove
      exact hapart.move ht hmove
  refine ⟨fun id => hs.toAnchored.has_iff_ownsScalars,
    fun k => ⟨nodup_held hapart k, fun a ha => lt_of_mem_held hs ha⟩, ?_, ?_⟩
  · intro k l hkl a hk hl
    exact hkl (holder_inj hs hapart hnames.distinct hk hl)
  · intro r hr
    obtain ⟨hsize, hblock⟩ := hs.block_perform hr
    refine ⟨hsize, fun id base hbase => ?_⟩
    rw [Allocator.address_eq_ok] at hbase ⊢
    exact hblock hbase

/-- The distance is measured into the second scalar that it was given; the first is nobody's. -/
theorem blocks_measuringSession :
    measuringSession.held (.geometry ⟨2⟩) = [2, 3] ∧
    measuringSession.held (.name "width") = [4] ∧
    measuringSession.held (.entry 0) = [6] ∧
    (measuringSession.held (.name "width")).Disjoint (measuringSession.held (.entry 0)) ∧
    measuringSession.allocator.has ⟨7⟩ = false ∧
    (measuringSession.perform (.delete ⟨7⟩)).allocator.address ⟨2⟩ = .ok 2 := by
  have h : Reachable measuringSession :=
    .perform (.perform (.perform reachable_smallSession _) _) _
  obtain ⟨hhas, -, hdisjoint, hlater⟩ := h.blocks_apart
  have hentry : measuringSession.held (.entry 0) = [6] := by decide +kernel
  refine ⟨rfl, rfl, hentry, hdisjoint _ _ nofun, ?_, (hlater (.delete ⟨7⟩) nofun).2 ⟨2⟩ 2 rfl⟩
  rw [Bool.eq_false_iff]
  intro hseven
  obtain ⟨g, hg, -⟩ := (hhas ⟨7⟩).1 hseven
  have hget : measuringSession.index.get? ⟨7⟩ = some (.constraint measuredDistance) := rfl
  cases hget.symm.trans hg

end Session

end PlanarSketch
