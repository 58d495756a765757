import Mathlib.Data.List.Forall2
import PlanarSketch.Proofs.Session.History
import PlanarSketch.Proofs.Session.ReadBack

/-!
The books of a session: the sketch, the solver's entries and the recorded outputs, which pushes,
deletions and clears update one by one. Along every run they agree. The entries are those of the
constraints of the sketch, in its order, and those of the constraints outside it, in theirs; outputs
are recorded for what measures. So a deletion takes out one entry, wherever it is.
-/

namespace PlanarSketch

open LeastSquares

variable {α : Type}

theorem Oid.tag_nonneg {id : Oid} {tag : Int} (h : id.tag = .ok tag) : 0 ≤ tag := by
  obtain ⟨-, rfl⟩ := Oid.tag_eq_ok.1 h
  exact Int.natCast_nonneg _

theorem Oid.tag_inj {id id' : Oid} {tag : Int} (h : id.tag = .ok tag) (h' : id'.tag = .ok tag) :
    id = id' := by
  obtain ⟨-, htag⟩ := Oid.tag_eq_ok.1 h
  obtain ⟨-, htag'⟩ := Oid.tag_eq_ok.1 h'
  have hval : id.val = id'.val :=
    UInt32.toNat_inj.1 (Int.ofNat_inj.1 (htag.symm.trans htag'))
  cases id
  cases id'
  exact congrArg Oid.mk hval

theorem Oid.tag_ne_extra {id : Oid} {tag : Int} (h : id.tag = .ok tag) : tag ≠ extraTag := by
  have hnonneg := Oid.tag_nonneg h
  rintro rfl
  exact absurd hnonneg (by decide)

namespace Index

variable {x : Index α} {p : Primitive α} (n : Nat)

theorem constraints_eq (x : Index α) :
    x.constraints = x.items.entries.filterMap fun e => e.2.constraint? :=
  List.filterMap_map

theorem constraints_insert (h : x.has p.id = false) :
    (⟨x.items.insert p.id p, n⟩ : Index α).constraints =
      x.constraints ++ p.constraint?.toList := by
  rw [constraints_eq, Table.entries_insert_new p h, List.filterMap_append, ← constraints_eq]
  cases p <;> rfl

theorem get?_insert :
    (⟨x.items.insert p.id p, n⟩ : Index α).get? = Function.update x.get? p.id (some p) :=
  x.items.update_find? p.id p

/-- Picking constraints by id is picking slots by key. -/
theorem constraints_filter (P : Oid → Bool) {es : List (Oid × Primitive α)}
    (h : ∀ e ∈ es, e.2.id = e.1) :
    (es.filterMap fun e => e.2.constraint?).filter (fun c => P c.id) =
      (es.filter fun e => P e.1).filterMap fun e => e.2.constraint? := by
  induction es with
  | nil => rfl
  | cons e es ih =>
      have ih := ih fun e' he' => h e' (List.mem_cons_of_mem e he')
      obtain ⟨id, p⟩ := e
      have hid : p.id = id := h (id, p) List.mem_cons_self
      subst hid
      cases p with
      | geometry g =>
          by_cases hP : P g.id <;> simpa [Primitive.constraint?, Primitive.id, hP] using ih
      | constraint c =>
          by_cases hP : P c.id <;> simpa [Primitive.constraint?, Primitive.id, hP] using ih

end Index

/-- Names of the parameters that outputs are recorded for. -/
def Primitive.measuredNames? : Primitive α → Option (List String)
  | .geometry _ => none
  | .constraint c => if c.isDriving || c.literalNames.isEmpty then none else some c.literalNames

theorem Constraint.literalNames_nodup (c : Constraint α) : c.literalNames.Nodup :=
  c.kind.nodup_schema.sublist (List.filter_sublist.map _)

theorem Primitive.measuredNames?_eq_some {p : Primitive α} {names : List String} :
    p.measuredNames? = some names ↔
      ∃ c, p = .constraint c ∧ c.isDriving = false ∧ names = c.literalNames ∧ names ≠ [] := by
  cases p with
  | geometry g => simp [measuredNames?]
  | constraint c =>
      simp only [measuredNames?, constraint.injEq, exists_eq_left']
      cases c.isDriving with
      | true => simp
      | false =>
          cases c.literalNames with
          | nil => simp
          | cons name names' =>
              simp only [List.isEmpty_cons, Bool.or_self, Bool.false_eq_true, if_false,
                Option.some.injEq, true_and]
              exact ⟨fun h => ⟨h.symm, h ▸ List.cons_ne_nil _ _⟩, fun h => h.1.symm⟩

namespace LeastSquares

def sketchEntries (s : LeastSquares α) : List (Entry α) := s.entries.filter fun e => 0 ≤ e.tag

def extraEntries (s : LeastSquares α) : List (Entry α) := s.entries.filter fun e => e.tag = extraTag

end LeastSquares

variable [Scalar α]

/-- The entry is that of a constraint of the sketch. -/
def Entry.Belongs (e : Entry α) (c : Constraint α) : Prop := c.id.tag = .ok e.tag ∧ e.Stores e.tag c

theorem Entry.Belongs.tag_eq_iff {e : Entry α} {c : Constraint α} {id : Oid} {tag : Int}
    (h : e.Belongs c) (htag : id.tag = .ok tag) : e.tag = tag ↔ c.id = id := by
  constructor
  · rintro rfl
    exact Oid.tag_inj h.1 htag
  · rintro rfl
    exact Except.ok.inj (h.1.symm.trans htag)

/-- New parameters leave a constraint its entry. -/
theorem Index.belongs_mapValues {f : Oid → Primitive α → Primitive α} {es : List (Entry α)}
    {ps : List (Oid × Primitive α)} (hf : ∀ id (p : Primitive α), p.Reread (f id p))
    (h : List.Forall₂ Entry.Belongs es (ps.filterMap fun e => e.2.constraint?)) :
    List.Forall₂ Entry.Belongs es
      ((ps.map fun e => (e.1, f e.1 e.2)).filterMap fun e => e.2.constraint?) := by
  induction ps generalizing es with
  | nil => exact h
  | cons e ps ih =>
      obtain ⟨id, p⟩ := e
      have hp := hf id p
      simp only [List.map_cons, List.filterMap_cons] at h ⊢
      generalize f id p = q at hp ⊢
      cases hp with
      | geometry _ => exact ih h
      | constraint c params =>
          simp only [Primitive.constraint?] at h ⊢
          cases h with
          | cons he hes =>
              exact .cons ⟨he.1, he.2.tag, he.2.driving, he.2.scale, he.2.equation⟩ (ih hes)

namespace Session

/-- The books after some events. -/
structure Ledger (es : History α) (t : Session (LeastSquares α) α) : Prop where
  keyed : ∀ e ∈ t.index.items.entries, e.2.id = e.1
  standing : ∀ id, Option.Rel Primitive.Reread (es.standing id) (t.index.get? id)
  belongs : List.Forall₂ Entry.Belongs t.solver.sketchEntries t.index.constraints
  extras : List.Forall₂ (fun e c => e.Stores extraTag c) t.solver.extraEntries es.extras
  tags : ∀ e ∈ t.solver.entries, 0 ≤ e.tag ∨ e.tag = extraTag
  measured : ∀ id, (t.measured.find? id).map (List.map Prod.fst) =
    (es.standing id).bind Primitive.measuredNames?
  outputs : ∀ {id os}, t.measured.find? id = some os →
    ∃ e ∈ t.solver.entries, id.tag = .ok e.tag ∧ os.map Prod.snd = e.datums

variable {s t : Session (LeastSquares α) α} {es es' : History α}

namespace Ledger

theorem of_empty (hitems : t.index.items = .empty) (hentries : t.solver.entries = [])
    (hmeasured : t.measured = .empty) (hstanding : es.standing = fun _ => none)
    (hextras : es.extras = []) : Ledger es t where
  keyed := by
    rw [hitems]
    exact List.forall_mem_nil _
  standing id := by
    rw [hstanding, Index.get?, hitems]
    exact .none
  belongs := by
    rw [sketchEntries, hentries, Index.constraints, Index.all, hitems]
    exact .nil
  extras := by
    rw [extraEntries, hentries, hextras]
    exact .nil
  tags := by
    rw [hentries]
    exact List.forall_mem_nil _
  measured id := by
    rw [hmeasured, hstanding]
    rfl
  outputs := by
    rw [hmeasured]
    intro id os hos
    cases hos

/-- Scalars do not show in the books. -/
theorem congr (h : Ledger es s) (hindex : t.index = s.index) (hmeasured : t.measured = s.measured)
    (hentries : t.solver.entries = s.solver.entries) (hstanding : es'.standing = es.standing)
    (hextras : es'.extras = es.extras) : Ledger es' t where
  keyed := by
    rw [hindex]
    exact h.keyed
  standing := by
    rw [hindex, hstanding]
    exact h.standing
  belongs := by
    rw [sketchEntries, hentries, hindex]
    exact h.belongs
  extras := by
    rw [extraEntries, hentries, hextras]
    exact h.extras
  tags := by
    rw [hentries]
    exact h.tags
  measured := by
    rw [hmeasured, hstanding]
    exact h.measured
  outputs := by
    rw [hmeasured, hentries]
    exact h.outputs

theorem has_iff (h : Ledger es s) {id : Oid} : s.index.has id ↔ ∃ p, es.standing id = some p := by
  rw [Index.has_iff]
  have hrel := h.standing id
  generalize es.standing id = o, s.index.get? id = o' at hrel
  cases hrel <;> simp

theorem standing_none (h : Ledger es s) {id : Oid} (hid : s.index.has id = false) :
    es.standing id = none := by
  rw [Option.eq_none_iff_forall_ne_some]
  intro p hp
  have hhas := h.has_iff.2 ⟨p, hp⟩
  rw [hid] at hhas
  cases hhas

theorem measured_none (h : Ledger es s) {id : Oid} (hid : s.index.has id = false) :
    s.measured.find? id = none := by
  have hmeasured := h.measured id
  rw [h.standing_none hid] at hmeasured
  exact Option.map_eq_none_iff.1 hmeasured

/-- A primitive comes in with its entry, if it has one, and its outputs. -/
theorem insert {p : Primitive α} {new : List (Entry α)} {outputs : Outputs} (h : Ledger es s)
    (hid : s.index.has p.id = false)
    (hindex : t.index = ⟨s.index.items.insert p.id p, s.index.counter + 1⟩)
    (hentries : t.solver.entries = s.solver.entries ++ new)
    (hmeasured : t.measured =
      if outputs.isEmpty then s.measured else s.measured.insert p.id outputs)
    (hnew : List.Forall₂ Entry.Belongs new p.constraint?.toList)
    (hnames : (if outputs.isEmpty then none else some (outputs.map Prod.fst)) = p.measuredNames?)
    (haddresses : ¬ outputs.isEmpty → ∃ e ∈ new, outputs.map Prod.snd = e.datums) :
    Ledger (es ++ [.pushed p]) t := by
  have htags : ∀ e ∈ new, p.id.tag = .ok e.tag := by
    intro e he
    cases p with
    | geometry g =>
        cases hnew
        cases he
    | constraint c =>
        obtain ⟨_, _, hbelongs, hrest, rfl⟩ := List.forall₂_cons_right_iff.1 hnew
        cases hrest
        rw [List.mem_singleton.1 he]
        exact hbelongs.1
  have hsketch : new.filter (fun e => 0 ≤ e.tag) = new :=
    List.filter_eq_self.2 fun e he => decide_eq_true (Oid.tag_nonneg (htags e he))
  have hextra : new.filter (fun e => e.tag = extraTag) = [] :=
    List.filter_eq_nil_iff.2 fun e he => by simpa using Oid.tag_ne_extra (htags e he)
  have hstanding : (es ++ [Event.pushed p]).standing = Function.update es.standing p.id (some p) :=
    History.standing_concat es (.pushed p)
  have hfind : ∀ id, t.measured.find? id =
      if id = p.id ∧ ¬ outputs.isEmpty then some outputs else s.measured.find? id := by
    intro id
    rw [hmeasured]
    cases outputs.isEmpty with
    | true => simp
    | false => simp [Table.find?_insert]
  refine ⟨?_, ?_, ?_, ?_, ?_, ?_, ?_⟩
  · rw [hindex, Table.entries_insert_new p hid]
    intro e he
    rcases List.mem_append.1 he with he | he
    · exact h.keyed e he
    · rw [List.mem_singleton.1 he]
  · intro id
    rw [hindex, Index.get?_insert, hstanding]
    by_cases heq : id = p.id
    · subst heq
      rw [Function.update_self, Function.update_self]
      exact .some (.refl p)
    · rw [Function.update_of_ne heq, Function.update_of_ne heq]
      exact h.standing id
  · rw [sketchEntries, hentries, List.filter_append, hsketch, hindex,
      Index.constraints_insert _ hid]
    exact List.rel_append h.belongs hnew
  · rw [extraEntries, hentries, List.filter_append, hextra, List.append_nil,
      History.extras_concat]
    exact h.extras
  · rw [hentries]
    intro e he
    rcases List.mem_append.1 he with he | he
    · exact h.tags e he
    · exact .inl (Oid.tag_nonneg (htags e he))
  · intro id
    rw [hfind, hstanding]
    by_cases heq : id = p.id
    · subst heq
      rw [Function.update_self, Option.bind_some, ← hnames]
      by_cases hempty : outputs.isEmpty
      · simp [hempty, h.measured_none hid]
      · simp [hempty]
    · rw [Function.update_of_ne heq, if_neg fun hc => heq hc.1]
      exact h.measured id
  · intro id os hos
    rw [hfind] at hos
    rw [hentries]
    by_cases hc : id = p.id ∧ ¬ outputs.isEmpty
    · rw [if_pos hc] at hos
      cases hos
      obtain ⟨e, he, hdatums⟩ := haddresses hc.2
      exact ⟨e, List.mem_append_right _ he, hc.1 ▸ htags e he, hdatums⟩
    · rw [if_neg hc] at hos
      obtain ⟨e, he, hrest⟩ := h.outputs hos
      exact ⟨e, List.mem_append_left _ he, hrest⟩

theorem place {g : Geometry α} (h : Ledger es s) (hp : Placed s g t) :
    Ledger (es ++ [.pushed (.geometry g)]) t := by
  have hmeasured : t.measured =
      if ([] : Outputs).isEmpty then s.measured else s.measured.insert g.id [] := hp.measured
  exact h.insert (p := .geometry g) hp.fresh hp.index hp.grown.entries hmeasured .nil rfl
    fun hne => absurd rfl hne

theorem enter {c : Constraint α} {e : Entry α} {outputs : Outputs} (h : Ledger es s)
    (ha : Admitted s c e outputs t) : Ledger (es ++ [.pushed (.constraint c)]) t := by
  obtain ⟨vs, hgrown, -⟩ := ha.enters.grown
  refine h.insert (p := .constraint c) ha.fresh ha.index hgrown.entries ha.measured
    (.cons ⟨ha.tagged, ha.enters.stores⟩ .nil) ?_ fun hne => ⟨e, List.mem_singleton_self e, ?_⟩
  · have hempty : outputs.isEmpty = (outputs.map Prod.fst).isEmpty := List.isEmpty_map.symm
    rw [hempty, ha.enters.names, Primitive.measuredNames?]
    cases c.isDriving <;> simp
  · have haddresses := ha.enters.addresses
    cases hd : c.isDriving with
    | true =>
        rw [hd, if_pos rfl, List.map_eq_nil_iff] at haddresses
        rw [haddresses] at hne
        exact absurd rfl hne
    | false => simpa [hd] using haddresses

theorem extra {c : Constraint α} {e : Entry α} {outputs : Outputs} {solver : LeastSquares α}
    (h : Ledger es s) (henters : c.Enters extraTag s.solver e outputs solver) :
    Ledger (es ++ [.extra c]) { s with solver := solver, phase := .building } := by
  obtain ⟨vs, hgrown, -⟩ := henters.grown
  have htag : e.tag = extraTag := henters.stores.tag
  have hentries := hgrown.entries
  refine ⟨h.keyed, ?_, ?_, ?_, ?_, ?_, ?_⟩
  · rw [History.standing_concat]
    exact h.standing
  · have hnew : [e].filter (fun e => 0 ≤ e.tag) = [] := by
      simp [htag, extraTag]
    rw [sketchEntries, hentries, List.filter_append, hnew, List.append_nil]
    exact h.belongs
  · have hnew : [e].filter (fun e => e.tag = extraTag) = [e] := by
      simp [htag]
    rw [extraEntries, hentries, List.filter_append, hnew, History.extras_concat]
    exact List.rel_append h.extras (.cons henters.stores .nil)
  · rw [hentries]
    intro e' he
    rcases List.mem_append.1 he with he | he
    · exact h.tags e' he
    · rw [List.mem_singleton.1 he]
      exact .inr htag
  · rw [History.standing_concat]
    exact h.measured
  · intro id os hos
    obtain ⟨e', he, hrest⟩ := h.outputs hos
    rw [hentries]
    exact ⟨e', List.mem_append_left _ he, hrest⟩

theorem delete {id : Oid} {tag : Int} (h : Ledger es s) (htag : id.tag = .ok tag) :
    Ledger (es ++ [.deleted id]) { s with
      solver := s.solver.clearTag tag
      index := s.index.delete id
      measured := s.measured.erase id
      phase := .building } := by
  have hentries : (s.solver.clearTag tag).entries =
      s.solver.entries.filter fun e => e.tag ≠ tag := rfl
  have hitems : (s.index.delete id).items.entries =
      s.index.items.entries.filter fun e => e.1 ≠ id := rfl
  have hstanding : (es ++ [Event.deleted id]).standing = Function.update es.standing id none :=
    History.standing_concat es (.deleted id)
  refine ⟨?_, ?_, ?_, ?_, ?_, ?_, ?_⟩
  · rw [hitems]
    exact fun e he => h.keyed e (List.mem_filter.1 he).1
  · intro id'
    rw [Index.get?_delete, hstanding]
    by_cases heq : id' = id
    · subst heq
      rw [Function.update_self, if_pos rfl]
      exact .none
    · rw [Function.update_of_ne heq, if_neg heq]
      exact h.standing id'
  · rw [Index.constraints_eq, hitems, ← Index.constraints_filter (fun k => k ≠ id) h.keyed,
      ← Index.constraints_eq, sketchEntries, hentries, List.filter_comm]
    refine List.rel_filter ?_ h.belongs
    intro e c hbelongs
    simp only [decide_eq_true_eq]
    exact not_congr (hbelongs.tag_eq_iff htag)
  · have hsame : s.solver.extraEntries.filter (fun e => e.tag ≠ tag) =
        s.solver.extraEntries := by
      refine List.filter_eq_self.2 fun e he => decide_eq_true ?_
      have hextra : e.tag = extraTag := by simpa using (List.mem_filter.1 he).2
      rw [hextra]
      exact (Oid.tag_ne_extra htag).symm
    rw [extraEntries, hentries, List.filter_comm, History.extras_concat]
    exact hsame.symm ▸ h.extras
  · rw [hentries]
    exact fun e he => h.tags e (List.mem_filter.1 he).1
  · intro id'
    rw [Table.find?_erase, hstanding]
    by_cases heq : id' = id
    · subst heq
      rw [Function.update_self, if_pos rfl]
      rfl
    · rw [Function.update_of_ne heq, if_neg heq]
      exact h.measured id'
  · intro id' os hos
    rw [Table.find?_erase] at hos
    by_cases heq : id' = id
    · rw [if_pos heq] at hos
      cases hos
    · rw [if_neg heq] at hos
      obtain ⟨e, he, htag', hrest⟩ := h.outputs hos
      rw [hentries]
      refine ⟨e, List.mem_filter.2 ⟨he, ?_⟩, htag', hrest⟩
      exact decide_eq_true fun hc => heq (Oid.tag_inj htag' (hc ▸ htag))

theorem readBack (h : Ledger es s) : Ledger es s.readBack := by
  refine ⟨?_, ?_, ?_, h.extras, h.tags, h.measured, h.outputs⟩
  · intro e he
    obtain ⟨e', he', rfl⟩ := List.mem_map.1 he
    exact (s.rereads e'.1 e'.2).id_eq.trans (h.keyed e' he')
  · intro id
    rw [get?_readBack]
    have hrel := h.standing id
    generalize es.standing id = o, s.index.get? id = o' at hrel
    cases hrel with
    | none => exact .none
    | some hpq => exact .some (hpq.trans (s.rereads id _))
  · have hbelongs := h.belongs
    rw [Index.constraints_eq] at hbelongs ⊢
    exact Index.belongs_mapValues s.rereads hbelongs

/-- What the sketch holds under an id is what was pushed there, up to what is read back. -/
theorem get?_eq_some (h : Ledger es s) {id : Oid} {q : Primitive α}
    (hq : s.index.get? id = some q) : ∃ p, es.standing id = some p ∧ p.Reread q := by
  have hrel := h.standing id
  rw [hq] at hrel
  generalize es.standing id = o at hrel
  cases hrel with
  | some hpq => exact ⟨_, rfl, hpq⟩

theorem standing_eq_some (h : Ledger es s) {id : Oid} {p : Primitive α}
    (hp : es.standing id = some p) : ∃ q, s.index.get? id = some q ∧ p.Reread q := by
  have hrel := h.standing id
  rw [hp] at hrel
  generalize s.index.get? id = o at hrel
  cases hrel with
  | some hpq => exact ⟨_, rfl, hpq⟩

/-- Outputs are recorded for the constraints that measure and were pushed with a literal. -/
theorem measured_iff (h : Ledger es s) {id : Oid} :
    s.measured.contains id ↔ ∃ c c₀, s.index.get? id = some (.constraint c) ∧
      c.isDriving = false ∧ es.standing id = some (.constraint c₀) ∧ c₀.literalNames ≠ [] := by
  have hmeasured := h.measured id
  rw [Table.contains, Option.isSome_iff_exists]
  constructor
  · rintro ⟨os, hos⟩
    rw [hos] at hmeasured
    obtain ⟨p, hp, hnames⟩ := Option.bind_eq_some_iff.1 hmeasured.symm
    obtain ⟨c₀, rfl, hdriving, hliteral, hne⟩ := Primitive.measuredNames?_eq_some.1 hnames
    obtain ⟨q, hq, hreread⟩ := h.standing_eq_some hp
    cases hreread with
    | constraint _ params => exact ⟨_, c₀, hq, hdriving, hp, hliteral ▸ hne⟩
  · rintro ⟨c, c₀, hget, hdriving, hp, hne⟩
    obtain ⟨q, hq, hreread⟩ := h.standing_eq_some hp
    cases hreread with
    | constraint _ params =>
        cases hget.symm.trans hq
        rw [hp, Option.bind_some,
          Primitive.measuredNames?_eq_some.2 ⟨c₀, rfl, hdriving, rfl, hne⟩] at hmeasured
        obtain ⟨os, hos, -⟩ := Option.map_eq_some_iff.1 hmeasured
        exact ⟨os, hos⟩

theorem measured_driving (h : Ledger es s) {id : Oid} {c : Constraint α}
    (hget : s.index.get? id = some (.constraint c)) (hc : c.isDriving = true) :
    s.measured.find? id = none := by
  rw [Option.eq_none_iff_forall_ne_some]
  intro os hos
  obtain ⟨c', -, hget', hmeasures, -⟩ :=
    h.measured_iff.1 (Option.isSome_iff_exists.2 ⟨os, hos⟩)
  cases hget.symm.trans hget'
  rw [hc] at hmeasures
  cases hmeasures

theorem readable (h : Ledger es s) (hs : Sound s) : Readable s where
  blocks := by
    intro id g base hg hbase
    obtain ⟨o, ho, -, hle⟩ := hs.held hbase
    rw [hs.toAnchored.key hg, Index.outline?_of_get? hg] at ho
    cases ho
    exact hle
  outputs := by
    intro id os hos
    obtain ⟨e, he, -, hdatums⟩ := h.outputs hos
    have hnames := h.measured id
    rw [hos] at hnames
    obtain ⟨p, -, hp⟩ := Option.bind_eq_some_iff.1 hnames.symm
    obtain ⟨c, -, -, hliteral, -⟩ := Primitive.measuredNames?_eq_some.1 hp
    refine ⟨hliteral ▸ c.literalNames_nodup, fun o ho => ?_⟩
    exact (hs.datums he (hdatums ▸ List.mem_map_of_mem ho)).1

theorem applied (h : Ledger es s) : Ledger es s.applied :=
  readBack (h.congr (t := s.written) rfl rfl rfl rfl rfl)

variable [Decompositions α]

theorem clearExtra (h : Ledger es s) : Ledger (es ++ [.extrasCleared]) s.clearExtra := by
  have hentries : s.clearExtra.solver.entries =
      s.solver.entries.filter fun e => e.tag ≠ extraTag := rfl
  refine ⟨h.keyed, ?_, ?_, ?_, ?_, ?_, ?_⟩
  · rw [History.standing_concat]
    exact h.standing
  · have hsame : s.solver.sketchEntries.filter (fun e => e.tag ≠ extraTag) =
        s.solver.sketchEntries := by
      refine List.filter_eq_self.2 fun e he => decide_eq_true ?_
      have hnonneg : 0 ≤ e.tag := by simpa using (List.mem_filter.1 he).2
      rw [extraTag]
      omega
    rw [sketchEntries, hentries, List.filter_comm]
    exact hsame.symm ▸ h.belongs
  · have hnone : s.clearExtra.solver.extraEntries = [] := by
      refine List.filter_eq_nil_iff.2 fun e he => ?_
      rw [hentries] at he
      simpa using (List.mem_filter.1 he).2
    rw [hnone, History.extras_concat]
    exact .nil
  · rw [hentries]
    exact fun e he => h.tags e (List.mem_filter.1 he).1
  · rw [History.standing_concat]
    exact h.measured
  · intro id os hos
    obtain ⟨e, he, htag, hrest⟩ := h.outputs hos
    rw [hentries]
    exact ⟨e, List.mem_filter.2 ⟨he, by simpa using Oid.tag_ne_extra htag⟩, htag, hrest⟩

theorem move (h : Ledger es s) (hs : Sound s) (hmove : Move s es' t) : Ledger (es ++ es') t := by
  cases hmove with
  | refuse hsame =>
      rw [List.append_nil]
      exact h.congr hsame.index hsame.measured hsame.entries rfl rfl
  | tune config algorithm =>
      rw [List.append_nil]
      exact h.congr rfl rfl rfl rfl rfl
  | place hp => exact h.place hp
  | enter ha => exact h.enter ha
  | extra _ henters => exact h.extra henters
  | clearExtra => exact h.clearExtra
  | delete _ htag => exact h.delete htag
  | bind name v =>
      exact h.congr rfl rfl rfl (History.standing_concat es _) (History.extras_concat es _)
  | assign v bound =>
      exact h.congr rfl rfl rfl (History.standing_concat es _) (History.extras_concat es _)
  | solve x d =>
      exact h.congr rfl rfl rfl (History.standing_concat es _) (History.extras_concat es _)
  | apply hphase =>
      rw [List.append_nil, (h.readable hs).applySolution_eq hphase]
      exact h.applied
  | clear =>
      exact .of_empty rfl rfl rfl (History.standing_concat es _) (History.extras_concat es _)

end Ledger

theorem Ledger.entries_with_tag (h : Ledger es t) {id : Oid} {tag : Int}
    (htag : id.tag = .ok tag) : List.Forall₂ Entry.Belongs
      (t.solver.entries.filter fun e => e.tag = tag)
      (t.index.constraints.filter fun c => c.id = id) := by
  have hsame : (t.solver.entries.filter fun e => e.tag = tag).filter (fun e => 0 ≤ e.tag) =
      t.solver.entries.filter fun e => e.tag = tag := by
    refine List.filter_eq_self.2 fun e he => decide_eq_true ?_
    have heq : e.tag = tag := by simpa using (List.mem_filter.1 he).2
    exact heq ▸ Oid.tag_nonneg htag
  rw [← hsame, List.filter_comm]
  refine List.rel_filter ?_ h.belongs
  intro e c hbelongs
  simp only [decide_eq_true_eq]
  exact hbelongs.tag_eq_iff htag

/-- The tag of an unused id is unused as well. -/
theorem Ledger.tag_ne (h : Ledger es t) {id : Oid} {tag : Int} (hid : t.index.has id = false)
    (htag : id.tag = .ok tag) : ∀ e ∈ t.solver.entries, e.tag ≠ tag := by
  have hget : t.index.items.find? id = none := Table.contains_eq_false.1 hid
  have hconstraints : t.index.constraints.filter (fun c => c.id = id) = [] := by
    have hslots : t.index.items.entries.filter (fun e => e.1 = id) = [] :=
      List.filter_eq_nil_iff.2 fun e he => by
        simpa using Table.key_ne_of_find? hget e he
    rw [Index.constraints_eq, Index.constraints_filter (fun k => k = id) h.keyed, hslots]
    rfl
  have hentries := h.entries_with_tag htag
  rw [hconstraints] at hentries
  have hgone := List.forall₂_nil_right_iff.1 hentries
  exact fun e he => by simpa using List.filter_eq_nil_iff.1 hgone e he

variable [Decompositions α]

/-- What holds at the start and is preserved by every move holds along every run, of sessions with
books that agree. -/
theorem Run.invariant_of_ledger {P : History α → Session (LeastSquares α) α → Prop}
    {before : History α} (hs : Sound s) (hl : Ledger before s) (start : P [] s)
    (step : ∀ es t es' u, Sound t → Ledger (before ++ es) t → P es t → Move t es' u →
      P (es ++ es') u) (h : Run s es t) : Ledger (before ++ es) t ∧ P es t := by
  refine h.invariant (P := fun es t => Ledger (before ++ es) t ∧ P es t) hs ?_ ?_
  · exact ⟨by rwa [List.append_nil], start⟩
  · rintro es t es' u ht ⟨hl, hp⟩ hmove
    refine ⟨?_, step es t es' u ht hl hp hmove⟩
    rw [← List.append_assoc]
    exact hl.move ht hmove

theorem Run.ledger_append {before : History α} (hs : Sound s) (hl : Ledger before s)
    (h : Run s es t) : Ledger (before ++ es) t :=
  (h.invariant_of_ledger (P := fun _ _ => True) hs hl trivial fun _ _ _ _ _ _ _ _ => trivial).1

theorem Fresh.ledger (h : Fresh s) : Ledger [] s := by
  cases h <;> exact .of_empty rfl rfl rfl rfl rfl

theorem Run.ledger (hs : Fresh s) (h : Run s es t) : Ledger es t :=
  h.ledger_append hs.sound hs.ledger

theorem Reachable.exists_ledger (h : Reachable t) : ∃ es, Ledger es t := by
  obtain ⟨s, es, hfresh, hrun⟩ := h.exists_run
  exact ⟨es, hrun.ledger hfresh⟩

/-! ### Deletions -/

/-- A deletion takes the entry of a constraint out from between the others. -/
theorem Ledger.delete_constraint (h : Ledger es t) {id : Oid} {c : Constraint α}
    (hget : t.index.get? id = some (.constraint c)) :
    ∃ before e after, e.Belongs c ∧ t.solver.entries = before ++ e :: after ∧
      (∀ e' ∈ before ++ after, e'.tag ≠ e.tag) ∧
      t.delete id = (.ok true, { t with
        solver := { t.solver with
          cells := e.datums.foldl fix t.solver.cells
          entries := before ++ after }
        index := t.index.delete id
        measured := t.measured.erase id
        phase := .building }) := by
  have hid : c.id = id := h.keyed _ (Table.mem_of_find? hget)
  have hone : t.index.constraints.filter (fun c => c.id = id) = [c] := by
    rw [Index.constraints_eq, Index.constraints_filter (fun k => k = id) h.keyed,
      Table.filter_key hget]
    rfl
  obtain ⟨tag, htag⟩ : ∃ tag, id.tag = .ok tag := by
    have hmem : c ∈ t.index.constraints := List.mem_of_mem_filter (hone ▸ List.mem_singleton_self c)
    have htagged : ∀ c ∈ t.index.constraints, ∃ tag, c.id.tag = .ok tag :=
      forall₂_right h.belongs fun e c _ hbelongs => ⟨e.tag, hbelongs.1⟩
    exact hid ▸ htagged c hmem
  have hentry := h.entries_with_tag htag
  rw [hone] at hentry
  obtain ⟨e, _, hbelongs, hrest, hfilter⟩ := List.forall₂_cons_right_iff.1 hentry
  cases hrest
  obtain ⟨before, after, hsplit, hbefore, hetag, hafter⟩ := List.filter_eq_cons_iff.1 hfilter
  obtain rfl : e.tag = tag := of_decide_eq_true hetag
  have hother : ∀ e' ∈ before ++ after, e'.tag ≠ e.tag := by
    intro e' he'
    rcases List.mem_append.1 he' with he' | he'
    · simpa using hbefore e' he'
    · simpa using List.filter_eq_nil_iff.1 hafter e' he'
  have hrest : t.solver.entries.filter (fun e' => e'.tag ≠ e.tag) = before ++ after := by
    have hkeep := List.filter_eq_self.2 fun e' he' => decide_eq_true (hother e' he')
    rw [List.filter_append] at hkeep
    rw [hsplit, List.filter_append, List.filter_cons_of_neg (by simp), hkeep]
  have hclear : t.solver.clearTag e.tag = { t.solver with
      cells := e.datums.foldl fix t.solver.cells
      entries := before ++ after } := by
    simp only [clearTag, hfilter, hrest, List.flatMap_singleton]
  refine ⟨before, e, after, hbelongs, hsplit, hother, ?_⟩
  have hhas : t.index.has id = true := Index.has_iff.2 ⟨_, hget⟩
  simp only [Session.delete, hget, htag, hhas]
  rw [← hclear]
  rfl

/-- A deletion under an id that no constraint has leaves all as it is. -/
theorem Ledger.delete_other (h : Ledger es t) {id : Oid}
    (hget : ∀ c, t.index.get? id ≠ some (.constraint c)) :
    (∃ e, t.delete id = (.error e, t)) ∨ t.delete id = (.ok false, { t with phase := .building }) := by
  cases hp : t.index.get? id with
  | some p =>
      cases p with
      | geometry g =>
          refine .inl ⟨.typeMismatch id .anyConstraint (.geometry g.geometryClass), ?_⟩
          simp only [Session.delete, hp]
      | constraint c => exact absurd hp (hget c)
  | none =>
      cases htag : id.tag with
      | error e => exact .inl ⟨e, by simp only [Session.delete, hp, htag]⟩
      | ok tag =>
          have hhas : t.index.has id = false := Table.contains_eq_false.2 hp
          have hgone : t.solver.entries.filter (fun e => e.tag = tag) = [] :=
            List.filter_eq_nil_iff.2 fun e he => by simpa using h.tag_ne hhas htag e he
          have hkeep : t.solver.entries.filter (fun e => e.tag ≠ tag) = t.solver.entries :=
            List.filter_eq_self.2 fun e he => decide_eq_true (h.tag_ne hhas htag e he)
          have hclear : Solver.clearTag t.solver tag = t.solver := by
            change t.solver.clearTag tag = t.solver
            simp only [clearTag, hgone, hkeep]
            rfl
          have hindex : t.index.delete id = t.index := by
            rw [Index.delete, Table.erase_eq_self hp]
          refine .inr ?_
          simp only [Session.delete, hp, htag, hhas, hclear, hindex,
            Table.erase_eq_self (h.measured_none hhas)]

/-- The entries of the solver are those of the constraints of the sketch, in its order, and those
of the constraints outside it. Outputs are recorded for the constraints that measure a literal, and
lie in the datums of their entries. A deletion takes out the entry of its constraint and no other,
whatever was deleted and pushed again before. -/
theorem Run.entries_correspond (hs : Fresh s) (h : Run s es t) :
    List.Forall₂ Entry.Belongs t.solver.sketchEntries t.index.constraints ∧
    (List.Forall₂ (fun e c => e.Stores extraTag c) t.solver.extraEntries es.extras ∧
      ∀ e ∈ t.solver.entries, 0 ≤ e.tag ∨ e.tag = extraTag) ∧
    (∀ id, t.measured.contains id ↔ ∃ c c₀, t.index.get? id = some (.constraint c) ∧
      c.isDriving = false ∧ es.standing id = some (.constraint c₀) ∧ c₀.literalNames ≠ []) ∧
    (∀ id os, t.measured.find? id = some os →
      ∃ e ∈ t.solver.entries, id.tag = .ok e.tag ∧ os.map Prod.snd = e.datums) ∧
    (∀ id c, t.index.get? id = some (.constraint c) →
      ∃ before e after, e.Belongs c ∧ t.solver.entries = before ++ e :: after ∧
        (∀ e' ∈ before ++ after, e'.tag ≠ e.tag) ∧
        t.delete id = (.ok true, { t with
          solver := { t.solver with
            cells := e.datums.foldl fix t.solver.cells
            entries := before ++ after }
          index := t.index.delete id
          measured := t.measured.erase id
          phase := .building })) ∧
    ∀ id, (∀ c, t.index.get? id ≠ some (.constraint c)) →
      (∃ e, t.delete id = (.error e, t)) ∨ t.delete id = (.ok false, { t with phase := .building }) := by
  have hl := h.ledger hs
  exact ⟨hl.belongs, ⟨hl.extras, hl.tags⟩, fun _ => hl.measured_iff, fun _ _ => hl.outputs,
    fun _ _ => hl.delete_constraint, fun _ => hl.delete_other⟩

/-- Measures the distance of the two points. -/
def measuredDistance : Constraint Float :=
  { Constraint.new ⟨7⟩ .p2pDistance with
    driving := some false
    params := .ofList [("p1_id", .number 1.0), ("p2_id", .number 2.0), ("distance", .number 0.5)] }

/-- The session with the distance measured, deleted and measured again. -/
def measuringSession : Session (LeastSquares Float) Float :=
  ((smallSession.perform (.push (.constraint measuredDistance))).perform (.delete ⟨7⟩)).perform
    (.push (.constraint measuredDistance))

theorem delete_measuredDistance :
    ∃ es, Run (.new (.ofConfig .standard)) es measuringSession ∧
      measuringSession.measured.contains ⟨7⟩ ∧
      measuringSession.index.get? ⟨7⟩ = some (.constraint measuredDistance) ∧
      (∃ e, measuringSession.solver.entries = [e]) ∧
      (measuringSession.delete ⟨7⟩).2.solver.entries = [] := by
  have hrun : Run (.new (.ofConfig .standard)) _ measuringSession :=
    .call (.call (.call (.call (.call .refl _) _) _) _) _
  have hget : measuringSession.index.get? ⟨7⟩ = some (.constraint measuredDistance) := rfl
  have hlength : measuringSession.solver.entries.length = 1 := by decide +kernel
  obtain ⟨-, -, hmeasured, -, hdelete, -⟩ := Run.entries_correspond (.new .standard) hrun
  obtain ⟨before, e, after, -, hsplit, -, heq⟩ := hdelete ⟨7⟩ measuredDistance hget
  rw [hsplit, List.length_append, List.length_cons] at hlength
  have hbefore : before = [] := List.length_eq_zero_iff.1 (by omega)
  have hafter : after = [] := List.length_eq_zero_iff.1 (by omega)
  subst hbefore hafter
  refine ⟨_, hrun, ?_, hget, ⟨e, hsplit⟩, ?_⟩
  · exact (hmeasured ⟨7⟩).2
      ⟨measuredDistance, measuredDistance, hget, rfl, rfl, by decide +kernel⟩
  · rw [heq]
    rfl

end Session

end PlanarSketch
