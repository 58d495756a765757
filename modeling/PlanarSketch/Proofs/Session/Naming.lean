import PlanarSketch.Proofs.Session.FixedPoint
import PlanarSketch.Proofs.Session.Inputs

/-!
Parameters that are names. A name is resolved when its constraint is pushed: the entry of the
constraint reads the scalar that the name stood for then, and no other as long as it stands. To push
the name again binds it to a new scalar, so a value that is set afterwards does not reach the
constraints that were pushed before. A value that is set without that does reach them.
-/

namespace PlanarSketch

open LeastSquares

variable {α : Type}

/-! ### Names are resolved by a push -/

def Kind.valueParams (k : Kind) : List ParamSpec := k.userParams.filter fun p => p.slot = .value

/-- Among operands that suit their places, the addresses stand at the places of values. -/
theorem Operand.forall₂_values {k : Kind} {Q : ParamSpec → Operand α → Prop} {ps : List ParamSpec}
    {os : List (Operand α)} (hsuits : ∀ p o, Q p o → o.Suits k p.slot) (h : List.Forall₂ Q ps os) :
    List.Forall₂ (fun p a => p.slot = .value ∧ Q p (.address a))
      (ps.filter fun p => p.slot = .value) (os.filterMap Operand.address?) := by
  induction h with
  | nil => exact .nil
  | @cons p o ps os ho _ ih =>
      have hsuit := hsuits p o ho
      by_cases hslot : p.slot = .value
      · rw [hslot, suits_value] at hsuit
        obtain ⟨a, rfl⟩ := hsuit
        rw [List.filter_cons_of_pos (by simpa using hslot)]
        exact .cons ⟨hslot, ho⟩ ih
      · have hnone : o.address? = none := by
          obtain ⟨name, slot⟩ := p
          cases o with
          | address a => cases slot <;> first | exact absurd rfl hslot | exact hsuit.elim
          | _ => rfl
        rw [List.filter_cons_of_neg (by simpa using hslot), List.filterMap_cons_none hnone]
        exact ih

def Event.name? : Event α → Option String
  | .named n _ => some n
  | _ => none

theorem Event.mem_unlessRefused {ε β : Type} {ev ev' : Event α} {x : Except ε β}
    (h : ev ∈ ev'.unlessRefused x) : ev = ev' := by
  cases x with
  | error e => cases h
  | ok b => exact List.mem_singleton.1 h

/-- What a call may leave besides pushed objects. -/
def Request.event? : Request α → Option (Event α)
  | .pushExtra c => some (.extra c)
  | .clearExtra => some .extrasCleared
  | .delete id => some (.deleted id)
  | .pushName n v | .setName n v => some (.named n v)
  | .solve | .solveWith _ => some .solved
  | .clear => some .cleared
  | _ => none

theorem Index.get?_insert_cases {x : Index α} {p q : Primitive α} {n : Nat} {id : Oid}
    (h : (⟨x.items.insert p.id p, n⟩ : Index α).get? id = some q) :
    (p.id = id ∧ q = p) ∨ x.get? id = some q := by
  rw [Index.get?_insert] at h
  by_cases hid : id = p.id
  · subst hid
    rw [Function.update_self] at h
    exact .inl ⟨rfl, (Option.some.inj h).symm⟩
  · rw [Function.update_of_ne hid] at h
    exact .inr h

namespace Session

variable {s t u : Session (LeastSquares α) α} {ns ns' : List String}

theorem Sound.lt_of_name (hs : Sound s) {n : String} {a : Address}
    (hn : s.allocator.names.find? n = some a) : a < s.solver.size :=
  fixed?_isSome.1 (by rw [(hs.named hn).1]; rfl)

/-- These names are bound anew, to scalars that come in, and all others as before. -/
structure Rebinds (s : Session (LeastSquares α) α) (ns : List String)
    (t : Session (LeastSquares α) α) : Prop where
  size : s.solver.size ≤ t.solver.size
  kept : ∀ {n}, n ∉ ns → t.allocator.names.find? n = s.allocator.names.find? n
  fresh : ∀ {n}, n ∈ ns → ∃ a, t.allocator.names.find? n = some a ∧ s.solver.size ≤ a

namespace Rebinds

theorem of_names (hsize : s.solver.size ≤ t.solver.size)
    (hnames : t.allocator.names = s.allocator.names) : Rebinds s [] t :=
  ⟨hsize, fun _ => by rw [hnames], nofun⟩

theorem trans (h : Rebinds s ns t) (h' : Rebinds t ns' u) : Rebinds s (ns ++ ns') u where
  size := Nat.le_trans h.size h'.size
  kept := by
    intro n hn
    rw [List.mem_append, not_or] at hn
    rw [h'.kept hn.2, h.kept hn.1]
  fresh := by
    intro n hn
    by_cases hlast : n ∈ ns'
    · obtain ⟨a, ha, hle⟩ := h'.fresh hlast
      exact ⟨a, ha, Nat.le_trans h.size hle⟩
    · obtain ⟨a, ha, hle⟩ := h.fresh ((List.mem_append.1 hn).resolve_right hlast)
      exact ⟨a, (h'.kept hlast).trans ha, hle⟩

/-- A scalar that a name stood for is what it stands for as long as the name is not pushed. -/
theorem find?_iff (h : Rebinds s ns t) {n : String} {a : Address}
    (ha : s.allocator.names.find? n = some a) (hlt : a < s.solver.size) :
    t.allocator.names.find? n = some a ↔ n ∉ ns := by
  constructor
  · intro hsame hn
    obtain ⟨b, hb, hle⟩ := h.fresh hn
    cases hsame.symm.trans hb
    exact absurd hlt (Nat.not_lt.2 hle)
  · intro hn
    rw [h.kept hn, ha]

end Rebinds

/-- The constraint that was pushed as `c₀` is still there, with its entry. What has been read back
into it is not a name. -/
structure Stands (c₀ : Constraint α) (e : Entry α) (t : Session (LeastSquares α) α) : Prop where
  tagged : c₀.id.tag = .ok e.tag
  indexed : ∃ c, t.index.get? c₀.id = some (.constraint c) ∧
    Primitive.Reread (.constraint c₀) (.constraint c) ∧
      ∀ x n, c.param? x = some (.name n) → c₀.param? x = some (.name n)
  entry : e ∈ t.solver.entries

variable {c₀ : Constraint α} {e : Entry α}

theorem Stands.congr (h : Stands c₀ e s) (hget : t.index.get? c₀.id = s.index.get? c₀.id)
    (hentry : e ∈ t.solver.entries) : Stands c₀ e t :=
  ⟨h.tagged, hget ▸ h.indexed, hentry⟩

theorem Stands.has (h : Stands c₀ e s) : s.index.has c₀.id := by
  obtain ⟨c, hget, -⟩ := h.indexed
  exact Index.has_iff.2 ⟨_, hget⟩

/-- What comes in under an unused id does not get in the way. -/
theorem Stands.insert (h : Stands c₀ e s) {p : Primitive α} {new : List (Entry α)} {n : Nat}
    (hid : s.index.has p.id = false) (hindex : t.index = ⟨s.index.items.insert p.id p, n⟩)
    (hentries : t.solver.entries = s.solver.entries ++ new) : Stands c₀ e t := by
  have hne : c₀.id ≠ p.id := by
    intro heq
    have hhas := h.has
    rw [heq, hid] at hhas
    cases hhas
  refine h.congr ?_ (hentries ▸ List.mem_append_left _ h.entry)
  rw [hindex, Index.get?_insert, Function.update_of_ne hne]

end Session

variable [Scalar α]

/-- For parameters that are names the entry reads the scalars that the names stand for. -/
def Entry.ReadsNames (e : Entry α) (c : Constraint α) (al : Allocator) : Prop :=
  List.Forall₂ (fun p a => ∀ n, c.param? p.name = some (.name n) → al.names.find? n = some a)
    c.kind.valueParams (c.kind.valueReads e.equation)

theorem Entry.Belongs.reread {e : Entry α} {c₀ c : Constraint α} (h : e.Belongs c₀)
    (hc : Primitive.Reread (.constraint c₀) (.constraint c)) : e.Belongs c := by
  cases hc
  exact ⟨h.1, h.2.tag, h.2.driving, h.2.scale, h.2.equation⟩

namespace Constraint

variable {x : Index α} {al : Allocator} {c : Constraint α} {tag : Int}

theorem yields_name {pl : Placement (LeastSquares α)} {p : ParamSpec} {a : Address} {n : String}
    (hslot : p.slot = .value) (hn : c.param? p.name = some (.name n))
    (h : pl.solver.scope.Yields c.kind (c.Supplies x al tag pl) p (.address a)) :
    al.names.find? n = some a := by
  obtain ⟨arg, i, ⟨r, hr, harg⟩, ho⟩ := h
  rw [hslot] at ho
  cases resolves_of_ok hr with
  | name hs hv ha =>
      cases hn.symm.trans hv
      cases harg
      obtain ⟨b, hb, heq⟩ := map_eq_ok.1 ho
      cases heq
      rwa [← (Scope.checkAddress_eq_ok.1 hb).2]
  | literal hs hv | truth hs hv | ref hs hv => cases hn.symm.trans hv
  | tag hs | driving hs | alignment hs | geometry hs | number hs | flag hs =>
      cases hslot.symm.trans hs

variable [Decompositions α]

theorem readsNames_of_push {s t : LeastSquares α} {outputs : Outputs}
    (h : c.push x al s tag = (.ok outputs, t)) :
    ∃ e, t.entries = s.entries ++ [e] ∧ e.ReadsNames c al := by
  obtain ⟨literals, pl, hcont, hrest⟩ := c.push_outcome x al s tag
  rcases hrest with ⟨e', hpush, -⟩ | ⟨-, ⟨e', hpush, -⟩ | ⟨os, eq, hpush, -, hos, heq⟩⟩
  · cases h.symm.trans hpush
  · cases h.symm.trans hpush
  · cases h.symm.trans hpush
    have hentries : pl.solver.entries = s.entries := by
      rw [hcont.grown.entries, List.append_nil]
    refine ⟨_, congrArg (· ++ _) hentries, ?_⟩
    have hsuits : ∀ p o, pl.solver.scope.Yields c.kind (c.Supplies x al tag pl) p o →
        o.Suits c.kind p.slot := fun _ _ => Scope.yields_suits
    obtain ⟨eq', heq', -, hreads⟩ := Equation.exists_ofOperands c.kind os (hos.imp hsuits)
    cases heq.symm.trans heq'
    rw [Entry.ReadsNames, hreads]
    exact (Operand.forall₂_values hsuits hos).imp fun _ _ hp _ hn => yields_name hp.1 hn hp.2

end Constraint

/-! ### Which names a call pushes -/

namespace Session

variable [Decompositions α] {s t u : Session (LeastSquares α) α} {ns ns' : List String} {id : Oid}

/-- The names that a call pushes. A call that gives a name a value does not push the name. -/
def pushedNames (s : Session (LeastSquares α) α) : Request α → List String
  | .setName _ _ => []
  | r => (s.events r).filterMap Event.name?

theorem rebinds_pushName (s : Session (LeastSquares α) α) (name : String) (v : α) :
    Rebinds s [name] (s.pushName name v) := by
  have hfind : ∀ n, (s.pushName name v).allocator.names.find? n =
      if n = name then some s.solver.size else s.allocator.names.find? n :=
    fun n => Table.find?_insert ..
  refine ⟨(step_pushName s name v).retains.size, fun {n} hn => ?_, fun {n} hn => ?_⟩
  · rw [hfind, if_neg (mt List.mem_singleton.2 hn)]
  · exact ⟨_, (hfind n).trans (if_pos (List.mem_singleton.1 hn)), Nat.le_refl _⟩

theorem rebinds_push (h : Anchored s) (p : Primitive α) : Rebinds s [] (s.push p).2 := by
  refine .of_names (step_push h p).retains.size ?_
  rcases push_cases h p with ⟨e, hpush⟩ | ⟨c, tag, e, solver, -, -, hpush⟩ |
    ⟨g, t, -, hpush, hplaced⟩ | ⟨c, e, outputs, t, -, hpush, hadmitted⟩
  · rw [hpush]
  · rw [hpush]
  · rw [hpush]
    exact hplaced.names
  · rw [hpush, hadmitted.allocator]

theorem rebinds_pushObjects (hs : Sound s) (os : List (SketchObject α)) :
    Rebinds s ((s.objectEvents os).filterMap Event.name?) (s.pushObjects os).2 := by
  induction os generalizing s with
  | nil => exact .of_names (Nat.le_refl _) rfl
  | cons o os ih =>
      rw [objectEvents, pushObjects]
      cases o with
      | param p =>
          have ht := hs.step (step_pushName s p.name p.value)
          exact (rebinds_pushName s p.name p.value).trans (ih ht)
      | primitive p =>
          have hrebinds := rebinds_push hs.toAnchored p
          have hstep := step_push hs.toAnchored p
          rw [show s.pushObject (.primitive p) = s.push p from rfl]
          rcases hpush : s.push p with ⟨e | u, t⟩
          · rw [hpush] at hrebinds
            exact hrebinds
          · rw [hpush] at hrebinds hstep
            exact hrebinds.trans (ih (hs.step hstep))

/-- The names that a call pushes are bound anew, and no others. -/
theorem Sound.rebinds_perform (hs : Sound s) {r : Request α} (hr : r ≠ .clear) :
    Rebinds s (s.pushedNames r) (s.perform r) := by
  have hsize : s.solver.size ≤ (s.perform r).solver.size := ((Later.refl.perform r hr).retains hs).2.size
  cases r with
  | push p =>
      rw [perform, show s.push p = s.pushObject (.primitive p) from rfl, ← pushObjects_singleton]
      exact rebinds_pushObjects hs _
  | pushObject o =>
      rw [perform, ← pushObjects_singleton]
      exact rebinds_pushObjects hs _
  | pushAll ps => exact rebinds_pushObjects hs _
  | pushObjects os => exact rebinds_pushObjects hs os
  | pushDocument d => exact rebinds_pushObjects hs _
  | pushName name v => exact rebinds_pushName s name v
  | pushExtra c =>
      have hnone : s.pushedNames (.pushExtra c) = [] := by
        change (Event.unlessRefused (.extra c) (s.pushExtra c).1).filterMap Event.name? = []
        cases (s.pushExtra c).1 <;> rfl
      rw [hnone]
      exact .of_names hsize (by rw [perform, (s.pushExtra_same c).2])
  | delete id =>
      have hnone : s.pushedNames (.delete id) = [] := by
        change (Event.unlessRefused (.deleted id) (s.delete id).1).filterMap Event.name? = []
        cases (s.delete id).1 <;> rfl
      rw [hnone]
      refine .of_names hsize ?_
      rw [perform]
      rcases s.delete_cases id with ⟨e, hdelete⟩ | ⟨tag, -, -, hdelete⟩ <;> rw [hdelete]
  | setName name v =>
      refine .of_names hsize ?_
      rw [perform]
      rcases s.setName_cases name v with ⟨e, hset⟩ | ⟨a, -, hset⟩ <;> rw [hset]
  | apply =>
      refine .of_names hsize ?_
      rw [perform, (applied_applySolution s).allocator]
  | clear => exact absurd rfl hr
  | clearExtra | solve | solveWith _ | setAlgorithm _ | setDebugMode _ | setMaxIterations _
  | setConvergence _ => exact .of_names hsize rfl

/-! ### What becomes of a constraint -/

/-- Calls that delete nothing under `id` lead from `s` to `t`, and push these names. -/
inductive Keeps (id : Oid) (s : Session (LeastSquares α) α) :
    List String → Session (LeastSquares α) α → Prop where
  | refl : Keeps id s [] s
  | perform {ns : List String} {t : Session (LeastSquares α) α} (h : Keeps id s ns t)
      (r : Request α) (hclear : r ≠ .clear) (hdelete : r ≠ .delete id) :
      Keeps id s (ns ++ t.pushedNames r) (t.perform r)

theorem Keeps.reachable (h : Keeps id s ns t) (hs : Reachable s) : Reachable t := by
  induction h with
  | refl => exact hs
  | perform _ r _ _ ih => exact ih.perform r

theorem Keeps.rebinds (h : Keeps id s ns t) (hs : Reachable s) : Rebinds s ns t := by
  induction h with
  | refl => exact .of_names (Nat.le_refl _) rfl
  | perform h r hclear _ ih => exact ih.trans ((h.reachable hs).sound.rebinds_perform hclear)

omit [Decompositions α] in
theorem find?_remeasure_name {s : LeastSquares α} {outputs : Outputs}
    {params : NameMap (ParamValue α)} {x n : String}
    (h : (remeasure s outputs params).find? x = some (.name n)) :
    params.find? x = some (.name n) := by
  induction outputs generalizing params with
  | nil => exact h
  | cons o outputs ih =>
      have hinsert := ih h
      rw [NameMap.find?_insert] at hinsert
      by_cases hx : x = o.1
      · rw [if_pos hx] at hinsert
        cases hinsert
      · rwa [if_neg hx] at hinsert

variable {c₀ : Constraint α} {e : Entry α} {es : History α}

theorem Stands.move (h : Stands c₀ e s) (hr : Readable s) (hmove : Move s es t)
    (hclear : .cleared ∉ es) (hdelete : .deleted c₀.id ∉ es) : Stands c₀ e t := by
  cases hmove with
  | refuse hsame => exact h.congr (by rw [hsame.index]) (hsame.entries ▸ h.entry)
  | place hp => exact h.insert (p := .geometry _) hp.fresh hp.index hp.grown.entries
  | enter ha =>
      obtain ⟨vs, hgrown, -⟩ := ha.enters.grown
      exact h.insert (p := .constraint _) ha.fresh ha.index hgrown.entries
  | extra _ henters =>
      obtain ⟨vs, hgrown, -⟩ := henters.grown
      exact h.congr rfl (hgrown.entries ▸ List.mem_append_left _ h.entry)
  | clearExtra =>
      have hne : e.tag ≠ extraTag := Oid.tag_ne_extra h.tagged
      exact h.congr rfl (List.mem_filter.2 ⟨h.entry, decide_eq_true hne⟩)
  | @delete id tag _ htag =>
      have hid : c₀.id ≠ id := by
        rintro rfl
        exact hdelete List.mem_cons_self
      have hne : e.tag ≠ tag := fun heq => hid (Oid.tag_inj h.tagged (heq ▸ htag))
      refine h.congr ?_ (List.mem_filter.2 ⟨h.entry, decide_eq_true hne⟩)
      exact (Index.get?_delete c₀.id).trans (if_neg hid)
  | apply hphase =>
      rw [hr.applySolution_eq hphase]
      obtain ⟨c, hget, hreread, hnames⟩ := h.indexed
      refine ⟨h.tagged, ⟨_, ?_, hreread.trans (s.written.rereads c₀.id _), fun x n hx => ?_⟩, h.entry⟩
      · exact (s.written.get?_readBack c₀.id).trans (congrArg _ hget)
      · exact hnames x n (find?_remeasure_name hx)
  | clear => exact absurd List.mem_cons_self hclear
  | tune | bind | assign | solve => exact h.congr rfl h.entry

theorem mem_objectEvents {os : List (SketchObject α)} {ev : Event α} (h : ev ∈ s.objectEvents os) :
    ∃ o ∈ os, ev = .ofObject o := by
  induction os generalizing s with
  | nil => cases h
  | cons o os ih =>
      rw [objectEvents] at h
      rcases hpush : s.pushObject o with ⟨e | u, t⟩
      · rw [hpush] at h
        cases h
      · rw [hpush] at h
        rcases List.mem_cons.1 h with rfl | h
        · exact ⟨o, List.mem_cons_self, rfl⟩
        · obtain ⟨o', ho', heq⟩ := ih h
          exact ⟨o', List.mem_cons_of_mem o ho', heq⟩

theorem mem_events {r : Request α} {ev : Event α} (h : ev ∈ s.events r) :
    (∃ o, ev = .ofObject o) ∨ r.event? = some ev := by
  have hobjects {os : List (SketchObject α)} (h : ev ∈ s.objectEvents os) :
      ∃ o, ev = .ofObject o := by
    obtain ⟨o, -, ho⟩ := mem_objectEvents h
    exact ⟨o, ho⟩
  cases r with
  | push p => exact .inl (hobjects h)
  | pushAll ps => exact .inl (hobjects h)
  | pushObject o => exact .inl (hobjects h)
  | pushObjects os => exact .inl (hobjects h)
  | pushDocument d => exact .inl (hobjects h)
  | pushExtra c | setName n v | delete id =>
      rw [Event.mem_unlessRefused h]
      exact .inr rfl
  | clearExtra | pushName n v | solve | solveWith a | clear =>
      rw [List.mem_singleton.1 h]
      exact .inr rfl
  | _ => cases h

/-- Only a clear clears. -/
theorem cleared_mem_events {r : Request α} (h : .cleared ∈ s.events r) : r = .clear := by
  obtain ⟨o, ho⟩ | hr := mem_events h
  · cases o <;> cases ho
  · cases r <;> cases hr
    rfl

/-- Only a deletion deletes. -/
theorem deleted_mem_events {r : Request α} (h : .deleted id ∈ s.events r) : r = .delete id := by
  obtain ⟨o, ho⟩ | hr := mem_events h
  · cases o <;> cases ho
  · cases r <;> cases hr
    rfl

/-- Only a solve solves. -/
theorem solved_mem_events {r : Request α} (h : .solved ∈ s.events r) :
    r = .solve ∨ ∃ algorithm, r = .solveWith algorithm := by
  obtain ⟨o, ho⟩ | hr := mem_events h
  · cases o <;> cases ho
  · cases r <;> cases hr
    · exact .inl rfl
    · exact .inr ⟨_, rfl⟩

/-- What every move preserves that neither clears nor deletes under `id`, such calls preserve. -/
theorem Keeps.preserves {P : Session (LeastSquares α) α → Prop} (h : Keeps id s ns t)
    (hs : Reachable s) (start : P s)
    (step : ∀ {es t u}, Readable t → P t → Move t es u → .cleared ∉ es → .deleted id ∉ es → P u) :
    P t := by
  induction h with
  | refl => exact start
  | @perform ns t h r hclear hdelete ih =>
      have ht := h.reachable hs
      obtain ⟨before, hl⟩ := ht.exists_ledger
      have hcleared : Event.cleared ∉ t.events r := mt cleared_mem_events hclear
      have hdeleted : Event.deleted id ∉ t.events r := mt deleted_mem_events hdelete
      have hcall : Run t (t.events r) (t.perform r) := Run.refl.call r
      refine (hcall.invariant_of_ledger
        (P := fun es t => .cleared ∉ es → .deleted id ∉ es → P t) ht.sound hl
        (fun _ _ => ih) ?_).2 hcleared hdeleted
      intro es v es' u hv hlv hpv hmove hc hd
      rw [List.mem_append, not_or] at hc hd
      exact step (hlv.readable hv) (hpv hc.1 hd.1) hmove hc.2 hd.2

theorem Keeps.stands (h : Keeps c₀.id s ns t) (hs : Reachable s) (hstands : Stands c₀ e s) :
    Stands c₀ e t :=
  h.preserves hs hstands fun hr hstands hmove => hstands.move hr hmove

/-! ### Where a constraint comes from -/

/-- A push of `c₀` has led from `s` to `u`. Since then these names have been pushed. -/
structure Origin (s : Session (LeastSquares α) α) (c₀ : Constraint α)
    (u : Session (LeastSquares α) α) (ns : List String) (t : Session (LeastSquares α) α) :
    Prop where
  reachable : Reachable s
  push : s.push (.constraint c₀) = (.ok (), u)
  keeps : Keeps c₀.id u ns t

variable {c : Constraint α}

/-- A constraint that is there after a push was there before, or is the one that was taken. -/
theorem Sound.constraint_of_push (hs : Sound s) {p : Primitive α}
    (hget : (s.push p).2.index.get? id = some (.constraint c)) :
    (∃ c', s.index.get? id = some (.constraint c')) ∨
      ∃ c₀, p = .constraint c₀ ∧ c₀.id = id ∧ (s.push p).1 = .ok () := by
  rcases push_cases hs.toAnchored p with ⟨e, hpush⟩ | ⟨c', tag, e, solver, -, -, hpush⟩ |
    ⟨g, t, rfl, hpush, hplaced⟩ | ⟨c', e, outputs, t, rfl, hpush, hadmitted⟩
  · rw [hpush] at hget
    exact .inl ⟨c, hget⟩
  · rw [hpush] at hget
    exact .inl ⟨c, hget⟩
  · rw [hpush, hplaced.index] at hget
    rcases Index.get?_insert_cases (p := .geometry g) hget with ⟨-, ⟨⟩⟩ | hold
    exact .inl ⟨c, hold⟩
  · rw [hpush, hadmitted.index] at hget
    rcases Index.get?_insert_cases (p := .constraint c') hget with ⟨hid, -⟩ | hold
    · exact .inr ⟨c', rfl, hid, by rw [hpush]⟩
    · exact .inl ⟨c, hold⟩

theorem Reachable.origin_of_pushObjects (hs : Reachable s) {os : List (SketchObject α)}
    (hget : (s.pushObjects os).2.index.get? id = some (.constraint c)) :
    (∃ c', s.index.get? id = some (.constraint c')) ∨
      ∃ s' c₀ u ns, c₀.id = id ∧ Origin s' c₀ u ns (s.pushObjects os).2 := by
  induction os generalizing s with
  | nil => exact .inl ⟨c, hget⟩
  | cons o os ih =>
      have hlater : Reachable (s.pushObject o).2 := hs.perform (.pushObject o)
      rw [pushObjects] at hget ⊢
      cases o with
      | param p => exact ih hlater hget
      | primitive p =>
          rw [show s.pushObject (.primitive p) = s.push p from rfl] at hlater hget ⊢
          have hfirst : ∀ c', (s.push p).2.index.get? id = some (.constraint c') → _ :=
            fun c' hc' => hs.sound.constraint_of_push hc'
          rcases hpush : s.push p with ⟨e | v, t⟩ <;> rw [hpush] at hlater hget hfirst
          · rcases hfirst c hget with hold | ⟨c₀, -, -, ⟨⟩⟩
            exact .inl hold
          · rcases ih hlater hget with ⟨c', hc'⟩ | horigin
            · rcases hfirst c' hc' with hold | ⟨c₀, rfl, hid, -⟩
              · exact .inl hold
              · have hkeeps : Keeps c₀.id t ([] ++ _) (t.perform (.pushObjects os)) :=
                  .perform .refl (.pushObjects os) (by rintro ⟨⟩) (by rintro ⟨⟩)
                exact .inr ⟨s, c₀, t, _, hid, hs, hpush, hkeeps⟩
            · exact .inr horigin

theorem Reachable.origin_of_perform (hs : Reachable s) {r : Request α}
    (hget : (s.perform r).index.get? id = some (.constraint c)) :
    (∃ c', s.index.get? id = some (.constraint c')) ∨
      ∃ s' c₀ u ns, c₀.id = id ∧ Origin s' c₀ u ns (s.perform r) := by
  cases r with
  | push p =>
      rw [Session.perform, show s.push p = s.pushObject (.primitive p) from rfl, ← pushObjects_singleton]
        at hget ⊢
      exact hs.origin_of_pushObjects hget
  | pushObject o =>
      rw [Session.perform, ← pushObjects_singleton] at hget ⊢
      exact hs.origin_of_pushObjects hget
  | pushAll ps => exact hs.origin_of_pushObjects hget
  | pushObjects os => exact hs.origin_of_pushObjects hget
  | pushDocument d => exact hs.origin_of_pushObjects hget
  | pushExtra c' =>
      rw [Session.perform, (s.pushExtra_same c').1] at hget
      exact .inl ⟨c, hget⟩
  | delete id' =>
      rw [Session.perform] at hget
      rcases s.delete_cases id' with ⟨e, hdelete⟩ | ⟨tag, -, -, hdelete⟩
      · rw [hdelete] at hget
        exact .inl ⟨c, hget⟩
      · rw [hdelete, Index.get?_delete] at hget
        by_cases hid : id = id'
        · rw [if_pos hid] at hget
          cases hget
        · rw [if_neg hid] at hget
          exact .inl ⟨c, hget⟩
  | setName name v =>
      rw [Session.perform] at hget
      rcases s.setName_cases name v with ⟨e, hset⟩ | ⟨a, -, hset⟩
      · rw [hset] at hget
        exact .inl ⟨c, hget⟩
      · rw [hset] at hget
        exact .inl ⟨c, hget⟩
  | apply =>
      rw [Session.perform] at hget
      by_cases hphase : s.phase = .solved
      · rw [hs.readable.applySolution_eq hphase, applied, get?_readBack] at hget
        obtain ⟨p, hp, hreread⟩ := Option.map_eq_some_iff.1 hget
        have hrel := s.written.rereads id p
        rw [hreread] at hrel
        cases hrel with
        | constraint c' params => exact .inl ⟨c', hp⟩
      · rw [applySolution, if_neg hphase] at hget
        exact .inl ⟨c, hget⟩
  | clear => cases hget
  | clearExtra | pushName _ _ | solve | solveWith _ | setAlgorithm _ | setDebugMode _
  | setMaxIterations _ | setConvergence _ => exact .inl ⟨c, hget⟩

/-- Each constraint of the sketch has been pushed at some time, and not been deleted since. -/
theorem Reachable.exists_origin (h : Reachable t)
    (hget : t.index.get? id = some (.constraint c)) :
    ∃ s c₀ u ns, c₀.id = id ∧ Origin s c₀ u ns t := by
  induction h generalizing c with
  | new own => cases hget
  | ofConfig own c' => cases hget
  | @perform s hs r ih =>
      rcases hs.origin_of_perform hget with ⟨c', hc'⟩ | horigin
      · obtain ⟨s', c₀, u, ns, rfl, horigin⟩ := ih hc'
        have hclear : r ≠ .clear := by
          rintro rfl
          cases hget
        have hdelete : r ≠ .delete c₀.id := by
          rintro rfl
          obtain ⟨es, hl⟩ := hs.exists_ledger
          obtain ⟨before, e, after, -, -, -, hgone⟩ := hl.delete_constraint hc'
          rw [Session.perform, hgone, Index.get?_delete, if_pos rfl] at hget
          cases hget
        exact ⟨s', c₀, u, _, rfl, horigin.reachable, horigin.push,
          horigin.keeps.perform r hclear hdelete⟩
      · exact horigin

/-- Behind a push that is taken there is one of the constraint that has gone through. -/
theorem call_of_push (hpush : s.push (.constraint c₀) = (.ok (), u)) :
    ∃ tag outputs, c₀.push s.index s.allocator s.solver tag = (.ok outputs, u.solver) := by
  rcases push_guard s (.constraint c₀) with ⟨e, hguard⟩ | ⟨hfresh, hc⟩
  · cases hpush.symm.trans hguard
  rcases pushConstraint_cases hfresh hc with ⟨e, -, hcase⟩ |
    ⟨tag, -, ⟨e, -, hcase⟩ | ⟨outputs, u', hok, hcase, hsolver, -⟩⟩
  · cases hpush.symm.trans hcase
  · cases hpush.symm.trans hcase
  · cases hpush.symm.trans hcase
    exact ⟨tag, outputs, Prod.ext hok hsolver.symm⟩

omit [Decompositions α] in
theorem Admitted.stands {outputs : Outputs} (h : Admitted s c₀ e outputs u) :
    e.Belongs c₀ ∧ Stands c₀ e u := by
  obtain ⟨vs, hgrown, -⟩ := h.enters.grown
  refine ⟨⟨h.tagged, h.enters.stores⟩, h.tagged, ⟨c₀, ?_, .refl _, fun _ _ hn => hn⟩, ?_⟩
  · rw [h.index]
    exact (Table.find?_insert ..).trans (if_pos rfl)
  · rw [hgrown.entries]
    exact List.mem_append_right _ (List.mem_singleton_self e)

omit [Decompositions α] in
theorem Admitted.entry_eq {e' : Entry α} {outputs : Outputs} (h : Admitted s c₀ e outputs u)
    (h' : u.solver.entries = s.solver.entries ++ [e']) : e' = e := by
  obtain ⟨vs, hgrown, -⟩ := h.enters.grown
  exact List.singleton_inj.1 (List.append_cancel_left (h'.symm.trans hgrown.entries))

/-- A push that is taken has its entry read the scalars that the names stand for. -/
theorem Sound.stands_of_push (hs : Sound s) (hpush : s.push (.constraint c₀) = (.ok (), u)) :
    u.allocator = s.allocator ∧
      ∃ e : Entry α, e.Belongs c₀ ∧ Stands c₀ e u ∧ e.ReadsNames c₀ s.allocator := by
  obtain ⟨e, outputs, hadmitted⟩ := hs.toAnchored.admitted_of_push hpush
  obtain ⟨tag, outputs', hcall⟩ := call_of_push hpush
  obtain ⟨e', hentries, hreads⟩ := Constraint.readsNames_of_push hcall
  obtain rfl := hadmitted.entry_eq hentries
  obtain ⟨hbelongs, hstands⟩ := hadmitted.stands
  exact ⟨hadmitted.allocator, e', hbelongs, hstands, hreads⟩

/-- A value reaches the scalar that its name stands for, and no other. -/
theorem value?_setName {n : String} {a b : Address} (v : α)
    (hn : s.allocator.names.find? n = some b) (hb : b < s.solver.size) :
    (s.setName n v).2.solver.value? a = if a = b then some v else s.solver.value? a := by
  have hassign : Solver.assign s.solver b v true =
      s.solver.attempt ((s.solver.assign b v true).map fun t => ((), t)) := rfl
  have hcells : (s.setName n v).2.solver.cells = s.solver.cells.setIfInBounds b ⟨v, true⟩ := by
    rw [setName, Allocator.nameAddress_eq_ok.2 hn]
    dsimp only
    rw [hassign, LeastSquares.assign, if_pos hb]
    rfl
  rw [value?, hcells, Array.getElem?_setIfInBounds]
  by_cases hab : a = b
  · subst hab
    rw [if_pos rfl, if_pos (show a < s.solver.cells.size from hb), if_pos rfl]
    rfl
  · rw [if_neg (Ne.symm hab), if_neg hab, value?]

theorem Ledger.belongs_unique {es : History α} (h : Ledger es t)
    (hget : t.index.get? id = some (.constraint c)) {e e' : Entry α} (he : e ∈ t.solver.entries)
    (he' : e' ∈ t.solver.entries) (hc : e.Belongs c) (hc' : e'.Belongs c) : e' = e := by
  obtain ⟨before, e₀, after, hbelongs, hsplit, hother, -⟩ := h.delete_constraint hget
  have hone : ∀ e' ∈ t.solver.entries, e'.Belongs c → e' = e₀ := by
    intro e' he' hc'
    have htag : e'.tag = e₀.tag := Except.ok.inj (hc'.1.symm.trans hbelongs.1)
    rw [hsplit, List.mem_append, List.mem_cons] at he'
    rcases he' with he' | rfl | he'
    · exact absurd htag (hother e' (List.mem_append_left _ he'))
    · rfl
    · exact absurd htag (hother e' (List.mem_append_right _ he'))
  rw [hone e he hc, hone e' he' hc']

/-- Each constraint of the sketch has been pushed at some time, and its entry reads the scalars that
its names stood for then. A name still stands for that scalar, and a value that is set for the name
reaches it, unless the name has been pushed again since. -/
theorem Reachable.names_read (h : Reachable t) (hget : t.index.get? id = some (.constraint c)) :
    ∃ s c₀ u ns e, Origin s c₀ u ns t ∧ Primitive.Reread (.constraint c₀) (.constraint c) ∧
      e ∈ t.solver.entries ∧ e.Belongs c ∧ (∀ e' ∈ t.solver.entries, e'.Belongs c → e' = e) ∧
      c.kind.valueReads e.equation ⊆ e.equation.addresses ∧
      List.Forall₂ (fun p a => ∀ n, c.param? p.name = some (.name n) →
          s.allocator.names.find? n = some a ∧
          (t.allocator.names.find? n = some a ↔ n ∉ ns) ∧
          ∀ v, (t.setName n v).2.solver.value? a = if n ∈ ns then t.solver.value? a else some v)
        c.kind.valueParams (c.kind.valueReads e.equation) := by
  obtain ⟨s, c₀, u, ns, rfl, horigin⟩ := h.exists_origin hget
  have hs := horigin.reachable.sound
  obtain ⟨hallocator, e, hbelongs₀, hstands, hreads⟩ := hs.stands_of_push horigin.push
  have hu : Reachable u := by
    have hlater := horigin.reachable.perform (.push (.constraint c₀))
    rwa [Session.perform, horigin.push] at hlater
  have hrebinds := horigin.keeps.rebinds hu
  obtain ⟨-, ⟨c', hc', hreread, hnames⟩, hentry⟩ := horigin.keeps.stands hu hstands
  cases hget.symm.trans hc'
  have hbelongs := hbelongs₀.reread hreread
  obtain ⟨es, hl⟩ := h.exists_ledger
  have hkind : c.kind = c₀.kind := by
    cases hreread
    rfl
  refine ⟨s, c₀, u, ns, e, horigin, hreread, hentry, hbelongs, fun e' he' hc' =>
    hl.belongs_unique hget hentry he' hbelongs hc',
    Equation.valueReads_subset _ _, ?_⟩
  rw [hkind]
  refine hreads.imp fun p a hp n hn => ?_
  have ha := hp n (hnames p.name n hn)
  have hlt : a < u.solver.size := hu.sound.lt_of_name (hallocator ▸ ha)
  have hiff := hrebinds.find?_iff (hallocator ▸ ha) hlt
  refine ⟨ha, hiff, fun v => ?_⟩
  by_cases hpushed : n ∈ ns
  · obtain ⟨b, hb, hle⟩ := hrebinds.fresh hpushed
    have hab : a ≠ b := by
      rintro rfl
      exact absurd hlt (Nat.not_lt.2 hle)
    rw [value?_setName v hb (h.sound.lt_of_name hb), if_neg hab, if_pos hpushed]
  · have ha' := hiff.2 hpushed
    rw [value?_setName v ha' (h.sound.lt_of_name ha'), if_pos rfl, if_neg hpushed]

/-- The width is pushed again when a constraint has it already. -/
def renamedSession : Session (LeastSquares Float) Float :=
  drivenSession.perform (.pushName "width" 7.0)

theorem reachable_renamedSession : Reachable renamedSession :=
  (reachable_smallSession.perform (.push (.constraint xIsWidth))).perform _

/-- The entry of the constraint: it reads the abscissa of the free point and the first width. -/
def widthEntry : Entry Float := ⟨3, true, 1.0, .equal 0 4, []⟩

theorem entries_renamedSession : renamedSession.solver.entries = [widthEntry] := rfl

theorem not_readsNames_renamedSession :
    Reachable renamedSession ∧
      renamedSession.index.get? ⟨3⟩ = some (.constraint xIsWidth) ∧
      widthEntry ∈ renamedSession.solver.entries ∧ widthEntry.Belongs xIsWidth ∧
      ¬ widthEntry.ReadsNames xIsWidth renamedSession.allocator := by
  have hbelongs : widthEntry.Belongs xIsWidth :=
    ⟨rfl, rfl, rfl, rfl, [.address 0, .address 4], rfl⟩
  refine ⟨reachable_renamedSession, rfl, ?_, hbelongs, fun hreads => ?_⟩
  · rw [entries_renamedSession]
    exact List.mem_singleton_self _
  · cases hreads with
    | cons _ hrest =>
        cases hrest with
        | cons hwidth _ => exact absurd (hwidth "width" rfl) (by decide +kernel)

/-- A new width does not reach the constraint. -/
theorem setName_renamedSession :
    renamedSession.index.get? ⟨3⟩ = some (.constraint xIsWidth) ∧
      (renamedSession.setName "width" 9.0).2.solver.value? 4 = some 3.0 ∧
      ∃ s c₀ u ns, Origin s c₀ u ns renamedSession ∧ c₀.id = ⟨3⟩ ∧ "width" ∈ ns := by
  have hget : renamedSession.index.get? ⟨3⟩ = some (.constraint xIsWidth) := rfl
  obtain ⟨s, c₀, u, ns, e, horigin, hreread, he, -, -, -, hreads⟩ :=
    reachable_renamedSession.names_read hget
  rw [entries_renamedSession] at he
  obtain rfl := List.mem_singleton.1 he
  cases hreads with
  | cons _ hrest =>
      cases hrest with
      | cons hwidth _ =>
          obtain ⟨-, hiff, hvalue⟩ := hwidth "width" rfl
          have hnot : renamedSession.allocator.names.find? "width" ≠ some 4 := by decide +kernel
          have hpushed : "width" ∈ ns := not_not.1 (mt hiff.2 hnot)
          refine ⟨hget, ?_, s, c₀, u, ns, horigin, hreread.id_eq.symm, hpushed⟩
          exact (hvalue 9.0).trans ((if_pos hpushed).trans rfl)

end Session

end PlanarSketch
