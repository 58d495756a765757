import PlanarSketch.Proofs.Session.Entries
import PlanarSketch.Proofs.Session.Meaning
import PlanarSketch.Proofs.Session.Unknowns

/-!
The inputs of a session: the values of names, the fixed points and the driving constraints. They
stay as they were given until they are given anew, deleted or cleared. A solve finds values for
other scalars only, and what it has found stays clear of the inputs while the sketch is edited, so
that a solution, whatever is in it, is written past them and they are read back as they are.
-/

namespace PlanarSketch

open LeastSquares

variable {α : Type}

theorem Shape.eq_point_of_fixed {π : Type} {s : Shape π α} (h : s.fixed = true) :
    ∃ x y, s = .point x y true := by
  cases s with
  | point x y fixed => exact ⟨x, y, by rw [show fixed = true from h]⟩
  | _ => cases h

namespace Primitive

/-- Whether the primitive is given, and not to be solved for or measured. -/
def isInput : Primitive α → Bool
  | .geometry g => g.shape.fixed
  | .constraint c => c.isDriving

theorem Reread.isInput_eq {p q : Primitive α} (h : p.Reread q) : q.isInput = p.isInput := by
  cases h with
  | geometry h => exact congrArg Outline.fixed h
  | constraint c params => rfl

end Primitive

namespace Session

variable {s t : Session (LeastSquares α) α} {a : Nat}

/-- The scalar at an address is that of a name or of a fixed geometry. -/
def IsInput (s : Session (LeastSquares α) α) (a : Nat) : Prop :=
  (∃ n, s.allocator.names.find? n = some a) ∨ ∃ o, s.Owns o a ∧ o.fixed = true

theorem Sound.fixed_of_isInput (hs : Sound s) (h : s.IsInput a) :
    s.solver.fixed? a = some true := by
  rcases h with ⟨n, hn⟩ | ⟨o, ho, hfixed⟩
  · exact (hs.named hn).1
  · rw [hs.flagged ho, hfixed]

theorem Sound.lt_of_isInput (hs : Sound s) (h : s.IsInput a) : a < s.solver.size :=
  fixed?_isSome.1 (by rw [hs.fixed_of_isInput h]; rfl)

/-- Steps make no input of a scalar that is there. -/
theorem Step.isInput_old (h : Step s t) (ha : a < s.solver.size) (ht : t.IsInput a) :
    s.IsInput a := by
  rcases ht with ⟨n, hn⟩ | ⟨o, ho, hfixed⟩
  · refine .inl ⟨n, ?_⟩
    cases h with
    | append _ _ names _ =>
        rcases names hn with hn | ⟨hge, -⟩
        · exact hn
        · omega
    | place _ _ _ _ names _ => rwa [names] at hn
    | forget _ _ allocator _ => rwa [allocator] at hn
    | assign _ allocator _ _ _ => rwa [allocator] at hn
    | keep _ allocator _ _ => rwa [allocator] at hn
  · exact .inr ⟨o, (h.retains.owns ha).1 ho, hfixed⟩

/-- The pending solution sets no input. -/
def Spares (s : Session (LeastSquares α) α) : Prop :=
  ∀ e ∈ s.solver.pending.getD [], e.1 < s.solver.size ∧ ¬ s.IsInput e.1

theorem Spares.of_none (h : s.solver.pending = none) : Spares s := by
  intro e he
  rw [h] at he
  cases he

theorem Spares.step (h : Spares s) (ht : Step s t)
    (hpending : t.solver.pending = s.solver.pending) : Spares t := by
  intro e he
  rw [hpending] at he
  obtain ⟨hlt, hno⟩ := h e he
  exact ⟨Nat.lt_of_lt_of_le hlt ht.retains.size, fun hin => hno (ht.isInput_old hlt hin)⟩

theorem Sound.spares_found (hs : Sound s) (x : Address → α) (d : Diagnosis) :
    Spares (s.found x d) := by
  intro e he
  obtain ⟨a, ha, rfl⟩ := List.mem_map.1 he
  have hfree : s.solver.fixed? a = some false := by
    rcases List.mem_append.1 ha with ha | ha
    · exact (LeastSquares.mem_unknowns.1 ha).1
    · exact (LeastSquares.mem_outputs.1 ha).1
  have hlt : a < s.solver.size := fixed?_isSome.1 (by rw [hfree]; rfl)
  refine ⟨hlt, fun hin => ?_⟩
  have hfixed : s.solver.fixed? a = some true := hs.fixed_of_isInput hin
  cases hfree.symm.trans hfixed

/-- Writing a solution leaves the inputs alone. -/
theorem Spares.value?_written (h : Spares s) (ha : s.IsInput a) :
    s.written.solver.value? a = s.solver.value? a := by
  refine value?_applySolution_of_not_mem fun e he heq => (h e he).2 ?_
  rwa [heq]

variable {es es' : History α}

/-! ### Names -/

/-- Names have scalars of their own, with the values that they were given. -/
structure Names (es : History α) (t : Session (LeastSquares α) α) : Prop where
  distinct : ∀ {m n} {a : Nat}, t.allocator.names.find? m = some a →
    t.allocator.names.find? n = some a → m = n
  given : ∀ n, (t.allocator.names.find? n).bind t.solver.value? = es.given n

namespace Names

theorem congr (h : Names es s) (hnames : t.allocator.names = s.allocator.names)
    (hvalue : ∀ n (a : Nat), s.allocator.names.find? n = some a →
      t.solver.value? a = s.solver.value? a)
    (hgiven : es'.given = es.given) : Names es' t where
  distinct := by
    rw [hnames]
    exact h.distinct
  given n := by
    rw [hnames, hgiven, ← h.given n]
    cases hn : s.allocator.names.find? n with
    | none => rfl
    | some a => exact hvalue n a hn

theorem assign (h : Names es s) (hs : Sound s) {name : String} {a : Nat} (v : α)
    (bound : s.allocator.names.find? name = some a) :
    Names (es ++ [.named name v]) { s with
      solver := { s.solver with cells := s.solver.cells.setIfInBounds a ⟨v, true⟩ }
      phase := .building } := by
  have ha : a < s.solver.cells.size := hs.lt_of_isInput (.inl ⟨_, bound⟩)
  refine ⟨h.distinct, fun n => ?_⟩
  rw [History.given_concat, Event.give, Function.update_apply]
  by_cases hn : n = name
  · subst hn
    rw [if_pos rfl, bound, Option.bind_some, value?, Array.getElem?_setIfInBounds, if_pos rfl,
      if_pos ha]
    rfl
  · rw [if_neg hn, ← h.given n]
    cases hold : s.allocator.names.find? n with
    | none => rfl
    | some b =>
        have hab : a ≠ b := by
          rintro rfl
          exact hn (h.distinct hold bound)
        rw [Option.bind_some, Option.bind_some, value?, Array.getElem?_setIfInBounds,
          if_neg hab, value?]

end Names

/-- The inputs among the primitives are as they were pushed, and the solver has the fixed points
where the sketch has them. -/
structure Inputs (es : History α) (t : Session (LeastSquares α) α) : Prop where
  kept : ∀ {id p}, es.standing id = some p → p.isInput = true → t.index.get? id = some p
  mirrored : ∀ {id g}, t.index.geometryAt? id = some g → g.shape.fixed = true → t.Mirrors id g

theorem Inputs.of_empty (h : t.index.geometryAt? = fun _ => none)
    (hstanding : es.standing = fun _ => none) : Inputs es t where
  kept := by
    rw [hstanding]
    nofun
  mirrored := by
    rw [h]
    nofun

variable [Scalar α] [Decompositions α]

theorem Move.spares (h : Move s es t) (hs : Sound s) (hp : Spares s) : Spares t := by
  rcases h.step_cases with ⟨hstep, hpending | ⟨x, d, rfl⟩⟩ | ⟨-, hphase, rfl⟩ | ⟨-, rfl⟩
  · exact hp.step hstep hpending
  · exact hs.spares_found x d
  · refine .of_none ?_
    rw [(applySolution_of_solved hphase).2.2]
    rfl
  · exact .of_none rfl

namespace Names

theorem bind (h : Names es s) (hs : Sound s) (name : String) (v : α) :
    Names (es ++ [.named name v]) (s.pushName name v) := by
  have hgrown := grown_pushPrivate s.solver [v] true
  have hfind : ∀ n, (s.pushName name v).allocator.names.find? n =
      if n = name then some s.solver.size else s.allocator.names.find? n :=
    fun n => Table.find?_insert ..
  have hlt : ∀ {n} {a : Nat}, s.allocator.names.find? n = some a → a < s.solver.size :=
    fun hn => hs.lt_of_isInput (.inl ⟨_, hn⟩)
  constructor
  · -- the new scalar lies behind those of all other names
    intro m n a hm hn
    rw [hfind] at hm hn
    by_cases hmn : m = name <;> by_cases hnn : n = name
    · exact hmn.trans hnn.symm
    · rw [if_pos hmn] at hm
      rw [if_neg hnn] at hn
      cases hm
      exact absurd (hlt hn) (Nat.lt_irrefl _)
    · rw [if_neg hmn] at hm
      rw [if_pos hnn] at hn
      cases hn
      exact absurd (hlt hm) (Nat.lt_irrefl _)
    · rw [if_neg hmn] at hm
      rw [if_neg hnn] at hn
      exact h.distinct hm hn
  · intro n
    rw [hfind, History.given_concat, Event.give, Function.update_apply]
    by_cases hn : n = name
    · rw [if_pos hn, if_pos hn, Option.bind_some]
      have hnew := hgrown.getElem?_new 0
      change (Allocator.pushPrivate s.solver [v] true).value? s.solver.size = some v
      rw [value?]
      rw [Nat.add_zero] at hnew
      rw [hnew]
      rfl
    · rw [if_neg hn, if_neg hn, ← h.given n]
      cases hold : s.allocator.names.find? n with
      | none => rfl
      | some a => exact hgrown.value?_old (hlt hold)

theorem move (h : Names es s) (hs : Sound s) (hp : Spares s) (hmove : Move s es' t) :
    Names (es ++ es') t := by
  have hlt : ∀ {n} {a : Nat}, s.allocator.names.find? n = some a → a < s.solver.size :=
    fun hn => hs.lt_of_isInput (.inl ⟨_, hn⟩)
  cases hmove with
  | refuse hsame =>
      rw [List.append_nil]
      refine h.congr (by rw [hsame.allocator]) (fun n a hn => ?_) rfl
      rw [value?, hsame.getElem?_old (hlt hn), value?]
  | tune config algorithm =>
      rw [List.append_nil]
      exact h.congr rfl (fun _ _ _ => rfl) rfl
  | place hplaced =>
      exact h.congr hplaced.names (fun n a hn => hplaced.grown.value?_old (hlt hn))
        (History.given_concat es _)
  | enter ha =>
      obtain ⟨vs, hgrown, -⟩ := ha.enters.grown
      exact h.congr (by rw [ha.allocator]) (fun n a hn => hgrown.value?_old (hlt hn))
        (History.given_concat es _)
  | extra _ henters =>
      obtain ⟨vs, hgrown, -⟩ := henters.grown
      exact h.congr rfl (fun n a hn => hgrown.value?_old (hlt hn)) (History.given_concat es _)
  | clearExtra =>
      exact h.congr rfl (fun n a hn => value?_clearTag ..) (History.given_concat es _)
  | delete _ _ =>
      exact h.congr rfl (fun n a hn => value?_clearTag ..) (History.given_concat es _)
  | bind name v => exact h.bind hs name v
  | assign v bound => exact h.assign hs v bound
  | solve x d => exact h.congr rfl (fun _ _ _ => rfl) (History.given_concat es _)
  | apply hphase =>
      obtain ⟨-, hallocator, hsolver⟩ := applySolution_of_solved hphase
      rw [List.append_nil]
      refine h.congr (by rw [hallocator]) (fun n a hn => ?_) rfl
      rw [hsolver]
      exact hp.value?_written (.inl ⟨n, hn⟩)
  | clear =>
      refine ⟨fun hm => ?_, fun n => ?_⟩
      · cases hm
      · rw [History.given_concat]
        rfl

theorem getName_eq (h : Names es s) (hs : Sound s) (n : String) :
    s.getName n = match es.given n with
      | some v => .ok v
      | none => .error (.unknownName n) := by
  rw [← h.given n, getName, Allocator.nameAddress]
  cases hn : s.allocator.names.find? n with
  | none => rfl
  | some a =>
      obtain ⟨v, hv⟩ := Option.isSome_iff_exists.1
        (value?_isSome.2 (hs.lt_of_isInput (.inl ⟨n, hn⟩)))
      have hread : Solver.value s.solver a = .ok v := by
        rw [Layout.value_of_lt (value?_isSome.1 (by rw [hv]; rfl)), read_values hv]
      rw [Option.bind_some, hv]
      show (Solver.value s.solver a).mapError SketchError.solver = .ok v
      rw [hread]
      rfl

end Names

/-! ### Fixed points and driving constraints -/

/-- What a move does to the sketch, as its event tells. -/
theorem Move.index_cases (h : Move s es' t) :
    (t.index = s.index ∧ ∀ es : History α, (es ++ es').standing = es.standing) ∨
      (∃ p, es' = [.pushed p] ∧ s.index.has p.id = false ∧
        t.index.get? = Function.update s.index.get? p.id (some p)) ∨
      (∃ id, es' = [.deleted id] ∧ s.index.geometryAt? id = none ∧
        t.index.get? = Function.update s.index.get? id none) ∨
      (es' = [] ∧ s.phase = .solved ∧ t = s.applySolution.2) ∨ (es' = [.cleared] ∧ t = s.clear) := by
  have hquiet : ∀ e : Event α, (∀ f, e.place f = f) →
      ∀ es : History α, (es ++ [e]).standing = es.standing := by
    intro e he es
    rw [History.standing_concat, he]
  cases h with
  | refuse h => exact .inl ⟨h.index, fun es => by rw [List.append_nil]⟩
  | tune config algorithm => exact .inl ⟨rfl, fun es => by rw [List.append_nil]⟩
  | @place g t h =>
      refine .inr (.inl ⟨_, rfl, h.fresh, ?_⟩)
      rw [h.index]
      exact Index.get?_insert (p := .geometry g) _
  | @enter c e outputs t h =>
      refine .inr (.inl ⟨_, rfl, h.fresh, ?_⟩)
      rw [h.index]
      exact Index.get?_insert (p := .constraint c) _
  | extra _ _ => exact .inl ⟨rfl, hquiet _ fun _ => rfl⟩
  | clearExtra => exact .inl ⟨rfl, hquiet _ fun _ => rfl⟩
  | @delete id tag absent tagged =>
      refine .inr (.inr (.inl ⟨id, rfl, absent, funext fun id' => ?_⟩))
      rw [Function.update_apply]
      exact Index.get?_delete id'
  | bind name v => exact .inl ⟨rfl, hquiet _ fun _ => rfl⟩
  | assign v bound => exact .inl ⟨rfl, hquiet _ fun _ => rfl⟩
  | solve x d => exact .inl ⟨rfl, hquiet _ fun _ => rfl⟩
  | apply hphase => exact .inr (.inr (.inr (.inl ⟨rfl, hphase, rfl⟩)))
  | clear => exact .inr (.inr (.inr (.inr ⟨rfl, rfl⟩)))

namespace Inputs

variable {id : Oid} {p : Primitive α}

omit [Decompositions α] in
/-- A solution that spares the inputs is read back past them. -/
theorem reread_written (h : Inputs es s) (hs : Sound s) (hl : Ledger es s) (hp : Spares s)
    (hget : s.index.get? id = some p) (hin : p.isInput = true) : s.written.reread id p = p := by
  cases p with
  | geometry g =>
      obtain ⟨i, shape⟩ := g
      obtain ⟨x, y, rfl⟩ := Shape.eq_point_of_fixed hin
      obtain rfl : i = id := hs.toAnchored.key hget
      have hg := Index.geometryAt?_eq_some.2 hget
      cases hbase : s.allocator.blocks.find? i with
      | none => simp only [reread, written, hbase]
      | some base =>
          have hread : ∀ {j : Nat} {v}, (Shape.point x y true : Shape Oid α).scalars[j]? = some v →
              System.read s.written.solver.values (base + j) = v := by
            intro j v hv
            apply read_values
            rw [hp.value?_written (.inr ⟨_, hs.toAnchored.owns hg hbase hv, rfl⟩)]
            exact h.mirrored hg rfl hbase hv
          have hx : Layout.reading s.written.solver base (.x, 0) = x := hread (j := 0) rfl
          have hy : Layout.reading s.written.solver base (.y, 1) = y := hread (j := 1) rfl
          have hbase' : s.written.allocator.blocks.find? i = some base := hbase
          simp only [reread, hbase']
          show Primitive.geometry ⟨i, .point (Layout.reading s.written.solver base (.x, 0))
            (Layout.reading s.written.solver base (.y, 1)) true⟩ = _
          rw [hx, hy]
  | constraint c =>
      have hmeasured := hl.measured_driving hget hin
      simp only [reread, written, hmeasured]
      rfl

omit [Decompositions α] in
theorem applied (h : Inputs es s) (hs : Sound s) (hl : Ledger es s) (hp : Spares s) :
    Inputs es s.applied where
  kept := by
    intro id p hstanding hin
    have hget := h.kept hstanding hin
    calc s.applied.index.get? id
      _ = (s.index.get? id).map (s.written.reread id) := get?_readBack s.written id
      _ = some p := by rw [hget, Option.map_some, h.reread_written hs hl hp hget hin]
  mirrored := by
    intro id g hg hfixed base i v hbase hv
    have hget := Index.geometryAt?_eq_some.1 hg
    rw [Session.applied, get?_readBack] at hget
    obtain ⟨q, hq, hreread⟩ := Option.map_eq_some_iff.1 hget
    have hin : q.isInput = true := by
      rw [← (rereads _ id q).isInput_eq, hreread]
      exact hfixed
    rw [h.reread_written hs hl hp hq hin] at hreread
    subst hreread
    have hold := Index.geometryAt?_eq_some.2 hq
    show s.written.solver.value? (base + i) = some v
    rw [hp.value?_written (.inr ⟨_, hs.toAnchored.owns hold hbase hv, hfixed⟩)]
    exact h.mirrored hold hfixed hbase hv

theorem move (h : Inputs es s) (hs : Sound s) (hl : Ledger es s) (hp : Spares s)
    (hmove : Move s es' t) : Inputs (es ++ es') t := by
  refine ⟨fun {id p} hstanding hin => ?_, fun {id g} hg hfixed => ?_⟩
  · rcases hmove.index_cases with ⟨hindex, hsame⟩ | ⟨q, rfl, -, hget⟩ | ⟨id', rfl, -, hget⟩ |
      ⟨rfl, hphase, rfl⟩ | ⟨rfl, rfl⟩
    · rw [hsame] at hstanding
      rw [hindex]
      exact h.kept hstanding hin
    · rw [History.standing_concat, Event.place, Function.update_apply] at hstanding
      rw [hget, Function.update_apply]
      split at hstanding
      · next heq =>
          rw [if_pos heq]
          exact hstanding
      · next hne =>
          rw [if_neg hne]
          exact h.kept hstanding hin
    · rw [History.standing_concat, Event.place, Function.update_apply] at hstanding
      rw [hget, Function.update_apply]
      split at hstanding
      · cases hstanding
      · next hne =>
          rw [if_neg hne]
          exact h.kept hstanding hin
    · rw [List.append_nil] at hstanding
      rw [(hl.readable hs).applySolution_eq hphase]
      exact (h.applied hs hl hp).kept hstanding hin
    · rw [History.standing_concat] at hstanding
      cases hstanding
  · rcases hmove.step_cases with ⟨hstep, -⟩ | ⟨rfl, hphase, rfl⟩ | ⟨rfl, rfl⟩
    · exact hstep.mirrors hs hg fun hold => h.mirrored hold hfixed
    · rw [(hl.readable hs).applySolution_eq hphase] at hg ⊢
      exact (h.applied hs hl hp).mirrored hg hfixed
    · cases hg

end Inputs

/-! ### Runs -/

theorem Run.inputs (hs : Fresh s) (h : Run s es t) : Spares t ∧ Names es t ∧ Inputs es t := by
  refine (h.invariant_of_ledger (P := fun es t => Spares t ∧ Names es t ∧ Inputs es t) hs.sound
    hs.ledger ?_ ?_).2
  · cases hs <;> exact ⟨.of_none rfl, ⟨nofun, fun _ => rfl⟩, .of_empty rfl rfl⟩
  · rintro es t es' u ht hl ⟨hspares, hnames, hinputs⟩ hmove
    exact ⟨hmove.spares ht hspares, hnames.move ht hspares hmove,
      hinputs.move ht hl hspares hmove⟩

/-- What stands in the sketch stands there after a move, too, unless that deletes or clears it. -/
theorem Move.standing_append (h : Move s es' t) (hl : Ledger es s) {id : Oid} {p : Primitive α}
    (hp : es.standing id = some p) (hcleared : .cleared ∉ es')
    (hdeleted : ∀ c, p = .constraint c → .deleted id ∉ es') :
    (es ++ es').standing id = some p := by
  rcases h.index_cases with ⟨-, hsame⟩ | ⟨q, rfl, hfresh, -⟩ | ⟨id', rfl, habsent, -⟩ |
    ⟨rfl, -, -⟩ | ⟨rfl, -⟩
  · rw [hsame]
    exact hp
  · have hne : id ≠ q.id := by
      rintro rfl
      have hhas := hl.has_iff.2 ⟨p, hp⟩
      rw [hfresh] at hhas
      cases hhas
    rw [History.standing_concat, Event.place, Function.update_of_ne hne]
    exact hp
  · have hne : id ≠ id' := by
      rintro rfl
      obtain ⟨q, hq, hreread⟩ := hl.standing_eq_some hp
      cases hreread with
      | geometry _ =>
          rw [Index.geometryAt?_eq_some.2 hq] at habsent
          cases habsent
      | constraint c params => exact hdeleted c rfl (List.mem_singleton_self _)
    rw [History.standing_concat, Event.place, Function.update_of_ne hne]
    exact hp
  · rwa [List.append_nil]
  · exact absurd (List.mem_singleton_self _) hcleared

theorem Run.standing_append {before : History α} (hs : Sound s) (hl : Ledger before s)
    (h : Run s es t) {id : Oid} {p : Primitive α} (hp : before.standing id = some p)
    (hcleared : .cleared ∉ es) (hdeleted : ∀ c, p = .constraint c → .deleted id ∉ es) :
    (before ++ es).standing id = some p := by
  refine (h.invariant_of_ledger (P := fun es _ => .cleared ∉ es →
    (∀ c, p = .constraint c → .deleted id ∉ es) → (before ++ es).standing id = some p)
    hs hl ?_ ?_).2 hcleared hdeleted
  · intro _ _
    rwa [List.append_nil]
  · intro es t es' u _ hl ih hmove hcleared hdeleted
    have hleft : ∀ {e : Event α}, e ∉ es ++ es' → e ∉ es := fun he h => he (List.mem_append_left _ h)
    have hright : ∀ {e : Event α}, e ∉ es ++ es' → e ∉ es' :=
      fun he h => he (List.mem_append_right _ h)
    rw [← List.append_assoc]
    exact hmove.standing_append hl (ih (hleft hcleared) fun c hc => hleft (hdeleted c hc))
      (hright hcleared) fun c hc => hright (hdeleted c hc)

/-- A name has the value that it was given last, and the fixed points and driving constraints of
the sketch are the ones that were pushed. So they stay, whatever a solve finds, until the name is
given another value, the constraint is deleted or all is cleared. -/
theorem Run.inputs_persist (hs : Fresh s) (h : Run s es t) :
    (∀ n, t.getName n = match es.given n with
      | some v => .ok v
      | none => .error (.unknownName n)) ∧
    (∀ id p, p.isInput = true → (t.index.get? id = some p ↔ es.standing id = some p)) ∧
    ∀ es' u, Run t es' u → .cleared ∉ es' →
      (∀ n, (∀ v, .named n v ∉ es') → u.getName n = t.getName n) ∧
      ∀ id p, p.isInput = true → t.index.get? id = some p →
        (∀ c, p = .constraint c → .deleted id ∉ es') → u.index.get? id = some p := by
  obtain ⟨-, hnames, hinputs⟩ := h.inputs hs
  have hsound := h.sound hs.sound
  have hledger := h.ledger hs
  have hpushed : ∀ id p, p.isInput = true →
      (t.index.get? id = some p ↔ es.standing id = some p) := by
    intro id p hin
    refine ⟨fun hget => ?_, fun hstanding => hinputs.kept hstanding hin⟩
    obtain ⟨q, hq, hreread⟩ := hledger.get?_eq_some hget
    have hkept := hinputs.kept hq (by rw [← hreread.isInput_eq]; exact hin)
    cases hkept.symm.trans hget
    exact hq
  refine ⟨hnames.getName_eq hsound, hpushed, fun es' u hrun hcleared => ⟨fun n hn => ?_, ?_⟩⟩
  · obtain ⟨-, hnames', -⟩ := (h.trans hrun).inputs hs
    rw [hnames'.getName_eq (hrun.sound hsound), hnames.getName_eq hsound,
      History.given_append hcleared hn]
  · intro id p hin hget hdeleted
    obtain ⟨-, -, hinputs'⟩ := (h.trans hrun).inputs hs
    refine hinputs'.kept ?_ hin
    exact hrun.standing_append hsound hledger ((hpushed id p hin).1 hget) hcleared hdeleted

/-- One free and one fixed point, and a constraint on the free one. -/
def drivenSession : Session (LeastSquares Float) Float :=
  smallSession.perform (.push (.constraint xIsWidth))

/-- The session after a solution that sets every unknown to nine. -/
def movedSession : Session (LeastSquares Float) Float :=
  (drivenSession.found (fun _ => 9.0) .empty).perform .apply

/-- The solution moves the free point and nothing else. -/
theorem inputs_movedSession :
    ∃ es es', Run (.new (.ofConfig .standard)) es drivenSession ∧
      Run drivenSession es' movedSession ∧
      movedSession.index.get? ⟨1⟩ = some (.geometry ⟨⟨1⟩, .point 9.0 9.0 false⟩) ∧
      movedSession.getName "width" = .ok 3.0 ∧
      movedSession.index.get? ⟨2⟩ = some (.geometry ⟨⟨2⟩, .point 0.0 0.0 true⟩) ∧
      movedSession.index.get? ⟨3⟩ = some (.constraint xIsWidth) := by
  have hrun : Run (.new (.ofConfig .standard)) _ drivenSession :=
    .call (.call (.call .refl _) _) _
  have hmoved : Run drivenSession _ movedSession := .call (.solve .refl _ _) .apply
  obtain ⟨hgiven, -, hlater⟩ := Run.inputs_persist (.new .standard) hrun
  obtain ⟨hnames, hprimitives⟩ := hlater _ _ hmoved (by simp [events])
  refine ⟨_, _, hrun, hmoved, rfl, ?_, ?_, ?_⟩
  · rw [hnames "width" (by simp [events]), hgiven]
    rfl
  · exact hprimitives ⟨2⟩ _ rfl rfl (by simp)
  · exact hprimitives ⟨3⟩ _ rfl rfl (by simp [events])

end Session

end PlanarSketch
