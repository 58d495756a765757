import PlanarSketch.Proofs.LeastSquares.Cells
import PlanarSketch.Proofs.LeastSquares.Operands

/-!
The calls that a solver takes. A call fills the places of the schema of its kind one by one, and may
end with a scale. What each place takes, and the error for what it does not take, are written down
without regard to the order of the checks; a call that is not taken fails at the first place that
does not take its argument.
-/

namespace PlanarSketch

variable {α : Type}

/-- A place among the arguments of a call. -/
inductive Place where
  | param (p : ParamSpec)
  | scale

/-- The places of a call with this schema; the last one may be left empty. -/
def Place.ofSchema (ps : List ParamSpec) : List Place := ps.map .param ++ [.scale]

theorem Place.ofSchema_cons (p : ParamSpec) (ps : List ParamSpec) :
    ofSchema (p :: ps) = .param p :: ofSchema ps := rfl

namespace Scope

variable (s : Scope)

/-- Whether a place takes an argument. -/
def Takes : Place → Arg α → Prop
  | .param p, a =>
      match p.slot, a with
      | .value, .param b | .value, .datum b => b < s.size
      | .geometry c, .geometry h =>
          ∃ r, s.records.find? h = some r ∧ c.accepts r.geometryClass ∧
            (c = .curve → r.geometryClass ∈ [.line, .circle, .arc])
      | .raw, .number _ => True
      | .raw, .bool _ => p.name = "reverse1" ∨ p.name = "reverse2"
      | .tag, .tag _ | .driving, .bool _ | .alignment, .alignment _ => True
      | _, _ => False
  | .scale, .scale _ => True
  | .scale, _ => False

/-- The error for an argument that a place does not take. -/
def misfit (k : Kind) (i : Nat) : Place → Arg α → SolverError
  | .param p, a =>
      match p.slot, a with
      | .value, .param b | .value, .datum b => .addressOutOfRange b
      | .value, _ => .argumentType k i .address
      | .geometry _, .geometry h =>
          match s.records.find? h with
          | none => .unknownHandle h
          | some r => .unsupportedGeometry k r.geometryClass
      | .geometry _, _ => .argumentType k i .handle
      | .raw, _ =>
          .argumentType k i
            (if p.name = "reverse1" ∨ p.name = "reverse2" then .boolean else .number)
      | .tag, _ => .argumentType k i .tag
      | .driving, _ => .argumentType k i .drivingFlag
      | .alignment, _ => .argumentType k i .alignment
  | .scale, _ => .argumentType k i .scale

/-- A call with arguments for all its places, or for all but the last, each of which is taken. -/
structure Accepts (c : Call α) : Prop where
  length : c.args.length = c.kind.schema.length ∨ c.args.length = c.kind.schema.length + 1
  takes : ∀ e ∈ (Place.ofSchema c.kind.schema).zip c.args, s.Takes e.1 e.2

/-- The argument `a` at the place `p` is the `i`-th, and the first that is not taken. -/
structure FirstMisfit (es : List (Place × Arg α)) (i : Nat) (p : Place) (a : Arg α) : Prop where
  there : es[i]? = some (p, a)
  misfit : ¬ s.Takes p a
  before : ∀ e ∈ es.take i, s.Takes e.1 e.2

/-- The error of a call: that of the number of its arguments, or else of the first misfit. -/
inductive Refuses (c : Call α) : SolverError → Prop where
  | arity (few : c.args.length ≠ c.kind.schema.length)
      (many : c.args.length ≠ c.kind.schema.length + 1) :
      Refuses c (.arityMismatch c.kind c.args.length)
  | misfit {i : Nat} {p : Place} {a : Arg α}
      (length : c.args.length = c.kind.schema.length ∨
        c.args.length = c.kind.schema.length + 1)
      (first : s.FirstMisfit ((Place.ofSchema c.kind.schema).zip c.args) i p a) :
      Refuses c (s.misfit c.kind i p a)

variable {s} {k : Kind} {p : ParamSpec} {a : Arg α}

theorem takes_geometry {c : GeometryClass} {h : Handle} (hslot : p.slot = .geometry c) :
    s.Takes (.param p) (.geometry h : Arg α) ↔ ∃ r, s.records.find? h = some r ∧ supported c r := by
  simp only [Takes, hslot]
  constructor
  · rintro ⟨r, hr, haccepts, hcurve⟩
    exact ⟨r, hr, (supported_iff haccepts).2 hcurve⟩
  · rintro ⟨r, hr, hsupported⟩
    have haccepts : c.accepts r.geometryClass := (Bool.and_eq_true_iff.1 hsupported).1
    exact ⟨r, hr, haccepts, (supported_iff haccepts).1 hsupported⟩

/-- The arguments of a call that is accepted, and the scale if there is one. -/
theorem Accepts.exists_split {c : Call α} (h : s.Accepts c) :
    ∃ (as : List (Arg α)) (v : Option α), c.args = as ++ v.toList.map .scale ∧
      List.Forall₂ (fun p a => (p, a) ∈ c.kind.schema.zip c.args ∧ s.Takes (.param p) a)
        c.kind.schema as := by
  obtain ⟨as, rest, hargs, hlen⟩ : ∃ as rest, c.args = as ++ rest ∧
      as.length = c.kind.schema.length :=
    ⟨_, _, (List.take_append_drop c.kind.schema.length c.args).symm,
      List.length_take_of_le (by have := h.length; omega)⟩
  have htakes := h.takes
  have hlength := h.length
  rw [hargs, List.length_append] at hlength
  rw [hargs, Place.ofSchema, List.zip_append (by rw [List.length_map, hlen]),
    List.forall_mem_append] at htakes
  have hrest : ∃ v : Option α, rest = v.toList.map .scale := by
    rcases rest with _ | ⟨a, rest⟩
    · exact ⟨none, rfl⟩
    · rw [List.length_cons] at hlength
      obtain rfl : rest = [] := List.length_eq_zero_iff.1 (by omega)
      have ha : s.Takes .scale a := htakes.2 _ List.mem_cons_self
      cases a <;> first | exact ha.elim | exact ⟨some _, rfl⟩
  obtain ⟨v, rfl⟩ := hrest
  refine ⟨as, v, hargs, List.forall₂_iff_zip.2 ⟨hlen.symm, fun {p a} hpa => ⟨?_, ?_⟩⟩⟩
  · rw [hargs, ← List.append_nil c.kind.schema, List.zip_append hlen.symm]
    exact List.mem_append_left _ hpa
  · refine htakes.1 (.param p, a) ?_
    rw [List.zip_map_left]
    exact List.mem_map_of_mem hpa

variable [Scalar α]

theorem operand_cases (i : Nat) (a : Arg α) (hp : p ∈ k.schema) :
    s.Takes (.param p) a ∧ (∃ o, s.operand k p.slot i a = .ok o) ∨
      ¬ s.Takes (.param p) a ∧ s.operand k p.slot i a = .error (s.misfit k i (.param p) a) := by
  cases hslot : p.slot with
  | value =>
      cases a
      case param b | datum b =>
        by_cases hb : b < s.size
        · exact .inl ⟨by simpa [Takes, hslot] using hb, _, congrArg (Except.map _) (if_pos hb)⟩
        · refine .inr ⟨by simpa [Takes, hslot] using hb, ?_⟩
          simp [operand, checkAddress, hb, misfit, hslot, Except.map]
      all_goals exact .inr ⟨by simp [Takes, hslot], by simp [operand, misfit, hslot]⟩
  | geometry c =>
      cases a
      case geometry h =>
        cases hr : s.records.find? h with
        | none =>
            refine .inr ⟨fun ht => ?_,
              by simp [operand, checkHandle, hr, misfit, hslot, Except.map]⟩
            obtain ⟨r, hr', -⟩ := (takes_geometry hslot).1 ht
            cases hr.symm.trans hr'
        | some r =>
            by_cases hsupported : supported c r = true
            · exact .inl ⟨(takes_geometry hslot).2 ⟨r, hr, hsupported⟩, .record r,
                by simp [operand, checkHandle, hr, hsupported, Except.map]⟩
            · refine .inr ⟨fun ht => ?_,
                by simp [operand, checkHandle, hr, hsupported, misfit, hslot, Except.map]⟩
              obtain ⟨r', hr', hs⟩ := (takes_geometry hslot).1 ht
              cases hr.symm.trans hr'
              exact hsupported hs
      all_goals exact .inr ⟨by simp [Takes, hslot], by simp [operand, misfit, hslot]⟩
  | raw =>
      have hname := Kind.raw_name p hp hslot
      by_cases hk : k = .perpendicularArc2arc
      · cases a <;> simp [Takes, operand, misfit, hslot, hk, hname.2 hk]
      · cases a <;> simp [Takes, operand, misfit, hslot, hk, mt hname.1 hk]
  | tag | driving | alignment => cases a <;> simp [Takes, operand, misfit, hslot]

/-- The operands of a call are those of its arguments, up to the first that is not taken. -/
theorem operands_first {ps : List ParamSpec} (as : List (Arg α)) (i : Nat) (hps : ps ⊆ k.schema)
    (hlen : as.length ≤ ps.length + 1) :
    (∀ e ∈ (Place.ofSchema ps).zip as, s.Takes e.1 e.2) ∨
      ∃ n p a, s.FirstMisfit ((Place.ofSchema ps).zip as) n p a ∧
        s.operands k ps i as = .error (s.misfit k (i + n) p a) := by
  induction ps generalizing i as with
  | nil =>
      cases as with
      | nil => exact .inl (List.forall_mem_nil _)
      | cons a as =>
          by_cases ha : s.Takes .scale a
          · refine .inl fun e he => ?_
            rw [List.mem_singleton.1 he]
            exact ha
          · refine .inr ⟨0, .scale, a, ⟨rfl, ha, List.forall_mem_nil _⟩, ?_⟩
            cases a <;> first | rfl | exact absurd trivial ha
  | cons p ps ih =>
      cases as with
      | nil => exact .inl (List.forall_mem_nil _)
      | cons a as =>
          rw [Place.ofSchema_cons, List.zip_cons_cons, operands]
          rcases operand_cases (s := s) i a (hps List.mem_cons_self) with ⟨ha, o, ho⟩ | ⟨ha, ho⟩
          · rw [ho]
            rcases ih as (i + 1) (fun q hq => hps (List.mem_cons_of_mem p hq))
              (Nat.le_of_succ_le_succ hlen) with hrest | ⟨n, q, b, hfirst, hrest⟩
            · exact .inl (List.forall_mem_cons.2 ⟨ha, hrest⟩)
            · refine .inr ⟨n + 1, q, b, ⟨hfirst.there, hfirst.misfit, ?_⟩, ?_⟩
              · exact List.forall_mem_cons.2 ⟨ha, hfirst.before⟩
              · rw [ok_bind, hrest, Nat.add_right_comm]
                rfl
          · rw [ho]
            exact .inr ⟨0, .param p, a, ⟨rfl, ha, List.forall_mem_nil _⟩, rfl⟩

theorem Rejects.elim {S : ParamSpec → Arg α → Prop} {e : SolverError} {i : Nat}
    {ps : List ParamSpec} (h : s.Rejects k S e i ps)
    (hS : ∀ p a i, S p a → ∃ o, s.operand k p.slot i a = .ok o) : False := by
  induction h with
  | here ha he =>
      obtain ⟨o, ho⟩ := hS _ _ _ ha
      cases ho.symm.trans he
  | later _ _ _ ih => exact ih

end Scope

namespace LeastSquares

variable [Scalar α]

/-- The entry has the tag, the flag, the scale and the datums of the arguments. -/
structure Stored (c : Call α) (e : Entry α) : Prop where
  tag : (⟨"tagId", .tag⟩, .tag e.tag) ∈ c.kind.schema.zip c.args
  driving : (⟨"driving", .driving⟩, .bool e.driving) ∈ c.kind.schema.zip c.args
  scale : c.args.drop c.kind.schema.length = [] ∧ e.scale = 1.0 ∨
    c.args.drop c.kind.schema.length = [.scale e.scale]
  datums : e.datums = c.args.filterMap Arg.datum?

theorem ofCall_of_accepts {s : Scope} {c : Call α} (h : s.Accepts c) :
    ∃ e, Entry.ofCall s c = .ok e ∧ Stored c e := by
  obtain ⟨k, args⟩ := c
  obtain ⟨as, v, rfl, has⟩ := h.exists_split
  rcases Entry.ofCall_cases (s := s) v has with ⟨e, -, hrej⟩ | ⟨os, t, d, eq, he, -, -, ht, hd⟩
  · refine (hrej.elim fun p a i ⟨hpa, ha⟩ => ?_).elim
    rcases Scope.operand_cases (s := s) i a (List.of_mem_zip hpa).1 with ⟨-, hok⟩ | ⟨hno, -⟩
    · exact hok
    · exact absurd ha hno
  · have hdrop : (as ++ v.toList.map Arg.scale).drop k.schema.length = v.toList.map .scale := by
      rw [has.length_eq, List.drop_left]
    refine ⟨_, he, ?_, ?_, ?_, ?_⟩
    · obtain ⟨a, i, ⟨hmem, -⟩, ho⟩ := ht
      cases a <;> cases ho
      exact hmem
    · obtain ⟨a, i, ⟨hmem, -⟩, ho⟩ := hd
      cases a <;> cases ho
      exact hmem
    · rw [hdrop]
      cases v with
      | none => exact .inl ⟨rfl, rfl⟩
      | some x => exact .inr rfl
    · cases v <;> simp [Arg.datum?]

theorem ofCall_of_not_accepts {s : Scope} {c : Call α} (h : ¬ s.Accepts c) :
    ∃ e, Entry.ofCall s c = .error e ∧ s.Refuses c e := by
  by_cases hlen : c.args.length = c.kind.schema.length ∨
      c.args.length = c.kind.schema.length + 1
  · have harity : ¬ (c.args.length ≠ c.kind.arity true ∧ c.args.length ≠ c.kind.arity false) := by
      simp only [Kind.arity, if_true, Bool.false_eq_true, if_false]
      omega
    rcases Scope.operands_first (s := s) (k := c.kind) c.args 0 (List.Subset.refl _)
      (by omega) with hall | ⟨i, p, a, hfirst, herror⟩
    · exact absurd ⟨hlen, hall⟩ h
    · refine ⟨_, ?_, .misfit hlen hfirst⟩
      rw [Entry.ofCall, if_neg harity, herror, Nat.zero_add]
      rfl
  · rw [not_or] at hlen
    exact ⟨_, if_pos ⟨hlen.2, hlen.1⟩, .arity hlen.1 hlen.2⟩

variable [Decompositions α]

/-- A call is taken if and only if it has an argument for every place of its schema, and perhaps a
scale, and each place takes its argument. It then adds one entry. Otherwise nothing happens, and the
error is that of the number of arguments or of the first argument that its place does not take. -/
theorem add_iff_accepts (s : LeastSquares α) (c : Call α) :
    ((Solver.add s c).1 = .ok () ↔ s.scope.Accepts c) ∧
    (s.scope.Accepts c → ∃ e, Stored c e ∧
      Solver.add s c = (.ok (), { s with entries := s.entries ++ [e] })) ∧
    (¬ s.scope.Accepts c → ∃ e, s.scope.Refuses c e ∧ Solver.add s c = (.error e, s)) := by
  rw [add_eq]
  by_cases h : s.scope.Accepts c
  · obtain ⟨e, he, hstored⟩ := ofCall_of_accepts h
    rw [he]
    exact ⟨⟨fun _ => h, fun _ => rfl⟩, fun _ => ⟨e, hstored, rfl⟩, fun hno => absurd h hno⟩
  · obtain ⟨e, he, hrefuses⟩ := ofCall_of_not_accepts h
    rw [he]
    exact ⟨⟨nofun, fun hyes => absurd hyes h⟩, fun hyes => absurd hyes h,
      fun _ => ⟨e, hrefuses, rfl⟩⟩

end LeastSquares

end PlanarSketch
