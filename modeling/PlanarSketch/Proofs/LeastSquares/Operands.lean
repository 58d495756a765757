import Mathlib.Data.List.Forall2
import PlanarSketch.Proofs.LeastSquares.Addresses
import PlanarSketch.Proofs.Lookup

/-!
The solver's check of a call. An operand that passes suits its place in the schema, and operands
that suit their places always have an equation: no kind is left out. The equation reads only what
the operands mention, and each scalar that an operand mentions exists.
-/

namespace PlanarSketch

variable {α : Type}

namespace Operand

/-- The operand can stand at a place of the schema of a kind. -/
def Suits (k : Kind) : Slot → Operand α → Prop
  | .value, .address _ => True
  | .geometry c, .record r => Scope.supported c r
  | .raw, .flag _ => k = .perpendicularArc2arc
  | .raw, .number _ => k ≠ .perpendicularArc2arc
  | .tag, .tag _ => True
  | .driving, .driving _ => True
  | .alignment, .alignment _ => True
  | _, _ => False

variable {k : Kind} {o : Operand α}

theorem suits_value : Suits k .value o ↔ ∃ a, o = .address a := by
  cases o <;> simp [Suits]

theorem suits_geometry {c : GeometryClass} :
    Suits k (.geometry c) o ↔ ∃ r, o = .record r ∧ Scope.supported c r := by
  cases o <;> simp [Suits]

theorem suits_point :
    Suits k (.geometry .point) o ↔ ∃ x y fixed, o = .record (.point x y fixed) := by
  rw [suits_geometry]
  constructor
  · rintro ⟨r, rfl, hr⟩
    cases r <;> first | exact ⟨_, _, _, rfl⟩ | exact (Bool.false_ne_true hr).elim
  · rintro ⟨x, y, fixed, rfl⟩
    exact ⟨_, rfl, rfl⟩

theorem suits_line : Suits k (.geometry .line) o ↔ ∃ p q, o = .record (.line p q) := by
  rw [suits_geometry]
  constructor
  · rintro ⟨r, rfl, hr⟩
    cases r <;> first | exact ⟨_, _, rfl⟩ | exact (Bool.false_ne_true hr).elim
  · rintro ⟨p, q, rfl⟩
    exact ⟨_, rfl, rfl⟩

theorem suits_arc : Suits k (.geometry .arc) o ↔
    ∃ c s e a b r, o = .record (.arc c s e a b r) := by
  rw [suits_geometry]
  constructor
  · rintro ⟨r, rfl, hr⟩
    cases r <;> first | exact ⟨_, _, _, _, _, _, rfl⟩ | exact (Bool.false_ne_true hr).elim
  · rintro ⟨c, s, e, a, b, r, rfl⟩
    exact ⟨_, rfl, rfl⟩

theorem suits_circle : Suits k (.geometry .circle) o ↔
    ∃ r c, o = .record r ∧ Equation.circle? r = some c := by
  rw [suits_geometry]
  constructor
  · rintro ⟨r, rfl, hr⟩
    cases r <;> first | exact ⟨_, _, rfl, rfl⟩ | exact (Bool.false_ne_true hr).elim
  · rintro ⟨r, c, rfl, hr⟩
    refine ⟨r, rfl, ?_⟩
    cases r <;> first | rfl | exact absurd hr (by simp [Equation.circle?])

theorem suits_ellipse : Suits k (.geometry .ellipse) o ↔
    ∃ r e, o = .record r ∧ Equation.ellipse? r = some e := by
  rw [suits_geometry]
  constructor
  · rintro ⟨r, rfl, hr⟩
    cases r <;> first | exact ⟨_, _, rfl, rfl⟩ | exact (Bool.false_ne_true hr).elim
  · rintro ⟨r, c, rfl, hr⟩
    refine ⟨r, rfl, ?_⟩
    cases r <;> first | rfl | exact absurd hr (by simp [Equation.ellipse?])

theorem suits_curve : Suits k (.geometry .curve) o ↔
    ∃ r t, o = .record r ∧ Equation.tangent? r = some t := by
  rw [suits_geometry]
  constructor
  · rintro ⟨r, rfl, hr⟩
    cases r <;> first | exact ⟨_, _, rfl, rfl⟩ | exact (Bool.false_ne_true hr).elim
  · rintro ⟨r, c, rfl, hr⟩
    refine ⟨r, rfl, ?_⟩
    cases r <;> first | rfl | exact absurd hr (by simp [Equation.tangent?, Equation.circle?])

theorem suits_flag : Suits .perpendicularArc2arc .raw o ↔ ∃ b, o = .flag b := by
  cases o <;> simp [Suits]

theorem suits_number : Suits .p2pAngleIncrAngle .raw o ↔ ∃ x, o = .number x := by
  cases o <;> simp [Suits]

theorem suits_tag : Suits k .tag o ↔ ∃ t, o = .tag t := by
  cases o <;> simp [Suits]

theorem suits_driving : Suits k .driving o ↔ ∃ d, o = .driving d := by
  cases o <;> simp [Suits]

theorem suits_alignment : Suits k .alignment o ↔ ∃ a, o = .alignment a := by
  cases o <;> simp [Suits]

/-- What enters the equation is what the constraint itself is given. -/
theorem Suits.isOwn_eq {p : ParamSpec} (h : o.Suits k p.slot) : o.isOwn = p.isUserData := by
  obtain ⟨name, slot⟩ := p
  cases slot <;> cases o <;> first | rfl | exact False.elim h

end Operand

namespace Equation

open Operand

/-- Every kind has an equation between operands that suit its schema. It reads nothing but what
they mention, and every address among them. -/
theorem exists_ofOperands [Scalar α] (k : Kind) (os : List (Operand α))
    (h : List.Forall₂ (fun p o => Operand.Suits k p.slot o) k.userParams os) :
    ∃ e, ofOperands? k os = some e ∧ e.addresses ⊆ os.flatMap Operand.addresses ∧
      k.valueReads e = os.filterMap Operand.address? := by
  revert os
  cases k <;>
    simp only [Kind.userParams, ParamSpec.value, ParamSpec.point, ParamSpec.line, ParamSpec.circle,
      ParamSpec.arc, ParamSpec.ellipse, ParamSpec.curve, ParamSpec.raw, List.forall₂_cons_left_iff,
      List.forall₂_nil_left_iff, suits_value, suits_point, suits_line, suits_arc, suits_circle,
      suits_ellipse, suits_curve, suits_flag, suits_number, forall_exists_index, and_imp]
  all_goals
    intros
    subst_vars
  -- a circle, an ellipse or a curve is one of a few shapes
  case' tangentLc c _ hc => cases c <;> cases hc
  case' pointOnCircle c _ hc => cases c <;> cases hc
  case' pointOnEllipse e _ he => cases e <;> cases he
  case' circleRadius c _ hc _ => cases c <;> cases hc
  case' circleDiameter c _ hc _ => cases c <;> cases hc
  case' equalRadiusCc c _ hc d _ hd => cases c <;> cases hc <;> cases d <;> cases hd
  case' angleViaPoint c _ hc d _ hd _ _ _ _ => cases c <;> cases hc <;> cases d <;> cases hd
  case' perpendicularArc2arc reverse1 _ _ _ _ _ _ reverse2 => cases reverse1 <;> cases reverse2
  all_goals
    refine ⟨_, rfl, ?_, rfl⟩
    simp [addresses, Operand.addresses, Tangent.addresses, Segment.addresses, ArcEnds.addresses,
      Vec2.addresses, Shape.addresses, Shape.points, Shape.scalars]

end Equation

namespace Scope

theorem checkAddress_eq_ok {s : Scope} {a b : Address} :
    s.checkAddress a = .ok b ↔ a < s.size ∧ a = b := by
  unfold checkAddress
  by_cases ha : a < s.size
  · simp [ha]
  · simp only [ha, if_false, false_and, iff_false]
    nofun

theorem checkHandle_eq_ok {s : Scope} {k : Kind} {c : GeometryClass} {h : Handle} {r : Record} :
    s.checkHandle k c h = .ok r ↔ s.records.find? h = some r ∧ supported c r := by
  unfold checkHandle
  cases s.records.find? h with
  | none => simp
  | some q =>
      by_cases hq : supported c q = true
      · simp only [hq, if_true, Except.ok.injEq, Option.some.injEq]
        exact ⟨fun heq => ⟨heq, heq ▸ hq⟩, And.left⟩
      · simp only [hq, Option.some.injEq]
        exact ⟨nofun, fun heq => absurd (heq.1 ▸ heq.2) hq⟩

/-- An accepted geometry is supported, except that not every curve is. -/
theorem supported_iff {c : GeometryClass} {r : Record} (h : c.accepts r.geometryClass) :
    supported c r ↔ (c = .curve → r.geometryClass ∈ [.line, .circle, .arc]) := by
  rw [supported, h]
  cases c <;> simp [GeometryClass.accepts]

variable [Scalar α] {s : Scope} {k : Kind} {slot : Slot} {i : Nat} {a : Arg α} {o : Operand α}

theorem operand_suits (h : s.operand k slot i a = .ok o) : o.Suits k slot := by
  cases slot with
  | value =>
      cases a
      case param b | datum b =>
        obtain ⟨b, -, rfl⟩ := map_eq_ok.1 h
        trivial
      all_goals cases h
  | geometry c =>
      cases a
      case geometry handle =>
        obtain ⟨r, hr, rfl⟩ := map_eq_ok.1 h
        exact (checkHandle_eq_ok.1 hr).2
      all_goals cases h
  | raw =>
      by_cases hk : k = .perpendicularArc2arc
      · subst hk
        cases a <;> simp [operand] at h
        all_goals
          subst h
          rfl
      · cases a <;> simp [operand, hk] at h
        subst h
        exact hk
  | tag =>
      cases a <;> simp [operand] at h
      subst h
      trivial
  | driving =>
      cases a <;> simp [operand] at h
      subst h
      trivial
  | alignment =>
      cases a <;> simp [operand] at h
      subst h
      trivial

/-- The operand at a place of the schema comes from an argument with the given property. -/
def Yields (s : Scope) (k : Kind) (S : ParamSpec → Arg α → Prop) (p : ParamSpec)
    (o : Operand α) : Prop :=
  ∃ a i, S p a ∧ s.operand k p.slot i a = .ok o

/-- The first argument that does not fit its place, counted from `i`, fails with `e`. -/
inductive Rejects (s : Scope) (k : Kind) (S : ParamSpec → Arg α → Prop) (e : SolverError) :
    Nat → List ParamSpec → Prop where
  | here {i : Nat} {p : ParamSpec} {ps : List ParamSpec} {a : Arg α} (ha : S p a)
      (h : s.operand k p.slot i a = .error e) : Rejects s k S e i (p :: ps)
  | later {i : Nat} {p : ParamSpec} {ps : List ParamSpec} {a : Arg α} {o : Operand α}
      (ha : S p a) (h : s.operand k p.slot i a = .ok o) (hps : Rejects s k S e (i + 1) ps) :
      Rejects s k S e i (p :: ps)

/-- A scale may follow the arguments of a schema. -/
theorem operands_cases {S : ParamSpec → Arg α → Prop} {ps : List ParamSpec} {as : List (Arg α)}
    (hS : List.Forall₂ S ps as) (i : Nat) (v : Option α) :
    (∃ e, s.operands k ps i (as ++ v.toList.map .scale) = .error e ∧ s.Rejects k S e i ps) ∨
    ∃ os, s.operands k ps i (as ++ v.toList.map .scale) = .ok (os ++ v.toList.map .scale) ∧
      List.Forall₂ (s.Yields k S) ps os := by
  -- along the schema; `i` is the place of the argument that is checked next
  induction hS generalizing i with
  | nil =>
      refine .inr ⟨[], ?_, .nil⟩
      cases v <;> rfl
  | @cons p a ps as ha _ ih =>
      rw [List.cons_append, operands]
      cases ho : s.operand k p.slot i a with
      | error e => exact .inl ⟨e, rfl, .here ha ho⟩
      | ok o =>
          rcases ih (i + 1) with ⟨e, hrest, hrej⟩ | ⟨os, hrest, hos⟩
          · rw [hrest]
            exact .inl ⟨e, rfl, .later ha ho hrej⟩
          · rw [hrest]
            exact .inr ⟨o :: os, rfl, .cons ⟨a, i, ha, ho⟩ hos⟩

end Scope

namespace Scope

/-- The address is the argument, or belongs to the geometry that the argument is a handle of. -/
inductive Mentions (s : Scope) (b : Address) : Arg α → Prop where
  | param (h : b < s.size) : Mentions s b (.param b)
  | datum (h : b < s.size) : Mentions s b (.datum b)
  | geometry {h : Handle} {r : Record} (hr : s.records.find? h = some r) (hb : b ∈ r.addresses) :
      Mentions s b (.geometry h)

variable [Scalar α] {s : Scope} {k : Kind} {slot : Slot} {i : Nat} {a : Arg α} {o : Operand α}

theorem operand_mentions (h : s.operand k slot i a = .ok o) {b : Address}
    (hb : b ∈ o.addresses) : s.Mentions b a := by
  cases slot with
  | value =>
      cases a
      case param c =>
        obtain ⟨c', hc, rfl⟩ := map_eq_ok.1 h
        obtain ⟨hlt, rfl⟩ := checkAddress_eq_ok.1 hc
        obtain rfl := List.mem_singleton.1 hb
        exact .param hlt
      case datum c =>
        obtain ⟨c', hc, rfl⟩ := map_eq_ok.1 h
        obtain ⟨hlt, rfl⟩ := checkAddress_eq_ok.1 hc
        obtain rfl := List.mem_singleton.1 hb
        exact .datum hlt
      all_goals cases h
  | geometry c =>
      cases a
      case geometry handle =>
        obtain ⟨r, hr, rfl⟩ := map_eq_ok.1 h
        exact .geometry (checkHandle_eq_ok.1 hr).1 hb
      all_goals cases h
  | raw | tag | driving | alignment =>
      -- such an operand is no scalar and no geometry
      have hsuits := operand_suits h
      cases o <;> first | exact hsuits.elim | cases hb

theorem operand_datum {b : Address} (h : s.operand k slot i (.datum b) = .ok o) :
    b < s.size := by
  cases slot with
  | value =>
      obtain ⟨c, hc, -⟩ := map_eq_ok.1 h
      exact (checkAddress_eq_ok.1 hc).1
  | raw => by_cases hk : k = .perpendicularArc2arc <;> simp [operand, hk] at h
  | geometry c | tag | driving | alignment => cases h

/-- Arguments that are enough for a schema have an operand for each of its places. -/
theorem operands_eq_ok {ps : List ParamSpec} {as : List (Arg α)} {os : List (Operand α)}
    (h : s.operands k ps i as = .ok os) (hlen : ps.length ≤ as.length) :
    ∃ us rest, os = us ++ rest ∧ List.Forall₂ (s.Yields k fun _ a => a ∈ as) ps us ∧
      ∀ o ∈ rest, o.isOwn = false := by
  induction ps generalizing i as os with
  | nil =>
      refine ⟨[], os, rfl, .nil, ?_⟩
      cases as with
      | nil =>
          cases h
          simp
      | cons a as =>
          -- behind the schema only a scale may stand
          cases a <;> cases h
          simp [Operand.isOwn]
  | cons p ps ih =>
      cases as with
      | nil => simp at hlen
      | cons a as =>
          rw [operands] at h
          obtain ⟨o, ho, h⟩ := bind_eq_ok.1 h
          obtain ⟨os', hos, h⟩ := bind_eq_ok.1 h
          cases h
          obtain ⟨us, rest, rfl, hus, hrest⟩ := ih hos (Nat.le_of_succ_le_succ hlen)
          refine ⟨o :: us, rest, rfl, .cons ⟨a, i, List.mem_cons_self, ho⟩ ?_, hrest⟩
          refine hus.imp ?_
          rintro p o ⟨a', j, ha', ho'⟩
          exact ⟨a', j, List.mem_cons_of_mem a ha', ho'⟩

theorem yields_suits {S : ParamSpec → Arg α → Prop} {p : ParamSpec} (h : s.Yields k S p o) :
    o.Suits k p.slot := by
  obtain ⟨a, i, -, ho⟩ := h
  exact operand_suits ho

/-- The operands of the equation are those of the parameters that the kind names. -/
theorem operands_own {as : List (Arg α)} {os : List (Operand α)}
    (h : s.operands k k.schema i as = .ok os) (hlen : k.schema.length ≤ as.length) :
    List.Forall₂ (s.Yields k fun _ a => a ∈ as) k.userParams (os.filter Operand.isOwn) := by
  obtain ⟨us, rest, rfl, hus, hrest⟩ := operands_eq_ok h hlen
  have hnone : rest.filter Operand.isOwn = [] :=
    List.filter_eq_nil_iff.2 fun o ho => by simp [hrest o ho]
  rw [List.filter_append, hnone, List.append_nil, ← k.filter_schema]
  refine List.rel_filter ?_ hus
  intro p o ho
  simp only [(yields_suits ho).isOwn_eq]

/-- All arguments are checked, unless there are too many. -/
theorem operands_datum {ps : List ParamSpec} {as : List (Arg α)} {os : List (Operand α)}
    (h : s.operands k ps i as = .ok os) (hlen : as.length ≤ ps.length + 1) {b : Address}
    (hb : .datum b ∈ as) : b < s.size := by
  induction ps generalizing i as os with
  | nil =>
      cases as with
      | nil => cases hb
      | cons a as =>
          have hnil : as.length = 0 := Nat.le_zero.1 (Nat.le_of_succ_le_succ hlen)
          obtain rfl := List.length_eq_zero_iff.1 hnil
          obtain rfl := List.mem_singleton.1 hb
          cases h
  | cons p ps ih =>
      cases as with
      | nil => cases hb
      | cons a as =>
          rw [operands] at h
          obtain ⟨o, ho, h⟩ := bind_eq_ok.1 h
          obtain ⟨os', hos, h⟩ := bind_eq_ok.1 h
          rcases List.mem_cons.1 hb with rfl | hb
          · exact operand_datum ho
          · exact ih hos (Nat.le_of_succ_le_succ hlen) hb

end Scope

theorem forall₂_append_left {β γ : Type} {R : β → γ → Prop} {l₁ l₂ : List β} {u : List γ}
    (h : List.Forall₂ R (l₁ ++ l₂) u) :
    ∃ u₁ u₂, u = u₁ ++ u₂ ∧ List.Forall₂ R l₁ u₁ ∧ List.Forall₂ R l₂ u₂ := by
  refine ⟨u.take l₁.length, u.drop l₁.length, (List.take_append_drop _ u).symm, ?_, ?_⟩
  · simpa using List.forall₂_take l₁.length h
  · simpa using List.forall₂_drop l₁.length h

theorem forall₂_right {β γ : Type} {R : β → γ → Prop} {Q : γ → Prop} {l : List β} {u : List γ}
    (h : List.Forall₂ R l u) (hQ : ∀ b c, b ∈ l → R b c → Q c) : ∀ c ∈ u, Q c := by
  induction h with
  | nil => simp
  | @cons b c l u hbc _ ih =>
      intro c' hc'
      rcases List.mem_cons.1 hc' with rfl | hc'
      · exact hQ b c' (List.mem_cons_self ..) hbc
      · exact ih (fun b' c hb' => hQ b' c (List.mem_cons_of_mem _ hb')) c' hc'

/-- A place that is passed on as it is takes a flag if it has the name of one. -/
theorem Kind.raw_name {k : Kind} : ∀ p ∈ k.schema, p.slot = .raw →
    ((p.name = "reverse1" ∨ p.name = "reverse2") ↔ k = .perpendicularArc2arc) := by
  cases k <;> decide

theorem Kind.forall₂_sharedParams {γ : Type} {R : ParamSpec → γ → Prop} {k : Kind} {u : List γ}
    (h : List.Forall₂ R k.sharedParams u) :
    ∃ t d rest, u = t :: d :: rest ∧ R ⟨"tagId", .tag⟩ t ∧ R ⟨"driving", .driving⟩ d ∧
      ∀ a ∈ rest, R ⟨"internalalignment", .alignment⟩ a := by
  unfold Kind.sharedParams at h
  obtain ⟨u₁, rest, rfl, hu, hrest⟩ := forall₂_append_left h
  obtain ⟨t, u₂, ht, hu₂, rfl⟩ := List.forall₂_cons_left_iff.1 hu
  obtain ⟨d, u₃, hd, hu₃, rfl⟩ := List.forall₂_cons_left_iff.1 hu₂
  obtain rfl := List.forall₂_nil_left_iff.1 hu₃
  refine ⟨t, d, rest, rfl, ht, hd, ?_⟩
  split at hrest
  · obtain ⟨a, u₄, ha, hu₄, rfl⟩ := List.forall₂_cons_left_iff.1 hrest
    obtain rfl := List.forall₂_nil_left_iff.1 hu₄
    simpa using ha
  · obtain rfl := List.forall₂_nil_left_iff.1 hrest
    simp

namespace Entry

open Operand

variable [Scalar α]

/-- The entry of operands, of which the first ones enter its equation. -/
theorem ofOperands?_eq {c : Call α} {os rest : List (Operand α)} {eq : Equation α} {t : Int}
    {d : Bool} {v : Option α} (hos : ∀ o ∈ os, o.isOwn) (hrest : ∀ o ∈ rest, ∃ a, o = .alignment a)
    (heq : Equation.ofOperands? c.kind os = some eq) :
    ofOperands? c (os ++ (Operand.tag t :: Operand.driving d :: rest) ++ v.toList.map .scale) =
      some ⟨t, d, v.getD 1.0, eq, c.args.filterMap Arg.datum?⟩ := by
  -- neither the tag nor the flag nor the scale can come from an operand of the equation
  have htag : os.findSome? tag? = none := List.findSome?_eq_none_iff.2 fun o ho => by
    have := hos o ho
    cases o <;> first | rfl | cases this
  have hdriving : os.findSome? driving? = none := List.findSome?_eq_none_iff.2 fun o ho => by
    have := hos o ho
    cases o <;> first | rfl | cases this
  have hscale : os.findSome? scale? = none := List.findSome?_eq_none_iff.2 fun o ho => by
    have := hos o ho
    cases o <;> first | rfl | cases this
  have hscale' : rest.findSome? scale? = none := List.findSome?_eq_none_iff.2 fun o ho => by
    obtain ⟨a, rfl⟩ := hrest o ho
    rfl
  have hown : os.filter isOwn = os := List.filter_eq_self.2 hos
  have hrest' : rest.filter isOwn = [] := by
    rw [List.filter_eq_nil_iff]
    intro o ho
    obtain ⟨a, rfl⟩ := hrest o ho
    simp [isOwn]
  have hlast : (v.toList.map Operand.scale).findSome? scale? = v := by cases v <;> rfl
  have hlast' : (v.toList.map Operand.scale).filter isOwn = [] := by cases v <;> rfl
  simp [ofOperands?, htag, hdriving, hscale, hscale', hlast, hlast', hown, hrest', heq,
    List.findSome?_append, List.findSome?_cons, tag?, driving?, scale?, isOwn]

variable {s : Scope} {k : Kind}

theorem ofCall_eq {as : List (Arg α)} (v : Option α) (hlen : as.length = k.schema.length) :
    ofCall s ⟨k, as ++ v.toList.map .scale⟩ = (do
      let os ← s.operands k k.schema 0 (as ++ v.toList.map .scale)
      match ofOperands? ⟨k, as ++ v.toList.map .scale⟩ os with
      | some e => .ok e
      | none => .error (.arityMismatch k (as ++ v.toList.map Arg.scale).length)) := by
  unfold ofCall
  refine if_neg ?_
  cases v <;> simp [hlen, Kind.arity]

/-- A call with arguments for the whole schema, and perhaps a scale, fails with the first argument
that does not fit, and otherwise gives an entry. -/
theorem ofCall_cases {S : ParamSpec → Arg α → Prop} {as : List (Arg α)} (v : Option α)
    (hS : List.Forall₂ S k.schema as) :
    (∃ e, ofCall s ⟨k, as ++ v.toList.map .scale⟩ = .error e ∧ s.Rejects k S e 0 k.schema) ∨
    ∃ os t d eq, ofCall s ⟨k, as ++ v.toList.map .scale⟩ =
        .ok ⟨t, d, v.getD 1.0, eq, as.filterMap Arg.datum?⟩ ∧
      List.Forall₂ (s.Yields k S) k.userParams os ∧
      Equation.ofOperands? k os = some eq ∧
      s.Yields k S ⟨"tagId", .tag⟩ (.tag t) ∧ s.Yields k S ⟨"driving", .driving⟩ (.driving d) := by
  have hsuits : ∀ p o, s.Yields k S p o → o.Suits k p.slot := fun _ _ ho =>
    Scope.yields_suits ho
  rw [ofCall_eq v hS.length_eq.symm]
  rcases Scope.operands_cases (s := s) (k := k) hS 0 v with ⟨e, hops, hrej⟩ | ⟨all, hops, hall⟩
  · rw [hops]
    exact .inl ⟨e, rfl, hrej⟩
  · obtain ⟨os, shared, rfl, hos, hshared⟩ := forall₂_append_left hall
    obtain ⟨t, d, rest, rfl, ht, hd, hrest⟩ := Kind.forall₂_sharedParams hshared
    obtain ⟨eq, heq, -⟩ := Equation.exists_ofOperands k os (hos.imp hsuits)
    obtain ⟨t, rfl⟩ := suits_tag.1 (hsuits _ _ ht)
    obtain ⟨d, rfl⟩ := suits_driving.1 (hsuits _ _ hd)
    have hown : ∀ o ∈ os, o.isOwn := forall₂_right hos fun p o hp ho =>
      (hsuits p o ho).isOwn_eq.trans (k.userParams_isUserData p hp)
    have halign : ∀ o ∈ rest, ∃ a, o = .alignment a :=
      fun o ho => suits_alignment.1 (hsuits _ _ (hrest o ho))
    have hentry := ofOperands?_eq (c := ⟨k, as ++ v.toList.map .scale⟩) (t := t) (d := d)
      (v := v) hown halign heq
    have hdatums : (as ++ v.toList.map Arg.scale).filterMap Arg.datum? =
        as.filterMap Arg.datum? := by
      cases v <;> simp [Arg.datum?]
    rw [hdatums] at hentry
    refine .inr ⟨os, t, d, eq, ?_, hos, heq, ht, hd⟩
    rw [hops]
    simp only [bind, Except.bind, hentry]

theorem ofOperands?_eq_some {c : Call α} {os : List (Operand α)} {e : Entry α}
    (h : ofOperands? c os = some e) :
    Equation.ofOperands? c.kind (os.filter isOwn) = some e.equation ∧
      e.datums = c.args.filterMap Arg.datum? := by
  simp only [ofOperands?, bind, Option.bind_eq_some_iff, pure, Option.some.injEq] at h
  obtain ⟨t, -, d, -, eq, heq, rfl⟩ := h
  exact ⟨heq, rfl⟩

theorem ofCall_eq_ok {c : Call α} {e : Entry α} (h : ofCall s c = .ok e) :
    (c.kind.schema.length ≤ c.args.length ∧ c.args.length ≤ c.kind.schema.length + 1) ∧
      ∃ os, s.operands c.kind c.kind.schema 0 c.args = .ok os ∧ ofOperands? c os = some e := by
  unfold ofCall at h
  split at h
  · cases h
  · next harity =>
      simp only [Kind.arity, if_true, Bool.false_eq_true, if_false] at harity
      refine ⟨by omega, ?_⟩
      obtain ⟨os, hos, h⟩ := bind_eq_ok.1 h
      refine ⟨os, hos, ?_⟩
      cases hentry : ofOperands? c os with
      | none => simp [hentry] at h
      | some e' =>
          simp only [hentry, Except.ok.injEq] at h
          rw [h]

/-- Whatever the arguments of a call are, the scalars of its entry exist: those that the equation
reads are mentioned by an argument, and all datums have been checked. -/
theorem ofCall_ok {c : Call α} {e : Entry α} (h : ofCall s c = .ok e) :
    (∀ b ∈ e.equation.addresses, ∃ a ∈ c.args, s.Mentions b a) ∧ ∀ b ∈ e.datums, b < s.size := by
  obtain ⟨hlen, os, hos, hentry⟩ := ofCall_eq_ok h
  obtain ⟨heq, hdatums⟩ := ofOperands?_eq_some hentry
  have hown := Scope.operands_own hos hlen.1
  obtain ⟨eq, heq', hsubset, -⟩ := Equation.exists_ofOperands c.kind _ (hown.imp fun p o ho =>
    Scope.yields_suits ho)
  cases heq.symm.trans heq'
  constructor
  · intro b hb
    obtain ⟨o, ho, hbo⟩ := List.mem_flatMap.1 (hsubset hb)
    have hyields : ∃ p, s.Yields c.kind (fun _ a => a ∈ c.args) p o :=
      forall₂_right hown (Q := fun o => ∃ p, s.Yields c.kind (fun _ a => a ∈ c.args) p o)
        (fun p o _ hpo => ⟨p, hpo⟩) o ho
    obtain ⟨p, a, i, ha, hao⟩ := hyields
    exact ⟨a, ha, Scope.operand_mentions hao hbo⟩
  · intro b hb
    rw [hdatums, List.mem_filterMap] at hb
    obtain ⟨a, ha, hab⟩ := hb
    cases a <;> cases hab
    exact Scope.operands_datum hos hlen.2 ha

end Entry

end PlanarSketch
