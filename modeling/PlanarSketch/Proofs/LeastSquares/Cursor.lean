import PlanarSketch.Proofs.LeastSquares.Cells
import PlanarSketch.Proofs.LeastSquares.Operands

/-!
The check of a call as a walk along its arguments. A cursor stands before the next argument and
collects the datums that it passes; each kind takes what its equation needs, one after the other.
No schema is looked at, so a kind could well ask for something else than its schema says. It does
not: a walk fails where the check against the schema fails, and with the same error, and otherwise
builds the same entry.
-/

namespace PlanarSketch

structure Cursor (α : Type) where
  kind : Kind
  args : List (Arg α)
  index : Nat
  scope : Scope
  datums : List Address

abbrev Walk (α β : Type) := StateT (Cursor α) (Except SolverError) β

namespace Walk

variable {α β : Type}

/-! ### One argument -/

def misfit (index : Nat) (expected : ArgSort) : Walk α β := fun c =>
  .error (.argumentType c.kind index expected)

def unsupported (r : Record) : Walk α β := fun c =>
  .error (.unsupportedGeometry c.kind r.geometryClass)

/-- Steps over the next argument, wherever it is. -/
def next (expected : ArgSort) : Walk α (Nat × Arg α) := do
  let c ← get
  match c.args[c.index]? with
  | none => misfit c.index expected
  | some a =>
      set { c with index := c.index + 1 }
      return (c.index, a)

def address (a : Address) : Walk α Address := do
  (← get).scope.checkAddress a

def value : Walk α Address := do
  match ← next .address with
  | (_, .param a) => address a
  | (_, .datum a) =>
      let a ← address a
      modify fun c => { c with datums := c.datums ++ [a] }
      return a
  | (i, _) => misfit i .address

def record (expected : GeometryClass) (h : Handle) : Walk α Record := do
  match (← get).scope.records.find? h with
  | none => throw (.unknownHandle h)
  | some r => if expected.accepts r.geometryClass then return r else unsupported r

def geometry (expected : GeometryClass) : Walk α Record := do
  match ← next .handle with
  | (_, .geometry h) => record expected h
  | (i, _) => misfit i .handle

def point : Walk α (Vec2 Address) := do
  match ← geometry .point with
  | .point x y _ => return ⟨x, y⟩
  | r => unsupported r

def line : Walk α (Segment (Vec2 Address)) := do
  match ← geometry .line with
  | .line p q => return ⟨p, q⟩
  | r => unsupported r

/-- The center and the radius of a circle or an arc. -/
def circular : Walk α (Vec2 Address × Address) := do
  match ← geometry .circle with
  | .circle c r => return (c, r)
  | .arc c _ _ _ _ r => return (c, r)
  | r => unsupported r

def arc : Walk α (Vec2 Address × ArcEnds × Address) := do
  match ← geometry .arc with
  | .arc c s e a b r => return (c, ⟨s, e, a, b⟩, r)
  | r => unsupported r

def ellipse : Walk α (Vec2 Address × Vec2 Address × Address) := do
  match ← geometry .ellipse with
  | .ellipse c f r => return (c, f, r)
  | .arcOfEllipse c f _ _ _ _ r => return (c, f, r)
  | r => unsupported r

def tangent : Walk α Tangent := do
  match ← geometry .curve with
  | .line p q => return .line ⟨p, q⟩
  | .circle c _ => return .circular c
  | .arc c _ _ _ _ _ => return .circular c
  | r => unsupported r

def number : Walk α α := do
  match ← next .number with
  | (_, .number x) => return x
  | (i, _) => misfit i .number

def tag : Walk α Int := do
  match ← next .tag with
  | (_, .tag t) => return t
  | (i, _) => misfit i .tag

def driving : Walk α Bool := do
  match ← next .drivingFlag with
  | (_, .bool b) => return b
  | (i, _) => misfit i .drivingFlag

def alignment : Walk α Alignment := do
  match ← next .alignment with
  | (_, .alignment a) => return a
  | (i, _) => misfit i .alignment

variable [Scalar α]

def flag : Walk α Bool := do
  match ← next .boolean with
  | (_, .bool b) => return b
  | (_, .number x) => return !(x == 0.0)
  | (i, _) => misfit i .boolean

/-- Takes the scale if there is one more argument. -/
def finish : Walk α (α × List Address) := do
  let c ← get
  if c.index < c.args.length then
    match ← next .scale with
    | (_, .scale x) => return (x, c.datums)
    | (i, _) => misfit i .scale
  else return (1.0, c.datums)

/-! ### All arguments -/

def equation : Kind → Walk α (Equation α)
  | .equal => return .equal (← value) (← value)
  | .difference => return .difference (← value) (← value) (← value)
  | .proportional => return .proportional (← value) (← value) (← value)
  | .coordinateX => return .equal (← point).x (← value)
  | .coordinateY => return .equal (← point).y (← value)
  | .p2pCoincident => return .coincident (← point) (← point)
  | .p2pDistance => return .distance (← point) (← point) (← value)
  | .p2pAngle => return .direction (← point) (← point) (← value) 0.0
  | .p2pAngleIncrAngle => return .direction (← point) (← point) (← value) (← number)
  | .p2lDistance => return .lineDistance (← point) (← line) (← value)
  | .pointOnLinePl => return .onLine (← point) (← line)
  | .pointOnLinePpp => return .onLine (← point) ⟨← point, ← point⟩
  | .pointOnPerpBisectorPl => return .onBisector (← point) (← line)
  | .parallel => return .parallel (← line) (← line)
  | .perpendicularLl => return .perpendicular (← line) (← line)
  | .l2lAngleLl => return .lineAngle (← line) (← line) (← value)
  | .midpointOnLineLl => return .midpointOnLine (← line) (← line)
  | .horizontalL => do
      let l ← line
      return .equal l.p2.y l.p1.y
  | .horizontalPp => do
      let p ← point
      let q ← point
      return .equal q.y p.y
  | .verticalL => do
      let l ← line
      return .equal l.p2.x l.p1.x
  | .verticalPp => do
      let p ← point
      let q ← point
      return .equal q.x p.x
  | .tangentLc => do
      let l ← line
      let (center, radius) ← circular
      return .lineDistance center l radius
  | .arcRules => do
      let (center, ends, radius) ← arc
      return .arcRules center ends radius
  | .pointOnCircle => do
      let p ← point
      let (center, radius) ← circular
      return .distance p center radius
  | .pointOnArc => do
      let p ← point
      let (center, _, radius) ← arc
      return .distance p center radius
  | .pointOnEllipse => do
      let p ← point
      let (center, focus1, radmin) ← ellipse
      return .onEllipse p center focus1 radmin
  | .circleRadius => do
      let (_, radius) ← circular
      return .equal radius (← value)
  | .arcRadius => do
      let (_, _, radius) ← arc
      return .equal radius (← value)
  | .circleDiameter => do
      let (_, radius) ← circular
      return .twice radius (← value)
  | .arcDiameter => do
      let (_, _, radius) ← arc
      return .twice radius (← value)
  | .equalLength => return .equalLength (← line) (← line)
  | .equalRadiusCc => do
      let (_, r) ← circular
      let (_, s) ← circular
      return .equal r s
  | .p2pSymmetricPpl => return .symmetric (← point) (← point) (← line)
  | .p2pSymmetricPpp => return .centered (← point) (← point) (← point)
  | .angleViaPoint => return .curveAngle (← tangent) (← tangent) (← point) (← value)
  | .perpendicularArc2arc => do
      let (c, ends, _) ← arc
      let reverse1 ← flag
      let (d, ends', _) ← arc
      let reverse2 ← flag
      return .perpendicularArcs c (if reverse1 then ends.start else ends.stop) d
        (if reverse2 then ends'.stop else ends'.start)

/-- The equation, the tag and the driving flag. -/
def required (k : Kind) : Walk α (Equation α × Int × Bool) := do
  let equation ← equation k
  let tag ← tag
  let driving ← driving
  if k = .equal then
    let _ ← alignment
  return (equation, tag, driving)

def entry (k : Kind) : Walk α (Entry α) := do
  let (equation, tag, driving) ← required k
  let (scale, datums) ← finish
  return { tag, driving, scale, equation, datums }

end Walk

/-- Walks along a call that has arguments for its kind. -/
def Call.build {α : Type} [Scalar α] (s : Scope) (c : Call α) : Except SolverError (Entry α) :=
  if c.args.length ≠ c.kind.arity true ∧ c.args.length ≠ c.kind.arity false then
    .error (.arityMismatch c.kind c.args.length)
  else ((Walk.entry c.kind).run ⟨c.kind, c.args, 0, s, []⟩).map Prod.fst

namespace Cursor

variable {α : Type} {c : Cursor α} {a : Arg α}

/-- The cursor behind the argument. -/
def pass (c : Cursor α) : Arg α → Cursor α
  | .datum a => { c with index := c.index + 1, datums := c.datums ++ [a] }
  | _ => { c with index := c.index + 1 }

theorem kind_pass : (c.pass a).kind = c.kind := by cases a <;> rfl

theorem args_pass : (c.pass a).args = c.args := by cases a <;> rfl

theorem index_pass : (c.pass a).index = c.index + 1 := by cases a <;> rfl

theorem scope_pass : (c.pass a).scope = c.scope := by cases a <;> rfl

theorem datums_pass : (c.pass a).datums = c.datums ++ a.datum?.toList := by
  cases a <;> simp [pass, Arg.datum?]

theorem drop_pass {rest : List (Arg α)} (h : c.args.drop c.index = a :: rest) :
    (c.pass a).args.drop (c.pass a).index = rest := by
  rw [args_pass, index_pass, ← List.drop_drop, h]
  rfl

theorem foldl_pass (as : List (Arg α)) : as.foldl pass c =
    { c with index := c.index + as.length, datums := c.datums ++ as.filterMap Arg.datum? } := by
  induction as generalizing c with
  | nil => simp
  | cons a as ih =>
      have hdatums : (a :: as).filterMap Arg.datum? =
          a.datum?.toList ++ as.filterMap Arg.datum? := by
        cases a <;> rfl
      rw [List.foldl_cons, ih, kind_pass, args_pass, index_pass, scope_pass, datums_pass, hdatums,
        List.append_assoc, List.length_cons, Nat.add_assoc, Nat.add_comm 1]

end Cursor

namespace Walk

variable {α β γ : Type}

theorem run_address (c : Cursor α) (a : Address) :
    (address a).run c =
      if a < c.scope.size then .ok (a, c) else .error (.addressOutOfRange a) := by
  change (c.scope.checkAddress a >>= fun a => Except.ok (a, c)) = _
  rw [Scope.checkAddress]
  split <;> rfl

theorem run_record (expected : GeometryClass) (h : Handle) (c : Cursor α) :
    (record expected h).run c =
      match c.scope.records.find? h with
      | none => .error (.unknownHandle h)
      | some r =>
          if expected.accepts r.geometryClass then .ok (r, c)
          else .error (.unsupportedGeometry c.kind r.geometryClass) := by
  change (match c.scope.records.find? h with | none => _ | some r => _ : Walk α Record) c = _
  cases c.scope.records.find? h with
  | none => rfl
  | some r =>
      dsimp only
      split <;> rfl

theorem run_next {c : Cursor α} {a : Arg α} {rest : List (Arg α)}
    (h : c.args.drop c.index = a :: rest) (expected : ArgSort) :
    (next expected).run c = .ok ((c.index, a), { c with index := c.index + 1 }) := by
  have hget : c.args[c.index]? = some a := by
    rw [← List.head?_drop, h]
    rfl
  change (match c.args[c.index]? with | none => _ | some a => _ : Walk α (Nat × Arg α)) c = _
  rw [hget]
  rfl

variable [Scalar α] {k : Kind}

/-! ### Along the schema -/

/-- The walk steps over one argument, unless it does not fit its place. -/
def Takes (k : Kind) (slot : Slot) (w : Walk α β) (Q : Operand α → β → Prop) : Prop :=
  ∀ (c : Cursor α) (a : Arg α) (rest : List (Arg α)), c.kind = k →
    c.args.drop c.index = a :: rest →
      (∃ o b, c.scope.operand k slot c.index a = .ok o ∧ w.run c = .ok (b, c.pass a) ∧ Q o b) ∨
      ∃ e, c.scope.operand k slot c.index a = .error e ∧ w.run c = .error e

/-- The walk steps over as many arguments as there are places. It fails where one of them does not
fit its place, and otherwise has a result that belongs to the operands. -/
def Reads (k : Kind) (ps : List ParamSpec) (w : Walk α β) (P : List (Operand α) → β → Prop) :
    Prop :=
  ∀ (c : Cursor α) (as rest : List (Arg α)), c.kind = k → c.args.drop c.index = as ++ rest →
    as.length = ps.length →
      (∃ os b, c.scope.operands k ps c.index as = .ok os ∧
        w.run c = .ok (b, as.foldl Cursor.pass c) ∧ P os b) ∨
      ∃ e, c.scope.operands k ps c.index as = .error e ∧ w.run c = .error e

theorem Reads.pure {P : List (Operand α) → β → Prop} {b : β} (h : P [] b) :
    Reads k [] (Pure.pure b : Walk α β) P := by
  intro c as rest _ _ hlen
  obtain rfl := List.eq_nil_of_length_eq_zero hlen
  exact .inl ⟨[], b, rfl, rfl, h⟩

theorem Takes.reads {p : ParamSpec} {ps : List ParamSpec} {w : Walk α β} {g : β → Walk α γ}
    {Q : Operand α → β → Prop} {P : List (Operand α) → γ → Prop} (hw : Takes k p.slot w Q)
    (hg : ∀ o b, Q o b → Reads k ps (g b) fun os d => P (o :: os) d) :
    Reads k (p :: ps) (w >>= g) P := by
  intro c as rest hk hargs hlen
  obtain ⟨a, as, rfl⟩ := List.exists_cons_of_length_eq_add_one hlen
  rw [Scope.operands, StateT.run_bind]
  obtain ⟨o, b, ho, hrun, hQ⟩ | ⟨e, he, hrun⟩ := hw c a (as ++ rest) hk hargs
  · have hrest := hg o b hQ (c.pass a) as rest (Cursor.kind_pass.trans hk)
      (Cursor.drop_pass hargs) (Nat.succ.inj hlen)
    rw [Cursor.scope_pass, Cursor.index_pass] at hrest
    rw [ho, ok_bind, hrun]
    obtain ⟨os, d, hos, hrest, hP⟩ | ⟨e, he, hrest⟩ := hrest
    · exact .inl ⟨o :: os, d, by rw [hos]; rfl, hrest, hP⟩
    · exact .inr ⟨e, by rw [he]; rfl, hrest⟩
  · rw [he, hrun]
    exact .inr ⟨e, rfl, rfl⟩

theorem operands_append {s : Scope} {ps : List ParamSpec} {as : List (Arg α)} (qs : List ParamSpec)
    (bs : List (Arg α)) (i : Nat) (hlen : as.length = ps.length) :
    s.operands k (ps ++ qs) i (as ++ bs) = (do
      let os ← s.operands k ps i as
      let us ← s.operands k qs (i + ps.length) bs
      return os ++ us) := by
  induction ps generalizing as i with
  | nil =>
      obtain rfl := List.eq_nil_of_length_eq_zero hlen
      cases h : s.operands k qs i bs <;> simp [Scope.operands, h]
  | cons p ps ih =>
      obtain ⟨a, as, rfl⟩ := List.exists_cons_of_length_eq_add_one hlen
      rw [List.cons_append, List.cons_append, Scope.operands, Scope.operands,
        ih (i + 1) (Nat.succ.inj hlen), List.length_cons, Nat.add_assoc, Nat.add_comm 1]
      simp [bind_assoc]

theorem Reads.bind {ps qs : List ParamSpec} {w : Walk α β} {g : β → Walk α γ}
    {Q : List (Operand α) → β → Prop} {P : List (Operand α) → γ → Prop} (hw : Reads k ps w Q)
    (hg : ∀ os b, Q os b → Reads k qs (g b) fun us d => P (os ++ us) d) :
    Reads k (ps ++ qs) (w >>= g) P := by
  intro c as rest hk hargs hlen
  obtain ⟨as, bs, rfl, has, hbs⟩ : ∃ as₁ as₂, as = as₁ ++ as₂ ∧ as₁.length = ps.length ∧
      as₂.length = qs.length := by
    rw [List.length_append] at hlen
    exact ⟨_, _, (List.take_append_drop ps.length as).symm, by simp [hlen], by simp [hlen]⟩
  rw [List.append_assoc] at hargs
  rw [operands_append qs bs c.index has, StateT.run_bind, List.foldl_append]
  obtain ⟨os, b, hos, hrun, hQ⟩ | ⟨e, he, hrun⟩ := hw c as (bs ++ rest) hk hargs has
  · -- the second walk begins where the arguments of the first one end
    have hpassed := Cursor.foldl_pass (c := c) as
    have hrest := hg os b hQ (as.foldl Cursor.pass c) bs rest (by rw [hpassed]; exact hk)
      (by rw [hpassed, ← List.drop_drop, hargs, List.drop_left]) hbs
    rw [hos, hrun, ok_bind, ok_bind]
    rw [hpassed] at hrest ⊢
    rw [has] at hrest ⊢
    obtain ⟨us, d, hus, hrest, hP⟩ | ⟨e, he, hrest⟩ := hrest
    · exact .inl ⟨os ++ us, d, by rw [hus]; rfl, hrest, hP⟩
    · exact .inr ⟨e, by rw [he]; rfl, hrest⟩
  · rw [he, hrun]
    exact .inr ⟨e, rfl, rfl⟩

/-- What parameters of the constraint itself become belongs to the equation. -/
theorem Reads.own {ps : List ParamSpec} {w : Walk α β} {P : List (Operand α) → β → Prop}
    (h : Reads k ps w P) (hps : ∀ p ∈ ps, p.isUserData) :
    Reads k ps w fun os b => (∀ o ∈ os, o.isOwn) ∧ P os b := by
  intro c as rest hk hargs hlen
  obtain ⟨os, b, hos, hrun, hP⟩ | herror := h c as rest hk hargs hlen
  · refine .inl ⟨os, b, hos, hrun, ?_, hP⟩
    have hany : List.Forall₂ (fun _ _ => True) ps as :=
      List.forall₂_iff_zip.2 ⟨hlen.symm, fun _ => trivial⟩
    have hcases := Scope.operands_cases (s := c.scope) (k := k) hany c.index none
    simp only [Option.toList_none, List.map_nil, List.append_nil, hos] at hcases
    obtain ⟨e, he, -⟩ | ⟨os', hos', hyields⟩ := hcases
    · cases he
    · cases hos'
      exact forall₂_right hyields fun p o hp ho =>
        (Scope.yields_suits ho).isOwn_eq.trans (hps p hp)
  · exact .inr herror

/-! ### Each place -/

/-- What is done with an argument, once the walk has stepped over it, is all that matters. -/
theorem takes_next {expected : ArgSort} {slot : Slot} {g : Nat × Arg α → Walk α β}
    {Q : Operand α → β → Prop}
    (h : ∀ (c : Cursor α) (a : Arg α), c.kind = k →
      (∃ o b, c.scope.operand k slot c.index a = .ok o ∧
        (g (c.index, a)).run { c with index := c.index + 1 } = .ok (b, c.pass a) ∧ Q o b) ∨
      ∃ e, c.scope.operand k slot c.index a = .error e ∧
        (g (c.index, a)).run { c with index := c.index + 1 } = .error e) :
    Takes k slot (next expected >>= g) Q := by
  intro c a rest hk hargs
  rw [StateT.run_bind, run_next hargs]
  exact h c a hk

theorem takes_value : Takes k .value (value : Walk α Address) fun o b => o = .address b := by
  refine takes_next fun c a hk => ?_
  cases a
  case param b =>
    have hrun := run_address { c with index := c.index + 1 } b
    by_cases hb : b < c.scope.size
    · exact .inl ⟨.address b, b, congrArg (Except.map Operand.address) (if_pos hb),
        hrun.trans (if_pos hb), rfl⟩
    · exact .inr ⟨_, congrArg (Except.map Operand.address) (if_neg hb), hrun.trans (if_neg hb)⟩
  case datum b =>
    have hrun := run_address { c with index := c.index + 1 } b
    by_cases hb : b < c.scope.size
    · refine .inl ⟨.address b, b, congrArg (Except.map Operand.address) (if_pos hb), ?_, rfl⟩
      refine (StateT.run_bind ..).trans ?_
      rw [hrun.trans (if_pos hb)]
      rfl
    · refine .inr ⟨_, congrArg (Except.map Operand.address) (if_neg hb), ?_⟩
      refine (StateT.run_bind ..).trans ?_
      rw [hrun.trans (if_neg hb)]
      rfl
  all_goals exact .inr ⟨_, rfl, by rw [← hk]; rfl⟩

theorem takes_tag : Takes k .tag (tag : Walk α Int) fun o t => o = .tag t := by
  refine takes_next fun c a hk => ?_
  subst hk
  cases a
  case tag t => exact .inl ⟨.tag t, t, rfl, rfl, rfl⟩
  all_goals exact .inr ⟨_, rfl, rfl⟩

theorem takes_driving : Takes k .driving (driving : Walk α Bool) fun o b => o = .driving b := by
  refine takes_next fun c a hk => ?_
  subst hk
  cases a
  case bool b => exact .inl ⟨.driving b, b, rfl, rfl, rfl⟩
  all_goals exact .inr ⟨_, rfl, rfl⟩

theorem takes_alignment :
    Takes k .alignment (alignment : Walk α Alignment) fun o b => o = .alignment b := by
  refine takes_next fun c a hk => ?_
  subst hk
  cases a
  case alignment b => exact .inl ⟨.alignment b, b, rfl, rfl, rfl⟩
  all_goals exact .inr ⟨_, rfl, rfl⟩

theorem takes_number (h : k ≠ .perpendicularArc2arc) :
    Takes k .raw (number : Walk α α) fun o x => o = .number x := by
  refine takes_next fun c a hk => ?_
  subst hk
  cases a
  case number x => exact .inl ⟨.number x, x, if_neg h, rfl, rfl⟩
  all_goals exact .inr ⟨_, if_neg h, rfl⟩

theorem takes_flag :
    Takes .perpendicularArc2arc .raw (flag : Walk α Bool) fun o b => o = .flag b := by
  refine takes_next fun c a hk => ?_
  cases a
  case bool b => exact .inl ⟨.flag b, b, rfl, rfl, rfl⟩
  case number x => exact .inl ⟨.flag (!(x == 0.0)), _, rfl, rfl, rfl⟩
  all_goals exact .inr ⟨_, rfl, by rw [← hk]; rfl⟩

/-- A walk that looks at a record of the class. -/
theorem takes_geometry {expected : GeometryClass} {pick : Record → Walk α β}
    {Q : Operand α → β → Prop}
    (h : ∀ r, expected.accepts r.geometryClass = true →
      (Scope.supported expected r = true ∧ ∃ b, pick r = Pure.pure b ∧ Q (.record r) b) ∨
      (Scope.supported expected r = false ∧ pick r = unsupported r)) :
    Takes k (.geometry expected) (geometry expected >>= pick) Q := by
  rw [geometry, bind_assoc]
  refine takes_next fun c a hk => ?_
  subst hk
  cases a
  case geometry handle =>
    have hrun := run_record expected handle { c with index := c.index + 1 }
    change (∃ o b, (c.scope.checkHandle c.kind expected handle).map Operand.record = .ok o ∧
        (record expected handle >>= pick).run _ = .ok (b, c.pass (.geometry handle)) ∧ Q o b) ∨
      ∃ e, (c.scope.checkHandle c.kind expected handle).map Operand.record = .error e ∧
        (record expected handle >>= pick).run _ = .error e
    rw [StateT.run_bind, hrun, Scope.checkHandle]
    cases c.scope.records.find? handle with
    | none => exact .inr ⟨.unknownHandle handle, rfl, rfl⟩
    | some r =>
        dsimp only
        by_cases haccepts : expected.accepts r.geometryClass = true
        · rw [if_pos haccepts, ok_bind]
          obtain ⟨hsupported, b, hpick, hQ⟩ | ⟨hsupported, hpick⟩ := h r haccepts
          · rw [hsupported, hpick]
            exact .inl ⟨.record r, b, rfl, rfl, hQ⟩
          · rw [hsupported, hpick]
            exact .inr ⟨_, rfl, rfl⟩
        · have hsupported : Scope.supported expected r = false := by
            rw [Scope.supported, Bool.eq_false_iff.2 haccepts, Bool.false_and]
          rw [if_neg haccepts, hsupported]
          exact .inr ⟨_, rfl, rfl⟩
  all_goals exact .inr ⟨_, rfl, rfl⟩

theorem takes_point : Takes k (.geometry .point) (point : Walk α (Vec2 Address)) fun o p =>
    ∃ fixed, o = .record (.point p.x p.y fixed) := by
  refine takes_geometry fun r hr => ?_
  cases r
  case point x y fixed => exact .inl ⟨rfl, _, rfl, fixed, rfl⟩
  all_goals cases hr

theorem takes_line : Takes k (.geometry .line) (line : Walk α (Segment (Vec2 Address))) fun o l =>
    o = .record (.line l.p1 l.p2) := by
  refine takes_geometry fun r hr => ?_
  cases r
  case line p q => exact .inl ⟨rfl, _, rfl, rfl⟩
  all_goals cases hr

theorem takes_circular :
    Takes k (.geometry .circle) (circular : Walk α (Vec2 Address × Address)) fun o c =>
      ∃ r, o = .record r ∧ Equation.circle? r = some c := by
  refine takes_geometry fun r hr => ?_
  cases r
  case circle | arc => exact .inl ⟨rfl, _, rfl, _, rfl, rfl⟩
  all_goals cases hr

theorem takes_arc :
    Takes k (.geometry .arc) (arc : Walk α (Vec2 Address × ArcEnds × Address)) fun o a =>
      o = .record (.arc a.1 a.2.1.start a.2.1.stop a.2.1.startAngle a.2.1.endAngle a.2.2) := by
  refine takes_geometry fun r hr => ?_
  cases r
  case arc => exact .inl ⟨rfl, _, rfl, rfl⟩
  all_goals cases hr

theorem takes_ellipse :
    Takes k (.geometry .ellipse) (ellipse : Walk α (Vec2 Address × Vec2 Address × Address))
      fun o e => ∃ r, o = .record r ∧ Equation.ellipse? r = some e := by
  refine takes_geometry fun r hr => ?_
  cases r
  case ellipse | arcOfEllipse => exact .inl ⟨rfl, _, rfl, _, rfl, rfl⟩
  all_goals cases hr

/-- Of the curves only some have a direction. -/
theorem takes_tangent : Takes k (.geometry .curve) (tangent : Walk α Tangent) fun o t =>
    ∃ r, o = .record r ∧ Equation.tangent? r = some t := by
  refine takes_geometry fun r hr => ?_
  cases r
  case point => cases hr
  case line | circle | arc => exact .inl ⟨rfl, _, rfl, _, rfl, rfl⟩
  all_goals exact .inr ⟨rfl, rfl⟩

/-! ### Each kind -/

section

variable {n : String} {ps : List ParamSpec} {P : List (Operand α) → γ → Prop}

theorem Reads.value {g : Address → Walk α γ}
    (h : ∀ a, Reads k ps (g a) fun os d => P (.address a :: os) d) :
    Reads k (.value n :: ps) (Walk.value >>= g) P :=
  takes_value.reads fun _ a ho => ho ▸ h a

theorem Reads.point {g : Vec2 Address → Walk α γ}
    (h : ∀ x y fixed, Reads k ps (g ⟨x, y⟩) fun os d => P (.record (.point x y fixed) :: os) d) :
    Reads k (.point n :: ps) (Walk.point >>= g) P :=
  takes_point.reads fun _ p ⟨fixed, ho⟩ => ho ▸ h p.x p.y fixed

theorem Reads.line {g : Segment (Vec2 Address) → Walk α γ}
    (h : ∀ p q, Reads k ps (g ⟨p, q⟩) fun os d => P (.record (.line p q) :: os) d) :
    Reads k (.line n :: ps) (Walk.line >>= g) P :=
  takes_line.reads fun _ l ho => ho ▸ h l.p1 l.p2

theorem Reads.circular {g : Vec2 Address × Address → Walk α γ}
    (h : ∀ r center radius, Equation.circle? r = some (center, radius) →
      Reads k ps (g (center, radius)) fun os d => P (.record r :: os) d) :
    Reads k (.circle n :: ps) (Walk.circular >>= g) P :=
  takes_circular.reads fun _ c ⟨r, ho, hr⟩ => ho ▸ h r c.1 c.2 hr

theorem Reads.arc {g : Vec2 Address × ArcEnds × Address → Walk α γ}
    (h : ∀ c s e a b r, Reads k ps (g (c, ⟨s, e, a, b⟩, r)) fun os d =>
      P (.record (.arc c s e a b r) :: os) d) :
    Reads k (.arc n :: ps) (Walk.arc >>= g) P :=
  takes_arc.reads fun _ ⟨c, e, r⟩ ho => ho ▸ h c e.start e.stop e.startAngle e.endAngle r

theorem Reads.ellipse {g : Vec2 Address × Vec2 Address × Address → Walk α γ}
    (h : ∀ r center focus1 radmin, Equation.ellipse? r = some (center, focus1, radmin) →
      Reads k ps (g (center, focus1, radmin)) fun os d => P (.record r :: os) d) :
    Reads k (.ellipse n :: ps) (Walk.ellipse >>= g) P :=
  takes_ellipse.reads fun _ e ⟨r, ho, hr⟩ => ho ▸ h r e.1 e.2.1 e.2.2 hr

theorem Reads.tangent {g : Tangent → Walk α γ}
    (h : ∀ r t, Equation.tangent? r = some t →
      Reads k ps (g t) fun os d => P (.record r :: os) d) :
    Reads k (.curve n :: ps) (Walk.tangent >>= g) P :=
  takes_tangent.reads fun _ t ⟨r, ho, hr⟩ => ho ▸ h r t hr

theorem Reads.number {g : α → Walk α γ} (hk : k ≠ .perpendicularArc2arc)
    (h : ∀ x, Reads k ps (g x) fun os d => P (.number x :: os) d) :
    Reads k (.raw n :: ps) (Walk.number >>= g) P :=
  (takes_number hk).reads fun _ x ho => ho ▸ h x

theorem Reads.flag {g : Bool → Walk α γ}
    (h : ∀ b, Reads .perpendicularArc2arc ps (g b) fun os d => P (.flag b :: os) d) :
    Reads .perpendicularArc2arc (.raw n :: ps) (Walk.flag >>= g) P :=
  takes_flag.reads fun _ b ho => ho ▸ h b

end

/-- What each kind asks for, one after the other, is what its schema lists, and the equation that it
builds is that of the operands. -/
theorem reads_equation (k : Kind) : Reads k k.userParams (equation k : Walk α (Equation α))
    fun os e => Equation.ofOperands? k os = some e := by
  cases k with
  | equal => exact .value fun _ => .value fun _ => .pure rfl
  | difference | proportional => exact .value fun _ => .value fun _ => .value fun _ => .pure rfl
  | coordinateX | coordinateY => exact .point fun _ _ _ => .value fun _ => .pure rfl
  | p2pCoincident | horizontalPp | verticalPp =>
      exact .point fun _ _ _ => .point fun _ _ _ => .pure rfl
  | p2pDistance | p2pAngle =>
      exact .point fun _ _ _ => .point fun _ _ _ => .value fun _ => .pure rfl
  | p2pAngleIncrAngle =>
      exact .point fun _ _ _ => .point fun _ _ _ => .value fun _ => .number nofun fun _ => .pure rfl
  | p2lDistance => exact .point fun _ _ _ => .line fun _ _ => .value fun _ => .pure rfl
  | pointOnLinePl | pointOnPerpBisectorPl =>
      exact .point fun _ _ _ => .line fun _ _ => .pure rfl
  | pointOnLinePpp | p2pSymmetricPpp =>
      exact .point fun _ _ _ => .point fun _ _ _ => .point fun _ _ _ => .pure rfl
  | parallel | perpendicularLl | midpointOnLineLl | equalLength =>
      exact .line fun _ _ => .line fun _ _ => .pure rfl
  | l2lAngleLl => exact .line fun _ _ => .line fun _ _ => .value fun _ => .pure rfl
  | horizontalL | verticalL => exact .line fun _ _ => .pure rfl
  | tangentLc =>
      exact .line fun _ _ => .circular fun r _ _ hr => .pure (by cases r <;> cases hr <;> rfl)
  | arcRules => exact .arc fun _ _ _ _ _ _ => .pure rfl
  | pointOnCircle =>
      exact .point fun _ _ _ => .circular fun r _ _ hr => .pure (by cases r <;> cases hr <;> rfl)
  | pointOnArc => exact .point fun _ _ _ => .arc fun _ _ _ _ _ _ => .pure rfl
  | pointOnEllipse =>
      exact .point fun _ _ _ => .ellipse fun r _ _ _ hr => .pure (by cases r <;> cases hr <;> rfl)
  | circleRadius | circleDiameter =>
      exact .circular fun r _ _ hr => .value fun _ => .pure (by cases r <;> cases hr <;> rfl)
  | arcRadius | arcDiameter => exact .arc fun _ _ _ _ _ _ => .value fun _ => .pure rfl
  | equalRadiusCc =>
      exact .circular fun r _ _ hr => .circular fun s _ _ hs =>
        .pure (by cases r <;> cases hr <;> cases s <;> cases hs <;> rfl)
  | p2pSymmetricPpl =>
      exact .point fun _ _ _ => .point fun _ _ _ => .line fun _ _ => .pure rfl
  | angleViaPoint =>
      exact .tangent fun r _ hr => .tangent fun s _ hs => .point fun _ _ _ => .value fun _ =>
        .pure (by cases r <;> cases hr <;> cases s <;> cases hs <;> rfl)
  | perpendicularArc2arc =>
      exact .arc fun _ _ _ _ _ _ => .flag fun _ => .arc fun _ _ _ _ _ _ => .flag fun _ => .pure rfl

theorem reads_required (k : Kind) :
    Reads k k.schema (required k : Walk α (Equation α × Int × Bool)) fun os r =>
      ∃ us rest, os = us ++ .tag r.2.1 :: .driving r.2.2 :: rest ∧ (∀ o ∈ us, o.isOwn) ∧
        Equation.ofOperands? k us = some r.1 ∧ ∀ o ∈ rest, ∃ a, o = .alignment a := by
  refine ((reads_equation k).own k.userParams_isUserData).bind fun us e ⟨hown, he⟩ => ?_
  refine takes_tag.reads ?_
  rintro _ t rfl
  refine takes_driving.reads ?_
  rintro _ d rfl
  -- only an equality has one more place
  by_cases hk : k = .equal
  · simp only [if_pos hk]
    refine takes_alignment.reads ?_
    rintro _ a rfl
    exact .pure ⟨us, [.alignment a], rfl, hown, he, by simp⟩
  · simp only [if_neg hk]
    exact .pure ⟨us, [], rfl, hown, he, by simp⟩

/-- Behind the schema there is nothing, or a scale. -/
theorem run_finish {c : Cursor α} {rest : List (Arg α)} (hargs : c.args.drop c.index = rest)
    (hlen : rest.length ≤ 1) :
    (∃ (v : Option α) (c' : Cursor α), rest = v.toList.map .scale ∧
      finish.run c = .ok ((v.getD 1.0, c.datums), c')) ∨
    ∃ e, c.scope.operands c.kind [] c.index rest = .error e ∧ finish.run c = .error e := by
  have hfinish : finish.run c = (if c.index < c.args.length then do
      match ← next .scale with
      | (_, .scale x) => return (x, c.datums)
      | (i, _) => misfit i .scale
    else return (1.0, c.datums) : Walk α (α × List Address)).run c := rfl
  have hlength := congrArg List.length hargs
  rw [List.length_drop] at hlength
  rw [hfinish]
  cases rest with
  | nil =>
      rw [List.length_nil] at hlength
      rw [if_neg (by omega)]
      exact .inl ⟨none, c, rfl, rfl⟩
  | cons a rest =>
      obtain rfl : rest = [] := List.eq_nil_of_length_eq_zero (by simpa using hlen)
      rw [List.length_singleton] at hlength
      rw [if_pos (by omega), StateT.run_bind, run_next hargs]
      cases a
      case scale x => exact .inl ⟨some x, _, rfl, rfl⟩
      all_goals exact .inr ⟨_, rfl, rfl⟩

end Walk

/-- Walking along a call is checking it against its schema. -/
theorem Call.build_eq_ofCall {α : Type} [Scalar α] (s : Scope) (c : Call α) :
    c.build s = Entry.ofCall s c := by
  obtain ⟨k, args⟩ := c
  rw [Call.build, Entry.ofCall]
  by_cases harity : args.length ≠ k.arity true ∧ args.length ≠ k.arity false
  · rw [if_pos harity, if_pos harity]
  rw [if_neg harity, if_neg harity]
  -- with the right number of arguments, at most one is behind the schema
  obtain ⟨as, rest, rfl, hlen, hrest⟩ : ∃ as rest, args = as ++ rest ∧
      as.length = k.schema.length ∧ rest.length ≤ 1 := by
    simp only [Kind.arity, if_true, Bool.false_eq_true, if_false] at harity
    exact ⟨_, _, (List.take_append_drop k.schema.length args).symm, by simp; omega, by simp; omega⟩
  have hoperands := Walk.operands_append (s := s) (k := k) [] rest 0 hlen
  rw [List.append_nil, Nat.zero_add] at hoperands
  have hrequired := Walk.reads_required k ⟨k, as ++ rest, 0, s, []⟩ as rest rfl rfl hlen
  rw [Cursor.foldl_pass, hlen, Nat.zero_add, List.nil_append] at hrequired
  -- the schema is checked first, on both sides; then the scale
  rw [hoperands, Walk.entry, StateT.run_bind]
  obtain ⟨os, ⟨eq, t, d⟩, hos, hrun, us, shared, rfl, hown, heq, hshared⟩ | ⟨e, he, hrun⟩ :=
    hrequired
  · rw [hos, hrun, ok_bind, ok_bind]
    have hfinish := Walk.run_finish (c := ⟨k, as ++ rest, k.schema.length, s,
      as.filterMap Arg.datum?⟩) (by rw [← hlen, List.drop_left]) hrest
    obtain ⟨v, c', rfl, hfinish⟩ | ⟨e, he, hfinish⟩ := hfinish
    · have hentry := Entry.ofOperands?_eq (c := ⟨k, as ++ v.toList.map .scale⟩) (t := t) (d := d)
        (v := v) hown hshared heq
      have hscale : s.operands k [] k.schema.length (v.toList.map Arg.scale) =
          .ok (v.toList.map .scale) := by
        cases v <;> rfl
      have hdatums : (as ++ v.toList.map Arg.scale).filterMap Arg.datum? =
          as.filterMap Arg.datum? := by
        cases v <;> simp [Arg.datum?]
      dsimp only
      rw [hdatums] at hentry
      rw [StateT.run_bind, hfinish, hscale]
      simp only [ok_bind, pure_bind]
      rw [hentry]
      rfl
    · dsimp only
      rw [StateT.run_bind, hfinish, he]
      rfl
  · rw [he, hrun]
    rfl

theorem LeastSquares.add_eq_build {α : Type} [Scalar α] (s : LeastSquares α) (c : Call α) :
    s.add c = (c.build s.scope).map fun e => { s with entries := s.entries ++ [e] } := by
  rw [add, c.build_eq_ofCall]

end PlanarSketch
