import Mathlib.Logic.Function.Basic
import PlanarSketch.Proofs.LeastSquares.Solve
import PlanarSketch.Proofs.Session.Leftover

/-!
What has happened to a session, as a list of events. A call adds the events that its result tells
of: none when it is refused, and for a batch those of the objects that went in before it stopped.
From the events alone follows what a session should hold: the primitives that stand under their
ids, the constraints outside the sketch and the values that the names were given last.

A run is a sequence of calls with its events. A solve in it may find any values whatever, so what
holds for every run does not depend on how the solver searches. The effect of each event is said
once, by `Move`; what all moves preserve holds along every run.
-/

namespace PlanarSketch

open LeastSquares

/-- What can happen to a session. -/
inductive Event (α : Type) where
  | pushed (p : Primitive α)
  /-- A constraint that is not part of the sketch was pushed. -/
  | extra (c : Constraint α)
  | extrasCleared
  | deleted (id : Oid)
  /-- A name was given a value, be it new or not. -/
  | named (name : String) (v : α)
  | solved
  | cleared

/-- Events, oldest first. -/
abbrev History (α : Type) := List (Event α)

variable {α : Type}

namespace Event

def ofObject : SketchObject α → Event α
  | .param p => named p.name p.value
  | .primitive p => pushed p

/-- The event of a call that may be refused. -/
def unlessRefused {ε β : Type} (e : Event α) : Except ε β → History α
  | .ok _ => [e]
  | .error _ => []

def addExtra (cs : List (Constraint α)) : Event α → List (Constraint α)
  | extra c => cs ++ [c]
  | extrasCleared | cleared => []
  | _ => cs

def place (f : Oid → Option (Primitive α)) : Event α → Oid → Option (Primitive α)
  | pushed p => Function.update f p.id (some p)
  | deleted id => Function.update f id none
  | cleared => fun _ => none
  | _ => f

def give (f : String → Option α) : Event α → String → Option α
  | named n v => Function.update f n (some v)
  | cleared => fun _ => none
  | _ => f

end Event

namespace History

/-- The constraints that stand outside the sketch, oldest first. -/
def extras (es : History α) : List (Constraint α) := es.foldl Event.addExtra []

/-- The primitives that stand in the sketch, as they were pushed. -/
def standing (es : History α) : Oid → Option (Primitive α) := es.foldl Event.place fun _ => none

/-- The value that a name was given last. -/
def given (es : History α) : String → Option α := es.foldl Event.give fun _ => none

/-- A solve is the last thing that happened. -/
def Solved (es : History α) : Prop := es.getLast? = some .solved

variable (es : History α) (e : Event α)

@[simp] theorem extras_concat : extras (es ++ [e]) = e.addExtra (extras es) := by
  simp [extras]

@[simp] theorem standing_concat : standing (es ++ [e]) = e.place (standing es) := by
  simp [standing]

@[simp] theorem given_concat : given (es ++ [e]) = e.give (given es) := by
  simp [given]

@[simp] theorem solved_concat : Solved (es ++ [e]) ↔ e = .solved := by
  simp [Solved]

variable {es} in
theorem given_append {es' : History α} {n : String} (hcleared : .cleared ∉ es')
    (hn : ∀ v, .named n v ∉ es') : given (es ++ es') n = given es n := by
  induction es' generalizing es with
  | nil => rw [List.append_nil]
  | cons e es' ih =>
      rw [List.append_cons, ih (mt (List.mem_cons_of_mem e) hcleared)
        fun v hv => hn v (List.mem_cons_of_mem e hv), given_concat]
      cases e with
      | named m v =>
          have hne : n ≠ m := by
            rintro rfl
            exact hn v List.mem_cons_self
          rw [Event.give, Function.update_of_ne hne]
      | cleared => exact absurd List.mem_cons_self hcleared
      | _ => rfl

end History

variable [Scalar α]

namespace Session

section

variable {σ : Type} [Solver σ α]

def objectEvents (s : Session σ α) : List (SketchObject α) → History α
  | [] => []
  | o :: os =>
      match s.pushObject o with
      | (.error _, _) => []
      | (.ok (), t) => Event.ofObject o :: t.objectEvents os

/-- The events of a call. -/
def events (s : Session σ α) : Request α → History α
  | .push p => s.objectEvents [.primitive p]
  | .pushAll ps => s.objectEvents (ps.map .primitive)
  | .pushObject o => s.objectEvents [o]
  | .pushObjects os => s.objectEvents os
  | .pushDocument d => s.objectEvents (d.params.map .param ++ d.primitives.map .primitive)
  | .pushExtra c => Event.unlessRefused (.extra c) (s.pushExtra c).1
  | .clearExtra => [.extrasCleared]
  | .delete id => Event.unlessRefused (.deleted id) (s.delete id).1
  | .pushName name v => [.named name v]
  | .setName name v => Event.unlessRefused (.named name v) (s.setName name v).1
  | .solve | .solveWith _ => [.solved]
  | .clear => [.cleared]
  | .apply | .setAlgorithm _ | .setDebugMode _ | .setMaxIterations _ | .setConvergence _ => []

end

/-- A session after a solve that found these values for the scalars it sets. -/
def found (s : Session (LeastSquares α) α) (x : Address → α) (d : Diagnosis) :
    Session (LeastSquares α) α :=
  { s with
    solver := { s.solver with
      diagnosis := d
      pending := some ((s.solver.unknowns ++ s.solver.outputs).map fun a => (a, x a)) }
    phase := .solved }

variable [Decompositions α]

theorem solveWith_eq_found (s : Session (LeastSquares α) α) (algorithm : Algorithm) :
    (s.solveWith algorithm).2 = s.found (System.read (s.solver.solution algorithm))
      (s.solver.diagnose (s.solver.descend algorithm).x) := rfl

/-- A session that has been given nothing yet. -/
inductive Fresh : Session (LeastSquares α) α → Prop where
  | new (own : Config α) : Fresh (.new (.ofConfig own))
  | ofConfig (own c : Config α) : Fresh (.ofConfig (.ofConfig own) c)

/-- Calls, and solves that find anything, lead from one session to another. -/
inductive Run (s : Session (LeastSquares α) α) : History α → Session (LeastSquares α) α → Prop where
  | refl : Run s [] s
  | call {es : History α} {t : Session (LeastSquares α) α} (h : Run s es t) (r : Request α) :
      Run s (es ++ t.events r) (t.perform r)
  | solve {es : History α} {t : Session (LeastSquares α) α} (h : Run s es t) (x : Address → α)
      (d : Diagnosis) : Run s (es ++ [.solved]) (t.found x d)

variable {s t u : Session (LeastSquares α) α} {es es' : History α}

/-- Calls alone make runs of their own, so what holds after every run holds of all reachable
sessions. -/
theorem Reachable.exists_run (h : Reachable t) : ∃ s es, Fresh s ∧ Run s es t := by
  induction h with
  | new own => exact ⟨_, [], .new own, .refl⟩
  | ofConfig own c => exact ⟨_, [], .ofConfig own c, .refl⟩
  | perform _ r ih =>
      obtain ⟨s, es, hs, hrun⟩ := ih
      exact ⟨s, _, hs, hrun.call r⟩

theorem Run.trans (h : Run s es t) (h' : Run t es' u) : Run s (es ++ es') u := by
  induction h' with
  | refl => rwa [List.append_nil]
  | call _ r ih =>
      rw [← List.append_assoc]
      exact ih.call r
  | solve _ x d ih =>
      rw [← List.append_assoc]
      exact ih.solve x d

theorem Fresh.sound (h : Fresh s) : Sound s := by
  cases h <;> exact .of_empty rfl rfl rfl rfl rfl

/-! ### Moves -/

/-- What one event does to a session, or a call that leaves no event. -/
inductive Move (s : Session (LeastSquares α) α) :
    History α → Session (LeastSquares α) α → Prop where
  | refuse {t : Session (LeastSquares α) α} (h : Untouched s t) : Move s [] t
  | tune (config : Config α) (algorithm : Algorithm) :
      Move s [] { s with solver := { s.solver with config := config }, algorithm := algorithm }
  | place {g : Geometry α} {t : Session (LeastSquares α) α} (h : Placed s g t) :
      Move s [.pushed (.geometry g)] t
  | enter {c : Constraint α} {e : Entry α} {outputs : Outputs}
      {t : Session (LeastSquares α) α} (h : Admitted s c e outputs t) :
      Move s [.pushed (.constraint c)] t
  | extra {c : Constraint α} {e : Entry α} {outputs : Outputs} {solver : LeastSquares α}
      (driving : c.isDriving = true) (enters : c.Enters extraTag s.solver e outputs solver) :
      Move s [.extra c] { s with solver := solver, phase := .building }
  | clearExtra : Move s [.extrasCleared] s.clearExtra
  | delete {id : Oid} {tag : Int} (absent : s.index.geometryAt? id = none)
      (tagged : id.tag = .ok tag) :
      Move s [.deleted id] { s with
        solver := s.solver.clearTag tag
        index := s.index.delete id
        measured := s.measured.erase id
        phase := .building }
  | bind (name : String) (v : α) : Move s [.named name v] (s.pushName name v)
  | assign {name : String} {a : Address} (v : α)
      (bound : s.allocator.names.find? name = some a) :
      Move s [.named name v] { s with
        solver := { s.solver with cells := s.solver.cells.setIfInBounds a ⟨v, true⟩ }
        phase := .building }
  | solve (x : Address → α) (d : Diagnosis) : Move s [.solved] (s.found x d)
  | apply (h : s.phase = .solved) : Move s [] s.applySolution.2
  | clear : Move s [.cleared] s.clear

inductive Moves (s : Session (LeastSquares α) α) :
    History α → Session (LeastSquares α) α → Prop where
  | refl : Moves s [] s
  | tail {es es' : History α} {t u : Session (LeastSquares α) α} (h : Moves s es t)
      (hmove : Move t es' u) : Moves s (es ++ es') u

theorem Moves.single (h : Move s es t) : Moves s es t := .tail .refl h

theorem Moves.trans (h : Moves s es t) (h' : Moves t es' u) : Moves s (es ++ es') u := by
  induction h' with
  | refl => rwa [List.append_nil]
  | tail _ hmove ih =>
      rw [← List.append_assoc]
      exact ih.tail hmove

/-- A move is a step that finds a solution or keeps the one there is, unless it applies a solution
or clears everything. -/
theorem Move.step_cases (h : Move s es t) :
    (Step s t ∧ (t.solver.pending = s.solver.pending ∨ ∃ x d, t = s.found x d)) ∨
      (es = [] ∧ s.phase = .solved ∧ t = s.applySolution.2) ∨ (es = [.cleared] ∧ t = s.clear) := by
  cases h with
  | refuse h => exact .inl ⟨h.step, .inl h.pending⟩
  | tune config algorithm => exact .inl ⟨.keep rfl rfl rfl rfl, .inl rfl⟩
  | place h => exact .inl ⟨h.step, .inl h.grown.pending⟩
  | enter h =>
      obtain ⟨vs, hgrown, -⟩ := h.enters.grown
      exact .inl ⟨h.step, .inl hgrown.pending⟩
  | extra driving enters =>
      obtain ⟨vs, hgrown, -⟩ := enters.grown
      exact .inl ⟨.append rfl rfl .inl enters.annexed, .inl hgrown.pending⟩
  | clearExtra => exact .inl ⟨step_clearExtra s, .inl rfl⟩
  | delete absent tagged =>
      exact .inl ⟨.forget _ (Index.geometryAt?_delete absent) rfl rfl, .inl rfl⟩
  | bind name v => exact .inl ⟨step_pushName s name v, .inl rfl⟩
  | assign v bound => exact .inl ⟨.assign rfl rfl bound rfl rfl, .inl rfl⟩
  | solve x d => exact .inl ⟨.keep rfl rfl rfl rfl, .inr ⟨x, d, rfl⟩⟩
  | apply h => exact .inr (.inl ⟨rfl, h, rfl⟩)
  | clear => exact .inr (.inr ⟨rfl, rfl⟩)

theorem Move.sound (hs : Sound s) (h : Move s es t) : Sound t := by
  rcases h.step_cases with ⟨hstep, -⟩ | ⟨-, -, rfl⟩ | ⟨-, rfl⟩
  · exact hs.step hstep
  · exact hs.applied (applied_applySolution s)
  · exact sound_clear s

theorem Moves.sound (hs : Sound s) (h : Moves s es t) : Sound t := by
  induction h with
  | refl => exact hs
  | tail _ hmove ih => exact hmove.sound ih

/-! ### Calls are moves -/

/-- A push is a move, and its result tells of it. -/
theorem move_pushObject (h : Anchored s) (o : SketchObject α) :
    (∃ e t, s.pushObject o = (.error e, t) ∧ Move s [] t) ∨
      ∃ t, s.pushObject o = (.ok (), t) ∧ Move s [Event.ofObject o] t := by
  cases o with
  | param p => exact .inr ⟨_, rfl, .bind p.name p.value⟩
  | primitive p =>
      rcases push_cases h p with ⟨e, hpush⟩ | ⟨c, tag, e, solver, -, -, hpush⟩ |
        ⟨g, t, rfl, hpush, hplaced⟩ | ⟨c, e, outputs, t, rfl, hpush, hadmitted⟩
      · exact .inl ⟨e, s, hpush, .refuse (h.untouched_push hpush)⟩
      · exact .inl ⟨e, _, hpush, .refuse (h.untouched_push hpush)⟩
      · exact .inr ⟨t, hpush, .place hplaced⟩
      · exact .inr ⟨t, hpush, .enter hadmitted⟩

theorem moves_pushObjects (hs : Sound s) (os : List (SketchObject α)) :
    Moves s (s.objectEvents os) (s.pushObjects os).2 := by
  induction os generalizing s with
  | nil => exact .refl
  | cons o os ih =>
      rw [objectEvents, pushObjects]
      rcases move_pushObject hs.toAnchored o with ⟨e, t, hpush, hmove⟩ | ⟨t, hpush, hmove⟩
      · rw [hpush]
        exact .single hmove
      · rw [hpush]
        exact (Moves.single hmove).trans (ih (hmove.sound hs))

theorem move_pushExtra (s : Session (LeastSquares α) α) (c : Constraint α) :
    Move s (Event.unlessRefused (.extra c) (s.pushExtra c).1) (s.pushExtra c).2 := by
  rcases s.pushExtra_cases c with hpush | ⟨e, solver, -, hpush⟩ |
    ⟨outputs, solver, hdriving, hcall, hpush⟩
  · rw [hpush]
    exact .refuse (.refl s)
  · rw [hpush]
    exact .refuse (untouched_pushExtra hpush)
  · rw [hpush]
    obtain ⟨e, henters⟩ := Constraint.push_ok hcall
    exact .extra hdriving henters

theorem move_delete (s : Session (LeastSquares α) α) (id : Oid) :
    Move s (Event.unlessRefused (.deleted id) (s.delete id).1) (s.delete id).2 := by
  rcases s.delete_cases id with ⟨e, hdelete⟩ | ⟨tag, habsent, htag, hdelete⟩
  · rw [hdelete]
    exact .refuse (.refl s)
  · rw [hdelete]
    exact .delete habsent htag

theorem move_setName (s : Session (LeastSquares α) α) (name : String) (v : α) :
    Move s (Event.unlessRefused (.named name v) (s.setName name v).1) (s.setName name v).2 := by
  rcases s.setName_cases name v with ⟨e, hset⟩ | ⟨a, hname, hset⟩
  · rw [hset]
    exact .refuse (.refl s)
  · rw [hset]
    exact .assign v hname

/-- Every call is a sequence of moves that leaves its events. -/
theorem moves_perform (hs : Sound s) (r : Request α) : Moves s (s.events r) (s.perform r) := by
  cases r with
  | push p =>
      rw [perform, show s.push p = s.pushObject (.primitive p) from rfl, ← pushObjects_singleton]
      exact moves_pushObjects hs _
  | pushObject o =>
      rw [perform, ← pushObjects_singleton]
      exact moves_pushObjects hs _
  | pushAll ps => exact moves_pushObjects hs _
  | pushObjects os => exact moves_pushObjects hs os
  | pushDocument d => exact moves_pushObjects hs _
  | pushExtra c => exact .single (move_pushExtra s c)
  | clearExtra => exact .single .clearExtra
  | delete id => exact .single (move_delete s id)
  | pushName name v => exact .single (.bind name v)
  | setName name v => exact .single (move_setName s name v)
  | solve => exact .single (.solve _ _)
  | solveWith a => exact .single (.solve _ _)
  | apply =>
      by_cases hphase : s.phase = .solved
      · exact .single (.apply hphase)
      · rw [perform, applySolution, if_neg hphase]
        exact .refl
  | clear => exact .single .clear
  | setAlgorithm a => exact .single (.tune s.solver.config a)
  | setDebugMode m => exact .single (.tune { s.solver.config with debugMode := m } s.algorithm)
  | setMaxIterations n =>
      exact .single (.tune { s.solver.config with maxIterations := n } s.algorithm)
  | setConvergence v =>
      exact .single (.tune { s.solver.config with convergence := v } s.algorithm)

theorem Run.moves (hs : Sound s) (h : Run s es t) : Moves s es t := by
  induction h with
  | refl => exact .refl
  | call _ r ih => exact ih.trans (moves_perform (ih.sound hs) r)
  | solve _ x d ih => exact ih.tail (.solve x d)

theorem Run.sound (hs : Sound s) (h : Run s es t) : Sound t := (h.moves hs).sound hs

/-- What holds at the start and is preserved by every move holds along every run. -/
theorem Run.invariant {P : History α → Session (LeastSquares α) α → Prop} (hs : Sound s)
    (start : P [] s)
    (step : ∀ es t es' u, Sound t → P es t → Move t es' u → P (es ++ es') u) (h : Run s es t) :
    P es t := by
  have hmoves := h.moves hs
  clear h
  induction hmoves with
  | refl => exact start
  | tail hmoves hmove ih => exact step _ _ _ _ (hmoves.sound hs) ih hmove

end Session

end PlanarSketch
