import PlanarSketch.LeastSquares.Minimize
import PlanarSketch.Proofs.Linear.Lengths

/-!
What a minimisation returns, whichever method it uses. It never leaves the space of its start: all
points at which it asks for residuals or a derivative have as many coordinates, so it depends on
nothing else about its problem. The error that it returns is that of the point that it returns,
however its last step ended. A start that is good enough already is returned as it is.

Each method is a step on its own state. What one step preserves is said per method; the induction
along the iteration is done once.
-/

namespace PlanarSketch

section

variable {σ : Type}

/-- The state that a step has left. -/
def Progress.state : Progress σ → σ
  | .next s | .stop s => s

variable {P : σ → Prop} {active : σ → Bool} {step step' : σ → Progress σ}

/-- Steps that agree, and preserve something, on the states that occur. -/
theorem iterate_spec (active : σ → Bool)
    (hstep : ∀ s, P s → step' s = step s ∧ P (step s).state) (n k : Nat) {s : σ} (hs : P s) :
    iterate active step' n k s = iterate active step n k s ∧ P (iterate active step n k s).1 := by
  induction n generalizing k s with
  | zero => exact ⟨rfl, hs⟩
  | succ n ih =>
      obtain ⟨heq, hnext⟩ := hstep s hs
      rw [iterate, iterate, heq]
      split
      · cases hs' : step s with
        | next t =>
            rw [hs'] at hnext
            exact ih (k + 1) hnext
        | stop t =>
            rw [hs'] at hnext
            exact ⟨rfl, hnext⟩
      · exact ⟨rfl, hs⟩

theorem iterate_of_inactive {s : σ} (h : active s = false) (n k : Nat) :
    iterate active step n k s = (s, k) := by
  cases n with
  | zero => rfl
  | succ n => rw [iterate, h, if_neg Bool.false_ne_true]

end

variable {α : Type}

namespace Problem

/-- The derivative has a column for each coordinate. -/
def Sized (p : Problem α) : Prop := ∀ x, (p.jacobian x).width = x.length

/-- The problems are the same, as far as points of the space of the start are concerned. -/
structure Agrees (p q : Problem α) : Prop where
  start : q.start = p.start
  residuals : ∀ x, x.length = p.start.length → q.residuals x = p.residuals x
  jacobian : ∀ x, x.length = p.start.length → q.jacobian x = p.jacobian x

theorem Agrees.refl (p : Problem α) : p.Agrees p := ⟨rfl, fun _ _ => rfl, fun _ _ => rfl⟩

variable [Scalar α]

/-- The error is that of the point, which lies in the space of the start. -/
structure Measures (p : Problem α) (x : Vec α) (error : α) : Prop where
  length : x.length = p.start.length
  error : error = halfSq (p.residuals x)

end Problem

variable [Scalar α]

variable {p q : Problem α} {alg : LinearAlgebra α}

/-- A point that a vector of the right length leads to. -/
theorem Problem.Measures.add {x h : Vec α} {error : α} (hx : p.Measures x error)
    (hh : h.length = p.start.length) :
    p.Measures (Vec.add x h) (halfSq (p.residuals (Vec.add x h))) :=
  ⟨by rw [Vec.length_add, hx.length, hh, Nat.min_self], rfl⟩

namespace Damped

variable {s : Damped α}

theorem measures_raise (h : p.Measures s.x s.error) : p.Measures s.raise.x s.raise.error := h

theorem measures_begin (h : p.Measures s.x s.error) (gram : RowMatrix α) :
    p.Measures (s.begin gram).x (s.begin gram).error := by
  unfold begin
  split <;> exact h

theorem advance_spec (hq : p.Agrees q) (hs : p.Measures s.x s.error) {h : Vec α}
    (hh : h.length = p.start.length) (g : Vec α) :
    advance q s g h = advance p s g h ∧
      p.Measures (advance p s g h).x (advance p s g h).error := by
  have hnew := hs.add hh
  unfold advance
  dsimp only
  rw [hq.residuals _ hnew.length]
  refine ⟨rfl, ?_⟩
  split
  · exact hnew
  · exact measures_raise hs

theorem step_spec (hp : p.Sized) (halg : alg.Sized) (hq : p.Agrees q)
    (hs : p.Measures s.x s.error) :
    step q alg s = step p alg s ∧
      p.Measures (step p alg s).state.x (step p alg s).state.error := by
  unfold step
  dsimp only
  rw [hq.jacobian _ hs.length]
  split
  · exact ⟨rfl, hs⟩
  have hbegin := measures_begin hs (p.jacobian s.x).gram
  have hwidth : (p.jacobian s.x).width = p.start.length := (hp s.x).trans hs.length
  split
  · exact ⟨rfl, measures_raise hbegin⟩
  · next h hpositive =>
      split
      · exact ⟨rfl, hbegin⟩
      · have hsquare := RowMatrix.square_gram (p.jacobian s.x)
        rw [hwidth] at hsquare
        have hh : h.length = p.start.length :=
          halg.positive (hsquare.addDiagonal _) (by simp [hwidth]) hpositive
        obtain ⟨heq, hnext⟩ := advance_spec hq hbegin hh ((p.jacobian s.x).transposeMulVec s.r)
        exact ⟨congrArg Progress.next heq, hnext⟩

end Damped

namespace Trusted

variable {s : Trusted α}

theorem length_bend {n : Nat} {g descent full : Vec α} (radius : α) (hg : g.length = n)
    (hd : descent.length = n) (hf : full.length = n) :
    (bend radius g descent full).length = n := by
  unfold bend
  split
  · exact hf
  split
  · simp [hg]
  · simp [crossing, hd, hf]

theorem measures_adapt (hs : p.Measures s.x s.error) (rho : α) (h : Vec α) :
    p.Measures (adapt rho h s).state.x (adapt rho h s).state.error := by
  unfold adapt
  dsimp only
  split
  · exact hs
  split
  · split <;> exact hs
  · exact hs

theorem advance_spec (hq : p.Agrees q) (hs : p.Measures s.x s.error) {h : Vec α}
    (hh : h.length = p.start.length) (j : ColumnMatrix α) :
    advance q j s h = advance p j s h ∧
      p.Measures (advance p j s h).state.x (advance p j s h).state.error := by
  have hnew := hs.add hh
  unfold advance
  dsimp only
  rw [hq.residuals _ hnew.length]
  refine ⟨rfl, measures_adapt ?_ _ _⟩
  split
  · exact hnew
  · exact hs

theorem step_spec (hp : p.Sized) (halg : alg.Sized) (hq : p.Agrees q)
    (hs : p.Measures s.x s.error) :
    step q alg s = step p alg s ∧
      p.Measures (step p alg s).state.x (step p alg s).state.error := by
  unfold step
  dsimp only
  rw [hq.jacobian _ hs.length]
  have hwidth : (p.jacobian s.x).width = p.start.length := (hp s.x).trans hs.length
  split
  · exact ⟨rfl, hs⟩
  split
  · exact ⟨rfl, hs⟩
  split
  · exact ⟨rfl, hs⟩
  · refine advance_spec hq hs (length_bend _ ?_ ?_ ?_) _
    · rw [ColumnMatrix.length_transposeMulVec, hwidth]
    · rw [Vec.length_scale, ColumnMatrix.length_transposeMulVec, hwidth]
    · rw [halg.leastNorm, hwidth]

end Trusted

namespace Learnt

/-- Gradient and inverse curvature belong to the space of the start as well. -/
structure Within (p : Problem α) (s : Learnt α) : Prop where
  measures : p.Measures s.x s.error
  gradient : s.g.length = p.start.length
  inverse : s.inverse.length = p.start.length

variable {s : Learnt α}

theorem descend_spec (h : s.Within p) :
    s.descend.1.Within p ∧ s.descend.2.1.length = p.start.length := by
  unfold descend
  dsimp only
  split
  · exact ⟨⟨h.measures, h.gradient, by simp [h.measures.length]⟩, by simp [h.gradient]⟩
  · exact ⟨h, by simp [h.inverse]⟩

theorem search?_spec (hq : p.Agrees q) (hs : p.Measures s.x s.error) {direction : Vec α}
    (hd : direction.length = p.start.length) (slope : α) (n : Nat) (t : α) :
    search? q s direction slope n t = search? p s direction slope n t ∧
      ∀ x r error, search? p s direction slope n t = some (x, r, error) →
        p.Measures x error ∧ r = p.residuals x := by
  induction n generalizing t with
  | zero => exact ⟨rfl, nofun⟩
  | succ n ih =>
      have hnew := hs.add (h := Vec.scale t direction) (by rw [Vec.length_scale, hd])
      rw [search?, search?]
      dsimp only
      rw [hq.residuals _ hnew.length]
      split
      · refine ⟨rfl, ?_⟩
        intro x r error h
        cases h
        exact ⟨hnew, rfl⟩
      split
      · exact ⟨rfl, nofun⟩
      · exact ih _

theorem length_learn {n : Nat} {inverse : RowMatrix α} {d : Vec α} (y : Vec α)
    (hinverse : inverse.length = n) (hd : d.length = n) : (learn inverse d y).length = n := by
  unfold learn
  dsimp only
  split
  · simp [hd]
  · exact hinverse

theorem gradient_spec (hp : p.Sized) (hq : p.Agrees q) {x : Vec α}
    (hx : x.length = p.start.length) (r : Vec α) :
    gradient q x r = gradient p x r ∧ (gradient p x r).length = p.start.length := by
  unfold gradient
  rw [hq.jacobian x hx, ColumnMatrix.length_transposeMulVec, hp x]
  exact ⟨rfl, hx⟩

theorem step_spec (hp : p.Sized) (hq : p.Agrees q) (hs : s.Within p) :
    step q s = step p s ∧ (step p s).state.Within p := by
  obtain ⟨hdescend, hd⟩ := descend_spec hs
  obtain ⟨heq, hfound⟩ :=
    search?_spec hq hdescend.measures hd s.descend.2.2 halvingLimit 1.0
  unfold step
  dsimp only
  split
  · exact ⟨rfl, hs⟩
  · rw [heq]
    cases hsearch : search? p s.descend.1 s.descend.2.1 s.descend.2.2 halvingLimit 1.0 with
    | none => exact ⟨rfl, hdescend⟩
    | some found =>
        obtain ⟨x, r, error⟩ := found
        obtain ⟨hx, -⟩ := hfound x r error hsearch
        obtain ⟨hgradient, hlen⟩ := gradient_spec hp hq hx.length r
        dsimp only
        rw [hgradient]
        refine ⟨rfl, hx, hlen, length_learn _ hdescend.inverse ?_⟩
        simp [hx.length, hdescend.measures.length]

end Learnt

namespace Problem

/-- A minimisation depends on its problem at points of the space of its start alone. It returns
such a point together with its error. -/
theorem minimize_spec (hp : p.Sized) (halg : alg.Sized) (hq : p.Agrees q) (algorithm : Algorithm)
    (limits : Limits α) :
    q.minimize alg algorithm limits = p.minimize alg algorithm limits ∧
      p.Measures (p.minimize alg algorithm limits).x (p.minimize alg algorithm limits).error := by
  have hstart : p.Measures p.start (halfSq (p.residuals p.start)) := ⟨rfl, rfl⟩
  cases algorithm with
  | levenbergMarquardt =>
      have hinit : Damped.init q = Damped.init p := by
        rw [Damped.init, Damped.init, hq.start, hq.residuals _ rfl]
      obtain ⟨heq, hlast⟩ := iterate_spec (P := fun s => p.Measures s.x s.error)
        (s := Damped.init p) (fun s => isActive limits s.x s.error)
        (fun s hs => Damped.step_spec hp halg hq hs) limits.maxIterations 0 hstart
      refine ⟨?_, hlast⟩
      simp only [Problem.minimize, Damped.minimize, hinit, heq]
  | dogLeg =>
      have hinit : Trusted.init q = Trusted.init p := by
        rw [Trusted.init, Trusted.init, hq.start, hq.residuals _ rfl]
      obtain ⟨heq, hlast⟩ := iterate_spec (P := fun s => p.Measures s.x s.error)
        (s := Trusted.init p) (fun s => isActive limits s.x s.error)
        (fun s hs => Trusted.step_spec hp halg hq hs) limits.maxIterations 0 hstart
      refine ⟨?_, hlast⟩
      simp only [Problem.minimize, Trusted.minimize, hinit, heq]
  | bfgs =>
      obtain ⟨hgradient, hlen⟩ :=
        Learnt.gradient_spec hp hq (x := p.start) rfl (p.residuals p.start)
      have hinit : Learnt.init q = Learnt.init p := by
        rw [Learnt.init, Learnt.init, hq.start, hq.residuals _ rfl, hgradient]
      obtain ⟨heq, hlast⟩ := iterate_spec (P := fun s => s.Within p) (s := Learnt.init p)
        (fun s => isActive limits s.x s.error) (fun s hs => Learnt.step_spec hp hq hs)
        limits.maxIterations 0 ⟨hstart, hlen, by simp [Learnt.init]⟩
      refine ⟨?_, hlast.measures⟩
      simp only [Problem.minimize, Learnt.minimize, hinit, heq]

theorem minimize_of_no_iterations {limits : Limits α} (h : limits.maxIterations = 0)
    (alg : LinearAlgebra α) (algorithm : Algorithm) :
    p.minimize alg algorithm limits = ⟨p.start, halfSq (p.residuals p.start), 0⟩ := by
  cases algorithm with
  | levenbergMarquardt =>
      rw [Problem.minimize, Damped.minimize, h]
      rfl
  | dogLeg =>
      rw [Problem.minimize, Trusted.minimize, h]
      rfl
  | bfgs =>
      rw [Problem.minimize, Learnt.minimize, h]
      rfl

/-- Where nothing is left to do, no method does anything. -/
theorem minimize_of_inactive {limits : Limits α}
    (h : isActive limits p.start (halfSq (p.residuals p.start)) = false) (alg : LinearAlgebra α)
    (algorithm : Algorithm) :
    p.minimize alg algorithm limits = ⟨p.start, halfSq (p.residuals p.start), 0⟩ := by
  cases algorithm with
  | levenbergMarquardt =>
      rw [Problem.minimize, Damped.minimize, iterate_of_inactive]
      · rfl
      · exact h
  | dogLeg =>
      rw [Problem.minimize, Trusted.minimize, iterate_of_inactive]
      · rfl
      · exact h
  | bfgs =>
      rw [Problem.minimize, Learnt.minimize, iterate_of_inactive]
      · rfl
      · exact h

end Problem

end PlanarSketch
