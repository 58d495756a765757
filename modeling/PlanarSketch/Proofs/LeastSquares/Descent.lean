import PlanarSketch.Proofs.Exact
import PlanarSketch.Proofs.LeastSquares.Minimize

/-!
Minimisation in exact arithmetic goes downhill. What linear algebra answers, and what is passed for
a derivative, may be anything: a step is taken only where the error falls, so a wrong answer costs
time and nothing else. The point, its residuals and its error are kept apart by every method and
change together.

The way of a minimisation is the list of its points with their errors, one for each iteration and
one for the start. What a step preserves is said per method; that the way leads down follows once
for all three.
-/

namespace PlanarSketch

/-! ### The states of an iteration -/

section

variable {σ : Type}

/-- The states that an iteration goes through, the first one included. -/
def visited (active : σ → Bool) (step : σ → Progress σ) : Nat → σ → List σ
  | 0, s => [s]
  | n + 1, s =>
      if active s then
        match step s with
        | .next t => s :: visited active step n t
        | .stop t => [s, t]
      else [s]

variable {active : σ → Bool} {step : σ → Progress σ} {P : σ → Prop} {R : σ → σ → Prop}

theorem head?_visited (n : Nat) (s : σ) : (visited active step n s).head? = some s := by
  cases n with
  | zero => rfl
  | succ n =>
      rw [visited]
      split
      · split <;> rfl
      · rfl

/-- An iteration ends in the last of these states, and has counted all of them but the first. -/
theorem iterate_visited (active : σ → Bool) (step : σ → Progress σ) (n k : Nat) (s : σ) :
    (visited active step n s).getLast? = some (iterate active step n k s).1 ∧
      (visited active step n s).length + k = (iterate active step n k s).2 + 1 ∧
      (iterate active step n k s).2 ≤ n + k := by
  induction n generalizing k s with
  | zero => simp [visited, iterate, Nat.add_comm]
  | succ n ih =>
      rw [visited, iterate]
      split
      · cases step s with
        | next t =>
            obtain ⟨hlast, hlength, hcount⟩ := ih (k + 1) t
            dsimp only
            refine ⟨?_, ?_, ?_⟩
            · rw [List.getLast?_cons, hlast, Option.getD_some]
            · rw [List.length_cons]
              omega
            · omega
        | stop t =>
            refine ⟨rfl, ?_, ?_⟩
            · simp only [List.length_cons, List.length_nil]
              omega
            · dsimp only
              omega
      · refine ⟨rfl, ?_, ?_⟩
        · simp only [List.length_cons, List.length_nil]
          omega
        · dsimp only
          omega

/-- What every step preserves holds of all states, and what every step does leads from each to the
next. -/
theorem visited_spec (active : σ → Bool)
    (hstep : ∀ s, P s → P (step s).state ∧ R s (step s).state) (n : Nat) {s : σ} (hs : P s) :
    (∀ t ∈ visited active step n s, P t) ∧ (visited active step n s).IsChain R := by
  induction n generalizing s with
  | zero => simp [visited, hs]
  | succ n ih =>
      obtain ⟨hnext, hrel⟩ := hstep s hs
      rw [visited]
      split
      · cases hprogress : step s with
        | next t =>
            rw [hprogress] at hnext hrel
            obtain ⟨hall, hchain⟩ := ih hnext
            refine ⟨List.forall_mem_cons.2 ⟨hs, hall⟩, List.isChain_cons.2 ⟨?_, hchain⟩⟩
            intro u hu
            rw [head?_visited] at hu
            cases hu
            exact hrel
        | stop t =>
            rw [hprogress] at hnext hrel
            refine ⟨?_, List.isChain_pair.2 hrel⟩
            simp [hs, show P t from hnext]
      · simp [hs]

end

variable {α : Type} [ExactScalar α]

/-! ### One step -/

namespace Damped

/-- Residuals and error are those of the point. -/
def Tracks (p : Problem α) (s : Damped α) : Prop :=
  s.r = p.residuals s.x ∧ s.error = halfSq s.r

variable {p : Problem α} {s : Damped α}

theorem tracks_begin (h : s.Tracks p) (gram : RowMatrix α) : (s.begin gram).Tracks p := by
  unfold begin
  split <;> exact h

theorem error_begin (s : Damped α) (gram : RowMatrix α) : (s.begin gram).error = s.error := by
  unfold begin
  split <;> rfl

theorem advance_falls (h : s.Tracks p) (g d : Vec α) :
    (advance p s g d).Tracks p ∧ (advance p s g d).error ≤ s.error := by
  unfold advance
  dsimp only
  split
  · next hgain => exact ⟨⟨rfl, rfl⟩, (lt_of_gain_pos hgain).le⟩
  · exact ⟨h, le_refl s.error⟩

theorem step_falls (alg : LinearAlgebra α) (h : s.Tracks p) :
    (step p alg s).state.Tracks p ∧ (step p alg s).state.error ≤ s.error := by
  unfold step
  dsimp only
  split
  · exact ⟨h, le_refl s.error⟩
  have hbegin := tracks_begin h (p.jacobian s.x).gram
  have herror := s.error_begin (p.jacobian s.x).gram
  split
  · exact ⟨hbegin, herror.le⟩
  · next d _ =>
      split
      · exact ⟨hbegin, herror.le⟩
      · obtain ⟨htracks, hle⟩ := advance_falls hbegin ((p.jacobian s.x).transposeMulVec s.r) d
        exact ⟨htracks, hle.trans herror.le⟩

end Damped

namespace Trusted

/-- Residuals and error are those of the point. -/
def Tracks (p : Problem α) (s : Trusted α) : Prop :=
  s.r = p.residuals s.x ∧ s.error = halfSq s.r

variable {p : Problem α} {s : Trusted α}

/-- To change the radius is to stay. -/
theorem adapt_stays (h : s.Tracks p) (rho : α) (d : Vec α) :
    (adapt rho d s).state.Tracks p ∧ (adapt rho d s).state.error = s.error := by
  unfold adapt
  dsimp only
  split
  · exact ⟨h, rfl⟩
  split
  · split <;> exact ⟨h, rfl⟩
  · exact ⟨h, rfl⟩

theorem advance_falls (h : s.Tracks p) (j : ColumnMatrix α) (d : Vec α) :
    (advance p j s d).state.Tracks p ∧ (advance p j s d).state.error ≤ s.error := by
  unfold advance
  dsimp only
  split
  · next hgain =>
      have hle := (lt_of_gain_pos hgain).le
      have hnew (x : Vec α) : Tracks p ⟨x, p.residuals x, halfSq (p.residuals x), s.radius⟩ :=
        ⟨rfl, rfl⟩
      obtain ⟨htracks, herror⟩ := adapt_stays (hnew _) _ d
      exact ⟨htracks, herror.le.trans hle⟩
  · obtain ⟨htracks, herror⟩ := adapt_stays h _ d
    exact ⟨htracks, herror.le⟩

theorem step_falls (alg : LinearAlgebra α) (h : s.Tracks p) :
    (step p alg s).state.Tracks p ∧ (step p alg s).state.error ≤ s.error := by
  have hstay : s.Tracks p ∧ s.error ≤ s.error := ⟨h, le_refl s.error⟩
  unfold step
  dsimp only
  split
  · exact hstay
  split
  · exact hstay
  split
  · exact hstay
  · exact advance_falls h _ _

end Trusted

namespace Learnt

/-- Error and gradient are those of the point. -/
def Tracks (p : Problem α) (s : Learnt α) : Prop :=
  s.error = halfSq (p.residuals s.x) ∧ s.g = gradient p s.x (p.residuals s.x)

variable {p : Problem α} {s : Learnt α}

/-- A direction of descent never leads up. -/
theorem descend_falls (h : s.Tracks p) :
    s.descend.1.Tracks p ∧ s.descend.1.error = s.error ∧ s.descend.2.2 ≤ 0 := by
  unfold descend
  dsimp only
  split
  · refine ⟨h, rfl, ?_⟩
    rw [neg_nonpos]
    exact s.g.normSq_nonneg
  · next hslope =>
      refine ⟨h, rfl, ?_⟩
      simp only [ExactScalar.decimal_fraction, CharP.cast_eq_zero, zero_div] at hslope
      exact (not_le.1 hslope).le

/-- The point a piece `t` of the direction away. -/
def along (s : Learnt α) (direction : Vec α) (t : α) : Vec α :=
  Vec.add s.x (Vec.scale t direction)

/-- At that point the error has fallen enough. -/
def Sufficient (p : Problem α) (s : Learnt α) (direction : Vec α) (slope t : α) : Prop :=
  halfSq (p.residuals (s.along direction t)) ≤ s.error + 1e-4 * t * slope

/-- The search along a direction as a loop without a bound: the number of its tries from a step
`t` on, and what it finds. -/
inductive Searches (p : Problem α) (s : Learnt α) (direction : Vec α) (slope : α) :
    Nat → α → Option (Vec α × Vec α × α) → Prop where
  | accept {t} (enough : Sufficient p s direction slope t) :
      Searches p s direction slope 1 t
        (some (s.along direction t, p.residuals (s.along direction t),
          halfSq (p.residuals (s.along direction t))))
  | giveUp {t} (rejected : ¬ Sufficient p s direction slope t) (short : t * 0.5 < 1e-12) :
      Searches p s direction slope 1 t none
  | halve {k t found} (rejected : ¬ Sufficient p s direction slope t) (long : ¬ t * 0.5 < 1e-12)
      (rest : Searches p s direction slope k (t * 0.5) found) :
      Searches p s direction slope (k + 1) t found

variable {direction : Vec α} {slope t : α}

/-- A search ends by itself as soon as so many halvings would leave nothing of the step: its bound
is never what ends it. -/
theorem searches_search? {n : Nat} (hn : 0 < n) (ht : t * 0.5 ^ n < 1e-12) :
    ∃ k ≤ n, Searches p s direction slope k t (search? p s direction slope n t) := by
  induction n generalizing t with
  | zero => omega
  | succ n ih =>
      rw [search?]
      dsimp only
      split
      · next henough => exact ⟨1, by omega, .accept henough⟩
      next hrejected =>
      split
      · next hshort => exact ⟨1, by omega, .giveUp hrejected hshort⟩
      next hlong =>
      -- the step is long still, so this was not the last try
      have hn : 0 < n := by
        apply Nat.pos_of_ne_zero
        rintro rfl
        rw [zero_add, pow_one] at ht
        exact hlong ht
      have ht : t * 0.5 * 0.5 ^ n < 1e-12 := by
        rw [mul_assoc, ← pow_succ']
        exact ht
      obtain ⟨k, hk, hsearch⟩ := ih hn ht
      exact ⟨k + 1, by omega, .halve hrejected hlong hsearch⟩

theorem searches_halvingLimit (p : Problem α) (s : Learnt α) (direction : Vec α) (slope : α) :
    ∃ k ≤ halvingLimit,
      Searches p s direction slope k 1.0 (search? p s direction slope halvingLimit 1.0) := by
  apply searches_search?
  · exact Nat.succ_pos 40
  · simp only [ExactScalar.decimal_fraction, halvingLimit]
    norm_num

/-- What is found down a direction comes with its residuals and its error, which has not risen. -/
theorem Searches.falls {k : Nat} {found : Option (Vec α × Vec α × α)}
    (h : Searches p s direction slope k t found) (ht : 0 ≤ t) (hslope : slope ≤ 0) :
    ∀ x r error, found = some (x, r, error) →
      r = p.residuals x ∧ error = halfSq r ∧ error ≤ s.error := by
  induction h with
  | accept henough =>
      intro x r error hfound
      cases hfound
      refine ⟨rfl, rfl, henough.trans ?_⟩
      apply add_le_of_nonpos_right
      apply mul_nonpos_of_nonneg_of_nonpos _ hslope
      apply mul_nonneg _ ht
      simp only [ExactScalar.decimal_fraction]
      positivity
  | giveUp => exact nofun
  | halve _ _ _ ih =>
      apply ih
      apply mul_nonneg ht
      simp only [ExactScalar.decimal_fraction]
      positivity

theorem step_falls (h : s.Tracks p) :
    (step p s).state.Tracks p ∧ (step p s).state.error ≤ s.error := by
  obtain ⟨hdescend, herror, hslope⟩ := descend_falls h
  obtain ⟨k, -, hsearches⟩ :=
    searches_halvingLimit p s.descend.1 s.descend.2.1 s.descend.2.2
  have hone : (0 : α) ≤ 1.0 := by simp
  have hfalls := hsearches.falls hone hslope
  unfold step
  dsimp only
  split
  · exact ⟨h, le_refl s.error⟩
  split
  · exact ⟨hdescend, herror.le⟩
  · next x r error hfound =>
      obtain ⟨rfl, rfl, hle⟩ := hfalls x r error hfound
      exact ⟨⟨rfl, rfl⟩, hle.trans herror.le⟩

end Learnt

/-- Linear algebra that takes every matrix for the identity. -/
def LinearAlgebra.unit : LinearAlgebra α where
  positive? _ b := some b
  leastNorm _ b := b

/-! ### The way of a minimisation -/

namespace Problem

/-- A way down from the start to the outcome: a point for the start and for each iteration, with
the error of that point, and none higher than the one before. -/
structure Descent (p : Problem α) (way : List (Vec α × α)) (o : Outcome α) : Prop where
  start : way.head? = some (p.start, halfSq (p.residuals p.start))
  last : way.getLast? = some (o.x, o.error)
  length : way.length = o.iterations + 1
  errors : ∀ v ∈ way, v.2 = halfSq (p.residuals v.1)
  falls : way.IsChain fun v w => w.2 ≤ v.2

/-- The points that a minimisation goes through, with the errors that it holds for them. -/
def way (p : Problem α) (alg : LinearAlgebra α) (algorithm : Algorithm) (limits : Limits α) :
    List (Vec α × α) :=
  match algorithm with
  | .levenbergMarquardt =>
      (visited (fun s => isActive limits s.x s.error) (Damped.step p alg) limits.maxIterations
        (Damped.init p)).map fun s => (s.x, s.error)
  | .dogLeg =>
      (visited (fun s => isActive limits s.x s.error) (Trusted.step p alg) limits.maxIterations
        (Trusted.init p)).map fun s => (s.x, s.error)
  | .bfgs =>
      (visited (fun s => isActive limits s.x s.error) (Learnt.step p) limits.maxIterations
        (Learnt.init p)).map fun s => (s.x, s.error)

variable {p : Problem α}

theorem Descent.error_eq {way : List (Vec α × α)} {o : Outcome α} (h : p.Descent way o) :
    o.error = halfSq (p.residuals o.x) :=
  h.errors _ (List.mem_of_getLast? h.last)

theorem Descent.error_le {way : List (Vec α × α)} {o : Outcome α} (h : p.Descent way o) :
    o.error ≤ halfSq (p.residuals p.start) := by
  cases way with
  | nil => exact absurd h.start nofun
  | cons v way =>
      obtain rfl : v = (p.start, _) := Option.some.inj h.start
      have hpairs := h.falls.pairwise
      rw [List.pairwise_cons] at hpairs
      obtain hlast | hlast := List.mem_cons.1 (List.mem_of_getLast? h.last)
      · exact (congrArg Prod.snd hlast).le
      · exact hpairs.1 _ hlast

variable {σ : Type} {active : σ → Bool} {step : σ → Progress σ} {P : σ → Prop}
  {point : σ → Vec α} {error : σ → α}

/-- Steps that keep the error with its point, and do not raise it, lead down. -/
theorem descent_iterate (hpoint : ∀ s, P s → error s = halfSq (p.residuals (point s)))
    (hstep : ∀ s, P s → P (step s).state ∧ error (step s).state ≤ error s) {s : σ}
    (hs : P s) (hstart : point s = p.start) (n : Nat) :
    p.Descent ((visited active step n s).map fun s => (point s, error s))
        ⟨point (iterate active step n 0 s).1, error (iterate active step n 0 s).1,
          (iterate active step n 0 s).2⟩ ∧
      (iterate active step n 0 s).2 ≤ n := by
  obtain ⟨hlast, hlength, hcount⟩ := iterate_visited active step n 0 s
  obtain ⟨hall, hchain⟩ := visited_spec (R := fun s t => error t ≤ error s) active hstep n hs
  refine ⟨⟨?_, ?_, ?_, ?_, ?_⟩, hcount⟩
  · rw [List.head?_map, head?_visited, Option.map_some, hpoint s hs, hstart]
  · rw [List.getLast?_map, hlast, Option.map_some]
  · rw [List.length_map]
    exact hlength
  · intro v hv
    obtain ⟨t, ht, rfl⟩ := List.mem_map.1 hv
    exact hpoint t (hall t ht)
  · rw [List.isChain_map]
    exact hchain

theorem descent_minimize (p : Problem α) (alg : LinearAlgebra α) (algorithm : Algorithm)
    (limits : Limits α) :
    p.Descent (p.way alg algorithm limits) (p.minimize alg algorithm limits) ∧
      (p.minimize alg algorithm limits).iterations ≤ limits.maxIterations := by
  cases algorithm with
  | levenbergMarquardt =>
      refine descent_iterate (P := Damped.Tracks p) ?_ ?_ ⟨rfl, rfl⟩ rfl limits.maxIterations
      · intro s hs
        rw [hs.2, hs.1]
      · exact fun s hs => Damped.step_falls alg hs
  | dogLeg =>
      refine descent_iterate (P := Trusted.Tracks p) ?_ ?_ ⟨rfl, rfl⟩ rfl limits.maxIterations
      · intro s hs
        rw [hs.2, hs.1]
      · exact fun s hs => Trusted.step_falls alg hs
  | bfgs =>
      refine descent_iterate (P := Learnt.Tracks p) ?_ ?_ ⟨rfl, rfl⟩ rfl limits.maxIterations
      · exact fun s hs => hs.1
      · exact fun s hs => Learnt.step_falls hs

/-- A minimisation goes down a way of no more points than it may take, and returns the last of them
with its error. Where the start is good enough it does not move. Its search for a step, if it has
one, ends by itself. -/
theorem minimize_descends (p : Problem α) (alg : LinearAlgebra α) (algorithm : Algorithm)
    (limits : Limits α) :
    (p.minimize alg algorithm limits).iterations ≤ limits.maxIterations ∧
      (p.minimize alg algorithm limits).error =
        halfSq (p.residuals (p.minimize alg algorithm limits).x) ∧
      (p.minimize alg algorithm limits).error ≤ halfSq (p.residuals p.start) ∧
      p.Descent (p.way alg algorithm limits) (p.minimize alg algorithm limits) ∧
      (halfSq (p.residuals p.start) ≤ limits.convergence →
        p.minimize alg algorithm limits = ⟨p.start, halfSq (p.residuals p.start), 0⟩) ∧
      ∀ (s : Learnt α) (direction : Vec α) (slope : α), ∃ k ≤ Learnt.halvingLimit,
        Learnt.Searches p s direction slope k 1.0
          (Learnt.search? p s direction slope Learnt.halvingLimit 1.0) := by
  obtain ⟨hdescent, hcount⟩ := descent_minimize p alg algorithm limits
  refine ⟨hcount, hdescent.error_eq, hdescent.error_le, hdescent, ?_, ?_⟩
  · intro hle
    apply minimize_of_inactive
    rw [isActive, decide_eq_false (not_lt.2 hle), Bool.false_and]
  · intro s direction slope
    exact Learnt.searches_halvingLimit p s direction slope

/-- One unknown that should be two. -/
def shouldBeTwo : Problem ℚ where
  start := [0]
  residuals x := x.map (· - 2)
  jacobian x := ⟨1, x.map fun _ => [1]⟩

/-- The first step is cut short at the radius. A start that is within the threshold is kept. -/
theorem minimize_shouldBeTwo :
    shouldBeTwo.Descent [([0], 2), ([1], 1 / 2), ([2], 0)]
        (shouldBeTwo.minimize .unit .dogLeg ⟨10, 0⟩) ∧
      shouldBeTwo.minimize .unit .bfgs ⟨10, 2⟩ =
        ⟨[0], halfSq (shouldBeTwo.residuals [0]), 0⟩ := by
  obtain ⟨-, -, -, hdescent, -, -⟩ :=
    minimize_descends shouldBeTwo .unit .dogLeg ⟨10, 0⟩
  obtain ⟨-, -, -, -, hkept, -⟩ := minimize_descends shouldBeTwo .unit .bfgs ⟨10, 2⟩
  have hway : shouldBeTwo.way .unit .dogLeg ⟨10, 0⟩ = [([0], 2), ([1], 1 / 2), ([2], 0)] := by
    decide +kernel
  rw [hway] at hdescent
  exact ⟨hdescent, hkept (by decide +kernel)⟩

end Problem

end PlanarSketch
