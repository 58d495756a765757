import PlanarSketch.Proofs.LeastSquares.Fit

/-!
Points of the search space against arrays of scalars. To start, the unknowns are gathered into a
point; to look at a point, it is scattered over the scalars again. The two are inverse to each other,
so a point is told by the scalars that it gives. A solve scatters twice, the outputs over the scalars
that the unknowns have been scattered over, and keeps only which address gets which value. That is
enough: written into the scalars of the solver, it makes them what the second expansion is.
-/

namespace PlanarSketch

variable {α : Type} [Scalar α]

namespace System

variable {s : System α} {x y : Vec α} {values values' : Array α} {a i : Nat}

theorem getElem?_eq_read (h : a < values.size) : values[a]? = some (read values a) := by
  rw [read, Array.getD_eq_getD_getElem?, Array.getElem?_eq_getElem h, Option.getD_some]

theorem getElem?_congr_read (hsize : values.size = values'.size)
    (hread : read values a = read values' a) : values[a]? = values'[a]? := by
  obtain hlt | hge := Nat.lt_or_ge a values.size
  · rw [getElem?_eq_read hlt, getElem?_eq_read (hsize ▸ hlt), hread]
  · rw [Array.getElem?_eq_none hge, Array.getElem?_eq_none (hsize ▸ hge)]

/-- Arrays of one size are told apart by what is read from them. -/
theorem ext_read (hsize : values.size = values'.size)
    (hread : ∀ a, read values a = read values' a) : values = values' :=
  Array.ext_getElem? fun a => getElem?_congr_read hsize (hread a)

theorem getElem?_expand_of_not_mem (x : Vec α) (h : a ∉ s.unknowns) :
    (s.expand x)[a]? = s.values[a]? :=
  getElem?_congr_read (size_expand s x) (read_expand_of_not_mem x h)

namespace Proper

theorem getElem?_expand (h : s.Proper) (hx : x.length = s.unknowns.length)
    (hi : s.unknowns[i]? = some a) : (s.expand x)[a]? = x[i]? := by
  have hlt : a < (s.expand x).size := by
    rw [size_expand]
    exact h.lt a (List.mem_of_getElem? hi)
  calc (s.expand x)[a]? = some (read (s.expand x) a) := getElem?_eq_read hlt
    _ = (s.unknowns.map (read (s.expand x)))[i]? := by rw [List.getElem?_map, hi, Option.map_some]
    _ = x[i]? := by rw [h.map_read_expand hx]

theorem expand_start (h : s.Proper) : s.expand s.start = s.values :=
  ext_read (size_expand s s.start) h.read_expand_start

theorem expand_inj (h : s.Proper) (hx : x.length = s.unknowns.length)
    (hy : y.length = s.unknowns.length) (heq : s.expand x = s.expand y) : x = y := by
  rw [← h.map_read_expand hx, heq, h.map_read_expand hy]

end Proper

end System

namespace LeastSquares

variable [Decompositions α]

theorem values_settled (s : LeastSquares α) (algorithm : Algorithm) :
    (s.settled algorithm).values = s.solution algorithm := by
  refine System.ext_read ?_ (congrFun (s.read_settled_eq_solution algorithm))
  rw [size_values, size_solution]
  exact size_applySolution _

theorem proper_measuringAt (s : LeastSquares α) (algorithm : Algorithm) :
    (s.measuringAt algorithm).Proper :=
  s.proper_measuringSystem ((System.size_expand ..).trans s.size_values)

end LeastSquares

variable [Decompositions α]

/-- The start of a system expands to its own scalars. A point puts its coordinates in the places of
the unknowns and leaves the rest, so no other point has the same expansion. Both systems of a solve
are of that kind; the solve keeps a value for each unknown and each output, and with these written
the scalars of the solver are those of the second expansion, which is over the first. -/
theorem expansions_restored :
    (∀ s : System α, s.Proper →
      s.expand s.start = s.values ∧
      ∀ x : Vec α, x.length = s.unknowns.length →
        (∀ (i a : Nat), s.unknowns[i]? = some a → (s.expand x)[a]? = x[i]?) ∧
        (∀ a, a ∉ s.unknowns → (s.expand x)[a]? = s.values[a]?) ∧
        ∀ y : Vec α, y.length = s.unknowns.length → s.expand x = s.expand y → x = y) ∧
    ∀ (s : LeastSquares α) (algorithm : Algorithm),
      let first := s.drivingSystem.expand (s.descend algorithm).x
      let second := (s.measuringSystem first).expand (s.fit algorithm).x
      let t := (s.solve algorithm).2
      (s.drivingSystem.Proper ∧ (s.measuringSystem first).Proper) ∧
      t.values = s.values ∧
      t.pending = some ((s.unknowns ++ s.outputs).map fun a => (a, System.read second a)) ∧
      t.applySolution.values = second := by
  refine ⟨fun s hs => ⟨hs.expand_start, fun x hx => ⟨?_, ?_, ?_⟩⟩, ?_⟩
  · exact fun i a hi => hs.getElem?_expand hx hi
  · exact fun a ha => System.getElem?_expand_of_not_mem x ha
  · exact fun y hy heq => hs.expand_inj hx hy heq
  · intro s algorithm first second t
    have hsolution : s.solution algorithm = second := s.solution_eq_fit algorithm
    refine ⟨⟨s.proper_drivingSystem, s.proper_measuringAt algorithm⟩, rfl, ?_, ?_⟩
    · rw [← hsolution]
      rfl
    · rw [← hsolution]
      exact s.values_settled algorithm

/-- The first unknown is behind the second, and a scalar between them stays. -/
theorem expand_threeScalars :
    let s : System ℚ := ⟨#[5, 7, 9], [2, 0], []⟩
    s.Proper ∧ s.expand s.start = #[5, 7, 9] ∧ (s.expand [1, 3])[2]? = some 1 ∧
      (s.expand [1, 3])[0]? = some 3 ∧ (s.expand [1, 3])[1]? = some 7 ∧
      ∀ y : Vec ℚ, y.length = 2 → s.expand [1, 3] = s.expand y → [1, 3] = y := by
  intro s
  have hs : s.Proper := ⟨by decide, by decide⟩
  obtain ⟨hstart, hpoint⟩ := expansions_restored.1 s hs
  obtain ⟨hunknowns, hothers, hinj⟩ := hpoint [1, 3] rfl
  exact ⟨hs, hstart, hunknowns 0 2 rfl, hunknowns 1 0 rfl, hothers 1 (by decide), hinj⟩

end PlanarSketch
