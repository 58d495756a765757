import Mathlib.Logic.Relation
import PlanarSketch.Proofs.LeastSquares.Operands
import PlanarSketch.Proofs.Session.Placement

/-!
How a push of a constraint can end. Placing its parameters comes to a stop, or the solver rejects
an argument, or one entry is added whose operands come from the parameters in schema order.
-/

namespace PlanarSketch

open LeastSquares

variable {α : Type} [Scalar α]

theorem forall₂_comp {β γ δ : Type} {R : β → γ → Prop} {Q : γ → δ → Prop} {l : List β}
    {u : List γ} {v : List δ} (h : List.Forall₂ R l u) (h' : List.Forall₂ Q u v) :
    List.Forall₂ (Relation.Comp R Q) l v := by
  induction h generalizing v with
  | nil =>
      cases h'
      exact .nil
  | cons hbc _ ih =>
      cases h' with
      | cons hcd hrest => exact .cons ⟨_, hbc, hcd⟩ (ih hrest)

/-- The entry is that of a constraint with this tag. -/
structure Entry.Stores (e : Entry α) (tag : Int) (c : Constraint α) : Prop where
  tag : e.tag = tag
  driving : e.driving = c.isDriving
  scale : e.scale = c.scaleOrDefault
  equation : ∃ os, Equation.ofOperands? c.kind os = some e.equation

namespace Constraint

/-- The argument stands for what the parameter resolves to. -/
def Supplies (x : Index α) (al : Allocator) (c : Constraint α) (tag : Int)
    (pl : Placement (LeastSquares α)) : ParamSpec → Arg α → Prop :=
  Relation.Comp (fun p r => c.resolve x al tag p = .ok r) (Placement.Fits pl)

variable {x : Index α} {al : Allocator} {c : Constraint α} {tag : Int}
  {pl : Placement (LeastSquares α)}

theorem yields_tag {t : Int}
    (h : pl.solver.scope.Yields c.kind (c.Supplies x al tag pl) ⟨"tagId", .tag⟩ (.tag t)) :
    t = tag := by
  obtain ⟨a, i, ⟨r, hr, ha⟩, ho⟩ := h
  cases hr
  obtain rfl : a = .tag tag := ha
  cases ho
  rfl

theorem yields_driving {d : Bool}
    (h : pl.solver.scope.Yields c.kind (c.Supplies x al tag pl) ⟨"driving", .driving⟩
      (.driving d)) : d = c.isDriving := by
  obtain ⟨a, i, ⟨r, hr, ha⟩, ho⟩ := h
  cases hr
  obtain rfl : a = .bool c.isDriving := ha
  cases ho
  rfl

variable [Decompositions α]

open Placement in
theorem push_outcome (x : Index α) (al : Allocator) (s : LeastSquares α) (c : Constraint α)
    (tag : Int) :
    ∃ literals pl, Continues c.isDriving ⟨s, [], []⟩ literals pl ∧
      ((∃ e, c.push x al s tag = (.error e, pl.pinAll.close) ∧
        Stops x al c tag s.size e c.kind.schema) ∨
      (∀ p ∈ c.kind.schema, ∃ r, c.resolve x al tag p = .ok r) ∧
        ((∃ e, c.push x al s tag = (.error (.solver e), pl.pinAll.close) ∧
          pl.solver.scope.Rejects c.kind (c.Supplies x al tag pl) e 0 c.kind.schema) ∨
        ∃ os eq, c.push x al s tag = (.ok pl.outputs, { pl.close with
            entries := pl.solver.entries ++ [⟨tag, c.isDriving, c.scaleOrDefault, eq,
              List.range' s.size literals.length⟩] }) ∧
          literals.map Prod.fst = c.literalNames ∧
          List.Forall₂ (pl.solver.scope.Yields c.kind (c.Supplies x al tag pl))
            c.kind.userParams os ∧
          Equation.ofOperands? c.kind os = some eq)) := by
  obtain ⟨literals, pl, hcont, hrest⟩ := push_cases x al s c tag
  refine ⟨literals, pl, hcont, ?_⟩
  rcases hrest with hstop | ⟨rs, as, hrs, has, hdatums, hnames, hcall⟩
  · exact .inl hstop
  · have hresolve : ∀ p ∈ c.kind.schema, ∃ r, c.resolve x al tag p = .ok r :=
      forall₂_right hrs.flip fun r _ _ hr => ⟨r, hr⟩
    refine .inr ⟨hresolve, ?_⟩
    have hsupplies : List.Forall₂ (c.Supplies x al tag pl) c.kind.schema as :=
      forall₂_comp hrs has
    rcases Entry.ofCall_cases (s := pl.solver.scope) (some c.scaleOrDefault) hsupplies with
      ⟨e, he, hrej⟩ | ⟨os, t, d, eq, he, hos, heq, ht, hd⟩
    · rcases hcall with ⟨e', hpush, he'⟩ | ⟨entry, -, hentry⟩
      · cases he.symm.trans he'
        exact .inl ⟨e, hpush, hrej⟩
      · cases he.symm.trans hentry
    · rcases hcall with ⟨e', -, he'⟩ | ⟨entry, hpush, hentry⟩
      · cases he.symm.trans he'
      · cases he.symm.trans hentry
        rw [yields_tag ht, yields_driving hd, hdatums] at hpush
        exact .inr ⟨os, eq, hpush, hnames, hos, heq⟩

/-- A push that fails leaves nothing but fixed scalars. -/
theorem push_error {s t : LeastSquares α} {e : SketchError}
    (h : c.push x al s tag = (.error e, t)) :
    ∃ vs : List α, s.Grown (vs.map fun v => ⟨v, true⟩) [] t := by
  obtain ⟨literals, pl, hcont, hrest⟩ := c.push_outcome x al s tag
  have hgrown := hcont.grown_pinAll
  refine ⟨literals.map Prod.snd, ?_⟩
  rw [List.map_map]
  rcases hrest with ⟨e', hpush, -⟩ | ⟨-, ⟨e', hpush, -⟩ | ⟨os, eq, hpush, -⟩⟩
  · cases h.symm.trans hpush
    exact hgrown
  · cases h.symm.trans hpush
    exact hgrown
  · cases h.symm.trans hpush

/-- The solver `t` is `s` with the entry of a constraint and its datums, which are the outputs of a
constraint that only measures. -/
structure Enters (c : Constraint α) (tag : Int) (s : LeastSquares α) (e : Entry α)
    (outputs : Outputs) (t : LeastSquares α) : Prop where
  stores : e.Stores tag c
  grown : ∃ vs : List α, s.Grown (vs.map fun v => ⟨v, c.isDriving⟩) [e] t ∧
    e.datums = List.range' s.size vs.length
  names : outputs.map Prod.fst = if c.isDriving then [] else c.literalNames
  addresses : outputs.map Prod.snd = if c.isDriving then [] else e.datums

theorem push_ok {s t : LeastSquares α} {outputs : Outputs}
    (h : c.push x al s tag = (.ok outputs, t)) : ∃ e, c.Enters tag s e outputs t := by
  obtain ⟨literals, pl, hcont, hrest⟩ := c.push_outcome x al s tag
  have hgrown := hcont.grown_close
  rcases hrest with ⟨e', hpush, -⟩ | ⟨-, ⟨e', hpush, -⟩ | ⟨os, eq, hpush, hnames, -, heq⟩⟩
  · cases h.symm.trans hpush
  · cases h.symm.trans hpush
  · cases h.symm.trans hpush
    have hentries : pl.solver.entries = s.entries := by
      rw [hcont.grown.entries, List.append_nil]
    refine ⟨⟨tag, c.isDriving, c.scaleOrDefault, eq, List.range' s.size literals.length⟩,
      ⟨rfl, rfl, rfl, os, heq⟩, ⟨literals.map Prod.snd, ?_, by rw [List.length_map]⟩, ?_,
      hcont.output_addresses⟩
    · rw [List.map_map]
      exact ⟨hgrown.cells, congrArg (· ++ _) hentries, hgrown.pending, hgrown.config,
        hgrown.diagnosis⟩
    · rw [hcont.output_names, hnames]

omit [Decompositions α] in
theorem Enters.annexed {s t : LeastSquares α} {e : Entry α} {outputs : Outputs}
    (h : c.Enters tag s e outputs t) : s.Annexed t := by
  obtain ⟨vs, hgrown, hdatums⟩ := h.grown
  exact .of_entry (f := fun v : α => v) hgrown h.stores.driving hdatums

end Constraint

end PlanarSketch
