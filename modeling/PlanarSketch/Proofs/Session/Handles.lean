import PlanarSketch.Proofs.Session.Entries
import PlanarSketch.Proofs.Session.Leftover
import PlanarSketch.Solver.Transcript

/-!
What becomes of the handles of a push. It is watched through a transcript of the solver, which does
the same and tells what was made, called and released. Each handle is released once, at the very
end, on every way out. Until then it stands for the record it was made for, also when the count of
handles wraps: a push makes far fewer of them than there are.
-/

namespace PlanarSketch

open LeastSquares

variable {α : Type}

def Arg.handle? : Arg α → Option Handle
  | .geometry h => some h
  | _ => none

namespace SolverEvent

/-- The handle and the record of a geometry that was made. -/
def made? : SolverEvent α → Option (Handle × Record)
  | made h r => some (h, r)
  | _ => none

def call? : SolverEvent α → Option (Call α)
  | added c => some c
  | _ => none

end SolverEvent

/-- Events in which these geometries are made and these calls tried, and nothing is released. -/
structure Tells (es : List (SolverEvent α)) (made : List (Handle × Record))
    (calls : List (Call α)) : Prop where
  made : es.filterMap SolverEvent.made? = made
  calls : es.filterMap SolverEvent.call? = calls
  unreleased : ∀ h, .released h ∉ es

namespace Tells

variable {es : List (SolverEvent α)} {made : List (Handle × Record)} {calls : List (Call α)}

theorem concat (h : Tells es made calls) {e : SolverEvent α} (he : ∀ k, e ≠ .released k) :
    Tells (es ++ [e]) (made ++ [e].filterMap SolverEvent.made?)
      (calls ++ [e].filterMap SolverEvent.call?) where
  made := by rw [List.filterMap_append, h.made]
  calls := by rw [List.filterMap_append, h.calls]
  unreleased := by
    intro k hk
    rcases List.mem_append.1 hk with hk | hk
    · exact h.unreleased k hk
    · exact he k (List.mem_singleton.1 hk).symm

/-- Most events neither make a geometry nor are calls. -/
theorem skip (h : Tells es made calls) {e : SolverEvent α} (he : ∀ k, e ≠ .released k)
    (hmade : e.made? = none) (hcall : e.call? = none) : Tells (es ++ [e]) made calls := by
  have hskip := h.concat he
  rwa [List.filterMap_cons_none hmade, List.filterMap_cons_none hcall, List.filterMap_nil,
    List.filterMap_nil, List.append_nil, List.append_nil] at hskip

theorem make (h : Tells es made calls) (k : Handle) (r : Record) :
    Tells (es ++ [.made k r]) (made ++ [(k, r)]) calls := by
  have hmake := h.concat (e := .made k r) nofun
  rwa [show [SolverEvent.made (α := α) k r].filterMap SolverEvent.call? = [] from rfl,
    List.append_nil] at hmake

theorem add (h : Tells es made calls) (c : Call α) :
    Tells (es ++ [.added c]) made (calls ++ [c]) := by
  have hadd := h.concat (e := .added c) nofun
  rwa [show [SolverEvent.added c].filterMap SolverEvent.made? = [] from rfl,
    List.append_nil] at hadd

theorem mem_calls (h : Tells es made calls) {c : Call α} (hc : .added c ∈ es) : c ∈ calls := by
  rw [← h.calls]
  exact List.mem_filterMap.2 ⟨_, hc, rfl⟩

end Tells

namespace Transcript

/-- A transcript that refuses nothing of its own, with nothing written down yet. -/
def recording (s : LeastSquares α) : Transcript (LeastSquares α) α :=
  ⟨s, true, ⟨none, none, none, [], .addressOutOfRange 0⟩, []⟩

/-- The transcript does what the solver does. -/
structure Plain (t : Transcript (LeastSquares α) α) : Prop where
  refused : t.script.refused = []
  takesScale : t.takesScale = true

theorem Plain.unlessRefused_eq {β : Type} {t : Transcript (LeastSquares α) α} (h : t.Plain)
    (op : Refusable) (run : LeastSquares α → Except SolverError β × LeastSquares α) :
    t.unlessRefused op run = ((run t.inner).1, { t with inner := (run t.inner).2 }) := by
  rw [unlessRefused, h.refused]
  rfl

variable [Scalar α] [Decompositions α] {t : Transcript (LeastSquares α) α}

theorem Plain.make_eq (h : t.Plain) (r : Record) :
    Solver.make t r = match Solver.make t.inner r with
      | (.ok k, s) => (.ok k, { t with inner := s, events := t.events ++ [.made k r] })
      | (.error e, s) => (.error e, { t with inner := s }) := by
  change Transcript.make t r = _
  rw [Transcript.make, h.unlessRefused_eq]
  rcases Solver.make t.inner r with ⟨e | k, s⟩ <;> rfl

theorem Plain.add_eq (h : t.Plain) (c : Call α) :
    Solver.add t c = ((Solver.add t.inner c).1, { t with
      inner := (Solver.add t.inner c).2
      events := t.events ++ [.added c] }) :=
  Plain.unlessRefused_eq (t := t.note (.added c)) ⟨h.refused, h.takesScale⟩ .add _

theorem Plain.assign_eq (h : t.Plain) (a : Address) (v : α) (fixed : Bool) :
    Solver.assign t a v fixed = ((Solver.assign t.inner a v fixed).1, { t with
      inner := (Solver.assign t.inner a v fixed).2
      events := t.events ++ [.assigned a v fixed] }) :=
  Plain.unlessRefused_eq (t := t.note (.assigned a v fixed)) ⟨h.refused, h.takesScale⟩ .set _

theorem Plain.value_eq (h : t.Plain) (a : Address) : Solver.value t a = Solver.value t.inner a := by
  change (if t.script.refused.contains .get then _ else _) = _
  rw [h.refused]
  rfl

end Transcript

namespace Placement

/-- The placement without the transcript. -/
def inner (pl : Placement (Transcript (LeastSquares α) α)) : Placement (LeastSquares α) :=
  ⟨pl.solver.inner, pl.handles, pl.outputs⟩

/-- The transcript tells which handles have been made, all of them different, and which calls have
been tried. -/
structure Traced (made : List (Handle × Record)) (calls : List (Call α))
    (pl : Placement (Transcript (LeastSquares α) α)) : Prop where
  plain : pl.solver.Plain
  tells : Tells pl.solver.events made calls
  handles : made.map Prod.fst = pl.handles
  nodup : pl.handles.Nodup

/-- Each handle stands for the record that it was made for. -/
structure Logged (first : UInt32) (made : List (Handle × Record))
    (pl : Placement (Transcript (LeastSquares α) α)) : Prop extends Traced made [] pl where
  numbered : Numbered first pl.inner
  live : ∀ m ∈ made, pl.solver.inner.records.find? m.1 = some m.2

theorem Logged.start (s : LeastSquares α) :
    Logged s.nextHandle [] ⟨.recording s, [], []⟩ :=
  ⟨⟨⟨rfl, rfl⟩, ⟨rfl, rfl, nofun⟩, rfl, .nil⟩, .start s, nofun⟩

variable [Scalar α] [Decompositions α] {first : UInt32} {made : List (Handle × Record)}
  {calls : List (Call α)} {pl : Placement (Transcript (LeastSquares α) α)}

theorem place_inner (h : pl.solver.Plain) (driving : Bool) (name : String) (r : Resolved α) :
    pl.inner.place driving name r =
      ((pl.place driving name r).1, (pl.place driving name r).2.inner) := by
  cases r with
  | ready a => rfl
  | literal v => rfl
  | record r =>
      have hsolver : pl.inner.solver = pl.solver.inner := rfl
      rw [Placement.place, Placement.place, h.make_eq, hsolver]
      rcases Solver.make pl.solver.inner r with ⟨e | k, s⟩ <;> rfl

/-- Placing a parameter makes a handle at most, and the transcript tells which. -/
theorem Logged.place (h : Logged first made pl) (hroom : pl.handles.length < UInt32.size)
    (driving : Bool) (name : String) (r : Resolved α) :
    (∃ made', Logged first made' (pl.place driving name r).2) ∧
      (pl.place driving name r).2.handles.length ≤ pl.handles.length + 1 := by
  cases r with
  | ready a => exact ⟨⟨made, h⟩, Nat.le_succ _⟩
  | literal v =>
      obtain ⟨pl', hplace, -, hnum, -⟩ := place_literal driving name v h.numbered
      obtain rfl : _ = pl' := congrArg Prod.snd hplace
      have htells := h.tells.skip (e := .pushed (Solver.size pl.solver.inner) v driving) nofun
        rfl rfl
      refine ⟨⟨made, ⟨?_, htells, h.handles, h.nodup⟩, hnum, h.live⟩, Nat.le_succ _⟩
      exact ⟨h.plain.refused, h.plain.takesScale⟩
  | record r =>
      rcases make_cases pl.solver.inner r with ⟨a, -, -, hmake⟩ | ⟨hr, hmake⟩
      · rw [Placement.place, h.plain.make_eq, hmake]
        exact ⟨⟨made, h⟩, Nat.le_succ _⟩
      · obtain ⟨k, pl', hplace, -, hnum, -⟩ := place_record driving name r h.numbered hroom hr
        obtain rfl : _ = pl' := (congrArg Prod.snd (place_inner h.plain driving name _)).symm.trans
          (congrArg Prod.snd hplace)
        have hfresh : ⟨pl.solver.inner.nextHandle⟩ ∉ pl.handles := h.numbered.fresh hroom
        rw [Placement.place, h.plain.make_eq, hmake] at hnum ⊢
        refine ⟨⟨made ++ [(⟨pl.solver.inner.nextHandle⟩, r)],
          ⟨⟨h.plain.refused, h.plain.takesScale⟩, h.tells.make _ r, ?_, ?_⟩, hnum, ?_⟩, ?_⟩
        · rw [List.map_append, h.handles]
          rfl
        · exact List.Nodup.append h.nodup (List.nodup_singleton _)
            (List.disjoint_singleton.2 hfresh)
        · intro m hm
          rw [Table.find?_insert]
          rcases List.mem_append.1 hm with hm | hm
          · -- a handle that was made before is another one
            have hmem : m.1 ∈ pl.handles := h.handles ▸ List.mem_map_of_mem hm
            have hne : m.1 ≠ ⟨pl.solver.inner.nextHandle⟩ := fun heq => hfresh (heq ▸ hmem)
            rw [if_neg hne]
            exact h.live m hm
          · rw [List.mem_singleton.1 hm, if_pos rfl]
        · exact Nat.le_of_eq List.length_append

theorem Logged.placeAll (h : Logged first made pl) (x : Index α) (al : Allocator)
    (c : Constraint α) (tag : Int) (ps : List ParamSpec)
    (hroom : pl.handles.length + ps.length ≤ UInt32.size) :
    (∃ made', Logged first made' (Placement.placeAll x al c tag ps pl).2) ∧
      Placement.placeAll x al c tag ps pl.inner =
        ((Placement.placeAll x al c tag ps pl).1,
          (Placement.placeAll x al c tag ps pl).2.inner) := by
  -- along the schema, with room for a handle for each parameter that is left
  induction ps generalizing pl made with
  | nil => exact ⟨⟨made, h⟩, rfl⟩
  | cons p ps ih =>
      rw [List.length_cons] at hroom
      rw [Placement.placeAll, Placement.placeAll]
      cases c.resolve x al tag p with
      | error e => exact ⟨⟨made, h⟩, rfl⟩
      | ok r =>
          have hinner := place_inner h.plain c.isDriving p.name r
          obtain ⟨⟨made', hplaced⟩, hlength⟩ := h.place (by omega) c.isDriving p.name r
          dsimp only
          rw [hinner]
          rcases hplace : pl.place c.isDriving p.name r with ⟨e | a, pl'⟩ <;>
            rw [hplace] at hplaced hlength
          · exact ⟨⟨made', hplaced⟩, rfl⟩
          · have hlength : pl'.handles.length ≤ pl.handles.length + 1 := hlength
            obtain ⟨hrest, hall⟩ := ih hplaced (by omega)
            dsimp only
            rw [hall]
            rcases hcase : Placement.placeAll x al c tag ps pl' with ⟨e | as, pl''⟩ <;>
              rw [hcase] at hrest <;> exact ⟨hrest, rfl⟩

theorem Traced.call (h : Traced made calls pl) (c : Constraint α) (args : List (Arg α)) :
    Traced made (calls ++ [⟨c.kind, args ++ [.scale c.scaleOrDefault]⟩]) (pl.call c args).2 ∧
      pl.inner.call c args = ((pl.call c args).1, (pl.call c args).2.inner) := by
  have hscale : Solver.takesScale pl.solver = true := h.plain.takesScale
  have hscale' : Solver.takesScale pl.inner.solver = true := rfl
  have hadd := h.plain.add_eq ⟨c.kind, args ++ [.scale c.scaleOrDefault]⟩
  have htells := h.tells.add ⟨c.kind, args ++ [.scale c.scaleOrDefault]⟩
  simp only [Placement.call, hscale, hscale', if_true, hadd]
  rw [show pl.inner.solver = pl.solver.inner from rfl]
  generalize Solver.add pl.solver.inner ⟨c.kind, args ++ [.scale c.scaleOrDefault]⟩ = out
  rcases out with ⟨e | u, s⟩ <;>
    exact ⟨⟨⟨h.plain.refused, h.plain.takesScale⟩, htells, h.handles, h.nodup⟩, rfl⟩

theorem Traced.pin (h : Traced made calls pl) (a : Address) :
    Traced made calls { pl with solver := Placement.pin pl.solver a } ∧
      Placement.pin pl.solver.inner a = (Placement.pin pl.solver a).inner := by
  rw [Placement.pin, Placement.pin, h.plain.value_eq]
  cases Solver.value pl.solver.inner a with
  | error e => exact ⟨h, rfl⟩
  | ok v =>
      have htells := h.tells.skip (e := .assigned a v true) (by rintro k ⟨⟩) rfl rfl
      dsimp only
      rw [h.plain.assign_eq]
      exact ⟨⟨⟨h.plain.refused, h.plain.takesScale⟩, htells, h.handles, h.nodup⟩, rfl⟩

theorem Traced.pinAll (h : Traced made calls pl) :
    Traced made calls pl.pinAll ∧ pl.inner.pinAll = pl.pinAll.inner := by
  obtain ⟨s, hs, outputs⟩ := pl
  have hfold : ∀ (os : Outputs) (s : Transcript (LeastSquares α) α),
      Traced made calls ⟨s, hs, outputs⟩ →
      Traced made calls ⟨os.foldl (fun s o => Placement.pin s o.2) s, hs, outputs⟩ ∧
        os.foldl (fun s o => Placement.pin s o.2) s.inner =
          (os.foldl (fun s o => Placement.pin s o.2) s).inner := by
    intro os
    induction os with
    | nil => exact fun s h => ⟨h, rfl⟩
    | cons o os ih =>
        intro s h
        obtain ⟨htraced, hinner⟩ := h.pin o.2
        rw [List.foldl_cons, List.foldl_cons, hinner]
        exact ih _ htraced
  obtain ⟨htraced, hinner⟩ := hfold outputs s h
  exact ⟨htraced, congrArg (Placement.mk · hs outputs) hinner⟩

theorem close_recording (pl : Placement (Transcript (LeastSquares α) α)) :
    pl.close.events = pl.solver.events ++ pl.handles.map .released ∧
      pl.inner.close = pl.close.inner := by
  obtain ⟨s, hs, outputs⟩ := pl
  simp only [inner, close]
  induction hs generalizing s with
  | nil => exact ⟨(List.append_nil _).symm, rfl⟩
  | cons h hs ih =>
      obtain ⟨hevents, hinner⟩ := ih (Solver.release s h)
      refine ⟨hevents.trans ?_, hinner⟩
      exact List.append_assoc s.events [.released h] _

variable {x : Index α} {al : Allocator} {c : Constraint α} {tag : Int}

omit [Decompositions α] in
/-- A placement takes on the handle of a parameter, if it has one. -/
theorem place_handles {σ : Type} [Solver σ α] {pl pl' : Placement σ} {p : ParamSpec}
    {r : Resolved α} {a : Arg α} (hr : c.resolve x al tag p = .ok r)
    (hplace : pl.place c.isDriving p.name r = (.ok a, pl')) :
    pl'.handles = pl.handles ++ a.handle?.toList := by
  cases r with
  | literal v =>
      cases hplace
      exact (List.append_nil _).symm
  | ready b =>
      cases hplace
      have hnone : a.handle? = none := by
        cases Constraint.resolves_of_ok hr <;> rfl
      rw [hnone]
      exact (List.append_nil _).symm
  | record r =>
      rw [place] at hplace
      rcases hmake : Solver.make pl.solver r with ⟨e | k, s⟩ <;> rw [hmake] at hplace <;>
        cases hplace
      rfl

omit [Decompositions α] in
theorem placeAll_handles {σ : Type} [Solver σ α] {pl pl' : Placement σ} {ps : List ParamSpec}
    {as : List (Arg α)} (hall : placeAll x al c tag ps pl = (.ok as, pl')) :
    pl'.handles = pl.handles ++ as.filterMap Arg.handle? := by
  induction ps generalizing pl as with
  | nil =>
      cases hall
      exact (List.append_nil _).symm
  | cons p ps ih =>
      rw [placeAll] at hall
      cases hr : c.resolve x al tag p with
      | error e =>
          rw [hr] at hall
          cases hall
      | ok r =>
          rw [hr] at hall
          dsimp only at hall
          rcases hplace : pl.place c.isDriving p.name r with ⟨e | a, pl₁⟩ <;> rw [hplace] at hall
          · cases hall
          · dsimp only at hall
            rcases hrest : placeAll x al c tag ps pl₁ with ⟨e | as', pl₂⟩ <;>
              rw [hrest] at hall <;> cases hall
            rw [ih hrest, place_handles hr hplace, List.append_assoc, List.filterMap_cons]
            cases a.handle? <;> rfl

end Placement

/-- The arguments of a call, where every handle is one of its own and stands for the record that
its parameter resolves to. -/
structure Constraint.Arranged [Scalar α] [Decompositions α] (x : Index α) (al : Allocator)
    (c : Constraint α) (tag : Int) (s : LeastSquares α) (made : List (Handle × Record)) (as : List (Arg α))
    (pl : Placement (LeastSquares α)) : Prop where
  placed : Placement.placeAll x al c tag c.kind.schema ⟨s, [], []⟩ = (.ok as, pl)
  handles : as.filterMap Arg.handle? = made.map Prod.fst
  records : List.Forall₂ (fun p a => ∀ k, a = .geometry k →
    ∃ r, c.resolve x al tag p = .ok (.record r) ∧ (k, r) ∈ made ∧
      pl.solver.records.find? k = some r) c.kind.schema as

/-- What a push of a constraint does with handles, as the transcript tells it. Whatever is made is
released at the end, and a call finds the records of all its handles. -/
structure Constraint.Handled [Scalar α] [Decompositions α] (x : Index α) (al : Allocator)
    (c : Constraint α) (tag : Int) (s : LeastSquares α) (es : List (SolverEvent α)) : Prop where
  released : ∃ before, es = before ++
      (es.filterMap SolverEvent.made?).map (fun m => .released m.1) ∧ ∀ h, .released h ∉ before
  distinct : ((es.filterMap SolverEvent.made?).map Prod.fst).Nodup
  arranged : ∀ call, .added call ∈ es → ∃ as pl,
    call = ⟨c.kind, as ++ [.scale c.scaleOrDefault]⟩ ∧
      c.Arranged x al tag s (es.filterMap SolverEvent.made?) as pl

section

variable [Scalar α] {x : Index α} {al : Allocator} {c : Constraint α} {tag : Int}
  {s : LeastSquares α} {made : List (Handle × Record)} {calls : List (Call α)}
  {pl : Placement (Transcript (LeastSquares α) α)}

namespace Placement

variable [Decompositions α]

theorem Logged.arranged (h : Logged s.nextHandle made pl) {as : List (Arg α)}
    (hall : Placement.placeAll x al c tag c.kind.schema ⟨s, [], []⟩ = (.ok as, pl.inner)) :
    c.Arranged x al tag s made as pl.inner := by
  have hroom : ([] : List Handle).length + c.kind.schema.length ≤ UInt32.size := by
    cases c.kind <;> decide
  refine ⟨hall, (placeAll_handles hall).symm.trans h.handles.symm, ?_⟩
  obtain ⟨-, pl', -, ⟨rs, as', hall', hrs, has, -⟩ | ⟨e, hall', -⟩⟩ :=
    placeAll_cases x al c tag c.kind.schema (Numbered.start s) hroom
  · cases hall.symm.trans hall'
    refine (forall₂_comp hrs has).imp fun p a ⟨r, hr, ha⟩ k hk => ?_
    subst hk
    cases r with
    | literal v => exact ha.elim
    | ready b =>
        obtain rfl : .geometry k = b := ha
        cases Constraint.resolves_of_ok hr
    | record r =>
        have hmem : k ∈ made.map Prod.fst := h.handles ▸ ha.1
        obtain ⟨⟨k', r'⟩, hm, rfl⟩ := List.mem_map.1 hmem
        obtain rfl : r' = r := Option.some.inj ((h.live _ hm).symm.trans ha.2)
        exact ⟨r', hr, hm, ha.2⟩
  · cases hall.symm.trans hall'

theorem Traced.handled_close (h : pl.Traced made calls)
    (hcalls : ∀ call ∈ calls, ∃ as pl',
      call = ⟨c.kind, as ++ [.scale c.scaleOrDefault]⟩ ∧ c.Arranged x al tag s made as pl') :
    c.Handled x al tag s pl.close.events := by
  obtain ⟨hevents, -⟩ := close_recording pl
  rw [← h.handles, List.map_map] at hevents
  have hmade : pl.close.events.filterMap SolverEvent.made? = made := by
    have hreleased : (made.map (SolverEvent.released (α := α) ∘ Prod.fst)).filterMap
        SolverEvent.made? = [] := by
      rw [List.filterMap_eq_nil_iff]
      intro e he
      obtain ⟨m, -, rfl⟩ := List.mem_map.1 he
      rfl
    rw [hevents, List.filterMap_append, h.tells.made, hreleased, List.append_nil]
  refine ⟨⟨_, hmade.symm ▸ hevents, h.tells.unreleased⟩, ?_, ?_⟩
  · rw [hmade, h.handles]
    exact h.nodup
  · intro call hcall
    rw [hevents] at hcall
    rw [hmade]
    refine hcalls call (h.tells.mem_calls ((List.mem_append.1 hcall).resolve_right fun hno => ?_))
    obtain ⟨m, -, hm⟩ := List.mem_map.1 hno
    cases hm

end Placement

namespace Constraint

variable [Decompositions α]

theorem Handled.of_nil : c.Handled x al tag s [] :=
  ⟨⟨[], rfl, nofun⟩, .nil, nofun⟩

open Placement in
/-- The transcript goes through a push as the solver does, and tells what becomes of the
handles. -/
theorem push_recording (x : Index α) (al : Allocator) (s : LeastSquares α) (c : Constraint α)
    (tag : Int) :
    c.push x al s tag = ((c.push x al (Transcript.recording s) tag).1,
        (c.push x al (Transcript.recording s) tag).2.inner) ∧
      c.Handled x al tag s (c.push x al (Transcript.recording s) tag).2.events := by
  have hroom : ([] : List Handle).length + c.kind.schema.length ≤ UInt32.size := by
    cases c.kind <;> decide
  obtain ⟨⟨made, hlog⟩, hall⟩ := (Logged.start s).placeAll x al c tag c.kind.schema hroom
  have hall : placeAll x al c tag c.kind.schema ⟨s, [], []⟩ = _ := hall
  unfold Constraint.push
  rw [hall]
  rcases hcase : placeAll x al c tag c.kind.schema ⟨Transcript.recording s, [], []⟩ with
    ⟨e | as, pl⟩ <;> rw [hcase] at hlog hall <;> dsimp only at hlog ⊢
  · obtain ⟨htraced, hpin⟩ := hlog.toTraced.pinAll
    rw [hpin, (close_recording _).2]
    exact ⟨rfl, htraced.handled_close nofun⟩
  · obtain ⟨hcalled, hcall⟩ := hlog.toTraced.call c as
    have hcalls : ∀ call ∈ [(⟨c.kind, as ++ [.scale c.scaleOrDefault]⟩ : Call α)], ∃ as' pl',
        call = ⟨c.kind, as' ++ [.scale c.scaleOrDefault]⟩ ∧ c.Arranged x al tag s made as' pl' :=
      fun call hmem => ⟨as, pl.inner, List.mem_singleton.1 hmem, hlog.arranged hall⟩
    rw [hcall]
    rcases hcase' : pl.call c as with ⟨e | u, pl'⟩ <;> rw [hcase'] at hcalled
    · obtain ⟨htraced, hpin⟩ := hcalled.pinAll
      dsimp only
      rw [hpin, (close_recording _).2]
      exact ⟨rfl, htraced.handled_close hcalls⟩
    · dsimp only
      rw [(close_recording _).2]
      exact ⟨rfl, hcalled.handled_close hcalls⟩

end Constraint

end

namespace Session

/-- The session with its handles counted from here. -/
def countFrom (s : Session (LeastSquares α) α) (first : UInt32) : Session (LeastSquares α) α :=
  { s with solver := { s.solver with nextHandle := first } }

def recorded (s : Session (LeastSquares α) α) : Session (Transcript (LeastSquares α) α) α :=
  { s with solver := Transcript.recording s.solver }

def unrecorded (s : Session (Transcript (LeastSquares α) α) α) : Session (LeastSquares α) α :=
  { s with solver := s.solver.inner }

variable {s : Session (LeastSquares α) α}

theorem unrecorded_store (s : Session (Transcript (LeastSquares α) α) α) (p : Primitive α) :
    s.unrecorded.store p = ((s.store p).1, (s.store p).2.unrecorded) := by
  unfold store
  rw [show s.unrecorded.index = s.index from rfl]
  cases s.index.set p <;> rfl

variable [Scalar α] [Decompositions α]

theorem push_recorded (s : Session (LeastSquares α) α) (c : Constraint α) :
    s.push (.constraint c) = ((s.recorded.push (.constraint c)).1,
        (s.recorded.push (.constraint c)).2.unrecorded) ∧
      c.Handled s.index s.allocator c.id.val.toNat s.solver
        (s.recorded.push (.constraint c)).2.solver.events := by
  unfold push
  rw [show s.recorded.index = s.index from rfl]
  split
  · exact ⟨rfl, .of_nil⟩
  split
  · exact ⟨rfl, .of_nil⟩
  simp only [pushConstraint]
  cases htag : c.id.tag with
  | error e => exact ⟨rfl, .of_nil⟩
  | ok tag =>
      obtain ⟨-, rfl⟩ := Oid.tag_eq_ok.1 htag
      obtain ⟨hpush, hhandled⟩ :=
        Constraint.push_recording s.index s.allocator s.solver c c.id.val.toNat
      rw [show s.recorded.index = s.index from rfl,
        show s.recorded.allocator = s.allocator from rfl,
        show s.recorded.solver = .recording s.solver from rfl]
      dsimp only
      rw [hpush]
      rcases hcase : c.push s.index s.allocator (Transcript.recording s.solver) c.id.val.toNat with
        ⟨e | outputs, solver⟩ <;> rw [hcase] at hhandled
      · exact ⟨rfl, hhandled⟩
      · dsimp only
        rw [← unrecorded_store, solver_store]
        exact ⟨rfl, hhandled⟩

theorem pushExtra_recorded (s : Session (LeastSquares α) α) (c : Constraint α) :
    s.pushExtra c = ((s.recorded.pushExtra c).1, (s.recorded.pushExtra c).2.unrecorded) ∧
      c.Handled s.index s.allocator extraTag s.solver
        (s.recorded.pushExtra c).2.solver.events := by
  unfold pushExtra
  split
  · obtain ⟨hpush, hhandled⟩ :=
      Constraint.push_recording s.index s.allocator s.solver c extraTag
    rw [show s.recorded.index = s.index from rfl, show s.recorded.allocator = s.allocator from rfl,
      show s.recorded.solver = .recording s.solver from rfl, hpush]
    rcases hcase : c.push s.index s.allocator (Transcript.recording s.solver) extraTag with
      ⟨e | outputs, solver⟩ <;> rw [hcase] at hhandled <;> exact ⟨rfl, hhandled⟩
  · exact ⟨rfl, .of_nil⟩

/-- Between two calls no handle is live. Wherever the count of handles stands, a push of a
constraint releases each handle that it makes, once and after all else, and hands over each for the
record that it was made for. -/
theorem Reachable.handled (h : Reachable s) (first : UInt32) (c : Constraint α) :
    s.solver.records = .empty ∧
    ((s.countFrom first).push (.constraint c) =
        (((s.countFrom first).recorded.push (.constraint c)).1,
          ((s.countFrom first).recorded.push (.constraint c)).2.unrecorded) ∧
      c.Handled s.index s.allocator c.id.val.toNat (s.countFrom first).solver
        ((s.countFrom first).recorded.push (.constraint c)).2.solver.events) ∧
    ((s.countFrom first).pushExtra c = (((s.countFrom first).recorded.pushExtra c).1,
        ((s.countFrom first).recorded.pushExtra c).2.unrecorded) ∧
      c.Handled s.index s.allocator extraTag (s.countFrom first).solver
        ((s.countFrom first).recorded.pushExtra c).2.solver.events) :=
  ⟨h.records, push_recorded (s.countFrom first) c, pushExtra_recorded (s.countFrom first) c⟩

/-- The count wraps between the handles of two points. -/
theorem handled_measuredDistance :
    (((smallSession.countFrom 4294967295).recorded.push
        (.constraint measuredDistance)).2.solver.events.filterMap SolverEvent.made?).map Prod.fst =
      [⟨4294967295⟩, ⟨0⟩] ∧
    ((smallSession.countFrom 4294967295).push (.constraint measuredDistance)).1 = .ok () ∧
    measuredDistance.Handled smallSession.index smallSession.allocator 7
      (smallSession.countFrom 4294967295).solver
      ((smallSession.countFrom 4294967295).recorded.push
        (.constraint measuredDistance)).2.solver.events :=
  ⟨by decide +kernel, rfl,
    (reachable_smallSession.handled 4294967295 measuredDistance).2.1.2⟩

end Session

end PlanarSketch
