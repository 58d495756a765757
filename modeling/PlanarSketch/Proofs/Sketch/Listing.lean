import PlanarSketch.Proofs.Tables

/-!
The index of a sketch as an ordered association list. A `Listing` is edited at one place: its
steps say where this place is and leave what stands before and after. An index can also be kept in
two stores, the primitives in a map without order and the order in a list of ids; all edits then
have to change both, and a listing is what keeps them together.
-/

namespace PlanarSketch

variable {α : Type}

/-- What is done to the index of a sketch. -/
inductive Edit (α : Type) where
  | set (p : Primitive α)
  | overwrite (id : Oid) (p : Primitive α)
  | delete (id : Oid)
  | clear

/-- Edits one after the other, with their answers; one that fails is the last. -/
def Edit.performAll {σ : Type} (perform : Edit α → σ → Except SketchError (Option Bool × σ)) :
    List (Edit α) → σ → Except SketchError (List (Option Bool) × σ)
  | [], s => .ok ([], s)
  | e :: es, s => do
      let (answer, s) ← perform e s
      let (answers, s) ← performAll perform es s
      return (answer :: answers, s)

/-! ### Ordered association lists -/

abbrev Listing (α : Type) := List (Oid × Primitive α)

namespace Listing

/-- An edit with its answer, and how many ids it brings in. -/
inductive Step : Listing α → Edit α → Option Bool → Nat → Listing α → Prop where
  | append {l p} (absent : ∀ e ∈ l, e.1 ≠ p.id) : Step l (.set p) none 1 (l ++ [(p.id, p)])
  | replace {before p q after} :
      Step (before ++ (p.id, q) :: after) (.set p) none 0 (before ++ (p.id, p) :: after)
  | overwrite {before id p q after} :
      Step (before ++ (id, q) :: after) (.overwrite id p) (some true) 0
        (before ++ (id, p) :: after)
  | overwriteAbsent {l id p} (absent : ∀ e ∈ l, e.1 ≠ id) :
      Step l (.overwrite id p) (some false) 0 l
  | delete {before id q after} :
      Step (before ++ (id, q) :: after) (.delete id) (some true) 0 (before ++ after)
  | deleteAbsent {l id} (absent : ∀ e ∈ l, e.1 ≠ id) : Step l (.delete id) (some false) 0 l
  | clear {l} : Step l .clear none 0 []

inductive Run : Listing α → List (Edit α) → List (Option Bool) → Nat → Listing α → Prop where
  | nil {l} : Run l [] [] 0 l
  | cons {l e a n l' es as m l''} (first : Step l e a n l') (rest : Run l' es as m l'') :
      Run l (e :: es) (a :: as) (n + m) l''

theorem absent_or_split (l : Listing α) (id : Oid) :
    (∀ e ∈ l, e.1 ≠ id) ∨ ∃ before q after, l = before ++ (id, q) :: after := by
  by_cases h : ∃ e ∈ l, e.1 = id
  · obtain ⟨⟨_, q⟩, hmem, rfl⟩ := h
    obtain ⟨before, after, hsplit⟩ := List.append_of_mem hmem
    exact .inr ⟨before, q, after, hsplit⟩
  · exact .inl fun e he heq => h ⟨e, he, heq⟩

theorem exists_step (l : Listing α) (e : Edit α) : ∃ a n l', Step l e a n l' := by
  cases e with
  | set p =>
      obtain habsent | ⟨before, q, after, rfl⟩ := l.absent_or_split p.id
      · exact ⟨_, _, _, .append habsent⟩
      · exact ⟨_, _, _, .replace⟩
  | overwrite id p =>
      obtain habsent | ⟨before, q, after, rfl⟩ := l.absent_or_split id
      · exact ⟨_, _, _, .overwriteAbsent habsent⟩
      · exact ⟨_, _, _, .overwrite⟩
  | delete id =>
      obtain habsent | ⟨before, q, after, rfl⟩ := l.absent_or_split id
      · exact ⟨_, _, _, .deleteAbsent habsent⟩
      · exact ⟨_, _, _, .delete⟩
  | clear => exact ⟨_, _, _, .clear⟩

theorem exists_run (es : List (Edit α)) (l : Listing α) : ∃ as n l', Run l es as n l' := by
  induction es generalizing l with
  | nil => exact ⟨_, _, _, .nil⟩
  | cons e es ih =>
      obtain ⟨a, n, l', hstep⟩ := l.exists_step e
      obtain ⟨as, m, l'', hrun⟩ := ih l'
      exact ⟨_, _, _, .cons hstep hrun⟩

end Listing

/-! ### The index follows the listing -/

namespace Index

def perform : Edit α → Index α → Except SketchError (Option Bool × Index α)
  | .set p, x => (x.set p).map fun y => (none, y)
  | .overwrite id p, x => .ok (some (x.has id), x.put id p)
  | .delete id, x => .ok (some (x.has id), x.delete id)
  | .clear, _ => .ok (none, .empty)

/-- What an index that holds a listing lets one see of it. -/
structure Shows (x : Index α) (l : Listing α) : Prop where
  ids : x.ids = l.map Prod.fst
  nodup : x.ids.Nodup
  has : ∀ id, x.has id ↔ id ∈ x.ids
  get? : ∀ id p, x.get? id = some p ↔ (id, p) ∈ l
  all : x.all = l.map Prod.snd
  stored : x.ids.map x.get? = x.all.map some
  length : x.ids.length = x.all.length
  isEmpty : x.ids.isEmpty = x.all.isEmpty
  constraints : x.constraints = (l.map Prod.snd).filterMap Primitive.constraint?
  geometries : x.geometries = (l.map Prod.snd).filterMap Primitive.geometry?

theorem shows (x : Index α) : x.Shows x.items.entries where
  ids := rfl
  nodup := x.items.nodup
  has := x.items.contains_iff
  get? _ _ := ⟨Table.mem_of_find?, Table.find?_of_mem⟩
  all := rfl
  stored := by
    rw [ids, Table.keys, all, Table.values, List.map_map, List.map_map]
    exact List.map_congr_left fun e he => Table.find?_of_mem he
  length := by rw [ids, Table.keys, all, Table.values, List.length_map, List.length_map]
  isEmpty := by rw [ids, Table.keys, all, Table.values, List.isEmpty_map, List.isEmpty_map]
  constraints := rfl
  geometries := rfl

theorem has_of_split {x : Index α} {before after : Listing α} {id : Oid} {q : Primitive α}
    (h : before ++ (id, q) :: after = x.items.entries) : x.has id = true :=
  (x.items.contains_iff id).2 (List.mem_map.2 ⟨(id, q), by rw [← h]; simp, rfl⟩)

theorem has_of_absent {x : Index α} {id : Oid} (h : ∀ e ∈ x.items.entries, e.1 ≠ id) :
    x.has id = false := by
  refine Bool.eq_false_iff.2 fun hhas => ?_
  obtain ⟨e, he, heq⟩ := List.mem_map.1 ((x.items.contains_iff id).1 hhas)
  exact h e he heq

/-- An edit of the index is one of the listing, as long as its insertions can be counted. -/
theorem perform_step {x : Index α} {l l' : Listing α} {e : Edit α} {a : Option Bool} {n : Nat}
    (hstep : Listing.Step l e a n l') (hl : x.items.entries = l)
    (hc : x.counter + n ≤ counterLimit) :
    ∃ y, perform e x = .ok (a, y) ∧ y.items.entries = l' ∧ y.counter ≤ x.counter + n := by
  cases hstep with
  | @append _ p habsent =>
      subst hl
      have hhas := has_of_absent habsent
      refine ⟨⟨x.items.insert p.id p, x.counter + 1⟩, ?_, Table.entries_insert_new p hhas,
        Nat.le_refl _⟩
      rw [perform, set_new hhas (Nat.ne_of_lt hc)]
      rfl
  | @replace before p q after =>
      refine ⟨{ x with items := x.items.insert p.id p }, ?_, Table.entries_insert_old p hl,
        Nat.le_add_right ..⟩
      rw [perform, set, if_pos (has_of_split hl.symm)]
      rfl
  | @overwrite before id p q after =>
      refine ⟨{ x with items := x.items.insert id p }, ?_, Table.entries_insert_old p hl,
        Nat.le_add_right ..⟩
      rw [perform, put, has_of_split hl.symm, if_pos rfl]
  | overwriteAbsent habsent =>
      subst hl
      refine ⟨x, ?_, rfl, Nat.le_add_right ..⟩
      rw [perform, put, has_of_absent habsent, if_neg Bool.false_ne_true]
  | @delete before id q after =>
      refine ⟨x.delete id, ?_, Table.entries_erase_old hl, Nat.le_add_right ..⟩
      rw [perform, has_of_split hl.symm]
  | @deleteAbsent _ id habsent =>
      subst hl
      have hhas := has_of_absent habsent
      refine ⟨x.delete id, ?_, ?_, Nat.le_add_right ..⟩
      · rw [perform, hhas]
      · rw [delete, Table.erase_eq_self (Table.contains_eq_false.1 hhas)]
  | clear => exact ⟨.empty, rfl, rfl, Nat.zero_le _⟩

theorem performAll_run {x : Index α} {l l' : Listing α} {es : List (Edit α)}
    {as : List (Option Bool)} {n : Nat} (hrun : Listing.Run l es as n l')
    (hl : x.items.entries = l) (hc : x.counter + n ≤ counterLimit) :
    ∃ y, Edit.performAll perform es x = .ok (as, y) ∧ y.items.entries = l' := by
  induction hrun generalizing x with
  | nil => exact ⟨x, rfl, hl⟩
  | cons hfirst _ ih =>
      obtain ⟨y, hperform, hentries, hcounter⟩ := perform_step hfirst hl (by omega)
      obtain ⟨z, hall, hlast⟩ := ih hentries (by omega)
      refine ⟨z, ?_, hlast⟩
      rw [Edit.performAll, hperform, ok_bind]
      dsimp only
      rw [hall]
      rfl

end Index

/-! ### Two stores -/

/-- An index whose primitives are in a map without order, and whose order is a list of ids. -/
structure SplitIndex (α : Type) where
  items : Oid → Option (Primitive α)
  order : List Oid
  counter : Nat

namespace SplitIndex

def has (s : SplitIndex α) (id : Oid) : Bool := (s.items id).isSome

def set (s : SplitIndex α) (p : Primitive α) : Except SketchError (SplitIndex α) :=
  if s.has p.id then .ok { s with items := Function.update s.items p.id (some p) }
  else if s.counter = Index.counterLimit then .error .counterOverflow
  else .ok ⟨Function.update s.items p.id (some p), s.order ++ [p.id], s.counter + 1⟩

def put (s : SplitIndex α) (id : Oid) (p : Primitive α) : SplitIndex α :=
  if s.has id then { s with items := Function.update s.items id (some p) } else s

def delete (s : SplitIndex α) (id : Oid) : SplitIndex α :=
  if s.has id then
    { s with items := Function.update s.items id none, order := s.order.filter (· ≠ id) }
  else s

def empty : SplitIndex α := ⟨fun _ => none, [], 0⟩

/-- The primitives in order; an id without a primitive is passed over. -/
def all (s : SplitIndex α) : List (Primitive α) := s.order.filterMap s.items

def perform : Edit α → SplitIndex α → Except SketchError (Option Bool × SplitIndex α)
  | .set p, s => (s.set p).map fun t => (none, t)
  | .overwrite id p, s => .ok (some (s.has id), s.put id p)
  | .delete id, s => .ok (some (s.has id), s.delete id)
  | .clear, _ => .ok (none, .empty)

end SplitIndex

namespace Index

/-- The two stores that hold an index. -/
def split (x : Index α) : SplitIndex α := ⟨x.get?, x.ids, x.counter⟩

theorem has_split (x : Index α) (id : Oid) : x.split.has id = x.has id := rfl

/-- A present id takes a primitive in the map alone. -/
theorem split_insert_old {x : Index α} {id : Oid} (p : Primitive α) (h : x.has id) :
    split { x with items := x.items.insert id p } =
      { x.split with items := Function.update x.split.items id (some p) } := by
  have hkeys : (x.items.insert id p).keys = x.items.keys :=
    (x.items.keys_insert id p).trans (if_pos h)
  exact (SplitIndex.mk.injEq ..).mpr ⟨x.items.update_find? id p, hkeys, rfl⟩

/-- An absent id goes into both stores. -/
theorem split_insert_new {x : Index α} {id : Oid} (p : Primitive α) (h : ¬ x.has id) :
    split ⟨x.items.insert id p, x.counter + 1⟩ =
      ⟨Function.update x.split.items id (some p), x.split.order ++ [id], x.split.counter + 1⟩ := by
  have hkeys : (x.items.insert id p).keys = x.items.keys ++ [id] :=
    (x.items.keys_insert id p).trans (if_neg h)
  exact (SplitIndex.mk.injEq ..).mpr ⟨x.items.update_find? id p, hkeys, rfl⟩

theorem split_set (x : Index α) (p : Primitive α) : x.split.set p = (x.set p).map split := by
  rw [set, SplitIndex.set, has_split]
  by_cases h : x.has p.id
  · rw [if_pos h, if_pos h]
    exact congrArg Except.ok (split_insert_old p h).symm
  · rw [if_neg h, if_neg h, show x.split.counter = x.counter from rfl]
    by_cases hc : x.counter = counterLimit
    · rw [if_pos hc, if_pos hc]
      rfl
    · rw [if_neg hc, if_neg hc]
      exact congrArg Except.ok (split_insert_new p h).symm

theorem split_put (x : Index α) (id : Oid) (p : Primitive α) :
    x.split.put id p = (x.put id p).split := by
  rw [put, SplitIndex.put, has_split]
  by_cases h : x.has id
  · rw [if_pos h, if_pos h, split_insert_old p h]
  · rw [if_neg h, if_neg h]

theorem split_delete (x : Index α) (id : Oid) : x.split.delete id = (x.delete id).split := by
  rw [SplitIndex.delete, has_split]
  by_cases h : x.has id
  · rw [if_pos h]
    refine (SplitIndex.mk.injEq ..).mpr ⟨?_, (x.items.keys_erase id).symm, rfl⟩
    funext id'
    rw [get?_delete, Function.update_apply]
    rfl
  · have hhas : x.has id = false := by simpa using h
    rw [if_neg h, delete, Table.erase_eq_self (Table.contains_eq_false.1 hhas)]

/-- An edit of the two stores is an edit of the index that they hold. -/
theorem split_perform (e : Edit α) (x : Index α) :
    SplitIndex.perform e x.split = (perform e x).map fun r => (r.1, r.2.split) := by
  cases e with
  | set p =>
      rw [SplitIndex.perform, split_set, perform]
      cases x.set p <;> rfl
  | overwrite id p =>
      rw [SplitIndex.perform, split_put]
      rfl
  | delete id =>
      rw [SplitIndex.perform, split_delete]
      rfl
  | clear => rfl

theorem split_performAll (es : List (Edit α)) (x : Index α) :
    Edit.performAll SplitIndex.perform es x.split =
      (Edit.performAll perform es x).map fun r => (r.1, r.2.split) := by
  induction es generalizing x with
  | nil => rfl
  | cons e es ih =>
      rw [Edit.performAll, Edit.performAll, split_perform]
      cases perform e x with
      | error err => rfl
      | ok r =>
          have hrest := ih r.2
          simp only [Except.map, ok_bind] at hrest ⊢
          rw [hrest]
          cases Edit.performAll perform es r.2 <;> rfl

/-- No id of an index is without a primitive. -/
theorem all_split (x : Index α) : x.split.all = x.all := by
  have hstored : x.ids.map x.get? = x.all.map some := x.shows.stored
  calc x.split.all = (x.ids.map x.get?).filterMap id := by rw [List.filterMap_map]; rfl
    _ = x.all := by rw [hstored, List.filterMap_map]; exact List.filterMap_some

/-- Edits that bring in no more ids than can be counted do to an index what they do to a listing, also where
ids and primitives are kept apart. -/
theorem performAll_simulates (es : List (Edit α)) :
    (∃ as n l, Listing.Run [] es as n l) ∧
    ∀ as n l, Listing.Run [] es as n l → n < UInt32.size →
      ∃ x : Index α, Edit.performAll perform es .empty = .ok (as, x) ∧ x.Shows l ∧
        Edit.performAll SplitIndex.perform es .empty = .ok (as, x.split) ∧
        x.split.all = l.map Prod.snd := by
  refine ⟨Listing.exists_run es [], fun as n l hrun hn => ?_⟩
  have hcount : (empty : Index α).counter + n ≤ counterLimit := by
    rw [show (empty : Index α).counter = 0 from rfl, Nat.zero_add]
    exact Nat.le_of_lt_succ hn
  obtain ⟨x, hall, rfl⟩ := performAll_run (x := empty) hrun rfl hcount
  refine ⟨x, hall, x.shows, ?_, x.all_split⟩
  rw [show (SplitIndex.empty : SplitIndex α) = (empty : Index α).split from rfl, split_performAll,
    hall]
  rfl

def pointNamed (n : UInt32) (x : Nat) : Primitive Nat := .geometry ⟨⟨n⟩, .point x 0 false⟩

/-- Two points, the second replaced by one of another id; the first is deleted and comes back. -/
def pointEdits : List (Edit Nat) :=
  [.set (pointNamed 1 0), .set (pointNamed 2 1), .overwrite ⟨2⟩ (pointNamed 9 2), .delete ⟨1⟩,
    .delete ⟨9⟩, .set (pointNamed 1 3)]

theorem performAll_pointEdits :
    3 < UInt32.size ∧ ∃ x : Index Nat,
      Edit.performAll perform pointEdits .empty =
        .ok ([none, none, some true, some true, some false, none], x) ∧
      x.Shows [(⟨2⟩, pointNamed 9 2), (⟨1⟩, pointNamed 1 3)] ∧ x.ids = [⟨2⟩, ⟨1⟩] := by
  have hset₁ : Listing.Step [] (.set (pointNamed 1 0)) none 1 [(⟨1⟩, pointNamed 1 0)] :=
    .append (by simp)
  have hset₂ : Listing.Step [(⟨1⟩, pointNamed 1 0)] (.set (pointNamed 2 1)) none 1
      ([(⟨1⟩, pointNamed 1 0)] ++ (⟨2⟩, pointNamed 2 1) :: []) := .append (by simp; decide)
  have hdelete : Listing.Step ([] ++ (⟨1⟩, pointNamed 1 0) :: [(⟨2⟩, pointNamed 9 2)])
      (.delete ⟨1⟩) (some true) 0 [(⟨2⟩, pointNamed 9 2)] := .delete
  have habsent : Listing.Step [(⟨2⟩, pointNamed 9 2)] (.delete ⟨9⟩) (some false) 0
      [(⟨2⟩, pointNamed 9 2)] := .deleteAbsent (by simp)
  have hback : Listing.Step [(⟨2⟩, pointNamed 9 2)] (.set (pointNamed 1 3)) none 1
      [(⟨2⟩, pointNamed 9 2), (⟨1⟩, pointNamed 1 3)] := .append (by simp; decide)
  have hrun := Listing.Run.cons hset₁ <| .cons hset₂ <| .cons .overwrite <| .cons hdelete <|
    .cons habsent <| .cons hback .nil
  obtain ⟨x, hall, hshows, -, -⟩ := (performAll_simulates pointEdits).2 _ _ _ hrun (by decide)
  exact ⟨by decide, x, hall, hshows, hshows.ids⟩

end Index

end PlanarSketch
