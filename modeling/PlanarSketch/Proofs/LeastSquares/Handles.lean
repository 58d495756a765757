import Mathlib.Data.Nat.ModEq
import PlanarSketch.Binary64
import PlanarSketch.Proofs.LeastSquares.Bounds
import PlanarSketch.Proofs.Tables

/-!
The handles that the solver gives out. They are numbers of 32 bits, given out in turn, and the count
wraps without a look at what is still held. A roll takes down each geometry that is made until it
is released. The solver holds under a handle what was made last under it: a handle is given out that
is still held just when a whole number of rounds lies between the two. So handles stand for what
they were made for as long as no geometry is held for more than a round, and no longer.
-/

namespace PlanarSketch

/-- The handle that is given out after so many others. -/
def Handle.nth (n : Nat) : Handle := ⟨.ofNat n⟩

theorem Handle.nth_inj {m n : Nat} : nth m = nth n ↔ m ≡ n [MOD UInt32.size] := by
  rw [nth, nth, Handle.mk.injEq, ← UInt32.toNat_inj, UInt32.toNat_ofNat',
    UInt32.toNat_ofNat']
  rfl

/-- A geometry that was made, with the number of those before it. -/
structure Made where
  number : Nat
  handle : Handle
  record : Record

/-- How many geometries were made since everything was cleared, and those of them that have not
been released, the latest first. -/
structure Roll where
  count : Nat
  held : List Made

namespace Roll

def empty : Roll := ⟨0, []⟩

section

variable {σ α : Type} [Solver σ α]

/-- Takes down what an operation makes or releases. -/
def note (s : σ) (l : Roll) : Operation α → Roll
  | .make r =>
      match (Solver.make s r).1 with
      | .ok h => ⟨l.count + 1, ⟨l.count, h, r⟩ :: l.held⟩
      | .error _ => l
  | .release h => { l with held := l.held.filter fun m => m.handle ≠ h }
  | .clear => empty
  | _ => l

def noteAll (s : σ) (l : Roll) : List (Operation α) → Roll
  | [] => l
  | op :: ops => noteAll (op.run s) (l.note s op) ops

theorem noteAll_append (s : σ) (l : Roll) (ops more : List (Operation α)) :
    l.noteAll s (ops ++ more) = (l.noteAll s ops).noteAll (Operation.runAll s ops) more := by
  induction ops generalizing s l with
  | nil => rfl
  | cons op ops ih => exact ih (op.run s) (l.note s op)

end

variable {α : Type}

/-- The roll is right about a solver. -/
structure Tracks (l : Roll) (s : LeastSquares α) : Prop where
  next : s.nextHandle = .ofNat l.count
  /-- The latest geometry under a handle is the one that is held. -/
  find? : ∀ h, s.records.find? h = (l.held.find? fun m => m.handle = h).map Made.record
  handle : ∀ m ∈ l.held, m.handle = .nth m.number
  below : ∀ m ∈ l.held, m.number < l.count
  falling : l.held.Pairwise fun m n => n.number < m.number

theorem tracks_ofConfig (config : Config α) : empty.Tracks (.ofConfig config) where
  next := rfl
  find? := fun _ => rfl
  handle := nofun
  below := nofun
  falling := .nil

namespace Tracks

variable {l : Roll} {s t : LeastSquares α}

/-- Only the geometries matter to it. -/
theorem congr (hl : l.Tracks s) (hnext : t.nextHandle = s.nextHandle)
    (hrecords : t.records = s.records) : l.Tracks t where
  next := hnext.trans hl.next
  find? := by
    rw [hrecords]
    exact hl.find?
  handle := hl.handle
  below := hl.below
  falling := hl.falling

theorem release (hl : l.Tracks s) (h : Handle) :
    Tracks { l with held := l.held.filter fun m => m.handle ≠ h } (s.release h) where
  next := hl.next
  find? := by
    intro k
    rw [LeastSquares.release, Table.find?_erase, hl.find?, List.find?_filter]
    by_cases hk : k = h
    · subst hk
      simp
    · rw [if_neg hk]
      congr 2
      funext m
      by_cases hm : m.handle = k <;> simp [hm, hk]
  handle := fun m hm => hl.handle m (List.mem_filter.1 hm).1
  below := fun m hm => hl.below m (List.mem_filter.1 hm).1
  falling := hl.falling.filter _

theorem contains_iff (hl : l.Tracks s) {h : Handle} :
    s.records.contains h ↔ h ∈ l.held.map Made.handle := by
  rw [Table.contains, hl.find?, Option.isSome_map, List.find?_isSome, List.mem_map]
  simp

/-- The next handle is in use when whole rounds lie between. -/
theorem contains_next (hl : l.Tracks s) :
    s.records.contains ⟨s.nextHandle⟩ ↔ ∃ m ∈ l.held, m.number ≡ l.count [MOD UInt32.size] := by
  rw [hl.contains_iff, List.mem_map, hl.next]
  refine exists_congr fun m => and_congr_right fun hm => ?_
  rw [hl.handle m hm]
  exact Handle.nth_inj

section

variable (hrecent : ∀ m ∈ l.held, l.count ≤ m.number + UInt32.size)

include hrecent

theorem contains_next_iff (hl : l.Tracks s) :
    s.records.contains ⟨s.nextHandle⟩ ↔ ∃ m ∈ l.held, l.count = m.number + UInt32.size := by
  rw [hl.contains_next]
  refine exists_congr fun m => and_congr_right fun hm => ⟨fun hmod => ?_, fun hround => ?_⟩
  · exact (hrecent m hm).antisymm (hmod.add_le_of_lt (hl.below m hm))
  · rw [hround]
    exact Nat.add_modEq_right.symm

/-- Within a round all handles differ. -/
theorem nodup_handles (hl : l.Tracks s) : (l.held.map Made.handle).Nodup := by
  rw [List.Nodup, List.pairwise_map]
  refine hl.falling.imp_of_mem fun {m n} hm hn hlt heq => ?_
  have hmod : m.number ≡ n.number [MOD UInt32.size] := by
    rw [← Handle.nth_inj, ← hl.handle m hm, ← hl.handle n hn, heq]
  have hnear : m.number < n.number + UInt32.size := (hl.below m hm).trans_le (hrecent n hn)
  exact (hmod.le_of_lt_add hnear).not_gt hlt

theorem find?_handle (hl : l.Tracks s) {m : Made} (hm : m ∈ l.held) :
    s.records.find? m.handle = some m.record := by
  rw [hl.find?]
  cases hfind : l.held.find? fun n => n.handle = m.handle with
  | none => simpa using List.find?_eq_none.1 hfind m hm
  | some n =>
      have hhandle : n.handle = m.handle := by simpa using List.find?_some hfind
      rw [List.inj_on_of_nodup_map (hl.nodup_handles hrecent) (List.mem_of_find?_eq_some hfind) hm
        hhandle]
      rfl

theorem size_records (hl : l.Tracks s) : s.records.size = l.held.length := by
  have hkeys : s.records.keys.Perm (l.held.map Made.handle) := by
    refine (List.perm_ext_iff_of_nodup s.records.nodup (hl.nodup_handles hrecent)).2 fun h => ?_
    exact (s.records.contains_iff h).symm.trans hl.contains_iff
  rw [← s.records.length_keys, hkeys.length_eq, List.length_map]

end

variable [Scalar α] [Decompositions α]

theorem make (hl : l.Tracks s) (r : Record) :
    (l.note s (.make r)).Tracks (Solver.make s r).2 := by
  rcases LeastSquares.make_cases s r with ⟨a, -, -, hmake⟩ | ⟨-, hmake⟩ <;> rw [note, hmake]
  · exact hl
  · constructor
    case next =>
      change s.nextHandle + 1 = .ofNat (l.count + 1)
      rw [hl.next, UInt32.ofNat_add]
      rfl
    case find? =>
      -- the new geometry comes first, so it hides an older one under the same handle
      intro k
      rw [Table.find?_insert, hl.find?, List.find?_cons]
      by_cases hk : k = ⟨s.nextHandle⟩
      · subst hk
        simp
      · have hne : ¬ ⟨s.nextHandle⟩ = k := fun h => hk h.symm
        simp [hk, hne]
    case handle =>
      rintro m (_ | ⟨_, hm⟩)
      · exact congrArg Handle.mk hl.next
      · exact hl.handle m hm
    case below =>
      rintro m (_ | ⟨_, hm⟩)
      · exact Nat.lt_succ_self _
      · exact (hl.below m hm).trans (Nat.lt_succ_self _)
    case falling => exact .cons hl.below hl.falling

theorem run (hl : l.Tracks s) (op : Operation α) : (l.note s op).Tracks (op.run s) := by
  cases op with
  | make r => exact hl.make r
  | release h => exact hl.release h
  | clear => exact tracks_ofConfig s.config
  | assign a v fixed =>
      change l.Tracks (s.attempt ((s.assign a v fixed).map fun t => ((), t))).2
      rw [LeastSquares.assign]
      split
      · exact hl.congr rfl rfl
      · exact hl
  | add c =>
      change l.Tracks (Solver.add s c).2
      rw [LeastSquares.add_eq]
      split
      · exact hl
      · exact hl.congr rfl rfl
  | push v fixed | clearTag tag | solve algorithm | applySolution | setDebugMode m
  | setMaxIterations n | setConvergence c => exact hl.congr rfl rfl

theorem runAll (hl : l.Tracks s) (ops : List (Operation α)) :
    (l.noteAll s ops).Tracks (Operation.runAll s ops) := by
  induction ops generalizing s l with
  | nil => exact hl
  | cons op ops ih => exact ih (hl.run op)

end Tracks

/-- What is taken down of the operations of a new solver. -/
def ofRun [Scalar α] [Decompositions α] (config : Config α) (ops : List (Operation α)) : Roll :=
  empty.noteAll (LeastSquares.ofConfig config) ops

theorem tracks_ofRun [Scalar α] [Decompositions α] (config : Config α) (ops : List (Operation α)) :
    (ofRun config ops).Tracks (Operation.runAll (.ofConfig config) ops) :=
  (tracks_ofConfig config).runAll ops

end Roll

namespace LeastSquares

variable {α : Type} [Scalar α] [Decompositions α]

/-- The handle that a geometry is given is in use just when whole rounds lie between it and one that
is held. While none is held for more than a round, this happens only to the handle that is a round
old, each handle that was given out and not taken back stands for what it was made for, no two are
the same, and as many are in use. -/
theorem handles_roll (config : Config α) (ops : List (Operation α)) :
    let s := Operation.runAll (ofConfig config) ops
    let l := Roll.ofRun config ops
    (∀ r h t, Solver.make s r = (.ok h, t) →
      (s.records.contains h ↔ ∃ m ∈ l.held, m.number ≡ l.count [MOD UInt32.size])) ∧
    ((∀ m ∈ l.held, l.count ≤ m.number + UInt32.size) →
      (∀ r h t, Solver.make s r = (.ok h, t) →
        (s.records.contains h ↔ ∃ m ∈ l.held, l.count = m.number + UInt32.size)) ∧
      (∀ m ∈ l.held, s.records.find? m.handle = some m.record) ∧
      (l.held.map Made.handle).Nodup ∧
      (∀ h, s.records.contains h ↔ h ∈ l.held.map Made.handle) ∧
      s.records.size = l.held.length) := by
  intro s l
  have hl : l.Tracks s := Roll.tracks_ofRun config ops
  have hgiven (r : Record) (h : Handle) (t : LeastSquares α) (hmake : Solver.make s r = (.ok h, t)) :
      h = ⟨s.nextHandle⟩ := by
    rcases make_cases s r with ⟨a, -, -, hfail⟩ | ⟨-, hok⟩
    · cases hmake.symm.trans hfail
    · cases hmake.symm.trans hok
      rfl
  refine ⟨fun r h t hmake => ?_, fun hrecent => ⟨fun r h t hmake => ?_, fun m =>
    hl.find?_handle hrecent, hl.nodup_handles hrecent, fun h => hl.contains_iff,
    hl.size_records hrecent⟩⟩
  · rw [hgiven r h t hmake]
    exact hl.contains_next
  · rw [hgiven r h t hmake]
    exact hl.contains_next_iff hrecent

end LeastSquares

/-! ### Geometry that is held for longer -/

theorem LeastSquares.make_of_lt {α : Type} [Scalar α] [Decompositions α] {s : LeastSquares α}
    {r : Record} (hr : ∀ a ∈ r.addresses, a < s.size) :
    Solver.make s r = (.ok ⟨s.nextHandle⟩, { s with
      radii := addRadius s.radii r
      nextHandle := s.nextHandle + 1
      records := s.records.insert ⟨s.nextHandle⟩ r }) := by
  obtain ⟨a, ha, hout, -⟩ | ⟨-, hmake⟩ := make_cases s r
  · exact absurd (hr a ha) hout.not_gt
  · exact hmake

/-- A geometry is made and released again, with each of the next handles. -/
def Operation.cycles {α : Type} (r : Record) (first n : Nat) : List (Operation α) :=
  (List.range' first n).flatMap fun i => [.make r, .release (.nth i)]

namespace Roll.Tracks

variable {α : Type} [Scalar α] [Decompositions α] {l : Roll} {s : LeastSquares α} {r : Record}

/-- After a round the handle of what is still held goes to what is made next. -/
theorem make_again (hl : l.Tracks s) {m : Made} (hm : m ∈ l.held)
    (hround : l.count = m.number + UInt32.size) (hr : ∀ a ∈ r.addresses, a < s.size) :
    ∃ t, Solver.make s r = (.ok m.handle, t) ∧ t.records.find? m.handle = some r ∧
      t.records.size = s.records.size ∧
      l.note s (.make r) = ⟨l.count + 1, ⟨l.count, m.handle, r⟩ :: l.held⟩ := by
  have hhandle : ⟨s.nextHandle⟩ = m.handle := by
    rw [hl.next, hl.handle m hm]
    refine Handle.nth_inj.2 ?_
    rw [hround]
    exact Nat.add_modEq_right
  have hheld : s.records.contains m.handle := hl.contains_iff.2 (List.mem_map_of_mem hm)
  have hmake := LeastSquares.make_of_lt hr
  rw [hhandle] at hmake
  refine ⟨_, hmake, ?_, Table.size_insert_old r hheld, ?_⟩
  · rw [Table.find?_insert, if_pos rfl]
  · rw [note, hmake]

theorem cycle (hl : l.Tracks s) (hr : ∀ a ∈ r.addresses, a < s.size)
    (hfree : ∀ m ∈ l.held, l.count < m.number + UInt32.size) :
    l.noteAll s [.make r, .release (.nth l.count)] = ⟨l.count + 1, l.held⟩ ∧
      (Operation.runAll s [.make r, .release (.nth l.count)]).size = s.size := by
  have hmake := LeastSquares.make_of_lt hr
  have hmade : l.note s (.make r) = ⟨l.count + 1, ⟨l.count, .nth l.count, r⟩ :: l.held⟩ := by
    rw [note, hmake, hl.next]
    rfl
  have hkept : l.held.filter (fun m => m.handle ≠ .nth l.count) = l.held := by
    refine List.filter_eq_self.2 fun m hm => decide_eq_true fun heq => ?_
    rw [hl.handle m hm, Handle.nth_inj] at heq
    exact (heq.symm.le_of_lt_add (hfree m hm)).not_gt (hl.below m hm)
  constructor
  · change note (Solver.make s r).2 (l.note s (.make r)) (.release (.nth l.count)) = _
    rw [hmade, note, List.filter_cons_of_neg (by simp), hkept]
  · change (LeastSquares.release (Solver.make s r).2 (.nth l.count)).size = s.size
    rw [hmake]
    rfl

theorem cycles (hl : l.Tracks s) (hr : ∀ a ∈ r.addresses, a < s.size) {n : Nat}
    (hfree : ∀ m ∈ l.held, l.count + n ≤ m.number + UInt32.size) :
    l.noteAll s (Operation.cycles r l.count n) = ⟨l.count + n, l.held⟩ ∧
      (Operation.runAll s (Operation.cycles r l.count n)).size = s.size := by
  induction n generalizing l s with
  | zero => exact ⟨rfl, rfl⟩
  | succ n ih =>
      obtain ⟨hnote, hsize⟩ := hl.cycle hr fun m hm => (Nat.lt_add_of_pos_right n.succ_pos).trans_le
        (hfree m hm)
      have hnext := hl.runAll [.make r, .release (.nth l.count)]
      rw [hnote] at hnext
      obtain ⟨hnotes, hsizes⟩ := ih hnext (by rwa [hsize]) fun m hm => by
        rw [Nat.add_right_comm]
        exact hfree m hm
      have hsplit : Operation.cycles (α := α) r l.count (n + 1) =
          [.make r, .release (.nth l.count)] ++ Operation.cycles r (l.count + 1) n := by
        rw [Operation.cycles, List.range'_succ, List.flatMap_cons]
        rfl
      rw [hsplit, noteAll_append, hnote, hnotes, Operation.runAll, List.foldl_append]
      exact ⟨by rw [Nat.add_right_comm, Nat.add_assoc], hsizes.trans hsize⟩

end Roll.Tracks

namespace LeastSquares

/-- Two points over the same scalars, one with the coordinates of the other exchanged. -/
def here : Record := .point 0 1 false

def there : Record := .point 1 0 false

/-- A point is made and held while others are made and released. -/
def holding {α : Type} (u v : α) (n : Nat) : List (Operation α) :=
  [.push u false, .push v false, .make here] ++ Operation.cycles there 1 n

theorem ofRun_holding {α : Type} [Scalar α] [Decompositions α] (config : Config α) (u v : α)
    {n : Nat} (hn : n < UInt32.size) :
    Roll.ofRun config (holding u v n) = ⟨n + 1, [⟨0, .nth 0, here⟩]⟩ ∧
      (Operation.runAll (ofConfig config) (holding u v n)).size = 2 := by
  let made : List (Operation α) := [.push u false, .push v false, .make here]
  have hl : Roll.Tracks ⟨1, [⟨0, .nth 0, here⟩]⟩ (Operation.runAll (ofConfig config) made) :=
    Roll.tracks_ofRun config made
  have hthere : ∀ a ∈ there.addresses, a < 2 := by decide
  obtain ⟨hnote, hsize⟩ := hl.cycles (n := n) hthere (by simp; omega)
  rw [Nat.add_comm n]
  constructor
  · exact (Roll.noteAll_append ..).trans hnote
  · rw [holding, Operation.runAll, List.foldl_append]
    exact hsize

theorem handles_holding :
    let ops : List (Operation Float) := holding 0.0 1.0 2
    let s : LeastSquares Float := Operation.runAll (ofConfig .standard) ops
    (∀ m ∈ (Roll.ofRun .standard ops).held,
      (Roll.ofRun .standard ops).count ≤ m.number + UInt32.size) ∧
    s.records.find? (.nth 0) = some here ∧ s.records.size = 1 ∧
    Solver.make s there = (.ok (.nth 3), (Solver.make s there).2) ∧
      ¬ s.records.contains (.nth 3) := by
  intro ops s
  have hroll : Roll.ofRun .standard ops = ⟨3, [⟨0, .nth 0, here⟩]⟩ := rfl
  obtain ⟨-, hholds⟩ := handles_roll (.standard : Config Float) ops
  rw [hroll] at hholds
  have hrecent : ∀ m ∈ [Made.mk 0 (.nth 0) here], 3 ≤ m.number + UInt32.size := by decide
  obtain ⟨hmakes, hfind, -, -, hone⟩ := hholds hrecent
  refine ⟨by rwa [hroll], hfind ⟨0, .nth 0, here⟩ List.mem_cons_self, hone, rfl, ?_⟩
  rw [hmakes there (.nth 3) _ rfl]
  decide

/-- A full round later the handle of the first point is given out again, though nobody released it.
From then on it stands for the other point, and of two points that are held only one is there. -/
theorem handle_rebound :
    let ops : List (Operation Float) := holding 0.0 1.0 (UInt32.size - 1)
    let s : LeastSquares Float := Operation.runAll (ofConfig .standard) ops
    (Roll.ofRun .standard ops).held = [⟨0, ⟨0⟩, here⟩] ∧ s.records.find? ⟨0⟩ = some here ∧
    ∃ t, Solver.make s there = (.ok ⟨0⟩, t) ∧ t.records.find? ⟨0⟩ = some there ∧
      t.records.size = 1 ∧
      (Roll.ofRun .standard (ops ++ [.make there])).held =
        [⟨UInt32.size, ⟨0⟩, there⟩, ⟨0, ⟨0⟩, here⟩] := by
  intro ops s
  obtain ⟨hroll, hsize⟩ := ofRun_holding (.standard : Config Float) 0.0 1.0
    (show UInt32.size - 1 < UInt32.size by decide)
  have hl : Roll.Tracks ⟨UInt32.size, [⟨0, ⟨0⟩, here⟩]⟩ s := by
    have htracks := Roll.tracks_ofRun .standard ops
    rwa [hroll] at htracks
  have hthere : ∀ a ∈ there.addresses, a < 2 := by decide
  obtain ⟨t, hmake, hfind, hone, hnote⟩ :=
    hl.make_again List.mem_cons_self (Nat.zero_add _).symm (hsize.symm ▸ hthere)
  refine ⟨by rw [hroll]; rfl, hl.find? ⟨0⟩, t, hmake, hfind, ?_, ?_⟩
  · exact hone.trans (hl.size_records (by simp))
  · rw [Roll.ofRun, Roll.noteAll_append]
    change (Roll.note s (Roll.ofRun .standard ops) (.make there)).held = _
    rw [hroll]
    exact congrArg Roll.held hnote

end LeastSquares

end PlanarSketch
