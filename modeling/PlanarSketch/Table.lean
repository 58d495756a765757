/-!
Finite maps that remember the order in which their keys were first inserted. Setting a key that
is present keeps its place; a key that is erased and set again goes to the end.
-/

namespace PlanarSketch

structure Table (κ ν : Type) where
  entries : List (κ × ν)
  nodup : (entries.map Prod.fst).Nodup

namespace Table

variable {κ ν : Type}

def empty : Table κ ν := ⟨[], List.nodup_nil⟩

instance : Inhabited (Table κ ν) := ⟨empty⟩

def keys (t : Table κ ν) : List κ := t.entries.map Prod.fst

def values (t : Table κ ν) : List ν := t.entries.map Prod.snd

def size (t : Table κ ν) : Nat := t.entries.length

variable [DecidableEq κ]

def find? (t : Table κ ν) (k : κ) : Option ν :=
  (t.entries.find? fun e => e.1 = k).map Prod.snd

def contains (t : Table κ ν) (k : κ) : Bool := (t.find? k).isSome

def replace (k : κ) (v : ν) (e : κ × ν) : κ × ν := if e.1 = k then (k, v) else e

theorem replace_fst (k : κ) (v : ν) (e : κ × ν) : (replace k v e).1 = e.1 := by
  unfold replace
  split <;> simp_all

theorem map_replace_fst (k : κ) (v : ν) (es : List (κ × ν)) :
    (es.map (replace k v)).map Prod.fst = es.map Prod.fst := by
  simp [Function.comp_def, replace_fst]

theorem contains_iff (t : Table κ ν) (k : κ) : t.contains k ↔ k ∈ t.keys := by
  simp [contains, find?, keys]

def insert (t : Table κ ν) (k : κ) (v : ν) : Table κ ν :=
  if h : t.contains k then
    ⟨t.entries.map (replace k v), by rw [map_replace_fst]; exact t.nodup⟩
  else
    ⟨t.entries ++ [(k, v)], by
      have hk : k ∉ t.keys := fun hk => h ((t.contains_iff k).2 hk)
      simp only [List.map_append, List.map_cons, List.map_nil]
      refine List.nodup_append.2 ⟨t.nodup, by simp, ?_⟩
      intro a ha b hb hab
      simp only [List.mem_singleton] at hb
      exact hk (hb ▸ hab ▸ ha)⟩

def erase (t : Table κ ν) (k : κ) : Table κ ν :=
  ⟨t.entries.filter fun e => e.1 ≠ k, t.nodup.sublist (List.filter_sublist.map _)⟩

theorem keys_insert (t : Table κ ν) (k : κ) (v : ν) :
    (t.insert k v).keys = if t.contains k then t.keys else t.keys ++ [k] := by
  unfold insert
  split
  · simp only [keys, map_replace_fst, *]
  · simp [keys, *]

theorem keys_erase (t : Table κ ν) (k : κ) : (t.erase k).keys = t.keys.filter (· ≠ k) := by
  simp [keys, erase, List.filter_map, Function.comp_def]

theorem find?_map_replace (k k' : κ) (v : ν) (es : List (κ × ν)) :
    ((es.map (replace k v)).find? fun e => e.1 = k').map Prod.snd =
      if k' = k then (if k ∈ es.map Prod.fst then some v else none)
      else (es.find? fun e => e.1 = k').map Prod.snd := by
  induction es with
  | nil => simp
  | cons e es ih =>
      simp only [List.map_cons, List.find?_cons, replace_fst, List.mem_cons]
      by_cases he : e.1 = k'
      · subst he
        by_cases hk : e.1 = k <;> simp [replace, hk]
      · have hne : k' ≠ e.1 := fun h => he h.symm
        simp only [he, decide_false, ih]
        by_cases hk : k' = k
        · subst hk
          simp only [if_true, hne, false_or]
        · simp only [hk, if_false]

theorem find?_insert (t : Table κ ν) (k k' : κ) (v : ν) :
    (t.insert k v).find? k' = if k' = k then some v else t.find? k' := by
  unfold insert
  split
  · next h =>
      have hk : k ∈ t.entries.map Prod.fst := (t.contains_iff k).1 h
      simp only [find?, find?_map_replace, hk, if_true]
  · next h =>
      have hk : t.find? k = none := by simpa [contains] using h
      by_cases hkk : k' = k
      · subst hkk
        have hn : t.entries.find? (fun e => e.1 = k') = none := by simpa [find?] using hk
        simp only [find?, List.find?_append, hn]
        simp
      · have hne : ¬ k = k' := fun h => hkk h.symm
        simp [find?, List.find?_append, hkk, hne]

theorem find?_erase (t : Table κ ν) (k k' : κ) :
    (t.erase k).find? k' = if k' = k then none else t.find? k' := by
  by_cases hk : k' = k
  · subst hk
    simp [find?, erase]
  · have h : (fun e : κ × ν => decide (decide (e.1 ≠ k) = true ∧ decide (e.1 = k') = true)) =
        fun e => decide (e.1 = k') := by
      funext e
      by_cases he : e.1 = k' <;> simp_all
    simp only [find?, erase, List.find?_filter, h, if_neg hk]

end Table

end PlanarSketch
