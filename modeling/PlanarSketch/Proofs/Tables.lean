import PlanarSketch.Proofs.Lookup

/-!
Tables and name maps as their operations leave them: where a binding goes, and which operations
change nothing.
-/

namespace PlanarSketch

namespace Table

variable {κ ν : Type}

theorem ext_entries {t u : Table κ ν} (h : t.entries = u.entries) : t = u := by
  cases t
  cases u
  cases h
  rfl

theorem length_keys (t : Table κ ν) : t.keys.length = t.size := List.length_map _

def mapValues (f : κ → ν → ν) (t : Table κ ν) : Table κ ν :=
  ⟨t.entries.map fun e => (e.1, f e.1 e.2), by
    rw [List.map_map]
    exact t.nodup⟩

theorem keys_mapValues (f : κ → ν → ν) (t : Table κ ν) : (t.mapValues f).keys = t.keys :=
  List.map_map

theorem mapValues_eq_self {f : κ → ν → ν} {t : Table κ ν}
    (h : ∀ e ∈ t.entries, f e.1 e.2 = e.2) : t.mapValues f = t := by
  refine ext_entries ((List.map_congr_left fun e he => ?_).trans (List.map_id t.entries))
  exact Prod.ext rfl (h e he)

theorem key_ne_of_split {t : Table κ ν} {before after : List (κ × ν)} {k : κ} {v : ν}
    (h : t.entries = before ++ (k, v) :: after) :
    (∀ e ∈ before, e.1 ≠ k) ∧ ∀ e ∈ after, e.1 ≠ k := by
  have hnodup := t.nodup
  rw [h, List.map_append, List.map_cons, List.nodup_append] at hnodup
  obtain ⟨-, hafter, hbefore⟩ := hnodup
  refine ⟨fun e he heq => ?_, fun e he heq => ?_⟩
  · exact hbefore e.1 (List.mem_map.2 ⟨e, he, rfl⟩) k List.mem_cons_self heq
  · exact (List.nodup_cons.1 hafter).1 (List.mem_map.2 ⟨e, he, heq⟩)

variable [DecidableEq κ]

theorem filter_key {t : Table κ ν} {k : κ} {v : ν} (h : t.find? k = some v) :
    t.entries.filter (fun e => e.1 = k) = [(k, v)] := by
  obtain ⟨before, after, hsplit⟩ := List.append_of_mem (mem_of_find? h)
  obtain ⟨hbefore, hafter⟩ := key_ne_of_split hsplit
  have hnone : ∀ es : List (κ × ν), (∀ e ∈ es, e.1 ≠ k) → es.filter (fun e => e.1 = k) = [] :=
    fun es hes => List.filter_eq_nil_iff.2 fun e he => by simpa using hes e he
  rw [hsplit, List.filter_append, List.filter_cons_of_pos (by simp), hnone before hbefore,
    hnone after hafter, List.nil_append]

theorem key_ne_of_find? {t : Table κ ν} {k : κ} (h : t.find? k = none) :
    ∀ e ∈ t.entries, e.1 ≠ k := by
  intro e he heq
  have hfind := find?_of_mem (k := e.1) (v := e.2) he
  rw [heq, h] at hfind
  cases hfind

theorem erase_eq_self {t : Table κ ν} {k : κ} (h : t.find? k = none) : t.erase k = t :=
  ext_entries (List.filter_eq_self.2 fun e he => decide_eq_true (key_ne_of_find? h e he))

theorem find?_mapValues (f : κ → ν → ν) (t : Table κ ν) (k : κ) :
    (t.mapValues f).find? k = (t.find? k).map (f k) := by
  simp only [find?, mapValues, List.find?_map, Function.comp_def, Option.map_map]
  cases h : t.entries.find? (fun e => decide (e.1 = k)) with
  | none => rfl
  | some e =>
      have hk : e.1 = k := by simpa using List.find?_some h
      simp [hk]

theorem update_find? (t : Table κ ν) (k : κ) (v : ν) :
    (t.insert k v).find? = Function.update t.find? k (some v) := by
  funext k'
  rw [Function.update_apply]
  exact t.find?_insert k k' v

theorem entries_insert_new {t : Table κ ν} {k : κ} (v : ν) (h : t.contains k = false) :
    (t.insert k v).entries = t.entries ++ [(k, v)] := by
  rw [insert, dif_neg (by simp [h])]

theorem size_insert_old {t : Table κ ν} {k : κ} (v : ν) (h : t.contains k) :
    (t.insert k v).size = t.size := by
  rw [← length_keys, keys_insert, if_pos h, length_keys]

/-- A key that is present keeps its place. -/
theorem entries_insert_old {t : Table κ ν} {before after : List (κ × ν)} {k : κ} {w : ν} (v : ν)
    (h : t.entries = before ++ (k, w) :: after) :
    (t.insert k v).entries = before ++ (k, v) :: after := by
  have hmem : t.contains k := by
    rw [contains_iff, keys, h]
    simp
  obtain ⟨hbefore, hafter⟩ := key_ne_of_split h
  have hkeep : ∀ es : List (κ × ν), (∀ e ∈ es, e.1 ≠ k) → es.map (replace k v) = es := by
    intro es hes
    refine (List.map_congr_left fun e he => ?_).trans (List.map_id es)
    rw [replace, if_neg (hes e he), id]
  rw [insert, dif_pos hmem]
  simp only [h, List.map_append, List.map_cons]
  rw [hkeep before hbefore, hkeep after hafter, replace, if_pos rfl]

theorem entries_erase_old {t : Table κ ν} {before after : List (κ × ν)} {k : κ} {v : ν}
    (h : t.entries = before ++ (k, v) :: after) : (t.erase k).entries = before ++ after := by
  obtain ⟨hbefore, hafter⟩ := key_ne_of_split h
  have hkeep : ∀ es : List (κ × ν), (∀ e ∈ es, e.1 ≠ k) → es.filter (fun e => e.1 ≠ k) = es :=
    fun es hes => List.filter_eq_self.2 fun e he => decide_eq_true (hes e he)
  calc (t.erase k).entries = (before ++ (k, v) :: after).filter fun e => e.1 ≠ k :=
        congrArg (List.filter _) h
    _ = before ++ after := by
      rw [List.filter_append, List.filter_cons_of_neg (by simp), hkeep before hbefore,
        hkeep after hafter]

theorem eq_empty {t : Table κ ν} (h : ∀ k, t.find? k = none) : t = .empty := by
  obtain ⟨entries, nodup⟩ := t
  cases entries with
  | nil => rfl
  | cons e es =>
      have hfind := find?_of_mem (t := ⟨e :: es, nodup⟩) (k := e.1) (v := e.2) List.mem_cons_self
      cases hfind.symm.trans (h e.1)

theorem find?_foldl_erase (ks : List κ) (t : Table κ ν) (k : κ) :
    (ks.foldl erase t).find? k = if k ∈ ks then none else t.find? k := by
  induction ks generalizing t with
  | nil => simp
  | cons k' ks ih =>
      rw [List.foldl_cons, ih, find?_erase]
      by_cases hk : k = k' <;> by_cases hks : k ∈ ks <;> simp [hk, hks]

end Table

namespace NameMap

variable {ν : Type}

theorem ext_entries {m m' : NameMap ν} (h : m.entries = m'.entries) : m = m' :=
  (mk.injEq ..).mpr h

theorem keys_mapValues (f : String → ν → ν) (m : NameMap ν) : (m.mapValues f).keys = m.keys :=
  List.map_map

theorem mapValues_mapValues (f g : String → ν → ν) (m : NameMap ν) :
    (m.mapValues f).mapValues g = m.mapValues fun k v => g k (f k v) :=
  ext_entries List.map_map

theorem mapValues_eq_self {f : String → ν → ν} {m : NameMap ν}
    (h : ∀ e ∈ m.entries, f e.1 e.2 = e.2) : m.mapValues f = m := by
  refine ext_entries ((List.map_congr_left fun e he => ?_).trans (List.map_id m.entries))
  exact Prod.ext rfl (h e he)

theorem insertEntry_map {f : ν → ν} {k : String} {v : ν} {es : List (String × ν)}
    (hsorted : es.Pairwise fun a b => a.1 < b.1) (h : (k, v) ∈ es) :
    insertEntry k (f v) es = es.map fun e => (e.1, if e.1 = k then f e.2 else e.2) := by
  induction es with
  | nil => cases h
  | cons e es ih =>
      obtain ⟨hlt, hes⟩ := List.pairwise_cons.1 hsorted
      rw [insertEntry, List.map_cons]
      rcases List.mem_cons.1 h with rfl | hmem
      · have hrest : es.map (fun e => (e.1, if e.1 = k then f e.2 else e.2)) = es := by
          refine (List.map_congr_left fun e he => ?_).trans (List.map_id es)
          rw [if_neg (String.ne_of_lt (hlt e he)).symm, id]
        rw [if_neg (String.lt_irrefl k), if_pos rfl, if_pos rfl, hrest]
      · have hek : e.1 < k := hlt _ hmem
        rw [if_neg (String.lt_asymm hek), if_neg (String.ne_of_lt hek).symm, ih hes hmem,
          if_neg (String.ne_of_lt hek)]

/-- A name that is bound keeps its place and takes the new value. -/
theorem insert_map {m : NameMap ν} {k : String} {v : ν} (f : ν → ν) (h : m.find? k = some v) :
    m.insert k (f v) = m.mapValues fun n w => if n = k then f w else w := by
  obtain ⟨e, he, rfl⟩ := Option.map_eq_some_iff.1 h
  have hk : e.1 = k := by simpa using List.find?_some he
  subst hk
  exact ext_entries (insertEntry_map m.sorted (List.mem_of_find?_eq_some he))

/-- Binding a name to what it is bound to changes nothing. -/
theorem insert_eq_self {m : NameMap ν} {k : String} {v : ν} (h : m.find? k = some v) :
    m.insert k v = m :=
  (insert_map id h).trans (mapValues_eq_self fun _ _ => ite_self _)

end NameMap

end PlanarSketch
