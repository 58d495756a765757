/-!
Finite maps from names, held in the byte order of the names. Two maps are equal when they bind
the same names to the same values, whatever the order in which they were filled.
-/

namespace PlanarSketch

structure NameMap (ν : Type) where
  entries : List (String × ν)
  sorted : entries.Pairwise fun a b => a.1 < b.1

namespace NameMap

variable {ν μ : Type}

def empty : NameMap ν := ⟨[], .nil⟩

instance : Inhabited (NameMap ν) := ⟨empty⟩

instance [BEq ν] : BEq (NameMap ν) := ⟨fun m n => m.entries == n.entries⟩

def keys (m : NameMap ν) : List String := m.entries.map Prod.fst

def find? (m : NameMap ν) (k : String) : Option ν :=
  (m.entries.find? fun e => e.1 = k).map Prod.snd

def insertEntry (k : String) (v : ν) : List (String × ν) → List (String × ν)
  | [] => [(k, v)]
  | e :: es =>
      if k < e.1 then (k, v) :: e :: es
      else if k = e.1 then (k, v) :: es
      else e :: insertEntry k v es

theorem mem_insertEntry {k : String} {v : ν} {e : String × ν} {es : List (String × ν)}
    (h : e ∈ insertEntry k v es) : e = (k, v) ∨ e ∈ es := by
  induction es with
  | nil => simpa [insertEntry] using h
  | cons a es ih => grind [insertEntry]

theorem lt_of_not_lt_of_ne {a b : String} (h : ¬ a < b) (hne : a ≠ b) : b < a :=
  Std.lt_of_le_of_ne (String.not_lt.1 h) (Ne.symm hne)

theorem sorted_insertEntry (k : String) (v : ν) (es : List (String × ν))
    (h : es.Pairwise fun a b => a.1 < b.1) :
    (insertEntry k v es).Pairwise fun a b => a.1 < b.1 := by
  induction es with
  | nil => simp [insertEntry]
  | cons a es ih =>
      obtain ⟨ha, hes⟩ := List.pairwise_cons.1 h
      unfold insertEntry
      split
      · next hlt =>
          refine List.pairwise_cons.2 ⟨?_, h⟩
          intro b hb
          rcases List.mem_cons.1 hb with rfl | hb
          · exact hlt
          · exact String.lt_trans hlt (ha b hb)
      · split
        · next heq => exact List.pairwise_cons.2 ⟨by simpa [heq] using ha, hes⟩
        · next hlt hne =>
            refine List.pairwise_cons.2 ⟨?_, ih hes⟩
            intro b hb
            rcases mem_insertEntry hb with rfl | hb
            · exact lt_of_not_lt_of_ne hlt hne
            · exact ha b hb

def insert (m : NameMap ν) (k : String) (v : ν) : NameMap ν :=
  ⟨insertEntry k v m.entries, sorted_insertEntry k v m.entries m.sorted⟩

def ofList (es : List (String × ν)) : NameMap ν :=
  es.foldl (fun m e => m.insert e.1 e.2) empty

theorem find?_insertEntry (k k' : String) (v : ν) (es : List (String × ν))
    (h : es.Pairwise fun a b => a.1 < b.1) :
    ((insertEntry k v es).find? fun e => e.1 = k').map Prod.snd =
      if k' = k then some v else (es.find? fun e => e.1 = k').map Prod.snd := by
  induction es with
  | nil => by_cases hk : k' = k <;> simp [insertEntry, hk, eq_comm]
  | cons a es ih =>
      have ih := ih (List.pairwise_cons.1 h).2
      unfold insertEntry
      by_cases hk : k' = k <;> by_cases ha : a.1 = k' <;> grind

theorem find?_insert (m : NameMap ν) (k k' : String) (v : ν) :
    (m.insert k v).find? k' = if k' = k then some v else m.find? k' :=
  find?_insertEntry k k' v m.entries m.sorted

theorem insertEntry_last {k : String} {es : List (String × ν)} (v : ν) (h : ∀ e ∈ es, e.1 < k) :
    insertEntry k v es = es ++ [(k, v)] := by
  induction es with
  | nil => rfl
  | cons a es ih =>
      have ha : a.1 < k := h a List.mem_cons_self
      have hne : k ≠ a.1 := fun heq => String.lt_irrefl k (heq ▸ ha)
      rw [insertEntry, if_neg (String.lt_asymm ha), if_neg hne,
        ih fun e he => h e (List.mem_cons_of_mem a he)]
      rfl

theorem entries_foldl_insert {es : List (String × ν)} {m : NameMap ν}
    (h : (m.entries ++ es).Pairwise fun a b => a.1 < b.1) :
    (es.foldl (fun m e => m.insert e.1 e.2) m).entries = m.entries ++ es := by
  induction es generalizing m with
  | nil => exact (List.append_nil _).symm
  | cons e es ih =>
      have hlast : (m.insert e.1 e.2).entries = m.entries ++ [e] :=
        insertEntry_last e.2 fun a ha => (List.pairwise_append.1 h).2.2 a ha e List.mem_cons_self
      rw [List.append_cons] at h ⊢
      rw [List.foldl_cons, ih (hlast ▸ h), hlast]

/-- A map is refilled from its own entries. -/
theorem ofList_entries (m : NameMap ν) : ofList m.entries = m := by
  have hentries : (ofList m.entries).entries = m.entries := entries_foldl_insert m.sorted
  obtain ⟨es, hes⟩ := m
  exact (mk.injEq ..).mpr hentries

theorem mem_foldl_insert {es : List (String × ν)} {m : NameMap ν} {e : String × ν}
    (h : e ∈ (es.foldl (fun m e => m.insert e.1 e.2) m).entries) : e ∈ m.entries ∨ e ∈ es := by
  induction es generalizing m with
  | nil => exact .inl h
  | cons a es ih =>
      rcases ih h with h | h
      · rcases mem_insertEntry h with rfl | h
        · exact .inr List.mem_cons_self
        · exact .inl h
      · exact .inr (List.mem_cons_of_mem a h)

theorem mem_ofList {es : List (String × ν)} {e : String × ν} (h : e ∈ (ofList es).entries) :
    e ∈ es :=
  (mem_foldl_insert h).resolve_left List.not_mem_nil

/-- Changes values and keeps names. -/
def mapValues (f : String → ν → μ) (m : NameMap ν) : NameMap μ :=
  ⟨m.entries.map fun e => (e.1, f e.1 e.2), List.pairwise_map.2 m.sorted⟩

theorem find?_mapValues (f : String → ν → μ) (m : NameMap ν) (k : String) :
    (m.mapValues f).find? k = (m.find? k).map (f k) := by
  simp only [find?, mapValues, List.find?_map, Function.comp_def, Option.map_map]
  cases h : m.entries.find? (fun e => e.1 = k) with
  | none => simp
  | some e => have := List.find?_some h; simp_all

end NameMap

end PlanarSketch
