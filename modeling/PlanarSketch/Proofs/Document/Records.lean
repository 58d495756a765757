import Mathlib.Data.List.Forall2
import PlanarSketch.Document.Decode
import PlanarSketch.Proofs.Words

/-!
The records of a document and the values in them, written and read back. A format is described by
what it takes to be read back as it was, and by the fact that whatever is read is like that. Both
are shown for the values that a member can hold, for the list of members of a record, and for the
options that a record leaves out.
-/

namespace PlanarSketch

variable {α β γ : Type}

theorem mapM_eq_some_iff {f : β → Option γ} {xs : List β} {ys : List γ} :
    xs.mapM f = some ys ↔ List.Forall₂ (fun x y => f x = some y) xs ys := by
  induction xs generalizing ys with
  | nil =>
      rw [List.mapM_nil, List.forall₂_nil_left_iff]
      exact ⟨fun h => (Option.some.inj h).symm, fun h => congrArg some h.symm⟩
  | cons x xs ih =>
      rw [List.mapM_cons]
      constructor
      · intro h
        obtain ⟨y, hy, h⟩ := Option.bind_eq_some_iff.1 h
        obtain ⟨ys', hys, h⟩ := Option.bind_eq_some_iff.1 h
        cases h
        exact .cons hy (ih.1 hys)
      · intro h
        cases h with
        | cons hy hys =>
            rw [hy, ih.2 hys]
            rfl

theorem forall_of_mapM {f : β → Option γ} {P : γ → Prop} {xs : List β} {ys : List γ}
    (h : xs.mapM f = some ys) (hP : ∀ x ∈ xs, ∀ y, f x = some y → P y) : ∀ y ∈ ys, P y := by
  induction mapM_eq_some_iff.1 h with
  | nil => exact nofun
  | cons hx hxs ih =>
      refine List.forall_mem_cons.2 ⟨hP _ List.mem_cons_self _ hx, ?_⟩
      exact ih (mapM_eq_some_iff.2 hxs) fun x hx => hP x (List.mem_cons_of_mem _ hx)

namespace Json

/-! ### The members of an object -/

def names (members : List (String × Json α)) : List String := members.map Prod.fst

variable {members : List (String × Json α)} {name : String} {j : Json α}

theorem get?_eq_some (h : get? members name = some j) : (name, j) ∈ members := by
  obtain ⟨⟨name', j'⟩, hfind, rfl⟩ := Option.map_eq_some_iff.1 h
  obtain rfl : name' = name := by simpa using List.find?_some hfind
  exact List.mem_of_find?_eq_some hfind

theorem get?_of_mem (hnodup : (names members).Nodup) (h : (name, j) ∈ members) :
    get? members name = some j := by
  induction members with
  | nil => cases h
  | cons e members ih =>
      obtain ⟨hne, hnodup⟩ := List.nodup_cons.1 hnodup
      rcases List.mem_cons.1 h with rfl | h
      · simp [get?]
      · have hname : e.1 ≠ name := fun heq => hne (heq ▸ List.mem_map_of_mem h)
        rw [get?, List.find?_cons_of_neg (by simpa using hname)]
        exact ih hnodup h

theorem get?_eq_none (h : name ∉ names members) : get? members name = none := by
  rw [get?, Option.map_eq_none_iff, List.find?_eq_none]
  intro e he hname
  exact h (of_decide_eq_true hname ▸ List.mem_map_of_mem he)

theorem names_append (members members' : List (String × Json α)) :
    names (members ++ members') = names members ++ names members' :=
  List.map_append

theorem get?_cons (e : String × Json α) :
    get? (e :: members) name = if e.1 = name then some e.2 else get? members name := by
  by_cases h : e.1 = name <;> simp [get?, h]

theorem get?_append (members' : List (String × Json α)) :
    get? (members ++ members') name = (get? members name).or (get? members' name) := by
  rw [get?, List.find?_append, Option.map_or]
  rfl

theorem get?_optionalMember (name' : String) (f : β → Json α) (o : Option β) :
    get? (optionalMember name' f o) name = if name' = name then o.map f else none := by
  cases o with
  | none => exact (ite_self none).symm
  | some b => exact get?_cons _

theorem names_optionalMember (name : String) (f : β → Json α) (o : Option β) :
    (names (optionalMember name f o)).Sublist [name] := by
  cases o with
  | none => exact List.nil_sublist _
  | some b => exact List.Sublist.refl _

theorem occursOnce_of_nodup (hnodup : (names members).Nodup) (name : String) :
    occursOnce members name = true := by
  have hcount : (members.filter fun e => e.1 = name).length = (names members).count name := by
    rw [names, List.count, List.countP_map, List.countP_eq_length_filter]
    rfl
  rw [occursOnce, hcount]
  exact decide_eq_true (List.nodup_iff_count.1 hnodup name)

theorem record?_obj (hnodup : (names members).Nodup) (ns : List String) :
    record? ns (obj members) = some members := by
  rw [record?, if_pos]
  exact List.all_eq_true.2 fun n _ => occursOnce_of_nodup hnodup n

theorem tagged?_obj {tag : Json α} (hnodup : (names (("type", tag) :: members)).Nodup) :
    (obj (("type", tag) :: members)).tagged? = some (tag, obj members) := by
  have hrest : (members.filter fun e => e.1 ≠ "type") = members := by
    rw [List.filter_eq_self]
    intro e he
    have hname : e.1 ∈ names members := List.mem_map_of_mem he
    exact decide_eq_true fun heq => (List.nodup_cons.1 hnodup).1 (heq ▸ hname)
  rw [tagged?, if_pos (occursOnce_of_nodup hnodup "type"), get?_of_mem hnodup List.mem_cons_self,
    List.filter_cons_of_neg (by simp), hrest]
  rfl

/-- The tag of an object is its member of that name. -/
theorem get?_of_tagged? {tag rest : Json α} (h : (obj members).tagged? = some (tag, rest)) :
    get? members "type" = some tag := by
  rw [tagged?] at h
  split at h
  · obtain ⟨tag', htag, heq⟩ := Option.map_eq_some_iff.1 h
    cases heq
    exact htag
  · cases h

/-- No variant is found for an object with a tag that names none. -/
theorem variant_eq_none {byPlace : Bool} {name : β → String} {variants : List β} {s : String}
    (htag : get? members "type" = some (.str s)) (hs : ∀ v ∈ variants, name v ≠ s)
    (read : β → Json α → Option γ) :
    ((obj members).tagged?.bind fun e =>
      (e.1.variant? byPlace name variants).bind fun v => read v e.2) = none := by
  rw [Option.bind_eq_none_iff]
  rintro ⟨tag, rest⟩ htagged
  obtain rfl : .str s = tag := Option.some.inj (htag.symm.trans (get?_of_tagged? htagged))
  have hvariant : (str (α := α) s).variant? byPlace name variants = none := by
    rw [variant?, List.find?_eq_none]
    exact fun v hv => by simpa using hs v hv
  rw [hvariant]
  rfl

/-! ### Sound values -/

/-- Values that a text can hold: integers of a machine word, and otherwise finite numbers. -/
inductive Sound [Scalar α] : Json α → Prop where
  | null : Sound null
  | bool (b : Bool) : Sound (bool b)
  | int {n : Int} (low : -2 ^ 63 ≤ n) (high : n < 2 ^ 64) : Sound (int n)
  | real {x : α} (finite : Scalar.isFinite x) : Sound (real x)
  | str (s : String) : Sound (str s)
  | arr {xs : List (Json α)} (elements : ∀ x ∈ xs, Sound x) : Sound (arr xs)
  | obj {members : List (String × Json α)} (members_sound : ∀ e ∈ members, Sound e.2) :
      Sound (obj members)

variable [Scalar α]

theorem sound_get? (h : ∀ e ∈ members, e.2.Sound) (hj : get? members name = some j) : j.Sound :=
  h _ (get?_eq_some hj)

theorem sound_record? {ns : List String} (h : j.Sound) (hr : record? ns j = some members) :
    ∀ e ∈ members, e.2.Sound := by
  cases h with
  | arr elements =>
      rw [record?] at hr
      split at hr <;> cases hr
      exact fun e he => elements e.2 (List.of_mem_zip he).2
  | obj members_sound =>
      rw [record?] at hr
      split at hr <;> cases hr
      exact members_sound
  | _ => cases hr

theorem sound_tagged? {tag rest : Json α} (h : j.Sound) (ht : j.tagged? = some (tag, rest)) :
    rest.Sound := by
  cases h with
  | arr elements =>
      rename_i xs
      cases xs with
      | nil => cases ht
      | cons x xs =>
          cases ht
          exact .arr fun x hx => elements x (List.mem_cons_of_mem _ hx)
  | obj members_sound =>
      rw [tagged?] at ht
      split at ht
      · obtain ⟨tag', -, heq⟩ := Option.map_eq_some_iff.1 ht
        cases heq
        exact .obj fun e he => members_sound e (List.mem_filter.1 he).1
      · cases ht
  | _ => cases ht

end Json

/-! ### Formats -/

section

variable [Scalar α]

/-- What is lossless is read back as it was written, and nothing else is ever read. -/
structure RoundTrips (write : β → Json α) (read : Json α → Option β) (Lossless : β → Prop) :
    Prop where
  read_write : ∀ b, Lossless b → read (write b) = some b
  lossless : ∀ j b, j.Sound → read j = some b → Lossless b

namespace RoundTrips

open Json

variable {write : β → Json α} {read : Json α → Option β} {Lossless : β → Prop}
  {members : List (String × Json α)}

/-- What has been read is read back from its own writing. -/
theorem stable (h : RoundTrips write read Lossless) {j : Json α} {b : β} (hj : j.Sound)
    (hb : read j = some b) : read (write b) = some b :=
  h.read_write b (h.lossless j b hj hb)

theorem list (h : RoundTrips write read Lossless) :
    RoundTrips (fun bs => .arr (bs.map write)) (fun j => j.toArray?.bind (·.mapM read))
      (fun bs => ∀ b ∈ bs, Lossless b) where
  read_write bs hbs := by
    show (bs.map write).mapM read = some bs
    rw [mapM_eq_some_iff, List.forall₂_map_left_iff, List.forall₂_same]
    exact fun b hb => h.read_write b (hbs b hb)
  lossless j bs hj hbs := by
    obtain ⟨xs, hxs, hbs⟩ := Option.bind_eq_some_iff.1 hbs
    cases hj with
    | arr elements =>
        cases hxs
        exact forall_of_mapM hbs fun x hx b hb => h.lossless x b (elements x hx) hb
    | _ => cases hxs

/-- Members of one sort are read back by their names. -/
theorem mapM_get? (h : RoundTrips write read Lossless) (ns : List String) (bs : List β)
    (hnodup : (names members).Nodup) (hlength : ns.length = bs.length)
    (hmembers : ns.zip (bs.map write) ⊆ members) (hbs : ∀ b ∈ bs, Lossless b) :
    (ns.mapM fun n => (get? members n).bind read) = some bs := by
  rw [mapM_eq_some_iff, List.forall₂_iff_zip]
  refine ⟨hlength, fun {n b} hnb => ?_⟩
  have hmem : (n, write b) ∈ ns.zip (bs.map write) := by
    rw [List.zip_map_right]
    exact List.mem_map_of_mem hnb
  rw [get?_of_mem hnodup (hmembers hmem)]
  exact h.read_write b (hbs b (List.of_mem_zip hnb).2)

theorem lossless_mapM (h : RoundTrips write read Lossless) {ns : List String} {bs : List β}
    (hmembers : ∀ e ∈ members, e.2.Sound)
    (hbs : (ns.mapM fun n => (get? members n).bind read) = some bs) : ∀ b ∈ bs, Lossless b := by
  refine forall_of_mapM hbs fun n _ b hb => ?_
  obtain ⟨j, hj, hb⟩ := Option.bind_eq_some_iff.1 hb
  exact h.lossless j b (sound_get? hmembers hj) hb

/-- An option is left out of the record when it is not set. -/
theorem optional (h : RoundTrips write read Lossless) {name : String} {o : Option β}
    (hget : get? members name = o.map write) (hnull : read .null = none)
    (ho : ∀ b ∈ o, Lossless b) : optional? read members name = some o := by
  rw [optional?, hget]
  cases o with
  | none => rfl
  | some b =>
      have hread := h.read_write b (ho b rfl)
      rw [Option.map_some]
      generalize write b = j at hread ⊢
      cases j with
      | null => cases hnull.symm.trans hread
      | _ => exact congrArg (Option.map some) hread

theorem lossless_optional (h : RoundTrips write read Lossless) {name : String} {o : Option β}
    (hmembers : ∀ e ∈ members, e.2.Sound) (ho : optional? read members name = some o) :
    ∀ b ∈ o, Lossless b := by
  rw [optional?] at ho
  rintro b rfl
  split at ho
  · cases ho
  · cases ho
  · next j _ hget =>
      obtain ⟨b', hread, hb⟩ := Option.map_eq_some_iff.1 ho
      cases hb
      exact h.lossless j b (sound_get? hmembers hget) hread

end RoundTrips

end

end PlanarSketch
