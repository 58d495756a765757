import PlanarSketch.Sketch.Constraint
import PlanarSketch.Proofs.Indices
import PlanarSketch.Proofs.Tables

/-!
Giving a constraint other ids. Which parameters hold an id is read off the schema twice, to list
the ids and to replace them; `relabel` says in one step what a remap leaves, as a function of the
answers to the listed ids. Two remaps are then one, with the answers put together.
-/

namespace PlanarSketch

variable {α : Type}

theorem Kind.nodup_userParams (k : Kind) : (k.userParams.map ParamSpec.name).Nodup :=
  k.nodup_schema.sublist ((List.sublist_append_left _ _).map _)

/-- Lists of the same places are the same place by place. -/
theorem eq_of_filterMap_eq {β γ : Type} {u v : β → Option γ} {l : List β}
    (hsome : ∀ x ∈ l, (u x).isSome = (v x).isSome) (h : l.filterMap u = l.filterMap v) :
    ∀ x ∈ l, u x = v x := by
  induction l with
  | nil => nofun
  | cons x l ih =>
      obtain ⟨hx, hl⟩ := List.forall_mem_cons.1 hsome
      cases hu : u x with
      | none =>
          have hv : v x = none := by rwa [hu, eq_comm, Option.isSome_none, Option.isSome_eq_false_iff,
            Option.isNone_iff_eq_none] at hx
          rw [List.filterMap_cons_none hu, List.filterMap_cons_none hv] at h
          exact List.forall_mem_cons.2 ⟨hu.trans hv.symm, ih hl h⟩
      | some y =>
          obtain ⟨z, hv⟩ : ∃ z, v x = some z := by
            rwa [hu, eq_comm, Option.isSome_some, Option.isSome_iff_exists] at hx
          rw [List.filterMap_cons_some hu, List.filterMap_cons_some hv] at h
          obtain ⟨rfl, hrest⟩ := List.cons.inj h
          exact List.forall_mem_cons.2 ⟨hu.trans hv.symm, ih hl hrest⟩

/-! ### The ids in values -/

namespace ParamValue

variable [Scalar α]

/-- The id that a value stands for in a slot. -/
def idIn? : Slot → ParamValue α → Option Oid
  | .geometry _, v => v.toOid?
  | _, .ref r => some r.target
  | _, _ => none

/-- The value with its id replaced. -/
def retarget (id : Oid) : ParamValue α → ParamValue α
  | ref r => ref { r with target := id }
  | _ => ofOid id

/-- The value with the id that it is answered, if there is one. -/
def answered (v : ParamValue α) (answer : Option Oid) : ParamValue α :=
  answer.elim v fun id => v.retarget id

theorem answered_answered (v : ParamValue α) (a b : Option Oid) :
    (v.answered a).answered b = v.answered (b.or a) := by
  cases a <;> cases b <;> first | rfl | (cases v <;> rfl)

theorem answered_ref (r : PropertyRef) (a : Option Oid) :
    (ref r : ParamValue α).answered a = ref { r with target := a.getD r.target } := by
  cases a <;> rfl

theorem exists_answered_number (x : α) (a : Option Oid) : ∃ y, (number x).answered a = number y := by
  cases a <;> exact ⟨_, rfl⟩

theorem toOid?_eq_some {v : ParamValue α} {id : Oid} :
    v.toOid? = some id ↔ ∃ x, v = .number x ∧ Scalar.toIndex? x = some id.val := by
  obtain ⟨n⟩ := id
  cases v <;> simp [toOid?]

/-- An id is a number in the slot of a geometry and the target of a reference in any other. -/
theorem idIn?_eq_some {s : Slot} {v : ParamValue α} {id : Oid} :
    v.idIn? s = some id ↔
      (∃ k, s = .geometry k) ∧ v.toOid? = some id ∨
        (∀ k, s ≠ .geometry k) ∧ ∃ r, v = .ref r ∧ r.target = id := by
  cases s <;> cases v <;> simp [idIn?]

theorem sort_answered {s : Slot} {v : ParamValue α} {id : Oid} (a : Option Oid)
    (h : v.idIn? s = some id) : (v.answered a).sort = v.sort := by
  cases a <;> cases s <;> cases v <;> first | rfl | cases h

theorem sort_ne_name {s : Slot} {v : ParamValue α} {id : Oid} (h : v.idIn? s = some id) :
    v.sort ≠ .name := by
  rcases idIn?_eq_some.1 h with ⟨-, hoid⟩ | ⟨-, r, rfl, -⟩
  · obtain ⟨x, rfl, -⟩ := toOid?_eq_some.1 hoid
    nofun
  · nofun

variable [Scalar.HoldsIndices α]

theorem idIn?_answered {s : Slot} {v : ParamValue α} {id : Oid} (a : Option Oid)
    (h : v.idIn? s = some id) : (v.answered a).idIn? s = some (a.getD id) := by
  cases a with
  | none => exact h
  | some a =>
      have hnumber : (ofOid a : ParamValue α).toOid? = some a :=
        toOid?_eq_some.2 ⟨_, rfl, Scalar.HoldsIndices.toIndex?_ofIndex a.val⟩
      rcases idIn?_eq_some.1 h with ⟨⟨k, rfl⟩, hoid⟩ | ⟨hs, r, rfl, -⟩
      · obtain ⟨x, rfl, -⟩ := toOid?_eq_some.1 hoid
        exact hnumber
      · exact idIn?_eq_some.2 (.inr ⟨hs, _, rfl, rfl⟩)

end ParamValue

/-! ### Answers by name -/

/-- The answers to the ids of some parameters, under the names of these parameters. -/
def answerAt (ps : List ParamSpec) (answers : List (Option Oid)) (n : String) : Option Oid :=
  (((ps.map ParamSpec.name).zip answers).lookup n).join

theorem answerAt_cons (p : ParamSpec) (ps : List ParamSpec) (a : Option Oid)
    (answers : List (Option Oid)) (n : String) :
    answerAt (p :: ps) (a :: answers) n = if n = p.name then a else answerAt ps answers n := by
  rw [answerAt, List.map_cons, List.zip_cons_cons, List.lookup_cons]
  by_cases h : n = p.name
  · rw [if_pos h, beq_iff_eq.2 h, Option.join_some]
  · rw [if_neg h, beq_eq_false_iff_ne.2 h]
    rfl

theorem exists_of_answerAt {ps : List ParamSpec} {answers : List (Option Oid)} {n : String}
    {id : Oid} (h : answerAt ps answers n = some id) : ∃ p ∈ ps, p.name = n := by
  induction ps generalizing answers with
  | nil => cases h
  | cons p ps ih =>
      cases answers with
      | nil => cases h
      | cons a answers =>
          rw [answerAt_cons] at h
          split at h
          · next hn => exact ⟨p, List.mem_cons_self, hn.symm⟩
          · obtain ⟨q, hq, hn⟩ := ih h
            exact ⟨q, List.mem_cons_of_mem p hq, hn⟩

theorem answerAt_eq_none {ps : List ParamSpec} (answers : List (Option Oid)) {n : String}
    (h : ∀ p ∈ ps, p.name ≠ n) : answerAt ps answers n = none := by
  refine Option.eq_none_iff_forall_not_mem.2 fun id hid => ?_
  obtain ⟨p, hp, hn⟩ := exists_of_answerAt hid
  exact h p hp hn

theorem answerAt_zipWith_or {as bs : List (Option Oid)} (ps : List ParamSpec) (n : String)
    (h : as.length = bs.length) :
    answerAt ps (List.zipWith (fun a b => b.or a) as bs) n =
      (answerAt ps bs n).or (answerAt ps as n) := by
  induction ps generalizing as bs with
  | nil => rfl
  | cons p ps ih =>
      cases as with
      | nil =>
          rw [List.length_eq_zero_iff.1 h.symm]
          rfl
      | cons a as =>
          obtain ⟨b, bs, rfl⟩ := List.exists_cons_of_length_eq_add_one h.symm
          rw [List.zipWith_cons_cons, answerAt_cons, answerAt_cons, answerAt_cons,
            ih (Nat.succ.inj h)]
          split <;> rfl

/-! ### A remap in one step -/

namespace Constraint

theorem paramNameOf?_eq_some {c : Constraint α} {p : ParamSpec} {s : String} :
    c.paramNameOf? p = some s ↔ c.param? p.name = some (.name s) := by
  rw [paramNameOf?]
  split
  · next h => simp [h]
  · next h => simpa using h s

variable [Scalar α]

/-- The parameters that hold an id, in schema order. -/
def references (c : Constraint α) : List ParamSpec :=
  c.kind.userParams.filter fun p => (c.idOf? p).isSome

/-- The constraint with the answers that its parameters are given by name. -/
def withAnswers (c : Constraint α) (answer : String → Option Oid) : Constraint α :=
  { c with params := c.params.mapValues fun n v => v.answered (answer n) }

/-- The constraint with the answers to its ids, in the order in which it lists them. -/
def relabel (c : Constraint α) (answers : List (Option Oid)) : Constraint α :=
  c.withAnswers (answerAt c.references answers)

theorem idOf?_eq (c : Constraint α) (p : ParamSpec) :
    c.idOf? p = (c.param? p.name).bind (ParamValue.idIn? p.slot) := by
  rw [idOf?]
  cases p.slot <;> cases c.param? p.name with
  | none => rfl
  | some v => cases v <;> rfl

theorem param?_withAnswers (c : Constraint α) (answer : String → Option Oid) (n : String) :
    (c.withAnswers answer).param? n = (c.param? n).map fun v => v.answered (answer n) :=
  NameMap.find?_mapValues _ c.params n

theorem withAnswers_none (c : Constraint α) : c.withAnswers (fun _ => none) = c := by
  rw [withAnswers, NameMap.mapValues_eq_self fun _ _ => rfl]

theorem withAnswers_withAnswers (c : Constraint α) (a b : String → Option Oid) :
    (c.withAnswers a).withAnswers b = c.withAnswers fun n => (b n).or (a n) := by
  simp only [withAnswers, NameMap.mapValues_mapValues, ParamValue.answered_answered]

theorem setParam_eq_withAnswers {c : Constraint α} {n : String} {v : ParamValue α}
    (h : c.param? n = some v) (id : Oid) :
    c.setParam n (v.retarget id) = c.withAnswers fun k => if k = n then some id else none := by
  simp only [setParam, withAnswers]
  rw [NameMap.insert_map (fun w => w.retarget id) h]
  congr 2
  funext k w
  split <;> rfl

/-- Only the answer to a name matters for the id under this name. -/
theorem idOf?_withAnswers_of_none {c : Constraint α} {answer : String → Option Oid} {p : ParamSpec}
    (h : answer p.name = none) : (c.withAnswers answer).idOf? p = c.idOf? p := by
  rw [idOf?_eq, idOf?_eq, param?_withAnswers, h]
  exact congrArg (Option.bind · _) Option.map_id'

theorem withAnswers_cons {c : Constraint α} {p : ParamSpec} {ps : List ParamSpec}
    (a : Option Oid) (answers : List (Option Oid)) (h : ∀ q ∈ ps, q.name ≠ p.name) :
    (c.withAnswers fun n => if n = p.name then a else none).withAnswers (answerAt ps answers) =
      c.withAnswers (answerAt (p :: ps) (a :: answers)) := by
  rw [withAnswers_withAnswers]
  congr 1
  funext n
  rw [answerAt_cons]
  split
  · next hn => rw [hn, answerAt_eq_none answers h, Option.none_or]
  · rw [Option.or_none]

section

variable {m : Type → Type} [Monad m] (f : Oid → m (Option Oid))

/-- A parameter is asked about when it is one of those that are listed. -/
theorem remapParamM_of_none {c : Constraint α} {p : ParamSpec} (h : c.idOf? p = none) :
    remapParamM f c p = pure c := by
  rw [idOf?_eq] at h
  rw [remapParamM]
  cases hv : c.param? p.name with
  | none => rfl
  | some v =>
      rw [hv, Option.bind_some] at h
      cases hslot : p.slot <;> rw [hslot] at h
      case geometry k =>
        simp only [ParamValue.idIn?] at h
        simp only [h]
      all_goals cases v <;> first | rfl | cases h

/-- What it is asked about is the id that is listed for it. -/
theorem remapParamM_eq_bind {c : Constraint α} {p : ParamSpec} {v : ParamValue α} {id : Oid}
    (hv : c.param? p.name = some v) (hid : v.idIn? p.slot = some id) :
    remapParamM f c p = f id >>= fun a =>
      pure (a.elim c fun id' => c.setParam p.name (v.retarget id')) := by
  rw [remapParamM, hv]
  cases hslot : p.slot <;> rw [hslot] at hid
  case geometry k =>
    obtain ⟨x, rfl, -⟩ := ParamValue.toOid?_eq_some.1 hid
    simp only [ParamValue.idIn?] at hid
    simp only [hid]
    refine congrArg (f id >>= ·) (funext fun a => ?_)
    cases a <;> rfl
  all_goals
    cases v <;> cases hid
    refine congrArg (f _ >>= ·) (funext fun a => ?_)
    cases a <;> rfl

variable [LawfulMonad m]

theorem remapParamM_of_some {c : Constraint α} {p : ParamSpec} {id : Oid}
    (h : c.idOf? p = some id) :
    remapParamM f c p =
      (fun a => c.withAnswers fun n => if n = p.name then a else none) <$> f id := by
  obtain ⟨v, hv, hid⟩ := Option.bind_eq_some_iff.1 ((c.idOf?_eq p).symm.trans h)
  rw [remapParamM_eq_bind f hv hid, map_eq_pure_bind]
  refine bind_congr fun a => ?_
  cases a with
  | none => simp only [Option.elim_none, ite_self, withAnswers_none]
  | some id' => simp only [Option.elim_some, setParam_eq_withAnswers hv]

/-- The ids of some parameters are asked for once each, in the order of the parameters. -/
theorem foldlM_remapParamM {ps : List ParamSpec} (hps : (ps.map ParamSpec.name).Nodup)
    (c : Constraint α) :
    ps.foldlM (remapParamM f) c =
      (fun answers => c.withAnswers (answerAt (ps.filter fun p => (c.idOf? p).isSome) answers)) <$>
        (ps.filterMap c.idOf?).mapM f := by
  induction ps generalizing c with
  | nil =>
      rw [List.filterMap_nil, List.mapM_nil, map_pure]
      exact congrArg pure c.withAnswers_none.symm
  | cons p ps ih =>
      obtain ⟨hp, hnodup⟩ := List.nodup_cons.1 hps
      have hne : ∀ q ∈ ps, q.name ≠ p.name := fun q hq h => hp (h ▸ List.mem_map_of_mem hq)
      rw [List.foldlM_cons]
      cases hid : c.idOf? p with
      | none =>
          rw [remapParamM_of_none f hid, pure_bind, ih hnodup, List.filterMap_cons_none hid,
            List.filter_cons_of_neg (by simp [hid])]
      | some id =>
          rw [remapParamM_of_some f hid, bind_map_left, List.filterMap_cons_some hid,
            List.mapM_cons, map_bind, List.filter_cons_of_pos (by simp [hid])]
          refine bind_congr fun a => ?_
          have hsame : ∀ q ∈ ps,
              (c.withAnswers fun n => if n = p.name then a else none).idOf? q = c.idOf? q :=
            fun q hq => idOf?_withAnswers_of_none (if_neg (hne q hq))
          rw [ih hnodup, List.filterMap_congr hsame,
            List.filter_congr fun q hq => congrArg Option.isSome (hsame q hq), map_bind]
          simp only [map_eq_pure_bind, pure_bind]
          refine bind_congr fun answers => congrArg pure ?_
          exact withAnswers_cons a answers fun q hq => hne q (List.mem_filter.1 hq).1

theorem remapM_eq_relabel (c : Constraint α) :
    c.remapM f = c.relabel <$> c.referencedIds.mapM f :=
  foldlM_remapParamM f c.kind.nodup_userParams c

end

theorem remap_eq_relabel (f : Oid → Option Oid) (c : Constraint α) :
    c.remap f = c.relabel (c.referencedIds.map f) := by
  rw [remap, remapM_eq_relabel, List.mapM_pure]
  rfl

/-! ### What a remap leaves -/

/-- A constraint with the answers to its ids for these ids, and nothing else changed. -/
structure Relabeled (c : Constraint α) (answers : List (Option Oid)) (c' : Constraint α) : Prop where
  fields : c' = { c with params := c'.params }
  keys : c'.params.keys = c.params.keys
  ids : c'.referencedIds = List.zipWith (fun id a => a.getD id) c.referencedIds answers
  names : c'.referencedNames = c.referencedNames
  sorts : ∀ n, (c'.param? n).map ParamValue.sort = (c.param? n).map ParamValue.sort
  properties : ∀ n r, c.param? n = some (.ref r) →
    ∃ r', c'.param? n = some (.ref r') ∧ r'.property = r.property
  others : ∀ n, answerAt c.references answers n = none → c'.param? n = c.param? n

/-- Two constraints that are the same, but for numbers that stand for the same id in the same
place. -/
structure EqUpToNumbers (c c' : Constraint α) : Prop where
  fields : c' = { c with params := c'.params }
  keys : c'.params.keys = c.params.keys
  params : ∀ n, c'.param? n = c.param? n ∨
    ∃ p ∈ c.kind.userParams, p.name = n ∧ ∃ x y id,
      c.param? n = some (.number x) ∧ c'.param? n = some (.number y) ∧
        c.idOf? p = some id ∧ c'.idOf? p = some id

/-- Answers by name that only concern parameters that hold an id. -/
def Concerns (c : Constraint α) (answer : String → Option Oid) : Prop :=
  ∀ n, answer n ≠ none → ∃ p ∈ c.kind.userParams, p.name = n ∧ (c.idOf? p).isSome

theorem concerns_answerAt (c : Constraint α) (answers : List (Option Oid)) :
    c.Concerns (answerAt c.references answers) := by
  intro n hn
  obtain ⟨id, hid⟩ := Option.ne_none_iff_exists'.1 hn
  obtain ⟨p, hp, rfl⟩ := exists_of_answerAt hid
  exact ⟨p, (List.mem_filter.1 hp).1, rfl, (List.mem_filter.1 hp).2⟩

theorem Concerns.eq_none {c : Constraint α} {answer : String → Option Oid} {p : ParamSpec}
    (h : c.Concerns answer) (hp : p ∈ c.kind.userParams) (hid : c.idOf? p = none) :
    answer p.name = none := by
  by_contra hne
  obtain ⟨q, hq, hname, hsome⟩ := h p.name hne
  rw [List.inj_on_of_nodup_map c.kind.nodup_userParams hq hp hname, hid] at hsome
  cases hsome

/-- A value that is given an answer holds an id, where it stands. -/
theorem Concerns.exists_id {c : Constraint α} {answer : String → Option Oid} {n : String}
    {v : ParamValue α} (h : c.Concerns answer) (hn : answer n ≠ none) (hv : c.param? n = some v) :
    ∃ p ∈ c.kind.userParams, p.name = n ∧ ∃ id, v.idIn? p.slot = some id := by
  obtain ⟨p, hp, rfl, hsome⟩ := h n hn
  obtain ⟨id, hid⟩ := Option.isSome_iff_exists.1 hsome
  rw [idOf?_eq, hv] at hid
  exact ⟨p, hp, rfl, id, hid⟩

theorem Concerns.sort_eq {c : Constraint α} {answer : String → Option Oid} {n : String}
    {v : ParamValue α} (h : c.Concerns answer) (hv : c.param? n = some v) :
    (v.answered (answer n)).sort = v.sort := by
  by_cases hn : answer n = none
  · rw [hn]
    rfl
  · obtain ⟨p, -, -, id, hid⟩ := h.exists_id hn hv
    exact ParamValue.sort_answered _ hid

theorem Concerns.referencedNames_eq {c : Constraint α} {answer : String → Option Oid}
    (h : c.Concerns answer) : (c.withAnswers answer).referencedNames = c.referencedNames := by
  refine List.filterMap_congr fun p _ => Option.ext fun s => ?_
  rw [paramNameOf?_eq_some, paramNameOf?_eq_some, param?_withAnswers]
  cases hv : c.param? p.name with
  | none => rfl
  | some v =>
      by_cases hn : answer p.name = none
      · rw [hn]
        rfl
      · -- a value that stands for an id is no name, before or after
        obtain ⟨q, -, -, id, hid⟩ := h.exists_id hn hv
        have hsort := h.sort_eq hv
        have hname := ParamValue.sort_ne_name hid
        constructor <;> intro heq
        · rw [Option.map_some, Option.some.injEq] at heq
          rw [heq] at hsort
          exact absurd hsort.symm hname
        · rw [Option.some.inj heq] at hname
          exact absurd rfl hname

/-- The id of a parameter with the answer that it is given by name. -/
def idAfter? (c : Constraint α) (answer : String → Option Oid) (p : ParamSpec) : Option Oid :=
  (c.idOf? p).map fun id => (answer p.name).getD id

theorem idAfter?_congr (c : Constraint α) {answer answer' : String → Option Oid} {p : ParamSpec}
    (h : answer p.name = answer' p.name) : c.idAfter? answer p = c.idAfter? answer' p := by
  rw [idAfter?, idAfter?, h]

/-- Ids that are looked up by name are those that are listed in order. -/
theorem filterMap_idAfter? (c : Constraint α) {ps : List ParamSpec} {answers : List (Option Oid)}
    (hps : (ps.map ParamSpec.name).Nodup)
    (hlen : answers.length = (ps.filterMap c.idOf?).length) :
    ps.filterMap (c.idAfter? (answerAt (ps.filter fun p => (c.idOf? p).isSome) answers)) =
      List.zipWith (fun id a => a.getD id) (ps.filterMap c.idOf?) answers := by
  induction ps generalizing answers with
  | nil => rfl
  | cons p ps ih =>
      obtain ⟨hp, hnodup⟩ := List.nodup_cons.1 hps
      cases hid : c.idOf? p with
      | none =>
          rw [List.filterMap_cons_none hid] at hlen ⊢
          rw [List.filterMap_cons_none (by rw [idAfter?, hid, Option.map_none]),
            List.filter_cons_of_neg (by simp [hid]), ih hnodup hlen]
      | some id =>
          rw [List.filterMap_cons_some hid] at hlen ⊢
          obtain ⟨a, answers, rfl⟩ := List.exists_cons_of_length_eq_add_one hlen
          have hhead : c.idAfter? (answerAt
              (p :: ps.filter fun p => (c.idOf? p).isSome) (a :: answers)) p = some (a.getD id) := by
            rw [idAfter?, hid, answerAt_cons, if_pos rfl, Option.map_some]
          rw [List.filter_cons_of_pos (by simp [hid]), List.filterMap_cons_some hhead,
            List.zipWith_cons_cons, ← ih hnodup (Nat.succ.inj hlen)]
          refine congrArg _ (List.filterMap_congr fun q hq => c.idAfter?_congr ?_)
          exact (answerAt_cons ..).trans (if_neg fun h : q.name = p.name =>
            hp (h ▸ List.mem_map_of_mem hq))

variable [Scalar.HoldsIndices α]

theorem Concerns.idOf?_eq {c : Constraint α} {answer : String → Option Oid} {p : ParamSpec}
    (h : c.Concerns answer) (hp : p ∈ c.kind.userParams) :
    (c.withAnswers answer).idOf? p = c.idAfter? answer p := by
  rw [idAfter?]
  cases hid : c.idOf? p with
  | none => rw [idOf?_withAnswers_of_none (h.eq_none hp hid), hid, Option.map_none]
  | some id =>
      rw [Constraint.idOf?_eq] at hid ⊢
      obtain ⟨v, hv, hid⟩ := Option.bind_eq_some_iff.1 hid
      rw [param?_withAnswers, hv]
      exact ParamValue.idIn?_answered _ hid

theorem referencedIds_relabel {c : Constraint α} {answers : List (Option Oid)}
    (h : answers.length = c.referencedIds.length) :
    (c.relabel answers).referencedIds =
      List.zipWith (fun id a => a.getD id) c.referencedIds answers :=
  (List.filterMap_congr fun _ hp => (c.concerns_answerAt answers).idOf?_eq hp).trans
    (c.filterMap_idAfter? c.kind.nodup_userParams h)

theorem referencedIds_remap (f : Oid → Option Oid) (c : Constraint α) :
    (c.remap f).referencedIds = c.referencedIds.map fun id => (f id).getD id := by
  rw [remap_eq_relabel, referencedIds_relabel (List.length_map _), List.zipWith_map_right,
    List.zipWith_self]

theorem references_relabel (c : Constraint α) (answers : List (Option Oid)) :
    (c.relabel answers).references = c.references := by
  refine List.filter_congr fun p hp => ?_
  rw [relabel, (c.concerns_answerAt answers).idOf?_eq hp, idAfter?, Option.isSome_map]

/-- Answers to answers are answers. -/
theorem relabel_relabel (c : Constraint α) {as bs : List (Option Oid)} (h : as.length = bs.length) :
    (c.relabel as).relabel bs = c.relabel (List.zipWith (fun a b => b.or a) as bs) := by
  rw [relabel, references_relabel, relabel, relabel, withAnswers_withAnswers]
  congr 1
  funext n
  rw [answerAt_zipWith_or _ _ h]

theorem remap_remap (f g : Oid → Option Oid) (c : Constraint α) :
    (c.remap f).remap g = c.remap fun id => (g ((f id).getD id)).or (f id) := by
  rw [remap_eq_relabel g, referencedIds_remap, remap_eq_relabel f, relabel_relabel c (by simp),
    remap_eq_relabel, List.map_map, List.zipWith_map, List.zipWith_self]
  rfl

theorem relabeled_relabel {c : Constraint α} {answers : List (Option Oid)}
    (h : answers.length = c.referencedIds.length) : c.Relabeled answers (c.relabel answers) where
  fields := rfl
  keys := NameMap.keys_mapValues _ _
  ids := referencedIds_relabel h
  names := (c.concerns_answerAt answers).referencedNames_eq
  sorts n := by
    rw [relabel, param?_withAnswers]
    cases hv : c.param? n with
    | none => rfl
    | some v => exact congrArg some ((c.concerns_answerAt answers).sort_eq hv)
  properties n r hr := by
    rw [relabel, param?_withAnswers, hr]
    exact ⟨_, congrArg some (ParamValue.answered_ref r _), rfl⟩
  others n hn := by
    rw [relabel, param?_withAnswers, hn]
    exact Option.map_id'

theorem eqUpToNumbers_withAnswers {c : Constraint α} {a b : String → Option Oid}
    (ha : c.Concerns a) (hb : c.Concerns b)
    (h : ∀ p ∈ c.kind.userParams, c.idAfter? a p = c.idAfter? b p) :
    (c.withAnswers a).EqUpToNumbers (c.withAnswers b) where
  fields := rfl
  keys := (NameMap.keys_mapValues _ _).trans (NameMap.keys_mapValues _ _).symm
  params n := by
    rw [param?_withAnswers, param?_withAnswers]
    cases hv : c.param? n with
    | none => exact .inl rfl
    | some v =>
        by_cases hn : a n = none ∧ b n = none
        · rw [hn.1, hn.2]
          exact .inl rfl
        · have hholds : ∃ p ∈ c.kind.userParams, p.name = n ∧ ∃ id, v.idIn? p.slot = some id := by
            by_cases han : a n = none
            · exact hb.exists_id (fun hbn => hn ⟨han, hbn⟩) hv
            · exact ha.exists_id han hv
          obtain ⟨p, hp, rfl, id, hid⟩ := hholds
          have hof : c.idOf? p = some id := by rw [Constraint.idOf?_eq, hv]; exact hid
          have hsame := h p hp
          rw [idAfter?, idAfter?, hof, Option.map_some, Option.map_some, Option.some.injEq] at hsame
          rcases ParamValue.idIn?_eq_some.1 hid with ⟨-, hoid⟩ | ⟨-, r, rfl, rfl⟩
          · obtain ⟨x, rfl, -⟩ := ParamValue.toOid?_eq_some.1 hoid
            obtain ⟨y, hy⟩ := ParamValue.exists_answered_number x (a p.name)
            obtain ⟨z, hz⟩ := ParamValue.exists_answered_number x (b p.name)
            refine .inr ⟨p, hp, rfl, y, z, (a p.name).getD id, congrArg some hy, congrArg some hz,
              ?_, ?_⟩
            · rw [ha.idOf?_eq hp, idAfter?, hof, Option.map_some]
            · rw [hb.idOf?_eq hp, idAfter?, hof, Option.map_some, hsame]
          · left
            rw [Option.map_some, Option.map_some, ParamValue.answered_ref, ParamValue.answered_ref,
              hsame]

/-- What a constraint becomes is told, up to numbers, by the ids that it then refers to. -/
theorem relabel_eqUpToNumbers {c : Constraint α} {as bs : List (Option Oid)}
    (h : (c.relabel as).referencedIds = (c.relabel bs).referencedIds) :
    (c.relabel as).EqUpToNumbers (c.relabel bs) := by
  have ha := c.concerns_answerAt as
  have hb := c.concerns_answerAt bs
  refine eqUpToNumbers_withAnswers ha hb (eq_of_filterMap_eq (fun p _ => ?_) ?_)
  · rw [idAfter?, idAfter?, Option.isSome_map, Option.isSome_map]
  · exact ((List.filterMap_congr fun _ hp => ha.idOf?_eq hp).symm.trans h).trans
      (List.filterMap_congr fun _ hp => hb.idOf?_eq hp)

/-- A remap asks for each id that the constraint lists, once and in order, and replaces these ids
by the answers and nothing else. One remap after another is a remap by both. -/
theorem remap_replaces_ids (c : Constraint α) :
    (∀ {m : Type → Type} [Monad m] [LawfulMonad m] (f : Oid → m (Option Oid)),
      c.remapM f = c.relabel <$> c.referencedIds.mapM f) ∧
    (∀ f, c.remap f = c.relabel (c.referencedIds.map f)) ∧
    (∀ answers, answers.length = c.referencedIds.length →
      c.Relabeled answers (c.relabel answers)) ∧
    (∀ f g, (c.remap f).remap g = c.remap fun id => (g ((f id).getD id)).or (f id)) ∧
    ∀ f g h, (∀ id, (h id).getD id = (g ((f id).getD id)).getD ((f id).getD id)) →
      ((c.remap f).remap g).EqUpToNumbers (c.remap h) := by
  refine ⟨fun f => remapM_eq_relabel f c, fun f => remap_eq_relabel f c,
    fun _ => relabeled_relabel, fun f g => remap_remap f g c, fun f g h hcomp => ?_⟩
  have hids : ((c.remap f).remap g).referencedIds = (c.remap h).referencedIds := by
    rw [referencedIds_remap, referencedIds_remap, referencedIds_remap, List.map_map]
    exact List.map_congr_left fun id _ => (hcomp id).symm
  rw [remap_remap, remap_eq_relabel, remap_eq_relabel] at hids ⊢
  exact relabel_eqUpToNumbers hids

/-- A point at a distance from a line: the point is the id zero with a sign, the line is no id, the
distance is an abscissa, and there is a number that the kind does not ask for. -/
def oddReferences : Constraint Float :=
  { Constraint.new ⟨9⟩ .p2lDistance with
    params := .ofList [("p_id", .number (-0.0)), ("l_id", .number 2.5),
      ("distance", .ref ⟨⟨5⟩, .x⟩), ("note", .number 5.0)] }

/-- Sends the id 5 to 6, and notes what it is asked. -/
def noteAndMove (id : Oid) : StateM (List Oid) (Option Oid) :=
  modifyGet fun asked => (if id = ⟨5⟩ then some ⟨6⟩ else none, asked ++ [id])

theorem remap_oddReferences :
    ((oddReferences.remapM noteAndMove).run []).2 = [⟨0⟩, ⟨5⟩] ∧
    oddReferences.Relabeled [none, some ⟨6⟩] (oddReferences.relabel [none, some ⟨6⟩]) ∧
    (oddReferences.relabel [none, some ⟨6⟩]).referencedIds = [⟨0⟩, ⟨6⟩] ∧
    (oddReferences.relabel [none, some ⟨6⟩]).param? "note" = some (.number 5.0) ∧
    ((oddReferences.remap fun _ => none).remap fun _ => none).EqUpToNumbers
      (oddReferences.remap some) ∧
    oddReferences.param? "p_id" = some (.number (-0.0)) ∧
    (oddReferences.remap some).param? "p_id" = some (.number 0.0) := by
  have hids : oddReferences.referencedIds = [⟨0⟩, ⟨5⟩] := by decide +kernel
  obtain ⟨hmonadic, -, hrelabeled, -, hcomposed⟩ := oddReferences.remap_replaces_ids
  have hmoved := hrelabeled [none, some ⟨6⟩] (by rw [hids]; rfl)
  refine ⟨?_, hmoved, ?_, ?_, hcomposed _ _ _ fun _ => rfl, ?_, ?_⟩
  · rw [hmonadic, hids]
    rfl
  · rw [hmoved.ids, hids]
    rfl
  · exact (hmoved.others "note" (by decide +kernel)).trans (by decide +kernel)
  · decide +kernel
  · decide +kernel

end Constraint

end PlanarSketch
