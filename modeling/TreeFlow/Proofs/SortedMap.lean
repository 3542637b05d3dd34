import Mathlib.Data.List.Nodup
import Mathlib.Tactic.Tauto
import TreeFlow.SortedMap
/-
What maps hold that are made from lists.
-/

namespace TreeFlow
namespace SortedMap

variable {κ ν : Type} [Ord κ]

theorem mem_keys_iff {m : SortedMap κ ν} {k : κ} : k ∈ m.keys ↔ ∃ v, (k, v) ∈ m.entries := by
  simp [keys]

theorem keys_ascending (m : SortedMap κ ν) : m.keys.Pairwise fun a b => compare a b = .lt :=
  List.pairwise_map.2 m.ascending

theorem get?_empty (k : κ) : (empty : SortedMap κ ν).get? k = none := rfl

theorem nodup_of_ascending [Std.LawfulEqOrd κ] {l : List κ}
    (h : l.Pairwise fun a b => compare a b = .lt) : l.Nodup := by
  refine h.imp fun hlt heq => ?_
  rw [Std.LawfulEqOrd.compare_eq_iff_eq.2 heq] at hlt
  cases hlt

theorem nodup_keys [Std.LawfulEqOrd κ] (m : SortedMap κ ν) : m.keys.Nodup :=
  nodup_of_ascending m.keys_ascending

/-- Where a list goes from what has a property to what has not, the first part is all that has. -/
theorem takeWhile_eq_filter_of_pairwise {α : Type} {l : List α} {p : α → Bool}
    (h : l.Pairwise fun a b => p b = true → p a = true) : l.takeWhile p = l.filter p := by
  induction l with
  | nil => rfl
  | cons a l ih =>
    obtain ⟨ha, hl⟩ := List.pairwise_cons.1 h
    by_cases hp : p a = true
    · rw [List.takeWhile_cons_of_pos hp, List.filter_cons_of_pos hp, ih hl]
    · have hnone : l.filter p = [] := List.filter_eq_nil_iff.2 fun b hb hpb => hp (ha b hb hpb)
      rw [List.takeWhile_cons_of_neg hp, List.filter_cons_of_neg hp, hnone]

theorem flatMap_alterEntries_perm (k : κ) (xs : List ν) (l : List (κ × List ν)) :
    ((alterEntries k (fun later => xs ++ later.getD []) l).flatMap Prod.snd).Perm
      (xs ++ l.flatMap Prod.snd) := by
  induction l with
  | nil => simp [alterEntries]
  | cons e l ih =>
    obtain ⟨q, b⟩ := e
    rw [alterEntries]
    cases compare k q with
    | lt => simp
    | eq => simp
    | gt =>
      rw [List.flatMap_cons, List.flatMap_cons]
      exact (ih.append_left b).trans (List.perm_append_comm_assoc _ _ _)

/-- Nothing of either list is lost. -/
theorem flatMap_uniteEntries_perm (xs ys : List (κ × List ν)) :
    ((uniteEntries (· ++ ·) xs ys).flatMap Prod.snd).Perm
      (xs.flatMap Prod.snd ++ ys.flatMap Prod.snd) := by
  induction xs generalizing ys with
  | nil => exact .refl _
  | cons d xs ih =>
    obtain ⟨k, a⟩ := d
    rw [uniteEntries]
    induction ys with
    | nil =>
      rw [uniteEntry, List.flatMap_cons, List.flatMap_cons, List.append_assoc]
      exact (ih []).append_left a
    | cons e ys ihy =>
      obtain ⟨q, b⟩ := e
      rw [uniteEntry]
      cases compare k q with
      | lt =>
        simp only [List.flatMap_cons, List.append_assoc]
        exact (ih _).append_left a
      | eq =>
        simp only [List.flatMap_cons, List.append_assoc]
        refine List.Perm.append_left a ?_
        exact ((ih ys).append_left b).trans (List.perm_append_comm_assoc _ _ _)
      | gt =>
        rw [List.flatMap_cons, List.flatMap_cons]
        exact (ihy.append_left b).trans (List.perm_append_comm_assoc _ _ _)

/-- A value in front of all others comes first. -/
theorem flatMap_alterEntries {k : κ} {l : List (κ × List ν)} (xs : List ν)
    (h : ∀ e ∈ l, compare k e.1 ≠ .gt) :
    (alterEntries k (fun later => xs ++ later.getD []) l).flatMap Prod.snd
      = xs ++ l.flatMap Prod.snd := by
  cases l with
  | nil => simp [alterEntries]
  | cons e l =>
    obtain ⟨q, b⟩ := e
    have hq := h _ List.mem_cons_self
    rw [alterEntries]
    cases hkq : compare k q with
    | lt => simp
    | eq => simp
    | gt => exact absurd hkq hq

theorem alterEntries_perm [Std.LawfulEqOrd κ] {k : κ} {l : List (κ × ν)}
    (h : k ∉ l.map Prod.fst) (change : Option ν → ν) :
    (alterEntries k change l).Perm ((k, change none) :: l) := by
  induction l with
  | nil => exact .refl _
  | cons e l ih =>
    obtain ⟨q, b⟩ := e
    rw [List.map_cons, List.mem_cons, not_or] at h
    rw [alterEntries]
    cases hkq : compare k q with
    | lt => exact .refl _
    | eq => exact absurd (Std.LawfulEqOrd.compare_eq_iff_eq.1 hkq) h.1
    | gt => exact ((ih h.2).cons _).trans (.swap _ _ _)

variable [Std.TransOrd κ] [Std.LawfulEqOrd κ]

theorem get?_insert_self (m : SortedMap κ ν) (k : κ) (v : ν) : (m.insert k v).get? k = some v := by
  rw [get?_insert, if_pos Std.ReflCmp.compare_self]

theorem get?_insert_of_ne (m : SortedMap κ ν) {k p : κ} (h : p ≠ k) (v : ν) :
    (m.insert k v).get? p = m.get? p := by
  rw [get?_insert, if_neg fun heq => h (Std.LawfulEqOrd.compare_eq_iff_eq.1 heq)]

/-- A new key adds its entry. -/
theorem entries_insert_perm {m : SortedMap κ ν} {k : κ} (h : k ∉ m.keys) (v : ν) :
    (m.insert k v).entries.Perm ((k, v) :: m.entries) :=
  alterEntries_perm h _

theorem eq_of_entries_perm {m n : SortedMap κ ν} (h : m.entries.Perm n.entries) : m = n := by
  refine ext_get? fun k => Option.ext fun v => ?_
  rw [get?_eq_some_iff, get?_eq_some_iff, h.mem_iff]

/-- Ascending lists of the same keys are the same list. -/
theorem eq_of_ascending {l l' : List κ} (h : l.Pairwise fun a b => compare a b = .lt)
    (h' : l'.Pairwise fun a b => compare a b = .lt) (hmem : ∀ k, k ∈ l ↔ k ∈ l') : l = l' := by
  have hperm : l.Perm l' :=
    (List.perm_ext_iff_of_nodup (nodup_of_ascending h) (nodup_of_ascending h')).2 hmem
  refine hperm.eq_of_pairwise (fun a b _ _ hab hba => ?_) h h'
  exact absurd hba (Std.OrientedCmp.not_lt_of_lt hab)

theorem mem_keys_iff_isSome {m : SortedMap κ ν} {k : κ} : k ∈ m.keys ↔ (m.get? k).isSome := by
  rw [mem_keys_iff, Option.isSome_iff_exists]
  simp only [get?_eq_some_iff]

theorem mem_keys_alter {m : SortedMap κ ν} {k p : κ} {change : Option ν → ν} :
    p ∈ (m.alter k change).keys ↔ p = k ∨ p ∈ m.keys := by
  rw [mem_keys_iff_isSome, get?_alter, mem_keys_iff_isSome]
  by_cases h : compare p k = .eq
  · simp [Std.LawfulEqOrd.compare_eq_iff_eq.1 h]
  · have hne : p ≠ k := fun e => h (Std.LawfulEqOrd.compare_eq_iff_eq.2 e)
    simp [h, hne]

omit [Std.TransOrd κ] in
theorem mem_keys_uniteEntries {join : ν → ν → ν} {xs ys : List (κ × ν)} {p : κ} :
    p ∈ (uniteEntries join xs ys).map Prod.fst ↔ p ∈ xs.map Prod.fst ∨ p ∈ ys.map Prod.fst := by
  induction xs generalizing ys with
  | nil => simp [uniteEntries]
  | cons d xs ih =>
    obtain ⟨k, a⟩ := d
    rw [uniteEntries]
    induction ys with
    | nil => simp only [uniteEntry, List.map_cons, List.mem_cons, ih, or_assoc]
    | cons e ys ihy =>
      obtain ⟨q, b⟩ := e
      simp only [uniteEntry]
      split
      · simp only [List.map_cons, List.mem_cons, ih, or_assoc]
      · rename_i heq
        obtain rfl := Std.LawfulEqOrd.compare_eq_iff_eq.1 heq
        simp only [List.map_cons, List.mem_cons, ih]
        tauto
      · simp only [List.map_cons, List.mem_cons] at ihy ⊢
        rw [ihy]
        tauto

theorem mem_keys_unionWith {join : ν → ν → ν} {m n : SortedMap κ ν} {p : κ} :
    p ∈ (m.unionWith join n).keys ↔ p ∈ m.keys ∨ p ∈ n.keys :=
  mem_keys_uniteEntries

theorem findEntry_uniteEntries (join : ν → ν → ν) (p : κ) (xs ys : List (κ × ν)) :
    findEntry p (uniteEntries join xs ys)
      = Option.merge join (findEntry p xs) (findEntry p ys) := by
  induction xs generalizing ys with
  | nil => simp [uniteEntries, findEntry]
  | cons d xs ih =>
    obtain ⟨k, a⟩ := d
    rw [uniteEntries]
    induction ys with
    | nil => cases hpk : compare p k <;> simp [uniteEntry, findEntry, hpk, ih]
    | cons e ys ihy =>
      obtain ⟨q, b⟩ := e
      rw [uniteEntry]
      cases hkq : compare k q with
      | lt =>
        cases hpk : compare p k with
        | lt => simp [findEntry, hpk, Std.TransCmp.lt_trans hpk hkq]
        | eq =>
          obtain rfl := Std.LawfulEqOrd.compare_eq_iff_eq.1 hpk
          simp [findEntry, hkq]
        | gt => simp [findEntry, hpk, ih]
      | eq =>
        obtain rfl := Std.LawfulEqOrd.compare_eq_iff_eq.1 hkq
        cases hpk : compare p k <;> simp [findEntry, hpk, ih]
      | gt =>
        have hqk := Std.OrientedCmp.lt_of_gt hkq
        cases hpq : compare p q with
        | lt => simp [findEntry, hpq, Std.TransCmp.lt_trans hpq hqk]
        | eq =>
          obtain rfl := Std.LawfulEqOrd.compare_eq_iff_eq.1 hpq
          simp [findEntry, hqk]
        | gt =>
          simp only [findEntry, hpq]
          exact ihy

/-- A key holds what it holds in both maps, joined. -/
theorem get?_unionWith (join : ν → ν → ν) (m n : SortedMap κ ν) (k : κ) :
    (m.unionWith join n).get? k = Option.merge join (m.get? k) (n.get? k) :=
  findEntry_uniteEntries join k m.entries n.entries

/-! ## Lists of entries -/

theorem mem_keys_ofList {l : List (κ × ν)} {p : κ} :
    p ∈ (ofList l).keys ↔ p ∈ l.map Prod.fst := by
  induction l with
  | nil => simp [ofList, keys, empty]
  | cons e l ih =>
    show p ∈ ((ofList l).alter e.1 _).keys ↔ _
    rw [mem_keys_alter, ih, List.map_cons, List.mem_cons]

theorem mem_keys_gather {l : List (κ × List ν)} {p : κ} :
    p ∈ (gather l).keys ↔ p ∈ l.map Prod.fst := by
  induction l with
  | nil => simp [gather, keys, empty]
  | cons e l ih =>
    show p ∈ ((gather l).alter e.1 _).keys ↔ _
    rw [mem_keys_alter, ih, List.map_cons, List.mem_cons]

theorem get?_gather_cons (e : κ × List ν) (l : List (κ × List ν)) (k : κ) :
    (gather (e :: l)).get? k
      = if compare k e.1 = .eq then some (e.2 ++ ((gather l).get? e.1).getD [])
        else (gather l).get? k :=
  get?_alter _ _ _ _

theorem get?_ofList {l : List (κ × ν)} (h : (l.map Prod.fst).Nodup) {p : κ} {v : ν} :
    (ofList l).get? p = some v ↔ (p, v) ∈ l := by
  induction l generalizing p v with
  | nil => simp [ofList, get?_empty]
  | cons e l ih =>
    obtain ⟨k, a⟩ := e
    obtain ⟨hk, hl⟩ := List.nodup_cons.1 h
    show ((ofList l).alter k fun present => present.getD a).get? p = some v ↔ _
    have hfresh : (ofList l).get? k = none := by
      cases hget : (ofList l).get? k with
      | none => rfl
      | some b => exact absurd (List.mem_map.2 ⟨_, (ih hl).1 hget, rfl⟩) hk
    rw [get?_alter, hfresh, List.mem_cons]
    by_cases hp : compare p k = .eq
    · obtain rfl := Std.LawfulEqOrd.compare_eq_iff_eq.1 hp
      have hnot : (p, v) ∉ l := fun hm => hk (List.mem_map.2 ⟨_, hm, rfl⟩)
      simp [hnot, eq_comm]
    · have hne : p ≠ k := fun e => hp (Std.LawfulEqOrd.compare_eq_iff_eq.2 e)
      rw [if_neg hp, ih hl]
      simp [hne]

/-- Of the entries of one key the last counts. -/
theorem exists_split_of_get?_ofList {l : List (κ × ν)} {k : κ} {v : ν}
    (h : (ofList l).get? k = some v) :
    ∃ before after, l = before ++ (k, v) :: after ∧ k ∉ after.map Prod.fst := by
  induction l with
  | nil => simp [ofList, get?_empty] at h
  | cons e l ih =>
    obtain ⟨q, a⟩ := e
    have hcons : (ofList ((q, a) :: l)).get? k
        = if compare k q = .eq then some (((ofList l).get? q).getD a) else (ofList l).get? k :=
      get?_alter _ _ _ _
    rw [hcons] at h
    cases hlater : (ofList l).get? k with
    | some v' =>
      have hv : (ofList l).get? k = some v := by
        by_cases hkq : compare k q = .eq
        · obtain rfl := Std.LawfulEqOrd.compare_eq_iff_eq.1 hkq
          rwa [if_pos hkq, hlater, Option.getD_some, ← hlater] at h
        · rwa [if_neg hkq] at h
      obtain ⟨before, after, hl, hk⟩ := ih hv
      exact ⟨(q, a) :: before, after, by rw [hl, List.cons_append], hk⟩
    | none =>
      by_cases hkq : compare k q = .eq
      · obtain rfl := Std.LawfulEqOrd.compare_eq_iff_eq.1 hkq
        rw [if_pos hkq, hlater, Option.getD_none] at h
        obtain rfl := Option.some.inj h
        refine ⟨[], l, rfl, ?_⟩
        rw [← mem_keys_ofList, mem_keys_iff_isSome, hlater]
        exact Bool.false_ne_true
      · rw [if_neg hkq, hlater] at h
        cases h

theorem mem_of_mem_ofList {l : List (κ × ν)} {e : κ × ν} (h : e ∈ (ofList l).entries) : e ∈ l := by
  obtain ⟨before, after, hl, -⟩ := exists_split_of_get?_ofList (get?_eq_some_iff.2 h)
  rw [hl]
  exact List.mem_append_right before List.mem_cons_self

/-- Entries of distinct keys are all kept. -/
theorem entries_ofList_perm {l : List (κ × ν)} (h : (l.map Prod.fst).Nodup) :
    (ofList l).entries.Perm l := by
  refine (List.perm_ext_iff_of_nodup (.of_map _ (nodup_keys (ofList l))) (.of_map _ h)).2 ?_
  rintro ⟨p, v⟩
  rw [← get?_eq_some_iff, get?_ofList h]

/-- A map is made from its own entries. -/
theorem ofList_entries (m : SortedMap κ ν) : ofList m.entries = m := by
  refine ext_get? fun k => Option.ext fun v => ?_
  rw [get?_ofList m.nodup_keys, get?_eq_some_iff]

theorem entries_ofList {l : List (κ × ν)} (h : l.Pairwise fun a b => compare a.1 b.1 = .lt) :
    (ofList l).entries = l :=
  congrArg entries (ofList_entries ⟨l, h⟩)

theorem ofList_map {ω : Type} (m : SortedMap κ ν) (f : ν → ω) :
    ofList (m.entries.map fun e => (e.1, f e.2)) = m.map f :=
  ofList_entries (m.map f)

theorem list_map_eq_self_iff {α : Type} {l : List α} {f : α → α} :
    l.map f = l ↔ ∀ a ∈ l, f a = a := by
  have hsame : l.map f = l ↔ l.map f = l.map id := by rw [List.map_id]
  rw [hsame, List.map_inj_left]
  rfl

omit [Std.TransOrd κ] [Std.LawfulEqOrd κ] in
theorem map_eq_self_iff {m : SortedMap κ ν} {f : ν → ν} :
    m.map f = m ↔ ∀ e ∈ m.entries, f e.2 = e.2 := by
  constructor
  · intro h e he
    have hentries := congrArg entries h
    exact congrArg Prod.snd (list_map_eq_self_iff.1 hentries e he)
  · intro h
    exact ext (list_map_eq_self_iff.2 fun e he => congrArg (Prod.mk e.1) (h e he))

theorem alter_congr {m : SortedMap κ ν} {k : κ} {f g : Option ν → ν}
    (h : f (m.get? k) = g (m.get? k)) : m.alter k f = m.alter k g := by
  refine ext_get? fun p => ?_
  rw [get?_alter, get?_alter, h]

/-- Where no key is listed twice, there is nothing to put together. -/
theorem gather_eq_ofList {l : List (κ × List ν)} (h : (l.map Prod.fst).Nodup) :
    gather l = ofList l := by
  induction l with
  | nil => rfl
  | cons e l ih =>
    obtain ⟨hk, hl⟩ := List.nodup_cons.1 h
    have hfresh : (ofList l).get? e.1 = none := by
      rwa [← mem_keys_ofList, mem_keys_iff_isSome, Option.not_isSome_iff_eq_none] at hk
    show (gather l).alter e.1 _ = (ofList l).alter e.1 _
    rw [ih hl]
    refine alter_congr ?_
    rw [hfresh, Option.getD_none, Option.getD_none, List.append_nil]

theorem gather_entries (m : SortedMap κ (List ν)) : gather m.entries = m := by
  rw [gather_eq_ofList m.nodup_keys, ofList_entries]

/-- Lists that are put behind the present ones one by one may be put together first. -/
theorem foldl_alter_append (l : List (κ × List ν)) (m : SortedMap κ (List ν)) :
    l.foldl (fun m e => m.alter e.1 fun present => present.getD [] ++ e.2) m
      = m.unionWith (· ++ ·) (gather l) := by
  induction l generalizing m with
  | nil =>
    refine ext_get? fun p => ?_
    rw [get?_unionWith, gather, List.foldr_nil, get?_empty, Option.merge_none_right]
    rfl
  | cons e l ih =>
    rw [List.foldl_cons, ih]
    refine ext_get? fun p => ?_
    rw [get?_unionWith, get?_unionWith, get?_alter, get?_gather_cons]
    by_cases hp : compare p e.1 = .eq
    · obtain rfl := Std.LawfulEqOrd.compare_eq_iff_eq.1 hp
      rw [if_pos hp, if_pos hp]
      cases m.get? e.1 <;> cases (gather l).get? e.1 <;> simp
    · rw [if_neg hp, if_neg hp]

/-! ## Changed values -/

section

variable {ω : Type}

omit [Std.TransOrd κ] [Std.LawfulEqOrd κ] in
theorem get?_map (f : ν → ω) (m : SortedMap κ ν) (k : κ) :
    (m.map f).get? k = (m.get? k).map f := by
  have hentries : ∀ l : List (κ × ν),
      findEntry k (l.map fun e => (e.1, f e.2)) = (findEntry k l).map f := by
    intro l
    induction l with
    | nil => rfl
    | cons e l ih =>
      rw [List.map_cons, findEntry, findEntry, ih]
      cases compare k e.1 <;> rfl
  exact hentries m.entries

theorem map_alter {f : ν → ω} {m : SortedMap κ ν} {k : κ} {change : Option ν → ν}
    {change' : Option ω → ω} (h : ∀ present, f (change present) = change' (present.map f)) :
    (m.alter k change).map f = (m.map f).alter k change' := by
  refine ext_get? fun p => ?_
  rw [get?_map, get?_alter, get?_alter, get?_map, get?_map, ← h]
  split <;> rfl

/-- Of two entries of one key the later counts, whatever becomes of the values. -/
theorem map_ofList (f : ν → ω) (l : List (κ × ν)) :
    (ofList l).map f = ofList (l.map fun e => (e.1, f e.2)) := by
  induction l with
  | nil => rfl
  | cons e l ih =>
    show ((ofList l).alter e.1 _).map f = (ofList (l.map _)).alter e.1 _
    rw [← ih]
    exact map_alter fun present => by cases present <;> rfl

theorem map_unionWith {f : ν → ω} {join : ν → ν → ν} {join' : ω → ω → ω}
    (h : ∀ a b, f (join a b) = join' (f a) (f b)) (m n : SortedMap κ ν) :
    (m.unionWith join n).map f = (m.map f).unionWith join' (n.map f) := by
  refine ext_get? fun k => ?_
  rw [get?_map, get?_unionWith, get?_unionWith, get?_map, get?_map]
  cases m.get? k with
  | none => simp
  | some a =>
    cases n.get? k with
    | none => rfl
    | some b => exact congrArg some (h a b)

end

/-! ## A single key -/

section

variable [DecidableEq κ]

/-- The entry of one key, if there is one. -/
def only (m : SortedMap κ ν) (k : κ) : SortedMap κ ν where
  entries := m.entries.filter fun e => e.1 = k
  ascending := m.ascending.filter _

theorem get?_only (m : SortedMap κ ν) (k p : κ) :
    (m.only k).get? p = if p = k then m.get? p else none := by
  refine Option.ext fun v => ?_
  have hmem : (p, v) ∈ (m.only k).entries ↔ (p, v) ∈ m.entries ∧ p = k := by
    simp [only]
  rw [get?_eq_some_iff, hmem, ← get?_eq_some_iff]
  by_cases h : p = k
  · simp [h]
  · simp [h]

theorem keys_only {m : SortedMap κ ν} {k : κ} (h : k ∈ m.keys) : (m.only k).keys = [k] := by
  refine eq_of_ascending (m.only k).keys_ascending (List.pairwise_singleton _ _) fun p => ?_
  rw [mem_keys_iff_isSome, get?_only, List.mem_singleton]
  by_cases hp : p = k
  · rw [if_pos hp, hp]
    exact iff_of_true (mem_keys_iff_isSome.1 h) rfl
  · rw [if_neg hp]
    exact iff_of_false Bool.false_ne_true hp

/-- A key holds everything that is listed for it. -/
theorem get?_gather (l : List (κ × List ν)) (k : κ) :
    (gather l).get? k = if k ∈ l.map Prod.fst
      then some ((l.filter fun e => e.1 = k).flatMap Prod.snd) else none := by
  induction l with
  | nil => rfl
  | cons e l ih =>
    rw [get?_gather_cons]
    by_cases hk : k = e.1
    · subst hk
      have hrest : ((gather l).get? e.1).getD []
          = (l.filter fun d => d.1 = e.1).flatMap Prod.snd := by
        rw [ih]
        by_cases hmem : e.1 ∈ l.map Prod.fst
        · rw [if_pos hmem, Option.getD_some]
        · have hnone : (l.filter fun d => d.1 = e.1) = [] := by
            refine List.filter_eq_nil_iff.2 fun d hd heq => hmem ?_
            exact List.mem_map.2 ⟨d, hd, of_decide_eq_true heq⟩
          rw [if_neg hmem, hnone]
          rfl
      rw [if_pos Std.ReflCmp.compare_self, hrest, List.map_cons, if_pos List.mem_cons_self,
        List.filter_cons, if_pos (decide_eq_true rfl), List.flatMap_cons]
    · have hne : ¬ compare k e.1 = .eq := fun heq => hk (Std.LawfulEqOrd.compare_eq_iff_eq.1 heq)
      have hfilter : ((e :: l).filter fun d => d.1 = k) = l.filter fun d => d.1 = k := by
        rw [List.filter_cons, if_neg (by simpa using Ne.symm hk)]
      have hmem : k ∈ (e :: l).map Prod.fst ↔ k ∈ l.map Prod.fst := by
        rw [List.map_cons, List.mem_cons, or_iff_right hk]
      rw [if_neg hne, ih, hfilter]
      simp only [hmem]

theorem gather_only (l : List (κ × List ν)) (k : κ) :
    (gather l).only k = gather (l.filter fun e => e.1 = k) := by
  refine ext_get? fun p => ?_
  have hmem : p ∈ (l.filter fun e => e.1 = k).map Prod.fst ↔ p = k ∧ p ∈ l.map Prod.fst := by
    simp only [List.mem_map, List.mem_filter, decide_eq_true_eq]
    constructor
    · intro h
      obtain ⟨e, ⟨he, hk⟩, hp⟩ := h
      exact ⟨hp ▸ hk, e, he, hp⟩
    · intro h
      obtain ⟨hk, e, he, hp⟩ := h
      exact ⟨e, ⟨he, hp.trans hk⟩, hp⟩
  rw [get?_only, get?_gather, get?_gather]
  by_cases hp : p = k
  · subst hp
    simp only [hmem, List.filter_filter, Bool.and_self, true_and, if_true]
  · simp only [hmem, hp, false_and, if_false]

end

/-! ## All that is listed -/

/-- Nothing that is listed is lost. -/
theorem flatMap_gather_perm (l : List (κ × List ν)) :
    ((gather l).entries.flatMap Prod.snd).Perm (l.flatMap Prod.snd) := by
  induction l with
  | nil => exact .refl _
  | cons e l ih =>
    exact (flatMap_alterEntries_perm e.1 e.2 (gather l).entries).trans (ih.append_left e.2)

/-- What is listed in key order keeps its order. -/
theorem flatMap_gather {l : List (κ × List ν)}
    (h : l.Pairwise fun a b => compare a.1 b.1 ≠ .gt) :
    (gather l).entries.flatMap Prod.snd = l.flatMap Prod.snd := by
  induction l with
  | nil => rfl
  | cons e l ih =>
    obtain ⟨he, hl⟩ := List.pairwise_cons.1 h
    have hfirst : ∀ d ∈ (gather l).entries, compare e.1 d.1 ≠ .gt := by
      intro d hd
      have hkey : d.1 ∈ (gather l).keys := mem_keys_iff.2 ⟨d.2, hd⟩
      obtain ⟨d', hd', heq⟩ := List.mem_map.1 (mem_keys_gather.1 hkey)
      exact heq ▸ he d' hd'
    rw [List.flatMap_cons, ← ih hl]
    exact flatMap_alterEntries e.2 hfirst

end SortedMap
end TreeFlow
