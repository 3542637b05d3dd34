/-
Finite maps in key order.

A map is the list of its entries with strictly ascending keys, so two maps with the same contents
are equal and a walk over a map always goes in key order.  Branches of trees, keys of documents
and entries of reports are all held in such maps.  Main statements: `get?_insert` says what an
insertion changes, and `ext_get?` says that a map is its contents.
-/

namespace TreeFlow

structure SortedMap (κ : Type) (ν : Type) [Ord κ] where
  entries : List (κ × ν)
  ascending : entries.Pairwise fun a b => compare a.1 b.1 = .lt

namespace SortedMap

/-! ## Entry lists -/

section Lists

variable {κ ν ω : Type} [Ord κ]

/-- Puts the value that `change` makes of the present one, if any, at a key. -/
def alterEntries (k : κ) (change : Option ν → ν) : List (κ × ν) → List (κ × ν)
  | [] => [(k, change none)]
  | (q, b) :: rest =>
    match compare k q with
    | .lt => (k, change none) :: (q, b) :: rest
    | .eq => (k, change (some b)) :: rest
    | .gt => (q, b) :: alterEntries k change rest

/-- Puts one entry into `ys`, with `others` standing for what the entries after it do to the part
of `ys` that lies behind. -/
def uniteEntry (join : ν → ν → ν) (k : κ) (a : ν) (others : List (κ × ν) → List (κ × ν)) :
    List (κ × ν) → List (κ × ν)
  | [] => (k, a) :: others []
  | (q, b) :: ys =>
    match compare k q with
    | .lt => (k, a) :: others ((q, b) :: ys)
    | .eq => (k, join a b) :: others ys
    | .gt => (q, b) :: uniteEntry join k a others ys

/-- The entries of both lists in key order; two entries of one key are joined. -/
def uniteEntries (join : ν → ν → ν) : List (κ × ν) → List (κ × ν) → List (κ × ν)
  | [], ys => ys
  | (k, a) :: xs, ys => uniteEntry join k a (uniteEntries join xs) ys

/-- The value at a key; the walk stops at the first greater key. -/
def findEntry (k : κ) : List (κ × ν) → Option ν
  | [] => none
  | (q, b) :: rest =>
    match compare k q with
    | .lt => none
    | .eq => some b
    | .gt => findEntry k rest

variable {k : κ} {change : Option ν → ν} {join : ν → ν → ν}

theorem mem_alterEntries {l : List (κ × ν)} {e : κ × ν} (h : e ∈ alterEntries k change l) :
    e.1 = k ∨ ∃ e' ∈ l, e'.1 = e.1 := by
  induction l with
  | nil => simp only [alterEntries, List.mem_singleton] at h; simp [h]
  | cons d l ih =>
    obtain ⟨q, b⟩ := d
    simp only [alterEntries] at h
    split at h
    · rcases List.mem_cons.1 h with rfl | h
      · exact .inl rfl
      · exact .inr ⟨e, h, rfl⟩
    · rcases List.mem_cons.1 h with rfl | h
      · exact .inl rfl
      · exact .inr ⟨e, List.mem_cons_of_mem _ h, rfl⟩
    · rcases List.mem_cons.1 h with rfl | h
      · exact .inr ⟨(q, b), List.mem_cons_self, rfl⟩
      · rcases ih h with h | ⟨e', he', hk⟩
        · exact .inl h
        · exact .inr ⟨e', List.mem_cons_of_mem _ he', hk⟩

theorem mem_uniteEntries {xs ys : List (κ × ν)} {e : κ × ν} (h : e ∈ uniteEntries join xs ys) :
    (∃ e' ∈ xs, e'.1 = e.1) ∨ ∃ e' ∈ ys, e'.1 = e.1 := by
  induction xs generalizing ys with
  | nil => exact .inr ⟨e, h, rfl⟩
  | cons d xs ih =>
    obtain ⟨k, a⟩ := d
    rw [uniteEntries] at h
    have lift : ∀ {zs : List (κ × ν)}, e ∈ uniteEntries join xs zs →
        (∃ e' ∈ (k, a) :: xs, e'.1 = e.1) ∨ ∃ e' ∈ zs, e'.1 = e.1 := fun h =>
      (ih h).imp (fun ⟨e', he', hk⟩ => ⟨e', List.mem_cons_of_mem _ he', hk⟩) id
    induction ys with
    | nil =>
      rcases List.mem_cons.1 h with rfl | h
      · exact .inl ⟨_, List.mem_cons_self, rfl⟩
      · exact lift h
    | cons d ys ihy =>
      obtain ⟨q, b⟩ := d
      simp only [uniteEntry] at h
      have widen : (∃ e' ∈ ys, e'.1 = e.1) → ∃ e' ∈ (q, b) :: ys, e'.1 = e.1 :=
        fun ⟨e', he', hk⟩ => ⟨e', List.mem_cons_of_mem _ he', hk⟩
      split at h
      · rcases List.mem_cons.1 h with rfl | h
        · exact .inl ⟨_, List.mem_cons_self, rfl⟩
        · exact lift h
      · rcases List.mem_cons.1 h with rfl | h
        · exact .inl ⟨_, List.mem_cons_self, rfl⟩
        · exact (lift h).imp id widen
      · rcases List.mem_cons.1 h with rfl | h
        · exact .inr ⟨_, List.mem_cons_self, rfl⟩
        · exact (ihy h).imp id widen

variable [Std.TransOrd κ] [Std.LawfulEqOrd κ]

theorem ascending_alterEntries {l : List (κ × ν)}
    (h : l.Pairwise fun a b => compare a.1 b.1 = .lt) :
    (alterEntries k change l).Pairwise fun a b => compare a.1 b.1 = .lt := by
  induction l with
  | nil => simp [alterEntries]
  | cons d l ih =>
    obtain ⟨q, b⟩ := d
    obtain ⟨hq, hl⟩ := List.pairwise_cons.1 h
    simp only [alterEntries]
    split
    next hlt =>
      refine List.pairwise_cons.2 ⟨fun e he => ?_, h⟩
      rcases List.mem_cons.1 he with rfl | he
      · exact hlt
      · exact Std.TransCmp.lt_trans hlt (hq e he)
    next heq =>
      have := Std.LawfulEqCmp.eq_of_compare heq
      subst this
      exact List.pairwise_cons.2 ⟨hq, hl⟩
    next hgt =>
      refine List.pairwise_cons.2 ⟨fun e he => ?_, ih hl⟩
      rcases mem_alterEntries he with hk | ⟨e', he', hk⟩
      · rw [hk]; exact Std.OrientedCmp.lt_of_gt hgt
      · rw [← hk]; exact hq e' he'

theorem ascending_uniteEntries {xs ys : List (κ × ν)}
    (hx : xs.Pairwise fun a b => compare a.1 b.1 = .lt)
    (hy : ys.Pairwise fun a b => compare a.1 b.1 = .lt) :
    (uniteEntries join xs ys).Pairwise fun a b => compare a.1 b.1 = .lt := by
  induction xs generalizing ys with
  | nil => exact hy
  | cons d xs ih =>
    obtain ⟨k, a⟩ := d
    obtain ⟨hk, hxs⟩ := List.pairwise_cons.1 hx
    rw [uniteEntries]
    have above : ∀ {q : κ} {zs : List (κ × ν)}, (compare q k = .lt ∨ q = k) →
        (∀ e ∈ zs, compare q e.1 = .lt) → ∀ e ∈ uniteEntries join xs zs, compare q e.1 = .lt := by
      intro q zs hq hz e he
      rcases mem_uniteEntries he with ⟨e', he', h⟩ | ⟨e', he', h⟩
      · rw [← h]
        rcases hq with hq | rfl
        · exact Std.TransCmp.lt_trans hq (hk e' he')
        · exact hk e' he'
      · rw [← h]; exact hz e' he'
    induction ys with
    | nil => exact List.pairwise_cons.2 ⟨above (.inr rfl) (by simp), ih hxs .nil⟩
    | cons d ys ihy =>
      obtain ⟨q, b⟩ := d
      obtain ⟨hq, hys⟩ := List.pairwise_cons.1 hy
      simp only [uniteEntry]
      split
      next hlt =>
        refine List.pairwise_cons.2 ⟨above (.inr rfl) fun e he => ?_, ih hxs hy⟩
        rcases List.mem_cons.1 he with rfl | he
        · exact hlt
        · exact Std.TransCmp.lt_trans hlt (hq e he)
      next heq =>
        have := Std.LawfulEqCmp.eq_of_compare heq
        subst this
        exact List.pairwise_cons.2 ⟨above (.inr rfl) hq, ih hxs hys⟩
      next hgt =>
        refine List.pairwise_cons.2 ⟨fun e he => ?_, ihy hys⟩
        have hqk := Std.OrientedCmp.lt_of_gt hgt
        have : e ∈ uniteEntries join ((k, a) :: xs) ys := he
        rcases mem_uniteEntries this with ⟨e', he', h⟩ | ⟨e', he', h⟩
        · rw [← h]
          rcases List.mem_cons.1 he' with rfl | he'
          · exact hqk
          · exact Std.TransCmp.lt_trans hqk (hk e' he')
        · rw [← h]; exact hq e' he'

end Lists

/-! ## Maps -/

variable {κ ν ω : Type} [Ord κ]

@[ext] theorem ext {m n : SortedMap κ ν} (h : m.entries = n.entries) : m = n := by
  cases m; cases n; simp_all

instance [DecidableEq κ] [DecidableEq ν] : DecidableEq (SortedMap κ ν) := fun m n =>
  decidable_of_iff (m.entries = n.entries) ⟨ext, congrArg entries⟩

def empty : SortedMap κ ν := ⟨[], .nil⟩

instance : EmptyCollection (SortedMap κ ν) := ⟨empty⟩
instance : Inhabited (SortedMap κ ν) := ⟨empty⟩

def size (m : SortedMap κ ν) : Nat := m.entries.length
def isEmpty (m : SortedMap κ ν) : Bool := m.entries.isEmpty
def keys (m : SortedMap κ ν) : List κ := m.entries.map (·.1)
def values (m : SortedMap κ ν) : List ν := m.entries.map (·.2)

def get? (m : SortedMap κ ν) (k : κ) : Option ν := findEntry k m.entries

def contains (m : SortedMap κ ν) (k : κ) : Bool := (m.get? k).isSome

/-- Applies `f` to every value; the keys stay. -/
def map (f : ν → ω) (m : SortedMap κ ν) : SortedMap κ ω where
  entries := m.entries.map fun e => (e.1, f e.2)
  ascending := List.pairwise_map.2 m.ascending

variable [Std.TransOrd κ] [Std.LawfulEqOrd κ]

/-- Puts the value that `change` makes of the present one, if any, at a key. -/
def alter (m : SortedMap κ ν) (k : κ) (change : Option ν → ν) : SortedMap κ ν :=
  ⟨alterEntries k change m.entries, ascending_alterEntries m.ascending⟩

/-- Puts a value at a key, in place of the present one. -/
def insert (m : SortedMap κ ν) (k : κ) (v : ν) : SortedMap κ ν :=
  m.alter k fun _ => v

/-- The map of a list of entries; of two entries of one key the later counts. -/
def ofList (l : List (κ × ν)) : SortedMap κ ν :=
  l.foldr (fun e m => m.alter e.1 fun present => present.getD e.2) empty

/-- The map that holds, at each key, everything listed for it, in list order. -/
def gather (l : List (κ × List ν)) : SortedMap κ (List ν) :=
  l.foldr (fun e m => m.alter e.1 fun later => e.2 ++ later.getD []) empty

/-- The entries of both maps; two values of one key are joined. -/
def unionWith (join : ν → ν → ν) (m n : SortedMap κ ν) : SortedMap κ ν :=
  ⟨uniteEntries join m.entries n.entries, ascending_uniteEntries m.ascending n.ascending⟩

/-! ## Contents -/

theorem findEntry_alterEntries {l : List (κ × ν)} (k : κ) (change : Option ν → ν) (p : κ) :
    findEntry p (alterEntries k change l)
      = if compare p k = .eq then some (change (findEntry k l)) else findEntry p l := by
  induction l with
  | nil => cases h : compare p k <;> simp [alterEntries, findEntry, h]
  | cons d l ih =>
    obtain ⟨q, b⟩ := d
    cases hkq : compare k q with
    | lt =>
      cases hpk : compare p k with
      | lt => simp [alterEntries, findEntry, hkq, hpk, Std.TransCmp.lt_trans hpk hkq]
      | eq => simp [alterEntries, findEntry, hkq, hpk]
      | gt => simp [alterEntries, findEntry, hkq, hpk]
    | eq =>
      have := Std.LawfulEqCmp.eq_of_compare hkq
      subst this
      cases hpk : compare p k <;> simp [alterEntries, findEntry, hpk]
    | gt =>
      have hqk := Std.OrientedCmp.lt_of_gt hkq
      cases hpq : compare p q with
      | lt => simp [alterEntries, findEntry, hkq, hpq, Std.TransCmp.lt_trans hpq hqk]
      | eq =>
        have := Std.LawfulEqCmp.eq_of_compare hpq
        subst this
        simp [alterEntries, findEntry, hkq, hqk]
      | gt => simp [alterEntries, findEntry, hkq, hpq, ih]

theorem get?_alter (m : SortedMap κ ν) (k : κ) (change : Option ν → ν) (p : κ) :
    (m.alter k change).get? p
      = if compare p k = .eq then some (change (m.get? k)) else m.get? p :=
  findEntry_alterEntries k change p

/-- An insertion changes the value at its own key and nothing else. -/
theorem get?_insert (m : SortedMap κ ν) (k : κ) (v : ν) (p : κ) :
    (m.insert k v).get? p = if compare p k = .eq then some v else m.get? p :=
  get?_alter m k _ p

theorem get?_eq_some_iff {m : SortedMap κ ν} {k : κ} {v : ν} :
    m.get? k = some v ↔ (k, v) ∈ m.entries := by
  obtain ⟨l, h⟩ := m
  show findEntry k l = some v ↔ (k, v) ∈ l
  induction l with
  | nil => simp [findEntry]
  | cons d l ih =>
    obtain ⟨q, b⟩ := d
    obtain ⟨hq, hl⟩ := List.pairwise_cons.1 h
    rw [findEntry]
    split
    next hlt =>
      refine ⟨nofun, fun hm => ?_⟩
      have irrefl : ∀ c : κ, compare c c ≠ .lt := fun c h => by
        have same : compare c c = .eq := Std.ReflCmp.compare_self
        rw [same] at h
        cases h
      rcases List.mem_cons.1 hm with hm | hm
      · obtain ⟨rfl, rfl⟩ := Prod.mk.inj hm
        exact absurd hlt (irrefl _)
      · exact absurd (Std.TransCmp.lt_trans hlt (hq _ hm)) (irrefl _)
    next heq =>
      have := Std.LawfulEqCmp.eq_of_compare heq
      subst this
      constructor
      · rintro ⟨⟩; exact List.mem_cons_self
      · intro hm
        rcases List.mem_cons.1 hm with hm | hm
        · rw [(Prod.mk.inj hm).2]
        · have := hq _ hm
          rw [show compare k k = .eq from heq] at this
          cases this
    next hgt =>
      rw [ih hl]
      constructor
      · exact List.mem_cons_of_mem _
      · intro hm
        rcases List.mem_cons.1 hm with hm | hm
        · obtain ⟨rfl, rfl⟩ := Prod.mk.inj hm
          have same : compare k k = .eq := Std.ReflCmp.compare_self
          rw [same] at hgt
          cases hgt
        · exact hm

theorem ext_get? {m n : SortedMap κ ν} (h : ∀ k, m.get? k = n.get? k) : m = n := by
  have distinct : ∀ o : SortedMap κ ν, o.entries.Nodup := fun o =>
    o.ascending.imp fun {a b} hab he => by
      subst he
      have same : compare a.1 a.1 = .eq := Std.ReflCmp.compare_self
      rw [same] at hab
      cases hab
  have perm : m.entries.Perm n.entries :=
    (List.perm_ext_iff_of_nodup (distinct m) (distinct n)).2 fun e => by
      rw [← get?_eq_some_iff, ← get?_eq_some_iff, h]
  refine ext (perm.eq_of_pairwise (fun a b _ _ hab hba => ?_) m.ascending n.ascending)
  have back := Std.OrientedCmp.gt_of_lt hba
  rw [hab] at back
  cases back

end SortedMap
end TreeFlow
