import Mathlib.Data.List.Perm.Basic
import TreeFlow.Proofs.Except
import TreeFlow.Proofs.Path.Text
import TreeFlow.Proofs.SortedMap
import TreeFlow.Tree.Document
/-
Branches under texts.

Many texts read as one path, and a text may read as none.  A map of texts is decoded to the tree
whose branches its texts stand for, one for each (`ofKeyed_eq_ok_iff`): so it is refused if a text
stands for no path, or two of them for the same one, and for nothing else (`exists_ofKeyed_iff`).
-/

namespace TreeFlow
namespace Tree

theorem addKeyed_eq_ok_iff {t u : Tree} {key : String} {items : List Item} :
    t.addKeyed key items = .ok u ↔
      ∃ p, Path.parse? key = some p ∧ p ∉ t.paths ∧ t.setBranch p items = u := by
  have hpath : ∀ p, t.hasPath p = true ↔ p ∈ t.paths := fun p =>
    SortedMap.mem_keys_iff_isSome.symm
  unfold addKeyed
  rw [Except.bind_eq_ok_iff]
  refine exists_congr fun p => and_congr Path.read_eq_ok_iff ?_
  by_cases hp : t.hasPath p = true <;> simp [hp, ← hpath]

/-- The branches of a tree, to be compared with texts that may not read as a path. -/
def named (t : Tree) : List (Option Path × List Item) :=
  t.branches.entries.map fun b => (some b.1, b.2)

/-- What texts stand for. -/
def readKeys (l : List (String × List Item)) : List (Option Path × List Item) :=
  l.map fun e => (Path.parse? e.1, e.2)

theorem eq_of_named_perm {t u : Tree} (h : t.named.Perm u.named) : t = u := by
  have hinj : Function.Injective fun b : Path × List Item => (some b.1, b.2) := by
    intro b b' hb
    obtain ⟨hpath, hitems⟩ := Prod.mk.inj hb
    exact Prod.ext (Option.some.inj hpath) hitems
  have hentries := (List.map_perm_map_iff hinj).1 h
  exact congrArg Tree.mk (SortedMap.eq_of_entries_perm hentries)

theorem nodup_fst_named (t : Tree) : (t.named.map Prod.fst).Nodup := by
  have hkeys : (t.branches.keys.map some).Nodup :=
    t.branches.nodup_keys.map fun _ _ => Option.some.inj
  rw [SortedMap.keys, List.map_map] at hkeys
  rw [named, List.map_map]
  exact hkeys

theorem some_mem_fst_named {t : Tree} {p : Path} (h : p ∈ t.paths) :
    some p ∈ t.named.map Prod.fst := by
  obtain ⟨items, hitems⟩ := SortedMap.mem_keys_iff.1 h
  exact List.mem_map_of_mem (f := Prod.fst)
    (List.mem_map_of_mem (f := fun b => (some b.1, b.2)) hitems)

theorem named_setBranch {t : Tree} {p : Path} (h : p ∉ t.paths) (items : List Item) :
    (t.setBranch p items).named.Perm ((some p, items) :: t.named) :=
  (SortedMap.entries_insert_perm h items).map _

/-- Texts come in their own order and branches in path order, so what is added and what comes of it
agree up to order. -/
theorem foldlM_addKeyed_eq_ok_iff {l : List (String × List Item)} {t u : Tree} :
    l.foldlM (fun t e => t.addKeyed e.1 e.2) t = .ok u ↔
      (t.named ++ readKeys l).Perm u.named := by
  induction l generalizing t with
  | nil =>
    rw [readKeys, List.map_nil, List.append_nil]
    constructor
    · intro h
      rw [Except.ok.inj h]
    · intro h
      exact congrArg Except.ok (eq_of_named_perm h)
  | cons e l ih =>
    have hadded : ∀ p, Path.parse? e.1 = some p → p ∉ t.paths →
        (t.named ++ readKeys (e :: l)).Perm ((t.setBranch p e.2).named ++ readKeys l) := by
      intro p hp hnew
      rw [readKeys, List.map_cons, hp]
      exact List.perm_middle.trans ((named_setBranch hnew e.2).symm.append_right _)
    simp only [List.foldlM_cons, Except.bind_eq_ok_iff, addKeyed_eq_ok_iff, ih]
    constructor
    · intro h
      obtain ⟨_, ⟨p, hp, hnew, rfl⟩, hperm⟩ := h
      exact (hadded p hp hnew).trans hperm
    · intro h
      -- What the text stands for is a branch of `u`, so it is a path; and as `u` has each path once,
      -- it is none of `t`.
      have hmem := h.subset (List.mem_append_right _ List.mem_cons_self)
      obtain ⟨⟨p, items⟩, -, heq⟩ := List.mem_map.1 hmem
      have hp : Path.parse? e.1 = some p := (Prod.mk.inj heq).1.symm
      have hnodup := (h.map Prod.fst).nodup_iff.2 u.nodup_fst_named
      have hnew : p ∉ t.paths := fun hpresent => by
        rw [List.map_append] at hnodup
        refine List.disjoint_of_nodup_append hnodup (some_mem_fst_named hpresent) ?_
        rw [← hp]
        exact List.mem_cons_self
      exact ⟨_, ⟨p, hp, hnew, rfl⟩, (hadded p hp hnew).symm.trans h⟩

/-- A map is decoded to the tree whose branches its keys name, if there is one. -/
theorem ofKeyed_eq_ok_iff {map : SortedMap String (List Item)} {t : Tree} :
    ofKeyed map = .ok t ↔ (readKeys map.entries).Perm t.named :=
  foldlM_addKeyed_eq_ok_iff

/-- The branches of a tree under the texts of their paths read as the tree. -/
theorem ofKeyed_keyed (t : Tree) : ofKeyed t.keyed = .ok t := by
  have hnodup : ((t.branches.entries.map fun e => (e.1.text, e.2)).map Prod.fst).Nodup := by
    have hkeys : (t.branches.keys.map Path.text).Nodup :=
      t.branches.nodup_keys.map fun p q => Path.text_injective
    rw [SortedMap.keys, List.map_map] at hkeys
    rw [List.map_map]
    exact hkeys
  have hread : readKeys (t.branches.entries.map fun e => (e.1.text, e.2)) = t.named := by
    rw [readKeys, List.map_map]
    refine List.map_congr_left fun e _ => ?_
    rw [Function.comp_apply, Path.parse?_text]
  rw [ofKeyed_eq_ok_iff, ← hread]
  exact (SortedMap.entries_ofList_perm hnodup).map _

/-! ## Which maps are decoded -/

variable {map : SortedMap String (List Item)} {t : Tree}

theorem map_fst_readKeys : (readKeys map.entries).map Prod.fst = map.keys.map Path.parse? := by
  rw [readKeys, List.map_map, SortedMap.keys, List.map_map]
  rfl

/-- A map is refused only for a key that is no path, or for two keys that are the same path. -/
theorem exists_ofKeyed_iff : (∃ t, ofKeyed map = .ok t) ↔
    (∀ key ∈ map.keys, ∃ p, Path.parse? key = some p) ∧
      ∀ key ∈ map.keys, ∀ key' ∈ map.keys, Path.parse? key = Path.parse? key' → key = key' := by
  constructor
  · intro h
    obtain ⟨t, h⟩ := h
    have hkeys := ((ofKeyed_eq_ok_iff.1 h).map Prod.fst)
    rw [map_fst_readKeys] at hkeys
    refine ⟨fun key hkey => ?_, fun key hkey key' hkey' =>
      List.inj_on_of_nodup_map (hkeys.nodup_iff.2 t.nodup_fst_named) hkey hkey'⟩
    have hmem := hkeys.subset (List.mem_map_of_mem hkey)
    obtain ⟨_, hb, heq⟩ := List.mem_map.1 hmem
    obtain ⟨b, -, rfl⟩ := List.mem_map.1 hb
    exact ⟨b.1, heq.symm⟩
  · intro h
    obtain ⟨hreads, hdistinct⟩ := h
    let branches := map.entries.map fun e => ((Path.parse? e.1).getD .root, e.2)
    have hread : branches.map (fun b => (some b.1, b.2)) = readKeys map.entries := by
      rw [List.map_map]
      refine List.map_congr_left fun e he => ?_
      obtain ⟨p, hp⟩ := hreads e.1 (List.mem_map_of_mem he)
      rw [Function.comp_apply, hp, Option.getD_some]
    have hnodup : (branches.map Prod.fst).Nodup := by
      have hsome : (branches.map Prod.fst).map some = map.keys.map Path.parse? := by
        rw [← map_fst_readKeys, ← hread]
        simp only [List.map_map]
        rfl
      refine .of_map some ?_
      rw [hsome]
      exact map.nodup_keys.map_on hdistinct
    refine ⟨ofBranches branches, ofKeyed_eq_ok_iff.2 ?_⟩
    rw [← hread]
    exact ((SortedMap.entries_ofList_perm hnodup).map _).symm

theorem branch?_of_ofKeyed (h : ofKeyed map = .ok t) {p : Path} {items : List Item} :
    t.branch? p = some items ↔ ∃ key, map.get? key = some items ∧ Path.parse? key = some p := by
  have hmem : t.branch? p = some items ↔ (some p, items) ∈ t.named := by
    rw [branch?, SortedMap.get?_eq_some_iff]
    simp [named]
  rw [hmem, ← (ofKeyed_eq_ok_iff.1 h).mem_iff]
  simp [readKeys, SortedMap.get?_eq_some_iff]

theorem branchCount_of_ofKeyed (h : ofKeyed map = .ok t) : t.branchCount = map.size := by
  have hlength := (ofKeyed_eq_ok_iff.1 h).length_eq
  rw [readKeys, named, List.length_map, List.length_map] at hlength
  exact hlength.symm

end Tree
end TreeFlow
