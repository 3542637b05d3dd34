import TreeFlow.Files.Directory
import TreeFlow.Proofs.Files
/-
A directory keeps files.

Writing makes the folders on the way to a file and reading enters them, so reading goes the way
that writing went (`enter_of_enterMaking`) and finds what was put at its end: the access to a
directory is lawful.
-/

namespace TreeFlow
namespace Directory

variable {d d' : Directory} {folder place : List String} {name : String}

theorem isFolder_mono (h : d.folders ⊆ d'.folders) {location : List String}
    (hd : d.isFolder location = true) : d'.isFolder location = true := by
  simp only [isFolder, Bool.or_eq_true, List.contains_iff_mem] at hd ⊢
  exact hd.imp_right fun hmem => h hmem

/-- Going into a folder that is made if need be: it is where the name leads, it is there then, and
no folder is gone. -/
theorem enterMaking_eq_some (h : enterMaking (d, folder) name = some (d', place)) :
    target? folder name = some place ∧ d'.isFolder place = true ∧ d.folders ⊆ d'.folders := by
  obtain ⟨next, hnext, h⟩ := Option.bind_eq_some_iff.1 h
  obtain ⟨made, hmade, h⟩ := Option.bind_eq_some_iff.1 h
  obtain ⟨rfl, rfl⟩ := Prod.mk.inj (Option.some.inj h)
  refine ⟨hnext, ?_⟩
  unfold makeFolder at hmade
  split at hmade
  next hthere =>
    obtain rfl := Option.some.inj hmade
    exact ⟨hthere, List.Subset.refl _⟩
  next =>
    split at hmade
    · cases hmade
    · obtain rfl := Option.some.inj hmade
      exact ⟨by simp [isFolder], List.subset_cons_self _ _⟩

theorem enterMaking_subset {names : List String}
    (h : names.foldlM enterMaking (d, folder) = some (d', place)) : d.folders ⊆ d'.folders := by
  induction names generalizing d folder with
  | nil =>
    obtain ⟨rfl, -⟩ := Prod.mk.inj (Option.some.inj h)
    exact List.Subset.refl _
  | cons name names ih =>
    obtain ⟨⟨made, next⟩, hmade, h⟩ := Option.bind_eq_some_iff.1 h
    exact List.Subset.trans (enterMaking_eq_some hmade).2.2 (ih h)

/-- The way that was made can be gone, also when there are more folders. -/
theorem enter_of_enterMaking {made : Directory} {names : List String}
    (h : names.foldlM enterMaking (d, folder) = some (made, place))
    (hfolders : made.folders ⊆ d'.folders) : names.foldlM d'.enter folder = some place := by
  induction names generalizing d folder with
  | nil =>
    obtain ⟨-, rfl⟩ := Prod.mk.inj (Option.some.inj h)
    rfl
  | cons name names ih =>
    obtain ⟨⟨between, next⟩, hnext, h⟩ := Option.bind_eq_some_iff.1 h
    obtain ⟨htarget, hfolder, -⟩ := enterMaking_eq_some hnext
    have hkept : between.folders ⊆ d'.folders := List.Subset.trans (enterMaking_subset h) hfolders
    have henter : d'.enter folder name = some next := by
      rw [enter, htarget, Option.filter_some, if_pos (isFolder_mono hkept hfolder)]
    rw [List.foldlM_cons, henter]
    exact ih h

/-- Where a file can be put: the way to it is made, and it is at the end. -/
theorem prepare_eq_some {location : String} (h : d.prepare location = some (d', place)) :
    admits location = true ∧ ∃ names name folder, split? location = some (names, name) ∧
      names.foldlM enterMaking (d, []) = some (d', folder) ∧ place = folder ++ [name] := by
  unfold prepare at h
  by_cases hadmits : admits location = true
  · rw [if_neg (by simp [hadmits])] at h
    obtain ⟨⟨names, name⟩, hsplit, h⟩ := Option.bind_eq_some_iff.1 h
    obtain ⟨⟨made, folder⟩, hmade, h⟩ := Option.bind_eq_some_iff.1 h
    dsimp only at h
    split at h
    · cases h
    · obtain ⟨rfl, rfl⟩ := Prod.mk.inj (Option.some.inj h)
      exact ⟨hadmits, names, name, folder, hsplit, hmade, rfl⟩
  · rw [if_pos (by simp [hadmits])] at h
    cases h

theorem read_eq_of_enter {location : String} {names : List String}
    (hadmits : admits location = true) (hsplit : split? location = some (names, name))
    (henter : names.foldlM d.enter [] = some folder) :
    d.read location = d.files.get? (folder ++ [name]) := by
  unfold read
  rw [if_neg (by simp [hadmits]), hsplit]
  show (names.foldlM d.enter [] >>= _) = _
  rw [henter]
  rfl

/-- What was written is read. -/
theorem read_of_write {location : String} {octets : List UInt8}
    (h : d.write location octets = some d') : d'.read location = some octets := by
  obtain ⟨⟨made, place⟩, hprepare, h⟩ := Option.bind_eq_some_iff.1 h
  obtain ⟨hadmits, names, name, folder, hsplit, hmade, rfl⟩ := prepare_eq_some hprepare
  have hwritten : { made with files := made.files.insert (folder ++ [name]) octets } = d' :=
    Option.some.inj h
  have hfolders : made.folders ⊆ d'.folders := by rw [← hwritten]; exact List.Subset.refl _
  rw [read_eq_of_enter hadmits hsplit (enter_of_enterMaking hmade hfolders), ← hwritten]
  exact SortedMap.get?_insert_self _ _ _

theorem access_lawful : access.Lawful read where
  read location s := rfl
  written location text s s' h := by
    simp only [access] at h
    split at h
    next written hwritten =>
      obtain rfl := (Prod.mk.inj h).2
      exact read_of_write hwritten
    next => cases (Prod.mk.inj h).1

end Directory
end TreeFlow
