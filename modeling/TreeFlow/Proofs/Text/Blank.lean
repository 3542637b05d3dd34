import TreeFlow.Text.Blank
/-
Trimming as a relation.

`Padded core cs` says that `cs` is `core` with blanks around it.  A text is its trimmed form with
blanks around it (`padded_trimmed`), and it trims to a core whose two ends are no blanks
(`Padded.trimmed_eq`), so a reader that trims accepts what its core accepts in any padding.
-/

namespace TreeFlow
namespace Text

theorem trimmed_cons_of_isBlank {c : Char} (h : isBlank c = true) (cs : List Char) :
    trimmed (c :: cs) = trimmed cs := by
  unfold trimmed
  rw [List.dropWhile_cons_of_pos h]

theorem trimmed_concat_of_isBlank {c : Char} (h : isBlank c = true) (cs : List Char) :
    trimmed (cs ++ [c]) = trimmed cs := by
  unfold trimmed
  rw [List.dropWhile_append]
  split
  next hempty =>
    rw [List.isEmpty_iff.1 hempty, List.dropWhile_cons_of_pos h]
    rfl
  next => rw [List.reverse_append, List.reverse_singleton, List.singleton_append,
    List.dropWhile_cons_of_pos h]

/-- `cs` is `core` between blanks. -/
def Padded (core cs : List Char) : Prop :=
  ∃ before after, (∀ c ∈ before, isBlank c = true) ∧ (∀ c ∈ after, isBlank c = true) ∧
    before ++ core ++ after = cs

theorem padded_trimmed (cs : List Char) : Padded (trimmed cs) cs := by
  let rest := cs.dropWhile isBlank
  refine ⟨cs.takeWhile isBlank, (rest.reverse.takeWhile isBlank).reverse, ?_, ?_, ?_⟩
  · intro c hc
    exact List.all_eq_true.1 List.all_takeWhile c hc
  · intro c hc
    exact List.all_eq_true.1 List.all_takeWhile c (List.mem_reverse.1 hc)
  · have hrest : trimmed cs ++ (rest.reverse.takeWhile isBlank).reverse = rest := by
      unfold trimmed
      rw [← List.reverse_append, List.takeWhile_append_dropWhile, List.reverse_reverse]
    rw [List.append_assoc, hrest]
    exact List.takeWhile_append_dropWhile

namespace Padded

variable {core cs : List Char}

theorem trimmed_eq_trimmed (h : Padded core cs) : trimmed cs = trimmed core := by
  obtain ⟨before, after, hbefore, hafter, rfl⟩ := h
  have hfront : ∀ l, trimmed (before ++ l) = trimmed l := by
    intro l
    induction before with
    | nil => rfl
    | cons c before ih =>
      rw [List.cons_append, trimmed_cons_of_isBlank (hbefore c List.mem_cons_self)]
      exact ih fun d hd => hbefore d (List.mem_cons_of_mem c hd)
  rw [List.append_assoc, hfront]
  induction after generalizing core with
  | nil => rw [List.append_nil]
  | cons c after ih =>
    have hc := trimmed_concat_of_isBlank (hafter c List.mem_cons_self) core
    rw [List.append_cons, ih fun d hd => hafter d (List.mem_cons_of_mem c hd), hc]

theorem trimmed_eq (h : Padded core cs) (first : ∀ c ∈ core.head?, isBlank c = false)
    (last : ∀ c ∈ core.getLast?, isBlank c = false) : trimmed cs = core := by
  rw [h.trimmed_eq_trimmed, trimmed_eq_self first last]

theorem mem (h : Padded core cs) {c : Char} (hc : c ∈ cs) : isBlank c = true ∨ c ∈ core := by
  obtain ⟨before, after, hbefore, hafter, rfl⟩ := h
  obtain hc | hc := List.mem_append.1 hc
  · obtain hc | hc := List.mem_append.1 hc
    · exact .inl (hbefore c hc)
    · exact .inr hc
  · exact .inl (hafter c hc)

end Padded

end Text
end TreeFlow
