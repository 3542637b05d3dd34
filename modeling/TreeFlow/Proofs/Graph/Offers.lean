import TreeFlow.Proofs.Graph.Loaded
import TreeFlow.Text.Blank
import TreeFlow.Text.Case
/-
Which outputs a component offers.

A name is first looked for among the output parameters and then among the declared outputs.  Since
every declared output is carried by a parameter, a name is found exactly if a written parameter
bears it or a declared output answers to it, whatever slots were given: `isSome_outputIndex?_iff`.
-/

namespace TreeFlow

/-! ## Letter case and blanks -/

namespace Text

theorem not_isBlank_of_le {c : Char} (hlow : 65 ≤ c.toNat) (hhigh : c.toNat ≤ 122) :
    isBlank c = false := by
  simp only [isBlank, Bool.or_eq_false_iff, Bool.and_eq_false_iff, decide_eq_false_iff_not,
    beq_eq_false_iff_ne]
  omega

theorem isBlank_toLower (c : Char) : isBlank c.toLower = isBlank c := by
  unfold Char.toLower
  split
  · rename_i h
    have hlow : 65 ≤ c.val.toNat := h.1
    have hhigh : c.val.toNat ≤ 90 := h.2
    have hsum : (c.val + ('a'.val - 'A'.val)).toNat = c.val.toNat + 32 := by
      rw [UInt32.toNat_add]
      show (c.val.toNat + 32) % 4294967296 = _
      omega
    have hc : isBlank c = false := not_isBlank_of_le hlow (by show c.val.toNat ≤ 122; omega)
    rw [hc]
    apply not_isBlank_of_le
    · show 65 ≤ (c.val + ('a'.val - 'A'.val)).toNat
      omega
    · show (c.val + ('a'.val - 'A'.val)).toNat ≤ 122
      omega
  · rfl

theorem trimmed_map_toLower (cs : List Char) :
    trimmed (cs.map Char.toLower) = (trimmed cs).map Char.toLower := by
  have hblank : isBlank ∘ Char.toLower = isBlank := funext isBlank_toLower
  unfold trimmed
  simp only [List.dropWhile_map, ← List.map_reverse, hblank]

/-- A text with the letters of a trimmed one is itself trimmed. -/
theorem sameLetters_trim {s t : String} (h : sameLetters s t = true) (hs : trim s = s) :
    sameLetters s (trim t) = true := by
  rw [sameLetters_iff] at h ⊢
  have hs' : trimmed s.toList = s.toList := by
    have := congrArg String.toList hs
    simpa [trim] using this
  rw [trim, String.toList_ofList, ← trimmed_map_toLower, ← h, trimmed_map_toLower, hs']

end Text

/-- No declared output has blanks around its name, and each is what its own name means. -/
theorem Component.Kind.names_of_outputs (k : Component.Kind) :
    ∀ place ∈ k.signature.outputs.zipIdx, Text.trim place.1.name = place.1.name ∧
      k.signature.outputIndex? place.1.name = some place.2 := by
  revert k
  decide +kernel

/-! ## Names of outputs -/

/-- A name finds an output where a written output parameter bears it, in any letter case, or a
declared output of the component's kind answers to it. -/
def ComponentDocument.Offers (c : ComponentDocument) (name : String) : Prop :=
  (∃ p ∈ c.paramsOf .output, Text.sameLetters p.name name = true) ∨
    ∃ k, Component.Kind.ofTag? c.typeName = some k ∧
      ∃ o ∈ k.signature.outputs, o.answersTo name = true

theorem Component.Output.answersTo_of_sameLetters {o : Component.Output} {name : String}
    (h : Text.sameLetters o.name name = true) (ho : Text.trim o.name = o.name) :
    o.answersTo name = true := by
  unfold Component.Output.answersTo Component.answersTo
  rw [List.any_cons, Text.sameLetters_trim h ho, Bool.true_or]

namespace Node

variable {c : ComponentDocument} {n : Node}

theorem exists_output_of_sameLetters (hkind : Component.Kind.ofTag? c.typeName = some n.kind)
    (houtputs : n.outputs = outputsOf (c.paramsOf .output) n.signature) {o : OutputParam}
    (ho : o ∈ n.outputs) {name : String} (h : Text.sameLetters o.name name = true) :
    c.Offers name := by
  rw [houtputs, outputsOf_eq, List.mem_append] at ho
  rcases ho with hwritten | hleft
  · have hname := List.mem_map_of_mem (f := OutputParam.name) hwritten
    rw [names_writtenOutputs] at hname
    obtain ⟨p, hp, hsame⟩ := List.mem_map.1 hname
    exact .inl ⟨p, hp, hsame ▸ h⟩
  · obtain ⟨⟨declared, slot⟩, hdeclared, rfl⟩ := List.mem_map.1 hleft
    have hplace : (declared, slot) ∈ n.kind.signature.outputs.zipIdx :=
      (List.mem_filter.1 hdeclared).1
    have htrim := (n.kind.names_of_outputs _ hplace).1
    exact .inr ⟨n.kind, hkind, declared, List.fst_mem_of_mem_zipIdx hplace,
      Component.Output.answersTo_of_sameLetters h htrim⟩

/-- A component is found to have an output of a name exactly if its document offers it. -/
theorem isSome_outputIndex?_iff (hkind : Component.Kind.ofTag? c.typeName = some n.kind)
    (houtputs : n.outputs = outputsOf (c.paramsOf .output) n.signature) (name : String) :
    (n.outputIndex? name).isSome = true ↔ c.Offers name := by
  have hcarried := slots_outputsOf_perm (c.paramsOf .output) n.signature
  rw [← houtputs] at hcarried
  unfold outputIndex?
  simp only [Option.isSome_or, Bool.or_eq_true, List.findIdx?_isSome, List.any_eq_true]
  constructor
  · rintro (⟨o, ho, h⟩ | ⟨o, ho, h⟩ | h)
    · have hname : o.name = name := by simpa using h
      exact exists_output_of_sameLetters hkind houtputs ho (hname ▸ Text.sameLetters_self _)
    · exact exists_output_of_sameLetters hkind houtputs ho h
    · obtain ⟨k, hk⟩ := Option.isSome_iff_exists.1 h
      obtain ⟨slot, hslot, -⟩ := Option.bind_eq_some_iff.1 hk
      obtain ⟨hlt, hanswers, -⟩ := List.findIdx?_eq_some_iff_getElem.1 hslot
      exact .inr ⟨n.kind, hkind, _, List.getElem_mem hlt, hanswers⟩
  · rintro (⟨p, hp, h⟩ | ⟨k, hk, o, ho, h⟩)
    · have hname := List.mem_map_of_mem (f := ParamDocument.name) hp
      rw [← names_writtenOutputs _ n.signature] at hname
      obtain ⟨o, ho, hsame⟩ := List.mem_map.1 hname
      refine .inr (.inl ⟨o, ?_, hsame ▸ h⟩)
      rw [houtputs, outputsOf_eq]
      exact List.mem_append_left _ ho
    -- Whichever parameter was given the slot carries the declared output that answers.
    · obtain rfl : n.kind = k := Option.some.inj (hkind.symm.trans hk)
      have hsome : (n.signature.outputIndex? name).isSome = true := by
        rw [Component.Signature.outputIndex?, List.findIdx?_isSome, List.any_eq_true]
        exact ⟨o, ho, h⟩
      obtain ⟨slot, hslot⟩ := Option.isSome_iff_exists.1 hsome
      have hlt := Component.Signature.outputIndex?_lt hslot
      obtain ⟨o', ho', hslot'⟩ :=
        List.mem_filterMap.1 (hcarried.mem_iff.2 (List.mem_range.2 hlt))
      right; right
      rw [hslot, Option.bind_some, List.findIdx?_isSome, List.any_eq_true]
      exact ⟨o', ho', by simp [hslot']⟩

end Node
end TreeFlow
