import Mathlib.Data.List.Nodup
import Mathlib.Data.List.Perm.Basic
import Mathlib.Data.List.Range
import Mathlib.Data.List.ReduceOption
import TreeFlow.Graph.Load
/-
Slots: which parameter feeds or carries which declared input or output.

A parameter claims the slot that it names if nobody claimed it before, and the slots that are left
go to the other parameters in order.  So no slot is given twice (`assignSlots_spec`), and since an
output parameter is added for every declared output that is still without one, the output
parameters of a component carry each declared output exactly once (`slots_outputsOf_perm`).
-/

namespace TreeFlow

/-! ## Claims -/

theorem length_claimSlots (taken : List Nat) (named : List (Option Nat)) :
    (claimSlots taken named).length = named.length := by
  induction named generalizing taken with
  | nil => rfl
  | cons slot rest ih =>
    cases slot with
    | none => simp [claimSlots, ih]
    | some slot =>
      rw [claimSlots]
      split
      · simp [ih]
      · simp [ih]

/-- A claimed slot was named, was free, and is claimed once. -/
theorem claimSlots_spec (taken : List Nat) (named : List (Option Nat)) :
    ((claimSlots taken named).reduceOption).Nodup ∧
      ∀ slot ∈ (claimSlots taken named).reduceOption, some slot ∈ named ∧ slot ∉ taken := by
  induction named generalizing taken with
  | nil => simp [claimSlots]
  | cons first rest ih =>
    have skip : (none :: claimSlots taken rest).reduceOption.Nodup ∧
        ∀ slot ∈ (none :: claimSlots taken rest).reduceOption,
          some slot ∈ first :: rest ∧ slot ∉ taken := by
      obtain ⟨hnodup, hmem⟩ := ih taken
      rw [List.reduceOption_cons_of_none]
      exact ⟨hnodup, fun slot h => ⟨List.mem_cons_of_mem _ (hmem slot h).1, (hmem slot h).2⟩⟩
    cases first with
    | none => exact skip
    | some first =>
      rw [claimSlots]
      split
      · exact skip
      · rename_i hfree
        obtain ⟨hnodup, hmem⟩ := ih (first :: taken)
        rw [List.reduceOption_cons_of_some, List.nodup_cons]
        refine ⟨⟨fun h => (hmem first h).2 List.mem_cons_self, hnodup⟩, fun slot h => ?_⟩
        rcases List.mem_cons.1 h with rfl | h
        · exact ⟨List.mem_cons_self, by simpa using hfree⟩
        · exact ⟨List.mem_cons_of_mem _ (hmem slot h).1,
            fun ht => (hmem slot h).2 (List.mem_cons_of_mem _ ht)⟩

/-- Every slot that is named gets claimed. -/
theorem mem_claimSlots {taken : List Nat} {named : List (Option Nat)} {slot : Nat}
    (hnamed : some slot ∈ named) (hfree : slot ∉ taken) :
    slot ∈ (claimSlots taken named).reduceOption := by
  induction named generalizing taken with
  | nil => cases hnamed
  | cons first rest ih =>
    have hrest : slot ∉ taken → some slot ∈ rest →
        slot ∈ (none :: claimSlots taken rest).reduceOption := by
      intro hfree hmem
      rw [List.reduceOption_cons_of_none]
      exact ih hmem hfree
    cases first with
    | none => exact hrest hfree (by simpa using hnamed)
    | some first =>
      rw [claimSlots]
      by_cases hsame : slot = first
      · subst hsame
        rw [if_neg (by simpa using hfree), List.reduceOption_cons_of_some]
        exact List.mem_cons_self
      · have hmem : some slot ∈ rest := by simpa [hsame] using hnamed
        split
        · exact hrest hfree hmem
        · rw [List.reduceOption_cons_of_some]
          exact List.mem_cons_of_mem _ (ih hmem (by simp [hsame, hfree]))

/-! ## Slots that are left -/

theorem length_fillSlots (free : List Nat) (slots : List (Option Nat)) :
    (fillSlots free slots).length = slots.length := by
  induction slots generalizing free with
  | nil => rfl
  | cons slot rest ih =>
    cases slot with
    | some slot => simp [fillSlots, ih]
    | none => cases free <;> simp [fillSlots, ih]

/-- Filling keeps the slots that are there and takes free ones from the front. -/
theorem fillSlots_perm (free : List Nat) (slots : List (Option Nat)) :
    (fillSlots free slots).reduceOption.Perm
      (slots.reduceOption ++ free.take (slots.count none)) := by
  induction slots generalizing free with
  | nil => simp [fillSlots]
  | cons slot rest ih =>
    cases slot with
    | some slot =>
      rw [fillSlots, List.reduceOption_cons_of_some, List.reduceOption_cons_of_some,
        List.count_cons_of_ne (by simp)]
      exact (ih free).cons slot
    | none =>
      cases free with
      | nil => simpa [fillSlots, List.reduceOption_cons_of_none] using ih []
      | cons slot free =>
        rw [fillSlots, List.reduceOption_cons_of_some, List.reduceOption_cons_of_none,
          List.count_cons_self, List.take_succ_cons]
        exact ((ih free).cons slot).trans List.perm_middle.symm

@[simp] theorem length_assignSlots (named : List (Option Nat)) (count : Nat) :
    (assignSlots named count).length = named.length := by
  rw [assignSlots, length_fillSlots, length_claimSlots]

/-- A slot is given once, and one that is given is there. -/
theorem assignSlots_spec {named : List (Option Nat)} {count : Nat}
    (hnamed : ∀ slot, some slot ∈ named → slot < count) :
    (assignSlots named count).reduceOption.Nodup ∧
      ∀ slot ∈ (assignSlots named count).reduceOption, slot < count := by
  obtain ⟨hnodup, hmem⟩ := claimSlots_spec [] named
  have hperm := fillSlots_perm
    ((List.range count).filter fun slot => !(claimSlots [] named).contains (some slot))
    (claimSlots [] named)
  have htake : ∀ slot ∈ (((List.range count).filter fun slot =>
      !(claimSlots [] named).contains (some slot)).take ((claimSlots [] named).count none)),
      slot < count ∧ some slot ∉ claimSlots [] named := by
    intro slot h
    simpa using List.mem_of_mem_take h
  constructor
  · refine hperm.nodup_iff.2 (List.Nodup.append hnodup ?_ ?_)
    · exact (List.nodup_range.filter _).sublist (List.take_sublist _ _)
    · intro slot hclaimed hfree
      exact (htake slot hfree).2 (List.reduceOption_mem_iff.1 hclaimed)
  · intro slot h
    rcases List.mem_append.1 (hperm.mem_iff.1 h) with h | h
    · exact hnamed slot (hmem slot h).1
    · exact (htake slot h).1

theorem mem_assignSlots {named : List (Option Nat)} {count slot : Nat}
    (h : some slot ∈ named) : slot ∈ (assignSlots named count).reduceOption :=
  (fillSlots_perm _ _).mem_iff.2 (List.mem_append_left _ (mem_claimSlots h (List.not_mem_nil)))

/-! ## Output parameters -/

namespace Component.Signature

theorem inputIndex?_lt {s : Signature} {asked : String} {slot : Nat}
    (h : s.inputIndex? asked = some slot) : slot < s.inputs.length :=
  (List.findIdx?_eq_some_iff_getElem.1 h).1

theorem outputIndex?_lt {s : Signature} {asked : String} {slot : Nat}
    (h : s.outputIndex? asked = some slot) : slot < s.outputs.length :=
  (List.findIdx?_eq_some_iff_getElem.1 h).1

end Component.Signature

namespace Node

/-- The output parameters that a document writes. -/
def writtenOutputs (documents : List ParamDocument) (s : Component.Signature) :
    List OutputParam :=
  (documents.zip (assignSlots (documents.map fun p => s.outputIndex? p.name)
    s.outputs.length)).map fun (p, slot) => ⟨p.name, p.guid, slot, p.mapping⟩

/-- The declared outputs that no written parameter carries, with their slots. -/
def leftOutputs (documents : List ParamDocument) (s : Component.Signature) :
    List (Component.Output × Nat) :=
  s.outputs.zipIdx.filter fun (_, slot) =>
    !(writtenOutputs documents s).any fun o => o.slot == some slot

variable (documents : List ParamDocument) (s : Component.Signature)

theorem outputsOf_eq : outputsOf documents s = writtenOutputs documents s ++
    (leftOutputs documents s).map fun (o, slot) => ⟨o.name, none, some slot, .none⟩ := rfl

theorem names_writtenOutputs :
    (writtenOutputs documents s).map OutputParam.name = documents.map ParamDocument.name := by
  set slots := assignSlots (documents.map fun p => s.outputIndex? p.name) s.outputs.length
  have hlength : documents.length ≤ slots.length := by simp [slots]
  calc (writtenOutputs documents s).map OutputParam.name
      = ((documents.zip slots).map Prod.fst).map ParamDocument.name := by
        rw [writtenOutputs, List.map_map, List.map_map]
        rfl
    _ = documents.map ParamDocument.name := by rw [List.map_fst_zip hlength]

/-- Of the parameters of a document their names, guids and mappings count. -/
theorem outputsOf_map {f : ParamDocument → ParamDocument}
    (hf : ∀ p, (f p).name = p.name ∧ (f p).guid = p.guid ∧ (f p).mapping = p.mapping) :
    outputsOf (documents.map f) s = outputsOf documents s := by
  have hwritten : writtenOutputs (documents.map f) s = writtenOutputs documents s := by
    unfold writtenOutputs
    rw [List.map_map, List.zip_map_left, List.map_map]
    simp only [Function.comp_def, Prod.map_fst, Prod.map_snd, id, (hf _).1, (hf _).2.1,
      (hf _).2.2]
  rw [outputsOf_eq, outputsOf_eq]
  unfold leftOutputs
  rw [hwritten]

theorem slots_writtenOutputs : (writtenOutputs documents s).filterMap OutputParam.slot
    = (assignSlots (documents.map fun p => s.outputIndex? p.name)
        s.outputs.length).reduceOption := by
  set slots := assignSlots (documents.map fun p => s.outputIndex? p.name) s.outputs.length
  have hlength : slots.length ≤ documents.length := by simp [slots]
  calc (writtenOutputs documents s).filterMap OutputParam.slot
      = ((documents.zip slots).map Prod.snd).filterMap id := by
        rw [writtenOutputs, List.filterMap_map, List.filterMap_map]
        rfl
    _ = slots.reduceOption := by rw [List.map_snd_zip hlength, List.reduceOption]

/-- Of the written parameters no two carry one slot. -/
theorem slots_writtenOutputs_spec :
    ((writtenOutputs documents s).filterMap OutputParam.slot).Nodup ∧
      ∀ slot ∈ (writtenOutputs documents s).filterMap OutputParam.slot,
        slot < s.outputs.length := by
  rw [slots_writtenOutputs]
  refine assignSlots_spec fun slot h => ?_
  obtain ⟨p, -, hp⟩ := List.mem_map.1 h
  exact Component.Signature.outputIndex?_lt hp

theorem slots_leftOutputs : (leftOutputs documents s).map Prod.snd
    = (List.range s.outputs.length).filter
        (· ∉ (writtenOutputs documents s).filterMap OutputParam.slot) := by
  have hcarried : ∀ slot, ((writtenOutputs documents s).any fun o => o.slot == some slot)
      = decide (slot ∈ (writtenOutputs documents s).filterMap OutputParam.slot) := by
    intro slot
    rw [Bool.eq_iff_iff, List.any_eq_true, decide_eq_true_iff, List.mem_filterMap]
    simp
  rw [leftOutputs, List.range_eq_range', ← List.zipIdx_map_snd 0 s.outputs, List.filter_map]
  simp only [hcarried, ← decide_not]
  rfl

/-- The output parameters carry the declared outputs, each of them once. -/
theorem slots_outputsOf_perm :
    ((outputsOf documents s).filterMap OutputParam.slot).Perm (List.range s.outputs.length) := by
  obtain ⟨hnodup, hlt⟩ := slots_writtenOutputs_spec documents s
  have hleft := slots_leftOutputs documents s
  set taken := (writtenOutputs documents s).filterMap OutputParam.slot
  have hall : (outputsOf documents s).filterMap OutputParam.slot
      = taken ++ (List.range s.outputs.length).filter (· ∉ taken) := by
    rw [outputsOf_eq, List.filterMap_append, List.filterMap_map, ← hleft, ← List.filterMap_eq_map]
    rfl
  have hdisjoint : taken.Disjoint ((List.range s.outputs.length).filter (· ∉ taken)) := by
    intro slot htaken hfree
    simp [htaken] at hfree
  have hunion : (taken ++ (List.range s.outputs.length).filter (· ∉ taken)).Nodup :=
    hnodup.append (List.nodup_range.filter _) hdisjoint
  rw [hall]
  refine (List.perm_ext_iff_of_nodup hunion List.nodup_range).2 fun slot => ?_
  by_cases h : slot ∈ taken
  · simp [h, hlt slot h]
  · simp [h]

end Node
end TreeFlow
