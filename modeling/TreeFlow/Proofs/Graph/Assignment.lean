import TreeFlow.Proofs.Graph.Slots
/-
Which parameter gets which slot.

The first parameter that names a slot gets it.  The parameters left over take the slots that nobody
names, from the lowest on and in the order of the parameters, as long as there are any.  So the slot
of every parameter is known from the names alone, no slot is given twice, and as many parameters as
there can be get one (`assignSlots_injects`).
-/

namespace TreeFlow

variable {named slots : List (Option Nat)} {taken free : List Nat} {count i slot : Nat}

/-- The parameter at a place names no slot, or one that a parameter before it names. -/
def LeftOver (named : List (Option Nat)) (i : Nat) : Prop :=
  ∀ slot ∈ named[i]?.join, some slot ∈ named.take i

instance (named : List (Option Nat)) : DecidablePred (LeftOver named) := fun _ =>
  inferInstanceAs (Decidable (∀ _ ∈ _, _))

/-- The slots that no parameter names, in ascending order. -/
def unnamedSlots (named : List (Option Nat)) (count : Nat) : List Nat :=
  (List.range count).filter fun slot => some slot ∉ named

/-! ## Place by place -/

/-- A slot is claimed at the first place that names it. -/
theorem getElem?_claimSlots_eq_some_iff :
    (claimSlots taken named)[i]? = some (some slot) ↔
      named[i]? = some (some slot) ∧ some slot ∉ named.take i ∧ slot ∉ taken := by
  induction named generalizing taken i with
  | nil => simp [claimSlots]
  | cons first rest ih =>
    cases first with
    | none =>
      cases i with
      | zero => simp [claimSlots]
      | succ i => simp [claimSlots, ih]
    | some first =>
      rw [claimSlots]
      by_cases htaken : first ∈ taken
      · rw [if_pos (by simpa using htaken)]
        have hother : slot ∉ taken → slot ≠ first := fun h hsame => h (hsame ▸ htaken)
        cases i with
        | zero =>
          simp only [List.getElem?_cons_zero, Option.some.injEq, reduceCtorEq, false_iff]
          exact fun h => hother h.2.2 h.1.symm
        | succ i =>
          simp only [List.getElem?_cons_succ, List.take_succ_cons, List.mem_cons, ih]
          grind
      · rw [if_neg (by simpa using htaken)]
        cases i with
        | zero =>
          simp only [List.getElem?_cons_zero, Option.some.injEq, List.take_zero, List.not_mem_nil,
            not_false_eq_true, true_and]
          exact ⟨fun h => ⟨h, h ▸ htaken⟩, And.left⟩
        | succ i =>
          simp only [List.getElem?_cons_succ, List.take_succ_cons, List.mem_cons, ih]
          grind

theorem getElem?_fillSlots_of_some (h : slots[i]? = some (some slot)) :
    (fillSlots free slots)[i]? = some (some slot) := by
  induction slots generalizing free i with
  | nil => simp at h
  | cons first rest ih =>
    cases i with
    | zero =>
      obtain rfl : first = some slot := by simpa using h
      rfl
    | succ i =>
      have hrest : rest[i]? = some (some slot) := by simpa using h
      cases first with
      | some _ => exact ih hrest
      | none =>
        cases free with
        | nil => exact ih hrest
        | cons _ _ => exact ih hrest

/-- A parameter without a slot takes the free one whose number is how many such parameters come
before it. -/
theorem getElem?_fillSlots_of_none (h : slots[i]? = some none) :
    (fillSlots free slots)[i]? = some free[(slots.take i).count none]? := by
  induction slots generalizing free i with
  | nil => simp at h
  | cons first rest ih =>
    cases i with
    | zero =>
      obtain rfl : first = none := by simpa using h
      cases free <;> rfl
    | succ i =>
      have hrest : rest[i]? = some none := by simpa using h
      cases first with
      | some _ => simpa [fillSlots] using ih hrest
      | none =>
        cases free with
        | nil => simpa [fillSlots] using (ih hrest : (fillSlots [] rest)[i]? = _)
        | cons _ free => simpa [fillSlots] using (ih hrest : (fillSlots free rest)[i]? = _)

/-! ## All places -/

theorem mem_claimSlots_iff : some slot ∈ claimSlots [] named ↔ some slot ∈ named := by
  rw [← List.reduceOption_mem_iff]
  exact ⟨fun h => ((claimSlots_spec [] named).2 slot h).1,
    fun h => mem_claimSlots h List.not_mem_nil⟩

theorem assignSlots_eq (named : List (Option Nat)) (count : Nat) :
    assignSlots named count = fillSlots (unnamedSlots named count) (claimSlots [] named) := by
  have hfree : ((List.range count).filter fun slot => !(claimSlots [] named).contains (some slot))
      = unnamedSlots named count :=
    List.filter_congr fun slot _ => by simp [mem_claimSlots_iff]
  rw [assignSlots, hfree]

/-- The first parameter that names a slot is given it. -/
theorem getElem?_assignSlots (hslot : named[i]? = some (some slot))
    (hfirst : some slot ∉ named.take i) : (assignSlots named count)[i]? = some (some slot) := by
  rw [assignSlots_eq]
  exact getElem?_fillSlots_of_some
    (getElem?_claimSlots_eq_some_iff.2 ⟨hslot, hfirst, List.not_mem_nil⟩)

/-- Left over is who claims nothing. -/
theorem getElem?_claimSlots_eq_none_iff :
    (claimSlots [] named)[i]? = some none ↔ i < named.length ∧ LeftOver named i := by
  have hlength := length_claimSlots [] named
  constructor
  · intro h
    refine ⟨hlength ▸ (List.getElem?_eq_some_iff.1 h).1, fun slot hslot => ?_⟩
    by_contra hfirst
    have hclaim := getElem?_claimSlots_eq_some_iff.2
      ⟨Option.join_eq_some_iff.1 hslot, hfirst, List.not_mem_nil⟩
    rw [h] at hclaim
    cases hclaim
  · intro h
    obtain ⟨hi, hleft⟩ := h
    cases hclaim : (claimSlots [] named)[i]? with
    | none => exact absurd hi (Nat.not_lt.2 (hlength ▸ List.getElem?_eq_none_iff.1 hclaim))
    | some claimed =>
      cases claimed with
      | none => rfl
      | some slot =>
        obtain ⟨hslot, hfirst, -⟩ := getElem?_claimSlots_eq_some_iff.1 hclaim
        exact absurd (hleft slot (by rw [hslot, Option.join_some, Option.mem_some_iff])) hfirst

theorem count_none_take_claimSlots (hi : i ≤ named.length) :
    ((claimSlots [] named).take i).count none = (List.range i).countP (LeftOver named ·) := by
  induction i with
  | zero => rfl
  | succ i ih =>
    rw [List.take_add_one, List.count_append, ih (by omega), List.range_succ, List.countP_append]
    congr 1
    by_cases hleft : LeftOver named i
    · rw [getElem?_claimSlots_eq_none_iff.2 ⟨hi, hleft⟩]
      simp [hleft]
    · have hclaim : none ∉ (claimSlots [] named)[i]?.toList := fun h =>
        hleft (getElem?_claimSlots_eq_none_iff.1 (Option.mem_toList.1 h)).2
      rw [List.count_eq_zero.2 hclaim]
      simp [hleft]

/-- The slots below `count` are those that are claimed and those that nobody names. -/
theorem unnamedSlots_perm (hnamed : ∀ slot, some slot ∈ named → slot < count) :
    (unnamedSlots named count ++ (claimSlots [] named).reduceOption).Perm (List.range count) := by
  have hclaimed : ∀ slot, slot ∈ (claimSlots [] named).reduceOption ↔ some slot ∈ named :=
    fun slot => List.reduceOption_mem_iff.trans mem_claimSlots_iff
  have hnodup : (unnamedSlots named count ++ (claimSlots [] named).reduceOption).Nodup := by
    refine (List.nodup_range.filter _).append (claimSlots_spec [] named).1 ?_
    intro slot hfree hslot
    exact of_decide_eq_true (List.mem_filter.1 hfree).2 ((hclaimed slot).1 hslot)
  refine (List.perm_ext_iff_of_nodup hnodup List.nodup_range).2 fun slot => ?_
  rw [List.mem_append, hclaimed, unnamedSlots, List.mem_filter, List.mem_range, decide_eq_true_iff]
  by_cases hslot : some slot ∈ named
  · simp [hslot, hnamed slot hslot]
  · simp [hslot]

theorem countP_assignSlots (hnamed : ∀ slot, some slot ∈ named → slot < count) :
    (assignSlots named count).countP Option.isSome = min named.length count := by
  have hall := length_claimSlots [] named
  rw [List.length_eq_reduceOption_length_add_filter_none] at hall
  have hcount := (unnamedSlots_perm hnamed).length_eq
  rw [List.length_append, List.length_range] at hcount
  have hnone : (claimSlots [] named).count none
      = ((claimSlots [] named).filter Option.isNone).length := by
    rw [List.count_eq_length_filter]
    exact congrArg List.length (List.filter_congr fun slot _ => by cases slot <;> rfl)
  rw [List.countP_eq_length_filter, ← List.reduceOption_length_eq, assignSlots_eq,
    (fillSlots_perm _ _).length_eq, List.length_append, List.length_take, hnone]
  omega

theorem assignSlots_inj (hnamed : ∀ slot, some slot ∈ named → slot < count) {i j : Nat}
    (hi : (assignSlots named count)[i]? = some (some slot))
    (hj : (assignSlots named count)[j]? = some (some slot)) : i = j := by
  have hdistinct := (assignSlots_spec hnamed).1
  rw [List.reduceOption, List.Nodup, List.pairwise_filterMap, List.pairwise_iff_getElem]
    at hdistinct
  obtain ⟨hi', hi⟩ := List.getElem?_eq_some_iff.1 hi
  obtain ⟨hj', hj⟩ := List.getElem?_eq_some_iff.1 hj
  rcases Nat.lt_trichotomy i j with h | h | h
  · exact absurd rfl (hdistinct i j hi' hj' h slot hi slot hj)
  · exact h
  · exact absurd rfl (hdistinct j i hj' hi' h slot hj slot hi)

/-- The first parameter that names a slot gets it.  No slot is given twice, each that is given is
there, and as many parameters have one as can.  The parameters left over take the slots that nobody
names from the lowest on, one after the other, and no other slot. -/
theorem assignSlots_injects {named : List (Option Nat)} {count : Nat}
    (hnamed : ∀ slot, some slot ∈ named → slot < count) :
    (assignSlots named count).length = named.length ∧
      (∀ i slot, named[i]? = some (some slot) → some slot ∉ named.take i →
        (assignSlots named count)[i]? = some (some slot)) ∧
      (∀ i j slot : Nat, (assignSlots named count)[i]? = some (some slot) →
        (assignSlots named count)[j]? = some (some slot) → i = j) ∧
      (∀ i slot : Nat, (assignSlots named count)[i]? = some (some slot) → slot < count) ∧
      (assignSlots named count).countP Option.isSome = min named.length count ∧
      (∀ i < named.length, LeftOver named i → (assignSlots named count)[i]?
        = some (unnamedSlots named count)[(List.range i).countP (LeftOver named ·)]?) ∧
      ∀ i slot, LeftOver named i → (assignSlots named count)[i]? = some (some slot) →
        some slot ∉ named := by
  have hleft : ∀ i < named.length, LeftOver named i → (assignSlots named count)[i]?
      = some (unnamedSlots named count)[(List.range i).countP (LeftOver named ·)]? := by
    intro i hi h
    rw [assignSlots_eq, getElem?_fillSlots_of_none (getElem?_claimSlots_eq_none_iff.2 ⟨hi, h⟩),
      count_none_take_claimSlots hi.le]
  refine ⟨length_assignSlots named count, ?_, ?_, ?_, countP_assignSlots hnamed, hleft, ?_⟩
  · intro i slot hslot hfirst
    exact getElem?_assignSlots hslot hfirst
  · intro i j slot hi hj
    exact assignSlots_inj hnamed hi hj
  · intro i slot hslot
    exact (assignSlots_spec hnamed).2 slot
      (List.reduceOption_mem_iff.2 (List.mem_of_getElem? hslot))
  · intro i slot h hslot
    have hi : i < named.length :=
      length_assignSlots named count ▸ (List.getElem?_eq_some_iff.1 hslot).1
    rw [hleft i hi h, Option.some.injEq] at hslot
    have hfree := List.mem_of_getElem? hslot
    exact of_decide_eq_true (List.mem_filter.1 hfree).2

/-- The names of five parameters: a slot is named twice, and two parameters name none. -/
def Sample.names : List (Option Nat) := [none, some 1, some 1, none, some 0]

theorem assignSlots_injects_sample :
    (∀ slot, some slot ∈ Sample.names → slot < 4) ∧
      assignSlots Sample.names 4 = [some 2, some 1, some 3, none, some 0] ∧
      (assignSlots Sample.names 4).countP Option.isSome = min Sample.names.length 4 ∧
      LeftOver Sample.names 2 ∧
      (assignSlots Sample.names 4)[2]? = some
        (unnamedSlots Sample.names 4)[(List.range 2).countP (LeftOver Sample.names ·)]? := by
  have hnamed : ∀ slot, some slot ∈ Sample.names → slot < 4 := by
    intro slot h
    simp only [Sample.names, List.mem_cons, reduceCtorEq, Option.some.injEq, List.not_mem_nil,
      false_or, or_false] at h
    omega
  obtain ⟨-, -, -, -, hcount, hleft, -⟩ := assignSlots_injects hnamed
  have hover : LeftOver Sample.names 2 := by decide
  exact ⟨hnamed, rfl, hcount, hover, hleft 2 (by decide) hover⟩

end TreeFlow
