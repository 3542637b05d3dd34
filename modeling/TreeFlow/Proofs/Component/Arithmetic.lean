import TreeFlow.Proofs.Component.Assembled
import TreeFlow.Proofs.Component.Integral
import TreeFlow.Proofs.Component.Missing
/-
Arithmetic on trees of integers.

Sums, differences, products, opposites and absolute values of words come out as integers as long as
they fit a word, and as numbers only where they do not.  This carries over from single calls to
runs: all that matching hands on for trees of integers is integers, and an empty branch, which hands
on nothing, brings in the default.  So no run over such trees fails, and every item of its output is
exact (`integers_exact`).

The output of a run with one item to each call is put together here for all kinds
(`exists_run_of_calls`).
-/

namespace TreeFlow

/-- There are items, and all of them are integers. -/
structure Tree.Integers (t : Tree) : Prop where
  items : t.hasNoItems = false
  integers : ∀ item ∈ t.items, ∃ w, item = .integer w

instance (item : Item) : Decidable (∃ w, item = .integer w) :=
  match item with
  | .integer w => isTrue ⟨w, rfl⟩
  | .null | .boolean _ | .number _ | .text _ | .point _ | .vector _ => isFalse nofun

instance (t : Tree) : Decidable t.Integers :=
  decidable_of_iff (t.hasNoItems = false ∧ ∀ item ∈ t.items, ∃ w, item = .integer w)
    ⟨fun h => ⟨h.1, h.2⟩, fun h => ⟨h.1, h.2⟩⟩

namespace Component

/-! ## Runs with an item to each call -/

section

variable {k : Kind} {given trees : List Tree} {bs : List Matching.Branch}
  {R : List Value → Item → Prop}

/-- The row of a branch of an output, one item to a call. -/
def itemRow (e : Path × List Item) : Row := ⟨e.1, e.2.map fun item => [.item item]⟩

theorem flatMap_itemRow_parts (e : Path × List Item) :
    ((itemRow e).parts 0).flatMap Prod.snd = e.2 := by
  obtain ⟨p, items⟩ := e
  rw [flatMap_parts]
  show (items.map fun item => [Value.item item]).flatMap _ = items
  rw [List.flatMap_map]
  exact List.flatMap_singleton' items

/-- A branch of an output that holds what the calls of its branch give, in call order. -/
def Holds (R : List Value → Item → Prop) (b : Matching.Branch) (e : Path × List Item) : Prop :=
  e.1 = b.path ∧ List.Forall₂ R b.calls e.2

theorem exists_row {b : Matching.Branch} (hcalls : ∀ call ∈ b.calls, ∃ item,
      k.call (withDefaults k.signature.inputs call) = .ok [.item item] ∧ R call item) :
    ∃ e, Holds R b e ∧ rowOf k b = .ok (itemRow e) := by
  obtain ⟨items, hitems⟩ := List.exists_forall₂ hcalls
  have hvalues : b.calls.mapM (callValues k) = .ok (items.map fun item => [.item item]) := by
    rw [Except.mapM_eq_ok_iff, List.forall₂_map_right_iff]
    refine hitems.imp fun call item h => ?_
    rw [callValues_eq, h.1]
    rfl
  refine ⟨(b.path, items), ⟨rfl, hitems.imp fun _ _ h => h.2⟩, ?_⟩
  rw [rowOf, hvalues]
  rfl

/-- Where every call gives a single item, the run succeeds.  Its output holds the items of all
calls, and they stand in the branches of their calls as long as the numbers of these have not come
round. -/
theorem exists_run_of_calls (houtputs : k.signature.outputs.length = 1)
    (htrees : inputTrees? k.signature.inputs given = some trees)
    (hbs : Matching.branches k.signature.mode (matchInputs k.signature.inputs trees) = .ok bs)
    (hcalls : ∀ b ∈ bs, ∀ call ∈ b.calls, ∃ item,
      k.call (withDefaults k.signature.inputs call) = .ok [.item item] ∧ R call item) :
    ∃ out entries, run k given = .ok [out] ∧ List.Forall₂ (Holds R) bs entries ∧
      out.items.Perm (entries.flatMap Prod.snd) ∧
      (bs.length ≤ UInt32.size → out.branches.entries = entries) := by
  obtain ⟨entries, hentries⟩ := List.exists_forall₂ fun b hb => exists_row (hcalls b hb)
  have hrows : bs.mapM (rowOf k) = .ok (entries.map itemRow) := by
    rw [Except.mapM_eq_ok_iff, List.forall₂_map_right_iff]
    exact hentries.imp fun _ _ h => h.2
  have hrun : run k given = .ok [outputTree (entries.map itemRow) 0] := by
    simp only [run, htrees, hbs, hrows, houtputs]
    rfl
  have hparts : ((entries.map itemRow).flatMap fun r => r.parts 0).flatMap Prod.snd
      = entries.flatMap Prod.snd := by
    rw [List.flatMap_assoc, List.flatMap_map]
    exact congrArg (entries.flatMap ·) (funext flatMap_itemRow_parts)
  refine ⟨_, entries, hrun, hentries.imp fun _ _ h => h.1, ?_, fun hsize => ?_⟩
  · rw [Tree.items_eq, ← hparts]
    exact SortedMap.flatMap_gather_perm _
  · have hascending := Matching.ascending_branches hbs hsize
    have hplain : ∀ r ∈ entries.map itemRow, ∀ values ∈ r.values, Plain 1 values := by
      intro r hr values hvalues
      obtain ⟨e, -, rfl⟩ := List.mem_map.1 hr
      obtain ⟨item, -, rfl⟩ := List.mem_map.1 hvalues
      exact .item item
    rw [← paths_of_rows hrows] at hascending
    rw [entries_outputTree Nat.one_pos hplain hascending, List.map_map]
    exact SortedMap.list_map_eq_self_iff.2 fun e _ => Prod.ext rfl (flatMap_itemRow_parts e)

end

namespace Maths

/-! ## Calls with integers -/

/-- The integer that an operation gives for integers, all of them of any size. -/
inductive Gives : Maths → List Int → Int → Prop
  | addition (a b : Int) : Gives .addition [a, b] (a + b)
  | subtraction (a b : Int) : Gives .subtraction [a, b] (a - b)
  | multiplication (a b : Int) : Gives .multiplication [a, b] (a * b)
  | negative (a : Int) : Gives .negative [a] (-a)
  | absolute (a : Int) : Gives .absolute [a] a.natAbs

/-- The operations that give an integer for integers, unless it fits no word. -/
def integral : List Maths := [.addition, .subtraction, .multiplication, .negative, .absolute]

variable {m : Maths} {ws : List Int64} {v : Int}

theorem exists_gives (hm : m ∈ integral) (hlength : ws.length = m.inputs.length) :
    ∃ v, m.Gives (ws.map Int64.toInt) v := by
  have hpair : m.inputs.length = 2 → ∃ a b : Int64, ws = [a, b] := fun h =>
    List.length_eq_two.1 (hlength.trans h)
  have hone : m.inputs.length = 1 → ∃ a : Int64, ws = [a] := fun h =>
    List.length_eq_one_iff.1 (hlength.trans h)
  cases m with
  | addition => obtain ⟨a, b, rfl⟩ := hpair rfl; exact ⟨_, .addition _ _⟩
  | subtraction => obtain ⟨a, b, rfl⟩ := hpair rfl; exact ⟨_, .subtraction _ _⟩
  | multiplication => obtain ⟨a, b, rfl⟩ := hpair rfl; exact ⟨_, .multiplication _ _⟩
  | negative => obtain ⟨a, rfl⟩ := hone rfl; exact ⟨_, .negative _⟩
  | absolute => obtain ⟨a, rfl⟩ := hone rfl; exact ⟨_, .absolute _⟩
  | division | modulus | power | squareRoot | degrees | radians => exact absurd hm (by decide)

theorem exact_word? (n : Int) (x : Float) :
    Lists.Exact n ((word? n).elim (.number x) .integer) := by
  by_cases h : Fits n
  · obtain ⟨w, hword, hw⟩ := exists_word h
    rw [hword]
    exact .integer hw
  · rw [word?_eq_none h]
    exact .number h

theorem integralOr_exact (f : Int → Int → Int) (rounded : Float → Float → Float) (a b : Int64) :
    ∃ item, integralOr [.item (.integer a), .item (.integer b)]
        (fun a b => word? (f a.toInt b.toInt)) rounded = .ok item ∧
      Lists.Exact (f a.toInt b.toInt) item :=
  ⟨_, integralOr_integers a b _ rounded, exact_word? _ _⟩

theorem unaryOr_exact (f : Int → Int) (rounded : Float → Float) (a : Int64) :
    ∃ item, unaryOr [.item (.integer a)] f rounded = .ok item ∧ Lists.Exact (f a.toInt) item :=
  ⟨_, rfl, exact_word? _ _⟩

theorem result_integers (h : m.Gives (ws.map Int64.toInt) v) :
    ∃ item, m.result (ws.map fun w => .item (.integer w)) = .ok item ∧ Lists.Exact v item := by
  generalize hws : ws.map Int64.toInt = ns at h
  have hpair : ∀ {a b}, ns = [a, b] → ∃ w w', ws = [w, w'] ∧ w.toInt = a ∧ w'.toInt = b := by
    rintro a b rfl
    obtain ⟨w, ws', rfl, hw, hws⟩ := List.map_eq_cons_iff.1 hws
    obtain ⟨w', rfl, hw'⟩ := List.map_eq_singleton_iff.1 hws
    exact ⟨w, w', rfl, hw, hw'⟩
  cases h with
  | addition a b =>
    obtain ⟨w, w', rfl, rfl, rfl⟩ := hpair rfl
    exact integralOr_exact (· + ·) _ w w'
  | subtraction a b =>
    obtain ⟨w, w', rfl, rfl, rfl⟩ := hpair rfl
    exact integralOr_exact (· - ·) _ w w'
  | multiplication a b =>
    obtain ⟨w, w', rfl, rfl, rfl⟩ := hpair rfl
    exact integralOr_exact (· * ·) _ w w'
  | negative a =>
    obtain ⟨w, rfl, rfl⟩ := List.map_eq_singleton_iff.1 hws
    exact unaryOr_exact (fun a => -a) _ w
  | absolute a =>
    obtain ⟨w, rfl, rfl⟩ := List.map_eq_singleton_iff.1 hws
    exact unaryOr_exact (fun a => a.natAbs) _ w

/-! ## Operands -/

/-- The integers that a call works on.  Each is what its input hands on, an item of the tree there;
an input that hands on nothing has its default taken instead. -/
structure Operands (inputs : List Input) (given : List Tree) (call : List Value)
    (ws : List Int64) : Prop where
  length : ws.length = inputs.length
  operand : ∀ n i, inputs[n]? = some i → ∃ w, ws[n]? = some w ∧
    (call[n]? = some (.item (.integer w)) ∧ .integer w ∈ (givenAt given n).items ∨
      call[n]? = some .missing ∧ i.default = some (.integer w))

variable {given : List Tree} {call : List Value} {inputs : List Input}

theorem Operands.withDefaults_eq (h : Operands inputs given call ws)
    (hcall : call.length = inputs.length) :
    withDefaults inputs call = ws.map fun w => .item (.integer w) := by
  have hsize : (withDefaults inputs call).length = ws.length := by
    rw [withDefaults, List.length_map, List.length_zipIdx, hcall, h.length]
  refine List.ext_getElem? fun n => ?_
  by_cases hn : n < inputs.length
  · have hi := List.getElem?_eq_getElem hn
    obtain ⟨w, hw, hoperand⟩ := h.operand n _ hi
    rw [getElem?_withDefaults hi, List.getElem?_map, hw]
    obtain ⟨hitem, -⟩ | ⟨hmissing, hdefault⟩ := hoperand
    · rw [hitem]
      rfl
    · rw [hmissing, hdefault]
      rfl
  · have hend : ws.length ≤ n := by rw [h.length]; omega
    rw [List.getElem?_eq_none (hsize ▸ hend), List.getElem?_eq_none (by rwa [List.length_map])]

theorem default_eq (m : Maths) : ∀ i ∈ m.inputs,
    i.default = none ∨ i.default = some (.integer 0) ∨ i.default = some (.integer 1) := by
  cases m <;> decide

theorem access_item (m : Maths) : ∀ i ∈ m.inputs, i.access = .item := by
  cases m <;> decide

/-- No call of arithmetic is left without a value: where two inputs are matched, they have
defaults. -/
theorem itemwise_of_mem_calls {args : List Value} (hargs : args ∈ calls (.maths m) given) :
    Itemwise m.inputs args := by
  refine itemwise_of_not_lacks (k := .maths m) nofun hargs fun hlacks => ?_
  cases (gap_of_lacks hargs hlacks).kind with
  | inl h => cases h
  | inr h => cases h

theorem exists_operands {p : Path} {c : Nat}
    (hgiven : ∀ n < m.inputs.length, (givenAt given n).Integers)
    (hcall : call = (inputsWith (fun _ t => t) m.inputs given).map fun x =>
      (x.offerAt p).argument c)
    (hargs : withDefaults m.inputs call ∈ calls (.maths m) given) :
    ∃ ws, Operands m.inputs given call ws := by
  have hoperand : ∀ e ∈ m.inputs.zipIdx, ∃ w : Int64,
      call[e.2]? = some (.item (.integer w)) ∧ .integer w ∈ (givenAt given e.2).items ∨
        call[e.2]? = some .missing ∧ e.1.default = some (.integer w) := by
    rintro ⟨i, n⟩ he
    have hi := List.mk_mem_zipIdx_iff_getElem?.1 he
    have hmem := List.mem_of_getElem? hi
    have hvalue : call[n]? = some _ := hcall ▸ getElem?_call hi
    have hitem := m.access_item i hmem
    obtain hmissing | ⟨item, hargument⟩ := Matching.argument_of_item
      (x := ⟨i.name, i.access, givenAt given n⟩) hitem p c
    · rw [hmissing] at hvalue
      obtain ⟨item, hdefault⟩ := itemwise_of_mem_calls hargs n i hi hitem
      rw [argument, List.getD_eq_getElem?_getD, getElem?_withDefaults hi, hvalue] at hdefault
      obtain hnone | hzero | hone := m.default_eq i hmem
      · rw [hnone] at hdefault
        cases hdefault
      · exact ⟨0, .inr ⟨hvalue, hzero⟩⟩
      · exact ⟨1, .inr ⟨hvalue, hone⟩⟩
    · rw [hargument] at hvalue
      have hn := (List.getElem?_eq_some_iff.1 hi).1
      have hgivenItem := Matching.mem_items_of_argument hitem hargument
      obtain ⟨w, rfl⟩ := (hgiven n hn).integers item hgivenItem
      exact ⟨w, .inl ⟨hvalue, hgivenItem⟩⟩
  obtain ⟨ws, hws⟩ := List.exists_forall₂ hoperand
  refine ⟨ws, by rw [← hws.length_eq, List.length_zipIdx], fun n i hi => ?_⟩
  have hplace : m.inputs.zipIdx[n]? = some (i, n) := by
    rw [List.getElem?_zipIdx, hi, Nat.zero_add, Option.map_some]
  exact hws.exists_getElem? hplace

/-! ## Runs -/

theorem supplied (hgiven : ∀ n < m.inputs.length, (givenAt given n).Integers) :
    Supplied m.inputs given := by
  rintro ⟨i, n⟩ he -
  exact (hgiven n (List.getElem?_eq_some_iff.1 (List.mk_mem_zipIdx_iff_getElem?.1 he)).1).items

theorem matchInputs_given (hgiven : ∀ n < m.inputs.length, (givenAt given n).Integers) :
    matchInputs m.inputs given = inputsWith (fun _ t => t) m.inputs given := by
  refine List.ext_getElem? fun n => ?_
  by_cases hn : n < m.inputs.length
  · have hi := List.getElem?_eq_getElem hn
    cases ht : given[n]? with
    | none =>
      have hitems := (hgiven n hn).items
      rw [givenAt, ht] at hitems
      cases hitems
    | some t =>
      have hpair := (List.getElem?_zip_eq_some (z := (m.inputs[n], t))).2 ⟨hi, ht⟩
      simp [matchInputs, inputsWith, givenAt, hpair, hi, ht]
  · simp [matchInputs, inputsWith, Nat.le_of_not_lt hn]

/-- A call over words comes out with the item that stands for the exact integer. -/
def Computes (m : Maths) (given : List Tree) (call : List Value) (item : Item) : Prop :=
  ∃ ws v, Operands m.inputs given call ws ∧ m.Gives (ws.map Int64.toInt) v ∧ Lists.Exact v item

/-- Over trees of integers no sum, difference, product, opposite or absolute value fails, and all
its items are exact: each is the integer that the operation gives for what matching hands on to its
call, or a number if this integer fits no word. -/
theorem integers_exact (m : Maths) (hm : m ∈ integral) (given : List Tree)
    (hgiven : ∀ n < m.inputs.length, (givenAt given n).Integers) :
    ∃ bs out entries, Matching.branches .longest (matchInputs m.inputs given) = .ok bs ∧
      run (.maths m) given = .ok [out] ∧
      List.Forall₂ (Holds (m.Computes given)) bs entries ∧
      out.items.Perm (entries.flatMap Prod.snd) ∧
      (bs.length ≤ UInt32.size → out.branches.entries = entries) := by
  have haccess : ∀ i ∈ m.inputs, i.access ≠ .tree := fun i hi => by simp [m.access_item i hi]
  have hinputs : m.inputs ≠ [] := (Kind.maths m).inputs_ne_nil
  have hfilled : inputsWith filledTree m.inputs given
      = inputsWith (fun _ t => t) m.inputs given := inputsWith_congr fun n i hi =>
    filledTree_of_items (hgiven n (List.getElem?_eq_some_iff.1 hi).1).items
  have hbs : Matching.branches .longest (inputsWith (fun _ t => t) m.inputs given)
      = .ok (Matching.longest (inputsWith (fun _ t => t) m.inputs given)) :=
    branches_inputsWith haccess hinputs fun _ t => t
  have hmatched := (congrArg (Matching.branches .longest)
    ((matchInputs_eq filledTree).trans hfilled)).trans hbs
  obtain ⟨i, hi⟩ := List.exists_mem_of_ne_nil _ hinputs
  have hcalls : ∀ b ∈ Matching.longest (inputsWith (fun _ t => t) m.inputs given),
      ∀ call ∈ b.calls, ∃ item,
        m.call (withDefaults m.inputs call) = .ok [.item item] ∧ m.Computes given call item := by
    intro b hb call hcall
    have hmem := List.mem_flatMap.2 ⟨b, hb, hcall⟩
    obtain ⟨p, -, c, -, hplace⟩ := Matching.mem_longest_calls_iff.1 hmem
    have hargs : withDefaults m.inputs call ∈ calls (.maths m) given :=
      (mem_calls_iff (k := .maths m) nofun ⟨i, hi, m.access_item i hi⟩).2
        ⟨supplied hgiven, call, hfilled ▸ hmem, rfl⟩
    obtain ⟨ws, hws⟩ := exists_operands hgiven hplace hargs
    obtain ⟨v, hv⟩ := exists_gives hm hws.length
    obtain ⟨item, hresult, hexact⟩ := result_integers hv
    refine ⟨item, ?_, ws, v, hws, hv, hexact⟩
    rw [hws.withDefaults_eq (by simp [hplace, inputsWith]), Maths.call, hresult]
    rfl
  obtain ⟨out, entries, hrun⟩ := exists_run_of_calls (k := .maths m) (R := m.Computes given) rfl
    (inputTrees?_eq_some (supplied hgiven)) hmatched hcalls
  exact ⟨_, out, entries, (matchInputs_given hgiven).symm ▸ hbs, hrun⟩

namespace Sample

/-- The first call has a sum that fits no word, and the last one has its first operand by
default. -/
def summands : List Tree :=
  [.ofBranches [(.ofIndex 0, [.integer Int64.maxValue, .integer 2]), (.ofIndex 1, [])],
    .ofBranches [(.ofIndex 0, [.integer 1]), (.ofIndex 1, [.integer 7])]]

end Sample

theorem integers_exact_sample :
    Maths.addition ∈ integral ∧
      (∀ n < (Maths.inputs .addition).length, (givenAt Sample.summands n).Integers) ∧
      ∃ bs out entries,
        Matching.branches .longest (matchInputs (Maths.inputs .addition) Sample.summands) = .ok bs ∧
        run (.maths .addition) Sample.summands = .ok [out] ∧
        List.Forall₂ (Holds (Maths.Computes .addition Sample.summands)) bs entries ∧
        out.items.Perm (entries.flatMap Prod.snd) ∧
        (bs.length ≤ UInt32.size → out.branches.entries = entries) :=
  ⟨by decide, by decide, integers_exact .addition (by decide) Sample.summands (by decide)⟩

end Maths

end Component
end TreeFlow
