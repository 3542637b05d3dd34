import Mathlib.Algebra.Order.Ring.Int
import TreeFlow.Component.Kind
import TreeFlow.Proofs.Binary64.Nonzero
/-
Integers in, integers out: series and remainders of words.

A term of a series is given as an integer if it fits a word, unless its offset from the start does
not: offset and sum are checked one after the other, so a term whose offset leaves the range comes
out as a number even where the sum is back inside of it (`series_exact_iff`).  That takes a start and
a step of opposite signs.

A remainder is the floored one, which is zero or has the sign of the divisor
(`modulus_floored_iff`).  It is taken from the truncated remainder, and the lowest word has none by
`-1`; there, and nowhere else, the result is a number.
-/

namespace TreeFlow
namespace Component

/-! ## Words -/

/-- `n` is in the range of words. -/
def Fits (n : Int) : Prop := Int64.minValue.toInt ≤ n ∧ n ≤ Int64.maxValue.toInt

instance (n : Int) : Decidable (Fits n) :=
  inferInstanceAs (Decidable (Int64.minValue.toInt ≤ n ∧ n ≤ Int64.maxValue.toInt))

theorem fits_iff {n : Int} : Fits n ↔ -9223372036854775808 ≤ n ∧ n ≤ 9223372036854775807 := Iff.rfl

theorem fits_toInt (w : Int64) : Fits w.toInt := ⟨w.minValue_le_toInt, w.toInt_le⟩

theorem exists_word {n : Int} (h : Fits n) : ∃ w, word? n = some w ∧ w.toInt = n := by
  have hword : word? n = some (Int64.ofInt n) := if_pos h
  exact ⟨_, hword, toInt_of_word? hword⟩

theorem word?_eq_none {n : Int} (h : ¬ Fits n) : word? n = none := if_neg h

namespace Lists

/-! ## Series -/

/-- Member `i` of a series of integers, before it is made an item. -/
def term (start step : Int64) (i : Nat) : Int := start.toInt + step.toInt * i

/-- An item that stands for the integer `n`: an integer if `n` fits a word, else a number. -/
inductive Exact (n : Int) : Item → Prop
  | integer {w : Int64} (value : w.toInt = n) : Exact n (.integer w)
  | number {x : Float} (large : ¬ Fits n) : Exact n (.number x)

variable {start step count : Int64} {i : Nat}

/-- All that a member can be. -/
theorem integerMember_cases (start step : Int64) (i : Nat) :
    (Fits (step.toInt * i) ∧ ∃ w, w.toInt = term start step i ∧
      integerMember start step i = .integer w) ∨
    (¬ (Fits (step.toInt * i) ∧ Fits (term start step i)) ∧
      ∃ x, integerMember start step i = .number x) := by
  unfold integerMember
  by_cases hoffset : Fits (step.toInt * i)
  · obtain ⟨offset, hword, hvalue⟩ := exists_word hoffset
    rw [hword, Option.bind_some, hvalue, ← term]
    by_cases hterm : Fits (term start step i)
    · obtain ⟨w, hword, hw⟩ := exists_word hterm
      rw [hword]
      exact .inl ⟨hoffset, w, hw, rfl⟩
    · rw [word?_eq_none hterm]
      exact .inr ⟨fun h => hterm h.2, _, rfl⟩
  · rw [word?_eq_none hoffset]
    exact .inr ⟨fun h => hoffset h.1, _, rfl⟩

theorem exact_integerMember_iff : Exact (term start step i) (integerMember start step i) ↔
    (Fits (term start step i) → Fits (step.toInt * i)) := by
  obtain ⟨hoffset, w, hw, heq⟩ | ⟨hfits, x, heq⟩ := integerMember_cases start step i
  · rw [heq]
    exact iff_of_true (.integer hw) fun _ => hoffset
  · rw [heq]
    constructor
    · intro h hterm
      cases h with
      | number large => exact absurd hterm large
    · intro h
      exact .number fun hterm => hfits ⟨h hterm, hterm⟩

/-- With no opposite signs the terms run away from zero, so a term that fits has an offset that
fits. -/
theorem fits_offset (hsigns : 0 ≤ start.toInt * step.toInt) (h : Fits (term start step i)) :
    Fits (step.toInt * i) := by
  have hstart := fits_iff.1 (fits_toInt start)
  rw [fits_iff, term] at h
  rw [fits_iff]
  have hi : (0 : Int) ≤ i := Int.natCast_nonneg i
  obtain ⟨hs, hp⟩ | ⟨hs, hp⟩ := mul_nonneg_iff.1 hsigns
  · have hoffset := Int.mul_nonneg hp hi
    omega
  · have hoffset := Int.mul_nonneg (Int.neg_nonneg.2 hp) hi
    rw [Int.neg_mul] at hoffset
    omega

theorem call_series (hlow : 0 ≤ count) (hhigh : count.toInt ≤ maxSeriesCount) :
    Kind.call (.sets .series)
        [.item (.integer start), .item (.integer step), .item (.integer count)] =
      .ok [.list ((List.range count.toInt.toNat).map (integerMember start step))] := by
  have hnegative : ¬ count < 0 := Int64.not_lt.2 hlow
  have hlimit : ¬ maxSeriesCount < count.toInt.toNat := by omega
  show (if count < 0 then _ else if maxSeriesCount < count.toInt.toNat then _ else _) = _
  rw [if_neg hnegative, if_neg hlimit]
  rfl

/-- The members of a series of integers, each as its term, and which of them are exact: all where
start and step have no opposite signs, and in any case those whose offset fits if the term does. -/
theorem series_exact_iff (start step count : Int64) (hlow : 0 ≤ count)
    (hhigh : count.toInt ≤ maxSeriesCount) :
    ∃ members, Kind.call (.sets .series)
        [.item (.integer start), .item (.integer step), .item (.integer count)] =
      .ok [.list members] ∧ members.length = count.toInt ∧
      (∀ i item, members[i]? = some item →
        ((∃ w, item = .integer w ∧ w.toInt = term start step i) ∨ ∃ x, item = .number x) ∧
        (Exact (term start step i) item ↔
          (Fits (term start step i) → Fits (step.toInt * i)))) ∧
      (0 ≤ start.toInt * step.toInt →
        ∀ i item, members[i]? = some item → Exact (term start step i) item) := by
  have hcount : 0 ≤ count.toInt := Int64.le_iff_toInt_le.1 hlow
  have hmember : ∀ i item,
      ((List.range count.toInt.toNat).map (integerMember start step))[i]? = some item →
        item = integerMember start step i := by
    intro i item h
    rw [List.getElem?_map, Option.map_eq_some_iff] at h
    obtain ⟨j, hj, rfl⟩ := h
    rw [(List.getElem?_eq_some_iff.1 hj).2.symm, List.getElem_range]
  refine ⟨_, call_series hlow hhigh, ?_, fun i item h => ?_, fun hsigns i item h => ?_⟩
  · rw [List.length_map, List.length_range]
    omega
  · rw [hmember i item h]
    refine ⟨?_, exact_integerMember_iff⟩
    obtain ⟨-, w, hw, heq⟩ | ⟨-, x, heq⟩ := integerMember_cases start step i
    · exact .inl ⟨w, heq, hw⟩
    · exact .inr ⟨x, heq⟩
  · rw [hmember i item h]
    exact exact_integerMember_iff.2 (fits_offset hsigns)

theorem series_exact_iff_sample :
    (0 : Int64) ≤ 3 ∧ (3 : Int64).toInt ≤ maxSeriesCount ∧
    ∃ members, Kind.call (.sets .series) [.item (.integer (-9223372036854775807)),
        .item (.integer 4611686018427387904), .item (.integer 3)] = .ok [.list members] ∧
      members.length = (3 : Int64).toInt ∧
      (∀ i item, members[i]? = some item →
        ((∃ w, item = .integer w ∧
          w.toInt = term (-9223372036854775807) 4611686018427387904 i) ∨ ∃ x, item = .number x) ∧
        (Exact (term (-9223372036854775807) 4611686018427387904 i) item ↔
          (Fits (term (-9223372036854775807) 4611686018427387904 i) →
            Fits ((4611686018427387904 : Int64).toInt * i)))) ∧
      (0 ≤ (-9223372036854775807 : Int64).toInt * (4611686018427387904 : Int64).toInt →
        ∀ i item, members[i]? = some item →
          Exact (term (-9223372036854775807) 4611686018427387904 i) item) :=
  ⟨by decide, by decide, series_exact_iff _ _ 3 (by decide) (by decide)⟩

/-- The third term is one, and its offset is two to the power of 63. -/
theorem fitting_term_lost :
    ¬ ∃ members, Kind.call (.sets .series) [.item (.integer (-9223372036854775807)),
        .item (.integer 4611686018427387904), .item (.integer 3)] = .ok [.list members] ∧
      ∀ i item, members[i]? = some item →
        Exact (term (-9223372036854775807) 4611686018427387904 i) item := by
  intro h
  obtain ⟨members, hcall, hexact⟩ := h
  rw [call_series (by decide) (by decide)] at hcall
  have hmembers : [Value.list _] = [.list members] := Except.ok.inj hcall
  have hlist := Value.list.inj (List.cons.inj hmembers).1
  have hthird := hexact 2 _ (by rw [← hlist]; rfl)
  exact absurd (exact_integerMember_iff.1 hthird (by decide)) (by decide)

end Lists

namespace Maths

/-! ## Remainders -/

/-- `r` is the remainder of `a` by `b` that is zero or has the sign of `b`. -/
structure IsFlooredRemainder (a b r : Int) : Prop where
  congruent : b ∣ a - r
  sign : r = 0 ∨ (r < 0 ↔ b < 0)
  bound : r.natAbs < b.natAbs

theorem IsFlooredRemainder.unique {a b r r' : Int} (h : IsFlooredRemainder a b r)
    (h' : IsFlooredRemainder a b r') : r = r' := by
  obtain ⟨hr, hsign, hbound⟩ := h
  obtain ⟨hr', hsign', hbound'⟩ := h'
  have hdvd : b ∣ r - r' := by
    have hsub := Int.dvd_sub hr' hr
    rwa [show a - r' - (a - r) = r - r' by omega] at hsub
  have hzero := Int.eq_zero_of_dvd_of_natAbs_lt_natAbs hdvd (by omega)
  omega

theorem natAbs_tmod_lt (a : Int) {b : Int} (hb : b ≠ 0) : (a.tmod b).natAbs < b.natAbs := by
  rw [Int.natAbs_tmod]
  exact Nat.mod_lt _ (Int.natAbs_pos.2 hb)

/-- A truncated remainder is floored by adding the divisor where the signs differ. -/
theorem isFlooredRemainder_tmod (a : Int) {b : Int} (hb : b ≠ 0) :
    IsFlooredRemainder a b
      (if a.tmod b ≠ 0 ∧ ¬ (a.tmod b < 0 ↔ b < 0) then a.tmod b + b else a.tmod b) := by
  have hdvd : b ∣ a - a.tmod b := Int.dvd_self_sub_tmod
  have hlt := natAbs_tmod_lt a hb
  split
  next h =>
    refine ⟨?_, by omega, by omega⟩
    rw [← Int.sub_sub]
    exact Int.dvd_sub hdvd (Int.dvd_refl b)
  next h => exact ⟨hdvd, by omega, hlt⟩

variable {a b : Int64}

theorem truncatedRemainder?_eq (hb : b ≠ 0) (hlowest : ¬ (a = Int64.minValue ∧ b = -1)) :
    ∃ r, truncatedRemainder? a b = some r ∧ r.toInt = a.toInt.tmod b.toInt := by
  have hlt := natAbs_tmod_lt a.toInt (Binary64.toInt_ne_zero hb)
  have hfits : Fits (a.toInt.tmod b.toInt) := by
    have hword := fits_iff.1 (fits_toInt b)
    rw [fits_iff]
    omega
  obtain ⟨r, hr, hvalue⟩ := exists_word hfits
  refine ⟨r, ?_, hvalue⟩
  rw [truncatedRemainder?, if_neg (not_or.2 ⟨hb, hlowest⟩), hr]

theorem flooredRemainder?_eq (hb : b ≠ 0) (hlowest : ¬ (a = Int64.minValue ∧ b = -1)) :
    ∃ r, flooredRemainder? a b = some r ∧ IsFlooredRemainder a.toInt b.toInt r.toInt := by
  obtain ⟨t, ht, hvalue⟩ := truncatedRemainder?_eq hb hlowest
  have hfloored := isFlooredRemainder_tmod a.toInt (Binary64.toInt_ne_zero hb)
  have hsigns : (t ≠ 0 ∧ decide (t < 0) ≠ decide (b < 0)) ↔
      t.toInt ≠ 0 ∧ ¬ (t.toInt < 0 ↔ b.toInt < 0) := by
    rw [ne_eq, ne_eq, ne_eq, decide_eq_decide, Int64.lt_iff_toInt_lt, Int64.lt_iff_toInt_lt,
      ← Int64.toInt_inj]
    rfl
  have hsteps : flooredRemainder? a b =
      if t ≠ 0 ∧ decide (t < 0) ≠ decide (b < 0) then word? (t.toInt + b.toInt) else some t := by
    rw [flooredRemainder?, ht]
    rfl
  rw [← hvalue] at hfloored
  rw [hsteps]
  by_cases h : t ≠ 0 ∧ decide (t < 0) ≠ decide (b < 0)
  · -- Remainder and divisor have opposite signs, so their sum lies between them.
    rw [if_pos (hsigns.1 h)] at hfloored
    have hfits : Fits (t.toInt + b.toInt) := by
      have hword := fits_iff.1 (fits_toInt b)
      have hbound := hfloored.bound
      rw [fits_iff]
      omega
    obtain ⟨r, hr, hsum⟩ := exists_word hfits
    rw [if_pos h, hr]
    exact ⟨r, rfl, hsum ▸ hfloored⟩
  · rw [if_neg (mt hsigns.2 h)] at hfloored
    rw [if_neg h]
    exact ⟨t, rfl, hfloored⟩

/-- Two integers give what `whole` has for them, and else a number. -/
theorem integralOr_integers (a b : Int64) (whole : Int64 → Int64 → Option Int64)
    (rounded : Float → Float → Float) :
    integralOr [.item (.integer a), .item (.integer b)] whole rounded =
      .ok ((whole a b).elim
        (.number (rounded (Binary64.ofInt64 a) (Binary64.ofInt64 b))) .integer) := by
  have hfirst : argument [.item (.integer a), .item (.integer b)] 0 = .item (.integer a) := rfl
  have hsecond : argument [.item (.integer a), .item (.integer b)] 1 = .item (.integer b) := rfl
  unfold integralOr
  rw [hfirst, hsecond]
  dsimp only
  cases whole a b <;> rfl

theorem call_modulus (hb : b ≠ 0) :
    Kind.call (.maths .modulus) [.item (.integer a), .item (.integer b)] =
      .ok [.item ((flooredRemainder? a b).elim
        (.number (flooredRemainder (Binary64.ofInt64 a) (Binary64.ofInt64 b))) .integer)] := by
  have hzero : ¬ (Binary64.ofInt64 b == 0) = true := by
    rw [Binary64.ofInt64_beq_zero hb]
    exact Bool.false_ne_true
  have hresult : Maths.modulus.result [.item (.integer a), .item (.integer b)] =
      integralOr [.item (.integer a), .item (.integer b)] flooredRemainder? flooredRemainder :=
    if_neg hzero
  show (Maths.modulus.result _).bind (fun item => .ok [Value.item item]) = _
  rw [hresult, integralOr_integers]
  rfl

theorem call_modulus_lowest :
    Kind.call (.maths .modulus) [.item (.integer Int64.minValue), .item (.integer (-1))] =
      .ok [.item (.number 0)] := by
  have hremainder : flooredRemainder? Int64.minValue (-1) = none := by decide
  have hnumber : flooredRemainder (Binary64.ofInt64 Int64.minValue) (Binary64.ofInt64 (-1)) = 0 := by
    decide +kernel
  rw [call_modulus (by decide), hremainder, Option.elim_none, hnumber]

theorem call_modulus_lowest_ne :
    ¬ ∃ r : Int64,
      Kind.call (.maths .modulus) [.item (.integer Int64.minValue), .item (.integer (-1))] =
        .ok [.item (.integer r)] := by
  intro h
  obtain ⟨r, hcall⟩ := h
  rw [call_modulus_lowest] at hcall
  have hitem := Value.item.inj (List.cons.inj (Except.ok.inj hcall)).1
  cases hitem

/-- The remainder of words is the floored one, except for the lowest word by `-1`. -/
theorem modulus_floored_iff (a b : Int64) (hb : b ≠ 0) :
    ((∃ r : Int64,
        Kind.call (.maths .modulus) [.item (.integer a), .item (.integer b)] =
          .ok [.item (.integer r)] ∧
        ∀ n, IsFlooredRemainder a.toInt b.toInt n ↔ n = r.toInt) ↔
      ¬ (a = Int64.minValue ∧ b = -1)) ∧
    (a = Int64.minValue ∧ b = -1 →
      Kind.call (.maths .modulus) [.item (.integer a), .item (.integer b)] =
        .ok [.item (.number 0)]) := by
  refine ⟨⟨?_, fun hlowest => ?_⟩, ?_⟩
  · intro h hlowest
    obtain ⟨r, hcall, -⟩ := h
    obtain ⟨rfl, rfl⟩ := hlowest
    exact call_modulus_lowest_ne ⟨r, hcall⟩
  · obtain ⟨r, hr, hfloored⟩ := flooredRemainder?_eq hb hlowest
    refine ⟨r, ?_, fun n => ⟨fun h => h.unique hfloored, fun h => h ▸ hfloored⟩⟩
    rw [call_modulus hb, hr]
    rfl
  · intro h
    rw [h.1, h.2]
    exact call_modulus_lowest

theorem modulus_floored_iff_sample :
    (5 : Int64) ≠ 0 ∧ ¬ ((-1 : Int64) = Int64.minValue ∧ (5 : Int64) = -1) ∧
    ∃ r : Int64,
      Kind.call (.maths .modulus) [.item (.integer (-1)), .item (.integer 5)] =
        .ok [.item (.integer r)] ∧
      ∀ n, IsFlooredRemainder (-1 : Int64).toInt (5 : Int64).toInt n ↔ n = r.toInt :=
  ⟨by decide, by decide, (modulus_floored_iff (-1) 5 (by decide)).1.2 (by decide)⟩

/-- Zero is the remainder of the lowest word by `-1`, and no integer comes out. -/
theorem lowest_remainder_lost :
    IsFlooredRemainder Int64.minValue.toInt (-1 : Int64).toInt 0 ∧
    ¬ ∃ r : Int64,
      Kind.call (.maths .modulus) [.item (.integer Int64.minValue), .item (.integer (-1))] =
        .ok [.item (.integer r)] :=
  ⟨⟨by decide, .inl rfl, by decide⟩, call_modulus_lowest_ne⟩

end Maths
end Component
end TreeFlow
