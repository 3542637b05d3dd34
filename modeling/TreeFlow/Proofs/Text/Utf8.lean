import TreeFlow.Text.Utf8
/-
The octets of a text read as its characters.

The first octet of a character tells how many follow it, and these give back the rest of its bits,
six at a time; so reading is never one octet off (`units_octetsOf`).
-/

namespace TreeFlow
namespace Text

/-- A continuation octet gives six bits. -/
theorem continuation?_cons {low : Nat} (h : low < 64) (count bits : Nat) (rest : List UInt8) :
    continuation? (count + 1) bits (UInt8.ofNat (low + 128) :: rest)
      = continuation? count (bits * 64 + low) rest := by
  have hoctet : (UInt8.ofNat (low + 128)).toNat = low + 128 :=
    UInt8.toNat_ofNat_of_lt' (show low + 128 < 256 by omega)
  have hmark : (low + 128) / 64 = 2 := by omega
  have hbits : (low + 128) % 64 = low := by omega
  show (if (UInt8.ofNat (low + 128)).toNat / 64 = 2 then _ else none) = _
  rw [hoctet, if_pos hmark, hbits]

/-- An octet and the bits behind it make the character that they spell. -/
theorem character?_eq {c : Char} {first count : Nat} (bits : Nat) {rest : List UInt8}
    (hleast : (match count with | 0 => 0 | 1 => 0x80 | 2 => 0x800 | _ => 0x10000) ≤ c.toNat)
    (hfirst : first < 256) (hlead : leadOctet? first = some (count, bits))
    (hcode : continuation? count bits rest = some c.toNat) :
    character? (UInt8.ofNat first) rest = some (c, count) := by
  have hvalid : c.toNat.isValidChar := c.valid
  unfold character?
  rw [UInt8.toNat_ofNat_of_lt' hfirst, hlead]
  show (continuation? count bits rest).bind _ = _
  rw [hcode, Option.bind_some]
  refine (if_pos ?_).trans (by rw [Char.ofNat_toNat])
  simp only [Bool.and_eq_true, decide_eq_true_eq]
  exact ⟨hleast, hvalid⟩

theorem unitsFrom_append (octets rest : List UInt8) :
    unitsFrom octets.length (octets ++ rest) = unitsFrom 0 rest := by
  induction octets with
  | nil => rfl
  | cons b octets ih => exact ih

theorem units_encode (c : Char) (rest : List UInt8) :
    unitsFrom 0 (String.utf8EncodeChar c ++ rest) = some c :: unitsFrom 0 rest := by
  have hread : ∃ first more, String.utf8EncodeChar c = first :: more ∧
      character? first (more ++ rest) = some (c, more.length) := by
    have hc : c.val.toNat = c.toNat := rfl
    have hmax : c.toNat < 0x110000 := by
      have hvalid : c.toNat.isValidChar := c.valid
      simp only [Nat.isValidChar] at hvalid
      omega
    unfold String.utf8EncodeChar
    rw [hc]
    by_cases h₁ : c.toNat ≤ 127
    · refine ⟨_, _, if_pos h₁, character?_eq c.toNat (Nat.zero_le _) (by omega) ?_ rfl⟩
      exact if_pos (by omega)
    · have hlead : ∀ n : Nat, 0xC2 ≤ n → leadOctet? n
          = if n < 0xE0 then some (1, n % 0x20) else if n < 0xF0 then some (2, n % 0x10)
            else if n < 0xF5 then some (3, n % 0x08) else none := fun n hn =>
        (if_neg (by omega)).trans (if_neg (by omega))
      by_cases h₂ : c.toNat ≤ 2047
      · refine ⟨_, _, (if_neg h₁).trans (if_pos h₂), character?_eq (c.toNat / 64)
          (show 0x80 ≤ c.toNat by omega) (by omega) ?_ ?_⟩
        · rw [hlead _ (by omega), if_pos (by omega)]
          refine congrArg (fun n => some (1, n)) ?_
          omega
        · refine (continuation?_cons (by omega) 0 _ _).trans (congrArg some ?_)
          omega
      · by_cases h₃ : c.toNat ≤ 65535
        · refine ⟨_, _, (if_neg h₁).trans ((if_neg h₂).trans (if_pos h₃)),
            character?_eq (c.toNat / 4096) (show 0x800 ≤ c.toNat by omega) (by omega) ?_ ?_⟩
          · rw [hlead _ (by omega), if_neg (by omega), if_pos (by omega)]
            refine congrArg (fun n => some (2, n)) ?_
            omega
          · refine (continuation?_cons (by omega) 1 _ _).trans
              ((continuation?_cons (by omega) 0 _ _).trans (congrArg some ?_))
            omega
        · refine ⟨_, _, (if_neg h₁).trans ((if_neg h₂).trans (if_neg h₃)),
            character?_eq (c.toNat / 262144) (show 0x10000 ≤ c.toNat by omega) (by omega)
              ?_ ?_⟩
          · rw [hlead _ (by omega), if_neg (by omega), if_neg (by omega), if_pos (by omega)]
            refine congrArg (fun n => some (3, n)) ?_
            omega
          · refine (continuation?_cons (by omega) 2 _ _).trans
              ((continuation?_cons (by omega) 1 _ _).trans
                ((continuation?_cons (by omega) 0 _ _).trans (congrArg some ?_)))
            omega
  obtain ⟨first, more, hencode, hcharacter⟩ := hread
  rw [hencode, List.cons_append, unitsFrom, hcharacter]
  exact congrArg (some c :: ·) (unitsFrom_append more rest)

/-- The octets of a text read as its characters. -/
theorem units_octetsOf (s : String) : units (octetsOf s) = unitsOf s := by
  have hlist : ∀ cs : List Char, unitsFrom 0 (cs.flatMap String.utf8EncodeChar) = cs.map some := by
    intro cs
    induction cs with
    | nil => rfl
    | cons c cs ih => rw [List.flatMap_cons, units_encode, ih, List.map_cons]
  exact hlist s.toList

end Text
end TreeFlow
