import Mathlib.Data.List.Basic
import TreeFlow.Path
import TreeFlow.Proofs.Text.Numeral
/-
The text of a path reads as the path.

Inside of its parentheses a text is cut at its commas, and a blank before a part does not count; so
the parts of a written path are the numerals of its segments, and an empty part behind the comma of
a path with one segment (`parse?_text`).  Hence no two paths have one text.
-/

namespace TreeFlow

namespace Path

/-! ## Parts -/

def isSeparator (c : Char) : Bool := c = ',' || c = ';'

theorem isSeparator_of_isDigit {c : Char} (h : c.isDigit = true) : isSeparator c = false := by
  have hcomma : c ≠ ',' := fun heq => by
    rw [heq] at h
    cases h
  have hsemicolon : c ≠ ';' := fun heq => by
    rw [heq] at h
    cases h
  simp [isSeparator, hcomma, hsemicolon]

/-- The parts between separators that are more than blanks. -/
def parts (cs : List Char) : List (List Char) :=
  ((cs.splitOnP isSeparator).map Text.trimmed).filter fun part => !part.isEmpty

theorem parts_cons_blank {c : Char} (hblank : Text.isBlank c = true)
    (hpart : isSeparator c = false) (cs : List Char) : parts (c :: cs) = parts cs := by
  unfold parts
  rw [List.splitOnP_cons_eq_if_modifyHead, if_neg (by simpa using hpart)]
  cases cs.splitOnP isSeparator with
  | nil => rfl
  | cons part rest =>
    rw [List.modifyHead_cons, List.map_cons, List.map_cons, Text.trimmed_cons_of_isBlank hblank]

theorem parts_numeral (n : Nat) : parts (Nat.toDigits 10 n) = [Nat.toDigits 10 n] := by
  unfold parts
  rw [List.splitOnP_eq_singleton fun c hc =>
    isSeparator_of_isDigit (Text.isDigit_of_mem_numeral hc)]
  simp [Text.trimmed_numeral, Nat.toDigits_ne_nil]

/-- A separator splits the parts before it from those behind it. -/
theorem parts_append_cons {c : Char} (hc : isSeparator c = true) (front back : List Char) :
    parts (front ++ c :: back) = parts front ++ parts back := by
  unfold parts
  rw [List.splitOnP_append_cons front back hc, List.map_append, List.filter_append]

theorem parts_numeral_append (n : Nat) {c : Char} (hc : isSeparator c = true) (cs : List Char) :
    parts (Nat.toDigits 10 n ++ c :: cs) = Nat.toDigits 10 n :: parts cs := by
  rw [parts_append_cons hc, parts_numeral]
  rfl

/-- Written segments are cut into their numerals. -/
theorem parts_segmentsText (segments : List UInt32) :
    parts (segmentsText segments).toList = segments.map fun i => Nat.toDigits 10 i.toNat := by
  induction segments with
  | nil => rfl
  | cons i rest ih =>
    cases rest with
    | nil =>
      have hchars : (segmentsText [i]).toList = Nat.toDigits 10 i.toNat := by simp [segmentsText]
      rw [hchars, parts_numeral]
      rfl
    | cons j rest =>
      have hchars : (segmentsText (i :: j :: rest)).toList
          = Nat.toDigits 10 i.toNat ++ ',' :: ' ' :: (segmentsText (j :: rest)).toList := by
        simp [segmentsText]
      rw [hchars, parts_numeral_append _ (by decide), parts_cons_blank (by decide) (by decide), ih]
      rfl

theorem segment?_numeral (i : UInt32) : segment? (Nat.toDigits 10 i.toNat) = some i := by
  unfold segment?
  rw [Text.naturalBelow?_numeral i.toNat_lt, Option.map_some, UInt32.ofNat_toNat]

theorem mapM_segment?_numerals (segments : List UInt32) :
    (segments.map fun i => Nat.toDigits 10 i.toNat).mapM segment? = some segments := by
  induction segments with
  | nil => rfl
  | cons i rest ih =>
    rw [List.map_cons, List.mapM_cons, segment?_numeral, ih]
    rfl

/-! ## Texts -/

theorem parse?_of_inside {s : String} (inner : List Char) {segments : List UInt32}
    (hs : s.toList = '(' :: inner ++ [')'])
    (hparts : parts inner = segments.map fun i => Nat.toDigits 10 i.toNat) :
    parse? s = some ⟨segments⟩ := by
  have htrimmed : Text.trimmed s.toList = s.toList := by
    refine Text.trimmed_eq_self (fun c hc => ?_) fun c hc => ?_
    · have hfirst : '(' = c := by simpa [hs] using hc
      rw [← hfirst]
      rfl
    · have hlast : ')' = c := by simpa [hs, List.getLast?_cons] using hc
      rw [← hlast]
      rfl
  have hinside : inside? '(' ')' s.toList = some inner := by
    rw [hs]
    simp [inside?]
  have hsegments : (parts inner).mapM segment? = some segments := by
    rw [hparts]
    exact mapM_segment?_numerals segments
  unfold parse?
  show ((inside? '(' ')' (Text.trimmed s.toList)).or (inside? '\x7b' '\x7d' _)).bind
    (fun inner => ((parts inner).mapM segment?).bind fun segments => some (Path.mk segments)) = _
  rw [htrimmed, hinside, Option.some_or, Option.bind_some, hsegments, Option.bind_some]

/-- What is written for a path reads as the path. -/
theorem parse?_text (p : Path) : parse? p.text = some p := by
  obtain ⟨segments⟩ := p
  cases segments with
  | nil => exact parse?_of_inside [] rfl (parts_segmentsText [])
  | cons i rest =>
    cases rest with
    | nil =>
      have hchars : (text ⟨[i]⟩).toList = '(' :: (Nat.toDigits 10 i.toNat ++ [',']) ++ [')'] := by
        simp [text]
      refine parse?_of_inside _ hchars ?_
      rw [parts_numeral_append _ (by decide)]
      rfl
    | cons j rest =>
      refine parse?_of_inside _ ?_ (parts_segmentsText (i :: j :: rest))
      simp [text]

theorem text_injective {p q : Path} (h : p.text = q.text) : p = q := by
  have hparsed : some p = some q := by rw [← parse?_text p, h, parse?_text q]
  exact Option.some.inj hparsed

end Path
end TreeFlow
