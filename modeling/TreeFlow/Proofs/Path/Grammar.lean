import Mathlib.Data.List.Basic
import TreeFlow.Proofs.Path.Text
import TreeFlow.Tree.Document
/-
Which texts name a path.

A text names a path if it is, blanks aside, parentheses or braces around parts between commas or
semicolons, each of them blank or a numeral below `2 ^ 32` among blanks; the numerals are the
segments of the path.  `Names` says this without the reader.  The reader accepts exactly the texts
that name a path, and as that path; any other text is the fault, as it was given
(`read_text_and_read_iff`).

Parts are read one by one, because a separator splits what is read before it from what is read
behind it (`mapM_parts_append_cons`), and one part is read off its trimmed form (`Part.iff_trimmed`).
-/

namespace TreeFlow

namespace Path

open Text (Padded Unsigned)

/-! ## The grammar -/

/-- A part with the segments it stands for: none if it is blank. -/
inductive Part : List Char → List UInt32 → Prop
  | blank {cs : List Char} (padded : Padded [] cs) : Part cs []
  | numeral {digits cs : List Char} {i : UInt32} (value : Unsigned digits i.toNat)
    (padded : Padded digits cs) : Part cs [i]

/-- Parts between separators, with the segments they stand for. -/
inductive Parts : List Char → List UInt32 → Prop
  | last {cs : List Char} {segments : List UInt32} (part : Part cs segments) : Parts cs segments
  | cons {cs rest : List Char} {segments others : List UInt32} {c : Char}
    (part : Part cs segments) (separator : c = ',' ∨ c = ';') (tail : Parts rest others) :
    Parts (cs ++ c :: rest) (segments ++ others)

/-- `s` is one of the texts of `p`. -/
inductive Names (s : String) (p : Path) : Prop
  | parentheses {inner : List Char} (padded : Padded ('(' :: inner ++ [')']) s.toList)
    (parts : Parts inner p.segments)
  | braces {inner : List Char} (padded : Padded ('\x7b' :: inner ++ ['\x7d']) s.toList)
    (parts : Parts inner p.segments)

/-! ## One part -/

theorem segment?_eq_some_iff {cs : List Char} {i : UInt32} :
    segment? cs = some i ↔ Unsigned cs i.toNat := by
  unfold segment?
  rw [Option.map_eq_some_iff]
  constructor
  · intro h
    obtain ⟨n, hn, rfl⟩ := h
    obtain ⟨hvalue, hbound⟩ := Text.naturalBelow?_eq_some_iff.1 hn
    rwa [UInt32.toNat_ofNat_of_lt' hbound]
  · intro h
    exact ⟨i.toNat, Text.naturalBelow?_eq_some_iff.2 ⟨h, i.toNat_lt⟩, UInt32.ofNat_toNat⟩

theorem isSeparator_eq_true_iff {c : Char} : isSeparator c = true ↔ c = ',' ∨ c = ';' := by
  rw [isSeparator, Bool.or_eq_true, decide_eq_true_iff, decide_eq_true_iff]

theorem isSeparator_of_isBlank {c : Char} (h : Text.isBlank c = true) : isSeparator c = false := by
  apply Bool.eq_false_iff.2
  intro hseparator
  obtain rfl | rfl := isSeparator_eq_true_iff.1 hseparator <;> cases h

namespace Part

variable {cs : List Char} {segments : List UInt32}

theorem not_isSeparator (h : Part cs segments) {c : Char} (hc : c ∈ cs) :
    isSeparator c = false := by
  cases h with
  | blank hpadded => exact isSeparator_of_isBlank ((hpadded.mem hc).resolve_right List.not_mem_nil)
  | numeral hvalue hpadded =>
    obtain hc | hc := hpadded.mem hc
    · exact isSeparator_of_isBlank hc
    · obtain hc | rfl := hvalue.isDigit_or_plus hc
      · exact isSeparator_of_isDigit hc
      · rfl

/-- A part is read off its trimmed form. -/
theorem iff_trimmed : Part cs segments ↔
    Text.trimmed cs = [] ∧ segments = [] ∨
      ∃ i : UInt32, Unsigned (Text.trimmed cs) i.toNat ∧ segments = [i] := by
  have hpadded := Text.padded_trimmed cs
  constructor
  · intro h
    cases h with
    | blank hblank => exact .inl ⟨hblank.trimmed_eq nofun nofun, rfl⟩
    | numeral hvalue hdigits => exact .inr ⟨_, (hvalue.trimmed_eq hdigits).symm ▸ hvalue, rfl⟩
  · intro h
    obtain ⟨hempty, rfl⟩ | ⟨i, hvalue, rfl⟩ := h
    · rw [hempty] at hpadded
      exact .blank hpadded
    · exact .numeral hvalue hpadded

end Part

theorem parts_of_not_isSeparator {cs : List Char} (h : ∀ c ∈ cs, isSeparator c = false) :
    parts cs = if (Text.trimmed cs).isEmpty then [] else [Text.trimmed cs] := by
  unfold parts
  rw [List.splitOnP_eq_singleton h, List.map_singleton, List.filter_singleton]
  cases (Text.trimmed cs).isEmpty <;> rfl

/-- What the reader makes of one part. -/
theorem mapM_parts_eq_some_iff_part {cs : List Char} {segments : List UInt32}
    (h : ∀ c ∈ cs, isSeparator c = false) :
    (parts cs).mapM segment? = some segments ↔ Part cs segments := by
  rw [parts_of_not_isSeparator h, Part.iff_trimmed]
  by_cases hempty : Text.trimmed cs = []
  · rw [if_pos (List.isEmpty_iff.2 hempty)]
    show some [] = some segments ↔ _
    constructor
    · intro h
      exact .inl ⟨hempty, (Option.some.inj h).symm⟩
    · intro h
      obtain ⟨-, rfl⟩ | ⟨i, hvalue, -⟩ := h
      · rfl
      · exact absurd hempty hvalue.ne_nil
  · rw [if_neg (mt List.isEmpty_iff.1 hempty)]
    show (segment? (Text.trimmed cs)).bind (fun i => some [i]) = some segments ↔ _
    rw [Option.bind_eq_some_iff, or_iff_right fun h => hempty h.1]
    refine exists_congr fun i => ?_
    rw [segment?_eq_some_iff, Option.some.injEq, eq_comm (a := segments)]

/-! ## All parts -/

theorem mapM_parts_append_cons {c : Char} (hc : isSeparator c = true) {front back : List Char}
    {segments others : List UInt32} (hfront : (parts front).mapM segment? = some segments)
    (hback : (parts back).mapM segment? = some others) :
    (parts (front ++ c :: back)).mapM segment? = some (segments ++ others) := by
  rw [parts_append_cons hc, List.mapM_append, hfront, hback]
  rfl

/-- The reader takes parts as the grammar has them; the induction is on the length of the text, from
one separator to the next. -/
theorem mapM_parts_eq_some_iff {cs : List Char} {segments : List UInt32} :
    (parts cs).mapM segment? = some segments ↔ Parts cs segments := by
  constructor
  · intro h
    induction hn : cs.length using Nat.strongRecOn generalizing cs segments with
    | ind n ih =>
      cases hfind : cs.find? isSeparator with
      | none =>
        have hnone : ∀ c ∈ cs, isSeparator c = false := by simpa using hfind
        exact .last ((mapM_parts_eq_some_iff_part hnone).1 h)
      | some c =>
        obtain ⟨hc, front, back, rfl, hfront⟩ := List.find?_eq_some_iff_append.1 hfind
        rw [parts_append_cons hc, List.mapM_append] at h
        obtain ⟨segments, hsegments, h⟩ := Option.bind_eq_some_iff.1 h
        obtain ⟨others, hothers, h⟩ := Option.bind_eq_some_iff.1 h
        obtain rfl := Option.some.inj h
        refine .cons ((mapM_parts_eq_some_iff_part ?_).1 hsegments)
          (isSeparator_eq_true_iff.1 hc) (ih back.length ?_ hothers rfl)
        · simpa using hfront
        · rw [← hn, List.length_append, List.length_cons]
          omega
  · intro h
    induction h with
    | last part => exact (mapM_parts_eq_some_iff_part fun c => part.not_isSeparator).2 part
    | cons part separator tail ih =>
      have hfront := (mapM_parts_eq_some_iff_part fun c => part.not_isSeparator).2 part
      exact mapM_parts_append_cons (isSeparator_eq_true_iff.2 separator) hfront ih

/-! ## Brackets -/

theorem inside?_eq_some_iff {opening closing : Char} {cs inner : List Char} :
    inside? opening closing cs = some inner ↔ cs = opening :: inner ++ [closing] := by
  cases cs with
  | nil => simp [inside?]
  | cons c rest =>
    rw [inside?]
    constructor
    · intro h
      split at h
      next hends =>
        obtain ⟨hfirst, hlast⟩ := Bool.and_eq_true_iff.1 hends
        obtain rfl := of_decide_eq_true hfirst
        obtain rfl := Option.some.inj h
        rw [List.cons_append, List.dropLast_append_getLast? closing (of_decide_eq_true hlast)]
      next => cases h
    · intro h
      obtain ⟨rfl, rfl⟩ := List.cons.inj h
      simp

/-- Parentheses and braces are told apart by what stands first. -/
theorem inside?_or_eq_some_iff {cs inner : List Char} :
    (inside? '(' ')' cs).or (inside? '{' '}' cs) = some inner ↔
      cs = '(' :: inner ++ [')'] ∨ cs = '{' :: inner ++ ['}'] := by
  rw [Option.or_eq_some_iff, inside?_eq_some_iff, inside?_eq_some_iff]
  refine or_congr_right (and_iff_right_of_imp fun h => ?_)
  rw [h]
  rfl

theorem trimmed_eq_bracketed_iff {opening closing : Char} (hopening : Text.isBlank opening = false)
    (hclosing : Text.isBlank closing = false) {cs inner : List Char} :
    Text.trimmed cs = opening :: inner ++ [closing] ↔
      Padded (opening :: inner ++ [closing]) cs := by
  constructor
  · intro h
    rw [← h]
    exact Text.padded_trimmed cs
  · intro h
    refine h.trimmed_eq (fun c hc => ?_) fun c hc => ?_
    · obtain rfl : opening = c := by simpa using hc
      exact hopening
    · obtain rfl : closing = c := by simpa [List.getLast?_cons] using hc
      exact hclosing

theorem names_iff {s : String} {p : Path} : Names s p ↔
    ∃ inner, (Padded ('(' :: inner ++ [')']) s.toList ∨
      Padded ('{' :: inner ++ ['}']) s.toList) ∧ Parts inner p.segments := by
  constructor
  · intro h
    cases h with
    | parentheses padded parts => exact ⟨_, .inl padded, parts⟩
    | braces padded parts => exact ⟨_, .inr padded, parts⟩
  · intro h
    obtain ⟨inner, padded | padded, parts⟩ := h
    · exact .parentheses padded parts
    · exact .braces padded parts

/-- The reader accepts the texts of a path, and no others. -/
theorem parse?_eq_some_iff {s : String} {p : Path} : parse? s = some p ↔ Names s p := by
  unfold parse?
  show ((inside? '(' ')' (Text.trimmed s.toList)).or (inside? '{' '}' _)).bind
    (fun inner => ((parts inner).mapM segment?).bind fun segments => some (Path.mk segments)) = _ ↔ _
  rw [Option.bind_eq_some_iff, names_iff]
  refine exists_congr fun inner => and_congr ?_ ?_
  · rw [inside?_or_eq_some_iff, trimmed_eq_bracketed_iff rfl rfl, trimmed_eq_bracketed_iff rfl rfl]
  · rw [← mapM_parts_eq_some_iff]
    obtain ⟨segments⟩ := p
    simp [Option.bind_eq_some_iff]

example : parse? " \x7b+0;; 01,\x7d\n" = some ⟨[0, 1]⟩ := by decide

/-! ## Reading -/

/-- Texts of paths read as they were written, and what can be read is what names a path. -/
theorem read_text_and_read_iff :
    (∀ p : Path, read p.text = .ok p) ∧
      (∀ s p, read s = .ok p ↔ Names s p) ∧
      ∀ s fault, read s = .error fault ↔ fault = .invalid s ∧ ¬ ∃ p, Names s p := by
  refine ⟨fun p => read_eq_ok_iff.2 (parse?_text p), fun s p => ?_, fun s fault => ?_⟩
  · rw [read_eq_ok_iff, parse?_eq_some_iff]
  · rw [read_eq_error_iff]
    simp only [← parse?_eq_some_iff, Option.eq_none_iff_forall_ne_some, not_exists, ne_eq]

end Path
end TreeFlow
