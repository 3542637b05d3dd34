/-
Letter case.

Names of kinds, inputs and outputs, and the words for truth values, are compared without regard
to the case of ASCII letters; every other character has to agree exactly.
-/

namespace TreeFlow
namespace Text

def lowered (s : String) : String :=
  String.ofList (s.toList.map Char.toLower)

/-- Whether two texts agree up to the case of ASCII letters. -/
def sameLetters (s t : String) : Bool :=
  s.toList.map Char.toLower == t.toList.map Char.toLower

theorem sameLetters_iff {s t : String} :
    sameLetters s t = true ↔ s.toList.map Char.toLower = t.toList.map Char.toLower := by
  simp [sameLetters]

@[simp] theorem sameLetters_self (s : String) : sameLetters s s = true :=
  sameLetters_iff.2 rfl

end Text
end TreeFlow
