import TreeFlow.Text.Blank
import TreeFlow.Text.Numeral
/-
The limit on components that run at once.

A limit is at least one, so that a run goes on, and at most the number of permits that a pool can
hold.
-/

namespace TreeFlow
namespace Limit

/-- The largest number of permits, `2 ^ 61 - 1`. -/
def maxPermits : Nat := 0x1FFFFFFFFFFFFFFF

def clamp (n : Nat) : Nat := max 1 (min maxPermits n)

/-- The limit that a setting asks for: a positive number, with blanks around or not.  Any other
setting, and none, leaves the limit as it is. -/
def adjust (limit : Nat) (setting : Option String) : Nat :=
  match setting.bind fun s => Text.naturalBelow? UInt64.size (Text.trimmed s.toList) with
  | some n => if 0 < n then clamp n else limit
  | none => limit

theorem clamp_pos (n : Nat) : 0 < clamp n := by simp only [clamp]; omega

theorem clamp_le (n : Nat) : clamp n ≤ maxPermits := by
  have : 1 ≤ maxPermits := by decide
  simp only [clamp]; omega

end Limit
end TreeFlow
