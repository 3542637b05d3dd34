import TreeFlow.Text.Blank
import TreeFlow.Text.Numeral
/-
Paths: the addresses of branches.

A path is a list of segments.  Paths are ordered segment by segment, a path before its extensions:
`() < (0,) < (0, 0) < (0, 1) < (1,)`.  Its text is a tuple, and a tuple or a list in braces reads as
a path.
-/

namespace TreeFlow

structure Path where
  segments : List UInt32
deriving DecidableEq, Repr, Inhabited

namespace Path

/-! ## Order -/

instance : Ord Path := ⟨fun p q => compare p.segments q.segments⟩

theorem compare_def (p q : Path) : compare p q = compare p.segments q.segments := rfl

instance : Std.TransOrd Path where
  eq_swap := Std.OrientedCmp.eq_swap (α := List UInt32)
  isLE_trans := Std.TransCmp.isLE_trans (α := List UInt32)

instance : Std.LawfulEqOrd Path where
  eq_of_compare {p q} h := by
    cases p; cases q
    exact congrArg Path.mk (Std.LawfulEqCmp.eq_of_compare (α := List UInt32) h)

/-! ## Parts -/

def root : Path := ⟨[]⟩

def ofIndex (i : Nat) : Path := ⟨[UInt32.ofNat i]⟩

/-- The path of the only branch of a plain list. -/
def default : Path := ofIndex 0

def length (p : Path) : Nat := p.segments.length

def isEmpty (p : Path) : Bool := p.segments.isEmpty

def last? (p : Path) : Option UInt32 := p.segments.getLast?

def child (p : Path) (i : UInt32) : Path := ⟨p.segments ++ [i]⟩

/-- The path without its last segment; the root has no parent. -/
def parent? (p : Path) : Option Path :=
  if p.segments.isEmpty then none else some ⟨p.segments.dropLast⟩

/-- Whether `q` extends `p` by at least one segment. -/
def extends? (p q : Path) : Bool :=
  p.length < q.length && p.segments.isPrefixOf q.segments

@[simp] theorem parent?_child (p : Path) (i : UInt32) : (p.child i).parent? = some p := by
  simp [child, parent?]

theorem extends?_iff {p q : Path} :
    p.extends? q = true ↔ ∃ s, s ≠ [] ∧ p.segments ++ s = q.segments := by
  rw [extends?, Bool.and_eq_true, decide_eq_true_iff, List.isPrefixOf_iff_prefix]
  constructor
  · rintro ⟨hl, s, hs⟩
    refine ⟨s, ?_, hs⟩
    rintro rfl
    simp [length, ← hs] at hl
  · rintro ⟨s, hs, h⟩
    refine ⟨?_, s, h⟩
    have : 0 < s.length := List.length_pos_iff.2 hs
    rw [length, length, ← h, List.length_append]
    omega

/-! ## Text -/

/-- The segments between commas, in decimal. -/
def segmentsText : List UInt32 → String
  | [] => ""
  | [i] => toString i.toNat
  | i :: rest => toString i.toNat ++ ", " ++ segmentsText rest

/-- The text of a path: `()`, `(0,)`, `(0, 1)`. -/
def text (p : Path) : String :=
  match p.segments with
  | [i] => "(" ++ toString i.toNat ++ ",)"
  | segments => "(" ++ segmentsText segments ++ ")"

def inside? (opening closing : Char) : List Char → Option (List Char)
  | [] => none
  | c :: rest =>
    if c = opening && rest.getLast? = some closing then some rest.dropLast else none

/-- The segment that a part stands for. -/
def segment? (part : List Char) : Option UInt32 :=
  (Text.naturalBelow? UInt32.size part).map UInt32.ofNat

/-- The path of a text: parentheses or braces around numerals below `2 ^ 32` that are separated by
commas or semicolons.  Blanks around the parts, and empty parts, do not count. -/
def parse? (s : String) : Option Path := do
  let cs := Text.trimmed s.toList
  let inner ← (inside? '(' ')' cs).or (inside? '\x7b' '\x7d' cs)
  let parts := (inner.splitOnP fun c => c = ',' || c = ';').map Text.trimmed
  let segments ← (parts.filter fun part => !part.isEmpty).mapM segment?
  some ⟨segments⟩

end Path
end TreeFlow
