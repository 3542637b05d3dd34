import TreeFlow.Json.Reader
/-
Typed values from JSON values.

A decoder walks over a value in the order of the text and stops at the first fault.  A fault is
either that the text is no JSON there, or that it is JSON of the wrong form; what a decoder skips
may be illegible, but may not be cut.
-/

namespace TreeFlow
namespace Json

inductive Fault where
  | malformed
  /-- The text is JSON of another form than asked for. -/
  | mismatch
deriving DecidableEq, Repr, Inhabited

abbrev Decoded (α : Type) := Except Fault α

/-- The fault of a value that stands where another form is asked for. -/
def blame : Json → Fault
  | .illegible | .cut => .malformed
  | _ => .mismatch

def asText : Json → Decoded String
  | .text s => .ok s
  | v => .error v.blame

def asBoolean : Json → Decoded Bool
  | .boolean b => .ok b
  | v => .error v.blame

/-- Any number; integers are rounded. -/
def asFloat : Json → Decoded Float
  | .integer n => .ok (Float.ofInt n)
  | .real x => .ok x
  | v => .error v.blame

def asCount : Json → Decoded Nat
  | .integer n => if 0 ≤ n then .ok n.toNat else .error .mismatch
  | v => .error v.blame

def asOptional {α : Type} (decode : Json → Decoded α) : Json → Decoded (Option α)
  | .null => .ok none
  | v => (decode v).map some

def asList {α : Type} (decode : Json → Decoded α) : Json → Decoded (List α)
  | .list elements => elements.mapM decode
  | v => .error v.blame

/-- The members of an object, in the order of the text. -/
def asMembers {α : Type} (decode : Json → Decoded α) : Json → Decoded (List (String × α))
  | .object members => members.mapM fun (name, v) =>
    match name with
    | .text s => (decode v).map fun a => (s, a)
    | _ => .error .malformed
  | v => .error v.blame

/-- One of a few words.  A word may also stand as the only name of an object, over `null`. -/
def asWord {α : Type} (word? : String → Option α) : Json → Decoded α
  | .text s => (word? s).elim (.error .mismatch) .ok
  | .object [] => .error .malformed
  | .object ((name, v) :: rest) => do
    let s ← asText name
    let a ← (word? s).elim (.error .mismatch) .ok
    match v with
    | .null => if rest.isEmpty then .ok a else .error .malformed
    | _ => .error v.blame
  | _ => .error .malformed

/-! ## Records -/

def once {α : Type} (present : Option α) (decoded : Decoded α) : Decoded (Option α) :=
  match present with
  | some _ => .error .mismatch
  | none => decoded.map some

def required {α : Type} : Option α → Decoded α
  | some a => .ok a
  | none => .error .mismatch

/-- A record with the given fields.  It is an object, whose other members are skipped, or a list
of its fields in order.  `field` decodes one field into the draft and `finish` completes it. -/
def asRecord {σ α : Type} (names : List String) (start : σ)
    (field : σ → String → Json → Decoded σ) (finish : σ → Decoded α) : Json → Decoded α
  | .object members => do
    let draft ← members.foldlM (fun draft (name, v) =>
      match name with
      | .text s =>
        if names.contains s then field draft s v
        else if v.uncut then .ok draft else .error .malformed
      | _ => .error .malformed) start
    finish draft
  | .list elements => do
    let draft ← (names.zip elements).foldlM (fun draft (name, v) => field draft name v) start
    let a ← finish draft
    if names.length < elements.length then .error .malformed else .ok a
  | v => .error v.blame

def decode {α : Type} (decoder : Json → Decoded α) (units : List (Option Char)) : Decoded α := do
  let document := read units
  let a ← decoder document.value
  if document.trailing then .error .malformed else .ok a

end Json
end TreeFlow
