import TreeFlow.Json.Decode
import TreeFlow.Json.Writer
import TreeFlow.Proofs.Json.Number
import TreeFlow.Text.Utf8
/-
What is written for a value reads as the value.

A text that is being written ends at a place where the reader stands (`Stands`), or where it stands
as soon as a character comes that ends a number (`Ends`).  The writer appends to the text in front
of it, and each step of the writer is a step of the reader: written behind a place where a value may
stand, a value is supplied there (`Supplied`).  So a whole text is read as what it was written for
(`read_write`), provided that the texts of its numbers are numerals of them (`spelled`).
-/

namespace TreeFlow
namespace Json

/-! ## Values with texts -/

/-- Whether the text of a number is a numeral of that number, and not one of an integer. -/
def spelledNumber (x : Float) : Bool :=
  let cs := (Binary64.documentText x).toList
  (numberPart? cs).any (fun part => part.ends none) && cs.any isMark && x.isFinite
    && decide (Binary64.numeral? cs = some x)

mutual

/-- Whether all integers of a value are words, and all numbers are what their texts say. -/
def spelled : Json → Bool
  | .null | .boolean _ | .text _ => true
  | .integer n => isWord n
  | .real x => spelledNumber x
  | .list elements => spelledElements elements
  | .object members => spelledMembers members
  | .illegible | .cut => false

def spelledElements : List Json → Bool
  | [] => true
  | v :: rest => spelled v && spelledElements rest

def spelledMembers : List (Json × Json) → Bool
  | [] => true
  | (.text _, v) :: rest => spelled v && spelledMembers rest
  | _ :: _ => false

end

theorem numberValue_of_spelledNumber {x : Float} (h : spelledNumber x = true) :
    (∃ part, numberPart? (Binary64.documentText x).toList = some part ∧ part.ends none = true) ∧
      numberValue (Binary64.documentText x).toList = .real x := by
  simp only [spelledNumber, Bool.and_eq_true, decide_eq_true_eq] at h
  obtain ⟨⟨⟨hpart, hmark⟩, hfinite⟩, hvalue⟩ := h
  refine ⟨(Option.any_eq_true _ _).1 hpart, (numberValue_of_mark hmark).trans ?_⟩
  unfold numberValue.approximate
  rw [hvalue]
  exact if_pos hfinite

/-! ## Places in a text -/

/-- The scanner behind a text. -/
def scan (text : String) : Scan := (Text.unitsOf text).foldl Scan.step ⟨.between, []⟩

/-- Where the reader stands behind tokens, the last of them first. -/
def progress (reversed : List Token) : Progress :=
  reversed.foldr (fun token p => p.step token) (.inside [] .value)

/-- A text behind which a token may start, and where the reader stands there. -/
def Stands (text : String) (p : Progress) : Prop :=
  ∃ R, scan text = ⟨.between, R⟩ ∧ progress R = p

/-- The characters that the writer puts behind a number. -/
def isDelimiter (c : Char) : Bool := c = ',' || c = ']' || c = '\x7d' || c = '\n'

/-- A scanner whose token is complete, or will be when a delimiter comes or the text ends. -/
def Scan.Settles (s : Scan) (R : List Token) : Prop :=
  (∀ c, isDelimiter c = true → s.step (some c) = Scan.step ⟨.between, R⟩ (some c)) ∧
    s.finish = R.reverse

/-- A text with complete tokens, and where the reader stands behind them. -/
def Ends (text : String) (p : Progress) : Prop := ∃ R, (scan text).Settles R ∧ progress R = p

variable {text : String} {p : Progress}

theorem scan_append (text more : String) :
    scan (text ++ more) = (more.toList.map some).foldl Scan.step (scan text) := by
  unfold scan Text.unitsOf
  rw [String.toList_append, List.map_append, List.foldl_append]

theorem Stands.ends (h : Stands text p) : Ends text p := by
  obtain ⟨R, hR, hp⟩ := h
  exact ⟨R, by rw [hR]; exact ⟨fun _ _ => rfl, rfl⟩, hp⟩

/-- A token that is complete with its last character. -/
theorem Stands.append (h : Stands text p) (more : String) (token : Token)
    (hmore : ∀ R, (more.toList.map some).foldl Scan.step ⟨.between, R⟩ = ⟨.between, token :: R⟩) :
    Stands (text ++ more) (p.step token) := by
  obtain ⟨R, hR, rfl⟩ := h
  exact ⟨token :: R, by rw [scan_append, hR, hmore], rfl⟩

/-- A mark that may stand behind a number. -/
theorem Ends.append (h : Ends text p) (more : String) {c : Char} (hmore : more.toList = [c])
    (hc : isDelimiter c = true) {token : Token}
    (htoken : ∀ R, Scan.step ⟨.between, R⟩ (some c) = ⟨.between, token :: R⟩) :
    Stands (text ++ more) (p.step token) := by
  obtain ⟨R, hR, rfl⟩ := h
  refine ⟨token :: R, ?_, rfl⟩
  rw [scan_append, hmore]
  show (scan text).step (some c) = _
  rw [hR.1 c hc, htoken]

/-! ## Blanks -/

theorem toList_lineBreak (level : Nat) :
    (Style.indented level).lineBreak.toList = '\n' :: List.replicate (2 * level) ' ' := by
  simp [Style.lineBreak]

theorem foldl_step_blanks (n : Nat) (R : List Token) :
    ((List.replicate n ' ').map some).foldl Scan.step ⟨.between, R⟩ = ⟨.between, R⟩ := by
  induction n with
  | zero => rfl
  | succ n ih => exact ih

theorem Stands.lineBreak (h : Stands text p) (style : Style) :
    Stands (text ++ style.lineBreak) p := by
  obtain ⟨R, hR, hp⟩ := h
  refine ⟨R, ?_, hp⟩
  rw [scan_append, hR]
  cases style with
  | compact => rfl
  | indented level =>
    rw [toList_lineBreak]
    exact foldl_step_blanks _ R

theorem Ends.lineBreak (h : Ends text p) (style : Style) : Ends (text ++ style.lineBreak) p := by
  cases style with
  | compact =>
    have hnothing : text ++ Style.compact.lineBreak = text := String.append_empty
    rw [hnothing]
    exact h
  | indented level =>
    obtain ⟨R, hR, hp⟩ := h
    refine Stands.ends ⟨R, ?_, hp⟩
    rw [scan_append, toList_lineBreak, List.map_cons, List.foldl_cons, hR.1 '\n' rfl]
    exact foldl_step_blanks _ R

/-! ## Names -/

theorem hexDigit?_hexDigit {n : Nat} (h : n < 16) : hexDigit? (hexDigit n) = some n := by
  have hall : ∀ n < 16, hexDigit? (hexDigit n) = some n := by decide
  exact hall n h

/-- A written character is read as the character. -/
theorem foldl_step_quotedChar (c : Char) (reversed : List Char) (R : List Token) :
    ((quotedChar c).map some).foldl Scan.step ⟨.text ⟨reversed, none, true⟩, R⟩
      = ⟨.text ⟨c :: reversed, none, true⟩, R⟩ := by
  unfold quotedChar
  split
  · rfl
  · rfl
  · rfl
  · rfl
  · rfl
  · rfl
  · rfl
  · rename_i hquote hslash _ _ _ _ _
    by_cases hcontrol : c.toNat < 0x20
    · rw [if_pos hcontrol]
      have hlow : hexDigit c.toNat = hexDigit (c.toNat % 16) := by simp [hexDigit]
      have hhigh : Scan.step ⟨.code 2 0 ⟨reversed, none, true⟩, R⟩ (some (hexDigit (c.toNat / 16)))
          = ⟨.code 1 (c.toNat / 16) ⟨reversed, none, true⟩, R⟩ := by
        simp [Scan.step, hexDigit?_hexDigit (n := c.toNat / 16) (by omega)]
      have hcode : c.toNat / 16 * 16 + c.toNat % 16 = c.toNat := by omega
      have hpush : TextDraft.pushCode ⟨reversed, none, true⟩ c.toNat
          = ⟨c :: reversed, none, true⟩ := by
        unfold TextDraft.pushCode
        rw [if_neg (by simp; omega), if_neg (by simp; omega), Char.ofNat_toNat]
        rfl
      show Scan.step (Scan.step ⟨.code 2 0 ⟨reversed, none, true⟩, R⟩ (some _)) (some _) = _
      rw [hhigh, hlow]
      simp [Scan.step, hexDigit?_hexDigit (n := c.toNat % 16) (by omega), hcode, hpush]
    · rw [if_neg hcontrol]
      show Scan.step ⟨.text ⟨reversed, none, true⟩, R⟩ (some c) = _
      simp only [Scan.step]
      rw [if_neg hcontrol]
      rfl

/-- The text of a name is one token. -/
theorem foldl_step_quoted (s : String) (R : List Token) :
    ((quoted s).toList.map some).foldl Scan.step ⟨.between, R⟩
      = ⟨.between, .name (.text s) :: R⟩ := by
  have hinside : ∀ (cs reversed : List Char),
      ((cs.flatMap quotedChar).map some).foldl Scan.step ⟨.text ⟨reversed, none, true⟩, R⟩
        = ⟨.text ⟨cs.reverse ++ reversed, none, true⟩, R⟩ := by
    intro cs
    induction cs with
    | nil => exact fun _ => rfl
    | cons c cs ih =>
      intro reversed
      rw [List.flatMap_cons, List.map_append, List.foldl_append, foldl_step_quotedChar, ih,
        List.reverse_cons, List.append_assoc]
      rfl
  have hchars : (quoted s).toList = '\x22' :: (s.toList.flatMap quotedChar ++ ['\x22']) := by
    simp [quoted]
  rw [hchars, List.map_cons, List.foldl_cons, List.map_append, List.foldl_append]
  show Scan.step ((s.toList.flatMap quotedChar).map some |>.foldl Scan.step
    ⟨.text ⟨[], none, true⟩, R⟩) (some '\x22') = _
  rw [hinside]
  show (⟨.between, .name (TextDraft.value _) :: R⟩ : Scan) = _
  simp [TextDraft.value]

/-! ## Numbers -/

theorem next?_of_isDelimiter {c : Char} (h : isDelimiter c = true) (part : NumberPart) :
    part.next? c = none ∧ part.ends (some c) = part.ends none := by
  simp only [isDelimiter, Bool.or_eq_true, decide_eq_true_eq] at h
  rcases h with ((rfl | rfl) | rfl) | rfl <;> cases part <;> exact ⟨rfl, rfl⟩

theorem Stands.numeral (h : Stands text p) {more : String} {part : NumberPart}
    (hpart : numberPart? more.toList = some part) (hends : part.ends none = true) :
    Ends (text ++ more) (p.step (.scalar (numberValue more.toList))) := by
  obtain ⟨R, hR, rfl⟩ := h
  have hscan : scan (text ++ more) = ⟨.number part more.toList.reverse, R⟩ := by
    rw [scan_append, hR, foldl_step_numeral hpart hends]
  refine ⟨.scalar (numberValue more.toList) :: R, ⟨fun c hc => ?_, ?_⟩, rfl⟩
  · obtain ⟨hnext, hend⟩ := next?_of_isDelimiter hc part
    rw [hscan]
    simp [Scan.step, hnext, hend, hends]
  · rw [hscan]
    simp [Scan.finish, hends]

/-! ## Values -/

/-- Written where a value may stand, a value is supplied there. -/
def Supplied (v : Json) : Prop :=
  ∀ (style : Style) (text : String) (frames : List Frame) (want : Want),
    want = .value ∨ want = .valueOrClose → Stands text (.inside frames want) →
      Ends (write style text v) (supply v frames)

theorem step_of_wantsValue {want : Want} (h : want = .value ∨ want = .valueOrClose)
    (frames : List Frame) (token : Token) (htoken : token ≠ .closeList) :
    Progress.step (.inside frames want) token = beginValue frames token := by
  cases h with
  | inl heq =>
    subst heq
    cases token <;> rfl
  | inr heq =>
    subst heq
    cases token with
    | closeList => exact absurd rfl htoken
    | _ => rfl

theorem Stands.number {want : Want} {frames : List Frame} (h : Stands text (.inside frames want))
    (hwant : want = .value ∨ want = .valueOrClose) {more : String} {v : Json}
    (hmore : (∃ part, numberPart? more.toList = some part ∧ part.ends none = true) ∧
      numberValue more.toList = v) : Ends (text ++ more) (supply v frames) := by
  obtain ⟨⟨part, hpart, hends⟩, rfl⟩ := hmore
  have hstands := h.numeral hpart hends
  rw [step_of_wantsValue hwant frames (.scalar _) nofun] at hstands
  exact hstands

/-- The rest of a list is read behind the elements before it. -/
theorem Ends.elements {rest : List Json} (hrest : ∀ v ∈ rest, Supplied v) (style : Style)
    {reversed : List Json} {frames : List Frame}
    (h : Ends text (.inside (.list reversed :: frames) .commaOrClose)) :
    Ends (writeElements style text rest) (supply (.list (reversed.reverse ++ rest)) frames) := by
  induction rest generalizing text reversed with
  | nil =>
    rw [List.append_nil]
    exact ((h.lineBreak style).append "]" rfl rfl fun _ => rfl).ends
  | cons v rest ih =>
    have hcomma := (h.append "," rfl rfl fun _ => rfl).lineBreak style.deeper
    have hv := hrest v List.mem_cons_self style.deeper _ _ .value (.inl rfl) hcomma
    have hmore := ih (fun v' hv' => hrest v' (List.mem_cons_of_mem _ hv')) hv
    rw [List.reverse_cons, List.append_assoc] at hmore
    exact hmore

theorem supplied_list {elements : List Json} (h : ∀ v ∈ elements, Supplied v) :
    Supplied (.list elements) := by
  intro style text frames want hwant hstands
  have hopen := hstands.append "[" .openList fun _ => rfl
  rw [step_of_wantsValue hwant frames .openList nofun] at hopen
  cases elements with
  | nil =>
    have hclose := (hopen.append "]" .closeList fun _ => rfl).ends
    rw [String.append_assoc] at hclose
    exact hclose
  | cons v rest =>
    have hv := h v List.mem_cons_self style.deeper _ _ .valueOrClose (.inr rfl)
      (hopen.lineBreak style.deeper)
    exact hv.elements (fun v' hv' => h v' (List.mem_cons_of_mem _ hv')) style

/-- The rest of an object is read behind the members before it. -/
theorem Stands.memberName {reversed : List (Json × Json)} {frames : List Frame} {want : Want}
    (h : Stands text (.inside (.object reversed none :: frames) want))
    (hwant : want = .name ∨ want = .nameOrClose) (style : Style) (s : String) :
    Stands (text ++ nameText (.text s) ++ style.colon)
      (.inside (.object reversed (some (.text s)) :: frames) .value) := by
  have hname := h.append (nameText (.text s)) (.name (.text s)) (foldl_step_quoted s)
  have hcolon : Progress.step (.inside (.object reversed none :: frames) want) (.name (.text s))
      = .inside (.object reversed (some (.text s)) :: frames) .colon := by
    cases hwant with
    | inl heq => rw [heq]; rfl
    | inr heq => rw [heq]; rfl
  rw [hcolon] at hname
  refine hname.append style.colon .colon fun R => ?_
  cases style with
  | compact => rfl
  | indented level =>
    have hchars : (Style.indented level).colon.toList = [':', ' '] := by simp [Style.colon]
    rw [hchars]
    rfl

theorem Ends.members {rest : List (Json × Json)}
    (hrest : ∀ m ∈ rest, (∃ s, m.1 = .text s) ∧ Supplied m.2) (style : Style)
    {reversed : List (Json × Json)} {frames : List Frame}
    (h : Ends text (.inside (.object reversed none :: frames) .commaOrClose)) :
    Ends (writeMembers style text rest) (supply (.object (reversed.reverse ++ rest)) frames) := by
  induction rest generalizing text reversed with
  | nil =>
    rw [List.append_nil]
    exact ((h.lineBreak style).append "\x7d" rfl rfl fun _ => rfl).ends
  | cons m rest ih =>
    obtain ⟨name, v⟩ := m
    obtain ⟨⟨s, rfl⟩, hv⟩ := hrest _ List.mem_cons_self
    have hcomma := (h.append "," rfl rfl fun _ => rfl).lineBreak style.deeper
    have hname := hcomma.memberName (.inl rfl) style s
    have hvalue := hv style.deeper _ _ .value (.inl rfl) hname
    have hmore := ih (fun m hm => hrest m (List.mem_cons_of_mem _ hm)) hvalue
    rw [List.reverse_cons, List.append_assoc] at hmore
    exact hmore

theorem supplied_object {members : List (Json × Json)}
    (h : ∀ m ∈ members, (∃ s, m.1 = .text s) ∧ Supplied m.2) : Supplied (.object members) := by
  intro style text frames want hwant hstands
  have hopen := hstands.append "\x7b" .openObject fun _ => rfl
  rw [step_of_wantsValue hwant frames .openObject nofun] at hopen
  cases members with
  | nil =>
    have hclose := (hopen.append "\x7d" .closeObject fun _ => rfl).ends
    rw [String.append_assoc] at hclose
    exact hclose
  | cons m rest =>
    obtain ⟨name, v⟩ := m
    obtain ⟨⟨s, rfl⟩, hv⟩ := h _ List.mem_cons_self
    have hname := (hopen.lineBreak style.deeper).memberName (.inr rfl) style s
    have hvalue := hv style.deeper _ _ .value (.inl rfl) hname
    exact hvalue.members (fun m hm => h m (List.mem_cons_of_mem _ hm)) style

mutual

theorem supplied_of_spelled : ∀ v : Json, v.spelled = true → Supplied v
  | .null, _ => fun _ _ _ _ hwant h => by
    have hword := (h.append "null" (.scalar .null) fun _ => rfl).ends
    rw [step_of_wantsValue hwant _ (.scalar _) nofun] at hword
    exact hword
  | .boolean value, _ => fun _ _ _ _ hwant h => by
    have hword := (h.append (if value then "true" else "false")
      (.scalar (.boolean value)) fun _ => by cases value <;> rfl).ends
    rw [step_of_wantsValue hwant _ (.scalar _) nofun] at hword
    exact hword
  | .integer n, hn => fun _ _ _ _ hwant h => h.number hwant (numberValue_integer hn)
  | .real x, hx => fun _ _ _ _ hwant h => h.number hwant (numberValue_of_spelledNumber hx)
  | .text s, _ => fun _ _ _ _ hwant h => by
    have hname := (h.append (quoted s) (.name (.text s)) (foldl_step_quoted s)).ends
    rw [step_of_wantsValue hwant _ (.name _) nofun] at hname
    exact hname
  | .list elements, h => supplied_list (supplied_of_spelledElements elements h)
  | .object members, h => supplied_object (supplied_of_spelledMembers members h)

theorem supplied_of_spelledElements :
    ∀ elements : List Json, spelledElements elements = true → ∀ v ∈ elements, Supplied v
  | [], _ => nofun
  | v :: rest, h => by
    have hparts : v.spelled = true ∧ spelledElements rest = true := by
      simpa [spelledElements] using h
    exact List.forall_mem_cons.2
      ⟨supplied_of_spelled v hparts.1, supplied_of_spelledElements rest hparts.2⟩

theorem supplied_of_spelledMembers : ∀ members : List (Json × Json),
    spelledMembers members = true → ∀ m ∈ members, (∃ s, m.1 = .text s) ∧ Supplied m.2
  | [], _ => nofun
  | (.text s, v) :: rest, h => by
    have hparts : v.spelled = true ∧ spelledMembers rest = true := by
      simpa [spelledMembers] using h
    exact List.forall_mem_cons.2
      ⟨⟨⟨s, rfl⟩, supplied_of_spelled v hparts.1⟩, supplied_of_spelledMembers rest hparts.2⟩

end

/-! ## Texts -/

/-- The text of a value is read as the value, and nothing is left of it. -/
theorem read_write {v : Json} (h : v.spelled = true) (style : Style) :
    read (Text.unitsOf (write style "" v)) = ⟨v, false⟩ := by
  obtain ⟨R, hR, hprogress⟩ := supplied_of_spelled v h style "" [] .value (.inl rfl)
    ⟨[], rfl, rfl⟩
  have htokens : tokens (Text.unitsOf (write style "" v)) = R.reverse := hR.2
  have hfold : R.reverse.foldl Progress.step (.inside [] .value) = .behind v false := by
    rw [List.foldl_reverse]
    exact hprogress
  unfold read
  rw [htokens, hfold]
  rfl

/-- A decoder finds in the text of a value what it finds in the value. -/
theorem decode_write {α : Type} (decoder : Json → Decoded α) {v : Json} (h : v.spelled = true)
    (style : Style) : decode decoder (Text.unitsOf (write style "" v)) = decoder v := by
  unfold decode
  rw [read_write h style]
  show (decoder v >>= fun a => Except.ok a) = decoder v
  cases decoder v <;> rfl

end Json
end TreeFlow
