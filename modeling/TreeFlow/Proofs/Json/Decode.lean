import TreeFlow.Json.Decode
import TreeFlow.Proofs.Except
/-
Reading what was written.

A number that is not finite is written as `null`, which no reader of numbers takes.  What is written
element by element, or member by member, is read in the same way: it is refused as soon as one part
is.
-/

namespace TreeFlow
namespace Json

theorem asFloat_ofFloat (x : Float) :
    asFloat (ofFloat x) = if x.isFinite then .ok x else .error .mismatch := by
  unfold ofFloat
  by_cases hx : x.isFinite
  · rw [if_pos hx, if_pos hx]
    rfl
  · rw [if_neg hx, if_neg hx]
    rfl

theorem sound_ofFloat (room : Nat) (x : Float) : (ofFloat x).sound room = true := by
  unfold ofFloat
  split <;> rfl

section Sound

theorem soundElements_iff {room : Nat} {l : List Json} :
    soundElements room l = true ↔ ∀ v ∈ l, v.sound room = true := by
  induction l with
  | nil => simp [soundElements]
  | cons v l ih => rw [soundElements, Bool.and_eq_true, ih, List.forall_mem_cons]

theorem soundMembers_iff {room : Nat} {l : List (Json × Json)} :
    soundMembers room l = true ↔ ∀ m ∈ l, (∃ s, m.1 = .text s) ∧ m.2.sound room = true := by
  induction l with
  | nil => simp [soundMembers]
  | cons m l ih =>
    obtain ⟨name, v⟩ := m
    rw [List.forall_mem_cons, ← ih]
    cases name <;> simp [soundMembers]

variable {α : Type} (encode : α → Json) {room : Nat} (hroom : 0 < room)
include hroom

theorem sound_list_iff {l : List Json} :
    (list l).sound room = true ↔ ∀ v ∈ l, v.sound (room - 1) = true := by
  rw [sound, Bool.and_eq_true, soundElements_iff, and_iff_right]
  exact bne_iff_ne.2 (Nat.ne_zero_of_lt hroom)

theorem sound_object_iff {l : List (Json × Json)} :
    (object l).sound room = true ↔
      ∀ m ∈ l, (∃ s, m.1 = .text s) ∧ m.2.sound (room - 1) = true := by
  rw [sound, Bool.and_eq_true, soundMembers_iff, and_iff_right]
  exact bne_iff_ne.2 (Nat.ne_zero_of_lt hroom)

/-- A list of sound elements is sound where there is room for one more level. -/
theorem sound_list_map {l : List α} (h : ∀ a ∈ l, (encode a).sound (room - 1) = true) :
    (Json.list (l.map encode)).sound room = true :=
  (sound_list_iff hroom).2 (List.forall_mem_map.2 h)

theorem sound_object_map {l : List (String × α)}
    (h : ∀ e ∈ l, (encode e.2).sound (room - 1) = true) :
    (Json.object (l.map fun e => member e.1 (encode e.2))).sound room = true :=
  (sound_object_iff hroom).2 (List.forall_mem_map.2 fun e he => ⟨⟨e.1, rfl⟩, h e he⟩)

end Sound

/-! ## Records -/

@[simp] theorem once_none {α : Type} (decoded : Decoded α) : once none decoded = decoded.map some :=
  rfl

section Records

variable {σ α : Type} {names : List String} {start : σ} {field : σ → String → Json → Decoded σ}
  {finish : σ → Decoded α}

/-- A record whose members are all fields is read field by field. -/
theorem asRecord_members {l : List (String × Json)} (h : ∀ m ∈ l, m.1 ∈ names) :
    asRecord names start field finish (.object (l.map fun m => member m.1 m.2))
      = l.foldlM (fun d m => field d m.1 m.2) start >>= finish := by
  show (l.map fun m => member m.1 m.2).foldlM _ start >>= finish = _
  rw [List.foldlM_map]
  refine congrArg (· >>= finish) (Except.foldlM_congr (fun m hm d => ?_) start)
  have hname : names.contains m.1 = true := by simpa using h m hm
  exact if_pos hname

variable (names start field finish) in
/-- A record is read field by field where its fields stand in their order and the last ones may be
missing. -/
theorem asRecord_object (values : List Json) :
    asRecord names start field finish (.object ((names.zip values).map fun m => member m.1 m.2))
      = (names.zip values).foldlM (fun d m => field d m.1 m.2) start >>= finish :=
  asRecord_members fun _ hm => (List.of_mem_zip hm).1

/-- What becomes of a draft at a field that may be missing. -/
def given (field : σ → String → Json → Decoded σ) (d : σ) (m : String × Option Json) : Decoded σ :=
  m.2.elim (.ok d) (field d m.1)

theorem foldlM_given (l : List (String × Option Json)) (d : σ) :
    (l.flatMap fun m => (m.2.map (Prod.mk m.1)).toList).foldlM (fun d m => field d m.1 m.2) d
      = l.foldlM (given field) d := by
  induction l generalizing d with
  | nil => rfl
  | cons m l ih =>
    obtain ⟨name, o⟩ := m
    rw [List.flatMap_cons, List.foldlM_append, List.foldlM_cons]
    simp only [ih]
    cases o with
    | none => rfl
    | some v => exact congrArg (· >>= l.foldlM (given field)) (bind_pure (field d name v))

/-- A record any of whose fields may be missing. -/
theorem asRecord_given {l : List (String × Option Json)} (h : ∀ m ∈ l, m.1 ∈ names) :
    asRecord names start field finish
        (.object (l.flatMap fun m => (m.2.map (member m.1)).toList))
      = l.foldlM (given field) start >>= finish := by
  have hmembers : l.flatMap (fun m => (m.2.map (member m.1)).toList)
      = (l.flatMap fun m => (m.2.map (Prod.mk m.1)).toList).map fun m => member m.1 m.2 := by
    rw [List.map_flatMap]
    refine congrArg (l.flatMap ·) (funext fun m => ?_)
    cases m.2 <;> rfl
  rw [hmembers, asRecord_members, foldlM_given]
  intro m hm
  obtain ⟨m', hm', hm⟩ := List.mem_flatMap.1 hm
  obtain ⟨v, -, rfl⟩ := Option.map_eq_some_iff.1 (Option.mem_toList.1 hm)
  exact h m' hm'

/-- A field that may be missing, and that is decoded as it was encoded where it is not. -/
theorem foldlM_given_cons {β γ : Type} {name : String} {decode : Json → Decoded β}
    {encode : γ → Json} {f : γ → β} {o : Option γ} {l : List (String × Option Json)}
    (set : Option β → σ) (h : ∀ c ∈ o, decode (encode c) = .ok (f c))
    (hfield : ∀ v, field (set none) name v = once none (decode v) >>= fun b => .ok (set b)) :
    ((name, o.map encode) :: l).foldlM (given field) (set none)
      = l.foldlM (given field) (set (o.map f)) := by
  cases o with
  | none => rfl
  | some c =>
    show field (set none) name (encode c) >>= _ = _
    rw [hfield, h c rfl]
    rfl

/-- The values one level inside of a value. -/
def parts : Json → List Json
  | .list elements => elements
  | .object members => members.map Prod.snd
  | .null | .boolean _ | .integer _ | .real _ | .text _ | .illegible | .cut => []

/-- What holds of the empty draft, and is kept by each field, holds when a record is finished. -/
theorem draft_of_parts {v : Json} {a : α} (h : asRecord names start field finish v = .ok a)
    (Inv : σ → Prop) (hstart : Inv start)
    (hfield : ∀ {d name w d'}, name ∈ names → w ∈ v.parts → Inv d → field d name w = .ok d' →
      Inv d') :
    ∃ d, Inv d ∧ finish d = .ok a := by
  cases v with
  | null | boolean | integer | real | text | illegible | cut => cases h
  | list elements =>
    obtain ⟨d, hd, h⟩ := Except.bind_eq_ok_iff.1 h
    obtain ⟨a', ha', h⟩ := Except.bind_eq_ok_iff.1 h
    have hsame : a' = a := by
      split at h
      · cases h
      · exact Except.ok.inj h
    refine ⟨d, Except.foldlM_inv Inv hd hstart fun m hm d d' hinv hstep => ?_, hsame ▸ ha'⟩
    obtain ⟨hname, hpart⟩ := List.of_mem_zip hm
    exact hfield hname hpart hinv hstep
  | object members =>
    obtain ⟨d, hd, h⟩ := Except.bind_eq_ok_iff.1 h
    refine ⟨d, Except.foldlM_inv Inv hd hstart fun m hm d d' hinv hstep => ?_, h⟩
    obtain ⟨name, w⟩ := m
    dsimp only at hstep
    split at hstep
    · split at hstep
      next hname =>
        exact hfield (by simpa using hname) (List.mem_map_of_mem hm) hinv hstep
      · split at hstep
        · exact Except.ok.inj hstep ▸ hinv
        · cases hstep
    · cases hstep

end Records

theorem asOptional_of_ne_null {α : Type} {decode : Json → Decoded α} {v : Json} (h : v ≠ .null) :
    asOptional decode v = (decode v).map some := by
  unfold asOptional
  split
  · exact absurd rfl h
  · rfl

/-! ## Lists and members -/

variable {α β : Type} {decode : Json → Decoded β} (encode : α → Json) {f : α → β} {P : α → Prop}
  [DecidablePred P]

theorem asList_map {l : List α}
    (h : ∀ a ∈ l, decode (encode a) = if P a then .ok (f a) else .error .mismatch) :
    asList decode (.list (l.map encode))
      = if ∀ a ∈ l, P a then .ok (l.map f) else .error .mismatch := by
  show (l.map encode).mapM decode = _
  rw [List.mapM_map]
  exact Except.mapM_eq_ite h

/-- Members are read one by one, each under its name. -/
theorem asMembers_object_eq_ok_iff {members : List (Json × Json)} {l : List (String × β)} :
    asMembers decode (.object members) = .ok l ↔
      List.Forall₂ (fun m e => m.1 = .text e.1 ∧ decode m.2 = .ok e.2) members l := by
  rw [asMembers, Except.mapM_eq_ok_iff]
  refine iff_of_eq (congrArg (List.Forall₂ · members l) (funext₂ fun m e => propext ?_))
  obtain ⟨name, v⟩ := m
  obtain ⟨s, b⟩ := e
  cases name with
  | text s' =>
    show (decode v).map (fun b => (s', b)) = .ok (s, b) ↔ _
    rw [Except.map_eq_ok_iff]
    simp [and_comm, eq_comm]
  | null | boolean | integer | real | list | object | illegible | cut => simp

theorem asMembers_map {l : List (String × α)}
    (h : ∀ e ∈ l, decode (encode e.2) = if P e.2 then .ok (f e.2) else .error .mismatch) :
    asMembers decode (.object (l.map fun e => member e.1 (encode e.2)))
      = if ∀ e ∈ l, P e.2 then .ok (l.map fun e => (e.1, f e.2)) else .error .mismatch := by
  show (l.map fun e => member e.1 (encode e.2)).mapM _ = _
  rw [List.mapM_map]
  refine Except.mapM_eq_ite fun e he => ?_
  show (decode (encode e.2)).map (fun b => (e.1, b)) = _
  rw [h e he]
  split <;> rfl

/-- What is read element by element as it was is read as the same list. -/
theorem asList_map_self {decode : Json → Decoded α} {l : List α}
    (h : ∀ a ∈ l, decode (encode a) = .ok a) : asList decode (.list (l.map encode)) = .ok l := by
  show (l.map encode).mapM decode = _
  rw [List.mapM_map]
  exact Except.mapM_eq_ok_self h

theorem asMembers_map_self {decode : Json → Decoded α} {l : List (String × α)}
    (h : ∀ e ∈ l, decode (encode e.2) = .ok e.2) :
    asMembers decode (.object (l.map fun e => member e.1 (encode e.2))) = .ok l := by
  show (l.map fun e => member e.1 (encode e.2)).mapM _ = _
  rw [List.mapM_map]
  refine Except.mapM_eq_ok_self fun e he => ?_
  show (decode (encode e.2)).map (fun a => (e.1, a)) = _
  rw [h e he]
  rfl

end Json
end TreeFlow
