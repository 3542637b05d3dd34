import TreeFlow.Proofs.Binary64.Finite
import TreeFlow.Proofs.Json.Decode
/-
The numbers of values that were read.

A number of a text becomes an integer only if it fits a word, and any other number only if it is
finite; what fits neither is illegible.  The scanner and the reader pass values on without looking
into them, so this holds for everything that is read (`read_sized`), and decoders find finite
numbers only (`isFinite_of_asFloat`).
-/

namespace TreeFlow
namespace Json

/-- All integers of a value are words, and all its other numbers are finite. -/
inductive Sized : Json → Prop
  | null : Sized .null
  | boolean {b : Bool} : Sized (.boolean b)
  | integer {n : Int} (h : isWord n = true) : Sized (.integer n)
  | real {x : Float} (h : x.isFinite = true) : Sized (.real x)
  | text {s : String} : Sized (.text s)
  | list {elements : List Json} (h : ∀ v ∈ elements, Sized v) : Sized (.list elements)
  | object {members : List (Json × Json)} (h : ∀ m ∈ members, Sized m.2) : Sized (.object members)
  | illegible : Sized .illegible
  | cut : Sized .cut

/-! ## Tokens -/

theorem sized_approximate (cs : List Char) : (numberValue.approximate cs).Sized := by
  unfold numberValue.approximate
  split
  · split
    · exact .real ‹_›
    · exact .illegible
  · exact .illegible

theorem sized_numberValue (cs : List Char) : (numberValue cs).Sized := by
  unfold numberValue
  extract_lets exact
  cases exact with
  | none => exact sized_approximate cs
  | some n =>
    show (if _ then Json.integer n else numberValue.approximate cs).Sized
    split
    · rename_i h
      exact .integer (Bool.and_eq_true_iff.1 h).1
    · exact sized_approximate cs

theorem sized_textValue (d : TextDraft) : d.value.Sized := by
  unfold TextDraft.value
  split
  · exact .text
  · exact .illegible

def Token.Sized : Token → Prop
  | .name value | .scalar value => value.Sized
  | _ => True

theorem sized_scalar (cs : List Char) : (Token.scalar (numberValue cs)).Sized :=
  sized_numberValue cs

/-- All tokens so far are sized, and so is the value of the word that is being read. -/
structure Scan.Sized (s : Scan) : Prop where
  tokens : ∀ t ∈ s.reversed, t.Sized
  word : ∀ expected value, s.mode = .word expected value → value.Sized

variable {s : Scan} {R : List Token} {t : Token}

theorem sized_put (h : ∀ t ∈ R, t.Sized) (ht : t.Sized) : Scan.Sized ⟨.between, t :: R⟩ :=
  ⟨List.forall_mem_cons.2 ⟨ht, h⟩, nofun⟩

theorem sized_refuse (h : ∀ t ∈ s.reversed, t.Sized) : s.refuse.Sized :=
  ⟨List.forall_mem_cons.2 ⟨trivial, h⟩, nofun⟩

theorem sized_word {expected : List Char} {v : Json} (h : ∀ t ∈ R, t.Sized) (hv : v.Sized) :
    Scan.Sized ⟨.word expected v, R⟩ := by
  refine ⟨h, fun expected' v' hmode => ?_⟩
  obtain ⟨-, rfl⟩ := Mode.word.inj hmode
  exact hv

theorem sized_begin (h : ∀ t ∈ s.reversed, t.Sized) (unit : Option Char) :
    (s.begin unit).Sized := by
  unfold Scan.begin
  split
  · exact sized_refuse h
  · split
    case h_1 | h_2 | h_3 | h_4 => exact ⟨h, nofun⟩
    case h_5 | h_6 | h_7 | h_8 | h_9 | h_10 => exact sized_put h trivial
    case h_11 => exact ⟨h, nofun⟩
    case h_12 => exact sized_word h .null
    case h_13 | h_14 => exact sized_word h .boolean
    case h_15 | h_16 => exact ⟨h, nofun⟩
    case h_17 =>
      split
      · exact ⟨h, nofun⟩
      · exact sized_refuse h

theorem sized_step (h : s.Sized) (unit : Option Char) : (s.step unit).Sized := by
  obtain ⟨htokens, hword⟩ := h
  unfold Scan.step
  split
  · exact sized_begin htokens unit
  · rename_i expected value hmode
    have hvalue : value.Sized := hword _ _ hmode
    split
    · split
      · exact sized_put htokens hvalue
      · exact sized_refuse htokens
    · split
      · exact sized_word htokens hvalue
      · exact sized_refuse htokens
    · exact sized_refuse htokens
  · split
    · exact ⟨htokens, nofun⟩
    · split
      · exact sized_begin (sized_put htokens (sized_scalar _)).tokens unit
      · exact sized_refuse htokens
  · split
    · exact sized_put htokens (sized_textValue _)
    · exact ⟨htokens, nofun⟩
    · split
      · exact sized_refuse htokens
      · exact ⟨htokens, nofun⟩
    · exact ⟨htokens, nofun⟩
  · split
    · exact ⟨htokens, nofun⟩
    · split
      · exact ⟨htokens, nofun⟩
      · exact sized_refuse htokens
    · exact sized_refuse htokens
  · split
    · exact sized_refuse htokens
    · dsimp only
      split
      · exact ⟨htokens, nofun⟩
      · exact ⟨htokens, nofun⟩
  · exact ⟨htokens, hword⟩

theorem sized_tokens (units : List (Option Char)) : ∀ t ∈ tokens units, t.Sized := by
  have hscan : (units.foldl Scan.step ⟨.between, []⟩).Sized :=
    List.foldlRecOn units Scan.step ⟨nofun, nofun⟩ fun s hs unit _ => sized_step hs unit
  intro t ht
  rw [tokens, Scan.finish, List.mem_reverse] at ht
  generalize units.foldl Scan.step ⟨.between, []⟩ = s at hscan ht
  obtain ⟨htokens, -⟩ := hscan
  split at ht
  · exact htokens t ht
  · exact htokens t ht
  · split at ht
    · exact (sized_put htokens (sized_scalar _)).tokens t ht
    · exact List.forall_mem_cons.2 ⟨trivial, htokens⟩ t ht
  all_goals exact List.forall_mem_cons.2 ⟨trivial, htokens⟩ t ht

/-! ## Values -/

def Frame.Sized : Frame → Prop
  | .list reversed => ∀ v ∈ reversed, v.Sized
  | .object reversed _ => ∀ m ∈ reversed, m.2.Sized

def Progress.Sized : Progress → Prop
  | .inside frames _ => ∀ f ∈ frames, f.Sized
  | .behind v _ => v.Sized

variable {frames : List Frame} {v : Json}

theorem sized_list {reversed : List Json} (h : ∀ v ∈ reversed, v.Sized) :
    (Json.list reversed.reverse).Sized :=
  .list fun v hv => h v (List.mem_reverse.1 hv)

theorem sized_object {reversed : List (Json × Json)} (h : ∀ m ∈ reversed, m.2.Sized) :
    (Json.object reversed.reverse).Sized :=
  .object fun m hm => h m (List.mem_reverse.1 hm)

theorem sized_supply (h : ∀ f ∈ frames, f.Sized) (hv : v.Sized) : (supply v frames).Sized := by
  cases frames with
  | nil => exact hv
  | cons f frames =>
    obtain ⟨hf, hframes⟩ := List.forall_mem_cons.1 h
    cases f with
    | list reversed =>
      exact List.forall_mem_cons.2 ⟨List.forall_mem_cons.2 ⟨hv, hf⟩, hframes⟩
    | object reversed name =>
      cases name with
      | none => exact List.forall_mem_cons.2 ⟨hf, hframes⟩
      | some name => exact List.forall_mem_cons.2 ⟨List.forall_mem_cons.2 ⟨hv, hf⟩, hframes⟩

theorem sized_close (h : ∀ f ∈ frames, f.Sized) (hv : v.Sized) : (close v frames).Sized := by
  induction frames generalizing v with
  | nil => exact hv
  | cons f frames ih =>
    obtain ⟨hf, hframes⟩ := List.forall_mem_cons.1 h
    cases f with
    | list reversed => exact ih hframes (sized_list (List.forall_mem_cons.2 ⟨hv, hf⟩))
    | object reversed name =>
      cases name with
      | none => exact ih hframes (sized_object (List.forall_mem_cons.2 ⟨.cut, hf⟩))
      | some name => exact ih hframes (sized_object (List.forall_mem_cons.2 ⟨hv, hf⟩))

theorem sized_closeList {reversed : List Json} (h : ∀ f ∈ Frame.list reversed :: frames, f.Sized) :
    (supply (.list reversed.reverse) frames).Sized := by
  obtain ⟨hf, hframes⟩ := List.forall_mem_cons.1 h
  exact sized_supply hframes (sized_list hf)

theorem sized_closeObject {reversed : List (Json × Json)} {name : Option Json}
    (h : ∀ f ∈ Frame.object reversed name :: frames, f.Sized) :
    (supply (.object reversed.reverse) frames).Sized := by
  obtain ⟨hf, hframes⟩ := List.forall_mem_cons.1 h
  exact sized_supply hframes (sized_object hf)

theorem sized_beginValue (h : ∀ f ∈ frames, f.Sized) (ht : t.Sized) :
    (beginValue frames t).Sized := by
  cases t with
  | name v => exact sized_supply h ht
  | scalar v => exact sized_supply h ht
  | openList => exact List.forall_mem_cons.2 ⟨nofun, h⟩
  | openObject => exact List.forall_mem_cons.2 ⟨nofun, h⟩
  | closeList | closeObject | comma | colon | refused => exact sized_close h .cut

theorem sized_glimpse (ht : t.Sized) : t.glimpse.Sized := by
  have hcut : ∀ v ∈ [Json.cut], v.Sized := List.forall_mem_singleton.2 .cut
  cases t with
  | name v => exact ht
  | scalar v => exact ht
  | openList => exact .list hcut
  | openObject => exact .object (List.forall_mem_singleton.2 .cut)
  | closeList | closeObject | comma | colon | refused => exact .cut

theorem sized_beginName (h : ∀ f ∈ frames, f.Sized) (ht : t.Sized) :
    (beginName frames t).Sized := by
  unfold beginName
  split
  · exact sized_supply h ht
  · exact sized_close h (sized_glimpse ht)

theorem sized_progressStep {p : Progress} (hp : p.Sized) (ht : t.Sized) : (p.step t).Sized := by
  cases p with
  | behind v trailing => exact hp
  | inside frames want =>
    have hp : ∀ f ∈ frames, f.Sized := hp
    unfold Progress.step
    dsimp only
    split
    case h_1 | h_10 => exact sized_closeList hp
    case h_2 | h_3 => exact sized_beginValue hp ht
    case h_4 | h_11 => exact sized_closeObject hp
    case h_5 | h_6 => exact sized_beginName hp ht
    case h_7 | h_8 | h_9 => exact hp
    case h_12 => exact sized_close hp .cut

theorem read_sized (units : List (Option Char)) : (read units).value.Sized := by
  have hprogress : ((tokens units).foldl Progress.step (.inside [] .value)).Sized :=
    List.foldlRecOn (tokens units) Progress.step nofun fun p hp t ht =>
      sized_progressStep hp (sized_tokens units t ht)
  rw [read]
  generalize (tokens units).foldl Progress.step (.inside [] .value) = p at hprogress
  cases p with
  | behind v trailing => exact hprogress
  | inside frames want => exact sized_close hprogress .cut

/-! ## Decoders -/

/-- What is decoded from a text is decoded from a sized value. -/
theorem exists_sized_of_decode {α : Type} {decoder : Json → Decoded α}
    {units : List (Option Char)} {a : α} (h : decode decoder units = .ok a) :
    ∃ v, v.Sized ∧ decoder v = .ok a := by
  obtain ⟨a', ha', h⟩ := Except.bind_eq_ok_iff.1 h
  split at h
  · cases h
  · obtain rfl := Except.ok.inj h
    exact ⟨(read units).value, read_sized units, ha'⟩

theorem natAbs_lt_of_isWord {n : Int} (h : isWord n = true) : n.natAbs < 2 ^ 64 := by
  obtain ⟨hlow, hhigh⟩ := Bool.and_eq_true_iff.1 h
  have hlow : Int64.minValue.toInt ≤ n := of_decide_eq_true hlow
  have hhigh : n < UInt64.size := of_decide_eq_true hhigh
  have hmin : Int64.minValue.toInt = -2 ^ 63 := by decide
  have hsize : UInt64.size = 2 ^ 64 := by decide
  omega

theorem isFinite_of_asFloat {x : Float} (hv : v.Sized) (h : asFloat v = .ok x) :
    x.isFinite = true := by
  cases hv with
  | integer hn =>
    obtain rfl := Except.ok.inj h
    exact Binary64.isFinite_ofInt (natAbs_lt_of_isWord hn)
  | real hx =>
    obtain rfl := Except.ok.inj h
    exact hx
  | null | boolean | text | list | object | illegible | cut => cases h

/-- The form in which drafts hold a number. -/
theorem forall_isFinite_of_asFloat {x : Float} (hv : v.Sized) (h : asFloat v = .ok x) :
    ∀ y ∈ some x, y.isFinite = true :=
  fun _ hy => Option.some.inj hy ▸ isFinite_of_asFloat hv h

theorem once_eq_ok_iff {α : Type} {present o : Option α} {decoded : Decoded α} :
    once present decoded = .ok o ↔ present = none ∧ ∃ a, decoded = .ok a ∧ o = some a := by
  cases present with
  | some a => simp [once]
  | none =>
    cases decoded with
    | error e => simp [once, Except.map]
    | ok a => simp [once, Except.map, eq_comm]

/-- A field that is read into a draft is decoded first. -/
theorem exists_of_once {σ α : Type} {present : Option α} {decoded : Decoded α} {set : Option α → σ}
    {d : σ} (h : (once present decoded >>= fun o => .ok (set o)) = .ok d) :
    ∃ a, decoded = .ok a ∧ d = set (some a) := by
  obtain ⟨o, ho, h⟩ := Except.bind_eq_ok_iff.1 h
  obtain ⟨-, a, ha, rfl⟩ := once_eq_ok_iff.1 ho
  exact ⟨a, ha, (Except.ok.inj h).symm⟩

theorem required_eq_ok_iff {α : Type} {o : Option α} {a : α} : required o = .ok a ↔ o = some a := by
  cases o <;> simp [required]

theorem Sized.of_mem_parts (hv : v.Sized) {w : Json} (hw : w ∈ v.parts) : w.Sized := by
  cases hv with
  | null | boolean | integer | real | text | illegible | cut => cases hw
  | list helements => exact helements w hw
  | object hmembers =>
    obtain ⟨m, hm, rfl⟩ := List.mem_map.1 hw
    exact hmembers m hm

/-- The fields of a record are as finite as the record. -/
theorem draft_of_asRecord {σ α : Type} {names : List String} {start : σ}
    {field : σ → String → Json → Decoded σ} {finish : σ → Decoded α} {a : α}
    (h : asRecord names start field finish v = .ok a) (hv : v.Sized) (Inv : σ → Prop)
    (hstart : Inv start)
    (hfield : ∀ {d name v d'}, v.Sized → Inv d → field d name v = .ok d' → Inv d') :
    ∃ d, Inv d ∧ finish d = .ok a :=
  draft_of_parts h Inv hstart fun _ hw => hfield (hv.of_mem_parts hw)

theorem of_asOptional {α : Type} {decode : Json → Decoded α} {o : Option α}
    (h : asOptional decode v = .ok o) : ∀ a ∈ o, v ≠ .null ∧ decode v = .ok a := by
  intro a ha
  obtain rfl := Option.mem_def.1 ha
  unfold asOptional at h
  split at h
  · cases h
  · rename_i hne
    cases hv : decode v with
    | error e =>
      rw [hv] at h
      cases h
    | ok a' =>
      rw [hv] at h
      obtain rfl := Option.some.inj (Except.ok.inj h)
      exact ⟨hne, rfl⟩

theorem forall_of_asList {α : Type} {decode : Json → Decoded α} {P : α → Prop}
    (hdecode : ∀ {v a}, v.Sized → decode v = .ok a → P a) {l : List α} (hv : v.Sized)
    (h : asList decode v = .ok l) : ∀ a ∈ l, P a := by
  cases hv with
  | null | boolean | integer | real | text | object | illegible | cut => cases h
  | list helements =>
    intro a ha
    obtain ⟨w, hw, hdecoded⟩ := Except.exists_of_mem_mapM h ha
    exact hdecode (helements w hw) hdecoded

theorem forall_of_asMembers {α : Type} {decode : Json → Decoded α} {P : α → Prop}
    (hdecode : ∀ {v a}, v.Sized → decode v = .ok a → P a) {l : List (String × α)} (hv : v.Sized)
    (h : asMembers decode v = .ok l) : ∀ e ∈ l, P e.2 := by
  cases hv with
  | null | boolean | integer | real | text | list | illegible | cut => cases h
  | object hmembers =>
    intro e he
    obtain ⟨⟨name, w⟩, hm, hdecoded⟩ := Except.exists_of_mem_mapM h he
    dsimp only at hdecoded
    split at hdecoded
    · cases hw : decode w with
      | error e => rw [hw] at hdecoded; cases hdecoded
      | ok a =>
        rw [hw] at hdecoded
        obtain rfl := Except.ok.inj hdecoded
        exact hdecode (hmembers _ hm) hw
    · cases hdecoded

end Json
end TreeFlow
