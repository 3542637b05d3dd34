import TreeFlow.Graph.Document
import TreeFlow.Proofs.Json.Text
import TreeFlow.Proofs.Literal
import TreeFlow.Proofs.Report.Document
/-
Documents that are read, written and read again.

Reading settles what a text leaves open: fields that are missing get their defaults, lists become
records, and `null` becomes a literal that is not there.  What a document then holds is finite, and
a parameter holds no literal that would be taken for a missing one (`Settled`).  Every settled
document is read back as it is, because writing leaves out exactly what reading assumes
(`documents_read_back`).
-/

namespace TreeFlow

open Json (Decoded)

/-! ## What is read is settled -/

namespace Position

structure Draft.IsFinite (d : Draft) : Prop where
  x : ∀ x ∈ d.x, x.isFinite = true
  y : ∀ y ∈ d.y, y.isFinite = true

theorem Draft.IsFinite.field {d d' : Draft} {name : String} {v : Json} (hv : v.Sized)
    (hd : d.IsFinite) (h : d.field name v = .ok d') : d'.IsFinite := by
  unfold Draft.field at h
  split at h
  · obtain ⟨x, hx, rfl⟩ := Json.exists_of_once h
    exact { hd with x := Json.forall_isFinite_of_asFloat hv hx }
  · obtain ⟨y, hy, rfl⟩ := Json.exists_of_once h
    exact { hd with y := Json.forall_isFinite_of_asFloat hv hy }
  · exact Except.ok.inj h ▸ hd

theorem isFinite_of_ofJson {v : Json} {p : Position} (hv : v.Sized) (h : ofJson v = .ok p) :
    p.IsFinite := by
  obtain ⟨d, hd, hfinish⟩ := Json.draft_of_asRecord h hv Draft.IsFinite ⟨nofun, nofun⟩
    fun hv hd h => hd.field hv h
  obtain ⟨x, hx, hfinish⟩ := Except.bind_eq_ok_iff.1 hfinish
  obtain ⟨y, hy, hfinish⟩ := Except.bind_eq_ok_iff.1 hfinish
  obtain rfl := Except.ok.inj hfinish
  exact ⟨hd.x x (Json.required_eq_ok_iff.1 hx), hd.y y (Json.required_eq_ok_iff.1 hy)⟩

theorem isFinite_origin : origin.IsFinite := by decide +kernel

end Position

namespace ParamDocument

/-- A parameter whose literal is finite, and is no `null` on its own. -/
def Settled (p : ParamDocument) : Prop := ∀ l ∈ p.persistent, l.IsFinite ∧ l ≠ .scalar .null

def Draft.Settled (d : Draft) : Prop :=
  ∀ l ∈ d.persistent.join, l.IsFinite ∧ l ≠ .scalar .null

theorem Draft.Settled.field {d d' : Draft} {name : String} {v : Json} (hv : v.Sized)
    (hd : d.Settled) (h : d.field name v = .ok d') : d'.Settled := by
  unfold Draft.field at h
  extract_lets optionalText at h
  split at h
  case h_6 =>
    obtain ⟨o, ho, rfl⟩ := Json.exists_of_once h
    intro l hl
    obtain ⟨hne, hread⟩ := Json.of_asOptional ho l hl
    obtain ⟨hfinite, hnull⟩ := Literal.isFinite_of_ofJson hv hread
    exact ⟨hfinite, fun heq => hne (hnull heq)⟩
  case h_10 => exact Except.ok.inj h ▸ hd
  all_goals
    obtain ⟨_, -, rfl⟩ := Json.exists_of_once h
    exact hd

theorem settled_of_ofJson {v : Json} {p : ParamDocument} (hv : v.Sized) (h : ofJson v = .ok p) :
    p.Settled := by
  obtain ⟨d, hd, hfinish⟩ := Json.draft_of_asRecord h hv Draft.Settled nofun
    fun hv hd h => hd.field hv h
  obtain ⟨direction, -, hfinish⟩ := Except.bind_eq_ok_iff.1 hfinish
  obtain ⟨name, -, hfinish⟩ := Except.bind_eq_ok_iff.1 hfinish
  obtain rfl := Except.ok.inj hfinish
  exact hd

end ParamDocument

namespace ComponentDocument

def Settled (c : ComponentDocument) : Prop := c.position.IsFinite ∧ ∀ p ∈ c.params, p.Settled

structure Draft.Settled (d : Draft) : Prop where
  position : ∀ p ∈ d.position, p.IsFinite
  params : ∀ params ∈ d.params, ∀ p ∈ params, p.Settled

theorem Draft.Settled.field {d d' : Draft} {name : String} {v : Json} (hv : v.Sized)
    (hd : d.Settled) (h : d.field name v = .ok d') : d'.Settled := by
  unfold Draft.field at h
  split at h
  case h_4 =>
    obtain ⟨p, hp, rfl⟩ := Json.exists_of_once h
    have hfinite := Position.isFinite_of_ofJson hv hp
    exact { hd with position := fun _ h => Option.some.inj h ▸ hfinite }
  case h_5 =>
    obtain ⟨params, hparams, rfl⟩ := Json.exists_of_once h
    have hsettled := Json.forall_of_asList ParamDocument.settled_of_ofJson hv hparams
    exact { hd with params := fun _ h => Option.some.inj h ▸ hsettled }
  case h_6 => exact Except.ok.inj h ▸ hd
  all_goals
    obtain ⟨_, -, rfl⟩ := Json.exists_of_once h
    exact { hd with }

theorem settled_of_ofJson {v : Json} {c : ComponentDocument} (hv : v.Sized)
    (h : ofJson v = .ok c) : c.Settled := by
  obtain ⟨d, hd, hfinish⟩ := Json.draft_of_asRecord h hv Draft.Settled ⟨nofun, nofun⟩
    fun hv hd h => hd.field hv h
  obtain ⟨guid, -, hfinish⟩ := Except.bind_eq_ok_iff.1 hfinish
  obtain ⟨typeName, -, hfinish⟩ := Except.bind_eq_ok_iff.1 hfinish
  obtain rfl := Except.ok.inj hfinish
  constructor
  · cases hposition : d.position with
    | none => exact Position.isFinite_origin
    | some p => exact hd.position p hposition
  · cases hparams : d.params with
    | none => exact fun _ hp => nomatch hp
    | some params => exact hd.params params hparams

end ComponentDocument

namespace GraphDocument

def Settled (g : GraphDocument) : Prop := ∀ c ∈ g.components, c.Settled

theorem settled_of_field {d d' : Option (List ComponentDocument)} {name : String} {v : Json}
    (hv : v.Sized) (hd : ∀ components ∈ d, ∀ c ∈ components, c.Settled)
    (h : field d name v = .ok d') : ∀ components ∈ d', ∀ c ∈ components, c.Settled := by
  unfold field at h
  split at h
  · obtain ⟨-, components, hcomponents, rfl⟩ := Json.once_eq_ok_iff.1 h
    have hsettled := Json.forall_of_asList ComponentDocument.settled_of_ofJson hv hcomponents
    exact fun _ h => Option.some.inj h ▸ hsettled
  · exact Except.ok.inj h ▸ hd

theorem settled_of_ofJson {v : Json} {g : GraphDocument} (hv : v.Sized) (h : ofJson v = .ok g) :
    g.Settled := by
  obtain ⟨d, hd, hfinish⟩ := Json.draft_of_asRecord h hv
    (fun d => ∀ components ∈ d, ∀ c ∈ components, c.Settled) nofun settled_of_field
  cases d with
  | none => cases hfinish
  | some components =>
    obtain rfl := Except.ok.inj hfinish
    exact hd components rfl

end GraphDocument

namespace InputsDocument

def Settled (d : InputsDocument) : Prop := ∀ e ∈ d.entries.entries, e.2.IsFinite

theorem isFinite_of_field {d d' : Option Literal} {name : String} {v : Json} (hv : v.Sized)
    (hd : ∀ l ∈ d, l.IsFinite) (h : field d name v = .ok d') : ∀ l ∈ d', l.IsFinite := by
  unfold field at h
  split at h
  · obtain ⟨-, l, hl, rfl⟩ := Json.once_eq_ok_iff.1 h
    have hfinite := (Literal.isFinite_of_ofJson hv hl).1
    exact fun _ h => Option.some.inj h ▸ hfinite
  · exact Except.ok.inj h ▸ hd

theorem isFinite_of_entryOfJson {v : Json} {l : Literal} (hv : v.Sized)
    (h : entryOfJson v = .ok l) : l.IsFinite := by
  obtain ⟨d, hd, hfinish⟩ := Json.draft_of_asRecord h hv (fun d => ∀ l ∈ d, l.IsFinite) nofun
    isFinite_of_field
  exact hd l (Json.required_eq_ok_iff.1 hfinish)

theorem settled_of_ofJson {v : Json} {d : InputsDocument} (hv : v.Sized) (h : ofJson v = .ok d) :
    d.Settled := by
  obtain ⟨listed, hlisted, h⟩ := Except.bind_eq_ok_iff.1 h
  obtain rfl := Except.ok.inj h
  intro e he
  exact Json.forall_of_asMembers isFinite_of_entryOfJson hv hlisted e
    (SortedMap.mem_of_mem_ofList he)

end InputsDocument

/-! ## What is settled is read back -/

theorem Source.ofJson_toJson (s : Source) : ofJson s.toJson = .ok s := rfl

/-- What is written of a value that a reader assumes to be `assumed`. -/
def unlessAssumed {α : Type} [DecidableEq α] (assumed a : α) : Option α :=
  if a = assumed then none else some a

theorem getD_unlessAssumed {α : Type} [DecidableEq α] (assumed a : α) :
    (unlessAssumed assumed a).getD assumed = a := by
  unfold unlessAssumed
  split
  · exact Eq.symm ‹_›
  · rfl

theorem join_map_some {α : Type} (o : Option α) : (o.map some).join = o := by
  cases o <;> rfl

namespace ParamDocument

/-- The fields of a parameter in the order in which they are written. -/
def given (p : ParamDocument) : List (String × Option Json) :=
  [("type", some (.text p.direction.name)), ("name", some (.text p.name)),
    ("guid", p.guid.map .text), ("value_type", p.valueType.map .text),
    ("sources", (unlessAssumed [] p.sources).map fun l => .list (l.map Source.toJson)),
    ("persistent_data", p.persistent.map Literal.toJson),
    ("mapping", (unlessAssumed .none p.mapping).map fun m => .text m.name),
    ("reverse", (unlessAssumed false p.reverse).map .boolean),
    ("expression", p.expression.map .text)]

theorem toJson_eq (p : ParamDocument) :
    p.toJson = .object (p.given.flatMap fun m => (m.2.map (Json.member m.1)).toList) := by
  have htext : ∀ name (o : Option String),
      optionalMember name o = ((o.map Json.text).map (Json.member name)).toList := by
    intro name o
    cases o <;> rfl
  have hsources : memberIf (!p.sources.isEmpty) "sources" (.list (p.sources.map Source.toJson))
      = (((unlessAssumed [] p.sources).map fun l => Json.list (l.map Source.toJson)).map
        (Json.member "sources")).toList := by
    cases p.sources <;> rfl
  have hpersistent : (p.persistent.map fun l => Json.member "persistent_data" l.toJson)
      = (p.persistent.map Literal.toJson).map (Json.member "persistent_data") := by
    rw [Option.map_map]
    rfl
  have hmapping : memberIf (p.mapping != .none) "mapping" (.text p.mapping.name)
      = (((unlessAssumed .none p.mapping).map fun m => Json.text m.name).map
        (Json.member "mapping")).toList := by
    cases p.mapping <;> rfl
  have hreverse : memberIf p.reverse "reverse" (.boolean true)
      = (((unlessAssumed false p.reverse).map Json.boolean).map
        (Json.member "reverse")).toList := by
    cases p.reverse <;> rfl
  unfold toJson given
  rw [htext, htext, htext, hsources, hpersistent, hmapping, hreverse]
  simp only [List.flatMap_cons, List.flatMap_nil, Option.map_some, Option.toList_some,
    List.cons_append, List.nil_append, List.append_nil, List.append_assoc]

/-- The draft of a parameter all of whose fields are read. -/
def drafted (p : ParamDocument) : Draft where
  direction := some p.direction
  name := some p.name
  guid := p.guid.map some
  valueType := p.valueType.map some
  sources := unlessAssumed [] p.sources
  persistent := p.persistent.map some
  mapping := unlessAssumed .none p.mapping
  reverse := unlessAssumed false p.reverse
  expression := p.expression.map some

theorem finish_drafted (p : ParamDocument) : p.drafted.finish = .ok p := by
  show Except.ok (ParamDocument.mk _ _ _ _ _ _ _ _ _) = _
  unfold drafted
  rw [join_map_some, join_map_some, join_map_some, join_map_some, getD_unlessAssumed,
    getD_unlessAssumed, getD_unlessAssumed]

theorem foldlM_given {p : ParamDocument} (h : p.Settled) :
    p.given.foldlM (Json.given Draft.field) .start = .ok p.drafted := by
  have hdirection : ∀ d ∈ some p.direction,
      Json.asWord Direction.ofName? (.text d.name) = .ok d := by
    intro d _
    rw [Json.asWord, d.ofName?_name]
    rfl
  have htext : ∀ {o : Option String}, ∀ s ∈ o,
      Json.asOptional Json.asText (.text s) = .ok (some s) := fun _ _ => rfl
  have hsources : ∀ l ∈ unlessAssumed [] p.sources,
      Json.asList Source.ofJson (.list (l.map Source.toJson)) = .ok l :=
    fun _ _ => Json.asList_map_self Source.toJson fun s _ => s.ofJson_toJson
  have hliteral : ∀ l ∈ p.persistent,
      Json.asOptional (Literal.ofJson literalRoom) l.toJson = .ok (some l) := by
    intro l hl
    obtain ⟨hfinite, hne⟩ := h l hl
    have hroom : 2 < literalRoom := by decide
    rw [Json.asOptional_of_ne_null (Literal.toJson_ne_null hfinite hne),
      Literal.ofJson_toJson hroom hfinite]
    rfl
  have hmapping : ∀ m ∈ unlessAssumed .none p.mapping,
      Json.asWord Mapping.ofName? (.text m.name) = .ok m := by
    intro m _
    rw [Json.asWord, m.ofName?_name]
    rfl
  have hreverse : ∀ b ∈ unlessAssumed false p.reverse, Json.asBoolean (.boolean b) = .ok b :=
    fun _ _ => rfl
  -- The draft behind each field but the last, in the order of the fields.
  let d₁ : Draft := { Draft.start with direction := some p.direction }
  let d₂ : Draft := { d₁ with name := some p.name }
  let d₃ : Draft := { d₂ with guid := p.guid.map some }
  let d₄ : Draft := { d₃ with valueType := p.valueType.map some }
  let d₅ : Draft := { d₄ with sources := (unlessAssumed [] p.sources).map id }
  let d₆ : Draft := { d₅ with persistent := p.persistent.map some }
  let d₇ : Draft := { d₆ with mapping := (unlessAssumed .none p.mapping).map id }
  let d₈ : Draft := { d₇ with reverse := (unlessAssumed false p.reverse).map id }
  calc p.given.foldlM (Json.given Draft.field) .start
    _ = (p.given.drop 1).foldlM (Json.given Draft.field) d₁ :=
      Json.foldlM_given_cons (fun o => { Draft.start with direction := o }) hdirection fun _ => rfl
    _ = (p.given.drop 2).foldlM (Json.given Draft.field) d₂ := rfl
    _ = (p.given.drop 3).foldlM (Json.given Draft.field) d₃ :=
      Json.foldlM_given_cons (fun o => { d₂ with guid := o }) htext fun _ => rfl
    _ = (p.given.drop 4).foldlM (Json.given Draft.field) d₄ :=
      Json.foldlM_given_cons (fun o => { d₃ with valueType := o }) htext fun _ => rfl
    _ = (p.given.drop 5).foldlM (Json.given Draft.field) d₅ :=
      Json.foldlM_given_cons (fun o => { d₄ with sources := o }) hsources fun _ => rfl
    _ = (p.given.drop 6).foldlM (Json.given Draft.field) d₆ :=
      Json.foldlM_given_cons (fun o => { d₅ with persistent := o }) hliteral fun _ => rfl
    _ = (p.given.drop 7).foldlM (Json.given Draft.field) d₇ :=
      Json.foldlM_given_cons (fun o => { d₆ with mapping := o }) hmapping fun _ => rfl
    _ = (p.given.drop 8).foldlM (Json.given Draft.field) d₈ :=
      Json.foldlM_given_cons (fun o => { d₇ with reverse := o }) hreverse fun _ => rfl
    _ = .ok { d₈ with expression := p.expression.map some } :=
      Json.foldlM_given_cons (fun o => { d₈ with expression := o }) htext fun _ => rfl
    _ = .ok p.drafted := by
      simp only [d₁, d₂, d₃, d₄, d₅, d₆, d₇, d₈, Option.map_id_apply, drafted]

theorem ofJson_toJson {p : ParamDocument} (h : p.Settled) : ofJson p.toJson = .ok p := by
  have hnames : ∀ m ∈ p.given, m.1 ∈ fields := by simp [given, fields]
  rw [toJson_eq]
  refine (Json.asRecord_given hnames).trans ?_
  rw [foldlM_given h]
  exact p.finish_drafted

end ParamDocument

namespace ComponentDocument

theorem ofJson_toJson {c : ComponentDocument} (h : c.Settled) : ofJson c.toJson = .ok c := by
  obtain ⟨hposition, hparams⟩ := h
  have hlist : Json.asList ParamDocument.ofJson (.list (c.params.map ParamDocument.toJson))
      = .ok c.params :=
    Json.asList_map_self ParamDocument.toJson fun p hp => ParamDocument.ofJson_toJson (hparams p hp)
  refine (Json.asRecord_object _ ⟨none, none, none, none, none⟩ Draft.field Draft.finish
    [.text c.guid, .text c.typeName, .text c.nickname, c.position.toJson,
      .list (c.params.map ParamDocument.toJson)]).trans ?_
  simp only [List.zip_cons_cons, List.zip_nil_right, List.foldlM_cons, List.foldlM_nil,
    Draft.field, Json.once_none, c.position.ofJson_toJson, if_pos hposition, hlist]
  rfl

end ComponentDocument

theorem GraphDocument.ofJson_toJson {g : GraphDocument} (h : g.Settled) :
    ofJson g.toJson = .ok g := by
  have hlist : Json.asList ComponentDocument.ofJson
      (.list (g.components.map ComponentDocument.toJson)) = .ok g.components :=
    Json.asList_map_self ComponentDocument.toJson fun c hc =>
      ComponentDocument.ofJson_toJson (h c hc)
  refine (Json.asRecord_object _ none field _
    [.list (g.components.map ComponentDocument.toJson)]).trans ?_
  simp only [List.zip_cons_cons, List.zip_nil_left, List.foldlM_cons, List.foldlM_nil, field,
    Json.once_none, hlist]
  rfl

namespace InputsDocument

theorem entryOfJson_object {l : Literal} (h : l.IsFinite) :
    entryOfJson (.object [Json.member "data" l.toJson]) = .ok l := by
  have hroom : 2 < literalRoom := by decide
  refine (Json.asRecord_object _ none field _ [l.toJson]).trans ?_
  simp only [List.zip_cons_cons, List.zip_nil_left, List.foldlM_cons, List.foldlM_nil, field,
    Json.once_none, Literal.ofJson_toJson hroom h]
  rfl

theorem ofJson_toJson {d : InputsDocument} (h : d.Settled) : ofJson d.toJson = .ok d := by
  have hentries : Json.asMembers entryOfJson d.toJson = .ok d.entries.entries :=
    Json.asMembers_map_self (fun l : Literal => .object [Json.member "data" l.toJson])
      fun e he => entryOfJson_object (h e he)
  unfold ofJson
  rw [hentries]
  show Except.ok (InputsDocument.mk (SortedMap.ofList d.entries.entries)) = _
  rw [SortedMap.ofList_entries]

end InputsDocument

/-! ## Texts -/

/-- What is read back from its value whenever it was read from a sized one is read back from every
text of it whenever it was read from a text. -/
theorem Json.reads_back {α : Type} {decoder : Json → Decoded α} {encode : α → Json}
    (hback : ∀ {v a}, v.Sized → decoder v = .ok a → decoder (encode a) = .ok a)
    {units : List (Option Char)} {a : α} (h : decode decoder units = .ok a) :
    decoder (encode a) = .ok a ∧ ∀ style, (encode a).spelled = true →
      decode decoder (Text.unitsOf ((encode a).write style "")) = .ok a := by
  obtain ⟨v, hv, hread⟩ := exists_sized_of_decode h
  refine ⟨hback hv hread, fun style hspelled => ?_⟩
  rw [decode_write decoder hspelled style]
  exact hback hv hread

/-- A document that was read is read back as it is, from its value and from every text of it. -/
theorem documents_read_back (units : List (Option Char)) :
    (∀ g, GraphDocument.read units = .ok g →
      GraphDocument.ofJson g.toJson = .ok g ∧ ∀ style, g.toJson.spelled = true →
        GraphDocument.read (Text.unitsOf (g.toJson.write style "")) = .ok g) ∧
    ∀ d, InputsDocument.read units = .ok d →
      InputsDocument.ofJson d.toJson = .ok d ∧ ∀ style, d.toJson.spelled = true →
        InputsDocument.read (Text.unitsOf (d.toJson.write style "")) = .ok d := by
  constructor
  · intro g h
    refine Json.reads_back (fun hv hread => ?_) h
    exact GraphDocument.ofJson_toJson (GraphDocument.settled_of_ofJson hv hread)
  · intro d h
    refine Json.reads_back (fun hv hread => ?_) h
    exact InputsDocument.ofJson_toJson (InputsDocument.settled_of_ofJson hv hread)

namespace Sample

/-- A component and a parameter as lists, a direction over `null`, a literal that is `null`, and a
point with an integer that no signed word holds. -/
def looseGraph : String :=
  "\x7b\"components\": [[\"a\", \"Data\", \"d\", [1.5, 2], ["
    ++ "\x7b\"type\": \x7b\"input\": null\x7d, \"name\": \"V\", \"persistent_data\": null\x7d, "
    ++ "[\"output\", \"R\", null, null, [], "
    ++ "\x7b\"(0)\": [[\"point\", 1, -2, 9223372036854775808]], \"(1)\": []\x7d]]]]\x7d"

def settledGraph : GraphDocument :=
  ⟨[⟨"a", "Data", "d", ⟨1.5, 2⟩,
    [⟨.input, "V", none, none, [], none, .none, false, none⟩,
      ⟨.output, "R", none, none, [], some (.branches (.ofList
        [("(0)", [.point ⟨1, -2, 9223372036854775808⟩]), ("(1)", [])])), .none, false, none⟩]⟩]⟩

def looseInputs : String :=
  "\x7b\"k\": \x7b\"data\": null\x7d, \"l\": [[true, 18446744073709551615, \"5\"]]\x7d"

def settledInputs : InputsDocument :=
  ⟨.ofList [("k", .scalar .null),
    ("l", .list [.boolean true, .number 18446744073709551615, .text "5"])]⟩

end Sample

theorem documents_read_back_sample :
    (GraphDocument.read (Text.unitsOf Sample.looseGraph) = .ok Sample.settledGraph ∧
      GraphDocument.read (Text.unitsOf Sample.settledGraph.toJson.pretty)
        = .ok Sample.settledGraph) ∧
    InputsDocument.read (Text.unitsOf Sample.looseInputs) = .ok Sample.settledInputs ∧
      InputsDocument.read (Text.unitsOf Sample.settledInputs.toJson.pretty)
        = .ok Sample.settledInputs := by
  have hgraph : GraphDocument.read (Text.unitsOf Sample.looseGraph) = .ok Sample.settledGraph := by
    decide +kernel
  have hinputs :
      InputsDocument.read (Text.unitsOf Sample.looseInputs) = .ok Sample.settledInputs := by
    decide +kernel
  obtain ⟨-, hgraphBack⟩ := (documents_read_back _).1 _ hgraph
  obtain ⟨-, hinputsBack⟩ := (documents_read_back _).2 _ hinputs
  refine ⟨⟨hgraph, hgraphBack (.indented 0) ?_⟩, hinputs, hinputsBack (.indented 0) ?_⟩
  · decide +kernel
  · decide +kernel

end TreeFlow
