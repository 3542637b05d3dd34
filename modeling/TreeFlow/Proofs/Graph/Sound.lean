import TreeFlow.Proofs.Graph.Offers
/-
Which documents load.

`GraphDocument.Sound` says what a document needs, and `GraphDocument.Violation` what is wrong with
a component that a rejection names.  Every rejection names a violation, and a sound document has
none, so the sound documents are those that load: `load_iff_sound`.  Neither side speaks of the
order in which loading looks at components, nor of what output parameters hold.
-/

namespace TreeFlow

/-! ## Conditions -/

namespace ParamDocument

def HoldsTree (p : ParamDocument) : Prop :=
  ∀ literal, p.persistent = some literal → literal.isBlank = false →
    ∃ t, literal.toTree = .ok t

def HoldsExpression (p : ParamDocument) : Prop :=
  ∀ text, p.expression = some text → Text.trim text ≠ "" →
    ∃ e, Expression.parse (Text.trim text) = .ok e

end ParamDocument

namespace GraphDocument

structure Sound (d : GraphDocument) : Prop where
  guids : (d.components.map ComponentDocument.guid).Nodup
  types : ∀ c ∈ d.components, ∃ k, Component.Kind.ofTag? c.typeName = some k
  literals : ∀ c ∈ d.components, ∀ p ∈ c.paramsOf .input, p.HoldsTree
  expressions : ∀ c ∈ d.components, ∀ p ∈ c.paramsOf .input, p.HoldsExpression
  sources : ∀ c ∈ d.components, ∀ p ∈ c.paramsOf .input, ∀ s ∈ p.sources,
    ∃ producer ∈ d.components, producer.guid = s.component ∧ producer.Offers s.output

/-- What is wrong with a component for which a document is rejected. -/
inductive Violation (d : GraphDocument) (c : ComponentDocument) : Defect → Prop
  | unknownType (hkind : Component.Kind.ofTag? c.typeName = none) :
    Violation d c (.unknownType c.typeName)
  /-- Another component stands before this one and has its guid. -/
  | duplicateId {before after : List ComponentDocument}
    (hplace : d.components = before ++ c :: after)
    (hguid : c.guid ∈ before.map ComponentDocument.guid) : Violation d c .duplicateId
  | missingProducer {p : ParamDocument} {s : Source} (hp : p ∈ c.paramsOf .input)
    (hs : s ∈ p.sources) (hnone : s.component ∉ d.components.map ComponentDocument.guid) :
    Violation d c (.missingProducer s.component)
  | missingOutput {p : ParamDocument} {s : Source} {producer : ComponentDocument}
    (hp : p ∈ c.paramsOf .input) (hs : s ∈ p.sources) (hproducer : producer ∈ d.components)
    (hguid : producer.guid = s.component) (hnone : ¬ producer.Offers s.output) :
    Violation d c (.missingOutput s.component s.output)
  | invalidExpression {p : ParamDocument} {text : String} {cause : Expression.Fault}
    (hp : p ∈ c.paramsOf .input) (htext : p.expression = some text)
    (hblank : Text.trim text ≠ "") (hparse : Expression.parse (Text.trim text) = .error cause) :
    Violation d c (.invalidExpression p.name cause)
  | invalidLiteral {p : ParamDocument} {literal : Literal} {cause : PathFault}
    (hp : p ∈ c.paramsOf .input) (hliteral : p.persistent = some literal)
    (hblank : literal.isBlank = false) (htree : literal.toTree = .error cause) :
    Violation d c (.invalidLiteral p.name cause)

theorem Violation.not_sound {d : GraphDocument} {c : ComponentDocument} {defect : Defect}
    (hc : c ∈ d.components) (h : d.Violation c defect) : ¬ d.Sound := by
  intro hd
  cases h with
  | unknownType hkind =>
    obtain ⟨k, hk⟩ := hd.types c hc
    rw [hkind] at hk
    cases hk
  | duplicateId hplace hguid =>
    have hguids := hd.guids
    rw [hplace, List.map_append, List.map_cons] at hguids
    exact List.disjoint_of_nodup_append hguids hguid List.mem_cons_self
  | missingProducer hp hs hnone =>
    obtain ⟨producer, hproducer, hguid, -⟩ := hd.sources c hc _ hp _ hs
    exact hnone (hguid ▸ List.mem_map_of_mem hproducer)
  | missingOutput hp hs hproducer hguid hnone =>
    obtain ⟨producer', hproducer', hguid', hoffers⟩ := hd.sources c hc _ hp _ hs
    -- Guids are distinct, so the component that offers the output is the one that does not.
    have hsame := List.inj_on_of_nodup_map hd.guids hproducer' hproducer (hguid'.trans hguid.symm)
    exact hnone (hsame ▸ hoffers)
  | invalidExpression hp htext hblank hparse =>
    obtain ⟨e, he⟩ := hd.expressions c hc _ hp _ htext hblank
    rw [hparse] at he
    cases he
  | invalidLiteral hp hliteral hblank htree =>
    obtain ⟨t, ht⟩ := hd.literals c hc _ hp _ hliteral hblank
    rw [htree] at ht
    cases ht

end GraphDocument

/-! ## Rejections -/

namespace InputParam

variable {component : String} {p : ParamDocument} {e : Failure}

theorem persistentOf_eq_error_iff : persistentOf component p = .error e ↔
    ∃ literal cause, p.persistent = some literal ∧ literal.isBlank = false ∧
      literal.toTree = .error cause ∧
      e = .malformedGraph component (.invalidLiteral p.name cause) := by
  unfold persistentOf
  cases p.persistent with
  | none => simp
  | some literal =>
    cases hblank : literal.isBlank with
    | true => simp [hblank]
    | false =>
      cases htree : literal.toTree with
      | ok t => simp [hblank, htree]
      | error cause => simp [hblank, htree, @eq_comm Failure]

theorem expressionOf_eq_error_iff : expressionOf component p = .error e ↔
    ∃ text cause, p.expression = some text ∧ Text.trim text ≠ "" ∧
      Expression.parse (Text.trim text) = .error cause ∧
      e = .malformedGraph component (.invalidExpression p.name cause) := by
  unfold expressionOf
  cases p.expression with
  | none => simp [Text.trim]
  | some text =>
    rw [Option.getD_some]
    by_cases hblank : Text.trim text = ""
    · simp [hblank]
    · have hempty : (Text.trim text).isEmpty = false := by simpa using hblank
      cases hparse : Expression.parse (Text.trim text) with
      | ok e => simp [hempty, hparse]
      | error cause => simp [hblank, hempty, hparse, @eq_comm Failure]

theorem ofDocument_eq_error {slot : Option Nat} (h : ofDocument component p slot = .error e) :
    persistentOf component p = .error e ∨ expressionOf component p = .error e := by
  unfold ofDocument at h
  rcases Except.bind_eq_error_iff.1 h with h | ⟨persistent, -, h⟩
  · exact .inl h
  · rcases Except.bind_eq_error_iff.1 h with h | ⟨expression, -, h⟩
    · exact .inr h
    · cases h

end InputParam

theorem Node.ofDocument_eq_error {c : ComponentDocument} {e : Failure}
    (h : Node.ofDocument c = .error e) :
    (Component.Kind.ofTag? c.typeName = none ∧
      e = .malformedGraph c.guid (.unknownType c.typeName)) ∨
    ∃ p ∈ c.paramsOf .input, InputParam.persistentOf c.guid p = .error e ∨
      InputParam.expressionOf c.guid p = .error e := by
  unfold Node.ofDocument at h
  cases hkind : Component.Kind.ofTag? c.typeName with
  | none =>
    simp only [hkind] at h
    exact .inl ⟨rfl, (Except.error.inj h).symm⟩
  | some kind =>
    simp only [hkind, Except.ok_bind] at h
    rcases Except.bind_eq_error_iff.1 h with h | ⟨inputs, -, h⟩
    · obtain ⟨⟨p, slot⟩, hp, h⟩ := Except.exists_of_mapM_eq_error h
      exact .inr ⟨p, (List.of_mem_zip hp).1, InputParam.ofDocument_eq_error h⟩
    · cases h

namespace Graph

variable {d : GraphDocument} {index : SortedMap String Nat} {nodes : List Node} {e : Failure}

/-- The first pass stops at a component whose guid was seen, or which is wrong by itself. -/
theorem nodesOf_eq_error {place : Nat} {cs : List ComponentDocument}
    (h : nodesOf index place cs = .error e) : ∃ before c after, cs = before ++ c :: after ∧
      (((index.contains c.guid = true ∨ c.guid ∈ before.map ComponentDocument.guid) ∧
        e = .malformedGraph c.guid .duplicateId) ∨ Node.ofDocument c = .error e) := by
  induction cs generalizing index place with
  | nil => cases h
  | cons c cs ih =>
    rw [nodesOf] at h
    split at h
    · rename_i hseen
      exact ⟨[], c, cs, rfl, .inl ⟨.inl hseen, (Except.error.inj h).symm⟩⟩
    · rcases Except.bind_eq_error_iff.1 h with h | ⟨n, -, h⟩
      · exact ⟨[], c, cs, rfl, .inr h⟩
      · rcases Except.bind_eq_error_iff.1 h with h | ⟨rest, -, h⟩
        · obtain ⟨before, c', after, hcs, hwrong⟩ := ih h
          refine ⟨c :: before, c', after, by rw [hcs, List.cons_append], ?_⟩
          refine hwrong.imp_left (And.imp_left fun hseen => ?_)
          rw [List.map_cons, List.mem_cons]
          rcases hseen with hold | hmem
          · by_cases heq : c'.guid = c.guid
            · exact .inr (.inl heq)
            · rw [SortedMap.contains, SortedMap.get?_insert_of_ne _ heq] at hold
              exact .inl hold
          · exact .inr (.inr hmem)
        · cases h

/-- The second pass stops at a source without a producer or without an output. -/
theorem wireOf_eq_error (hnodes : nodesOf .empty 0 d.components = .ok (nodes, index))
    {component : String} {s : Source} (h : wireOf index nodes component s = .error e) :
    (s.component ∉ nodes.map Node.guid ∧
      e = .malformedGraph component (.missingProducer s.component)) ∨
    ∃ n ∈ nodes, n.guid = s.component ∧ n.outputIndex? s.output = none ∧
      e = .malformedGraph component (.missingOutput s.component s.output) := by
  unfold wireOf at h
  split at h
  · rename_i hindex
    left
    refine ⟨fun hmem => ?_, (Except.error.inj h).symm⟩
    obtain ⟨i, hi⟩ := List.mem_iff_getElem?.1 hmem
    rw [(get?_of_nodesOf_empty hnodes).2 hi] at hindex
    cases hindex
  · rename_i i hindex
    rw [get?_of_nodesOf_empty hnodes, List.getElem?_map, Option.map_eq_some_iff] at hindex
    obtain ⟨n, hn, hguid⟩ := hindex
    rw [hn, Option.bind_some] at h
    split at h
    · rename_i hout
      exact .inr ⟨n, List.mem_of_getElem? hn, hguid, hout, (Except.error.inj h).symm⟩
    · cases h

theorem wired_eq_error {c : ComponentDocument} {n : Node}
    (h : wired index nodes c n = .error e) :
    ∃ p ∈ c.paramsOf .input, ∃ s ∈ p.sources, wireOf index nodes c.guid s = .error e := by
  unfold wired at h
  rcases Except.bind_eq_error_iff.1 h with h | ⟨inputs, -, h⟩
  · obtain ⟨⟨p, i⟩, hp, h⟩ := Except.exists_of_mapM_eq_error h
    rcases Except.bind_eq_error_iff.1 h with h | ⟨wires, -, h⟩
    · obtain ⟨s, hs, h⟩ := Except.exists_of_mapM_eq_error h
      exact ⟨p, (List.of_mem_zip hp).1, s, hs, h⟩
    · cases h
  · cases h

/-- A component for which the first pass rejects a document violates a condition. -/
theorem violation_of_nodesOf (h : nodesOf .empty 0 d.components = .error e) :
    ∃ c ∈ d.components, ∃ defect, e = .malformedGraph c.guid defect ∧ d.Violation c defect := by
  obtain ⟨before, c, after, hplace, hwrong⟩ := nodesOf_eq_error h
  refine ⟨c, by simp [hplace], ?_⟩
  rcases hwrong with ⟨hguid, he⟩ | hnode
  · have hmem : c.guid ∈ before.map ComponentDocument.guid := hguid.resolve_left nofun
    exact ⟨_, he, .duplicateId hplace hmem⟩
  · rcases Node.ofDocument_eq_error hnode with ⟨hkind, he⟩ | ⟨p, hp, hliteral | hexpression⟩
    · exact ⟨_, he, .unknownType hkind⟩
    · obtain ⟨l, cause, hl, hblank, htree, he⟩ := InputParam.persistentOf_eq_error_iff.1 hliteral
      exact ⟨_, he, .invalidLiteral hp hl hblank htree⟩
    · obtain ⟨text, cause, htext, hblank, hparse, he⟩ :=
        InputParam.expressionOf_eq_error_iff.1 hexpression
      exact ⟨_, he, .invalidExpression hp htext hblank hparse⟩

/-- So does one for which the second pass does. -/
theorem violation_of_wired (hnodes : nodesOf .empty 0 d.components = .ok (nodes, index))
    {c : ComponentDocument} {n : Node} (h : wired index nodes c n = .error e) :
    ∃ defect, e = .malformedGraph c.guid defect ∧ d.Violation c defect := by
  obtain ⟨p, hp, s, hs, h⟩ := wired_eq_error h
  rcases wireOf_eq_error hnodes h with ⟨hnone, he⟩ | ⟨n, hn, hguid, hout, he⟩
  -- The first pass keeps all guids and outputs, so what is missing there the document lacks.
  · rw [(nodesOf_guids hnodes).1] at hnone
    exact ⟨_, he, .missingProducer hp hs hnone⟩
  · obtain ⟨producer, hproducer, hn⟩ := exists_left_of_mem (nodesOf_forall₂ hnodes) hn
    obtain ⟨hkind, ⟨hguid', -⟩, -, houtputs⟩ := Node.ofDocument_spec hn
    have hoffers : ¬ producer.Offers s.output := by
      rw [← Node.isSome_outputIndex?_iff hkind houtputs, hout]
      exact Bool.false_ne_true
    exact ⟨_, he, .missingOutput hp hs hproducer (hguid'.symm.trans hguid) hoffers⟩

theorem exists_violation_of_load_error (h : load d = .error e) :
    ∃ c ∈ d.components, ∃ defect, e = .malformedGraph c.guid defect ∧ d.Violation c defect := by
  unfold load at h
  rcases Except.bind_eq_error_iff.1 h with h | ⟨⟨nodes, index⟩, hnodes, h⟩
  · exact violation_of_nodesOf h
  · rcases Except.bind_eq_error_iff.1 h with h | ⟨all, -, h⟩
    · obtain ⟨⟨c, n⟩, hcn, h⟩ := Except.exists_of_mapM_eq_error h
      exact ⟨c, (List.of_mem_zip hcn).1, violation_of_wired hnodes h⟩
    · cases h

theorem exists_load_of_sound (hd : d.Sound) : ∃ g, load d = .ok g := by
  cases h : load d with
  | ok g => exact ⟨g, rfl⟩
  | error e =>
    obtain ⟨c, hc, defect, -, hviolation⟩ := exists_violation_of_load_error h
    exact absurd hd (hviolation.not_sound hc)

/-! ## Documents that load -/

/-- A parameter of a component that was loaded. -/
theorem exists_param_loaded {g : Graph} {c : ComponentDocument} {n : Node} (hn : n.Loaded g c)
    {p : ParamDocument} (hp : p ∈ c.paramsOf .input) :
    ∃ slot, ∃ i ∈ n.inputs, i.Loaded g c.guid (p, slot) := by
  rw [← c.fst_placedInputs n.signature] at hp
  obtain ⟨⟨p, slot⟩, hplace, rfl⟩ := List.mem_map.1 hp
  obtain ⟨i, hi, hloaded⟩ := exists_right_of_mem hn.inputs hplace
  exact ⟨slot, i, hi, hloaded⟩

theorem sound_of_load {g : Graph} (h : load d = .ok g) : d.Sound := by
  have hg := load_wellFormed h
  have hparam : ∀ c ∈ d.components, ∀ p ∈ c.paramsOf .input,
      ∃ slot, ∃ i : InputParam, i.Loaded g c.guid (p, slot) := by
    intro c hc p hp
    obtain ⟨n, -, hn⟩ := exists_node_of_mem h hc
    obtain ⟨slot, i, -, hi⟩ := exists_param_loaded hn hp
    exact ⟨slot, i, hi⟩
  constructor
  · exact guids_of_load h ▸ hg.guids
  · intro c hc
    obtain ⟨n, -, hn⟩ := exists_node_of_mem h hc
    exact ⟨n.kind, hn.kind⟩
  · intro c hc p hp literal hliteral hblank
    obtain ⟨slot, i, hi⟩ := hparam c hc p hp
    obtain ⟨persistent, -, hpersistent, -⟩ := InputParam.ofDocument_eq_ok_iff.1 hi.document
    cases htree : literal.toTree with
    | ok t => exact ⟨t, rfl⟩
    | error cause =>
      have herror : InputParam.persistentOf c.guid p
          = .error (.malformedGraph c.guid (.invalidLiteral p.name cause)) :=
        InputParam.persistentOf_eq_error_iff.2 ⟨literal, cause, hliteral, hblank, htree, rfl⟩
      rw [herror] at hpersistent
      cases hpersistent
  · intro c hc p hp text htext hblank
    obtain ⟨slot, i, hi⟩ := hparam c hc p hp
    obtain ⟨-, expression, -, hexpression, -⟩ := InputParam.ofDocument_eq_ok_iff.1 hi.document
    cases hparse : Expression.parse (Text.trim text) with
    | ok e => exact ⟨e, rfl⟩
    | error cause =>
      have herror : InputParam.expressionOf c.guid p
          = .error (.malformedGraph c.guid (.invalidExpression p.name cause)) :=
        InputParam.expressionOf_eq_error_iff.2 ⟨text, cause, htext, hblank, hparse, rfl⟩
      rw [herror] at hexpression
      cases hexpression
  · intro c hc p hp s hs
    obtain ⟨slot, i, hi⟩ := hparam c hc p hp
    obtain ⟨w, -, hw⟩ := exists_right_of_mem hi.sources hs
    obtain ⟨hindex, n, hn, hout⟩ := wire?_eq_some_iff.1 hw
    obtain ⟨n', hn', hguid⟩ := (hg.indexed _ _).1 hindex
    obtain rfl : n = n' := Option.some.inj (hn.symm.trans hn')
    obtain ⟨producer, hproducer, hloaded⟩ := exists_loaded_of_mem h (List.mem_of_getElem? hn)
    refine ⟨producer, hproducer, hloaded.header.1.symm.trans hguid, ?_⟩
    rw [← Node.isSome_outputIndex?_iff hloaded.kind hloaded.outputs, hout]
    rfl

end Graph

/-! ## Output parameters -/

/-- A parameter without what only input parameters are read for. -/
def ParamDocument.bare (p : ParamDocument) : ParamDocument :=
  if p.direction = .output then { p with sources := [], persistent := none, expression := none }
  else p

def ComponentDocument.bare (c : ComponentDocument) : ComponentDocument :=
  { c with params := c.params.map ParamDocument.bare }

/-- A document whose output parameters hold no sources, literals and expressions. -/
def GraphDocument.bare (d : GraphDocument) : GraphDocument :=
  ⟨d.components.map ComponentDocument.bare⟩

namespace ComponentDocument

variable (c : ComponentDocument)

theorem paramsOf_bare (direction : Direction) :
    c.bare.paramsOf direction = (c.paramsOf direction).map ParamDocument.bare := by
  have hdirection : (fun p : ParamDocument => p.direction == direction) ∘ ParamDocument.bare
      = fun p => p.direction == direction := by
    funext p
    show (p.bare.direction == direction) = (p.direction == direction)
    unfold ParamDocument.bare
    split <;> rfl
  unfold paramsOf bare
  rw [List.filter_map, hdirection]

theorem inputs_bare : c.bare.paramsOf .input = c.paramsOf .input := by
  rw [c.paramsOf_bare]
  refine (List.map_congr_left fun p hp => ?_).trans (List.map_id _)
  have hdirection : p.direction = .input := by simpa using (List.mem_filter.1 hp).2
  simp [ParamDocument.bare, hdirection]

end ComponentDocument

theorem Node.outputsOf_bare (documents : List ParamDocument) (s : Component.Signature) :
    outputsOf (documents.map ParamDocument.bare) s = outputsOf documents s := by
  refine outputsOf_map documents s fun p => ?_
  unfold ParamDocument.bare
  split <;> exact ⟨rfl, rfl, rfl⟩

namespace Graph

variable (d : GraphDocument)

theorem nodesOf_bare (index : SortedMap String Nat) (place : Nat)
    (cs : List ComponentDocument) :
    nodesOf index place (cs.map ComponentDocument.bare) = nodesOf index place cs := by
  have hnode : ∀ c : ComponentDocument, Node.ofDocument c.bare = Node.ofDocument c := by
    intro c
    unfold Node.ofDocument
    rw [c.inputs_bare, c.paramsOf_bare]
    simp only [Node.outputsOf_bare, ComponentDocument.bare]
  induction cs generalizing index place with
  | nil => rfl
  | cons c cs ih =>
    rw [List.map_cons, nodesOf, nodesOf, hnode, ih]
    rfl

theorem load_bare : load d.bare = load d := by
  have hwired : ∀ index nodes, (fun place : ComponentDocument × Node =>
      wired index nodes place.1.bare place.2)
        = fun place => wired index nodes place.1 place.2 := by
    intro index nodes
    funext place
    unfold wired
    rw [place.1.inputs_bare]
    rfl
  unfold load
  show (nodesOf .empty 0 (d.components.map ComponentDocument.bare) >>= _) = _
  rw [nodesOf_bare]
  refine congrArg _ (funext fun ⟨nodes, index⟩ => ?_)
  show ((d.components.map ComponentDocument.bare).zip nodes).mapM _ >>= _ = _
  rw [List.zip_map_left, List.mapM_map]
  exact congrArg (fun f => List.mapM f (d.components.zip nodes) >>= _) (hwired index nodes)

/-- Loading accepts the sound documents and no others, whatever output parameters hold, and a
rejection names a component with what is wrong with it. -/
theorem load_iff_sound : ((∃ g, load d = .ok g) ↔ d.Sound) ∧ load d.bare = load d ∧
    ∀ e, load d = .error e →
      ∃ c ∈ d.components, ∃ defect, e = .malformedGraph c.guid defect ∧ d.Violation c defect :=
  ⟨⟨fun ⟨_, h⟩ => sound_of_load h, exists_load_of_sound⟩, load_bare d,
    fun _ => exists_violation_of_load_error⟩

end Graph

/-- A component that asks itself for an output which its kind does not have. -/
def Sample.loose : GraphDocument :=
  ⟨[⟨"loop", "Data", "", .origin, [input "Data" [⟨"loop", " D "⟩, ⟨"loop", "Result"⟩] none]⟩]⟩

theorem Sample.load_loose : Graph.load Sample.loose =
    .error (.malformedGraph "loop" (.missingOutput "loop" "Result")) := rfl

theorem Graph.load_iff_sound_sample : Sample.document.Sound ∧ ¬ Sample.loose.Sound := by
  refine ⟨(load_iff_sound Sample.document).1.1 ⟨_, Sample.load_document⟩, fun h => ?_⟩
  obtain ⟨g, hg⟩ := (load_iff_sound Sample.loose).1.2 h
  rw [Sample.load_loose] at hg
  cases hg

end TreeFlow
