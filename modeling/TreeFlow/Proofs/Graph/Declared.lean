import TreeFlow.Proofs.Graph.Assignment
import TreeFlow.Proofs.Graph.Consistent
import TreeFlow.Proofs.Graph.Cut
import TreeFlow.Proofs.Graph.Sound
/-
Wires to declared outputs.

The name in a source is looked for in three ways: among the output parameters of the producer, as it
stands and then in any letter case, and at last among the declared outputs.  The first two could
come upon a parameter that carries another output than the one that answers to the name.  They never
do where the parameters are told apart by their names: a parameter with a name that an output answers
to claims the slot of this output, and the slots that are left go to parameters with names that no
output answers to.  So all ways lead to the one parameter that carries the output
(`outputIndex?_of_declared`), and a source of this kind can be put anywhere (`load_wires_declared`).
-/

namespace TreeFlow

/-! ## Names of declared outputs -/

theorem Text.sameLetters_trim_congr {s t : String} (h : sameLetters s t = true) (name : String) :
    sameLetters name (trim s) = sameLetters name (trim t) := by
  unfold sameLetters trim
  rw [String.toList_ofList, String.toList_ofList, ← trimmed_map_toLower, ← trimmed_map_toLower,
    sameLetters_iff.1 h]

namespace Component

theorem Output.answersTo_congr {s t : String} (h : Text.sameLetters s t = true) (o : Output) :
    o.answersTo s = o.answersTo t := by
  unfold Output.answersTo Component.answersTo
  simp only [Text.sameLetters_trim_congr h]

/-- The declared outputs of a kind have no name or alias in common. -/
theorem Kind.names_apart (k : Kind) :
    k.signature.outputs.Pairwise fun o o' => ∀ name ∈ o.name :: o.aliases,
      ∀ name' ∈ o'.name :: o'.aliases, Text.sameLetters name name' = false := by
  revert k
  decide +kernel

variable {k : Kind} {asked : String} {slot slot' : Nat} {o o' : Output}

theorem Output.exists_name_of_answersTo (h : o.answersTo asked = true) :
    ∃ name ∈ o.name :: o.aliases, Text.sameLetters name (Text.trim asked) = true :=
  List.any_eq_true.1 h

theorem Kind.not_answersTo_of_lt (ho : k.signature.outputs[slot]? = some o)
    (ho' : k.signature.outputs[slot']? = some o') (hlt : slot < slot')
    (h : o.answersTo asked = true) : ¬ o'.answersTo asked = true := by
  intro h'
  obtain ⟨hslot, rfl⟩ := List.getElem?_eq_some_iff.1 ho
  obtain ⟨hslot', rfl⟩ := List.getElem?_eq_some_iff.1 ho'
  obtain ⟨name, hname, hletters⟩ := Output.exists_name_of_answersTo h
  obtain ⟨name', hname', hletters'⟩ := Output.exists_name_of_answersTo h'
  have hsame : Text.sameLetters name name' = true :=
    Text.sameLetters_iff.2 ((Text.sameLetters_iff.1 hletters).trans
      (Text.sameLetters_iff.1 hletters').symm)
  have hapart := List.pairwise_iff_getElem.1 k.names_apart slot slot' hslot hslot' hlt
    name hname name' hname'
  rw [hsame] at hapart
  cases hapart

/-- A text means no more than one declared output. -/
theorem Kind.slot_unique (ho : k.signature.outputs[slot]? = some o)
    (ho' : k.signature.outputs[slot']? = some o') (h : o.answersTo asked = true)
    (h' : o'.answersTo asked = true) : slot = slot' := by
  rcases Nat.lt_trichotomy slot slot' with hlt | heq | hgt
  · exact absurd h' (k.not_answersTo_of_lt ho ho' hlt h)
  · exact heq
  · exact absurd h (k.not_answersTo_of_lt ho' ho hgt h')

theorem Kind.outputIndex?_eq_some_iff :
    k.signature.outputIndex? asked = some slot ↔
      ∃ o, k.signature.outputs[slot]? = some o ∧ o.answersTo asked = true := by
  unfold Signature.outputIndex?
  rw [List.findIdx?_eq_some_iff_getElem]
  constructor
  · intro h
    obtain ⟨hslot, hanswers, -⟩ := h
    exact ⟨_, List.getElem?_eq_getElem hslot, hanswers⟩
  · intro h
    obtain ⟨o, ho, hanswers⟩ := h
    obtain ⟨hslot, rfl⟩ := List.getElem?_eq_some_iff.1 ho
    refine ⟨hslot, hanswers, fun j hj hj' => ?_⟩
    have hplace := List.getElem?_eq_getElem (Nat.lt_trans hj hslot)
    exact k.not_answersTo_of_lt hplace ho hj hj' hanswers

end Component

/-! ## Names of output parameters -/

/-- No two output parameters of a component have names that one declared output answers to. -/
def ComponentDocument.OutputsApart (c : ComponentDocument) (s : Component.Signature) : Prop :=
  (c.paramsOf .output).Pairwise fun p p' => ∀ o ∈ s.outputs,
    ¬ (o.answersTo p.name = true ∧ o.answersTo p'.name = true)

instance (c : ComponentDocument) (s : Component.Signature) : Decidable (c.OutputsApart s) :=
  inferInstanceAs (Decidable (List.Pairwise _ _))

namespace Node

variable {g : Graph} {c : ComponentDocument} {n : Node} {slot : Nat} {o : Component.Output}
  {asked : String}

/-- A written parameter carries the output that answers to its name. -/
theorem slot_of_written (happart : c.OutputsApart n.signature)
    (ho : n.signature.outputs[slot]? = some o) {param : OutputParam}
    (hparam : param ∈ writtenOutputs (c.paramsOf .output) n.signature)
    (h : o.answersTo param.name = true) : param.slot = some slot := by
  obtain ⟨⟨p, given⟩, hplace, rfl⟩ := List.mem_map.1 hparam
  obtain ⟨i, hi⟩ := List.getElem?_of_mem hplace
  obtain ⟨hp, hgiven⟩ := List.getElem?_zip_eq_some.1 hi
  set named := (c.paramsOf .output).map fun p => n.signature.outputIndex? p.name with hnamed
  have hindex : ∀ (j : Nat) (p' : ParamDocument), (c.paramsOf .output)[j]? = some p' →
      (named[j]? = some (some slot) ↔ o.answersTo p'.name = true) := by
    intro j p' hp'
    have hmeans : n.signature.outputIndex? p'.name = some slot ↔ o.answersTo p'.name = true := by
      rw [signature, Component.Kind.outputIndex?_eq_some_iff]
      constructor
      · rintro ⟨o', ho', hanswers⟩
        exact Option.some.inj (ho.symm.trans ho') ▸ hanswers
      · exact fun hanswers => ⟨o, ho, hanswers⟩
    rw [hnamed, List.getElem?_map, hp', Option.map_some, Option.some_inj, hmeans]
  have hfirst : some slot ∉ named.take i := by
    intro hclaimed
    obtain ⟨j, hj, hclaimed⟩ := List.mem_take_iff_getElem.1 hclaimed
    have hclaimed := List.getElem?_eq_some_iff.2 ⟨_, hclaimed⟩
    have hi' := (List.getElem?_eq_some_iff.1 hp).1
    have hj := Nat.lt_of_lt_of_le hj (Nat.min_le_left _ _)
    have hj' := Nat.lt_trans hj hi'
    have hanswers := (hindex j _ (List.getElem?_eq_getElem hj')).1 hclaimed
    have htwo := List.pairwise_iff_getElem.1 happart j i hj' hi' hj o (List.mem_of_getElem? ho)
    rw [(List.getElem?_eq_some_iff.1 hp).2] at htwo
    exact htwo ⟨hanswers, h⟩
  have hassigned : (assignSlots named n.signature.outputs.length)[i]? = some (some slot) :=
    getElem?_assignSlots ((hindex i p hp).2 h) hfirst
  exact Option.some.inj (hgiven.symm.trans hassigned)

/-- So does a parameter that is added, which has the name of the output that it carries. -/
theorem slot_of_left (ho : n.signature.outputs[slot]? = some o) {o' : Component.Output}
    {slot' : Nat} (hleft : (o', slot') ∈ leftOutputs (c.paramsOf .output) n.signature)
    (h : o.answersTo o'.name = true) : slot' = slot := by
  have hplace : (o', slot') ∈ n.kind.signature.outputs.zipIdx := (List.mem_filter.1 hleft).1
  have ho' := List.mem_zipIdx_iff_getElem?.1 hplace
  have hself : o'.answersTo o'.name = true :=
    Component.Output.answersTo_of_sameLetters (Text.sameLetters_self _)
      (n.kind.names_of_outputs _ hplace).1
  exact Component.Kind.slot_unique ho' ho hself h

theorem slot_of_answersTo (hloaded : n.Loaded g c) (happart : c.OutputsApart n.signature)
    (ho : n.signature.outputs[slot]? = some o) {param : OutputParam} (hparam : param ∈ n.outputs)
    (h : o.answersTo param.name = true) : param.slot = some slot := by
  rw [hloaded.outputs, outputsOf_eq, List.mem_append] at hparam
  cases hparam with
  | inl hwritten => exact slot_of_written happart ho hwritten h
  | inr hadded =>
    obtain ⟨⟨o', slot'⟩, hleft, rfl⟩ := List.mem_map.1 hadded
    exact congrArg some (slot_of_left ho hleft h)

/-- A text that a declared output answers to leads to the one parameter that carries the output. -/
theorem outputIndex?_of_declared (hloaded : n.Loaded g c) (happart : c.OutputsApart n.signature)
    (ho : n.signature.outputs[slot]? = some o) (h : o.answersTo asked = true) :
    ∃ j param, n.outputIndex? asked = some j ∧ n.outputs[j]? = some param ∧
      param.slot = some slot := by
  have hlt := (List.getElem?_eq_some_iff.1 ho).1
  obtain ⟨j, ⟨param, hj, hslot⟩, hunique⟩ := hloaded.slotted.outputs slot hlt
  refine ⟨j, param, ?_, hj, hslot⟩
  -- Whichever way finds a parameter, it carries the output.
  have hnamed : ∀ {test : OutputParam → Bool} {i : Nat}, n.outputs.findIdx? test = some i →
      (∀ param ∈ n.outputs, test param = true → Text.sameLetters param.name asked = true) →
      i = j := by
    intro test i hfind htest
    obtain ⟨hi, hfound, -⟩ := List.findIdx?_eq_some_iff_getElem.1 hfind
    have hmem := List.getElem_mem hi
    have hletters := htest _ hmem hfound
    refine hunique i ⟨_, List.getElem?_eq_getElem hi, ?_⟩
    exact slot_of_answersTo hloaded happart ho hmem ((o.answersTo_congr hletters).trans h)
  have hcarried : ∀ {i : Nat}, (n.outputs.findIdx? fun o => o.slot == some slot) = some i →
      i = j := by
    intro i hfind
    obtain ⟨hi, hfound, -⟩ := List.findIdx?_eq_some_iff_getElem.1 hfind
    exact hunique i ⟨_, List.getElem?_eq_getElem hi, by simpa using hfound⟩
  have hdeclared : n.signature.outputIndex? asked = some slot :=
    Component.Kind.outputIndex?_eq_some_iff.2 ⟨o, ho, h⟩
  unfold outputIndex?
  cases hexact : n.outputs.findIdx? fun o => o.name == asked with
  | some i =>
    refine congrArg some (hnamed hexact fun param _ heq => ?_)
    rw [beq_iff_eq.1 heq]
    exact Text.sameLetters_self _
  | none =>
    cases hletters : n.outputs.findIdx? fun o => Text.sameLetters o.name asked with
    | some i => exact congrArg some (hnamed hletters fun _ _ heq => heq)
    | none =>
      rw [hdeclared, Option.bind_some, Option.none_or, Option.none_or]
      cases hslots : n.outputs.findIdx? fun o => o.slot == some slot with
      | some i => exact congrArg some (hcarried hslots)
      | none =>
        have hnot := List.findIdx?_eq_none_iff.1 hslots param (List.mem_of_getElem? hj)
        rw [hslot, beq_self_eq_true] at hnot
        cases hnot

end Node

/-! ## Documents that differ in sources -/

def ComponentDocument.unwired (c : ComponentDocument) : ComponentDocument :=
  { c with params := c.params.map ParamDocument.cut }

theorem ComponentDocument.paramsOf_unwired (c : ComponentDocument) (direction : Direction) :
    c.unwired.paramsOf direction = (c.paramsOf direction).map ParamDocument.cut :=
  List.filter_map

theorem ComponentDocument.unwired_offers_iff (c : ComponentDocument) (name : String) :
    c.unwired.Offers name ↔ c.Offers name := by
  unfold Offers
  rw [c.paramsOf_unwired]
  simp only [List.mem_map, exists_exists_and_eq_and]
  rfl

namespace GraphDocument

variable {d d' : GraphDocument} {s : Source}

/-- A document without sources. -/
def unwired (d : GraphDocument) : GraphDocument :=
  ⟨d.components.map ComponentDocument.unwired⟩

/-- Some input parameter has the source. -/
def Asks (d : GraphDocument) (s : Source) : Prop :=
  ∃ c ∈ d.components, ∃ p ∈ c.paramsOf .input, s ∈ p.sources

/-- A component of the document has the output that a source asks for. -/
def Meets (d : GraphDocument) (s : Source) : Prop :=
  ∃ producer ∈ d.components, producer.guid = s.component ∧ producer.Offers s.output

/-- Source number `m` of input parameter number `k` of component number `i`. -/
def source? (d : GraphDocument) (i k m : Nat) : Option Source :=
  (d.components[i]?).bind fun c => ((c.paramsOf .input)[k]?).bind fun p => p.sources[m]?

theorem unwired_meets_iff : d.unwired.Meets s ↔ d.Meets s := by
  unfold Meets unwired
  simp only [List.mem_map, exists_exists_and_eq_and, ComponentDocument.unwired_offers_iff]
  rfl

/-- A document is sound if it is so without its sources, and these can be met. -/
theorem sound_iff_unwired : d.Sound ↔ d.unwired.Sound ∧ ∀ s, d.Asks s → d.Meets s := by
  have hinputs : ∀ {P : ParamDocument → Prop},
      (∀ c ∈ d.unwired.components, ∀ p ∈ c.paramsOf .input, P p) ↔
        ∀ c ∈ d.components, ∀ p ∈ c.paramsOf .input, P p.cut := by
    intro P
    simp only [unwired, List.forall_mem_map, ComponentDocument.paramsOf_unwired]
  have hguids : d.unwired.components.map ComponentDocument.guid
      = d.components.map ComponentDocument.guid := List.map_map
  constructor
  · intro h
    refine ⟨⟨?_, ?_, hinputs.2 h.literals, hinputs.2 h.expressions, hinputs.2 fun _ _ _ _ => ?_⟩,
      ?_⟩
    · exact hguids ▸ h.guids
    · exact List.forall_mem_map.2 h.types
    · exact nofun
    · rintro s ⟨c, hc, p, hp, hs⟩
      exact h.sources c hc p hp s hs
  · rintro ⟨h, hmeets⟩
    refine ⟨?_, ?_, hinputs.1 h.literals, hinputs.1 h.expressions, ?_⟩
    · exact hguids ▸ h.guids
    · intro c hc
      exact h.types c.unwired (List.mem_map_of_mem hc)
    · exact fun c hc p hp s hs => hmeets s ⟨c, hc, p, hp, hs⟩

end GraphDocument

namespace Graph

variable {d d' : GraphDocument} {g g' : Graph}

/-- Wire number `m` of input parameter number `k` of component number `i`. -/
def wireAt? (g : Graph) (i k m : Nat) : Option Wire :=
  (g.nodes[i]?).bind fun n => (n.inputs[k]?).bind fun p => p.sources[m]?

/-- Each wire is what the source at its place means. -/
theorem wireAt?_of_source? (h : load d = .ok g) {i k m : Nat} {s : Source}
    (hs : d.source? i k m = some s) : g.wireAt? i k m = g.wire? s := by
  obtain ⟨c, hc, hs⟩ := Option.bind_eq_some_iff.1 hs
  obtain ⟨p, hp, hs⟩ := Option.bind_eq_some_iff.1 hs
  obtain ⟨n, hn, hloaded⟩ := (load_loaded h).exists_getElem? hc
  rw [← c.fst_placedInputs n.signature, List.getElem?_map] at hp
  obtain ⟨place, hplace, rfl⟩ := Option.map_eq_some_iff.1 hp
  obtain ⟨input, hinput, hplaced⟩ := hloaded.inputs.exists_getElem? hplace
  obtain ⟨w, hw, hwire⟩ := hplaced.sources.exists_getElem? hs
  rw [wireAt?, hn, Option.bind_some, hinput, Option.bind_some, hw, hwire]

/-- Sources do not count for what a component is and which outputs it has. -/
theorem exists_node_of_unwired (hunwired : d'.unwired = d.unwired) (h : load d = .ok g)
    (h' : load d' = .ok g') {i : Nat} {n : Node} (hn : g.nodes[i]? = some n) :
    ∃ n', g'.nodes[i]? = some n' ∧ n'.guid = n.guid ∧ n'.kind = n.kind ∧
      n'.outputs = n.outputs := by
  obtain ⟨c, hc, hloaded⟩ := (load_loaded h).flip.exists_getElem? hn
  have hplace : (d'.unwired.components)[i]? = some c.unwired := by
    rw [hunwired, GraphDocument.unwired, List.getElem?_map, hc]
    rfl
  rw [GraphDocument.unwired, List.getElem?_map] at hplace
  obtain ⟨c', hc', hsame⟩ := Option.map_eq_some_iff.1 hplace
  obtain ⟨n', hn', hloaded'⟩ := (load_loaded h').exists_getElem? hc'
  have hguid : c'.unwired.guid = c.unwired.guid := by rw [hsame]
  have htype : c'.unwired.typeName = c.unwired.typeName := by rw [hsame]
  have hparams : (c'.paramsOf .output).map ParamDocument.cut
      = (c.paramsOf .output).map ParamDocument.cut := by
    rw [← c'.paramsOf_unwired, ← c.paramsOf_unwired, hsame]
  have hkind : n'.kind = n.kind :=
    Option.some.inj (hloaded'.kind.symm.trans (htype ▸ hloaded.kind))
  have hcut : ∀ p : ParamDocument, p.cut.name = p.name ∧ p.cut.guid = p.guid ∧
      p.cut.mapping = p.mapping := fun _ => ⟨rfl, rfl, rfl⟩
  refine ⟨n', hn', ?_, hkind, ?_⟩
  · exact hloaded'.header.1.trans (hguid.trans hloaded.header.1.symm)
  · rw [hloaded'.outputs, hloaded.outputs, Node.signature, Node.signature, hkind,
      ← Node.outputsOf_map _ _ hcut, hparams, Node.outputsOf_map _ _ hcut]

/-- A component of a loaded graph whose written output parameters are told apart by their names can
be wired to by any text that one of its declared outputs answers to.  A document with further sources
of this kind, at any input parameters, loads too, and the wires that come from them start at the
output parameter that carries the declared output. -/
theorem load_wires_declared (h : load d = .ok g) {i : Nat} {c : ComponentDocument} {n : Node}
    (hc : d.components[i]? = some c) (hn : g.nodes[i]? = some n)
    (happart : c.OutputsApart n.signature) {slot : Nat} {o : Component.Output}
    (ho : n.signature.outputs[slot]? = some o) {asked : String}
    (hasked : o.answersTo asked = true) :
    ∃ j param, n.outputs[j]? = some param ∧ param.slot = some slot ∧
      (∀ component, wireOf g.index g.nodes component ⟨n.guid, asked⟩ = .ok ⟨i, j⟩) ∧
      ∀ d' : GraphDocument, d'.unwired = d.unwired →
        (∀ s, d'.Asks s → d.Asks s ∨ s = ⟨n.guid, asked⟩) →
        ∃ g', load d' = .ok g' ∧
          (∃ n', g'.nodes[i]? = some n' ∧ n'.guid = n.guid ∧ n'.outputs = n.outputs) ∧
          ∀ consumer k m, d'.source? consumer k m = some ⟨n.guid, asked⟩ →
            g'.wireAt? consumer k m = some ⟨i, j⟩ := by
  have hloaded : n.Loaded g c := by
    obtain ⟨n₁, hn₁, hloaded⟩ := (load_loaded h).exists_getElem? hc
    exact Option.some.inj (hn₁.symm.trans hn) ▸ hloaded
  obtain ⟨j, param, hindex, hparam, hslot⟩ :=
    Node.outputIndex?_of_declared hloaded happart ho hasked
  -- The source means this parameter in every graph that keeps the component in its place.
  have hwire : ∀ {d₁ g₁}, load d₁ = .ok g₁ → ∀ n₁ : Node, g₁.nodes[i]? = some n₁ →
      n₁.guid = n.guid → n₁.kind = n.kind → n₁.outputs = n.outputs →
      g₁.wire? ⟨n.guid, asked⟩ = some ⟨i, j⟩ := by
    intro d₁ g₁ h₁ n₁ hn₁ hguid hkind houtputs
    refine wire?_eq_some_iff.2 ⟨?_, n₁, hn₁, ?_⟩
    · exact ((load_wellFormed h₁).indexed _ _).2 ⟨n₁, hn₁, hguid⟩
    · rw [Node.outputIndex?_congr hkind houtputs, hindex]
  refine ⟨j, param, hparam, hslot, fun component => ?_, fun d' hunwired hasks => ?_⟩
  · exact wireOf_eq_ok_iff.2 (wire?_eq_some_iff.1 (hwire h n hn rfl rfl rfl))
  · have hsound := sound_of_load h
    have hmeets : d.Meets ⟨n.guid, asked⟩ := by
      refine ⟨c, List.mem_of_getElem? hc, hloaded.header.1.symm, ?_⟩
      rw [← Node.isSome_outputIndex?_iff hloaded.kind hloaded.outputs, hindex]
      rfl
    have hsound' : d'.Sound := by
      rw [GraphDocument.sound_iff_unwired, hunwired]
      obtain ⟨hbare, hall⟩ := GraphDocument.sound_iff_unwired.1 hsound
      refine ⟨hbare, fun s hs => ?_⟩
      rw [← GraphDocument.unwired_meets_iff, hunwired, GraphDocument.unwired_meets_iff]
      cases hasks s hs with
      | inl hknown => exact hall s hknown
      | inr heq => exact heq ▸ hmeets
    obtain ⟨g', h'⟩ := exists_load_of_sound hsound'
    obtain ⟨n', hn', hguid, hkind, houtputs⟩ := exists_node_of_unwired hunwired h h' hn
    refine ⟨g', h', ⟨n', hn', hguid, houtputs⟩, fun consumer k m hs => ?_⟩
    rw [wireAt?_of_source? h' hs]
    exact hwire h' n' hn' hguid hkind houtputs

end Graph

namespace Sample

/-- A point of which the second coordinate is written under an alias, the first one gets an unrelated
name, and the third one is left out; and a sum that asks for a coordinate. -/
def coordinates (asked : List Source) : GraphDocument :=
  ⟨[⟨"sum", "Addition", "", .origin, [input "A" asked none]⟩,
    ⟨"point", "Deconstruct Point", "", .origin, [output "y", output "Left"]⟩]⟩

def coordinatesGraph (asked : List Source) : Graph :=
  match Graph.load (coordinates asked) with
  | .ok g => g
  | .error _ => default

theorem load_coordinates : Graph.load (coordinates []) = .ok (coordinatesGraph []) := rfl

end Sample

/-- The name of the first coordinate leads to the parameter that got its slot by position. -/
theorem Graph.load_wires_declared_sample :
    load (Sample.coordinates []) = .ok (Sample.coordinatesGraph []) ∧
      ∃ g, load (Sample.coordinates [⟨"point", "x COMPONENT"⟩]) = .ok g ∧
        g.wireAt? 0 0 0 = some ⟨1, 1⟩ := by
  have hfirst : Component.Vectors.deconstructPoint.outputs[0]?
      = some ⟨"X component", ["X"]⟩ := rfl
  have hasked : (⟨"X component", ["X"]⟩ : Component.Output).answersTo "x COMPONENT" = true := by
    decide
  obtain ⟨j, param, hparam, hslot, -, hfurther⟩ :=
    load_wires_declared Sample.load_coordinates (i := 1) rfl rfl (by decide) hfirst hasked
  have hasks : ∀ s, (Sample.coordinates [⟨"point", "x COMPONENT"⟩]).Asks s →
      (Sample.coordinates []).Asks s ∨ s = ⟨"point", "x COMPONENT"⟩ := by
    rintro s ⟨c, hc, p, hp, hs⟩
    rcases List.mem_cons.1 hc with rfl | hc
    · obtain rfl := List.mem_singleton.1 hp
      exact .inr (List.mem_singleton.1 hs)
    · obtain rfl := List.mem_singleton.1 hc
      cases hp
  obtain ⟨g, hg, -, hwires⟩ :=
    hfurther (Sample.coordinates [⟨"point", "x COMPONENT"⟩]) rfl hasks
  obtain ⟨hj, rfl⟩ := List.getElem?_eq_some_iff.1 hparam
  obtain rfl : j = 1 := by
    have hlt : j < 3 := hj
    obtain rfl | rfl | rfl : j = 0 ∨ j = 1 ∨ j = 2 := by omega
    · cases hslot
    · rfl
    · cases hslot
  exact ⟨Sample.load_coordinates, g, hg, hwires 0 0 0 rfl⟩

end TreeFlow
