import TreeFlow.Proofs.Run.Cone
/-
What a binding reaches.

Bindings are looked up by text: first by the guid of the parameter, then by the joined names of its
component and itself.  Nothing keeps a key from standing for several parameters: a guid may be any
text, and names may hold the colon that joins them.  So a binding reaches the components with an
unwired parameter whose look-up asks for its key, and what is behind them, and no others
(`evaluate_bind`).  That can be more than the component that the key was made for
(`namesakes_reached`), but only where a guid is the key, or the guid of one component goes on behind
that of another with a colon.
-/

namespace TreeFlow

/-! ## Keys -/

/-- A look-up for a parameter of a component asks for a key: the guid of the parameter or, if
nothing is bound to that, the joined names of the component and the parameter. -/
def Bindings.Consults (b : Bindings) (component : String) (p : InputParam) (key : String) : Prop :=
  p.guid = some key ∨ p.guid.bind b.trees.get? = none ∧ Bindings.keyFor component p.name = key

/-- The look-up for an unwired parameter of a component asks for a key. -/
def Node.Hears (n : Node) (b : Bindings) (key : String) : Prop :=
  ∃ p ∈ n.inputs, p.sources = [] ∧ b.Consults n.guid p key

instance (b : Bindings) (component : String) (p : InputParam) (key : String) :
    Decidable (b.Consults component p key) := inferInstanceAs (Decidable (_ ∨ _))

instance (n : Node) (b : Bindings) (key : String) : Decidable (n.Hears b key) :=
  inferInstanceAs (Decidable (∃ p ∈ n.inputs, _ ∧ _))

namespace Bindings

variable {b : Bindings} {component key : String} {p : InputParam}

theorem bind_get?_of_ne {guid : Option String} (h : guid ≠ some key) (t : Tree) :
    guid.bind (b.bind key t).trees.get? = guid.bind b.trees.get? := by
  cases guid with
  | none => rfl
  | some guid => exact SortedMap.get?_insert_of_ne _ (fun heq => h (congrArg some heq)) t

/-- A new binding makes no difference to a look-up that does not ask for its key. -/
theorem lookup?_bind_of_not_consults (h : ¬ b.Consults component p key) (t : Tree) :
    (b.bind key t).lookup? component p = b.lookup? component p := by
  have hguid : p.guid.bind (b.bind key t).trees.get? = p.guid.bind b.trees.get? :=
    bind_get?_of_ne (fun heq => h (.inl heq)) t
  unfold lookup?
  rw [hguid]
  cases hbound : p.guid.bind b.trees.get? with
  | some tree => rfl
  | none =>
    have hjoined : keyFor component p.name ≠ key := fun heq => h (.inr ⟨hbound, heq⟩)
    rw [Option.none_or, Option.none_or]
    exact SortedMap.get?_insert_of_ne _ hjoined t

/-- A new binding is found by a look-up that asks for its key. -/
theorem lookup?_bind_of_consults (h : b.Consults component p key) (t : Tree) :
    (b.bind key t).lookup? component p = some t := by
  have hself : (b.bind key t).trees.get? key = some t := SortedMap.get?_insert_self _ key t
  unfold lookup?
  by_cases hguid : p.guid = some key
  · rw [hguid, Option.bind_some, hself, Option.some_or]
  · obtain ⟨hunbound, hjoined⟩ := h.resolve_left hguid
    rw [bind_get?_of_ne hguid, hunbound, hjoined, hself, Option.none_or]

/-- Where two components have a key in common, one guid goes on behind the other with a colon. -/
theorem guids_of_keyFor_eq {component component' param param' : String}
    (h : keyFor component param = keyFor component' param') : component' = component ∨
      ∃ rest, component' = component ++ ":" ++ rest ∨ component = component' ++ ":" ++ rest := by
  have hchars : component.toList ++ ':' :: param.toList
      = component'.toList ++ ':' :: param'.toList := by
    have htexts := congrArg String.toList h
    have hcolon : (":" : String).toList = [':'] := rfl
    unfold keyFor at htexts
    simpa [hcolon] using htexts
  -- What one guid has more than the other starts with the colon of the other's key.
  have hlonger : ∀ {c c' : String} {more cs cs' : List Char}, c'.toList = c.toList ++ more →
      ':' :: cs = more ++ ':' :: cs' → c' = c ∨ ∃ rest, c' = c ++ ":" ++ rest := by
    intro c c' more cs cs' hc hmore
    cases more with
    | nil =>
      left
      rw [List.append_nil] at hc
      exact String.toList_inj.1 hc
    | cons d more =>
      right
      have hd : ':' = d := (List.cons.inj hmore).1
      refine ⟨String.ofList more, String.toList_inj.1 ?_⟩
      rw [hc, ← hd]
      simp
  cases List.append_eq_append_iff.1 hchars with
  | inl hmore =>
    obtain ⟨more, hc, hrest⟩ := hmore
    exact (hlonger hc hrest).imp id fun ⟨rest, hrest⟩ => ⟨rest, .inl hrest⟩
  | inr hmore =>
    obtain ⟨more, hc, hrest⟩ := hmore
    exact (hlonger hc hrest).imp Eq.symm fun ⟨rest, hrest⟩ => ⟨rest, .inr hrest⟩

end Bindings

/-- A component for which a key was not made hears it only by a coincidence. -/
theorem Node.coincidence_of_hears {n : Node} {b : Bindings} {component param : String}
    (h : n.Hears b (Bindings.keyFor component param)) : n.guid = component ∨
      (∃ p ∈ n.inputs, p.sources = [] ∧ p.guid = some (Bindings.keyFor component param)) ∨
      ∃ rest, n.guid = component ++ ":" ++ rest ∨ component = n.guid ++ ":" ++ rest := by
  obtain ⟨p, hp, hunwired, hkey⟩ := h
  cases hkey with
  | inl hguid => exact .inr (.inl ⟨p, hp, hunwired, hguid⟩)
  | inr hjoined => exact (Bindings.guids_of_keyFor_eq hjoined.2.symm).imp id .inr

/-! ## Runs -/

namespace Graph

variable {g : Graph}

theorem coneAlike_bind {b : Bindings} {key : String} {c : Nat}
    (h : ∀ i n, (i = c ∨ g.Upstream i c) → g.nodes[i]? = some n → ¬ n.Hears b key) (t : Tree) :
    g.ConeAlike b (b.bind key t) c := fun i n hi hn p hp hunwired =>
  Bindings.lookup?_bind_of_not_consults (fun hkey => h i n hi hn ⟨p, hp, hunwired, hkey⟩) t

/-- A binding changes nothing but the components that hear its key and those behind them.  Other
components than the one that the key was made for are among these only by a coincidence. -/
theorem evaluate_bind {d : GraphDocument} (hload : load d = .ok g) (ha : g.Acyclic) (b : Bindings)
    (component param : String) (t : Tree) (limit limit' : Nat)
    (choices choices' : Nat → Nat → Nat) :
    (∃ s s', g.evaluate b limit choices = .ok s ∧
      g.evaluate (b.bind (Bindings.keyFor component param) t) limit' choices' = .ok s' ∧
      ∀ c < g.size, (∀ i n, (i = c ∨ g.Upstream i c) → g.nodes[i]? = some n →
        ¬ n.Hears b (Bindings.keyFor component param)) →
        ∃ o, s.get? c = some o ∧ s'.get? c = some o) ∧
      ∀ n ∈ g.nodes, n.Hears b (Bindings.keyFor component param) → n.guid = component ∨
        (∃ p ∈ n.inputs, p.sources = [] ∧ p.guid = some (Bindings.keyFor component param)) ∨
        ∃ rest, n.guid = component ++ ":" ++ rest ∨ component = n.guid ++ ":" ++ rest := by
  refine ⟨?_, fun n _ => Node.coincidence_of_hears⟩
  have hg := load_wellFormed hload
  obtain ⟨s, s', hs, hs', -, hfull, hsame⟩ :=
    (Variant.refl b (b.bind (Bindings.keyFor component param) t) g).evaluate_ok hg hg ha limit
      limit' choices choices'
  refine ⟨s, s', hs, hs', fun c hc hdeaf => ?_⟩
  obtain ⟨o, ho⟩ := Option.isSome_iff_exists.1 (hfull c hc)
  exact ⟨o, ho, (hsame c hc (coneAlike_bind hdeaf t)).trans ho⟩

end Graph

/-! ## Two components with a key in common -/

namespace Sample

def namesakes : GraphDocument :=
  ⟨[⟨"five", "Data", "", .origin, [input "Data" [] (some (.list [.integer 5]))]⟩,
    ⟨"copy", "Data", "", .origin, [input "Data" [⟨"five", "Data"⟩] none]⟩,
    ⟨"a", "Data", "", .origin, [input "b:Data" [] none]⟩,
    ⟨"a:b", "Data", "", .origin, [input "Data" [] none]⟩]⟩

def namesakesGraph : Graph :=
  match Graph.load namesakes with
  | .ok g => g
  | .error _ => default

theorem load_namesakes : Graph.load namesakes = .ok namesakesGraph := rfl

theorem namesakesGraph_forward : ∀ c < namesakesGraph.size,
    ∀ p ∈ namesakesGraph.predecessors c, p < c := by decide +kernel

theorem namesakesGraph_acyclic : namesakesGraph.Acyclic :=
  (Graph.load_wellFormed load_namesakes).acyclic namesakesGraph_forward

/-- What binds the first of the namesakes. -/
def namesakesBound : Bindings :=
  Bindings.empty.bind (Bindings.keyFor "a" "b:Data") (.ofItem (.integer 5))

end Sample

namespace Graph

/-- The first two components hear nothing of a binding for "a". -/
theorem evaluate_bind_sample : load Sample.namesakes = .ok Sample.namesakesGraph ∧
    Sample.namesakesGraph.Acyclic ∧
    (∀ i n, (i = 1 ∨ Sample.namesakesGraph.Upstream i 1) →
      Sample.namesakesGraph.nodes[i]? = some n → ¬ n.Hears .empty (Bindings.keyFor "a" "b:Data")) ∧
    ∃ s s', Sample.namesakesGraph.evaluate .empty 2 Pool.inTurn = .ok s ∧
      Sample.namesakesGraph.evaluate Sample.namesakesBound 0 Pool.inTurn = .ok s' ∧
      ∃ o, s.get? 1 = some o ∧ s'.get? 1 = some o := by
  have hg := load_wellFormed Sample.load_namesakes
  have hdeaf : ∀ n ∈ Sample.namesakesGraph.nodes.take 2,
      ¬ n.Hears .empty (Bindings.keyFor "a" "b:Data") := by decide +kernel
  have hcone : ∀ i n, (i = 1 ∨ Sample.namesakesGraph.Upstream i 1) →
      Sample.namesakesGraph.nodes[i]? = some n →
        ¬ n.Hears .empty (Bindings.keyFor "a" "b:Data") := by
    intro i n hi hn
    have hlt : i < 2 := by
      cases hi with
      | inl heq => omega
      | inr hup => exact Nat.lt_succ_of_lt (hg.upstream_lt Sample.namesakesGraph_forward hup)
    exact hdeaf n (List.mem_of_getElem? ((List.getElem?_take_of_lt hlt).trans hn))
  obtain ⟨⟨s, s', hs, hs', hsame⟩, -⟩ := evaluate_bind Sample.load_namesakes
    Sample.namesakesGraph_acyclic .empty "a" "b:Data" (.ofItem (.integer 5)) 2 0 Pool.inTurn
    Pool.inTurn
  exact ⟨Sample.load_namesakes, Sample.namesakesGraph_acyclic, hcone, s, s', hs, hs',
    hsame 1 (by decide) hcone⟩

/-- A binding for "a" is found by "a:b" as well, which is not behind "a". -/
theorem namesakes_reached : load Sample.namesakes = .ok Sample.namesakesGraph ∧
    Sample.namesakesGraph.Acyclic ∧
    Sample.namesakesGraph.nodes.map Node.guid = ["five", "copy", "a", "a:b"] ∧
    ¬ Sample.namesakesGraph.Upstream 2 3 ∧
    Bindings.empty.trees.get? (Bindings.keyFor "a" "b:Data") = none ∧
    ∃ s s', Sample.namesakesGraph.evaluate .empty 2 Pool.inTurn = .ok s ∧
      Sample.namesakesGraph.evaluate Sample.namesakesBound 2 Pool.inTurn = .ok s' ∧
      s.get? 3 = some ⟨[.empty], .ok⟩ ∧ s'.get? 3 = some ⟨[.ofItem (.integer 5)], .ok⟩ := by
  have hg := load_wellFormed Sample.load_namesakes
  have hnothing : Sample.namesakesGraph.predecessors 3 = [] := by decide +kernel
  have hbehind : ¬ Sample.namesakesGraph.Upstream 2 3 := by
    intro hup
    obtain ⟨p, -, hp⟩ := Relation.TransGen.tail'_iff.1 hup
    have hmem := hg.mem_predecessors.2 hp
    rw [hnothing] at hmem
    cases hmem
  obtain ⟨s, s', hs, hs', -⟩ :=
    (Variant.refl .empty Sample.namesakesBound Sample.namesakesGraph).evaluate_ok hg hg
      Sample.namesakesGraph_acyclic 2 2 Pool.inTurn Pool.inTurn
  have hold : (Sample.namesakesGraph.evaluate .empty 2 Pool.inTurn).map (·.get? 3)
      = .ok (some ⟨[.empty], .ok⟩) := by decide +kernel
  have hnew : (Sample.namesakesGraph.evaluate Sample.namesakesBound 2 Pool.inTurn).map (·.get? 3)
      = .ok (some ⟨[.ofItem (.integer 5)], .ok⟩) := by decide +kernel
  rw [hs] at hold
  rw [hs'] at hnew
  exact ⟨Sample.load_namesakes, Sample.namesakesGraph_acyclic, by decide +kernel, hbehind,
    SortedMap.get?_empty _, s, s', hs, hs', Except.ok.inj hold, Except.ok.inj hnew⟩

end Graph
end TreeFlow
