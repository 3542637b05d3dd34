import TreeFlow.Proofs.Graph.Loaded
/-
Cutting wires.

An input parameter is cut by leaving out its sources.  Since the first walk of loading does not look
at sources, and the second one at those of each parameter alone, it makes no difference whether a
parameter is cut in the document or in the graph that is loaded from it (`load_cut`).
-/

namespace TreeFlow

/-! ## Lists that differ in one place -/

theorem forall₂_modify {α β : Type} {R : α → β → Prop} {f : α → α} {f' : β → β} {as : List α}
    {bs : List β} (h : List.Forall₂ R as bs) (i : Nat) (hf : ∀ a b, R a b → R (f a) (f' b)) :
    List.Forall₂ R (as.modify i f) (bs.modify i f') := by
  induction h generalizing i with
  | nil => simp
  | cons hab hrest ih =>
    cases i with
    | zero =>
      rw [List.modify_zero_cons, List.modify_zero_cons]
      exact .cons (hf _ _ hab) hrest
    | succ i =>
      rw [List.modify_succ_cons, List.modify_succ_cons]
      exact .cons hab (ih i)

/-- A list next to itself with one element changed. -/
theorem forall₂_modify_self {α : Type} {R : α → α → Prop} {f : α → α} {as : List α} {i : Nat}
    (hrest : ∀ k a, as[k]? = some a → k ≠ i → R a a) (hi : ∀ a, as[i]? = some a → R a (f a)) :
    List.Forall₂ R as (as.modify i f) := by
  induction as generalizing i with
  | nil => simp
  | cons a as ih =>
    cases i with
    | zero =>
      rw [List.modify_zero_cons]
      have hsame : ∀ b ∈ as, R b b := by
        intro b hb
        obtain ⟨k, hk⟩ := List.getElem?_of_mem hb
        exact hrest (k + 1) b hk (by omega)
      exact .cons (hi a rfl) (List.forall₂_same.2 hsame)
    | succ i =>
      rw [List.modify_succ_cons]
      refine .cons (hrest 0 a rfl (by omega)) (ih (fun k b hb hk => ?_) hi)
      exact hrest (k + 1) b hb (by omega)

theorem zip_modify_left {α β : Type} (f : α → α) (as : List α) (bs : List β) (i : Nat) :
    (as.modify i f).zip bs = (as.zip bs).modify i (Prod.map f id) := by
  induction as generalizing bs i with
  | nil => simp
  | cons a as ih =>
    cases bs with
    | nil => simp
    | cons b bs =>
      cases i with
      | zero => simp
      | succ i => simp [ih]

/-! ## Cuts -/

def ParamDocument.cut (p : ParamDocument) : ParamDocument := { p with sources := [] }
def InputParam.cut (p : InputParam) : InputParam := { p with sources := [] }

/-- The parameters of a component with one of the inputs cut, counted among the inputs. -/
def ParamDocument.cutInput : Nat → List ParamDocument → List ParamDocument
  | _, [] => []
  | j, p :: rest =>
    if p.direction = .input then
      match j with
      | 0 => p.cut :: rest
      | j + 1 => p :: cutInput j rest
    else p :: cutInput j rest

def ComponentDocument.cut (j : Nat) (c : ComponentDocument) : ComponentDocument :=
  { c with params := ParamDocument.cutInput j c.params }

def Node.cut (j : Nat) (n : Node) : Node := { n with inputs := n.inputs.modify j InputParam.cut }

/-- A document without the sources of an input parameter. -/
def GraphDocument.cut (d : GraphDocument) (i j : Nat) : GraphDocument :=
  ⟨d.components.modify i (ComponentDocument.cut j)⟩

/-- A graph without the wires of an input parameter. -/
def Graph.cut (g : Graph) (i j : Nat) : Graph :=
  .ofNodes g.index (g.nodes.modify i (Node.cut j))

/-! ## Loading -/

namespace ComponentDocument

variable (j : Nat) (c : ComponentDocument)

theorem paramsOf_cut_input :
    (c.cut j).paramsOf .input = (c.paramsOf .input).modify j ParamDocument.cut := by
  have hlist : ∀ (ps : List ParamDocument) (j : Nat),
      (ParamDocument.cutInput j ps).filter (fun p => p.direction == .input)
        = (ps.filter fun p => p.direction == .input).modify j ParamDocument.cut := by
    intro ps
    induction ps with
    | nil => simp [ParamDocument.cutInput]
    | cons p ps ih =>
      intro j
      unfold ParamDocument.cutInput
      by_cases hp : p.direction = .input
      · have hcut : p.cut.direction = .input := hp
        cases j with
        | zero => simp [hp, hcut]
        | succ j => simp [hp, ih]
      · simp [hp, ih]
  exact hlist c.params j

theorem paramsOf_cut_output : (c.cut j).paramsOf .output = c.paramsOf .output := by
  have hlist : ∀ (ps : List ParamDocument) (j : Nat),
      (ParamDocument.cutInput j ps).filter (fun p => p.direction == .output)
        = ps.filter fun p => p.direction == .output := by
    intro ps
    induction ps with
    | nil => simp [ParamDocument.cutInput]
    | cons p ps ih =>
      intro j
      unfold ParamDocument.cutInput
      by_cases hp : p.direction = .input
      · have hcut : p.cut.direction = .input := hp
        cases j with
        | zero => simp [hp, hcut]
        | succ j => simp [hp, ih]
      · simp [hp, ih, List.filter_cons]
  exact hlist c.params j

end ComponentDocument

theorem InputParam.ofDocument_cut (component : String) (p : ParamDocument) (slot : Option Nat) :
    InputParam.ofDocument component p.cut slot = InputParam.ofDocument component p slot := by
  simp only [InputParam.ofDocument, persistentOf, expressionOf, ParamDocument.cut]
  rfl

theorem ComponentDocument.placedInputs_cut (j : Nat) (c : ComponentDocument)
    (s : Component.Signature) : (c.cut j).placedInputs s
      = (c.placedInputs s).modify j (Prod.map ParamDocument.cut id) := by
  have hnames : ((c.cut j).paramsOf .input).map (fun p => s.inputIndex? p.name)
      = (c.paramsOf .input).map fun p => s.inputIndex? p.name := by
    rw [c.paramsOf_cut_input, eq_comm, ← List.forall₂_eq_eq_eq, List.forall₂_map_left_iff,
      List.forall₂_map_right_iff]
    exact forall₂_modify_self (fun _ _ _ _ => rfl) fun _ _ => rfl
  unfold placedInputs
  rw [hnames, c.paramsOf_cut_input, zip_modify_left]

/-- Before it is wired, a component has nothing of its sources. -/
theorem Node.ofDocument_cut (j : Nat) (c : ComponentDocument) :
    Node.ofDocument (c.cut j) = Node.ofDocument c := by
  have htype : (c.cut j).typeName = c.typeName := rfl
  cases hkind : Component.Kind.ofTag? c.typeName with
  | none =>
    unfold Node.ofDocument
    rw [htype, hkind]
    rfl
  | some kind =>
    have hinputs : ((c.cut j).placedInputs kind.signature).mapM
          (fun place => InputParam.ofDocument c.guid place.1 place.2)
        = (c.placedInputs kind.signature).mapM
            fun place => InputParam.ofDocument c.guid place.1 place.2 := by
      rw [c.placedInputs_cut]
      exact Except.mapM_eq_of_forall₂ (forall₂_modify_self (fun _ _ _ _ => rfl)
        fun place _ => InputParam.ofDocument_cut c.guid place.1 place.2)
    rw [Node.ofDocument_of_kind (c := c.cut j) hkind, Node.ofDocument_of_kind hkind,
      c.paramsOf_cut_output]
    exact congrArg (· >>= _) hinputs

namespace Graph

variable {index : SortedMap String Nat} {nodes : List Node}

theorem nodesOf_cut (i j : Nat) (index : SortedMap String Nat) (place : Nat)
    (cs : List ComponentDocument) :
    nodesOf index place (cs.modify i (ComponentDocument.cut j)) = nodesOf index place cs := by
  induction cs generalizing i index place with
  | nil => simp
  | cons c cs ih =>
    cases i with
    | zero =>
      rw [List.modify_zero_cons, nodesOf, nodesOf, Node.ofDocument_cut]
      rfl
    | succ i => rw [List.modify_succ_cons, nodesOf, nodesOf, ih]

theorem wired_cut {c : ComponentDocument} {n n' : Node} (h : wired index nodes c n = .ok n')
    (j : Nat) : wired index nodes (c.cut j) n = .ok (n'.cut j) := by
  unfold wired at h ⊢
  obtain ⟨inputs, hinputs, h⟩ := Except.bind_eq_ok_iff.1 h
  obtain rfl := Except.ok.inj h
  rw [c.paramsOf_cut_input, zip_modify_left]
  refine Except.bind_eq_ok_iff.2 ⟨inputs.modify j InputParam.cut, ?_, rfl⟩
  refine Except.mapM_eq_ok_iff.2 (forall₂_modify (Except.mapM_eq_ok_iff.1 hinputs) j ?_)
  intro place i hi
  obtain ⟨wires, -, hi⟩ := Except.bind_eq_ok_iff.1 hi
  obtain rfl := Except.ok.inj hi
  rfl

/-- A document with a cut loads to the graph with the cut. -/
theorem load_cut {d : GraphDocument} {g : Graph} (h : load d = .ok g) (i j : Nat) :
    load (d.cut i j) = .ok (g.cut i j) := by
  unfold load at h ⊢
  obtain ⟨⟨nodes, index⟩, hnodes, h⟩ := Except.bind_eq_ok_iff.1 h
  obtain ⟨all, hall, h⟩ := Except.bind_eq_ok_iff.1 h
  obtain rfl := Except.ok.inj h
  have hnodes' := (nodesOf_cut i j .empty 0 d.components).trans hnodes
  refine Except.bind_eq_ok_iff.2 ⟨(nodes, index), hnodes', ?_⟩
  refine Except.bind_eq_ok_iff.2 ⟨all.modify i (Node.cut j), ?_, rfl⟩
  show ((d.components.modify i (ComponentDocument.cut j)).zip nodes).mapM _ = _
  rw [zip_modify_left]
  exact Except.mapM_eq_ok_iff.2 (forall₂_modify (Except.mapM_eq_ok_iff.1 hall) i
    fun place n hn => wired_cut hn j)

end Graph
end TreeFlow
