import TreeFlow.Proofs.Literal
/-
Two ways to read a map of branches.

A tree document is read member by member as it comes, a literal only after all of it has been found
sound, and then in the first form that fits.  Both take the same values for maps of branches
(`exists_asMembers_iff`), and both make the same tree of a map, or refuse it for its keys
(`branches_decode`).
-/

namespace TreeFlow

/-! ## Maps of branches -/

namespace Literal

/-- A list of items is read by itself as it is inside of a sound value. -/
theorem asList_eq_ok_iff {room : Nat} (hroom : 0 < room) {v : Json} {items : List Item} :
    Json.asList (Item.ofJson (room - 1)) v = .ok items ↔
      v.sound room = true ∧ items? v = some items := by
  cases v with
  | list elements =>
    show elements.mapM (Item.ofJson (room - 1)) = .ok items ↔ _ ∧ elements.mapM _ = _
    rw [Json.sound_list_iff hroom, Except.mapM_eq_ok_iff, Option.mapM_eq_some_iff,
      ← List.forall₂_and_left]
    simp only [Item.ofJson_eq_ok_iff]
  | null | boolean | integer | real | text | object | illegible | cut => simp [Json.asList, items?]

/-- Branches are read one by one, each under its name. -/
theorem branches?_object_eq_some_iff {members : List (Json × Json)}
    {map : SortedMap String (List Item)} :
    branches? (.object members) = some map ↔ ∃ l,
      List.Forall₂ (fun m e => m.1 = .text e.1 ∧ items? m.2 = some e.2) members l ∧
      .ofList l = map := by
  rw [branches?, Option.map_eq_some_iff]
  refine exists_congr fun l => and_congr_left fun _ => ?_
  rw [Option.mapM_eq_some_iff]
  refine iff_of_eq (congrArg (List.Forall₂ · members l) (funext₂ fun m e => propext ?_))
  obtain ⟨name, w⟩ := m
  obtain ⟨s, items⟩ := e
  cases name with
  | text s' =>
    show (items? w).map (fun items => (s', items)) = some (s, items) ↔ _
    rw [Option.map_eq_some_iff]
    simp [and_comm, eq_comm]
  | null | boolean | integer | real | list | object | illegible | cut => simp

/-- Branches are read one by one as they are inside of a sound value. -/
theorem exists_asMembers_iff {room : Nat} (hroom : 1 < room) {v : Json}
    {map : SortedMap String (List Item)} :
    (∃ l, Json.asMembers (Json.asList (Item.ofJson (room - 2))) v = .ok l ∧ .ofList l = map) ↔
      v.sound room = true ∧ branches? v = some map := by
  cases v with
  | object members =>
    -- Soundness is asked for once at the object there, and at each list of items here.
    have hasList := @asList_eq_ok_iff (room - 1) (Nat.sub_pos_of_lt hroom)
    have hmember : ∀ (m : Json × Json) (e : String × List Item),
        (m.1 = .text e.1 ∧ Json.asList (Item.ofJson (room - 2)) m.2 = .ok e.2) ↔
          ((∃ s, m.1 = .text s) ∧ m.2.sound (room - 1) = true) ∧
            m.1 = .text e.1 ∧ items? m.2 = some e.2 := by
      intro m e
      rw [show room - 2 = room - 1 - 1 from rfl, hasList]
      constructor
      · intro h
        obtain ⟨hname, hsound, hitems⟩ := h
        exact ⟨⟨⟨e.1, hname⟩, hsound⟩, hname, hitems⟩
      · intro h
        obtain ⟨⟨-, hsound⟩, hname, hitems⟩ := h
        exact ⟨hname, hsound, hitems⟩
    rw [Json.sound_object_iff (Nat.zero_lt_of_lt hroom), branches?_object_eq_some_iff,
      ← exists_and_left]
    refine exists_congr fun l => ?_
    rw [Json.asMembers_object_eq_ok_iff, ← and_assoc, ← List.forall₂_and_left]
    simp only [hmember]
  | null | boolean | integer | real | text | list | illegible | cut =>
    simp [Json.asMembers, branches?]

/-- An object of lists of items is a map of branches, whatever else it may be. -/
theorem ofSound?_eq_branches_iff {v : Json} {map : SortedMap String (List Item)} :
    ofSound? v = some (.branches map) ↔ branches? v = some map := by
  have hitems : branches? v = some map → items? v = none := by
    intro h
    cases v with
    | object members => rfl
    | null | boolean | integer | real | text | list | illegible | cut => cases h
  simpa [ofSound?, Option.or_eq_some_iff] using hitems

/-- A tree document is read as the literal of branches in the same place is, and made a tree. -/
theorem tree_ofJson_eq_ok_iff {room : Nat} (hroom : 1 < room) {v : Json} {t : Tree} :
    Tree.ofJson room v = .ok t ↔
      ∃ map, ofJson room v = .ok (.branches map) ∧ (branches map).toTree = .ok t := by
  have hdecode : Tree.ofJson room v = .ok t ↔
      ∃ l, Json.asMembers (Json.asList (Item.ofJson (room - 2))) v = .ok l ∧
        Tree.ofKeyed (.ofList l) = .ok t := by
    rw [Tree.ofJson, Except.bind_eq_ok_iff]
    refine exists_congr fun l => and_congr_right fun _ => ?_
    cases Tree.ofKeyed (.ofList l) <;> simp
  rw [hdecode]
  constructor
  · intro h
    obtain ⟨l, hl, htree⟩ := h
    obtain ⟨hsound, hbranches⟩ := (exists_asMembers_iff hroom).1 ⟨l, hl, rfl⟩
    exact ⟨_, ofJson_eq_ok_iff.2 ⟨hsound, ofSound?_eq_branches_iff.2 hbranches⟩, htree⟩
  · intro h
    obtain ⟨map, hmap, htree⟩ := h
    obtain ⟨hsound, hliteral⟩ := ofJson_eq_ok_iff.1 hmap
    obtain ⟨l, hl, rfl⟩ :=
      (exists_asMembers_iff hroom).2 ⟨hsound, ofSound?_eq_branches_iff.1 hliteral⟩
    exact ⟨l, hl, htree⟩

/-- What a map of branches is decoded to, and which maps are.  A map makes a tree if all of its
texts are paths and no two of them the same path, and then the tree has one branch for each text,
with the items under it.  A tree document makes the same tree of the same branches, and is refused
where the literal is; and the branches of a tree make that tree. -/
theorem branches_decode {room : Nat} (hroom : 2 < room) :
    (∀ map, (∃ t, (branches map).toTree = .ok t) ↔
      (∀ key ∈ map.keys, ∃ p, Path.parse? key = some p) ∧
        ∀ key ∈ map.keys, ∀ key' ∈ map.keys, Path.parse? key = Path.parse? key' → key = key') ∧
    (∀ map t, (branches map).toTree = .ok t → t.branchCount = map.size ∧
      ∀ p items, t.branch? p = some items ↔
        ∃ key, map.get? key = some items ∧ Path.parse? key = some p) ∧
    (∀ v map t, ofJson room v = .ok (.branches map) →
      (Tree.ofJson room v = .ok t ↔ (branches map).toTree = .ok t)) ∧
    (∀ v t, Tree.ofJson room v = .ok t → ∃ map, ofJson room v = .ok (.branches map)) ∧
    (∀ map t, (branches map).IsFinite →
      (Tree.ofJson room (branches map).toJson = .ok t ↔ (branches map).toTree = .ok t)) ∧
    ∀ t, (ofTree t).toTree = .ok t := by
  have hsame : ∀ v map t, ofJson room v = .ok (.branches map) →
      (Tree.ofJson room v = .ok t ↔ (branches map).toTree = .ok t) := by
    intro v map t hread
    rw [tree_ofJson_eq_ok_iff (Nat.lt_of_succ_lt hroom)]
    constructor
    · intro h
      obtain ⟨map', hread', htree⟩ := h
      rw [hread'] at hread
      rw [← Except.ok.inj hread]
      exact htree
    · exact fun htree => ⟨map, hread, htree⟩
  refine ⟨fun _ => Tree.exists_ofKeyed_iff, fun map t h => ?_, hsame, fun v t h => ?_,
    fun map t hfinite => hsame _ map t (ofJson_toJson hroom hfinite), Tree.ofKeyed_keyed⟩
  · exact ⟨Tree.branchCount_of_ofKeyed h, fun _ _ => Tree.branch?_of_ofKeyed h⟩
  · obtain ⟨map, hread, -⟩ := (tree_ofJson_eq_ok_iff (Nat.lt_of_succ_lt hroom)).1 h
    exact ⟨map, hread⟩

/-- Three paths in other writings than their own. -/
def Sample.respelled : SortedMap String (List Item) :=
  .ofList [("( +0 )", [.integer 1, .null]), ("()", [.text "top"]), ("\x7b1;00\x7d", [])]

/-- Two writings of one path. -/
def Sample.clashing : SortedMap String (List Item) :=
  .ofList [("( +0 )", [.integer 1]), ("(00;)", [.integer 2])]

theorem branches_decode_sample :
    2 < Json.maxNesting ∧ (branches Sample.respelled).IsFinite ∧
      Tree.ofJson Json.maxNesting (branches Sample.respelled).toJson = .ok (.ofBranches
        [(.root, [.text "top"]), (.ofIndex 0, [.integer 1, .null]), ((Path.ofIndex 1).child 0, [])])
      ∧ ¬ ∃ t, (branches Sample.clashing).toTree = .ok t := by
  have hroom : 2 < Json.maxNesting := by decide
  have hfinite : (branches Sample.respelled).IsFinite := by decide
  obtain ⟨hdecoded, -, -, -, hdocument, -⟩ := branches_decode hroom
  refine ⟨hroom, hfinite, (hdocument _ _ hfinite).2 (by decide), fun h => ?_⟩
  have hdistinct := ((hdecoded Sample.clashing).1 h).2
  have hkeys : "( +0 )" = "(00;)" := hdistinct _ (by decide) _ (by decide) (by decide)
  revert hkeys
  decide

end Literal
end TreeFlow
