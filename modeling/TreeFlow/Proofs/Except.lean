import Mathlib.Data.List.Forall2
/-
Computations that can fail.

A step that is known to succeed is taken apart by `bind_eq_ok_iff`, a walk over a list by
`mapM_eq_ok_iff`.  That a loop succeeds is shown by `foldlM_ok`: the invariant speaks of the part
of the list that is behind the loop.
-/

namespace List

variable {α β : Type} {r : α → β → Prop} {l : List α} {l' : List β}

theorem Forall₂.exists_left (h : Forall₂ r l l') {b : β} (hb : b ∈ l') : ∃ a ∈ l, r a b := by
  induction h with
  | nil => cases hb
  | cons hab _ ih =>
    cases hb with
    | head => exact ⟨_, mem_cons_self, hab⟩
    | tail _ hb =>
      obtain ⟨a, ha, hab⟩ := ih hb
      exact ⟨a, mem_cons_of_mem _ ha, hab⟩

theorem Forall₂.exists_right (h : Forall₂ r l l') {a : α} (ha : a ∈ l) : ∃ b ∈ l', r a b :=
  h.flip.exists_left ha

theorem Forall₂.exists_getElem? (h : Forall₂ r l l') {n : Nat} {a : α} (ha : l[n]? = some a) :
    ∃ b, l'[n]? = some b ∧ r a b := by
  obtain ⟨hn, rfl⟩ := List.getElem?_eq_some_iff.1 ha
  have hn' : n < l'.length := h.length_eq ▸ hn
  exact ⟨l'[n], List.getElem?_eq_getElem hn', h.get hn hn'⟩

theorem exists_forall₂ (h : ∀ a ∈ l, ∃ b, r a b) : ∃ l', Forall₂ r l l' := by
  induction l with
  | nil => exact ⟨[], .nil⟩
  | cons a l ih =>
    obtain ⟨b, hb⟩ := h a mem_cons_self
    obtain ⟨l', hl'⟩ := ih fun a ha => h a (mem_cons_of_mem _ ha)
    exact ⟨b :: l', .cons hb hl'⟩

end List

namespace Except

variable {ε δ α β : Type}

theorem bind_eq_ok_iff {x : Except ε α} {f : α → Except ε β} {b : β} :
    (x >>= f) = .ok b ↔ ∃ a, x = .ok a ∧ f a = .ok b := by
  cases x with
  | error e => simp [bind, Except.bind]
  | ok a => simp [bind, Except.bind]

theorem bind_eq_error_iff {x : Except ε α} {f : α → Except ε β} {e : ε} :
    (x >>= f) = .error e ↔ x = .error e ∨ ∃ a, x = .ok a ∧ f a = .error e := by
  cases x with
  | error e' => simp [bind, Except.bind]
  | ok a => simp [bind, Except.bind]

@[simp] theorem ok_bind (a : α) (f : α → Except ε β) : ((.ok a : Except ε α) >>= f) = f a := rfl

theorem map_eq_ok_iff {x : Except ε α} {f : α → β} {b : β} :
    x.map f = .ok b ↔ ∃ a, x = .ok a ∧ f a = b := by
  cases x <;> simp [Except.map]

theorem map_eq_error_iff {x : Except ε α} {f : α → β} {e : ε} :
    x.map f = .error e ↔ x = .error e := by
  cases x <;> simp [Except.map]

theorem mapError_eq_ok_iff {x : Except ε α} {f : ε → δ} {a : α} :
    x.mapError f = .ok a ↔ x = .ok a := by
  cases x <;> simp [Except.mapError]

theorem mapError_eq_error_iff {x : Except ε α} {f : ε → δ} {d : δ} :
    x.mapError f = .error d ↔ ∃ e, x = .error e ∧ f e = d := by
  cases x <;> simp [Except.mapError]

/-- An optional result behind a check. -/
theorem toOption_eq_some_iff {x : Except ε α} {a : α} : x.toOption = some a ↔ x = .ok a := by
  cases x <;> simp [Except.toOption]

theorem ite_eq_ok_iff {c : Prop} [Decidable c] {a a' : α} {e : ε} :
    (if c then .ok a else .error e : Except ε α) = .ok a' ↔ c ∧ a = a' := by
  split <;> simp [*]

theorem ite_elim_eq_ok_iff {c : Prop} [Decidable c] {o : Option α} {e e' : ε} {a : α} :
    (if c then o.elim (.error e) .ok else .error e') = (.ok a : Except ε α) ↔ c ∧ o = some a := by
  by_cases hc : c
  · cases o <;> simp [hc]
  · simp [hc]

theorem mapM_eq_ok_iff {f : α → Except ε β} {l : List α} {l' : List β} :
    l.mapM f = .ok l' ↔ List.Forall₂ (fun a b => f a = .ok b) l l' := by
  induction l generalizing l' with
  | nil =>
    rw [List.mapM_nil, List.forall₂_nil_left_iff]
    show (Except.ok [] : Except ε (List β)) = .ok l' ↔ l' = []
    rw [Except.ok.injEq, eq_comm]
  | cons a l ih =>
    rw [List.mapM_cons, List.forall₂_cons_left_iff]
    constructor
    · intro h
      obtain ⟨b, hb, h⟩ := bind_eq_ok_iff.1 h
      obtain ⟨bs, hbs, h⟩ := bind_eq_ok_iff.1 h
      obtain rfl : b :: bs = l' := Except.ok.inj h
      exact ⟨b, bs, hb, ih.1 hbs, rfl⟩
    · rintro ⟨b, bs, hb, hbs, rfl⟩
      rw [hb, ih.2 hbs]
      rfl

theorem mapM_eq_ok_map {f : α → Except ε β} {f' : α → β} {l : List α}
    (h : ∀ a ∈ l, f a = .ok (f' a)) : l.mapM f = .ok (l.map f') := by
  rw [mapM_eq_ok_iff, List.forall₂_map_right_iff, List.forall₂_same]
  exact h

theorem mapM_eq_ok_self {f : α → Except ε α} {l : List α} (h : ∀ a ∈ l, f a = .ok a) :
    l.mapM f = .ok l := by
  rw [mapM_eq_ok_iff, List.forall₂_same]
  exact h

/-- Each result of a walk is the result of one of its elements. -/
theorem exists_of_mem_mapM {f : α → Except ε β} {l : List α} {l' : List β}
    (h : l.mapM f = .ok l') {b : β} (hb : b ∈ l') : ∃ a ∈ l, f a = .ok b :=
  (mapM_eq_ok_iff.1 h).exists_left hb

/-- Where a walk succeeds, so does each of its elements. -/
theorem ok_of_mapM_eq_ok {f : α → Except ε β} {l : List α} {l' : List β} (h : l.mapM f = .ok l')
    {a : α} (ha : a ∈ l) : ∃ b, f a = .ok b :=
  ((mapM_eq_ok_iff.1 h).exists_right ha).imp fun _ hb => hb.2

theorem exists_of_mapM_eq_error {f : α → Except ε β} {l : List α} {e : ε}
    (h : l.mapM f = .error e) : ∃ a ∈ l, f a = .error e := by
  induction l with
  | nil => cases h
  | cons a l ih =>
    rw [List.mapM_cons] at h
    rcases bind_eq_error_iff.1 h with ha | ⟨b, -, h⟩
    · exact ⟨a, List.mem_cons_self, ha⟩
    · rcases bind_eq_error_iff.1 h with hl | ⟨bs, -, h⟩
      · obtain ⟨a', ha', he⟩ := ih hl
        exact ⟨a', List.mem_cons_of_mem _ ha', he⟩
      · cases h

theorem exists_mapM_eq_ok_iff {f : α → Except ε β} {l : List α} :
    (∃ l', l.mapM f = .ok l') ↔ ∀ a ∈ l, ∃ b, f a = .ok b := by
  constructor
  · intro h a ha
    obtain ⟨l', hl'⟩ := h
    exact ok_of_mapM_eq_ok hl' ha
  · intro h
    cases hl : l.mapM f with
    | ok l' => exact ⟨l', rfl⟩
    | error e =>
      obtain ⟨a, ha, he⟩ := exists_of_mapM_eq_error hl
      obtain ⟨b, hb⟩ := h a ha
      rw [he] at hb
      cases hb

/-- A walk stops at the first element that fails. -/
theorem mapM_eq_error_iff {f : α → Except ε β} {l : List α} {e : ε} :
    l.mapM f = .error e ↔
      ∃ before a behind, l = before ++ a :: behind ∧ (∀ b ∈ before, ∃ c, f b = .ok c) ∧
        f a = .error e := by
  induction l with
  | nil =>
    refine iff_of_false nofun fun ⟨before, a, behind, hl, _⟩ => ?_
    exact List.append_ne_nil_of_right_ne_nil before (List.cons_ne_nil a behind) hl.symm
  | cons a l ih =>
    rw [List.mapM_cons, bind_eq_error_iff]
    constructor
    · intro h
      rcases h with ha | ⟨b, hb, h⟩
      · exact ⟨[], a, l, rfl, nofun, ha⟩
      · rcases bind_eq_error_iff.1 h with hl | ⟨bs, -, h⟩
        · obtain ⟨before, a', behind, rfl, hbefore, ha'⟩ := ih.1 hl
          exact ⟨a :: before, a', behind, rfl, List.forall_mem_cons.2 ⟨⟨b, hb⟩, hbefore⟩, ha'⟩
        · cases h
    · intro h
      obtain ⟨before, a', behind, hl, hbefore, ha'⟩ := h
      cases before with
      | nil =>
        obtain ⟨rfl, rfl⟩ := List.cons.inj hl
        exact .inl ha'
      | cons b before =>
        obtain ⟨rfl, rfl⟩ := List.cons.inj hl
        obtain ⟨⟨c, hc⟩, hbefore⟩ := List.forall_mem_cons.1 hbefore
        refine .inr ⟨c, hc, bind_eq_error_iff.2 (.inl ?_)⟩
        exact ih.2 ⟨before, a', behind, rfl, hbefore, ha'⟩

theorem exists_mapM_eq_error {f : α → Except ε β} {l : List α} {a : α} {e : ε} (ha : a ∈ l)
    (h : f a = .error e) : ∃ e', l.mapM f = .error e' := by
  cases hl : l.mapM f with
  | error e' => exact ⟨e', rfl⟩
  | ok bs =>
    obtain ⟨b, hb⟩ := ok_of_mapM_eq_ok hl ha
    rw [h] at hb
    cases hb

/-- A walk that refuses some elements, all with one error, refuses lists with such an element. -/
theorem mapM_eq_ite {f : α → Except ε β} {f' : α → β} {P : α → Prop} [DecidablePred P] {e : ε}
    {l : List α} (h : ∀ a ∈ l, f a = if P a then .ok (f' a) else .error e) :
    l.mapM f = if ∀ a ∈ l, P a then .ok (l.map f') else .error e := by
  induction l with
  | nil => rfl
  | cons a l ih =>
    have hrest := ih fun a' ha' => h a' (List.mem_cons_of_mem _ ha')
    rw [List.mapM_cons, h a List.mem_cons_self, hrest]
    by_cases ha : P a
    · by_cases hl : ∀ a' ∈ l, P a'
      · rw [if_pos ha, if_pos hl, if_pos (List.forall_mem_cons.2 ⟨ha, hl⟩)]
        rfl
      · rw [if_pos ha, if_neg hl, if_neg fun hall => hl (List.forall_mem_cons.1 hall).2]
        rfl
    · rw [if_neg ha, if_neg fun hall => ha (List.forall_mem_cons.1 hall).1]
      rfl

/-- Walks over two lists whose elements give the same results give the same. -/
theorem mapM_eq_of_forall₂ {α' : Type} {f : α → Except ε β} {f' : α' → Except ε β} {l : List α}
    {l' : List α'} (h : List.Forall₂ (fun a a' => f' a' = f a) l l') : l'.mapM f' = l.mapM f := by
  induction h with
  | nil => rfl
  | cons hab _ ih => rw [List.mapM_cons, List.mapM_cons, hab, ih]

theorem foldlM_eq_of_forall₂ {α' : Type} {f : β → α → Except ε β} {f' : β → α' → Except ε β}
    {l : List α} {l' : List α'} (h : List.Forall₂ (fun a a' => ∀ b, f' b a' = f b a) l l') (b : β) :
    l'.foldlM f' b = l.foldlM f b := by
  induction h generalizing b with
  | nil => rfl
  | cons hab _ ih =>
    rw [List.foldlM_cons, List.foldlM_cons, hab b]
    exact congrArg _ (funext ih)

theorem foldlM_congr {f f' : β → α → Except ε β} {l : List α} (h : ∀ a ∈ l, ∀ b, f b a = f' b a)
    (b : β) : l.foldlM f b = l.foldlM f' b :=
  foldlM_eq_of_forall₂ (List.forall₂_same.2 h) b

/-- A loop over states that stand for those of another loop, step by step. -/
theorem foldlM_hom {γ : Type} {f : β → α → Except ε β} {f' : γ → α → Except ε γ} {g : β → γ}
    {l : List α} (h : ∀ a ∈ l, ∀ b, f' (g b) a = (f b a).map g) (b : β) :
    l.foldlM f' (g b) = (l.foldlM f b).map g := by
  induction l generalizing b with
  | nil => rfl
  | cons a l ih =>
    rw [List.foldlM_cons, List.foldlM_cons, h a List.mem_cons_self]
    cases f b a with
    | error e => rfl
    | ok b' => exact ih (fun a' ha' => h a' (List.mem_cons_of_mem _ ha')) b'

/-- What each step of a loop keeps holds at its end. -/
theorem foldlM_inv {f : β → α → Except ε β} (Inv : β → Prop) {l : List α} {b b' : β}
    (h : l.foldlM f b = .ok b') (hb : Inv b)
    (step : ∀ a ∈ l, ∀ b b', Inv b → f b a = .ok b' → Inv b') : Inv b' := by
  induction l generalizing b with
  | nil =>
    obtain rfl := Except.ok.inj h
    exact hb
  | cons a l ih =>
    rw [List.foldlM_cons] at h
    obtain ⟨b₁, h₁, h⟩ := bind_eq_ok_iff.1 h
    exact ih h (step a List.mem_cons_self b b₁ hb h₁) fun a' ha' => step a' (.tail a ha')

/-- A loop that succeeds has a step for each element. -/
theorem exists_step_of_foldlM {f : β → α → Except ε β} {l : List α} {b b' : β}
    (h : l.foldlM f b = .ok b') {a : α} (ha : a ∈ l) : ∃ c c', f c a = .ok c' := by
  induction l generalizing b with
  | nil => cases ha
  | cons a' l ih =>
    rw [List.foldlM_cons] at h
    obtain ⟨b₁, h₁, h⟩ := bind_eq_ok_iff.1 h
    cases ha with
    | head => exact ⟨b, b₁, h₁⟩
    | tail _ ha => exact ih h ha

/-- A loop each step of which succeeds and keeps an invariant of the elements done so far. -/
theorem foldlM_ok {f : β → α → Except ε β} (Inv : List α → β → Prop) {l : List α} {b : β}
    (start : Inv [] b)
    (step : ∀ before a after b, l = before ++ a :: after → Inv before b →
      ∃ b', f b a = .ok b' ∧ Inv (before ++ [a]) b') :
    ∃ b', l.foldlM f b = .ok b' ∧ Inv l b' := by
  have go : ∀ (after before : List α) (b : β), l = before ++ after → Inv before b →
      ∃ b', after.foldlM f b = .ok b' ∧ Inv l b' := by
    intro after
    induction after with
    | nil =>
      intro before b hl hb
      rw [List.append_nil] at hl
      exact ⟨b, rfl, hl ▸ hb⟩
    | cons a after ih =>
      intro before b hl hb
      obtain ⟨b₁, h₁, hb₁⟩ := step before a after b hl hb
      obtain ⟨b₂, h₂, hb₂⟩ := ih (before ++ [a]) b₁ (by simp [hl]) hb₁
      refine ⟨b₂, ?_, hb₂⟩
      rw [List.foldlM_cons, h₁]
      exact h₂
  exact go l [] b rfl start

theorem foldlM_total {f : β → α → Except ε β} {l : List α}
    (h : ∀ a ∈ l, ∀ b, ∃ b', f b a = .ok b') (b : β) : ∃ b', l.foldlM f b = .ok b' := by
  obtain ⟨b', hb', -⟩ := foldlM_ok (fun _ _ => True) (f := f) (l := l) (b := b) trivial
    fun before a after b₁ hsplit _ => by
      obtain ⟨b₂, hb₂⟩ := h a (by simp [hsplit]) b₁
      exact ⟨b₂, hb₂, trivial⟩
  exact ⟨b', hb'⟩

end Except

namespace Option

variable {α β : Type}

theorem mapM_eq_some_iff {f : α → Option β} {l : List α} {l' : List β} :
    l.mapM f = some l' ↔ List.Forall₂ (fun a b => f a = some b) l l' := by
  induction l generalizing l' with
  | nil =>
    rw [List.mapM_nil, List.forall₂_nil_left_iff]
    show some [] = some l' ↔ l' = []
    rw [Option.some_inj, eq_comm]
  | cons a l ih =>
    rw [List.mapM_cons, List.forall₂_cons_left_iff]
    show ((f a).bind fun b => (l.mapM f).bind fun bs => some (b :: bs)) = some l' ↔ _
    simp only [Option.bind_eq_some_iff, ih, Option.some_inj]
    constructor
    · intro h
      obtain ⟨b, hb, bs, hbs, rfl⟩ := h
      exact ⟨b, bs, hb, hbs, rfl⟩
    · intro h
      obtain ⟨b, bs, hb, hbs, rfl⟩ := h
      exact ⟨b, hb, bs, hbs, rfl⟩

theorem mapM_eq_some_self {f : α → Option α} {l : List α} (h : ∀ a ∈ l, f a = some a) :
    l.mapM f = some l := by
  rw [mapM_eq_some_iff, List.forall₂_same]
  exact h

theorem exists_mapM_eq_some {f : α → Option β} {l : List α} (h : ∀ a ∈ l, ∃ b, f a = some b) :
    ∃ l', l.mapM f = some l' := by
  induction l with
  | nil => exact ⟨[], rfl⟩
  | cons a l ih =>
    obtain ⟨b, hb⟩ := h a List.mem_cons_self
    obtain ⟨l', hl'⟩ := ih fun a' ha' => h a' (.tail a ha')
    exact ⟨b :: l', mapM_eq_some_iff.2 (.cons hb (mapM_eq_some_iff.1 hl'))⟩

end Option
