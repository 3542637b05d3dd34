import Mathlib.Data.List.Pairwise
import TreeFlow.Path
/-
Paths and their extensions, in path order.

A path stands before its extensions, and whatever stands between a path and one of its extensions
is an extension itself (`extends?_of_between`).  Segments that two paths start with do not count in
their order.  Of two paths neither of which extends the other, one precedes the other, and so does
whatever is put below them (`Precedes.child`).
-/

namespace TreeFlow
namespace Path

/-! ## Order -/

theorem compare_cons_self (a : UInt32) (p q : List UInt32) :
    compare (a :: p) (a :: q) = compare p q := by
  have same : compare a a = .eq := Std.ReflCmp.compare_self
  rw [List.compare_cons_cons, same]
  rfl

theorem compare_append_left (c p q : List UInt32) : compare (c ++ p) (c ++ q) = compare p q := by
  induction c with
  | nil => rfl
  | cons a c ih => rw [List.cons_append, List.cons_append, compare_cons_self, ih]

theorem lt_of_compare_cons {a b : UInt32} {p q : List UInt32}
    (h : compare (a :: p) (b :: q) ≠ .gt) (hab : a ≠ b) : a < b := by
  rw [List.compare_cons_cons] at h
  cases hcompare : compare a b with
  | lt => exact Std.compare_eq_lt.1 hcompare
  | eq => exact absurd (Std.LawfulEqOrd.compare_eq_iff_eq.1 hcompare) hab
  | gt =>
    rw [hcompare] at h
    exact absurd rfl h

/-! ## Extensions -/

theorem extends?_iff_segments {p q : Path} :
    p.extends? q = true ↔ p.segments <+: q.segments ∧ p ≠ q := by
  rw [extends?_iff]
  constructor
  · rintro ⟨s, hs, h⟩
    refine ⟨⟨s, h⟩, ?_⟩
    rintro rfl
    exact hs (List.self_eq_append_right.1 h.symm)
  · rintro ⟨⟨s, h⟩, hne⟩
    refine ⟨s, ?_, h⟩
    rintro rfl
    rw [List.append_nil] at h
    exact hne (congrArg Path.mk h)

theorem prefix_of_between {p q r : List UInt32} (hpq : compare p q = .lt)
    (hqr : compare q r = .lt) (h : p <+: r) : p <+: q := by
  induction p generalizing q r with
  | nil => exact List.nil_prefix
  | cons a p ih =>
    obtain ⟨s, rfl⟩ := h
    cases q with
    | nil =>
      rw [List.compare_cons_nil] at hpq
      cases hpq
    | cons b q =>
      rw [List.cons_append, List.compare_cons_cons] at hqr
      rw [List.compare_cons_cons] at hpq
      cases hab : compare a b with
      | lt =>
        rw [Std.OrientedCmp.gt_of_lt hab] at hqr
        cases hqr
      | gt =>
        rw [hab] at hpq
        cases hpq
      | eq =>
        obtain rfl := Std.LawfulEqOrd.compare_eq_iff_eq.1 hab
        rw [hab] at hpq hqr
        exact List.cons_prefix_cons.2 ⟨rfl, ih hpq hqr ⟨s, rfl⟩⟩

/-- What stands between a path and an extension of it is an extension of it. -/
theorem extends?_of_between {p q r : Path} (hpq : compare p q = .lt) (hqr : compare q r = .lt)
    (h : p.extends? r = true) : p.extends? q = true := by
  refine extends?_iff_segments.2 ⟨prefix_of_between hpq hqr (extends?_iff_segments.1 h).1, ?_⟩
  rintro rfl
  have same : compare p p = .eq := Std.ReflCmp.compare_self
  rw [same] at hpq
  cases hpq

/-- A path stands before its extensions. -/
theorem compare_of_extends? {p q : Path} (h : p.extends? q = true) : compare p q = .lt := by
  obtain ⟨s, hs, h⟩ := extends?_iff.1 h
  obtain ⟨a, s, rfl⟩ := List.exists_cons_of_ne_nil hs
  have hroot := compare_append_left p.segments [] (a :: s)
  rw [List.append_nil, h] at hroot
  rw [compare_def, hroot]
  rfl

theorem extends?_iff_of_lt {p q : Path} (h : compare p q = .lt) :
    p.extends? q = true ↔ p.segments <+: q.segments := by
  rw [extends?_iff_segments, and_iff_left]
  rintro rfl
  have same : compare p p = .eq := Std.ReflCmp.compare_self
  rw [same] at h
  cases h

theorem not_extends?_of_lt {p q : Path} (h : compare p q = .lt) : ¬ q.extends? p = true := fun hq =>
  Std.OrientedCmp.not_lt_of_lt h (compare_of_extends? hq)

theorem not_extends?_self (p : Path) : ¬ p.extends? p = true := fun h =>
  (extends?_iff_segments.1 h).2 rfl

theorem extends?_trans {p q r : Path} (h : p.extends? q = true) (h' : q.extends? r = true) :
    p.extends? r = true := by
  obtain ⟨s, hs, hq⟩ := extends?_iff.1 h
  obtain ⟨s', -, hr⟩ := extends?_iff.1 h'
  refine extends?_iff.2 ⟨s ++ s', List.append_ne_nil_of_left_ne_nil hs s', ?_⟩
  rw [← hr, ← hq, List.append_assoc]

/-! ## Paths of one segment -/

/-- Only the root is extended by a path of one segment. -/
theorem extends?_ofIndex_iff {p : Path} {i : Nat} : p.extends? (ofIndex i) = true ↔ p = root := by
  obtain ⟨l⟩ := p
  constructor
  · intro h
    obtain ⟨s, hs, h⟩ := extends?_iff.1 h
    cases l with
    | nil => rfl
    | cons a l =>
      have hlength := congrArg List.length h
      have hpos := List.length_pos_iff.2 hs
      simp only [ofIndex, List.length_append, List.length_cons, List.length_nil] at hlength
      omega
  · rintro ⟨⟩
    rfl

theorem root_extends?_iff {p : Path} : root.extends? p = true ↔ p ≠ root := by
  rw [extends?_iff_segments]
  exact ⟨fun h => Ne.symm h.2, fun h => ⟨List.nil_prefix, Ne.symm h⟩⟩

/-- Numbers that fit a segment are ordered as they are. -/
theorem compare_ofIndex {i j : Nat} (hij : i < j) (hj : j < UInt32.size) :
    compare (ofIndex i) (ofIndex j) = .lt := by
  have hlt : UInt32.ofNat i < UInt32.ofNat j :=
    (UInt32.ofNat_lt_iff_lt (Nat.lt_trans hij hj) hj).2 hij
  rw [compare_def, ofIndex, ofIndex, List.compare_cons_cons, Std.compare_eq_lt.2 hlt]
  rfl

/-- Numbers come round after `2 ^ 32`. -/
theorem ofIndex_eq_iff {i j : Nat} : ofIndex i = ofIndex j ↔ i % UInt32.size = j % UInt32.size := by
  simp [ofIndex, ← UInt32.toNat_inj, UInt32.toNat_ofNat']

/-! ## Paths that part -/

/-- At the first place where the paths differ both have a segment, and `p` has the smaller one. -/
def Precedes (p q : Path) : Prop :=
  ∃ (c : List UInt32) (a b : UInt32) (s t : List UInt32),
    a < b ∧ p.segments = c ++ a :: s ∧ q.segments = c ++ b :: t

theorem exists_split_of_compare {p q : List UInt32} (h : compare p q = .lt) (hpq : ¬ p <+: q) :
    ∃ (c : List UInt32) (a b : UInt32) (s t : List UInt32),
      a < b ∧ p = c ++ a :: s ∧ q = c ++ b :: t := by
  induction p generalizing q with
  | nil => exact absurd List.nil_prefix hpq
  | cons a p ih =>
    cases q with
    | nil => cases h
    | cons b q =>
      by_cases hab : a = b
      · subst hab
        rw [compare_cons_self] at h
        have hrest : ¬ p <+: q := fun hp => hpq (List.cons_prefix_cons.2 ⟨rfl, hp⟩)
        obtain ⟨c, a', b', s, t, hlt, hp, hq⟩ := ih h hrest
        exact ⟨a :: c, a', b', s, t, hlt, congrArg (a :: ·) hp, congrArg (a :: ·) hq⟩
      · have hlt : a < b := lt_of_compare_cons (by rw [h]; exact nofun) hab
        exact ⟨[], a, b, p, q, hlt, rfl, rfl⟩

/-- A path precedes those that it stands before, but for its extensions. -/
theorem precedes_iff {p q : Path} :
    p.Precedes q ↔ compare p q = .lt ∧ ¬ p.extends? q = true := by
  constructor
  · intro h
    obtain ⟨c, a, b, s, t, hab, hp, hq⟩ := h
    have hlt : compare p q = .lt := by
      rw [compare_def, hp, hq, compare_append_left, List.compare_cons_cons,
        Std.compare_eq_lt.2 hab]
      rfl
    refine ⟨hlt, ?_⟩
    rw [extends?_iff_of_lt hlt, hp, hq, List.prefix_append_right_inj, List.cons_prefix_cons]
    intro h
    rw [h.1] at hab
    exact UInt32.lt_irrefl _ hab
  · intro h
    exact exists_split_of_compare h.1 fun hp => h.2 ((extends?_iff_of_lt h.1).2 hp)

/-- What is added behind paths that part does not count. -/
theorem Precedes.child {p q : Path} (h : p.Precedes q) (i j : UInt32) :
    (p.child i).Precedes (q.child j) := by
  obtain ⟨c, a, b, s, t, hab, hp, hq⟩ := h
  refine ⟨c, a, b, s ++ [i], t ++ [j], hab, ?_, ?_⟩
  · rw [Path.child, hp, List.append_assoc, List.cons_append]
  · rw [Path.child, hq, List.append_assoc, List.cons_append]

theorem precedes_child (p : Path) {i j : UInt32} (h : i < j) :
    (p.child i).Precedes (p.child j) :=
  ⟨p.segments, i, j, [], [], h, rfl, rfl⟩

theorem precedes_ofIndex {i j : Nat} (hij : i < j) (hj : j < UInt32.size) :
    (ofIndex i).Precedes (ofIndex j) :=
  precedes_child root ((UInt32.ofNat_lt_iff_lt (Nat.lt_trans hij hj) hj).2 hij)

/-- Ascending paths precede each other if none of them extends another. -/
theorem pairwise_precedes_iff {l : List Path} (h : l.Pairwise fun p q => compare p q = .lt) :
    l.Pairwise Precedes ↔ ∀ p ∈ l, ∀ q ∈ l, ¬ p.extends? q = true := by
  constructor
  · intro hl
    have hboth : l.Pairwise fun p q => ¬ p.extends? q = true ∧ ¬ q.extends? p = true :=
      hl.imp fun hpq => ⟨(precedes_iff.1 hpq).2, not_extends?_of_lt (precedes_iff.1 hpq).1⟩
    have hsymm : Std.Symm fun p q : Path => ¬ p.extends? q = true ∧ ¬ q.extends? p = true :=
      ⟨fun _ _ => And.symm⟩
    intro p hp q hq
    exact (hboth.forall_of_forall (fun p _ => ⟨not_extends?_self p, not_extends?_self p⟩) hp hq).1
  · intro hfree
    exact h.imp_of_mem fun hp hq hlt => precedes_iff.2 ⟨hlt, hfree _ hp _ hq⟩

end Path
end TreeFlow
