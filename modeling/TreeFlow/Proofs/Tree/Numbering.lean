import Mathlib.Data.List.Lex
import Mathlib.Data.List.Pairwise
import TreeFlow.Proofs.Path
import TreeFlow.Tree.Structure
/-
Numbers for the segments of paths.

Paths are numbered in path order, each given the one before it.  To follow this a path is taken with
its numbers, as a list of pairs: where two such lists part, both the segment and its number are
smaller in the one that stands in front (`pairwise_numberings`).  So segments and numbers tell the
same of any two paths: which one comes first, and whether one starts with the other.

The numbers below each prefix start from zero and leave none out (`closed_numberings`), and with
both in hand there is only one way to number (`map_fst_eq_map_snd`).
-/

namespace TreeFlow
namespace Tree

/-- Both the segment and its number are smaller. -/
def Precedes (x y : UInt32 × UInt32) : Prop := x.1 < y.1 ∧ x.2 < y.2

/-- The segments of paths with their numbers, given those of the path before them. -/
def numberings (before : List (UInt32 × UInt32)) :
    List (List UInt32) → List (List (UInt32 × UInt32))
  | [] => []
  | p :: rest => numberSegments before p :: numberings (numberSegments before p) rest

/-- After the prefix comes the segment, in one of the paths. -/
def Follows (paths : List (List UInt32)) (prior : List UInt32) (a : UInt32) : Prop :=
  ∃ p ∈ paths, prior ++ [a] <+: p

/-- With a segment, every smaller one follows the same prefix. -/
def Closed (paths : List (List UInt32)) : Prop :=
  ∀ prior a b, b < a → Follows paths prior a → Follows paths prior b

/-! ## Lists that part -/

section Lex

variable {α : Type} {r : α → α → Prop} {z w : List α} {f : α → UInt32}

theorem compare_map_of_lex (hf : ∀ x y, r x y → f x < f y) (h : List.Lex r z w) :
    compare (z.map f) (w.map f) = .lt := by
  induction h with
  | nil => rfl
  | cons _ ih => rw [List.map_cons, List.map_cons, Path.compare_cons_self, ih]
  | rel hxy =>
    rw [List.map_cons, List.map_cons, List.compare_cons_cons, Std.compare_eq_lt.2 (hf _ _ hxy)]
    rfl

theorem take_map_eq_iff_of_lex (hf : ∀ x y, r x y → f x < f y) (h : List.Lex r z w) (n : Nat) :
    (z.map f).take n = (w.map f).take n ↔ z.take n = w.take n := by
  refine ⟨fun heq => ?_, fun heq => by rw [← List.map_take, ← List.map_take, heq]⟩
  induction h generalizing n with
  | nil =>
    cases n with
    | zero => rfl
    | succ n => simp at heq
  | cons _ ih =>
    cases n with
    | zero => rfl
    | succ n =>
      rw [List.map_cons, List.map_cons, List.take_succ_cons, List.take_succ_cons] at heq
      rw [List.take_succ_cons, List.take_succ_cons, ih n (List.cons.inj heq).2]
  | rel hxy =>
    cases n with
    | zero => rfl
    | succ n =>
      rw [List.map_cons, List.map_cons, List.take_succ_cons, List.take_succ_cons] at heq
      have hlt := hf _ _ hxy
      rw [(List.cons.inj heq).1] at hlt
      exact absurd hlt (UInt32.lt_irrefl _)

theorem map_prefix_iff_of_lex (hf : ∀ x y, r x y → f x < f y) (h : List.Lex r z w) :
    z.map f <+: w.map f ↔ z <+: w := by
  have htake := take_map_eq_iff_of_lex hf h z.length
  rw [List.take_length, ← List.length_map (f := f), List.take_length] at htake
  rw [List.prefix_iff_eq_take, List.prefix_iff_eq_take, htake, List.length_map]

end Lex

theorem precedes_trans {x y z : UInt32 × UInt32} (h : Precedes x y) (h' : Precedes y z) :
    Precedes x z :=
  ⟨UInt32.lt_trans h.1 h'.1, UInt32.lt_trans h.2 h'.2⟩

/-! ## One path -/

theorem map_fst_numberSegments (before : List (UInt32 × UInt32)) (p : List UInt32) :
    (numberSegments before p).map Prod.fst = p := by
  have hzero : ∀ rest : List UInt32, (rest.map fun c => (c, (0 : UInt32))).map Prod.fst = rest :=
    fun rest => by rw [List.map_map]; exact List.map_id rest
  fun_induction numberSegments before p with
  | case1 n before b rest ih => rw [List.map_cons, ih]
  | case2 a n before b rest hab => rw [List.map_cons, hzero]
  | case3 before rest _ => exact hzero rest

/-- A number is never above its segment, so that counting on stays among the segments. -/
theorem le_of_mem_numberSegments {before : List (UInt32 × UInt32)} {p : List UInt32}
    (hp : compare (before.map Prod.fst) p ≠ .gt) (hbefore : ∀ x ∈ before, x.2 ≤ x.1) :
    ∀ x ∈ numberSegments before p, x.2 ≤ x.1 := by
  have hzero : ∀ rest : List UInt32, ∀ x ∈ rest.map fun c => (c, (0 : UInt32)), x.2 ≤ x.1 := by
    intro rest x hx
    obtain ⟨c, -, rfl⟩ := List.mem_map.1 hx
    exact UInt32.zero_le
  fun_induction numberSegments before p with
  | case1 n before b rest ih =>
    obtain ⟨hb, hbefore⟩ := List.forall_mem_cons.1 hbefore
    rw [List.map_cons, Path.compare_cons_self] at hp
    exact List.forall_mem_cons.2 ⟨hb, ih hp hbefore⟩
  | case2 a n before b rest hab =>
    have hn : n ≤ a := hbefore (a, n) List.mem_cons_self
    have hlt : a < b := Path.lt_of_compare_cons hp hab
    have hnext : n + 1 ≤ b := by grind
    exact List.forall_mem_cons.2 ⟨hnext, hzero rest⟩
  | case3 before rest _ => exact hzero rest

/-- A path and the one before it part with both a greater segment and a greater number. -/
theorem lex_numberSegments {before : List (UInt32 × UInt32)} {p : List UInt32}
    (hp : compare (before.map Prod.fst) p = .lt) (hbefore : ∀ x ∈ before, x.2 ≤ x.1) :
    List.Lex Precedes before (numberSegments before p) := by
  fun_induction numberSegments before p with
  | case1 n before b rest ih =>
    rw [List.map_cons, Path.compare_cons_self] at hp
    exact .cons (ih hp (List.forall_mem_cons.1 hbefore).2)
  | case2 a n before b rest hab =>
    have hn : n ≤ a := hbefore (a, n) List.mem_cons_self
    have hle : compare (((a, n) :: before).map Prod.fst) (b :: rest) ≠ .gt := by
      rw [hp]
      exact nofun
    have hlt : a < b := Path.lt_of_compare_cons hle hab
    have hnext : n < n + 1 := by grind
    exact .rel ⟨hlt, hnext⟩
  | case3 before rest hneither =>
    cases before with
    | nil =>
      cases rest with
      | nil => cases hp
      | cons b rest => exact .nil
    | cons x before =>
      cases rest with
      | nil => cases hp
      | cons b rest => exact absurd rfl (hneither x.1 x.2 before b rest rfl)

/-- A number is one that the path before has at the same place, the next after it, or zero. -/
theorem prefix_numberSegments {before : List (UInt32 × UInt32)} {p prior : List UInt32} {k : UInt32}
    (h : prior ++ [k] <+: (numberSegments before p).map Prod.snd) :
    k = 0 ∨ prior ++ [k] <+: before.map Prod.snd ∨
      ∃ n, prior ++ [n] <+: before.map Prod.snd ∧ k = n + 1 := by
  have hzero : ∀ (rest prior : List UInt32),
      prior ++ [k] <+: (rest.map fun c => (c, (0 : UInt32))).map Prod.snd → k = 0 := by
    intro rest prior h
    have hk := h.subset (List.mem_append_right prior (List.mem_singleton_self k))
    rw [List.map_map] at hk
    obtain ⟨c, -, hc⟩ := List.mem_map.1 hk
    exact hc.symm
  fun_induction numberSegments before p generalizing prior with
  | case1 n before b rest ih =>
    rw [List.map_cons] at h ⊢
    cases prior with
    | nil =>
      rw [List.nil_append, List.cons_prefix_cons] at h
      refine .inr (.inl ?_)
      rw [List.nil_append, List.cons_prefix_cons]
      exact ⟨h.1, List.nil_prefix⟩
    | cons c prior =>
      rw [List.cons_append, List.cons_prefix_cons] at h
      simp only [List.cons_append, List.cons_prefix_cons, h.1, true_and]
      exact ih h.2
  | case2 a n before b rest hab =>
    rw [List.map_cons] at h ⊢
    cases prior with
    | nil =>
      rw [List.nil_append, List.cons_prefix_cons] at h
      refine .inr (.inr ⟨n, ?_, h.1⟩)
      rw [List.nil_append, List.cons_prefix_cons]
      exact ⟨rfl, List.nil_prefix⟩
    | cons c prior =>
      rw [List.cons_append, List.cons_prefix_cons] at h
      exact .inl (hzero rest prior h.2)
  | case3 before rest _ => exact .inl (hzero rest prior h)

/-! ## All paths -/

theorem numberPaths_eq (before : List (UInt32 × UInt32)) (l : List (List UInt32)) :
    numberPaths before l = (numberings before l).map fun z => ⟨z.map Prod.snd⟩ := by
  induction l generalizing before with
  | nil => rfl
  | cons p l ih => rw [numberPaths, numberings, List.map_cons, ih]

theorem map_fst_numberings (before : List (UInt32 × UInt32)) (l : List (List UInt32)) :
    (numberings before l).map (List.map Prod.fst) = l := by
  induction l generalizing before with
  | nil => rfl
  | cons p l ih => rw [numberings, List.map_cons, ih, map_fst_numberSegments]

theorem pairwise_cons_numberings {before : List (UInt32 × UInt32)} {l : List (List UInt32)}
    (hl : (before.map Prod.fst :: l).Pairwise fun p q => compare p q = .lt)
    (hbefore : ∀ x ∈ before, x.2 ≤ x.1) :
    (before :: numberings before l).Pairwise (List.Lex Precedes) := by
  induction l generalizing before with
  | nil => exact List.pairwise_singleton _ _
  | cons p l ih =>
    obtain ⟨hp, hl⟩ := List.pairwise_cons.1 hl
    have hlt : compare (before.map Prod.fst) p = .lt := hp p List.mem_cons_self
    have hle := le_of_mem_numberSegments (by rw [hlt]; exact nofun) hbefore
    have hrest : (numberSegments before p :: numberings (numberSegments before p) l).Pairwise
        (List.Lex Precedes) := ih (by rwa [map_fst_numberSegments]) hle
    have hlex := lex_numberSegments hlt hbefore
    rw [numberings]
    refine List.pairwise_cons.2 ⟨fun w hw => ?_, hrest⟩
    rcases List.mem_cons.1 hw with hw | hw
    · exact hw ▸ hlex
    · exact List.lex_trans precedes_trans hlex (List.rel_of_pairwise_cons hrest hw)

/-- Ascending paths are ascending with their numbers as well. -/
theorem pairwise_numberings {l : List (List UInt32)}
    (hl : l.Pairwise fun p q => compare p q = .lt) :
    (numberings [] l).Pairwise (List.Lex Precedes) := by
  cases l with
  | nil => exact .nil
  | cons p l =>
    have hfirst : compare [] p ≠ .gt := by cases p <;> exact nofun
    have hle : ∀ x ∈ numberSegments [] p, x.2 ≤ x.1 :=
      le_of_mem_numberSegments hfirst fun x hx => nomatch hx
    exact pairwise_cons_numberings (by rwa [map_fst_numberSegments]) hle

/-! ## Numbers without gaps -/

theorem Closed.snoc {done : List (List UInt32)} (h : Closed done)
    {before : List (UInt32 × UInt32)} (hbefore : before.map Prod.snd ∈ done) (p : List UInt32) :
    Closed (done ++ [(numberSegments before p).map Prod.snd]) := by
  intro prior k j hjk hk
  have widen : ∀ {a}, Follows done prior a →
      Follows (done ++ [(numberSegments before p).map Prod.snd]) prior a := by
    intro a ha
    obtain ⟨q, hq, ha⟩ := ha
    exact ⟨q, List.mem_append_left _ hq, ha⟩
  obtain ⟨q, hq, hpre⟩ := hk
  rcases List.mem_append.1 hq with hq | hq
  · exact widen (h prior k j hjk ⟨q, hq, hpre⟩)
  · rw [List.mem_singleton.1 hq] at hpre
    rcases prefix_numberSegments hpre with hk | hk | ⟨n, hn, hk⟩
    · rw [hk] at hjk
      exact absurd hjk UInt32.not_lt_zero
    · exact widen (h prior k j hjk ⟨_, hbefore, hk⟩)
    · have hjn : j ≤ n := by grind
      rcases UInt32.lt_or_eq_of_le hjn with hjn | hjn
      · exact widen (h prior n j hjn ⟨_, hbefore, hn⟩)
      · exact widen ⟨_, hbefore, hjn ▸ hn⟩

theorem Closed.append_numberings {done : List (List UInt32)} (h : Closed done)
    {before : List (UInt32 × UInt32)} (hbefore : before.map Prod.snd ∈ done)
    (l : List (List UInt32)) : Closed (done ++ (numberings before l).map (List.map Prod.snd)) := by
  induction l generalizing done before with
  | nil => simpa [numberings] using h
  | cons p l ih =>
    have hnext := ih (h.snoc hbefore p)
      (List.mem_append_right done (List.mem_singleton_self _))
    rwa [List.append_assoc, List.singleton_append] at hnext

/-- Nothing follows in the root path. -/
theorem follows_nil_cons {l : List (List UInt32)} {prior : List UInt32} {a : UInt32} :
    Follows ([] :: l) prior a ↔ Follows l prior a := by
  simp [Follows]

/-- The numbers below each prefix start from zero and leave none out. -/
theorem closed_numberings (l : List (List UInt32)) :
    Closed ((numberings [] l).map (List.map Prod.snd)) := by
  have hroot : Closed [[]] := fun prior a b _ h => by simp [Follows] at h
  have hbefore : ([] : List (UInt32 × UInt32)).map Prod.snd ∈ [[]] := List.mem_singleton_self _
  have h := hroot.append_numberings hbefore l
  intro prior a b hba ha
  exact follows_nil_cons.1 (h prior a b hba (follows_nil_cons.2 ha))

/-! ## One way to number -/

section

variable {l : List (List (UInt32 × UInt32))}

/-- Any two lists of an ascending list are equal, or they part. -/
theorem eq_or_lex_of_pairwise (hl : l.Pairwise (List.Lex Precedes))
    {z w : List (UInt32 × UInt32)} (hz : z ∈ l) (hw : w ∈ l) :
    z = w ∨ List.Lex Precedes z w ∨ List.Lex Precedes w z := by
  have hsymm : Std.Symm fun z w : List (UInt32 × UInt32) =>
      z = w ∨ List.Lex Precedes z w ∨ List.Lex Precedes w z :=
    ⟨fun _ _ h => h.imp Eq.symm Or.symm⟩
  have hall := hl.imp (S := fun z w => z = w ∨ List.Lex Precedes z w ∨ List.Lex Precedes w z)
    fun h => .inr (.inl h)
  exact hall.forall_of_forall (fun _ _ => .inl rfl) hz hw

/-- Lists of an ascending list start alike if what `f` reads off them starts alike. -/
theorem take_eq_of_pairwise (hl : l.Pairwise (List.Lex Precedes)) {f : UInt32 × UInt32 → UInt32}
    (hf : ∀ x y, Precedes x y → f x < f y) {z w : List (UInt32 × UInt32)} (hz : z ∈ l)
    (hw : w ∈ l) {n : Nat} (h : (z.map f).take n = (w.map f).take n) : z.take n = w.take n := by
  rcases eq_or_lex_of_pairwise hl hz hw with heq | hlex | hlex
  · rw [heq]
  · exact (take_map_eq_iff_of_lex hf hlex n).1 h
  · exact ((take_map_eq_iff_of_lex hf hlex n).1 h.symm).symm

/-- Behind a common start, two lists that part have pairs that are equal or part as well. -/
theorem eq_or_precedes_of_lex {c z w : List (UInt32 × UInt32)} {x y : UInt32 × UInt32}
    (h : List.Lex Precedes z w) (hz : c ++ [x] <+: z) (hw : c ++ [y] <+: w) :
    x = y ∨ Precedes x y := by
  induction h generalizing c with
  | nil => simp at hz
  | cons _ ih =>
    cases c with
    | nil =>
      rw [List.nil_append, List.cons_prefix_cons] at hz hw
      exact .inl (hz.1.trans hw.1.symm)
    | cons a c =>
      rw [List.cons_append, List.cons_prefix_cons] at hz hw
      exact ih hz.2 hw.2
  | rel hlt =>
    cases c with
    | nil =>
      rw [List.nil_append, List.cons_prefix_cons] at hz hw
      rw [hz.1, hw.1]
      exact .inr hlt
    | cons a c =>
      rw [List.cons_append, List.cons_prefix_cons] at hz hw
      rw [← hz.1, ← hw.1] at hlt
      exact absurd hlt.1 (UInt32.lt_irrefl _)

theorem eq_or_precedes_of_pairwise (hl : l.Pairwise (List.Lex Precedes))
    {c z w : List (UInt32 × UInt32)} {x y : UInt32 × UInt32} (hz : z ∈ l) (hw : w ∈ l)
    (hx : c ++ [x] <+: z) (hy : c ++ [y] <+: w) : x = y ∨ Precedes x y ∨ Precedes y x := by
  rcases eq_or_lex_of_pairwise hl hz hw with heq | hlex | hlex
  · subst heq
    have hsame : c ++ [x] = c ++ [y] :=
      (List.prefix_of_prefix_length_le hx hy (by simp)).eq_of_length (by simp)
    exact .inl (List.singleton_inj.1 (List.append_cancel_left hsame))
  · exact (eq_or_precedes_of_lex hlex hx hy).imp_right .inl
  · exact (eq_or_precedes_of_lex hlex hy hx).imp Eq.symm .inr

/-- What follows the start of a list, in what `f` reads off the lists, follows it in one of them. -/
theorem exists_of_follows (hl : l.Pairwise (List.Lex Precedes)) {f : UInt32 × UInt32 → UInt32}
    (hf : ∀ x y, Precedes x y → f x < f y) {c z : List (UInt32 × UInt32)} (hz : z ∈ l)
    (hc : c <+: z) {k : UInt32} (hk : Follows (l.map (List.map f)) (c.map f) k) :
    ∃ w ∈ l, ∃ y, c ++ [y] <+: w ∧ f y = k := by
  obtain ⟨q, hq, hpre⟩ := hk
  obtain ⟨w, hw, rfl⟩ := List.mem_map.1 hq
  have hstart : (z.map f).take c.length = (w.map f).take c.length := by
    have hz' : c.map f <+: z.map f := hc.map f
    have hw' : c.map f <+: w.map f := (List.prefix_append _ _).trans hpre
    rw [List.prefix_iff_eq_take, List.length_map] at hz' hw'
    rw [← hz', ← hw']
  have hsame : z.take c.length = w.take c.length := take_eq_of_pairwise hl hf hz hw hstart
  rw [← List.prefix_iff_eq_take.1 hc] at hsame
  obtain ⟨rest, hrest⟩ : c <+: w := List.prefix_iff_eq_take.2 hsame
  rw [← hrest, List.map_append, List.prefix_append_right_inj] at hpre
  cases rest with
  | nil => simp at hpre
  | cons y rest =>
    rw [List.map_cons, List.cons_prefix_cons] at hpre
    refine ⟨w, hw, y, ?_, hpre.1.symm⟩
    rw [← hrest, List.prefix_append_right_inj, List.cons_prefix_cons]
    exact ⟨rfl, List.nil_prefix⟩

/-- Where neither the segments nor the numbers leave any out, the numbers are the segments. -/
theorem fst_eq_snd (hl : l.Pairwise (List.Lex Precedes))
    (hfst : Closed (l.map (List.map Prod.fst))) (hsnd : Closed (l.map (List.map Prod.snd)))
    {c z : List (UInt32 × UInt32)} {x : UInt32 × UInt32} (hz : z ∈ l) (hx : c ++ [x] <+: z) :
    x.1 = x.2 := by
  -- The smaller of both would be the other one's at a smaller segment, and there they are equal.
  induction hn : x.1.toNat using Nat.strong_induction_on generalizing c z x with
  | h n ih =>
    subst hn
    have hc : c <+: z := (List.prefix_append _ _).trans hx
    have hfollows : ∀ f : UInt32 × UInt32 → UInt32,
        Follows (l.map (List.map f)) (c.map f) (f x) := by
      intro f
      have hmap := hx.map f
      rw [List.map_append] at hmap
      exact ⟨_, List.mem_map_of_mem hz, hmap⟩
    by_contra hne
    rcases UInt32.lt_or_lt_of_ne hne with hlt | hlt
    · obtain ⟨w, hw, y, hy, hyx⟩ := exists_of_follows hl (fun _ _ h => h.2) hz hc
        (hsnd _ _ _ hlt (hfollows Prod.snd))
      have hbelow : y.1 < x.1 := by
        rcases eq_or_precedes_of_pairwise hl hz hw hx hy with hxy | hxy | hxy
        · subst hxy
          exact absurd hyx.symm hne
        · rw [← hyx] at hlt
          exact absurd (UInt32.lt_trans hlt hxy.2) (UInt32.lt_irrefl _)
        · exact hxy.1
      have hsame := ih y.1.toNat (UInt32.lt_iff_toNat_lt.1 hbelow) hw hy rfl
      rw [hsame, hyx] at hbelow
      exact absurd hbelow (UInt32.lt_irrefl _)
    · obtain ⟨w, hw, y, hy, hyx⟩ := exists_of_follows hl (fun _ _ h => h.1) hz hc
        (hfst _ _ _ hlt (hfollows Prod.fst))
      have hbelow : y.1 < x.1 := by rwa [hyx]
      have hsame := ih y.1.toNat (UInt32.lt_iff_toNat_lt.1 hbelow) hw hy rfl
      rcases eq_or_precedes_of_pairwise hl hz hw hx hy with hxy | hxy | hxy
      · exact hne (hxy ▸ hsame)
      · exact absurd (UInt32.lt_trans hbelow hxy.1) (UInt32.lt_irrefl _)
      · have hnumber := hxy.2
        rw [← hsame, hyx] at hnumber
        exact absurd hnumber (UInt32.lt_irrefl _)

theorem map_fst_eq_map_snd (hl : l.Pairwise (List.Lex Precedes))
    (hfst : Closed (l.map (List.map Prod.fst))) (hsnd : Closed (l.map (List.map Prod.snd)))
    {z : List (UInt32 × UInt32)} (hz : z ∈ l) : z.map Prod.fst = z.map Prod.snd := by
  refine List.map_congr_left fun x hx => ?_
  obtain ⟨c, rest, hsplit⟩ := List.append_of_mem hx
  have hprefix : c ++ [x] <+: z := ⟨rest, by rw [hsplit, List.append_assoc, List.singleton_append]⟩
  exact fst_eq_snd hl hfst hsnd hz hprefix

end

end Tree
end TreeFlow
