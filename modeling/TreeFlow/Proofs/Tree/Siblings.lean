import Mathlib.Logic.Function.Basic
import TreeFlow.Proofs.Tree.Simplify
/-
Numbers as places among siblings.

Instead of going by the path before, one can keep a list of the segments met below each numbered
prefix, and number a segment by its place there.  In path order this comes to the same: the last
segment of a list is the one that the path before goes through, and there is nothing yet below the
numbers that come after (`Recorded`).
-/

namespace TreeFlow
namespace Tree

/-- The segments met below each numbered prefix, in the order in which they were met. -/
abbrev Siblings : Type := List UInt32 → List UInt32

def Siblings.meet (s : Siblings) (prior : List UInt32) (a : UInt32) : Siblings :=
  if a ∈ s prior then s else Function.update s prior (s prior ++ [a])

/-- The place of a segment among its siblings, the next one if it was not met before. -/
def Siblings.place (s : Siblings) (prior : List UInt32) (a : UInt32) : UInt32 :=
  UInt32.ofNat ((s prior).idxOf a)

/-- Numbers the segments of a path below a numbered prefix. -/
def meetSegments (s : Siblings) (prior : List UInt32) : List UInt32 → List UInt32 × Siblings
  | [] => (prior, s)
  | a :: rest => meetSegments (s.meet prior a) (prior ++ [s.place prior a]) rest

/-- Numbers paths, each with the siblings met in those before it. -/
def meetPaths (s : Siblings) : List (List UInt32) → List Path
  | [] => []
  | p :: rest => ⟨(meetSegments s [] p).1⟩ :: meetPaths (meetSegments s [] p).2 rest

/-- What is met below a prefix when the path before goes on with these segments and numbers.  Each
segment is the last of its siblings, and nothing is met below the numbers after its own. -/
def Recorded (s : Siblings) (prior : List UInt32) : List (UInt32 × UInt32) → Prop
  | [] => ∀ below, s (prior ++ below) = []
  | (a, n) :: before =>
    (∃ smaller, s prior = smaller ++ [a] ∧ smaller.length = n.toNat ∧ ∀ b ∈ smaller, b < a) ∧
      (∀ m, n < m → ∀ below, s (prior ++ m :: below) = []) ∧ Recorded s (prior ++ [n]) before

variable {s : Siblings} {prior : List UInt32}

/-! ## One segment -/

theorem Siblings.meet_of_ne {other : List UInt32} (h : other ≠ prior) (a : UInt32) :
    s.meet prior a other = s other := by
  rw [meet]
  split
  · rfl
  · exact Function.update_of_ne h _ _

theorem Siblings.meet_of_mem {a : UInt32} (h : a ∈ s prior) : s.meet prior a = s := if_pos h

theorem Siblings.meet_self {a : UInt32} (h : a ∉ s prior) :
    s.meet prior a prior = s prior ++ [a] := by
  rw [meet, if_neg h, Function.update_self]

theorem Siblings.place_eq (before after : List UInt32) {a n : UInt32}
    (h : s prior ++ [a] = before ++ a :: after) (ha : a ∉ before) (hn : before.length = n.toNat) :
    s.place prior a = n := by
  have hplace : (s prior ++ [a]).idxOf a = before.length := by
    rw [h, List.idxOf_append_of_notMem ha, List.idxOf_cons_self, Nat.add_zero]
  have hsame : (s prior ++ [a]).idxOf a = (s prior).idxOf a := by
    by_cases hmem : a ∈ s prior
    · exact List.idxOf_append_of_mem hmem
    · rw [List.idxOf_append_of_notMem hmem, List.idxOf_cons_self, Nat.add_zero,
        List.idxOf_eq_length hmem]
  rw [place, ← hsame, hplace, hn, UInt32.ofNat_toNat]

/-- A segment greater than its siblings is a new one, and comes right behind them. -/
theorem Siblings.meet_greater {b n : UInt32} (hn : (s prior).length = n.toNat)
    (hlt : ∀ a ∈ s prior, a < b) (hafter : ∀ m, n ≤ m → ∀ below, s (prior ++ m :: below) = []) :
    s.place prior b = n ∧ s.meet prior b prior = s prior ++ [b] ∧
      ∀ m, n ≤ m → ∀ below, s.meet prior b (prior ++ m :: below) = [] := by
  have hnew : b ∉ s prior := fun hb => UInt32.lt_irrefl b (hlt b hb)
  refine ⟨place_eq (s prior) [] rfl hnew hn, meet_self hnew, fun m hm below => ?_⟩
  rw [meet_of_ne (by simp), hafter m hm]

/-! ## One path -/

/-- Only lists at and below the prefix change. -/
theorem meetSegments_elsewhere {p other : List UInt32} (h : ¬ prior <+: other) :
    (meetSegments s prior p).2 other = s other := by
  induction p generalizing s prior with
  | nil => rfl
  | cons a p ih =>
    have hne : other ≠ prior := fun heq => h (heq ▸ List.prefix_rfl)
    rw [meetSegments, ih fun hlonger => h ((List.prefix_append _ _).trans hlonger),
      Siblings.meet_of_ne hne]

theorem Recorded.cons {smaller rest : List UInt32} {a n : UInt32}
    {numbered : List (UInt32 × UInt32)} (hmet : s prior = smaller ++ [a])
    (hn : smaller.length = n.toNat) (hlt : ∀ b ∈ smaller, b < a)
    (hafter : ∀ m, n < m → ∀ below, s (prior ++ m :: below) = [])
    (h : Recorded (meetSegments s (prior ++ [n]) rest).2 (prior ++ [n]) numbered) :
    Recorded (meetSegments s (prior ++ [n]) rest).2 prior ((a, n) :: numbered) := by
  refine ⟨⟨smaller, ?_, hn, hlt⟩, fun m hm below => ?_, h⟩
  · rw [meetSegments_elsewhere, hmet]
    intro hprefix
    have hlength := hprefix.length_le
    rw [List.length_append, List.length_singleton] at hlength
    omega
  · rw [meetSegments_elsewhere, hafter m hm]
    rw [List.prefix_append_right_inj, List.cons_prefix_cons]
    exact fun hprefix => UInt32.ne_of_lt hm hprefix.1

/-- Where nothing was met, every segment is the first of its siblings. -/
theorem meetSegments_new (h : ∀ below, s (prior ++ below) = []) (p : List UInt32) :
    (meetSegments s prior p).1 = prior ++ (p.map fun c => (c, (0 : UInt32))).map Prod.snd ∧
      Recorded (meetSegments s prior p).2 prior (p.map fun c => (c, 0)) := by
  induction p generalizing s prior with
  | nil => exact ⟨(List.append_nil prior).symm, h⟩
  | cons a p ih =>
    have hnil : s prior = [] := by simpa using h []
    obtain ⟨hplace, hmet, hbelow⟩ := Siblings.meet_greater (b := a) (n := 0) (by rw [hnil]; rfl)
      (by simp [hnil]) fun m _ below => h (m :: below)
    rw [hnil] at hmet
    have hnew : ∀ below, s.meet prior a (prior ++ [0] ++ below) = [] := fun below => by
      rw [List.append_assoc, List.singleton_append, hbelow 0 (UInt32.le_refl 0)]
    obtain ⟨hnumbers, hrecorded⟩ := ih hnew
    rw [meetSegments, hplace]
    refine ⟨?_, hrecorded.cons hmet rfl nofun fun m _ => hbelow m UInt32.zero_le⟩
    rw [hnumbers, List.append_assoc]
    rfl

/-- In path order, the places are the numbers. -/
theorem meetSegments_eq {before : List (UInt32 × UInt32)} {p : List UInt32}
    (hp : compare (before.map Prod.fst) p ≠ .gt) (hbefore : ∀ x ∈ before, x.2 ≤ x.1)
    (h : Recorded s prior before) :
    (meetSegments s prior p).1 = prior ++ (numberSegments before p).map Prod.snd ∧
      Recorded (meetSegments s prior p).2 prior (numberSegments before p) := by
  fun_induction numberSegments before p generalizing s prior with
  | case1 n before b rest ih =>
    obtain ⟨⟨smaller, hmet, hn, hlt⟩, hafter, hbelow⟩ := h
    have hmem : b ∈ s prior := hmet ▸ List.mem_append_right _ (List.mem_singleton_self b)
    have hnew : b ∉ smaller := fun hb => UInt32.lt_irrefl b (hlt b hb)
    have hplace : s.place prior b = n :=
      Siblings.place_eq smaller [b] (by rw [hmet, List.append_assoc]; rfl) hnew hn
    rw [List.map_cons, Path.compare_cons_self] at hp
    obtain ⟨hnumbers, hrecorded⟩ := ih hp (List.forall_mem_cons.1 hbefore).2 hbelow
    rw [meetSegments, Siblings.meet_of_mem hmem, hplace]
    refine ⟨?_, hrecorded.cons hmet hn hlt hafter⟩
    rw [hnumbers, List.append_assoc]
    rfl
  | case2 a n before b rest hab =>
    obtain ⟨⟨smaller, hmet, hn, hlt⟩, hafter, -⟩ := h
    have hle : n ≤ a := hbefore (a, n) List.mem_cons_self
    have hgreater : a < b := Path.lt_of_compare_cons hp hab
    -- The number is below the segment, so that there is a next one.
    have hlast : n.toNat < b.toNat :=
      UInt32.lt_iff_toNat_lt.1 (UInt32.lt_of_le_of_lt hle hgreater)
    have hsucc : (n + 1).toNat = n.toNat + 1 := by
      rw [UInt32.toNat_add, UInt32.toNat_one, Nat.mod_eq_of_lt]
      exact Nat.lt_of_le_of_lt hlast b.toNat_lt
    have hnext : n < n + 1 := by rw [UInt32.lt_iff_toNat_lt, hsucc]; exact Nat.lt_succ_self _
    have hbelow : ∀ c ∈ smaller ++ [a], c < b := by
      intro c hc
      rcases List.mem_append.1 hc with hc | hc
      · exact UInt32.lt_trans (hlt c hc) hgreater
      · exact List.mem_singleton.1 hc ▸ hgreater
    have hlength : (smaller ++ [a]).length = (n + 1).toNat := by
      rw [List.length_append, List.length_singleton, hn, hsucc]
    obtain ⟨hplace, hmeet, hempty⟩ := Siblings.meet_greater (s := s) (b := b) (hmet ▸ hlength)
      (hmet ▸ hbelow) fun m hm => hafter m (UInt32.lt_of_lt_of_le hnext hm)
    rw [hmet] at hmeet
    have hnone : ∀ below, s.meet prior b (prior ++ [n + 1] ++ below) = [] := fun below => by
      rw [List.append_assoc, List.singleton_append, hempty _ (UInt32.le_refl _)]
    obtain ⟨hnumbers, hrecorded⟩ := meetSegments_new hnone rest
    rw [meetSegments, hplace]
    refine ⟨?_, hrecorded.cons hmeet hlength hbelow fun m hm => hempty m (UInt32.le_of_lt hm)⟩
    rw [hnumbers, List.append_assoc]
    rfl
  | case3 before rest hneither =>
    cases before with
    | nil => exact meetSegments_new h rest
    | cons x before =>
      cases rest with
      | nil => exact absurd rfl hp
      | cons b rest => exact absurd rfl (hneither x.1 x.2 before b rest rfl)

/-! ## All paths -/

theorem meetPaths_eq {before : List (UInt32 × UInt32)} {l : List (List UInt32)}
    (hl : (before.map Prod.fst :: l).Pairwise fun p q => compare p q ≠ .gt)
    (hbefore : ∀ x ∈ before, x.2 ≤ x.1) (h : Recorded s [] before) :
    meetPaths s l = numberPaths before l := by
  induction l generalizing before s with
  | nil => rfl
  | cons p l ih =>
    obtain ⟨hfirst, hl⟩ := List.pairwise_cons.1 hl
    have hp := hfirst p List.mem_cons_self
    obtain ⟨hnumbers, hrecorded⟩ := meetSegments_eq hp hbefore h
    rw [meetPaths, numberPaths, hnumbers, List.nil_append,
      ih (by rwa [map_fst_numberSegments]) (le_of_mem_numberSegments hp hbefore) hrecorded]

/-- Simplifying numbers each segment by its place among those met below the same numbered prefix. -/
theorem simplify_eq_meetPaths (t : Tree) :
    t.simplify = ofBranches
      ((meetPaths (fun _ => []) (t.paths.map fun p => p.segments.drop t.stripped)).zip
        t.branches.values) := by
  have hascending : (t.paths.map fun p => p.segments.drop t.stripped).Pairwise
      fun p q => compare p q ≠ .gt := by
    refine List.pairwise_map.2 (t.branches.keys_ascending.imp_of_mem fun {p q} hp hq hlt => ?_)
    rw [← Path.compare_append_left t.shared, shared_append_drop hp, shared_append_drop hq]
    rw [Path.compare_def] at hlt
    rw [hlt]
    exact nofun
  have hroot : ∀ p : List UInt32, compare [] p ≠ .gt := fun p => by cases p <;> exact nofun
  have hsame : meetPaths (fun _ => []) (t.paths.map fun p => p.segments.drop t.stripped)
      = t.simplifiedPaths :=
    meetPaths_eq (List.pairwise_cons.2 ⟨fun p _ => hroot p, hascending⟩) nofun fun _ => rfl
  rw [simplify_eq, hsame]

end Tree
end TreeFlow
