import Mathlib.Tactic
import Mathlib.Data.List.Sort

/-!
Counting in a list that a predicate cuts in two.

A predicate is *cut* along a list when it never holds after it has failed
(`CutBy`); `a < v` and `a ≤ v` are cut along every non-decreasing list. The number
of entries that satisfy such a predicate is the place of the cut (`CutBy.lt_countP_iff`),
which is what a binary search looks for, and inserting at the cut of `· < v` keeps a
list in order (`insert_at_cut_sorted`).
-/

namespace ColumnDb

variable {α : Type}

/-- The predicate `p` holds on an initial segment of `l` and nowhere after it. -/
def CutBy (p : α → Prop) (l : List α) : Prop := l.Pairwise fun a b => p b → p a

namespace CutBy

variable {p : α → Prop} [DecidablePred p]

/-- **The place of the cut**: the entry `i` satisfies the predicate exactly when `i` is below
the number of entries that do. -/
theorem lt_countP_iff {l : List α} (h : CutBy p l) {i : ℕ} (hi : i < l.length) :
    p l[i] ↔ i < l.countP p := by
  induction l generalizing i with
  | nil => simp at hi
  | cons a l ih =>
      obtain ⟨ha, hl⟩ := List.pairwise_cons.mp h
      by_cases hp : p a
      · rw [List.countP_cons_of_pos (by simpa using hp)]
        cases i with
        | zero => simpa using hp
        | succ i =>
            rw [List.getElem_cons_succ, ih hl (by simpa using hi)]
            omega
      · have hnone : ∀ b ∈ l, ¬ p b := fun b hb hpb => hp (ha b hb hpb)
        have h0 : (a :: l).countP p = 0 := by
          rw [List.countP_eq_zero]
          rintro b hb
          rcases List.mem_cons.mp hb with rfl | hb
          · simpa using hp
          · simpa using hnone b hb
        rw [h0]
        refine ⟨fun hpi => absurd hpi ?_, fun h => absurd h (by omega)⟩
        rcases List.mem_cons.mp (List.getElem_mem (l := a :: l) hi) with hb | hb
        · rw [hb]; exact hp
        · exact hnone _ hb

/-- The entries before the cut are those that satisfy the predicate. -/
lemma filter_eq_take {l : List α} (h : CutBy p l) : l.filter p = l.take (l.countP p) := by
  induction l with
  | nil => rfl
  | cons a l ih =>
      obtain ⟨ha, hl⟩ := List.pairwise_cons.mp h
      by_cases hp : p a
      · rw [List.filter_cons_of_pos (by simpa using hp),
          List.countP_cons_of_pos (by simpa using hp), List.take_succ_cons, ih hl]
      · have h0 : l.countP p = 0 := by
          rw [List.countP_eq_zero]
          exact fun b hb => by simpa using fun hpb => hp (ha b hb hpb)
        rw [List.filter_cons_of_neg (by simpa using hp),
          List.countP_cons_of_neg (by simpa using hp), ih hl, h0]
        rfl

/-- A loop that stops at the first entry that fails the predicate has seen all that satisfy
it. -/
lemma filter_eq_takeWhile {l : List α} (h : CutBy p l) : l.filter p = l.takeWhile p := by
  induction l with
  | nil => rfl
  | cons a l ih =>
      obtain ⟨ha, hl⟩ := List.pairwise_cons.mp h
      by_cases hp : p a
      · rw [List.filter_cons_of_pos (by simpa using hp),
          List.takeWhile_cons_of_pos (by simpa using hp), ih hl]
      · rw [List.filter_cons_of_neg (by simpa using hp),
          List.takeWhile_cons_of_neg (by simpa using hp), List.filter_eq_nil_iff]
        exact fun b hb => by simpa using fun hpb => hp (ha b hb hpb)

end CutBy

section Order

variable [LinearOrder α] {l : List α}

/-- The cells of a sorted list do not fall. -/
lemma getElem?_le_of_sorted (h : l.Pairwise (· ≤ ·)) {i j : ℕ} (hij : i ≤ j) {x y : α}
    (hx : l[i]? = some x) (hy : l[j]? = some y) : x ≤ y := by
  obtain ⟨hi, rfl⟩ := List.getElem?_eq_some_iff.mp hx
  obtain ⟨hj, rfl⟩ := List.getElem?_eq_some_iff.mp hy
  rcases Nat.lt_or_eq_of_le hij with hlt | rfl
  · exact List.pairwise_iff_getElem.mp h i j hi hj hlt
  · exact le_rfl

lemma cutBy_lt (h : l.Pairwise (· ≤ ·)) (v : α) : CutBy (· < v) l :=
  h.imp fun hab hb => lt_of_le_of_lt hab hb

lemma cutBy_le (h : l.Pairwise (· ≤ ·)) (v : α) : CutBy (· ≤ v) l :=
  h.imp fun hab hb => hab.trans hb

/-- Inserting `v` at the cut of `· < v` keeps the list in order. -/
lemma insert_at_cut_sorted (h : l.Pairwise (· ≤ ·)) (v : α) :
    (l.take (l.countP (· < v)) ++ v :: l.drop (l.countP (· < v))).Pairwise (· ≤ ·) := by
  have hcut := cutBy_lt h v
  have hlow : ∀ a ∈ l.take (l.countP (· < v)), a < v := by
    intro a ha
    rw [← hcut.filter_eq_take] at ha
    simpa using (List.mem_filter.mp ha).2
  have hhigh : ∀ b ∈ l.drop (l.countP (· < v)), v ≤ b := by
    intro b hb
    obtain ⟨j, hj, rfl⟩ := List.mem_iff_getElem.mp hb
    rw [List.length_drop] at hj
    rw [List.getElem_drop]
    refine le_of_not_gt fun hlt => ?_
    have hj' : l.countP (· < v) + j < l.length := by omega
    have := (hcut.lt_countP_iff hj').mp hlt
    omega
  rw [List.pairwise_append, List.pairwise_cons]
  refine ⟨h.sublist (List.take_sublist _ _), ⟨hhigh, h.sublist (List.drop_sublist _ _)⟩, ?_⟩
  intro a ha b hb
  rcases List.mem_cons.mp hb with rfl | hb
  · exact (hlow a ha).le
  · exact (hlow a ha).le.trans (hhigh b hb)

/-- Inserting `v` behind the entries up to `v` keeps the list in order. -/
lemma insertIdx_countP_le_sorted (h : l.Pairwise (· ≤ ·)) (v : α) :
    (l.insertIdx (l.countP (· ≤ v)) v).Pairwise (· ≤ ·) := by
  induction l with
  | nil => simp
  | cons a l ih =>
      obtain ⟨ha, hl⟩ := List.pairwise_cons.mp h
      by_cases hav : a ≤ v
      · rw [List.countP_cons_of_pos (by simpa using hav), List.insertIdx_succ_cons,
          List.pairwise_cons]
        refine ⟨fun b hb => ?_, ih hl⟩
        rcases List.eq_or_mem_of_mem_insertIdx hb with rfl | hb
        · exact hav
        · exact ha b hb
      · have h0 : (a :: l).countP (· ≤ v) = 0 := by
          rw [List.countP_eq_zero]
          intro b hb hbv
          have hbv' : b ≤ v := by simpa using hbv
          rcases List.mem_cons.mp hb with rfl | hb
          · exact hav hbv'
          · exact hav ((ha b hb).trans hbv')
        rw [h0, List.insertIdx_zero, List.pairwise_cons]
        refine ⟨fun b hb => ?_, h⟩
        rcases List.mem_cons.mp hb with rfl | hb
        · exact (not_le.mp hav).le
        · exact (not_le.mp hav).le.trans (ha b hb)

/-- A list in order stays in order when one of its entries is put in front of itself. -/
lemma take_append_getElem_sorted (h : l.Pairwise (· ≤ ·)) {i : ℕ} (hi : i < l.length) :
    (l.take i ++ l[i] :: l.drop i).Pairwise (· ≤ ·) := by
  have hsplit : l.take i ++ l.drop i = l := List.take_append_drop i l
  have hdrop : l.drop i = l[i] :: l.drop (i + 1) := List.drop_eq_getElem_cons hi
  have hparts := h
  rw [← hsplit, List.pairwise_append] at hparts
  obtain ⟨hfront, hback, hcross⟩ := hparts
  have hmem : l[i] ∈ l.drop i := by
    rw [hdrop]
    exact List.mem_cons_self
  refine List.pairwise_append.mpr ⟨hfront, List.pairwise_cons.mpr ⟨fun b hb => ?_, hback⟩,
    fun a ha b hb => ?_⟩
  · rw [hdrop] at hb hback
    rcases List.mem_cons.mp hb with rfl | hb
    · exact le_rfl
    · exact (List.pairwise_cons.mp hback).1 b hb
  · rcases List.mem_cons.mp hb with rfl | hb
    · exact hcross a ha _ hmem
    · exact hcross a ha b hb

end Order

end ColumnDb
