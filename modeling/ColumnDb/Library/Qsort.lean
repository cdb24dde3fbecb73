import Mathlib.Tactic

/-!
Sorting by a comparator, as `qsort` of the C library does.

A comparator is negative, zero or positive. On a list where it is a total preorder, `qsort` puts the
entries in its order; on other lists nothing is known of the result.

* `Consistent`, `SortsConsistent`: a comparator that is a total preorder on a list, and a sorting
  function that sorts such lists. `mergeQsort` is one (`mergeQsort_sorts`).
* `bmodDiff_consistent`: the difference of two keys, wrapped to the range of the keys, orders a list
  whose keys are all near to each other.
* `near_of_sorts`: and only such a list.
-/

namespace ColumnDb

variable {α : Type}

/-- The comparator `cmp` is a total preorder on the entries of `l`. -/
structure Consistent (cmp : α → α → ℤ) (l : List α) : Prop where
  neg_iff : ∀ a ∈ l, ∀ b ∈ l, cmp a b < 0 ↔ 0 < cmp b a
  trans : ∀ a ∈ l, ∀ b ∈ l, ∀ c ∈ l, cmp a b ≤ 0 → cmp b c ≤ 0 → cmp a c ≤ 0

/-- A function that sorts every list on which its comparator is a total preorder. -/
def SortsConsistent (qsort : (α → α → ℤ) → List α → List α) : Prop :=
  ∀ cmp l, Consistent cmp l → (qsort cmp l).Perm l ∧ (qsort cmp l).Pairwise fun a b => cmp a b ≤ 0

/-- `qsort` by merging. -/
def mergeQsort (cmp : α → α → ℤ) (l : List α) : List α :=
  l.mergeSort fun a b => decide (cmp a b ≤ 0)

lemma mergeQsort_perm (cmp : α → α → ℤ) (l : List α) : (mergeQsort cmp l).Perm l :=
  List.mergeSort_perm _ _

/-- The order of the comparator on the entries of the list makes merging sort it. -/
theorem mergeQsort_sorts : SortsConsistent (mergeQsort (α := α)) := by
  intro cmp l hcmp
  refine ⟨mergeQsort_perm cmp l, ?_⟩
  -- the entries with a proof that they are in the list, where the comparator is a preorder
  have htrans : ∀ a b c : {a // a ∈ l}, decide (cmp a.1 b.1 ≤ 0) = true →
      decide (cmp b.1 c.1 ≤ 0) = true → decide (cmp a.1 c.1 ≤ 0) = true :=
    fun a b c hab hbc => decide_eq_true
      (hcmp.trans _ a.2 _ b.2 _ c.2 (of_decide_eq_true hab) (of_decide_eq_true hbc))
  have htotal : ∀ a b : {a // a ∈ l},
      (decide (cmp a.1 b.1 ≤ 0) || decide (cmp b.1 a.1 ≤ 0)) = true := by
    intro a b
    have := hcmp.neg_iff _ b.2 _ a.2
    rw [Bool.or_eq_true, decide_eq_true_eq, decide_eq_true_eq]
    omega
  have hsorted := List.pairwise_mergeSort htrans htotal l.attach
  have hmap := List.map_mergeSort (r := fun a b : {a // a ∈ l} => decide (cmp a.1 b.1 ≤ 0))
    (s := fun a b => decide (cmp a b ≤ 0)) (f := Subtype.val) (l := l.attach) fun _ _ _ _ => rfl
  rw [List.attach_map_subtype_val] at hmap
  rw [mergeQsort, ← hmap, List.pairwise_map]
  exact hsorted.imp of_decide_eq_true

/-! ### Comparing by a difference -/

section Difference

variable {key : α → ℤ} {half : ℕ} {l : List α}

/-- The difference of the keys of two entries, wrapped to `2 * half` numbers around `0`. -/
def bmodDiff (key : α → ℤ) (half : ℕ) (a b : α) : ℤ := Int.bmod (key a - key b) (2 * half)

lemma bmodDiff_of_near {a b : α} (hab : key a - key b < half) (hba : key b - key a < half) :
    bmodDiff key half a b = key a - key b :=
  Int.bmod_eq_of_le (by omega) (by omega)

/-- A difference of half the range or more comes out negative. -/
lemma bmodDiff_of_far {a b : α} (hle : (half : ℤ) ≤ key a - key b)
    (hlt : key a - key b < 2 * half) :
    bmodDiff key half a b = key a - key b - 2 * half := by
  rw [bmodDiff, ← Int.sub_bmod_right, Nat.cast_mul, Nat.cast_ofNat]
  exact Int.bmod_eq_of_le (by omega) (by omega)

/-- **Keys that are near to each other** are ordered by their difference. -/
theorem bmodDiff_consistent (hnear : ∀ a ∈ l, ∀ b ∈ l, key b - key a < half) :
    Consistent (bmodDiff key half) l where
  neg_iff := fun a ha b hb => by
    rw [bmodDiff_of_near (hnear b hb a ha) (hnear a ha b hb),
      bmodDiff_of_near (hnear a ha b hb) (hnear b hb a ha)]
    omega
  trans := fun a ha b hb c hc => by
    rw [bmodDiff_of_near (hnear b hb a ha) (hnear a ha b hb),
      bmodDiff_of_near (hnear c hc b hb) (hnear b hb c hc),
      bmodDiff_of_near (hnear c hc a ha) (hnear a ha c hc)]
    omega

lemma exactDiff_consistent (key : α → ℤ) (l : List α) :
    Consistent (fun a b => key b - key a) l where
  neg_iff := fun _ _ _ _ => by omega
  trans := fun _ _ _ _ _ _ => by omega

/-- The list `s` has the entries of `l` in the order of their keys. -/
structure OrderedBy (key : α → ℤ) (l s : List α) : Prop where
  perm : s.Perm l
  order : s.Pairwise fun a b => key a ≤ key b

lemma OrderedBy.of_near {qsort : (α → α → ℤ) → List α → List α} (hqsort : SortsConsistent qsort)
    (hnear : ∀ a ∈ l, ∀ b ∈ l, key b - key a < half) :
    OrderedBy key l (qsort (bmodDiff key half) l) := by
  obtain ⟨hperm, hsorted⟩ := hqsort _ _ (bmodDiff_consistent hnear)
  refine ⟨hperm, hsorted.imp_of_mem fun {a b} ha hb hab => ?_⟩
  have ha := hperm.mem_iff.mp ha
  have hb := hperm.mem_iff.mp hb
  rw [bmodDiff_of_near (hnear b hb a ha) (hnear a ha b hb)] at hab
  omega

/-- A list in the order of its keys and in another order, in which the entry with the greater of
two keys does not come after the other. -/
lemma OrderedBy.not_before {s : List α} {R : α → α → Prop} (h : OrderedBy key l s)
    (hR : s.Pairwise R) {a b : α} (ha : a ∈ l) (hb : b ∈ l) (hlt : key a < key b) : R a b := by
  have hboth := (h.order.and hR).imp fun {x y} hxy => (Or.inl hxy :
    (key x ≤ key y ∧ R x y) ∨ (key y ≤ key x ∧ R y x))
  have : Std.Symm fun x y => (key x ≤ key y ∧ R x y) ∨ (key y ≤ key x ∧ R y x) :=
    ⟨fun x y hxy => hxy.symm⟩
  have hne : a ≠ b := fun heq => by
    rw [heq] at hlt
    exact lt_irrefl _ hlt
  rcases hboth.forall (h.perm.mem_iff.mpr ha) (h.perm.mem_iff.mpr hb) hne with hab | hba
  · exact hab.2
  · exact absurd hba.1 (not_le.mpr hlt)

/-- **Keys that are half the range apart** are not ordered by their wrapped difference, by some
function that sorts and permutes. -/
theorem near_of_sorts (hkey : ∀ a ∈ l, -(half : ℤ) ≤ key a ∧ key a < half)
    (hall : ∀ qsort, SortsConsistent qsort → (∀ cmp s, (qsort cmp s).Perm s) →
      OrderedBy key l (qsort (bmodDiff key half) l)) :
    ∀ a ∈ l, ∀ b ∈ l, key b - key a < half := by
  classical
  intro a ha b hb
  by_contra hfar
  rw [not_lt] at hfar
  have hlt : key a < key b := by
    have := hkey a ha
    omega
  have hneg : bmodDiff key half b a < 0 := by
    have := hkey a ha
    have := hkey b hb
    rw [bmodDiff_of_far hfar (by omega)]
    omega
  by_cases hcmp : Consistent (bmodDiff key half) l
  · have hpos := (hcmp.neg_iff b hb a ha).mp hneg
    have hle := (hall _ mergeQsort_sorts mergeQsort_perm).not_before (mergeQsort_sorts _ _ hcmp).2
      ha hb hlt
    omega
  · -- nothing is known of the result, so it can be in the opposite order
    have hqsort : SortsConsistent fun cmp (s : List α) =>
        if Consistent cmp s then mergeQsort cmp s else mergeQsort (fun x y => key y - key x) s := by
      intro cmp s hs
      simp only [if_pos hs]
      exact mergeQsort_sorts cmp s hs
    have hordered := hall _ hqsort fun cmp s => by
      split_ifs
      · exact mergeQsort_perm _ _
      · exact mergeQsort_perm _ _
    simp only [if_neg hcmp] at hordered
    have hle := hordered.not_before (mergeQsort_sorts _ _ (exactDiff_consistent key l)).2 ha hb hlt
    omega

end Difference

end ColumnDb
