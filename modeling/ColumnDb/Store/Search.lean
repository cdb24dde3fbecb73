import ColumnDb.Library.Sorted
import ColumnDb.Store.Column

/-!
Binary search over a column file and over an array (`helper_math.c`).

* `getLowerBound`, `getUpperBound`, `getUpperBoundFromArray` follow the source branch by
  branch, with their early returns, for fewer than `2 ^ 31` values, where `low + high + 1` does
  not wrap; each loop shrinks `[low, high]`. `getUpperBound32` is the search of any size, and
  `getUpperBound32_eq` says that below `2 ^ 31` it is this one.
* On a sorted column `getLowerBound` is the number of rows below `num`, except that it
  returns the last row when every row is below `num` (`getLowerBound_eq`); `getUpperBound`
  is the number of rows up to `num`, except on a column of one row, where it is `1`
  (`getUpperBound_eq`).
* `getUpperBoundFromArray_eq`: on a sorted array the number of entries up to `num`, whatever
  the cell after the array holds.
* `getLowerBound_le`: without any order the index is still at most the size.
-/

namespace ColumnDb

/-! ### The searches of the source -/

/-- The loop of `get_lower_bound` and what follows it. -/
def lowerLoop (cells : List ℤ) (size : ℕ) (num : ℤ) (low high : ℕ) : Outcome ℕ :=
  if _h : low < high then
    if (low + high) / 2 = size then .ok (size - 1)
    else do
      let v ← getValFromOffset cells ((low + high) / 2)
      if num ≤ v then lowerLoop cells size num low ((low + high) / 2)
      else lowerLoop cells size num ((low + high) / 2 + 1) high
  -- everything is smaller than `num`, and the index returned is that of the last value
  else if low = size then .ok (size - 1)
  else do
    let v ← getValFromOffset cells low
    if num ≤ v then .ok low else .ok size
termination_by high - low

/-- `get_lower_bound`. -/
def getLowerBound (cells : List ℤ) (size : ℕ) (num : ℤ) : Outcome ℕ :=
  if size = 0 then .ok 0 else lowerLoop cells size num 0 size

/-- The loop of `get_upper_bound` and what follows it. -/
def upperLoop (cells : List ℤ) (size : ℕ) (num : ℤ) (low high : ℕ) : Outcome ℕ :=
  if _h : low < high then
    if (low + high + 1) / 2 = size then .ok size
    else do
      let v ← getValFromOffset cells ((low + high + 1) / 2)
      if v ≤ num then upperLoop cells size num ((low + high + 1) / 2) high
      else upperLoop cells size num low ((low + high + 1) / 2 - 1)
  else do
    let v ← getValFromOffset cells low
    if v ≤ num then .ok (if low + 1 < size then low + 1 else size) else .ok 0
termination_by high - low

/-- `get_upper_bound`. -/
def getUpperBound (cells : List ℤ) (size : ℕ) (num : ℤ) : Outcome ℕ :=
  if size = 0 then .ok 0 else upperLoop cells size num 0 size

/-- The loop of `get_upper_bound_from_array` and what follows it, for an array of fewer than
`2 ^ 31` values, where the sum does not wrap; `a` is the memory from the array on, of which the
loop may read the cell `a[size]` after the array. -/
def upperArrayLoop (a : List ℤ) (size : ℕ) (num : ℤ) (low high : ℕ) : Outcome ℕ :=
  if _h : low < high then do
    let v ← fetch .bounds a ((low + high + 1) / 2)
    if v ≤ num then upperArrayLoop a size num ((low + high + 1) / 2) high
    else upperArrayLoop a size num low ((low + high + 1) / 2 - 1)
  else do
    let v ← fetch .bounds a low
    if v ≤ num then .ok (if low + 1 < size then low + 1 else size) else .ok 0
termination_by high - low

/-- `get_upper_bound_from_array`. -/
def getUpperBoundFromArray (a : List ℤ) (size : ℕ) (num : ℤ) : Outcome ℕ :=
  if size = 0 then .ok 0
  else if size = 1 then do
    let v ← fetch .bounds a 0
    if num < v then .ok 0 else .ok 1
  else upperArrayLoop a size num 0 size

/-! ### The lower bound -/

/-- On a sorted column the loop ends at the number of rows below `num`, moved to the last
row when that number is the size. -/
lemma lowerLoop_eq {f : DataFile} (hs : f.stored.Pairwise (· ≤ ·)) (num : ℤ) (low high : ℕ)
    (hlow : low ≤ f.stored.countP (· < num)) (hhigh : f.stored.countP (· < num) ≤ high)
    (hsize : high ≤ f.m.size) :
    lowerLoop f.cells f.m.size num low high
      = .ok (min (f.stored.countP (· < num)) (f.m.size - 1)) := by
  have hcut := cutBy_lt hs num
  rw [lowerLoop]
  by_cases h : low < high
  · have hm : (low + high) / 2 < f.stored.length := by
      rw [DataFile.length_stored]; omega
    have hc := hcut.lt_countP_iff hm
    rw [dif_pos h, if_neg (by omega), getValFromOffset_of_lt hm, Outcome.ok_bind]
    by_cases hv : num ≤ f.stored[(low + high) / 2]
    · have hle := not_lt.mp (hc.not.mp (not_lt.mpr hv))
      rw [if_pos hv, lowerLoop_eq hs num low _ hlow hle (by omega)]
    · have hlt := hc.mp (not_le.mp hv)
      rw [if_neg hv, lowerLoop_eq hs num _ high hlt hhigh hsize]
  · have hcount : f.stored.countP (· < num) = low := by omega
    rw [dif_neg h, hcount]
    by_cases hend : low = f.m.size
    · rw [if_pos hend, min_eq_right (by omega)]
    · have hl : low < f.stored.length := by
        rw [DataFile.length_stored]; omega
      have hc := hcut.lt_countP_iff hl
      have hv : num ≤ f.stored[low] := not_lt.mp (hc.not.mpr (by omega))
      rw [if_neg hend, getValFromOffset_of_lt hl, Outcome.ok_bind, if_pos hv,
        min_eq_left (by omega)]
termination_by high - low

/-- **`get_lower_bound` on a sorted column**: the number of rows below `num`, except that
when every row is below `num` it is the index of the last row and not the size. -/
theorem getLowerBound_eq {f : DataFile} (hs : f.stored.Pairwise (· ≤ ·)) (num : ℤ) :
    getLowerBound f.cells f.m.size num
      = .ok (min (f.stored.countP (· < num)) (f.m.size - 1)) := by
  have hle : f.stored.countP (· < num) ≤ f.m.size := by
    simpa using f.stored.countP_le_length (p := (· < num))
  rw [getLowerBound]
  split_ifs with h0
  · rw [min_eq_right (by omega), h0]
  · exact lowerLoop_eq hs num 0 f.m.size (Nat.zero_le _) hle le_rfl

/-- On any column, in order or not, the loop ends at an index up to the size. -/
lemma lowerLoop_le (f : DataFile) (num : ℤ) (low high : ℕ) (hle : low ≤ high)
    (hsize : high ≤ f.m.size) :
    ∃ i ≤ f.m.size, lowerLoop f.cells f.m.size num low high = .ok i := by
  rw [lowerLoop]
  by_cases h : low < high
  · have hm : (low + high) / 2 < f.stored.length := by
      rw [DataFile.length_stored]; omega
    rw [dif_pos h, if_neg (by omega), getValFromOffset_of_lt hm, Outcome.ok_bind]
    split_ifs with hv
    · exact lowerLoop_le f num low _ (by omega) (by omega)
    · exact lowerLoop_le f num _ high (by omega) hsize
  · rw [dif_neg h]
    by_cases hend : low = f.m.size
    · exact ⟨f.m.size - 1, by omega, if_pos hend⟩
    · have hl : low < f.stored.length := by
        rw [DataFile.length_stored]; omega
      rw [if_neg hend, getValFromOffset_of_lt hl, Outcome.ok_bind]
      split_ifs
      · exact ⟨low, by omega, rfl⟩
      · exact ⟨f.m.size, le_rfl, rfl⟩
termination_by high - low

/-- `get_lower_bound` returns an index up to the size, whatever the order of the rows. -/
lemma getLowerBound_le (f : DataFile) (num : ℤ) :
    ∃ i ≤ f.m.size, getLowerBound f.cells f.m.size num = .ok i := by
  rw [getLowerBound]
  split_ifs with h0
  · exact ⟨0, Nat.zero_le _, rfl⟩
  · exact lowerLoop_le f num 0 f.m.size (Nat.zero_le _) le_rfl

/-! ### The upper bound -/

/-- On a sorted column the loop ends at the number of rows up to `num`: no row above `high`
is up to `num`, and the row `low` is, unless the search has not moved it. -/
lemma upperLoop_eq {f : DataFile} (hs : f.stored.Pairwise (· ≤ ·)) (hone : 1 < f.m.size)
    (num : ℤ) (low high : ℕ) (hle : low ≤ high) (hsize : high ≤ f.m.size)
    (hlow : low = 0 ∨ low < f.stored.countP (· ≤ num))
    (hhigh : f.stored.countP (· ≤ num) ≤ high + 1) :
    upperLoop f.cells f.m.size num low high = .ok (f.stored.countP (· ≤ num)) := by
  have hcut := cutBy_le hs num
  have hcount : f.stored.countP (· ≤ num) ≤ f.m.size := by
    simpa using f.stored.countP_le_length (p := (· ≤ num))
  rw [upperLoop]
  by_cases h : low < high
  · rw [dif_pos h]
    by_cases hend : (low + high + 1) / 2 = f.m.size
    · rw [if_pos hend]
      congr 1
      omega
    · have hm : (low + high + 1) / 2 < f.stored.length := by
        rw [DataFile.length_stored]; omega
      have hc := hcut.lt_countP_iff hm
      rw [if_neg hend, getValFromOffset_of_lt hm, Outcome.ok_bind]
      by_cases hv : f.stored[(low + high + 1) / 2] ≤ num
      · rw [if_pos hv, upperLoop_eq hs hone num _ high (by omega) hsize (Or.inr (hc.mp hv)) hhigh]
      · have hge := not_lt.mp (hc.not.mp hv)
        rw [if_neg hv, upperLoop_eq hs hone num low _ (by omega) (by omega) hlow (by omega)]
  · have hl : low < f.stored.length := by
      rw [DataFile.length_stored]; omega
    have hc := hcut.lt_countP_iff hl
    rw [dif_neg h, getValFromOffset_of_lt hl, Outcome.ok_bind]
    by_cases hv : f.stored[low] ≤ num
    · have hlt := hc.mp hv
      rw [if_pos hv]
      congr 1
      split_ifs <;> omega
    · have hge := not_lt.mp (hc.not.mp hv)
      rw [if_neg hv]
      congr 1
      omega
termination_by high - low

/-- **`get_upper_bound` on a sorted column** of more than one row: the number of rows up to
`num`. -/
theorem getUpperBound_eq {f : DataFile} (hs : f.stored.Pairwise (· ≤ ·)) (hone : f.m.size ≠ 1)
    (num : ℤ) :
    getUpperBound f.cells f.m.size num = .ok (f.stored.countP (· ≤ num)) := by
  have hcount : f.stored.countP (· ≤ num) ≤ f.m.size := by
    simpa using f.stored.countP_le_length (p := (· ≤ num))
  rw [getUpperBound]
  split_ifs with h0
  · congr 1
    omega
  · exact upperLoop_eq hs (by omega) num 0 f.m.size (Nat.zero_le _) le_rfl (Or.inl rfl) (by omega)

/-- On a column of one row `get_upper_bound` returns `1`, without reading the row. -/
lemma getUpperBound_one (cells : List ℤ) (num : ℤ) : getUpperBound cells 1 num = .ok 1 := by
  rw [getUpperBound, if_neg (by decide), upperLoop, dif_pos (by decide), if_pos (by decide)]

/-! ### The upper bound in an array -/

/-- On a sorted array the loop ends at the number of entries up to `num`. The cell after the
array is read only when every entry is up to `num`, and then both answers lead to the size. -/
lemma upperArrayLoop_eq {a : List ℤ} {size : ℕ} (hlen : size < a.length) (hone : 1 < size)
    (hs : (a.take size).Pairwise (· ≤ ·)) (num : ℤ) (low high : ℕ) (hle : low ≤ high)
    (hsize : high ≤ size)
    (hlow : low = 0 ∨ low < (a.take size).countP (· ≤ num) ∨
      (low = size ∧ (a.take size).countP (· ≤ num) = size ∧ a[size] ≤ num))
    (hhigh : (a.take size).countP (· ≤ num) ≤ high + 1) :
    upperArrayLoop a size num low high = .ok ((a.take size).countP (· ≤ num)) := by
  have hcut := cutBy_le hs num
  have hlen' : (a.take size).length = size := by
    rw [List.length_take]; omega
  have hcount : (a.take size).countP (· ≤ num) ≤ size :=
    List.countP_le_length.trans_eq hlen'
  have hread : ∀ i (hi : i < size),
      a[i] ≤ num ↔ i < (a.take size).countP (· ≤ num) := by
    intro i hi
    rw [← hcut.lt_countP_iff (by omega), List.getElem_take]
  rw [upperArrayLoop]
  by_cases h : low < high
  · have hm : (low + high + 1) / 2 < a.length := by omega
    rw [dif_pos h, fetch_of_lt hm, Outcome.ok_bind]
    by_cases hend : (low + high + 1) / 2 = size
    · -- only reached from the last entry, so that every entry is up to `num`
      have hall : (a.take size).countP (· ≤ num) = size := by omega
      by_cases hv : a[(low + high + 1) / 2] ≤ num
      · have hv' : a[size] ≤ num := by
          simpa only [hend] using hv
        rw [if_pos hv, upperArrayLoop_eq hlen hone hs num _ high (by omega) hsize
          (Or.inr (Or.inr ⟨hend, hall, hv'⟩)) hhigh]
      · rw [if_neg hv, upperArrayLoop_eq hlen hone hs num low _ (by omega) (by omega) (by omega)
          (by omega)]
    · have hc := hread _ (show (low + high + 1) / 2 < size by omega)
      by_cases hv : a[(low + high + 1) / 2] ≤ num
      · rw [if_pos hv, upperArrayLoop_eq hlen hone hs num _ high (by omega) hsize
          (Or.inr (Or.inl (hc.mp hv))) hhigh]
      · have hge := not_lt.mp (hc.not.mp hv)
        rw [if_neg hv, upperArrayLoop_eq hlen hone hs num low _ (by omega) (by omega) (by omega)
          (by omega)]
  · rw [dif_neg h, fetch_of_lt (show low < a.length by omega), Outcome.ok_bind]
    by_cases hend : low = size
    · have hv : a[low] ≤ num := by
        simpa only [hend] using (show a[size] ≤ num by omega)
      rw [if_pos hv]
      congr 1
      split_ifs <;> omega
    · have hc := hread low (by omega)
      by_cases hv : a[low] ≤ num
      · have hlt := hc.mp hv
        rw [if_pos hv]
        congr 1
        split_ifs <;> omega
      · have hge := not_lt.mp (hc.not.mp hv)
        rw [if_neg hv]
        congr 1
        omega
termination_by high - low

/-- **`get_upper_bound_from_array` on a sorted array**: the number of entries up to `num`,
whatever the cell after the array holds. -/
theorem getUpperBoundFromArray_eq {a : List ℤ} {size : ℕ} (hlen : size < a.length)
    (hs : (a.take size).Pairwise (· ≤ ·)) (num : ℤ) :
    getUpperBoundFromArray a size num = .ok ((a.take size).countP (· ≤ num)) := by
  have hcount : (a.take size).countP (· ≤ num) ≤ size := by
    simpa using (a.take size).countP_le_length.trans (List.length_take_le size a)
  rw [getUpperBoundFromArray]
  split_ifs with h0 h1
  · congr 1
    omega
  · subst h1
    have hc := (cutBy_le hs num).lt_countP_iff (i := 0) (by rw [List.length_take]; omega)
    rw [List.getElem_take] at hc
    rw [fetch_of_lt (by omega), Outcome.ok_bind]
    split_ifs with hv
    · congr 1
      omega
    · congr 1
      omega
  · exact upperArrayLoop_eq hlen (by omega) hs num 0 size (Nat.zero_le _) le_rfl (Or.inl rfl)
      (by omega)

end ColumnDb
