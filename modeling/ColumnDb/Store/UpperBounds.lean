import ColumnDb.Store.ArraySearch

/-!
The two upper bounds (`get_upper_bound` and `get_upper_bound_from_array` in `helper_math.c`).

The second is meant to be the first, on an array in the place of a file. The one on the file
returns when its midpoint is the size, without reading a cell; the one on the array has a branch
for a single value instead, and reads the cell behind the array.

* `getUpperBound32`: the search in a file in 32-bit arithmetic, up to a number of turns.
* `upperTurns_eq`: without a wrap its turns are those of `upperLoop`.
* `upperTurns_large`: from `2 ^ 31` cells on no midpoint reaches the size, and the two searches take
  the same turns.
* `upperBounds_agree_iff`: when the two return the same index.
-/

namespace ColumnDb

/-- The loop of `get_upper_bound` and what follows it, up to a number of turns. -/
def upperTurns (cells : List ℤ) (size : ℕ) (num : ℤ) : ℕ → ℕ → ℕ → Outcome ℕ
  | 0, _, _ => .error .diverge
  | fuel + 1, low, high =>
      if low < high then
        if mid32 low high = size then .ok size
        else do
          let v ← getValFromOffset cells (mid32 low high)
          if v ≤ num then upperTurns cells size num fuel (mid32 low high) high
          else upperTurns cells size num fuel low (sub32 (mid32 low high) 1)
      else do
        let v ← getValFromOffset cells low
        if v ≤ num then .ok (if low + 1 < size then low + 1 else size) else .ok 0

/-- `get_upper_bound`, up to a number of turns. -/
def getUpperBound32 (fuel : ℕ) (cells : List ℤ) (size : ℕ) (num : ℤ) : Outcome ℕ :=
  if size = 0 then .ok 0 else upperTurns cells size num fuel 0 size

/-! ### Fewer than `2 ^ 31` cells -/

section Small

variable {cells : List ℤ} {size : ℕ} {num : ℤ}

/-- The loop without a wrap, when there are turns for every cell between the ends. -/
lemma upperTurns_eq (fuel : ℕ) : ∀ {low high : ℕ},
    low ≤ high → high < 2 ^ 31 → high - low < fuel →
    upperTurns cells size num fuel low high = upperLoop cells size num low high := by
  induction fuel with
  | zero =>
      intro low high _ _ hfuel
      omega
  | succ fuel ih =>
      intro low high hle hhigh hfuel
      rw [upperTurns, upperLoop]
      by_cases h : low < high
      · rw [if_pos h, dif_pos h, mid32_of_lt (by omega), sub32_of_le (by omega)]
        by_cases hend : (low + high + 1) / 2 = size
        · rw [if_pos hend, if_pos hend]
        · rw [if_neg hend, if_neg hend]
          refine congrArg (getValFromOffset cells ((low + high + 1) / 2) >>= ·)
            (funext fun v => ?_)
          by_cases hv : v ≤ num
          · rw [if_pos hv, if_pos hv, ih (by omega) hhigh (by omega)]
          · rw [if_neg hv, if_neg hv, ih (by omega) (by omega) (by omega)]
      · rw [if_neg h, dif_neg h]

/-- The search without a wrap. -/
lemma getUpperBound32_eq (hsmall : size < 2 ^ 31) :
    getUpperBound32 (size + 1) cells size num = getUpperBound cells size num := by
  rw [getUpperBound32, getUpperBound, upperTurns_eq _ (Nat.zero_le _) hsmall (by omega)]

end Small

/-! ### One cell -/

section One

variable {cells : List ℤ} {num : ℤ}

/-- The midpoint of one cell is the size: the cell is not read. -/
lemma getUpperBound32_one {fuel i : ℕ} (hok : getUpperBound32 fuel cells 1 num = .ok i) :
    i = 1 := by
  cases fuel with
  | zero => cases hok
  | succ fuel =>
      rw [getUpperBound32, if_neg (by decide), upperTurns, if_pos (by decide),
        if_pos (by decide)] at hok
      exact (Except.ok.inj hok).symm

/-- The array version reads the cell. -/
lemma getUpperBoundFromArray32_one (fuel : ℕ) (c : ℤ) (a : List ℤ) :
    getUpperBoundFromArray32 fuel (c :: a) 1 num = .ok (if num < c then 0 else 1) := by
  have hread : fetch .bounds (c :: a) 0 = .ok c := rfl
  rw [getUpperBoundFromArray32, if_neg (by decide), if_pos rfl, hread, Outcome.ok_bind]
  split_ifs <;> rfl

end One

/-! ### `2 ^ 31` cells or more -/

section Large

variable {cells : List ℤ} {size : ℕ} {num x : ℤ}

/-- A cell below the size, in the file. -/
lemma getValFromOffset_take (hlen : size ≤ cells.length) {i : ℕ} (hi : i < size) :
    getValFromOffset cells i = .ok ((cells.take size).getD i 0) := by
  rw [getValFromOffset, fetch_eq_ok, List.getD_eq_getElem?_getD, List.getElem?_take_of_lt hi,
    List.getElem?_eq_getElem (by omega)]
  rfl

/-- **The turns of the two searches** in a file and in its first cells are the same. -/
theorem upperTurns_large (hlen : size ≤ cells.length) (hlarge : 2 ^ 31 ≤ size) (fuel : ℕ) :
    ∀ {low high : ℕ}, low < size →
    upperTurns cells size num fuel low high
      = upperArrayTurns (cells.take size ++ [x]) size num fuel low high := by
  have htake : (cells.take size).length = size := List.length_take_of_le hlen
  induction fuel with
  | zero => exact fun _ => rfl
  | succ fuel ih =>
      intro low high hlow
      have hmid : mid32 low high < size := (mid32_lt low high).trans_le hlarge
      rw [upperTurns, upperArrayTurns]
      by_cases h : low < high
      · rw [if_pos h, if_pos h, if_neg hmid.ne, getValFromOffset_take hlen hmid,
          fetch_array (htake.symm ▸ hmid), Outcome.ok_bind, Outcome.ok_bind, ih hmid, ih hlow]
      · rw [if_neg h, if_neg h, getValFromOffset_take hlen hlow, fetch_array (htake.symm ▸ hlow),
          Outcome.ok_bind]

end Large

/-! ### The two searches -/

/-- A file search without a wrap ends at the number of cells up to `num`. -/
lemma getUpperBound32_ok {cells : List ℤ} {size : ℕ} (hlen : size ≤ cells.length)
    (hsmall : size < 2 ^ 31) (hone : size ≠ 1) (hs : (cells.take size).Pairwise (· ≤ ·)) (num : ℤ) :
    getUpperBound32 (size + 1) cells size num = .ok ((cells.take size).countP (· ≤ num)) := by
  let f : DataFile :=
    { m := { (DataFile.makeNew .sorted).m with size := size }, cells := cells, size_le := hlen }
  rw [getUpperBound32_eq hsmall]
  exact @getUpperBound_eq f hs hone num

/-- In a large array the searches end when some midpoint holds a value above `num`, both with the
number of values up to `num`. -/
lemma upperBounds_large_iff {cells : List ℤ} {size : ℕ} (hlen : size ≤ cells.length)
    (hlarge : 2 ^ 31 ≤ size) (hsize : size < 2 ^ 32) (hs : (cells.take size).Pairwise (· ≤ ·))
    (x num : ℤ) :
    (∃ i, (∃ fuel, upperTurns cells size num fuel 0 size = .ok i) ∧
      ∃ fuel, upperArrayTurns (cells.take size ++ [x]) size num fuel 0 size = .ok i) ↔
    ∃ k, 0 < midpoint size k ∧ num < (cells.take size).getD (midpoint size k) 0 := by
  have htake : (cells.take size).length = size := List.length_take_of_le hlen
  have hsame : ∀ fuel, upperTurns cells size num fuel 0 size
      = upperArrayTurns (cells.take size ++ [x]) size num fuel 0 size := fun fuel =>
    upperTurns_large hlen hlarge fuel (by omega)
  constructor
  · rintro ⟨i, -, fuel, hok⟩
    by_contra hnone
    have hmid : ∀ k, 0 < midpoint size k → (cells.take size).getD (midpoint size k) 0 ≤ num :=
      fun k hpos => not_lt.mp fun hnum => hnone ⟨k, hpos, hnum⟩
    have hdiverge := upperArrayTurns_diverge_of_midpoint (x := x) hs (htake.symm ▸ hlarge)
      (htake.symm ▸ hsize) (by rwa [htake]) fuel
    rw [htake] at hdiverge
    cases hdiverge.symm.trans hok
  · intro hsome
    have hends := upperArrayTurns_ok (x := x) hs (htake.symm ▸ hlarge) (htake.symm ▸ hsize)
      (by rwa [htake])
    rw [htake] at hends
    obtain ⟨fuel, hok⟩ := hends
    exact ⟨_, ⟨fuel, (hsame fuel).trans hok⟩, fuel, hok⟩

/-- **The two upper bounds of a column file**, whose first `size` cells are in order and, as an
array, have any value behind them: both searches end, with the same index, exactly when a single
cell is up to `num` and either there are fewer than `2 ^ 31` cells or one of the midpoints that the
searches reach before the upper end moves holds a value above `num`. -/
theorem upperBounds_agree_iff (cells : List ℤ) (size : ℕ) (hlen : size ≤ cells.length)
    (hsize : size < 2 ^ 32) (hs : (cells.take size).Pairwise (· ≤ ·)) (x num : ℤ) :
    (∃ i, (∃ fuel, getUpperBound32 fuel cells size num = .ok i) ∧
      ∃ fuel, getUpperBoundFromArray32 fuel (cells.take size ++ [x]) size num = .ok i) ↔
    (size = 1 → cells.getD 0 0 ≤ num) ∧
      (size < 2 ^ 31 ∨ ∃ k, 0 < midpoint size k ∧ num < cells.getD (midpoint size k) 0) := by
  have htake : (cells.take size).length = size := List.length_take_of_le hlen
  rcases Nat.lt_or_ge size (2 ^ 31) with hsmall | hlarge
  · rw [and_iff_left (Or.inl hsmall)]
    by_cases hone : size = 1
    · subst hone
      obtain ⟨c, cells, rfl⟩ := List.exists_cons_of_length_pos hlen
      have hcell : (c :: cells).take 1 ++ [x] = c :: [x] := rfl
      have hread : (c :: cells).getD 0 0 = c := rfl
      rw [hread, hcell]
      constructor
      · rintro ⟨i, ⟨fuel, hfile⟩, fuel', harray⟩ -
        rw [getUpperBoundFromArray32_one, getUpperBound32_one hfile] at harray
        by_contra hnum
        rw [if_pos (not_le.mp hnum)] at harray
        cases harray
      · intro hnum
        refine ⟨1, ⟨1, rfl⟩, 0, ?_⟩
        rw [getUpperBoundFromArray32_one, if_neg (not_lt.mpr (hnum rfl))]
    · have hmem : size < (cells.take size ++ [x]).length := by
        rw [List.length_append, htake, List.length_singleton]
        exact Nat.lt_succ_self size
      have hcells : (cells.take size ++ [x]).take size = cells.take size := by
        rw [List.take_append_of_le_length htake.ge, List.take_of_length_le htake.le]
      have harray : getUpperBoundFromArray32 (size + 1) (cells.take size ++ [x]) size num
          = .ok ((cells.take size).countP (· ≤ num)) := by
        rw [getUpperBoundFromArray32_eq hsmall, getUpperBoundFromArray_eq hmem (by rwa [hcells]),
          hcells]
      exact iff_of_true ⟨_, ⟨_, getUpperBound32_ok hlen hsmall hone hs num⟩, _, harray⟩
        fun h => absurd h hone
  · have hread : ∀ k, (cells.take size).getD (midpoint size k) 0 = cells.getD (midpoint size k) 0 :=
      fun k => by
        rw [List.getD_eq_getElem?_getD, List.getD_eq_getElem?_getD,
          List.getElem?_take_of_lt ((midpoint_lt size k).trans_le hlarge)]
    have hlarge_iff := upperBounds_large_iff hlen hlarge hsize hs x num
    simp only [hread] at hlarge_iff
    have hone : size = 1 → cells.getD 0 0 ≤ num := fun h => by omega
    rw [and_iff_right hone, or_iff_right (not_lt.mpr hlarge), ← hlarge_iff]
    simp only [getUpperBound32, getUpperBoundFromArray32, if_neg (show size ≠ 0 by omega),
      if_neg (show size ≠ 1 by omega)]

/-- `upperBounds_agree_iff` at three cells with a fourth behind them that a delete has left. -/
theorem staleCell_upperBounds_agree :
    ∃ i, (∃ fuel, getUpperBound32 fuel [1, 2, 2, 0] 3 2 = .ok i) ∧
      ∃ fuel, getUpperBoundFromArray32 fuel ([1, 2, 2] ++ [7]) 3 2 = .ok i :=
  (upperBounds_agree_iff [1, 2, 2, 0] 3 (by decide) (by decide) (by decide) 7 2).mpr
    ⟨by decide, Or.inl (by decide)⟩

/-- One cell above `num`: the search in the file returns the size, the search in the array `0`. -/
theorem oneCell_upperBounds_differ :
    getUpperBound32 1 [5] 1 3 = .ok 1 ∧ getUpperBoundFromArray32 1 ([5] ++ [0]) 1 3 = .ok 0 ∧
      ¬ ∃ i, (∃ fuel, getUpperBound32 fuel [5] 1 3 = .ok i) ∧
        ∃ fuel, getUpperBoundFromArray32 fuel ([5] ++ [0]) 1 3 = .ok i := by
  refine ⟨rfl, rfl, ?_⟩
  rintro ⟨i, ⟨fuel, hfile⟩, fuel', harray⟩
  cases (getUpperBoundFromArray32_one fuel' 5 [0]).symm.trans (getUpperBound32_one hfile ▸ harray)

end ColumnDb
