import ColumnDb.Store.Search

/-!
The upper bound in an array of any size (`get_upper_bound_from_array` in `helper_math.c`).

The sum `low + high + 1` of the search is an unsigned int. For fewer than `2 ^ 31` values it does
not wrap, and the search is that of `getUpperBoundFromArray`. From `2 ^ 31` values on it wraps as
soon as `low` comes close to the end, and then `low` moves back.

* `getUpperBoundFromArray32`: the search in 32-bit arithmetic, up to a number of turns.
* `upperArrayTurns_eq`: without a wrap its turns are those of `upperArrayLoop`.
* `midpoint`: the midpoints while the upper end has not moved.
* `upperArrayTurns_diverge`: when none of them holds a value above `num` the search does not end.
* `getUpperBoundFromArray32_iff`: when it ends with the number of values up to `num`.
-/

namespace ColumnDb

/-- The midpoint of the search, with the sum in 32 bits. -/
def mid32 (low high : ℕ) : ℕ := (low + high + 1) % 2 ^ 32 / 2

/-- The loop of `get_upper_bound_from_array` and what follows it, up to a number of turns. -/
def upperArrayTurns (a : List ℤ) (size : ℕ) (num : ℤ) : ℕ → ℕ → ℕ → Outcome ℕ
  | 0, _, _ => .error .diverge
  | fuel + 1, low, high =>
      if low < high then do
        let v ← fetch .bounds a (mid32 low high)
        if v ≤ num then upperArrayTurns a size num fuel (mid32 low high) high
        else upperArrayTurns a size num fuel low (sub32 (mid32 low high) 1)
      else do
        let v ← fetch .bounds a low
        if v ≤ num then .ok (if low + 1 < size then low + 1 else size) else .ok 0

/-- `get_upper_bound_from_array`, up to a number of turns; `a` is the memory from the array on. -/
def getUpperBoundFromArray32 (fuel : ℕ) (a : List ℤ) (size : ℕ) (num : ℤ) : Outcome ℕ :=
  if size = 0 then .ok 0
  else if size = 1 then do
    let v ← fetch .bounds a 0
    if num < v then .ok 0 else .ok 1
  else upperArrayTurns a size num fuel 0 size

/-! ### Without a wrap -/

lemma mid32_of_lt {low high : ℕ} (h : low + high + 1 < 2 ^ 32) :
    mid32 low high = (low + high + 1) / 2 := by
  rw [mid32, Nat.mod_eq_of_lt h]

/-- The loop without a wrap, when there are turns for every cell between the ends. -/
lemma upperArrayTurns_eq {a : List ℤ} {size : ℕ} {num : ℤ} (fuel : ℕ) : ∀ {low high : ℕ},
    low ≤ high → high < 2 ^ 31 → high - low < fuel →
    upperArrayTurns a size num fuel low high = upperArrayLoop a size num low high := by
  induction fuel with
  | zero =>
      intro low high _ _ hfuel
      omega
  | succ fuel ih =>
      intro low high hle hhigh hfuel
      rw [upperArrayTurns, upperArrayLoop]
      by_cases h : low < high
      · rw [if_pos h, dif_pos h, mid32_of_lt (by omega), sub32_of_le (by omega)]
        refine congrArg (fetch .bounds a ((low + high + 1) / 2) >>= ·) (funext fun v => ?_)
        by_cases hv : v ≤ num
        · rw [if_pos hv, if_pos hv, ih (by omega) hhigh (by omega)]
        · rw [if_neg hv, if_neg hv, ih (by omega) (by omega) (by omega)]
      · rw [if_neg h, dif_neg h]

/-! ### The midpoints below the end of the array -/

/-- The midpoints one after the other, while the upper end stays at the size. -/
def midpoint (size k : ℕ) : ℕ := (fun low => mid32 low size)^[k] 0

lemma midpoint_succ (size k : ℕ) : midpoint size (k + 1) = mid32 (midpoint size k) size :=
  Function.iterate_succ_apply' _ _ _

lemma midpoint_one (size : ℕ) (h : size + 1 < 2 ^ 32) : midpoint size 1 = (size + 1) / 2 := by
  rw [midpoint_succ, show midpoint size 0 = 0 from rfl, mid32_of_lt (by omega), Nat.zero_add]

lemma mid32_lt (low high : ℕ) : mid32 low high < 2 ^ 31 := by
  rw [mid32]
  omega

lemma midpoint_lt (size k : ℕ) : midpoint size k < 2 ^ 31 := by
  cases k with
  | zero => exact Nat.two_pow_pos 31
  | succ k => exact midpoint_succ size k ▸ mid32_lt _ _

/-- With the greatest size the midpoint is always the first cell. -/
lemma midpoint_max (k : ℕ) : midpoint (2 ^ 32 - 1) k = 0 := by
  induction k with
  | zero => rfl
  | succ k ih =>
      rw [midpoint_succ, ih]
      rfl

section Large

variable {a : List ℤ} {x : ℤ} {num : ℤ}

/-- A value of the array, in the memory with the cell behind it. -/
lemma fetch_array {i : ℕ} (hi : i < a.length) : fetch .bounds (a ++ [x]) i = .ok (a.getD i 0) := by
  rw [fetch_eq_ok, List.getElem?_append_left hi, List.getD_eq_getElem?_getD,
    List.getElem?_eq_getElem hi]
  rfl

/-- **Midpoints that never meet a value above `num`**: the search goes on. -/
theorem upperArrayTurns_diverge (hlarge : 2 ^ 31 ≤ a.length)
    (hmid : ∀ k, a.getD (midpoint a.length k) 0 ≤ num) (fuel : ℕ) :
    ∀ k, upperArrayTurns (a ++ [x]) a.length num fuel (midpoint a.length k) a.length
      = .error .diverge := by
  induction fuel with
  | zero => exact fun _ => rfl
  | succ fuel ih =>
      intro k
      have hlt := midpoint_lt a.length k
      have hlt' := midpoint_lt a.length (k + 1)
      rw [upperArrayTurns, if_pos (by omega), ← midpoint_succ, fetch_array (by omega),
        Outcome.ok_bind, if_pos (hmid (k + 1)), ih]

/-- With the greatest size and no value up to `num` it does not end either. -/
lemma upperArrayTurns_diverge_max (hmax : a.length = 2 ^ 32 - 1) (hnum : num < a.getD 0 0)
    (fuel : ℕ) : upperArrayTurns (a ++ [x]) a.length num fuel 0 a.length = .error .diverge := by
  have hmid : mid32 0 a.length = 0 := by rw [hmax]; rfl
  have hsub : sub32 0 1 = a.length := by rw [hmax]; rfl
  induction fuel with
  | zero => rfl
  | succ fuel ih =>
      rw [upperArrayTurns, if_pos (by omega), hmid, fetch_array (by omega), Outcome.ok_bind,
        if_neg (not_le.mpr hnum), hsub, ih]

lemma getD_le_getD (hs : a.Pairwise (· ≤ ·)) {i j : ℕ} (hij : i ≤ j) (hj : j < a.length) :
    a.getD i 0 ≤ a.getD j 0 := by
  rw [List.getD_eq_getElem?_getD, List.getD_eq_getElem?_getD, List.getElem?_eq_getElem hj,
    List.getElem?_eq_getElem (by omega)]
  rcases Nat.lt_or_eq_of_le hij with hlt | rfl
  · exact List.pairwise_iff_getElem.mp hs i j _ _ hlt
  · exact le_rfl

/-- When no midpoint but `0` holds a value above `num`, the search does not end. -/
lemma upperArrayTurns_diverge_of_midpoint (hs : a.Pairwise (· ≤ ·)) (hlarge : 2 ^ 31 ≤ a.length)
    (hsize : a.length < 2 ^ 32)
    (hmid : ∀ k, 0 < midpoint a.length k → a.getD (midpoint a.length k) 0 ≤ num) (fuel : ℕ) :
    upperArrayTurns (a ++ [x]) a.length num fuel 0 a.length = .error .diverge := by
  by_cases hzero : a.getD 0 0 ≤ num
  · refine upperArrayTurns_diverge hlarge (fun k => ?_) fuel 0
    rcases Nat.eq_zero_or_pos (midpoint a.length k) with hk | hk
    · rwa [hk]
    · exact hmid k hk
  · by_cases hmax : a.length = 2 ^ 32 - 1
    · exact upperArrayTurns_diverge_max hmax (not_le.mp hzero) fuel
    · have hone := midpoint_one a.length (by omega)
      have hle := hmid 1 (by omega)
      exact absurd ((getD_le_getD hs (Nat.zero_le _) (by omega)).trans hle) hzero

/-- **The midpoints up to the first one with a value above `num`**, after which the upper end is
so low that nothing wraps. -/
theorem upperArrayTurns_of_midpoint (hs : a.Pairwise (· ≤ ·)) (hlarge : 2 ^ 31 ≤ a.length)
    (hsize : a.length < 2 ^ 32) {k : ℕ} (hpos : 0 < midpoint a.length k)
    (hnum : num < a.getD (midpoint a.length k) 0)
    (hfirst : ∀ j < k, 0 < midpoint a.length j → a.getD (midpoint a.length j) 0 ≤ num) :
    ∀ i < k, ∃ fuel, upperArrayTurns (a ++ [x]) a.length num fuel (midpoint a.length i) a.length
      = .ok (a.countP (· ≤ num)) := by
  have hmax : a.length ≠ 2 ^ 32 - 1 := by
    intro hmax
    rw [hmax, midpoint_max] at hpos
    exact lt_irrefl _ hpos
  -- a midpoint `0` comes only after values up to `num`
  have hbefore : ∀ j, j < k → 0 < j → a.getD (midpoint a.length j) 0 ≤ num := by
    intro j hj hj0
    rcases Nat.eq_zero_or_pos (midpoint a.length j) with hzero | hposj
    · have hone := midpoint_one a.length (by omega)
      rw [hzero]
      exact (getD_le_getD hs (Nat.zero_le _) (by omega)).trans (hfirst 1 (by omega) (by omega))
    · exact hfirst j hj hposj
  have hcut := cutBy_le hs num
  have hread : ∀ i < a.length, a.getD i 0 ≤ num ↔ i < a.countP (· ≤ num) := by
    intro i hi
    rw [← hcut.lt_countP_iff hi, List.getD_eq_getElem?_getD, List.getElem?_eq_getElem hi,
      Option.getD_some]
  have htake : (a ++ [x]).take a.length = a := List.take_left
  intro i hi
  induction hd : k - i generalizing i with
  | zero => omega
  | succ d ih =>
      have hlt := midpoint_lt a.length i
      have hlt' := midpoint_lt a.length (i + 1)
      by_cases hnext : i + 1 < k
      · obtain ⟨fuel, hok⟩ := ih (i + 1) hnext (by omega)
        refine ⟨fuel + 1, ?_⟩
        rw [upperArrayTurns, if_pos (by omega), ← midpoint_succ, fetch_array (by omega),
          Outcome.ok_bind, if_pos (hbefore _ hnext (Nat.succ_pos i)), hok]
      · obtain rfl : k = i + 1 := by omega
        have hhigh := mt (hread _ (by omega)).mpr (not_le.mpr hnum)
        have hlow : midpoint a.length i = 0 ∨ midpoint a.length i < a.countP (· ≤ num) := by
          rcases Nat.eq_zero_or_pos i with rfl | hi0
          · exact Or.inl rfl
          · exact Or.inr ((hread _ (by omega)).mp (hbefore i hi hi0))
        refine ⟨midpoint a.length (i + 1) + 1, ?_⟩
        rw [upperArrayTurns, if_pos (by omega), ← midpoint_succ, fetch_array (by omega),
          Outcome.ok_bind, if_neg (not_le.mpr hnum), sub32_of_le (by omega),
          upperArrayTurns_eq _ (by omega) (by omega) (by omega)]
        have hloop := @upperArrayLoop_eq (a ++ [x]) a.length (by simp) (by omega)
          (by rwa [htake]) num (midpoint a.length i) (midpoint a.length (i + 1) - 1) (by omega)
          (by omega) (by rw [htake]; omega) (by rw [htake]; omega)
        rwa [htake] at hloop

/-- Some midpoint with a value above `num`: the search ends at the number of values up to `num`. -/
lemma upperArrayTurns_ok (hs : a.Pairwise (· ≤ ·)) (hlarge : 2 ^ 31 ≤ a.length)
    (hsize : a.length < 2 ^ 32)
    (hsome : ∃ k, 0 < midpoint a.length k ∧ num < a.getD (midpoint a.length k) 0) :
    ∃ fuel, upperArrayTurns (a ++ [x]) a.length num fuel 0 a.length
      = .ok (a.countP (· ≤ num)) := by
  obtain ⟨hpos, hnum⟩ := Nat.find_spec hsome
  have hk : 0 < Nat.find hsome := by
    refine Nat.pos_of_ne_zero fun hzero => ?_
    rw [hzero] at hpos
    exact lt_irrefl _ hpos
  exact upperArrayTurns_of_midpoint hs hlarge hsize hpos hnum
    (fun j hj hposj => not_lt.mp fun hnum' => Nat.find_min hsome hj ⟨hposj, hnum'⟩) 0 hk

end Large

/-! ### The search -/

/-- Fewer than `2 ^ 31` values: the search without a wrap. -/
theorem getUpperBoundFromArray32_eq {a : List ℤ} {size : ℕ} {num : ℤ} (hsmall : size < 2 ^ 31) :
    getUpperBoundFromArray32 (size + 1) a size num = getUpperBoundFromArray a size num := by
  rw [getUpperBoundFromArray32, getUpperBoundFromArray,
    upperArrayTurns_eq _ (Nat.zero_le _) hsmall (by omega)]

/-- **The upper bound in an array of any size**, with any value in the cell behind it: the search
ends with the number of values up to `num` exactly when there are fewer than `2 ^ 31` values, or
one of the midpoints that it reaches before the upper end moves holds a value above `num`. -/
theorem getUpperBoundFromArray32_iff (a : List ℤ) (hs : a.Pairwise (· ≤ ·))
    (hsize : a.length < 2 ^ 32) (x num : ℤ) :
    (∃ fuel, getUpperBoundFromArray32 fuel (a ++ [x]) a.length num
        = .ok (a.countP (· ≤ num))) ↔
      a.length < 2 ^ 31 ∨
        ∃ k, 0 < midpoint a.length k ∧ num < a.getD (midpoint a.length k) 0 := by
  rcases Nat.lt_or_ge a.length (2 ^ 31) with hsmall | hlarge
  · refine iff_of_true ⟨a.length + 1, ?_⟩ (Or.inl hsmall)
    have htake : (a ++ [x]).take a.length = a := List.take_left
    have heq := @getUpperBoundFromArray_eq (a ++ [x]) a.length (by simp) (by rwa [htake]) num
    rw [htake] at heq
    rw [getUpperBoundFromArray32_eq hsmall, heq]
  · have hrun : ∀ fuel, getUpperBoundFromArray32 fuel (a ++ [x]) a.length num
        = upperArrayTurns (a ++ [x]) a.length num fuel 0 a.length := fun fuel => by
      rw [getUpperBoundFromArray32, if_neg (by omega), if_neg (by omega)]
    rw [or_iff_right (by omega)]
    constructor
    · rintro ⟨fuel, hok⟩
      by_contra hnone
      have hmid : ∀ k, 0 < midpoint a.length k → a.getD (midpoint a.length k) 0 ≤ num :=
        fun k hpos => not_lt.mp fun hnum => hnone ⟨k, hpos, hnum⟩
      rw [hrun, upperArrayTurns_diverge_of_midpoint hs hlarge hsize hmid] at hok
      cases hok
    · intro hsome
      obtain ⟨fuel, hok⟩ := upperArrayTurns_ok (x := x) hs hlarge hsize hsome
      exact ⟨fuel, (hrun fuel).trans hok⟩

/-- `getUpperBoundFromArray32_iff` at three values, all of them up to `num` like the cell behind
them. -/
theorem threeValues_upperBound : ∃ fuel, getUpperBoundFromArray32 fuel ([1, 2, 2] ++ [2]) 3 2
    = .ok ([(1 : ℤ), 2, 2].countP (· ≤ 2)) :=
  (getUpperBoundFromArray32_iff [1, 2, 2] (by decide) (by decide) 2 2).mpr (Or.inl (by decide))

/-- `2 ^ 31` zeros: `low` reaches the last of them, the sum wraps, and the search starts over. -/
theorem manyZeros_diverge : ¬ ∃ fuel,
    getUpperBoundFromArray32 fuel (List.replicate (2 ^ 31) 0 ++ [0]) (2 ^ 31) 0
      = .ok ((List.replicate (2 ^ 31) (0 : ℤ)).countP (· ≤ 0)) := by
  rintro ⟨fuel, hok⟩
  have hlen : (List.replicate (2 ^ 31) (0 : ℤ)).length = 2 ^ 31 := List.length_replicate
  have hmid : ∀ k, (List.replicate (2 ^ 31) (0 : ℤ)).getD
      (midpoint (List.replicate (2 ^ 31) (0 : ℤ)).length k) 0 ≤ 0 := fun k => by
    rw [hlen, List.getD_eq_getElem?_getD, List.getElem?_replicate, if_pos (midpoint_lt _ k)]
    exact le_rfl
  have hrun := upperArrayTurns_diverge (x := 0) hlen.ge hmid fuel 0
  rw [hlen] at hrun
  rw [getUpperBoundFromArray32, if_neg (by norm_num), if_neg (by norm_num)] at hok
  cases hrun.symm.trans hok

end ColumnDb
