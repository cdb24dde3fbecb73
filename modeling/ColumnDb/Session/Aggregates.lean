import ColumnDb.Session.Fetching

/-!
What the aggregates compute (`helper_aggregation.c`).

`aggregateVals` is the worker's `load_col` followed by `aggregate_vals`; `aggregateLoaded` is the
second alone, on the file that the first has opened.

* `aggregateArray_fold`: on an array of at least one value the loop is a fold that starts with the
  first value.
* `average_iff`: the sum is divided as an unsigned number, which is the quotient of the signed one
  when the sum is not negative, or nothing is divided, or both quotients are `0`.
* `aggregateLoaded_iff`: all four aggregates are right exactly then.
-/

namespace ColumnDb

/-- The array and the size that `aggregate_vals` works on, in a column that is open. -/
def operandArray (f : DataFile) (v : SessionVar) : Outcome (ValArray × ℕ) :=
  if v.isMaterialized then .ok (v.val, v.valSize)
  else do
    let vals ← fetchMatchedFromBv f v.bv
    .ok (.live vals, v.bv.count)

/-- `aggregate_vals` on the array and the size. -/
def aggregateArray (vals : ValArray) (size : ℕ) (op : ℤ → ℤ → ℤ) (isAvg : Bool) : Outcome ℤ := do
  let first ← vals.read 0
  let val ← (List.range' 1 (size - 1)).foldlM (fun val i => do .ok (op val (← vals.read i))) first
  if isAvg then
    if size ≠ 0 then .ok (toInt32 (val % 2 ^ 32 / size)) else .error .assertion
  else .ok val

/-- `aggregate_vals`. -/
def aggregateLoaded (f : DataFile) (v : SessionVar) (op : ℤ → ℤ → ℤ) (isAvg : Bool) :
    Outcome ℤ := do
  let (vals, size) ← operandArray f v
  aggregateArray vals size op isAvg

/-- The worker opens the column first. -/
lemma aggregateVals_eq (d : Disk) (v : SessionVar) (op : ℤ → ℤ → ℤ) (isAvg : Bool) :
    aggregateVals d v op isAvg
      = loadCol d v >>= fun c => aggregateLoaded c.data v op isAvg := by
  rw [aggregateVals, aggregateOperand]
  cases loadCol d v with
  | error e => rfl
  | ok c => rfl

/-! ### The loop -/

/-- The loop from the index `k` on is a fold over the values from there. -/
lemma foldlM_read (op : ℤ → ℤ → ℤ) (vals : List ℤ) (k n : ℕ) (val : ℤ) (hk : k + n = vals.length) :
    (List.range' k n).foldlM (fun val i => do .ok (op val (← (ValArray.live vals).read i))) val
      = .ok ((vals.drop k).foldl op val) :=
  (foldlM_fetch .bounds vals (fun val x => .ok (op val x)) k n val hk).trans List.foldlM_pure

/-- **The aggregates of at least one value.** -/
theorem aggregateArray_fold (op : ℤ → ℤ → ℤ) (x : ℤ) (l : List ℤ) (isAvg : Bool) :
    aggregateArray (.live (x :: l)) (x :: l).length op isAvg
      = .ok (if isAvg then toInt32 (l.foldl op x % 2 ^ 32 / (x :: l).length)
          else l.foldl op x) := by
  have hread : (ValArray.live (x :: l)).read 0 = .ok x := rfl
  rw [aggregateArray, hread, Outcome.ok_bind, foldlM_read op (x :: l) 1 _ _
    (by rw [List.length_cons]; omega), Outcome.ok_bind]
  cases isAvg with
  | true =>
      rw [if_pos rfl, if_pos (by rw [List.length_cons]; omega)]
      rfl
  | false => rfl

lemma isLeast_fptrMin (x : ℤ) (l : List ℤ) : IsLeast {y | y ∈ x :: l} (l.foldl fptrMin x) := by
  have hop : fptrMin = min := by
    funext a b
    rw [fptrMin, min_def]
    split_ifs <;> omega
  rw [hop]
  exact List.min?_eq_some_iff.mp List.min?_cons'

lemma isGreatest_fptrMax (x : ℤ) (l : List ℤ) :
    IsGreatest {y | y ∈ x :: l} (l.foldl fptrMax x) := by
  have hop : fptrMax = max := by
    funext a b
    rw [fptrMax, max_def]
    split_ifs <;> omega
  rw [hop]
  exact List.max?_eq_some_iff.mp List.max?_cons'

/-- A sum that is wrapped after every step is the wrapped sum. -/
lemma foldl_fptrAdd (x : ℤ) (l : List ℤ) :
    l.foldl fptrAdd (toInt32 x) = toInt32 (x + l.sum) := by
  induction l generalizing x with
  | nil => rw [List.foldl_nil, List.sum_nil, add_zero]
  | cons a l ih => rw [List.foldl_cons, fptrAdd, toInt32_add, ih, List.sum_cons, add_assoc]

/-! ### The division -/

/-- **The average** of a sum `s` over `n` values: the code divides the unsigned sum. -/
theorem average_iff {s : ℤ} (hs : -2 ^ 31 ≤ s ∧ s < 2 ^ 31) {n : ℕ} (hn : 1 ≤ n) :
    toInt32 (s % 2 ^ 32 / n) = s.tdiv n ↔ 0 ≤ s ∨ n = 1 ∨ s + 2 ^ 32 < n := by
  have hn0 : (0 : ℤ) < n := by exact_mod_cast hn
  rcases le_or_gt 0 s with hpos | hneg
  · have hmod : s % 2 ^ 32 = s := Int.emod_eq_of_lt hpos (by omega)
    have hquot : s / n ≤ s := Int.ediv_le_self _ hpos
    refine iff_of_true ?_ (Or.inl hpos)
    rw [hmod, Int.tdiv_eq_ediv_of_nonneg hpos]
    exact toInt32_of_range ⟨by have := Int.ediv_nonneg hpos hn0.le; omega, by omega⟩
  · have hmod : s % 2 ^ 32 = s + 2 ^ 32 := by omega
    have hneg_quot : s.tdiv n = -(-s / n) := by
      rw [← Int.tdiv_eq_ediv_of_nonneg (by omega), Int.neg_tdiv, neg_neg]
    rcases Nat.lt_or_eq_of_le hn with htwo | rfl
    · rcases lt_or_ge (s + 2 ^ 32) (n : ℤ) with hlarge | hsmall
      · refine iff_of_true ?_ (Or.inr (Or.inr hlarge))
        rw [hmod, Int.ediv_eq_zero_of_lt (by omega) hlarge, hneg_quot,
          Int.ediv_eq_zero_of_lt (by omega) (by omega)]
        rfl
      · have hone : 1 ≤ (s + 2 ^ 32) / n := by
          rw [Int.le_ediv_iff_mul_le hn0]
          omega
        have hhalf : (s + 2 ^ 32) / n < 2 ^ 31 := by
          rw [Int.ediv_lt_iff_lt_mul hn0]
          have htwo' : (2 : ℤ) ≤ n := by exact_mod_cast htwo
          nlinarith
        have hquot : 0 ≤ -s / n := Int.ediv_nonneg (by omega) hn0.le
        refine iff_of_false ?_ (by omega)
        rw [hmod, toInt32_of_range ⟨by omega, hhalf⟩, hneg_quot]
        omega
    · refine iff_of_true ?_ (Or.inr (Or.inl rfl))
      rw [Nat.cast_one, Int.ediv_one, Int.tdiv_one]
      exact (Int.emod_bmod s (2 ^ 32)).trans (toInt32_of_range hs)

/-! ### The aggregates of a variable -/

/-- What the four aggregates of the values `vals` should be. -/
structure AggregatesRight (f : DataFile) (v : SessionVar) (vals : List ℤ) : Prop where
  min : ∃ m, aggregateLoaded f v fptrMin false = .ok m ∧ IsLeast {x | x ∈ vals} m
  max : ∃ m, aggregateLoaded f v fptrMax false = .ok m ∧ IsGreatest {x | x ∈ vals} m
  sum : aggregateLoaded f v fptrAdd false = .ok (toInt32 vals.sum)
  avg : aggregateLoaded f v fptrAdd true = .ok ((toInt32 vals.sum).tdiv vals.length)

/-- **The aggregates of a variable** with the values `vals` are right exactly when the wrapped sum
is not negative, or there is one value, or both quotients are `0`, which takes more than `2 ^ 31`
values and is out of reach for a fetched variable. -/
theorem aggregateLoaded_iff (f : DataFile) (v : SessionVar) (vals : List ℤ)
    (hv : operandArray f v = .ok (.live vals, vals.length)) (hne : vals ≠ [])
    (hint : ∀ x ∈ vals, -2 ^ 31 ≤ x ∧ x < 2 ^ 31) :
    AggregatesRight f v vals ↔
      0 ≤ toInt32 vals.sum ∨ vals.length = 1 ∨ toInt32 vals.sum + 2 ^ 32 < vals.length := by
  obtain ⟨x, l, rfl⟩ := List.exists_cons_of_ne_nil hne
  have hvals : ∀ op isAvg, aggregateLoaded f v op isAvg
      = .ok (if isAvg then toInt32 (l.foldl op x % 2 ^ 32 / (x :: l).length) else l.foldl op x) :=
    fun op isAvg => by
      rw [aggregateLoaded, hv, Outcome.ok_bind]
      exact aggregateArray_fold op x l isAvg
  have hsum : l.foldl fptrAdd x = toInt32 (x :: l).sum := by
    have hx := toInt32_of_range (hint x List.mem_cons_self)
    conv_lhs => rw [← hx]
    rw [foldl_fptrAdd, List.sum_cons]
  rw [← average_iff (toInt32_range _) (show 1 ≤ (x :: l).length by rw [List.length_cons]; omega),
    ← hsum]
  constructor
  · intro h
    have havg := h.avg
    rw [hvals, if_pos rfl, ← hsum] at havg
    exact Except.ok.inj havg
  · intro h
    refine ⟨⟨_, hvals _ _, isLeast_fptrMin x l⟩, ⟨_, hvals _ _, isGreatest_fptrMax x l⟩, ?_, ?_⟩
    · rw [hvals, if_neg Bool.false_ne_true, hsum]
    · rw [hvals, if_pos rfl, h, hsum]

/-- A column of two rows, which a fetched variable selects. -/
def twoRows (x y : ℤ) : DataFile where
  m := { type := .unsorted, size := 2, nextFree := 2, root := 0 }
  cells := [x, y]
  size_le := le_rfl

/-- The variable of both rows. -/
def bothRows : SessionVar :=
  { newVariable false 2 false with
    isFetched := true, fetchedCol := some "a", bv := markAllBv (createBv 2) }

lemma operandArray_bothRows (x y : ℤ) :
    operandArray (twoRows x y) bothRows = .ok (.live [x, y], 2) := by
  have hscanned : scanned (twoRows x y) = [x, y] :=
    List.take_of_length_le (show 2 ≤ getCeil 2 fileBlockSize * fileBlockSize by decide)
  have hfits : FetchFits (twoRows x y).m.size (scanned (twoRows x y)).length bothRows.bv := by
    rw [hscanned]
    exact (fetchFits_markAllBv_iff le_rfl).mpr ⟨rfl, rfl⟩
  have hfirst : bothRows.bv.bit 0 = true := rfl
  have hsecond : bothRows.bv.bit 1 = true := rfl
  have hvalues : markedValues bothRows.bv [x, y].zipIdx = [x, y] := by
    simp [markedValues, hfirst, hsecond]
  rw [operandArray, fetchMatchedFromBv_of_fits hfits, hscanned, hvalues]
  rfl

/-- The aggregates of `-1` and `3`. -/
theorem minusOneThree_right : AggregatesRight (twoRows (-1) 3) bothRows [-1, 3] :=
  (aggregateLoaded_iff _ _ [-1, 3] (operandArray_bothRows _ _) (by simp) (by simp)).mpr
    (Or.inl (by decide))

/-- The average of `-1` and `-2` is `-1` towards zero, and the code has `2147483646`. -/
theorem minusOneMinusTwo_average :
    aggregateLoaded (twoRows (-1) (-2)) bothRows fptrAdd true = .ok 2147483646 ∧
      ¬ AggregatesRight (twoRows (-1) (-2)) bothRows [-1, -2] := by
  have havg : aggregateLoaded (twoRows (-1) (-2)) bothRows fptrAdd true = .ok 2147483646 := by
    rw [aggregateLoaded, operandArray_bothRows]
    rfl
  refine ⟨havg, fun h => ?_⟩
  have hright := h.avg.symm.trans havg
  revert hright
  decide

end ColumnDb
