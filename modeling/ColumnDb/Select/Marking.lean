import ColumnDb.Bptree.Scan
import ColumnDb.Library.Blocks
import ColumnDb.Store.Search
import ColumnDb.Store.Update

/-!
Selecting the rows of a column by a range of values (`helper_variable.c`).

* `markMatchingBvForUnsorted` reads the cells block by block and marks those in the range;
  `markMatchingBvNoBlockRead` is its `NOBLOCKREAD` variant, which reads the rows only, and
  `markMatchingBvForSorted` marks the range between two binary searches.
* `scannedStale` are the cells after the rows that the blocks reach.
* `markMatchingBvForUnsorted_exact_iff`: after any run, the scan by blocks marks exactly the
  matching rows when, and only when, no scanned stale cell lies in the range; the other
  variant always does (`markMatchingBvNoBlockRead_exact`).
* `sorted_agrees_iff`: on a sorted column the two binary searches agree with the scan exactly
  when some row is up to `high`, some row is from `low` on, the marked range does not end
  with a word unless it is one row, and no scanned stale cell lies in the range.
-/

namespace ColumnDb

/-! ### The functions of the source -/

/-- A turn of the inner loop of `mark_matching_bv_for_unsorted`: a value at its index. -/
def markTurn (low high : ℤ) (s : BitVector × ℕ) (x : ℤ × ℕ) : Outcome (BitVector × ℕ) :=
  if low ≤ x.1 ∧ x.1 ≤ high then do
    let bv ← markBv s.1 x.2
    .ok (bv, s.2 + 1)
  else .ok s

/-- A turn of the outer loop of `mark_matching_bv_for_unsorted`: one block is read, as far as
the file goes. -/
def markBlock (cells : List ℤ) (low high : ℤ) (s : BitVector × ℕ) (u : ℕ) :
    Outcome (BitVector × ℕ) :=
  let buffer := (cells.drop (u * fileBlockSize)).take fileBlockSize
  if buffer = [] then .error .exit
  else (buffer.zipIdx (u * fileBlockSize)).foldlM (markTurn low high) s

/-- `mark_matching_bv_for_unsorted`. -/
def markMatchingBvForUnsorted (f : DataFile) (bv : BitVector) (low high : ℤ) :
    Outcome (BitVector × ℕ) :=
  (List.range (getCeil f.m.size fileBlockSize)).foldlM (markBlock f.cells low high) (bv, 0)

/-- `mark_matching_bv_for_unsorted` compiled with `NOBLOCKREAD`. -/
def markMatchingBvNoBlockRead (f : DataFile) (bv : BitVector) (low high : ℤ) :
    Outcome (BitVector × ℕ) :=
  let buffer := f.cells.take f.m.size
  if buffer.length = f.m.size then buffer.zipIdx.foldlM (markTurn low high) (bv, 0)
  else .error .assertion

/-- `mark_matching_bv_for_sorted`. -/
def markMatchingBvForSorted (f : DataFile) (bv : BitVector) (low high : ℤ) :
    Outcome (BitVector × ℕ) := do
  let lowIndex ← getLowerBound f.cells f.m.size low
  let highIndex ← getUpperBound f.cells f.m.size high
  let highIndex := if 0 < highIndex then highIndex - 1 else 0
  if low ≤ high then do
    let bv ← if lowIndex = highIndex then markBv bv lowIndex
      else markBvByRange bv lowIndex highIndex
    .ok (bv, sub32 (highIndex + 1) lowIndex)
  else .error .assertion

/-! ### The scan -/

/-- A scan that returns has marked the indices of the values in the range, and counted
them. -/
lemma markTurn_foldlM_ok {low high : ℤ} (xs : List (ℤ × ℕ)) :
    ∀ (bv bv' : BitVector) (total total' : ℕ),
      xs.foldlM (markTurn low high) (bv, total) = .ok (bv', total') →
      total' = total + xs.countP (fun x => low ≤ x.1 ∧ x.1 ≤ high) ∧
      ∀ j, bv'.bit j = true ↔
        bv.bit j = true ∨ ∃ v, (v, j) ∈ xs ∧ low ≤ v ∧ v ≤ high := by
  induction xs with
  | nil =>
      intro bv bv' total total' h
      cases h
      simp
  | cons x xs ih =>
      intro bv bv' total total' h
      rw [List.foldlM_cons] at h
      obtain ⟨⟨bv₁, total₁⟩, hturn, hrest⟩ := Outcome.bind_eq_ok.mp h
      obtain ⟨htotal, hbit⟩ := ih bv₁ bv' total₁ total' hrest
      rw [markTurn] at hturn
      split_ifs at hturn with hx
      · have hword : x.2 / 32 < bv.vec.length := by
          refine not_le.mp fun hle => ?_
          rw [markBv_bounds hle] at hturn
          cases hturn
        obtain ⟨bv₂, hok, -, -, hbit₂⟩ := markBv_ok hword
        rw [hok] at hturn
        cases hturn
        refine ⟨?_, fun j => ?_⟩
        · rw [htotal, List.countP_cons_of_pos (by simpa using hx)]
          omega
        · rw [hbit, hbit₂, Bool.or_eq_true, decide_eq_true_eq, or_assoc]
          refine or_congr_right ⟨?_, ?_⟩
          · rintro (rfl | ⟨v, hv, hr⟩)
            · exact ⟨x.1, List.mem_cons_self, hx⟩
            · exact ⟨v, List.mem_cons_of_mem _ hv, hr⟩
          · rintro ⟨v, hv, hr⟩
            rcases List.mem_cons.mp hv with rfl | hv
            · exact Or.inl rfl
            · exact Or.inr ⟨v, hv, hr⟩
      · cases hturn
        refine ⟨?_, fun j => ?_⟩
        · rw [htotal, List.countP_cons_of_neg (by simpa using hx)]
        · rw [hbit]
          refine or_congr_right ⟨?_, ?_⟩
          · rintro ⟨v, hv, hr⟩
            exact ⟨v, List.mem_cons_of_mem _ hv, hr⟩
          · rintro ⟨v, hv, hr⟩
            rcases List.mem_cons.mp hv with rfl | hv
            · exact absurd hr hx
            · exact ⟨v, hv, hr⟩

/-- A scan returns when every value in the range has its word. -/
lemma markTurn_foldlM_total (low high : ℤ) (xs : List (ℤ × ℕ)) :
    ∀ (bv : BitVector) (total : ℕ),
      (∀ x ∈ xs, low ≤ x.1 ∧ x.1 ≤ high → x.2 < bv.size) →
      ∃ r, xs.foldlM (markTurn low high) (bv, total) = .ok r := by
  intro bv total h
  refine (foldlM_ok (P := fun _ (r : BitVector × ℕ) => r.1.size = bv.size) xs
    (fun before x after r hsplit hsize => ?_) rfl).imp fun _ hrun => hrun.1
  have hmem : x ∈ xs := hsplit ▸ List.mem_append_right before List.mem_cons_self
  rw [markTurn]
  split_ifs with hx
  · obtain ⟨bv₁, hok, hsize₁, -, -⟩ :=
      markBv_ok (BitVector.div_lt_length (hsize.symm ▸ h x hmem hx))
    exact ⟨_, by rw [hok, Outcome.ok_bind], hsize₁.trans hsize⟩
  · exact ⟨r, rfl, hsize⟩

/-- The cells that the blocks of the scan reach. -/
def scanned (f : DataFile) : List ℤ :=
  f.cells.take (getCeil f.m.size fileBlockSize * fileBlockSize)

/-- The stale cells that the blocks of the scan reach. -/
def scannedStale (f : DataFile) : List ℤ := (scanned f).drop f.m.size

lemma stored_append_scannedStale (f : DataFile) : f.stored ++ scannedStale f = scanned f := by
  have htake : f.stored = (scanned f).take f.m.size := by
    rw [scanned, List.take_take, min_eq_left (le_getCeil_mul _ (by decide)), DataFile.stored]
  rw [htake, scannedStale, List.take_append_drop]

/-- The blocks of the scan start at cells of the file. -/
lemma block_lt {f : DataFile} {u : ℕ} (hu : u < getCeil f.m.size fileBlockSize) :
    u * fileBlockSize < f.cells.length :=
  ((lt_getCeil_iff (by decide)).mp hu).trans_le f.size_le

lemma markMatchingBvForUnsorted_eq (f : DataFile) (bv : BitVector) (low high : ℤ) :
    markMatchingBvForUnsorted f bv low high
      = (scanned f).zipIdx.foldlM (markTurn low high) (bv, 0) :=
  foldlM_blocks (by decide) (fun _ _ => rfl) (fun _ => block_lt) (bv, 0)

lemma countP_zipIdx (p : ℤ → Bool) (l : List ℤ) (k : ℕ) :
    (l.zipIdx k).countP (fun x => p x.1) = l.countP p := by
  conv_rhs => rw [← List.zipIdx_map_fst k l, List.countP_map]
  rfl

/-- A scan by blocks that returns. -/
lemma markMatchingBvForUnsorted_ok {f : DataFile} {low high : ℤ} {bv : BitVector} {n : ℕ}
    (h : markMatchingBvForUnsorted f (createBv f.m.size) low high = .ok (bv, n)) :
    n = f.stored.countP (fun v => low ≤ v ∧ v ≤ high)
        + (scannedStale f).countP (fun v => low ≤ v ∧ v ≤ high) ∧
      ∀ i, bv.bit i = true ↔ ∃ v, (scanned f)[i]? = some v ∧ low ≤ v ∧ v ≤ high := by
  rw [markMatchingBvForUnsorted_eq] at h
  obtain ⟨htotal, hbit⟩ := markTurn_foldlM_ok _ _ _ _ _ h
  refine ⟨?_, fun i => ?_⟩
  · rw [htotal, Nat.zero_add, countP_zipIdx (fun v => low ≤ v ∧ v ≤ high),
      ← stored_append_scannedStale, List.countP_append]
  · rw [hbit, BitVector.bit_createBv]
    simp [List.mk_mem_zipIdx_iff_getElem?]

/-- Without a stale match the values in the range are those of rows. -/
lemma stored_of_scanned {f : DataFile} {low high : ℤ}
    (hstale : ∀ v ∈ scannedStale f, ¬ (low ≤ v ∧ v ≤ high)) {v : ℤ} {i : ℕ}
    (hi : (scanned f)[i]? = some v) (hr : low ≤ v ∧ v ≤ high) : f.stored[i]? = some v := by
  rw [← stored_append_scannedStale] at hi
  by_cases hlt : i < f.stored.length
  · rwa [List.getElem?_append_left hlt] at hi
  · rw [List.getElem?_append_right (by omega)] at hi
    exact absurd hr (hstale v (List.mem_of_getElem? hi))

/-- Without a stale match the scan by blocks returns and sees the rows only. -/
lemma markMatchingBvForUnsorted_exists {f : DataFile} {low high : ℤ}
    (hstale : ∀ v ∈ scannedStale f, ¬ (low ≤ v ∧ v ≤ high)) :
    ∃ bv, markMatchingBvForUnsorted f (createBv f.m.size) low high
        = .ok (bv, f.stored.countP (fun v => low ≤ v ∧ v ≤ high)) ∧
      ∀ i, bv.bit i = true ↔ ∃ v, f.stored[i]? = some v ∧ low ≤ v ∧ v ≤ high := by
  obtain ⟨⟨bv, n⟩, hok⟩ := markTurn_foldlM_total low high
    (scanned f).zipIdx (createBv f.m.size) 0 fun x hx hr => by
      have hi := stored_of_scanned hstale (List.mk_mem_zipIdx_iff_getElem?.mp hx) hr
      have hlt := (List.getElem?_eq_some_iff.mp hi).1
      rwa [f.length_stored] at hlt
  rw [← markMatchingBvForUnsorted_eq] at hok
  obtain ⟨hn, hbit⟩ := markMatchingBvForUnsorted_ok hok
  have hzero : (scannedStale f).countP (fun v => low ≤ v ∧ v ≤ high) = 0 := by
    rw [List.countP_eq_zero]
    exact fun v hv => by simpa using hstale v hv
  refine ⟨bv, by rw [hok, hn, hzero, Nat.add_zero], fun i => (hbit i).trans ⟨?_, ?_⟩⟩
  · rintro ⟨v, hv, hr⟩
    exact ⟨v, stored_of_scanned hstale hv hr, hr⟩
  · rintro ⟨v, hv, hr⟩
    refine ⟨v, ?_, hr⟩
    rw [← stored_append_scannedStale,
      List.getElem?_append_left (List.getElem?_eq_some_iff.mp hv).1, hv]

/-- The scan marks the positions of the values in the range, one after the other. -/
lemma markTurn_foldlM_eq (low high : ℤ) (xs : List (ℤ × ℕ)) :
    ∀ (bv : BitVector) (total : ℕ), xs.foldlM (markTurn low high) (bv, total)
      = (hits low high xs).foldlM markBv bv >>= fun bv =>
          .ok (bv, total + (hits low high xs).length) := by
  induction xs with
  | nil => exact fun bv total => rfl
  | cons x xs ih =>
      intro bv total
      rw [List.foldlM_cons, markTurn]
      split_ifs with hx
      · rw [hits_cons_of_mem xs hx, List.foldlM_cons]
        cases markBv bv x.2 with
        | error e => rfl
        | ok bv₁ =>
            rw [Outcome.ok_bind, Outcome.ok_bind, Outcome.ok_bind, ih, List.length_cons,
              Nat.add_right_comm, Nat.add_assoc]
      · rw [hits_cons_of_not_mem xs hx]
        exact ih bv total

/-- The rows of an UNSORTED column are marked once each when no stale cell is in the range. -/
lemma counted_markMatchingBvForUnsorted {f : DataFile} {bv : BitVector} {low high : ℤ} {n : ℕ}
    (hstale : ∀ v ∈ scannedStale f, ¬ (low ≤ v ∧ v ≤ high))
    (h : markMatchingBvForUnsorted f (createBv f.m.size) low high = .ok (bv, n)) :
    bv.Counted := by
  rw [markMatchingBvForUnsorted_eq, markTurn_foldlM_eq] at h
  obtain ⟨bv', hfold, h⟩ := Outcome.bind_eq_ok.mp h
  cases h
  refine (BitVector.counted_createBv _).foldlM_mark _ ?_ (fun i hi => ?_) hfold
  · have hsub : (hits low high (scanned f).zipIdx).Sublist (List.range' 0 (scanned f).length) := by
      rw [← List.zipIdx_map_snd 0 (scanned f)]
      exact List.filter_sublist.map _
    exact hsub.nodup List.nodup_range'
  · refine ⟨?_, BitVector.bit_createBv _ _⟩
    obtain ⟨⟨v, i⟩, he, rfl⟩ := List.mem_map.mp hi
    obtain ⟨hmem, hr⟩ := List.mem_filter.mp he
    have hrow := stored_of_scanned hstale (List.mk_mem_zipIdx_iff_getElem?.mp hmem)
      (of_decide_eq_true hr)
    exact f.length_stored ▸ (List.getElem?_eq_some_iff.mp hrow).1

/-- The select marks exactly the rows in the range, and returns their number. -/
def MarksExactly (mark : DataFile → BitVector → ℤ → ℤ → Outcome (BitVector × ℕ)) (f : DataFile)
    (low high : ℤ) : Prop :=
  ∃ bv, mark f (createBv f.m.size) low high
      = .ok (bv, f.stored.countP (fun v => low ≤ v ∧ v ≤ high)) ∧
    ∀ i, bv.bit i = true ↔ ∃ v, f.stored[i]? = some v ∧ low ≤ v ∧ v ≤ high

/-- The variant that reads the rows only marks exactly the rows in the range. -/
lemma markMatchingBvNoBlockRead_exact (f : DataFile) (low high : ℤ) :
    MarksExactly markMatchingBvNoBlockRead f low high := by
  obtain ⟨⟨bv, n⟩, hok⟩ := markTurn_foldlM_total low high
    f.stored.zipIdx (createBv f.m.size) 0 fun x hx _ => by
      have hi := List.mk_mem_zipIdx_iff_getElem?.mp hx
      have hlt := (List.getElem?_eq_some_iff.mp hi).1
      rwa [f.length_stored] at hlt
  obtain ⟨htotal, hbit⟩ := markTurn_foldlM_ok _ _ _ _ _ hok
  rw [countP_zipIdx (fun v => low ≤ v ∧ v ≤ high), Nat.zero_add] at htotal
  refine ⟨bv, ?_, fun i => ?_⟩
  · have hlen : (f.cells.take f.m.size).length = f.m.size := f.length_stored
    rw [markMatchingBvNoBlockRead, if_pos hlen, ← htotal]
    exact hok
  · rw [hbit, BitVector.bit_createBv]
    simp [List.mk_mem_zipIdx_iff_getElem?]

/-- **Selecting from an UNSORTED column.** After any run of inserts, updates and deletes on a
fresh column, the scan by blocks marks exactly the rows in the range when, and only when, no
stale cell that the blocks reach lies in the range; the scan of the rows always does. -/
theorem markMatchingBvForUnsorted_exact_iff :
    ∀ c, Reachable c → ∀ low high : ℤ,
      MarksExactly markMatchingBvNoBlockRead c.data low high ∧
      (MarksExactly markMatchingBvForUnsorted c.data low high ↔
        ∀ v ∈ scannedStale c.data, ¬ (low ≤ v ∧ v ≤ high)) := by
  intro c _ low high
  refine ⟨markMatchingBvNoBlockRead_exact c.data low high, ?_,
    markMatchingBvForUnsorted_exists⟩
  rintro ⟨bv, hok, -⟩ v hv
  obtain ⟨hn, -⟩ := markMatchingBvForUnsorted_ok hok
  have hzero : (scannedStale c.data).countP (fun v => low ≤ v ∧ v ≤ high) = 0 := by omega
  simpa using List.countP_eq_zero.mp hzero v hv

/-- `markMatchingBvForUnsorted_exact_iff` at a column with a stale cell outside the range. -/
theorem holedColumn_select_zero : MarksExactly markMatchingBvForUnsorted holedColumn.data 0 0 :=
  (markMatchingBvForUnsorted_exact_iff holedColumn holedColumn_reachable 0 0).2.mpr (by decide)

/-- After inserting `1` and `2` and deleting the first row, the select of `2` counts two rows
in a column of one. -/
theorem select_after_delete_counts_stale :
    runOps (Column.makeNew .unsorted) [.insert 1, .insert 2, .delete [0]] = .ok holedColumn ∧
    holedColumn.data.m.size = 1 ∧
    (∃ bv, markMatchingBvForUnsorted holedColumn.data (createBv 1) 2 2 = .ok (bv, 2)) ∧
    ¬ MarksExactly markMatchingBvForUnsorted holedColumn.data 2 2 := by
  have hok : ∃ bv, markMatchingBvForUnsorted holedColumn.data (createBv 1) 2 2 = .ok (bv, 2) :=
    ⟨_, rfl⟩
  refine ⟨rfl, rfl, hok, ?_⟩
  rintro ⟨bv, hok', -⟩
  obtain ⟨bv', hok⟩ := hok
  have htwo : (2 : ℕ) = holedColumn.data.stored.countP (fun v => 2 ≤ v ∧ v ≤ 2) :=
    congrArg Prod.snd (Except.ok.inj (hok.symm.trans hok'))
  exact absurd htwo (by decide)

/-! ### The binary searches against the scan -/

/-- The select by binary search and the scan mark the same positions and return the same
count. -/
def SortedAgrees (f : DataFile) (low high : ℤ) : Prop :=
  ∃ bv bv' n, markMatchingBvForSorted f (createBv f.m.size) low high = .ok (bv, n) ∧
    markMatchingBvForUnsorted f (createBv f.m.size) low high = .ok (bv', n) ∧
    ∀ i, bv.bit i = bv'.bit i

/-- The entries up to `high` are those below `low` and those in the range. -/
lemma countP_le_eq_add {low high : ℤ} (hle : low ≤ high) (l : List ℤ) :
    l.countP (· ≤ high) = l.countP (· < low) + l.countP (fun v => low ≤ v ∧ v ≤ high) := by
  induction l with
  | nil => rfl
  | cons a l ih =>
      simp only [List.countP_cons, ih, decide_eq_true_eq]
      split_ifs <;> omega

/-- In a sorted column the rows in the range lie between the two counts. -/
lemma stored_inRange_iff {f : DataFile} (hs : f.stored.Pairwise (· ≤ ·)) (low high : ℤ) (i : ℕ) :
    (∃ v, f.stored[i]? = some v ∧ low ≤ v ∧ v ≤ high) ↔
      f.stored.countP (· < low) ≤ i ∧ i < f.stored.countP (· ≤ high) := by
  by_cases hi : i < f.stored.length
  · have hlow := (cutBy_lt hs low).lt_countP_iff hi
    have hhigh := (cutBy_le hs high).lt_countP_iff hi
    rw [List.getElem?_eq_getElem hi, ← hhigh, ← not_lt, ← hlow]
    simp
  · have := f.stored.countP_le_length (p := (· ≤ high))
    rw [List.getElem?_eq_none (by omega)]
    simp only [reduceCtorEq, false_and, exists_false, false_iff]
    omega

/-- What the select by binary search computes on a sorted column, from the numbers `a` of
rows below `low` and `b` of rows up to `high`. -/
lemma markMatchingBvForSorted_eq {f : DataFile} (hs : f.stored.Pairwise (· ≤ ·))
    {low high : ℤ} (hle : low ≤ high) (bv : BitVector) :
    markMatchingBvForSorted f bv low high =
      (if min (f.stored.countP (· < low)) (f.m.size - 1) = f.stored.countP (· ≤ high) - 1
        then markBv bv (min (f.stored.countP (· < low)) (f.m.size - 1))
        else markBvByRange bv (min (f.stored.countP (· < low)) (f.m.size - 1))
          (f.stored.countP (· ≤ high) - 1)) >>= fun bv =>
        .ok (bv, sub32 (f.stored.countP (· ≤ high) - 1 + 1)
          (min (f.stored.countP (· < low)) (f.m.size - 1))) := by
  have hupper : ∃ u, getUpperBound f.cells f.m.size high = .ok u ∧
      (if 0 < u then u - 1 else 0) = f.stored.countP (· ≤ high) - 1 := by
    by_cases hone : f.m.size = 1
    · have hcount : f.stored.countP (· ≤ high) ≤ 1 := by
        rw [← hone, ← f.length_stored]
        exact List.countP_le_length
      rw [hone]
      refine ⟨1, getUpperBound_one _ _, ?_⟩
      rw [if_pos (by omega)]
      omega
    · refine ⟨_, getUpperBound_eq hs hone high, ?_⟩
      split_ifs <;> omega
  obtain ⟨u, hu, hindex⟩ := hupper
  rw [markMatchingBvForSorted, getLowerBound_eq hs, Outcome.ok_bind, hu, Outcome.ok_bind,
    if_pos hle, hindex]
  split_ifs <;> rfl

/-- A SORTED column in order has a range of rows marked, once each. -/
lemma counted_markMatchingBvForSorted {f : DataFile} {bv : BitVector} {low high : ℤ} {n : ℕ}
    (hs : f.stored.Pairwise (· ≤ ·))
    (h : markMatchingBvForSorted f (createBv f.m.size) low high = .ok (bv, n)) :
    bv.Counted := by
  by_cases hle : low ≤ high
  · rw [markMatchingBvForSorted_eq hs hle] at h
    obtain ⟨bv', hmark, h⟩ := Outcome.bind_eq_ok.mp h
    cases h
    have hsum := countP_le_eq_add hle f.stored
    have hlen := f.length_stored
    have hb := f.stored.countP_le_length (p := (· ≤ high))
    set a := f.stored.countP (· < low)
    set b := f.stored.countP (· ≤ high)
    split_ifs at hmark with hone
    · have hpos : 0 < f.m.size := by
        refine Nat.pos_of_ne_zero fun hzero => ?_
        have hnone : (createBv f.m.size).vec.length ≤ min a (f.m.size - 1) / 32 := by
          rw [hzero]
          exact Nat.zero_le _
        rw [markBv_bounds hnone] at hmark
        cases hmark
      have hlt : min a (f.m.size - 1) < (createBv f.m.size).size := by
        change _ < f.m.size
        omega
      exact (BitVector.counted_createBv _).mark hlt (BitVector.bit_createBv _ _) hmark
    · have hword : (b - 1 + 1) % 32 ≠ 0 := by
        intro hword
        rw [markBvByRange_undefined hword] at hmark
        cases hmark
      have hhigh : b - 1 < (createBv f.m.size).size := by
        change _ < f.m.size
        omega
      have hrange : min a (f.m.size - 1) ≤ b - 1 + 1 := by omega
      obtain ⟨bv₁, hok, hsize, hcount, hbit⟩ :=
        markBvByRange_ok (BitVector.exact_createBv _) hrange hhigh hword
      rw [hmark] at hok
      cases hok
      exact BitVector.counted_of_range hrange (hsize ▸ hhigh) hcount hbit
  · rw [markMatchingBvForSorted] at h
    obtain ⟨lowIndex, -, h⟩ := Outcome.bind_eq_ok.mp h
    obtain ⟨highIndex, -, h⟩ := Outcome.bind_eq_ok.mp h
    rw [if_neg hle] at h
    cases h

section Agrees

variable {f : DataFile} {low high : ℤ}

/-- When the two selects agree, rows lie on either side of the range, the shift over the last
word is defined, and the scan has met no stale cell in the range. -/
lemma counts_of_sortedAgrees (hs : f.stored.Pairwise (· ≤ ·)) (hne : 0 < f.m.size)
    (hle : low ≤ high) (hagree : SortedAgrees f low high) :
    0 < f.stored.countP (· ≤ high) ∧ f.stored.countP (· < low) < f.stored.length ∧
      (f.stored.countP (fun v => low ≤ v ∧ v ≤ high) = 1 ∨
        f.stored.countP (· ≤ high) % 32 ≠ 0) ∧
      ∀ v ∈ scannedStale f, ¬ (low ≤ v ∧ v ≤ high) := by
  obtain ⟨bv, bv', n, hok, hok', hbits⟩ := hagree
  have hsum := countP_le_eq_add hle f.stored
  have hlen := f.length_stored
  have hb := f.stored.countP_le_length (p := (· ≤ high))
  have hrows := stored_inRange_iff hs low high
  obtain ⟨hn, hbit'⟩ := markMatchingBvForUnsorted_ok hok'
  rw [markMatchingBvForSorted_eq hs hle] at hok
  obtain ⟨bv₁, hmark, hbv₁⟩ := Outcome.bind_eq_ok.mp hok
  cases hbv₁
  set a := f.stored.countP (· < low)
  set b := f.stored.countP (· ≤ high)
  set k := f.stored.countP (fun v => low ≤ v ∧ v ≤ high)
  -- among the rows the scan marks those from `a` to `b`
  have hscan : ∀ i < f.m.size, bv'.bit i = true ↔ a ≤ i ∧ i < b := by
    intro i hi
    rw [hbit', ← hrows, ← stored_append_scannedStale, List.getElem?_append_left (by omega)]
  have hstale : k + (scannedStale f).countP (fun v => low ≤ v ∧ v ≤ high) = k →
      ∀ v ∈ scannedStale f, ¬ (low ≤ v ∧ v ≤ high) := by
    intro h v hv
    simpa using List.countP_eq_zero.mp (Nat.add_eq_left.mp h) v hv
  split_ifs at hmark with hone
  · have hlt : min a (f.m.size - 1) < (createBv f.m.size).size := by
      change _ < f.m.size
      omega
    obtain ⟨bv₂, hok₂, -, -, hbit₂⟩ := markBv_ok (BitVector.div_lt_length hlt)
    rw [hmark] at hok₂
    cases hok₂
    have hmarked : bv.bit (min a (f.m.size - 1)) = true := by simp [hbit₂]
    rw [hbits, hscan _ (by omega)] at hmarked
    rw [sub32_of_le (by omega)] at hn
    exact ⟨by omega, by omega, Or.inl (by omega), hstale (by omega)⟩
  · have hword : b % 32 ≠ 0 := by
      intro h
      rw [markBvByRange_undefined (by rw [Nat.sub_add_cancel (by omega)]; exact h)] at hmark
      cases hmark
    rw [sub32_of_le (by omega)] at hn
    exact ⟨by omega, by omega, Or.inr hword, hstale (by omega)⟩

/-- Under these conditions the select by binary search marks the rows in the range. -/
lemma markMatchingBvForSorted_ok (hs : f.stored.Pairwise (· ≤ ·)) (hle : low ≤ high)
    (hpos : 0 < f.stored.countP (· ≤ high))
    (hlt : f.stored.countP (· < low) < f.stored.length)
    (hword : f.stored.countP (fun v => low ≤ v ∧ v ≤ high) = 1 ∨
      f.stored.countP (· ≤ high) % 32 ≠ 0) :
    ∃ bv, markMatchingBvForSorted f (createBv f.m.size) low high
        = .ok (bv, f.stored.countP (fun v => low ≤ v ∧ v ≤ high)) ∧
      ∀ i, bv.bit i = true ↔ f.stored.countP (· < low) ≤ i ∧ i < f.stored.countP (· ≤ high) := by
  have hsum := countP_le_eq_add hle f.stored
  have hlen := f.length_stored
  have hb := f.stored.countP_le_length (p := (· ≤ high))
  rw [markMatchingBvForSorted_eq hs hle]
  set a := f.stored.countP (· < low)
  set b := f.stored.countP (· ≤ high)
  set k := f.stored.countP (fun v => low ≤ v ∧ v ≤ high)
  rw [min_eq_left (by omega), Nat.sub_add_cancel hpos, sub32_of_le (by omega)]
  have hcount : b - a = k := by omega
  by_cases hone : a = b - 1
  · have ha : a < (createBv f.m.size).size := by
      change a < f.m.size
      omega
    obtain ⟨bv, hok, -, -, hbit⟩ := markBv_ok (BitVector.div_lt_length ha)
    refine ⟨bv, by rw [if_pos hone, hok, Outcome.ok_bind, hcount], fun i => ?_⟩
    rw [hbit, BitVector.bit_createBv, Bool.false_or, decide_eq_true_eq]
    omega
  · have hb' : b - 1 < (createBv f.m.size).size := by
      change b - 1 < f.m.size
      omega
    obtain ⟨bv, hok, -, -, hbit⟩ := markBvByRange_ok (BitVector.exact_createBv _)
      (show a ≤ b - 1 + 1 by omega) hb'
      (by rw [Nat.sub_add_cancel hpos]; exact hword.resolve_left (by omega))
    refine ⟨bv, by rw [if_neg hone, hok, Outcome.ok_bind, hcount], fun i => ?_⟩
    rw [hbit, decide_eq_true_eq]
    omega

end Agrees

/-- **The binary searches against the scan.** On a sorted column with rows, but fewer than
`2 ^ 31` of them, and with `b` the number of rows up to `high`, the two selects agree exactly
when some row is up to `high`, some row is from `low` on, `b` is no multiple of `32` unless one
row is in the range, and no stale cell the scan reaches is. -/
theorem sorted_agrees_iff (f : DataFile) (hs : f.stored.Pairwise (· ≤ ·)) (hne : 0 < f.m.size)
    (_hsize : f.m.size < 2 ^ 31) (low high : ℤ) (hle : low ≤ high) :
    SortedAgrees f low high ↔
      (∃ v ∈ f.stored, v ≤ high) ∧ (∃ v ∈ f.stored, low ≤ v) ∧
      (f.stored.countP (fun v => low ≤ v ∧ v ≤ high) = 1 ∨
        f.stored.countP (· ≤ high) % 32 ≠ 0) ∧
      ∀ v ∈ scannedStale f, ¬ (low ≤ v ∧ v ≤ high) := by
  have hfirst : (∃ v ∈ f.stored, v ≤ high) ↔ 0 < f.stored.countP (· ≤ high) := by
    simp [List.countP_pos_iff]
  have hlast : (∃ v ∈ f.stored, low ≤ v) ↔ f.stored.countP (· < low) < f.stored.length := by
    rw [lt_iff_le_and_ne, and_iff_right List.countP_le_length, Ne, List.countP_eq_length]
    simp
  rw [hfirst, hlast]
  refine ⟨counts_of_sortedAgrees hs hne hle, ?_⟩
  rintro ⟨hpos, hlt, hword, hstale⟩
  obtain ⟨bv, hok, hbit⟩ := markMatchingBvForSorted_ok hs hle hpos hlt hword
  obtain ⟨bv', hok', hbit'⟩ := markMatchingBvForUnsorted_exists hstale
  refine ⟨bv, bv', _, hok, hok', fun i => ?_⟩
  rw [Bool.eq_iff_iff, hbit, hbit', stored_inRange_iff hs]

/-- `sorted_agrees_iff` at the rows `1, 3` and the range from `2` to `4`. -/
theorem sortedPair_agrees : SortedAgrees sortedPair.data 2 4 :=
  (sorted_agrees_iff sortedPair.data (by decide) (by decide) (by decide) 2 4 (by decide)).mpr
    (by decide)

/-- In a column of the row `3` the select of the values from `5` to `6` by binary search
marks that row, and the scan none. -/
theorem sortedThree_disagrees :
    (∃ bv, markMatchingBvForSorted sortedThree.data (createBv 1) 5 6 = .ok (bv, 1) ∧
      bv.bit 0 = true) ∧
    markMatchingBvForUnsorted sortedThree.data (createBv 1) 5 6 = .ok (createBv 1, 0) ∧
    ¬ SortedAgrees sortedThree.data 5 6 := by
  have hword : 0 / 32 < (createBv 1).vec.length := by decide
  obtain ⟨bv, hmark, -, -, hbit⟩ := markBv_ok hword
  have hsorted : markMatchingBvForSorted sortedThree.data (createBv 1) 5 6 = .ok (bv, 1) := by
    rw [markMatchingBvForSorted_eq (f := sortedThree.data) (by decide) (show (5 : ℤ) ≤ 6 by decide)]
    exact hmark ▸ rfl
  have hscan : markMatchingBvForUnsorted sortedThree.data (createBv 1) 5 6
      = .ok (createBv 1, 0) := rfl
  refine ⟨⟨bv, hsorted, by simp [hbit]⟩, hscan, ?_⟩
  rintro ⟨bv₁, bv₂, n, hok, hok', -⟩
  have hone : 1 = n := congrArg Prod.snd (Except.ok.inj (hsorted.symm.trans hok))
  have hzero : 0 = n := congrArg Prod.snd (Except.ok.inj (hscan.symm.trans hok'))
  omega

end ColumnDb
