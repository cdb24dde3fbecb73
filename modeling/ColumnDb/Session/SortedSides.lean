import ColumnDb.Session.Fetching
import ColumnDb.Store.Ordered

/-!
The sides of a sort join (`worker.c`).

The worker copies the marked rows of each column, with their row numbers, and sorts them if the
column is UNSORTED. The rows of a SORTED or BPTREE column are handed to the join as they lie in the
file.

* `materializeSide_eq_ok`: the copy returns exactly when every row has a bit and the vector counts
  the marked rows.
* `handsOver_iff`: with any `qsort`, the marked rows come in order exactly when, besides, no two
  values of an UNSORTED column are `2 ^ 31` apart, and those of another one lie in order.
* `sortjoin_sides`: in every run whose commands keep SORTED and BPTREE columns in order they do.

The array of the pairs has two `int`s for a row, so fewer than `2 ^ 31` rows are marked.
-/

namespace ColumnDb

/-- **The copy of the marked rows.** -/
lemma materializeSide_eq_ok {f : DataFile} {bv : BitVector} {m : List (ℤ × ℕ)} :
    materializeSide f bv = .ok m ↔
      f.m.size ≤ 32 * bv.vec.length ∧ bv.count = (markedRows f bv).length ∧
        m = markedRows f bv := by
  have hcollect : ∀ vals, f.stored.zipIdx.foldlM (materializeTurn bv) [] = .ok vals ↔
      (∀ x ∈ f.stored.zipIdx, x.2 / 32 < bv.vec.length) ∧ vals.length ≤ bv.count ∧
        vals = markedRows f bv := by
    intro vals
    have hturn : ∀ result x, materializeTurn bv result x = isMarked bv x.2 >>= fun marked =>
        if marked then
          if result.length < bv.count then .ok (result ++ [id x]) else .error .bounds
        else .ok result := fun _ _ => rfl
    rw [collect_foldlM_iff Prod.snd id hturn _ [] _ (Nat.zero_le _), List.map_id, List.nil_append]
    rfl
  have hword := zipIdx_word_iff f.stored bv.vec.length
  rw [f.length_stored] at hword
  rw [← hword, materializeSide]
  constructor
  · intro h
    obtain ⟨vals, hfold, h⟩ := Outcome.bind_eq_ok.mp h
    obtain ⟨hwords, -, rfl⟩ := (hcollect vals).mp hfold
    split_ifs at h with hcount
    cases h
    exact ⟨hwords, hcount.symm, rfl⟩
  · rintro ⟨hwords, hcount, rfl⟩
    rw [(hcollect _).mpr ⟨hwords, hcount.ge, rfl⟩, Outcome.ok_bind, if_pos hcount.symm]

/-- A side that is sorted with any `qsort`. -/
def sortSideBy (qsort : (ℤ × ℕ → ℤ × ℕ → ℤ) → List (ℤ × ℕ) → List (ℤ × ℕ)) (c : Column)
    (m : List (ℤ × ℕ)) : List (ℤ × ℕ) :=
  if c.data.m.type = .unsorted then qsort (fun x y => compareInt x.1 y.1) m else m

lemma sortSide_eq (c : Column) (m : List (ℤ × ℕ)) : sortSide c m = sortSideBy mergeQsort c m := rfl

/-- The array that the worker hands to `sortjoin` for a column has its marked rows, each with its
value, in the order of the values. -/
def HandsOver (c : Column) (bv : BitVector) : Prop :=
  ∀ qsort, SortsConsistent qsort → ∃ m, materializeSide c.data bv = .ok m ∧
    OrderedBy Prod.fst (markedRows c.data bv) (sortSideBy qsort c m)

/-- The vector has a bit for every row and counts the marked ones. -/
structure CountsRows (f : DataFile) (bv : BitVector) : Prop where
  word : f.m.size ≤ 32 * bv.vec.length
  count : bv.count = (markedRows f bv).length

/-- No two marked values of an UNSORTED column are `2 ^ 31` apart. -/
def NearRows (c : Column) (bv : BitVector) : Prop :=
  c.data.m.type = .unsorted →
    ∀ x ∈ markedRows c.data bv, ∀ y ∈ markedRows c.data bv, y.1 - x.1 < 2 ^ 31

/-- The marked rows of a SORTED or BPTREE column lie in the order of their values. -/
def RowsInOrder (c : Column) (bv : BitVector) : Prop :=
  c.data.m.type ≠ .unsorted → (markedRows c.data bv).Pairwise fun x y => x.1 ≤ y.1

section Sides

variable {c : Column} {bv : BitVector}

lemma mem_stored_of_markedRows {f : DataFile} {x : ℤ × ℕ} (hx : x ∈ markedRows f bv) :
    x.1 ∈ f.stored :=
  List.mem_of_getElem? (List.mem_zipIdx_iff_getElem?.mp (List.mem_filter.mp hx).1)

/-- **The array for one side.** -/
theorem handsOver_iff (hint : ∀ x ∈ c.data.stored, IsInt32 x) :
    HandsOver c bv ↔ CountsRows c.data bv ∧ NearRows c bv ∧ RowsInOrder c bv := by
  have hhalf : ((2 ^ 31 : ℕ) : ℤ) = 2 ^ 31 := by norm_num
  have hcmp : (fun x y : ℤ × ℕ => compareInt x.1 y.1) = bmodDiff Prod.fst (2 ^ 31) := rfl
  have hkey : ∀ x ∈ markedRows c.data bv,
      -((2 ^ 31 : ℕ) : ℤ) ≤ x.1 ∧ x.1 < ((2 ^ 31 : ℕ) : ℤ) := by
    intro x hx
    rw [hhalf]
    exact hint _ (mem_stored_of_markedRows hx)
  constructor
  · intro h
    have hsides : ∀ qsort, SortsConsistent qsort → CountsRows c.data bv ∧
        OrderedBy Prod.fst (markedRows c.data bv) (sortSideBy qsort c (markedRows c.data bv)) := by
      intro qsort hqsort
      obtain ⟨m, hm, hordered⟩ := h qsort hqsort
      obtain ⟨hword, hcount, rfl⟩ := materializeSide_eq_ok.mp hm
      exact ⟨⟨hword, hcount⟩, hordered⟩
    refine ⟨(hsides _ mergeQsort_sorts).1, fun htype => ?_, fun htype => ?_⟩
    · have hnear := near_of_sorts hkey fun qsort hqsort _ => by
        have hordered := (hsides qsort hqsort).2
        rw [sortSideBy, if_pos htype, hcmp] at hordered
        exact hordered
      rw [hhalf] at hnear
      exact hnear
    · have hordered := (hsides _ mergeQsort_sorts).2
      rw [sortSideBy, if_neg htype] at hordered
      exact hordered.order
  · rintro ⟨⟨hword, hcount⟩, hnear, horder⟩ qsort hqsort
    refine ⟨_, materializeSide_eq_ok.mpr ⟨hword, hcount, rfl⟩, ?_⟩
    rw [sortSideBy]
    split_ifs with htype
    · rw [hcmp]
      exact .of_near hqsort (by rw [hhalf]; exact hnear htype)
    · exact ⟨.refl _, horder htype⟩

/-- The marked rows of a column in order are in order. -/
lemma RowsInOrder.of_columnOrdered (h : ColumnOrdered c) : RowsInOrder c bv := by
  intro htype
  have hrows : c.data.stored.zipIdx.Pairwise fun x y => x.1 ≤ y.1 := by
    rw [← List.pairwise_map (f := Prod.fst), List.zipIdx_map_fst]
    exact h htype
  exact hrows.filter _

/-- **The sides of a sort join.** For a column of `int`s the worker hands over the marked rows in
order exactly when the vector counts them, the values of an UNSORTED column are near to each other
and those of another column lie in order; and in every state of a run in which each command keeps
SORTED and BPTREE columns in order, they do lie in order. -/
theorem sortjoin_sides {qsort : (List ℤ → List ℤ → ℤ) → List (List ℤ) → List (List ℤ)}
    (hqsort : SortsConsistent qsort) :
    (∀ c bv, (∀ x ∈ c.data.stored, IsInt32 x) →
      (HandsOver c bv ↔ CountsRows c.data bv ∧ NearRows c bv ∧ RowsInOrder c bv)) ∧
    ∀ d, StoreRun qsort (fun d op => op.Ints ∧ op.KeepsOrder d) d →
      ∀ name c bv, d name = some c → CountsRows c.data bv → NearRows c bv → HandsOver c bv := by
  refine ⟨fun c bv => handsOver_iff, fun d hrun name c bv hc hcount hnear => ?_⟩
  obtain ⟨horder, hints⟩ := hrun.ordered hqsort
  exact (handsOver_iff fun x hx => hints name c hc x (List.mem_of_mem_take hx)).mpr
    ⟨hcount, hnear, .of_columnOrdered (horder name c hc)⟩

end Sides

/-- A disk with a fresh SORTED column `a`. -/
def sortedDisk : Disk := Function.update (fun _ => none) "a" (some (Column.makeNew .sorted))

/-- The disk with `3` in that column. -/
def threeDisk : Disk := Function.update sortedDisk "a" (some sortedThree)

/-- A vector of two rows. -/
def bothMarked : BitVector := markAllBv (createBv 2)

/-- The rows of a column of two rows. -/
lemma markedRows_bothMarked {f : DataFile} {x y : ℤ} (hstored : f.stored = [x, y]) :
    markedRows f bothMarked = [(x, 0), (y, 1)] := by
  have hfirst : bothMarked.bit 0 = true := rfl
  have hsecond : bothMarked.bit 1 = true := rfl
  simp [markedRows, hstored, hfirst, hsecond]

/-- A second insert into the SORTED column. -/
lemma storeRun_insert {C : Disk → StoreOp → Prop} {v : ℤ} {c : Column}
    (hcreate : C (fun _ => none) (.create "a" .sorted)) (hthree : C sortedDisk (.insert "a" 3))
    (hv : C threeDisk (.insert "a" v)) (hok : insertHelper sortedThree v = .ok c) :
    StoreRun mergeQsort C (Function.update threeDisk "a" (some c)) := by
  have hsorted : StoreRun mergeQsort C sortedDisk := .step .start hcreate rfl
  have hdisk : StoreRun mergeQsort C threeDisk := .step hsorted hthree rfl
  exact .step hdisk hv (onColumn_ok rfl hok)

/-- `sortjoin_sides` at a SORTED column after inserts of `3` and `2`. -/
theorem fallingInserts_handsOver :
    ∃ c, insertHelper sortedThree 2 = .ok c ∧ c.data.stored = [2, 3] ∧ HandsOver c bothMarked := by
  obtain ⟨c, hok, htype, hsize, hstored⟩ :=
    insertHelper_sorted_eq (c := sortedThree) rfl (by decide) 2
  have hrows : c.data.stored = [2, 3] := hstored
  have hthree : TakesInOrder (Column.makeNew .sorted) 3 := Or.inl rfl
  have htwo : TakesInOrder sortedThree 2 := Or.inr ⟨3, by decide, by decide⟩
  have hrun := storeRun_insert (C := fun d op => op.Ints ∧ op.KeepsOrder d) ⟨trivial, trivial⟩
    ⟨⟨by decide, by decide⟩, fun e he => Option.some.inj he ▸ hthree⟩
    ⟨⟨by decide, by decide⟩, fun e he => Option.some.inj he ▸ htwo⟩ hok
  exact ⟨c, hok, hrows, (sortjoin_sides mergeQsort_sorts).2 _ hrun "a" c bothMarked
    (Function.update_self _ _ _)
    ⟨by rw [hsize]; decide, by rw [markedRows_bothMarked hrows]; rfl⟩
    fun h => absurd (htype.symm.trans h) (by decide)⟩

/-- After inserts of `3` and `5` the rows of a SORTED column lie as `5, 3`, and are handed to the
join in that order. -/
theorem risingInserts_not_handsOver :
    ∃ c, StoreRun mergeQsort (fun _ op => op.Ints) (Function.update threeDisk "a" (some c)) ∧
      CountsRows c.data bothMarked ∧ NearRows c bothMarked ∧ ¬ HandsOver c bothMarked := by
  obtain ⟨c, hok, htype, hsize, hstored⟩ :=
    insertHelper_sorted_eq (c := sortedThree) rfl (by decide) 5
  have hmarked := markedRows_bothMarked (show c.data.stored = [5, 3] from hstored)
  refine ⟨c, storeRun_insert trivial ⟨by decide, by decide⟩ ⟨by decide, by decide⟩ hok,
    ⟨by rw [hsize]; decide, by rw [hmarked]; rfl⟩,
    fun h => absurd (htype.symm.trans h) (by decide), fun h => ?_⟩
  obtain ⟨m, hm, hordered⟩ := h mergeQsort mergeQsort_sorts
  obtain ⟨-, -, rfl⟩ := materializeSide_eq_ok.mp hm
  have horder := hordered.order
  rw [sortSideBy, if_neg (by rw [htype]; decide), hmarked] at horder
  revert horder
  decide

end ColumnDb
