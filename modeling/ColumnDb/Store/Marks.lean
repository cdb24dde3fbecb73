import ColumnDb.Store.BitVector

/-!
The marks of a bit vector as a set (`bit_vector.c`).

* `BvOp`: the operations on a vector. `BvOp.run` is what they do to its words and to its count,
  `BvOp.onMarks` what they are for: a set of positions.
* `BitVector.Marks`: the marked positions below the size are those of a set.
* `BvOp.run_marks`: an operation inside the vector has on the marks the effect it has on the set.
* `getBvCount_run_iff`: it keeps the count exactly when it flips the bit it names.
* `run_counts_iff`: the count is right after every operation of a run exactly when all do.
* `markBvByRange_isMarked_iff`: the marks and the count after marking a range.
-/

namespace ColumnDb

/-! ### The functions of the source -/

/-- `bv->vec[i] &= mask`. -/
def BitVector.andWord (bv : BitVector) (i : ℕ) (mask : BitVec 32) : Outcome BitVector :=
  if h : i < bv.vec.length then
    .ok
      { bv with
        vec := bv.vec.set i (bv.vec[i] &&& mask)
        length_vec := by rw [List.length_set]; exact bv.length_vec }
  else .error .bounds

/-- `unmark_bv`: the count is decremented whatever the bit was. -/
def unmarkBv (bv : BitVector) (index : ℕ) : Outcome BitVector := do
  let mask ← BitVector.shiftOne (index % 32)
  let bv ← bv.andWord (index / 32) (~~~mask)
  .ok { bv with count := sub32 bv.count 1 }

/-- `get_bv_count`: the count in `32` bits. -/
def getBvCount (bv : BitVector) : ℕ := bv.count % 2 ^ 32

/-- The operations on a bit vector. -/
inductive BvOp where
  | mark (index : ℕ)
  | unmark (index : ℕ)
  | markAll
  | unmarkAll
  deriving DecidableEq

namespace BvOp

/-- The effect on the vector. -/
def run (bv : BitVector) : BvOp → Outcome BitVector
  | mark index => markBv bv index
  | unmark index => unmarkBv bv index
  | markAll => .ok (markAllBv bv)
  | unmarkAll => .ok (unmarkAllBv bv)

/-- The index that an operation names is below the size. -/
def Inside (size : ℕ) : BvOp → Prop
  | mark index | unmark index => index < size
  | markAll | unmarkAll => True

instance (size : ℕ) : DecidablePred (Inside size)
  | mark index | unmark index => inferInstanceAs (Decidable (index < size))
  | markAll | unmarkAll => inferInstanceAs (Decidable True)

/-- The effect on the set of the marked positions. -/
def onMarks (size : ℕ) (marks : Finset ℕ) : BvOp → Finset ℕ
  | mark index => insert index marks
  | unmark index => marks.erase index
  | markAll => Finset.range size
  | unmarkAll => ∅

/-- An operation on one position changes whether it is marked. -/
def Flips (marks : Finset ℕ) : BvOp → Prop
  | mark index => index ∉ marks
  | unmark index => index ∈ marks
  | markAll | unmarkAll => True

instance (marks : Finset ℕ) : DecidablePred (Flips marks)
  | mark index => inferInstanceAs (Decidable (index ∉ marks))
  | unmark index => inferInstanceAs (Decidable (index ∈ marks))
  | markAll | unmarkAll => inferInstanceAs (Decidable True)

end BvOp

/-- The positions that a run of operations leaves marked in a new vector. -/
def marksAfter (size : ℕ) (ops : List BvOp) : Finset ℕ := ops.foldl (BvOp.onMarks size) ∅

/-- The number of the positions for which `is_marked` holds. -/
def markedCount (bv : BitVector) : ℕ :=
  (List.range bv.size).countP fun i => isMarked bv i = .ok true

/-! ### The bits -/

/-- A word in reach takes the mask, and the other words stay as they were. -/
lemma BitVector.andWord_ok {bv : BitVector} {i : ℕ} (h : i < bv.vec.length) (mask : BitVec 32) :
    ∃ bv', bv.andWord i mask = .ok bv' ∧ bv'.size = bv.size ∧ bv'.count = bv.count ∧
      ∀ j, bv'.bit j = (bv.bit j && (decide (j / 32 ≠ i) || mask.getLsbD (j % 32))) := by
  refine ⟨_, dif_pos h, rfl, rfl, fun j => ?_⟩
  by_cases hj : j / 32 = i
  · subst hj
    simp [bit, h]
  · simp [bit, List.getElem?_set_ne (Ne.symm hj), hj]

/-- Unmarking a position whose word exists clears its bit. -/
lemma unmarkBv_ok {bv : BitVector} {index : ℕ} (h : index / 32 < bv.vec.length) :
    ∃ bv', unmarkBv bv index = .ok bv' ∧ bv'.size = bv.size ∧ bv'.count = sub32 bv.count 1 ∧
      ∀ j, bv'.bit j = (bv.bit j && decide (j ≠ index)) := by
  obtain ⟨bv', hok, hsize, hcount, hbit⟩ := BitVector.andWord_ok h (~~~(1#32 <<< (index % 32)))
  refine ⟨{ bv' with count := sub32 bv'.count 1 }, ?_, hsize, by simp [hcount], fun j => ?_⟩
  · rw [unmarkBv, BitVector.shiftOne_of_lt (by omega), Outcome.ok_bind, hok, Outcome.ok_bind]
  · refine (hbit j).trans (congrArg _ ?_)
    have hj : j % 32 < 32 := Nat.mod_lt j (by decide)
    rw [BitVec.getLsbD_not, decide_eq_true hj, Bool.true_and, ← BitVec.twoPow_eq,
      BitVec.getLsbD_twoPow, decide_eq_true (show index % 32 < 32 by omega), Bool.true_and,
      ← decide_not, ← Bool.decide_or, decide_eq_decide]
    omega

namespace BitVector

/-- The words of the size are cleared. -/
lemma bit_unmarkAllBv_of_lt {bv : BitVector} {index : ℕ} (h : index < bv.size) :
    (unmarkAllBv bv).bit index = false := by
  have hword : index / 32 < getCeil bv.size 32 := (lt_getCeil_iff (by decide)).mpr (by omega)
  rw [bit, unmarkAllBv, List.getD_eq_getElem?_getD]
  simp only
  rw [List.getElem?_append_left (by rwa [List.length_replicate]), List.getElem?_replicate,
    if_pos hword, Option.getD_some]
  exact BitVec.getLsbD_zero

/-- The marked positions of a vector of that size are those of a set. -/
structure Marks (size : ℕ) (bv : BitVector) (marks : Finset ℕ) : Prop where
  size_eq : bv.size = size
  inside : marks ⊆ Finset.range size
  bit : ∀ i < size, bv.bit i = decide (i ∈ marks)

namespace Marks

variable {size : ℕ} {bv : BitVector} {marks : Finset ℕ}

lemma create (size : ℕ) : Marks size (createBv size) ∅ where
  size_eq := rfl
  inside := Finset.empty_subset _
  bit i _ := by rw [bit_createBv, decide_eq_false (Finset.notMem_empty i)]

lemma isMarked_eq (h : Marks size bv marks) {i : ℕ} (hi : i < size) :
    isMarked bv i = .ok (decide (i ∈ marks)) := by
  rw [isMarked_of_lt (h.size_eq.symm ▸ hi), h.bit i hi]

/-- The positions that `is_marked` finds are as many as the set has. -/
lemma markedCount_eq (h : Marks size bv marks) : markedCount bv = marks.card := by
  have hfilter : ((List.range size).filter fun i => decide (i ∈ marks)).toFinset = marks := by
    ext i
    rw [List.mem_toFinset, List.mem_filter, List.mem_range, decide_eq_true_iff]
    exact and_iff_right_of_imp fun hi => Finset.mem_range.mp (h.inside hi)
  have hnodup : ((List.range size).filter fun i => decide (i ∈ marks)).Nodup :=
    List.nodup_range.filter _
  have hsame : (List.range size).countP (fun i => isMarked bv i = .ok true)
      = (List.range size).countP fun i => decide (i ∈ marks) := by
    refine List.countP_congr fun i hi => ?_
    rw [h.isMarked_eq (List.mem_range.mp hi), decide_eq_true_iff, Except.ok.injEq]
  rw [markedCount, h.size_eq, hsame, List.countP_eq_length_filter,
    ← List.toFinset_card_of_nodup hnodup, hfilter]

/-- A copy between vectors of equal size. -/
lemma cpy {des : BitVector} {marks' : Finset ℕ} (hdes : Marks size des marks')
    (h : Marks size bv marks) : ∃ bv', cpyBv des bv = .ok bv' ∧ Marks size bv' marks := by
  have hroom : getCeil bv.size 32 ≤ des.vec.length := by
    rw [h.size_eq, ← hdes.size_eq]
    exact des.length_vec
  obtain ⟨bv', hok, hsize⟩ : ∃ bv', cpyBv des bv = .ok bv' ∧ bv'.size = bv.size :=
    ⟨_, dif_pos hroom, rfl⟩
  refine ⟨bv', hok, hsize.trans h.size_eq, h.inside, fun i hi => ?_⟩
  rw [bit_cpyBv hok (h.size_eq.symm ▸ hi), h.bit i hi]

lemma card_le (h : Marks size bv marks) : marks.card ≤ size :=
  (Finset.card_le_card h.inside).trans_eq (Finset.card_range size)

end Marks

end BitVector

/-! ### The operations -/

section Operations

variable {size : ℕ} {bv bv' : BitVector} {marks : Finset ℕ} {op : BvOp}

/-- **An operation on the marks.** -/
theorem BvOp.run_marks (h : BitVector.Marks size bv marks) (hop : op.Inside size) :
    ∃ bv', op.run bv = .ok bv' ∧ BitVector.Marks size bv' (op.onMarks size marks) := by
  cases op with
  | mark index =>
      have hindex : index < bv.size := h.size_eq.symm ▸ hop
      obtain ⟨bv', hok, hsize, -, hbit⟩ := markBv_ok (BitVector.div_lt_length hindex)
      refine ⟨bv', hok, hsize.trans h.size_eq, ?_, fun i hi => ?_⟩
      · exact Finset.insert_subset (Finset.mem_range.mpr hop) h.inside
      · rw [hbit, h.bit i hi, ← Bool.decide_or, decide_eq_decide, BvOp.onMarks, Finset.mem_insert]
        exact or_comm
  | unmark index =>
      have hindex : index < bv.size := h.size_eq.symm ▸ hop
      obtain ⟨bv', hok, hsize, -, hbit⟩ := unmarkBv_ok (BitVector.div_lt_length hindex)
      refine ⟨bv', hok, hsize.trans h.size_eq, ?_, fun i hi => ?_⟩
      · exact (Finset.erase_subset _ _).trans h.inside
      · rw [hbit, h.bit i hi, ← Bool.decide_and, decide_eq_decide, BvOp.onMarks, Finset.mem_erase]
        exact and_comm
  | markAll =>
      refine ⟨_, rfl, h.size_eq, Finset.Subset.refl _, fun i hi => ?_⟩
      rw [BitVector.bit_markAllBv ((lt_getCeil_iff (by decide)).mpr (by rw [h.size_eq]; omega)),
        BvOp.onMarks, decide_eq_true (Finset.mem_range.mpr hi)]
  | unmarkAll =>
      refine ⟨_, rfl, h.size_eq, Finset.empty_subset _, fun i hi => ?_⟩
      rw [BitVector.bit_unmarkAllBv_of_lt (h.size_eq.symm ▸ hi), BvOp.onMarks,
        decide_eq_false (Finset.notMem_empty i)]

/-- **An operation on the count**, when it was right: it stays right exactly when the operation
flips the bit it names. -/
theorem getBvCount_run_iff (h : BitVector.Marks size bv marks) (hsize : size < 2 ^ 32)
    (hop : op.Inside size) (hcount : getBvCount bv = marks.card) (hok : op.run bv = .ok bv') :
    getBvCount bv' = (op.onMarks size marks).card ↔ op.Flips marks := by
  have hcard := h.card_le
  rw [getBvCount] at hcount
  cases op with
  | mark index =>
      have hindex : index < bv.size := h.size_eq.symm ▸ hop
      obtain ⟨bv₁, hok₁, -, hcount₁, -⟩ := markBv_ok (BitVector.div_lt_length hindex)
      cases hok₁.symm.trans hok
      rw [getBvCount, hcount₁, BvOp.onMarks, BvOp.Flips]
      by_cases hmem : index ∈ marks
      · rw [Finset.insert_eq_of_mem hmem]
        exact iff_of_false (by omega) (not_not_intro hmem)
      · have hinsert := Finset.card_insert_of_notMem hmem
        have hle : (insert index marks).card ≤ size :=
          (Finset.card_le_card (Finset.insert_subset (Finset.mem_range.mpr hop) h.inside)).trans_eq
            (Finset.card_range size)
        exact iff_of_true (by omega) hmem
  | unmark index =>
      have hindex : index < bv.size := h.size_eq.symm ▸ hop
      obtain ⟨bv₁, hok₁, -, hcount₁, -⟩ := unmarkBv_ok (BitVector.div_lt_length hindex)
      cases hok₁.symm.trans hok
      rw [getBvCount, hcount₁, sub32, BvOp.onMarks, BvOp.Flips]
      by_cases hmem : index ∈ marks
      · have hpos := Finset.card_pos.mpr ⟨index, hmem⟩
        rw [Finset.card_erase_of_mem hmem]
        exact iff_of_true (by split_ifs <;> omega) hmem
      · rw [Finset.erase_eq_of_notMem hmem]
        exact iff_of_false (by split_ifs <;> omega) hmem
  | markAll =>
      cases hok
      have hall : (markAllBv bv).count = size := h.size_eq
      rw [getBvCount, hall, BvOp.onMarks, Finset.card_range]
      exact iff_of_true (Nat.mod_eq_of_lt hsize) trivial
  | unmarkAll =>
      cases hok
      exact iff_of_true rfl trivial

end Operations

/-! ### Runs -/

section Runs

variable {size : ℕ} {ops : List BvOp}

lemma marksAfter_concat (ops : List BvOp) (op : BvOp) :
    marksAfter size (ops ++ [op]) = op.onMarks size (marksAfter size ops) := by
  rw [marksAfter, List.foldl_append]
  rfl

/-- A run has on the marks the effect it has on the set. -/
lemma bvRun_marks (hops : ∀ op ∈ ops, op.Inside size) :
    ∃ bv, ops.foldlM BvOp.run (createBv size) = .ok bv ∧
      BitVector.Marks size bv (marksAfter size ops) := by
  refine foldlM_ok (P := fun before bv => BitVector.Marks size bv (marksAfter size before)) ops
    (fun before op after bv hsplit hmarks => ?_) (.create size)
  have hop : op ∈ ops := hsplit ▸ List.mem_append_right before List.mem_cons_self
  obtain ⟨bv', hok, hmarks'⟩ := BvOp.run_marks hmarks (hops op hop)
  exact ⟨bv', hok, by rwa [marksAfter_concat]⟩

/-- **The count after every operation** of a run on a new vector: it is the number of the marked
positions exactly when every operation flips the bit it names. -/
theorem run_counts_iff (size : ℕ) (hsize : size < 2 ^ 32) (ops : List BvOp)
    (hops : ∀ op ∈ ops, op.Inside size) :
    (∀ k ≤ ops.length, ∃ bv, (ops.take k).foldlM BvOp.run (createBv size) = .ok bv ∧
      getBvCount bv = markedCount bv) ↔
    ∀ k (hk : k < ops.length), ops[k].Flips (marksAfter size (ops.take k)) := by
  have htake : ∀ k, ∀ op ∈ ops.take k, op.Inside size := fun k op hop =>
    hops op (List.mem_of_mem_take hop)
  -- one more operation, on a vector whose count is right
  have hstep : ∀ k (hk : k < ops.length) bv,
      (ops.take k).foldlM BvOp.run (createBv size) = .ok bv → getBvCount bv = markedCount bv →
      ∃ bv', (ops.take (k + 1)).foldlM BvOp.run (createBv size) = .ok bv' ∧
        (getBvCount bv' = markedCount bv' ↔ ops[k].Flips (marksAfter size (ops.take k))) := by
    intro k hk bv hok hcount
    obtain ⟨bv₁, hok₁, hmarks⟩ := bvRun_marks (htake k)
    cases hok₁.symm.trans hok
    have hop : ops[k].Inside size := hops _ (List.getElem_mem hk)
    obtain ⟨bv', hok', hmarks'⟩ := BvOp.run_marks hmarks hop
    refine ⟨bv', ?_, ?_⟩
    · rw [List.take_succ_eq_append_getElem hk, foldlM_append_ok]
      exact ⟨bv, hok, by rw [List.foldlM_cons, hok']; rfl⟩
    · rw [hmarks'.markedCount_eq]
      exact getBvCount_run_iff hmarks hsize hop (hcount.trans hmarks.markedCount_eq) hok'
  constructor
  · intro hcounts k hk
    obtain ⟨bv, hok, hcount⟩ := hcounts k hk.le
    obtain ⟨bv', hok', hiff⟩ := hstep k hk bv hok hcount
    obtain ⟨bv'', hok'', hcount'⟩ := hcounts (k + 1) hk
    cases hok'.symm.trans hok''
    exact hiff.mp hcount'
  · intro hflips k
    induction k with
    | zero =>
        intro _
        exact ⟨_, rfl, (BitVector.Marks.create size).markedCount_eq.symm⟩
    | succ k ih =>
        intro hk
        obtain ⟨bv, hok, hcount⟩ := ih (by omega)
        obtain ⟨bv', hok', hiff⟩ := hstep k hk bv hok hcount
        exact ⟨bv', hok', hiff.mpr (hflips k hk)⟩

end Runs

/-! ### Marking a range -/

/-- **The marks after marking a range**: they are the range, and counted, without a shift by the
width of a word, exactly when the range does not end with a word. -/
theorem markBvByRange_isMarked_iff (bv : BitVector) (low high : ℕ) (hle : low ≤ high)
    (hhigh : high < bv.size) :
    (∃ bv', markBvByRange bv low high = .ok bv' ∧ bv'.count = high - low + 1 ∧
      ∀ i < bv.size, isMarked bv' i = .ok (decide (low ≤ i ∧ i ≤ high))) ↔ high % 32 ≠ 31 := by
  constructor
  · rintro ⟨bv', hok, -⟩ hlast
    rw [markBvByRange_undefined (by omega)] at hok
    cases hok
  · intro hlast
    obtain ⟨bv', hok, hsize, hcount, hbit⟩ :=
      @markBvByRange_bits bv low high (by omega) hhigh (by omega)
    refine ⟨bv', hok, by omega, fun i hi => ?_⟩
    rw [isMarked_of_lt (hsize.symm ▸ hi), hbit, BitVector.bit_unmarkAllBv_of_lt hi, Bool.false_or]

end ColumnDb
