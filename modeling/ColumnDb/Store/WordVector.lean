import ColumnDb.Library.Related
import ColumnDb.Store.Marks

/-!
Bit vectors in the unsigned ints of the source (`bit_vector.c`, `get_ceil` in `helper_math.c`).

The sum in `get_ceil` is an unsigned int. For the last `31` sizes below `2 ^ 32` it wraps, and a
vector of such a size has no words at all; for every other size it is a `BitVector`.

* `WordVector`: `bv_t`, with the words that `get_ceil` counts for its size.
* `WordVector.Holds`: it has the words, the size and the count of a `BitVector`, and
  `markBv_related`, `unmarkBv_related`, `markAllBv_related`, `cpyBv_related`,
  `markBvByRange_related`: so have the outcomes of every operation.
-/

namespace ColumnDb

/-! ### The functions of the source -/

/-- `get_ceil`. -/
def getCeil32 (x y : BitVec 32) : BitVec 32 := (x + y - 1) / y

/-- `bv_t`. It has as many words as `get_ceil` counts for its size, or more when `cpy_bv` has made
the size smaller, and never more than there are for the greatest size. -/
structure WordVector where
  size : BitVec 32
  count : BitVec 32
  vec : List (BitVec 32)
  length_vec : (getCeil32 size 32).toNat ≤ vec.length
  length_lt : vec.length < 2 ^ 27
  deriving DecidableEq

lemma toNat_getCeil32_lt (size : BitVec 32) : (getCeil32 size 32).toNat < 2 ^ 27 := by
  rw [getCeil32, BitVec.toNat_udiv]
  exact Nat.div_lt_of_lt_mul (size + 32 - 1).isLt

namespace WordVector

/-- `create_bv`. -/
def createBv (size : BitVec 32) : WordVector where
  size := size
  count := 0
  vec := List.replicate (getCeil32 size 32).toNat 0
  length_vec := List.length_replicate.ge
  length_lt := List.length_replicate.trans_lt (toNat_getCeil32_lt size)

/-- `get_bv_count`. -/
def getBvCount (bv : WordVector) : BitVec 32 := bv.count

/-- `is_marked`. -/
def isMarked (bv : WordVector) (index : BitVec 32) : Outcome Bool := do
  let bvIndex := index >>> 5
  let offset := index - bvIndex * 32
  let val ← fetch .bounds bv.vec bvIndex.toNat
  .ok ((val >>> offset) &&& 1 != 0)

/-- `cpy_bv`. -/
def cpyBv (des src : WordVector) : Outcome WordVector :=
  if h : (getCeil32 src.size 32).toNat ≤ des.vec.length then
    .ok
      { size := src.size
        count := src.count
        vec := splice des.vec 0 (src.vec.take (getCeil32 src.size 32).toNat)
        length_vec := by
          have := src.length_vec
          rwa [length_splice (by rw [List.length_take]; omega)]
        length_lt := by
          have := src.length_vec
          rw [length_splice (by rw [List.length_take]; omega)]
          exact des.length_lt }
  else .error .bounds

/-- `bv->vec[i]` is changed by an assignment with an operator. -/
def updateWord (bv : WordVector) (i : ℕ) (f : BitVec 32 → BitVec 32) : Outcome WordVector := do
  let word ← fetch .bounds bv.vec i
  .ok
    { bv with
      vec := bv.vec.set i (f word)
      length_vec := by rw [List.length_set]; exact bv.length_vec
      length_lt := by rw [List.length_set]; exact bv.length_lt }

end WordVector

/-- `bit_op`. -/
inductive BitOp where
  | mark
  | unmark
  deriving DecidableEq

namespace WordVector

/-- `_mark_bv_by_op`. -/
def markBvByOp (bv : WordVector) (index : BitVec 32) (op : BitOp) : Outcome WordVector := do
  let bvIndex := index >>> 5
  let offset := index - bvIndex * 32
  let mask ← BitVector.shiftOne offset.toNat
  match op with
  | .mark =>
      let bv ← bv.updateWord bvIndex.toNat (· ||| mask)
      .ok { bv with count := bv.count + 1 }
  | .unmark =>
      let bv ← bv.updateWord bvIndex.toNat (· &&& ~~~mask)
      .ok { bv with count := bv.count - 1 }

/-- `mark_bv`. -/
def markBv (bv : WordVector) (index : BitVec 32) : Outcome WordVector := bv.markBvByOp index .mark

/-- `unmark_bv`. -/
def unmarkBv (bv : WordVector) (index : BitVec 32) : Outcome WordVector :=
  bv.markBvByOp index .unmark

/-- `_mark_all_bv_by_op`. -/
def markAllBvByOp (bv : WordVector) (op : BitOp) : Outcome WordVector :=
  let bvSize := (getCeil32 bv.size 32).toNat
  match op with
  | .mark => do
      let bv ← (List.range bvSize).foldlM (fun bv i => bv.updateWord i (· ||| 0xffffffff#32)) bv
      .ok { bv with count := bv.size }
  | .unmark =>
      .ok
        { bv with
          count := 0
          vec := List.replicate bvSize 0 ++ bv.vec.drop bvSize
          length_vec := by simp only [List.length_append, List.length_replicate, bvSize]; omega
          length_lt := by
            have := bv.length_vec
            have := bv.length_lt
            simp only [List.length_append, List.length_replicate, List.length_drop, bvSize]
            omega }

/-- `mark_all_bv`. -/
def markAllBv (bv : WordVector) : Outcome WordVector := bv.markAllBvByOp .mark

/-- `unmark_all_bv`. -/
def unmarkAllBv (bv : WordVector) : Outcome WordVector := bv.markAllBvByOp .unmark

/-- `mark_bv_by_range`. -/
def markBvByRange (bv : WordVector) (low high : BitVec 32) : Outcome WordVector := do
  let bv ← bv.unmarkAllBv
  let lowIndex := low >>> 5
  let highIndex := high >>> 5
  let lowOffset := low - lowIndex * 32
  let highOffset := high - highIndex * 32
  let maskLow := (← BitVector.shiftOne lowOffset.toNat) - 1
  let maskHigh := (← BitVector.shiftOne (highOffset + 1).toNat) - 1
  let bv ←
    if lowIndex = highIndex then bv.updateWord lowIndex.toNat (· ||| (maskHigh - maskLow))
    else do
      let bv ← (List.range' (lowIndex + 1).toNat
        (highIndex.toNat - (lowIndex + 1).toNat)).foldlM
        (fun bv i => bv.updateWord i (· ||| 0xffffffff#32)) bv
      let bv ← bv.updateWord lowIndex.toNat (· ||| (0xffffffff#32 - maskLow))
      bv.updateWord highIndex.toNat (· ||| maskHigh)
  .ok { bv with count := high - low + 1 }

end WordVector

/-! ### Unsigned ints and natural numbers -/

/-- `get_ceil` is the ceiling as long as its sum does not wrap. -/
lemma toNat_getCeil32 {size : BitVec 32} (h : size.toNat + 31 < 2 ^ 32) :
    (getCeil32 size 32).toNat = getCeil size.toNat 32 := by
  have hsum : (size + 32 - 1).toNat = size.toNat + 32 - 1 := by bv_omega
  rw [getCeil32, getCeil, BitVec.toNat_udiv, hsum]
  rfl

lemma toNat_shiftRight_five (index : BitVec 32) : (index >>> 5).toNat = index.toNat / 32 := by
  rw [BitVec.toNat_ushiftRight, Nat.shiftRight_eq_div_pow]

/-- The offset of an index in its word. -/
lemma toNat_offset (index : BitVec 32) :
    (index - (index >>> 5) * 32).toNat = index.toNat % 32 := by
  have hindex := toNat_shiftRight_five index
  bv_omega

/-- The bit that `is_marked` looks at. -/
lemma shiftRight_and_one (val offset : BitVec 32) :
    ((val >>> offset) &&& 1 != 0) = val.getLsbD offset.toNat := by
  rw [BitVec.ushiftRight_eq', show (1 : BitVec 32) = 1#32 from rfl,
    BitVec.and_one_eq_setWidth_ofBool_getLsbD, BitVec.getLsbD_ushiftRight, Nat.add_zero]
  cases val.getLsbD offset.toNat <;> rfl

namespace WordVector

/-! ### Changing one word -/

section Words

variable {w : WordVector}

/-- A word in reach is changed, and nothing else. -/
lemma updateWord_ok {i : ℕ} (hi : i < w.vec.length) (f : BitVec 32 → BitVec 32) :
    ∃ w', w.updateWord i f = .ok w' ∧ w'.size = w.size ∧ w'.count = w.count ∧
      w'.vec = w.vec.set i (f w.vec[i]) := by
  rw [updateWord, fetch_of_lt hi, Outcome.ok_bind]
  exact ⟨_, rfl, rfl, rfl, rfl⟩

lemma updateWord_bounds {i : ℕ} (hi : w.vec.length ≤ i) (f : BitVec 32 → BitVec 32) :
    w.updateWord i f = .error .bounds := by
  rw [updateWord, fetch, List.getElem?_eq_none hi]
  rfl

lemma isMarked_eq_fetch (w : WordVector) (index : BitVec 32) :
    w.isMarked index = fetch .bounds w.vec (index.toNat / 32) >>= fun val =>
      .ok (val.getLsbD (index.toNat % 32)) := by
  simp only [isMarked, toNat_shiftRight_five, shiftRight_and_one, toNat_offset]

/-- A change of a word that leaves a bit of it leaves the position of that bit. -/
lemma isMarked_updateWord {w' : WordVector} {i : ℕ} {f : BitVec 32 → BitVec 32} {index : BitVec 32}
    (hok : w.updateWord i f = .ok w') (hf : index.toNat / 32 = i → ∀ word : BitVec 32,
      (f word).getLsbD (index.toNat % 32) = word.getLsbD (index.toNat % 32)) :
    w'.isMarked index = w.isMarked index := by
  by_cases hi : i < w.vec.length
  · obtain ⟨w₁, hok₁, -, -, hvec⟩ := updateWord_ok hi f
    cases hok₁.symm.trans hok
    rw [isMarked_eq_fetch, isMarked_eq_fetch, hvec]
    by_cases hsame : index.toNat / 32 = i
    · have hf := hf hsame w.vec[i]
      subst hsame
      rw [fetch_of_lt hi, fetch_of_lt (by rwa [List.length_set]), List.getElem_set_self,
        Outcome.ok_bind, Outcome.ok_bind, hf]
    · rw [fetch, fetch, List.getElem?_set_ne (Ne.symm hsame)]
  · rw [updateWord_bounds (not_lt.mp hi)] at hok
    cases hok

/-- **An operation on one index** leaves every other index as it was. -/
theorem isMarked_markBvByOp {w' : WordVector} {index i : BitVec 32} {op : BitOp}
    (hok : w.markBvByOp index op = .ok w') (hi : i ≠ index) : w'.isMarked i = w.isMarked i := by
  have hlt : index.toNat % 32 < 32 := Nat.mod_lt _ (by decide)
  have hother : i.toNat / 32 = index.toNat / 32 → i.toNat % 32 ≠ index.toNat % 32 := by
    intro hword hbit
    exact hi (BitVec.eq_of_toNat_eq (by omega))
  have hmask : i.toNat / 32 = index.toNat / 32 →
      (1#32 <<< (index.toNat % 32)).getLsbD (i.toNat % 32) = false := by
    intro hword
    rw [← BitVec.twoPow_eq, BitVec.getLsbD_twoPow, decide_eq_false (hother hword).symm,
      Bool.and_false]
  rw [markBvByOp] at hok
  simp only [toNat_offset, toNat_shiftRight_five, BitVector.shiftOne_of_lt hlt,
    Outcome.ok_bind] at hok
  cases op with
  | mark =>
      obtain ⟨w₁, hok₁, hok⟩ := Outcome.bind_eq_ok.mp hok
      cases hok
      show w₁.isMarked i = w.isMarked i
      refine isMarked_updateWord hok₁ fun hword word => ?_
      rw [BitVec.getLsbD_or, hmask hword, Bool.or_false]
  | unmark =>
      obtain ⟨w₁, hok₁, hok⟩ := Outcome.bind_eq_ok.mp hok
      cases hok
      show w₁.isMarked i = w.isMarked i
      refine isMarked_updateWord hok₁ fun hword word => ?_
      rw [BitVec.getLsbD_and, BitVec.getLsbD_not, hmask hword,
        decide_eq_true (Nat.mod_lt _ (by decide)), Bool.not_false, Bool.and_true, Bool.and_true]

end Words

/-! ### A vector whose words cover its size -/

section Related

variable {w : WordVector} {bv : BitVector}

/-- The words, the size and the count of a vector. -/
structure Holds (w : WordVector) (bv : BitVector) : Prop where
  size : w.size.toNat = bv.size
  count : w.count.toNat = bv.count % 2 ^ 32
  vec : w.vec = bv.vec

lemma holds_createBv {size : BitVec 32} (h : size.toNat + 31 < 2 ^ 32) :
    (createBv size).Holds (ColumnDb.createBv size.toNat) where
  size := rfl
  count := rfl
  vec := congrArg (List.replicate · 0) (toNat_getCeil32 h)

lemma Holds.isMarked_eq (h : w.Holds bv) (index : BitVec 32) :
    w.isMarked index = ColumnDb.isMarked bv index.toNat := by
  rw [isMarked_eq_fetch, ColumnDb.isMarked, h.vec]

/-- An operation that changes one word in the same way. -/
lemma updateWord_related (h : w.Holds bv) {i : ℕ} {f : BitVec 32 → BitVec 32}
    {x : Outcome BitVector} (hok : ∀ hi : i < bv.vec.length, ∃ bv', x = .ok bv' ∧
      bv'.size = bv.size ∧ bv'.count = bv.count ∧ bv'.vec = bv.vec.set i (f bv.vec[i]))
    (hbounds : bv.vec.length ≤ i → x = .error .bounds) :
    Outcome.Related Holds (w.updateWord i f) x := by
  by_cases hi : i < bv.vec.length
  · obtain ⟨bv', rfl, hsize, hcount, hvec⟩ := hok hi
    obtain ⟨w', hw', hwsize, hwcount, hwvec⟩ := updateWord_ok (h.vec.symm ▸ hi) f
    rw [hw']
    refine .ok ⟨by rw [hwsize, hsize, h.size], by rw [hwcount, hcount, h.count], ?_⟩
    rw [hwvec, hvec]
    simp only [h.vec]
  · have hi := not_lt.mp hi
    rw [hbounds hi, updateWord_bounds (h.vec.symm ▸ hi)]
    exact .error .bounds

lemma updateWord_or (h : w.Holds bv) (i : ℕ) (mask : BitVec 32) :
    Outcome.Related Holds (w.updateWord i (· ||| mask)) (bv.orWord i mask) :=
  updateWord_related h (fun hi => ⟨_, dif_pos hi, rfl, rfl, rfl⟩) fun hi => dif_neg (not_lt.mpr hi)

lemma updateWord_and (h : w.Holds bv) (i : ℕ) (mask : BitVec 32) :
    Outcome.Related Holds (w.updateWord i (· &&& mask)) (bv.andWord i mask) :=
  updateWord_related h (fun hi => ⟨_, dif_pos hi, rfl, rfl, rfl⟩) fun hi => dif_neg (not_lt.mpr hi)

lemma markBv_related (h : w.Holds bv) (index : BitVec 32) :
    Outcome.Related Holds (w.markBv index) (ColumnDb.markBv bv index.toNat) := by
  simp only [markBv, markBvByOp, ColumnDb.markBv, toNat_offset, toNat_shiftRight_five]
  refine .bind_same fun mask _ => (updateWord_or h _ mask).bind fun w' bv' h' => ?_
  refine .ok ⟨h'.size, ?_, h'.vec⟩
  rw [BitVec.toNat_add, h'.count, Nat.mod_add_mod]
  rfl

lemma unmarkBv_related (h : w.Holds bv) (index : BitVec 32) :
    Outcome.Related Holds (w.unmarkBv index) (ColumnDb.unmarkBv bv index.toNat) := by
  simp only [unmarkBv, markBvByOp, ColumnDb.unmarkBv, toNat_offset, toNat_shiftRight_five]
  refine .bind_same fun mask _ => (updateWord_and h _ (~~~mask)).bind fun w' bv' h' => ?_
  refine .ok ⟨h'.size, ?_, h'.vec⟩
  show (w'.count - 1).toNat = sub32 bv'.count 1 % 2 ^ 32
  rw [BitVec.toNat_sub, h'.count, show (1 : BitVec 32).toNat = 1 from rfl, sub32]
  split_ifs <;> omega

/-- The words from the first one on are filled. -/
lemma fillWords_ok (n : ℕ) (hn : n ≤ w.vec.length) :
    ∃ w', (List.range n).foldlM (fun w i => w.updateWord i (· ||| 0xffffffff#32)) w = .ok w' ∧
      w'.size = w.size ∧ w'.vec = List.replicate n 0xffffffff#32 ++ w.vec.drop n := by
  induction n with
  | zero => exact ⟨w, rfl, rfl, rfl⟩
  | succ n ih =>
      obtain ⟨w₁, hok₁, hsize₁, hvec₁⟩ := ih (by omega)
      have hlen : n < w₁.vec.length := by
        rw [hvec₁, List.length_append, List.length_replicate, List.length_drop]
        omega
      obtain ⟨w', hok, hsize, -, hvec⟩ := updateWord_ok hlen (· ||| 0xffffffff#32)
      refine ⟨w', ?_, hsize.trans hsize₁, ?_⟩
      · rw [List.range_succ, List.foldlM_append, hok₁, Outcome.ok_bind, List.foldlM_cons, hok]
        rfl
      · have hones : w₁.vec[n] ||| 0xffffffff#32 = 0xffffffff#32 := BitVec.or_allOnes
        rw [hvec, hones, hvec₁, List.set_append_right _ _ List.length_replicate.le,
          List.length_replicate, Nat.sub_self, List.drop_eq_getElem_cons hn, List.set_cons_zero,
          List.replicate_succ', List.append_assoc, List.singleton_append]

lemma Holds.toNat_getCeil32 (h : w.Holds bv) (hsize : bv.size + 31 < 2 ^ 32) :
    (getCeil32 w.size 32).toNat = getCeil bv.size 32 := by
  rw [ColumnDb.toNat_getCeil32 (h.size.symm ▸ hsize), h.size]

lemma markAllBv_related (h : w.Holds bv) (hsize : bv.size + 31 < 2 ^ 32) :
    Outcome.Related Holds w.markAllBv (.ok (ColumnDb.markAllBv bv)) := by
  obtain ⟨w', hok, hwsize, hvec⟩ := fillWords_ok _ w.length_vec
  simp only [markAllBv, markAllBvByOp]
  rw [hok, Outcome.ok_bind]
  refine .ok ⟨?_, ?_, ?_⟩
  · exact (congrArg BitVec.toNat hwsize).trans h.size
  · refine (congrArg BitVec.toNat hwsize).trans (h.size.trans ?_)
    exact (Nat.mod_eq_of_lt (show bv.size < 2 ^ 32 by omega)).symm
  · refine hvec.trans ?_
    rw [h.toNat_getCeil32 hsize, h.vec]
    rfl

lemma unmarkAllBv_related (h : w.Holds bv) (hsize : bv.size + 31 < 2 ^ 32) :
    Outcome.Related Holds w.unmarkAllBv (.ok (ColumnDb.unmarkAllBv bv)) := by
  refine .ok ⟨h.size, rfl, ?_⟩
  simp only [h.toNat_getCeil32 hsize, h.vec]
  rfl

lemma cpyBv_related {des src : WordVector} {des' src' : BitVector} (hdes : des.Holds des')
    (hsrc : src.Holds src') (hsize : src'.size + 31 < 2 ^ 32) :
    Outcome.Related Holds (des.cpyBv src) (ColumnDb.cpyBv des' src') := by
  have hceil := hsrc.toNat_getCeil32 hsize
  rw [cpyBv, ColumnDb.cpyBv]
  by_cases hroom : getCeil src'.size 32 ≤ des'.vec.length
  · rw [dif_pos hroom, dif_pos (by rwa [hceil, hdes.vec])]
    exact .ok ⟨hsrc.size, hsrc.count, by simp only [hceil, hdes.vec, hsrc.vec]⟩
  · rw [dif_neg hroom, dif_neg (by rwa [hceil, hdes.vec])]
    exact .error .bounds

/-- The words strictly inside a range. -/
lemma fillRange_related (is : List ℕ) (h : w.Holds bv) :
    Outcome.Related Holds (is.foldlM (fun w i => w.updateWord i (· ||| 0xffffffff#32)) w)
      (is.foldlM (fun bv i => bv.orWord i 0xffffffff#32) bv) :=
  Outcome.Related.foldlM is (fun i _ _ _ h' => updateWord_or h' i _) h

theorem markBvByRange_related (h : w.Holds bv) (hsize : bv.size + 31 < 2 ^ 32)
    (low high : BitVec 32) :
    Outcome.Related Holds (w.markBvByRange low high)
      (ColumnDb.markBvByRange bv low.toNat high.toNat) := by
  obtain ⟨w₁, hw₁, h₁⟩ := (unmarkAllBv_related h hsize).ok_right rfl
  have hhigh := toNat_offset high
  have hlast : (high - (high >>> 5) * 32 + 1).toNat = high.toNat % 32 + 1 := by
    bv_omega
  have hnext : (low >>> 5 + 1).toNat = low.toNat / 32 + 1 := by
    have hlow := toNat_shiftRight_five low
    bv_omega
  have hsame : low >>> 5 = high >>> 5 ↔ low.toNat / 32 = high.toNat / 32 := by
    rw [← BitVec.toNat_inj, toNat_shiftRight_five, toNat_shiftRight_five]
  simp only [markBvByRange, ColumnDb.markBvByRange, hw₁, Outcome.ok_bind, toNat_offset, hlast,
    hnext, hsame, toNat_shiftRight_five]
  have hcount : (high - low + 1).toNat = sub32 (high.toNat + 1) low.toNat % 2 ^ 32 := by
    rw [sub32]
    split_ifs <;> bv_omega
  refine .bind_same fun maskLow _ => .bind_same fun maskHigh _ => ?_
  by_cases hword : low.toNat / 32 = high.toNat / 32
  · rw [if_pos hword, if_pos hword]
    exact (updateWord_or h₁ _ _).bind fun w' bv' h' => .ok ⟨h'.size, hcount, h'.vec⟩
  · rw [if_neg hword, if_neg hword]
    refine (fillRange_related _ h₁).bind fun w₂ bv₂ h₂ => ?_
    refine (updateWord_or h₂ _ _).bind fun w₃ bv₃ h₃ => ?_
    exact (updateWord_or h₃ _ _).bind fun w' bv' h' => .ok ⟨h'.size, hcount, h'.vec⟩

end Related

end WordVector

end ColumnDb
