import ColumnDb.Store.Column

/-!
Bit vectors and the positions they stand for (`bit_vector.c`, `helper_updates.c`).

* `BitVector` is `bv_t`: its size, its count, and at least as many words of 32 bits as the size
  takes, which is a field; `cpy_bv` shrinks the size and keeps the words. `BitVector.bit` is the
  bit of a position.
* `markBv_ok`, `markBv_bounds`: marking one position sets its bit, and fails outside the
  words.
* `markBvByRange_ok`: marking a range sets exactly its bits when the range does not end with
  a word; when it does, the shift that builds the mask is by the width of the word
  (`markBvByRange_undefined`).
* `getPosFromVar_bv`: the positions read off a bit vector are strictly increasing and inside
  it.
-/

namespace ColumnDb

/-! ### The functions of the source -/

/-- `bv_t`. -/
structure BitVector where
  size : ℕ
  count : ℕ
  vec : List (BitVec 32)
  length_vec : getCeil size 32 ≤ vec.length
  deriving DecidableEq

/-- `create_bv`. -/
def createBv (size : ℕ) : BitVector where
  size := size
  count := 0
  vec := List.replicate (getCeil size 32) 0
  length_vec := List.length_replicate.ge

namespace BitVector

/-- The bit at a position; there are none outside the words. -/
def bit (bv : BitVector) (index : ℕ) : Bool := (bv.vec.getD (index / 32) 0).getLsbD (index % 32)

/-- `bv->vec[i] |= mask`. -/
def orWord (bv : BitVector) (i : ℕ) (mask : BitVec 32) : Outcome BitVector :=
  if h : i < bv.vec.length then
    .ok
      { bv with
        vec := bv.vec.set i (bv.vec[i] ||| mask)
        length_vec := by rw [List.length_set]; exact bv.length_vec }
  else .error .bounds

/-- `1 << n`: a shift by the width of the word or more is undefined. -/
def shiftOne (n : ℕ) : Outcome (BitVec 32) := if n < 32 then .ok (1#32 <<< n) else .error .undefined

end BitVector

/-- `is_marked`. -/
def isMarked (bv : BitVector) (index : ℕ) : Outcome Bool := do
  let val ← fetch .bounds bv.vec (index / 32)
  .ok (val.getLsbD (index % 32))

/-- `mark_bv`. -/
def markBv (bv : BitVector) (index : ℕ) : Outcome BitVector := do
  let mask ← BitVector.shiftOne (index % 32)
  let bv ← bv.orWord (index / 32) mask
  .ok { bv with count := bv.count + 1 }

/-- `mark_all_bv`: every word of the size is filled, also the bits after the size. -/
def markAllBv (bv : BitVector) : BitVector where
  size := bv.size
  count := bv.size
  vec := List.replicate (getCeil bv.size 32) 0xffffffff#32 ++ bv.vec.drop (getCeil bv.size 32)
  length_vec := by simp

/-- `unmark_all_bv`. -/
def unmarkAllBv (bv : BitVector) : BitVector where
  size := bv.size
  count := 0
  vec := List.replicate (getCeil bv.size 32) 0 ++ bv.vec.drop (getCeil bv.size 32)
  length_vec := by simp

/-- `cpy_bv`: the words are copied over those of the destination, which has to have room. -/
def cpyBv (des src : BitVector) : Outcome BitVector :=
  if h : getCeil src.size 32 ≤ des.vec.length then
    .ok
      { size := src.size
        count := src.count
        vec := splice des.vec 0 (src.vec.take (getCeil src.size 32))
        length_vec := by
          have := src.length_vec
          rw [length_splice (by rw [List.length_take]; omega)]
          exact h }
  else .error .bounds

/-- `mark_bv_by_range`: everything is unmarked first. -/
def markBvByRange (bv : BitVector) (low high : ℕ) : Outcome BitVector := do
  let bv := unmarkAllBv bv
  let maskLow := (← BitVector.shiftOne (low % 32)) - 1
  let maskHigh := (← BitVector.shiftOne (high % 32 + 1)) - 1
  let bv ←
    if low / 32 = high / 32 then bv.orWord (low / 32) (maskHigh - maskLow)
    else do
      let bv ← (List.range' (low / 32 + 1) (high / 32 - (low / 32 + 1))).foldlM
        (fun bv i => bv.orWord i 0xffffffff#32) bv
      let bv ← bv.orWord (low / 32) (0xffffffff#32 - maskLow)
      bv.orWord (high / 32) maskHigh
  .ok { bv with count := sub32 (high + 1) low }

/-- The result a client keeps of a select (`variable_t`): row ids, or a bit vector. -/
inductive Variable where
  | ids (ids : List ℕ)
  | bv (bv : BitVector)

/-- A turn of the loop of `get_pos_from_var`. The array of positions has the room that the
count of the bit vector announces. -/
def getPosTurn (bv : BitVector) (pos : List ℕ) (u : ℕ) : Outcome (List ℕ) := do
  if ← isMarked bv u then
    if pos.length < bv.count then .ok (pos ++ [u]) else .error .bounds
  else .ok pos

/-- `get_pos_from_var`. -/
def getPosFromVar : Variable → Outcome (List ℕ)
  | .ids ids => .ok ids
  | .bv bv => do
      let pos ← (List.range bv.size).foldlM (getPosTurn bv) []
      if pos.length = bv.count then .ok pos else .error .assertion

/-! ### What the marks do to the bits -/

/-- The difference of two powers of two has the bits from the one exponent to the other. -/
lemma testBit_two_pow_sub_two_pow {l h : ℕ} (hlh : l ≤ h) (j : ℕ) :
    (2 ^ h - 2 ^ l).testBit j = decide (l ≤ j ∧ j < h) := by
  have hpow : 2 ^ h - 2 ^ l = (2 ^ (h - l) - 1) <<< l := by
    rw [Nat.shiftLeft_eq, Nat.sub_mul, ← pow_add, Nat.sub_add_cancel hlh, Nat.one_mul]
  rw [hpow, Nat.testBit_shiftLeft, Nat.testBit_two_pow_sub_one, ← Bool.decide_and,
    decide_eq_decide]
  omega

namespace BitVector

@[simp] lemma bit_createBv (size index : ℕ) : (createBv size).bit index = false := by
  rw [bit, createBv, List.getD_eq_getElem?_getD, List.getElem?_replicate]
  split <;> simp

/-- A vector with the words of its size only. -/
def Exact (bv : BitVector) : Prop := bv.vec.length = getCeil bv.size 32

lemma exact_createBv (size : ℕ) : (createBv size).Exact := List.length_replicate

lemma bit_unmarkAllBv {bv : BitVector} (h : bv.Exact) (index : ℕ) :
    (unmarkAllBv bv).bit index = false := by
  have hvec : (unmarkAllBv bv).vec = (createBv bv.size).vec := by
    simp only [unmarkAllBv, createBv, List.drop_eq_nil_of_le (Nat.le_of_eq h), List.append_nil]
  rw [bit, hvec]
  exact bit_createBv bv.size index

/-- A position of the column has its word. -/
lemma div_lt_length {bv : BitVector} {index : ℕ} (h : index < bv.size) :
    index / 32 < bv.vec.length := by
  refine lt_of_lt_of_le ?_ bv.length_vec
  rw [lt_getCeil_iff (by omega)]
  omega

/-- A word in reach takes the mask, and the other words stay as they were. -/
lemma orWord_ok {bv : BitVector} {i : ℕ} (h : i < bv.vec.length) (mask : BitVec 32) :
    ∃ bv', bv.orWord i mask = .ok bv' ∧ bv'.size = bv.size ∧ bv'.count = bv.count ∧
      ∀ j, bv'.bit j = (bv.bit j || decide (j / 32 = i) && mask.getLsbD (j % 32)) := by
  refine ⟨_, dif_pos h, rfl, rfl, fun j => ?_⟩
  by_cases hj : j / 32 = i
  · subst hj
    simp [bit, h]
  · simp [bit, List.getElem?_set_ne (Ne.symm hj), hj]

lemma length_orWord {bv bv' : BitVector} {i : ℕ} {mask : BitVec 32}
    (h : bv.orWord i mask = .ok bv') : bv'.vec.length = bv.vec.length := by
  rw [orWord] at h
  split_ifs at h
  cases h
  exact List.length_set

lemma orWord_bounds {bv : BitVector} {i : ℕ} (h : bv.vec.length ≤ i) (mask : BitVec 32) :
    bv.orWord i mask = .error .bounds := dif_neg (by omega)

lemma shiftOne_of_lt {n : ℕ} (h : n < 32) : shiftOne n = .ok (1#32 <<< n) := if_pos h

lemma toNat_shiftOne_sub_one {n : ℕ} (h : n < 32) :
    (1#32 <<< n - 1).toNat = 2 ^ n - 1 := by
  have hpow : 2 ^ n < 2 ^ 32 := Nat.pow_lt_pow_right (by omega) h
  have hpos : 0 < 2 ^ n := Nat.two_pow_pos n
  have hone : (1 : BitVec 32).toNat = 1 := rfl
  rw [BitVec.toNat_sub, BitVec.toNat_shiftLeft, Nat.shiftLeft_eq, BitVec.toNat_one (by omega),
    Nat.one_mul, Nat.mod_eq_of_lt hpow, hone]
  omega

/-- The mask of the bits below `n`. -/
lemma getLsbD_shiftOne_sub_one {n : ℕ} (h : n < 32) (j : ℕ) :
    (1#32 <<< n - 1).getLsbD j = decide (j < n) := by
  rw [BitVec.getLsbD, toNat_shiftOne_sub_one h, Nat.testBit_two_pow_sub_one]

/-- The mask between two offsets of a word. -/
lemma getLsbD_mask_sub {l h : ℕ} (hlh : l ≤ h) (hh : h < 32) (j : ℕ) :
    ((1#32 <<< h - 1) - (1#32 <<< l - 1)).getLsbD j
      = decide (l ≤ j ∧ j < h) := by
  have hle : 2 ^ l ≤ 2 ^ h := Nat.pow_le_pow_right (by omega) hlh
  have hpos : 0 < 2 ^ l := Nat.two_pow_pos l
  have hpow : 2 ^ h < 2 ^ 32 := Nat.pow_lt_pow_right (by omega) hh
  rw [BitVec.getLsbD, BitVec.toNat_sub, toNat_shiftOne_sub_one hh,
    toNat_shiftOne_sub_one (by omega), ← testBit_two_pow_sub_two_pow hlh]
  congr 1
  omega

/-- The mask from an offset to the end of the word. -/
lemma getLsbD_ones_sub {l j : ℕ} (hl : l < 32) (hj : j < 32) :
    (0xffffffff#32 - (1#32 <<< l - 1)).getLsbD j = decide (l ≤ j) := by
  have hpos : 0 < 2 ^ l := Nat.two_pow_pos l
  have hpow : 2 ^ l < 2 ^ 32 := Nat.pow_lt_pow_right (by omega) hl
  have htest := testBit_two_pow_sub_two_pow hl.le j
  rw [BitVec.getLsbD, BitVec.toNat_sub, toNat_shiftOne_sub_one hl]
  rw [show (2 ^ 32 - (2 ^ l - 1) + (0xffffffff#32).toNat) % 2 ^ 32 = 2 ^ 32 - 2 ^ l by
    rw [show (0xffffffff#32).toNat = 2 ^ 32 - 1 from rfl]
    omega, htest, decide_eq_decide]
  omega

end BitVector

/-- Marking a position whose word exists sets its bit and counts it. -/
lemma markBv_ok {bv : BitVector} {index : ℕ} (h : index / 32 < bv.vec.length) :
    ∃ bv', markBv bv index = .ok bv' ∧ bv'.size = bv.size ∧ bv'.count = bv.count + 1 ∧
      ∀ j, bv'.bit j = (bv.bit j || decide (j = index)) := by
  obtain ⟨bv', hok, hsize, hcount, hbit⟩ := BitVector.orWord_ok h (1#32 <<< (index % 32))
  refine ⟨{ bv' with count := bv'.count + 1 }, ?_, hsize, by simp [hcount], fun j => ?_⟩
  · rw [markBv, BitVector.shiftOne_of_lt (by omega), Outcome.ok_bind, hok, Outcome.ok_bind]
  · refine (hbit j).trans ?_
    have hlsb : (1#32 <<< (index % 32)).getLsbD (j % 32)
        = decide (j % 32 = index % 32) := by
      have := Nat.mod_lt j (show 0 < 32 by omega)
      rw [← BitVec.twoPow_eq, BitVec.getLsbD_twoPow]
      rw [decide_eq_true (by omega), Bool.true_and, decide_eq_decide]
      exact eq_comm
    rw [hlsb, ← Bool.decide_and]
    congr 2
    rw [eq_iff_iff]
    omega

/-- Marking a position past the words writes outside the vector. -/
lemma markBv_bounds {bv : BitVector} {index : ℕ} (h : bv.vec.length ≤ index / 32) :
    markBv bv index = .error .bounds := by
  rw [markBv, BitVector.shiftOne_of_lt (by omega), Outcome.ok_bind, BitVector.orWord_bounds h]
  rfl

/-- Two marks are set in either order. -/
lemma markBv_comm (bv : BitVector) (i j : ℕ) :
    (markBv bv i >>= fun bv => markBv bv j) = markBv bv j >>= fun bv => markBv bv i := by
  have hi : i % 32 < 32 := Nat.mod_lt _ (by omega)
  have hj : j % 32 < 32 := Nat.mod_lt _ (by omega)
  simp only [markBv, BitVector.shiftOne_of_lt hi, BitVector.shiftOne_of_lt hj, Outcome.ok_bind,
    BitVector.orWord]
  by_cases hib : i / 32 < bv.vec.length <;> by_cases hjb : j / 32 < bv.vec.length <;>
    simp only [hib, hjb, dif_pos, dif_neg, not_false_eq_true, Outcome.ok_bind, Outcome.error_bind,
      List.length_set]
  congr 2
  refine List.ext_getElem (by simp only [List.length_set]) fun w _ _ => ?_
  simp only [List.getElem_set]
  by_cases hij : i / 32 = j / 32
  · simp only [hij, if_true]
    split_ifs
    · rw [BitVec.or_assoc, BitVec.or_assoc, BitVec.or_comm (1#32 <<< (i % 32))]
    · rfl
  · simp only [hij, Ne.symm hij, if_false]
    split_ifs with hwj hwi
    · exact absurd (hwi.trans hwj.symm) hij
    all_goals rfl

/-- The mask of all bits. -/
lemma getLsbD_ones (j : ℕ) : (0xffffffff#32).getLsbD (j % 32) = true := by
  have := Nat.mod_lt j (show 0 < 32 by omega)
  rw [show 0xffffffff#32 = BitVec.allOnes 32 from rfl, BitVec.getLsbD_allOnes]
  simpa using this

/-- The words strictly inside a range are filled. -/
lemma fillWords_ok (n : ℕ) : ∀ (bv : BitVector) (i : ℕ), i + n ≤ bv.vec.length →
    ∃ bv', (List.range' i n).foldlM (fun bv i => bv.orWord i 0xffffffff#32) bv = .ok bv' ∧
      bv'.size = bv.size ∧ bv'.count = bv.count ∧
      ∀ j, bv'.bit j = (bv.bit j || decide (i ≤ j / 32 ∧ j / 32 < i + n)) := by
  induction n with
  | zero =>
      intro bv i _
      refine ⟨bv, rfl, rfl, rfl, fun j => ?_⟩
      rw [decide_eq_false (by omega), Bool.or_false]
  | succ n ih =>
      intro bv i h
      obtain ⟨bv₁, hok₁, hsize₁, hcount₁, hbit₁⟩ :=
        BitVector.orWord_ok (show i < bv.vec.length by omega) 0xffffffff#32
      have hlen : i + 1 + n ≤ bv₁.vec.length := by
        rw [BitVector.length_orWord hok₁]
        omega
      obtain ⟨bv₂, hok₂, hsize₂, hcount₂, hbit₂⟩ := ih bv₁ (i + 1) hlen
      refine ⟨bv₂, ?_, hsize₂.trans hsize₁, hcount₂.trans hcount₁, fun j => ?_⟩
      · rw [List.range'_succ, List.foldlM_cons, hok₁, Outcome.ok_bind]
        exact hok₂
      · rw [hbit₂, hbit₁, getLsbD_ones, Bool.and_true, Bool.or_assoc, ← Bool.decide_or]
        congr 2
        rw [eq_iff_iff]
        omega

lemma length_fillWords {is : List ℕ} {mask : BitVec 32} {bv bv' : BitVector}
    (h : is.foldlM (fun bv i => bv.orWord i mask) bv = .ok bv') :
    bv'.vec.length = bv.vec.length :=
  foldlM_inv (P := fun b : BitVector => b.vec.length = bv.vec.length)
    (fun _ _ _ hb hok => (BitVector.length_orWord hok).trans hb) is bv bv' rfl h

/-- Marking by range unmarks everything and sets the bits of the range, when this does not end
with a word. -/
lemma markBvByRange_bits {bv : BitVector} {low high : ℕ} (hle : low ≤ high + 1)
    (hhigh : high < bv.size) (hword : (high + 1) % 32 ≠ 0) :
    ∃ bv', markBvByRange bv low high = .ok bv' ∧ bv'.size = bv.size ∧
      bv'.count = high + 1 - low ∧
      ∀ j, bv'.bit j = ((unmarkAllBv bv).bit j || decide (low ≤ j ∧ j ≤ high)) := by
  have hlen : high / 32 < (unmarkAllBv bv).vec.length :=
    BitVector.div_lt_length (show high < (unmarkAllBv bv).size from hhigh)
  have hl : low % 32 < 32 := Nat.mod_lt _ (by omega)
  have hh : high % 32 + 1 < 32 := by omega
  rw [markBvByRange]
  simp only [BitVector.shiftOne_of_lt hl, BitVector.shiftOne_of_lt hh, Outcome.ok_bind,
    sub32_of_le hle]
  split_ifs with hsame
  · obtain ⟨bv', hok, hsize, -, hbit⟩ := BitVector.orWord_ok (hsame ▸ hlen)
      ((1#32 <<< (high % 32 + 1) - 1) - (1#32 <<< (low % 32) - 1))
    refine ⟨{ bv' with count := high + 1 - low }, by rw [hok, Outcome.ok_bind], hsize, rfl,
      fun j => ?_⟩
    refine (hbit j).trans (congrArg _ ?_)
    rw [BitVector.getLsbD_mask_sub (by omega) hh, ← Bool.decide_and, decide_eq_decide]
    omega
  · have hlow : low / 32 < high / 32 := by omega
    obtain ⟨bv₁, hok₁, hsize₁, -, hbit₁⟩ := fillWords_ok (high / 32 - (low / 32 + 1))
      (unmarkAllBv bv) (low / 32 + 1) (by omega)
    have hlen₁ : bv₁.vec.length = (unmarkAllBv bv).vec.length := length_fillWords hok₁
    obtain ⟨bv₂, hok₂, hsize₂, -, hbit₂⟩ := BitVector.orWord_ok
      (show low / 32 < bv₁.vec.length by omega)
      (0xffffffff#32 - (1#32 <<< (low % 32) - 1))
    have hlen₂ : bv₂.vec.length = bv₁.vec.length := BitVector.length_orWord hok₂
    obtain ⟨bv₃, hok₃, hsize₃, -, hbit₃⟩ := BitVector.orWord_ok
      (show high / 32 < bv₂.vec.length by omega) (1#32 <<< (high % 32 + 1) - 1)
    refine ⟨{ bv₃ with count := high + 1 - low }, ?_,
      hsize₃.trans (hsize₂.trans hsize₁), rfl, fun j => ?_⟩
    · simp only [hok₁, hok₂, hok₃, Outcome.ok_bind]
    · refine (hbit₃ j).trans ?_
      have hj : j % 32 < 32 := Nat.mod_lt _ (by omega)
      rw [hbit₂, hbit₁, BitVector.getLsbD_shiftOne_sub_one hh, BitVector.getLsbD_ones_sub hl hj,
        Bool.or_assoc, Bool.or_assoc, ← Bool.decide_and, ← Bool.decide_and, ← Bool.decide_or,
        ← Bool.decide_or]
      congr 2
      rw [eq_iff_iff]
      omega

/-- **Marking by range**: when the range does not end with a word, exactly its bits are set.
An empty range, with `low = high + 1`, marks nothing. -/
theorem markBvByRange_ok {bv : BitVector} {low high : ℕ} (hexact : bv.Exact)
    (hle : low ≤ high + 1) (hhigh : high < bv.size) (hword : (high + 1) % 32 ≠ 0) :
    ∃ bv', markBvByRange bv low high = .ok bv' ∧ bv'.size = bv.size ∧
      bv'.count = high + 1 - low ∧ ∀ j, bv'.bit j = decide (low ≤ j ∧ j ≤ high) := by
  obtain ⟨bv', hok, hsize, hcount, hbit⟩ := markBvByRange_bits hle hhigh hword
  refine ⟨bv', hok, hsize, hcount, fun j => ?_⟩
  rw [hbit, BitVector.bit_unmarkAllBv hexact, Bool.false_or]

/-- A range that ends with a word shifts by the width of the word. -/
lemma markBvByRange_undefined {bv : BitVector} {low high : ℕ} (hword : (high + 1) % 32 = 0) :
    markBvByRange bv low high = .error .undefined := by
  have hl : low % 32 < 32 := Nat.mod_lt _ (by omega)
  have hh : BitVector.shiftOne (high % 32 + 1) = .error .undefined := if_neg (by omega)
  rw [markBvByRange]
  simp only [BitVector.shiftOne_of_lt hl, hh, Outcome.ok_bind, Outcome.error_bind]

/-! ### Vectors that count their marks -/

/-- One position more that has the property. -/
lemma countP_or_eq {p : ℕ → Bool} {n i : ℕ} (hi : i < n) (hp : p i = false) :
    (List.range n).countP (fun j => p j || decide (j = i)) = (List.range n).countP p + 1 := by
  induction n with
  | zero => omega
  | succ n ih =>
      rw [List.range_succ, List.countP_append, List.countP_append, List.countP_singleton,
        List.countP_singleton]
      by_cases hlast : n = i
      · subst hlast
        have hsame : (List.range n).countP (fun j => p j || decide (j = n))
            = (List.range n).countP p := by
          refine List.countP_congr fun j hj => ?_
          have hj := List.mem_range.mp hj
          simp [hj.ne]
        rw [hsame, hp]
        simp
      · rw [ih (by omega), decide_eq_false hlast, Bool.or_false]
        omega

namespace BitVector

/-- The count of a vector is the number of its marks. -/
def Counted (bv : BitVector) : Prop := bv.count = (List.range bv.size).countP bv.bit

lemma counted_createBv (size : ℕ) : (createBv size).Counted := by
  have hnone : (List.range size).countP (createBv size).bit = 0 := by simp
  exact hnone.symm

/-- Marking a position that was not marked. -/
lemma Counted.mark {bv bv' : BitVector} {i : ℕ} (h : bv.Counted) (hi : i < bv.size)
    (hbit : bv.bit i = false) (hmark : markBv bv i = .ok bv') : bv'.Counted := by
  obtain ⟨bv₁, hok, hsize, hcount, hbits⟩ := markBv_ok (div_lt_length hi)
  rw [hmark] at hok
  cases hok
  have hfun : bv'.bit = fun j => bv.bit j || decide (j = i) := funext hbits
  rw [Counted, hcount, hsize, hfun, countP_or_eq hi hbit, h]

/-- Marking different positions, none of which was marked. -/
lemma Counted.foldlM_mark (ids : List ℕ) : ∀ {bv bv' : BitVector}, bv.Counted → ids.Nodup →
    (∀ i ∈ ids, i < bv.size ∧ bv.bit i = false) → ids.foldlM markBv bv = .ok bv' →
    bv'.Counted := by
  induction ids with
  | nil =>
      intro bv bv' h _ _ hfold
      cases hfold
      exact h
  | cons i ids ih =>
      intro bv bv' h hnodup hfree hfold
      rw [List.foldlM_cons] at hfold
      obtain ⟨bv₁, hmark, hfold⟩ := Outcome.bind_eq_ok.mp hfold
      obtain ⟨hnot, hnodup'⟩ := List.nodup_cons.mp hnodup
      obtain ⟨hi, hbit⟩ := hfree i List.mem_cons_self
      obtain ⟨bv₂, hok, hsize, -, hbits⟩ := markBv_ok (div_lt_length hi)
      rw [hmark] at hok
      cases hok
      refine ih (h.mark hi hbit hmark) hnodup' (fun j hj => ?_) hfold
      obtain ⟨hlt, hfalse⟩ := hfree j (List.mem_cons_of_mem _ hj)
      have hne : j ≠ i := fun heq => hnot (heq ▸ hj)
      exact ⟨hsize ▸ hlt, by rw [hbits, hfalse, decide_eq_false hne, Bool.or_false]⟩

/-- Every bit in the words of the size is marked, also those past the size. -/
lemma bit_markAllBv {bv : BitVector} {index : ℕ} (h : index / 32 < getCeil bv.size 32) :
    (markAllBv bv).bit index = true := by
  rw [bit, markAllBv, List.getD_eq_getElem?_getD]
  simp only
  rw [List.getElem?_append_left (by rwa [List.length_replicate]), List.getElem?_replicate,
    if_pos h, Option.getD_some, getLsbD_ones]

lemma counted_markAllBv (bv : BitVector) : (markAllBv bv).Counted := by
  have hall : (List.range bv.size).countP (markAllBv bv).bit = bv.size := by
    refine (List.countP_eq_length.mpr fun j hj => bit_markAllBv ?_).trans List.length_range
    rw [lt_getCeil_iff (by omega)]
    have := List.mem_range.mp hj
    omega
  exact hall.symm

/-- A copy has the marks below its size. -/
lemma bit_cpyBv {des src bv : BitVector} (hcpy : cpyBv des src = .ok bv) {j : ℕ}
    (hj : j < src.size) : bv.bit j = src.bit j := by
  rw [cpyBv] at hcpy
  split_ifs at hcpy
  cases hcpy
  have hword : j / 32 < getCeil src.size 32 := by
    rw [lt_getCeil_iff (by omega)]
    omega
  have hlen := src.length_vec
  rw [bit, bit, List.getD_eq_getElem?_getD, List.getD_eq_getElem?_getD]
  simp only
  rw [getElem?_splice_zero, if_pos (by rw [List.length_take]; omega),
    List.getElem?_take_of_lt hword]

/-- A copy has the count, and the marks below its size. -/
lemma Counted.cpy {des src bv : BitVector} (h : src.Counted) (hcpy : cpyBv des src = .ok bv) :
    bv.Counted := by
  have hbit : ∀ j < src.size, bv.bit j = src.bit j := fun j hj => bit_cpyBv hcpy hj
  rw [cpyBv] at hcpy
  split_ifs at hcpy
  cases hcpy
  refine h.trans (List.countP_congr fun j hj => ?_)
  rw [hbit j (List.mem_range.mp hj)]

/-- A range that is marked as a whole. -/
lemma counted_of_range {bv : BitVector} {low high : ℕ} (hle : low ≤ high + 1)
    (hhigh : high < bv.size) (hcount : bv.count = high + 1 - low)
    (hbit : ∀ j, bv.bit j = decide (low ≤ j ∧ j ≤ high)) : bv.Counted := by
  have hrange : ∀ n, (List.range n).countP (fun j => decide (low ≤ j ∧ j ≤ high))
      = min n (high + 1) - low := by
    intro n
    induction n with
    | zero => simp
    | succ n ih =>
        rw [List.range_succ, List.countP_append, List.countP_singleton, ih]
        split_ifs with hn
        · have := of_decide_eq_true hn
          omega
        · have := of_decide_eq_false (Bool.eq_false_iff.mpr hn)
          omega
  rw [Counted, hcount, funext hbit, hrange, min_eq_right (by omega)]

end BitVector

/-! ### Reading the positions off -/

/-- The bit of a position whose word exists. -/
lemma isMarked_of_div_lt {bv : BitVector} {index : ℕ} (h : index / 32 < bv.vec.length) :
    isMarked bv index = .ok (bv.bit index) := by
  rw [isMarked, fetch_of_lt h, Outcome.ok_bind, BitVector.bit, List.getD_eq_getElem?_getD,
    List.getElem?_eq_getElem h, Option.getD_some]

/-- There is no bit past the words. -/
lemma isMarked_bounds {bv : BitVector} {index : ℕ} (h : bv.vec.length ≤ index / 32) :
    isMarked bv index = .error .bounds := by
  rw [isMarked, fetch, List.getElem?_eq_none h]
  rfl

lemma isMarked_of_lt {bv : BitVector} {index : ℕ} (h : index < bv.size) :
    isMarked bv index = .ok (bv.bit index) :=
  isMarked_of_div_lt (BitVector.div_lt_length h)

/-- **A loop that collects at the marks**, with room for the count of the vector: it returns exactly
when every index has a word and the marks are no more than the count. -/
theorem collect_foldlM_iff {α γ : Type} {bv : BitVector} (index : α → ℕ) (put : α → γ)
    {turn : List γ → α → Outcome (List γ)}
    (hturn : ∀ result x, turn result x = isMarked bv (index x) >>= fun marked =>
      if marked then
        if result.length < bv.count then .ok (result ++ [put x]) else .error .bounds
      else .ok result) (xs : List α) : ∀ result vals : List γ, result.length ≤ bv.count →
    (xs.foldlM turn result = .ok vals ↔
      (∀ x ∈ xs, index x / 32 < bv.vec.length) ∧ vals.length ≤ bv.count ∧
        vals = result ++ (xs.filter fun x => bv.bit (index x)).map put) := by
  induction xs with
  | nil =>
      intro result vals hroom
      rw [List.filter_nil, List.map_nil, List.append_nil]
      constructor
      · intro h
        cases h
        exact ⟨fun _ hx => absurd hx List.not_mem_nil, hroom, rfl⟩
      · rintro ⟨-, -, rfl⟩
        rfl
  | cons x xs ih =>
      intro result vals hroom
      rw [List.foldlM_cons, hturn, List.forall_mem_cons]
      by_cases hword : index x / 32 < bv.vec.length
      · rw [isMarked_of_div_lt hword, Outcome.ok_bind]
        cases hbit : bv.bit (index x) with
        | false =>
            rw [if_neg Bool.false_ne_true, Outcome.ok_bind, ih result vals hroom,
              List.filter_cons_of_neg (by rw [hbit]; exact Bool.false_ne_true)]
            simp [hword]
        | true =>
            rw [if_pos rfl, List.filter_cons_of_pos (by rw [hbit]), List.map_cons]
            by_cases hlt : result.length < bv.count
            · rw [if_pos hlt, Outcome.ok_bind,
                ih (result ++ [put x]) vals (by rw [List.length_append]; exact hlt),
                List.append_assoc, List.singleton_append]
              simp [hword]
            · rw [if_neg hlt, Outcome.error_bind]
              refine iff_of_false nofun ?_
              rintro ⟨-, hcount, rfl⟩
              rw [List.length_append, List.length_cons] at hcount
              omega
      · rw [isMarked_bounds (by omega), Outcome.error_bind, Outcome.error_bind]
        exact iff_of_false nofun fun h => hword h.1.1

/-- The loop collects the marked positions in order. -/
lemma getPosTurn_foldlM {bv : BitVector} {n : ℕ} {pos : List ℕ}
    (h : (List.range n).foldlM (getPosTurn bv) [] = .ok pos) :
    pos = (List.range n).filter bv.bit := by
  have hcollect := ((collect_foldlM_iff id id (fun _ _ => rfl) _ [] pos (Nat.zero_le _)).mp h).2.2
  simpa using hcollect

/-- The positions read off a bit vector are its marked positions, strictly increasing. -/
lemma getPosFromVar_bv {bv : BitVector} {pos : List ℕ} (h : getPosFromVar (.bv bv) = .ok pos) :
    pos = (List.range bv.size).filter bv.bit ∧ pos.Pairwise (· < ·) := by
  obtain ⟨pos', hfold, hcount⟩ := Outcome.bind_eq_ok.mp h
  have hpos := getPosTurn_foldlM hfold
  split_ifs at hcount
  · cases hcount
    exact ⟨hpos, hpos ▸ List.pairwise_lt_range.filter _⟩

end ColumnDb
