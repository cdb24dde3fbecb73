import Mathlib.Tactic
import Mathlib.Algebra.Order.Floor.Div

/-!
Trees packed layer by layer: the nodes of a layer are taken in groups of `w`, and every group
becomes one node of the next layer.

* `packSize w L k` is the number of nodes of layer `k` over `L` nodes of layer `0`, and
  `packStart w L k` the place of the first of them when the layers stand one behind the other.
* `packStart_cases`, `packStart_inj`: every place belongs to one node of one layer.
* `packGroup w L k i` are the places of the nodes of layer `k` under the node `i` of the layer
  above it. `mem_packGroup`: the node `i` is under `i / w`, and under no other one
  (`packGroup_inj`).
* `dvd_packSize_iff`: every group below layer `h` is full when `L` is a number up to `w` times
  the power `w ^ h`.
-/

namespace ColumnDb

/-- The number of nodes of layer `k`. -/
def packSize (w L : ℕ) : ℕ → ℕ
  | 0 => L
  | k + 1 => packSize w L k ⌈/⌉ w

/-- The place of the first node of layer `k`. -/
def packStart (w L : ℕ) : ℕ → ℕ
  | 0 => 0
  | k + 1 => packStart w L k + packSize w L k

/-- The number of nodes of layer `k` under the node `i` of the layer above it. -/
def packWidth (w L k i : ℕ) : ℕ := min w (packSize w L k - w * i)

/-- The places of the nodes of layer `k` under the node `i` of the layer above it. -/
def packGroup (w L k i : ℕ) : List ℕ :=
  List.range' (packStart w L k + w * i) (packWidth w L k i)

section Packed

variable {w L k k' i i' p : ℕ}

lemma lt_packSize_succ (hw : 0 < w) : i < packSize w L (k + 1) ↔ w * i < packSize w L k := by
  rw [packSize, ← not_le, ceilDiv_le_iff_le_mul hw, not_le]

lemma div_lt_packSize (hw : 0 < w) (hi : i < packSize w L k) : i / w < packSize w L (k + 1) := by
  rw [lt_packSize_succ hw]
  exact (Nat.mul_div_le i w).trans_lt hi

/-- The nodes of layer `k` are those whose first leaf is there. -/
lemma lt_packSize_iff (hw : 0 < w) : i < packSize w L k ↔ w ^ k * i < L := by
  induction k generalizing i with
  | zero => rw [pow_zero, one_mul, packSize]
  | succ k ih => rw [lt_packSize_succ hw, ih, pow_succ, mul_assoc]

lemma packSize_pos (hw : 0 < w) (hL : 0 < L) (k : ℕ) : 0 < packSize w L k := by
  induction k with
  | zero => exact hL
  | succ k ih =>
      rw [lt_packSize_succ hw]
      exact ih

/-- A layer of more than `w` nodes is larger than the next one, and that one has two nodes. -/
lemma packSize_succ_lt (hw : 1 < w) (hk : w < packSize w L k) :
    1 < packSize w L (k + 1) ∧ packSize w L (k + 1) < packSize w L k := by
  have hw0 : 0 < w := by omega
  refine ⟨(lt_packSize_succ hw0).mpr (by omega), lt_of_not_ge fun hge => ?_⟩
  have hlast : w * (packSize w L k - 1) < packSize w L k := (lt_packSize_succ hw0).mp (by omega)
  have hle : 2 * (packSize w L k - 1) ≤ w * (packSize w L k - 1) := Nat.mul_le_mul_right _ hw
  omega

lemma packSize_succ_le (hw : 0 < w) : packSize w L (k + 1) ≤ packSize w L k := by
  refine le_of_not_gt fun hlt => ?_
  have hself := (lt_packSize_succ hw).mp hlt
  have hle : 1 * packSize w L k ≤ w * packSize w L k := Nat.mul_le_mul_right _ hw
  omega

lemma packSize_anti (hw : 0 < w) : Antitone (packSize w L) :=
  antitone_nat_of_succ_le fun _ => packSize_succ_le hw

lemma packStart_mono : Monotone (packStart w L) :=
  monotone_nat_of_le_succ fun _ => Nat.le_add_right _ _

lemma packStart_strictMono (hw : 0 < w) (hL : 0 < L) : StrictMono (packStart w L) :=
  strictMono_nat_of_lt_succ fun k => Nat.lt_add_of_pos_right (packSize_pos hw hL k)

/-- The places of a layer lie before those of a later one. -/
lemma packStart_lt (hk : k < k') (hi : i < packSize w L k) :
    packStart w L k + i < packStart w L k' := by
  have hle : packStart w L (k + 1) ≤ packStart w L k' := packStart_mono hk
  rw [packStart] at hle
  omega

/-- **A place belongs to one layer**, and to one node of it. -/
theorem packStart_inj (hi : i < packSize w L k) (hi' : i' < packSize w L k')
    (h : packStart w L k + i = packStart w L k' + i') : k = k' ∧ i = i' := by
  obtain hlt | rfl | hgt := lt_trichotomy k k'
  · have := packStart_lt hlt hi
    omega
  · exact ⟨rfl, by omega⟩
  · have := packStart_lt hgt hi'
    omega

/-- Every place belongs to a node of a layer. -/
lemma packStart_cases (hp : p < packStart w L k) :
    ∃ j < k, ∃ i < packSize w L j, p = packStart w L j + i := by
  induction k with
  | zero => cases hp
  | succ k ih =>
      rcases Nat.lt_or_ge p (packStart w L k) with hlt | hge
      · obtain ⟨j, hj, i, hi, rfl⟩ := ih hlt
        exact ⟨j, by omega, i, hi, rfl⟩
      · rw [packStart] at hp
        exact ⟨k, Nat.lt_succ_self k, p - packStart w L k, by omega, by omega⟩

/-! ### Groups -/

lemma packWidth_le (w L k i : ℕ) : packWidth w L k i ≤ w := min_le_left _ _

lemma packWidth_pos (hw : 0 < w) (hi : i < packSize w L (k + 1)) : 0 < packWidth w L k i := by
  have := (lt_packSize_succ hw).mp hi
  rw [packWidth]
  omega

lemma getElem?_packGroup {j : ℕ} (hj : j < packWidth w L k i) :
    (packGroup w L k i)[j]? = some (packStart w L k + (w * i + j)) := by
  rw [packGroup, List.getElem?_range' hj, one_mul, Nat.add_assoc]

/-- What stands in a group is a node of the layer. -/
lemma of_getElem?_packGroup {j : ℕ} (h : (packGroup w L k i)[j]? = some p) :
    j < w ∧ w * i + j < packSize w L k ∧ p = packStart w L k + (w * i + j) := by
  have hlt := (List.getElem?_eq_some_iff.mp h).1
  rw [packGroup, List.length_range'] at hlt
  rw [getElem?_packGroup hlt] at h
  rw [packWidth] at hlt
  exact ⟨by omega, by omega, (Option.some_inj.mp h).symm⟩

/-- **The node `i` is under `i / w`.** -/
theorem getElem?_packGroup_div (hw : 0 < w) (hi : i < packSize w L k) :
    (packGroup w L k (i / w))[i % w]? = some (packStart w L k + i) := by
  have hsplit := Nat.div_add_mod i w
  have hmod := Nat.mod_lt i hw
  rw [getElem?_packGroup (by rw [packWidth]; omega), hsplit]

/-- **A node is in one group**, and there once. -/
theorem packGroup_inj {j j' : ℕ} (h : (packGroup w L k i)[j]? = some p)
    (h' : (packGroup w L k' i')[j']? = some p) : k = k' ∧ i = i' ∧ j = j' := by
  obtain ⟨hj, hlt, rfl⟩ := of_getElem?_packGroup h
  obtain ⟨hj', hlt', heq⟩ := of_getElem?_packGroup h'
  obtain ⟨rfl, hidx⟩ := packStart_inj hlt hlt' heq
  have hdiv := congrArg (· / w) hidx
  have hmod := congrArg (· % w) hidx
  simp only [Nat.mul_add_div (show 0 < w by omega), Nat.div_eq_of_lt hj, Nat.div_eq_of_lt hj',
    Nat.mul_add_mod, Nat.mod_eq_of_lt hj, Nat.mod_eq_of_lt hj', Nat.add_zero] at hdiv hmod
  exact ⟨rfl, hdiv, hmod⟩

/-- A layer has full groups only, when the last one is full. -/
lemma dvd_packSize (hw : 0 < w) (hk : 0 < packSize w L k)
    (hlast : packWidth w L k (packSize w L (k + 1) - 1) = w) : w ∣ packSize w L k := by
  have hpos : 0 < packSize w L (k + 1) := (lt_packSize_succ hw).mpr (by omega)
  have hle := mt (lt_packSize_succ hw (i := packSize w L (k + 1))).mpr (lt_irrefl _)
  rw [packWidth] at hlast
  refine ⟨packSize w L (k + 1), ?_⟩
  have hsucc : w * packSize w L (k + 1) = w * (packSize w L (k + 1) - 1) + w := by
    rw [← Nat.mul_succ, Nat.succ_eq_add_one, Nat.sub_add_cancel hpos]
  omega

lemma packWidth_eq (hdvd : w ∣ packSize w L k) (hi : i < packSize w L (k + 1)) (hw : 0 < w) :
    packWidth w L k i = w := by
  obtain ⟨r, hr⟩ := hdvd
  have hlt := (lt_packSize_succ hw).mp hi
  rw [hr] at hlt
  have hir : i + 1 ≤ r := Nat.lt_of_mul_lt_mul_left hlt
  have hle := Nat.mul_le_mul_left w hir
  rw [packWidth, hr]
  rw [Nat.mul_add] at hle
  omega

/-- **Full groups only.** All layers of more than `w` nodes are made of full groups exactly when
`L` is a number up to `w` times a power of `w`. -/
theorem dvd_packSize_iff (hw : 1 < w) {h : ℕ} (hlarge : ∀ k < h, w < packSize w L k)
    (hsmall : packSize w L h ≤ w) :
    (∀ k < h, w ∣ packSize w L k) ↔ ∃ r e, r ≤ w ∧ L = r * w ^ e := by
  have hw0 : 0 < w := by omega
  have hstep : ∀ k, w ∣ packSize w L k → packSize w L k = packSize w L (k + 1) * w := by
    rintro k ⟨r, hr⟩
    rw [packSize, hr, Nat.ceilDiv_eq_add_pred_div, Nat.add_sub_assoc (by omega),
      Nat.mul_add_div hw0, Nat.div_eq_of_lt (show w - 1 < w by omega), Nat.add_zero, Nat.mul_comm]
  constructor
  · intro hdvd
    have hpow : ∀ k ≤ h, L = packSize w L k * w ^ k := by
      intro k hk
      induction k with
      | zero => rw [pow_zero, mul_one, packSize]
      | succ k ih =>
          rw [pow_succ', ← mul_assoc, ← hstep k (hdvd k (by omega))]
          exact ih (by omega)
    exact ⟨packSize w L h, h, hsmall, hpow h le_rfl⟩
  · rintro ⟨r, e, hr, hLr⟩ k hk
    have hpow : ∀ k ≤ e, packSize w L k = r * w ^ (e - k) := by
      intro k hke
      induction k with
      | zero => exact hLr
      | succ k ih =>
          have hk' : packSize w L k = r * w ^ (e - (k + 1)) * w := by
            rw [ih (by omega), mul_assoc, ← pow_succ, show e - (k + 1) + 1 = e - k by omega]
          exact Nat.eq_of_mul_eq_mul_right hw0
            ((hstep k ⟨_, hk'.trans (Nat.mul_comm _ _)⟩).symm.trans hk')
    rcases Nat.lt_or_ge k e with hlt | hge
    · exact ⟨r * w ^ (e - (k + 1)), by
        rw [hpow k hlt.le, mul_left_comm, ← pow_succ', show e - (k + 1) + 1 = e - k by omega]⟩
    · have hle := packSize_anti (L := L) hw0 hge
      rw [hpow e le_rfl, Nat.sub_self, pow_zero, mul_one] at hle
      have := hlarge k hk
      omega

end Packed

end ColumnDb
