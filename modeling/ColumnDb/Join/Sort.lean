import ColumnDb.Join.Loop
import ColumnDb.Library.Sorted
import ColumnDb.Store.Column
import Mathlib.Data.List.TakeWhile

/-!
The sort join (`helper_join.c`).

Two cursors move over the two sides. On equal values the right side is scanned up and down
from the cursor (`upLoop`, `downLoop`), the right cursor goes to the last equal value and the
left cursor moves on. The scan up starts at the index before the cursor, which wraps at `0`.

* `Materialized`: a side of a join, with the bound that its allocation gives.
* `upLoop_eq`, `downLoop_eq`: what the two scans append; together with the cursor they find
  all equal values (`group_perm`).
* `sortJoin_matches_iff`: on sorted sides the join stays inside the arrays and produces the
  pairs of the nested loop exactly when the first value on the right does not occur on the
  left and there is room for the pairs.
-/

namespace ColumnDb

/-! ### The functions of the source -/

/-- A materialised side: `m_size` values with their rows. The caller allocates `2 * m_size`
integers and counts them in a `uint32_t`. -/
structure Materialized where
  pairs : List (ℤ × ℕ)
  fits : 2 * pairs.length < 2 ^ 32

/-- `m[itr * 2]` and `m[itr * 2 + 1]`, whose index is a `uint32_t`. -/
def pairAt (m : List (ℤ × ℕ)) (itr : ℕ) : Outcome (ℤ × ℕ) := fetch .bounds m (itr % 2 ^ 31)

/-- The loop that checks previous values for duplicates. -/
def upLoop (m1 : List (ℤ × ℕ)) (x : ℤ × ℕ) : ℕ → JoinIds → Outcome JoinIds
  | 0, ids => .ok ids
  | itr + 1, ids => do
      let y ← pairAt m1 (itr + 1)
      if x.1 = y.1 then do
        let ids ← ids.append x.2 y.2
        upLoop m1 x itr ids
      else .ok ids

/-- The loop that checks down. -/
def downLoop (m1 : List (ℤ × ℕ)) (x : ℤ × ℕ) (itr : ℕ) (ids : JoinIds) :
    Outcome (JoinIds × ℕ) :=
  if _h : itr < m1.length then do
    let y ← pairAt m1 itr
    if x.1 = y.1 then do
      let ids ← ids.append x.2 y.2
      downLoop m1 x (itr + 1) ids
    else .ok (ids, itr)
  else .ok (ids, itr)
termination_by m1.length - itr

/-- The loop of `sortjoin`. -/
def sortLoop (m0 m1 : List (ℤ × ℕ)) (i j : ℕ) (ids : JoinIds) : Outcome JoinIds :=
  if _h : i < m0.length ∧ j < m1.length then do
    let x ← pairAt m0 i
    let y ← pairAt m1 j
    if x.1 < y.1 then sortLoop m0 m1 (i + 1) j ids
    else if y.1 < x.1 then sortLoop m0 m1 i (j + 1) ids
    else do
      let ids ← ids.append x.2 y.2
      let ids ← upLoop m1 x (decr32 j) ids
      let (ids, itr) ← downLoop m1 x (j + 1) ids
      sortLoop m0 m1 (i + 1) (decr32 itr) ids
  else .ok ids
termination_by (m0.length - i, m1.length - j)

/-- `sortjoin`. -/
def sortJoin (m0 m1 : List (ℤ × ℕ)) : Outcome JoinIds := sortLoop m0 m1 0 0 JoinIds.empty

/-! ### The scans -/

section Scans

variable {m1 : List (ℤ × ℕ)} (x : ℤ × ℕ)

lemma pairAt_of_lt {m : List (ℤ × ℕ)} (hfits : m.length < 2 ^ 31) {i : ℕ} (h : i < m.length) :
    pairAt m i = .ok m[i] := by
  rw [pairAt, Nat.mod_eq_of_lt (h.trans hfits), fetch_of_lt h]

/-- The rows that a scan over `ys` pairs with that of `x`: up to the first other value. -/
def scanPairs (ys : List (ℤ × ℕ)) : List (ℕ × ℕ) :=
  (ys.takeWhile fun y => x.1 = y.1).map fun y => (x.2, y.2)

/-- The scan up stops before the index `0`, and misses nothing when the value there is
another one. -/
lemma upLoop_eq (hfits : m1.length < 2 ^ 31) (hfirst : ∀ y ∈ m1.head?, x.1 ≠ y.1) (itr : ℕ) :
    ∀ ids, itr < m1.length →
      upLoop m1 x itr ids = ids.extend (scanPairs x (m1.take (itr + 1)).reverse) := by
  induction itr with
  | zero =>
      intro ids h
      cases m1 with
      | nil => simp at h
      | cons y m1 =>
          have hne : x.1 ≠ y.1 := hfirst y (by simp)
          simp [upLoop, scanPairs, hne]
  | succ itr ih =>
      intro ids h
      have hsnoc : (m1.take (itr + 1 + 1)).reverse
          = m1[itr + 1] :: (m1.take (itr + 1)).reverse := by
        rw [List.take_add_one, List.getElem?_eq_getElem h, Option.toList_some,
          List.reverse_append, List.reverse_singleton, List.singleton_append]
      rw [upLoop, pairAt_of_lt hfits h, Outcome.ok_bind, hsnoc, scanPairs]
      split_ifs with hxy
      · rw [List.takeWhile_cons_of_pos (by simpa using hxy), List.map_cons, JoinIds.extend_cons]
        exact congrArg _ (funext fun ids => ih ids (by omega))
      · rw [List.takeWhile_cons_of_neg (by simpa using hxy), List.map_nil, JoinIds.extend_nil]

/-- The scan down ends behind the last equal value. -/
lemma downLoop_eq (hfits : m1.length < 2 ^ 31) (n : ℕ) :
    ∀ itr ids, m1.length - itr = n →
      downLoop m1 x itr ids = ids.extend (scanPairs x (m1.drop itr)) >>= fun ids =>
        .ok (ids, itr + (scanPairs x (m1.drop itr)).length) := by
  induction n with
  | zero =>
      intro itr ids hn
      rw [downLoop, dif_neg (by omega), List.drop_eq_nil_of_le (by omega)]
      rfl
  | succ n ih =>
      intro itr ids hn
      have h : itr < m1.length := by omega
      rw [downLoop, dif_pos h, pairAt_of_lt hfits h, Outcome.ok_bind,
        List.drop_eq_getElem_cons h, scanPairs]
      split_ifs with hxy
      · have hnext : itr + (scanPairs x (m1.drop (itr + 1))).length + 1
            = itr + 1 + (scanPairs x (m1.drop (itr + 1))).length := by omega
        rw [List.takeWhile_cons_of_pos (by simpa using hxy), List.map_cons, JoinIds.extend_cons,
          bind_assoc, List.length_cons, ← Nat.add_assoc]
        refine congrArg _ (funext fun ids => ?_)
        rw [ih _ _ (by omega), ← hnext]
        rfl
      · rw [List.takeWhile_cons_of_neg (by simpa using hxy), List.map_nil, JoinIds.extend_nil]
        rfl

/-- **The group of the cursor**: the cursor and the two scans from it find, in a sorted side,
all rows with the value. -/
theorem group_perm (hs : m1.Pairwise fun a b => a.1 ≤ b.1) {j : ℕ} (hj : j < m1.length)
    (hxj : x.1 = m1[j].1) :
    ((x.2, m1[j].2) :: scanPairs x (m1.take j).reverse ++ scanPairs x (m1.drop (j + 1))).Perm
      ((m1.filter fun y => x.1 = y.1).map fun y => (x.2, y.2)) := by
  have hsplit : m1 = m1.take j ++ m1[j] :: m1.drop (j + 1) := by
    rw [← List.drop_eq_getElem_cons hj, List.take_append_drop]
  have hs' := hs
  rw [hsplit, List.pairwise_append, List.pairwise_cons] at hs'
  obtain ⟨htake, ⟨hge, hdrop⟩, hle⟩ := hs'
  have hup : CutBy (fun y : ℤ × ℕ => x.1 = y.1) (m1.take j).reverse := by
    rw [CutBy, List.pairwise_reverse]
    refine htake.imp_of_mem fun {a b} ha hb hab hxa => ?_
    have := hle b hb m1[j] List.mem_cons_self
    omega
  have hdown : CutBy (fun y : ℤ × ℕ => x.1 = y.1) (m1.drop (j + 1)) := by
    refine hdrop.imp_of_mem fun {a b} ha hb hab hxb => ?_
    have := hge a ha
    omega
  rw [scanPairs, scanPairs, ← hup.filter_eq_takeWhile, ← hdown.filter_eq_takeWhile]
  conv_rhs => rw [hsplit]
  rw [List.filter_append, List.filter_cons_of_pos (by simpa using hxj), List.filter_reverse,
    List.map_append, List.map_cons, List.map_reverse, List.cons_append]
  refine List.Perm.trans ?_ List.perm_middle.symm
  exact ((List.reverse_perm _).append_right _).cons _

end Scans

/-! ### The loop -/

section Loop

variable {m0 m1 : List (ℤ × ℕ)}

/-- Every row before the right cursor whose value is still to come on the left has the value
at the cursor. -/
def CursorInv (m0 m1 : List (ℤ × ℕ)) (i j : ℕ) : Prop :=
  ∀ x ∈ m0.drop i, ∀ y ∈ m1.take j, x.1 = y.1 → ∃ z, m1[j]? = some z ∧ x.1 = z.1

lemma CursorInv.zero (m0 m1 : List (ℤ × ℕ)) (i : ℕ) : CursorInv m0 m1 i 0 := by
  intro x _ y hy
  simp at hy

lemma getElem_mem_drop {m : List (ℤ × ℕ)} {i : ℕ} (hi : i < m.length) : m[i] ∈ m.drop i := by
  rw [List.drop_eq_getElem_cons hi]
  exact List.mem_cons_self

lemma CursorInv.left {i j : ℕ} (hinv : CursorInv m0 m1 i j) (hi : i < m0.length) :
    CursorInv m0 m1 (i + 1) j :=
  fun x hx => hinv x (by rw [List.drop_eq_getElem_cons hi]; exact List.mem_cons_of_mem _ hx)

/-- The left value is below that at the right cursor: it has no match. -/
lemma no_match_of_lt (hs1 : m1.Pairwise fun a b => a.1 ≤ b.1) {i j : ℕ}
    (hinv : CursorInv m0 m1 i j) (hi : i < m0.length) (hj : j < m1.length)
    (hlt : m0[i].1 < m1[j].1) : (m1.filter fun y => decide (m0[i].1 = y.1)) = [] := by
  rw [List.filter_eq_nil_iff]
  intro y hy
  rw [decide_eq_true_eq]
  intro hxy
  rw [← List.take_append_drop j m1, List.mem_append] at hy
  rcases hy with hy | hy
  · obtain ⟨z, hz, hxz⟩ := hinv m0[i] (getElem_mem_drop hi) y hy hxy
    rw [List.getElem?_eq_getElem hj] at hz
    cases hz
    omega
  · rw [List.drop_eq_getElem_cons hj] at hy
    have hsplit := hs1.sublist (List.drop_sublist j m1)
    rw [List.drop_eq_getElem_cons hj, List.pairwise_cons] at hsplit
    rcases List.mem_cons.mp hy with rfl | hy
    · omega
    · have := hsplit.1 y hy
      omega

/-- In a sorted side everything before an index is at most what stands there. -/
lemma le_getElem_of_mem_take (hs1 : m1.Pairwise fun a b => a.1 ≤ b.1) {j : ℕ}
    (hj : j < m1.length) {y : ℤ × ℕ} (hy : y ∈ m1.take (j + 1)) : y.1 ≤ m1[j].1 := by
  rw [List.take_add_one, List.getElem?_eq_getElem hj, Option.toList_some] at hy
  rcases List.mem_append.mp hy with hy | hy
  · have hsplit := hs1
    rw [← List.take_append_drop j m1, List.pairwise_append] at hsplit
    exact hsplit.2.2 y hy _ (getElem_mem_drop hj)
  · rw [List.mem_singleton.mp hy]

/-- In a sorted side everything from an index on is at least what stands there. -/
lemma getElem_le_of_mem_drop (hs0 : m0.Pairwise fun a b => a.1 ≤ b.1) {i : ℕ}
    (hi : i < m0.length) {x : ℤ × ℕ} (hx : x ∈ m0.drop i) : m0[i].1 ≤ x.1 := by
  have hsplit := hs0.sublist (List.drop_sublist i m0)
  rw [List.drop_eq_getElem_cons hi] at hsplit hx
  rcases List.mem_cons.mp hx with rfl | hx
  · exact le_rfl
  · exact (List.pairwise_cons.mp hsplit).1 x hx

/-- The right value is below that at the left cursor: it has no match any more. -/
lemma CursorInv.right (hs0 : m0.Pairwise fun a b => a.1 ≤ b.1)
    (hs1 : m1.Pairwise fun a b => a.1 ≤ b.1) {i j : ℕ} (hi : i < m0.length) (hj : j < m1.length)
    (hlt : m1[j].1 < m0[i].1) : CursorInv m0 m1 i (j + 1) := by
  intro x hx y hy hxy
  have hle := le_getElem_of_mem_take hs1 hj hy
  have hge := getElem_le_of_mem_drop hs0 hi hx
  omega

/-- After a match the right cursor stands at the last row of its group. -/
lemma CursorInv.match (hs0 : m0.Pairwise fun a b => a.1 ≤ b.1)
    (hs1 : m1.Pairwise fun a b => a.1 ≤ b.1) {i j : ℕ} (hi : i < m0.length) (hj : j < m1.length)
    (heq : m0[i].1 = m1[j].1) : CursorInv m0 m1 (i + 1) j := by
  intro x hx y hy hxy
  have hle := le_getElem_of_mem_take hs1 hj
    (by rw [List.take_add_one]; exact List.mem_append_left _ hy)
  have hge := getElem_le_of_mem_drop hs0 hi (x := x)
    (by rw [List.drop_eq_getElem_cons hi]; exact List.mem_cons_of_mem _ hx)
  exact ⟨m1[j], List.getElem?_eq_getElem hj, by omega⟩

/-- The place where the scan down ends still has the value. -/
lemma getElem?_scan_end {x : ℤ × ℕ} {j : ℕ} (hj : j < m1.length) (hxj : x.1 = m1[j].1) :
    ∃ z, m1[j + (scanPairs x (m1.drop (j + 1))).length]? = some z ∧ x.1 = z.1 := by
  rw [scanPairs, List.length_map]
  rcases Nat.eq_zero_or_pos ((m1.drop (j + 1)).takeWhile fun y => decide (x.1 = y.1)).length
    with h0 | hpos
  · exact ⟨m1[j], by rw [h0, Nat.add_zero, List.getElem?_eq_getElem hj], hxj⟩
  · set w := (m1.drop (j + 1)).takeWhile fun y => decide (x.1 = y.1) with hw
    have hlast : w.length - 1 < w.length := by omega
    have hmem : w[w.length - 1] ∈ (m1.drop (j + 1)).takeWhile fun y => decide (x.1 = y.1) :=
      List.getElem_mem hlast
    refine ⟨w[w.length - 1], ?_, by simpa using List.mem_takeWhile_imp hmem⟩
    obtain ⟨t, ht⟩ : w <+: m1.drop (j + 1) := List.takeWhile_prefix _
    have hget : (m1.drop (j + 1))[w.length - 1]? = some w[w.length - 1] := by
      rw [← ht, List.getElem?_append_left hlast, List.getElem?_eq_getElem hlast]
    rw [List.getElem?_drop] at hget
    rw [← hget]
    congr 1
    omega

/-- When a cursor is at its end, no pair is left. -/
lemma CursorInv.joinPairs_eq_nil {i j : ℕ} (hinv : CursorInv m0 m1 i j)
    (hend : ¬ (i < m0.length ∧ j < m1.length)) : joinPairs (m0.drop i) m1 = [] := by
  rw [joinPairs, matching, List.flatMap_eq_nil_iff]
  intro x hx
  rw [List.map_eq_nil_iff, List.filter_eq_nil_iff]
  intro y hy
  rw [decide_eq_true_eq]
  intro hxy
  have hi : i < m0.length := by
    have := List.length_pos_of_mem hx
    rw [List.length_drop] at this
    omega
  have hj : m1.length ≤ j := by omega
  obtain ⟨z, hz, -⟩ := hinv x hx y (by rwa [List.take_of_length_le hj]) hxy
  rw [List.getElem?_eq_none hj] at hz
  cases hz

/-- **The loop**, from cursors that satisfy the invariant, appends the pairs of the rows that
the left cursor has not passed. -/
theorem sortLoop_ok (hfits0 : m0.length < 2 ^ 31) (hfits1 : m1.length < 2 ^ 31)
    (hs0 : m0.Pairwise fun a b => a.1 ≤ b.1) (hs1 : m1.Pairwise fun a b => a.1 ≤ b.1)
    (hfirst : ∀ y ∈ m1.head?, ∀ x ∈ m0, x.1 ≠ y.1) (n : ℕ) :
    ∀ i j, (m0.length - i) + (m1.length - j) = n → CursorInv m0 m1 i j →
      ∃ ps, (∀ ids, sortLoop m0 m1 i j ids = ids.extend ps) ∧
        ps.Perm (joinPairs (m0.drop i) m1) := by
  induction n using Nat.strong_induction_on with
  | _ n ih =>
      intro i j hn hinv
      by_cases hin : i < m0.length ∧ j < m1.length
      · obtain ⟨hi, hj⟩ := hin
        have hdrop : joinPairs (m0.drop i) m1
            = ((m1.filter fun y => decide (m0[i].1 = y.1)).map fun y => (m0[i].2, y.2))
              ++ joinPairs (m0.drop (i + 1)) m1 := by
          rw [List.drop_eq_getElem_cons hi]
          rfl
        have hturn : ∀ ids, sortLoop m0 m1 i j ids =
            if m0[i].1 < m1[j].1 then sortLoop m0 m1 (i + 1) j ids
            else if m1[j].1 < m0[i].1 then sortLoop m0 m1 i (j + 1) ids
            else ids.append m0[i].2 m1[j].2 >>= fun ids => upLoop m1 m0[i] (decr32 j) ids >>=
              fun ids => downLoop m1 m0[i] (j + 1) ids >>= fun s =>
                sortLoop m0 m1 (i + 1) (decr32 s.2) s.1 := fun ids => by
          rw [sortLoop, dif_pos ⟨hi, hj⟩, pairAt_of_lt hfits0 hi, Outcome.ok_bind,
            pairAt_of_lt hfits1 hj, Outcome.ok_bind]
        by_cases hlt : m0[i].1 < m1[j].1
        · obtain ⟨ps, hok, hperm⟩ := ih _ (by omega) (i + 1) j rfl (hinv.left hi)
          refine ⟨ps, fun ids => by rw [hturn, if_pos hlt, hok], ?_⟩
          rwa [hdrop, no_match_of_lt hs1 hinv hi hj hlt]
        by_cases hgt : m1[j].1 < m0[i].1
        · obtain ⟨ps, hok, hperm⟩ := ih _ (by omega) i (j + 1) rfl
            (CursorInv.right hs0 hs1 hi hj hgt)
          exact ⟨ps, fun ids => by rw [hturn, if_neg hlt, if_pos hgt, hok], hperm⟩
        have heq : m0[i].1 = m1[j].1 := by omega
        -- the first value on the right has no match, so the cursor has moved
        have hpos : 0 < j := by
          rcases Nat.eq_zero_or_pos j with rfl | hpos
          · refine absurd heq (hfirst m1[0] ?_ m0[i] (List.getElem_mem hi))
            rw [List.head?_eq_getElem?, List.getElem?_eq_getElem hj]
            rfl
          · exact hpos
        set k := (scanPairs m0[i] (m1.drop (j + 1))).length with hk
        obtain ⟨z, hz, hxz⟩ := getElem?_scan_end hj heq
        rw [← hk] at hz
        obtain ⟨hjk, rfl⟩ := List.getElem?_eq_some_iff.mp hz
        obtain ⟨ps, hok, hperm⟩ := ih _ (by omega) (i + 1) (j + k) rfl
          (CursorInv.match hs0 hs1 hi hjk hxz)
        have hup : ∀ ids, upLoop m1 m0[i] (decr32 j) ids
            = ids.extend (scanPairs m0[i] (m1.take j).reverse) := fun ids => by
          rw [decr32_of_pos hpos, upLoop_eq _ hfits1
            (fun y hy => hfirst y hy _ (List.getElem_mem hi)) _ _ (by omega),
            Nat.sub_add_cancel hpos]
        have hdown : ∀ ids, (downLoop m1 m0[i] (j + 1) ids >>= fun s =>
            sortLoop m0 m1 (i + 1) (decr32 s.2) s.1)
              = ids.extend (scanPairs m0[i] (m1.drop (j + 1)) ++ ps) := fun ids => by
          rw [downLoop_eq _ hfits1 _ _ _ rfl, bind_assoc, JoinIds.extend_append]
          refine congrArg _ (funext fun ids => ?_)
          rw [Outcome.ok_bind, ← hk, decr32_of_pos (by omega),
            show j + 1 + k - 1 = j + k by omega, hok]
        refine ⟨((m0[i].2, m1[j].2) :: scanPairs m0[i] (m1.take j).reverse
            ++ scanPairs m0[i] (m1.drop (j + 1))) ++ ps, fun ids => ?_, ?_⟩
        · rw [hturn, if_neg hlt, if_neg hgt, List.append_assoc, List.cons_append,
            JoinIds.extend_cons]
          refine congrArg _ (funext fun ids => ?_)
          rw [hup, JoinIds.extend_append]
          exact congrArg _ (funext hdown)
        · rw [hdrop]
          exact (group_perm m0[i] hs1 hj heq).append hperm
      · refine ⟨[], fun ids => by rw [sortLoop, dif_neg hin, JoinIds.extend_nil], ?_⟩
        rw [hinv.joinPairs_eq_nil hin]

/-- When the first value on the right occurs on the left, the scan up starts from the index
that the decrement of `0` leaves, outside the array; the lists may have no room before that. -/
lemma sortLoop_bounds (hfits0 : m0.length < 2 ^ 31) (hfits1 : m1.length < 2 ^ 31)
    (hs0 : m0.Pairwise fun a b => a.1 ≤ b.1) {y : ℤ × ℕ} (hy : m1.head? = some y) (n : ℕ) :
    ∀ i ids, m0.length - i = n → (∃ x ∈ m0.drop i, x.1 = y.1) →
      sortLoop m0 m1 i 0 ids = .error .bounds := by
  have hj : 0 < m1.length := by
    cases m1 with
    | nil => cases hy
    | cons z m1 => simp
  have hzero : m1[0] = y := by
    rw [List.head?_eq_getElem?, List.getElem?_eq_getElem hj] at hy
    exact Option.some_inj.mp hy
  induction n with
  | zero =>
      rintro i ids hn ⟨x, hx, -⟩
      have := List.length_pos_of_mem hx
      rw [List.length_drop] at this
      omega
  | succ n ih =>
      rintro i ids hn ⟨x, hx, hxy⟩
      have hi : i < m0.length := by omega
      have hge := getElem_le_of_mem_drop hs0 hi hx
      rw [sortLoop, dif_pos ⟨hi, hj⟩, pairAt_of_lt hfits0 hi, Outcome.ok_bind,
        pairAt_of_lt hfits1 hj, Outcome.ok_bind, hzero]
      split_ifs with hlt hgt
      · refine ih (i + 1) ids (by omega) ⟨x, ?_, hxy⟩
        rw [List.drop_eq_getElem_cons hi] at hx
        refine (List.mem_cons.mp hx).resolve_left ?_
        rintro rfl
        omega
      · omega
      · have hup : ∀ ids, upLoop m1 m0[i] (decr32 0) ids = .error .bounds := fun ids => by
          have hfar : pairAt m1 (2 ^ 32 - 2 + 1) = .error .bounds := by
            rw [pairAt, fetch, List.getElem?_eq_none (by omega)]
          rw [show decr32 0 = 2 ^ 32 - 2 + 1 from rfl, upLoop, hfar, Outcome.error_bind]
        rcases ids.append_ok_or m0[i].2 y.2 with ⟨ids', hok⟩ | herror
        · rw [hok, Outcome.ok_bind, hup, Outcome.error_bind]
        · rw [herror, Outcome.error_bind]

end Loop

/-- **The pairs of a sort join** of sorted sides are those of the nested loop, in some order, when
the first value on the right does not occur on the left. -/
lemma sortJoin_appends {m0 m1 : List (ℤ × ℕ)} (hfits0 : m0.length < 2 ^ 31)
    (hfits1 : m1.length < 2 ^ 31) (hs0 : m0.Pairwise fun a b => a.1 ≤ b.1)
    (hs1 : m1.Pairwise fun a b => a.1 ≤ b.1) (hfirst : ∀ y ∈ m1.head?, ∀ x ∈ m0, x.1 ≠ y.1) :
    JoinAppends (sortJoin m0 m1) m0 m1 := by
  obtain ⟨ps, hok, hperm⟩ := sortLoop_ok hfits0 hfits1 hs0 hs1 hfirst _ 0 0 rfl
    (CursorInv.zero _ _ 0)
  exact ⟨ps, hok _, hperm⟩

/-- The join stays inside the two arrays and its pairs are those of the nested loop, up to
their order. -/
def SortJoinMatches (m0 m1 : Materialized) : Prop :=
  JoinMatches (sortJoin m0.pairs m1.pairs) m0.pairs m1.pairs

/-- **The sort join.** On sorted sides, with any duplicates, it stays inside the arrays and
produces the pairs of the nested loop exactly when the first value on the right does not
occur on the left and the lists have room for the pairs. -/
theorem sortJoin_matches_iff (m0 m1 : Materialized)
    (hs0 : m0.pairs.Pairwise fun a b => a.1 ≤ b.1)
    (hs1 : m1.pairs.Pairwise fun a b => a.1 ≤ b.1) :
    SortJoinMatches m0 m1 ↔ (∀ y ∈ m1.pairs.head?, ∀ x ∈ m0.pairs, x.1 ≠ y.1) ∧
      (joinPairs m0.pairs m1.pairs).length ≤ 2 ^ 29 := by
  have hfits0 : m0.pairs.length < 2 ^ 31 := by have := m0.fits; omega
  have hfits1 : m1.pairs.length < 2 ^ 31 := by have := m1.fits; omega
  have hroom : (∀ y ∈ m1.pairs.head?, ∀ x ∈ m0.pairs, x.1 ≠ y.1) →
      (SortJoinMatches m0 m1 ↔ (joinPairs m0.pairs m1.pairs).length ≤ 2 ^ 29) :=
    fun hfirst => (sortJoin_appends hfits0 hfits1 hs0 hs1 hfirst).matches_iff
  constructor
  · intro hmatches
    have hfirst : ∀ y ∈ m1.pairs.head?, ∀ x ∈ m0.pairs, x.1 ≠ y.1 := by
      intro y hy x hx hxy
      refine hmatches.ne_error .bounds ?_
      exact sortLoop_bounds hfits0 hfits1 hs0 hy _ 0 _ rfl ⟨x, by rwa [List.drop_zero], hxy⟩
    exact ⟨hfirst, (hroom hfirst).mp hmatches⟩
  · rintro ⟨hfirst, hlen⟩
    exact (hroom hfirst).mpr hlen

/-- A side of one row with the value `v`. -/
def oneRow (v : ℤ) : Materialized where
  pairs := [(v, 0)]
  fits := by
    rw [List.length_singleton]
    decide

/-- A side of the values `1, 2, 2`. -/
def threeSorted : Materialized where
  pairs := [(1, 0), (2, 1), (2, 2)]
  fits := by decide

/-- `sortJoin_matches_iff` at a value with duplicates on the right. -/
theorem oneRow_sortJoin_threeSorted : SortJoinMatches (oneRow 2) threeSorted :=
  (sortJoin_matches_iff (oneRow 2) threeSorted (by decide) (by decide)).mpr (by decide)

/-- Two sides of one equal value: the scan up reads outside the array. -/
theorem sortJoin_first_match_out_of_bounds :
    sortJoin (oneRow 7).pairs (oneRow 7).pairs = .error .bounds ∧
    (loopJoin (oneRow 7).pairs (oneRow 7).pairs).map JoinIds.pairs = .ok [(0, 0)] ∧
    ¬ SortJoinMatches (oneRow 7) (oneRow 7) := by
  have hbounds : sortJoin (oneRow 7).pairs (oneRow 7).pairs = .error .bounds :=
    sortLoop_bounds (by decide) (by decide) (by decide) rfl _ 0 _ rfl ⟨(7, 0), by decide, rfl⟩
  exact ⟨hbounds, rfl, fun hmatches => hmatches.ne_error .bounds hbounds⟩

end ColumnDb
