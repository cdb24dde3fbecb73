import ColumnDb.Session.Queries
import ColumnDb.Session.SortedSides

/-!
Selections as bit vectors (`bit_vector.c`, `helper_variable.c`, `helper_fetch_command.c`).

* `Selection.Marks`: a bit vector has the rows of a selection as its marks, and none behind them as
  far as the selection reaches.
* `Marks.all`, `Marks.range`, `Marks.copied`: the vectors that a SELECT and a FETCH leave.
* `Marks.fetched`, `Marks.side`, `Marks.positions`, `Marks.tuple`: what is read through them.
-/

namespace ColumnDb

namespace Selection

/-- The marks of a bit vector are the rows of the selection, as far as it reaches. -/
structure Marks (s : Selection) (bv : BitVector) : Prop where
  size : bv.size = s.size
  counted : bv.Counted
  rows : bv.rows = s.rows
  word : s.limit ≤ 32 * bv.vec.length
  tail : ∀ i, s.size ≤ i → i < s.limit → bv.bit i = false

end Selection

/-! ### The vectors of a SELECT -/

/-- The words of a size take no more positions than they have to. -/
lemma le_getCeil32 (n : ℕ) : n ≤ 32 * getCeil n 32 := by
  rw [Nat.mul_comm]
  exact le_getCeil_mul n (by decide)

lemma size_markBv {bv bv' : BitVector} {i : ℕ} (h : markBv bv i = .ok bv') :
    bv'.size = bv.size := by
  rcases Nat.lt_or_ge (i / 32) bv.vec.length with hword | hword
  · obtain ⟨bv'', hok, hsize, -⟩ := markBv_ok hword
    cases h.symm.trans hok
    exact hsize
  · cases h.symm.trans (markBv_bounds hword)

/-- A scan without stale cells in the range leaves a vector of the size, which counts its marks. -/
lemma markMatchingBvForUnsorted_marks {f : DataFile} {low high : ℤ}
    (hstale : ∀ v ∈ scannedStale f, ¬ (low ≤ v ∧ v ≤ high)) :
    ∃ bv, markMatchingBvForUnsorted f (createBv f.m.size) low high
        = .ok (bv, f.stored.countP fun v => low ≤ v ∧ v ≤ high) ∧
      bv.size = f.m.size ∧ bv.Counted ∧
      ∀ i, bv.bit i = true ↔ ∃ v, f.stored[i]? = some v ∧ low ≤ v ∧ v ≤ high := by
  obtain ⟨bv, hmark, hbit⟩ := markMatchingBvForUnsorted_exists hstale
  refine ⟨bv, hmark, ?_, counted_markMatchingBvForUnsorted hstale hmark, hbit⟩
  rw [markMatchingBvForUnsorted_eq, markTurn_foldlM_eq] at hmark
  obtain ⟨bv', hfold, heq⟩ := Outcome.bind_eq_ok.mp hmark
  obtain ⟨rfl, -⟩ := Prod.mk.inj (Except.ok.inj heq)
  exact foldlM_inv (P := fun b : BitVector => b.size = f.m.size)
    (fun _ _ _ hb hok => (size_markBv hok).trans hb) _ _ _ rfl hfold

namespace Selection.Marks

variable {s : Selection} {bv : BitVector}

/-- A vector of a whole column. -/
lemma all (n : ℕ) : Marks ⟨n, n, List.range n⟩ (markAllBv (createBv n)) where
  size := rfl
  counted := BitVector.counted_markAllBv _
  rows := by
    refine List.filter_eq_self.mpr fun i hi => BitVector.bit_markAllBv ?_
    have hlt : i < n := List.mem_range.mp hi
    exact (lt_getCeil_iff (by decide)).mpr (by change i / 32 * 32 < n; omega)
  word := by
    have hlen := (markAllBv (createBv n)).length_vec
    have hle := le_getCeil32 n
    change getCeil n 32 ≤ _ at hlen
    change n ≤ _
    omega
  tail i hi hlt := absurd hlt (by change ¬ i < n; exact Nat.not_lt.mpr hi)

/-- A vector whose bits are the rows in a range. -/
lemma range {a : Attribute} {low high : ℤ} (hsize : bv.size = a.vals.length)
    (hcounted : bv.Counted)
    (hbit : ∀ i, bv.bit i = true ↔ ∃ v, a.vals[i]? = some v ∧ low ≤ v ∧ v ≤ high) :
    Marks ⟨a.vals.length, 32 * getCeil a.vals.length 32, a.inRange low high⟩ bv where
  size := hsize
  counted := hcounted
  rows := by
    rw [BitVector.rows, hsize, Attribute.inRange]
    refine List.filter_congr fun i _ => ?_
    rw [Bool.eq_iff_iff, hbit, decide_eq_true_iff]
    rfl
  word := Nat.mul_le_mul_left 32 (hsize ▸ bv.length_vec)
  tail i hi _ := by
    rw [Bool.eq_false_iff]
    intro h
    obtain ⟨v, hv, -⟩ := (hbit i).mp h
    exact absurd (List.getElem?_eq_some_iff.mp hv).1 (Nat.not_lt.mpr hi)

/-- The words of a copy: those of the source, up to its size, and then those of the destination. -/
lemma vec_cpyBv {des : BitVector} {bv' : BitVector} (h : cpyBv des bv = .ok bv') :
    bv'.size = bv.size ∧ bv'.vec.length = des.vec.length ∧
      ∀ i, bv'.bit i = if i / 32 < getCeil bv.size 32 then bv.bit i else des.bit i := by
  rw [cpyBv] at h
  split_ifs at h with hroom
  cases h
  have hlen : (bv.vec.take (getCeil bv.size 32)).length = getCeil bv.size 32 :=
    List.length_take_of_le bv.length_vec
  refine ⟨rfl, length_splice (by rw [hlen]; omega), fun i => ?_⟩
  rw [BitVector.bit, List.getD_eq_getElem?_getD]
  simp only
  rw [getElem?_splice_zero, hlen]
  split_ifs with hi
  · rw [List.getElem?_take_of_lt hi, BitVector.bit, List.getD_eq_getElem?_getD]
  · rw [BitVector.bit, List.getD_eq_getElem?_getD]

/-- **The vector of a FETCH**, which has the words of the column. -/
lemma copied {n : ℕ} (h : s.Marks bv) (hroom : getCeil s.size 32 ≤ getCeil n 32) :
    ∃ bv', cpyBv (createBv n) bv = .ok bv' ∧ (s.copied n).Marks bv' := by
  have hlen : (createBv n).vec.length = getCeil n 32 := List.length_replicate
  obtain ⟨bv', hok⟩ : ∃ bv', cpyBv (createBv n) bv = .ok bv' :=
    ⟨_, dif_pos (by rw [h.size, hlen]; exact hroom)⟩
  obtain ⟨hsize, hvec, hbit⟩ := vec_cpyBv hok
  rw [hlen] at hvec
  rw [h.size] at hsize hbit
  refine ⟨bv', hok, hsize, h.counted.cpy hok, ?_, ?_, fun i hi hlt => ?_⟩
  · rw [Selection.copied, ← h.rows, BitVector.rows, BitVector.rows, hsize, h.size]
    refine List.filter_congr fun i hi => ?_
    have hlt : i < s.size := List.mem_range.mp hi
    rw [hbit, if_pos ((lt_getCeil_iff (by decide)).mpr (by omega))]
  · rw [Selection.copied, hvec]
    simp only
    split_ifs with hlimit
    · exact le_rfl
    · omega
  · rw [Selection.copied] at hi hlt
    simp only at hi hlt
    rw [hbit]
    split_ifs with hword
    · refine h.tail i hi ?_
      split_ifs at hlt with hlimit
      · omega
      · exact hlt
    · exact BitVector.bit_createBv n i

/-! ### Reading -/

section Reading

variable {f : DataFile} (h : s.Marks bv)
include h

/-- The vector counts the rows. -/
lemma count : bv.count = s.rows.length := by
  rw [← h.rows, bv.length_rows]
  exact h.counted

/-- The positions that are read off the vector. -/
lemma positions : getPosFromVar (.bv bv) = .ok s.rows := by
  have hfold : (List.range bv.size).foldlM (getPosTurn bv) [] = .ok bv.rows := by
    refine (collect_foldlM_iff id id (fun _ _ => rfl) _ [] _ (Nat.zero_le _)).mpr ⟨?_, ?_, ?_⟩
    · exact fun i hi => BitVector.div_lt_length (List.mem_range.mp hi)
    · rw [h.count, h.rows]
    · rw [List.nil_append, List.map_id]
      rfl
  rw [getPosFromVar, hfold, Outcome.ok_bind, if_pos (by rw [h.rows, h.count]), h.rows]

/-- A column that can be read fits the vector. -/
lemma fits (hfull : f.cells.length = f.m.size) (hreads : s.Reads f.m.size) :
    FetchFits f.m.size (scanned f).length bv := by
  have hscanned : (scanned f).length = f.m.size := by
    refine le_antisymm ?_ (length_scanned_le f)
    rw [scanned, List.length_take, ← hfull]
    exact min_le_right _ _
  rw [hscanned]
  refine ⟨h.counted, fun i hi hbit => hreads.1 i ?_, hreads.2.trans h.word, fun i hi hlt => ?_⟩
  · rw [← h.rows]
    exact List.mem_filter.mpr ⟨List.mem_range.mpr hi, hbit⟩
  · exact h.tail i (h.size ▸ hi) (hlt.trans_le hreads.2)

/-- The values in the rows. -/
lemma valuesAt_eq {vals : List ℤ}
    (hvals : bv.rows.map (fun i => f.stored[i]?) = vals.map some) :
    vals = valuesAt s.rows f.stored := by
  have hmap := congrArg (List.filterMap id) hvals
  rw [List.filterMap_map, List.filterMap_map, h.rows] at hmap
  rw [valuesAt]
  refine Eq.trans ?_ hmap.symm
  rw [Function.comp_def]
  exact List.filterMap_some.symm

/-- **A column that is read through the vector** gives the values in the rows. -/
lemma fetched (hfull : f.cells.length = f.m.size) (hreads : s.Reads f.m.size) :
    fetchMatchedFromBv f bv = .ok (valuesAt s.rows f.stored) := by
  have hfits := h.fits hfull hreads
  have hfetch := fetchMatchedFromBv_of_fits hfits
  have hrows : bv.rows.map (fun i => f.stored[i]?)
      = (markedValues bv (scanned f).zipIdx).map some := by
    rw [map_some_markedValues, ← hfits.rows_eq]
    refine List.map_congr_left fun i hi => ?_
    obtain ⟨hlt, hbit⟩ := List.mem_filter.mp hi
    exact (getElem?_scanned (hfits.row i (List.mem_range.mp hlt) hbit)).symm
  rw [hfetch, ← h.valuesAt_eq hrows]

/-- **The marked rows** of a column that can be read are the rows of the selection, each with its
value. -/
lemma markedRows_eq (hreads : s.Reads f.m.size) :
    markedRows f bv = s.rows.map fun i => (f.stored.getD i 0, i) := by
  have hindex : f.stored.zipIdx = (List.range f.m.size).map fun i => (f.stored.getD i 0, i) := by
    refine List.ext_getElem (by simp [f.length_stored]) fun i hi _ => ?_
    rw [List.length_zipIdx] at hi
    rw [List.getElem_zipIdx, List.getElem_map, List.getElem_range,
      ← List.getElem_eq_getD (h := hi), Nat.zero_add]
  have hrows : (List.range f.m.size).filter bv.bit = s.rows := by
    rw [← h.rows, BitVector.rows]
    refine filter_range_eq fun i hbit => ⟨fun hi => ?_, fun hi => hreads.1 i ?_⟩
    · by_contra hge
      have hnone := h.tail i (h.size ▸ Nat.not_lt.mp hge) (hi.trans_le hreads.2)
      rw [hnone] at hbit
      cases hbit
    · rw [← h.rows]
      exact List.mem_filter.mpr ⟨List.mem_range.mpr hi, hbit⟩
  rw [markedRows, hindex, List.filter_map, ← hrows]
  rfl

/-- **The side of a join.** -/
lemma side (hreads : s.Reads f.m.size) :
    materializeSide f bv = .ok (s.rows.map fun i => (f.stored.getD i 0, i)) := by
  have hmarked := h.markedRows_eq hreads
  refine materializeSide_eq_ok.mpr ⟨hreads.2.trans h.word, ?_, hmarked.symm⟩
  rw [hmarked, List.length_map, h.count]

/-- **The column of a tuple.** -/
lemma tuple (hreads : s.Reads f.m.size) :
    markedValues bv f.stored.zipIdx = valuesAt s.rows f.stored := by
  have hmarked := h.markedRows_eq hreads
  rw [markedRows] at hmarked
  rw [markedValues, hmarked, List.map_map, valuesAt]
  refine (List.filterMap_eq_map_iff_forall_eq_some.mpr fun i hi => ?_).symm
  have hlt : i < f.stored.length := by rw [f.length_stored]; exact hreads.1 i hi
  rw [Function.comp_apply, List.getElem?_eq_getElem hlt, List.getElem_eq_getD]

end Reading

end Selection.Marks

/-- Rows of the column have a value each. -/
lemma valuesAt_eq_map {rows : List ℕ} {vals : List ℤ} (hrows : ∀ i ∈ rows, i < vals.length) :
    valuesAt rows vals = rows.map fun i => vals.getD i 0 :=
  List.filterMap_eq_map_iff_forall_eq_some.mpr fun i hi => by
    rw [List.getElem?_eq_getElem (hrows i hi), List.getElem_eq_getD]

end ColumnDb
