import ColumnDb.Session.Counting

/-!
Reading a column through the bit vector of a SELECT (`helper_fetch_command.c`).

`fetch_matched_from_bv` has room for as many values as the vector counts, and looks up a bit for
every cell that the blocks of the column reach: neither the size of the vector nor the number of
its words is part of the loop.

* `fetchTurn_foldlM_iff`: the loop returns exactly when every cell has a word and the marks on
  the cells are no more than the count.
* `fetchMatchedFromBv_iff`: the values that are read are those at the marks, with zeros up to the
  count.
* `fetchesSelected_iff`: it returns the values that a column had at the rows of the vector exactly
  when the vector counts these rows, the column had them and still has the same values there, and no
  cell that the loop reads is past the words or on a mark past the size.
* `fetch_after_inserts_iff`: the same for a SELECT that is followed by inserts, in terms of the
  column before them; after a SELECT of a whole column there may be none.
-/

namespace ColumnDb

/-! ### The loop -/

lemma fetchMatchedFromBv_eq (f : DataFile) (bv : BitVector) :
    fetchMatchedFromBv f bv = (scanned f).zipIdx.foldlM (fetchTurn bv) [] >>= fun result =>
      .ok (result ++ List.replicate (bv.count - result.length) 0) := by
  have hblocks : (List.range (getCeil f.m.size fileBlockSize)).foldlM (fetchBlock f.cells bv) []
      = (scanned f).zipIdx.foldlM (fetchTurn bv) [] :=
    foldlM_blocks (by decide) (fun _ _ => rfl) (fun _ => block_lt) []
  rw [fetchMatchedFromBv, hblocks]

/-- **The loop over the cells** returns exactly when every cell has a word and there is room for the
values at the marks. -/
lemma fetchTurn_foldlM_iff (bv : BitVector) (xs : List (ℤ × ℕ)) (vals : List ℤ) :
    xs.foldlM (fetchTurn bv) [] = .ok vals ↔
      (∀ x ∈ xs, x.2 / 32 < bv.vec.length) ∧ vals.length ≤ bv.count ∧ vals = markedValues bv xs :=
  collect_foldlM_iff Prod.snd Prod.fst (fun _ _ => rfl) xs [] vals (Nat.zero_le _)

/-- The values that are read through a bit vector, with zeros up to its count. -/
def reread (f : DataFile) (bv : BitVector) : List ℤ :=
  markedValues bv (scanned f).zipIdx
    ++ List.replicate (bv.count - (markedValues bv (scanned f).zipIdx).length) 0

/-- A bit vector has a word for every cell that the blocks of a column reach, and its count leaves
room for the marks on these. -/
structure Readable (f : DataFile) (bv : BitVector) : Prop where
  word : (scanned f).length ≤ 32 * bv.vec.length
  room : (markedValues bv (scanned f).zipIdx).length ≤ bv.count

lemma fetchMatchedFromBv_iff {f : DataFile} {bv : BitVector} {vals : List ℤ} :
    fetchMatchedFromBv f bv = .ok vals ↔ Readable f bv ∧ vals = reread f bv := by
  rw [fetchMatchedFromBv_eq, Outcome.bind_eq_ok]
  constructor
  · rintro ⟨result, hfold, hpad⟩
    obtain ⟨hword, hroom, rfl⟩ := (fetchTurn_foldlM_iff bv _ result).mp hfold
    exact ⟨⟨(zipIdx_word_iff _ _).mp hword, hroom⟩, (Except.ok.inj hpad).symm⟩
  · rintro ⟨hread, rfl⟩
    exact ⟨_, (fetchTurn_foldlM_iff bv _ _).mpr
      ⟨(zipIdx_word_iff _ _).mpr hread.word, hread.room, rfl⟩, rfl⟩

lemma length_reread {f : DataFile} {bv : BitVector} (h : Readable f bv) :
    (reread f bv).length = bv.count := by
  rw [reread, List.length_append, List.length_replicate, Nat.add_sub_cancel' h.room]

/-! ### The rows of a vector -/

namespace BitVector

/-- The rows that a vector selects. -/
def rows (bv : BitVector) : List ℕ := (List.range bv.size).filter bv.bit

lemma length_rows (bv : BitVector) : bv.rows.length = (List.range bv.size).countP bv.bit :=
  List.countP_eq_length_filter.symm

end BitVector

/-- The values that `fetch_matched_from_bv` returns from the column `f` are those that the column
had when it was `before`, at the rows of the vector and in their order. -/
def FetchesSelected (before f : DataFile) (bv : BitVector) : Prop :=
  ∃ vals, fetchMatchedFromBv f bv = .ok vals ∧
    bv.rows.map (fun i => before.stored[i]?) = vals.map some

/-- The values at the rows of the vector are what they were. -/
def KeepsRows (before f : DataFile) (bv : BitVector) : Prop :=
  ∀ i ∈ bv.rows, f.stored[i]? = before.stored[i]?

/-- The values at the marks are those of the positions in the order of the positions. -/
lemma map_some_markedValues (bv : BitVector) (cells : List ℤ) :
    (markedValues bv cells.zipIdx).map some
      = ((List.range cells.length).filter bv.bit).map fun i => cells[i]? := by
  rw [List.range_eq_range', ← List.zipIdx_map_snd 0 cells, List.filter_map, List.map_map,
    markedValues, List.map_map]
  refine List.map_congr_left fun x hx => ?_
  have hmem := List.mem_zipIdx_iff_getElem?.mp (List.mem_filter.mp hx).1
  exact hmem.symm

lemma length_scanned_le (f : DataFile) : f.m.size ≤ (scanned f).length := by
  rw [scanned, List.length_take]
  exact le_min (le_getCeil_mul _ (by decide)) f.size_le

lemma getElem?_scanned {f : DataFile} {i : ℕ} (hi : i < f.m.size) :
    (scanned f)[i]? = f.stored[i]? := by
  rw [← stored_append_scannedStale, List.getElem?_append_left (by rwa [f.length_stored])]

/-- The vector counts its rows, the column has them, and the `n` cells that the loop reads have a
word, and no mark past the size. -/
structure FetchFits (size n : ℕ) (bv : BitVector) : Prop where
  counted : bv.Counted
  row : ∀ i < bv.size, bv.bit i = true → i < size
  word : n ≤ 32 * bv.vec.length
  tail : ∀ i, bv.size ≤ i → i < n → bv.bit i = false

section Fits

variable {before f : DataFile} {bv : BitVector}

/-- A vector that fits has its rows on the cells that the loop reads, and no other marks there. -/
lemma FetchFits.rows_eq (h : FetchFits f.m.size (scanned f).length bv) :
    bv.rows = (List.range (scanned f).length).filter bv.bit := by
  refine filter_range_eq fun i hbit => ⟨fun hi => ?_, fun hi => ?_⟩
  · exact (h.row i hi hbit).trans_le (length_scanned_le f)
  · by_contra hge
    rw [h.tail i (by omega) hi] at hbit
    cases hbit

/-- A vector that fits is read. -/
lemma fetchMatchedFromBv_of_fits (h : FetchFits f.m.size (scanned f).length bv) :
    fetchMatchedFromBv f bv = .ok (markedValues bv (scanned f).zipIdx) := by
  have hlen : (markedValues bv (scanned f).zipIdx).length = bv.count := by
    rw [length_markedValues, List.countP_eq_length_filter, ← h.rows_eq, bv.length_rows]
    exact h.counted.symm
  refine fetchMatchedFromBv_iff.mpr ⟨⟨h.word, hlen.le⟩, ?_⟩
  rw [reread, hlen, Nat.sub_self, List.replicate_zero, List.append_nil]

/-- A vector that fits a column fits it with more rows. -/
lemma FetchFits.mono {size size' n : ℕ} (h : FetchFits size n bv) (hle : size ≤ size') :
    FetchFits size' n bv where
  counted := h.counted
  row i hi hbit := (h.row i hi hbit).trans_le hle
  word := h.word
  tail := h.tail

/-- A vector that fits reads the values that are in the column now. -/
lemma FetchFits.map_some (h : FetchFits f.m.size (scanned f).length bv) :
    (markedValues bv (scanned f).zipIdx).map some = bv.rows.map fun i => f.stored[i]? := by
  rw [map_some_markedValues, ← h.rows_eq]
  refine List.map_congr_left fun i hi => ?_
  obtain ⟨hlt, hbit⟩ := List.mem_filter.mp hi
  exact getElem?_scanned (h.row i (List.mem_range.mp hlt) hbit)

/-- A vector of which the values are returned fits: the zeros behind them would be values too
many, and so would a mark past the size. -/
lemma fits_of_fetchesSelected (h : FetchesSelected before f bv) :
    FetchFits before.m.size (scanned f).length bv := by
  obtain ⟨vals, hfetch, hvals⟩ := h
  obtain ⟨hread, rfl⟩ := fetchMatchedFromBv_iff.mp hfetch
  have hroom := hread.room
  have hcounted : bv.Counted := by
    have hlen := congrArg List.length hvals
    rw [List.length_map, List.length_map, length_reread hread, bv.length_rows] at hlen
    exact hlen.symm
  have hrow : ∀ i < bv.size, bv.bit i = true → i < before.m.size := by
    intro i hi hbit
    have hmem : before.stored[i]? ∈ bv.rows.map fun i => before.stored[i]? :=
      List.mem_map_of_mem (List.mem_filter.mpr ⟨List.mem_range.mpr hi, hbit⟩)
    rw [hvals] at hmem
    obtain ⟨x, -, hx⟩ := List.mem_map.mp hmem
    have := (List.getElem?_eq_some_iff.mp hx.symm).1
    rwa [before.length_stored] at this
  refine ⟨hcounted, hrow, hread.word, fun i hi hin => ?_⟩
  rw [length_markedValues, hcounted] at hroom
  obtain ⟨k, hk⟩ := Nat.exists_eq_add_of_le (show bv.size ≤ (scanned f).length by omega)
  rw [hk, List.range_eq_range', ← List.range'_append_1, List.countP_append, Nat.zero_add,
    ← List.range_eq_range'] at hroom
  have hnone : (List.range' bv.size k).countP bv.bit = 0 := by omega
  exact Bool.eq_false_iff.mpr
    (List.countP_eq_zero.mp hnone i (List.mem_range'_1.mpr ⟨hi, by omega⟩))

/-- **Reading a column that has grown through a vector** returns the values that were at its rows
exactly when it fits the column from before and the values there are the same. -/
theorem fetchesSelected_iff (hle : before.m.size ≤ f.m.size) :
    FetchesSelected before f bv ↔
      FetchFits before.m.size (scanned f).length bv ∧ KeepsRows before f bv := by
  constructor
  · intro h
    have hfits := fits_of_fetchesSelected h
    refine ⟨hfits, ?_⟩
    obtain ⟨vals, hfetch, hvals⟩ := h
    have hnow := hfits.mono hle
    rw [fetchMatchedFromBv_of_fits hnow] at hfetch
    cases hfetch
    rw [hnow.map_some] at hvals
    exact fun i hi => (List.map_inj_left.mp hvals i hi).symm
  · rintro ⟨hfits, hkeeps⟩
    have hnow := hfits.mono hle
    refine ⟨_, fetchMatchedFromBv_of_fits hnow, ?_⟩
    rw [hnow.map_some]
    exact List.map_congr_left fun i hi => (hkeeps i hi).symm

end Fits

/-! ### Inserts between the SELECT and the read -/

/-- The cells in the file of a column after `k` inserts: the first one into a SORTED column leaves
the stale cells out. -/
def cellsAfter (c : Column) (k : ℕ) : ℕ :=
  if c.data.m.type = .sorted ∧ 0 < k then c.data.m.size + k else c.data.cells.length + k

/-- The cells that the blocks of a read reach after `k` inserts. -/
def cellsRead (c : Column) (k : ℕ) : ℕ :=
  min (getCeil (c.data.m.size + k) fileBlockSize * fileBlockSize) (cellsAfter c k)

/-- An insert into a column that is not SORTED writes the value at the end of the file. -/
lemma insertHelper_data {c c' : Column} {v : ℤ} (htype : c.data.m.type ≠ .sorted)
    (h : insertHelper c v = .ok c') : c'.data = appendValueToFile c.data v := by
  rw [insertHelper] at h
  cases hcase : c.data.m.type with
  | unsorted =>
      simp only [hcase] at h
      cases h
      rfl
  | sorted => exact absurd hcase htype
  | bptree =>
      simp only [hcase] at h
      cases hnodes : c.nodes with
      | none =>
          simp only [hnodes] at h
          cases h
      | some tree =>
          simp only [hnodes] at h
          obtain ⟨tree', -, h⟩ := Outcome.bind_eq_ok.mp h
          cases h
          rfl

lemma insertHelper_cells {c c' : Column} {v : ℤ} (h : insertHelper c v = .ok c') :
    c'.data.m.type = c.data.m.type ∧ c'.data.m.size = c.data.m.size + 1 ∧
      c'.data.cells.length = cellsAfter c 1 := by
  by_cases htype : c.data.m.type = .sorted
  · rw [insertHelper] at h
    simp only [htype] at h
    obtain ⟨index, -, h⟩ := Outcome.bind_eq_ok.mp h
    obtain ⟨data, hdata, h⟩ := Outcome.bind_eq_ok.mp h
    cases h
    rw [insertValueToFile] at hdata
    split_ifs at hdata with hle
    cases hdata
    refine ⟨rfl, rfl, ?_⟩
    have hsize := c.data.size_le
    rw [cellsAfter, if_pos ⟨htype, one_pos⟩]
    simp only [List.length_append, List.length_take, List.length_drop, List.length_singleton]
    omega
  · rw [insertHelper_data htype h, cellsAfter, if_neg fun hsorted => htype hsorted.1]
    exact ⟨rfl, rfl, List.length_append⟩

/-- **The file after a run of inserts.** -/
theorem insertAll_cells (vals : List ℤ) : ∀ {c c' : Column}, insertAll c vals = .ok c' →
    c'.data.m.size = c.data.m.size + vals.length ∧
      c'.data.cells.length = cellsAfter c vals.length := by
  induction vals with
  | nil =>
      intro c c' h
      cases h
      exact ⟨rfl, by rw [cellsAfter, if_neg (fun h => absurd h.2 (lt_irrefl 0))]; rfl⟩
  | cons v vals ih =>
      intro c c' h
      obtain ⟨c₁, hinsert, hrest⟩ := Outcome.bind_eq_ok.mp h
      obtain ⟨htype, hsize, hcells⟩ := insertHelper_cells hinsert
      obtain ⟨hsize', hcells'⟩ := ih hrest
      refine ⟨by rw [hsize', hsize, List.length_cons]; omega, ?_⟩
      rw [hcells', List.length_cons]
      by_cases hsorted : c.data.m.type = .sorted
      · rw [cellsAfter, if_pos ⟨hsorted, one_pos⟩] at hcells
        have hnext : cellsAfter c (vals.length + 1) = c.data.m.size + (vals.length + 1) :=
          if_pos ⟨hsorted, Nat.succ_pos _⟩
        rw [hnext, cellsAfter, hsize, hcells]
        split_ifs <;> omega
      · rw [cellsAfter, if_neg fun h => hsorted h.1] at hcells
        rw [cellsAfter, cellsAfter, htype, if_neg fun h => hsorted h.1,
          if_neg fun h => hsorted h.1, hcells]
        omega

/-- Inserts into a column that is not SORTED leave its rows where they are. -/
lemma insertAll_keeps_rows (vals : List ℤ) : ∀ {c c' : Column}, c.data.m.type ≠ .sorted →
    insertAll c vals = .ok c' → ∀ i < c.data.m.size, c'.data.stored[i]? = c.data.stored[i]? := by
  induction vals with
  | nil =>
      intro c c' _ h
      cases h
      exact fun _ _ => rfl
  | cons v vals ih =>
      intro c c' htype h i hi
      obtain ⟨c₁, hinsert, hrest⟩ := Outcome.bind_eq_ok.mp h
      obtain ⟨htype₁, hsize, -⟩ := insertHelper_cells hinsert
      have hdata : c₁.data = appendValueToFile c.data v := insertHelper_data htype hinsert
      rw [ih (by rwa [htype₁]) hrest i (by omega), hdata]
      have hlt := hi.trans_le c.data.size_le
      rw [← DataFile.getElem?_cells hi, ← DataFile.getElem?_cells (Nat.lt_succ_of_lt hi)]
      exact List.getElem?_append_left hlt

lemma length_scanned_insertAll {c c' : Column} {vals : List ℤ} (h : insertAll c vals = .ok c') :
    (scanned c'.data).length = cellsRead c vals.length := by
  obtain ⟨hsize, hcells⟩ := insertAll_cells vals h
  rw [scanned, List.length_take, hsize, hcells, cellsRead]

/-- The vector of a SELECT of a whole column of `n` rows fits a column of `n` rows. -/
lemma fetchFits_markAllBv_iff {size cells n : ℕ} (hle : size ≤ cells) :
    FetchFits size cells (markAllBv (createBv n)) ↔ size = n ∧ cells = n := by
  have hbit : ∀ i, i / 32 < getCeil n 32 → (markAllBv (createBv n)).bit i = true :=
    fun i hi => BitVector.bit_markAllBv hi
  have hwords : (markAllBv (createBv n)).vec.length = getCeil n 32 := by
    simp [markAllBv, createBv]
  have hceil := le_getCeil_mul n (show 0 < 32 by omega)
  constructor
  · intro h
    have hword := h.word
    rw [hwords] at hword
    have hcells : cells ≤ n := by
      by_contra hlt
      have htail := h.tail n le_rfl (by omega)
      rw [hbit n (by omega)] at htail
      cases htail
    have hsize : n ≤ size := by
      rcases Nat.eq_zero_or_pos n with rfl | hpos
      · exact Nat.zero_le _
      · have := h.row (n - 1) (show n - 1 < n by omega) (hbit _ (by omega))
        omega
    omega
  · rintro ⟨rfl, rfl⟩
    exact
      { counted := BitVector.counted_markAllBv _
        row := fun i hi _ => hi
        word := by rw [hwords]; omega
        tail := fun i hi hlt => absurd hlt (not_lt.mpr hi) }

/-- **Reading through the vector of a SELECT after inserts** into a column that keeps below `2 ^ 31`
rows gives the values that were at the selected rows before the inserts exactly when the vector fits
the column as it was and, in a SORTED column, the inserts leave the values at these rows as they
were. After a SELECT of a whole column into a new variable that is so exactly when there are no
inserts, and the column has as many rows and no more cells in its blocks. -/
theorem fetch_after_inserts_iff {d : Disk} {vars vars' : Vars} {args : InputArgs} {v : SessionVar}
    {c c' : Column} {vals : List ℤ} (hselect : selectCommand d vars true args = .ok vars')
    (hv : vars'.find args.var = some v) (hinserts : insertAll c vals = .ok c')
    (_hfew : c.data.m.size + vals.length < 2 ^ 31) :
    (FetchesSelected c.data c'.data v.bv ↔
      FetchFits c.data.m.size (cellsRead c vals.length) v.bv ∧
        (c.data.m.type = .sorted → KeepsRows c.data c'.data v.bv)) ∧
    (vars.find args.var = none → args.argTwo = "" →
      ∀ s, openColumn d args.argOne = .ok s →
        (FetchesSelected c.data c'.data v.bv ↔
          vals = [] ∧ c.data.m.size = s.data.m.size ∧ cellsRead c 0 = s.data.m.size)) := by
  obtain ⟨hsize, -⟩ := insertAll_cells vals hinserts
  have hfits : FetchesSelected c.data c'.data v.bv ↔ _ := fetchesSelected_iff (by omega)
  rw [length_scanned_insertAll hinserts] at hfits
  refine ⟨hfits.trans (and_congr_right fun h => ?_), fun hnew hall s hs => ?_⟩
  · refine ⟨fun hkeeps _ => hkeeps, fun hsorted => ?_⟩
    by_cases htype : c.data.m.type = .sorted
    · exact hsorted htype
    · intro i hi
      obtain ⟨hlt, hbit⟩ := List.mem_filter.mp hi
      exact insertAll_keeps_rows vals htype hinserts i (h.row i (List.mem_range.mp hlt) hbit)
  have hbv : v.bv = markAllBv (createBv s.data.m.size) := by
    rw [selectCommand, if_pos rfl, hs, Outcome.ok_bind] at hselect
    obtain ⟨⟨vars₁, newVar⟩, hinit, hselect⟩ := Outcome.bind_eq_ok.mp hselect
    obtain ⟨bv, hmarks, hselect⟩ := Outcome.bind_eq_ok.mp hselect
    cases hselect
    obtain ⟨rfl, -, -⟩ := initializeVariableTypes_bound hinit
    rw [Vars.bound_of_none hnew] at hmarks
    rw [selectMarks, if_pos hall] at hmarks
    cases hmarks
    rw [Vars.find_set_self] at hv
    rw [← Option.some.inj hv]
    rfl
  have hle := length_scanned_le c'.data
  rw [hsize, length_scanned_insertAll hinserts] at hle
  rw [hfits, hbv, fetchFits_markAllBv_iff (by omega)]
  constructor
  · rintro ⟨⟨hrows, hcells⟩, -⟩
    obtain rfl : vals = [] := List.length_eq_zero_iff.mp (by omega)
    exact ⟨rfl, hrows, hcells⟩
  · rintro ⟨rfl, hrows, hcells⟩
    cases hinserts
    exact ⟨⟨hrows, hcells⟩, fun _ _ => rfl⟩

/-- `s=select(a)`. -/
def selectAll : InputArgs :=
  { var := "s", command := .select, argOne := "a", argTwo := "", argThree := "" }

/-- The column of one row after an insert of `6`. -/
def twoRowColumn : Column :=
  { oneRowColumn with data := appendValueToFile oneRowColumn.data 6 }

lemma selectFive_ok : selectCommand oneRowDisk .create true selectFive
    = .ok ((Vars.create.append "s" (newVariable false 1 false)).set "s"
        { newVariable false 1 false with bv := firstRow }) := rfl

/-- The row that `5` was selected from is fetched after an insert. -/
theorem selectFive_fetched : FetchesSelected oneRowColumn.data twoRowColumn.data firstRow := by
  have hv : ((Vars.create.append "s" (newVariable false 1 false)).set "s"
      { newVariable false 1 false with bv := firstRow }).find "s"
        = some { newVariable false 1 false with bv := firstRow } := Vars.find_set_self _ _ _
  have hinserts : insertAll oneRowColumn [6] = .ok twoRowColumn := rfl
  exact (fetch_after_inserts_iff selectFive_ok hv hinserts (by decide)).1.mpr
    ⟨{ counted := rfl
       row := by decide
       word := by decide
       tail := by decide }, fun h => absurd h (by decide)⟩

/-- In a SORTED column the insert of `3` moves the row that `5` was selected from, and `3` is read
in its place. -/
example : (insertAll (Column.makeNew .sorted) [5, 3] >>= fun c =>
    fetchMatchedFromBv c.data firstRow) = .ok [3] := by decide +kernel

/-- After a SELECT of the whole column and an insert, the new row is on a mark past the size, and
its value is stored behind the array. -/
theorem selectAll_overflows :
    ∃ vars' v, selectCommand oneRowDisk .create true selectAll = .ok vars' ∧
      vars'.find "s" = some v ∧ insertAll oneRowColumn [6] = .ok twoRowColumn ∧
      fetchMatchedFromBv twoRowColumn.data v.bv = .error .bounds ∧
      ¬ FetchesSelected oneRowColumn.data twoRowColumn.data v.bv := by
  have hfetch : fetchMatchedFromBv twoRowColumn.data (markAllBv (createBv 1)) = .error .bounds := by
    rw [fetchMatchedFromBv_eq]
    rfl
  refine ⟨varsOfS, _, rfl, rfl, rfl, hfetch, ?_⟩
  rintro ⟨vals, hok, -⟩
  cases hfetch.symm.trans hok

end ColumnDb
