import ColumnDb.Bptree.BulkLinks
import ColumnDb.Store.Table

/-!
Loading a table that is sorted by its first column (`helper_load.c`).

`load_helper` sorts the pointers to the rows by the difference of the first values, writes every
column by a pass of its own, and builds the tree of a BPTREE column from its values.

* `loadColumn_eq_ok`: what one pass writes.
* `loadColumns_ok`: after the passes the rows read across the columns are the sorted rows.
* `loadHelperBy_inOrder_iff`: with any `qsort` the rows are the loaded ones in the order of the
  first column exactly when no two first values are `2 ^ 31` apart and, for a BPTREE column, the
  bulk load stays inside the array of the first values.
-/

namespace ColumnDb

/-! ### One pass -/

/-- The values of a column in the rows are read exactly when every row reaches it. -/
lemma mapM_fetch_eq_ok {rows : List (List ℤ)} {i : ℕ} : ∀ {vals : List ℤ},
    (rows.mapM fun row => fetch .bounds row i) = .ok vals ↔
      (∀ row ∈ rows, i < row.length) ∧ vals = rows.map fun row => row.getD i 0 := by
  induction rows with
  | nil =>
      intro vals
      rw [List.mapM_nil, List.map_nil]
      constructor
      · intro h
        cases h
        exact ⟨fun _ hrow => absurd hrow List.not_mem_nil, rfl⟩
      · rintro ⟨-, rfl⟩
        rfl
  | cons row rows ih =>
      intro vals
      rw [List.mapM_cons, List.forall_mem_cons, List.map_cons]
      constructor
      · intro h
        obtain ⟨x, hx, h⟩ := Outcome.bind_eq_ok.mp h
        obtain ⟨xs, hxs, h⟩ := Outcome.bind_eq_ok.mp h
        cases h
        obtain ⟨hlen, rfl⟩ := ih.mp hxs
        have hget := fetch_eq_ok.mp hx
        exact ⟨⟨(List.getElem?_eq_some_iff.mp hget).1, hlen⟩, by
          rw [List.getD_eq_getElem?_getD, hget, Option.getD_some]⟩
      · rintro ⟨⟨hlt, hlen⟩, rfl⟩
        rw [fetch_of_lt hlt, Outcome.ok_bind, ih.mpr ⟨hlen, rfl⟩, List.getD_eq_getElem?_getD,
          List.getElem?_eq_getElem hlt]
        rfl

/-- **What a pass writes**: the values of the rows, over the beginning of the file. -/
lemma loadColumn_eq_ok {rows : List (List ℤ)} {i : ℕ} {c c' : Column}
    (h : loadColumn rows i c = .ok c') :
    c'.data.m = { c.data.m with size := rows.length } ∧ c'.nodes = c.nodes ∧
      c'.data.cells = (rows.map fun row => row.getD i 0) ++ c.data.cells.drop rows.length ∧
      c'.data.stored = rows.map fun row => row.getD i 0 := by
  obtain ⟨vals, hvals, h⟩ := Outcome.bind_eq_ok.mp h
  cases h
  obtain ⟨-, rfl⟩ := mapM_fetch_eq_ok.mp hvals
  have hlen : (rows.map fun row => row.getD i 0).length = rows.length := List.length_map _
  exact ⟨by rw [← hlen], rfl, by rw [← hlen], List.take_left' rfl⟩

lemma loadColumn_ok {rows : List (List ℤ)} {i : ℕ} (hlen : ∀ row ∈ rows, i < row.length)
    (c : Column) : ∃ c', loadColumn rows i c = .ok c' := by
  rw [loadColumn, mapM_fetch_eq_ok.mpr ⟨hlen, rfl⟩, Outcome.ok_bind]
  exact ⟨_, rfl⟩

/-! ### All columns -/

/-- The value of a column in the row `i`. -/
def cellAt (d : Disk) (name : String) (i : ℕ) : Option ℤ := (d name).bind fun c => c.data.stored[i]?

/-- The first `k` rows read across the columns. -/
def rowsAcross (d : Disk) (names : List String) (k : ℕ) : List (List (Option ℤ)) :=
  (List.range k).map fun i => names.map fun name => cellAt d name i

/-- The columns of a table after a load of `rows`. -/
def HoldsRows (d d' : Disk) (names : List String) (rows : List (List ℤ)) : Prop :=
  ∀ i name, names[i]? = some name → ∃ c c', d name = some c ∧ d' name = some c' ∧
    c'.data.m = { c.data.m with size := rows.length } ∧
    c'.data.stored = rows.map fun row => row.getD i 0

/-- **The passes over the columns.** -/
lemma loadColumns_ok {d : Disk} {names : List String} {rows : List (List ℤ)} (hnodup : names.Nodup)
    (hcols : ∀ name ∈ names, ∃ c, d name = some c)
    (hlen : ∀ row ∈ rows, row.length = names.length) :
    ∃ d', names.zipIdx.foldlM (fun d x => onColumn d x.1 (loadColumn rows x.2)) d = .ok d' ∧
      HoldsRows d d' names rows := by
  have hsteps : ∀ x ∈ names.zipIdx, ∃ c c', d x.1 = some c ∧ loadColumn rows x.2 c = .ok c' := by
    intro x hx
    obtain ⟨hi, hname⟩ := List.getElem?_eq_some_iff.mp (List.mem_zipIdx_iff_getElem?.mp hx)
    obtain ⟨c, hc⟩ := hcols x.1 (hname ▸ List.getElem_mem hi)
    obtain ⟨c', hc'⟩ := loadColumn_ok (fun row hrow => by rw [hlen row hrow]; exact hi) c
    exact ⟨c, c', hc, hc'⟩
  choose! c c' hc hstep using hsteps
  obtain ⟨d', hok, hin, -⟩ := foldlM_onColumn c' names.zipIdx d
    (by rwa [List.zipIdx_map_fst]) fun x hx => ⟨c x, hc x hx, hstep x hx⟩
  refine ⟨d', hok, fun i name hname => ?_⟩
  have hx : (name, i) ∈ names.zipIdx := List.mk_mem_zipIdx_iff_getElem?.mpr hname
  obtain ⟨hm, -, -, hstored⟩ := loadColumn_eq_ok (hstep _ hx)
  exact ⟨_, _, hc _ hx, hin _ hx, hm, hstored⟩

/-- The tree of a column is not a part of its rows. -/
lemma HoldsRows.set_nodes {d d' : Disk} {names : List String} {rows : List (List ℤ)}
    (h : HoldsRows d d' names rows) {name : String} {c : Column} (hc : d' name = some c)
    (tree : BptFile) :
    HoldsRows d (Function.update d' name (some { c with nodes := some tree })) names rows := by
  intro i name' hname
  obtain ⟨c₀, c', hc₀, hc', hm, hstored⟩ := h i name' hname
  by_cases hsame : name' = name
  · subst hsame
    cases hc.symm.trans hc'
    exact ⟨c₀, _, hc₀, Function.update_self _ _ _, hm, hstored⟩
  · exact ⟨c₀, c', hc₀, by rw [Function.update_of_ne hsame]; exact hc', hm, hstored⟩

/-- The rows across the columns are then those rows. -/
lemma HoldsRows.rowsAcross_eq {d d' : Disk} {names : List String} {rows : List (List ℤ)}
    (h : HoldsRows d d' names rows) (hlen : ∀ row ∈ rows, row.length = names.length) :
    rowsAcross d' names rows.length = rows.map fun row => row.map some := by
  refine List.ext_getElem (by simp [rowsAcross]) fun i hi hi' => ?_
  have hrow : i < rows.length := by simpa using hi'
  have hlen' := hlen rows[i] (List.getElem_mem hrow)
  simp only [rowsAcross, List.getElem_map, List.getElem_range]
  refine List.ext_getElem (by simp [hlen']) fun j hj hj' => ?_
  have hname : j < names.length := by simpa using hj
  obtain ⟨c, c', -, hc', -, hstored⟩ := h j names[j] (List.getElem?_eq_getElem hname)
  simp only [List.getElem_map, cellAt, hc', Option.bind_some, hstored, List.getElem?_map,
    List.getElem?_eq_getElem hrow, Option.map_some]
  rw [List.getD_eq_getElem?_getD, List.getElem?_eq_getElem (by omega), Option.getD_some]

/-- The columns count the rows, the rows across them are the loaded ones in some order, and the
first column is in order. -/
structure LoadedInOrder (d : Disk) (names : List String) (rows : List (List ℤ)) : Prop where
  size : ∀ name ∈ names, ∃ c, d name = some c ∧ c.data.m.size = rows.length
  rows : (rowsAcross d names rows.length).Perm (rows.map fun row => row.map some)
  order : ∀ first ∈ names.head?, ∀ c, d first = some c → c.data.stored.Pairwise (· ≤ ·)

section Load

variable {d : Disk} {first : String} {rest : List String} {rows s : List (List ℤ)} {n : Node}
  {t : StorageType}

/-- First values that are near to each other are sorted. -/
lemma orderedBy_qsort {qsort : (List ℤ → List ℤ → ℤ) → List (List ℤ) → List (List ℤ)}
    (hqsort : SortsConsistent qsort)
    (hnear : ∀ row ∈ rows, ∀ row' ∈ rows, row'.headD 0 - row.headD 0 < 2 ^ 31) :
    OrderedBy (fun row => row.headD 0) rows (qsort compareMallocedArray rows) := by
  have hhalf : ((2 ^ 31 : ℕ) : ℤ) = 2 ^ 31 := by norm_num
  exact .of_near hqsort (by rw [hhalf]; exact hnear)

/-- The first values of the rows. -/
lemma map_getD_zero (rows : List (List ℤ)) :
    (rows.map fun row => row.getD 0 0) = rows.map fun row => row.headD 0 :=
  List.map_congr_left fun row _ => by cases row <;> rfl

/-- The array of the first values can be read by the bulk load. -/
lemma canRead_nil_iff (a : List ℤ) : CanRead a [] ↔ 127 < a.length ∧ a.length % 127 ≠ 0 := by
  have hlast := mt (lt_numLeaves_iff (a := a) (j := numLeaves a)).mpr (lt_irrefl _)
  rw [CanRead, List.append_nil, or_iff_left hlast]

/-- The columns after the passes are in order exactly when the rows are. -/
lemma loadedInOrder_iff {d' : Disk} (h : HoldsRows d d' (first :: rest) s) (hperm : s.Perm rows)
    (hlen : ∀ row ∈ rows, row.length = (first :: rest).length) :
    LoadedInOrder d' (first :: rest) rows ↔ OrderedBy (fun row => row.headD 0) rows s := by
  have hlen' : ∀ row ∈ s, row.length = (first :: rest).length :=
    fun row hrow => hlen row (hperm.mem_iff.mp hrow)
  have hhead := map_getD_zero s
  obtain ⟨c, c', -, hc', -, hstored⟩ := h 0 first rfl
  constructor
  · intro hload
    have hsorted := hload.order first rfl c' hc'
    rw [hstored, hhead, List.pairwise_map] at hsorted
    exact ⟨hperm, hsorted⟩
  · intro hordered
    refine ⟨fun name hname => ?_, ?_, fun name hname e he => ?_⟩
    · obtain ⟨i, hi⟩ := List.mem_iff_getElem?.mp hname
      obtain ⟨c, c', -, hc', hm, -⟩ := h i name hi
      exact ⟨c', hc', by rw [hm, hperm.length_eq]⟩
    · rw [← hperm.length_eq, h.rowsAcross_eq hlen']
      exact hperm.map _
    · obtain rfl := Option.some.inj hname
      cases hc'.symm.trans he
      rw [hstored, hhead, List.pairwise_map]
      exact hordered.order

/-- **A load** is the passes over the columns, and the bulk load of the first values. -/
lemma loadHelperBy_eq {qsort : (List ℤ → List ℤ → ℤ) → List (List ℤ) → List (List ℤ)}
    (hs : qsort compareMallocedArray rows = s) (hnodup : (first :: rest).Nodup)
    (hfirst : d first = some (Column.makeNew t)) (ht : t ≠ .unsorted)
    (hcols : ∀ name ∈ first :: rest, ∃ c, d name = some c)
    (hlen : ∀ row ∈ s, row.length = (first :: rest).length) :
    ∃ d', HoldsRows d d' (first :: rest) s ∧
      (first :: rest).zipIdx.foldlM (fun d x => onColumn d x.1 (loadColumn s x.2)) d = .ok d' ∧
      loadHelperBy qsort n d (first :: rest) rows
        = if t = .bptree then
            bulkLoad .makeNew n (s.map fun row => row.headD 0) s.length >>= fun tree =>
              onColumn d' first fun c => .ok { c with nodes := some tree }
          else .ok d' := by
  obtain ⟨d', hok, hholds⟩ := loadColumns_ok hnodup hcols hlen
  refine ⟨d', hholds, hok, ?_⟩
  have hzero : (s.mapM fun row => fetch .bounds row 0) = .ok (s.map fun row => row.headD 0) := by
    rw [← map_getD_zero]
    exact mapM_fetch_eq_ok.mpr ⟨fun row hrow => by rw [hlen row hrow, List.length_cons]; omega, rfl⟩
  have htype : (Column.makeNew t).data.m.type = t := rfl
  have hname : fetch .bounds (first :: rest) 0 = .ok first := rfl
  rw [loadHelperBy, hname, Outcome.ok_bind, initCol, hfirst]
  simp only [Outcome.ok_bind, htype]
  rw [if_neg ht, hs, hok, Outcome.ok_bind]
  split_ifs with hbptree
  · have hnodes : (Column.makeNew t).nodes = some .makeNew := by
      rw [Column.makeNew, if_pos hbptree]
    simp only [hnodes]
    rw [hzero, Outcome.ok_bind, List.length_map]
  · rfl

/-- What is left of the load after the sort: the order that the sort has left, and the array that
the bulk load reads. -/
lemma loadHelperBy_ok_iff {qsort : (List ℤ → List ℤ → ℤ) → List (List ℤ) → List (List ℤ)}
    (hs : qsort compareMallocedArray rows = s) (hnodup : (first :: rest).Nodup)
    (hfirst : d first = some (Column.makeNew t)) (ht : t ≠ .unsorted)
    (hcols : ∀ name ∈ first :: rest, ∃ c, d name = some c) (hn : NodeShape n) (hrows : rows ≠ [])
    (hlen : ∀ row ∈ rows, row.length = (first :: rest).length) (hperm : s.Perm rows) :
    (∃ d', loadHelperBy qsort n d (first :: rest) rows = .ok d' ∧
      LoadedInOrder d' (first :: rest) rows) ↔
    OrderedBy (fun row => row.headD 0) rows s ∧
      (t = .bptree → 127 < rows.length ∧ rows.length % 127 ≠ 0) := by
  obtain ⟨d₁, hholds, -, heq⟩ := loadHelperBy_eq (n := n) hs hnodup hfirst ht hcols
    fun row hrow => hlen row (hperm.mem_iff.mp hrow)
  obtain ⟨-, c, -, hc, -, -⟩ := hholds 0 first rfl
  have hkeys : (s.map fun row => row.headD 0).length = rows.length := by
    rw [List.length_map, hperm.length_eq]
  have hpos : 0 < (s.map fun row => row.headD 0).length := by
    rw [hkeys]
    exact List.length_pos_iff.mpr hrows
  have hbulk := canRead_nil_iff (s.map fun row : List ℤ => row.headD 0)
  rw [hkeys] at hbulk
  rw [heq]
  split_ifs with hbptree
  · have hset : ∀ tree, onColumn d₁ first (fun c => .ok { c with nodes := some tree })
        = .ok (Function.update d₁ first (some { c with nodes := some tree })) :=
      fun tree => onColumn_ok hc rfl
    constructor
    · rintro ⟨d', hok, hload⟩
      obtain ⟨tree, htree, hok⟩ := Outcome.bind_eq_ok.mp hok
      rw [hset] at hok
      cases hok
      refine ⟨(loadedInOrder_iff (hholds.set_nodes hc tree) hperm hlen).mp hload, fun _ => ?_⟩
      refine hbulk.mp (canRead_of_bulkLoad hn hpos ?_ (f := tree))
      rw [List.append_nil, List.length_map]
      exact htree
    · rintro ⟨hordered, hread⟩
      obtain ⟨tree, h, htree, -⟩ := bulkLoad_file hn hpos (hbulk.mpr (hread hbptree))
      rw [List.append_nil, List.length_map] at htree
      refine ⟨_, ?_, (loadedInOrder_iff (hholds.set_nodes hc tree) hperm hlen).mpr hordered⟩
      rw [htree, Outcome.ok_bind, hset]
  · constructor
    · rintro ⟨d', hok, hload⟩
      cases hok
      exact ⟨(loadedInOrder_iff hholds hperm hlen).mp hload, fun h => absurd h hbptree⟩
    · rintro ⟨hordered, -⟩
      exact ⟨d₁, rfl, (loadedInOrder_iff hholds hperm hlen).mpr hordered⟩

/-- With any `qsort` the load returns, and leaves the table in the order of its first column. -/
def LoadsInOrder (n : Node) (d : Disk) (names : List String) (rows : List (List ℤ)) : Prop :=
  ∀ qsort, SortsConsistent qsort → ∃ d', loadHelperBy qsort n d names rows = .ok d' ∧
    LoadedInOrder d' names rows

/-- **Loading a table that is sorted by its first column.** With any `qsort` the load returns, the
rows across the columns are the loaded ones and the first column is in order exactly when no two
first values are `2 ^ 31` apart and, with a BPTREE column, the bulk load can read what it
copies. There are fewer than `2 ^ 31` rows, which the `int`s of the loops count, and the file of
the nodes of a BPTREE column is not the file of another column. -/
theorem loadHelperBy_inOrder_iff (hnodup : (first :: rest).Nodup)
    (hfresh : ∀ name ∈ first :: rest, ∃ type, d name = some (Column.makeNew type))
    (hfirst : d first = some (Column.makeNew t)) (ht : t ≠ .unsorted) (hn : NodeShape n)
    (hrows : rows ≠ []) (hlen : ∀ row ∈ rows, row.length = (first :: rest).length)
    (hint : ∀ row ∈ rows, ∀ x ∈ row, -2 ^ 31 ≤ x ∧ x < 2 ^ 31) (_hcount : rows.length < 2 ^ 31)
    (_hnodes : t = .bptree → nodesName first ∉ rest) :
    LoadsInOrder n d (first :: rest) rows ↔
    (∀ row ∈ rows, ∀ row' ∈ rows, row'.headD 0 - row.headD 0 < 2 ^ 31) ∧
      (t = .bptree → 127 < rows.length ∧ rows.length % 127 ≠ 0) := by
  have hcols : ∀ name ∈ first :: rest, ∃ c, d name = some c :=
    fun name hname => (hfresh name hname).imp' _ fun _ h => h
  have hhalf : ((2 ^ 31 : ℕ) : ℤ) = 2 ^ 31 := by norm_num
  have hkey : ∀ row ∈ rows, -((2 ^ 31 : ℕ) : ℤ) ≤ row.headD 0 ∧ row.headD 0 < (2 ^ 31 : ℕ) := by
    intro row hrow
    rw [hhalf]
    cases row with
    | nil => cases hlen [] hrow
    | cons x row => exact hint _ hrow x List.mem_cons_self
  have hiff : ∀ {qsort : (List ℤ → List ℤ → ℤ) → List (List ℤ) → List (List ℤ)},
      (qsort compareMallocedArray rows).Perm rows → _ :=
    fun hperm => loadHelperBy_ok_iff rfl hnodup hfirst ht hcols hn hrows hlen hperm
  constructor
  · intro hall
    have hnear := near_of_sorts hkey fun qsort hqsort hperm =>
      ((hiff (hperm compareMallocedArray rows)).mp (hall qsort hqsort)).1
    rw [hhalf] at hnear
    exact ⟨hnear, ((hiff (mergeQsort_perm _ _)).mp (hall _ mergeQsort_sorts)).2⟩
  · rintro ⟨hnear, hread⟩ qsort hqsort
    have hordered := orderedBy_qsort hqsort hnear
    exact (hiff hordered.perm).mpr ⟨hordered, hread⟩

end Load

/-- A fresh table of two columns, of which the first is SORTED. -/
def pairTable : Disk :=
  Function.update (Function.update (fun _ => none) "a" (some (Column.makeNew .sorted))) "b"
    (some (Column.makeNew .unsorted))

lemma pairTable_fresh :
    ∀ name ∈ ["a", "b"], ∃ type, pairTable name = some (Column.makeNew type) := by
  intro name hname
  rcases List.mem_cons.mp hname with rfl | hname
  · exact ⟨.sorted, rfl⟩
  · obtain rfl := List.mem_singleton.mp hname
    exact ⟨.unsorted, rfl⟩

/-- `loadHelperBy_inOrder_iff` at two rows that are out of order. -/
theorem twoRows_loadedInOrder :
    LoadsInOrder Node.zero pairTable ["a", "b"] [[3, 1], [-1, 2]] :=
  (loadHelperBy_inOrder_iff (by decide) pairTable_fresh rfl (by decide) ⟨rfl, rfl⟩ (by decide)
    (by decide) (by decide) (by decide) fun h => absurd h (by decide)).mpr
    ⟨by decide, fun h => absurd h (by decide)⟩

/-- Two rows with first values more than `2 ^ 31` apart. -/
def farRows : List (List ℤ) := [[2147483647, 1], [-2, 2]]

/-- The difference of the greater and the smaller first value of `farRows` is negative, so every
`qsort` puts the greater one first. -/
lemma farRows_unordered {qsort : (List ℤ → List ℤ → ℤ) → List (List ℤ) → List (List ℤ)}
    (hqsort : SortsConsistent qsort) :
    ¬ ∃ d', loadHelperBy qsort Node.zero pairTable ["a", "b"] farRows = .ok d' ∧
      LoadedInOrder d' ["a", "b"] farRows := by
  intro hload
  have hcmp : Consistent compareMallocedArray farRows := ⟨by decide, by decide⟩
  obtain ⟨hperm, hsorted⟩ := hqsort _ _ hcmp
  have hcols : ∀ name ∈ ["a", "b"], ∃ c, pairTable name = some c :=
    fun name hname => (pairTable_fresh name hname).imp' _ fun _ h => h
  have hordered := ((loadHelperBy_ok_iff rfl (by decide) rfl (by decide) hcols
    (n := Node.zero) ⟨rfl, rfl⟩ (by decide) (by decide) hperm).mp hload).1
  have hle := hordered.not_before hsorted (a := [-2, 2]) (b := [2147483647, 1]) (by decide)
    (by decide) (by decide)
  revert hle
  decide

/-- A load of `farRows` is out of order. -/
theorem farRows_not_loadedInOrder : ¬ LoadsInOrder Node.zero pairTable ["a", "b"] farRows :=
  fun h => farRows_unordered mergeQsort_sorts (h _ mergeQsort_sorts)

end ColumnDb
