import ColumnDb.Bptree.Distinct
import ColumnDb.Session.Commands
import ColumnDb.Store.Loading

/-!
Columns with a B+ tree, over whole runs of inserts (`helper_insert.c`, `helper_variable.c`,
`helper_join.c`).

The rows of a BPTREE column are in two files: one after the other in the file of the column, and
under their values in the tree. A SELECT with a range and a `treejoin` read the tree only.

* `TreeColumn`: the invariant. The tree indexes the rows of the file.
* `insertAll_tree`: a column that was built by inserts satisfies it, when the splits of the tree are
  in place or the values differ (`Indexable`).
* `TreeColumn.select_eq_scan`: then a SELECT gives what a scan of the file gives.
* `distinctInserts_select`: every insert of distinct values succeeds, and a SELECT finds exactly the
  rows in its range.
* `treeBuilt_agrees`: so does a column that was loaded, and a tree join has the pairs of the nested
  loop, up to the room for them.
-/

namespace ColumnDb

/-- The tree of a BPTREE column indexes its rows, and the file has no cell after them. -/
structure TreeColumn (c : Column) (tree : BptFile) : Prop where
  type : c.data.m.type = .bptree
  full : c.data.cells.length = c.data.m.size
  nodes : c.nodes = some tree
  finds : ∀ low high, ∃ ids, foundRows tree low high = .ok (ids, ids.length) ∧
    ids.Perm (hits low high c.data.stored.zipIdx)

/-! ### Inserting -/

/-- The file of a column after a run of appends. -/
lemma foldl_appendValueToFile (vals : List ℤ) : ∀ f : DataFile,
    (vals.foldl appendValueToFile f).cells = f.cells ++ vals ∧
    (vals.foldl appendValueToFile f).m = { f.m with size := f.m.size + vals.length } := by
  induction vals with
  | nil => exact fun f => ⟨(List.append_nil _).symm, rfl⟩
  | cons v vals ih =>
      intro f
      obtain ⟨hcells, hm⟩ := ih (appendValueToFile f v)
      have happ : (appendValueToFile f v).cells ++ vals = f.cells ++ v :: vals := by
        rw [appendValueToFile, List.append_assoc, List.singleton_append]
      refine ⟨hcells.trans happ, ?_⟩
      rw [List.foldl_cons, hm, appendValueToFile, List.length_cons]
      simp only [Nat.add_assoc, Nat.add_comm 1]

/-- A file without cells after its rows has none after the appends. -/
lemma full_foldl_append {f g : DataFile} (hfull : f.cells.length = f.m.size) {vals : List ℤ}
    (hg : vals.foldl appendValueToFile f = g) :
    g.m.type = f.m.type ∧ g.cells.length = g.m.size ∧ g.stored = f.stored ++ vals := by
  obtain ⟨hcells, hm⟩ := foldl_appendValueToFile vals f
  rw [hg] at hcells hm
  have hlen : g.cells.length = g.m.size := by
    rw [hcells, hm, List.length_append, hfull]
  refine ⟨by rw [hm], hlen, ?_⟩
  rw [DataFile.stored_eq_cells hlen.le, hcells, DataFile.stored_eq_cells hfull.le]

/-- An insert into a BPTREE column. -/
lemma insertHelper_bptree {c : Column} {tree : BptFile} (htype : c.data.m.type = .bptree)
    (hnodes : c.nodes = some tree) (v : ℤ) :
    insertHelper c v = bptInsertRecord tree v c.data.m.size >>= fun tree' =>
      .ok { data := appendValueToFile c.data v, nodes := some tree' } := by
  rw [insertHelper, htype, hnodes]

/-- A run of inserts into a BPTREE column is a run of inserts into its tree, with the number of the
rows before it as the row. -/
lemma insertAll_bptree (vals : List ℤ) : ∀ {c : Column} {tree : BptFile},
    c.data.m.type = .bptree → c.nodes = some tree →
    insertAll c vals = bptInsertRecords tree (vals.zipIdx c.data.m.size) >>= fun tree' =>
      .ok { data := vals.foldl appendValueToFile c.data, nodes := some tree' } := by
  induction vals with
  | nil =>
      rintro ⟨data, nodes⟩ tree _ rfl
      rfl
  | cons v vals ih =>
      intro c tree htype hnodes
      rw [insertAll, List.foldlM_cons, List.zipIdx_cons, bptInsertRecords, List.foldlM_cons,
        insertHelper_bptree htype hnodes, bind_assoc, bind_assoc]
      refine congrArg _ (funext fun tree' => ?_)
      rw [Outcome.ok_bind]
      exact ih htype rfl

/-- The inserts of the values put every node in its place, or the values differ and no word moves
over a mark, which none does up to `8128` values. -/
def Indexable (vals : List ℤ) : Prop :=
  insertsInPlace .makeNew vals.zipIdx = true ∨
    vals.Nodup ∧ (clearRun .makeNew vals.zipIdx = true ∨ vals.length ≤ 8128)

/-- A run of inserts with every node in its place ends with a tree over the records. -/
lemma grownTo_of_inPlace {records : List (ℤ × ℕ)} (hne : records ≠ [])
    (hplace : insertsInPlace .makeNew records = true) {tree : BptFile}
    (hok : bptInsertRecords .makeNew records = .ok tree) : ∃ h, GrownTo tree h records := by
  obtain ⟨⟨key, row⟩, records, rfl⟩ := List.exists_cons_of_ne_nil hne
  obtain ⟨f, hfirst, hg⟩ := grownTo_first key row
  rw [insertsInPlace, hfirst, Bool.and_eq_true] at hplace
  rw [bptInsertRecords, List.foldlM_cons, hfirst, Outcome.ok_bind] at hok
  obtain herr | ⟨f', h, hok', hg'⟩ := hg.run records hplace.2
  · cases hok.symm.trans herr
  · cases hok.symm.trans hok'
    exact ⟨h, hg'⟩

/-- **A column that was built by inserts** has the values as its rows, and its tree indexes them. -/
theorem insertAll_tree {vals : List ℤ} (hne : vals ≠ []) (hvals : Indexable vals) {c : Column}
    (hok : insertAll (Column.makeNew .bptree) vals = .ok c) :
    c.data.stored = vals ∧ ∃ tree, TreeColumn c tree := by
  rw [insertAll_bptree vals rfl rfl] at hok
  obtain ⟨tree, htree, hc⟩ := Outcome.bind_eq_ok.mp hok
  cases hc
  obtain ⟨htype, hfull, hstored⟩ :=
    full_foldl_append (show (Column.makeNew .bptree).data.cells.length = 0 from rfl)
      (rfl : vals.foldl appendValueToFile _ = _)
  suffices hgrown : ∃ h, GrownTo tree h vals.zipIdx by
    obtain ⟨h, hg⟩ := hgrown
    refine ⟨hstored, tree, htype, hfull, rfl, fun low high => ?_⟩
    change ∃ ids : List ℕ, _ ∧ ids.Perm (hits low high
      (vals.foldl appendValueToFile (Column.makeNew .bptree).data).stored.zipIdx)
    rw [hstored, Column.makeNew, DataFile.stored_makeNew, List.nil_append]
    exact hg.search low high
  have hrecords : vals.zipIdx ≠ [] := by
    rw [Ne, List.zipIdx_eq_nil_iff]
    exact hne
  rcases hvals with hplace | ⟨hnodup, hclear⟩
  · exact grownTo_of_inPlace hrecords hplace htree
  · have hkeys : (vals.zipIdx.map Prod.fst).Nodup := by rwa [List.zipIdx_map_fst]
    obtain ⟨-, -, -, -, hplace⟩ := bptInsertRecords_distinct hrecords hkeys
      (hclear.imp_right fun hlen => by rwa [List.length_zipIdx])
    exact grownTo_of_inPlace hrecords hplace htree

/-! ### Selecting and joining -/

namespace TreeColumn

variable {c : Column} {tree : BptFile}

/-- No block of a scan reaches past the rows. -/
lemma scannedStale_eq (hc : TreeColumn c tree) : scannedStale c.data = [] := by
  refine List.drop_eq_nil_of_le ?_
  rw [scanned, List.length_take, ← hc.full]
  exact min_le_right _ _

/-- **A SELECT by the tree** gives what a scan of the file gives. -/
theorem select_eq_scan (hc : TreeColumn c tree) (bv : BitVector) (low high : ℤ) :
    selectRange c bv low high = markMatchingBvForUnsorted c.data bv low high := by
  obtain ⟨ids, hfind, hperm⟩ := hc.finds low high
  have hscanned : scanned c.data = c.data.stored := by
    rw [← stored_append_scannedStale, hc.scannedStale_eq, List.append_nil]
  rw [selectRange, hc.type, hc.nodes, markMatchingBvForUnsorted_eq, markTurn_foldlM_eq, hscanned,
    ← foldlM_perm markBv_comm hperm, ← hperm.length_eq, Nat.zero_add]
  exact findRecordInRangeType_eq markBv hfind bv

/-- So it marks the rows in the range, and counts them. -/
theorem select_marks (hc : TreeColumn c tree) (low high : ℤ) :
    ∃ bv, selectRange c (createBv c.data.m.size) low high
        = .ok (bv, c.data.stored.countP fun v => low ≤ v ∧ v ≤ high) ∧
      ∀ i, bv.bit i = true ↔ ∃ v, c.data.stored[i]? = some v ∧ low ≤ v ∧ v ≤ high := by
  rw [hc.select_eq_scan]
  exact markMatchingBvForUnsorted_exists (by simp [hc.scannedStale_eq])

/-- The rows with a value are those in the range of that value. -/
lemma hits_zipIdx_eq (v : ℤ) : hits v v c.data.stored.zipIdx = rowsWith c.data v := by
  have hrange : List.range c.data.m.size = c.data.stored.zipIdx.map Prod.snd := by
    rw [List.zipIdx_map_snd, c.data.length_stored, List.range_eq_range']
  rw [hits, rowsWith, hrange, List.filter_map]
  refine congrArg _ (List.filter_congr fun x hx => ?_)
  have hget := List.mem_zipIdx_iff_getElem?.mp hx
  simp only [Function.comp_apply, hget, Option.some.injEq, decide_eq_decide]
  exact ⟨fun h => le_antisymm h.2 h.1, fun h => ⟨h.ge, h.le⟩⟩

/-- The search for one value finds the rows with it, up to the room for their ids. -/
lemma findsRows (hc : TreeColumn c tree) {v : ℤ} (hfew : (rowsWith c.data v).length ≤ 2 ^ 29) :
    FindsRows c.data tree v := by
  obtain ⟨ids, hfind, hperm⟩ := hc.finds v v
  rw [hits_zipIdx_eq] at hperm
  exact ⟨ids, findRecordInRangeId_iff.mpr ⟨hfind, hperm.length_eq.trans_le hfew⟩, hperm⟩

/-- A tree join with the tree on the left. -/
lemma joins_first (hc : TreeColumn c tree) {killOnErr : Bool} {v₁ v₂ : TreeJoinSide}
    (htree : v₁.tree = some tree) (hsize : v₁.bv.size = c.data.m.size)
    (hkill : killOnErr = true → v₂.isMaterialized = true ∧ v₂.m ≠ [])
    (hfew : ∀ x ∈ v₂.m, (rowsWith c.data x.1).length ≤ 2 ^ 29) :
    JoinAppends (treeJoin killOnErr v₁ v₂) (markedRows c.data v₁.bv) v₂.m :=
  treeJoin_first_appends htree hsize hkill fun x hx => hc.findsRows (hfew x hx)

/-- A tree join with the tree on the right. -/
lemma joins_second (hc : TreeColumn c tree) {killOnErr : Bool} {v₁ v₂ : TreeJoinSide}
    (hnone : v₁.tree = none) (htree : v₂.tree = some tree) (hsize : v₂.bv.size = c.data.m.size)
    (hkill : killOnErr = true → v₁.m ≠ [])
    (hfew : ∀ x ∈ v₁.m, (rowsWith c.data x.1).length ≤ 2 ^ 29) :
    JoinAppends (treeJoin killOnErr v₁ v₂) v₁.m (markedRows c.data v₂.bv) :=
  treeJoin_second_appends hnone htree hsize hkill fun x hx => hc.findsRows (hfew x hx)

end TreeColumn

/-- A run of inserts of distinct values succeeds. -/
lemma insertAll_distinct {vals : List ℤ} (hne : vals ≠ []) (hnodup : vals.Nodup)
    (hclear : clearRun .makeNew vals.zipIdx = true ∨ vals.length ≤ 8128) :
    insertsInPlace .makeNew vals.zipIdx = true ∧
    ∃ c, insertAll (Column.makeNew .bptree) vals = .ok c ∧ c.data.stored = vals ∧
      ∃ tree, TreeColumn c tree := by
  have hrecords : vals.zipIdx ≠ [] := by
    rw [Ne, List.zipIdx_eq_nil_iff]
    exact hne
  obtain ⟨tree, h, hrun, -, hplace⟩ := bptInsertRecords_distinct hrecords
    (by rwa [List.zipIdx_map_fst]) (hclear.imp_right fun hlen => by rwa [List.length_zipIdx])
  have hok := @insertAll_bptree vals (Column.makeNew .bptree) .makeNew rfl rfl
  have hstart : (Column.makeNew .bptree).data.m.size = 0 := rfl
  rw [hstart, hrun, Outcome.ok_bind] at hok
  exact ⟨hplace, _, hok, insertAll_tree hne (Or.inr ⟨hnodup, hclear⟩) hok⟩

/-- **A run of inserts of distinct values** into a fresh BPTREE column succeeds, in whatever order
they come, and every new node lands right behind the one that was split. The column has the values
as its rows, and a SELECT through its tree gives what a scan gives: the marks of exactly the rows in
the range, and their number. -/
theorem distinctInserts_select {vals : List ℤ} (hne : vals ≠ []) (hnodup : vals.Nodup)
    (hclear : clearRun .makeNew vals.zipIdx = true ∨ vals.length ≤ 8128) :
    insertsInPlace .makeNew vals.zipIdx = true ∧
    ∃ c, insertAll (Column.makeNew .bptree) vals = .ok c ∧ c.data.stored = vals ∧
      (∀ bv low high, selectRange c bv low high = markMatchingBvForUnsorted c.data bv low high) ∧
      ∀ low high, ∃ bv, selectRange c (createBv vals.length) low high
          = .ok (bv, vals.countP fun v => low ≤ v ∧ v ≤ high) ∧
        ∀ i, bv.bit i = true ↔ ∃ v, vals[i]? = some v ∧ low ≤ v ∧ v ≤ high := by
  obtain ⟨hplace, c, hok, hstored, tree, hc⟩ := insertAll_distinct hne hnodup hclear
  refine ⟨hplace, c, hok, hstored, hc.select_eq_scan, fun low high => ?_⟩
  have hmarks := hc.select_marks low high
  rwa [← c.data.length_stored, hstored] at hmarks

/-- `distinctInserts_select` at three values that do not come in order. -/
theorem threeInserts_select :
    ([5, -2, 9] : List ℤ).Nodup ∧ insertsInPlace .makeNew ([5, -2, 9] : List ℤ).zipIdx = true ∧
      ∃ c, insertAll (Column.makeNew .bptree) [5, -2, 9] = .ok c ∧ c.data.stored = [5, -2, 9] ∧
        (∀ bv low high, selectRange c bv low high = markMatchingBvForUnsorted c.data bv low high) ∧
        ∀ low high, ∃ bv, selectRange c (createBv 3) low high
            = .ok (bv, [5, -2, 9].countP fun v => low ≤ v ∧ v ≤ high) ∧
          ∀ i, bv.bit i = true ↔ ∃ v, [5, -2, 9][i]? = some v ∧ low ≤ v ∧ v ≤ high :=
  ⟨by decide, distinctInserts_select (by decide) (by decide) (Or.inr (by decide))⟩

/-! ### Loading -/

section Load

variable {n : Node} {d d' : Disk} {first : String} {rest : List String} {rows : List (List ℤ)}
  {c : Column}

/-- The passes of a LOAD leave no cell of a fresh column after the rows. -/
lemma loadColumns_full {s : List (List ℤ)} {name : String} {names : List (String × ℕ)}
    (hfresh : ∀ c, d name = some c → c.data.cells = [])
    (hok : names.foldlM (fun d x => onColumn d x.1 (loadColumn s x.2)) d = .ok d') :
    ∀ c, d' name = some c → c.data.cells.length ≤ s.length := by
  refine foldlM_inv (P := fun d : Disk => ∀ c, d name = some c → c.data.cells.length ≤ s.length)
    (fun d x d' hd hstep c hc => ?_) names d d' (fun c hc => ?_) hok
  · obtain ⟨c₀, hc₀, hstep⟩ := Outcome.bind_eq_ok.mp hstep
    obtain ⟨c₁, hload, hstep⟩ := Outcome.bind_eq_ok.mp hstep
    cases hstep
    by_cases hname : name = x.1
    · subst hname
      rw [Function.update_self] at hc
      cases hc
      obtain ⟨-, -, hcells, -⟩ := loadColumn_eq_ok hload
      rw [initCol] at hc₀
      cases hx : d x.1 with
      | none =>
          rw [hx] at hc₀
          cases hc₀
      | some c₂ =>
          rw [hx] at hc₀
          cases hc₀
          rw [hcells, List.drop_eq_nil_of_le (hd _ hx), List.append_nil, List.length_map]
    · rw [Function.update_of_ne hname] at hc
      exact hd c hc
  · rw [hfresh c hc]
    exact Nat.zero_le _

/-- **A LOAD into a fresh table** whose first column is a BPTREE column, with values near to each
other and a last leaf that is not full, leaves the tree of the column over its rows. -/
theorem loadHelper_tree (hn : NodeShape n) (hnodup : (first :: rest).Nodup)
    (hfirst : d first = some (Column.makeNew .bptree))
    (hcols : ∀ name ∈ first :: rest, ∃ c, d name = some c)
    (hlen : ∀ row ∈ rows, row.length = (first :: rest).length)
    (hnear : ∀ row ∈ rows, ∀ row' ∈ rows, row'.headD 0 - row.headD 0 < 2 ^ 31)
    (hsize : 127 < rows.length) (hlast : rows.length % 127 ≠ 0)
    (hok : loadHelper n d (first :: rest) rows = .ok d') (hc : d' first = some c) :
    ∃ tree, TreeColumn c tree := by
  obtain ⟨s, hs⟩ : ∃ s, mergeQsort compareMallocedArray rows = s := ⟨_, rfl⟩
  have hordered := orderedBy_qsort mergeQsort_sorts hnear
  rw [hs] at hordered
  have hlen' : ∀ row ∈ s, row.length = (first :: rest).length := fun row hrow =>
    hlen row (hordered.perm.mem_iff.mp hrow)
  obtain ⟨d₁, hholds, hpasses, heq⟩ := loadHelperBy_eq (n := n) hs hnodup hfirst nofun hcols hlen'
  rw [loadHelper, heq, if_pos rfl] at hok
  obtain ⟨tree, htree, hok⟩ := Outcome.bind_eq_ok.mp hok
  obtain ⟨c₀, c₁, hc₀, hc₁, hm, hstored⟩ := hholds 0 first rfl
  cases hfirst.symm.trans hc₀
  have hfull := loadColumns_full (fun c hc => by cases hfirst.symm.trans hc; rfl) hpasses c₁ hc₁
  have hset : onColumn d₁ first (fun c => .ok { c with nodes := some tree })
      = .ok (Function.update d₁ first (some { c₁ with nodes := some tree })) := onColumn_ok hc₁ rfl
  cases hok.symm.trans hset
  rw [Function.update_self] at hc
  cases hc
  rw [map_getD_zero] at hstored
  have hkeys : (s.map fun row : List ℤ => row.headD 0).length = rows.length := by
    rw [List.length_map, hordered.perm.length_eq]
  obtain ⟨f, lead, more, hload, hloaded⟩ := @bulkLoad_ok (s.map fun row => row.headD 0) [] n hn
    (by rw [hkeys]; omega) fun hzero => absurd (hkeys ▸ hzero) hlast
  rw [List.append_nil, List.length_map, htree] at hload
  cases hload
  have hsorted : (s.map fun row : List ℤ => row.headD 0).Pairwise (· ≤ ·) :=
    List.pairwise_map.mpr hordered.order
  have hsize' : s.length = c₁.data.m.size := by rw [hm]
  refine ⟨tree, by rw [hm]; rfl, le_antisymm (hsize' ▸ hfull) c₁.data.size_le, rfl,
    fun low high => ?_⟩
  rw [hstored, hits_zipIdx]
  exact ⟨_, hloaded.search hsorted (Or.inl (hkeys ▸ hlast)) low high, List.Perm.refl _⟩

end Load

/-! ### Joining -/

/-- A BPTREE column as a run of inserts, or a LOAD of a fresh table, leaves it. A LOAD counts its
rows in an `int`. -/
inductive TreeBuilt (c : Column) : Prop where
  | inserts {vals : List ℤ} (hne : vals ≠ []) (hvals : Indexable vals)
      (hcount : vals.length < 2 ^ 31) (hok : insertAll (Column.makeNew .bptree) vals = .ok c)
  | load {n : Node} {d d' : Disk} {first : String} {rest : List String} {rows : List (List ℤ)}
      (hn : NodeShape n) (hnodup : (first :: rest).Nodup)
      (hfirst : d first = some (Column.makeNew .bptree))
      (hcols : ∀ name ∈ first :: rest, ∃ c, d name = some c)
      (hlen : ∀ row ∈ rows, row.length = (first :: rest).length)
      (hnear : ∀ row ∈ rows, ∀ row' ∈ rows, row'.headD 0 - row.headD 0 < 2 ^ 31)
      (hsize : 127 < rows.length) (hlast : rows.length % 127 ≠ 0) (hcount : rows.length < 2 ^ 31)
      (hok : loadHelper n d (first :: rest) rows = .ok d') (hc : d' first = some c)

lemma TreeBuilt.exists_tree {c : Column} (h : TreeBuilt c) : ∃ tree, TreeColumn c tree := by
  cases h with
  | inserts hne hvals _ hok => exact (insertAll_tree hne hvals hok).2
  | load hn hnodup hfirst hcols hlen hnear hsize hlast _ hok hc =>
      exact loadHelper_tree hn hnodup hfirst hcols hlen hnear hsize hlast hok hc

/-- **A BPTREE column that was built by inserts or by a LOAD** agrees with its file: a SELECT by the
tree gives what a scan gives, and a tree join, with the tree on either side, has the pairs of the
nested loop over the marked rows exactly when there is room for them. The search for one value puts
its rows into a list of ids as well. -/
theorem treeBuilt_agrees {c : Column} (h : TreeBuilt c) :
    (∀ bv low high, selectRange c bv low high = markMatchingBvForUnsorted c.data bv low high) ∧
    ∀ (c' : Column) (v v' : SessionVar) (m m' : List (ℤ × ℕ)), v.bv.size = c.data.m.size →
      m'.length < 2 ^ 31 → (∀ x ∈ m', (rowsWith c.data x.1).length ≤ 2 ^ 29) →
      (JoinMatches (treeJoin false (treeSide c v m) (treeSide c' v' m')) (markedRows c.data v.bv)
          m' ↔ (joinPairs (markedRows c.data v.bv) m').length ≤ 2 ^ 29) ∧
      (c'.data.m.type ≠ .bptree →
        (JoinMatches (treeJoin false (treeSide c' v' m') (treeSide c v m)) m'
            (markedRows c.data v.bv) ↔
          (joinPairs m' (markedRows c.data v.bv)).length ≤ 2 ^ 29)) := by
  obtain ⟨tree, hc⟩ := h.exists_tree
  refine ⟨hc.select_eq_scan, fun c' v v' m m' hsize _ hfew => ?_⟩
  have htree : (treeSide c v m).tree = some tree := by
    rw [treeSide, if_pos hc.type, hc.nodes]
  have hkill : ∀ {p : Prop}, false = true → p := fun h => absurd h (by decide)
  exact ⟨(hc.joins_first htree hsize hkill hfew).matches_iff,
    fun htype => (hc.joins_second (if_neg htype) htree hsize hkill hfew).matches_iff⟩

/-- `treeBuilt_agrees` at the column of three inserts, with a variable that has all its rows marked,
and a side of two values that occur in it and one that does not. -/
theorem threeInserts_agree :
    ∃ c, insertAll (Column.makeNew .bptree) [5, -2, 9] = .ok c ∧
      (∀ bv low high, selectRange c bv low high = markMatchingBvForUnsorted c.data bv low high) ∧
      joinPairs (markedRows c.data (markAllBv (createBv 3))) [(9, 0), (5, 1), (4, 2)]
        = [(0, 1), (2, 0)] ∧
      JoinMatches
        (treeJoin false
          (treeSide c { newVariable false 3 false with bv := markAllBv (createBv 3) } [])
          (treeSide (Column.makeNew .unsorted) (newVariable false 3 false)
            [(9, 0), (5, 1), (4, 2)]))
        (markedRows c.data (markAllBv (createBv 3))) [(9, 0), (5, 1), (4, 2)] := by
  obtain ⟨-, c, hok, hstored, -⟩ := insertAll_distinct (show ([5, -2, 9] : List ℤ) ≠ [] by decide)
    (by decide) (Or.inr (by decide))
  have hbuilt : TreeBuilt c :=
    .inserts (by decide) (Or.inr ⟨by decide, Or.inr (by decide)⟩) (by decide) hok
  have hsize : 3 = c.data.m.size := by rw [← c.data.length_stored, hstored]; rfl
  have hpairs : joinPairs (markedRows c.data (markAllBv (createBv 3))) [(9, 0), (5, 1), (4, 2)]
      = [(0, 1), (2, 0)] := by
    rw [markedRows, hstored]
    rfl
  have hrows : ∀ x : ℤ × ℕ, (rowsWith c.data x.1).length ≤ 2 ^ 29 := fun x => by
    refine (List.length_filter_le _ _).trans ?_
    rw [List.length_range, ← hsize]
    decide
  obtain ⟨hselect, hjoin⟩ := treeBuilt_agrees hbuilt
  refine ⟨c, hok, hselect, hpairs, ?_⟩
  refine (hjoin (Column.makeNew .unsorted) _ (newVariable false 3 false) [] _ hsize (by decide)
    fun x _ => hrows x).1.mpr ?_
  exact (congrArg List.length hpairs).trans_le (by decide)

end ColumnDb
