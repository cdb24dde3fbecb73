import ColumnDb.Bptree.BulkLoad
import ColumnDb.Library.Qsort
import ColumnDb.Store.Update

/-!
Tables: columns that are loaded and changed together (`helper_load.c`, `worker.c`).

A table is nothing but a list of column names. Its commands go over the names one after the
other, and every column is a file of its own on the `Disk`.

* `loadHelper`, `insertWork`, `deleteWork`: the commands on all columns of a table.
* `foldlM_onColumn`: a command does to every column what its step does, and nothing else.
* `TableRun`: the runs of a table of UNSORTED columns, with the rows that were supplied.
* `Together`: the invariant. The cells of all columns, the stale ones with them, come from one
  list of supplied rows.
* `tableRun_whole_rows`: after every command all columns have the same size and every row is
  one that was supplied as a whole.
-/

namespace ColumnDb

/-! ### The functions of the source -/

instance : Inhabited Column := ⟨Column.makeNew .unsorted⟩

/-- The files of the columns by their names. -/
abbrev Disk := String → Option Column

/-- The column whose file `get_bpt_nodes_file_name` names: the tree of a BPTREE column is in the
file that a column of this name would have. On the `Disk` the two are apart, which is right as long
as there is no such column. -/
def nodesName (name : String) : String := name ++ "_nodes"

lemma nodesName_ne (name : String) : nodesName name ≠ name := fun h => by
  have hlen := congrArg String.length h
  rw [nodesName, String.length_append] at hlen
  exact absurd hlen (by simp)

/-- `init_col`: a name without a file exits. -/
def initCol (d : Disk) (name : String) : Outcome Column :=
  match d name with
  | some c => .ok c
  | none => .error .exit

/-- Opening a column, changing it, and writing it back. -/
def onColumn (d : Disk) (name : String) (step : Column → Outcome Column) : Outcome Disk := do
  let c ← initCol d name
  let c ← step c
  .ok (Function.update d name (some c))

/-- Creating the columns of a table. -/
def createTable (d : Disk) (names : List String) : Disk :=
  names.foldl (fun d name => Function.update d name (some (Column.makeNew .unsorted))) d

/-- `db_worker`, the values of an INSERT. -/
def insertWork (d : Disk) (vals : List (String × ℤ)) : Outcome Disk :=
  vals.foldlM (fun d x => onColumn d x.1 fun c => insertHelper c x.2) d

/-- `db_worker`, the columns of a DELETE. -/
def deleteWork (d : Disk) (colNames : List String) (pos : List ℕ) : Outcome Disk :=
  colNames.foldlM (fun d name => onColumn d name fun c => deleteHelper c pos) d

/-- Writing the column `i` of the loaded rows over the beginning of a file. -/
def loadColumn (rows : List (List ℤ)) (i : ℕ) (c : Column) : Outcome Column := do
  let vals ← rows.mapM fun row => fetch .bounds row i
  .ok { c with
        data :=
          { m := { c.data.m with size := vals.length }
            cells := vals ++ c.data.cells.drop vals.length
            size_le := by simp } }

/-- `compare_malloced_array`: the difference of the first values of two rows. -/
def compareMallocedArray (l r : List ℤ) : ℤ := toInt32 (l.headD 0 - r.headD 0)

/-- `load_helper` with any `qsort`, for fewer than `2 ^ 31` rows, which its `int`s count; `n` is the
node that `malloc` returns in `bulk_load`. -/
def loadHelperBy (qsort : (List ℤ → List ℤ → ℤ) → List (List ℤ) → List (List ℤ)) (n : Node)
    (d : Disk) (colNames : List String) (intsBuffer : List (List ℤ)) : Outcome Disk := do
  let firstName ← fetch .bounds colNames 0
  let firstC ← initCol d firstName
  let intsBuffer :=
    if firstC.data.m.type = .unsorted then intsBuffer
    else qsort compareMallocedArray intsBuffer
  let d ← colNames.zipIdx.foldlM (fun d x => onColumn d x.1 (loadColumn intsBuffer x.2)) d
  if firstC.data.m.type = .bptree then
    match firstC.nodes with
    | none => .error .exit
    | some bptFp => do
        let bptData ← intsBuffer.mapM fun row => fetch .bounds row 0
        let bptFp ← bulkLoad bptFp n bptData bptData.length
        onColumn d firstName fun c => .ok { c with nodes := some bptFp }
  else .ok d

/-- `load_helper`. -/
def loadHelper (n : Node) (d : Disk) (colNames : List String) (intsBuffer : List (List ℤ)) :
    Outcome Disk :=
  loadHelperBy mergeQsort n d colNames intsBuffer

/-! ### One column after the other -/

lemma onColumn_ok {d : Disk} {name : String} {step : Column → Outcome Column} {c c' : Column}
    (hc : d name = some c) (hstep : step c = .ok c') :
    onColumn d name step = .ok (Function.update d name (some c')) := by
  rw [onColumn, initCol, hc, Outcome.ok_bind, hstep, Outcome.ok_bind]

/-- **The frame of a command**: over different columns, each column is changed by its own
step, from what it was before the command, and the other columns stay as they were. -/
theorem foldlM_onColumn {α : Type} {key : α → String} {step : α → Column → Outcome Column}
    (result : α → Column) (xs : List α) :
    ∀ d : Disk, (xs.map key).Nodup →
      (∀ x ∈ xs, ∃ c, d (key x) = some c ∧ step x c = .ok (result x)) →
      ∃ d', xs.foldlM (fun d x => onColumn d (key x) (step x)) d = .ok d' ∧
        (∀ x ∈ xs, d' (key x) = some (result x)) ∧
          ∀ name, name ∉ xs.map key → d' name = d name := by
  induction xs with
  | nil => exact fun d _ _ => ⟨d, rfl, by simp, fun _ _ => rfl⟩
  | cons x xs ih =>
      intro d hnodup hsteps
      obtain ⟨hx, hnodup'⟩ := List.nodup_cons.mp hnodup
      obtain ⟨c, hc, hstep⟩ := hsteps x List.mem_cons_self
      obtain ⟨d', hok, hin, hout⟩ := ih (Function.update d (key x) (some (result x))) hnodup'
        fun y hy => by
          have hne : key y ≠ key x := fun h => hx (h ▸ List.mem_map_of_mem hy)
          rw [Function.update_of_ne hne]
          exact hsteps y (List.mem_cons_of_mem _ hy)
      refine ⟨d', ?_, ?_, ?_⟩
      · rw [List.foldlM_cons, onColumn_ok hc hstep, Outcome.ok_bind]
        exact hok
      · intro y hy
        rcases List.mem_cons.mp hy with rfl | hy
        · rw [hout _ hx, Function.update_self]
        · exact hin y hy
      · intro name hname
        rw [List.map_cons, List.mem_cons, not_or] at hname
        rw [hout name hname.2, Function.update_of_ne hname.1]

/-- Creating a table makes every column of it fresh. -/
lemma createTable_of_mem {names : List String} : ∀ {d : Disk} {name : String},
    name ∈ names ∨ d name = some (Column.makeNew .unsorted) →
    createTable d names name = some (Column.makeNew .unsorted) := by
  induction names with
  | nil => exact fun h => h.resolve_left List.not_mem_nil
  | cons x names ih =>
      intro d name h
      refine ih (d := Function.update d x (some (Column.makeNew .unsorted))) ?_
      by_cases hx : name = x
      · exact Or.inr (by rw [hx, Function.update_self])
      · rw [Function.update_of_ne hx]
        exact h.imp_left fun h => (List.mem_cons.mp h).resolve_left hx

/-! ### Rows across columns -/

/-- A row of a table: a value for every column name. -/
abbrev Row := String → ℤ

/-- The row of the values given with their column names. -/
def rowOf (vals : List (String × ℤ)) : Row := fun name => (vals.lookup name).getD 0

lemma rowOf_of_mem {vals : List (String × ℤ)} (hnodup : (vals.map Prod.fst).Nodup)
    {x : String × ℤ} (hx : x ∈ vals) : rowOf vals x.1 = x.2 := by
  induction vals with
  | nil => cases hx
  | cons y vals ih =>
      obtain ⟨hy, hnodup'⟩ := List.nodup_cons.mp hnodup
      rw [rowOf, List.lookup_cons]
      rcases List.mem_cons.mp hx with rfl | hx
      · simp
      · have hne : x.1 ≠ y.1 := fun h => hy (h ▸ List.mem_map_of_mem hx)
        rw [beq_false_of_ne hne]
        exact ih hnodup' hx

/-- What one position of a delete does to the rows, the counted and the stale ones: the last
counted row is copied to the position and no longer counted. -/
def moveLast {α : Type} (s : List α × ℕ) (p : ℕ) : List α × ℕ :=
  match s.1[s.2 - 1]? with
  | some last => (s.1.set p last, s.2 - 1)
  | none => s

/-- A delete brings no row into the file that was not there. -/
lemma mem_moveLast_foldl {α : Type} {r : α} (pos : List ℕ) :
    ∀ s : List α × ℕ, r ∈ (pos.foldl moveLast s).1 → r ∈ s.1 := by
  induction pos with
  | nil => exact fun s h => h
  | cons p pos ih =>
      intro s h
      have h' := ih _ h
      rw [moveLast] at h'
      split at h'
      · rcases List.mem_or_eq_of_mem_set h' with h' | rfl
        · exact h'
        · exact List.mem_of_getElem? ‹_›
      · exact h'

lemma length_moveLast_foldl {α : Type} (pos : List ℕ) :
    ∀ s : List α × ℕ, (pos.foldl moveLast s).1.length = s.1.length := by
  induction pos with
  | nil => exact fun s => rfl
  | cons p pos ih =>
      intro s
      rw [List.foldl_cons, ih, moveLast]
      split
      · rw [List.length_set]
      · rfl

/-- The loop of a delete does to the cells of a column what it does to the rows. -/
lemma deleteTurn_foldlM_map {α : Type} (g : α → ℤ) {pos : List ℕ} {rows : List α} {f : DataFile}
    (hcells : f.cells = rows.map g) (hlen : pos.length ≤ f.m.size)
    (hpos : ∀ p ∈ pos, p < rows.length) :
    ∃ f', pos.foldlM deleteTurn f = .ok f' ∧
      f'.m = { f.m with size := f.m.size - pos.length } ∧
      f'.cells = (pos.foldl moveLast (rows, f.m.size)).1.map g := by
  have hstep : ∀ pre p post cells last, pos = pre ++ p :: post →
      cells[f.m.size - (pre.length + 1)]? = some last →
      (∃ rs, pre.foldl moveLast (rows, f.m.size) = (rs, f.m.size - pre.length) ∧
        cells = rs.map g) →
      ∃ rs, (pre ++ [p]).foldl moveLast (rows, f.m.size)
          = (rs, f.m.size - (pre ++ [p]).length) ∧
        writeAt 0 cells p last = rs.map g := by
    rintro pre p post cells last hsplit hlast ⟨rs, hmoved, rfl⟩
    have hrows : rs.length = rows.length := by
      rw [← length_moveLast_foldl pre (rows, f.m.size), hmoved]
    have hp : p < rs.length := by
      rw [hrows]
      exact hpos p (by rw [hsplit]; exact List.mem_append_right _ List.mem_cons_self)
    rw [List.getElem?_map, Option.map_eq_some_iff] at hlast
    obtain ⟨r, hr, rfl⟩ := hlast
    refine ⟨rs.set p r, ?_, ?_⟩
    · rw [List.foldl_append, hmoved, List.foldl_cons, List.foldl_nil, moveLast,
        show f.m.size - pre.length - 1 = f.m.size - (pre.length + 1) by omega, hr,
        List.length_append, List.length_singleton]
    · rw [writeAt_of_lt _ (by rw [List.length_map]; exact hp), List.map_set]
  obtain ⟨f', hok, hm, rs, hmoved, hcells'⟩ :=
    deleteTurn_foldlM_ok hlen hstep ⟨rows, rfl, hcells⟩
  exact ⟨f', hok, hm, by rw [hmoved, hcells']⟩

/-- The column `name` of a list of rows, of which `n` are counted. -/
structure ColumnOf (rows : List Row) (n : ℕ) (name : String) (c : Column) : Prop where
  type : c.data.m.type = .unsorted
  size : c.data.m.size = n
  cells : c.data.cells = rows.map fun r => r name

namespace ColumnOf

variable {rows : List Row} {n : ℕ} {name : String} {c : Column}

lemma stored_getElem? (h : ColumnOf rows n name c) {i : ℕ} (hi : i < n) :
    c.data.stored[i]? = rows[i]?.map fun r => r name := by
  rw [← DataFile.getElem?_cells (by rw [h.size]; exact hi), h.cells, List.getElem?_map]

lemma makeNew (name : String) : ColumnOf [] 0 name (Column.makeNew .unsorted) := ⟨rfl, rfl, rfl⟩

/-- An insert adds a cell at the end and counts one row more. -/
lemma insertHelper (h : ColumnOf rows n name c) (r : Row) :
    ∃ c', ColumnDb.insertHelper c (r name) = .ok c' ∧
      ColumnOf (rows ++ [r]) (n + 1) name c' := by
  refine ⟨{ c with data := appendValueToFile c.data (r name) }, ?_, h.type, ?_, ?_⟩
  · rw [ColumnDb.insertHelper, h.type]
  · exact congrArg (· + 1) h.size
  · rw [List.map_append, ← h.cells]
    rfl

lemma deleteHelper (h : ColumnOf rows n name c) {pos : List ℕ} (hlen : pos.length ≤ n)
    (hpos : ∀ p ∈ pos, p < rows.length) :
    ∃ c', ColumnDb.deleteHelper c pos = .ok c' ∧
      ColumnOf (pos.foldl moveLast (rows, n)).1 (n - pos.length) name c' := by
  obtain ⟨f', hok, hm, hcells⟩ := deleteTurn_foldlM_map (fun r : Row => r name)
    h.cells (by rw [h.size]; exact hlen) hpos
  rw [h.size] at hm hcells
  refine ⟨{ c with data := f' }, ?_, by rw [hm]; exact h.type, by rw [hm], hcells⟩
  rw [ColumnDb.deleteHelper, if_pos h.type, hok, Outcome.ok_bind]

/-- Loading a fresh column puts the values of the rows into it. -/
lemma loadColumn {ints : List (List ℤ)} {i : ℕ} (h : ColumnOf [] 0 name c)
    (hrows : ints.map (fun row => row[i]?) = rows.map fun r => some (r name)) :
    ∃ c', ColumnDb.loadColumn ints i c = .ok c' ∧ ColumnOf rows rows.length name c' := by
  have hvals : (ints.mapM fun row => fetch .bounds row i) = .ok (rows.map fun r => r name) := by
    induction ints generalizing rows with
    | nil =>
        obtain rfl := List.map_eq_nil_iff.mp hrows.symm
        rfl
    | cons row ints ih =>
        cases rows with
        | nil => cases hrows
        | cons r rows =>
            obtain ⟨hrow, hrest⟩ := List.cons_eq_cons.mp hrows
            rw [List.mapM_cons, fetch_eq_ok.mpr hrow, Outcome.ok_bind, ih hrest]
            rfl
  rw [ColumnDb.loadColumn, hvals, Outcome.ok_bind]
  exact ⟨_, rfl, h.type, List.length_map _, by simp [h.cells]⟩

end ColumnOf

/-! ### The runs of a table -/

/-- The commands that change a table. -/
inductive TableOp where
  | insert (vals : List (String × ℤ))
  | delete (colNames : List String) (pos : List ℕ)

namespace TableOp

/-- What a command does to the disk. -/
def run (d : Disk) : TableOp → Outcome Disk
  | .insert vals => insertWork d vals
  | .delete colNames pos => deleteWork d colNames pos

/-- A command that concerns the whole table: an insert has one value for each column, a
delete names every column and strictly increasing positions below the current size. -/
def Valid (names : List String) (d : Disk) : TableOp → Prop
  | .insert vals => (vals.map Prod.fst).Perm names
  | .delete colNames pos =>
      colNames.Perm names ∧ pos.Pairwise (· < ·) ∧
        ∀ name ∈ names, ∀ c, d name = some c → ∀ p ∈ pos, p < c.data.m.size

/-- The rows a command supplies. -/
def supplies : TableOp → List Row
  | .insert vals => [rowOf vals]
  | .delete _ _ => []

end TableOp

/-- A load of all columns of the table. -/
def LoadsAll (names colNames : List String) (intsBuffer : List (List ℤ)) : Prop :=
  colNames.Perm names ∧ ∀ row ∈ intsBuffer, row.length = colNames.length

/-- The runs of a table: it is created, loaded at most once and before anything else, and
then changed by commands that concern the whole table. The list holds the rows supplied so
far. -/
inductive TableRun (d₀ : Disk) (names : List String) : Disk → List Row → Prop where
  | create : TableRun d₀ names (createTable d₀ names) []
  | load {n : Node} {colNames : List String} {intsBuffer : List (List ℤ)} {d : Disk}
      (hall : LoadsAll names colNames intsBuffer)
      (hload : loadHelper n (createTable d₀ names) colNames intsBuffer = .ok d) :
      TableRun d₀ names d (intsBuffer.map fun row => rowOf (colNames.zip row))
  | step {d d' : Disk} {supplied : List Row} {op : TableOp} (h : TableRun d₀ names d supplied)
      (hvalid : op.Valid names d) (hrun : op.run d = .ok d') :
      TableRun d₀ names d' (supplied ++ op.supplies)

/-- The columns of a table are the columns of one list of rows, with the stale cells, and
each of these rows was supplied. -/
def Together (names : List String) (d : Disk) (supplied : List Row) : Prop :=
  ∃ rows n, n ≤ rows.length ∧ (∀ r ∈ rows, r ∈ supplied) ∧
    ∀ name ∈ names, ∃ c, d name = some c ∧ ColumnOf rows n name c

/-- A command whose step takes the columns of `rows` to those of `rows'` keeps the columns
together. -/
lemma Together.of_steps {names : List String} {d : Disk} {supplied : List Row} {α : Type}
    {key : α → String} {step : α → Column → Outcome Column} {xs : List α} (rows' : List Row)
    (n' : ℕ) (hnodup : names.Nodup) (hperm : (xs.map key).Perm names) (hn : n' ≤ rows'.length)
    (hmem : ∀ r ∈ rows', r ∈ supplied)
    (hsteps : ∀ x ∈ xs, ∃ c c', d (key x) = some c ∧ step x c = .ok c' ∧
      ColumnOf rows' n' (key x) c') :
    ∃ d', xs.foldlM (fun d x => onColumn d (key x) (step x)) d = .ok d' ∧
      Together names d' supplied := by
  choose! c c' hc hstep hcol using hsteps
  obtain ⟨d', hok, hin, -⟩ := foldlM_onColumn c' xs d (hperm.nodup_iff.mpr hnodup)
    fun x hx => ⟨c x, hc x hx, hstep x hx⟩
  refine ⟨d', hok, rows', n', hn, hmem, fun name hname => ?_⟩
  obtain ⟨x, hx, rfl⟩ := List.mem_map.mp (hperm.mem_iff.mpr hname)
  exact ⟨c' x, hin x hx, hcol x hx⟩

namespace Together

variable {names : List String} {d : Disk} {supplied : List Row}

lemma createTable (d₀ : Disk) (names : List String) :
    Together names (createTable d₀ names) [] :=
  ⟨[], 0, le_rfl, by simp, fun name hname =>
    ⟨_, createTable_of_mem (Or.inl hname), ColumnOf.makeNew name⟩⟩

/-- An insert of one value for each column adds one row. -/
lemma insertWork (hnodup : names.Nodup) (h : Together names d supplied)
    {vals : List (String × ℤ)} (hvals : (vals.map Prod.fst).Perm names) :
    ∃ d', insertWork d vals = .ok d' ∧ Together names d' (supplied ++ [rowOf vals]) := by
  obtain ⟨rows, n, hn, hmem, hcols⟩ := h
  refine of_steps (rows ++ [rowOf vals]) (n + 1) hnodup hvals (by simpa using hn)
    (fun r hr => ?_) fun x hx => ?_
  · rcases List.mem_append.mp hr with hr | hr
    · exact List.mem_append_left _ (hmem r hr)
    · exact List.mem_append_right _ hr
  · obtain ⟨c, hc, hcol⟩ := hcols x.1 (hvals.mem_iff.mp (List.mem_map_of_mem hx))
    obtain ⟨c', hok, hcol'⟩ := hcol.insertHelper (rowOf vals)
    rw [rowOf_of_mem (hvals.nodup_iff.mpr hnodup) hx] at hok
    exact ⟨c, c', hc, hok, hcol'⟩

/-- A delete of the same positions in every column moves whole rows. -/
lemma deleteWork (hnodup : names.Nodup) (hne : names ≠ []) (h : Together names d supplied)
    {colNames : List String} {pos : List ℕ} (hcols : colNames.Perm names)
    (hinc : pos.Pairwise (· < ·))
    (hpos : ∀ name ∈ names, ∀ c, d name = some c → ∀ p ∈ pos, p < c.data.m.size) :
    ∃ d', deleteWork d colNames pos = .ok d' ∧ Together names d' supplied := by
  obtain ⟨rows, n, hn, hmem, hall⟩ := h
  have hlt : ∀ p ∈ pos, p < n := by
    obtain ⟨name, hname⟩ := List.exists_mem_of_ne_nil names hne
    obtain ⟨c, hc, hcol⟩ := hall name hname
    intro p hp
    rw [← hcol.size]
    exact hpos name hname c hc p hp
  have hlen := length_le_of_increasing hinc hlt
  have hcols' : (colNames.map id).Perm names := by rwa [List.map_id]
  refine of_steps (pos.foldl moveLast (rows, n)).1 (n - pos.length) hnodup hcols' ?_
    (fun r hr => hmem r (mem_moveLast_foldl pos _ hr)) fun name hname => ?_
  · rw [length_moveLast_foldl]
    exact (Nat.sub_le _ _).trans hn
  · obtain ⟨c, hc, hcol⟩ := hall name (hcols.mem_iff.mp hname)
    obtain ⟨c', hok, hcol'⟩ := hcol.deleteHelper hlen fun p hp => (hlt p hp).trans_le hn
    exact ⟨c, c', hc, hok, hcol'⟩

/-- A load of all columns of a fresh table supplies the loaded rows. -/
lemma loadHelper (d₀ : Disk) (hnodup : names.Nodup) (hne : names ≠ []) (n : Node)
    {colNames : List String} {intsBuffer : List (List ℤ)}
    (hall : LoadsAll names colNames intsBuffer) :
    ∃ d', loadHelper n (ColumnDb.createTable d₀ names) colNames intsBuffer = .ok d' ∧
      Together names d' (intsBuffer.map fun row => rowOf (colNames.zip row)) := by
  obtain ⟨hcols, hlen⟩ := hall
  have hnodup' : colNames.Nodup := hcols.nodup_iff.mpr hnodup
  have hfresh : ∀ name ∈ colNames,
      ColumnDb.createTable d₀ names name = some (Column.makeNew .unsorted) :=
    fun name hname => createTable_of_mem (Or.inl (hcols.mem_iff.mp hname))
  have hstep : ∀ x ∈ colNames.zipIdx, ∃ c c', ColumnDb.createTable d₀ names x.1 = some c ∧
      loadColumn intsBuffer x.2 c = .ok c' ∧
      ColumnOf (intsBuffer.map fun row => rowOf (colNames.zip row))
        (intsBuffer.map fun row => rowOf (colNames.zip row)).length x.1 c' := by
    intro x hx
    have hget := List.mk_mem_zipIdx_iff_getElem?.mp hx
    obtain ⟨hi, hx₁⟩ := List.getElem?_eq_some_iff.mp hget
    have hcells : intsBuffer.map (fun row => row[x.2]?)
        = (intsBuffer.map fun row => rowOf (colNames.zip row)).map fun r => some (r x.1) := by
      rw [List.map_map]
      refine List.map_congr_left fun row hrow => ?_
      have hi' : x.2 < row.length := by rw [hlen row hrow]; exact hi
      have hmem : (x.1, row[x.2]) ∈ colNames.zip row := by
        rw [List.mem_iff_getElem?]
        exact ⟨x.2, by rw [List.getElem?_zip_eq_some]; exact ⟨hget, List.getElem?_eq_getElem hi'⟩⟩
      have hkeys : ((colNames.zip row).map Prod.fst).Nodup := by
        rwa [List.map_fst_zip (hlen row hrow).ge]
      rw [Function.comp_apply, rowOf_of_mem hkeys hmem, List.getElem?_eq_getElem hi']
    obtain ⟨c', hc', hcol⟩ := (ColumnOf.makeNew x.1).loadColumn hcells
    exact ⟨_, c', hfresh x.1 (List.mem_of_getElem? hget), hc', hcol⟩
  have hkeys : (colNames.zipIdx.map Prod.fst).Perm names := by rwa [List.zipIdx_map_fst]
  obtain ⟨d', hok, htogether⟩ := of_steps _ _ hnodup hkeys le_rfl (fun r hr => hr) hstep
  refine ⟨d', ?_, htogether⟩
  cases hnames : colNames with
  | nil => exact absurd (hnames ▸ hcols).symm.eq_nil hne
  | cons first rest =>
      rw [← hnames]
      have hfirst : fetch .bounds colNames 0 = .ok first := by rw [hnames]; rfl
      rw [ColumnDb.loadHelper, loadHelperBy, hfirst, Outcome.ok_bind, initCol,
        hfresh first (by rw [hnames]; exact List.mem_cons_self)]
      simp only [Outcome.ok_bind]
      rw [if_pos (show (Column.makeNew .unsorted).data.m.type = .unsorted from rfl), hok,
        Outcome.ok_bind, if_neg (by decide)]

end Together

/-- Every run of a table keeps its columns together. -/
lemma TableRun.together {d₀ : Disk} {names : List String} (hnodup : names.Nodup)
    (hne : names ≠ []) {d : Disk} {supplied : List Row} (h : TableRun d₀ names d supplied) :
    Together names d supplied := by
  induction h with
  | create => exact Together.createTable d₀ names
  | load hall hload =>
      obtain ⟨d', hok, htogether⟩ := Together.loadHelper d₀ hnodup hne _ hall
      rw [hload] at hok
      cases hok
      exact htogether
  | @step d d' supplied op h hvalid hrun ih =>
      cases op with
      | insert vals =>
          obtain ⟨d'', hok, htogether⟩ := ih.insertWork hnodup hvalid
          rw [TableOp.run, hok] at hrun
          cases hrun
          exact htogether
      | delete colNames pos =>
          obtain ⟨hcols, hinc, hpos⟩ := hvalid
          obtain ⟨d'', hok, htogether⟩ := ih.deleteWork hnodup hne hcols hinc hpos
          rw [TableOp.run, hok] at hrun
          cases hrun
          rw [TableOp.supplies, List.append_nil]
          exact htogether

/-- All columns have the same size, and every row across them was supplied as a whole. -/
def WholeRows (names : List String) (d : Disk) (supplied : List Row) : Prop :=
  ∃ n, (∀ name ∈ names, ∃ c, d name = some c ∧ c.data.m.size = n) ∧
    ∀ i < n, ∃ r ∈ supplied, ∀ name ∈ names, ∀ c, d name = some c →
      c.data.stored[i]? = some (r name)

/-- **No row is torn.** After every command of every run of a table of UNSORTED columns, all
columns have the same size and every row is one that a single insert or a single loaded row
supplied; and no command of the table fails. -/
theorem tableRun_whole_rows (d₀ : Disk) (names : List String) (hnodup : names.Nodup)
    (hne : names ≠ []) :
    (∀ d supplied, TableRun d₀ names d supplied →
      WholeRows names d supplied ∧
      ∀ op : TableOp, op.Valid names d → ∃ d', op.run d = .ok d') ∧
    ∀ n colNames intsBuffer, LoadsAll names colNames intsBuffer →
      ∃ d, loadHelper n (createTable d₀ names) colNames intsBuffer = .ok d := by
  refine ⟨fun d supplied hrun => ⟨?_, fun op hvalid => ?_⟩, fun n colNames intsBuffer hall => ?_⟩
  · obtain ⟨rows, n, hn, hmem, hcols⟩ := hrun.together hnodup hne
    refine ⟨n, fun name hname => ?_, fun i hi => ?_⟩
    · obtain ⟨c, hc, hcol⟩ := hcols name hname
      exact ⟨c, hc, hcol.size⟩
    · refine ⟨rows[i], hmem _ (List.getElem_mem _), fun name hname c hc => ?_⟩
      obtain ⟨c', hc', hcol⟩ := hcols name hname
      rw [hc] at hc'
      cases hc'
      rw [hcol.stored_getElem? hi, List.getElem?_eq_getElem (by omega)]
      rfl
  · have htogether := hrun.together hnodup hne
    cases op with
    | insert vals =>
        obtain ⟨d', hok, -⟩ := htogether.insertWork hnodup hvalid
        exact ⟨d', hok⟩
    | delete colNames pos =>
        obtain ⟨hcols, hinc, hpos⟩ := hvalid
        obtain ⟨d', hok, -⟩ := htogether.deleteWork hnodup hne hcols hinc hpos
        exact ⟨d', hok⟩
  · obtain ⟨d, hok, -⟩ := Together.loadHelper d₀ hnodup hne n hall
    exact ⟨d, hok⟩

/-- `tableRun_whole_rows` at a table of two columns that is loaded with two rows, takes another one
and loses its first. -/
theorem twoColumns_whole_rows :
    ∃ d₁ d₂ d,
      loadHelper Node.zero (createTable (fun _ => none) ["a", "b"]) ["a", "b"] [[1, 2], [3, 4]]
        = .ok d₁ ∧
      insertWork d₁ [("a", 5), ("b", 6)] = .ok d₂ ∧ deleteWork d₂ ["a", "b"] [0] = .ok d ∧
      WholeRows ["a", "b"] d
        [rowOf [("a", 1), ("b", 2)], rowOf [("a", 3), ("b", 4)], rowOf [("a", 5), ("b", 6)]] := by
  have hsound := tableRun_whole_rows (fun _ => none) ["a", "b"] (by decide) (by decide)
  have hall : LoadsAll ["a", "b"] ["a", "b"] [[1, 2], [3, 4]] := ⟨List.Perm.refl _, by decide⟩
  obtain ⟨d₁, hload⟩ := hsound.2 Node.zero _ _ hall
  have hinsert : TableOp.Valid ["a", "b"] d₁ (.insert [("a", 5), ("b", 6)]) := List.Perm.refl _
  obtain ⟨d₂, hrun₂⟩ := (hsound.1 _ _ (.load hall hload)).2 _ hinsert
  have heval : (loadHelper Node.zero (createTable (fun _ => none) ["a", "b"]) ["a", "b"]
      [[1, 2], [3, 4]] >>= fun d => insertWork d [("a", 5), ("b", 6)] >>= fun d =>
      .ok ((d "a").map fun c => c.data.m.size, (d "b").map fun c => c.data.m.size))
        = .ok (some 3, some 3) := by decide +kernel
  have hwork : insertWork d₁ [("a", 5), ("b", 6)] = .ok d₂ := hrun₂
  rw [hload, Outcome.ok_bind, hwork, Outcome.ok_bind] at heval
  obtain ⟨ha, hb⟩ := Prod.mk.inj (Except.ok.inj heval)
  have hdelete : TableOp.Valid ["a", "b"] d₂ (.delete ["a", "b"] [0]) := by
    refine ⟨List.Perm.refl _, by decide, fun name hname c hc p hp => ?_⟩
    obtain rfl := List.mem_singleton.mp hp
    rcases List.mem_cons.mp hname with rfl | hname
    · rw [hc, Option.map_some, Option.some.injEq] at ha
      omega
    · obtain rfl := List.mem_singleton.mp hname
      rw [hc, Option.map_some, Option.some.injEq] at hb
      omega
  obtain ⟨d, hrun⟩ := (hsound.1 _ _ (.step (.load hall hload) hinsert hrun₂)).2 _ hdelete
  exact ⟨d₁, d₂, d, hload, hrun₂, hrun,
    (hsound.1 _ _ (.step (.step (.load hall hload) hinsert hrun₂) hdelete hrun)).1⟩

end ColumnDb
