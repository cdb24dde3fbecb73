import ColumnDb.Session.Variables
import ColumnDb.Store.DynList

/-!
Reading the values of a variable (`helper_fetch_command.c`, `helper_aggregation.c`,
`helper_math_command.c`).

The values of a variable are read in three ways. `fetchMatchedFromBv` reads the column by
blocks, past its rows, and has room for as many values as the bit vector counts;
`fetchMatchedFromRowid` reads the rows of a list of ids; `tupleHelper` copies the values of
materialised variables, or reads the rows of the first column from every column.

`tupleHelper_materialized` and `tupleHelper_fetched`: what a tuple of one variable sends.
-/

namespace ColumnDb

/-! ### The functions of the source -/

/-- The name of a column is copied to `MAX_NAME_SIZE` bytes and its file is opened. -/
def openColumn (d : Disk) (name : String) : Outcome Column :=
  if maxNameSize ≤ name.length then .error .bounds
  else if name = "" then .error .assertion
  else initCol d name

/-- `load_col` of the fetched column of a variable, whose name may not be set. -/
def loadCol (d : Disk) (v : SessionVar) : Outcome Column :=
  match v.fetchedCol with
  | some name => openColumn d name
  | none => .error .undefined

/-- `fetch_matched_from_rowid`. -/
def fetchMatchedFromRowid (f : DataFile) (ids : List ℕ) : Outcome (List ℤ) :=
  ids.mapM fun i => fetch .bounds f.stored i

/-- A turn of the inner loop of `fetch_matched_from_bv`: a value at its index. -/
def fetchTurn (bv : BitVector) (result : List ℤ) (x : ℤ × ℕ) : Outcome (List ℤ) := do
  if ← isMarked bv x.2 then
    if result.length < bv.count then .ok (result ++ [x.1]) else .error .bounds
  else .ok result

/-- A turn of the outer loop of `fetch_matched_from_bv`: one block is read, as far as the file
goes. -/
def fetchBlock (cells : List ℤ) (bv : BitVector) (result : List ℤ) (u : ℕ) :
    Outcome (List ℤ) :=
  let buffer := (cells.drop (u * fileBlockSize)).take fileBlockSize
  if buffer = [] then .error .exit
  else (buffer.zipIdx (u * fileBlockSize)).foldlM (fetchTurn bv) result

/-- `fetch_matched_from_bv`: the array is allocated with zeros for the count of the vector, and the
matches, fewer than `2 ^ 31`, are counted in an `int`. -/
def fetchMatchedFromBv (f : DataFile) (bv : BitVector) : Outcome (List ℤ) := do
  let result ← (List.range (getCeil f.m.size fileBlockSize)).foldlM (fetchBlock f.cells bv) []
  .ok (result ++ List.replicate (bv.count - result.length) 0)

/-- The values of a materialised variable of a tuple, which needs as many as the first one. -/
def tupleValues (vars : Vars) (rowNum : ℕ) (name : String) : Outcome (List ℤ) := do
  let v ← getVariable vars name
  if v.valSize = rowNum ∧ v.val ≠ .null then v.val.readFirst rowNum else .error .assertion

/-- A turn of the inner loop of `tuple_helper`: a value at its row. -/
def tupleTurn (bv : BitVector) (result : DynList ℤ) (x : ℤ × ℕ) : Outcome (DynList ℤ) := do
  if ← isMarked bv x.2 then appendList result x.1 else .ok result

/-- A turn of the loop of `tuple_helper` over the fetched variables: `max_row` values of the
column are read at once. -/
def tupleColumn (d : Disk) (vars : Vars) (maxRow : ℕ) (result : DynList ℤ) (name : String) :
    Outcome (DynList ℤ) := do
  match ← findVariable vars name with
  | none => .error .assertion
  | some v =>
      if v.isFetched then do
        let c ← loadCol d v
        if c.data.cells.length < maxRow then .error .exit
        else (c.data.cells.take maxRow).zipIdx.foldlM (tupleTurn v.bv) result
      else .error .assertion

/-- `tuple_helper` on the names in the buffer: the copied values of materialised variables, or those
of the list of the worker. -/
def tupleHelper (d : Disk) (vars : Vars) (names : List String) : Outcome (List ℤ) :=
  match names with
  | [] => .error .undefined
  | first :: _ => do
      let v ← getVariable vars first
      if v.isMaterialized then
        if 0 < v.valSize then do
          let vals ← names.mapM (tupleValues vars v.valSize)
          .ok vals.flatten
        else .error .assertion
      else if v.isFetched then do
        let c ← loadCol d v
        if 0 < c.data.m.size then do
          let result ← names.foldlM (tupleColumn d vars c.data.m.size) (createList ℤ 4)
          .ok result.vals
        else .error .assertion
      else .error .assertion

/-- The worker's work for a TUPLE, which sends at least one value. -/
def tupleWork (d : Disk) (vars : Vars) (names : List String) : Outcome (List ℤ) := do
  let vals ← tupleHelper d vars names
  if vals = [] then .error .assertion else .ok vals

/-- The array and the size that `aggregate_vals` works on. -/
def aggregateOperand (d : Disk) (v : SessionVar) : Outcome (ValArray × ℕ) := do
  let c ← loadCol d v
  if v.isMaterialized then .ok (v.val, v.valSize)
  else do
    let vals ← fetchMatchedFromBv c.data v.bv
    .ok (.live vals, v.bv.count)

/-- `aggregate_vals`: the sum is divided as a `uint32_t`. -/
def aggregateVals (d : Disk) (v : SessionVar) (op : ℤ → ℤ → ℤ) (isAvg : Bool) : Outcome ℤ := do
  let (vals, size) ← aggregateOperand d v
  let first ← vals.read 0
  let val ← (List.range' 1 (size - 1)).foldlM (fun val i => do .ok (op val (← vals.read i))) first
  if isAvg then
    if size ≠ 0 then .ok (toInt32 (val % 2 ^ 32 / size)) else .error .assertion
  else .ok val

/-- The array that `aggregate_vals` read is freed, also when it belongs to the variable. -/
def freeAggregated (v : SessionVar) : SessionVar :=
  if v.isMaterialized then { v with val := .freed } else v

/-- `fptr_max`. -/
def fptrMax (a b : ℤ) : ℤ := if b < a then a else b

/-- `fptr_min`. -/
def fptrMin (a b : ℤ) : ℤ := if a < b then a else b

/-- `fptr_add`. -/
def fptrAdd (a b : ℤ) : ℤ := toInt32 (a + b)

/-- `fptr_sub`. -/
def fptrSub (a b : ℤ) : ℤ := toInt32 (a - b)

/-- `fptr_mul`. -/
def fptrMul (a b : ℤ) : ℤ := toInt32 (a * b)

/-- `fptr_div`: the one quotient that is no `int` is undefined. -/
def fptrDiv (a b : ℤ) : Outcome ℤ :=
  if b = 0 then .ok 0
  else if a = -2 ^ 31 ∧ b = -1 then .error .undefined
  else .ok (a.tdiv b)

/-- `math_op_on_var`: the values of the result. -/
def mathOpOnVar (op : ℤ → ℤ → Outcome ℤ) (size : ℕ) (m1 m2 : ValArray) : Outcome (List ℤ) :=
  (List.range size).mapM fun i => do op (← m1.read i) (← m2.read i)

/-! ### A tuple of one variable -/

/-- The number of values that TUPLE sends for one variable; a worker that fails sends none. -/
def tupleCount (d : Disk) (vars : Vars) (x : String) : ℕ :=
  match tupleWork d vars [x] with
  | .ok vals => vals.length
  | .error _ => 0

/-- The values at the marks of a vector. -/
def markedValues (bv : BitVector) (xs : List (ℤ × ℕ)) : List ℤ :=
  (xs.filter fun x => bv.bit x.2).map Prod.fst

/-- The inner loop of `tuple_helper` appends the values at the marks, as far as there are words. -/
lemma tupleTurn_foldlM {bv : BitVector} (xs : List (ℤ × ℕ)) : ∀ result : DynList ℤ,
    (∀ x ∈ xs, x.2 / 32 < bv.vec.length) →
      xs.foldlM (tupleTurn bv) result = appendAll result (markedValues bv xs) := by
  induction xs with
  | nil => exact fun result _ => rfl
  | cons x xs ih =>
      intro result hxs
      obtain ⟨hx, hxs⟩ := List.forall_mem_cons.mp hxs
      rw [List.foldlM_cons, tupleTurn, isMarked_of_div_lt hx, Outcome.ok_bind, markedValues,
        List.filter_cons]
      cases hbit : bv.bit x.2 with
      | true =>
          rw [if_pos rfl, if_pos rfl, List.map_cons, appendAll, List.foldlM_cons]
          exact congrArg _ (funext fun result => ih result hxs)
      | false =>
          rw [if_neg Bool.false_ne_true, if_neg Bool.false_ne_true]
          exact ih _ hxs

/-- The marks on a range of cells. -/
lemma length_markedValues (bv : BitVector) (cells : List ℤ) :
    (markedValues bv cells.zipIdx).length = (List.range cells.length).countP bv.bit := by
  rw [markedValues, List.length_map, ← List.countP_eq_length_filter, List.range_eq_range',
    ← List.zipIdx_map_snd 0 cells, List.countP_map]
  rfl

/-- The cells that a loop reads have words. -/
lemma zipIdx_word_iff (cells : List ℤ) (words : ℕ) :
    (∀ x ∈ cells.zipIdx, x.2 / 32 < words) ↔ cells.length ≤ 32 * words := by
  constructor
  · intro h
    by_contra hlt
    have hmem : (cells[cells.length - 1], cells.length - 1) ∈ cells.zipIdx :=
      List.mk_mem_zipIdx_iff_getElem?.mpr (List.getElem?_eq_getElem (by omega))
    have := h _ hmem
    omega
  · intro h x hx
    have := (List.getElem?_eq_some_iff.mp (List.mem_zipIdx_iff_getElem?.mp hx)).1
    omega

section Tuple

variable {d : Disk} {vars : Vars} {x : String} {v : SessionVar}

/-- A variable with as many values as its size says. -/
lemma tupleHelper_materialized {vals : List ℤ} (hv : getVariable vars x = .ok v)
    (hmaterialized : v.isMaterialized = true) (hval : v.val = .live vals)
    (hsize : vals.length = v.valSize) (hpos : 0 < v.valSize) :
    tupleHelper d vars [x] = .ok vals := by
  have hvals : tupleValues vars v.valSize x = .ok vals := by
    rw [tupleValues, hv, Outcome.ok_bind, if_pos ⟨rfl, by rw [hval]; simp⟩, hval,
      ValArray.readFirst, slice_of_le (by omega), ← hsize]
    simp
  rw [tupleHelper, hv, Outcome.ok_bind, if_pos hmaterialized, if_pos hpos, List.mapM_cons,
    hvals]
  simp

/-- A column that is read through a bit vector with a word for every row. -/
lemma tupleColumn_eq {c : Column} (hfound : findVariable vars x = .ok (some v))
    (hfetched : v.isFetched = true) (hc : loadCol d v = .ok c)
    (hword : c.data.m.size ≤ 32 * v.bv.vec.length) (result : DynList ℤ) :
    tupleColumn d vars c.data.m.size result x
      = appendAll result (markedValues v.bv c.data.stored.zipIdx) := by
  rw [tupleColumn, hfound, Outcome.ok_bind]
  simp only [if_pos hfetched, hc, Outcome.ok_bind, if_neg (not_lt.mpr c.data.size_le)]
  refine tupleTurn_foldlM _ result ((zipIdx_word_iff _ _).mpr ?_)
  rwa [← DataFile.stored, c.data.length_stored]

/-- A variable that is read from its column, through a bit vector with a word for every row: the
list takes the values at the marks. -/
lemma tupleHelper_fetched {c : Column} (hv : getVariable vars x = .ok v)
    (hmaterialized : v.isMaterialized = false) (hfetched : v.isFetched = true)
    (hc : loadCol d v = .ok c) (hpos : 0 < c.data.m.size)
    (hword : c.data.m.size ≤ 32 * v.bv.vec.length)
    (hfew : (List.range c.data.m.size).countP v.bv.bit ≤ 2 ^ 29) :
    ∃ vals, tupleHelper d vars [x] = .ok vals ∧
      vals.length = (List.range c.data.m.size).countP v.bv.bit := by
  have hfound : findVariable vars x = .ok (some v) := by
    obtain ⟨hname, hfind⟩ := getVariable_eq_ok.mp hv
    rw [findVariable, if_neg hname, hfind]
  have hlen : (markedValues v.bv c.data.stored.zipIdx).length
      = (List.range c.data.m.size).countP v.bv.bit := by
    rw [length_markedValues, c.data.length_stored]
  obtain ⟨l, hl, hvals⟩ := appendAll_four (hlen.trans_le hfew)
  refine ⟨l.vals, ?_, by rw [hvals, hlen]⟩
  rw [tupleHelper, hv, Outcome.ok_bind, hmaterialized, if_neg Bool.false_ne_true,
    if_pos hfetched, hc, Outcome.ok_bind, if_pos hpos, List.foldlM_cons,
    tupleColumn_eq hfound hfetched hc hword, hl]
  rfl

end Tuple

end ColumnDb
