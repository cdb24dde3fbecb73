import ColumnDb.Library.Outcome

/-!
Column files (`data_structures.h`, `helper_file_open.c`, `helper_file_read.c`).

A column is a file of a header, `column_meta_t`, followed by its values. The header counts
the rows of the column, and the file may hold further values after them, left behind by
deletes: `DataFile.stored` are the first `m.size` cells, the rows of the column, and
`DataFile.stale` is the rest. That a file holds at least the rows its header counts is a
field of `DataFile`.

Values are the integers of the source's `int`, and sizes, positions and rows, its `uint32_t`,
are natural numbers; a difference below zero wraps as it does in the source (`decr32`,
`sub32`).

A column has fewer than `2 ^ 31` rows, and its file as few cells. Then no sum wraps: a size and one
in `append_value_to_file`, a size rounded up to blocks or words in `get_ceil`, the two ends of a
search. And what the source keeps in an `int` is not negative: the positions of a delete or an
update, the index of an insert, the matches of a fetch and the marked rows that a join copies, the
counters of a load. Sizes beyond that are in the modules with 32-bit words (`WordVector`,
`WordMarks`, `ArraySearch`, `UpperBounds`).
-/

namespace ColumnDb

/-! ### Sizes (`config.h`, `helper_math.c`) -/

/-- `FILE_BLOCK_SIZE`, in integers. -/
def fileBlockSize : ℕ := 128

/-- `get_ceil`: the ceiling of `x / y`, for a sum that fits an unsigned int. -/
def getCeil (x y : ℕ) : ℕ := (x + y - 1) / y

/-- A value converted to an `int`. -/
def toInt32 (x : ℤ) : ℤ := Int.bmod x (2 ^ 32)

lemma toInt32_add (x y : ℤ) : toInt32 (toInt32 x + y) = toInt32 (x + y) := Int.bmod_add_bmod

lemma toInt32_of_range {x : ℤ} (h : -2 ^ 31 ≤ x ∧ x < 2 ^ 31) : toInt32 x = x :=
  Int.bmod_eq_of_le (by simpa using h.1) (by simpa using h.2)

lemma toInt32_range (x : ℤ) : -2 ^ 31 ≤ toInt32 x ∧ toInt32 x < 2 ^ 31 := by
  have hlow : -((2 ^ 32 : ℕ) / 2 : ℤ) ≤ toInt32 x := Int.le_bmod (by decide)
  have hhigh : toInt32 x < ((2 ^ 32 : ℕ) + 1) / 2 := Int.bmod_lt (by decide)
  norm_num at hlow hhigh
  exact ⟨hlow, hhigh⟩

/-- The decrement of a `uint32_t`. -/
def decr32 (x : ℕ) : ℕ := if x = 0 then 2 ^ 32 - 1 else x - 1

lemma decr32_of_pos {x : ℕ} (h : 0 < x) : decr32 x = x - 1 := if_neg (by omega)

/-- The difference of two `uint32_t`, which wraps below zero. -/
def sub32 (x y : ℕ) : ℕ := if y ≤ x then x - y else 2 ^ 32 + x - y

lemma sub32_of_le {x y : ℕ} (h : y ≤ x) : sub32 x y = x - y := if_pos h

/-- `x` blocks of size `y` starting below `n` are those that `get_ceil` counts. -/
lemma lt_getCeil_iff {x n y : ℕ} (hy : 0 < y) : x < getCeil n y ↔ x * y < n := by
  rw [getCeil, Nat.lt_iff_add_one_le, Nat.le_div_iff_mul_le hy, Nat.add_mul]
  omega

lemma le_getCeil_mul (n : ℕ) {y : ℕ} (hy : 0 < y) : n ≤ getCeil n y * y :=
  not_lt.mp fun h => absurd ((lt_getCeil_iff hy).mpr h) (lt_irrefl _)

/-! ### The header and the file -/

/-- `storage_t`. -/
inductive StorageType where
  | unsorted
  | sorted
  | bptree
  deriving DecidableEq, Repr

/-- `column_meta_t`: the type and the number of rows of a column; in the file of a
B+ tree, the number of leaves, of nodes, and the position of the root. -/
structure ColumnMeta where
  type : StorageType
  size : ℕ
  nextFree : ℕ
  root : ℕ
  deriving DecidableEq, Repr

/-- The file of a column's values: its header, the cells after it, and the invariant that
every row the header counts is there. -/
structure DataFile where
  m : ColumnMeta
  cells : List ℤ
  size_le : m.size ≤ cells.length
  deriving DecidableEq

namespace DataFile

/-- The rows of the column: the first `m.size` data cells. -/
def stored (f : DataFile) : List ℤ := f.cells.take f.m.size

/-- The cells a delete has left behind after the rows. -/
def stale (f : DataFile) : List ℤ := f.cells.drop f.m.size

@[simp] lemma length_stored (f : DataFile) : f.stored.length = f.m.size := by
  rw [stored, List.length_take, min_eq_left f.size_le]

lemma stored_append_stale (f : DataFile) : f.stored ++ f.stale = f.cells :=
  List.take_append_drop _ _

/-- A file without stale cells holds its rows and nothing else. -/
lemma stored_eq_cells {f : DataFile} (h : f.cells.length ≤ f.m.size) : f.stored = f.cells :=
  List.take_of_length_le h

lemma getElem?_cells {f : DataFile} {i : ℕ} (h : i < f.m.size) : f.cells[i]? = f.stored[i]? := by
  rw [stored, List.getElem?_take_of_lt h]

/-- `make_new_column_file`: a fresh column has no rows and no cells. -/
def makeNew (type : StorageType) : DataFile where
  m := { type := type, size := 0, nextFree := 0, root := 0 }
  cells := []
  size_le := le_rfl

@[simp] lemma stored_makeNew (type : StorageType) : (makeNew type).stored = [] := rfl

end DataFile

/-- What a column file holds while it is being written: its header may count rows that are not
there. -/
structure ColumnFile where
  m : ColumnMeta
  cells : List ℤ
  deriving DecidableEq

/-- The file of a column that nobody is writing. -/
def DataFile.file (f : DataFile) : ColumnFile := { m := f.m, cells := f.cells }

/-- `get_val_from_offset`: reading past the end of the file exits. -/
def getValFromOffset (cells : List ℤ) (offset : ℕ) : Outcome ℤ := fetch .exit cells offset

/-- A row of the column is read. -/
lemma getValFromOffset_of_lt {f : DataFile} {i : ℕ} (h : i < f.stored.length) :
    getValFromOffset f.cells i = .ok f.stored[i] := by
  rw [getValFromOffset, fetch_eq_ok, DataFile.getElem?_cells (by simpa using h),
    List.getElem?_eq_getElem h]

end ColumnDb
