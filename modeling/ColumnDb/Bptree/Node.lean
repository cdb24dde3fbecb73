import ColumnDb.Store.DynList
import ColumnDb.Store.Search

/-!
The B+ tree file and the search in it (`bptree.h`, `bptree.c`).

* `Node` is `node_t` field by field. A C write past the end of `pointers` lands in the word of
  `is_leaf`, which follows it, and a read past the end of `keys` reads `pointers`: `Node.words`
  is the memory from `keys` on, `Node.region` that from `pointers` to the end of that word.
* `BptFile` is the file, a header and the nodes at their positions.
* `findLeaf` goes down to the leftmost leaf that may hold a key, and `findRecordInRangeType`
  scans the chain of leaves from there, handing every row it finds to `put`: a list of ids
  for `find_record_in_range_id`, a bit vector for `find_record_in_range`.
* `foundRows` are the rows that it hands over, however many they are.

The two loops that follow positions read from the file take a bound on the number of their
turns, for which the callers pass the number of nodes of the file.
-/

namespace ColumnDb

/-- `BPT_SIZE`, the number of children of a full interior node. -/
def bptSize : ℕ := 128

/-- `BPT_SPLIT`, the number of keys the left node keeps in a split. -/
def bptSplit : ℕ := bptSize / 2

/-- `node_t`; in a leaf `pointers` are rows, in an interior node positions of children. -/
structure Node where
  keys : List ℤ
  pointers : List ℕ
  isLeaf : Bool
  parent : ℕ
  size : ℕ
  next : ℕ
  pos : ℕ
  deriving DecidableEq, Repr

/-- The sizes of the arrays of a `node_t`. -/
structure NodeShape (n : Node) : Prop where
  keys : n.keys.length = 127
  pointers : n.pointers.length = 128

namespace Node

/-- A node of zero bytes. -/
def zero : Node where
  keys := List.replicate (bptSize - 1) 0
  pointers := List.replicate bptSize 0
  isLeaf := false
  parent := 0
  size := 0
  next := 0
  pos := 0

/-- The memory from `keys` on, as integers: the keys, then the bits of the pointers. -/
def words (n : Node) : List ℤ := n.keys ++ n.pointers.map fun p : ℕ => Int.bmod p (2 ^ 32)

/-- The memory from `pointers` on, up to the word that holds `is_leaf`. -/
def region (n : Node) : List ℕ := n.pointers ++ [n.isLeaf.toNat]

/-- The keys in use. -/
def seps (n : Node) : List ℤ := n.keys.take n.size

/-- The children of an interior node. -/
def children (n : Node) : List ℕ := n.pointers.take (n.size + 1)

/-- The entries of a leaf, each key with its row. -/
def entries (n : Node) : List (ℤ × ℕ) := (n.keys.zip n.pointers).take n.size

end Node

/-- The file of a B+ tree. -/
structure BptFile where
  m : ColumnMeta
  nodes : List Node
  deriving DecidableEq, Repr

namespace BptFile

/-- The file that `make_new_column_file` creates next to that of the values. -/
def makeNew : BptFile where
  m := { type := .bptree, size := 0, nextFree := 0, root := 0 }
  nodes := []

end BptFile

/-- `_load_node`: a position outside the file exits. -/
def loadNode (f : BptFile) (pos : ℕ) : Outcome Node := fetch .exit f.nodes pos

/-- `_write_node`. -/
def writeNode (f : BptFile) (n : Node) : BptFile :=
  { f with nodes := writeAt Node.zero f.nodes n.pos n }

/-- `_write_cm`. -/
def writeCm (f : BptFile) (cm : ColumnMeta) : BptFile := { f with m := cm }

/-- The inner loop of `_find_leaf`: how many keys the search passes before one that is not
below `key`. -/
def findLeafCounter (n : Node) (key : ℤ) : ℕ := (n.seps.takeWhile fun k => k < key).length

/-- `_find_leaf`. -/
def findLeaf : ℕ → BptFile → Node → ℤ → Outcome Node
  | 0, _, _, _ => .error .diverge
  | fuel + 1, f, n, key =>
      if n.isLeaf then .ok n
      else do
        let pos ← fetch .bounds n.pointers (findLeafCounter n key)
        let child ← loadNode f pos
        findLeaf fuel f child key

/-- The keys that the search passes are below its key. -/
lemma lt_of_lt_findLeafCounter {n : Node} {key k : ℤ} {j : ℕ} (h : j < findLeafCounter n key)
    (hk : n.seps[j]? = some k) : k < key := by
  rw [findLeafCounter] at h
  generalize n.seps = l at h hk
  induction l generalizing j with
  | nil => cases hk
  | cons a l ih =>
      rw [List.takeWhile_cons] at h
      split_ifs at h with ha
      · cases j with
        | zero =>
            cases hk
            simpa using ha
        | succ j => exact ih (by simpa using h) hk
      · cases h

/-- The key at which the search stops is not below its key. -/
lemma le_of_eq_findLeafCounter {n : Node} {key k : ℤ}
    (hk : n.seps[findLeafCounter n key]? = some k) : key ≤ k := by
  rw [findLeafCounter] at hk
  generalize n.seps = l at hk
  induction l with
  | nil => cases hk
  | cons a l ih =>
      rw [List.takeWhile_cons] at hk
      split_ifs at hk with ha
      · exact ih hk
      · cases hk
        simpa using ha

lemma findLeafCounter_le (n : Node) (key : ℤ) : findLeafCounter n key ≤ n.size :=
  (List.takeWhile_sublist _).length_le.trans (List.length_take_le _ _)

section Scan

variable {σ : Type} (put : σ → ℕ → Outcome σ) (low high : ℤ)

/-- The loop over one leaf in `_find_record_in_range_type`; the last component says whether
a key above `high` was met. -/
def scanEntries : List (ℤ × ℕ) → σ → ℕ → Outcome (σ × ℕ × Bool)
  | [], acc, count => .ok (acc, count, false)
  | (key, row) :: es, acc, count =>
      if low ≤ key ∧ key ≤ high then do
        let acc ← put acc row
        scanEntries es acc (count + 1)
      else if high < key then .ok (acc, count, true)
      else scanEntries es acc count

/-- The loop over the chain of leaves in `_find_record_in_range_type`. The node at `next` is
read before the loop asks whether there is one. -/
def scanLeaves : ℕ → BptFile → Node → σ → ℕ → Outcome (σ × ℕ)
  | 0, _, _, _, _ => .error .diverge
  | fuel + 1, f, leaf, acc, count => do
      let (acc, count, done) ← scanEntries put low high leaf.entries acc count
      if done then .ok (acc, count)
      else do
        let next ← loadNode f leaf.next
        if leaf.next = 0 then .ok (acc, count) else scanLeaves fuel f next acc count

/-- `_find_record_in_range_type`. -/
def findRecordInRangeType (f : BptFile) (acc : σ) : Outcome (σ × ℕ) := do
  let root ← loadNode f f.m.root
  let lowLeaf ← findLeaf (f.nodes.length + 1) f root low
  scanLeaves put low high (f.nodes.length + 1) f lowLeaf acc 0

end Scan

/-- The rows that a search finds, one after the other, and their count. -/
def foundRows (f : BptFile) (low high : ℤ) : Outcome (List ℕ × ℕ) :=
  findRecordInRangeType (fun rows row => .ok (rows ++ [row])) low high f []

/-- `find_record_in_range_id` with a list from `create_list`: the rows whose key lies in
`[low, high]`, and their count. -/
def findRecordInRangeId (f : BptFile) (low high : ℤ) : Outcome (List ℕ × ℕ) := do
  let (ids, count) ← findRecordInRangeType appendList low high f (createList ℕ 4)
  .ok (ids.vals, count)

end ColumnDb
