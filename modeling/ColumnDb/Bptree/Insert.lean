import ColumnDb.Bptree.Node

/-!
Inserting into the B+ tree file (`bptree.c`).

`insertNode` follows `_insert_node`: a node with room takes the entry
(`addEntryToNode`), a full leaf may hand it to the leaf after it (`overflowNode`), and any
other full node is split, its right half becoming a new node whose first key, or the key
between the halves, goes to the parent. The split is cut into the steps of the source:
`tempKeys` and `tempPointers` are the arrays one entry larger, `splitLeft` and `splitRight`
the two halves, `reparent` the loop that gives the children of the right half their new
parent, `growRoot` the case of a root.

The recursion goes up through the parents read from the file, so it takes a bound on its
depth, for which `bptInsertRecord` passes the number of nodes.
-/

namespace ColumnDb

/-- `_add_entry_to_node`. In an interior node the second `memmove` copies one pointer more
than there are, and with `BPT_SIZE - 2` keys that one lands in the word of `is_leaf`. -/
def addEntryToNode (f : BptFile) (n : Node) (key : ℤ) (pointer : ℕ) : Outcome BptFile := do
  let pos ← getUpperBoundFromArray n.words n.size key
  let keys := (splice n.keys (pos + 1) ((n.keys.drop pos).take (n.size - pos))).set pos key
  if n.isLeaf then
    let pointers := splice n.pointers (pos + 1) ((n.pointers.drop pos).take (n.size - pos))
    .ok (writeNode f
      { n with keys := keys, pointers := pointers.set pos pointer, size := n.size + 1 })
  else
    let region :=
      if pos < n.size then
        splice n.region (pos + 2) ((n.region.drop (pos + 1)).take (n.size + 1 - pos))
      else n.region
    .ok (writeNode f
      { n with
        keys := keys
        pointers := (region.take bptSize).set (pos + 1) pointer
        isLeaf := region.getD bptSize 0 % 256 != 0
        size := n.size + 1 })

/-- `_make_new_leaf_or_node`: the header is written at once, the node is not. -/
def makeNewLeafOrNode (f : BptFile) (cm : ColumnMeta) (isLeaf : Bool) :
    BptFile × ColumnMeta × Node :=
  let cm' : ColumnMeta :=
    { cm with
      nextFree := cm.nextFree + 1
      size := if isLeaf then cm.size + 1 else cm.size }
  (writeCm f cm', cm', { Node.zero with isLeaf := isLeaf, pos := cm.nextFree })

/-- The leaf after a full leaf, when `_insert_node` would use it to hold the entry: it has
parent `0` and starts with the key. -/
def overflowNode (f : BptFile) (n : Node) (key : ℤ) : Outcome (Option Node) :=
  if n.isLeaf ∧ n.next ≠ 0 then do
    let next ← loadNode f n.next
    .ok (if next.parent = 0 ∧ next.keys.head? = some key then some next else none)
  else .ok none

/-- Appending to the overflow leaf in `_insert_node`. -/
def appendOverflow (f : BptFile) (cm : ColumnMeta) (next : Node) (key : ℤ) (pointer : ℕ) :
    Outcome BptFile :=
  if next.size < bptSize - 1 then
    .ok (writeCm (writeNode f
      { next with
        keys := next.keys.set next.size key
        pointers := next.pointers.set (next.size + 1) pointer
        size := next.size + 1 }) cm)
  else .error .assertion

/-- `temp_keys`: the keys of a full node with `key` at `pos`. -/
def tempKeys (n : Node) (pos : ℕ) (key : ℤ) : List ℤ :=
  n.keys.take pos ++ [key] ++ (n.keys.drop pos).take (n.size - pos)

/-- The index of the new pointer in `temp_pointers`: that of the key in a leaf, the next one
in an interior node. -/
def tempOffset (n : Node) (pos : ℕ) : ℕ := if n.isLeaf then pos else pos + 1

/-- `temp_pointers`: the pointers of a full node with `pointer` at its offset. -/
def tempPointers (n : Node) (pos : ℕ) (pointer : ℕ) : List ℕ :=
  n.pointers.take (tempOffset n pos) ++ [pointer]
    ++ (n.pointers.drop (tempOffset n pos)).take (n.size - pos)

/-- The left half of a split: the node itself with its first `BPT_SPLIT` keys. What the
arrays hold after the part in use stays as it was. -/
def splitLeft (n : Node) (keys : List ℤ) (pointers : List ℕ) (newPos : ℕ) : Node :=
  { n with
    keys := splice n.keys 0 (keys.take bptSplit)
    pointers := splice n.pointers 0 (pointers.take (if n.isLeaf then bptSplit else bptSplit + 1))
    size := bptSplit
    next := newPos }

/-- The right half of a split: the new node `new`. In an interior node the key between the
halves is in neither. -/
def splitRight (n new : Node) (keys : List ℤ) (pointers : List ℕ) : Node :=
  if n.isLeaf then
    { new with
      keys := splice new.keys 0 ((keys.drop bptSplit).take (bptSize - bptSplit))
      pointers := splice new.pointers 0 ((pointers.drop bptSplit).take (bptSize - bptSplit))
      size := bptSize - bptSplit
      next := n.next }
  else
    { new with
      keys := splice new.keys 0 ((keys.drop (bptSplit + 1)).take (bptSize - 1 - bptSplit))
      pointers := splice new.pointers 0 ((pointers.drop (bptSplit + 1)).take (bptSize - bptSplit))
      size := bptSize - 1 - bptSplit
      next := n.next }

/-- The loop of `_insert_node` that gives the children of the right half their new parent. -/
def reparent (f : BptFile) (newPos : ℕ) (children : List ℕ) : Outcome BptFile :=
  children.foldlM
    (fun f c => do
      let child ← loadNode f c
      .ok (writeNode f { child with parent := newPos })) f

/-- Splitting the root in `_insert_node`: a new root over the two halves. The assertion comes
after the writes. -/
def growRoot (f : BptFile) (cm : ColumnMeta) (left right : Node) (keys : List ℤ) :
    Outcome BptFile :=
  let (f, cm, parent) := makeNewLeafOrNode f cm false
  let parent : Node :=
    { parent with
      keys := parent.keys.set 0 (keys.getD bptSplit 0)
      pointers := (parent.pointers.set 0 left.pos).set 1 right.pos
      size := 1 }
  let cm : ColumnMeta := { cm with root := parent.pos }
  let f := writeNode f { right with parent := parent.pos }
  let f := writeNode f { left with parent := parent.pos }
  let f := writeCm (writeNode f parent) cm
  if keys.getD bptSplit 0 ≠ keys.getD (bptSplit + 1) 0 then .ok f else .error .assertion

/-- `_insert_node`. -/
def insertNode : ℕ → BptFile → ColumnMeta → Node → ℤ → ℕ → Outcome BptFile
  | 0, _, _, _, _, _ => .error .diverge
  | fuel + 1, f, cm, n, key, pointer =>
      if n.size < bptSize - 1 then do
        let f ← addEntryToNode f n key pointer
        .ok (writeCm f cm)
      else do
        match ← overflowNode f n key with
        | some next => appendOverflow f cm next key pointer
        | none => do
            let pos ← getUpperBoundFromArray n.words n.size key
            let keys := tempKeys n pos key
            let pointers := tempPointers n pos pointer
            let (f, cm, new) := makeNewLeafOrNode f cm n.isLeaf
            let left := splitLeft n keys pointers new.pos
            let right := splitRight n new keys pointers
            let f ← if n.isLeaf then .ok f else reparent f new.pos right.children
            if n.parent = 0 then growRoot f cm left right keys
            else do
              let f := writeNode (writeNode f { right with parent := n.parent }) left
              let parent ← loadNode f n.parent
              insertNode fuel f cm parent (keys.getD bptSplit 0) right.pos

/-- `bpt_insert_record`. In an empty tree the root is written right after the header; the
second write of the header lands after the root, in the bytes of the next node to come. -/
def bptInsertRecord (f : BptFile) (key : ℤ) (rowIndex : ℕ) : Outcome BptFile :=
  if f.m.size = 0 then
    let (f, _, root) := makeNewLeafOrNode f f.m true
    let root : Node :=
      { root with
        keys := root.keys.set 0 key
        pointers := (root.pointers.set 0 rowIndex).set (bptSize - 1) 0
        size := 1 }
    .ok { f with nodes := writeAt Node.zero f.nodes 0 root }
  else do
    let root ← loadNode f f.m.root
    let leaf ← findLeaf (f.nodes.length + 1) f root key
    insertNode (f.nodes.length + 1) f f.m leaf key rowIndex

/-- A sequence of `bpt_insert_record` calls. -/
def bptInsertRecords (f : BptFile) (records : List (ℤ × ℕ)) : Outcome BptFile :=
  records.foldlM (fun f r => bptInsertRecord f r.1 r.2) f

end ColumnDb
