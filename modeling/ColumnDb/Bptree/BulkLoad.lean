import ColumnDb.Bptree.Insert

/-!
Building a B+ tree from sorted values (`bulk_load` in `bptree.c`).

The leaves are written first, then every layer of interior nodes over the one below, then the
root; `keys` and `pointers` hold, for the layer below, the first key and the position of each
node. One node `n` is filled and written again and again: what a shorter node does not fill
stays from the node before, and what was never filled is what `malloc` returned.

The counters of the source are `int`s. They stay below `2 ^ 31` for fewer than `2 ^ 31` values,
and are natural numbers here for these; what is said of a bulk load is said of as many.
-/

namespace ColumnDb

/-- The variables of `bulk_load`, for an array of fewer than `2 ^ 31` values. -/
structure BulkState where
  f : BptFile
  n : Node
  keys : List ℤ
  pointers : List ℕ
  totalNodes : ℕ
  counter : ℕ

/-- A turn of the loop over the leaves. The comparison of neighbours at the end has an effect
only with `TEST`, which is off; the value after the leaf is read all the same. -/
def bulkLeaf (sorted : List ℤ) (size numNodes : ℕ) (s : BulkState) (i : ℕ) :
    Outcome BulkState := do
  let key ← fetch .bounds sorted s.counter
  let keys := s.keys ++ [key]
  let pointers := s.pointers ++ [i]
  if sub32 (size + 1) bptSize < s.counter then do
    let vals ← slice sorted s.counter (size - s.counter)
    let n : Node :=
      { s.n with
        size := size - s.counter
        keys := splice s.n.keys 0 vals
        pointers := splice s.n.pointers 0 (List.range' s.counter (size - s.counter))
        next := 0
        pos := s.totalNodes
        parent := numNodes + i / bptSize }
    .ok { f := writeNode s.f n, n := n, keys := keys, pointers := pointers,
          totalNodes := s.totalNodes + 1, counter := size }
  else do
    let vals ← slice sorted s.counter (bptSize - 1)
    let _ ← fetch .bounds sorted (s.counter + (bptSize - 1))
    let n : Node :=
      { s.n with
        keys := splice s.n.keys 0 vals
        pointers := splice s.n.pointers 0 (List.range' s.counter (bptSize - 1))
        size := bptSize - 1
        next := s.totalNodes + 1
        pos := s.totalNodes
        parent := numNodes + i / bptSize }
    .ok { f := writeNode s.f n, n := n, keys := keys, pointers := pointers,
          totalNodes := s.totalNodes + 1, counter := s.counter + (bptSize - 1) }

/-- The arrays of an interior node in `bulk_load`, and the counter after it. Only a full node
sets its size. -/
def fillInner (numNodes : ℕ) (s : BulkState) (i : ℕ) : Outcome (Node × ℕ) :=
  if sub32 numNodes bptSize < s.counter then
    if numNodes = 1 then do
      let key ← fetch .bounds s.keys (i * bptSize)
      let before ← fetch .bounds s.pointers (i * bptSize - 1)
      let pointer ← fetch .bounds s.pointers (i * bptSize)
      .ok ({ s.n with
              keys := s.n.keys.set 0 key
              pointers := (s.n.pointers.set 0 before).set 1 pointer }, numNodes)
    else do
      let keys ← slice s.keys (i * bptSize + 1) (numNodes - s.counter - 1)
      let pointers ← slice s.pointers (i * bptSize) (numNodes - s.counter)
      .ok ({ s.n with
              keys := splice s.n.keys 0 keys
              pointers := splice s.n.pointers 0 pointers }, numNodes)
  else do
    let keys ← slice s.keys (i * bptSize + 1) (bptSize - 1)
    let pointers ← slice s.pointers (i * bptSize) bptSize
    .ok ({ s.n with
            keys := splice s.n.keys 0 keys
            pointers := splice s.n.pointers 0 pointers
            size := bptSize - 1 }, s.counter + bptSize)

/-- A turn of the loop over the nodes of an interior layer. -/
def bulkInner (numNodes newItrNumNodes : ℕ) (s : BulkState) (i : ℕ) : Outcome BulkState := do
  let (n, counter) ← fillInner numNodes s i
  let n : Node :=
    { n with
      pos := s.totalNodes
      next := 0
      parent := s.totalNodes + newItrNumNodes - i + i / bptSize }
  let key ← fetch .bounds s.keys (i * bptSize)
  .ok { f := writeNode s.f n, n := n, keys := s.keys.set i key,
        pointers := s.pointers.set i s.totalNodes, totalNodes := s.totalNodes + 1,
        counter := counter }

/-- The root. -/
def bulkRoot (cm : ColumnMeta) (numNodes : ℕ) (s : BulkState) : Outcome BptFile := do
  if numNodes ≤ bptSize then do
    let keys ← slice s.keys 1 (numNodes - 1)
    let pointers ← slice s.pointers 0 numNodes
    let n : Node :=
      { s.n with
        keys := splice s.n.keys 0 keys
        pointers := splice s.n.pointers 0 pointers
        parent := 0
        pos := s.totalNodes
        size := numNodes - 1 }
    .ok (writeCm (writeNode s.f n)
      { cm with nextFree := s.totalNodes + 1, root := n.pos })
  else .error .assertion

/-- The loop over the interior layers, and the root after it. -/
def bulkLayers (cm : ColumnMeta) : ℕ → ℕ → BulkState → Outcome BptFile
  | 0, _, _ => .error .diverge
  | fuel + 1, numNodes, s =>
      let newItrNumNodes := getCeil numNodes bptSize
      if newItrNumNodes = 1 then bulkRoot cm numNodes s
      else do
        let s ← (List.range newItrNumNodes).foldlM (bulkInner numNodes newItrNumNodes)
          { s with counter := 0 }
        bulkLayers cm fuel newItrNumNodes s

/-- `bulk_load`; `n` is the node that `malloc` returns, and `sorted` the memory from the array
on. -/
def bulkLoad (f : BptFile) (n : Node) (sorted : List ℤ) (size : ℕ) : Outcome BptFile := do
  let numNodes := getCeil size (bptSize - 1)
  let cm : ColumnMeta := { f.m with size := numNodes }
  let s ← (List.range numNodes).foldlM (bulkLeaf sorted size numNodes)
    { f := f, n := { n with isLeaf := true, size := bptSize - 1 }, keys := [], pointers := [],
      totalNodes := 0, counter := 0 }
  bulkLayers cm (numNodes + 1) numNodes { s with n := { s.n with isLeaf := false, next := 0 } }

end ColumnDb
