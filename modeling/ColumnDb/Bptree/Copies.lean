import ColumnDb.Bptree.Grown
import ColumnDb.Bptree.Rooted
import ColumnDb.Library.Blocks

/-!
The copies by which a node takes an entry, each inside the array it is made in.

`entryInside` and `splitInside` make the same copies as `addEntryToNode` and as the split in
`insertNode`, and end with a fault at the first one that leaves its array.

* `addEntryToNode_inside_iff`: the insert into a node with room stays inside `keys` and
  `pointers`, and does what it should, exactly when the node is a leaf, or does not have `126`
  keys, or takes the entry behind all of them.
* `insertNode_splits`: a split stays inside its arrays, shares out the entries of the full node
  and the new one between the halves, and links them.
-/

namespace ColumnDb

/-! ### A node with room -/

section Entry

variable {n n' n'' : Node} {key : ℤ} {pointer : ℕ} {f : BptFile}

/-- The second `memmove` of `_add_entry_to_node` in an interior node, inside `pointers`. -/
def shiftChildren (n : Node) (pos : ℕ) : Outcome (List ℕ) :=
  if pos < n.size then copyBlock n.pointers (pos + 2) n.pointers (pos + 1) (n.size + 1 - pos)
  else .ok n.pointers

/-- The writes of `_add_entry_to_node`, inside `keys` and `pointers`. -/
def entryInside (n : Node) (key : ℤ) (pointer : ℕ) : Outcome Node := do
  let pos ← getUpperBoundFromArray n.words n.size key
  let keys ← copyBlock n.keys (pos + 1) n.keys pos (n.size - pos)
  let keys ← store keys pos key
  if n.isLeaf then do
    let pointers ← copyBlock n.pointers (pos + 1) n.pointers pos (n.size - pos)
    let pointers ← store pointers pos pointer
    .ok { n with keys := keys, pointers := pointers, size := n.size + 1 }
  else do
    let pointers ← shiftChildren n pos
    let pointers ← store pointers (pos + 1) pointer
    .ok { n with keys := keys, pointers := pointers, size := n.size + 1 }

/-- A block copied within the pointers leaves the word behind them. -/
lemma splice_region {i : ℕ} {xs : List ℕ} (hi : i + xs.length ≤ n.pointers.length) :
    splice n.region i xs = splice n.pointers i xs ++ [n.isLeaf.toNat] := by
  rw [splice, splice, Node.region, List.take_append_of_le_length (by omega),
    List.drop_append_of_le_length hi, List.append_assoc, List.append_assoc, List.append_assoc]

/-- The children moved inside `pointers`, with the word behind them as it was. -/
lemma shiftChildren_region {u : ℕ} {moved : List ℕ} (h : shiftChildren n u = .ok moved) :
    moved.length = n.pointers.length ∧ (if u < n.size then
      splice n.region (u + 2) ((n.region.drop (u + 1)).take (n.size + 1 - u)) else n.region)
      = moved ++ [n.isLeaf.toNat] := by
  rw [shiftChildren] at h
  split_ifs at h ⊢ with hlt
  · obtain ⟨hread, hwrite, hmoved⟩ := copyBlock_eq_ok.mp h
    have htake : (n.region.drop (u + 1)).take (n.size + 1 - u)
        = (n.pointers.drop (u + 1)).take (n.size + 1 - u) := by
      rw [Node.region, List.drop_append_of_le_length (by omega),
        List.take_append_of_le_length (by rw [List.length_drop]; omega)]
    refine ⟨length_of_copyBlock h, ?_⟩
    rw [htake, ← hmoved, splice_region]
    rw [List.length_take, List.length_drop]
    omega
  · cases h
    exact ⟨rfl, rfl⟩

/-- The writes that stay inside are those of `_add_entry_to_node`. -/
theorem addEntryToNode_of_inside (hn : NodeShape n) (h : entryInside n key pointer = .ok n') :
    addEntryToNode f n key pointer = .ok (writeNode f n') ∧ n'.pos = n.pos := by
  obtain ⟨u, hu, h⟩ := Outcome.bind_eq_ok.mp h
  obtain ⟨moved, hmoved, h⟩ := Outcome.bind_eq_ok.mp h
  obtain ⟨keys, hkeys, h⟩ := Outcome.bind_eq_ok.mp h
  obtain ⟨-, -, rfl⟩ := copyBlock_eq_ok.mp hmoved
  obtain ⟨-, rfl⟩ := store_eq_ok.mp hkeys
  rw [addEntryToNode, hu, Outcome.ok_bind]
  split_ifs at h with hleaf
  · rw [if_pos hleaf]
    obtain ⟨moved, hmoved, h⟩ := Outcome.bind_eq_ok.mp h
    obtain ⟨pointers, hpointers, h⟩ := Outcome.bind_eq_ok.mp h
    obtain ⟨-, -, rfl⟩ := copyBlock_eq_ok.mp hmoved
    obtain ⟨-, rfl⟩ := store_eq_ok.mp hpointers
    cases h
    exact ⟨rfl, rfl⟩
  · rw [if_neg hleaf]
    obtain ⟨moved, hmoved, h⟩ := Outcome.bind_eq_ok.mp h
    obtain ⟨pointers, hpointers, h⟩ := Outcome.bind_eq_ok.mp h
    obtain ⟨-, rfl⟩ := store_eq_ok.mp hpointers
    cases h
    obtain ⟨hlen, hregion⟩ := shiftChildren_region hmoved
    rw [hn.pointers] at hlen
    have hpointers : (moved ++ [n.isLeaf.toNat]).take bptSize = moved := List.take_left' hlen
    have hisLeaf : (moved ++ [n.isLeaf.toNat]).getD bptSize 0 = n.isLeaf.toNat := by
      rw [List.getD_eq_getElem?_getD, show bptSize = moved.length from hlen.symm]
      simp
    have hmark : (n.isLeaf.toNat % 256 != 0) = n.isLeaf := by
      cases n.isLeaf <;> rfl
    refine ⟨?_, rfl⟩
    simp only [hregion, hpointers, hisLeaf, hmark]

/-- What a node with room should become: the entry stands at `u`, in an interior node with its
child behind the child `u`. -/
structure EntryAdded (n n' : Node) (u : ℕ) (key : ℤ) (pointer : ℕ) : Prop where
  header : SameHeader n n'
  size : n'.size = n.size + 1
  seps : n'.seps = n.seps.insertIdx u key
  leaf : n.isLeaf = true → n'.entries = n.entries.insertIdx u (key, pointer)
  inner : n.isLeaf = false → n'.children = n.children.insertIdx (u + 1) pointer

/-- A node is read back from where it is written. -/
lemma writeNode_injective (hpos : n'.pos = n''.pos) (h : writeNode f n' = writeNode f n'') :
    n' = n'' := by
  have hget := congrArg (fun g : BptFile => g.nodes[n'.pos]?) h
  simp only [writeNode] at hget
  rw [getElem?_writeAt_self, hpos, getElem?_writeAt_self] at hget
  exact Option.some_inj.mp hget

lemma entryAdded_leaf (f : BptFile) (pointer : ℕ) (hn : NodeShape n) (hleaf : n.isLeaf = true)
    (hsize : n.size < 127) (hs : n.seps.Pairwise (· ≤ ·)) :
    ∃ n', addEntryToNode f n key pointer = .ok (writeNode f n') ∧
      EntryAdded n n' (n.seps.countP (· ≤ key)) key pointer := by
  obtain ⟨n', hadd, hheader, hsize', hentries⟩ :=
    addEntryToNode_leaf f key pointer hn hleaf hsize hs
  refine ⟨n', hadd, hheader, hsize', ?_, fun _ => hentries, fun hinner => ?_⟩
  · rw [Node.seps_eq_entries hheader.shape, hentries, List.map_insertIdx,
      ← Node.seps_eq_entries hn]
  · rw [hleaf] at hinner
    cases hinner

lemma entryAdded_inner (f : BptFile) (pointer : ℕ) (hn : NodeShape n) (hinner : n.isLeaf = false)
    (hsize : n.size < 127) (hs : n.seps.Pairwise (· ≤ ·)) (hmark : KeepsMark n key) :
    ∃ n', addEntryToNode f n key pointer = .ok (writeNode f n') ∧
      EntryAdded n n' (n.seps.countP (· ≤ key)) key pointer := by
  obtain ⟨n', hadd, hheader, hsize', hfirst, hbranches⟩ :=
    addEntryToNode_inner f pointer hn hinner hsize hs hmark
  refine ⟨n', hadd, hheader, hsize', ?_, fun hleaf => ?_, fun _ => ?_⟩
  · rw [Node.seps_eq_branches hheader.shape, hbranches, List.map_insertIdx,
      ← Node.seps_eq_branches hn]
  · rw [hinner] at hleaf
    cases hleaf
  · rw [Node.children_eq hheader.shape, hfirst, hbranches, List.map_insertIdx,
      Node.children_eq hn, List.insertIdx_succ_cons]

/-- The writes stay inside exactly when the last pointer has room behind it. -/
lemma entryInside_ok_iff (key : ℤ) (pointer : ℕ) (hn : NodeShape n) (hsize : n.size < 127)
    (hs : n.seps.Pairwise (· ≤ ·)) :
    (∃ n', entryInside n key pointer = .ok n') ↔
      n.isLeaf = true ∨ n.size ≠ 126 ∨ n.seps.countP (· ≤ key) = 126 := by
  have hu : n.seps.countP (· ≤ key) ≤ n.size :=
    List.countP_le_length.trans (List.length_take_le _ _)
  have hkeys := hn.keys
  have hpointers := hn.pointers
  rw [entryInside, Node.getUpperBound_words hn hsize.le hs, Outcome.ok_bind]
  set u := n.seps.countP (· ≤ key)
  have hmoved : ∀ {α : Type} (a : List α), 127 ≤ a.length →
      copyBlock a (u + 1) a u (n.size - u)
        = .ok (splice a (u + 1) ((a.drop u).take (n.size - u))) := by
    intro α a ha
    exact copyBlock_of_le (by omega) (by omega)
  have hlen : ∀ {α : Type} (a : List α), 127 ≤ a.length →
      u < (splice a (u + 1) ((a.drop u).take (n.size - u))).length := by
    intro α a ha
    rw [length_of_copyBlock (hmoved a ha)]
    omega
  rw [hmoved _ (by omega), Outcome.ok_bind, store_of_lt (hlen _ (by omega)), Outcome.ok_bind]
  split_ifs with hleaf
  · rw [hmoved _ (by omega), Outcome.ok_bind, store_of_lt (hlen _ (by omega)), Outcome.ok_bind]
    exact iff_of_true ⟨_, rfl⟩ (Or.inl hleaf)
  · rw [shiftChildren]
    constructor
    · rintro ⟨n', hok⟩
      obtain ⟨moved, hcopy, -⟩ := Outcome.bind_eq_ok.mp hok
      split_ifs at hcopy with hlt
      · have := (copyBlock_eq_ok.mp hcopy).2.1
        omega
      · omega
    · intro hroom
      have hroom := hroom.resolve_left hleaf
      split_ifs with hlt
      · have hcopy : copyBlock n.pointers (u + 2) n.pointers (u + 1) (n.size + 1 - u)
            = .ok (splice n.pointers (u + 2) ((n.pointers.drop (u + 1)).take (n.size + 1 - u))) :=
          copyBlock_of_le (by omega) (by omega)
        rw [hcopy, Outcome.ok_bind, store_of_lt (by rw [length_of_copyBlock hcopy]; omega)]
        exact ⟨_, rfl⟩
      · rw [Outcome.ok_bind, store_of_lt (by omega)]
        exact ⟨_, rfl⟩

/-- **An insert into a node with room** stays inside `keys` and `pointers`, leaves the header and
puts the entry behind those up to its key, exactly when the node is a leaf, or does not have
`126` keys, or takes the entry behind all of them. -/
theorem addEntryToNode_inside_iff (f : BptFile) (n : Node) (key : ℤ) (pointer : ℕ)
    (hn : NodeShape n) (hsize : n.size < bptSize - 1) (hs : n.seps.Pairwise (· ≤ ·)) :
    (∃ n', entryInside n key pointer = .ok n' ∧
        addEntryToNode f n key pointer = .ok (writeNode f n') ∧
        EntryAdded n n' (n.seps.countP (· ≤ key)) key pointer) ↔
      n.isLeaf = true ∨ n.size ≠ 126 ∨ n.seps.countP (· ≤ key) = 126 := by
  rw [← entryInside_ok_iff key pointer hn hsize hs]
  refine ⟨fun ⟨n', hok, _⟩ => ⟨n', hok⟩, fun ⟨n', hok⟩ => ?_⟩
  obtain ⟨hadd, hpos⟩ := addEntryToNode_of_inside (f := f) hn hok
  refine ⟨n', hok, hadd, ?_⟩
  have hroom := (entryInside_ok_iff key pointer hn hsize hs).mp ⟨n', hok⟩
  have hadded : ∃ n'', addEntryToNode f n key pointer = .ok (writeNode f n'') ∧
      EntryAdded n n'' (n.seps.countP (· ≤ key)) key pointer := by
    cases hleaf : n.isLeaf with
    | true => exact entryAdded_leaf f pointer hn hleaf hsize hs
    | false =>
        refine entryAdded_inner f pointer hn hleaf hsize hs fun h126 hlt => ?_
        rw [hleaf] at hroom
        rcases hroom with h | h | h
        · cases h
        · exact absurd h126 h
        · omega
  obtain ⟨n'', hadd', hadded⟩ := hadded
  rwa [writeNode_injective (hpos.trans hadded.header.pos.symm)
    (Except.ok.inj (hadd.symm.trans hadd'))]

/-- An interior node with `126` keys, and a pointer left behind its children. -/
def brimNode : Node :=
  { Node.zero with pointers := List.replicate 127 0 ++ [1], size := 126 }

lemma brimNode_seps : brimNode.seps = List.replicate 126 0 := List.take_replicate

lemma brimNode_shape : NodeShape brimNode := ⟨rfl, rfl⟩

lemma brimNode_sorted : brimNode.seps.Pairwise (· ≤ ·) := by
  rw [brimNode_seps]
  exact List.pairwise_replicate.mpr (Or.inr le_rfl)

/-- Where a key goes among the equal keys. -/
lemma brimNode_countP (key : ℤ) :
    brimNode.seps.countP (· ≤ key) = if 0 ≤ key then 126 else 0 := by
  rw [brimNode_seps, List.countP_replicate]
  simp

/-- `addEntryToNode_inside_iff` at a child that comes behind all others. -/
theorem lastChild_inside :
    ∃ n', entryInside brimNode 0 5 = .ok n' ∧
      addEntryToNode .makeNew brimNode 0 5 = .ok (writeNode .makeNew n') ∧
      EntryAdded brimNode n' (brimNode.seps.countP (· ≤ 0)) 0 5 :=
  (addEntryToNode_inside_iff .makeNew brimNode 0 5 brimNode_shape (by decide) brimNode_sorted).mpr
    (Or.inr (Or.inr (brimNode_countP 0)))

/-- A child in front of the others: the copy of the pointers leaves their array, and makes the
interior node a leaf. -/
theorem firstChild_overwrites_mark :
    NodeShape brimNode ∧ brimNode.isLeaf = false ∧ brimNode.size < bptSize - 1 ∧
      brimNode.seps.Pairwise (· ≤ ·) ∧ (∀ n', entryInside brimNode (-1) 5 ≠ .ok n') ∧
      ∃ n', addEntryToNode .makeNew brimNode (-1) 5 = .ok (writeNode .makeNew n') ∧
        n'.isLeaf = true := by
  refine ⟨brimNode_shape, rfl, by decide, brimNode_sorted, fun n' hok => ?_, ?_⟩
  · have hroom :=
      (entryInside_ok_iff (-1) 5 brimNode_shape (by decide) brimNode_sorted).mp ⟨n', hok⟩
    rw [brimNode_countP] at hroom
    revert hroom
    decide
  · obtain ⟨n', hadd, hheader, -⟩ :=
      addEntryToNode_moves .makeNew (-1) 5 brimNode_shape rfl (by decide) brimNode_sorted
    refine ⟨n', hadd, hheader.isLeaf.trans ?_⟩
    rw [brimNode_countP]
    rfl

end Entry

/-! ### A full node -/

section Split

variable {f : BptFile} {cm : ColumnMeta} {n : Node} {key : ℤ} {pointer u N : ℕ}

/-- The copies of a split, inside the arrays on the stack and those of the two nodes. `tempKeys`
and `tempPointers` are what the stack holds before, `N` is the position of the new node, and the
last component the key that is passed up. -/
def splitInside (n : Node) (N : ℕ) (key : ℤ) (pointer : ℕ) (tempKeys : List ℤ)
    (tempPointers : List ℕ) : Outcome (Node × Node × ℤ) := do
  let pos ← getUpperBoundFromArray n.words n.size key
  let tempKeys ← fillAround tempKeys n.keys pos (n.size - pos) key
  let tempPointers ← fillAround tempPointers n.pointers (tempOffset n pos) (n.size - pos) pointer
  let new := newNode n.isLeaf N
  let keys ← copyBlock n.keys 0 tempKeys 0 bptSplit
  let up ← fetch .bounds tempKeys bptSplit
  if n.isLeaf then do
    let newKeys ← copyBlock new.keys 0 tempKeys bptSplit (bptSize - bptSplit)
    let pointers ← copyBlock n.pointers 0 tempPointers 0 bptSplit
    let newPointers ← copyBlock new.pointers 0 tempPointers bptSplit (bptSize - bptSplit)
    .ok ({ n with keys := keys, pointers := pointers, size := bptSplit, next := N },
      { new with
        keys := newKeys
        pointers := newPointers
        size := bptSize - bptSplit
        next := n.next }, up)
  else do
    let newKeys ← copyBlock new.keys 0 tempKeys (bptSplit + 1) (bptSize - 1 - bptSplit)
    let pointers ← copyBlock n.pointers 0 tempPointers 0 (bptSplit + 1)
    let newPointers ← copyBlock new.pointers 0 tempPointers (bptSplit + 1) (bptSize - bptSplit)
    .ok ({ n with keys := keys, pointers := pointers, size := bptSplit, next := N },
      { new with
        keys := newKeys
        pointers := newPointers
        size := bptSize - 1 - bptSplit
        next := n.next }, up)

/-- **The copies of a split** stay inside their arrays, whatever the stack held. -/
theorem splitInside_ok {tk : List ℤ} {tp : List ℕ} (key : ℤ) (pointer N : ℕ) (hn : NodeShape n)
    (hsize : n.size = 127) (hs : n.seps.Pairwise (· ≤ ·)) (htk : tk.length = 128)
    (htp : tp.length = 129) (hu : u = n.seps.countP (· ≤ key)) :
    splitInside n N key pointer tk tp
      = .ok (leftHalf n u key pointer N, rightHalf n u key pointer N, separator n u key) := by
  have hu' : u ≤ 127 := hu ▸ hsize ▸ List.countP_le_length.trans (List.length_take_le _ _)
  have hkeys := hn.keys
  have hpointers := hn.pointers
  have hoffset : tempOffset n u + (127 - u) ≤ 128 := by
    rw [tempOffset]
    split_ifs <;> omega
  have hlen : (tempKeys n u key).length = 128 := length_tempKeys hn hsize hu'
  have htempKeys : fillAround tk n.keys u (n.size - u) key = .ok (tempKeys n u key) := by
    rw [fillAround_ok (by omega) (by omega),
      show tk.drop (u + 1 + (n.size - u)) = [] from List.drop_eq_nil_of_le (by omega),
      List.append_nil]
    rfl
  have htempPointers : fillAround tp n.pointers (tempOffset n u) (n.size - u) pointer
      = .ok (tempPointers n u pointer ++ tp.drop (tempOffset n u + 1 + (n.size - u))) := by
    rw [fillAround_ok (by omega) (by omega)]
    rfl
  set stale := tp.drop (tempOffset n u + 1 + (n.size - u))
  have hplen : (tempPointers n u pointer).length = tempOffset n u + (128 - u) := by
    simp only [tempPointers, List.length_append, List.length_take, List.length_drop,
      List.length_singleton]
    omega
  have hlen' : (tempPointers n u pointer ++ stale).length = 129 := by
    rw [List.length_append, hplen, List.length_drop, htp]
    omega
  have hstale : ∀ j k, j + k ≤ tempOffset n u + (128 - u) →
      ((tempPointers n u pointer ++ stale).drop j).take k
        = ((tempPointers n u pointer).drop j).take k := by
    intro j k hjk
    rw [List.drop_append_of_le_length (by omega),
      List.take_append_of_le_length (by rw [List.length_drop]; omega)]
  have hup : fetch .bounds (tempKeys n u key) bptSplit = .ok (separator n u key) := by
    rw [fetch_eq_ok, separator, List.getD_eq_getElem?_getD,
      List.getElem?_eq_getElem (by rw [hlen]; decide)]
    rfl
  have hzero : (newNode n.isLeaf N).keys.length = 127 ∧
      (newNode n.isLeaf N).pointers.length = 128 := ⟨rfl, rfl⟩
  rw [splitInside, Node.getUpperBound_words hn hsize.le hs, Outcome.ok_bind, ← hu, htempKeys,
    Outcome.ok_bind, htempPointers, Outcome.ok_bind,
    copyBlock_of_le (by rw [hlen]; decide) (by rw [hkeys]; decide), Outcome.ok_bind, hup,
    Outcome.ok_bind]
  split_ifs with hleaf
  · rw [copyBlock_of_le (by rw [hlen]; decide) (by rw [hzero.1]; decide), Outcome.ok_bind,
      copyBlock_of_le (by rw [hlen']; decide) (by rw [hpointers]; decide), Outcome.ok_bind,
      copyBlock_of_le (by rw [hlen']; decide) (by rw [hzero.2]; decide), Outcome.ok_bind]
    have h128 : tempOffset n u + (128 - u) = 128 := by
      rw [tempOffset, if_pos hleaf]
      omega
    rw [hstale _ _ (by rw [h128]; decide), hstale _ _ (by rw [h128]; decide)]
    simp only [leftHalf, splitLeft, rightHalf, splitRight, if_pos hleaf]
    rfl
  · rw [copyBlock_of_le (by rw [hlen]; decide) (by rw [hzero.1]; decide), Outcome.ok_bind,
      copyBlock_of_le (by rw [hlen']; decide) (by rw [hpointers]; decide), Outcome.ok_bind,
      copyBlock_of_le (by rw [hlen']; decide) (by rw [hzero.2]; decide), Outcome.ok_bind]
    have h129 : tempOffset n u + (128 - u) = 129 := by
      rw [tempOffset, if_neg hleaf]
      omega
    rw [hstale _ _ (by rw [h129]; decide), hstale _ _ (by rw [h129]; decide)]
    simp only [leftHalf, splitLeft, rightHalf, splitRight, if_neg hleaf]
    rfl

/-- What a split makes of a full node: the right half goes to `N`, and `up` is the key that is
passed up. -/
structure SplitNodes (n left right : Node) (u N : ℕ) (key : ℤ) (pointer : ℕ) (up : ℤ) : Prop where
  left_header : SameHeader { n with next := N } left
  right_header : SameHeader { newNode n.isLeaf N with next := n.next } right
  leaf : n.isLeaf = true → left.entries ++ right.entries = n.entries.insertIdx u (key, pointer) ∧
    right.seps.head? = some up
  inner : n.isLeaf = false → left.seps ++ up :: right.seps = n.seps.insertIdx u key ∧
    left.children ++ right.children = n.children.insertIdx (u + 1) pointer

/-- The halves of a full node. -/
theorem splitNodes_halves (key : ℤ) (pointer N : ℕ) (hn : NodeShape n) (hsize : n.size = 127)
    (hu : u ≤ 127) :
    SplitNodes n (leftHalf n u key pointer N) (rightHalf n u key pointer N) u N key pointer
      (separator n u key) := by
  have hH := halves u key pointer N hn
  refine ⟨hH.left_header, hH.right_header, fun hleaf => ?_, fun hinner => ?_⟩
  · obtain ⟨hleft, hright⟩ := split_leaf key pointer N hn hleaf hsize hu
    have hkeys : (n.entries.insertIdx u (key, pointer)).map Prod.fst = tempKeys n u key := by
      rw [List.map_insertIdx, ← Node.seps_eq_entries hn, tempKeys_eq hn hsize hu]
    have hlt : bptSplit < (tempKeys n u key).length := by
      rw [length_tempKeys hn hsize hu]
      decide
    refine ⟨by rw [hleft, hright, List.take_append_drop], ?_⟩
    rw [Node.seps_eq_entries hH.right_header.shape, hright, List.map_drop, hkeys, separator,
      List.head?_drop, List.getD_eq_getElem?_getD]
    change (tempKeys n u key)[bptSplit]? = _
    rw [List.getElem?_eq_getElem hlt]
    rfl
  · have hrow := split_inner key pointer N hn hinner hsize hu
    have hfences := congrArg fences hrow
    have hspots := congrArg spots hrow
    rw [fences_childRow, fences_append, fences_cons_inr, Node.fences_row hH.left_header.shape,
      Node.fences_row hH.right_header.shape, List.map_insertIdx, ← Node.seps_eq_branches hn]
      at hfences
    rw [spots_childRow, spots_append, spots_cons_inr,
      Node.spots_row_of_inner hH.left_header.shape (hH.left_header.isLeaf.trans hinner),
      Node.spots_row_of_inner hH.right_header.shape (hH.right_header.isLeaf.trans hinner),
      List.map_insertIdx] at hspots
    exact ⟨hfences.symm, by rw [← hspots, Node.children_eq hn, List.insertIdx_succ_cons]⟩

/-- What the file holds after a split: the halves below the parent `q`, the children of the right
one with their new parent, and, when the node is a leaf, the right one behind it in the chain. -/
structure StoredSplit (f g : BptFile) (n left right : Node) (N q : ℕ) : Prop where
  left_at : g.look n.pos = some { left with parent := q }
  right_at : g.look N = some { right with parent := q }
  children : n.isLeaf = false → ∀ c ∈ right.children,
    ∃ m, f.look c = some m ∧ g.look c = some { m with parent := N }
  others : ∀ x, x ≠ n.pos → x ≠ N → (n.isLeaf = true ∨ x ∉ right.children) → g.look x = f.look x
  chain : n.isLeaf = true → ∀ U V, (U ++ n.pos :: V).Nodup → N ∉ U ++ n.pos :: V →
    Linked f.look (U ++ n.pos :: V) → Linked g.look (U ++ n.pos :: N :: V)

/-- The other nodes keep the one after them. -/
lemma Cut.nextAt_others {t t' : ℕ → Option Node} {left right : Node} {p r : ℕ}
    (hc : Cut t t' n left right p r) {x : ℕ} (hx : x ≠ p) (hxr : x ≠ r) :
    nextAt t' x = nextAt t x := by
  rw [nextAt, nextAt, hc.others x hx hxr]
  cases t x with
  | none => rfl
  | some m =>
      rw [Option.map_some, Option.elim_some, Option.elim_some]
      split_ifs <;> rfl

/-- A split as a change of the stored nodes is one of the file. -/
lemma Cut.storedSplit {g : BptFile} {left right : Node} {q : ℕ} {up : ℤ}
    (hcut : Cut f.look g.look n { left with parent := q } { right with parent := q } n.pos N)
    (hnodes : SplitNodes n left right u N key pointer up)
    (hkids : n.isLeaf = false → ∀ c ∈ right.children, c ≠ n.pos ∧ ∃ m, f.look c = some m) :
    StoredSplit f g n left right N q := by
  have hright : spots ({ right with parent := q } : Node).row
      = if n.isLeaf then [] else right.children := by
    cases hleaf : n.isLeaf with
    | true =>
        rw [Node.row_of_leaf (hcut.right_isLeaf.trans hleaf), spots_keyRow, if_pos rfl]
    | false =>
        rw [Node.spots_row_of_inner hcut.right_sound.shape (hcut.right_isLeaf.trans hleaf),
          if_neg Bool.false_ne_true]
        rfl
  refine ⟨hcut.left_at, hcut.right_at, fun hinner c hc => ?_, fun x hx hxN hother => ?_,
    fun hleaf U V hnodup hN hlinked => ?_⟩
  · obtain ⟨hne, m, hm⟩ := hkids hinner c hc
    have hcN : c ≠ N := by
      rintro rfl
      rw [hcut.fresh] at hm
      cases hm
    refine ⟨m, hm, ?_⟩
    rw [hcut.others_some hne hcN hm, hright, hinner, if_neg Bool.false_ne_true, if_pos hc]
  · rw [hcut.others x hx hxN, hright]
    have hnot : x ∉ if n.isLeaf then [] else right.children := by
      rcases hother with hleaf | hnot
      · rw [hleaf, if_pos rfl]
        exact List.not_mem_nil
      · split_ifs
        · exact List.not_mem_nil
        · exact hnot
    simp [hnot]
  · obtain ⟨-, hpV, hUp⟩ := List.nodup_append.mp hnodup
    have hU : ∀ x ∈ U, nextAt g.look x = nextAt f.look x := fun x hx =>
      hcut.nextAt_others (hUp x hx n.pos List.mem_cons_self) fun hxN =>
        hN (hxN ▸ List.mem_append_left _ hx)
    have hV : ∀ x ∈ V, nextAt g.look x = nextAt f.look x := fun x hx =>
      hcut.nextAt_others (fun hxp => (List.nodup_cons.mp hpV).1 (hxp ▸ hx)) fun hxN =>
        hN (hxN ▸ List.mem_append_right _ (List.mem_cons_of_mem _ hx))
    refine hlinked.insert hU hV ?_ ?_
    · rw [nextAt, hcut.left_at]
      exact hnodes.left_header.next
    · rw [nextAt, nextAt, hcut.right_at, hcut.node]
      exact hnodes.right_header.next

/-- **The split of a full node.** Every copy stays inside its array; the halves share out the
entries of the node and the new one, with the separator passed up; the file holds the halves, the
new one behind the other in the chain of the leaves and as the parent of its children; and with
that file the insert goes on, at the parent or with a new root. -/
theorem insertNode_splits (fuel : ℕ) (f : BptFile) (cm : ColumnMeta) (n : Node) (key : ℤ)
    (pointer : ℕ) (tk : List ℤ) (tp : List ℕ) (hn : NodeShape n) (hsize : n.size = bptSize - 1)
    (hs : n.seps.Pairwise (· ≤ ·)) (hover : overflowNode f n key = .ok none)
    (hnode : f.look n.pos = some n) (hfree : cm.nextFree = f.nodes.length)
    (hkids : n.isLeaf = false → ∀ c ∈ pointer :: n.children,
      c ≠ n.pos ∧ ∃ m, f.look c = some m ∧ m.pos = c)
    (htk : tk.length = bptSize) (htp : tp.length = bptSize + 1) :
    ∃ left right up g,
      splitInside n cm.nextFree key pointer tk tp = .ok (left, right, up) ∧
      SplitNodes n left right (n.seps.countP (· ≤ key)) cm.nextFree key pointer up ∧
      StoredSplit f g n left right cm.nextFree
        (if n.parent = 0 then cm.nextFree + 1 else n.parent) ∧
      insertNode (fuel + 1) f cm n key pointer
        = if n.parent = 0 then
            if up ≠ (tempKeys n (n.seps.countP (· ≤ key)) key).getD (bptSplit + 1) 0 then
              .ok (withRoot g (allot cm n.isLeaf) n.pos cm.nextFree up)
            else .error .assertion
          else loadNode g n.parent >>= fun parent =>
            insertNode fuel g (allot cm n.isLeaf) parent up cm.nextFree := by
  have hu : n.seps.countP (· ≤ key) ≤ 127 :=
    List.countP_le_length.trans ((List.length_take_le _ _).trans hsize.le)
  have hsplit := splitInside_ok key pointer cm.nextFree hn hsize hs htk htp rfl
  rw [insertNode_full hn hsize hs hover rfl]
  set u := n.seps.countP (· ≤ key)
  have hnodes := splitNodes_halves key pointer cm.nextFree hn hsize hu
  have hH := halves u key pointer cm.nextFree hn
  set left := leftHalf n u key pointer cm.nextFree
  set right := rightHalf n u key pointer cm.nextFree
  have hkids' : ∀ c ∈ spots right.row, c ≠ n.pos ∧ ∃ m, f.look c = some m ∧ m.pos = c := by
    intro c hc
    cases hleaf : n.isLeaf with
    | true =>
        rw [Node.row_of_leaf (hH.right_header.isLeaf.trans hleaf), spots_keyRow] at hc
        cases hc
    | false =>
        exact hkids hleaf c ((children_halves key pointer cm.nextFree hn hleaf hsize hu).mem_iff.mpr
          (List.mem_append_right _ hc))
  obtain ⟨g, hok, -, -, hcut⟩ := writeHalves_ok (allot cm n.isLeaf)
    (if n.parent = 0 then cm.nextFree + 1 else n.parent) hH hfree hnode fun c hc => (hkids' c hc).2
  refine ⟨left, right, separator n u key, g, hsplit, hnodes, ?_, ?_⟩
  · refine hcut.storedSplit hnodes fun hinner c hc => ?_
    rw [← Node.spots_row_of_inner hH.right_header.shape (hH.right_header.isLeaf.trans hinner)] at hc
    obtain ⟨hne, m, hm, -⟩ := hkids' c hc
    exact ⟨hne, m, hm⟩
  · rw [show right.pos = cm.nextFree from hH.right_header.pos]
    split_ifs at hok ⊢ <;> rw [hok, Outcome.ok_bind]

/-- A full interior node, with the keys `0` to `126`. -/
def fullInner : Node :=
  { Node.zero with
    keys := (List.range 127).map Nat.cast
    pointers := List.range' 1 128
    size := 127 }

/-- A file with a full interior node over `128` leaves, and one more leaf. -/
def fullInnerFile : BptFile where
  m := { type := .bptree, size := 129, nextFree := 130, root := 0 }
  nodes := fullInner :: (List.range' 1 129).map (newNode true)

/-- `insertNode_splits` at a full interior node that takes the new leaf behind the others. -/
theorem fullInner_splits :
    ∃ left right up g,
      splitInside fullInner 130 200 129 (List.replicate 128 0) (List.replicate 129 0)
        = .ok (left, right, up) ∧
      SplitNodes fullInner left right (fullInner.seps.countP (· ≤ 200)) 130 200 129 up ∧
      StoredSplit fullInnerFile g fullInner left right 130 131 := by
  have hseps : fullInner.seps = (List.range 127).map Nat.cast :=
    List.take_of_length_le (by rw [fullInner, List.length_map, List.length_range])
  have hsorted : fullInner.seps.Pairwise (· ≤ ·) := by
    rw [hseps, List.pairwise_map]
    exact List.pairwise_lt_range.imp fun h => by exact_mod_cast h.le
  have hkids : ∀ c ∈ 129 :: fullInner.children, c ≠ 0 ∧
      ∃ m, fullInnerFile.look c = some m ∧ m.pos = c := by
    intro c hc
    have hmem : c ∈ List.range' 1 129 := by
      rcases List.mem_cons.mp hc with rfl | hc
      · decide
      · exact List.mem_of_mem_take (i := 128) (by exact hc)
    obtain ⟨hlow, hhigh⟩ := List.mem_range'_1.mp hmem
    obtain ⟨i, rfl⟩ : ∃ i, c = i + 1 := ⟨c - 1, by omega⟩
    refine ⟨Nat.succ_ne_zero i, newNode true (i + 1), ?_, rfl⟩
    rw [BptFile.look, fullInnerFile, List.getElem?_cons_succ, List.getElem?_map,
      List.getElem?_range' (by omega), Option.map_some, one_mul, Nat.add_comm]
  obtain ⟨left, right, up, g, hsplit, hnodes, hstored, -⟩ :=
    insertNode_splits 0 fullInnerFile fullInnerFile.m fullInner 200 129 (List.replicate 128 0)
      (List.replicate 129 0) ⟨by simp [fullInner], by simp [fullInner]⟩ rfl hsorted rfl rfl
      (by simp [fullInnerFile]) (fun _ => hkids) (by simp [bptSize]) (by simp [bptSize])
  exact ⟨left, right, up, g, hsplit, hnodes, hstored⟩

end Split

end ColumnDb
