import ColumnDb.Bptree.Insert
import ColumnDb.Library.Layers

/-!
What an insert does to the contents of one node.

* `Node.row` is what a node contributes to the tree: a leaf the keys of its entries, an
  interior node its children with the keys among them.
* `childRow_split`: an entry put in behind a child stands right behind it in the row.
* `addEntryToNode_leaf`, `addEntryToNode_inner`: a node with room takes the entry at the upper
  bound of its key. An interior node with `126` keys stays one only when the word moved over
  `is_leaf` is zero (`KeepsMark`).
* `split_row`: the two halves of a full node with the key between them are the row of the node
  with the entry.
-/

namespace ColumnDb

/-! ### Rows -/

/-- The row of a leaf. -/
def keyRow (es : List (ℤ × ℕ)) : List (ℕ ⊕ ℤ) := es.map fun e => Sum.inr e.1

/-- The row of an interior node: the first child, then every key with the child after it. -/
def childRow (first : ℕ) (bs : List (ℤ × ℕ)) : List (ℕ ⊕ ℤ) :=
  Sum.inl first :: bs.flatMap fun b => [Sum.inr b.1, Sum.inl b.2]

@[simp] lemma spots_keyRow (es : List (ℤ × ℕ)) : spots (keyRow es) = [] := by
  induction es with
  | nil => rfl
  | cons e es ih => exact ih

@[simp] lemma fences_keyRow (es : List (ℤ × ℕ)) : fences (keyRow es) = es.map Prod.fst := by
  induction es with
  | nil => rfl
  | cons e es ih => exact congrArg (e.1 :: ·) ih

lemma childRow_cons (first : ℕ) (b : ℤ × ℕ) (bs : List (ℤ × ℕ)) :
    childRow first (b :: bs) = Sum.inl first :: Sum.inr b.1 :: childRow b.2 bs := rfl

@[simp] lemma spots_childRow (first : ℕ) (bs : List (ℤ × ℕ)) :
    spots (childRow first bs) = first :: bs.map Prod.snd := by
  induction bs generalizing first with
  | nil => rfl
  | cons b bs ih => rw [childRow_cons, spots_cons_inl, spots_cons_inr, ih, List.map_cons]

@[simp] lemma fences_childRow (first : ℕ) (bs : List (ℤ × ℕ)) :
    fences (childRow first bs) = bs.map Prod.fst := by
  induction bs generalizing first with
  | nil => rfl
  | cons b bs ih => rw [childRow_cons, fences_cons_inl, fences_cons_inr, ih, List.map_cons]

lemma childRow_append (first : ℕ) (bs bs' : List (ℤ × ℕ)) (b : ℤ × ℕ) :
    childRow first (bs ++ b :: bs') = childRow first bs ++ Sum.inr b.1 :: childRow b.2 bs' := by
  induction bs generalizing first with
  | nil => rfl
  | cons a bs ih => rw [List.cons_append, childRow_cons, ih, childRow_cons]; rfl

/-- The row in front of the child `i` and the row behind it: a fence next to the child is the
key on that side of it, and a key put in at `i` comes right behind the child. -/
lemma childRow_split {bs : List (ℤ × ℕ)} {first c i : ℕ}
    (h : (first :: bs.map Prod.snd)[i]? = some c) :
    ∃ A B, childRow first bs = A ++ Sum.inl c :: B ∧
      (∀ s r, childRow first (bs.insertIdx i (s, r))
        = A ++ Sum.inl c :: Sum.inr s :: Sum.inl r :: B) ∧
      ((A = [] ∧ i = 0) ∨
        ∃ A₀ k j, A = A₀ ++ [Sum.inr k] ∧ i = j + 1 ∧ (bs.map Prod.fst)[j]? = some k) ∧
      (B = [] ∨ ∃ B₀ k, B = Sum.inr k :: B₀ ∧ (bs.map Prod.fst)[i]? = some k) := by
  induction bs generalizing first i with
  | nil =>
      cases i with
      | zero =>
          cases h
          exact ⟨[], [], rfl, fun s r => rfl, Or.inl ⟨rfl, rfl⟩, Or.inl rfl⟩
      | succ i => cases h
  | cons b bs ih =>
      cases i with
      | zero =>
          cases h
          exact ⟨[], Sum.inr b.1 :: childRow b.2 bs, rfl, fun s r => rfl, Or.inl ⟨rfl, rfl⟩,
            Or.inr ⟨_, b.1, rfl, rfl⟩⟩
      | succ i =>
          obtain ⟨A, B, hrow, hinsert, hA, hB⟩ := @ih b.2 i h
          refine ⟨Sum.inl first :: Sum.inr b.1 :: A, B, ?_, fun s r => ?_, Or.inr ?_, hB⟩
          · rw [childRow_cons, hrow]
            rfl
          · rw [List.insertIdx_succ_cons, childRow_cons, hinsert]
            rfl
          · obtain ⟨rfl, rfl⟩ | ⟨A₀, k, j, rfl, rfl, hk⟩ := hA
            · exact ⟨[Sum.inl first], b.1, 0, rfl, rfl, rfl⟩
            · exact ⟨Sum.inl first :: Sum.inr b.1 :: A₀, k, j + 1, rfl, rfl, hk⟩

namespace Node

/-- The first child of an interior node. -/
def first (n : Node) : ℕ := n.pointers.headD 0

/-- The keys of an interior node, each with the child after it. -/
def branches (n : Node) : List (ℤ × ℕ) := (n.keys.zip n.pointers.tail).take n.size

/-- What a node contributes to the tree. -/
def row (n : Node) : List (ℕ ⊕ ℤ) :=
  if n.isLeaf then keyRow n.entries else childRow n.first n.branches

variable {n : Node}

lemma row_of_leaf (h : n.isLeaf = true) : n.row = keyRow n.entries := if_pos h

lemma row_of_inner (h : n.isLeaf = false) : n.row = childRow n.first n.branches :=
  if_neg (by rw [h]; exact Bool.false_ne_true)

lemma pointers_eq_cons (hn : NodeShape n) : n.pointers = n.first :: n.pointers.tail := by
  have hlen := hn.pointers
  cases hp : n.pointers with
  | nil => rw [hp] at hlen; cases hlen
  | cons p ps => rw [first, hp]; rfl

lemma length_tail (hn : NodeShape n) : n.pointers.tail.length = 127 := by
  rw [List.length_tail, hn.pointers]

lemma seps_eq_entries (hn : NodeShape n) : n.seps = n.entries.map Prod.fst := by
  rw [seps, entries, List.map_take, List.map_fst_zip (by rw [hn.keys, hn.pointers]; omega)]

lemma seps_eq_branches (hn : NodeShape n) : n.seps = n.branches.map Prod.fst := by
  rw [seps, branches, List.map_take, List.map_fst_zip (by rw [hn.keys, length_tail hn])]

lemma length_seps (hn : NodeShape n) (hsize : n.size ≤ 127) : n.seps.length = n.size := by
  rw [seps, List.length_take, hn.keys, min_eq_left hsize]

lemma fences_row (hn : NodeShape n) : fences n.row = n.seps := by
  cases h : n.isLeaf with
  | true => rw [row_of_leaf h, fences_keyRow, seps_eq_entries hn]
  | false => rw [row_of_inner h, fences_childRow, seps_eq_branches hn]

lemma children_eq (hn : NodeShape n) : n.children = n.first :: n.branches.map Prod.snd := by
  rw [children, pointers_eq_cons hn, List.take_succ_cons, branches, List.map_take,
    List.map_snd_zip (by rw [hn.keys, length_tail hn])]

lemma spots_row_of_inner (hn : NodeShape n) (h : n.isLeaf = false) : spots n.row = n.children := by
  rw [row_of_inner h, spots_childRow, children_eq hn]

/-- The child that the pointer `i` names. -/
lemma getElem?_children (hn : NodeShape n) {i : ℕ} (hi : i ≤ n.size) :
    (n.first :: n.branches.map Prod.snd)[i]? = n.pointers[i]? := by
  rw [← children_eq hn, children, List.getElem?_take_of_lt (by omega)]

/-- The search for the place of a key in a node. -/
lemma getUpperBound_words (hn : NodeShape n) (hsize : n.size ≤ 127)
    (hs : n.seps.Pairwise (· ≤ ·)) (key : ℤ) :
    getUpperBoundFromArray n.words n.size key = .ok (n.seps.countP (· ≤ key)) := by
  have htake : n.words.take n.size = n.seps := by
    rw [words, seps, List.take_append_of_le_length (by rw [hn.keys]; exact hsize)]
  rw [← htake] at hs ⊢
  refine getUpperBoundFromArray_eq ?_ hs key
  rw [words, List.length_append, List.length_map, hn.keys, hn.pointers]
  omega

end Node

/-! ### A node with room -/

section Add

variable {n : Node} {key : ℤ}

/-- Nodes that differ in what they hold only. -/
structure SameHeader (n n' : Node) : Prop where
  shape : NodeShape n'
  isLeaf : n'.isLeaf = n.isLeaf
  parent : n'.parent = n.parent
  next : n'.next = n.next
  pos : n'.pos = n.pos

/-- The keys of a node with room, with `key` put in. -/
lemma take_keys_insert (hn : NodeShape n) (hsize : n.size < 127) {u : ℕ} (hu : u ≤ n.size) :
    ((splice n.keys (u + 1) ((n.keys.drop u).take (n.size - u))).set u key).take (n.size + 1)
      = n.seps.insertIdx u key :=
  take_set_splice hu (by rw [hn.keys]; exact hsize) le_rfl key

lemma length_insert {α : Type} {a : List α} {u s : ℕ} (hs : s < a.length) (hu : u ≤ s) (x : α) :
    ((splice a (u + 1) ((a.drop u).take (s - u))).set u x).length = a.length := by
  rw [List.length_set, length_splice]
  rw [List.length_take, List.length_drop]
  omega

/-- **A leaf with room** takes the entry behind those up to its key. -/
theorem addEntryToNode_leaf (f : BptFile) (key : ℤ) (pointer : ℕ) (hn : NodeShape n)
    (hleaf : n.isLeaf = true) (hsize : n.size < 127) (hs : n.seps.Pairwise (· ≤ ·)) :
    ∃ n', addEntryToNode f n key pointer = .ok (writeNode f n') ∧ SameHeader n n' ∧
      n'.size = n.size + 1 ∧
      n'.entries = n.entries.insertIdx (n.seps.countP (· ≤ key)) (key, pointer) := by
  have hu : n.seps.countP (· ≤ key) ≤ n.size :=
    List.countP_le_length.trans (List.length_take_le _ _)
  rw [addEntryToNode, Node.getUpperBound_words hn hsize.le hs, Outcome.ok_bind]
  set u := n.seps.countP (· ≤ key)
  rw [if_pos hleaf]
  refine ⟨_, rfl, ⟨⟨?_, ?_⟩, rfl, rfl, rfl, rfl⟩, rfl, ?_⟩
  · rw [length_insert (by rw [hn.keys]; exact hsize) hu, hn.keys]
  · rw [length_insert (by rw [hn.pointers]; omega) hu, hn.pointers]
  · rw [Node.entries, List.zip, List.take_zipWith, take_keys_insert hn hsize hu,
      take_set_splice hu (by rw [hn.pointers]; omega) le_rfl, Node.entries, List.zip,
      List.take_zipWith]
    refine zip_insertIdx ?_ key pointer
    rw [Node.length_seps hn hsize.le, List.length_take, hn.pointers]
    omega

/-- An interior node with `126` keys keeps its mark when the word that the insert moves over
it is zero in its first byte. -/
def KeepsMark (n : Node) (key : ℤ) : Prop :=
  n.size = 126 → n.seps.countP (· ≤ key) < 126 → n.pointers.getD 127 0 % 256 = 0

/-- The word behind the pointers of an interior node after an insert at `u`: with `126` keys and
room behind `u` the last pointer is moved there. -/
def movedWord (n : Node) (u : ℕ) : ℕ := if n.size = 126 ∧ u < 126 then n.pointers.getD 127 0 else 0

lemma keepsMark_iff : KeepsMark n key ↔ movedWord n (n.seps.countP (· ≤ key)) % 256 = 0 := by
  rw [KeepsMark, movedWord]
  split_ifs with h
  · exact ⟨fun hmark => hmark h.1 h.2, fun hword _ _ => hword⟩
  · exact ⟨fun _ => rfl, fun _ hsize hu => absurd ⟨hsize, hu⟩ h⟩

/-- The pointers of an interior node after the `memmove`, without the first one, and the word
of `is_leaf` behind them. -/
lemma region_insert (pointer : ℕ) (hn : NodeShape n) (hleaf : n.isLeaf = false)
    (hsize : n.size < 127) {u : ℕ} (hu : u ≤ n.size) :
    ∃ rest : List ℕ, (if u < n.size then
        splice n.region (u + 2) ((n.region.drop (u + 1)).take (n.size + 1 - u)) else n.region)
        = n.first :: rest ∧ rest.length = 128 ∧ rest.getD 127 0 = movedWord n u ∧
      (u < n.size → n.size < 126 → rest.getD (n.size + 1) 0 = n.pointers.getD (n.size + 1) 0) ∧
      (rest.set u pointer).take (n.size + 1)
        = (n.pointers.tail.take n.size).insertIdx u pointer := by
  have htail := Node.length_tail hn
  set q := n.pointers.tail ++ [0] with hq
  have hqlen : q.length = 128 := by rw [hq, List.length_append, htail]; rfl
  have hregion : n.region = n.first :: q := by
    rw [Node.region, Node.pointers_eq_cons hn, hleaf]
    rfl
  have hlast : q[127]? = some 0 := by
    rw [hq, List.getElem?_append_right (by omega), htail]
    rfl
  have hword : ∀ i < 127, q[i]? = n.pointers[i + 1]? := by
    intro i hi
    rw [hq, List.getElem?_append_left (by omega), Node.pointers_eq_cons hn]
    rfl
  have htake : q.take n.size = n.pointers.tail.take n.size := by
    rw [hq, List.take_append_of_le_length (by omega)]
  rw [hregion, movedWord]
  split_ifs with hlt hmoved hmoved
  · have hxs : ((q.drop u).take (n.size + 1 - u)).length = n.size + 1 - u := by
      rw [List.length_take, List.length_drop, hqlen]
      omega
    have hcell : ∀ i, u + 1 ≤ i → i < n.size + 2 →
        (splice q (u + 1) ((q.drop u).take (n.size + 1 - u)))[i]? = q[i - 1]? := by
      intro i hi hi'
      rw [getElem?_splice (by omega), if_neg (by omega), hxs, if_pos (by omega),
        List.getElem?_take_of_lt (by omega), List.getElem?_drop,
        show u + (i - (u + 1)) = i - 1 by omega]
    refine ⟨splice q (u + 1) ((q.drop u).take (n.size + 1 - u)), splice_cons _ _ _ _, ?_, ?_, ?_,
      ?_⟩
    · rw [length_splice (by omega), hqlen]
    · rw [List.getD_eq_getElem?_getD, hcell 127 (by omega) (by omega), hword _ (by omega),
        ← List.getD_eq_getElem?_getD]
    · intro _ h126
      omega
    · rw [take_set_splice hu (by omega) (by omega), htake]
  · have hxs : ((q.drop u).take (n.size + 1 - u)).length = n.size + 1 - u := by
      rw [List.length_take, List.length_drop, hqlen]
      omega
    refine ⟨splice q (u + 1) ((q.drop u).take (n.size + 1 - u)), splice_cons _ _ _ _, ?_, ?_, ?_,
      ?_⟩
    · rw [length_splice (by omega), hqlen]
    · rw [List.getD_eq_getElem?_getD, getElem?_splice (by omega), if_neg (by omega), hxs,
        if_neg (by omega), hlast]
      rfl
    · intro _ h126
      rw [List.getD_eq_getElem?_getD, getElem?_splice (by omega), if_neg (by omega), hxs,
        if_pos (by omega), List.getElem?_take_of_lt (by omega), List.getElem?_drop,
        hword _ (by omega), show u + (n.size + 1 - (u + 1)) + 1 = n.size + 1 by omega,
        ← List.getD_eq_getElem?_getD]
    · rw [take_set_splice hu (by omega) (by omega), htake]
  · omega
  · obtain rfl : u = n.size := by omega
    refine ⟨q, rfl, hqlen, by rw [List.getD_eq_getElem?_getD, hlast]; rfl,
      fun hlt => absurd hlt (lt_irrefl _), ?_⟩
    rw [List.take_set, ← htake, insertIdx_eq_take_append _ (by rw [List.length_take]; omega),
      List.set_eq_take_cons_drop _ (by rw [List.length_take]; omega), List.take_take,
      List.take_take, List.drop_eq_nil_of_le (by rw [List.length_take]; omega),
      List.drop_eq_nil_of_le (by rw [List.length_take]; omega), min_eq_left (by omega), min_self]

/-- **An interior node with room** takes the child behind those up to its key, and its mark is
the word that is moved over it. -/
theorem addEntryToNode_moves (f : BptFile) (key : ℤ) (pointer : ℕ) (hn : NodeShape n)
    (hleaf : n.isLeaf = false) (hsize : n.size < 127) (hs : n.seps.Pairwise (· ≤ ·)) :
    ∃ n', addEntryToNode f n key pointer = .ok (writeNode f n') ∧
      SameHeader { n with isLeaf := movedWord n (n.seps.countP (· ≤ key)) % 256 != 0 } n' ∧
      n'.size = n.size + 1 ∧ n'.first = n.first ∧
      n'.branches = n.branches.insertIdx (n.seps.countP (· ≤ key)) (key, pointer) ∧
      (n.seps.countP (· ≤ key) < n.size → n.size < 126 →
        n'.pointers.getD (n.size + 2) 0 = n.pointers.getD (n.size + 1) 0) := by
  have hu : n.seps.countP (· ≤ key) ≤ n.size :=
    List.countP_le_length.trans (List.length_take_le _ _)
  rw [addEntryToNode, Node.getUpperBound_words hn hsize.le hs, Outcome.ok_bind]
  set u := n.seps.countP (· ≤ key)
  rw [if_neg (by rw [hleaf]; exact Bool.false_ne_true)]
  obtain ⟨rest, hregion, hlen, hword, hstale, hinsert⟩ := region_insert pointer hn hleaf hsize hu
  have hpointers : ((n.first :: rest).take bptSize).set (u + 1) pointer
      = n.first :: (rest.take 127).set u pointer := rfl
  have hisLeaf : (n.first :: rest).getD bptSize 0 = movedWord n u := hword
  simp only [hregion, hpointers, hisLeaf]
  refine ⟨_, rfl, ⟨⟨?_, ?_⟩, rfl, rfl, rfl, rfl⟩, rfl, rfl, ?_, fun hlt h126 => ?_⟩
  · exact (length_insert (by rw [hn.keys]; exact hsize) hu _).trans hn.keys
  · simp [hlen]
  · have htail : (((rest.take 127).set u pointer)).take (n.size + 1)
        = (n.pointers.tail.take n.size).insertIdx u pointer := by
      rw [← List.take_set, List.take_take, min_eq_left (by omega), hinsert]
    rw [Node.branches, List.zip, List.take_zipWith, take_keys_insert hn hsize hu, List.tail_cons,
      htail, Node.branches, List.zip, List.take_zipWith]
    refine zip_insertIdx ?_ key pointer
    rw [Node.length_seps hn hsize.le, List.length_take, Node.length_tail hn]
    omega
  · rw [← hstale hlt h126, List.getD_cons_succ, List.getD_eq_getElem?_getD,
      List.getElem?_set_ne (by omega), List.getElem?_take_of_lt (by omega),
      ← List.getD_eq_getElem?_getD]

/-- **An interior node with room** takes the child behind those up to its key. -/
theorem addEntryToNode_inner (f : BptFile) (pointer : ℕ) (hn : NodeShape n)
    (hleaf : n.isLeaf = false) (hsize : n.size < 127) (hs : n.seps.Pairwise (· ≤ ·))
    (hmark : KeepsMark n key) :
    ∃ n', addEntryToNode f n key pointer = .ok (writeNode f n') ∧ SameHeader n n' ∧
      n'.size = n.size + 1 ∧ n'.first = n.first ∧
      n'.branches = n.branches.insertIdx (n.seps.countP (· ≤ key)) (key, pointer) := by
  obtain ⟨n', hadd, hheader, hsize', hfirst, hbranches, -⟩ :=
    addEntryToNode_moves f key pointer hn hleaf hsize hs
  refine ⟨n', hadd, ⟨hheader.shape, ?_, hheader.parent, hheader.next, hheader.pos⟩, hsize', hfirst,
    hbranches⟩
  rw [hheader.isLeaf, hleaf]
  simp only [keepsMark_iff.mp hmark]
  rfl

end Add

/-! ### A full node -/

section Split

variable {n : Node} {key : ℤ} {pointer N u : ℕ}

/-- The node that `_make_new_leaf_or_node` returns for the position `N`. -/
def newNode (isLeaf : Bool) (N : ℕ) : Node := { Node.zero with isLeaf := isLeaf, pos := N }

/-- The left half of a full node, with the entry put in at `u`. -/
def leftHalf (n : Node) (u : ℕ) (key : ℤ) (pointer N : ℕ) : Node :=
  splitLeft n (tempKeys n u key) (tempPointers n u pointer) N

/-- The right half. -/
def rightHalf (n : Node) (u : ℕ) (key : ℤ) (pointer N : ℕ) : Node :=
  splitRight n (newNode n.isLeaf N) (tempKeys n u key) (tempPointers n u pointer)

/-- The key that goes to the parent: the first of the right half in a leaf, the one between
the halves in an interior node. -/
def separator (n : Node) (u : ℕ) (key : ℤ) : ℤ := (tempKeys n u key).getD bptSplit 0

lemma tempKeys_eq (hn : NodeShape n) (hsize : n.size = 127) (hu : u ≤ 127) :
    tempKeys n u key = n.seps.insertIdx u key := by
  have hseps : n.seps = n.keys := by
    rw [Node.seps, hsize, List.take_of_length_le hn.keys.le]
  have hdrop : (n.keys.drop u).take (127 - u) = n.keys.drop u :=
    List.take_of_length_le (by rw [List.length_drop, hn.keys])
  rw [tempKeys, hsize, hseps, hdrop, insertIdx_eq_take_append _ (by rw [hn.keys]; exact hu),
    List.append_assoc, List.singleton_append]

lemma tempPointers_leaf (hn : NodeShape n) (hleaf : n.isLeaf = true) (hsize : n.size = 127)
    (hu : u ≤ 127) :
    tempPointers n u pointer = (n.pointers.take 127).insertIdx u pointer := by
  rw [tempPointers, tempOffset, if_pos hleaf, hsize,
    insertIdx_eq_take_append _ (by rw [List.length_take, hn.pointers]; omega), List.take_take,
    min_eq_left hu, List.drop_take, List.append_assoc, List.singleton_append]

lemma tempPointers_inner (hn : NodeShape n) (hleaf : n.isLeaf = false) (hsize : n.size = 127)
    (hu : u ≤ 127) :
    tempPointers n u pointer = n.first :: n.pointers.tail.insertIdx u pointer := by
  have htail := Node.length_tail hn
  have hdrop : (n.pointers.tail.drop u).take (127 - u) = n.pointers.tail.drop u :=
    List.take_of_length_le (by rw [List.length_drop, htail])
  rw [tempPointers, tempOffset, if_neg (by rw [hleaf]; exact Bool.false_ne_true), hsize,
    insertIdx_eq_take_append _ (by omega), Node.pointers_eq_cons hn, List.take_succ_cons,
    List.drop_succ_cons, List.tail_cons, hdrop, List.append_assoc, List.singleton_append,
    List.cons_append]

lemma length_tempKeys (hn : NodeShape n) (hsize : n.size = 127) (hu : u ≤ 127) :
    (tempKeys n u key).length = 128 := by
  have hseps := Node.length_seps hn hsize.le
  rw [tempKeys_eq hn hsize hu, List.length_insertIdx_of_le_length (by omega), hseps, hsize]

/-- What the halves take over from the node. -/
structure Halves (n left right : Node) (N : ℕ) : Prop where
  left_header : SameHeader { n with next := N } left
  right_header : SameHeader { newNode n.isLeaf N with next := n.next } right
  left_size : left.size ≤ 127
  right_size : right.size ≤ 127

lemma halves (u : ℕ) (key : ℤ) (pointer N : ℕ) (hn : NodeShape n) :
    Halves n (leftHalf n u key pointer N) (rightHalf n u key pointer N) N := by
  have hkeys : ∀ (a : List ℤ), a.length = 127 → ∀ k ≤ 64, ∀ l : List ℤ,
      (splice a 0 (l.take k)).length = 127 := by
    intro a ha k hk l
    have hlen : (l.take k).length ≤ k := List.length_take_le _ _
    rw [length_splice (by omega), ha]
  have hpointers : ∀ (a : List ℕ), a.length = 128 → ∀ k ≤ 65, ∀ l : List ℕ,
      (splice a 0 (l.take k)).length = 128 := by
    intro a ha k hk l
    have hlen : (l.take k).length ≤ k := List.length_take_le _ _
    rw [length_splice (by omega), ha]
  refine ⟨⟨⟨hkeys _ hn.keys _ (by decide) _, hpointers _ hn.pointers _ ?_ _⟩, rfl, rfl, rfl, rfl⟩,
    ?_, show bptSplit ≤ 127 by decide, ?_⟩
  · split_ifs <;> decide
  · rw [rightHalf, splitRight]
    split_ifs with hleaf
    · exact ⟨⟨hkeys _ rfl _ (by decide) _, hpointers _ rfl _ (by decide) _⟩, rfl, rfl, rfl, rfl⟩
    · exact ⟨⟨hkeys _ rfl _ (by decide) _, hpointers _ rfl _ (by decide) _⟩, rfl, rfl, rfl, rfl⟩
  · rw [rightHalf, splitRight]
    split_ifs with hleaf
    · exact show bptSize - bptSplit ≤ 127 by decide
    · exact show bptSize - 1 - bptSplit ≤ 127 by decide

/-- **The halves of a full leaf** share out its entries. -/
theorem split_leaf (key : ℤ) (pointer N : ℕ) (hn : NodeShape n) (hleaf : n.isLeaf = true)
    (hsize : n.size = 127) (hu : u ≤ 127) :
    (leftHalf n u key pointer N).entries = (n.entries.insertIdx u (key, pointer)).take 64 ∧
    (rightHalf n u key pointer N).entries = (n.entries.insertIdx u (key, pointer)).drop 64 := by
  have hkeys : (tempKeys n u key).length = 128 := length_tempKeys hn hsize hu
  have hpointers : (tempPointers n u pointer).length = 128 := by
    rw [tempPointers_leaf hn hleaf hsize hu, List.length_insertIdx_of_le_length
      (by rw [List.length_take, hn.pointers]; omega), List.length_take, hn.pointers]
    rfl
  have hall : n.entries.insertIdx u (key, pointer)
      = (tempKeys n u key).zip (tempPointers n u pointer) := by
    rw [tempKeys_eq hn hsize hu, tempPointers_leaf hn hleaf hsize hu,
      zip_insertIdx (by rw [Node.length_seps hn hsize.le, List.length_take, hn.pointers]; omega),
      Node.entries, Node.seps, hsize, List.zip, List.take_zipWith]
  rw [hall]
  constructor
  · rw [leftHalf, splitLeft, Node.entries, List.zip, List.take_zipWith,
      take_splice_zero (by rw [List.length_take, hkeys]; rfl),
      take_splice_zero (by rw [if_pos hleaf, List.length_take, hpointers]; rfl), if_pos hleaf]
    exact List.take_zipWith.symm
  · rw [rightHalf, splitRight, if_pos hleaf, Node.entries, List.zip, List.take_zipWith,
      take_splice_zero (by rw [List.length_take, List.length_drop, hkeys]; rfl),
      take_splice_zero (by rw [List.length_take, List.length_drop, hpointers]; rfl),
      List.take_of_length_le (by rw [List.length_drop, hkeys]; decide),
      List.take_of_length_le (by rw [List.length_drop, hpointers]; decide)]
    exact List.drop_zipWith.symm

/-- The keys of the halves of a full leaf, with the key between them, are in order, and are
those of the leaf and of the entry. -/
lemma fences_halves_leaf (pointer N : ℕ) (hn : NodeShape n) (hleaf : n.isLeaf = true)
    (hsize : n.size = 127) (hs : n.seps.Pairwise (· ≤ ·)) (hu : u = n.seps.countP (· ≤ key)) :
    (fences ((leftHalf n u key pointer N).row
      ++ Sum.inr (separator n u key) :: (rightHalf n u key pointer N).row)).Pairwise (· ≤ ·) ∧
    ∀ k ∈ fences ((leftHalf n u key pointer N).row
      ++ Sum.inr (separator n u key) :: (rightHalf n u key pointer N).row),
      k = key ∨ k ∈ n.seps := by
  have hu' : u ≤ 127 := hu ▸ hsize ▸ List.countP_le_length.trans (List.length_take_le _ _)
  obtain ⟨hleft, hright⟩ := split_leaf key pointer N hn hleaf hsize hu'
  have hH := halves u key pointer N hn
  have hkeys : (n.entries.insertIdx u (key, pointer)).map Prod.fst = tempKeys n u key := by
    rw [List.map_insertIdx, ← Node.seps_eq_entries hn, tempKeys_eq hn hsize hu']
  have hlt : 64 < (tempKeys n u key).length := by
    rw [length_tempKeys hn hsize hu']
    decide
  have hsep : separator n u key = (tempKeys n u key)[64] := by
    rw [separator, List.getD_eq_getElem?_getD, List.getElem?_eq_getElem]
    rfl
  rw [fences_append, fences_cons_inr, Node.row_of_leaf (hH.left_header.isLeaf.trans hleaf),
    Node.row_of_leaf (hH.right_header.isLeaf.trans hleaf), fences_keyRow, fences_keyRow, hleft,
    hright, List.map_take, List.map_drop, hkeys, hsep]
  have hsorted : (tempKeys n u key).Pairwise (· ≤ ·) := by
    rw [tempKeys_eq hn hsize hu', hu]
    exact insertIdx_countP_le_sorted hs key
  refine ⟨take_append_getElem_sorted hsorted hlt, fun k hk => ?_⟩
  have hmem : k ∈ tempKeys n u key := by
    rw [List.mem_append, List.mem_cons] at hk
    rcases hk with hk | rfl | hk
    · exact List.mem_of_mem_take hk
    · exact List.getElem_mem _
    · exact List.mem_of_mem_drop hk
  rw [tempKeys_eq hn hsize hu'] at hmem
  exact List.eq_or_mem_of_mem_insertIdx hmem

/-- The pointers of the left half of a full interior node: those of the node with the new one, and
behind the part in use what the node had there. -/
lemma pointers_leftHalf (key : ℤ) (pointer N : ℕ) (hn : NodeShape n) (hleaf : n.isLeaf = false)
    (hsize : n.size = 127) (hu : u ≤ 127) :
    (leftHalf n u key pointer N).pointers
      = n.first :: ((n.pointers.tail.insertIdx u pointer).take 64 ++ n.pointers.drop 65) := by
  have hlen : ((n.pointers.tail.insertIdx u pointer).take 64).length = 64 := by
    rw [List.length_take, List.length_insertIdx_of_le_length
      (by rw [Node.length_tail hn]; exact hu), Node.length_tail hn]
    rfl
  have hsplice :=
    splice_zero_cons n.pointers n.first ((n.pointers.tail.insertIdx u pointer).take 64)
  rw [hlen] at hsplice
  rw [← hsplice, leftHalf, splitLeft, tempPointers_inner hn hleaf hsize hu, hleaf]
  rfl

/-- **The halves of a full interior node** and the key between them are the node with the
entry. -/
theorem split_inner (key : ℤ) (pointer N : ℕ) (hn : NodeShape n) (hleaf : n.isLeaf = false)
    (hsize : n.size = 127) (hu : u ≤ 127) :
    childRow n.first (n.branches.insertIdx u (key, pointer))
      = (leftHalf n u key pointer N).row
        ++ Sum.inr (separator n u key) :: (rightHalf n u key pointer N).row := by
  have hkeys : (tempKeys n u key).length = 128 := length_tempKeys hn hsize hu
  set tail := n.pointers.tail.insertIdx u pointer with htail
  have hpointers : tempPointers n u pointer = n.first :: tail :=
    tempPointers_inner hn hleaf hsize hu
  have hlen : tail.length = 128 := by
    rw [htail, List.length_insertIdx_of_le_length (by rw [Node.length_tail hn]; exact hu),
      Node.length_tail hn]
  have hall : n.branches.insertIdx u (key, pointer) = (tempKeys n u key).zip tail := by
    rw [tempKeys_eq hn hsize hu,
      zip_insertIdx (by rw [Node.length_seps hn hsize.le, Node.length_tail hn, hsize]),
      Node.branches, Node.seps, hsize, List.take_of_length_le hn.keys.le,
      List.take_of_length_le (by rw [List.length_zip, hn.keys, Node.length_tail hn]; rfl)]
  have hleft : (leftHalf n u key pointer N).row
      = childRow n.first (((tempKeys n u key).zip tail).take 64) := by
    have hptr := pointers_leftHalf key pointer N hn hleaf hsize hu
    rw [Node.row_of_inner (show (leftHalf n u key pointer N).isLeaf = false from hleaf),
      Node.first, Node.branches, hptr, List.headD_cons, List.tail_cons]
    simp only [List.zip, List.take_zipWith]
    congr 2
    · exact take_splice_zero (by rw [List.length_take, hkeys]; rfl)
    · rw [show (leftHalf n u key pointer N).size = 64 from rfl,
        List.take_append_of_le_length (by rw [List.length_take, hlen]; decide), List.take_take,
        min_self]
  have hright : (rightHalf n u key pointer N).row
      = childRow tail[64] (((tempKeys n u key).zip tail).drop 65) := by
    have hdrop : (tempPointers n u pointer).drop 65 = tail[64] :: tail.drop 65 := by
      rw [hpointers, List.drop_succ_cons, List.drop_eq_getElem_cons]
    have hptr : (rightHalf n u key pointer N).pointers
        = tail[64] :: (tail.drop 65 ++ Node.zero.pointers.drop ((tail.drop 65).length + 1)) := by
      have htake : ((tempPointers n u pointer).drop 65).take 64 = tail[64] :: tail.drop 65 := by
        rw [hdrop, List.take_of_length_le (by rw [List.length_cons, List.length_drop, hlen])]
      rw [← splice_zero_cons, ← htake, rightHalf, splitRight, hleaf]
      rfl
    have hkey : (rightHalf n u key pointer N).keys.take 63 = (tempKeys n u key).drop 65 := by
      have htake : ((tempKeys n u key).drop 65).take 63 = (tempKeys n u key).drop 65 :=
        List.take_of_length_le (by rw [List.length_drop, hkeys])
      rw [rightHalf, splitRight, hleaf]
      exact (take_splice_zero (by rw [List.length_take, List.length_drop, hkeys]; rfl)).trans htake
    have hsize' : (rightHalf n u key pointer N).size = 63 := by
      rw [rightHalf, splitRight, hleaf]
      rfl
    have hleaf' : (rightHalf n u key pointer N).isLeaf = false :=
      (halves u key pointer N hn).right_header.isLeaf.trans hleaf
    rw [Node.row_of_inner hleaf', Node.first, Node.branches, hptr, List.headD_cons,
      List.tail_cons, hsize']
    simp only [List.zip, List.take_zipWith, List.drop_zipWith]
    rw [hkey, List.take_append_of_le_length (by rw [List.length_drop, hlen]),
      List.take_of_length_le (by rw [List.length_drop, hlen])]
  have hlt : 64 < ((tempKeys n u key).zip tail).length := by
    rw [List.length_zip, hkeys, hlen]
    decide
  have hget : ((tempKeys n u key).zip tail)[64] = (separator n u key, tail[64]) := by
    rw [List.getElem_zip, separator, List.getD_eq_getElem?_getD, List.getElem?_eq_getElem]
    rfl
  rw [hall, hleft, hright]
  conv_lhs =>
    rw [← List.take_append_drop 64 ((tempKeys n u key).zip tail), List.drop_eq_getElem_cons hlt,
      hget, childRow_append]

end Split

end ColumnDb
