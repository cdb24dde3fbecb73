import ColumnDb.Bptree.InsertRun
import ColumnDb.Bptree.Rooted

/-!
Runs of inserts with descending keys.

* `Front`: every record goes to the first leaf, at `0`, and every node that a split makes to the
  first place in the node above it, at `2`. The word behind the pointers of that node moves along
  with them (`Front.stale`).
* `Front.fill`, `Front.split`, `Front.round`: the leaf takes records until it is full, the next
  one splits it.
* `FrontRoot`: the same while the node at `2` is the root. `FrontRoot.split`: the split of a full
  root leaves the pointers of its right half behind those of its left half.
* `descending_front`: so after `12224` records the node at `2` has `126` keys and a pointer behind
  them that is not its child.
-/

namespace ColumnDb

/-- `n` records with descending keys, from the `i`th on. -/
def descendingRecords (i n : ℕ) : List (ℤ × ℕ) :=
  (List.range' i n).map fun j : ℕ => (-(j : ℤ), j)

lemma descendingRecords_add (i k n : ℕ) :
    descendingRecords i (k + n) = descendingRecords i k ++ descendingRecords (i + k) n := by
  rw [descendingRecords, ← List.range'_append_1, List.map_append]
  rfl

lemma descendingRecords_one (i : ℕ) : descendingRecords i 1 = [(-(i : ℤ), i)] := rfl

/-- A run in two parts. -/
lemma descending_trans {f g f' : BptFile} {i k n : ℕ}
    (hk : bptInsertRecords f (descendingRecords i k) = .ok g)
    (hn : bptInsertRecords g (descendingRecords (i + k) n) = .ok f') :
    bptInsertRecords f (descendingRecords i (k + n)) = .ok f' := by
  rw [descendingRecords_add]
  exact foldlM_append_ok.mpr ⟨g, hk, hn⟩

lemma descending_one {f f' : BptFile} {i : ℕ} (h : bptInsertRecord f (-(i : ℤ)) i = .ok f') :
    bptInsertRecords f (descendingRecords i 1) = .ok f' := by
  rw [descendingRecords_one, bptInsertRecords, List.foldlM_cons, h]
  rfl

/-! ### A key below all others -/

section Below

variable {f : BptFile} {n m : Node} {key : ℤ} {fuel : ℕ} {L : List ℤ}

lemma countP_le_eq_zero (h : (key :: L).Pairwise (· < ·)) : 0 = L.countP (· ≤ key) := by
  refine (List.countP_eq_zero.mpr fun k hk => ?_).symm
  have := (List.pairwise_cons.mp h).1 k hk
  simpa using this

/-- A leaf with room takes a key in front. -/
lemma addEntryToNode_front (f : BptFile) (pointer : ℕ) (hn : NodeShape n) (hleaf : n.isLeaf = true)
    (hroom : n.size < 127) (hkeys : (key :: n.seps).Pairwise (· < ·)) :
    ∃ n', addEntryToNode f n key pointer = .ok (writeNode f n') ∧ SameHeader n n' ∧
      n'.size = n.size + 1 ∧ n'.seps = key :: n.seps := by
  have hs : n.seps.Pairwise (· ≤ ·) := (List.pairwise_cons.mp hkeys).2.imp le_of_lt
  obtain ⟨n', hadd, hheader, hsize, hentries⟩ := addEntryToNode_leaf f key pointer hn hleaf hroom hs
  refine ⟨n', hadd, hheader, hsize, ?_⟩
  rw [Node.seps_eq_entries hheader.shape, hentries, ← countP_le_eq_zero hkeys, List.map_insertIdx,
    ← Node.seps_eq_entries hn]
  rfl

/-- The descent goes to the first child. -/
lemma findLeaf_first (hn : NodeShape n) (hinner : n.isLeaf = false)
    (h : ∀ k ∈ n.seps, key < k) (hm : f.look n.first = some m) :
    findLeaf (fuel + 1) f n key = findLeaf fuel f m key := by
  have hcounter : findLeafCounter n key = 0 := by
    rw [findLeafCounter]
    cases hs : n.seps with
    | nil => rfl
    | cons k ks =>
        have hk := h k (by rw [hs]; exact List.mem_cons_self)
        rw [List.takeWhile_cons, if_neg (by simpa using hk.le)]
        rfl
  have hget : n.pointers[0]? = some n.first := by
    rw [Node.pointers_eq_cons hn]
    rfl
  have hload : loadNode f n.first = .ok m := fetch_eq_ok.mpr hm
  rw [findLeaf, if_neg (by rw [hinner]; exact Bool.false_ne_true), hcounter,
    fetch_eq_ok.mpr hget, Outcome.ok_bind, hload, Outcome.ok_bind]

/-- The keys of the left half of a node that takes a key in front. -/
lemma seps_leftHalf (pointer N : ℕ) (hn : NodeShape n) (hsize : n.size = 127) :
    (leftHalf n 0 key pointer N).seps = (key :: n.seps).take 64 := by
  have hkeys : tempKeys n 0 key = key :: n.seps := tempKeys_eq hn hsize (Nat.zero_le _)
  have hlen : (tempKeys n 0 key).length = 128 := length_tempKeys hn hsize (Nat.zero_le _)
  rw [← hkeys, leftHalf, splitLeft, Node.seps]
  exact take_splice_zero (by rw [List.length_take, hlen]; rfl)

lemma separator_zero (hn : NodeShape n) (hsize : n.size = 127) :
    separator n 0 key = (key :: n.seps).getD 64 0 := by
  rw [separator, tempKeys_eq hn hsize (Nat.zero_le _)]
  rfl

/-- The two keys that the assertion of a root split compares. -/
lemma separator_zero_ne (hn : NodeShape n) (hsize : n.size = 127)
    (h : (key :: n.seps).Pairwise (· < ·)) :
    separator n 0 key ≠ (tempKeys n 0 key).getD (bptSplit + 1) 0 := by
  have hlen : (key :: n.seps).length = 128 := by
    rw [List.length_cons, Node.length_seps hn hsize.le, hsize]
  have hlt := List.pairwise_iff_getElem.mp h 64 65 (by omega) (by omega) (by decide)
  rw [separator, tempKeys_eq hn hsize (Nat.zero_le _), List.insertIdx_zero,
    show bptSplit + 1 = 65 from rfl, show bptSplit = 64 from rfl,
    ← List.getElem_eq_getD (h := by omega) 0, ← List.getElem_eq_getD (h := by omega) 0]
  exact hlt.ne

/-- **A full root** that takes a key in front is split under a new root. -/
theorem insertNode_root_front {g : BptFile} {cm : ColumnMeta} {pointer N : ℕ} (hn : NodeShape n)
    (hsize : n.size = 127) (h : (key :: n.seps).Pairwise (· < ·)) (hparent : n.parent = 0)
    (hover : overflowNode f n key = .ok none) (hfree : cm.nextFree = N)
    (hok : writeHalves f (allot cm n.isLeaf) n (leftHalf n 0 key pointer N)
      (rightHalf n 0 key pointer N) N (N + 1) = .ok g) :
    insertNode (fuel + 1) f cm n key pointer
      = .ok (withRoot g (allot cm n.isLeaf) n.pos N ((key :: n.seps).getD 64 0)) := by
  have hs : n.seps.Pairwise (· ≤ ·) := (List.pairwise_cons.mp h).2.imp le_of_lt
  rw [insertNode_full hn hsize hs hover (countP_le_eq_zero h), if_pos hparent, hfree, hok,
    Outcome.ok_bind, if_pos (separator_zero_ne hn hsize h),
    (halves 0 key pointer N hn).right_header.pos, separator_zero hn hsize]
  rfl

/-- A full interior node that takes a key in front keeps its first pointer, and its `66`th one
behind the pointers of its left half. -/
lemma pointers_leftHalf_front (key : ℤ) (pointer N : ℕ) (hn : NodeShape n)
    (hinner : n.isLeaf = false) (hsize : n.size = 127) :
    (leftHalf n 0 key pointer N).first = n.first ∧
      (leftHalf n 0 key pointer N).pointers.getD 65 0 = n.pointers.getD 65 0 := by
  have hptr := pointers_leftHalf key pointer N hn hinner hsize (Nat.zero_le 127)
  have hlen : ((n.pointers.tail.insertIdx 0 pointer).take 64).length = 64 := by
    rw [List.insertIdx_zero, List.length_take, List.length_cons, Node.length_tail hn]
    rfl
  constructor
  · rw [Node.first, hptr]
    rfl
  · rw [hptr, List.getD_cons_succ, List.getD_eq_getElem?_getD,
      List.getElem?_append_right (by omega), hlen, List.getElem?_drop, ← List.getD_eq_getElem?_getD]

/-- The pointers of a full node but for the first are to children of it. -/
lemma getD_mem_children_tail (hn : NodeShape n) (hsize : n.size = 127) {i : ℕ} (hi : i < 127) :
    n.pointers.getD (i + 1) 0 ∈ n.children.tail := by
  have hlt : i + 1 < n.pointers.length := by rw [hn.pointers]; omega
  rw [← List.getElem_eq_getD (h := hlt) 0, Node.children, hsize,
    List.take_of_length_le (by rw [hn.pointers])]
  refine List.mem_of_getElem? (i := i) ?_
  rw [List.getElem?_tail, List.getElem?_eq_getElem hlt]

/-- The keys of the left half and the key handed up are among those of the node. -/
lemma take_getD_sublist (h : 64 < L.length) (rest : List ℤ) :
    (L.take 64 ++ L.getD 64 0 :: rest).Sublist (L ++ rest) := by
  have hget : L.getD 64 0 = L[64] := by
    rw [List.getD_eq_getElem?_getD, List.getElem?_eq_getElem h]
    rfl
  have htake : L.take 64 ++ L.getD 64 0 :: rest = L.take 65 ++ rest := by
    rw [hget, ← List.take_append_getElem h, List.append_assoc]
    rfl
  rw [htake]
  exact (List.take_sublist 65 L).append_right rest

/-- With a smaller key to come, the keys may become fewer. -/
lemma descending_sublist {L' : List ℤ} {i : ℕ} (hsub : L'.Sublist (-(i : ℤ) :: L))
    (h : (-(i : ℤ) :: L).Pairwise (· < ·)) : (-((i + 1 : ℕ) : ℤ) :: L').Pairwise (· < ·) := by
  refine List.pairwise_cons.mpr ⟨fun k hk => ?_, h.sublist hsub⟩
  push_cast
  rcases List.mem_cons.mp (hsub.subset hk) with rfl | hk
  · omega
  · have := (List.pairwise_cons.mp h).1 k hk
    omega

end Below

/-! ### The front of the tree -/

/-- The root is the node at `2`, or has it as its first child; `top` are the keys above that
node. -/
def Over (f : BptFile) (top : List ℤ) : Prop :=
  (f.m.root = 2 ∧ top = []) ∨
    ∃ r, f.look f.m.root = some r ∧ r.isLeaf = false ∧ r.first = 2 ∧ r.seps = top

/-- The leaf `a` at `0` is the first child of the node `m` at `2`, whose mark is `b`, and the
keys of the records from the `i`th on are below all keys of the two and of the root. -/
structure Front (f : BptFile) (a m : Node) (top : List ℤ) (w i : ℕ) (b : Bool) : Prop where
  sound : ∀ p n, f.look p = some n → Sound n p
  leaf_at : f.look 0 = some a
  leaf_mark : a.isLeaf = true
  leaf_parent : a.parent = 2
  node_at : f.look 2 = some m
  node_mark : m.isLeaf = b
  first : m.first = 0
  stale : m.size < 127 → m.pointers.getD (m.size + 1) 0 = w
  keys : (-(i : ℤ) :: (a.seps ++ m.seps ++ top)).Pairwise (· < ·)
  nextFree : f.m.nextFree = f.nodes.length
  size : f.m.size ≠ 0
  above : Over f top
  chain : a.next ≠ 0 → ∃ y, f.look a.next = some y ∧ y.parent ≠ 0

section Front

variable {f g : BptFile} {a m : Node} {top : List ℤ} {w i : ℕ}

/-- The nodes above stay when those at `0` and `2` change. -/
lemma Over.congr (ho : Over f top) (hroot : g.m.root = f.m.root) (ha : f.look 0 = some a)
    (hleaf : a.isLeaf = true) (hm : f.look 2 = some m) (hfirst : m.first = 0)
    (hsame : ∀ x y, f.look x = some y → x ≠ 0 → x ≠ 2 → g.look x = some y) : Over g top := by
  obtain ⟨h2, htop⟩ | ⟨r, hr, hinner, hrfirst, hseps⟩ := ho
  · exact Or.inl ⟨hroot.trans h2, htop⟩
  · refine Or.inr ⟨r, ?_, hinner, hrfirst, hseps⟩
    rw [hroot]
    refine hsame _ _ hr (fun h0 => ?_) (fun h2 => ?_)
    · rw [h0, ha] at hr
      cases hr
      rw [hleaf] at hinner
      cases hinner
    · rw [h2, hm] at hr
      cases hr
      rw [hfirst] at hrfirst
      cases hrfirst

variable (hF : Front f a m top w i false)

include hF

lemma Front.below : (∀ k ∈ m.seps, -(i : ℤ) < k) ∧ (∀ k ∈ top, -(i : ℤ) < k) ∧
    (-(i : ℤ) :: a.seps).Pairwise (· < ·) ∧ a.seps.Pairwise (· ≤ ·) ∧ m.seps.Pairwise (· ≤ ·) := by
  obtain ⟨hlt, hs⟩ := List.pairwise_cons.mp hF.keys
  have ham := (List.pairwise_append.mp hs).1
  have hstrict := List.pairwise_append.mp ham
  refine ⟨fun k hk => hlt k ?_, fun k hk => hlt k ?_, List.pairwise_cons.mpr ⟨fun k hk => hlt k ?_,
    hstrict.1⟩, hstrict.1.imp le_of_lt, hstrict.2.1.imp le_of_lt⟩
  · exact List.mem_append_left _ (List.mem_append_right _ hk)
  · exact List.mem_append_right _ hk
  · exact List.mem_append_left _ (List.mem_append_left _ hk)

lemma Front.two_lt : 2 < f.nodes.length := lt_length_of_look hF.node_at

/-- The next record goes to the leaf at `0`. -/
lemma Front.descent : ∃ r, loadNode f f.m.root = .ok r ∧
    findLeaf (f.nodes.length + 1) f r (-(i : ℤ)) = .ok a := by
  have hlen := hF.two_lt
  obtain ⟨fuel, hfuel⟩ : ∃ fuel, f.nodes.length = fuel + 2 := ⟨f.nodes.length - 2, by omega⟩
  obtain ⟨hm, htop, -⟩ := hF.below
  have hlast : ∀ fuel, findLeaf (fuel + 1) f a (-(i : ℤ)) = .ok a := fun fuel => by
    rw [findLeaf, if_pos hF.leaf_mark]
  have hnode : ∀ fuel, findLeaf (fuel + 2) f m (-(i : ℤ)) = .ok a := fun fuel => by
    rw [findLeaf_first (hF.sound _ _ hF.node_at).shape hF.node_mark hm
      (by rw [hF.first]; exact hF.leaf_at), hlast]
  obtain ⟨h2, -⟩ | ⟨r, hr, hinner, hrfirst, hseps⟩ := hF.above
  · refine ⟨m, fetch_eq_ok.mpr (by rw [h2]; exact hF.node_at), ?_⟩
    rw [hfuel]
    exact hnode (fuel + 1)
  · refine ⟨r, fetch_eq_ok.mpr hr, ?_⟩
    rw [hfuel, findLeaf_first (hF.sound _ _ hr).shape hinner (by rw [hseps]; exact htop)
      (by rw [hrfirst]; exact hF.node_at), hnode]

lemma Front.insert_eq (row : ℕ) : bptInsertRecord f (-(i : ℤ)) row
    = insertNode (f.nodes.length + 1) f f.m a (-(i : ℤ)) row := by
  obtain ⟨r, hr, hfind⟩ := hF.descent
  rw [bptInsertRecord, if_neg hF.size, hr, Outcome.ok_bind, hfind, Outcome.ok_bind]

lemma Front.overflow (key : ℤ) : overflowNode f a key = .ok none := by
  rw [overflowNode]
  split_ifs with hnext
  · obtain ⟨y, hy, hparent⟩ := hF.chain hnext.2
    have hload : loadNode f a.next = .ok y := fetch_eq_ok.mpr hy
    rw [hload, Outcome.ok_bind, if_neg fun h => hparent h.1]
  · rfl

/-- **A leaf with room** takes the record in front. -/
lemma Front.room (hroom : a.size < 127) (row : ℕ) :
    ∃ f' a', bptInsertRecord f (-(i : ℤ)) row = .ok f' ∧ Front f' a' m top w (i + 1) false ∧
      a'.size = a.size + 1 ∧ f'.nodes.length = f.nodes.length ∧ f'.m = f.m := by
  have hsound := hF.sound _ _ hF.leaf_at
  obtain ⟨-, -, hkeys, -, -⟩ := hF.below
  obtain ⟨a', hadd, hheader, hsize, hseps⟩ :=
    addEntryToNode_front f row hsound.shape hF.leaf_mark hroom hkeys
  have hpos : a'.pos = 0 := hheader.pos.trans hsound.pos
  have hlook : (writeNode f a').look = Function.update f.look 0 (some a') := by
    rw [look_writeNode_over (m := a) (by rw [hpos]; exact hF.leaf_at), hpos]
  have hlen : (writeNode f a').nodes.length = f.nodes.length :=
    length_writeNode (by rw [hpos]; exact lt_length_of_look hF.leaf_at)
  have hother : ∀ x, x ≠ 0 → (writeNode f a').look x = f.look x := fun x hx => by
    rw [hlook, Function.update_of_ne hx]
  refine ⟨writeCm (writeNode f a') f.m, a', ?_, ?_, hsize, hlen, rfl⟩
  · rw [hF.insert_eq, insertNode_room hroom, hadd, Outcome.ok_bind]
  · exact
      { sound := fun p n hn => by
          change (writeNode f a').look p = some n at hn
          by_cases hp : p = 0
          · subst hp
            rw [hlook, Function.update_self] at hn
            cases hn
            exact ⟨hheader.shape, hpos, by omega⟩
          · rw [hother p hp] at hn
            exact hF.sound p n hn
        leaf_at := by
          change (writeNode f a').look 0 = _
          rw [hlook, Function.update_self]
        leaf_mark := hheader.isLeaf.trans hF.leaf_mark
        leaf_parent := hheader.parent.trans hF.leaf_parent
        node_at := (hother 2 (by decide)).trans hF.node_at
        node_mark := hF.node_mark
        first := hF.first
        stale := hF.stale
        keys := by
          rw [hseps]
          exact descending_sublist (List.Sublist.refl _) hF.keys
        nextFree := hF.nextFree.trans hlen.symm
        size := hF.size
        above := hF.above.congr rfl hF.leaf_at hF.leaf_mark hF.node_at hF.first
          fun x y hy hx _ => (hother x hx).trans hy
        chain := by
          rw [hheader.next]
          intro hnext
          obtain ⟨y, hy, hparent⟩ := hF.chain hnext
          exact ⟨y, (hother _ hnext).trans hy, hparent⟩ }

/-- **A full leaf** is split, and the node above it takes the new one. -/
lemma Front.split_leaf (hfull : a.size = 127) (row : ℕ) :
    ∃ g a' y, bptInsertRecord f (-(i : ℤ)) row
        = insertNode f.nodes.length g (allot f.m true) m ((-(i : ℤ) :: a.seps).getD 64 0)
          f.nodes.length ∧
      Cut f.look g.look a a' y 0 f.nodes.length ∧ spots y.row = [] ∧
      g.nodes.length = f.nodes.length + 1 ∧ a'.size = 64 ∧
      a'.parent = 2 ∧ y.parent = 2 ∧ a'.next = f.nodes.length ∧
      a'.seps = (-(i : ℤ) :: a.seps).take 64 := by
  obtain ⟨-, -, hkeys, hs, -⟩ := hF.below
  have hsound := hF.sound _ _ hF.leaf_at
  have hshape := hsound.shape
  have hH := halves 0 (-(i : ℤ)) row f.m.nextFree hshape
  have hrow : spots (rightHalf a 0 (-(i : ℤ)) row f.m.nextFree).row = [] := by
    rw [Node.row_of_leaf (hH.right_header.isLeaf.trans hF.leaf_mark), spots_keyRow]
  obtain ⟨g, hok, -, hlen, hcut⟩ := writeHalves_ok (allot f.m a.isLeaf) a.parent hH hF.nextFree
    (by rw [hsound.pos]; exact hF.leaf_at) fun c hc => by
      rw [hrow] at hc
      cases hc
  have hnode : g.look 2 = some m := by
    have hcut' := hcut.others_some (x := 2) (by rw [hsound.pos]; decide)
      (by have := hF.two_lt; rw [hF.nextFree]; omega) hF.node_at
    rw [hcut', if_neg]
    change 2 ∉ spots (rightHalf a 0 (-(i : ℤ)) row f.m.nextFree).row
    rw [hrow]
    exact List.not_mem_nil
  have hload : loadNode g a.parent = .ok m := by
    rw [hF.leaf_parent]
    exact fetch_eq_ok.mpr hnode
  rw [hsound.pos, hF.nextFree] at hcut
  refine ⟨g, _, _, ?_, hcut, hF.nextFree ▸ hrow, hlen, rfl, hF.leaf_parent, hF.leaf_parent, rfl, ?_⟩
  · rw [hF.insert_eq, insertNode_full hshape hfull hs (hF.overflow _) (countP_le_eq_zero hkeys),
      if_neg (by rw [hF.leaf_parent]; decide), hok, Outcome.ok_bind, hload, Outcome.ok_bind,
      separator_zero hshape hfull, hH.right_header.pos, hF.leaf_mark]
    exact congrArg _ hF.nextFree
  · exact seps_leftHalf _ _ hshape hfull

/-- **A full leaf** is split, and the node above it takes the new one. -/
theorem Front.split (hfull : a.size = 127) (hpos : 0 < m.size) (hroom : m.size < 127) (row : ℕ) :
    ∃ f' a' m', bptInsertRecord f (-(i : ℤ)) row = .ok f' ∧
      Front f' a' m' top w (i + 1) (movedWord m 0 % 256 != 0) ∧ a'.size = 64 ∧
      m'.size = m.size + 1 ∧ m'.children.tail = f.nodes.length :: m.children.tail ∧
      m'.parent = m.parent ∧ f'.nodes.length = f.nodes.length + 1 ∧ f'.m.root = f.m.root := by
  obtain ⟨g, a', y, heq, hcut, hrow, hlen, hsize, hparent, hyparent, hnext, hseps⟩ :=
    hF.split_leaf hfull row
  have hlt := hF.two_lt
  have hsound := hF.sound _ _ hF.node_at
  have hL : (-(i : ℤ) :: a.seps).length = 128 := by
    rw [List.length_cons, Node.length_seps (hF.sound _ _ hF.leaf_at).shape hfull.le, hfull]
  set sep := (-(i : ℤ) :: a.seps).getD 64 0 with hsep
  have hsub := take_getD_sublist (L := -(i : ℤ) :: a.seps) (by omega) (m.seps ++ top)
  have hkeys := hF.keys
  rw [List.append_assoc] at hkeys
  have hbelow : (sep :: m.seps).Pairwise (· < ·) :=
    ((List.pairwise_append.mp (hkeys.sublist hsub)).2.1.sublist
      ((List.sublist_append_left _ _).cons_cons sep))
  have hother : ∀ {x n}, f.look x = some n → x ≠ 0 → g.look x = some n := by
    intro x n hn hx
    have hxN : x ≠ f.nodes.length := by
      have := lt_length_of_look hn
      omega
    rw [hcut.others_some hx hxN hn, hrow, if_neg List.not_mem_nil]
  have hnode := hother hF.node_at (by decide)
  obtain ⟨m', hadd, hheader, hsize', hfirst, hbranches, hstale⟩ :=
    addEntryToNode_moves g sep f.nodes.length hsound.shape hF.node_mark hroom
      hF.below.2.2.2.2
  rw [← countP_le_eq_zero hbelow] at hheader hbranches hstale
  have hseps' : m'.seps = sep :: m.seps := by
    rw [Node.seps_eq_branches hheader.shape, hbranches, Node.seps_eq_branches hsound.shape]
    rfl
  have hpos' : m'.pos = 2 := hheader.pos.trans hsound.pos
  have hlook : (writeNode g m').look = Function.update g.look 2 (some m') := by
    rw [look_writeNode_over (m := m) (by rw [hpos']; exact hnode), hpos']
  have hlen' : (writeNode g m').nodes.length = f.nodes.length + 1 := by
    rw [length_writeNode (by rw [hpos']; exact lt_length_of_look hnode), hlen]
  obtain ⟨fuel, hfuel⟩ : ∃ fuel, f.nodes.length = fuel + 1 := ⟨f.nodes.length - 1, by omega⟩
  refine ⟨writeCm (writeNode g m') (allot f.m true), a', m', ?_, ?_, hsize, hsize', ?_,
    hheader.parent, hlen', rfl⟩
  · rw [heq, hfuel, insertNode_room hroom, ← hfuel, hadd, Outcome.ok_bind]
  · exact
      { sound := fun p n hn => by
          change (writeNode g m').look p = some n at hn
          rw [hlook, Function.update_apply] at hn
          split_ifs at hn with hp
          · cases hn
            exact ⟨hheader.shape, hpos'.trans hp.symm, by omega⟩
          · exact hcut.sound hF.sound p n hn
        leaf_at := by
          change (writeNode g m').look 0 = _
          rw [hlook, Function.update_of_ne (by decide), hcut.left_at]
        leaf_mark := hcut.left_isLeaf.trans hF.leaf_mark
        leaf_parent := hparent
        node_at := by
          change (writeNode g m').look 2 = _
          rw [hlook, Function.update_self]
        node_mark := hheader.isLeaf
        first := hfirst.trans hF.first
        stale := fun h127 => by
          rw [hsize', hstale hpos (by omega), hF.stale hroom]
        keys := by
          rw [hseps, hseps', List.append_assoc]
          exact descending_sublist hsub hkeys
        nextFree := (congrArg (· + 1) hF.nextFree).trans hlen'.symm
        size := Nat.succ_ne_zero _
        above := hF.above.congr rfl hF.leaf_at hF.leaf_mark hF.node_at hF.first
          fun x n hn hx hx2 => by
            change (writeNode g m').look x = _
            rw [hlook, Function.update_of_ne hx2, hother hn hx]
        chain := fun _ => by
          refine ⟨y, ?_, by rw [hyparent]; decide⟩
          change (writeNode g m').look a'.next = _
          rw [hlook, hnext, Function.update_of_ne (by omega), hcut.right_at] }
  · rw [Node.children_eq hheader.shape, Node.children_eq hsound.shape, hbranches]
    rfl

omit hF

/-- The leaf takes records until it is full. -/
theorem Front.fill (n : ℕ) : ∀ {f : BptFile} {a : Node} {i : ℕ}, Front f a m top w i false →
    a.size + n ≤ 127 → ∃ f' a', bptInsertRecords f (descendingRecords i n) = .ok f' ∧
      Front f' a' m top w (i + n) false ∧ a'.size = a.size + n ∧
      f'.nodes.length = f.nodes.length ∧ f'.m = f.m := by
  induction n with
  | zero =>
      intro f a i hF _
      exact ⟨f, a, rfl, hF, rfl, rfl, rfl⟩
  | succ n ih =>
      intro f a i hF hroom
      obtain ⟨g, a₁, hok, hF₁, hsize, hlen, hm⟩ := hF.room (by omega) i
      obtain ⟨f', a', hrun, hF', hsize', hlen', hm'⟩ := ih hF₁ (by omega)
      rw [Nat.add_comm n 1]
      refine ⟨f', a', descending_trans (descending_one hok) hrun, ?_, by omega, hlen'.trans hlen,
        hm'.trans hm⟩
      rw [← Nat.add_assoc]
      exact hF'

/-- **One round**: the half full leaf is filled and split. -/
theorem Front.round (hF : Front f a m top w i false) (hhalf : a.size = 64) (hpos : 0 < m.size)
    (hroom : m.size < 127) :
    ∃ f' a' m', bptInsertRecords f (descendingRecords i 64) = .ok f' ∧
      Front f' a' m' top w (i + 64) (movedWord m 0 % 256 != 0) ∧ a'.size = 64 ∧
      m'.size = m.size + 1 ∧ m'.children.tail = f.nodes.length :: m.children.tail ∧
      m'.parent = m.parent ∧ f'.nodes.length = f.nodes.length + 1 ∧ f'.m.root = f.m.root := by
  obtain ⟨g, a₁, hrun, hF₁, hsize, hlen, hm⟩ := hF.fill 63 (by omega)
  obtain ⟨f', a', m', hok, hF', hsize', hnode, htail, hparent, hlen', hroot⟩ :=
    hF₁.split (by omega) hpos hroom (i + 63)
  rw [hlen] at htail hlen'
  exact ⟨f', a', m', descending_trans hrun (descending_one hok), hF', hsize', hnode, htail, hparent,
    hlen', hroot.trans (congrArg _ hm)⟩

lemma Front.movedWord_eq (hF : Front f a m top w i false) :
    movedWord m 0 = if m.size = 126 then w else 0 := by
  rw [movedWord]
  split_ifs with h h' h'
  · rw [← hF.stale (by omega), h']
  · exact absurd h.1 h'
  · exact absurd ⟨h', by decide⟩ h
  · rfl

/-- Rounds below a root: the node at `2` takes a node in each. -/
theorem Front.rounds (n : ℕ) : ∀ {f : BptFile} {a m : Node} {i : ℕ}, Front f a m top w i false →
    a.size = 64 → 0 < m.size → m.size + n ≤ 126 →
    ∃ f' a' m', bptInsertRecords f (descendingRecords i (64 * n)) = .ok f' ∧
      Front f' a' m' top w (i + 64 * n) false ∧ a'.size = 64 ∧ m'.size = m.size + n := by
  induction n with
  | zero =>
      intro f a m i hF hhalf _ _
      exact ⟨f, a, m, rfl, hF, hhalf, rfl⟩
  | succ n ih =>
      intro f a m i hF hhalf hpos hroom
      obtain ⟨g, a₁, m₁, hrun, hF₁, hhalf₁, hsize, -⟩ := hF.round hhalf hpos (by omega)
      rw [hF.movedWord_eq, if_neg (by omega)] at hF₁
      obtain ⟨f', a', m', hrun', hF', hhalf', hsize'⟩ := ih hF₁ hhalf₁ (by omega) (by omega)
      rw [show 64 * (n + 1) = 64 + 64 * n by omega]
      refine ⟨f', a', m', descending_trans hrun hrun', ?_, hhalf', by omega⟩
      rw [← Nat.add_assoc]
      exact hF'

end Front

/-! ### The node at `2` as the root -/

/-- The node at `2` is the root, and no child of it but the first is at `0`. -/
structure FrontRoot (f : BptFile) (a m : Node) (i : ℕ) : Prop where
  front : Front f a m [] 0 i false
  parent : m.parent = 0
  length : f.nodes.length = m.size + 2
  kids : ∀ c ∈ m.children.tail, 0 < c ∧ c < f.nodes.length

section Root

variable {f : BptFile} {a m : Node} {i : ℕ}

lemma FrontRoot.fill (n : ℕ) (hF : FrontRoot f a m i) (hroom : a.size + n ≤ 127) :
    ∃ f' a', bptInsertRecords f (descendingRecords i n) = .ok f' ∧ FrontRoot f' a' m (i + n) ∧
      a'.size = a.size + n := by
  obtain ⟨f', a', hrun, hF', hsize, hlen, -⟩ := hF.front.fill n hroom
  exact ⟨f', a', hrun, ⟨hF', hF.parent, hlen.trans hF.length, by rw [hlen]; exact hF.kids⟩, hsize⟩

/-- Rounds below the root at `2`. -/
theorem FrontRoot.rounds (n : ℕ) : ∀ {f : BptFile} {a m : Node} {i : ℕ}, FrontRoot f a m i →
    a.size = 64 → 0 < m.size → m.size + n ≤ 127 →
    ∃ f' a' m', bptInsertRecords f (descendingRecords i (64 * n)) = .ok f' ∧
      FrontRoot f' a' m' (i + 64 * n) ∧ a'.size = 64 ∧ m'.size = m.size + n := by
  induction n with
  | zero =>
      intro f a m i hF hhalf _ _
      exact ⟨f, a, m, rfl, hF, hhalf, rfl⟩
  | succ n ih =>
      intro f a m i hF hhalf hpos hroom
      obtain ⟨g, a₁, m₁, hrun, hF₁, hhalf₁, hsize, htail, hparent, hlen, hroot⟩ :=
        hF.front.round hhalf hpos (by omega)
      have hmark : (movedWord m 0 % 256 != 0) = false := by
        rw [hF.front.movedWord_eq, ite_self]
        rfl
      rw [hmark] at hF₁
      have hlen₀ := hF.length
      have hroot₁ : FrontRoot g a₁ m₁ (i + 64) := by
        refine ⟨hF₁, hparent.trans hF.parent, by omega, fun c hc => ?_⟩
        rw [htail, List.mem_cons] at hc
        rcases hc with rfl | hc
        · omega
        · have := hF.kids c hc
          omega
      obtain ⟨f', a', m', hrun', hF', hhalf', hsize'⟩ := ih hroot₁ hhalf₁ (by omega) (by omega)
      rw [show 64 * (n + 1) = 64 + 64 * n by omega]
      refine ⟨f', a', m', descending_trans hrun hrun', ?_, hhalf', by omega⟩
      rw [← Nat.add_assoc]
      exact hF'

/-- The children of the root, with the next one, are in the file that it is in. -/
lemma FrontRoot.children_le (hF : FrontRoot f a m i) :
    ∀ c ∈ f.nodes.length :: m.children, c ≤ f.nodes.length := by
  have hshape := (hF.front.sound _ _ hF.front.node_at).shape
  intro c hc
  rw [Node.children_eq hshape, List.mem_cons, List.mem_cons] at hc
  rcases hc with rfl | rfl | hc
  · exact le_rfl
  · rw [hF.front.first]
    exact Nat.zero_le _
  · exact (hF.kids c (by rw [Node.children_eq hshape]; exact hc)).2.le

/-- The leaf at `0` is no child of the right half of a full root. -/
lemma FrontRoot.zero_notMem (hF : FrontRoot f a m i) (hmfull : m.size = 127) (sep : ℤ) (N : ℕ) :
    0 ∉ spots (rightHalf m 0 sep f.nodes.length N).row := by
  have hshape := (hF.front.sound _ _ hF.front.node_at).shape
  have hinner := hF.front.node_mark
  have hH := halves 0 sep f.nodes.length N hshape
  have hlen := hF.length
  intro hright
  have hleft : 0 ∈ spots (leftHalf m 0 sep f.nodes.length N).row := by
    rw [Node.spots_row_of_inner hH.left_header.shape (hH.left_header.isLeaf.trans hinner),
      Node.children_eq hH.left_header.shape,
      (pointers_leftHalf_front sep f.nodes.length N hshape hinner hmfull).1, hF.front.first]
    exact List.mem_cons_self
  -- it is the first child of the root, and none of the others
  have hshared := children_halves sep f.nodes.length N hshape hinner hmfull (Nat.zero_le _)
  have hcount := hshared.count_eq 0
  rw [Node.children_eq hshape, hF.front.first, List.count_append,
    List.count_cons_of_ne (by omega), List.count_cons_self,
    List.count_eq_zero.mpr fun h0 => by
      have := hF.kids 0 (by rw [Node.children_eq hshape]; exact h0)
      omega] at hcount
  have := List.count_pos_iff.mpr hleft
  have := List.count_pos_iff.mpr hright
  omega

/-- A full root takes a key in front: its halves, and the root above them. -/
lemma FrontRoot.halved (hF : FrontRoot f a m i) (hmfull : m.size = 127) {g : BptFile} {sep : ℤ}
    {N : ℕ} (hN : N = g.nodes.length) (hlen : g.nodes.length = f.nodes.length + 1)
    (hnode : g.look 2 = some m) (hsound : ∀ p n, g.look p = some n → Sound n p)
    (hbelow : (sep :: m.seps).Pairwise (· < ·)) :
    ∃ g', insertNode f.nodes.length g (allot f.m true) m sep f.nodes.length
        = .ok (withRoot g' (allot (allot f.m true) m.isLeaf) 2 N ((sep :: m.seps).getD 64 0)) ∧
      g'.nodes.length = N + 1 ∧
      Cut g.look g'.look m { leftHalf m 0 sep f.nodes.length N with parent := N + 1 }
        { rightHalf m 0 sep f.nodes.length N with parent := N + 1 } 2 N := by
  have hF₀ := hF.front
  have hpos := (hF₀.sound _ _ hF₀.node_at).pos
  have hshape := (hF₀.sound _ _ hF₀.node_at).shape
  have hfree : (allot f.m true).nextFree = N := by
    rw [hN, hlen, ← hF₀.nextFree]
    rfl
  have hshared := children_halves sep f.nodes.length N hshape hF₀.node_mark hmfull (Nat.zero_le _)
  have hchild : ∀ c ∈ f.nodes.length :: m.children, ∃ x, g.look c = some x ∧ x.pos = c := by
    intro c hc
    have hlt : c < g.nodes.length := by
      rw [hlen]
      exact Nat.lt_succ_of_le (hF.children_le c hc)
    have hget : g.look c = some g.nodes[c] := List.getElem?_eq_getElem hlt
    exact ⟨_, hget, (hsound c _ hget).pos⟩
  obtain ⟨g', hok, -, hlen', hcut⟩ := writeHalves_ok (f := g) (allot (allot f.m true) m.isLeaf)
    (N + 1) (halves 0 sep f.nodes.length N hshape) hN (by rw [hpos]; exact hnode) fun c hc =>
      hchild c (hshared.mem_iff.mpr (List.mem_append_right _ hc))
  rw [hpos] at hcut
  refine ⟨g', ?_, by rw [hlen', hN], hcut⟩
  have hlen₀ := hF.length
  obtain ⟨fuel, hfuel⟩ : ∃ fuel, f.nodes.length = fuel + 1 := ⟨f.nodes.length - 1, by omega⟩
  have hover : overflowNode g m sep = .ok none := by
    rw [overflowNode, if_neg (by rw [hF₀.node_mark]; exact fun h => Bool.false_ne_true h.1)]
  rw [hfuel, insertNode_root_front hshape hmfull hbelow hF.parent hover hfree (hfuel ▸ hok), hpos]

/-- **The split of a full root** leaves its `66`th pointer behind those of its left half. -/
theorem FrontRoot.split (hF : FrontRoot f a m i) (hfull : a.size = 127) (hmfull : m.size = 127)
    (row : ℕ) :
    ∃ f' a' m' top w, bptInsertRecord f (-(i : ℤ)) row = .ok f' ∧
      Front f' a' m' top w (i + 1) false ∧ a'.size = 64 ∧ m'.size = 64 ∧ w % 256 ≠ 0 := by
  obtain ⟨g, a', y, heq, hcut, hrow, hlen, hsize, hparent, hyparent, hnext, hseps⟩ :=
    hF.front.split_leaf hfull row
  have hF₀ := hF.front
  have hlen₀ := hF.length
  have hsound := hF₀.sound _ _ hF₀.node_at
  have hshape := hsound.shape
  have hL : (-(i : ℤ) :: a.seps).length = 128 := by
    rw [List.length_cons, Node.length_seps (hF₀.sound _ _ hF₀.leaf_at).shape hfull.le, hfull]
  have hkeys := hF₀.keys
  rw [List.append_nil] at hkeys
  set sep := (-(i : ℤ) :: a.seps).getD 64 0 with hsep
  have hsub := take_getD_sublist (L := -(i : ℤ) :: a.seps) (by omega) m.seps
  have hbelow : (sep :: m.seps).Pairwise (· < ·) :=
    (List.pairwise_append.mp (hkeys.sublist hsub)).2.1
  have hM : (sep :: m.seps).length = 128 := by
    rw [List.length_cons, Node.length_seps hshape hmfull.le, hmfull]
  have hnode : g.look 2 = some m := by
    rw [hcut.others_some (by decide) (by omega) hF₀.node_at, hrow, if_neg List.not_mem_nil]
  -- the split of the root
  obtain ⟨N, hN⟩ : ∃ N, N = g.nodes.length := ⟨_, rfl⟩
  obtain ⟨g', hok, hlen', hcut'⟩ :=
    hF.halved hmfull hN hlen hnode (hcut.sound hF₀.sound) hbelow
  have hcm : (allot (allot f.m true) m.isLeaf).nextFree = N + 1 := by
    rw [hN, hlen, ← hF₀.nextFree]
    rfl
  have hzero := hF.zero_notMem hmfull sep N
  obtain ⟨hfirst, hw⟩ := pointers_leftHalf_front sep f.nodes.length N hshape
    hF₀.node_mark hmfull
  have hN0 : N ≠ 0 := by omega
  set top := (sep :: m.seps).getD 64 0 with htop
  set r := rootOver (N + 1) 2 N top with hr
  set f' := withRoot g' (allot (allot f.m true) m.isLeaf) 2 N top with hf'
  set m' : Node := { leftHalf m 0 sep f.nodes.length N with parent := N + 1 } with hm'
  have hmeta : (allot (allot f.m true) m.isLeaf).nextFree = g'.nodes.length := by
    rw [hcm, hlen']
  have hlook : f'.look = Function.update g'.look (N + 1) (some r) := by
    rw [hf', look_withRoot _ _ _ hmeta, hcm]
  have hmseps : m'.seps = (sep :: m.seps).take 64 :=
    seps_leftHalf f.nodes.length N hshape hmfull
  have hsub' := take_getD_sublist (L := sep :: m.seps) (by omega) []
  refine ⟨f', a', m', [top], m.pointers.getD 65 0, heq.trans hok, ?_, hsize, rfl, ?_⟩
  · exact
      { sound := fun p n hn => by
          rw [hlook, Function.update_apply] at hn
          split_ifs at hn with hp
          · cases hn
            exact hp ▸ sound_rootOver (N + 1) 2 N top
          · exact hcut'.sound (hcut.sound hF₀.sound) p n hn
        leaf_at := by
          rw [hlook, Function.update_of_ne (by omega),
            hcut'.others_some (by decide) (by omega) hcut.left_at]
          exact congrArg some (if_neg hzero)
        leaf_mark := hcut.left_isLeaf.trans hF₀.leaf_mark
        leaf_parent := hparent
        node_at := by
          rw [hlook, Function.update_of_ne (by omega), hcut'.left_at]
        node_mark := hF₀.node_mark
        first := hfirst.trans hF₀.first
        stale := fun _ => hw
        keys := by
          rw [hseps, hmseps, List.append_assoc]
          refine descending_sublist (List.Sublist.trans ?_ hsub) hkeys
          rw [List.append_nil] at hsub'
          exact (List.Sublist.refl _).append hsub'
        nextFree := by
          rw [hf', length_withRoot _ _ _ hmeta, ← hmeta]
          rfl
        size := by
          rw [hf', withRoot, hF₀.node_mark]
          exact Nat.succ_ne_zero _
        above := Or.inr ⟨r, by
          have hroot : f'.m.root = N + 1 := hcm
          rw [hroot, hlook, Function.update_self], rfl, rfl, rfl⟩
        chain := fun _ => by
          have hy := hcut'.others_some (x := f.nodes.length) (by omega) (by omega) hcut.right_at
          refine ⟨_, by rw [hnext, hlook, Function.update_of_ne (by omega), hy], ?_⟩
          split_ifs
          · exact hN0
          · rw [hyparent]
            decide }
  · have hmem : m.pointers.getD 65 0 ∈ m.children.tail :=
      getD_mem_children_tail hshape hmfull (show 64 < 127 by decide)
    have := hF.kids _ hmem
    rw [Nat.mod_eq_of_lt (by omega)]
    omega

end Root

/-! ### The leaf alone -/

/-- The leaf `a` is the only node, and the keys of the records from the `i`th on are below its
keys. -/
structure Alone (f : BptFile) (a : Node) (i : ℕ) : Prop where
  nodes : f.nodes = [a]
  header : f.m = { type := .bptree, size := 1, nextFree := 1, root := 0 }
  sound : Sound a 0
  mark : a.isLeaf = true
  parent : a.parent = 0
  next : a.next = 0
  keys : (-(i : ℤ) :: a.seps).Pairwise (· < ·)

section Alone

variable {f : BptFile} {a : Node} {i : ℕ}

lemma Alone.look (hA : Alone f a i) : f.look 0 = some a := by
  rw [BptFile.look, hA.nodes]
  rfl

lemma Alone.insert_eq (hA : Alone f a i) (row : ℕ) : bptInsertRecord f (-(i : ℤ)) row
    = insertNode 2 f f.m a (-(i : ℤ)) row := by
  have hload : loadNode f f.m.root = .ok a := by
    rw [hA.header]
    exact fetch_eq_ok.mpr hA.look
  rw [bptInsertRecord, if_neg (by rw [hA.header]; decide), hload, Outcome.ok_bind, findLeaf,
    if_pos hA.mark, Outcome.ok_bind, hA.nodes]
  rfl

lemma Alone.room (hA : Alone f a i) (hroom : a.size < 127) (row : ℕ) :
    ∃ f' a', bptInsertRecord f (-(i : ℤ)) row = .ok f' ∧ Alone f' a' (i + 1) ∧
      a'.size = a.size + 1 := by
  obtain ⟨a', hadd, hheader, hsize, hseps⟩ :=
    addEntryToNode_front f row hA.sound.shape hA.mark hroom hA.keys
  have hpos : a'.pos = 0 := hheader.pos.trans hA.sound.pos
  refine ⟨writeCm (writeNode f a') f.m, a', ?_, ⟨?_, hA.header, ⟨hheader.shape, hpos, by omega⟩,
    hheader.isLeaf.trans hA.mark, hheader.parent.trans hA.parent, hheader.next.trans hA.next, ?_⟩,
    hsize⟩
  · rw [hA.insert_eq, insertNode_room hroom, hadd, Outcome.ok_bind]
  · change (writeNode f a').nodes = [a']
    rw [writeNode, hpos, hA.nodes]
    rfl
  · rw [hseps]
    exact descending_sublist (List.Sublist.refl _) hA.keys

lemma Alone.fill (n : ℕ) : ∀ {f : BptFile} {a : Node} {i : ℕ}, Alone f a i → a.size + n ≤ 127 →
    ∃ f' a', bptInsertRecords f (descendingRecords i n) = .ok f' ∧ Alone f' a' (i + n) ∧
      a'.size = a.size + n := by
  induction n with
  | zero =>
      intro f a i hA _
      exact ⟨f, a, rfl, hA, rfl⟩
  | succ n ih =>
      intro f a i hA hroom
      obtain ⟨g, a₁, hok, hA₁, hsize⟩ := hA.room (by omega) i
      obtain ⟨f', a', hrun, hA', hsize'⟩ := ih hA₁ (by omega)
      rw [Nat.add_comm n 1]
      refine ⟨f', a', descending_trans (descending_one hok) hrun, ?_, by omega⟩
      rw [← Nat.add_assoc]
      exact hA'

/-- **The split of the only leaf** makes the root at `2`. -/
theorem Alone.split (hA : Alone f a i) (hfull : a.size = 127) (row : ℕ) :
    ∃ f' a' m, bptInsertRecord f (-(i : ℤ)) row = .ok f' ∧ FrontRoot f' a' m (i + 1) ∧
      a'.size = 64 ∧ m.size = 1 := by
  have hshape := hA.sound.shape
  have hL : (-(i : ℤ) :: a.seps).length = 128 := by
    rw [List.length_cons, Node.length_seps hshape hfull.le, hfull]
  have hsub := take_getD_sublist (L := -(i : ℤ) :: a.seps) (by omega) []
  have hfree : f.m.nextFree = 1 := by rw [hA.header]
  have hlen₀ : f.nodes.length = 1 := by rw [hA.nodes]; rfl
  have hH := halves 0 (-(i : ℤ)) row 1 hshape
  have hrow : spots (rightHalf a 0 (-(i : ℤ)) row 1).row = [] := by
    rw [Node.row_of_leaf (hH.right_header.isLeaf.trans hA.mark), spots_keyRow]
  obtain ⟨g, hok, -, hlen, hcut⟩ := writeHalves_ok (allot f.m a.isLeaf) 2 hH hlen₀.symm
    (by rw [hA.sound.pos]; exact hA.look) fun c hc => by
      rw [hrow] at hc
      cases hc
  rw [hA.sound.pos] at hcut
  have hmeta : (allot f.m a.isLeaf).nextFree = g.nodes.length := by
    rw [hlen, hlen₀]
    exact congrArg (· + 1) hfree
  have hover : overflowNode f a (-(i : ℤ)) = .ok none := by
    rw [overflowNode, if_neg fun h => h.2 hA.next]
  set top := (-(i : ℤ) :: a.seps).getD 64 0 with htop
  set m := rootOver 2 0 1 top with hm
  set a' : Node := { leftHalf a 0 (-(i : ℤ)) row 1 with parent := 2 } with ha'
  set f' := withRoot g (allot f.m a.isLeaf) 0 1 top with hf'
  have hlen' : f'.nodes.length = 3 := by rw [hf', length_withRoot _ _ _ hmeta, hlen, hlen₀]
  have hlook : f'.look = Function.update g.look 2 (some m) := by
    rw [hf', look_withRoot _ _ _ hmeta, hmeta, hlen, hlen₀]
  have hsound : ∀ p n, f.look p = some n → Sound n p := by
    intro p n hn
    have hp : p < f.nodes.length := lt_length_of_look hn
    obtain rfl : p = 0 := by omega
    cases hA.look.symm.trans hn
    exact hA.sound
  refine ⟨f', a', m, ?_, ⟨?_, rfl, hlen', fun c hc => ?_⟩, rfl, rfl⟩
  · rw [hA.insert_eq, insertNode_root_front hshape hfull hA.keys hA.parent hover hfree hok,
      hA.sound.pos]
  · exact
      { sound := fun p n hn => by
          rw [hlook, Function.update_apply] at hn
          split_ifs at hn with hp
          · cases hn
            exact hp ▸ sound_rootOver 2 0 1 top
          · exact hcut.sound hsound p n hn
        leaf_at := by rw [hlook, Function.update_of_ne (by decide), hcut.left_at]
        leaf_mark := hcut.left_isLeaf.trans hA.mark
        leaf_parent := rfl
        node_at := by rw [hlook, Function.update_self]
        node_mark := rfl
        first := rfl
        stale := fun _ => rfl
        keys := by
          rw [List.append_nil]
          rw [List.append_nil] at hsub
          have hseps : a'.seps = (-(i : ℤ) :: a.seps).take 64 := seps_leftHalf row 1 hshape hfull
          rw [hseps]
          exact descending_sublist hsub hA.keys
        nextFree := by
          rw [hlen', hf']
          exact congrArg (· + 2) hfree
        size := by
          rw [hf', withRoot, hA.mark]
          exact Nat.succ_ne_zero _
        above := Or.inl ⟨by
          rw [hf', withRoot, hmeta, hlen, hlen₀]
          rfl, rfl⟩
        chain := fun _ => by
          have hnext : a'.next = 1 := hH.left_header.next
          refine ⟨_, by rw [hnext, hlook, Function.update_of_ne (by decide), hcut.right_at], ?_⟩
          exact Nat.succ_ne_zero 1 }
  · have hchildren : m.children.tail = [1] := rfl
    rw [hchildren, List.mem_singleton] at hc
    omega

/-- **The run**: the node at `2` has been the root, was split and has `126` keys again. -/
theorem descending_front :
    ∃ f a m top w, bptInsertRecords .makeNew (descendingRecords 0 12224) = .ok f ∧
      Front f a m top w 12224 false ∧ a.size = 64 ∧ m.size = 126 ∧ w % 256 ≠ 0 := by
  have hfirst : bptInsertRecords .makeNew (descendingRecords 0 1)
      = .ok ⟨{ type := .bptree, size := 1, nextFree := 1, root := 0 }, [firstLeaf 0 0]⟩ := rfl
  have hA : Alone ⟨{ type := .bptree, size := 1, nextFree := 1, root := 0 }, [firstLeaf 0 0]⟩
      (firstLeaf 0 0) 1 := by
    refine ⟨rfl, rfl, sound_firstLeaf 0 0, rfl, rfl, rfl, ?_⟩
    change [(-((1 : ℕ) : ℤ)), 0].Pairwise (· < ·)
    decide
  obtain ⟨f₁, a₁, hrun₁, hA₁, hsize₁⟩ := hA.fill 126 (by decide)
  obtain ⟨f₂, a₂, m₂, hok₂, hF₂, hsize₂, hm₂⟩ := hA₁.split hsize₁ 127
  obtain ⟨f₃, a₃, m₃, hrun₃, hF₃, hsize₃, hm₃⟩ := hF₂.rounds 126 hsize₂ (by omega) (by omega)
  obtain ⟨f₄, a₄, hrun₄, hF₄, hsize₄⟩ := hF₃.fill 63 (by omega)
  obtain ⟨f₅, a₅, m₅, top, w, hok₅, hF₅, hsize₅, hm₅, hw⟩ := hF₄.split (by omega) (by omega) 8255
  obtain ⟨f, a, m, hrun, hF, hsize, hm⟩ := hF₅.rounds 62 hsize₅ (by omega) (by omega)
  refine ⟨f, a, m, top, w, ?_, hF, hsize, by omega, hw⟩
  have hrun₂ := descending_trans (descending_trans hfirst hrun₁) (descending_one hok₂)
  have hrun₅ := descending_trans (descending_trans hrun₂ hrun₃)
    (descending_trans hrun₄ (descending_one hok₅))
  exact descending_trans hrun₅ hrun

/-- So the next split below it writes that pointer over its mark. -/
theorem descending_marked :
    ∃ f a m top w, bptInsertRecords .makeNew (descendingRecords 0 12288) = .ok f ∧
      Front f a m top w 12288 true := by
  obtain ⟨f, a, m, top, w, hrun, hF, hhalf, hsize, hw⟩ := descending_front
  obtain ⟨f', a', m', hrun', hF', -⟩ := hF.round hhalf (by omega) (by omega)
  have hmark : (movedWord m 0 % 256 != 0) = true := by
    rw [hF.movedWord_eq, if_pos hsize]
    simpa using hw
  rw [hmark] at hF'
  exact ⟨f', a', m', top, w, descending_trans hrun hrun', hF'⟩

end Alone

end ColumnDb
