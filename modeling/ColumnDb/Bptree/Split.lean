import ColumnDb.Bptree.Indexed

/-!
The splits of an insert, from the leaf up to the root.

* `TakesBehind`, `splitsInPlace`: where the split of a node puts the new node in the parent.
  The upper bound of the separator has to be the place of the node that was split; with a key
  equal to the separator behind that place it is not, and the new node lands further right.
* `Pending`: the invariant going up. The file is a tree once the node at hand has taken its
  new entry.
* `Pending.split_below`, `Pending.split_root`: what a split does to it.
* `insertNode_inner`: an insert into an interior node ends with a tree over the same leaves, or
  fails the assertion on the root.
-/

namespace ColumnDb

/-! ### Where a split puts the new node -/

instance (n : Node) (key : ℤ) : Decidable (KeepsMark n key) :=
  inferInstanceAs (Decidable (_ → _ → _))

/-- The parent `m` of the node at `c` takes a new node right behind it, and stays an interior
node. -/
def TakesBehind (m : Node) (c : ℕ) (sep : ℤ) : Prop :=
  m.pointers[m.seps.countP (· ≤ sep)]? = some c ∧ KeepsMark m sep

instance (m : Node) (c : ℕ) (sep : ℤ) : Decidable (TakesBehind m c sep) :=
  inferInstanceAs (Decidable (_ ∧ _))

/-- Going up from `n` through full nodes, every parent takes the new node right behind the one
that is split. -/
def splitsInPlace : ℕ → BptFile → Node → ℤ → Bool
  | 0, _, _, _ => true
  | fuel + 1, f, n, key =>
      if n.size < bptSize - 1 ∨ n.parent = 0 then true
      else
        match f.look n.parent with
        | none => true
        | some m =>
            decide (TakesBehind m n.pos (separator n (n.seps.countP (· ≤ key)) key)) &&
              splitsInPlace fuel f m (separator n (n.seps.countP (· ≤ key)) key)

/-- A node with room, or without a parent, ends the way up. -/
lemma splitsInPlace_of_top {f : BptFile} {n : Node} (fuel : ℕ) (key : ℤ)
    (htop : n.size < 127 ∨ n.parent = 0) : splitsInPlace (fuel + 1) f n key = true := by
  rw [splitsInPlace]
  exact if_pos htop

/-- A full node goes on with its parent. -/
lemma splitsInPlace_full {f : BptFile} {n m : Node} {key : ℤ} (fuel : ℕ) (hsize : n.size = 127)
    (hroot : n.parent ≠ 0) (hm : f.look n.parent = some m) :
    splitsInPlace (fuel + 1) f n key = true ↔
      TakesBehind m n.pos (separator n (n.seps.countP (· ≤ key)) key) ∧
        splitsInPlace fuel f m (separator n (n.seps.countP (· ≤ key)) key) = true := by
  rw [splitsInPlace, if_neg (by rw [hsize]; exact not_or.mpr ⟨by decide, hroot⟩), hm]
  simp only [Bool.and_eq_true, decide_eq_true_eq]

/-- The condition looks at the nodes above only. -/
lemma splitsInPlace_congr {f g : BptFile} {S : ℕ → Prop} (hS : ∀ x, S x → g.look x = f.look x)
    (hup : ∀ x m, S x → f.look x = some m → m.parent ≠ 0 → S m.parent) (fuel : ℕ) :
    ∀ (n : Node) (key : ℤ), (n.parent ≠ 0 → S n.parent) →
      splitsInPlace fuel g n key = splitsInPlace fuel f n key := by
  induction fuel with
  | zero => exact fun n key _ => rfl
  | succ fuel ih =>
      intro n key hn
      rw [splitsInPlace, splitsInPlace]
      split_ifs with htop
      · rfl
      · have hpar := hn (not_or.mp htop).2
        rw [hS _ hpar]
        cases hm : f.look n.parent with
        | none => rfl
        | some m =>
            simp only
            rw [ih m _ (hup _ m hpar hm)]

/-! ### Writing nodes -/

section Files

variable {f : BptFile} {n : Node}

lemma look_writeNode (hpos : n.pos ≤ f.nodes.length) (x : ℕ) :
    (writeNode f n).look x = if x = n.pos then some n else f.look x := by
  rw [BptFile.look, writeNode, BptFile.look]
  split_ifs with hx
  · rw [hx, getElem?_writeAt_self]
  · rcases Nat.lt_or_ge x f.nodes.length with hlt | hge
    · exact getElem?_writeAt_of_ne n hlt hx
    · rw [List.getElem?_eq_none hge, List.getElem?_eq_none]
      rw [length_writeAt]
      omega

/-- A node is written over another one. -/
lemma look_writeNode_over {m : Node} (hm : f.look n.pos = some m) :
    (writeNode f n).look = Function.update f.look n.pos (some n) := by
  have hlt : n.pos < f.nodes.length := (List.getElem?_eq_some_iff.mp hm).1
  funext x
  rw [Function.update_apply, look_writeNode hlt.le]

lemma length_writeNode (hpos : n.pos < f.nodes.length) :
    (writeNode f n).nodes.length = f.nodes.length := by
  rw [writeNode, length_writeAt]
  omega

lemma length_writeNode_new (hpos : n.pos = f.nodes.length) :
    (writeNode f n).nodes.length = f.nodes.length + 1 := by
  rw [writeNode, length_writeAt]
  omega

lemma lt_length_of_look {p : ℕ} (h : f.look p = some n) : p < f.nodes.length :=
  (List.getElem?_eq_some_iff.mp h).1

lemma look_length (f : BptFile) : f.look f.nodes.length = none :=
  List.getElem?_eq_none le_rfl

/-- The loop that gives the children of the right half their new parent. -/
lemma reparent_ok (N : ℕ) (cs : List ℕ) : ∀ {f : BptFile},
    (∀ c ∈ cs, ∃ m, f.look c = some m ∧ m.pos = c) →
    ∃ g, reparent f N cs = .ok g ∧ g.m = f.m ∧ g.nodes.length = f.nodes.length ∧
      ∀ x, g.look x = (f.look x).map fun m => if x ∈ cs then { m with parent := N } else m := by
  induction cs with
  | nil =>
      intro f _
      exact ⟨f, rfl, rfl, rfl, fun x => by simp⟩
  | cons c cs ih =>
      intro f hcs
      obtain ⟨m, hm, hpos⟩ := hcs c List.mem_cons_self
      have hlt := lt_length_of_look hm
      have hlook : ∀ x, (writeNode f { m with parent := N }).look x
          = if x = c then some { m with parent := N } else f.look x := fun x => by
        have hle : ({ m with parent := N } : Node).pos ≤ f.nodes.length := by
          change m.pos ≤ _
          omega
        rw [look_writeNode hle x]
        exact if_congr (by rw [hpos]) rfl rfl
      obtain ⟨g, hok, hmeta, hlen, hg⟩ := @ih (writeNode f { m with parent := N })
        fun c' hc' => by
          rw [hlook]
          split_ifs with hcc
          · exact ⟨_, rfl, by rw [hcc, hpos]⟩
          · exact hcs c' (List.mem_cons_of_mem _ hc')
      refine ⟨g, ?_, hmeta, hlen.trans (length_writeNode (by rw [← hpos] at hlt; exact hlt)),
        fun x => ?_⟩
      · have hload : loadNode f c = .ok m := fetch_eq_ok.mpr hm
        rw [reparent, List.foldlM_cons, hload, Outcome.ok_bind]
        exact hok
      · rw [hg, hlook]
        by_cases hx : x = c
        · rw [if_pos hx, hx, hm]
          simp
        · rw [if_neg hx]
          simp [hx]

end Files

/-! ### The insert into a full node -/

section Full

variable {f : BptFile} {cm : ColumnMeta} {n : Node} {key : ℤ} {pointer fuel : ℕ}

/-- The header after a node is made. -/
def allot (cm : ColumnMeta) (isLeaf : Bool) : ColumnMeta :=
  { cm with
    nextFree := cm.nextFree + 1
    size := if isLeaf then cm.size + 1 else cm.size }

/-- The new root of `_insert_node`, at the position `r`. -/
def rootOver (r left right : ℕ) (key : ℤ) : Node :=
  let parent := newNode false r
  { parent with
    keys := parent.keys.set 0 key
    pointers := (parent.pointers.set 0 left).set 1 right
    size := 1 }

/-- The file with a new root over two nodes. -/
def withRoot (f : BptFile) (cm : ColumnMeta) (left right : ℕ) (key : ℤ) : BptFile :=
  writeCm (writeNode f (rootOver cm.nextFree left right key))
    { allot cm false with root := cm.nextFree }

/-- The file after a node is split: the children of the right half have their new parent, the
halves, with the parent `q`, are written. The right one goes to `r`. -/
def writeHalves (f : BptFile) (cm : ColumnMeta) (n left right : Node) (r q : ℕ) :
    Outcome BptFile := do
  let g ← if n.isLeaf then .ok (writeCm f cm) else reparent (writeCm f cm) r right.children
  .ok (writeNode (writeNode g { right with parent := q }) { left with parent := q })

lemma row_rootOver (r left right : ℕ) (key : ℤ) :
    (rootOver r left right key).row = [Sum.inl left, Sum.inr key, Sum.inl right] := rfl

lemma sound_rootOver (r left right : ℕ) (key : ℤ) : Sound (rootOver r left right key) r := by
  refine ⟨⟨?_, ?_⟩, rfl, show 1 ≤ 127 by decide⟩
  · exact (List.length_set).trans List.length_replicate
  · exact (List.length_set).trans (List.length_set.trans List.length_replicate)

lemma look_withRoot (left right : ℕ) (key : ℤ) (h : cm.nextFree = f.nodes.length) :
    (withRoot f cm left right key).look
      = Function.update f.look cm.nextFree (some (rootOver cm.nextFree left right key)) := by
  funext x
  rw [Function.update_apply]
  exact look_writeNode (n := rootOver cm.nextFree left right key) h.le x

lemma length_withRoot (left right : ℕ) (key : ℤ) (h : cm.nextFree = f.nodes.length) :
    (withRoot f cm left right key).nodes.length = f.nodes.length + 1 :=
  length_writeNode_new (n := rootOver cm.nextFree left right key) h

lemma insertNode_room (hsize : n.size < 127) :
    insertNode (fuel + 1) f cm n key pointer
      = addEntryToNode f n key pointer >>= fun f => .ok (writeCm f cm) := by
  rw [insertNode, if_pos (show n.size < bptSize - 1 from hsize)]

/-- A full node is split, and the parent takes the separator with the new node; over a root a
new one is made. -/
lemma insertNode_full (hn : NodeShape n) (hsize : n.size = 127) (hs : n.seps.Pairwise (· ≤ ·))
    (hover : overflowNode f n key = .ok none) {u : ℕ} (hu : u = n.seps.countP (· ≤ key)) :
    insertNode (fuel + 1) f cm n key pointer
      = (if n.parent = 0 then do
          let g ← writeHalves f (allot cm n.isLeaf) n (leftHalf n u key pointer cm.nextFree)
            (rightHalf n u key pointer cm.nextFree) cm.nextFree (cm.nextFree + 1)
          if separator n u key ≠ (tempKeys n u key).getD (bptSplit + 1) 0 then
            .ok (withRoot g (allot cm n.isLeaf) n.pos (rightHalf n u key pointer cm.nextFree).pos
              (separator n u key))
          else .error .assertion
        else do
          let g ← writeHalves f (allot cm n.isLeaf) n (leftHalf n u key pointer cm.nextFree)
            (rightHalf n u key pointer cm.nextFree) cm.nextFree n.parent
          let parent ← loadNode g n.parent
          insertNode fuel g (allot cm n.isLeaf) parent (separator n u key)
            (rightHalf n u key pointer cm.nextFree).pos) := by
  subst hu
  rw [insertNode, if_neg (by rw [hsize]; decide), hover, Outcome.ok_bind]
  simp only
  rw [Node.getUpperBound_words hn hsize.le hs, Outcome.ok_bind]
  by_cases hleaf : n.isLeaf = true
  · simp only [writeHalves, if_pos hleaf, Outcome.ok_bind]
    rfl
  · simp only [writeHalves, if_neg hleaf]
    change reparent (writeCm f (allot cm n.isLeaf)) cm.nextFree
      (rightHalf n (n.seps.countP (· ≤ key)) key pointer cm.nextFree).children >>= _ = _
    cases reparent (writeCm f (allot cm n.isLeaf)) cm.nextFree
      (rightHalf n (n.seps.countP (· ≤ key)) key pointer cm.nextFree).children with
    | error e =>
        split_ifs <;> rfl
    | ok g =>
        by_cases hroot : n.parent = 0
        · simp only [if_pos hroot]
          rfl
        · simp only [if_neg hroot]
          rfl

/-- What the file holds after the halves are written. -/
lemma writeHalves_ok (cm : ColumnMeta) (q : ℕ) {left right : Node} {r : ℕ}
    (hH : Halves n left right r) (hr : r = f.nodes.length) (hn : f.look n.pos = some n)
    (hchildren : ∀ c ∈ spots right.row, ∃ m, f.look c = some m ∧ m.pos = c) :
    ∃ g, writeHalves f cm n left right r q = .ok g ∧ g.m = cm ∧
      g.nodes.length = f.nodes.length + 1 ∧
      Cut f.look g.look n { left with parent := q } { right with parent := q } n.pos r := by
  have hlt := lt_length_of_look hn
  have hfirst : ∃ g, (if n.isLeaf then .ok (writeCm f cm)
      else reparent (writeCm f cm) r right.children) = Except.ok g ∧ g.m = cm ∧
      g.nodes.length = f.nodes.length ∧ ∀ x, g.look x = (f.look x).map fun m =>
        if x ∈ spots right.row then { m with parent := r } else m := by
    cases hleaf : n.isLeaf with
    | true =>
        have hnone : spots right.row = [] := by
          rw [Node.row_of_leaf (hH.right_header.isLeaf.trans hleaf), spots_keyRow]
        exact ⟨_, rfl, rfl, rfl, fun x => by simp [hnone]; rfl⟩
    | false =>
        have hspots : spots right.row = right.children :=
          Node.spots_row_of_inner hH.right_header.shape (hH.right_header.isLeaf.trans hleaf)
        rw [hspots] at hchildren ⊢
        exact reparent_ok r right.children hchildren
  obtain ⟨g, hok, hmeta, hlen, hlook⟩ := hfirst
  have hrpos : ({ right with parent := q } : Node).pos = r := hH.right_header.pos
  have hlpos : ({ left with parent := q } : Node).pos = n.pos := hH.left_header.pos
  have hlen₁ : (writeNode g { right with parent := q }).nodes.length = f.nodes.length + 1 := by
    rw [length_writeNode_new (by rw [hrpos, hlen, hr]), hlen]
  have hlook' : ∀ x, (writeNode (writeNode g { right with parent := q })
      { left with parent := q }).look x
        = if x = n.pos then some { left with parent := q }
          else if x = r then some { right with parent := q } else g.look x := by
    intro x
    rw [look_writeNode (by rw [hlpos, hlen₁]; omega), look_writeNode (by rw [hrpos, hlen, hr]),
      hlpos, hrpos]
  have hne : r ≠ n.pos := by omega
  refine ⟨writeNode (writeNode g { right with parent := q }) { left with parent := q }, ?_, hmeta,
    ?_, ⟨hn, by rw [hr]; exact look_length f, ?_, ?_, ?_, ?_, ?_, ?_, ?_⟩⟩
  · rw [writeHalves]
    split_ifs at hok ⊢ <;> rw [hok] <;> rfl
  · rw [length_writeNode (by rw [hlpos, hlen₁]; omega), hlen₁]
  · rw [hlook', if_pos rfl]
  · rw [hlook', if_neg hne, if_pos rfl]
  · intro x hx hxr
    rw [hlook', if_neg hx, if_neg hxr, hlook]
    rfl
  · exact ⟨⟨hH.left_header.shape.keys, hH.left_header.shape.pointers⟩, hlpos, hH.left_size⟩
  · exact ⟨⟨hH.right_header.shape.keys, hH.right_header.shape.pointers⟩, hrpos, hH.right_size⟩
  · exact hH.left_header.isLeaf
  · exact hH.right_header.isLeaf

end Full

/-! ### Going up -/

/-- The file is a tree with the rows `kids` once the node `n` at depth `d` has taken its new
entry. -/
structure Pending (f : BptFile) (cm : ColumnMeta) (n : Node) (kids : ℕ → List (ℕ ⊕ ℤ))
    (root h d : ℕ) : Prop where
  indexed : Indexed f.look kids root h
  node : f.look n.pos = some n
  depth : d ≤ h
  mem : n.pos ∈ spots (layer kids root d)
  others : ∀ x, x ≠ n.pos → kids x = rowAt f.look x
  nextFree : cm.nextFree = f.nodes.length
  root : cm.root = root

/-- The rows in which the node `m` has taken the new node `r`. -/
def takenRow (t : ℕ → Option Node) (m : Node) (sep : ℤ) (r : ℕ) : ℕ → List (ℕ ⊕ ℤ) :=
  Function.update (rowAt t) m.pos
    (childRow m.first (m.branches.insertIdx (m.seps.countP (· ≤ sep)) (sep, r)))

/-- The leaves of one table are leaves of the other, with the same entries and successors. -/
def SameLeaves (t t' : ℕ → Option Node) : Prop :=
  ∀ p n, t p = some n → n.isLeaf = true → ∃ q, t' p = some { n with parent := q }

lemma SameLeaves.trans {t t' t'' : ℕ → Option Node} (h : SameLeaves t t')
    (h' : SameLeaves t' t'') : SameLeaves t t'' := by
  intro p n hn hleaf
  obtain ⟨q, hq⟩ := h p n hn hleaf
  obtain ⟨q', hq'⟩ := h' p _ hq hleaf
  exact ⟨q', hq'⟩

lemma Cut.sameLeaves {t t' : ℕ → Option Node} {n left right : Node} {p r : ℕ}
    (hc : Cut t t' n left right p r) (hinner : n.isLeaf = false) : SameLeaves t t' := by
  intro x m hm hleaf
  have hxp : x ≠ p := by
    rintro rfl
    cases hc.node.symm.trans hm
    rw [hinner] at hleaf
    cases hleaf
  have hxr : x ≠ r := by
    rintro rfl
    cases hc.fresh.symm.trans hm
  rw [hc.others_some hxp hxr hm]
  split_ifs
  · exact ⟨r, rfl⟩
  · exact ⟨m.parent, rfl⟩

/-- What splitting the root, the node `n`, leaves behind: `g` is the file with the halves, and
`f'` that with the new root. -/
structure RootSplit (f g f' : BptFile) (cm : ColumnMeta) (n left right : Node)
    (kids : ℕ → List (ℕ ⊕ ℤ)) (root h : ℕ) (sep : ℤ) : Prop where
  header : f'.m = { allot (allot cm n.isLeaf) false with root := cm.nextFree + 1 }
  length : f'.nodes.length = f.nodes.length + 2
  cut : Cut f.look g.look n { left with parent := cm.nextFree + 1 }
    { right with parent := cm.nextFree + 1 } n.pos cm.nextFree
  same : SameLeaves g.look f'.look
  layers : ∀ e ≤ h + 1, layer (plantRow kids root (cm.nextFree + 1)) (cm.nextFree + 1) (e + 1)
    = layer kids root e
  splits : Splits (plantRow kids root (cm.nextFree + 1)) (rowAt f'.look) (cm.nextFree + 1) 0 (h + 1)
    (cm.nextFree + 1) n.pos cm.nextFree sep
  indexed : Indexed f'.look (rowAt f'.look) (cm.nextFree + 1) (h + 1)

namespace Pending

variable {f : BptFile} {cm : ColumnMeta} {n left right m : Node} {kids : ℕ → List (ℕ ⊕ ℤ)}
  {root h d : ℕ} {sep : ℤ}

lemma sound (hP : Pending f cm n kids root h d) : Sound n n.pos :=
  hP.indexed.sound _ _ hP.node

/-- The children of the right half are nodes two layers below the parent. -/
lemma right_children (hP : Pending f cm n kids root h d) (hH : Halves n left right cm.nextFree)
    (hrow : kids n.pos = left.row ++ Sum.inr sep :: right.row) {c : ℕ}
    (hc : c ∈ spots right.row) :
    d + 1 ≤ h ∧ c ∈ spots (layer kids root (d + 1)) ∧ ∃ m, f.look c = some m ∧ m.pos = c := by
  have hdepth : d + 1 ≤ h := by
    by_contra hge
    have hd := hP.depth
    obtain rfl : d = h := by omega
    obtain ⟨n', hn', hleaf⟩ := hP.indexed.leaf _ hP.mem
    cases hP.node.symm.trans hn'
    rw [Node.row_of_leaf (hH.right_header.isLeaf.trans hleaf), spots_keyRow] at hc
    cases hc
  have hlayer := mem_layer_succ hP.mem (show c ∈ spots (kids n.pos) by simp [hrow, hc])
  obtain ⟨m, hm⟩ := hP.indexed.exists_node hdepth hlayer
  exact ⟨hdepth, hlayer, m, hm, (hP.indexed.sound c m hm).pos⟩

/-- The parent of the node at hand, one layer above it. -/
lemma parent_at (hP : Pending f cm n kids root h (d + 1)) (hm : f.look n.parent = some m) :
    m.pos = n.parent ∧ m.pos ∈ spots (layer kids root d) ∧ m.isLeaf = false ∧ NodeShape m ∧
      m.pos ≠ n.pos := by
  have hI := hP.indexed
  have hd := hP.depth
  obtain ⟨hparent, -⟩ := hI.parent_mem hd hP.mem hP.node
  obtain ⟨m', hm', hinner⟩ := hI.inner d hd _ hparent
  cases hm.symm.trans hm'
  have hpos := (hI.sound _ _ hm).pos
  rw [← hpos] at hparent
  refine ⟨hpos, hparent, hinner, (hI.sound _ _ hm).shape, fun heq => ?_⟩
  have := hI.layered.apart d (by omega) (d + 1) hd _ hparent (heq ▸ hP.mem)
  omega

/-- The split leaves the nodes above the one that is split as they are. -/
lemma look_above {g : BptFile} {q : ℕ} (hP : Pending f cm n kids root h (d + 1))
    (hH : Halves n left right cm.nextFree)
    (hrow : kids n.pos = left.row ++ Sum.inr sep :: right.row)
    (hcut : Cut f.look g.look n { left with parent := q } { right with parent := q } n.pos
      cm.nextFree) {e x : ℕ} (he : e ≤ d) (hx : x ∈ spots (layer kids root e)) :
    g.look x = f.look x := by
  have hI := hP.indexed
  have hd := hP.depth
  obtain ⟨y, hy⟩ := hI.exists_node (by omega) hx
  have hxp : x ≠ n.pos := by
    rintro rfl
    have := hI.layered.apart e (by omega) (d + 1) hd _ hx hP.mem
    omega
  have hxr : x ≠ cm.nextFree := by
    rintro rfl
    exact hI.fresh hcut.fresh e (by omega) hx
  rw [hcut.others_some hxp hxr hy, hy, if_neg]
  intro hc
  obtain ⟨hdepth, hlayer, -⟩ := hP.right_children hH hrow hc
  have := hI.layered.apart e (by omega) (d + 2) hdepth _ hx hlayer
  omega

/-- With the row in which the parent has taken the new node, the layers change in one place. -/
lemma cutBelow {g : BptFile} (hP : Pending f cm n kids root h (d + 1))
    (hrow : kids n.pos = left.row ++ Sum.inr sep :: right.row)
    (hm : f.look n.parent = some m) (hplace : TakesBehind m n.pos sep)
    (hcut : Cut f.look g.look n { left with parent := n.parent } { right with parent := n.parent }
      n.pos cm.nextFree) :
    CutBelow f.look g.look kids (takenRow g.look m sep cm.nextFree) root h d m.pos n.pos
      cm.nextFree sep n { left with parent := n.parent } { right with parent := n.parent } := by
  obtain ⟨hpos, hparent, hinner, hshape, hne⟩ := hP.parent_at hm
  have hfresh := hP.indexed.fresh hcut.fresh
  have hd := hP.depth
  have hnew : m.pos ≠ cm.nextFree := fun heq => hfresh d (by omega) (heq ▸ hparent)
  obtain ⟨A, B, hrowm, hinsert, -, -⟩ := childRow_split ((Node.getElem?_children hshape
    (List.countP_le_length.trans (List.length_take_le _ _))).trans hplace.1)
  have hother : ∀ x, x ≠ m.pos → takenRow g.look m sep cm.nextFree x = rowAt g.look x :=
    fun x hx => Function.update_of_ne hx _ _
  have hleft : takenRow g.look m sep cm.nextFree n.pos = left.row := by
    rw [hother _ hne.symm, rowAt_of_some hcut.left_at]
    rfl
  have hright : takenRow g.look m sep cm.nextFree cm.nextFree = right.row := by
    rw [hother _ hnew.symm, rowAt_of_some hcut.right_at]
    rfl
  refine ⟨hP.indexed, hcut, ?_, hleft, hright, hpos.symm, hpos.symm⟩
  exact
    { layered := hP.indexed.layered
      depth := hd
      parent := hparent
      kids_parent := by
        refine ⟨A, B, ?_, (Function.update_self _ _ _).trans (hinsert _ _)⟩
        rw [hP.others _ hne, hpos, rowAt_of_some hm, Node.row_of_inner hinner, hrowm]
      kids_node := by rw [hrow, hleft, hright]
      same := fun e he x hx hxp hxq => by
        have hxr : x ≠ cm.nextFree := by
          rintro rfl
          exact hfresh e he hx
        rw [hother x hxq, hcut.rowAt_others hxp hxr, hP.others x hxp]
      fresh := hfresh }

/-- **Splitting a node below its parent**: the parent is the next node at hand. -/
theorem split_below (hP : Pending f cm n kids root h (d + 1))
    (hH : Halves n left right cm.nextFree)
    (hrow : kids n.pos = left.row ++ Sum.inr sep :: right.row)
    (hm : f.look n.parent = some m) (hplace : TakesBehind m n.pos sep) :
    ∃ g, writeHalves f (allot cm n.isLeaf) n left right cm.nextFree n.parent = .ok g ∧
      g.nodes.length = f.nodes.length + 1 ∧
      CutBelow f.look g.look kids (takenRow g.look m sep cm.nextFree) root h d m.pos n.pos
        cm.nextFree sep n { left with parent := n.parent } { right with parent := n.parent } ∧
      Pending g (allot cm n.isLeaf) m (takenRow g.look m sep cm.nextFree) root h d := by
  obtain ⟨hpos, hparent, -, -, -⟩ := hP.parent_at hm
  obtain ⟨g, hok, -, hlen, hcut⟩ := writeHalves_ok (allot cm n.isLeaf) n.parent
    hH hP.nextFree hP.node fun c hc => (hP.right_children hH hrow hc).2.2
  have hbelow := hP.cutBelow hrow hm hplace hcut
  refine ⟨g, hok, hlen, hbelow, ?_⟩
  exact
    { indexed := hbelow.indexed'
      node := by rw [hP.look_above hH hrow hcut le_rfl hparent, hpos, hm]
      depth := (Nat.le_succ d).trans hP.depth
      mem := by
        rw [hbelow.splits.above le_rfl]
        exact hparent
      others := fun x hx => Function.update_of_ne hx _ _
      nextFree := by rw [hlen, ← hP.nextFree]; rfl
      root := hP.root }

/-- So does the condition on the splits to come, which looks at those nodes only. -/
lemma splitsInPlace_of_cut {g : BptFile} {q fuel : ℕ} {key : ℤ}
    (hP : Pending f cm n kids root h (d + 1)) (hH : Halves n left right cm.nextFree)
    (hrow : kids n.pos = left.row ++ Sum.inr sep :: right.row)
    (hcut : Cut f.look g.look n { left with parent := q } { right with parent := q } n.pos
      cm.nextFree) (hm : f.look n.parent = some m) :
    splitsInPlace fuel g m key = splitsInPlace fuel f m key := by
  have hI := hP.indexed
  have hd := hP.depth
  have hup : ∀ x y, (∃ e ≤ d, x ∈ spots (layer kids root e)) → f.look x = some y →
      y.parent ≠ 0 → ∃ e ≤ d, y.parent ∈ spots (layer kids root e) := by
    rintro x y ⟨e, he, hx⟩ hy hparent
    cases e with
    | zero => exact absurd ((hI.parent_eq_zero (Nat.zero_le _) hx hy).mpr rfl) hparent
    | succ e => exact ⟨e, by omega, (hI.parent_mem (by omega) hx hy).1⟩
  refine splitsInPlace_congr ?_ hup fuel m key
    (hup _ m ⟨d, le_rfl, (hI.parent_mem hd hP.mem hP.node).1⟩ hm)
  rintro x ⟨e, he, hx⟩
  exact hP.look_above hH hrow hcut he hx

/-- With the new root in place the file is split below it. -/
lemma cutBelow_root {t : ℕ → Option Node} {r : ℕ} (hP : Pending f cm n kids root h 0)
    (hH : Halves n left right cm.nextFree)
    (hrow : kids n.pos = left.row ++ Sum.inr sep :: right.row)
    (hr : cm.nextFree + 1 = r)
    (hcut : Cut f.look t n { left with parent := r } { right with parent := r } n.pos
      cm.nextFree) :
    CutBelow (plantAt f.look root r (rootOver r n.pos cm.nextFree sep))
      (Function.update t r (some (rootOver r n.pos cm.nextFree sep))) (plantRow kids root r)
      (rowAt (Function.update t r (some (rootOver r n.pos cm.nextFree sep)))) r (h + 1) 0 r n.pos
      cm.nextFree sep { n with parent := r } { left with parent := r }
      { right with parent := r } := by
  have hI := hP.indexed
  have hpos : n.pos = root := List.mem_singleton.mp hP.mem
  have hfree : f.look r = none := List.getElem?_eq_none (by rw [← hr, hP.nextFree]; omega)
  have hI' := hI.plant hfree (sound_rootOver r n.pos cm.nextFree sep) rfl rfl
  have hplanted := hI.planted hfree
  have hnr : n.pos ≠ r := by
    have := lt_length_of_look hP.node
    rw [← hr, hP.nextFree]
    omega
  have hNr : cm.nextFree ≠ r := by omega
  set m := rootOver r n.pos cm.nextFree sep with hm
  have hself : Function.update t r (some m) r = some m := Function.update_self _ _ _
  have hother : ∀ x, x ≠ r → Function.update t r (some m) x = t x := fun x hx =>
    Function.update_of_ne hx _ _
  have hcut' : Cut (plantAt f.look root r m) (Function.update t r (some m)) { n with parent := r }
      { left with parent := r } { right with parent := r } n.pos cm.nextFree := by
    rw [← hpos]
    refine hcut.plant hnr hNr fun hc => ?_
    obtain ⟨-, -, m, hm, -⟩ := hP.right_children hH hrow hc
    rw [hfree] at hm
    cases hm
  have hleft : rowAt (Function.update t r (some m)) n.pos = left.row := by
    rw [rowAt_of_some hcut'.left_at]
    rfl
  have hright : rowAt (Function.update t r (some m)) cm.nextFree = right.row := by
    rw [rowAt_of_some hcut'.right_at]
    rfl
  refine ⟨hI', hcut', ?_, hleft, hright, rfl, rfl⟩
  exact
    { layered := hI'.layered
      depth := by omega
      parent := List.mem_singleton.mpr rfl
      kids_parent := by
        refine ⟨[], [], ?_, ?_⟩
        · rw [hplanted.kids_root, hpos]
          rfl
        · rw [rowAt_of_some hself]
          exact row_rootOver r n.pos cm.nextFree sep
      kids_node := by
        rw [hleft, hright, ← hrow, plantRow, Function.update_of_ne hnr]
      same := fun e he x hx hxp hxr => by
        have hxN : x ≠ cm.nextFree := by
          rintro rfl
          exact hI'.fresh hcut'.fresh e he hx
        rw [plantRow, Function.update_of_ne hxr, hP.others x hxp, ← hcut.rowAt_others hxp hxN,
          rowAt, rowAt, hother x hxr]
      fresh := hI'.fresh hcut'.fresh }

/-- **Splitting the root**: a new root is written over the halves. -/
theorem split_root (hP : Pending f cm n kids root h 0) (hH : Halves n left right cm.nextFree)
    (hrow : kids n.pos = left.row ++ Sum.inr sep :: right.row) :
    ∃ g, writeHalves f (allot cm n.isLeaf) n left right cm.nextFree (cm.nextFree + 1) = .ok g ∧
      RootSplit f g (withRoot g (allot cm n.isLeaf) n.pos cm.nextFree sep) cm n left right kids root
        h sep := by
  obtain ⟨g, hok, -, hlen, hcut⟩ := writeHalves_ok (allot cm n.isLeaf)
    (cm.nextFree + 1) hH hP.nextFree hP.node fun c hc => (hP.right_children hH hrow hc).2.2
  set f' := withRoot g (allot cm n.isLeaf) n.pos cm.nextFree sep with hf'
  have hfree' : (allot cm n.isLeaf).nextFree = g.nodes.length := by
    rw [hlen, ← hP.nextFree]
    rfl
  have hlook : f'.look = Function.update g.look (cm.nextFree + 1)
      (some (rootOver (cm.nextFree + 1) n.pos cm.nextFree sep)) := look_withRoot _ _ _ hfree'
  have hbelow := hP.cutBelow_root hH hrow rfl hcut
  rw [← hlook] at hbelow
  have hfree : f.look (cm.nextFree + 1) = none :=
    List.getElem?_eq_none (by rw [hP.nextFree]; exact Nat.le_succ _)
  have hlen' : f'.nodes.length = g.nodes.length + 1 := length_withRoot _ _ _ hfree'
  refine ⟨g, hok, rfl, hlen'.trans (by rw [hlen]), hcut, fun x m hm _ => ⟨m.parent, ?_⟩,
    fun e he => (hP.indexed.planted hfree).layer_succ he, hbelow.splits, hbelow.indexed'⟩
  -- the halves are written already, and nothing stands yet where the new root goes
  have hx : x ≠ cm.nextFree + 1 := by
    have := lt_length_of_look hm
    rw [hP.nextFree]
    omega
  rw [hlook, Function.update_of_ne hx, hm]

/-- **The insert into a full root** splits it when the keys at the cut differ. -/
theorem insert_root_apart {key : ℤ} {pointer u : ℕ} (fuel : ℕ) (hP : Pending f cm n kids root h 0)
    (hsize : n.size = 127) (hs : n.seps.Pairwise (· ≤ ·)) (hu : u = n.seps.countP (· ≤ key))
    (hover : overflowNode f n key = .ok none)
    (hrow : kids n.pos = (leftHalf n u key pointer cm.nextFree).row
      ++ Sum.inr (separator n u key) :: (rightHalf n u key pointer cm.nextFree).row)
    (hapart : separator n u key ≠ (tempKeys n u key).getD (bptSplit + 1) 0) :
    ∃ g f', insertNode (fuel + 1) f cm n key pointer = .ok f' ∧
      RootSplit f g f' cm n (leftHalf n u key pointer cm.nextFree)
        (rightHalf n u key pointer cm.nextFree) kids root h (separator n u key) := by
  have hshape := hP.sound.shape
  have hH := halves u key pointer cm.nextFree hshape
  have hpos : (rightHalf n u key pointer cm.nextFree).pos = cm.nextFree := hH.right_header.pos
  have hroot := (hP.indexed.parent_eq_zero (Nat.zero_le _) hP.mem hP.node).mpr rfl
  obtain ⟨g, hok, hsplit⟩ := hP.split_root hH hrow
  refine ⟨g, _, ?_, hsplit⟩
  rw [insertNode_full hshape hsize hs hover hu, hpos, if_pos hroot, hok, Outcome.ok_bind,
    if_pos hapart]

/-- With equal keys there the assertion fails. -/
theorem insert_root {key : ℤ} {pointer u : ℕ} (fuel : ℕ) (hP : Pending f cm n kids root h 0)
    (hsize : n.size = 127) (hs : n.seps.Pairwise (· ≤ ·)) (hu : u = n.seps.countP (· ≤ key))
    (hover : overflowNode f n key = .ok none)
    (hrow : kids n.pos = (leftHalf n u key pointer cm.nextFree).row
      ++ Sum.inr (separator n u key) :: (rightHalf n u key pointer cm.nextFree).row) :
    insertNode (fuel + 1) f cm n key pointer = .error .assertion ∨
    ∃ g f', insertNode (fuel + 1) f cm n key pointer = .ok f' ∧
      RootSplit f g f' cm n (leftHalf n u key pointer cm.nextFree)
        (rightHalf n u key pointer cm.nextFree) kids root h (separator n u key) := by
  by_cases hapart : separator n u key ≠ (tempKeys n u key).getD (bptSplit + 1) 0
  · exact Or.inr (hP.insert_root_apart fuel hsize hs hu hover hrow hapart)
  · have hroot := (hP.indexed.parent_eq_zero (Nat.zero_le _) hP.mem hP.node).mpr rfl
    obtain ⟨g, hok, -⟩ := hP.split_root (halves u key pointer cm.nextFree hP.sound.shape) hrow
    rw [insertNode_full hP.sound.shape hsize hs hover hu, if_pos hroot, hok, Outcome.ok_bind,
      if_neg hapart]
    exact Or.inl rfl

/-- A node below the root has a parent. -/
lemma exists_parent (hP : Pending f cm n kids root h (d + 1)) :
    n.parent ≠ 0 ∧ ∃ m, f.look n.parent = some m := by
  have hI := hP.indexed
  have hdepth := hP.depth
  exact ⟨fun h0 => Nat.succ_ne_zero d ((hI.parent_eq_zero hdepth hP.mem hP.node).mp h0),
    hI.exists_node (by omega) (hI.parent_mem hdepth hP.mem hP.node).1⟩

/-- **The insert into a full node below its parent** goes on there, when the parent takes the
new node right behind the one that is split. -/
theorem insert_parent {key : ℤ} {pointer u : ℕ} (fuel : ℕ) (hP : Pending f cm n kids root h (d + 1))
    (hsize : n.size = 127) (hs : n.seps.Pairwise (· ≤ ·)) (hu : u = n.seps.countP (· ≤ key))
    (hover : overflowNode f n key = .ok none)
    (hrow : kids n.pos = (leftHalf n u key pointer cm.nextFree).row
      ++ Sum.inr (separator n u key) :: (rightHalf n u key pointer cm.nextFree).row)
    (hm : f.look n.parent = some m) (hplace : TakesBehind m n.pos (separator n u key)) :
    ∃ g left right, insertNode (fuel + 1) f cm n key pointer
        = insertNode fuel g (allot cm n.isLeaf) m (separator n u key) cm.nextFree ∧
      left.entries = (leftHalf n u key pointer cm.nextFree).entries ∧ left.next = cm.nextFree ∧
      right.entries = (rightHalf n u key pointer cm.nextFree).entries ∧ right.next = n.next ∧
      g.nodes.length = f.nodes.length + 1 ∧
      CutBelow f.look g.look kids (takenRow g.look m (separator n u key) cm.nextFree) root h d m.pos
        n.pos cm.nextFree (separator n u key) n left right ∧
      Pending g (allot cm n.isLeaf) m (takenRow g.look m (separator n u key) cm.nextFree) root h
        d ∧
      (∀ e ≤ d, ∀ x ∈ spots (layer kids root e), g.look x = f.look x) ∧
      ∀ fuel, splitsInPlace fuel g m (separator n u key)
        = splitsInPlace fuel f m (separator n u key) := by
  have hshape := hP.sound.shape
  have hH := halves u key pointer cm.nextFree hshape
  have hpos : (rightHalf n u key pointer cm.nextFree).pos = cm.nextFree := hH.right_header.pos
  obtain ⟨g, hok, hlen, hbelow, hP'⟩ := hP.split_below hH hrow hm hplace
  have hload : loadNode g n.parent = .ok m := by
    rw [← (hP.parent_at hm).1]
    exact fetch_eq_ok.mpr hP'.node
  refine ⟨g, { leftHalf n u key pointer cm.nextFree with parent := n.parent },
    { rightHalf n u key pointer cm.nextFree with parent := n.parent }, ?_, rfl,
    hH.left_header.next, rfl, hH.right_header.next, hlen, hbelow, hP',
    fun e he x hx => hP.look_above hH hrow hbelow.cut he hx,
    fun _ => hP.splitsInPlace_of_cut hH hrow hbelow.cut hm⟩
  rw [insertNode_full hshape hsize hs hover hu, hpos, if_neg hP.exists_parent.1, hok,
    Outcome.ok_bind, hload, Outcome.ok_bind]

/-- So does it when the splits of the insert are in place. -/
theorem insert_below {key : ℤ} {pointer u fuel : ℕ} (hP : Pending f cm n kids root h (d + 1))
    (hsize : n.size = 127) (hs : n.seps.Pairwise (· ≤ ·)) (hu : u = n.seps.countP (· ≤ key))
    (hover : overflowNode f n key = .ok none)
    (hrow : kids n.pos = (leftHalf n u key pointer cm.nextFree).row
      ++ Sum.inr (separator n u key) :: (rightHalf n u key pointer cm.nextFree).row)
    (hplace : splitsInPlace (fuel + 1) f n key = true) :
    ∃ g m left right, insertNode (fuel + 1) f cm n key pointer
        = insertNode fuel g (allot cm n.isLeaf) m (separator n u key) cm.nextFree ∧
      left.entries = (leftHalf n u key pointer cm.nextFree).entries ∧ left.next = cm.nextFree ∧
      right.entries = (rightHalf n u key pointer cm.nextFree).entries ∧ right.next = n.next ∧
      g.nodes.length = f.nodes.length + 1 ∧
      CutBelow f.look g.look kids (takenRow g.look m (separator n u key) cm.nextFree) root h d m.pos
        n.pos cm.nextFree (separator n u key) n left right ∧
      Pending g (allot cm n.isLeaf) m (takenRow g.look m (separator n u key) cm.nextFree) root h
        d ∧
      KeepsMark m (separator n u key) ∧ splitsInPlace fuel g m (separator n u key) = true := by
  obtain ⟨hroot, m, hm⟩ := hP.exists_parent
  rw [splitsInPlace_full fuel hsize hroot hm, ← hu] at hplace
  obtain ⟨g, left, right, heq, hleft, hleftN, hright, hrightN, hlen, hbelow, hP', -, hsplits⟩ :=
    hP.insert_parent fuel hsize hs hu hover hrow hm hplace.1
  exact ⟨g, m, left, right, heq, hleft, hleftN, hright, hrightN, hlen, hbelow, hP', hplace.1.2,
    (hsplits fuel).trans hplace.2⟩

end Pending

/-- What an insert into an interior node leaves behind. -/
structure Settled (f f' : BptFile) (cm : ColumnMeta) (kids : ℕ → List (ℕ ⊕ ℤ))
    (root h h' : ℕ) : Prop where
  indexed : Indexed f'.look (rowAt f'.look) f'.m.root h'
  leaves : layer (rowAt f'.look) f'.m.root h' = layer kids root h
  same : SameLeaves f.look f'.look
  nextFree : f'.m.nextFree = f'.nodes.length
  size : f'.m.size = cm.size
  height : h' + f.nodes.length ≤ h + f'.nodes.length

/-- The insert into the parent settles the split of an interior node below it. -/
lemma Settled.of_below {f g f' : BptFile} {cm : ColumnMeta} {n left right m : Node}
    {kids : ℕ → List (ℕ ⊕ ℤ)} {root h h' d : ℕ} {sep : ℤ} {t : ℕ → List (ℕ ⊕ ℤ)}
    (hset : Settled g f' (allot cm n.isLeaf) t root h h') (hinner : n.isLeaf = false)
    (hbelow : CutBelow f.look g.look kids t root h d m.pos n.pos cm.nextFree sep n left right)
    (hd : d + 2 ≤ h) (hlen : g.nodes.length = f.nodes.length + 1) :
    Settled f f' cm kids root h h' where
  indexed := hset.indexed
  leaves := hset.leaves.trans (hbelow.splits.below hd (Nat.le_succ h))
  same := (hbelow.cut.sameLeaves hinner).trans hset.same
  nextFree := hset.nextFree
  size := by
    rw [hset.size, hinner]
    rfl
  height := by
    have := hset.height
    omega

/-- The split of an interior root. -/
lemma RootSplit.settled {f g f' : BptFile} {cm : ColumnMeta} {n left right : Node}
    {kids : ℕ → List (ℕ ⊕ ℤ)} {root h : ℕ} {sep : ℤ}
    (hsplit : RootSplit f g f' cm n left right kids root h sep) (hinner : n.isLeaf = false)
    (hh : 0 < h) (hfree : cm.nextFree = f.nodes.length) :
    Settled f f' cm kids root h (h + 1) where
  indexed := by
    rw [hsplit.header]
    exact hsplit.indexed
  leaves := by
    rw [hsplit.header]
    exact (hsplit.splits.below (by omega) (Nat.le_succ _)).trans (hsplit.layers h (Nat.le_succ h))
  same := (hsplit.cut.sameLeaves hinner).trans hsplit.same
  nextFree := by
    rw [hsplit.header, hsplit.length, ← hfree]
    rfl
  size := by
    rw [hsplit.header, hinner]
    rfl
  height := by
    have := hsplit.length
    omega

namespace Pending

variable {f : BptFile} {cm : ColumnMeta} {n : Node} {key : ℤ} {pointer root h d : ℕ}
  {kids : ℕ → List (ℕ ⊕ ℤ)}

/-- The node at hand is an interior node, with its keys in order. -/
lemma inner (hP : Pending f cm n kids root h d) (hd : d < h)
    (hrow : kids n.pos
      = childRow n.first (n.branches.insertIdx (n.seps.countP (· ≤ key)) (key, pointer))) :
    n.isLeaf = false ∧ n.seps.Pairwise (· ≤ ·) := by
  obtain ⟨n', hn', hinner⟩ := hP.indexed.inner d hd _ hP.mem
  cases hP.node.symm.trans hn'
  refine ⟨hinner, ?_⟩
  have hsorted := hP.indexed.kids_sorted hd.le hP.mem
  rw [hrow, fences_childRow] at hsorted
  rw [Node.seps_eq_branches hP.sound.shape]
  exact hsorted.sublist ((List.sublist_insertIdx _ _ _).map _)

/-- **An interior node with room** takes the new child, and the tree is complete. -/
theorem insert_room (fuel : ℕ) (hP : Pending f cm n kids root h d) (hd : d < h)
    (hrow : kids n.pos
      = childRow n.first (n.branches.insertIdx (n.seps.countP (· ≤ key)) (key, pointer)))
    (hmark : KeepsMark n key) (hroom : n.size < 127) :
    ∃ f', insertNode (fuel + 1) f cm n key pointer = .ok f' ∧ Settled f f' cm kids root h h := by
  obtain ⟨hinner, hs⟩ := hP.inner hd hrow
  obtain ⟨n', hadd, hheader, hsize', hfirst, hbranches⟩ :=
    addEntryToNode_inner f pointer hP.sound.shape hinner hroom hs hmark
  have hlt := lt_length_of_look hP.node
  have hlook : (writeNode f n').look = Function.update f.look n.pos (some n') := by
    rw [look_writeNode_over (m := n) (by rw [hheader.pos]; exact hP.node), hheader.pos]
  have hkids : rowAt (writeNode f n').look = kids := by
    rw [hlook, rowAt_update]
    funext x
    rw [Function.update_apply]
    split_ifs with hx
    · rw [hx, hrow, ← hfirst, ← hbranches]
      exact Node.row_of_inner (hheader.isLeaf.trans hinner)
    · exact (hP.others x hx).symm
  have hlen := length_writeNode (f := f) (n := n') (by rw [hheader.pos]; exact hlt)
  refine ⟨writeCm (writeNode f n') cm, by rw [insertNode_room hroom, hadd, Outcome.ok_bind], ?_⟩
  refine ⟨?_, ?_, fun p m hm hleaf => ⟨m.parent, ?_⟩, ?_, rfl, ?_⟩
  · change Indexed (writeNode f n').look (rowAt (writeNode f n').look) cm.root h
    rw [hkids, hP.root, hlook]
    exact hP.indexed.replace hP.node hheader (by omega)
  · change layer (rowAt (writeNode f n').look) cm.root h = layer kids root h
    rw [hkids, hP.root]
  · have hpn : p ≠ n.pos := by
      rintro rfl
      cases hP.node.symm.trans hm
      rw [hinner] at hleaf
      cases hleaf
    change (writeNode f n').look p = _
    rw [hlook, Function.update_of_ne hpn, hm]
  · change cm.nextFree = (writeNode f n').nodes.length
    rw [hlen, hP.nextFree]
  · change h + _ ≤ h + (writeNode f n').nodes.length
    rw [hlen]

end Pending

/-- **An insert into an interior node** ends with a tree over the same leaves, or fails the
assertion on the root. -/
theorem insertNode_inner (fuel : ℕ) : ∀ {f : BptFile} {cm : ColumnMeta} {n : Node} {key : ℤ}
    {pointer root h d : ℕ} {kids : ℕ → List (ℕ ⊕ ℤ)}, Pending f cm n kids root h d → d < h →
    kids n.pos
      = childRow n.first (n.branches.insertIdx (n.seps.countP (· ≤ key)) (key, pointer)) →
    KeepsMark n key → splitsInPlace fuel f n key = true → d < fuel →
    insertNode fuel f cm n key pointer = .error .assertion ∨
    ∃ f' h', insertNode fuel f cm n key pointer = .ok f' ∧ Settled f f' cm kids root h h' := by
  induction fuel with
  | zero => intro f cm n key pointer root h d kids _ _ _ _ _ hfuel; omega
  | succ fuel ih =>
      intro f cm n key pointer root h d kids hP hd hrow hmark hplace hfuel
      obtain ⟨hinner, hs⟩ := hP.inner hd hrow
      rcases Nat.lt_or_ge n.size 127 with hroom | hfull
      · obtain ⟨f', hok, hset⟩ := hP.insert_room fuel hd hrow hmark hroom
        exact Or.inr ⟨f', h, hok, hset⟩
      · have hsize : n.size = 127 := le_antisymm hP.sound.size hfull
        have hu : n.seps.countP (· ≤ key) ≤ 127 :=
          hsize ▸ List.countP_le_length.trans (List.length_take_le _ _)
        have hover : overflowNode f n key = .ok none := by
          rw [overflowNode, if_neg]
          rw [hinner]
          exact fun h => Bool.false_ne_true h.1
        rw [split_inner key pointer cm.nextFree hP.sound.shape hinner hsize hu] at hrow
        cases d with
        | zero =>
            obtain herr | ⟨g, f', hok, hsplit⟩ := hP.insert_root fuel hsize hs rfl hover hrow
            · exact Or.inl herr
            · exact Or.inr ⟨f', h + 1, hok, hsplit.settled hinner hd hP.nextFree⟩
        | succ d =>
            obtain ⟨g, m, left, right, heq, -, -, -, -, hlen, hbelow, hP', hmark', hplace'⟩ :=
              hP.insert_below hsize hs rfl hover hrow hplace
            rw [heq]
            obtain herr | ⟨f', h', hok, hset⟩ :=
              ih hP' (by omega) (Function.update_self _ _ _) hmark' hplace' (by omega)
            · exact Or.inl herr
            · exact Or.inr ⟨f', h', hok, hset.of_below hinner hbelow hd hlen⟩

end ColumnDb
