import ColumnDb.Bptree.Rooted

/-!
The splits of an insert and the links between the nodes.

* `splitsKeepMark`: the condition on an insert. The interior node that takes the last of the new
  nodes stays an interior node.
* `PendingLink`: the invariant going up, the file being a tree once the node at hand has taken
  its new child. A split keeps it (`PendingLink.split_below`) or ends at the root
  (`PendingLink.split_root`).
* `insertNode_relinks`: an insert into an interior node ends with a tree and the same leaves, or
  fails the assertion on the root.
-/

namespace ColumnDb

/-! ### The marks of the interior nodes -/

/-- Going up from `n` through full nodes, the first interior node with room stays one. -/
def splitsKeepMark : ℕ → BptFile → Node → ℤ → Bool
  | 0, _, _, _ => true
  | fuel + 1, f, n, key =>
      if n.size < bptSize - 1 then n.isLeaf || decide (KeepsMark n key)
      else if n.parent = 0 then true
      else
        match f.look n.parent with
        | none => true
        | some m => splitsKeepMark fuel f m (separator n (n.seps.countP (· ≤ key)) key)

/-- The condition looks at the nodes above only. -/
lemma splitsKeepMark_congr {f g : BptFile} {S : ℕ → Prop} (hS : ∀ x, S x → g.look x = f.look x)
    (hup : ∀ x m, S x → f.look x = some m → m.parent ≠ 0 → S m.parent) (fuel : ℕ) :
    ∀ (n : Node) (key : ℤ), (n.parent ≠ 0 → S n.parent) →
      splitsKeepMark fuel g n key = splitsKeepMark fuel f n key := by
  induction fuel with
  | zero => exact fun n key _ => rfl
  | succ fuel ih =>
      intro n key hn
      rw [splitsKeepMark, splitsKeepMark]
      split_ifs with hroom hroot
      · rfl
      · rfl
      · rw [hS _ (hn hroot)]
        cases hm : f.look n.parent with
        | none => rfl
        | some m =>
            simp only
            rw [ih m _ (hup _ m (hn hroot) hm)]

/-! ### The chain of the leaves -/

/-- What the chain sees of a node: a leaf with the position after it. -/
def leafNext (t : ℕ → Option Node) (p : ℕ) : Option ℕ :=
  (t p).bind fun n => if n.isLeaf then some n.next else none

section Chain

variable {t t' : ℕ → Option Node} {n left right : Node} {p r : ℕ}

lemma leafNext_of_inner (ht : t p = some n) (hinner : n.isLeaf = false) : leafNext t p = none := by
  rw [leafNext, ht, Option.bind_some, if_neg (by rw [hinner]; exact Bool.false_ne_true)]

lemma leafNext_of_leaf (ht : t p = some n) (hleaf : n.isLeaf = true) :
    leafNext t p = some n.next := by
  rw [leafNext, ht, Option.bind_some, if_pos hleaf]

lemma leafNext_of_none (ht : t p = none) : leafNext t p = none := by
  rw [leafNext, ht]
  rfl

/-- An interior node written where no leaf was. -/
lemma leafNext_update_inner (hold : leafNext t p = none) (hinner : n.isLeaf = false) :
    leafNext (Function.update t p (some n)) = leafNext t := by
  funext x
  by_cases hx : x = p
  · subst hx
    rw [hold, leafNext_of_inner (Function.update_self _ _ _) hinner]
  · rw [leafNext, Function.update_of_ne hx, leafNext]

/-- A node that is not a half stays the same link of the chain. -/
lemma Cut.leafNext_others (hc : Cut t t' n left right p r) {x : ℕ} (hx : x ≠ p) (hxr : x ≠ r) :
    leafNext t' x = leafNext t x := by
  rw [leafNext, leafNext, hc.others x hx hxr]
  cases t x with
  | none => rfl
  | some m =>
      rw [Option.map_some, Option.bind_some, Option.bind_some]
      split_ifs <;> rfl

/-- The split of an interior node leaves the chain as it is. -/
lemma Cut.leafNext_inner (hc : Cut t t' n left right p r) (hinner : n.isLeaf = false) :
    leafNext t' = leafNext t := by
  funext x
  by_cases hx : x = p
  · subst hx
    rw [leafNext_of_inner hc.left_at (hc.left_isLeaf.trans hinner),
      leafNext_of_inner hc.node hinner]
  by_cases hxr : x = r
  · subst hxr
    rw [leafNext_of_inner hc.right_at (hc.right_isLeaf.trans hinner), leafNext_of_none hc.fresh]
  · exact hc.leafNext_others hx hxr

lemma Cut.childrenAt_others (hc : Cut t t' n left right p r) {x : ℕ} (hx : x ≠ p) (hxr : x ≠ r) :
    childrenAt t' x = childrenAt t x := by
  rw [childrenAt, childrenAt, hc.others x hx hxr]
  cases t x with
  | none => rfl
  | some m =>
      rw [Option.map_some, Option.elim_some, Option.elim_some]
      split_ifs <;> rfl

end Chain

/-! ### Going up -/

/-- The file is a tree with the children `kids` once the node `n` has taken its new child. -/
structure PendingLink (f : BptFile) (cm : ColumnMeta) (n : Node) (kids : ℕ → List ℕ)
    (root h : ℕ) (level : ℕ → ℕ) : Prop where
  rooted : Rooted f.look kids root h level
  node : f.look n.pos = some n
  others : ∀ x, x ≠ n.pos → kids x = childrenAt f.look x
  nextFree : cm.nextFree = f.nodes.length
  root : cm.root = root

/-- The children in which the node `m` has taken the new node `r`. -/
def takenKids (t : ℕ → Option Node) (m : Node) (r : ℕ) : ℕ → List ℕ :=
  Function.update (childrenAt t) m.pos (r :: m.children)

/-- What splitting the root, the node `n`, leaves behind. -/
structure RootRelinked (f g f' : BptFile) (cm : ColumnMeta) (n left right : Node) (h : ℕ) : Prop
    where
  header : f'.m = { allot (allot cm n.isLeaf) false with root := cm.nextFree + 1 }
  length : f'.nodes.length = f.nodes.length + 2
  cut : Cut f.look g.look n { left with parent := cm.nextFree + 1 }
    { right with parent := cm.nextFree + 1 } n.pos cm.nextFree
  chain : leafNext f'.look = leafNext g.look
  rooted : ∃ level, Rooted f'.look (childrenAt f'.look) (cm.nextFree + 1) (h + 1) level

namespace PendingLink

variable {f : BptFile} {cm : ColumnMeta} {n left right m : Node} {kids : ℕ → List ℕ}
  {root h : ℕ} {level : ℕ → ℕ} {sep : ℤ}

lemma sound (hP : PendingLink f cm n kids root h level) : Sound n n.pos :=
  hP.rooted.sound _ _ hP.node

lemma seps_sorted (hP : PendingLink f cm n kids root h level) : n.seps.Pairwise (· ≤ ·) :=
  hP.rooted.sorted _ _ hP.node

lemma fresh (hP : PendingLink f cm n kids root h level) : f.look cm.nextFree = none :=
  hP.nextFree ▸ look_length f

/-- The children of the right half are stored nodes below the one that is split. -/
lemma right_children (hP : PendingLink f cm n kids root h level)
    (hshared : (kids n.pos).Perm (spots left.row ++ spots right.row)) {c : ℕ}
    (hc : c ∈ spots right.row) :
    level c = level n.pos + 1 ∧ ∃ m, f.look c = some m ∧ m.pos = c := by
  have hkid : c ∈ kids n.pos := hshared.mem_iff.mpr (List.mem_append_right _ hc)
  obtain ⟨m, hm⟩ := ((hP.rooted.family.mem_kids _ c).mp hkid).1
  exact ⟨hP.rooted.family.level_kid hkid, m, hm, (hP.rooted.sound c m hm).pos⟩

/-- The split leaves the nodes above the one that is split as they are. -/
lemma look_above {g : BptFile} {q : ℕ} (hP : PendingLink f cm n kids root h level)
    (hshared : (kids n.pos).Perm (spots left.row ++ spots right.row))
    (hcut : Cut f.look g.look n { left with parent := q } { right with parent := q } n.pos
      cm.nextFree) {x : ℕ} {y : Node} (hy : f.look x = some y) (hx : level x < level n.pos) :
    g.look x = some y := by
  have hxp : x ≠ n.pos := by
    rintro rfl
    omega
  have hxr : x ≠ cm.nextFree := by
    rintro rfl
    cases hP.fresh.symm.trans hy
  rw [hcut.others_some hxp hxr hy, if_neg]
  intro hc
  have := (hP.right_children hshared hc).1
  omega

/-- The parent of the node at hand. -/
lemma parent_at (hP : PendingLink f cm n kids root h level) (hroot : n.pos ≠ root)
    (hm : f.look n.parent = some m) :
    m.pos = n.parent ∧ m.isLeaf = false ∧ level n.pos = level m.pos + 1 := by
  obtain ⟨m', hm', hinner, hlevel⟩ := hP.rooted.exists_parent hP.node hroot
  cases hm.symm.trans hm'
  have hpos := (hP.rooted.sound _ _ hm).pos
  exact ⟨hpos, hinner, hpos ▸ hlevel⟩

/-- **Splitting a node below its parent**: the parent is the next node at hand. -/
theorem split_below (hP : PendingLink f cm n kids root h level)
    (hH : Halves n left right cm.nextFree)
    (hshared : (kids n.pos).Perm (spots left.row ++ spots right.row))
    (hls : left.seps.Pairwise (· ≤ ·)) (hrs : right.seps.Pairwise (· ≤ ·)) (hroot : n.pos ≠ root)
    (hm : f.look n.parent = some m) :
    ∃ g, writeHalves f (allot cm n.isLeaf) n left right cm.nextFree n.parent = .ok g ∧
      g.nodes.length = f.nodes.length + 1 ∧
      Cut f.look g.look n { left with parent := n.parent } { right with parent := n.parent } n.pos
        cm.nextFree ∧
      PendingLink g (allot cm n.isLeaf) m (takenKids g.look m cm.nextFree) root h
        (Function.update level cm.nextFree (level n.pos)) := by
  obtain ⟨hpos, hinner, hlevel⟩ := hP.parent_at hroot hm
  obtain ⟨g, hok, -, hlen, hcut⟩ := writeHalves_ok (allot cm n.isLeaf) n.parent hH hP.nextFree
    hP.node fun c hc => (hP.right_children hshared hc).2
  rw [← hpos] at hm
  have hne : n.pos ≠ m.pos := fun heq => by
    rw [heq] at hlevel
    omega
  have hnew : cm.nextFree ≠ m.pos := fun heq => by
    rw [← heq, hP.fresh] at hm
    cases hm
  have hother : ∀ x, x ≠ m.pos → takenKids g.look m cm.nextFree x = childrenAt g.look x :=
    fun x hx => Function.update_of_ne hx _ _
  have hkids : CutKids kids (takenKids g.look m cm.nextFree) n.pos m.pos cm.nextFree n
      { left with parent := n.parent } { right with parent := n.parent } := by
    refine ⟨hshared, ?_, ?_, ?_, fun x hx hxr hxq => ?_, hpos.symm, hpos.symm, hpos.symm⟩
    · rw [hother _ hne, childrenAt_of_some hcut.left_at hcut.left_sound.shape]
    · rw [hother _ hnew, childrenAt_of_some hcut.right_at hcut.right_sound.shape]
    · rw [takenKids, Function.update_self, hP.others _ hne.symm, childrenAt_of_inner hm hinner]
    · rw [hother x hxq, hcut.childrenAt_others hx hxr, hP.others x hx]
  refine ⟨g, hok, hlen, hcut, hP.rooted.cut hcut hkids hroot hls hrs,
    hP.look_above hshared hcut hm (by omega), hother, ?_, hP.root⟩
  rw [hlen, ← hP.nextFree]
  rfl

/-- So does the condition on the splits to come, which looks at those nodes only. -/
lemma splitsKeepMark_of_cut {g : BptFile} {q fuel : ℕ} {key : ℤ}
    (hP : PendingLink f cm n kids root h level)
    (hshared : (kids n.pos).Perm (spots left.row ++ spots right.row))
    (hcut : Cut f.look g.look n { left with parent := q } { right with parent := q } n.pos
      cm.nextFree) (hroot : n.pos ≠ root) (hm : f.look n.parent = some m) :
    splitsKeepMark fuel g m key = splitsKeepMark fuel f m key := by
  obtain ⟨hpos, -, hlevel⟩ := hP.parent_at hroot hm
  rw [← hpos] at hm
  have hup : ∀ x y, ((∃ z, f.look x = some z) ∧ level x < level n.pos) → f.look x = some y →
      y.parent ≠ 0 → (∃ z, f.look y.parent = some z) ∧ level y.parent < level n.pos := by
    rintro x y ⟨-, hx⟩ hy hparent
    obtain ⟨z, hz, -, hxz⟩ := hP.rooted.exists_parent hy
      fun hx => hparent ((hP.rooted.parent_eq_zero hy).mpr hx)
    exact ⟨⟨z, hz⟩, by omega⟩
  refine splitsKeepMark_congr ?_ hup fuel m key (hup _ m ⟨⟨m, hm⟩, by omega⟩ hm)
  rintro x ⟨⟨z, hz⟩, hx⟩
  rw [hz, hP.look_above hshared hcut hz hx]

/-- **Splitting the root**: a new root is written over the halves. -/
theorem split_root (hP : PendingLink f cm n kids root h level)
    (hH : Halves n left right cm.nextFree)
    (hshared : (kids n.pos).Perm (spots left.row ++ spots right.row))
    (hls : left.seps.Pairwise (· ≤ ·)) (hrs : right.seps.Pairwise (· ≤ ·)) (hroot : n.pos = root) :
    ∃ g, writeHalves f (allot cm n.isLeaf) n left right cm.nextFree (cm.nextFree + 1) = .ok g ∧
      RootRelinked f g (withRoot g (allot cm n.isLeaf) n.pos cm.nextFree sep) cm n left right
        h := by
  obtain ⟨g, hok, -, hlen, hcut⟩ := writeHalves_ok (allot cm n.isLeaf) (cm.nextFree + 1) hH
    hP.nextFree hP.node fun c hc => (hP.right_children hshared hc).2
  set f' := withRoot g (allot cm n.isLeaf) n.pos cm.nextFree sep with hf'
  set r := cm.nextFree + 1 with hr
  set m := rootOver r n.pos cm.nextFree sep with hm
  have hmeta : (allot cm n.isLeaf).nextFree = g.nodes.length := by
    rw [hlen, ← hP.nextFree]
    rfl
  have hlook : f'.look = Function.update g.look r (some m) := look_withRoot _ _ _ hmeta
  have hfree : f.look r = none := List.getElem?_eq_none (by rw [hr, hP.nextFree]; omega)
  have hfree' : g.look r = none := List.getElem?_eq_none (by rw [hr, hlen, hP.nextFree])
  have hnr : n.pos ≠ r := fun heq => by
    cases hfree.symm.trans (heq ▸ hP.node)
  have hNr : cm.nextFree ≠ r := by omega
  have hright : r ∉ spots right.row := fun hc => by
    obtain ⟨-, y, hy, -⟩ := hP.right_children hshared hc
    cases hfree.symm.trans hy
  have hplant := hP.rooted.plant hfree (sound_rootOver r n.pos cm.nextFree sep) rfl rfl
    (List.pairwise_singleton _ _)
  have hcut' : Cut (plantAt f.look root r m) f'.look { n with parent := r }
      { left with parent := r } { right with parent := r } n.pos cm.nextFree := by
    rw [hlook, ← hroot]
    exact hcut.plant hnr hNr hright
  have hkids : CutKids (Function.update kids r [root]) (childrenAt f'.look) n.pos r cm.nextFree
      { n with parent := r } { left with parent := r } { right with parent := r } := by
    refine ⟨?_, childrenAt_of_some hcut'.left_at hcut'.left_sound.shape,
      childrenAt_of_some hcut'.right_at hcut'.right_sound.shape, ?_, fun x hx hxN hxr => ?_, rfl,
      rfl, rfl⟩
    · rw [Function.update_of_ne hnr]
      exact hshared
    · rw [Function.update_self, hlook, childrenAt_of_inner (Function.update_self _ _ _) rfl,
        ← hroot]
      exact List.Perm.swap _ _ _
    · rw [Function.update_of_ne hxr, hP.others x hx, hlook, childrenAt,
        Function.update_of_ne hxr]
      exact hcut.childrenAt_others hx hxN
  refine ⟨g, hok, rfl, ?_, hcut, ?_, _, hplant.cut hcut' hkids hnr hls hrs⟩
  · exact (length_withRoot _ _ _ hmeta).trans (by rw [hlen])
  · rw [hlook]
    exact leafNext_update_inner (leafNext_of_none hfree') rfl

variable {key : ℤ} {pointer u fuel : ℕ}

/-- **The insert into a full root** splits it, or fails the assertion on equal keys. -/
theorem insert_root (fuel : ℕ) (hP : PendingLink f cm n kids root h level) (hsize : n.size = 127)
    (hu : u = n.seps.countP (· ≤ key)) (hover : overflowNode f n key = .ok none)
    (hshared : (kids n.pos).Perm (spots (leftHalf n u key pointer cm.nextFree).row
      ++ spots (rightHalf n u key pointer cm.nextFree).row)) (hroot : n.pos = root) :
    insertNode (fuel + 1) f cm n key pointer = .error .assertion ∨
    ∃ g f', insertNode (fuel + 1) f cm n key pointer = .ok f' ∧
      RootRelinked f g f' cm n (leftHalf n u key pointer cm.nextFree)
        (rightHalf n u key pointer cm.nextFree) h := by
  have hshape := hP.sound.shape
  have hH := halves u key pointer cm.nextFree hshape
  have hpos : (rightHalf n u key pointer cm.nextFree).pos = cm.nextFree := hH.right_header.pos
  have hparent : n.parent = 0 := (hP.rooted.parent_eq_zero hP.node).mpr hroot
  obtain ⟨hls, hrs⟩ := halves_sorted pointer cm.nextFree hshape hsize hP.seps_sorted hu
  obtain ⟨g, hok, hsplit⟩ := hP.split_root hH hshared hls hrs hroot
  rw [insertNode_full hshape hsize hP.seps_sorted hover hu, hpos, if_pos hparent, hok,
    Outcome.ok_bind]
  split_ifs
  · exact Or.inr ⟨g, _, rfl, hsplit⟩
  · exact Or.inl rfl

/-- **The insert into a full node below its parent** goes on there. -/
theorem insert_below (hP : PendingLink f cm n kids root h level) (hsize : n.size = 127)
    (hu : u = n.seps.countP (· ≤ key)) (hover : overflowNode f n key = .ok none)
    (hshared : (kids n.pos).Perm (spots (leftHalf n u key pointer cm.nextFree).row
      ++ spots (rightHalf n u key pointer cm.nextFree).row)) (hroot : n.pos ≠ root)
    (hmark : splitsKeepMark (fuel + 1) f n key = true) :
    ∃ g m left right, insertNode (fuel + 1) f cm n key pointer
        = insertNode fuel g (allot cm n.isLeaf) m (separator n u key) cm.nextFree ∧
      left.next = cm.nextFree ∧ right.next = n.next ∧
      g.nodes.length = f.nodes.length + 1 ∧
      Cut f.look g.look n left right n.pos cm.nextFree ∧ m.isLeaf = false ∧
      level n.pos = Function.update level cm.nextFree (level n.pos) m.pos + 1 ∧
      PendingLink g (allot cm n.isLeaf) m (takenKids g.look m cm.nextFree) root h
        (Function.update level cm.nextFree (level n.pos)) ∧
      splitsKeepMark fuel g m (separator n u key) = true := by
  have hshape := hP.sound.shape
  have hH := halves u key pointer cm.nextFree hshape
  have hpos : (rightHalf n u key pointer cm.nextFree).pos = cm.nextFree := hH.right_header.pos
  have hparent : n.parent ≠ 0 := fun h0 => hroot ((hP.rooted.parent_eq_zero hP.node).mp h0)
  obtain ⟨m, hm, hinner, -⟩ := hP.rooted.exists_parent hP.node hroot
  obtain ⟨hmpos, -, hlevel⟩ := hP.parent_at hroot hm
  obtain ⟨hls, hrs⟩ := halves_sorted pointer cm.nextFree hshape hsize hP.seps_sorted hu
  obtain ⟨g, hok, hlen, hcut, hP'⟩ := hP.split_below hH hshared hls hrs hroot hm
  rw [splitsKeepMark, if_neg (by rw [hsize]; decide), if_neg hparent, hm, ← hu] at hmark
  have hload : loadNode g n.parent = .ok m := by
    rw [← hmpos]
    exact fetch_eq_ok.mpr hP'.node
  refine ⟨g, m, { leftHalf n u key pointer cm.nextFree with parent := n.parent },
    { rightHalf n u key pointer cm.nextFree with parent := n.parent }, ?_, hH.left_header.next,
    hH.right_header.next, hlen, hcut, hinner, ?_, hP',
    (hP.splitsKeepMark_of_cut hshared hcut hroot hm).trans hmark⟩
  · rw [insertNode_full hshape hsize hP.seps_sorted hover hu, hpos, if_neg hparent, hok,
      Outcome.ok_bind, hload, Outcome.ok_bind]
  · rw [Function.update_of_ne, hlevel]
    intro heq
    rw [← hmpos, heq, hP.fresh] at hm
    cases hm

end PendingLink

/-- What an insert into an interior node leaves behind. -/
structure Relinked (f f' : BptFile) (cm : ColumnMeta) (h h' : ℕ) : Prop where
  rooted : ∃ level, Rooted f'.look (childrenAt f'.look) f'.m.root h' level
  chain : leafNext f'.look = leafNext f.look
  nextFree : f'.m.nextFree = f'.nodes.length
  size : f'.m.size = cm.size
  height : h' + f.nodes.length ≤ h + f'.nodes.length

/-- The insert into the parent settles the split of an interior node below it. -/
lemma Relinked.of_cut {f g f' : BptFile} {cm : ColumnMeta} {n left right : Node} {h h' : ℕ}
    (hset : Relinked g f' (allot cm n.isLeaf) h h') (hinner : n.isLeaf = false)
    (hcut : Cut f.look g.look n left right n.pos cm.nextFree)
    (hlen : g.nodes.length = f.nodes.length + 1) : Relinked f f' cm h h' where
  rooted := hset.rooted
  chain := hset.chain.trans (hcut.leafNext_inner hinner)
  nextFree := hset.nextFree
  size := by
    rw [hset.size, hinner]
    rfl
  height := by
    have := hset.height
    omega

/-- The split of an interior root. -/
lemma RootRelinked.relinked {f g f' : BptFile} {cm : ColumnMeta} {n left right : Node} {h : ℕ}
    (hsplit : RootRelinked f g f' cm n left right h) (hinner : n.isLeaf = false)
    (hfree : cm.nextFree = f.nodes.length) : Relinked f f' cm h (h + 1) where
  rooted := by
    rw [hsplit.header]
    exact hsplit.rooted
  chain := hsplit.chain.trans (hsplit.cut.leafNext_inner hinner)
  nextFree := by
    rw [hsplit.header, hsplit.length, ← hfree]
    rfl
  size := by
    rw [hsplit.header, hinner]
    rfl
  height := by
    have := hsplit.length
    omega

/-- **An interior node with room** takes the new child, and the tree is complete. -/
theorem PendingLink.insert_room {f : BptFile} {cm : ColumnMeta} {n : Node} {key : ℤ}
    {pointer root h : ℕ} {kids : ℕ → List ℕ} {level : ℕ → ℕ} (fuel : ℕ)
    (hP : PendingLink f cm n kids root h level) (hinner : n.isLeaf = false)
    (htaken : (kids n.pos).Perm (pointer :: n.children)) (hmark : KeepsMark n key)
    (hroom : n.size < 127) :
    ∃ f', insertNode (fuel + 1) f cm n key pointer = .ok f' ∧ Relinked f f' cm h h := by
  have hshape := hP.sound.shape
  have hs := hP.seps_sorted
  obtain ⟨n', hadd, hheader, hsize', hfirst, hbranches⟩ :=
    addEntryToNode_inner f pointer hshape hinner hroom hs hmark
  have hseps : n'.seps = n.seps.insertIdx (n.seps.countP (· ≤ key)) key := by
    rw [Node.seps_eq_branches hheader.shape, hbranches, List.map_insertIdx,
      ← Node.seps_eq_branches hshape]
  have hinner' : n'.isLeaf = false := hheader.isLeaf.trans hinner
  have hlook : (writeNode f n').look = Function.update f.look n.pos (some n') := by
    rw [look_writeNode_over (m := n) (by rw [hheader.pos]; exact hP.node), hheader.pos]
  have hchildren : (childrenAt (writeNode f n').look n.pos).Perm (kids n.pos) := by
    have hu : n.seps.countP (· ≤ key) ≤ n.branches.length := by
      rw [← List.length_map (f := Prod.fst), ← Node.seps_eq_branches hshape]
      exact List.countP_le_length
    rw [hlook, childrenAt_of_inner (Function.update_self _ _ _) hinner',
      Node.children_eq hheader.shape, hfirst, hbranches]
    refine (children_insert_perm hu _ _ _).trans ?_
    rw [← Node.children_eq hshape]
    exact htaken.symm
  have hkids : ∀ x, (childrenAt (writeNode f n').look x).Perm (kids x) := by
    intro x
    by_cases hx : x = n.pos
    · exact hx ▸ hchildren
    · rw [hP.others x hx, hlook, childrenAt, Function.update_of_ne hx, childrenAt]
  have hsorted : n'.seps.Pairwise (· ≤ ·) := hseps ▸ insertIdx_countP_le_sorted hs key
  have hlen := length_writeNode (f := f) (n := n')
    (by rw [hheader.pos]; exact lt_length_of_look hP.node)
  refine ⟨writeCm (writeNode f n') cm, by rw [insertNode_room hroom, hadd, Outcome.ok_bind],
    ⟨level, ?_⟩, ?_, ?_, rfl, ?_⟩
  · change Rooted (writeNode f n').look (childrenAt (writeNode f n').look) cm.root h level
    rw [hP.root]
    refine Rooted.congr_kids ?_ hkids
    rw [hlook]
    exact hP.rooted.replace hP.node hheader (by omega) hsorted
  · change leafNext (writeNode f n').look = leafNext f.look
    rw [hlook]
    exact leafNext_update_inner (leafNext_of_inner hP.node hinner) hinner'
  · change cm.nextFree = (writeNode f n').nodes.length
    rw [hlen, hP.nextFree]
  · change h + _ ≤ h + (writeNode f n').nodes.length
    rw [hlen]

/-- **An insert into an interior node** ends with a tree and the same leaves, or fails the
assertion on the root. -/
theorem insertNode_relinks (fuel : ℕ) : ∀ {f : BptFile} {cm : ColumnMeta} {n : Node} {key : ℤ}
    {pointer root h : ℕ} {kids : ℕ → List ℕ} {level : ℕ → ℕ},
    PendingLink f cm n kids root h level → n.isLeaf = false →
    (kids n.pos).Perm (pointer :: n.children) → splitsKeepMark fuel f n key = true →
    level n.pos < fuel →
    insertNode fuel f cm n key pointer = .error .assertion ∨
    ∃ f' h', insertNode fuel f cm n key pointer = .ok f' ∧ Relinked f f' cm h h' := by
  induction fuel with
  | zero => intro f cm n key pointer root h kids level _ _ _ _ hfuel; omega
  | succ fuel ih =>
      intro f cm n key pointer root h kids level hP hinner htaken hmark hfuel
      rcases Nat.lt_or_ge n.size 127 with hroom | hfull
      · rw [splitsKeepMark, if_pos (show n.size < bptSize - 1 from hroom), hinner, Bool.false_or,
          decide_eq_true_eq] at hmark
        obtain ⟨f', hok, hset⟩ := hP.insert_room fuel hinner htaken hmark hroom
        exact Or.inr ⟨f', h, hok, hset⟩
      · have hsize : n.size = 127 := le_antisymm hP.sound.size hfull
        have hu : n.seps.countP (· ≤ key) ≤ 127 :=
          hsize ▸ List.countP_le_length.trans (List.length_take_le _ _)
        have hover : overflowNode f n key = .ok none := by
          rw [overflowNode, if_neg]
          rw [hinner]
          exact fun h => Bool.false_ne_true h.1
        have hshared := htaken.trans
          (children_halves key pointer cm.nextFree hP.sound.shape hinner hsize hu)
        by_cases hroot : n.pos = root
        · obtain herr | ⟨g, f', hok, hsplit⟩ := hP.insert_root fuel hsize rfl hover hshared hroot
          · exact Or.inl herr
          · exact Or.inr ⟨f', h + 1, hok, hsplit.relinked hinner hP.nextFree⟩
        · obtain ⟨g, m, left, right, heq, -, -, hlen, hcut, hinner', hlevel, hP', hmark'⟩ :=
            hP.insert_below hsize rfl hover hshared hroot hmark
          rw [heq]
          have htaken' :
              (takenKids g.look m cm.nextFree m.pos).Perm (cm.nextFree :: m.children) := by
            rw [takenKids, Function.update_self]
          obtain herr | ⟨f', h', hok, hset⟩ := ih hP' hinner' htaken' hmark' (by omega)
          · exact Or.inl herr
          · exact Or.inr ⟨f', h', hok, hset.of_cut hinner hcut hlen⟩

end ColumnDb
