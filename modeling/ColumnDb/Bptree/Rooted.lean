import ColumnDb.Bptree.Split
import ColumnDb.Library.Family

/-!
The shape of a B+ tree that grows by inserts: parents, children and levels, without the order
of the keys between the nodes.

* `Rooted t kids root h level`: the nodes that `t` gives for positions are a family with the
  children `kids`, and exactly those on the level `h` are leaves. As in `Indexed` the children
  are a parameter, because the parent of a split node learns of the new one last.
* `Rooted.cut`: a split, wherever the parent puts the new node among its children.
* `Rooted.plant`: a new root over the old one.
* `Rooted.findLeaf_ok`: the descent ends at a leaf.
-/

namespace ColumnDb

/-- The children of the node at a position. -/
def childrenAt (t : ℕ → Option Node) (p : ℕ) : List ℕ :=
  (t p).elim [] fun n => if n.isLeaf then [] else n.children

/-- The parent of the node at a position. -/
def parentAt (t : ℕ → Option Node) (p : ℕ) : ℕ := (t p).elim 0 Node.parent

/-- The positions with a node. -/
def stored (t : ℕ → Option Node) : Set ℕ := {p | ∃ n, t p = some n}

section Nodes

variable {t : ℕ → Option Node} {n : Node} {p : ℕ}

lemma childrenAt_of_some (ht : t p = some n) (hn : NodeShape n) : childrenAt t p = spots n.row := by
  rw [childrenAt, ht, Option.elim_some]
  cases hleaf : n.isLeaf with
  | true => rw [Node.row_of_leaf hleaf, spots_keyRow, if_pos rfl]
  | false => rw [Node.spots_row_of_inner hn hleaf, if_neg Bool.false_ne_true]

lemma childrenAt_of_inner (ht : t p = some n) (hinner : n.isLeaf = false) :
    childrenAt t p = n.children := by
  rw [childrenAt, ht, Option.elim_some, if_neg (by rw [hinner]; exact Bool.false_ne_true)]

lemma parentAt_of_some (ht : t p = some n) : parentAt t p = n.parent := by
  rw [parentAt, ht]
  rfl

/-- The children of a node with a new one among them. -/
lemma children_insert_perm {bs : List (ℤ × ℕ)} {i : ℕ} (hi : i ≤ bs.length) (first : ℕ) (key : ℤ)
    (pointer : ℕ) :
    (first :: (bs.insertIdx i (key, pointer)).map Prod.snd).Perm
      (pointer :: first :: bs.map Prod.snd) :=
  ((((List.perm_insertIdx (key, pointer) bs hi).map Prod.snd).cons first).trans
    (List.Perm.swap _ _ _))

variable {key : ℤ} {pointer N u : ℕ}

/-- The halves of a full node share out its children and the new one. -/
lemma children_halves (key : ℤ) (pointer N : ℕ) (hn : NodeShape n) (hinner : n.isLeaf = false)
    (hsize : n.size = 127) (hu : u ≤ 127) :
    (pointer :: n.children).Perm (spots (leftHalf n u key pointer N).row
      ++ spots (rightHalf n u key pointer N).row) := by
  have hspots := congrArg spots (split_inner key pointer N hn hinner hsize hu)
  rw [spots_childRow, spots_append, spots_cons_inr] at hspots
  have hlen : u ≤ n.branches.length := by
    have hseps := Node.length_seps hn hsize.le
    rw [Node.seps_eq_branches hn, List.length_map, hsize] at hseps
    omega
  rw [← hspots, Node.children_eq hn]
  exact (children_insert_perm hlen n.first key pointer).symm

/-- The halves of a full node have their keys in order. -/
lemma halves_sorted (pointer N : ℕ) (hn : NodeShape n) (hsize : n.size = 127)
    (hs : n.seps.Pairwise (· ≤ ·)) (hu : u = n.seps.countP (· ≤ key)) :
    (leftHalf n u key pointer N).seps.Pairwise (· ≤ ·) ∧
    (rightHalf n u key pointer N).seps.Pairwise (· ≤ ·) := by
  have hu' : u ≤ 127 := hu ▸ hsize ▸ List.countP_le_length.trans (List.length_take_le _ _)
  have hH := halves u key pointer N hn
  have hfences : (fences ((leftHalf n u key pointer N).row
      ++ Sum.inr (separator n u key) :: (rightHalf n u key pointer N).row)).Pairwise (· ≤ ·) := by
    cases hleaf : n.isLeaf with
    | true => exact (fences_halves_leaf pointer N hn hleaf hsize hs hu).1
    | false =>
        rw [← split_inner key pointer N hn hleaf hsize hu', fences_childRow, List.map_insertIdx,
          ← Node.seps_eq_branches hn, hu]
        exact insertIdx_countP_le_sorted hs key
  rw [fences_append, fences_cons_inr, Node.fences_row hH.left_header.shape,
    Node.fences_row hH.right_header.shape] at hfences
  obtain ⟨hleft, hright, -⟩ := List.pairwise_append.mp hfences
  exact ⟨hleft, (List.pairwise_cons.mp hright).2⟩

end Nodes

/-- The nodes form a tree of height `h` with the children `kids`. -/
structure Rooted (t : ℕ → Option Node) (kids : ℕ → List ℕ) (root h : ℕ) (level : ℕ → ℕ) :
    Prop where
  family : Family (stored t) kids (parentAt t) root level
  sound : ∀ p n, t p = some n → Sound n p
  sorted : ∀ p n, t p = some n → n.seps.Pairwise (· ≤ ·)
  level_le : ∀ p n, t p = some n → level p ≤ h
  leaf_iff : ∀ p n, t p = some n → (n.isLeaf = true ↔ level p = h)
  root_parent : ∀ n, t root = some n → n.parent = 0
  zero : ∃ n, t 0 = some n ∧ n.isLeaf = true

namespace Rooted

variable {t t' : ℕ → Option Node} {kids kids' : ℕ → List ℕ} {root h p q r : ℕ} {level : ℕ → ℕ}
  {n : Node}

lemma inner_iff (hR : Rooted t kids root h level) (hn : t p = some n) :
    n.isLeaf = false ↔ level p < h := by
  rw [← Bool.not_eq_true, hR.leaf_iff p n hn]
  exact (hR.level_le p n hn).lt_iff_ne.symm

lemma level_eq_zero (hR : Rooted t kids root h level) (hn : t p = some n) :
    level p = 0 ↔ p = root := hR.family.level_eq_zero ⟨n, hn⟩

/-- The parent of a node is an interior node. -/
lemma exists_parent (hR : Rooted t kids root h level) (hn : t p = some n) (hroot : p ≠ root) :
    ∃ m, t n.parent = some m ∧ m.isLeaf = false ∧ level p = level n.parent + 1 := by
  have hmem : p ∈ stored t := ⟨n, hn⟩
  obtain ⟨m, hm⟩ := hR.family.up_mem p hmem hroot
  have hlevel := hR.family.level_up p hmem hroot
  rw [parentAt_of_some hn] at hm hlevel
  have hle := hR.level_le p n hn
  exact ⟨m, hm, (hR.inner_iff hm).mpr (by omega), hlevel⟩

/-- Only the root has no parent, since the node at `0` is a leaf. -/
lemma parent_eq_zero (hR : Rooted t kids root h level) (hn : t p = some n) :
    n.parent = 0 ↔ p = root := by
  constructor
  · intro h0
    by_contra hroot
    obtain ⟨m, hm, hinner, -⟩ := hR.exists_parent hn hroot
    obtain ⟨z, hz, hleaf⟩ := hR.zero
    rw [h0, hz] at hm
    cases hm
    rw [hleaf] at hinner
    cases hinner
  · rintro rfl
    exact hR.root_parent n hn

lemma congr_kids (hR : Rooted t kids root h level) (hkids : ∀ q, (kids' q).Perm (kids q)) :
    Rooted t kids' root h level :=
  ⟨hR.family.congr_kids hkids, hR.sound, hR.sorted, hR.level_le, hR.leaf_iff, hR.root_parent,
    hR.zero⟩

/-- A node may be replaced by one with the same header. -/
lemma replace (hR : Rooted t kids root h level) {n' : Node} (hn : t p = some n)
    (hheader : SameHeader n n') (hsize : n'.size ≤ 127) (hs : n'.seps.Pairwise (· ≤ ·)) :
    Rooted (Function.update t p (some n')) kids root h level := by
  have hcases : ∀ x m, Function.update t p (some n') x = some m → ∃ m₀, t x = some m₀ ∧
      m.isLeaf = m₀.isLeaf ∧ m.parent = m₀.parent ∧ (Sound m₀ x → Sound m x) ∧
      (m₀.seps.Pairwise (· ≤ ·) → m.seps.Pairwise (· ≤ ·)) := by
    intro x m hm
    rw [Function.update_apply] at hm
    split_ifs at hm with hx
    · cases hm
      subst hx
      exact ⟨n, hn, hheader.isLeaf, hheader.parent, fun hsound =>
        ⟨hheader.shape, hheader.pos.trans hsound.pos, hsize⟩, fun _ => hs⟩
    · exact ⟨m, hm, rfl, rfl, id, id⟩
  have hstored : stored (Function.update t p (some n')) = stored t := by
    ext x
    constructor
    · rintro ⟨m, hm⟩
      obtain ⟨m₀, hm₀, -⟩ := hcases x m hm
      exact ⟨m₀, hm₀⟩
    · rintro ⟨m, hm⟩
      by_cases hx : x = p
      · exact ⟨n', by rw [hx, Function.update_self]⟩
      · exact ⟨m, by rw [Function.update_of_ne hx, hm]⟩
  refine ⟨?_, fun x m hm => ?_, fun x m hm => ?_, fun x m hm => ?_, fun x m hm => ?_,
    fun m hm => ?_, ?_⟩
  · rw [hstored]
    refine hR.family.congr_up fun c hc _ => ?_
    obtain ⟨m, hm⟩ := hstored.symm ▸ hc
    obtain ⟨m₀, hm₀, -, hparent, -⟩ := hcases c m hm
    rw [parentAt_of_some hm, parentAt_of_some hm₀, hparent]
  · obtain ⟨m₀, hm₀, -, -, hsound, -⟩ := hcases x m hm
    exact hsound (hR.sound x m₀ hm₀)
  · obtain ⟨m₀, hm₀, -, -, -, hsorted⟩ := hcases x m hm
    exact hsorted (hR.sorted x m₀ hm₀)
  · obtain ⟨m₀, hm₀, -⟩ := hcases x m hm
    exact hR.level_le x m₀ hm₀
  · obtain ⟨m₀, hm₀, hleaf, -⟩ := hcases x m hm
    rw [hleaf]
    exact hR.leaf_iff x m₀ hm₀
  · obtain ⟨m₀, hm₀, -, hparent, -⟩ := hcases root m hm
    exact hparent.trans (hR.root_parent m₀ hm₀)
  · obtain ⟨z, hz, hleaf⟩ := hR.zero
    by_cases hp : 0 = p
    · subst hp
      cases hn.symm.trans hz
      exact ⟨n', Function.update_self _ _ _, hheader.isLeaf.trans hleaf⟩
    · exact ⟨z, (Function.update_of_ne hp _ _).trans hz, hleaf⟩

/-! ### The descent -/

/-- The pointer that the search follows in an interior node. -/
lemma exists_child (hR : Rooted t (childrenAt t) root h level) (hn : t p = some n)
    (hinner : n.isLeaf = false) (key : ℤ) :
    ∃ c m, n.pointers[findLeafCounter n key]? = some c ∧ t c = some m ∧
      level c = level p + 1 := by
  have hsound := hR.sound p n hn
  have hle := findLeafCounter_le n key
  have hlt : findLeafCounter n key < n.pointers.length := by
    have := hsound.size
    rw [hsound.shape.pointers]
    omega
  have hget : n.pointers[findLeafCounter n key]? = some n.pointers[findLeafCounter n key] :=
    List.getElem?_eq_getElem hlt
  have hmem : n.pointers[findLeafCounter n key] ∈ childrenAt t p := by
    rw [childrenAt_of_inner hn hinner, Node.children]
    exact List.mem_of_getElem? ((List.getElem?_take_of_lt (by omega)).trans hget)
  obtain ⟨m, hm⟩ := ((hR.family.mem_kids _ _).mp hmem).1
  exact ⟨_, m, hget, hm, hR.family.level_kid hmem⟩

/-- **The descent** ends at a leaf. -/
theorem findLeaf_ok {f : BptFile} (hR : Rooted f.look (childrenAt f.look) root h level) (key : ℤ)
    (fuel : ℕ) : ∀ {p : ℕ} {n : Node}, f.look p = some n → h < level p + fuel →
      ∃ p' leaf, findLeaf fuel f n key = .ok leaf ∧ f.look p' = some leaf ∧
        leaf.isLeaf = true := by
  induction fuel with
  | zero =>
      intro p n hn hfuel
      have := hR.level_le p n hn
      omega
  | succ fuel ih =>
      intro p n hn hfuel
      rw [findLeaf]
      cases hleaf : n.isLeaf with
      | true => exact ⟨p, n, if_pos rfl, hn, hleaf⟩
      | false =>
          obtain ⟨c, m, hget, hm, hlevel⟩ := hR.exists_child hn hleaf key
          obtain ⟨p', leaf, hok, hrest⟩ := ih hm (by omega)
          have hload : loadNode f c = .ok m := fetch_eq_ok.mpr hm
          refine ⟨p', leaf, ?_, hrest⟩
          rw [if_neg Bool.false_ne_true, fetch_eq_ok.mpr hget, Outcome.ok_bind, hload,
            Outcome.ok_bind, hok]

end Rooted

/-! ### Splitting a node -/

section Cut

variable {t t' : ℕ → Option Node} {kids kids' : ℕ → List ℕ} {root h p q r : ℕ} {level : ℕ → ℕ}
  {n left right : Node}

/-- What the split of the node at `p`, with the new node at `r`, does to the children, when the
parent `q` takes the new node. -/
structure CutKids (kids kids' : ℕ → List ℕ) (p q r : ℕ) (n left right : Node) : Prop where
  shared : (kids p).Perm (spots left.row ++ spots right.row)
  left_kids : kids' p = spots left.row
  right_kids : kids' r = spots right.row
  taken : (kids' q).Perm (r :: kids q)
  same : ∀ x, x ≠ p → x ≠ r → x ≠ q → kids' x = kids x
  node_parent : n.parent = q
  left_parent : left.parent = q
  right_parent : right.parent = q

/-- The positions after the split. -/
lemma Cut.stored_iff (hc : Cut t t' n left right p r) (x : ℕ) :
    x ∈ stored t' ↔ x ∈ stored t ∨ x = r := by
  constructor
  · rintro ⟨m, hm⟩
    obtain ⟨rfl, -⟩ | ⟨rfl, -⟩ | ⟨-, -, m₀, hm₀, -⟩ := hc.cases_of_some hm
    · exact Or.inl ⟨n, hc.node⟩
    · exact Or.inr rfl
    · exact Or.inl ⟨m₀, hm₀⟩
  · rintro (⟨m, hm⟩ | rfl)
    · by_cases hxp : x = p
      · exact ⟨left, hxp ▸ hc.left_at⟩
      · have hxr : x ≠ r := by
          rintro rfl
          cases hc.fresh.symm.trans hm
        exact ⟨_, hc.others_some hxp hxr hm⟩
    · exact ⟨right, hc.right_at⟩

/-- The children of the right half are old nodes below the one that is split. -/
lemma Rooted.right_child (hR : Rooted t kids root h level) (hc : Cut t t' n left right p r)
    (hk : CutKids kids kids' p q r n left right) {c : ℕ} (hmem : c ∈ spots right.row) :
    c ≠ p ∧ c ≠ r ∧ c ≠ root ∧ level c = level p + 1 ∧ ∃ m, t c = some m := by
  have hkid : c ∈ kids p := hk.shared.mem_iff.mpr (List.mem_append_right _ hmem)
  obtain ⟨⟨m, hm⟩, hroot, -⟩ := (hR.family.mem_kids p c).mp hkid
  have hlevel := hR.family.level_kid hkid
  refine ⟨?_, ?_, hroot, hlevel, m, hm⟩
  · rintro rfl
    omega
  · rintro rfl
    cases hc.fresh.symm.trans hm

lemma Rooted.parted (hR : Rooted t kids root h level) (hc : Cut t t' n left right p r)
    (hk : CutKids kids kids' p q r n left right) :
    Family.Parted (stored t) (stored t') kids kids' (parentAt t) (parentAt t') p q r where
  nodes_iff := hc.stored_iff
  shared := by
    rw [hk.left_kids, hk.right_kids]
    exact hk.shared
  taken := hk.taken
  same := hk.same
  up_new := (parentAt_of_some hc.right_at).trans hk.right_parent
  up_moved x hx := by
    rw [hk.right_kids] at hx
    obtain ⟨hxp, hxr, -, -, m, hm⟩ := hR.right_child hc hk hx
    rw [parentAt_of_some (hc.others_some hxp hxr hm), if_pos hx]
  up_kept := by
    rintro x ⟨m, hm⟩ hx
    rw [hk.right_kids] at hx
    by_cases hxp : x = p
    · subst hxp
      rw [parentAt_of_some hc.left_at, parentAt_of_some hc.node, hk.left_parent, hk.node_parent]
    · have hxr : x ≠ r := by
        rintro rfl
        cases hc.fresh.symm.trans hm
      rw [parentAt_of_some (hc.others_some hxp hxr hm), if_neg hx, parentAt_of_some hm]

/-- **Splitting a node** below its parent. -/
theorem Rooted.cut (hR : Rooted t kids root h level) (hc : Cut t t' n left right p r)
    (hk : CutKids kids kids' p q r n left right) (hp : p ≠ root)
    (hleft : left.seps.Pairwise (· ≤ ·)) (hright : right.seps.Pairwise (· ≤ ·)) :
    Rooted t' kids' root h (Function.update level r (level p)) := by
  have hq : parentAt t p = q := (parentAt_of_some hc.node).trans hk.node_parent
  have hfresh : r ∉ stored t := by
    rintro ⟨m, hm⟩
    cases hc.fresh.symm.trans hm
  have hself : Function.update level r (level p) r = level p := Function.update_self _ _ _
  have hold : ∀ {x m}, t x = some m → Function.update level r (level p) x = level x :=
    fun {x m} hm => Function.update_of_ne (by rintro rfl; exact hfresh ⟨m, hm⟩) _ _
  -- every node after the split has the mark and the level of one before it
  have hmark : ∀ x m, t' x = some m → ∃ y m₀, t y = some m₀ ∧ m.isLeaf = m₀.isLeaf ∧
      Function.update level r (level p) x = level y := by
    intro x m hm
    obtain ⟨rfl, rfl⟩ | ⟨rfl, rfl⟩ | ⟨-, -, m₀, hm₀, rfl⟩ := hc.cases_of_some hm
    · exact ⟨x, n, hc.node, hc.left_isLeaf, hold hc.node⟩
    · exact ⟨p, n, hc.node, hc.right_isLeaf, hself⟩
    · exact ⟨x, m₀, hm₀, by split_ifs <;> rfl, hold hm₀⟩
  refine ⟨hR.family.split (hR.parted hc hk) ⟨n, hc.node⟩ hp hq hfresh, hc.sound hR.sound,
    fun x m hm => ?_, fun x m hm => ?_, fun x m hm => ?_, fun m hm => ?_, ?_⟩
  · obtain ⟨rfl, rfl⟩ | ⟨rfl, rfl⟩ | ⟨-, -, m₀, hm₀, rfl⟩ := hc.cases_of_some hm
    · exact hleft
    · exact hright
    · have hsorted := hR.sorted x m₀ hm₀
      split_ifs
      · exact hsorted
      · exact hsorted
  · obtain ⟨y, m₀, hm₀, -, hlevel⟩ := hmark x m hm
    rw [hlevel]
    exact hR.level_le y m₀ hm₀
  · obtain ⟨y, m₀, hm₀, hleaf, hlevel⟩ := hmark x m hm
    rw [hlevel, hleaf]
    exact hR.leaf_iff y m₀ hm₀
  · obtain ⟨rfl, -⟩ | ⟨rfl, -⟩ | ⟨-, -, m₀, hm₀, rfl⟩ := hc.cases_of_some hm
    · exact absurd rfl hp
    · exact absurd hR.family.root_mem hfresh
    · rw [if_neg fun hmem => (hR.right_child hc hk hmem).2.2.1 rfl]
      exact hR.root_parent m₀ hm₀
  · obtain ⟨z, hz, hleaf⟩ := hR.zero
    by_cases h0 : 0 = p
    · subst h0
      cases hc.node.symm.trans hz
      exact ⟨left, hc.left_at, hc.left_isLeaf.trans hleaf⟩
    · have h0r : 0 ≠ r := by
        rintro rfl
        exact hfresh ⟨z, hz⟩
      exact ⟨_, hc.others_some h0 h0r hz, by split_ifs <;> exact hleaf⟩

end Cut

/-! ### A new root -/

section Plant

variable {t : ℕ → Option Node} {kids : ℕ → List ℕ} {root h r : ℕ} {level : ℕ → ℕ} {m : Node}

/-- **A new root** over the old one. -/
theorem Rooted.plant (hR : Rooted t kids root h level) (hr : t r = none) (hm : Sound m r)
    (hinner : m.isLeaf = false) (hparent : m.parent = 0) (hs : m.seps.Pairwise (· ≤ ·)) :
    Rooted (plantAt t root r m) (Function.update kids r [root]) r (h + 1)
      (Function.update (fun x => level x + 1) r 0) := by
  have hne : ∀ {x y}, t x = some y → x ≠ r := by
    rintro x y hy rfl
    cases hr.symm.trans hy
  have hold : ∀ {x y}, t x = some y →
      plantAt t root r m x = some (if x = root then { y with parent := r } else y) :=
    fun hy => by rw [plantAt_of_ne (hne hy), hy, Option.map_some]
  have hlevel : ∀ {x y}, t x = some y →
      Function.update (fun x => level x + 1) r 0 x = level x + 1 :=
    fun hy => Function.update_of_ne (hne hy) _ _
  obtain ⟨z₀, hz₀⟩ := hR.family.root_mem
  refine ⟨hR.family.plant ?_ (fun x => ?_) ?_ ?_, fun x y hy => ?_, fun x y hy => ?_,
    fun x y hy => ?_, fun x y hy => ?_, fun y hy => ?_, ?_⟩
  · rintro ⟨y, hy⟩
    exact hne hy rfl
  · constructor
    · rintro ⟨y, hy⟩
      by_cases hx : x = r
      · exact Or.inr hx
      · obtain ⟨y₀, hy₀, -⟩ := exists_of_plantAt hx hy
        exact Or.inl ⟨y₀, hy₀⟩
    · rintro (⟨y, hy⟩ | rfl)
      · exact ⟨_, hold hy⟩
      · exact ⟨m, plantAt_self⟩
  · rw [parentAt_of_some (hold hz₀), if_pos rfl]
  · rintro x ⟨y, hy⟩ hroot
    rw [parentAt_of_some (hold hy), if_neg hroot, parentAt_of_some hy]
  · by_cases hx : x = r
    · subst hx
      cases plantAt_self.symm.trans hy
      exact hm
    · obtain ⟨y₀, hy₀, rfl⟩ := exists_of_plantAt hx hy
      have hsound := hR.sound x y₀ hy₀
      split_ifs
      · exact ⟨⟨hsound.shape.keys, hsound.shape.pointers⟩, hsound.pos, hsound.size⟩
      · exact hsound
  · by_cases hx : x = r
    · subst hx
      cases plantAt_self.symm.trans hy
      exact hs
    · obtain ⟨y₀, hy₀, rfl⟩ := exists_of_plantAt hx hy
      have hsorted := hR.sorted x y₀ hy₀
      split_ifs <;> exact hsorted
  · by_cases hx : x = r
    · rw [hx, Function.update_self]
      exact Nat.zero_le _
    · obtain ⟨y₀, hy₀, -⟩ := exists_of_plantAt hx hy
      rw [hlevel hy₀]
      exact Nat.succ_le_succ (hR.level_le x y₀ hy₀)
  · by_cases hx : x = r
    · subst hx
      cases plantAt_self.symm.trans hy
      rw [hinner, Function.update_self]
      simp
    · obtain ⟨y₀, hy₀, rfl⟩ := exists_of_plantAt hx hy
      have hiff := hR.leaf_iff x y₀ hy₀
      rw [hlevel hy₀, Nat.succ_inj, ← hiff]
      split_ifs <;> rfl
  · cases plantAt_self.symm.trans hy
    exact hparent
  · obtain ⟨z, hz, hleaf⟩ := hR.zero
    exact ⟨_, hold hz, by split_ifs <;> exact hleaf⟩

end Plant

end ColumnDb
