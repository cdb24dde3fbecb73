import ColumnDb.Bptree.Rows
import ColumnDb.Bptree.Scan

/-!
The invariant of a B+ tree that grows by inserts.

* `Indexed t kids root h`: the nodes that `t` gives for positions form a tree of height `h`
  with the rows `kids`, whose `parent` fields are right, and whose keys are in order from left
  to right. The rows are a parameter because an insert writes a split node before its parent
  knows of the new one: `kids` is then the tree in which it does.
* `CutBelow.indexed'`: splitting a node below a parent that takes the new node right behind it.
* `Indexed.plant`: a new root over the old one, the first half of what splitting a root does.
-/

namespace ColumnDb

/-- The node at a position. -/
def BptFile.look (f : BptFile) (p : ℕ) : Option Node := f.nodes[p]?

/-- The row of the node at a position. -/
def rowAt (t : ℕ → Option Node) (p : ℕ) : List (ℕ ⊕ ℤ) := (t p).elim [] Node.row

lemma rowAt_of_some {t : ℕ → Option Node} {p : ℕ} {n : Node} (h : t p = some n) :
    rowAt t p = n.row := by
  rw [rowAt, h]
  rfl

lemma rowAt_update (t : ℕ → Option Node) (p : ℕ) (n : Node) :
    rowAt (Function.update t p (some n)) = Function.update (rowAt t) p n.row := by
  funext x
  rw [rowAt, Function.update_apply, Function.update_apply]
  split_ifs <;> rfl

/-- A node that can stand at the position `p`. -/
structure Sound (n : Node) (p : ℕ) : Prop where
  shape : NodeShape n
  pos : n.pos = p
  size : n.size ≤ 127

/-- The nodes form a tree with the rows `kids`. -/
structure Indexed (t : ℕ → Option Node) (kids : ℕ → List (ℕ ⊕ ℤ)) (root h : ℕ) : Prop where
  layered : Layered kids root h
  sound : ∀ p n, t p = some n → Sound n p
  inner : ∀ d < h, ∀ p ∈ spots (layer kids root d), ∃ n, t p = some n ∧ n.isLeaf = false
  leaf : ∀ p ∈ spots (layer kids root h), ∃ n, t p = some n ∧ n.isLeaf = true
  parents : ∀ d < h, ∀ p ∈ spots (layer kids root d), ∀ c ∈ spots (kids p),
    ∀ n, t c = some n → n.parent = p
  root_parent : ∀ n, t root = some n → n.parent = 0
  zero : 0 ∈ spots (layer kids root h)
  order : (fences (layer kids root (h + 1))).Pairwise (· ≤ ·)

namespace Indexed

variable {t : ℕ → Option Node} {kids : ℕ → List (ℕ ⊕ ℤ)} {root h d p : ℕ}

lemma exists_node (hI : Indexed t kids root h) (hd : d ≤ h) (hp : p ∈ spots (layer kids root d)) :
    ∃ n, t p = some n := by
  rcases Nat.lt_or_ge d h with hlt | hge
  · obtain ⟨n, hn, -⟩ := hI.inner d hlt p hp
    exact ⟨n, hn⟩
  · obtain rfl : d = h := by omega
    obtain ⟨n, hn, -⟩ := hI.leaf p hp
    exact ⟨n, hn⟩

/-- A position without a node is not in the tree. -/
lemma fresh (hI : Indexed t kids root h) (hp : t p = none) :
    ∀ d ≤ h, p ∉ spots (layer kids root d) := by
  intro d hd hmem
  obtain ⟨n, hn⟩ := hI.exists_node hd hmem
  rw [hp] at hn
  cases hn

/-- The first leaf stands at the position `0`, so no interior node does. -/
lemma ne_zero (hI : Indexed t kids root h) (hd : d < h) (hp : p ∈ spots (layer kids root d)) :
    p ≠ 0 := by
  rintro rfl
  have := hI.layered.apart d hd.le h le_rfl 0 hp hI.zero
  omega

/-- The `parent` field of a node below the root. -/
lemma parent_mem (hI : Indexed t kids root h) (hd : d + 1 ≤ h)
    (hp : p ∈ spots (layer kids root (d + 1))) {n : Node} (hn : t p = some n) :
    n.parent ∈ spots (layer kids root d) ∧ p ∈ spots (kids n.parent) := by
  obtain ⟨q, hq, hpq⟩ := exists_parent hp
  rw [hI.parents d (by omega) q hq p hpq n hn]
  exact ⟨hq, hpq⟩

/-- Only the root has no parent. -/
lemma parent_eq_zero (hI : Indexed t kids root h) (hd : d ≤ h)
    (hp : p ∈ spots (layer kids root d)) {n : Node} (hn : t p = some n) :
    n.parent = 0 ↔ d = 0 := by
  cases d with
  | zero =>
      obtain rfl := List.mem_singleton.mp hp
      exact ⟨fun _ => rfl, fun _ => hI.root_parent n hn⟩
  | succ d =>
      have hmem := (hI.parent_mem hd hp hn).1
      exact ⟨fun h0 => absurd h0 (hI.ne_zero (by omega) hmem), fun h0 => by omega⟩

/-- The fences of a row are in order. -/
lemma kids_sorted (hI : Indexed t kids root h) (hd : d ≤ h) (hp : p ∈ spots (layer kids root d)) :
    (fences (kids p)).Pairwise (· ≤ ·) :=
  hI.order.sublist ((fences_kids_sublist hp).trans (fences_layer_sublist (by omega)))

/-- The rows of the leaves may change, as long as the keys stay in order. -/
lemma relabel (hI : Indexed t kids root h) {kids' : ℕ → List (ℕ ⊕ ℤ)}
    (hsame : ∀ e < h, ∀ x ∈ spots (layer kids root e), kids' x = kids x)
    (horder : (fences (expand kids' (layer kids root h))).Pairwise (· ≤ ·)) :
    Indexed t kids' root h := by
  have hlayer : ∀ e ≤ h, layer kids' root e = layer kids root e := fun e he =>
    layer_congr fun e' he' => hsame e' (by omega)
  refine ⟨⟨fun e he => ?_, fun e he e' he' x hx hx' => ?_⟩, hI.sound, fun e he x hx => ?_,
    fun x hx => ?_, fun e he x hx c hc => ?_, hI.root_parent, ?_, ?_⟩
  · rw [hlayer e he]
    exact hI.layered.nodup e he
  · rw [hlayer e he] at hx
    rw [hlayer e' he'] at hx'
    exact hI.layered.apart e he e' he' x hx hx'
  · rw [hlayer e he.le] at hx
    exact hI.inner e he x hx
  · rw [hlayer h le_rfl] at hx
    exact hI.leaf x hx
  · rw [hlayer e he.le] at hx
    rw [hsame e he x hx] at hc
    exact hI.parents e he x hx c hc
  · rw [hlayer h le_rfl]
    exact hI.zero
  · rw [layer, hlayer h le_rfl]
    exact horder

/-- A node may be replaced by one with the same header. -/
lemma replace (hI : Indexed t kids root h) {n n' : Node} (hn : t p = some n)
    (hheader : SameHeader n n') (hsize : n'.size ≤ 127) :
    Indexed (Function.update t p (some n')) kids root h := by
  have hcases : ∀ x m, Function.update t p (some n') x = some m → ∃ m₀, t x = some m₀ ∧
      m.isLeaf = m₀.isLeaf ∧ m.parent = m₀.parent ∧ (Sound m₀ x → Sound m x) := by
    intro x m hm
    rw [Function.update_apply] at hm
    split_ifs at hm with hx
    · cases hm
      subst hx
      exact ⟨n, hn, hheader.isLeaf, hheader.parent, fun hs =>
        ⟨hheader.shape, hheader.pos.trans hs.pos, hsize⟩⟩
    · exact ⟨m, hm, rfl, rfl, id⟩
  have hmark : ∀ x (b : Bool), (∃ m, t x = some m ∧ m.isLeaf = b) →
      ∃ m, Function.update t p (some n') x = some m ∧ m.isLeaf = b := by
    rintro x b ⟨m, hm, hb⟩
    rw [Function.update_apply]
    split_ifs with hx
    · subst hx
      cases hn.symm.trans hm
      exact ⟨n', rfl, hheader.isLeaf.trans hb⟩
    · exact ⟨m, hm, hb⟩
  refine ⟨hI.layered, fun x m hm => ?_, fun e he x hx => hmark x false (hI.inner e he x hx),
    fun x hx => hmark x true (hI.leaf x hx), fun e he x hx c hc m hm => ?_, fun m hm => ?_,
    hI.zero, hI.order⟩
  · obtain ⟨m₀, hm₀, -, -, hs⟩ := hcases x m hm
    exact hs (hI.sound x m₀ hm₀)
  · obtain ⟨m₀, hm₀, -, hparent, -⟩ := hcases c m hm
    exact hparent.trans (hI.parents e he x hx c hc m₀ hm₀)
  · obtain ⟨m₀, hm₀, -, hparent, -⟩ := hcases root m hm
    exact hparent.trans (hI.root_parent m₀ hm₀)

end Indexed

/-! ### Splitting a node -/

/-- The nodes after the node at `p` is split into `left`, which stays there, and `right`, which
goes to `r`: the children of the right half get their new parent. -/
structure Cut (t t' : ℕ → Option Node) (n left right : Node) (p r : ℕ) : Prop where
  node : t p = some n
  fresh : t r = none
  left_at : t' p = some left
  right_at : t' r = some right
  others : ∀ x, x ≠ p → x ≠ r →
    t' x = (t x).map fun m => if x ∈ spots right.row then { m with parent := r } else m
  left_sound : Sound left p
  right_sound : Sound right r
  left_isLeaf : left.isLeaf = n.isLeaf
  right_isLeaf : right.isLeaf = n.isLeaf

namespace Cut

variable {t t' : ℕ → Option Node} {n left right : Node} {p r : ℕ}

/-- The other nodes keep everything but the parent. -/
lemma others_some (hc : Cut t t' n left right p r) {x : ℕ} (hx : x ≠ p) (hxr : x ≠ r) {m : Node}
    (hm : t x = some m) :
    t' x = some (if x ∈ spots right.row then { m with parent := r } else m) := by
  rw [hc.others x hx hxr, hm]
  rfl

/-- Every node after the split is a half, or was there before. -/
lemma cases_of_some (hc : Cut t t' n left right p r) {x : ℕ} {m : Node} (hm : t' x = some m) :
    (x = p ∧ m = left) ∨ (x = r ∧ m = right) ∨ (x ≠ p ∧ x ≠ r ∧ ∃ m₀, t x = some m₀ ∧
      m = if x ∈ spots right.row then { m₀ with parent := r } else m₀) := by
  by_cases hx : x = p
  · subst hx
    rw [hc.left_at] at hm
    exact Or.inl ⟨rfl, (Option.some_inj.mp hm).symm⟩
  · by_cases hxr : x = r
    · subst hxr
      rw [hc.right_at] at hm
      exact Or.inr (Or.inl ⟨rfl, (Option.some_inj.mp hm).symm⟩)
    · rw [hc.others x hx hxr, Option.map_eq_some_iff] at hm
      obtain ⟨m₀, hm₀, rfl⟩ := hm
      exact Or.inr (Or.inr ⟨hx, hxr, m₀, hm₀, rfl⟩)

lemma rowAt_others (hc : Cut t t' n left right p r) {x : ℕ} (hx : x ≠ p) (hxr : x ≠ r) :
    rowAt t' x = rowAt t x := by
  rw [rowAt, rowAt, hc.others x hx hxr]
  cases t x with
  | none => rfl
  | some m =>
      rw [Option.map_some]
      split_ifs <;> rfl

/-- The nodes after a split can stand where they do. -/
lemma sound (hc : Cut t t' n left right p r) (hs : ∀ x m, t x = some m → Sound m x) :
    ∀ x m, t' x = some m → Sound m x := by
  intro x m hm
  obtain ⟨rfl, rfl⟩ | ⟨rfl, rfl⟩ | ⟨-, -, m₀, hm₀, rfl⟩ := hc.cases_of_some hm
  · exact hc.left_sound
  · exact hc.right_sound
  · have hsound := hs x m₀ hm₀
    split_ifs
    · exact ⟨⟨hsound.shape.keys, hsound.shape.pointers⟩, hsound.pos, hsound.size⟩
    · exact hsound

lemma ne (hc : Cut t t' n left right p r) : p ≠ r := by
  rintro rfl
  cases hc.node.symm.trans hc.fresh

end Cut

/-- The split of the node at `p`, with the new node at `r`, below the parent `q`, which takes
the new node right behind the other. -/
structure CutBelow (t t' : ℕ → Option Node) (kids kids' : ℕ → List (ℕ ⊕ ℤ)) (root h d q p r : ℕ)
    (s : ℤ) (n left right : Node) : Prop where
  indexed : Indexed t kids root h
  cut : Cut t t' n left right p r
  splits : Splits kids kids' root d h q p r s
  left_row : kids' p = left.row
  right_row : kids' r = right.row
  left_parent : left.parent = q
  right_parent : right.parent = q

namespace CutBelow

variable {t t' : ℕ → Option Node} {kids kids' : ℕ → List (ℕ ⊕ ℤ)} {root h d q p r : ℕ} {s : ℤ}
  {n left right : Node}

lemma fresh (hb : CutBelow t t' kids kids' root h d q p r s n left right) :
    ∀ e ≤ h, r ∉ spots (layer kids root e) := hb.indexed.fresh hb.cut.fresh

lemma node_parent (hb : CutBelow t t' kids kids' root h d q p r s n left right) :
    n.parent = q := by
  obtain ⟨A, B, hrow, -⟩ := hb.splits.kids_parent
  exact hb.indexed.parents d hb.splits.depth q hb.splits.parent p (by simp [hrow]) n hb.cut.node

/-- The children of the right half were children of the node. -/
lemma right_child (hb : CutBelow t t' kids kids' root h d q p r s n left right) {c : ℕ}
    (hc : c ∈ spots right.row) : d + 1 < h ∧ c ∈ spots (kids p) := by
  have hdepth := hb.splits.depth
  refine ⟨?_, by simp [hb.splits.kids_node, hb.right_row, hc]⟩
  by_contra hge
  have hmem := hb.splits.mem_layer
  rw [show d + 1 = h by omega] at hmem
  obtain ⟨m, hm, hleaf⟩ := hb.indexed.leaf p hmem
  cases hb.cut.node.symm.trans hm
  rw [Node.row_of_leaf (hb.cut.right_isLeaf.trans hleaf), spots_keyRow] at hc
  cases hc

/-- A child of a node is not the node. -/
lemma child_ne (hb : CutBelow t t' kids kids' root h d q p r s n left right) {e x c : ℕ}
    (he : e < h) (hx : x ∈ spots (layer kids root e)) (hc : c ∈ spots (kids x)) : c ≠ x := by
  rintro rfl
  have := hb.indexed.layered.apart e he.le (e + 1) he c hx (mem_layer_succ hx hc)
  omega

/-- A child in the old tree is not the new node. -/
lemma child_ne_new (hb : CutBelow t t' kids kids' root h d q p r s n left right) {e x c : ℕ}
    (he : e < h) (hx : x ∈ spots (layer kids root e)) (hc : c ∈ spots (kids x)) : c ≠ r := by
  rintro rfl
  exact hb.fresh (e + 1) he (mem_layer_succ hx hc)

/-- A node that is not a half was there before, with its parent unless it is a child of the
right half. -/
lemma exists_old (hb : CutBelow t t' kids kids' root h d q p r s n left right) {c : ℕ}
    (hcp : c ≠ p) (hcr : c ≠ r) {m : Node} (hm : t' c = some m) :
    ∃ m₀, t c = some m₀ ∧ m.parent = if c ∈ spots right.row then r else m₀.parent := by
  obtain ⟨rfl, -⟩ | ⟨rfl, -⟩ | ⟨-, -, m₀, hm₀, rfl⟩ := hb.cut.cases_of_some hm
  · exact absurd rfl hcp
  · exact absurd rfl hcr
  · exact ⟨m₀, hm₀, by split_ifs <;> rfl⟩

/-- A layer of leaves, or of interior nodes, stays one. -/
lemma isLeaf_layer (hb : CutBelow t t' kids kids' root h d q p r s n left right) {e : ℕ}
    (he : e ≤ h) {b : Bool}
    (hold : ∀ x ∈ spots (layer kids root e), ∃ m, t x = some m ∧ m.isLeaf = b) :
    ∀ x ∈ spots (layer kids' root e), ∃ m, t' x = some m ∧ m.isLeaf = b := by
  intro x hx
  obtain hx | ⟨rfl, rfl⟩ := (hb.splits.mem_iff he).mp hx
  · obtain ⟨m, hm, hmark⟩ := hold x hx
    by_cases hxp : x = p
    · subst hxp
      cases hb.cut.node.symm.trans hm
      exact ⟨left, hb.cut.left_at, hb.cut.left_isLeaf.trans hmark⟩
    · have hxr : x ≠ r := by
        rintro rfl
        exact hb.fresh e he hx
      exact ⟨_, hb.cut.others_some hxp hxr hm, by split_ifs <;> exact hmark⟩
  · obtain ⟨m, hm, hmark⟩ := hold p hb.splits.mem_layer
    cases hb.cut.node.symm.trans hm
    exact ⟨right, hb.cut.right_at, hb.cut.right_isLeaf.trans hmark⟩

lemma sound (hb : CutBelow t t' kids kids' root h d q p r s n left right) {x : ℕ} {m : Node}
    (hm : t' x = some m) : Sound m x :=
  hb.cut.sound hb.indexed.sound x m hm

/-- An old child of a node that is not split keeps its parent. -/
lemma parent_kept (hb : CutBelow t t' kids kids' root h d q p r s n left right) {e x c : ℕ}
    (he : e < h) (hx : x ∈ spots (layer kids root e)) (hxp : x ≠ p) (hc : c ∈ spots (kids x))
    (hcp : c ≠ p) {m : Node} (hm : t' c = some m) : m.parent = x := by
  obtain ⟨m₀, hm₀, hparent⟩ := hb.exists_old hcp (hb.child_ne_new he hx hc) hm
  have hold := hb.indexed.parents e he x hx c hc m₀ hm₀
  rw [hparent, if_neg, hold]
  intro hright
  obtain ⟨hlt, hcp'⟩ := hb.right_child hright
  exact hxp (hold.symm.trans (hb.indexed.parents (d + 1) hlt p hb.splits.mem_layer c hcp' m₀ hm₀))

/-- The children of the left half keep their parent. -/
lemma parent_left (hb : CutBelow t t' kids kids' root h d q p r s n left right) {e c : ℕ}
    (he : e < h) (hp : p ∈ spots (layer kids root e)) (hc : c ∈ spots left.row) {m : Node}
    (hm : t' c = some m) : m.parent = p := by
  have hc' : c ∈ spots (kids p) := by simp [hb.splits.kids_node, hb.left_row, hc]
  obtain ⟨m₀, hm₀, hparent⟩ :=
    hb.exists_old (hb.child_ne he hp hc') (hb.child_ne_new he hp hc') hm
  have hnodup := hb.indexed.layered.kids_nodup he hp
  rw [hb.splits.kids_node, hb.left_row, hb.right_row, spots_append, spots_cons_inr,
    List.nodup_append] at hnodup
  rw [hparent, if_neg fun hright => hnodup.2.2 c hc c hright rfl]
  exact hb.indexed.parents e he p hp c hc' m₀ hm₀

/-- The children of the right half get the new node as their parent. -/
lemma parent_right (hb : CutBelow t t' kids kids' root h d q p r s n left right) {c : ℕ}
    (hc : c ∈ spots right.row) {m : Node} (hm : t' c = some m) : m.parent = r := by
  obtain ⟨hlt, hc'⟩ := hb.right_child hc
  have hp := hb.splits.mem_layer
  obtain ⟨m₀, -, hparent⟩ :=
    hb.exists_old (hb.child_ne hlt hp hc') (hb.child_ne_new hlt hp hc') hm
  rw [hparent, if_pos hc]

/-- The children of the parent: the halves among them have it as their parent as well. -/
lemma parent_parent (hb : CutBelow t t' kids kids' root h d q p r s n left right)
    (hqp : q ≠ p) {c : ℕ} (hc : c ∈ spots (kids' q)) {m : Node} (hm : t' c = some m) :
    m.parent = q := by
  obtain ⟨A, B, hrow, hrow'⟩ := hb.splits.kids_parent
  by_cases hcp : c = p
  · subst hcp
    cases hb.cut.left_at.symm.trans hm
    exact hb.left_parent
  · by_cases hcr : c = r
    · subst hcr
      cases hb.cut.right_at.symm.trans hm
      exact hb.right_parent
    · refine hb.parent_kept hb.splits.depth hb.splits.parent hqp ?_ hcp hm
      rw [hrow'] at hc
      simpa [hrow, hcp, hcr] using hc

lemma parents (hb : CutBelow t t' kids kids' root h d q p r s n left right) {e : ℕ}
    (he : e < h) {x : ℕ} (hx : x ∈ spots (layer kids' root e)) {c : ℕ}
    (hc : c ∈ spots (kids' x)) {m : Node} (hm : t' c = some m) : m.parent = x := by
  obtain hx | ⟨-, rfl⟩ := (hb.splits.mem_iff he.le).mp hx
  · by_cases hxp : x = p
    · subst hxp
      rw [hb.left_row] at hc
      exact hb.parent_left he hx hc hm
    · by_cases hxq : x = q
      · subst hxq
        exact hb.parent_parent hxp hc hm
      · rw [hb.splits.same e he.le x hx hxp hxq] at hc
        refine hb.parent_kept he hx hxp hc ?_ hm
        rintro rfl
        have hold := hb.indexed.parents e he x hx c hc n hb.cut.node
        exact hxq (hold.symm.trans hb.node_parent)
  · rw [hb.right_row] at hc
    exact hb.parent_right hc hm

lemma root_parent (hb : CutBelow t t' kids kids' root h d q p r s n left right) {m : Node}
    (hm : t' root = some m) : m.parent = 0 := by
  have hroot : root ∈ spots (layer kids root 0) := List.mem_singleton.mpr rfl
  have happart := hb.indexed.layered.apart 0 (Nat.zero_le _)
  have hrp : root ≠ p := by
    rintro rfl
    have := happart _ hb.splits.depth _ hroot hb.splits.mem_layer
    omega
  have hrr : root ≠ r := by
    rintro rfl
    exact hb.fresh 0 (Nat.zero_le _) hroot
  obtain ⟨m₀, hm₀, hparent⟩ := hb.exists_old hrp hrr hm
  rw [hparent, if_neg]
  · exact hb.indexed.root_parent m₀ hm₀
  · intro hright
    obtain ⟨hlt, hc⟩ := hb.right_child hright
    have := happart _ hlt _ hroot (mem_layer_succ hb.splits.mem_layer hc)
    omega

/-- **Splitting a node** below a parent that takes the new node right behind it leaves a
tree. -/
theorem indexed' (hb : CutBelow t t' kids kids' root h d q p r s n left right) :
    Indexed t' kids' root h where
  layered := hb.splits.layered'
  sound := fun _ _ => hb.sound
  inner := fun e he => hb.isLeaf_layer he.le (hb.indexed.inner e he)
  leaf := hb.isLeaf_layer le_rfl hb.indexed.leaf
  parents := fun _ he _ hx _ hc _ => hb.parents he hx hc
  root_parent := fun _ => hb.root_parent
  zero := (hb.splits.mem_iff le_rfl).mpr (Or.inl hb.indexed.zero)
  order := by
    have hdepth := hb.splits.depth
    rw [hb.splits.below (by omega) le_rfl]
    exact hb.indexed.order

end CutBelow

/-! ### A new root -/

/-- The nodes with the node `m` put over the root at the position `r`. -/
def plantAt (t : ℕ → Option Node) (root r : ℕ) (m : Node) (x : ℕ) : Option Node :=
  if x = r then some m
  else (t x).map fun n => if x = root then { n with parent := r } else n

/-- The rows with a new root. -/
def plantRow (kids : ℕ → List (ℕ ⊕ ℤ)) (root r : ℕ) : ℕ → List (ℕ ⊕ ℤ) :=
  Function.update kids r [Sum.inl root]

section Plant

variable {t : ℕ → Option Node} {kids : ℕ → List (ℕ ⊕ ℤ)} {root h r : ℕ} {m : Node}

lemma plantAt_self : plantAt t root r m r = some m := if_pos rfl

lemma plantAt_of_ne {x : ℕ} (hx : x ≠ r) :
    plantAt t root r m x = (t x).map fun n => if x = root then { n with parent := r } else n :=
  if_neg hx

lemma exists_of_plantAt {x : ℕ} (hx : x ≠ r) {y : Node} (hy : plantAt t root r m x = some y) :
    ∃ y₀, t x = some y₀ ∧ y = if x = root then { y₀ with parent := r } else y₀ := by
  rw [plantAt_of_ne hx, Option.map_eq_some_iff] at hy
  obtain ⟨y₀, hy₀, rfl⟩ := hy
  exact ⟨y₀, hy₀, rfl⟩

/-- The split of a root, with the new root in place before it. -/
lemma Cut.plant {t' : ℕ → Option Node} {n left right : Node} {p N : ℕ}
    (hc : Cut t t' n left right p N) (hp : p ≠ r) (hN : N ≠ r) (hr : r ∉ spots right.row) :
    Cut (plantAt t p r m) (Function.update t' r (some m)) { n with parent := r } left right p
      N := by
  have hother : ∀ x, x ≠ r → Function.update t' r (some m) x = t' x := fun x hx =>
    Function.update_of_ne hx _ _
  refine ⟨?_, ?_, ?_, ?_, fun x hx hxN => ?_, hc.left_sound, hc.right_sound, hc.left_isLeaf,
    hc.right_isLeaf⟩
  · rw [plantAt_of_ne hp, hc.node, Option.map_some, if_pos rfl]
  · rw [plantAt_of_ne hN, hc.fresh]
    rfl
  · rw [hother _ hp, hc.left_at]
  · rw [hother _ hN, hc.right_at]
  · by_cases hxr : x = r
    · subst hxr
      rw [Function.update_self, plantAt_self, Option.map_some, if_neg hr]
    · rw [hother x hxr, hc.others x hx hxN, plantAt_of_ne hxr, Option.map_map]
      simp only [Function.comp_def, if_neg hx]

namespace Indexed

lemma planted (hI : Indexed t kids root h) (hr : t r = none) :
    Planted kids (plantRow kids root r) root h r where
  layered := hI.layered
  kids_root := Function.update_self _ _ _
  same := fun e he x hx => by
    refine Function.update_of_ne ?_ _ _
    rintro rfl
    exact hI.fresh hr e he hx
  fresh := hI.fresh hr

/-- The marks of the old nodes stay. -/
lemma isLeaf_plantAt (hI : Indexed t kids root h) (hr : t r = none) {e : ℕ} (he : e ≤ h)
    {b : Bool} (hold : ∀ x ∈ spots (layer kids root e), ∃ n, t x = some n ∧ n.isLeaf = b) :
    ∀ x ∈ spots (layer kids root e), ∃ n, plantAt t root r m x = some n ∧ n.isLeaf = b := by
  intro x hx
  obtain ⟨n, hn, hb⟩ := hold x hx
  have hxr : x ≠ r := by
    rintro rfl
    exact hI.fresh hr e he hx
  refine ⟨_, by rw [plantAt_of_ne hxr, hn]; rfl, ?_⟩
  split_ifs <;> exact hb

lemma sound_plantAt (hI : Indexed t kids root h) (hm : Sound m r) {x : ℕ} {y : Node}
    (hy : plantAt t root r m x = some y) : Sound y x := by
  by_cases hx : x = r
  · subst hx
    rw [plantAt_self] at hy
    cases hy
    exact hm
  · obtain ⟨y₀, hy₀, rfl⟩ := exists_of_plantAt hx hy
    have hsound := hI.sound x y₀ hy₀
    split_ifs
    · exact ⟨⟨hsound.shape.keys, hsound.shape.pointers⟩, hsound.pos, hsound.size⟩
    · exact hsound

/-- The old root has the new one as its parent, and the other nodes keep theirs. -/
lemma parents_plantAt (hI : Indexed t kids root h) (hr : t r = none) {e : ℕ} (he : e < h + 1)
    {x : ℕ} (hx : x ∈ spots (layer (plantRow kids root r) r e)) {c : ℕ}
    (hc : c ∈ spots (plantRow kids root r x)) {y : Node} (hy : plantAt t root r m c = some y) :
    y.parent = x := by
  have hp := hI.planted hr
  have hroot : root ∈ spots (layer kids root 0) := List.mem_singleton.mpr rfl
  cases e with
  | zero =>
      rw [List.mem_singleton.mp hx] at hc ⊢
      rw [hp.kids_root] at hc
      obtain rfl := List.mem_singleton.mp hc
      have hcr : c ≠ r := by
        rintro rfl
        exact hp.fresh 0 (Nat.zero_le _) hroot
      obtain ⟨y₀, -, rfl⟩ := exists_of_plantAt hcr hy
      rw [if_pos rfl]
  | succ e =>
      rw [hp.layer_succ (by omega)] at hx
      rw [hp.same e (by omega) x hx] at hc
      have hmem := mem_layer_succ hx hc
      have hcr : c ≠ r := by
        rintro rfl
        exact hp.fresh (e + 1) (by omega) hmem
      have hcroot : c ≠ root := by
        rintro rfl
        have := hI.layered.apart 0 (Nat.zero_le _) (e + 1) (by omega) c hroot hmem
        omega
      obtain ⟨y₀, hy₀, rfl⟩ := exists_of_plantAt hcr hy
      rw [if_neg hcroot]
      exact hI.parents e (by omega) x hx c hc y₀ hy₀

/-- **A new root**, so far with the old one as its only child. -/
theorem plant (hI : Indexed t kids root h) (hr : t r = none) (hm : Sound m r)
    (hleaf : m.isLeaf = false) (hparent : m.parent = 0) :
    Indexed (plantAt t root r m) (plantRow kids root r) r (h + 1) := by
  have hp := hI.planted hr
  refine ⟨hp.layered', fun _ _ => hI.sound_plantAt hm, fun e he x hx => ?_, fun x hx => ?_,
    fun _ he _ hx _ hc _ => hI.parents_plantAt hr he hx hc, fun y hy => ?_, ?_, ?_⟩
  · cases e with
    | zero =>
        rw [List.mem_singleton.mp hx]
        exact ⟨m, plantAt_self, hleaf⟩
    | succ e =>
        rw [hp.layer_succ (by omega)] at hx
        exact hI.isLeaf_plantAt hr (by omega) (hI.inner e (by omega)) x hx
  · rw [hp.layer_succ (by omega)] at hx
    exact hI.isLeaf_plantAt hr le_rfl hI.leaf x hx
  · rw [plantAt_self] at hy
    cases hy
    exact hparent
  · rw [hp.layer_succ (by omega)]
    exact hI.zero
  · rw [hp.layer_succ le_rfl]
    exact hI.order

end Indexed

end Plant

end ColumnDb
