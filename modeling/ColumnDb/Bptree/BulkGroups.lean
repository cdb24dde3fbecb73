import ColumnDb.Bptree.BulkLinks

/-!
The tree of groups that a bulk load should leave, and when it does.

* `Grouped L h f`: every interior node has the children of its group and their least values as
  keys, and one walk leads from the root to every leaf.
* `BulkFile.grouped`: a bulk load leaves it when every layer below the root is made of full groups.
* `bulkLoad_groups_iff`: that is so exactly when the number of leaves is `r * 128 ^ e` with
  `r ≤ 128`. Otherwise the last node of some layer has the size of a full one, and inherits the
  last children of the node before it.
-/

namespace ColumnDb

/-- A value stored in a leaf under the node at a position. -/
inductive StoredUnder (t : ℕ → Option Node) : ℕ → ℤ → Prop
  | leaf {p row : ℕ} {n : Node} {v : ℤ} : t p = some n → n.isLeaf = true → (v, row) ∈ n.entries →
      StoredUnder t p v
  | child {p c : ℕ} {n : Node} {v : ℤ} : t p = some n → n.isLeaf = false → c ∈ n.children →
      StoredUnder t c v → StoredUnder t p v

/-- The node has the children of the group, and behind each of its keys the child under which the
key is the least value. -/
structure GroupedNode (f : BptFile) (L k i : ℕ) (n : Node) : Prop where
  isLeaf : n.isLeaf = false
  size : n.size + 1 = packWidth 128 L k i
  children : n.children = packGroup 128 L k i
  keys : ∀ j < n.size, ∃ key c, n.seps[j]? = some key ∧ n.children[j + 1]? = some c ∧
    IsLeast {v | StoredUnder f.look c v} key
  sorted : n.seps.Pairwise (· ≤ ·)

/-- The file is the tree of the groups of `128`, in `h` layers over the leaves and a root. -/
structure Grouped (L h : ℕ) (f : BptFile) : Prop where
  top : packSize 128 L (h + 1) = 1
  length : f.nodes.length = packStart 128 L (h + 2)
  root_eq : f.m.root = packStart 128 L (h + 1)
  leaf : ∀ p < L, ∃ n, f.look p = some n ∧ n.isLeaf = true
  inner : ∀ k ≤ h, ∀ i < packSize 128 L (k + 1), ∃ n,
    f.look (packStart 128 L (k + 1) + i) = some n ∧ GroupedNode f L k i n
  walk : ∀ p < L, ∃! js, Walk (childrenAt f.look) f.m.root p js

section Groups

variable {a rest : List ℤ} {L h k i p : ℕ} {f : BptFile} {n : Node}

/-! ### The children -/

namespace BulkFile

/-- A layer of full groups gives every node the size it has. -/
lemma inner_at (hf : BulkFile a L h f) (hdvd : ∀ j < h, 128 ∣ packSize 128 L j) (hk : k ≤ h)
    (hi : i < packSize 128 L (k + 1)) :
    ∃ n parent size, f.look (packStart 128 L (k + 1) + i) = some n ∧
      LayerNode a L k i parent size n ∧ size + 1 = packWidth 128 L k i := by
  rcases Nat.lt_or_eq_of_le hk with hlt | rfl
  · obtain ⟨n, hn, hnode⟩ := hf.written.inner k hlt i hi
    exact ⟨n, _, _, hn, hnode, by rw [packWidth_eq (hdvd k hlt) hi (by decide)]⟩
  · have hsmall := hf.small
    have hmul := (lt_packSize_succ (by decide)).mp hi
    obtain rfl : i = 0 := by omega
    obtain ⟨n, hn, hnode⟩ := hf.root
    exact ⟨n, _, _, hn, hnode, by rw [packWidth]; omega⟩

end BulkFile

lemma LayerNode.children_eq {parent size : ℕ} (hn : LayerNode a L k i parent size n)
    (hsize : size + 1 = packWidth 128 L k i) : n.children = packGroup 128 L k i := by
  rw [Node.children, hn.size, hsize, hn.pointers]

namespace BulkFile

variable (hf : BulkFile a L h f) (hdvd : ∀ j < h, 128 ∣ packSize 128 L j)

include hf hdvd

/-- The children of a node over a group. -/
lemma childrenAt_group (hk : k ≤ h) (hi : i < packSize 128 L (k + 1)) :
    childrenAt f.look (packStart 128 L (k + 1) + i) = packGroup 128 L k i := by
  obtain ⟨m, parent, size, hm, hnode, hsize⟩ := hf.inner_at hdvd hk hi
  rw [childrenAt_of_inner hm hnode.isLeaf, hnode.children_eq hsize]

variable (hL : 0 < L)

include hL

/-- Who has children: the nodes over the groups. -/
lemma group_of_child {q j c : ℕ} (hc : (childrenAt f.look q)[j]? = some c) :
    ∃ k ≤ h, ∃ i < packSize 128 L (k + 1), q = packStart 128 L (k + 1) + i ∧
      (packGroup 128 L k i)[j]? = some c := by
  rw [childrenAt] at hc
  cases hq : f.look q with
  | none =>
      rw [hq] at hc
      cases hc
  | some n =>
      rw [hq, Option.elim_some] at hc
      have hlt := lt_length_of_look hq
      rw [(hf.length_eq hL).2] at hlt
      obtain ⟨k, hk, i, hi, rfl⟩ := packStart_cases hlt
      cases k with
      | zero =>
          obtain ⟨m, hm, hleaf, -⟩ := hf.written.leaf i hi
          rw [packStart, Nat.zero_add] at hq
          cases hm.symm.trans hq
          rw [if_pos hleaf] at hc
          cases hc
      | succ k =>
          obtain ⟨m, parent, size, hm, hnode, hsize⟩ := hf.inner_at hdvd (by omega) hi
          cases hm.symm.trans hq
          rw [if_neg (by rw [hnode.isLeaf]; exact Bool.false_ne_true),
            hnode.children_eq hsize] at hc
          exact ⟨k, by omega, i, hi, rfl, hc⟩

/-- A walk from the root to every node. -/
lemma exists_walk (d : ℕ) : ∀ {k i : ℕ}, k + d = h + 1 → i < packSize 128 L k →
    ∃ js, Walk (childrenAt f.look) f.m.root (packStart 128 L k + i) js := by
  have htop := (hf.length_eq hL).1
  induction d with
  | zero =>
      intro k i hk hi
      obtain rfl : k = h + 1 := by omega
      obtain rfl : i = 0 := by omega
      rw [Nat.add_zero, ← hf.root_eq]
      exact ⟨[], Walk.nil⟩
  | succ d ih =>
      intro k i hk hi
      have hdiv := div_lt_packSize (by decide) hi
      obtain ⟨js, hwalk⟩ := ih (k := k + 1) (by omega) hdiv
      refine ⟨js ++ [i % 128], hwalk.snoc ?_⟩
      rw [hf.childrenAt_group hdvd (by omega) hdiv]
      exact getElem?_packGroup_div (by decide) hi

/-- **One walk** leads to every leaf. -/
theorem existsUnique_walk (hp : p < L) : ∃! js, Walk (childrenAt f.look) f.m.root p js := by
  obtain ⟨js, hwalk⟩ := hf.exists_walk hdvd hL (h + 1) (k := 0) (i := p) (by omega) hp
  rw [packStart, Nat.zero_add] at hwalk
  refine ⟨js, hwalk, fun js' hwalk' => hwalk'.unique (fun q q' j j' c hq hq' => ?_) (fun q hq => ?_)
    hwalk⟩
  · obtain ⟨k, -, i, -, rfl, hc⟩ := hf.group_of_child hdvd hL hq
    obtain ⟨k', -, i', -, rfl, hc'⟩ := hf.group_of_child hdvd hL hq'
    obtain ⟨rfl, rfl, rfl⟩ := packGroup_inj hc hc'
    exact ⟨rfl, rfl⟩
  · obtain ⟨j, hj⟩ := List.mem_iff_getElem?.mp hq
    obtain ⟨k, hk, i, -, -, hc⟩ := hf.group_of_child hdvd hL hj
    obtain ⟨-, hlt, hroot⟩ := of_getElem?_packGroup hc
    have hbefore := packStart_lt (show k < h + 1 by omega) hlt
    rw [hf.root_eq] at hroot
    omega

end BulkFile

/-! ### The values -/

lemma mem_leafVals {j : ℕ} {v : ℤ} (h : v ∈ leafVals a j) : ∃ x, 127 * j ≤ x ∧ a[x]? = some v := by
  obtain ⟨i, hi⟩ := List.mem_iff_getElem?.mp h
  have hlt : i < 127 := by
    have := (List.getElem?_eq_some_iff.mp hi).1
    rw [leafVals, List.length_take] at this
    omega
  rw [leafVals, List.getElem?_take_of_lt hlt, List.getElem?_drop] at hi
  exact ⟨127 * j + i, by omega, hi⟩

/-- A node of a layer has values under it. -/
lemma headValue_lt (hi : i < packSize 128 (numLeaves a) k) : 127 * 128 ^ k * i < a.length := by
  have hleaf := lt_numLeaves_iff.mp ((lt_packSize_iff (by decide)).mp hi)
  rwa [mul_assoc]

lemma getElem?_headValue (hi : i < packSize 128 (numLeaves a) k) :
    a[127 * 128 ^ k * i]? = some (headValue a k i) := by
  rw [headValue, List.getD_eq_getElem?_getD, List.getElem?_eq_getElem (headValue_lt hi)]
  rfl

namespace BulkFile

variable (hf : BulkFile a (numLeaves a) h f)
  (hdvd : ∀ j < h, 128 ∣ packSize 128 (numLeaves a) j) (htwo : 2 ≤ numLeaves a)

include hf hdvd htwo

/-- The values under a node stand behind the first one in the array. -/
lemma le_of_storedUnder : ∀ {k i : ℕ} {v : ℤ}, k ≤ h → i < packSize 128 (numLeaves a) k →
    StoredUnder f.look (packStart 128 (numLeaves a) k + i) v →
    ∃ x, 127 * 128 ^ k * i ≤ x ∧ a[x]? = some v := by
  intro k
  induction k with
  | zero =>
      intro i v _ hi hv
      obtain ⟨m, hm, hleaf, -, -, hentries⟩ := hf.written.leaf i hi
      rw [packStart, Nat.zero_add] at hv
      cases hv with
      | leaf hn _ hmem =>
          cases hm.symm.trans hn
          rw [hentries htwo] at hmem
          rw [List.mk_mem_zipIdx_iff_le_and_getElem?_sub] at hmem
          rw [pow_zero, mul_one]
          exact mem_leafVals (List.mem_of_getElem? hmem.2)
      | child hn hinner =>
          cases hm.symm.trans hn
          rw [hleaf] at hinner
          cases hinner
  | succ k ih =>
      intro i v hk hi hv
      obtain ⟨m, parent, size, hm, hnode, hsize⟩ := hf.inner_at hdvd (by omega) hi
      cases hv with
      | leaf hn hleaf =>
          cases hm.symm.trans hn
          rw [hnode.isLeaf] at hleaf
          cases hleaf
      | child hn _ hc hv =>
          cases hm.symm.trans hn
          rw [hnode.children_eq hsize] at hc
          obtain ⟨j, hj⟩ := List.mem_iff_getElem?.mp hc
          obtain ⟨-, hlt, rfl⟩ := of_getElem?_packGroup hj
          obtain ⟨x, hx, hget⟩ := ih (by omega) hlt hv
          refine ⟨x, le_trans ?_ hx, hget⟩
          calc 127 * 128 ^ (k + 1) * i = 127 * 128 ^ k * (128 * i) := by ring
            _ ≤ 127 * 128 ^ k * (128 * i + j) := Nat.mul_le_mul_left _ (by omega)

/-- The first value under a node is stored there. -/
lemma storedUnder_headValue : ∀ {k i : ℕ}, k ≤ h → i < packSize 128 (numLeaves a) k →
    StoredUnder f.look (packStart 128 (numLeaves a) k + i) (headValue a k i) := by
  intro k
  induction k with
  | zero =>
      intro i _ hi
      obtain ⟨m, hm, hleaf, -, -, hentries⟩ := hf.written.leaf i hi
      have hget := getElem?_headValue hi
      rw [pow_zero, mul_one] at hget
      rw [packStart, Nat.zero_add]
      have hmem : (headValue a 0 i, 127 * i) ∈ m.entries := by
        rw [hentries htwo, List.mk_mem_zipIdx_iff_le_and_getElem?_sub, Nat.sub_self, leafVals,
          List.getElem?_take_of_lt (by decide), List.getElem?_drop]
        exact ⟨le_rfl, hget⟩
      exact StoredUnder.leaf hm hleaf hmem
  | succ k ih =>
      intro i hk hi
      obtain ⟨m, parent, size, hm, hnode, hsize⟩ := hf.inner_at hdvd (by omega) hi
      have hfirst : 128 * i < packSize 128 (numLeaves a) k := (lt_packSize_succ (by decide)).mp hi
      have hmem : packStart 128 (numLeaves a) k + 128 * i ∈ m.children := by
        rw [hnode.children_eq hsize]
        have hget := getElem?_packGroup (j := 0) (packWidth_pos (w := 128) (by decide) hi)
        exact List.mem_of_getElem? hget
      rw [headValue_succ]
      exact StoredUnder.child hm hnode.isLeaf hmem (ih (by omega) hfirst)

/-- The first value under a node is the least one. -/
lemma isLeast_headValue (hs : a.Pairwise (· ≤ ·)) (hk : k ≤ h)
    (hi : i < packSize 128 (numLeaves a) k) :
    IsLeast {v | StoredUnder f.look (packStart 128 (numLeaves a) k + i) v} (headValue a k i) := by
  refine ⟨hf.storedUnder_headValue hdvd htwo hk hi, fun v hv => ?_⟩
  obtain ⟨x, hx, hget⟩ := hf.le_of_storedUnder hdvd htwo hk hi hv
  exact getElem?_le_of_sorted hs hx (getElem?_headValue hi) hget

end BulkFile

/-- The keys of a node are in order, as the values they are taken from. -/
lemma LayerNode.seps_sorted {parent size : ℕ} (hn : LayerNode a (numLeaves a) k i parent size n)
    (hs : a.Pairwise (· ≤ ·)) (hsize : size + 1 = packWidth 128 (numLeaves a) k i) :
    n.seps.Pairwise (· ≤ ·) ∧
      ∀ j < n.size, n.seps[j]? = some (headValue a k (128 * i + j + 1)) := by
  have hget : ∀ j < n.size, n.seps[j]? = some (headValue a k (128 * i + j + 1)) := fun j hj => by
    rw [hn.size] at hj
    rw [Node.seps, hn.size, List.getElem?_take_of_lt hj, hn.keys j (by omega)]
  refine ⟨?_, hget⟩
  rw [List.pairwise_iff_getElem]
  intro j j' hj hj' hlt
  have hsize' : n.seps.length ≤ n.size := List.length_take_le _ _
  have hwidth := hn.size
  have hbound : 128 * i + j' + 1 < packSize 128 (numLeaves a) k := by
    rw [packWidth] at hsize
    omega
  have hle : 127 * 128 ^ k * (128 * i + j + 1) ≤ 127 * 128 ^ k * (128 * i + j' + 1) :=
    Nat.mul_le_mul_left _ (by omega)
  have hkey := getElem?_le_of_sorted hs hle (getElem?_headValue (by omega))
    (getElem?_headValue hbound)
  have h₁ := hget j (by omega)
  have h₂ := hget j' (by omega)
  rw [List.getElem?_eq_getElem hj] at h₁
  rw [List.getElem?_eq_getElem hj'] at h₂
  rw [Option.some_inj.mp h₁, Option.some_inj.mp h₂]
  exact hkey

/-- **Layers of full groups** make the tree of the groups. -/
theorem BulkFile.grouped (hf : BulkFile a (numLeaves a) h f) (hs : a.Pairwise (· ≤ ·))
    (hL : 0 < numLeaves a) (hdvd : ∀ j < h, 128 ∣ packSize 128 (numLeaves a) j) :
    Grouped (numLeaves a) h f where
  top := (hf.length_eq hL).1
  length := (hf.length_eq hL).2
  root_eq := hf.root_eq
  leaf p hp := by
    obtain ⟨n, hn, hleaf, -⟩ := hf.written.leaf p hp
    exact ⟨n, hn, hleaf⟩
  inner k hk i hi := by
    obtain ⟨n, parent, size, hn, hnode, hsize⟩ := hf.inner_at hdvd hk hi
    obtain ⟨hsorted, hseps⟩ := hnode.seps_sorted hs hsize
    refine ⟨n, hn, hnode.isLeaf, hnode.size ▸ hsize, hnode.children_eq hsize, fun j hj => ?_,
      hsorted⟩
    have hj' : j + 1 < packWidth 128 (numLeaves a) k i := by
      rw [← hsize, ← hnode.size]
      omega
    have hbound : 128 * i + (j + 1) < packSize 128 (numLeaves a) k := by
      rw [packWidth] at hj'
      omega
    have htwo : 2 ≤ numLeaves a := by
      have := packSize_anti (w := 128) (L := numLeaves a) (by decide) (Nat.zero_le k)
      rw [packSize] at this
      omega
    refine ⟨_, _, hseps j hj, ?_, hf.isLeast_headValue hdvd htwo hs hk hbound⟩
    rw [hnode.children_eq hsize, getElem?_packGroup hj']
    rfl
  walk p hp := hf.existsUnique_walk hdvd hL hp

/-- A tree of the groups has full groups in every layer below the root. -/
lemma BulkFile.dvd_of_grouped {h' : ℕ} (hf : BulkFile a L h f) (hL : 0 < L)
    (hg : Grouped L h' f) : ∀ j < h, 128 ∣ packSize 128 L j := by
  obtain rfl : h = h' := by
    have heq := (hf.length_eq hL).2.symm.trans hg.length
    have := (packStart_strictMono (w := 128) (by decide) hL).injective heq
    omega
  intro j hj
  have hpos := packSize_pos (w := 128) (by decide) hL (j + 1)
  have hlast : packSize 128 L (j + 1) - 1 < packSize 128 L (j + 1) := by omega
  obtain ⟨n, hn, hnode⟩ := hf.written.inner j hj _ hlast
  obtain ⟨n', hn', hgroup⟩ := hg.inner j hj.le _ hlast
  cases hn.symm.trans hn'
  refine dvd_packSize (by decide) (packSize_pos (by decide) hL j) ?_
  rw [← hgroup.size, hnode.size]

/-- **When a bulk load of fewer than `2 ^ 31` values leaves the tree of the groups**: when it can
read what it copies, and the number of leaves is at most `128` times a power of `128`. -/
theorem bulkLoad_groups_iff (n : Node) (hn : NodeShape n) (a rest : List ℤ)
    (hs : a.Pairwise (· ≤ ·)) (ha : 1 ≤ a.length) (_hint : a.length < 2 ^ 31) :
    (∃ f h, bulkLoad .makeNew n (a ++ rest) a.length = .ok f ∧ Grouped (numLeaves a) h f) ↔
      CanRead a rest ∧ ∃ r e, r ≤ 128 ∧ numLeaves a = r * 128 ^ e := by
  have hL := numLeaves_pos ha
  constructor
  · rintro ⟨f, h', hok, hg⟩
    have hread := canRead_of_bulkLoad hn ha hok
    obtain ⟨f', h, hok', hf⟩ := bulkLoad_file hn ha hread
    cases hok.symm.trans hok'
    exact ⟨hread, (dvd_packSize_iff (by decide) hf.large hf.small).mp (hf.dvd_of_grouped hL hg)⟩
  · rintro ⟨hread, hfull⟩
    obtain ⟨f, h, hok, hf⟩ := bulkLoad_file hn ha hread
    exact ⟨f, h, hok, hf.grouped hs hL ((dvd_packSize_iff (by decide) hf.large hf.small).mpr hfull)⟩

/-- `bulkLoad_groups_iff` at `128` equal values, which fill one leaf and start another. -/
theorem equalValues_grouped :
    ∃ f h, bulkLoad .makeNew Node.zero (List.replicate 128 7 ++ [])
        (List.replicate 128 (7 : ℤ)).length = .ok f ∧
      Grouped (numLeaves (List.replicate 128 7)) h f :=
  (bulkLoad_groups_iff Node.zero ⟨rfl, rfl⟩ (List.replicate 128 7) []
    (List.pairwise_replicate.mpr (Or.inr le_rfl)) (by simp) (by simp)).mpr
    ⟨Or.inl (by simp), 2, 0, by decide, by rw [numLeaves, List.length_replicate]; rfl⟩

/-- `129` leaves: the second node over them takes one leaf and has the size of a full node. -/
theorem lastNode_oversized :
    ∃ f n, bulkLoad .makeNew Node.zero (List.replicate 16257 0 ++ [])
        (List.replicate 16257 (0 : ℤ)).length = .ok f ∧
      f.look 130 = some n ∧ n.isLeaf = false ∧ n.size = 127 ∧ packWidth 128 129 0 1 = 1 ∧
      ∀ h, ¬ Grouped 129 h f := by
  have hlen : (List.replicate 16257 (0 : ℤ)).length = 16257 := List.length_replicate
  have hL : numLeaves (List.replicate 16257 0) = 129 := by
    rw [numLeaves, hlen]
    rfl
  have hread : CanRead (List.replicate 16257 0) [] := by
    rw [CanRead, hlen]
    exact Or.inl (by decide)
  obtain ⟨f, h, hok, hf⟩ := bulkLoad_file (n := Node.zero) ⟨rfl, rfl⟩ (by rw [hlen]; decide) hread
  rw [hL] at hf
  have hpos : 0 < h := by
    by_contra h0
    obtain rfl : h = 0 := by omega
    exact absurd hf.small (by decide)
  obtain ⟨n, hn, hnode⟩ := hf.written.inner 0 hpos 1 (by decide)
  refine ⟨f, n, hok, hn, hnode.isLeaf, hnode.size, by decide, fun h' hg => ?_⟩
  have hdvd := hf.dvd_of_grouped (by decide) hg 0 hpos
  revert hdvd
  decide

end Groups

end ColumnDb
