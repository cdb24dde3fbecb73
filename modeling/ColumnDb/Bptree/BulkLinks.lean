import ColumnDb.Bptree.BulkSearch
import ColumnDb.Bptree.Rooted
import ColumnDb.Library.Packed

/-!
The layers that a bulk load writes, and the links between them.

The nodes of a layer are packed into groups of `128`, so that the node `i` of layer `k` stands at
`packStart 128 L k + i`, where `L` is the number of leaves.

* `Written`, `BulkFile`: what stands at these places. Every interior node below the root has the
  size `127`, also the last one of its layer, which may have fewer children.
* `bulkInner_run`: a turn of the loop over an interior layer keeps `InnerRun`.
* `bulkLoad_file`: a bulk load that can read what it copies writes a `BulkFile`.
* `bulkLoad_links_iff`: the parents are those of the groups, whatever the number of leaves.
-/

namespace ColumnDb

/-! ### What stands where -/

/-- The first value under the node `c` of layer `k`. -/
def headValue (a : List ℤ) (k c : ℕ) : ℤ := a.getD (127 * 128 ^ k * c) 0

lemma headValue_succ (a : List ℤ) (k c : ℕ) : headValue a (k + 1) c = headValue a k (128 * c) := by
  rw [headValue, headValue, pow_succ]
  congr 1
  ring

/-- The node `i` of layer `k + 1`, over a group of layer `k`. -/
structure LayerNode (a : List ℤ) (L k i parent size : ℕ) (n : Node) : Prop where
  isLeaf : n.isLeaf = false
  pos : n.pos = packStart 128 L (k + 1) + i
  parent : n.parent = parent
  size : n.size = size
  pointers : n.pointers.take (packWidth 128 L k i) = packGroup 128 L k i
  keys : ∀ j, j + 1 < packWidth 128 L k i → n.keys[j]? = some (headValue a k (128 * i + j + 1))

/-- The leaves and the first `K` layers over them. -/
structure Written (a : List ℤ) (L K : ℕ) (nodes : List Node) : Prop where
  leaf : ∀ i < L, ∃ n, nodes[i]? = some n ∧ n.isLeaf = true ∧ n.pos = i ∧
    n.parent = L + i / 128 ∧ (2 ≤ L → n.entries = (leafVals a i).zipIdx (127 * i))
  inner : ∀ k < K, ∀ i < packSize 128 L (k + 1), ∃ n,
    nodes[packStart 128 L (k + 1) + i]? = some n ∧
    LayerNode a L k i (packStart 128 L (k + 2) + i / 128) 127 n

lemma Written.append {a : List ℤ} {L K : ℕ} {nodes : List Node} (h : Written a L K nodes)
    (more : List Node) : Written a L K (nodes ++ more) where
  leaf i hi := by
    obtain ⟨n, hn, hrest⟩ := h.leaf i hi
    exact ⟨n, getElem?_append_of_some hn, hrest⟩
  inner k hk i hi := by
    obtain ⟨n, hn, hrest⟩ := h.inner k hk i hi
    exact ⟨n, getElem?_append_of_some hn, hrest⟩

/-! ### The interior layers -/

/-- The state after `i` turns of the loop over the layer on top of layer `k`. -/
structure InnerRun (a : List ℤ) (L k i : ℕ) (s : BulkState) : Prop where
  written : Written a L k s.f.nodes
  fresh : ∀ i' < i, ∃ n, s.f.nodes[packStart 128 L (k + 1) + i']? = some n ∧
    LayerNode a L k i' (packStart 128 L (k + 2) + i' / 128) 127 n
  length : s.f.nodes.length = packStart 128 L (k + 1) + i
  totalNodes : s.totalNodes = s.f.nodes.length
  counter : s.counter = min (128 * i) (packSize 128 L k)
  keys : ∀ c < packSize 128 L k, s.keys[c]? = some (headValue a (if c < i then k + 1 else k) c)
  pointers : ∀ c < packSize 128 L k,
    s.pointers[c]? = some (packStart 128 L (if c < i then k + 1 else k) + c)
  isLeaf : s.n.isLeaf = false
  shape : NodeShape s.n
  size : 0 < i → s.n.size = 127

section Inner

variable {a : List ℤ} {L k i : ℕ} {s : BulkState}

/-- The node that a turn writes. -/
def groupNode (s : BulkState) (L k i parent size : ℕ) : Node :=
  { s.n with
    keys := splice s.n.keys 0 ((s.keys.drop (128 * i + 1)).take (packWidth 128 L k i - 1))
    pointers := splice s.n.pointers 0 ((s.pointers.drop (128 * i)).take (packWidth 128 L k i))
    pos := s.totalNodes
    next := 0
    parent := parent
    size := size }

namespace InnerRun

lemma length_keys (h : InnerRun a L k i s) : packSize 128 L k ≤ s.keys.length := by
  by_contra hlt
  have := h.keys s.keys.length (by omega)
  rw [List.getElem?_eq_none le_rfl] at this
  cases this

lemma length_pointers (h : InnerRun a L k i s) : packSize 128 L k ≤ s.pointers.length := by
  by_contra hlt
  have := h.pointers s.pointers.length (by omega)
  rw [List.getElem?_eq_none le_rfl] at this
  cases this

/-- The arrays are filled with the group, from cells that the turns before have not changed. -/
lemma layerNode (h : InnerRun a L k i s) (hi : 128 * i < packSize 128 L k) (parent size : ℕ)
    (htotal : s.totalNodes = packStart 128 L (k + 1) + i) :
    LayerNode a L k i parent size (groupNode s L k i parent size) := by
  have hk := h.length_keys
  have hp := h.length_pointers
  have hwidth : 128 * i + packWidth 128 L k i ≤ packSize 128 L k := by
    rw [packWidth]
    omega
  refine ⟨h.isLeaf, htotal, rfl, rfl, ?_, fun j hj => ?_⟩
  · refine (take_splice_zero ?_).trans ?_
    · rw [List.length_take, List.length_drop]
      omega
    · refine List.ext_getElem? fun j => ?_
      rcases Nat.lt_or_ge j (packWidth 128 L k i) with hj | hj
      · rw [List.getElem?_take_of_lt hj, List.getElem?_drop, h.pointers _ (by omega),
          if_neg (by omega), getElem?_packGroup hj]
      · rw [List.getElem?_eq_none (by rw [List.length_take]; omega), List.getElem?_eq_none]
        rw [packGroup, List.length_range']
        exact hj
  · rw [groupNode]
    simp only
    rw [getElem?_splice_zero, if_pos (by rw [List.length_take, List.length_drop]; omega),
      List.getElem?_take_of_lt (by omega), List.getElem?_drop,
      h.keys _ (by omega), if_neg (by omega), show 128 * i + 1 + j = 128 * i + j + 1 by omega]

lemma shape_groupNode (h : InnerRun a L k i s) (parent size : ℕ) :
    NodeShape (groupNode s L k i parent size) := by
  have hwidth := packWidth_le 128 L k i
  refine ⟨(length_splice ?_).trans h.shape.keys, (length_splice ?_).trans h.shape.pointers⟩
  · rw [h.shape.keys, List.length_take]
    omega
  · rw [h.shape.pointers, List.length_take]
    omega

/-- Both branches fill the node with the group, and leave it with the size of a full one. -/
lemma fillInner_eq (h : InnerRun a L k i s) (hlarge : 128 < packSize 128 L k)
    (hi : 128 * i < packSize 128 L k) :
    fillInner (packSize 128 L k) s i
      = .ok ({ groupNode s L k i s.n.parent 127 with pos := s.n.pos, next := s.n.next },
          min (128 * (i + 1)) (packSize 128 L k)) := by
  have hk := h.length_keys
  have hp := h.length_pointers
  have hcounter : s.counter = 128 * i := by
    rw [h.counter]
    omega
  rw [fillInner, sub32_of_le (by rw [show bptSize = 128 from rfl]; omega),
    show bptSize = 128 from rfl, hcounter, Nat.mul_comm i 128]
  split_ifs with hlast hone
  · omega
  · have hwidth : packWidth 128 L k i = packSize 128 L k - 128 * i := by
      rw [packWidth]
      omega
    have hsize := h.size (by omega)
    rw [slice_of_le (by omega), Outcome.ok_bind, slice_of_le (by omega), Outcome.ok_bind,
      ← hwidth, groupNode, ← hsize, show min (128 * (i + 1)) (packSize 128 L k)
        = packSize 128 L k by omega]
  · have hwidth : packWidth 128 L k i = 128 := by
      rw [packWidth]
      omega
    rw [slice_of_le (by omega), Outcome.ok_bind, slice_of_le (by omega), Outcome.ok_bind,
      groupNode, hwidth, show min (128 * (i + 1)) (packSize 128 L k) = 128 * i + 128 by omega]

end InnerRun

/-- **A turn of the loop over an interior layer.** -/
theorem bulkInner_run (h : InnerRun a L k i s) (hlarge : 128 < packSize 128 L k)
    (hi : 128 * i < packSize 128 L k) :
    ∃ s', bulkInner (packSize 128 L k) (packSize 128 L (k + 1)) s i = .ok s' ∧
      InnerRun a L k (i + 1) s' := by
  have hk := h.length_keys
  have hp := h.length_pointers
  have htotal : s.totalNodes = packStart 128 L (k + 1) + i := h.totalNodes.trans h.length
  have hparent : s.totalNodes + packSize 128 L (k + 1) - i + i / 128
      = packStart 128 L (k + 2) + i / 128 := by
    have hstart : packStart 128 L (k + 2)
        = packStart 128 L (k + 1) + packSize 128 L (k + 1) := rfl
    omega
  have hkey : fetch .bounds s.keys (128 * i) = .ok (headValue a (k + 1) i) := by
    rw [fetch_eq_ok, h.keys _ hi, if_neg (by omega), headValue_succ]
  rw [bulkInner, h.fillInner_eq hlarge hi, Outcome.ok_bind]
  simp only
  rw [show i * bptSize = 128 * i from Nat.mul_comm _ _, hkey, Outcome.ok_bind,
    show bptSize = 128 from rfl, hparent]
  set n := groupNode s L k i (packStart 128 L (k + 2) + i / 128) 127 with hn
  change ∃ s', Except.ok (BulkState.mk (writeNode s.f n) n _ _ _ _) = Except.ok s' ∧ _
  have hnodes : (writeNode s.f n).nodes = s.f.nodes ++ [n] := by
    rw [writeNode, hn, groupNode]
    simp only [h.totalNodes]
    exact writeAt_length _ _ _
  refine ⟨_, rfl, ?_, fun i' hi' => ?_, ?_, ?_, rfl, fun c hc => ?_, fun c hc => ?_, h.isLeaf,
    h.shape_groupNode _ _, fun _ => rfl⟩
  · simp only [hnodes]
    exact h.written.append _
  · simp only [hnodes]
    rcases Nat.lt_succ_iff_lt_or_eq.mp hi' with hlt | rfl
    · obtain ⟨m, hm, hnode⟩ := h.fresh i' hlt
      exact ⟨m, getElem?_append_of_some hm, hnode⟩
    · refine ⟨n, ?_, h.layerNode hi _ _ htotal⟩
      rw [← h.length, List.getElem?_append_right le_rfl, Nat.sub_self]
      rfl
  · simp only [hnodes, List.length_append, List.length_singleton, h.length]
    omega
  · simp only [hnodes, List.length_append, List.length_singleton, h.totalNodes]
  · simp only
    by_cases hic : i = c
    · subst hic
      rw [List.getElem?_set_self (by omega), if_pos (Nat.lt_succ_self i)]
    · rw [List.getElem?_set_ne hic, h.keys c hc]
      congr 2
      exact if_congr (by omega) rfl rfl
  · simp only
    by_cases hic : i = c
    · subst hic
      rw [List.getElem?_set_self (by omega), if_pos (Nat.lt_succ_self i), htotal]
    · rw [List.getElem?_set_ne hic, h.pointers c hc]
      congr 3
      exact if_congr (by omega) rfl rfl

/-- The turns of the loop over an interior layer. -/
lemma bulkInner_turns (h : InnerRun a L k 0 s) (hlarge : 128 < packSize 128 L k) :
    ∀ i ≤ packSize 128 L (k + 1), ∃ s', (List.range i).foldlM
      (bulkInner (packSize 128 L k) (packSize 128 L (k + 1))) s = .ok s' ∧ InnerRun a L k i s' := by
  intro i
  induction i with
  | zero => exact fun _ => ⟨s, rfl, h⟩
  | succ i ih =>
      intro hi
      obtain ⟨s', hok, hs'⟩ := ih (by omega)
      obtain ⟨s'', hok', hs''⟩ :=
        bulkInner_run hs' hlarge ((lt_packSize_succ (by decide)).mp (by omega))
      refine ⟨s'', ?_, hs''⟩
      rw [List.range_succ, foldlM_append_ok]
      exact ⟨s', hok, by rw [List.foldlM_cons, hok']; rfl⟩

/-- When a layer is done, the next one can start. -/
lemma InnerRun.next (h : InnerRun a L k (packSize 128 L (k + 1)) s) :
    InnerRun a L (k + 1) 0 { s with counter := 0 } where
  written := ⟨h.written.leaf, fun k' hk' i hi => by
    rcases Nat.lt_succ_iff_lt_or_eq.mp hk' with hlt | rfl
    · exact h.written.inner k' hlt i hi
    · exact h.fresh i hi⟩
  fresh i' hi' := absurd hi' (Nat.not_lt_zero _)
  length := h.length
  totalNodes := h.totalNodes
  counter := (Nat.zero_min _).symm
  keys c hc := by
    have hle := packSize_succ_le (w := 128) (L := L) (k := k) (by decide)
    exact (h.keys c (by omega)).trans (by rw [if_pos hc, if_neg (Nat.not_lt_zero _)])
  pointers c hc := by
    have hle := packSize_succ_le (w := 128) (L := L) (k := k) (by decide)
    exact (h.pointers c (by omega)).trans (by rw [if_pos hc, if_neg (Nat.not_lt_zero _)])
  isLeaf := h.isLeaf
  shape := h.shape
  size h0 := absurd h0 (lt_irrefl _)

/-- The file after a bulk load: `h` layers of nodes with the size of full ones over the leaves, and
the root over them. -/
structure BulkFile (a : List ℤ) (L h : ℕ) (f : BptFile) : Prop where
  written : Written a L h f.nodes
  root : ∃ n, f.nodes[packStart 128 L (h + 1)]? = some n ∧
    LayerNode a L h 0 0 (packSize 128 L h - 1) n
  length : f.nodes.length = packStart 128 L (h + 1) + 1
  large : ∀ k < h, 128 < packSize 128 L k
  small : packSize 128 L h ≤ 128
  root_eq : f.m.root = packStart 128 L (h + 1)
  nextFree : f.m.nextFree = f.nodes.length

lemma bulkRoot_file (cm : ColumnMeta) (h : InnerRun a L k 0 { s with counter := 0 }) (hL : 0 < L)
    (hlarge : ∀ j < k, 128 < packSize 128 L j) (hsmall : packSize 128 L k ≤ 128) :
    ∃ f, bulkRoot cm (packSize 128 L k) s = .ok f ∧ BulkFile a L k f := by
  have hpos := packSize_pos (w := 128) (by decide) hL k
  have hk := h.length_keys
  have hp := h.length_pointers
  simp only at hk hp
  have htotal : s.totalNodes = packStart 128 L (k + 1) := h.totalNodes.trans h.length
  have hwidth : packWidth 128 L k 0 = packSize 128 L k := by
    rw [packWidth]
    omega
  have hnode := h.layerNode (by omega) 0 (packSize 128 L k - 1) htotal
  rw [bulkRoot, if_pos (show packSize 128 L k ≤ bptSize from hsmall), slice_of_le (by omega),
    Outcome.ok_bind, slice_of_le (by omega), Outcome.ok_bind]
  set root : Node :=
    { s.n with
      keys := splice s.n.keys 0 ((s.keys.drop 1).take (packSize 128 L k - 1))
      pointers := splice s.n.pointers 0 ((s.pointers.drop 0).take (packSize 128 L k))
      parent := 0
      pos := s.totalNodes
      size := packSize 128 L k - 1 } with hroot
  have hnodes : (writeNode s.f root).nodes = s.f.nodes ++ [root] := by
    rw [writeNode, hroot]
    simp only [show s.totalNodes = s.f.nodes.length from h.totalNodes]
    exact writeAt_length _ _ _
  have hlen : s.f.nodes.length = packStart 128 L (k + 1) := h.length
  have hkeys : (groupNode { s with counter := 0 } L k 0 0 (packSize 128 L k - 1)).keys
      = root.keys := by
    rw [groupNode, hwidth]
  have hpointers : (groupNode { s with counter := 0 } L k 0 0 (packSize 128 L k - 1)).pointers
      = root.pointers := by
    rw [groupNode, hwidth]
  refine ⟨_, rfl, ?_, ⟨root, ?_, h.isLeaf, htotal, rfl, rfl, ?_, fun j hj => ?_⟩, ?_, hlarge,
    hsmall, htotal, ?_⟩
  · rw [writeCm]
    simp only [hnodes]
    exact h.written.append _
  · rw [writeCm]
    simp only [hnodes]
    rw [← hlen, List.getElem?_append_right le_rfl, Nat.sub_self]
    rfl
  · rw [← hpointers]
    exact hnode.pointers
  · rw [← hkeys]
    exact hnode.keys j hj
  · rw [writeCm]
    simp only [hnodes, List.length_append, List.length_singleton, hlen]
  · rw [writeCm]
    simp only [hnodes, List.length_append, List.length_singleton, hlen, htotal]

/-- **The interior layers and the root.** -/
theorem bulkLayers_file (cm : ColumnMeta) (hL : 0 < L) (fuel : ℕ) : ∀ {k : ℕ} {s : BulkState},
    InnerRun a L k 0 { s with counter := 0 } → (∀ j < k, 128 < packSize 128 L j) →
    packSize 128 L k < fuel →
    ∃ f h, bulkLayers cm fuel (packSize 128 L k) s = .ok f ∧ BulkFile a L h f := by
  induction fuel with
  | zero => intro k s _ _ hfuel; omega
  | succ fuel ih =>
      intro k s h hlarge hfuel
      have hpos := packSize_pos (w := 128) (by decide) hL k
      have hceil : getCeil (packSize 128 L k) bptSize = packSize 128 L (k + 1) := rfl
      rw [bulkLayers]
      simp only [hceil]
      split_ifs with hone
      · have hsmall : packSize 128 L k ≤ 128 := by
          by_contra hlt
          have := (packSize_succ_lt (w := 128) (L := L) (k := k) (by decide) (by omega)).1
          omega
        obtain ⟨f, hok, hfile⟩ := bulkRoot_file cm h hL hlarge hsmall
        exact ⟨f, k, hok, hfile⟩
      · have hk : 128 < packSize 128 L k := by
          by_contra hle
          have h0 : 0 < packSize 128 L (k + 1) := packSize_pos (by decide) hL (k + 1)
          have h1 := (lt_packSize_succ (w := 128) (L := L) (k := k) (i := 1) (by decide)).mp
            (by omega)
          omega
        have hlt := (packSize_succ_lt (w := 128) (by decide) hk).2
        obtain ⟨s', hok, hs'⟩ := bulkInner_turns h hk _ le_rfl
        obtain ⟨f, h', hok', hfile⟩ := ih hs'.next
          (fun j hj => by
            rcases Nat.lt_succ_iff_lt_or_eq.mp hj with hj | rfl
            · exact hlarge j hj
            · exact hk) (by omega)
        refine ⟨f, h', ?_, hfile⟩
        rw [hok, Outcome.ok_bind]
        exact hok'

end Inner

/-! ### The leaves -/

section Leaves

variable {a rest : List ℤ} {L i : ℕ} {s s' : BulkState} {n : Node}

/-- The ints that a bulk load reads are there: those of the array, and when the last leaf is not
shorter than the others for the source, one int more than fit into the leaves. -/
def CanRead (a rest : List ℤ) : Prop :=
  (127 < a.length ∧ a.length % 127 ≠ 0) ∨ 127 * numLeaves a < (a ++ rest).length

/-- A turn of the loop over the leaves writes one, with the links of its place. -/
lemma bulkLeaf_writes {sorted : List ℤ} {size : ℕ} (h : bulkLeaf sorted size L s i = .ok s')
    (htotal : s.totalNodes = s.f.nodes.length) :
    ∃ n, s'.f.nodes = s.f.nodes ++ [n] ∧ s'.totalNodes = s'.f.nodes.length ∧
      s'.n.isLeaf = s.n.isLeaf ∧ n.isLeaf = s.n.isLeaf ∧ n.pos = s.f.nodes.length ∧
      n.parent = L + i / 128 := by
  obtain ⟨key, -, h⟩ := Outcome.bind_eq_ok.mp h
  have hwrite : ∀ n : Node, n.pos = s.totalNodes → (writeNode s.f n).nodes = s.f.nodes ++ [n] ∧
      s.totalNodes + 1 = (writeNode s.f n).nodes.length := fun n hpos => by
    have hnodes : (writeNode s.f n).nodes = s.f.nodes ++ [n] := by
      rw [writeNode, hpos, htotal]
      exact writeAt_length _ _ _
    exact ⟨hnodes, by rw [hnodes, List.length_append, List.length_singleton, htotal]⟩
  split_ifs at h
  · obtain ⟨vals, -, h⟩ := Outcome.bind_eq_ok.mp h
    cases h
    refine ⟨_, (hwrite _ ?_).1, (hwrite _ ?_).2, rfl, rfl, htotal, rfl⟩ <;> rfl
  · obtain ⟨vals, -, h⟩ := Outcome.bind_eq_ok.mp h
    obtain ⟨-, -, h⟩ := Outcome.bind_eq_ok.mp h
    cases h
    refine ⟨_, (hwrite _ ?_).1, (hwrite _ ?_).2, rfl, rfl, htotal, rfl⟩ <;> rfl

/-- The loop over the leaves, as far as the links. -/
lemma bulkLeaves_links {sorted : List ℤ} {size : ℕ} (i : ℕ) : ∀ {s : BulkState},
    (List.range i).foldlM (bulkLeaf sorted size L) (bulkStart n) = .ok s →
    s.totalNodes = s.f.nodes.length ∧ s.f.nodes.length = i ∧ s.n.isLeaf = true ∧
      ∀ j < i, ∃ m, s.f.nodes[j]? = some m ∧ m.isLeaf = true ∧ m.pos = j ∧
        m.parent = L + j / 128 := by
  induction i with
  | zero =>
      intro s h
      cases h
      exact ⟨rfl, rfl, rfl, by omega⟩
  | succ i ih =>
      intro s h
      rw [List.range_succ, foldlM_append_ok] at h
      obtain ⟨s₁, h₁, h⟩ := h
      rw [List.foldlM_cons] at h
      obtain ⟨s₂, h₂, h⟩ := Outcome.bind_eq_ok.mp h
      cases h
      obtain ⟨htotal, hlen, hleaf, hlinks⟩ := ih h₁
      obtain ⟨m, hnodes, htotal', hleaf', hm, hpos, hparent⟩ := bulkLeaf_writes h₂ htotal
      refine ⟨htotal', ?_, hleaf'.trans hleaf, fun j hj => ?_⟩
      · rw [hnodes, List.length_append, hlen, List.length_singleton]
      · rw [hnodes]
        rcases Nat.lt_succ_iff_lt_or_eq.mp hj with hlt | rfl
        · obtain ⟨m', hm', hrest⟩ := hlinks j hlt
          exact ⟨m', getElem?_append_of_some hm', hrest⟩
        · refine ⟨m, ?_, hm.trans hleaf, hpos.trans hlen, hparent⟩
          rw [List.getElem?_append_right hlen.le, hlen, Nat.sub_self]
          rfl

/-- The state after the loop over the leaves, when the loop over the interior layers starts. -/
def afterLeaves (s : BulkState) : BulkState :=
  { s with n := { s.n with isLeaf := false, next := 0 } }

/-- After the loop over the leaves the interior layers can start. -/
lemma innerRun_afterLeaves {sorted : List ℤ} {size : ℕ}
    (hok : (List.range L).foldlM (bulkLeaf sorted size L) (bulkStart n) = .ok s)
    (hkeys : ∀ c < L, s.keys[c]? = some (a.getD (127 * c) 0))
    (hpointers : ∀ c < L, s.pointers[c]? = some c) (hshape : NodeShape s.n)
    (hentries : 2 ≤ L → ∀ i < L, ∃ n, s.f.nodes[i]? = some n ∧
      n.entries = (leafVals a i).zipIdx (127 * i)) :
    InnerRun a L 0 0 { afterLeaves s with counter := 0 } := by
  obtain ⟨htotal, hlen, -, hlinks⟩ := bulkLeaves_links L hok
  refine ⟨⟨fun i hi => ?_, fun k hk => absurd hk (Nat.not_lt_zero _)⟩,
    fun i' hi' => absurd hi' (Nat.not_lt_zero _), ?_, htotal, (Nat.zero_min _).symm, fun c hc => ?_,
    fun c hc => ?_, rfl, ⟨hshape.keys, hshape.pointers⟩, fun h0 => absurd h0 (lt_irrefl _)⟩
  · obtain ⟨m, hm, hleaf, hpos, hparent⟩ := hlinks i hi
    refine ⟨m, hm, hleaf, hpos, hparent, fun htwo => ?_⟩
    obtain ⟨m', hm', hrest⟩ := hentries htwo i hi
    cases hm.symm.trans hm'
    exact hrest
  · rw [packStart, packStart, packSize, Nat.zero_add, Nat.add_zero]
    exact hlen
  · rw [if_neg (Nat.not_lt_zero _), headValue, pow_zero, mul_one]
    exact hkeys c hc
  · rw [if_neg (Nat.not_lt_zero _), packStart, Nat.zero_add]
    exact hpointers c hc

lemma numLeaves_pos (ha : 0 < a.length) : 0 < numLeaves a := lt_numLeaves_iff.mpr (by omega)

/-- The leaves of an array that fills at least one. -/
lemma bulkLeaves_large (hn : NodeShape n) (hsize : 127 ≤ a.length) (hread : CanRead a rest) :
    ∃ s, (List.range (numLeaves a)).foldlM (bulkLeaf (a ++ rest) a.length (numLeaves a))
      (bulkStart n) = .ok s ∧ InnerRun a (numLeaves a) 0 0 { afterLeaves s with counter := 0 } := by
  have hrest : a.length % 127 = 0 → rest ≠ [] := by
    rintro hfull rfl
    rw [CanRead, List.append_nil] at hread
    have hlast := mt (lt_numLeaves_iff (a := a) (j := numLeaves a)).mpr (lt_irrefl _)
    omega
  obtain ⟨s, hok, hs⟩ := @bulkLeaves_ok a rest (numLeaves a) n hn hsize (numLeaves a)
    (fun j hj => lt_numLeaves_iff.mp hj) fun j _ hj => hrest (by omega)
  refine ⟨s, hok, innerRun_afterLeaves hok (fun c hc => ?_) hs.pointers.2
    ⟨hs.keys_length, hs.pointers_length⟩ fun _ i hi => ?_⟩
  · rw [hs.keys.2 c hc, leafKey, List.getD_eq_getElem?_getD,
      List.getElem?_eq_getElem (lt_numLeaves_iff.mp hc)]
    rfl
  · obtain ⟨m, hm, -, hentries, -⟩ := hs.leaves i hi
    exact ⟨m, hm, hentries⟩

/-- The one leaf of a smaller array is filled as if the array filled it, and one more int is
read. -/
lemma bulkLeaf_small (rest : List ℤ) (hn : NodeShape n) (ha : 0 < a.length)
    (hread : 127 < (a ++ rest).length) :
    ∃ s, bulkLeaf (a ++ rest) a.length 1 (bulkStart n) 0 = .ok s ∧ s.keys = [a.getD 0 0] ∧
      s.pointers = [0] ∧ NodeShape s.n := by
  have hkey : fetch .bounds (a ++ rest) 0 = .ok (a.getD 0 0) := by
    rw [fetch_eq_ok, List.getElem?_append_left ha, List.getD_eq_getElem?_getD,
      List.getElem?_eq_getElem ha]
    rfl
  rw [bulkLeaf, show (bulkStart n).counter = 0 from rfl, hkey, Outcome.ok_bind,
    if_neg (Nat.not_lt_zero _), show bptSize - 1 = 127 from rfl, slice_of_le (by omega),
    Outcome.ok_bind, fetch_of_lt (show 0 + 127 < (a ++ rest).length by omega), Outcome.ok_bind]
  refine ⟨_, rfl, rfl, rfl, (length_splice ?_).trans hn.keys, (length_splice ?_).trans hn.pointers⟩
  · rw [show (bulkStart n).n.keys = n.keys from rfl, hn.keys, Nat.zero_add]
    exact List.length_take_le _ _
  · rw [show (bulkStart n).n.pointers = n.pointers from rfl, hn.pointers, List.length_range']
    decide

/-- Without that int the load ends there. -/
lemma bulkLeaf_small_bounds (rest : List ℤ) (ha : 0 < a.length)
    (hread : ¬ 127 < (a ++ rest).length) :
    bulkLeaf (a ++ rest) a.length 1 (bulkStart n) 0 = .error .bounds := by
  have hlt : 0 < (a ++ rest).length := by
    rw [List.length_append]
    omega
  rw [bulkLeaf, show (bulkStart n).counter = 0 from rfl, fetch_of_lt hlt, Outcome.ok_bind,
    if_neg (Nat.not_lt_zero _), show bptSize - 1 = 127 from rfl, slice]
  split_ifs with hfit
  · rw [Outcome.ok_bind, fetch, List.getElem?_eq_none (by omega)]
    rfl
  · rfl

lemma numLeaves_small (ha : 0 < a.length) (hsmall : a.length < 127) : numLeaves a = 1 := by
  have hpos := numLeaves_pos ha
  have hone := mt (lt_numLeaves_iff (a := a) (j := 1)).mp (by omega)
  omega

/-- **What a bulk load writes**, when it can read what it copies. -/
theorem bulkLoad_file (hn : NodeShape n) (ha : 0 < a.length) (hread : CanRead a rest) :
    ∃ f h, bulkLoad .makeNew n (a ++ rest) a.length = .ok f ∧ BulkFile a (numLeaves a) h f := by
  have hleaves : ∃ s, (List.range (numLeaves a)).foldlM
      (bulkLeaf (a ++ rest) a.length (numLeaves a)) (bulkStart n) = .ok s ∧
      InnerRun a (numLeaves a) 0 0 { afterLeaves s with counter := 0 } := by
    rcases Nat.lt_or_ge a.length 127 with hsmall | hlarge
    · have hone := numLeaves_small ha hsmall
      obtain ⟨s, hok, hkeys, hpointers, hshape⟩ := bulkLeaf_small rest hn ha (by
        rw [CanRead, hone] at hread
        omega)
      rw [hone]
      have hfold : (List.range 1).foldlM (bulkLeaf (a ++ rest) a.length 1) (bulkStart n)
          = .ok s := by
        rw [List.range_one, List.foldlM_cons, hok]
        rfl
      refine ⟨s, hfold, innerRun_afterLeaves hfold (fun c hc => ?_) (fun c hc => ?_) hshape
        fun htwo => absurd htwo (by decide)⟩
      · obtain rfl : c = 0 := by omega
        rw [hkeys]
        rfl
      · obtain rfl : c = 0 := by omega
        rw [hpointers]
        rfl
    · exact bulkLeaves_large hn hlarge hread
  obtain ⟨s, hok, hrun⟩ := hleaves
  obtain ⟨f, h, hok', hfile⟩ := bulkLayers_file { BptFile.makeNew.m with size := numLeaves a }
    (numLeaves_pos ha) (numLeaves a + 1) hrun (fun j hj => absurd hj (Nat.not_lt_zero _))
    (Nat.lt_succ_self _)
  refine ⟨f, h, Eq.trans (b := (List.range (numLeaves a)).foldlM
    (bulkLeaf (a ++ rest) a.length (numLeaves a)) (bulkStart n) >>= _) rfl ?_, hfile⟩
  rw [hok, Outcome.ok_bind]
  exact hok'

/-- A bulk load that returns has read what it copies. -/
theorem canRead_of_bulkLoad (hn : NodeShape n) (ha : 0 < a.length) {f : BptFile}
    (hok : bulkLoad .makeNew n (a ++ rest) a.length = .ok f) : CanRead a rest := by
  by_contra hread
  rw [CanRead, not_or, not_and_or, not_not] at hread
  obtain ⟨hlen, hread⟩ := hread
  rcases Nat.lt_or_ge a.length 127 with hsmall | hlarge
  · have hone := numLeaves_small ha hsmall
    have hleaf := bulkLeaf_small_bounds (n := n) rest ha (by omega)
    have hload : bulkLoad .makeNew n (a ++ rest) a.length = (List.range (numLeaves a)).foldlM
      (bulkLeaf (a ++ rest) a.length (numLeaves a)) (bulkStart n) >>= _ := rfl
    rw [hload, hone, List.range_one, List.foldlM_cons, hleaf] at hok
    cases hok
  · have hlast := mt (lt_numLeaves_iff (a := a) (j := numLeaves a)).mpr (lt_irrefl _)
    have hpos := numLeaves_pos ha
    have hbefore := (lt_numLeaves_iff (a := a) (j := numLeaves a - 1)).mp (by omega)
    rw [List.length_append] at hread
    obtain rfl : rest = [] := List.eq_nil_of_length_eq_zero (by omega)
    rw [List.append_nil, bulkLoad_bounds hn hlarge (by omega)] at hok
    cases hok

end Leaves

/-! ### The links -/

section Links

variable {a rest : List ℤ} {L h k i p : ℕ} {f : BptFile} {n : Node}

/-- A group is among the children, when the node has the size for it. -/
lemma LayerNode.mem_children {parent size : ℕ} (hn : LayerNode a L k (i / 128) parent size n)
    (hi : i < packSize 128 L k) (hsize : packWidth 128 L k (i / 128) ≤ size + 1) :
    packStart 128 L k + i ∈ n.children := by
  have hmem := List.mem_of_getElem? (getElem?_packGroup_div (by decide) hi)
  rw [← hn.pointers] at hmem
  rw [Node.children, hn.size]
  exact (List.take_subset_take_left _ hsize) hmem

namespace BulkFile

lemma length_eq (hf : BulkFile a L h f) (hL : 0 < L) :
    packSize 128 L (h + 1) = 1 ∧ f.nodes.length = packStart 128 L (h + 2) := by
  have hpos : 0 < packSize 128 L (h + 1) := packSize_pos (by decide) hL _
  have hone := mt (lt_packSize_succ (w := 128) (L := L) (k := h) (i := 1) (by decide)).mp
    (by have := hf.small; omega)
  have hsize : packSize 128 L (h + 1) = 1 := by omega
  have hstart : packStart 128 L (h + 2) = packStart 128 L (h + 1) + packSize 128 L (h + 1) := rfl
  exact ⟨hsize, by rw [hf.length, hstart, hsize]⟩

/-- The node over a group. -/
lemma above (hf : BulkFile a L h f) (hk : k ≤ h) (hi : i < packSize 128 L k) :
    ∃ m, f.look (packStart 128 L (k + 1) + i / 128) = some m ∧ m.isLeaf = false ∧
      packStart 128 L k + i ∈ m.children := by
  rcases Nat.lt_or_eq_of_le hk with hlt | rfl
  · obtain ⟨m, hm, hnode⟩ := hf.written.inner k hlt _ (div_lt_packSize (by decide) hi)
    exact ⟨m, hm, hnode.isLeaf, hnode.mem_children hi (packWidth_le _ _ _ _)⟩
  · have hsmall := hf.small
    have hzero : i / 128 = 0 := Nat.div_eq_of_lt (by omega)
    obtain ⟨m, hm, hnode⟩ := hf.root
    rw [← hzero] at hnode
    refine ⟨m, by rw [hzero]; exact hm, hnode.isLeaf, hnode.mem_children hi ?_⟩
    rw [packWidth, hzero]
    omega

/-- Every node below the root stands on a layer, and names the node over its group. -/
lemma cases_of_look (hf : BulkFile a L h f) (hp : f.look p = some n) :
    n.pos = p ∧ ((p = packStart 128 L (h + 1) ∧ n.parent = 0) ∨
      ∃ k ≤ h, ∃ i < packSize 128 L k, p = packStart 128 L k + i ∧
        n.parent = packStart 128 L (k + 1) + i / 128) := by
  have hlt := lt_length_of_look hp
  rw [hf.length] at hlt
  rcases Nat.lt_succ_iff_lt_or_eq.mp hlt with hlt | rfl
  · obtain ⟨k, hk, i, hi, rfl⟩ := packStart_cases hlt
    cases k with
    | zero =>
        obtain ⟨m, hm, -, hpos, hparent, -⟩ := hf.written.leaf i hi
        rw [packStart, Nat.zero_add] at hp ⊢
        cases hm.symm.trans hp
        refine ⟨hpos, Or.inr ⟨0, Nat.zero_le h, i, hi, ?_, ?_⟩⟩
        · rw [packStart, Nat.zero_add]
        · rw [hparent, packStart, packStart, packSize, Nat.zero_add]
    | succ k =>
        obtain ⟨m, hm, hnode⟩ := hf.written.inner k (by omega) i hi
        cases hm.symm.trans hp
        exact ⟨hnode.pos, Or.inr ⟨k + 1, by omega, i, hi, rfl, hnode.parent⟩⟩
  · obtain ⟨m, hm, hnode⟩ := hf.root
    cases hm.symm.trans hp
    exact ⟨hnode.pos, Or.inl ⟨rfl, hnode.parent⟩⟩

end BulkFile

/-- The links of the stored nodes: every node but the root names as its parent an interior node
that lists it among its children, and the header names the root and the number of nodes. -/
structure LinkedUp (f : BptFile) : Prop where
  pos : ∀ p n, f.look p = some n → n.pos = p
  parent : ∀ p n, f.look p = some n → p ≠ f.m.root →
    ∃ m, f.look n.parent = some m ∧ m.isLeaf = false ∧ p ∈ m.children
  no_parent : ∀ p n, f.look p = some n → (n.parent = 0 ↔ p = f.m.root)
  root : ∃ n, f.look f.m.root = some n ∧ n.isLeaf = false
  nextFree : f.m.nextFree = f.nodes.length

/-- **The parents are those of the groups.** -/
theorem BulkFile.linkedUp (hf : BulkFile a L h f) (hL : 0 < L) : LinkedUp f where
  pos p n hp := (hf.cases_of_look hp).1
  parent p n hp hroot := by
    obtain ⟨-, ⟨rfl, -⟩ | ⟨k, hk, i, hi, rfl, hparent⟩⟩ := hf.cases_of_look hp
    · exact absurd hf.root_eq.symm hroot
    · rw [hparent]
      exact hf.above hk hi
  no_parent p n hp := by
    rw [hf.root_eq]
    obtain ⟨-, ⟨rfl, hparent⟩ | ⟨k, hk, i, hi, rfl, hparent⟩⟩ := hf.cases_of_look hp
    · exact iff_of_true hparent rfl
    · have hlt := packStart_lt (show k < h + 1 by omega) hi
      have hfirst : packStart 128 L 1 ≤ packStart 128 L (k + 1) := packStart_mono (by omega)
      rw [packStart, packStart, packSize] at hfirst
      exact iff_of_false (by omega) (by omega)
  root := by
    obtain ⟨n, hn, hnode⟩ := hf.root
    exact ⟨n, by rw [hf.root_eq]; exact hn, hnode.isLeaf⟩
  nextFree := hf.nextFree

/-- **The links after a bulk load** of fewer than `2 ^ 31` values. Whatever the number of leaves,
they are right whenever the load can read what it copies; without that it does not return. -/
theorem bulkLoad_links_iff (n : Node) (hn : NodeShape n) (a rest : List ℤ) (ha : 1 ≤ a.length)
    (_hint : a.length < 2 ^ 31) :
    (∃ f, bulkLoad .makeNew n (a ++ rest) a.length = .ok f ∧ LinkedUp f) ↔ CanRead a rest := by
  constructor
  · rintro ⟨f, hok, -⟩
    exact canRead_of_bulkLoad hn ha hok
  · intro hread
    obtain ⟨f, h, hok, hf⟩ := bulkLoad_file hn ha hread
    exact ⟨f, hok, hf.linkedUp (numLeaves_pos ha)⟩

/-- `bulkLoad_links_iff` at `128` equal values, which fill one leaf and start another. -/
theorem equalValues_linkedUp :
    ∃ f, bulkLoad .makeNew Node.zero (List.replicate 128 7 ++ []) 128 = .ok f ∧ LinkedUp f :=
  (bulkLoad_links_iff Node.zero ⟨rfl, rfl⟩ (List.replicate 128 7) [] (by simp) (by simp)).mpr
    (Or.inl (by simp))

/-- A single value with nothing behind it: the load copies `127` ints. -/
theorem oneValue_bounds :
    bulkLoad .makeNew Node.zero [5] 1 = .error .bounds ∧
      ¬ ∃ f, bulkLoad .makeNew Node.zero ([5] ++ []) [(5 : ℤ)].length = .ok f ∧ LinkedUp f := by
  have hbounds : bulkLoad .makeNew Node.zero [5] 1 = .error .bounds := rfl
  refine ⟨hbounds, ?_⟩
  rintro ⟨f, hok, -⟩
  rw [List.append_nil, List.length_singleton, hbounds] at hok
  cases hok

end Links

end ColumnDb
