import ColumnDb.Bptree.BulkLinks

/-!
The leaf layer of a bulk load (`bulk_load` in `bptree.c`).

* `leafLayer`: the loop over the leaves. It ends with a fault where it reads a cell that is not
  there.
* `CountedLeaves`: leaves whose sizes add up and of which only the last one ends the chain.
* `FullLeaves`: the state while no leaf has passed the test for the last one.
* `leafLayer_chain_iff`: whatever stands behind the array, the last leaf passes that test exactly
  when there is more than one leaf to fill and the last one is not full.
* `leafLayer_inside_iff`: exactly then the layer is written from the array alone.
-/

namespace ColumnDb

/-- The loop of `bulk_load` over the leaves; `sorted` is the memory from the array on. -/
def leafLayer (n : Node) (sorted : List ℤ) (size : ℕ) : Outcome BulkState :=
  let numNodes := getCeil size (bptSize - 1)
  (List.range numNodes).foldlM (bulkLeaf sorted size numNodes) (bulkStart n)

/-- The loop is how a bulk load starts. -/
lemma bulkLoad_eq_leafLayer (n : Node) (sorted : List ℤ) (size : ℕ) :
    bulkLoad .makeNew n sorted size = leafLayer n sorted size >>= fun s =>
      bulkLayers { BptFile.makeNew.m with size := getCeil size (bptSize - 1) }
        (getCeil size (bptSize - 1) + 1) (getCeil size (bptSize - 1)) (afterLeaves s) := rfl

/-- Leaves of `size` values in all, none of them empty, of which only the last one ends the
chain. -/
structure CountedLeaves (size : ℕ) (nodes : List Node) : Prop where
  sizes : ∀ m ∈ nodes, 1 ≤ m.size ∧ m.size ≤ bptSize - 1
  total : (nodes.map Node.size).sum = size
  next : ∀ j m, nodes[j]? = some m → (m.next = 0 ↔ j + 1 = nodes.length)

/-- The state after `i` leaves, when all of them were filled as leaves before the last. -/
structure FullLeaves (i : ℕ) (s : BulkState) : Prop where
  length : s.f.nodes.length = i
  totalNodes : s.totalNodes = i
  counter : s.counter = 127 * i
  leaves : ∀ j < i, ∃ m, s.f.nodes[j]? = some m ∧ m.size = 127 ∧ m.next = j + 1

section Leaves

variable {sorted : List ℤ} {size L i : ℕ} {n : Node} {s s' : BulkState}

/-- The test for the last leaf, with the subtraction that wraps for an array of fewer than `127`
values. -/
lemma lastLeaf_iff (hi : 127 * i < size) :
    sub32 (size + 1) bptSize < 127 * i ↔ 127 < size ∧ size < 127 * (i + 1) := by
  rw [show bptSize = 128 from rfl, sub32]
  split_ifs with hle
  · omega
  · obtain rfl : i = 0 := by omega
    omega

lemma FullLeaves.start (n : Node) : FullLeaves 0 (bulkStart n) where
  length := rfl
  totalNodes := rfl
  counter := rfl
  leaves j hj := absurd hj (Nat.not_lt_zero j)

namespace FullLeaves

/-- What a write at the end of the file leaves. -/
lemma nodes_writeNode (h : FullLeaves i s) {m : Node} (hpos : m.pos = s.totalNodes) :
    (writeNode s.f m).nodes = s.f.nodes ++ [m] := by
  rw [writeNode, hpos, h.totalNodes, ← h.length]
  exact writeAt_length _ _ _

lemma getElem?_append (h : FullLeaves i s) (m : Node) : (s.f.nodes ++ [m])[i]? = some m := by
  rw [← h.length]
  exact List.getElem?_concat_length

/-- A turn that does not take its leaf for the last one. -/
lemma full (h : FullLeaves i s) (hok : bulkLeaf sorted size L s i = .ok s')
    (hfull : ¬ sub32 (size + 1) bptSize < 127 * i) : FullLeaves (i + 1) s' := by
  obtain ⟨key, -, hok⟩ := Outcome.bind_eq_ok.mp hok
  rw [h.counter, if_neg hfull] at hok
  obtain ⟨vals, -, hok⟩ := Outcome.bind_eq_ok.mp hok
  obtain ⟨behind, -, hok⟩ := Outcome.bind_eq_ok.mp hok
  cases hok
  refine ⟨?_, congrArg (· + 1) h.totalNodes, rfl, fun j hj => ?_⟩
  · rw [h.nodes_writeNode rfl, List.length_append, h.length, List.length_singleton]
  · rw [h.nodes_writeNode rfl]
    rcases Nat.lt_succ_iff_lt_or_eq.mp hj with hlt | rfl
    · obtain ⟨m, hm, hrest⟩ := h.leaves j hlt
      exact ⟨m, getElem?_append_of_some hm, hrest⟩
    · exact ⟨_, h.getElem?_append _, rfl, congrArg (· + 1) h.totalNodes⟩

/-- A turn that takes its leaf for the last one. -/
lemma last (h : FullLeaves i s) (hok : bulkLeaf sorted size L s i = .ok s')
    (hlast : sub32 (size + 1) bptSize < 127 * i) :
    ∃ m, s'.f.nodes = s.f.nodes ++ [m] ∧ m.size = size - 127 * i ∧ m.next = 0 := by
  obtain ⟨key, -, hok⟩ := Outcome.bind_eq_ok.mp hok
  rw [h.counter, if_pos hlast] at hok
  obtain ⟨vals, -, hok⟩ := Outcome.bind_eq_ok.mp hok
  cases hok
  exact ⟨_, h.nodes_writeNode rfl, rfl, rfl⟩

lemma size_of_mem (h : FullLeaves i s) {m : Node} (hm : m ∈ s.f.nodes) : m.size = 127 := by
  obtain ⟨j, hj, rfl⟩ := List.getElem_of_mem hm
  obtain ⟨m, hm, hsize, -⟩ := h.leaves j (h.length ▸ hj)
  rw [List.getElem?_eq_getElem hj] at hm
  cases hm
  exact hsize

lemma sum_sizes (h : FullLeaves i s) : (s.f.nodes.map Node.size).sum = 127 * i := by
  have hall : s.f.nodes.map Node.size = List.replicate i 127 := by
    refine List.eq_replicate_iff.mpr ⟨by rw [List.length_map, h.length], fun x hx => ?_⟩
    obtain ⟨m, hm, rfl⟩ := List.mem_map.mp hx
    exact h.size_of_mem hm
  rw [hall, List.sum_replicate, smul_eq_mul, Nat.mul_comm]

/-- A last leaf behind full ones makes a chain, when it takes the rest of the values. -/
lemma chain (h : FullLeaves i s) {m : Node} (hsize : m.size = size - 127 * i) (hnext : m.next = 0)
    (hi : 127 * i < size) (hlast : size < 127 * (i + 1)) :
    CountedLeaves size (s.f.nodes ++ [m]) where
  sizes m' hm' := by
    rw [show bptSize - 1 = 127 from rfl]
    rcases List.mem_append.mp hm' with hm' | hm'
    · rw [h.size_of_mem hm']
      omega
    · obtain rfl := List.mem_singleton.mp hm'
      omega
  total := by
    rw [List.map_append, List.sum_append, h.sum_sizes, List.map_singleton, List.sum_singleton,
      hsize]
    omega
  next j m' hj := by
    rw [List.length_append, h.length, List.length_singleton]
    obtain hj | ⟨rfl, rfl⟩ := getElem?_concat_cases hj
    · have hlt : j < i := h.length ▸ (List.getElem?_eq_some_iff.mp hj).1
      obtain ⟨m₁, hm₁, -, hnext₁⟩ := h.leaves j hlt
      cases hm₁.symm.trans hj
      omega
    · exact iff_of_true hnext (by rw [h.length])

end FullLeaves

/-- The leaves before the last one are filled as such. -/
lemma fullLeaves_of_foldlM (i : ℕ) : ∀ {s : BulkState}, 127 * i < size →
    (List.range i).foldlM (bulkLeaf sorted size L) (bulkStart n) = .ok s → FullLeaves i s := by
  induction i with
  | zero =>
      intro s _ hok
      cases hok
      exact FullLeaves.start n
  | succ i ih =>
      intro s hi hok
      rw [List.range_succ, foldlM_append_ok] at hok
      obtain ⟨s₁, hok₁, hok⟩ := hok
      rw [List.foldlM_cons] at hok
      obtain ⟨s₂, hok₂, hok⟩ := Outcome.bind_eq_ok.mp hok
      cases hok
      refine (ih (by omega) hok₁).full hok₂ ?_
      rw [lastLeaf_iff (by omega)]
      omega

end Leaves

section Layer

variable {n : Node} {a rest : List ℤ} {s : BulkState}

/-- **The leaves that are written**, whatever stands behind the array: they are a chain exactly
when the last leaf passes the test for the last one. -/
theorem leafLayer_chain_iff (ha : 1 ≤ a.length)
    (hok : leafLayer n (a ++ rest) a.length = .ok s) :
    CountedLeaves a.length s.f.nodes ↔ 127 < a.length ∧ a.length % 127 ≠ 0 := by
  have hpos := numLeaves_pos ha
  have hlt := (lt_numLeaves_iff (a := a) (j := numLeaves a - 1)).mp (by omega)
  have hge := mt (lt_numLeaves_iff (a := a) (j := numLeaves a)).mpr (lt_irrefl _)
  have hsplit : List.range (numLeaves a) = List.range (numLeaves a - 1) ++ [numLeaves a - 1] := by
    rw [← List.range_succ, Nat.succ_eq_add_one, Nat.sub_add_cancel hpos]
  rw [leafLayer, hsplit, foldlM_append_ok] at hok
  obtain ⟨s₁, hok₁, hok⟩ := hok
  rw [List.foldlM_cons] at hok
  obtain ⟨s₂, hok₂, hok⟩ := Outcome.bind_eq_ok.mp hok
  cases hok
  have hfull := fullLeaves_of_foldlM _ hlt hok₁
  by_cases hlast : sub32 (a.length + 1) bptSize < 127 * (numLeaves a - 1)
  · obtain ⟨m, hnodes, hsize, hnext⟩ := hfull.last hok₂ hlast
    have hlast := (lastLeaf_iff hlt).mp hlast
    refine iff_of_true ?_ (by omega)
    rw [hnodes]
    exact hfull.chain hsize hnext hlt hlast.2
  · -- the last leaf names a leaf behind it
    have hall := hfull.full hok₂ hlast
    obtain ⟨m, hm, -, hnext⟩ := hall.leaves _ (Nat.lt_succ_self _)
    rw [lastLeaf_iff hlt] at hlast
    refine iff_of_false (fun hchain => ?_) (by omega)
    have hzero := (hchain.next _ m hm).mpr (by rw [hall.length])
    omega

/-- **The leaf layer from the array alone**, of fewer than `2 ^ 31` values: it reads no other cell,
and writes a chain of leaves, exactly when there are more than `127` values and their number is no
multiple of `127`. -/
theorem leafLayer_inside_iff (n : Node) (hn : NodeShape n) (a : List ℤ) (ha : 1 ≤ a.length)
    (_hint : a.length < 2 ^ 31) :
    (∃ s, leafLayer n a a.length = .ok s ∧ CountedLeaves a.length s.f.nodes) ↔
      127 < a.length ∧ a.length % 127 ≠ 0 := by
  constructor
  · rintro ⟨s, hok, hchain⟩
    exact (@leafLayer_chain_iff n a [] s ha (by rwa [List.append_nil])).mp hchain
  · rintro hsize
    obtain ⟨s, hok, -⟩ := @bulkLeaves_large a [] n hn hsize.1.le (Or.inl hsize)
    rw [List.append_nil] at hok
    refine ⟨s, hok, ?_⟩
    exact (@leafLayer_chain_iff n a [] s ha (by rwa [List.append_nil])).mpr hsize

/-- `leafLayer_inside_iff` at `128` values, which fill one leaf and start another. -/
theorem oneMoreThanALeaf_chain : ∃ s, leafLayer Node.zero (List.replicate 128 7) 128 = .ok s ∧
    CountedLeaves 128 s.f.nodes :=
  (leafLayer_inside_iff Node.zero ⟨rfl, rfl⟩ (List.replicate 128 7) (by simp) (by simp)).mpr
    (by simp)

/-- The layer over a single value copies `127` ints, of which only the first one is in the
array. -/
theorem oneValue_leafLayer : leafLayer Node.zero [5] 1 = .error .bounds ∧
    ¬ ∃ s, leafLayer Node.zero [5] 1 = .ok s ∧ CountedLeaves 1 s.f.nodes := by
  have hbounds : leafLayer Node.zero [5] 1 = .error .bounds := rfl
  refine ⟨hbounds, ?_⟩
  rintro ⟨s, hok, -⟩
  cases hbounds.symm.trans hok

end Layer

end ColumnDb
