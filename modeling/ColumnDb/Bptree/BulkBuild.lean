import ColumnDb.Bptree.BulkLoad

/-!
What a bulk load writes.

`lead` gives every node of the file the index of the leaf its leftmost path ends at. A bulk
load keeps, for every interior node, that each key is the first value of the leaf that the
pointer after it leads to (`Built`). This also holds of the keys and pointers that a shorter
interior node inherits from the node written before it, which a search may follow as well.

* `bulkLeaf_ok`: a turn of the loop over the leaves keeps `LeafLoop`.
* `bulkInner_ok`: a turn of the loop over an interior layer keeps `InnerLoop`, whose `stale`
  field speaks of the inherited entries.
* `bulkLayers_ok`: the loop over the layers ends, with a root that leads to the first leaf.
-/

namespace ColumnDb

/-! ### Where nodes lead to -/

/-- The first value of the leaf `c`. -/
def leafKey (a : List ℤ) (c : ℕ) : Option ℤ := a[127 * c]?

/-- The key `key` and the pointer `q` next to it belong together: the pointer leads to a leaf
that starts with the key. -/
def Heads (a : List ℤ) (lead : List ℕ) (key : Option ℤ) (q : Option ℕ) : Prop :=
  ∃ k p c, key = some k ∧ q = some p ∧ lead[p]? = some c ∧ leafKey a c = some k

/-- The first `k` keys of an interior node head the pointers after them. -/
def InnerEntries (a : List ℤ) (lead : List ℕ) (n : Node) (k : ℕ) : Prop :=
  ∀ j < k, Heads a lead n.keys[j]? n.pointers[j + 1]?

/-- The nodes of a bulk-loaded file, with the leaf that each of them leads to. With more than
one leaf every interior node has a key. -/
inductive Built (a : List ℤ) (numLeaves : ℕ) : List Node → List ℕ → Prop where
  | nil : Built a numLeaves [] []
  | leaf {nodes : List Node} {lead : List ℕ} {n : Node} (h : Built a numLeaves nodes lead)
      (hleaf : n.isLeaf = true) : Built a numLeaves (nodes ++ [n]) (lead ++ [nodes.length])
  | inner {nodes : List Node} {lead : List ℕ} {n : Node} {q c : ℕ}
      (h : Built a numLeaves nodes lead) (hleaf : n.isLeaf = false)
      (hsize : 2 ≤ numLeaves → 1 ≤ n.size) (hq : n.pointers[0]? = some q)
      (hc : lead[q]? = some c) (hin : InnerEntries a lead n n.size) :
      Built a numLeaves (nodes ++ [n]) (lead ++ [c])

namespace Built

variable {a : List ℤ} {numLeaves : ℕ} {nodes : List Node} {lead : List ℕ}

lemma length_lead (h : Built a numLeaves nodes lead) : lead.length = nodes.length := by
  induction h with
  | nil => rfl
  | leaf h _ ih => rw [List.length_append, List.length_append, ih]; rfl
  | inner h _ _ _ _ _ ih => rw [List.length_append, List.length_append, ih]; rfl

end Built

/-- The node `n` at the position `p` is a leaf, which leads to itself, or an interior node
over earlier nodes. -/
def Leads (a : List ℤ) (numLeaves : ℕ) (lead : List ℕ) (p : ℕ) (n : Node) (c : ℕ) : Prop :=
  (n.isLeaf = true ∧ c = p) ∨
  (n.isLeaf = false ∧ (2 ≤ numLeaves → 1 ≤ n.size) ∧
    (∃ q < p, n.pointers[0]? = some q ∧ lead[q]? = some c) ∧
    ∀ j < n.size, ∃ k q c', n.keys[j]? = some k ∧ q < p ∧ n.pointers[j + 1]? = some q ∧
      lead[q]? = some c' ∧ leafKey a c' = some k)

lemma getElem?_append_of_some {α : Type} {l l' : List α} {i : ℕ} {x : α} (h : l[i]? = some x) :
    (l ++ l')[i]? = some x := by
  rw [List.getElem?_append_left (List.getElem?_eq_some_iff.mp h).1, h]

/-- What stands in a list with one more entry. -/
lemma getElem?_concat_cases {α : Type} {l : List α} {x y : α} {i : ℕ}
    (h : (l ++ [x])[i]? = some y) : l[i]? = some y ∨ (i = l.length ∧ y = x) := by
  rcases Nat.lt_or_ge i l.length with hi | hi
  · rw [List.getElem?_append_left hi] at h
    exact Or.inl h
  · have hlt := (List.getElem?_eq_some_iff.mp h).1
    rw [List.length_append, List.length_singleton] at hlt
    obtain rfl : i = l.length := by omega
    rw [List.getElem?_append_right le_rfl, Nat.sub_self] at h
    exact Or.inr ⟨rfl, (Option.some_inj.mp h).symm⟩

/-- Later nodes do not change where a node leads to. -/
lemma Leads.append {a : List ℤ} {numLeaves : ℕ} {lead lead' : List ℕ} {p : ℕ} {n : Node} {c : ℕ}
    (h : Leads a numLeaves lead p n c) : Leads a numLeaves (lead ++ lead') p n c := by
  obtain hl | ⟨hl, hsize, ⟨q, hqp, hq, hqc⟩, hin⟩ := h
  · exact Or.inl hl
  · refine Or.inr ⟨hl, hsize, ⟨q, hqp, hq, getElem?_append_of_some hqc⟩, fun j hj => ?_⟩
    obtain ⟨k, q', c', hk, hqp', hq', hc', hkey⟩ := hin j hj
    exact ⟨k, q', c', hk, hqp', hq', getElem?_append_of_some hc', hkey⟩

namespace Built

variable {a : List ℤ} {numLeaves : ℕ} {nodes : List Node} {lead : List ℕ}

lemma get (h : Built a numLeaves nodes lead) : ∀ {p : ℕ} {n : Node} {c : ℕ},
    nodes[p]? = some n → lead[p]? = some c → Leads a numLeaves lead p n c := by
  induction h with
  | nil => intro p n c hn; simp at hn
  | @leaf nodes lead m h hleaf ih =>
      intro p n c hn hc
      have hlen := h.length_lead
      obtain hn | ⟨rfl, rfl⟩ := getElem?_concat_cases hn <;>
        obtain hc | ⟨hp, rfl⟩ := getElem?_concat_cases hc
      · exact (ih hn hc).append
      · have := (List.getElem?_eq_some_iff.mp hn).1
        omega
      · have := (List.getElem?_eq_some_iff.mp hc).1
        omega
      · exact Or.inl ⟨hleaf, rfl⟩
  | @inner nodes lead m q c₀ h hleaf hsize hq hqc hin ih =>
      intro p n c hn hc
      have hlen := h.length_lead
      have hlt : ∀ {q c : ℕ}, lead[q]? = some c → q < nodes.length := fun hq => by
        rw [← hlen]
        exact (List.getElem?_eq_some_iff.mp hq).1
      obtain hn | ⟨rfl, rfl⟩ := getElem?_concat_cases hn <;>
        obtain hc | ⟨hp, rfl⟩ := getElem?_concat_cases hc
      · exact (ih hn hc).append
      · have := (List.getElem?_eq_some_iff.mp hn).1
        omega
      · exact absurd (hlt hc) (lt_irrefl _)
      · refine Or.inr ⟨hleaf, hsize, ⟨q, hlt hqc, hq, getElem?_append_of_some hqc⟩, fun j hj => ?_⟩
        obtain ⟨k, q', c', hk, hq', hc', hkey⟩ := hin j hj
        exact ⟨k, q', c', hk, hlt hc', hq', getElem?_append_of_some hc', hkey⟩

end Built

/-! ### The leaves -/

/-- The values of the leaf `j`. -/
def leafVals (a : List ℤ) (j : ℕ) : List ℤ := (a.drop (127 * j)).take 127

/-- The entries of a leaf into which a stretch of values is copied with its positions. -/
lemma entries_splice (n : Node) (vals : List ℤ) (c : ℕ) {m : Node}
    (hkeys : m.keys = splice n.keys 0 vals)
    (hpointers : m.pointers = splice n.pointers 0 (List.range' c vals.length))
    (hsize : m.size = vals.length) : m.entries = vals.zipIdx c := by
  rw [Node.entries, List.zip, List.take_zipWith, hkeys, hpointers, hsize, take_splice_zero rfl,
    take_splice_zero (by rw [List.length_range']), List.zipIdx_eq_zip_range', List.zip]

section Leaves

variable {a rest : List ℤ} {numLeaves : ℕ}

/-- The state after `i` turns of the loop over the leaves. -/
structure LeafLoop (a : List ℤ) (numLeaves i : ℕ) (s : BulkState) : Prop where
  totalNodes : s.totalNodes = i
  counter : s.counter = min (127 * i) a.length
  keys : s.keys.length = i ∧ ∀ j < i, s.keys[j]? = leafKey a j
  pointers : s.pointers.length = i ∧ ∀ j < i, s.pointers[j]? = some j
  isLeaf : s.n.isLeaf = true
  keys_length : s.n.keys.length = 127
  pointers_length : s.n.pointers.length = 128
  built : Built a numLeaves s.f.nodes (List.range i)
  leaves : ∀ j < i, ∃ n, s.f.nodes[j]? = some n ∧ n.isLeaf = true ∧
    n.entries = (leafVals a j).zipIdx (127 * j) ∧
    n.next = if 127 * (j + 1) ≤ a.length then j + 1 else 0

/-- What a turn of the loop does with the leaf it has filled. -/
lemma LeafLoop.write {i : ℕ} {s : BulkState} (h : LeafLoop a numLeaves i s)
    (hi : 127 * i < a.length) {vals : List ℤ} (hvals : vals = leafVals a i) {n : Node}
    {next counter : ℕ}
    (hn : n = { s.n with
      keys := splice s.n.keys 0 vals
      pointers := splice s.n.pointers 0 (List.range' (127 * i) vals.length)
      size := vals.length
      next := next
      pos := s.totalNodes
      parent := numLeaves + i / bptSize })
    (hnext : next = if 127 * (i + 1) ≤ a.length then i + 1 else 0)
    (hcounter : counter = min (127 * (i + 1)) a.length) :
    LeafLoop a numLeaves (i + 1)
      { f := writeNode s.f n, n := n, keys := s.keys ++ [a.getD (127 * i) 0],
        pointers := s.pointers ++ [i], totalNodes := s.totalNodes + 1, counter := counter } := by
  have hlen : s.f.nodes.length = i := by
    rw [← h.built.length_lead, List.length_range]
  have hvlen : vals.length ≤ 127 := by rw [hvals]; exact List.length_take_le _ _
  have hnodes : (writeNode s.f n).nodes = s.f.nodes ++ [n] := by
    rw [writeNode, hn]
    simp only [h.totalNodes]
    rw [← hlen, writeAt_length]
  have hentries : n.entries = (leafVals a i).zipIdx (127 * i) := by
    rw [← hvals]
    exact entries_splice s.n vals (127 * i) (by rw [hn]) (by rw [hn]) (by rw [hn])
  refine ⟨?_, hcounter, ⟨?_, ?_⟩, ⟨?_, ?_⟩, ?_, ?_, ?_, ?_, ?_⟩
  · exact congrArg (· + 1) h.totalNodes
  · rw [List.length_append, h.keys.1, List.length_singleton]
  · intro j hj
    rcases Nat.lt_succ_iff_lt_or_eq.mp hj with hj | rfl
    · rw [List.getElem?_append_left (by rw [h.keys.1]; exact hj), h.keys.2 j hj]
    · rw [List.getElem?_append_right (by rw [h.keys.1]), h.keys.1, Nat.sub_self, leafKey,
        List.getD_eq_getElem?_getD, List.getElem?_eq_getElem hi]
      rfl
  · rw [List.length_append, h.pointers.1, List.length_singleton]
  · intro j hj
    rcases Nat.lt_succ_iff_lt_or_eq.mp hj with hj | rfl
    · rw [List.getElem?_append_left (by rw [h.pointers.1]; exact hj), h.pointers.2 j hj]
    · rw [List.getElem?_append_right (by rw [h.pointers.1]), h.pointers.1, Nat.sub_self]
      rfl
  · rw [hn]; exact h.isLeaf
  · rw [hn]
    exact (length_splice (by rw [h.keys_length]; omega)).trans h.keys_length
  · rw [hn]
    refine (length_splice ?_).trans h.pointers_length
    rw [h.pointers_length, List.length_range']
    omega
  · rw [hnodes, List.range_succ]
    have hleaf := Built.leaf (n := n) h.built (by rw [hn]; exact h.isLeaf)
    rwa [hlen] at hleaf
  · intro j hj
    rw [hnodes]
    rcases Nat.lt_succ_iff_lt_or_eq.mp hj with hj | rfl
    · obtain ⟨m, hm, hrest⟩ := h.leaves j hj
      exact ⟨m, getElem?_append_of_some hm, hrest⟩
    · refine ⟨n, ?_, by rw [hn]; exact h.isLeaf, hentries, by rw [hn]; exact hnext⟩
      rw [List.getElem?_append_right hlen.le, hlen, Nat.sub_self]
      rfl

/-- **A turn of the loop over the leaves.** When the leaf takes the last values and is full,
the value after the array has to be there. -/
theorem bulkLeaf_ok {i : ℕ} {s : BulkState} (h : LeafLoop a numLeaves i s)
    (hsize : 127 ≤ a.length) (hi : 127 * i < a.length)
    (hrest : 127 * (i + 1) = a.length → rest ≠ []) :
    ∃ s', bulkLeaf (a ++ rest) a.length numLeaves s i = .ok s' ∧
      LeafLoop a numLeaves (i + 1) s' := by
  have hcounter : s.counter = 127 * i := by rw [h.counter]; omega
  have hkey : fetch .bounds (a ++ rest) (127 * i) = .ok (a.getD (127 * i) 0) := by
    rw [fetch_eq_ok, List.getElem?_append_left hi, List.getD_eq_getElem?_getD,
      List.getElem?_eq_getElem hi]
    rfl
  have hdrop : ∀ k, 127 * i + k ≤ a.length →
      slice (a ++ rest) (127 * i) k = .ok ((a.drop (127 * i)).take k) := by
    intro k hk
    rw [slice_of_le (by rw [List.length_append]; omega),
      List.drop_append_of_le_length (by omega),
      List.take_append_of_le_length (by rw [List.length_drop]; omega)]
  have hbound : sub32 (a.length + 1) bptSize = a.length - 127 := by
    rw [sub32_of_le (by rw [show bptSize = 128 from rfl]; omega), show bptSize = 128 from rfl]
    omega
  rw [bulkLeaf, hcounter, hkey, Outcome.ok_bind, hbound]
  split_ifs with hlast
  · have hvals : (a.drop (127 * i)).take (a.length - 127 * i) = leafVals a i := by
      rw [leafVals, List.take_of_length_le (by rw [List.length_drop]),
        List.take_of_length_le (by rw [List.length_drop]; omega)]
    rw [hdrop _ (by omega), Outcome.ok_bind, hvals]
    refine ⟨_, rfl, h.write hi rfl ?_ (by rw [if_neg (by omega)]) (by omega)⟩
    rw [← hvals]
    simp only [List.length_take, List.length_drop, min_self]
  · have hnext : 127 * i + 127 < (a ++ rest).length := by
      rw [List.length_append]
      rcases Nat.lt_or_ge (127 * i + 127) a.length with hlt | hge
      · omega
      · have := List.length_pos_iff.mpr (hrest (by omega))
        omega
    have hvlen : (leafVals a i).length = 127 := by
      rw [leafVals, List.length_take, List.length_drop]
      omega
    have hsucc : s.totalNodes + 1 = if 127 * (i + 1) ≤ a.length then i + 1 else 0 := by
      rw [if_pos (by omega), h.totalNodes]
    rw [show bptSize - 1 = 127 from rfl, hdrop _ (by omega), Outcome.ok_bind, fetch_of_lt hnext,
      Outcome.ok_bind]
    refine ⟨_, rfl, h.write hi rfl ?_ hsucc (by omega)⟩
    simp only [hvlen]
    rfl

/-- The state before the loop over the leaves. -/
def bulkStart (n : Node) : BulkState where
  f := BptFile.makeNew
  n := { n with isLeaf := true, size := bptSize - 1 }
  keys := []
  pointers := []
  totalNodes := 0
  counter := 0

lemma LeafLoop.start {n : Node} (hn : NodeShape n) : LeafLoop a numLeaves 0 (bulkStart n) where
  totalNodes := rfl
  counter := by simp [bulkStart]
  keys := ⟨rfl, by omega⟩
  pointers := ⟨rfl, by omega⟩
  isLeaf := rfl
  keys_length := hn.keys
  pointers_length := hn.pointers
  built := Built.nil
  leaves := by omega

/-- The leaves before any place where the value after the array is read and not there. -/
lemma bulkLeaves_ok {n : Node} (hn : NodeShape n) (hsize : 127 ≤ a.length) (i : ℕ)
    (hi : ∀ j < i, 127 * j < a.length)
    (hrest : ∀ j < i, 127 * (j + 1) = a.length → rest ≠ []) :
    ∃ s, (List.range i).foldlM (bulkLeaf (a ++ rest) a.length numLeaves) (bulkStart n) = .ok s ∧
      LeafLoop a numLeaves i s := by
  induction i with
  | zero => exact ⟨_, rfl, LeafLoop.start hn⟩
  | succ i ih =>
      obtain ⟨s, hok, hs⟩ := ih (fun j hj => hi j (by omega)) fun j hj => hrest j (by omega)
      obtain ⟨s', hok', hs'⟩ := bulkLeaf_ok hs hsize (hi i (by omega)) (hrest i (by omega))
      refine ⟨s', ?_, hs'⟩
      rw [List.range_succ, foldlM_append_ok]
      exact ⟨s, hok, by rw [List.foldlM_cons, hok']; rfl⟩

/-- A full last leaf without a value after the array. -/
lemma bulkLeaf_bounds {i : ℕ} {s : BulkState} (h : LeafLoop a numLeaves i s)
    (hlast : 127 * (i + 1) = a.length) :
    bulkLeaf a a.length numLeaves s i = .error .bounds := by
  have hcounter : s.counter = 127 * i := by rw [h.counter]; omega
  have hlt : 127 * i < a.length := by omega
  rw [bulkLeaf, hcounter, fetch_of_lt hlt, Outcome.ok_bind,
    sub32_of_le (by rw [show bptSize = 128 from rfl]; omega), show bptSize = 128 from rfl,
    if_neg (by omega), slice_of_le (by omega), Outcome.ok_bind, fetch,
    List.getElem?_eq_none (by omega)]
  rfl

end Leaves

/-! ### The interior layers -/

section Layers

variable {a : List ℤ} {numLeaves : ℕ}

lemma Heads.append {lead lead' : List ℕ} {k : Option ℤ} {q : Option ℕ} (h : Heads a lead k q) :
    Heads a (lead ++ lead') k q := by
  obtain ⟨k, p, c, hk, hp, hc, hkey⟩ := h
  exact ⟨k, p, c, hk, hp, getElem?_append_of_some hc, hkey⟩

/-- The arrays of a layer: each key is the first value under the node next to it, and the
first node leads to the first leaf. -/
structure Layer (a : List ℤ) (lead : List ℕ) (numNodes : ℕ) (keys : List ℤ)
    (pointers : List ℕ) : Prop where
  heads : ∀ j < numNodes, Heads a lead keys[j]? pointers[j]?
  first : ∀ q, pointers[0]? = some q → lead[q]? = some 0

namespace Layer

variable {lead : List ℕ} {numNodes : ℕ} {keys : List ℤ} {pointers : List ℕ}

lemma length_keys (h : Layer a lead numNodes keys pointers) : numNodes ≤ keys.length := by
  rcases Nat.eq_zero_or_pos numNodes with h0 | hpos
  · omega
  · obtain ⟨k, q, c, hk, -⟩ := h.heads (numNodes - 1) (by omega)
    have := (List.getElem?_eq_some_iff.mp hk).1
    omega

lemma length_pointers (h : Layer a lead numNodes keys pointers) :
    numNodes ≤ pointers.length := by
  rcases Nat.eq_zero_or_pos numNodes with h0 | hpos
  · omega
  · obtain ⟨k, q, c, -, hq, -⟩ := h.heads (numNodes - 1) (by omega)
    have := (List.getElem?_eq_some_iff.mp hq).1
    omega

/-- Filling an interior node with `r` pointers of the layer from `b` on, and the keys of all
but the first of them: its entries are those of the layer, and behind them those it had. -/
lemma fill (h : Layer a lead numNodes keys pointers) {n m : Node} {b r k : ℕ}
    (hb : b + r ≤ numNodes)
    (hkeys : m.keys = splice n.keys 0 ((keys.drop (b + 1)).take (r - 1)))
    (hpointers : m.pointers = splice n.pointers 0 ((pointers.drop b).take r))
    (hstale : ∀ j < k, r - 1 ≤ j → Heads a lead n.keys[j]? n.pointers[j + 1]?) :
    InnerEntries a lead m k := by
  have hklen := h.length_keys
  have hplen := h.length_pointers
  intro j hj
  rw [hkeys, hpointers, getElem?_splice_zero, getElem?_splice_zero, List.length_take,
    List.length_take, List.length_drop, List.length_drop]
  by_cases hlt : j < r - 1
  · rw [if_pos (by omega), if_pos (by omega), List.getElem?_take_of_lt hlt,
      List.getElem?_take_of_lt (by omega), List.getElem?_drop, List.getElem?_drop,
      show b + (j + 1) = b + 1 + j by omega]
    exact h.heads _ (by omega)
  · rw [if_neg (by omega), if_neg (by omega)]
    exact hstale j hj (by omega)

end Layer

/-- The state after `i` turns of the loop over the nodes of a layer. -/
structure InnerLoop (a : List ℤ) (numLeaves numNodes i : ℕ) (lead : List ℕ) (s : BulkState) :
    Prop where
  built : Built a numLeaves s.f.nodes lead
  totalNodes : s.totalNodes = s.f.nodes.length
  counter : s.counter = min (128 * i) numNodes
  layer : Layer a lead numNodes s.keys s.pointers
  isLeaf : s.n.isLeaf = false
  next : s.n.next = 0
  shape : NodeShape s.n
  stale : 0 < i → s.n.size = 127 ∧ InnerEntries a lead s.n 127

/-- What a turn of the loop does with the node it has filled. -/
lemma InnerLoop.write {numNodes i : ℕ} {lead : List ℕ} {s : BulkState}
    (h : InnerLoop a numLeaves numNodes i lead s) (hi : 128 * i < numNodes) {n : Node}
    {counter : ℕ} (hpos : n.pos = s.totalNodes) (hleaf : n.isLeaf = false) (hnext : n.next = 0)
    (hshape : NodeShape n)
    (hsize : n.size = 127) (hfirst : n.pointers[0]? = s.pointers[128 * i]?)
    (hin : InnerEntries a lead n 127) (hcounter : counter = min (128 * (i + 1)) numNodes) :
    ∃ key c, fetch .bounds s.keys (128 * i) = .ok key ∧
      InnerLoop a numLeaves numNodes (i + 1) (lead ++ [c])
        { f := writeNode s.f n, n := n, keys := s.keys.set i key,
          pointers := s.pointers.set i s.totalNodes, totalNodes := s.totalNodes + 1,
          counter := counter } ∧
      (writeNode s.f n).nodes = s.f.nodes ++ [n] := by
  obtain ⟨key, q, c, hkey, hq, hc, hleafKey⟩ := h.layer.heads (128 * i) hi
  have hklen := h.layer.length_keys
  have hplen := h.layer.length_pointers
  have hnodes : (writeNode s.f n).nodes = s.f.nodes ++ [n] := by
    rw [writeNode, hpos, h.totalNodes]
    exact writeAt_length _ _ _
  have hnew : (lead ++ [c])[s.totalNodes]? = some c := by
    rw [h.totalNodes, ← h.built.length_lead, List.getElem?_append_right le_rfl, Nat.sub_self]
    rfl
  refine ⟨key, c, fetch_eq_ok.mpr hkey,
    ⟨?_, ?_, hcounter, ⟨?_, ?_⟩, hleaf, hnext, hshape, ?_⟩, hnodes⟩
  · rw [hnodes]
    exact .inner h.built hleaf (fun _ => by omega) (hfirst.trans hq) hc (by rwa [hsize])
  · rw [hnodes, List.length_append, List.length_singleton, h.totalNodes]
  · intro j hj
    by_cases hij : i = j
    · subst hij
      rw [List.getElem?_set_self (by omega), List.getElem?_set_self (by omega)]
      exact ⟨key, _, c, rfl, rfl, hnew, hleafKey⟩
    · rw [List.getElem?_set_ne hij, List.getElem?_set_ne hij]
      exact (h.layer.heads j hj).append
  · intro p hp
    by_cases hi0 : i = 0
    · subst hi0
      rw [List.getElem?_set_self (by omega)] at hp
      cases hp
      rw [Nat.mul_zero] at hq
      rw [hnew, ← hc, h.layer.first q hq]
    · rw [List.getElem?_set_ne hi0] at hp
      exact getElem?_append_of_some (h.layer.first p hp)
  · exact fun _ => ⟨hsize, fun j hj => (hin j hj).append⟩

/-- **A turn of the loop over an interior layer.** -/
theorem bulkInner_ok {numNodes i : ℕ} (newItr : ℕ) {lead : List ℕ} {s : BulkState}
    (h : InnerLoop a numLeaves numNodes i lead s) (hN : 128 < numNodes)
    (hi : 128 * i < numNodes) :
    ∃ s' c n, bulkInner numNodes newItr s i = .ok s' ∧
      InnerLoop a numLeaves numNodes (i + 1) (lead ++ [c]) s' ∧
      s'.f.nodes = s.f.nodes ++ [n] ∧ n.isLeaf = false ∧ n.next = 0 := by
  have hcounter : s.counter = 128 * i := by rw [h.counter]; omega
  have hklen := h.layer.length_keys
  have hplen := h.layer.length_pointers
  have hmul : i * bptSize = 128 * i := by rw [show bptSize = 128 from rfl, Nat.mul_comm]
  have hshape : ∀ {keys : List ℤ} {pointers : List ℕ}, keys.length ≤ 127 →
      pointers.length ≤ 128 → ∀ m : Node, m.keys = splice s.n.keys 0 keys →
      m.pointers = splice s.n.pointers 0 pointers → NodeShape m := by
    intro keys pointers hk hp m hmk hmp
    refine ⟨?_, ?_⟩
    · rw [hmk]
      exact (length_splice (by rw [h.shape.keys]; omega)).trans h.shape.keys
    · rw [hmp]
      exact (length_splice (by rw [h.shape.pointers]; omega)).trans h.shape.pointers
  have hhead : ∀ {r : ℕ}, 1 ≤ r → 128 * i + r ≤ numNodes →
      (splice s.n.pointers 0 ((s.pointers.drop (128 * i)).take r))[0]?
        = s.pointers[128 * i]? := by
    intro r hr hr'
    rw [getElem?_splice_zero, if_pos (by rw [List.length_take, List.length_drop]; omega),
      List.getElem?_take_of_lt hr, List.getElem?_drop, Nat.add_zero]
  rw [bulkInner, fillInner, sub32_of_le (by rw [show bptSize = 128 from rfl]; omega),
    show bptSize = 128 from rfl, hcounter, Nat.mul_comm i 128]
  split_ifs with hlast hone
  · omega
  · have hpos : 0 < i := by omega
    have hall : numNodes = min (128 * (i + 1)) numNodes := by omega
    obtain ⟨hsize, hstale⟩ := h.stale hpos
    rw [slice_of_le (by omega), Outcome.ok_bind, slice_of_le (by omega), Outcome.ok_bind]
    simp only [Outcome.ok_bind]
    obtain ⟨key, c, hkey, hloop, hnodes⟩ := h.write hi
      (n := { s.n with
        keys := splice s.n.keys 0 ((s.keys.drop (128 * i + 1)).take (numNodes - 128 * i - 1))
        pointers := splice s.n.pointers 0 ((s.pointers.drop (128 * i)).take (numNodes - 128 * i))
        pos := s.totalNodes
        next := 0
        parent := s.totalNodes + newItr - i + i / 128 })
      rfl h.isLeaf rfl
      (hshape (by rw [List.length_take]; omega) (by rw [List.length_take]; omega) _ rfl rfl)
      hsize (hhead (by omega) (by omega))
      (h.layer.fill (n := s.n) (b := 128 * i) (r := numNodes - 128 * i) (by omega) rfl rfl
        fun j hj _ => hstale j hj)
      hall
    rw [hkey]
    exact ⟨_, c, _, rfl, hloop, hnodes, h.isLeaf, rfl⟩
  · have hall : 128 * i + 128 = min (128 * (i + 1)) numNodes := by omega
    rw [slice_of_le (by omega), Outcome.ok_bind, slice_of_le (by omega), Outcome.ok_bind]
    simp only [Outcome.ok_bind]
    obtain ⟨key, c, hkey, hloop, hnodes⟩ := h.write hi
      (n := { s.n with
        keys := splice s.n.keys 0 ((s.keys.drop (128 * i + 1)).take (128 - 1))
        pointers := splice s.n.pointers 0 ((s.pointers.drop (128 * i)).take 128)
        size := 128 - 1
        pos := s.totalNodes
        next := 0
        parent := s.totalNodes + newItr - i + i / 128 })
      rfl h.isLeaf rfl
      (hshape (by rw [List.length_take]; omega) (by rw [List.length_take]; omega) _ rfl rfl)
      rfl (hhead (by omega) (by omega))
      (h.layer.fill (n := s.n) (b := 128 * i) (r := 128) (by omega) rfl rfl
        fun j hj hle => by omega)
      hall
    rw [hkey]
    exact ⟨_, c, _, rfl, hloop, hnodes, h.isLeaf, rfl⟩

/-- A node over the leaves: it does not go on to another one, and is empty over a single
leaf. -/
structure Upper (numLeaves : ℕ) (n : Node) : Prop where
  isLeaf : n.isLeaf = false
  next : n.next = 0
  size : numLeaves = 1 → n.size = 0

/-- The turns of the loop over an interior layer. -/
lemma bulkInner_foldlM {numNodes : ℕ} (newItr : ℕ) {lead : List ℕ} {s : BulkState}
    (h : InnerLoop a numLeaves numNodes 0 lead s) (hN : 128 < numNodes)
    (hle : numNodes ≤ numLeaves) (i : ℕ) (hi : ∀ j < i, 128 * j < numNodes) :
    ∃ s' lead' more, (List.range i).foldlM (bulkInner numNodes newItr) s = .ok s' ∧
      InnerLoop a numLeaves numNodes i lead' s' ∧ s'.f.nodes = s.f.nodes ++ more ∧
      ∀ n ∈ more, Upper numLeaves n := by
  induction i with
  | zero => exact ⟨s, lead, [], rfl, h, (List.append_nil _).symm, by simp⟩
  | succ i ih =>
      obtain ⟨s', lead', more, hok, hs', hmore, hupper⟩ := ih fun j hj => hi j (by omega)
      obtain ⟨s'', c, n, hok', hs'', hn, hleaf, hnext⟩ :=
        bulkInner_ok newItr hs' hN (hi i (by omega))
      refine ⟨s'', lead' ++ [c], more ++ [n], ?_, hs'', ?_, ?_⟩
      · rw [List.range_succ, foldlM_append_ok]
        exact ⟨s', hok, by rw [List.foldlM_cons, hok']; rfl⟩
      · rw [hn, hmore, List.append_assoc]
      · intro m hm
        rcases List.mem_append.mp hm with hm | hm
        · exact hupper m hm
        · rw [List.mem_singleton.mp hm]
          exact ⟨hleaf, hnext, fun hone => by omega⟩

/-- The root. -/
lemma bulkRoot_ok {numNodes : ℕ} {lead : List ℕ} {s : BulkState} (cm : ColumnMeta)
    (h : InnerLoop a numLeaves numNodes 0 lead { s with counter := 0 }) (hpos : 1 ≤ numNodes)
    (hN : numNodes ≤ 128) (htwo : 2 ≤ numLeaves → 2 ≤ numNodes) (hle : numNodes ≤ numLeaves) :
    ∃ f root, bulkRoot cm numNodes s = .ok f ∧ Built a numLeaves f.nodes (lead ++ [0]) ∧
      f.nodes = s.f.nodes ++ [root] ∧ Upper numLeaves root ∧ f.m.root = s.f.nodes.length := by
  have hklen := h.layer.length_keys
  have hplen := h.layer.length_pointers
  simp only at hklen hplen
  obtain ⟨key, q, c, -, hq, -⟩ := h.layer.heads 0 (by omega)
  simp only at hq
  rw [bulkRoot, if_pos (by rw [show bptSize = 128 from rfl]; exact hN), slice_of_le (by omega),
    Outcome.ok_bind, slice_of_le (by omega), Outcome.ok_bind]
  have htotal : s.totalNodes = s.f.nodes.length := h.totalNodes
  have hfirst : (splice s.n.pointers 0 ((s.pointers.drop 0).take numNodes))[0]? = some q := by
    rw [getElem?_splice_zero, if_pos (by rw [List.length_take, List.length_drop]; omega),
      List.getElem?_take_of_lt (by omega), List.getElem?_drop, Nat.add_zero, hq]
  set root : Node :=
    { s.n with
      keys := splice s.n.keys 0 ((s.keys.drop 1).take (numNodes - 1))
      pointers := splice s.n.pointers 0 ((s.pointers.drop 0).take numNodes)
      parent := 0
      pos := s.totalNodes
      size := numNodes - 1 } with hroot
  have hnodes : (writeNode s.f root).nodes = s.f.nodes ++ [root] := by
    rw [writeNode, hroot]
    simp only [htotal]
    exact writeAt_length _ _ _
  refine ⟨_, root, rfl, ?_, hnodes, ⟨h.isLeaf, h.next, fun hone => ?_⟩, htotal⟩
  rotate_left
  · rw [hroot]
    simp only
    omega
  · rw [writeCm]
    simp only [hnodes]
    refine .inner h.built h.isLeaf (fun htwo' => ?_) hfirst (h.layer.first q hq) ?_
    · exact Nat.le_sub_of_add_le (htwo htwo')
    · refine h.layer.fill (n := s.n) (b := 0) (r := numNodes) (by omega) rfl rfl
        fun j hj hle => ?_
      have hj' : j < numNodes - 1 := hj
      omega

/-- **The interior layers and the root.** -/
theorem bulkLayers_ok (cm : ColumnMeta) (fuel : ℕ) :
    ∀ {numNodes : ℕ} {lead : List ℕ} {s : BulkState},
      InnerLoop a numLeaves numNodes 0 lead { s with counter := 0 } → 1 ≤ numNodes →
      (2 ≤ numLeaves → 2 ≤ numNodes) → numNodes ≤ numLeaves → numNodes < fuel →
      ∃ f lead' more, bulkLayers cm fuel numNodes s = .ok f ∧
        Built a numLeaves f.nodes lead' ∧ f.nodes = s.f.nodes ++ more ∧ more ≠ [] ∧
        (∀ n ∈ more, Upper numLeaves n) ∧ lead'[f.m.root]? = some 0 := by
  induction fuel with
  | zero => intro numNodes lead s _ _ _ _ hfuel; omega
  | succ fuel ih =>
      intro numNodes lead s h hpos htwo hle hfuel
      have hceil : ∀ x, x < getCeil numNodes bptSize ↔ 128 * x < numNodes := fun x => by
        rw [lt_getCeil_iff (by decide), show bptSize = 128 from rfl, Nat.mul_comm]
      rw [bulkLayers]
      split_ifs with hone
      · have hN : numNodes ≤ 128 := by
          have := (hceil 1).mpr
          omega
        obtain ⟨f, root, hok, hbuilt, hnodes, hupper, hroot⟩ :=
          bulkRoot_ok cm h hpos hN htwo hle
        refine ⟨f, lead ++ [0], [root], hok, hbuilt, hnodes, by simp, by simpa using hupper, ?_⟩
        rw [hroot, ← h.built.length_lead, List.getElem?_append_right le_rfl, Nat.sub_self]
        rfl
      · have hN : 128 < numNodes := by
          have h0 := (hceil 0).mpr
          have h1 := (hceil 1).mp
          omega
        have hlarger : 1 < getCeil numNodes bptSize := (hceil 1).mpr (by omega)
        have hsmaller : getCeil numNodes bptSize < numNodes := by
          have := (hceil (numNodes - 1)).mp
          omega
        obtain ⟨s', lead', more, hok, hs', hmore, hupper⟩ :=
          bulkInner_foldlM (getCeil numNodes bptSize) h hN hle
            (getCeil numNodes bptSize) fun j hj => (hceil j).mp hj
        have h' : InnerLoop a numLeaves (getCeil numNodes bptSize) 0 lead'
            { s' with counter := 0 } :=
          ⟨hs'.built, hs'.totalNodes, by simp,
            ⟨fun j hj => hs'.layer.heads j (by omega), hs'.layer.first⟩, hs'.isLeaf, hs'.next,
            hs'.shape, fun h => absurd h (lt_irrefl _)⟩
        obtain ⟨f, lead'', more', hok', hbuilt, hnodes, hne, hupper', hroot⟩ :=
          ih h' (by omega) (fun _ => by omega) (by omega) (by omega)
        refine ⟨f, lead'', more ++ more', ?_, hbuilt, ?_, by simp [hne], ?_, hroot⟩
        · rw [hok, Outcome.ok_bind]
          exact hok'
        · rw [hnodes, hmore, List.append_assoc]
        · intro n hn
          rcases List.mem_append.mp hn with hn | hn
          · exact hupper n hn
          · exact hupper' n hn

end Layers

end ColumnDb
