import ColumnDb.Bptree.BulkBuild
import ColumnDb.Bptree.Scan
import Mathlib.Data.List.TakeWhile

/-!
Searching a bulk-loaded B+ tree.

* `findLeaf_built`: the descent ends at the first leaf, or at one whose first value is below
  the key.
* `bulkLoad_ok`: after a bulk load the leaves hold the values in order, and the nodes over
  them are `Built`.
* `bulkLoad_searches_iff`: the search is right exactly when a list of ids has room for all rows, and
  the last leaf is not full, or it is the only one and the value after the array can be read.
-/

namespace ColumnDb

/-! ### The descent -/

/-- The leaf `c` is the first one or starts below the key. -/
def StartsBelow (a : List ℤ) (key : ℤ) (c : ℕ) : Prop := c = 0 ∨ ∃ k, leafKey a c = some k ∧ k < key

/-- **The descent** ends at a leaf that is the first one or starts below the key. -/
theorem findLeaf_built {a : List ℤ} {numLeaves : ℕ} {f : BptFile} {lead : List ℕ} {key : ℤ}
    (h : Built a numLeaves f.nodes lead) (fuel : ℕ) :
    ∀ {p : ℕ} {n : Node} {c : ℕ}, f.nodes[p]? = some n → lead[p]? = some c →
      StartsBelow a key c → p < fuel →
      ∃ c' leaf, findLeaf fuel f n key = .ok leaf ∧ f.nodes[c']? = some leaf ∧
        leaf.isLeaf = true ∧ StartsBelow a key c' := by
  induction fuel with
  | zero => intro p n c _ _ _ hp; omega
  | succ fuel ih =>
      intro p n c hn hc hstart hp
      rw [findLeaf]
      split_ifs with hleaf
      · obtain ⟨-, rfl⟩ | ⟨hl, -⟩ := h.get hn hc
        · exact ⟨c, n, rfl, hn, hleaf, hstart⟩
        · rw [hl] at hleaf
          cases hleaf
      · obtain ⟨hl, -⟩ | ⟨-, -, ⟨q, hqp, hq, hqc⟩, hin⟩ := h.get hn hc
        · exact absurd hl hleaf
        · have hchild : ∃ q < p, ∃ c', n.pointers[findLeafCounter n key]? = some q ∧
              lead[q]? = some c' ∧ StartsBelow a key c' := by
            rcases hj : findLeafCounter n key with _ | j
            · exact ⟨q, hqp, c, hq, hqc, hstart⟩
            · have hsize : j < n.size := Nat.lt_of_lt_of_le (by omega) (findLeafCounter_le n key)
              obtain ⟨k, q', c', hk, hqp', hq', hc', hkey⟩ := hin j hsize
              have hsep : n.seps[j]? = some k := by
                rw [Node.seps, List.getElem?_take_of_lt hsize, hk]
              have hlt : k < key := lt_of_lt_findLeafCounter (by omega) hsep
              exact ⟨q', hqp', c', hq', hc', Or.inr ⟨k, hkey, hlt⟩⟩
          obtain ⟨q, hqp, c', hq, hc', hstart'⟩ := hchild
          have hlt : q < f.nodes.length := by
            rw [← h.length_lead]
            exact (List.getElem?_eq_some_iff.mp hc').1
          have hm := List.getElem?_eq_getElem hlt
          obtain ⟨c'', leaf, hok, hrest⟩ := ih hm hc' hstart' (by omega)
          refine ⟨c'', leaf, ?_, hrest⟩
          rw [fetch_eq_ok.mpr hq, Outcome.ok_bind, loadNode, fetch_eq_ok.mpr hm, Outcome.ok_bind]
          exact hok

/-! ### The loaded file -/

section Loaded

variable {a : List ℤ}

/-- The number of leaves. -/
abbrev numLeaves (a : List ℤ) : ℕ := getCeil a.length (bptSize - 1)

lemma lt_numLeaves_iff {j : ℕ} : j < numLeaves a ↔ 127 * j < a.length := by
  rw [lt_getCeil_iff (by decide), show bptSize - 1 = 127 from rfl, Nat.mul_comm]

/-- The file after a bulk load. -/
structure Loaded (a : List ℤ) (f : BptFile) (lead : List ℕ) (more : List Node) : Prop where
  built : Built a (numLeaves a) f.nodes lead
  leaves : ∀ j < numLeaves a, ∃ n, f.nodes[j]? = some n ∧ n.isLeaf = true ∧
    n.entries = (leafVals a j).zipIdx (127 * j) ∧
    n.next = if 127 * (j + 1) ≤ a.length then j + 1 else 0
  drop : f.nodes.drop (numLeaves a) = more
  more_ne : more ≠ []
  upper : ∀ n ∈ more, Upper (numLeaves a) n
  root : lead[f.m.root]? = some 0

/-- **What a bulk load writes**, unless the last leaf is full and no value can be read after
the array. -/
theorem bulkLoad_ok (rest : List ℤ) {n : Node} (hn : NodeShape n) (hsize : 127 ≤ a.length)
    (hrest : a.length % 127 = 0 → rest ≠ []) :
    ∃ f lead more, bulkLoad .makeNew n (a ++ rest) a.length = .ok f ∧ Loaded a f lead more := by
  obtain ⟨s, hok, hs⟩ := @bulkLeaves_ok a rest (numLeaves a) n hn hsize (numLeaves a)
    (fun j hj => lt_numLeaves_iff.mp hj) fun j _ hj => hrest (by omega)
  have hpos : 0 < numLeaves a := lt_numLeaves_iff.mpr (by omega)
  have hlen : s.f.nodes.length = numLeaves a := by
    rw [← hs.built.length_lead, List.length_range]
  have hlayer : InnerLoop a (numLeaves a) (numLeaves a) 0 (List.range (numLeaves a))
      { s with n := { s.n with isLeaf := false, next := 0 }, counter := 0 } :=
    { built := hs.built
      totalNodes := by rw [hlen]; exact hs.totalNodes
      counter := by simp
      layer :=
        { heads := fun j hj => by
            obtain ⟨hk, hget⟩ := hs.keys
            have hlt : 127 * j < a.length := lt_numLeaves_iff.mp hj
            have hkey : leafKey a j = some a[127 * j] := List.getElem?_eq_getElem hlt
            exact ⟨_, j, j, (hget j hj).trans hkey, hs.pointers.2 j hj,
              by rw [List.getElem?_range hj], hkey⟩
          first := fun q hq => by
            have hzero := (hs.pointers.2 0 hpos).symm.trans hq
            cases hzero
            rw [List.getElem?_range hpos] }
      isLeaf := rfl
      next := rfl
      shape := ⟨hs.keys_length, hs.pointers_length⟩
      stale := fun h => absurd h (lt_irrefl _) }
  obtain ⟨f, lead, more, hok', hbuilt, hnodes, hne, hupper, hroot⟩ :=
    bulkLayers_ok { BptFile.makeNew.m with size := numLeaves a } (numLeaves a + 1)
      (s := { s with n := { s.n with isLeaf := false, next := 0 } }) hlayer hpos
      (fun h => h) le_rfl (Nat.lt_succ_self _)
  refine ⟨f, lead, more, ?_, hbuilt, fun j hj => ?_, ?_, hne, hupper, hroot⟩
  · refine Eq.trans (b := (List.range (numLeaves a)).foldlM
      (bulkLeaf (a ++ rest) a.length (numLeaves a)) (bulkStart n) >>= _) rfl ?_
    rw [hok, Outcome.ok_bind]
    exact hok'
  · obtain ⟨m, hm, hrest'⟩ := hs.leaves j hj
    exact ⟨m, by rw [hnodes]; exact getElem?_append_of_some hm, hrest'⟩
  · rw [hnodes, ← hlen, List.drop_left]

/-- The rows of the values in a range. -/
def rowsInRange (a : List ℤ) (low high : ℤ) : List ℕ :=
  (List.range a.length).filter fun i => decide (low ≤ a.getD i 0 ∧ a.getD i 0 ≤ high)

lemma hits_zipIdx (a : List ℤ) (low high : ℤ) :
    hits low high a.zipIdx = rowsInRange a low high := by
  have hzip : a.zipIdx = (List.range a.length).map fun i => (a.getD i 0, i) := by
    refine List.ext_getElem? fun i => ?_
    rw [List.getElem?_zipIdx, List.getElem?_map]
    rcases Nat.lt_or_ge i a.length with hi | hi
    · simp [hi]
    · simp [hi]
  rw [hits, hzip, List.filter_map, List.map_map, rowsInRange]
  simp [Function.comp_def]

lemma inKeyOrder_zipIdx {l : List ℤ} (hs : l.Pairwise (· ≤ ·)) (k : ℕ) :
    InKeyOrder (l.zipIdx k) := by
  have hmap : ((l.zipIdx k).map Prod.fst).Pairwise (· ≤ ·) := by rwa [List.zipIdx_map_fst]
  exact List.pairwise_map.mp hmap

variable {f : BptFile} {lead : List ℕ} {more : List Node}

namespace Loaded

lemma nodes_ne_nil (h : Loaded a f lead more) : f.nodes ≠ [] := by
  intro hnil
  have hdrop := h.drop
  rw [hnil, List.drop_nil] at hdrop
  exact h.more_ne hdrop.symm

lemma numLeaves_lt (h : Loaded a f lead more) : numLeaves a < f.nodes.length := by
  by_contra hge
  have hdrop := h.drop
  rw [List.drop_eq_nil_of_le (by omega)] at hdrop
  exact h.more_ne hdrop.symm

lemma getElem?_upper (h : Loaded a f lead more) {p : ℕ} {n : Node} (hp : numLeaves a ≤ p)
    (hn : f.nodes[p]? = some n) : Upper (numLeaves a) n := by
  refine h.upper n ?_
  have hget : (f.nodes.drop (numLeaves a))[p - numLeaves a]? = some n := by
    rw [List.getElem?_drop, show numLeaves a + (p - numLeaves a) = p by omega, hn]
  rw [h.drop] at hget
  exact List.mem_of_getElem? hget

/-- The chain of the leaves from `c` on, when it ends where it should: its entries are the
values from there on with their rows. -/
lemma chain (h : Loaded a f lead more) (hlast : a.length % 127 ≠ 0 ∨ a.length = 127) (d : ℕ) :
    ∀ {c : ℕ} {leaf : Node}, c + d + 1 = numLeaves a → f.nodes[c]? = some leaf →
      ∃ tail, LeafChain f (leaf :: tail) ∧
        (leaf :: tail).flatMap Node.entries = (a.drop (127 * c)).zipIdx (127 * c) ∧
        tail.length ≤ d + 1 := by
  induction d with
  | zero =>
      intro c leaf hc hget
      have hlt := lt_numLeaves_iff.mp (show c < numLeaves a by omega)
      have hge : ¬ 127 * (c + 1) < a.length := fun hlt' => by
        have := lt_numLeaves_iff.mpr hlt'
        omega
      obtain ⟨leaf', hget', -, hentries, hnext⟩ := h.leaves c (by omega)
      rw [hget] at hget'
      cases hget'
      have hvals : leafVals a c = a.drop (127 * c) :=
        List.take_of_length_le (by rw [List.length_drop]; omega)
      rw [hvals] at hentries
      by_cases hfull : 127 * (c + 1) ≤ a.length
      · -- the only leaf is full: its successor is the root, which has no entries
        rw [if_pos hfull] at hnext
        obtain rfl : c = 0 := by omega
        have hlen : 1 < f.nodes.length := by
          have := h.numLeaves_lt
          omega
        have hroot : f.nodes[1]? = some f.nodes[1] := List.getElem?_eq_getElem hlen
        have hupper := h.getElem?_upper (by omega) hroot
        refine ⟨[f.nodes[1]], ⟨?_, ?_, hupper.next, h.nodes_ne_nil⟩, ?_, by simp⟩
        · rw [hnext]; omega
        · rw [hnext]
          exact fetch_eq_ok.mpr hroot
        · have hempty : f.nodes[1].entries = [] := by
            rw [Node.entries, hupper.size (by omega), List.take_zero]
          rw [List.flatMap_cons, List.flatMap_cons, hempty, hentries]
          simp
      · rw [if_neg hfull] at hnext
        exact ⟨[], ⟨hnext, h.nodes_ne_nil⟩, by simp [hentries], by simp⟩
  | succ d ih =>
      intro c leaf hc hget
      have hlt := lt_numLeaves_iff.mp (show c + 1 < numLeaves a by omega)
      obtain ⟨leaf', hget', -, hentries, hnext⟩ := h.leaves c (by omega)
      rw [hget] at hget'
      cases hget'
      rw [if_pos hlt.le] at hnext
      obtain ⟨m, hm, -⟩ := h.leaves (c + 1) (by omega)
      obtain ⟨tail, hchain, htail, hlen⟩ := ih (c := c + 1) (by omega) hm
      refine ⟨m :: tail, ⟨?_, ?_, hchain⟩, ?_, by simpa using hlen⟩
      · rw [hnext]; omega
      · rw [hnext]
        exact fetch_eq_ok.mpr hm
      · have hvlen : (leafVals a c).length = 127 := by
          rw [leafVals, List.length_take, List.length_drop]
          omega
        have hsplit : a.drop (127 * c) = leafVals a c ++ a.drop (127 * (c + 1)) := by
          rw [leafVals, show 127 * (c + 1) = 127 * c + 127 by omega, ← List.drop_drop,
            List.take_append_drop]
        rw [List.flatMap_cons, hentries, htail, hsplit, List.zipIdx_append, hvlen]
        rfl

/-- The leaf at which the descent for `low` ends. -/
lemma findLeaf (h : Loaded a f lead more) (low : ℤ) :
    ∃ root c leaf, loadNode f f.m.root = .ok root ∧
      findLeaf (f.nodes.length + 1) f root low = .ok leaf ∧ f.nodes[c]? = some leaf ∧
      c < numLeaves a ∧ StartsBelow a low c := by
  have hroot : f.m.root < f.nodes.length := by
    rw [← h.built.length_lead]
    exact (List.getElem?_eq_some_iff.mp h.root).1
  have hfirst : StartsBelow a low 0 := Or.inl rfl
  obtain ⟨c, leaf, hok, hget, hleaf, hstart⟩ := findLeaf_built h.built
    (f.nodes.length + 1) (List.getElem?_eq_getElem hroot) h.root hfirst (by omega)
  refine ⟨f.nodes[f.m.root], c, leaf, fetch_of_lt hroot, hok, hget, ?_, hstart⟩
  by_contra hge
  have hupper := h.getElem?_upper (by omega) hget
  rw [hupper.isLeaf] at hleaf
  cases hleaf

/-- **The search after a bulk load** whose leaf chain ends where it should. -/
theorem search (h : Loaded a f lead more) (hs : a.Pairwise (· ≤ ·))
    (hlast : a.length % 127 ≠ 0 ∨ a.length = 127) (low high : ℤ) :
    foundRows f low high
      = .ok (rowsInRange a low high, (rowsInRange a low high).length) := by
  obtain ⟨root, c, leaf, hroot, hleaf, hget, hc, hstart⟩ := h.findLeaf low
  obtain ⟨tail, hchain, hentries, hlen⟩ :=
    h.chain hlast (numLeaves a - c - 1) (c := c) (by omega) hget
  have hlt := lt_numLeaves_iff.mp hc
  have hbefore : ∀ e ∈ (a.take (127 * c)).zipIdx, e.1 < low := by
    intro e he
    have hmem : e.1 ∈ a.take (127 * c) := by
      rw [← List.zipIdx_map_fst 0 (a.take (127 * c))]
      exact List.mem_map_of_mem he
    obtain rfl | ⟨k, hk, hlow⟩ := hstart
    · rw [Nat.mul_zero, List.take_zero] at hmem
      cases hmem
    · rw [leafKey, List.getElem?_eq_getElem hlt] at hk
      cases hk
      have hsplit := hs
      rw [← List.take_append_drop (127 * c) a, List.pairwise_append] at hsplit
      refine (hsplit.2.2 e.1 hmem a[127 * c] ?_).trans_lt hlow
      rw [List.drop_eq_getElem_cons hlt]
      exact List.mem_cons_self
  have hall : (a.take (127 * c)).zipIdx ++ (leaf :: tail).flatMap Node.entries = a.zipIdx := by
    conv_rhs => rw [← List.take_append_drop (127 * c) a]
    rw [hentries, List.zipIdx_append, List.length_take, min_eq_left hlt.le, Nat.zero_add]
  have horder : InKeyOrder ((leaf :: tail).flatMap Node.entries) := by
    rw [hentries]
    exact inKeyOrder_zipIdx (hs.sublist (List.drop_sublist _ _)) _
  rw [foundRows_eq high hroot hleaf hchain (by have := h.numLeaves_lt; omega) horder
    hbefore, hall, hits_zipIdx]

/-- When the last leaf is full, the scan passes every leaf, and goes on to the node after it. -/
lemma scan_leaf (h : Loaded a f lead more) (hs : a.Pairwise (· ≤ ·)) (hfull : a.length % 127 = 0)
    {low high : ℤ} (hall : ∀ v ∈ a, low ≤ v ∧ v ≤ high) {c fuel : ℕ} {leaf : Node}
    {acc acc' : List ℕ} {count count' : ℕ} (hc : c < numLeaves a)
    (hget : f.nodes[c]? = some leaf)
    (hscan : scanLeaves putId low high fuel f leaf acc count = .ok (acc', count')) :
    ∃ fuel' next acc₁, f.nodes[c + 1]? = some next ∧
      scanLeaves putId low high fuel' f next acc₁ (count + 127) = .ok (acc', count') := by
  have hlt := lt_numLeaves_iff.mp hc
  obtain ⟨leaf', hget', -, hentries, hnext⟩ := h.leaves c hc
  rw [hget] at hget'
  cases hget'
  rw [if_pos (by omega)] at hnext
  have hin : ∀ e ∈ leaf.entries, low ≤ e.1 ∧ e.1 ≤ high := by
    intro e he
    have hmem : e.1 ∈ leafVals a c := by
      rw [← List.zipIdx_map_fst (127 * c) (leafVals a c), ← hentries]
      exact List.mem_map_of_mem he
    exact hall e.1 (List.mem_of_mem_drop (List.mem_of_mem_take hmem))
  have horder : InKeyOrder leaf.entries := by
    rw [hentries]
    exact inKeyOrder_zipIdx
      (hs.sublist ((List.take_sublist _ _).trans (List.drop_sublist _ _))) _
  have hnone : ¬ ∃ e ∈ leaf.entries, high < e.1 := by
    rintro ⟨e, he, hgt⟩
    exact absurd (hin e he).2 (not_le.mpr hgt)
  have hlen : leaf.entries.length = 127 := by
    rw [hentries, List.length_zipIdx, leafVals, List.length_take, List.length_drop]
    omega
  cases fuel with
  | zero => cases hscan
  | succ fuel =>
      rw [scanLeaves, scanEntries_eq _ _ _ horder, Outcome.ok_bind] at hscan
      simp only [hnone, decide_false, Bool.false_eq_true, if_false, hnext, Nat.succ_ne_zero]
        at hscan
      obtain ⟨next, hload, hscan⟩ := Outcome.bind_eq_ok.mp hscan
      rw [length_hits_of_forall hin, hlen] at hscan
      exact ⟨fuel, next, _, fetch_eq_ok.mp hload, hscan⟩

/-- When the last leaf is full and not the only one, the scan goes on into the first interior
node, and counts its first key. -/
lemma count_lt (h : Loaded a f lead more) (hs : a.Pairwise (· ≤ ·)) (hfull : a.length % 127 = 0)
    (htwo : 2 ≤ numLeaves a) {low high : ℤ} (hall : ∀ v ∈ a, low ≤ v ∧ v ≤ high) (d : ℕ) :
    ∀ {c fuel : ℕ} {leaf : Node} {acc acc' : List ℕ} {count count' : ℕ},
      c + d + 1 = numLeaves a → f.nodes[c]? = some leaf →
      scanLeaves putId low high fuel f leaf acc count = .ok (acc', count') →
      count + (a.length - 127 * c) < count' := by
  induction d with
  | zero =>
      intro c fuel leaf acc acc' count count' hc hget hscan
      have hlt := lt_numLeaves_iff.mp (show c < numLeaves a by omega)
      have hge : ¬ 127 * (c + 1) < a.length := fun hlt' => by
        have := lt_numLeaves_iff.mpr hlt'
        omega
      obtain ⟨fuel', next, acc₁, hnext, hscan'⟩ :=
        h.scan_leaf hs hfull hall (by omega) hget hscan
      have hupper := h.getElem?_upper (by omega) hnext
      have hlead : c + 1 < lead.length := by
        rw [h.built.length_lead]
        exact (List.getElem?_eq_some_iff.mp hnext).1
      -- the interior node starts with the first value of some leaf
      obtain ⟨hleaf, -⟩ | ⟨-, hsize, -, hin⟩ :=
        h.built.get hnext (List.getElem?_eq_getElem hlead)
      · rw [hupper.isLeaf] at hleaf
        cases hleaf
      · obtain ⟨k, q, c', hk, -, hq, -, hkey⟩ := hin 0 (hsize htwo)
        have hne : next.pointers ≠ [] := by
          rintro hnil
          rw [hnil] at hq
          cases hq
        obtain ⟨row, es, hentries⟩ := Node.entries_eq_cons hk hne (hsize htwo)
        have := scanLeaves_count_lt hentries (hall k (List.mem_of_getElem? hkey)) hscan'
        omega
  | succ d ih =>
      intro c fuel leaf acc acc' count count' hc hget hscan
      have hlt := lt_numLeaves_iff.mp (show c + 1 < numLeaves a by omega)
      obtain ⟨fuel', next, acc₁, hnext, hscan'⟩ :=
        h.scan_leaf hs hfull hall (by omega) hget hscan
      have := ih (c := c + 1) (by omega) hnext hscan'
      omega

end Loaded

/-- The bulk load returns, and the search in the file it leaves returns exactly the rows in
any range. The file is fresh, `n` is the node that `malloc` returned, and `rest` the memory
after the array. -/
def BulkLoadSearches (n : Node) (a rest : List ℤ) : Prop :=
  ∃ f, bulkLoad .makeNew n (a ++ rest) a.length = .ok f ∧
    ∀ low high : ℤ, low ≤ high → ∃ ids, findRecordInRangeId f low high = .ok (ids, ids.length) ∧
      ids.Perm (rowsInRange a low high)

/-- A full last leaf without a value after the array ends the load. -/
lemma bulkLoad_bounds {n : Node} (hn : NodeShape n) (hsize : 127 ≤ a.length)
    (hfull : a.length % 127 = 0) : bulkLoad .makeNew n a a.length = .error .bounds := by
  obtain ⟨k, hk⟩ : ∃ k, numLeaves a = k + 1 :=
    Nat.exists_eq_succ_of_ne_zero (Nat.pos_iff_ne_zero.mp (lt_numLeaves_iff.mpr (by omega)))
  have hlt := lt_numLeaves_iff.mp (show k < numLeaves a by omega)
  have hge : ¬ 127 * (k + 1) < a.length := fun h => by
    have := lt_numLeaves_iff.mpr h
    omega
  obtain ⟨s, hok, hs⟩ := @bulkLeaves_ok a [] (numLeaves a) n hn hsize k
    (fun j hj => by omega) fun j hj => by omega
  rw [List.append_nil] at hok
  have hleaves : (List.range (numLeaves a)).foldlM (bulkLeaf a a.length (numLeaves a))
      (bulkStart n) = .error .bounds := by
    rw [hk, List.range_succ, List.foldlM_append, ← hk, hok, Outcome.ok_bind, List.foldlM_cons,
      bulkLeaf_bounds hs (by omega)]
    rfl
  refine Eq.trans (b := (List.range (numLeaves a)).foldlM
    (bulkLeaf a a.length (numLeaves a)) (bulkStart n) >>= _) rfl ?_
  rw [hleaves]
  rfl

/-- The range of all values. -/
lemma exists_range (a : List ℤ) (hpos : 0 < a.length) :
    ∃ low high : ℤ, low ≤ high ∧ ∀ v ∈ a, low ≤ v ∧ v ≤ high := by
  obtain ⟨low, hlow⟩ := (List.finite_toSet a).bddBelow
  obtain ⟨high, hhigh⟩ := (List.finite_toSet a).bddAbove
  have hall : ∀ v ∈ a, low ≤ v ∧ v ≤ high := fun v hv => ⟨hlow hv, hhigh hv⟩
  have hle := hall a[0] (List.getElem_mem hpos)
  exact ⟨low, high, hle.1.trans hle.2, hall⟩

lemma length_rowsInRange_le (a : List ℤ) (low high : ℤ) :
    (rowsInRange a low high).length ≤ a.length :=
  (List.length_filter_le _ _).trans_eq List.length_range

/-- All rows are in the range of all values. -/
lemma length_rowsInRange {a : List ℤ} {low high : ℤ} (hall : ∀ v ∈ a, low ≤ v ∧ v ≤ high) :
    (rowsInRange a low high).length = a.length := by
  rw [rowsInRange, List.filter_eq_self.mpr, List.length_range]
  intro i hi
  have hlt := List.mem_range.mp hi
  have hget : a.getD i 0 = a[i] := by simp [hlt]
  rw [hget]
  exact decide_eq_true (hall _ (List.getElem_mem hlt))

/-- **Searching a bulk-loaded tree** of fewer than `2 ^ 31` values. The search is right exactly when
the list of ids has room for all rows, and the last leaf is not full, or it is the only leaf and the
value after the array can be read. -/
theorem bulkLoad_searches_iff (n : Node) (hn : NodeShape n) (a rest : List ℤ)
    (hs : a.Pairwise (· ≤ ·)) (hsize : 127 ≤ a.length) (_hint : a.length < 2 ^ 31) :
    BulkLoadSearches n a rest ↔
      a.length ≤ 2 ^ 29 ∧ (a.length % 127 ≠ 0 ∨ (a.length = 127 ∧ rest ≠ [])) := by
  have hpos : 0 < a.length := by omega
  obtain ⟨low, high, hle, hall⟩ := exists_range a hpos
  constructor
  · rintro ⟨f, hok, hsearch⟩
    obtain ⟨ids, hsearch, hperm⟩ := hsearch low high hle
    obtain ⟨hfind, hroom⟩ := findRecordInRangeId_iff.mp hsearch
    refine ⟨by rwa [hperm.length_eq, length_rowsInRange hall] at hroom, ?_⟩
    by_contra hcon
    rw [not_or, not_not, not_and, not_not] at hcon
    obtain ⟨hfull, hrest⟩ := hcon
    by_cases hnil : rest = []
    · rw [hnil, List.append_nil, bulkLoad_bounds hn hsize hfull] at hok
      cases hok
    · have hne : a.length ≠ 127 := fun h => hnil (hrest h)
      have htwo : 2 ≤ numLeaves a := lt_numLeaves_iff.mpr (by omega)
      obtain ⟨f', lead, more, hok', hloaded⟩ := bulkLoad_ok rest hn hsize fun _ => hnil
      rw [hok] at hok'
      cases hok'
      -- in the range of all values the scan counts one row too many
      obtain ⟨root, c, leaf, hroot, hleaf, hget, hc, rfl | ⟨k, hk, hlt⟩⟩ := hloaded.findLeaf low
      · rw [foundRows, findRecordInRangeType, hroot, Outcome.ok_bind, hleaf,
          Outcome.ok_bind] at hfind
        have hcount := hloaded.count_lt hs hfull htwo hall (numLeaves a - 1) (by omega) hget hfind
        have hids : ids.length ≤ a.length := hperm.length_eq ▸ length_rowsInRange_le a low high
        omega
      · exact absurd hlt (not_lt.mpr (hall _ (List.mem_of_getElem? hk)).1)
  · rintro ⟨hroom, hlast⟩
    obtain ⟨f, lead, more, hok, hloaded⟩ := bulkLoad_ok rest hn hsize fun hfull =>
      (hlast.resolve_left fun h => h hfull).2
    refine ⟨f, hok, fun low high _ => ⟨_, findRecordInRangeId_iff.mpr ⟨?_, ?_⟩, List.Perm.refl _⟩⟩
    · exact hloaded.search hs (hlast.imp_right And.left) low high
    · exact (length_rowsInRange_le a low high).trans hroom

/-- `bulkLoad_searches_iff` at `128` equal values, which fill one leaf and start another. -/
theorem equalValues_searched : BulkLoadSearches Node.zero (List.replicate 128 7) [] :=
  (bulkLoad_searches_iff Node.zero ⟨rfl, rfl⟩ (List.replicate 128 7) []
    (List.pairwise_replicate.mpr (Or.inr le_rfl)) (by simp) (by simp)).mpr
      ⟨by simp, Or.inl (by simp)⟩

/-- `254` zeros fill two leaves. The load reads the value after them. When it is there, the
search for `0` counts `255` rows, the last one from the root. -/
theorem fullLeaves_count_root :
    bulkLoad .makeNew Node.zero (List.replicate 254 0) 254 = .error .bounds ∧
    ((bulkLoad .makeNew Node.zero (List.replicate 254 0 ++ [0]) 254).bind fun f =>
      (findRecordInRangeId f 0 0).map Prod.snd) = .ok 255 ∧
    ¬ BulkLoadSearches Node.zero (List.replicate 254 0) [0] := by
  have hcount : ((bulkLoad .makeNew Node.zero (List.replicate 254 0 ++ [0]) 254).bind fun f =>
      (findRecordInRangeId f 0 0).map Prod.snd) = .ok 255 := by decide +kernel
  refine ⟨by decide +kernel, hcount, ?_⟩
  rintro ⟨f, hok, hsearch⟩
  obtain ⟨ids, hfind, hperm⟩ := hsearch 0 0 le_rfl
  rw [List.length_replicate] at hok
  rw [hok] at hcount
  change (findRecordInRangeId f 0 0).map Prod.snd = .ok 255 at hcount
  rw [hfind] at hcount
  have hids : ids.length = 255 := Except.ok.inj hcount
  have hle := length_rowsInRange_le (List.replicate 254 0) 0 0
  rw [List.length_replicate] at hle
  rw [← hperm.length_eq] at hle
  omega

end Loaded

end ColumnDb
