import ColumnDb.Bptree.Node

/-!
What the scan of the leaf chain finds.

* `hits`: the rows of the entries whose key lies in a range, in their order.
* `LeafChain`: leaves one after the other, each `next` the position of the one after it and
  the last one `0`.
* `scanLeaves_chain`: over a chain with its entries in order, the scan finds exactly the
  `hits`, although it ends at the first key above the range.
* `foundRows_eq`: so the search is right when the chain starts at the leaf the descent ends at,
  and every entry before that leaf is below the range.
* `findRecordInRangeId_iff`: its list of ids takes up to `2 ^ 29` rows.
-/

namespace ColumnDb

/-- The rows of the entries with keys in `[low, high]`. -/
def hits (low high : ℤ) (es : List (ℤ × ℕ)) : List ℕ :=
  (es.filter fun e => low ≤ e.1 ∧ e.1 ≤ high).map Prod.snd

section Hits

variable {low high : ℤ}

@[simp] lemma hits_nil : hits low high [] = [] := rfl

lemma hits_append (es es' : List (ℤ × ℕ)) :
    hits low high (es ++ es') = hits low high es ++ hits low high es' := by
  simp [hits]

lemma hits_cons_of_mem {e : ℤ × ℕ} (es : List (ℤ × ℕ)) (h : low ≤ e.1 ∧ e.1 ≤ high) :
    hits low high (e :: es) = e.2 :: hits low high es := by
  rw [hits, List.filter_cons_of_pos (by simpa using h)]
  rfl

lemma hits_cons_of_not_mem {e : ℤ × ℕ} (es : List (ℤ × ℕ)) (h : ¬ (low ≤ e.1 ∧ e.1 ≤ high)) :
    hits low high (e :: es) = hits low high es := by
  rw [hits, List.filter_cons_of_neg (by simpa using h)]
  rfl

/-- Entries above the range, or below it, hold no hits. -/
lemma hits_eq_nil {es : List (ℤ × ℕ)} (h : ∀ e ∈ es, ¬ (low ≤ e.1 ∧ e.1 ≤ high)) :
    hits low high es = [] := by
  rw [hits, List.map_eq_nil_iff, List.filter_eq_nil_iff]
  exact fun e he => by simpa using h e he

/-- Entries that all lie in the range are hits. -/
lemma length_hits_of_forall {es : List (ℤ × ℕ)} (h : ∀ e ∈ es, low ≤ e.1 ∧ e.1 ≤ high) :
    (hits low high es).length = es.length := by
  rw [hits, List.length_map, List.filter_eq_self.mpr fun e he => by simpa using h e he]

lemma hits_perm {es es' : List (ℤ × ℕ)} (h : es.Perm es') :
    (hits low high es).Perm (hits low high es') := (h.filter _).map _

end Hits

/-- The entries come in the order of their keys. -/
def InKeyOrder (es : List (ℤ × ℕ)) : Prop := es.Pairwise fun a b => a.1 ≤ b.1

section Scan

variable {low high : ℤ}

/-- What a search for `foundRows` does with a row. -/
abbrev putId (ids : List ℕ) (row : ℕ) : Outcome (List ℕ) := .ok (ids ++ [row])

/-- The scan of one leaf in key order. -/
lemma scanEntries_eq (es : List (ℤ × ℕ)) : ∀ (acc : List ℕ) (count : ℕ), InKeyOrder es →
    scanEntries putId low high es acc count
      = .ok (acc ++ hits low high es, count + (hits low high es).length,
          decide (∃ e ∈ es, high < e.1)) := by
  induction es with
  | nil => simp [scanEntries]
  | cons e es ih =>
      intro acc count hs
      obtain ⟨he, hs'⟩ := List.pairwise_cons.mp hs
      obtain ⟨key, row⟩ := e
      rw [scanEntries]
      split_ifs with hin habove
      · have hhigh : ¬ high < key := not_lt.mpr hin.2
        rw [Outcome.ok_bind, ih _ _ hs', hits_cons_of_mem es hin]
        simp only [List.append_assoc, List.singleton_append, List.length_cons,
          List.exists_mem_cons_iff, hhigh, false_or]
        congr 3
        omega
      · have hnone : hits low high ((key, row) :: es) = [] := by
          refine hits_eq_nil fun e' he' => ?_
          rcases List.mem_cons.mp he' with rfl | he'
          · exact hin
          · have := he e' he'
            simp only at this
            omega
        rw [hnone, List.append_nil]
        simp [habove]
      · rw [ih _ _ hs', hits_cons_of_not_mem es hin]
        simp only [List.exists_mem_cons_iff, habove, false_or]

/-- A chain of leaves. -/
def LeafChain (f : BptFile) : List Node → Prop
  | [] => False
  | [n] => n.next = 0 ∧ f.nodes ≠ []
  | n :: m :: rest => n.next ≠ 0 ∧ loadNode f n.next = .ok m ∧ LeafChain f (m :: rest)

/-- **The scan of a chain** finds exactly the entries in the range. -/
theorem scanLeaves_chain {f : BptFile} (rest : List Node) :
    ∀ (n : Node) (fuel : ℕ) (acc : List ℕ) (count : ℕ), LeafChain f (n :: rest) →
      InKeyOrder ((n :: rest).flatMap Node.entries) → rest.length < fuel →
      scanLeaves putId low high fuel f n acc count
        = .ok (acc ++ hits low high ((n :: rest).flatMap Node.entries),
            count + (hits low high ((n :: rest).flatMap Node.entries)).length) := by
  induction rest with
  | nil =>
      intro n fuel acc count hchain hs hfuel
      obtain ⟨hnext, hne⟩ := hchain
      obtain ⟨fuel, rfl⟩ := Nat.exists_eq_succ_of_ne_zero (by omega : fuel ≠ 0)
      rw [List.flatMap_cons, List.flatMap_nil, List.append_nil] at hs ⊢
      rw [scanLeaves, scanEntries_eq _ _ _ hs, Outcome.ok_bind]
      simp only
      split_ifs
      · rfl
      · have hpos : 0 < f.nodes.length := List.length_pos_iff.mpr hne
        have hload : loadNode f 0 = .ok f.nodes[0] := fetch_of_lt hpos
        rw [hnext, hload]
        rfl
  | cons m rest ih =>
      intro n fuel acc count hchain hs hfuel
      obtain ⟨hnext, hload, hchain'⟩ := hchain
      obtain ⟨fuel, rfl⟩ := Nat.exists_eq_succ_of_ne_zero (by omega : fuel ≠ 0)
      rw [List.flatMap_cons] at hs ⊢
      obtain ⟨hsn, hs', hle⟩ := List.pairwise_append.mp hs
      rw [scanLeaves, scanEntries_eq _ _ _ hsn, Outcome.ok_bind, hits_append]
      simp only
      split_ifs with hdone
      · -- a key above the range: the leaves after it hold no hits
        obtain ⟨e, he, hlt⟩ := of_decide_eq_true hdone
        have hnone : hits low high ((m :: rest).flatMap Node.entries) = [] := by
          refine hits_eq_nil fun e' he' => ?_
          have := hle e he e' he'
          omega
        rw [hnone, List.append_nil]
      · rw [hload, Outcome.ok_bind, ih m fuel _ _ hchain' hs'
          (by simpa using hfuel), List.append_assoc, List.length_append, Nat.add_assoc]

/-- The scan counts upwards. -/
lemma scanEntries_count_le (es : List (ℤ × ℕ)) : ∀ (acc acc' : List ℕ) (count count' : ℕ)
    (done : Bool), scanEntries putId low high es acc count = .ok (acc', count', done) →
    count ≤ count' := by
  induction es with
  | nil =>
      intro acc acc' count count' done h
      cases h
      exact le_rfl
  | cons e es ih =>
      intro acc acc' count count' done h
      rw [scanEntries] at h
      split_ifs at h
      · exact (Nat.le_succ _).trans (ih _ _ _ _ _ h)
      · cases h
        exact le_rfl
      · exact ih _ _ _ _ _ h

lemma scanLeaves_count_le {f : BptFile} (fuel : ℕ) : ∀ (n : Node) (acc acc' : List ℕ)
    (count count' : ℕ), scanLeaves putId low high fuel f n acc count = .ok (acc', count') →
    count ≤ count' := by
  induction fuel with
  | zero =>
      intro n acc acc' count count' h
      cases h
  | succ fuel ih =>
      intro n acc acc' count count' h
      rw [scanLeaves] at h
      obtain ⟨⟨acc₁, count₁, done⟩, hscan, h⟩ := Outcome.bind_eq_ok.mp h
      have hle := scanEntries_count_le _ _ _ _ _ _ hscan
      simp only at h
      split_ifs at h
      · cases h
        exact hle
      · obtain ⟨next, -, h⟩ := Outcome.bind_eq_ok.mp h
        cases h
        exact hle
      · obtain ⟨next, -, h⟩ := Outcome.bind_eq_ok.mp h
        exact hle.trans (ih _ _ _ _ _ h)

/-- A scan hands over the same rows, whatever is done with them. -/
lemma scanEntries_rows {σ : Type} {put : σ → ℕ → Outcome σ} (es : List (ℤ × ℕ)) :
    ∀ {acc acc' : σ} {count count' : ℕ} {done : Bool},
      scanEntries put low high es acc count = .ok (acc', count', done) →
      ∃ rows : List ℕ, rows.foldlM put acc = .ok acc' ∧
        ∀ ids, scanEntries putId low high es ids count = .ok (ids ++ rows, count', done) := by
  induction es with
  | nil =>
      intro acc acc' count count' done h
      cases h
      exact ⟨[], rfl, fun ids => by rw [scanEntries, List.append_nil]⟩
  | cons e es ih =>
      intro acc acc' count count' done h
      obtain ⟨key, row⟩ := e
      rw [scanEntries] at h
      split_ifs at h with hin habove
      · obtain ⟨acc₁, hput, h⟩ := Outcome.bind_eq_ok.mp h
        obtain ⟨rows, hrows, hids⟩ := ih h
        refine ⟨row :: rows, by rw [List.foldlM_cons, hput]; exact hrows, fun ids => ?_⟩
        rw [scanEntries, if_pos hin, Outcome.ok_bind, hids, List.append_assoc,
          List.singleton_append]
      · cases h
        refine ⟨[], rfl, fun ids => ?_⟩
        rw [scanEntries, if_neg hin, if_pos habove, List.append_nil]
      · obtain ⟨rows, hrows, hids⟩ := ih h
        exact ⟨rows, hrows, fun ids => by rw [scanEntries, if_neg hin, if_neg habove, hids]⟩

lemma scanLeaves_rows {σ : Type} {put : σ → ℕ → Outcome σ} {f : BptFile} (fuel : ℕ) :
    ∀ {n : Node} {acc acc' : σ} {count count' : ℕ},
      scanLeaves put low high fuel f n acc count = .ok (acc', count') →
      ∃ rows : List ℕ, rows.foldlM put acc = .ok acc' ∧
        ∀ ids, scanLeaves putId low high fuel f n ids count = .ok (ids ++ rows, count') := by
  induction fuel with
  | zero =>
      intro n acc acc' count count' h
      cases h
  | succ fuel ih =>
      intro n acc acc' count count' h
      rw [scanLeaves] at h
      obtain ⟨⟨acc₁, count₁, done⟩, hscan, h⟩ := Outcome.bind_eq_ok.mp h
      obtain ⟨rows, hrows, hids⟩ := scanEntries_rows _ hscan
      simp only at h
      split_ifs at h with hdone hlast
      · cases h
        exact ⟨rows, hrows, fun ids => by
          simp only [scanLeaves, hids, Outcome.ok_bind, if_pos hdone]⟩
      · obtain ⟨next, hnext, h⟩ := Outcome.bind_eq_ok.mp h
        cases h
        refine ⟨rows, hrows, fun ids => ?_⟩
        simp only [scanLeaves, hids, Outcome.ok_bind, if_neg hdone, hnext, if_pos hlast]
      · obtain ⟨next, hnext, h⟩ := Outcome.bind_eq_ok.mp h
        obtain ⟨rows', hrows', hids'⟩ := ih h
        refine ⟨rows ++ rows', foldlM_append_ok.mpr ⟨_, hrows, hrows'⟩, fun ids => ?_⟩
        simp only [scanLeaves, hids, Outcome.ok_bind, if_neg hdone, hnext, if_neg hlast, hids',
          List.append_assoc]

/-- What `_find_record_in_range_type` does with the rows, it does with those that are found. -/
lemma findRecordInRangeType_rows {σ : Type} {put : σ → ℕ → Outcome σ} {f : BptFile} {acc acc' : σ}
    {n : ℕ} (h : findRecordInRangeType put low high f acc = .ok (acc', n)) :
    ∃ rows, foundRows f low high = .ok (rows, n) ∧ rows.foldlM put acc = .ok acc' := by
  obtain ⟨root, hroot, h⟩ := Outcome.bind_eq_ok.mp h
  obtain ⟨leaf, hleaf, h⟩ := Outcome.bind_eq_ok.mp h
  obtain ⟨rows, hrows, hids⟩ := scanLeaves_rows _ h
  refine ⟨rows, ?_, hrows⟩
  rw [foundRows, findRecordInRangeType, hroot, Outcome.ok_bind, hleaf, Outcome.ok_bind,
    hids, List.nil_append]

/-- A scan that finds rows hands them over one after the other. -/
lemma scanEntries_put {σ : Type} {put : σ → ℕ → Outcome σ} (es : List (ℤ × ℕ)) :
    ∀ {ids ids' : List ℕ} {count count' : ℕ} {done : Bool},
      scanEntries putId low high es ids count = .ok (ids', count', done) →
      ∃ rows, ids' = ids ++ rows ∧ ∀ acc, scanEntries put low high es acc count
        = rows.foldlM put acc >>= fun acc' => .ok (acc', count', done) := by
  induction es with
  | nil =>
      intro ids ids' count count' done h
      cases h
      exact ⟨[], (List.append_nil _).symm, fun acc => rfl⟩
  | cons e es ih =>
      intro ids ids' count count' done h
      obtain ⟨key, row⟩ := e
      rw [scanEntries] at h
      split_ifs at h with hin habove
      · obtain ⟨rows, rfl, hput⟩ := ih h
        refine ⟨row :: rows, by rw [List.append_assoc, List.singleton_append], fun acc => ?_⟩
        rw [scanEntries, if_pos hin, List.foldlM_cons, bind_assoc]
        exact congrArg _ (funext hput)
      · cases h
        refine ⟨[], (List.append_nil _).symm, fun acc => ?_⟩
        rw [scanEntries, if_neg hin, if_pos habove]
        rfl
      · obtain ⟨rows, hrows, hput⟩ := ih h
        exact ⟨rows, hrows, fun acc => by rw [scanEntries, if_neg hin, if_neg habove, hput]⟩

lemma scanLeaves_put {σ : Type} {put : σ → ℕ → Outcome σ} {f : BptFile} (fuel : ℕ) :
    ∀ {n : Node} {ids ids' : List ℕ} {count count' : ℕ},
      scanLeaves putId low high fuel f n ids count = .ok (ids', count') →
      ∃ rows, ids' = ids ++ rows ∧ ∀ acc, scanLeaves put low high fuel f n acc count
        = rows.foldlM put acc >>= fun acc' => .ok (acc', count') := by
  induction fuel with
  | zero =>
      intro n ids ids' count count' h
      cases h
  | succ fuel ih =>
      intro n ids ids' count count' h
      rw [scanLeaves] at h
      obtain ⟨⟨ids₁, count₁, done⟩, hscan, h⟩ := Outcome.bind_eq_ok.mp h
      obtain ⟨rows, rfl, hput⟩ := scanEntries_put _ hscan
      simp only at h
      split_ifs at h with hdone hlast
      · cases h
        refine ⟨rows, rfl, fun acc => ?_⟩
        rw [scanLeaves, hput, bind_assoc]
        exact congrArg _ (funext fun acc => by simp only [Outcome.ok_bind, if_pos hdone])
      · obtain ⟨next, hnext, h⟩ := Outcome.bind_eq_ok.mp h
        cases h
        refine ⟨rows, rfl, fun acc => ?_⟩
        rw [scanLeaves, hput, bind_assoc]
        exact congrArg _ (funext fun acc => by
          simp only [Outcome.ok_bind, if_neg hdone, hnext, if_pos hlast])
      · obtain ⟨next, hnext, h⟩ := Outcome.bind_eq_ok.mp h
        obtain ⟨rows', hrows', hput'⟩ := ih h
        refine ⟨rows ++ rows', by rw [hrows', List.append_assoc], fun acc => ?_⟩
        rw [scanLeaves, hput, bind_assoc, List.foldlM_append, bind_assoc]
        exact congrArg _ (funext fun acc => by
          simp only [Outcome.ok_bind, if_neg hdone, hnext, if_neg hlast, hput'])

/-- A search that finds rows hands them over one after the other, whatever is done with them. -/
lemma findRecordInRangeType_eq {σ : Type} (put : σ → ℕ → Outcome σ) {f : BptFile} {rows : List ℕ}
    {n : ℕ} (h : foundRows f low high = .ok (rows, n)) (acc : σ) :
    findRecordInRangeType put low high f acc
      = rows.foldlM put acc >>= fun acc' => .ok (acc', n) := by
  obtain ⟨root, hroot, h⟩ := Outcome.bind_eq_ok.mp h
  obtain ⟨leaf, hleaf, h⟩ := Outcome.bind_eq_ok.mp h
  obtain ⟨rows', rfl, hput⟩ : ∃ rows', rows = [] ++ rows' ∧ ∀ acc,
      scanLeaves put low high (f.nodes.length + 1) f leaf acc 0
        = rows'.foldlM put acc >>= fun acc' => .ok (acc', n) := scanLeaves_put _ h
  rw [findRecordInRangeType, hroot, Outcome.ok_bind, hleaf, Outcome.ok_bind, hput]

/-- **The list of ids** has the rows that are found, as long as there is room for them. -/
theorem findRecordInRangeId_iff {f : BptFile} {rows : List ℕ} {n : ℕ} :
    findRecordInRangeId f low high = .ok (rows, n) ↔
      foundRows f low high = .ok (rows, n) ∧ rows.length ≤ 2 ^ 29 := by
  constructor
  · intro h
    obtain ⟨⟨ids, k⟩, hsearch, h⟩ := Outcome.bind_eq_ok.mp h
    cases h
    obtain ⟨rows, hrows, hall⟩ := findRecordInRangeType_rows hsearch
    have hvals : ids.vals = rows := appendAll_vals rows hall
    rw [hvals, ← greatestLength_four]
    exact ⟨hrows, (appendAll_iff (by decide) rows).mp ⟨ids, hall⟩⟩
  · rintro ⟨hrows, hlen⟩
    obtain ⟨ids, hall, hvals⟩ := appendAll_four hlen
    rw [appendAll] at hall
    rw [findRecordInRangeId, findRecordInRangeType_eq appendList hrows, hall, Outcome.ok_bind,
      Outcome.ok_bind, ← hvals]

/-- What a scan sees first in a node, whether it is a leaf or not. -/
lemma Node.entries_eq_cons {n : Node} {key : ℤ} (hkey : n.keys[0]? = some key)
    (hpointers : n.pointers ≠ []) (hsize : 1 ≤ n.size) :
    ∃ row es, n.entries = (key, row) :: es := by
  obtain ⟨row, pointers, hp⟩ := List.exists_cons_of_ne_nil hpointers
  obtain ⟨size, hs⟩ := Nat.exists_eq_succ_of_ne_zero (by omega : n.size ≠ 0)
  cases hk : n.keys with
  | nil => rw [hk] at hkey; cases hkey
  | cons k keys =>
      rw [hk, List.getElem?_cons_zero] at hkey
      cases hkey
      exact ⟨row, (keys.zip pointers).take size, by rw [Node.entries, hk, hp, hs]; rfl⟩

/-- A node whose first entry is in the range adds to the count. -/
lemma scanLeaves_count_lt {f : BptFile} {fuel : ℕ} {n : Node} {acc acc' : List ℕ}
    {count count' : ℕ} {e : ℤ × ℕ} {es : List (ℤ × ℕ)} (hn : n.entries = e :: es)
    (he : low ≤ e.1 ∧ e.1 ≤ high)
    (h : scanLeaves putId low high fuel f n acc count = .ok (acc', count')) : count < count' := by
  cases fuel with
  | zero => cases h
  | succ fuel =>
      rw [scanLeaves] at h
      obtain ⟨⟨acc₁, count₁, done⟩, hscan, h⟩ := Outcome.bind_eq_ok.mp h
      have hlt : count < count₁ := by
        rw [hn, scanEntries, if_pos he] at hscan
        exact scanEntries_count_le _ _ _ _ _ _ hscan
      simp only at h
      split_ifs at h
      · cases h
        exact hlt
      · obtain ⟨next, -, h⟩ := Outcome.bind_eq_ok.mp h
        cases h
        exact hlt
      · obtain ⟨next, -, h⟩ := Outcome.bind_eq_ok.mp h
        exact hlt.trans_le (scanLeaves_count_le _ _ _ _ _ _ h)

/-- The search is right when its descent ends at a leaf of a chain in key order, and all
entries in front of that leaf are below the range. -/
lemma foundRows_eq (high : ℤ) {f : BptFile} {root leaf : Node} {before : List (ℤ × ℕ)}
    {rest : List Node} (hroot : loadNode f f.m.root = .ok root)
    (hleaf : findLeaf (f.nodes.length + 1) f root low = .ok leaf)
    (hchain : LeafChain f (leaf :: rest)) (hlen : rest.length ≤ f.nodes.length)
    (hs : InKeyOrder ((leaf :: rest).flatMap Node.entries))
    (hbefore : ∀ e ∈ before, e.1 < low) :
    foundRows f low high
      = .ok (hits low high (before ++ (leaf :: rest).flatMap Node.entries),
          (hits low high (before ++ (leaf :: rest).flatMap Node.entries)).length) := by
  have hnone : hits low high before = [] := hits_eq_nil fun e he => by
    have := hbefore e he
    omega
  rw [foundRows, findRecordInRangeType, hroot, Outcome.ok_bind, hleaf, Outcome.ok_bind,
    scanLeaves_chain rest leaf (f.nodes.length + 1) [] 0 hchain hs (by omega), hits_append, hnone,
    List.nil_append, Nat.zero_add]

end Scan

end ColumnDb
