import ColumnDb.Bptree.Node
import ColumnDb.Join.Loop
import ColumnDb.Library.Blocks
import ColumnDb.Store.BitVector

/-!
The join with a B+ tree (`helper_join.c`).

One side of the join is a tree column and is not materialised: the tree is searched for each
value of the other side, and the rows it returns count if the bit vector of the tree variable
marks them.

* `treeJoin_lengths`: the two lists of ids grow together.
* `Cached`: the result that the loop keeps is the one of the last search, so that every turn
  has the result of a search for its own value.
* `treeJoin_matches_iff`: if a search finds the rows with a value, the join has the pairs of the
  nested loop over the marked rows exactly when there is room for them.
-/

namespace ColumnDb

/-- The state of the loop of `treejoin`: the ids of the tree side and of the other side, and
the result of the last search with the value that was searched. -/
structure TreeJoinState where
  ids : JoinIds
  searched : Option ℤ
  idList : List ℕ
  resultCount : ℕ

/-- A turn of the inner loop of `treejoin`: the id `j` of the search result. -/
def treeAppendTurn (treeBv : BitVector) (idList : List ℕ) (row : ℕ) (ids : JoinIds) (j : ℕ) :
    Outcome JoinIds := do
  let pos ← fetch .bounds idList j
  if ← isMarked treeBv pos then ids.append pos row else .ok ids

/-- The search of `treejoin` for a value: one that equals the value before it is not searched
again. -/
def treeSearch (tree : BptFile) (s : TreeJoinState) (val : ℤ) : Outcome (List ℕ × ℕ) :=
  if s.searched = some val then .ok (s.idList, s.resultCount)
  else findRecordInRangeId tree val val

/-- A turn of the loop of `treejoin`. -/
def treeTurn (tree : BptFile) (treeBv : BitVector) (s : TreeJoinState) (x : ℤ × ℕ) :
    Outcome TreeJoinState := do
  let (idList, resultCount) ← treeSearch tree s x.1
  let ids ← (List.range resultCount).foldlM (treeAppendTurn treeBv idList x.2) s.ids
  .ok { ids := ids, searched := some x.1, idList := idList, resultCount := resultCount }

/-- The loop of `treejoin`, with the tree side first. -/
def treeJoinSides (tree : BptFile) (treeBv : BitVector) (vals : List (ℤ × ℕ)) :
    Outcome JoinIds := do
  let s ← vals.foldlM (treeTurn tree treeBv)
    { ids := JoinIds.empty, searched := none, idList := [], resultCount := 0 }
  .ok s.ids

/-- A side of `treejoin`: the tree of its column, if it is one, its bit vector, whether its
variable is materialised, and the values that the worker has read for it. -/
structure TreeJoinSide where
  tree : Option BptFile
  bv : BitVector
  isMaterialized : Bool
  m : List (ℤ × ℕ)

/-- `treejoin`. With `killOnErr` a `log_err` ends the program. -/
def treeJoin (killOnErr : Bool) (v1 v2 : TreeJoinSide) : Outcome JoinIds :=
  match v1.tree, v2.tree with
  | some tree, _ =>
      if killOnErr ∧ (¬ v2.isMaterialized ∨ v2.m = []) then .error .exit
      else treeJoinSides tree v1.bv v2.m
  | none, some tree =>
      if killOnErr ∧ v1.m = [] then .error .exit
      else do
        let ids ← treeJoinSides tree v2.bv v1.m
        .ok ids.swap
  | none, none =>
      if killOnErr then .error .exit
      else .error .undefined

lemma treeAppendTurn_lengths {treeBv : BitVector} {idList : List ℕ} {row j : ℕ}
    {ids ids' : JoinIds} (hlen : ids.jv1.vals.length = ids.jv2.vals.length)
    (h : treeAppendTurn treeBv idList row ids j = .ok ids') :
    ids'.jv1.vals.length = ids'.jv2.vals.length := by
  obtain ⟨pos, -, h⟩ := Outcome.bind_eq_ok.mp h
  obtain ⟨b, -, h⟩ := Outcome.bind_eq_ok.mp h
  split_ifs at h
  · exact JoinIds.append_lengths hlen h
  · cases h
    exact hlen

lemma treeTurn_lengths {tree : BptFile} {treeBv : BitVector} {s s' : TreeJoinState} {x : ℤ × ℕ}
    (hlen : s.ids.jv1.vals.length = s.ids.jv2.vals.length) (h : treeTurn tree treeBv s x = .ok s') :
    s'.ids.jv1.vals.length = s'.ids.jv2.vals.length := by
  obtain ⟨⟨idList, resultCount⟩, -, h⟩ := Outcome.bind_eq_ok.mp h
  obtain ⟨ids, hids, h⟩ := Outcome.bind_eq_ok.mp h
  cases h
  exact foldlM_inv (P := fun ids : JoinIds => ids.jv1.vals.length = ids.jv2.vals.length)
    (fun _ _ _ hs hstep => treeAppendTurn_lengths hs hstep) _ _ _ hlen hids

lemma treeJoinSides_lengths {tree : BptFile} {treeBv : BitVector} {vals : List (ℤ × ℕ)}
    {ids : JoinIds} (h : treeJoinSides tree treeBv vals = .ok ids) :
    ids.jv1.vals.length = ids.jv2.vals.length := by
  obtain ⟨s, hs, h⟩ := Outcome.bind_eq_ok.mp h
  cases h
  exact foldlM_inv (P := fun s : TreeJoinState => s.ids.jv1.vals.length = s.ids.jv2.vals.length)
    (fun _ _ _ hs hstep => treeTurn_lengths hs hstep) vals _ s rfl hs

/-- **The lists of a tree join** have equal lengths, whichever side is the tree. -/
theorem treeJoin_lengths {killOnErr : Bool} {v1 v2 : TreeJoinSide} {ids : JoinIds}
    (h : treeJoin killOnErr v1 v2 = .ok ids) : ids.jv1.vals.length = ids.jv2.vals.length := by
  rw [treeJoin] at h
  split at h
  · split_ifs at h
    exact treeJoinSides_lengths h
  · split_ifs at h
    obtain ⟨sides, hsides, h⟩ := Outcome.bind_eq_ok.mp h
    cases h
    exact (treeJoinSides_lengths hsides).symm
  · split_ifs at h

/-! ### The pairs -/

/-- The rows of a column that have the value `v`. -/
def rowsWith (f : DataFile) (v : ℤ) : List ℕ :=
  (List.range f.m.size).filter fun i => decide (f.stored[i]? = some v)

/-- The marked rows of a column, each with its value. -/
def markedRows (f : DataFile) (bv : BitVector) : List (ℤ × ℕ) :=
  f.stored.zipIdx.filter fun x => bv.bit x.2

/-- A search for `v` finds the rows of the column with that value, once each, and counts them. -/
def FindsRows (f : DataFile) (tree : BptFile) (v : ℤ) : Prop :=
  ∃ rows, findRecordInRangeId tree v v = .ok (rows, rows.length) ∧ rows.Perm (rowsWith f v)

/-- The marked rows with a value. -/
lemma map_snd_filter_markedRows (f : DataFile) (bv : BitVector) (v : ℤ) :
    ((markedRows f bv).filter fun x => decide (x.1 = v)).map Prod.snd
      = (rowsWith f v).filter bv.bit := by
  have hrange : List.range f.m.size = f.stored.zipIdx.map Prod.snd := by
    rw [List.zipIdx_map_snd, f.length_stored, List.range_eq_range']
  rw [markedRows, rowsWith, hrange, List.filter_map, List.filter_map, List.filter_comm]
  congr 2
  refine List.filter_congr fun x hx => ?_
  have hget := List.mem_zipIdx_iff_getElem?.mp hx
  simp [hget]

section Turns

variable {tree : BptFile} {bv : BitVector}

/-- The pairs of the rows that a search has found. -/
def foundPairs (bv : BitVector) (rows : List ℕ) (row : ℕ) : List (ℕ × ℕ) :=
  (rows.filter bv.bit).map fun pos => (pos, row)

/-- The inner loop appends the pairs of the marked rows. -/
lemma treeAppendTurn_foldlM {rows : List ℕ} (hrows : ∀ pos ∈ rows, pos < bv.size) (row : ℕ)
    (ids : JoinIds) :
    (List.range rows.length).foldlM (treeAppendTurn bv rows row) ids
      = ids.extend (foundPairs bv rows row) := by
  have hturns : ∀ (rows : List ℕ) (ids : JoinIds), (∀ pos ∈ rows, pos < bv.size) →
      rows.foldlM (fun ids pos => do
        if ← isMarked bv pos then ids.append pos row else .ok ids) ids
        = ids.extend (foundPairs bv rows row) := by
    intro rows
    induction rows with
    | nil =>
        intro ids _
        rw [foundPairs, List.filter_nil, List.map_nil, JoinIds.extend_nil]
        rfl
    | cons pos rows ih =>
        intro ids h
        obtain ⟨hpos, hrest⟩ := List.forall_mem_cons.mp h
        rw [List.foldlM_cons, isMarked_of_lt hpos, Outcome.ok_bind, foundPairs]
        cases hbit : bv.bit pos with
        | true =>
            rw [if_pos rfl, List.filter_cons_of_pos hbit, List.map_cons, JoinIds.extend_cons]
            exact congrArg _ (funext fun ids => ih ids hrest)
        | false =>
            rw [if_neg Bool.false_ne_true, Outcome.ok_bind, ih _ hrest,
              List.filter_cons_of_neg (by rw [hbit]; exact Bool.false_ne_true)]
            rfl
  rw [List.range_eq_range', ← hturns rows ids hrows]
  exact foldlM_fetch .bounds rows _ 0 rows.length ids (Nat.zero_add _)

/-- The state has the result of a search for the value that it names. -/
def Cached (tree : BptFile) (s : TreeJoinState) : Prop :=
  ∀ v, s.searched = some v → findRecordInRangeId tree v v = .ok (s.idList, s.resultCount)

/-- A value that is not searched again has the result of its search. -/
lemma treeSearch_eq {s : TreeJoinState} (hs : Cached tree s) (v : ℤ) :
    treeSearch tree s v = findRecordInRangeId tree v v := by
  rw [treeSearch]
  split_ifs with hsame
  · exact (hs v hsame).symm
  · rfl

/-- **A turn of the join** appends the pairs of the marked rows with its value, and keeps the
result of its search. -/
lemma treeTurn_eq {s : TreeJoinState} {x : ℤ × ℕ} {rows : List ℕ} (hs : Cached tree s)
    (hfind : findRecordInRangeId tree x.1 x.1 = .ok (rows, rows.length))
    (hrows : ∀ pos ∈ rows, pos < bv.size) :
    treeTurn tree bv s x = s.ids.extend (foundPairs bv rows x.2) >>= fun ids =>
      .ok { ids := ids, searched := some x.1, idList := rows, resultCount := rows.length } := by
  rw [treeTurn, treeSearch_eq hs, hfind, Outcome.ok_bind]
  simp only
  rw [treeAppendTurn_foldlM hrows]

/-- The state after a turn. -/
lemma Cached.turn {v : ℤ} {rows : List ℕ}
    (hfind : findRecordInRangeId tree v v = .ok (rows, rows.length)) (ids : JoinIds) :
    Cached tree { ids := ids, searched := some v, idList := rows, resultCount := rows.length } := by
  intro w hw
  obtain rfl := Option.some.inj hw
  exact hfind

/-- The pairs of the marked rows of a tree column with a list of values and rows. -/
def treePairs (f : DataFile) (bv : BitVector) (vals : List (ℤ × ℕ)) : List (ℕ × ℕ) :=
  matching (fun y x => decide (x.1 = y.1)) (fun y x => (x.2, y.2)) vals (markedRows f bv)

lemma treePairs_cons (f : DataFile) (x : ℤ × ℕ) (vals : List (ℤ × ℕ)) :
    treePairs f bv (x :: vals)
      = foundPairs bv (rowsWith f x.1) x.2 ++ treePairs f bv vals := by
  rw [treePairs, matching_cons, foundPairs, ← map_snd_filter_markedRows, List.map_map]
  rfl

/-- **The loop of the join** appends the pairs of its values. -/
lemma treeTurn_foldlM {f : DataFile} (hsize : bv.size = f.m.size) {vals : List (ℤ × ℕ)}
    (hfind : ∀ x ∈ vals, FindsRows f tree x.1) :
    ∃ ps, ps.Perm (treePairs f bv vals) ∧ ∀ s : TreeJoinState, Cached tree s →
      (vals.foldlM (treeTurn tree bv) s >>= fun s => .ok s.ids) = s.ids.extend ps := by
  induction vals with
  | nil => exact ⟨[], .nil, fun s _ => rfl⟩
  | cons x vals ih =>
      obtain ⟨⟨rows, hsearch, hperm⟩, hrest⟩ := List.forall_mem_cons.mp hfind
      have hrows : ∀ pos ∈ rows, pos < bv.size := fun pos hpos => by
        have hmem := (List.mem_filter.mp (hperm.mem_iff.mp hpos)).1
        exact hsize ▸ List.mem_range.mp hmem
      obtain ⟨ps, hps, hfold⟩ := ih hrest
      refine ⟨foundPairs bv rows x.2 ++ ps, ?_, fun s hs => ?_⟩
      · rw [treePairs_cons]
        exact ((hperm.filter _).map _).append hps
      · rw [List.foldlM_cons, treeTurn_eq hs hsearch hrows, JoinIds.extend_append, bind_assoc,
          bind_assoc]
        refine congrArg _ (funext fun ids => ?_)
        rw [Outcome.ok_bind, hfold _ (Cached.turn hsearch ids)]

lemma treeJoinSides_eq {f : DataFile} (hsize : bv.size = f.m.size) {vals : List (ℤ × ℕ)}
    (hfind : ∀ x ∈ vals, FindsRows f tree x.1) :
    ∃ ps, treeJoinSides tree bv vals = JoinIds.empty.extend ps ∧
      ps.Perm (treePairs f bv vals) := by
  obtain ⟨ps, hperm, hfold⟩ := treeTurn_foldlM hsize hfind
  refine ⟨ps, hfold { ids := JoinIds.empty, searched := none, idList := [], resultCount := 0 } ?_,
    hperm⟩
  intro v hv
  cases hv

end Turns

section Sides

variable {f : DataFile} {tree : BptFile} {killOnErr : Bool} {v1 v2 : TreeJoinSide}

/-- **A tree join with the tree first** appends the pairs of its marked rows and the other side. -/
lemma treeJoin_first_appends (htree : v1.tree = some tree) (hsize : v1.bv.size = f.m.size)
    (hkill : killOnErr = true → v2.isMaterialized = true ∧ v2.m ≠ [])
    (hfind : ∀ x ∈ v2.m, FindsRows f tree x.1) :
    JoinAppends (treeJoin killOnErr v1 v2) (markedRows f v1.bv) v2.m := by
  obtain ⟨ps, hok, hperm⟩ := treeJoinSides_eq hsize hfind
  refine ⟨ps, ?_, hperm.trans (matching_swap _ _ _ _)⟩
  rw [treeJoin, htree]
  simp only
  rw [if_neg fun h => h.2.elim (not_not_intro (hkill h.1).1) (hkill h.1).2]
  exact hok

/-- **A tree join with the tree second.** -/
lemma treeJoin_second_appends (hnone : v1.tree = none) (htree : v2.tree = some tree)
    (hsize : v2.bv.size = f.m.size) (hkill : killOnErr = true → v1.m ≠ [])
    (hfind : ∀ x ∈ v1.m, FindsRows f tree x.1) :
    JoinAppends (treeJoin killOnErr v1 v2) v1.m (markedRows f v2.bv) := by
  obtain ⟨ps, hok, hperm⟩ := treeJoinSides_eq hsize hfind
  refine ⟨ps.map Prod.swap, ?_, (hperm.map _).trans (List.Perm.of_eq ?_)⟩
  · rw [treeJoin, hnone, htree]
    simp only
    rw [if_neg fun h => hkill h.1 h.2, hok]
    exact JoinIds.extend_swap _ _
  · rw [treePairs, map_matching, joinPairs]
    simp only [Prod.swap_prod_mk, eq_comm]

end Sides

/-- **The tree join** has the pairs of the nested loop over the marked rows of the tree column and
the other side, whichever side is the tree, when every search finds the rows with its value,
exactly when the lists have room for the pairs. A side has fewer than `2 ^ 31` rows, as in
`Materialized`. -/
theorem treeJoin_matches_iff {f : DataFile} {tree : BptFile} {bv : BitVector}
    {v1 v2 : TreeJoinSide} (hsize : bv.size = f.m.size) :
    (v1.tree = some tree → v1.bv = bv → v2.m.length < 2 ^ 31 →
      (∀ x ∈ v2.m, FindsRows f tree x.1) →
      (JoinMatches (treeJoin false v1 v2) (markedRows f bv) v2.m ↔
        (joinPairs (markedRows f bv) v2.m).length ≤ 2 ^ 29)) ∧
    (v1.tree = none → v2.tree = some tree → v2.bv = bv → v1.m.length < 2 ^ 31 →
      (∀ x ∈ v1.m, FindsRows f tree x.1) →
      (JoinMatches (treeJoin false v1 v2) v1.m (markedRows f bv) ↔
        (joinPairs v1.m (markedRows f bv)).length ≤ 2 ^ 29)) := by
  constructor
  · rintro htree rfl - hfind
    exact (treeJoin_first_appends htree hsize (fun hkill => absurd hkill (by decide))
      hfind).matches_iff
  · rintro hnone htree rfl - hfind
    exact (treeJoin_second_appends hnone htree hsize (fun hkill => absurd hkill (by decide))
      hfind).matches_iff

/-- A tree column with the values `4, 7, 7`. -/
def sevensFile : DataFile where
  m := { type := .bptree, size := 3, nextFree := 0, root := 0 }
  cells := [4, 7, 7]
  size_le := le_rfl

/-- The tree of `sevensFile`, a leaf. -/
def sevensTree : BptFile where
  m := { type := .bptree, size := 1, nextFree := 1, root := 0 }
  nodes :=
    [{ Node.zero with
        keys := [4, 7, 7] ++ List.replicate 124 0
        pointers := [0, 1, 2] ++ List.replicate 125 0
        isLeaf := true
        size := 3 }]

/-- The side of `sevensTree`, with all rows marked. -/
def sevensSide : TreeJoinSide where
  tree := some sevensTree
  bv := markAllBv (createBv 3)
  isMaterialized := false
  m := []

/-- The values `7, 7, 9`, of which the second is not searched again. -/
def otherSevens : TreeJoinSide where
  tree := none
  bv := createBv 0
  isMaterialized := true
  m := [(7, 0), (7, 1), (9, 2)]

/-- A search in `sevensTree`. -/
lemma findsRows_seven : FindsRows sevensFile sevensTree 7 := ⟨[1, 2], rfl, by decide⟩

/-- `treeJoin_matches_iff` with the tree first, and with the tree second. -/
theorem sevensSide_joins :
    JoinMatches (treeJoin false sevensSide otherSevens)
      (markedRows sevensFile (markAllBv (createBv 3))) otherSevens.m ∧
    JoinMatches (treeJoin false otherSevens sevensSide) otherSevens.m
      (markedRows sevensFile (markAllBv (createBv 3))) := by
  have hnine : FindsRows sevensFile sevensTree 9 := ⟨[], rfl, by decide⟩
  have hfind : ∀ x ∈ otherSevens.m, FindsRows sevensFile sevensTree x.1 := by
    rintro x hx
    rcases List.mem_cons.mp hx with rfl | hx
    · exact findsRows_seven
    · rcases List.mem_cons.mp hx with rfl | hx
      · exact findsRows_seven
      · obtain rfl := List.mem_singleton.mp hx
        exact hnine
  exact ⟨((treeJoin_matches_iff rfl).1 rfl rfl (by decide) hfind).mpr (by decide),
    ((treeJoin_matches_iff rfl).2 rfl rfl rfl (by decide) hfind).mpr (by decide)⟩

/-- A side of `n` rows with the value `7`. -/
def sevensOf (n : ℕ) : TreeJoinSide where
  tree := none
  bv := createBv 0
  isMaterialized := true
  m := sevens n

lemma findsRows_sevensOf (n : ℕ) : ∀ x ∈ (sevensOf n).m, FindsRows sevensFile sevensTree x.1 :=
  fun x hx => (forall_mem_sevens n x hx).symm ▸ findsRows_seven

/-- Each of these rows has two partners in `sevensTree`. -/
lemma length_joinPairs_sevensOf (n : ℕ) :
    (joinPairs (markedRows sevensFile (markAllBv (createBv 3))) (sevensOf n).m).length = 2 * n := by
  have htwo : (markedRows sevensFile (markAllBv (createBv 3))).countP
      (fun x => decide (x.1 = 7)) = 2 := by decide
  rw [show (sevensOf n).m = sevens n from rfl,
    length_joinPairs_of_forall_eq _ (forall_mem_sevens n), htwo, length_sevens]

/-- With `2 ^ 28 + 1` of them the join writes behind the memory of a list. -/
theorem manySevens_treeJoin :
    (∀ x ∈ (sevensOf (2 ^ 28 + 1)).m, FindsRows sevensFile sevensTree x.1) ∧
    ¬ JoinMatches (treeJoin false sevensSide (sevensOf (2 ^ 28 + 1)))
      (markedRows sevensFile (markAllBv (createBv 3))) (sevensOf (2 ^ 28 + 1)).m := by
  refine ⟨findsRows_sevensOf _, fun hmatches => ?_⟩
  have hlen := (@treeJoin_first_appends sevensFile _ false sevensSide _ rfl rfl
    (fun hkill => absurd hkill (by decide)) (findsRows_sevensOf _)).matches_iff.mp hmatches
  rw [show sevensSide.bv = markAllBv (createBv 3) from rfl, length_joinPairs_sevensOf] at hlen
  exact absurd hlen (by decide)

end ColumnDb
