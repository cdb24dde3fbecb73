import ColumnDb.Join.Loop
import ColumnDb.Store.Column

/-!
The hash join (`helper_join.c`).

The smaller side goes into a table laid out by the low bits of the values: a first pass
counts the values of each bucket (`countPass`), a running sum turns the counts into the
starts of the buckets (`bucketOffsets`), a second pass places the values (`placePass`), and
the other side is looked up bucket by bucket (`probePass`).

* The counts, the starts and the table are those of `bucket`, `bucketStart` and `Filled`:
  `countPass_ok`, `bucketOffsets_eq`, `placePass_ok`.
* `hashJoin_appends`: the join reads nothing that was not written, and appends the pairs of the
  nested loop in some order, whichever side the table holds.
* `hashJoin_matches_iff`: so it matches the nested loop exactly when there is room for the pairs.
-/

namespace ColumnDb

/-! ### The functions of the source -/

/-- The loop that counts the bits of `temp`. -/
def numBits (temp : ℕ) : ℕ :=
  if _h : 0 < temp then numBits (temp / 2) + 1 else 0
termination_by temp

/-- `val & hash_mask` for the value of a pair, which is converted to `uint32_t`. -/
def bucketOf (hashMask : ℕ) (x : ℤ × ℕ) : ℕ := (x.1 % 2 ^ 32).toNat &&& hashMask

/-- `counts[b]++`. -/
def bump (counts : List ℕ) (b : ℕ) : Outcome (List ℕ) := do
  let n ← fetch .bounds counts b
  .ok (counts.set b (n + 1))

/-- The first pass: how many values each bucket holds. -/
def countPass (hashMask : ℕ) (hashVal : List (ℤ × ℕ)) (remap : List ℕ) : Outcome (List ℕ) :=
  hashVal.foldlM (fun remap x => bump remap (bucketOf hashMask x)) remap

/-- The running sum: every count is replaced by the sum of those before it. -/
def bucketOffsets : List ℕ → ℕ → List ℕ × ℕ
  | [], sum => ([], sum)
  | n :: counts, sum =>
      let (remap, total) := bucketOffsets counts (sum + n)
      (sum :: remap, total)

/-- A turn of the second pass: a pair goes to the next free place of its bucket. The table is
not initialised: `none` are the places not written yet. -/
def placeTurn (hashMask : ℕ) (s : List (Option (ℤ × ℕ)) × List ℕ) (x : ℤ × ℕ) :
    Outcome (List (Option (ℤ × ℕ)) × List ℕ) := do
  let index ← fetch .bounds s.2 (bucketOf hashMask x)
  if index < s.1.length then do
    let remapCount ← bump s.2 (bucketOf hashMask x)
    .ok (s.1.set index (some x), remapCount)
  else .error .bounds

/-- A turn of the loop down a bucket. -/
def probeTurn (hashTable : List (Option (ℤ × ℕ))) (y : ℤ × ℕ) (ids : JoinIds) (hashIndex : ℕ) :
    Outcome JoinIds := do
  match ← fetch .bounds hashTable hashIndex with
  | none => .error .undefined
  | some x => if x.1 = y.1 then ids.append x.2 y.2 else .ok ids

/-- Looking one value up. -/
def probe (hashMask : ℕ) (remap remapCount : List ℕ) (hashTable : List (Option (ℤ × ℕ)))
    (ids : JoinIds) (y : ℤ × ℕ) : Outcome JoinIds := do
  let hashIndex ← fetch .bounds remap (bucketOf hashMask y)
  let hashIndexMax ← fetch .bounds remapCount (bucketOf hashMask y)
  (List.range' hashIndex (hashIndexMax - hashIndex)).foldlM (probeTurn hashTable y) ids

/-- `hashjoin` from the choice of the sides on: the ids of `hash_v` and of `other_v`. -/
def hashJoinSides (avgHashBucketSize : ℕ) (hashVal otherVal : List (ℤ × ℕ)) :
    Outcome JoinIds := do
  let numBuckets := 2 ^ numBits (getCeil hashVal.length avgHashBucketSize)
  let hashMask := numBuckets - 1
  let counts ← countPass hashMask hashVal (List.replicate numBuckets 0)
  let (remap, sum) := bucketOffsets counts 0
  if sum = hashVal.length then do
    let (hashTable, remapCount) ← hashVal.foldlM (placeTurn hashMask)
      (List.replicate hashVal.length none, remap)
    otherVal.foldlM (probe hashMask remap remapCount hashTable) JoinIds.empty
  else .error .assertion

/-- `hashjoin`: the table holds the second side when the first one is larger.
`AVG_HASH_BUCKET_SIZE` differs between the builds of the source and is a parameter. -/
def hashJoin (avgHashBucketSize : ℕ) (m0 m1 : List (ℤ × ℕ)) : Outcome JoinIds :=
  if m1.length < m0.length then do
    let ids ← hashJoinSides avgHashBucketSize m1 m0
    .ok ids.swap
  else hashJoinSides avgHashBucketSize m0 m1

/-! ### The passes -/

/-- The bucket of a value is one of the buckets. -/
lemma bucketOf_lt (n : ℕ) (x : ℤ × ℕ) : bucketOf (2 ^ n - 1) x < 2 ^ n := by
  rw [bucketOf, Nat.and_two_pow_sub_one_eq_mod]
  exact Nat.mod_lt _ (Nat.two_pow_pos n)

lemma bump_ok {counts : List ℕ} {b : ℕ} (h : b < counts.length) :
    bump counts b = .ok (counts.set b (counts[b] + 1)) := by
  rw [bump, fetch_of_lt h]
  rfl

section Passes

variable {mask : ℕ} {hashVal : List (ℤ × ℕ)}

/-- The first pass adds to every count the number of values in its bucket. -/
lemma countPass_ok (mask : ℕ) (l : List (ℤ × ℕ)) : ∀ remap : List ℕ,
    (∀ x ∈ l, bucketOf mask x < remap.length) →
    ∃ counts, countPass mask l remap = .ok counts ∧ counts.length = remap.length ∧
      ∀ b : ℕ, counts[b]? = remap[b]?.map (· + (bucket (bucketOf mask) l b).length) := by
  induction l with
  | nil => exact fun remap _ => ⟨remap, rfl, rfl, fun b => by simp [bucket]⟩
  | cons x l ih =>
      intro remap h
      have hx : bucketOf mask x < remap.length := h x List.mem_cons_self
      obtain ⟨counts, hok, hlen, hcounts⟩ := ih
        (remap.set (bucketOf mask x) (remap[bucketOf mask x] + 1)) fun y hy => by
          rw [List.length_set]
          exact h y (List.mem_cons_of_mem _ hy)
      rw [List.length_set] at hlen
      refine ⟨counts, ?_, hlen, fun b => ?_⟩
      · rw [countPass, List.foldlM_cons, bump_ok hx]
        exact hok
      · rw [hcounts b, ← List.singleton_append, bucket_append, List.length_append]
        by_cases hxb : bucketOf mask x = b
        · rw [← hxb, bucket_singleton_self, List.getElem?_set_self hx,
            List.getElem?_eq_getElem hx]
          simp only [Option.map_some, List.length_singleton]
          congr 1
          omega
        · rw [bucket_singleton_of_ne hxb, List.getElem?_set_ne hxb]
          simp

/-- The running sums of the counts are the starts of the buckets, and their total the number
of values below the last bucket. -/
lemma bucketOffsets_eq {h : ℤ × ℕ → ℕ} {l : List (ℤ × ℕ)} (counts : List ℕ) :
    ∀ b₀, (∀ b, b < counts.length → counts[b]? = some (bucket h l (b₀ + b)).length) →
      bucketOffsets counts (bucketStart h l b₀)
        = ((List.range' b₀ counts.length).map (bucketStart h l),
            bucketStart h l (b₀ + counts.length)) := by
  induction counts with
  | nil => exact fun b₀ _ => rfl
  | cons n counts ih =>
      intro b₀ hc
      have hn : n = (bucket h l b₀).length := by
        simpa using hc 0 (by simp)
      have hrest := ih (b₀ + 1) fun b hb => by
        have := hc (b + 1) (by simpa using hb)
        rw [List.getElem?_cons_succ] at this
        rw [this, show b₀ + (b + 1) = b₀ + 1 + b by omega]
      rw [bucketOffsets, hn, ← bucketStart_succ, hrest, List.length_cons, List.range'_succ]
      simp only [List.map_cons]
      rw [show b₀ + 1 + counts.length = b₀ + (counts.length + 1) by omega]

/-- The table and the next free place of every bucket, after the pairs of `pre`. -/
structure PlacedUpTo (mask B : ℕ) (hashVal pre : List (ℤ × ℕ))
    (s : List (Option (ℤ × ℕ)) × List ℕ) : Prop where
  length_table : s.1.length = hashVal.length
  length_next : s.2.length = B
  filled : Filled (bucketOf mask) hashVal s.1 pre
  next : ∀ b < B, s.2[b]? = some (bucketStart (bucketOf mask) hashVal b
    + (bucket (bucketOf mask) pre b).length)

/-- A turn of the second pass puts the pair into the next free place of its bucket. -/
lemma placeTurn_ok {B : ℕ} (hB : ∀ x, bucketOf mask x < B) {pre post : List (ℤ × ℕ)} {x : ℤ × ℕ}
    {s : List (Option (ℤ × ℕ)) × List ℕ} (hl : hashVal = pre ++ x :: post)
    (h : PlacedUpTo mask B hashVal pre s) :
    ∃ s', placeTurn mask s x = .ok s' ∧ PlacedUpTo mask B hashVal (pre ++ [x]) s' := by
  have hx := h.next _ (hB x)
  have hroom := bucketStart_add_lt (length_bucket_lt (h := bucketOf mask) hl)
  obtain ⟨hlt, hget⟩ := List.getElem?_eq_some_iff.mp hx
  have hturn : placeTurn mask s x = .ok
      (s.1.set (bucketStart (bucketOf mask) hashVal (bucketOf mask x)
        + (bucket (bucketOf mask) pre (bucketOf mask x)).length) (some x),
      s.2.set (bucketOf mask x) (s.2[bucketOf mask x] + 1)) := by
    rw [placeTurn, fetch_eq_ok.mpr hx, Outcome.ok_bind,
      if_pos (by rw [h.length_table]; exact hroom), bump_ok hlt, Outcome.ok_bind]
  refine ⟨_, hturn, by rw [List.length_set, h.length_table], by rw [List.length_set, h.length_next],
    h.filled.place hl h.length_table, fun b hb => ?_⟩
  rw [bucket_append, List.length_append]
  by_cases hxb : bucketOf mask x = b
  · subst hxb
    rw [List.getElem?_set_self hlt, hget, bucket_singleton_self]
    rfl
  · rw [List.getElem?_set_ne hxb, h.next b hb, bucket_singleton_of_ne hxb]
    rfl

/-- The second pass: from an empty table to the one that holds all pairs. -/
lemma placePass_ok {B : ℕ} (hB : ∀ x, bucketOf mask x < B)
    {s : List (Option (ℤ × ℕ)) × List ℕ} (h : PlacedUpTo mask B hashVal [] s) :
    ∃ s', hashVal.foldlM (placeTurn mask) s = .ok s' ∧ PlacedUpTo mask B hashVal hashVal s' :=
  foldlM_ok hashVal (fun _ _ _ _ hl h' => placeTurn_ok hB hl h') h

/-- The loop down a stretch of the table that holds the pairs of `xs`. -/
lemma probeTurn_foldlM {table : List (Option (ℤ × ℕ))} {y : ℤ × ℕ} (xs : List (ℤ × ℕ)) :
    ∀ (i : ℕ) (ids : JoinIds), (∀ (r : ℕ) x, xs[r]? = some x → table[i + r]? = some (some x)) →
      (List.range' i xs.length).foldlM (probeTurn table y) ids
        = ids.extend ((xs.filter fun x => decide (x.1 = y.1)).map fun x => (x.2, y.2)) := by
  induction xs with
  | nil => exact fun i ids _ => rfl
  | cons x xs ih =>
      intro i ids h
      have hx : table[i]? = some (some x) := h 0 x rfl
      have hrest : ∀ ids : JoinIds, (List.range' (i + 1) xs.length).foldlM (probeTurn table y) ids
          = ids.extend ((xs.filter fun x => decide (x.1 = y.1)).map fun x => (x.2, y.2)) :=
        fun ids => ih (i + 1) ids fun r x' hx' => by
          rw [show i + 1 + r = i + (r + 1) by omega]
          exact h (r + 1) x' (by simpa using hx')
      rw [List.length_cons, List.range'_succ, List.foldlM_cons, probeTurn, fetch_eq_ok.mpr hx,
        Outcome.ok_bind]
      simp only
      split_ifs with hxy
      · rw [List.filter_cons_of_pos (by simpa using hxy), List.map_cons, JoinIds.extend_cons]
        exact congrArg _ (funext hrest)
      · rw [List.filter_cons_of_neg (by simpa using hxy), Outcome.ok_bind, hrest]

end Passes

/-- The lookups, one after the other. -/
lemma probe_foldlM {mask : ℕ} {remap remapCount : List ℕ} {table : List (Option (ℤ × ℕ))}
    {found : ℤ × ℕ → List (ℕ × ℕ)}
    (hprobe : ∀ ids y, probe mask remap remapCount table ids y = ids.extend (found y))
    (otherVal : List (ℤ × ℕ)) (ids : JoinIds) :
    otherVal.foldlM (probe mask remap remapCount table) ids
      = ids.extend (otherVal.flatMap found) := by
  induction otherVal generalizing ids with
  | nil => rfl
  | cons y otherVal ih =>
      rw [List.foldlM_cons, hprobe, List.flatMap_cons, JoinIds.extend_append]
      exact congrArg _ (funext ih)

/-- The hash join of two sides appends, for every value of the other side, the rows of the
table with that value. -/
lemma hashJoinSides_eq (avg : ℕ) (hashVal otherVal : List (ℤ × ℕ)) :
    hashJoinSides avg hashVal otherVal
      = JoinIds.empty.extend
          (matching (fun y x => decide (x.1 = y.1)) (fun y x => (x.2, y.2)) otherVal hashVal) := by
  rw [hashJoinSides]
  simp only
  set n := numBits (getCeil hashVal.length avg)
  have hlt : ∀ x, bucketOf (2 ^ n - 1) x < 2 ^ n := bucketOf_lt n
  obtain ⟨counts, hcounts, hlen, hcount⟩ := countPass_ok (2 ^ n - 1) hashVal
    (List.replicate (2 ^ n) 0) fun x _ => by rw [List.length_replicate]; exact hlt x
  rw [List.length_replicate] at hlen
  have hoffsets := bucketOffsets_eq (h := bucketOf (2 ^ n - 1)) (l := hashVal) counts 0
    fun b hb => by
      rw [hcount, List.getElem?_replicate, if_pos (by omega), Nat.zero_add]
      simp
  rw [bucketStart_zero, Nat.zero_add, hlen, bucketStart_eq_length fun x _ => hlt x] at hoffsets
  have hstart : ∀ b, b < 2 ^ n →
      ((List.range' 0 (2 ^ n)).map (bucketStart (bucketOf (2 ^ n - 1)) hashVal))[b]?
        = some (bucketStart (bucketOf (2 ^ n - 1)) hashVal b) := by
    intro b hb
    simp [hb]
  have hempty : PlacedUpTo (2 ^ n - 1) (2 ^ n) hashVal [] (List.replicate hashVal.length none,
      (List.range' 0 (2 ^ n)).map (bucketStart (bucketOf (2 ^ n - 1)) hashVal)) :=
    ⟨List.length_replicate, by simp, Filled.nil _, fun b hb => hstart b hb⟩
  obtain ⟨⟨table, next⟩, hplace, hplaced⟩ := placePass_ok hlt hempty
  rw [hcounts, Outcome.ok_bind, hoffsets]
  simp only
  rw [if_pos trivial, hplace, Outcome.ok_bind]
  refine probe_foldlM (fun ids y => ?_) otherVal _
  -- the bucket of `y` holds every pair with its value
  have hbucket : (bucket (bucketOf (2 ^ n - 1)) hashVal (bucketOf (2 ^ n - 1) y)).filter
      (fun x => decide (x.1 = y.1)) = hashVal.filter fun x => decide (x.1 = y.1) := by
    rw [bucket, List.filter_filter]
    refine List.filter_congr fun x _ => ?_
    rw [← Bool.decide_and, decide_eq_decide]
    refine and_iff_left_of_imp fun hxy => ?_
    rw [bucketOf, bucketOf, hxy]
  rw [probe, fetch_eq_ok.mpr (hstart _ (hlt y)), Outcome.ok_bind,
    fetch_eq_ok.mpr (hplaced.next _ (hlt y)), Outcome.ok_bind, Nat.add_sub_cancel_left,
    probeTurn_foldlM _ _ _ (hplaced.filled _), hbucket]

/-- **The pairs of a hash join** are those of the nested loop, in some order, whichever side the
table holds. -/
lemma hashJoin_appends (avg : ℕ) (m0 m1 : List (ℤ × ℕ)) :
    JoinAppends (hashJoin avg m0 m1) m0 m1 := by
  rw [hashJoin, hashJoinSides_eq, hashJoinSides_eq]
  split_ifs
  · refine ⟨joinPairs m0 m1, ?_, List.Perm.refl _⟩
    rw [JoinIds.extend_swap, map_matching, joinPairs]
    simp only [Prod.swap_prod_mk, eq_comm]
    rfl
  · exact ⟨_, rfl, (matching_swap _ _ _ _).symm⟩

/-- **The hash join.** It returns two lists of equal length, whose pairs are those that the nested
loop returns up to their order, whichever side the table holds, exactly when the lists have room
for the pairs. The indices of the table and of the buckets are `int`s. -/
theorem hashJoin_matches_iff (avgHashBucketSize : ℕ) (m0 m1 : List (ℤ × ℕ))
    (_hsize : m0.length < 2 ^ 31 ∧ m1.length < 2 ^ 31 ∧ min m0.length m1.length < 2 ^ 30) :
    JoinMatches (hashJoin avgHashBucketSize m0 m1) m0 m1 ↔
      (joinPairs m0 m1).length ≤ 2 ^ 29 :=
  (hashJoin_appends avgHashBucketSize m0 m1).matches_iff

/-- `hashJoin_matches_iff` at a larger first side, so that the table holds the second one, with
duplicates and a negative value. -/
theorem fiveRows_hashJoin : JoinMatches
    (hashJoin 8 [(7, 0), (-1, 1), (7, 2), (5, 3), (-1, 4)] [(7, 0), (3, 1), (-1, 2), (7, 3)])
    [(7, 0), (-1, 1), (7, 2), (5, 3), (-1, 4)] [(7, 0), (3, 1), (-1, 2), (7, 3)] :=
  (hashJoin_matches_iff 8 _ _ (by decide)).mpr (by decide)

lemma length_joinPairs_sevens (n k : ℕ) : (joinPairs (sevens n) (sevens k)).length = n * k := by
  have hall : (sevens n).countP (fun x => decide (x.1 = 7)) = n := by
    rw [List.countP_eq_length.mpr fun x hx => decide_eq_true (forall_mem_sevens n x hx),
      length_sevens]
  rw [length_joinPairs_of_forall_eq _ (forall_mem_sevens k), hall, length_sevens]

/-- Two sides of `2 ^ 15` equal values have `2 ^ 30` pairs: the hash join writes behind the memory
of a list. -/
theorem sevens_hashJoin :
    ((sevens (2 ^ 15)).length < 2 ^ 30) ∧
    hashJoin 8 (sevens (2 ^ 15)) (sevens (2 ^ 15)) = .error .bounds ∧
    ¬ JoinMatches (hashJoin 8 (sevens (2 ^ 15)) (sevens (2 ^ 15))) (sevens (2 ^ 15))
      (sevens (2 ^ 15)) := by
  have hbounds : hashJoin 8 (sevens (2 ^ 15)) (sevens (2 ^ 15)) = .error .bounds := by
    refine (hashJoin_appends 8 _ _).bounds ?_
    rw [length_joinPairs_sevens]
    decide
  refine ⟨by rw [length_sevens]; decide, hbounds, fun hmatches => ?_⟩
  exact hmatches.ne_error .bounds hbounds

end ColumnDb
