import ColumnDb.Library.Matching
import ColumnDb.Store.DynList

/-!
The results of a join, and the nested loop (`helper_join.c`).

The inputs of a join are the materialised values of two columns, each value with its row.
The result is kept in two lists of row ids, which grow together: `JoinIds`.

* `JoinIds.extend_empty_ok_iff`: the lists take pairs one after the other exactly up to the number
  of ints that `append_list` has room for.
* `loopJoin_eq`: the nested loop appends the pairs of rows with equal values, `joinPairs`, in
  the order of its loops.
* `JoinAppends.matches_iff`: a join that appends these pairs in some order matches the nested loop,
  up to the same number of pairs.
-/

namespace ColumnDb

/-- The ids of the two result variables of a join. -/
structure JoinIds where
  jv1 : DynList ℕ
  jv2 : DynList ℕ
  deriving DecidableEq, Repr

namespace JoinIds

/-- The lists that `create_list` returns. -/
def empty : JoinIds := ⟨createList ℕ 4, createList ℕ 4⟩

/-- The two `append_list` calls for a pair of rows. -/
def append (ids : JoinIds) (row1 row2 : ℕ) : Outcome JoinIds := do
  let jv1 ← appendList ids.jv1 row1
  let jv2 ← appendList ids.jv2 row2
  .ok ⟨jv1, jv2⟩

/-- The pairs of ids at equal indices. -/
def pairs (ids : JoinIds) : List (ℕ × ℕ) := ids.jv1.vals.zip ids.jv2.vals

/-- The lists of the other order of the results. -/
def swap (ids : JoinIds) : JoinIds := ⟨ids.jv2, ids.jv1⟩

/-- Appending the pairs of a list one after the other. -/
def extend (ids : JoinIds) (ps : List (ℕ × ℕ)) : Outcome JoinIds :=
  ps.foldlM (fun ids p => ids.append p.1 p.2) ids

@[simp] lemma extend_nil (ids : JoinIds) : ids.extend [] = .ok ids := rfl

lemma extend_cons (ids : JoinIds) (p : ℕ × ℕ) (ps : List (ℕ × ℕ)) :
    ids.extend (p :: ps) = ids.append p.1 p.2 >>= fun ids => ids.extend ps := List.foldlM_cons ..

lemma extend_append (ids : JoinIds) (ps qs : List (ℕ × ℕ)) :
    ids.extend (ps ++ qs) = ids.extend ps >>= fun ids => ids.extend qs := List.foldlM_append

/-- Both lists take their halves of the pairs. -/
lemma extend_eq_ok (ps : List (ℕ × ℕ)) : ∀ {ids ids' : JoinIds}, ids.extend ps = .ok ids' ↔
    appendAll ids.jv1 (ps.map Prod.fst) = .ok ids'.jv1 ∧
      appendAll ids.jv2 (ps.map Prod.snd) = .ok ids'.jv2 := by
  induction ps with
  | nil =>
      rintro ⟨jv1, jv2⟩ ⟨jv1', jv2'⟩
      simp [appendAll, pure, Except.pure]
  | cons p ps ih =>
      intro ids ids'
      rw [extend_cons, List.map_cons, List.map_cons, appendAll, appendAll, List.foldlM_cons,
        List.foldlM_cons, Outcome.bind_eq_ok, Outcome.bind_eq_ok, Outcome.bind_eq_ok]
      constructor
      · rintro ⟨ids₁, happend, hrest⟩
        obtain ⟨jv1, h1, happend⟩ := Outcome.bind_eq_ok.mp happend
        obtain ⟨jv2, h2, happend⟩ := Outcome.bind_eq_ok.mp happend
        cases happend
        exact ⟨⟨jv1, h1, (ih.mp hrest).1⟩, ⟨jv2, h2, (ih.mp hrest).2⟩⟩
      · rintro ⟨⟨jv1, h1, hrest1⟩, ⟨jv2, h2, hrest2⟩⟩
        exact ⟨⟨jv1, jv2⟩, by rw [append, h1, Outcome.ok_bind, h2, Outcome.ok_bind],
          ih.mpr ⟨hrest1, hrest2⟩⟩

/-- The lists take a pair, or one of them is written outside its memory. -/
lemma append_ok_or (ids : JoinIds) (row1 row2 : ℕ) :
    (∃ ids', ids.append row1 row2 = .ok ids') ∨ ids.append row1 row2 = .error .bounds := by
  rw [append]
  rcases appendList_ok_or ids.jv1 row1 with ⟨jv1, h1⟩ | h1
  · rw [h1, Outcome.ok_bind]
    rcases appendList_ok_or ids.jv2 row2 with ⟨jv2, h2⟩ | h2
    · rw [h2]
      exact Or.inl ⟨_, rfl⟩
    · rw [h2]
      exact Or.inr rfl
  · rw [h1]
    exact Or.inr rfl

/-- The lists grow together. -/
lemma append_lengths {ids ids' : JoinIds} {row1 row2 : ℕ}
    (hlen : ids.jv1.vals.length = ids.jv2.vals.length) (h : ids.append row1 row2 = .ok ids') :
    ids'.jv1.vals.length = ids'.jv2.vals.length := by
  obtain ⟨jv1, h1, h⟩ := Outcome.bind_eq_ok.mp h
  obtain ⟨jv2, h2, h⟩ := Outcome.bind_eq_ok.mp h
  cases h
  rw [appendList_vals h1, appendList_vals h2, List.length_append, List.length_append, hlen]
  rfl

/-- The lists take all pairs, or one of them is written outside its memory. -/
lemma extend_ok_or (ps : List (ℕ × ℕ)) : ∀ ids : JoinIds,
    (∃ ids', ids.extend ps = .ok ids') ∨ ids.extend ps = .error .bounds := by
  induction ps with
  | nil => exact fun ids => Or.inl ⟨ids, rfl⟩
  | cons p ps ih =>
      intro ids
      rw [extend_cons]
      rcases append_ok_or ids p.1 p.2 with ⟨ids₁, hok⟩ | herror
      · rw [hok, Outcome.ok_bind]
        exact ih ids₁
      · rw [herror]
        exact Or.inr rfl

/-- The results may change places. -/
lemma extend_swap (ids : JoinIds) (ps : List (ℕ × ℕ)) :
    (ids.extend ps >>= fun ids => .ok ids.swap) = ids.swap.extend (ps.map Prod.swap) := by
  have hfst : (ps.map Prod.swap).map Prod.fst = ps.map Prod.snd := by simp
  have hsnd : (ps.map Prod.swap).map Prod.snd = ps.map Prod.fst := by simp
  rcases extend_ok_or ps ids with ⟨ids', hok⟩ | herror
  · obtain ⟨h1, h2⟩ := (extend_eq_ok ps).mp hok
    rw [hok, Outcome.ok_bind]
    exact ((extend_eq_ok _).mpr ⟨hfst.symm ▸ h2, hsnd.symm ▸ h1⟩).symm
  · rcases extend_ok_or (ps.map Prod.swap) ids.swap with ⟨ids', hok⟩ | herror'
    · obtain ⟨h2, h1⟩ := (extend_eq_ok _).mp hok
      rw [hfst] at h2
      rw [hsnd] at h1
      have hok' : ids.extend ps = .ok ids'.swap := (extend_eq_ok ps).mpr ⟨h1, h2⟩
      rw [herror] at hok'
      cases hok'
    · rw [herror, herror']
      rfl

/-- The lists after the pairs of `ps`. -/
lemma extend_empty_vals {ps : List (ℕ × ℕ)} {ids : JoinIds} (h : empty.extend ps = .ok ids) :
    ids.jv1.vals = ps.map Prod.fst ∧ ids.jv2.vals = ps.map Prod.snd := by
  obtain ⟨h1, h2⟩ := (extend_eq_ok ps).mp h
  exact ⟨appendAll_vals _ h1, appendAll_vals _ h2⟩

lemma length_extend_empty {ps : List (ℕ × ℕ)} {ids : JoinIds} (h : empty.extend ps = .ok ids) :
    ids.jv1.vals.length = ids.jv2.vals.length := by
  obtain ⟨h1, h2⟩ := extend_empty_vals h
  rw [h1, h2, List.length_map, List.length_map]

lemma pairs_extend_empty {ps : List (ℕ × ℕ)} {ids : JoinIds} (h : empty.extend ps = .ok ids) :
    ids.pairs = ps := by
  obtain ⟨h1, h2⟩ := extend_empty_vals h
  have hzip : (ps.unzip.1).zip ps.unzip.2 = ps := List.zip_unzip ps
  rw [List.unzip_eq_map] at hzip
  rw [pairs, h1, h2]
  exact hzip

/-- **The room for the pairs**: both lists are lists of ints. -/
lemma extend_empty_ok_iff (ps : List (ℕ × ℕ)) :
    (∃ ids, empty.extend ps = .ok ids) ↔ ps.length ≤ 2 ^ 29 := by
  constructor
  · rintro ⟨ids, hok⟩
    have hfst := (extend_eq_ok ps).mp hok
    rw [← List.length_map Prod.fst, ← greatestLength_four]
    exact (appendAll_iff (by decide) _).mp ⟨_, hfst.1⟩
  · intro hlen
    obtain ⟨jv1, h1, -⟩ := appendAll_four ((List.length_map Prod.fst).trans_le hlen)
    obtain ⟨jv2, h2, -⟩ := appendAll_four ((List.length_map Prod.snd).trans_le hlen)
    exact ⟨⟨jv1, jv2⟩, (extend_eq_ok ps).mpr ⟨h1, h2⟩⟩

lemma extend_empty_bounds {ps : List (ℕ × ℕ)} (h : 2 ^ 29 < ps.length) :
    empty.extend ps = .error .bounds :=
  (extend_ok_or ps empty).resolve_left fun hok =>
    not_le.mpr h ((extend_empty_ok_iff ps).mp hok)

end JoinIds

/-- A turn of the inner loop of `loopjoin`. -/
def loopTurn (x : ℤ × ℕ) (ids : JoinIds) (y : ℤ × ℕ) : Outcome JoinIds :=
  if x.1 = y.1 then ids.append x.2 y.2 else .ok ids

/-- `loopjoin`. -/
def loopJoin (m0 m1 : List (ℤ × ℕ)) : Outcome JoinIds :=
  m0.foldlM (fun ids x => m1.foldlM (loopTurn x) ids) JoinIds.empty

/-- The rows whose values are equal. -/
def joinPairs (m0 m1 : List (ℤ × ℕ)) : List (ℕ × ℕ) :=
  matching (fun x y => decide (x.1 = y.1)) (fun x y => (x.2, y.2)) m0 m1

lemma loopTurn_foldlM (x : ℤ × ℕ) (m1 : List (ℤ × ℕ)) (ids : JoinIds) :
    m1.foldlM (loopTurn x) ids
      = ids.extend ((m1.filter fun y => decide (x.1 = y.1)).map fun y => (x.2, y.2)) := by
  induction m1 generalizing ids with
  | nil => rfl
  | cons y m1 ih =>
      rw [List.foldlM_cons, loopTurn]
      split_ifs with h
      · rw [List.filter_cons_of_pos (by simpa using h), List.map_cons, JoinIds.extend_cons]
        exact congrArg _ (funext ih)
      · rw [List.filter_cons_of_neg (by simpa using h), Outcome.ok_bind, ih]

/-- The nested loop appends exactly the pairs of rows with equal values. -/
lemma loopJoin_eq (m0 m1 : List (ℤ × ℕ)) :
    loopJoin m0 m1 = JoinIds.empty.extend (joinPairs m0 m1) := by
  have hloop : ∀ (m0 : List (ℤ × ℕ)) (ids : JoinIds),
      m0.foldlM (fun ids x => m1.foldlM (loopTurn x) ids) ids
        = ids.extend (joinPairs m0 m1) := by
    intro m0
    induction m0 with
    | nil => exact fun ids => (JoinIds.extend_nil ids).symm
    | cons x m0 ih =>
        intro ids
        rw [List.foldlM_cons, loopTurn_foldlM, joinPairs, matching_cons, JoinIds.extend_append]
        exact congrArg _ (funext ih)
  exact hloop m0 _

/-! ### Joins that match the nested loop -/

/-- Two lists of ids of one length, whose pairs are those that the nested loop returns, up to
their order. -/
def JoinMatches (result : Outcome JoinIds) (m0 m1 : List (ℤ × ℕ)) : Prop :=
  ∃ ids ids', result = .ok ids ∧ loopJoin m0 m1 = .ok ids' ∧
    ids.jv1.vals.length = ids.jv2.vals.length ∧ ids.pairs.Perm ids'.pairs

lemma JoinMatches.ne_error {result : Outcome JoinIds} {m0 m1 : List (ℤ × ℕ)}
    (h : JoinMatches result m0 m1) (e : Fault) : result ≠ .error e := by
  obtain ⟨ids, -, hok, -⟩ := h
  intro herror
  cases hok.symm.trans herror

/-- The join appends the pairs of the nested loop to two new lists, in some order. -/
def JoinAppends (result : Outcome JoinIds) (m0 m1 : List (ℤ × ℕ)) : Prop :=
  ∃ ps, result = JoinIds.empty.extend ps ∧ ps.Perm (joinPairs m0 m1)

lemma loopJoin_appends (m0 m1 : List (ℤ × ℕ)) : JoinAppends (loopJoin m0 m1) m0 m1 :=
  ⟨_, loopJoin_eq m0 m1, List.Perm.refl _⟩

namespace JoinAppends

variable {result : Outcome JoinIds} {m0 m1 : List (ℤ × ℕ)} (h : JoinAppends result m0 m1)
include h

/-- **A join that appends the pairs of the nested loop** matches it exactly when the lists have
room for the pairs. -/
theorem matches_iff : JoinMatches result m0 m1 ↔ (joinPairs m0 m1).length ≤ 2 ^ 29 := by
  obtain ⟨ps, rfl, hperm⟩ := h
  constructor
  · rintro ⟨-, ids', -, hloop, -⟩
    rw [loopJoin_eq] at hloop
    exact (JoinIds.extend_empty_ok_iff _).mp ⟨ids', hloop⟩
  · intro hlen
    obtain ⟨ids, hids⟩ := (JoinIds.extend_empty_ok_iff ps).mpr (hperm.length_eq ▸ hlen)
    obtain ⟨ids', hids'⟩ := (JoinIds.extend_empty_ok_iff _).mpr hlen
    refine ⟨ids, ids', hids, by rw [loopJoin_eq, hids'], JoinIds.length_extend_empty hids, ?_⟩
    rw [JoinIds.pairs_extend_empty hids, JoinIds.pairs_extend_empty hids']
    exact hperm

/-- With more pairs it writes behind the memory of a list. -/
lemma bounds (hmany : 2 ^ 29 < (joinPairs m0 m1).length) : result = .error .bounds := by
  obtain ⟨ps, rfl, hperm⟩ := h
  exact JoinIds.extend_empty_bounds (hperm.length_eq ▸ hmany)

end JoinAppends

/-- The pairs with a side that has one value only. -/
lemma length_joinPairs_of_forall_eq {v : ℤ} (m0 : List (ℤ × ℕ)) {m1 : List (ℤ × ℕ)}
    (h1 : ∀ y ∈ m1, y.1 = v) :
    (joinPairs m0 m1).length = (m0.countP fun x => decide (x.1 = v)) * m1.length := by
  induction m0 with
  | nil => simp [joinPairs, matching]
  | cons x m0 ih =>
      have hlen : (joinPairs (x :: m0) m1).length
          = (m1.filter fun y => decide (x.1 = y.1)).length + (joinPairs m0 m1).length := by
        rw [joinPairs, matching_cons, List.length_append, List.length_map]
        rfl
      by_cases hx : x.1 = v
      · have hall : (m1.filter fun y => decide (x.1 = y.1)) = m1 := List.filter_eq_self.mpr
          fun y hy => decide_eq_true (hx.trans (h1 y hy).symm)
        rw [hlen, hall, ih, List.countP_cons_of_pos (by simpa using hx), Nat.succ_mul, Nat.add_comm]
      · have hnone : (m1.filter fun y => decide (x.1 = y.1)) = [] := List.filter_eq_nil_iff.mpr
          fun y hy => by simpa [h1 y hy] using hx
        rw [hlen, hnone, ih, List.countP_cons_of_neg (by simpa using hx), List.length_nil,
          Nat.zero_add]

/-- A side of `n` rows with the value `7`. -/
def sevens (n : ℕ) : List (ℤ × ℕ) := (List.range n).map fun i => (7, i)

lemma forall_mem_sevens (n : ℕ) : ∀ x ∈ sevens n, x.1 = 7 := by
  intro x hx
  obtain ⟨i, -, rfl⟩ := List.mem_map.mp hx
  rfl

@[simp] lemma length_sevens (n : ℕ) : (sevens n).length = n := by
  rw [sevens, List.length_map, List.length_range]

end ColumnDb
