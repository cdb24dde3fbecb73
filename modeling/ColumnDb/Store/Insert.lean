import ColumnDb.Bptree.Insert

/-!
Inserting into a column (`helper_insert.c`), and what an insert does to a SORTED column.

* `appendValueToFile`, `insertValueToFile`, `insertHelper`: the source's functions. An insert
  into an UNSORTED column writes at the end of the *file*, one into a SORTED column rewrites
  the file around the index that `get_lower_bound` returns, for a column of fewer than
  `2 ^ 31` rows, whose indices and rest fit the source's `int`s.
* `insertHelper_sorted`: an insert into a SORTED column adds the value at some index and
  keeps every other row; `insertHelper_sorted_eq` says which index when the rows are in order.
* `insertsInOrder_iff`: the rows stay in order exactly when the column is empty or the value
  is not above all of them.
* `insertAll_sorted_iff`: a column built from the empty one is in order exactly when no value
  exceeds the first one inserted.
-/

namespace ColumnDb

/-! ### The functions of the source -/

/-- A column: the file of its values and, for a B+ tree, the file of its nodes. In the source
the latter is the file that a column with `_nodes` after the name would have, so that here no
column has such a name (`nodesName`). -/
structure Column where
  data : DataFile
  nodes : Option BptFile
  deriving DecidableEq

namespace Column

/-- `make_new_column_file`. -/
def makeNew (type : StorageType) : Column where
  data := DataFile.makeNew type
  nodes := if type = .bptree then some BptFile.makeNew else none

end Column

/-- `append_value_to_file`: the header counts one row more and the value is written at the
end of the file, after any cell a delete has left there. -/
def appendValueToFile (f : DataFile) (val : ℤ) : DataFile where
  m := { f.m with size := f.m.size + 1 }
  cells := f.cells ++ [val]
  size_le := by simpa using f.size_le

/-- `insert_value_to_file`: a new file with the first `index` cells, the value, and the rest
of the rows. -/
def insertValueToFile (f : DataFile) (index : ℕ) (val : ℤ) : Outcome DataFile :=
  if _h : index ≤ f.m.size then
    .ok
      { m := { f.m with size := f.m.size + 1 }
        cells := f.cells.take index ++ [val] ++ (f.cells.drop index).take (f.m.size - index)
        size_le := by
          have := f.size_le
          simp only [List.length_append, List.length_take, List.length_drop,
            List.length_singleton]
          omega }
  else .error .assertion

/-- `insert_helper`. -/
def insertHelper (c : Column) (numInsert : ℤ) : Outcome Column :=
  match c.data.m.type with
  | .unsorted => .ok { c with data := appendValueToFile c.data numInsert }
  | .sorted => do
      let insertIndex ← getLowerBound c.data.cells c.data.m.size numInsert
      let data ← insertValueToFile c.data insertIndex numInsert
      .ok { c with data := data }
  | .bptree =>
      match c.nodes with
      | none => .error .exit
      | some bptFp => do
          let bptFp ← bptInsertRecord bptFp numInsert c.data.m.size
          .ok { data := appendValueToFile c.data numInsert, nodes := some bptFp }

/-- A sequence of `insert_helper` calls on one column. -/
def insertAll (c : Column) (vals : List ℤ) : Outcome Column := vals.foldlM insertHelper c

/-! ### Inserting into a SORTED column -/

/-- The rows after `insert_value_to_file`. -/
lemma insertValueToFile_ok {f : DataFile} {index : ℕ} (h : index ≤ f.m.size) (val : ℤ) :
    ∃ f', insertValueToFile f index val = .ok f' ∧ f'.m = { f.m with size := f.m.size + 1 } ∧
      f'.stored = f.stored.take index ++ val :: f.stored.drop index := by
  have hlen := f.size_le
  refine ⟨_, dif_pos h, rfl, ?_⟩
  refine (DataFile.stored_eq_cells ?_).trans ?_
  · simp only [List.length_append, List.length_take, List.length_drop, List.length_singleton]
    omega
  · rw [DataFile.stored, List.take_take, min_eq_left h, List.drop_take]
    exact List.append_assoc _ _ _

/-- **An insert into a SORTED column**, in order or not, puts the value at some index and
keeps the rows before and after it. -/
theorem insertHelper_sorted {c : Column} (hc : c.data.m.type = .sorted) (v : ℤ) :
    ∃ c' i, insertHelper c v = .ok c' ∧ c'.data.m.type = .sorted ∧
      c'.data.m.size = c.data.m.size + 1 ∧
      c'.data.stored = c.data.stored.take i ++ v :: c.data.stored.drop i := by
  obtain ⟨i, hi, hidx⟩ := getLowerBound_le c.data v
  obtain ⟨f', hf', hm, hstored⟩ := insertValueToFile_ok hi v
  refine ⟨{ c with data := f' }, i, ?_, by rw [hm]; exact hc, by rw [hm], hstored⟩
  simp only [insertHelper, hc, hidx, hf', Outcome.ok_bind]

/-- When the rows are in order, the index is the number of rows below the value, or that of
the last row when all of them are. -/
lemma insertHelper_sorted_eq {c : Column} (hc : c.data.m.type = .sorted)
    (hs : c.data.stored.Pairwise (· ≤ ·)) (v : ℤ) :
    ∃ c', insertHelper c v = .ok c' ∧ c'.data.m.type = .sorted ∧
      c'.data.m.size = c.data.m.size + 1 ∧
      c'.data.stored
        = c.data.stored.take (min (c.data.stored.countP (· < v)) (c.data.m.size - 1))
          ++ v :: c.data.stored.drop (min (c.data.stored.countP (· < v)) (c.data.m.size - 1)) := by
  have hle : min (c.data.stored.countP (· < v)) (c.data.m.size - 1) ≤ c.data.m.size := by omega
  obtain ⟨f', hf', hm, hstored⟩ := insertValueToFile_ok hle v
  refine ⟨{ c with data := f' }, ?_, by rw [hm]; exact hc, by rw [hm], hstored⟩
  simp only [insertHelper, hc, getLowerBound_eq hs, hf', Outcome.ok_bind]

/-- Inserting at an index permutes the rows with the value in front. -/
lemma insert_at_perm (l : List ℤ) (i : ℕ) (v : ℤ) :
    (l.take i ++ v :: l.drop i).Perm (v :: l) := by
  refine List.perm_middle.trans ?_
  rw [List.take_append_drop]

/-- The insert keeps the rows of a SORTED column in order and adds exactly the value. -/
def InsertsInOrder (c : Column) (v : ℤ) : Prop :=
  ∃ c', insertHelper c v = .ok c' ∧ c'.data.stored.Pairwise (· ≤ ·) ∧
    c'.data.m.size = c.data.m.size + 1 ∧ c'.data.stored.Perm (v :: c.data.stored)

/-- A value above every row of a non-empty column goes in front of the last row, out of
order. -/
lemma not_sorted_of_forall_lt {l : List ℤ} {v : ℤ} (hne : l ≠ []) (hall : ∀ x ∈ l, x < v) :
    ¬ (l.take (l.length - 1) ++ v :: l.drop (l.length - 1)).Pairwise (· ≤ ·) := by
  intro h
  have hlast : l.getLast hne ∈ l.drop (l.length - 1) := by
    rw [List.drop_length_sub_one hne]
    exact List.mem_singleton_self _
  have hle := List.rel_of_pairwise_cons (List.pairwise_append.mp h).2.1 hlast
  exact absurd (hall _ (List.getLast_mem hne)) (not_lt.mpr hle)

/-- **When an insert keeps a SORTED column in order**: exactly when the column is empty or
some row is not below the value. -/
lemma insertsInOrder_iff {c : Column} (hc : c.data.m.type = .sorted)
    (hs : c.data.stored.Pairwise (· ≤ ·)) (v : ℤ) :
    InsertsInOrder c v ↔ c.data.stored = [] ∨ ∃ x ∈ c.data.stored, v ≤ x := by
  obtain ⟨c', hok, -, hsize, hstored⟩ := insertHelper_sorted_eq hc hs v
  have hlen : c.data.stored.length = c.data.m.size := c.data.length_stored
  have hperm : c'.data.stored.Perm (v :: c.data.stored) := hstored ▸ insert_at_perm _ _ _
  have hiff : InsertsInOrder c v ↔ c'.data.stored.Pairwise (· ≤ ·) := by
    constructor
    · rintro ⟨c'', hok', hsorted, -, -⟩
      rw [hok] at hok'
      cases hok'
      exact hsorted
    · exact fun hsorted => ⟨c', hok, hsorted, hsize, hperm⟩
  rw [hiff, hstored]
  by_cases hall : ∀ x ∈ c.data.stored, x < v
  · have hcount : c.data.stored.countP (· < v) = c.data.stored.length := by
      rw [List.countP_eq_length]
      exact fun x hx => by simpa using hall x hx
    by_cases hnil : c.data.stored = []
    · simp [hnil]
    · rw [hcount, hlen, min_eq_right (by omega), ← hlen]
      refine iff_of_false (not_sorted_of_forall_lt hnil hall) ?_
      rintro (h | ⟨x, hx, hle⟩)
      · exact hnil h
      · exact absurd (hall x hx) (not_lt.mpr hle)
  · push Not at hall
    have hlt : c.data.stored.countP (· < v) ≠ c.data.stored.length := by
      intro h
      obtain ⟨x, hx, hle⟩ := hall
      have := List.countP_eq_length.mp h x hx
      exact absurd hle (not_le.mpr (by simpa using this))
    have hle := c.data.stored.countP_le_length (p := (· < v))
    rw [min_eq_left (by omega)]
    exact iff_of_true (insert_at_cut_sorted hs v) (Or.inr hall)

/-! ### Building a SORTED column -/

/-- Inserts into a SORTED column keep the rows there are, in their order, and add exactly the
values. -/
lemma insertAll_sorted (vals : List ℤ) :
    ∀ c : Column, c.data.m.type = .sorted →
      ∃ c', insertAll c vals = .ok c' ∧ c.data.stored.Sublist c'.data.stored ∧
        c'.data.stored.Perm (vals ++ c.data.stored) := by
  induction vals with
  | nil => exact fun c _ => ⟨c, rfl, List.Sublist.refl _, List.Perm.refl _⟩
  | cons v vals ih =>
      intro c hc
      obtain ⟨c₁, i, hok, hc₁, -, hstored⟩ := insertHelper_sorted hc v
      obtain ⟨c₂, hok₂, hsub, hperm⟩ := ih c₁ hc₁
      have hperm₁ : c₁.data.stored.Perm (v :: c.data.stored) := hstored ▸ insert_at_perm _ _ _
      refine ⟨c₂, ?_, List.Sublist.trans ?_ hsub, ?_⟩
      · rw [insertAll, List.foldlM_cons, hok, Outcome.ok_bind]
        exact hok₂
      · rw [hstored]
        conv_lhs => rw [← List.take_append_drop i c.data.stored]
        exact (List.Sublist.refl _).append (List.sublist_cons_self _ _)
      · calc List.Perm c₂.data.stored (vals ++ c₁.data.stored) := hperm
          List.Perm _ (vals ++ v :: c.data.stored) := hperm₁.append_left vals
          List.Perm _ (v :: vals ++ c.data.stored) := List.perm_middle

/-- From a column in order whose last row is `top`, the rows stay in order exactly when no
value exceeds `top`, which stays the last row. -/
lemma insertAll_sorted_iff_last (vals : List ℤ) :
    ∀ (c : Column) (top : ℤ), c.data.m.type = .sorted → c.data.stored.Pairwise (· ≤ ·) →
      c.data.stored.getLast? = some top → ∀ c', insertAll c vals = .ok c' →
      (c'.data.stored.Pairwise (· ≤ ·) ↔ ∀ v ∈ vals, v ≤ top) := by
  induction vals with
  | nil =>
      intro c top _ hs _ c' hok
      cases hok
      simpa using hs
  | cons v vals ih =>
      intro c top hc hs htop c' hok
      have hmem : top ∈ c.data.stored := List.mem_of_getLast? htop
      have hlen : 0 < c.data.m.size := by
        rw [← c.data.length_stored]
        exact List.length_pos_of_mem hmem
      obtain ⟨c₁, hok₁, hc₁, hsize, hstored⟩ := insertHelper_sorted_eq hc hs v
      have hrest : insertAll c₁ vals = .ok c' := by
        rwa [insertAll, List.foldlM_cons, hok₁, Outcome.ok_bind] at hok
      have hiff := insertsInOrder_iff hc hs v
      have hkeeps : InsertsInOrder c v ↔ c₁.data.stored.Pairwise (· ≤ ·) := by
        constructor
        · rintro ⟨c₂, hok₂, hs₂, -⟩
          rw [hok₁] at hok₂
          cases hok₂
          exact hs₂
        · exact fun hs₁ => ⟨c₁, hok₁, hs₁, hsize, hstored ▸ insert_at_perm _ _ _⟩
      by_cases hv : v ≤ top
      · have hs₁ := hkeeps.mp (hiff.mpr (Or.inr ⟨top, hmem, hv⟩))
        have htop₁ : c₁.data.stored.getLast? = some top := by
          rw [hstored, List.getLast?_append_cons, List.getLast?_cons, List.getLast?_drop,
            if_neg (by rw [c.data.length_stored]; omega), htop]
          rfl
        rw [ih c₁ top hc₁ hs₁ htop₁ c' hrest]
        simp [hv]
      · have hns₁ : ¬ c₁.data.stored.Pairwise (· ≤ ·) := by
          rw [← hkeeps, hiff]
          rintro (h | ⟨x, hx, hle⟩)
          · simp [h] at hmem
          · refine hv (hle.trans ?_)
            obtain ⟨ys, hys⟩ := List.getLast?_eq_some_iff.mp htop
            rw [hys] at hs hx
            rcases List.mem_append.mp hx with hx | hx
            · exact (List.pairwise_append.mp hs).2.2 x hx top (List.mem_singleton_self _)
            · exact (List.mem_singleton.mp hx).le
        obtain ⟨c₂, hok₂, hsub, -⟩ := insertAll_sorted vals c₁ hc₁
        rw [hrest] at hok₂
        cases hok₂
        refine iff_of_false (fun h => hns₁ (h.sublist hsub)) fun h => hv (h v ?_)
        exact List.mem_cons_self

/-- A column built from the empty one is in order exactly when no value exceeds the first
value inserted. -/
lemma insertAll_sorted_iff (vals : List ℤ) :
    ∃ c, insertAll (Column.makeNew .sorted) vals = .ok c ∧ c.data.stored.Perm vals ∧
      (c.data.stored.Pairwise (· ≤ ·) ↔ ∀ v ∈ vals, ∀ w ∈ vals.head?, v ≤ w) := by
  obtain ⟨c, hok, -, hperm⟩ := insertAll_sorted vals (Column.makeNew .sorted) rfl
  refine ⟨c, hok, by simpa [Column.makeNew] using hperm, ?_⟩
  cases vals with
  | nil =>
      cases hok
      simp [Column.makeNew]
  | cons w vals =>
      obtain ⟨c₁, hok₁, hc₁, -, hstored⟩ :=
        insertHelper_sorted_eq (c := Column.makeNew .sorted) rfl List.Pairwise.nil w
      have hone : c₁.data.stored = [w] := by
        rw [hstored]
        rfl
      have hrest : insertAll c₁ vals = .ok c := by
        rwa [insertAll, List.foldlM_cons, hok₁, Outcome.ok_bind] at hok
      rw [insertAll_sorted_iff_last vals c₁ w hc₁ (by simp [hone]) (by simp [hone]) c hrest]
      simp

/-- **Inserting into a SORTED column** of fewer than `2 ^ 31` rows. An insert keeps the rows
in order, with the value added, exactly when the column is empty or the value is not above
every row; and a column built from the empty one is in order exactly when no value exceeds the
first one. -/
theorem insertHelper_keeps_sorted_iff (c : Column) (hc : c.data.m.type = .sorted)
    (hs : c.data.stored.Pairwise (· ≤ ·)) (_hsize : c.data.m.size < 2 ^ 31) (v : ℤ)
    (vals : List ℤ) (_hvals : vals.length ≤ 2 ^ 31) :
    (InsertsInOrder c v ↔ c.data.stored = [] ∨ ∃ x ∈ c.data.stored, v ≤ x) ∧
    ∃ c', insertAll (Column.makeNew .sorted) vals = .ok c' ∧ c'.data.stored.Perm vals ∧
      (c'.data.stored.Pairwise (· ≤ ·) ↔ ∀ v ∈ vals, ∀ w ∈ vals.head?, v ≤ w) :=
  ⟨insertsInOrder_iff hc hs v, insertAll_sorted_iff vals⟩

/-- The column of the rows `1, 3`. -/
def sortedPair : Column where
  data :=
    { m := { type := .sorted, size := 2, nextFree := 0, root := 0 }
      cells := [1, 3]
      size_le := le_rfl }
  nodes := none

/-- `insertHelper_keeps_sorted_iff` at the rows `1, 3` and the value `2`. -/
theorem sortedPair_insert_two : InsertsInOrder sortedPair 2 :=
  (insertHelper_keeps_sorted_iff sortedPair rfl (by decide) (by decide) 2 [] (by decide)).1.mpr
    (Or.inr ⟨3, by decide, by decide⟩)

/-- The column of the row `3`. -/
def sortedThree : Column where
  data :=
    { m := { type := .sorted, size := 1, nextFree := 0, root := 0 }
      cells := [3]
      size_le := le_rfl }
  nodes := none

/-- Inserting `3` and then `5` into an empty SORTED column leaves the rows `5, 3`. -/
theorem insert_ascending_unsorted :
    insertAll (Column.makeNew .sorted) [3] = .ok sortedThree ∧ ¬ InsertsInOrder sortedThree 5 ∧
    ∃ c, insertHelper sortedThree 5 = .ok c ∧ c.data.stored = [5, 3] := by
  refine ⟨by decide +kernel, ?_, ?_⟩
  · rw [insertsInOrder_iff rfl (by decide)]
    decide
  · obtain ⟨c, hok, -, -, hstored⟩ :=
      insertHelper_sorted_eq (c := sortedThree) rfl (by decide) 5
    exact ⟨c, hok, hstored⟩

end ColumnDb
