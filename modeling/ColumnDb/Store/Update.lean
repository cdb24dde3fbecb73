import ColumnDb.Library.Rows
import ColumnDb.Store.BitVector
import ColumnDb.Store.Insert

/-!
Deleting from and updating an UNSORTED column (`helper_updates.c`), and the runs of a column.

* `deleteHelper` moves the last row into every position to delete and counts one row less
  each time; the cell of the last row stays in the file. `updateHelper` writes in place.
* `ColumnOp`, `runOps`: the inserts, updates and deletes of a column, and their runs.
* `insertHelper_appends_iff`: after any run an insert puts the value after the rows exactly
  when the file holds no stale cell, or one with that value.
* `deleteTurn_foldlM_ok`: the rule for the loop of a delete, by what the cells are after each
  turn.
* `deleteHelper_stored`: a delete keeps the rows it is not given among the first rows, and
  adds as many of the last rows as it was given positions there.
* `deleteHelper_deletes_iff`: those are the rows to keep exactly when the last rows are, as a
  multiset, the rows to keep near the end.
-/

namespace ColumnDb

/-! ### The functions of the source -/

/-- A turn of the loop of `delete_helper`: the last row is written at the position, an `int` of the
source, and no longer counted. -/
def deleteTurn (f : DataFile) (deletePos : ℕ) : Outcome DataFile :=
  if h : decr32 f.m.size < f.cells.length then
    .ok
      { m := { f.m with size := decr32 f.m.size }
        cells := writeAt 0 f.cells deletePos f.cells[decr32 f.m.size]
        size_le := by
          rw [length_writeAt]
          exact h.le.trans (le_max_left _ _) }
  else .error .assertion

/-- `delete_helper`. -/
def deleteHelper (c : Column) (deletePos : List ℕ) : Outcome Column :=
  if c.data.m.type = .unsorted then do
    let data ← deletePos.foldlM deleteTurn c.data
    .ok { c with data := data }
  else .error .assertion

/-- A turn of the loop of `update_helper`. -/
def updateTurn (val : ℤ) (f : DataFile) (updatePos : ℕ) : DataFile where
  m := f.m
  cells := writeAt 0 f.cells updatePos val
  size_le := by
    rw [length_writeAt]
    exact f.size_le.trans (le_max_left _ _)

/-- `update_helper`. -/
def updateHelper (c : Column) (updatePos : List ℕ) (val : ℤ) : Outcome Column :=
  if c.data.m.type = .unsorted then
    .ok { c with data := updatePos.foldl (updateTurn val) c.data }
  else .error .assertion

/-! ### The runs of a column -/

/-- The commands that change a column. -/
inductive ColumnOp where
  | insert (val : ℤ)
  | update (pos : List ℕ) (val : ℤ)
  | delete (pos : List ℕ)

/-- What a command does to the column. -/
def ColumnOp.run (c : Column) : ColumnOp → Outcome Column
  | .insert val => insertHelper c val
  | .update pos val => updateHelper c pos val
  | .delete pos => deleteHelper c pos

/-- A run of commands. -/
def runOps (c : Column) (ops : List ColumnOp) : Outcome Column := ops.foldlM ColumnOp.run c

/-- A column that some run reaches from a fresh UNSORTED one. -/
def Reachable (c : Column) : Prop := ∃ ops, runOps (Column.makeNew .unsorted) ops = .ok c

lemma deleteTurn_type {f f' : DataFile} {p : ℕ} (h : deleteTurn f p = .ok f') :
    f'.m.type = f.m.type := by
  rw [deleteTurn] at h
  split_ifs at h
  cases h
  rfl

lemma updateTurn_foldl_type (val : ℤ) (pos : List ℕ) (f : DataFile) :
    (pos.foldl (updateTurn val) f).m.type = f.m.type := by
  induction pos generalizing f with
  | nil => rfl
  | cons p pos ih => exact ih _

/-- Every command leaves an UNSORTED column UNSORTED. -/
lemma ColumnOp.run_type {c c' : Column} {op : ColumnOp} (hc : c.data.m.type = .unsorted)
    (h : op.run c = .ok c') : c'.data.m.type = .unsorted := by
  cases op with
  | insert val =>
      rw [ColumnOp.run, insertHelper, hc] at h
      cases h
      exact hc
  | update pos val =>
      rw [ColumnOp.run, updateHelper, if_pos hc] at h
      cases h
      exact (updateTurn_foldl_type val pos c.data).trans hc
  | delete pos =>
      rw [ColumnOp.run, deleteHelper, if_pos hc] at h
      obtain ⟨data, hfold, hdata⟩ := Outcome.bind_eq_ok.mp h
      cases hdata
      exact foldlM_inv (P := fun f => f.m.type = .unsorted)
        (fun f p f' hf hturn => (deleteTurn_type hturn).trans hf) pos c.data data hc hfold

/-- Every reachable column is UNSORTED. -/
lemma Reachable.type {c : Column} (h : Reachable c) : c.data.m.type = .unsorted := by
  obtain ⟨ops, hrun⟩ := h
  exact foldlM_inv (P := fun c : Column => c.data.m.type = .unsorted)
    (fun _ _ _ hc hrun => ColumnOp.run_type hc hrun) ops _ c rfl hrun

/-! ### Inserting after deletes -/

/-- The insert appends the value to the rows. -/
def AppendsLogically (c : Column) (v : ℤ) : Prop :=
  ∃ c', insertHelper c v = .ok c' ∧ c'.data.m.size = c.data.stored.length + 1 ∧
    c'.data.stored = c.data.stored ++ [v]

/-- The row that an insert adds is the first cell after the rows, which is the value only
when there was none. -/
lemma stored_appendValueToFile (f : DataFile) (v : ℤ) :
    (appendValueToFile f v).stored = f.stored ++ [f.stale.head?.getD v] := by
  have hlen : f.stored.length = f.m.size := f.length_stored
  have hcells : (appendValueToFile f v).stored = (f.cells ++ [v]).take (f.m.size + 1) := rfl
  rw [hcells, ← f.stored_append_stale, List.append_assoc, List.take_append, hlen,
    Nat.add_sub_cancel_left, List.take_of_length_le (by omega)]
  cases f.stale <;> rfl

/-- **Inserting into an UNSORTED column.** After any run of inserts, updates and deletes on a
fresh column, an insert appends its value to the rows exactly when no stale cell follows the
rows, or the first one happens to hold the value. -/
theorem insertHelper_appends_iff :
    ∀ c, Reachable c → ∀ v : ℤ,
      (AppendsLogically c v ↔ c.data.stale = [] ∨ c.data.stale.head? = some v) := by
  intro c hc v
  have hins : insertHelper c v = .ok { c with data := appendValueToFile c.data v } := by
    rw [insertHelper, hc.type]
  have hiff : AppendsLogically c v ↔ c.data.stale.head?.getD v = v := by
    constructor
    · rintro ⟨c', hok, -, hstored⟩
      rw [hins] at hok
      cases hok
      rw [stored_appendValueToFile] at hstored
      exact List.singleton_inj.mp (List.append_cancel_left hstored)
    · intro h
      refine ⟨_, hins, ?_, ?_⟩
      · rw [c.data.length_stored]
        rfl
      · rw [stored_appendValueToFile, h]
  rw [hiff]
  cases c.data.stale <;> simp

/-- The column after inserting `1` and `2` and deleting the first row. -/
def holedColumn : Column where
  data :=
    { m := { type := .unsorted, size := 1, nextFree := 0, root := 0 }
      cells := [2, 2]
      size_le := by decide }
  nodes := none

lemma holedColumn_reachable : Reachable holedColumn :=
  ⟨[.insert 1, .insert 2, .delete [0]], rfl⟩

/-- `insertHelper_appends_iff` at the value of the stale cell. -/
theorem holedColumn_insert_two : AppendsLogically holedColumn 2 :=
  (insertHelper_appends_iff holedColumn holedColumn_reachable 2).mpr (Or.inr rfl)

/-- Inserting `1`, inserting `2`, deleting the first row and inserting `5` leaves the rows
`2, 2`. -/
theorem insert_after_delete_lost :
    runOps (Column.makeNew .unsorted) [.insert 1, .insert 2, .delete [0]] = .ok holedColumn ∧
    (∃ c, insertHelper holedColumn 5 = .ok c ∧ c.data.stored = [2, 2]) ∧
    ¬ AppendsLogically holedColumn 5 := by
  refine ⟨rfl, ⟨_, rfl, rfl⟩, ?_⟩
  rintro ⟨c, hok, -, hstored⟩
  cases hok
  exact absurd hstored (by decide)

/-! ### Deleting rows -/

/-- What a turn of the loop does as long as there is a row. -/
lemma deleteTurn_ok {f : DataFile} (p : ℕ) (hsize : 0 < f.m.size) :
    ∃ f' last, f.cells[f.m.size - 1]? = some last ∧ deleteTurn f p = .ok f' ∧
      f'.m = { f.m with size := f.m.size - 1 } ∧ f'.cells = writeAt 0 f.cells p last := by
  have hlt : decr32 f.m.size < f.cells.length := by
    have := f.size_le
    rw [decr32_of_pos hsize]
    omega
  refine ⟨_, f.cells[decr32 f.m.size], ?_, dif_pos hlt, ?_, rfl⟩
  · rw [← decr32_of_pos hsize, List.getElem?_eq_getElem hlt]
  · simp only [decr32_of_pos hsize]

/-- **The rule for the loop of a delete**: `Q` says what the cells are after the turns of `pre`,
and moving the last row that is still counted takes it one position further. -/
lemma deleteTurn_foldlM_ok {Q : List ℕ → List ℤ → Prop} {f : DataFile} {pos : List ℕ}
    (hlen : pos.length ≤ f.m.size)
    (hstep : ∀ pre p post cells last, pos = pre ++ p :: post →
      cells[f.m.size - (pre.length + 1)]? = some last → Q pre cells →
      Q (pre ++ [p]) (writeAt 0 cells p last))
    (h : Q [] f.cells) :
    ∃ f', pos.foldlM deleteTurn f = .ok f' ∧
      f'.m = { f.m with size := f.m.size - pos.length } ∧ Q pos f'.cells := by
  refine foldlM_ok (P := fun pre (f' : DataFile) =>
    f'.m = { f.m with size := f.m.size - pre.length } ∧ Q pre f'.cells) pos ?_ ⟨by simp, h⟩
  intro pre p post f₁ hsplit h₁
  obtain ⟨hm, hQ⟩ := h₁
  have hsize : f₁.m.size = f.m.size - pre.length := by rw [hm]
  have hpos : pre.length < pos.length := by
    rw [hsplit, List.length_append, List.length_cons]
    omega
  obtain ⟨f₂, last, hlast, hok, hm₂, hcells⟩ := deleteTurn_ok p (show 0 < f₁.m.size by omega)
  have hone : f₁.m.size - 1 = f.m.size - (pre.length + 1) := by omega
  refine ⟨f₂, hok, ?_, ?_⟩
  · rw [hm₂, hone, hm, List.length_append, List.length_singleton]
  · rw [hcells]
    exact hstep pre p post f₁.cells last hsplit (by rw [← hone, hlast]) hQ

/-- Positions among the rows that stay: each takes the value of one of the last rows, in
reverse order. -/
lemma deleteTurn_foldlM_front {b : ℕ} {pos : List ℕ} {f : DataFile} (hpos : ∀ p ∈ pos, p < b)
    (hb : b + pos.length ≤ f.m.size) :
    ∃ f', pos.foldlM deleteTurn f = .ok f' ∧
      f'.m = { f.m with size := f.m.size - pos.length } ∧
      f'.cells = overwrite f.cells pos (f.stored.drop (f.m.size - pos.length)).reverse := by
  have hle := f.size_le
  refine deleteTurn_foldlM_ok (Q := fun pre cells =>
    cells = overwrite f.cells pre (f.stored.drop (f.m.size - pre.length)).reverse) (by omega)
    ?_ (by rw [overwrite])
  rintro pre p post cells last hsplit hlast rfl
  have hn : pre.length < pos.length := by
    rw [hsplit, List.length_append, List.length_cons]
    omega
  have hp : p < b := hpos p (by rw [hsplit]; exact List.mem_append_right _ List.mem_cons_self)
  -- the writes so far are all in front of the rows that are still to be moved
  have hfresh : f.m.size - (pre.length + 1) ∉ pre := fun hmem => by
    have := hpos _ (by rw [hsplit]; exact List.mem_append_left _ hmem)
    omega
  rw [getElem?_overwrite hfresh, DataFile.getElem?_cells (by omega)] at hlast
  have hdrop : f.stored.drop (f.m.size - (pre.length + 1))
      = last :: f.stored.drop (f.m.size - pre.length) := by
    obtain ⟨hi, hget⟩ := List.getElem?_eq_some_iff.mp hlast
    rw [List.drop_eq_getElem_cons hi, hget,
      show f.m.size - (pre.length + 1) + 1 = f.m.size - pre.length by omega]
  have hcount : pre.length = (f.stored.drop (f.m.size - pre.length)).reverse.length := by
    rw [List.length_reverse, List.length_drop, f.length_stored]
    omega
  rw [List.length_append, List.length_singleton, hdrop, List.reverse_cons,
    overwrite_append hcount, writeAt_of_lt last (by rw [length_overwrite]; omega), overwrite,
    overwrite]

/-- Positions behind the rows that stay: those rows are not touched. -/
lemma deleteTurn_foldlM_tail {b : ℕ} {pos : List ℕ} {f : DataFile} (hpos : ∀ p ∈ pos, b ≤ p)
    (hb : b + pos.length ≤ f.m.size) :
    ∃ f', pos.foldlM deleteTurn f = .ok f' ∧
      f'.m = { f.m with size := f.m.size - pos.length } ∧
      f'.cells.take b = f.cells.take b := by
  refine deleteTurn_foldlM_ok (Q := fun _ cells => cells.take b = f.cells.take b) (by omega)
    ?_ rfl
  intro pre p post cells last hsplit hlast htake
  have hn : pre.length < pos.length := by
    rw [hsplit, List.length_append, List.length_cons]
    omega
  have hp : b ≤ p := hpos p (by rw [hsplit]; exact List.mem_append_right _ List.mem_cons_self)
  obtain ⟨hlt, -⟩ := List.getElem?_eq_some_iff.mp hlast
  rw [← htake, writeAt]
  split_ifs with hin
  · rw [List.take_set_of_le hp]
  · rw [List.append_assoc, List.take_append_of_le_length (by omega)]

/-- Strictly increasing positions below `n` are at most `n`. -/
lemma length_le_of_increasing {pos : List ℕ} {n : ℕ} (hinc : pos.Pairwise (· < ·))
    (hlt : ∀ p ∈ pos, p < n) : pos.length ≤ n := by
  have hnodup : pos.Nodup := hinc.imp fun h => h.ne
  have hsub : pos.Subperm (List.range n) :=
    hnodup.subperm fun p hp => List.mem_range.mpr (hlt p hp)
  simpa using hsub.length_le

/-- **What a delete leaves**: of the rows in front the ones it is not given, and as many of
the last rows as it was given positions in front. -/
theorem deleteHelper_stored {c : Column} {pos : List ℕ} (hc : c.data.m.type = .unsorted)
    (hinc : pos.Pairwise (· < ·)) (hlt : ∀ p ∈ pos, p < c.data.m.size) :
    ∃ c', deleteHelper c pos = .ok c' ∧ c'.data.m.size = c.data.m.size - pos.length ∧
      c'.data.stored.Perm
        (keepFrom 0 pos (c.data.stored.take (c.data.m.size - pos.length)) ++
          c.data.stored.drop
            (c.data.m.size - pos.countP (· < c.data.m.size - pos.length))) := by
  set b := c.data.m.size - pos.length with hb
  have hlen := length_le_of_increasing hinc hlt
  have hcut := cutBy_lt (hinc.imp fun h => h.le) b
  have hcount := pos.countP_le_length (p := (· < b))
  set m₀ := pos.countP (· < b) with hm₀
  -- the positions in front are the first `m₀` ones
  have hfront : ∀ p ∈ pos.take m₀, p < b := by
    intro p hp
    rw [hm₀, ← hcut.filter_eq_take] at hp
    simpa using (List.mem_filter.mp hp).2
  have hback : ∀ p ∈ pos.drop m₀, b ≤ p := by
    intro p hp
    obtain ⟨i, hi, rfl⟩ := List.mem_iff_getElem.mp hp
    rw [List.length_drop] at hi
    rw [List.getElem_drop]
    refine not_lt.mp fun h => ?_
    have := (hcut.lt_countP_iff (by omega)).mp h
    omega
  have htake : (pos.take m₀).length = m₀ := by rw [List.length_take]; omega
  obtain ⟨f₁, hok₁, hm₁, hcells₁⟩ := deleteTurn_foldlM_front (f := c.data) hfront
    (by rw [htake]; omega)
  obtain ⟨f₂, hok₂, hm₂, htake₂⟩ := deleteTurn_foldlM_tail (f := f₁) hback
    (by rw [hm₁, List.length_drop]; simp only; omega)
  have hfold : pos.foldlM deleteTurn c.data = .ok f₂ := by
    rw [← List.take_append_drop m₀ pos]
    exact foldlM_append_ok.mpr ⟨f₁, hok₁, hok₂⟩
  have hsize : f₂.m.size = b := by
    rw [hm₂, hm₁, htake, List.length_drop]
    simp only
    omega
  refine ⟨{ c with data := f₂ }, ?_, hsize, ?_⟩
  · rw [deleteHelper, if_pos hc, hfold, Outcome.ok_bind]
  · have hcells : c.data.cells.take b = c.data.stored.take b := by
      rw [DataFile.stored, List.take_take, min_eq_left (by omega)]
    have hstored : f₂.stored = overwrite (c.data.stored.take b) (pos.take m₀)
        (c.data.stored.drop (c.data.m.size - m₀)).reverse := by
      rw [DataFile.stored, hsize, htake₂, hcells₁, take_overwrite, hcells, htake]
    have hkeep : keepFrom 0 (pos.take m₀) (c.data.stored.take b)
        = keepFrom 0 pos (c.data.stored.take b) := by
      refine keepFrom_congr fun i _ hi => ?_
      rw [Nat.zero_add, List.length_take] at hi
      refine ⟨fun h => List.mem_of_mem_take h, fun h => ?_⟩
      rw [hm₀, ← hcut.filter_eq_take, List.mem_filter]
      exact ⟨h, by simpa using lt_of_lt_of_le hi (min_le_left _ _)⟩
    have hlen : (pos.take m₀).length
        = (c.data.stored.drop (c.data.m.size - m₀)).reverse.length := by
      rw [htake, List.length_reverse, List.length_drop, c.data.length_stored]
      omega
    have hperm := overwrite_perm hlen ((hinc.imp fun h => h.ne).sublist (List.take_sublist _ _))
      (l := c.data.stored.take b)
      (fun p hp => by
        rw [List.length_take, c.data.length_stored]
        have := hfront p hp
        omega)
    rw [hkeep] at hperm
    exact hstored ▸ hperm.trans ((List.reverse_perm _).append_left _)

/-- The delete removes exactly the rows it is given. -/
def DeletesExactly (c : Column) (pos : List ℕ) : Prop :=
  ∃ c', deleteHelper c pos = .ok c' ∧ c'.data.m.size = c.data.stored.length - pos.length ∧
    c'.data.stored.Perm (keepFrom 0 pos c.data.stored)

/-- **Deleting rows of an UNSORTED column.** A delete of `k` rows from `n` removes exactly
those rows when, and only when, the last rows, as many as there are positions below `n - k`,
are as a multiset the rows from `n - k` on that are not deleted. -/
theorem deleteHelper_deletes_iff (c : Column) (pos : List ℕ) (hc : c.data.m.type = .unsorted)
    (hinc : pos.Pairwise (· < ·)) (hlt : ∀ p ∈ pos, p < c.data.m.size) :
    DeletesExactly c pos ↔
      (c.data.stored.drop (c.data.m.size - pos.countP (· < c.data.m.size - pos.length))).Perm
        (keepFrom (c.data.m.size - pos.length) pos
          (c.data.stored.drop (c.data.m.size - pos.length))) := by
  obtain ⟨c', hok, hsize, hperm⟩ := deleteHelper_stored hc hinc hlt
  have hsplit : keepFrom 0 pos c.data.stored
      = keepFrom 0 pos (c.data.stored.take (c.data.m.size - pos.length))
        ++ keepFrom (c.data.m.size - pos.length) pos
            (c.data.stored.drop (c.data.m.size - pos.length)) := by
    conv_lhs => rw [← List.take_append_drop (c.data.m.size - pos.length) c.data.stored]
    rw [keepFrom_append, List.length_take, c.data.length_stored, min_eq_left (by omega),
      Nat.zero_add]
  constructor
  · rintro ⟨c'', hok', -, hperm'⟩
    rw [hok] at hok'
    cases hok'
    rw [hsplit] at hperm'
    exact (List.perm_append_left_iff _).mp (hperm.symm.trans hperm')
  · intro h
    refine ⟨c', hok, by rw [c.data.length_stored, hsize], ?_⟩
    rw [hsplit]
    exact hperm.trans (h.append_left _)

/-- The column of the rows `10, 20, 30`. -/
def threeRows : Column where
  data :=
    { m := { type := .unsorted, size := 3, nextFree := 0, root := 0 }
      cells := [10, 20, 30]
      size_le := le_rfl }
  nodes := none

/-- `deleteHelper_deletes_iff` at three rows, of which the first two are deleted. -/
theorem threeRows_delete_front : DeletesExactly threeRows [0, 1] :=
  (deleteHelper_deletes_iff threeRows [0, 1] rfl (by decide) (by decide)).mpr (by decide)

/-- Deleting the first and the last of the rows `10, 20, 30` leaves the last one. -/
theorem delete_first_and_last_keeps_last :
    (∃ c, deleteHelper threeRows [0, 2] = .ok c ∧ c.data.stored = [30]) ∧
    ¬ DeletesExactly threeRows [0, 2] := by
  refine ⟨⟨_, rfl, rfl⟩, ?_⟩
  rintro ⟨c, hok, -, hperm⟩
  cases hok
  exact absurd hperm (by decide)

end ColumnDb
