import ColumnDb.Store.Loading

/-!
The order of the columns in a run of inserts and loads (`helper_insert.c`, `helper_load.c`).

A SORTED column is searched by halves, and the sides of a sort join that are SORTED or BPTREE
columns are taken in the order of the file. Neither command restores that order: an insert into a
BPTREE column goes to the end of the file, one into a SORTED column to a place that is wrong for a
value above all rows, and a load puts the rows in the order of the first column only.

* `StoreOp`, `StoreRun`: the runs of creates, inserts and loads whose steps meet a condition.
* `KeepsOrder`: the condition on a step that leaves SORTED and BPTREE columns in order.
* `StoreRun.ordered`: these columns are in order in every state of such a run, and all cells are
  `int`s.
-/

namespace ColumnDb

/-! ### Runs -/

/-- A value of an `int`. -/
def IsInt32 (x : ℤ) : Prop := -2 ^ 31 ≤ x ∧ x < 2 ^ 31

/-- The commands that fill columns. No column has the name of the file for the nodes of another
one. -/
inductive StoreOp where
  | create (name : String) (type : StorageType)
  | insert (name : String) (val : ℤ)
  | load (n : Node) (colNames : List String) (rows : List (List ℤ))

namespace StoreOp

/-- What a command does to the disk. -/
def run (qsort : (List ℤ → List ℤ → ℤ) → List (List ℤ) → List (List ℤ)) (d : Disk) :
    StoreOp → Outcome Disk
  | create name type => .ok (Function.update d name (some (Column.makeNew type)))
  | insert name val => onColumn d name fun c => insertHelper c val
  | load n colNames rows => loadHelperBy qsort n d colNames rows

/-- The values of a command are `int`s. -/
def Ints : StoreOp → Prop
  | create _ _ => True
  | insert _ val => IsInt32 val
  | load _ _ rows => ∀ row ∈ rows, ∀ x ∈ row, IsInt32 x

end StoreOp

/-- The runs from an empty disk whose steps meet the condition `C`. -/
inductive StoreRun (qsort : (List ℤ → List ℤ → ℤ) → List (List ℤ) → List (List ℤ))
    (C : Disk → StoreOp → Prop) : Disk → Prop where
  | start : StoreRun qsort C fun _ => none
  | step {d d' : Disk} {op : StoreOp} (h : StoreRun qsort C d) (hop : C d op)
      (hrun : op.run qsort d = .ok d') : StoreRun qsort C d'

section Runs

variable {qsort : (List ℤ → List ℤ → ℤ) → List (List ℤ) → List (List ℤ)} {d d' : Disk}

/-- **The invariant rule for runs.** -/
theorem StoreRun.inv {C : Disk → StoreOp → Prop} {P : Disk → Prop} (hstart : P fun _ => none)
    (hstep : ∀ d d' op, P d → C d op → op.run qsort d = .ok d' → P d') (h : StoreRun qsort C d) :
    P d := by
  induction h with
  | start => exact hstart
  | step h hop hrun ih => exact hstep _ _ _ ih hop hrun

/-- A property of all columns, through a command on one of them. -/
lemma forall_onColumn {P : String → Column → Prop} {name : String} {step : Column → Outcome Column}
    (hall : ∀ x c, d x = some c → P x c) (h : onColumn d name step = .ok d')
    (hstep : ∀ c c', d name = some c → step c = .ok c' → P name c') :
    ∀ x c, d' x = some c → P x c := by
  rw [onColumn, initCol] at h
  cases hc : d name with
  | none =>
      rw [hc] at h
      cases h
  | some c =>
      rw [hc, Outcome.ok_bind] at h
      obtain ⟨c', hok, h⟩ := Outcome.bind_eq_ok.mp h
      cases h
      intro x e he
      by_cases hx : x = name
      · subst hx
        rw [Function.update_self] at he
        cases he
        exact hstep c c' hc hok
      · rw [Function.update_of_ne hx] at he
        exact hall x e he

/-! ### One insert -/

/-- The cells after an insert are the old ones and the value. -/
lemma mem_cells_insertHelper {c c' : Column} {v x : ℤ} (h : insertHelper c v = .ok c')
    (hx : x ∈ c'.data.cells) : x = v ∨ x ∈ c.data.cells := by
  rw [insertHelper] at h
  cases htype : c.data.m.type with
  | unsorted =>
      simp only [htype] at h
      cases h
      exact (List.mem_append.mp hx).symm.imp_left List.mem_singleton.mp
  | sorted =>
      simp only [htype] at h
      obtain ⟨index, -, h⟩ := Outcome.bind_eq_ok.mp h
      obtain ⟨data, hdata, h⟩ := Outcome.bind_eq_ok.mp h
      cases h
      rw [insertValueToFile] at hdata
      split_ifs at hdata
      cases hdata
      rcases List.mem_append.mp hx with hx | hx
      · rcases List.mem_append.mp hx with hx | hx
        · exact Or.inr (List.mem_of_mem_take hx)
        · exact Or.inl (List.mem_singleton.mp hx)
      · exact Or.inr (List.mem_of_mem_drop (List.mem_of_mem_take hx))
  | bptree =>
      simp only [htype] at h
      cases hnodes : c.nodes with
      | none =>
          simp only [hnodes] at h
          cases h
      | some tree =>
          simp only [hnodes] at h
          obtain ⟨tree', -, h⟩ := Outcome.bind_eq_ok.mp h
          cases h
          exact (List.mem_append.mp hx).symm.imp_left List.mem_singleton.mp

/-- The condition on an insert that leaves a SORTED or BPTREE column in order. The row that an
append adds is the first stale cell, and the value only without one. -/
def TakesInOrder (c : Column) (v : ℤ) : Prop :=
  match c.data.m.type with
  | .unsorted => True
  | .sorted => c.data.stored = [] ∨ ∃ x ∈ c.data.stored, v ≤ x
  | .bptree => ∀ x ∈ c.data.stored, x ≤ c.data.stale.head?.getD v

/-- The column is in order, if it is one that is not sorted when it is read. -/
def ColumnOrdered (c : Column) : Prop :=
  c.data.m.type ≠ .unsorted → c.data.stored.Pairwise (· ≤ ·)

/-- **An insert keeps a column in order.** -/
lemma ColumnOrdered.insertHelper {c c' : Column} {v : ℤ} (hc : ColumnOrdered c)
    (htakes : TakesInOrder c v) (h : insertHelper c v = .ok c') : ColumnOrdered c' := by
  intro htype'
  rw [TakesInOrder] at htakes
  cases htype : c.data.m.type with
  | unsorted =>
      rw [ColumnDb.insertHelper, htype] at h
      cases h
      exact absurd htype htype'
  | sorted =>
      rw [htype] at htakes
      obtain ⟨c'', hok, hsorted, -⟩ :=
        (insertsInOrder_iff htype (hc (by rw [htype]; decide)) v).mpr htakes
      rw [hok] at h
      cases h
      exact hsorted
  | bptree =>
      rw [htype] at htakes
      have hsorted := hc (by rw [htype]; decide)
      simp only [ColumnDb.insertHelper, htype] at h
      cases hnodes : c.nodes with
      | none =>
          simp only [hnodes] at h
          cases h
      | some tree =>
          simp only [hnodes] at h
          obtain ⟨tree', -, h⟩ := Outcome.bind_eq_ok.mp h
          cases h
          rw [stored_appendValueToFile]
          refine List.pairwise_append.mpr ⟨hsorted, List.pairwise_singleton _ _, ?_⟩
          intro x hx y hy
          rw [List.mem_singleton.mp hy]
          exact htakes x hx

/-! ### One load -/

/-- The condition on a load that leaves the column `i` in order: the first column of a table that
is sorted by it has first values that are near to each other, and the values of any other column
come in the order of the rows. -/
def LoadsColumn (rows : List (List ℤ)) (sorts : Bool) (i : ℕ) : Prop :=
  if sorts then
    (∀ row ∈ rows, ∀ row' ∈ rows, row'.headD 0 - row.headD 0 < 2 ^ 31) ∧
      ∀ row ∈ rows, ∀ row' ∈ rows, row.headD 0 ≤ row'.headD 0 → row.getD i 0 ≤ row'.getD i 0
  else rows.Pairwise fun row row' => row.getD i 0 ≤ row'.getD i 0

/-- The type of a column, if there is one of that name. -/
def typeOf (d : Disk) (name : String) : Option StorageType := (d name).map fun c => c.data.m.type

/-- A load sorts the rows unless the first column is UNSORTED. -/
def loadSorts (d : Disk) (colNames : List String) : Bool :=
  colNames.head?.bind (typeOf d) ≠ some .unsorted

/-- **The condition on a command** that leaves SORTED and BPTREE columns in order. -/
def StoreOp.KeepsOrder (d : Disk) : StoreOp → Prop
  | .create _ _ => True
  | .insert name val => ∀ c, d name = some c → TakesInOrder c val
  | .load _ colNames rows => ∀ i name, colNames[i]? = some name → typeOf d name ≠ some .unsorted →
      LoadsColumn rows (loadSorts d colNames) i

/-- The values of a column in the rows after the sort of a load. -/
lemma LoadsColumn.pairwise (hqsort : SortsConsistent qsort) {rows : List (List ℤ)} {sorts : Bool}
    {i : ℕ} (h : LoadsColumn rows sorts i) :
    ((if sorts then qsort compareMallocedArray rows else rows).map fun row => row.getD i 0).Pairwise
      (· ≤ ·) := by
  rw [List.pairwise_map]
  cases sorts with
  | false => exact h
  | true =>
      obtain ⟨hnear, hmono⟩ := h
      have hordered := orderedBy_qsort hqsort hnear
      rw [if_pos rfl]
      exact hordered.order.imp_of_mem fun hrow hrow' hle =>
        hmono _ (hordered.perm.mem_iff.mp hrow) _ (hordered.perm.mem_iff.mp hrow') hle

/-- The passes of a load, and the rows they write. -/
lemma loadHelperBy_eq_ok {n : Node} {colNames : List String} {rows : List (List ℤ)}
    (h : loadHelperBy qsort n d colNames rows = .ok d') :
    ∃ d₁, colNames.zipIdx.foldlM (fun e x => onColumn e x.1 (loadColumn
        (if loadSorts d colNames then qsort compareMallocedArray rows else rows) x.2)) d = .ok d₁ ∧
      (d' = d₁ ∨ ∃ name tree,
        onColumn d₁ name (fun c => .ok { c with nodes := some tree }) = .ok d') := by
  obtain ⟨first, hname, h⟩ := Outcome.bind_eq_ok.mp h
  obtain ⟨firstC, hfirst, h⟩ := Outcome.bind_eq_ok.mp h
  obtain ⟨d₁, hpasses, h⟩ := Outcome.bind_eq_ok.mp h
  refine ⟨d₁, ?_, ?_⟩
  · have hsorts : loadSorts d colNames = decide (firstC.data.m.type ≠ .unsorted) := by
      have hhead : colNames.head? = some first := by
        rw [List.head?_eq_getElem?]
        exact fetch_eq_ok.mp hname
      have hfind : d first = some firstC := by
        rw [initCol] at hfirst
        cases hd : d first with
        | none =>
            rw [hd] at hfirst
            cases hfirst
        | some c =>
            rw [hd] at hfirst
            cases hfirst
            rfl
      simp [loadSorts, hhead, typeOf, hfind]
    rw [hsorts]
    simpa using hpasses
  · by_cases hbptree : firstC.data.m.type = .bptree
    · rw [if_pos hbptree] at h
      cases hnodes : firstC.nodes with
      | none =>
          simp only [hnodes] at h
          cases h
      | some tree =>
          simp only [hnodes] at h
          obtain ⟨bptData, -, h⟩ := Outcome.bind_eq_ok.mp h
          obtain ⟨tree', -, h⟩ := Outcome.bind_eq_ok.mp h
          exact Or.inr ⟨first, tree', h⟩
    · rw [if_neg hbptree] at h
      cases h
      exact Or.inl rfl

/-! ### The invariants -/

/-- SORTED and BPTREE columns are in order. -/
def ColumnsOrdered (d : Disk) : Prop := ∀ name c, d name = some c → ColumnOrdered c

/-- All cells are `int`s. -/
def HoldsInts (d : Disk) : Prop := ∀ name c, d name = some c → ∀ x ∈ c.data.cells, IsInt32 x

/-- A pass keeps the types. -/
lemma typeOf_onColumn {name x : String} {step : Column → Outcome Column}
    (h : onColumn d name step = .ok d')
    (htype : ∀ c c', step c = .ok c' → c'.data.m.type = c.data.m.type) :
    typeOf d' x = typeOf d x := by
  obtain ⟨c, hc, h⟩ := Outcome.bind_eq_ok.mp h
  obtain ⟨c', hstep, h⟩ := Outcome.bind_eq_ok.mp h
  cases h
  rw [initCol] at hc
  cases hd : d name with
  | none =>
      rw [hd] at hc
      cases hc
  | some e =>
      rw [hd] at hc
      cases hc
      by_cases hx : x = name
      · subst hx
        rw [typeOf, typeOf, Function.update_self, hd, Option.map_some, Option.map_some,
          htype c c' hstep]
      · rw [typeOf, typeOf, Function.update_of_ne hx]

/-- **A command keeps SORTED and BPTREE columns in order.** -/
lemma ColumnsOrdered.run (hqsort : SortsConsistent qsort) (hd : ColumnsOrdered d) {op : StoreOp}
    (hop : op.KeepsOrder d) (h : op.run qsort d = .ok d') : ColumnsOrdered d' := by
  cases op with
  | create name type =>
      cases h
      intro x c hc
      by_cases hx : x = name
      · subst hx
        rw [Function.update_self] at hc
        cases hc
        exact fun _ => .nil
      · rw [Function.update_of_ne hx] at hc
        exact hd x c hc
  | insert name val =>
      exact forall_onColumn hd h fun c c' hc hok => (hd name c hc).insertHelper (hop c hc) hok
  | load n colNames rows =>
      obtain ⟨d₁, hpasses, hlast⟩ := loadHelperBy_eq_ok h
      have hd₁ : ColumnsOrdered d₁ ∧ ∀ x, typeOf d₁ x = typeOf d x := by
        refine foldlM_inv_of_mem (P := fun e => ColumnsOrdered e ∧ ∀ x, typeOf e x = typeOf d x) _
          (fun a ha e e' he hok => ?_) d d₁ ⟨hd, fun _ => rfl⟩ hpasses
        have htypes : ∀ x, typeOf e' x = typeOf d x := fun x =>
          (typeOf_onColumn hok fun c c' hc => by rw [(loadColumn_eq_ok hc).1]).trans (he.2 x)
        refine ⟨forall_onColumn he.1 hok fun c c' hc hstep htype => ?_, htypes⟩
        obtain ⟨hm, -, -, hstored⟩ := loadColumn_eq_ok hstep
        rw [hstored]
        refine (hop a.2 a.1 (List.mem_zipIdx_iff_getElem?.mp ha) ?_).pairwise hqsort
        rw [← he.2, typeOf, hc, Option.map_some]
        rw [hm] at htype
        exact fun heq => htype (Option.some.inj heq)
      rcases hlast with rfl | ⟨name, tree, hlast⟩
      · exact hd₁.1
      · refine forall_onColumn hd₁.1 hlast fun c c' hc hok => ?_
        cases hok
        exact hd₁.1 name c hc

/-- The rows of a load that sorts them by near first values are the loaded ones. -/
lemma mem_sortedRows (hqsort : SortsConsistent qsort) {n : Node} {colNames : List String}
    {rows : List (List ℤ)} (hop : (StoreOp.load n colNames rows).KeepsOrder d)
    (hne : colNames ≠ []) {row : List ℤ}
    (hrow : row ∈ if loadSorts d colNames then qsort compareMallocedArray rows else rows) :
    row ∈ rows := by
  cases hsorts : loadSorts d colNames with
  | false =>
      rw [hsorts, if_neg Bool.false_ne_true] at hrow
      exact hrow
  | true =>
      rw [hsorts, if_pos rfl] at hrow
      obtain ⟨first, rest, rfl⟩ := List.exists_cons_of_ne_nil hne
      have hloads := hop 0 first rfl (of_decide_eq_true hsorts)
      rw [LoadsColumn, if_pos hsorts] at hloads
      exact (orderedBy_qsort hqsort hloads.1).perm.mem_iff.mp hrow

/-- **A command writes `int`s.** -/
lemma HoldsInts.run (hqsort : SortsConsistent qsort) (hd : HoldsInts d) {op : StoreOp}
    (hints : op.Ints) (hop : op.KeepsOrder d) (h : op.run qsort d = .ok d') : HoldsInts d' := by
  cases op with
  | create name type =>
      cases h
      intro x c hc
      by_cases hx : x = name
      · subst hx
        rw [Function.update_self] at hc
        cases hc
        exact fun _ hmem => absurd hmem List.not_mem_nil
      · rw [Function.update_of_ne hx] at hc
        exact hd x c hc
  | insert name val =>
      refine forall_onColumn hd h fun c c' hc hok x hx => ?_
      rcases mem_cells_insertHelper hok hx with rfl | hx
      · exact hints
      · exact hd name c hc x hx
  | load n colNames rows =>
      obtain ⟨d₁, hpasses, hlast⟩ := loadHelperBy_eq_ok h
      have hd₁ : HoldsInts d₁ := by
        refine foldlM_inv_of_mem (P := HoldsInts) _ (fun a ha e e' he hok => ?_) d d₁ hd hpasses
        refine forall_onColumn he hok fun c c' hc hstep x hx => ?_
        obtain ⟨-, -, hcells, -⟩ := loadColumn_eq_ok hstep
        rw [hcells] at hx
        rcases List.mem_append.mp hx with hx | hx
        · obtain ⟨row, hrow, rfl⟩ := List.mem_map.mp hx
          have hname := List.mem_of_getElem? (List.mem_zipIdx_iff_getElem?.mp ha)
          have hmem := mem_sortedRows hqsort hop (List.ne_nil_of_mem hname) hrow
          rw [List.getD_eq_getElem?_getD]
          cases hget : row[a.2]? with
          | none => exact ⟨by decide, by decide⟩
          | some y => exact hints row hmem y (List.mem_of_getElem? hget)
        · exact he _ c hc x (List.mem_of_mem_drop hx)
      rcases hlast with rfl | ⟨name, tree, hlast⟩
      · exact hd₁
      · refine forall_onColumn hd₁ hlast fun c c' hc hok => ?_
        cases hok
        exact hd₁ name c hc

/-- **The order of the columns** in a run of commands on `int`s that keep it. -/
theorem StoreRun.ordered (hqsort : SortsConsistent qsort)
    (h : StoreRun qsort (fun d op => op.Ints ∧ op.KeepsOrder d) d) :
    ColumnsOrdered d ∧ HoldsInts d := by
  refine h.inv (P := fun d => ColumnsOrdered d ∧ HoldsInts d) ⟨nofun, nofun⟩ ?_
  rintro d d' op ⟨hd, hint⟩ ⟨hints, hop⟩ hrun
  exact ⟨hd.run hqsort hop hrun, hint.run hqsort hints hop hrun⟩

end Runs

end ColumnDb
