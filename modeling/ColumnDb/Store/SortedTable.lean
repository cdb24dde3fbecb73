import ColumnDb.Store.Table

/-!
Tables whose first column is SORTED and whose other columns are UNSORTED.

An insert puts the value of the SORTED column at the index that `get_lower_bound` returns and
the values of the other columns at the end. From that index on, the values of the SORTED
column move one row down and the others stay.

* `mixRow`: the first value of one row with the other values of the next one.
* `Sheared`: the rows after an insert, and `SortedTable.insertWork`, the step.
* `Meets`: two rows that differ in the first column only, or in the other columns only. Mixing
  them gives one of the two.
* `RowsMeet`: the condition on an insert, that the rows that move meet one another.
* `sortedTable_rows_whole`: under it no row is torn; and among rows none of which mixes two
  others, nothing less will do.
-/

namespace ColumnDb

/-! ### The table -/

/-- Creating a table: the column `first` SORTED and the columns `rest` UNSORTED. -/
def createSortedTable (d : Disk) (first : String) (rest : List String) : Disk :=
  createTable (Function.update d first (some (Column.makeNew .sorted))) rest

/-- Creating a table leaves the other files as they were. -/
lemma createTable_of_notMem {names : List String} : ∀ {d : Disk} {name : String},
    name ∉ names → createTable d names name = d name := by
  induction names with
  | nil => exact fun _ => rfl
  | cons x names ih =>
      intro d name h
      rw [List.mem_cons, not_or] at h
      have hstep : createTable d (x :: names) name
          = createTable (Function.update d x (some (Column.makeNew .unsorted))) names name := rfl
      rw [hstep, ih h.2, Function.update_of_ne h.1]

/-- The row `i` read across the columns. -/
def tableRow (d : Disk) (i : ℕ) : Row := fun name =>
  ((d name).bind fun c => c.data.stored[i]?).getD 0

/-- The first `n` rows read across the columns. -/
def tableRows (d : Disk) (n : ℕ) : List Row := (List.range n).map (tableRow d)

/-- The runs of such a table: it is created, and then changed by insert commands that give
one value for each column and meet the condition `C`. The list holds the rows supplied. -/
inductive SortedTableRun (C : Disk → List (String × ℤ) → Prop) (d₀ : Disk) (first : String)
    (rest : List String) : Disk → List Row → Prop where
  | create : SortedTableRun C d₀ first rest (createSortedTable d₀ first rest) []
  | insert {d d' : Disk} {supplied : List Row} {vals : List (String × ℤ)}
      (h : SortedTableRun C d₀ first rest d supplied)
      (hvals : (vals.map Prod.fst).Perm (first :: rest)) (hmeets : C d vals)
      (hrun : insertWork d vals = .ok d') :
      SortedTableRun C d₀ first rest d' (supplied ++ [rowOf vals])

/-! ### Mixing two rows -/

/-- The value of `first` from one row and the other values from another. -/
def mixRow (first : String) (r r' : Row) : Row := fun name =>
  if name = first then r name else r' name

@[simp] lemma mixRow_first (first : String) (r r' : Row) : mixRow first r r' first = r first :=
  if_pos rfl

lemma mixRow_of_ne {first name : String} (h : name ≠ first) (r r' : Row) :
    mixRow first r r' name = r' name := if_neg h

/-- Two rows with the same value of `first`, or with the same values of all others. -/
def Meets (first : String) (rest : List String) (r r' : Row) : Prop :=
  r first = r' first ∨ ∀ name ∈ rest, r name = r' name

/-- Two rows that agree on the columns of the table. -/
def Agrees (names : List String) (r r' : Row) : Prop := ∀ name ∈ names, r name = r' name

/-- The rows that agree with a supplied one. -/
def Supplied (names : List String) (supplied : List Row) (r : Row) : Prop :=
  ∃ r' ∈ supplied, Agrees names r r'

lemma Supplied.append {names : List String} {supplied : List Row} {r : Row}
    (h : Supplied names supplied r) (more : List Row) : Supplied names (supplied ++ more) r := by
  obtain ⟨r', hr', hagrees⟩ := h
  exact ⟨r', List.mem_append_left _ hr', hagrees⟩

lemma Supplied.new (names : List String) (supplied : List Row) (r : Row) :
    Supplied names (supplied ++ [r]) r :=
  ⟨r, List.mem_append_right _ (List.mem_singleton_self r), fun _ _ => rfl⟩

section Mixing

variable {first : String} {rest : List String} {supplied : List Row} {r r' : Row}

/-- Mixing two supplied rows that meet gives a supplied row. -/
lemma Supplied.mixRow (hfirst : first ∉ rest) (hr : Supplied (first :: rest) supplied r)
    (hr' : Supplied (first :: rest) supplied r') (hmeets : Meets first rest r r') :
    Supplied (first :: rest) supplied (mixRow first r r') := by
  rcases hmeets with hmeets | hmeets
  · obtain ⟨s, hs, hagrees⟩ := hr'
    refine ⟨s, hs, fun name hname => ?_⟩
    rcases List.mem_cons.mp hname with rfl | hname
    · rw [mixRow_first, hmeets, hagrees _ List.mem_cons_self]
    · rw [mixRow_of_ne (ne_of_mem_of_not_mem hname hfirst),
        hagrees _ (List.mem_cons_of_mem _ hname)]
  · obtain ⟨s, hs, hagrees⟩ := hr
    refine ⟨s, hs, fun name hname => ?_⟩
    rcases List.mem_cons.mp hname with rfl | hname
    · rw [mixRow_first, hagrees _ List.mem_cons_self]
    · rw [mixRow_of_ne (ne_of_mem_of_not_mem hname hfirst), ← hmeets name hname,
        hagrees _ (List.mem_cons_of_mem _ hname)]

/-- Rows none of which has the first value of a second and the other values of a third, unless
these two meet. -/
def Unmixed (first : String) (rest : List String) (supplied : List Row) : Prop :=
  ∀ r ∈ supplied, ∀ r' ∈ supplied, ∀ s ∈ supplied,
    s first = r first → (∀ name ∈ rest, s name = r' name) → Meets first rest r r'

/-- Among unmixed rows, two rows whose mixture is supplied meet. -/
lemma Unmixed.meets (hunmixed : Unmixed first rest supplied) (hfirst : first ∉ rest)
    (hr : Supplied (first :: rest) supplied r) (hr' : Supplied (first :: rest) supplied r')
    (hmix : Supplied (first :: rest) supplied (ColumnDb.mixRow first r r')) :
    Meets first rest r r' := by
  obtain ⟨a, ha, hra⟩ := hr
  obtain ⟨b, hb, hrb⟩ := hr'
  obtain ⟨s, hs, hmix⟩ := hmix
  have hsa : s first = a first := by
    rw [← hmix _ List.mem_cons_self, mixRow_first, hra _ List.mem_cons_self]
  have hsb : ∀ name ∈ rest, s name = b name := fun name hname => by
    rw [← hmix _ (List.mem_cons_of_mem _ hname), mixRow_of_ne (ne_of_mem_of_not_mem hname hfirst),
      hrb _ (List.mem_cons_of_mem _ hname)]
  refine (hunmixed a ha b hb s hs hsa hsb).imp (fun h => ?_) fun h name hname => ?_
  · rw [hra _ List.mem_cons_self, h, hrb _ List.mem_cons_self]
  · rw [hra _ (List.mem_cons_of_mem _ hname), h name hname, hrb _ (List.mem_cons_of_mem _ hname)]

end Mixing

/-! ### The rows after an insert -/

/-- The rows after an insert of `r`: its first value comes in at the index `i`, its other
values at the end. -/
def sheared (first : String) (rows : List Row) (i : ℕ) (r : Row) : List Row :=
  rows.take i ++ List.zipWith (mixRow first) (r :: rows.drop i) (rows.drop i ++ [r])

section Sheared

variable {first : String} {rest : List String} {supplied rows : List Row} {i : ℕ} {r : Row}

lemma map_zipWith_mixRow_first (l l' : List Row) (h : l.length = l'.length) :
    (List.zipWith (mixRow first) l l').map (· first) = l.map (· first) := by
  induction l generalizing l' with
  | nil => rfl
  | cons a l ih =>
      cases l' with
      | nil => cases h
      | cons b l' => simpa using ih l' (by simpa using h)

lemma map_zipWith_mixRow_of_ne {name : String} (hname : name ≠ first) (l l' : List Row)
    (h : l.length = l'.length) :
    (List.zipWith (mixRow first) l l').map (· name) = l'.map (· name) := by
  induction l generalizing l' with
  | nil => rw [List.length_eq_zero_iff.mp h.symm]; rfl
  | cons a l ih =>
      cases l' with
      | nil => cases h
      | cons b l' =>
          simp only [List.zipWith_cons_cons, List.map_cons, mixRow_of_ne hname]
          rw [ih l' (by simpa using h)]

lemma length_sheared (hi : i ≤ rows.length) :
    (sheared first rows i r).length = rows.length + 1 := by
  simp only [sheared, List.length_append, List.length_take, List.length_zipWith, List.length_cons,
    List.length_drop, List.length_nil]
  omega

lemma map_sheared_first :
    (sheared first rows i r).map (· first)
      = (rows.map (· first)).take i ++ r first :: (rows.map (· first)).drop i := by
  rw [sheared, List.map_append, map_zipWith_mixRow_first _ _ (by simp), List.map_cons,
    List.map_take, List.map_drop]

lemma map_sheared_of_ne {name : String} (hname : name ≠ first) :
    (sheared first rows i r).map (· name) = rows.map (· name) ++ [r name] := by
  rw [sheared, List.map_append, map_zipWith_mixRow_of_ne hname _ _ (by simp), ← List.map_append,
    ← List.append_assoc, List.take_append_drop, List.map_append, List.map_singleton]

/-- The rows that move, between the new row that pushes them and the new row they make room
for. -/
def moving (rows : List Row) (i : ℕ) (r : Row) : List Row := r :: rows.drop i ++ [r]

lemma isChain_moving_iff {R : Row → Row → Prop} :
    (moving rows i r).IsChain R ↔ List.Forall₂ R (r :: rows.drop i) (rows.drop i ++ [r]) := by
  rw [moving, List.isChain_iff_forall₂, List.dropLast_concat]
  simp

/-- A statement about all pairs of two lists is one about the list of their mixtures. -/
lemma forall_mem_zipWith {α β γ : Type} {f : α → β → γ} {P : γ → Prop} (l : List α) :
    ∀ l' : List β, l.length = l'.length →
      ((∀ x ∈ List.zipWith f l l', P x) ↔ List.Forall₂ (fun a b => P (f a b)) l l') := by
  induction l with
  | nil =>
      intro l' h
      rw [List.length_eq_zero_iff.mp h.symm]
      simp
  | cons a l ih =>
      intro l' h
      cases l' with
      | nil => cases h
      | cons b l' => simp [ih l' (by simpa using h)]

/-- The rows after an insert are supplied ones exactly when the mixtures of the rows that move
are. -/
lemma sheared_supplied_iff {P : Row → Prop} (hrows : ∀ s ∈ rows, P s) :
    (∀ s ∈ sheared first rows i r, P s) ↔
      (moving rows i r).IsChain fun s s' => P (mixRow first s s') := by
  rw [isChain_moving_iff, ← forall_mem_zipWith _ _ (by simp), sheared]
  refine ⟨fun h s hs => h s (List.mem_append_right _ hs), fun h s hs => ?_⟩
  rcases List.mem_append.mp hs with hs | hs
  · exact hrows s (List.mem_of_mem_take hs)
  · exact h s hs

lemma mem_moving {s : Row} (hs : s ∈ moving rows i r) : s = r ∨ s ∈ rows := by
  simp only [moving, List.cons_append, List.mem_cons, List.mem_append, List.not_mem_nil,
    or_false] at hs
  rcases hs with rfl | hs | rfl
  · exact Or.inl rfl
  · exact Or.inr (List.mem_of_mem_drop hs)
  · exact Or.inl rfl

end Sheared

/-! ### The columns through an insert -/

/-- The column `name` of the rows `rows`: SORTED if it is the first one, otherwise UNSORTED
and without stale cells. -/
def ColumnIn (first : String) (rows : List Row) (name : String) (c : Column) : Prop :=
  if name = first then c.data.m.type = .sorted ∧ c.data.stored = rows.map (· first)
  else ColumnOf rows rows.length name c

/-- The table holds the rows `rows`. -/
def SortedTable (first : String) (rest : List String) (d : Disk) (rows : List Row) : Prop :=
  ∀ name ∈ first :: rest, ∃ c, d name = some c ∧ ColumnIn first rows name c

lemma ColumnIn.stored {first name : String} {rows : List Row} {c : Column}
    (h : ColumnIn first rows name c) : c.data.stored = rows.map (· name) := by
  rw [ColumnIn] at h
  split_ifs at h with hname
  · rw [hname, h.2]
  · have hlen : c.data.cells.length ≤ c.data.m.size := by rw [h.cells, h.size, List.length_map]
    rw [DataFile.stored_eq_cells hlen, h.cells]

lemma ColumnIn.size {first name : String} {rows : List Row} {c : Column}
    (h : ColumnIn first rows name c) : c.data.m.size = rows.length := by
  rw [← c.data.length_stored, h.stored, List.length_map]

/-- An insert into a SORTED column goes to the index that `get_lower_bound` returns. -/
lemma insertHelper_sorted_index {c : Column} (hc : c.data.m.type = .sorted) (v : ℤ) :
    ∃ i c', getLowerBound c.data.cells c.data.m.size v = .ok i ∧ i ≤ c.data.m.size ∧
      insertHelper c v = .ok c' ∧ c'.data.m.type = .sorted ∧
      c'.data.stored = c.data.stored.take i ++ v :: c.data.stored.drop i := by
  obtain ⟨i, hi, hidx⟩ := getLowerBound_le c.data v
  obtain ⟨f', hf', hm, hstored⟩ := insertValueToFile_ok hi v
  refine ⟨i, { c with data := f' }, hidx, hi, ?_, by rw [hm]; exact hc, hstored⟩
  simp only [insertHelper, hc, hidx, hf', Outcome.ok_bind]

section Insert

variable {first : String} {rest : List String} {d : Disk} {rows : List Row}

lemma SortedTable.create (d₀ : Disk) (hfirst : first ∉ rest) :
    SortedTable first rest (createSortedTable d₀ first rest) [] := by
  intro name hname
  by_cases h : name = first
  · refine ⟨Column.makeNew .sorted, ?_, ?_⟩
    · rw [h, createSortedTable, createTable_of_notMem hfirst, Function.update_self]
    · rw [ColumnIn, if_pos h]
      exact ⟨rfl, rfl⟩
  · have hrest : name ∈ rest := (List.mem_cons.mp hname).resolve_left h
    refine ⟨_, createTable_of_mem (Or.inl hrest), ?_⟩
    rw [ColumnIn, if_neg h]
    exact ColumnOf.makeNew name

/-- **An insert shears the rows**: from the index of the new value on, the first values move
one row down and the others stay. -/
lemma SortedTable.insertWork (hnodup : (first :: rest).Nodup) (h : SortedTable first rest d rows)
    {vals : List (String × ℤ)} (hvals : (vals.map Prod.fst).Perm (first :: rest)) :
    ∃ c i d', d first = some c ∧
      getLowerBound c.data.cells c.data.m.size (rowOf vals first) = .ok i ∧ i ≤ rows.length ∧
      insertWork d vals = .ok d' ∧
      SortedTable first rest d' (sheared first rows i (rowOf vals)) := by
  obtain ⟨c₀, hc₀, hcol₀⟩ := h first List.mem_cons_self
  obtain ⟨htype, hstored⟩ := (if_pos rfl).mp hcol₀
  obtain ⟨i, c₁, hidx, hi, hins, htype₁, hstored₁⟩ :=
    insertHelper_sorted_index htype (rowOf vals first)
  rw [hcol₀.size] at hi
  have hstep : ∀ x ∈ vals, ∃ c c', d x.1 = some c ∧ insertHelper c x.2 = .ok c' ∧
      ColumnIn first (sheared first rows i (rowOf vals)) x.1 c' := by
    intro x hx
    have hval : x.2 = rowOf vals x.1 := (rowOf_of_mem (hvals.nodup_iff.mpr hnodup) hx).symm
    by_cases hname : x.1 = first
    · refine ⟨c₀, c₁, by rw [hname, hc₀], by rw [hval, hname]; exact hins, ?_⟩
      rw [ColumnIn, if_pos hname, map_sheared_first, hstored₁, hstored]
      exact ⟨htype₁, rfl⟩
    · obtain ⟨c, hc, hcol⟩ := h x.1 (hvals.mem_iff.mp (List.mem_map_of_mem hx))
      rw [ColumnIn, if_neg hname] at hcol
      obtain ⟨c', hok, hcol'⟩ := hcol.insertHelper (rowOf vals)
      refine ⟨c, c', hc, by rw [hval]; exact hok, ?_⟩
      rw [ColumnIn, if_neg hname]
      refine ⟨hcol'.type, ?_, ?_⟩
      · rw [hcol'.size, length_sheared hi]
      · rw [map_sheared_of_ne hname, hcol'.cells, List.map_append, List.map_singleton]
  choose! c c' hc hstep hcol using hstep
  obtain ⟨d', hok, hin, -⟩ : ∃ d', ColumnDb.insertWork d vals = .ok d' ∧
      (∀ x ∈ vals, d' x.1 = some (c' x)) ∧ ∀ name, name ∉ vals.map Prod.fst → d' name = d name :=
    foldlM_onColumn c' vals d (hvals.nodup_iff.mpr hnodup) fun x hx => ⟨c x, hc x hx, hstep x hx⟩
  refine ⟨c₀, i, d', hc₀, hidx, hi, hok, fun name hname => ?_⟩
  obtain ⟨x, hx, rfl⟩ := List.mem_map.mp (hvals.mem_iff.mpr hname)
  exact ⟨c' x, hin x hx, hcol x hx⟩

/-- The rows of a table are whole exactly when each of them is supplied. -/
lemma SortedTable.wholeRows_iff (h : SortedTable first rest d rows) (supplied : List Row) :
    WholeRows (first :: rest) d supplied ↔ ∀ r ∈ rows, Supplied (first :: rest) supplied r := by
  constructor
  · rintro ⟨n, hsize, hwhole⟩ r hr
    obtain ⟨i, hi, rfl⟩ := List.mem_iff_getElem.mp hr
    have hn : n = rows.length := by
      obtain ⟨c, hc, hcol⟩ := h first List.mem_cons_self
      obtain ⟨c', hc', hn⟩ := hsize first List.mem_cons_self
      rw [hc] at hc'
      cases hc'
      rw [← hn, hcol.size]
    obtain ⟨r', hr', hrow⟩ := hwhole i (by omega)
    refine ⟨r', hr', fun name hname => ?_⟩
    obtain ⟨c, hc, hcol⟩ := h name hname
    have := hrow name hname c hc
    rw [hcol.stored, List.getElem?_map, List.getElem?_eq_getElem hi] at this
    exact Option.some.inj this
  · intro hrows
    refine ⟨rows.length, fun name hname => ?_, fun i hi => ?_⟩
    · obtain ⟨c, hc, hcol⟩ := h name hname
      exact ⟨c, hc, hcol.size⟩
    · obtain ⟨r, hr, hagrees⟩ := hrows _ (List.getElem_mem hi)
      refine ⟨r, hr, fun name hname c hc => ?_⟩
      obtain ⟨c', hc', hcol⟩ := h name hname
      rw [hc] at hc'
      cases hc'
      rw [hcol.stored, List.getElem?_map, List.getElem?_eq_getElem hi, Option.map_some,
        hagrees name hname]

/-- A row of the table is what is read across the columns. -/
lemma SortedTable.agrees_tableRow (h : SortedTable first rest d rows) {i : ℕ}
    (hi : i < rows.length) : Agrees (first :: rest) (tableRow d i) rows[i] := by
  intro name hname
  obtain ⟨c, hc, hcol⟩ := h name hname
  simp [tableRow, hc, hcol.stored, hi]

/-- The table holds the rows that are read across its columns. -/
lemma SortedTable.read_back (h : SortedTable first rest d rows) :
    SortedTable first rest d (tableRows d rows.length) := by
  intro name hname
  obtain ⟨c, hc, hcol⟩ := h name hname
  have hmap : (tableRows d rows.length).map (· name) = rows.map (· name) := by
    refine List.ext_getElem (by simp [tableRows]) fun i hi hi' => ?_
    rw [List.length_map] at hi'
    simpa [tableRows] using h.agrees_tableRow hi' name hname
  refine ⟨c, hc, ?_⟩
  rw [ColumnIn] at hcol ⊢
  split_ifs at hcol ⊢ with hfirst
  · exact ⟨hcol.1, by rw [hcol.2, ← hfirst, hmap]⟩
  · exact ⟨hcol.type, by simp [tableRows, hcol.size], by rw [hcol.cells, hmap]⟩

end Insert

/-! ### The runs of the table -/

/-- The condition on an insert: of the rows that move and the new one on both sides of them,
each meets the next. -/
def RowsMeet (first : String) (rest : List String) (d : Disk) (vals : List (String × ℤ)) : Prop :=
  ∀ c i, d first = some c →
    getLowerBound c.data.cells c.data.m.size (rowOf vals first) = .ok i →
    (moving (tableRows d c.data.m.size) i (rowOf vals)).IsChain (Meets first rest)

section Run

variable {first : String} {rest : List String} {d₀ d : Disk} {supplied : List Row}

/-- Every run leaves a table of the rows that are read across its columns. -/
lemma SortedTableRun.table {C : Disk → List (String × ℤ) → Prop} (hnodup : (first :: rest).Nodup)
    (h : SortedTableRun C d₀ first rest d supplied) :
    ∃ n, (tableRows d n).length = n ∧ SortedTable first rest d (tableRows d n) := by
  induction h with
  | create =>
      exact ⟨0, rfl, SortedTable.create d₀ (List.nodup_cons.mp hnodup).1⟩
  | insert h hvals hmeets hrun ih =>
      obtain ⟨n, hn, htable⟩ := ih
      obtain ⟨c, i, d', -, -, hi, hok, htable'⟩ := htable.insertWork hnodup hvals
      rw [hrun] at hok
      cases hok
      exact ⟨_, by rw [tableRows, List.length_map, List.length_range], htable'.read_back⟩

/-- An insert into a table of whole rows: the rows stay whole when those that move meet, and
among unmixed rows only then. -/
lemma SortedTable.insert_whole (hnodup : (first :: rest).Nodup) {n : ℕ}
    (hn : (tableRows d n).length = n) (h : SortedTable first rest d (tableRows d n))
    (hwhole : WholeRows (first :: rest) d supplied) {vals : List (String × ℤ)}
    (hvals : (vals.map Prod.fst).Perm (first :: rest)) :
    ∃ d', ColumnDb.insertWork d vals = .ok d' ∧
      (RowsMeet first rest d vals → WholeRows (first :: rest) d' (supplied ++ [rowOf vals])) ∧
      (Unmixed first rest (supplied ++ [rowOf vals]) →
        WholeRows (first :: rest) d' (supplied ++ [rowOf vals]) → RowsMeet first rest d vals) := by
  have hfirst : first ∉ rest := (List.nodup_cons.mp hnodup).1
  obtain ⟨c, i, d', hc, hidx, -, hok, h'⟩ := h.insertWork hnodup hvals
  have hsize : c.data.m.size = n := by
    obtain ⟨c', hc', hcol⟩ := h first List.mem_cons_self
    rw [hc] at hc'
    cases hc'
    rw [hcol.size, hn]
  have hrows : ∀ s ∈ tableRows d n, Supplied (first :: rest) (supplied ++ [rowOf vals]) s :=
    fun s hs => ((h.wholeRows_iff supplied).mp hwhole s hs).append _
  have hmoving : ∀ s ∈ moving (tableRows d n) i (rowOf vals),
      Supplied (first :: rest) (supplied ++ [rowOf vals]) s := by
    intro s hs
    rcases mem_moving hs with rfl | hs
    · exact Supplied.new _ _ _
    · exact hrows s hs
  have hiff := (h'.wholeRows_iff (supplied ++ [rowOf vals])).trans (sheared_supplied_iff hrows)
  refine ⟨d', hok, fun hmeets => hiff.mpr ?_, fun hunmixed hwhole' => ?_⟩
  · have hchain := hmeets c i hc hidx
    rw [hsize] at hchain
    exact hchain.imp_of_mem_imp fun s s' hs hs' hmeet =>
      (hmoving s hs).mixRow hfirst (hmoving s' hs') hmeet
  · intro c' i' hc' hidx'
    rw [hc] at hc'
    cases hc'
    rw [hidx] at hidx'
    cases hidx'
    rw [hsize]
    exact (hiff.mp hwhole').imp_of_mem_imp fun s s' hs hs' hmix =>
      hunmixed.meets hfirst (hmoving s hs) (hmoving s' hs') hmix

/-- **When the rows of a table with a SORTED column stay whole.** In every run whose inserts
find that the rows that move meet, every row read across the columns is one that a single
insert supplied. No insert into a table of fewer than `2 ^ 31` rows fails; and where the rows
are whole and none of the supplied ones mixes two others, they stay whole exactly under this
condition. -/
theorem sortedTable_rows_whole (d₀ : Disk) (first : String) (rest : List String)
    (hnodup : (first :: rest).Nodup) :
    (∀ d supplied, SortedTableRun (RowsMeet first rest) d₀ first rest d supplied →
      WholeRows (first :: rest) d supplied) ∧
    ∀ d supplied, SortedTableRun (fun _ _ => True) d₀ first rest d supplied →
      supplied.length < 2 ^ 31 →
      ∀ vals : List (String × ℤ), (vals.map Prod.fst).Perm (first :: rest) →
        ∃ d', insertWork d vals = .ok d' ∧
          (WholeRows (first :: rest) d supplied →
            Unmixed first rest (supplied ++ [rowOf vals]) →
            (WholeRows (first :: rest) d' (supplied ++ [rowOf vals]) ↔
              RowsMeet first rest d vals)) := by
  refine ⟨fun d supplied hrun => ?_, fun d supplied hrun _ vals hvals => ?_⟩
  · induction hrun with
    | create =>
        have htable := SortedTable.create d₀ (List.nodup_cons.mp hnodup).1
        exact (htable.wholeRows_iff []).mpr fun r hr => absurd hr List.not_mem_nil
    | insert h hvals hmeets hrun ih =>
        obtain ⟨n, hn, htable⟩ := h.table hnodup
        obtain ⟨d', hok, hwhole, -⟩ := htable.insert_whole hnodup hn ih hvals
        rw [hrun] at hok
        cases hok
        exact hwhole hmeets
  · obtain ⟨n, hn, htable⟩ := hrun.table hnodup
    by_cases hwhole : WholeRows (first :: rest) d supplied
    · obtain ⟨d', hok, hif, honly⟩ := htable.insert_whole hnodup hn hwhole hvals
      exact ⟨d', hok, fun _ hunmixed => ⟨honly hunmixed, hif⟩⟩
    · obtain ⟨c, i, d', -, -, -, hok, -⟩ := htable.insertWork hnodup hvals
      exact ⟨d', hok, fun h => absurd h hwhole⟩

end Run

/-- Rows with one value in the SORTED column meet. -/
lemma rowsMeet_of_first_eq {first : String} {rest : List String} {d : Disk}
    {vals : List (String × ℤ)}
    (h : ∀ c, d first = some c → ∀ v ∈ c.data.stored, v = rowOf vals first) :
    RowsMeet first rest d vals := by
  intro c i hc _
  have hone : ∀ s ∈ moving (tableRows d c.data.m.size) i (rowOf vals),
      s first = rowOf vals first := by
    intro s hs
    rcases mem_moving hs with rfl | hs
    · rfl
    · obtain ⟨k, hk, rfl⟩ := List.mem_map.mp hs
      have hlt : k < c.data.stored.length := by simpa using hk
      have hrow : tableRow d k first = c.data.stored[k] := by
        simp [tableRow, hc, List.getElem?_eq_getElem hlt]
      rw [hrow]
      exact h c hc _ (List.getElem_mem hlt)
  refine (List.pairwise_of_forall_mem_list fun s hs s' hs' => ?_).isChain
  exact Or.inl ((hone s hs).trans (hone s' hs').symm)

/-- `sortedTable_rows_whole` at the inserts of `3, 30` and of `3, 50`: the second one moves the
first row, which it meets. -/
theorem equalRows_whole :
    ∃ d, SortedTableRun (RowsMeet "a" ["b"]) (fun _ => none) "a" ["b"] d
        [rowOf [("a", 3), ("b", 30)], rowOf [("a", 3), ("b", 50)]] ∧
      WholeRows ["a", "b"] d [rowOf [("a", 3), ("b", 30)], rowOf [("a", 3), ("b", 50)]] := by
  have hsound := sortedTable_rows_whole (fun _ => none) "a" ["b"] (by decide)
  have hmeets : RowsMeet "a" ["b"] (createSortedTable (fun _ => none) "a" ["b"])
      [("a", 3), ("b", 30)] := by
    refine rowsMeet_of_first_eq fun c hc v hv => ?_
    cases hc
    exact absurd hv List.not_mem_nil
  obtain ⟨d₁, hok₁, -⟩ :=
    hsound.2 _ _ .create (by decide) [("a", 3), ("b", 30)] (List.Perm.refl _)
  have heval : (insertWork (createSortedTable (fun _ => none) "a" ["b"]) [("a", 3), ("b", 30)]
      >>= fun d => .ok ((d "a").map fun c => c.data.stored)) = .ok (some [3]) := by decide +kernel
  rw [hok₁] at heval
  have hmeets₁ : RowsMeet "a" ["b"] d₁ [("a", 3), ("b", 50)] := by
    refine rowsMeet_of_first_eq fun c hc v hv => ?_
    have hstored : c.data.stored = [3] := by
      simpa [hc] using Except.ok.inj heval
    rw [hstored] at hv
    exact List.mem_singleton.mp hv
  obtain ⟨d, hok, -⟩ := hsound.2 _ _ (.insert .create (List.Perm.refl _) trivial hok₁) (by decide)
    [("a", 3), ("b", 50)] (List.Perm.refl _)
  have hrun : SortedTableRun (RowsMeet "a" ["b"]) (fun _ => none) "a" ["b"] d
      [rowOf [("a", 3), ("b", 30)], rowOf [("a", 3), ("b", 50)]] :=
    .insert (.insert .create (List.Perm.refl _) hmeets hok₁) (List.Perm.refl _) hmeets₁ hok
  exact ⟨d, hrun, hsound.1 _ _ hrun⟩

/-- After the inserts of `3, 30` and of `1, 10`, the first row read across the columns is
`1, 30`, which no insert supplied. -/
theorem smallerRow_torn :
    ∃ d, SortedTableRun (fun _ _ => True) (fun _ => none) "a" ["b"] d
        [rowOf [("a", 3), ("b", 30)], rowOf [("a", 1), ("b", 10)]] ∧
      tableRow d 0 "a" = 1 ∧ tableRow d 0 "b" = 30 ∧
      ¬ WholeRows ["a", "b"] d [rowOf [("a", 3), ("b", 30)], rowOf [("a", 1), ("b", 10)]] := by
  have heval : (insertWork (createSortedTable (fun _ => none) "a" ["b"]) [("a", 3), ("b", 30)]
      >>= fun d => insertWork d [("a", 1), ("b", 10)]
      >>= fun d => .ok ((d "a").map fun c => c.data.stored, (d "b").map fun c => c.data.stored))
        = .ok (some [1, 3], some [30, 10]) := by decide +kernel
  obtain ⟨d₁, hok₁, heval⟩ := Outcome.bind_eq_ok.mp heval
  obtain ⟨d, hok, heval⟩ := Outcome.bind_eq_ok.mp heval
  obtain ⟨ha, hb⟩ := Prod.mk.inj (Except.ok.inj heval)
  obtain ⟨a, hda, ha⟩ := Option.map_eq_some_iff.mp ha
  obtain ⟨b, hdb, hb⟩ := Option.map_eq_some_iff.mp hb
  refine ⟨d, .insert (.insert .create (List.Perm.refl _) trivial hok₁) (List.Perm.refl _) trivial
    hok, by simp [tableRow, hda, ha], by simp [tableRow, hdb, hb], ?_⟩
  rintro ⟨n, hsize, hwhole⟩
  obtain ⟨c, hc, hn⟩ := hsize "a" (by simp)
  rw [hda] at hc
  cases hc
  rw [← a.data.length_stored, ha] at hn
  obtain ⟨r, hr, hrow⟩ := hwhole 0 (by simp at hn; omega)
  have hra := hrow "a" (by simp) a hda
  have hrb := hrow "b" (by simp) b hdb
  rw [ha] at hra
  rw [hb] at hrb
  simp only [List.mem_cons, List.not_mem_nil, or_false] at hr
  rcases hr with rfl | rfl
  · exact absurd hra (by decide)
  · exact absurd hrb (by decide)

end ColumnDb
