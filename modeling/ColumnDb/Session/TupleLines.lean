import ColumnDb.Session.Elementwise
import ColumnDb.Session.Worker

/-!
The lines of a tuple (`helper_fetch_command.c`, `list.c`, `client.c`).

`tuple_helper` appends the selected values to a growing list, variable after variable. The client
has the bytes and the number of the variables; it takes the number of rows from these and goes
through the values by rows.

* `tupleBytes`: what `tuple_helper` returns, as bytes.
* `printTuple`: the lines of the client.
* `printTuple_columns`: regrouping columns of one length gives their rows.
* `tupleLines_iff`: the lines are the rows of the selected values exactly when there are no more
  than `2 ^ 29` of them. One more and the list doubles to `2 ^ 32` bytes, a size that wraps to zero.
-/

namespace ColumnDb

/-! ### The functions of the source -/

/-- The bytes that `tuple_helper` returns. -/
def tupleBytes (d : Disk) (vars : Vars) (names : List String) : Outcome (List UInt8) := do
  .ok (bytesOfInts (← tupleHelper d vars names))

/-- A turn of the inner loop of the client: a value, and a comma unless it is the last one. -/
def printCell (intData : List ℤ) (vCount rowExpected i : ℕ) (out : String) (j : ℕ) :
    Outcome String := do
  let val ← fetch .bounds intData (j * rowExpected + i)
  .ok (out ++ toString val ++ if j ≠ vCount - 1 then "," else "")

/-- A turn of the outer loop of the client: a line. -/
def printRow (intData : List ℤ) (vCount rowExpected : ℕ) (out : String) (i : ℕ) :
    Outcome String := do
  let out ← (List.range vCount).foldlM (printCell intData vCount rowExpected i) (out ++ "(")
  .ok (out ++ ")\n")

/-- The output of the client for the bytes of a TUPLE of `v_count` variables. -/
def printTuple (data : List UInt8) (vCount : ℕ) : Outcome String :=
  if vCount = 0 then .error .undefined
  else
    let rowExpected := data.length / (4 * vCount)
    (List.range rowExpected).foldlM
      (printRow (intsOfBytes data (data.length / 4)) vCount rowExpected) ""

/-! ### The values of the variables -/

/-- A variable that was fetched through a bit vector and is not materialised: its column has `size`
rows and so has the vector, and `vals` are the `n` values at the marks. -/
structure FetchedRows (d : Disk) (vars : Vars) (size n : ℕ) (name : String) (vals : List ℤ) :
    Prop where
  column : ∃ v c, getVariable vars name = .ok v ∧ v.isMaterialized = false ∧ v.isFetched = true ∧
    loadCol d v = .ok c ∧ c.data.m.size = size ∧ v.bv.size = size ∧
    v.bv.rows.map (fun i => c.data.stored[i]?) = vals.map some
  length_vals : vals.length = n
  fits : FitsInt vals

section Columns

variable {d : Disk} {vars : Vars} {size n : ℕ} {names : List String} {cols : List (List ℤ)}

/-- The list takes the values of a variable. -/
lemma FetchedRows.tupleColumn_eq {name : String} {vals : List ℤ}
    (h : FetchedRows d vars size n name vals) (result : DynList ℤ) :
    tupleColumn d vars size result name = appendAll result vals := by
  obtain ⟨v, c, hv, -, hfetched, hc, hsize, hbv, hvals⟩ := h.column
  obtain ⟨hname, hfind⟩ := getVariable_eq_ok.mp hv
  have hfound : findVariable vars name = .ok (some v) := by rw [findVariable, if_neg hname, hfind]
  have hlen : c.data.stored.length = v.bv.size := by rw [c.data.length_stored, hsize, hbv]
  have hmarked : markedValues v.bv c.data.stored.zipIdx = vals := by
    refine List.map_injective_iff.mpr (Option.some_injective _) ?_
    rw [map_some_markedValues, hlen, ← hvals]
    rfl
  have hword := v.bv.length_vec
  have hbits := le_getCeil_mul v.bv.size (show 0 < 32 by decide)
  rw [← hmarked, ← hsize]
  exact ColumnDb.tupleColumn_eq hfound hfetched hc (by omega) result

/-- The loop over the variables appends the values of one after the other. -/
lemma tupleColumn_foldlM (h : List.Forall₂ (FetchedRows d vars size n) names cols) :
    ∀ result, names.foldlM (tupleColumn d vars size) result = appendAll result cols.flatten := by
  induction h with
  | nil => exact fun result => rfl
  | cons hfirst _ ih =>
      intro result
      rw [List.foldlM_cons, hfirst.tupleColumn_eq, List.flatten_cons, appendAll_append]
      exact bind_congr ih

/-- **What `tuple_helper` returns** for fetched variables: its list with their values. -/
theorem tupleBytes_fetched (hnames : names ≠ []) (hn : 1 ≤ n)
    (h : List.Forall₂ (FetchedRows d vars size n) names cols) :
    tupleBytes d vars names
      = appendAll (createList ℤ 4) cols.flatten >>= fun result =>
          .ok (bytesOfInts result.vals) := by
  have hfold := tupleColumn_foldlM h (createList ℤ 4)
  cases h with
  | nil => exact absurd rfl hnames
  | cons hfirst hrest =>
      obtain ⟨v, c, hv, hmaterialized, hfetched, hc, hsize, hbv, hrows⟩ := hfirst.column
      have hpos : 0 < c.data.m.size := by
        have hlen := congrArg List.length hrows
        rw [List.length_map, List.length_map, hfirst.length_vals, BitVector.length_rows] at hlen
        have hle := @List.countP_le_length _ v.bv.bit (List.range v.bv.size)
        rw [List.length_range] at hle
        omega
      rw [tupleBytes, tupleHelper, hv, Outcome.ok_bind, hmaterialized, if_neg Bool.false_ne_true,
        if_pos hfetched, hc, Outcome.ok_bind, if_pos hpos, hsize, hfold, bind_assoc]
      rfl

end Columns

/-! ### The values by rows -/

/-- The bytes of an array are read back. -/
lemma intsOfBytes_bytesOfInts {vals : List ℤ} (h : FitsInt vals) :
    intsOfBytes (bytesOfInts vals) vals.length = vals := by
  induction vals with
  | nil => rfl
  | cons x vals ih =>
      have hx := h x List.mem_cons_self
      have hword : ((x % 2 ^ 32).toNat : ℤ) = x % 2 ^ 32 :=
        Int.toNat_of_nonneg (Int.emod_nonneg x (by decide))
      have hlt : (x % 2 ^ 32).toNat < 2 ^ 32 := by omega
      have hfirst : toInt32 (wordOfBytes (bytesOfWord (x % 2 ^ 32).toNat)) = x := by
        rw [wordOfBytes_bytesOfWord hlt, hword, toInt32, show (2 : ℤ) ^ 32 = ((2 ^ 32 : ℕ) : ℤ) by
          norm_num, Int.emod_bmod]
        exact toInt32_of_range hx
      rw [bytesOfInts, List.flatMap_cons, List.length_cons, intsOfBytes,
        List.take_left' (length_bytesOfWord _), List.drop_left' (length_bytesOfWord _), hfirst]
      exact congrArg (x :: ·) (ih fun y hy => h y (List.mem_cons_of_mem x hy))

lemma length_bytesOfInts (vals : List ℤ) : (bytesOfInts vals).length = 4 * vals.length := by
  rw [bytesOfInts, List.length_flatMap]
  simp [Nat.mul_comm]

/-! ### The lines -/

/-- The line of a row. -/
def tupleLine (row : List ℤ) : String := "(" ++ ",".intercalate (row.map toString) ++ ")\n"

/-- The row `i` of columns. -/
def tupleRow (cols : List (List ℤ)) (i : ℕ) : List ℤ := cols.map (·.getD i 0)

section Lines

variable {n : ℕ} {cols : List (List ℤ)}

/-- A loop that prints a line in each turn. -/
lemma foldlM_lines {α : Type} {turn : String → α → Outcome String} {line : α → String}
    (xs : List α) (h : ∀ x ∈ xs, ∀ out, turn out x = .ok (out ++ line x)) :
    ∀ out, xs.foldlM turn out = .ok (out ++ String.join (xs.map line)) := by
  induction xs with
  | nil => exact fun out => congrArg Except.ok (by simp)
  | cons x xs ih =>
      intro out
      rw [List.foldlM_cons, h x List.mem_cons_self, Outcome.ok_bind,
        ih fun y hy => h y (List.mem_cons_of_mem x hy), List.map_cons, String.join_cons,
        String.append_assoc]

/-- The inner loop from a column on. -/
lemma printCell_foldlM (h : ∀ vals ∈ cols, vals.length = n) {i : ℕ} (hi : i < n)
    (rest : List (List ℤ)) : ∀ (before : List (List ℤ)) (out : String), cols = before ++ rest →
      (List.range' before.length rest.length).foldlM
          (printCell cols.flatten cols.length n i) out
        = .ok (out ++ ",".intercalate ((tupleRow rest i).map toString)) := by
  induction rest with
  | nil =>
      intro before out hcols
      exact congrArg Except.ok (by simp [tupleRow])
  | cons vals rest ih =>
      intro before out hcols
      have hvals : vals.length = n := h vals (by rw [hcols]; simp)
      have hcell : fetch .bounds cols.flatten (before.length * n + i) = .ok (vals.getD i 0) := by
        refine fetch_eq_ok.mpr ?_
        rw [getElem?_flatten_blocks h hi, hcols, List.getElem?_append_right le_rfl, Nat.sub_self]
        simp [hvals, hi]
      have hstep := ih (before ++ [vals]) (out ++ toString (vals.getD i 0) ++ ",") (by
        rw [hcols, List.append_assoc]
        rfl)
      rw [List.length_append, List.length_singleton] at hstep
      rw [List.length_cons, List.range'_succ, List.foldlM_cons, printCell, hcell, Outcome.ok_bind]
      cases rest with
      | nil =>
          have hlast : before.length = cols.length - 1 := by simp [hcols]
          rw [if_neg (not_not.mpr hlast)]
          simp [tupleRow]
      | cons vals' rest =>
          have hmore : before.length ≠ cols.length - 1 := by simp [hcols]
          rw [if_pos hmore, Outcome.ok_bind, hstep]
          simp [tupleRow, String.append_assoc]

/-- **The lines of the client** for columns of one length. -/
theorem printTuple_columns (h : ∀ vals ∈ cols, vals.length = n) (hcols : cols ≠ [])
    (hfits : FitsInt cols.flatten) :
    printTuple (bytesOfInts cols.flatten) cols.length
      = .ok (String.join ((List.range n).map fun i => tupleLine (tupleRow cols i))) := by
  have hpos : 0 < cols.length := List.length_pos_iff.mpr hcols
  have hlen := length_flatten_blocks h
  have hrows : (bytesOfInts cols.flatten).length / (4 * cols.length) = n := by
    rw [length_bytesOfInts, hlen, ← Nat.mul_assoc]
    exact Nat.mul_div_cancel_left n (by omega)
  have hints : intsOfBytes (bytesOfInts cols.flatten) ((bytesOfInts cols.flatten).length / 4)
      = cols.flatten := by
    rw [length_bytesOfInts, Nat.mul_div_cancel_left _ (by decide)]
    exact intsOfBytes_bytesOfInts hfits
  have hrow : ∀ i ∈ List.range n, ∀ out, printRow cols.flatten cols.length n out i
      = .ok (out ++ tupleLine (tupleRow cols i)) := fun i hi out => by
    have hcells := printCell_foldlM h (List.mem_range.mp hi) cols [] (out ++ "(") rfl
    rw [List.length_nil, ← List.range_eq_range'] at hcells
    rw [printRow, hcells, Outcome.ok_bind, tupleLine]
    simp only [String.append_assoc]
  rw [printTuple, if_neg (by omega), hrows, hints]
  exact foldlM_lines _ hrow ""

variable {d : Disk} {vars : Vars} {size : ℕ} {names : List String}

/-- Every column of values has a variable. -/
lemma exists_fetchedRows (h : List.Forall₂ (FetchedRows d vars size n) names cols) :
    ∀ vals ∈ cols, ∃ name, FetchedRows d vars size n name vals := by
  induction h with
  | nil => simp
  | cons hfirst _ ih =>
      intro vals hvals
      rcases List.mem_cons.mp hvals with rfl | hvals
      · exact ⟨_, hfirst⟩
      · exact ih vals hvals

lemma length_of_fetched (h : List.Forall₂ (FetchedRows d vars size n) names cols) :
    ∀ vals ∈ cols, vals.length = n := fun vals hvals =>
  (exists_fetchedRows h vals hvals).elim fun _ hrows => hrows.length_vals

lemma fitsInt_of_fetched (h : List.Forall₂ (FetchedRows d vars size n) names cols) :
    FitsInt cols.flatten := fun x hx => by
  obtain ⟨vals, hvals, hx⟩ := List.mem_flatten.mp hx
  obtain ⟨name, hrows⟩ := exists_fetchedRows h vals hvals
  exact hrows.fits x hx

/-- The values that are appended for fetched variables. -/
lemma length_flatten_fetched (h : List.Forall₂ (FetchedRows d vars size n) names cols) :
    cols.flatten.length = names.length * n := by
  rw [length_flatten_blocks (length_of_fetched h), h.length_eq]

/-- The list can not take more than `2 ^ 29` values. -/
lemma tupleBytes_bounds (hnames : names ≠ []) (hn : 1 ≤ n)
    (h : List.Forall₂ (FetchedRows d vars size n) names cols)
    (hmany : 2 ^ 29 < names.length * n) : tupleBytes d vars names = .error .bounds := by
  have hfull := appendAll_four_bounds (hmany.trans_eq (length_flatten_fetched h).symm)
  rw [tupleBytes_fetched hnames hn h, hfull]
  rfl

/-- **The lines of a tuple** of fetched variables: they are the rows of the selected values exactly
when these are no more than `2 ^ 29`. -/
theorem tupleLines_iff (d : Disk) (vars : Vars) {size n : ℕ} {names : List String}
    {cols : List (List ℤ)} (hnames : names ≠ []) (hn : 1 ≤ n)
    (h : List.Forall₂ (FetchedRows d vars size n) names cols) :
    (tupleBytes d vars names >>= fun data => printTuple data names.length)
        = .ok (String.join ((List.range n).map fun i => tupleLine (tupleRow cols i))) ↔
      names.length * n ≤ 2 ^ 29 := by
  have hlength := length_flatten_fetched h
  constructor
  · intro hlines
    by_contra hmany
    rw [tupleBytes_bounds hnames hn h (not_le.mp hmany)] at hlines
    cases hlines
  · intro hfew
    have hcols : cols ≠ [] := fun hnil => hnames (List.length_eq_zero_iff.mp (by
      rw [h.length_eq, hnil, List.length_nil]))
    obtain ⟨result, happend, hvals⟩ := appendAll_four (hlength.trans_le hfew)
    rw [tupleBytes_fetched hnames hn h, happend, Outcome.ok_bind, Outcome.ok_bind, hvals,
      h.length_eq]
    exact printTuple_columns (length_of_fetched h) hcols (fitsInt_of_fetched h)

end Lines

/-! ### Two columns of two rows -/

section Pairs

/-- A column of two values. -/
def pairColumn (x y : ℤ) : Column where
  data :=
    { m := { type := .unsorted, size := 2, nextFree := 0, root := 0 }
      cells := [x, y]
      size_le := le_rfl }
  nodes := none

/-- The columns `a` and `b`. -/
def pairDisk : Disk := fun name =>
  if name = "a" then some (pairColumn 5 (-6))
  else if name = "b" then some (pairColumn 7 8)
  else none

/-- A variable with both rows of a column. -/
def pairVar (col : String) : SessionVar :=
  { newVariable false 2 false with
    isFetched := true, bv := markAllBv (createBv 2), fetchedCol := some col }

/-- Variables with both columns. -/
def pairVars : Vars := (Vars.create.append "x" (pairVar "a")).append "y" (pairVar "b")

lemma forall₂_fetchedRows_pairs :
    List.Forall₂ (FetchedRows pairDisk pairVars 2 2) ["x", "y"] [[5, -6], [7, 8]] :=
  .cons ⟨⟨pairVar "a", pairColumn 5 (-6), rfl, rfl, rfl, rfl, rfl, rfl, rfl⟩, rfl,
      by unfold FitsInt; decide⟩
    (.cons ⟨⟨pairVar "b", pairColumn 7 8, rfl, rfl, rfl, rfl, rfl, rfl, rfl⟩, rfl,
      by unfold FitsInt; decide⟩ .nil)

/-- `tupleLines_iff` for two columns of two rows, with the lines. -/
theorem twoPairs_tupleLines :
    (tupleBytes pairDisk pairVars ["x", "y"] >>= fun data => printTuple data 2)
      = .ok "(5,7)\n(-6,8)\n" :=
  (tupleLines_iff pairDisk pairVars (by decide) (by decide) forall₂_fetchedRows_pairs).mpr
    (by decide)

end Pairs

/-! ### A column of zeros -/

section Zeros

/-- A column of `n` rows that are zero. -/
def zerosDisk (n : ℕ) : Disk := Function.update (fun _ => none) "a" (some
  { data :=
      { m := { type := .unsorted, size := n, nextFree := 0, root := 0 }
        cells := List.replicate n 0
        size_le := List.length_replicate.ge }
    nodes := none })

/-- A variable with all of its rows. -/
def zerosVar (n : ℕ) : SessionVar :=
  { newVariable false n false with
    isFetched := true, bv := markAllBv (createBv n), fetchedCol := some "a" }

/-- `k` names. -/
def zerosNames (k : ℕ) : List String := (List.range k).map fun i => "v" ++ toString i

/-- These names with the variable. -/
def zerosVars (k n : ℕ) : Vars :=
  (zerosNames k).foldl (fun vars name => vars.append name (zerosVar n)) Vars.create

lemma find_foldl_append (v : SessionVar) (name : String) (names : List String) : ∀ vars : Vars,
    (names.foldl (fun vars name => vars.append name v) vars).find name
      = if name ∈ names then some v else vars.find name := by
  induction names with
  | nil => exact fun vars => rfl
  | cons first names ih =>
      intro vars
      rw [List.foldl_cons, ih]
      by_cases hfirst : name = first
      · rw [hfirst, Vars.find_append_self, if_pos List.mem_cons_self, ite_self]
      · rw [Vars.find_append_of_ne hfirst]
        simp [hfirst]

lemma getVariable_zeros {k n : ℕ} {name : String} (h : name ∈ zerosNames k) :
    getVariable (zerosVars k n) name = .ok (zerosVar n) := by
  refine getVariable_eq_ok.mpr ⟨?_, ?_⟩
  · obtain ⟨i, -, rfl⟩ := List.mem_map.mp h
    simp
  · rw [zerosVars, find_foldl_append, if_pos h]

lemma fetchedRows_zeros {k n : ℕ} {name : String} (h : name ∈ zerosNames k) :
    FetchedRows (zerosDisk n) (zerosVars k n) n n name (List.replicate n 0) where
  column := by
    refine ⟨_, _, getVariable_zeros h, rfl, rfl, rfl, rfl, rfl, ?_⟩
    have hrows : (zerosVar n).bv.rows = List.range n := List.filter_eq_self.mpr fun i hi =>
      BitVector.bit_markAllBv ((lt_getCeil_iff (by decide)).mpr
        ((Nat.div_mul_le_self i 32).trans_lt (List.mem_range.mp hi)))
    have hstored : (⟨⟨.unsorted, n, 0, 0⟩, List.replicate n 0, List.length_replicate.ge⟩ :
        DataFile).stored = List.replicate n 0 := List.take_of_length_le List.length_replicate.le
    rw [hrows]
    refine List.ext_getElem (by simp) fun i hi hi' => ?_
    have hlt : i < n := by simpa using hi
    simp [hstored, hlt]
  length_vals := List.length_replicate
  fits := fun x hx => by
    rw [List.eq_of_mem_replicate hx]
    decide

lemma forall₂_fetchedRows_zeros (k n : ℕ) :
    List.Forall₂ (FetchedRows (zerosDisk n) (zerosVars k n) n n) (zerosNames k)
      (List.replicate k (List.replicate n 0)) := by
  have hconst : List.replicate k (List.replicate n (0 : ℤ))
      = (zerosNames k).map fun _ => List.replicate n 0 := by
    rw [List.map_const', zerosNames, List.length_map, List.length_range]
  rw [hconst, List.forall₂_map_right_iff, List.forall₂_same]
  exact fun name hname => fetchedRows_zeros hname

/-- **The list wraps** for 2049 variables with `2 ^ 18` values each. -/
theorem manyZeros_tupleLines :
    List.Forall₂ (FetchedRows (zerosDisk (2 ^ 18)) (zerosVars 2049 (2 ^ 18)) (2 ^ 18) (2 ^ 18))
        (zerosNames 2049) (List.replicate 2049 (List.replicate (2 ^ 18) 0)) ∧
      tupleBytes (zerosDisk (2 ^ 18)) (zerosVars 2049 (2 ^ 18)) (zerosNames 2049)
        = .error .bounds := by
  have hrows := forall₂_fetchedRows_zeros 2049 (2 ^ 18)
  have hlen : (zerosNames 2049).length = 2049 := by
    rw [zerosNames, List.length_map, List.length_range]
  refine ⟨hrows, tupleBytes_bounds ?_ (by decide) hrows (by rw [hlen]; decide)⟩
  exact List.ne_nil_of_length_pos (by rw [hlen]; decide)

end Zeros

end ColumnDb
