import ColumnDb.Session.Changes

/-!
Counting the values of a variable (`worker.c`, `helper_fetch_command.c`).

COUNT looks at the bit vector of a fetched variable first, and at the size of its values only if
it is not fetched; TUPLE looks at the values first. So the two disagree on a variable that is
both, and on a bit vector whose count is not the number of its marks.

* `SessionStep.KeepsCount`: the steps after which the variables of a set of names are of one
  kind, with a bit vector that counts its marks.
* `SessionVar.Plain`, `plain_of_change`: what these steps keep of every such variable.
* `count_stores_tuple`: COUNT then stores the number of values that TUPLE sends.
-/

namespace ColumnDb

/-! ### The steps -/

/-- Every row is found at most once, and nothing but rows: an UNSORTED column has no stale cell
in the range that the scan reaches, a SORTED one is in order, and the tree of a BPTREE column
lists no row twice. -/
def FindsOnce (c : Column) (low high : ℤ) : Prop :=
  match c.data.m.type with
  | .unsorted => ∀ v ∈ scannedStale c.data, ¬ (low ≤ v ∧ v ≤ high)
  | .sorted => c.data.stored.Pairwise (· ≤ ·)
  | .bptree => ∀ tree rows k, c.nodes = some tree →
      foundRows tree low high = .ok (rows, k) →
      rows.Nodup ∧ ∀ i ∈ rows, i < c.data.m.size

/-- A SELECT of the whole column, or of rows that are found once each. -/
def SelectsOnce (c : Column) (args : InputArgs) : Prop :=
  args.argTwo ≠ "" → FindsOnce c (intArg args.argTwo)
    (if args.argThree = "" then intArg args.argTwo else intArg args.argThree)

/-- What a command must not do to the variables of `names`. -/
structure CallKeepsCount (names : Set String) (d : Disk) (vars : Vars) (args : InputArgs) :
    Prop where
  /-- A SELECT marks the rows of a new variable, once each. -/
  select : args.command = .select → args.var ∈ names →
    vars.find args.var = none ∧ ∀ c, openColumn d args.argOne = .ok c → SelectsOnce c args
  /-- A FETCH copies a bit vector to a variable without values of its own. -/
  fetch : args.command = .fetch → args.var ∈ names → (strtol args.argTwo).2 = false →
    args.argTwo ∈ names ∧ (∀ v, vars.find args.var = some v → v.isMaterialized = false) ∧
      ∀ old, vars.find args.argTwo = some old → old.isId = false
  /-- The operands of a math command are computed values. -/
  operand : args.command.isMath = true → ∀ x ∈ names, x = args.argOne ∨ x = args.argTwo →
    ∀ v, vars.find x = some v → v.isFetched = false
  /-- A result is not bound to a fetched variable. -/
  result : args.command.computes = true → args.var ∈ names →
    ∀ v, vars.find args.var = some v → v.isFetched = false

/-- A step that leaves the variables of `names` of one kind. -/
def SessionStep.KeepsCount (names : Set String) (d : Disk) (vars : Vars) : SessionStep → Prop
  | .call true args => CallKeepsCount names d vars args
  | _ => True

/-! ### Variables of one kind -/

/-- A variable that is fetched, computed, or neither, with a bit vector that counts its marks and
with as many values as its size says. -/
structure SessionVar.Plain (v : SessionVar) : Prop where
  counted : v.bv.Counted
  fetched : v.isFetched = v.fetchedCol.isSome
  kind : v.isFetched = true → v.isMaterialized = false
  vals : v.isMaterialized = true → ∃ vals, v.val = .live vals ∧ vals.length = v.valSize

lemma plain_newVariable (size : ℕ) (isId : Bool) : (newVariable false size isId).Plain where
  counted := BitVector.counted_createBv size
  fetched := rfl
  kind := fun _ => rfl
  vals := fun h => absurd h Bool.false_ne_true

/-- The marks of a SELECT on a new variable. -/
lemma counted_selectMarks {c : Column} {bv : BitVector} {args : InputArgs}
    (honce : SelectsOnce c args) (h : selectMarks c (createBv c.data.m.size) args = .ok bv) :
    bv.Counted := by
  rw [selectMarks] at h
  by_cases hall : args.argTwo = ""
  · rw [if_pos hall] at h
    cases h
    exact BitVector.counted_markAllBv _
  · rw [if_neg hall] at h
    obtain ⟨⟨bv₁, n⟩, hrange, h⟩ := Outcome.bind_eq_ok.mp h
    simp only at h
    split_ifs at h
    cases h
    have honce := honce hall
    rw [FindsOnce] at honce
    rw [selectRange] at hrange
    cases htype : c.data.m.type with
    | unsorted =>
        simp only [htype] at honce hrange
        exact counted_markMatchingBvForUnsorted honce hrange
    | sorted =>
        simp only [htype] at honce hrange
        exact counted_markMatchingBvForSorted honce hrange
    | bptree =>
        simp only [htype] at honce hrange
        cases hnodes : c.nodes with
        | none =>
            simp only [hnodes] at hrange
            cases hrange
        | some tree =>
            simp only [hnodes] at hrange
            obtain ⟨rows, hrows, hfold⟩ := findRecordInRangeType_rows hrange
            obtain ⟨hnodup, hlt⟩ := honce tree rows n hnodes hrows
            exact (BitVector.counted_createBv _).foldlM_mark rows hnodup
              (fun i hi => ⟨hlt i hi, BitVector.bit_createBv _ _⟩) hfold

section Plain

variable {names : Set String} {d : Disk} {vars : Vars} {x : String}

/-- A variable before a step binds it. -/
lemma plain_bound (hplain : ∀ v, vars.find x = some v → v.Plain) (size : ℕ) (isId : Bool) :
    (vars.bound x false size isId).Plain := by
  rw [Vars.bound]
  cases hfind : vars.find x with
  | none => exact plain_newVariable size isId
  | some v => exact hplain v hfind

/-- **Every change keeps the kind** of a variable. -/
theorem plain_of_change {q : SessionStep} {v : SessionVar} (hx : x ∈ names)
    (hkeeps : q.KeepsCount names d vars)
    (hplain : ∀ y ∈ names, ∀ w, vars.find y = some w → w.Plain) (h : VarChange d vars x q v) :
    v.Plain := by
  cases h with
  | same hfind => exact hplain x hx v hfind
  | @selected args c bv hcommand hvar hc hbv =>
      subst hvar
      obtain ⟨hnew, honce⟩ := hkeeps.select hcommand hx
      rw [Vars.bound_of_none hnew] at hbv ⊢
      exact { plain_newVariable c.data.m.size false with
              counted := counted_selectMarks (honce c hc) hbv }
  | named => exact plain_newVariable _ _
  | @fetched args c old v hcommand hvar hname hc hold hv =>
      subst hvar
      obtain ⟨hnames, hkind, hid⟩ := hkeeps.fetch hcommand hx hname
      have hbound := plain_bound (hplain _ hx) c.data.m.size false
      have hvalues : (vars.bound args.var false c.data.m.size false).isMaterialized = false := by
        cases hfind : vars.find args.var with
        | none => rw [Vars.bound_of_none hfind]; rfl
        | some w => rw [Vars.bound_of_some hfind]; exact hkind w hfind
      have hold' : old.isId = false ∧ old.bv.Counted := by
        rcases hold with hold | ⟨hself, rfl⟩
        · exact ⟨hid old hold, (hplain _ hnames old hold).counted⟩
        · refine ⟨?_, hbound.counted⟩
          cases hfind : vars.find args.var with
          | none => rw [Vars.bound_of_none hfind]; rfl
          | some w => rw [Vars.bound_of_some hfind]; exact hid w (hself ▸ hfind)
      rw [fetchedVariable, hold'.1, if_neg Bool.false_ne_true] at hv
      obtain ⟨bv, hbv, hv⟩ := Outcome.bind_eq_ok.mp hv
      cases hv
      exact ⟨hold'.2.cpy hbv, rfl, fun _ => hvalues, fun h => absurd (hvalues ▸ h) (by simp)⟩
  | cached hcommand hoperand hfind hfetched _ _ =>
      exact absurd hfetched (by rw [hkeeps.operand hcommand x hx hoperand _ hfind]; simp)
  | @freed args c v hcommand _ hfind hc =>
      -- a variable whose column is opened is fetched, and has no values to free
      have hv := hplain x hx v hfind
      have hfetched : v.isFetched = true := by
        rw [hv.fetched]
        cases hcol : v.fetchedCol with
        | none => rw [loadCol, hcol] at hc; cases hc
        | some name => rfl
      rw [freeAggregated, hv.kind hfetched, if_neg Bool.false_ne_true]
      exact hv
  | @computed args vals hcommand hvar =>
      subst hvar
      have hresult := hkeeps.result hcommand hx
      cases hfind : vars.find args.var with
      | none =>
          rw [Vars.bound_of_none hfind]
          exact ⟨BitVector.counted_createBv 0, rfl, fun h => absurd h Bool.false_ne_true,
            fun _ => ⟨vals, rfl, rfl⟩⟩
      | some w =>
          rw [Vars.bound_of_some hfind]
          have hw := hplain _ hx w hfind
          have hfetched := hresult w hfind
          exact ⟨hw.counted, hw.fetched, fun h => absurd (hfetched ▸ h) (by simp),
            fun _ => ⟨vals, rfl, rfl⟩⟩
  | joined ids _ =>
      have hbound := plain_bound (hplain x hx) 0 true
      exact ⟨hbound.counted, hbound.fetched, hbound.kind, hbound.vals⟩

end Plain

/-! ### COUNT and TUPLE -/

/-- Two ranges have the same positions with a property that has none between their ends. -/
lemma filter_range_eq {p : ℕ → Bool} {m n : ℕ} (h : ∀ i, p i = true → (i < m ↔ i < n)) :
    (List.range m).filter p = (List.range n).filter p := by
  wlog hle : m ≤ n generalizing m n
  · exact (this (fun i hi => (h i hi).symm) (by omega)).symm
  · obtain ⟨k, rfl⟩ := Nat.exists_eq_add_of_le hle
    have hnone : (List.range' m k).filter p = [] := by
      rw [List.filter_eq_nil_iff]
      intro i hi hp
      have hmem := List.mem_range'_1.mp hi
      have := (h i hp).mpr hmem.2
      omega
    rw [List.range_eq_range', List.range_eq_range', ← List.range'_append_1, List.filter_append,
      Nat.zero_add, hnone, List.append_nil]

/-- The words of a vector reach the rows of a column, and no mark is on a row past the vector, or on
a position of the vector past the rows. -/
structure MarksRows (rows : ℕ) (bv : BitVector) : Prop where
  word : rows ≤ 32 * bv.vec.length
  inside : ∀ i, bv.bit i = true → (i < rows ↔ i < bv.size)

section Count

variable {d : Disk} {vars : Vars} {x : String}

lemma tupleCount_of_ok {vals : List ℤ} (h : tupleHelper d vars [x] = .ok vals) :
    tupleCount d vars x = vals.length := by
  rw [tupleCount, tupleWork, h, Outcome.ok_bind]
  split_ifs with hnil
  · rw [hnil]; rfl
  · rfl

lemma tupleCount_of_error {e : Fault} (h : tupleHelper d vars [x] = .error e) :
    tupleCount d vars x = 0 := by
  rw [tupleCount, tupleWork, h]
  rfl

/-- A variable of one kind has as many values for COUNT as TUPLE sends. -/
lemma countOf_eq_tupleCount {v : SessionVar} (hplain : v.Plain) (hv : getVariable vars x = .ok v)
    (hrows : v.isFetched = true → ∃ c, loadCol d v = .ok c ∧ MarksRows c.data.m.size v.bv)
    (hfew : countOf v ≤ 2 ^ 29) : countOf v = tupleCount d vars x := by
  rw [countOf] at hfew ⊢
  cases hfetched : v.isFetched with
  | true =>
      have hkind := hplain.kind hfetched
      obtain ⟨c, hc, hmarks⟩ := hrows hfetched
      have hcount : v.bv.count = (List.range c.data.m.size).countP v.bv.bit := by
        rw [hplain.counted, List.countP_eq_length_filter, List.countP_eq_length_filter,
          filter_range_eq hmarks.inside]
      rw [hfetched, if_pos rfl, hcount] at hfew
      rw [if_pos rfl, hcount]
      rcases Nat.eq_zero_or_pos c.data.m.size with hzero | hpos
      · have herror : tupleHelper d vars [x] = .error .assertion := by
          rw [tupleHelper, hv, Outcome.ok_bind, hkind, if_neg Bool.false_ne_true, hfetched,
            if_pos rfl, hc, Outcome.ok_bind, if_neg (by omega)]
        rw [tupleCount_of_error herror, hzero]
        rfl
      · obtain ⟨vals, hvals, hlen⟩ :=
          tupleHelper_fetched hv hkind hfetched hc hpos hmarks.word hfew
        rw [tupleCount_of_ok hvals, hlen]
  | false =>
      rw [if_neg Bool.false_ne_true]
      cases hmaterialized : v.isMaterialized with
      | true =>
          obtain ⟨vals, hval, hlen⟩ := hplain.vals hmaterialized
          rw [if_pos rfl]
          rcases Nat.eq_zero_or_pos v.valSize with hzero | hpos
          · have herror : tupleHelper d vars [x] = .error .assertion := by
              rw [tupleHelper, hv, Outcome.ok_bind, hmaterialized, if_pos rfl, if_neg (by omega)]
            rw [tupleCount_of_error herror, hzero]
          · rw [tupleCount_of_ok (tupleHelper_materialized hv hmaterialized hval hlen hpos), hlen]
      | false =>
          have herror : tupleHelper d vars [x] = .error .assertion := by
            rw [tupleHelper, hv, Outcome.ok_bind, hmaterialized, if_neg Bool.false_ne_true,
              hfetched, if_neg Bool.false_ne_true]
          rw [tupleCount_of_error herror, if_neg Bool.false_ne_true]

end Count

/-- **COUNT against TUPLE.** In every run whose steps leave the variables of `names` of one kind,
COUNT of such a variable stores the number of values that TUPLE sends for it, as long as no mark is
on a row that only one of the column it was fetched from and the bit vector has, and the list of the
values has room for them. -/
theorem count_stores_tuple {n : Node} {names : Set String} {d₀ d : Disk} {vars : Vars}
    (hrun : SessionRun n (SessionStep.KeepsCount names) d₀ d vars) {x : String} (hx : x ∈ names)
    {v : SessionVar} (hv : getVariable vars x = .ok v)
    (hrows : v.isFetched = true → ∃ c, loadCol d v = .ok c ∧ MarksRows c.data.m.size v.bv)
    (hfew : countOf v ≤ 2 ^ 29) (args : InputArgs) (hargs : args.argOne = x) :
    countOf v = tupleCount d vars x ∧
      countCommand vars true args = bindValue vars args.var (toInt32 (tupleCount d vars x)) := by
  have hplain : ∀ y w, vars.find y = some w → y ∈ names → w.Plain :=
    hrun.inv fun d vars q hkeeps ih y w hchange hy =>
      plain_of_change hy hkeeps (fun z hz u hu => ih z u hu hz) hchange
  have hcount := countOf_eq_tupleCount (hplain x v (getVariable_eq_ok.mp hv).2 hx) hv hrows hfew
  refine ⟨hcount, ?_⟩
  rw [countCommand, if_pos rfl, hargs, hv, Outcome.ok_bind, hcount]

/-! ### Variables over one row -/

/-- A column of one row. -/
def oneRowColumn : Column :=
  { Column.makeNew .unsorted with
    data :=
      { m := { type := .unsorted, size := 1, nextFree := 0, root := 0 }
        cells := [5]
        size_le := le_rfl } }

/-- A disk with the column `a`. -/
def oneRowDisk : Disk := fun name => if name = "a" then some oneRowColumn else none

/-- `s=select(a)`. -/
def selectS : SessionStep :=
  .call true { var := "s", command := .select, argOne := "a", argTwo := "", argThree := "" }

/-- The variables after `s=select(a)`. -/
def varsOfS : Vars :=
  (Vars.create.append "s" (newVariable false 1 false)).set "s"
    { newVariable false 1 false with bv := markAllBv (createBv 1) }

/-- `s=select(a,5)`. -/
def selectFive : InputArgs :=
  { var := "s", command := .select, argOne := "a", argTwo := "5", argThree := "" }

/-- The only row of `oneRowColumn`. -/
def firstRow : BitVector := { size := 1, count := 1, vec := [1#32], length_vec := le_rfl }

/-- The variables after `s=select(a,5)`. -/
def varsOfFive : Vars :=
  (Vars.create.append "s" (newVariable false 1 false)).set "s"
    { newVariable false 1 false with bv := firstRow }

/-- `x=fetch(a,s)`. -/
def fetchX : SessionStep :=
  .call true { var := "x", command := .fetch, argOne := "a", argTwo := "s", argThree := "" }

/-- `y=count(x)`. -/
def countXArgs : InputArgs :=
  { var := "y", command := .count, argOne := "x", argTwo := "", argThree := "" }

lemma keepsCount_selectFive :
    (SessionStep.call true selectFive).KeepsCount {"s", "x"} oneRowDisk .create where
  select := fun _ _ => by
    refine ⟨rfl, fun c hc _ => ?_⟩
    cases (show Except.ok oneRowColumn = Except.ok c from hc)
    exact fun v hv => absurd hv List.not_mem_nil
  fetch := fun hcommand => absurd hcommand (by decide)
  operand := fun hmath => absurd hmath (by decide)
  result := fun hcomputes => absurd hcomputes (by decide)

lemma keepsCount_fetchX : fetchX.KeepsCount {"s", "x"} oneRowDisk varsOfFive where
  select := fun hcommand => absurd hcommand (by decide)
  fetch := fun _ _ _ => by
    have hnew : varsOfFive.find "x" = none := rfl
    refine ⟨Or.inl rfl, fun v hv => absurd (hnew.symm.trans hv) (by simp), fun old hold => ?_⟩
    have hs : varsOfFive.find "s" = some _ := rfl
    obtain rfl := Option.some.inj (hs.symm.trans hold)
    rfl
  operand := fun hmath => absurd hmath (by decide)
  result := fun hcomputes => absurd hcomputes (by decide)

/-- The vector of the SELECT marks no other row, however many the column gets. -/
lemma firstRow_bit {i : ℕ} (h : firstRow.bit i = true) : i = 0 := by
  rcases Nat.lt_or_ge i 32 with hi | hi
  · have hall : ∀ i < 32, firstRow.bit i = true → i = 0 := by decide
    exact hall i hi h
  · have hnone : firstRow.vec[i / 32]? = none := List.getElem?_eq_none (by
      rw [show firstRow.vec.length = 1 from rfl]
      omega)
    rw [BitVector.bit, List.getD_eq_getElem?_getD, hnone] at h
    simp at h

lemma firstRow_marksRows : MarksRows 2 firstRow where
  word := by decide
  inside := fun i hi => by
    obtain rfl := firstRow_bit hi
    decide

/-- `count_stores_tuple` at a variable fetched through the bit vector of a SELECT, after an insert
into its column. -/
theorem fetchedByBv_count_stores_tuple :
    ∃ d vars v, getVariable vars "x" = .ok v ∧ v.isFetched = true ∧ countOf v = 1 ∧
      countOf v = tupleCount d vars "x" ∧ countCommand vars true countXArgs
        = bindValue vars "y" (toInt32 (tupleCount d vars "x")) := by
  have hs : SessionRun .zero (SessionStep.KeepsCount {"s", "x"}) oneRowDisk oneRowDisk varsOfFive :=
    .step .start keepsCount_selectFive
      (show (SessionStep.call true selectFive).run .zero oneRowDisk .create = .ok (_, _, _)
        from rfl)
  have hx := hs.step keepsCount_fetchX
    (show fetchX.run .zero oneRowDisk varsOfFive = .ok (_, _, _) from rfl)
  have hi := hx.step (q := .insert [("a", 6)]) trivial
    (show SessionStep.run .zero oneRowDisk _ _ = .ok (_, _, _) from rfl)
  exact ⟨_, _, _, rfl, rfl, rfl, count_stores_tuple hi (Or.inr rfl) rfl
    (fun _ => ⟨_, rfl, firstRow_marksRows⟩) (by decide) countXArgs rfl⟩

/-- `j,k=loopjoin(x,x)`. -/
def joinJK : SessionStep :=
  .call true { var := "j,k", command := .loopjoin, argOne := "x", argTwo := "x", argThree := "" }

/-- `z=fetch(a,j)`. -/
def fetchZ : SessionStep :=
  .call true { var := "z", command := .fetch, argOne := "a", argTwo := "j", argThree := "" }

/-- A variable that is fetched by row ids: COUNT looks at its bit vector, which has no marks, and
TUPLE sends its value. -/
theorem fetchedByIds_count_ne_tuple :
    ∃ d vars v, SessionRun .zero (fun _ _ _ => True) oneRowDisk d vars ∧
      getVariable vars "z" = .ok v ∧ countOf v = 0 ∧ tupleCount d vars "z" = 1 := by
  have hs : SessionRun .zero (fun _ _ _ => True) oneRowDisk _ _ := .step .start trivial
    (show selectS.run .zero oneRowDisk .create = .ok (_, _, _) from rfl)
  have hx := hs.step trivial (show fetchX.run .zero _ _ = .ok (_, _, _) from rfl)
  have hj := hx.step trivial (show joinJK.run .zero _ _ = .ok (_, _, _) from rfl)
  have hz := hj.step trivial (show fetchZ.run .zero _ _ = .ok (_, _, _) from rfl)
  exact ⟨_, _, _, hz, rfl, rfl, rfl⟩

end ColumnDb
