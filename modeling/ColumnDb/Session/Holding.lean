import ColumnDb.Session.Aggregates
import ColumnDb.Session.Changes
import ColumnDb.Session.Frame
import ColumnDb.Session.JoinNames
import ColumnDb.Session.Selections
import ColumnDb.Session.TreeColumn

/-!
The steps of a session do what their rules say (`worker.c`).

* `Database.Holds`: the files and the variables of a session hold a database.
* `Database.Holds.step`: where there is a rule for a step, the worker performs the step, by a rule,
  and the files and the variables hold the new database.
-/

namespace ColumnDb

/-! ### Holding a database -/

/-- A column in its files: there is no cell after its rows, and a tree has them as they were
inserted. -/
structure Attribute.Holds (a : Attribute) (c : Column) : Prop where
  type : c.data.m.type = a.type
  full : c.data.cells.length = c.data.m.size
  stored : c.data.stored = a.vals
  fits : a.vals.length < 2 ^ 31
  tree : a.type = .bptree → insertAll (Column.makeNew .bptree) a.vals = .ok c ∧
    a.vals.Nodup ∧ a.vals.length ≤ 8128

/-- A variable of the session stands for `m`. -/
def Meaning.Holds (v : SessionVar) : Meaning → Prop
  | selected s => v.isId = false ∧ v.isFetched = false ∧ v.isMaterialized = false ∧ s.Marks v.bv
  | fetched col s isRead =>
      v.isId = false ∧ v.isFetched = true ∧ v.isMaterialized = isRead ∧ s.Marks v.bv ∧
        IsName col ∧ v.fetchedCol = some col
  | computed vals => v.isFetched = false ∧ v.Stores vals
  | joined ids => v.isId = true ∧ v.isFetched = false ∧ v.ids = some ids
  | gathered col vals => v.isFetched = true ∧ v.Stores vals ∧ IsName col ∧ v.fetchedCol = some col
  | freed => True

/-- The variables of a session stand for what its names mean. -/
structure Names.Holds (names : Names) (vars : Vars) : Prop where
  bound : ∀ x m, names.vars x = some m → ∃ v, vars.find x = some v ∧ m.Holds v
  unbound : ∀ x, names.vars x = none → vars.find x = none
  next : vars.next = names.used
  capacity : ∃ k, vars.capacity = 8 * 2 ^ k

/-- The files hold the columns, and no column has the name of the file of a tree. -/
structure Disk.Holds (d : Disk) (cols : String → Option Attribute) : Prop where
  column : ∀ name a, cols name = some a → ∃ c, d name = some c ∧ a.Holds c
  apart : ∀ name a, cols name = some a → a.type = .bptree → cols (nodesName name) = none

/-- The files and the variables of a session hold a database. -/
structure Database.Holds (db : Database) (d : Disk) (vars : Vars) : Prop
    extends db.toNames.Holds vars where
  cols : d.Holds db.cols

/-- The meanings of two new names are those that they get last. -/
lemma Database.set_bind_bind {db : Database} {x y : String} (hne : x ≠ y) {m m' m₀ m₀' : Meaning} :
    (((db.bind x m₀).bind y m₀').set x m).set y m' = (db.bind x m).bind y m' := by
  have hvars : Function.update (Function.update (Function.update (Function.update db.vars x
      (some m₀)) y (some m₀')) x (some m)) y (some m')
      = Function.update (Function.update db.vars x (some m)) y (some m') := by
    have hcomm := Function.update_comm (β := fun _ => Option Meaning) (Ne.symm hne) (some m₀')
      (some m) (Function.update db.vars x (some m₀))
    rw [hcomm, Function.update_idem, Function.update_idem]
  exact congrArg (fun vars => { db with vars := vars, used := db.used + 1 + 1 }) hvars

/-- A session starts with the empty database. -/
lemma Database.Holds.empty (d : Disk) : Database.empty.Holds d Vars.create where
  cols := ⟨fun _ _ h => absurd h.symm (Option.some_ne_none _),
    fun _ _ h => absurd h.symm (Option.some_ne_none _)⟩
  bound _ _ h := absurd h.symm (Option.some_ne_none _)
  unbound _ _ := rfl
  next := rfl
  capacity := ⟨0, rfl⟩

namespace Attribute.Holds

variable {a : Attribute} {c : Column}

lemma size (h : a.Holds c) : c.data.m.size = a.vals.length := by
  rw [← h.stored, c.data.length_stored]

/-- A column that is created. -/
lemma makeNew (type : StorageType) : Attribute.Holds ⟨type, []⟩ (Column.makeNew type) where
  type := rfl
  full := rfl
  stored := DataFile.stored_makeNew type
  fits := Nat.two_pow_pos 31
  tree htype := by
    cases htype
    exact ⟨rfl, List.nodup_nil, Nat.zero_le _⟩

/-- The cells of a column without stale ones. -/
lemma cells_eq (h : a.Holds c) : c.data.cells = a.vals := by
  rw [← h.stored, DataFile.stored_eq_cells h.full.le]

/-- The tree of a BPTREE column with a row. -/
lemma exists_tree (h : a.Holds c) (htype : a.type = .bptree) (hne : a.vals ≠ []) :
    ∃ tree, TreeColumn c tree := by
  obtain ⟨hok, hnodup, hlen⟩ := h.tree htype
  exact (insertAll_tree hne (Or.inr ⟨hnodup, Or.inr hlen⟩) hok).2

/-- A BPTREE column has few rows with a value. -/
lemma length_rowsWith_le (h : a.Holds c) (htype : a.type = .bptree) (v : ℤ) :
    (rowsWith c.data v).length ≤ 2 ^ 29 := by
  obtain ⟨-, -, hlen⟩ := h.tree htype
  have hle : (rowsWith c.data v).length ≤ c.data.m.size :=
    (List.length_filter_le _ _).trans_eq List.length_range
  rw [h.size] at hle
  omega

/-- **An insert.** -/
lemma insert (h : a.Holds c) {v : ℤ} (hv : a.Takes v) :
    ∃ c', insertHelper c v = .ok c' ∧ Attribute.Holds { a with vals := a.vals ++ [v] } c' := by
  rcases hv with ⟨htype, hlen⟩ | ⟨htype, hnot, hlen⟩
  · have hc : c.data.m.type = .unsorted := h.type.trans htype
    obtain ⟨htype', hfull, hstored⟩ := @full_foldl_append _ _ h.full [v] rfl
    refine ⟨{ c with data := appendValueToFile c.data v }, ?_, htype'.trans h.type, hfull, ?_, ?_,
      ?_⟩
    · rw [insertHelper, hc]
    · exact hstored.trans (by rw [h.stored])
    · rwa [List.length_append, List.length_singleton]
    · exact fun hb => absurd (hb.symm.trans htype) (by decide)
  · obtain ⟨hok, hnodup, -⟩ := h.tree htype
    have hnodup' : (a.vals ++ [v]).Nodup :=
      List.nodup_append.mpr ⟨hnodup, List.nodup_singleton v, fun x hx y hy hxy => by
        rw [List.mem_singleton.mp hy] at hxy
        exact hnot (hxy ▸ hx)⟩
    have hlen' : (a.vals ++ [v]).length ≤ 8128 := by
      rw [List.length_append, List.length_singleton]
      omega
    obtain ⟨-, c', hok', hstored, tree, htree⟩ :=
      insertAll_distinct (by simp) hnodup' (Or.inr hlen')
    have hone : insertHelper c v = .ok c' := by
      rw [insertAll, List.foldlM_append] at hok'
      rw [insertAll] at hok
      rw [hok, Outcome.ok_bind, List.foldlM_cons] at hok'
      obtain ⟨c'', hone, hnil⟩ := Outcome.bind_eq_ok.mp hok'
      cases hnil
      exact hone
    exact ⟨c', hone, htree.type.trans htype.symm, htree.full, hstored, hlen'.trans_lt (by decide),
      fun _ => ⟨hok', hnodup', hlen'⟩⟩

/-- **An update.** -/
lemma update (rows : List ℕ) (v : ℤ) : ∀ {vals : List ℤ} {c : Column},
    (Attribute.mk .unsorted vals).Holds c → (∀ i ∈ rows, i < vals.length) →
      Attribute.Holds ⟨.unsorted, rows.foldl (fun vals i => vals.set i v) vals⟩
        { c with data := rows.foldl (updateTurn v) c.data } := by
  induction rows with
  | nil => exact fun h _ => h
  | cons i rows ih =>
      intro vals c h hin
      obtain ⟨hi, hin⟩ := List.forall_mem_cons.mp hin
      have hcells : (updateTurn v c.data i).cells = vals.set i v := by
        change writeAt 0 c.data.cells i v = _
        rw [h.cells_eq, writeAt_of_lt _ hi]
      have hsize : (updateTurn v c.data i).m.size = vals.length := h.size
      refine ih (c := { c with data := updateTurn v c.data i }) ⟨h.type, ?_, ?_, ?_, ?_⟩ ?_
      · change (updateTurn v c.data i).cells.length = _
        rw [hcells, hsize, List.length_set]
      · change (updateTurn v c.data i).stored = _
        rw [DataFile.stored_eq_cells (by rw [hcells, hsize, List.length_set]), hcells]
      · rw [List.length_set]
        exact h.fits
      · exact fun hb => by cases hb
      · rwa [List.length_set]

/-- The values that the row ids of a variable select. -/
lemma fetchIds (h : a.Holds c) {ids : List ℕ} (hids : ∀ i ∈ ids, i < a.vals.length) :
    fetchMatchedFromRowid c.data ids = .ok (valuesAt ids a.vals) := by
  rw [valuesAt_eq_map hids, fetchMatchedFromRowid, Outcome.mapM_eq_ok, List.forall₂_map_right_iff,
    List.forall₂_same]
  intro i hi
  have hlt := hids i hi
  rw [h.stored, fetch_of_lt hlt, List.getElem_eq_getD]

/-- The variable that a FETCH binds. -/
lemma fetchedVariable (h : a.Holds c) {col : String} {m m' : Meaning} {v : SessionVar}
    (hname : IsName col) (hm : m.Holds v)
    (hm' : m.fetch col a = some m') :
    ∃ v', ColumnDb.fetchedVariable c col (newVariable false c.data.m.size false) v = .ok v' ∧
      m'.Holds v' := by
  have hbv : ∀ s : Selection, v.isId = false → s.Marks v.bv →
      (if getCeil s.size 32 ≤ getCeil a.vals.length 32 then
        some (Meaning.fetched col (s.copied a.vals.length) false) else none) = some m' →
      ∃ v', ColumnDb.fetchedVariable c col (newVariable false c.data.m.size false) v = .ok v' ∧
        m'.Holds v' := by
    intro s hid hmarks hfetch
    split_ifs at hfetch with hroom
    cases hfetch
    obtain ⟨bv, hcpy, hcopied⟩ := hmarks.copied hroom
    refine ⟨{ newVariable false c.data.m.size false with
      bv := bv, isFetched := true, fetchedCol := some col }, ?_, rfl, rfl, rfl, hcopied, hname, rfl⟩
    rw [ColumnDb.fetchedVariable, hid, if_neg Bool.false_ne_true,
      show (newVariable false c.data.m.size false).bv = createBv c.data.m.size from rfl, h.size,
      hcpy, Outcome.ok_bind]
  cases m with
  | selected s => exact hbv s hm.1 hm.2.2.2 hm'
  | fetched col' s isRead => exact hbv s hm.1 hm.2.2.2.1 hm'
  | joined ids =>
      rw [Meaning.fetch] at hm'
      split_ifs at hm' with hids
      cases hm'
      refine ⟨{ newVariable false c.data.m.size false with
        isMaterialized := true, val := .live (valuesAt ids a.vals)
        valSize := (valuesAt ids a.vals).length, isFetched := true, fetchedCol := some col },
        ?_, rfl, ⟨rfl, rfl, rfl⟩, hname, rfl⟩
      rw [ColumnDb.fetchedVariable, if_pos hm.1, fetchSelected, if_pos hm.1, hm.2.2]
      simp only [h.fetchIds hids, Outcome.ok_bind]
  | computed | gathered | freed => cases hm'

/-- **The marks of a SELECT.** -/
lemma selectMarks (h : a.Holds c) {args : InputArgs} {s : Selection}
    (hs : a.select args = some s) :
    ∃ bv, selectMarks c (createBv c.data.m.size) args = .ok bv ∧ s.Marks bv := by
  rw [ColumnDb.selectMarks]
  rw [Attribute.select] at hs
  by_cases hall : args.argTwo = ""
  · rw [if_pos hall] at hs ⊢
    cases hs
    rw [h.size]
    exact ⟨_, rfl, .all _⟩
  · rw [if_neg hall] at hs ⊢
    simp only at hs ⊢
    generalize intArg args.argTwo = low at hs ⊢
    generalize (if args.argThree = "" then low else intArg args.argThree) = high at hs ⊢
    split_ifs at hs with hnone
    obtain ⟨htype, hrows⟩ := not_or.mp hnone
    cases hs
    have hstale : ∀ v ∈ scannedStale c.data, ¬ (low ≤ v ∧ v ≤ high) := by
      have hnil : scannedStale c.data = [] := by
        refine List.drop_eq_nil_of_le ?_
        rw [scanned, List.length_take, ← h.full]
        exact min_le_right _ _
      rw [hnil]
      exact List.forall_mem_nil _
    -- both types give what a scan of the file gives
    have hscan : selectRange c (createBv c.data.m.size) low high
        = markMatchingBvForUnsorted c.data (createBv c.data.m.size) low high := by
      cases ht : a.type with
      | unsorted => rw [selectRange, h.type.trans ht]
      | sorted => exact absurd ht htype
      | bptree =>
          have hne : a.vals ≠ [] := by
            intro hnil
            rw [Attribute.inRange, hnil] at hrows
            exact hrows rfl
          obtain ⟨tree, htree⟩ := h.exists_tree ht hne
          exact htree.select_eq_scan _ low high
    obtain ⟨bv, hmark, hsize, hcounted, hbit⟩ := markMatchingBvForUnsorted_marks hstale
    rw [h.stored] at hmark hbit
    rw [h.size] at hsize
    have hpos : a.vals.countP (fun v => low ≤ v ∧ v ≤ high) ≠ 0 := by
      obtain ⟨i, hi⟩ := List.exists_mem_of_ne_nil _ hrows
      obtain ⟨v, hv, hr⟩ := of_decide_eq_true (List.mem_filter.mp hi).2
      refine (List.countP_pos_iff.mpr ⟨v, List.mem_of_getElem? hv, ?_⟩).ne'
      exact decide_eq_true hr
    refine ⟨bv, ?_, .range hsize hcounted hbit⟩
    rw [hscan, hmark, Outcome.ok_bind]
    exact if_neg hpos

end Attribute.Holds

/-- The aggregates of a command. -/
lemma Command.aggregate_runCall {args : InputArgs} {vals : List ℤ} {x : ℤ}
    (hfits : FitsInt vals) (hx : args.command.aggregate vals = some x) :
    ∃ op isAvg, (∀ d vars hasVar, runCall d vars hasVar args
      = aggregateCommand op isAvg d vars hasVar args >>= fun vars' => .ok (d, vars', none)) ∧
      aggregateArray (.live vals) vals.length op isAvg = .ok x := by
  obtain ⟨y, l, rfl⟩ : ∃ y l, vals = y :: l := by
    refine List.exists_cons_of_ne_nil ?_
    rintro rfl
    cases hcommand : args.command <;> rw [hcommand] at hx <;> cases hx
  have hsum : l.foldl fptrAdd y = toInt32 (y :: l).sum := by
    have hy := toInt32_of_range (hfits y List.mem_cons_self)
    conv_lhs => rw [← hy]
    rw [foldl_fptrAdd, List.sum_cons]
  cases hcommand : args.command with
  | max =>
      rw [hcommand] at hx
      refine ⟨fptrMax, false, fun d vars hasVar => by rw [runCall, hcommand], ?_⟩
      rw [aggregateArray_fold, if_neg Bool.false_ne_true]
      have hmax : (y :: l).max? = some (l.foldl fptrMax y) :=
        List.max?_eq_some_iff.mpr (isGreatest_fptrMax y l)
      exact congrArg Except.ok (Option.some.inj (hmax.symm.trans hx))
  | min =>
      rw [hcommand] at hx
      refine ⟨fptrMin, false, fun d vars hasVar => by rw [runCall, hcommand], ?_⟩
      rw [aggregateArray_fold, if_neg Bool.false_ne_true]
      have hmin : (y :: l).min? = some (l.foldl fptrMin y) :=
        List.min?_eq_some_iff.mpr (isLeast_fptrMin y l)
      exact congrArg Except.ok (Option.some.inj (hmin.symm.trans hx))
  | sum =>
      rw [hcommand] at hx
      refine ⟨fptrAdd, false, fun d vars hasVar => by rw [runCall, hcommand], ?_⟩
      rw [aggregateArray_fold, if_neg Bool.false_ne_true, hsum]
      exact congrArg Except.ok (Option.some.inj hx)
  | avg =>
      rw [hcommand] at hx
      refine ⟨fptrAdd, true, fun d vars hasVar => by rw [runCall, hcommand], ?_⟩
      rw [aggregateArray_fold, if_pos rfl, hsum]
      exact congrArg Except.ok (Option.some.inj hx)
  | _ =>
      rw [hcommand] at hx
      cases hx

namespace Database.Holds

variable {db : Database} {d : Disk} {vars : Vars}

/-! ### Names -/

/-- A variable that is bound. -/
lemma getVariable (h : db.Holds d vars) {x : String} {m : Meaning} (hx : x ≠ "")
    (hm : db.vars x = some m) :
    ∃ v, ColumnDb.getVariable vars x = .ok v ∧ vars.find x = some v ∧ m.Holds v := by
  obtain ⟨v, hv, hheld⟩ := h.bound x m hm
  exact ⟨v, getVariable_eq_ok.mpr ⟨hx, hv⟩, hv, hheld⟩

/-- A column that is opened. -/
lemma openColumn (h : db.Holds d vars) {name : String} {a : Attribute} (hname : IsName name)
    (ha : db.cols name = some a) :
    ∃ c, ColumnDb.openColumn d name = .ok c ∧ d name = some c ∧ a.Holds c := by
  obtain ⟨c, hc, hheld⟩ := h.cols.column name a ha
  refine ⟨c, ?_, hc, hheld⟩
  rw [ColumnDb.openColumn, if_neg (Nat.not_le.mpr hname.2), if_neg hname.1, initCol, hc]

/-- A new name gets a new variable. -/
lemma newName (h : db.Holds d vars) {x : String} (hx : db.Fresh x) (isMaterialized : Bool)
    (size : ℕ) (isId : Bool) :
    initializeVariableTypes vars x isMaterialized size isId
      = .ok (vars.append x (newVariable isMaterialized size isId),
          newVariable isMaterialized size isId) := by
  rw [initializeVariableTypes, findVariable, if_neg hx.1.1, Outcome.ok_bind, h.unbound x hx.2]
  exact if_neg (Nat.not_le.mpr hx.1.2)

/-- There is room for one more name. -/
lemma moves (h : db.Holds d vars) (hroom : Roomy db.used) (x : String) : vars.moves x = false := by
  obtain ⟨k, hk⟩ := h.capacity
  have hne : vars.next ≠ vars.capacity := by
    rw [h.next, hk]
    exact hroom k
  rw [Vars.moves, beq_false_of_ne hne, Bool.and_false]

/-- **Binding a new name.** -/
lemma bind (h : db.Holds d vars) {x : String} {m : Meaning} {v : SessionVar} (v₀ : SessionVar)
    (hm : m.Holds v) : (db.bind x m).Holds d ((vars.append x v₀).set x v) where
  cols := h.cols
  bound y m' hy := by
    rw [Database.bind] at hy
    simp only at hy
    by_cases hxy : y = x
    · subst hxy
      rw [Function.update_self] at hy
      cases hy
      exact ⟨v, Vars.find_set_self _ _ _, hm⟩
    · rw [Function.update_of_ne hxy] at hy
      rw [Vars.find_set_of_ne hxy, Vars.find_append_of_ne hxy]
      exact h.bound y m' hy
  unbound y hy := by
    rw [Database.bind] at hy
    simp only at hy
    by_cases hxy : y = x
    · subst hxy
      rw [Function.update_self] at hy
      cases hy
    · rw [Function.update_of_ne hxy] at hy
      rw [Vars.find_set_of_ne hxy, Vars.find_append_of_ne hxy]
      exact h.unbound y hy
  next := congrArg (· + 1) h.next
  capacity := by
    obtain ⟨k, hk⟩ := h.capacity
    rw [Vars.set, Vars.append]
    simp only
    split_ifs
    · exact ⟨k + 1, by rw [hk, pow_succ]; omega⟩
    · exact ⟨k, hk⟩

/-- Binding a new name to the variable that it gets. -/
lemma append (h : db.Holds d vars) {x : String} {m : Meaning} {v : SessionVar} (hm : m.Holds v) :
    (db.bind x m).Holds d (vars.append x v) := by
  have hset := h.bind (x := x) v hm
  rwa [Vars.set_find (Vars.find_append_self _ _ _)] at hset

/-- **Changing a variable.** -/
lemma set (h : db.Holds d vars) {x : String} {m : Meaning} {v v₀ : SessionVar}
    (hx : vars.find x = some v₀) (hm : m.Holds v) : (db.set x m).Holds d (vars.set x v) where
  cols := h.cols
  bound y m' hy := by
    rw [Database.set] at hy
    simp only at hy
    by_cases hxy : y = x
    · subst hxy
      rw [Function.update_self] at hy
      cases hy
      exact ⟨v, Vars.find_set_self _ _ _, hm⟩
    · rw [Function.update_of_ne hxy] at hy
      rw [Vars.find_set_of_ne hxy]
      exact h.bound y m' hy
  unbound y hy := by
    rw [Database.set] at hy
    simp only at hy
    by_cases hxy : y = x
    · subst hxy
      rw [Function.update_self] at hy
      cases hy
    · rw [Function.update_of_ne hxy] at hy
      rw [Vars.find_set_of_ne hxy]
      exact h.unbound y hy
  next := h.next
  capacity := h.capacity

/-- A column of a database may be written again. -/
lemma creatable (h : db.Holds d vars) {name : String} {a : Attribute}
    (ha : db.cols name = some a) : db.Creatable name a.type := by
  refine ⟨h.cols.apart name a ha, fun other a' hother htype hname => ?_⟩
  rw [← hname, h.cols.apart other a' hother htype] at ha
  cases ha

/-- **Changing a column.** -/
lemma setCol (h : db.Holds d vars) {name : String} {a : Attribute} {c : Column}
    (hfile : db.Creatable name a.type) (ha : a.Holds c) :
    (db.setCol name a).Holds (Function.update d name (some c)) vars where
  cols := by
    refine ⟨fun name' a' hname' => ?_, fun name' a' hname' htype => ?_⟩
    · rw [Database.setCol] at hname'
      simp only at hname'
      by_cases hsame : name' = name
      · subst hsame
        rw [Function.update_self] at hname' ⊢
        cases hname'
        exact ⟨c, rfl, ha⟩
      · rw [Function.update_of_ne hsame] at hname' ⊢
        exact h.cols.column name' a' hname'
    · rw [Database.setCol] at hname' ⊢
      simp only at hname' ⊢
      by_cases hsame : name' = name
      · subst hsame
        rw [Function.update_self] at hname'
        cases hname'
        rw [Function.update_of_ne (nodesName_ne name')]
        exact hfile.1 htype
      · rw [Function.update_of_ne hsame] at hname'
        rw [Function.update_of_ne (hfile.2 name' a' hname' htype)]
        exact h.cols.apart name' a' hname' htype
  bound := h.bound
  unbound := h.unbound
  next := h.next
  capacity := h.capacity

/-- A variable that is read from its column has the values in its rows. -/
lemma read (h : db.Holds d vars) {v : SessionVar} {col : String} {s : Selection} {isRead : Bool}
    {vals : List ℤ} (hv : (Meaning.fetched col s isRead).Holds v)
    (hread : db.read col s = some vals) :
    ∃ c, loadCol d v = .ok c ∧ fetchMatchedFromBv c.data v.bv = .ok vals ∧
      v.bv.count = vals.length := by
  obtain ⟨-, -, -, hmarks, hname, hcol⟩ := hv
  rw [Database.read] at hread
  cases ha : db.cols col with
  | none =>
      rw [ha] at hread
      cases hread
  | some a =>
      rw [ha] at hread
      simp only at hread
      split_ifs at hread with hreads
      cases hread
      obtain ⟨c, hopen, -, hc⟩ := h.openColumn hname ha
      rw [← hc.size] at hreads
      refine ⟨c, by rw [loadCol, hcol]; exact hopen, ?_, ?_⟩
      · rw [hmarks.fetched hc.full hreads, hc.stored]
      · rw [hmarks.count, valuesAt_eq_map fun i hi => hc.size ▸ hreads.1 i hi, List.length_map]

/-! ### Columns -/

/-- CREATE. -/
lemma create (h : db.Holds d vars) {args : InputArgs} (hname : args.argOne ≠ "")
    (hfile : db.Creatable args.argOne (storageTypeArg args.argTwo)) :
    ∃ d', createCommand d args = .ok d' ∧
      (db.setCol args.argOne ⟨storageTypeArg args.argTwo, []⟩).Holds d' vars :=
  ⟨_, if_neg hname, h.setCol hfile (.makeNew _)⟩

/-- INSERT. -/
lemma insert (vals : List (String × ℤ)) : ∀ {db db' : Database} {d : Disk}, db.Holds d vars →
    vals.foldlM insertValue db = some db' →
      ∃ d', insertWork d vals = .ok d' ∧ db'.Holds d' vars := by
  induction vals with
  | nil =>
      intro db db' d h hinsert
      cases hinsert
      exact ⟨d, rfl, h⟩
  | cons x vals ih =>
      intro db db' d h hinsert
      rw [List.foldlM_cons] at hinsert
      obtain ⟨db₁, hone, hinsert⟩ := Option.bind_eq_some_iff.mp hinsert
      rw [insertValue] at hone
      cases ha : db.cols x.1 with
      | none =>
          rw [ha] at hone
          cases hone
      | some a =>
          rw [ha] at hone
          simp only at hone
          split_ifs at hone with htakes
          cases hone
          obtain ⟨c, hc, hheld⟩ := h.cols.column _ a ha
          obtain ⟨c', hok, hheld'⟩ := hheld.insert htakes
          have hfile : db.Creatable x.1 a.type := h.creatable ha
          obtain ⟨d', hrest, h'⟩ :=
            ih (h.setCol (a := { a with vals := a.vals ++ [x.2] }) hfile hheld') hinsert
          refine ⟨d', ?_, h'⟩
          rw [insertWork, List.foldlM_cons, onColumn_ok hc hok, Outcome.ok_bind]
          exact hrest

/-- LOAD. -/
lemma load (h : db.Holds d vars) {names : List String} {rows : List (List ℤ)} (n : Node)
    (hne : names ≠ []) (hnodup : names.Nodup)
    (hcols : ∀ name ∈ names, ∃ vals, db.cols name = some ⟨.unsorted, vals⟩ ∧
      vals.length ≤ rows.length) (hrows : ∀ row ∈ rows, row.length = names.length)
    (hcount : rows.length < 2 ^ 31) :
    ∃ d', loadHelper n d names rows = .ok d' ∧ (db.load names rows).Holds d' vars := by
  have hheld : ∀ name ∈ names, ∃ c vals, d name = some c ∧
      Attribute.Holds ⟨.unsorted, vals⟩ c ∧ vals.length ≤ rows.length := by
    intro name hname
    obtain ⟨vals, hvals, hlen⟩ := hcols name hname
    obtain ⟨c, hc, hheld⟩ := h.cols.column _ _ hvals
    exact ⟨c, vals, hc, hheld, hlen⟩
  have hsteps : ∀ x ∈ names.zipIdx, ∃ c c', d x.1 = some c ∧ loadColumn rows x.2 c = .ok c' := by
    intro x hx
    obtain ⟨hi, hname⟩ := List.getElem?_eq_some_iff.mp (List.mem_zipIdx_iff_getElem?.mp hx)
    obtain ⟨c, -, hc, -⟩ := hheld x.1 (hname ▸ List.getElem_mem hi)
    obtain ⟨c', hc'⟩ := loadColumn_ok (fun row hrow => by rw [hrows row hrow]; exact hi) c
    exact ⟨c, c', hc, hc'⟩
  choose! c c' hc hstep using hsteps
  obtain ⟨d', hok, hin, hout⟩ := foldlM_onColumn c' names.zipIdx d
    (by rwa [List.zipIdx_map_fst]) fun x hx => ⟨c x, hc x hx, hstep x hx⟩
  obtain ⟨first, rest, rfl⟩ := List.exists_cons_of_ne_nil hne
  obtain ⟨c₀, vals₀, hc₀, hheld₀, -⟩ := hheld first List.mem_cons_self
  have htype : c₀.data.m.type = .unsorted := hheld₀.type
  refine ⟨d', ?_, h.toHolds, ?_, ?_⟩
  · have hname : fetch .bounds (first :: rest) 0 = .ok first := rfl
    rw [loadHelper, loadHelperBy, hname, Outcome.ok_bind, initCol, hc₀]
    simp only [Outcome.ok_bind, htype, if_true, hok]
    rfl
  · intro name a ha
    rw [Database.load] at ha
    simp only at ha
    split_ifs at ha with hname
    · cases ha
      have hidx : (first :: rest)[(first :: rest).idxOf name]? = some name :=
        List.getElem?_idxOf hname
      have hmem := List.mk_mem_zipIdx_iff_getElem?.mpr hidx
      obtain ⟨c₁, vals, hc₁, hheld₁, hlen⟩ := hheld name hname
      obtain rfl := Option.some.inj ((hc _ hmem).symm.trans hc₁)
      obtain ⟨hm, hnodes, hcells, hstored⟩ := loadColumn_eq_ok (hstep _ hmem)
      have hstale : (c (name, (first :: rest).idxOf name)).data.cells.drop rows.length = [] :=
        List.drop_eq_nil_of_le (by rw [hheld₁.cells_eq]; exact hlen)
      refine ⟨_, hin _ hmem, ?_, ?_, hstored, ?_, fun hb => by cases hb⟩
      · rw [hm]
        exact hheld₁.type
      · rw [hcells, hstale, List.append_nil, List.length_map, hm]
      · rwa [List.length_map]
    · rw [hout name (by rwa [List.zipIdx_map_fst])]
      exact h.cols.column name a ha
  · intro name a ha htype
    rw [Database.load] at ha ⊢
    simp only at ha ⊢
    split_ifs at ha
    · cases ha
      cases htype
    · have hnodes := h.cols.apart name a ha htype
      rw [if_neg fun hmem => ?_]
      · exact hnodes
      · obtain ⟨vals, hvals, -⟩ := hcols _ hmem
        rw [hnodes] at hvals
        cases hvals

/-- UPDATE. -/
lemma update (h : db.Holds d vars) {args : InputArgs} {m : Meaning} {rows : List ℕ}
    {vals : List ℤ} (hm : db.vars args.argOne = some m) (hvar : args.argOne ≠ "")
    (hrows : m.rows = some rows) (hname : IsName args.argTwo)
    (ha : db.cols args.argTwo = some ⟨.unsorted, vals⟩) (hin : ∀ i ∈ rows, i < vals.length) :
    ∃ d', updateCommand d vars args = .ok d' ∧
      (db.setCol args.argTwo ⟨.unsorted,
        rows.foldl (fun vals i => vals.set i (intArg args.argThree)) vals⟩).Holds d' vars := by
  obtain ⟨v, hv, -, hmean⟩ := h.getVariable hvar hm
  obtain ⟨c, hopen, hc, hheld⟩ := h.openColumn hname ha
  have hpos : getPosFromVar v.toVariable = .ok rows := by
    rw [SessionVar.toVariable]
    cases m with
    | selected s =>
        cases hrows
        rw [hmean.1]
        exact hmean.2.2.2.positions
    | fetched col s isRead =>
        cases hrows
        rw [hmean.1]
        exact hmean.2.2.2.1.positions
    | joined ids =>
        cases hrows
        rw [hmean.1, hmean.2.2]
        rfl
    | computed | gathered | freed => cases hrows
  have htype : c.data.m.type = .unsorted := hheld.type
  have hupdate : updateHelper c rows (intArg args.argThree)
      = .ok { c with data := rows.foldl (updateTurn (intArg args.argThree)) c.data } := by
    rw [updateHelper, if_pos htype]
  have hfile : db.Creatable args.argTwo .unsorted := h.creatable ha
  refine ⟨_, ?_, h.setCol hfile (hheld.update rows _ hin)⟩
  rw [updateCommand, hv, Outcome.ok_bind, hpos, Outcome.ok_bind, hopen, Outcome.ok_bind,
    onColumn_ok hc hupdate]

/-! ### Selecting and fetching -/

/-- SELECT. -/
lemma select (h : db.Holds d vars) {args : InputArgs} {a : Attribute} {s : Selection}
    (hfresh : db.Fresh args.var) (hname : IsName args.argOne) (ha : db.cols args.argOne = some a)
    (hs : a.select args = some s) :
    ∃ vars', selectCommand d vars true args = .ok vars' ∧
      (db.bind args.var (.selected s)).Holds d vars' := by
  obtain ⟨c, hopen, -, hheld⟩ := h.openColumn hname ha
  obtain ⟨bv, hmark, hmarks⟩ := hheld.selectMarks hs
  have hinit := h.newName hfresh false c.data.m.size false
  refine ⟨_, ?_, h.bind (newVariable false c.data.m.size false)
    (v := { newVariable false c.data.m.size false with bv := bv }) ⟨rfl, rfl, rfl, hmarks⟩⟩
  rw [selectCommand, if_pos rfl, hopen, Outcome.ok_bind, initializeVariable, hinit, Outcome.ok_bind]
  simp only
  rw [show (newVariable false c.data.m.size false).bv = createBv c.data.m.size from rfl, hmark,
    Outcome.ok_bind]

/-- FETCH into a variable. -/
lemma fetch (h : db.Holds d vars) {args : InputArgs} {a : Attribute} {m m' : Meaning}
    (hfresh : db.Fresh args.var) (hname : IsName args.argOne) (ha : db.cols args.argOne = some a)
    (hvar : args.argTwo ≠ "") (hnumber : (strtol args.argTwo).2 = false)
    (hm : db.vars args.argTwo = some m) (hm' : m.fetch args.argOne a = some m') :
    ∃ vars', fetchIntoVariable d vars args = .ok vars' ∧
      (db.bind args.var m').Holds d vars' := by
  obtain ⟨c, hopen, -, hheld⟩ := h.openColumn hname ha
  obtain ⟨v, -, hv, hmean⟩ := h.getVariable hvar hm
  obtain ⟨v', hfetched, hmean'⟩ := hheld.fetchedVariable hname hmean hm'
  have hinit := h.newName hfresh false c.data.m.size false
  have hne : args.argTwo ≠ args.var := by
    intro heq
    rw [heq, hfresh.2] at hm
    cases hm
  refine ⟨_, ?_, h.bind (newVariable false c.data.m.size false) hmean'⟩
  have hfound : ColumnDb.getVariable
      (vars.append args.var (newVariable false c.data.m.size false)) args.argTwo = .ok v :=
    getVariable_eq_ok.mpr ⟨hvar, by rw [Vars.find_append_of_ne hne, hv]⟩
  rw [fetchIntoVariable, hopen, Outcome.ok_bind, if_neg hvar, initializeVariable, hinit,
    Outcome.ok_bind]
  simp only
  rw [hnumber, if_neg Bool.false_ne_true, hfound, Outcome.ok_bind, hfetched, Outcome.ok_bind]

/-- FETCH without a variable. -/
lemma reply (h : db.Holds d vars) {args : InputArgs} {a : Attribute} {m : Meaning} {rows : List ℕ}
    (hname : IsName args.argOne) (ha : db.cols args.argOne = some a) (hvar : args.argTwo ≠ "")
    (hnumber : (strtol args.argTwo).2 = false) (hm : db.vars args.argTwo = some m)
    (hrows : m.rows = some rows) (hreads : m.Reads a.vals.length) :
    fetchReply d vars args = .ok (valuesAt rows a.vals) := by
  obtain ⟨c, hopen, -, hheld⟩ := h.openColumn hname ha
  obtain ⟨v, -, hv, hmean⟩ := h.getVariable hvar hm
  have hbv : ∀ s : Selection, v.isId = false → s.Marks v.bv → s.Reads a.vals.length →
      fetchSelected c v = .ok (valuesAt s.rows a.vals) := by
    intro s hid hmarks hs
    rw [fetchSelected, hid, if_neg Bool.false_ne_true,
      hmarks.fetched hheld.full (hheld.size ▸ hs), hheld.stored]
  have hselected : fetchSelected c v = .ok (valuesAt rows a.vals) := by
    cases m with
    | selected s =>
        cases hrows
        exact hbv s hmean.1 hmean.2.2.2 hreads
    | fetched col s isRead =>
        cases hrows
        exact hbv s hmean.1 hmean.2.2.2.1 hreads
    | joined ids =>
        cases hrows
        rw [fetchSelected, if_pos hmean.1, hmean.2.2]
        exact hheld.fetchIds hreads
    | computed | gathered | freed => cases hrows
  rw [fetchReply, hopen, Outcome.ok_bind, if_neg hvar, hnumber, if_neg Bool.false_ne_true,
    findVariable, if_neg hvar, Outcome.ok_bind, hv]
  exact hselected

/-! ### Computing -/

/-- Binding a computed value. -/
lemma bindValue (h : db.Holds d vars) {x : String} (hfresh : db.Fresh x) (val : ℤ) :
    ∃ vars', ColumnDb.bindValue vars x val = .ok vars' ∧
      (db.bind x (.computed [val])).Holds d vars' := by
  refine ⟨_, ?_, h.bind (newVariable true 0 false) (v := { newVariable true 0 false with
    isMaterialized := true, valSize := 1, val := .live [val] }) ⟨rfl, rfl, rfl, rfl⟩⟩
  rw [ColumnDb.bindValue, initializeVariableMaterialized, h.newName hfresh, Outcome.ok_bind]

/-- COUNT. -/
lemma count (h : db.Holds d vars) {args : InputArgs} {m : Meaning} {n : ℕ}
    (hfresh : db.Fresh args.var) (hvar : args.argOne ≠ "") (hm : db.vars args.argOne = some m)
    (hn : m.count = some n) :
    ∃ vars', countCommand vars true args = .ok vars' ∧
      (db.bind args.var (.computed [toInt32 n])).Holds d vars' := by
  obtain ⟨v, hv, -, hmean⟩ := h.getVariable hvar hm
  obtain ⟨vars', hok, h'⟩ := h.bindValue hfresh (toInt32 n)
  refine ⟨vars', ?_, h'⟩
  have hcount : countOf v = n := by
    cases m with
    | fetched col s isRead =>
        cases hn
        rw [countOf, if_pos hmean.2.1, hmean.2.2.2.1.count]
    | computed vals =>
        cases hn
        rw [countOf, hmean.1, if_neg Bool.false_ne_true, if_pos hmean.2.materialized,
          hmean.2.size]
    | selected | joined | gathered | freed => cases hn
  rw [countCommand, if_pos rfl, hv, Outcome.ok_bind, hcount]
  exact hok

/-- MIN, MAX, SUM and AVG. -/
lemma aggregate (h : db.Holds d vars) {args : InputArgs} {m : Meaning} {vals : List ℤ} {x : ℤ}
    (hfresh : db.Fresh args.var) (hvar : args.argOne ≠ "") (hm : db.vars args.argOne = some m)
    (hvals : db.aggregated m = some vals) {op : ℤ → ℤ → ℤ} {isAvg : Bool}
    (hx : aggregateArray (.live vals) vals.length op isAvg = .ok x) :
    ∃ vars', aggregateCommand op isAvg d vars true args = .ok vars' ∧
      ((db.set args.argOne m.afterAggregate).bind args.var (.computed [x])).Holds d vars' := by
  obtain ⟨v, hv, hfind, hmean⟩ := h.getVariable hvar hm
  have hoperand : (∃ c, loadCol d v = .ok c ∧
      operandArray c.data v = .ok (.live vals, vals.length)) ∧
        m.afterAggregate.Holds (freeAggregated v) := by
    cases m with
    | fetched col s isRead =>
        rw [aggregated] at hvals
        split_ifs at hvals with hread
        obtain ⟨c, hc, hfetch, hcount⟩ := h.read hmean hvals
        have hmaterialized : v.isMaterialized = false := by
          rw [hmean.2.2.1, Bool.eq_false_iff]
          exact hread
        refine ⟨⟨c, hc, ?_⟩, ?_⟩
        · rw [operandArray, hmaterialized, if_neg Bool.false_ne_true, hfetch, Outcome.ok_bind,
            hcount]
        · rw [freeAggregated, hmaterialized, if_neg Bool.false_ne_true]
          exact hmean
    | gathered col vals' =>
        obtain ⟨a, ha, rfl⟩ := Option.map_eq_some_iff.mp hvals
        obtain ⟨-, hstores, hname, hcol⟩ := hmean
        obtain ⟨c, hopen, -, -⟩ := h.openColumn hname ha
        refine ⟨⟨c, by rw [loadCol, hcol]; exact hopen, ?_⟩, trivial⟩
        rw [operandArray, if_pos hstores.materialized, hstores.val, hstores.size]
    | selected | computed | joined | freed => cases hvals
  obtain ⟨⟨c, hc, harray⟩, hafter⟩ := hoperand
  have h₁ := h.set hfind hafter
  have hne : args.var ≠ args.argOne := by
    intro heq
    rw [← heq, hfresh.2] at hm
    cases hm
  have hfresh₁ : (db.set args.argOne m.afterAggregate).Fresh args.var :=
    ⟨hfresh.1, (Function.update_of_ne hne _ _).trans hfresh.2⟩
  obtain ⟨vars', hbind, h₂⟩ := h₁.bindValue hfresh₁ x
  refine ⟨vars', ?_, h₂⟩
  rw [aggregateCommand, if_pos rfl, hv, Outcome.ok_bind, aggregateVals_eq, hc, Outcome.ok_bind,
    aggregateLoaded, harray, Outcome.ok_bind]
  simp only [hx, Outcome.ok_bind]
  exact hbind

/-- An operand of a math command. -/
lemma operand (h : db.Holds d vars) {m : Meaning} {vals : List ℤ} {v : SessionVar}
    (hm : m.Holds v) (hvals : db.operand m = some vals) (hne : vals ≠ []) :
    v.HasOwnValues ∧ v.Rereads d ∧ v.seenValues d = vals ∧ m.afterMath.Holds (v.cached d) ∧
      v.operandSize = if m.isFetched then some vals.length else none := by
  cases m with
  | fetched col s isRead =>
      obtain ⟨c, hc, hfetch, hcount⟩ := h.read hm hvals
      obtain ⟨hid, hfetched, -, hmarks, hname, hcol⟩ := hm
      obtain ⟨hread, hseen⟩ := fetchMatchedFromBv_iff.mp hfetch
      refine ⟨fun hf => absurd (hf.symm.trans hfetched) Bool.false_ne_true,
        fun _ => ⟨c, hc, hread⟩, ?_, ?_, ?_⟩
      · rw [SessionVar.seenValues_of_loadCol hfetched hc, hseen]
      · rw [SessionVar.cached_of_fetched hfetched]
        exact ⟨hid, hfetched, rfl, hmarks, hname, hcol⟩
      · rw [SessionVar.operandSize, if_pos hfetched, hcount]
        rfl
  | computed vals' =>
      cases hvals
      obtain ⟨hfetched, hstores⟩ := hm
      refine ⟨fun _ => ⟨hstores.materialized, ?_, _, hstores.val⟩,
        fun hf => absurd (hfetched.symm.trans hf) Bool.false_ne_true, ?_, ?_, ?_⟩
      · rw [hstores.size]
        exact List.length_pos_iff.mpr hne
      · exact SessionVar.seenValues_of_computed hfetched hstores.val
      · rw [SessionVar.cached_of_computed hfetched]
        exact ⟨hfetched, hstores⟩
      · rw [SessionVar.operandSize, hfetched]
        rfl
  | selected | joined | gathered | freed => cases hvals

/-- ADD, SUB, MUL and DIV. -/
lemma math (h : db.Holds d vars) {args : InputArgs} {m₁ m₂ : Meaning} {xs ys : List ℤ}
    (hmath : args.command.isMath = true) (hfresh : db.Fresh args.var) (hroom : Roomy db.used)
    (hvar₁ : args.argOne ≠ "") (hm₁ : db.vars args.argOne = some m₁) (hvar₂ : args.argTwo ≠ "")
    (hm₂ : db.vars args.argTwo = some m₂) (hxs : db.operand m₁ = some xs)
    (hys : db.operand m₂ = some ys) (hfetched : m₁.isFetched = true ∨ m₂.isFetched = true)
    (hlen : xs.length = ys.length) (hne : xs ≠ []) (hfits : FitsInt xs)
    (hdiv : args.command = .div → ∀ i : ℕ, xs[i]? = some (-2 ^ 31) → ys[i]? ≠ some (-1)) :
    ∃ vars', mathCommand args.command.fptr d vars true args = .ok vars' ∧
      (((db.set args.argOne m₁.afterMath).set args.argTwo m₂.afterMath).bind args.var
        (.computed (List.zipWith args.command.elementwise xs ys))).Holds d vars' := by
  have hne' : ys ≠ [] := by
    rintro rfl
    exact hne (List.length_eq_zero_iff.mp hlen)
  obtain ⟨v₁, hv₁, hfind₁, hmean₁⟩ := h.getVariable hvar₁ hm₁
  obtain ⟨v₂, hv₂, hfind₂, hmean₂⟩ := h.getVariable hvar₂ hm₂
  obtain ⟨hown₁, hread₁, hseen₁, hafter₁, hsize₁⟩ := h.operand hmean₁ hxs hne
  obtain ⟨hown₂, hread₂, hseen₂, hafter₂, hsize₂⟩ := h.operand hmean₂ hys hne'
  -- the operands keep their values
  have h₁ := h.set hfind₁ hafter₁
  obtain ⟨w, hw⟩ := Option.ne_none_iff_exists'.mp
    (mt (find_set_eq_none hfind₁ (w := v₁.cached d) (y := args.argTwo)).mp
      (by rw [hfind₂]; exact Option.some_ne_none _))
  have h₂ := h₁.set hw hafter₂
  have hfresh₂ : ((db.set args.argOne m₁.afterMath).set args.argTwo m₂.afterMath).Fresh
      args.var := by
    have hne₁ : args.var ≠ args.argOne := by
      intro heq
      rw [← heq, hfresh.2] at hm₁
      cases hm₁
    have hne₂ : args.var ≠ args.argTwo := by
      intro heq
      rw [← heq, hfresh.2] at hm₂
      cases hm₂
    exact ⟨hfresh.1, (Function.update_of_ne hne₂ _ _).trans
      ((Function.update_of_ne hne₁ _ _).trans hfresh.2)⟩
  have hcount : v₂.operandSize.or v₁.operandSize = some xs.length := by
    rw [hsize₁, hsize₂, ← hlen]
    cases hf₂ : m₂.isFetched with
    | true => rfl
    | false =>
        rw [hf₂] at hfetched
        rw [hfetched.resolve_right Bool.false_ne_true]
        rfl
  have hoperands := (mathOperands_iff hv₁ hv₂ hown₁ hown₂).mpr
    ⟨hread₁, hread₂, rfl, hcount.symm⟩
  obtain ⟨hfound₁, hfound₂⟩ := getVariable_cachedOperands (d := d) hv₁ hv₂
  have hsame : SameResults args.command xs ys xs ys := by
    intro i hi
    have hi' : i < ys.length := hlen ▸ hi
    refine ⟨xs[i], ys[i], xs[i], ys[i], List.getElem?_eq_getElem hi, List.getElem?_eq_getElem hi',
      List.getElem?_eq_getElem hi, List.getElem?_eq_getElem hi',
      (fptr_iff hmath (hfits _ (List.getElem_mem hi)) _).mpr ?_⟩
    rintro ⟨hcommand, hx, hy⟩
    exact hdiv hcommand i (by rw [List.getElem?_eq_getElem hi, hx])
      (by rw [List.getElem?_eq_getElem hi', hy])
  have hvals := (mathOpOnVar_elementwise_iff hlen).mpr hsame
  have hmoves : (cachedOperands d vars args v₁ v₂).moves args.var = false := h₂.moves hroom _
  have hinit : initializeVariableMaterialized (cachedOperands d vars args v₁ v₂) args.var = _ :=
    h₂.newName hfresh₂ true 0 false
  refine ⟨_, ?_, h₂.bind (newVariable true 0 false) (v := { newVariable true 0 false with
    isMaterialized := true, valSize := xs.length
    val := .live (List.zipWith args.command.elementwise xs ys) }) ⟨rfl, rfl, ?_, rfl⟩⟩
  · rw [mathCommand, if_pos rfl, hoperands]
    simp only [Outcome.ok_bind]
    rw [hmoves, if_neg Bool.false_ne_true, hfound₁, Outcome.ok_bind, hfound₂, Outcome.ok_bind,
      hinit, Outcome.ok_bind]
    simp only
    rw [SessionVar.val_cached hown₁, SessionVar.val_cached hown₂, hseen₁, hseen₂, hvals,
      Outcome.ok_bind]
  · rw [List.length_zipWith, ← hlen, min_self]

end Database.Holds

/-! ### Joining -/

section Join

/-- The pairs of a nested loop over selected rows. -/
lemma joinPairs_rows (vals₁ vals₂ : List ℤ) (rows₁ rows₂ : List ℕ) :
    joinPairs (rows₁.map fun i => (vals₁.getD i 0, i)) (rows₂.map fun i => (vals₂.getD i 0, i))
      = (rows₁.product rows₂).filter fun p => vals₁.getD p.1 0 = vals₂.getD p.2 0 := by
  rw [joinPairs, matching, List.flatMap_map, List.product, List.filter_flatMap]
  refine congrArg (List.flatMap · rows₁) (funext fun i => ?_)
  rw [List.filter_map, List.filter_map, List.map_map]
  rfl

variable {vars : Vars} {x y : String} {v w : SessionVar}

/-- A fresh list of ids takes the new ones. -/
lemma appendIds_empty (hx : x ≠ "") (hv : vars.find x = some v) (hids : v.ids = some [])
    {new : List ℕ} (hfew : new.length ≤ 2 ^ 29) :
    appendIds vars x new = .ok (vars.set x { v with ids := some new }) := by
  obtain ⟨l, hl, hvals⟩ := appendAll_four hfew
  rw [appendIds, getVariable_eq_ok.mpr ⟨hx, hv⟩, Outcome.ok_bind, hids]
  simp only [List.nil_append, hl, Outcome.ok_bind, hvals]

/-- A fresh list of ids is replaced by one. -/
lemma resetIds_empty (hx : x ≠ "") (hv : vars.find x = some v) (hids : v.ids = some []) :
    resetIds vars x = .ok vars := by
  rw [resetIds, getVariable_eq_ok.mpr ⟨hx, hv⟩, Outcome.ok_bind]
  exact congrArg Except.ok (Vars.set_find (by rw [hv, ← hids]))

/-- The results of a join are two fresh lists of ids. -/
structure FreshResults (vars : Vars) (x y : String) (v w : SessionVar) : Prop where
  ne : x ≠ y
  left : x ≠ "" ∧ vars.find x = some v ∧ v.ids = some []
  right : y ≠ "" ∧ vars.find y = some w ∧ w.ids = some []

/-- The variables with the results of a join. -/
def withPairs (vars : Vars) (x y : String) (v w : SessionVar) (pairs : List (ℕ × ℕ)) : Vars :=
  (vars.set x { v with ids := some (pairs.map Prod.fst) }).set y
    { w with ids := some (pairs.map Prod.snd) }

lemma FreshResults.appendJoin (h : FreshResults vars x y v w) (swap : Bool) {ids : JoinIds}
    {ps : List (ℕ × ℕ)} (hids : JoinIds.empty.extend ps = .ok ids) :
    ColumnDb.appendJoin vars x y swap ids = .ok (withPairs vars x y v w ps) := by
  obtain ⟨hx, hv, hids₁⟩ := h.left
  obtain ⟨hy, hw, hids₂⟩ := h.right
  obtain ⟨h₁, h₂⟩ := JoinIds.extend_empty_vals hids
  have hfew : ps.length ≤ 2 ^ 29 := (JoinIds.extend_empty_ok_iff ps).mp ⟨ids, hids⟩
  rw [ColumnDb.appendJoin, if_neg h.ne, h₁, h₂,
    appendIds_empty hx hv hids₁ (by rwa [List.length_map]), Outcome.ok_bind,
    appendIds_empty hy (by rw [Vars.find_set_of_ne (Ne.symm h.ne), hw]) hids₂
      (by rwa [List.length_map]), withPairs]

variable {a₁ a₂ : Attribute} {s₁ s₂ : Selection} {c₁ c₂ : Column} {v₁ v₂ : SessionVar}

/-- The values of a side are those in its rows. -/
lemma mem_valuesAt {a : Attribute} {s : Selection} (hreads : s.Reads a.vals.length) {p : ℤ × ℕ}
    (hp : p ∈ s.rows.map fun i => (a.vals.getD i 0, i)) : p.1 ∈ valuesAt s.rows a.vals := by
  obtain ⟨i, hi, rfl⟩ := List.mem_map.mp hp
  rw [valuesAt_eq_map hreads.1]
  exact List.mem_map_of_mem hi

/-- The first value of a sorted side is its least one. -/
lemma OrderedBy.head_eq_min {a : Attribute} {s : Selection} {l : List (ℤ × ℕ)}
    (h : OrderedBy Prod.fst (s.rows.map fun i => (a.vals.getD i 0, i)) l)
    (hreads : s.Reads a.vals.length) {q : ℤ × ℕ} (hq : q ∈ l.head?) :
    q.1 ∈ (valuesAt s.rows a.vals).min? := by
  obtain ⟨rest, rfl⟩ := List.head?_eq_some_iff.mp hq
  refine List.min?_eq_some_iff.mpr
    ⟨mem_valuesAt hreads (h.perm.mem_iff.mp List.mem_cons_self), fun x hx => ?_⟩
  rw [valuesAt_eq_map hreads.1] at hx
  obtain ⟨i, hi, rfl⟩ := List.mem_map.mp hx
  have hmem : (a.vals.getD i 0, i) ∈ q :: rest :=
    h.perm.mem_iff.mpr (List.mem_map_of_mem hi)
  rcases List.mem_cons.mp hmem with heq | hmem
  · rw [← heq]
  · exact (List.pairwise_cons.mp h.order).1 _ hmem

/-- A side that is sorted. -/
lemma sortSide_ordered {a : Attribute} {s : Selection} {c : Column} (hc : a.Holds c)
    (hsort : Database.Sortable a s) (hreads : s.Reads a.vals.length) :
    OrderedBy Prod.fst (s.rows.map fun i => (a.vals.getD i 0, i))
      (sortSide c (s.rows.map fun i => (a.vals.getD i 0, i))) := by
  obtain ⟨htype, -, hnear⟩ := hsort
  have hcmp : (fun x y : ℤ × ℕ => compareInt x.1 y.1) = bmodDiff Prod.fst (2 ^ 31) := rfl
  have hhalf : ((2 ^ 31 : ℕ) : ℤ) = 2 ^ 31 := by norm_num
  rw [sortSide_eq, sortSideBy, if_pos (hc.type.trans htype), hcmp]
  refine .of_near mergeQsort_sorts fun p hp q hq => ?_
  obtain ⟨i, hi, rfl⟩ := List.mem_map.mp hp
  obtain ⟨j, hj, rfl⟩ := List.mem_map.mp hq
  rw [valuesAt_eq_map hreads.1] at hnear
  rw [hhalf]
  exact hnear _ (List.mem_map_of_mem hi) _ (List.mem_map_of_mem hj)

/-- The result of a join that has room for its pairs. -/
lemma FreshResults.appends (h : FreshResults vars x y v w) (swap : Bool)
    {result : Outcome JoinIds} {m₀ m₁ : List (ℤ × ℕ)} (happends : JoinAppends result m₀ m₁)
    (hfew : (joinPairs m₀ m₁).length ≤ 2 ^ 29) :
    ∃ pairs, pairs.Perm (joinPairs m₀ m₁) ∧
      (result >>= fun ids => ColumnDb.appendJoin vars x y swap ids)
        = .ok (withPairs vars x y v w pairs) := by
  obtain ⟨ps, rfl, hperm⟩ := happends
  obtain ⟨ids, hids⟩ := (JoinIds.extend_empty_ok_iff ps).mpr (hperm.length_eq ▸ hfew)
  exact ⟨ps, hperm, by rw [hids, Outcome.ok_bind, h.appendJoin swap hids]⟩

/-- **The sides of a join** have their equal rows as its pairs, in some order. -/
lemma FreshResults.joinSides (h : FreshResults vars x y v w) {command : Command}
    {isRead₂ : Bool} (hc₁ : a₁.Holds c₁) (hc₂ : a₂.Holds c₂) (hmarks₁ : s₁.Marks v₁.bv)
    (hmarks₂ : s₂.Marks v₂.bv) (hreads₁ : s₁.Reads a₁.vals.length)
    (hreads₂ : s₂.Reads a₂.vals.length) (hread₂ : v₂.isMaterialized = isRead₂)
    (hjoin : Database.Joinable a₁ s₁ a₂ s₂ isRead₂ command)
    (hfew : (a₁.equalRows s₁ a₂ s₂).length ≤ 2 ^ 29) :
    ∃ pairs, pairs.Perm (a₁.equalRows s₁ a₂ s₂) ∧
      ColumnDb.joinSides vars command x y c₁ c₂ v₁ v₂
        = .ok (withPairs vars x y v w pairs) := by
  have hside₁ := hmarks₁.side (f := c₁.data) (hc₁.size ▸ hreads₁)
  have hside₂ := hmarks₂.side (f := c₂.data) (hc₂.size ▸ hreads₂)
  have hmarked₁ := hmarks₁.markedRows_eq (f := c₁.data) (hc₁.size ▸ hreads₁)
  have hmarked₂ := hmarks₂.markedRows_eq (f := c₂.data) (hc₂.size ▸ hreads₂)
  rw [hc₁.stored] at hside₁ hmarked₁
  rw [hc₂.stored] at hside₂ hmarked₂
  have hrows := joinPairs_rows a₁.vals a₂.vals s₁.rows s₂.rows
  rw [← Attribute.equalRows] at hrows
  rw [← hrows] at hfew ⊢
  rw [ColumnDb.joinSides, hside₁, Outcome.ok_bind]
  cases command with
  | loopjoin =>
      simp only [hside₂, Outcome.ok_bind]
      rw [resetIds_empty h.left.1 h.left.2.1 h.left.2.2, Outcome.ok_bind,
        resetIds_empty h.right.1 h.right.2.1 h.right.2.2, Outcome.ok_bind]
      exact h.appends false (loopJoin_appends _ _) hfew
  | hashjoin =>
      simp only [hside₂, Outcome.ok_bind]
      exact h.appends _ (hashJoin_appends _ _ _) hfew
  | sortjoin =>
      obtain ⟨hsort₁, hsort₂, hleast⟩ := hjoin
      have hordered₁ := sortSide_ordered hc₁ hsort₁ hreads₁
      have hordered₂ := sortSide_ordered hc₂ hsort₂ hreads₂
      have hfits₁ : (sortSide c₁ (s₁.rows.map fun i => (a₁.vals.getD i 0, i))).length < 2 ^ 31 := by
        rw [hordered₁.perm.length_eq, List.length_map]
        exact hsort₁.2.1
      have hfits₂ : (sortSide c₂ (s₂.rows.map fun i => (a₂.vals.getD i 0, i))).length < 2 ^ 31 := by
        rw [hordered₂.perm.length_eq, List.length_map]
        exact hsort₂.2.1
      have hfirst : ∀ q ∈ (sortSide c₂ (s₂.rows.map fun i => (a₂.vals.getD i 0, i))).head?,
          ∀ p ∈ sortSide c₁ (s₁.rows.map fun i => (a₁.vals.getD i 0, i)), p.1 ≠ q.1 := by
        intro q hq p hp heq
        refine hleast q.1 (hordered₂.head_eq_min hreads₂ hq) (heq ▸ ?_)
        exact mem_valuesAt hreads₁ (hordered₁.perm.mem_iff.mp hp)
      have hsorted := matching_perm (fun x y : ℤ × ℕ => decide (x.1 = y.1))
        (fun x y => (x.2, y.2)) hordered₁.perm hordered₂.perm
      simp only [hside₂, Outcome.ok_bind]
      obtain ⟨pairs, hperm, hok⟩ := h.appends false
        (sortJoin_appends hfits₁ hfits₂ hordered₁.order hordered₂.order hfirst)
        (hsorted.length_eq.trans_le hfew)
      exact ⟨pairs, hperm.trans hsorted, hok⟩
  | treejoin =>
      rcases hjoin with ⟨hsearch, htype, hisRead, hne⟩ | ⟨hsearch, htype, hne⟩
      · obtain ⟨tree, htree⟩ := hc₁.exists_tree hsearch.1 hsearch.2.1
        have hsize : v₁.bv.size = c₁.data.m.size := by
          rw [hmarks₁.size, hsearch.2.2, hc₁.size]
        have hnot : c₂.data.m.type ≠ .bptree := hc₂.type ▸ htype
        have hside : (treeSide c₁ v₁ (s₁.rows.map fun i => (a₁.vals.getD i 0, i))).tree
            = some tree := by
          rw [treeSide, if_pos htree.type, htree.nodes]
        have happends : JoinAppends
            (treeJoin true (treeSide c₁ v₁ (s₁.rows.map fun i => (a₁.vals.getD i 0, i)))
              (treeSide c₂ v₂ (s₂.rows.map fun i => (a₂.vals.getD i 0, i))))
            (markedRows c₁.data v₁.bv) (s₂.rows.map fun i => (a₂.vals.getD i 0, i)) :=
          htree.joins_first hside hsize
            (fun _ => ⟨hread₂.trans hisRead, by rwa [treeSide, Ne, List.map_eq_nil_iff]⟩)
            fun x _ => hc₁.length_rowsWith_le hsearch.1 x.1
        rw [hmarked₁] at happends
        rw [if_neg fun hc => hnot hc.1]
        simp only [hside₂, Outcome.ok_bind]
        exact h.appends _ happends hfew
      · obtain ⟨tree, htree⟩ := hc₂.exists_tree hsearch.1 hsearch.2.1
        have hsize : v₂.bv.size = c₂.data.m.size := by
          rw [hmarks₂.size, hsearch.2.2, hc₂.size]
        have hnot : c₁.data.m.type ≠ .bptree := hc₁.type ▸ htype
        have hside : (treeSide c₂ v₂ []).tree = some tree := by
          rw [treeSide, if_pos htree.type, htree.nodes]
        have happends : JoinAppends
            (treeJoin true (treeSide c₁ v₁ (s₁.rows.map fun i => (a₁.vals.getD i 0, i)))
              (treeSide c₂ v₂ []))
            (s₁.rows.map fun i => (a₁.vals.getD i 0, i)) (markedRows c₂.data v₂.bv) :=
          htree.joins_second (if_neg hnot) hside hsize
            (fun _ => by rwa [treeSide, Ne, List.map_eq_nil_iff])
            fun x _ => hc₂.length_rowsWith_le hsearch.1 x.1
        rw [hmarked₂] at happends
        rw [if_pos ⟨htree.type, hnot⟩]
        simp only [Outcome.ok_bind]
        exact h.appends _ happends hfew
  | _ => exact hjoin.elim

end Join

namespace Database.Holds

variable {db : Database} {d : Disk} {vars : Vars}

/-- The joins. -/
lemma join (h : db.Holds d vars) {args : InputArgs} {x y col₁ col₂ : String} {s₁ s₂ : Selection}
    {isRead₁ isRead₂ : Bool} {a₁ a₂ : Attribute} (hvar : args.var = x ++ "," ++ y)
    (hcomma : ',' ∉ x.toList) (hlen : x.length = y.length) (hne : x ≠ y) (hfresh₁ : db.Fresh x)
    (hfresh₂ : db.Fresh y) (hroom₁ : Roomy db.used) (hroom₂ : Roomy (db.used + 1))
    (hvar₁ : args.argOne ≠ "") (hvar₂ : args.argTwo ≠ "")
    (hm₁ : db.vars args.argOne = some (.fetched col₁ s₁ isRead₁))
    (hm₂ : db.vars args.argTwo = some (.fetched col₂ s₂ isRead₂))
    (ha₁ : db.cols col₁ = some a₁) (ha₂ : db.cols col₂ = some a₂)
    (hreads₁ : s₁.Reads a₁.vals.length) (hreads₂ : s₂.Reads a₂.vals.length)
    (hjoin : Joinable a₁ s₁ a₂ s₂ isRead₂ args.command)
    (hfew : (a₁.equalRows s₁ a₂ s₂).length ≤ 2 ^ 29) :
    ∃ vars', ∃ pairs : List (ℕ × ℕ), joinCommand d vars args = .ok vars' ∧
      pairs.Perm (a₁.equalRows s₁ a₂ s₂) ∧ ((db.bind x (.joined (pairs.map Prod.fst))).bind y
          (.joined (pairs.map Prod.snd))).Holds d vars' := by
  obtain ⟨v₁, hv₁, -, -, -, hread₁, hmarks₁, hname₁, hcol₁⟩ := h.getVariable hvar₁ hm₁
  obtain ⟨v₂, hv₂, -, -, -, hread₂, hmarks₂, hname₂, hcol₂⟩ := h.getVariable hvar₂ hm₂
  obtain ⟨c₁, hopen₁, -, hc₁⟩ := h.openColumn hname₁ ha₁
  obtain ⟨c₂, hopen₂, -, hc₂⟩ := h.openColumn hname₂ ha₂
  have hload₁ : loadCol d v₁ = .ok c₁ := by rw [loadCol, hcol₁]; exact hopen₁
  have hload₂ : loadCol d v₂ = .ok c₂ := by rw [loadCol, hcol₂]; exact hopen₂
  have hnames : joinNames args.var = .ok (x, y) := by
    rw [hvar, joinNames_text hcomma hfresh₁.1.2 hfresh₂.1.2.le, if_neg (by omega),
      List.take_of_length_le (by rw [String.length_toList]; omega), String.ofList_toList]
  -- both results are fresh lists of ids
  have hinit₁ : initializeRowidVariable vars x
      = .ok (vars.append x (newVariable false 0 true), newVariable false 0 true) :=
    h.newName hfresh₁ false 0 true
  have h₁ := h.append (x := x) (m := .joined []) (v := newVariable false 0 true) ⟨rfl, rfl, rfl⟩
  have hfresh₂' : (db.bind x (.joined [])).Fresh y :=
    ⟨hfresh₂.1, (Function.update_of_ne (Ne.symm hne) _ _).trans hfresh₂.2⟩
  have hinit₂ : initializeRowidVariable (vars.append x (newVariable false 0 true)) y = .ok (_, _) :=
    h₁.newName hfresh₂' false 0 true
  have h₂ := h₁.append (x := y) (m := .joined []) (v := newVariable false 0 true) ⟨rfl, rfl, rfl⟩
  have hfind₁ : ((vars.append x (newVariable false 0 true)).append y
      (newVariable false 0 true)).find x = some (newVariable false 0 true) := by
    rw [Vars.find_append_of_ne hne, Vars.find_append_self]
  have hresults : FreshResults ((vars.append x (newVariable false 0 true)).append y
      (newVariable false 0 true)) x y (newVariable false 0 true) (newVariable false 0 true) :=
    ⟨hne, ⟨hfresh₁.1.1, hfind₁, rfl⟩, hfresh₂.1.1, Vars.find_append_self _ _ _, rfl⟩
  obtain ⟨pairs, hperm, hsides⟩ :=
    hresults.joinSides hc₁ hc₂ hmarks₁ hmarks₂ hreads₁ hreads₂ hread₂ hjoin hfew
  refine ⟨withPairs ((vars.append x (newVariable false 0 true)).append y (newVariable false 0 true))
    x y (newVariable false 0 true) (newVariable false 0 true) pairs, pairs, ?_, hperm, ?_⟩
  · rw [joinCommand_eq, hnames, Outcome.ok_bind, joinInto, hv₁, Outcome.ok_bind, hload₁,
      Outcome.ok_bind, hv₂, Outcome.ok_bind, hload₂, Outcome.ok_bind, h.moves hroom₁,
      if_neg Bool.false_ne_true, hinit₁, Outcome.ok_bind]
    simp only
    rw [h₁.moves hroom₂, if_neg Bool.false_ne_true, hinit₂, Outcome.ok_bind]
    exact hsides
  · have hset₁ := h₂.set (m := .joined (pairs.map Prod.fst))
      (v := { newVariable false 0 true with ids := some (pairs.map Prod.fst) }) hfind₁
      ⟨rfl, rfl, rfl⟩
    have hset₂ := hset₁.set (x := y) (m := .joined (pairs.map Prod.snd))
      (v := { newVariable false 0 true with ids := some (pairs.map Prod.snd) })
      ((Vars.find_set_of_ne (Ne.symm hne) _).trans (Vars.find_append_self _ _ _)) ⟨rfl, rfl, rfl⟩
    rwa [Database.set_bind_bind hne] at hset₂

/-! ### Tuples -/

/-- A variable with its values in memory. -/
lemma stored (h : db.Holds d vars) {x : String} {vals : List ℤ} (hx : x ≠ "")
    (hvals : db.stored x = some vals) :
    ∃ v, ColumnDb.getVariable vars x = .ok v ∧ v.Stores vals := by
  rw [Database.stored] at hvals
  cases hm : db.vars x with
  | none =>
      rw [hm] at hvals
      cases hvals
  | some m =>
      rw [hm] at hvals
      obtain ⟨v, hv, -, hmean⟩ := h.getVariable hx hm
      cases m with
      | computed vals' =>
          cases hvals
          exact ⟨v, hv, hmean.2⟩
      | gathered col vals' =>
          cases hvals
          exact ⟨v, hv, hmean.2.1⟩
      | selected | fetched | joined | freed => cases hvals

/-- TUPLE of values in memory. -/
lemma tupleValues (h : db.Holds d vars) {names : List String} {cols : List (List ℤ)} {n : ℕ}
    (hne : names ≠ []) (hpos : 0 < n)
    (hcols : List.Forall₂ (fun x vals => x ≠ "" ∧ db.stored x = some vals ∧ vals.length = n)
      names cols) : tupleWork d vars names = .ok cols.flatten := by
  have hall : names.mapM (ColumnDb.tupleValues vars n) = .ok cols := by
    refine Outcome.mapM_eq_ok.mpr (hcols.imp fun x vals hx => ?_)
    obtain ⟨hname, hvals, hlen⟩ := hx
    obtain ⟨v, hv, hstores⟩ := h.stored hname hvals
    have hnull : v.val ≠ .null := by
      intro hnull
      rw [hstores.val] at hnull
      cases hnull
    rw [ColumnDb.tupleValues, hv, Outcome.ok_bind,
      if_pos ⟨hstores.size.trans hlen, hnull⟩, hstores.val,
      ValArray.readFirst, slice_of_le (by omega), List.drop_zero, ← hlen, List.take_length]
  obtain ⟨first, rest, rfl⟩ := List.exists_cons_of_ne_nil hne
  cases hcols with
  | @cons _ vals _ cols hfirst hrest =>
      obtain ⟨hname, hvals, hlen⟩ := hfirst
      obtain ⟨v, hv, hstores⟩ := h.stored hname hvals
      have hsize : v.valSize = n := hstores.size.trans hlen
      have hflat : (vals :: cols).flatten ≠ [] := by
        rw [List.flatten_cons]
        exact List.append_ne_nil_of_left_ne_nil (List.ne_nil_of_length_pos (hlen ▸ hpos)) _
      have hhelper : tupleHelper d vars (first :: rest) = .ok (vals :: cols).flatten := by
        rw [tupleHelper, hv, Outcome.ok_bind, if_pos hstores.materialized, hsize, if_pos hpos, hall,
          Outcome.ok_bind]
      rw [tupleWork, hhelper, Outcome.ok_bind, if_neg hflat]

/-- A variable that is read from a column of `n` rows. -/
lemma readRows (h : db.Holds d vars) {n : ℕ} {x : String} {vals : List ℤ} (hx : x ≠ "")
    (hvals : db.readRows n x = some vals) :
    ∃ v c, ColumnDb.getVariable vars x = .ok v ∧ v.isFetched = true ∧ loadCol d v = .ok c ∧
      c.data.m.size = n ∧ (n = 0 → vals = []) ∧
      ∀ result, tupleColumn d vars n result x = appendAll result vals := by
  rw [Database.readRows] at hvals
  cases hm : db.vars x with
  | none =>
      rw [hm] at hvals
      cases hvals
  | some m =>
      rw [hm] at hvals
      obtain ⟨v, hv, hfind, hmean⟩ := h.getVariable hx hm
      cases m with
      | fetched col s isRead =>
          simp only at hvals
          split_ifs at hvals with hsize
          obtain ⟨a, ha, hlen⟩ := Option.map_eq_some_iff.mp hsize
          obtain ⟨-, hfetched, -, hmarks, hname, hcol⟩ := hmean
          obtain ⟨c, hopen, -, hc⟩ := h.openColumn hname ha
          have hload : loadCol d v = .ok c := by rw [loadCol, hcol]; exact hopen
          rw [Database.read, ha] at hvals
          simp only at hvals
          split_ifs at hvals with hreads
          cases hvals
          have hn : c.data.m.size = n := hc.size.trans hlen
          refine ⟨v, c, hv, hfetched, hload, hn, fun hzero => ?_, fun result => ?_⟩
          · rw [valuesAt, List.length_eq_zero_iff.mp (hlen.trans hzero)]
            exact List.filterMap_eq_nil_iff.mpr fun _ _ => rfl
          have hfound : findVariable vars x = .ok (some v) := by
            rw [findVariable, if_neg hx, hfind]
          have htuple := hmarks.tuple (f := c.data) (hc.size ▸ hreads)
          rw [hc.stored] at htuple
          have hword := hreads.2.trans hmarks.word
          rw [← hc.size] at hword
          rw [← hn, tupleColumn_eq hfound hfetched hload hword, hc.stored, htuple]
      | selected | computed | joined | gathered | freed => cases hvals

/-- TUPLE of variables that are read from their columns. -/
lemma tupleRows (h : db.Holds d vars) {first : String} {names : List String}
    {cols : List (List ℤ)} {n : ℕ} {col : String} {s : Selection}
    (hfirst : db.vars first = some (.fetched col s false))
    (hcols : List.Forall₂ (fun x vals => x ≠ "" ∧ db.readRows n x = some vals)
      (first :: names) cols) (hne : cols.flatten ≠ []) (hfew : cols.flatten.length ≤ 2 ^ 29) :
    tupleWork d vars (first :: names) = .ok cols.flatten := by
  have hfold : ∀ (names : List String) (cols : List (List ℤ)) (result : DynList ℤ),
      List.Forall₂ (fun x vals => x ≠ "" ∧ db.readRows n x = some vals) names cols →
      names.foldlM (tupleColumn d vars n) result = appendAll result cols.flatten := by
    intro names cols result hcols
    induction hcols generalizing result with
    | nil => rfl
    | cons hx _ ih =>
        obtain ⟨v, c, -, -, -, -, -, hcolumn⟩ := h.readRows hx.1 hx.2
        rw [List.foldlM_cons, hcolumn, List.flatten_cons, appendAll_append]
        exact congrArg _ (funext ih)
  obtain ⟨l, hl, hvals⟩ := appendAll_four hfew
  have hall := (hfold _ _ (createList ℤ 4) hcols).trans hl
  obtain ⟨vals, hx⟩ : ∃ vals, first ≠ "" ∧ db.readRows n first = some vals := by
    cases hcols with
    | cons hx _ => exact ⟨_, hx⟩
  obtain ⟨v, c, hv, hfetched, hload, hsize, -, -⟩ := h.readRows hx.1 hx.2
  obtain ⟨v', hv', -, hmean⟩ := h.getVariable hx.1 hfirst
  cases hv.symm.trans hv'
  have hpos : 0 < c.data.m.size := by
    -- no column without rows has a value to answer
    refine Nat.pos_of_ne_zero fun hzero => hne (List.flatten_eq_nil_iff.mpr fun vals hvals => ?_)
    obtain ⟨i, hi, rfl⟩ := List.getElem_of_mem hvals
    have hi' := hi
    rw [← hcols.length_eq] at hi'
    have hget := hcols.get hi' hi
    obtain ⟨v', c', -, -, -, -, hnil, -⟩ := h.readRows hget.1 hget.2
    exact hnil (hsize ▸ hzero)
  rw [tupleWork, tupleHelper, hv, Outcome.ok_bind, hmean.2.2.1, if_neg Bool.false_ne_true,
    if_pos hfetched, hload, Outcome.ok_bind, if_pos hpos, hsize, hall, Outcome.ok_bind, hvals,
    Outcome.ok_bind, if_neg hne]

/-! ### Steps and runs -/

/-- The dispatch on the joins. -/
lemma runCall_join {a₁ a₂ : Attribute} {s₁ s₂ : Selection} {isRead₂ : Bool} {args : InputArgs}
    (hjoin : Joinable a₁ s₁ a₂ s₂ isRead₂ args.command) (d : Disk) (vars : Vars) (hasVar : Bool) :
    runCall d vars hasVar args
      = joinCommand d vars args >>= fun vars' => .ok (d, vars', none) := by
  rw [runCall]
  cases hcommand : args.command with
  | hashjoin | loopjoin | sortjoin | treejoin => rfl
  | _ =>
      rw [hcommand] at hjoin
      exact hjoin.elim

/-- **One step**: where there is a rule for it, the worker performs it by a rule. -/
theorem step (h : db.Holds d vars) (n : Node) {q : SessionStep} {db₀ : Database}
    {reply₀ : Option (List ℤ)} (hq : Step db q db₀ reply₀) :
    ∃ d' vars' db' reply, q.run n d vars = .ok (d', vars', reply) ∧ Step db q db' reply ∧
      db'.Holds d' vars' := by
  have hrule := hq
  cases hq with
  | create hcommand hname hfile =>
      obtain ⟨d', hok, h'⟩ := h.create hname hfile
      refine ⟨d', vars, _, _, ?_, hrule, h'⟩
      rw [SessionStep.run, runCall, hcommand]
      simp only [hok, Outcome.ok_bind]
  | @announce hasVar args hcommand =>
      refine ⟨d, vars, _, _, ?_, hrule, h⟩
      rw [SessionStep.run, runCall]
      simp only [List.mem_cons, List.not_mem_nil, or_false] at hcommand
      rcases hcommand with hc | hc | hc | hc <;> rw [hc]
  | insert hinsert =>
      obtain ⟨d', hok, h'⟩ := h.insert _ hinsert
      refine ⟨d', vars, _, _, ?_, hrule, h'⟩
      rw [SessionStep.run, hok, Outcome.ok_bind]
  | load hne hnodup hcols hrows hcount =>
      obtain ⟨d', hok, h'⟩ := h.load n hne hnodup hcols hrows hcount
      refine ⟨d', vars, _, _, ?_, hrule, h'⟩
      rw [SessionStep.run, hok, Outcome.ok_bind]
  | update hcommand hm hvar hrows hname ha hin =>
      obtain ⟨d', hok, h'⟩ := h.update hm hvar hrows hname ha hin
      refine ⟨d', vars, _, _, ?_, hrule, h'⟩
      rw [SessionStep.run, runCall, hcommand]
      simp only [hok, Outcome.ok_bind]
  | select hcommand hfresh hname ha hs =>
      obtain ⟨vars', hok, h'⟩ := h.select hfresh hname ha hs
      refine ⟨d, vars', _, _, ?_, hrule, h'⟩
      rw [SessionStep.run, runCall, hcommand]
      simp only [hok, Outcome.ok_bind]
  | fetch hcommand hfresh hname ha hvar hnumber hm hm' =>
      obtain ⟨vars', hok, h'⟩ := h.fetch hfresh hname ha hvar hnumber hm hm'
      refine ⟨d, vars', _, _, ?_, hrule, h'⟩
      rw [SessionStep.run, runCall, hcommand]
      simp only [if_true, hok, Outcome.ok_bind]
  | reply hcommand hname ha hvar hnumber hm hrows hreads =>
      have hok := h.reply hname ha hvar hnumber hm hrows hreads
      refine ⟨d, vars, _, _, ?_, hrule, h⟩
      rw [SessionStep.run, runCall, hcommand]
      simp only [Bool.false_eq_true, if_false, hok, Outcome.ok_bind]
  | count hcommand hfresh hvar hm hn =>
      obtain ⟨vars', hok, h'⟩ := h.count hfresh hvar hm hn
      refine ⟨d, vars', _, _, ?_, hrule, h'⟩
      rw [SessionStep.run, runCall, hcommand]
      simp only [hok, Outcome.ok_bind]
  | aggregate hfresh hvar hm hvals hfits hx =>
      obtain ⟨op, isAvg, hcall, harray⟩ := Command.aggregate_runCall hfits hx
      obtain ⟨vars', hok, h'⟩ := h.aggregate hfresh hvar hm hvals harray
      refine ⟨d, vars', _, _, ?_, hrule, h'⟩
      rw [SessionStep.run, hcall, hok, Outcome.ok_bind]
  | math hmath hfresh hroom hvar₁ hm₁ hvar₂ hm₂ hxs hys hfetched hlen hne hfits hdiv =>
      obtain ⟨vars', hok, h'⟩ := h.math hmath hfresh hroom hvar₁ hm₁ hvar₂ hm₂ hxs hys hfetched
        hlen hne hfits hdiv
      refine ⟨d, vars', _, _, ?_, hrule, h'⟩
      rw [SessionStep.run, runCall_math hmath, hok, Outcome.ok_bind]
  | join hvar hcomma hlen hne hfresh₁ hfresh₂ hroom₁ hroom₂ hvar₁ hvar₂ hm₁ hm₂ ha₁ ha₂ hreads₁
      hreads₂ hjoin hfew _ =>
      -- the join has its own order of the pairs
      obtain ⟨vars', pairs, hok, hperm, h'⟩ := h.join hvar hcomma hlen hne hfresh₁ hfresh₂ hroom₁
        hroom₂ hvar₁ hvar₂ hm₁ hm₂ ha₁ ha₂ hreads₁ hreads₂ hjoin hfew
      refine ⟨d, vars', _, none, ?_, .join hvar hcomma hlen hne hfresh₁ hfresh₂ hroom₁ hroom₂ hvar₁
        hvar₂ hm₁ hm₂ ha₁ ha₂ hreads₁ hreads₂ hjoin hfew hperm, h'⟩
      rw [SessionStep.run, runCall_join hjoin, hok, Outcome.ok_bind]
  | tupleValues hne hpos hcols _ =>
      have hok := h.tupleValues hne hpos hcols
      refine ⟨d, vars, _, _, ?_, hrule, h⟩
      rw [SessionStep.run, hok, Outcome.ok_bind]
  | tupleRows hfirst hcols hne hfew =>
      have hok := h.tupleRows hfirst hcols hne hfew
      refine ⟨d, vars, _, _, ?_, hrule, h⟩
      rw [SessionStep.run, hok, Outcome.ok_bind]

end Database.Holds

end ColumnDb
