import ColumnDb.Store.Table

/-!
The variables of a session (`data_structures.h`, `helper_variable.c`, `list.c`).

A variable is bound by its name in the list of its session and is overloaded: it is a bit
vector, a list of row ids, an array of values, or several of these at once, as its flags say.

* `SessionVar`, `Vars`: `variable_t` and the list of a session. What the source leaves
  without a value has none here, and an array that was freed is not read again.
* `findVariable`, `initializeVariableTypes`: an existing name is returned as it is, whatever
  its flags are.
* `Vars.moves`: the list has no room for one more name. The pointers into it that the caller
  still holds dangle then.
-/

namespace ColumnDb

/-- `MAX_NAME_SIZE`. -/
def maxNameSize : ℕ := 16

/-- The array that `val` points to. -/
inductive ValArray where
  | null
  | live (vals : List ℤ)
  | freed
  deriving DecidableEq, Repr

namespace ValArray

/-- `val[i]`. -/
def read (a : ValArray) (i : ℕ) : Outcome ℤ :=
  match a with
  | live vals => fetch .bounds vals i
  | null | freed => .error .undefined

/-- The first `n` values, as `memcpy` reads them. -/
def readFirst (a : ValArray) (n : ℕ) : Outcome (List ℤ) :=
  match a with
  | live vals => slice vals 0 n
  | null | freed => .error .undefined

end ValArray

/-- `variable_t`. The list of ids and the name of the fetched column have no value before the
first assignment. -/
structure SessionVar where
  isId : Bool
  isFetched : Bool
  isMaterialized : Bool
  ids : Option (List ℕ)
  bv : BitVector
  fetchedCol : Option String
  valSize : ℕ
  val : ValArray
  deriving DecidableEq

/-- What a variable says about positions. -/
def SessionVar.toVariable (v : SessionVar) : Variable :=
  if v.isId then .ids (v.ids.getD []) else .bv v.bv

/-- The list `vars` of a session: the variables by their names, their number, and the room for
them. -/
structure Vars where
  find : String → Option SessionVar
  next : ℕ
  capacity : ℕ

namespace Vars

/-- `create_list`, with room for `(DEFAULT_DYN_ARR_SIZE + 1) << 1` variables. -/
def create : Vars where
  find := fun _ => none
  next := 0
  capacity := 8

/-- `append_list`: a full list moves to twice the room. -/
def append (vars : Vars) (name : String) (v : SessionVar) : Vars where
  find := Function.update vars.find name (some v)
  next := vars.next + 1
  capacity := if vars.next = vars.capacity then 2 * vars.capacity else vars.capacity

/-- Initializing `name` moves the list. -/
def moves (vars : Vars) (name : String) : Bool :=
  (vars.find name).isNone && vars.next == vars.capacity

/-- Writing the fields of the variable `name`. -/
def set (vars : Vars) (name : String) (v : SessionVar) : Vars :=
  { vars with find := Function.update vars.find name (some v) }

@[simp] lemma find_set_self (vars : Vars) (name : String) (v : SessionVar) :
    (vars.set name v).find name = some v := Function.update_self _ _ _

lemma find_set_of_ne {vars : Vars} {name name' : String} (h : name' ≠ name) (v : SessionVar) :
    (vars.set name v).find name' = vars.find name' := Function.update_of_ne h _ _

@[simp] lemma find_append_self (vars : Vars) (name : String) (v : SessionVar) :
    (vars.append name v).find name = some v := Function.update_self _ _ _

lemma find_append_of_ne {vars : Vars} {name name' : String} (h : name' ≠ name)
    (v : SessionVar) : (vars.append name v).find name' = vars.find name' :=
  Function.update_of_ne h _ _

end Vars

/-- `find_variable`; `none` is `NULL`. -/
def findVariable (vars : Vars) (name : String) : Outcome (Option SessionVar) :=
  if name = "" then .error .assertion else .ok (vars.find name)

/-- The variable that `find_variable` finds: the callers use the pointer without a check. -/
def getVariable (vars : Vars) (name : String) : Outcome SessionVar := do
  match ← findVariable vars name with
  | some v => .ok v
  | none => .error .undefined

/-- A variable before its first assignment. -/
def newVariable (isMaterialized : Bool) (size : ℕ) (isId : Bool) : SessionVar where
  isId := isId
  isFetched := false
  isMaterialized := isMaterialized
  ids := if isId then some [] else none
  bv := createBv size
  fetchedCol := none
  valSize := 0
  val := .null

/-- `_initialize_variable_types`: a variable of that name is returned as it is. -/
def initializeVariableTypes (vars : Vars) (name : String) (isMaterialized : Bool) (size : ℕ)
    (isId : Bool) : Outcome (Vars × SessionVar) := do
  match ← findVariable vars name with
  | some v => .ok (vars, v)
  | none =>
      if maxNameSize ≤ name.length then .error .bounds
      else
        let v := newVariable isMaterialized size isId
        .ok (vars.append name v, v)

/-- `initialize_variable`. -/
def initializeVariable (vars : Vars) (name : String) (size : ℕ) : Outcome (Vars × SessionVar) :=
  initializeVariableTypes vars name false size false

/-- `initialize_variable_materialized`. -/
def initializeVariableMaterialized (vars : Vars) (name : String) : Outcome (Vars × SessionVar) :=
  initializeVariableTypes vars name true 0 false

/-- `initialize_rowid_variable`. -/
def initializeRowidVariable (vars : Vars) (name : String) : Outcome (Vars × SessionVar) :=
  initializeVariableTypes vars name false 0 true

lemma getVariable_eq_ok {vars : Vars} {name : String} {v : SessionVar} :
    getVariable vars name = .ok v ↔ name ≠ "" ∧ vars.find name = some v := by
  rw [getVariable, findVariable]
  by_cases hname : name = ""
  · simp [hname]
  · rw [if_neg hname, Outcome.ok_bind]
    cases vars.find name <;> simp [hname]

/-- **Initializing a variable** binds its name and no other: to the variable it already had,
or to a new one. -/
theorem initializeVariableTypes_ok {vars vars' : Vars} {name : String} {isMaterialized : Bool}
    {size : ℕ} {isId : Bool} {v : SessionVar}
    (h : initializeVariableTypes vars name isMaterialized size isId = .ok (vars', v)) :
    name ≠ "" ∧ vars'.find name = some v ∧ (∀ x, x ≠ name → vars'.find x = vars.find x) ∧
      (vars.find name = some v ∨
        vars.find name = none ∧ v = newVariable isMaterialized size isId) := by
  rw [initializeVariableTypes, findVariable] at h
  by_cases hname : name = ""
  · rw [if_pos hname] at h
    cases h
  · rw [if_neg hname, Outcome.ok_bind] at h
    cases hfind : vars.find name with
    | some v₀ =>
        rw [hfind] at h
        cases h
        exact ⟨hname, hfind, fun _ _ => rfl, Or.inl rfl⟩
    | none =>
        simp only [hfind] at h
        split_ifs at h
        cases h
        exact ⟨hname, Vars.find_append_self _ _ _, fun _ hx => Vars.find_append_of_ne hx _,
          Or.inr ⟨rfl, rfl⟩⟩

end ColumnDb
