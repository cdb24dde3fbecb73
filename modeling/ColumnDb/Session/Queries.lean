import ColumnDb.Library.Rules
import ColumnDb.Session.Elementwise

/-!
What the steps of a session ask for, in terms of columns, rows and values.

A database has columns, which are lists of values, and variables, each of which stands for a
selection of rows, a column read through a selection, or a list of values or of row numbers. The
steps of a session are rules on these, and know nothing of files, bit vectors, blocks or trees.

* `Meaning`: what a variable stands for.
* `Database.Step`: the rules. A join has the pairs of the rows with equal values, in any order. What
  a rule needs is said in it: a result has a new name, what is read through a selection has not
  grown past it, an array that an aggregate has freed is not used again, a list has room for the
  pairs of a join and the values of a tuple, and no column has the name of the file of a tree.
* `Databases`: the databases of several sessions on the same columns.
-/

namespace ColumnDb

/-! ### Columns and selections -/

/-- A column: its type, and its values in the order of the rows. -/
structure Attribute where
  type : StorageType
  vals : List ℤ

/-- The values in the given rows. -/
def valuesAt (rows : List ℕ) (vals : List ℤ) : List ℤ := rows.filterMap fun i => vals[i]?

/-- The rows that were selected in a column of `size` rows. A column of up to `limit` rows can be
read through the selection. -/
structure Selection where
  size : ℕ
  limit : ℕ
  rows : List ℕ

namespace Selection

/-- A column of `n` rows has the rows of the selection, and not more than can be read. -/
def Reads (s : Selection) (n : ℕ) : Prop := (∀ i ∈ s.rows, i < n) ∧ n ≤ s.limit

instance (s : Selection) (n : ℕ) : Decidable (s.Reads n) :=
  inferInstanceAs (Decidable (_ ∧ _))

/-- The selection as a variable of a column of `n` rows keeps it: it reaches to the last word of the
column, unless the whole of a column was selected. -/
def copied (s : Selection) (n : ℕ) : Selection :=
  { s with limit := if 32 * getCeil s.size 32 ≤ s.limit then 32 * getCeil n 32 else s.limit }

end Selection

namespace Attribute

/-- The rows with a value in the range. -/
def inRange (a : Attribute) (low high : ℤ) : List ℕ :=
  (List.range a.vals.length).filter fun i => ∃ v ∈ a.vals[i]?, low ≤ v ∧ v ≤ high

/-- The selection of a SELECT: the whole column, or the rows with a value or a range of values, of
which there has to be one. -/
def select (a : Attribute) (args : InputArgs) : Option Selection :=
  if args.argTwo = "" then
    some ⟨a.vals.length, a.vals.length, List.range a.vals.length⟩
  else
    let low := intArg args.argTwo
    let high := if args.argThree = "" then low else intArg args.argThree
    let rows := a.inRange low high
    if a.type = .sorted ∨ rows = [] then none
    else some ⟨a.vals.length, 32 * getCeil a.vals.length 32, rows⟩

/-- A value can be inserted: into an UNSORTED column, up to the number of rows that an `int` counts,
and into a BPTREE column a new one of the first `8128`. -/
def Takes (a : Attribute) (v : ℤ) : Prop :=
  a.type = .unsorted ∧ a.vals.length + 1 < 2 ^ 31 ∨
    a.type = .bptree ∧ v ∉ a.vals ∧ a.vals.length < 8128

instance (a : Attribute) (v : ℤ) : Decidable (a.Takes v) := inferInstanceAs (Decidable (_ ∨ _))

/-- Two selected rows with equal values. -/
def equalRows (a₁ : Attribute) (s₁ : Selection) (a₂ : Attribute) (s₂ : Selection) :
    List (ℕ × ℕ) :=
  (s₁.rows.product s₂.rows).filter fun p => a₁.vals.getD p.1 0 = a₂.vals.getD p.2 0

end Attribute

/-! ### Variables -/

/-- What a variable stands for: selected rows; a column that is read through a selection, with its
values in memory already or not; computed values; the row numbers of a join; the values of a column
in these rows; or an array that was freed. -/
inductive Meaning where
  | selected (s : Selection)
  | fetched (col : String) (s : Selection) (isRead : Bool)
  | computed (vals : List ℤ)
  | joined (ids : List ℕ)
  | gathered (col : String) (vals : List ℤ)
  | freed

namespace Meaning

/-- The rows that a variable names. -/
def rows : Meaning → Option (List ℕ)
  | selected s | fetched _ s _ => some s.rows
  | joined ids => some ids
  | computed _ | gathered _ _ | freed => none

/-- The variable can be used to read a column of `n` rows. -/
def Reads (m : Meaning) (n : ℕ) : Prop :=
  match m with
  | selected s | fetched _ s _ => s.Reads n
  | joined ids => ∀ i ∈ ids, i < n
  | computed _ | gathered _ _ | freed => False

/-- What a FETCH of the column `a` through the variable binds. -/
def fetch (col : String) (a : Attribute) : Meaning → Option Meaning
  | selected s | fetched _ s _ =>
      if getCeil s.size 32 ≤ getCeil a.vals.length 32 then
        some (fetched col (s.copied a.vals.length) false)
      else none
  | joined ids =>
      if ∀ i ∈ ids, i < a.vals.length then some (gathered col (valuesAt ids a.vals)) else none
  | computed _ | gathered _ _ | freed => none

/-- The number that COUNT finds. -/
def count : Meaning → Option ℕ
  | fetched _ s _ => some s.rows.length
  | computed vals => some vals.length
  | selected _ | joined _ | gathered _ _ | freed => none

/-- An operand of a math command has its values in memory. -/
def afterMath : Meaning → Meaning
  | fetched col s _ => fetched col s true
  | m => m

/-- An aggregate frees the values of a variable that has them in memory. -/
def afterAggregate : Meaning → Meaning
  | gathered _ _ => freed
  | m => m

/-- The variable is read from its column. -/
def isFetched : Meaning → Bool
  | fetched _ _ _ => true
  | _ => false

end Meaning

/-- The value of an aggregate; the sum is an `int`, and divided as a `uint32_t`. -/
def Command.aggregate (c : Command) (vals : List ℤ) : Option ℤ :=
  match c with
  | .max => vals.max?
  | .min => vals.min?
  | .sum => if vals = [] then none else some (toInt32 vals.sum)
  | .avg => if vals = [] then none else some (toInt32 (toInt32 vals.sum % 2 ^ 32 / vals.length))
  | _ => none

/-! ### Databases -/

/-- The variables of a session, and the number of the names that were bound so far. -/
structure Names where
  vars : String → Option Meaning
  used : ℕ

/-- A database, as one session has it. -/
structure Database extends Names where
  cols : String → Option Attribute

/-- A name of a column or a variable. -/
def IsName (x : String) : Prop := x ≠ "" ∧ x.length < maxNameSize

instance (x : String) : Decidable (IsName x) := inferInstanceAs (Decidable (_ ∧ _))

/-- One more name does not move the list of `n` names. -/
def Roomy (n : ℕ) : Prop := ∀ k, n ≠ 8 * 2 ^ k

namespace Database

/-- No columns and no variables. -/
def empty : Database where
  cols := fun _ => none
  vars := fun _ => none
  used := 0

/-- Binding a new name. -/
def bind (db : Database) (x : String) (m : Meaning) : Database :=
  { db with vars := Function.update db.vars x (some m), used := db.used + 1 }

/-- Changing a variable. -/
def set (db : Database) (x : String) (m : Meaning) : Database :=
  { db with vars := Function.update db.vars x (some m) }

/-- Changing a column. -/
def setCol (db : Database) (name : String) (a : Attribute) : Database :=
  { db with cols := Function.update db.cols name (some a) }

/-- A name for a result. -/
def Fresh (db : Database) (x : String) : Prop := IsName x ∧ db.vars x = none

/-- A column can be created: its file is not the one that has the tree of a column, and the file of
its own tree is not that of a column. -/
def Creatable (db : Database) (name : String) (type : StorageType) : Prop :=
  (type = .bptree → db.cols (nodesName name) = none) ∧
    ∀ other a, db.cols other = some a → a.type = .bptree → nodesName other ≠ name

/-- The values of a column in the rows of a selection. -/
def read (db : Database) (col : String) (s : Selection) : Option (List ℤ) :=
  match db.cols col with
  | some a => if s.Reads a.vals.length then some (valuesAt s.rows a.vals) else none
  | none => none

/-- The values of an operand of a math command. -/
def operand (db : Database) : Meaning → Option (List ℤ)
  | .fetched col s _ => db.read col s
  | .computed vals => some vals
  | .selected _ | .joined _ | .gathered _ _ | .freed => none

/-- The values of an aggregate, which opens the column of its variable. -/
def aggregated (db : Database) : Meaning → Option (List ℤ)
  | .fetched col s isRead => if isRead then none else db.read col s
  | .gathered col vals => (db.cols col).map fun _ => vals
  | .selected _ | .computed _ | .joined _ | .freed => none

/-- The values in the memory of a variable. -/
def stored (db : Database) (x : String) : Option (List ℤ) :=
  match db.vars x with
  | some (.computed vals) | some (.gathered _ vals) => some vals
  | _ => none

/-- The values of a variable that is read from a column of `n` rows. -/
def readRows (db : Database) (n : ℕ) (x : String) : Option (List ℤ) :=
  match db.vars x with
  | some (.fetched col s _) =>
      if (db.cols col).map (fun a => a.vals.length) = some n then db.read col s else none
  | _ => none

/-- One value of an INSERT. -/
def insertValue (db : Database) (x : String × ℤ) : Option Database :=
  match db.cols x.1 with
  | some a => if a.Takes x.2 then some (db.setCol x.1 { a with vals := a.vals ++ [x.2] }) else none
  | none => none

/-- The columns after a LOAD. -/
def load (db : Database) (names : List String) (rows : List (List ℤ)) : Database :=
  { db with
    cols := fun name =>
      if name ∈ names then some ⟨.unsorted, rows.map fun row => row.getD (names.idxOf name) 0⟩
      else db.cols name }

/-- The selected values of a column can be sorted by their differences. -/
def Sortable (a : Attribute) (s : Selection) : Prop :=
  a.type = .unsorted ∧ s.rows.length < 2 ^ 31 ∧
    ∀ x ∈ valuesAt s.rows a.vals, ∀ y ∈ valuesAt s.rows a.vals, y - x < 2 ^ 31

/-- The tree of a column can be searched for the selected rows. -/
def Searchable (a : Attribute) (s : Selection) : Prop :=
  a.type = .bptree ∧ a.vals ≠ [] ∧ s.size = a.vals.length

/-- The sides of a join suit its method. A `sortjoin` sorts both, and the least value on the right
may not occur on the left. A `treejoin` searches the tree of one column for the values of the other,
which are in memory when the tree is on the left. -/
def Joinable (a₁ : Attribute) (s₁ : Selection) (a₂ : Attribute) (s₂ : Selection) (isRead₂ : Bool) :
    Command → Prop
  | .loopjoin | .hashjoin => True
  | .sortjoin =>
      Sortable a₁ s₁ ∧ Sortable a₂ s₂ ∧
        ∀ y ∈ (valuesAt s₂.rows a₂.vals).min?, y ∉ valuesAt s₁.rows a₁.vals
  | .treejoin =>
      Searchable a₁ s₁ ∧ a₂.type ≠ .bptree ∧ isRead₂ = true ∧ s₂.rows ≠ [] ∨
        Searchable a₂ s₂ ∧ a₁.type ≠ .bptree ∧ s₁.rows ≠ []
  | _ => False

/-! ### The rules -/

/-- **The rules**: what a step does to a database, and what it answers. -/
inductive Step (db : Database) : SessionStep → Database → Option (List ℤ) → Prop where
  | create {hasVar : Bool} {args : InputArgs} (hcommand : args.command = .create)
      (hname : args.argOne ≠ "") (hfile : db.Creatable args.argOne (storageTypeArg args.argTwo)) :
      Step db (.call hasVar args) (db.setCol args.argOne ⟨storageTypeArg args.argTwo, []⟩) none
  | announce {hasVar : Bool} {args : InputArgs}
      (hcommand : args.command ∈ [.load, .tuple, .insert, .delete]) :
      Step db (.call hasVar args) db none
  | insert {vals : List (String × ℤ)} {db' : Database}
      (hinsert : vals.foldlM insertValue db = some db') : Step db (.insert vals) db' none
  | load {names : List String} {rows : List (List ℤ)} (hne : names ≠ []) (hnodup : names.Nodup)
      (hcols : ∀ name ∈ names, ∃ vals, db.cols name = some ⟨.unsorted, vals⟩ ∧
        vals.length ≤ rows.length)
      (hrows : ∀ row ∈ rows, row.length = names.length) (hcount : rows.length < 2 ^ 31) :
      Step db (.load names rows) (db.load names rows) none
  | update {hasVar : Bool} {args : InputArgs} {m : Meaning} {rows : List ℕ} {vals : List ℤ}
      (hcommand : args.command = .update) (hm : db.vars args.argOne = some m)
      (hvar : args.argOne ≠ "") (hrows : m.rows = some rows) (hname : IsName args.argTwo)
      (ha : db.cols args.argTwo = some ⟨.unsorted, vals⟩) (hin : ∀ i ∈ rows, i < vals.length) :
      Step db (.call hasVar args)
        (db.setCol args.argTwo
          ⟨.unsorted, rows.foldl (fun vals i => vals.set i (intArg args.argThree)) vals⟩) none
  | select {args : InputArgs} {a : Attribute} {s : Selection} (hcommand : args.command = .select)
      (hfresh : db.Fresh args.var) (hname : IsName args.argOne)
      (ha : db.cols args.argOne = some a) (hs : a.select args = some s) :
      Step db (.call true args) (db.bind args.var (.selected s)) none
  | fetch {args : InputArgs} {a : Attribute} {m m' : Meaning} (hcommand : args.command = .fetch)
      (hfresh : db.Fresh args.var) (hname : IsName args.argOne)
      (ha : db.cols args.argOne = some a) (hvar : args.argTwo ≠ "")
      (hnumber : (strtol args.argTwo).2 = false) (hm : db.vars args.argTwo = some m)
      (hm' : m.fetch args.argOne a = some m') :
      Step db (.call true args) (db.bind args.var m') none
  | reply {args : InputArgs} {a : Attribute} {m : Meaning} {rows : List ℕ}
      (hcommand : args.command = .fetch) (hname : IsName args.argOne)
      (ha : db.cols args.argOne = some a) (hvar : args.argTwo ≠ "")
      (hnumber : (strtol args.argTwo).2 = false) (hm : db.vars args.argTwo = some m)
      (hrows : m.rows = some rows) (hreads : m.Reads a.vals.length) :
      Step db (.call false args) db (some (valuesAt rows a.vals))
  | count {args : InputArgs} {m : Meaning} {n : ℕ} (hcommand : args.command = .count)
      (hfresh : db.Fresh args.var) (hvar : args.argOne ≠ "") (hm : db.vars args.argOne = some m)
      (hn : m.count = some n) :
      Step db (.call true args) (db.bind args.var (.computed [toInt32 n])) none
  | aggregate {args : InputArgs} {m : Meaning} {vals : List ℤ} {x : ℤ}
      (hfresh : db.Fresh args.var) (hvar : args.argOne ≠ "") (hm : db.vars args.argOne = some m)
      (hvals : db.aggregated m = some vals) (hfits : FitsInt vals)
      (hx : args.command.aggregate vals = some x) :
      Step db (.call true args)
        ((db.set args.argOne m.afterAggregate).bind args.var (.computed [x])) none
  | math {args : InputArgs} {m₁ m₂ : Meaning} {xs ys : List ℤ}
      (hmath : args.command.isMath = true) (hfresh : db.Fresh args.var) (hroom : Roomy db.used)
      (hvar₁ : args.argOne ≠ "") (hm₁ : db.vars args.argOne = some m₁)
      (hvar₂ : args.argTwo ≠ "") (hm₂ : db.vars args.argTwo = some m₂)
      (hxs : db.operand m₁ = some xs) (hys : db.operand m₂ = some ys)
      (hfetched : m₁.isFetched = true ∨ m₂.isFetched = true) (hlen : xs.length = ys.length)
      (hne : xs ≠ []) (hfits : FitsInt xs)
      (hdiv : args.command = .div → ∀ i : ℕ, xs[i]? = some (-2 ^ 31) → ys[i]? ≠ some (-1)) :
      Step db (.call true args)
        (((db.set args.argOne m₁.afterMath).set args.argTwo m₂.afterMath).bind args.var
          (.computed (List.zipWith args.command.elementwise xs ys))) none
  | join {hasVar : Bool} {args : InputArgs} {x y col₁ col₂ : String} {s₁ s₂ : Selection}
      {isRead₁ isRead₂ : Bool} {a₁ a₂ : Attribute} {pairs : List (ℕ × ℕ)}
      (hvar : args.var = x ++ "," ++ y) (hcomma : ',' ∉ x.toList) (hlen : x.length = y.length)
      (hne : x ≠ y) (hfresh₁ : db.Fresh x) (hfresh₂ : db.Fresh y) (hroom₁ : Roomy db.used)
      (hroom₂ : Roomy (db.used + 1)) (hvar₁ : args.argOne ≠ "") (hvar₂ : args.argTwo ≠ "")
      (hm₁ : db.vars args.argOne = some (.fetched col₁ s₁ isRead₁))
      (hm₂ : db.vars args.argTwo = some (.fetched col₂ s₂ isRead₂))
      (ha₁ : db.cols col₁ = some a₁) (ha₂ : db.cols col₂ = some a₂)
      (hreads₁ : s₁.Reads a₁.vals.length) (hreads₂ : s₂.Reads a₂.vals.length)
      (hjoin : Joinable a₁ s₁ a₂ s₂ isRead₂ args.command)
      (hfew : (a₁.equalRows s₁ a₂ s₂).length ≤ 2 ^ 29)
      (hpairs : pairs.Perm (a₁.equalRows s₁ a₂ s₂)) :
      Step db (.call hasVar args)
        ((db.bind x (.joined (pairs.map Prod.fst))).bind y (.joined (pairs.map Prod.snd))) none
  | tupleValues {names : List String} {cols : List (List ℤ)} {n : ℕ} (hne : names ≠ [])
      (hpos : 0 < n)
      (hcols : List.Forall₂ (fun x vals => x ≠ "" ∧ db.stored x = some vals ∧ vals.length = n)
        names cols) (hfew : cols.flatten.length ≤ 2 ^ 29) :
      Step db (.tuple names) db (some cols.flatten)
  | tupleRows {first : String} {names : List String} {cols : List (List ℤ)} {n : ℕ}
      {col : String} {s : Selection} (hfirst : db.vars first = some (.fetched col s false))
      (hcols : List.Forall₂ (fun x vals => x ≠ "" ∧ db.readRows n x = some vals)
        (first :: names) cols)
      (hne : cols.flatten ≠ []) (hfew : cols.flatten.length ≤ 2 ^ 29) :
      Step db (.tuple (first :: names)) db (some cols.flatten)

end Database

namespace Databases

/-- The rules for a session, with the columns apart from its names. -/
def Step (s : (String → Option Attribute) × Names) (q : SessionStep)
    (s' : (String → Option Attribute) × Names) (reply : Option (List ℤ)) : Prop :=
  Database.Step ⟨s.2, s.1⟩ q ⟨s'.2, s'.1⟩ reply

end Databases

end ColumnDb
