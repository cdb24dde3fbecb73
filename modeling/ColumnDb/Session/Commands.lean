import ColumnDb.Join.Hash
import ColumnDb.Join.Sort
import ColumnDb.Join.Tree
import ColumnDb.Select.Marking
import ColumnDb.Session.Reading

/-!
The commands of a session (`worker.c`, `config.h`).

A command is the text that `match_regex` has cut into a variable, one of the alternatives of
`PASER_STR`, and three arguments. This file has what each command does to the columns and to
the variables; the commands that only announce a payload (`load`, `tuple`, `insert`,
`delete`) are in the worker, and their payloads are steps of their own here.

* `runCall`: the branches of `db_worker` for a matched command.
* `SessionStep`: a command or a payload, with what it does to the columns and the variables.
-/

namespace ColumnDb

/-! ### The text of a command -/

/-- The alternatives for the command in `PASER_STR`. -/
inductive Command where
  | max
  | min
  | avg
  | sum
  | count
  | sub
  | add
  | div
  | mul
  | hashjoin
  | loopjoin
  | sortjoin
  | treejoin
  | select
  | fetch
  | create
  | load
  | insert
  | delete
  | update
  | tuple
  deriving DecidableEq, Repr

/-- `input_args`: what `match_regex` copies out of a command. -/
structure InputArgs where
  var : String
  command : Command
  argOne : String
  argTwo : String
  argThree : String
  deriving DecidableEq, Repr

/-- `isspace`. -/
def isSpace (c : Char) : Bool := c.toNat = 32 ∨ 9 ≤ c.toNat ∧ c.toNat ≤ 13

/-- The sign that `strtol` accepts. -/
def strtolSign : List Char → ℤ × List Char
  | '-' :: cs => (-1, cs)
  | '+' :: cs => (1, cs)
  | cs => (1, cs)

/-- `strtol` with base 10: the value, clamped to a `long`, and whether a digit was read. -/
def strtol (s : String) : ℤ × Bool :=
  let (sign, cs) := strtolSign (s.toList.dropWhile isSpace)
  let digits := cs.takeWhile Char.isDigit
  let n : ℤ := digits.foldl (fun n c => n * 10 + (c.toNat - 48)) 0
  (Max.max (-2 ^ 63) (Min.min (2 ^ 63 - 1) (sign * n)), !digits.isEmpty)

/-- `strtol` converted to an `int`. -/
def intArg (s : String) : ℤ := toInt32 (strtol s).1

/-- `strtol` converted to a `uint32_t`. -/
def uintArg (s : String) : ℕ := ((strtol s).1 % 2 ^ 32).toNat

/-! ### Creating and selecting -/

/-- The storage type that a CREATE names, by its first letters. -/
def storageTypeArg (s : String) : StorageType :=
  if "sort".toList.isPrefixOf s.toList then .sorted
  else if "unsorted".toList.isPrefixOf s.toList then .unsorted
  else .bptree

/-- CREATE. -/
def createCommand (d : Disk) (args : InputArgs) : Outcome Disk :=
  if args.argOne = "" then .error .assertion
  else .ok (Function.update d args.argOne
    (some (Column.makeNew (storageTypeArg args.argTwo))))

/-- The marks of a SELECT with a range, by the type of the column. -/
def selectRange (c : Column) (bv : BitVector) (low high : ℤ) : Outcome (BitVector × ℕ) :=
  match c.data.m.type with
  | .unsorted => markMatchingBvForUnsorted c.data bv low high
  | .sorted => markMatchingBvForSorted c.data bv low high
  | .bptree =>
      match c.nodes with
      | some bptFp => findRecordInRangeType markBv low high bptFp bv
      | none => .error .undefined

/-- The bit vector of a SELECT: of the whole column without a value, and otherwise of a range,
in which a row has to be found. -/
def selectMarks (c : Column) (bv : BitVector) (args : InputArgs) : Outcome BitVector :=
  if args.argTwo = "" then .ok (markAllBv bv)
  else do
    let low := intArg args.argTwo
    let high := if args.argThree = "" then low else intArg args.argThree
    let (bv, result) ← selectRange c bv low high
    if result = 0 then .error .assertion else .ok bv

/-- SELECT. -/
def selectCommand (d : Disk) (vars : Vars) (hasVar : Bool) (args : InputArgs) : Outcome Vars :=
  if hasVar then do
    let c ← openColumn d args.argOne
    let (vars, newVar) ← initializeVariable vars args.var c.data.m.size
    let bv ← selectMarks c newVar.bv args
    .ok (vars.set args.var { newVar with bv := bv })
  else .error .assertion

/-! ### Fetching -/

/-- The values that the row ids or the bit vector of `oldVar` select in a column. -/
def fetchSelected (c : Column) (oldVar : SessionVar) : Outcome (List ℤ) :=
  if oldVar.isId then
    match oldVar.ids with
    | some ids => fetchMatchedFromRowid c.data ids
    | none => .error .undefined
  else fetchMatchedFromBv c.data oldVar.bv

/-- The variable that a FETCH through `oldVar` binds: row ids are materialised, a bit vector is
copied. -/
def fetchedVariable (c : Column) (colName : String) (newVar oldVar : SessionVar) :
    Outcome SessionVar :=
  if oldVar.isId then do
    let vals ← fetchSelected c oldVar
    .ok { newVar with
          isMaterialized := true, val := .live vals, valSize := vals.length
          isFetched := true, fetchedCol := some colName }
  else do
    let bv ← cpyBv newVar.bv oldVar.bv
    .ok { newVar with bv := bv, isFetched := true, fetchedCol := some colName }

/-- FETCH into a variable. With a number for the variable to read, only the name is bound. -/
def fetchIntoVariable (d : Disk) (vars : Vars) (args : InputArgs) : Outcome Vars := do
  let c ← openColumn d args.argOne
  if args.argTwo = "" then .error .assertion
  else
    let (vars, newVar) ← initializeVariable vars args.var c.data.m.size
    if (strtol args.argTwo).2 then .ok vars
    else
      let oldVar ← getVariable vars args.argTwo
      let newVar ← fetchedVariable c args.argOne newVar oldVar
      .ok (vars.set args.var newVar)

/-- FETCH without a variable: the values it sends. A single value is printed into a message
that was never allocated. -/
def fetchReply (d : Disk) (vars : Vars) (args : InputArgs) : Outcome (List ℤ) := do
  let c ← openColumn d args.argOne
  if args.argTwo = "" then .error .assertion
  else if (strtol args.argTwo).2 then .error .undefined
  else
    match ← findVariable vars args.argTwo with
    | some foundVar => fetchSelected c foundVar
    | none => .error .assertion

/-! ### Computing -/

/-- UPDATE. -/
def updateCommand (d : Disk) (vars : Vars) (args : InputArgs) : Outcome Disk := do
  let posVar ← getVariable vars args.argOne
  let pos ← getPosFromVar posVar.toVariable
  let _ ← openColumn d args.argTwo
  onColumn d args.argTwo fun c => updateHelper c pos (intArg args.argThree)

/-- The operand `name` of a math command, and its size. A fetched variable is read from its
column and keeps the values; another one must have values already, and gives no size. -/
def mathOperand (d : Disk) (vars : Vars) (name : String) : Outcome (Vars × Option ℕ) := do
  let v ← getVariable vars name
  if v.isFetched then do
    let c ← loadCol d v
    let m ← fetchMatchedFromBv c.data v.bv
    .ok (vars.set name { v with isMaterialized := true, val := .live m }, some v.bv.count)
  else if v.isMaterialized ∧ v.val ≠ .null ∧ 0 < v.valSize then .ok (vars, none)
  else .error .assertion

/-- Both operands of a math command, in the order of the source: both are found before the
first is read, and the size of the last fetched one counts. -/
def mathOperands (d : Disk) (vars : Vars) (args : InputArgs) : Outcome (Vars × Option ℕ) := do
  let _ ← findVariable vars args.argOne
  let _ ← findVariable vars args.argTwo
  let (vars, size1) ← mathOperand d vars args.argOne
  let (vars, size2) ← mathOperand d vars args.argTwo
  .ok (vars, size2.or size1)

/-- ADD, SUB, MUL and DIV. Without a fetched operand the size has no value, and a list that
moves leaves the pointers to the operands dangling. -/
def mathCommand (op : ℤ → ℤ → Outcome ℤ) (d : Disk) (vars : Vars) (hasVar : Bool)
    (args : InputArgs) : Outcome Vars :=
  if hasVar then do
    let (vars, size) ← mathOperands d vars args
    match size with
    | none => .error .undefined
    | some size =>
        if vars.moves args.var then .error .undefined
        else
          let v1 ← getVariable vars args.argOne
          let v2 ← getVariable vars args.argTwo
          let (vars, newVar) ← initializeVariableMaterialized vars args.var
          let vals ← mathOpOnVar op size v1.val v2.val
          .ok (vars.set args.var
            { newVar with isMaterialized := true, valSize := size, val := .live vals })
  else .error .assertion

/-- Binding one computed value. -/
def bindValue (vars : Vars) (name : String) (x : ℤ) : Outcome Vars := do
  let (vars, newVar) ← initializeVariableMaterialized vars name
  .ok (vars.set name { newVar with isMaterialized := true, valSize := 1, val := .live [x] })

/-- The number of values of a variable, as COUNT sees it. -/
def countOf (v : SessionVar) : ℕ :=
  if v.isFetched then v.bv.count else if v.isMaterialized then v.valSize else 0

/-- COUNT. -/
def countCommand (vars : Vars) (hasVar : Bool) (args : InputArgs) : Outcome Vars :=
  if hasVar then do
    let v ← getVariable vars args.argOne
    bindValue vars args.var (toInt32 (countOf v))
  else .error .assertion

/-- MIN, MAX, SUM and AVG. -/
def aggregateCommand (op : ℤ → ℤ → ℤ) (isAvg : Bool) (d : Disk) (vars : Vars) (hasVar : Bool)
    (args : InputArgs) : Outcome Vars :=
  if hasVar then do
    let v ← getVariable vars args.argOne
    let aggrResult ← aggregateVals d v op isAvg
    bindValue (vars.set args.argOne (freeAggregated v)) args.var aggrResult
  else .error .assertion

/-! ### Joining -/

/-- `compare_int`: the difference of two `int`s. -/
def compareInt (a b : ℤ) : ℤ := toInt32 (a - b)

/-- A turn of the loop that materialises a side of a join, with room for the count of the bit
vector. -/
def materializeTurn (bv : BitVector) (m : List (ℤ × ℕ)) (x : ℤ × ℕ) :
    Outcome (List (ℤ × ℕ)) := do
  if ← isMarked bv x.2 then
    if m.length < bv.count then .ok (m ++ [x]) else .error .bounds
  else .ok m

/-- The materialised side of a join, of fewer than `2 ^ 31` marked rows. -/
def materializeSide (f : DataFile) (bv : BitVector) : Outcome (List (ℤ × ℕ)) := do
  let m ← f.stored.zipIdx.foldlM (materializeTurn bv) []
  if m.length = bv.count then .ok m else .error .assertion

/-- The side that a `sortjoin` works on: an UNSORTED column is sorted. -/
def sortSide (c : Column) (m : List (ℤ × ℕ)) : List (ℤ × ℕ) :=
  if c.data.m.type = .unsorted then m.mergeSort fun x y => decide (compareInt x.1 y.1 ≤ 0) else m

/-- The two names in the variable of a join. The end of the second one is written at the length
of the first. -/
def joinNames (var : String) : Outcome (String × String) :=
  let first := var.toList.takeWhile (· ≠ ',')
  match var.toList.drop first.length with
  | [] => .error .undefined
  | _ :: second =>
      if maxNameSize ≤ first.length ∨ maxNameSize < second.length then .error .bounds
      else if second.length < first.length then .error .undefined
      else .ok (String.ofList first, String.ofList (second.take first.length))

/-- `append_list` on the ids of a variable, for each new id. The list has grown to its ids from
what `create_list` returns. -/
def appendIds (vars : Vars) (name : String) (new : List ℕ) : Outcome Vars := do
  let v ← getVariable vars name
  match v.ids with
  | some ids => do
      let l ← appendAll (createList ℕ 4) (ids ++ new)
      .ok (vars.set name { v with ids := some l.vals })
  | none => if new = [] then .ok vars else .error .undefined

/-- The ids of both result variables. Two results of one name share their list; `swap` says
that the second one is appended first. -/
def appendJoin (vars : Vars) (jv1 jv2 : String) (swap : Bool) (ids : JoinIds) : Outcome Vars :=
  if jv1 = jv2 then
    appendIds vars jv1 (ids.pairs.flatMap fun p => if swap then [p.2, p.1] else [p.1, p.2])
  else do
    let vars ← appendIds vars jv1 ids.jv1.vals
    appendIds vars jv2 ids.jv2.vals

/-- `jv1->ids = create_list(..)` in `loopjoin`. -/
def resetIds (vars : Vars) (name : String) : Outcome Vars := do
  let v ← getVariable vars name
  .ok (vars.set name { v with ids := some [] })

/-- `AVG_HASH_BUCKET_SIZE`. -/
def avgHashBucketSize : ℕ := 8

/-- The side of a `treejoin` for a variable whose column is `c`. -/
def treeSide (c : Column) (v : SessionVar) (m : List (ℤ × ℕ)) : TreeJoinSide where
  tree := if c.data.m.type = .bptree then c.nodes else none
  bv := v.bv
  isMaterialized := v.isMaterialized
  m := m

/-- The sides are materialised and joined. A tree on the second side of a `treejoin` is
materialised when the first side is a tree as well. -/
def joinSides (vars : Vars) (command : Command) (jv1 jv2 : String) (c1 c2 : Column)
    (v1 v2 : SessionVar) : Outcome Vars := do
  let m0 ← materializeSide c1.data v1.bv
  match command with
  | .loopjoin => do
      let m1 ← materializeSide c2.data v2.bv
      let vars ← resetIds vars jv1
      let vars ← resetIds vars jv2
      let ids ← loopJoin m0 m1
      appendJoin vars jv1 jv2 false ids
  | .sortjoin => do
      let m1 ← materializeSide c2.data v2.bv
      let ids ← sortJoin (sortSide c1 m0) (sortSide c2 m1)
      appendJoin vars jv1 jv2 false ids
  | .hashjoin => do
      let m1 ← materializeSide c2.data v2.bv
      let ids ← hashJoin avgHashBucketSize m0 m1
      appendJoin vars jv1 jv2 (decide (m1.length < m0.length)) ids
  | _ => do
      let m1 ←
        if c2.data.m.type = .bptree ∧ c1.data.m.type ≠ .bptree then .ok []
        else materializeSide c2.data v2.bv
      let ids ← treeJoin true (treeSide c1 v1 m0) (treeSide c2 v2 m1)
      appendJoin vars jv1 jv2 (decide (c1.data.m.type ≠ .bptree)) ids

/-- The joins. Both operands are found before the results are initialised, so a list that moves
leaves their pointers dangling, and that of the first result when the second one moves it. The
files stay open: `close_col_files` closes what is not open. -/
def joinCommand (d : Disk) (vars : Vars) (args : InputArgs) : Outcome Vars := do
  let (jv1, jv2) ← joinNames args.var
  let v1 ← getVariable vars args.argOne
  let c1 ← loadCol d v1
  let v2 ← getVariable vars args.argTwo
  let c2 ← loadCol d v2
  if vars.moves jv1 then .error .undefined
  else
    let (vars, _) ← initializeRowidVariable vars jv1
    if vars.moves jv2 then .error .undefined
    else
      let (vars, _) ← initializeRowidVariable vars jv2
      joinSides vars args.command jv1 jv2 c1 c2 v1 v2

/-! ### The dispatch -/

/-- What a matched command does to the columns and the variables, and the values it sends. The
commands that announce a payload do neither. -/
def runCall (d : Disk) (vars : Vars) (hasVar : Bool) (args : InputArgs) :
    Outcome (Disk × Vars × Option (List ℤ)) :=
  match args.command with
  | .create => do .ok (← createCommand d args, vars, none)
  | .select => do .ok (d, ← selectCommand d vars hasVar args, none)
  | .fetch =>
      if hasVar then do .ok (d, ← fetchIntoVariable d vars args, none)
      else do .ok (d, vars, some (← fetchReply d vars args))
  | .load | .tuple | .insert | .delete => .ok (d, vars, none)
  | .update => do .ok (← updateCommand d vars args, vars, none)
  | .add => do .ok (d, ← mathCommand (fun a b => .ok (fptrAdd a b)) d vars hasVar args, none)
  | .sub => do .ok (d, ← mathCommand (fun a b => .ok (fptrSub a b)) d vars hasVar args, none)
  | .div => do .ok (d, ← mathCommand fptrDiv d vars hasVar args, none)
  | .mul => do .ok (d, ← mathCommand (fun a b => .ok (fptrMul a b)) d vars hasVar args, none)
  | .count => do .ok (d, ← countCommand vars hasVar args, none)
  | .min => do .ok (d, ← aggregateCommand fptrMin false d vars hasVar args, none)
  | .max => do .ok (d, ← aggregateCommand fptrMax false d vars hasVar args, none)
  | .avg => do .ok (d, ← aggregateCommand fptrAdd true d vars hasVar args, none)
  | .sum => do .ok (d, ← aggregateCommand fptrAdd false d vars hasVar args, none)
  | .hashjoin | .loopjoin | .sortjoin | .treejoin => do
      .ok (d, ← joinCommand d vars args, none)

/-- What a worker does to the columns and the variables of its session: a matched command, or
the payload of a LOAD, TUPLE, INSERT or DELETE. -/
inductive SessionStep where
  | call (hasVar : Bool) (args : InputArgs)
  | load (colNames : List String) (intsBuffer : List (List ℤ))
  | tuple (names : List String)
  | insert (vals : List (String × ℤ))
  | delete (var : String) (colNames : List String)

namespace SessionStep

/-- The effect of a step, with the values it sends; `n` is the node that `malloc` returns in
`bulk_load`. -/
def run (n : Node) (d : Disk) (vars : Vars) :
    SessionStep → Outcome (Disk × Vars × Option (List ℤ))
  | call hasVar args => runCall d vars hasVar args
  | load colNames intsBuffer => do .ok (← loadHelper n d colNames intsBuffer, vars, none)
  | tuple names => do .ok (d, vars, some (← tupleWork d vars names))
  | insert vals => do .ok (← insertWork d vals, vars, none)
  | delete var colNames => do
      let pos ← getPosFromVar (← getVariable vars var).toVariable
      .ok (← deleteWork d colNames pos, vars, none)

end SessionStep

end ColumnDb
