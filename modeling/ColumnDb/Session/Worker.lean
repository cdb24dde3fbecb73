import ColumnDb.Library.Bytes
import ColumnDb.Session.Commands

/-!
The loop of a worker over the messages of a session (`worker.c`, `helper_socket.c`,
`parser.c`).

A peer sends frames: four bytes of length, `socket_meta_t`, and that many bytes. A worker reads
them in turns, a turn for the length and one for the payload, and a payload is a command or the
data that the command before it has announced. What the worker expects next is kept in local
variables of `db_worker` that live as long as the thread; the buffer, the variables and the
arguments of a session do not.

* `WorkerVars`: the local variables of `db_worker` that outlive a session.
* `Session`: the state of a session, with the bytes that the peer sends before it disconnects
  and the bytes that the worker has sent.
* `payloadTurn`: the payload of a frame. A text that `match_regex` rejects is answered by a
  message without a length, and the arguments of the command before it are dispatched again.
* `serve`: a session until the worker is done with it. It ends on every input, since two turns
  read at least the four bytes of a length.

Every `send` and `recv` succeeds as long as there is something to transfer. A peer that closes its
end before the answers are sent kills the server (`SIGPIPE`), or the worker exits: such sessions are
left out here, with everything that is said of the sessions after them.
-/

namespace ColumnDb

/-! ### Bytes -/

/-- `MAX_COMMAND_BUFFER_SIZE`, the size of the buffer of a session. -/
def maxCommandBufferSize : ℕ := 2 ^ 16

/-- `MAX_INPUT_BYTES`, the room for each argument. -/
def maxInputBytes : ℕ := 32

/-- The bytes of an array of `int`s. -/
def bytesOfInts (vals : List ℤ) : List UInt8 :=
  vals.flatMap fun v => bytesOfWord (v % 2 ^ 32).toNat

/-- The `n` `int`s at the beginning of a block of bytes. -/
def intsOfBytes (bs : List UInt8) : ℕ → List ℤ
  | 0 => []
  | n + 1 => toInt32 (wordOfBytes (bs.take 4)) :: intsOfBytes (bs.drop 4) n

/-- The characters of a block of bytes. -/
def textOfBytes (bs : List UInt8) : String := String.ofList (bs.map fun b => Char.ofNat b.toNat)

/-- The bytes of a text. -/
def bytesOfText (s : String) : List UInt8 := s.toList.map fun c => UInt8.ofNat c.toNat

/-- The characters of a text as bytes and back. -/
lemma textOfBytes_bytesOfText {s : String} (h : ∀ c ∈ s.toList, c.toNat < 256) :
    textOfBytes (bytesOfText s) = s := by
  have hchars : (bytesOfText s).map (fun b => Char.ofNat b.toNat) = s.toList := by
    rw [bytesOfText, List.map_map]
    refine (List.map_congr_left fun c hc => ?_).trans (List.map_id _)
    rw [Function.comp_apply, UInt8.toNat_ofNat', Nat.mod_eq_of_lt (h c hc), Char.ofNat_toNat]
    rfl
  rw [textOfBytes, hchars, String.ofList_toList]

/-- `safe_send`: the length and that many bytes. -/
def safeSend (data : List UInt8) : List UInt8 :=
  bytesOfWord (data.length % 2 ^ 32) ++ data.take (data.length % 2 ^ 32)

/-- How an access to the bytes of the buffer up to `n` ends, when they were not all written. -/
def bufferFault (n : ℕ) : Fault := if n ≤ maxCommandBufferSize then .undefined else .bounds

/-- The block of `n` bytes at the beginning of the buffer, whose written bytes are `buffer`. -/
def readBuffer (buffer : List UInt8) (n : ℕ) : Outcome (List UInt8) :=
  if n ≤ buffer.length then .ok (buffer.take n) else .error (bufferFault n)

/-- The string that starts at `off` in a block of bytes, and `e` if it does not end there. -/
def cString (e : Fault) (mem : List UInt8) (off : ℕ) : Outcome String :=
  if 0 ∈ mem.drop off then .ok (textOfBytes ((mem.drop off).takeWhile (· ≠ 0))) else .error e

/-- The string in the slot `i` of the buffer. -/
def slotString (buffer : List UInt8) (i : ℕ) : Outcome String :=
  cString (bufferFault (max (i * maxNameSize) buffer.length + 1)) buffer (i * maxNameSize)

/-- A name that `init_col` copies to `MAX_NAME_SIZE` bytes. -/
def columnName (name : String) : Outcome String :=
  if maxNameSize ≤ name.length then .error .bounds
  else if name = "" then .error .assertion
  else .ok name

/-! ### The state of a worker -/

/-- The local variables of `db_worker` that outlive a session. While the worker waits for a
length it expects the four bytes of one. -/
structure WorkerVars where
  hasVar : Bool
  isLoading : Bool
  colSize : ℕ
  rowSize : ℕ
  curRow : ℕ
  loadColNames : List UInt8
  intsBuffer : List (List ℤ)
  isTuple : Bool
  isInsert : Bool
  isDelete : Bool
  isWaitingForMeta : Bool
  sizeExpected : ℕ
  vCount : ℤ
  size_of_waiting : isWaitingForMeta = true → sizeExpected = 4

/-- The local variables of a thread that starts. -/
def WorkerVars.start : WorkerVars where
  hasVar := false
  isLoading := false
  colSize := 0
  rowSize := 0
  curRow := 0
  loadColNames := []
  intsBuffer := []
  isTuple := false
  isInsert := false
  isDelete := false
  isWaitingForMeta := true
  sizeExpected := 4
  vCount := 0
  size_of_waiting := fun _ => rfl

/-- The worker waits for the payload that a length has announced. -/
def WorkerVars.expect (w : WorkerVars) (n : ℕ) : WorkerVars :=
  { w with isWaitingForMeta := false, sizeExpected := n, size_of_waiting := by simp }

/-- The worker waits for a length. -/
def WorkerVars.waitForMeta (w : WorkerVars) : WorkerVars :=
  { w with isWaitingForMeta := true, sizeExpected := 4, size_of_waiting := fun _ => rfl }

/-- What a worker works with: `regexec` with the groups of a match, and the node that `malloc`
returns in `bulk_load`. -/
structure Env where
  regexec : String → Option InputArgs
  node : Node

/-- A session: the columns, the variables of the session, the arguments of the last command
that matched (none were written before the first one), the written bytes of the buffer, the
variables of the worker, the bytes that the peer sends before it disconnects, those that the
worker has sent, and the commands it has executed. -/
structure Session where
  disk : Disk
  vars : Vars
  args : Option InputArgs
  buffer : List UInt8
  worker : WorkerVars
  input : List UInt8
  sent : List UInt8
  executed : List InputArgs

/-- The session of a worker with a new connection. -/
def newSession (w : WorkerVars) (d : Disk) (input : List UInt8) : Session where
  disk := d
  vars := Vars.create
  args := none
  buffer := []
  worker := w
  input := input
  sent := []
  executed := []

/-- The end of a turn. -/
inductive Turn where
  | next (s : Session)
  | done (s : Session)

/-! ### The payloads -/

/-- The effect of a step on the session, with the frame of the values that it sends. It reads
neither the buffer nor the variables of the worker. -/
def runStep (env : Env) (s : Session) (step : SessionStep) : Outcome Session := do
  let (disk, vars, reply) ← step.run env.node s.disk s.vars
  .ok { s with
        disk := disk
        vars := vars
        sent := s.sent ++ (reply.elim [] fun vals => safeSend (bytesOfInts vals)) }

/-- The end of a LOAD, when all rows are there. -/
def finishLoad (env : Env) (s : Session) : Outcome Session := do
  let w := s.worker
  let colNames ← (List.range w.colSize).mapM fun i => do
    columnName (← cString .bounds w.loadColNames (i * maxNameSize))
  runStep env { s with worker := { w with isLoading := false, curRow := 0 } }
    (.load colNames w.intsBuffer)

/-- A payload of a LOAD: first the names of the columns, then one row after the other, whose number
is an `int`. -/
def loadTurn (env : Env) (s : Session) : Outcome Session :=
  let w := s.worker
  if w.colSize = 0 ∨ w.rowSize = 0 then .error .assertion
  else if w.curRow = 0 then do
    let names ← readBuffer s.buffer (w.colSize * maxNameSize)
    .ok { s with worker := { w with loadColNames := names, curRow := 1 } }
  else if w.curRow ≤ w.rowSize then do
    let row ← readBuffer s.buffer (w.colSize * 4)
    if w.curRow + 1 < 2 ^ 31 then
      let s := { s with
                 worker :=
                  { w with
                    intsBuffer := w.intsBuffer ++ [intsOfBytes row w.colSize]
                    curRow := w.curRow + 1 } }
      if w.curRow + 1 ≤ w.rowSize then .ok s else finishLoad env s
    else .error .undefined
  else finishLoad env s

/-- The payload of a TUPLE: the names of its variables. The buffer is cleared afterwards. -/
def tupleWorkTurn (env : Env) (s : Session) : Outcome Session :=
  if s.worker.vCount < 0 then .error .undefined
  else do
    let names ← (List.range s.worker.vCount.toNat).mapM (slotString s.buffer)
    runStep env
      { s with
        worker := { s.worker with isTuple := false }
        buffer := List.replicate maxCommandBufferSize 0 }
      (.tuple names)

/-- The number of slots that a loop up to `v_count` visits: the count is compared with a
`uint32_t`. -/
def WorkerVars.slots (w : WorkerVars) : ℕ := (w.vCount % 2 ^ 32).toNat

/-- The payload of an INSERT: the name of a column and its value in turn. -/
def insertWorkTurn (env : Env) (s : Session) : Outcome Session :=
  if s.worker.vCount % 2 = 0 then do
    let vals ← (List.range (s.worker.slots / 2)).mapM fun i => do
      let colName ← columnName (← slotString s.buffer (2 * i))
      .ok (colName, intArg (← slotString s.buffer (2 * i + 1)))
    runStep env { s with worker := { s.worker with isInsert := false } } (.insert vals)
  else .error .assertion

/-- The payload of a DELETE: a variable and the names of columns. -/
def deleteWorkTurn (env : Env) (s : Session) : Outcome Session := do
  let var ← slotString s.buffer 0
  let colNames ← (List.range' 1 (s.worker.slots - 1)).mapM fun u => do
    columnName (← slotString s.buffer u)
  runStep env { s with worker := { s.worker with isDelete := false } } (.delete var colNames)

/-! ### The commands -/

/-- `match_regex`: a match is copied to the arguments. -/
def matchRegex (env : Env) (text : String) : Outcome (Option InputArgs) :=
  match env.regexec text with
  | none => .ok none
  | some args =>
      if maxInputBytes ≤ args.var.length ∨ maxInputBytes ≤ args.argOne.length ∨
          maxInputBytes ≤ args.argTwo.length ∨ maxInputBytes ≤ args.argThree.length then
        .error .bounds
      else .ok (some args)

/-- What the commands that announce a payload note for it. -/
def announce (w : WorkerVars) (args : InputArgs) : Outcome WorkerVars :=
  let vCount := intArg args.argOne
  match args.command with
  | .load =>
      .ok { w with
            isLoading := true
            colSize := uintArg args.argOne
            rowSize := uintArg args.argTwo
            loadColNames := []
            intsBuffer := [] }
  | .tuple =>
      if vCount = 0 then .error .assertion else .ok { w with vCount := vCount, isTuple := true }
  | .insert =>
      if vCount = 0 then .error .assertion else .ok { w with vCount := vCount, isInsert := true }
  | .delete =>
      if vCount = 0 then .error .assertion else .ok { w with vCount := vCount, isDelete := true }
  | _ => .ok w

/-- The dispatch on the command in the arguments. -/
def dispatch (env : Env) (s : Session) : Outcome Session :=
  match s.args with
  | none => .error .undefined
  | some args => do
      let worker ← announce s.worker args
      runStep env { s with worker := worker, executed := s.executed ++ [args] }
        (.call s.worker.hasVar args)

/-- The message for a command that does not match. -/
def syntaxErrorMsg : String := "please enter the correct syntax!\n"

/-- The session after a command that did not match: it is answered without a length. -/
def Session.rejected (s : Session) : Session :=
  { s with sent := s.sent ++ bytesOfText syntaxErrorMsg }

/-- The session after a command that matched. -/
def Session.matched (s : Session) (args : InputArgs) : Session :=
  { s with args := some args, worker := { s.worker with hasVar := args.var ≠ "" } }

/-- A command that is not the end of the session. The dispatch follows whether it matches or
not. -/
def matchAndDispatch (env : Env) (s : Session) (text : String) : Outcome Session := do
  match ← matchRegex env text with
  | none => dispatch env s.rejected
  | some args => dispatch env (s.matched args)

/-- The texts that end a session. -/
def endsSession (text : String) : Bool :=
  "exit".toList.isPrefixOf text.toList || "\n".toList.isPrefixOf text.toList

/-! ### The turns -/

/-- Receiving a payload, which is terminated in the buffer. -/
def receive (s : Session) (bytes : List UInt8) : Session :=
  { s with
    buffer := writeAt 0 (bytes ++ s.buffer.drop bytes.length) bytes.length 0
    worker := s.worker.waitForMeta }

/-- The payload of a frame. -/
def payloadTurn (env : Env) (s : Session) (bytes : List UInt8) : Outcome Turn :=
  let s := receive s bytes
  if s.worker.isLoading then return .next (← loadTurn env s)
  else if s.worker.isTuple then return .next (← tupleWorkTurn env s)
  else if s.worker.isInsert then return .next (← insertWorkTurn env s)
  else if s.worker.isDelete then return .next (← deleteWorkTurn env s)
  else do
    let text ← slotString s.buffer 0
    if endsSession text then .ok (.done s)
    else return .next (← matchAndDispatch env s text)

/-- A turn of the loop of `db_worker`: the bytes that are expected, with `safe_recv`, or the end
of the session when the peer disconnects before it has sent them. -/
def turn (env : Env) (s : Session) : Outcome Turn :=
  let n := s.worker.sizeExpected
  if maxCommandBufferSize < min n s.input.length then .error .bounds
  else if s.input.length < n then .ok (.done s)
  else
    let bytes := s.input.take n
    let s := { s with input := s.input.drop n }
    if s.worker.isWaitingForMeta then
      .ok (.next { s with
                   buffer := bytes ++ s.buffer.drop bytes.length
                   worker := s.worker.expect (wordOfBytes bytes) })
    else if n = maxCommandBufferSize then .error .bounds
    else payloadTurn env s bytes

end ColumnDb
