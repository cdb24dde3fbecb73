import ColumnDb.Library.Related
import ColumnDb.Session.Rejected

/-!
The next session of a worker (`worker.c`).

The local variables of `db_worker` are set once, when the thread starts, and `done` sets none of
them back. A session therefore starts with whatever the one before it has left. Sessions in which a
`send` or a `recv` fails, which may end the server, are left out.

* `SameProtocol`: two workers agree on the variables that are read before they are written.
* `SameSession.serve`: sessions of two such workers, over the same columns and with the same
  input, go the same way.
* `nextSession_eq_fresh`: a worker whose last session ended while it was waiting for a length,
  with no payload announced, serves the next one as a fresh worker does.
-/

namespace ColumnDb

open Outcome

/-! ### The variables that matter -/

/-- The two workers agree on what is read before it is written: the mode and what is expected;
the data of a LOAD during one; the count for an announced payload; and whether the last command
had a variable, if there was a command. -/
structure SameProtocol (hasArgs : Bool) (w w' : WorkerVars) : Prop where
  hasVar : hasArgs = true → w'.hasVar = w.hasVar
  isLoading : w'.isLoading = w.isLoading
  load : w.isLoading = true → w'.colSize = w.colSize ∧ w'.rowSize = w.rowSize ∧
    w'.loadColNames = w.loadColNames ∧ w'.intsBuffer = w.intsBuffer
  curRow : w'.curRow = w.curRow
  isTuple : w'.isTuple = w.isTuple
  isInsert : w'.isInsert = w.isInsert
  isDelete : w'.isDelete = w.isDelete
  vCount : w.isTuple = true ∨ w.isInsert = true ∨ w.isDelete = true → w'.vCount = w.vCount
  isWaitingForMeta : w'.isWaitingForMeta = w.isWaitingForMeta
  sizeExpected : w'.sizeExpected = w.sizeExpected

/-- Two sessions that differ in variables of the worker that do not matter. -/
structure SameSession (s t : Session) : Prop where
  disk : t.disk = s.disk
  vars : t.vars = s.vars
  args : t.args = s.args
  buffer : t.buffer = s.buffer
  worker : SameProtocol s.args.isSome s.worker t.worker
  input : t.input = s.input
  sent : t.sent = s.sent
  executed : t.executed = s.executed

/-- The same commands announce the same payloads. -/
lemma SameProtocol.announce {hasArgs : Bool} {w w' : WorkerVars} (h : SameProtocol hasArgs w w')
    (args : InputArgs) :
    Related (SameProtocol hasArgs) (announce w args) (announce w' args) := by
  obtain ⟨hhasVar, hisLoading, hload, hcurRow, hisTuple, hisInsert, hisDelete, hvCount, hwaiting,
    hsize⟩ := h
  rw [ColumnDb.announce, ColumnDb.announce]
  cases args.command with
  | load =>
      exact .ok ⟨hhasVar, rfl, fun _ => ⟨rfl, rfl, rfl, rfl⟩, hcurRow, hisTuple, hisInsert,
        hisDelete, hvCount, hwaiting, hsize⟩
  | tuple =>
      dsimp only
      split_ifs
      · exact .error _
      · exact .ok ⟨hhasVar, hisLoading, hload, hcurRow, rfl, hisInsert, hisDelete, fun _ => rfl,
          hwaiting, hsize⟩
  | insert =>
      dsimp only
      split_ifs
      · exact .error _
      · exact .ok ⟨hhasVar, hisLoading, hload, hcurRow, hisTuple, rfl, hisDelete, fun _ => rfl,
          hwaiting, hsize⟩
  | delete =>
      dsimp only
      split_ifs
      · exact .error _
      · exact .ok ⟨hhasVar, hisLoading, hload, hcurRow, hisTuple, hisInsert, rfl, fun _ => rfl,
          hwaiting, hsize⟩
  | _ =>
      exact .ok ⟨hhasVar, hisLoading, hload, hcurRow, hisTuple, hisInsert, hisDelete, hvCount,
        hwaiting, hsize⟩

/-! ### Two sessions in step -/

namespace SameSession

variable {env : Env} {s t : Session}

/-- A step does the same in both sessions. -/
lemma runStep (h : SameSession s t) (step : SessionStep) :
    Related SameSession (runStep env s step) (runStep env t step) := by
  rw [ColumnDb.runStep, ColumnDb.runStep, h.disk, h.vars]
  refine Related.bind_same fun r _ => .ok ?_
  exact ⟨rfl, rfl, h.args, h.buffer, h.worker, h.input, by simp only [h.sent], h.executed⟩

lemma finishLoad (h : SameSession s t) (hloading : s.worker.isLoading = true) :
    Related SameSession (finishLoad env s) (finishLoad env t) := by
  obtain ⟨hcol, hrow, hnames, hints⟩ := h.worker.load hloading
  rw [ColumnDb.finishLoad, ColumnDb.finishLoad]
  simp only [hcol, hnames, hints]
  refine Related.bind_same fun colNames _ => runStep ?_ _
  exact { h with
          worker := { h.worker with
                      isLoading := rfl, load := fun h => absurd h (by simp), curRow := rfl } }

lemma loadTurn (h : SameSession s t) (hloading : s.worker.isLoading = true) :
    Related SameSession (loadTurn env s) (loadTurn env t) := by
  obtain ⟨hcol, hrow, hnames, hints⟩ := h.worker.load hloading
  rw [ColumnDb.loadTurn, ColumnDb.loadTurn]
  simp only [hcol, hrow, h.worker.curRow, h.buffer]
  split_ifs with hsize hcur hrows hint hlast
  · exact .error _
  · refine Related.bind_same fun names _ => .ok ?_
    exact { h with
            buffer := rfl
            worker := { h.worker with
                        load := fun _ => ⟨rfl, rfl, rfl, hints⟩, curRow := rfl } }
  · refine Related.bind_same fun row _ => .ok ?_
    exact { h with
            buffer := rfl
            worker := { h.worker with
                        load := fun _ => ⟨rfl, rfl, hnames, by rw [hints]⟩, curRow := rfl } }
  · refine Related.bind_same fun row _ => finishLoad ?_ hloading
    exact { h with
            buffer := rfl
            worker := { h.worker with
                        load := fun _ => ⟨rfl, rfl, hnames, by rw [hints]⟩, curRow := rfl } }
  · exact Related.bind_same fun row _ => .error _
  · exact finishLoad h hloading

lemma tupleWorkTurn (h : SameSession s t) (htuple : s.worker.isTuple = true) :
    Related SameSession (tupleWorkTurn env s) (tupleWorkTurn env t) := by
  have hvCount := h.worker.vCount (Or.inl htuple)
  rw [ColumnDb.tupleWorkTurn, ColumnDb.tupleWorkTurn]
  simp only [hvCount, h.buffer]
  split_ifs
  · exact .error _
  · refine Related.bind_same fun names _ => runStep ?_ _
    exact { h with
            buffer := rfl
            worker := { h.worker with isTuple := rfl, vCount := fun _ => rfl } }

lemma insertWorkTurn (h : SameSession s t) (hinsert : s.worker.isInsert = true) :
    Related SameSession (insertWorkTurn env s) (insertWorkTurn env t) := by
  have hvCount := h.worker.vCount (Or.inr (Or.inl hinsert))
  rw [ColumnDb.insertWorkTurn, ColumnDb.insertWorkTurn]
  simp only [hvCount, WorkerVars.slots, h.buffer]
  split_ifs
  · refine Related.bind_same fun vals _ => runStep ?_ _
    exact { h with
            buffer := rfl
            worker := { h.worker with isInsert := rfl, vCount := fun _ => rfl } }
  · exact .error _

lemma deleteWorkTurn (h : SameSession s t) (hdelete : s.worker.isDelete = true) :
    Related SameSession (deleteWorkTurn env s) (deleteWorkTurn env t) := by
  have hvCount := h.worker.vCount (Or.inr (Or.inr hdelete))
  rw [ColumnDb.deleteWorkTurn, ColumnDb.deleteWorkTurn]
  simp only [hvCount, WorkerVars.slots, h.buffer]
  refine Related.bind_same fun var _ => Related.bind_same fun colNames _ => runStep ?_ _
  exact { h with
          buffer := rfl
          worker := { h.worker with isDelete := rfl, vCount := fun _ => rfl } }

/-- The dispatch reads whether the last command had a variable only when there was one. -/
lemma dispatch (h : SameSession s t) :
    Related SameSession (dispatch env s) (dispatch env t) := by
  rw [ColumnDb.dispatch, ColumnDb.dispatch, h.args]
  cases hargs : s.args with
  | none => exact .error _
  | some args =>
      have hhasVar := h.worker.hasVar (by rw [hargs]; rfl)
      dsimp only
      rw [hhasVar]
      refine (h.worker.announce args).bind fun w w' hw => runStep ?_ _
      rw [hargs] at hw
      exact { h with args := rfl, worker := hw, executed := by simp only [h.executed] }

lemma matchAndDispatch (h : SameSession s t) (text : String) :
    Related SameSession (matchAndDispatch env s text) (matchAndDispatch env t text) := by
  rw [ColumnDb.matchAndDispatch, ColumnDb.matchAndDispatch]
  refine Related.bind_same fun found _ => ?_
  cases found with
  | none => exact dispatch { h with sent := by simp only [Session.rejected, h.sent] }
  | some args =>
      exact dispatch { h with args := rfl, worker := { h.worker with hasVar := fun _ => rfl } }

lemma receive (h : SameSession s t) (bytes : List UInt8) :
    SameSession (receive s bytes) (receive t bytes) :=
  { h with
    buffer := by simp only [ColumnDb.receive, h.buffer]
    worker := { h.worker with isWaitingForMeta := rfl, sizeExpected := rfl } }

end SameSession

/-- Two turns with the same end. -/
inductive SameTurn : Turn → Turn → Prop where
  | next {s t : Session} (h : SameSession s t) : SameTurn (.next s) (.next t)
  | done {s t : Session} (h : SameSession s t) : SameTurn (.done s) (.done t)

namespace SameSession

variable {env : Env} {s t : Session}

lemma payloadTurn (h : SameSession s t) (bytes : List UInt8) :
    Related SameTurn (payloadTurn env s bytes) (payloadTurn env t bytes) := by
  have hr := h.receive bytes
  rw [ColumnDb.payloadTurn, ColumnDb.payloadTurn]
  simp only [hr.worker.isLoading, hr.worker.isTuple, hr.worker.isInsert, hr.worker.isDelete,
    hr.buffer]
  split_ifs with hloading htuple hinsert hdelete
  · exact (hr.loadTurn hloading).bind fun s' t' h' => .ok (.next h')
  · exact (hr.tupleWorkTurn htuple).bind fun s' t' h' => .ok (.next h')
  · exact (hr.insertWorkTurn hinsert).bind fun s' t' h' => .ok (.next h')
  · exact (hr.deleteWorkTurn hdelete).bind fun s' t' h' => .ok (.next h')
  · refine Related.bind_same fun text _ => ?_
    split_ifs
    · exact .ok (.done hr)
    · exact (hr.matchAndDispatch text).bind fun s' t' h' => .ok (.next h')

/-- **A turn** goes the same way in both sessions. -/
theorem turn (h : SameSession s t) : Related SameTurn (turn env s) (turn env t) := by
  rw [ColumnDb.turn, ColumnDb.turn]
  simp only [h.worker.sizeExpected, h.worker.isWaitingForMeta, h.input, h.buffer]
  split_ifs
  · exact .error _
  · exact .ok (.done h)
  · refine .ok (.next { h with input := rfl, buffer := rfl, worker := ?_ })
    exact { h.worker with isWaitingForMeta := rfl, sizeExpected := rfl }
  · exact .error _
  · refine payloadTurn ?_ _
    exact { h with input := rfl, buffer := rfl }

/-- **Two sessions in step** end in the same way. -/
theorem serve (h : SameSession s t) : Related SameSession (serve env s) (serve env t) := by
  induction hn : s.todo using Nat.strong_induction_on generalizing s t with
  | _ n ih =>
      have hturn : Related _ (ColumnDb.turn env s) (ColumnDb.turn env t) := h.turn
      cases hs : ColumnDb.turn env s with
      | error e =>
          rw [hs] at hturn
          cases ht : ColumnDb.turn env t with
          | ok r => rw [ht] at hturn; cases hturn
          | error e' =>
              rw [ht] at hturn
              cases hturn
              rw [serve_error hs, serve_error ht]
              exact .error e
      | ok r =>
          rw [hs] at hturn
          obtain ⟨r', ht, hr⟩ := hturn.ok_left rfl
          cases hr with
          | next h' =>
              rw [serve_next hs, serve_next ht]
              exact ih _ (hn ▸ todo_lt_of_next hs) h' rfl
          | done h' =>
              rw [serve_done hs, serve_done ht]
              exact .ok h'

end SameSession

/-! ### The workers that have served sessions -/

/-- The variables of a worker that has started and served any number of sessions, each over any
columns and with any bytes of its peer. -/
inductive Served (env : Env) : WorkerVars → Prop where
  | start : Served env .start
  | session {w : WorkerVars} (hw : Served env w) {d : Disk} {input : List UInt8} {s : Session}
      (hs : serve env (newSession w d input) = .ok s) : Served env s.worker

lemma Served.idle {env : Env} {w : WorkerVars} (h : Served env w) : w.Idle := by
  induction h with
  | start => exact fun _ => rfl
  | session _ hs ih => exact serve_idle ih hs

/-- A worker that waits for a length, with no payload announced. -/
structure WorkerVars.Clean (w : WorkerVars) : Prop extends w.AwaitsCommand where
  isWaitingForMeta : w.isWaitingForMeta = true

/-- A clean worker is in the state of a fresh one, up to variables that it does not read. -/
lemma WorkerVars.Clean.sameProtocol {w : WorkerVars} (h : w.Clean) (hidle : w.Idle) :
    SameProtocol false .start w where
  hasVar := fun h => absurd h (by decide)
  isLoading := h.isLoading
  load := fun h => absurd h (by decide)
  curRow := hidle h.isLoading
  isTuple := h.isTuple
  isInsert := h.isInsert
  isDelete := h.isDelete
  vCount := fun h => absurd h (by decide)
  isWaitingForMeta := h.isWaitingForMeta
  sizeExpected := w.size_of_waiting h.isWaitingForMeta

/-- What there is to see of a session from outside: the bytes that were sent, the columns that
are left, and the commands that were executed. -/
def observed (s : Session) : List UInt8 × Disk × List InputArgs := (s.sent, s.disk, s.executed)

lemma SameSession.observed_eq {s t : Session} (h : SameSession s t) : observed s = observed t := by
  rw [observed, observed, h.sent, h.disk, h.executed]

/-- **The next session of a worker** that was left waiting for a length, with no payload
announced, goes as the same session of a fresh worker: it sends the same bytes, leaves the same
columns and executes the same commands, or ends with the same fault. -/
theorem nextSession_eq_fresh (env : Env) (w : WorkerVars) (hserved : Served env w)
    (hclean : w.Clean) (d : Disk) (input : List UInt8) :
    (serve env (newSession w d input)).map observed
      = (serve env (newSession .start d input)).map observed := by
  have hsame : SameSession (newSession .start d input) (newSession w d input) :=
    ⟨rfl, rfl, rfl, rfl, hclean.sameProtocol hserved.idle, rfl, rfl, rfl⟩
  exact (hsame.serve.map_eq fun s t h => h.observed_eq).symm

/-! ### A session that ends after a length -/

/-- The arguments of the command that the sessions below send. -/
def createArgs : InputArgs :=
  { var := "", command := .create, argOne := "a", argTwo := "unsorted", argThree := "" }

/-- `regexec` on that command. -/
def createEnv : Env where
  regexec := fun text => if text = "create(a,unsorted)" then some createArgs else none
  node := Node.zero

/-- The bytes of a session that creates a column. -/
def createInput : List UInt8 := safeSend (bytesOfText "create(a,unsorted)")

/-- The session after the length of the command. -/
def createAnnounced (d : Disk) : Session :=
  { newSession .start d (bytesOfText "create(a,unsorted)") with
    buffer := [18, 0, 0, 0]
    worker := WorkerVars.start.expect 18 }

/-- The session after the command. -/
def createDone (d : Disk) : Session :=
  { newSession .start (Function.update d "a" (some (Column.makeNew .unsorted))) [] with
    args := some createArgs
    buffer := bytesOfText "create(a,unsorted)" ++ [0]
    executed := [createArgs] }

lemma turn_createAnnounced (d : Disk) :
    turn createEnv (createAnnounced d) = .ok (.next (createDone d)) := by
  have htext : commandText (bytesOfText "create(a,unsorted)") = "create(a,unsorted)" := by decide
  have hturn : turn createEnv (createAnnounced d)
      = payloadTurn createEnv { createAnnounced d with input := [] }
        (bytesOfText "create(a,unsorted)") := rfl
  rw [hturn, payloadTurn_of_awaitsCommand ⟨rfl, rfl, rfl, rfl⟩, htext]
  rfl

/-- A session that creates the column, after which the peer disconnects. -/
lemma serve_createInput (d : Disk) :
    serve createEnv (newSession .start d createInput) = .ok (createDone d) := by
  have hlength : turn createEnv (newSession .start d createInput)
      = .ok (.next (createAnnounced d)) := rfl
  have hend : turn createEnv (createDone d) = .ok (.done (createDone d)) := rfl
  rw [serve_next hlength, serve_next (turn_createAnnounced d), serve_done hend]

/-- A worker that has served a whole session serves the next one as a fresh worker. -/
theorem wholeSession_next_eq_fresh :
    (serve createEnv (newSession (createDone fun _ => none).worker (fun _ => none)
        createInput)).map observed
      = (serve createEnv (newSession .start (fun _ => none) createInput)).map observed :=
  nextSession_eq_fresh createEnv (createDone fun _ => none).worker
    (.session .start (serve_createInput fun _ => none)) ⟨⟨rfl, rfl, rfl, rfl⟩, rfl⟩ _ _

/-- A peer that disconnects after a length leaves the worker waiting for one byte. It takes the
first byte of the next session for a command, whose own command is not executed. -/
theorem lengthOnly_next_differs :
    ∃ s, serve createEnv (newSession .start (fun _ => none) [1, 0, 0, 0]) = .ok s ∧
      serve createEnv (newSession s.worker (fun _ => none) createInput) = .error .undefined ∧
      (serve createEnv (newSession s.worker (fun _ => none) createInput)).map observed
        ≠ (serve createEnv (newSession .start (fun _ => none) createInput)).map observed := by
  have hstale : serve createEnv (newSession (WorkerVars.start.expect 1) (fun _ => none)
      createInput) = .error .undefined := serve_error rfl
  refine ⟨{ newSession (WorkerVars.start.expect 1) (fun _ => none) [] with
            buffer := [1, 0, 0, 0] }, ?_, hstale, ?_⟩
  · exact (serve_next rfl).trans (serve_done rfl)
  · change (serve createEnv (newSession (WorkerVars.start.expect 1) _ _)).map observed ≠ _
    rw [hstale, serve_createInput]
    exact fun h => nomatch h

end ColumnDb
