import ColumnDb.Session.Serve

/-!
Commands that `match_regex` rejects (`worker.c`, `parser.c`).

* `payloadTurn_of_awaitsCommand`: a payload that was not announced is a command.
* `rejected_executes_last`: a command that is rejected runs the command before it once more, in
  every state that a session reaches; before the first command it reads arguments that nothing
  has written.
* `rejected_has_effect`: so no rejected command is without effect.

The message that answers a rejected command is sent before: that this `send` fails is left out.
-/

namespace ColumnDb

/-! ### The text of a payload -/

/-- The text of a command: the payload up to its first zero byte. -/
def commandText (bytes : List UInt8) : String := textOfBytes (bytes.takeWhile (· ≠ 0))

/-- The payload is followed by a zero byte. -/
lemma buffer_receive (s : Session) (bytes : List UInt8) :
    ∃ rest, (receive s bytes).buffer = bytes ++ 0 :: rest := by
  rw [receive, writeAt]
  split_ifs with h
  · refine ⟨(s.buffer.drop bytes.length).drop 1, ?_⟩
    have hlen : 0 < (s.buffer.drop bytes.length).length := by
      rw [List.length_append] at h
      omega
    rw [List.set_append_right _ _ le_rfl, Nat.sub_self]
    obtain ⟨b, rest, hb⟩ := List.exists_cons_of_length_pos hlen
    rw [hb]
    rfl
  · have hnil : s.buffer.drop bytes.length = [] := by
      refine List.length_eq_zero_iff.mp ?_
      rw [List.length_append] at h
      omega
    exact ⟨[], by simp [hnil]⟩

lemma takeWhile_append_zero (bytes rest : List UInt8) :
    (bytes ++ 0 :: rest).takeWhile (· ≠ 0) = bytes.takeWhile (· ≠ 0) := by
  induction bytes with
  | nil => rfl
  | cons b bytes ih =>
      rw [List.cons_append, List.takeWhile_cons, List.takeWhile_cons, ih]

/-- The worker reads the text of the payload. -/
lemma slotString_receive (s : Session) (bytes : List UInt8) :
    slotString (receive s bytes).buffer 0 = .ok (commandText bytes) := by
  obtain ⟨rest, hbuffer⟩ := buffer_receive s bytes
  have hmem : (0 : UInt8) ∈ bytes ++ 0 :: rest := by simp
  rw [slotString, cString, hbuffer, Nat.zero_mul, List.drop_zero, if_pos hmem,
    takeWhile_append_zero, commandText]

/-! ### A command -/

/-- No payload is announced: the worker reads the next one as a command. -/
structure WorkerVars.AwaitsCommand (w : WorkerVars) : Prop where
  isLoading : w.isLoading = false
  isTuple : w.isTuple = false
  isInsert : w.isInsert = false
  isDelete : w.isDelete = false

/-- A payload that was not announced ends the session or is a command. -/
lemma payloadTurn_of_awaitsCommand {env : Env} {s : Session} (h : s.worker.AwaitsCommand)
    (bytes : List UInt8) :
    payloadTurn env s bytes =
      if endsSession (commandText bytes) then .ok (.done (receive s bytes))
      else (matchAndDispatch env (receive s bytes) (commandText bytes)).map .next := by
  have hworker : (receive s bytes).worker = s.worker.waitForMeta := rfl
  rw [payloadTurn]
  simp only [hworker, WorkerVars.waitForMeta, h.isLoading, h.isTuple, h.isInsert, h.isDelete,
    Bool.false_eq_true, if_false, slotString_receive, Outcome.ok_bind]
  rfl

/-- The payload is a command that `match_regex` rejects. -/
structure Rejected (env : Env) (bytes : List UInt8) : Prop where
  goes_on : endsSession (commandText bytes) = false
  no_match : env.regexec (commandText bytes) = none

/-- A rejected command is answered, and what follows is the dispatch. -/
lemma payloadTurn_of_rejected {env : Env} {s : Session} {bytes : List UInt8}
    (h : s.worker.AwaitsCommand) (hrej : Rejected env bytes) :
    payloadTurn env s bytes = (dispatch env (receive s bytes).rejected).map .next := by
  rw [payloadTurn_of_awaitsCommand h, hrej.goes_on, if_neg Bool.false_ne_true, matchAndDispatch,
    matchRegex, hrej.no_match]
  rfl

/-- **A rejected command** executes the last command of the session once more. In a session
without one it is not executed, and the worker does not go on. -/
theorem rejected_executes_last {env : Env} {w : WorkerVars} {d : Disk} {input : List UInt8}
    {s : Session} (hreach : Session.ReachedFrom env (newSession w d input) s)
    (hcommand : s.worker.AwaitsCommand) {bytes : List UInt8} (hrej : Rejected env bytes) :
    (s.executed = [] → payloadTurn env s bytes = .error .undefined) ∧
      ∀ s', payloadTurn env s bytes = .ok (.next s') →
        ∃ args, s.executed.getLast? = some args ∧ s'.executed = s.executed ++ [args] := by
  have hlast : s.args = s.executed.getLast? := ReachedFrom.argsOfLast hreach
  rw [payloadTurn_of_rejected hcommand hrej]
  refine ⟨fun hnone => ?_, fun s' hs' => ?_⟩
  · have hargs : (receive s bytes).rejected.args = none := by
      change s.args = none
      rw [hlast, hnone]
      rfl
    rw [dispatch, hargs]
    rfl
  · obtain ⟨s₁, hdispatch, hs'⟩ := Outcome.map_eq_ok.mp hs'
    cases hs'
    obtain ⟨args, worker, d, vars, reply, hargs, -, -, rfl⟩ := dispatch_ok hdispatch
    exact ⟨args, hlast ▸ hargs, rfl⟩

/-- The payload executes nothing: the columns, the variables and the commands executed so far
stay as they are, and the next payload is read as a command. -/
def NoEffect (env : Env) (s : Session) (bytes : List UInt8) : Prop :=
  ∃ s', payloadTurn env s bytes = .ok (.next s') ∧ s'.disk = s.disk ∧ s'.vars = s.vars ∧
    s'.executed = s.executed ∧ s'.worker.AwaitsCommand

/-! ### No rejected command is without effect -/

/-- `regexec` on the two texts of `insertSession`. -/
def insertEnv : Env where
  regexec := fun text =>
    if text = "insert(2)" then
      some { var := "", command := .insert, argOne := "2", argTwo := "", argThree := "" }
    else none
  node := Node.zero

/-- An announced INSERT of one value into the column `a`. -/
def insertSession : Session :=
  newSession .start (fun name => if name = "a" then some (Column.makeNew .unsorted) else none)
    (safeSend (bytesOfText "insert(2)") ++
      safeSend (bytesOfText "a" ++ List.replicate 15 0 ++ bytesOfText "5" ++ List.replicate 15 0))

/-- **No rejected command is without effect**, in whatever state of a session it arrives: the
dispatch that follows either executes the last command again or reads arguments that nothing has
written. -/
theorem rejected_has_effect (env : Env) (s : Session) (bytes : List UInt8)
    (hcommand : s.worker.AwaitsCommand) (hrej : Rejected env bytes) : ¬ NoEffect env s bytes := by
  rintro ⟨s', hturn, -, -, hexecuted, -⟩
  rw [payloadTurn_of_rejected hcommand hrej] at hturn
  obtain ⟨s₁, hdispatch, hturn⟩ := Outcome.map_eq_ok.mp hturn
  cases hturn
  obtain ⟨args, worker, d, vars, reply, -, -, -, rfl⟩ := dispatch_ok hdispatch
  have hlen := congrArg List.length hexecuted
  change (s.executed ++ [args]).length = s.executed.length at hlen
  rw [List.length_append, List.length_singleton] at hlen
  omega

/-- A command that is rejected after an INSERT was served. -/
theorem insertServed_rejected_has_effect :
    ∃ s args, Session.ReachedFrom insertEnv insertSession s ∧ s.executed = [args] ∧
      args.command = .insert ∧ ¬ NoEffect insertEnv s (bytesOfText "foo(a)") :=
  ⟨_, _, .next (.next (.next (.next .start rfl) rfl) rfl) rfl, rfl, rfl,
    rejected_has_effect insertEnv _ (bytesOfText "foo(a)") ⟨rfl, rfl, rfl, rfl⟩
      ⟨by decide, by decide⟩⟩

/-- A command that is rejected after an INSERT announces the INSERT again: the next payload is
not read as a command. -/
theorem insert_then_rejected_announces_insert :
    ∃ s s', Session.ReachedFrom insertEnv insertSession s ∧ s.worker.AwaitsCommand ∧
      Rejected insertEnv (bytesOfText "foo(a)") ∧
      payloadTurn insertEnv s (bytesOfText "foo(a)") = .ok (.next s') ∧
      s'.worker.isInsert = true ∧ ¬ NoEffect insertEnv s (bytesOfText "foo(a)") := by
  refine ⟨_, _, .next (.next (.next (.next .start rfl) rfl) rfl) rfl, ⟨rfl, rfl, rfl, rfl⟩,
    ⟨by decide, by decide⟩, rfl, rfl, ?_⟩
  rintro ⟨s', hturn, -, -, -, hcommand⟩
  cases hturn
  exact absurd hcommand.isInsert (by decide)

end ColumnDb
