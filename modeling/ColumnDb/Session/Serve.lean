import ColumnDb.Session.Worker

/-!
The turns of a session, one after the other (`worker.c`).

* `runStep_ok`: a step changes the columns, the variables and what was sent, and nothing else
  of the session.
* `payloadTurn_next`: after a payload the worker waits for a length, and has read nothing more.
* `serve`: a session to its end. `serve_next`, `serve_done` and `serve_error` are its
  equations.
* `Session.ReachedFrom`: the states of a session. `ReachedFrom.argsOfLast`: the arguments in
  them are those of the last command that was executed.
-/

namespace ColumnDb

/-! ### What a turn leaves alone -/

/-- A step changes the columns, the variables, and what was sent. -/
lemma runStep_ok {env : Env} {s s' : Session} {step : SessionStep}
    (h : runStep env s step = .ok s') :
    ∃ d vars reply, step.run env.node s.disk s.vars = .ok (d, vars, reply) ∧
      s' = { s with
             disk := d
             vars := vars
             sent := s.sent ++ (reply.elim [] fun vals => safeSend (bytesOfInts vals)) } := by
  obtain ⟨⟨d, vars, reply⟩, hrun, h⟩ := Outcome.bind_eq_ok.mp h
  cases h
  exact ⟨d, vars, reply, hrun, rfl⟩

/-- The row of a LOAD is counted only during one. -/
def WorkerVars.Idle (w : WorkerVars) : Prop := w.isLoading = false → w.curRow = 0

/-- What the work on an announced payload leaves alone: what is still to be read, what the
worker reads next, and the commands. -/
structure KeepsReading (s s' : Session) : Prop where
  input : s'.input = s.input
  waiting : s'.worker.isWaitingForMeta = s.worker.isWaitingForMeta
  args : s'.args = s.args
  executed : s'.executed = s.executed
  idle : s.worker.Idle → s'.worker.Idle

namespace KeepsReading

variable {env : Env} {s s' : Session}

lemma of_runStep {step : SessionStep} (h : runStep env s step = .ok s') : KeepsReading s s' := by
  obtain ⟨d, vars, reply, -, rfl⟩ := runStep_ok h
  exact ⟨rfl, rfl, rfl, rfl, id⟩

lemma of_finishLoad (h : finishLoad env s = .ok s') : KeepsReading s s' := by
  obtain ⟨colNames, -, h⟩ := Outcome.bind_eq_ok.mp h
  obtain ⟨hinput, hwaiting, hargs, hexecuted, hidle⟩ := of_runStep h
  exact ⟨hinput, hwaiting, hargs, hexecuted, fun _ => hidle fun _ => rfl⟩

lemma of_loadTurn (hloading : s.worker.isLoading = true) (h : loadTurn env s = .ok s') :
    KeepsReading s s' := by
  rw [loadTurn] at h
  simp only at h
  split_ifs at h with hsize hnames hrows hint hlast
  · obtain ⟨names, -, h⟩ := Outcome.bind_eq_ok.mp h
    cases h
    exact ⟨rfl, rfl, rfl, rfl, fun _ hidle => absurd hloading (ne_true_of_eq_false hidle)⟩
  · obtain ⟨row, -, h⟩ := Outcome.bind_eq_ok.mp h
    cases h
    exact ⟨rfl, rfl, rfl, rfl, fun _ hidle => absurd hloading (ne_true_of_eq_false hidle)⟩
  · obtain ⟨row, -, h⟩ := Outcome.bind_eq_ok.mp h
    obtain ⟨hinput, hwaiting, hargs, hexecuted, hidle⟩ := of_finishLoad h
    refine ⟨hinput, hwaiting, hargs, hexecuted, fun _ => hidle fun hloading' => ?_⟩
    exact absurd hloading (ne_true_of_eq_false hloading')
  · obtain ⟨row, -, h⟩ := Outcome.bind_eq_ok.mp h
    cases h
  · exact of_finishLoad h

lemma of_tupleWorkTurn (h : tupleWorkTurn env s = .ok s') : KeepsReading s s' := by
  rw [tupleWorkTurn] at h
  split_ifs at h
  obtain ⟨names, -, h⟩ := Outcome.bind_eq_ok.mp h
  obtain ⟨hinput, hwaiting, hargs, hexecuted, hidle⟩ := of_runStep h
  exact ⟨hinput, hwaiting, hargs, hexecuted, hidle⟩

lemma of_insertWorkTurn (h : insertWorkTurn env s = .ok s') : KeepsReading s s' := by
  rw [insertWorkTurn] at h
  split_ifs at h
  obtain ⟨vals, -, h⟩ := Outcome.bind_eq_ok.mp h
  obtain ⟨hinput, hwaiting, hargs, hexecuted, hidle⟩ := of_runStep h
  exact ⟨hinput, hwaiting, hargs, hexecuted, hidle⟩

lemma of_deleteWorkTurn (h : deleteWorkTurn env s = .ok s') : KeepsReading s s' := by
  obtain ⟨var, -, h⟩ := Outcome.bind_eq_ok.mp h
  obtain ⟨colNames, -, h⟩ := Outcome.bind_eq_ok.mp h
  obtain ⟨hinput, hwaiting, hargs, hexecuted, hidle⟩ := of_runStep h
  exact ⟨hinput, hwaiting, hargs, hexecuted, hidle⟩

end KeepsReading

/-- What a command announces does not change what the worker reads next. -/
lemma announce_ok {w w' : WorkerVars} {args : InputArgs} (h : announce w args = .ok w') :
    w'.isWaitingForMeta = w.isWaitingForMeta ∧ (w.Idle → w'.Idle) := by
  rw [announce] at h
  cases hcommand : args.command with
  | load =>
      simp only [hcommand] at h
      cases h
      exact ⟨rfl, fun _ hloading => absurd hloading (by simp)⟩
  | tuple | insert | delete =>
      simp only [hcommand] at h
      split_ifs at h
      cases h
      exact ⟨rfl, id⟩
  | _ =>
      simp only [hcommand] at h
      cases h
      exact ⟨rfl, id⟩

/-- **The dispatch** runs the command in the arguments and notes it. -/
theorem dispatch_ok {env : Env} {s s' : Session} (h : dispatch env s = .ok s') :
    ∃ args worker d vars reply, s.args = some args ∧ announce s.worker args = .ok worker ∧
      (SessionStep.call s.worker.hasVar args).run env.node s.disk s.vars
        = .ok (d, vars, reply) ∧
      s' = { s with
             disk := d
             vars := vars
             sent := s.sent ++ (reply.elim [] fun vals => safeSend (bytesOfInts vals))
             worker := worker
             executed := s.executed ++ [args] } := by
  rw [dispatch] at h
  cases hargs : s.args with
  | none =>
      simp only [hargs] at h
      cases h
  | some args =>
      simp only [hargs] at h
      obtain ⟨worker, hworker, h⟩ := Outcome.bind_eq_ok.mp h
      obtain ⟨d, vars, reply, hrun, rfl⟩ := runStep_ok h
      exact ⟨args, worker, d, vars, reply, rfl, hworker, hrun, rfl⟩

/-- A command that matches leaves its own arguments, and one that does not those before it;
either way they are what is dispatched. -/
lemma matchAndDispatch_ok {env : Env} {s s' : Session} {text : String}
    (h : matchAndDispatch env s text = .ok s') :
    s'.input = s.input ∧ s'.worker.isWaitingForMeta = s.worker.isWaitingForMeta ∧
      (s.worker.Idle → s'.worker.Idle) ∧
      ∃ args, s'.args = some args ∧ s'.executed = s.executed ++ [args] := by
  obtain ⟨found, -, h⟩ := Outcome.bind_eq_ok.mp h
  cases found with
  | none =>
      obtain ⟨args, worker, d, vars, reply, hargs, hworker, -, rfl⟩ := dispatch_ok h
      obtain ⟨hwaiting, hidle⟩ := announce_ok hworker
      exact ⟨rfl, hwaiting, hidle, args, hargs, rfl⟩
  | some args' =>
      obtain ⟨args, worker, d, vars, reply, hargs, hworker, -, rfl⟩ := dispatch_ok h
      obtain ⟨hwaiting, hidle⟩ := announce_ok hworker
      exact ⟨rfl, hwaiting, hidle, args, hargs, rfl⟩

/-- What a payload does: announced data leaves the commands alone, and another payload ends the
session or is a command. -/
lemma payloadTurn_next_cases {env : Env} {s s' : Session} {bytes : List UInt8}
    (h : payloadTurn env s bytes = .ok (.next s')) :
    KeepsReading (receive s bytes) s' ∨
      ∃ text, slotString (receive s bytes).buffer 0 = .ok text ∧ endsSession text = false ∧
        matchAndDispatch env (receive s bytes) text = .ok s' := by
  rw [payloadTurn] at h
  split_ifs at h with hloading
  · obtain ⟨s₁, hturn, h⟩ := Outcome.bind_eq_ok.mp h
    cases h
    exact Or.inl (KeepsReading.of_loadTurn hloading hturn)
  · obtain ⟨s₁, hturn, h⟩ := Outcome.bind_eq_ok.mp h
    cases h
    exact Or.inl (KeepsReading.of_tupleWorkTurn hturn)
  · obtain ⟨s₁, hturn, h⟩ := Outcome.bind_eq_ok.mp h
    cases h
    exact Or.inl (KeepsReading.of_insertWorkTurn hturn)
  · obtain ⟨s₁, hturn, h⟩ := Outcome.bind_eq_ok.mp h
    cases h
    exact Or.inl (KeepsReading.of_deleteWorkTurn hturn)
  · obtain ⟨text, htext, h⟩ := Outcome.bind_eq_ok.mp h
    split_ifs at h with hends
    · cases h
    · obtain ⟨s₁, hturn, h⟩ := Outcome.bind_eq_ok.mp h
      cases h
      exact Or.inr ⟨text, htext, Bool.eq_false_iff.mpr hends, hturn⟩

/-- **After a payload** the worker waits for a length and has read nothing more. -/
theorem payloadTurn_next {env : Env} {s s' : Session} {bytes : List UInt8}
    (h : payloadTurn env s bytes = .ok (.next s')) :
    s'.input = s.input ∧ s'.worker.isWaitingForMeta = true ∧ (s.worker.Idle → s'.worker.Idle) := by
  rcases payloadTurn_next_cases h with hkeeps | ⟨text, -, -, hturn⟩
  · exact ⟨hkeeps.input, hkeeps.waiting, hkeeps.idle⟩
  · obtain ⟨hinput, hwaiting, hidle, -⟩ := matchAndDispatch_ok hturn
    exact ⟨hinput, hwaiting, hidle⟩

/-! ### A session to its end -/

/-- How much a session still has to read: two turns for every length, and one for a payload. -/
def Session.todo (s : Session) : ℕ :=
  2 * s.input.length + if s.worker.isWaitingForMeta then 0 else 1

/-- Every turn gets on with the input. -/
lemma todo_lt_of_next {env : Env} {s s' : Session} (h : turn env s = .ok (.next s')) :
    s'.todo < s.todo := by
  rw [turn] at h
  simp only at h
  split_ifs at h with hroom hshort hwaiting hfull
  · cases h
  · cases h
    have h4 := s.worker.size_of_waiting hwaiting
    rw [h4] at hshort
    have hlen : (s.input.drop s.worker.sizeExpected).length = s.input.length - 4 := by
      rw [List.length_drop, h4]
    simp only [Session.todo, WorkerVars.expect, hlen, hwaiting, if_true, Bool.false_eq_true,
      if_false]
    omega
  · obtain ⟨hinput, hwait, -⟩ := payloadTurn_next h
    have hlen : s'.input.length ≤ s.input.length := by
      rw [hinput]
      exact (List.length_drop ▸ Nat.sub_le _ _)
    rw [Session.todo, Session.todo, if_pos hwait, if_neg hwaiting]
    omega

/-- A session until the worker is done with it. -/
def serve (env : Env) (s : Session) : Outcome Session :=
  match h : turn env s with
  | .error e => .error e
  | .ok (.done s') => .ok s'
  | .ok (.next s') =>
      have := todo_lt_of_next h
      serve env s'
termination_by s.todo

lemma serve_error {env : Env} {s : Session} {e : Fault} (h : turn env s = .error e) :
    serve env s = .error e := by
  rw [serve]
  split <;> simp_all

lemma serve_done {env : Env} {s s' : Session} (h : turn env s = .ok (.done s')) :
    serve env s = .ok s' := by
  rw [serve]
  split <;> simp_all

lemma serve_next {env : Env} {s s' : Session} (h : turn env s = .ok (.next s')) :
    serve env s = serve env s' := by
  rw [serve]
  split <;> simp_all

/-- A payload that ends the session leaves the worker waiting for a length. -/
lemma payloadTurn_done {env : Env} {s s' : Session} {bytes : List UInt8}
    (h : payloadTurn env s bytes = .ok (.done s')) : s' = receive s bytes := by
  rw [payloadTurn] at h
  split_ifs at h
  · obtain ⟨s₁, -, h⟩ := Outcome.bind_eq_ok.mp h
    cases h
  · obtain ⟨s₁, -, h⟩ := Outcome.bind_eq_ok.mp h
    cases h
  · obtain ⟨s₁, -, h⟩ := Outcome.bind_eq_ok.mp h
    cases h
  · obtain ⟨s₁, -, h⟩ := Outcome.bind_eq_ok.mp h
    cases h
  · obtain ⟨text, -, h⟩ := Outcome.bind_eq_ok.mp h
    split_ifs at h
    · cases h
      rfl
    · obtain ⟨s₁, -, h⟩ := Outcome.bind_eq_ok.mp h
      cases h

/-! ### The states of a session -/

/-- The states that the turns of a session reach. -/
inductive Session.ReachedFrom (env : Env) (s₀ : Session) : Session → Prop where
  | start : Session.ReachedFrom env s₀ s₀
  | next {s s' : Session} (hreach : Session.ReachedFrom env s₀ s)
      (hturn : turn env s = .ok (.next s')) : Session.ReachedFrom env s₀ s'

/-- The arguments are those of the last command that was executed. -/
def ArgsOfLast (s : Session) : Prop := s.args = s.executed.getLast?

lemma argsOfLast_of_payloadTurn {env : Env} {s s' : Session} {bytes : List UInt8}
    (h : payloadTurn env s bytes = .ok (.next s')) (hlast : ArgsOfLast s) : ArgsOfLast s' := by
  rcases payloadTurn_next_cases h with hkeeps | ⟨text, -, -, hturn⟩
  · rw [ArgsOfLast, hkeeps.args, hkeeps.executed]
    exact hlast
  · obtain ⟨-, -, -, args, hargs, hexecuted⟩ := matchAndDispatch_ok hturn
    rw [ArgsOfLast, hargs, hexecuted, List.getLast?_concat]

/-- A turn reads a length, or a payload from the input that is left. -/
lemma turn_next_cases {env : Env} {s s' : Session} (h : turn env s = .ok (.next s')) :
    s.worker.isWaitingForMeta = true ∧
        s' = { s with
               input := s.input.drop 4
               buffer := s.input.take 4 ++ s.buffer.drop (s.input.take 4).length
               worker := s.worker.expect (wordOfBytes (s.input.take 4)) } ∨
      s.worker.isWaitingForMeta = false ∧
        payloadTurn env { s with input := s.input.drop s.worker.sizeExpected }
          (s.input.take s.worker.sizeExpected) = .ok (.next s') := by
  rw [turn] at h
  simp only at h
  split_ifs at h with hroom hshort hwaiting hfull
  · cases h
  · cases h
    refine Or.inl ⟨hwaiting, ?_⟩
    rw [s.worker.size_of_waiting hwaiting]
  · exact Or.inr ⟨Bool.eq_false_iff.mpr hwaiting, h⟩

lemma turn_idle {env : Env} {s s' : Session} (hs : s.worker.Idle)
    (h : turn env s = .ok (.next s') ∨ turn env s = .ok (.done s')) : s'.worker.Idle := by
  rcases h with h | h
  · rcases turn_next_cases h with ⟨-, rfl⟩ | ⟨-, hpayload⟩
    · exact hs
    · exact (payloadTurn_next hpayload).2.2 hs
  · rw [turn] at h
    simp only at h
    split_ifs at h
    · cases h
      exact hs
    · cases h
    · rw [payloadTurn_done h]
      exact hs

/-- A session leaves the worker idle if it found it so. -/
lemma serve_idle {env : Env} {s s' : Session} (hs : s.worker.Idle) (h : serve env s = .ok s') :
    s'.worker.Idle := by
  induction hn : s.todo using Nat.strong_induction_on generalizing s with
  | _ n ih =>
      cases hturn : turn env s with
      | error e =>
          rw [serve_error hturn] at h
          cases h
      | ok r =>
          cases r with
          | done s₁ =>
              rw [serve_done hturn] at h
              cases h
              exact turn_idle hs (Or.inr hturn)
          | next s₁ =>
              rw [serve_next hturn] at h
              exact ih _ (hn ▸ todo_lt_of_next hturn) (turn_idle hs (Or.inl hturn)) h rfl

/-- **In every state of a session** the arguments are those of the last command that was
executed. -/
theorem ReachedFrom.argsOfLast {env : Env} {w : WorkerVars} {d : Disk} {input : List UInt8}
    {s : Session} (hreach : Session.ReachedFrom env (newSession w d input) s) : ArgsOfLast s := by
  induction hreach with
  | start => rfl
  | next _ hturn ih =>
      rcases turn_next_cases hturn with ⟨-, rfl⟩ | ⟨-, hpayload⟩
      · exact ih
      · exact argsOfLast_of_payloadTurn hpayload ih

end ColumnDb
