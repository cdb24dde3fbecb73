import ColumnDb.Session.Client
import ColumnDb.Session.Counting
import ColumnDb.Session.Rejected

/-!
Requests and responses on the socket (`worker.c`, `client.c`, `helper_socket.c`).

Whether a command has a response is decided on both sides: by the client from the first letters
of a line, and by the server from the match of `regexec`. `serverKind` is what the server makes
of a match, and a line agrees when that is what the client makes of the line.

* `serve_message`: a frame is read in two turns, and its payload is handled.
* `FaultsBefore`: the server comes to a turn that ends with a fault, before it has read more than
  one line and before it has answered that line.
* `line_answered`: the server takes the payloads of a line that agrees, and answers with exactly
  one frame when the client waits for one, and with nothing otherwise, or the line ends with such
  a fault.
* `Answered.clientReads`: the client then reads to each of its lines the response to that line,
  and leaves nothing on the socket.
* `lines_answered`: this holds of every session whose lines agree, up to its end or to the line
  that ends with a fault.

A `send` or `recv` that fails is left out: the process then ends, and with it the session.
-/

namespace ColumnDb

/-! ### Reading a frame -/

/-- A state that is reached goes on as the session does. -/
lemma serve_of_reached {env : Env} {s s' : Session} (h : Session.ReachedFrom env s s') :
    serve env s = serve env s' := by
  induction h with
  | start => rfl
  | next _ hturn ih => rw [ih, serve_next hturn]

lemma Session.ReachedFrom.trans {env : Env} {s s' s'' : Session}
    (h : Session.ReachedFrom env s s') (h' : Session.ReachedFrom env s' s'') :
    Session.ReachedFrom env s s'' := by
  induction h' with
  | start => exact h
  | next _ hturn ih => exact .next ih hturn

/-- The server comes to a turn that ends with a fault, while the bytes `rest` are still to be read
and before it has sent anything more. -/
def FaultsBefore (env : Env) (s : Session) (rest : List UInt8) : Prop :=
  ∃ u e, Session.ReachedFrom env s u ∧ turn env u = .error e ∧ rest <:+ u.input ∧ u.sent = s.sent

/-- A fault before some bytes is one before the last of them. -/
lemma FaultsBefore.mono {env : Env} {s : Session} {mid rest : List UInt8}
    (h : FaultsBefore env s mid) (hrest : rest <:+ mid) : FaultsBefore env s rest := by
  obtain ⟨u, e, hreach, hturn, hmid, hsent⟩ := h
  exact ⟨u, e, hreach, hturn, hrest.trans hmid, hsent⟩

/-- Such a session ends with the fault. -/
lemma FaultsBefore.ends {env : Env} {s : Session} {rest : List UInt8}
    (h : FaultsBefore env s rest) : ∃ e, serve env s = .error e := by
  obtain ⟨u, e, hreach, hturn, -, -⟩ := h
  exact ⟨e, (serve_of_reached hreach).trans (serve_error hturn)⟩

/-- The session after the length of a payload was read, with the rest of the input behind the
payload. -/
def Session.announced (s : Session) (data rest : List UInt8) : Session :=
  { s with
    buffer := bytesOfWord data.length ++ s.buffer.drop 4
    worker := s.worker.expect data.length
    input := rest }

section Message

variable {env : Env} {s : Session} {data rest : List UInt8}

variable (env) in
/-- The turn that reads a length. -/
lemma turn_length (hwaiting : s.worker.isWaitingForMeta = true)
    (hinput : s.input = safeSend data ++ rest) :
    turn env s = .ok (.next
      { s.announced (sentOf data) rest with input := sentOf data ++ rest }) := by
  have hfour := s.worker.size_of_waiting hwaiting
  have hlen : ¬ s.input.length < 4 := by
    rw [hinput, safeSend_eq]
    simp
  have htake : s.input.take 4 = bytesOfWord (sentOf data).length := by
    rw [hinput, safeSend_eq]
    rfl
  have hdrop : s.input.drop 4 = sentOf data ++ rest := by
    rw [hinput, safeSend_eq]
    rfl
  have hroom : ¬ maxCommandBufferSize < min 4 s.input.length := by
    have : maxCommandBufferSize = 65536 := rfl
    omega
  rw [turn, hfour]
  simp only [if_neg hroom, if_neg hlen, hwaiting, if_true, htake, hdrop]
  rw [wordOfBytes_bytesOfWord (length_sentOf_lt data)]
  rfl

variable (env) in
/-- The turn that reads the payload, when the buffer has room for it and its end. -/
lemma turn_payload (s : Session) (data rest : List UInt8) :
    turn env { s.announced data rest with input := data ++ rest }
      = if data.length < maxCommandBufferSize then payloadTurn env (s.announced data rest) data
        else .error .bounds := by
  have hsize : (s.announced data rest).worker.sizeExpected = data.length := rfl
  have hmeta : (s.announced data rest).worker.isWaitingForMeta = false := rfl
  have hlen : ¬ (data ++ rest).length < data.length := by simp
  have hmin : min data.length (data ++ rest).length = data.length := by simp
  rw [turn]
  simp only [hsize, hmeta, hmin, if_neg hlen, List.take_left', List.drop_left',
    Bool.false_eq_true, if_false]
  by_cases hover : maxCommandBufferSize < data.length
  · rw [if_pos hover, if_neg (by omega)]
  · rw [if_neg hover]
    by_cases hfull : data.length = maxCommandBufferSize
    · rw [if_pos hfull, if_neg (by omega)]
    · rw [if_neg hfull, if_pos (by omega)]
      rfl

variable (env) in
/-- **A frame** is read in two turns: its payload is handled, or the second turn ends with a
fault. -/
theorem serve_message (hwaiting : s.worker.isWaitingForMeta = true)
    (hinput : s.input = safeSend data ++ rest) :
    FaultsBefore env s rest ∨
      ∃ s', payloadTurn env (s.announced (sentOf data) rest) (sentOf data) = .ok s' ∧
        ∀ t, s' = .next t → Session.ReachedFrom env s t := by
  have hlength := turn_length env hwaiting hinput
  have hpayload := turn_payload env s (sentOf data) rest
  have hreach := Session.ReachedFrom.next .start hlength
  have hrest : rest <:+ sentOf data ++ rest := List.suffix_append _ _
  split_ifs at hpayload
  · cases hturn : payloadTurn env (s.announced (sentOf data) rest) (sentOf data) with
    | error e => exact Or.inl ⟨_, e, hreach, hpayload.trans hturn, hrest, rfl⟩
    | ok r =>
        refine Or.inr ⟨r, rfl, fun t ht => ?_⟩
        exact .next hreach (by rw [hpayload, hturn, ht])
  · exact Or.inl ⟨_, .bounds, hreach, hpayload, hrest, rfl⟩

/-- A frame that the buffer has room for, with a payload after which the session goes on. -/
lemma reached_message (data rest : List UInt8) {t : Session}
    (hroom : data.length < maxCommandBufferSize) (hwaiting : s.worker.isWaitingForMeta = true)
    (hinput : s.input = safeSend data ++ rest)
    (hturn : payloadTurn env (s.announced data rest) data = .ok (.next t)) :
    Session.ReachedFrom env s t := by
  have hsent : sentOf data = data := by
    have hlt : data.length < 2 ^ 32 := hroom.trans (by decide)
    rw [sentOf, Nat.mod_eq_of_lt hlt, List.take_length]
  have hlength := turn_length env hwaiting hinput
  rw [hsent] at hlength
  refine .next (.next .start hlength) ?_
  rw [turn_payload, if_pos hroom, hturn]

end Message

/-! ### What the server makes of a match -/

/-- What the server makes of a match: what it reads next, and whether it answers. -/
def serverKind (args : InputArgs) : LineKind :=
  match args.command with
  | .load => .load (uintArg args.argTwo)
  | .tuple => .tuple
  | .delete => .delete
  | .insert => .insert
  | .fetch => if args.var = "" then .fetch else .other
  | _ => .other

/-- The text of the line is matched, and as the kind of command that the client takes the line
for. -/
structure ClientLine.Agrees (env : Env) (line : ClientLine) : Prop where
  goes_on : endsSession (commandText (sentOf line.text)) = false
  kind : (env.regexec (commandText (sentOf line.text))).map serverKind = some line.kind

/-- The worker waits for a length, with no payload announced and no row of a LOAD counted. -/
structure WorkerVars.Ready (w : WorkerVars) : Prop where
  command : w.AwaitsCommand
  waiting : w.isWaitingForMeta = true
  idle : w.curRow = 0

/-- A worker that is ready takes the payload after the next length as a command. -/
lemma WorkerVars.Ready.announced {s : Session} (h : s.worker.Ready) (data rest : List UInt8) :
    (s.announced data rest).worker.AwaitsCommand :=
  ⟨h.command.isLoading, h.command.isTuple, h.command.isInsert, h.command.isDelete⟩

/-- A matched command sends values exactly when it is a FETCH without a variable. -/
lemma runCall_reply {d d' : Disk} {vars vars' : Vars} {hasVar : Bool} {args : InputArgs}
    {reply : Option (List ℤ)} (h : runCall d vars hasVar args = .ok (d', vars', reply)) :
    reply.isSome = true ↔ args.command = .fetch ∧ hasVar = false := by
  rw [runCall] at h
  cases hcommand : args.command with
  | load | tuple | insert | delete =>
      simp only [hcommand] at h
      cases h
      simp
  | fetch =>
      simp only [hcommand] at h
      split_ifs at h with hvar
      · obtain ⟨a, -, h⟩ := Outcome.bind_eq_ok.mp h
        cases h
        simp [hvar]
      · obtain ⟨a, -, h⟩ := Outcome.bind_eq_ok.mp h
        cases h
        simpa using hvar
  | _ =>
      simp only [hcommand] at h
      obtain ⟨a, -, h⟩ := Outcome.bind_eq_ok.mp h
      cases h
      simp

lemma runCall_reply_iff_kind {d d' : Disk} {vars vars' : Vars} {args : InputArgs}
    {reply : Option (List ℤ)}
    (h : runCall d vars (args.var ≠ "") args = .ok (d', vars', reply)) :
    reply.isSome = true ↔ serverKind args = .fetch := by
  rw [runCall_reply h, serverKind]
  cases args.command with
  | fetch => by_cases hvar : args.var = "" <;> simp [hvar]
  | _ => simp

/-- What the worker waits for after a command of each kind. -/
def WorkerVars.AfterKind (w : WorkerVars) : LineKind → Prop
  | .load rows => w.isLoading = true ∧ w.rowSize = rows ∧ w.curRow = 0 ∧ w.isTuple = false ∧
      w.isInsert = false ∧ w.isDelete = false
  | .tuple => w.isLoading = false ∧ w.curRow = 0 ∧ w.isTuple = true ∧ w.isInsert = false ∧
      w.isDelete = false
  | .insert => w.isLoading = false ∧ w.curRow = 0 ∧ w.isTuple = false ∧ w.isInsert = true ∧
      w.isDelete = false
  | .delete => w.isLoading = false ∧ w.curRow = 0 ∧ w.isTuple = false ∧ w.isInsert = false ∧
      w.isDelete = true
  | .fetch | .other => w.isLoading = false ∧ w.curRow = 0 ∧ w.isTuple = false ∧
      w.isInsert = false ∧ w.isDelete = false

lemma announce_afterKind {w w' : WorkerVars} {args : InputArgs} (hw : w.Ready)
    (h : announce w args = .ok w') :
    w'.isWaitingForMeta = true ∧ w'.AfterKind (serverKind args) := by
  obtain ⟨⟨hloading, htuple, hinsert, hdelete⟩, hwaiting, hidle⟩ := hw
  refine ⟨(announce_ok h).1.trans hwaiting, ?_⟩
  rw [announce] at h
  rw [serverKind]
  cases hcommand : args.command with
  | load =>
      simp only [hcommand] at h
      cases h
      exact ⟨rfl, rfl, hidle, htuple, hinsert, hdelete⟩
  | tuple =>
      simp only [hcommand] at h
      split_ifs at h
      cases h
      exact ⟨hloading, hidle, rfl, hinsert, hdelete⟩
  | insert =>
      simp only [hcommand] at h
      split_ifs at h
      cases h
      exact ⟨hloading, hidle, htuple, rfl, hdelete⟩
  | delete =>
      simp only [hcommand] at h
      split_ifs at h
      cases h
      exact ⟨hloading, hidle, htuple, hinsert, rfl⟩
  | fetch =>
      simp only [hcommand] at h
      cases h
      split_ifs <;> exact ⟨hloading, hidle, htuple, hinsert, hdelete⟩
  | _ =>
      simp only [hcommand] at h
      cases h
      exact ⟨hloading, hidle, htuple, hinsert, hdelete⟩

/-- The bytes of an answer. -/
def answerBytes (answer : Option (List UInt8)) : List UInt8 := answer.elim [] safeSend

/-- The server has taken the bytes of `s` up to `rest`, with `answer` as all that it sent. -/
structure Takes (env : Env) (s : Session) (rest : List UInt8) (answer : Option (List UInt8))
    (t : Session) : Prop where
  reached : Session.ReachedFrom env s t
  waiting : t.worker.isWaitingForMeta = true
  input : t.input = rest
  sent : t.sent = s.sent ++ answerBytes answer

/-- **The text of a line**: the server waits for the payloads of the line's kind, and it has
answered if the line is a FETCH. -/
theorem text_taken {env : Env} {s : Session} (hready : s.worker.Ready) {line : ClientLine}
    (hagrees : line.Agrees env) {rest : List UInt8}
    (hinput : s.input = safeSend line.text ++ rest) :
    FaultsBefore env s rest ∨
      ∃ t answer, Takes env s rest answer t ∧ t.worker.AfterKind line.kind ∧
        (answer.isSome = true ↔ line.kind = .fetch) := by
  rcases serve_message env hready.waiting hinput with he | ⟨r, hturn, hreach⟩
  · exact Or.inl he
  have hcommand := hready.announced (sentOf line.text) rest
  rw [payloadTurn_of_awaitsCommand hcommand, hagrees.goes_on, if_neg Bool.false_ne_true] at hturn
  obtain ⟨t, hmatch, rfl⟩ := Outcome.map_eq_ok.mp hturn
  obtain ⟨found, hfound, hdispatch⟩ := Outcome.bind_eq_ok.mp hmatch
  have hkind := hagrees.kind
  rw [matchRegex] at hfound
  cases hargs : env.regexec (commandText (sentOf line.text)) with
  | none =>
      rw [hargs] at hkind
      cases hkind
  | some args =>
      rw [hargs, Option.map_some, Option.some.injEq] at hkind
      simp only [hargs] at hfound
      split_ifs at hfound
      cases hfound
      obtain ⟨args', worker, d, vars, reply, hargs', hannounce, hrun, rfl⟩ :=
        dispatch_ok hdispatch
      cases hargs'
      have hw : ((receive (s.announced (sentOf line.text) rest)
          (sentOf line.text)).matched args).worker.Ready :=
        ⟨⟨hcommand.isLoading, hcommand.isTuple, hcommand.isInsert, hcommand.isDelete⟩, rfl,
          hready.idle⟩
      obtain ⟨hwaiting, hafter⟩ := announce_afterKind hw hannounce
      refine Or.inr ⟨_, reply.map bytesOfInts, ⟨hreach _ rfl, hwaiting, rfl, ?_⟩,
        hkind ▸ hafter, ?_⟩
      · cases reply <;> rfl
      · rw [Option.isSome_map, runCall_reply_iff_kind hrun, hkind]

/-! ### The payloads of a line -/

section Payloads

variable {env : Env} {s : Session} {data rest : List UInt8}

/-- A payload that was announced is handled in one turn, by the work of its mode. -/
lemma payload_taken (hwaiting : s.worker.isWaitingForMeta = true)
    (hinput : s.input = safeSend data ++ rest) {work : Session → Outcome Session}
    (hwork : payloadTurn env (s.announced (sentOf data) rest) (sentOf data)
      = (work (receive (s.announced (sentOf data) rest) (sentOf data))).map .next) :
    FaultsBefore env s rest ∨
      ∃ t, work (receive (s.announced (sentOf data) rest) (sentOf data)) = .ok t ∧
        Session.ReachedFrom env s t := by
  rcases serve_message env hwaiting hinput with he | ⟨r, hturn, hreach⟩
  · exact Or.inl he
  · rw [hwork] at hturn
    obtain ⟨t, ht, rfl⟩ := Outcome.map_eq_ok.mp hturn
    exact Or.inr ⟨t, ht, hreach t rfl⟩

lemma Takes.sent_none {env : Env} {s t : Session} {rest : List UInt8}
    (h : Takes env s rest none t) : t.sent = s.sent := by
  rw [h.sent, answerBytes, Option.elim_none, List.append_nil]

/-- A fault after something was taken without an answer. -/
lemma Takes.faults {env : Env} {s t : Session} {mid rest : List UInt8}
    (h : Takes env s mid none t) (h' : FaultsBefore env t rest) : FaultsBefore env s rest := by
  obtain ⟨u, e, hreach, hturn, hrest, hsent⟩ := h'
  exact ⟨u, e, h.reached.trans hreach, hturn, hrest, hsent.trans h.sent_none⟩

/-- What was taken without an answer comes before what is taken next. -/
lemma Takes.trans {env : Env} {s t u : Session} {mid rest : List UInt8}
    {answer : Option (List UInt8)} (h : Takes env s mid none t) (h' : Takes env t rest answer u) :
    Takes env s rest answer u where
  reached := h.reached.trans h'.reached
  waiting := h'.waiting
  input := h'.input
  sent := by rw [h'.sent, h.sent_none]

/-- The payload of a TUPLE is answered. -/
lemma tuple_taken (hwaiting : s.worker.isWaitingForMeta = true)
    (hafter : s.worker.AfterKind .tuple) (hinput : s.input = safeSend data ++ rest) :
    FaultsBefore env s rest ∨
      ∃ t vals, Takes env s rest (some (bytesOfInts vals)) t ∧ t.worker.Ready := by
  obtain ⟨hloading, hidle, htuple, hinsert, hdelete⟩ := hafter
  have hwork : payloadTurn env (s.announced (sentOf data) rest) (sentOf data)
      = (tupleWorkTurn env (receive (s.announced (sentOf data) rest) (sentOf data))).map .next := by
    have h1 : (receive (s.announced (sentOf data) rest) (sentOf data)).worker.isLoading = false :=
      hloading
    have h2 : (receive (s.announced (sentOf data) rest) (sentOf data)).worker.isTuple = true :=
      htuple
    rw [payloadTurn]
    simp only [h1, h2, Bool.false_eq_true, if_false, if_true]
    rfl
  rcases payload_taken hwaiting hinput hwork with he | ⟨t, ht, hreach⟩
  · exact Or.inl he
  rw [tupleWorkTurn] at ht
  split_ifs at ht
  obtain ⟨names, -, ht⟩ := Outcome.bind_eq_ok.mp ht
  obtain ⟨d, vars, reply, hrun, rfl⟩ := runStep_ok ht
  obtain ⟨vals, -, hrun⟩ := Outcome.bind_eq_ok.mp hrun
  cases hrun
  exact Or.inr ⟨_, vals, ⟨hreach, rfl, rfl, rfl⟩, ⟨hloading, rfl, hinsert, hdelete⟩, rfl, hidle⟩

/-- The payload of an INSERT is not answered. -/
lemma insert_taken (hwaiting : s.worker.isWaitingForMeta = true)
    (hafter : s.worker.AfterKind .insert) (hinput : s.input = safeSend data ++ rest) :
    FaultsBefore env s rest ∨ ∃ t, Takes env s rest none t ∧ t.worker.Ready := by
  obtain ⟨hloading, hidle, htuple, hinsert, hdelete⟩ := hafter
  have hwork : payloadTurn env (s.announced (sentOf data) rest) (sentOf data)
      = (insertWorkTurn env (receive (s.announced (sentOf data) rest) (sentOf data))).map
        .next := by
    have h1 : (receive (s.announced (sentOf data) rest) (sentOf data)).worker.isLoading = false :=
      hloading
    have h2 : (receive (s.announced (sentOf data) rest) (sentOf data)).worker.isTuple = false :=
      htuple
    have h3 : (receive (s.announced (sentOf data) rest) (sentOf data)).worker.isInsert = true :=
      hinsert
    rw [payloadTurn]
    simp only [h1, h2, h3, Bool.false_eq_true, if_false, if_true]
    rfl
  rcases payload_taken hwaiting hinput hwork with he | ⟨t, ht, hreach⟩
  · exact Or.inl he
  rw [insertWorkTurn] at ht
  split_ifs at ht
  obtain ⟨vals, -, ht⟩ := Outcome.bind_eq_ok.mp ht
  obtain ⟨d, vars, reply, hrun, rfl⟩ := runStep_ok ht
  obtain ⟨d', -, hrun⟩ := Outcome.bind_eq_ok.mp hrun
  cases hrun
  exact Or.inr ⟨_, ⟨hreach, rfl, rfl, rfl⟩, ⟨hloading, htuple, rfl, hdelete⟩, rfl, hidle⟩

/-- The payload of a DELETE is not answered. -/
lemma delete_taken (hwaiting : s.worker.isWaitingForMeta = true)
    (hafter : s.worker.AfterKind .delete) (hinput : s.input = safeSend data ++ rest) :
    FaultsBefore env s rest ∨ ∃ t, Takes env s rest none t ∧ t.worker.Ready := by
  obtain ⟨hloading, hidle, htuple, hinsert, hdelete⟩ := hafter
  have hwork : payloadTurn env (s.announced (sentOf data) rest) (sentOf data)
      = (deleteWorkTurn env (receive (s.announced (sentOf data) rest) (sentOf data))).map
        .next := by
    have h1 : (receive (s.announced (sentOf data) rest) (sentOf data)).worker.isLoading = false :=
      hloading
    have h2 : (receive (s.announced (sentOf data) rest) (sentOf data)).worker.isTuple = false :=
      htuple
    have h3 : (receive (s.announced (sentOf data) rest) (sentOf data)).worker.isInsert = false :=
      hinsert
    have h4 : (receive (s.announced (sentOf data) rest) (sentOf data)).worker.isDelete = true :=
      hdelete
    rw [payloadTurn]
    simp only [h1, h2, h3, h4, Bool.false_eq_true, if_false, if_true]
    rfl
  rcases payload_taken hwaiting hinput hwork with he | ⟨t, ht, hreach⟩
  · exact Or.inl he
  obtain ⟨var, -, ht⟩ := Outcome.bind_eq_ok.mp ht
  obtain ⟨colNames, -, ht⟩ := Outcome.bind_eq_ok.mp ht
  obtain ⟨d, vars, reply, hrun, rfl⟩ := runStep_ok ht
  obtain ⟨posVar, -, hrun⟩ := Outcome.bind_eq_ok.mp hrun
  obtain ⟨pos, -, hrun⟩ := Outcome.bind_eq_ok.mp hrun
  obtain ⟨d', -, hrun⟩ := Outcome.bind_eq_ok.mp hrun
  cases hrun
  exact Or.inr ⟨_, ⟨hreach, rfl, rfl, rfl⟩, ⟨hloading, htuple, hinsert, rfl⟩, rfl, hidle⟩

/-- The worker is in a LOAD of `rows` rows and expects the payload `row`. -/
def WorkerVars.InLoad (w : WorkerVars) (rows row : ℕ) : Prop :=
  w.isLoading = true ∧ w.rowSize = rows ∧ w.curRow = row ∧ w.isTuple = false ∧
    w.isInsert = false ∧ w.isDelete = false

/-- A payload of a LOAD is not answered: the load goes on with the next row, or it is over after
the last one. -/
lemma load_taken {rows row : ℕ} (hwaiting : s.worker.isWaitingForMeta = true)
    (hload : s.worker.InLoad rows row) (hrow : row ≤ rows)
    (hinput : s.input = safeSend data ++ rest) :
    FaultsBefore env s rest ∨
      ∃ t, Takes env s rest none t ∧
        (row < rows ∧ t.worker.InLoad rows (row + 1) ∨ row = rows ∧ t.worker.Ready) := by
  obtain ⟨hloading, hrows, hcur, htuple, hinsert, hdelete⟩ := hload
  have hwork : payloadTurn env (s.announced (sentOf data) rest) (sentOf data)
      = (loadTurn env (receive (s.announced (sentOf data) rest) (sentOf data))).map .next := by
    have h1 : (receive (s.announced (sentOf data) rest) (sentOf data)).worker.isLoading = true :=
      hloading
    rw [payloadTurn]
    simp only [h1, if_true]
    rfl
  rcases payload_taken hwaiting hinput hwork with he | ⟨t, ht, hreach⟩
  · exact Or.inl he
  set s₁ := receive (s.announced (sentOf data) rest) (sentOf data) with hs₁
  have hrows₁ : s₁.worker.rowSize = rows := hrows
  have hcur₁ : s₁.worker.curRow = row := hcur
  rw [loadTurn] at ht
  simp only [hrows₁, hcur₁] at ht
  split_ifs at ht with hsize hnames hint hnext
  · obtain ⟨names, -, ht⟩ := Outcome.bind_eq_ok.mp ht
    cases ht
    have hpos : row < rows := by omega
    refine Or.inr ⟨_, ⟨hreach, rfl, rfl, ?_⟩, Or.inl ⟨hpos, hloading, rfl, ?_, htuple, hinsert,
      hdelete⟩⟩
    · exact (List.append_nil _).symm
    · rw [hnames]
  · obtain ⟨block, -, ht⟩ := Outcome.bind_eq_ok.mp ht
    cases ht
    refine Or.inr ⟨_, ⟨hreach, rfl, rfl, ?_⟩, Or.inl ⟨hnext, hloading, rfl, rfl, htuple, hinsert,
      hdelete⟩⟩
    exact (List.append_nil _).symm
  · obtain ⟨block, -, ht⟩ := Outcome.bind_eq_ok.mp ht
    obtain ⟨colNames, -, ht⟩ := Outcome.bind_eq_ok.mp ht
    obtain ⟨d, vars, reply, hrun, rfl⟩ := runStep_ok ht
    obtain ⟨d', -, hrun⟩ := Outcome.bind_eq_ok.mp hrun
    cases hrun
    exact Or.inr ⟨_, ⟨hreach, rfl, rfl, rfl⟩,
      Or.inr ⟨by omega, ⟨rfl, htuple, hinsert, hdelete⟩, rfl, rfl⟩⟩
  · obtain ⟨block, -, ht⟩ := Outcome.bind_eq_ok.mp ht
    cases ht

/-- **The payloads of a LOAD** from the payload `row` on are taken one after the other. -/
theorem loads_taken {rows : ℕ} (datas : List (List UInt8)) :
    ∀ {s : Session} {row : ℕ}, s.worker.isWaitingForMeta = true → s.worker.InLoad rows row →
      row + datas.length = rows + 1 → row ≤ rows →
      s.input = datas.flatMap safeSend ++ rest →
      FaultsBefore env s rest ∨ ∃ t, Takes env s rest none t ∧ t.worker.Ready := by
  induction datas with
  | nil =>
      intro s row _ _ hlen hrow _
      rw [List.length_nil] at hlen
      omega
  | cons data datas ih =>
      intro s row hwaiting hload hlen hrow hinput
      rw [List.length_cons] at hlen
      rw [List.flatMap_cons, List.append_assoc] at hinput
      rcases load_taken hwaiting hload hrow hinput with
        he | ⟨t, ht, ⟨hnext, hin⟩ | ⟨hlast, hready⟩⟩
      · exact Or.inl (he.mono (List.suffix_append _ _))
      · rcases ih ht.waiting hin (by omega) hnext ht.input with he | ⟨u, hu, hready⟩
        · exact Or.inl (ht.faults he)
        · exact Or.inr ⟨u, ht.trans hu, hready⟩
      · obtain rfl : datas = [] := List.length_eq_zero_iff.mp (by omega)
        exact Or.inr ⟨t, ht, hready⟩

end Payloads

/-! ### A line and its answer -/

/-- **A line that agrees** is answered by exactly one frame when the client waits for one, and by
nothing otherwise, and the server then waits for the next command. -/
theorem line_answered {env : Env} {s : Session} (hready : s.worker.Ready) {line : ClientLine}
    (hpayloads : line.payloads.length = line.kind.payloads) (hagrees : line.Agrees env)
    {rest : List UInt8} (hinput : s.input = line.bytes ++ rest) :
    FaultsBefore env s rest ∨
      ∃ t answer, Takes env s rest answer t ∧ t.worker.Ready ∧ answer.isSome = line.waits := by
  rw [ClientLine.bytes, List.flatMap_cons, List.append_assoc] at hinput
  rcases text_taken hready hagrees hinput with he | ⟨t, answer, ht, hafter, hanswer⟩
  · exact Or.inl (he.mono (List.suffix_append _ _))
  have hnone : line.kind ≠ .fetch → answer = none := fun hkind =>
    Option.not_isSome_iff_eq_none.mp (mt hanswer.mp hkind)
  -- a line with a single payload after its text
  have hsingle : line.payloads.length = 1 →
      ∃ data, t.input = safeSend data ++ rest := by
    intro hlen
    obtain ⟨data, hdata⟩ := List.length_eq_one_iff.mp hlen
    exact ⟨data, by rw [ht.input, hdata, List.flatMap_singleton]⟩
  cases hkind : line.kind with
  | load rows =>
      rw [hkind] at hafter hpayloads hanswer
      obtain rfl := hnone (by rw [hkind]; simp)
      obtain ⟨hloading, hrows, hcur, hflags⟩ := hafter
      rcases loads_taken line.payloads ht.waiting ⟨hloading, hrows, hcur, hflags⟩
        (by rw [hpayloads]; simp [LineKind.payloads]) (Nat.zero_le _) ht.input with
        he | ⟨u, hu, hready⟩
      · exact Or.inl (ht.faults he)
      · exact Or.inr ⟨u, none, ht.trans hu, hready, by simp [ClientLine.waits, hkind]⟩
  | tuple =>
      rw [hkind] at hafter
      obtain rfl := hnone (by rw [hkind]; simp)
      obtain ⟨data, hdata⟩ := hsingle (by rw [hpayloads, hkind]; rfl)
      rcases tuple_taken ht.waiting hafter hdata with he | ⟨u, vals, hu, hready⟩
      · exact Or.inl (ht.faults he)
      · exact Or.inr ⟨u, _, ht.trans hu, hready, by simp [ClientLine.waits, hkind]⟩
  | insert =>
      rw [hkind] at hafter
      obtain rfl := hnone (by rw [hkind]; simp)
      obtain ⟨data, hdata⟩ := hsingle (by rw [hpayloads, hkind]; rfl)
      rcases insert_taken ht.waiting hafter hdata with he | ⟨u, hu, hready⟩
      · exact Or.inl (ht.faults he)
      · exact Or.inr ⟨u, none, ht.trans hu, hready, by simp [ClientLine.waits, hkind]⟩
  | delete =>
      rw [hkind] at hafter
      obtain rfl := hnone (by rw [hkind]; simp)
      obtain ⟨data, hdata⟩ := hsingle (by rw [hpayloads, hkind]; rfl)
      rcases delete_taken ht.waiting hafter hdata with he | ⟨u, hu, hready⟩
      · exact Or.inl (ht.faults he)
      · exact Or.inr ⟨u, none, ht.trans hu, hready, by simp [ClientLine.waits, hkind]⟩
  | fetch | other =>
      rw [hkind] at hafter hpayloads hanswer
      obtain ⟨hloading, hcur, htuple, hinsert, hdelete⟩ := hafter
      have hnil : line.payloads = [] := List.length_eq_zero_iff.mp hpayloads
      rw [hnil] at ht
      refine Or.inr ⟨t, answer, ht, ⟨⟨hloading, htuple, hinsert, hdelete⟩, ht.waiting, hcur⟩, ?_⟩
      cases answer <;> simp_all [ClientLine.waits]

/-! ### A session -/

/-- The server has taken line after line, with the answer to each. -/
inductive Answered (env : Env) : List ClientLine → Session → List (Option (List UInt8)) →
    Session → Prop where
  | nil (s : Session) : Answered env [] s [] s
  | cons {line : ClientLine} {lines : List ClientLine} {s t u : Session} {rest : List UInt8}
      {answer : Option (List UInt8)} {answers : List (Option (List UInt8))}
      (hline : s.input = line.bytes ++ rest) (htakes : Takes env s rest answer t)
      (hwaits : answer.isSome = line.waits) (hlines : Answered env lines t answers u) :
      Answered env (line :: lines) s (answer :: answers) u

namespace Answered

variable {env : Env} {lines : List ClientLine} {s t : Session}
  {answers : List (Option (List UInt8))}

/-- What was sent are the answers, one after the other. -/
lemma sent (h : Answered env lines s answers t) :
    t.sent = s.sent ++ answers.flatMap answerBytes := by
  induction h with
  | nil s => simp
  | cons _ htakes _ _ ih =>
      rw [ih, htakes.sent, List.flatMap_cons, List.append_assoc]

lemma reached (h : Answered env lines s answers t) : Session.ReachedFrom env s t := by
  induction h with
  | nil s => exact .start
  | cons _ htakes _ _ ih => exact htakes.reached.trans ih

/-- **What the client reads** are the answers, each to its own line, and nothing is left. -/
theorem clientReads (h : Answered env lines s answers t) :
    clientReads lines (answers.flatMap answerBytes)
      = some (answers.map (Option.map sentOf), []) := by
  induction h with
  | nil s => rfl
  | @cons line lines s t u rest answer answers _ _ hwaits _ ih =>
      rw [ColumnDb.clientReads, List.flatMap_cons]
      cases answer with
      | none =>
          rw [← hwaits]
          simp only [Option.isSome_none, Bool.false_eq_true, if_false, answerBytes,
            Option.elim_none, List.nil_append, ih]
          rfl
      | some data =>
          rw [← hwaits]
          simp only [Option.isSome_some, if_true, answerBytes, Option.elim_some,
            readFrame_safeSend]
          simp only [Option.bind_eq_bind, Option.bind_some]
          rw [ih]
          rfl

end Answered

/-- Lines that agree are answered, up to a line on which the server comes to a fault. -/
lemma lines_answered {env : Env} (lines : List ClientLine)
    (hpayloads : ∀ line ∈ lines, line.payloads.length = line.kind.payloads)
    (hagrees : ∀ line ∈ lines, line.Agrees env) :
    ∀ {s : Session}, s.worker.Ready → s.input = lines.flatMap ClientLine.bytes →
      ∃ pre post answers t, lines = pre ++ post ∧ Answered env pre s answers t ∧
        (post = [] ∧ serve env s = .ok t ∨ ∃ line more, post = line :: more ∧
          FaultsBefore env t (more.flatMap ClientLine.bytes)) := by
  induction lines with
  | nil =>
      intro s hready hinput
      refine ⟨[], [], [], s, rfl, .nil s, Or.inl ⟨rfl, serve_done ?_⟩⟩
      have hfour := s.worker.size_of_waiting hready.waiting
      rw [turn, hfour, hinput]
      rfl
  | cons line lines ih =>
      intro s hready hinput
      rw [List.flatMap_cons] at hinput
      rcases line_answered hready (hpayloads line List.mem_cons_self)
        (hagrees line List.mem_cons_self) hinput with he | ⟨t, answer, ht, hready', hwaits⟩
      · exact ⟨[], line :: lines, [], s, rfl, .nil s, Or.inr ⟨line, lines, rfl, he⟩⟩
      · obtain ⟨pre, post, answers, u, hsplit, hanswered, hend⟩ :=
          ih (fun l hl => hpayloads l (List.mem_cons_of_mem _ hl))
            (fun l hl => hagrees l (List.mem_cons_of_mem _ hl)) hready' ht.input
        refine ⟨line :: pre, post, answer :: answers, u, by rw [hsplit]; rfl,
          .cons hinput ht hwaits hanswered, ?_⟩
        rw [serve_of_reached ht.reached]
        exact hend

/-- **A session whose lines agree**: the server answers line after line, until the lines are
over or it comes to a fault on one of them, to which it then has sent nothing. All that it has sent
is the answers, the client reads to each line its own answer, and nothing is left on the socket. -/
theorem session_answered (env : Env) (files : String → Option LoadFile) (w : WorkerVars)
    (hready : w.Ready) (d : Disk) (texts : List (List UInt8)) (lines : List ClientLine)
    (hlines : clientLines files texts = .ok lines) (hagrees : ∀ line ∈ lines, line.Agrees env) :
    ∃ pre post answers t, lines = pre ++ post ∧
      Answered env pre (newSession w d (lines.flatMap ClientLine.bytes)) answers t ∧
      clientReads pre t.sent = some (answers.map (Option.map sentOf), []) ∧
      (post = [] ∧ serve env (newSession w d (lines.flatMap ClientLine.bytes)) = .ok t ∨
        ∃ line more, post = line :: more ∧
          FaultsBefore env t (more.flatMap ClientLine.bytes)) := by
  obtain ⟨pre, post, answers, t, hsplit, hanswered, hend⟩ :=
    lines_answered (s := newSession w d (lines.flatMap ClientLine.bytes)) lines
      (clientLines_payloads hlines) hagrees hready rfl
  refine ⟨pre, post, answers, t, hsplit, hanswered, ?_, hend⟩
  have hsent : t.sent = answers.flatMap answerBytes := hanswered.sent
  rw [hsent]
  exact hanswered.clientReads

/-- A line without payloads and without a response. -/
def plainLine (text : String) : ClientLine where
  kind := .other
  text := bytesOfText text
  payloads := []

/-- `fetch(a,s)`. -/
def fetchS : InputArgs :=
  { var := "", command := .fetch, argOne := "a", argTwo := "s", argThree := "" }

/-- `regexec` on the lines of a session that selects rows and fetches them. -/
def fetchEnv : Env where
  regexec := fun text =>
    if text = "s=select(a,5)\n" then some selectFive
    else if text = "fetch(a,s)\n" then some fetchS else none
  node := Node.zero

/-- The lines of this session. -/
def fetchLines : List ClientLine :=
  [plainLine "s=select(a,5)\n",
    { kind := .fetch, text := bytesOfText "fetch(a,s)\n", payloads := [] }]

/-- The session over a column of the row `5`. -/
def fetchSession : Session :=
  newSession .start oneRowDisk (fetchLines.flatMap ClientLine.bytes)

/-- The session after the SELECT. -/
def selectServed : Session :=
  { newSession { WorkerVars.start with hasVar := true } oneRowDisk
      (safeSend (bytesOfText "fetch(a,s)\n")) with
    vars := varsOfFive
    args := some selectFive
    buffer := bytesOfText "s=select(a,5)\n" ++ [0]
    executed := [selectFive] }

/-- The session after the FETCH. -/
def fetchServed : Session :=
  { newSession .start oneRowDisk [] with
    vars := varsOfFive
    args := some fetchS
    buffer := bytesOfText "fetch(a,s)\n" ++ [0] ++ bytesOfText ")\n" ++ [0]
    sent := safeSend (bytesOfInts [5])
    executed := [selectFive, fetchS] }

lemma serve_fetchSession : serve fetchEnv fetchSession = .ok fetchServed := by
  have hselect : commandText (bytesOfText "s=select(a,5)\n") = "s=select(a,5)\n" := by decide
  have hfetch : commandText (bytesOfText "fetch(a,s)\n") = "fetch(a,s)\n" := by decide
  have hfirst : Session.ReachedFrom fetchEnv fetchSession selectServed := by
    refine reached_message (bytesOfText "s=select(a,5)\n") (safeSend (bytesOfText "fetch(a,s)\n"))
      (by decide) rfl rfl ?_
    rw [payloadTurn_of_awaitsCommand ⟨rfl, rfl, rfl, rfl⟩, hselect]
    rfl
  have hsecond : Session.ReachedFrom fetchEnv selectServed fetchServed := by
    refine reached_message (bytesOfText "fetch(a,s)\n") [] (by decide) rfl rfl ?_
    rw [payloadTurn_of_awaitsCommand ⟨rfl, rfl, rfl, rfl⟩, hfetch]
    rfl
  rw [serve_of_reached (hfirst.trans hsecond)]
  exact serve_done rfl

/-- `session_answered` for a SELECT and a FETCH: both are served, and the client reads the value `5`
to the second one. -/
theorem fetchLines_answered :
    serve fetchEnv fetchSession = .ok fetchServed ∧
      ∃ answers, Answered fetchEnv fetchLines fetchSession answers fetchServed ∧
        answers.map (Option.map sentOf) = [none, some (bytesOfInts [5])] ∧
        clientReads fetchLines fetchServed.sent = some ([none, some (bytesOfInts [5])], []) := by
  have hagrees : ∀ line ∈ fetchLines, line.Agrees fetchEnv := by
    intro line hline
    rcases List.mem_cons.mp hline with rfl | hline
    · exact ⟨by decide, by decide⟩
    · obtain rfl := List.mem_singleton.mp hline
      exact ⟨by decide, by decide⟩
  have hreads : clientReads fetchLines fetchServed.sent
      = some ([none, some (bytesOfInts [5])], []) := rfl
  obtain ⟨pre, post, answers, t, hsplit, hanswered, hclient, ⟨rfl, hserve⟩ | ⟨line, more, -, he⟩⟩ :=
    session_answered fetchEnv (fun _ => none) .start ⟨⟨rfl, rfl, rfl, rfl⟩, rfl, rfl⟩ oneRowDisk
      [bytesOfText "s=select(a,5)\n", bytesOfText "fetch(a,s)\n"] fetchLines rfl hagrees
  · obtain rfl : fetchLines = pre := hsplit.trans (List.append_nil pre)
    obtain rfl := Except.ok.inj (serve_fetchSession.symm.trans hserve)
    rw [hreads, Option.some.injEq, Prod.mk.injEq] at hclient
    exact ⟨serve_fetchSession, answers, hanswered, hclient.1.symm, hreads⟩
  · obtain ⟨e, he⟩ := he.ends
    have hreached : Session.ReachedFrom fetchEnv fetchSession t := hanswered.reached
    rw [← serve_of_reached hreached, serve_fetchSession] at he
    cases he

/-! ### A line that is rejected -/

/-- The arguments of the command that the session below sends first. -/
def createLineArgs : InputArgs :=
  { var := "", command := .create, argOne := "a", argTwo := "unsorted", argThree := "" }

/-- `regexec` on its lines. -/
def lineEnv : Env where
  regexec := fun text =>
    if text = "create(a,unsorted)\n" then some createLineArgs else none
  node := Node.zero

/-- The lines of a session in which the second line is rejected. -/
def rejectedLines : List ClientLine := [plainLine "create(a,unsorted)\n", plainLine "foo(a)\n"]

/-- The columns after `create(a,unsorted)`. -/
def lineCreatedDisk (d : Disk) : Disk :=
  Function.update d "a" (some (Column.makeNew .unsorted))

/-- The session after the first line. -/
def lineCreated : Session :=
  { newSession .start (lineCreatedDisk fun _ => none) (safeSend (bytesOfText "foo(a)\n")) with
    args := some createLineArgs
    buffer := bytesOfText "create(a,unsorted)\n" ++ [0]
    executed := [createLineArgs] }

/-- The session after the second line: the first one was executed again. -/
def lineRejected : Session :=
  { newSession .start (lineCreatedDisk (lineCreatedDisk fun _ => none)) [] with
    args := some createLineArgs
    buffer := bytesOfText "foo(a)\n" ++ [0] ++ bytesOfText ",unsorted)\n" ++ [0]
    sent := bytesOfText syntaxErrorMsg
    executed := [createLineArgs, createLineArgs] }

lemma reached_lineCreated :
    Session.ReachedFrom lineEnv
      (newSession .start (fun _ => none) (rejectedLines.flatMap ClientLine.bytes)) lineCreated := by
  have htext : commandText (bytesOfText "create(a,unsorted)\n") = "create(a,unsorted)\n" := by
    decide
  refine reached_message (bytesOfText "create(a,unsorted)\n")
    (safeSend (bytesOfText "foo(a)\n")) (by decide) rfl rfl ?_
  rw [payloadTurn_of_awaitsCommand ⟨rfl, rfl, rfl, rfl⟩, htext]
  rfl

lemma reached_lineRejected : Session.ReachedFrom lineEnv lineCreated lineRejected := by
  have htext : commandText (bytesOfText "foo(a)\n") = "foo(a)\n" := by decide
  refine reached_message (bytesOfText "foo(a)\n") [] (by decide) rfl rfl ?_
  rw [payloadTurn_of_awaitsCommand ⟨rfl, rfl, rfl, rfl⟩, htext]
  rfl

/-- The answer to a line that is rejected has no length, and the client reads it for none of its
lines: it stays on the socket, where the next response is expected. -/
theorem rejectedLine_left_on_socket :
    clientLines (fun _ => none) [bytesOfText "create(a,unsorted)\n", bytesOfText "foo(a)\n"]
        = .ok rejectedLines ∧
      serve lineEnv (newSession .start (fun _ => none) (rejectedLines.flatMap ClientLine.bytes))
        = .ok lineRejected ∧
      clientReads rejectedLines lineRejected.sent
        = some ([none, none], bytesOfText syntaxErrorMsg) ∧
      ∀ answers, clientReads rejectedLines lineRejected.sent ≠ some (answers, []) := by
  have hreads : clientReads rejectedLines lineRejected.sent
      = some ([none, none], bytesOfText syntaxErrorMsg) := rfl
  refine ⟨rfl, ?_, hreads, fun answers hanswers => ?_⟩
  swap
  · rw [hreads, Option.some.injEq, Prod.mk.injEq] at hanswers
    exact absurd hanswers.2 (by decide)
  rw [serve_of_reached (reached_lineCreated.trans reached_lineRejected)]
  exact serve_done rfl

end ColumnDb
