import ColumnDb.Session.Tokens

/-!
The helpers that a worker calls (`worker.c`).

A turn of the loop of `db_worker` prepares at most one call: of the helper of a command, or of
`load_helper` with what the payloads of a LOAD have left in the local variables.

* `WorkerCall`: a call with its arguments.
* `prepare`: a turn up to its call; `turn_eq_prepare`: the turn is this and the call.
* `Session.Calls`: a run of turns with the calls it has made, and `Session.Calls.turn`: how it
  goes on.
-/

namespace ColumnDb

/-! ### The functions of the source -/

/-- A call of a helper: the effect of a command or of its payload, or `load_helper` with the block
of the names, the rows and their numbers. -/
inductive WorkerCall where
  | helper (step : SessionStep)
  | loadHelper (colNames : List UInt8) (intsBuffer : List (List ℤ)) (rowSize colSize : ℕ)

/-- The effect of a call; `load_helper` gets what is in the local variables. -/
def WorkerCall.run (env : Env) (s : Session) : WorkerCall → Outcome Session
  | helper step => runStep env s step
  | loadHelper .. => finishLoad env s

/-- The call of `load_helper`. -/
def Session.loadCall (s : Session) : WorkerCall :=
  .loadHelper s.worker.loadColNames s.worker.intsBuffer s.worker.rowSize s.worker.colSize

/-- A turn up to its call. -/
inductive Prepared where
  | next (s : Session)
  | done (s : Session)
  | call (s : Session) (c : WorkerCall)

/-- The turn with its call. -/
def Prepared.finish (env : Env) : Prepared → Outcome Turn
  | next s => .ok (.next s)
  | done s => .ok (.done s)
  | call s c => (c.run env s).map .next

/-- `loadTurn` up to its call. -/
def prepareLoad (s : Session) : Outcome Prepared :=
  let w := s.worker
  if w.colSize = 0 ∨ w.rowSize = 0 then .error .assertion
  else if w.curRow = 0 then do
    let names ← readBuffer s.buffer (w.colSize * maxNameSize)
    .ok (.next { s with worker := { w with loadColNames := names, curRow := 1 } })
  else if w.curRow ≤ w.rowSize then do
    let row ← readBuffer s.buffer (w.colSize * 4)
    if w.curRow + 1 < 2 ^ 31 then
      let s := { s with
                 worker :=
                  { w with
                    intsBuffer := w.intsBuffer ++ [intsOfBytes row w.colSize]
                    curRow := w.curRow + 1 } }
      if w.curRow + 1 ≤ w.rowSize then .ok (.next s) else .ok (.call s s.loadCall)
    else .error .undefined
  else .ok (.call s s.loadCall)

/-- `tupleWorkTurn` up to its call. -/
def prepareTuple (s : Session) : Outcome Prepared :=
  if s.worker.vCount < 0 then .error .undefined
  else do
    let names ← (List.range s.worker.vCount.toNat).mapM (slotString s.buffer)
    .ok (.call
      { s with
        worker := { s.worker with isTuple := false }
        buffer := List.replicate maxCommandBufferSize 0 }
      (.helper (.tuple names)))

/-- `insertWorkTurn` up to its calls. -/
def prepareInsert (s : Session) : Outcome Prepared :=
  if s.worker.vCount % 2 = 0 then do
    let vals ← (List.range (s.worker.slots / 2)).mapM fun i => do
      let colName ← columnName (← slotString s.buffer (2 * i))
      .ok (colName, intArg (← slotString s.buffer (2 * i + 1)))
    .ok (.call { s with worker := { s.worker with isInsert := false } } (.helper (.insert vals)))
  else .error .assertion

/-- `deleteWorkTurn` up to its calls. -/
def prepareDelete (s : Session) : Outcome Prepared := do
  let var ← slotString s.buffer 0
  let colNames ← (List.range' 1 (s.worker.slots - 1)).mapM fun u => do
    columnName (← slotString s.buffer u)
  .ok (.call { s with worker := { s.worker with isDelete := false } }
    (.helper (.delete var colNames)))

/-- `dispatch` up to its call. -/
def prepareDispatch (s : Session) : Outcome Prepared :=
  match s.args with
  | none => .error .undefined
  | some args => do
      let worker ← announce s.worker args
      .ok (.call { s with worker := worker, executed := s.executed ++ [args] }
        (.helper (.call s.worker.hasVar args)))

/-- `matchAndDispatch` up to its call. -/
def prepareCommand (env : Env) (s : Session) (text : String) : Outcome Prepared := do
  match ← matchRegex env text with
  | none => prepareDispatch s.rejected
  | some args => prepareDispatch (s.matched args)

/-- A payload in the buffer, up to its call. -/
def preparePayload (env : Env) (s : Session) : Outcome Prepared :=
  if s.worker.isLoading then prepareLoad s
  else if s.worker.isTuple then prepareTuple s
  else if s.worker.isInsert then prepareInsert s
  else if s.worker.isDelete then prepareDelete s
  else do
    let text ← slotString s.buffer 0
    if endsSession text then .ok (.done s) else prepareCommand env s text

/-- `turn` up to its call. -/
def prepare (env : Env) (s : Session) : Outcome Prepared :=
  let n := s.worker.sizeExpected
  if maxCommandBufferSize < min n s.input.length then .error .bounds
  else if s.input.length < n then .ok (.done s)
  else
    let bytes := s.input.take n
    let s := { s with input := s.input.drop n }
    if s.worker.isWaitingForMeta then
      .ok (.next { s with
                   buffer := bytes ++ s.buffer.drop bytes.length
                   worker := s.worker.expect (wordOfBytes bytes) })
    else if n = maxCommandBufferSize then .error .bounds
    else preparePayload env (receive s bytes)

/-! ### A turn and its call -/

section Turns

/-- A result that is mapped after a step. -/
lemma Outcome.map_bind {α β γ : Type} (x : Outcome α) (k : α → Outcome β) (f : β → γ) :
    (x >>= k).map f = x >>= fun a => (k a).map f := by cases x <;> rfl

variable (env : Env) (s : Session)

lemma loadTurn_eq_prepare :
    (loadTurn env s).map .next = prepareLoad s >>= Prepared.finish env := by
  rw [loadTurn, prepareLoad]
  simp only
  split_ifs with hsize hnames hrow hint hlast
  · rfl
  · rw [Outcome.map_bind, bind_assoc]
    exact bind_congr fun names => rfl
  · rw [Outcome.map_bind, bind_assoc]
    exact bind_congr fun row => rfl
  · rw [Outcome.map_bind, bind_assoc]
    exact bind_congr fun row => rfl
  · rw [Outcome.map_bind, bind_assoc]
    exact bind_congr fun row => rfl
  · rfl

lemma tupleWorkTurn_eq_prepare :
    (tupleWorkTurn env s).map .next = prepareTuple s >>= Prepared.finish env := by
  rw [tupleWorkTurn, prepareTuple]
  split_ifs with hneg
  · rfl
  · rw [Outcome.map_bind, bind_assoc]
    exact bind_congr fun names => rfl

lemma insertWorkTurn_eq_prepare :
    (insertWorkTurn env s).map .next = prepareInsert s >>= Prepared.finish env := by
  rw [insertWorkTurn, prepareInsert]
  split_ifs with heven
  · rw [Outcome.map_bind, bind_assoc]
    exact bind_congr fun vals => rfl
  · rfl

lemma deleteWorkTurn_eq_prepare :
    (deleteWorkTurn env s).map .next = prepareDelete s >>= Prepared.finish env := by
  rw [deleteWorkTurn, prepareDelete, Outcome.map_bind, bind_assoc]
  refine bind_congr fun var => ?_
  rw [Outcome.map_bind, bind_assoc]
  exact bind_congr fun colNames => rfl

lemma dispatch_eq_prepare :
    (dispatch env s).map .next = prepareDispatch s >>= Prepared.finish env := by
  rw [dispatch, prepareDispatch]
  cases s.args with
  | none => rfl
  | some args =>
      simp only
      rw [Outcome.map_bind, bind_assoc]
      exact bind_congr fun worker => rfl

lemma matchAndDispatch_eq_prepare (text : String) :
    (matchAndDispatch env s text).map .next
      = prepareCommand env s text >>= Prepared.finish env := by
  rw [matchAndDispatch, prepareCommand, Outcome.map_bind, bind_assoc]
  refine bind_congr fun found => ?_
  cases found with
  | none => exact dispatch_eq_prepare env _
  | some args => exact dispatch_eq_prepare env _

lemma payloadTurn_eq_prepare (bytes : List UInt8) :
    payloadTurn env s bytes = preparePayload env (receive s bytes) >>= Prepared.finish env := by
  rw [payloadTurn, preparePayload]
  split_ifs with hloading htuple hinsert hdelete
  · exact loadTurn_eq_prepare env _
  · exact tupleWorkTurn_eq_prepare env _
  · exact insertWorkTurn_eq_prepare env _
  · exact deleteWorkTurn_eq_prepare env _
  · rw [bind_assoc]
    refine bind_congr fun text => ?_
    split_ifs
    · rfl
    · exact matchAndDispatch_eq_prepare env _ text

/-- **A turn** prepares at most one call and makes it. -/
theorem turn_eq_prepare : turn env s = prepare env s >>= Prepared.finish env := by
  rw [turn, prepare]
  simp only
  split_ifs
  · rfl
  · rfl
  · rfl
  · rfl
  · exact payloadTurn_eq_prepare env _ _

end Turns

/-! ### The calls of a run -/

/-- A run of turns, with the calls that it has made. -/
inductive Session.Calls (env : Env) (s : Session) : List WorkerCall → Session → Prop where
  | start : Session.Calls env s [] s
  | next {calls : List WorkerCall} {t u : Session} (h : Session.Calls env s calls t)
      (hturn : prepare env t = .ok (.next u)) : Session.Calls env s calls u
  | call {calls : List WorkerCall} {t u v : Session} {c : WorkerCall}
      (h : Session.Calls env s calls t) (hturn : prepare env t = .ok (.call v c))
      (hrun : c.run env v = .ok u) : Session.Calls env s (calls ++ [c]) u

namespace Session.Calls

variable {env : Env} {s t u : Session} {calls calls' : List WorkerCall}

/-- The states of such a run are those of the session. -/
lemma reached (h : Session.Calls env s calls t) : Session.ReachedFrom env s t := by
  induction h with
  | start => exact .start
  | next _ hturn ih => exact .next ih (by rw [turn_eq_prepare, hturn]; rfl)
  | call _ hturn hrun ih =>
      refine .next ih ?_
      rw [turn_eq_prepare, hturn, Outcome.ok_bind, Prepared.finish, hrun]
      rfl

lemma trans (h : Session.Calls env s calls t) (h' : Session.Calls env t calls' u) :
    Session.Calls env s (calls ++ calls') u := by
  induction h' with
  | start => rwa [List.append_nil]
  | next _ hturn ih => exact .next ih hturn
  | call _ hturn hrun ih =>
      rw [← List.append_assoc]
      exact .call ih hturn hrun

/-- A run starts with the first turn. -/
lemma head (h : Session.Calls env s calls t) :
    calls = [] ∧ t = s ∨ (∃ u, prepare env s = .ok (.next u) ∧ Session.Calls env u calls t) ∨
      ∃ v c calls' u, prepare env s = .ok (.call v c) ∧ c.run env v = .ok u ∧
        calls = c :: calls' ∧ Session.Calls env u calls' t := by
  induction h with
  | start => exact Or.inl ⟨rfl, rfl⟩
  | next _ hturn ih =>
      rcases ih with ⟨rfl, rfl⟩ | ⟨u, hu, h⟩ | ⟨v, c, calls', u, hu, hrun, rfl, h⟩
      · exact Or.inr (Or.inl ⟨_, hturn, .start⟩)
      · exact Or.inr (Or.inl ⟨u, hu, h.next hturn⟩)
      · exact Or.inr (Or.inr ⟨v, c, calls', u, hu, hrun, rfl, h.next hturn⟩)
  | call _ hturn hrun' ih =>
      rcases ih with ⟨rfl, rfl⟩ | ⟨u, hu, h⟩ | ⟨v, c, calls', u, hu, hrun, rfl, h⟩
      · exact Or.inr (Or.inr ⟨_, _, [], _, hturn, hrun', rfl, .start⟩)
      · exact Or.inr (Or.inl ⟨u, hu, h.call hturn hrun'⟩)
      · exact Or.inr (Or.inr ⟨v, c, _, u, hu, hrun, rfl, h.call hturn hrun'⟩)

/-- **The runs of a session are one run**: of two of them one goes on where the other ends. -/
theorem linear (h : Session.Calls env s calls t) (h' : Session.Calls env s calls' u) :
    (∃ more, calls' = calls ++ more ∧ Session.Calls env t more u) ∨
      ∃ more, calls = calls' ++ more ∧ Session.Calls env u more t := by
  induction h' with
  | start => exact Or.inr ⟨calls, rfl, h⟩
  | next _ hturn ih =>
      rcases ih with ⟨more, rfl, hmore⟩ | ⟨more, rfl, hmore⟩
      · exact Or.inl ⟨more, rfl, hmore.next hturn⟩
      · rcases hmore.head with ⟨rfl, rfl⟩ | ⟨u', hu, hmore'⟩ | ⟨v, c, more', u', hu, -⟩
        · exact Or.inl ⟨[], by simp, .next .start hturn⟩
        · rw [hturn] at hu
          cases hu
          exact Or.inr ⟨more, rfl, hmore'⟩
        · rw [hturn] at hu
          cases hu
  | call _ hturn hrun ih =>
      rcases ih with ⟨more, rfl, hmore⟩ | ⟨more, rfl, hmore⟩
      · exact Or.inl ⟨_, List.append_assoc _ _ _, hmore.call hturn hrun⟩
      · rcases hmore.head with ⟨rfl, rfl⟩ | ⟨u', hu, -⟩ | ⟨v, c, more', u', hu, hrun', rfl, hmore'⟩
        · exact Or.inl ⟨_, by rw [List.append_nil, List.nil_append], .call .start hturn hrun⟩
        · rw [hturn] at hu
          cases hu
        · rw [hturn] at hu
          cases hu
          rw [hrun] at hrun'
          cases hrun'
          exact Or.inr ⟨more', by rw [List.append_assoc]; rfl, hmore'⟩

/-- **How a run goes on**: the next turn ends with a fault, makes no call, ends the session, or
makes a call. -/
theorem turn (h : Session.Calls env s calls t) :
    (∃ e, ColumnDb.turn env t = .error e) ∨
      (∃ u, prepare env t = .ok (.next u) ∧ Session.Calls env s calls u) ∨
      (∃ u, prepare env t = .ok (.done u)) ∨
      ∃ v c u, prepare env t = .ok (.call v c) ∧ c.run env v = .ok u ∧
        Session.Calls env s (calls ++ [c]) u := by
  have hturn := turn_eq_prepare env t
  cases hprepare : prepare env t with
  | error e =>
      rw [hprepare] at hturn
      exact Or.inl ⟨e, hturn⟩
  | ok prepared =>
      rw [hprepare, Outcome.ok_bind] at hturn
      cases prepared with
      | next u => exact Or.inr (Or.inl ⟨u, rfl, .next h hprepare⟩)
      | done u => exact Or.inr (Or.inr (Or.inl ⟨u, rfl⟩))
      | call v c =>
          cases hrun : c.run env v with
          | error e =>
              rw [Prepared.finish, hrun] at hturn
              exact Or.inl ⟨e, hturn⟩
          | ok u => exact Or.inr (Or.inr (Or.inr ⟨v, c, u, rfl, hrun, .call h hprepare hrun⟩))

end Session.Calls

end ColumnDb
