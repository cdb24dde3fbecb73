import ColumnDb.Session.Calls
import ColumnDb.Session.TupleLines

/-!
LOAD commands in a session (`worker.c`).

`load(C,R)` announces a payload with the names of `C` columns and `R` payloads with a row each. The
worker counts them in local variables that live on, so what it does with the next payload depends on
all of them being back where they were.

* `LoadData`: what a LOAD sends, with the bytes of its frames.
* `WorkerVars.Loading`: the local variables after the names and the first rows of it.
* `names_taken`, `row_taken`, `rows_taken`: what the payloads of a LOAD do.
* `ServesLoads`: a session that calls `load_helper` once for every LOAD, with its names and rows.
* `loads_served`: this holds of every sequence of LOADs and other commands.
-/

namespace ColumnDb

/-- What is sent for a LOAD: a block with the slots of the names, and the rows. -/
structure LoadData where
  colSize : ℕ
  names : List UInt8
  rows : List (List ℤ)
  colSize_pos : 0 < colSize
  rows_ne_nil : rows ≠ []
  length_names : names.length = colSize * maxNameSize
  length_row : ∀ row ∈ rows, row.length = colSize
  fits_row : ∀ row ∈ rows, FitsInt row

namespace LoadData

/-- The text `load(C,R)`. -/
def text (load : LoadData) : String :=
  "load(" ++ toString load.colSize ++ "," ++ toString load.rows.length ++ ")"

/-- What `regexec` finds in it. -/
def args (load : LoadData) : InputArgs where
  var := ""
  command := .load
  argOne := toString load.colSize
  argTwo := toString load.rows.length
  argThree := ""

/-- The frames: the text, the names and the rows. -/
def bytes (load : LoadData) : List UInt8 :=
  safeSend (bytesOfText load.text)
    ++ (safeSend load.names ++ load.rows.flatMap fun row => safeSend (bytesOfInts row))

/-- The call of `load_helper` with the names and the rows. -/
def call (load : LoadData) : WorkerCall :=
  .loadHelper load.names load.rows load.rows.length load.colSize

/-- There is room in the buffer for the names with their end, and in an `int` for the number of the
payloads. -/
structure Fits (load : LoadData) : Prop where
  names : load.colSize * maxNameSize < maxCommandBufferSize
  rows : load.rows.length + 1 < 2 ^ 31

end LoadData

/-! ### The payloads of a LOAD -/

/-- The names and the first rows of a LOAD are in the local variables. -/
structure WorkerVars.Loading (w : WorkerVars) (load : LoadData) (names : List UInt8) (curRow : ℕ)
    (ints : List (List ℤ)) : Prop where
  isLoading : w.isLoading = true
  colSize : w.colSize = load.colSize
  rowSize : w.rowSize = load.rows.length
  curRow : w.curRow = curRow
  loadColNames : w.loadColNames = names
  intsBuffer : w.intsBuffer = ints
  isTuple : w.isTuple = false
  isInsert : w.isInsert = false
  isDelete : w.isDelete = false

section Payloads

variable {env : Env} {s : Session} {load : LoadData} {data rest : List UInt8}

/-- The turn that reads a length makes no call. -/
lemma prepare_of_waiting {t : Session} (hwaiting : s.worker.isWaitingForMeta = true)
    (h : turn env s = .ok (.next t)) : prepare env s = .ok (.next t) := by
  rw [turn] at h
  rw [prepare]
  simp only [hwaiting, if_true] at h ⊢
  split_ifs at h ⊢
  · cases h
  · obtain rfl := Turn.next.inj (Except.ok.inj h)
    rfl

/-- The two turns for a frame, up to the call of the second one. -/
lemma frame_prepared (hwaiting : s.worker.isWaitingForMeta = true)
    (hinput : s.input = safeSend data ++ rest) :
    ∃ u, Session.Calls env s [] u ∧ rest <:+ u.input ∧ prepare env u
      = if (sentOf data).length < maxCommandBufferSize then
          preparePayload env (receive (s.announced (sentOf data) rest) (sentOf data))
        else .error .bounds := by
  have hlength := turn_length env hwaiting hinput
  refine ⟨_, .next .start (prepare_of_waiting hwaiting hlength), List.suffix_append _ _, ?_⟩
  generalize sentOf data = data
  have hsize : (s.announced data rest).worker.sizeExpected = data.length := rfl
  have hmeta : (s.announced data rest).worker.isWaitingForMeta = false := rfl
  have hmin : min data.length (data ++ rest).length = data.length := by simp
  have hlen : ¬ (data ++ rest).length < data.length := by simp
  rw [prepare]
  simp only [hsize, hmeta, hmin, List.take_left', List.drop_left', Bool.false_eq_true, if_false,
    if_neg hlen]
  by_cases hover : maxCommandBufferSize < data.length
  · rw [if_pos hover, if_neg (by omega)]
  · rw [if_neg hover]
    by_cases hfull : data.length = maxCommandBufferSize
    · rw [if_pos hfull, if_neg (by omega)]
    · rw [if_neg hfull, if_pos (by omega)]
      rfl

/-- The buffer has room for the payload and its end. -/
lemma frame_calls (hroom : data.length < maxCommandBufferSize)
    (hwaiting : s.worker.isWaitingForMeta = true) (hinput : s.input = safeSend data ++ rest) :
    ∃ u, Session.Calls env s [] u ∧
      prepare env u = preparePayload env (receive (s.announced data rest) data) := by
  have hsent : sentOf data = data := by
    rw [sentOf, Nat.mod_eq_of_lt (hroom.trans (by decide)), List.take_length]
  obtain ⟨u, hcalls, -, hprepare⟩ := @frame_prepared env s data rest hwaiting hinput
  rw [hsent, if_pos hroom] at hprepare
  exact ⟨u, hcalls, hprepare⟩

/-- Reading a length and a payload leaves what is known of the LOAD. -/
lemma WorkerVars.Loading.announced {names : List UInt8} {n : ℕ} {ints : List (List ℤ)}
    (h : s.worker.Loading load names n ints) (data rest : List UInt8) :
    (s.announced data rest).worker.Loading load names n ints :=
  ⟨h.isLoading, h.colSize, h.rowSize, h.curRow, h.loadColNames, h.intsBuffer, h.isTuple, h.isInsert,
    h.isDelete⟩

lemma WorkerVars.Loading.receive {names : List UInt8} {n : ℕ} {ints : List (List ℤ)}
    (h : s.worker.Loading load names n ints) (bytes : List UInt8) :
    (receive s bytes).worker.Loading load names n ints :=
  ⟨h.isLoading, h.colSize, h.rowSize, h.curRow, h.loadColNames, h.intsBuffer, h.isTuple, h.isInsert,
    h.isDelete⟩

/-- A LOAD has columns and rows. -/
lemma LoadData.sizes (load : LoadData) : ¬ (load.colSize = 0 ∨ load.rows.length = 0) := by
  rintro (h | h)
  · exact load.colSize_pos.ne' h
  · exact load.rows_ne_nil (List.length_eq_zero_iff.mp h)

/-- The bytes of the payload are in the buffer. -/
lemma readBuffer_receive (s : Session) (bytes : List UInt8) :
    readBuffer (receive s bytes).buffer bytes.length = .ok bytes := by
  obtain ⟨rest, hbuffer⟩ := buffer_receive s bytes
  rw [readBuffer, hbuffer, if_pos (by simp), List.take_left' rfl]

/-- **The names** of a LOAD. -/
lemma names_taken (hfits : load.Fits) (hwaiting : s.worker.isWaitingForMeta = true)
    (hload : s.worker.Loading load [] 0 []) (hinput : s.input = safeSend load.names ++ rest) :
    ∃ t, Session.Calls env s [] t ∧ t.worker.isWaitingForMeta = true ∧
      t.worker.Loading load load.names 1 [] ∧ t.disk = s.disk ∧ t.vars = s.vars ∧
      t.input = rest := by
  have hroom : load.names.length < maxCommandBufferSize := load.length_names ▸ hfits.names
  obtain ⟨u, hcalls, hprepare⟩ := @frame_calls env s load.names rest hroom hwaiting hinput
  have hload₁ := (hload.announced load.names rest).receive load.names
  set s₁ := receive (s.announced load.names rest) load.names with hs₁
  have hread : readBuffer s₁.buffer (load.colSize * maxNameSize) = .ok load.names :=
    load.length_names ▸ readBuffer_receive _ _
  have hnext : preparePayload env s₁ = .ok (.next
      { s₁ with worker := { s₁.worker with loadColNames := load.names, curRow := 1 } }) := by
    rw [preparePayload, if_pos hload₁.isLoading, prepareLoad]
    simp only [hload₁.colSize, hload₁.rowSize, hload₁.curRow, if_neg load.sizes, if_true, hread,
      Outcome.ok_bind]
  refine ⟨_, hcalls.next (hprepare.trans hnext), rfl, ?_, rfl, rfl, rfl⟩
  exact ⟨hload.isLoading, hload.colSize, hload.rowSize, rfl, rfl, hload.intsBuffer, hload.isTuple,
    hload.isInsert, hload.isDelete⟩

/-- A row of a LOAD: it is in the buffer of the rows, and `load_helper` is called after the last
one. -/
lemma row_prepared (hfits : load.Fits) {done more : List (List ℤ)} {row : List ℤ}
    (hrows : load.rows = done ++ row :: more)
    (hload : s.worker.Loading load load.names (done.length + 1) done) :
    ∃ t, preparePayload env (receive s (bytesOfInts row))
        = .ok (if more = [] then .call t load.call else .next t) ∧
      t.worker.isWaitingForMeta = true ∧
      t.worker.Loading load load.names ((done ++ [row]).length + 1) (done ++ [row]) ∧
      t.disk = s.disk ∧ t.vars = s.vars ∧ t.input = s.input := by
  have hload₁ := hload.receive (bytesOfInts row)
  set s₁ := receive s (bytesOfInts row) with hs₁
  have hmem : row ∈ load.rows := by simp [hrows]
  have hlen : load.rows.length = done.length + 1 + more.length := by
    rw [hrows, List.length_append, List.length_cons]
    omega
  have hint : done.length + 1 + 1 < 2 ^ 31 := by
    have := hfits.rows
    omega
  have hread : readBuffer s₁.buffer (load.colSize * 4) = .ok (bytesOfInts row) := by
    have hbytes : load.colSize * 4 = (bytesOfInts row).length := by
      rw [length_bytesOfInts, load.length_row row hmem, Nat.mul_comm]
    exact hbytes ▸ readBuffer_receive _ _
  have hints : intsOfBytes (bytesOfInts row) load.colSize = row := by
    rw [← load.length_row row hmem]
    exact intsOfBytes_bytesOfInts (load.fits_row row hmem)
  refine ⟨{ s₁ with
            worker :=
            { s₁.worker with
              intsBuffer := done ++ [row]
              curRow := done.length + 1 + 1 } }, ?_, rfl, ?_, rfl, rfl, rfl⟩
  · rw [preparePayload, if_pos hload₁.isLoading, prepareLoad]
    simp only [hload₁.colSize, hload₁.rowSize, hload₁.curRow, hload₁.intsBuffer, if_neg load.sizes,
      hread, hints, Outcome.ok_bind, if_pos hint]
    rw [if_neg (by omega), if_pos (by omega)]
    by_cases hmore : more = []
    · have hlast : ¬ done.length + 1 + 1 ≤ load.rows.length := by
        rw [hlen, hmore, List.length_nil]
        omega
      rw [if_neg hlast, if_pos hmore, Session.loadCall, LoadData.call]
      simp only [hload₁.loadColNames]
      rw [hrows, hmore]
    · have hpos := List.length_pos_iff.mpr hmore
      rw [if_pos (by omega), if_neg hmore]
  · have hcount : (done ++ [row]).length = done.length + 1 := by simp
    exact ⟨hload₁.isLoading, hload₁.colSize, hload₁.rowSize, by rw [hcount],
      hload₁.loadColNames, rfl, hload₁.isTuple, hload₁.isInsert, hload₁.isDelete⟩

/-- The frame of a row. -/
lemma row_taken (hfits : load.Fits) {done more : List (List ℤ)} {row : List ℤ}
    (hrows : load.rows = done ++ row :: more) (hwaiting : s.worker.isWaitingForMeta = true)
    (hload : s.worker.Loading load load.names (done.length + 1) done)
    (hinput : s.input = safeSend (bytesOfInts row) ++ rest) :
    ∃ u t, Session.Calls env s [] u ∧
      prepare env u = .ok (if more = [] then .call t load.call else .next t) ∧
      t.worker.isWaitingForMeta = true ∧
      t.worker.Loading load load.names ((done ++ [row]).length + 1) (done ++ [row]) ∧
      t.disk = s.disk ∧ t.vars = s.vars ∧ t.input = rest := by
  have hroom : (bytesOfInts row).length < maxCommandBufferSize := by
    have h16 : load.colSize * 16 < 65536 := hfits.names
    have hmax : maxCommandBufferSize = 65536 := rfl
    rw [length_bytesOfInts, load.length_row row (by simp [hrows])]
    omega
  obtain ⟨u, hcalls, hprepare⟩ := @frame_calls env s _ rest hroom hwaiting hinput
  obtain ⟨t, hrow, hrest⟩ := @row_prepared env (s.announced (bytesOfInts row) rest) load hfits
    done more row hrows (hload.announced _ rest)
  exact ⟨u, t, hcalls, hprepare.trans hrow, hrest⟩

/-- **The rows** of a LOAD from one of them on: none of them makes a call before the last one. -/
theorem rows_taken (hfits : load.Fits) (more : List (List ℤ)) :
    ∀ {s : Session} (done : List (List ℤ)) (row : List ℤ), load.rows = done ++ row :: more →
      s.worker.isWaitingForMeta = true →
      s.worker.Loading load load.names (done.length + 1) done →
      s.input = ((row :: more).flatMap fun row => safeSend (bytesOfInts row)) ++ rest →
      ∃ u v, Session.Calls env s [] u ∧ prepare env u = .ok (.call v load.call) ∧
        v.worker.isWaitingForMeta = true ∧
        v.worker.Loading load load.names (load.rows.length + 1) load.rows ∧ v.disk = s.disk ∧
        v.vars = s.vars ∧ v.input = rest := by
  induction more with
  | nil =>
      intro s done row hrows hwaiting hload hinput
      rw [List.flatMap_singleton] at hinput
      obtain ⟨u, v, hcalls, hrow, hwaiting', hload', hrest⟩ :=
        @row_taken env s load rest hfits _ _ _ hrows hwaiting hload hinput
      rw [if_pos rfl] at hrow
      rw [← hrows] at hload'
      exact ⟨u, v, hcalls, hrow, hwaiting', hload', hrest⟩
  | cons next more ih =>
      intro s done row hrows hwaiting hload hinput
      rw [List.flatMap_cons, List.append_assoc] at hinput
      obtain ⟨u, t, hcalls, hrow, hwaiting', hload', hdisk, hvars, hrest⟩ :=
        @row_taken env s load _ hfits _ _ _ hrows hwaiting hload hinput
      rw [if_neg (List.cons_ne_nil next more)] at hrow
      obtain ⟨u', v, hcalls', hcall, hv, hloadv, hdiskv, hvarsv, hrestv⟩ :=
        ih (done ++ [row]) next (by rw [hrows, List.append_assoc]; rfl) hwaiting' hload' hrest
      exact ⟨u', v, (hcalls.next hrow).trans hcalls', hcall, hv, hloadv,
        hdiskv.trans hdisk, hvarsv.trans hvars, hrestv⟩

end Payloads

/-! ### A command -/

section Commands

variable {env : Env} {s : Session} {rest : List UInt8}

/-- The local variables for the dispatch of a command that matches. -/
def WorkerVars.dispatched (w : WorkerVars) (args : InputArgs) : WorkerVars :=
  { w.waitForMeta with hasVar := args.var ≠ "" }

/-- A payload that was not announced is a command. -/
lemma preparePayload_of_awaitsCommand {bytes : List UInt8} (h : s.worker.AwaitsCommand)
    (hon : endsSession (commandText bytes) = false) :
    preparePayload env (receive s bytes)
      = prepareCommand env (receive s bytes) (commandText bytes) := by
  have hworker : (receive s bytes).worker = s.worker.waitForMeta := rfl
  rw [preparePayload, slotString_receive]
  simp only [hworker, WorkerVars.waitForMeta, h.isLoading, h.isTuple, h.isInsert, h.isDelete,
    Bool.false_eq_true, if_false, Outcome.ok_bind, hon]

/-- A command that matches, up to its call. -/
lemma preparePayload_command {bytes : List UInt8} {args : InputArgs}
    (hcommand : s.worker.AwaitsCommand) (hon : endsSession (commandText bytes) = false)
    (hmatch : matchRegex env (commandText bytes) = .ok (some args)) :
    preparePayload env (receive s bytes)
      = announce (s.worker.dispatched args) args >>= fun w => .ok (.call
        { (receive s bytes).matched args with worker := w, executed := s.executed ++ [args] }
        (.helper (.call (args.var ≠ "") args))) := by
  rw [preparePayload_of_awaitsCommand hcommand hon, prepareCommand, hmatch, Outcome.ok_bind]
  rfl

/-- What a command that matches has called when it gets that far. -/
lemma preparePayload_eq_ok {bytes : List UInt8} {args : InputArgs} {p : Prepared}
    (hcommand : s.worker.AwaitsCommand) (hon : endsSession (commandText bytes) = false)
    (hregex : env.regexec (commandText bytes) = some args)
    (h : preparePayload env (receive s bytes) = .ok p) :
    ∃ w, announce (s.worker.dispatched args) args = .ok w ∧
      p = .call { (receive s bytes).matched args with
                  worker := w, executed := s.executed ++ [args] }
        (.helper (.call (args.var ≠ "") args)) := by
  have hmatch : matchRegex env (commandText bytes) = .ok (some args) := by
    cases hfound : matchRegex env (commandText bytes) with
    | error e =>
        rw [preparePayload_of_awaitsCommand hcommand hon, prepareCommand, hfound] at h
        cases h
    | ok found =>
        rw [matchRegex, hregex] at hfound
        simp only at hfound
        split_ifs at hfound
        exact hfound.symm
  rw [preparePayload_command hcommand hon hmatch] at h
  obtain ⟨w, hw, h⟩ := Outcome.bind_eq_ok.mp h
  exact ⟨w, hw, (Except.ok.inj h).symm⟩

/-- The two turns for the text of a command, up to its call. -/
lemma command_calls {data : List UInt8} {args : InputArgs} {w : WorkerVars}
    (hready : s.worker.Ready) (hroom : data.length < maxCommandBufferSize)
    (hinput : s.input = safeSend data ++ rest) (hon : endsSession (commandText data) = false)
    (hmatch : matchRegex env (commandText data) = .ok (some args))
    (hannounce : announce (s.worker.dispatched args) args = .ok w) :
    ∃ u v, Session.Calls env s [] u ∧
      prepare env u = .ok (.call v (.helper (.call (args.var ≠ "") args))) ∧ v.worker = w ∧
      v.disk = s.disk ∧ v.vars = s.vars ∧ v.input = rest := by
  obtain ⟨u, hcalls, hprepare⟩ := @frame_calls env s data rest hroom hready.waiting hinput
  have hcall := preparePayload_command (hready.announced data rest) hon hmatch
  have hdispatched : (s.announced data rest).worker.dispatched args = s.worker.dispatched args :=
    rfl
  rw [hdispatched, hannounce, Outcome.ok_bind] at hcall
  exact ⟨u, _, hcalls, hprepare.trans hcall, rfl, rfl, rfl, rfl⟩

end Commands

/-! ### The text of a LOAD -/

section Text

variable {env : Env} {s : Session} {load : LoadData} {rest : List UInt8}

lemma toList_text (load : LoadData) :
    load.text.toList = "load(".toList
      ++ (Nat.toDigits 10 load.colSize ++ ',' :: (Nat.toDigits 10 load.rows.length ++ [')'])) := by
  rw [LoadData.text, String.toList_append, String.toList_append, String.toList_append,
    String.toList_append, Nat.toString_eq_ofList_toDigits, Nat.toString_eq_ofList_toDigits,
    @String.toList_ofList (Nat.toDigits 10 _), @String.toList_ofList (Nat.toDigits 10 _),
    List.append_assoc, List.append_assoc, List.append_assoc]
  rfl

lemma commandText_text (load : LoadData) : commandText (bytesOfText load.text) = load.text := by
  have hword : ∀ c ∈ "load(".toList, 0 < c.toNat ∧ c.toNat < 256 :=
    List.all_iff_forall_prop.mp (by decide)
  have hdigits : ∀ n, ∀ c ∈ Nat.toDigits 10 n, 0 < c.toNat ∧ c.toNat < 256 := fun n c =>
    toDigits_range
  refine commandText_bytesOfText ?_
  rw [toList_text]
  simp only [List.forall_mem_append, List.forall_mem_cons]
  exact ⟨hword, hdigits _, by decide, hdigits _, by decide, List.forall_mem_nil _⟩

lemma endsSession_text (load : LoadData) : endsSession load.text = false := by
  rw [endsSession, toList_text]
  rfl

lemma matchRegex_text (hcols : load.colSize < 2 ^ 31) (hrows : load.rows.length < 2 ^ 31)
    (hmatch : env.regexec load.text = some load.args) :
    matchRegex env load.text = .ok (some load.args) := by
  have hempty : "".length < maxInputBytes := by decide
  exact matchRegex_of_short hmatch hempty (length_toString_lt hcols) (length_toString_lt hrows)
    hempty

/-- With all rows in the local variables, the call of `load_helper` is that of the LOAD. -/
lemma WorkerVars.Loading.loadCall {n : ℕ} (h : s.worker.Loading load load.names n load.rows) :
    s.loadCall = load.call := by
  rw [Session.loadCall, LoadData.call, h.colSize, h.rowSize, h.loadColNames, h.intsBuffer]

/-- **The text** of a LOAD is the call of its command, after which the names are expected. -/
theorem text_announced (hcols : load.colSize < 2 ^ 31) (hrows : load.rows.length < 2 ^ 31)
    (hready : s.worker.Ready) (hmatch : env.regexec load.text = some load.args)
    (hinput : s.input = safeSend (bytesOfText load.text) ++ rest) :
    ∃ t, Session.Calls env s [.helper (.call false load.args)] t ∧
      t.worker.isWaitingForMeta = true ∧ t.worker.Loading load [] 0 [] ∧ t.disk = s.disk ∧
      t.vars = s.vars ∧ t.input = rest := by
  have hroom : (bytesOfText load.text).length < maxCommandBufferSize := by
    have hdigits := length_toDigits_le hcols
    have hdigits' := length_toDigits_le hrows
    rw [bytesOfText, List.length_map, toList_text, List.length_append, List.length_append,
      List.length_cons, List.length_append, List.length_singleton]
    have hword : "load(".toList.length = 5 := rfl
    exact lt_of_le_of_lt (by omega : _ ≤ 27) (by decide)
  have hannounce : announce (s.worker.dispatched load.args) load.args = .ok
      { s.worker.dispatched load.args with
        isLoading := true
        colSize := load.colSize
        rowSize := load.rows.length
        loadColNames := []
        intsBuffer := [] } := by
    have hcol : uintArg load.args.argOne = load.colSize := uintArg_toString (by omega)
    have hrow : uintArg load.args.argTwo = load.rows.length := uintArg_toString (by omega)
    rw [announce, hcol, hrow]
    rfl
  have htext := commandText_text load
  obtain ⟨u, v, hcalls, hprepare, hworker, hdisk, hvars, hrest⟩ := command_calls hready hroom hinput
    (by rw [htext]; exact endsSession_text load)
    (by rw [htext]; exact matchRegex_text hcols hrows hmatch) hannounce
  have hrun : (WorkerCall.helper (.call false load.args)).run env v
      = .ok { v with sent := v.sent ++ [] } := rfl
  refine ⟨_, hcalls.call hprepare hrun, ?_, ?_, hdisk, hvars, hrest⟩
  · exact hworker ▸ rfl
  · exact hworker ▸ ⟨rfl, rfl, rfl, hready.idle, rfl, rfl, hready.command.isTuple,
      hready.command.isInsert, hready.command.isDelete⟩

/-- **A LOAD** up to the call of `load_helper`: its payloads are consumed and nothing else is
called. -/
theorem load_called (hfits : load.Fits) (hready : s.worker.Ready)
    (hmatch : env.regexec load.text = some load.args) (hinput : s.input = load.bytes ++ rest) :
    ∃ u v, Session.Calls env s [.helper (.call false load.args)] u ∧
      prepare env u = .ok (.call v load.call) ∧ v.worker.isWaitingForMeta = true ∧
      v.worker.Loading load load.names (load.rows.length + 1) load.rows ∧ v.disk = s.disk ∧
      v.vars = s.vars ∧ v.input = rest := by
  have hcols : load.colSize < 2 ^ 31 := by
    have h16 : load.colSize * 16 < 65536 := hfits.names
    omega
  rw [LoadData.bytes, List.append_assoc, List.append_assoc] at hinput
  obtain ⟨s₁, hcalls₁, hwaiting₁, hload₁, hdisk₁, hvars₁, hrest₁⟩ :=
    text_announced hcols (Nat.lt_of_succ_lt hfits.rows) hready hmatch hinput
  obtain ⟨s₂, hcalls₂, hwaiting₂, hload₂, hdisk₂, hvars₂, hrest₂⟩ :=
    names_taken hfits hwaiting₁ hload₁ hrest₁
  obtain ⟨row, more, hrows⟩ := List.exists_cons_of_ne_nil load.rows_ne_nil
  obtain ⟨u, v, hcalls, hcall, hwaiting, hload, hdisk, hvars, hrest⟩ :=
    rows_taken hfits more [] row hrows hwaiting₂ hload₂ (by rw [← hrows]; exact hrest₂)
  exact ⟨u, v, hcalls₁.trans (hcalls₂.trans hcalls), hcall, hwaiting, hload,
    hdisk.trans (hdisk₂.trans hdisk₁), hvars.trans (hvars₂.trans hvars₁), hrest⟩

/-- When `load_helper` returns, the next payload is a command. -/
lemma load_returned {v t : Session} {names : List UInt8} {n : ℕ} {rows : List (List ℤ)}
    (hwaiting : v.worker.isWaitingForMeta = true) (hload : v.worker.Loading load names n rows)
    (hrun : load.call.run env v = .ok t) : t.worker.Ready ∧ t.input = v.input := by
  obtain ⟨colNames, -, hrun⟩ := Outcome.bind_eq_ok.mp hrun
  obtain ⟨d, vars, reply, -, rfl⟩ := runStep_ok hrun
  exact ⟨⟨⟨rfl, hload.isTuple, hload.isInsert, hload.isDelete⟩, hwaiting, rfl⟩, rfl⟩

end Text

/-! ### The other commands -/

/-- The call is one of `load_helper`. -/
def WorkerCall.loads : WorkerCall → Bool
  | helper (.load ..) | loadHelper .. => true
  | helper _ => false

/-- The worker comes to a turn that ends with a fault, without a call of `load_helper` and while the
bytes `rest` are still to be read. -/
def StopsBefore (env : Env) (s : Session) (rest : List UInt8) : Prop :=
  ∃ calls u e, Session.Calls env s calls u ∧ (∀ c ∈ calls, c.loads = false) ∧
    turn env u = .error e ∧ rest <:+ u.input

lemma StopsBefore.mono {env : Env} {s : Session} {mid rest : List UInt8}
    (h : StopsBefore env s mid) (hrest : rest <:+ mid) : StopsBefore env s rest := by
  obtain ⟨calls, u, e, hcalls, hloads, hturn, hmid⟩ := h
  exact ⟨calls, u, e, hcalls, hloads, hturn, hrest.trans hmid⟩

/-- A fault after a call of another helper. -/
lemma StopsBefore.after {env : Env} {s t : Session} {rest : List UInt8} {calls : List WorkerCall}
    (hcalls : Session.Calls env s calls t) (hloads : ∀ c ∈ calls, c.loads = false)
    (h : StopsBefore env t rest) : StopsBefore env s rest := by
  obtain ⟨calls', u, e, hcalls', hloads', hturn, hrest⟩ := h
  exact ⟨calls ++ calls', u, e, hcalls.trans hcalls',
    List.forall_mem_append.mpr ⟨hloads, hloads'⟩, hturn, hrest⟩

section Lines

variable {env : Env} {s : Session} {line : ClientLine} {rest : List UInt8}

/-- What a payload that was announced by a TUPLE, INSERT or DELETE calls. -/
lemma preparePayload_names {u : Session} {p : Prepared} (hloading : u.worker.isLoading = false)
    (hidle : u.worker.curRow = 0) (hwaiting : u.worker.isWaitingForMeta = true)
    (hkind : u.worker.isTuple = true ∧ u.worker.isInsert = false ∧ u.worker.isDelete = false ∨
      u.worker.isTuple = false ∧ u.worker.isInsert = true ∧ u.worker.isDelete = false ∨
      u.worker.isTuple = false ∧ u.worker.isInsert = false ∧ u.worker.isDelete = true)
    (h : preparePayload env u = .ok p) :
    ∃ v step, p = .call v (.helper step) ∧ (WorkerCall.helper step).loads = false ∧
      v.worker.Ready ∧ v.input = u.input := by
  rw [preparePayload, hloading, if_neg Bool.false_ne_true] at h
  rcases hkind with ⟨htuple, hinsert, hdelete⟩ | ⟨htuple, hinsert, hdelete⟩ |
    ⟨htuple, hinsert, hdelete⟩
  · rw [htuple, if_pos rfl, prepareTuple] at h
    split_ifs at h
    obtain ⟨names, -, h⟩ := Outcome.bind_eq_ok.mp h
    cases h
    exact ⟨_, _, rfl, rfl, ⟨⟨hloading, rfl, hinsert, hdelete⟩, hwaiting, hidle⟩, rfl⟩
  · rw [htuple, hinsert, if_neg Bool.false_ne_true, if_pos rfl, prepareInsert] at h
    split_ifs at h
    obtain ⟨vals, -, h⟩ := Outcome.bind_eq_ok.mp h
    cases h
    exact ⟨_, _, rfl, rfl, ⟨⟨hloading, htuple, rfl, hdelete⟩, hwaiting, hidle⟩, rfl⟩
  · rw [htuple, hinsert, hdelete, if_neg Bool.false_ne_true, if_neg Bool.false_ne_true,
      if_pos rfl] at h
    obtain ⟨var, -, h⟩ := Outcome.bind_eq_ok.mp h
    obtain ⟨colNames, -, h⟩ := Outcome.bind_eq_ok.mp h
    cases h
    exact ⟨_, _, rfl, rfl, ⟨⟨hloading, htuple, hinsert, rfl⟩, hwaiting, hidle⟩, rfl⟩

/-- A frame whose payload calls a helper that is not `load_helper`. -/
lemma helper_called {data : List UInt8} (hwaiting : s.worker.isWaitingForMeta = true)
    (hinput : s.input = safeSend data ++ rest) {P : Session → Prop}
    (hcall : ∀ p, preparePayload env (receive (s.announced (sentOf data) rest) (sentOf data))
        = .ok p → ∃ v step, p = .call v (.helper step) ∧ (WorkerCall.helper step).loads = false ∧
          v.input = rest ∧ ∀ t, runStep env v step = .ok t → P t) :
    StopsBefore env s rest ∨ ∃ c t, Session.Calls env s [c] t ∧ c.loads = false ∧
      t.input = rest ∧ P t := by
  obtain ⟨u, hcalls, hrest, hprepare⟩ := @frame_prepared env s data rest hwaiting hinput
  have hfound : ∀ {p}, prepare env u = .ok p → ∃ v step, p = .call v (.helper step) ∧
      (WorkerCall.helper step).loads = false ∧ v.input = rest ∧
      ∀ t, runStep env v step = .ok t → P t := by
    intro p hp
    rw [hp] at hprepare
    split_ifs at hprepare
    exact hcall p hprepare.symm
  rcases hcalls.turn with ⟨e, he⟩ | ⟨t, ht, -⟩ | ⟨t, ht⟩ | ⟨v, c, t, hv, hrun, ht⟩
  · exact Or.inl ⟨[], u, e, hcalls, List.forall_mem_nil _, he, hrest⟩
  · obtain ⟨v, step, hp, -⟩ := hfound ht
    cases hp
  · obtain ⟨v, step, hp, -⟩ := hfound ht
    cases hp
  · obtain ⟨v', step, hp, hloads, hrest, hP⟩ := hfound hv
    cases hp
    obtain ⟨d, vars, reply, -, ht'⟩ := runStep_ok hrun
    exact Or.inr ⟨_, t, ht, hloads, by rw [ht']; exact hrest, hP t hrun⟩

/-- The text of a line calls the helper of its command. -/
lemma text_called (hready : s.worker.Ready) (hagrees : line.Agrees env)
    (hinput : s.input = safeSend line.text ++ rest) :
    StopsBefore env s rest ∨ ∃ c t, Session.Calls env s [c] t ∧ c.loads = false ∧
      t.input = rest ∧ t.worker.isWaitingForMeta = true ∧ t.worker.AfterKind line.kind := by
  obtain ⟨args, hregex, hargs⟩ := Option.map_eq_some_iff.mp hagrees.kind
  have hcommand := hready.announced (sentOf line.text) rest
  have hready' : (s.worker.dispatched args).Ready :=
    ⟨⟨hcommand.isLoading, hcommand.isTuple, hcommand.isInsert, hcommand.isDelete⟩, rfl,
      hready.idle⟩
  refine helper_called hready.waiting hinput fun p hp => ?_
  obtain ⟨w, hannounce, rfl⟩ := preparePayload_eq_ok hcommand hagrees.goes_on hregex hp
  refine ⟨_, _, rfl, rfl, rfl, fun t ht => ?_⟩
  obtain ⟨d', vars, reply, -, rfl⟩ := runStep_ok ht
  rw [← hargs]
  exact announce_afterKind hready' hannounce

/-- The names that a TUPLE, INSERT or DELETE has announced. -/
lemma names_called {data : List UInt8} (hloading : s.worker.isLoading = false)
    (hidle : s.worker.curRow = 0) (hwaiting : s.worker.isWaitingForMeta = true)
    (hkind : s.worker.isTuple = true ∧ s.worker.isInsert = false ∧ s.worker.isDelete = false ∨
      s.worker.isTuple = false ∧ s.worker.isInsert = true ∧ s.worker.isDelete = false ∨
      s.worker.isTuple = false ∧ s.worker.isInsert = false ∧ s.worker.isDelete = true)
    (hinput : s.input = safeSend data ++ rest) :
    StopsBefore env s rest ∨ ∃ c t, Session.Calls env s [c] t ∧ c.loads = false ∧
      t.input = rest ∧ t.worker.Ready := by
  refine helper_called hwaiting hinput fun p hp => ?_
  obtain ⟨v, step, rfl, hstep, hv, hrest⟩ :=
    preparePayload_names (u := receive (s.announced _ rest) _) hloading hidle rfl hkind hp
  refine ⟨v, step, rfl, hstep, hrest, fun t ht => ?_⟩
  obtain ⟨d', vars, reply, -, rfl⟩ := runStep_ok ht
  exact hv

/-- **A line that is no LOAD** does not call `load_helper`. -/
theorem line_calls (hready : s.worker.Ready) (hagrees : line.Agrees env)
    (hpayloads : line.payloads.length = line.kind.payloads)
    (hkind : ∀ rows, line.kind ≠ .load rows) (hinput : s.input = line.bytes ++ rest) :
    StopsBefore env s rest ∨ ∃ calls t, Session.Calls env s calls t ∧
      (∀ c ∈ calls, c.loads = false) ∧ t.worker.Ready ∧ t.input = rest := by
  rw [ClientLine.bytes, List.flatMap_cons, List.append_assoc] at hinput
  rcases text_called hready hagrees hinput with
    he | ⟨c, t, hcalls, hloads, hrest, hwaiting, hafter⟩
  · exact Or.inl (he.mono (List.suffix_append _ _))
  have hone : ∀ c' ∈ [c], c'.loads = false := fun c' hc' => by
    rwa [List.mem_singleton.mp hc']
  -- a payload that its text has announced
  have hpayload : line.payloads.length = 1 → t.worker.isLoading = false → t.worker.curRow = 0 →
      (t.worker.isTuple = true ∧ t.worker.isInsert = false ∧ t.worker.isDelete = false ∨
        t.worker.isTuple = false ∧ t.worker.isInsert = true ∧ t.worker.isDelete = false ∨
        t.worker.isTuple = false ∧ t.worker.isInsert = false ∧ t.worker.isDelete = true) →
      StopsBefore env s rest ∨ ∃ calls t, Session.Calls env s calls t ∧
        (∀ c ∈ calls, c.loads = false) ∧ t.worker.Ready ∧ t.input = rest := by
    intro hlen hloading hidle hflags
    obtain ⟨data, hdata⟩ := List.length_eq_one_iff.mp hlen
    rw [hdata, List.flatMap_singleton] at hrest
    rcases @names_called env t rest data hloading hidle hwaiting hflags hrest with
      he | ⟨c', u, hcalls', hloads', hrest', hready''⟩
    · exact Or.inl (he.after hcalls hone)
    · refine Or.inr ⟨_, u, hcalls.trans hcalls', fun c'' hc'' => ?_, hready'', hrest'⟩
      rcases List.mem_append.mp hc'' with hc'' | hc''
      · exact hone c'' hc''
      · rwa [List.mem_singleton.mp hc'']
  cases hline : line.kind with
  | load rows => exact absurd hline (hkind rows)
  | tuple =>
      rw [hline] at hafter
      obtain ⟨hloading, hidle, hflags⟩ := hafter
      exact hpayload (by rw [hpayloads, hline]; rfl) hloading hidle (Or.inl hflags)
  | insert =>
      rw [hline] at hafter
      obtain ⟨hloading, hidle, hflags⟩ := hafter
      exact hpayload (by rw [hpayloads, hline]; rfl) hloading hidle (Or.inr (Or.inl hflags))
  | delete =>
      rw [hline] at hafter
      obtain ⟨hloading, hidle, hflags⟩ := hafter
      exact hpayload (by rw [hpayloads, hline]; rfl) hloading hidle (Or.inr (Or.inr hflags))
  | fetch | other =>
      rw [hline] at hafter hpayloads
      obtain ⟨hloading, hidle, htuple, hinsert, hdelete⟩ := hafter
      have hnil : line.payloads = [] := List.length_eq_zero_iff.mp hpayloads
      rw [hnil, List.flatMap_nil, List.nil_append] at hrest
      exact Or.inr ⟨_, t, hcalls, hone, ⟨⟨hloading, htuple, hinsert, hdelete⟩, hwaiting, hidle⟩,
        hrest⟩

end Lines

/-! ### A session -/

/-- What a session consists of: a LOAD, or another line with its payloads. -/
inductive SessionItem where
  | load (load : LoadData)
  | other (line : ClientLine)

namespace SessionItem

/-- The frames of an item. -/
def bytes : SessionItem → List UInt8
  | load data => data.bytes
  | other line => line.bytes

/-- The parser accepts the command, and its payloads are complete. -/
def Accepted (env : Env) : SessionItem → Prop
  | load data => env.regexec data.text = some data.args
  | other line => line.Agrees env ∧ line.payloads.length = line.kind.payloads ∧
      ∀ rows, line.kind ≠ .load rows

/-- The payloads of a LOAD leave room for what follows them. -/
def Fits : SessionItem → Prop
  | load data => data.Fits
  | other _ => True

end SessionItem

/-- The worker serves the items one after the other. For a LOAD it calls nothing up to its last
payload, then `load_helper` with the names and rows, and when this returns the next payload is a
command. Another line does not call `load_helper`, and after it the next payload is a command too,
unless one of its own turns ends with a fault. -/
def ServesLoads (env : Env) (rest : List UInt8) : List SessionItem → Session → Prop
  | [], s => s.worker.Ready ∧ s.input = rest
  | .load load :: items, s => s.worker.Ready ∧
      ∃ u v, Session.Calls env s [.helper (.call false load.args)] u ∧
        prepare env u = .ok (.call v load.call) ∧ v.loadCall = load.call ∧ v.disk = s.disk ∧
        v.vars = s.vars ∧ v.input = items.flatMap SessionItem.bytes ++ rest ∧
        ∀ t, load.call.run env v = .ok t → ServesLoads env rest items t
  | .other _ :: items, s => s.worker.Ready ∧
      (StopsBefore env s (items.flatMap SessionItem.bytes ++ rest) ∨
        ∃ calls t, Session.Calls env s calls t ∧ (∀ c ∈ calls, c.loads = false) ∧
          t.input = items.flatMap SessionItem.bytes ++ rest ∧ ServesLoads env rest items t)

/-- **The LOADs of a session**, in whatever order they come with other commands. -/
theorem loads_served (env : Env) (rest : List UInt8) (items : List SessionItem)
    (haccepted : ∀ item ∈ items, item.Accepted env) (hfits : ∀ item ∈ items, item.Fits) :
    ∀ {s : Session}, s.worker.Ready → s.input = items.flatMap SessionItem.bytes ++ rest →
      ServesLoads env rest items s := by
  induction items with
  | nil => exact fun {s} hready hinput => ⟨hready, hinput⟩
  | cons item items ih =>
      intro s hready hinput
      have hitem := haccepted item List.mem_cons_self
      have hrest := @ih (fun i hi => haccepted i (List.mem_cons_of_mem item hi))
        fun i hi => hfits i (List.mem_cons_of_mem item hi)
      rw [List.flatMap_cons, List.append_assoc] at hinput
      cases item with
      | load load =>
          have hfit : load.Fits := hfits _ List.mem_cons_self
          obtain ⟨u, v, hcalls, hcall, hwaiting, hload, hdisk, hvars, hinput'⟩ :=
            load_called hfit hready hitem hinput
          refine ⟨hready, u, v, hcalls, hcall, hload.loadCall, hdisk, hvars, hinput',
            fun t ht => ?_⟩
          obtain ⟨hready', hinput''⟩ := load_returned hwaiting hload ht
          exact hrest hready' (hinput''.trans hinput')
      | other line =>
          obtain ⟨hagrees, hpayloads, hkind⟩ := hitem
          refine ⟨hready, ?_⟩
          rcases line_calls hready hagrees hpayloads hkind hinput with
            he | ⟨calls, t, hcalls, hloads, hready', hinput'⟩
          · exact Or.inl he
          · exact Or.inr ⟨calls, t, hcalls, hloads, hinput', hrest hready' hinput'⟩

section Runs

/-- `regexec` on the texts of LOADs. -/
def loadEnv (load : LoadData) : Env where
  regexec := fun text => if text = load.text then some load.args else none
  node := Node.zero

lemma loadEnv_match (load : LoadData) : (loadEnv load).regexec load.text = some load.args :=
  if_pos rfl

/-- A LOAD of `n` columns with the name `a`, and a row of zeros. -/
def zerosLoad (n : ℕ) (h : 0 < n) : LoadData where
  colSize := n
  names := (List.replicate n [97]).flatMap (slot maxNameSize 0)
  rows := [List.replicate n 0]
  colSize_pos := h
  rows_ne_nil := List.cons_ne_nil _ _
  length_names := by
    have hlen := @length_slots UInt8 maxNameSize 0 (List.replicate n [97]) fun word hword => by
      rw [List.eq_of_mem_replicate hword]
      decide
    rwa [List.length_replicate] at hlen
  length_row := fun row hrow => by rw [List.mem_singleton.mp hrow, List.length_replicate]
  fits_row := fun row hrow x hx => by
    rw [List.mem_singleton.mp hrow] at hx
    rw [List.eq_of_mem_replicate hx]
    decide

/-- The session of a worker that gets these items, over a disk with the column `a`. -/
def itemsSession (items : List SessionItem) : Session :=
  newSession .start oneRowDisk (items.flatMap SessionItem.bytes ++ [])

/-- A LOAD of one column. -/
def oneLoad : LoadData := zerosLoad 1 (by decide)

/-- `load_helper` returns from it. -/
lemma oneLoad_run {env : Env} {v : Session} (hcall : v.loadCall = oneLoad.call)
    (hdisk : v.disk = oneRowDisk) : ∃ t, oneLoad.call.run env v = .ok t := by
  rw [Session.loadCall, LoadData.call, WorkerCall.loadHelper.injEq] at hcall
  obtain ⟨hnames, hrows, -, hcols⟩ := hcall
  have hrun : ∃ x, (SessionStep.load ["a"] [[0]]).run env.node oneRowDisk v.vars = .ok x :=
    ⟨_, rfl⟩
  obtain ⟨⟨d, vars, reply⟩, hrun⟩ := hrun
  have hcolNames : ((List.range 1).mapM fun i => do
      columnName (← cString .bounds oneLoad.names (i * maxNameSize))) = .ok ["a"] := by
    decide +kernel
  have hone : oneLoad.colSize = 1 := rfl
  have hzero : oneLoad.rows = [[0]] := rfl
  rw [LoadData.call, WorkerCall.run, finishLoad, hnames, hrows, hcols, hone, hzero, hcolNames,
    Outcome.ok_bind, runStep, hdisk, hrun]
  exact ⟨_, rfl⟩

/-- `loads_served` for two LOADs of one column: the second one gets to `load_helper` too. -/
theorem twoLoads_served :
    ∃ u v t u' v', Session.Calls (loadEnv oneLoad)
        (itemsSession [.load oneLoad, .load oneLoad]) [.helper (.call false oneLoad.args)] u ∧
      prepare (loadEnv oneLoad) u = .ok (.call v oneLoad.call) ∧
      oneLoad.call.run (loadEnv oneLoad) v = .ok t ∧
      Session.Calls (loadEnv oneLoad) t [.helper (.call false oneLoad.args)] u' ∧
      prepare (loadEnv oneLoad) u' = .ok (.call v' oneLoad.call) ∧ v'.input = [] := by
  have hitem : ∀ item ∈ [SessionItem.load oneLoad, .load oneLoad], item = .load oneLoad :=
    fun item hitem => List.eq_of_mem_replicate (n := 2) hitem
  obtain ⟨-, u, v, hcalls, hprepare, hcall, hdisk, -, -, hnext⟩ :=
    loads_served (loadEnv oneLoad) [] [.load oneLoad, .load oneLoad]
      (fun item h => by rw [hitem item h]; exact loadEnv_match _)
      (fun item h => by rw [hitem item h]; exact ⟨by decide, by decide⟩)
      (s := itemsSession [.load oneLoad, .load oneLoad]) ⟨⟨rfl, rfl, rfl, rfl⟩, rfl, rfl⟩ rfl
  obtain ⟨t, ht⟩ := @oneLoad_run (loadEnv oneLoad) v hcall hdisk
  obtain ⟨-, u', v', hcalls', hprepare', -, -, -, hinput, -⟩ := hnext t ht
  exact ⟨u, v, t, u', v', hcalls, hprepare, ht, hcalls', hprepare', hinput⟩

/-- A LOAD whose names fill the buffer does not get as far as `load_helper`. -/
lemma not_servesLoads_full {env : Env} {load : LoadData} {rest : List UInt8} {s : Session}
    {items : List SessionItem} (hfull : load.colSize * maxNameSize = maxCommandBufferSize)
    (hrows : load.rows.length < 2 ^ 31) (hready : s.worker.Ready)
    (hmatch : env.regexec load.text = some load.args)
    (hinput : s.input = load.bytes ++ (items.flatMap SessionItem.bytes ++ rest)) :
    ¬ ServesLoads env rest (.load load :: items) s := by
  rintro ⟨-, u, v, hcalls, hcall, -, -⟩
  have hcols : load.colSize < 2 ^ 31 := by
    have h16 : load.colSize * 16 = 65536 := hfull
    omega
  rw [LoadData.bytes, List.append_assoc, List.append_assoc] at hinput
  obtain ⟨s₁, hcalls₁, hwaiting₁, -, -, -, hrest₁⟩ :=
    text_announced hcols hrows hready hmatch hinput
  obtain ⟨s₂, hcalls₂, -, hprepare⟩ := @frame_prepared env s₁ _ _ hwaiting₁ hrest₁
  have hsent : sentOf load.names = load.names := by
    rw [sentOf, Nat.mod_eq_of_lt (by rw [load.length_names, hfull]; decide), List.take_length]
  rw [hsent, load.length_names, hfull, if_neg (lt_irrefl _)] at hprepare
  -- the worker gets stuck in the state `s₂`, and calls nothing on the way
  rcases (hcalls₁.trans hcalls₂).linear hcalls with ⟨more, -, hmore⟩ | ⟨more, hnil, hmore⟩
  · rcases hmore.head with ⟨-, rfl⟩ | ⟨t, ht, -⟩ | ⟨v', c, calls, t, ht, -⟩
    · rw [hprepare] at hcall
      cases hcall
    · rw [hprepare] at ht
      cases ht
    · rw [hprepare] at ht
      cases ht
  · obtain rfl : more = [] := by simpa using hnil
    rcases hmore.head with ⟨-, rfl⟩ | ⟨t, ht, -⟩ | ⟨v', c, calls, t, -, -, hcons, -⟩
    · rw [hprepare] at hcall
      cases hcall
    · rw [hcall] at ht
      cases ht
    · cases hcons

/-- A LOAD of 4096 columns. -/
def fullLoad : LoadData := zerosLoad 4096 (by decide)

/-- **A full buffer**: the names of 4096 columns fit the buffer, and the zero byte behind them does
not. -/
theorem fullLoad_notServed :
    SessionItem.Accepted (loadEnv fullLoad) (.load fullLoad) ∧
      fullLoad.names.length ≤ maxCommandBufferSize ∧
      (∀ row ∈ fullLoad.rows, (bytesOfInts row).length ≤ maxCommandBufferSize) ∧
      ¬ ServesLoads (loadEnv fullLoad) [] [.load fullLoad] (itemsSession [.load fullLoad]) := by
  refine ⟨loadEnv_match _, ?_, fun row hrow => ?_, ?_⟩
  · rw [fullLoad.length_names]
    exact (by decide : 4096 * maxNameSize ≤ maxCommandBufferSize)
  · rw [length_bytesOfInts, fullLoad.length_row row hrow]
    exact (by decide : 4 * 4096 ≤ maxCommandBufferSize)
  · refine not_servesLoads_full (by decide) (by decide) ⟨⟨rfl, rfl, rfl, rfl⟩, rfl, rfl⟩
      (loadEnv_match _) ?_
    rw [itemsSession, newSession, List.flatMap_cons, List.append_assoc]
    rfl

end Runs

end ColumnDb
