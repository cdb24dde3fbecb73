import ColumnDb.Library.Slots
import ColumnDb.Session.Framing
import ColumnDb.Session.Numerals
import Mathlib.Data.Bool.AllAny

/-!
The tokens of a TUPLE, DELETE or INSERT (`client.c`, `worker.c`, `helper_fetch_command.c`).

The client cuts `insert(t1,...,tn)` into tokens, sends `insert(n)`, and then a slot of
`MAX_NAME_SIZE` bytes for each token. The worker notes the `n` and reads the slots.

* `NamesCommand`: one of the three commands, with the line that is typed and the step of the worker.
* `TokenSlots.Holds`: the slots hold the tokens so far; `tokenTurn_holds` keeps this.
* `clientLine_names`: what the client sends for a line.
* `ReadsTokens`: the worker has the payload in its buffer, its slots are the tokens, and it goes on
  with the step of the command.
* `namesLine_read_iff`: this is so exactly when the slots are smaller than the buffer: the payload
  is followed by a zero byte.
-/

namespace ColumnDb

/-! ### The commands -/

/-- The commands whose names are sent in slots. -/
inductive NamesCommand where
  | tuple
  | delete
  | insert

namespace NamesCommand

/-- The word of a command. -/
def word : NamesCommand → String
  | tuple => "tuple"
  | delete => "delete"
  | insert => "insert"

/-- What the client takes the line for. -/
def lineKind : NamesCommand → LineKind
  | tuple => .tuple
  | delete => .delete
  | insert => .insert

/-- What the server takes it for. -/
def command : NamesCommand → Command
  | tuple => .tuple
  | delete => .delete
  | insert => .insert

/-- The line `cmd(t1,...,tn)` with its end. -/
def line (k : NamesCommand) (ts : List (List UInt8)) : List UInt8 :=
  bytesOfText (k.word ++ "(") ++ ([44].intercalate ts ++ [41, 10])

/-- The text `cmd(n)`. -/
def countText (k : NamesCommand) (n : ℕ) : String := k.word ++ "(" ++ toString n ++ ")"

/-- The columns of an INSERT with their values. -/
def pairs : List String → List (String × ℤ)
  | name :: val :: names => (name, intArg val) :: pairs names
  | _ => []

/-- The step of the worker for the names of a command. -/
def step : NamesCommand → List String → SessionStep
  | tuple, names => .tuple names
  | delete, names => .delete (names.headD "") names.tail
  | insert, names => .insert (pairs names)

end NamesCommand

/-- A token of a line that fits a slot. -/
structure IsToken (t : List UInt8) : Prop where
  ne_nil : t ≠ []
  length_lt : t.length < maxNameSize
  separators : ∀ b ∈ t, b ≠ 44 ∧ b ≠ 41 ∧ b ≠ 10 ∧ b ≠ 0

/-! ### The client -/

/-- The slots hold the tokens, and are zero behind them. -/
structure TokenSlots.Holds (ts : List (List UInt8)) (s : TokenSlots) : Prop where
  vCount : s.vCount = ts.length
  le : ts.length ≤ s.vBuffer
  mem : s.mem = ts.flatMap (slot maxNameSize 0)
    ++ List.replicate ((s.vBuffer - ts.length) * maxNameSize) 0

lemma TokenSlots.holds_create : TokenSlots.Holds [] .create where
  vCount := rfl
  le := Nat.zero_le _
  mem := rfl

section Client

variable {ts : List (List UInt8)}

/-- **A turn of the loop over the tokens** writes the token to the next slot. -/
theorem tokenTurn_holds {s : TokenSlots} (h : s.Holds ts) (hts : ∀ t ∈ ts, t.length < maxNameSize)
    {t : List UInt8} (ht : t.length < maxNameSize) :
    ∃ s', tokenTurn s t = .ok s' ∧ s'.Holds (ts ++ [t]) := by
  obtain ⟨hcount, hle, hmem⟩ := h
  have hslots := @length_slots UInt8 maxNameSize 0 ts fun t' h' => (hts t' h').le
  have hmemlen : s.mem.length = s.vBuffer * maxNameSize := by
    rw [hmem, List.length_append, hslots, List.length_replicate, ← Nat.add_mul,
      Nat.add_sub_cancel' hle]
  -- the slots grow as long as there is none left
  obtain ⟨m, hm, hgrow⟩ : ∃ m,
      (if s.vCount = s.vBuffer then (1 + s.vCount) * 2 else s.vBuffer) = ts.length + (m + 1) ∧
        s.vBuffer ≤ ts.length + (m + 1) := by
    by_cases hfull : s.vCount = s.vBuffer
    · exact ⟨ts.length + 1, by rw [if_pos hfull]; omega, by omega⟩
    · exact ⟨s.vBuffer - ts.length - 1, by rw [if_neg hfull]; omega, by omega⟩
  have hfree : s.mem ++ List.replicate ((ts.length + (m + 1)) * maxNameSize - s.mem.length) 0
      = ts.flatMap (slot maxNameSize 0) ++ List.replicate ((m + 1) * maxNameSize) 0 := by
    rw [hmemlen, hmem, List.append_assoc, ← List.replicate_add, ← Nat.sub_mul, ← Nat.add_mul]
    congr 3
    omega
  have hroom : s.vCount * maxNameSize + t.length
      < (ts.flatMap (slot maxNameSize 0) ++ List.replicate ((m + 1) * maxNameSize) 0).length := by
    rw [List.length_append, hslots, List.length_replicate, hcount, Nat.succ_mul]
    omega
  have hturn : tokenTurn s t = .ok
      { mem := splice (ts.flatMap (slot maxNameSize 0)
          ++ List.replicate ((m + 1) * maxNameSize) 0) (s.vCount * maxNameSize) (t ++ [0])
        vCount := s.vCount + 1
        vBuffer := ts.length + (m + 1) } := by
    rw [tokenTurn]
    simp only [hm, hfree]
    exact if_pos hroom
  have hlen : (ts ++ [t]).length = ts.length + 1 := by
    rw [List.length_append, List.length_singleton]
  have hle' : (ts ++ [t]).length ≤ ts.length + (m + 1) := by omega
  refine ⟨_, hturn, ?_, hle', ?_⟩
  · rw [hlen, hcount]
  · have hleft : ts.length + (m + 1) - (ts ++ [t]).length = m := by omega
    rw [hleft, List.flatMap_append, List.flatMap_singleton, hcount, ← hslots]
    exact splice_slot ht _ m

/-- The loop over the tokens. -/
lemma tokenTurn_foldlM (more : List (List UInt8)) : ∀ {ts : List (List UInt8)} {s : TokenSlots},
    s.Holds ts → (∀ t ∈ ts ++ more, t.length < maxNameSize) →
    ∃ s', more.foldlM tokenTurn s = .ok s' ∧ s'.Holds (ts ++ more) := by
  intro ts s h hlen
  refine foldlM_ok (P := fun before (s : TokenSlots) => s.Holds (ts ++ before)) more
    (fun before t after s hsplit h => ?_) (by rwa [List.append_nil])
  obtain ⟨s', hturn, h'⟩ := tokenTurn_holds h
    (fun t' ht' => hlen t' (by rw [hsplit, ← List.append_assoc]; exact List.mem_append_left _ ht'))
    (hlen t (by rw [hsplit]; simp))
  exact ⟨s', hturn, by rwa [← List.append_assoc]⟩

/-- The tokens of a line; its end is the last one. -/
lemma tokens_joined (hne : ts ≠ []) (hts : ∀ t ∈ ts, IsToken t) :
    tokens ([44].intercalate ts ++ [41, 10]) = ts ++ [[10]] := by
  have hsplit := @splitOnP_joined _ (fun b : UInt8 => decide (b = 44 ∨ b = 41)) 44 41 (by decide)
    (by decide) [10] ts hne fun t ht b hb => by
      obtain ⟨hcomma, hclose, -, -⟩ := (hts t ht).separators b hb
      simp [hcomma, hclose]
  rw [tokens, hsplit, List.filter_append]
  congr 1
  exact List.filter_eq_self.mpr fun t ht => by simpa using (hts t ht).ne_nil

/-- The names of a line. -/
lemma namesLine_line (k : NamesCommand) (hne : ts ≠ []) (hts : ∀ t ∈ ts, IsToken t) :
    namesLine k.lineKind (k.line ts) (bytesOfText (k.word ++ "(")).length = .ok
      { kind := k.lineKind
        text := bytesOfText (k.countText ts.length)
        payloads := [ts.flatMap (slot maxNameSize 0)] } := by
  have hlen : ∀ t ∈ ts ++ [[10]], t.length < maxNameSize := by
    intro t ht
    rcases List.mem_append.mp ht with ht | ht
    · exact (hts t ht).length_lt
    · rw [List.mem_singleton.mp ht]
      decide
  obtain ⟨slots, hfold, hholds⟩ := tokenTurn_foldlM (ts ++ [[10]]) TokenSlots.holds_create hlen
  have hcount : slots.vCount = ts.length + 1 := by
    rw [hholds.vCount, List.nil_append, List.length_append, List.length_singleton]
  have hmem : slots.mem.take (ts.length * maxNameSize) = ts.flatMap (slot maxNameSize 0) := by
    have hslots := @length_slots UInt8 maxNameSize 0 ts fun t h => (hts t h).length_lt.le
    rw [hholds.mem, List.nil_append, List.flatMap_append, List.append_assoc,
      List.take_left' hslots]
  rw [namesLine, NamesCommand.line, List.drop_left' rfl, List.take_left' rfl, tokens_joined hne hts,
    hfold, Outcome.ok_bind, if_neg (by omega)]
  simp only [hcount, Nat.add_sub_cancel, hmem, bytesOfText, NamesCommand.countText,
    String.toList_append, List.map_append, List.append_assoc]

/-- A line ends with the parenthesis and its newline. -/
lemma NamesCommand.line_closed (k : NamesCommand) (ts : List (List UInt8)) :
    2 ≤ (k.line ts).length ∧ (k.line ts).getD ((k.line ts).length - 2) 0 = 41 := by
  have hline : k.line ts = bytesOfText (k.word ++ "(") ++ [44].intercalate ts ++ [41, 10] := by
    rw [NamesCommand.line, List.append_assoc]
  have hend : (k.line ts).length - 2
      = (bytesOfText (k.word ++ "(") ++ [44].intercalate ts).length := by
    rw [hline, List.length_append]
    rfl
  constructor
  · rw [hline, List.length_append]
    exact Nat.le_add_left 2 _
  · rw [hend, hline, List.getD_eq_getElem?_getD, List.getElem?_append_right le_rfl, Nat.sub_self]
    rfl

/-- **What the client sends** for a line: the number of the tokens, and the tokens in slots. -/
theorem clientLine_names (files : String → Option LoadFile) (k : NamesCommand) (hne : ts ≠ [])
    (hts : ∀ t ∈ ts, IsToken t) :
    clientLine files (k.line ts) = .ok (some
      { kind := k.lineKind
        text := bytesOfText (k.countText ts.length)
        payloads := [ts.flatMap (slot maxNameSize 0)] }) := by
  obtain ⟨hlong, hlast⟩ := k.line_closed ts
  have hnames := namesLine_line k hne hts
  rw [clientLine, if_neg (List.ne_nil_of_length_pos (by omega)), if_neg (by omega),
    if_neg (not_not.mpr hlast)]
  cases k with
  | tuple =>
      have hload : startsWith (NamesCommand.tuple.line ts) "load" = false := rfl
      have htuple : startsWith (NamesCommand.tuple.line ts) "tuple" = true := rfl
      rw [hload, htuple]
      simp only [Bool.false_eq_true, if_false, if_true]
      exact congrArg (· >>= fun line => .ok (some line)) hnames
  | delete =>
      have hload : startsWith (NamesCommand.delete.line ts) "load" = false := rfl
      have htuple : startsWith (NamesCommand.delete.line ts) "tuple" = false := rfl
      have hdelete : startsWith (NamesCommand.delete.line ts) "delete" = true := rfl
      rw [hload, htuple, hdelete]
      simp only [Bool.false_eq_true, if_false, if_true]
      exact congrArg (· >>= fun line => .ok (some line)) hnames
  | insert =>
      have hload : startsWith (NamesCommand.insert.line ts) "load" = false := rfl
      have htuple : startsWith (NamesCommand.insert.line ts) "tuple" = false := rfl
      have hdelete : startsWith (NamesCommand.insert.line ts) "delete" = false := rfl
      have hinsert : startsWith (NamesCommand.insert.line ts) "insert" = true := rfl
      rw [hload, htuple, hdelete, hinsert]
      simp only [Bool.false_eq_true, if_false, if_true]
      exact congrArg (· >>= fun line => .ok (some line)) hnames

end Client

/-! ### The slots of a payload -/

/-- The slots of a payload in the buffer are its tokens. -/
lemma slotString_slots {ts : List (List UInt8)} (hts : ∀ t ∈ ts, IsToken t) (s : Session) {i : ℕ}
    {t : List UInt8} (hi : ts[i]? = some t) :
    slotString (receive s (ts.flatMap (slot maxNameSize 0))).buffer i = .ok (textOfBytes t) := by
  obtain ⟨rest, hbuffer⟩ := buffer_receive s (ts.flatMap (slot maxNameSize 0))
  obtain ⟨hmem, hread⟩ := takeWhile_slots (z := (0 : UInt8)) (w := maxNameSize)
    (fun t h => ⟨(hts t h).length_lt, fun h0 => ((hts t h).separators 0 h0).2.2.2 rfl⟩)
    (0 :: rest) hi
  rw [slotString, cString, hbuffer, if_pos hmem, hread]

/-- A token is the name of a column. -/
lemma columnName_token {t : List UInt8} (h : IsToken t) :
    columnName (textOfBytes t) = .ok (textOfBytes t) := by
  have hlen : (textOfBytes t).length = t.length := by
    rw [textOfBytes, String.length_ofList, List.length_map]
  have hpos := List.length_pos_iff.mpr h.ne_nil
  have hne : textOfBytes t ≠ "" := fun hnil => by
    rw [hnil] at hlen
    exact absurd hlen.symm hpos.ne'
  rw [columnName, hlen, if_neg (not_le.mpr h.length_lt), if_neg hne]

/-! ### The worker -/

/-- What `turn` does before it handles a payload: the payload is received, and a zero byte is
written behind it. -/
def receiveTurn (s : Session) : Outcome Session :=
  let n := s.worker.sizeExpected
  if maxCommandBufferSize < min n s.input.length then .error .bounds
  else if s.input.length < n then .error .exit
  else if n = maxCommandBufferSize then .error .bounds
  else .ok (receive { s with input := s.input.drop n } (s.input.take n))

/-- What `turn` does then. -/
def handlePayload (env : Env) (s : Session) : Outcome Turn :=
  if s.worker.isLoading then return .next (← loadTurn env s)
  else if s.worker.isTuple then return .next (← tupleWorkTurn env s)
  else if s.worker.isInsert then return .next (← insertWorkTurn env s)
  else if s.worker.isDelete then return .next (← deleteWorkTurn env s)
  else do
    let text ← slotString s.buffer 0
    if endsSession text then .ok (.done s)
    else return .next (← matchAndDispatch env s text)

/-- **A turn for a payload** that the peer has sent is these two. -/
theorem turn_payload_eq (env : Env) {s : Session} (hwaiting : s.worker.isWaitingForMeta = false)
    (hinput : s.worker.sizeExpected ≤ s.input.length) :
    turn env s = receiveTurn s >>= handlePayload env := by
  rw [turn, receiveTurn]
  simp only [hwaiting, Bool.false_eq_true, if_false, if_neg (not_lt.mpr hinput)]
  split_ifs <;> rfl

/-- The worker has the `n` slots of a payload in its buffer, reads the tokens in them, and calls the
helper of the command with the tokens; an INSERT takes them in pairs. -/
def ReadsTokens (env : Env) (k : NamesCommand) (ts : List (List UInt8)) (s : Session)
    (rest : List UInt8) : Prop :=
  ∃ t u, Session.ReachedFrom env s t ∧ t.worker.isWaitingForMeta = false ∧
    t.worker.sizeExpected = ts.length * maxNameSize ∧ receiveTurn t = .ok u ∧
    u.worker.vCount = ts.length ∧
    (List.range ts.length).mapM (slotString u.buffer) = .ok (ts.map textOfBytes) ∧
    ((k = .insert → Even ts.length) → ∃ v, v.disk = s.disk ∧ v.vars = s.vars ∧ v.input = rest ∧
      v.worker.Ready ∧
      handlePayload env u = (runStep env v (k.step (ts.map textOfBytes))).map .next)

/-- What `regexec` finds in the text `cmd(n)`. -/
def NamesCommand.countArgs (k : NamesCommand) (n : ℕ) : InputArgs where
  var := ""
  command := k.command
  argOne := toString n
  argTwo := ""
  argThree := ""

/-- The text of a command, whose bytes are not zero. -/
lemma commandText_bytesOfText {text : String}
    (h : ∀ c ∈ text.toList, 0 < c.toNat ∧ c.toNat < 256) :
    commandText (bytesOfText text) = text := by
  have hnonzero : ∀ b ∈ bytesOfText text, decide (b ≠ 0) = true := by
    intro b hb
    obtain ⟨c, hc, rfl⟩ := List.mem_map.mp hb
    obtain ⟨hpos, hlt⟩ := h c hc
    refine decide_eq_true fun hzero => ?_
    have hnat := congrArg UInt8.toNat hzero
    rw [UInt8.toNat_ofNat', Nat.mod_eq_of_lt hlt] at hnat
    exact hpos.ne' hnat
  rw [commandText, List.takeWhile_eq_self_iff.mpr hnonzero,
    textOfBytes_bytesOfText fun c hc => (h c hc).2]

/-- A printed `int` fits an argument. -/
lemma length_toString_lt {n : ℕ} (h : n < 2 ^ 31) : (toString n).length < maxInputBytes := by
  rw [Nat.toString_eq_ofList_toDigits, String.length_ofList]
  exact (length_toDigits_le h).trans_lt (by decide)

/-- The arguments have room for what `regexec` finds. -/
lemma matchRegex_of_short {env : Env} {text : String} {args : InputArgs}
    (hmatch : env.regexec text = some args) (hvar : args.var.length < maxInputBytes)
    (hone : args.argOne.length < maxInputBytes) (htwo : args.argTwo.length < maxInputBytes)
    (hthree : args.argThree.length < maxInputBytes) :
    matchRegex env text = .ok (some args) := by
  rw [matchRegex, hmatch]
  refine if_neg ?_
  rintro (h | h | h | h) <;> omega

section Worker

variable {env : Env} {k : NamesCommand} {n : ℕ} {s : Session} {rest : List UInt8}

lemma toList_countText (k : NamesCommand) (n : ℕ) :
    (k.countText n).toList = k.word.toList ++ '(' :: (Nat.toDigits 10 n ++ [')']) := by
  rw [NamesCommand.countText, String.toList_append, String.toList_append, String.toList_append,
    Nat.toString_eq_ofList_toDigits, @String.toList_ofList (Nat.toDigits 10 n), List.append_assoc,
    List.append_assoc]
  rfl

lemma commandText_countText (k : NamesCommand) (n : ℕ) :
    commandText (bytesOfText (k.countText n)) = k.countText n := by
  refine commandText_bytesOfText ?_
  have hword : ∀ c ∈ k.word.toList, 0 < c.toNat ∧ c.toNat < 256 := by
    cases k <;> exact List.all_iff_forall_prop.mp (by decide)
  rw [toList_countText]
  simp only [List.forall_mem_append, List.forall_mem_cons]
  exact ⟨hword, by decide, fun c => toDigits_range, by decide, List.forall_mem_nil _⟩

lemma endsSession_countText (k : NamesCommand) (n : ℕ) : endsSession (k.countText n) = false := by
  rw [endsSession, toList_countText]
  cases k <;> rfl

/-- The arguments have room for the groups of `cmd(n)`. -/
lemma matchRegex_countText (hn : n < 2 ^ 31) (hmatch : env.regexec (k.countText n)
    = some (k.countArgs n)) : matchRegex env (k.countText n) = .ok (some (k.countArgs n)) := by
  have hempty : "".length < maxInputBytes := by decide
  exact matchRegex_of_short hmatch hempty (length_toString_lt hn) hempty hempty

/-- The command notes the count. -/
lemma announce_countArgs (w : WorkerVars) (hn : 1 ≤ n) (hn' : n < 2 ^ 31) :
    ∃ w', announce w (k.countArgs n) = .ok w' ∧ w'.vCount = n := by
  have hcount : intArg (k.countArgs n).argOne = n := intArg_toString hn'
  have hne : ¬ (n : ℤ) = 0 := by omega
  cases k with
  | tuple =>
      refine ⟨{ w with vCount := n, isTuple := true }, ?_, rfl⟩
      rw [announce, hcount]
      exact if_neg hne
  | delete =>
      refine ⟨{ w with vCount := n, isDelete := true }, ?_, rfl⟩
      rw [announce, hcount]
      exact if_neg hne
  | insert =>
      refine ⟨{ w with vCount := n, isInsert := true }, ?_, rfl⟩
      rw [announce, hcount]
      exact if_neg hne

/-- What a command that matches leaves for its dispatch. -/
lemma matched_announced (s : Session) (data rest : List UInt8) (args : InputArgs) :
    ((receive (s.announced data rest) data).matched args).disk = s.disk ∧
      ((receive (s.announced data rest) data).matched args).vars = s.vars ∧
      ((receive (s.announced data rest) data).matched args).input = rest := ⟨rfl, rfl, rfl⟩

/-- **The count** of a line is noted, and nothing else happens. -/
theorem count_taken (hready : s.worker.Ready) (hn : 1 ≤ n) (hn' : n < 2 ^ 31)
    (hmatch : env.regexec (k.countText n) = some (k.countArgs n))
    (hinput : s.input = safeSend (bytesOfText (k.countText n)) ++ rest) :
    ∃ t, Session.ReachedFrom env s t ∧ t.worker.isWaitingForMeta = true ∧
      t.worker.AfterKind k.lineKind ∧ t.worker.vCount = n ∧ t.disk = s.disk ∧ t.vars = s.vars ∧
      t.input = rest := by
  have hroom : (bytesOfText (k.countText n)).length < maxCommandBufferSize := by
    have hdigits := length_toDigits_le hn'
    have hword : k.word.toList.length ≤ 6 := by cases k <;> decide
    rw [bytesOfText, List.length_map, toList_countText, List.length_append, List.length_cons,
      List.length_append, List.length_singleton]
    exact lt_of_le_of_lt (by omega : _ ≤ 18) (by decide)
  set data := bytesOfText (k.countText n) with hdata
  have hcommand := hready.announced data rest
  set s₁ := (receive (s.announced data rest) data).matched (k.countArgs n) with hs₁
  have hready₁ : s₁.worker.Ready :=
    ⟨⟨hcommand.isLoading, hcommand.isTuple, hcommand.isInsert, hcommand.isDelete⟩, rfl,
      hready.idle⟩
  obtain ⟨w, hannounce, hcount⟩ := @announce_countArgs k n s₁.worker hn hn'
  obtain ⟨hwaiting, hafter⟩ := announce_afterKind hready₁ hannounce
  have hkind : serverKind (k.countArgs n) = k.lineKind := by cases k <;> rfl
  have hcall : (SessionStep.call s₁.worker.hasVar (k.countArgs n)).run env.node s₁.disk s₁.vars
      = .ok (s₁.disk, s₁.vars, none) := by cases k <;> rfl
  have hturn : payloadTurn env (s.announced data rest) data = .ok (.next
      { s₁ with
        worker := w
        executed := s₁.executed ++ [k.countArgs n]
        sent := s₁.sent ++ [] }) := by
    have hargs : s₁.args = some (k.countArgs n) := rfl
    rw [payloadTurn_of_awaitsCommand hcommand, hdata, commandText_countText,
      endsSession_countText, if_neg Bool.false_ne_true, matchAndDispatch,
      matchRegex_countText hn' hmatch, Outcome.ok_bind]
    simp only
    rw [← hdata, ← hs₁, dispatch, hargs]
    simp only [hannounce, Outcome.ok_bind, runStep, hcall]
    rfl
  rw [hkind] at hafter
  have hreached := reached_message data rest hroom hready.waiting hinput hturn
  obtain ⟨hdisk, hvars, hrest⟩ := matched_announced s data rest (k.countArgs n)
  exact ⟨_, hreached, hwaiting, hafter, hcount, hdisk, hvars, hrest⟩

/-- A loop over the slots from the slot `j` on. -/
lemma mapM_range'_eq_ok {β γ : Type} {f : ℕ → Outcome γ} {g : β → γ} (xs : List β) : ∀ j : ℕ,
    (∀ i x, xs[i]? = some x → f (j + i) = .ok (g x)) →
    (List.range' j xs.length).mapM f = .ok (xs.map g) := by
  induction xs with
  | nil => exact fun j _ => rfl
  | cons x xs ih =>
      intro j h
      have hrest := ih (j + 1) fun i y hy => by
        have := h (i + 1) y hy
        rwa [Nat.add_right_comm]
      have hfirst : f j = .ok (g x) := h 0 x rfl
      rw [List.length_cons, List.range'_succ, List.mapM_cons, hfirst, Outcome.ok_bind, hrest]
      rfl

/-- A loop over pairs of slots. -/
lemma mapM_pairs_eq_ok {f : ℕ → Outcome String} (names : List String) : ∀ j : ℕ,
    Even names.length → (∀ name ∈ names, columnName name = .ok name) →
    (∀ i name, names[i]? = some name → f (2 * j + i) = .ok name) →
    (List.range' j (names.length / 2)).mapM (fun i => do
        let colName ← columnName (← f (2 * i))
        .ok (colName, intArg (← f (2 * i + 1))))
      = .ok (NamesCommand.pairs names) := by
  induction names using NamesCommand.pairs.induct with
  | case1 name val names ih =>
      intro j heven hnames h
      have hrest := ih (j + 1) (by simpa [Nat.even_add_one] using heven)
        (fun name' h' => hnames name' (by simp [h'])) fun i name' h' => by
          have := h (i + 2) name' h'
          rwa [show 2 * (j + 1) + i = 2 * j + (i + 2) by omega]
      have hhalf : (name :: val :: names).length / 2 = names.length / 2 + 1 := by
        simp only [List.length_cons]
        omega
      have hname : f (2 * j) = .ok name := h 0 name rfl
      have hval : f (2 * j + 1) = .ok val := h 1 val rfl
      rw [hhalf, List.range'_succ, List.mapM_cons, hname, Outcome.ok_bind,
        hnames name List.mem_cons_self, Outcome.ok_bind, hval, Outcome.ok_bind, Outcome.ok_bind,
        hrest]
      rfl
  | case2 names hshort =>
      intro j heven _ _
      cases names with
      | nil => rfl
      | cons name names =>
          cases names with
          | nil => exact absurd heven Nat.not_even_one
          | cons val names => exact absurd rfl (hshort name val names)

/-- The step of a command on the names in the slots of the buffer. -/
lemma handlePayload_names {u : Session} {names : List String} (hne : names ≠ [])
    (hwaiting : u.worker.isWaitingForMeta = true) (hafter : u.worker.AfterKind k.lineKind)
    (hcount : u.worker.vCount = names.length) (hlt : names.length < 2 ^ 32)
    (hslots : ∀ i name, names[i]? = some name → slotString u.buffer i = .ok name)
    (hnames : ∀ name ∈ names, columnName name = .ok name)
    (heven : k = .insert → Even names.length) :
    ∃ v, v.sent = u.sent ∧ v.disk = u.disk ∧ v.vars = u.vars ∧ v.input = u.input ∧
      v.worker.Ready ∧ handlePayload env u = (runStep env v (k.step names)).map .next := by
  have hnumber : u.worker.slots = names.length := by
    rw [WorkerVars.slots, hcount]
    omega
  cases k with
  | tuple =>
      obtain ⟨hloading, hidle, htuple, hinsert, hdelete⟩ := hafter
      refine ⟨{ u with
                worker := { u.worker with isTuple := false }
                buffer := List.replicate maxCommandBufferSize 0 }, rfl, rfl, rfl, rfl,
        ⟨⟨hloading, rfl, hinsert, hdelete⟩, hwaiting, hidle⟩, ?_⟩
      have hread := @mapM_range'_eq_ok _ _ (slotString u.buffer) id names 0 fun i name hi => by
        rw [Nat.zero_add]
        exact hslots i name hi
      rw [List.map_id] at hread
      rw [handlePayload, hloading, htuple, if_neg Bool.false_ne_true, if_pos rfl, tupleWorkTurn,
        hcount, if_neg (by omega), Int.toNat_natCast, List.range_eq_range', hread]
      rfl
  | delete =>
      obtain ⟨hloading, hidle, htuple, hinsert, hdelete⟩ := hafter
      refine ⟨{ u with worker := { u.worker with isDelete := false } }, rfl, rfl, rfl, rfl,
        ⟨⟨hloading, htuple, hinsert, rfl⟩, hwaiting, hidle⟩, ?_⟩
      obtain ⟨var, colNames, rfl⟩ := List.exists_cons_of_ne_nil hne
      have hvar : slotString u.buffer 0 = .ok var := hslots 0 var rfl
      have hread := @mapM_range'_eq_ok _ _ (fun u' => slotString u.buffer u' >>= columnName) id
        colNames 1 fun i name hi => by
          rw [hslots (1 + i) name (by rw [Nat.add_comm]; exact hi), Outcome.ok_bind]
          exact hnames name (List.mem_cons_of_mem var (List.mem_of_getElem? hi))
      rw [List.map_id] at hread
      rw [handlePayload, hloading, htuple, hinsert, hdelete, if_neg Bool.false_ne_true,
        if_neg Bool.false_ne_true, if_neg Bool.false_ne_true, if_pos rfl, deleteWorkTurn, hvar,
        Outcome.ok_bind, hnumber, List.length_cons, Nat.add_sub_cancel, hread]
      rfl
  | insert =>
      obtain ⟨hloading, hidle, htuple, hinsert, hdelete⟩ := hafter
      refine ⟨{ u with worker := { u.worker with isInsert := false } }, rfl, rfl, rfl, rfl,
        ⟨⟨hloading, htuple, rfl, hdelete⟩, hwaiting, hidle⟩, ?_⟩
      have heven' := heven rfl
      have hread := mapM_pairs_eq_ok names 0 heven' hnames fun i name hi => by
        rw [Nat.mul_zero, Nat.zero_add]
        exact hslots i name hi
      have hparity : u.worker.vCount % 2 = 0 := by
        rw [hcount]
        obtain ⟨m, hm⟩ := heven'
        omega
      rw [handlePayload, hloading, htuple, hinsert, if_neg Bool.false_ne_true,
        if_neg Bool.false_ne_true, if_pos rfl, insertWorkTurn, if_pos hparity, hnumber,
        List.range_eq_range', hread]
      rfl

/-- **The payload** of a command is in the buffer when there is room for its end. -/
theorem payload_read {ts : List (List UInt8)} (hne : ts ≠ []) (hts : ∀ t ∈ ts, IsToken t)
    (hroom : ts.length * maxNameSize < maxCommandBufferSize)
    (hwaiting : s.worker.isWaitingForMeta = true) (hafter : s.worker.AfterKind k.lineKind)
    (hcount : s.worker.vCount = ts.length)
    (hinput : s.input = safeSend (ts.flatMap (slot maxNameSize 0)) ++ rest) :
    ReadsTokens env k ts s rest := by
  set data := ts.flatMap (slot maxNameSize 0) with hdata
  have hlen : data.length = ts.length * maxNameSize :=
    length_slots fun t ht => (hts t ht).length_lt.le
  have hsent : sentOf data = data := by
    rw [sentOf, Nat.mod_eq_of_lt (by rw [hlen]; exact hroom.trans (by decide)), List.take_length]
  have hlength := turn_length env hwaiting hinput
  rw [hsent] at hlength
  have hreceive : receiveTurn { s.announced data rest with input := data ++ rest }
      = .ok (receive (s.announced data rest) data) := by
    have hsize : (s.announced data rest).worker.sizeExpected = data.length := rfl
    have hmin : min data.length (data ++ rest).length = data.length := by simp
    rw [receiveTurn]
    simp only [hsize, hmin, List.take_left', List.drop_left']
    rw [if_neg (by omega), if_neg (by simp), if_neg (by omega)]
    rfl
  have hslot : ∀ i t, ts[i]? = some t →
      slotString (receive (s.announced data rest) data).buffer i = .ok (textOfBytes t) :=
    fun i t hi => slotString_slots hts (s.announced data rest) hi
  refine ⟨_, _, .next .start hlength, rfl, hlen, hreceive, hcount, ?_, fun heven => ?_⟩
  · rw [List.range_eq_range']
    exact mapM_range'_eq_ok ts 0 fun i t hi => by
      rw [Nat.zero_add]
      exact hslot i t hi
  · have hlen' : (ts.map textOfBytes).length = ts.length := List.length_map textOfBytes
    have hne' : ts.map textOfBytes ≠ [] := fun h => hne (List.map_eq_nil_iff.mp h)
    have hslot' : ∀ i name, (ts.map textOfBytes)[i]? = some name →
        slotString (receive (s.announced data rest) data).buffer i = .ok name := fun i name hi => by
      rw [List.getElem?_map, Option.map_eq_some_iff] at hi
      obtain ⟨t, ht, rfl⟩ := hi
      exact hslot i t ht
    have hnames : ∀ name ∈ ts.map textOfBytes, columnName name = .ok name := fun name hname => by
      obtain ⟨t, ht, rfl⟩ := List.mem_map.mp hname
      exact columnName_token (hts t ht)
    have hlt : (ts.map textOfBytes).length < 2 ^ 32 := by
      have hroom' : ts.length * 16 < 65536 := hroom
      omega
    obtain ⟨v, -, hv⟩ := @handlePayload_names env k (receive (s.announced data rest) data) _ hne'
      rfl hafter (by rw [hlen']; exact hcount) hlt hslot' hnames (by rwa [hlen'])
    exact ⟨v, hv⟩

end Worker

/-! ### A line -/

/-- A line is sent with the number of its tokens, and whatever session the server is in when it
arrives, the worker reads the tokens. -/
def TokensCarried (env : Env) (files : String → Option LoadFile) (k : NamesCommand)
    (ts : List (List UInt8)) : Prop :=
  ∃ line, clientLine files (k.line ts) = .ok (some line) ∧
    line.text = bytesOfText (k.countText ts.length) ∧
    ∀ s rest, s.worker.Ready → s.input = line.bytes ++ rest → ReadsTokens env k ts s rest

/-- A payload that fills the buffer leaves no room for its end. -/
lemma ReadsTokens.room {env : Env} {k : NamesCommand} {ts : List (List UInt8)} {s : Session}
    {rest : List UInt8} (h : ReadsTokens env k ts s rest) :
    ts.length * maxNameSize < maxCommandBufferSize := by
  obtain ⟨t, u, -, -, hsize, hreceive, -⟩ := h
  rw [receiveTurn] at hreceive
  simp only [hsize] at hreceive
  split_ifs at hreceive with hover hshort hfull
  omega

lemma TokensCarried.room {env : Env} {files : String → Option LoadFile} {k : NamesCommand}
    {ts : List (List UInt8)} (h : TokensCarried env files k ts) :
    ts.length * maxNameSize < maxCommandBufferSize := by
  obtain ⟨line, -, -, hreads⟩ := h
  exact (hreads (newSession .start (fun _ => none) line.bytes) [] ⟨⟨rfl, rfl, rfl, rfl⟩, rfl, rfl⟩
    (List.append_nil _).symm).room

/-- **The tokens of a line** of a TUPLE, DELETE or INSERT: the client sends their number and the
worker reads them back exactly when the slots do not fill the buffer. -/
theorem namesLine_read_iff (env : Env) (files : String → Option LoadFile) (k : NamesCommand)
    {ts : List (List UInt8)} (hne : ts ≠ []) (hts : ∀ t ∈ ts, IsToken t)
    (hmatch : env.regexec (k.countText ts.length) = some (k.countArgs ts.length)) :
    TokensCarried env files k ts ↔ ts.length * maxNameSize < maxCommandBufferSize := by
  refine ⟨TokensCarried.room, fun hroom => ?_⟩
  refine ⟨_, clientLine_names files k hne hts, rfl, fun s rest hready hinput => ?_⟩
  rw [ClientLine.bytes, List.flatMap_cons, List.flatMap_singleton, List.append_assoc] at hinput
  have hpos := List.length_pos_iff.mpr hne
  have hroom' : ts.length * 16 < 65536 := hroom
  obtain ⟨t, hreach, hwaiting, hafter, hcount, hdisk, hvars, hrest⟩ :=
    count_taken hready hpos (by omega) hmatch hinput
  obtain ⟨t', u, hreach', hpayload, hsize, hreceive, hcount', hslots, hstep⟩ :=
    @payload_read env k t rest ts hne hts hroom hwaiting hafter hcount hrest
  refine ⟨t', u, hreach.trans hreach', hpayload, hsize, hreceive, hcount', hslots, fun heven => ?_⟩
  obtain ⟨v, hdisk', hvars', hv⟩ := hstep heven
  exact ⟨v, hdisk'.trans hdisk, hvars'.trans hvars, hv⟩

section Runs

/-- `regexec` on the text with the count of a line. -/
def countEnv (k : NamesCommand) (n : ℕ) : Env where
  regexec := fun text => if text = k.countText n then some (k.countArgs n) else none
  node := Node.zero

lemma countEnv_match (k : NamesCommand) (n : ℕ) :
    (countEnv k n).regexec (k.countText n) = some (k.countArgs n) := if_pos rfl

/-- A character that is no separator is a token. -/
lemma isToken_singleton {b : UInt8} (h : b ≠ 44 ∧ b ≠ 41 ∧ b ≠ 10 ∧ b ≠ 0) : IsToken [b] where
  ne_nil := List.cons_ne_nil b []
  length_lt := (by decide : 1 < maxNameSize)
  separators := fun b' hb' => by rwa [List.mem_singleton.mp hb']

/-- The tokens of `insert(a,5,b,7)`. -/
def twoPairs : List (List UInt8) := [[97], [53], [98], [55]]

lemma isToken_twoPairs : ∀ t ∈ twoPairs, IsToken t := by
  intro t ht
  simp only [twoPairs, List.mem_cons, List.not_mem_nil, or_false] at ht
  rcases ht with rfl | rfl | rfl | rfl
  all_goals exact isToken_singleton (by decide)

/-- `namesLine_read_iff` for `insert(a,5,b,7)`: the client sends the count 4, and the worker reads
the four tokens and goes on with the two pairs. -/
theorem insertTwo_tokens :
    ∃ line, clientLine (fun _ => none) (bytesOfText "insert(a,5,b,7)\n") = .ok (some line) ∧
      line.text = bytesOfText "insert(4)" ∧
      ∀ s rest, s.worker.Ready → s.input = line.bytes ++ rest →
        ∃ t u v, Session.ReachedFrom (countEnv .insert 4) s t ∧ receiveTurn t = .ok u ∧
          (List.range 4).mapM (slotString u.buffer) = .ok ["a", "5", "b", "7"] ∧
          v.disk = s.disk ∧ v.vars = s.vars ∧ v.input = rest ∧
          handlePayload (countEnv .insert 4) u
            = (runStep (countEnv .insert 4) v (.insert [("a", 5), ("b", 7)])).map .next := by
  obtain ⟨line, hline, htext, hreads⟩ :=
    (@namesLine_read_iff (countEnv .insert 4) (fun _ => none) .insert twoPairs (by decide)
      isToken_twoPairs (countEnv_match .insert 4)).mpr (by decide)
  refine ⟨line, hline, htext, fun s rest hready hinput => ?_⟩
  obtain ⟨t, u, hreach, -, -, hreceive, -, hslots, hstep⟩ := hreads s rest hready hinput
  obtain ⟨v, hdisk, hvars, hrest, -, hpayload⟩ := hstep fun _ => by decide
  exact ⟨t, u, v, hreach, hreceive, hslots, hdisk, hvars, hrest, hpayload⟩

/-- **A full buffer**: the slots of 4096 tokens fit the buffer, and the zero byte behind them does
not. -/
theorem manyTokens_full :
    (∀ t ∈ List.replicate 4096 ([97] : List UInt8), IsToken t) ∧
      (List.replicate 4096 ([97] : List UInt8)).length * maxNameSize ≤ maxCommandBufferSize ∧
      (countEnv .tuple 4096).regexec (NamesCommand.tuple.countText 4096)
        = some (NamesCommand.tuple.countArgs 4096) ∧
      ¬ TokensCarried (countEnv .tuple 4096) (fun _ => none) .tuple (List.replicate 4096 [97]) := by
  have hlen : (List.replicate 4096 ([97] : List UInt8)).length = 4096 := List.length_replicate
  refine ⟨fun t ht => ?_, by rw [hlen]; decide, countEnv_match .tuple 4096, fun h => ?_⟩
  · rw [List.eq_of_mem_replicate ht]
    exact isToken_singleton (by decide)
  · have hroom := h.room
    rw [hlen] at hroom
    exact absurd hroom (by decide)

end Runs

end ColumnDb
