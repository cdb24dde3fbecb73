import ColumnDb.Session.Worker

/-!
The client (`client.c`).

The client sends the lines of its standard input to the server. By its first letters a line is
a LOAD, whose file the client reads and sends along; a TUPLE, DELETE or INSERT, which it sends as
the number of names and the names; or any other command, which it sends as it is. For a TUPLE
and a FETCH it then waits for a frame.

* `clientLine`: the payloads that the client sends for a line, and whether it waits.
* `clientLines`: the lines up to the one that ends the connection.
* `clientReads`: what the client reads off the socket, line by line.
-/

namespace ColumnDb

/-! ### Lines and payloads -/

/-- What the client reads out of the file of a LOAD: names of columns that fit their slots, and
rows of as many values. -/
structure LoadFile where
  names : List String
  rows : List (List ℤ)
  names_fit : ∀ name ∈ names, name.length < maxNameSize
  rows_fit : ∀ row ∈ rows, row.length = names.length

/-- What a line is by its first letters; a LOAD with the number of its rows. -/
inductive LineKind where
  | load (rows : ℕ)
  | tuple
  | delete
  | insert
  | fetch
  | other
  deriving DecidableEq

/-- The number of payloads that the client sends after the text of a line. -/
def LineKind.payloads : LineKind → ℕ
  | load rows => rows + 1
  | tuple | delete | insert => 1
  | fetch | other => 0

/-- What the client sends for a line: the text of a command, and the payloads after it. -/
structure ClientLine where
  kind : LineKind
  text : List UInt8
  payloads : List (List UInt8)

/-- The client waits for a frame. -/
def ClientLine.waits (line : ClientLine) : Bool :=
  line.kind = .tuple ∨ line.kind = .fetch

/-- The bytes of a name in its slot of `MAX_NAME_SIZE`; the bytes after it are taken as zero. -/
def nameSlot (name : String) : List UInt8 :=
  bytesOfText name ++ List.replicate (maxNameSize - name.length) 0

/-- `load(C,R)`, the names, and row after row. -/
def loadLine (file : LoadFile) : ClientLine where
  kind := .load file.rows.length
  text := bytesOfText
    ("load(" ++ toString file.names.length ++ "," ++ toString file.rows.length ++ ")")
  payloads := file.names.flatMap nameSlot :: file.rows.map bytesOfInts

/-- The state of the loop over the tokens of a line: the slots, and the number of tokens. -/
structure TokenSlots where
  mem : List UInt8
  vCount : ℕ
  vBuffer : ℕ

/-- `v` with room for two tokens. -/
def TokenSlots.create : TokenSlots where
  mem := List.replicate (2 * maxNameSize) 0
  vCount := 0
  vBuffer := 2

/-- A turn of the loop over the tokens: full slots grow, and the token is copied to the next
one. -/
def tokenTurn (s : TokenSlots) (token : List UInt8) : Outcome TokenSlots :=
  let vBuffer := if s.vCount = s.vBuffer then (1 + s.vCount) * 2 else s.vBuffer
  let mem := s.mem ++ List.replicate (vBuffer * maxNameSize - s.mem.length) 0
  if s.vCount * maxNameSize + token.length < mem.length then
    .ok
      { mem := splice mem (s.vCount * maxNameSize) (token ++ [0])
        vCount := s.vCount + 1
        vBuffer := vBuffer }
  else .error .bounds

/-- `strtok` with the separators `,` and `)`. -/
def tokens (line : List UInt8) : List (List UInt8) :=
  (line.splitOnP fun b => b = 44 ∨ b = 41).filter (· ≠ [])

/-- The payloads of a TUPLE, DELETE or INSERT. The last token is the end of the line and does not
count. -/
def namesLine (kind : LineKind) (line : List UInt8) (offset : ℕ) : Outcome ClientLine := do
  let slots ← (tokens (line.drop offset)).foldlM tokenTurn .create
  if slots.vCount = 0 then .error .assertion
  else
    let vCount := slots.vCount - 1
    .ok
      { kind := kind
        text := line.take offset ++ bytesOfText (toString vCount ++ ")")
        payloads := [slots.mem.take (vCount * maxNameSize)] }

/-- `parse_load_filename`: what stands between `load("` and `")`. -/
def parseLoadFilename (line : List UInt8) : Outcome String :=
  let size := if line.getLast? = some 10 then 9 else 8
  if line.length < size then .error .undefined
  else .ok (textOfBytes ((line.drop 6).take (line.length - size)))

/-- `strncmp(line, s, n) == 0` for the whole of `s`. -/
def startsWith (line : List UInt8) (s : String) : Bool := (bytesOfText s).isPrefixOf line

/-- The loop of the client for a line; `none` ends the connection. -/
def clientLine (files : String → Option LoadFile) (line : List UInt8) :
    Outcome (Option ClientLine) :=
  if line = [] then .ok none
  else if line.length = 1 then .error .bounds
  else if line.getD (line.length - 2) 0 ≠ 41 then .ok none
  else if startsWith line "load" then do
    match files (← parseLoadFilename line) with
    | none => .error .exit
    | some file => .ok (some (loadLine file))
  else if startsWith line "tuple" then do .ok (some (← namesLine .tuple line 6))
  else if startsWith line "delete" then do .ok (some (← namesLine .delete line 7))
  else if startsWith line "insert" then do .ok (some (← namesLine .insert line 7))
  else
    .ok (some
      { kind := if startsWith line "fetch" then .fetch else .other
        text := line
        payloads := [] })

/-- The lines that the client sends before the connection ends. The texts are what the loop finds in
`line`: `getline` changes nothing there at the end of the standard input, so a LOAD or a plain
command that comes last is in the list a second time. -/
def clientLines (files : String → Option LoadFile) : List (List UInt8) → Outcome (List ClientLine)
  | [] => .ok []
  | text :: texts => do
      match ← clientLine files text with
      | none => .ok []
      | some line => do .ok (line :: (← clientLines files texts))

/-- The bytes of a line. -/
def ClientLine.bytes (line : ClientLine) : List UInt8 :=
  (line.text :: line.payloads).flatMap safeSend

lemma clientLine_payloads {files : String → Option LoadFile} {text : List UInt8}
    {line : ClientLine} (h : clientLine files text = .ok (some line)) :
    line.payloads.length = line.kind.payloads := by
  have hnames : ∀ {kind : LineKind} {offset : ℕ} {line : ClientLine}, kind.payloads = 1 →
      namesLine kind text offset = .ok line → line.payloads.length = line.kind.payloads := by
    intro kind offset line hkind hline
    obtain ⟨slots, -, hline⟩ := Outcome.bind_eq_ok.mp hline
    split_ifs at hline
    cases hline
    exact hkind.symm
  rw [clientLine] at h
  split_ifs at h with hnil hone hend hload htuple hdelete hinsert
  · cases h
  · cases h
  · obtain ⟨name, -, h⟩ := Outcome.bind_eq_ok.mp h
    cases hfile : files name with
    | none => simp only [hfile] at h; cases h
    | some file =>
        simp only [hfile] at h
        cases h
        simp [loadLine, LineKind.payloads]
  · obtain ⟨line', hline, h⟩ := Outcome.bind_eq_ok.mp h
    cases h
    exact hnames rfl hline
  · obtain ⟨line', hline, h⟩ := Outcome.bind_eq_ok.mp h
    cases h
    exact hnames rfl hline
  · obtain ⟨line', hline, h⟩ := Outcome.bind_eq_ok.mp h
    cases h
    exact hnames rfl hline
  · cases h
    rfl
  · cases h
    rfl

/-- Every line that is sent was sent by the loop, and has the payloads of its kind. -/
lemma clientLines_payloads {files : String → Option LoadFile} {texts : List (List UInt8)} :
    ∀ {lines : List ClientLine}, clientLines files texts = .ok lines →
      ∀ line ∈ lines, line.payloads.length = line.kind.payloads := by
  induction texts with
  | nil =>
      intro lines h
      cases h
      simp
  | cons text texts ih =>
      intro lines h
      obtain ⟨found, hfound, h⟩ := Outcome.bind_eq_ok.mp h
      cases found with
      | none =>
          cases h
          simp
      | some first =>
          obtain ⟨others, hothers, h⟩ := Outcome.bind_eq_ok.mp h
          cases h
          intro line hline
          rcases List.mem_cons.mp hline with rfl | hline
          · exact clientLine_payloads hfound
          · exact ih hothers line hline

/-! ### The responses -/

/-- `safe_recv` of a length and of that many bytes. -/
def readFrame (socket : List UInt8) : Option (List UInt8 × List UInt8) :=
  if socket.length < 4 then none
  else
    let n := wordOfBytes (socket.take 4)
    let data := socket.drop 4
    if data.length < n then none else some (data.take n, data.drop n)

/-- What the client reads for its lines, and what it leaves on the socket. -/
def clientReads : List ClientLine → List UInt8 →
    Option (List (Option (List UInt8)) × List UInt8)
  | [], socket => some ([], socket)
  | line :: lines, socket =>
      if line.waits then do
        let (data, socket) ← readFrame socket
        let (datas, socket) ← clientReads lines socket
        some (some data :: datas, socket)
      else do
        let (datas, socket) ← clientReads lines socket
        some (none :: datas, socket)

/-- The bytes that `safe_send` sends of a block whose length is a `uint32_t`. -/
def sentOf (data : List UInt8) : List UInt8 := data.take (data.length % 2 ^ 32)

lemma length_sentOf (data : List UInt8) : (sentOf data).length = data.length % 2 ^ 32 := by
  rw [sentOf, List.length_take, min_eq_left (Nat.mod_le _ _)]

lemma length_sentOf_lt (data : List UInt8) : (sentOf data).length < 2 ^ 32 := by
  rw [length_sentOf]
  exact Nat.mod_lt _ (by decide)

lemma safeSend_eq (data : List UInt8) :
    safeSend data = bytesOfWord (sentOf data).length ++ sentOf data := by
  rw [length_sentOf]
  rfl

/-- A frame is read back. -/
lemma readFrame_safeSend (data rest : List UInt8) :
    readFrame (safeSend data ++ rest) = some (sentOf data, rest) := by
  have htake : (safeSend data ++ rest).take 4 = bytesOfWord (sentOf data).length := by
    rw [safeSend_eq]
    rfl
  have hdrop : (safeSend data ++ rest).drop 4 = sentOf data ++ rest := by
    rw [safeSend_eq]
    rfl
  have hlen : ¬ (safeSend data ++ rest).length < 4 := by
    rw [safeSend_eq]
    simp
  have hword := wordOfBytes_bytesOfWord (length_sentOf_lt data)
  rw [readFrame, if_neg hlen, htake, hdrop, hword, if_neg (by simp), List.take_left,
    List.drop_left]

end ColumnDb
