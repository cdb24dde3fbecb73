import ColumnDb.Library.Slots
import ColumnDb.Session.Client
import ColumnDb.Session.Numerals

/-!
The file of a LOAD as the client reads it (`client.c`, `client_helper.c`).

The client reads the file once to count its lines and the commas of the first one, and a second
time for the names in the first line and the numbers in the others. What `malloc` returns is not
written yet: such a byte or number is `none`, also where it is sent.

* `counts`: `row_count` and `col_count`.
* `getNameLine`, `getIntLine`: the loops over the characters of a line.
* `loadCommand`: what the client sends for a LOAD.
* `getNameLine_names`: the names that fit their slots; `getNameLine_bounds` is why they must.
* `getIntLine_fields`: the numbers of a line. A line with a single number leaves the array as it
  was.
-/

namespace ColumnDb

/-! ### The two counts -/

/-- `row_count` and `col_count`. -/
structure Counts where
  rowCount : ℕ
  colCount : ℕ

/-- A turn of the loop that counts: lines, and the commas of the first one. -/
def countTurn (n : Counts) (ch : UInt8) : Counts :=
  if ch = 10 then { n with rowCount := (n.rowCount + 1) % 2 ^ 32 }
  else if n.rowCount = 0 ∧ ch = 44 then { n with colCount := (n.colCount + 1) % 2 ^ 32 }
  else n

/-- The counts for a file, after its last character was read again. -/
def counts (file : List UInt8) : Counts :=
  let n := file.foldl countTurn ⟨0, 0⟩
  { rowCount := if file.getLast? = some 10 then decr32 n.rowCount else n.rowCount
    colCount := (n.colCount + 1) % 2 ^ 32 }

/-! ### The lines -/

/-- A file that is being read: what `fgetc` will return, and `feof`. -/
structure LoadFp where
  rest : List UInt8
  eof : Bool

/-- The state of `get_name_line`. -/
structure NameLine where
  data : List (Option UInt8)
  itemCounter : ℕ
  charCounter : ℕ

/-- `data[item_counter * MAX_NAME_SIZE + char_counter] = ch`. -/
def NameLine.put (s : NameLine) (ch : UInt8) : Outcome (List (Option UInt8)) :=
  let i := (s.itemCounter * maxNameSize + s.charCounter) % 2 ^ 32
  if i < s.data.length then .ok (s.data.set i (some ch)) else .error .bounds

/-- A turn of `get_name_line` that does not end the line. -/
def NameLine.turn (s : NameLine) (ch : UInt8) : Outcome NameLine := do
  if ch = 44 then .ok ⟨← s.put 0, s.itemCounter + 1, 0⟩
  else .ok ⟨← s.put ch, s.itemCounter, s.charCounter + 1⟩

/-- The end of the line, or of the file. -/
def NameLine.endLine (size : ℕ) (s : NameLine) (fp : LoadFp) :
    Outcome (List (Option UInt8) × LoadFp) := do
  let data ← s.put 0
  if s.itemCounter = sub32 size 1 then .ok (data, fp) else .error .assertion

/-- `get_name_line`, from the state `s` on. -/
def getNameLine (size : ℕ) : List UInt8 → NameLine → Outcome (List (Option UInt8) × LoadFp)
  | [], s => s.endLine size ⟨[], true⟩
  | ch :: rest, s =>
      if ch = 10 then s.endLine size ⟨rest, false⟩
      else do
        let s' ← s.turn ch
        if s'.itemCounter < size then getNameLine size rest s' else .error .assertion

/-- `INT_STR_WIDTH`. -/
def intStrWidth : ℕ := 16

/-- The state of `get_int_line`, with the first `char_counter` characters of `holder`. -/
structure IntLine where
  data : List (Option ℤ)
  itemCounter : ℕ
  holder : List UInt8

/-- The end of a number: `holder` is terminated, and what `strtol` makes of it is stored. -/
def IntLine.store (s : IntLine) : Outcome IntLine :=
  if s.holder.length < intStrWidth ∧ s.itemCounter < s.data.length then
    .ok ⟨s.data.set s.itemCounter (some (intArg (textOfBytes s.holder))), s.itemCounter + 1, []⟩
  else .error .bounds

/-- A turn of `get_int_line` that does not end the line. -/
def IntLine.turn (s : IntLine) (ch : UInt8) : Outcome IntLine :=
  if ch = 44 then s.store
  else if s.holder.length < intStrWidth then .ok { s with holder := s.holder ++ [ch] }
  else .error .bounds

/-- The end of the line, or of the file. A line without a comma returns before its number is
stored. -/
def IntLine.endLine (size : ℕ) (s : IntLine) (fp : LoadFp) :
    Outcome (List (Option ℤ) × LoadFp) :=
  if s.itemCounter = 0 then .ok (s.data, fp)
  else do
    let s' ← s.store
    if s.itemCounter = sub32 size 1 then .ok (s'.data, fp) else .error .assertion

/-- The loop of `get_int_line`. -/
def intLineLoop (size : ℕ) : List UInt8 → IntLine → Outcome (List (Option ℤ) × LoadFp)
  | [], s => s.endLine size ⟨[], true⟩
  | ch :: rest, s =>
      if ch = 10 then s.endLine size ⟨rest, false⟩
      else do intLineLoop size rest (← s.turn ch)

/-- `get_int_line`. -/
def getIntLine (size : ℕ) (fp : LoadFp) (data : List (Option ℤ)) :
    Outcome (List (Option ℤ) × LoadFp) :=
  if fp.eof then .error .assertion else intLineLoop size fp.rest ⟨data, 0, []⟩

/-- The loop over the rows, with the rows that it sends. -/
def intRows (size : ℕ) : ℕ → LoadFp → List (Option ℤ) → Outcome (List (List (Option ℤ)))
  | 0, _, _ => .ok []
  | n + 1, fp, data => do
      let (data, fp) ← getIntLine size fp data
      .ok (data :: (← intRows size n fp data))

/-! ### The command -/

/-- What the client sends for a LOAD: the text of the command, the names, and the rows. -/
structure LoadSent where
  text : List UInt8
  names : List (Option UInt8)
  rows : List (List (Option ℤ))

/-- `load(C,R)` with two numbers that were printed with `%d`. -/
def loadText (colCount rowCount : ℤ) : List UInt8 :=
  bytesOfText ("load(" ++ toString colCount ++ "," ++ toString rowCount ++ ")")

/-- The file is counted and sent. -/
def sendFile (file : List UInt8) : Outcome LoadSent := do
  let n := counts file
  let colNames := List.replicate (maxNameSize * n.colCount % 2 ^ 32) none
  let (names, fp) ← getNameLine n.colCount file ⟨colNames, 0, 0⟩
  let intData := List.replicate (4 * n.colCount % 2 ^ 32 / 4) none
  let rows ← intRows n.colCount n.rowCount fp intData
  .ok
    { text := loadText (toInt32 n.colCount) (toInt32 n.rowCount)
      names := names
      rows := rows }

/-- LOAD: the file is opened, counted and sent. -/
def loadCommand (files : String → Option (List UInt8)) (line : List UInt8) : Outcome LoadSent := do
  match files (← parseLoadFilename line) with
  | none => .error .exit
  | some file => sendFile file

/-! ### The names -/

section Names

variable {size item char n : ℕ} {slots : List (Option UInt8)} {rest : List UInt8}

/-- A character is written behind the ones before it. -/
lemma NameLine.put_next (hlen : slots.length = item * maxNameSize + char)
    (hlt : slots.length < 2 ^ 32) (ch : UInt8) :
    (⟨slots ++ List.replicate (n + 1) none, item, char⟩ : NameLine).put ch
      = .ok (slots ++ [some ch] ++ List.replicate n none) := by
  have hroom : slots.length < (slots ++ List.replicate (n + 1) (none : Option UInt8)).length := by
    simp
  rw [NameLine.put]
  simp only [← hlen, Nat.mod_eq_of_lt hlt]
  rw [if_pos hroom, List.set_append_right _ _ le_rfl, Nat.sub_self, List.replicate_succ,
    List.set_cons_zero, List.append_assoc, List.singleton_append]

/-- The characters of a name. -/
lemma getNameLine_chars (hitem : item < size) (chars : List UInt8) : ∀ {slots} {char : ℕ},
    slots.length = item * maxNameSize + char → slots.length + chars.length < 2 ^ 32 →
    (∀ ch ∈ chars, ch ≠ 44 ∧ ch ≠ 10) →
    getNameLine size (chars ++ rest) ⟨slots ++ List.replicate (chars.length + n) none, item, char⟩
      = getNameLine size rest
          ⟨slots ++ chars.map some ++ List.replicate n none, item, char + chars.length⟩ := by
  induction chars with
  | nil =>
      intro slots char _ _ _
      rw [List.map_nil, List.append_nil, List.length_nil, Nat.zero_add, List.nil_append]
      rfl
  | cons ch chars ih =>
      intro slots char hlen hlt hch
      obtain ⟨hcomma, hnewline⟩ := hch ch List.mem_cons_self
      rw [List.length_cons] at hlt
      have hlen' : (slots ++ [some ch]).length = item * maxNameSize + (char + 1) := by
        rw [List.length_append, hlen, List.length_singleton, Nat.add_assoc]
      have hlt' : (slots ++ [some ch]).length + chars.length < 2 ^ 32 := by
        rw [List.length_append, List.length_singleton]
        omega
      have hput := @NameLine.put_next item char (chars.length + n) slots hlen (by omega) ch
      have hturn : (⟨slots ++ List.replicate (chars.length + n + 1) none, item, char⟩ :
          NameLine).turn ch
          = .ok ⟨slots ++ [some ch] ++ List.replicate (chars.length + n) none, item, char + 1⟩ := by
        rw [NameLine.turn, if_neg hcomma, hput]
        rfl
      rw [List.length_cons, Nat.add_right_comm, List.cons_append, getNameLine, if_neg hnewline,
        hturn, Outcome.ok_bind, if_pos hitem,
        ih hlen' hlt' fun ch' h => hch ch' (List.mem_cons_of_mem ch h), List.map_cons,
        List.append_assoc slots, List.singleton_append, Nat.add_assoc char, Nat.add_comm 1]

/-- A name in its slot of `MAX_NAME_SIZE`, terminated; what follows is not written. -/
def nameSent (name : List UInt8) : List (Option UInt8) :=
  slot maxNameSize none ((name ++ [0]).map some)

lemma length_nameSent {name : List UInt8} (h : name.length < maxNameSize) :
    (nameSent name).length = maxNameSize :=
  length_slot (by rw [List.length_map, List.length_append, List.length_singleton]; exact h)

/-- The slot of a name and the slots after it, when the end of the name is written. -/
lemma nameSent_append (name : List UInt8) (m : ℕ) :
    slots ++ name.map some ++ [some 0]
        ++ List.replicate (maxNameSize - name.length - 1 + m * maxNameSize) none
      = slots ++ nameSent name ++ List.replicate (m * maxNameSize) none := by
  rw [nameSent, slot, List.map_append, List.length_append, List.length_map, List.map_singleton,
    List.length_singleton, List.replicate_add, Nat.sub_sub]
  simp only [List.append_assoc]

/-- **The names of a line** that fit their slots. -/
theorem getNameLine_names (names : List (List UInt8)) : ∀ {slots} {item : ℕ}, names ≠ [] →
    slots.length = item * maxNameSize → item + names.length = size → size * maxNameSize < 2 ^ 32 →
    (∀ name ∈ names, name.length < maxNameSize ∧ ∀ ch ∈ name, ch ≠ 44 ∧ ch ≠ 10) →
    getNameLine size ([44].intercalate names ++ 10 :: rest)
        ⟨slots ++ List.replicate (names.length * maxNameSize) none, item, 0⟩
      = .ok (slots ++ names.flatMap nameSent, ⟨rest, false⟩) := by
  induction names with
  | nil => exact fun {slots item} hne => absurd rfl hne
  | cons name names ih =>
      intro slots item _ hlen hsize hlt hnames
      obtain ⟨hname, hchars⟩ := hnames name List.mem_cons_self
      rw [List.length_cons] at hsize
      have hroom : (names.length + 1) * maxNameSize
          = name.length + (maxNameSize - name.length - 1 + names.length * maxNameSize + 1) := by
        rw [Nat.succ_mul]
        omega
      have hbound : item * maxNameSize + maxNameSize ≤ size * maxNameSize := by
        rw [← Nat.succ_mul]
        exact Nat.mul_le_mul_right _ (by omega)
      have hend : (slots ++ name.map some).length = item * maxNameSize + (0 + name.length) := by
        rw [List.length_append, List.length_map, hlen, Nat.zero_add]
      have hput := @NameLine.put_next item (0 + name.length)
        (maxNameSize - name.length - 1 + names.length * maxNameSize) _ hend (by omega) 0
      rw [nameSent_append] at hput
      have hstart := fun rest => @getNameLine_chars size item
        (maxNameSize - name.length - 1 + names.length * maxNameSize + 1) rest (by omega) name slots
        0 hlen (by omega) hchars
      rw [List.length_cons, hroom, List.flatMap_cons]
      cases names with
      | nil =>
          have hsub : item = sub32 size 1 := by
            rw [sub32_of_le (by omega)]
            simp only [List.length_nil] at hsize
            omega
          rw [List.intercalate_singleton, hstart, getNameLine, if_pos rfl, NameLine.endLine, hput,
            Outcome.ok_bind, if_pos hsub, List.length_nil, Nat.zero_mul, List.replicate_zero,
            List.append_nil, List.flatMap_nil, List.append_nil]
      | cons name' names =>
          have hturn : (⟨slots ++ name.map some ++ List.replicate (maxNameSize - name.length - 1
              + (name' :: names).length * maxNameSize + 1) none, item, 0 + name.length⟩ :
              NameLine).turn 44
              = .ok ⟨slots ++ nameSent name
                  ++ List.replicate ((name' :: names).length * maxNameSize) none, item + 1, 0⟩ := by
            rw [NameLine.turn, if_pos rfl, hput]
            rfl
          have hlen' : (slots ++ nameSent name).length = (item + 1) * maxNameSize := by
            rw [List.length_append, hlen, length_nameSent hname, Nat.succ_mul]
          have hitem : item + 1 < size := by
            rw [List.length_cons] at hsize
            omega
          rw [List.intercalate_cons_cons, List.append_assoc, List.append_assoc,
            List.singleton_append, hstart]
          calc getNameLine size (44 :: ([44].intercalate (name' :: names) ++ 10 :: rest)) _
              = getNameLine size ([44].intercalate (name' :: names) ++ 10 :: rest)
                  ⟨slots ++ nameSent name
                    ++ List.replicate ((name' :: names).length * maxNameSize) none,
                    item + 1, 0⟩ := by
                rw [getNameLine, if_neg (by decide), hturn, Outcome.ok_bind, if_pos hitem]
            _ = .ok (slots ++ nameSent name ++ (name' :: names).flatMap nameSent,
                  ⟨rest, false⟩) :=
                ih (by simp) hlen' (by omega) hlt fun name h =>
                  hnames name (List.mem_cons_of_mem _ h)
            _ = _ := by rw [List.append_assoc]

/-- A character that was written has a place in the array. -/
lemma NameLine.put_bounds {s : NameLine} {ch : UInt8} {data : List (Option UInt8)}
    (h : s.put ch = .ok data) :
    (s.itemCounter * maxNameSize + s.charCounter) % 2 ^ 32 < s.data.length ∧
      data.length = s.data.length := by
  rw [NameLine.put] at h
  split_ifs at h with hroom
  cases h
  exact ⟨hroom, List.length_set⟩

/-- The state behind the characters of a name, when the line is read to its end. -/
lemma getNameLine_of_chars (chars : List UInt8) : ∀ {s : NameLine}
    {out : List (Option UInt8) × LoadFp}, (∀ ch ∈ chars, ch ≠ 44 ∧ ch ≠ 10) →
    getNameLine size (chars ++ rest) s = .ok out →
    ∃ s', getNameLine size rest s' = .ok out ∧ s'.itemCounter = s.itemCounter ∧
      s'.charCounter = s.charCounter + chars.length ∧ s'.data.length = s.data.length := by
  induction chars with
  | nil => exact fun {s out} _ h => ⟨s, h, rfl, rfl, rfl⟩
  | cons ch chars ih =>
      intro s out hch h
      obtain ⟨hcomma, hnewline⟩ := hch ch List.mem_cons_self
      rw [List.cons_append, getNameLine, if_neg hnewline] at h
      obtain ⟨s₁, hturn, h⟩ := Outcome.bind_eq_ok.mp h
      split_ifs at h
      rw [NameLine.turn, if_neg hcomma] at hturn
      obtain ⟨data, hput, hturn⟩ := Outcome.bind_eq_ok.mp hturn
      cases hturn
      obtain ⟨s', h', hitem, hchar, hlen⟩ :=
        ih (fun ch' h' => hch ch' (List.mem_cons_of_mem ch h')) h
      refine ⟨s', h', hitem, ?_, hlen.trans (NameLine.put_bounds hput).2⟩
      rw [hchar, List.length_cons]
      change s.charCounter + 1 + chars.length = _
      omega

/-- **Every name that is read** has its end in the array. -/
theorem getNameLine_bounds (names : List (List UInt8)) : ∀ {s : NameLine}
    {out : List (Option UInt8) × LoadFp}, s.charCounter = 0 →
    (∀ name ∈ names, name.length < maxNameSize ∧ ∀ ch ∈ name, ch ≠ 44 ∧ ch ≠ 10) →
    getNameLine size ([44].intercalate names ++ 10 :: rest) s = .ok out → ∀ i < names.length,
    ∃ char < maxNameSize,
      ((s.itemCounter + i) * maxNameSize + char) % 2 ^ 32 < s.data.length := by
  induction names with
  | nil => exact fun {s out} _ _ _ i hi => absurd hi (Nat.not_lt_zero i)
  | cons name names ih =>
      intro s out hstart hnames h i hi
      obtain ⟨hname, hchars⟩ := hnames name List.mem_cons_self
      -- the end of the first name is written both at a comma and at the end of the line
      have hend : ∃ s' : NameLine, s'.itemCounter = s.itemCounter ∧ s'.charCounter = name.length ∧
          s'.data.length = s.data.length ∧ ∃ data, s'.put 0 = .ok data ∧ (names ≠ [] →
            getNameLine size ([44].intercalate names ++ 10 :: rest)
              ⟨data, s'.itemCounter + 1, 0⟩ = .ok out) := by
        cases names with
        | nil =>
            rw [List.intercalate_singleton] at h
            obtain ⟨s', h', hitem, hchar, hlen⟩ := getNameLine_of_chars name hchars h
            rw [getNameLine, if_pos rfl] at h'
            obtain ⟨data, hput, -⟩ := Outcome.bind_eq_ok.mp h'
            exact ⟨s', hitem, by rw [hchar, hstart, Nat.zero_add], hlen, data, hput,
              fun hne => absurd rfl hne⟩
        | cons name' names =>
            rw [List.intercalate_cons_cons, List.append_assoc, List.append_assoc,
              List.singleton_append] at h
            obtain ⟨s', h', hitem, hchar, hlen⟩ := getNameLine_of_chars name hchars h
            rw [getNameLine, if_neg (by decide)] at h'
            obtain ⟨s₁, hturn, h'⟩ := Outcome.bind_eq_ok.mp h'
            split_ifs at h'
            obtain ⟨data, hput, hturn⟩ := Outcome.bind_eq_ok.mp hturn
            cases hturn
            exact ⟨s', hitem, by rw [hchar, hstart, Nat.zero_add], hlen, data, hput, fun _ => h'⟩
      obtain ⟨s', hitem, hchar, hlen, data, hput, hrest⟩ := hend
      obtain ⟨hroom, hdata⟩ := NameLine.put_bounds hput
      cases i with
      | zero =>
          rw [hitem, hchar, hlen] at hroom
          exact ⟨name.length, hname, hroom⟩
      | succ i =>
          rw [List.length_cons] at hi
          have hne : names ≠ [] := List.ne_nil_of_length_pos (by omega)
          obtain ⟨char, hchar', hroom'⟩ := ih rfl
            (fun name' h' => hnames name' (List.mem_cons_of_mem name h')) (hrest hne) i (by omega)
          refine ⟨char, hchar', ?_⟩
          rw [hdata, hlen, hitem, Nat.add_assoc, Nat.add_comm 1] at hroom'
          exact hroom'

end Names

/-! ### The numbers -/

/-- What follows the last number of a line: a newline, or the end of the file. -/
inductive LineEnd : List UInt8 → LoadFp → Prop where
  | newline (rest : List UInt8) : LineEnd (10 :: rest) ⟨rest, false⟩
  | eof : LineEnd [] ⟨[], true⟩

section Numbers

variable {size : ℕ} {rest tail : List UInt8} {fp : LoadFp}

lemma intLineLoop_end (hend : LineEnd tail fp) (s : IntLine) :
    intLineLoop size tail s = s.endLine size fp := by
  cases hend with
  | newline rest => rw [intLineLoop, if_pos rfl]
  | eof => rw [intLineLoop]

/-- The characters of a number. -/
lemma intLineLoop_chars (chars : List UInt8) : ∀ {s : IntLine},
    s.holder.length + chars.length ≤ intStrWidth → (∀ ch ∈ chars, ch ≠ 44 ∧ ch ≠ 10) →
    intLineLoop size (chars ++ rest) s
      = intLineLoop size rest { s with holder := s.holder ++ chars } := by
  induction chars with
  | nil => exact fun {s} _ _ => by rw [List.nil_append, List.append_nil]
  | cons ch chars ih =>
      intro s hlen hch
      obtain ⟨hcomma, hnewline⟩ := hch ch List.mem_cons_self
      rw [List.length_cons] at hlen
      have hturn : s.turn ch = .ok { s with holder := s.holder ++ [ch] } := by
        rw [IntLine.turn, if_neg hcomma, if_pos (by omega)]
      have hlen' : (s.holder ++ [ch]).length + chars.length ≤ intStrWidth := by
        rw [List.length_append, List.length_singleton]
        omega
      rw [List.cons_append, intLineLoop, if_neg hnewline, hturn, Outcome.ok_bind,
        ih hlen' fun ch' h => hch ch' (List.mem_cons_of_mem ch h), List.append_assoc,
        List.singleton_append]

/-- A number in a line: its characters, and what `strtol` makes of them. -/
structure IsNumber (chars : List UInt8) (val : ℤ) : Prop where
  length_lt : chars.length < intStrWidth
  separators : ∀ ch ∈ chars, ch ≠ 44 ∧ ch ≠ 10
  intArg_eq : intArg (textOfBytes chars) = val

/-- The number is stored behind the ones before it. -/
lemma IntLine.store_next {chars : List UInt8} {val : ℤ} (h : IsNumber chars val)
    {done : List (Option ℤ)} {x : Option ℤ} {old : List (Option ℤ)} :
    (⟨done ++ x :: old, done.length, chars⟩ : IntLine).store
      = .ok ⟨done ++ [some val] ++ old, done.length + 1, []⟩ := by
  have hroom : done.length < (done ++ x :: old).length := by simp
  rw [IntLine.store, if_pos ⟨h.length_lt, hroom⟩]
  simp only [h.intArg_eq]
  rw [List.set_append_right _ _ le_rfl, Nat.sub_self, List.set_cons_zero, List.append_assoc,
    List.singleton_append]

/-- The numbers of a line behind its first one. -/
lemma intLineLoop_fields (hend : LineEnd tail fp) {texts : List (List UInt8)} {vals : List ℤ}
    (h : List.Forall₂ IsNumber texts vals) : texts ≠ [] → ∀ {done old : List (Option ℤ)},
    done ≠ [] → old.length = texts.length → done.length + texts.length = size →
    intLineLoop size ([44].intercalate texts ++ tail) ⟨done ++ old, done.length, []⟩
      = .ok (done ++ vals.map some, fp) := by
  induction h with
  | nil => exact fun hne => absurd rfl hne
  | @cons chars val texts vals hnumber h ih =>
      intro _ done old hdone hold hsize
      rw [List.length_cons] at hold hsize
      obtain ⟨x, old, rfl⟩ := List.exists_cons_of_ne_nil
        (List.ne_nil_of_length_eq_add_one hold)
      rw [List.length_cons] at hold
      have hchars := fun rest => @intLineLoop_chars size rest chars
        ⟨done ++ x :: old, done.length, []⟩ (by simpa using hnumber.length_lt.le)
        hnumber.separators
      simp only [List.nil_append] at hchars
      cases h with
      | nil =>
          obtain rfl : old = [] := List.length_eq_zero_iff.mp (by simpa using hold)
          have hpos : 0 < done.length := List.length_pos_iff.mpr hdone
          have hsub : done.length = sub32 size 1 := by
            rw [sub32_of_le (by omega)]
            simp only [List.length_nil] at hsize
            omega
          rw [List.intercalate_singleton, hchars, intLineLoop_end hend, IntLine.endLine,
            if_neg hpos.ne', IntLine.store_next hnumber, Outcome.ok_bind, if_pos hsub,
            List.append_nil]
          rfl
      | cons hnumber' h =>
          have hdone' : done ++ [some val] ≠ [] := by simp
          have hlen' : (done ++ [some val]).length = done.length + 1 := by
            rw [List.length_append, List.length_singleton]
          have hrest := ih (by simp) hdone' (Nat.succ.inj hold)
            (by rw [hlen']; rw [List.length_cons] at hsize ⊢; omega)
          rw [hlen'] at hrest
          rw [List.intercalate_cons_cons, List.append_assoc, List.append_assoc,
            List.singleton_append, hchars]
          calc intLineLoop size (44 :: ([44].intercalate _ ++ tail)) _
              = intLineLoop size ([44].intercalate _ ++ tail)
                  ⟨done ++ [some val] ++ old, done.length + 1, []⟩ := by
                rw [intLineLoop, if_neg (by decide), IntLine.turn, if_pos rfl,
                  IntLine.store_next hnumber, Outcome.ok_bind]
            _ = .ok (done ++ [some val] ++ List.map some (_ :: _), fp) := hrest
            _ = _ := by
                rw [List.append_assoc]
                rfl

/-- **The numbers of a line** are stored in order, but the only number of a line is not. -/
theorem getIntLine_fields (hend : LineEnd tail fp) {texts : List (List UInt8)} {vals : List ℤ}
    (h : List.Forall₂ IsNumber texts vals) {data : List (Option ℤ)} (hpos : 0 < size)
    (hsize : texts.length = size) (hdata : data.length = size) :
    getIntLine size ⟨[44].intercalate texts ++ tail, false⟩ data
      = .ok (if size = 1 then data else vals.map some, fp) := by
  rw [getIntLine, if_neg Bool.false_ne_true]
  cases h with
  | nil => exact absurd hsize hpos.ne
  | @cons chars val texts vals hnumber h =>
      have hchars := fun rest => @intLineLoop_chars size rest chars ⟨data, 0, []⟩
        (by simpa using hnumber.length_lt.le) hnumber.separators
      simp only [List.nil_append] at hchars
      cases h with
      | nil =>
          obtain rfl : 1 = size := hsize
          rw [List.intercalate_singleton, hchars, intLineLoop_end hend, IntLine.endLine, if_pos rfl,
            if_pos rfl]
      | @cons chars' val' texts vals hnumber' h =>
          rw [List.length_cons, List.length_cons] at hsize
          obtain ⟨x, old, rfl⟩ := List.exists_cons_of_ne_nil
            (List.ne_nil_of_length_pos (hdata ▸ hpos))
          have hstore := @IntLine.store_next chars val hnumber [] x old
          rw [List.nil_append, List.length_nil, List.nil_append] at hstore
          have hrest := @intLineLoop_fields size tail fp hend _ _ (.cons hnumber' h) (by simp)
            [some val] old (by simp) (by rw [List.length_cons] at hdata ⊢; omega)
            (by rw [List.length_singleton, List.length_cons]; omega)
          rw [List.intercalate_cons_cons, List.append_assoc, List.append_assoc,
            List.singleton_append, hchars, intLineLoop, if_neg (by decide), IntLine.turn,
            if_pos rfl, hstore, Outcome.ok_bind]
          rw [List.length_singleton] at hrest
          rw [hrest, if_neg (by omega)]
          rfl

end Numbers

end ColumnDb
