import ColumnDb.Session.LoadFile
import Mathlib.Data.Bool.AllAny

/-!
CSV files that a LOAD sends (`client.c`, `client_helper.c`).

* `Csv`: a header with names and lines of numbers, with or without a newline at the end.
* `Csv.sent`: what there is to send for it.
* `counts_csv`: the two counts of the client.
* `sendFile_csv`: what the client sends while its 32-bit sizes hold: all of it for two columns or
  more. For a single column the rows are sent without ever being written.
* `Csv.sent_loadLine`: in a session with the client the file is a `LoadFile`.
* `loadCommand_csv_iff`: the files that are sent as they are.
-/

namespace ColumnDb

/-! ### The files -/

/-- A decimal number of at most 15 characters, which is an `int`. -/
structure Decimal where
  sign : List Char
  factor : ℤ
  digits : List Char
  signed : Signed sign factor
  digits_ne_nil : digits ≠ []
  isDigit : ∀ c ∈ digits, c.isDigit = true
  length_le : (sign ++ digits).length ≤ 15
  fitsInt : -2 ^ 31 ≤ factor * Nat.ofDigitChars 10 digits 0 ∧
    factor * Nat.ofDigitChars 10 digits 0 < 2 ^ 31

namespace Decimal

def value (d : Decimal) : ℤ := d.factor * Nat.ofDigitChars 10 d.digits 0

def text (d : Decimal) : List UInt8 := bytesOfText (String.ofList (d.sign ++ d.digits))

/-- A number as it is printed. -/
def ofNat (n : ℕ) (h : n < 2 ^ 31) : Decimal where
  sign := []
  factor := 1
  digits := Nat.toDigits 10 n
  signed := .none
  digits_ne_nil := Nat.toDigits_ne_nil
  isDigit := fun _ hc => Nat.isDigit_of_mem_toDigits (by decide) (by decide) hc
  length_le := (length_toDigits_le h).trans (by decide)
  fitsInt := by
    rw [Nat.ofDigitChars_ten_toDigits, one_mul]
    omega

end Decimal

/-- A header of names of at most 15 characters, and lines with a number for each name. -/
structure Csv where
  names : List (List UInt8)
  rows : List (List Decimal)
  newline : Bool
  names_ne_nil : names ≠ []
  rows_ne_nil : rows ≠ []
  isName : ∀ name ∈ names, name.length ≤ 15 ∧ ∀ ch ∈ name, ch ≠ 44 ∧ ch ≠ 10
  length_row : ∀ row ∈ rows, row.length = names.length

/-- The line of a row. -/
def rowLine (row : List Decimal) : List UInt8 := [44].intercalate (row.map Decimal.text)

namespace Csv

/-- The lines after the header, with the newline at the end if there is one. -/
def body (rows : List (List Decimal)) (newline : Bool) : List UInt8 :=
  [10].intercalate (rows.map rowLine) ++ if newline then [10] else []

/-- The bytes of the file. -/
def bytes (csv : Csv) : List UInt8 :=
  [44].intercalate csv.names ++ 10 :: body csv.rows csv.newline

/-- What there is to send: `load(C,R)`, the `C` names, and the `R` rows. -/
def sent (csv : Csv) : LoadSent where
  text := bytesOfText
    ("load(" ++ toString csv.names.length ++ "," ++ toString csv.rows.length ++ ")")
  names := csv.names.flatMap nameSent
  rows := csv.rows.map fun row => row.map fun d => some d.value

end Csv

/-! ### Numbers -/

/-- The characters of a sign are those of a byte, and no separators. -/
lemma Signed.chars {sign : List Char} {σ : ℤ} (h : Signed sign σ) :
    ∀ c ∈ sign, c.toNat < 256 ∧ c.toNat ≠ 44 ∧ c.toNat ≠ 10 := by
  cases h <;> exact List.all_iff_forall_prop.mp (by decide)

namespace Decimal

lemma chars (d : Decimal) : ∀ c ∈ (String.ofList (d.sign ++ d.digits)).toList,
    c.toNat < 256 ∧ c.toNat ≠ 44 ∧ c.toNat ≠ 10 := by
  rw [String.toList_ofList]
  intro c hc
  rcases List.mem_append.mp hc with hc | hc
  · exact d.signed.chars c hc
  · obtain ⟨hlow, hhigh⟩ := Char.isDigit_iff_toNat.mp (d.isDigit c hc)
    change 48 ≤ c.toNat at hlow
    change c.toNat ≤ 57 at hhigh
    omega

lemma text_ne_nil (d : Decimal) : d.text ≠ [] := by
  rw [text, bytesOfText, String.toList_ofList]
  exact fun h => d.digits_ne_nil (List.append_eq_nil_iff.mp (List.map_eq_nil_iff.mp h)).2

lemma text_separators (d : Decimal) : ∀ ch ∈ d.text, ch ≠ 44 ∧ ch ≠ 10 := by
  intro ch hch
  obtain ⟨c, hc, rfl⟩ := List.mem_map.mp hch
  obtain ⟨hlt, hcomma, hnewline⟩ := d.chars c hc
  have hnat : (UInt8.ofNat c.toNat).toNat = c.toNat := by
    rw [UInt8.toNat_ofNat', Nat.mod_eq_of_lt hlt]
  exact ⟨fun h => hcomma (by rw [← hnat, h]; rfl), fun h => hnewline (by rw [← hnat, h]; rfl)⟩

/-- **A number of the file** is what `strtol` reads in its characters. -/
theorem isNumber (d : Decimal) : IsNumber d.text d.value where
  length_lt := by
    rw [text, bytesOfText, List.length_map, String.toList_ofList]
    exact Nat.lt_succ_of_le d.length_le
  separators := d.text_separators
  intArg_eq := by
    obtain ⟨hlow, hhigh⟩ := d.fitsInt
    have hend : ∀ c ∈ ([] : List Char).head?, c.isDigit = false := fun c hc => by cases hc
    have hread := strtol_digits d.signed d.digits_ne_nil d.isDigit hend (by omega) (by omega)
    rw [List.append_nil] at hread
    rw [text, textOfBytes_bytesOfText fun c hc => (d.chars c hc).1, intArg, hread]
    exact toInt32_of_range d.fitsInt

end Decimal

lemma isNumber_row (row : List Decimal) :
    List.Forall₂ IsNumber (row.map Decimal.text) (row.map Decimal.value) := by
  rw [List.forall₂_map_left_iff, List.forall₂_map_right_iff, List.forall₂_same]
  exact fun d _ => d.isNumber

/-! ### The lines -/

lemma newline_notMem_rowLine (row : List Decimal) : ∀ ch ∈ rowLine row, ch ≠ 10 := by
  intro ch hch
  rcases mem_joined hch with rfl | ⟨text, htext, hch⟩
  · decide
  · obtain ⟨d, -, rfl⟩ := List.mem_map.mp htext
    exact (d.text_separators ch hch).2

lemma rowLine_ne_nil {row : List Decimal} (h : row ≠ []) : rowLine row ≠ [] := by
  have hne : row.map Decimal.text ≠ [] := mt List.map_eq_nil_iff.mp h
  obtain ⟨pre, text, htext, heq⟩ := joined_eq_append 44 hne
  obtain ⟨d, -, rfl⟩ := List.mem_map.mp htext
  rw [rowLine, heq]
  exact fun hnil => d.text_ne_nil (List.append_eq_nil_iff.mp hnil).2

namespace Csv

variable {csv : Csv}

lemma sent_text (csv : Csv) : csv.sent.text = loadText csv.names.length csv.rows.length := rfl

lemma length_names_pos (csv : Csv) : 0 < csv.names.length :=
  List.length_pos_iff.mpr csv.names_ne_nil

lemma length_rows_pos (csv : Csv) : 0 < csv.rows.length :=
  List.length_pos_iff.mpr csv.rows_ne_nil

lemma row_ne_nil {row : List Decimal} (h : row ∈ csv.rows) : row ≠ [] :=
  List.ne_nil_of_length_pos (csv.length_row row h ▸ csv.length_names_pos)

/-- The last character of the file. -/
lemma getLast?_bytes (csv : Csv) : csv.bytes.getLast? = some 10 ↔ csv.newline = true := by
  have hne : csv.rows.map rowLine ≠ [] := mt List.map_eq_nil_iff.mp csv.rows_ne_nil
  obtain ⟨pre, line, hline, heq⟩ := joined_eq_append 10 hne
  obtain ⟨row, hrow, rfl⟩ := List.mem_map.mp hline
  rw [bytes, body, heq]
  cases csv.newline with
  | true =>
      rw [if_pos rfl, ← List.cons_append, ← List.append_assoc, List.getLast?_concat]
      exact ⟨fun _ => rfl, fun _ => rfl⟩
  | false =>
      rw [if_neg Bool.false_ne_true, List.append_nil, ← List.cons_append, ← List.append_assoc,
        List.getLast?_append_of_ne_nil _ (rowLine_ne_nil (row_ne_nil hrow))]
      exact ⟨fun h => absurd rfl (newline_notMem_rowLine row 10 (List.mem_of_getLast? h)),
        fun h => absurd h Bool.false_ne_true⟩

/-! ### What the client sends -/

/-- The header. -/
lemma count_header (csv : Csv) :
    ([44].intercalate csv.names).foldl countTurn ⟨0, 0⟩
      = ⟨0, (csv.names.length - 1) % 2 ^ 32⟩ := by
  refine @foldl_joined _ _ countTurn 44 csv.names (fun i => ⟨0, i % 2 ^ 32⟩) (fun i => ?_)
    fun i _ name hname ch hch => ?_
  · rw [countTurn, if_neg (by decide), if_pos ⟨rfl, rfl⟩]
    simp only [Nat.mod_add_mod]
  · obtain ⟨hcomma, hnewline⟩ := (csv.isName name hname).2 ch hch
    rw [countTurn, if_neg hnewline, if_neg fun h => hcomma h.2]

/-- The lines after it. -/
lemma count_rows (csv : Csv) (hrows : csv.rows.length < 2 ^ 31) (c : ℕ) :
    ([10].intercalate (csv.rows.map rowLine)).foldl countTurn ⟨1, c⟩
      = ⟨csv.rows.length, c⟩ := by
  have hpos := csv.length_rows_pos
  have hcount := @foldl_joined _ _ countTurn 10 (csv.rows.map rowLine)
    (fun i => ⟨(i + 1) % 2 ^ 32, c⟩) (fun i => ?_) fun i hi line hline ch hch => ?_
  · rw [List.length_map, Nat.sub_add_cancel hpos,
      Nat.mod_eq_of_lt (show csv.rows.length < 2 ^ 32 by omega)] at hcount
    exact hcount
  · rw [countTurn, if_pos rfl]
    simp only [Nat.mod_add_mod]
  · obtain ⟨row, -, rfl⟩ := List.mem_map.mp hline
    rw [List.length_map] at hi
    have hone : (i + 1) % 2 ^ 32 ≠ 0 := by
      rw [Nat.mod_eq_of_lt (by omega)]
      exact Nat.succ_ne_zero i
    rw [countTurn, if_neg (newline_notMem_rowLine row ch hch), if_neg fun h => hone h.1]

/-- **The counts** of the client. -/
theorem counts_csv (hcols : csv.names.length < 2 ^ 28) (hrows : csv.rows.length < 2 ^ 31) :
    counts csv.bytes = ⟨csv.rows.length, csv.names.length⟩ := by
  have hpos := csv.length_names_pos
  have hnewline : countTurn ⟨0, (csv.names.length - 1) % 2 ^ 32⟩ 10
      = ⟨1, (csv.names.length - 1) % 2 ^ 32⟩ := rfl
  have hcol : ((csv.names.length - 1) % 2 ^ 32 + 1) % 2 ^ 32 = csv.names.length := by omega
  have hcount : csv.bytes.foldl countTurn ⟨0, 0⟩
      = ⟨if csv.newline then csv.rows.length + 1 else csv.rows.length,
          (csv.names.length - 1) % 2 ^ 32⟩ := by
    calc csv.bytes.foldl countTurn ⟨0, 0⟩
        = (body csv.rows csv.newline).foldl countTurn ⟨1, (csv.names.length - 1) % 2 ^ 32⟩ := by
          rw [bytes, List.foldl_append, count_header, List.foldl_cons, hnewline]
      _ = (if csv.newline then [10] else []).foldl countTurn
            ⟨csv.rows.length, (csv.names.length - 1) % 2 ^ 32⟩ := by
          rw [body, List.foldl_append, count_rows csv hrows]
      _ = _ := by
          split_ifs
          · rw [List.foldl_cons, countTurn, if_pos rfl, List.foldl_nil]
            simp only [Nat.mod_eq_of_lt (show csv.rows.length + 1 < 2 ^ 32 by omega)]
          · rfl
  rw [counts, hcount]
  simp only [getLast?_bytes, hcol]
  split_ifs
  · rw [decr32_of_pos (Nat.succ_pos _)]
    rfl
  · rfl

/-- A line, what follows it, and the file behind it. -/
lemma body_cons (row : List Decimal) (rows : List (List Decimal)) (newline : Bool) :
    ∃ tail fp, LineEnd tail fp ∧ body (row :: rows) newline = rowLine row ++ tail ∧
      (rows ≠ [] → fp = ⟨body rows newline, false⟩) := by
  cases rows with
  | nil =>
      rw [body, List.map_singleton, List.intercalate_singleton]
      cases newline with
      | true => exact ⟨_, _, .newline [], rfl, fun h => absurd rfl h⟩
      | false => exact ⟨_, _, .eof, rfl, fun h => absurd rfl h⟩
  | cons row' rows =>
      refine ⟨_, _, .newline (body (row' :: rows) newline), ?_, fun _ => rfl⟩
      rw [body, body, List.map_cons, List.map_cons, List.intercalate_cons_cons,
        List.append_assoc, List.append_assoc]
      rfl

/-- **The loop over the rows.** -/
theorem intRows_body {size : ℕ} {newline : Bool} (hpos : 0 < size) (rows : List (List Decimal)) :
    ∀ {data : List (Option ℤ)}, data.length = size → (∀ row ∈ rows, row.length = size) →
    intRows size rows.length ⟨body rows newline, false⟩ data
      = .ok (rows.map fun row => if size = 1 then data else row.map fun d => some d.value) := by
  induction rows with
  | nil => exact fun {data} _ _ => rfl
  | cons row rows ih =>
      intro data hdata hrows
      have hrow := hrows row List.mem_cons_self
      obtain ⟨tail, fp, hend, hbody, hfp⟩ := body_cons row rows newline
      have hfields := getIntLine_fields hend (isNumber_row row) hpos
        (by rw [List.length_map, hrow]) hdata
      have hvals : (row.map Decimal.value).map some = row.map fun d => some d.value := List.map_map
      rw [hvals] at hfields
      rw [List.length_cons, intRows, hbody, rowLine, hfields, Outcome.ok_bind]
      cases rows with
      | nil => rfl
      | cons row' rows =>
          have hlen : (if size = 1 then data else row.map fun d => some d.value).length = size := by
            split_ifs
            · exact hdata
            · rw [List.length_map, hrow]
          have hrest := ih hlen fun r hr => hrows r (List.mem_cons_of_mem row hr)
          rw [hfp (by simp)]
          simp only [hrest, Outcome.ok_bind, List.map_cons]
          split_ifs <;> rfl

/-- The names are read while the size of their slots is a `uint32_t`. -/
lemma getNameLine_csv (hcols : csv.names.length < 2 ^ 28) :
    getNameLine csv.names.length csv.bytes
        ⟨List.replicate (maxNameSize * csv.names.length % 2 ^ 32) none, 0, 0⟩
      = .ok (csv.sent.names, ⟨body csv.rows csv.newline, false⟩) := by
  have hsize : maxNameSize * csv.names.length % 2 ^ 32 = csv.names.length * maxNameSize := by
    rw [Nat.mul_comm, Nat.mod_eq_of_lt]
    simp only [maxNameSize]
    omega
  have hlt : csv.names.length * maxNameSize < 2 ^ 32 := by
    simp only [maxNameSize]
    omega
  rw [hsize]
  exact @getNameLine_names _ _ csv.names [] 0 csv.names_ne_nil (Nat.zero_mul _).symm
    (Nat.zero_add _) hlt fun name hname =>
      ⟨Nat.lt_succ_of_le (csv.isName name hname).1, (csv.isName name hname).2⟩

/-- **What the client sends** while its sizes hold. The row of a single column is never written. -/
theorem sendFile_csv (hcols : csv.names.length < 2 ^ 28) (hrows : csv.rows.length < 2 ^ 31) :
    sendFile csv.bytes = .ok
      { csv.sent with
        rows := if csv.names.length = 1 then csv.rows.map fun _ => [none] else csv.sent.rows } := by
  have hpos := csv.length_names_pos
  have hdata : (List.replicate (4 * csv.names.length % 2 ^ 32 / 4) (none : Option ℤ)).length
      = csv.names.length := by
    rw [List.length_replicate]
    omega
  have hcol : toInt32 (csv.names.length : ℕ) = csv.names.length :=
    toInt32_of_range ⟨by omega, by omega⟩
  have hrow : toInt32 (csv.rows.length : ℕ) = csv.rows.length :=
    toInt32_of_range ⟨by omega, by omega⟩
  rw [sendFile, counts_csv hcols hrows]
  simp only [getNameLine_csv hcols, Outcome.ok_bind,
    intRows_body hpos csv.rows hdata csv.length_row, hcol, hrow]
  split_ifs with hone
  · have hsingle : List.replicate (4 * csv.names.length % 2 ^ 32 / 4) (none : Option ℤ)
        = [none] := by
      rw [hone]
      rfl
    rw [hsingle]
    rfl
  · rfl

end Csv

/-! ### The file of the session -/

namespace Csv

lemma bytesOfText_textOfBytes (bs : List UInt8) : bytesOfText (textOfBytes bs) = bs := by
  rw [bytesOfText, textOfBytes, String.toList_ofList, List.map_map]
  refine (List.map_congr_left fun b _ => ?_).trans (List.map_id bs)
  have hvalid : b.toNat.isValidChar := .inl (b.toNat_lt.trans (by decide))
  have hnat : (Char.ofNat b.toNat).toNat = b.toNat := by
    rw [Char.ofNat, dif_pos hvalid]
    rfl
  rw [Function.comp_apply, hnat, UInt8.ofNat_toNat, id_eq]

/-- What a session with the client takes the file for. -/
def file (csv : Csv) : LoadFile where
  names := csv.names.map textOfBytes
  rows := csv.rows.map fun row => row.map Decimal.value
  names_fit := by
    intro name hname
    obtain ⟨bs, hbs, rfl⟩ := List.mem_map.mp hname
    rw [textOfBytes, String.length_ofList, List.length_map]
    exact Nat.lt_succ_of_le (csv.isName bs hbs).1
  rows_fit := by
    intro row hrow
    obtain ⟨ds, hds, rfl⟩ := List.mem_map.mp hrow
    rw [List.length_map, List.length_map, csv.length_row ds hds]

/-- A slot of a session has zero for the bytes that are not written. -/
lemma nameSlot_textOfBytes {name : List UInt8} (h : name.length < maxNameSize) :
    nameSlot (textOfBytes name) = (nameSent name).map (·.getD 0) := by
  obtain ⟨k, hk⟩ : ∃ k, maxNameSize - name.length = k + 1 :=
    ⟨maxNameSize - name.length - 1, by omega⟩
  have hk' : maxNameSize - (name.length + 1) = k := by omega
  have hlen : (textOfBytes name).length = name.length := by
    rw [textOfBytes, String.length_ofList, List.length_map]
  have hwritten : (name.map some).map (fun b => b.getD 0) = name := by
    rw [List.map_map]
    exact List.map_id name
  rw [nameSlot, bytesOfText_textOfBytes, hlen, hk, nameSent, slot, List.length_map,
    List.length_append, List.length_singleton, hk', List.map_append, List.map_append,
    List.map_append, List.map_replicate, hwritten, List.append_assoc]
  rfl

/-- **What is sent for the file** is the line of a LOAD in a session, with the bytes that are not
written taken as zero. -/
theorem sent_loadLine (csv : Csv) :
    (loadLine csv.file).text = csv.sent.text ∧
      (loadLine csv.file).payloads = csv.sent.names.map (·.getD 0) ::
        csv.sent.rows.map fun row => bytesOfInts (row.map (·.getD 0)) := by
  have hnames : (csv.names.map textOfBytes).flatMap nameSlot
      = (csv.names.flatMap nameSent).map (·.getD 0) := by
    rw [List.flatMap_map, List.map_flatMap]
    exact List.flatMap_congr fun name h =>
      nameSlot_textOfBytes (Nat.lt_succ_of_le (csv.isName name h).1)
  have hrow : ∀ row : List Decimal, row.map Decimal.value
      = (row.map fun d => some d.value).map (·.getD 0) := fun row => by
    rw [List.map_map]
    rfl
  rw [loadLine, file, sent]
  simp only [List.length_map, hnames, List.map_map, true_and, List.cons.injEq]
  exact List.map_congr_left fun row _ => congrArg bytesOfInts (hrow row)

end Csv

/-! ### The text of the command -/

/-- The characters of a printed number are those of a byte, and not a comma. -/
lemma intChars {x : ℤ} {c : Char} (h : c ∈ (toString x).toList) : c.toNat < 256 ∧ c ≠ ',' := by
  have hdigit : ∀ {n : ℕ}, c ∈ (toString n).toList → c.toNat < 256 ∧ c ≠ ',' := by
    intro n hc
    rw [Nat.toString_eq_ofList_toDigits, String.toList_ofList] at hc
    refine ⟨(toDigits_range hc).2, fun hcomma => ?_⟩
    have hdigit := Nat.isDigit_of_mem_toDigits (by decide) (by decide) hc
    rw [hcomma] at hdigit
    exact absurd hdigit (by decide)
  cases x with
  | ofNat n => exact hdigit h
  | negSucc n =>
      rw [show toString (Int.negSucc n) = "-" ++ toString (n + 1) from rfl,
        String.toList_append] at h
      rcases List.mem_append.mp h with h | h
      · rw [List.mem_singleton.mp h]
        decide
      · exact hdigit h

/-- A number that prints as `n` does is `n`. -/
lemma eq_of_toString_eq {x : ℤ} {n : ℕ} (h : toString x = toString n) : x = n := by
  rw [Nat.toString_eq_ofList_toDigits] at h
  cases x with
  | ofNat m =>
      rw [show toString (Int.ofNat m) = toString m from rfl, Nat.toString_eq_ofList_toDigits] at h
      have hdigits := String.ofList_injective h
      have hvalue := congrArg (fun ds => Nat.ofDigitChars 10 ds 0) hdigits
      simp only [Nat.ofDigitChars_ten_toDigits] at hvalue
      exact congrArg Int.ofNat hvalue
  | negSucc m =>
      have hminus : '-' ∈ Nat.toDigits 10 n := by
        rw [← @String.toList_ofList (Nat.toDigits 10 n), ← h,
          show toString (Int.negSucc m) = "-" ++ toString (m + 1) from rfl, String.toList_append]
        exact List.mem_cons_self
      have hdigit := Nat.isDigit_of_mem_toDigits (by decide) (by decide) hminus
      exact absurd hdigit (by decide)

lemma toList_loadText (x y : ℤ) : ("load(" ++ toString x ++ "," ++ toString y ++ ")").toList
    = "load(".toList ++ ((toString x).toList ++ ',' :: ((toString y).toList ++ [')'])) := by
  simp only [String.toList_append, List.append_assoc]
  rfl

lemma loadText_chars (x y : ℤ) :
    ∀ c ∈ ("load(" ++ toString x ++ "," ++ toString y ++ ")").toList, c.toNat < 256 := by
  have hword : ∀ c ∈ "load(".toList, c.toNat < 256 := List.all_iff_forall_prop.mp (by decide)
  have hnumber : ∀ x : ℤ, ∀ c ∈ (toString x).toList, c.toNat < 256 := fun x c hc => (intChars hc).1
  rw [toList_loadText]
  simp only [List.forall_mem_append, List.forall_mem_cons]
  exact ⟨hword, hnumber x, by decide, hnumber y, by decide, List.forall_mem_nil _⟩

/-- **The text determines the two numbers.** -/
theorem loadText_inj {x y : ℤ} {m n : ℕ} (h : loadText x y = loadText m n) : x = m ∧ y = n := by
  have hlist := congrArg (String.toList ∘ textOfBytes) h
  simp only [Function.comp_apply, loadText, textOfBytes_bytesOfText (loadText_chars _ _),
    toList_loadText] at hlist
  have hcomma : ∀ x : ℤ, ',' ∉ (toString x).toList := fun x hc => (intChars hc).2 rfl
  have hcomma' : ',' ∉ (toString y).toList ++ [')'] := fun hc => by
    rcases List.mem_append.mp hc with hc | hc
    · exact hcomma y hc
    · exact absurd (List.mem_singleton.mp hc) (by decide)
  obtain ⟨hx, -, hy⟩ :=
    (List.append_cons_inj_of_notMem (hcomma x) hcomma').mp (List.append_cancel_left hlist)
  exact ⟨eq_of_toString_eq (String.toList_injective hx),
    eq_of_toString_eq (String.toList_injective (List.append_cancel_right hy))⟩

/-! ### The files that are sent -/

section Sent

variable {csv : Csv}

/-- A count that prints as `n` does is `n`, which is an `int`. -/
lemma eq_of_toInt32_eq {x n : ℕ} (hx : x < 2 ^ 32) (h : toInt32 x = n) : x = n ∧ n < 2 ^ 31 := by
  have hrange := (toInt32_range x).2
  have hmod : toInt32 x % 2 ^ 32 = (x : ℤ) % 2 ^ 32 := Int.bmod_emod
  rw [h] at hrange hmod
  omega

/-- Slots for more names do not fit a size of 32 bits, and the names are written past them. -/
lemma names_lt_of_read {data : List (Option UInt8)} {out : List (Option UInt8) × LoadFp} {size : ℕ}
    (hdata : data.length = maxNameSize * csv.names.length % 2 ^ 32)
    (h : getNameLine size csv.bytes ⟨data, 0, 0⟩ = .ok out) : csv.names.length < 2 ^ 28 := by
  by_contra hcols
  have hnames : ∀ name ∈ csv.names, name.length < maxNameSize ∧ ∀ ch ∈ name, ch ≠ 44 ∧ ch ≠ 10 :=
    fun name hname => ⟨Nat.lt_succ_of_le (csv.isName name hname).1, (csv.isName name hname).2⟩
  -- the first name whose offset is no less than the size of the block
  obtain ⟨char, hchar, hroom⟩ := getNameLine_bounds csv.names rfl hnames h
    (csv.names.length % 2 ^ 28) (by omega)
  rw [hdata] at hroom
  simp only [maxNameSize] at hchar hroom
  omega

/-- The counts are those of the file when its text is sent, and the slots of the names have a size
of 32 bits. -/
lemma bounds_of_sent (h : sendFile csv.bytes = .ok csv.sent) :
    csv.names.length < 2 ^ 28 ∧ csv.rows.length < 2 ^ 31 := by
  obtain ⟨⟨names, fp⟩, hnames, h⟩ := Outcome.bind_eq_ok.mp h
  obtain ⟨rows, -, h⟩ := Outcome.bind_eq_ok.mp h
  have htext := congrArg LoadSent.text (Except.ok.inj h)
  simp only [Csv.sent_text] at htext
  obtain ⟨hcol, hrow⟩ := loadText_inj htext
  have hlt : (counts csv.bytes).colCount < 2 ^ 32 := by
    rw [counts]
    exact Nat.mod_lt _ (Nat.two_pow_pos 32)
  obtain ⟨hcols, -⟩ := eq_of_toInt32_eq hlt hcol
  rw [hcols] at hnames
  refine ⟨names_lt_of_read List.length_replicate hnames, ?_⟩
  have hrange := (toInt32_range (counts csv.bytes).rowCount).2
  rw [hrow] at hrange
  omega

/-- **A file is sent** as it is exactly when it has two columns or more, and no more than the sizes
of 32 bits allow. -/
theorem loadCommand_csv_iff {files : String → Option (List UInt8)} {line : List UInt8}
    {name : String} (hname : parseLoadFilename line = .ok name)
    (hfile : files name = some csv.bytes) :
    loadCommand files line = .ok csv.sent
      ↔ 2 ≤ csv.names.length ∧ csv.names.length < 2 ^ 28 ∧ csv.rows.length < 2 ^ 31 := by
  have hpos := csv.length_names_pos
  have hload : loadCommand files line = sendFile csv.bytes := by
    rw [loadCommand, hname, Outcome.ok_bind, hfile]
  rw [hload]
  constructor
  · intro h
    obtain ⟨hcols, hrows⟩ := bounds_of_sent h
    refine ⟨?_, hcols, hrows⟩
    by_contra hone
    have hsent := Except.ok.inj ((Csv.sendFile_csv hcols hrows).symm.trans h)
    have hrows' : (csv.rows.map fun _ => [none]) = csv.sent.rows := by
      rw [← congrArg LoadSent.rows hsent]
      exact (if_pos (by omega)).symm
    obtain ⟨row, rows, hcons⟩ := List.exists_cons_of_ne_nil csv.rows_ne_nil
    rw [Csv.sent, hcons, List.map_cons, List.map_cons] at hrows'
    have hnone : none ∈ row.map fun d => some d.value := by
      rw [← (List.cons.inj hrows').1]
      exact List.mem_cons_self
    obtain ⟨d, -, hd⟩ := List.mem_map.mp hnone
    cases hd
  · rintro ⟨htwo, hcols, hrows⟩
    rw [Csv.sendFile_csv hcols hrows, if_neg (by omega)]

end Sent

/-- A file with two columns and no newline at its end. -/
def twoColumns : Csv where
  names := [bytesOfText "a", bytesOfText "b"]
  rows :=
    [[.ofNat 5 (by decide), .ofNat 70 (by decide)], [.ofNat 0 (by decide), .ofNat 9 (by decide)]]
  newline := false
  names_ne_nil := by decide
  rows_ne_nil := List.cons_ne_nil _ _
  isName := by simp [bytesOfText]
  length_row := by simp

lemma twoColumns_sent :
    loadCommand (fun _ => some twoColumns.bytes) (bytesOfText "load(\"t.csv\")\n")
      = .ok twoColumns.sent :=
  (@loadCommand_csv_iff twoColumns (fun _ => some twoColumns.bytes) _ "t.csv" (by rfl) rfl).mpr
    (by decide)

/-- The file `a`, `5` with a single column. -/
def oneColumn : Csv where
  names := [bytesOfText "a"]
  rows := [[.ofNat 5 (by decide)]]
  newline := true
  names_ne_nil := by decide
  rows_ne_nil := List.cons_ne_nil _ _
  isName := by simp [bytesOfText]
  length_row := by simp

/-- The row of a single column is sent without being written. -/
lemma oneColumn_unwritten :
    oneColumn.sent.rows = [[some 5]] ∧
      loadCommand (fun _ => some oneColumn.bytes) (bytesOfText "load(\"t.csv\")\n")
        = .ok { oneColumn.sent with rows := [[none]] } ∧
      loadCommand (fun _ => some oneColumn.bytes) (bytesOfText "load(\"t.csv\")\n")
        ≠ .ok oneColumn.sent := by
  have hload : loadCommand (fun _ => some oneColumn.bytes) (bytesOfText "load(\"t.csv\")\n")
      = .ok { oneColumn.sent with rows := [[none]] } :=
    @Csv.sendFile_csv oneColumn (by decide) (by decide)
  have hrows : oneColumn.sent.rows = [[some 5]] := by rfl
  refine ⟨hrows, hload, fun h => ?_⟩
  have hsent := congrArg LoadSent.rows (Except.ok.inj (hload.symm.trans h))
  rw [hrows] at hsent
  exact absurd hsent (by decide)

end ColumnDb
