import ColumnDb.Library.Directory
import ColumnDb.Library.Interleave
import ColumnDb.Store.Insert

/-!
Two inserts into different SORTED columns at the same time (`helper_insert.c`).

An insert into a SORTED column writes a new file under the name `temp`, removes the file of the
column and renames the new one. The name is the same for every column, and nothing keeps two
workers from using it at once.

* `Inserter`, `TwoInserts.Run`: the file operations of an insert on a directory, and the
  interleavings of two.
* `TwoInserts.Own`: what holds in any order. Each worker reads its own column, which nobody
  else changes.
* `TwoInserts.InTurn`: as long as the workers take turns with the temporary file, it holds what
  the worker that has it open has written.
* `TwoInserts.Overlap`: otherwise the second renaming finds no file, and its column is gone.
* `TwoInserts.run_sequential_iff`: the outcome is that of the inserts one after the other
  exactly when the workers take turns.
-/

namespace ColumnDb

/-! ### The file operations of an insert -/

/-- The names in the directory: `get_file_name` of a column, which has an extension, and the
name of the temporary file, which has none. -/
inductive FileName where
  | data (colName : String)
  | temp
  deriving DecidableEq

/-- A file without bytes, or with a gap where its header belongs. -/
def blankFile : ColumnFile where
  m := { type := .unsorted, size := 0, nextFree := 0, root := 0 }
  cells := []

/-- `fwrite` of integers at an index; before the index the file is filled up with zeros. -/
def ColumnFile.fwrite (file : ColumnFile) (index : ℕ) (xs : List ℤ) : ColumnFile :=
  if xs = [] then file
  else
    { file with
      cells := (file.cells ++ List.replicate (index - file.cells.length) 0).take index ++ xs
        ++ file.cells.drop (index + xs.length) }

/-- The file operations of `insert_helper` on a SORTED column: two of `init_col`, those of
`get_lower_bound`, and nine of `insert_value_to_file`. -/
inductive RewriteOp where
  | openCol
  | readInit
  | search
  | openTemp
  | readFirst
  | writeFirst
  | writeVal
  | readLast
  | writeLast
  | writeMeta
  | remove
  | rename
  deriving DecidableEq

/-- A worker in `insert_helper`, named by the operation that comes next, with the variables
that are still read: the open file of the column, its header, the index, and the new file. -/
inductive Inserter where
  | openCol
  | readInit (fp : ℕ)
  | search (fp : ℕ) (m : ColumnMeta) (low high : ℕ)
  | openTemp (fp : ℕ) (m : ColumnMeta) (index : ℕ)
  | readFirst (fp : ℕ) (m : ColumnMeta) (index newFp : ℕ)
  | writeFirst (fp : ℕ) (m : ColumnMeta) (index newFp : ℕ) (first : List ℤ)
  | writeVal (fp : ℕ) (m : ColumnMeta) (index newFp : ℕ)
  | readLast (fp : ℕ) (m : ColumnMeta) (index newFp : ℕ)
  | writeLast (m : ColumnMeta) (index newFp : ℕ) (last : List ℤ)
  | writeMeta (m : ColumnMeta) (newFp : ℕ)
  | remove (newFp : ℕ)
  | rename (newFp : ℕ)
  | done
  | exited
  deriving DecidableEq

namespace Inserter

/-- One turn of the loop of `get_lower_bound`, or what follows it. -/
def searchTurn (fp : ℕ) (m : ColumnMeta) (cells : List ℤ) (val : ℤ) (low high : ℕ) : Inserter :=
  if low < high then
    if (low + high) / 2 = m.size then openTemp fp m (m.size - 1)
    else
      match getValFromOffset cells ((low + high) / 2) with
      | .ok v =>
          if val ≤ v then search fp m low ((low + high) / 2)
          else search fp m ((low + high) / 2 + 1) high
      | .error _ => exited
  else if low = m.size then openTemp fp m (m.size - 1)
  else
    match getValFromOffset cells low with
    | .ok v => openTemp fp m (if val ≤ v then low else m.size)
    | .error _ => exited

/-- The next operation of a worker that inserts `val` into the column `name`. -/
def next (name : String) (val : ℤ) (d : Directory FileName ColumnFile) :
    Inserter → Option (RewriteOp × Inserter × Directory FileName ColumnFile)
  | openCol =>
      match d.entry (.data name) with
      | some fp => some (.openCol, readInit fp, d)
      | none => some (.openCol, exited, d)
  | readInit fp =>
      let m := (d.content fp).m
      some (.readInit, if m.size = 0 then openTemp fp m 0 else search fp m 0 m.size, d)
  | search fp m low high =>
      some (.search, searchTurn fp m (d.content fp).cells val low high, d)
  | openTemp fp m index =>
      let new := d.openNew .temp blankFile
      some (.openTemp,
        if index ≤ m.size then
          if 0 < index then readFirst fp m index new.1 else writeVal fp m index new.1
        else exited, new.2)
  | readFirst fp m index newFp =>
      let cells := (d.content fp).cells
      some (.readFirst,
        if index ≤ cells.length then writeFirst fp m index newFp (cells.take index) else exited, d)
  | writeFirst fp m index newFp first =>
      some (.writeFirst, writeVal fp m index newFp,
        d.write newFp ((d.content newFp).fwrite 0 first))
  | writeVal fp m index newFp =>
      some (.writeVal, readLast fp m index newFp,
        d.write newFp ((d.content newFp).fwrite index [val]))
  | readLast fp m index newFp =>
      let cells := (d.content fp).cells
      some (.readLast,
        if m.size ≤ cells.length then
          writeLast m index newFp ((cells.drop index).take (m.size - index))
        else exited, d)
  | writeLast m index newFp last =>
      some (.writeLast, writeMeta m newFp,
        d.write newFp ((d.content newFp).fwrite (index + 1) last))
  | writeMeta m newFp =>
      some (.writeMeta, remove newFp,
        d.write newFp { d.content newFp with m := { m with size := m.size + 1 } })
  | remove newFp => some (.remove, rename newFp, d.remove (.data name))
  | rename _ => some (.rename, done, d.rename .temp (.data name))
  | done => none
  | exited => none

/-- The new file a worker has open. -/
def handle : Inserter → Option ℕ
  | readFirst _ _ _ t | writeFirst _ _ _ t _ | writeVal _ _ _ t | readLast _ _ _ t
  | writeLast _ _ t _ | writeMeta _ t | remove t | rename t => some t
  | _ => none

/-- What an operation does to the directory and to the new file of the worker. -/
lemma next_dir {name : String} {val : ℤ} {d d' : Directory FileName ColumnFile} {p p' : Inserter}
    {op : RewriteOp} (h : p.next name val d = some (op, p', d')) :
    (op ≠ .openTemp ∧ op ≠ .rename ∧ d' = d ∧ (p'.handle = p.handle ∨ p' = exited) ∧
      p' ≠ done ∧ ∀ t, p' ≠ rename t) ∨
    (op = .openTemp ∧ p.handle = none ∧ d' = (d.openNew .temp blankFile).2 ∧
      (p'.handle = some (d.openNew .temp blankFile).1 ∨ p' = exited) ∧
      p' ≠ done ∧ ∀ t, p' ≠ rename t) ∨
    (op ≠ .openTemp ∧ op ≠ .rename ∧ ∃ t c, p.handle = some t ∧ p'.handle = some t ∧
      d' = d.write t c ∧ ∀ t, p' ≠ rename t) ∨
    (op = .remove ∧ ∃ t, p = remove t ∧ p' = rename t ∧ d' = d.remove (.data name)) ∨
    (op = .rename ∧ ∃ t, p = rename t ∧ p' = done ∧ d' = d.rename .temp (.data name)) := by
  cases p with
  | openCol =>
      rw [next] at h
      split at h <;> cases h <;> simp [handle]
  | readInit fp =>
      simp only [next, Option.some.injEq, Prod.mk.injEq] at h
      obtain ⟨rfl, rfl, rfl⟩ := h
      refine Or.inl ⟨by simp, by simp, rfl, ?_⟩
      split_ifs <;> simp [handle]
  | search fp m low high =>
      simp only [next, Option.some.injEq, Prod.mk.injEq] at h
      obtain ⟨rfl, rfl, rfl⟩ := h
      refine Or.inl ⟨by simp, by simp, rfl, ?_⟩
      rw [searchTurn]
      split_ifs
      · simp [handle]
      · split
        · split_ifs <;> simp [handle]
        · simp
      · simp [handle]
      · split <;> simp [handle]
  | openTemp fp m index =>
      simp only [next, Option.some.injEq, Prod.mk.injEq] at h
      obtain ⟨rfl, rfl, rfl⟩ := h
      refine Or.inr (Or.inl ⟨rfl, rfl, rfl, ?_⟩)
      split_ifs <;> simp [handle]
  | readFirst fp m index newFp =>
      simp only [next, Option.some.injEq, Prod.mk.injEq] at h
      obtain ⟨rfl, rfl, rfl⟩ := h
      refine Or.inl ⟨by simp, by simp, rfl, ?_⟩
      split_ifs <;> simp [handle]
  | readLast fp m index newFp =>
      simp only [next, Option.some.injEq, Prod.mk.injEq] at h
      obtain ⟨rfl, rfl, rfl⟩ := h
      refine Or.inl ⟨by simp, by simp, rfl, ?_⟩
      split_ifs <;> simp [handle]
  | writeFirst | writeVal | writeLast | writeMeta =>
      simp only [next, Option.some.injEq, Prod.mk.injEq] at h
      obtain ⟨rfl, rfl, rfl⟩ := h
      exact Or.inr (Or.inr (Or.inl ⟨by simp, by simp, _, _, rfl, rfl, rfl, by simp⟩))
  | remove newFp =>
      simp only [next, Option.some.injEq, Prod.mk.injEq] at h
      obtain ⟨rfl, rfl, rfl⟩ := h
      simp
  | rename newFp =>
      simp only [next, Option.some.injEq, Prod.mk.injEq] at h
      obtain ⟨rfl, rfl, rfl⟩ := h
      simp
  | done => cases h
  | exited => cases h

/-- A worker on its way to insert `val` at `index` into the file `f` of the column, open as
`ino`. -/
def At (f : DataFile) (val : ℤ) (index ino : ℕ) : Inserter → Prop
  | openCol => True
  | readInit fp => fp = ino
  | search fp m low high =>
      fp = ino ∧ m = f.m ∧ lowerLoop f.cells f.m.size val low high = .ok index
  | openTemp fp m i => fp = ino ∧ m = f.m ∧ i = index
  | readFirst fp m i _ => fp = ino ∧ m = f.m ∧ i = index ∧ 0 < index
  | writeFirst fp m i _ first =>
      fp = ino ∧ m = f.m ∧ i = index ∧ 0 < index ∧ first = f.cells.take index
  | writeVal fp m i _ => fp = ino ∧ m = f.m ∧ i = index
  | readLast fp m i _ => fp = ino ∧ m = f.m ∧ i = index
  | writeLast m i _ last =>
      m = f.m ∧ i = index ∧ last = (f.cells.drop index).take (f.m.size - index)
  | writeMeta m _ => m = f.m
  | remove _ | rename _ | done => True
  | exited => False

/-- What a worker has written of the new file. -/
def written (f : DataFile) (val : ℤ) (index : ℕ) : Inserter → ColumnFile
  | writeVal .. => { blankFile with cells := f.cells.take index }
  | readLast .. | writeLast .. => { blankFile with cells := f.cells.take index ++ [val] }
  | writeMeta .. =>
      { blankFile with
        cells := f.cells.take index ++ [val] ++ (f.cells.drop index).take (f.m.size - index) }
  | remove _ | rename _ =>
      { m := { f.m with size := f.m.size + 1 }
        cells := f.cells.take index ++ [val] ++ (f.cells.drop index).take (f.m.size - index) }
  | _ => blankFile

section Local

variable {f : DataFile} {name : String} {val : ℤ} {index ino : ℕ}
  {d d' : Directory FileName ColumnFile} {p p' : Inserter} {op : RewriteOp}

/-- The search goes on to the index that `get_lower_bound` returns. -/
lemma At.searchTurn {low high : ℕ}
    (h : lowerLoop f.cells f.m.size val low high = .ok index) :
    At f val index ino (Inserter.searchTurn ino f.m f.cells val low high) := by
  rw [lowerLoop] at h
  rw [Inserter.searchTurn]
  split_ifs at h ⊢ with hlt hmid hend
  · exact ⟨rfl, rfl, Except.ok.inj h⟩
  · obtain ⟨v, hv, h⟩ := Outcome.bind_eq_ok.mp h
    rw [hv]
    split_ifs at h with hle
    · simpa only [if_pos hle] using ⟨rfl, rfl, h⟩
    · simpa only [if_neg hle] using ⟨rfl, rfl, h⟩
  · exact ⟨rfl, rfl, Except.ok.inj h⟩
  · obtain ⟨v, hv, h⟩ := Outcome.bind_eq_ok.mp h
    rw [hv]
    split_ifs at h with hle
    · simpa only [if_pos hle] using ⟨rfl, rfl, Except.ok.inj h⟩
    · simpa only [if_neg hle] using ⟨rfl, rfl, Except.ok.inj h⟩

/-- **A worker alone**: as long as the file of its column is there and keeps its content, it
goes on to insert at the index of `get_lower_bound`. -/
lemma At.next (hindex : getLowerBound f.cells f.m.size val = .ok index) (hle : index ≤ f.m.size)
    (hcontent : d.content ino = f.file) (hentry : p = openCol → d.entry (.data name) = some ino)
    (h : At f val index ino p) (hstep : p.next name val d = some (op, p', d')) :
    At f val index ino p' := by
  have hcells : (d.content ino).cells = f.cells := by rw [hcontent]; rfl
  have hlen := f.size_le
  cases p with
  | openCol =>
      rw [Inserter.next, hentry rfl] at hstep
      cases hstep
      rfl
  | readInit fp =>
      obtain rfl := h
      simp only [Inserter.next, Option.some.injEq, Prod.mk.injEq] at hstep
      obtain ⟨-, rfl, -⟩ := hstep
      rw [hcontent]
      rw [getLowerBound] at hindex
      split_ifs at hindex with hzero
      · rw [if_pos (show f.file.m.size = 0 from hzero)]
        exact ⟨rfl, rfl, Except.ok.inj hindex⟩
      · rw [if_neg (show f.file.m.size ≠ 0 from hzero)]
        exact ⟨rfl, rfl, hindex⟩
  | search fp m low high =>
      obtain ⟨rfl, rfl, hloop⟩ := h
      simp only [Inserter.next, Option.some.injEq, Prod.mk.injEq] at hstep
      obtain ⟨-, rfl, -⟩ := hstep
      rw [hcells]
      exact At.searchTurn hloop
  | openTemp fp m i =>
      obtain ⟨rfl, rfl, rfl⟩ := h
      simp only [Inserter.next, Option.some.injEq, Prod.mk.injEq] at hstep
      obtain ⟨-, rfl, -⟩ := hstep
      rw [if_pos hle]
      split_ifs with hpos
      · exact ⟨rfl, rfl, rfl, hpos⟩
      · exact ⟨rfl, rfl, rfl⟩
  | readFirst fp m i newFp =>
      obtain ⟨rfl, rfl, rfl, hpos⟩ := h
      simp only [Inserter.next, Option.some.injEq, Prod.mk.injEq, hcells] at hstep
      obtain ⟨-, rfl, -⟩ := hstep
      rw [if_pos (hle.trans hlen)]
      exact ⟨rfl, rfl, rfl, hpos, rfl⟩
  | writeFirst fp m i newFp first =>
      obtain ⟨rfl, rfl, rfl, -⟩ := h
      simp only [Inserter.next, Option.some.injEq, Prod.mk.injEq] at hstep
      obtain ⟨-, rfl, -⟩ := hstep
      exact ⟨rfl, rfl, rfl⟩
  | writeVal fp m i newFp =>
      obtain ⟨rfl, rfl, rfl⟩ := h
      simp only [Inserter.next, Option.some.injEq, Prod.mk.injEq] at hstep
      obtain ⟨-, rfl, -⟩ := hstep
      exact ⟨rfl, rfl, rfl⟩
  | readLast fp m i newFp =>
      obtain ⟨rfl, rfl, rfl⟩ := h
      simp only [Inserter.next, Option.some.injEq, Prod.mk.injEq, hcells] at hstep
      obtain ⟨-, rfl, -⟩ := hstep
      rw [if_pos hlen]
      exact ⟨rfl, rfl, rfl⟩
  | writeLast m i newFp last =>
      obtain ⟨rfl, -⟩ := h
      simp only [Inserter.next, Option.some.injEq, Prod.mk.injEq] at hstep
      obtain ⟨-, rfl, -⟩ := hstep
      rfl
  | writeMeta | remove | rename =>
      simp only [Inserter.next, Option.some.injEq, Prod.mk.injEq] at hstep
      obtain ⟨-, rfl, -⟩ := hstep
      trivial
  | done => cases hstep
  | exited => cases hstep

/-- Writing at the end of a file. -/
lemma fwrite_end (m : ColumnMeta) (cells xs : List ℤ) :
    ColumnFile.fwrite { m := m, cells := cells } cells.length xs
      = { m := m, cells := cells ++ xs } := by
  rw [ColumnFile.fwrite]
  split_ifs with hxs
  · rw [hxs, List.append_nil]
  · simp

/-- **What a worker writes**: its new file, as long as nobody else writes to it, holds what the
worker has written. -/
lemma At.written (hle : index ≤ f.m.size) (h : At f val index ino p)
    (hcontent : d.content ino = f.file) (hstep : p.next name val d = some (op, p', d')) {t : ℕ}
    (ht : p.handle = some t) (ht' : p'.handle = some t)
    (hfile : d.content t = Inserter.written f val index p) :
    d'.content t = Inserter.written f val index p' := by
  have hlen := f.size_le
  have hcells : (d.content ino).cells = f.cells := by rw [hcontent]; rfl
  have htake : (f.cells.take index).length = index := by rw [List.length_take]; omega
  cases p with
  | openCol | readInit | search | openTemp | done | exited => cases ht
  | readFirst fp m i newFp =>
      obtain ⟨rfl, rfl, rfl, -⟩ := h
      simp only [Inserter.next, Option.some.injEq, Prod.mk.injEq, hcells] at hstep
      obtain ⟨-, rfl, rfl⟩ := hstep
      rw [if_pos (hle.trans hlen), hfile]
      rfl
  | writeFirst fp m i newFp first =>
      cases ht
      obtain ⟨-, rfl, rfl, -, rfl⟩ := h
      simp only [Inserter.next, Option.some.injEq, Prod.mk.injEq] at hstep
      obtain ⟨-, rfl, rfl⟩ := hstep
      rw [Directory.write_content_self, hfile]
      exact fwrite_end _ [] _
  | writeVal fp m i newFp =>
      cases ht
      obtain ⟨-, rfl, rfl⟩ := h
      simp only [Inserter.next, Option.some.injEq, Prod.mk.injEq] at hstep
      obtain ⟨-, rfl, rfl⟩ := hstep
      rw [Directory.write_content_self, hfile]
      have hend := fwrite_end blankFile.m (f.cells.take i) [val]
      rwa [htake] at hend
  | readLast fp m i newFp =>
      obtain ⟨rfl, rfl, rfl⟩ := h
      simp only [Inserter.next, Option.some.injEq, Prod.mk.injEq, hcells] at hstep
      obtain ⟨-, rfl, rfl⟩ := hstep
      rw [if_pos hlen, hfile]
      rfl
  | writeLast m i newFp last =>
      cases ht
      obtain ⟨rfl, rfl, rfl⟩ := h
      simp only [Inserter.next, Option.some.injEq, Prod.mk.injEq] at hstep
      obtain ⟨-, rfl, rfl⟩ := hstep
      rw [Directory.write_content_self, hfile]
      have hend := fwrite_end blankFile.m (f.cells.take i ++ [val])
        ((f.cells.drop i).take (f.m.size - i))
      rwa [List.length_append, htake, List.length_singleton] at hend
  | writeMeta m newFp =>
      cases ht
      obtain rfl := h
      simp only [Inserter.next, Option.some.injEq, Prod.mk.injEq] at hstep
      obtain ⟨-, rfl, rfl⟩ := hstep
      rw [Directory.write_content_self, hfile]
      rfl
  | remove newFp =>
      simp only [Inserter.next, Option.some.injEq, Prod.mk.injEq] at hstep
      obtain ⟨-, rfl, rfl⟩ := hstep
      rw [Directory.remove_content, hfile]
      rfl
  | rename newFp =>
      simp only [Inserter.next, Option.some.injEq, Prod.mk.injEq] at hstep
      obtain ⟨-, rfl, rfl⟩ := hstep
      cases ht'

/-- The new file of a worker is empty when it is opened. -/
lemma At.written_open (h : At f val index ino p)
    (hstep : p.next name val d = some (.openTemp, p', d')) :
    Inserter.written f val index p' = blankFile := by
  cases p with
  | openTemp fp m i =>
      obtain ⟨-, -, rfl⟩ := h
      simp only [Inserter.next, Option.some.injEq, Prod.mk.injEq] at hstep
      obtain ⟨-, rfl, -⟩ := hstep
      split_ifs with hle hpos
      · rfl
      · obtain rfl : i = 0 := by omega
        rfl
      · rfl
  | openCol =>
      rw [Inserter.next] at hstep
      split at hstep <;> simp at hstep
  | _ => simp [Inserter.next] at hstep

end Local

/-- A worker that has opened the new file. -/
def opened : Inserter → Bool
  | done => true
  | p => p.handle.isSome

lemma opened_iff (p : Inserter) : p.opened = true ↔ p = done ∨ ∃ t, p.handle = some t := by
  cases p <;> simp [opened, handle]

lemma eq_of_next_none {name : String} {val : ℤ} {d : Directory FileName ColumnFile} {p : Inserter}
    (h : p.next name val d = none) : p = done ∨ p = exited := by
  cases p with
  | openCol =>
      rw [next] at h
      split at h <;> cases h
  | done => exact Or.inl rfl
  | exited => exact Or.inr rfl
  | _ => cases h

lemma ne_done_of_next {name : String} {val : ℤ} {d : Directory FileName ColumnFile} {p : Inserter}
    {r : RewriteOp × Inserter × Directory FileName ColumnFile} (h : p.next name val d = some r) :
    p ≠ done := by
  rintro rfl
  cases h

lemma ne_rename_of_next {name : String} {val : ℤ} {d d' : Directory FileName ColumnFile}
    {p p' : Inserter} {op : RewriteOp} (h : p.next name val d = some (op, p', d'))
    (hop : op ≠ .rename) (t : ℕ) : p ≠ rename t := by
  rintro rfl
  simp only [next, Option.some.injEq, Prod.mk.injEq] at h
  exact hop h.1.symm

end Inserter

/-! ### Two inserts -/

/-- Two inserts into different SORTED columns that are there. -/
structure TwoInserts where
  name : Worker → String
  val : Worker → ℤ
  f : Worker → DataFile
  d₀ : Directory FileName ColumnFile
  name_ne : name .first ≠ name .second
  sorted : ∀ w, (f w).m.type = .sorted
  there : ∀ w, d₀.read (.data (name w)) = some (f w).file

namespace TwoInserts

variable (T : TwoInserts)

/-- The file of the column of a worker. -/
def ino (w : Worker) : ℕ := (T.d₀.entry (.data (T.name w))).getD 0

/-- The index at which a worker inserts. -/
def index (w : Worker) : ℕ :=
  match getLowerBound (T.f w).cells (T.f w).m.size (T.val w) with
  | .ok i => i
  | .error _ => 0

lemma name_other_ne (w : Worker) : T.name w.other ≠ T.name w := by
  cases w
  · exact T.name_ne.symm
  · exact T.name_ne

lemma entry_ino (w : Worker) : T.d₀.entry (.data (T.name w)) = some (T.ino w) := by
  obtain ⟨i, hi, -⟩ := Option.map_eq_some_iff.mp (T.there w)
  rw [ino, hi, Option.getD_some]

lemma content_ino (w : Worker) : T.d₀.content (T.ino w) = (T.f w).file := by
  obtain ⟨i, hi, hc⟩ := Option.map_eq_some_iff.mp (T.there w)
  rw [ino, hi, Option.getD_some, hc]

lemma index_spec (w : Worker) :
    getLowerBound (T.f w).cells (T.f w).m.size (T.val w) = .ok (T.index w) ∧
      T.index w ≤ (T.f w).m.size := by
  obtain ⟨i, hi, hidx⟩ := getLowerBound_le (T.f w) (T.val w)
  have hindex : T.index w = i := by rw [index, hidx]
  exact ⟨by rw [hindex, hidx], by rw [hindex]; exact hi⟩

/-- The interleavings of the two inserts. -/
abbrev Run (log : List (Worker × RewriteOp)) (d : Directory FileName ColumnFile)
    (loc : Worker → Inserter) : Prop :=
  Interleaved (fun w p d => p.next (T.name w) (T.val w) d) T.d₀ (fun _ => .openCol) log d loc

/-- What holds of the two workers whatever the order of their operations: each goes its own
way, and the file of its column keeps its content. -/
structure Own (log : List (Worker × RewriteOp)) (d : Directory FileName ColumnFile)
    (loc : Worker → Inserter) : Prop where
  place : ∀ w, (loc w).At (T.f w) (T.val w) (T.index w) (T.ino w)
  lt : ∀ w, T.ino w < d.fresh
  content : ∀ w, d.content (T.ino w) = (T.f w).file
  entry : ∀ w, (∀ t, loc w ≠ .rename t) → loc w ≠ .done →
    d.entry (.data (T.name w)) = some (T.ino w)
  gone : ∀ w t, loc w = .rename t → d.entry (.data (T.name w)) = none
  handle : ∀ w t, (loc w).handle = some t → ∀ u, t ≠ T.ino u
  temp : ∀ u, d.entry .temp ≠ some (T.ino u)
  opened : ∀ w, (w, .openTemp) ∈ log ↔ (loc w).opened = true
  renamed : ∀ w, (w, .rename) ∈ log ↔ loc w = .done

section Step

variable {T : TwoInserts} {log : List (Worker × RewriteOp)} {d d' : Directory FileName ColumnFile}
  {loc : Worker → Inserter} {u : Worker} {op : RewriteOp} {p : Inserter}

/-- What has to be shown of a step of the worker `u`. -/
lemma Own.of_step (h : T.Own log d loc)
    (hplace : p.At (T.f u) (T.val u) (T.index u) (T.ino u))
    (hfresh : d.fresh ≤ d'.fresh) (hcontent : ∀ w, d'.content (T.ino w) = d.content (T.ino w))
    (hother : d'.entry (.data (T.name u.other)) = d.entry (.data (T.name u.other)))
    (hself : (∀ t, p ≠ .rename t) → p ≠ .done →
      d'.entry (.data (T.name u)) = some (T.ino u))
    (hgone : ∀ t, p = .rename t → d'.entry (.data (T.name u)) = none)
    (hhandle : ∀ t, p.handle = some t → ∀ w, t ≠ T.ino w)
    (htemp : ∀ w, d'.entry .temp ≠ some (T.ino w))
    (hopened : p.opened = true ↔ (loc u).opened = true ∨ op = .openTemp)
    (hrenamed : p = .done ↔ loc u = .done ∨ op = .rename) :
    T.Own (log ++ [(u, op)]) d' (Function.update loc u p) := by
  have hw : ∀ {P : Worker → Inserter → Prop}, P u p → P u.other (loc u.other) →
      ∀ w, P w (Function.update loc u p w) := by
    intro P hu hu' w
    rcases Worker.eq_or_eq_other w u with rfl | rfl
    · rwa [Function.update_self]
    · rwa [Function.update_of_ne u.other_ne]
  have hlog : ∀ (op' : RewriteOp), (u.other, op') ∈ log ++ [(u, op)] ↔ (u.other, op') ∈ log := by
    simp
  have hlog' : ∀ (op' : RewriteOp), (u, op') ∈ log ++ [(u, op)] ↔ (u, op') ∈ log ∨ op = op' := by
    simp [eq_comm]
  refine ⟨hw hplace (h.place _), fun w => (h.lt w).trans_le hfresh,
    fun w => (hcontent w).trans (h.content w), ?_, ?_, ?_, htemp, ?_, ?_⟩
  · exact hw (P := fun w q => (∀ t, q ≠ .rename t) → q ≠ .done →
      d'.entry (.data (T.name w)) = some (T.ino w)) hself fun hr hd => by
        rw [hother, h.entry _ hr hd]
  · exact hw (P := fun w q => ∀ t, q = .rename t → d'.entry (.data (T.name w)) = none) hgone
      fun t ht => by rw [hother, h.gone _ t ht]
  · exact hw (P := fun w q => ∀ t, q.handle = some t → ∀ v, t ≠ T.ino v) hhandle (h.handle _)
  · refine hw (P := fun w q => (w, RewriteOp.openTemp) ∈ log ++ [(u, op)] ↔ q.opened = true) ?_ ?_
    · rw [hlog', h.opened, hopened]
    · rw [hlog, h.opened]
  · refine hw (P := fun w q => (w, RewriteOp.rename) ∈ log ++ [(u, op)] ↔ q = .done) ?_ ?_
    · rw [hlog', h.renamed, hrenamed]
    · rw [hlog, h.renamed]

lemma Own.step (h : T.Own log d loc)
    (hstep : (loc u).next (T.name u) (T.val u) d = some (op, p, d')) :
    T.Own (log ++ [(u, op)]) d' (Function.update loc u p) := by
  have hplace : p.At (T.f u) (T.val u) (T.index u) (T.ino u) :=
    Inserter.At.next (T.index_spec u).1 (T.index_spec u).2 (h.content u)
      (fun hp => h.entry u (by simp [hp]) (by simp [hp])) (h.place u) hstep
  have hexited : p ≠ .exited := fun hp => by rw [hp] at hplace; exact hplace
  have hdone := Inserter.ne_done_of_next hstep
  have hother : FileName.data (T.name u.other) ≠ .data (T.name u) := fun hn =>
    T.name_other_ne u (FileName.data.inj hn)
  rcases Inserter.next_dir hstep with ⟨hop, hop', rfl, hh, hd, hr⟩ |
    ⟨rfl, hnone, rfl, hh, hd, hr⟩ | ⟨hop, hop', t, c, ht, ht', rfl, hr⟩ | ⟨rfl, t, hu, rfl, rfl⟩ |
    ⟨rfl, t, hu, rfl, rfl⟩
  · have hh' : p.handle = (loc u).handle := hh.resolve_right hexited
    have hur := Inserter.ne_rename_of_next hstep hop'
    refine h.of_step hplace le_rfl (fun _ => rfl) rfl (fun _ _ => h.entry u hur hdone)
      (fun t hp => absurd hp (hr t)) (by rw [hh']; exact h.handle u) h.temp ?_ (by simp [*])
    simp only [Inserter.opened_iff, hh', hd, hdone, hop, or_false]
  · have hh' := hh.resolve_right hexited
    have hnew : ∀ w, (d.openNew .temp blankFile).1 ≠ T.ino w := fun w =>
      d.openNew_ne _ _ (h.lt w) (h.temp w)
    have hur : ∀ t, loc u ≠ .rename t := fun t hu => by
      rw [hu] at hnone
      cases hnone
    refine h.of_step hplace (d.openNew_fresh_le _ _)
      (fun w => d.openNew_content_of_ne _ _ (hnew w).symm) (d.openNew_entry_of_ne _ _ (by simp))
      (fun _ _ => ?_) (fun t hp => absurd hp (hr t)) (fun t ht => ?_) (fun w => ?_) ?_
      (by simp [*])
    · rw [d.openNew_entry_of_ne _ _ (by simp), h.entry u hur hdone]
    · rw [hh'] at ht
      cases ht
      exact hnew
    · rw [d.openNew_entry_self]
      exact fun heq => hnew w (Option.some.inj heq)
    · simp [Inserter.opened_iff, hh']
  · have hne := h.handle u t ht
    have hpd : p ≠ .done := fun hp => by rw [hp] at ht'; cases ht'
    have hur := Inserter.ne_rename_of_next hstep hop'
    refine h.of_step hplace le_rfl (fun w => d.write_content_of_ne c (hne w).symm) rfl
      (fun _ _ => h.entry u hur hdone) (fun t hp => absurd hp (hr t))
      (by rw [ht', ← ht]; exact h.handle u) h.temp ?_ (by simp [*])
    simp [Inserter.opened_iff, ht, ht']
  · refine h.of_step hplace le_rfl (fun _ => rfl) (d.remove_entry_of_ne hother)
      (fun hr _ => absurd rfl (hr t)) (fun _ _ => d.remove_entry_self _) ?_ (fun w => ?_) ?_
      (by simp [*])
    · have := h.handle u
      rwa [hu] at this
    · rw [d.remove_entry_of_ne (by simp)]
      exact h.temp w
    · simp [hu, Inserter.opened, Inserter.handle]
  · refine h.of_step hplace (by simp) (fun _ => by simp)
      (d.rename_entry_of_ne (by simp) hother) (fun _ hd => absurd rfl hd)
      (fun _ hp => by cases hp) (fun _ hp => by cases hp) (fun w => ?_) ?_ (by simp)
    · rw [d.rename_entry_old (by simp)]
      simp
    · simp [hu, Inserter.opened, Inserter.handle]

lemma Run.own (h : T.Run log d loc) : T.Own log d loc := by
  induction h with
  | start =>
      refine ⟨fun _ => trivial, fun w => T.d₀.entry_lt (T.entry_ino w), T.content_ino,
        fun w _ _ => T.entry_ino w, by simp, by simp [Inserter.handle], fun w hw => ?_,
        by simp [Inserter.opened, Inserter.handle], by simp⟩
      exact absurd (T.d₀.entry_inj hw (T.entry_ino w)) (by simp)
  | step h u hstep ih => exact ih.step hstep

end Step

/-! ### Taking turns -/

/-- One worker has renamed the temporary file before the other one opens it. -/
def TakeTurns (log : List (Worker × RewriteOp)) : Prop :=
  ∃ w : Worker, Before log (w, .rename) (w.other, .openTemp)

/-- As far as both workers have opened the temporary file, they have taken turns. -/
def SoFar (log : List (Worker × RewriteOp)) : Prop :=
  (∀ w, (w, .openTemp) ∈ log) → TakeTurns log

lemma SoFar.of_concat {log : List (Worker × RewriteOp)} {z : Worker × RewriteOp}
    (h : SoFar (log ++ [z])) : SoFar log := by
  intro hall
  obtain ⟨w, hw⟩ := h fun w => List.mem_append_left _ (hall w)
  exact ⟨w, (before_concat_of_mem (hall w.other)).mp hw⟩

section Turns

variable {T : TwoInserts} {log : List (Worker × RewriteOp)} {d d' : Directory FileName ColumnFile}
  {loc : Worker → Inserter} {u : Worker} {op : RewriteOp} {p : Inserter}

/-- When the workers take turns, they do not have the temporary file open together. -/
lemma Own.alone (h : T.Own log d loc) (hturns : SoFar log) {w : Worker} {t : ℕ}
    (ht : (loc w).handle = some t) : (loc w.other).handle = none := by
  have hdone : ∀ v : Worker, (v, RewriteOp.rename) ∈ log → (loc v).handle = none := fun v hv => by
    rw [(h.renamed v).mp hv]
    rfl
  by_contra hother
  obtain ⟨t', ht'⟩ := Option.ne_none_iff_exists'.mp hother
  have hopened : ∀ {v t}, (loc v).handle = some t → (v, RewriteOp.openTemp) ∈ log := fun hv =>
    (h.opened _).mpr ((Inserter.opened_iff _).mpr (Or.inr ⟨_, hv⟩))
  obtain ⟨v, hv⟩ := hturns ((Worker.forall_iff w).mpr ⟨hopened ht, hopened ht'⟩)
  rcases Worker.eq_or_eq_other v w with rfl | rfl
  · rw [hdone _ hv.mem] at ht
    cases ht
  · exact hother (hdone _ hv.mem)

/-- The file a worker leaves: the one with its value inserted. -/
def rewritten (T : TwoInserts) (w : Worker) : ColumnFile :=
  (Inserter.rename 0).written (T.f w) (T.val w) (T.index w)

/-- What holds as long as the workers take turns: a worker that has the temporary file open
finds there what it has written, and one that is done has left its file. -/
structure InTurn (T : TwoInserts) (d : Directory FileName ColumnFile) (loc : Worker → Inserter) :
    Prop where
  temp : ∀ w t, (loc w).handle = some t → d.entry .temp = some t ∧
    d.content t = (loc w).written (T.f w) (T.val w) (T.index w)
  left : ∀ w, loc w = .done →
    ∃ j, d.entry (.data (T.name w)) = some j ∧ d.content j = T.rewritten w

/-- A step of the worker `u` that leaves the column of the other one. -/
lemma InTurn.of_step (h : T.InTurn d loc)
    (hother : d'.entry (.data (T.name u.other)) = d.entry (.data (T.name u.other)))
    (hcontent : ∀ j, d.entry (.data (T.name u.other)) = some j → d'.content j = d.content j)
    (hnone : (loc u.other).handle = none ∨ d' = d)
    (htemp : ∀ t, p.handle = some t → d'.entry .temp = some t ∧
      d'.content t = p.written (T.f u) (T.val u) (T.index u))
    (hleft : p = .done →
      ∃ j, d'.entry (.data (T.name u)) = some j ∧ d'.content j = T.rewritten u) :
    T.InTurn d' (Function.update loc u p) := by
  refine ⟨fun w t ht => ?_, fun w hw => ?_⟩
  · rcases Worker.eq_or_eq_other w u with rfl | rfl
    · rw [Function.update_self] at ht ⊢
      exact htemp t ht
    · rw [Function.update_of_ne u.other_ne] at ht ⊢
      rcases hnone with hnone | rfl
      · rw [hnone] at ht
        cases ht
      · exact h.temp _ t ht
  · rcases Worker.eq_or_eq_other w u with rfl | rfl
    · rw [Function.update_self] at hw
      exact hleft hw
    · rw [Function.update_of_ne u.other_ne] at hw
      obtain ⟨j, hj, hc⟩ := h.left _ hw
      exact ⟨j, hother.trans hj, (hcontent j hj).trans hc⟩

lemma InTurn.step (h : T.InTurn d loc) (hown : T.Own log d loc)
    (hturns : SoFar (log ++ [(u, op)]))
    (hstep : (loc u).next (T.name u) (T.val u) d = some (op, p, d')) :
    T.InTurn d' (Function.update loc u p) := by
  have hown' := hown.step hstep
  have hself : Function.update loc u p u = p := Function.update_self _ _ _
  have hsame : Function.update loc u p u.other = loc u.other := Function.update_of_ne u.other_ne _ _
  have hexited : p ≠ .exited := fun hp => by
    have := hown'.place u
    rw [hself, hp] at this
    exact this
  have halone : ∀ {t}, p.handle = some t → (loc u.other).handle = none := fun ht => by
    rw [← hsame]
    exact hown'.alone hturns (by rw [hself]; exact ht)
  have hwrite : ∀ {t}, (loc u).handle = some t → p.handle = some t →
      d'.content t = p.written (T.f u) (T.val u) (T.index u) := fun ht ht' =>
    Inserter.At.written (T.index_spec u).2 (hown.place u) (hown.content u) hstep ht ht'
      (h.temp u _ ht).2
  -- the file of the other column is not the temporary one
  have hapart : ∀ {e : Directory FileName ColumnFile} {t j}, e.entry .temp = some t →
      e.entry (.data (T.name u.other)) = some j → j ≠ t := fun ht hj hjt =>
    absurd (Directory.entry_inj _ (hjt ▸ hj) ht) (by simp)
  have hname : FileName.data (T.name u.other) ≠ .data (T.name u) := fun hn =>
    T.name_other_ne u (FileName.data.inj hn)
  rcases Inserter.next_dir hstep with ⟨-, -, rfl, hh, hd, -⟩ | ⟨rfl, hnone, rfl, hh, hd, -⟩ |
    ⟨-, -, t, c, ht, ht', rfl, -⟩ | ⟨rfl, t, hu, rfl, rfl⟩ | ⟨rfl, t, hu, rfl, rfl⟩
  · have hh' : p.handle = (loc u).handle := hh.resolve_right hexited
    refine h.of_step rfl (fun _ _ => rfl) (Or.inr rfl) (fun t ht => ?_) fun hp => absurd hp hd
    exact ⟨(h.temp u t (hh' ▸ ht)).1, hwrite (hh' ▸ ht) ht⟩
  · have hh' := hh.resolve_right hexited
    have hentry := d.openNew_entry_of_ne (n := .temp) blankFile
      (show FileName.data (T.name u.other) ≠ .temp by simp)
    have hnew := d.openNew_entry_self .temp blankFile
    refine h.of_step hentry (fun j hj => d.openNew_content_of_ne _ _
      (hapart hnew (hentry.trans hj))) (Or.inl (halone hh')) (fun t ht => ?_)
      fun hp => absurd hp hd
    rw [hh'] at ht
    cases ht
    refine ⟨hnew, ?_⟩
    rw [d.openNew_content_self, Inserter.At.written_open (hown.place u) hstep]
  · have hentry := (h.temp u t ht).1
    refine h.of_step rfl (fun j hj => d.write_content_of_ne c (hapart hentry hj))
      (Or.inl (halone ht')) (fun t₁ ht₁ => ?_) fun hp => by rw [hp] at ht'; cases ht'
    rw [ht'] at ht₁
    cases ht₁
    exact ⟨hentry, hwrite ht ht'⟩
  · have ht : (loc u).handle = some t := by rw [hu]; rfl
    refine h.of_step (d.remove_entry_of_ne hname) (fun _ _ => rfl) (Or.inl (halone rfl))
      (fun t₁ ht₁ => ?_) fun hp => by cases hp
    cases ht₁
    exact ⟨(d.remove_entry_of_ne (by simp)).trans (h.temp u t ht).1, hwrite ht rfl⟩
  · have ht : (loc u).handle = some t := by rw [hu]; rfl
    obtain ⟨hentry, hcontent⟩ := h.temp u t ht
    refine h.of_step (d.rename_entry_of_ne (by simp) hname) (fun _ _ => by simp)
      (Or.inl (hown.alone hturns.of_concat ht)) (fun _ ht₁ => by cases ht₁) fun _ => ?_
    refine ⟨t, ?_, ?_⟩
    · rw [Directory.rename_some hentry, Function.update_self]
    · rw [Directory.rename_content, hcontent, hu]
      rfl

/-- **Workers that take turns** both leave their file. -/
lemma Run.inTurn (h : T.Run log d loc) (hturns : SoFar log) : T.InTurn d loc := by
  induction h with
  | start => exact ⟨by simp [Inserter.handle], by simp⟩
  | step h u hstep ih => exact (ih hturns.of_concat).step (Run.own h) hturns hstep

/-! ### Overlapping -/

/-- What holds of workers that have not taken turns: after the first renaming the name of the
temporary file leads nowhere, and after the second a column has no file. -/
structure Overlap (T : TwoInserts) (log : List (Worker × RewriteOp))
    (d : Directory FileName ColumnFile) : Prop where
  temp : ∀ w : Worker, (w, .rename) ∈ log → (w.other, .openTemp) ∈ log →
    ¬ Before log (w, .rename) (w.other, .openTemp) → d.entry .temp = none
  lost : (∀ w, (w, .rename) ∈ log) → ¬ TakeTurns log → ∃ w, d.entry (.data (T.name w)) = none

lemma Overlap.step (h : T.Overlap log d) (hown : T.Own log d loc)
    (hstep : (loc u).next (T.name u) (T.val u) d = some (op, p, d')) :
    T.Overlap (log ++ [(u, op)]) d' := by
  have hrenamed : (u, RewriteOp.rename) ∉ log := fun hr =>
    Inserter.ne_done_of_next hstep ((hown.renamed u).mp hr)
  have hmem : ∀ {w : Worker} {op' : RewriteOp}, op ≠ op' → (w, op') ∈ log ++ [(u, op)] →
      (w, op') ∈ log := fun hne hw => by simpa [hne.symm] using hw
  have hlost : op ≠ .rename → (∀ w, (w, RewriteOp.rename) ∈ log ++ [(u, op)]) →
      ¬ TakeTurns (log ++ [(u, op)]) → ∃ w, d'.entry (.data (T.name w)) = none :=
    fun hop hall _ => absurd (hmem hop (hall u)) hrenamed
  have hquiet : op ≠ .rename → op ≠ .openTemp → d'.entry .temp = d.entry .temp →
      T.Overlap (log ++ [(u, op)]) d' := by
    intro hop hop' hentry
    refine ⟨fun w hw hw' hbefore => ?_, hlost hop⟩
    rw [hentry]
    refine h.temp w (hmem hop hw) (hmem hop' hw') fun hb => hbefore ?_
    exact before_concat.mpr (Or.inl hb)
  rcases Inserter.next_dir hstep with ⟨hop, hop', rfl, -⟩ | ⟨rfl, hnone, rfl, -⟩ |
    ⟨hop, hop', t, c, -, -, rfl, -⟩ | ⟨rfl, t, -, -, rfl⟩ | ⟨rfl, t, hu, -, rfl⟩
  · exact hquiet hop' hop rfl
  · refine ⟨fun w hw hw' hbefore => ?_, hlost (by simp)⟩
    have hw₀ : (w, RewriteOp.rename) ∈ log := hmem (by simp) hw
    rcases Worker.eq_or_eq_other w u with rfl | rfl
    · exact absurd hw₀ hrenamed
    · rw [Worker.other_other] at hbefore
      have hopen : (u, RewriteOp.openTemp) ∉ log := fun hopen => by
        rcases (Inserter.opened_iff _).mp ((hown.opened u).mp hopen) with hd | ⟨t, ht⟩
        · exact Inserter.ne_done_of_next hstep hd
        · rw [hnone] at ht
          cases ht
      exact absurd ((before_concat_self (by simp) hopen).mpr hw₀) hbefore
  · exact hquiet hop' hop rfl
  · exact hquiet (by simp) (by simp) (d.remove_entry_of_ne (by simp))
  · refine ⟨fun _ _ _ _ => d.rename_entry_old (by simp), fun hall hturns => ⟨u, ?_⟩⟩
    have hother : (u.other, RewriteOp.rename) ∈ log := by simpa using hall u.other
    have hopen : (u, RewriteOp.openTemp) ∈ log :=
      (hown.opened u).mpr ((Inserter.opened_iff _).mpr (Or.inr ⟨t, by rw [hu]; rfl⟩))
    have hnone : d.entry .temp = none := by
      refine h.temp u.other hother (by rwa [Worker.other_other]) fun hb => hturns ⟨u.other, ?_⟩
      exact before_concat.mpr (Or.inl hb)
    rw [Directory.rename_none hnone, hown.gone u t hu]

lemma Run.overlap (h : T.Run log d loc) : T.Overlap log d := by
  induction h with
  | start => exact ⟨by simp, fun hall => absurd (hall .first) List.not_mem_nil⟩
  | step h u hstep ih => exact ih.step (Run.own h) hstep

end Turns

/-! ### The outcome -/

/-- Both columns are there, and each is what its insert alone makes of it. -/
def Sequential (T : TwoInserts) (d : Directory FileName ColumnFile) : Prop :=
  ∀ w, ∃ c, insertHelper { data := T.f w, nodes := none } (T.val w) = .ok c ∧
    d.read (.data (T.name w)) = some c.data.file

/-- What an insert alone makes of the column. -/
lemma insertHelper_rewritten (T : TwoInserts) (w : Worker) :
    ∃ c, insertHelper { data := T.f w, nodes := none } (T.val w) = .ok c ∧
      c.data.file = T.rewritten w := by
  obtain ⟨hindex, hle⟩ := T.index_spec w
  rw [insertHelper, T.sorted w]
  simp only [hindex, Outcome.ok_bind, insertValueToFile, dif_pos hle]
  exact ⟨_, rfl, rfl⟩

/-- **Two inserts into different SORTED columns at the same time** leave both columns as the
inserts one after the other do, exactly when one worker renames the temporary file before the
other one opens it. -/
theorem run_sequential_iff {T : TwoInserts} {log : List (Worker × RewriteOp)}
    {d : Directory FileName ColumnFile} {loc : Worker → Inserter} (h : T.Run log d loc)
    (hdone : ∀ w, (loc w).next (T.name w) (T.val w) d = none) :
    T.Sequential d ↔ TakeTurns log := by
  have hown := h.own
  have hall : ∀ w, loc w = .done := fun w =>
    (Inserter.eq_of_next_none (hdone w)).resolve_right fun hw => by
      have := hown.place w
      rw [hw] at this
      exact this
  constructor
  · intro hseq
    by_contra hturns
    obtain ⟨w, hw⟩ := h.overlap.lost (fun w => (hown.renamed w).mpr (hall w)) hturns
    obtain ⟨c, -, hread⟩ := hseq w
    rw [Directory.read, hw] at hread
    cases hread
  · intro hturns w
    obtain ⟨j, hj, hcontent⟩ := (h.inTurn fun _ => hturns).left w (hall w)
    obtain ⟨c, hok, hc⟩ := T.insertHelper_rewritten w
    exact ⟨c, hok, by rw [Directory.read, hj, Option.map_some, hcontent, hc]⟩

/-- The inserts of `10` into the empty column `a` and of `20` into the empty column `b`. -/
def intoAB : TwoInserts where
  name := fun | .first => "a" | .second => "b"
  val := fun | .first => 10 | .second => 20
  f := fun _ => DataFile.makeNew .sorted
  d₀ := (((Directory.empty FileName blankFile).openNew (.data "a")
    (DataFile.makeNew .sorted).file).2.openNew (.data "b") (DataFile.makeNew .sorted).file).2
  name_ne := by decide
  sorted := fun _ => rfl
  there := fun w => by cases w <;> rfl

/-- The outcome of a schedule of the two inserts. -/
def scheduleAB (schedule : List Worker) :
    Option (List (Worker × RewriteOp) × Directory FileName ColumnFile × (Worker → Inserter)) :=
  schedule.foldlM (stepOf fun w p d => p.next (intoAB.name w) (intoAB.val w) d)
    ([], intoAB.d₀, fun _ => .openCol)

/-- `run_sequential_iff` at two inserts one after the other. -/
theorem oneAfterTheOther_sequential :
    ∃ log d loc, intoAB.Run log d loc ∧ intoAB.Sequential d := by
  have heval : (scheduleAB (List.replicate 9 .first ++ List.replicate 9 .second)).map
      (fun c => (c.1.take 9, c.1.drop 9, c.2.2 .first, c.2.2 .second))
        = some ([RewriteOp.openCol, .readInit, .openTemp, .writeVal, .readLast, .writeLast,
            .writeMeta, .remove, .rename].map (Worker.first, ·),
          [RewriteOp.openCol, .readInit, .openTemp, .writeVal, .readLast, .writeLast,
            .writeMeta, .remove, .rename].map (Worker.second, ·), .done, .done) := rfl
  obtain ⟨⟨log, d, loc⟩, hrun, hview⟩ := Option.map_eq_some_iff.mp heval
  simp only [Prod.mk.injEq] at hview
  obtain ⟨htake, hdrop, hfirst, hsecond⟩ := hview
  have hpair : intoAB.Run log d loc := Interleaved.of_schedule _ Interleaved.start hrun
  have hdone : ∀ w, (loc w).next (intoAB.name w) (intoAB.val w) d = none :=
    (Worker.forall_iff .first).mpr
      ⟨by rw [hfirst]; rfl, by rw [Worker.other, hsecond]; rfl⟩
  refine ⟨log, d, loc, hpair, (run_sequential_iff hpair hdone).mpr ⟨.first, ?_⟩⟩
  refine ⟨_, _, (List.take_append_drop 9 log).symm, ?_, ?_⟩
  · rw [htake]
    decide
  · rw [htake]
    decide

/-- When the second worker inserts after the first one has opened the temporary file, the first
one's column is gone. -/
theorem sharedTemp_loses_column :
    ∃ log d loc, intoAB.Run log d loc ∧
      (∀ w, (loc w).next (intoAB.name w) (intoAB.val w) d = none) ∧
      d.read (.data "a") = none ∧ ¬ intoAB.Sequential d := by
  have heval : (scheduleAB (List.replicate 3 .first ++ List.replicate 9 .second
      ++ List.replicate 6 .first)).map
        (fun c => (c.2.1.read (.data "a"), c.2.2 .first, c.2.2 .second))
          = some (none, .done, .done) := rfl
  obtain ⟨⟨log, d, loc⟩, hrun, hview⟩ := Option.map_eq_some_iff.mp heval
  simp only [Prod.mk.injEq] at hview
  obtain ⟨hread, hfirst, hsecond⟩ := hview
  refine ⟨log, d, loc, Interleaved.of_schedule _ Interleaved.start hrun,
    (Worker.forall_iff .first).mpr ⟨by rw [hfirst]; rfl, by rw [Worker.other, hsecond]; rfl⟩,
    hread, fun hseq => ?_⟩
  obtain ⟨c, -, hc⟩ := hseq .first
  exact absurd (hread.symm.trans hc) (by simp)

end TwoInserts

end ColumnDb
