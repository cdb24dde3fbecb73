import ColumnDb.Library.Interleave
import ColumnDb.Store.Insert

/-!
Two inserts into one UNSORTED column at the same time (`helper_insert.c`, `worker.c`).

Workers take no lock on a column. Each opens the file of the column for itself, and its file
operations mix with those of the other worker in any order. An insert reads the header, counts
one row more, writes the header, writes the value at the end of the file, and writes the
header it has read and counted once more.

* `Appender`, `AppendRun`: the file operations of an insert, and the interleavings of two.
* `Counted`, `Placed`: the invariants of the header and of the cells, in terms of the order in
  which the two workers read and wrote.
* `Separate`: one worker counts after the other, at the beginning and at the end, and one
  appends after the other.
* `appendRun_keeps_both`: both inserts are kept when they are separate, and in general only
  then.
-/

namespace ColumnDb

/-! ### The file operations of an insert -/

/-- The file operations of `insert_helper` on an UNSORTED column, in their order: two of
`init_col`, and eight of `append_value_to_file`. -/
inductive AppendOp where
  | seekInit
  | readInit
  | seekRead
  | readMeta
  | seekCount
  | countMeta
  | seekEnd
  | writeVal
  | seekMeta
  | writeMeta
  deriving DecidableEq

/-- A worker in `insert_helper`, named by the operation that comes next: its header `m` once
it is read and counted, and its place in the file once that is the end. -/
inductive Appender where
  | seekInit
  | readInit
  | seekRead
  | readMeta
  | seekCount (m : ColumnMeta)
  | countMeta (m : ColumnMeta)
  | seekEnd (m : ColumnMeta)
  | writeVal (m : ColumnMeta) (offset : ℕ)
  | seekMeta (m : ColumnMeta)
  | writeMeta (m : ColumnMeta)
  | done

namespace Appender

/-- The next operation of a worker that inserts `val`. -/
def next (val : ℤ) (file : ColumnFile) : Appender → Option (AppendOp × Appender × ColumnFile)
  | seekInit => some (.seekInit, readInit, file)
  | readInit => some (.readInit, seekRead, file)
  | seekRead => some (.seekRead, readMeta, file)
  | readMeta => some (.readMeta, seekCount { file.m with size := file.m.size + 1 }, file)
  | seekCount m => some (.seekCount, countMeta m, file)
  | countMeta m => some (.countMeta, seekEnd m, { file with m := m })
  | seekEnd m => some (.seekEnd, writeVal m file.cells.length, file)
  | writeVal m offset =>
      some (.writeVal, seekMeta m, { file with cells := writeAt 0 file.cells offset val })
  | seekMeta m => some (.seekMeta, writeMeta m, file)
  | writeMeta m => some (.writeMeta, done, { file with m := m })
  | done => none

/-- The operations a worker has behind it. -/
def past : Appender → List AppendOp
  | seekInit => []
  | readInit => [.seekInit]
  | seekRead => [.seekInit, .readInit]
  | readMeta => [.seekInit, .readInit, .seekRead]
  | seekCount _ => [.seekInit, .readInit, .seekRead, .readMeta]
  | countMeta _ => [.seekInit, .readInit, .seekRead, .readMeta, .seekCount]
  | seekEnd _ => [.seekInit, .readInit, .seekRead, .readMeta, .seekCount, .countMeta]
  | writeVal _ _ => [.seekInit, .readInit, .seekRead, .readMeta, .seekCount, .countMeta, .seekEnd]
  | seekMeta _ =>
      [.seekInit, .readInit, .seekRead, .readMeta, .seekCount, .countMeta, .seekEnd, .writeVal]
  | writeMeta _ =>
      [.seekInit, .readInit, .seekRead, .readMeta, .seekCount, .countMeta, .seekEnd, .writeVal,
        .seekMeta]
  | done =>
      [.seekInit, .readInit, .seekRead, .readMeta, .seekCount, .countMeta, .seekEnd, .writeVal,
        .seekMeta, .writeMeta]

/-- The header a worker holds. -/
def copy : Appender → Option ColumnMeta
  | seekCount m | countMeta m | seekEnd m | writeVal m _ | seekMeta m | writeMeta m => some m
  | _ => none

/-- The end of the file as a worker has found it. -/
def place : Appender → Option ℕ
  | writeVal _ offset => some offset
  | _ => none

lemma past_next {val : ℤ} {file file' : ColumnFile} {p p' : Appender} {op : AppendOp}
    (h : p.next val file = some (op, p', file')) : p'.past = p.past ++ [op] := by
  cases p <;> simp only [next, Option.some.injEq, Prod.mk.injEq, reduceCtorEq] at h <;>
    obtain ⟨rfl, rfl, rfl⟩ := h <;> rfl

lemma notMem_past_next {val : ℤ} {file file' : ColumnFile} {p p' : Appender} {op : AppendOp}
    (h : p.next val file = some (op, p', file')) : op ∉ p.past := by
  cases p <;> simp only [next, Option.some.injEq, Prod.mk.injEq, reduceCtorEq] at h <;>
    obtain ⟨rfl, rfl, rfl⟩ := h <;> simp [past]

/-- The header is written after it is read, and the last time after the first. -/
lemma past_order (p : Appender) :
    (.countMeta ∈ p.past → .readMeta ∈ p.past) ∧ (.writeMeta ∈ p.past → .countMeta ∈ p.past) ∧
      ∀ m, p.copy = some m → .readMeta ∈ p.past := by
  cases p <;> simp [past, copy]

/-- What an operation does to the headers of the file and of the worker: the one that reads
sets the worker's, the two that write set the file's, and the others leave both. -/
lemma next_header {val : ℤ} {file file' : ColumnFile} {p p' : Appender} {op : AppendOp}
    (h : p.next val file = some (op, p', file')) :
    (op = .readMeta ∧ p'.copy = some { file.m with size := file.m.size + 1 } ∧
      file'.m = file.m) ∨
    ((op = .countMeta ∨ op = .writeMeta) ∧ p.copy = some file'.m ∧
      ∀ m, p'.copy = some m → p.copy = some m) ∨
    (op ≠ .readMeta ∧ op ≠ .countMeta ∧ op ≠ .writeMeta ∧ file'.m = file.m ∧
      ∀ m, p'.copy = some m → p.copy = some m) := by
  cases p <;> simp only [next, Option.some.injEq, Prod.mk.injEq, reduceCtorEq] at h <;>
    obtain ⟨rfl, rfl, rfl⟩ := h <;> simp [copy]

/-- The value is written after the end of the file is found. -/
lemma past_order_cells (p : Appender) :
    (.writeVal ∈ p.past → .seekEnd ∈ p.past) ∧ ∀ o, p.place = some o → .seekEnd ∈ p.past := by
  cases p <;> simp [past, place]

/-- What an operation does to the cells: one finds their end, one writes there, and the others
leave them. -/
lemma next_cells {val : ℤ} {file file' : ColumnFile} {p p' : Appender} {op : AppendOp}
    (h : p.next val file = some (op, p', file')) :
    (op = .seekEnd ∧ p'.place = some file.cells.length ∧ file'.cells = file.cells) ∨
    (op = .writeVal ∧ ∃ o, p.place = some o ∧ file'.cells = writeAt 0 file.cells o val ∧
      p'.place = none) ∨
    (op ≠ .seekEnd ∧ op ≠ .writeVal ∧ file'.cells = file.cells ∧ p'.place = none) := by
  cases p <;> simp only [next, Option.some.injEq, Prod.mk.injEq, reduceCtorEq] at h <;>
    obtain ⟨rfl, rfl, rfl⟩ := h <;> simp [place]

end Appender

/-- The interleavings of two inserts, of `val .first` and `val .second`, into a column. -/
abbrev AppendRun (val : Worker → ℤ) (f : DataFile) (log : List (Worker × AppendOp))
    (file : ColumnFile) (loc : Worker → Appender) : Prop :=
  Interleaved (fun w p file => p.next (val w) file) f.file (fun _ => .seekInit) log file loc

/-- The operations in the log are those that the workers have behind them. -/
lemma AppendRun.mem_iff {val : Worker → ℤ} {f : DataFile} {log : List (Worker × AppendOp)}
    {file : ColumnFile} {loc : Worker → Appender} (h : AppendRun val f log file loc) (w : Worker)
    (op : AppendOp) : (w, op) ∈ log ↔ op ∈ (loc w).past := by
  induction h with
  | start => simp [Appender.past]
  | step h u hstep ih =>
      rw [List.mem_append, ih, List.mem_singleton, Prod.mk.injEq]
      by_cases hw : w = u
      · subst hw
        rw [Function.update_self, Appender.past_next hstep]
        simp
      · rw [Function.update_of_ne hw]
        simp [hw]

/-! ### The header -/

/-- The header of the column with `k` rows more. -/
def grown (f : DataFile) (k : ℕ) : ColumnMeta := { f.m with size := f.m.size + k }

open scoped Classical in
/-- How many rows more the header of the worker counts: two if the other worker had written
its header when this one read it. -/
noncomputable def copyCount (log : List (Worker × AppendOp)) (w : Worker) : ℕ :=
  if Before log (w.other, .countMeta) (w, .readMeta) then 2 else 1

/-- What the header of the file and the headers of the workers say. -/
structure Counted (f : DataFile) (log : List (Worker × AppendOp)) (file : ColumnFile)
    (loc : Worker → Appender) : Prop where
  copy : ∀ w m, (loc w).copy = some m → m = grown f (copyCount log w)
  none : (∀ w, .countMeta ∉ (loc w).past) → file.m = f.m
  one : ∀ w, .countMeta ∈ (loc w).past → .countMeta ∉ (loc w.other).past → file.m = grown f 1
  last : ∀ w, Before log (w.other, .writeMeta) (w, .writeMeta) → .writeMeta ∈ (loc w).past →
    file.m = grown f (copyCount log w)

section Copy

open scoped Classical

variable {log : List (Worker × AppendOp)} {w : Worker}

/-- What happens after a worker has read the header does not change what it counts. -/
lemma copyCount_concat (hread : (w, .readMeta) ∈ log) (z : Worker × AppendOp) :
    copyCount (log ++ [z]) w = copyCount log w :=
  if_congr (before_concat_of_mem hread) rfl rfl

/-- A worker that reads the header counts one row more than it finds. -/
lemma copyCount_read (hread : (w, .readMeta) ∉ log) :
    copyCount (log ++ [(w, .readMeta)]) w = if (w.other, .countMeta) ∈ log then 2 else 1 :=
  if_congr (before_concat_self (by simp) hread) rfl rfl

lemma copyCount_of_notMem (hcount : (w.other, .countMeta) ∉ log) : copyCount log w = 1 :=
  if_neg fun h => hcount h.mem

end Copy

section Step

variable {val : Worker → ℤ} {f : DataFile} {log : List (Worker × AppendOp)}
  {file file' : ColumnFile} {loc : Worker → Appender} {u : Worker} {op : AppendOp} {p : Appender}

/-- The operations a worker has behind it after a step of one of them. -/
lemma mem_past_update (hstep : (loc u).next (val u) file = some (op, p, file')) (w : Worker)
    (op' : AppendOp) :
    op' ∈ (Function.update loc u p w).past ↔ op' ∈ (loc w).past ∨ (w = u ∧ op' = op) := by
  by_cases hw : w = u
  · subst hw
    rw [Function.update_self, Appender.past_next hstep]
    simp
  · rw [Function.update_of_ne hw]
    simp [hw]

/-- A worker that writes the header for the last time has written it before. -/
lemma countMeta_mem_of_writeMeta
    (hstep : (loc u).next (val u) file = some (.writeMeta, p, file')) :
    .countMeta ∈ (loc u).past := by
  have hmem := mem_past_update hstep
  have hself := (hmem u .writeMeta).mpr (Or.inr ⟨rfl, rfl⟩)
  exact ((hmem u .countMeta).mp
    ((Function.update loc u p u).past_order.2.1 hself)).resolve_right (by simp)

namespace Counted

/-- The headers of the workers after a step. -/
lemma copy_step (h : AppendRun val f log file loc) (hc : Counted f log file loc)
    (hstep : (loc u).next (val u) file = some (op, p, file')) (w : Worker) (m : ColumnMeta)
    (hm : (Function.update loc u p w).copy = some m) :
    m = grown f (copyCount (log ++ [(u, op)]) w) := by
  have hold : (loc w).copy = some m → m = grown f (copyCount (log ++ [(u, op)]) w) := fun hm => by
    rw [copyCount_concat ((h.mem_iff w _).mpr ((loc w).past_order.2.2 m hm))]
    exact hc.copy w m hm
  by_cases hw : w = u
  · subst hw
    rw [Function.update_self] at hm
    rcases Appender.next_header hstep with ⟨rfl, hread, -⟩ | ⟨-, -, hkeep⟩ | ⟨-, -, -, -, hkeep⟩
    · rw [hread] at hm
      cases hm
      have hnew := Appender.notMem_past_next hstep
      have hcount : AppendOp.countMeta ∉ (loc w).past := fun hc => hnew ((loc w).past_order.1 hc)
      rw [copyCount_read ((h.mem_iff w _).not.mpr hnew)]
      split_ifs with hother
      · rw [hc.one w.other ((h.mem_iff _ _).mp hother) (by rwa [Worker.other_other])]
        rfl
      · rw [hc.none ((Worker.forall_iff w).mpr ⟨hcount, (h.mem_iff _ _).not.mp hother⟩)]
        rfl
    · exact hold (hkeep m hm)
    · exact hold (hkeep m hm)
  · rw [Function.update_of_ne hw] at hm
    exact hold hm

/-- Before the first write of the header. -/
lemma none_step (hc : Counted f log file loc)
    (hstep : (loc u).next (val u) file = some (op, p, file'))
    (hnone : ∀ w, .countMeta ∉ (Function.update loc u p w).past) : file'.m = f.m := by
  have hmem := mem_past_update hstep
  have hnone' : ∀ w, AppendOp.countMeta ∉ (loc w).past := fun w hw =>
    hnone w ((hmem w _).mpr (Or.inl hw))
  rcases Appender.next_header hstep with ⟨-, -, hm⟩ | ⟨hop, -⟩ | ⟨-, -, -, hm, -⟩
  · rw [hm, hc.none hnone']
  · rcases hop with rfl | rfl
    · exact absurd ((hmem u _).mpr (Or.inr ⟨rfl, rfl⟩)) (hnone u)
    · exact absurd (countMeta_mem_of_writeMeta hstep) (hnone' u)
  · rw [hm, hc.none hnone']

/-- While one worker only has written the header. -/
lemma one_step (h : AppendRun val f log file loc) (hc : Counted f log file loc)
    (hstep : (loc u).next (val u) file = some (op, p, file')) (w : Worker)
    (hw : .countMeta ∈ (Function.update loc u p w).past)
    (hother : .countMeta ∉ (Function.update loc u p w.other).past) : file'.m = grown f 1 := by
  have hmem := mem_past_update hstep
  have hother' : AppendOp.countMeta ∉ (loc w.other).past := fun h' =>
    hother ((hmem _ _).mpr (Or.inl h'))
  rcases Appender.next_header hstep with ⟨rfl, -, hm⟩ | ⟨hop, hcopy, -⟩ | ⟨-, hop, -, hm, -⟩
  · rw [hm]
    exact hc.one w (((hmem _ _).mp hw).resolve_right (by simp)) hother'
  · have huw : u = w := by
      refine (Worker.eq_or_eq_other u w).resolve_right fun hu => hother ?_
      rw [← hu, hmem]
      rcases hop with rfl | rfl
      · exact Or.inr ⟨rfl, rfl⟩
      · exact Or.inl (countMeta_mem_of_writeMeta hstep)
    subst huw
    rw [hc.copy u _ hcopy, copyCount_of_notMem ((h.mem_iff _ _).not.mpr hother')]
  · rw [hm]
    exact hc.one w (((hmem _ _).mp hw).resolve_right fun h' => hop h'.2.symm) hother'

/-- After the last write of the header. -/
lemma last_step (h : AppendRun val f log file loc) (hc : Counted f log file loc)
    (hstep : (loc u).next (val u) file = some (op, p, file')) (w : Worker)
    (hlast : Before (log ++ [(u, op)]) (w.other, .writeMeta) (w, .writeMeta))
    (hw : .writeMeta ∈ (Function.update loc u p w).past) :
    file'.m = grown f (copyCount (log ++ [(u, op)]) w) := by
  have hnew := Appender.notMem_past_next hstep
  have hmem := mem_past_update hstep
  have hquiet : op ≠ .writeMeta → file'.m = file.m →
      file'.m = grown f (copyCount (log ++ [(u, op)]) w) := by
    intro hop hm
    have hw' := ((hmem _ _).mp hw).resolve_right fun h' => hop h'.2.symm
    have hread := (loc w).past_order.1 ((loc w).past_order.2.1 hw')
    have hlast' := (before_concat_of_ne fun h' => hop (congrArg Prod.snd h').symm).mp hlast
    rw [hm, copyCount_concat ((h.mem_iff _ _).mpr hread), hc.last w hlast' hw']
  rcases Appender.next_header hstep with ⟨rfl, -, hm⟩ | ⟨hop, hcopy, -⟩ | ⟨-, -, hop, hm, -⟩
  · exact hquiet (by simp) hm
  · rcases Worker.eq_or_eq_other u w with rfl | hu
    · rw [copyCount_concat ((h.mem_iff u _).mpr ((loc u).past_order.2.2 _ hcopy))]
      exact hc.copy u _ hcopy
    · rw [← hu] at hlast
      rcases hop with rfl | rfl
      · have hwrite := ((before_concat_of_ne (by simp)).mp hlast).mem
        exact absurd ((loc u).past_order.2.1 ((h.mem_iff _ _).mp hwrite)) hnew
      · exfalso
        rcases before_concat.mp hlast with hlast | ⟨-, -, hlast⟩
        · exact hnew ((h.mem_iff _ _).mp hlast.mem)
        · rcases (hmem _ _).mp hw with hw | ⟨rfl, -⟩
          · exact hlast ((h.mem_iff _ _).mpr hw)
          · exact Worker.ne_other _ hu
  · exact hquiet hop hm

end Counted

/-- **The header through an interleaving.** -/
lemma AppendRun.counted (h : AppendRun val f log file loc) : Counted f log file loc := by
  induction h with
  | start =>
      exact ⟨by simp [Appender.copy], fun _ => rfl, by simp [Appender.past],
        by simp [Appender.past]⟩
  | step h u hstep ih =>
      exact ⟨ih.copy_step h hstep, ih.none_step hstep, ih.one_step h hstep, ih.last_step h hstep⟩

end Step

/-! ### The cells -/

open scoped Classical in
/-- How many cells more the worker has found: one if the other worker had written its value
when this one sought the end. -/
noncomputable def endShift (log : List (Worker × AppendOp)) (w : Worker) : ℕ :=
  if Before log (w.other, .writeVal) (w, .seekEnd) then 1 else 0

section End

open scoped Classical

variable {log : List (Worker × AppendOp)} {w : Worker}

/-- What happens after a worker has sought the end does not change where it writes. -/
lemma endShift_concat (hseek : (w, .seekEnd) ∈ log) (z : Worker × AppendOp) :
    endShift (log ++ [z]) w = endShift log w :=
  if_congr (before_concat_of_mem hseek) rfl rfl

lemma endShift_seek (hseek : (w, .seekEnd) ∉ log) :
    endShift (log ++ [(w, .seekEnd)]) w = if (w.other, .writeVal) ∈ log then 1 else 0 :=
  if_congr (before_concat_self (by simp) hseek) rfl rfl

lemma endShift_of_notMem (hwrite : (w.other, .writeVal) ∉ log) : endShift log w = 0 :=
  if_neg fun h => hwrite h.mem

end End

/-- What the cells of the file are and where the workers write. -/
structure Placed (val : Worker → ℤ) (f : DataFile) (log : List (Worker × AppendOp))
    (file : ColumnFile) (loc : Worker → Appender) : Prop where
  place : ∀ w o, (loc w).place = some o → o = f.cells.length + endShift log w
  none : (∀ w, .writeVal ∉ (loc w).past) → file.cells = f.cells
  one : ∀ w, .writeVal ∈ (loc w).past → .writeVal ∉ (loc w.other).past →
    file.cells = f.cells ++ [val w]
  apart : ∀ w, Before log (w, .writeVal) (w.other, .seekEnd) → .writeVal ∈ (loc w.other).past →
    file.cells = f.cells ++ [val w, val w.other]
  covered : (∀ w, .writeVal ∈ (loc w).past) →
    (∀ w, ¬ Before log (w, .writeVal) (w.other, .seekEnd)) →
      ∃ w, file.cells = f.cells ++ [val w]

section Step

variable {val : Worker → ℤ} {f : DataFile} {log : List (Worker × AppendOp)}
  {file file' : ColumnFile} {loc : Worker → Appender} {u : Worker} {op : AppendOp} {p : Appender}

namespace Placed

/-- The places of the workers after a step. -/
lemma place_step (h : AppendRun val f log file loc) (hp : Placed val f log file loc)
    (hstep : (loc u).next (val u) file = some (op, p, file')) (w : Worker) (o : ℕ)
    (ho : (Function.update loc u p w).place = some o) :
    o = f.cells.length + endShift (log ++ [(u, op)]) w := by
  by_cases hw : w = u
  · subst hw
    rw [Function.update_self] at ho
    rcases Appender.next_cells hstep with ⟨rfl, hseek, -⟩ | ⟨-, _, -, -, hnone⟩ | ⟨-, -, -, hnone⟩
    · rw [hseek] at ho
      cases ho
      have hnew := Appender.notMem_past_next hstep
      have hwrite : AppendOp.writeVal ∉ (loc w).past := fun hw =>
        hnew ((loc w).past_order_cells.1 hw)
      rw [endShift_seek ((h.mem_iff w _).not.mpr hnew)]
      split_ifs with hother
      · rw [hp.one w.other ((h.mem_iff _ _).mp hother) (by rwa [Worker.other_other]),
          List.length_append, List.length_singleton]
      · rw [hp.none ((Worker.forall_iff w).mpr ⟨hwrite, (h.mem_iff _ _).not.mp hother⟩),
          Nat.add_zero]
    · rw [hnone] at ho
      cases ho
    · rw [hnone] at ho
      cases ho
  · rw [Function.update_of_ne hw] at ho
    rw [endShift_concat ((h.mem_iff w _).mpr ((loc w).past_order_cells.2 o ho))]
    exact hp.place w o ho

/-- A step that does not write a value keeps what the cells are. -/
lemma quiet (h : AppendRun val f log file loc) (hp : Placed val f log file loc)
    (hstep : (loc u).next (val u) file = some (op, p, file')) (hop : op ≠ .writeVal)
    (hcells : file'.cells = file.cells) :
    Placed val f (log ++ [(u, op)]) file' (Function.update loc u p) := by
  have hmem : ∀ w, AppendOp.writeVal ∈ (Function.update loc u p w).past
      ↔ AppendOp.writeVal ∈ (loc w).past := fun w => by
    rw [mem_past_update hstep]
    exact or_iff_left fun h' => hop h'.2.symm
  have hbefore : ∀ w, Before (log ++ [(u, op)]) (w, .writeVal) (w.other, .seekEnd)
      ↔ Before log (w, .writeVal) (w.other, .seekEnd) := fun w =>
    before_concat_of_ne fun h' => hop (congrArg Prod.snd h').symm
  refine ⟨hp.place_step h hstep, ?_, fun w => ?_, fun w => ?_, ?_⟩
  · simpa only [hmem, hcells] using hp.none
  · simpa only [hmem, hcells] using hp.one w
  · simpa only [hmem, hbefore, hcells] using hp.apart w
  · simpa only [hmem, hbefore, hcells] using hp.covered

/-- A value written while the other one is not: it comes after the cells there were. -/
lemma write_first (h : AppendRun val f log file loc) (hp : Placed val f log file loc)
    (hstep : (loc u).next (val u) file = some (.writeVal, p, file')) {o : ℕ}
    (ho : (loc u).place = some o) (hcells : file'.cells = writeAt 0 file.cells o (val u))
    (hother : .writeVal ∉ (loc u.other).past) : file'.cells = f.cells ++ [val u] := by
  have hnew := Appender.notMem_past_next hstep
  rw [hcells, hp.none ((Worker.forall_iff u).mpr ⟨hnew, hother⟩), hp.place u o ho,
    endShift_of_notMem ((h.mem_iff _ _).not.mpr hother), Nat.add_zero, writeAt_length]

/-- A value written when the other one is: after it, or over it. -/
lemma write_second (hp : Placed val f log file loc)
    (hstep : (loc u).next (val u) file = some (.writeVal, p, file')) {o : ℕ}
    (ho : (loc u).place = some o) (hcells : file'.cells = writeAt 0 file.cells o (val u))
    (hother : .writeVal ∈ (loc u.other).past) :
    (Before log (u.other, .writeVal) (u, .seekEnd) →
      file'.cells = f.cells ++ [val u.other, val u]) ∧
    (¬ Before log (u.other, .writeVal) (u, .seekEnd) → file'.cells = f.cells ++ [val u]) := by
  have hnew := Appender.notMem_past_next hstep
  have hone : file.cells = f.cells ++ [val u.other] :=
    hp.one u.other hother (by rwa [Worker.other_other])
  have hplace := hp.place u o ho
  constructor
  · intro hbefore
    rw [endShift, if_pos hbefore] at hplace
    have hlen : o = (f.cells ++ [val u.other]).length := by simpa using hplace
    rw [hcells, hone, hlen, writeAt_length, List.append_assoc]
    rfl
  · intro hbefore
    rw [endShift, if_neg hbefore, Nat.add_zero] at hplace
    rw [hcells, hone, hplace, writeAt_of_lt _ (by simp), List.set_append_right _ _ le_rfl,
      Nat.sub_self]
    rfl

lemma step (h : AppendRun val f log file loc) (hp : Placed val f log file loc)
    (hstep : (loc u).next (val u) file = some (op, p, file')) :
    Placed val f (log ++ [(u, op)]) file' (Function.update loc u p) := by
  rcases Appender.next_cells hstep with ⟨rfl, -, hcells⟩ | ⟨rfl, o, ho, hcells, -⟩ |
    ⟨-, hop, hcells, -⟩
  · exact hp.quiet h hstep (by simp) hcells
  · have hnew := Appender.notMem_past_next hstep
    have hmem := mem_past_update hstep
    have hself : AppendOp.writeVal ∈ (Function.update loc u p u).past :=
      (hmem u _).mpr (Or.inr ⟨rfl, rfl⟩)
    have hmem_other : AppendOp.writeVal ∈ (Function.update loc u p u.other).past
        ↔ AppendOp.writeVal ∈ (loc u.other).past := by
      rw [hmem]
      exact or_iff_left fun h' => u.other_ne h'.1
    have hbefore : Before (log ++ [(u, .writeVal)]) (u.other, .writeVal) (u, .seekEnd)
        ↔ Before log (u.other, .writeVal) (u, .seekEnd) := before_concat_of_ne (by simp)
    refine ⟨hp.place_step h hstep, fun hnone => absurd hself (hnone u), fun w hw hother => ?_,
      fun w hapart hw => ?_, fun hall hover => ?_⟩
    · rcases Worker.eq_or_eq_other w u with rfl | rfl
      · exact hp.write_first h hstep ho hcells (hmem_other.not.mp hother)
      · rw [Worker.other_other] at hother
        exact absurd hself hother
    · rcases Worker.eq_or_eq_other w u with rfl | rfl
      · have hseek : (w.other, AppendOp.seekEnd) ∈ log :=
          (h.mem_iff _ _).mpr ((loc w.other).past_order_cells.1 (hmem_other.mp hw))
        have hwrite := ((before_concat_of_mem hseek).mp hapart).mem
        exact absurd ((h.mem_iff _ _).mp hwrite) hnew
      · rw [Worker.other_other] at hapart ⊢
        have hbefore' := hbefore.mp hapart
        exact (hp.write_second hstep ho hcells ((h.mem_iff _ _).mp hbefore'.mem)).1 hbefore'
    · have hover' := hover u.other
      rw [Worker.other_other, hbefore] at hover'
      exact ⟨u, (hp.write_second hstep ho hcells (hmem_other.mp (hall u.other))).2 hover'⟩
  · exact hp.quiet h hstep hop hcells

end Placed

/-- **The cells through an interleaving.** -/
lemma AppendRun.placed (h : AppendRun val f log file loc) : Placed val f log file loc := by
  induction h with
  | start =>
      exact ⟨by simp [Appender.place], fun _ => rfl, by simp [Appender.past],
        by simp [Appender.past], fun hall => absurd (hall .first) (by simp [Appender.past])⟩
  | step h u hstep ih => exact ih.step h hstep

end Step

/-! ### What both inserts leave behind -/

/-- The column counts two rows more, and both values are rows of it. -/
def KeepsBoth (val : Worker → ℤ) (f : DataFile) (file : ColumnFile) : Prop :=
  file.m.size = f.m.size + 2 ∧ ∀ w, val w ∈ file.cells.take file.m.size

/-- One worker reads the header after the first write of the other and writes it for the last
time after the last write of the other; and one worker seeks the end after the other has
written its value. -/
def Separate (log : List (Worker × AppendOp)) : Prop :=
  (∃ w : Worker, Before log (w, .countMeta) (w.other, .readMeta) ∧
    Before log (w, .writeMeta) (w.other, .writeMeta)) ∧
  ∃ w : Worker, Before log (w, .writeVal) (w.other, .seekEnd)

section Final

variable {val : Worker → ℤ} {f : DataFile} {log : List (Worker × AppendOp)}
  {file : ColumnFile} {loc : Worker → Appender}

/-- After both inserts the header counts two rows more exactly when one worker read it after
the other's first write and wrote it after the other's last. -/
lemma AppendRun.size_iff (h : AppendRun val f log file loc) (hdone : ∀ w, loc w = .done) :
    file.m.size = f.m.size + 2 ↔
      ∃ w : Worker, Before log (w, .countMeta) (w.other, .readMeta) ∧
        Before log (w, .writeMeta) (w.other, .writeMeta) := by
  have hpast : ∀ w, AppendOp.writeMeta ∈ (loc w).past := fun w => by simp [hdone, Appender.past]
  have hsize : ∀ w : Worker, Before log (w, .writeMeta) (w.other, .writeMeta) →
      file.m.size = f.m.size + copyCount log w.other := fun w hw => by
    rw [h.counted.last w.other (by rwa [Worker.other_other]) (hpast _)]
    rfl
  constructor
  · intro htwo
    obtain ⟨w, hw⟩ : ∃ w : Worker, Before log (w, .writeMeta) (w.other, .writeMeta) :=
      (before_or_before (x := (Worker.first, AppendOp.writeMeta)) (by simp)
        ((h.mem_iff _ _).mpr (hpast _)) ((h.mem_iff _ _).mpr (hpast .second))).elim
        (fun hb => ⟨.first, hb⟩) fun hb => ⟨.second, hb⟩
    refine ⟨w, ?_, hw⟩
    have hcount := hsize w hw
    rw [copyCount, Worker.other_other] at hcount
    by_contra hread
    rw [if_neg hread] at hcount
    omega
  · rintro ⟨w, hread, hw⟩
    rw [hsize w hw, copyCount, Worker.other_other, if_pos hread]

/-- After both inserts, both values are there exactly when one worker sought the end after the
other had written. -/
lemma AppendRun.cells_eq (h : AppendRun val f log file loc) (hdone : ∀ w, loc w = .done) :
    (∀ w : Worker, Before log (w, .writeVal) (w.other, .seekEnd) →
      file.cells = f.cells ++ [val w, val w.other]) ∧
    ((¬ ∃ w : Worker, Before log (w, .writeVal) (w.other, .seekEnd)) →
      ∃ w, file.cells = f.cells ++ [val w]) := by
  have hpast : ∀ w, AppendOp.writeVal ∈ (loc w).past := fun w => by simp [hdone, Appender.past]
  exact ⟨fun w hw => h.placed.apart w hw (hpast _),
    fun hnone => h.placed.covered hpast (not_exists.mp hnone)⟩

/-- A prefix that stops before the last of two entries does not hold it. -/
lemma notMem_take_append_pair {α : Type} {l : List α} {a b : α} {k : ℕ} (hk : k < l.length + 2)
    (hb : b ∉ l) (hab : a ≠ b) : b ∉ (l ++ [a, b]).take k := by
  have hsplit : l ++ [a, b] = (l ++ [a]) ++ [b] := by simp
  rw [hsplit, List.take_append_of_le_length (by simp; omega)]
  intro hmem
  rcases List.mem_append.mp (List.mem_of_mem_take hmem) with hmem | hmem
  · exact hb hmem
  · exact hab (List.mem_singleton.mp hmem).symm

/-- **Two inserts at the same time.** Two inserts into an UNSORTED column without stale cells,
interleaved in any way that is separate, leave the column with two rows more and with both
values among its rows. When the values are different and new to the column, no other
interleaving does. -/
theorem appendRun_keeps_both (h : AppendRun val f log file loc) (hdone : ∀ w, loc w = .done) :
    (f.stale = [] → Separate log → KeepsBoth val f file) ∧
    (val .first ≠ val .second → (∀ w, val w ∉ f.cells) → KeepsBoth val f file →
      f.stale = [] ∧ Separate log) := by
  obtain ⟨hapart, hover⟩ := h.cells_eq hdone
  have hstale : f.stale = [] ↔ f.cells.length ≤ f.m.size := List.drop_eq_nil_iff
  refine ⟨fun hnone hsep => ?_, fun hval hnew hkeeps => ?_⟩
  · obtain ⟨w, hw⟩ := hsep.2
    have hsize := (h.size_iff hdone).mpr hsep.1
    have htake : file.cells.take file.m.size = f.cells ++ [val w, val w.other] := by
      rw [hapart w hw, hsize]
      exact List.take_of_length_le (by simpa using hstale.mp hnone)
    refine ⟨hsize, (Worker.forall_iff w).mpr ⟨?_, ?_⟩⟩ <;> simp [htake]
  · obtain ⟨hsize, hrows⟩ := hkeeps
    have hne : ∀ w : Worker, val w ≠ val w.other :=
      (Worker.forall_iff .first).mpr ⟨hval, hval.symm⟩
    have hend : ∃ w : Worker, Before log (w, .writeVal) (w.other, .seekEnd) := by
      by_contra hnone
      obtain ⟨w, hcells⟩ := hover hnone
      have hmem := List.mem_of_mem_take (hrows w.other)
      rw [hcells, List.mem_append, List.mem_singleton] at hmem
      exact hmem.elim (hnew _) (hne w).symm
    refine ⟨hstale.mpr ?_, (h.size_iff hdone).mp hsize, hend⟩
    obtain ⟨w, hw⟩ := hend
    by_contra hlen
    have hmem := hrows w.other
    rw [hapart w hw, hsize] at hmem
    exact notMem_take_append_pair (by omega) (hnew _) (hne w) hmem

end Final

/-- The values of two inserts into an empty column. -/
def tenTwenty : Worker → ℤ
  | .first => 10
  | .second => 20

/-- The operations of an insert, in order. -/
def appendOps : List AppendOp :=
  [.seekInit, .readInit, .seekRead, .readMeta, .seekCount, .countMeta, .seekEnd, .writeVal,
    .seekMeta, .writeMeta]

/-- The log and the outcome of a schedule of two inserts into an empty column. -/
def appendSchedule (schedule : List Worker) :
    Option (List (Worker × AppendOp) × ColumnFile × (Worker → Appender)) :=
  schedule.foldlM (stepOf fun w p file => p.next (tenTwenty w) file)
    ([], (DataFile.makeNew .unsorted).file, fun _ => .seekInit)

/-- `appendRun_keeps_both` at two inserts one after the other. -/
theorem oneAfterTheOther_keeps_both :
    ∃ log file loc, AppendRun tenTwenty (DataFile.makeNew .unsorted) log file loc ∧
      KeepsBoth tenTwenty (DataFile.makeNew .unsorted) file := by
  have heval : (appendSchedule (List.replicate 10 .first ++ List.replicate 10 .second)).map
      (fun c => (c.1, c.2.2 .first, c.2.2 .second))
        = some (appendOps.map (Worker.first, ·) ++ appendOps.map (Worker.second, ·), .done, .done)
      := rfl
  obtain ⟨⟨log, file, loc⟩, hrun, hview⟩ := Option.map_eq_some_iff.mp heval
  simp only [Prod.mk.injEq] at hview
  obtain ⟨hlog, hfirst, hsecond⟩ := hview
  have happend : AppendRun tenTwenty (DataFile.makeNew .unsorted) log file loc :=
    Interleaved.of_schedule _ Interleaved.start hrun
  have hbefore : ∀ op op', op ∈ appendOps → Before log (.first, op) (.second, op') :=
    fun op op' hop => ⟨_, _, hlog, List.mem_map_of_mem hop, by simp⟩
  refine ⟨log, file, loc, happend, (appendRun_keeps_both happend
    ((Worker.forall_iff .first).mpr ⟨hfirst, hsecond⟩)).1 rfl ⟨⟨.first, ?_, ?_⟩, .first, ?_⟩⟩
  all_goals exact hbefore _ _ (by decide)

/-- When the second worker inserts between the first one's reading and writing of the header,
the column counts one row, and `10` is not among its rows. -/
theorem betweenReadAndWrite_lost :
    ∃ log file loc, AppendRun tenTwenty (DataFile.makeNew .unsorted) log file loc ∧
      (∀ w, loc w = .done) ∧ file.m.size = 1 ∧ file.cells = [20, 10] ∧
      ¬ KeepsBoth tenTwenty (DataFile.makeNew .unsorted) file := by
  have heval : (appendSchedule (List.replicate 4 .first ++ List.replicate 10 .second
      ++ List.replicate 6 .first)).map
        (fun c => (c.2.1.m.size, c.2.1.cells, c.2.2 .first, c.2.2 .second))
          = some (1, [20, 10], .done, .done) := rfl
  obtain ⟨⟨log, file, loc⟩, hrun, hview⟩ := Option.map_eq_some_iff.mp heval
  simp only [Prod.mk.injEq] at hview
  obtain ⟨hsize, hcells, hfirst, hsecond⟩ := hview
  refine ⟨log, file, loc, Interleaved.of_schedule _ Interleaved.start hrun,
    (Worker.forall_iff .first).mpr ⟨hfirst, hsecond⟩, hsize, hcells, fun hkeeps => ?_⟩
  exact absurd (hsize.symm.trans hkeeps.1) (by decide)

end ColumnDb
