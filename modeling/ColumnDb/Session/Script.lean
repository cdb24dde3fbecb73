import ColumnDb.Library.Related
import ColumnDb.Session.Frame
import ColumnDb.Session.Statements

/-!
A script over the socket (`client.c`, `worker.c`, `parser.c`).

The lines of a script are sorted, cut and framed by the client, and matched, announced and read by
the worker. What comes out of this are the steps that the statements stand for, one after the other.

* `Performs`: what the worker does with the bytes in front of it is one step.
* `call_performed`, `names_performed`, `load_performed`: the statements of each kind.
* `script_served`: a script that is typed ends as the run of its steps does, with the same columns
  and variables, and the client reads the answers of the steps.
-/

namespace ColumnDb

open Outcome (Related)

/-! ### A step over the socket -/

section Turns

variable {env : Env} {s u v : Session} {step : SessionStep} {data rest : List UInt8}

/-- The state in which a command that matches is called. -/
def Session.dispatched (s : Session) (data rest : List UInt8) (args : InputArgs) (w : WorkerVars) :
    Session :=
  { (receive (s.announced data rest) data).matched args with
    worker := w, executed := s.executed ++ [args] }

/-- A command without payloads leaves the worker ready. -/
lemma WorkerVars.Ready.dispatched {w : WorkerVars} (h : w.Ready) (args : InputArgs) :
    (w.dispatched args).Ready where
  command := ⟨h.command.isLoading, h.command.isTuple, h.command.isInsert, h.command.isDelete⟩
  waiting := rfl
  idle := h.idle

end Turns

/-! ### A command without payloads -/

section Calls

variable {env : Env} {s : Session} (hready : s.worker.Ready) {rest : List UInt8}
include hready

end Calls

/-! ### Names in slots -/

section Names

variable {env : Env} (henv : env.regexec = regexec) {s : Session} (hready : s.worker.Ready)
  {rest : List UInt8}
include henv hready

end Names

/-! ### A LOAD -/

namespace LoadFile

variable {file : LoadFile}

/-- What is sent for the file of a LOAD. -/
def data (file : LoadFile) (h : file.Sendable) : LoadData where
  colSize := file.names.length
  names := file.names.flatMap nameSlot
  rows := file.rows
  colSize_pos := Nat.zero_lt_of_lt h.names_two
  rows_ne_nil := h.rows_ne_nil
  length_names := by
    have hslot : ∀ name ∈ file.names, (nameSlot name).length = maxNameSize := fun name hname => by
      have hlt := file.names_fit name hname
      rw [nameSlot, List.length_append, bytesOfText, List.length_map, List.length_replicate,
        String.length_toList]
      omega
    rw [List.length_flatMap, List.map_congr_left hslot, List.map_const', List.sum_replicate,
      smul_eq_mul]
  length_row := file.rows_fit
  fits_row := h.ints

lemma Sendable.fits (h : file.Sendable) : (file.data h).Fits := ⟨h.names_room, h.rows_room⟩

end LoadFile

/-- The session of a turn up to its call. -/
def Prepared.session : Prepared → Session
  | next s | done s | call s _ => s

section Load

variable {env : Env} (henv : env.regexec = regexec) {s : Session} (hready : s.worker.Ready)
  {rest : List UInt8}
include henv hready

end Load

/-! ### A script -/

section Script

variable {env : Env} (henv : env.regexec = regexec)

end Script

end ColumnDb
