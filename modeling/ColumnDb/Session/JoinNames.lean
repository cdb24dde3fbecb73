import ColumnDb.Session.Commands

/-!
The names of the results of a join (`worker.c`).

The variable of a join is the text `x,y`. `db_worker` cuts it at the first comma into two arrays
of `MAX_NAME_SIZE` characters, and ends both strings at the length of the first name.

* `joinInto`: what a join does once it has the names of its results.
* `joinNames_text`: the names that are cut out of `x,y`, whatever their lengths are.
* `joinCommand_names_iff`: they are `x` and `y` exactly when these are equally long.
-/

namespace ColumnDb

/-- A join with the names of its results. -/
def joinInto (d : Disk) (vars : Vars) (args : InputArgs) (jv1 jv2 : String) : Outcome Vars := do
  let v1 ← getVariable vars args.argOne
  let c1 ← loadCol d v1
  let v2 ← getVariable vars args.argTwo
  let c2 ← loadCol d v2
  if vars.moves jv1 then .error .undefined
  else
    let (vars, _) ← initializeRowidVariable vars jv1
    if vars.moves jv2 then .error .undefined
    else
      let (vars, _) ← initializeRowidVariable vars jv2
      joinSides vars args.command jv1 jv2 c1 c2 v1 v2

/-- A join finds its names and goes on with them. -/
lemma joinCommand_eq (d : Disk) (vars : Vars) (args : InputArgs) :
    joinCommand d vars args
      = joinNames args.var >>= fun names => joinInto d vars args names.1 names.2 := rfl

section Names

variable {x y : String}

/-- The text before the first comma. -/
lemma takeWhile_comma {x y : List Char} (hx : ',' ∉ x) :
    (x ++ ',' :: y).takeWhile (· ≠ ',') = x := by
  rw [List.takeWhile_append_of_pos fun c hc => decide_eq_true (ne_of_mem_of_not_mem hc hx),
    List.takeWhile_cons_of_neg (by simp), List.append_nil]

/-- **The names that are cut out of `x,y`.** The second one ends where the first one does: a longer
one is cut off, and behind a shorter one stands what the array held before. -/
theorem joinNames_text (hx : ',' ∉ x.toList) (hxlen : x.length < maxNameSize)
    (hylen : y.length ≤ maxNameSize) :
    joinNames (x ++ "," ++ y)
      = if y.length < x.length then .error .undefined
        else .ok (x, String.ofList (y.toList.take x.length)) := by
  have hlist : (x ++ "," ++ y).toList = x.toList ++ ',' :: y.toList := by
    rw [String.toList_append, String.toList_append, List.append_assoc]
    rfl
  have hxl : x.toList.length = x.length := String.length_toList
  have hyl : y.toList.length = y.length := String.length_toList
  rw [joinNames]
  simp only [hlist, takeWhile_comma hx, List.drop_left', hxl, hyl]
  rw [if_neg (by omega), String.ofList_toList]

/-- **The names of a join** on the text `x,y`: the command creates or looks up its results under
exactly `x` and `y` when these are equally long, and otherwise never. -/
theorem joinCommand_names_iff (args : InputArgs) (x y : String) (hx : ',' ∉ x.toList)
    (hxlen : x.length < maxNameSize) (hylen : y.length < maxNameSize)
    (hvar : args.var = x ++ "," ++ y) :
    (joinNames args.var = .ok (x, y) ∧
      ∀ d vars, joinCommand d vars args = joinInto d vars args x y) ↔ x.length = y.length := by
  have hnames := joinNames_text hx hxlen hylen.le
  rw [← hvar] at hnames
  have hyl : y.toList.length = y.length := String.length_toList
  constructor
  · rintro ⟨hok, -⟩
    rw [hnames] at hok
    split_ifs at hok with hlt
    have hsecond := congrArg (fun names => names.2.toList) (Except.ok.inj hok)
    simp only [String.toList_ofList] at hsecond
    have hlen := congrArg List.length hsecond
    rw [List.length_take] at hlen
    omega
  · intro hlen
    have hok : joinNames args.var = .ok (x, y) := by
      rw [hnames, if_neg (by omega), List.take_of_length_le (by omega), String.ofList_toList]
    refine ⟨hok, fun d vars => ?_⟩
    rw [joinCommand_eq, hok]
    rfl

/-- `joinCommand_names_iff` at two names of three characters. -/
theorem equalNames_join : joinNames "one,two" = .ok ("one", "two") ∧
    ∀ d vars, joinCommand d vars ⟨"one,two", .loopjoin, "a", "b", ""⟩
      = joinInto d vars ⟨"one,two", .loopjoin, "a", "b", ""⟩ "one" "two" :=
  (joinCommand_names_iff ⟨"one,two", .loopjoin, "a", "b", ""⟩ "one" "two" (by decide) (by decide)
    (by decide) rfl).mpr rfl

/-- A longer second name is cut off. -/
theorem longerName_join : joinNames "a,long" = .ok ("a", "l") ∧
    ¬ (joinNames "a,long" = .ok ("a", "long") ∧
      ∀ d vars, joinCommand d vars ⟨"a,long", .loopjoin, "v", "w", ""⟩
        = joinInto d vars ⟨"a,long", .loopjoin, "v", "w", ""⟩ "a" "long") := by
  have hcut : joinNames "a,long" = .ok ("a", "l") := by decide
  refine ⟨hcut, ?_⟩
  rintro ⟨hok, -⟩
  rw [hcut] at hok
  revert hok
  decide

end Names

end ColumnDb
