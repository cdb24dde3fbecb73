import ColumnDb.Session.Serve

/-!
What the steps of a session do to its variables.

A step binds a name, or it changes some fields of a variable that is bound: the marks of a
SELECT, the cached values of the operand of a math command, the freed array of an aggregate,
the ids of a join. `VarChange` lists these changes with what the step has read, and `run_change`
says that there is no other; every invariant of the variables is then a case analysis on
`VarChange`.

* `SessionRun`: the runs of the steps of a session, every one of which meets a condition.
* `SessionRun.inv`: what all changes preserve holds of every variable of a run.
* `ReachedFrom.sessionRun`: the states of a session come from such a run.
-/

namespace ColumnDb

/-! ### The changes -/

namespace Command

/-- ADD, SUB, DIV and MUL. -/
def isMath (c : Command) : Bool := c ∈ [add, sub, div, mul]

/-- MIN, MAX, AVG and SUM. -/
def isAggregate (c : Command) : Bool := c ∈ [min, max, avg, sum]

/-- The commands that bind computed values. -/
def computes (c : Command) : Bool := c.isMath || c.isAggregate || c = count

/-- The joins. -/
def isJoin (c : Command) : Bool := c ∈ [hashjoin, loopjoin, sortjoin, treejoin]

end Command

/-- The variable that initializing `x` returns. -/
def Vars.bound (vars : Vars) (x : String) (isMaterialized : Bool) (size : ℕ) (isId : Bool) :
    SessionVar :=
  (vars.find x).getD (newVariable isMaterialized size isId)

lemma Vars.bound_of_some {vars : Vars} {x : String} {v : SessionVar} (h : vars.find x = some v)
    (isMaterialized : Bool) (size : ℕ) (isId : Bool) :
    vars.bound x isMaterialized size isId = v := by
  rw [bound, h, Option.getD_some]

lemma Vars.bound_of_none {vars : Vars} {x : String} (h : vars.find x = none)
    (isMaterialized : Bool) (size : ℕ) (isId : Bool) :
    vars.bound x isMaterialized size isId = newVariable isMaterialized size isId := by
  rw [bound, h, Option.getD_none]

/-- A step leaves `x` with this variable. -/
inductive VarChange (d : Disk) (vars : Vars) (x : String) : SessionStep → SessionVar → Prop where
  | same {q : SessionStep} {v : SessionVar} (hfind : vars.find x = some v) : VarChange d vars x q v
  | selected {args : InputArgs} {c : Column} {bv : BitVector} (hcommand : args.command = .select)
      (hx : args.var = x) (hc : openColumn d args.argOne = .ok c)
      (hbv : selectMarks c (vars.bound x false c.data.m.size false).bv args = .ok bv) :
      VarChange d vars x (.call true args)
        { vars.bound x false c.data.m.size false with bv := bv }
  | named {args : InputArgs} {size : ℕ} (hcommand : args.command = .fetch) (hx : args.var = x)
      (hnew : vars.find x = none) :
      VarChange d vars x (.call true args) (newVariable false size false)
  | fetched {args : InputArgs} {c : Column} {old v : SessionVar} (hcommand : args.command = .fetch)
      (hx : args.var = x) (hname : (strtol args.argTwo).2 = false)
      (hc : openColumn d args.argOne = .ok c)
      (hold : vars.find args.argTwo = some old ∨
        args.argTwo = x ∧ old = vars.bound x false c.data.m.size false)
      (hv : fetchedVariable c args.argOne (vars.bound x false c.data.m.size false) old = .ok v) :
      VarChange d vars x (.call true args) v
  | cached {args : InputArgs} {c : Column} {v : SessionVar} {m : List ℤ}
      (hcommand : args.command.isMath = true) (hx : x = args.argOne ∨ x = args.argTwo)
      (hfind : vars.find x = some v) (hfetched : v.isFetched = true) (hc : loadCol d v = .ok c)
      (hm : fetchMatchedFromBv c.data v.bv = .ok m) :
      VarChange d vars x (.call true args) { v with isMaterialized := true, val := .live m }
  | freed {args : InputArgs} {c : Column} {v : SessionVar}
      (hcommand : args.command.isAggregate = true) (hx : args.argOne = x)
      (hfind : vars.find x = some v) (hc : loadCol d v = .ok c) :
      VarChange d vars x (.call true args) (freeAggregated v)
  | computed {args : InputArgs} (vals : List ℤ) (hcommand : args.command.computes = true)
      (hx : args.var = x) :
      VarChange d vars x (.call true args)
        { vars.bound x true 0 false with
          isMaterialized := true, valSize := vals.length, val := .live vals }
  | joined {hasVar : Bool} {args : InputArgs} (ids : Option (List ℕ))
      (hcommand : args.command.isJoin = true) :
      VarChange d vars x (.call hasVar args) { vars.bound x false 0 true with ids := ids }

/-! ### What each command does -/

section Commands

variable {d : Disk} {vars vars' : Vars} {args : InputArgs} {x : String} {v : SessionVar}

lemma initializeVariableTypes_bound {name : String} {isMaterialized : Bool} {size : ℕ} {isId : Bool}
    (h : initializeVariableTypes vars name isMaterialized size isId = .ok (vars', v)) :
    v = vars.bound name isMaterialized size isId ∧ vars'.find name = some v ∧
      ∀ y, y ≠ name → vars'.find y = vars.find y := by
  obtain ⟨-, hself, hother, hfind | ⟨hnone, rfl⟩⟩ := initializeVariableTypes_ok h
  · exact ⟨by rw [Vars.bound, hfind, Option.getD_some], hself, hother⟩
  · exact ⟨by rw [Vars.bound, hnone, Option.getD_none], hself, hother⟩

/-- A name that is set, and every other one. -/
lemma find_set_cases {name : String} {w : SessionVar}
    (h : (vars.set name w).find x = some v) :
    x = name ∧ v = w ∨ x ≠ name ∧ vars.find x = some v := by
  by_cases hx : x = name
  · subst hx
    rw [Vars.find_set_self, Option.some.injEq] at h
    exact Or.inl ⟨rfl, h.symm⟩
  · rw [Vars.find_set_of_ne hx] at h
    exact Or.inr ⟨hx, h⟩

lemma selectCommand_change {hasVar : Bool} (hcommand : args.command = .select)
    (h : selectCommand d vars hasVar args = .ok vars') (hfind : vars'.find x = some v) :
    VarChange d vars x (.call hasVar args) v := by
  rw [selectCommand] at h
  split_ifs at h with hvar
  subst hvar
  obtain ⟨c, hc, h⟩ := Outcome.bind_eq_ok.mp h
  obtain ⟨⟨vars₁, newVar⟩, hinit, h⟩ := Outcome.bind_eq_ok.mp h
  obtain ⟨bv, hbv, h⟩ := Outcome.bind_eq_ok.mp h
  cases h
  obtain ⟨rfl, -, hother⟩ := initializeVariableTypes_bound hinit
  rcases find_set_cases hfind with ⟨rfl, rfl⟩ | ⟨hx, hfind⟩
  · exact .selected hcommand rfl hc hbv
  · exact .same (by rw [← hother x hx, hfind])

lemma fetchIntoVariable_change (hcommand : args.command = .fetch)
    (h : fetchIntoVariable d vars args = .ok vars') (hfind : vars'.find x = some v) :
    VarChange d vars x (.call true args) v := by
  obtain ⟨c, hc, h⟩ := Outcome.bind_eq_ok.mp h
  split_ifs at h with hempty hnumber
  all_goals
    obtain ⟨⟨vars₁, newVar⟩, hinit, h⟩ := Outcome.bind_eq_ok.mp h
    obtain ⟨hbound, hself, hother⟩ := initializeVariableTypes_bound hinit
  · -- only the name is bound
    cases h
    by_cases hx : x = args.var
    · subst hx
      rw [hself, Option.some.injEq] at hfind
      subst hfind
      cases hold : vars.find args.var with
      | some w => exact .same (by rw [hold, hbound, Vars.bound, hold, Option.getD_some])
      | none =>
          rw [hbound, Vars.bound, hold, Option.getD_none]
          exact .named hcommand rfl hold
    · exact .same (by rw [← hother x hx, hfind])
  · obtain ⟨old, hold, h⟩ := Outcome.bind_eq_ok.mp h
    obtain ⟨w, hw, h⟩ := Outcome.bind_eq_ok.mp h
    cases h
    subst hbound
    rcases find_set_cases hfind with ⟨rfl, rfl⟩ | ⟨hx, hfind⟩
    · refine .fetched hcommand rfl (Bool.eq_false_iff.mpr hnumber) hc ?_ hw
      obtain ⟨-, hold⟩ := getVariable_eq_ok.mp hold
      by_cases hsame : args.argTwo = args.var
      · rw [hsame, hself, Option.some.injEq] at hold
        exact Or.inr ⟨hsame, hold.symm⟩
      · exact Or.inl (by rw [← hother _ hsame, hold])
    · exact .same (by rw [← hother x hx, hfind])

lemma bindValue_find {name : String} {value : ℤ} (h : bindValue vars name value = .ok vars') :
    vars'.find name = some { vars.bound name true 0 false with
        isMaterialized := true, valSize := 1, val := .live [value] } ∧
      ∀ y, y ≠ name → vars'.find y = vars.find y := by
  obtain ⟨⟨vars₁, newVar⟩, hinit, h⟩ := Outcome.bind_eq_ok.mp h
  cases h
  obtain ⟨rfl, -, hother⟩ := initializeVariableTypes_bound hinit
  exact ⟨Vars.find_set_self _ _ _,
    fun y hy => (Vars.find_set_of_ne hy _).trans (hother y hy)⟩

lemma countCommand_change {hasVar : Bool} (hcommand : args.command = .count)
    (h : countCommand vars hasVar args = .ok vars') (hfind : vars'.find x = some v) :
    VarChange d vars x (.call hasVar args) v := by
  rw [countCommand] at h
  split_ifs at h with hvar
  subst hvar
  obtain ⟨w, hw, h⟩ := Outcome.bind_eq_ok.mp h
  obtain ⟨hself, hother⟩ := bindValue_find h
  by_cases hx : x = args.var
  · subst hx
    rw [hself, Option.some.injEq] at hfind
    subst hfind
    exact .computed [_] (by rw [hcommand]; rfl) rfl
  · exact .same (by rw [← hother x hx, hfind])

lemma aggregateCommand_change {hasVar isAvg : Bool} {op : ℤ → ℤ → ℤ}
    (hcommand : args.command.isAggregate = true)
    (h : aggregateCommand op isAvg d vars hasVar args = .ok vars')
    (hfind : vars'.find x = some v) : VarChange d vars x (.call hasVar args) v := by
  have hcomputes : args.command.computes = true := by
    rw [Command.computes, hcommand, Bool.or_true, Bool.true_or]
  rw [aggregateCommand] at h
  split_ifs at h with hvar
  subst hvar
  obtain ⟨w, hw, h⟩ := Outcome.bind_eq_ok.mp h
  obtain ⟨value, hvalue, h⟩ := Outcome.bind_eq_ok.mp h
  obtain ⟨-, hw⟩ := getVariable_eq_ok.mp hw
  obtain ⟨hself, hother⟩ := bindValue_find h
  by_cases hx : x = args.var
  · subst hx
    rw [hself, Option.some.injEq] at hfind
    subst hfind
    by_cases hone : args.var = args.argOne
    · -- the operand is bound anew, over the freed array
      have hbound : vars.bound args.var true 0 false = w := by
        rw [Vars.bound, hone, hw, Option.getD_some]
      have hfreed : (vars.set args.argOne (freeAggregated w)).bound args.var true 0 false
          = freeAggregated w := by
        rw [Vars.bound, hone, Vars.find_set_self, Option.getD_some]
      have hchange : VarChange d vars args.var (.call true args) _ :=
        .computed [value] hcomputes rfl
      rw [hbound] at hchange
      rw [hfreed, freeAggregated]
      split_ifs
      · exact hchange
      · exact hchange
    · have hbound : (vars.set args.argOne (freeAggregated w)).bound args.var true 0 false
          = vars.bound args.var true 0 false := by
        rw [Vars.bound, Vars.bound, Vars.find_set_of_ne hone]
      rw [hbound]
      exact .computed [value] hcomputes rfl
  · rw [hother x hx] at hfind
    rcases find_set_cases hfind with ⟨rfl, rfl⟩ | ⟨-, hfind⟩
    · obtain ⟨operand, hoperand, -⟩ := Outcome.bind_eq_ok.mp hvalue
      obtain ⟨c, hc, -⟩ := Outcome.bind_eq_ok.mp hoperand
      exact .freed hcommand rfl hw hc
    · exact .same hfind

/-- The variable after it was cached: it is fetched, and it has got the values that its bit
vector selects. -/
def CachedFrom (d : Disk) (u v : SessionVar) : Prop :=
  ∃ c m, u.isFetched = true ∧ loadCol d u = .ok c ∧ fetchMatchedFromBv c.data u.bv = .ok m ∧
    v = { u with isMaterialized := true, val := .live m }

/-- Caching twice is caching once. -/
lemma CachedFrom.trans {u w : SessionVar} (h : CachedFrom d u v) (h' : CachedFrom d v w) :
    CachedFrom d u w := by
  obtain ⟨c, m, hfetched, hc, -, rfl⟩ := h
  obtain ⟨c', m', -, hc', hm', rfl⟩ := h'
  exact ⟨c', m', hfetched, hc', hm', rfl⟩

/-- An operand of a math command is cached if it is fetched, and the other variables stay. -/
lemma mathOperand_find {name : String} {size : Option ℕ}
    (h : mathOperand d vars name = .ok (vars', size)) (x : String) :
    vars'.find x = vars.find x ∨
      x = name ∧ ∃ u v, vars.find x = some u ∧ vars'.find x = some v ∧ CachedFrom d u v := by
  obtain ⟨w, hw, h⟩ := Outcome.bind_eq_ok.mp h
  obtain ⟨-, hw⟩ := getVariable_eq_ok.mp hw
  split_ifs at h with hfetched
  · obtain ⟨c, hc, h⟩ := Outcome.bind_eq_ok.mp h
    obtain ⟨m, hm, h⟩ := Outcome.bind_eq_ok.mp h
    cases h
    by_cases hx : x = name
    · subst hx
      exact Or.inr ⟨rfl, w, _, hw, Vars.find_set_self _ _ _, c, m, hfetched, hc, hm, rfl⟩
    · exact Or.inl (Vars.find_set_of_ne hx _)
  · cases h
    exact Or.inl rfl

/-- Both operands, which may be one variable. -/
lemma mathOperands_find {size : Option ℕ} (h : mathOperands d vars args = .ok (vars', size))
    (x : String) :
    vars'.find x = vars.find x ∨ (x = args.argOne ∨ x = args.argTwo) ∧
      ∃ u v, vars.find x = some u ∧ vars'.find x = some v ∧ CachedFrom d u v := by
  obtain ⟨_, -, h⟩ := Outcome.bind_eq_ok.mp h
  obtain ⟨_, -, h⟩ := Outcome.bind_eq_ok.mp h
  obtain ⟨⟨vars₁, size₁⟩, h₁, h⟩ := Outcome.bind_eq_ok.mp h
  obtain ⟨⟨vars₂, size₂⟩, h₂, h⟩ := Outcome.bind_eq_ok.mp h
  cases h
  rcases mathOperand_find h₁ x with hsame₁ | ⟨hx₁, u, w, hu, hw, hcache⟩
  · rcases mathOperand_find h₂ x with hsame₂ | ⟨hx₂, w, v, hw, hv, hcache⟩
    · exact Or.inl (hsame₂.trans hsame₁)
    · exact Or.inr ⟨Or.inr hx₂, w, v, hsame₁ ▸ hw, hv, hcache⟩
  · refine Or.inr ⟨Or.inl hx₁, u, ?_⟩
    rcases mathOperand_find h₂ x with hsame₂ | ⟨-, w', v, hw', hv, hcache'⟩
    · exact ⟨w, hu, hsame₂.trans hw, hcache⟩
    · obtain rfl : w = w' := Option.some.inj (hw.symm.trans hw')
      exact ⟨v, hu, hv, hcache.trans hcache'⟩

/-- A math command reads its operands, and binds as many values as the size says to its result,
in a list that does not move: what the operation makes of the values of the operands. -/
lemma mathCommand_ok {hasVar : Bool} {op : ℤ → ℤ → Outcome ℤ}
    (h : mathCommand op d vars hasVar args = .ok vars') :
    hasVar = true ∧ ∃ vars₁ vars₂ vals, mathOperands d vars args = .ok (vars₁, some vals.length) ∧
      vars₁.moves args.var = false ∧
      initializeVariableMaterialized vars₁ args.var
        = .ok (vars₂, vars₁.bound args.var true 0 false) ∧
      (∃ v₁ v₂, getVariable vars₁ args.argOne = .ok v₁ ∧ getVariable vars₁ args.argTwo = .ok v₂ ∧
        mathOpOnVar op vals.length v₁.val v₂.val = .ok vals) ∧
      vars' = vars₂.set args.var { vars₁.bound args.var true 0 false with
        isMaterialized := true, valSize := vals.length, val := .live vals } := by
  rw [mathCommand] at h
  split_ifs at h with hvar
  obtain ⟨⟨vars₁, size⟩, hoperands, h⟩ := Outcome.bind_eq_ok.mp h
  cases size with
  | none => cases h
  | some size =>
      simp only at h
      split_ifs at h with hmoves
      obtain ⟨v₁, hv₁, h⟩ := Outcome.bind_eq_ok.mp h
      obtain ⟨v₂, hv₂, h⟩ := Outcome.bind_eq_ok.mp h
      obtain ⟨⟨vars₂, newVar⟩, hinit, h⟩ := Outcome.bind_eq_ok.mp h
      obtain ⟨vals, hvals, h⟩ := Outcome.bind_eq_ok.mp h
      cases h
      obtain ⟨rfl, -, -⟩ := initializeVariableTypes_bound hinit
      obtain rfl : vals.length = size := (Outcome.length_mapM hvals).trans List.length_range
      exact ⟨hvar, vars₁, vars₂, vals, hoperands, Bool.eq_false_iff.mpr hmoves, hinit,
        ⟨v₁, v₂, hv₁, hv₂, hvals⟩, rfl⟩

lemma mathCommand_change {hasVar : Bool} {op : ℤ → ℤ → Outcome ℤ}
    (hcommand : args.command.isMath = true) (h : mathCommand op d vars hasVar args = .ok vars')
    (hfind : vars'.find x = some v) : VarChange d vars x (.call hasVar args) v := by
  have hcomputes : args.command.computes = true := by
    rw [Command.computes, hcommand, Bool.true_or, Bool.true_or]
  obtain ⟨rfl, vars₁, vars₂, vals, hoperands, -, hinit, -, rfl⟩ := mathCommand_ok h
  obtain ⟨-, -, hother⟩ := initializeVariableTypes_bound hinit
  have hfound := mathOperands_find hoperands x
  rcases find_set_cases hfind with ⟨rfl, rfl⟩ | ⟨hx, hfind⟩
  · have hchange : VarChange d vars args.var (.call true args) _ :=
      .computed vals hcomputes rfl
    rcases hfound with hsame | ⟨-, u, w, hu, hw, c, m, hfetched, hc, hm, rfl⟩
    · rw [Vars.bound, hsame]
      exact hchange
    · -- the result is an operand, and its cached values are overwritten
      rw [Vars.bound_of_some hu] at hchange
      rw [Vars.bound_of_some hw]
      exact hchange
  · rw [hother x hx] at hfind
    rcases hfound with hsame | ⟨hx, u, w, hu, hw, c, m, hfetched, hc, hm, rfl⟩
    · exact .same (hsame ▸ hfind)
    · rw [hw, Option.some.injEq] at hfind
      subst hfind
      exact .cached hcommand hx hu hfetched hc hm

/-- A join binds names and changes ids, and nothing else. -/
def JoinsFrom (vars vars' : Vars) : Prop :=
  ∀ x, vars'.find x = vars.find x ∨
    ∃ ids, vars'.find x = some { vars.bound x false 0 true with ids := ids }

lemma JoinsFrom.trans {vars₁ vars₂ vars₃ : Vars} (h : JoinsFrom vars₁ vars₂)
    (h' : JoinsFrom vars₂ vars₃) : JoinsFrom vars₁ vars₃ := by
  intro x
  rcases h' x with hsame' | ⟨ids', hids'⟩
  · rw [hsame']
    exact h x
  · refine Or.inr ⟨ids', ?_⟩
    rcases h x with hsame | ⟨ids, hids⟩
    · rw [hids', Vars.bound, Vars.bound, hsame]
    · rw [hids', Vars.bound, hids, Option.getD_some]

/-- Writing the ids of a variable. -/
lemma JoinsFrom.set_ids {name : String} {w : SessionVar} (hw : vars.find name = some w)
    (ids : Option (List ℕ)) : JoinsFrom vars (vars.set name { w with ids := ids }) := by
  intro x
  by_cases hx : x = name
  · subst hx
    refine Or.inr ⟨ids, ?_⟩
    rw [Vars.find_set_self, Vars.bound, hw, Option.getD_some]
  · exact Or.inl (Vars.find_set_of_ne hx _)

lemma appendIds_joins {name : String} {new : List ℕ} (h : appendIds vars name new = .ok vars') :
    JoinsFrom vars vars' := by
  obtain ⟨w, hw, h⟩ := Outcome.bind_eq_ok.mp h
  obtain ⟨-, hw⟩ := getVariable_eq_ok.mp hw
  cases hids : w.ids with
  | some ids =>
      simp only [hids] at h
      obtain ⟨l, -, h⟩ := Outcome.bind_eq_ok.mp h
      cases h
      exact .set_ids hw _
  | none =>
      simp only [hids] at h
      split_ifs at h
      cases h
      exact fun x => Or.inl rfl

lemma appendJoin_joins {jv1 jv2 : String} {swap : Bool} {ids : JoinIds}
    (h : appendJoin vars jv1 jv2 swap ids = .ok vars') : JoinsFrom vars vars' := by
  rw [appendJoin] at h
  by_cases hsame : jv1 = jv2
  · rw [if_pos hsame] at h
    exact appendIds_joins h
  · rw [if_neg hsame] at h
    obtain ⟨vars₁, h₁, h⟩ := Outcome.bind_eq_ok.mp h
    exact (appendIds_joins h₁).trans (appendIds_joins h)

lemma resetIds_joins {name : String} (h : resetIds vars name = .ok vars') :
    JoinsFrom vars vars' := by
  obtain ⟨w, hw, h⟩ := Outcome.bind_eq_ok.mp h
  obtain ⟨-, hw⟩ := getVariable_eq_ok.mp hw
  cases h
  exact .set_ids hw _

lemma initializeRowidVariable_joins {name : String}
    (h : initializeRowidVariable vars name = .ok (vars', v)) : JoinsFrom vars vars' := by
  obtain ⟨rfl, hself, hother⟩ := initializeVariableTypes_bound h
  intro x
  by_cases hx : x = name
  · subst hx
    exact Or.inr ⟨_, hself⟩
  · exact Or.inl (hother x hx)

lemma joinSides_joins {command : Command} {jv1 jv2 : String} {c1 c2 : Column} {v1 v2 : SessionVar}
    (h : joinSides vars command jv1 jv2 c1 c2 v1 v2 = .ok vars') : JoinsFrom vars vars' := by
  obtain ⟨m0, -, h⟩ := Outcome.bind_eq_ok.mp h
  cases command with
  | loopjoin =>
      obtain ⟨m1, -, h⟩ := Outcome.bind_eq_ok.mp h
      obtain ⟨vars₁, h₁, h⟩ := Outcome.bind_eq_ok.mp h
      obtain ⟨vars₂, h₂, h⟩ := Outcome.bind_eq_ok.mp h
      obtain ⟨ids, -, h⟩ := Outcome.bind_eq_ok.mp h
      exact (resetIds_joins h₁).trans ((resetIds_joins h₂).trans (appendJoin_joins h))
  | sortjoin | hashjoin =>
      obtain ⟨m1, -, h⟩ := Outcome.bind_eq_ok.mp h
      obtain ⟨ids, -, h⟩ := Outcome.bind_eq_ok.mp h
      exact appendJoin_joins h
  | _ =>
      simp only at h
      split_ifs at h
      all_goals
        obtain ⟨m1, -, h⟩ := Outcome.bind_eq_ok.mp h
        obtain ⟨ids, -, h⟩ := Outcome.bind_eq_ok.mp h
        exact appendJoin_joins h

lemma joinCommand_change {hasVar : Bool} (hcommand : args.command.isJoin = true)
    (h : joinCommand d vars args = .ok vars') (hfind : vars'.find x = some v) :
    VarChange d vars x (.call hasVar args) v := by
  obtain ⟨⟨jv1, jv2⟩, -, h⟩ := Outcome.bind_eq_ok.mp h
  obtain ⟨v1, -, h⟩ := Outcome.bind_eq_ok.mp h
  obtain ⟨c1, -, h⟩ := Outcome.bind_eq_ok.mp h
  obtain ⟨v2, -, h⟩ := Outcome.bind_eq_ok.mp h
  obtain ⟨c2, -, h⟩ := Outcome.bind_eq_ok.mp h
  split_ifs at h
  obtain ⟨⟨vars₁, w₁⟩, h₁, h⟩ := Outcome.bind_eq_ok.mp h
  simp only at h
  split_ifs at h
  obtain ⟨⟨vars₂, w₂⟩, h₂, h⟩ := Outcome.bind_eq_ok.mp h
  have hjoins : JoinsFrom vars vars' := (initializeRowidVariable_joins h₁).trans
    ((initializeRowidVariable_joins h₂).trans (joinSides_joins h))
  rcases hjoins x with hsame | ⟨ids, hids⟩
  · exact .same (hsame ▸ hfind)
  · rw [hids, Option.some.injEq] at hfind
    subst hfind
    exact .joined ids hcommand

end Commands

/-! ### Steps and runs -/

/-- **The changes of a step**: what a step leaves a variable as is one of them. -/
theorem run_change {n : Node} {d d' : Disk} {vars vars' : Vars} {q : SessionStep}
    {reply : Option (List ℤ)} (h : q.run n d vars = .ok (d', vars', reply)) {x : String}
    {v : SessionVar} (hfind : vars'.find x = some v) : VarChange d vars x q v := by
  cases q with
  | load | tuple | insert =>
      obtain ⟨_, -, h⟩ := Outcome.bind_eq_ok.mp h
      cases h
      exact .same hfind
  | delete =>
      obtain ⟨_, -, h⟩ := Outcome.bind_eq_ok.mp h
      obtain ⟨_, -, h⟩ := Outcome.bind_eq_ok.mp h
      obtain ⟨_, -, h⟩ := Outcome.bind_eq_ok.mp h
      cases h
      exact .same hfind
  | call hasVar args =>
      rw [SessionStep.run, runCall] at h
      cases hcommand : args.command with
      | create | update =>
          simp only [hcommand] at h
          obtain ⟨_, -, h⟩ := Outcome.bind_eq_ok.mp h
          cases h
          exact .same hfind
      | load | tuple | insert | delete =>
          simp only [hcommand] at h
          cases h
          exact .same hfind
      | select =>
          simp only [hcommand] at h
          obtain ⟨vars₁, h₁, h⟩ := Outcome.bind_eq_ok.mp h
          cases h
          exact selectCommand_change hcommand h₁ hfind
      | fetch =>
          simp only [hcommand] at h
          split_ifs at h with hvar
          · obtain ⟨vars₁, h₁, h⟩ := Outcome.bind_eq_ok.mp h
            cases h
            subst hvar
            exact fetchIntoVariable_change hcommand h₁ hfind
          · obtain ⟨_, -, h⟩ := Outcome.bind_eq_ok.mp h
            cases h
            exact .same hfind
      | add | sub | div | mul =>
          simp only [hcommand] at h
          obtain ⟨vars₁, h₁, h⟩ := Outcome.bind_eq_ok.mp h
          cases h
          exact mathCommand_change (by rw [hcommand]; rfl) h₁ hfind
      | count =>
          simp only [hcommand] at h
          obtain ⟨vars₁, h₁, h⟩ := Outcome.bind_eq_ok.mp h
          cases h
          exact countCommand_change hcommand h₁ hfind
      | min | max | avg | sum =>
          simp only [hcommand] at h
          obtain ⟨vars₁, h₁, h⟩ := Outcome.bind_eq_ok.mp h
          cases h
          exact aggregateCommand_change (by rw [hcommand]; rfl) h₁ hfind
      | hashjoin | loopjoin | sortjoin | treejoin =>
          simp only [hcommand] at h
          obtain ⟨vars₁, h₁, h⟩ := Outcome.bind_eq_ok.mp h
          cases h
          exact joinCommand_change (by rw [hcommand]; rfl) h₁ hfind

/-- The runs of a session on the columns `d₀`, in which every step meets `C` where it is
taken. -/
inductive SessionRun (n : Node) (C : Disk → Vars → SessionStep → Prop) (d₀ : Disk) :
    Disk → Vars → Prop where
  | start : SessionRun n C d₀ d₀ .create
  | step {d d' : Disk} {vars vars' : Vars} {q : SessionStep} {reply : Option (List ℤ)}
      (h : SessionRun n C d₀ d vars) (hstep : C d vars q)
      (hrun : q.run n d vars = .ok (d', vars', reply)) : SessionRun n C d₀ d' vars'

/-- **The invariant rule for variables**: what every change preserves holds of every variable of
a run. -/
theorem SessionRun.inv {n : Node} {C : Disk → Vars → SessionStep → Prop} {d₀ d : Disk}
    {vars : Vars} {P : String → SessionVar → Prop}
    (hchange : ∀ d vars q, C d vars q → (∀ x v, vars.find x = some v → P x v) →
      ∀ x v, VarChange d vars x q v → P x v)
    (h : SessionRun n C d₀ d vars) : ∀ x v, vars.find x = some v → P x v := by
  induction h with
  | start =>
      intro x v hfind
      cases hfind
  | step _ hstep hrun ih =>
      intro x v hfind
      exact hchange _ _ _ hstep ih x v (run_change hrun hfind)

/-! ### The steps of a session -/

/-- A turn leaves the columns and the variables alone, or takes a step. -/
def TakesStep (env : Env) (s s' : Session) : Prop :=
  s'.disk = s.disk ∧ s'.vars = s.vars ∨
    ∃ q reply, SessionStep.run env.node s.disk s.vars q = .ok (s'.disk, s'.vars, reply)

namespace TakesStep

variable {env : Env} {s s' : Session}

lemma of_runStep {t : Session} {q : SessionStep} (h : runStep env t q = .ok s')
    (hdisk : t.disk = s.disk) (hvars : t.vars = s.vars) : TakesStep env s s' := by
  obtain ⟨d, vars, reply, hrun, rfl⟩ := runStep_ok h
  rw [hdisk, hvars] at hrun
  exact Or.inr ⟨q, reply, hrun⟩

lemma of_loadTurn (h : loadTurn env s = .ok s') : TakesStep env s s' := by
  have hfinish : ∀ {t : Session}, finishLoad env t = .ok s' → t.disk = s.disk →
      t.vars = s.vars → TakesStep env s s' := by
    intro t ht hdisk hvars
    obtain ⟨colNames, -, ht⟩ := Outcome.bind_eq_ok.mp ht
    exact of_runStep ht hdisk hvars
  rw [loadTurn] at h
  simp only at h
  split_ifs at h
  · obtain ⟨names, -, h⟩ := Outcome.bind_eq_ok.mp h
    cases h
    exact Or.inl ⟨rfl, rfl⟩
  · obtain ⟨row, -, h⟩ := Outcome.bind_eq_ok.mp h
    cases h
    exact Or.inl ⟨rfl, rfl⟩
  · obtain ⟨row, -, h⟩ := Outcome.bind_eq_ok.mp h
    exact hfinish h rfl rfl
  · obtain ⟨row, -, h⟩ := Outcome.bind_eq_ok.mp h
    cases h
  · exact hfinish h rfl rfl

lemma of_payloadTurn {bytes : List UInt8} (h : payloadTurn env s bytes = .ok (.next s')) :
    TakesStep env s s' := by
  rw [payloadTurn] at h
  split_ifs at h
  · obtain ⟨s₁, hturn, h⟩ := Outcome.bind_eq_ok.mp h
    cases h
    exact of_loadTurn (s := receive s bytes) hturn
  · obtain ⟨s₁, hturn, h⟩ := Outcome.bind_eq_ok.mp h
    cases h
    rw [tupleWorkTurn] at hturn
    split_ifs at hturn
    obtain ⟨names, -, hturn⟩ := Outcome.bind_eq_ok.mp hturn
    exact of_runStep hturn rfl rfl
  · obtain ⟨s₁, hturn, h⟩ := Outcome.bind_eq_ok.mp h
    cases h
    rw [insertWorkTurn] at hturn
    split_ifs at hturn
    obtain ⟨vals, -, hturn⟩ := Outcome.bind_eq_ok.mp hturn
    exact of_runStep hturn rfl rfl
  · obtain ⟨s₁, hturn, h⟩ := Outcome.bind_eq_ok.mp h
    cases h
    obtain ⟨var, -, hturn⟩ := Outcome.bind_eq_ok.mp hturn
    obtain ⟨colNames, -, hturn⟩ := Outcome.bind_eq_ok.mp hturn
    exact of_runStep hturn rfl rfl
  · obtain ⟨text, -, h⟩ := Outcome.bind_eq_ok.mp h
    split_ifs at h
    · cases h
    · obtain ⟨s₁, hturn, h⟩ := Outcome.bind_eq_ok.mp h
      cases h
      obtain ⟨found, -, hturn⟩ := Outcome.bind_eq_ok.mp hturn
      cases found with
      | none =>
          obtain ⟨args, worker, d, vars, reply, -, -, hrun, rfl⟩ := dispatch_ok hturn
          exact Or.inr ⟨_, reply, hrun⟩
      | some args' =>
          obtain ⟨args, worker, d, vars, reply, -, -, hrun, rfl⟩ := dispatch_ok hturn
          exact Or.inr ⟨_, reply, hrun⟩

end TakesStep

/-- **The columns and the variables of a session** are those of a run of its steps, whatever bytes
it is sent. -/
theorem ReachedFrom.sessionRun {env : Env} {w : WorkerVars} {d : Disk} {input : List UInt8}
    {s : Session} (hreach : Session.ReachedFrom env (newSession w d input) s) :
    SessionRun env.node (fun _ _ _ => True) d s.disk s.vars := by
  induction hreach with
  | start => exact .start
  | next _ hturn ih =>
      rcases turn_next_cases hturn with ⟨-, rfl⟩ | ⟨-, hpayload⟩
      · exact ih
      · rcases TakesStep.of_payloadTurn hpayload with ⟨hdisk, hvars⟩ | ⟨q, reply, hrun⟩
        · rw [hdisk, hvars]
          exact ih
        · exact ih.step trivial hrun

end ColumnDb
