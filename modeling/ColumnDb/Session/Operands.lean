import ColumnDb.Session.Aggregates
import ColumnDb.Session.Frame

/-!
What a math command leaves of its operands (`worker.c`).

A fetched operand of ADD, SUB, MUL or DIV keeps the values that were read for it, but not their
number: the operand is materialised, with as many values as before, none if it never had any. Every
later command looks at it in another way than before.

* `OperandsKept`: both operands are computed, or were cached before with the values that are
  read now.
* `kept_operands_answer`: then every later run that does not use the result ends as it does
  without the math command, with the same answers.
* `uncached_operand_changes`: an operand that is cached for the first time had an average and
  has none.
-/

namespace ColumnDb

open Outcome (Related)

/-! ### Operands that are kept -/

/-- A fetched operand was cached before, with the values that its bit vector selects now. -/
def OperandsKept (d : Disk) (vars : Vars) (args : InputArgs) : Prop :=
  ∀ x v c m, x = args.argOne ∨ x = args.argTwo → vars.find x = some v → v.isFetched = true →
    loadCol d v = .ok c → fetchMatchedFromBv c.data v.bv = .ok m →
    v.isMaterialized = true ∧ v.val = .live m

section Operands

variable {d : Disk} {vars vars' : Vars} {args : InputArgs}

/-- Reading an operand binds no name. -/
lemma mathOperand_room {name : String} {size : Option ℕ}
    (h : mathOperand d vars name = .ok (vars', size)) :
    vars'.next = vars.next ∧ vars'.capacity = vars.capacity := by
  obtain ⟨w, hw, h⟩ := Outcome.bind_eq_ok.mp h
  split_ifs at h
  · obtain ⟨c, -, h⟩ := Outcome.bind_eq_ok.mp h
    obtain ⟨m, -, h⟩ := Outcome.bind_eq_ok.mp h
    cases h
    exact ⟨rfl, rfl⟩
  · cases h
    exact ⟨rfl, rfl⟩

lemma mathOperands_room {size : Option ℕ} (h : mathOperands d vars args = .ok (vars', size)) :
    vars'.next = vars.next ∧ vars'.capacity = vars.capacity := by
  obtain ⟨_, -, h⟩ := Outcome.bind_eq_ok.mp h
  obtain ⟨_, -, h⟩ := Outcome.bind_eq_ok.mp h
  obtain ⟨⟨vars₁, size₁⟩, h₁, h⟩ := Outcome.bind_eq_ok.mp h
  obtain ⟨⟨vars₂, size₂⟩, h₂, h⟩ := Outcome.bind_eq_ok.mp h
  cases h
  obtain ⟨hnext₁, hcapacity₁⟩ := mathOperand_room h₁
  obtain ⟨hnext₂, hcapacity₂⟩ := mathOperand_room h₂
  exact ⟨hnext₂.trans hnext₁, hcapacity₂.trans hcapacity₁⟩

/-- Operands that are kept are read without a change. -/
lemma find_of_operandsKept {size : Option ℕ} (hkept : OperandsKept d vars args)
    (h : mathOperands d vars args = .ok (vars', size)) (x : String) :
    vars'.find x = vars.find x := by
  rcases mathOperands_find h x with hsame | ⟨hx, u, v, hu, hv, c, m, hfetched, hc, hm, rfl⟩
  · exact hsame
  · obtain ⟨hmaterialized, hval⟩ := hkept x u c m hx hu hfetched hc hm
    rw [hv, hu, ← hmaterialized, ← hval]

/-- Initializing a variable fills the list by one name at most. -/
lemma initializeVariableTypes_room {name : String} {isMaterialized isId : Bool} {size : ℕ}
    {v : SessionVar}
    (h : initializeVariableTypes vars name isMaterialized size isId = .ok (vars', v))
    (hmoves : vars.moves name = false) :
    vars'.capacity = vars.capacity ∧ (vars'.next = vars.next ∨
      vars.find name = none ∧ vars'.next = vars.next + 1) := by
  obtain ⟨found, hfound, h⟩ := Outcome.bind_eq_ok.mp h
  rw [findVariable] at hfound
  split_ifs at hfound
  cases hfound
  cases hfind : vars.find name with
  | some w =>
      simp only [hfind] at h
      cases h
      exact ⟨rfl, Or.inl rfl⟩
  | none =>
      simp only [hfind] at h
      split_ifs at h
      cases h
      have hfull : vars.next ≠ vars.capacity := by
        simpa [Vars.moves, hfind] using hmoves
      exact ⟨if_neg hfull, Or.inr ⟨rfl, rfl⟩⟩

/-- **A math command that keeps its operands** changes the variables at the name of its result
only. -/
theorem mathCommand_agreeOff {op : ℤ → ℤ → Outcome ℤ} (hkept : OperandsKept d vars args)
    (h : mathCommand op d vars true args = .ok vars') {k : ℕ}
    (hroom : vars.find args.var ≠ none ∨ vars'.next + k ≤ vars'.capacity) :
    AgreeOff args.var k vars' vars := by
  obtain ⟨-, vars₁, vars₂, vals, hoperands, hmoves, hinit, -, rfl⟩ := mathCommand_ok h
  obtain ⟨-, -, hother⟩ := initializeVariableTypes_bound hinit
  obtain ⟨hcapacity, hnext⟩ := initializeVariableTypes_room hinit hmoves
  obtain ⟨hnext₁, hcapacity₁⟩ := mathOperands_room hoperands
  have hfind := find_of_operandsKept hkept hoperands
  refine ⟨fun x hx => ?_, ?_⟩
  · rw [Vars.find_set_of_ne hx, hother x hx, hfind x]
  · change vars₂.next = vars.next ∧ vars₂.capacity = vars.capacity ∨
      vars₂.next + k ≤ vars₂.capacity ∧ vars.next + k ≤ vars.capacity
    change _ ∨ vars₂.next + k ≤ vars₂.capacity at hroom
    rw [hcapacity, hcapacity₁] at hroom ⊢
    rcases hnext with hnext | ⟨hnew, hnext⟩
    · exact Or.inl ⟨hnext.trans hnext₁, rfl⟩
    · have hfull := hroom.resolve_left (not_not.mpr ((hfind _).symm.trans hnew))
      exact Or.inr ⟨hfull, by omega⟩

end Operands

/-- **Later answers.** A math command whose operands are computed, or cached before with the values
that are read now, is not seen by what comes after it: every later run that does not name its
result ends in the same way, with the same answers, the same columns, and the same variables but
for the result, as long as the list of variables has room for what the run binds. -/
theorem kept_operands_answer {n : Node} {d : Disk} {vars vars' : Vars} {args : InputArgs}
    {op : ℤ → ℤ → Outcome ℤ} (hmath : mathCommand op d vars true args = .ok vars')
    (hkept : OperandsKept d vars args) (qs : List SessionStep)
    (hnames : ∀ q ∈ qs, args.var ∉ q.names)
    (hroom : vars.find args.var ≠ none ∨
      vars'.next + (qs.map SessionStep.binds).sum ≤ vars'.capacity) :
    Related (SameOff args.var 0) (runAll n qs d vars') (runAll n qs d vars) :=
  runAll_agree qs (by rw [Nat.zero_add]; exact mathCommand_agreeOff hkept hmath hroom) hnames

/-- `r=add(x,w)`. -/
def addArgs : InputArgs :=
  { var := "r", command := .add, argOne := "x", argTwo := "w", argThree := "" }

/-- A variable over one row that was cached. -/
def cachedVar : SessionVar :=
  { newVariable false 1 false with
    isFetched := true, isMaterialized := true, bv := markAllBv (createBv 1)
    fetchedCol := some "a", val := .live [5] }

/-- Two cached variables. -/
def cachedVars : Vars := (Vars.create.append "x" cachedVar).append "w" cachedVar

lemma operandsKept_cachedVars : OperandsKept oneRowDisk cachedVars addArgs := by
  have hcol : loadCol oneRowDisk cachedVar = .ok oneRowColumn := rfl
  have hvals : fetchMatchedFromBv oneRowColumn.data cachedVar.bv = .ok [5] := rfl
  have hkept : ∀ v c m, some cachedVar = some v → loadCol oneRowDisk v = .ok c →
      fetchMatchedFromBv c.data v.bv = .ok m → v.isMaterialized = true ∧ v.val = .live m := by
    intro v c m hv hc hm
    cases hv
    obtain rfl := Except.ok.inj (hcol.symm.trans hc)
    obtain rfl := Except.ok.inj (hvals.symm.trans hm)
    exact ⟨rfl, rfl⟩
  rintro x v c m (rfl | rfl) hv _ hc hm
  · have hx : cachedVars.find "x" = some cachedVar := rfl
    exact hkept v c m (hx.symm.trans hv) hc hm
  · have hw : cachedVars.find "w" = some cachedVar := rfl
    exact hkept v c m (hw.symm.trans hv) hc hm

/-- `kept_operands_answer` at two cached operands, and a COUNT of one of them. -/
theorem cachedVars_count_answer :
    ∃ vars', mathCommand (fun a b => .ok (fptrAdd a b)) oneRowDisk cachedVars true addArgs
        = .ok vars' ∧
      Related (SameOff "r" 0) (runAll .zero [.call true countXArgs] oneRowDisk vars')
        (runAll .zero [.call true countXArgs] oneRowDisk cachedVars) := by
  have hmath : mathCommand (fun a b => .ok (fptrAdd a b)) oneRowDisk cachedVars true addArgs
      = .ok _ := rfl
  exact ⟨_, hmath, kept_operands_answer hmath operandsKept_cachedVars [.call true countXArgs]
    (by decide) (Or.inr (by decide))⟩

/-! ### An operand that is cached for the first time -/

/-- Without values a variable has the size zero. -/
lemma valSize_of_not_materialized {n : Node} {d₀ d : Disk} {vars : Vars}
    (hrun : SessionRun n (fun _ _ _ => True) d₀ d vars) :
    ∀ x v, vars.find x = some v → v.isMaterialized = false → v.valSize = 0 := by
  refine hrun.inv fun d vars q _ hsize x v hchange => ?_
  have hbound : ∀ size isId, (vars.bound x false size isId).isMaterialized = false →
      (vars.bound x false size isId).valSize = 0 := by
    intro size isId
    cases hfind : vars.find x with
    | none => exact fun _ => by rw [Vars.bound_of_none hfind]; rfl
    | some w => rw [Vars.bound_of_some hfind]; exact hsize x w hfind
  cases hchange with
  | same hfind => exact hsize x v hfind
  | selected => exact hbound _ _
  | named => exact fun _ => rfl
  | @fetched args c old _ _ _ _ _ _ hv =>
      rw [fetchedVariable] at hv
      split_ifs at hv
      · obtain ⟨vals, -, hv⟩ := Outcome.bind_eq_ok.mp hv
        cases hv
        exact fun h => absurd h (by simp)
      · obtain ⟨bv, -, hv⟩ := Outcome.bind_eq_ok.mp hv
        cases hv
        exact hbound _ _
  | cached => exact fun h => absurd h (by simp)
  | @freed args c w _ _ hfind _ =>
      rw [freeAggregated]
      split_ifs
      · exact hsize x w hfind
      · exact hsize x w hfind
  | computed => exact fun h => absurd h (by simp)
  | joined => exact hbound _ _

/-- The values of a bit vector are as many as it counts. -/
lemma length_fetchMatchedFromBv {f : DataFile} {bv : BitVector} {m : List ℤ}
    (h : fetchMatchedFromBv f bv = .ok m) : m.length = bv.count := by
  obtain ⟨hread, rfl⟩ := fetchMatchedFromBv_iff.mp h
  exact length_reread hread

/-- An average of at least one value. -/
lemma aggregate_of_live {d : Disk} {v : SessionVar} {m : List ℤ} (op : ℤ → ℤ → ℤ)
    (hoperand : aggregateOperand d v = .ok (.live m, m.length)) (hne : m ≠ []) :
    ∃ x, aggregateVals d v op true = .ok x := by
  obtain ⟨x, l, rfl⟩ := List.exists_cons_of_ne_nil hne
  rw [aggregateVals, hoperand, Outcome.ok_bind]
  exact ⟨_, aggregateArray_fold op x l true⟩

/-- A fetched operand is cached. -/
lemma mathOperand_cached {d : Disk} {vars vars' : Vars} {x : String} {size : Option ℕ}
    {v : SessionVar} (h : mathOperand d vars x = .ok (vars', size)) (hv : vars.find x = some v)
    (hfetched : v.isFetched = true) : ∃ v', vars'.find x = some v' ∧ CachedFrom d v v' := by
  obtain ⟨w, hw, h⟩ := Outcome.bind_eq_ok.mp h
  obtain ⟨-, hw⟩ := getVariable_eq_ok.mp hw
  obtain rfl : v = w := Option.some.inj (hv.symm.trans hw)
  rw [if_pos hfetched] at h
  obtain ⟨c, hc, h⟩ := Outcome.bind_eq_ok.mp h
  obtain ⟨m, hm, h⟩ := Outcome.bind_eq_ok.mp h
  cases h
  exact ⟨_, Vars.find_set_self _ _ _, c, m, hfetched, hc, hm, rfl⟩

lemma mathOperands_cached {d : Disk} {vars vars' : Vars} {args : InputArgs} {x : String}
    {size : Option ℕ} {v : SessionVar} (h : mathOperands d vars args = .ok (vars', size))
    (hx : x = args.argOne ∨ x = args.argTwo) (hv : vars.find x = some v)
    (hfetched : v.isFetched = true) : ∃ v', vars'.find x = some v' ∧ CachedFrom d v v' := by
  obtain ⟨_, -, h⟩ := Outcome.bind_eq_ok.mp h
  obtain ⟨_, -, h⟩ := Outcome.bind_eq_ok.mp h
  obtain ⟨⟨vars₁, size₁⟩, h₁, h⟩ := Outcome.bind_eq_ok.mp h
  obtain ⟨⟨vars₂, size₂⟩, h₂, h⟩ := Outcome.bind_eq_ok.mp h
  cases h
  rcases hx with rfl | rfl
  · obtain ⟨w, hw, hcache⟩ := mathOperand_cached h₁ hv hfetched
    rcases mathOperand_find h₂ args.argOne with hsame | ⟨-, w', u, hw', hu, hcache'⟩
    · exact ⟨w, hsame.trans hw, hcache⟩
    · obtain rfl : w = w' := Option.some.inj (hw.symm.trans hw')
      exact ⟨u, hu, hcache.trans hcache'⟩
  · rcases mathOperand_find h₁ args.argTwo with hsame | ⟨-, v₁, w, hv₁, hw, hcache⟩
    · exact mathOperand_cached h₂ (hsame.trans hv) hfetched
    · obtain rfl : v = v₁ := Option.some.inj (hv.symm.trans hv₁)
      have hfetched' : w.isFetched = true := by
        obtain ⟨c, m, -, -, -, rfl⟩ := hcache
        exact hfetched
      obtain ⟨u, hu, hcache'⟩ := mathOperand_cached h₂ hw hfetched'
      exact ⟨u, hu, hcache.trans hcache'⟩

/-- **An operand that is cached for the first time**, and has values, has an average before the
math command and none after it, and TUPLE fails on it. -/
theorem uncached_operand_changes {n : Node} {d₀ d : Disk} {vars vars' : Vars}
    (hrun : SessionRun n (fun _ _ _ => True) d₀ d vars) {args : InputArgs}
    {op : ℤ → ℤ → Outcome ℤ} (hmath : mathCommand op d vars true args = .ok vars') {x : String}
    (hx : x = args.argOne ∨ x = args.argTwo) (hresult : x ≠ args.var) {v : SessionVar}
    (hv : vars.find x = some v) (hfetched : v.isFetched = true)
    (hcached : v.isMaterialized = false) (hcount : v.bv.count ≠ 0) :
    ∃ v' average, vars'.find x = some v' ∧ aggregateVals d v fptrAdd true = .ok average ∧
      aggregateVals d v' fptrAdd true = .error .assertion ∧
      tupleHelper d vars' [x] = .error .assertion := by
  have hsize := valSize_of_not_materialized hrun x v hv hcached
  obtain ⟨-, vars₁, vars₂, vals, hoperands, -, hinit, -, rfl⟩ := mathCommand_ok hmath
  obtain ⟨-, -, hother⟩ := initializeVariableTypes_bound hinit
  obtain ⟨v', hv', c, m, -, hc, hm, rfl⟩ := mathOperands_cached hoperands hx hv hfetched
  have hlen := length_fetchMatchedFromBv hm
  have hne : m ≠ [] := List.length_pos_iff.mp (by omega)
  have hbefore : aggregateOperand d v = .ok (.live m, m.length) := by
    rw [aggregateOperand, hc, Outcome.ok_bind, hcached, if_neg Bool.false_ne_true, hm,
      Outcome.ok_bind, hlen]
  obtain ⟨average, haverage⟩ := aggregate_of_live fptrAdd hbefore hne
  rw [← hother x hresult, ← Vars.find_set_of_ne hresult] at hv'
  refine ⟨_, average, hv', haverage, ?_, ?_⟩
  · have hfirst : (ValArray.live m).read 0 = .ok m[0] := fetch_of_lt (by omega)
    have hafter : aggregateOperand d { v with isMaterialized := true, val := .live m }
        = .ok (.live m, 0) := by
      rw [← hsize]
      change (loadCol d v >>= fun _ => _) = _
      rw [hc]
      rfl
    rw [aggregateVals, hafter, Outcome.ok_bind]
    simp only
    rw [hfirst]
    rfl
  · rw [tupleHelper, getVariable, findVariable]
    split_ifs with hname
    · rfl
    · rw [Outcome.ok_bind, hv']
      simp only [Outcome.ok_bind, if_true, hsize]
      rfl

/-- `w=fetch(a,s)`. -/
def fetchW : SessionStep :=
  .call true { var := "w", command := .fetch, argOne := "a", argTwo := "s", argThree := "" }

/-- Before `r=add(x,w)` TUPLE sends the value of `x`, and after it fails. -/
theorem add_breaks_tuple :
    ∃ d vars vars', SessionRun .zero (fun _ _ _ => True) oneRowDisk d vars ∧
      mathCommand (fun a b => .ok (fptrAdd a b)) d vars true addArgs = .ok vars' ∧
      tupleWork d vars ["x"] = .ok [5] ∧ tupleWork d vars' ["x"] = .error .assertion := by
  have hs : SessionRun .zero (fun _ _ _ => True) oneRowDisk _ _ := .step .start trivial
    (show selectS.run .zero oneRowDisk .create = .ok (_, _, _) from rfl)
  have hx := hs.step trivial (show fetchX.run .zero _ _ = .ok (_, _, _) from rfl)
  have hw := hx.step trivial (show fetchW.run .zero _ _ = .ok (_, _, _) from rfl)
  exact ⟨_, _, _, hw, rfl, rfl, rfl⟩

end ColumnDb
