import ColumnDb.Library.Related
import ColumnDb.Session.Commands

/-!
What the steps of a session read of its variables.

A step reads the variables that it names, and no others: with two lists of variables that agree
off a name, a step that does not use the name ends in the same way, with the same answer, and
leaves lists that agree off it again (`run_agree`). The lists may differ in how full they are, as
long as neither of them is moved: `AgreeOff` has the number of names that still fit.

* `SessionStep.names`: the variables that a step names.
* `SessionStep.binds`: how many variables it binds.
* `runAll`: one step after the other, with all answers.
* `runAll_agree`: the frame rule for a run.
-/

namespace ColumnDb

open Outcome (Related)

/-! ### The names in a step -/

/-- The variables that a command reads or binds. -/
def InputArgs.names (args : InputArgs) : List String :=
  match args.command with
  | .select => [args.var]
  | .fetch => [args.var, args.argTwo]
  | .update => [args.argOne]
  | .add | .sub | .div | .mul => [args.var, args.argOne, args.argTwo]
  | .count | .min | .max | .avg | .sum => [args.var, args.argOne]
  | .hashjoin | .loopjoin | .sortjoin | .treejoin =>
      args.argOne :: args.argTwo ::
        match joinNames args.var with
        | .ok (jv1, jv2) => [jv1, jv2]
        | .error _ => []
  | .create | .load | .insert | .delete | .tuple => []

/-- The variables that a step reads or binds. -/
def SessionStep.names : SessionStep → List String
  | .call _ args => args.names
  | .tuple names => names
  | .delete var _ => [var]
  | .load _ _ | .insert _ => []

/-- How many variables a command binds: its result, the two results of a join, or none. -/
def InputArgs.binds (hasVar : Bool) (args : InputArgs) : ℕ :=
  match args.command with
  | .hashjoin | .loopjoin | .sortjoin | .treejoin => 2
  | .select | .add | .sub | .div | .mul | .count | .min | .max | .avg | .sum => 1
  | .fetch => if hasVar then 1 else 0
  | .create | .load | .insert | .update | .delete | .tuple => 0

/-- How many variables a step binds. -/
def SessionStep.binds : SessionStep → ℕ
  | .call hasVar args => args.binds hasVar
  | .tuple _ | .delete _ _ | .load _ _ | .insert _ => 0

/-! ### Variables that agree off a name -/

/-- Two lists of variables agree off `r`, and they are equally full or `k` more names fit into
both of them. -/
structure AgreeOff (r : String) (k : ℕ) (vars vars' : Vars) : Prop where
  find : ∀ x, x ≠ r → vars.find x = vars'.find x
  room : vars.next = vars'.next ∧ vars.capacity = vars'.capacity ∨
    vars.next + k ≤ vars.capacity ∧ vars'.next + k ≤ vars'.capacity

namespace AgreeOff

variable {r name : String} {k : ℕ} {vars vars' : Vars} {d : Disk} {args : InputArgs}

lemma mono {j : ℕ} (hj : j ≤ k) (h : AgreeOff r k vars vars') : AgreeOff r j vars vars' where
  find := h.find
  room := h.room.imp_right fun hroom => ⟨by omega, by omega⟩

lemma set (h : AgreeOff r k vars vars') (name : String) (v : SessionVar) :
    AgreeOff r k (vars.set name v) (vars'.set name v) where
  find := fun x hx => by
    by_cases hname : x = name
    · rw [hname, Vars.find_set_self, Vars.find_set_self]
    · rw [Vars.find_set_of_ne hname, Vars.find_set_of_ne hname, h.find x hx]
  room := h.room

lemma append (h : AgreeOff r (k + 1) vars vars') (name : String) (v : SessionVar) :
    AgreeOff r k (vars.append name v) (vars'.append name v) where
  find := fun x hx => by
    by_cases hname : x = name
    · rw [hname, Vars.find_append_self, Vars.find_append_self]
    · rw [Vars.find_append_of_ne hname, Vars.find_append_of_ne hname, h.find x hx]
  room := by
    rcases h.room with ⟨hnext, hcapacity⟩ | ⟨hroom, hroom'⟩
    · refine Or.inl ⟨?_, ?_⟩
      · change vars.next + 1 = vars'.next + 1
        rw [hnext]
      · simp only [Vars.append, hnext, hcapacity]
    · refine Or.inr ⟨?_, ?_⟩
      · simp only [Vars.append, if_neg (show vars.next ≠ vars.capacity by omega)]
        omega
      · simp only [Vars.append, if_neg (show vars'.next ≠ vars'.capacity by omega)]
        omega

lemma moves (h : AgreeOff r (k + 1) vars vars') (hname : name ≠ r) :
    vars.moves name = vars'.moves name := by
  rw [Vars.moves, Vars.moves, h.find name hname]
  rcases h.room with ⟨hnext, hcapacity⟩ | ⟨hroom, hroom'⟩
  · rw [hnext, hcapacity]
  · rw [beq_false_of_ne (show vars.next ≠ vars.capacity by omega),
      beq_false_of_ne (show vars'.next ≠ vars'.capacity by omega)]

lemma findVariable (h : AgreeOff r k vars vars') (hname : name ≠ r) :
    findVariable vars name = findVariable vars' name := by
  rw [ColumnDb.findVariable, ColumnDb.findVariable, h.find name hname]

lemma getVariable (h : AgreeOff r k vars vars') (hname : name ≠ r) :
    getVariable vars name = getVariable vars' name := by
  rw [ColumnDb.getVariable, ColumnDb.getVariable, h.findVariable hname]

/-- Initializing a variable returns the same one. -/
lemma initializeVariableTypes (h : AgreeOff r (k + 1) vars vars') (hname : name ≠ r)
    (isMaterialized : Bool) (size : ℕ) (isId : Bool) :
    Related (fun a b => AgreeOff r k a.1 b.1 ∧ a.2 = b.2)
      (initializeVariableTypes vars name isMaterialized size isId)
      (initializeVariableTypes vars' name isMaterialized size isId) := by
  rw [ColumnDb.initializeVariableTypes, ColumnDb.initializeVariableTypes, h.findVariable hname]
  refine Related.bind_same fun found _ => ?_
  cases found with
  | some v => exact .ok ⟨h.mono (Nat.le_succ k), rfl⟩
  | none =>
      simp only
      split_ifs
      · exact .error _
      · exact .ok ⟨h.append name _, rfl⟩

/-! ### The commands -/

lemma selectCommand (h : AgreeOff r (k + 1) vars vars') (hvar : args.var ≠ r) (hasVar : Bool) :
    Related (AgreeOff r k) (selectCommand d vars hasVar args)
      (selectCommand d vars' hasVar args) := by
  rw [ColumnDb.selectCommand, ColumnDb.selectCommand]
  split_ifs
  · refine Related.bind_same fun c _ => ?_
    refine (h.initializeVariableTypes hvar false c.data.m.size false).bind ?_
    rintro ⟨vars₁, v⟩ ⟨vars₁', v'⟩ ⟨h₁, rfl⟩
    exact Related.bind_same fun bv _ => .ok (h₁.set _ _)
  · exact .error _

lemma fetchIntoVariable (h : AgreeOff r (k + 1) vars vars') (hvar : args.var ≠ r)
    (htwo : args.argTwo ≠ r) :
    Related (AgreeOff r k) (fetchIntoVariable d vars args) (fetchIntoVariable d vars' args) := by
  rw [ColumnDb.fetchIntoVariable, ColumnDb.fetchIntoVariable]
  refine Related.bind_same fun c _ => ?_
  split_ifs
  · exact .error _
  all_goals
    refine (h.initializeVariableTypes hvar false c.data.m.size false).bind ?_
    rintro ⟨vars₁, v⟩ ⟨vars₁', v'⟩ ⟨h₁, rfl⟩
  · exact .ok h₁
  · simp only
    rw [h₁.getVariable htwo]
    exact Related.bind_same fun old _ => Related.bind_same fun w _ => .ok (h₁.set _ _)

lemma fetchReply (h : AgreeOff r k vars vars') (htwo : args.argTwo ≠ r) :
    fetchReply d vars args = fetchReply d vars' args := by
  rw [ColumnDb.fetchReply, ColumnDb.fetchReply, h.findVariable htwo]

lemma updateCommand (h : AgreeOff r k vars vars') (hone : args.argOne ≠ r) :
    updateCommand d vars args = updateCommand d vars' args := by
  rw [ColumnDb.updateCommand, ColumnDb.updateCommand, h.getVariable hone]

lemma mathOperand (h : AgreeOff r k vars vars') (hname : name ≠ r) :
    Related (fun a b => AgreeOff r k a.1 b.1 ∧ a.2 = b.2)
      (mathOperand d vars name) (mathOperand d vars' name) := by
  rw [ColumnDb.mathOperand, ColumnDb.mathOperand, h.getVariable hname]
  refine Related.bind_same fun v _ => ?_
  split_ifs
  · exact Related.bind_same fun c _ => Related.bind_same fun m _ => .ok ⟨h.set _ _, rfl⟩
  · exact .ok ⟨h, rfl⟩
  · exact .error _

lemma mathOperands (h : AgreeOff r k vars vars') (hone : args.argOne ≠ r)
    (htwo : args.argTwo ≠ r) :
    Related (fun a b => AgreeOff r k a.1 b.1 ∧ a.2 = b.2)
      (mathOperands d vars args) (mathOperands d vars' args) := by
  rw [ColumnDb.mathOperands, ColumnDb.mathOperands, h.findVariable hone, h.findVariable htwo]
  refine Related.bind_same fun _ _ => Related.bind_same fun _ _ => ?_
  refine (h.mathOperand hone).bind ?_
  rintro ⟨vars₁, size⟩ ⟨vars₁', size'⟩ ⟨h₁, rfl⟩
  refine (h₁.mathOperand htwo).bind ?_
  rintro ⟨vars₂, size₂⟩ ⟨vars₂', size₂'⟩ ⟨h₂, rfl⟩
  exact .ok ⟨h₂, rfl⟩

lemma mathCommand (h : AgreeOff r (k + 1) vars vars') (hvar : args.var ≠ r)
    (hone : args.argOne ≠ r) (htwo : args.argTwo ≠ r) (op : ℤ → ℤ → Outcome ℤ) (hasVar : Bool) :
    Related (AgreeOff r k) (mathCommand op d vars hasVar args)
      (mathCommand op d vars' hasVar args) := by
  rw [ColumnDb.mathCommand, ColumnDb.mathCommand]
  split_ifs
  · refine (h.mathOperands hone htwo).bind ?_
    rintro ⟨vars₁, size⟩ ⟨vars₁', size'⟩ ⟨h₁, rfl⟩
    cases size with
    | none => exact .error _
    | some size =>
        simp only
        rw [h₁.moves hvar, h₁.getVariable hone, h₁.getVariable htwo]
        split_ifs
        · exact .error _
        · refine Related.bind_same fun v₁ _ => Related.bind_same fun v₂ _ => ?_
          refine (h₁.initializeVariableTypes hvar true 0 false).bind ?_
          rintro ⟨vars₂, v⟩ ⟨vars₂', v'⟩ ⟨h₂, rfl⟩
          exact Related.bind_same fun vals _ => .ok (h₂.set _ _)
  · exact .error _

lemma bindValue (h : AgreeOff r (k + 1) vars vars') (hname : name ≠ r) (x : ℤ) :
    Related (AgreeOff r k) (bindValue vars name x) (bindValue vars' name x) := by
  refine (h.initializeVariableTypes hname true 0 false).bind ?_
  rintro ⟨vars₁, v⟩ ⟨vars₁', v'⟩ ⟨h₁, rfl⟩
  exact .ok (h₁.set _ _)

lemma countCommand (h : AgreeOff r (k + 1) vars vars') (hvar : args.var ≠ r)
    (hone : args.argOne ≠ r) (hasVar : Bool) :
    Related (AgreeOff r k) (countCommand vars hasVar args) (countCommand vars' hasVar args) := by
  rw [ColumnDb.countCommand, ColumnDb.countCommand, h.getVariable hone]
  split_ifs
  · exact Related.bind_same fun v _ => h.bindValue hvar _
  · exact .error _

lemma aggregateCommand (h : AgreeOff r (k + 1) vars vars') (hvar : args.var ≠ r)
    (hone : args.argOne ≠ r) (op : ℤ → ℤ → ℤ) (isAvg hasVar : Bool) :
    Related (AgreeOff r k) (aggregateCommand op isAvg d vars hasVar args)
      (aggregateCommand op isAvg d vars' hasVar args) := by
  rw [ColumnDb.aggregateCommand, ColumnDb.aggregateCommand, h.getVariable hone]
  split_ifs
  · exact Related.bind_same fun v _ => Related.bind_same fun value _ =>
      (h.set _ _).bindValue hvar _
  · exact .error _

lemma appendIds (h : AgreeOff r k vars vars') (hname : name ≠ r) (new : List ℕ) :
    Related (AgreeOff r k) (appendIds vars name new) (appendIds vars' name new) := by
  rw [ColumnDb.appendIds, ColumnDb.appendIds, h.getVariable hname]
  refine Related.bind_same fun v _ => ?_
  cases v.ids with
  | some ids => exact Related.bind_same fun l _ => .ok (h.set _ _)
  | none =>
      simp only
      split_ifs
      · exact .ok h
      · exact .error _

lemma appendJoin {jv1 jv2 : String} (h : AgreeOff r k vars vars') (hjv1 : jv1 ≠ r)
    (hjv2 : jv2 ≠ r) (swap : Bool) (ids : JoinIds) :
    Related (AgreeOff r k) (appendJoin vars jv1 jv2 swap ids)
      (appendJoin vars' jv1 jv2 swap ids) := by
  rw [ColumnDb.appendJoin, ColumnDb.appendJoin]
  by_cases hsame : jv1 = jv2
  · rw [if_pos hsame, if_pos hsame]
    exact h.appendIds hjv1 _
  · rw [if_neg hsame, if_neg hsame]
    exact (h.appendIds hjv1 _).bind fun _ _ h₁ => h₁.appendIds hjv2 _

lemma resetIds (h : AgreeOff r k vars vars') (hname : name ≠ r) :
    Related (AgreeOff r k) (resetIds vars name) (resetIds vars' name) := by
  rw [ColumnDb.resetIds, ColumnDb.resetIds, h.getVariable hname]
  exact Related.bind_same fun v _ => .ok (h.set _ _)

lemma joinSides {command : Command} {jv1 jv2 : String} {c1 c2 : Column} {v1 v2 : SessionVar}
    (h : AgreeOff r k vars vars') (hjv1 : jv1 ≠ r) (hjv2 : jv2 ≠ r) :
    Related (AgreeOff r k) (joinSides vars command jv1 jv2 c1 c2 v1 v2)
      (joinSides vars' command jv1 jv2 c1 c2 v1 v2) := by
  rw [ColumnDb.joinSides, ColumnDb.joinSides]
  refine Related.bind_same fun m0 _ => ?_
  cases command with
  | loopjoin =>
      refine Related.bind_same fun m1 _ => ?_
      refine (h.resetIds hjv1).bind fun _ _ h₁ => ?_
      exact (h₁.resetIds hjv2).bind fun _ _ h₂ => Related.bind_same fun ids _ =>
        h₂.appendJoin hjv1 hjv2 _ _
  | sortjoin | hashjoin =>
      exact Related.bind_same fun m1 _ => Related.bind_same fun ids _ =>
        h.appendJoin hjv1 hjv2 _ _
  | _ =>
      simp only
      split_ifs
      all_goals
        exact Related.bind_same fun m1 _ => Related.bind_same fun ids _ =>
          h.appendJoin hjv1 hjv2 _ _

lemma joinCommand (h : AgreeOff r (k + 2) vars vars') (hone : args.argOne ≠ r)
    (htwo : args.argTwo ≠ r)
    (hjvs : ∀ jvs, joinNames args.var = .ok jvs → jvs.1 ≠ r ∧ jvs.2 ≠ r) :
    Related (AgreeOff r k) (joinCommand d vars args) (joinCommand d vars' args) := by
  rw [ColumnDb.joinCommand, ColumnDb.joinCommand, h.getVariable hone, h.getVariable htwo]
  refine Related.bind_same fun jvs hjv => ?_
  obtain ⟨jv1, jv2⟩ := jvs
  obtain ⟨hjv1, hjv2⟩ := hjvs _ hjv
  refine Related.bind_same fun v1 _ => Related.bind_same fun c1 _ => ?_
  refine Related.bind_same fun v2 _ => Related.bind_same fun c2 _ => ?_
  rw [h.moves hjv1]
  split_ifs
  · exact .error _
  · refine (h.initializeVariableTypes hjv1 false 0 true).bind ?_
    rintro ⟨vars₁, w₁⟩ ⟨vars₁', w₁'⟩ ⟨h₁, rfl⟩
    simp only
    rw [h₁.moves hjv2]
    split_ifs
    · exact .error _
    · refine (h₁.initializeVariableTypes hjv2 false 0 true).bind ?_
      rintro ⟨vars₂, w₂⟩ ⟨vars₂', w₂'⟩ ⟨h₂, rfl⟩
      exact h₂.joinSides hjv1 hjv2

/-! ### Tuples -/

lemma tupleValues (h : AgreeOff r k vars vars') (hname : name ≠ r) (rowNum : ℕ) :
    tupleValues vars rowNum name = tupleValues vars' rowNum name := by
  rw [ColumnDb.tupleValues, ColumnDb.tupleValues, h.getVariable hname]

lemma tupleColumn (h : AgreeOff r k vars vars') (hname : name ≠ r) (maxRow : ℕ)
    (result : DynList ℤ) :
    tupleColumn d vars maxRow result name = tupleColumn d vars' maxRow result name := by
  rw [ColumnDb.tupleColumn, ColumnDb.tupleColumn, h.findVariable hname]

lemma tupleWork {names : List String} (h : AgreeOff r k vars vars') (hnames : r ∉ names) :
    tupleWork d vars names = tupleWork d vars' names := by
  have hvalues : ∀ rowNum, ∀ l : List String, r ∉ l →
      l.mapM (ColumnDb.tupleValues vars rowNum) = l.mapM (ColumnDb.tupleValues vars' rowNum) := by
    intro rowNum l
    induction l with
    | nil => exact fun _ => rfl
    | cons name l ih =>
        intro hl
        obtain ⟨hname, hl⟩ := not_or.mp (mt List.mem_cons.mpr hl)
        rw [List.mapM_cons, List.mapM_cons, h.tupleValues (Ne.symm hname), ih hl]
  have hcolumns : ∀ maxRow, ∀ l : List String, r ∉ l → ∀ result,
      l.foldlM (ColumnDb.tupleColumn d vars maxRow) result
        = l.foldlM (ColumnDb.tupleColumn d vars' maxRow) result := by
    intro maxRow l
    induction l with
    | nil => exact fun _ _ => rfl
    | cons name l ih =>
        intro hl result
        obtain ⟨hname, hl⟩ := not_or.mp (mt List.mem_cons.mpr hl)
        rw [List.foldlM_cons, List.foldlM_cons, h.tupleColumn (Ne.symm hname)]
        exact congrArg _ (funext fun result' => ih hl result')
  have hhelper : tupleHelper d vars names = tupleHelper d vars' names := by
    cases names with
    | nil => rfl
    | cons first rest =>
        obtain ⟨hfirst, -⟩ := not_or.mp (mt List.mem_cons.mpr hnames)
        rw [tupleHelper, tupleHelper, h.getVariable (Ne.symm hfirst)]
        simp only [hvalues _ _ hnames, hcolumns _ _ hnames]
  rw [ColumnDb.tupleWork, ColumnDb.tupleWork, hhelper]

end AgreeOff

/-! ### Steps and runs -/

/-- The same columns and the same answer, and variables that agree off `r`. -/
def SameOff {α : Type} (r : String) (k : ℕ) (a b : Disk × Vars × α) : Prop :=
  a.1 = b.1 ∧ AgreeOff r k a.2.1 b.2.1 ∧ a.2.2 = b.2.2

section Steps

variable {n : Node} {r : String} {k : ℕ} {vars vars' : Vars} {d : Disk}

/-- **The frame rule for a command.** -/
theorem runCall_agree {hasVar : Bool} {args : InputArgs}
    (h : AgreeOff r (k + args.binds hasVar) vars vars') (hnames : r ∉ args.names) :
    Related (SameOff r k) (runCall d vars hasVar args) (runCall d vars' hasVar args) := by
  have h₀ : AgreeOff r k vars vars' := h.mono (Nat.le_add_right k _)
  have hsilent : ∀ {x y : Outcome Vars}, Related (AgreeOff r k) x y →
      Related (SameOff r k) (x >>= fun w => .ok (d, w, (none : Option (List ℤ))))
        (y >>= fun w => .ok (d, w, none)) :=
    fun hxy => hxy.bind fun _ _ h' => .ok ⟨rfl, h', rfl⟩
  rw [runCall, runCall]
  rw [InputArgs.names] at hnames
  rw [InputArgs.binds] at h
  cases hcommand : args.command with
  | create => exact Related.bind_same fun d' _ => .ok ⟨rfl, h₀, rfl⟩
  | load | tuple | insert | delete => exact .ok ⟨rfl, h₀, rfl⟩
  | select =>
      simp only [hcommand, List.mem_cons, List.not_mem_nil, or_false] at h hnames
      exact hsilent (h.selectCommand (Ne.symm hnames) hasVar)
  | fetch =>
      simp only [hcommand, List.mem_cons, List.not_mem_nil, or_false, not_or] at h hnames
      simp only
      split_ifs with hvar
      · rw [if_pos hvar] at h
        exact hsilent (h.fetchIntoVariable (Ne.symm hnames.1) (Ne.symm hnames.2))
      · rw [h₀.fetchReply (Ne.symm hnames.2)]
        exact Related.bind_same fun vals _ => .ok ⟨rfl, h₀, rfl⟩
  | update =>
      simp only [hcommand, List.mem_cons, List.not_mem_nil, or_false] at hnames
      simp only
      rw [h₀.updateCommand (Ne.symm hnames)]
      exact Related.bind_same fun d' _ => .ok ⟨rfl, h₀, rfl⟩
  | add | sub | div | mul =>
      simp only [hcommand, List.mem_cons, List.not_mem_nil, or_false, not_or] at h hnames
      exact hsilent (h.mathCommand (Ne.symm hnames.1) (Ne.symm hnames.2.1) (Ne.symm hnames.2.2)
        _ hasVar)
  | count =>
      simp only [hcommand, List.mem_cons, List.not_mem_nil, or_false, not_or] at h hnames
      exact hsilent (h.countCommand (Ne.symm hnames.1) (Ne.symm hnames.2) hasVar)
  | min | max | avg | sum =>
      simp only [hcommand, List.mem_cons, List.not_mem_nil, or_false, not_or] at h hnames
      exact hsilent (h.aggregateCommand (Ne.symm hnames.1) (Ne.symm hnames.2) _ _ hasVar)
  | hashjoin | loopjoin | sortjoin | treejoin =>
      simp only [hcommand, List.mem_cons, not_or] at h hnames
      refine hsilent (h.joinCommand (Ne.symm hnames.1) (Ne.symm hnames.2.1) fun jvs hjvs => ?_)
      have hjoin := hnames.2.2
      simp only [hjvs, List.mem_cons, List.not_mem_nil, or_false, not_or] at hjoin
      exact ⟨Ne.symm hjoin.1, Ne.symm hjoin.2⟩

/-- **The frame rule for a step.** -/
theorem run_agree {q : SessionStep} (h : AgreeOff r (k + q.binds) vars vars')
    (hnames : r ∉ q.names) : Related (SameOff r k) (q.run n d vars) (q.run n d vars') := by
  have h₀ : AgreeOff r k vars vars' := h.mono (Nat.le_add_right k _)
  cases q with
  | call hasVar args => exact runCall_agree h hnames
  | load | insert => exact Related.bind_same fun d' _ => .ok ⟨rfl, h₀, rfl⟩
  | tuple names =>
      change r ∉ names at hnames
      rw [SessionStep.run, SessionStep.run, h₀.tupleWork hnames]
      exact Related.bind_same fun vals _ => .ok ⟨rfl, h₀, rfl⟩
  | delete var colNames =>
      have hvar : var ≠ r := fun heq => hnames (heq ▸ List.mem_singleton_self var)
      rw [SessionStep.run, SessionStep.run, h₀.getVariable hvar]
      exact Related.bind_same fun v _ => Related.bind_same fun pos _ =>
        Related.bind_same fun d' _ => .ok ⟨rfl, h₀, rfl⟩

/-- The steps of a list, one after the other, with the answer of each. -/
def runAll (n : Node) : List SessionStep → Disk → Vars →
    Outcome (Disk × Vars × List (Option (List ℤ)))
  | [], d, vars => .ok (d, vars, [])
  | q :: qs, d, vars => do
      let (d, vars, reply) ← q.run n d vars
      let (d, vars, replies) ← runAll n qs d vars
      .ok (d, vars, reply :: replies)

/-- **The frame rule for a run.** -/
theorem runAll_agree (qs : List SessionStep) : ∀ {d : Disk} {vars vars' : Vars},
    AgreeOff r (k + (qs.map SessionStep.binds).sum) vars vars' → (∀ q ∈ qs, r ∉ q.names) →
    Related (SameOff r k) (runAll n qs d vars) (runAll n qs d vars') := by
  induction qs with
  | nil => exact fun h _ => .ok ⟨rfl, h, rfl⟩
  | cons q qs ih =>
      intro d vars vars' h hnames
      have hstep : AgreeOff r (k + (qs.map SessionStep.binds).sum + q.binds) vars vars' :=
        h.mono (by rw [List.map_cons, List.sum_cons]; omega)
      rw [runAll, runAll]
      refine (run_agree hstep (hnames q List.mem_cons_self)).bind ?_
      rintro ⟨d₁, vars₁, reply⟩ ⟨d₁', vars₁', reply'⟩ ⟨rfl, h₁, rfl⟩
      refine (ih h₁ fun q' hq' => hnames q' (List.mem_cons_of_mem _ hq')).bind ?_
      rintro ⟨d₂, vars₂, replies⟩ ⟨d₂', vars₂', replies'⟩ ⟨rfl, h₂, rfl⟩
      exact .ok ⟨rfl, h₂, rfl⟩

end Steps

end ColumnDb
