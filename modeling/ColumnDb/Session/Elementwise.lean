import ColumnDb.Session.Fetching

/-!
The element-wise operations of the math commands (`helper_math_command.c`, `worker.c`).

ADD, SUB, MUL and DIV know the number of their values from the bit vector of an operand that was
fetched, the second one before the first: a computed operand says nothing about it. Every fetched
operand is read again through its bit vector, also when its values came from row ids.

* `fptr_iff`: the operations are those of wrapping numbers, but for one quotient.
* `mathOperands_iff`: what a math command reads of its operands, and when it can.
* `seenValues_getElem?`: an operand that is computed, or fetched through a bit vector, is seen with
  its own values.
* `mathCommand_binds_iff`: when a math command computes the element-wise operation, for any values.
* `mathCommand_elementwise_iff`: the same for operands of each kind, and what a chain of math
  commands computes.
-/

namespace ColumnDb

/-! ### The operations -/

/-- The values of a list are `int`s. -/
def FitsInt (vals : List ℤ) : Prop := ∀ x ∈ vals, -2 ^ 31 ≤ x ∧ x < 2 ^ 31

namespace Command

/-- The operation of a math command on wrapping numbers; a division by zero gives zero. -/
def elementwise : Command → ℤ → ℤ → ℤ
  | add, a, b => toInt32 (a + b)
  | sub, a, b => toInt32 (a - b)
  | mul, a, b => toInt32 (a * b)
  | div, a, b => if b = 0 then 0 else toInt32 (a.tdiv b)
  | _, _, _ => 0

/-- The function that the worker passes to `math_op_on_var`. -/
def fptr : Command → ℤ → ℤ → Outcome ℤ
  | add, a, b => .ok (fptrAdd a b)
  | sub, a, b => .ok (fptrSub a b)
  | mul, a, b => .ok (fptrMul a b)
  | div, a, b => fptrDiv a b
  | _, _, _ => .error .undefined

end Command

/-- The dispatch on a math command. -/
lemma runCall_math {args : InputArgs} (hmath : args.command.isMath = true) (d : Disk) (vars : Vars)
    (hasVar : Bool) : runCall d vars hasVar args
      = mathCommand args.command.fptr d vars hasVar args >>= fun vars' => .ok (d, vars', none) := by
  rw [runCall]
  cases hcommand : args.command with
  | add | sub | div | mul => rfl
  | _ =>
      rw [hcommand] at hmath
      cases hmath

lemma elementwise_range (c : Command) (a b : ℤ) :
    -2 ^ 31 ≤ c.elementwise a b ∧ c.elementwise a b < 2 ^ 31 := by
  cases c with
  | add | sub | mul => exact toInt32_range _
  | div =>
      rw [Command.elementwise]
      split_ifs
      · decide
      · exact toInt32_range _
  | _ => exact show (-2 ^ 31 : ℤ) ≤ 0 ∧ (0 : ℤ) < 2 ^ 31 by decide

/-- The quotient of two `int`s is an `int`, but for one. -/
lemma tdiv_range {a b : ℤ} (ha : -2 ^ 31 ≤ a ∧ a < 2 ^ 31) (hab : ¬ (a = -2 ^ 31 ∧ b = -1)) :
    -2 ^ 31 ≤ a.tdiv b ∧ a.tdiv b < 2 ^ 31 := by
  have habs : (a.tdiv b).natAbs = a.natAbs / b.natAbs := Int.natAbs_tdiv a b
  rcases Nat.lt_or_ge b.natAbs 2 with hsmall | hlarge
  · obtain rfl | rfl | rfl : b = 0 ∨ b = 1 ∨ b = -1 := by omega
    · rw [Int.tdiv_zero]
      decide
    · rwa [Int.tdiv_one]
    · rw [Int.tdiv_neg, Int.tdiv_one]
      omega
  · have hhalf : a.natAbs / b.natAbs ≤ a.natAbs / 2 := Nat.div_le_div_left hlarge (by decide)
    omega

/-- **The operations of the code** are the wrapping ones, but for the quotient that is no `int`. -/
theorem fptr_iff {c : Command} (hmath : c.isMath = true) {a : ℤ} (ha : -2 ^ 31 ≤ a ∧ a < 2 ^ 31)
    (b : ℤ) :
    c.fptr a b = .ok (c.elementwise a b) ↔ ¬ (c = .div ∧ a = -2 ^ 31 ∧ b = -1) := by
  cases c with
  | add | sub | mul => exact iff_of_true rfl (fun h => nomatch h.1)
  | div =>
      rw [Command.fptr, Command.elementwise, fptrDiv]
      by_cases hzero : b = 0
      · rw [if_pos hzero, if_pos hzero]
        exact iff_of_true rfl fun h => by omega
      · rw [if_neg hzero, if_neg hzero]
        by_cases hab : a = -2 ^ 31 ∧ b = -1
        · rw [if_pos hab]
          exact iff_of_false nofun (not_not.mpr ⟨rfl, hab⟩)
        · rw [if_neg hab, toInt32_of_range (tdiv_range ha hab)]
          exact iff_of_true rfl fun h => hab h.2
  | _ => cases hmath

/-! ### The values of a loop -/

/-- The function of a command makes of `m₁` and `m₂` what the operation makes of `xs` and `ys`. -/
def SameResults (c : Command) (m₁ m₂ xs ys : List ℤ) : Prop :=
  ∀ i < xs.length, ∃ a b x y, m₁[i]? = some a ∧ m₂[i]? = some b ∧ xs[i]? = some x ∧
    ys[i]? = some y ∧ c.fptr a b = .ok (c.elementwise x y)

/-- `math_op_on_var` gives the element-wise operation exactly when every turn does. -/
lemma mathOpOnVar_elementwise_iff {c : Command} {m₁ m₂ xs ys : List ℤ}
    (hlen : xs.length = ys.length) :
    mathOpOnVar c.fptr xs.length (.live m₁) (.live m₂)
        = .ok (List.zipWith c.elementwise xs ys) ↔ SameResults c m₁ m₂ xs ys := by
  have hzip : (List.zipWith c.elementwise xs ys).length = xs.length := by
    rw [List.length_zipWith, hlen, min_self]
  have hread : ∀ {m : List ℤ} {i : ℕ} {a : ℤ}, (ValArray.live m).read i = .ok a ↔ m[i]? = some a :=
    fetch_eq_ok
  rw [mathOpOnVar, Outcome.mapM_eq_ok, List.forall₂_iff_get]
  constructor
  · rintro ⟨-, h⟩ i hi
    have hturn := h i (by rwa [List.length_range]) (by rwa [hzip])
    obtain ⟨a, ha, hturn⟩ := Outcome.bind_eq_ok.mp hturn
    obtain ⟨b, hb, hturn⟩ := Outcome.bind_eq_ok.mp hturn
    rw [List.get_eq_getElem, List.getElem_range] at ha hb
    rw [List.get_eq_getElem, List.getElem_zipWith] at hturn
    exact ⟨a, b, _, _, hread.mp ha, hread.mp hb, List.getElem?_eq_getElem hi,
      List.getElem?_eq_getElem (hlen ▸ hi), hturn⟩
  · intro h
    refine ⟨by rw [List.length_range, hzip], fun i hi hi' => ?_⟩
    obtain ⟨a, b, x, y, ha, hb, hx, hy, hturn⟩ := h i (by rwa [hzip] at hi')
    obtain ⟨_, rfl⟩ := List.getElem?_eq_some_iff.mp hx
    obtain ⟨_, rfl⟩ := List.getElem?_eq_some_iff.mp hy
    rw [List.get_eq_getElem, List.getElem_range, List.get_eq_getElem, hread.mpr ha,
      Outcome.ok_bind, hread.mpr hb, Outcome.ok_bind, hturn, List.getElem_zipWith]

/-! ### The operands -/

namespace SessionVar

/-- A fetched variable can be read through its bit vector. -/
def Rereads (d : Disk) (v : SessionVar) : Prop :=
  v.isFetched = true → ∃ c, loadCol d v = .ok c ∧ Readable c.data v.bv

/-- The values that a math command sees of an operand. -/
def seenValues (d : Disk) (v : SessionVar) : List ℤ :=
  if v.isFetched then
    match loadCol d v with
    | .ok c => reread c.data v.bv
    | .error _ => []
  else
    match v.val with
    | .live vals => vals
    | _ => []

/-- An operand of a math command after it was read. -/
def cached (d : Disk) (v : SessionVar) : SessionVar :=
  if v.isFetched then { v with isMaterialized := true, val := .live (v.seenValues d) } else v

/-- The number of values that an operand says it has. -/
def operandSize (v : SessionVar) : Option ℕ := if v.isFetched then some v.bv.count else none

/-- A computed variable has values. -/
def HasOwnValues (v : SessionVar) : Prop :=
  v.isFetched = false → v.isMaterialized = true ∧ 0 < v.valSize ∧ ∃ vals, v.val = .live vals

variable {d : Disk} {v : SessionVar}

lemma cached_of_fetched (h : v.isFetched = true) :
    v.cached d = { v with isMaterialized := true, val := .live (v.seenValues d) } := if_pos h

lemma cached_of_computed (h : v.isFetched = false) : v.cached d = v :=
  if_neg (by rw [h]; exact Bool.false_ne_true)

lemma seenValues_of_loadCol {c : Column} (h : v.isFetched = true) (hc : loadCol d v = .ok c) :
    v.seenValues d = reread c.data v.bv := by
  rw [seenValues, if_pos h, hc]

lemma seenValues_of_computed {vals : List ℤ} (h : v.isFetched = false) (hval : v.val = .live vals) :
    v.seenValues d = vals := by
  rw [seenValues, h, if_neg Bool.false_ne_true, hval]

lemma val_cached (hown : v.HasOwnValues) : (v.cached d).val = .live (v.seenValues d) := by
  cases hfetched : v.isFetched with
  | true => rw [cached_of_fetched hfetched]
  | false =>
      obtain ⟨-, -, vals, hval⟩ := hown hfetched
      rw [cached_of_computed hfetched, seenValues_of_computed hfetched hval, hval]

/-- What a variable is read through is left when it is cached. -/
lemma cached_congr :
    (v.cached d).isFetched = v.isFetched ∧ (v.cached d).bv = v.bv ∧
      (v.cached d).fetchedCol = v.fetchedCol := by
  rw [cached]
  split_ifs <;> exact ⟨rfl, rfl, rfl⟩

lemma rereads_cached : (v.cached d).Rereads d ↔ v.Rereads d := by
  obtain ⟨hfetched, hbv, hcol⟩ := cached_congr (d := d) (v := v)
  rw [Rereads, Rereads, hfetched, hbv, loadCol, loadCol, hcol]

lemma seenValues_cached : (v.cached d).seenValues d = v.seenValues d := by
  obtain ⟨hfetched, hbv, hcol⟩ := cached_congr (d := d) (v := v)
  cases h : v.isFetched with
  | true => rw [seenValues, seenValues, hfetched, hbv, loadCol, loadCol, hcol, if_pos h, if_pos h]
  | false => rw [cached_of_computed h]

lemma cached_cached : (v.cached d).cached d = v.cached d := by
  cases h : v.isFetched with
  | true =>
      have hseen := seenValues_cached (d := d) (v := v)
      rw [cached_of_fetched (v := v.cached d) (cached_congr.1.trans h), hseen,
        cached_of_fetched h]
  | false => rw [cached_of_computed h, cached_of_computed h]

lemma HasOwnValues.cached (hown : v.HasOwnValues) : (v.cached d).HasOwnValues := by
  intro h
  have hcomputed : v.isFetched = false := cached_congr.1.symm.trans h
  rw [cached_of_computed hcomputed]
  exact hown hcomputed

end SessionVar

lemma Vars.set_find {vars : Vars} {x : String} {v : SessionVar} (h : vars.find x = some v) :
    vars.set x v = vars := by
  rw [Vars.set, ← h, Function.update_eq_self]

section Operands

variable {d : Disk} {vars vars' : Vars} {args : InputArgs} {size : Option ℕ} {v₁ v₂ : SessionVar}

/-- One operand: when it can be read, and how it is left. -/
lemma mathOperand_iff {x : String} {v : SessionVar} (hv : getVariable vars x = .ok v)
    (hown : v.HasOwnValues) :
    mathOperand d vars x = .ok (vars', size) ↔
      v.Rereads d ∧ vars' = vars.set x (v.cached d) ∧ size = v.operandSize := by
  rw [mathOperand, hv, Outcome.ok_bind, SessionVar.operandSize]
  by_cases h : v.isFetched = true
  · rw [if_pos h, if_pos h, SessionVar.cached_of_fetched h]
    constructor
    · intro hok
      obtain ⟨c, hc, hok⟩ := Outcome.bind_eq_ok.mp hok
      obtain ⟨m, hm, hok⟩ := Outcome.bind_eq_ok.mp hok
      obtain ⟨hread, rfl⟩ := fetchMatchedFromBv_iff.mp hm
      cases hok
      exact ⟨fun _ => ⟨c, hc, hread⟩, by rw [SessionVar.seenValues_of_loadCol h hc], rfl⟩
    · rintro ⟨hread, rfl, rfl⟩
      obtain ⟨c, hc, hread⟩ := hread h
      rw [hc, Outcome.ok_bind, fetchMatchedFromBv_iff.mpr ⟨hread, rfl⟩, Outcome.ok_bind,
        SessionVar.seenValues_of_loadCol h hc]
  · have hcomputed := Bool.eq_false_iff.mpr h
    obtain ⟨hmaterialized, hsize, vals, hval⟩ := hown hcomputed
    rw [if_neg h, if_neg h, if_pos ⟨hmaterialized, by rw [hval]; nofun, hsize⟩,
      SessionVar.cached_of_computed hcomputed, Vars.set_find (getVariable_eq_ok.mp hv).2]
    constructor
    · intro hok
      cases hok
      exact ⟨fun hfetched => absurd hfetched h, rfl, rfl⟩
    · rintro ⟨-, rfl, rfl⟩
      rfl

/-- The variables after both operands are read. -/
def cachedOperands (d : Disk) (vars : Vars) (args : InputArgs) (v₁ v₂ : SessionVar) : Vars :=
  (vars.set args.argOne (v₁.cached d)).set args.argTwo (v₂.cached d)

/-- **Both operands**: the number of the values is that of the last one that was fetched. -/
theorem mathOperands_iff (hv₁ : getVariable vars args.argOne = .ok v₁)
    (hv₂ : getVariable vars args.argTwo = .ok v₂) (hown₁ : v₁.HasOwnValues)
    (hown₂ : v₂.HasOwnValues) :
    mathOperands d vars args = .ok (vars', size) ↔
      v₁.Rereads d ∧ v₂.Rereads d ∧ vars' = cachedOperands d vars args v₁ v₂ ∧
        size = v₂.operandSize.or v₁.operandSize := by
  obtain ⟨hne₁, hfind₁⟩ := getVariable_eq_ok.mp hv₁
  obtain ⟨hne₂, hfind₂⟩ := getVariable_eq_ok.mp hv₂
  -- the second operand is the first one after it was read, or another variable
  have hsecond : ∀ size', mathOperand d (vars.set args.argOne (v₁.cached d)) args.argTwo
        = .ok (vars', size') ↔
      v₂.Rereads d ∧ vars' = cachedOperands d vars args v₁ v₂ ∧ size' = v₂.operandSize := by
    intro size'
    by_cases hsame : args.argTwo = args.argOne
    · obtain rfl : v₁ = v₂ := Option.some.inj (hfind₁.symm.trans (hsame ▸ hfind₂))
      have hfound : getVariable (vars.set args.argOne (v₁.cached d)) args.argTwo
          = .ok (v₁.cached d) :=
        getVariable_eq_ok.mpr ⟨hne₂, by rw [hsame, Vars.find_set_self]⟩
      rw [mathOperand_iff hfound hown₁.cached, SessionVar.rereads_cached,
        SessionVar.cached_cached, SessionVar.operandSize, SessionVar.operandSize,
        SessionVar.cached_congr.1, SessionVar.cached_congr.2.1]
      rfl
    · exact mathOperand_iff (getVariable_eq_ok.mpr
        ⟨hne₂, by rw [Vars.find_set_of_ne hsame, hfind₂]⟩) hown₂
  rw [mathOperands, findVariable, if_neg hne₁, Outcome.ok_bind, findVariable, if_neg hne₂,
    Outcome.ok_bind]
  constructor
  · intro hok
    obtain ⟨⟨vars₁, size₁⟩, h₁, hok⟩ := Outcome.bind_eq_ok.mp hok
    obtain ⟨⟨vars₂, size₂⟩, h₂, hok⟩ := Outcome.bind_eq_ok.mp hok
    cases hok
    obtain ⟨hread₁, rfl, rfl⟩ := (mathOperand_iff hv₁ hown₁).mp h₁
    obtain ⟨hread₂, hvars, rfl⟩ := (hsecond _).mp h₂
    exact ⟨hread₁, hread₂, hvars, rfl⟩
  · rintro ⟨hread₁, hread₂, hvars, rfl⟩
    rw [(mathOperand_iff hv₁ hown₁).mpr ⟨hread₁, rfl, rfl⟩, Outcome.ok_bind]
    simp only
    rw [(hsecond _).mpr ⟨hread₂, hvars, rfl⟩]
    rfl

/-- Both operands are found after they are read. -/
lemma getVariable_cachedOperands (hv₁ : getVariable vars args.argOne = .ok v₁)
    (hv₂ : getVariable vars args.argTwo = .ok v₂) :
    getVariable (cachedOperands d vars args v₁ v₂) args.argOne = .ok (v₁.cached d) ∧
      getVariable (cachedOperands d vars args v₁ v₂) args.argTwo = .ok (v₂.cached d) := by
  obtain ⟨hne₁, hfind₁⟩ := getVariable_eq_ok.mp hv₁
  obtain ⟨hne₂, hfind₂⟩ := getVariable_eq_ok.mp hv₂
  refine ⟨getVariable_eq_ok.mpr ⟨hne₁, ?_⟩, getVariable_eq_ok.mpr ⟨hne₂, Vars.find_set_self _ _ _⟩⟩
  by_cases hsame : args.argOne = args.argTwo
  · obtain rfl : v₁ = v₂ := Option.some.inj (hfind₁.symm.trans (hsame ▸ hfind₂))
    rw [cachedOperands, ← hsame, Vars.find_set_self]
  · rw [cachedOperands, Vars.find_set_of_ne hsame, Vars.find_set_self]

lemma find_set_eq_none {x y : String} {v w : SessionVar} (h : vars.find x = some v) :
    (vars.set x w).find y = none ↔ vars.find y = none := by
  by_cases hy : y = x
  · rw [hy, Vars.find_set_self, h]
    simp
  · rw [Vars.find_set_of_ne hy]

lemma find_cachedOperands_eq_none (hv₁ : getVariable vars args.argOne = .ok v₁)
    (hv₂ : getVariable vars args.argTwo = .ok v₂) (x : String) :
    (cachedOperands d vars args v₁ v₂).find x = none ↔ vars.find x = none := by
  obtain ⟨-, hfind₁⟩ := getVariable_eq_ok.mp hv₁
  obtain ⟨-, hfind₂⟩ := getVariable_eq_ok.mp hv₂
  obtain ⟨w, hw⟩ := Option.ne_none_iff_exists'.mp
    (mt (find_set_eq_none hfind₁ (w := v₁.cached d)).mp (by rw [hfind₂]; nofun))
  rw [cachedOperands, find_set_eq_none hw, find_set_eq_none hfind₁]

/-! ### A math command -/

/-- The name `x` can be bound: the list stays where it is, and a new name fits into a variable. -/
structure CanBind (vars : Vars) (x : String) : Prop where
  room : vars.moves x = false
  name : x ≠ ""
  length : vars.find x ≠ none ∨ x.length < maxNameSize

lemma initializeVariableTypes_iff {name : String} {isMaterialized : Bool} {size : ℕ}
    {isId : Bool} : (∃ p, initializeVariableTypes vars name isMaterialized size isId = .ok p) ↔
      name ≠ "" ∧ (vars.find name ≠ none ∨ name.length < maxNameSize) := by
  rw [initializeVariableTypes, findVariable]
  by_cases hname : name = ""
  · simp [hname]
  · rw [if_neg hname, Outcome.ok_bind]
    cases hfind : vars.find name with
    | some v => simp [hname]
    | none =>
        by_cases hlen : maxNameSize ≤ name.length
        · simp [hname, hlen]
        · simp [hname, hlen, not_le.mp hlen]

/-- The math command binds its result to the values of the operation on `xs` and `ys`. -/
def BindsElementwise (d : Disk) (vars : Vars) (args : InputArgs) (xs ys : List ℤ) : Prop :=
  ∃ vars' w, runCall d vars true args = .ok (d, vars', none) ∧ vars'.find args.var = some w ∧
    w.isMaterialized = true ∧ w.valSize = xs.length ∧
    w.val = .live (List.zipWith args.command.elementwise xs ys)

/-- **A math command** computes the operation on `xs` and `ys` exactly when an operand was fetched
and the last one that was has their number of marks, every fetched operand can be read, what is read
gives the same results, and the result can be bound. -/
theorem mathCommand_binds_iff (hmath : args.command.isMath = true)
    (hv₁ : getVariable vars args.argOne = .ok v₁) (hv₂ : getVariable vars args.argTwo = .ok v₂)
    (hown₁ : v₁.HasOwnValues) (hown₂ : v₂.HasOwnValues) {xs ys : List ℤ}
    (hlen : xs.length = ys.length) :
    BindsElementwise d vars args xs ys ↔
      v₂.operandSize.or v₁.operandSize = some xs.length ∧ v₁.Rereads d ∧ v₂.Rereads d ∧
        SameResults args.command (v₁.seenValues d) (v₂.seenValues d) xs ys ∧
        CanBind vars args.var := by
  obtain ⟨hfound₁, hfound₂⟩ := getVariable_cachedOperands (d := d) hv₁ hv₂
  have hnone := find_cachedOperands_eq_none (d := d) hv₁ hv₂ args.var
  have hmoves : (cachedOperands d vars args v₁ v₂).moves args.var = vars.moves args.var := by
    have hisNone : ((cachedOperands d vars args v₁ v₂).find args.var).isNone
        = (vars.find args.var).isNone := by
      rw [Bool.eq_iff_iff, Option.isNone_iff_eq_none, Option.isNone_iff_eq_none, hnone]
    rw [Vars.moves, Vars.moves, hisNone]
    rfl
  have hinit : (∃ p, initializeVariableMaterialized (cachedOperands d vars args v₁ v₂) args.var
      = .ok p) ↔ args.var ≠ "" ∧ (vars.find args.var ≠ none ∨ args.var.length < maxNameSize) :=
    initializeVariableTypes_iff.trans (and_congr Iff.rfl (or_congr (not_congr hnone) Iff.rfl))
  rw [BindsElementwise, runCall_math hmath]
  constructor
  · rintro ⟨vars', w, hrun, hw, -, hsize, hval⟩
    obtain ⟨vars'', hcommand, hrun⟩ := Outcome.bind_eq_ok.mp hrun
    cases hrun
    obtain ⟨-, vars₁, vars₂, vals, hoperands, hstays, hok, ⟨w₁, w₂, hw₁, hw₂, hvals⟩, rfl⟩ :=
      mathCommand_ok hcommand
    obtain ⟨hread₁, hread₂, rfl, hcount⟩ := (mathOperands_iff hv₁ hv₂ hown₁ hown₂).mp hoperands
    obtain rfl := Except.ok.inj (hfound₁.symm.trans hw₁)
    obtain rfl := Except.ok.inj (hfound₂.symm.trans hw₂)
    rw [Vars.find_set_self, Option.some.injEq] at hw
    subst hw
    obtain rfl : vals = _ := ValArray.live.inj hval
    simp only at hsize
    rw [hsize] at hcount hvals
    rw [SessionVar.val_cached hown₁, SessionVar.val_cached hown₂] at hvals
    obtain ⟨hname, hlength⟩ := hinit.mp ⟨_, hok⟩
    exact ⟨hcount.symm, hread₁, hread₂, (mathOpOnVar_elementwise_iff hlen).mp hvals,
      ⟨hmoves.symm.trans hstays, hname, hlength⟩⟩
  · rintro ⟨hcount, hread₁, hread₂, hsame, hbind⟩
    obtain ⟨⟨vars₂, newVar⟩, hok⟩ := hinit.mpr ⟨hbind.name, hbind.length⟩
    refine ⟨vars₂.set args.var { newVar with
      isMaterialized := true, valSize := xs.length
      val := .live (List.zipWith args.command.elementwise xs ys) }, _, ?_,
      Vars.find_set_self _ _ _, rfl, rfl, rfl⟩
    rw [mathCommand, if_pos rfl,
      (mathOperands_iff hv₁ hv₂ hown₁ hown₂).mpr ⟨hread₁, hread₂, rfl, hcount.symm⟩]
    simp only [Outcome.ok_bind]
    rw [hmoves, hbind.room, if_neg Bool.false_ne_true, hfound₁, Outcome.ok_bind, hfound₂,
      Outcome.ok_bind, hok, Outcome.ok_bind]
    simp only
    rw [SessionVar.val_cached hown₁, SessionVar.val_cached hown₂,
      (mathOpOnVar_elementwise_iff hlen).mpr hsame]
    rfl

end Operands

/-! ### The kinds of operands -/

/-- The ways to the values of an operand: a bit vector, the row ids of a join, and an earlier
command. -/
inductive OperandKind where
  | byBv
  | byIds
  | computed
  deriving DecidableEq

/-- A variable has an array with as many values as its size says. -/
structure SessionVar.Stores (v : SessionVar) (vals : List ℤ) : Prop where
  materialized : v.isMaterialized = true
  size : v.valSize = vals.length
  val : v.val = .live vals

/-- The variable `v` is an operand with the values `vals`. -/
inductive HasValues (d : Disk) (v : SessionVar) (vals : List ℤ) : OperandKind → Prop where
  | byBv {c : Column} (hfetched : v.isFetched = true) (hc : loadCol d v = .ok c)
      (hrows : v.bv.rows.map (fun i => c.data.stored[i]?) = vals.map some) :
      HasValues d v vals .byBv
  | byIds (hfetched : v.isFetched = true) (hstores : v.Stores vals) : HasValues d v vals .byIds
  | computed (hfetched : v.isFetched = false) (hstores : v.Stores vals) :
      HasValues d v vals .computed

section Kinds

variable {d : Disk} {v : SessionVar} {vals : List ℤ} {k : OperandKind}

/-- The values at the rows of a bit vector come first among those at its marks. -/
lemma prefix_markedValues {f : DataFile} {bv : BitVector}
    (hrows : bv.rows.map (fun i => f.stored[i]?) = vals.map some) :
    vals <+: markedValues bv (scanned f).zipIdx := by
  have hsize : ∀ i ∈ bv.rows, i < f.m.size := by
    intro i hi
    have hmem : f.stored[i]? ∈ bv.rows.map fun i => f.stored[i]? := List.mem_map_of_mem hi
    rw [hrows] at hmem
    obtain ⟨x, -, hx⟩ := List.mem_map.mp hmem
    have hlt := (List.getElem?_eq_some_iff.mp hx.symm).1
    rwa [f.length_stored] at hlt
  have hlen := length_scanned_le f
  have heq : bv.rows = (List.range (min bv.size (scanned f).length)).filter bv.bit := by
    refine filter_range_eq fun i hbit => ⟨fun hi => lt_min hi ?_, fun hi => ?_⟩
    · exact (hsize i (List.mem_filter.mpr ⟨List.mem_range.mpr hi, hbit⟩)).trans_le hlen
    · exact hi.trans_le (min_le_left _ _)
  have hprefix : bv.rows <+: (List.range (scanned f).length).filter bv.bit := by
    rw [heq, ← List.take_range]
    exact (List.take_prefix _ _).filter _
  refine (List.prefix_map_iff_of_injective (Option.some_injective ℤ)).mp ?_
  rw [map_some_markedValues, ← hrows]
  have hcells : bv.rows.map (fun i => f.stored[i]?) = bv.rows.map fun i => (scanned f)[i]? :=
    List.map_congr_left fun i hi => (getElem?_scanned (hsize i hi)).symm
  rw [hcells]
  exact hprefix.map _

namespace HasValues

/-- An operand with values has them in an array, if it was not fetched. -/
lemma own (h : HasValues d v vals k) (hne : vals ≠ []) : v.HasOwnValues := by
  intro hfetched
  cases h with
  | byBv hf | byIds hf => cases hf.symm.trans hfetched
  | computed _ hstores =>
      exact ⟨hstores.materialized, hstores.size ▸ List.length_pos_iff.mpr hne, vals, hstores.val⟩

/-- **An operand that was not fetched through row ids** is seen with its own values. -/
theorem seenValues_getElem? (h : HasValues d v vals k) (hk : k ≠ .byIds) {i : ℕ}
    (hi : i < vals.length) : (v.seenValues d)[i]? = vals[i]? := by
  cases h with
  | byBv hfetched hc hrows =>
      rw [SessionVar.seenValues_of_loadCol hfetched hc, reread]
      obtain ⟨rest, hrest⟩ := prefix_markedValues hrows
      rw [← hrest, List.append_assoc, List.getElem?_append_left hi]
  | byIds => exact absurd rfl hk
  | computed hfetched hstores =>
      rw [SessionVar.seenValues_of_computed hfetched hstores.val]

/-- **An operand that was fetched through row ids** into a new name has no marks, and is seen
without values. -/
theorem seenValues_of_count_eq_zero (h : HasValues d v vals .byIds) (hread : v.Rereads d)
    (hcount : v.bv.count = 0) : v.seenValues d = [] := by
  cases h with
  | byIds hfetched _ =>
      obtain ⟨c, hc, hread⟩ := hread hfetched
      rw [SessionVar.seenValues_of_loadCol hfetched hc, ← List.length_eq_zero_iff,
        length_reread hread, hcount]

end HasValues

/-- FETCH through row ids gives a variable with their values, and leaves its bit vector. -/
lemma fetchedVariable_byIds {c : Column} {colName : String} {newVar oldVar : SessionVar}
    (h : fetchedVariable c colName newVar oldVar = .ok v) (hid : oldVar.isId = true) :
    ∃ vals, HasValues d v vals .byIds ∧ v.bv = newVar.bv := by
  rw [fetchedVariable, if_pos hid] at h
  obtain ⟨vals, -, h⟩ := Outcome.bind_eq_ok.mp h
  cases h
  exact ⟨vals, .byIds rfl ⟨rfl, rfl, rfl⟩, rfl⟩

/-- FETCH through a bit vector gives a variable with the values at its rows. -/
lemma fetchedVariable_byBv {c : Column} {colName : String} {newVar oldVar : SessionVar}
    (h : fetchedVariable c colName newVar oldVar = .ok v) (hid : oldVar.isId = false)
    (hc : openColumn d colName = .ok c)
    (hrows : v.bv.rows.map (fun i => c.data.stored[i]?) = vals.map some) :
    HasValues d v vals .byBv := by
  rw [fetchedVariable, hid, if_neg Bool.false_ne_true] at h
  obtain ⟨bv, -, h⟩ := Outcome.bind_eq_ok.mp h
  cases h
  exact .byBv rfl hc hrows

/-- Reading an operand leaves its values, if row ids gave those that are read now. -/
lemma HasValues.cached (h : HasValues d v vals k) (hids : k = .byIds → v.seenValues d = vals) :
    HasValues d (v.cached d) vals k := by
  obtain ⟨hsame, hbv, hcol⟩ := SessionVar.cached_congr (d := d) (v := v)
  cases h with
  | @byBv c hfetched hc hrows =>
      have hload : loadCol d (v.cached d) = .ok c := by rw [loadCol, hcol]; exact hc
      exact .byBv (hsame.trans hfetched) hload (by rw [hbv, hrows])
  | byIds hfetched hstores =>
      refine .byIds (hsame.trans hfetched) ?_
      rw [SessionVar.cached_of_fetched hfetched, hids rfl]
      exact ⟨rfl, hstores.size, rfl⟩
  | computed hfetched hstores =>
      rw [SessionVar.cached_of_computed hfetched]
      exact .computed hfetched hstores

end Kinds

section Command

variable {d : Disk} {vars vars' : Vars} {args : InputArgs} {v₁ v₂ : SessionVar}
  {k₁ k₂ : OperandKind} {xs ys : List ℤ}

/-- The condition for a math command on operands of the kinds `k₁` and `k₂`. -/
structure MathMeets (d : Disk) (vars : Vars) (args : InputArgs) (v₁ v₂ : SessionVar)
    (k₁ k₂ : OperandKind) (xs ys : List ℤ) : Prop where
  /-- An operand was fetched, and the last one that was counts as many marks as there are values. -/
  sized : v₂.operandSize.or v₁.operandSize = some xs.length
  reread₁ : v₁.Rereads d
  reread₂ : v₂.Rereads d
  /-- Row ids are not looked at again: the bit vector has to give the same results. -/
  ids : k₁ = .byIds ∨ k₂ = .byIds →
    SameResults args.command (v₁.seenValues d) (v₂.seenValues d) xs ys
  /-- The quotient that is no `int` is not taken. -/
  quotient : k₁ ≠ .byIds → k₂ ≠ .byIds → args.command = .div →
    ∀ i : ℕ, xs[i]? = some (-2 ^ 31) → ys[i]? ≠ some (-1)
  bind : CanBind vars args.var

/-- Operands that are seen with their own values give the results of the operation, but for the one
quotient. -/
lemma sameResults_iff {c : Command} (hmath : c.isMath = true) (h₁ : HasValues d v₁ xs k₁)
    (h₂ : HasValues d v₂ ys k₂) (hk₁ : k₁ ≠ .byIds) (hk₂ : k₂ ≠ .byIds)
    (hlen : xs.length = ys.length) (hxs : FitsInt xs) :
    SameResults c (v₁.seenValues d) (v₂.seenValues d) xs ys ↔
      (c = .div → ∀ i : ℕ, xs[i]? = some (-2 ^ 31) → ys[i]? ≠ some (-1)) := by
  constructor
  · intro h hdiv i hx hy
    have hi := (List.getElem?_eq_some_iff.mp hx).1
    obtain ⟨a, b, x, y, ha, hb, hx', hy', hturn⟩ := h i hi
    rw [h₁.seenValues_getElem? hk₁ hi] at ha
    rw [h₂.seenValues_getElem? hk₂ (hlen ▸ hi)] at hb
    obtain rfl : a = -2 ^ 31 := Option.some.inj (ha.symm.trans hx)
    obtain rfl : b = -1 := Option.some.inj (hb.symm.trans hy)
    obtain rfl : x = -2 ^ 31 := Option.some.inj (hx'.symm.trans hx)
    obtain rfl : y = -1 := Option.some.inj (hy'.symm.trans hy)
    exact (fptr_iff hmath (by decide) _).mp hturn ⟨hdiv, rfl, rfl⟩
  · intro h i hi
    have hx : xs[i]? = some xs[i] := List.getElem?_eq_getElem hi
    have hy : ys[i]? = some ys[i] := List.getElem?_eq_getElem (hlen ▸ hi)
    refine ⟨xs[i], ys[i], xs[i], ys[i], (h₁.seenValues_getElem? hk₁ hi).trans hx,
      (h₂.seenValues_getElem? hk₂ (hlen ▸ hi)).trans hy, hx, hy, ?_⟩
    refine (fptr_iff hmath (hxs _ (List.getElem_mem hi)) _).mpr ?_
    rintro ⟨hdiv, hmin, hone⟩
    exact h hdiv i (hx.trans (congrArg some hmin)) (hy.trans (congrArg some hone))

/-- **One math command** on operands of each kind. -/
theorem bindsElementwise_iff (hmath : args.command.isMath = true)
    (hv₁ : getVariable vars args.argOne = .ok v₁) (hv₂ : getVariable vars args.argTwo = .ok v₂)
    (h₁ : HasValues d v₁ xs k₁) (h₂ : HasValues d v₂ ys k₂) (hlen : xs.length = ys.length)
    (hne : xs ≠ []) (hxs : FitsInt xs) :
    BindsElementwise d vars args xs ys ↔ MathMeets d vars args v₁ v₂ k₁ k₂ xs ys := by
  have hne' : ys ≠ [] := List.length_pos_iff.mp (hlen ▸ List.length_pos_iff.mpr hne)
  rw [mathCommand_binds_iff hmath hv₁ hv₂ (h₁.own hne) (h₂.own hne') hlen]
  constructor
  · rintro ⟨hsized, hread₁, hread₂, hsame, hbind⟩
    exact ⟨hsized, hread₁, hread₂, fun _ => hsame,
      fun hk₁ hk₂ => (sameResults_iff hmath h₁ h₂ hk₁ hk₂ hlen hxs).mp hsame, hbind⟩
  · intro h
    refine ⟨h.sized, h.reread₁, h.reread₂, ?_, h.bind⟩
    by_cases hids : k₁ = .byIds ∨ k₂ = .byIds
    · exact h.ids hids
    · obtain ⟨hk₁, hk₂⟩ := not_or.mp hids
      exact (sameResults_iff hmath h₁ h₂ hk₁ hk₂ hlen hxs).mpr (h.quotient hk₁ hk₂)

/-- An operand that was fetched through row ids into a new name does not meet the condition. -/
theorem not_mathMeets_of_byIds (h₁ : HasValues d v₁ xs k₁) (h₂ : HasValues d v₂ ys k₂)
    (hne : xs ≠ [])
    (hnew : k₁ = .byIds ∧ v₁.bv.count = 0 ∨ k₂ = .byIds ∧ v₂.bv.count = 0) :
    ¬ MathMeets d vars args v₁ v₂ k₁ k₂ xs ys := by
  intro h
  obtain ⟨a, b, -, -, ha, hb, -⟩ :=
    h.ids (hnew.imp And.left And.left) 0 (List.length_pos_iff.mpr hne)
  rcases hnew with ⟨rfl, hcount⟩ | ⟨rfl, hcount⟩
  · rw [h₁.seenValues_of_count_eq_zero h.reread₁ hcount] at ha
    cases ha
  · rw [h₂.seenValues_of_count_eq_zero h.reread₂ hcount] at hb
    cases hb

/-- What a math command leaves: the operands that were read, and its result. -/
lemma find_of_runCall (hmath : args.command.isMath = true)
    (hv₁ : getVariable vars args.argOne = .ok v₁) (hv₂ : getVariable vars args.argTwo = .ok v₂)
    (hown₁ : v₁.HasOwnValues) (hown₂ : v₂.HasOwnValues)
    (hrun : runCall d vars true args = .ok (d, vars', none)) {x : String} (hx : x ≠ args.var) :
    vars'.find x = (cachedOperands d vars args v₁ v₂).find x := by
  rw [runCall_math hmath] at hrun
  obtain ⟨vars'', hcommand, hrun⟩ := Outcome.bind_eq_ok.mp hrun
  cases hrun
  obtain ⟨-, vars₁, vars₂, vals, hoperands, -, hinit, -, rfl⟩ := mathCommand_ok hcommand
  obtain ⟨-, -, rfl, -⟩ := (mathOperands_iff hv₁ hv₂ hown₁ hown₂).mp hoperands
  obtain ⟨-, -, hother⟩ := initializeVariableTypes_bound hinit
  rw [Vars.find_set_of_ne hx, hother x hx]

end Command

/-! ### Chains of math commands -/

/-- The variables have the values of `env`. -/
def HoldsEnv (d : Disk) (vars : Vars) (env : String → Option (List ℤ)) : Prop :=
  ∀ x vals, env x = some vals →
    FitsInt vals ∧ ∃ v k, getVariable vars x = .ok v ∧ HasValues d v vals k

/-- A command of a chain meets its condition, and an operand that was fetched through row ids has
the values that are read in their place. -/
def ChainMeets (d : Disk) (vars : Vars) (args : InputArgs) (xs ys : List ℤ) : Prop :=
  ∃ v₁ v₂ k₁ k₂, getVariable vars args.argOne = .ok v₁ ∧ getVariable vars args.argTwo = .ok v₂ ∧
    HasValues d v₁ xs k₁ ∧ HasValues d v₂ ys k₂ ∧ MathMeets d vars args v₁ v₂ k₁ k₂ xs ys ∧
    (k₁ = .byIds → v₁.seenValues d = xs) ∧ (k₂ = .byIds → v₂.seenValues d = ys)

/-- The math command `args` has operands of one length in `env`. -/
structure MathOn (env : String → Option (List ℤ)) (args : InputArgs) (xs ys : List ℤ) : Prop where
  math : args.command.isMath = true
  one : env args.argOne = some xs
  two : env args.argTwo = some ys
  length_eq : xs.length = ys.length
  ne_nil : xs ≠ []

/-- The chains of math commands that all meet the condition, with the values of the expressions. -/
inductive MathChain (d : Disk) (vars₀ : Vars) (env₀ : String → Option (List ℤ)) :
    Vars → (String → Option (List ℤ)) → Prop where
  | start : MathChain d vars₀ env₀ vars₀ env₀
  | step {vars vars' : Vars} {env : String → Option (List ℤ)} {args : InputArgs} {xs ys : List ℤ}
      (h : MathChain d vars₀ env₀ vars env) (hmath : MathOn env args xs ys)
      (hmeets : ChainMeets d vars args xs ys)
      (hrun : runCall d vars true args = .ok (d, vars', none)) :
      MathChain d vars₀ env₀ vars' (Function.update env args.var
        (some (List.zipWith args.command.elementwise xs ys)))

section Chain

variable {d : Disk} {vars vars' : Vars} {env : String → Option (List ℤ)} {args : InputArgs}
  {xs ys : List ℤ}

/-- A command of a chain binds its result. -/
lemma bindsElementwise_of_chainMeets (henv : HoldsEnv d vars env) (hmath : MathOn env args xs ys)
    (hmeets : ChainMeets d vars args xs ys) : BindsElementwise d vars args xs ys := by
  obtain ⟨v₁, v₂, k₁, k₂, hv₁, hv₂, h₁, h₂, hmeets, -, -⟩ := hmeets
  exact (bindsElementwise_iff hmath.math hv₁ hv₂ h₁ h₂ hmath.length_eq hmath.ne_nil
    (henv _ _ hmath.one).1).mpr hmeets

/-- **A step of a chain** leaves every variable with the value of its expression. -/
theorem holdsEnv_step (henv : HoldsEnv d vars env) (hmath : MathOn env args xs ys)
    (hmeets : ChainMeets d vars args xs ys)
    (hrun : runCall d vars true args = .ok (d, vars', none)) :
    HoldsEnv d vars' (Function.update env args.var
      (some (List.zipWith args.command.elementwise xs ys))) := by
  obtain ⟨vars'', w, hrun', hw, hmaterialized, hsize, hval⟩ :=
    bindsElementwise_of_chainMeets henv hmath hmeets
  obtain rfl : vars' = vars'' := congrArg (fun r => r.2.1) (Except.ok.inj (hrun.symm.trans hrun'))
  obtain ⟨v₁, v₂, k₁, k₂, hv₁, hv₂, h₁, h₂, hmeets, hids₁, hids₂⟩ := hmeets
  intro x vals hx
  by_cases hresult : x = args.var
  · subst hresult
    rw [Function.update_self, Option.some.injEq] at hx
    subst hx
    have hstores : w.Stores (List.zipWith args.command.elementwise xs ys) :=
      ⟨hmaterialized, by rw [hsize, List.length_zipWith, ← hmath.length_eq, min_self], hval⟩
    refine ⟨fun y hy => ?_, w, ?_⟩
    · obtain ⟨i, hi, rfl⟩ := List.mem_iff_getElem.mp hy
      rw [List.getElem_zipWith]
      exact elementwise_range _ _ _
    · have hfound := getVariable_eq_ok.mpr ⟨hmeets.bind.name, hw⟩
      cases hfetched : w.isFetched with
      | true => exact ⟨.byIds, hfound, .byIds hfetched hstores⟩
      | false => exact ⟨.computed, hfound, .computed hfetched hstores⟩
  · rw [Function.update_of_ne hresult] at hx
    obtain ⟨hfits, v, k, hv, h⟩ := henv x vals hx
    obtain ⟨hname, hfind⟩ := getVariable_eq_ok.mp hv
    have hne' : ys ≠ [] :=
      List.length_pos_iff.mp (hmath.length_eq ▸ List.length_pos_iff.mpr hmath.ne_nil)
    have hleft :=
      find_of_runCall hmath.math hv₁ hv₂ (h₁.own hmath.ne_nil) (h₂.own hne') hrun hresult
    obtain ⟨hfound₁, hfound₂⟩ := getVariable_cachedOperands (d := d) hv₁ hv₂
    refine ⟨hfits, ?_⟩
    by_cases htwo : x = args.argTwo
    · subst htwo
      obtain rfl : vals = ys := Option.some.inj (hx.symm.trans hmath.two)
      exact ⟨_, k₂, getVariable_eq_ok.mpr
        ⟨hname, hleft.trans (getVariable_eq_ok.mp hfound₂).2⟩, h₂.cached hids₂⟩
    · by_cases hone : x = args.argOne
      · subst hone
        obtain rfl : vals = xs := Option.some.inj (hx.symm.trans hmath.one)
        exact ⟨_, k₁, getVariable_eq_ok.mpr
          ⟨hname, hleft.trans (getVariable_eq_ok.mp hfound₁).2⟩, h₁.cached hids₁⟩
      · rw [cachedOperands, Vars.find_set_of_ne htwo, Vars.find_set_of_ne hone] at hleft
        exact ⟨v, k, getVariable_eq_ok.mpr ⟨hname, hleft.trans hfind⟩, h⟩

lemma holdsEnv_of_mathChain {vars₀ : Vars} {env₀ : String → Option (List ℤ)}
    (hstart : HoldsEnv d vars₀ env₀) (h : MathChain d vars₀ env₀ vars env) :
    HoldsEnv d vars env := by
  induction h with
  | start => exact hstart
  | step _ hmath hmeets hrun ih => exact holdsEnv_step ih hmath hmeets hrun

end Chain

/-- **Math commands.** A math command on operands of each kind computes the element-wise operation
exactly when it meets its condition; fetched operands have fewer than `2 ^ 31` marked rows. In a
chain of commands that all meet it, the variables have the values of their expressions, and the next
command that meets it binds the value of its own. -/
theorem mathCommand_elementwise_iff (d : Disk) :
    (∀ (vars : Vars) (args : InputArgs) (v₁ v₂ : SessionVar) (k₁ k₂ : OperandKind)
      (xs ys : List ℤ), args.command.isMath = true → getVariable vars args.argOne = .ok v₁ →
      getVariable vars args.argTwo = .ok v₂ → HasValues d v₁ xs k₁ → HasValues d v₂ ys k₂ →
      xs.length = ys.length → xs ≠ [] → FitsInt xs →
      (BindsElementwise d vars args xs ys ↔ MathMeets d vars args v₁ v₂ k₁ k₂ xs ys)) ∧
    ∀ (vars₀ vars : Vars) (env₀ env : String → Option (List ℤ)), HoldsEnv d vars₀ env₀ →
      MathChain d vars₀ env₀ vars env → HoldsEnv d vars env ∧
        ∀ args xs ys, MathOn env args xs ys → ChainMeets d vars args xs ys →
          BindsElementwise d vars args xs ys := by
  refine ⟨fun vars args v₁ v₂ k₁ k₂ xs ys hmath hv₁ hv₂ h₁ h₂ hlen hne hxs =>
    bindsElementwise_iff hmath hv₁ hv₂ h₁ h₂ hlen hne hxs, fun vars₀ vars env₀ env hstart hchain =>
      ?_⟩
  have henv := holdsEnv_of_mathChain hstart hchain
  exact ⟨henv, fun args xs ys hmath hmeets => bindsElementwise_of_chainMeets henv hmath hmeets⟩

/-! ### Operands over one row -/

/-- A variable that was fetched through the bit vector of a SELECT of a column of one row. -/
def fetchedFive : SessionVar :=
  { newVariable false 1 false with
    isFetched := true, bv := markAllBv (createBv 1), fetchedCol := some "a" }

/-- The variable `x`. -/
def varsOfX : Vars := Vars.create.append "x" fetchedFive

/-- The values of `x`, and of no other name. -/
def envOfX : String → Option (List ℤ) := Function.update (fun _ => none) "x" (some [5])

/-- `r=add(x,x)`. -/
def addXX : InputArgs :=
  { var := "r", command := .add, argOne := "x", argTwo := "x", argThree := "" }

/-- `q=add(r,r)`. -/
def addRR : InputArgs :=
  { var := "q", command := .add, argOne := "r", argTwo := "r", argThree := "" }

lemma hasValues_fetchedFive : HasValues oneRowDisk fetchedFive [5] .byBv :=
  .byBv (c := oneRowColumn) rfl rfl rfl

lemma mathMeets_addXX :
    MathMeets oneRowDisk varsOfX addXX fetchedFive fetchedFive .byBv .byBv [5] [5] where
  sized := rfl
  reread₁ := fun _ => ⟨oneRowColumn, rfl, by decide, by decide⟩
  reread₂ := fun _ => ⟨oneRowColumn, rfl, by decide, by decide⟩
  ids := fun h => by simp at h
  quotient := fun _ _ hdiv => nomatch hdiv
  bind := ⟨rfl, by decide, Or.inr (by decide)⟩

/-- `mathCommand_elementwise_iff` at the sum of a fetched variable and itself, as a command of its
own and as the first one of a chain. -/
theorem addXX_binds_ten :
    BindsElementwise oneRowDisk varsOfX addXX [5] [5] ∧
      ∃ vars env, runCall oneRowDisk varsOfX true addXX = .ok (oneRowDisk, vars, none) ∧
        HoldsEnv oneRowDisk vars env ∧ env "x" = some [5] ∧ env "r" = some [10] := by
  have hx : getVariable varsOfX "x" = .ok fetchedFive := rfl
  have hfits : FitsInt [5] := by simp [FitsInt]
  have hstart : HoldsEnv oneRowDisk varsOfX envOfX := by
    intro y vals hy
    by_cases hname : y = "x"
    · subst hname
      rw [envOfX, Function.update_self, Option.some.injEq] at hy
      subst hy
      exact ⟨hfits, fetchedFive, .byBv, hx, hasValues_fetchedFive⟩
    · rw [envOfX, Function.update_of_ne hname] at hy
      cases hy
  obtain ⟨hone, hchain⟩ := mathCommand_elementwise_iff oneRowDisk
  refine ⟨(hone varsOfX addXX fetchedFive fetchedFive .byBv .byBv [5] [5] rfl hx hx
    hasValues_fetchedFive hasValues_fetchedFive rfl (by decide) hfits).mpr mathMeets_addXX, ?_⟩
  have hrun : runCall oneRowDisk varsOfX true addXX = .ok (oneRowDisk, _, none) := rfl
  have hmath : MathOn envOfX addXX [5] [5] := ⟨rfl, rfl, rfl, rfl, by decide⟩
  have hmeets : ChainMeets oneRowDisk varsOfX addXX [5] [5] :=
    ⟨_, _, .byBv, .byBv, hx, hx, hasValues_fetchedFive, hasValues_fetchedFive, mathMeets_addXX,
      nofun, nofun⟩
  have hstep : MathChain oneRowDisk varsOfX envOfX _ _ := .step .start hmath hmeets hrun
  exact ⟨_, _, hrun, (hchain varsOfX _ _ _ hstart hstep).1, rfl, rfl⟩

/-- After `s=select(a)`, `x=fetch(a,s)` and `r=add(x,x)`, the number of the values of
`q=add(r,r)` was never set. -/
theorem computedOperands_undefined :
    ∃ vars v, SessionRun .zero (fun _ _ _ => True) oneRowDisk oneRowDisk vars ∧
      getVariable vars "r" = .ok v ∧ HasValues oneRowDisk v [10] .computed ∧
      runCall oneRowDisk vars true addRR = .error .undefined ∧
      ¬ BindsElementwise oneRowDisk vars addRR [10] [10] := by
  have hs : SessionRun .zero (fun _ _ _ => True) oneRowDisk _ _ := .step .start trivial
    (show selectS.run .zero oneRowDisk .create = .ok (_, _, _) from rfl)
  have hx := hs.step trivial (show fetchX.run .zero _ _ = .ok (_, _, _) from rfl)
  have hr := hx.step trivial (show (SessionStep.call true addXX).run .zero _ _ = .ok (_, _, _)
    from rfl)
  refine ⟨_, _, hr, rfl, .computed rfl ⟨rfl, rfl, rfl⟩, rfl, ?_⟩
  rintro ⟨vars', w, hrun, -⟩
  cases hrun

end ColumnDb
