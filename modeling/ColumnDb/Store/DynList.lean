import ColumnDb.Store.Column

/-!
The growing list (`list.c`).

* `DynList`: `list_t`, with its elements in the place of blocks of `unit` bytes. The memory has the
  bytes that `malloc` and `realloc` were asked for, `unit * capacity` in 32 bits.
* `appendList`: a full list doubles its capacity; the element is written behind the others.
* `DynList.GrownTo`: the capacity of a list from `create_list` as it grows.
* `appendList_lt`, `appendList_full`: an append succeeds until the capacity can not double again
  without a wrap of its bytes, and writes outside the memory then.
* `greatestLength`: the number of elements up to which the bytes for the capacity suffice.
* `appendAll_iff`: no append to a new list fails exactly when there are no more elements than that.
-/

namespace ColumnDb

/-! ### The functions of the source -/

/-- `list_t`; its `next` is the number of the elements. -/
structure DynList (α : Type) where
  unit : ℕ
  capacity : ℕ
  vals : List α
  deriving DecidableEq, Repr

/-- The bytes of the memory: the product is an unsigned int. -/
def DynList.bytes {α : Type} (l : DynList α) : ℕ := l.unit * l.capacity % 2 ^ 32

/-- `DEFAULT_DYN_ARR_SIZE`. -/
def defaultDynArrSize : ℕ := 3

/-- `create_list_of_size`. -/
def createListOfSize (α : Type) (size unit : ℕ) : DynList α where
  unit := unit
  capacity := (size + 1) * 2 % 2 ^ 32
  vals := []

/-- `create_list`. -/
def createList (α : Type) (unit : ℕ) : DynList α := createListOfSize α defaultDynArrSize unit

/-- `append_list`. -/
def appendList {α : Type} (l : DynList α) (val : α) : Outcome (DynList α) :=
  let l := { l with
             capacity :=
              if l.vals.length = l.capacity then l.capacity * 2 % 2 ^ 32 else l.capacity }
  if l.unit * l.vals.length % 2 ^ 32 + l.unit ≤ l.bytes then .ok { l with vals := l.vals ++ [val] }
  else .error .bounds

/-! ### Growing -/

section Growing

variable {α : Type} {l : DynList α} {u j : ℕ}

@[simp] lemma createList_vals (α : Type) (u : ℕ) : (createList α u).vals = [] := rfl

/-- The first capacity. -/
@[simp] lemma createList_capacity (α : Type) (u : ℕ) : (createList α u).capacity = 8 := rfl

/-- A list from `create_list` that has doubled its capacity at most `j` times. -/
structure DynList.GrownTo (u j : ℕ) (l : DynList α) : Prop where
  unit : l.unit = u
  capacity : ∃ i ≤ j, l.capacity = 8 * 2 ^ i
  length : l.vals.length ≤ l.capacity

lemma grownTo_createList (α : Type) (u j : ℕ) : (createList α u).GrownTo u j where
  unit := rfl
  capacity := ⟨0, Nat.zero_le j, rfl⟩
  length := Nat.zero_le _

/-- **An append** while the bytes for the next capacity do not wrap. -/
theorem appendList_lt (h : l.GrownTo u j) (hfit : u * (8 * 2 ^ j) < 2 ^ 32) (hu : 0 < u)
    (hlt : l.vals.length < 8 * 2 ^ j) (val : α) :
    ∃ l', appendList l val = .ok l' ∧ l'.vals = l.vals ++ [val] ∧ l'.GrownTo u j := by
  obtain ⟨i, hi, hcapacity⟩ := h.capacity
  have hpow : 2 ^ i ≤ 2 ^ j := Nat.pow_le_pow_right (by decide) hi
  have hcap_le : l.capacity ≤ 8 * 2 ^ j := hcapacity ▸ Nat.mul_le_mul_left 8 hpow
  have hbytes : ∀ c, c ≤ 8 * 2 ^ j → u * c < 2 ^ 32 := fun c hc =>
    (Nat.mul_le_mul_left u hc).trans_lt hfit
  have hroom : ∀ c, c ≤ 8 * 2 ^ j → l.vals.length < c →
      u * l.vals.length % 2 ^ 32 + u ≤ u * c % 2 ^ 32 := fun c hc hlen => by
    rw [Nat.mod_eq_of_lt (hbytes c hc), Nat.mod_eq_of_lt (hbytes _ hlt.le), ← Nat.mul_succ]
    exact Nat.mul_le_mul_left u hlen
  by_cases hfull : l.vals.length = l.capacity
  · have hij : i < j := by
      by_contra hge
      obtain rfl : i = j := by omega
      exact hlt.ne (hfull.trans hcapacity)
    have hdouble : l.capacity * 2 = 8 * 2 ^ (i + 1) := by
      rw [hcapacity, pow_succ]
      ring
    have hle : 8 * 2 ^ (i + 1) ≤ 8 * 2 ^ j :=
      Nat.mul_le_mul_left 8 (Nat.pow_le_pow_right (by decide) hij)
    have hmod : l.capacity * 2 % 2 ^ 32 = 8 * 2 ^ (i + 1) := by
      rw [hdouble]
      refine Nat.mod_eq_of_lt (lt_of_le_of_lt ?_ (hbytes _ hle))
      exact Nat.le_mul_of_pos_left _ hu
    have hpos : 0 < l.capacity := by
      rw [hcapacity]
      exact Nat.mul_pos (by decide) (Nat.two_pow_pos i)
    have hmore : l.vals.length < 8 * 2 ^ (i + 1) := by omega
    refine ⟨{ l with capacity := 8 * 2 ^ (i + 1), vals := l.vals ++ [val] }, ?_, rfl,
      h.unit, ⟨i + 1, hij, rfl⟩, ?_⟩
    · simp only [appendList, if_pos hfull, hmod, DynList.bytes, h.unit]
      exact if_pos (hroom _ hle hmore)
    · simp only [List.length_append, List.length_singleton]
      omega
  · have hlen : l.vals.length < l.capacity := lt_of_le_of_ne h.length hfull
    refine ⟨{ l with vals := l.vals ++ [val] }, ?_, rfl, h.unit, ⟨i, hi, hcapacity⟩, ?_⟩
    · simp only [appendList, if_neg hfull, DynList.bytes, h.unit]
      exact if_pos (hroom _ (by omega) hlen)
    · simp only [List.length_append, List.length_singleton]
      omega

/-- **The append that wraps**: the memory is then smaller than what the elements take already. -/
theorem appendList_full (h : l.GrownTo u j) (hfit : u * (8 * 2 ^ j) < 2 ^ 32)
    (hwrap : 2 ^ 32 ≤ u * (8 * 2 ^ (j + 1))) (hfull : l.vals.length = 8 * 2 ^ j) (val : α) :
    appendList l val = .error .bounds := by
  obtain ⟨i, hi, hcapacity⟩ := h.capacity
  have hpow : 2 ^ i ≤ 2 ^ j := Nat.pow_le_pow_right (by decide) hi
  have hcap : l.vals.length = l.capacity :=
    le_antisymm h.length (by rw [hfull, hcapacity]; exact Nat.mul_le_mul_left 8 hpow)
  have hnext : u * (8 * 2 ^ (j + 1)) = 2 * (u * (8 * 2 ^ j)) := by
    rw [pow_succ 2 j]
    ring
  have hdouble : u * (l.capacity * 2 % 2 ^ 32) % 2 ^ 32 = 2 * (u * (8 * 2 ^ j)) % 2 ^ 32 := by
    rw [Nat.mul_mod_mod, ← hcap, hfull]
    ring_nf
  have hunit := h.unit
  simp only [appendList, if_pos hcap, DynList.bytes, hunit, hdouble]
  rw [hfull]
  exact if_neg (by omega)

/-- Appending one element after the other. -/
def appendAll (l : DynList α) (vals : List α) : Outcome (DynList α) := vals.foldlM appendList l

/-- An append succeeds, or writes outside the memory. -/
lemma appendList_ok_or (l : DynList α) (val : α) :
    (∃ l', appendList l val = .ok l') ∨ appendList l val = .error .bounds := by
  cases hok : appendList l val with
  | ok l' => exact Or.inl ⟨l', rfl⟩
  | error e =>
      simp only [appendList] at hok
      split_ifs at hok <;> exact Or.inr (congrArg _ (Except.error.inj hok).symm)

lemma appendAll_append (l : DynList α) (vals vals' : List α) :
    appendAll l (vals ++ vals') = appendAll l vals >>= (appendAll · vals') := List.foldlM_append

/-- Appends up to a list that takes no more elements. -/
lemma appendAll_bounds_of_full {n : ℕ} {l' : DynList α} {vals : List α} (hlen : n < vals.length)
    (hok : appendAll l (vals.take n) = .ok l')
    (hfull : ∀ val, appendList l' val = .error .bounds) :
    appendAll l vals = .error .bounds := by
  rw [← List.take_append_drop n vals, appendAll_append, hok, Outcome.ok_bind,
    List.drop_eq_getElem_cons hlen, appendAll, List.foldlM_cons, hfull]
  rfl

/-- An append that succeeds puts its element behind the others. -/
lemma appendList_vals {l l' : DynList α} {val : α} (hok : appendList l val = .ok l') :
    l'.vals = l.vals ++ [val] := by
  simp only [appendList] at hok
  split_ifs at hok
  · cases hok
    rfl
  · cases hok
    rfl

/-- Appends that succeed put their elements behind the others. -/
lemma appendAll_vals (vals : List α) : ∀ {l l' : DynList α}, appendAll l vals = .ok l' →
    l'.vals = l.vals ++ vals := by
  induction vals with
  | nil =>
      intro l l' hok
      cases hok
      exact (List.append_nil _).symm
  | cons val vals ih =>
      intro l l' hok
      rw [appendAll, List.foldlM_cons] at hok
      obtain ⟨l₁, hone, hok⟩ := Outcome.bind_eq_ok.mp hok
      rw [ih hok, appendList_vals hone, List.append_assoc, List.singleton_append]

/-- As many elements as the greatest capacity holds. -/
lemma appendAll_ok (hfit : u * (8 * 2 ^ j) < 2 ^ 32) (hu : 0 < u) (vals : List α) :
    ∀ {l : DynList α}, l.GrownTo u j → l.vals.length + vals.length ≤ 8 * 2 ^ j →
    ∃ l', appendAll l vals = .ok l' ∧ l'.vals = l.vals ++ vals ∧ l'.GrownTo u j := by
  induction vals with
  | nil => exact fun {l} h _ => ⟨l, rfl, (List.append_nil _).symm, h⟩
  | cons val vals ih =>
      intro l h hlen
      rw [List.length_cons] at hlen
      obtain ⟨l₁, hok₁, hvals₁, h₁⟩ := appendList_lt h hfit hu (by omega) val
      obtain ⟨l', hok, hvals, h'⟩ := ih h₁ (by
        rw [hvals₁, List.length_append, List.length_singleton]
        omega)
      refine ⟨l', ?_, ?_, h'⟩
      · rw [appendAll, List.foldlM_cons, hok₁]
        exact hok
      · rw [hvals, hvals₁, List.append_assoc, List.singleton_append]

/-- More elements than that. -/
lemma appendAll_bounds (hfit : u * (8 * 2 ^ j) < 2 ^ 32) (hwrap : 2 ^ 32 ≤ u * (8 * 2 ^ (j + 1)))
    (hu : 0 < u) (vals : List α) (hlen : 8 * 2 ^ j < vals.length) :
    appendAll (createList α u) vals = .error .bounds := by
  have hfew : (createList α u).vals.length + (vals.take (8 * 2 ^ j)).length ≤ 8 * 2 ^ j := by
    rw [createList_vals, List.length_nil, List.length_take, Nat.zero_add]
    exact min_le_left _ _
  obtain ⟨l, hok, hvals, h⟩ := appendAll_ok hfit hu _ (grownTo_createList α u j) hfew
  have hfull : l.vals.length = 8 * 2 ^ j := by
    rw [hvals, createList_vals, List.nil_append, List.length_take]
    omega
  exact appendAll_bounds_of_full hlen hok (appendList_full h hfit hwrap hfull)

end Growing

/-! ### How long a list can grow -/

/-- The number of elements of size `u` up to which the bytes for the capacity suffice: the greatest
capacity whose bytes do not wrap, or, when those of the first block do, what is left of it. -/
def greatestLength (u : ℕ) : ℕ :=
  if u * 8 < 2 ^ 32 then 2 ^ Nat.log 2 ((2 ^ 32 - 1) / u) else u * 8 % 2 ^ 32 / u

section Length

variable {α : Type} {l : DynList α} {u : ℕ}

/-- The greatest capacity whose bytes do not wrap. -/
lemma greatestLength_of_lt (hu : 0 < u) (hfirst : u * 8 < 2 ^ 32) :
    ∃ j, greatestLength u = 8 * 2 ^ j ∧ u * (8 * 2 ^ j) < 2 ^ 32 ∧
      2 ^ 32 ≤ u * (8 * 2 ^ (j + 1)) := by
  have hle : 8 ≤ (2 ^ 32 - 1) / u := (Nat.le_div_iff_mul_le hu).mpr (by omega)
  have hlog : 3 ≤ Nat.log 2 ((2 ^ 32 - 1) / u) := Nat.le_log_of_pow_le (by decide) hle
  obtain ⟨j, hj⟩ := Nat.exists_eq_add_of_le hlog
  have hlow : 2 ^ (3 + j) ≤ (2 ^ 32 - 1) / u := hj ▸ Nat.pow_log_le_self 2 (by omega)
  have hhigh : (2 ^ 32 - 1) / u < 2 ^ (3 + j + 1) := hj ▸ Nat.lt_pow_succ_log_self (by decide) _
  have height : ∀ i, 8 * 2 ^ i = 2 ^ (3 + i) := fun i => by
    rw [pow_add]
    rfl
  refine ⟨j, ?_, ?_, ?_⟩
  · rw [greatestLength, if_pos hfirst, hj, height]
  · rw [height]
    have hmul := (Nat.mul_le_mul_left u hlow).trans (Nat.mul_div_le _ u)
    omega
  · rw [height, Nat.mul_comm, ← Nat.add_assoc]
    have hmul := (Nat.div_lt_iff_lt_mul hu).mp hhigh
    omega

/-- Elements for which there is room without a larger capacity. -/
lemma appendAll_room (vals : List α) : ∀ {l : DynList α},
    l.vals.length + vals.length ≤ l.capacity →
    l.unit * (l.vals.length + vals.length) ≤ l.bytes →
    appendAll l vals = .ok { l with vals := l.vals ++ vals } := by
  induction vals with
  | nil =>
      intro l _ _
      rw [List.append_nil]
      rfl
  | cons val vals ih =>
      intro l hcapacity hroom
      have hbytes : l.bytes < 2 ^ 32 := Nat.mod_lt _ (Nat.two_pow_pos 32)
      rw [List.length_cons] at hcapacity hroom
      have hone : l.unit * l.vals.length + l.unit ≤ l.bytes := by
        refine le_trans ?_ hroom
        rw [← Nat.mul_succ]
        exact Nat.mul_le_mul_left _ (by omega)
      have happend : appendList l val = .ok { l with vals := l.vals ++ [val] } := by
        simp only [appendList, if_neg (show l.vals.length ≠ l.capacity by omega), DynList.bytes]
        rw [Nat.mod_eq_of_lt (a := l.unit * l.vals.length) (by omega)]
        exact if_pos hone
      rw [appendAll, List.foldlM_cons, happend, Outcome.ok_bind]
      refine (ih ?_ ?_).trans ?_
      · simp only [List.length_append, List.length_singleton]
        omega
      · rw [List.length_append, List.length_singleton, Nat.add_assoc, Nat.add_comm 1]
        exact hroom
      · rw [List.append_assoc, List.singleton_append]

/-- An element that the rest of the block is too small for. -/
lemma appendList_no_room (hcapacity : l.vals.length < l.capacity)
    (hfits : l.unit * l.vals.length ≤ l.bytes) (hno : l.bytes < l.unit * l.vals.length + l.unit)
    (val : α) : appendList l val = .error .bounds := by
  have hbytes : l.bytes < 2 ^ 32 := Nat.mod_lt _ (Nat.two_pow_pos 32)
  simp only [appendList, if_neg hcapacity.ne, DynList.bytes]
  rw [Nat.mod_eq_of_lt (a := l.unit * l.vals.length) (by omega)]
  exact if_neg (not_le.mpr hno)

/-- The elements that a first block holds whose bytes wrap. -/
lemma greatestLength_of_wrap (hu : 0 < u) (hwrap : 2 ^ 32 ≤ u * 8) :
    u * greatestLength u ≤ u * 8 % 2 ^ 32 ∧ u * 8 % 2 ^ 32 < u * greatestLength u + u ∧
      greatestLength u < 8 := by
  rw [greatestLength, if_neg (not_lt.mpr hwrap)]
  refine ⟨Nat.mul_div_le _ u, ?_, ?_⟩
  · rw [← Nat.mul_succ]
    exact Nat.lt_mul_div_succ _ hu
  · rw [Nat.div_lt_iff_lt_mul hu]
    omega

/-- No more elements than the wrapped first block holds. -/
lemma firstBlock_ok (hu : 0 < u) (hwrap : 2 ^ 32 ≤ u * 8) {vals : List α}
    (hlen : vals.length ≤ greatestLength u) :
    appendAll (createList α u) vals = .ok { createList α u with vals := vals } := by
  obtain ⟨hmul, -, hfew⟩ := greatestLength_of_wrap hu hwrap
  refine appendAll_room vals ?_ ?_
  · rw [createList_vals, createList_capacity, List.length_nil, Nat.zero_add]
    omega
  · rw [createList_vals, List.length_nil, Nat.zero_add]
    exact (Nat.mul_le_mul_left u hlen).trans hmul

/-- More elements than that. -/
lemma firstBlock_bounds (hu : 0 < u) (hwrap : 2 ^ 32 ≤ u * 8) {vals : List α}
    (hlen : greatestLength u < vals.length) :
    appendAll (createList α u) vals = .error .bounds := by
  obtain ⟨hmul, hlast, hfew⟩ := greatestLength_of_wrap hu hwrap
  have htake : (vals.take (greatestLength u)).length = greatestLength u :=
    List.length_take_of_le hlen.le
  refine appendAll_bounds_of_full hlen (firstBlock_ok hu hwrap htake.le) fun val => ?_
  refine appendList_no_room (htake.trans_lt hfew) ((congrArg (u * ·) htake).trans_le hmul) ?_ val
  exact hlast.trans_eq (congrArg (u * · + u) htake.symm)

/-- **Appends to a new list**: none of them fails exactly when there are no more elements than the
greatest length for their size. -/
theorem appendAll_iff (hu : 0 < u) (vals : List α) :
    (∃ l, appendAll (createList α u) vals = .ok l) ↔ vals.length ≤ greatestLength u := by
  constructor
  · rintro ⟨l, hok⟩
    by_contra hlen
    rcases Nat.lt_or_ge (u * 8) (2 ^ 32) with hfirst | hwrap
    · obtain ⟨j, hj, hfit, hnext⟩ := greatestLength_of_lt hu hfirst
      rw [appendAll_bounds hfit hnext hu vals (hj ▸ not_le.mp hlen)] at hok
      cases hok
    · rw [firstBlock_bounds hu hwrap (not_le.mp hlen)] at hok
      cases hok
  · intro hlen
    rcases Nat.lt_or_ge (u * 8) (2 ^ 32) with hfirst | hwrap
    · obtain ⟨j, hj, hfit, -⟩ := greatestLength_of_lt hu hfirst
      obtain ⟨l, hok, -⟩ := appendAll_ok hfit hu vals (grownTo_createList α u j)
        ((Nat.zero_add _).trans_le (hlen.trans_eq hj))
      exact ⟨l, hok⟩
    · exact ⟨_, firstBlock_ok hu hwrap hlen⟩

/-- The ints that a list takes. -/
lemma greatestLength_four : greatestLength 4 = 2 ^ 29 := by decide

/-- A list of ints that takes all of them. -/
lemma appendAll_four {vals : List α} (h : vals.length ≤ 2 ^ 29) :
    ∃ l, appendAll (createList α 4) vals = .ok l ∧ l.vals = vals := by
  obtain ⟨l, hok⟩ := (appendAll_iff (by decide) vals).mpr (greatestLength_four ▸ h)
  exact ⟨l, hok, appendAll_vals vals hok⟩

/-- A list of ints that does not. -/
lemma appendAll_four_bounds {vals : List α} (h : 2 ^ 29 < vals.length) :
    appendAll (createList α 4) vals = .error .bounds :=
  @appendAll_bounds α 4 26 (by decide) (by decide) (by decide) vals h

end Length

end ColumnDb
