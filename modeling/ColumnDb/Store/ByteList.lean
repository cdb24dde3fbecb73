import ColumnDb.Library.Blocks
import ColumnDb.Library.Related
import ColumnDb.Store.DynList

/-!
The growing list as the bytes it takes (`list.c`).

* `ByteList`: `list_t`, with unsigned ints of 32 bits and the bytes of its memory. A byte that
  nobody has written yet has no value.
* `ByteList.Holds`: the bytes are those of the elements of a `DynList`, one behind the other.
* `ByteList.appendList_related`: an append does to the bytes what it does to the elements, and
  `ByteList.appendAll_related` is a run of them.
* `byteList_run_iff`: then, and only then, the memory is large enough, and every element is read
  back.
-/

namespace ColumnDb

/-! ### The functions of the source -/

/-- `list_t`. -/
structure ByteList where
  unit : BitVec 32
  next : BitVec 32
  capacity : BitVec 32
  data : List (Option UInt8)
  deriving DecidableEq

/-- `realloc`: the bytes that fit stay, and new ones have no value. -/
def realloc (data : List (Option UInt8)) (bytes : ℕ) : List (Option UInt8) :=
  data.take bytes ++ List.replicate (bytes - data.length) none

namespace ByteList

/-- `create_list_of_size`. -/
def createListOfSize (size unit : BitVec 32) : ByteList where
  unit := unit
  next := 0
  capacity := (size + 1) <<< 1
  data := List.replicate (unit * ((size + 1) <<< 1)).toNat none

/-- `create_list`. -/
def createList (unit : BitVec 32) : ByteList := createListOfSize (.ofNat 32 defaultDynArrSize) unit

/-- `get_list_val`: the bytes at the pointer it returns. -/
def getListVal (l : ByteList) (index : BitVec 32) : Outcome (List (Option UInt8)) :=
  slice l.data (l.unit * index).toNat l.unit.toNat

/-- The first branch of `append_list`: a full list doubles its capacity. -/
def grow (l : ByteList) : ByteList :=
  if l.next = l.capacity then
    { l with
      capacity := l.capacity <<< 1
      data := realloc l.data (l.unit * (l.capacity <<< 1)).toNat }
  else l

/-- `append_list`. -/
def appendList (l : ByteList) (val : List UInt8) : Outcome ByteList := do
  let l := l.grow
  let data ← copyBlock l.data (l.unit * l.next).toNat (val.map some) 0 l.unit.toNat
  .ok { l with data := data, next := l.next + 1 }

end ByteList

/-! ### The elements in the bytes -/

section Bytes

variable {l : ByteList} {d d' : DynList (List UInt8)} {val : List UInt8}

/-- The bytes of a list hold elements of its unit, which fit the memory. -/
structure ByteList.Holds (l : ByteList) (d : DynList (List UInt8)) : Prop where
  unit : l.unit.toNat = d.unit
  next : l.next.toNat = d.vals.length
  capacity : l.capacity.toNat = d.capacity
  length : l.data.length = d.bytes
  vals : ∀ val ∈ d.vals, val.length = d.unit
  fits : d.vals.length * d.unit ≤ d.bytes
  data : d.vals.flatten.map some <+: l.data

lemma toNat_shiftLeft_one (x : BitVec 32) : (x <<< 1).toNat = x.toNat * 2 % 2 ^ 32 := by
  rw [BitVec.toNat_shiftLeft, Nat.shiftLeft_eq, pow_one]

lemma length_realloc (data : List (Option UInt8)) (bytes : ℕ) :
    (realloc data bytes).length = bytes := by
  rw [realloc, List.length_append, List.length_take, List.length_replicate]
  omega

/-- What was written and still fits stays. -/
lemma prefix_realloc {data written : List (Option UInt8)} {bytes : ℕ} (h : written <+: data)
    (hlen : written.length ≤ bytes) : written <+: realloc data bytes := by
  obtain ⟨rest, rfl⟩ := h
  rw [realloc, List.take_append, List.take_of_length_le hlen, List.append_assoc]
  exact List.prefix_append _ _

lemma holds_createList (unit : BitVec 32) :
    (ByteList.createList unit).Holds (createList (List UInt8) unit.toNat) where
  unit := rfl
  next := rfl
  capacity := rfl
  length := by
    rw [ByteList.createList, ByteList.createListOfSize, List.length_replicate, BitVec.toNat_mul]
    rfl
  vals := fun _ h => absurd h List.not_mem_nil
  fits := by
    rw [createList_vals, List.length_nil, Nat.zero_mul]
    exact Nat.zero_le _
  data := List.nil_prefix

/-- The list of elements after the first branch. -/
def DynList.grow {α : Type} (d : DynList α) : DynList α :=
  { d with
    capacity := if d.vals.length = d.capacity then d.capacity * 2 % 2 ^ 32 else d.capacity }

lemma appendList_eq {α : Type} (d : DynList α) (val : α) :
    appendList d val
      = if d.unit * d.vals.length % 2 ^ 32 + d.unit ≤ d.grow.bytes then
          .ok { d.grow with vals := d.vals ++ [val] }
        else .error .bounds := rfl

namespace ByteList

@[simp] lemma grow_unit (l : ByteList) : l.grow.unit = l.unit := by
  rw [grow]
  split_ifs <;> rfl

@[simp] lemma grow_next (l : ByteList) : l.grow.next = l.next := by
  rw [grow]
  split_ifs <;> rfl

namespace Holds

lemma full_iff (h : l.Holds d) : l.next = l.capacity ↔ d.vals.length = d.capacity := by
  rw [← h.next, ← h.capacity, BitVec.toNat_inj]

lemma grow_capacity (h : l.Holds d) : l.grow.capacity.toNat = d.grow.capacity := by
  rw [grow, DynList.grow]
  by_cases hfull : l.next = l.capacity
  · rw [if_pos hfull, if_pos (h.full_iff.mp hfull), toNat_shiftLeft_one, h.capacity]
  · rw [if_neg hfull, if_neg (mt h.full_iff.mpr hfull), h.capacity]

/-- The memory has the bytes for the capacity, also after it has grown. -/
lemma grow_length (h : l.Holds d) : l.grow.data.length = d.grow.bytes := by
  rw [DynList.bytes, ← h.grow_capacity, show d.grow.unit = d.unit from rfl, ← h.unit, grow]
  by_cases hfull : l.next = l.capacity
  · rw [if_pos hfull, length_realloc, BitVec.toNat_mul]
  · rw [if_neg hfull, h.length, DynList.bytes, h.unit, h.capacity]

lemma length_flatten (h : l.Holds d) : d.vals.flatten.length = d.vals.length * d.unit :=
  length_flatten_blocks h.vals

/-- The offset of the next element does not wrap. -/
lemma offset (h : l.Holds d) : (l.unit * l.next).toNat = d.vals.length * d.unit := by
  have hbytes : d.bytes < 2 ^ 32 := Nat.mod_lt _ (Nat.two_pow_pos 32)
  rw [BitVec.toNat_mul, h.unit, h.next, Nat.mul_comm, Nat.mod_eq_of_lt (h.fits.trans_lt hbytes)]

/-- What was written stays in a memory that has grown enough for it. -/
lemma grow_data (h : l.Holds d) (hfits : d.vals.length * d.unit ≤ d.grow.bytes) :
    d.vals.flatten.map some <+: l.grow.data := by
  rw [grow]
  by_cases hfull : l.next = l.capacity
  · have hlen := h.grow_length
    rw [grow, if_pos hfull, length_realloc] at hlen
    rw [if_pos hfull]
    refine prefix_realloc h.data ?_
    rw [List.length_map, h.length_flatten, hlen]
    exact hfits
  · rw [if_neg hfull]
    exact h.data

/-- **An element is read back.** -/
theorem getListVal_eq (h : l.Holds d) {i : ℕ} (hi : i < d.vals.length) :
    l.getListVal (.ofNat 32 i) = .ok (d.vals[i].map some) := by
  have hnext := h.next ▸ l.next.isLt
  have hbytes : d.bytes < 2 ^ 32 := Nat.mod_lt _ (Nat.two_pow_pos 32)
  have hle : i * d.unit ≤ d.vals.length * d.unit := Nat.mul_le_mul_right _ hi.le
  have hoffset : (l.unit * .ofNat 32 i).toNat = i * d.unit := by
    rw [BitVec.toNat_mul, BitVec.toNat_ofNat, Nat.mod_eq_of_lt (hi.trans hnext), h.unit,
      Nat.mul_comm, Nat.mod_eq_of_lt ((hle.trans h.fits).trans_lt hbytes)]
  have hblocks : ∀ block ∈ d.vals.map (List.map some), block.length = d.unit := by
    intro block hblock
    obtain ⟨val, hval, rfl⟩ := List.mem_map.mp hblock
    rw [List.length_map, h.vals val hval]
  obtain ⟨rest, hrest⟩ := h.data
  rw [getListVal, hoffset, h.unit, ← hrest, List.map_flatten,
    slice_flatten_blocks hblocks rest (by rwa [List.length_map]), List.getElem_map]

end Holds

/-- An element that fits the memory is written behind the others. -/
lemma Holds.append (h : l.Holds d) (hpos : 0 < d.unit) (hval : val.length = d.unit)
    (hroom : d.vals.length * d.unit + d.unit ≤ d.grow.bytes) :
    ({ l.grow with
        data := splice l.grow.data (d.vals.length * d.unit) (val.map some)
        next := l.next + 1 } : ByteList).Holds { d.grow with vals := d.vals ++ [val] } := by
  have hbytes : d.grow.bytes < 2 ^ 32 := Nat.mod_lt _ (Nat.two_pow_pos 32)
  have hfits : (d.vals.length + 1) * d.unit ≤ d.grow.bytes := by
    rw [Nat.succ_mul]
    exact hroom
  have hnext : d.vals.length + 1 < 2 ^ 32 :=
    ((Nat.le_mul_of_pos_right _ hpos).trans hfits).trans_lt hbytes
  constructor
  case unit => exact (congrArg BitVec.toNat l.grow_unit).trans h.unit
  case next =>
    show (l.next + 1).toNat = (d.vals ++ [val]).length
    rw [BitVec.toNat_add, h.next, List.length_append, List.length_singleton]
    exact Nat.mod_eq_of_lt hnext
  case capacity => exact h.grow_capacity
  case length =>
    refine (length_splice ?_).trans h.grow_length
    rw [List.length_map, hval, h.grow_length]
    exact hroom
  case vals =>
    intro val' hval'
    rcases List.mem_append.mp hval' with hval' | hval'
    · exact h.vals val' hval'
    · exact List.mem_singleton.mp hval' ▸ hval
  case fits =>
    show (d.vals ++ [val]).length * d.unit ≤ d.grow.bytes
    rwa [List.length_append, List.length_singleton]
  case data =>
    obtain ⟨rest, hrest⟩ := h.grow_data (by omega)
    have hlen : (d.vals.flatten.map some).length = d.vals.length * d.unit := by
      rw [List.length_map, h.length_flatten]
    show (d.vals ++ [val]).flatten.map some <+: splice l.grow.data _ (val.map some)
    rw [← hrest, splice, List.take_left' hlen, List.flatten_append, List.flatten_singleton,
      List.map_append]
    exact List.prefix_append _ _

/-- **An append** does to the bytes what it does to the elements. -/
theorem appendList_related (h : l.Holds d) (hpos : 0 < d.unit) (hval : val.length = d.unit) :
    Outcome.Related (fun d' l' => l'.Holds d' ∧ d'.unit = d.unit) (ColumnDb.appendList d val)
      (l.appendList val) := by
  have hoffset := h.offset
  have hsame : d.unit * d.vals.length % 2 ^ 32 = d.vals.length * d.unit := by
    rw [← hoffset, BitVec.toNat_mul, h.unit, h.next]
  have hread : slice (val.map some) 0 d.unit = .ok (val.map some) := by
    rw [slice_of_le (by rw [List.length_map]; omega), List.drop_zero,
      List.take_of_length_le (by rw [List.length_map, hval])]
  have hcopy : copyBlock l.grow.data (l.grow.unit * l.grow.next).toNat (val.map some) 0
      l.grow.unit.toNat = if d.vals.length * d.unit + d.unit ≤ d.grow.bytes then
        .ok (splice l.grow.data (d.vals.length * d.unit) (val.map some)) else .error .bounds := by
    rw [grow_unit, grow_next, hoffset, h.unit, copyBlock, hread, Outcome.ok_bind, h.grow_length]
  rw [appendList_eq, hsame, appendList, hcopy]
  by_cases hroom : d.vals.length * d.unit + d.unit ≤ d.grow.bytes
  · rw [if_pos hroom, if_pos hroom, Outcome.ok_bind, grow_next]
    exact .ok ⟨h.append hpos hval hroom, rfl⟩
  · rw [if_neg hroom, if_neg hroom]
    exact .error .bounds

/-- **Appends one after the other.** -/
theorem appendAll_related {u : ℕ} (hpos : 0 < u) (vals : List (List UInt8))
    (hvals : ∀ val ∈ vals, val.length = u) (h : l.Holds d) (hunit : d.unit = u) :
    Outcome.Related (fun d' l' => l'.Holds d' ∧ d'.unit = u) (appendAll d vals)
      (vals.foldlM appendList l) := by
  refine Outcome.Related.foldlM vals (fun val hval d₁ l₁ hrel => ?_) ⟨h, hunit⟩
  obtain ⟨h₁, rfl⟩ := hrel
  exact appendList_related h₁ hpos (hvals val hval)

end ByteList

end Bytes

/-! ### Appends to a new list -/

section Runs

variable {unit : BitVec 32} {vals : List (List UInt8)}

/-- What a list is after the appends of `vals`: it has the elements, no more than its capacity, the
bytes it asked for suffice for them, and every one of them is read back. -/
structure ByteList.Appended (unit : BitVec 32) (vals : List (List UInt8)) (l : ByteList) :
    Prop where
  next : l.next.toNat = vals.length
  capacity : l.next ≤ l.capacity
  bytes : unit.toNat * l.next.toNat ≤ (unit * l.capacity).toNat
  read : ∀ i (hi : i < vals.length), l.getListVal (.ofNat 32 i) = .ok (vals[i].map some)

lemma ByteList.Holds.appended {l : ByteList} {d : DynList (List UInt8)} (h : l.Holds d)
    (hunit : d.unit = unit.toNat) (hpos : 0 < unit.toNat) (hvals : d.vals = vals) :
    l.Appended unit vals := by
  have hfits : unit.toNat * d.vals.length ≤ unit.toNat * d.capacity % 2 ^ 32 := by
    rw [Nat.mul_comm, ← hunit]
    exact h.fits
  constructor
  case next => rw [h.next, hvals]
  case capacity =>
    rw [BitVec.le_def, h.next, h.capacity]
    exact Nat.le_of_mul_le_mul_left (hfits.trans (Nat.mod_le _ _)) hpos
  case bytes =>
    rw [BitVec.toNat_mul, h.next, h.capacity]
    exact hfits
  case read =>
    subst hvals
    exact fun i hi => h.getListVal_eq hi

/-- Appends to a new list fail in the bytes where they fail for the elements. -/
lemma byteList_run_ok_iff (hpos : 0 < unit.toNat) (hvals : ∀ val ∈ vals, val.length = unit.toNat) :
    (∃ l, vals.foldlM ByteList.appendList (ByteList.createList unit) = .ok l) ↔
      vals.length ≤ greatestLength unit.toNat := by
  have hrun := ByteList.appendAll_related hpos vals hvals (holds_createList unit) rfl
  rw [← @appendAll_iff (List UInt8) _ hpos vals]
  constructor
  · rintro ⟨l, hl⟩
    obtain ⟨d, hd, -⟩ := hrun.ok_right hl
    exact ⟨d, hd⟩
  · rintro ⟨d, hd⟩
    obtain ⟨l, hl, -⟩ := hrun.ok_left hd
    exact ⟨l, hl⟩

/-- **Appends to a new list**, in 32-bit arithmetic: the elements, the bytes and what is read back
are right exactly when the elements are no more than the greatest length for their size. -/
theorem byteList_run_iff (unit : BitVec 32) (hpos : 1 ≤ unit.toNat) (vals : List (List UInt8))
    (hvals : ∀ val ∈ vals, val.length = unit.toNat) :
    (∃ l, vals.foldlM ByteList.appendList (ByteList.createList unit) = .ok l ∧
      l.Appended unit vals) ↔ vals.length ≤ greatestLength unit.toNat := by
  rw [← byteList_run_ok_iff hpos hvals]
  constructor
  · rintro ⟨l, hl, -⟩
    exact ⟨l, hl⟩
  · rintro ⟨l, hl⟩
    have hrun := ByteList.appendAll_related hpos vals hvals (holds_createList unit) rfl
    obtain ⟨d, hd, hholds, hunit⟩ := hrun.ok_right hl
    exact ⟨l, hl, hholds.appended hunit hpos ((appendAll_vals vals hd).trans (List.nil_append _))⟩

/-- `byteList_run_iff` at ten ints of four bytes, which fill the first block and grow the list. -/
theorem tenInts_run : ∃ l,
    ((List.range 10).map fun i => [.ofNat i, 0, 0, 0]).foldlM ByteList.appendList
      (ByteList.createList 4) = .ok l ∧
    l.Appended 4 ((List.range 10).map fun i => [.ofNat i, 0, 0, 0]) :=
  (byteList_run_iff 4 (by decide) ((List.range 10).map fun i => [.ofNat i, 0, 0, 0])
    (by decide)).mpr (by decide)

/-- With four bytes for an element the capacity of `2 ^ 29` is the last one. -/
lemma zeros_run {n : ℕ} (hn : 2 ^ 29 < n) {l : ByteList} :
    (List.replicate n [0, 0, 0, 0]).foldlM ByteList.appendList (ByteList.createList 4) ≠ .ok l := by
  intro hl
  have hvals : ∀ val ∈ List.replicate n [(0 : UInt8), 0, 0, 0], val.length = 4 := fun val hval => by
    rw [List.eq_of_mem_replicate hval]
    rfl
  have hlen : (List.replicate n [(0 : UInt8), 0, 0, 0]).length ≤ greatestLength 4 :=
    (byteList_run_ok_iff (by decide) hvals).mp ⟨l, hl⟩
  rw [List.length_replicate, greatestLength_four] at hlen
  omega

/-- One int more than that: the bytes for the next capacity wrap to `0`. -/
theorem oneIntMore_run : ¬ ∃ l,
    (List.replicate (2 ^ 29 + 1) [0, 0, 0, 0]).foldlM ByteList.appendList
      (ByteList.createList 4) = .ok l ∧
    l.Appended 4 (List.replicate (2 ^ 29 + 1) [0, 0, 0, 0]) := by
  rintro ⟨l, hl, -⟩
  exact zeros_run (by norm_num) hl

end Runs

end ColumnDb
