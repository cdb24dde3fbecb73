import ColumnDb.Library.Outcome

/-!
Copies and stores that stay inside an array.

`copyBlock` is `memcpy` or `memmove` between two arrays or within one, and `store` an assignment
to a cell. Both end with a fault when a cell they read or write is not there, so that a run of
them that returns has touched nothing but its arrays.

* `copyBlock_eq_ok`, `store_eq_ok`: when they return, and what.
* `fillAround_ok`: an array is filled with a list that has a new cell put in at `u`, by a copy in
  front of it, a store and a copy behind it.
* `foldlM_fetch`, `foldlM_blocks`: a loop over the indices of an array, or over its blocks, is a
  loop over its cells.
* `getElem?_flatten_blocks`, `slice_flatten_blocks`: blocks of one length, one behind the other.
-/

namespace ColumnDb

section Blocks

variable {α : Type} {a src : List α} {i j k u : ℕ} {x : α}

/-- Copying `k` cells of `src` from `j` on into `a` from `i` on. -/
def copyBlock (a : List α) (i : ℕ) (src : List α) (j k : ℕ) : Outcome (List α) := do
  let xs ← slice src j k
  if i + k ≤ a.length then .ok (splice a i xs) else .error .bounds

/-- Writing the cell `i` of `a`. -/
def store (a : List α) (i : ℕ) (x : α) : Outcome (List α) :=
  if i < a.length then .ok (a.set i x) else .error .bounds

lemma copyBlock_eq_ok {b : List α} :
    copyBlock a i src j k = .ok b ↔
      j + k ≤ src.length ∧ i + k ≤ a.length ∧ splice a i ((src.drop j).take k) = b := by
  rw [copyBlock, slice]
  by_cases hj : j + k ≤ src.length
  · rw [if_pos hj, Outcome.ok_bind]
    split_ifs with hi <;> simp [hj, hi]
  · rw [if_neg hj, Outcome.error_bind]
    simp [hj]

lemma copyBlock_of_le (hj : j + k ≤ src.length) (hi : i + k ≤ a.length) :
    copyBlock a i src j k = .ok (splice a i ((src.drop j).take k)) :=
  copyBlock_eq_ok.mpr ⟨hj, hi, rfl⟩

lemma store_eq_ok {b : List α} : store a i x = .ok b ↔ i < a.length ∧ a.set i x = b := by
  rw [store]
  split_ifs with hi <;> simp [hi]

lemma store_of_lt (hi : i < a.length) : store a i x = .ok (a.set i x) := if_pos hi

/-- A copy into one array leaves its length. -/
lemma length_of_copyBlock {b : List α} (h : copyBlock a i src j k = .ok b) :
    b.length = a.length := by
  obtain ⟨hj, hi, rfl⟩ := copyBlock_eq_ok.mp h
  rw [length_splice]
  rw [List.length_take, List.length_drop]
  omega

/-- Filling an array with the first `u` cells of `src`, the cell `x`, and `k` more cells of
`src`. -/
def fillAround (a src : List α) (u k : ℕ) (x : α) : Outcome (List α) := do
  let a ← copyBlock a 0 src 0 u
  let a ← store a u x
  copyBlock a (u + 1) src u k

/-- **Filling an array around a new cell**: what the array then holds, and behind it what it held
before. -/
theorem fillAround_ok (hsrc : u + k ≤ src.length) (ha : u + 1 + k ≤ a.length) (x : α) :
    fillAround a src u k x
      = .ok (src.take u ++ [x] ++ (src.drop u).take k ++ a.drop (u + 1 + k)) := by
  have hfront : splice a 0 (src.take u) = src.take u ++ a.drop u := by
    rw [splice, List.take_zero, List.nil_append, Nat.zero_add, List.length_take,
      min_eq_left (by omega)]
  have hlen : (src.take u).length = u := by
    rw [List.length_take]
    omega
  have hset : (src.take u ++ a.drop u).set u x = src.take u ++ [x] ++ a.drop (u + 1) := by
    rw [List.set_append_right _ _ hlen.le, hlen, Nat.sub_self,
      List.drop_eq_getElem_cons (by omega), List.set_cons_zero, List.append_assoc,
      List.singleton_append]
  have hlen' : (src.take u ++ [x]).length = u + 1 := by
    rw [List.length_append, hlen, List.length_singleton]
  rw [fillAround, copyBlock_of_le (by omega) (by omega), Outcome.ok_bind, List.drop_zero, hfront,
    store_of_lt (by rw [List.length_append, hlen, List.length_drop]; omega), Outcome.ok_bind, hset,
    copyBlock_of_le hsrc (by rw [List.length_append, hlen', List.length_drop]; omega)]
  have hk : ((src.drop u).take k).length = k := by
    rw [List.length_take, List.length_drop]
    omega
  rw [splice, List.take_left' hlen', hk, ← hlen', List.drop_length_add_append, List.drop_drop]

/-- **Reading by indices**: a loop over the indices from `i` on that reads a cell in every turn runs
over these cells. -/
theorem foldlM_fetch {β : Type} (e : Fault) (cells : List α) (turn : β → α → Outcome β) :
    ∀ (i k : ℕ) (s : β), i + k = cells.length →
      (List.range' i k).foldlM (fun s v => fetch e cells v >>= turn s) s
        = (cells.drop i).foldlM turn s := by
  intro i k
  induction k generalizing i with
  | zero =>
      intro s hk
      rw [List.drop_eq_nil_of_le (by omega)]
      rfl
  | succ k ih =>
      intro s hk
      rw [List.range'_succ, List.foldlM_cons, fetch_of_lt (by omega), Outcome.ok_bind,
        List.drop_eq_getElem_cons (by omega), List.foldlM_cons]
      congr 1
      funext s'
      exact ih (i + 1) s' (by omega)

/-- **Reading by blocks** of `w` cells: a loop that runs over the cells of one block after the
other, and fails at an empty one, runs over the cells of the blocks. -/
theorem foldlM_blocks {β : Type} {cells : List α} {turn : β → α × ℕ → Outcome β}
    {block : β → ℕ → Outcome β} {w n : ℕ} {e : Fault} (hw : 0 < w)
    (hblock : ∀ s v, block s v = if (cells.drop (v * w)).take w = [] then .error e
      else (((cells.drop (v * w)).take w).zipIdx (v * w)).foldlM turn s)
    (hn : ∀ v < n, v * w < cells.length) (s : β) :
    (List.range n).foldlM block s = (cells.take (n * w)).zipIdx.foldlM turn s := by
  induction n with
  | zero => simp
  | succ n ih =>
      have hlt := hn n (by omega)
      have hne : (cells.drop (n * w)).take w ≠ [] := by
        intro h
        have hlen := congrArg List.length h
        rw [List.length_take, List.length_drop, List.length_nil] at hlen
        omega
      rw [List.range_succ, List.foldlM_append, ih fun v hv => hn v (by omega), Nat.succ_mul,
        List.take_add, List.zipIdx_append, List.foldlM_append, List.length_take, min_eq_left hlt.le,
        Nat.zero_add]
      congr 1
      funext s'
      rw [List.foldlM_cons, hblock, if_neg hne]
      exact bind_pure _

end Blocks

/-! ### Blocks of one length, one behind the other -/

section Flatten

variable {α : Type} {w : ℕ} {blocks : List (List α)}

lemma length_flatten_blocks (h : ∀ block ∈ blocks, block.length = w) :
    blocks.flatten.length = blocks.length * w := by
  rw [List.length_flatten, List.map_congr_left h, List.map_const', List.sum_replicate, smul_eq_mul]

/-- A cell of a block. -/
lemma getElem?_flatten_blocks (h : ∀ block ∈ blocks, block.length = w) {i j : ℕ} (hi : i < w) :
    blocks.flatten[j * w + i]? = blocks[j]? >>= fun block => block[i]? := by
  induction blocks generalizing j with
  | nil => rfl
  | cons block blocks ih =>
      have hlen := h block List.mem_cons_self
      rw [List.flatten_cons]
      cases j with
      | zero =>
          rw [Nat.zero_mul, Nat.zero_add, List.getElem?_append_left (hlen ▸ hi)]
          rfl
      | succ j =>
          rw [Nat.succ_mul, List.getElem?_append_right (by omega),
            show j * w + w + i - block.length = j * w + i by omega,
            ih fun block' hblock => h block' (List.mem_cons_of_mem _ hblock)]
          rfl

/-- A block is read as a whole. -/
lemma slice_flatten_blocks (h : ∀ block ∈ blocks, block.length = w) (rest : List α) {j : ℕ}
    (hj : j < blocks.length) : slice (blocks.flatten ++ rest) (j * w) w = .ok blocks[j] := by
  have hlen : (blocks.take j).flatten.length = j * w := by
    rw [length_flatten_blocks fun block hblock => h block (List.mem_of_mem_take hblock),
      List.length_take, min_eq_left hj.le]
  have hcut : blocks.flatten
      = (blocks.take j).flatten ++ (blocks[j] ++ (blocks.drop (j + 1)).flatten) := by
    rw [← List.flatten_cons, List.getElem_cons_drop, ← List.flatten_append, List.take_append_drop]
  have hblock : blocks[j].length = w := h _ (List.getElem_mem hj)
  have hroom : j * w + w ≤ (blocks.flatten ++ rest).length := by
    rw [List.length_append, hcut, List.length_append, List.length_append]
    omega
  rw [slice_of_le hroom, hcut, List.append_assoc, List.drop_left' hlen, List.append_assoc,
    List.take_left' hblock]

end Flatten

end ColumnDb
