import ColumnDb.Library.Outcome

/-!
Words in slots of a fixed width.

A word is written at the beginning of its slot, and what follows it there ends it. `words.flatMap
(slot w z)` is a block of slots, one behind the other.

* `splice_slot`: a word that is written to the next free slot.
* `drop_slots`: the slots from one of them on.
* `takeWhile_slots`: the word that is read from the beginning of a slot, up to its end.
* `splitOnP_joined`: the words of a line that were joined by a separator.
* `foldl_joined`: a loop over the characters of a line that counts its separators.
-/

namespace ColumnDb

variable {α : Type}

/-! ### Slots -/

/-- A word in a slot of width `w`, with its end `z` up to the next slot. -/
def slot (w : ℕ) (z : α) (word : List α) : List α := word ++ List.replicate (w - word.length) z

section Slots

variable {w : ℕ} {z : α} {words : List (List α)}

lemma length_slot {word : List α} (h : word.length ≤ w) : (slot w z word).length = w := by
  rw [slot, List.length_append, List.length_replicate, Nat.add_sub_cancel' h]

lemma length_slots (h : ∀ word ∈ words, word.length ≤ w) :
    (words.flatMap (slot w z)).length = words.length * w := by
  induction words with
  | nil => rw [List.flatMap_nil, List.length_nil, List.length_nil, Nat.zero_mul]
  | cons word words ih =>
      rw [List.flatMap_cons, List.length_append, length_slot (h word List.mem_cons_self),
        ih fun word' h' => h word' (List.mem_cons_of_mem word h'), List.length_cons, Nat.succ_mul,
        Nat.add_comm]

/-- **Writing a word** with its end to the free slots behind the others. -/
theorem splice_slot {word : List α} (h : word.length < w) (slots : List α) (m : ℕ) :
    splice (slots ++ List.replicate ((m + 1) * w) z) slots.length (word ++ [z])
      = slots ++ slot w z word ++ List.replicate (m * w) z := by
  have hlen : (word ++ [z]).length = word.length + 1 := by
    rw [List.length_append, List.length_singleton]
  have hfree : (m + 1) * w = m * w + w := Nat.succ_mul m w
  rw [splice, List.take_left' rfl, List.drop_length_add_append, List.drop_replicate, hlen, slot,
    ← @List.replicate_one _ z]
  simp only [List.append_assoc, ← List.replicate_add]
  congr 3
  omega

/-- The slots from the slot `i` on. -/
lemma drop_slots (h : ∀ word ∈ words, word.length ≤ w) (rest : List α) {i : ℕ}
    (hi : i ≤ words.length) :
    (words.flatMap (slot w z) ++ rest).drop (i * w)
      = (words.drop i).flatMap (slot w z) ++ rest := by
  have htake : ∀ word ∈ words.take i, word.length ≤ w := fun word hword =>
    h word (List.mem_of_mem_take hword)
  have hlen : ((words.take i).flatMap (slot w z)).length = i * w := by
    rw [length_slots htake, List.length_take, min_eq_left hi]
  nth_rewrite 1 [← List.take_append_drop i words]
  rw [List.flatMap_append, List.append_assoc, List.drop_left' hlen]

variable [DecidableEq α]

/-- **Reading a word back** from its slot. -/
theorem takeWhile_slots (h : ∀ word ∈ words, word.length < w ∧ z ∉ word) (rest : List α) {i : ℕ}
    {word : List α} (hi : words[i]? = some word) :
    z ∈ (words.flatMap (slot w z) ++ rest).drop (i * w) ∧
      ((words.flatMap (slot w z) ++ rest).drop (i * w)).takeWhile (· ≠ z) = word := by
  obtain ⟨hlt, hget⟩ := List.getElem?_eq_some_iff.mp hi
  obtain ⟨hlen, hnot⟩ := h word (List.mem_of_getElem? hi)
  obtain ⟨k, hk⟩ : ∃ k, w - word.length = k + 1 := ⟨w - word.length - 1, by omega⟩
  have hslot : slot w z word = word ++ z :: List.replicate k z := by
    rw [slot, hk, List.replicate_succ]
  rw [drop_slots (fun word h' => (h word h').1.le) rest hlt.le, List.drop_eq_getElem_cons hlt,
    hget, List.flatMap_cons, hslot, List.append_assoc, List.append_assoc, List.cons_append]
  refine ⟨List.mem_append_right _ List.mem_cons_self, ?_⟩
  rw [List.takeWhile_append_of_pos fun x hx => decide_eq_true (ne_of_mem_of_not_mem hx hnot),
    List.takeWhile_cons_of_neg (by simp), List.append_nil]

end Slots

/-! ### Joined words -/

/-- **The words of a line** with the separator `sep` between them and another one at its end. -/
theorem splitOnP_joined {p : α → Bool} {sep last : α} (hsep : p sep = true)
    (hlast : p last = true) (rest : List α) {words : List (List α)} (hne : words ≠ [])
    (h : ∀ word ∈ words, ∀ x ∈ word, p x = false) :
    ([sep].intercalate words ++ last :: rest).splitOnP p = words ++ rest.splitOnP p := by
  induction words with
  | nil => exact absurd rfl hne
  | cons word words ih =>
      have hword := h word List.mem_cons_self
      have hrest := fun word' h' => h word' (List.mem_cons_of_mem word h')
      cases words with
      | nil =>
          rw [List.intercalate_singleton, List.splitOnP_append_cons_of_forall_mem hword last hlast]
          rfl
      | cons word' words =>
          rw [List.intercalate_cons_cons, List.append_assoc, List.append_assoc,
            List.singleton_append, List.cons_append,
            List.splitOnP_append_cons_of_forall_mem hword sep hsep, ih (by simp) hrest]

lemma mem_joined {sep x : α} {words : List (List α)} (h : x ∈ [sep].intercalate words) :
    x = sep ∨ ∃ word ∈ words, x ∈ word := by
  induction words with
  | nil => exact absurd h List.not_mem_nil
  | cons word words ih =>
      cases words with
      | nil =>
          rw [List.intercalate_singleton] at h
          exact .inr ⟨word, List.mem_cons_self, h⟩
      | cons word' words =>
          rw [List.intercalate_cons_cons, List.append_assoc, List.singleton_append] at h
          rcases List.mem_append.mp h with h | h
          · exact .inr ⟨word, List.mem_cons_self, h⟩
          rcases List.mem_cons.mp h with rfl | h
          · exact .inl rfl
          · exact (ih h).imp_right fun ⟨w, hw, hx⟩ => ⟨w, List.mem_cons_of_mem word hw, hx⟩

/-- A line of words ends with one of them. -/
lemma joined_eq_append (sep : α) {words : List (List α)} (hne : words ≠ []) :
    ∃ pre, ∃ word ∈ words, [sep].intercalate words = pre ++ word := by
  induction words with
  | nil => exact absurd rfl hne
  | cons word words ih =>
      cases words with
      | nil => exact ⟨[], word, List.mem_cons_self, List.intercalate_singleton⟩
      | cons word' words =>
          obtain ⟨pre, w, hw, heq⟩ := ih (by simp)
          exact ⟨word ++ [sep] ++ pre, w, List.mem_cons_of_mem word hw, by
            rw [List.intercalate_cons_cons, heq, List.append_assoc (word ++ [sep])]⟩

lemma foldl_fixed_of_mem {σ : Type} {step : σ → α → σ} {s : σ} {l : List α}
    (h : ∀ x ∈ l, step s x = s) : l.foldl step s = s := by
  induction l with
  | nil => rfl
  | cons x l ih =>
      rw [List.foldl_cons, h x List.mem_cons_self, ih fun y hy => h y (List.mem_cons_of_mem x hy)]

/-- **Counting separators**: the state moves on at a separator, and other characters leave it. -/
theorem foldl_joined {σ : Type} {step : σ → α → σ} {sep : α} {words : List (List α)} :
    ∀ {f : ℕ → σ}, (∀ i, step (f i) sep = f (i + 1)) →
      (∀ i < words.length, ∀ word ∈ words, ∀ x ∈ word, step (f i) x = f i) →
      ([sep].intercalate words).foldl step (f 0) = f (words.length - 1) := by
  induction words with
  | nil => exact fun {f} _ _ => rfl
  | cons word words ih =>
      intro f hsep hword
      have hfirst := foldl_fixed_of_mem (hword 0 (by simp) word List.mem_cons_self)
      cases words with
      | nil => rw [List.intercalate_singleton, hfirst]; rfl
      | cons word' words =>
          have hrest := @ih (fun i => f (i + 1)) (fun i => hsep (i + 1))
            fun i hi w hw => hword (i + 1) (by rw [List.length_cons]; omega) w
              (List.mem_cons_of_mem word hw)
          rw [List.intercalate_cons_cons, List.append_assoc, List.singleton_append,
            List.foldl_append, hfirst, List.foldl_cons, hsep, hrest]
          rfl

end ColumnDb
