import Mathlib.Tactic

/-!
Matching entries of two lists, and the layout of a list in buckets.

* `matching p l l'`: the pairs of entries that `p` relates, in the order of a nested loop;
  the order of the two loops does not matter up to a permutation (`matching_swap`).
* `bucketStart h l b`, `bucket h l b`: where the entries with hash `b` start when `l` is laid
  out by hash, and these entries in their order. Regions of different buckets do not overlap
  (`bucketStart_add_ne`).
* `Filled h l table pre`: the entries of `pre`, a beginning of `l`, stand in their regions;
  placing the next entry keeps this (`Filled.place`).
-/

namespace ColumnDb

variable {α β γ : Type}

/-! ### Matching -/

/-- The pairs of entries of `l` and `l'` that `p` relates, put together by `f`. -/
def matching (p : α → β → Bool) (f : α → β → γ) (l : List α) (l' : List β) : List γ :=
  l.flatMap fun a => (l'.filter (p a)).map (f a)

lemma matching_cons (p : α → β → Bool) (f : α → β → γ) (a : α) (l : List α) (l' : List β) :
    matching p f (a :: l) l' = (l'.filter (p a)).map (f a) ++ matching p f l l' := rfl

lemma map_matching {δ : Type} (p : α → β → Bool) (f : α → β → γ) (g : γ → δ) (l : List α)
    (l' : List β) : (matching p f l l').map g = matching p (fun a b => g (f a b)) l l' := by
  simp [matching, List.map_flatMap, Function.comp_def]

lemma map_filter_eq_flatMap (q : β → Bool) (g : β → γ) (l : List β) :
    (l.filter q).map g = l.flatMap fun b => if q b then [g b] else [] := by
  induction l with
  | nil => rfl
  | cons b l ih =>
      rw [List.filter_cons, List.flatMap_cons, ← ih]
      split_ifs <;> rfl

/-- Permuting the lists permutes the pairs. -/
lemma matching_perm (p : α → β → Bool) (f : α → β → γ) {l l₀ : List α} {l' l₀' : List β}
    (h : l.Perm l₀) (h' : l'.Perm l₀') : (matching p f l l').Perm (matching p f l₀ l₀') :=
  h.flatMap fun _ _ => (h'.filter _).map _

/-- **Exchanging the loops** permutes the pairs. -/
theorem matching_swap (p : α → β → Bool) (f : α → β → γ) (l : List α) (l' : List β) :
    (matching p f l l').Perm (matching (fun b a => p a b) (fun b a => f a b) l' l) := by
  induction l with
  | nil => simp [matching]
  | cons a l ih =>
      have hsplit : matching (fun b a => p a b) (fun b a => f a b) l' (a :: l)
          = l'.flatMap fun b => (if p a b then [f a b] else [])
              ++ (l.filter fun a => p a b).map fun a => f a b := by
        refine congrArg (List.flatMap · l') (funext fun b => ?_)
        rw [List.filter_cons]
        split_ifs <;> rfl
      rw [matching_cons, map_filter_eq_flatMap, hsplit]
      exact (ih.append_left _).trans (List.flatMap_append_perm l' _ _)

/-! ### Buckets -/

section Buckets

variable (h : α → ℕ) (l : List α)

/-- The number of entries in buckets below `b`. -/
def bucketStart (b : ℕ) : ℕ := l.countP fun a => h a < b

/-- The entries in the bucket `b`. -/
def bucket (b : ℕ) : List α := l.filter fun a => h a = b

variable {h l}

lemma bucket_append (l l' : List α) (b : ℕ) :
    bucket h (l ++ l') b = bucket h l b ++ bucket h l' b := List.filter_append _ _

lemma bucket_singleton_self (a : α) : bucket h [a] (h a) = [a] := by simp [bucket]

lemma bucket_singleton_of_ne {a : α} {b : ℕ} (hb : h a ≠ b) : bucket h [a] b = [] := by
  simp [bucket, hb]

lemma bucketStart_zero : bucketStart h l 0 = 0 := by simp [bucketStart]

lemma bucketStart_succ (b : ℕ) :
    bucketStart h l (b + 1) = bucketStart h l b + (bucket h l b).length := by
  rw [bucketStart, bucketStart, bucket, ← List.countP_eq_length_filter]
  induction l with
  | nil => rfl
  | cons a l ih =>
      simp only [List.countP_cons, ih, decide_eq_true_eq]
      split_ifs <;> omega

lemma bucketStart_mono {b b' : ℕ} (hb : b ≤ b') : bucketStart h l b ≤ bucketStart h l b' :=
  List.countP_mono_left fun a _ ha => by
    have hlt : h a < b := by simpa using ha
    simpa using hlt.trans_le hb

/-- The regions end with the list. -/
lemma bucketStart_eq_length {b : ℕ} (hb : ∀ a ∈ l, h a < b) : bucketStart h l b = l.length := by
  rw [bucketStart, List.countP_eq_length]
  exact fun a ha => by simpa using hb a ha

lemma bucketStart_add_lt {b r : ℕ} (hr : r < (bucket h l b).length) :
    bucketStart h l b + r < l.length := by
  have hle : bucketStart h l (b + 1) ≤ l.length := List.countP_le_length
  rw [bucketStart_succ] at hle
  omega

/-- **The regions of two buckets do not overlap.** -/
theorem bucketStart_add_ne {b b' r r' : ℕ} (hb : b ≠ b') (hr : r < (bucket h l b).length)
    (hr' : r' < (bucket h l b').length) : bucketStart h l b + r ≠ bucketStart h l b' + r' := by
  rcases Nat.lt_or_gt_of_ne hb with hlt | hlt
  · have := bucketStart_mono (h := h) (l := l) (show b + 1 ≤ b' from hlt)
    rw [bucketStart_succ] at this
    omega
  · have := bucketStart_mono (h := h) (l := l) (show b' + 1 ≤ b from hlt)
    rw [bucketStart_succ] at this
    omega

variable (h l) in
/-- The entries of `pre` stand in the regions of their buckets, in their order. -/
def Filled (table : List (Option α)) (pre : List α) : Prop :=
  ∀ b r a, (bucket h pre b)[r]? = some a → table[bucketStart h l b + r]? = some (some a)

lemma Filled.nil (table : List (Option α)) : Filled h l table [] := by
  intro b r a ha
  simp [bucket] at ha

/-- The entries in a bucket so far, before the next one comes, leave room for it. -/
lemma length_bucket_lt {pre rest : List α} {a : α} (hl : l = pre ++ a :: rest) :
    (bucket h pre (h a)).length < (bucket h l (h a)).length := by
  rw [hl, List.append_cons, bucket_append, bucket_append, bucket_singleton_self]
  simp only [List.length_append, List.length_singleton]
  omega

/-- Placing the next entry behind those of its bucket. -/
lemma Filled.place {table : List (Option α)} {pre rest : List α} {a : α}
    (hl : l = pre ++ a :: rest) (hlen : table.length = l.length) (hf : Filled h l table pre) :
    Filled h l
      (table.set (bucketStart h l (h a) + (bucket h pre (h a)).length) (some a)) (pre ++ [a]) := by
  have hroom := length_bucket_lt (h := h) hl
  have hin := bucketStart_add_lt hroom
  have hpre : ∀ b, (bucket h pre b).length ≤ (bucket h l b).length := by
    intro b
    rw [hl, bucket_append, List.length_append]
    omega
  intro b r x hx
  rw [bucket_append] at hx
  by_cases hb : h a = b
  · subst hb
    rw [bucket_singleton_self] at hx
    by_cases hr : r < (bucket h pre (h a)).length
    · rw [List.getElem?_append_left hr] at hx
      rw [List.getElem?_set_ne (by omega)]
      exact hf _ _ _ hx
    · rw [List.getElem?_append_right (by omega)] at hx
      have hr' := (List.getElem?_eq_some_iff.mp hx).1
      rw [List.length_singleton] at hr'
      obtain rfl : r = (bucket h pre (h a)).length := by omega
      rw [Nat.sub_self] at hx
      cases hx
      rw [List.getElem?_set_self (by omega)]
  · rw [bucket_singleton_of_ne hb, List.append_nil] at hx
    have hr := (List.getElem?_eq_some_iff.mp hx).1
    rw [List.getElem?_set_ne (bucketStart_add_ne hb hroom (hr.trans_le (hpre b)))]
    exact hf _ _ _ hx

end Buckets

end ColumnDb
