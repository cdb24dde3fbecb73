import Mathlib.Tactic

/-!
Outcomes of imperative code, and the two kinds of memory it works on.

* `Fault`, `Outcome`: a computation ends with a value or with one of the five ways in
  which a C program does not return one. `Outcome.bind_eq_ok` takes a computation apart
  at its first step, `foldlM_inv` is the invariant rule for a loop over a list: what
  each turn preserves, the loop preserves, and `foldlM_ok` the rule for a loop whose turns all
  complete.
* `fetch`: reading a cell that has to exist.
* `writeAt`: writing a record of a file, which grows when the record lies past its end.
* `slice`, `splice`: reading a block of an array and copying one into it, the two sides of
  `memcpy`.
-/

namespace ColumnDb

/-! ### Outcomes -/

/-- The ways a computation ends without a value: a failed assertion, a call of `exit`, an
access outside the memory it may touch, any other behaviour the language leaves undefined,
and a loop or recursion that does not end. -/
inductive Fault where
  | assertion
  | exit
  | bounds
  | undefined
  | diverge
  deriving DecidableEq, Repr

/-- The outcome of a computation with results in `α`. -/
abbrev Outcome (α : Type) := Except Fault α

section Outcome

variable {α β σ : Type}

@[simp] lemma Outcome.ok_bind (a : α) (k : α → Outcome β) : (Except.ok a >>= k) = k a := rfl

@[simp] lemma Outcome.error_bind (e : Fault) (k : α → Outcome β) :
    ((Except.error e : Outcome α) >>= k) = .error e := rfl

/-- A sequence of two steps returns exactly when both do. -/
lemma Outcome.bind_eq_ok {x : Outcome α} {k : α → Outcome β} {b : β} :
    (x >>= k) = .ok b ↔ ∃ a, x = .ok a ∧ k a = .ok b := by
  cases x with
  | error e => simp
  | ok a => simp

lemma Outcome.map_eq_ok {x : Outcome α} {f : α → β} {b : β} :
    x.map f = .ok b ↔ ∃ a, x = .ok a ∧ f a = b := by
  cases x with
  | error e => simp [Except.map]
  | ok a => simp [Except.map]

/-- A loop that collects a result for every cell returns exactly when every turn does. -/
lemma Outcome.mapM_eq_ok {f : α → Outcome β} {l : List α} {l' : List β} :
    l.mapM f = .ok l' ↔ List.Forall₂ (fun a b => f a = .ok b) l l' := by
  induction l generalizing l' with
  | nil =>
      rw [List.mapM_nil, List.forall₂_nil_left_iff]
      exact ⟨fun h => (Except.ok.inj h).symm, fun h => h ▸ rfl⟩
  | cons a l ih =>
      rw [List.mapM_cons, bind_eq_ok, List.forall₂_cons_left_iff]
      refine exists_congr fun b => ?_
      constructor
      · rintro ⟨hb, h⟩
        obtain ⟨bs, hbs, h⟩ := bind_eq_ok.mp h
        cases h
        exact ⟨bs, hb, ih.mp hbs, rfl⟩
      · rintro ⟨bs, hb, hbs, rfl⟩
        exact ⟨hb, by rw [ih.mpr hbs]; rfl⟩

lemma Outcome.length_mapM {f : α → Outcome β} {l : List α} {l' : List β} (h : l.mapM f = .ok l') :
    l'.length = l.length := (mapM_eq_ok.mp h).length_eq.symm

/-- **The invariant rule for loops**: what every completed turn preserves holds at the end
of every completed run. -/
theorem foldlM_inv_of_mem {P : σ → Prop} {step : σ → α → Outcome σ} (l : List α)
    (hstep : ∀ a ∈ l, ∀ s s', P s → step s a = .ok s' → P s') :
    ∀ s s' : σ, P s → l.foldlM step s = .ok s' → P s' := by
  induction l with
  | nil =>
      intro s s' hs h
      rw [List.foldlM_nil] at h
      cases h
      exact hs
  | cons a l ih =>
      intro s s' hs h
      rw [List.foldlM_cons] at h
      obtain ⟨t, ht, h'⟩ := Outcome.bind_eq_ok.mp h
      exact ih (fun b hb => hstep b (List.mem_cons_of_mem _ hb)) t s'
        (hstep a List.mem_cons_self s t hs ht) h'

/-- The rule when the turns need nothing of their places in the list. -/
theorem foldlM_inv {P : σ → Prop} {step : σ → α → Outcome σ}
    (hstep : ∀ s a s', P s → step s a = .ok s' → P s') (l : List α) :
    ∀ s s' : σ, P s → l.foldlM step s = .ok s' → P s' :=
  foldlM_inv_of_mem l fun a _ s s' => hstep s a s'

/-- A run over a list split in two is a run over the first part continued over the second. -/
lemma foldlM_append_ok {step : σ → α → Outcome σ} {l l' : List α} {s s'' : σ} :
    (l ++ l').foldlM step s = .ok s'' ↔
      ∃ s', l.foldlM step s = .ok s' ∧ l'.foldlM step s' = .ok s'' := by
  rw [List.foldlM_append]
  exact Outcome.bind_eq_ok

/-- **The rule for loops that complete**: `P pre s` says what a state is after the turns of `pre`,
and every turn completes and takes it one element further. -/
theorem foldlM_ok {P : List α → σ → Prop} {step : σ → α → Outcome σ} (l : List α)
    (hstep : ∀ pre a post s, l = pre ++ a :: post → P pre s →
      ∃ s', step s a = .ok s' ∧ P (pre ++ [a]) s') {s : σ} (hs : P [] s) :
    ∃ s', l.foldlM step s = .ok s' ∧ P l s' := by
  induction l using List.reverseRecOn with
  | nil => exact ⟨s, rfl, hs⟩
  | append_singleton l a ih =>
      obtain ⟨s₁, hok₁, h₁⟩ := ih fun pre b post t hl =>
        hstep pre b (post ++ [a]) t (by rw [hl, List.append_assoc, List.cons_append])
      obtain ⟨s', hok, h'⟩ := hstep l a [] s₁ rfl h₁
      refine ⟨s', foldlM_append_ok.mpr ⟨s₁, hok₁, ?_⟩, h'⟩
      rw [List.foldlM_cons, hok]
      rfl

/-- Turns that commute may be taken in any order. -/
lemma foldlM_perm {step : σ → α → Outcome σ}
    (hcomm : ∀ s a b, (step s a >>= fun s => step s b) = step s b >>= fun s => step s a)
    {l l' : List α} (h : l.Perm l') (s : σ) : l.foldlM step s = l'.foldlM step s := by
  induction h generalizing s with
  | nil => rfl
  | cons a _ ih =>
      rw [List.foldlM_cons, List.foldlM_cons]
      exact congrArg _ (funext fun s => ih s)
  | swap a b l =>
      simp only [List.foldlM_cons]
      rw [← bind_assoc, ← bind_assoc, hcomm]
  | trans _ _ ih ih' => exact (ih s).trans (ih' s)

end Outcome

/-! ### Reading and writing -/

section Memory

variable {α : Type}

/-- Reading the cell `i` of `a`; `e` says how the program ends when there is none. -/
def fetch (e : Fault) (a : List α) (i : ℕ) : Outcome α :=
  match a[i]? with
  | some x => .ok x
  | none => .error e

lemma fetch_eq_ok {e : Fault} {a : List α} {i : ℕ} {x : α} :
    fetch e a i = .ok x ↔ a[i]? = some x := by
  rw [fetch]
  split <;> simp_all

/-- A cell inside the array is read. -/
lemma fetch_of_lt {e : Fault} {a : List α} {i : ℕ} (h : i < a.length) :
    fetch e a i = .ok a[i] :=
  fetch_eq_ok.mpr (List.getElem?_eq_getElem h)

/-- Writing the record `x` at index `i` of a file: past the end the file grows, with `z`
(the record of zero bytes) in the gap. -/
def writeAt (z : α) (a : List α) (i : ℕ) (x : α) : List α :=
  if i < a.length then a.set i x else a ++ List.replicate (i - a.length) z ++ [x]

lemma writeAt_of_lt {z : α} {a : List α} {i : ℕ} (x : α) (h : i < a.length) :
    writeAt z a i x = a.set i x := if_pos h

lemma writeAt_length (z : α) (a : List α) (x : α) :
    writeAt z a a.length x = a ++ [x] := by
  simp [writeAt]

lemma length_writeAt (z : α) (a : List α) (i : ℕ) (x : α) :
    (writeAt z a i x).length = max a.length (i + 1) := by
  rw [writeAt]
  split_ifs with h
  · rw [List.length_set]; omega
  · simp only [List.length_append, List.length_replicate, List.length_singleton]; omega

/-- A write changes the record it names. -/
lemma getElem?_writeAt_self (z : α) (a : List α) (i : ℕ) (x : α) :
    (writeAt z a i x)[i]? = some x := by
  rw [writeAt]
  split_ifs with h
  · simp [h]
  · rw [List.getElem?_append_right (by simp; omega)]
    simp only [List.length_append, List.length_replicate]
    rw [show i - (a.length + (i - a.length)) = 0 from by omega]
    rfl

/-- A write leaves every other record of the file as it was. -/
lemma getElem?_writeAt_of_ne {z : α} {a : List α} {i j : ℕ} (x : α) (hj : j < a.length)
    (h : j ≠ i) : (writeAt z a i x)[j]? = a[j]? := by
  rw [writeAt]
  split_ifs with hi
  · exact List.getElem?_set_ne (Ne.symm h)
  · rw [List.append_assoc, List.getElem?_append_left hj]

/-- Reading the block of `k` cells from index `i` on. -/
def slice (a : List α) (i k : ℕ) : Outcome (List α) :=
  if i + k ≤ a.length then .ok ((a.drop i).take k) else .error .bounds

lemma slice_of_le {a : List α} {i k : ℕ} (h : i + k ≤ a.length) :
    slice a i k = .ok ((a.drop i).take k) := if_pos h

/-- Copying the block `xs` into `a` from index `i` on. -/
def splice (a : List α) (i : ℕ) (xs : List α) : List α :=
  a.take i ++ xs ++ a.drop (i + xs.length)

lemma length_splice {a : List α} {i : ℕ} {xs : List α} (h : i + xs.length ≤ a.length) :
    (splice a i xs).length = a.length := by
  simp only [splice, List.length_append, List.length_take, List.length_drop]
  omega

lemma splice_cons (x : α) (a : List α) (i : ℕ) (xs : List α) :
    splice (x :: a) (i + 1) xs = x :: splice a i xs := by
  rw [splice, List.take_succ_cons, show i + 1 + xs.length = (i + xs.length) + 1 by omega,
    List.drop_succ_cons]
  rfl

lemma splice_zero_cons (a : List α) (x : α) (xs : List α) :
    splice a 0 (x :: xs) = x :: (xs ++ a.drop (xs.length + 1)) := by
  rw [splice, List.take_zero, List.nil_append, Nat.zero_add, List.cons_append, List.length_cons]

/-- A block copied to the front is what the array then starts with. -/
lemma take_splice_zero {a : List α} {xs : List α} {n : ℕ} (hn : n = xs.length) :
    (splice a 0 xs).take n = xs := by
  subst hn
  simp [splice]

/-- A block copied to the front leaves what lies behind it. -/
lemma getElem?_splice_zero (a xs : List α) (j : ℕ) :
    (splice a 0 xs)[j]? = if j < xs.length then xs[j]? else a[j]? := by
  rw [splice, List.take_zero, List.nil_append, Nat.zero_add]
  split_ifs with h
  · rw [List.getElem?_append_left h]
  · rw [List.getElem?_append_right (by omega), List.getElem?_drop]
    congr 1
    omega

/-- The cells of an array after a block is copied into it. -/
lemma getElem?_splice {a xs : List α} {i : ℕ} (h : i + xs.length ≤ a.length) (j : ℕ) :
    (splice a i xs)[j]?
      = if j < i then a[j]? else if j < i + xs.length then xs[j - i]? else a[j]? := by
  have hlen : (a.take i).length = i := by rw [List.length_take]; omega
  rw [splice, List.append_assoc]
  split_ifs with hi hx
  · rw [List.getElem?_append_left (by omega), List.getElem?_take_of_lt hi]
  · rw [List.getElem?_append_right (by omega), hlen, List.getElem?_append_left (by omega)]
  · rw [List.getElem?_append_right (by omega), hlen, List.getElem?_append_right (by omega),
      List.getElem?_drop]
    congr 1
    omega

lemma insertIdx_eq_take_append (l : List α) {i : ℕ} (hi : i ≤ l.length) (x : α) :
    l.insertIdx i x = l.take i ++ x :: l.drop i := by
  induction l generalizing i with
  | nil =>
      obtain rfl : i = 0 := by simpa using hi
      rfl
  | cons a l ih =>
      cases i with
      | zero => rfl
      | succ i =>
          rw [List.insertIdx_succ_cons, ih (by simpa using hi)]
          rfl

/-- Moving the cells from `u` on one step up and writing `x` at `u` inserts `x` into the first
`s` cells, when at least the rest of these is moved. -/
lemma take_set_splice {a : List α} {u s m : ℕ} (hu : u ≤ s) (hs : s < a.length) (hm : s - u ≤ m)
    (x : α) : ((splice a (u + 1) ((a.drop u).take m)).set u x).take (s + 1)
      = (a.take s).insertIdx u x := by
  have hfront : (a.take (u + 1)).set u x = a.take u ++ [x] := by
    rw [List.set_eq_take_cons_drop x (by rw [List.length_take]; omega), List.take_take,
      min_eq_left (Nat.le_succ u), List.drop_eq_nil_of_le (by rw [List.length_take]; omega)]
  have hlen : (a.take u ++ [x]).length = u + 1 := by
    rw [List.length_append, List.length_take, List.length_singleton]
    omega
  rw [splice, List.append_assoc, List.set_append_left _ _ (by rw [List.length_take]; omega),
    hfront, show s + 1 = (a.take u ++ [x]).length + (s - u) by rw [hlen]; omega,
    List.take_length_add_append,
    List.take_append_of_le_length (by rw [List.length_take, List.length_drop]; omega),
    List.take_take, min_eq_left hm, insertIdx_eq_take_append _ (by rw [List.length_take]; omega),
    List.take_take, min_eq_left hu, List.drop_take, List.append_assoc, List.singleton_append]

lemma zip_insertIdx {β : Type} {l : List α} {l' : List β} {i : ℕ} (h : l.length = l'.length)
    (x : α) (y : β) :
    (l.insertIdx i x).zip (l'.insertIdx i y) = (l.zip l').insertIdx i (x, y) := by
  induction l generalizing l' i with
  | nil =>
      obtain rfl := List.length_eq_zero_iff.mp h.symm
      cases i <;> rfl
  | cons a l ih =>
      cases l' with
      | nil => cases h
      | cons b l' =>
          cases i with
          | zero => rfl
          | succ i =>
              rw [List.insertIdx_succ_cons, List.insertIdx_succ_cons, List.zip_cons_cons,
                ih (by simpa using h)]
              rfl

end Memory

end ColumnDb
