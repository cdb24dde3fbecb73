import Mathlib.Tactic

/-!
Directories: names, and the files behind them.

A name leads to a file, and a file that is open stays what it is when its name is removed or
given to another one. Different names lead to different files.

* `openNew`, `write`, `remove`, `rename`: the operations, each with what it changes of the
  names and of the contents, and what it leaves.
* `read`: the content behind a name.
-/

namespace ColumnDb

/-- Names leading to files, and the contents of the files; the files from `fresh` on have never
been used. -/
structure Directory (N C : Type) where
  entry : N → Option ℕ
  content : ℕ → C
  fresh : ℕ
  entry_lt : ∀ {n i}, entry n = some i → i < fresh
  entry_inj : ∀ {n n' i}, entry n = some i → entry n' = some i → n = n'

namespace Directory

variable {N C : Type}

/-- A directory without names. -/
def empty (N : Type) {C : Type} (blank : C) : Directory N C where
  entry := fun _ => none
  content := fun _ => blank
  fresh := 0
  entry_lt h := by cases h
  entry_inj h := by cases h

/-- The content behind a name. -/
def read (d : Directory N C) (n : N) : Option C := (d.entry n).map d.content

/-- Writing to an open file. -/
def write (d : Directory N C) (i : ℕ) (c : C) : Directory N C :=
  { d with content := Function.update d.content i c }

@[simp] lemma write_entry (d : Directory N C) (i : ℕ) (c : C) : (d.write i c).entry = d.entry := rfl

@[simp] lemma write_fresh (d : Directory N C) (i : ℕ) (c : C) : (d.write i c).fresh = d.fresh := rfl

@[simp] lemma write_content_self (d : Directory N C) (i : ℕ) (c : C) :
    (d.write i c).content i = c := Function.update_self _ _ _

lemma write_content_of_ne (d : Directory N C) {i j : ℕ} (c : C) (h : j ≠ i) :
    (d.write i c).content j = d.content j := Function.update_of_ne h _ _

variable [DecidableEq N]

/-- Removing a name. -/
def remove (d : Directory N C) (n : N) : Directory N C where
  entry := Function.update d.entry n none
  content := d.content
  fresh := d.fresh
  entry_lt {m i} h := by
    by_cases hm : m = n
    · rw [hm, Function.update_self] at h
      cases h
    · rw [Function.update_of_ne hm] at h
      exact d.entry_lt h
  entry_inj {m m' i} h h' := by
    by_cases hm : m = n
    · rw [hm, Function.update_self] at h
      cases h
    · by_cases hm' : m' = n
      · rw [hm', Function.update_self] at h'
        cases h'
      · rw [Function.update_of_ne hm] at h
        rw [Function.update_of_ne hm'] at h'
        exact d.entry_inj h h'

@[simp] lemma remove_content (d : Directory N C) (n : N) : (d.remove n).content = d.content := rfl

@[simp] lemma remove_fresh (d : Directory N C) (n : N) : (d.remove n).fresh = d.fresh := rfl

@[simp] lemma remove_entry_self (d : Directory N C) (n : N) : (d.remove n).entry n = none :=
  Function.update_self _ _ _

lemma remove_entry_of_ne (d : Directory N C) {n m : N} (h : m ≠ n) :
    (d.remove n).entry m = d.entry m := Function.update_of_ne h _ _

/-- Giving a file that nobody has a name for the name `n`. -/
def link (d : Directory N C) (n : N) (i : ℕ) (hi : i < d.fresh) (hnew : ∀ m, d.entry m ≠ some i) :
    Directory N C where
  entry := Function.update d.entry n (some i)
  content := d.content
  fresh := d.fresh
  entry_lt {m j} h := by
    by_cases hm : m = n
    · rw [hm, Function.update_self] at h
      cases h
      exact hi
    · rw [Function.update_of_ne hm] at h
      exact d.entry_lt h
  entry_inj {m m' j} h h' := by
    by_cases hm : m = n
    · by_cases hm' : m' = n
      · rw [hm, hm']
      · rw [hm, Function.update_self] at h
        rw [Function.update_of_ne hm'] at h'
        cases h
        exact absurd h' (hnew m')
    · rw [Function.update_of_ne hm] at h
      by_cases hm' : m' = n
      · rw [hm', Function.update_self] at h'
        cases h'
        exact absurd h (hnew m)
      · rw [Function.update_of_ne hm'] at h'
        exact d.entry_inj h h'

/-- Renaming: the file behind `n` gets the name `n'`, in place of the one that had it. Without a
file behind `n` nothing happens. -/
def rename (d : Directory N C) (n n' : N) : Directory N C :=
  match h : d.entry n with
  | none => d
  | some i => (d.remove n).link n' i (d.entry_lt h) fun m hm => by
      by_cases hmn : m = n
      · rw [hmn, remove_entry_self] at hm
        cases hm
      · rw [remove_entry_of_ne d hmn] at hm
        exact hmn (d.entry_inj hm h)

lemma rename_none {d : Directory N C} {n n' : N} (h : d.entry n = none) : d.rename n n' = d := by
  rw [rename]
  split
  · rfl
  · simp_all

/-- What a renaming does to the names. -/
lemma rename_some {d : Directory N C} {n n' : N} {i : ℕ} (h : d.entry n = some i) :
    (d.rename n n').entry = Function.update (Function.update d.entry n none) n' (some i) := by
  rw [rename]
  split
  · simp_all
  · rename_i j hj
    rw [h] at hj
    cases hj
    rfl

@[simp] lemma rename_content (d : Directory N C) (n n' : N) :
    (d.rename n n').content = d.content := by
  rw [rename]
  split <;> rfl

@[simp] lemma rename_fresh (d : Directory N C) (n n' : N) : (d.rename n n').fresh = d.fresh := by
  rw [rename]
  split <;> rfl

/-- A renaming leaves nothing behind the old name. -/
lemma rename_entry_old (d : Directory N C) {n n' : N} (hne : n ≠ n') :
    (d.rename n n').entry n = none := by
  cases h : d.entry n with
  | none => rw [rename_none h, h]
  | some i => rw [rename_some h, Function.update_of_ne hne, Function.update_self]

/-- A renaming leaves the other names. -/
lemma rename_entry_of_ne (d : Directory N C) {n n' m : N} (hm : m ≠ n) (hm' : m ≠ n') :
    (d.rename n n').entry m = d.entry m := by
  cases h : d.entry n with
  | none => rw [rename_none h]
  | some i => rw [rename_some h, Function.update_of_ne hm', Function.update_of_ne hm]

/-- Opening a file for writing: an empty file is made, or the one behind the name is emptied. -/
def openNew (d : Directory N C) (n : N) (blank : C) : ℕ × Directory N C :=
  match d.entry n with
  | some i => (i, d.write i blank)
  | none =>
      (d.fresh,
        ({ d with
            content := Function.update d.content d.fresh blank
            fresh := d.fresh + 1
            entry_lt := fun h => Nat.lt_succ_of_lt (d.entry_lt h) } : Directory N C).link n d.fresh
          (Nat.lt_succ_self _) fun _ h => absurd (d.entry_lt h) (lt_irrefl _))

variable (d : Directory N C) (n : N) (blank : C)

lemma openNew_entry_self : (d.openNew n blank).2.entry n = some (d.openNew n blank).1 := by
  rw [openNew]
  split
  · assumption
  · exact Function.update_self _ _ _

lemma openNew_entry_of_ne {m : N} (h : m ≠ n) :
    (d.openNew n blank).2.entry m = d.entry m := by
  rw [openNew]
  split
  · rfl
  · exact Function.update_of_ne h _ _

lemma openNew_content_self :
    (d.openNew n blank).2.content (d.openNew n blank).1 = blank := by
  rw [openNew]
  split
  · exact Function.update_self _ _ _
  · exact Function.update_self _ _ _

lemma openNew_content_of_ne {j : ℕ} (h : j ≠ (d.openNew n blank).1) :
    (d.openNew n blank).2.content j = d.content j := by
  rw [openNew] at h ⊢
  split at h
  · exact Function.update_of_ne h _ _
  · exact Function.update_of_ne h _ _

lemma openNew_fresh_le : d.fresh ≤ (d.openNew n blank).2.fresh := by
  rw [openNew]
  split
  · exact le_rfl
  · exact Nat.le_succ _

/-- The file that is opened is not one of the others in use. -/
lemma openNew_ne {j : ℕ} (hj : j < d.fresh) (hne : d.entry n ≠ some j) :
    (d.openNew n blank).1 ≠ j := by
  rw [openNew]
  split
  · rename_i i hi
    exact fun h => hne (h ▸ hi)
  · exact fun h => absurd hj (h ▸ lt_irrefl _)

end Directory

end ColumnDb
