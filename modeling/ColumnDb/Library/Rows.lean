import Mathlib.Tactic

/-!
Rows of a list named by their positions.

* `keepFrom off pos l`: the entries of `l`, whose positions count from `off`, that `pos` does
  not name. `keepFrom_append` cuts it where the list is cut, and `keepFrom_congr` says that
  only the positions inside the list matter.
* `overwrite l pos vals`: the entries named by `pos` replaced by `vals`. Over distinct
  positions this leaves the other entries and adds the values (`overwrite_perm`), and
  `overwrite_append` takes the writes apart where the positions are cut.
-/

namespace ColumnDb

variable {α β : Type}

/-! ### Keeping entries -/

/-- The entries of `l` at positions, counted from `off`, that `pos` does not name. -/
def keepFrom (off : ℕ) (pos : List ℕ) (l : List α) : List α :=
  ((l.zipIdx off).filter fun x => x.2 ∉ pos).map Prod.fst

lemma keepFrom_cons (off : ℕ) (pos : List ℕ) (a : α) (l : List α) :
    keepFrom off pos (a :: l)
      = if off ∈ pos then keepFrom (off + 1) pos l else a :: keepFrom (off + 1) pos l := by
  rw [keepFrom, List.zipIdx_cons, List.filter_cons]
  split_ifs <;> simp_all [keepFrom]

lemma keepFrom_append (off : ℕ) (pos : List ℕ) (l l' : List α) :
    keepFrom off pos (l ++ l') = keepFrom off pos l ++ keepFrom (off + l.length) pos l' := by
  rw [keepFrom, List.zipIdx_append, List.filter_append, List.map_append, keepFrom, keepFrom]

/-- Two lists of positions that agree inside the list keep the same entries. -/
lemma keepFrom_congr {off : ℕ} {pos pos' : List ℕ} {l : List α}
    (h : ∀ i, off ≤ i → i < off + l.length → (i ∈ pos ↔ i ∈ pos')) :
    keepFrom off pos l = keepFrom off pos' l := by
  induction l generalizing off with
  | nil => rfl
  | cons a l ih =>
      have hrest : keepFrom (off + 1) pos l = keepFrom (off + 1) pos' l := ih fun i hi hi' =>
        h i (by omega) (by rw [List.length_cons]; omega)
      rw [keepFrom_cons, keepFrom_cons, hrest]
      simp only [h off le_rfl (by rw [List.length_cons]; omega)]

@[simp] lemma keepFrom_nil_pos (off : ℕ) (l : List α) : keepFrom off [] l = l := by
  induction l generalizing off with
  | nil => rfl
  | cons a l ih => rw [keepFrom_cons, if_neg (List.not_mem_nil), ih]

/-! ### Overwriting entries -/

/-- The entries named by `pos` replaced, one after the other, by `vals`. -/
def overwrite (l : List α) : List ℕ → List α → List α
  | [], _ => l
  | _ :: _, [] => l
  | p :: pos, v :: vals => overwrite (l.set p v) pos vals

/-- Writing one more value among the entries kept, at a position no other write names. -/
lemma keepFrom_set_perm {pos : List ℕ} {p : ℕ} {l : List α} (hp : p < l.length)
    (hfresh : p ∉ pos) (v : α) :
    (keepFrom 0 pos (l.set p v)).Perm (v :: keepFrom 0 (p :: pos) l) := by
  have hlen : (l.take p).length = p := by rw [List.length_take]; omega
  have hfront : keepFrom 0 pos (l.take p) = keepFrom 0 (p :: pos) (l.take p) := by
    refine keepFrom_congr fun i _ hi => ?_
    rw [List.mem_cons, or_iff_right (by omega)]
  have hback : keepFrom (p + 1) pos (l.drop (p + 1))
      = keepFrom (p + 1) (p :: pos) (l.drop (p + 1)) := by
    refine keepFrom_congr fun i hi _ => ?_
    rw [List.mem_cons, or_iff_right (by omega)]
  have hset : l.set p v = l.take p ++ v :: l.drop (p + 1) := List.set_eq_take_cons_drop v hp
  have hsplit : l = l.take p ++ l[p] :: l.drop (p + 1) := by
    rw [← List.drop_eq_getElem_cons hp, List.take_append_drop]
  have hleft : keepFrom 0 pos (l.set p v)
      = keepFrom 0 pos (l.take p) ++ v :: keepFrom (p + 1) pos (l.drop (p + 1)) := by
    rw [hset, keepFrom_append, hlen, Nat.zero_add, keepFrom_cons, if_neg hfresh]
  have hright : keepFrom 0 (p :: pos) l
      = keepFrom 0 pos (l.take p) ++ keepFrom (p + 1) pos (l.drop (p + 1)) := by
    conv_lhs => rw [hsplit]
    rw [keepFrom_append, hlen, Nat.zero_add, keepFrom_cons, if_pos List.mem_cons_self, hfront,
      hback]
  rw [hleft, hright]
  exact List.perm_middle

/-- **Overwriting at distinct positions** leaves the entries at the other positions and adds
the values. -/
theorem overwrite_perm {pos : List ℕ} {vals : List α} (hlen : pos.length = vals.length)
    (hnodup : pos.Nodup) :
    ∀ {l : List α}, (∀ p ∈ pos, p < l.length) →
      (overwrite l pos vals).Perm (keepFrom 0 pos l ++ vals) := by
  induction pos generalizing vals with
  | nil =>
      intro l _
      obtain rfl := List.length_eq_zero_iff.mp hlen.symm
      rw [overwrite, keepFrom_nil_pos, List.append_nil]
  | cons p pos ih =>
      intro l hl
      cases vals with
      | nil => cases hlen
      | cons v vals =>
          obtain ⟨hfresh, hnodup'⟩ := List.nodup_cons.mp hnodup
          have hp : p < l.length := hl p List.mem_cons_self
          have hlen' : pos.length = vals.length := by simpa using hlen
          have hrest := ih hlen' hnodup' (l := l.set p v) fun q hq => by
            rw [List.length_set]
            exact hl q (List.mem_cons_of_mem _ hq)
          rw [overwrite]
          refine hrest.trans ?_
          refine ((keepFrom_set_perm hp hfresh v).append_right vals).trans ?_
          exact List.perm_middle.symm

/-- Writes add up. -/
lemma overwrite_append {pos pos' : List ℕ} {vals vals' : List α}
    (hlen : pos.length = vals.length) :
    ∀ {l : List α},
      overwrite l (pos ++ pos') (vals ++ vals') = overwrite (overwrite l pos vals) pos' vals' := by
  induction pos generalizing vals with
  | nil =>
      intro l
      obtain rfl := List.length_eq_zero_iff.mp hlen.symm
      rw [List.nil_append, List.nil_append, overwrite]
  | cons p pos ih =>
      intro l
      cases vals with
      | nil => cases hlen
      | cons v vals =>
          rw [List.cons_append, List.cons_append, overwrite, overwrite]
          exact ih (by simpa using hlen)

/-- The entries that no write names stay. -/
lemma getElem?_overwrite {pos : List ℕ} {vals : List α} {i : ℕ} (hi : i ∉ pos) :
    ∀ {l : List α}, (overwrite l pos vals)[i]? = l[i]? := by
  induction pos generalizing vals with
  | nil => intro l; rw [overwrite]
  | cons p pos ih =>
      intro l
      rw [List.mem_cons, not_or] at hi
      obtain ⟨hne, hrest⟩ := hi
      cases vals with
      | nil => rw [overwrite]
      | cons v vals => rw [overwrite, ih hrest, List.getElem?_set_ne (Ne.symm hne)]

lemma length_overwrite {pos : List ℕ} {vals : List α} :
    ∀ {l : List α}, (overwrite l pos vals).length = l.length := by
  induction pos generalizing vals with
  | nil => intro l; rw [overwrite]
  | cons p pos ih =>
      intro l
      cases vals with
      | nil => rw [overwrite]
      | cons v vals => rw [overwrite, ih, List.length_set]

/-- Writes below `n` are writes to the first `n` entries. -/
lemma take_overwrite {pos : List ℕ} {vals : List α} {n : ℕ} :
    ∀ {l : List α}, (overwrite l pos vals).take n = overwrite (l.take n) pos vals := by
  induction pos generalizing vals with
  | nil => intro l; rw [overwrite, overwrite]
  | cons p pos ih =>
      intro l
      cases vals with
      | nil => rw [overwrite, overwrite]
      | cons v vals => rw [overwrite, overwrite, ih, List.take_set]

end ColumnDb
