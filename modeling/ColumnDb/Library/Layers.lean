import Mathlib.Tactic

/-!
Search trees, read layer by layer.

A row is a list of places with fences among them, and `kids p` is the row below the place
`p`: its children and what separates them. `layer kids root d` is the row at depth `d`, in
which every place of the row above stands replaced by the row below it.

* `Headed`: every fence of a row is the first key of the place behind it.
* `Layered`: down to depth `h` no place occurs twice, neither in one layer nor in two.
* `Splits`: the row of a place `p` is cut at a fence `s`, the right part becomes that of a
  fresh place `r`, and the parent of `p` takes the fence and the new place behind `p`.
  Only the layer of `p` changes, and there `p` becomes `p`, `s`, `r` (`Splits.above`,
  `Splits.at_depth`, `Splits.below`).
* `Planted`: a new root over the old one moves every layer one step down.
-/

namespace ColumnDb

variable {P K : Type}

/-! ### Rows -/

/-- The places of a row. -/
def spots (row : List (P ⊕ K)) : List P := row.filterMap Sum.getLeft?

/-- The fences of a row. -/
def fences (row : List (P ⊕ K)) : List K := row.filterMap Sum.getRight?

/-- The row below a row. -/
def expand (kids : P → List (P ⊕ K)) (row : List (P ⊕ K)) : List (P ⊕ K) :=
  row.flatMap (Sum.elim kids fun k => [Sum.inr k])

section Rows

variable {kids kids' : P → List (P ⊕ K)} {row : List (P ⊕ K)} {p : P} {k : K}

@[simp] lemma spots_nil : spots ([] : List (P ⊕ K)) = [] := rfl

@[simp] lemma spots_append (row row' : List (P ⊕ K)) :
    spots (row ++ row') = spots row ++ spots row' := List.filterMap_append

@[simp] lemma spots_cons_inl : spots (Sum.inl p :: row) = p :: spots row := rfl

@[simp] lemma spots_cons_inr : spots (Sum.inr k :: row) = spots row := rfl

@[simp] lemma fences_nil : fences ([] : List (P ⊕ K)) = [] := rfl

@[simp] lemma fences_append (row row' : List (P ⊕ K)) :
    fences (row ++ row') = fences row ++ fences row' := List.filterMap_append

@[simp] lemma fences_cons_inl : fences (Sum.inl p :: row) = fences row := rfl

@[simp] lemma fences_cons_inr : fences (Sum.inr k :: row) = k :: fences row := rfl

@[simp] lemma expand_nil : expand kids [] = [] := rfl

@[simp] lemma expand_append (row row' : List (P ⊕ K)) :
    expand kids (row ++ row') = expand kids row ++ expand kids row' := List.flatMap_append

@[simp] lemma expand_cons_inl : expand kids (Sum.inl p :: row) = kids p ++ expand kids row := rfl

@[simp] lemma expand_cons_inr :
    expand kids (Sum.inr k :: row) = Sum.inr k :: expand kids row := rfl

lemma mem_spots : p ∈ spots row ↔ Sum.inl p ∈ row := by
  rw [spots, List.mem_filterMap]
  constructor
  · rintro ⟨x | x, hx, hp⟩
    · cases hp
      exact hx
    · cases hp
  · exact fun h => ⟨_, h, rfl⟩

/-- A place of a row has one part of the row in front of it and one behind it. -/
lemma exists_eq_append (h : p ∈ spots row) : ∃ X Y, row = X ++ Sum.inl p :: Y :=
  List.append_of_mem (mem_spots.mp h)

/-- A place that occurs once cuts a row in one way. -/
lemma append_inl_inj {X X' Y Y' : List (P ⊕ K)} (hX : p ∉ spots X) (hX' : p ∉ spots X')
    (h : X ++ Sum.inl p :: Y = X' ++ Sum.inl p :: Y') : X = X' ∧ Y = Y' := by
  induction X generalizing X' with
  | nil =>
      cases X' with
      | nil => exact ⟨rfl, (List.cons.inj h).2⟩
      | cons x X' =>
          rw [← (List.cons.inj h).1] at hX'
          exact absurd List.mem_cons_self hX'
  | cons x X ih =>
      cases X' with
      | nil =>
          rw [(List.cons.inj h).1] at hX
          exact absurd List.mem_cons_self hX
      | cons y X' =>
          obtain ⟨rfl, htail⟩ := List.cons.inj h
          rw [mem_spots, List.mem_cons, not_or, ← mem_spots] at hX hX'
          obtain ⟨rfl, rfl⟩ := ih hX.2 hX'.2 htail
          exact ⟨rfl, rfl⟩

lemma mem_spots_expand {c : P} :
    c ∈ spots (expand kids row) ↔ ∃ p ∈ spots row, c ∈ spots (kids p) := by
  induction row with
  | nil => simp
  | cons x row ih =>
      rcases x with q | k
      · simp [ih]
      · simp [ih]

/-- The fences of a row are among those of the row below it. -/
lemma fences_sublist_expand (row : List (P ⊕ K)) :
    (fences row).Sublist (fences (expand kids row)) := by
  induction row with
  | nil => exact List.Sublist.refl _
  | cons x row ih =>
      rcases x with q | k
      · rw [fences_cons_inl, expand_cons_inl, fences_append]
        exact ih.trans (List.sublist_append_right _ _)
      · exact ih.cons_cons k

lemma length_spots_expand (h : ∀ p ∈ spots row, spots (kids p) ≠ []) :
    (spots row).length ≤ (spots (expand kids row)).length := by
  induction row with
  | nil => exact le_rfl
  | cons x row ih =>
      rcases x with q | k
      · obtain ⟨hq, hrow⟩ := List.forall_mem_cons.mp h
        have hpos := List.length_pos_iff.mpr hq
        rw [spots_cons_inl, expand_cons_inl, spots_append, List.length_cons, List.length_append]
        have := ih hrow
        omega
      · exact ih h

lemma expand_congr (h : ∀ p ∈ spots row, kids' p = kids p) :
    expand kids' row = expand kids row := by
  induction row with
  | nil => rfl
  | cons x row ih =>
      rcases x with q | k
      · rw [expand_cons_inl, expand_cons_inl, h q (by simp), ih fun p hp => h p (by simp [hp])]
      · rw [expand_cons_inr, expand_cons_inr, ih fun p hp => h p (by simpa using hp)]

end Rows

/-! ### Places with keys -/

section Headed

variable {keys keys' : P → List K} {row X Y : List (P ⊕ K)} {p r : P} {s : K}

/-- Every fence is the first key of the place behind it. -/
def Headed (keys : P → List K) : List (P ⊕ K) → Prop
  | [] => True
  | Sum.inl _ :: row => Headed keys row
  | Sum.inr k :: row =>
      (∃ p row' ks, row = Sum.inl p :: row' ∧ keys p = k :: ks) ∧ Headed keys row

/-- Then the fences are among the keys, in their order. -/
theorem Headed.fences_sublist : ∀ {row : List (P ⊕ K)}, Headed keys row →
    (fences row).Sublist ((spots row).flatMap keys)
  | [], _ => List.Sublist.refl _
  | Sum.inl p :: row, h =>
      (fences_sublist (show Headed keys row from h)).trans (List.sublist_append_right _ _)
  | Sum.inr k :: row, ⟨⟨p, row', ks, hrow, hp⟩, h⟩ => by
      subst hrow
      have hsub := fences_sublist (show Headed keys row' from h)
      rw [fences_cons_inr, fences_cons_inl, spots_cons_inr, spots_cons_inl, List.flatMap_cons, hp]
      exact (hsub.trans (List.sublist_append_right _ _)).cons_cons k

/-- A place may get keys behind its first one. -/
lemma Headed.congr (h : Headed keys row)
    (hsame : ∀ p ∈ spots row, ∀ k ks, keys p = k :: ks → ∃ ks', keys' p = k :: ks') :
    Headed keys' row := by
  induction row with
  | nil => trivial
  | cons x row ih =>
      rcases x with p | k
      · exact ih h fun q hq => hsame q (List.mem_cons_of_mem _ hq)
      · obtain ⟨⟨p, row', ks, hrow, hp⟩, h⟩ := h
        obtain ⟨ks', hp'⟩ := hsame p (by simp [hrow]) k ks hp
        exact ⟨⟨p, row', ks', hrow, hp'⟩, ih h hsame⟩

/-- What stands behind a place does not bear on the fences up to it. -/
lemma headed_append : Headed keys (X ++ Sum.inl p :: Y)
    ↔ Headed keys (X ++ [Sum.inl p]) ∧ Headed keys Y := by
  induction X with
  | nil => exact (true_and _).symm ▸ Iff.rfl
  | cons x X ih =>
      rcases x with q | k
      · exact ih
      · have hfirst : (∃ q row' ks, X ++ Sum.inl p :: Y = Sum.inl q :: row' ∧ keys q = k :: ks)
            ↔ ∃ q row' ks, X ++ [Sum.inl p] = Sum.inl q :: row' ∧ keys q = k :: ks := by
          cases X with
          | nil => simp
          | cons y X => simp
        rw [List.cons_append, List.cons_append, Headed, Headed, hfirst, ih, and_assoc]

lemma Headed.suffix (h : Headed keys (X ++ Y)) : Headed keys Y := by
  induction X with
  | nil => exact h
  | cons x X ih =>
      rcases x with q | k
      · exact ih h
      · exact ih h.2

/-- A place that no fence stands in front of may get any keys, and another one keys behind its
first. -/
lemma Headed.update (h : Headed keys (X ++ Sum.inl p :: Y))
    (hsame : ∀ q ∈ spots X ++ spots Y, keys' q = keys q)
    (hp : X = [] ∨ ∀ k ks, keys p = k :: ks → ∃ ks', keys' p = k :: ks') :
    Headed keys' (X ++ Sum.inl p :: Y) := by
  obtain ⟨hX, hY⟩ := headed_append.mp h
  refine headed_append.mpr ⟨?_, hY.congr fun q hq k ks hk =>
    ⟨ks, (hsame q (List.mem_append_right _ hq)).trans hk⟩⟩
  obtain rfl | hp := hp
  · trivial
  · refine hX.congr fun q hq k ks hk => ?_
    rw [spots_append, spots_cons_inl, List.mem_append] at hq
    rcases hq with hq | hq
    · exact ⟨ks, (hsame q (List.mem_append_left _ hq)).trans hk⟩
    · obtain rfl := List.mem_singleton.mp hq
      exact hp k ks hk

/-- A place is split at the first key of its right part. -/
lemma Headed.split (h : Headed keys (X ++ Sum.inl p :: Y))
    (hsame : ∀ q ∈ spots X ++ spots Y, keys' q = keys q)
    (hp : X = [] ∨ ∀ k ks, keys p = k :: ks → ∃ ks', keys' p = k :: ks')
    (hr : ∃ ks, keys' r = s :: ks) :
    Headed keys' (X ++ Sum.inl p :: Sum.inr s :: Sum.inl r :: Y) := by
  obtain ⟨hX, hY⟩ := headed_append.mp (h.update hsame hp)
  obtain ⟨ks, hr⟩ := hr
  exact headed_append.mpr ⟨hX, ⟨r, Y, ks, rfl, hr⟩, hY⟩

end Headed

/-! ### Layers -/

/-- The row at depth `d` below `root`. -/
def layer (kids : P → List (P ⊕ K)) (root : P) : ℕ → List (P ⊕ K)
  | 0 => [Sum.inl root]
  | d + 1 => expand kids (layer kids root d)

/-- No place occurs twice down to depth `h`. -/
structure Layered (kids : P → List (P ⊕ K)) (root : P) (h : ℕ) : Prop where
  nodup : ∀ d ≤ h, (spots (layer kids root d)).Nodup
  apart : ∀ d ≤ h, ∀ e ≤ h, ∀ p, p ∈ spots (layer kids root d) → p ∈ spots (layer kids root e) →
    d = e

section Layers

variable {kids kids' : P → List (P ⊕ K)} {root : P} {h : ℕ}

lemma layer_congr {d : ℕ} (hsame : ∀ e < d, ∀ p ∈ spots (layer kids root e), kids' p = kids p) :
    layer kids' root d = layer kids root d := by
  induction d with
  | zero => rfl
  | succ d ih =>
      rw [layer, layer, ih fun e he => hsame e (by omega)]
      exact expand_congr (hsame d (Nat.lt_succ_self d))

/-- A place below the root has its parent in the layer above it. -/
lemma exists_parent {d : ℕ} {c : P} (hc : c ∈ spots (layer kids root (d + 1))) :
    ∃ p ∈ spots (layer kids root d), c ∈ spots (kids p) := mem_spots_expand.mp hc

lemma mem_layer_succ {d : ℕ} {p c : P} (hp : p ∈ spots (layer kids root d))
    (hc : c ∈ spots (kids p)) : c ∈ spots (layer kids root (d + 1)) :=
  mem_spots_expand.mpr ⟨p, hp, hc⟩

/-- When every place has a child, the layers do not get shorter. -/
lemma length_spots_layer {d e : ℕ} (hde : d ≤ e)
    (hchild : ∀ d' < e, ∀ p ∈ spots (layer kids root d'), spots (kids p) ≠ []) :
    (spots (layer kids root d)).length ≤ (spots (layer kids root e)).length := by
  induction e, hde using Nat.le_induction with
  | base => exact le_rfl
  | succ e _ ih =>
      exact (ih fun d' hd' => hchild d' (by omega)).trans
        (length_spots_expand (hchild e (Nat.lt_succ_self e)))

/-- The fences of a layer are among those of every layer below it. -/
lemma fences_layer_sublist {d e : ℕ} (hde : d ≤ e) :
    (fences (layer kids root d)).Sublist (fences (layer kids root e)) := by
  induction e, hde using Nat.le_induction with
  | base => exact List.Sublist.refl _
  | succ e _ ih => exact ih.trans (fences_sublist_expand _)

/-- The fences of a row below a place are among those of the layer. -/
lemma fences_kids_sublist {d : ℕ} {p : P} (hp : p ∈ spots (layer kids root d)) :
    (fences (kids p)).Sublist (fences (layer kids root (d + 1))) := by
  obtain ⟨X, Y, hrow⟩ := exists_eq_append hp
  rw [layer, hrow, expand_append, expand_cons_inl, fences_append, fences_append]
  exact (List.sublist_append_left _ _).trans (List.sublist_append_right _ _)

/-- The places of a row below a place of the tree are all different. -/
lemma Layered.kids_nodup (hl : Layered kids root h) {d : ℕ} (hd : d < h) {p : P}
    (hp : p ∈ spots (layer kids root d)) : (spots (kids p)).Nodup := by
  obtain ⟨X, Y, hrow⟩ := exists_eq_append hp
  have hnodup := hl.nodup (d + 1) hd
  rw [layer, hrow, expand_append, expand_cons_inl, spots_append, spots_append] at hnodup
  exact (List.nodup_append.mp (List.nodup_append.mp hnodup).2.1).1

end Layers

/-! ### Splitting a place -/

/-- The place `p` is split, its right part goes to `r`, and its parent `q` takes the fence `s`
and `r` behind `p`. -/
structure Splits (kids kids' : P → List (P ⊕ K)) (root : P) (d h : ℕ) (q p r : P) (s : K) :
    Prop where
  layered : Layered kids root h
  depth : d + 1 ≤ h
  parent : q ∈ spots (layer kids root d)
  kids_parent : ∃ A B, kids q = A ++ Sum.inl p :: B ∧
    kids' q = A ++ Sum.inl p :: Sum.inr s :: Sum.inl r :: B
  kids_node : kids p = kids' p ++ Sum.inr s :: kids' r
  same : ∀ e ≤ h, ∀ x ∈ spots (layer kids root e), x ≠ p → x ≠ q → kids' x = kids x
  fresh : ∀ e ≤ h, r ∉ spots (layer kids root e)

namespace Splits

variable {kids kids' : P → List (P ⊕ K)} {root p q r : P} {s : K} {d h : ℕ}

lemma mem_layer (hs : Splits kids kids' root d h q p r s) :
    p ∈ spots (layer kids root (d + 1)) := by
  obtain ⟨A, B, hq, -⟩ := hs.kids_parent
  exact mem_layer_succ hs.parent (by simp [hq])

/-- Places of other depths keep their rows. -/
lemma same_of_depth (hs : Splits kids kids' root d h q p r s) {e : ℕ} (he : e ≤ h)
    (hd : e ≠ d) (hd' : e ≠ d + 1) {x : P} (hx : x ∈ spots (layer kids root e)) :
    kids' x = kids x := by
  refine hs.same e he x hx ?_ ?_
  · rintro rfl
    exact hd' (hs.layered.apart e he (d + 1) hs.depth x hx hs.mem_layer)
  · rintro rfl
    exact hd (hs.layered.apart e he d (by have := hs.depth; omega) x hx hs.parent)

/-- The layers down to the parent stay. -/
theorem above (hs : Splits kids kids' root d h q p r s) {e : ℕ} (he : e ≤ d) :
    layer kids' root e = layer kids root e := by
  have := hs.depth
  exact layer_congr fun e' he' x hx =>
    hs.same_of_depth (by omega) (by omega) (by omega) hx

/-- **The layer of the place that is split.** -/
theorem at_depth (hs : Splits kids kids' root d h q p r s) :
    ∃ X Y, layer kids root (d + 1) = X ++ Sum.inl p :: Y ∧
      layer kids' root (d + 1) = X ++ Sum.inl p :: Sum.inr s :: Sum.inl r :: Y := by
  have hdepth := hs.depth
  obtain ⟨A, B, hq, hq'⟩ := hs.kids_parent
  obtain ⟨X, Y, hrow⟩ := exists_eq_append hs.parent
  have hnodup := hs.layered.nodup d (by omega)
  rw [hrow, spots_append, spots_cons_inl, List.nodup_append] at hnodup
  obtain ⟨-, hqY, hXq⟩ := hnodup
  have hsame : ∀ x ∈ spots (layer kids root d), x ≠ q → kids' x = kids x := by
    intro x hx hxq
    refine hs.same d (by omega) x hx ?_ hxq
    rintro rfl
    have := hs.layered.apart d (by omega) (d + 1) hs.depth x hx hs.mem_layer
    omega
  have hX : expand kids' X = expand kids X := expand_congr fun x hx => by
    refine hsame x (by rw [hrow]; simp [hx]) ?_
    rintro rfl
    exact hXq x hx x List.mem_cons_self rfl
  have hY : expand kids' Y = expand kids Y := expand_congr fun x hx => by
    refine hsame x (by rw [hrow]; simp [hx]) ?_
    rintro rfl
    exact (List.nodup_cons.mp hqY).1 hx
  refine ⟨expand kids X ++ A, B ++ expand kids Y, ?_, ?_⟩
  · rw [layer, hrow, expand_append, expand_cons_inl, hq]
    simp
  · rw [layer, hs.above le_rfl, hrow, expand_append, expand_cons_inl, hq', hX, hY]
    simp

/-- **The layers below the place that is split** stay. -/
theorem below (hs : Splits kids kids' root d h q p r s) {e : ℕ} (he : d + 2 ≤ e)
    (heh : e ≤ h + 1) : layer kids' root e = layer kids root e := by
  induction e, he using Nat.le_induction with
  | base =>
      obtain ⟨X, Y, hrow, hrow'⟩ := hs.at_depth
      have hnodup := hs.layered.nodup (d + 1) hs.depth
      rw [hrow, spots_append, spots_cons_inl, List.nodup_append] at hnodup
      obtain ⟨-, hpY, hXp⟩ := hnodup
      have hsame : ∀ x ∈ spots (layer kids root (d + 1)), x ≠ p → kids' x = kids x := by
        intro x hx hxp
        refine hs.same (d + 1) hs.depth x hx hxp ?_
        rintro rfl
        have := hs.layered.apart (d + 1) hs.depth d (by have := hs.depth; omega) x hx hs.parent
        omega
      have hX : expand kids' X = expand kids X := expand_congr fun x hx => by
        refine hsame x (by rw [hrow]; simp [hx]) ?_
        rintro rfl
        exact hXp x hx x List.mem_cons_self rfl
      have hY : expand kids' Y = expand kids Y := expand_congr fun x hx => by
        refine hsame x (by rw [hrow]; simp [hx]) ?_
        rintro rfl
        exact (List.nodup_cons.mp hpY).1 hx
      have hkids' : layer kids' root (d + 2) = expand kids' (layer kids' root (d + 1)) := rfl
      have hkids : layer kids root (d + 2) = expand kids (layer kids root (d + 1)) := rfl
      rw [hkids', hkids, hrow, hrow']
      simp only [expand_append, expand_cons_inl, expand_cons_inr, hX, hY, hs.kids_node]
      simp
  | succ e he ih =>
      rw [layer, layer, ih (by omega)]
      exact expand_congr fun x hx => hs.same_of_depth (by omega) (by omega) (by omega) hx

/-- The split adds the new place to one layer, and nothing else. -/
lemma mem_iff (hs : Splits kids kids' root d h q p r s) {e : ℕ} (he : e ≤ h) {x : P} :
    x ∈ spots (layer kids' root e)
      ↔ x ∈ spots (layer kids root e) ∨ (e = d + 1 ∧ x = r) := by
  rcases lt_trichotomy e (d + 1) with hlt | rfl | hgt
  · rw [hs.above (by omega)]
    simp [hlt.ne]
  · obtain ⟨X, Y, hrow, hrow'⟩ := hs.at_depth
    rw [hrow, hrow']
    simp only [spots_append, spots_cons_inl, spots_cons_inr, List.mem_append, List.mem_cons]
    tauto
  · rw [hs.below (by omega) (by omega)]
    simp [hgt.ne']

/-- After the split, too, no place occurs twice. -/
theorem layered' (hs : Splits kids kids' root d h q p r s) : Layered kids' root h where
  nodup := fun e he => by
    rcases lt_trichotomy e (d + 1) with hlt | rfl | hgt
    · rw [hs.above (by omega)]
      exact hs.layered.nodup e he
    · obtain ⟨X, Y, hrow, hrow'⟩ := hs.at_depth
      have hperm : (spots (layer kids' root (d + 1))).Perm
          (r :: spots (layer kids root (d + 1))) := by
        rw [hrow, hrow']
        simp only [spots_append, spots_cons_inl, spots_cons_inr]
        exact (List.Perm.append_left _ (List.Perm.swap r p _)).trans List.perm_middle
      exact hperm.nodup_iff.mpr
        (List.nodup_cons.mpr ⟨hs.fresh _ he, hs.layered.nodup _ he⟩)
    · rw [hs.below (by omega) (by omega)]
      exact hs.layered.nodup e he
  apart := fun e he e' he' x hx hx' => by
    rw [hs.mem_iff he] at hx
    rw [hs.mem_iff he'] at hx'
    obtain hx | ⟨hed, hxr⟩ := hx <;> obtain hx' | ⟨hed', hxr'⟩ := hx'
    · exact hs.layered.apart e he e' he' x hx hx'
    · exact absurd (hxr' ▸ hx) (hs.fresh e he)
    · exact absurd (hxr ▸ hx') (hs.fresh e' he')
    · rw [hed, hed']

end Splits

/-! ### A new root -/

/-- The place `r` is put over the root. -/
structure Planted (kids kids' : P → List (P ⊕ K)) (root : P) (h : ℕ) (r : P) : Prop where
  layered : Layered kids root h
  kids_root : kids' r = [Sum.inl root]
  same : ∀ e ≤ h, ∀ x ∈ spots (layer kids root e), kids' x = kids x
  fresh : ∀ e ≤ h, r ∉ spots (layer kids root e)

namespace Planted

variable {kids kids' : P → List (P ⊕ K)} {root r : P} {h : ℕ}

/-- **A new root** moves every layer one step down. -/
theorem layer_succ (hp : Planted kids kids' root h r) {e : ℕ} (he : e ≤ h + 1) :
    layer kids' r (e + 1) = layer kids root e := by
  induction e with
  | zero => simp [layer, hp.kids_root]
  | succ e ih =>
      rw [layer, ih (by omega), layer]
      exact expand_congr (hp.same e (by omega))

theorem layered' (hp : Planted kids kids' root h r) : Layered kids' r (h + 1) where
  nodup := fun e he => by
    cases e with
    | zero => simp [layer]
    | succ e =>
        rw [hp.layer_succ (by omega)]
        exact hp.layered.nodup e (by omega)
  apart := fun e he e' he' x hx hx' => by
    have hroot : ∀ e ≤ h, r ∉ spots (layer kids' r (e + 1)) := fun e he => by
      rw [hp.layer_succ (by omega)]
      exact hp.fresh e he
    cases e with
    | zero =>
        cases e' with
        | zero => rfl
        | succ e' =>
            rw [List.mem_singleton.mp hx] at hx'
            exact absurd hx' (hroot e' (by omega))
    | succ e =>
        cases e' with
        | zero =>
            rw [List.mem_singleton.mp hx'] at hx
            exact absurd hx (hroot e (by omega))
        | succ e' =>
            rw [hp.layer_succ (by omega)] at hx hx'
            rw [hp.layered.apart e (by omega) e' (by omega) x hx hx']

end Planted

end ColumnDb
