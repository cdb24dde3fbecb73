import Mathlib.Tactic

/-!
Trees kept twice, by a link from every node to its parent and by the list of the children of
every node.

* `Family nodes kids up root level`: the links and the lists say the same, and every node but
  the root lies one level below its parent.
* `Descends kids root p d`: from the root down to `p` it is `d` steps. In a family it is as many
  as the level says, and no other number (`Family.descends_iff`).
* `Family.split`: a node hands some of its children to a new node, which becomes a child of the
  same parent. Where the parent puts it among its children does not matter.
* `Family.plant`: a new root over the old one.
* `Walk kids root p js`: the walk from the root down to `p` that takes the child `j` for every `j`
  of `js`. It is the only one when nothing is listed twice (`Walk.unique`).
-/

namespace ColumnDb

variable {α : Type}

/-- The nodes form a tree. -/
structure Family (nodes : Set α) (kids : α → List α) (up : α → α) (root : α) (level : α → ℕ) :
    Prop where
  nodup : ∀ q, (kids q).Nodup
  mem_kids : ∀ q c, c ∈ kids q ↔ c ∈ nodes ∧ c ≠ root ∧ up c = q
  root_mem : root ∈ nodes
  level_root : level root = 0
  up_mem : ∀ c ∈ nodes, c ≠ root → up c ∈ nodes
  level_up : ∀ c ∈ nodes, c ≠ root → level c = level (up c) + 1

/-- It is `d` steps from the root down to a node. -/
inductive Descends (kids : α → List α) (root : α) : α → ℕ → Prop
  | root : Descends kids root root 0
  | child {q c : α} {d : ℕ} : Descends kids root q d → c ∈ kids q → Descends kids root c (d + 1)

namespace Family

variable {nodes nodes' : Set α} {kids kids' : α → List α} {up up' : α → α} {root : α}
  {level : α → ℕ} {p q r c : α}

lemma kids_up (hF : Family nodes kids up root level) (hc : c ∈ nodes) (hroot : c ≠ root) :
    c ∈ kids (up c) :=
  (hF.mem_kids _ c).mpr ⟨hc, hroot, rfl⟩

lemma level_kid (hF : Family nodes kids up root level) (hc : c ∈ kids q) :
    level c = level q + 1 := by
  obtain ⟨hmem, hroot, rfl⟩ := (hF.mem_kids q c).mp hc
  exact hF.level_up c hmem hroot

/-- Only the root is at the top. -/
lemma level_eq_zero (hF : Family nodes kids up root level) (hc : c ∈ nodes) :
    level c = 0 ↔ c = root := by
  refine ⟨fun h0 => ?_, fun heq => heq ▸ hF.level_root⟩
  by_contra hroot
  have := hF.level_up c hc hroot
  omega

/-- The links matter on the nodes only. -/
lemma congr_up (hF : Family nodes kids up root level) (hup : ∀ c ∈ nodes, c ≠ root → up' c = up c) :
    Family nodes kids up' root level where
  nodup := hF.nodup
  mem_kids q c := by
    rw [hF.mem_kids]
    exact and_congr_right fun hc => and_congr_right fun hroot => by rw [hup c hc hroot]
  root_mem := hF.root_mem
  level_root := hF.level_root
  up_mem c hc hroot := by
    rw [hup c hc hroot]
    exact hF.up_mem c hc hroot
  level_up c hc hroot := by
    rw [hup c hc hroot]
    exact hF.level_up c hc hroot

/-- The order of the children does not matter. -/
lemma congr_kids (hF : Family nodes kids up root level) (hkids : ∀ q, (kids' q).Perm (kids q)) :
    Family nodes kids' up root level where
  nodup q := (hkids q).nodup_iff.mpr (hF.nodup q)
  mem_kids q c := (hkids q).mem_iff.trans (hF.mem_kids q c)
  root_mem := hF.root_mem
  level_root := hF.level_root
  up_mem := hF.up_mem
  level_up := hF.level_up

/-- **The depth of a node** is its level. -/
theorem descends_iff (hF : Family nodes kids up root level) {d : ℕ} :
    Descends kids root p d ↔ p ∈ nodes ∧ level p = d := by
  constructor
  · intro hp
    induction hp with
    | root => exact ⟨hF.root_mem, hF.level_root⟩
    | child _ hc ih => exact ⟨((hF.mem_kids _ _).mp hc).1, by rw [hF.level_kid hc, ih.2]⟩
  · rintro ⟨hp, hlevel⟩
    induction d generalizing p with
    | zero =>
        rw [(hF.level_eq_zero hp).mp hlevel]
        exact Descends.root
    | succ d ih =>
        have hroot : p ≠ root := fun heq => by
          have := (hF.level_eq_zero hp).mpr heq
          omega
        have hup := hF.level_up p hp hroot
        exact (ih (hF.up_mem p hp hroot) (by omega)).child (hF.kids_up hp hroot)

/-! ### A new root -/

/-- **A new root** over the old one. -/
theorem plant [DecidableEq α] (hF : Family nodes kids up root level) (hr : r ∉ nodes)
    (hnodes : ∀ x, x ∈ nodes' ↔ x ∈ nodes ∨ x = r) (hup_root : up' root = r)
    (hup : ∀ x ∈ nodes, x ≠ root → up' x = up x) :
    Family nodes' (Function.update kids r [root]) up' r
      (Function.update (fun x => level x + 1) r 0) := by
  have hne : ∀ x ∈ nodes, x ≠ r := fun x hx => by
    rintro rfl
    exact hr hx
  have hup_mem : ∀ x ∈ nodes, x ≠ root → up' x ≠ r := fun x hx hroot => by
    rw [hup x hx hroot]
    exact hne _ (hF.up_mem x hx hroot)
  refine ⟨fun q => ?_, fun q c => ?_, (hnodes r).mpr (Or.inr rfl), Function.update_self _ _ _,
    fun c hc hcr => ?_, fun c hc hcr => ?_⟩
  · rw [Function.update_apply]
    split_ifs
    · exact List.nodup_singleton root
    · exact hF.nodup q
  · rw [Function.update_apply, hnodes]
    split_ifs with hq
    · subst hq
      rw [List.mem_singleton]
      constructor
      · rintro rfl
        exact ⟨Or.inl hF.root_mem, hne _ hF.root_mem, hup_root⟩
      · rintro ⟨hc | hc, hcr, hq⟩
        · by_contra hroot
          exact hup_mem c hc hroot hq
        · exact absurd hc hcr
    · rw [hF.mem_kids]
      constructor
      · rintro ⟨hc, hroot, rfl⟩
        exact ⟨Or.inl hc, hne c hc, hup c hc hroot⟩
      · rintro ⟨hc | hc, hcr, rfl⟩
        · have hroot : c ≠ root := by
            rintro rfl
            exact hq hup_root
          exact ⟨hc, hroot, (hup c hc hroot).symm⟩
        · exact absurd hc hcr
  · rw [hnodes] at hc ⊢
    have hc := hc.resolve_right hcr
    by_cases hroot : c = root
    · rw [hroot, hup_root]
      exact Or.inr rfl
    · rw [hup c hc hroot]
      exact Or.inl (hF.up_mem c hc hroot)
  · have hc := ((hnodes c).mp hc).resolve_right hcr
    rw [Function.update_of_ne hcr]
    by_cases hroot : c = root
    · rw [hroot, hup_root, Function.update_self, hF.level_root]
    · rw [Function.update_of_ne (hup_mem c hc hroot), hup c hc hroot, hF.level_up c hc hroot]

/-! ### A new node beside another one -/

/-- What a family becomes when the node `p` below `q` hands some of its children to the new node
`r` below `q`. -/
structure Parted (nodes nodes' : Set α) (kids kids' : α → List α) (up up' : α → α) (p q r : α) :
    Prop where
  nodes_iff : ∀ x, x ∈ nodes' ↔ x ∈ nodes ∨ x = r
  shared : (kids p).Perm (kids' p ++ kids' r)
  taken : (kids' q).Perm (r :: kids q)
  same : ∀ x, x ≠ p → x ≠ r → x ≠ q → kids' x = kids x
  up_new : up' r = q
  up_moved : ∀ x ∈ kids' r, up' x = r
  up_kept : ∀ x ∈ nodes, x ∉ kids' r → up' x = up x

section Split

variable (hF : Family nodes kids up root level)
  (hparted : Parted nodes nodes' kids kids' up up' p q r)

include hparted

lemma Parted.right_sub (hc : c ∈ kids' r) : c ∈ kids p :=
  hparted.shared.mem_iff.mpr (List.mem_append_right _ hc)

include hF

lemma Parted.left_iff : c ∈ kids' p ↔ c ∈ kids p ∧ c ∉ kids' r := by
  have hnodup := hparted.shared.nodup_iff.mp (hF.nodup p)
  rw [hparted.shared.mem_iff, List.mem_append]
  have hdisj := (List.nodup_append.mp hnodup).2.2
  constructor
  · exact fun hc => ⟨Or.inl hc, fun hcr => hdisj c hc c hcr rfl⟩
  · exact fun ⟨hc, hcr⟩ => hc.resolve_right hcr

/-- The children of a node that is not the new one. -/
lemma Parted.mem_iff {x : α} (hr : r ∉ nodes) (hxr : x ≠ r) (hpq : p ≠ q) :
    c ∈ kids' x ↔ (c ∈ kids x ∧ c ∉ kids' r) ∨ (c = r ∧ x = q) := by
  have hsub : ∀ {y}, c ∈ kids y → c ∈ kids' r → y = p := fun hy hc =>
    ((hF.mem_kids _ c).mp hy).2.2.symm.trans ((hF.mem_kids _ c).mp (hparted.right_sub hc)).2.2
  by_cases hxp : x = p
  · subst hxp
    rw [hparted.left_iff hF]
    exact ⟨Or.inl, fun h => h.resolve_right fun h => hpq h.2⟩
  · have hright : c ∈ kids x → c ∉ kids' r := fun hc hcr => hxp (hsub hc hcr)
    by_cases hxq : x = q
    · subst hxq
      rw [hparted.taken.mem_iff, List.mem_cons]
      constructor
      · rintro (rfl | hc)
        · exact Or.inr ⟨rfl, rfl⟩
        · exact Or.inl ⟨hc, hright hc⟩
      · rintro (⟨hc, -⟩ | ⟨rfl, -⟩)
        · exact Or.inr hc
        · exact Or.inl rfl
    · rw [hparted.same x hxp hxr hxq]
      exact ⟨fun hc => Or.inl ⟨hc, hright hc⟩, fun h => (h.resolve_right fun h => hxq h.2).1⟩

/-- **Splitting a node**: the new node stands on the level of the other one. -/
theorem split [DecidableEq α] (hp : p ∈ nodes) (hroot : p ≠ root) (hq : up p = q)
    (hr : r ∉ nodes) : Family nodes' kids' up' root (Function.update level r (level p)) := by
  have hne : ∀ x ∈ nodes, x ≠ r := fun x hx => by
    rintro rfl
    exact hr hx
  have hqmem : q ∈ nodes := hq ▸ hF.up_mem p hp hroot
  have hlevel : level p = level q + 1 := hq ▸ hF.level_up p hp hroot
  have hpq : p ≠ q := by
    rintro rfl
    omega
  have hright : ∀ {c}, c ∈ kids' r → c ∈ nodes ∧ c ≠ root ∧ up c = p := fun hc =>
    (hF.mem_kids p _).mp (hparted.right_sub hc)
  refine ⟨fun x => ?_, fun x c => ?_, (hparted.nodes_iff root).mpr (Or.inl hF.root_mem),
    (Function.update_of_ne (hne _ hF.root_mem) _ _).trans hF.level_root, fun c hc hcroot => ?_,
    fun c hc hcroot => ?_⟩
  · have hhalves := List.nodup_append.mp (hparted.shared.nodup_iff.mp (hF.nodup p))
    by_cases hxp : x = p
    · exact hxp ▸ hhalves.1
    by_cases hxr : x = r
    · exact hxr ▸ hhalves.2.1
    by_cases hxq : x = q
    · subst hxq
      refine hparted.taken.nodup_iff.mpr (List.nodup_cons.mpr ⟨fun hc => hr ?_, hF.nodup x⟩)
      exact ((hF.mem_kids x r).mp hc).1
    · rw [hparted.same x hxp hxr hxq]
      exact hF.nodup x
  · rw [hparted.nodes_iff]
    by_cases hxr : x = r
    · subst hxr
      constructor
      · intro hc
        exact ⟨Or.inl (hright hc).1, (hright hc).2.1, hparted.up_moved c hc⟩
      · rintro ⟨hc | rfl, hcroot, hup⟩
        · by_contra hcr
          rw [hparted.up_kept c hc hcr] at hup
          exact hr (hup ▸ hF.up_mem c hc hcroot)
        · exact absurd (hparted.up_new.symm.trans hup) (hne q hqmem)
    · rw [hparted.mem_iff hF hr hxr hpq, hF.mem_kids]
      constructor
      · rintro (⟨⟨hc, hcroot, rfl⟩, hcr⟩ | ⟨rfl, rfl⟩)
        · exact ⟨Or.inl hc, hcroot, hparted.up_kept c hc hcr⟩
        · exact ⟨Or.inr rfl, (hne _ hF.root_mem).symm, hparted.up_new⟩
      · rintro ⟨hc | rfl, hcroot, rfl⟩
        · have hcr : c ∉ kids' r := fun hcr => hxr (hparted.up_moved c hcr)
          exact Or.inl ⟨⟨hc, hcroot, (hparted.up_kept c hc hcr).symm⟩, hcr⟩
        · exact Or.inr ⟨rfl, hparted.up_new⟩
  · rw [hparted.nodes_iff] at hc ⊢
    obtain hc | rfl := hc
    · by_cases hcr : c ∈ kids' r
      · exact Or.inr (hparted.up_moved c hcr)
      · rw [hparted.up_kept c hc hcr]
        exact Or.inl (hF.up_mem c hc hcroot)
    · rw [hparted.up_new]
      exact Or.inl hqmem
  · obtain hc | rfl := (hparted.nodes_iff c).mp hc
    · rw [Function.update_of_ne (hne c hc)]
      by_cases hcr : c ∈ kids' r
      · rw [hparted.up_moved c hcr, Function.update_self, hF.level_kid (hparted.right_sub hcr)]
      · rw [hparted.up_kept c hc hcr, Function.update_of_ne (hne _ (hF.up_mem c hc hcroot)),
          hF.level_up c hc hcroot]
    · rw [hparted.up_new, Function.update_self, Function.update_of_ne (hne q hqmem), hlevel]

end Split

end Family

/-! ### Walks -/

/-- The walk from the root down to a node, as the indices of the children it takes. -/
inductive Walk (kids : α → List α) (root : α) : α → List ℕ → Prop
  | nil : Walk kids root root []
  | snoc {q c : α} {js : List ℕ} {j : ℕ} : Walk kids root q js → (kids q)[j]? = some c →
      Walk kids root c (js ++ [j])

/-- **At most one walk** leads to a node, when no node is listed twice and the root is nobody's
child. -/
theorem Walk.unique {kids : α → List α} {root p : α} {js js' : List ℕ}
    (honce : ∀ (q q' : α) (j j' : ℕ) (c : α), (kids q)[j]? = some c → (kids q')[j']? = some c →
      q = q' ∧ j = j')
    (hroot : ∀ q, root ∉ kids q) (h : Walk kids root p js) (h' : Walk kids root p js') :
    js = js' := by
  induction h generalizing js' with
  | nil =>
      cases h' with
      | nil => rfl
      | snoc _ hc => exact absurd (List.mem_of_getElem? hc) (hroot _)
  | snoc hq hc ih =>
      cases h' with
      | nil => exact absurd (List.mem_of_getElem? hc) (hroot _)
      | snoc hq' hc' =>
          obtain ⟨rfl, rfl⟩ := honce _ _ _ _ _ hc hc'
          rw [ih hq']

end ColumnDb
