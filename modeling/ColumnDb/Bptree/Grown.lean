import ColumnDb.Bptree.Indexed

/-!
Searching a B+ tree that grows by inserts.

* `Reaches`: what the descent for a key knows of the place it has reached. The last fence in
  front of it is below the key, and the first one behind it is not.
* `findLeaf_reaches`: so the descent ends at a leaf with that property.
* `GrownTo`: the invariant of the file, the tree with the chain of its leaves and the entries
  that were inserted.
* `GrownTo.search`: the search returns exactly the inserted rows in the range.
-/

namespace ColumnDb

/-! ### The descent -/

/-- The place `p` at depth `d` is where the descent for `key` goes. -/
def Reaches (kids : ℕ → List (ℕ ⊕ ℤ)) (root : ℕ) (key : ℤ) (d p : ℕ) : Prop :=
  ∃ X Y, layer kids root d = X ++ Sum.inl p :: Y ∧
    (X = [] ∨ ∃ X₀ k, X = X₀ ++ [Sum.inr k] ∧ k < key) ∧
    (Y = [] ∨ ∃ Y₀ k, Y = Sum.inr k :: Y₀ ∧ key ≤ k)

section Descent

variable {f : BptFile} {root h : ℕ} {key : ℤ}

lemma Reaches.mem {kids : ℕ → List (ℕ ⊕ ℤ)} {d p : ℕ} (hr : Reaches kids root key d p) :
    p ∈ spots (layer kids root d) := by
  obtain ⟨X, Y, hrow, -⟩ := hr
  simp [hrow]

/-- One step down. -/
lemma Reaches.step (hI : Indexed f.look (rowAt f.look) root h) {d p : ℕ} {n : Node}
    (hd : d < h) (hr : Reaches (rowAt f.look) root key d p) (hn : f.look p = some n) :
    n.isLeaf = false ∧ ∃ c m, n.pointers[findLeafCounter n key]? = some c ∧ f.look c = some m ∧
      Reaches (rowAt f.look) root key (d + 1) c := by
  obtain ⟨n', hn', hleaf⟩ := hI.inner d hd p hr.mem
  cases hn.symm.trans hn'
  have hsound := hI.sound p n hn
  have hkids : rowAt f.look p = childRow n.first n.branches := by
    rw [rowAt_of_some hn, Node.row_of_inner hleaf]
  have hle := findLeafCounter_le n key
  have hlt : findLeafCounter n key < n.pointers.length := by
    have := hsound.size
    rw [hsound.shape.pointers]
    omega
  have hget : n.pointers[findLeafCounter n key]? = some n.pointers[findLeafCounter n key] :=
    List.getElem?_eq_getElem hlt
  set c := n.pointers[findLeafCounter n key]
  obtain ⟨A, B, hrow, -, hA, hB⟩ :=
    childRow_split ((Node.getElem?_children hsound.shape hle).trans hget)
  have hseps := Node.seps_eq_branches hsound.shape
  obtain ⟨X, Y, hlayer, hX, hY⟩ := hr
  have hlayer' : layer (rowAt f.look) root (d + 1)
      = (expand (rowAt f.look) X ++ A) ++ Sum.inl c :: (B ++ expand (rowAt f.look) Y) := by
    rw [layer, hlayer, expand_append, expand_cons_inl, hkids, hrow]
    simp
  have hreach : Reaches (rowAt f.look) root key (d + 1) c := by
    refine ⟨_, _, hlayer', ?_, ?_⟩
    · obtain ⟨rfl, -⟩ | ⟨A₀, k, j, rfl, hj, hk⟩ := hA
      · obtain rfl | ⟨X₀, k, rfl, hk⟩ := hX
        · exact Or.inl rfl
        · exact Or.inr ⟨expand (rowAt f.look) X₀, k, by simp, hk⟩
      · rw [← hseps] at hk
        exact Or.inr ⟨expand (rowAt f.look) X ++ A₀, k, by simp,
          lt_of_lt_findLeafCounter (by omega) hk⟩
    · obtain rfl | ⟨B₀, k, rfl, hk⟩ := hB
      · obtain rfl | ⟨Y₀, k, rfl, hk⟩ := hY
        · exact Or.inl rfl
        · exact Or.inr ⟨expand (rowAt f.look) Y₀, k, by simp, hk⟩
      · rw [← hseps] at hk
        exact Or.inr ⟨B₀ ++ expand (rowAt f.look) Y, k, by simp, le_of_eq_findLeafCounter hk⟩
  obtain ⟨m, hm⟩ := hI.exists_node hd hreach.mem
  exact ⟨hleaf, c, m, hget, hm, hreach⟩

/-- **The descent** ends at a leaf. -/
theorem findLeaf_reaches (hI : Indexed f.look (rowAt f.look) root h) (fuel : ℕ) :
    ∀ {d p : ℕ} {n : Node}, d ≤ h → f.look p = some n → Reaches (rowAt f.look) root key d p →
      h < d + fuel → ∃ p' leaf, findLeaf fuel f n key = .ok leaf ∧ f.look p' = some leaf ∧
        leaf.isLeaf = true ∧ Reaches (rowAt f.look) root key h p' := by
  induction fuel with
  | zero => intro d p n hd _ _ hfuel; omega
  | succ fuel ih =>
      intro d p n hd hn hr hfuel
      rw [findLeaf]
      rcases Nat.lt_or_ge d h with hlt | hge
      · obtain ⟨hleaf, c, m, hget, hm, hr'⟩ := hr.step hI hlt hn
        obtain ⟨p', leaf, hok, hrest⟩ := ih hlt hm hr' (by omega)
        have hload : loadNode f c = .ok m := fetch_eq_ok.mpr hm
        refine ⟨p', leaf, ?_, hrest⟩
        rw [if_neg (by rw [hleaf]; exact Bool.false_ne_true), fetch_eq_ok.mpr hget,
          Outcome.ok_bind, hload, Outcome.ok_bind, hok]
      · obtain rfl : d = h := by omega
        obtain ⟨n', hn', hleaf⟩ := hI.leaf p hr.mem
        cases hn.symm.trans hn'
        exact ⟨p, n, if_pos hleaf, hn, hleaf, hr⟩

end Descent

/-! ### The leaves -/

/-- The entries of the node at a position. -/
def entriesAt (t : ℕ → Option Node) (p : ℕ) : List (ℤ × ℕ) := (t p).elim [] Node.entries

/-- The position that the node at a position names as the next one. -/
def nextAt (t : ℕ → Option Node) (p : ℕ) : ℕ := (t p).elim 0 Node.next

lemma entriesAt_update (t : ℕ → Option Node) (p : ℕ) (n : Node) :
    entriesAt (Function.update t p (some n)) = Function.update (entriesAt t) p n.entries := by
  funext x
  rw [entriesAt, Function.update_apply, Function.update_apply]
  split_ifs <;> rfl

lemma nextAt_update (t : ℕ → Option Node) (p : ℕ) (n : Node) :
    nextAt (Function.update t p (some n)) = Function.update (nextAt t) p n.next := by
  funext x
  rw [nextAt, Function.update_apply, Function.update_apply]
  split_ifs <;> rfl

/-- Every leaf names the one after it, and the last one `0`. -/
def Linked (t : ℕ → Option Node) (ps : List ℕ) : Prop := ps.map (nextAt t) = ps.tail ++ [0]

/-- A tree of height `h` over `f` with the entries `es`. -/
structure GrownTo (f : BptFile) (h : ℕ) (es : List (ℤ × ℕ)) : Prop where
  indexed : Indexed f.look (rowAt f.look) f.m.root h
  height : h < f.nodes.length
  nextFree : f.m.nextFree = f.nodes.length
  size : f.m.size ≠ 0
  head : (spots (layer (rowAt f.look) f.m.root h)).head? = some 0
  linked : Linked f.look (spots (layer (rowAt f.look) f.m.root h))
  entries : ((spots (layer (rowAt f.look) f.m.root h)).flatMap (entriesAt f.look)).Perm es

section Leaves

variable {row : List (ℕ ⊕ ℤ)}

/-- The row of a leaf holds the keys of its entries. -/
lemma fences_rowAt_leaf {t : ℕ → Option Node} {p : ℕ} {n : Node} (hn : t p = some n)
    (hleaf : n.isLeaf = true) : fences (rowAt t p) = (entriesAt t p).map Prod.fst := by
  rw [rowAt_of_some hn, Node.row_of_leaf hleaf, fences_keyRow, entriesAt, hn]
  rfl

/-- The keys of the leaves of a row are among the fences below it. -/
lemma keys_sublist {t : ℕ → Option Node}
    (hleaf : ∀ p ∈ spots row, ∃ n, t p = some n ∧ n.isLeaf = true) :
    (((spots row).flatMap (entriesAt t)).map Prod.fst).Sublist (fences (expand (rowAt t) row)) := by
  induction row with
  | nil => exact List.Sublist.refl _
  | cons x row ih =>
      rcases x with p | k
      · obtain ⟨n, hn, hl⟩ := hleaf p List.mem_cons_self
        rw [spots_cons_inl, List.flatMap_cons, List.map_append, expand_cons_inl, fences_append,
          fences_rowAt_leaf hn hl]
        exact (List.Sublist.refl _).append (ih fun q hq => hleaf q (List.mem_cons_of_mem _ hq))
      · rw [spots_cons_inr, expand_cons_inr, fences_cons_inr]
        exact (ih hleaf).trans (List.sublist_cons_self _ _)

/-- The leaves from one on, as a chain of nodes. -/
lemma leafChain_of_linked {f : BptFile} (V : List ℕ) : ∀ {p : ℕ} {n : Node},
    f.look p = some n → (∀ q ∈ V, ∃ m, f.look q = some m) → 0 ∉ V → Linked f.look (p :: V) →
    ∃ rest, LeafChain f (n :: rest) ∧ rest.length = V.length ∧
      (n :: rest).flatMap Node.entries = (p :: V).flatMap (entriesAt f.look) := by
  induction V with
  | nil =>
      intro p n hn _ _ hlinked
      have hnext : n.next = 0 := by
        have := List.cons.inj hlinked
        rw [← this.1, nextAt, hn]
        rfl
      have hne : f.nodes ≠ [] := by
        intro hnil
        rw [BptFile.look, hnil] at hn
        cases hn
      exact ⟨[], ⟨hnext, hne⟩, rfl, by simp [entriesAt, hn]⟩
  | cons q V ih =>
      intro p n hn hV hzero hlinked
      obtain ⟨m, hm⟩ := hV q List.mem_cons_self
      obtain ⟨hnext, hlinked'⟩ := List.cons.inj hlinked
      have hq : n.next = q := by
        rw [← hnext, nextAt, hn]
        rfl
      obtain ⟨rest, hchain, hlen, hentries⟩ := ih hm
        (fun x hx => hV x (List.mem_cons_of_mem _ hx))
        (fun hx => hzero (List.mem_cons_of_mem _ hx)) hlinked'
      refine ⟨m :: rest, ⟨?_, ?_, hchain⟩, by simp [hlen], ?_⟩
      · rw [hq]
        rintro rfl
        exact hzero List.mem_cons_self
      · rw [hq]
        exact fetch_eq_ok.mpr hm
      · rw [List.flatMap_cons, hentries, List.flatMap_cons]
        simp [entriesAt, hn]

/-- The end of a chain is linked as well. -/
lemma Linked.suffix {t : ℕ → Option Node} {U V : List ℕ} {p : ℕ} (hl : Linked t (U ++ p :: V)) :
    Linked t (p :: V) := by
  induction U with
  | nil => exact hl
  | cons u U ih =>
      refine ih ?_
      have htail := congrArg List.tail hl
      rwa [List.cons_append, List.map_cons, List.tail_cons, List.tail_cons,
        List.tail_append_of_ne_nil (by simp)] at htail

/-- A leaf put into the chain behind another one. -/
lemma Linked.insert {t t' : ℕ → Option Node} {U V : List ℕ} {p N : ℕ}
    (hl : Linked t (U ++ p :: V)) (hU : ∀ x ∈ U, nextAt t' x = nextAt t x)
    (hV : ∀ x ∈ V, nextAt t' x = nextAt t x) (hp : nextAt t' p = N)
    (hN : nextAt t' N = nextAt t p) : Linked t' (U ++ p :: N :: V) := by
  rw [Linked, List.map_append, List.map_cons] at hl
  rw [Linked, List.map_append, List.map_cons, List.map_cons, List.map_congr_left hU,
    List.map_congr_left hV, hp, hN]
  cases U with
  | nil => exact congrArg (N :: ·) hl
  | cons x U =>
      have hsplit : (x :: U).map (nextAt t) ++ nextAt t p :: V.map (nextAt t)
          = (U ++ [p]) ++ (V ++ [0]) := by
        rw [hl]
        simp
      obtain ⟨hfront, hback⟩ := List.append_inj hsplit (by simp)
      rw [hfront, hback]
      simp

end Leaves

/-! ### The search -/

namespace GrownTo

variable {f : BptFile} {h : ℕ} {es : List (ℤ × ℕ)}

/-- The entries of the leaves are in the order of their keys. -/
lemma inKeyOrder (hg : GrownTo f h es) :
    InKeyOrder ((spots (layer (rowAt f.look) f.m.root h)).flatMap (entriesAt f.look)) :=
  List.pairwise_map.mp (hg.indexed.order.sublist (keys_sublist hg.indexed.leaf))

/-- The leaf at which the descent for a key ends, in the chain of the leaves. -/
lemma exists_leaf (hg : GrownTo f h es) (key : ℤ) :
    ∃ root leaf p, loadNode f f.m.root = .ok root ∧
      findLeaf (f.nodes.length + 1) f root key = .ok leaf ∧ f.look p = some leaf ∧
      leaf.isLeaf = true ∧ Reaches (rowAt f.look) f.m.root key h p := by
  have htop : Reaches (rowAt f.look) f.m.root key 0 f.m.root :=
    ⟨[], [], rfl, Or.inl rfl, Or.inl rfl⟩
  obtain ⟨root, hroot⟩ := hg.indexed.exists_node (Nat.zero_le _) htop.mem
  have hheight := hg.height
  obtain ⟨p, leaf, hok, hp, hleaf, hr⟩ :=
    findLeaf_reaches hg.indexed (f.nodes.length + 1) (Nat.zero_le _) hroot htop (by omega)
  exact ⟨root, leaf, p, fetch_eq_ok.mpr hroot, hok, hp, hleaf, hr⟩

/-- The leaves in front of a fence hold no keys above it. -/
lemma entries_le (hg : GrownTo f h es) {X Y : List (ℕ ⊕ ℤ)} {k : ℤ}
    (hrow : layer (rowAt f.look) f.m.root h = X ++ Sum.inr k :: Y) :
    ∀ e ∈ (spots X).flatMap (entriesAt f.look), e.1 ≤ k := by
  intro e he
  have hleaf : ∀ q ∈ spots X, ∃ n, f.look q = some n ∧ n.isLeaf = true := fun q hq =>
    hg.indexed.leaf q (by simp [hrow, hq])
  have hmem := (keys_sublist hleaf).subset (List.mem_map_of_mem he)
  have horder := hg.indexed.order
  rw [layer, hrow, expand_append, expand_cons_inr, fences_append, fences_cons_inr,
    List.pairwise_append] at horder
  exact horder.2.2 e.1 hmem k List.mem_cons_self

/-- The positions of the leaves are positions of nodes, and all different. -/
lemma length_leaves_le (hg : GrownTo f h es) :
    (spots (layer (rowAt f.look) f.m.root h)).length ≤ f.nodes.length := by
  have hsub : spots (layer (rowAt f.look) f.m.root h) ⊆ List.range f.nodes.length := by
    intro p hp
    obtain ⟨n, hn, -⟩ := hg.indexed.leaf p hp
    exact List.mem_range.mpr (List.getElem?_eq_some_iff.mp hn).1
  have hlen := ((hg.indexed.layered.nodup h le_rfl).subperm hsub).length_le
  rwa [List.length_range] at hlen

/-- **The search** returns exactly the inserted rows in the range, and their number. -/
theorem search (hg : GrownTo f h es) (low high : ℤ) :
    ∃ ids, foundRows f low high = .ok (ids, ids.length) ∧
      ids.Perm (hits low high es) := by
  obtain ⟨root, leaf, p, hroot, hfind, hp, -, X, Y, hrow, hX, -⟩ := hg.exists_leaf low
  have hspots : spots (layer (rowAt f.look) f.m.root h) = spots X ++ p :: spots Y := by
    simp [hrow]
  have hlinked := hg.linked
  have hnodup := hg.indexed.layered.nodup h le_rfl
  have hhead := hg.head
  have hlen := hg.length_leaves_le
  have hkeys := hg.inKeyOrder
  have hall := hg.entries
  rw [hspots] at hlinked hnodup hhead hlen hkeys hall
  have hzero : 0 ∉ spots Y := by
    intro hmem
    cases hU : spots X with
    | nil =>
        rw [hU] at hnodup hhead
        obtain rfl : p = 0 := Option.some_inj.mp hhead
        exact (List.nodup_cons.mp hnodup).1 hmem
    | cons u U =>
        rw [hU] at hnodup hhead
        obtain rfl : u = 0 := Option.some_inj.mp hhead
        exact (List.nodup_cons.mp hnodup).1 (by simp [hmem])
  have hV : ∀ q ∈ spots Y, ∃ m, f.look q = some m := fun q hq =>
    hg.indexed.exists_node le_rfl (by simp [hspots, hq])
  obtain ⟨rest, hchain, hrest, hentries⟩ :=
    leafChain_of_linked (spots Y) hp hV hzero hlinked.suffix
  rw [List.flatMap_append, ← hentries] at hkeys hall
  have hbefore : ∀ e ∈ (spots X).flatMap (entriesAt f.look), e.1 < low := by
    obtain rfl | ⟨X₀, k, rfl, hk⟩ := hX
    · simp
    · intro e he
      rw [spots_append, spots_cons_inr, spots_nil, List.append_nil] at he
      rw [List.append_assoc] at hrow
      exact (hg.entries_le hrow e he).trans_lt hk
  have hfound := foundRows_eq high hroot hfind hchain (by
    rw [hrest]
    rw [List.length_append, List.length_cons] at hlen
    omega) (List.pairwise_append.mp hkeys).2.1 hbefore
  exact ⟨_, hfound, hits_perm hall⟩

end GrownTo

end ColumnDb
