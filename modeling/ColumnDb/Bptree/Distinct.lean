import ColumnDb.Bptree.InsertRun

/-!
Inserting keys that are all different.

* `Parts`: where the separator of a split falls in a layer. Between fences that ascend, the parent
  takes the new node right behind the one that is split (`Pending.takesBehind`).
* `MarksAbove`: no node from the root down to a depth has a word behind its pointers that an
  insert could move over its mark.
* `insertNode_apart`: then an insert into an interior node succeeds, with its splits in place.
* `Parted`: the invariant of a tree whose keys are all different. Every fence over the leaves is
  the first key of the leaf behind it, and beside a single leaf every leaf is half full.
* `Parted.insert`, `Parted.run`: every insert of a new key succeeds, puts its new nodes right behind
  the ones that are split, and keeps it, when the words behind the pointers are clear, which they
  are up to `8128` records.
-/

namespace ColumnDb

/-! ### Where the separator falls -/

section Place

variable {n m : Node} {key sep : ℤ} {u : ℕ}

/-- The keys of a full node with a new key among them ascend. -/
lemma tempKeys_ascend (hn : NodeShape n) (hsize : n.size = 127) (hs : n.seps.Pairwise (· ≤ ·))
    (hu : u = n.seps.countP (· ≤ key)) (hnodup : (key :: n.seps).Nodup) :
    (tempKeys n u key).Pairwise (· < ·) := by
  have hu' : u ≤ n.seps.length := hu ▸ List.countP_le_length
  have hperm := List.perm_insertIdx key n.seps hu'
  have hsorted : (n.seps.insertIdx u key).Pairwise (· ≤ ·) := hu ▸ insertIdx_countP_le_sorted hs key
  rw [Node.length_seps hn hsize.le, hsize] at hu'
  rw [tempKeys_eq hn hsize hu']
  exact (hsorted.and (hperm.nodup_iff.mpr hnodup)).imp fun h => lt_of_le_of_ne h.1 h.2

/-- So the keys at the cut differ. -/
lemma separator_ne (hn : NodeShape n) (hsize : n.size = 127) (hu : u ≤ 127)
    (hs : (tempKeys n u key).Pairwise (· < ·)) :
    separator n u key ≠ (tempKeys n u key).getD (bptSplit + 1) 0 := by
  have hlen := @length_tempKeys n key u hn hsize hu
  have h64 : bptSplit < (tempKeys n u key).length := by rw [hlen]; decide
  have h65 : bptSplit + 1 < (tempKeys n u key).length := by rw [hlen]; decide
  rw [separator, List.getD_eq_getElem?_getD, List.getD_eq_getElem?_getD,
    List.getElem?_eq_getElem h64, List.getElem?_eq_getElem h65]
  exact (List.pairwise_iff_getElem.mp hs _ _ h64 h65 (Nat.lt_succ_self _)).ne

/-- The fences in front of a child and behind it. -/
lemma childRow_at {bs : List (ℤ × ℕ)} {first c i : ℕ}
    (h : (first :: bs.map Prod.snd)[i]? = some c) :
    ∃ A B, childRow first bs = A ++ Sum.inl c :: B ∧ fences A = (bs.map Prod.fst).take i ∧
      fences B = (bs.map Prod.fst).drop i := by
  induction bs generalizing first i with
  | nil =>
      cases i with
      | zero =>
          cases h
          exact ⟨[], [], rfl, rfl, rfl⟩
      | succ i => cases h
  | cons b bs ih =>
      cases i with
      | zero =>
          cases h
          refine ⟨[], Sum.inr b.1 :: childRow b.2 bs, rfl, rfl, ?_⟩
          rw [fences_cons_inr, fences_childRow]
          rfl
      | succ i =>
          obtain ⟨A, B, hrow, hA, hB⟩ := @ih b.2 i h
          refine ⟨Sum.inl first :: Sum.inr b.1 :: A, B, ?_, ?_, hB⟩
          · rw [childRow_cons, hrow]
            rfl
          · rw [fences_cons_inl, fences_cons_inr, hA]
            rfl

/-- The fence `s` falls right behind the place `p` of a layer, between fences that ascend. -/
def Parts (kids : ℕ → List (ℕ ⊕ ℤ)) (root d p : ℕ) (s : ℤ) : Prop :=
  ∀ X Y, layer kids root d = X ++ Sum.inl p :: Y → (fences X ++ s :: fences Y).Pairwise (· < ·)

/-- Above the leaves the fences of the next layer hold the separator already. -/
lemma parts_of_ascend {kids : ℕ → List (ℕ ⊕ ℤ)} {root h d p : ℕ} {A B : List (ℕ ⊕ ℤ)} (hd : d < h)
    (hrow : kids p = A ++ Sum.inr sep :: B)
    (hascend : (fences (layer kids root h)).Pairwise (· < ·)) : Parts kids root d p sep := by
  intro X Y hlayer
  refine hascend.sublist (List.Sublist.trans ?_ (fences_layer_sublist (Nat.succ_le_of_lt hd)))
  rw [layer, hlayer, expand_append, expand_cons_inl, hrow, fences_append, fences_append,
    fences_append, fences_cons_inr, List.append_assoc (fences A), List.cons_append]
  exact (fences_sublist_expand X).append ((((fences_sublist_expand Y).trans
    (List.sublist_append_right _ _)).cons_cons sep).trans (List.sublist_append_right _ _))

/-- A key between the fences around a child is put right behind that child. -/
lemma pointer_behind {c i : ℕ} (hm : NodeShape m) (hi : m.children[i]? = some c)
    (hbefore : ∀ k ∈ m.seps.take i, k < sep) (hbehind : ∀ k ∈ m.seps.drop i, sep < k)
    (hsize : i ≤ m.size) (hle : m.size ≤ 127) :
    m.pointers[m.seps.countP (· ≤ sep)]? = some c := by
  have hcount : m.seps.countP (· ≤ sep) = i := by
    conv_lhs => rw [← List.take_append_drop i m.seps]
    rw [List.countP_append, List.countP_eq_length.mpr fun k hk => by
        simpa using (hbefore k hk).le, List.countP_eq_zero.mpr fun k hk => by
        simpa using hbehind k hk, List.length_take, Node.length_seps hm hle, min_eq_left hsize,
      Nat.add_zero]
  rw [hcount, ← hi, Node.children_eq hm]
  exact (Node.getElem?_children hm hsize).symm

end Place

/-! ### Interior nodes -/

/-- No node from the root down to the depth `d` has `126` keys and, in the word behind its
pointers, a first byte that is not zero. -/
def MarksAbove (f : BptFile) (kids : ℕ → List (ℕ ⊕ ℤ)) (root d : ℕ) : Prop :=
  ∀ e ≤ d, ∀ x ∈ spots (layer kids root e), ∀ m, f.look x = some m → m.size = 126 →
    m.pointers.getD 127 0 % 256 = 0

namespace Pending

variable {f : BptFile} {cm : ColumnMeta} {n m : Node} {kids : ℕ → List (ℕ ⊕ ℤ)} {root h d : ℕ}
  {sep : ℤ}

/-- **The parent takes the new node right behind the one that is split.** -/
theorem takesBehind (hP : Pending f cm n kids root h (d + 1)) (hm : f.look n.parent = some m)
    (hparts : Parts kids root (d + 1) n.pos sep) (hmarks : MarksAbove f kids root d) :
    TakesBehind m n.pos sep := by
  have hI := hP.indexed
  have hd := hP.depth
  obtain ⟨hpos, hmem, hinner, hshape, hne⟩ := hP.parent_at hm
  have hchild := (hI.parent_mem hd hP.mem hP.node).2
  have hkids : kids m.pos = m.row := by
    rw [hP.others m.pos hne, hpos, rowAt_of_some hm]
  rw [hpos] at hmem
  refine ⟨?_, fun hsize _ => hmarks d le_rfl _ hmem m hm hsize⟩
  rw [← hpos, hkids, Node.spots_row_of_inner hshape hinner] at hchild
  obtain ⟨i, hi⟩ := List.mem_iff_getElem?.mp hchild
  have hsize : i ≤ m.size := by
    have hlt := (List.getElem?_eq_some_iff.mp hi).1
    rw [Node.children, List.length_take] at hlt
    omega
  have hi' := hi
  rw [Node.children_eq hshape] at hi'
  obtain ⟨A, B, hrow, hA, hB⟩ := childRow_at hi'
  rw [← Node.row_of_inner hinner, ← hkids, hpos] at hrow
  rw [← Node.seps_eq_branches hshape] at hA hB
  obtain ⟨X, Y, hlayer⟩ := exists_eq_append hmem
  have hpair := hparts (expand kids X ++ A) (B ++ expand kids Y) (by
    rw [layer, hlayer, expand_append, expand_cons_inl, hrow]
    simp)
  rw [fences_append, fences_append, hA, hB] at hpair
  obtain ⟨-, hpair, hcross⟩ := List.pairwise_append.mp hpair
  refine pointer_behind hshape hi (fun k hk => ?_) (fun k hk => ?_) hsize
    (hI.sound _ _ hm).size
  · exact hcross k (List.mem_append_right _ hk) sep List.mem_cons_self
  · exact (List.pairwise_cons.mp hpair).1 k (List.mem_append_left _ hk)

end Pending

/-- **An insert into an interior node succeeds**, with its splits in place, when the fences over the
leaves ascend and the marks are safe. -/
theorem insertNode_apart (fuel : ℕ) : ∀ {f : BptFile} {cm : ColumnMeta} {n : Node} {key : ℤ}
    {pointer root h d : ℕ} {kids : ℕ → List (ℕ ⊕ ℤ)}, Pending f cm n kids root h d → d < h →
    kids n.pos
      = childRow n.first (n.branches.insertIdx (n.seps.countP (· ≤ key)) (key, pointer)) →
    (fences (layer kids root h)).Pairwise (· < ·) → MarksAbove f kids root d → d < fuel →
    ∃ f' h', insertNode fuel f cm n key pointer = .ok f' ∧ Settled f f' cm kids root h h' ∧
      splitsInPlace fuel f n key = true := by
  induction fuel with
  | zero => intro f cm n key pointer root h d kids _ _ _ _ _ hfuel; omega
  | succ fuel ih =>
      intro f cm n key pointer root h d kids hP hd hrow hascend hmarks hfuel
      obtain ⟨hinner, hs⟩ := hP.inner hd hrow
      have hshape := hP.sound.shape
      rcases Nat.lt_or_ge n.size 127 with hroom | hfull
      · obtain ⟨f', hok, hset⟩ := hP.insert_room fuel hd hrow
          (fun hsize _ => hmarks d le_rfl _ hP.mem n hP.node hsize) hroom
        exact ⟨f', h, hok, hset, splitsInPlace_of_top fuel key (Or.inl hroom)⟩
      · have hsize : n.size = 127 := le_antisymm hP.sound.size hfull
        have hu : n.seps.countP (· ≤ key) ≤ 127 :=
          hsize ▸ List.countP_le_length.trans (List.length_take_le _ _)
        have hover : overflowNode f n key = .ok none := by
          rw [overflowNode, if_neg]
          rw [hinner]
          exact fun h => Bool.false_ne_true h.1
        have hkeys : (tempKeys n (n.seps.countP (· ≤ key)) key).Pairwise (· < ·) := by
          have hsub := (fences_kids_sublist hP.mem).trans
            (fences_layer_sublist (Nat.succ_le_of_lt hd))
          rw [hrow, fences_childRow, List.map_insertIdx, ← Node.seps_eq_branches hshape,
            ← tempKeys_eq hshape hsize hu] at hsub
          exact hascend.sublist hsub
        rw [split_inner key pointer cm.nextFree hshape hinner hsize hu] at hrow
        cases d with
        | zero =>
            obtain ⟨g, f', hok, hsplit⟩ := hP.insert_root_apart fuel hsize hs rfl hover hrow
              (separator_ne hshape hsize hu hkeys)
            have htop := (hP.indexed.parent_eq_zero (Nat.zero_le _) hP.mem hP.node).mpr rfl
            exact ⟨f', h + 1, hok, hsplit.settled hinner hd hP.nextFree,
              splitsInPlace_of_top fuel key (Or.inr htop)⟩
        | succ d =>
            obtain ⟨hroot, m, hm⟩ := hP.exists_parent
            have hplace := hP.takesBehind hm (parts_of_ascend hd hrow hascend)
              fun e he => hmarks e (Nat.le_succ_of_le he)
            obtain ⟨g, left, right, heq, -, -, -, -, hlen, hbelow, hP', habove, hsplits⟩ :=
              hP.insert_parent fuel hsize hs rfl hover hrow hm hplace
            obtain ⟨f', h', hok, hset, hup⟩ := ih hP' (by omega) (Function.update_self _ _ _)
              (by rwa [hbelow.splits.below (by omega) (Nat.le_succ h)])
              (fun e he x hx y hy => by
                rw [hbelow.splits.above he] at hx
                rw [habove e he x hx] at hy
                exact hmarks e (by omega) x hx y hy) (by omega)
            exact ⟨f', h', heq.trans hok, hset.of_below hinner hbelow hd hlen,
              (splitsInPlace_full fuel hsize hroot hm).mpr
                ⟨hplace, (hsplits fuel).symm.trans hup⟩⟩

/-! ### The leaves -/

/-- The keys of the node at a position. -/
def keysAt (t : ℕ → Option Node) (p : ℕ) : List ℤ := (entriesAt t p).map Prod.fst

/-- A tree with the entries `es`, in which every fence over the leaves is the first key of the leaf
behind it, and every leaf has half a node's entries if there is more than one. -/
structure Parted (f : BptFile) (h : ℕ) (es : List (ℤ × ℕ)) : Prop where
  grown : GrownTo f h es
  headed : Headed (keysAt f.look) (layer (rowAt f.look) f.m.root h)
  filled : h = 0 ∨ ∀ p ∈ spots (layer (rowAt f.look) f.m.root h),
    64 ≤ (entriesAt f.look p).length

section Leaf

variable {f : BptFile} {h p u : ℕ} {key : ℤ} {es : List (ℤ × ℕ)} {n : Node} {X Y : List (ℕ ⊕ ℤ)}

/-- The first key of a leaf stays the first one when a greater key is inserted. -/
lemma insertIdx_head {k : ℤ} {ks : List ℤ} (hk : k < key) :
    ∃ ks', (k :: ks).insertIdx ((k :: ks).countP (· ≤ key)) key = k :: ks' := by
  rw [List.countP_cons_of_pos (by simpa using hk.le), List.insertIdx_succ_cons]
  exact ⟨_, rfl⟩

/-- In front of the leaf that the descent for a key reaches, either there is no fence, or the one
next to it, the first key of the leaf, is below the key. -/
lemma Parted.keeps_head (hp : Parted f h es) (hr : Reaches (rowAt f.look) f.m.root key h p)
    (hrow : layer (rowAt f.look) f.m.root h = X ++ Sum.inl p :: Y) :
    X = [] ∨ ∀ k ks, keysAt f.look p = k :: ks → k < key := by
  obtain ⟨X₁, Y₁, hrow₁, hX, -⟩ := hr
  obtain ⟨rfl, -⟩ := append_inl_inj (hp.grown.leaf_once hrow).1 (hp.grown.leaf_once hrow₁).1
    (hrow.symm.trans hrow₁)
  refine hX.imp_right ?_
  rintro ⟨X₀, k, rfl, hk⟩ k' ks hks
  have hheaded := hp.headed
  rw [hrow, List.append_assoc] at hheaded
  obtain ⟨⟨p', Y', ks', heq, hhead⟩, -⟩ := hheaded.suffix
  cases heq
  rw [hhead] at hks
  cases hks
  exact hk

/-- The keys of a full leaf with the new entry. -/
lemma keys_insert_full (row : ℕ) (hI : Indexed f.look (rowAt f.look) f.m.root h)
    (hn : f.look p = some n) (hr : Reaches (rowAt f.look) f.m.root key h p) (hsize : n.size = 127)
    (hu : u = n.seps.countP (· ≤ key)) :
    (n.entries.insertIdx u (key, row)).map Prod.fst = tempKeys n u key := by
  have hu' : u ≤ 127 := hu ▸ hsize ▸ List.countP_le_length.trans (List.length_take_le _ _)
  rw [tempKeys_eq (hI.sound p n hn).shape hsize hu', hu]
  exact (keys_insert row hI hn hr).2.1

/-- **The fences after a full leaf is split**, with the halves in `E`: each is the first key behind
it, and they ascend. -/
lemma Parted.split (row N : ℕ) (hp : Parted f h es) (hn : f.look p = some n)
    (hleaf : n.isLeaf = true) (hsize : n.size = 127)
    (hr : Reaches (rowAt f.look) f.m.root key h p) (hu : u = n.seps.countP (· ≤ key))
    (hnodup : ((es ++ [(key, row)]).map Prod.fst).Nodup) {E : ℕ → List (ℤ × ℕ)}
    (hrow : layer (rowAt f.look) f.m.root h = X ++ Sum.inl p :: Y)
    (hsame : ∀ q ∈ spots X ++ spots Y, E q = entriesAt f.look q)
    (hleft : E p = (n.entries.insertIdx u (key, row)).take 64)
    (hright : E N = (n.entries.insertIdx u (key, row)).drop 64) :
    Headed (fun q => (E q).map Prod.fst)
      (X ++ Sum.inl p :: Sum.inr (separator n u key) :: Sum.inl N :: Y) ∧
    (fences X ++ separator n u key :: fences Y).Pairwise (· < ·) := by
  have hI := hp.grown.indexed
  have hshape := (hI.sound p n hn).shape
  have hu' : u ≤ n.entries.length := by
    rw [hu, Node.seps_eq_entries hshape]
    exact List.countP_le_length.trans_eq (List.length_map _)
  have hu127 : u ≤ 127 := hu ▸ hsize ▸ List.countP_le_length.trans (List.length_take_le _ _)
  have hs := (keys_insert row hI hn hr).1
  have hkeys := keys_insert_full row hI hn hr hsize hu
  have hlen : (tempKeys n u key).length = 128 :=
    length_tempKeys hshape hsize hu127
  have hheaded : Headed (fun q => (E q).map Prod.fst)
      (X ++ Sum.inl p :: Sum.inr (separator n u key) :: Sum.inl N :: Y) := by
    have hold := hp.headed
    rw [hrow] at hold
    refine hold.split (fun q hq => congrArg _ (hsame q hq)) ?_ ?_
    · refine (hp.keeps_head hr hrow).imp_right fun hbelow k ks hk => ?_
      have hseps : n.seps = k :: ks := by
        rw [Node.seps_eq_entries hshape, ← hk, keysAt, entriesAt, hn]
        rfl
      obtain ⟨ks', hks'⟩ := @insertIdx_head key k ks (hbelow k ks hk)
      rw [hleft, List.map_take, hkeys, tempKeys_eq hshape hsize hu127, hu, hseps, hks']
      exact ⟨_, rfl⟩
    · have hlt : 64 < (tempKeys n u key).length := hlen ▸ (by decide)
      have hsep : separator n u key = (tempKeys n u key)[64] := by
        rw [separator, List.getD_eq_getElem?_getD, List.getElem?_eq_getElem]
        rfl
      rw [hright, List.map_drop, hkeys, List.drop_eq_getElem_cons hlt, hsep]
      exact ⟨_, rfl⟩
  refine ⟨hheaded, ?_⟩
  have hperm : ((spots (X ++ Sum.inl p :: Sum.inr (separator n u key) :: Sum.inl N :: Y)).flatMap
      fun q => (E q).map Prod.fst).Perm ((es ++ [(key, row)]).map Prod.fst) := by
    have hall := hp.grown.entries
    rw [hrow, spots_append, spots_cons_inl, List.flatMap_append, List.flatMap_cons, entriesAt,
      hn] at hall
    rw [← List.map_flatMap, spots_append, spots_cons_inl, spots_cons_inr, spots_cons_inl,
      List.flatMap_append, List.flatMap_cons, List.flatMap_cons, hleft, hright,
      List.flatMap_congr fun x hx => hsame x (List.mem_append_left _ hx),
      List.flatMap_congr fun x hx => hsame x (List.mem_append_right _ hx),
      ← List.append_assoc (List.take _ _), List.take_append_drop]
    exact (perm_insert hu' (key, row) hall).map Prod.fst
  have hdistinct := (hperm.nodup_iff.mpr hnodup).sublist hheaded.fences_sublist
  obtain ⟨hsorted, hmem⟩ := fences_halves_leaf row N hshape hleaf hsize hs hu
  have horder := order_withRow hI hn hr hsorted hmem
  rw [hrow, expand_append, expand_cons_inl, withRow, Function.update_self, fences_append,
    fences_append, fences_append, fences_cons_inr, List.append_assoc (fences _),
    List.cons_append] at horder
  rw [fences_append, fences_cons_inl, fences_cons_inr, fences_cons_inl] at hdistinct
  refine (List.Pairwise.and (horder.sublist ?_) hdistinct).imp fun h => lt_of_le_of_ne h.1 h.2
  exact (fences_sublist_expand X).append ((((fences_sublist_expand Y).trans
    (List.sublist_append_right _ _)).cons_cons _).trans (List.sublist_append_right _ _))

/-- The key of a record that is not in the tree is none of those of a leaf. -/
lemma Parted.fresh {row : ℕ} (hp : Parted f h es) (hn : f.look p = some n)
    (hmem : p ∈ spots (layer (rowAt f.look) f.m.root h))
    (hnodup : ((es ++ [(key, row)]).map Prod.fst).Nodup) : (key :: n.seps).Nodup := by
  rw [List.map_append, List.nodup_append] at hnodup
  obtain ⟨hes, -, hkey⟩ := hnodup
  have hsub : n.entries.Sublist ((spots (layer (rowAt f.look) f.m.root h)).flatMap
      (entriesAt f.look)) := by
    obtain ⟨U, V, hspots⟩ := List.append_of_mem hmem
    rw [hspots, List.flatMap_append, List.flatMap_cons, entriesAt, hn]
    exact (List.sublist_append_left _ _).trans (List.sublist_append_right _ _)
  have hkeys := hp.grown.entries.map Prod.fst
  rw [Node.seps_eq_entries (hp.grown.indexed.sound p n hn).shape, List.nodup_cons]
  refine ⟨fun hk => ?_, (hkeys.nodup_iff.mpr hes).sublist (hsub.map Prod.fst)⟩
  exact hkey key (hkeys.subset ((hsub.map Prod.fst).subset hk)) key (List.mem_singleton_self _) rfl

/-- **A leaf with room** takes a new key. -/
theorem Parted.insert_room (row : ℕ) (hp : Parted f h es) (hn : f.look p = some n)
    (hleaf : n.isLeaf = true) (hr : Reaches (rowAt f.look) f.m.root key h p)
    (hroom : n.size < 127) :
    ∃ f', addEntryToNode f n key row = .ok f' ∧
      Parted (writeCm f' f.m) h (es ++ [(key, row)]) := by
  obtain ⟨f', n', hadd, hg', hlook, hentries, hlayer⟩ :=
    hp.grown.insert_room row hn hleaf hr hroom
  have hshape := (hp.grown.indexed.sound p n hn).shape
  have hE : entriesAt (writeCm f' f.m).look
      = Function.update (entriesAt f.look) p
          (n.entries.insertIdx (n.seps.countP (· ≤ key)) (key, row)) := by
    change entriesAt f'.look = _
    rw [hlook, entriesAt_update, hentries]
  refine ⟨f', hadd, hg', ?_, ?_⟩
  · obtain ⟨X, Y, hrow⟩ := exists_eq_append hr.mem
    obtain ⟨hpX, hpY⟩ := hp.grown.leaf_once hrow
    have hheaded := hp.headed
    change Headed _ (layer (rowAt f'.look) f.m.root h)
    rw [hlayer]
    rw [hrow] at hheaded ⊢
    refine hheaded.update (fun q hq => ?_)
      ((hp.keeps_head hr hrow).imp_right fun hbelow k ks hk => ?_)
    · have hqp : q ≠ p := by
        rintro rfl
        exact (List.mem_append.mp hq).elim hpX hpY
      rw [keysAt, hE, Function.update_of_ne hqp]
      rfl
    · obtain ⟨ks', hks'⟩ := @insertIdx_head key k ks (hbelow k ks hk)
      have hseps : n.seps = k :: ks := by
        rw [Node.seps_eq_entries hshape, ← hk, keysAt, entriesAt, hn]
        rfl
      rw [keysAt, hE, Function.update_self, List.map_insertIdx, ← Node.seps_eq_entries hshape,
        hseps, hks']
      exact ⟨ks', rfl⟩
  · refine hp.filled.imp_right fun hfull q hq => ?_
    change q ∈ spots (layer (rowAt f'.look) f.m.root h) at hq
    rw [hlayer] at hq
    have hlen := hfull q hq
    rw [hE, Function.update_apply]
    split_ifs with hqp
    · subst hqp
      rw [entriesAt, hn] at hlen
      exact hlen.trans (List.length_le_length_insertIdx)
    · exact hlen

/-- The tree after a full leaf is split, once its parents are settled. -/
lemma Parted.of_split (row : ℕ) (hp : Parted f h es) (hn : f.look p = some n)
    (hleaf : n.isLeaf = true) (hsize : n.size = 127)
    (hr : Reaches (rowAt f.look) f.m.root key h p) (hu : u = n.seps.countP (· ≤ key))
    (hnodup : ((es ++ [(key, row)]).map Prod.fst).Nodup)
    (hrow : layer (rowAt f.look) f.m.root h = X ++ Sum.inl p :: Y) {g f' : BptFile}
    {left right : Node} {N h' : ℕ} (hcut : Cut f.look g.look n left right p N)
    (hsame : SameLeaves g.look f'.look)
    (hleft : left.entries = (n.entries.insertIdx u (key, row)).take 64)
    (hright : right.entries = (n.entries.insertIdx u (key, row)).drop 64)
    (hg : GrownTo f' h' (es ++ [(key, row)]))
    (hlayer : layer (rowAt f'.look) f'.m.root h'
      = X ++ Sum.inl p :: Sum.inr (separator n u key) :: Sum.inl N :: Y) :
    Parted f' h' (es ++ [(key, row)]) := by
  have hshape := (hp.grown.indexed.sound p n hn).shape
  have hu' : u ≤ n.entries.length := by
    rw [hu, Node.seps_eq_entries hshape]
    exact List.countP_le_length.trans_eq (List.length_map _)
  have hlen : (n.entries.insertIdx u (key, row)).length = 128 := by
    have hseps := Node.length_seps hshape hsize.le
    rw [Node.seps_eq_entries hshape, List.length_map, hsize] at hseps
    rw [List.length_insertIdx_of_le_length hu', hseps]
  obtain ⟨hold, ⟨-, hep⟩, -, heN⟩ := hp.grown.at_leaves hrow hcut hleaf hsame
  refine ⟨hg, ?_, Or.inr fun q hq => ?_⟩
  · rw [hlayer]
    exact (hp.split row N hn hleaf hsize hr hu hnodup hrow (fun q hq => (hold q hq).2)
      (hep.trans hleft) (heN.trans hright)).1
  · rw [hlayer, spots_append, spots_cons_inl, spots_cons_inr, spots_cons_inl] at hq
    have hcases : q = p ∨ q = N ∨ q ∈ spots X ++ spots Y := by
      simp only [List.mem_append, List.mem_cons] at hq ⊢
      tauto
    rcases hcases with rfl | rfl | hq'
    · rw [hep, hleft, List.length_take, hlen]
      decide
    · rw [heN, hright, List.length_drop, hlen]
    · have hmem : q ∈ spots (layer (rowAt f.look) f.m.root h) := by
        rw [hrow, spots_append, spots_cons_inl]
        simp only [List.mem_append, List.mem_cons] at hq' ⊢
        tauto
      rw [(hold q hq').2]
      rcases hp.filled with h0 | hfull
      · -- a single leaf has none beside it
        subst h0
        obtain ⟨hX', hY'⟩ : X = [] ∧ Y = [] := by
          have hone : [Sum.inl f.m.root] = X ++ Sum.inl p :: Y := hrow
          cases X with
          | nil => exact ⟨rfl, ((List.cons.inj hone).2).symm⟩
          | cons x X => simp at hone
        rw [hX', hY'] at hq'
        cases hq'
      · exact hfull q hmem

/-- The separator of the leaf falls right behind it. -/
lemma Parted.parts (row : ℕ) (hp : Parted f h es) (hn : f.look p = some n)
    (hleaf : n.isLeaf = true) (hsize : n.size = 127)
    (hr : Reaches (rowAt f.look) f.m.root key h p) (hu : u = n.seps.countP (· ≤ key))
    (hnodup : ((es ++ [(key, row)]).map Prod.fst).Nodup) :
    Parts (rowAt f.look) f.m.root h p (separator n u key) := by
  intro X Y hrow
  obtain ⟨hpX, hpY⟩ := hp.grown.leaf_once hrow
  have hpN : f.nodes.length ≠ p := (lt_length_of_look hn).ne'
  refine (hp.split row f.nodes.length (E := Function.update (Function.update (entriesAt f.look) p
    ((n.entries.insertIdx u (key, row)).take 64)) f.nodes.length
    ((n.entries.insertIdx u (key, row)).drop 64)) hn hleaf hsize hr hu hnodup hrow (fun q hq => ?_)
    ?_ (Function.update_self _ _ _)).2
  · have hqp : q ≠ p := by
      rintro rfl
      exact (List.mem_append.mp hq).elim hpX hpY
    have hqN : q ≠ f.nodes.length := by
      rintro rfl
      refine hp.grown.indexed.fresh (look_length f) h le_rfl ?_
      rw [hrow, spots_append, spots_cons_inl]
      simp only [List.mem_append, List.mem_cons] at hq ⊢
      tauto
    rw [Function.update_of_ne hqN, Function.update_of_ne hqp]
  · rw [Function.update_of_ne hpN.symm, Function.update_self]

/-- **A full leaf** is split when the key is new and the marks above are safe. -/
theorem Parted.insert_full (row : ℕ) (hp : Parted f h es) (hn : f.look p = some n)
    (hleaf : n.isLeaf = true) (hr : Reaches (rowAt f.look) f.m.root key h p)
    (hsize : n.size = 127) (hnodup : ((es ++ [(key, row)]).map Prod.fst).Nodup)
    (hmarks : ∀ d < h, MarksAbove f (rowAt f.look) f.m.root d) {fuel : ℕ} (hfuel : h ≤ fuel) :
    ∃ f' h', insertNode (fuel + 1) f f.m n key row = .ok f' ∧
      Parted f' h' (es ++ [(key, row)]) ∧ splitsInPlace (fuel + 1) f n key = true := by
  have hI := hp.grown.indexed
  obtain rfl := (hI.sound p n hn).pos
  have hshape := (hI.sound _ n hn).shape
  obtain ⟨hs, -, -⟩ := keys_insert row hI hn hr
  obtain ⟨u, hu⟩ : ∃ u, u = n.seps.countP (· ≤ key) := ⟨_, rfl⟩
  have hu127 : u ≤ 127 := hu ▸ hsize ▸ List.countP_le_length.trans (List.length_take_le _ _)
  have hu' : u ≤ n.entries.length := by
    rw [hu, Node.seps_eq_entries hshape]
    exact List.countP_le_length.trans_eq (List.length_map _)
  have hover := hp.grown.overflowNode_eq key hn hr.mem
  have hH := halves u key row f.m.nextFree hshape
  obtain ⟨hleftE, hrightE⟩ := split_leaf key row f.m.nextFree hshape hleaf hsize hu127
  have hP := hp.grown.pending row f.m.nextFree hn hleaf hr hsize hs hu
  have hrow := Function.update_self n.pos ((leftHalf n u key row f.m.nextFree).row
    ++ Sum.inr (separator n u key) :: (rightHalf n u key row f.m.nextFree).row) (rowAt f.look)
  have hlayer := fun e (he : e ≤ h) => layer_withRow_le hI hr
    ((leftHalf n u key row f.m.nextFree).row
      ++ Sum.inr (separator n u key) :: (rightHalf n u key row f.m.nextFree).row) he
  have hheight := hp.grown.height
  have hjoin := (congrArg₂ (· ++ ·) hleftE hrightE).trans (List.take_append_drop _ _)
  have hparts := hp.parts row hn hleaf hsize hr hu hnodup
  cases h with
  | zero =>
      have hapart := separator_ne hshape hsize hu127
        (tempKeys_ascend hshape hsize hs hu (hp.fresh hn hr.mem hnodup))
      obtain ⟨g, f', hok, hsplit⟩ := hP.insert_root_apart fuel hsize hs hu hover hrow hapart
      have htop := (hP.indexed.parent_eq_zero (Nat.zero_le _) hP.mem hP.node).mpr rfl
      obtain ⟨X, Y, hX, hX'⟩ := hsplit.splits.at_depth
      rw [hsplit.layers 0 (Nat.zero_le _), hlayer 0 le_rfl] at hX
      have hroot : f'.m.root = f.m.nextFree + 1 := by rw [hsplit.header]
      have hindexed := hsplit.indexed
      rw [← hroot] at hX' hindexed
      refine ⟨f', 1, hok, hp.of_split row hn hleaf hsize hr hu hnodup hX hsplit.cut hsplit.same
        hleftE hrightE (hp.grown.of_split hX hsplit.cut hleaf hsplit.same hH.left_header.next
          hH.right_header.next hu' hjoin hindexed hX' ?_ ?_ ?_) hX',
        splitsInPlace_of_top fuel key (Or.inr htop)⟩
      · rw [hsplit.length]
        omega
      · rw [hsplit.length, hsplit.header, ← hp.grown.nextFree]
        rfl
      · rw [hsplit.header, hleaf]
        exact Nat.succ_ne_zero _
  | succ d =>
      obtain ⟨hroot, m, hm⟩ := hP.exists_parent
      have hplace : TakesBehind m n.pos (separator n u key) :=
        hP.takesBehind hm (fun X Y hXY => hparts X Y ((hlayer _ le_rfl).symm.trans hXY))
          fun e he x hx => by
            rw [hlayer e (by omega)] at hx
            exact hmarks d (Nat.lt_succ_self d) e he x hx
      obtain ⟨g, left, right, heq, hleft, hleftN, hright, hrightN, hlen, hbelow, hP', habove,
        hsplits⟩ := hP.insert_parent fuel hsize hs hu hover hrow hm hplace
      obtain ⟨X, Y, hX, hX'⟩ := hbelow.splits.at_depth
      rw [hlayer _ le_rfl] at hX
      obtain ⟨f', h', hok, hset, hup⟩ := insertNode_apart fuel hP' (Nat.lt_succ_self d)
        (Function.update_self _ _ _) (by
          have hascend := hparts X Y hX
          rw [hX']
          simpa using hascend)
        (fun e he x hx y hy => by
          rw [hbelow.splits.above he] at hx
          rw [habove e he x hx] at hy
          rw [hlayer e (by omega)] at hx
          exact hmarks d (Nat.lt_succ_self d) e he x hx y hy) (by omega)
      have hlayer' := hset.leaves.trans hX'
      refine ⟨f', h', heq.trans hok, hp.of_split row hn hleaf hsize hr hu hnodup hX hbelow.cut
        hset.same (hleft.trans hleftE) (hright.trans hrightE) (hp.grown.of_split hX hbelow.cut hleaf
          hset.same hleftN hrightN hu' ?_ hset.indexed hlayer' ?_ hset.nextFree ?_) hlayer',
        (splitsInPlace_full fuel hsize hroot hm).mpr ?_⟩
      · rw [hleft, hright]
        exact hjoin
      · have := hset.height
        omega
      · rw [hset.size, hleaf]
        exact Nat.succ_ne_zero _
      · rw [← hu]
        exact ⟨hplace, (hsplits fuel).symm.trans hup⟩

end Leaf

/-! ### One insert -/

/-- No interior node with `126` keys has, in the word behind its pointers, a first byte that is
not zero. -/
def clearMarks (f : BptFile) : Bool :=
  f.nodes.all fun n => n.isLeaf || n.size != 126 || n.pointers.getD 127 0 % 256 == 0

section Insert

variable {f : BptFile} {h : ℕ} {key : ℤ} {es : List (ℤ × ℕ)}

lemma marksAbove_of_clear (hI : Indexed f.look (rowAt f.look) f.m.root h)
    (hclear : clearMarks f = true) : ∀ d < h, MarksAbove f (rowAt f.look) f.m.root d := by
  intro d hd e he x hx m hm hsize
  obtain ⟨m', hm', hinner⟩ := hI.inner e (by omega) x hx
  cases hm.symm.trans hm'
  have hword := List.all_eq_true.mp hclear m (List.mem_of_getElem? hm)
  simpa [hinner, hsize] using hword

/-- Half full leaves share out at least `64` entries each. -/
lemma length_flatMap_ge {E : ℕ → List (ℤ × ℕ)} {ps : List ℕ} {k : ℕ}
    (hE : ∀ p ∈ ps, k ≤ (E p).length) : k * ps.length ≤ (ps.flatMap E).length := by
  induction ps with
  | nil => exact Nat.zero_le _
  | cons p ps ih =>
      obtain ⟨hp, hps⟩ := List.forall_mem_cons.mp hE
      have := ih hps
      rw [List.flatMap_cons, List.length_append, List.length_cons, Nat.mul_succ]
      omega

/-- With fewer than `127` times `64` entries no interior node has `126` keys. -/
lemma Parted.marksAbove_of_short (hp : Parted f h es) (hshort : es.length < 8128) :
    ∀ d < h, MarksAbove f (rowAt f.look) f.m.root d := by
  intro d hd e he x hx m hm hsize
  exfalso
  have hI := hp.grown.indexed
  have hkids : ∀ d' < h, ∀ q ∈ spots (layer (rowAt f.look) f.m.root d'), ∃ n, f.look q = some n ∧
      (spots (rowAt f.look q)).length = n.size + 1 := by
    intro d' hd' q hq
    obtain ⟨n, hn, hinner⟩ := hI.inner d' hd' q hq
    refine ⟨n, hn, ?_⟩
    rw [rowAt_of_some hn, Node.spots_row_of_inner (hI.sound q n hn).shape hinner, Node.children,
      List.length_take, (hI.sound q n hn).shape.pointers]
    have := (hI.sound q n hn).size
    omega
  obtain ⟨m', hm', hchildren⟩ := hkids e (by omega) x hx
  cases hm.symm.trans hm'
  obtain ⟨X, Y, hrow⟩ := exists_eq_append hx
  have hwide : 127 ≤ (spots (layer (rowAt f.look) f.m.root (e + 1))).length := by
    rw [layer, hrow, expand_append, expand_cons_inl, spots_append, spots_append,
      List.length_append, List.length_append, hchildren, hsize]
    omega
  have hleaves : (spots (layer (rowAt f.look) f.m.root (e + 1))).length ≤
      (spots (layer (rowAt f.look) f.m.root h)).length := by
    refine length_spots_layer (by omega) fun d' hd' q hq hnil => ?_
    obtain ⟨n, -, hlen⟩ := hkids d' hd' q hq
    rw [hnil] at hlen
    cases hlen
  obtain hzero | hfull := hp.filled
  · omega
  · have hentries := length_flatMap_ge hfull
    rw [hp.grown.entries.length_eq] at hentries
    omega

/-- **One insert of a new key** succeeds with its splits in place and keeps the invariant. -/
theorem Parted.insert (row : ℕ) (hp : Parted f h es)
    (hnodup : ((es ++ [(key, row)]).map Prod.fst).Nodup)
    (hmarks : ∀ d < h, MarksAbove f (rowAt f.look) f.m.root d) :
    ∃ f' h', bptInsertRecord f key row = .ok f' ∧ Parted f' h' (es ++ [(key, row)]) ∧
      stepInPlace f key = true := by
  obtain ⟨root, leaf, p, hroot, hfind, hn, hleaf, hr⟩ := hp.grown.exists_leaf key
  rw [bptInsertRecord, if_neg hp.grown.size, hroot, Outcome.ok_bind, hfind, Outcome.ok_bind,
    stepInPlace, hroot, Outcome.ok_bind, hfind]
  rcases Nat.lt_or_ge leaf.size 127 with hroom | hfull
  · obtain ⟨f', hadd, hp'⟩ := hp.insert_room row hn hleaf hr hroom
    exact ⟨_, h, by rw [insertNode_room hroom, hadd, Outcome.ok_bind], hp',
      splitsInPlace_of_top _ key (Or.inl hroom)⟩
  · exact hp.insert_full row hn hleaf hr
      (le_antisymm (hp.grown.indexed.sound p leaf hn).size hfull) hnodup hmarks hp.grown.height.le

/-- The first insert makes a tree of one leaf, without fences. -/
lemma parted_first (key : ℤ) (row : ℕ) :
    ∃ f, bptInsertRecord .makeNew key row = .ok f ∧ Parted f 0 [(key, row)] := by
  obtain ⟨f, hok, hg⟩ := grownTo_first key row
  exact ⟨f, hok, hg, trivial, Or.inl rfl⟩

end Insert

/-! ### Runs of inserts -/

/-- Before every insert of the run that succeeds, the marks are clear. -/
def clearRun : BptFile → List (ℤ × ℕ) → Bool
  | _, [] => true
  | f, (key, row) :: records =>
      clearMarks f &&
        match bptInsertRecord f key row with
        | .ok f' => clearRun f' records
        | .error _ => true

/-- **A run of inserts of new keys** succeeds with its splits in place and keeps the invariant. -/
theorem Parted.run (records : List (ℤ × ℕ)) : ∀ {f : BptFile} {h : ℕ} {es : List (ℤ × ℕ)},
    Parted f h es → ((es ++ records).map Prod.fst).Nodup →
    (clearRun f records = true ∨ (es ++ records).length ≤ 8128) →
    ∃ f' h', bptInsertRecords f records = .ok f' ∧ Parted f' h' (es ++ records) ∧
      insertsInPlace f records = true := by
  induction records with
  | nil =>
      intro f h es hp _ _
      exact ⟨f, h, rfl, by rwa [List.append_nil], rfl⟩
  | cons r records ih =>
      intro f h es hp hnodup hclear
      obtain ⟨key, row⟩ := r
      rw [List.append_cons] at hnodup hclear ⊢
      have hone : ((es ++ [(key, row)]).map Prod.fst).Nodup :=
        hnodup.sublist ((List.sublist_append_left _ _).map _)
      have hmarks : ∀ d < h, MarksAbove f (rowAt f.look) f.m.root d := by
        rcases hclear with hclear | hshort
        · rw [clearRun, Bool.and_eq_true] at hclear
          exact marksAbove_of_clear hp.grown.indexed hclear.1
        · refine hp.marksAbove_of_short ?_
          simp only [List.length_append, List.length_singleton] at hshort
          omega
      obtain ⟨f', h', hok, hp', hstep⟩ := hp.insert row hone hmarks
      have hrest : clearRun f' records = true ∨
          ((es ++ [(key, row)]) ++ records).length ≤ 8128 := by
        refine hclear.imp_left fun hclear => ?_
        rw [clearRun, hok, Bool.and_eq_true] at hclear
        exact hclear.2
      obtain ⟨g, h'', hok', hp'', hplace⟩ := ih hp' hnodup hrest
      refine ⟨g, h'', ?_, hp'', ?_⟩
      · rw [bptInsertRecords, List.foldlM_cons, hok, Outcome.ok_bind]
        exact hok'
      · rw [insertsInPlace, hok, Bool.and_eq_true]
        exact ⟨hstep, hplace⟩

/-- **Inserting distinct keys into a fresh B+ tree** ends with a tree over all of them, with every
split in place. -/
theorem bptInsertRecords_distinct {records : List (ℤ × ℕ)} (hne : records ≠ [])
    (hnodup : (records.map Prod.fst).Nodup)
    (hclear : clearRun .makeNew records = true ∨ records.length ≤ 8128) :
    ∃ f h, bptInsertRecords .makeNew records = .ok f ∧ Parted f h records ∧
      insertsInPlace .makeNew records = true := by
  cases records with
  | nil => exact absurd rfl hne
  | cons r records =>
      obtain ⟨key, row⟩ := r
      obtain ⟨f, hok, hp⟩ := parted_first key row
      obtain ⟨f', h', hok', hp', hplace⟩ := hp.run records hnodup (hclear.imp_left fun hclear => by
        rw [clearRun, hok, Bool.and_eq_true] at hclear
        exact hclear.2)
      refine ⟨f', h', ?_, hp', ?_⟩
      · rw [bptInsertRecords, List.foldlM_cons, hok, Outcome.ok_bind]
        exact hok'
      · rw [insertsInPlace, hok, Bool.and_eq_true]
        exact ⟨rfl, hplace⟩

end ColumnDb
