import ColumnDb.Bptree.Grown
import ColumnDb.Bptree.Split

/-!
Runs of inserts into a B+ tree.

* `stepInPlace`: the condition on an insert, read off the file before it. No node that it
  splits has, behind it in its parent, a key equal to the separator, and no interior node with
  `126` keys takes a child before its last one while the word behind its pointers is not zero
  in its first byte.
* `GrownTo.insert`: such an insert keeps the invariant, or fails the assertion on the root.
* `bptInsertRecords_search`: after a run of such inserts a search returns exactly the inserted
  rows in the range.
-/

namespace ColumnDb

/-! ### The leaf that takes the record -/

section Leaf

variable {f : BptFile} {h p u : ℕ} {key : ℤ} {row : ℕ} {es : List (ℤ × ℕ)} {n : Node}

/-- The rows of the tree with the row of the leaf at `p` replaced. -/
def withRow (f : BptFile) (p : ℕ) (R : List (ℕ ⊕ ℤ)) : ℕ → List (ℕ ⊕ ℤ) :=
  Function.update (rowAt f.look) p R

/-- The keys stay in order when the leaf that the descent reaches takes the key. -/
lemma order_withRow (hI : Indexed f.look (rowAt f.look) f.m.root h) (hn : f.look p = some n)
    (hr : Reaches (rowAt f.look) f.m.root key h p) {R : List (ℕ ⊕ ℤ)}
    (hR : (fences R).Pairwise (· ≤ ·)) (hmem : ∀ k ∈ fences R, k = key ∨ k ∈ n.seps) :
    (fences (expand (withRow f p R) (layer (rowAt f.look) f.m.root h))).Pairwise (· ≤ ·) := by
  obtain ⟨X, Y, hrow, hX, hY⟩ := hr
  have hnodup := hI.layered.nodup h le_rfl
  have horder := hI.order
  rw [hrow, spots_append, spots_cons_inl, List.nodup_append] at hnodup
  obtain ⟨-, hpY, hXp⟩ := hnodup
  have hsame : ∀ row : List (ℕ ⊕ ℤ), p ∉ spots row →
      expand (withRow f p R) row = expand (rowAt f.look) row := fun row hp =>
    expand_congr fun x hx => Function.update_of_ne (by rintro rfl; exact hp hx) _ _
  have hself : withRow f p R p = R := Function.update_self _ _ _
  rw [hrow, expand_append, expand_cons_inl, hself,
    hsame X fun hp => hXp p hp p List.mem_cons_self rfl, hsame Y (List.nodup_cons.mp hpY).1]
  rw [layer, hrow, expand_append, expand_cons_inl, rowAt_of_some hn] at horder
  simp only [fences_append, List.pairwise_append, List.mem_append] at horder ⊢
  rw [Node.fences_row (hI.sound p n hn).shape] at horder
  obtain ⟨hsX, ⟨-, hsY, hnY⟩, hXall⟩ := horder
  have hbelow : ∀ a ∈ fences (expand (rowAt f.look) X), a ≤ key := by
    obtain rfl | ⟨X₀, k, rfl, hk⟩ := hX
    · simp
    · intro a ha
      rw [expand_append, fences_append, List.pairwise_append] at hsX
      rw [expand_append, fences_append, List.mem_append] at ha
      rcases ha with ha | ha
      · exact (hsX.2.2 a ha k (by simp)).trans hk.le
      · rw [expand_cons_inr, fences_cons_inr, expand_nil, fences_nil, List.mem_singleton] at ha
        exact ha ▸ hk.le
  have habove : ∀ b ∈ fences (expand (rowAt f.look) Y), key ≤ b := by
    obtain rfl | ⟨Y₀, k, rfl, hk⟩ := hY
    · simp
    · intro b hb
      rw [expand_cons_inr, fences_cons_inr] at hb hsY
      rcases List.mem_cons.mp hb with rfl | hb
      · exact hk
      · exact hk.trans ((List.pairwise_cons.mp hsY).1 b hb)
  refine ⟨hsX, ⟨hR, hsY, fun a ha b hb => ?_⟩, fun a ha b hb => ?_⟩
  · rcases hmem a ha with rfl | ha
    · exact habove b hb
    · exact hnY a ha b hb
  · rcases hb with hb | hb
    · rcases hmem b hb with rfl | hb
      · exact hbelow a ha
      · exact hXall a ha b (Or.inl hb)
    · exact hXall a ha b (Or.inr hb)

/-- So the file is a tree with that row for the leaf. -/
lemma indexed_withRow (hI : Indexed f.look (rowAt f.look) f.m.root h) (hn : f.look p = some n)
    (hr : Reaches (rowAt f.look) f.m.root key h p) {R : List (ℕ ⊕ ℤ)}
    (hR : (fences R).Pairwise (· ≤ ·)) (hmem : ∀ k ∈ fences R, k = key ∨ k ∈ n.seps) :
    Indexed f.look (withRow f p R) f.m.root h := by
  refine hI.relabel (fun e he x hx => Function.update_of_ne ?_ _ _)
    (order_withRow hI hn hr hR hmem)
  rintro rfl
  have := hI.layered.apart e he.le h le_rfl _ hx hr.mem
  omega

/-- The layers down to that of the leaf stay. -/
lemma layer_withRow_le (hI : Indexed f.look (rowAt f.look) f.m.root h)
    (hr : Reaches (rowAt f.look) f.m.root key h p) (R : List (ℕ ⊕ ℤ)) {e : ℕ} (he : e ≤ h) :
    layer (withRow f p R) f.m.root e = layer (rowAt f.look) f.m.root e :=
  layer_congr fun d hd x hx => by
    refine Function.update_of_ne ?_ _ _
    rintro rfl
    have := hI.layered.apart d (by omega) h le_rfl _ hx hr.mem
    omega

lemma layer_withRow (hI : Indexed f.look (rowAt f.look) f.m.root h)
    (hr : Reaches (rowAt f.look) f.m.root key h p) (R : List (ℕ ⊕ ℤ)) :
    layer (withRow f p R) f.m.root h = layer (rowAt f.look) f.m.root h :=
  layer_withRow_le hI hr R le_rfl

/-- The entries with the new one among them. -/
lemma perm_insert {A B entries : List (ℤ × ℕ)} (hu : u ≤ entries.length) (e : ℤ × ℕ)
    (hperm : (A ++ (entries ++ B)).Perm es) :
    (A ++ (entries.insertIdx u e ++ B)).Perm (es ++ [e]) := by
  calc List.Perm (A ++ (entries.insertIdx u e ++ B)) (A ++ (e :: entries ++ B)) :=
        ((List.perm_insertIdx e entries hu).append_right B).append_left A
    List.Perm _ (e :: (A ++ (entries ++ B))) := List.perm_middle
    List.Perm _ (e :: es) := hperm.cons e
    List.Perm _ (es ++ [e]) := (List.perm_append_singleton e es).symm

/-- A leaf stands in one place of the leaf layer. -/
lemma GrownTo.leaf_once (hg : GrownTo f h es) {X Y : List (ℕ ⊕ ℤ)}
    (hrow : layer (rowAt f.look) f.m.root h = X ++ Sum.inl p :: Y) :
    p ∉ spots X ∧ p ∉ spots Y := by
  have hnodup := hg.indexed.layered.nodup h le_rfl
  rw [hrow, spots_append, spots_cons_inl, List.nodup_append] at hnodup
  obtain ⟨-, hpY, hXp⟩ := hnodup
  exact ⟨fun hp => hXp p hp p List.mem_cons_self rfl, (List.nodup_cons.mp hpY).1⟩

/-- The keys of a leaf with the new entry. -/
lemma keys_insert (row : ℕ) (hI : Indexed f.look (rowAt f.look) f.m.root h) (hn : f.look p = some n)
    (hr : Reaches (rowAt f.look) f.m.root key h p) :
    n.seps.Pairwise (· ≤ ·) ∧
    (n.entries.insertIdx (n.seps.countP (· ≤ key)) (key, row)).map Prod.fst
      = n.seps.insertIdx (n.seps.countP (· ≤ key)) key ∧
    (n.seps.insertIdx (n.seps.countP (· ≤ key)) key).Pairwise (· ≤ ·) := by
  have hshape := (hI.sound p n hn).shape
  have hs : n.seps.Pairwise (· ≤ ·) := by
    have hsorted := hI.kids_sorted le_rfl hr.mem
    rwa [rowAt_of_some hn, Node.fences_row hshape] at hsorted
  exact ⟨hs, by rw [List.map_insertIdx, ← Node.seps_eq_entries hshape],
    insertIdx_countP_le_sorted hs key⟩

/-- The file with the leaf at `p` replaced by one with the record in it. -/
lemma GrownTo.replace_leaf (hg : GrownTo f h es) (hn : f.look p = some n)
    (hr : Reaches (rowAt f.look) f.m.root key h p) {n' : Node} {g : BptFile}
    (hheader : SameHeader n n') (hsize : n'.size ≤ 127) (hm : g.m = f.m)
    (hlen : g.nodes.length = f.nodes.length) (hlook : g.look = Function.update f.look p (some n'))
    (hsorted : (fences n'.row).Pairwise (· ≤ ·)) (hmem : ∀ k ∈ fences n'.row, k = key ∨ k ∈ n.seps)
    (hu : u ≤ n.entries.length) (hentries : n'.entries = n.entries.insertIdx u (key, row)) :
    GrownTo g h (es ++ [(key, row)]) := by
  have hkids : rowAt g.look = withRow f p n'.row := by rw [hlook, rowAt_update, withRow]
  have hlayer : layer (rowAt g.look) g.m.root h = layer (rowAt f.look) f.m.root h := by
    rw [hkids, hm, layer_withRow hg.indexed hr]
  have hnext : nextAt g.look = nextAt f.look := by
    rw [hlook, nextAt_update, Function.update_eq_self_iff, hheader.next, nextAt, hn]
    rfl
  refine ⟨?_, by rw [hlen]; exact hg.height, by rw [hm, hlen]; exact hg.nextFree,
    by rw [hm]; exact hg.size, by rw [hlayer]; exact hg.head, ?_, ?_⟩
  · rw [hkids, hlook, hm]
    exact (indexed_withRow hg.indexed hn hr hsorted hmem).replace hn hheader hsize
  · rw [hlayer, Linked, hnext]
    exact hg.linked
  · obtain ⟨X, Y, hrow, -⟩ := hr
    obtain ⟨hU, hV⟩ := hg.leaf_once hrow
    have hsame : ∀ U : List ℕ, p ∉ U →
        U.flatMap (entriesAt g.look) = U.flatMap (entriesAt f.look) := fun U hp =>
      List.flatMap_congr fun x hx => by
        rw [hlook, entriesAt_update, Function.update_of_ne (by rintro rfl; exact hp hx)]
    have hself : entriesAt g.look p = n.entries.insertIdx u (key, row) := by
      rw [hlook, entriesAt_update, Function.update_self, hentries]
    have hperm := hg.entries
    rw [hrow, spots_append, spots_cons_inl, List.flatMap_append, List.flatMap_cons, entriesAt,
      hn] at hperm
    rw [hlayer, hrow, spots_append, spots_cons_inl, List.flatMap_append, List.flatMap_cons, hself,
      hsame _ hU, hsame _ hV]
    exact perm_insert hu (key, row) hperm

/-- **A leaf with room** takes the record. -/
theorem GrownTo.insert_room (row : ℕ) (hg : GrownTo f h es) (hn : f.look p = some n)
    (hleaf : n.isLeaf = true) (hr : Reaches (rowAt f.look) f.m.root key h p)
    (hroom : n.size < 127) :
    ∃ f' n', addEntryToNode f n key row = .ok f' ∧
      GrownTo (writeCm f' f.m) h (es ++ [(key, row)]) ∧
      f'.look = Function.update f.look p (some n') ∧
      n'.entries = n.entries.insertIdx (n.seps.countP (· ≤ key)) (key, row) ∧
      layer (rowAt f'.look) f.m.root h = layer (rowAt f.look) f.m.root h := by
  have hsound := hg.indexed.sound p n hn
  obtain rfl := hsound.pos
  obtain ⟨hs, hkeys, hsorted⟩ := keys_insert row hg.indexed hn hr
  obtain ⟨n', hadd, hheader, hsize, hentries⟩ :=
    addEntryToNode_leaf f key row hsound.shape hleaf hroom hs
  have hfences : fences n'.row = n.seps.insertIdx (n.seps.countP (· ≤ key)) key := by
    rw [Node.row_of_leaf (hheader.isLeaf.trans hleaf), fences_keyRow, hentries, hkeys]
  have hlook : (writeNode f n').look = Function.update f.look n.pos (some n') := by
    rw [look_writeNode_over (m := n) (by rw [hheader.pos]; exact hn), hheader.pos]
  have hlen : (writeNode f n').nodes.length = f.nodes.length :=
    length_writeNode (by rw [hheader.pos]; exact lt_length_of_look hn)
  refine ⟨writeNode f n', n', hadd, hg.replace_leaf hn hr hheader (by omega) rfl hlen hlook
    (by rwa [hfences]) (fun k hk => ?_) ?_ hentries, hlook, hentries, ?_⟩
  · rw [hfences] at hk
    exact List.eq_or_mem_of_mem_insertIdx hk
  · rw [Node.seps_eq_entries hsound.shape]
    exact List.countP_le_length.trans_eq (List.length_map _)
  · rw [hlook, rowAt_update]
    exact layer_withRow hg.indexed hr n'.row

/-- A full leaf never hands its entry on: the leaf after it, when there is one, has a
parent. -/
lemma GrownTo.overflowNode_eq (key : ℤ) (hg : GrownTo f h es) (hn : f.look p = some n)
    (hp : p ∈ spots (layer (rowAt f.look) f.m.root h)) : overflowNode f n key = .ok none := by
  rw [overflowNode]
  split_ifs with hnext
  · have hmem : n.next ∈ spots (layer (rowAt f.look) f.m.root h) := by
      have hmap : nextAt f.look p ∈ (spots (layer (rowAt f.look) f.m.root h)).map (nextAt f.look) :=
        List.mem_map_of_mem hp
      rw [hg.linked, nextAt, hn] at hmap
      rcases List.mem_append.mp hmap with hmem | hmem
      · exact List.mem_of_mem_tail hmem
      · exact absurd (List.mem_singleton.mp hmem) hnext.2
    obtain ⟨m, hm, -⟩ := hg.indexed.leaf _ hmem
    have hload : loadNode f n.next = .ok m := fetch_eq_ok.mpr hm
    rw [hload, Outcome.ok_bind, if_neg]
    rintro ⟨hparent, -⟩
    have h0 := (hg.indexed.parent_eq_zero le_rfl hmem hm).mp hparent
    subst h0
    -- a single leaf has none after it
    have hroot := List.mem_singleton.mp hmem
    have hzero := hg.head
    have hhead : f.m.root = 0 := Option.some_inj.mp hzero
    exact hnext.2 (hroot.trans hhead)
  · rfl

lemma SameLeaves.at_leaf {t t' : ℕ → Option Node} (hs : SameLeaves t t') {x : ℕ} {m : Node}
    (hm : t x = some m) (hleaf : m.isLeaf = true) :
    nextAt t' x = m.next ∧ entriesAt t' x = m.entries := by
  obtain ⟨q, hq⟩ := hs x m hm hleaf
  rw [nextAt, entriesAt, hq]
  exact ⟨rfl, rfl⟩

/-- The leaves after one of them is split. -/
lemma GrownTo.at_leaves (hg : GrownTo f h es) {X Y : List (ℕ ⊕ ℤ)}
    (hrow : layer (rowAt f.look) f.m.root h = X ++ Sum.inl p :: Y) {g : BptFile}
    {t : ℕ → Option Node} {left right : Node} {N : ℕ}
    (hcut : Cut f.look g.look n left right p N) (hleaf : n.isLeaf = true)
    (hsame : SameLeaves g.look t) :
    (∀ x ∈ spots X ++ spots Y,
      nextAt t x = nextAt f.look x ∧ entriesAt t x = entriesAt f.look x) ∧
    (nextAt t p = left.next ∧ entriesAt t p = left.entries) ∧
    nextAt t N = right.next ∧ entriesAt t N = right.entries := by
  obtain ⟨hpX, hpY⟩ := hg.leaf_once hrow
  refine ⟨fun x hx => ?_, hsame.at_leaf hcut.left_at (hcut.left_isLeaf.trans hleaf),
    hsame.at_leaf hcut.right_at (hcut.right_isLeaf.trans hleaf)⟩
  have hmem : x ∈ spots (layer (rowAt f.look) f.m.root h) := by
    rw [hrow, spots_append, spots_cons_inl]
    rw [List.mem_append] at hx ⊢
    exact hx.imp_right (List.mem_cons_of_mem _)
  have hxp : x ≠ p := by
    rintro rfl
    exact (List.mem_append.mp hx).elim hpX hpY
  obtain ⟨m, hm, hml⟩ := hg.indexed.leaf x hmem
  have hxN : x ≠ N := by
    rintro rfl
    cases hcut.fresh.symm.trans hm
  have hg' : g.look x = some m := by
    rw [hcut.others_some hxp hxN hm, Node.row_of_leaf (hcut.right_isLeaf.trans hleaf),
      spots_keyRow, if_neg List.not_mem_nil]
  obtain ⟨hnext, hent⟩ := hsame.at_leaf hg' hml
  rw [hnext, hent, nextAt, entriesAt, hm]
  exact ⟨rfl, rfl⟩

/-- The chain of the leaves and their entries after one of them is split. -/
lemma GrownTo.leaves_split (hg : GrownTo f h es) {X Y : List (ℕ ⊕ ℤ)}
    (hrow : layer (rowAt f.look) f.m.root h = X ++ Sum.inl p :: Y) {g : BptFile}
    {t : ℕ → Option Node} {left right : Node} {N : ℕ}
    (hcut : Cut f.look g.look n left right p N) (hleaf : n.isLeaf = true)
    (hsame : SameLeaves g.look t) (hleft : left.next = N) (hright : right.next = n.next)
    (hu : u ≤ n.entries.length)
    (hentries : left.entries ++ right.entries = n.entries.insertIdx u (key, row)) :
    Linked t (spots X ++ p :: N :: spots Y) ∧
      ((spots X ++ p :: N :: spots Y).flatMap (entriesAt t)).Perm (es ++ [(key, row)]) := by
  have hspots : spots (layer (rowAt f.look) f.m.root h) = spots X ++ p :: spots Y := by
    simp [hrow]
  have hlinked := hg.linked
  have hperm := hg.entries
  rw [hspots] at hlinked hperm
  obtain ⟨hold, ⟨hnp, hep⟩, hnN, heN⟩ := hg.at_leaves hrow hcut hleaf hsame
  have hX := fun x (hx : x ∈ spots X) => hold x (List.mem_append_left _ hx)
  have hY := fun x (hx : x ∈ spots Y) => hold x (List.mem_append_right _ hx)
  constructor
  · refine hlinked.insert (fun x hx => (hX x hx).1) (fun x hx => (hY x hx).1) (hnp.trans hleft) ?_
    rw [hnN, hright, nextAt, hcut.node]
    rfl
  · rw [List.flatMap_append, List.flatMap_cons, entriesAt, hcut.node] at hperm
    rw [List.flatMap_append, List.flatMap_cons, List.flatMap_cons, hep, heN,
      List.flatMap_congr fun x hx => (hX x hx).2, List.flatMap_congr fun x hx => (hY x hx).2,
      ← List.append_assoc left.entries, hentries]
    exact perm_insert hu (key, row) hperm

/-- The tree after a leaf is split, once its parents are settled. -/
lemma GrownTo.of_split (hg : GrownTo f h es) {X Y : List (ℕ ⊕ ℤ)}
    (hrow : layer (rowAt f.look) f.m.root h = X ++ Sum.inl p :: Y) {g f' : BptFile}
    {left right : Node} {N h' : ℕ} {sep : ℤ} (hcut : Cut f.look g.look n left right p N)
    (hleaf : n.isLeaf = true) (hsame : SameLeaves g.look f'.look) (hleft : left.next = N)
    (hright : right.next = n.next) (hu : u ≤ n.entries.length)
    (hentries : left.entries ++ right.entries = n.entries.insertIdx u (key, row))
    (hI : Indexed f'.look (rowAt f'.look) f'.m.root h')
    (hlayer : layer (rowAt f'.look) f'.m.root h'
      = X ++ Sum.inl p :: Sum.inr sep :: Sum.inl N :: Y)
    (hheight : h' < f'.nodes.length) (hfree : f'.m.nextFree = f'.nodes.length)
    (hsize : f'.m.size ≠ 0) : GrownTo f' h' (es ++ [(key, row)]) := by
  obtain ⟨hlinked, hperm⟩ :=
    hg.leaves_split hrow hcut hleaf hsame hleft hright hu hentries
  have hspots : spots (layer (rowAt f'.look) f'.m.root h') = spots X ++ p :: N :: spots Y := by
    simp [hlayer]
  refine ⟨hI, hheight, hfree, hsize, ?_, by rwa [hspots], by rwa [hspots]⟩
  have hhead := hg.head
  rw [hrow, spots_append, spots_cons_inl] at hhead
  rw [hspots]
  cases hX : spots X with
  | nil =>
      rw [hX] at hhead
      exact hhead
  | cons x U =>
      rw [hX] at hhead
      exact hhead

/-- A full leaf that the descent has reached is the node at hand: the file is a tree once it has
taken the record. -/
lemma GrownTo.pending (row N : ℕ) (hg : GrownTo f h es) (hn : f.look n.pos = some n)
    (hleaf : n.isLeaf = true) (hr : Reaches (rowAt f.look) f.m.root key h n.pos)
    (hsize : n.size = 127) (hs : n.seps.Pairwise (· ≤ ·)) (hu : u = n.seps.countP (· ≤ key)) :
    Pending f f.m n (withRow f n.pos ((leftHalf n u key row N).row
      ++ Sum.inr (separator n u key) :: (rightHalf n u key row N).row)) f.m.root h h := by
  have hI := hg.indexed
  obtain ⟨hsorted, hmem⟩ :=
    fences_halves_leaf row N (hI.sound _ n hn).shape hleaf hsize hs hu
  exact
    { indexed := indexed_withRow hI hn hr hsorted hmem
      node := hn
      depth := le_rfl
      mem := by
        rw [layer_withRow hI hr]
        exact hr.mem
      others := fun x hx => Function.update_of_ne hx _ _
      nextFree := hg.nextFree
      root := rfl }

/-- **A full leaf** is split, and the splits above it follow. -/
theorem GrownTo.insert_full (row : ℕ) (hg : GrownTo f h es) (hn : f.look p = some n)
    (hleaf : n.isLeaf = true) (hr : Reaches (rowAt f.look) f.m.root key h p)
    (hsize : n.size = 127) {fuel : ℕ} (hplace : splitsInPlace (fuel + 1) f n key = true)
    (hfuel : h ≤ fuel) :
    insertNode (fuel + 1) f f.m n key row = .error .assertion ∨
    ∃ f' h', insertNode (fuel + 1) f f.m n key row = .ok f' ∧
      GrownTo f' h' (es ++ [(key, row)]) := by
  have hI := hg.indexed
  obtain rfl := (hI.sound p n hn).pos
  have hshape := (hI.sound _ n hn).shape
  obtain ⟨hs, -, -⟩ := keys_insert row hI hn hr
  obtain ⟨u, hu⟩ : ∃ u, u = n.seps.countP (· ≤ key) := ⟨_, rfl⟩
  have hu127 : u ≤ 127 := hu ▸ hsize ▸ List.countP_le_length.trans (List.length_take_le _ _)
  have hu' : u ≤ n.entries.length := by
    rw [hu, Node.seps_eq_entries hshape]
    exact List.countP_le_length.trans_eq (List.length_map _)
  have hover := hg.overflowNode_eq key hn hr.mem
  have hH := halves u key row f.m.nextFree hshape
  obtain ⟨hleftE, hrightE⟩ := split_leaf key row f.m.nextFree hshape hleaf hsize hu127
  have hP := hg.pending row f.m.nextFree hn hleaf hr hsize hs hu
  have hrow := Function.update_self n.pos ((leftHalf n u key row f.m.nextFree).row
    ++ Sum.inr (separator n u key) :: (rightHalf n u key row f.m.nextFree).row) (rowAt f.look)
  have hlayer := layer_withRow hI hr ((leftHalf n u key row f.m.nextFree).row
    ++ Sum.inr (separator n u key) :: (rightHalf n u key row f.m.nextFree).row)
  have hheight := hg.height
  cases h with
  | zero =>
      obtain herr | ⟨g, f', hok, hsplit⟩ := hP.insert_root fuel hsize hs hu hover hrow
      · exact Or.inl herr
      · obtain ⟨X, Y, hX, hX'⟩ := hsplit.splits.at_depth
        rw [hsplit.layers 0 (Nat.zero_le _), hlayer] at hX
        have hroot : f'.m.root = f.m.nextFree + 1 := by rw [hsplit.header]
        have hindexed := hsplit.indexed
        rw [← hroot] at hX' hindexed
        refine Or.inr ⟨f', 1, hok, hg.of_split hX hsplit.cut hleaf hsplit.same hH.left_header.next
          hH.right_header.next hu' ?_ hindexed hX' ?_ ?_ ?_⟩
        · exact (congrArg₂ (· ++ ·) hleftE hrightE).trans (List.take_append_drop _ _)
        · rw [hsplit.length]
          omega
        · rw [hsplit.length, hsplit.header, ← hg.nextFree]
          rfl
        · rw [hsplit.header, hleaf]
          exact Nat.succ_ne_zero _
  | succ d =>
      obtain ⟨g, m, left, right, heq, hleft, hleftN, hright, hrightN, hlen, hbelow, hP', hmark,
        hplace'⟩ := hP.insert_below hsize hs hu hover hrow hplace
      rw [heq]
      obtain herr | ⟨f', h', hok, hset⟩ := insertNode_inner fuel hP' (by omega)
        (Function.update_self _ _ _) hmark hplace' (by omega)
      · exact Or.inl herr
      · obtain ⟨X, Y, hX, hX'⟩ := hbelow.splits.at_depth
        rw [hlayer] at hX
        refine Or.inr ⟨f', h', hok, hg.of_split hX hbelow.cut hleaf hset.same hleftN hrightN hu' ?_
          hset.indexed (hset.leaves.trans hX') ?_ hset.nextFree ?_⟩
        · rw [hleft, hright, hleftE, hrightE, List.take_append_drop]
        · have := hset.height
          omega
        · rw [hset.size, hleaf]
          exact Nat.succ_ne_zero _

end Leaf

/-! ### One insert -/

/-- The splits of an insert of `key` put every new node right behind the one that is split. -/
def stepInPlace (f : BptFile) (key : ℤ) : Bool :=
  match (do
    let root ← loadNode f f.m.root
    findLeaf (f.nodes.length + 1) f root key) with
  | .ok leaf => splitsInPlace (f.nodes.length + 1) f leaf key
  | .error _ => true

section Insert

variable {f : BptFile} {h : ℕ} {key : ℤ} {es : List (ℤ × ℕ)}

/-- **One insert** keeps the invariant, or fails the assertion on the root. -/
theorem GrownTo.insert (row : ℕ) (hg : GrownTo f h es) (hplace : stepInPlace f key = true) :
    bptInsertRecord f key row = .error .assertion ∨
    ∃ f' h', bptInsertRecord f key row = .ok f' ∧ GrownTo f' h' (es ++ [(key, row)]) := by
  obtain ⟨root, leaf, p, hroot, hfind, hp, hleaf, hr⟩ := hg.exists_leaf key
  rw [stepInPlace, hroot, Outcome.ok_bind, hfind] at hplace
  rw [bptInsertRecord, if_neg hg.size, hroot, Outcome.ok_bind, hfind, Outcome.ok_bind]
  rcases Nat.lt_or_ge leaf.size 127 with hroom | hfull
  · obtain ⟨f', -, hadd, hg', -⟩ := hg.insert_room row hp hleaf hr hroom
    exact Or.inr ⟨_, h, by rw [insertNode_room hroom, hadd, Outcome.ok_bind], hg'⟩
  · exact hg.insert_full row hp hleaf hr (le_antisymm (hg.indexed.sound p leaf hp).size hfull)
      hplace hg.height.le

/-- The leaf that the first insert makes. -/
def firstLeaf (key : ℤ) (row : ℕ) : Node :=
  { Node.zero with
    isLeaf := true
    keys := Node.zero.keys.set 0 key
    pointers := (Node.zero.pointers.set 0 row).set (bptSize - 1) 0
    size := 1 }

lemma sound_firstLeaf (key : ℤ) (row : ℕ) : Sound (firstLeaf key row) 0 := by
  refine ⟨⟨?_, ?_⟩, rfl, show 1 ≤ 127 by decide⟩
  · exact List.length_set.trans List.length_replicate
  · exact List.length_set.trans (List.length_set.trans List.length_replicate)

/-- A file with a single node has it at `0`. -/
lemma look_singleton {cm : ColumnMeta} {n m : Node} {p : ℕ}
    (h : BptFile.look ⟨cm, [n]⟩ p = some m) : p = 0 ∧ m = n := by
  obtain ⟨hp, hm⟩ := List.getElem?_eq_some_iff.mp h
  obtain rfl : p = 0 := Nat.lt_one_iff.mp hp
  exact ⟨rfl, hm.symm⟩

/-- **The first insert** makes a tree of one leaf. -/
theorem grownTo_first (key : ℤ) (row : ℕ) :
    ∃ f, bptInsertRecord .makeNew key row = .ok f ∧ GrownTo f 0 [(key, row)] := by
  set n := firstLeaf key row with hn
  refine ⟨⟨⟨.bptree, 1, 1, 0⟩, [n]⟩, rfl, ?_, Nat.zero_lt_one, rfl, Nat.one_ne_zero, rfl, rfl,
    List.Perm.refl _⟩
  refine ⟨⟨?_, ?_⟩, ?_, ?_, ?_, ?_, ?_, ?_, ?_⟩
  · intro d hd
    obtain rfl := Nat.le_zero.mp hd
    exact List.nodup_singleton _
  · intro d hd e he p _ _
    omega
  · intro p m hm
    obtain ⟨rfl, rfl⟩ := look_singleton hm
    exact sound_firstLeaf key row
  · intro d hd
    exact absurd hd (Nat.not_lt_zero d)
  · intro p hp
    obtain rfl := List.mem_singleton.mp hp
    exact ⟨n, rfl, rfl⟩
  · intro d hd
    exact absurd hd (Nat.not_lt_zero d)
  · intro m hm
    obtain ⟨-, rfl⟩ := look_singleton hm
    rfl
  · exact List.mem_singleton.mpr rfl
  · exact List.pairwise_singleton _ key

end Insert

/-! ### Runs of inserts -/

/-- Every insert of the run that succeeds puts its new nodes right behind the ones that are
split. -/
def insertsInPlace : BptFile → List (ℤ × ℕ) → Bool
  | _, [] => true
  | f, (key, row) :: records =>
      stepInPlace f key &&
        match bptInsertRecord f key row with
        | .ok f' => insertsInPlace f' records
        | .error _ => true

/-- A run from a tree ends with a tree over all the entries, or fails the assertion on the
root. -/
theorem GrownTo.run (records : List (ℤ × ℕ)) : ∀ {f : BptFile} {h : ℕ} {es : List (ℤ × ℕ)},
    GrownTo f h es → insertsInPlace f records = true →
    bptInsertRecords f records = .error .assertion ∨
    ∃ f' h', bptInsertRecords f records = .ok f' ∧ GrownTo f' h' (es ++ records) := by
  induction records with
  | nil =>
      intro f h es hg _
      exact Or.inr ⟨f, h, rfl, by rwa [List.append_nil]⟩
  | cons r records ih =>
      intro f h es hg hplace
      obtain ⟨key, row⟩ := r
      rw [insertsInPlace, Bool.and_eq_true] at hplace
      rw [bptInsertRecords, List.foldlM_cons]
      obtain herr | ⟨f', h', hok, hg'⟩ := hg.insert row hplace.1
      · exact Or.inl (by rw [herr]; rfl)
      · rw [hok] at hplace ⊢
        rw [Outcome.ok_bind]
        obtain herr | ⟨g, h'', hok', hg''⟩ := ih hg' hplace.2
        · exact Or.inl herr
        · refine Or.inr ⟨g, h'', hok', ?_⟩
          rwa [List.append_assoc] at hg''

/-- **Inserting into a fresh B+ tree.** When every split of the run puts the new node right
behind the one that is split, the run ends with the failed assertion on the root, or a search
returns exactly the inserted rows with keys in the range, each as often as it was inserted,
and their number, unless they are more than the `2 ^ 29` ids that a list holds. -/
theorem bptInsertRecords_search {records : List (ℤ × ℕ)} (hne : records ≠ [])
    (hplace : insertsInPlace .makeNew records = true) :
    bptInsertRecords .makeNew records = .error .assertion ∨
    ∃ f, bptInsertRecords .makeNew records = .ok f ∧
      ∀ low high, (hits low high records).length ≤ 2 ^ 29 →
        ∃ ids, findRecordInRangeId f low high = .ok (ids, ids.length) ∧
          ids.Perm (hits low high records) := by
  cases records with
  | nil => exact absurd rfl hne
  | cons r records =>
      obtain ⟨key, row⟩ := r
      obtain ⟨f, hok, hg⟩ := grownTo_first key row
      rw [insertsInPlace, hok, Bool.and_eq_true] at hplace
      rw [bptInsertRecords, List.foldlM_cons, hok, Outcome.ok_bind]
      obtain herr | ⟨f', h', hok', hg'⟩ := hg.run records hplace.2
      · exact Or.inl herr
      · refine Or.inr ⟨f', hok', fun low high hfew => ?_⟩
        obtain ⟨ids, hfind, hperm⟩ := hg'.search low high
        exact ⟨ids, findRecordInRangeId_iff.mpr ⟨hfind, hperm.length_eq.trans_le hfew⟩, hperm⟩

/-- `n` records with ascending keys. -/
def ascendingRecords (n : ℕ) : List (ℤ × ℕ) := (List.range n).map fun i : ℕ => (Int.ofNat i, i)

/-- `bptInsertRecords_search` at `130` of them: the run splits the first leaf under a new root, no
assertion fails, and every search is right. -/
theorem ascendingRecords_search :
    ∃ f, bptInsertRecords .makeNew (ascendingRecords 130) = .ok f ∧ f.nodes.length = 3 ∧
      ∀ low high, ∃ ids, findRecordInRangeId f low high = .ok (ids, ids.length) ∧
        ids.Perm (hits low high (ascendingRecords 130)) := by
  have hplace : insertsInPlace .makeNew (ascendingRecords 130) = true := by decide +kernel
  have hnodes : (bptInsertRecords .makeNew (ascendingRecords 130)).map
      (·.nodes.length) = .ok 3 := by
    decide +kernel
  obtain herr | ⟨f, hok, hsearch⟩ := bptInsertRecords_search (by decide) hplace
  · rw [herr] at hnodes
    cases hnodes
  · rw [hok] at hnodes
    refine ⟨f, hok, Except.ok.inj hnodes, fun low high => hsearch low high ?_⟩
    have hall : (hits low high (ascendingRecords 130)).length ≤ 130 := by
      rw [hits, List.length_map]
      exact (List.length_filter_le _ _).trans_eq (by simp [ascendingRecords])
    omega

/-- Zeros in two leaves: `65` of them, a greater key until the first leaf is split, and more
zeros until it is split again, with `0` between the halves as before. -/
def zerosInTwoLeaves : List (ℤ × ℕ) :=
  (List.replicate 65 (0 : ℤ) ++ List.replicate 63 2 ++ List.replicate 64 0 ++ [1]).zipIdx

/-- The half of the first leaf that the second split moves out is put behind the leaf with the
greater keys, and the search for `0` stops before it has found all of them. -/
theorem zerosInTwoLeaves_missed :
    (zerosInTwoLeaves.map Prod.snd).Nodup ∧
    ∃ f, bptInsertRecords .makeNew zerosInTwoLeaves = .ok f ∧
      ¬ ∃ ids, findRecordInRangeId f 0 0 = .ok (ids, ids.length) ∧
        ids.Perm (hits 0 0 zerosInTwoLeaves) := by
  have hcount : (bptInsertRecords .makeNew zerosInTwoLeaves >>= fun f =>
      (findRecordInRangeId f 0 0).map Prod.snd) = .ok 128 := by decide +kernel
  refine ⟨by rw [zerosInTwoLeaves, List.zipIdx_map_snd]; exact List.nodup_range', ?_⟩
  cases hf : bptInsertRecords .makeNew zerosInTwoLeaves with
  | error e =>
      rw [hf] at hcount
      cases hcount
  | ok f =>
      refine ⟨f, rfl, ?_⟩
      rintro ⟨ids, hids, hperm⟩
      rw [hf, Outcome.ok_bind, hids] at hcount
      have hlen : ids.length = 128 := Except.ok.inj hcount
      have hhits : (hits 0 0 zerosInTwoLeaves).length = 129 := by decide +kernel
      exact absurd (hlen.symm.trans (hperm.length_eq.trans hhits)) (by decide)

end ColumnDb
