import ColumnDb.Bptree.Front
import ColumnDb.Bptree.Relink

/-!
Runs of inserts and the shape of the tree they leave.

* `FormsTree f`: the stored nodes form one tree under the root of the header.
* `stepKeepsMark`: the condition on an insert, read off the file before it. The interior node
  that takes the last of the new nodes does not have `126` keys, or takes it as its last child,
  or has a zero in the first byte of the word behind its pointers.
* `Shaped.insert`: such an insert keeps the invariant, or fails the assertion on the root.
* `bptInsertRecords_formsTree`: after every part of a run of such inserts the stored nodes form one
  tree.
* `descendingRecords_break`: without the condition they do not.
-/

namespace ColumnDb

/-! ### The chain -/

/-- The positions of the leaves in the order of the chain. -/
structure Chained (t : ℕ → Option Node) (ps : List ℕ) : Prop where
  head : ps.head? = some 0
  nodup : ps.Nodup
  mem_iff : ∀ p, p ∈ ps ↔ ∃ n, t p = some n ∧ n.isLeaf = true
  linked : Linked t ps

section Chain

variable {t t' : ℕ → Option Node} {n left right : Node} {p q r : ℕ} {ps : List ℕ}

lemma leafNext_eq_some :
    leafNext t p = some q ↔ ∃ n, t p = some n ∧ n.isLeaf = true ∧ n.next = q := by
  constructor
  · intro h
    obtain ⟨n, hn, h⟩ := Option.bind_eq_some_iff.mp h
    split_ifs at h with hleaf
    exact ⟨n, hn, hleaf, Option.some_inj.mp h⟩
  · rintro ⟨n, hn, hleaf, rfl⟩
    exact leafNext_of_leaf hn hleaf

lemma nextAt_of_some (ht : t p = some n) : nextAt t p = n.next := by
  rw [nextAt, ht]
  rfl

/-- Tables with the same leaves have the same chain. -/
lemma Chained.congr (hc : Chained t ps) (hsame : leafNext t' = leafNext t) : Chained t' ps := by
  have hleaf : ∀ x, (∃ m, t' x = some m ∧ m.isLeaf = true) ↔
      ∃ m, t x = some m ∧ m.isLeaf = true := by
    intro x
    have hx := congrFun hsame x
    constructor
    · rintro ⟨m, hm, hl⟩
      obtain ⟨m', hm', hl', -⟩ := leafNext_eq_some.mp (hx.symm.trans (leafNext_of_leaf hm hl))
      exact ⟨m', hm', hl'⟩
    · rintro ⟨m, hm, hl⟩
      obtain ⟨m', hm', hl', -⟩ := leafNext_eq_some.mp (hx.trans (leafNext_of_leaf hm hl))
      exact ⟨m', hm', hl'⟩
  refine ⟨hc.head, hc.nodup, fun x => (hc.mem_iff x).trans (hleaf x).symm, ?_⟩
  rw [Linked, ← hc.linked]
  refine List.map_congr_left fun x hx => ?_
  obtain ⟨m, hm, hl⟩ := (hc.mem_iff x).mp hx
  obtain ⟨m', hm', -, hnext⟩ :=
    leafNext_eq_some.mp ((congrFun hsame x).trans (leafNext_of_leaf hm hl))
  rw [nextAt_of_some hm', nextAt_of_some hm, hnext]

/-- A leaf that is split: the new one stands right behind it. -/
lemma Chained.cut (hc : Chained t ps) (hcut : Cut t t' n left right p r) (hleaf : n.isLeaf = true)
    (hleft : left.next = r) (hright : right.next = n.next) : ∃ ps', Chained t' ps' := by
  obtain ⟨U, V, rfl⟩ := List.append_of_mem ((hc.mem_iff p).mpr ⟨n, hcut.node, hleaf⟩)
  have hfresh : r ∉ U ++ p :: V := fun hr => by
    obtain ⟨m, hm, -⟩ := (hc.mem_iff r).mp hr
    cases hcut.fresh.symm.trans hm
  have hperm : (U ++ p :: r :: V).Perm (r :: (U ++ p :: V)) :=
    (List.perm_append_comm_assoc U [p, r] V).trans
      (((List.Perm.swap r p (U ++ V))).trans ((List.perm_middle.symm).cons r))
  have hnodup := hc.nodup
  obtain ⟨-, hpV, hUp⟩ := List.nodup_append.mp hnodup
  have hother : ∀ x ∈ U ++ V, nextAt t' x = nextAt t x := by
    intro x hx
    have hxp : x ≠ p := by
      rintro rfl
      rcases List.mem_append.mp hx with hx | hx
      · exact hUp x hx x List.mem_cons_self rfl
      · exact (List.nodup_cons.mp hpV).1 hx
    have hmem : x ∈ U ++ p :: V := by
      rw [List.mem_append, List.mem_cons]
      exact (List.mem_append.mp hx).imp_right Or.inr
    obtain ⟨m, hm, -⟩ := (hc.mem_iff x).mp hmem
    have hxr : x ≠ r := by
      rintro rfl
      cases hcut.fresh.symm.trans hm
    rw [nextAt_of_some (hcut.others_some hxp hxr hm), nextAt_of_some hm]
    split_ifs <;> rfl
  refine ⟨U ++ p :: r :: V, ?_, hperm.nodup_iff.mpr (List.nodup_cons.mpr ⟨hfresh, hnodup⟩),
    fun x => ?_, ?_⟩
  · have hhead := hc.head
    cases U with
    | nil => exact hhead
    | cons u U => exact hhead
  · rw [hperm.mem_iff, List.mem_cons, hc.mem_iff]
    by_cases hxr : x = r
    · subst hxr
      exact ⟨fun _ => ⟨right, hcut.right_at, hcut.right_isLeaf.trans hleaf⟩, fun _ => Or.inl rfl⟩
    by_cases hxp : x = p
    · subst hxp
      exact ⟨fun _ => ⟨left, hcut.left_at, hcut.left_isLeaf.trans hleaf⟩,
        fun _ => Or.inr ⟨n, hcut.node, hleaf⟩⟩
    · have hx := hcut.leafNext_others hxp hxr
      constructor
      · rintro (rfl | ⟨m, hm, hl⟩)
        · exact absurd rfl hxr
        · exact ⟨_, hcut.others_some hxp hxr hm, by split_ifs <;> exact hl⟩
      · rintro ⟨m, hm, hl⟩
        obtain ⟨m', hm', hl', -⟩ := leafNext_eq_some.mp (hx.symm.trans (leafNext_of_leaf hm hl))
        exact Or.inr ⟨m', hm', hl'⟩
  · refine hc.linked.insert (fun x hx => hother x (List.mem_append_left _ hx))
      (fun x hx => hother x (List.mem_append_right _ hx)) ?_ ?_
    · rw [nextAt_of_some hcut.left_at, hleft]
    · rw [nextAt_of_some hcut.right_at, hright, nextAt_of_some hcut.node]

end Chain

/-! ### One tree -/

/-- **The stored nodes form one tree** under the root of the header. -/
structure FormsTree (f : BptFile) : Prop where
  length : f.nodes.length = f.m.nextFree
  pos : ∀ p n, f.look p = some n → n.pos = p
  rooted : ∀ p n, f.look p = some n → ∃! d, Descends (childrenAt f.look) f.m.root p d
  child : ∀ p n, f.look p = some n → p ≠ f.m.root →
    ∃ m, f.look n.parent = some m ∧ m.isLeaf = false ∧ m.children.count p = 1
  parent : ∀ q m, f.look q = some m → m.isLeaf = false → ∀ p ∈ m.children,
    p ≠ f.m.root ∧ ∃ n, f.look p = some n ∧ n.parent = q
  no_parent : ∀ p n, f.look p = some n → (n.parent = 0 ↔ p = f.m.root)
  depth : ∃ h, ∀ p n, f.look p = some n → n.isLeaf = true →
    Descends (childrenAt f.look) f.m.root p h
  chain : f.nodes ≠ [] → ∃ ps, Chained f.look ps

/-- The file as `make_new_column_file` leaves it. -/
lemma formsTree_makeNew : FormsTree .makeNew where
  length := rfl
  pos _ _ hn := nomatch hn
  rooted _ _ hn := nomatch hn
  child _ _ hn := nomatch hn
  parent _ _ hn := nomatch hn
  no_parent _ _ hn := nomatch hn
  depth := ⟨0, fun _ _ hn => nomatch hn⟩
  chain h := absurd rfl h

/-- The invariant of a run: a tree of height `h` with the chain of its leaves. -/
structure Shaped (f : BptFile) (h : ℕ) : Prop where
  rooted : ∃ level, Rooted f.look (childrenAt f.look) f.m.root h level
  height : h < f.nodes.length
  nextFree : f.m.nextFree = f.nodes.length
  size : f.m.size ≠ 0
  chain : ∃ ps, Chained f.look ps

/-- **What the invariant says** of the stored nodes. -/
theorem Shaped.formsTree {f : BptFile} {h : ℕ} (hs : Shaped f h) : FormsTree f := by
  obtain ⟨level, hR⟩ := hs.rooted
  refine ⟨hs.nextFree.symm, fun p n hn => (hR.sound p n hn).pos, fun p n hn => ?_,
    fun p n hn hroot => ?_, fun q m hm hinner p hp => ?_, fun p n hn => hR.parent_eq_zero hn,
    ⟨h, fun p n hn hleaf => ?_⟩, fun _ => hs.chain⟩
  · refine ⟨level p, hR.family.descends_iff.mpr ⟨⟨n, hn⟩, rfl⟩, fun d hd => ?_⟩
    exact (hR.family.descends_iff.mp hd).2.symm
  · obtain ⟨m, hm, hinner, -⟩ := hR.exists_parent hn hroot
    have hkid := hR.family.kids_up ⟨n, hn⟩ hroot
    have hnodup := hR.family.nodup n.parent
    rw [parentAt_of_some hn] at hkid
    rw [childrenAt_of_inner hm hinner] at hkid hnodup
    exact ⟨m, hm, hinner, List.count_eq_one_of_mem hnodup hkid⟩
  · rw [← childrenAt_of_inner hm hinner] at hp
    obtain ⟨⟨n, hn⟩, hroot, hparent⟩ := (hR.family.mem_kids q p).mp hp
    rw [parentAt_of_some hn] at hparent
    exact ⟨hroot, n, hn, hparent⟩
  · exact hR.family.descends_iff.mpr ⟨⟨n, hn⟩, (hR.leaf_iff p n hn).mp hleaf⟩

/-! ### One insert -/

/-- The interior nodes keep their marks in an insert of `key`. -/
def stepKeepsMark (f : BptFile) (key : ℤ) : Bool :=
  match (do
    let root ← loadNode f f.m.root
    findLeaf (f.nodes.length + 1) f root key) with
  | .ok leaf => splitsKeepMark (f.nodes.length + 1) f leaf key
  | .error _ => true

section Insert

variable {f : BptFile} {h : ℕ} {key : ℤ} {n : Node}

/-- The leaf at which the descent for a key ends. -/
lemma Shaped.exists_leaf (hs : Shaped f h) (key : ℤ) :
    ∃ root leaf, loadNode f f.m.root = .ok root ∧
      findLeaf (f.nodes.length + 1) f root key = .ok leaf ∧ f.look leaf.pos = some leaf ∧
      leaf.isLeaf = true := by
  obtain ⟨level, hR⟩ := hs.rooted
  have hheight := hs.height
  obtain ⟨root, hroot⟩ := hR.family.root_mem
  obtain ⟨p, leaf, hok, hp, hleaf⟩ := hR.findLeaf_ok key (f.nodes.length + 1) hroot (by omega)
  refine ⟨root, leaf, fetch_eq_ok.mpr hroot, hok, ?_, hleaf⟩
  rw [(hR.sound p leaf hp).pos, hp]

/-- A full leaf never hands its entry on: the leaf after it, when there is one, has a
parent. -/
lemma Shaped.overflowNode_eq (hs : Shaped f h) (key : ℤ) (hn : f.look n.pos = some n)
    (hleaf : n.isLeaf = true) : overflowNode f n key = .ok none := by
  obtain ⟨level, hR⟩ := hs.rooted
  obtain ⟨ps, hc⟩ := hs.chain
  rw [overflowNode]
  split_ifs with hnext
  · have hmem : n.next ∈ ps := by
      have hmap : nextAt f.look n.pos ∈ ps.map (nextAt f.look) :=
        List.mem_map_of_mem ((hc.mem_iff _).mpr ⟨n, hn, hleaf⟩)
      rw [hc.linked, nextAt_of_some hn] at hmap
      rcases List.mem_append.mp hmap with hmem | hmem
      · exact List.mem_of_mem_tail hmem
      · exact absurd (List.mem_singleton.mp hmem) hnext.2
    obtain ⟨m, hm, hmleaf⟩ := (hc.mem_iff _).mp hmem
    have hload : loadNode f n.next = .ok m := fetch_eq_ok.mpr hm
    rw [hload, Outcome.ok_bind, if_neg]
    rintro ⟨hparent, -⟩
    -- a root that is a leaf is the only node, so none comes after it
    have hroot := (hR.parent_eq_zero hm).mp hparent
    have hlevel : h = 0 := by
      rw [← (hR.leaf_iff _ m hm).mp hmleaf]
      exact (hR.level_eq_zero hm).mpr hroot
    obtain ⟨z, hz, hzleaf⟩ := hR.zero
    have hzero : 0 = f.m.root :=
      (hR.level_eq_zero hz).mp (((hR.leaf_iff 0 z hz).mp hzleaf).trans hlevel)
    exact hnext.2 (hroot.trans hzero.symm)
  · rfl

/-- **A leaf with room** takes the record. -/
lemma Shaped.insert_room (key : ℤ) (row : ℕ) (hs : Shaped f h) (hn : f.look n.pos = some n)
    (hleaf : n.isLeaf = true) (hroom : n.size < 127) :
    ∃ f', addEntryToNode f n key row = .ok f' ∧ Shaped (writeCm f' f.m) h := by
  obtain ⟨level, hR⟩ := hs.rooted
  have hshape := (hR.sound _ n hn).shape
  obtain ⟨n', hadd, hheader, hsize, hentries⟩ :=
    addEntryToNode_leaf f key row hshape hleaf hroom (hR.sorted _ n hn)
  have hsorted : n'.seps.Pairwise (· ≤ ·) := by
    rw [Node.seps_eq_entries hheader.shape, hentries, List.map_insertIdx,
      ← Node.seps_eq_entries hshape]
    exact insertIdx_countP_le_sorted (hR.sorted _ n hn) key
  have hleaf' : n'.isLeaf = true := hheader.isLeaf.trans hleaf
  have hlook : (writeNode f n').look = Function.update f.look n.pos (some n') := by
    rw [look_writeNode_over (m := n) (by rw [hheader.pos]; exact hn), hheader.pos]
  have hlen : (writeNode f n').nodes.length = f.nodes.length :=
    length_writeNode (by rw [hheader.pos]; exact lt_length_of_look hn)
  have hkids : childrenAt (writeNode f n').look = childrenAt f.look := by
    funext x
    rw [hlook, childrenAt, childrenAt]
    by_cases hx : x = n.pos
    · rw [hx, Function.update_self, hn, Option.elim_some, Option.elim_some, if_pos hleaf,
        if_pos hleaf']
    · rw [Function.update_of_ne hx]
  have hchain : leafNext (writeNode f n').look = leafNext f.look := by
    funext x
    rw [hlook]
    by_cases hx : x = n.pos
    · rw [hx, leafNext_of_leaf (Function.update_self _ _ _) hleaf', leafNext_of_leaf hn hleaf,
        hheader.next]
    · rw [leafNext, Function.update_of_ne hx, leafNext]
  obtain ⟨ps, hc⟩ := hs.chain
  refine ⟨writeNode f n', hadd, ⟨level, ?_⟩, ?_, hs.nextFree.trans hlen.symm, hs.size, ps,
    hc.congr hchain⟩
  · change Rooted (writeNode f n').look (childrenAt (writeNode f n').look) f.m.root h level
    rw [hkids, hlook]
    exact hR.replace hn hheader (by omega) hsorted
  · change h < (writeNode f n').nodes.length
    rw [hlen]
    exact hs.height

/-- The children of a leaf's halves: none. -/
lemma shared_of_leaf {left right : Node} (hleft : left.isLeaf = true) (hright : right.isLeaf = true)
    (hn : f.look n.pos = some n) (hleaf : n.isLeaf = true) :
    (childrenAt f.look n.pos).Perm (spots left.row ++ spots right.row) := by
  rw [Node.row_of_leaf hleft, Node.row_of_leaf hright, spots_keyRow, spots_keyRow, childrenAt, hn,
    Option.elim_some, if_pos hleaf]
  rfl

/-- **A full leaf** is split, and the splits above it follow. -/
lemma Shaped.insert_full (row : ℕ) (hs : Shaped f h) (hn : f.look n.pos = some n)
    (hleaf : n.isLeaf = true) (hsize : n.size = 127) {fuel : ℕ} (hfuel : h ≤ fuel)
    (hmark : splitsKeepMark (fuel + 1) f n key = true) :
    insertNode (fuel + 1) f f.m n key row = .error .assertion ∨
    ∃ f' h', insertNode (fuel + 1) f f.m n key row = .ok f' ∧ Shaped f' h' := by
  have hover := hs.overflowNode_eq key hn hleaf
  have hheight := hs.height
  obtain ⟨level, hR⟩ := hs.rooted
  obtain ⟨ps, hc⟩ := hs.chain
  obtain ⟨u, hu⟩ : ∃ u, u = n.seps.countP (· ≤ key) := ⟨_, rfl⟩
  have hH := halves u key row f.m.nextFree (hR.sound _ n hn).shape
  have hshared := shared_of_leaf (f := f) (hH.left_header.isLeaf.trans hleaf)
    (hH.right_header.isLeaf.trans hleaf) hn hleaf
  have hP : PendingLink f f.m n (childrenAt f.look) f.m.root h level :=
    ⟨hR, hn, fun _ _ => rfl, hs.nextFree, rfl⟩
  by_cases hroot : n.pos = f.m.root
  · obtain herr | ⟨g, f', hok, hsplit⟩ := hP.insert_root fuel hsize hu hover hshared hroot
    · exact Or.inl herr
    · obtain ⟨ps', hc'⟩ := hc.cut hsplit.cut hleaf hH.left_header.next hH.right_header.next
      refine Or.inr ⟨f', h + 1, hok, ?_, ?_, ?_, ?_, ps', hc'.congr hsplit.chain⟩
      · rw [hsplit.header]
        exact hsplit.rooted
      · rw [hsplit.length]
        omega
      · rw [hsplit.length, hsplit.header, ← hs.nextFree]
        rfl
      · rw [hsplit.header, hleaf]
        exact Nat.succ_ne_zero _
  · obtain ⟨g, m, left, right, heq, hleft, hright, hlen, hcut, hinner, hlevel, hP', hmark'⟩ :=
      hP.insert_below hsize hu hover hshared hroot hmark
    have hlevel' := (hR.leaf_iff _ n hn).mp hleaf
    have htaken : (takenKids g.look m f.m.nextFree m.pos).Perm (f.m.nextFree :: m.children) := by
      rw [takenKids, Function.update_self]
    rw [heq]
    obtain herr | ⟨f', h', hok, hset⟩ := insertNode_relinks fuel hP' hinner htaken hmark' (by omega)
    · exact Or.inl herr
    · obtain ⟨ps', hc'⟩ := hc.cut hcut hleaf hleft hright
      refine Or.inr ⟨f', h', hok, hset.rooted, ?_, hset.nextFree, ?_, ps', hc'.congr hset.chain⟩
      · have := hset.height
        omega
      · rw [hset.size, hleaf]
        exact Nat.succ_ne_zero _

/-- **One insert** keeps the invariant, or fails the assertion on the root. -/
theorem Shaped.insert (row : ℕ) (hs : Shaped f h) (hmark : stepKeepsMark f key = true) :
    bptInsertRecord f key row = .error .assertion ∨
    ∃ f' h', bptInsertRecord f key row = .ok f' ∧ Shaped f' h' := by
  obtain ⟨root, leaf, hroot, hfind, hp, hleaf⟩ := hs.exists_leaf key
  obtain ⟨level, hR⟩ := hs.rooted
  rw [stepKeepsMark, hroot, Outcome.ok_bind, hfind] at hmark
  rw [bptInsertRecord, if_neg hs.size, hroot, Outcome.ok_bind, hfind, Outcome.ok_bind]
  rcases Nat.lt_or_ge leaf.size 127 with hroom | hfull
  · obtain ⟨f', hadd, hs'⟩ := hs.insert_room key row hp hleaf hroom
    exact Or.inr ⟨_, h, by rw [insertNode_room hroom, hadd, Outcome.ok_bind], hs'⟩
  · exact hs.insert_full row hp hleaf (le_antisymm (hR.sound _ leaf hp).size hfull) hs.height.le
      hmark

end Insert

/-! ### Runs of inserts -/

/-- The interior nodes keep their marks in every insert of the run. -/
def insertsKeepMark : BptFile → List (ℤ × ℕ) → Bool
  | _, [] => true
  | f, (key, row) :: records =>
      stepKeepsMark f key &&
        match bptInsertRecord f key row with
        | .ok f' => insertsKeepMark f' records
        | .error _ => true

/-- The condition on a run is one on its parts. -/
lemma insertsKeepMark_take (records : List (ℤ × ℕ)) : ∀ {f : BptFile} (k : ℕ),
    insertsKeepMark f records = true → insertsKeepMark f (records.take k) = true := by
  induction records with
  | nil => intro f k h; rwa [List.take_nil]
  | cons r records ih =>
      intro f k h
      obtain ⟨key, row⟩ := r
      cases k with
      | zero => rfl
      | succ k =>
          rw [insertsKeepMark, Bool.and_eq_true] at h
          rw [List.take_succ_cons, insertsKeepMark, Bool.and_eq_true]
          refine ⟨h.1, ?_⟩
          cases hok : bptInsertRecord f key row with
          | error e => rfl
          | ok f' =>
              rw [hok] at h
              exact ih k h.2

/-- A run from a tree ends with a tree, or fails the assertion on the root. -/
theorem Shaped.run (records : List (ℤ × ℕ)) : ∀ {f : BptFile} {h : ℕ},
    Shaped f h → insertsKeepMark f records = true →
    bptInsertRecords f records = .error .assertion ∨
    ∃ f' h', bptInsertRecords f records = .ok f' ∧ Shaped f' h' := by
  induction records with
  | nil =>
      intro f h hs _
      exact Or.inr ⟨f, h, rfl, hs⟩
  | cons r records ih =>
      intro f h hs hmark
      obtain ⟨key, row⟩ := r
      rw [insertsKeepMark, Bool.and_eq_true] at hmark
      rw [bptInsertRecords, List.foldlM_cons]
      obtain herr | ⟨f', h', hok, hs'⟩ := hs.insert row hmark.1
      · exact Or.inl (by rw [herr]; rfl)
      · rw [hok] at hmark ⊢
        rw [Outcome.ok_bind]
        exact ih hs' hmark.2

/-- **The first insert** makes a tree of one leaf. -/
theorem shaped_first (key : ℤ) (row : ℕ) :
    ∃ f, bptInsertRecord .makeNew key row = .ok f ∧ Shaped f 0 := by
  set n := firstLeaf key row with hn
  set f : BptFile := ⟨⟨.bptree, 1, 1, 0⟩, [n]⟩ with hf
  have hlook : ∀ p m, f.look p = some m → p = 0 ∧ m = n := fun p m hm => look_singleton hm
  have hzero : f.look 0 = some n := rfl
  have hkids : ∀ q, childrenAt f.look q = [] := by
    intro q
    cases hq : f.look q with
    | none => rw [childrenAt, hq]; rfl
    | some m =>
        rw [childrenAt, hq, (hlook q m hq).2]
        rfl
  refine ⟨f, rfl, ⟨fun _ => 0, ?_⟩, Nat.zero_lt_one, rfl, Nat.one_ne_zero, [0], rfl,
    List.nodup_singleton 0, fun p => ?_, rfl⟩
  · refine ⟨⟨fun q => ?_, fun q c => ?_, ⟨n, hzero⟩, rfl, ?_, ?_⟩, fun p m hm => ?_,
      fun p m hm => ?_, fun p m hm => le_rfl, fun p m hm => ?_, fun m hm => ?_, n, hzero, rfl⟩
    · rw [hkids]
      exact List.nodup_nil
    · rw [hkids]
      constructor
      · intro hc
        cases hc
      · rintro ⟨⟨m, hm⟩, hroot, -⟩
        exact absurd (hlook c m hm).1 hroot
    · rintro c ⟨m, hm⟩ hroot
      exact absurd (hlook c m hm).1 hroot
    · rintro c ⟨m, hm⟩ hroot
      exact absurd (hlook c m hm).1 hroot
    · obtain ⟨rfl, rfl⟩ := hlook p m hm
      exact sound_firstLeaf key row
    · obtain ⟨-, rfl⟩ := hlook p m hm
      exact List.pairwise_singleton _ key
    · obtain ⟨-, rfl⟩ := hlook p m hm
      exact ⟨fun _ => rfl, fun _ => rfl⟩
    · obtain ⟨-, rfl⟩ := hlook _ m hm
      rfl
  · rw [List.mem_singleton]
    constructor
    · rintro rfl
      exact ⟨n, hzero, rfl⟩
    · rintro ⟨m, hm, -⟩
      exact (hlook p m hm).1

/-- **Inserting into a fresh B+ tree.** When the interior nodes keep their marks in every insert of
the run, each part of it ends with the failed assertion on the root, or with stored nodes that
form one tree. -/
theorem bptInsertRecords_formsTree {records : List (ℤ × ℕ)}
    (hmark : insertsKeepMark .makeNew records = true) (k : ℕ) :
    bptInsertRecords .makeNew (records.take k) = .error .assertion ∨
    ∃ f, bptInsertRecords .makeNew (records.take k) = .ok f ∧ FormsTree f := by
  have htake := insertsKeepMark_take records k hmark
  cases hrun : records.take k with
  | nil => exact Or.inr ⟨.makeNew, rfl, formsTree_makeNew⟩
  | cons r rest =>
      obtain ⟨key, row⟩ := r
      obtain ⟨f, hok, hs⟩ := shaped_first key row
      rw [hrun, insertsKeepMark, hok, Bool.and_eq_true] at htake
      rw [bptInsertRecords, List.foldlM_cons, hok, Outcome.ok_bind]
      obtain herr | ⟨f', h', hok', hs'⟩ := hs.run rest htake.2
      · exact Or.inl herr
      · exact Or.inr ⟨f', hok', hs'.formsTree⟩

/-- `bptInsertRecords_formsTree` at `130` of these records, after `129` of which the first leaf is
split: no assertion has failed, and the two leaves and their root are one tree. -/
theorem descendingRecords_formsTree :
    ∃ f, bptInsertRecords .makeNew ((descendingRecords 0 130).take 129) = .ok f ∧
      f.nodes.length = 3 ∧ FormsTree f := by
  have hmark : insertsKeepMark .makeNew (descendingRecords 0 130) = true := by decide +kernel
  have hnodes : (bptInsertRecords .makeNew ((descendingRecords 0 130).take 129)).map
      (·.nodes.length) = .ok 3 := by
    decide +kernel
  obtain herr | ⟨f, hok, htree⟩ := bptInsertRecords_formsTree hmark 129
  · rw [herr] at hnodes
    cases hnodes
  · rw [hok] at hnodes
    exact ⟨f, hok, Except.ok.inj hnodes, htree⟩

/-- With more records than that the node at `2`, split off a full root, takes a child in front of
`126` keys. What lies behind its pointers is moved over its mark, and its children have a leaf as
their parent. -/
theorem descendingRecords_break :
    ∃ f, bptInsertRecords .makeNew (descendingRecords 0 12288) = .ok f ∧ ¬ FormsTree f := by
  obtain ⟨f, a, m, top, w, hrun, hF⟩ := descending_marked
  refine ⟨f, hrun, fun htree => ?_⟩
  have hroot : 0 ≠ f.m.root := by
    intro h0
    obtain ⟨h2, -⟩ | ⟨r, hr, hinner, -⟩ := hF.above
    · omega
    · rw [← h0, hF.leaf_at] at hr
      cases hr
      rw [hF.leaf_mark] at hinner
      cases hinner
  obtain ⟨m', hm', hinner, -⟩ := htree.child 0 a hF.leaf_at hroot
  rw [hF.leaf_parent, hF.node_at] at hm'
  cases hm'
  rw [hF.node_mark] at hinner
  cases hinner

end ColumnDb
