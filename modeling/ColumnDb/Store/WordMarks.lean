import ColumnDb.Store.WordVector

/-!
The marks and the count of bit vectors of any size, in the arithmetic of the source
(`bit_vector.c`).

A vector whose size makes `get_ceil` wrap has positions without a word
(`WordVector.exists_unreadable`). On all others the operations are those on sets.

* `bvRun_counts_iff`: the count is right after every operation of a run exactly when the size does
  not wrap and every operation flips the bit it names.
* `markBvByRange_marks_iff`: the marks and the count after marking a range.
* `BvStep`: an operation on one of several vectors, or a copy from one to another. `BvStep.run` is
  what it does to the vectors, `BvStep.onMarks` what it does to their sets.
* `bvSteps_marks_iff`: after every step of a run the marks are the sets exactly when no size wraps.
-/

namespace ColumnDb

namespace WordVector

section Sizes

variable {w : WordVector} {bv : BitVector} {size : BitVec 32}

/-- Where `get_ceil` wraps, no vector has the word of the position `2 ^ 32 - 32`. -/
lemma exists_unreadable (h : ¬ size.toNat + 31 < 2 ^ 32) :
    ∃ i < size, ∀ w : WordVector, w.isMarked i = .error .bounds := by
  refine ⟨0xffffffe0#32, ?_, fun w => ?_⟩
  · rw [BitVec.lt_def, show (0xffffffe0#32).toNat = 2 ^ 32 - 32 from rfl]
    omega
  · have hword : w.vec[(0xffffffe0#32 >>> 5).toNat]? = none :=
      List.getElem?_eq_none (Nat.le_of_lt_succ w.length_lt)
    simp only [isMarked, fetch, hword]
    rfl

/-- Where it does not, the words of a vector cover its size. -/
lemma exists_holds (h : w.size.toNat + 31 < 2 ^ 32) : ∃ bv, w.Holds bv :=
  ⟨{ size := w.size.toNat
     count := w.count.toNat
     vec := w.vec
     length_vec := toNat_getCeil32 h ▸ w.length_vec },
    rfl, (Nat.mod_eq_of_lt w.count.isLt).symm, rfl⟩

end Sizes

/-! ### The count -/

/-- An operation on a vector; its index is converted to an unsigned int. -/
def run (w : WordVector) : BvOp → Outcome WordVector
  | .mark index => w.markBv (.ofNat 32 index)
  | .unmark index => w.unmarkBv (.ofNat 32 index)
  | .markAll => w.markAllBv
  | .unmarkAll => w.unmarkAllBv

/-- The number of the positions for which `is_marked` holds. -/
def markedCount (w : WordVector) : ℕ :=
  (List.range w.size.toNat).countP fun i => w.isMarked (.ofNat 32 i) = .ok true

/-- `is_marked` can be asked for every position, and `get_bv_count` is the number of those for which
it holds. -/
def CountsMarks (w : WordVector) : Prop :=
  (∀ i < w.size, ∃ marked, w.isMarked i = .ok marked) ∧ w.getBvCount.toNat = w.markedCount

section Counts

variable {w : WordVector} {bv : BitVector} {size : BitVec 32} {op : BvOp} {ops : List BvOp}

lemma run_related (h : w.Holds bv) (hsize : bv.size + 31 < 2 ^ 32) (hop : op.Inside bv.size) :
    Outcome.Related Holds (w.run op) (op.run bv) := by
  cases op with
  | mark index =>
      have hlt : index < bv.size := hop
      have hindex : (BitVec.ofNat 32 index).toNat = index :=
        Nat.mod_eq_of_lt (show index < 2 ^ 32 by omega)
      have hmark := markBv_related h (.ofNat 32 index)
      rwa [hindex] at hmark
  | unmark index =>
      have hlt : index < bv.size := hop
      have hindex : (BitVec.ofNat 32 index).toNat = index :=
        Nat.mod_eq_of_lt (show index < 2 ^ 32 by omega)
      have hunmark := unmarkBv_related h (.ofNat 32 index)
      rwa [hindex] at hunmark
  | markAll => exact markAllBv_related h hsize
  | unmarkAll => exact unmarkAllBv_related h hsize

lemma Holds.markedCount_eq (h : w.Holds bv) : w.markedCount = ColumnDb.markedCount bv := by
  rw [markedCount, ColumnDb.markedCount, h.size]
  refine List.countP_congr fun i hi => ?_
  have hlt : i < 2 ^ 32 := by
    have hi := List.mem_range.mp hi
    have hsize := h.size ▸ w.size.isLt
    omega
  rw [h.isMarked_eq, BitVec.toNat_ofNat, Nat.mod_eq_of_lt hlt]

lemma Holds.countsMarks_iff (h : w.Holds bv) :
    w.CountsMarks ↔ ColumnDb.getBvCount bv = ColumnDb.markedCount bv := by
  have hread : ∀ i < w.size, ∃ marked, w.isMarked i = .ok marked := fun i hi =>
    ⟨_, (h.isMarked_eq i).trans (isMarked_of_lt (h.size ▸ hi))⟩
  rw [CountsMarks, and_iff_right hread, getBvCount, h.count, h.markedCount_eq, ColumnDb.getBvCount]

/-- **An operation** on a vector with the marks of a set. -/
theorem run_marks {marks : Finset ℕ} (h : w.Holds bv) (hmarks : bv.Marks size.toNat marks)
    (hsize : size.toNat + 31 < 2 ^ 32) (hop : op.Inside size.toNat) :
    ∃ w' bv', w.run op = .ok w' ∧ op.run bv = .ok bv' ∧ w'.Holds bv' ∧
      bv'.Marks size.toNat (op.onMarks size.toNat marks) := by
  obtain ⟨bv', hbv', hmarks'⟩ := BvOp.run_marks hmarks hop
  have hrel := run_related h (hmarks.size_eq.symm ▸ hsize) (hmarks.size_eq.symm ▸ hop)
  obtain ⟨w', hw', h'⟩ := hrel.ok_right hbv'
  exact ⟨w', bv', hw', hbv', h', hmarks'⟩

/-- A run of operations on a new vector. -/
lemma foldlM_run_marks (hsize : size.toNat + 31 < 2 ^ 32)
    (hops : ∀ op ∈ ops, op.Inside size.toNat) :
    ∃ w, ops.foldlM run (createBv size) = .ok w ∧
      ∃ bv, ops.foldlM BvOp.run (ColumnDb.createBv size.toNat) = .ok bv ∧ w.Holds bv ∧
        bv.Marks size.toNat (marksAfter size.toNat ops) := by
  refine foldlM_ok (P := fun before (w : WordVector) =>
      ∃ bv, before.foldlM BvOp.run (ColumnDb.createBv size.toNat) = .ok bv ∧ w.Holds bv ∧
        bv.Marks size.toNat (marksAfter size.toNat before)) ops
    (fun before op after w hsplit hrun => ?_) ⟨_, rfl, holds_createBv hsize, .create _⟩
  have hop : op ∈ ops := hsplit ▸ List.mem_append_right before List.mem_cons_self
  obtain ⟨bv, hbv, h, hmarks⟩ := hrun
  obtain ⟨w', bv', hw', hbv', h', hmarks'⟩ := run_marks h hmarks hsize (hops op hop)
  refine ⟨w', hw', bv', foldlM_append_ok.mpr ⟨bv, hbv, ?_⟩, h', by rwa [marksAfter_concat]⟩
  rw [List.foldlM_cons, hbv']
  rfl

end Counts

end WordVector

/-- **The count after every operation** of a run on a new vector of any size: `is_marked` can be
asked for every position, and the count is the number of those for which it holds, exactly when
`get_ceil` does not wrap for the size and every operation flips the bit it names. -/
theorem bvRun_counts_iff (size : BitVec 32) (ops : List BvOp)
    (hops : ∀ op ∈ ops, op.Inside size.toNat) :
    (∀ k ≤ ops.length, ∃ w, (ops.take k).foldlM WordVector.run (WordVector.createBv size) = .ok w ∧
      w.CountsMarks) ↔
    size.toNat + 31 < 2 ^ 32 ∧
      ∀ k (hk : k < ops.length), ops[k].Flips (marksAfter size.toNat (ops.take k)) := by
  by_cases hsize : size.toNat + 31 < 2 ^ 32
  · rw [and_iff_right hsize, ← run_counts_iff size.toNat size.isLt ops hops]
    refine forall₂_congr fun k _ => ?_
    have htake : ∀ op ∈ ops.take k, op.Inside size.toNat := fun op hop =>
      hops op (List.mem_of_mem_take hop)
    obtain ⟨w, hw, bv, hbv, h, -⟩ := WordVector.foldlM_run_marks hsize htake
    constructor
    · rintro ⟨w', hw', hcounts⟩
      cases hw.symm.trans hw'
      exact ⟨bv, hbv, h.countsMarks_iff.mp hcounts⟩
    · rintro ⟨bv', hbv', hcount⟩
      cases hbv.symm.trans hbv'
      exact ⟨w, hw, h.countsMarks_iff.mpr hcount⟩
  · refine iff_of_false (fun hcounts => ?_) fun h => hsize h.1
    obtain ⟨w, hw, hread, -⟩ := hcounts 0 (Nat.zero_le _)
    cases hw
    obtain ⟨i, hi, hbounds⟩ := WordVector.exists_unreadable hsize
    obtain ⟨marked, hmarked⟩ := hread i hi
    rw [hbounds] at hmarked
    cases hmarked

/-- `bvRun_counts_iff` at a run of the source's own test. -/
theorem markUnmark_counts : ∃ w,
    [.mark 1, .unmark 1, .mark 2, .mark 4].foldlM WordVector.run (WordVector.createBv 5) = .ok w ∧
      w.CountsMarks :=
  (bvRun_counts_iff 5 [.mark 1, .unmark 1, .mark 2, .mark 4] (by decide)).mpr (by decide) 4 le_rfl

/-- A position that is marked twice counts twice. -/
theorem markTwice_counts : ¬ ∀ k ≤ 2, ∃ w,
    ([.mark 1, .mark 1].take k).foldlM WordVector.run (WordVector.createBv 5) = .ok w ∧
      w.CountsMarks := by
  intro h
  obtain ⟨w, hok, -, hcount⟩ := h 2 le_rfl
  cases hok
  revert hcount
  decide

/-! ### Marking a range -/

/-- **The marks after marking a range** in a vector of any size: they are the range, and counted,
without a shift by the width of a word, exactly when `get_ceil` does not wrap for the size and the
range does not end with a word. -/
theorem markBvByRange_marks_iff (w : WordVector) (low high : BitVec 32) (hle : low ≤ high)
    (hhigh : high < w.size) :
    (∃ w', w.markBvByRange low high = .ok w' ∧ w'.count.toNat = high.toNat - low.toNat + 1 ∧
      ∀ i < w.size, w'.isMarked i = .ok (decide (low ≤ i ∧ i ≤ high))) ↔
    w.size.toNat + 31 < 2 ^ 32 ∧ high.toNat % 32 ≠ 31 := by
  by_cases hsize : w.size.toNat + 31 < 2 ^ 32
  · obtain ⟨bv, h⟩ := WordVector.exists_holds hsize
    have hrel := WordVector.markBvByRange_related h (h.size ▸ hsize) low high
    have hiff := markBvByRange_isMarked_iff bv low.toNat high.toNat hle (h.size ▸ hhigh)
    rw [and_iff_right hsize, ← hiff]
    constructor
    · rintro ⟨w', hw', -⟩
      obtain ⟨bv', hbv', -⟩ := hrel.ok_left hw'
      refine hiff.mpr fun hlast => ?_
      rw [markBvByRange_undefined (by omega)] at hbv'
      cases hbv'
    · rintro ⟨bv', hbv', hcount, hmarks⟩
      obtain ⟨w', hw', h'⟩ := hrel.ok_right hbv'
      refine ⟨w', hw', ?_, fun i hi => ?_⟩
      · have hlt : high.toNat < w.size.toNat := hhigh
        rw [h'.count, hcount]
        exact Nat.mod_eq_of_lt (by omega)
      · rw [h'.isMarked_eq, hmarks i.toNat (h.size ▸ hi)]
        exact congrArg _ (decide_eq_decide.mpr Iff.rfl)
  · refine iff_of_false ?_ fun h => hsize h.1
    rintro ⟨w', -, -, hmarks⟩
    obtain ⟨i, hi, hbounds⟩ := WordVector.exists_unreadable hsize
    cases (hbounds w').symm.trans (hmarks i hi)

/-- `markBvByRange_marks_iff` at the range of the source's own test. -/
theorem testRange_marks : ∃ w', (WordVector.createBv 500).markBvByRange 100 200 = .ok w' ∧
    w'.count.toNat = 200 - 100 + 1 ∧
      ∀ i < (500 : BitVec 32), w'.isMarked i = .ok (decide (100 ≤ i ∧ i ≤ 200)) :=
  (markBvByRange_marks_iff (WordVector.createBv 500) 100 200 (by decide) (by decide)).mpr
    (by decide)

/-- A range that ends with a word shifts by `32`. -/
theorem wordRange_undefined :
    (WordVector.createBv 32).markBvByRange 0 31 = .error .undefined ∧
    ¬ ∃ w', (WordVector.createBv 32).markBvByRange 0 31 = .ok w' ∧ w'.count.toNat = 32 ∧
      ∀ i < (32 : BitVec 32), w'.isMarked i = .ok (decide (0 ≤ i ∧ i ≤ 31)) := by
  have hundefined : (WordVector.createBv 32).markBvByRange 0 31 = .error .undefined := rfl
  refine ⟨hundefined, ?_⟩
  rintro ⟨w', hok, -⟩
  cases hundefined.symm.trans hok

/-! ### Several vectors -/

/-- A step on several vectors: an operation on one of them, or `cpy_bv` from one to another. -/
inductive BvStep (ι : Type) where
  | on (v : ι) (op : BvOp)
  | cpy (des src : ι)

namespace BvStep

variable {ι : Type} [DecidableEq ι]

/-- The effect on the vectors. -/
def run (s : ι → WordVector) : BvStep ι → Outcome (ι → WordVector)
  | on v op => do
      let w ← (s v).run op
      .ok (Function.update s v w)
  | cpy des src => do
      let w ← (s des).cpyBv (s src)
      .ok (Function.update s des w)

/-- Indices are below the size of their vector, and copies are between vectors of equal size. -/
def Inside (size : ι → BitVec 32) : BvStep ι → Prop
  | on v op => op.Inside (size v).toNat
  | cpy des src => size des = size src

instance (size : ι → BitVec 32) : DecidablePred (Inside size)
  | on v op => inferInstanceAs (Decidable (op.Inside (size v).toNat))
  | cpy des src => inferInstanceAs (Decidable (size des = size src))

/-- The effect on the sets of the marked positions. -/
def onMarks (size : ι → BitVec 32) (marks : ι → Finset ℕ) : BvStep ι → ι → Finset ℕ
  | on v op => Function.update marks v (op.onMarks (size v).toNat (marks v))
  | cpy des src => Function.update marks des (marks src)

/-- Nothing but the index that an operation names has changed. -/
def TouchesOnly (s s' : ι → WordVector) : BvStep ι → Prop
  | on v (.mark index) | on v (.unmark index) =>
      (∀ u ≠ v, s' u = s u) ∧
        ∀ i : BitVec 32, i.toNat ≠ index → (s' v).isMarked i = (s v).isMarked i
  | _ => True

/-- The sets that a run builds for new vectors. -/
def setsAfter (size : ι → BitVec 32) (steps : List (BvStep ι)) : ι → Finset ℕ :=
  steps.foldl (onMarks size) fun _ => ∅

/-- Vectors whose words cover their sizes, with the marks of sets. -/
def MarksAre (size : ι → BitVec 32) (s : ι → WordVector) (marks : ι → Finset ℕ) : Prop :=
  ∀ v, ∃ bv, (s v).Holds bv ∧ bv.Marks (size v).toNat (marks v)

section Steps

variable {size : ι → BitVec 32} {s s' : ι → WordVector} {marks : ι → Finset ℕ} {step : BvStep ι}
  {steps : List (BvStep ι)}

/-- One vector and its set are replaced. -/
lemma MarksAre.update (h : MarksAre size s marks) {v : ι} {w : WordVector} {m : Finset ℕ}
    (hw : ∃ bv, w.Holds bv ∧ bv.Marks (size v).toNat m) :
    MarksAre size (Function.update s v w) (Function.update marks v m) := by
  intro u
  by_cases hu : u = v
  · subst hu
    rwa [Function.update_self, Function.update_self]
  · rw [Function.update_of_ne hu, Function.update_of_ne hu]
    exact h u

/-- **A step on the vectors** does to the marks what it does to the sets. -/
theorem run_marks (hsize : ∀ v, (size v).toNat + 31 < 2 ^ 32) (h : MarksAre size s marks)
    (hstep : step.Inside size) :
    ∃ s', step.run s = .ok s' ∧ MarksAre size s' (step.onMarks size marks) := by
  cases step with
  | on v op =>
      obtain ⟨bv, hbv, hmarks⟩ := h v
      obtain ⟨w', bv', hw', -, hbv', hmarks'⟩ := WordVector.run_marks hbv hmarks (hsize v) hstep
      exact ⟨_, by rw [run, hw']; rfl, h.update ⟨bv', hbv', hmarks'⟩⟩
  | cpy des src =>
      obtain ⟨bv, hbv, hmarks⟩ := h src
      obtain ⟨bvDes, hbvDes, hmarksDes⟩ := h des
      have hequal : size des = size src := hstep
      rw [← hequal] at hmarks
      obtain ⟨bv', hcpy, hmarks'⟩ := hmarksDes.cpy hmarks
      have hrel := WordVector.cpyBv_related hbvDes hbv (hmarks.size_eq.symm ▸ hsize des)
      obtain ⟨w', hw', hbv'⟩ := hrel.ok_right hcpy
      exact ⟨_, by rw [run, hw']; rfl, h.update ⟨bv', hbv', hmarks'⟩⟩

/-- What changes with one index of one vector. -/
lemma markBvByOp_touches {v : ι} {w : WordVector} (op : BitOp) {index : ℕ} (hindex : index < 2 ^ 32)
    (hok : (s v).markBvByOp (.ofNat 32 index) op = .ok w) :
    (∀ u ≠ v, Function.update s v w u = s u) ∧ ∀ i : BitVec 32, i.toNat ≠ index →
      (Function.update s v w v).isMarked i = (s v).isMarked i := by
  refine ⟨fun u hu => Function.update_of_ne hu _ _, fun i hi => ?_⟩
  rw [Function.update_self]
  refine WordVector.isMarked_markBvByOp hok fun hsame => hi ?_
  rw [hsame, BitVec.toNat_ofNat, Nat.mod_eq_of_lt hindex]

/-- **A step on one index** leaves every other index of every vector as it was. -/
theorem run_touchesOnly (hstep : step.Inside size) (hok : step.run s = .ok s') :
    step.TouchesOnly s s' := by
  cases step with
  | cpy des src => trivial
  | on v op =>
      obtain ⟨w, hw, hok⟩ := Outcome.bind_eq_ok.mp hok
      cases hok
      cases op with
      | mark index => exact markBvByOp_touches .mark (lt_trans hstep (size v).isLt) hw
      | unmark index => exact markBvByOp_touches .unmark (lt_trans hstep (size v).isLt) hw
      | markAll => trivial
      | unmarkAll => trivial

/-- A run on new vectors. -/
lemma foldlM_run_marks (hsize : ∀ v, (size v).toNat + 31 < 2 ^ 32)
    (hsteps : ∀ step ∈ steps, step.Inside size) :
    ∃ s, steps.foldlM run (fun v => WordVector.createBv (size v)) = .ok s ∧
      MarksAre size s (setsAfter size steps) := by
  refine foldlM_ok (P := fun before s => MarksAre size s (setsAfter size before)) steps
    (fun before step after s hsplit hmarks => ?_) fun v =>
    ⟨_, WordVector.holds_createBv (hsize v), .create _⟩
  have hstep : step ∈ steps := hsplit ▸ List.mem_append_right before List.mem_cons_self
  obtain ⟨s', hs', hmarks'⟩ := run_marks hsize hmarks (hsteps step hstep)
  refine ⟨s', hs', ?_⟩
  rw [setsAfter, List.foldl_append]
  exact hmarks'

end Steps

end BvStep

/-- **The marks after every step** of a run on new vectors of any sizes: they are the sets that the
same steps build, and a step on one index touches no other one, exactly when `get_ceil` wraps for
none of the sizes. -/
theorem bvSteps_marks_iff {ι : Type} [DecidableEq ι] (size : ι → BitVec 32)
    (steps : List (BvStep ι)) (hsteps : ∀ step ∈ steps, step.Inside size) :
    (∀ k ≤ steps.length, ∃ s,
      (steps.take k).foldlM BvStep.run (fun v => WordVector.createBv (size v)) = .ok s ∧
      (∀ v, ∀ i < size v, (s v).isMarked i
        = .ok (decide (i.toNat ∈ BvStep.setsAfter size (steps.take k) v))) ∧
      ∀ (hk : k < steps.length) (s' : ι → WordVector),
        steps[k].run s = .ok s' → steps[k].TouchesOnly s s') ↔
    ∀ v, (size v).toNat + 31 < 2 ^ 32 := by
  by_cases hsize : ∀ v, (size v).toNat + 31 < 2 ^ 32
  · refine iff_of_true (fun k _ => ?_) hsize
    have htake : ∀ step ∈ steps.take k, step.Inside size := fun step hstep =>
      hsteps step (List.mem_of_mem_take hstep)
    obtain ⟨s, hs, hmarks⟩ := BvStep.foldlM_run_marks hsize htake
    refine ⟨s, hs, fun v i hi => ?_, fun hk s' hok => ?_⟩
    · obtain ⟨bv, hbv, hm⟩ := hmarks v
      rw [hbv.isMarked_eq, hm.isMarked_eq hi]
    · exact BvStep.run_touchesOnly (hsteps _ (List.getElem_mem hk)) hok
  · refine iff_of_false (fun hrun => ?_) hsize
    obtain ⟨v, hv⟩ := not_forall.mp hsize
    obtain ⟨s, hs, hmarks, -⟩ := hrun 0 (Nat.zero_le _)
    cases hs
    obtain ⟨i, hi, hbounds⟩ := WordVector.exists_unreadable hv
    cases (hbounds _).symm.trans (hmarks v i hi)

/-- `bvSteps_marks_iff` at two vectors, the last offset of a word, and a copy. -/
theorem markCopyUnmark_marks : ∃ s,
    [.on false (.mark 31), .cpy true false, .on true .markAll, .on false (.unmark 31)].foldlM
      BvStep.run (fun _ => WordVector.createBv 40) = .ok s ∧
    (∀ v, ∀ i < (40 : BitVec 32), (s v).isMarked i = .ok (decide (i.toNat ∈ BvStep.setsAfter
      (fun _ => 40)
      [.on false (.mark 31), .cpy true false, .on true .markAll, .on false (.unmark 31)] v))) := by
  obtain ⟨s, hs, hmarks, -⟩ := (bvSteps_marks_iff (fun _ : Bool => 40)
    [.on false (.mark 31), .cpy true false, .on true .markAll, .on false (.unmark 31)]
    (by decide)).mpr (by decide) 4 le_rfl
  exact ⟨s, hs, hmarks⟩

/-- For the greatest size `get_ceil` counts no word: the mark of the first position is written
outside the vector. -/
theorem greatestSize_marks :
    (WordVector.createBv 0xffffffff).vec = [] ∧
    (WordVector.createBv 0xffffffff).markBv 0 = .error .bounds ∧
    ¬ ∀ k ≤ 1, ∃ s,
      ([BvStep.on () (.mark 0)].take k).foldlM BvStep.run
        (fun _ => WordVector.createBv 0xffffffff) = .ok s ∧
      ∀ v, ∀ i < (0xffffffff : BitVec 32), (s v).isMarked i = .ok (decide
        (i.toNat ∈ BvStep.setsAfter (fun _ => 0xffffffff) ([.on () (.mark 0)].take k) v)) := by
  refine ⟨rfl, rfl, fun hrun => ?_⟩
  obtain ⟨s, hs, -⟩ := hrun 1 le_rfl
  cases hs

end ColumnDb
