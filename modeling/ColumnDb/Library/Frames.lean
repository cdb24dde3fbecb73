import Mathlib.Tactic

/-!
Blocks behind headers of a fixed width.

* `Framing`: how the length of a block is written in front of it.
* `Framing.of_header`: the first symbols of a stream of frames are the header of the first block.
* `Framing.of_block`: after its header a block stands in the stream in its length.
* `Framing.eq_nil_of_short`: fewer symbols than a header has are no frames.
-/

namespace ColumnDb

/-- Lengths below a limit, written in `width` symbols. -/
structure Framing (α : Type) where
  width : ℕ
  limit : ℕ
  header : ℕ → List α
  size : List α → ℕ
  length_header : ∀ n, (header n).length = width
  size_header : ∀ n < limit, size (header n) = n

namespace Framing

variable {α : Type} (F : Framing α) {got rest block : List α} {blocks : List (List α)}

/-- A block behind its length. -/
def frame (block : List α) : List α := F.header block.length ++ block

lemma flatMap_frame_cons (block : List α) (blocks : List (List α)) :
    (block :: blocks).flatMap F.frame
      = F.header block.length ++ (block ++ blocks.flatMap F.frame) := by
  rw [List.flatMap_cons, frame, List.append_assoc]

/-- **The first symbols of a stream of frames**, as many as a header has. -/
theorem of_header (hpos : 0 < F.width) (hlen : got.length = F.width)
    (h : got ++ rest = blocks.flatMap F.frame) :
    ∃ block blocks', blocks = block :: blocks' ∧ got = F.header block.length ∧
      rest = block ++ blocks'.flatMap F.frame := by
  cases blocks with
  | nil =>
      rw [List.flatMap_nil, List.append_eq_nil_iff] at h
      rw [h.1, List.length_nil] at hlen
      omega
  | cons block blocks =>
      rw [flatMap_frame_cons] at h
      obtain ⟨hgot, hrest⟩ := List.append_inj h (hlen.trans (F.length_header _).symm)
      exact ⟨block, blocks, rfl, hgot, hrest⟩

/-- The symbols behind a header, as many as it says. -/
lemma of_block (hlen : got.length = block.length)
    (h : got ++ rest = block ++ blocks.flatMap F.frame) :
    got = block ∧ rest = blocks.flatMap F.frame := List.append_inj h hlen

/-- No frame is shorter than its header. -/
lemma eq_nil_of_short (hlen : (blocks.flatMap F.frame).length < F.width) : blocks = [] := by
  cases blocks with
  | nil => rfl
  | cons block blocks =>
      rw [flatMap_frame_cons, List.length_append, F.length_header] at hlen
      omega

end Framing

end ColumnDb
