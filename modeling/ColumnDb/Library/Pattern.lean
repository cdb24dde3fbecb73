import Mathlib.Data.List.Lex
import Mathlib.Tactic

/-!
Patterns that are sequences of pieces, and the match that POSIX prescribes.

A piece is a set of words, and a pattern matches a text that can be cut into words of its pieces,
one after the other. Of the matches inside a text POSIX takes the leftmost ones, of these the
longest, and of its cuts the one in which every piece, from left to right, has the longest word
that the pieces in front of it leave possible.

* `Matches`, `Occurs`: the words of a match, and a match inside a text.
* `Posix`: the match that POSIX prescribes. There is at most one (`Posix.unique`).
* `search`: it is computed by trying starts from the left, then ends and words from the longest on:
  `search_eq_some_iff`, `search_eq_none_iff`.
* `Greedy`: words that are the longest possible ones even when the pieces behind them are left out.
  No cut has longer ones (`Greedy.lengths_le`).
-/

namespace ColumnDb

variable {α : Type}

/-- A text is cut in one way only at the first place of a symbol. -/
lemma eq_of_first {a : α} {x x' z z' : List α} (hx : a ∉ x) (hx' : a ∉ x')
    (h : x ++ a :: z = x' ++ a :: z') : x = x' ∧ z = z' := by
  induction x generalizing x' with
  | nil =>
      cases x' with
      | nil => exact ⟨rfl, (List.cons_eq_cons.mp h).2⟩
      | cons b x' => exact absurd (List.cons_eq_cons.mp h).1 fun hb => hx' (hb ▸ List.mem_cons_self)
  | cons b x ih =>
      cases x' with
      | nil => exact absurd (List.cons_eq_cons.mp h).1 fun hb => hx (hb ▸ List.mem_cons_self)
      | cons b' x' =>
          obtain ⟨hb, htail⟩ := List.cons_eq_cons.mp h
          obtain ⟨hxs, hz⟩ := ih (fun ha => hx (List.mem_cons_of_mem _ ha))
            (fun ha => hx' (List.mem_cons_of_mem _ ha)) htail
          exact ⟨by rw [hb, hxs], hz⟩

/-! ### Pieces -/

/-- A piece of a pattern, by the words that it matches. -/
abbrev Piece (α : Type) := List α → Bool

namespace Piece

/-- The symbol `a`. -/
def sym [DecidableEq α] (a : α) : Piece α := fun w => w = [a]

/-- The symbol `a` or nothing. -/
def opt [DecidableEq α] (a : α) : Piece α := fun w => w = [] || w = [a]

/-- Any number of symbols of a class. -/
def many (p : α → Bool) : Piece α := fun w => w.all p

/-- One of the words of a list. -/
def oneOf [DecidableEq α] (ws : List (List α)) : Piece α := fun w => ws.contains w

end Piece

/-- The words `ws` are words of the pieces `ps`, one of each. -/
abbrev Matches (ps : List (Piece α)) (ws : List (List α)) : Prop :=
  List.Forall₂ (fun (p : Piece α) w => p w = true) ps ws

/-- A match of two patterns, one behind the other. -/
lemma matches_append_iff {ps qs : List (Piece α)} {ws : List (List α)} :
    Matches (ps ++ qs) ws ↔ ∃ us vs, ws = us ++ vs ∧ Matches ps us ∧ Matches qs vs := by
  induction ps generalizing ws with
  | nil =>
      constructor
      · exact fun h => ⟨[], ws, rfl, .nil, h⟩
      · rintro ⟨us, vs, rfl, hus, hvs⟩
        cases hus
        exact hvs
  | cons p ps ih =>
      constructor
      · intro h
        obtain ⟨w, ws', hw, h', rfl⟩ := List.forall₂_cons_left_iff.mp h
        obtain ⟨us, vs, rfl, hus, hvs⟩ := ih.mp h'
        exact ⟨w :: us, vs, rfl, .cons hw hus, hvs⟩
      · rintro ⟨us, vs, rfl, hus, hvs⟩
        obtain ⟨w, us', hw, hus', rfl⟩ := List.forall₂_cons_left_iff.mp hus
        exact .cons hw (ih.mpr ⟨us', vs, rfl, hus', hvs⟩)

/-- What all words of all pieces consist of, the text of a match consists of. -/
lemma Matches.forall_flatten {ps : List (Piece α)} {P : α → Prop}
    (hP : ∀ p ∈ ps, ∀ w, p w = true → ∀ a ∈ w, P a) :
    ∀ {ws : List (List α)}, Matches ps ws → ∀ a ∈ ws.flatten, P a := by
  induction ps with
  | nil =>
      intro ws h a ha
      cases h
      simp at ha
  | cons p ps ih =>
      intro ws h a ha
      obtain ⟨w, ws', hw, h', rfl⟩ := List.forall₂_cons_left_iff.mp h
      rw [List.flatten_cons, List.mem_append] at ha
      rcases ha with ha | ha
      · exact hP p List.mem_cons_self w hw a ha
      · exact ih (fun q hq => hP q (List.mem_cons_of_mem _ hq)) h' a ha

/-- A match inside a text: what stands in front of it, its words, and what stands behind it. -/
structure Match (α : Type) where
  pre : List α
  words : List (List α)
  post : List α

/-- `m` is a match of the pattern inside the text `l`. -/
structure Occurs (ps : List (Piece α)) (l : List α) (m : Match α) : Prop where
  text : l = m.pre ++ m.words.flatten ++ m.post
  fits : Matches ps m.words

/-- `m` is the match that POSIX prescribes. -/
structure Posix (ps : List (Piece α)) (l : List α) (m : Match α) : Prop where
  occurs : Occurs ps l m
  leftmost : ∀ m', Occurs ps l m' → m.pre.length ≤ m'.pre.length
  longest : ∀ m', Occurs ps l m' → m'.pre.length = m.pre.length →
    m'.words.flatten.length ≤ m.words.flatten.length
  cut : ∀ m', Occurs ps l m' → m'.pre.length = m.pre.length →
    m'.words.flatten.length = m.words.flatten.length →
      m'.words.map List.length ≤ m.words.map List.length

/-- Two matches of a text that start and end at the same places have the same text. -/
lemma Occurs.parts_eq {ps : List (Piece α)} {l : List α} {m m' : Match α} (h : Occurs ps l m)
    (h' : Occurs ps l m') (hpre : m'.pre.length = m.pre.length)
    (hwords : m'.words.flatten.length = m.words.flatten.length) :
    m'.pre = m.pre ∧ m'.words.flatten = m.words.flatten ∧ m'.post = m.post := by
  have htext : m'.pre ++ (m'.words.flatten ++ m'.post)
      = m.pre ++ (m.words.flatten ++ m.post) := by
    rw [← List.append_assoc, ← List.append_assoc, ← h.text, ← h'.text]
  obtain ⟨hpre', hrest⟩ := List.append_inj htext hpre
  obtain ⟨hwords', hpost⟩ := List.append_inj hrest hwords
  exact ⟨hpre', hwords', hpost⟩

/-- **POSIX prescribes one match at most.** -/
theorem Posix.unique {ps : List (Piece α)} {l : List α} {m m' : Match α} (h : Posix ps l m)
    (h' : Posix ps l m') : m' = m := by
  have hpre : m'.pre.length = m.pre.length :=
    le_antisymm (h'.leftmost m h.occurs) (h.leftmost m' h'.occurs)
  have hwords : m'.words.flatten.length = m.words.flatten.length :=
    le_antisymm (h.longest m' h'.occurs hpre) (h'.longest m h.occurs hpre.symm)
  have hlengths : m'.words.map List.length = m.words.map List.length :=
    le_antisymm (h.cut m' h'.occurs hpre hwords)
      (h'.cut m h.occurs hpre.symm hwords.symm)
  obtain ⟨hpre', hflat, hpost⟩ := h.occurs.parts_eq h'.occurs hpre hwords
  have hws : m'.words = m.words := List.eq_iff_flatten_eq.mpr ⟨hflat, hlengths⟩
  cases m
  cases m'
  simp only at hpre' hws hpost
  rw [hpre', hws, hpost]

lemma cons_lengths_le (n : ℕ) {l l' : List ℕ} (h : l ≤ l') : n :: l ≤ n :: l' := by
  rcases h.eq_or_lt with hl | hl
  · rw [hl]
  · exact (List.cons_lt_cons_iff.mpr (Or.inr ⟨rfl, hl⟩)).le

/-! ### Greedy cuts -/

/-- Every word is the longest beginning of the rest of the text that its piece matches. -/
def Greedy : List (Piece α) → List (List α) → Prop
  | p :: ps, w :: ws =>
      (∀ w', p w' = true → w' <+: w ++ ws.flatten → w'.length ≤ w.length) ∧ Greedy ps ws
  | _, _ => True

/-- **No cut has longer words than a greedy one.** -/
theorem Greedy.lengths_le {ps : List (Piece α)} :
    ∀ {ws ws' : List (List α)}, Greedy ps ws → Matches ps ws → Matches ps ws' →
      ws'.flatten = ws.flatten → ws'.map List.length ≤ ws.map List.length := by
  induction ps with
  | nil =>
      intro ws ws' _ hfits hfits' _
      cases hfits
      cases hfits'
      exact le_rfl
  | cons p ps ih =>
      intro ws ws' hgreedy hfits hfits' hflat
      cases hfits with
      | @cons _ w _ ws hw hfits =>
          cases hfits' with
          | @cons _ w' _ ws' hw' hfits' =>
              rw [List.flatten_cons, List.flatten_cons] at hflat
              have hle : w'.length ≤ w.length :=
                hgreedy.1 w' hw' (by rw [← hflat]; exact List.prefix_append _ _)
              rw [List.map_cons, List.map_cons]
              rcases hle.lt_or_eq with hlt | heq
              · exact (List.cons_lt_cons_iff.mpr (Or.inl hlt)).le
              · obtain ⟨-, hrest⟩ := List.append_inj hflat heq
                rw [heq]
                exact cons_lengths_le _ (ih hgreedy.2 hfits hfits' hrest)

section Greedy

variable {ps : List (Piece α)} {ws : List (List α)}

/-- A word that is as long as any word of its piece. -/
lemma Greedy.opt_one [DecidableEq α] (a : α) (h : Greedy ps ws) :
    Greedy (Piece.opt a :: ps) ([a] :: ws) := by
  refine ⟨fun w' hw' _ => ?_, h⟩
  rw [Piece.opt, Bool.or_eq_true, decide_eq_true_eq, decide_eq_true_eq] at hw'
  rcases hw' with rfl | rfl <;> simp

/-- An optional symbol that is not there. -/
lemma Greedy.opt_none [DecidableEq α] {a : α} (hrest : ws.flatten.head? ≠ some a)
    (h : Greedy ps ws) : Greedy (Piece.opt a :: ps) ([] :: ws) := by
  refine ⟨fun w' hw' hprefix => ?_, h⟩
  rw [Piece.opt, Bool.or_eq_true, decide_eq_true_eq, decide_eq_true_eq] at hw'
  rcases hw' with rfl | rfl
  · exact le_rfl
  · obtain ⟨rest, hrest'⟩ := hprefix
    rw [List.nil_append, List.singleton_append] at hrest'
    rw [← hrest'] at hrest
    exact absurd rfl hrest

/-- All symbols of a class up to the first one that is not of the class. -/
lemma Greedy.many {p : α → Bool} {w : List α} (hrest : ∀ a, ws.flatten.head? = some a → p a = false)
    (h : Greedy ps ws) : Greedy (Piece.many p :: ps) (w :: ws) := by
  refine ⟨fun w' hw' hprefix => not_lt.mp fun hlt => ?_, h⟩
  obtain ⟨rest, htext⟩ := hprefix
  -- the symbol of the text behind `w` belongs to the longer word
  have hin : w.length < (w ++ ws.flatten).length := by
    rw [← htext, List.length_append]
    omega
  have hget : w'[w.length]? = (w ++ ws.flatten)[w.length]? := by
    rw [← htext, List.getElem?_append_left hlt]
  rw [List.getElem?_append_right le_rfl, Nat.sub_self, ← List.head?_eq_getElem?] at hget
  have hsym : w'[w.length]? = some w'[w.length] := List.getElem?_eq_getElem hlt
  have hall := List.all_eq_true.mp hw' _ (List.getElem_mem hlt)
  rw [hrest _ (hget.symm.trans hsym)] at hall
  exact Bool.false_ne_true hall

end Greedy

/-! ### The search -/

/-- The first value of `f` at `n`, `n - 1`, and so on down to `0`. -/
def downFrom {β : Type} (f : ℕ → Option β) : ℕ → Option β
  | 0 => f 0
  | n + 1 => (f (n + 1)).or (downFrom f n)

lemma downFrom_eq_some {β : Type} {f : ℕ → Option β} {b : β} :
    ∀ {n : ℕ}, downFrom f n = some b →
      ∃ k ≤ n, f k = some b ∧ ∀ j, k < j → j ≤ n → f j = none := by
  intro n
  induction n with
  | zero => exact fun h => ⟨0, le_rfl, h, fun j hj hj' => absurd hj (by omega)⟩
  | succ n ih =>
      intro h
      rw [downFrom, Option.or_eq_some_iff] at h
      rcases h with h | ⟨hnone, h⟩
      · exact ⟨n + 1, le_rfl, h, fun j hj hj' => absurd hj (by omega)⟩
      · obtain ⟨k, hk, hfk, hlater⟩ := ih h
        refine ⟨k, by omega, hfk, fun j hj hj' => ?_⟩
        rcases Nat.lt_or_ge n j with hn | hn
        · rw [show j = n + 1 by omega]
          exact hnone
        · exact hlater j hj hn

lemma downFrom_eq_none_iff {β : Type} {f : ℕ → Option β} {n : ℕ} :
    downFrom f n = none ↔ ∀ k ≤ n, f k = none := by
  induction n with
  | zero =>
      rw [downFrom]
      exact ⟨fun h k hk => by rw [Nat.le_zero.mp hk]; exact h, fun h => h 0 le_rfl⟩
  | succ n ih =>
      rw [downFrom, Option.or_eq_none_iff, ih]
      constructor
      · rintro ⟨hn, h⟩ k hk
        rcases Nat.of_le_succ hk with hk | rfl
        · exact h k hk
        · exact hn
      · exact fun h => ⟨h _ le_rfl, fun k hk => h k (by omega)⟩

/-- The cut of all of `l` with the longest words. -/
def firstCut : List (Piece α) → List α → Option (List (List α))
  | [], l => if l.isEmpty then some [] else none
  | p :: ps, l =>
      downFrom
        (fun k => if p (l.take k) then (firstCut ps (l.drop k)).map (l.take k :: ·) else none)
        l.length

/-- The longest match at the beginning of `l`, and what stands behind it. -/
def matchPrefix (ps : List (Piece α)) (l : List α) : Option (List (List α) × List α) :=
  downFrom (fun k => (firstCut ps (l.take k)).map fun ws => (ws, l.drop k)) l.length

/-- The leftmost match. -/
def search (ps : List (Piece α)) : List α → Option (Match α)
  | [] => (matchPrefix ps []).map fun x => ⟨[], x.1, x.2⟩
  | a :: l =>
      match matchPrefix ps (a :: l) with
      | some x => some ⟨[], x.1, x.2⟩
      | none => (search ps l).map fun m => { m with pre := a :: m.pre }

lemma firstCut_eq_some {ps : List (Piece α)} :
    ∀ {l : List α} {ws : List (List α)}, firstCut ps l = some ws →
      Matches ps ws ∧ ws.flatten = l := by
  induction ps with
  | nil =>
      intro l ws h
      rw [firstCut] at h
      split_ifs at h with hl
      cases h
      exact ⟨.nil, (List.isEmpty_iff.mp hl).symm⟩
  | cons p ps ih =>
      intro l ws h
      obtain ⟨k, -, hk, -⟩ := downFrom_eq_some h
      split_ifs at hk with hp
      obtain ⟨ws', hws', rfl⟩ := Option.map_eq_some_iff.mp hk
      obtain ⟨hfits, hflat⟩ := ih hws'
      exact ⟨.cons hp hfits, by rw [List.flatten_cons, hflat, List.take_append_drop]⟩

/-- The first word of a cut is the beginning of the text in its length. -/
private lemma take_drop_of_cut {w l : List α} {ws : List (List α)} (h : (w :: ws).flatten = l) :
    l.take w.length = w ∧ l.drop w.length = ws.flatten := by
  rw [List.flatten_cons] at h
  rw [← h]
  exact ⟨List.take_left, List.drop_left⟩

lemma firstCut_ne_none {ps : List (Piece α)} :
    ∀ {l : List α} {ws : List (List α)}, Matches ps ws → ws.flatten = l →
      firstCut ps l ≠ none := by
  induction ps with
  | nil =>
      intro l ws hfits hl
      cases hfits
      rw [← hl, firstCut]
      simp
  | cons p ps ih =>
      intro l ws hfits hl hnone
      cases hfits with
      | @cons _ w _ ws hp hfits =>
          obtain ⟨htake, hdrop⟩ := take_drop_of_cut hl
          have hle : w.length ≤ l.length := by rw [← hl]; simp
          have hk := downFrom_eq_none_iff.mp hnone w.length hle
          rw [htake, if_pos hp, Option.map_eq_none_iff, hdrop] at hk
          exact ih hfits rfl hk

/-- No cut of the same text has longer words. -/
lemma lengths_le_firstCut {ps : List (Piece α)} :
    ∀ {l : List α} {ws ws' : List (List α)}, firstCut ps l = some ws → Matches ps ws' →
      ws'.flatten = l → ws'.map List.length ≤ ws.map List.length := by
  induction ps with
  | nil =>
      intro l ws ws' h hfits _
      cases hfits
      rw [firstCut] at h
      split_ifs at h
      cases h
      exact le_rfl
  | cons p ps ih =>
      intro l ws ws' h hfits hl
      obtain ⟨k, hkl, hk, hlater⟩ := downFrom_eq_some h
      split_ifs at hk with hp
      obtain ⟨us, hus, rfl⟩ := Option.map_eq_some_iff.mp hk
      cases hfits with
      | @cons _ w _ ws' hw hfits =>
          obtain ⟨htake, hdrop⟩ := take_drop_of_cut hl
          have hle : w.length ≤ l.length := by rw [← hl]; simp
          have hlen : (l.take k).length = k := by rw [List.length_take, min_eq_left hkl]
          rw [List.map_cons, List.map_cons, hlen]
          rcases lt_trichotomy w.length k with hlt | heq | hgt
          · exact (List.cons_lt_cons_iff.mpr (Or.inl hlt)).le
          · rw [heq] at hdrop ⊢
            exact cons_lengths_le _ (ih hus hfits hdrop.symm)
          · -- a longer first word would have been tried first
            have hnone := hlater w.length hgt hle
            rw [htake, if_pos hw, Option.map_eq_none_iff, hdrop] at hnone
            exact absurd hnone (firstCut_ne_none hfits rfl)

/-- The longest match at the beginning of a text. -/
lemma matchPrefix_eq_some {ps : List (Piece α)} {l post : List α} {ws : List (List α)}
    (h : matchPrefix ps l = some (ws, post)) :
    l = ws.flatten ++ post ∧ Matches ps ws ∧
      (∀ ws' post', l = ws'.flatten ++ post' → Matches ps ws' →
        ws'.flatten.length ≤ ws.flatten.length) ∧
      ∀ ws' post', l = ws'.flatten ++ post' → Matches ps ws' →
        ws'.flatten.length = ws.flatten.length →
          ws'.map List.length ≤ ws.map List.length := by
  obtain ⟨k, hkl, hk, hlater⟩ := downFrom_eq_some h
  obtain ⟨us, hus, hpair⟩ := Option.map_eq_some_iff.mp hk
  cases hpair
  obtain ⟨hfits, hflat⟩ := firstCut_eq_some hus
  have hlen : ws.flatten.length = k := by rw [hflat, List.length_take, min_eq_left hkl]
  refine ⟨by rw [hflat, List.take_append_drop], hfits, ?_, ?_⟩
  · intro ws' post' hl hfits'
    rw [hlen]
    refine not_lt.mp fun hlt => ?_
    have hnone := hlater ws'.flatten.length hlt (by rw [hl]; simp)
    rw [Option.map_eq_none_iff] at hnone
    exact firstCut_ne_none hfits' (by rw [hl, List.take_left]) hnone
  · intro ws' post' hl hfits' heq
    refine lengths_le_firstCut hus hfits' ?_
    rw [← hlen, ← heq, hl, List.take_left]

lemma matchPrefix_ne_none {ps : List (Piece α)} {l post : List α} {ws : List (List α)}
    (hl : l = ws.flatten ++ post) (hfits : Matches ps ws) : matchPrefix ps l ≠ none := by
  intro hnone
  have h := downFrom_eq_none_iff.mp hnone ws.flatten.length (by rw [hl]; simp)
  rw [Option.map_eq_none_iff] at h
  exact firstCut_ne_none hfits (by rw [hl, List.take_left]) h

/-- A match behind the first symbol is one of the text without it. -/
lemma Occurs.tail {ps : List (Piece α)} {a x : α} {l pre post : List α} {ws : List (List α)}
    (h : Occurs ps (a :: l) ⟨x :: pre, ws, post⟩) : Occurs ps l ⟨pre, ws, post⟩ :=
  ⟨(List.cons_eq_cons.mp h.text).2, h.fits⟩

lemma Occurs.cons {ps : List (Piece α)} {l : List α} {m : Match α} (a : α) (h : Occurs ps l m) :
    Occurs ps (a :: l) { m with pre := a :: m.pre } :=
  ⟨by rw [h.text]; rfl, h.fits⟩

/-- The longest match at the beginning of a text is the one that POSIX prescribes. -/
lemma posix_of_matchPrefix {ps : List (Piece α)} {l post : List α} {ws : List (List α)}
    (h : matchPrefix ps l = some (ws, post)) : Posix ps l ⟨[], ws, post⟩ := by
  obtain ⟨hl, hfits, hlongest, hcut⟩ := matchPrefix_eq_some h
  refine ⟨⟨hl, hfits⟩, fun m' _ => Nat.zero_le _, ?_, ?_⟩
  · intro m' h' hpre
    have htext := h'.text
    rw [List.length_eq_zero_iff.mp hpre, List.nil_append] at htext
    exact hlongest m'.words m'.post htext h'.fits
  · intro m' h' hpre hlen
    have htext := h'.text
    rw [List.length_eq_zero_iff.mp hpre, List.nil_append] at htext
    exact hcut m'.words m'.post htext h'.fits hlen

/-- Without a match at its beginning, a text has the match of the text without its first symbol. -/
lemma Posix.cons {ps : List (Piece α)} {a : α} {l : List α} {m : Match α}
    (hnone : matchPrefix ps (a :: l) = none) (h : Posix ps l m) :
    Posix ps (a :: l) { m with pre := a :: m.pre } := by
  -- no match starts at the beginning
  have htail : ∀ m', Occurs ps (a :: l) m' →
      ∃ pre', m'.pre.length = pre'.length + 1 ∧ Occurs ps l ⟨pre', m'.words, m'.post⟩ := by
    intro m' h'
    obtain ⟨pre', words', post'⟩ := m'
    cases pre' with
    | nil => exact absurd hnone (matchPrefix_ne_none h'.text h'.fits)
    | cons x pre' => exact ⟨pre', rfl, h'.tail⟩
  refine ⟨h.occurs.cons a, ?_, ?_, ?_⟩
  · intro m' h'
    obtain ⟨pre', hlen, hocc⟩ := htail m' h'
    have := h.leftmost _ hocc
    simp only [List.length_cons] at this ⊢
    omega
  · intro m' h' hpre
    obtain ⟨pre', hlen, hocc⟩ := htail m' h'
    simp only [List.length_cons] at hpre
    exact h.longest ⟨pre', m'.words, m'.post⟩ hocc (by simp only; omega)
  · intro m' h' hpre
    obtain ⟨pre', hlen, hocc⟩ := htail m' h'
    simp only [List.length_cons] at hpre
    exact h.cut ⟨pre', m'.words, m'.post⟩ hocc (by simp only; omega)

/-- What the search finds is the match that POSIX prescribes. -/
lemma posix_of_search {ps : List (Piece α)} :
    ∀ {l : List α} {m : Match α}, search ps l = some m → Posix ps l m := by
  intro l
  induction l with
  | nil =>
      intro m h
      obtain ⟨x, hx, rfl⟩ := Option.map_eq_some_iff.mp h
      exact posix_of_matchPrefix hx
  | cons a l ih =>
      intro m h
      rw [search] at h
      split at h
      · rename_i x hx
        cases h
        exact posix_of_matchPrefix hx
      · rename_i hnone
        obtain ⟨m', hm', rfl⟩ := Option.map_eq_some_iff.mp h
        exact (ih hm').cons hnone

/-- **The search fails** exactly when the pattern matches nowhere. -/
theorem search_eq_none_iff {ps : List (Piece α)} {l : List α} :
    search ps l = none ↔ ∀ m, ¬ Occurs ps l m := by
  constructor
  · intro h
    induction l with
    | nil =>
        intro m hm
        rw [search, Option.map_eq_none_iff] at h
        obtain ⟨hwords, -⟩ := List.append_eq_nil_iff.mp hm.text.symm
        obtain ⟨-, hflat⟩ := List.append_eq_nil_iff.mp hwords
        have htext : ([] : List α) = m.words.flatten ++ [] := by rw [hflat, List.append_nil]
        exact matchPrefix_ne_none htext hm.fits h
    | cons a l ih =>
        intro m hm
        rw [search] at h
        split at h
        · cases h
        · rename_i hnone
          obtain ⟨pre, ws, post⟩ := m
          cases pre with
          | nil => exact matchPrefix_ne_none hm.text hm.fits hnone
          | cons x pre => exact ih (Option.map_eq_none_iff.mp h) _ hm.tail
  · intro h
    cases hsearch : search ps l with
    | none => rfl
    | some m => exact absurd (posix_of_search hsearch).occurs (h m)

/-- **The search finds** the match that POSIX prescribes. -/
theorem search_eq_some_iff {ps : List (Piece α)} {l : List α} {m : Match α} :
    search ps l = some m ↔ Posix ps l m := by
  refine ⟨posix_of_search, fun h => ?_⟩
  cases hsearch : search ps l with
  | none => exact absurd h.occurs (search_eq_none_iff.mp hsearch m)
  | some m' => rw [h.unique (posix_of_search hsearch)]

end ColumnDb
