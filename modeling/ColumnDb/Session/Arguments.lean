import ColumnDb.Library.Related
import ColumnDb.Session.Parser

/-!
The buffers of the arguments (`match_regex` in `parser.c`, `db_worker` in `worker.c`).

A session has seven buffers for the groups of a match, and uses them for one command after the
other. A group that is empty clears the first bytes of its buffer only, as many as a pointer has.

* `ArgBuffers`: the buffers, with the bytes that nobody has written yet.
* `regmatches`: the offsets that `regexec` finds, and `argLoop`: the loop that copies the groups.
* `matchRegexInto_related`: whatever the buffers hold, a match that fits leaves its groups in them,
  as `matchRegex` says.
* `matchTexts_last`: after one text after the other they hold the groups of the last command.
-/

namespace ColumnDb

/-! ### The buffers -/

/-- `MAX_ARG_NUM`, the number of the buffers and of the offsets. -/
def maxArgNum : ℕ := 7

/-- `sizeof(input_args[i])`, the size of a pointer. -/
def pointerSize : ℕ := 8

/-- The character that ends a string. -/
def nul : Char := Char.ofNat 0

/-- `input_args`. A byte that nobody has written has no value. -/
structure ArgBuffers where
  bufs : List (List (Option Char))
  length_bufs : bufs.length = maxArgNum
  length_buf : ∀ buf ∈ bufs, buf.length = maxInputBytes

namespace ArgBuffers

/-- Writing characters to the beginning of a buffer. -/
def put (b : ArgBuffers) (j : ℕ) (cs : List Char) (hcs : cs.length ≤ maxInputBytes) :
    ArgBuffers where
  bufs := b.bufs.modify j fun buf => splice buf 0 (cs.map some)
  length_bufs := by rw [List.length_modify, b.length_bufs]
  length_buf := by
    intro buf hbuf
    obtain ⟨i, hi, rfl⟩ := List.mem_iff_getElem.mp hbuf
    rw [List.getElem_modify]
    have hlen := b.length_buf _ (List.getElem_mem (by rwa [List.length_modify] at hi))
    split_ifs
    · rw [length_splice (by rw [List.length_map, hlen, Nat.zero_add]; exact hcs), hlen]
    · exact hlen

/-- `memset` of the size of a pointer. -/
def clear (b : ArgBuffers) (j : ℕ) : ArgBuffers :=
  b.put j (List.replicate pointerSize nul) (by rw [List.length_replicate]; decide)

end ArgBuffers

/-- The string in a buffer, when it ends there. -/
def bufferString (buf : List (Option Char)) : Option (List Char) :=
  if some nul ∈ buf then (buf.takeWhile (· ≠ some nul)).mapM id else none

/-! ### The loop over the groups -/

/-- The offsets of the word `k` of a match. -/
def wordSpan (m : Match Char) (k : ℕ) : ℕ × ℕ :=
  let start := m.pre.length + (m.words.take k).flatten.length
  (start, start + (m.words.getD k []).length)

/-- `regmatch_t m[n_matches]`: the offsets of the match, of its groups, and `-1` for the last. -/
def regmatches (m : Match Char) : List (Option (ℕ × ℕ)) :=
  some (m.pre.length, m.pre.length + m.words.flatten.length)
    :: (groupPieces.map fun k => some (wordSpan m k)) ++ [none]

/-- A group is copied to its buffer and ended there. -/
def argTurn (text : List Char) (b : ArgBuffers) (j start finish : ℕ) : Outcome ArgBuffers :=
  if start < finish then
    if h : finish - start < maxInputBytes then
      .ok (b.put j ((text.drop start).take (finish - start) ++ [nul]) (by
        rw [List.length_append, List.length_take, List.length_singleton]
        omega))
    else .error .bounds
  else .ok (b.clear j)

/-- The loop over the offsets from `m[i]` on. The first one without a value ends it. -/
def argLoop (text : List Char) : ℕ → List (Option (ℕ × ℕ)) → ArgBuffers → Outcome ArgBuffers
  | _, [], b => .ok b
  | 0, some _ :: ms, b => argLoop text 1 ms b
  | i + 1, some (start, finish) :: ms, b => do
      argLoop text (i + 2) ms (← argTurn text b i start finish)
  | 0, none :: _, _ => .error .bounds
  | i + 1, none :: ms, b =>
      .ok ((List.range' i (ms.length + 1)).foldl ArgBuffers.clear b)

/-- `match_regex`: whether there is no match, and the buffers. -/
def matchRegexInto (text : List Char) (b : ArgBuffers) : Outcome (Bool × ArgBuffers) :=
  match search paserStr text with
  | none => .ok (true, b)
  | some m => do .ok (false, ← argLoop text 0 (regmatches m) b)

/-- The strings in the buffers are what was matched. -/
def ArgBuffers.Holds (b : ArgBuffers) (args : InputArgs) : Prop :=
  (b.bufs.take groupPieces.length).map bufferString
    = [args.var.toList, args.command.name, args.argOne.toList, args.argTwo.toList,
        args.argThree.toList].map some

/-! ### Reading a buffer -/

section Strings

variable {buf : List (Option Char)} {cs : List Char}

/-- A string that was written with its end, whatever stands behind it. -/
lemma bufferString_append (hcs : nul ∉ cs) (rest : List (Option Char)) :
    bufferString (cs.map some ++ some nul :: rest) = some cs := by
  have hbefore : ∀ x ∈ cs.map some, decide (x ≠ some nul) = true := by
    intro x hx
    obtain ⟨c, hc, rfl⟩ := List.mem_map.mp hx
    refine decide_eq_true fun heq => hcs ?_
    rwa [← Option.some.inj heq]
  have hread : (cs.map some).mapM id = some cs := by
    rw [List.mapM_map]
    exact (List.mapM_pure (m := Option) (f := id)).trans (by rw [List.map_id]; rfl)
  rw [bufferString, if_pos (by simp), List.takeWhile_append_of_pos hbefore, List.takeWhile_cons]
  simpa using hread

lemma bufferString_copied (hcs : nul ∉ cs) :
    bufferString (splice buf 0 ((cs ++ [nul]).map some)) = some cs := by
  rw [splice, List.take_zero, List.nil_append, List.map_append, List.append_assoc]
  exact bufferString_append hcs _

lemma bufferString_cleared :
    bufferString (splice buf 0 ((List.replicate pointerSize nul).map some)) = some [] := by
  rw [splice, List.take_zero, List.nil_append]
  exact @bufferString_append [] (by simp) _

end Strings

/-! ### A turn of the loop -/

/-- A change of the entry at `n` is not one of the entries before it. -/
private lemma take_modify {α : Type} (f : α → α) (l : List α) :
    ∀ n : ℕ, (l.modify n f).take n = l.take n := by
  induction l with
  | nil => simp
  | cons a l ih =>
      intro n
      cases n with
      | zero => rfl
      | succ n => rw [List.modify_succ_cons, List.take_succ_cons, List.take_succ_cons, ih]

/-- The strings in the first buffers. -/
def ArgBuffers.HoldsFirst (b : ArgBuffers) (ws : List (List Char)) : Prop :=
  (b.bufs.take ws.length).map bufferString = ws.map some

/-- Writing to the buffer behind the first ones. -/
lemma ArgBuffers.HoldsFirst.put {b : ArgBuffers} {ws : List (List Char)} (h : b.HoldsFirst ws)
    (hlen : ws.length < maxArgNum) {cs w : List Char} (hcs : cs.length ≤ maxInputBytes)
    (hw : ∀ buf, bufferString (splice buf 0 (cs.map some)) = some w) :
    (b.put ws.length cs hcs).HoldsFirst (ws ++ [w]) := by
  have hin : ws.length < b.bufs.length := by rw [b.length_bufs]; exact hlen
  have hput : (b.put ws.length cs hcs).bufs
      = b.bufs.modify ws.length fun buf => splice buf 0 (cs.map some) := rfl
  rw [HoldsFirst, hput, List.length_append, List.length_singleton, List.take_add_one,
    take_modify, List.getElem?_modify_eq, List.getElem?_eq_getElem hin,
    List.map_append, h, List.map_append]
  simp [hw]

lemma ArgBuffers.HoldsFirst.clear {b : ArgBuffers} {ws : List (List Char)} (h : b.HoldsFirst ws) :
    (b.clear ws.length).HoldsFirst ws := by
  rw [HoldsFirst]
  change ((b.bufs.modify _ _).take _).map _ = _
  rw [take_modify]
  exact h

section Groups

variable {text : List Char} {m : Match Char} {k : ℕ}

/-- The word of a piece stands at its offsets. -/
lemma take_drop_wordSpan (htext : text = m.pre ++ m.words.flatten ++ m.post)
    (hk : k < m.words.length) :
    (text.drop (wordSpan m k).1).take ((wordSpan m k).2 - (wordSpan m k).1)
      = m.words.getD k [] := by
  have hwords : m.words.flatten
      = (m.words.take k).flatten ++ (m.words.getD k [] ++ (m.words.drop (k + 1)).flatten) := by
    rw [List.getD_eq_getElem?_getD, List.getElem?_eq_getElem hk, Option.getD_some,
      ← List.flatten_cons, ← List.drop_eq_getElem_cons hk, ← List.flatten_append,
      List.take_append_drop]
  simp only [wordSpan, Nat.add_sub_cancel_left]
  rw [htext, hwords, List.append_assoc, ← List.drop_drop, List.drop_left, List.append_assoc,
    List.drop_left, List.append_assoc, List.take_left]

/-- A turn of the loop leaves the word of its group in its buffer, if it fits. -/
lemma argTurn_word (htext : text = m.pre ++ m.words.flatten ++ m.post) (hnul : nul ∉ text)
    (hk : k < m.words.length) {b : ArgBuffers} {ws : List (List Char)} (h : b.HoldsFirst ws)
    (hlen : ws.length < maxArgNum) :
    (maxInputBytes ≤ (m.words.getD k []).length ∧
        argTurn text b ws.length (wordSpan m k).1 (wordSpan m k).2 = .error .bounds) ∨
      ((m.words.getD k []).length < maxInputBytes ∧ ∃ b',
        argTurn text b ws.length (wordSpan m k).1 (wordSpan m k).2 = .ok b' ∧
        b'.HoldsFirst (ws ++ [m.words.getD k []])) := by
  have hword := take_drop_wordSpan htext hk
  have hspan : (wordSpan m k).2 - (wordSpan m k).1 = (m.words.getD k []).length := by
    simp [wordSpan]
  have hnul' : nul ∉ m.words.getD k [] := by
    rw [← hword]
    exact fun hmem => hnul (List.mem_of_mem_drop (List.mem_of_mem_take hmem))
  rw [argTurn]
  split_ifs with hlt hfits
  · rw [hspan] at hfits
    exact Or.inr ⟨hfits, _, rfl, h.put hlen _ fun buf => by
      rw [hword]
      exact bufferString_copied hnul'⟩
  · rw [hspan] at hfits
    exact Or.inl ⟨not_lt.mp hfits, rfl⟩
  · have hempty : m.words.getD k [] = [] := List.length_eq_zero_iff.mp (by omega)
    rw [hempty]
    exact Or.inr ⟨by decide, _, rfl, h.put hlen _ fun buf => bufferString_cleared⟩

/-- **The loop over the groups** leaves their words in the buffers, if all of them fit. -/
theorem argLoop_groups (htext : text = m.pre ++ m.words.flatten ++ m.post) (hnul : nul ∉ text)
    (ks : List ℕ) :
    ∀ {b : ArgBuffers} {ws : List (List Char)}, b.HoldsFirst ws → (∀ k ∈ ks, k < m.words.length) →
      ws.length + ks.length < maxArgNum →
      ((∃ k ∈ ks, maxInputBytes ≤ (m.words.getD k []).length) ∧
          argLoop text (ws.length + 1) ((ks.map fun k => some (wordSpan m k)) ++ [none]) b
            = .error .bounds) ∨
        ((∀ k ∈ ks, (m.words.getD k []).length < maxInputBytes) ∧ ∃ b',
          argLoop text (ws.length + 1) ((ks.map fun k => some (wordSpan m k)) ++ [none]) b
            = .ok b' ∧ b'.HoldsFirst (ws ++ ks.map fun k => m.words.getD k [])) := by
  induction ks with
  | nil =>
      intro b ws h _ _
      refine Or.inr ⟨by simp, _, rfl, ?_⟩
      rw [List.map_nil, List.append_nil]
      exact h.clear
  | cons k ks ih =>
      intro b ws h hks hlen
      rw [List.length_cons] at hlen
      rw [List.map_cons, List.cons_append, argLoop]
      rcases argTurn_word htext hnul (hks k List.mem_cons_self) h (by omega) with
        ⟨hlong, hturn⟩ | ⟨hfits, b', hturn, h'⟩
      · rw [hturn]
        exact Or.inl ⟨⟨k, List.mem_cons_self, hlong⟩, rfl⟩
      · have hrest := ih h' (fun k' hk' => hks k' (List.mem_cons_of_mem k hk')) (by simp; omega)
        rw [List.length_append, List.length_singleton] at hrest
        rw [hturn, Outcome.ok_bind]
        rcases hrest with ⟨⟨k', hk', hlong⟩, herror⟩ | ⟨hall, b'', hok, h''⟩
        · exact Or.inl ⟨⟨k', List.mem_cons_of_mem k hk', hlong⟩, herror⟩
        · refine Or.inr ⟨List.forall_mem_cons.mpr ⟨hfits, hall⟩, b'', hok, ?_⟩
          rw [List.append_assoc] at h''
          exact h''

end Groups

/-! ### A match -/

/-- The name of a command fits a buffer. -/
lemma Command.length_name_lt (c : Command) : c.name.length < maxInputBytes := by
  cases c <;> decide

/-- **`match_regex`**: whatever the buffers hold, it does to them what `matchRegex` says. Without a
match they stay as they are, a match that fits leaves its groups in them, and one that does not fit
writes outside of them. -/
theorem matchRegexInto_related {env : Env} (henv : env.regexec = regexec) {text : List Char}
    (hnul : nul ∉ text) (b : ArgBuffers) :
    Outcome.Related
      (fun r found => found.elim (r = (true, b)) fun args => r.1 = false ∧ r.2.Holds args)
      (matchRegexInto text b) (matchRegex env (String.ofList text)) := by
  rw [matchRegexInto, matchRegex, henv, regexec, String.toList_ofList]
  cases hsearch : search paserStr text with
  | none => exact .ok rfl
  | some m =>
      obtain ⟨htext, hfits⟩ := (search_eq_some_iff.mp hsearch).occurs
      obtain ⟨args, hargs, hlen, hgroups⟩ := groups_of_matches hfits
      have hks : ∀ k ∈ groupPieces, k < m.words.length := by
        rw [hlen]
        decide
      have hnone : b.HoldsFirst [] := rfl
      have hloop := argLoop_groups htext hnul groupPieces hnone hks (by decide)
      -- a group that is too long is one of the arguments, not the command
      have hshort : (∀ k ∈ groupPieces, (m.words.getD k []).length < maxInputBytes) ↔
          ∀ w ∈ [args.var.toList, args.command.name, args.argOne.toList, args.argTwo.toList,
            args.argThree.toList], w.length < maxInputBytes := by
        rw [← hgroups]
        simp only [List.forall_mem_map]
      simp only [List.forall_mem_cons, List.not_mem_nil, false_implies, implies_true, and_true,
        String.length_toList, args.command.length_name_lt, true_and] at hshort
      simp only [Option.bind_some, hargs]
      have hstart : argLoop text 0 (regmatches m) b
          = argLoop text 1 ((groupPieces.map fun k => some (wordSpan m k)) ++ [none]) b := rfl
      rw [hstart]
      rcases hloop with ⟨⟨k, hk, hlong⟩, herror⟩ | ⟨hall, b', hok, hholds⟩
      · rw [List.length_nil, Nat.zero_add] at herror
        rw [herror, if_pos]
        · exact .error _
        · by_contra hnot
          simp only [not_or, not_le] at hnot
          exact absurd (hshort.mpr hnot k hk) (not_lt.mpr hlong)
      · rw [List.length_nil, Nat.zero_add] at hok
        rw [hok, if_neg]
        · refine .ok ⟨rfl, ?_⟩
          rw [List.nil_append, ArgBuffers.HoldsFirst, hgroups, List.length_cons] at hholds
          exact hholds
        · have hargs' := hshort.mp hall
          rintro (h | h | h | h) <;> omega

/-- One text after the other, with the same buffers. -/
def matchTexts (b : ArgBuffers) (texts : List (List Char)) : Outcome ArgBuffers :=
  texts.foldlM (fun b text => do .ok (← matchRegexInto text b).2) b

/-- **After one text after the other** the buffers hold the groups of the last command, whatever
they held before it and whatever came behind it; without a command they are as they were. -/
theorem matchTexts_last {texts : List (List Char)} (hnul : ∀ text ∈ texts, nul ∉ text)
    {b b' : ArgBuffers} (h : matchTexts b texts = .ok b') :
    ((texts.filterMap fun text => regexec (String.ofList text)).getLast?).elim (b' = b)
      b'.Holds := by
  induction texts using List.reverseRecOn generalizing b' with
  | nil => exact (Except.ok.inj h).symm
  | append_singleton texts text ih =>
      obtain ⟨b₁, h₁, hlast⟩ := foldlM_append_ok.mp h
      have ih₁ := ih (fun t ht => hnul t (List.mem_append_left _ ht)) h₁
      rw [List.foldlM_cons] at hlast
      obtain ⟨b₂, hstep, hb₂⟩ := Outcome.bind_eq_ok.mp hlast
      cases hb₂
      obtain ⟨r, hr, hb⟩ := Outcome.bind_eq_ok.mp hstep
      cases hb
      have hrelated := @matchRegexInto_related ⟨regexec, Node.zero⟩ rfl text
        (hnul text (by simp)) b₁
      obtain ⟨found, hfound, hr'⟩ := hrelated.ok_left hr
      rw [List.filterMap_append]
      rw [matchRegex] at hfound
      cases hargs : regexec (String.ofList text) with
      | none =>
          simp only [hargs] at hfound
          cases hfound
          have hr'' : r = (true, b₁) := hr'
          simp only [hr'', List.filterMap_cons, List.filterMap_nil, hargs, List.append_nil]
          exact ih₁
      | some args =>
          simp only [hargs] at hfound
          split_ifs at hfound
          cases hfound
          simp only [List.filterMap_cons, List.filterMap_nil, hargs, List.getLast?_concat]
          exact hr'.2

/-- Buffers that nobody has written. -/
def ArgBuffers.fresh : ArgBuffers where
  bufs := List.replicate maxArgNum (List.replicate maxInputBytes none)
  length_bufs := List.length_replicate
  length_buf := fun buf hbuf => by rw [List.eq_of_mem_replicate hbuf, List.length_replicate]

/-- The texts of a command with three arguments, one with a single argument, and no command. -/
def threeTexts : List (List Char) :=
  ["u=select(a,5,7)".toList, "m=max(b)".toList, "m=max(-1)".toList]

/-- `matchTexts_last` at these texts: the arguments of the first one are gone. -/
theorem threeTexts_last : ∃ b, matchTexts .fresh threeTexts = .ok b ∧
    ((threeTexts.filterMap fun text => regexec (String.ofList text)).getLast?).elim
      (b = .fresh) b.Holds := by
  have hok : (matchTexts .fresh threeTexts).isOk = true := by decide +kernel
  cases h : matchTexts .fresh threeTexts with
  | error e =>
      rw [h] at hok
      cases hok
  | ok b => exact ⟨b, rfl, matchTexts_last (by decide) h⟩

end ColumnDb
