import ColumnDb.Library.Pattern
import ColumnDb.Session.Worker
import Mathlib.Data.Bool.AllAny

/-!
The pattern of a command (`PASER_STR` in `config.h`, `parser.c`).

`PASER_STR` is a sequence of pieces: a variable, `=`, one of the commands, and in parentheses three
arguments, the first two of which may be quoted. It is not anchored: what stands around a match does
not count.

* `paserStr`: its pieces. `regexec` is the match that POSIX prescribes, with its five groups.
* `occurs_paserStr_iff`: a match cuts a text at the parenthesis behind the name of a command and
  at the first closing one after it.
* `CommandLine`: the ways to write a command. `regexec_commandLine`: what is written is read back.
* `regexec_eq_none_of_inner`: a text with a symbol that no argument may have, a minus sign for
  instance, is not a command.
-/

namespace ColumnDb

/-! ### The pieces of the pattern -/

/-- `[A-z0-9]`, which has the six symbols between `Z` and `a` as well. -/
def isWordChar (c : Char) : Bool := 65 ≤ c.toNat ∧ c.toNat ≤ 122 ∨ 48 ≤ c.toNat ∧ c.toNat ≤ 57

/-- `[A-z0-9,_]` -/
def isVarChar (c : Char) : Bool := isWordChar c ∨ c = ',' ∨ c = '_'

/-- `[A-z0-9_]` -/
def isArgOneChar (c : Char) : Bool := isWordChar c ∨ c = '_'

/-- `[A-z0-9+_]` -/
def isArgTwoChar (c : Char) : Bool := isWordChar c ∨ c = '+' ∨ c = '_'

/-- The alternatives for the command, in the order of the pattern. -/
def Command.all : List Command :=
  [.max, .min, .avg, .sum, .count, .sub, .add, .div, .mul, .hashjoin, .loopjoin, .sortjoin,
    .treejoin, .select, .fetch, .create, .load, .insert, .delete, .update, .tuple]

/-- The name of a command. -/
def Command.name : Command → List Char
  | .max => ['m', 'a', 'x']
  | .min => ['m', 'i', 'n']
  | .avg => ['a', 'v', 'g']
  | .sum => ['s', 'u', 'm']
  | .count => ['c', 'o', 'u', 'n', 't']
  | .sub => ['s', 'u', 'b']
  | .add => ['a', 'd', 'd']
  | .div => ['d', 'i', 'v']
  | .mul => ['m', 'u', 'l']
  | .hashjoin => ['h', 'a', 's', 'h', 'j', 'o', 'i', 'n']
  | .loopjoin => ['l', 'o', 'o', 'p', 'j', 'o', 'i', 'n']
  | .sortjoin => ['s', 'o', 'r', 't', 'j', 'o', 'i', 'n']
  | .treejoin => ['t', 'r', 'e', 'e', 'j', 'o', 'i', 'n']
  | .select => ['s', 'e', 'l', 'e', 'c', 't']
  | .fetch => ['f', 'e', 't', 'c', 'h']
  | .create => ['c', 'r', 'e', 'a', 't', 'e']
  | .load => ['l', 'o', 'a', 'd']
  | .insert => ['i', 'n', 's', 'e', 'r', 't']
  | .delete => ['d', 'e', 'l', 'e', 't', 'e']
  | .update => ['u', 'p', 'd', 'a', 't', 'e']
  | .tuple => ['t', 'u', 'p', 'l', 'e']

/-- What stands between the parentheses: `\"?([A-z0-9_]*)\"?,?\"?([A-z0-9+_]*)\"?,?([A-z0-9]*)`. -/
def innerPieces : List (Piece Char) :=
  [.opt '"', .many isArgOneChar, .opt '"', .opt ',', .opt '"', .many isArgTwoChar, .opt '"',
    .opt ',', .many isWordChar]

/-- `PASER_STR`. -/
def paserStr : List (Piece Char) :=
  [.many isVarChar, .opt '=', .oneOf (Command.all.map Command.name), .sym '('] ++ innerPieces ++
    [.sym ')']

/-- The groups of a match: the variable, the command and the arguments. -/
def groups : List (List Char) → Option InputArgs
  | [var, _, command, _, _, argOne, _, _, _, argTwo, _, _, argThree, _] =>
      (Command.all.find? fun c => c.name = command).map fun c =>
        { var := String.ofList var
          command := c
          argOne := String.ofList argOne
          argTwo := String.ofList argTwo
          argThree := String.ofList argThree }
  | _ => none

/-- `regexec` with `PASER_STR`. -/
def regexec (text : String) : Option InputArgs :=
  (search paserStr text.toList).bind fun m => groups m.words

/-! ### The names of the commands -/

lemma Command.mem_all (c : Command) : c ∈ Command.all := by cases c <;> decide

/-- No name of a command ends with another one. -/
lemma Command.eq_of_suffix {c c' : Command} (h : c.name <:+ c'.name) : c = c' := by
  revert h
  cases c <;> cases c' <;> decide

lemma Command.find_name (c : Command) :
    (Command.all.find? fun c' => decide (c'.name = c.name)) = some c := by
  cases c <;> decide

/-- The symbols of a name are neither `=` nor a parenthesis. -/
lemma Command.name_chars (c : Command) : ∀ x ∈ c.name, x ≠ '=' ∧ x ≠ '(' ∧ x ≠ ')' :=
  List.all_iff_forall_prop.mp (by cases c <;> decide)

lemma Command.oneOf_name (c : Command) :
    Piece.oneOf (Command.all.map Command.name) c.name = true := by
  rw [Piece.oneOf, List.contains_iff_mem]
  exact List.mem_map_of_mem c.mem_all

lemma Command.exists_of_oneOf {w : List Char}
    (h : Piece.oneOf (Command.all.map Command.name) w = true) :
    ∃ c : Command, c.name = w := by
  rw [Piece.oneOf, List.contains_iff_mem, List.mem_map] at h
  obtain ⟨c, -, hc⟩ := h
  exact ⟨c, hc⟩

/-! ### The words of a match -/

/-- A symbol that may stand between the parentheses. -/
def isInnerChar (c : Char) : Bool := isArgTwoChar c ∨ c = '"' ∨ c = ','

lemma not_varChar_open {w : List Char} (h : w.all isVarChar = true) : '(' ∉ w := fun hmem =>
  absurd (List.all_eq_true.mp h _ hmem) (by decide)

/-- What stands between the parentheses consists of the symbols of arguments. -/
lemma inner_chars {ws : List (List Char)} (h : Matches innerPieces ws) :
    ∀ x ∈ ws.flatten, isInnerChar x = true := by
  have hone : ∀ c, isArgOneChar c = true → isInnerChar c = true := by
    intro c hc
    simp only [isArgOneChar, isInnerChar, isArgTwoChar, decide_eq_true_eq, Bool.decide_or,
      Bool.or_eq_true] at hc ⊢
    tauto
  have hword : ∀ c, isWordChar c = true → isInnerChar c = true := fun c hc =>
    hone c (by rw [isArgOneChar, hc]; rfl)
  have htwo : ∀ c, isArgTwoChar c = true → isInnerChar c = true := fun c hc => by
    rw [isInnerChar, hc]
    rfl
  have hopt : ∀ a : Char, isInnerChar a = true → ∀ w, Piece.opt a w = true →
      ∀ x ∈ w, isInnerChar x = true := by
    intro a ha w hw x hx
    rw [Piece.opt, Bool.or_eq_true, decide_eq_true_eq, decide_eq_true_eq] at hw
    rcases hw with rfl | rfl
    · simp at hx
    · rwa [List.mem_singleton.mp hx]
  have hmany : ∀ q : Char → Bool, (∀ c, q c = true → isInnerChar c = true) →
      ∀ w, Piece.many q w = true → ∀ x ∈ w, isInnerChar x = true :=
    fun q hq w hw x hx => hq x (List.all_eq_true.mp hw x hx)
  refine h.forall_flatten ?_
  simp only [innerPieces, List.forall_mem_cons, List.not_mem_nil, false_implies, implies_true,
    and_true]
  exact ⟨hopt _ (by decide), hmany _ hone, hopt _ (by decide), hopt _ (by decide),
    hopt _ (by decide), hmany _ htwo, hopt _ (by decide), hopt _ (by decide), hmany _ hword⟩

/-- The words of a match of `PASER_STR`. -/
lemma matches_paserStr_iff {words : List (List Char)} :
    Matches paserStr words ↔ ∃ var assign, ∃ c : Command, ∃ ws,
      words = var :: assign :: c.name :: ['('] :: (ws ++ [[')']]) ∧ var.all isVarChar = true ∧
      (assign = [] ∨ assign = ['=']) ∧ Matches innerPieces ws := by
  have hopt : ∀ w, Piece.opt '=' w = true ↔ w = [] ∨ w = ['='] := fun w => by
    rw [Piece.opt, Bool.or_eq_true, decide_eq_true_eq, decide_eq_true_eq]
  have hsym : ∀ (a : Char) (w : List Char), Piece.sym a w = true ↔ w = [a] := fun a w => by
    rw [Piece.sym, decide_eq_true_eq]
  constructor
  · intro h
    obtain ⟨us, vs, rfl, hus, hvs⟩ := matches_append_iff.mp h
    obtain ⟨heads, ws, rfl, hheads, hws⟩ := matches_append_iff.mp hus
    obtain ⟨var, l₁, hvar, h₁, rfl⟩ := List.forall₂_cons_left_iff.mp hheads
    obtain ⟨assign, l₂, hassign, h₂, rfl⟩ := List.forall₂_cons_left_iff.mp h₁
    obtain ⟨command, l₃, hcommand, h₃, rfl⟩ := List.forall₂_cons_left_iff.mp h₂
    obtain ⟨opening, l₄, hopening, h₄, rfl⟩ := List.forall₂_cons_left_iff.mp h₃
    obtain ⟨closing, l₅, hclosing, h₅, rfl⟩ := List.forall₂_cons_left_iff.mp hvs
    cases h₄
    cases h₅
    obtain ⟨c, rfl⟩ := Command.exists_of_oneOf hcommand
    rw [(hsym _ _).mp hopening, (hsym _ _).mp hclosing]
    exact ⟨var, assign, c, ws, rfl, hvar, (hopt _).mp hassign, hws⟩
  · rintro ⟨var, assign, c, ws, rfl, hvar, hassign, hws⟩
    refine matches_append_iff.mpr ⟨_, [[')']], rfl, matches_append_iff.mpr
      ⟨[var, assign, c.name, ['(']], ws, rfl, ?_, hws⟩, .cons ((hsym _ _).mpr rfl) .nil⟩
    exact .cons hvar (.cons ((hopt _).mpr hassign) (.cons c.oneOf_name
      (.cons ((hsym _ _).mpr rfl) .nil)))

/-! ### The match of a command -/

section Match

variable {pre var assign post pre' var' assign' post' : List Char} {c c' : Command}
  {ws ws' : List (List Char)}

/-- What stands in front of the opening parenthesis can be read in one way: the name of the command
is the end of it, and the variable has no `=`. -/
lemma head_inj (hvar : var.all isVarChar = true) (hvar' : var'.all isVarChar = true)
    (hassign : assign = [] ∨ assign = ['=']) (hassign' : assign' = [] ∨ assign' = ['='])
    (hend : ∀ x, pre.getLast? = some x → isVarChar x = false ∧ x ≠ '=')
    (hpre : pre'.length ≤ pre.length)
    (h : pre ++ (var ++ assign ++ c.name) = pre' ++ (var' ++ assign' ++ c'.name)) :
    pre = pre' ∧ var = var' ∧ assign = assign' ∧ c = c' := by
  have hname : c = c' := by
    have hsuffix : c.name <:+ pre ++ (var ++ assign ++ c.name) := by
      rw [← List.append_assoc]
      exact List.suffix_append _ _
    have hsuffix' : c'.name <:+ pre ++ (var ++ assign ++ c.name) := by
      rw [h, ← List.append_assoc]
      exact List.suffix_append _ _
    rcases List.suffix_or_suffix_of_suffix hsuffix hsuffix' with hc | hc
    · exact Command.eq_of_suffix hc
    · exact (Command.eq_of_suffix hc).symm
  subst hname
  have hcancel : pre ++ var ++ assign = pre' ++ var' ++ assign' := by
    simp only [← List.append_assoc] at h
    exact List.append_cancel_right h
  -- the last symbol of a variable is not `=`
  have hlast : ∀ {p v : List Char}, v.all isVarChar = true → v ≠ [] →
      ∀ q : List Char, p ++ v ≠ q ++ ['='] := by
    intro p v hv hne q heq
    have hget : (p ++ v).getLast? = some '=' := by rw [heq, List.getLast?_concat]
    rw [List.getLast?_append_of_ne_nil _ hne] at hget
    exact absurd (List.all_eq_true.mp hv _ (List.mem_of_getLast? hget)) (by decide)
  have hbody : assign = assign' ∧ pre ++ var = pre' ++ var' := by
    rcases hassign with rfl | rfl <;> rcases hassign' with rfl | rfl
    · simpa using hcancel
    · rw [List.append_nil] at hcancel
      by_cases hne : var = []
      · subst hne
        rw [List.append_nil] at hcancel
        have hget : pre.getLast? = some '=' := by rw [hcancel, List.getLast?_concat]
        exact absurd rfl (hend _ hget).2
      · exact absurd hcancel (hlast hvar hne _)
    · rw [List.append_nil] at hcancel
      by_cases hne : var' = []
      · subst hne
        rw [List.append_nil] at hcancel
        have hlen := congrArg List.length hcancel
        simp only [List.length_append, List.length_singleton] at hlen
        omega
      · exact absurd hcancel.symm (hlast hvar' hne _)
    · exact ⟨rfl, List.append_cancel_right hcancel⟩
  obtain ⟨hassigns, hvars⟩ := hbody
  -- the variable of an earlier match would reach over the symbol in front of this one
  obtain ⟨t, hpre', hvar''⟩ : ∃ t, pre = pre' ++ t ∧ var' = t ++ var := by
    rcases List.append_eq_append_iff.mp hvars with ⟨t, hp, hv⟩ | ⟨t, hp, hv⟩
    · rw [hp, List.length_append] at hpre
      obtain rfl := List.length_eq_zero_iff.mp (show t.length = 0 by omega)
      exact ⟨[], by rw [hp, List.append_nil, List.append_nil], by rw [hv]; rfl⟩
    · exact ⟨t, hp, hv⟩
  have ht : t = [] := by
    by_contra hne
    have hget : pre.getLast? = t.getLast? := by
      rw [hpre', List.getLast?_append_of_ne_nil _ hne]
    obtain ⟨x, hx⟩ := Option.ne_none_iff_exists'.mp (mt List.getLast?_eq_none_iff.mp hne)
    have hmem : x ∈ var' := by
      rw [hvar'']
      exact List.mem_append_left _ (List.mem_of_getLast? hx)
    have hvarChar := List.all_eq_true.mp hvar' x hmem
    rw [(hend x (hget.trans hx)).1] at hvarChar
    exact Bool.false_ne_true hvarChar
  subst ht
  exact ⟨by rw [hpre', List.append_nil], by rw [hvar'']; rfl, hassigns, rfl⟩

/-- The text of a match, cut at the parentheses. -/
lemma occurs_paserStr_iff {l : List Char} {m : Match Char} :
    Occurs paserStr l m ↔ ∃ var assign, ∃ c : Command, ∃ ws,
      m.words = var :: assign :: c.name :: ['('] :: (ws ++ [[')']]) ∧ var.all isVarChar = true ∧
      (assign = [] ∨ assign = ['=']) ∧ Matches innerPieces ws ∧
      l = m.pre ++ (var ++ assign ++ c.name) ++ '(' :: (ws.flatten ++ ')' :: m.post) := by
  have htext : ∀ {var assign : List Char} {c : Command} {ws : List (List Char)},
      m.words = var :: assign :: c.name :: ['('] :: (ws ++ [[')']]) →
      m.pre ++ m.words.flatten ++ m.post
        = m.pre ++ (var ++ assign ++ c.name) ++ '(' :: (ws.flatten ++ ')' :: m.post) := by
    intro var assign c ws hwords
    rw [hwords]
    simp
  constructor
  · intro h
    obtain ⟨var, assign, c, ws, hwords, hvar, hassign, hws⟩ := matches_paserStr_iff.mp h.fits
    exact ⟨var, assign, c, ws, hwords, hvar, hassign, hws, h.text.trans (htext hwords)⟩
  · rintro ⟨var, assign, c, ws, hwords, hvar, hassign, hws, hl⟩
    exact ⟨hl.trans (htext hwords).symm,
      matches_paserStr_iff.mpr ⟨var, assign, c, ws, hwords, hvar, hassign, hws⟩⟩

/-- No parenthesis stands in front of the one that opens a match. -/
lemma open_not_mem_head (hvar : var.all isVarChar = true) (hassign : assign = [] ∨ assign = ['=']) :
    '(' ∉ var ++ assign ++ c.name := by
  rw [List.mem_append, List.mem_append]
  rintro ((h | h) | h)
  · exact not_varChar_open hvar h
  · rcases hassign with rfl | rfl <;> simp at h
  · exact absurd rfl (c.name_chars _ h).2.1

lemma close_not_mem_inner (h : Matches innerPieces ws) : ')' ∉ ws.flatten := fun hmem =>
  absurd (inner_chars h _ hmem) (by decide)

/-- A match that does not start later is this one, up to how the arguments are cut. -/
lemma match_eq (hopen : '(' ∉ pre)
    (hend : ∀ x, pre.getLast? = some x → isVarChar x = false ∧ x ≠ '=')
    (hvar : var.all isVarChar = true) (hassign : assign = [] ∨ assign = ['='])
    (hfits : Matches innerPieces ws) {m' : Match Char}
    (h : Occurs paserStr
      (pre ++ (var ++ assign ++ c.name) ++ '(' :: (ws.flatten ++ ')' :: post)) m')
    (hpre : m'.pre.length ≤ pre.length) :
    ∃ ws', m' = ⟨pre, var :: assign :: c.name :: ['('] :: (ws' ++ [[')']]), post⟩ ∧
      Matches innerPieces ws' ∧ ws'.flatten = ws.flatten := by
  obtain ⟨var', assign', c', ws', hwords, hvar', hassign', hfits', htext⟩ :=
    occurs_paserStr_iff.mp h
  have hopen' : '(' ∉ m'.pre := by
    have hin : pre <+: pre ++ (var ++ assign ++ c.name) ++ '(' :: (ws.flatten ++ ')' :: post) := by
      rw [List.append_assoc]
      exact List.prefix_append _ _
    have hin' : m'.pre <+:
        pre ++ (var ++ assign ++ c.name) ++ '(' :: (ws.flatten ++ ')' :: post) := by
      rw [htext, List.append_assoc]
      exact List.prefix_append _ _
    have hinside : m'.pre <+: pre := List.prefix_of_prefix_length_le hin' hin hpre
    exact fun hmem => hopen (hinside.subset hmem)
  have hfront : '(' ∉ pre ++ (var ++ assign ++ c.name) := by
    rw [List.mem_append, not_or]
    exact ⟨hopen, open_not_mem_head hvar hassign⟩
  have hfront' : '(' ∉ m'.pre ++ (var' ++ assign' ++ c'.name) := by
    rw [List.mem_append, not_or]
    exact ⟨hopen', open_not_mem_head hvar' hassign'⟩
  obtain ⟨hhead, hrest⟩ := eq_of_first hfront hfront' htext
  obtain ⟨hpre', rfl, rfl, rfl⟩ := head_inj hvar hvar' hassign hassign' hend hpre hhead
  obtain ⟨hinner, hpost⟩ := eq_of_first (close_not_mem_inner hfits) (close_not_mem_inner hfits')
    hrest
  refine ⟨ws', ?_, hfits', hinner.symm⟩
  cases m'
  simp only at hpre' hwords hpost
  rw [hpre', hwords, hpost]

/-- **The match of a command**, whatever stands around it: the symbol in front of it must not belong
to it, and there must be no parenthesis before. -/
theorem posix_paserStr (hopen : '(' ∉ pre)
    (hend : ∀ x, pre.getLast? = some x → isVarChar x = false ∧ x ≠ '=')
    (hvar : var.all isVarChar = true) (hassign : assign = [] ∨ assign = ['='])
    (hfits : Matches innerPieces ws)
    (hgreedy : Greedy (innerPieces ++ [Piece.sym ')']) (ws ++ [[')']])) :
    Posix paserStr (pre ++ (var ++ assign ++ c.name) ++ '(' :: (ws.flatten ++ ')' :: post))
      ⟨pre, var :: assign :: c.name :: ['('] :: (ws ++ [[')']]), post⟩ := by
  have hsame : ∀ m', Occurs paserStr
      (pre ++ (var ++ assign ++ c.name) ++ '(' :: (ws.flatten ++ ')' :: post)) m' →
      m'.pre.length ≤ pre.length →
      ∃ ws', m' = ⟨pre, var :: assign :: c.name :: ['('] :: (ws' ++ [[')']]), post⟩ ∧
        Matches innerPieces ws' ∧ ws'.flatten = ws.flatten :=
    fun m' h hpre => match_eq hopen hend hvar hassign hfits h hpre
  refine ⟨occurs_paserStr_iff.mpr ⟨var, assign, c, ws, rfl, hvar, hassign, hfits, rfl⟩, ?_, ?_, ?_⟩
  · intro m' h
    rcases le_total m'.pre.length pre.length with hpre | hpre
    · obtain ⟨ws', rfl, -⟩ := hsame m' h hpre
      exact le_rfl
    · exact hpre
  · intro m' h hpre
    obtain ⟨ws', rfl, -, hflat⟩ := hsame m' h hpre.le
    simp [hflat]
  · intro m' h hpre _
    obtain ⟨ws', rfl, hfits', hflat⟩ := hsame m' h hpre.le
    have hclose : Matches [Piece.sym ')'] [[')']] := .cons (by decide) .nil
    have htail : (ws' ++ [[')']]).map List.length ≤ (ws ++ [[')']]).map List.length :=
      hgreedy.lengths_le (matches_append_iff.mpr ⟨ws, _, rfl, hfits, hclose⟩)
        (matches_append_iff.mpr ⟨ws', _, rfl, hfits', hclose⟩) (by simp [hflat])
    simp only [List.map_cons]
    exact cons_lengths_le _ (cons_lengths_le _ (cons_lengths_le _ (cons_lengths_le _ htail)))

end Match

/-! ### Writing a command -/

/-- The symbols of an argument, and whether it is quoted. -/
structure TypedArg (p : Char → Bool) where
  quoted : Bool
  chars : List Char
  all_chars : chars.all p = true

namespace TypedArg

variable {p : Char → Bool}

/-- The quotes around an argument. -/
def mark (a : TypedArg p) : List Char := if a.quoted then ['"'] else []

/-- An argument as it is typed. -/
def text (a : TypedArg p) : List Char := a.mark ++ a.chars ++ a.mark

end TypedArg

/-- The arguments of a command as they are typed, one to three of them. -/
inductive ArgsText where
  | one (a : TypedArg isArgOneChar)
  | two (a : TypedArg isArgOneChar) (b : TypedArg isArgTwoChar)
  | three (a : TypedArg isArgOneChar) (b : TypedArg isArgTwoChar) (c : List Char)
      (hc : c.all isWordChar = true)

namespace ArgsText

/-- What stands between the parentheses. -/
def text : ArgsText → List Char
  | one a => a.text
  | two a b => a.text ++ ',' :: b.text
  | three a b c _ => a.text ++ ',' :: (b.text ++ ',' :: c)

/-- The words of the pieces between the parentheses. -/
def words : ArgsText → List (List Char)
  | one a => [a.mark, a.chars, a.mark, [], [], [], [], [], []]
  | two a b => [a.mark, a.chars, a.mark, [','], b.mark, b.chars, b.mark, [], []]
  | three a b c _ => [a.mark, a.chars, a.mark, [','], b.mark, b.chars, b.mark, [','], c]

/-- The second and the third argument are empty when they are not typed. -/
def values : ArgsText → List Char × List Char × List Char
  | one a => (a.chars, [], [])
  | two a b => (a.chars, b.chars, [])
  | three a b c _ => (a.chars, b.chars, c)

lemma flatten_words (args : ArgsText) : args.words.flatten = args.text := by
  cases args <;> simp [words, text, TypedArg.text]

lemma opt_mark {p : Char → Bool} (a : TypedArg p) : Piece.opt '"' a.mark = true := by
  rw [TypedArg.mark]
  split_ifs <;> decide

lemma matches_words (args : ArgsText) : Matches innerPieces args.words := by
  cases args with
  | one a =>
      exact .cons (opt_mark a) (.cons a.all_chars (.cons (opt_mark a) (.cons rfl (.cons rfl
        (.cons rfl (.cons rfl (.cons rfl (.cons rfl .nil))))))))
  | two a b =>
      exact .cons (opt_mark a) (.cons a.all_chars (.cons (opt_mark a) (.cons rfl
        (.cons (opt_mark b) (.cons b.all_chars (.cons (opt_mark b) (.cons rfl (.cons rfl
          .nil))))))))
  | three a b c hc =>
      exact .cons (opt_mark a) (.cons a.all_chars (.cons (opt_mark a) (.cons rfl
        (.cons (opt_mark b) (.cons b.all_chars (.cons (opt_mark b) (.cons rfl (.cons hc
          .nil))))))))

/-- The words of an argument between its quotes are greedy when what follows is neither of the
argument nor a quote. -/
lemma greedy_typed {p : Char → Bool} (a : TypedArg p) {ps : List (Piece Char)}
    {ws : List (List Char)} (hquote : p '"' = false)
    (hrest : ∀ x, ws.flatten.head? = some x → p x = false ∧ x ≠ '"') (h : Greedy ps ws) :
    Greedy (Piece.opt '"' :: Piece.many p :: Piece.opt '"' :: ps)
      (a.mark :: a.chars :: a.mark :: ws) := by
  have hfirst : ∀ x, a.chars.head? = some x → x ≠ '"' := by
    rintro x hx rfl
    have hmem := List.all_eq_true.mp a.all_chars _ (List.mem_of_head? hx)
    rw [hquote] at hmem
    exact Bool.false_ne_true hmem
  rw [TypedArg.mark]
  split_ifs with hq
  · refine .opt_one _ (.many (fun x hx => ?_) (.opt_one _ h))
    rw [List.flatten_cons, List.singleton_append, List.head?_cons, Option.some.injEq] at hx
    rwa [← hx]
  · refine .opt_none (fun hx => ?_) (.many (fun x hx => ?_) (.opt_none (fun hx => ?_) h))
    · rw [List.flatten_cons, List.flatten_cons, List.nil_append] at hx
      cases hchars : a.chars with
      | nil =>
          rw [hchars, List.nil_append] at hx
          exact (hrest _ hx).2 rfl
      | cons y ys =>
          rw [hchars, List.cons_append, List.head?_cons] at hx
          exact hfirst '"' (by rw [hchars, List.head?_cons]; exact hx) rfl
    · rw [List.flatten_cons, List.nil_append] at hx
      exact (hrest x hx).1
    · exact (hrest _ hx).2 rfl

/-- The words between the parentheses are greedy. -/
lemma greedy_words (args : ArgsText) :
    Greedy (innerPieces ++ [Piece.sym ')']) (args.words ++ [[')']]) := by
  have hclose : Greedy [Piece.sym ')'] [[')']] := by
    refine ⟨fun w' hw' _ => ?_, trivial⟩
    rw [Piece.sym, decide_eq_true_eq] at hw'
    rw [hw']
  have hlast : ∀ c : List Char, Greedy [Piece.many isWordChar, .sym ')'] [c, [')']] := fun c => by
    refine .many (fun x hx => ?_) hclose
    simp only [List.flatten_cons, List.flatten_nil, List.append_nil, List.head?_cons,
      Option.some.injEq] at hx
    rw [← hx]
    decide
  have hnone : ∀ {a : Char}, a ≠ ')' → ∀ {ps : List (Piece Char)} {ws : List (List Char)},
      ws.flatten = [')'] → Greedy ps ws → Greedy (.opt a :: ps) ([] :: ws) :=
    fun ha _ _ hws h => .opt_none (by
      rw [hws, List.head?_cons]
      exact fun heq => ha (Option.some.inj heq).symm) h
  have hhead : ∀ {q : Char → Bool} {ws : List (List Char)} {x : Char}, ws.flatten.head? = some x →
      q x = false → x ≠ '"' → ∀ y, ws.flatten.head? = some y → q y = false ∧ y ≠ '"' := by
    intro q ws x hx hq hne y hy
    obtain rfl := Option.some.inj (hx.symm.trans hy)
    exact ⟨hq, hne⟩
  cases args with
  | one a =>
      refine greedy_typed a (by decide) (hhead (x := ')') rfl (by decide) (by decide)) ?_
      refine hnone (by decide) rfl (hnone (by decide) rfl (.many (fun x hx => ?_)
        (hnone (by decide) rfl (hnone (by decide) rfl (hlast [])))))
      obtain rfl := Option.some.inj hx
      decide
  | two a b =>
      refine greedy_typed a (by decide) (hhead (x := ',') rfl (by decide) (by decide)) ?_
      refine .opt_one _ (greedy_typed b (by decide)
        (hhead (x := ')') rfl (by decide) (by decide)) ?_)
      exact hnone (by decide) rfl (hlast [])
  | three a b c hc =>
      refine greedy_typed a (by decide) (hhead (x := ',') rfl (by decide) (by decide)) ?_
      refine .opt_one _ (greedy_typed b (by decide)
        (hhead (x := ',') rfl (by decide) (by decide)) ?_)
      exact .opt_one _ (hlast c)

end ArgsText

/-- A command as it is typed. -/
structure CommandLine where
  var : List Char
  assigned : Bool
  command : Command
  args : ArgsText
  var_chars : var.all isVarChar = true

namespace CommandLine

/-- The sign behind the variable. -/
def assign (line : CommandLine) : List Char := if line.assigned then ['='] else []

/-- The text of a command. -/
def text (line : CommandLine) : List Char :=
  line.var ++ line.assign ++ line.command.name ++ '(' :: (line.args.text ++ [')'])

/-- What was typed. -/
def inputArgs (line : CommandLine) : InputArgs where
  var := String.ofList line.var
  command := line.command
  argOne := String.ofList line.args.values.1
  argTwo := String.ofList line.args.values.2.1
  argThree := String.ofList line.args.values.2.2

lemma groups_words (line : CommandLine) :
    groups (line.var :: line.assign :: line.command.name :: ['('] :: (line.args.words ++ [[')']]))
      = some line.inputArgs := by
  have hfind := line.command.find_name
  rw [inputArgs]
  cases line.args with
  | _ =>
      simp only [ArgsText.words, ArgsText.values, List.cons_append, List.nil_append, groups, hfind]
      rfl

end CommandLine

/-- The match of a command, whatever stands around it. -/
theorem CommandLine.regexec_text (line : CommandLine) {pre post : List Char} (hopen : '(' ∉ pre)
    (hend : ∀ x, pre.getLast? = some x → isVarChar x = false ∧ x ≠ '=') :
    regexec (String.ofList (pre ++ line.text ++ post)) = some line.inputArgs := by
  have hassign : line.assign = [] ∨ line.assign = ['='] := by
    rw [CommandLine.assign]
    split_ifs
    · exact Or.inr rfl
    · exact Or.inl rfl
  have htext : pre ++ line.text ++ post = pre ++ (line.var ++ line.assign ++ line.command.name) ++
      '(' :: (line.args.words.flatten ++ ')' :: post) := by
    rw [line.args.flatten_words, CommandLine.text]
    simp
  have hposix : Posix paserStr (pre ++ line.text ++ post)
      ⟨pre, line.var :: line.assign :: line.command.name :: ['('] ::
        (line.args.words ++ [[')']]), post⟩ := by
    rw [htext]
    exact posix_paserStr hopen hend line.var_chars hassign line.args.matches_words
      line.args.greedy_words
  rw [regexec, String.toList_ofList, search_eq_some_iff.mpr hposix]
  exact line.groups_words

/-- **What is typed is read back**, whatever stands around it: in front of the command no
parenthesis, and no symbol that would belong to it. -/
theorem regexec_commandLine (line : CommandLine) {pre post : List Char} (hopen : '(' ∉ pre)
    (hend : ∀ x, pre.getLast? = some x → isVarChar x = false ∧ x ≠ '=') :
    regexec (String.ofList (pre ++ line.text ++ post)) = some line.inputArgs :=
  line.regexec_text hopen hend

/-- `u=select("a",5,7)` behind a space. -/
theorem select_readBack :
    regexec (String.ofList ([' '] ++ CommandLine.text
      { var := ['u'], assigned := true, command := .select
        args := .three ⟨true, ['a'], rfl⟩ ⟨false, ['5'], rfl⟩ ['7'] rfl
        var_chars := rfl } ++ ['\n']))
      = some (CommandLine.inputArgs
        { var := ['u'], assigned := true, command := .select
          args := .three ⟨true, ['a'], rfl⟩ ⟨false, ['5'], rfl⟩ ['7'] rfl
          var_chars := rfl }) :=
  regexec_commandLine _ (by decide) fun x hx => by
    obtain rfl := Option.some.inj hx
    decide

/-! ### Texts that are not commands -/

/-- The pieces of `PASER_STR` that are groups. -/
def groupPieces : List ℕ := [0, 2, 5, 9, 12]

/-- A match has its groups. -/
lemma groups_of_matches {words : List (List Char)} (h : Matches paserStr words) :
    ∃ args, groups words = some args ∧ words.length = 14 ∧
      groupPieces.map (fun k => words.getD k [])
        = [args.var.toList, args.command.name, args.argOne.toList, args.argTwo.toList,
            args.argThree.toList] := by
  obtain ⟨var, assign, c, ws, rfl, -, -, hws⟩ := matches_paserStr_iff.mp h
  have hlen : ws.length = 9 := hws.length_eq.symm
  match ws, hlen with
  | [q₁, one, q₂, s₁, q₃, two, q₄, s₂, three], _ =>
      refine ⟨{ var := String.ofList var, command := c, argOne := String.ofList one,
                argTwo := String.ofList two, argThree := String.ofList three }, ?_, rfl, ?_⟩
      · simp only [List.cons_append, List.nil_append, groups, c.find_name]
        rfl
      · simp only [String.toList_ofList]
        rfl

/-- A text without a match in it is not a command. -/
lemma regexec_eq_none {text : String} :
    regexec text = none ↔ search paserStr text.toList = none := by
  rw [regexec]
  cases hsearch : search paserStr text.toList with
  | none => simp
  | some m =>
      obtain ⟨args, hargs, -⟩ := groups_of_matches (search_eq_some_iff.mp hsearch).occurs.fits
      simp [hargs]

/-- A text in which no name of a command is followed by arguments in parentheses. -/
lemma regexec_eq_none_of_forall {text : String} (h : ∀ pre post, ∀ c : Command, ∀ ws,
    Matches innerPieces ws → text.toList ≠ pre ++ c.name ++ '(' :: (ws.flatten ++ ')' :: post)) :
    regexec text = none := by
  rw [regexec_eq_none, search_eq_none_iff]
  intro m hm
  obtain ⟨var, assign, c, ws, -, -, -, hws, htext⟩ := occurs_paserStr_iff.mp hm
  exact h (m.pre ++ (var ++ assign)) m.post c ws hws (by rw [htext]; simp)

/-- **A text is not a command** exactly when no name of a command in it is followed by arguments in
parentheses. -/
theorem regexec_eq_none_iff {text : String} :
    regexec text = none ↔ ∀ pre post, ∀ c : Command, ∀ ws, Matches innerPieces ws →
      text.toList ≠ pre ++ c.name ++ '(' :: (ws.flatten ++ ')' :: post) := by
  refine ⟨fun h => ?_, regexec_eq_none_of_forall⟩
  rw [regexec_eq_none, search_eq_none_iff] at h
  intro pre post c ws hws htext
  exact h ⟨pre, [] :: [] :: c.name :: ['('] :: (ws ++ [[')']]), post⟩
    (occurs_paserStr_iff.mpr ⟨[], [], c, ws, rfl, rfl, Or.inl rfl, hws, htext⟩)

/-- **A symbol that no argument may have**, such as a minus sign, between the only opening
parenthesis and the first closing one: the text is not a command. -/
theorem regexec_eq_none_of_inner {head inner post : List Char} (hhead : '(' ∉ head)
    (hinner : '(' ∉ inner) (hpost : '(' ∉ post) (hclose : ')' ∉ inner) {x : Char} (hx : x ∈ inner)
    (hbad : isInnerChar x = false) :
    regexec (String.ofList (head ++ '(' :: (inner ++ ')' :: post))) = none := by
  refine regexec_eq_none_of_forall fun pre post' c ws hws htext => ?_
  rw [String.toList_ofList] at htext
  -- the parenthesis behind the name is the only one
  have hrest : '(' ∉ inner ++ ')' :: post := by simp [hinner, hpost]
  have hfront : '(' ∉ pre ++ c.name := by
    intro hmem
    obtain ⟨u, v, huv⟩ := List.append_of_mem hmem
    rw [huv, List.append_assoc, List.cons_append] at htext
    have hcount := congrArg (List.count '(') htext
    simp only [List.count_append, List.count_cons_self, List.count_eq_zero_of_not_mem hhead,
      List.count_eq_zero_of_not_mem hrest] at hcount
    omega
  obtain ⟨-, hargs⟩ := eq_of_first hhead hfront htext
  obtain ⟨rfl, -⟩ := eq_of_first hclose (close_not_mem_inner hws) hargs
  rw [inner_chars hws x hx] at hbad
  exact Bool.false_ne_true hbad.symm

end ColumnDb
