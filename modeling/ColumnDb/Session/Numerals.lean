import ColumnDb.Session.Commands

/-!
Numbers in texts (`worker.c`, `client_helper.c`).

* `strtol_digits`: what `strtol` makes of a sign and digits, up to the first other character.
* `strtol_toString`, `intArg_toString`, `uintArg_toString`: a number that was printed is read back.
-/

namespace ColumnDb

/-- A sign that `strtol` takes, with the factor of the digits. -/
inductive Signed : List Char → ℤ → Prop where
  | none : Signed [] 1
  | minus : Signed ['-'] (-1)
  | plus : Signed ['+'] 1

/-- The value of digits as `strtol` collects it. -/
lemma foldl_digits (ds : List Char) : ∀ n : ℕ, (∀ c ∈ ds, c.isDigit = true) →
    ds.foldl (fun (n : ℤ) c => n * 10 + (c.toNat - 48)) n = Nat.ofDigitChars 10 ds n := by
  induction ds with
  | nil => exact fun n _ => rfl
  | cons c ds ih =>
      intro n hds
      have hlow : 48 ≤ c.toNat := (Char.isDigit_iff_toNat.mp (hds c List.mem_cons_self)).1
      have hstep : (n : ℤ) * 10 + ((c.toNat : ℤ) - 48) = ((10 * n + (c.toNat - 48) : ℕ) : ℤ) := by
        omega
      rw [List.foldl_cons, hstep, ih _ fun c' h' => hds c' (List.mem_cons_of_mem c h'),
        Nat.ofDigitChars_cons]
      rfl

/-- A digit is neither a space nor a sign. -/
lemma digit_cases {c : Char} (h : c.isDigit = true) : isSpace c = false ∧ c ≠ '-' ∧ c ≠ '+' := by
  have hlow : 48 ≤ c.toNat := (Char.isDigit_iff_toNat.mp h).1
  refine ⟨?_, ?_, ?_⟩
  · simp only [isSpace, decide_eq_false_iff_not]
    omega
  · rintro rfl
    exact absurd hlow (by decide)
  · rintro rfl
    exact absurd hlow (by decide)

lemma strtolSign_of_digit {c : Char} (h : c.isDigit = true) (cs : List Char) :
    strtolSign (c :: cs) = (1, c :: cs) := by
  obtain ⟨-, hminus, hplus⟩ := digit_cases h
  rw [strtolSign]
  · simpa using hminus
  · simpa using hplus

/-- **A sign and digits** are read up to the first other character. -/
theorem strtol_digits {sign ds tail : List Char} {σ : ℤ} (hsign : Signed sign σ) (hne : ds ≠ [])
    (hds : ∀ c ∈ ds, c.isDigit = true) (htail : ∀ c ∈ tail.head?, c.isDigit = false)
    (hlow : -2 ^ 63 ≤ σ * Nat.ofDigitChars 10 ds 0)
    (hhigh : σ * Nat.ofDigitChars 10 ds 0 < 2 ^ 63) :
    strtol (String.ofList (sign ++ (ds ++ tail))) = (σ * Nat.ofDigitChars 10 ds 0, true) := by
  obtain ⟨c, cs, rfl⟩ := List.exists_cons_of_ne_nil hne
  have hc := hds c List.mem_cons_self
  obtain ⟨hspace, -, -⟩ := digit_cases hc
  have hdigits : ((c :: cs) ++ tail).takeWhile Char.isDigit = c :: cs := by
    rw [List.takeWhile_append_of_pos hds]
    cases tail with
    | nil => simp
    | cons d tail =>
        have hd : ¬ d.isDigit = true := by rw [htail d rfl]; exact Bool.false_ne_true
        rw [List.takeWhile_cons_of_neg hd, List.append_nil]
  have hstart : strtolSign ((sign ++ ((c :: cs) ++ tail)).dropWhile isSpace)
      = (σ, (c :: cs) ++ tail) := by
    cases hsign with
    | none =>
        rw [List.nil_append, List.cons_append, List.dropWhile_cons_of_neg (by simp [hspace]),
          strtolSign_of_digit hc]
    | minus => rfl
    | plus => rfl
  have hvalue := foldl_digits (c :: cs) 0 hds
  rw [Nat.cast_zero] at hvalue
  rw [strtol, String.toList_ofList, hstart]
  simp only [hdigits, hvalue]
  rw [min_eq_right (by omega), max_eq_right hlow]
  rfl

/-- The digits of a number are characters of a byte. -/
lemma toDigits_range {n : ℕ} {c : Char} (h : c ∈ Nat.toDigits 10 n) :
    0 < c.toNat ∧ c.toNat < 256 := by
  have hdigit := Nat.isDigit_of_mem_toDigits (by decide) (by decide) h
  obtain ⟨hlow, hhigh⟩ := Char.isDigit_iff_toNat.mp hdigit
  change 48 ≤ c.toNat at hlow
  change c.toNat ≤ 57 at hhigh
  omega

/-- An `int` has at most ten digits. -/
lemma length_toDigits_le {n : ℕ} (h : n < 2 ^ 31) : (Nat.toDigits 10 n).length ≤ 10 :=
  (Nat.length_toDigits_le_iff (by decide) (by decide)).mpr (by omega)

/-- **A printed number** is read back. -/
theorem strtol_toString {n : ℕ} (h : n < 2 ^ 63) : strtol (toString n) = ((n : ℤ), true) := by
  have hdigits : ∀ c ∈ Nat.toDigits 10 n, c.isDigit = true := fun c hc =>
    Nat.isDigit_of_mem_toDigits (by decide) (by decide) hc
  have hvalue : (1 : ℤ) * Nat.ofDigitChars 10 (Nat.toDigits 10 n) 0 = n := by
    rw [Nat.ofDigitChars_ten_toDigits, one_mul]
  have hend : ∀ c ∈ ([] : List Char).head?, c.isDigit = false := fun c hc => by cases hc
  have hread := strtol_digits Signed.none Nat.toDigits_ne_nil hdigits hend (by rw [hvalue]; omega)
    (by rw [hvalue]; omega)
  rw [List.nil_append, List.append_nil, hvalue] at hread
  rw [Nat.toString_eq_ofList_toDigits, hread]

lemma intArg_toString {n : ℕ} (h : n < 2 ^ 31) : intArg (toString n) = n := by
  rw [intArg, strtol_toString (by omega)]
  exact toInt32_of_range ⟨by omega, by omega⟩

lemma uintArg_toString {n : ℕ} (h : n < 2 ^ 32) : uintArg (toString n) = n := by
  rw [uintArg, strtol_toString (by omega)]
  omega

end ColumnDb
