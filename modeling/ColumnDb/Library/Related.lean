import ColumnDb.Library.Outcome

/-!
Relating the outcomes of two computations.

`Outcome.Related R x y`: both return, with results related by `R`, or both end with the same
fault. The rule `Related.bind` follows two steps one after the other: with it a relation between
two states is carried through two runs of one program, or through the runs of two.
-/

namespace ColumnDb

namespace Outcome

variable {α β γ δ : Type}

/-- Both computations return related results, or both end with the same fault. -/
inductive Related (R : α → β → Prop) : Outcome α → Outcome β → Prop where
  | ok {a : α} {b : β} (h : R a b) : Related R (.ok a) (.ok b)
  | error (e : Fault) : Related R (.error e) (.error e)

namespace Related

variable {R : α → β → Prop} {S : γ → δ → Prop}

/-- A result of the first computation has a related result of the second. -/
lemma ok_left {x : Outcome α} {y : Outcome β} (h : Related R x y) {a : α} (hx : x = .ok a) :
    ∃ b, y = .ok b ∧ R a b := by
  subst hx
  cases h with
  | ok h => exact ⟨_, rfl, h⟩

/-- A result of the second computation has a related result of the first. -/
lemma ok_right {x : Outcome α} {y : Outcome β} (h : Related R x y) {b : β} (hy : y = .ok b) :
    ∃ a, x = .ok a ∧ R a b := by
  subst hy
  cases h with
  | ok h => exact ⟨_, rfl, h⟩

/-- A view of the results that does not tell related ones apart. -/
lemma map_eq {x : Outcome α} {y : Outcome β} {f : α → γ} {g : β → γ} (h : Related R x y)
    (hfg : ∀ a b, R a b → f a = g b) : x.map f = y.map g := by
  cases h with
  | ok h => exact congrArg Except.ok (hfg _ _ h)
  | error e => rfl

/-- **One step after the other**: related results of the first steps have to be taken to
related outcomes. -/
theorem bind {x : Outcome α} {y : Outcome β} {f : α → Outcome γ} {g : β → Outcome δ}
    (h : Related R x y) (hfg : ∀ a b, R a b → Related S (f a) (g b)) :
    Related S (x >>= f) (y >>= g) := by
  cases h with
  | ok h => exact hfg _ _ h
  | error e => exact .error e

/-- The same first step in both computations. -/
lemma bind_same {x : Outcome α} {f : α → Outcome γ} {g : α → Outcome δ}
    (hfg : ∀ a, x = .ok a → Related S (f a) (g a)) : Related S (x >>= f) (x >>= g) := by
  cases x with
  | error e => exact .error e
  | ok a => exact hfg a rfl

/-- **Two loops over one list**, whose turns take related states to related outcomes. -/
theorem foldlM {ι : Type} {f : α → ι → Outcome α} {g : β → ι → Outcome β} (l : List ι)
    (hstep : ∀ i ∈ l, ∀ a b, R a b → Related R (f a i) (g b i)) :
    ∀ {a : α} {b : β}, R a b → Related R (l.foldlM f a) (l.foldlM g b) := by
  induction l with
  | nil => exact fun h => .ok h
  | cons i l ih =>
      intro a b h
      rw [List.foldlM_cons, List.foldlM_cons]
      exact (hstep i List.mem_cons_self a b h).bind fun _ _ h' =>
        ih (fun j hj => hstep j (List.mem_cons_of_mem i hj)) h'

end Related

end Outcome

end ColumnDb
