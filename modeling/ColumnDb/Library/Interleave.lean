import Mathlib.Tactic

/-!
Two workers on one shared state.

A worker's program says what its next operation is and what it does to the worker and to the
shared state, `none` when it is finished. An interleaving takes one operation of either worker
after the other and records them in a log.

* `Interleaved`: the interleavings of two programs, with their logs; a schedule, a list of
  workers, gives one (`Interleaved.of_schedule`).
* `Before log x y`: at some time `x` had happened and `y` had not.
* `before_concat`: what one more operation changes of this; `before_concat_of_mem`,
  `before_concat_self` and `before_concat_of_ne` are its cases.
-/

namespace ColumnDb

/-- The two workers. -/
inductive Worker where
  | first
  | second
  deriving DecidableEq

/-- The other worker. -/
def Worker.other : Worker → Worker
  | .first => .second
  | .second => .first

@[simp] lemma Worker.other_other (w : Worker) : w.other.other = w := by cases w <;> rfl

@[simp] lemma Worker.other_ne (w : Worker) : w.other ≠ w := by cases w <;> simp [Worker.other]

@[simp] lemma Worker.ne_other (w : Worker) : w ≠ w.other := w.other_ne.symm

/-- A worker is one of any two. -/
lemma Worker.eq_or_eq_other (u w : Worker) : u = w ∨ u = w.other := by
  cases u <;> cases w <;> simp [Worker.other]

lemma Worker.forall_iff {P : Worker → Prop} (w : Worker) : (∀ u, P u) ↔ P w ∧ P w.other := by
  refine ⟨fun h => ⟨h w, h w.other⟩, fun h u => ?_⟩
  rcases Worker.eq_or_eq_other u w with rfl | rfl
  · exact h.1
  · exact h.2

/-! ### The order of operations -/

section Before

variable {ε : Type} {log : List ε} {x y z : ε}

/-- At some time of the log, `x` had happened and `y` had not. -/
def Before (log : List ε) (x y : ε) : Prop := ∃ l l', log = l ++ l' ∧ x ∈ l ∧ y ∉ l

lemma before_of_mem (hx : x ∈ log) (hy : y ∉ log) : Before log x y :=
  ⟨log, [], (List.append_nil _).symm, hx, hy⟩

lemma Before.mem (h : Before log x y) : x ∈ log := by
  obtain ⟨l, l', rfl, hx, -⟩ := h
  exact List.mem_append_left _ hx

/-- **One more operation** `z` comes before `y` if `y` has not happened, and changes nothing
between others. -/
theorem before_concat :
    Before (log ++ [z]) x y ↔ Before log x y ∨ (x = z ∧ x ≠ y ∧ y ∉ log) := by
  constructor
  · rintro ⟨l, l', hl, hx, hy⟩
    rcases List.eq_nil_or_concat l' with rfl | ⟨l'', z', rfl⟩
    · rw [List.append_nil] at hl
      subst hl
      rw [List.mem_append, List.mem_singleton, not_or] at hy
      by_cases hxlog : x ∈ log
      · exact Or.inl (before_of_mem hxlog hy.1)
      · have hxz : x = z := by simpa [hxlog] using hx
        exact Or.inr ⟨hxz, fun h => hy.2 (h ▸ hxz), hy.1⟩
    · rw [List.concat_eq_append, ← List.append_assoc] at hl
      exact Or.inl ⟨l, l'', (List.append_inj' hl rfl).1, hx, hy⟩
  · rintro (⟨l, l', rfl, hx, hy⟩ | ⟨rfl, hne, hy⟩)
    · exact ⟨l, l' ++ [z], List.append_assoc _ _ _, hx, hy⟩
    · refine before_of_mem (List.mem_append_right _ (List.mem_singleton_self _)) ?_
      rw [List.mem_append, List.mem_singleton, not_or]
      exact ⟨hy, hne.symm⟩

/-- Once `y` has happened, it is settled what came before it. -/
lemma before_concat_of_mem (hy : y ∈ log) : Before (log ++ [z]) x y ↔ Before log x y := by
  rw [before_concat]
  exact or_iff_left fun h => h.2.2 hy

/-- Everything that has happened comes before a new operation. -/
lemma before_concat_self (hne : x ≠ y) (hy : y ∉ log) : Before (log ++ [y]) x y ↔ x ∈ log := by
  rw [before_concat]
  exact ⟨fun h => (h.resolve_right fun h => hne h.1).mem, fun h => Or.inl (before_of_mem h hy)⟩

/-- An operation other than `x` puts `x` before nothing. -/
lemma before_concat_of_ne (hne : x ≠ z) : Before (log ++ [z]) x y ↔ Before log x y := by
  rw [before_concat]
  exact or_iff_left fun h => hne h.1

/-- Of two operations that have happened, one came before the other. -/
lemma before_or_before (hne : x ≠ y) (hx : x ∈ log) (hy : y ∈ log) :
    Before log x y ∨ Before log y x := by
  induction log using List.reverseRecOn with
  | nil => exact absurd hx List.not_mem_nil
  | append_singleton log z ih =>
      simp only [before_concat]
      by_cases hx' : x ∈ log
      · by_cases hy' : y ∈ log
        · exact (ih hx' hy').imp Or.inl Or.inl
        · exact Or.inl (Or.inl (before_of_mem hx' hy'))
      · by_cases hy' : y ∈ log
        · exact Or.inr (Or.inl (before_of_mem hy' hx'))
        · simp only [List.mem_append, hx', hy', List.mem_singleton, false_or] at hx hy
          exact absurd (hx.trans hy.symm) hne

end Before

/-! ### Interleavings -/

section Interleaved

variable {σ π ε : Type}

/-- The interleavings of two programs from a shared state and two starting points: the log of
the operations, the shared state and the workers they lead to. -/
inductive Interleaved (next : Worker → π → σ → Option (ε × π × σ)) (s₀ : σ) (start : Worker → π) :
    List (Worker × ε) → σ → (Worker → π) → Prop where
  | start : Interleaved next s₀ start [] s₀ start
  | step {log : List (Worker × ε)} {s s' : σ} {loc : Worker → π} {e : ε} {p : π}
      (h : Interleaved next s₀ start log s loc) (w : Worker)
      (hstep : next w (loc w) s = some (e, p, s')) :
      Interleaved next s₀ start (log ++ [(w, e)]) s' (Function.update loc w p)

variable {next : Worker → π → σ → Option (ε × π × σ)}

/-- The operation of a worker, recorded in the log. -/
def stepOf (next : Worker → π → σ → Option (ε × π × σ))
    (c : List (Worker × ε) × σ × (Worker → π)) (w : Worker) :
    Option (List (Worker × ε) × σ × (Worker → π)) :=
  (next w (c.2.2 w) c.2.1).map fun r =>
    (c.1 ++ [(w, r.1)], r.2.2, Function.update c.2.2 w r.2.1)

/-- A list of workers whose operations can be taken one after the other gives an
interleaving. -/
lemma Interleaved.of_schedule {s₀ : σ} {start : Worker → π} (schedule : List Worker) :
    ∀ {c c' : List (Worker × ε) × σ × (Worker → π)},
      Interleaved next s₀ start c.1 c.2.1 c.2.2 → schedule.foldlM (stepOf next) c = some c' →
        Interleaved next s₀ start c'.1 c'.2.1 c'.2.2 := by
  induction schedule with
  | nil =>
      intro c c' h hrun
      cases hrun
      exact h
  | cons w schedule ih =>
      intro c c' h hrun
      rw [List.foldlM_cons, Option.bind_eq_bind, Option.bind_eq_some_iff] at hrun
      obtain ⟨c₁, hstep, hrun⟩ := hrun
      obtain ⟨⟨e, p, s'⟩, hnext, rfl⟩ := Option.map_eq_some_iff.mp hstep
      exact ih (h.step w hnext) hrun

end Interleaved

end ColumnDb
