import Mathlib.Tactic

/-!
A buffer behind a mutex and a condition variable.

One producer puts entries into a shared buffer and signals; any number of consumers wait until it is
not empty, take an entry, and use it outside of the mutex. A signal wakes at least one of those who
wait, if there are any, and a consumer may wake up without a signal; it then looks again.

* `Buffer`: a buffer that counts its entries, and `Buffer.Run`: its runs without any threads.
* `Monitor`: the threads, each at a place in its loop, the buffer, and who holds the mutex.
* `Monitor.Step`: a step of one thread. `Monitor.Run`: the runs, with what arrived, was put, was
  taken, and was used up.
* `Monitor.Coherent`: who holds the mutex is where the mutex is held; so no two threads are.
* `Monitor.Attended`: as long as somebody waits, there are at least as many threads on their way to
  the buffer as it has entries. No signal is lost.
* `Run.sequential`: what the threads do to the buffer is a run of the buffer alone.
* `Run.settles`: left alone, the threads come to a stop after a bounded number of steps, and then
  the buffer is empty or every consumer is using an entry.
-/

namespace ColumnDb

/-! ### The buffer -/

/-- A buffer: entries are put into it and taken out of it. -/
structure Buffer (σ α : Type) where
  size : σ → ℕ
  put : σ → α → σ
  take : σ → α × σ
  size_put : ∀ s a, size (put s a) = size s + 1
  size_take : ∀ s, 0 < size s → size (take s).2 + 1 = size s

variable {σ α ι : Type}

/-- The runs of a buffer, whose entries are put where `C` holds, and taken when there is one. -/
inductive Buffer.Run (B : Buffer σ α) (C : σ → Prop) (s₀ : σ) : σ → List α → List α → Prop where
  | start : Buffer.Run B C s₀ s₀ [] []
  | put {s : σ} {added handed : List α} (h : Buffer.Run B C s₀ s added handed) (hC : C s) (a : α) :
      Buffer.Run B C s₀ (B.put s a) (added ++ [a]) handed
  | take {s : σ} {added handed : List α} (h : Buffer.Run B C s₀ s added handed)
      (hsome : 0 < B.size s) :
      Buffer.Run B C s₀ (B.take s).2 added (handed ++ [(B.take s).1])

/-! ### The threads -/

/-- Where the producer is: it waits for an entry to arrive, locks the mutex with it, puts it,
signals, and unlocks the mutex. -/
inductive Producer (α : Type) where
  | idle
  | locking (a : α)
  | putting (a : α)
  | signalling
  | unlocking

/-- Where a consumer is: it locks the mutex, tests whether there is an entry, waits for a signal and
wakes up, takes an entry, unlocks the mutex, and uses the entry. -/
inductive Consumer (α : Type) where
  | locking
  | testing
  | waiting
  | waking
  | taking
  | unlocking (a : α)
  | busy (a : α)

/-- Who holds the mutex. -/
inductive Holder (ι : Type) where
  | free
  | producer
  | consumer (i : ι)

/-- The shared buffer, the mutex, and the threads. -/
structure Monitor (σ α ι : Type) where
  shared : σ
  holder : Holder ι
  producer : Producer α
  consumers : ι → Consumer α

/-- What a step does, as far as it is seen from outside. -/
inductive Label (α : Type) where
  | arrive (a : α)
  | put (a : α)
  | take (a : α)
  | finish (a : α)
  | wake
  | work

/-- The step is the threads' own: nothing arrives, no use of an entry ends, and nobody wakes up
without a signal. -/
def Label.own : Label α → Bool
  | arrive _ | finish _ | wake => false
  | put _ | take _ | work => true

/-- The producer holds the mutex here. -/
def Producer.inside : Producer α → Bool
  | idle | locking _ => false
  | putting _ | signalling | unlocking => true

/-- A consumer holds the mutex here. -/
def Consumer.inside : Consumer α → Bool
  | locking | waiting | waking | busy _ => false
  | testing | taking | unlocking _ => true

/-- A consumer on its way to the buffer. -/
def Consumer.attends : Consumer α → ℕ
  | locking | testing | waking | taking => 1
  | waiting | unlocking _ | busy _ => 0

/-- A signal that is to come. -/
def Producer.signals : Producer α → ℕ
  | signalling => 1
  | idle | locking _ | putting _ | unlocking => 0

/-- The steps of a consumer up to where it stays. -/
def Consumer.todo : Consumer α → ℕ
  | locking | waking => 4
  | testing => 3
  | taking => 2
  | unlocking _ => 1
  | waiting | busy _ => 0

/-- The steps of the producer up to where it stays, with those of `n` consumers that it may wake. -/
def Producer.todo (n : ℕ) : Producer α → ℕ
  | locking _ => 4 + 4 * n
  | putting _ => 3 + 4 * n
  | signalling => 2 + 4 * n
  | unlocking => 1
  | idle => 0

/-- What the producer has in its hands. -/
def Producer.held : Producer α → List α
  | locking a | putting a => [a]
  | idle | signalling | unlocking => []

/-- What a consumer has in its hands. -/
def Consumer.held : Consumer α → Multiset α
  | unlocking a | busy a => {a}
  | locking | testing | waiting | waking | taking => 0

/-- The entries that have arrived, those that were put and taken, and those that were used up. -/
structure Trace (α : Type) where
  arrived : List α
  added : List α
  handed : List α
  finished : List α

namespace Trace

/-- Before the first step. -/
def empty : Trace α := ⟨[], [], [], []⟩

/-- A step is noted. -/
def add (t : Trace α) : Label α → Trace α
  | .arrive a => { t with arrived := t.arrived ++ [a] }
  | .put a => { t with added := t.added ++ [a] }
  | .take a => { t with handed := t.handed ++ [a] }
  | .finish a => { t with finished := t.finished ++ [a] }
  | .wake | .work => t

end Trace

namespace Monitor

variable [DecidableEq ι]

/-- A consumer goes on. -/
def move (m : Monitor σ α ι) (i : ι) (c : Consumer α) : Monitor σ α ι :=
  { m with consumers := Function.update m.consumers i c }

/-- A step of one of the threads; an entry is put where `C` holds. -/
inductive Step (B : Buffer σ α) (C : σ → Prop) (m : Monitor σ α ι) :
    Label α → Monitor σ α ι → Prop where
  | arrive (a : α) (h : m.producer = .idle) :
      Step B C m (.arrive a) { m with producer := .locking a }
  | lockProducer {a : α} (h : m.producer = .locking a) (hfree : m.holder = .free) :
      Step B C m .work { m with holder := .producer, producer := .putting a }
  | put {a : α} (h : m.producer = .putting a) (hC : C m.shared) :
      Step B C m (.put a) { m with shared := B.put m.shared a, producer := .signalling }
  | signal (woken : Finset ι) (h : m.producer = .signalling)
      (hwoken : ∀ i ∈ woken, m.consumers i = .waiting)
      (hone : (∃ i, m.consumers i = .waiting) → woken.Nonempty) :
      Step B C m .work
        { m with
          producer := .unlocking
          consumers := fun i => if i ∈ woken then .waking else m.consumers i }
  | unlockProducer (h : m.producer = .unlocking) :
      Step B C m .work { m with holder := .free, producer := .idle }
  | lock (i : ι) (h : m.consumers i = .locking) (hfree : m.holder = .free) :
      Step B C m .work { m.move i .testing with holder := .consumer i }
  | test (i : ι) (h : m.consumers i = .testing) (hsome : 0 < B.size m.shared) :
      Step B C m .work (m.move i .taking)
  | wait (i : ι) (h : m.consumers i = .testing) (hnone : B.size m.shared = 0) :
      Step B C m .work { m.move i .waiting with holder := .free }
  | wake (i : ι) (h : m.consumers i = .waiting) : Step B C m .wake (m.move i .waking)
  | relock (i : ι) (h : m.consumers i = .waking) (hfree : m.holder = .free) :
      Step B C m .work { m.move i .testing with holder := .consumer i }
  | take (i : ι) (h : m.consumers i = .taking) :
      Step B C m (.take (B.take m.shared).1)
        { m.move i (.unlocking (B.take m.shared).1) with shared := (B.take m.shared).2 }
  | unlock (i : ι) {a : α} (h : m.consumers i = .unlocking a) :
      Step B C m .work { m.move i (.busy a) with holder := .free }
  | finish (i : ι) {a : α} (h : m.consumers i = .busy a) :
      Step B C m (.finish a) (m.move i .locking)

/-- The threads before their first step. -/
def start (s₀ : σ) : Monitor σ α ι where
  shared := s₀
  holder := .free
  producer := .idle
  consumers := fun _ => .locking

/-! ### Mutual exclusion -/

/-- The mutex is held by the thread that is where it is held, and a consumer takes an entry when
there is one. -/
structure Coherent (B : Buffer σ α) (m : Monitor σ α ι) : Prop where
  producer : m.holder = .producer ↔ m.producer.inside = true
  consumer : ∀ i, m.holder = .consumer i ↔ (m.consumers i).inside = true
  taking : ∀ i, m.consumers i = .taking → 0 < B.size m.shared

omit [DecidableEq ι] in
lemma coherent_start (B : Buffer σ α) (s₀ : σ) : Coherent B (start s₀ : Monitor σ α ι) where
  producer := by simp [start, Producer.inside]
  consumer := by simp [start, Consumer.inside]
  taking := by simp [start]

omit [DecidableEq ι] in
/-- **At most one thread** is where the mutex is held. -/
theorem Coherent.exclusive {B : Buffer σ α} {m : Monitor σ α ι} (h : m.Coherent B) :
    (∀ i j, (m.consumers i).inside = true → (m.consumers j).inside = true → i = j) ∧
      ∀ i, m.producer.inside = true → (m.consumers i).inside = false := by
  constructor
  · intro i j hi hj
    have heq := ((h.consumer i).mpr hi).symm.trans ((h.consumer j).mpr hj)
    exact Holder.consumer.inj heq
  · intro i hp
    rw [← Bool.not_eq_true]
    intro hi
    have heq := (h.producer.mpr hp).symm.trans ((h.consumer i).mpr hi)
    cases heq

section Steps

variable {B : Buffer σ α} {C : σ → Prop} {m m' : Monitor σ α ι} {l : Label α} {i : ι}
  {c : Consumer α}

lemma move_self (m : Monitor σ α ι) (i : ι) (c : Consumer α) : (m.move i c).consumers i = c := by
  simp [move]

lemma move_of_ne (m : Monitor σ α ι) {i j : ι} (hj : j ≠ i) (c : Consumer α) :
    (m.move i c).consumers j = m.consumers j := by
  simp [move, Function.update_of_ne hj]

/-- A consumer goes on without the mutex changing hands. -/
lemma Coherent.stays (h : m.Coherent B) (hinside : c.inside = (m.consumers i).inside)
    (htaking : c = .taking → 0 < B.size m.shared) : (m.move i c).Coherent B where
  producer := h.producer
  consumer j := by
    by_cases hj : j = i
    · rw [hj, move_self, hinside]
      exact h.consumer i
    · rw [move_of_ne m hj]
      exact h.consumer j
  taking j hjt := by
    by_cases hj : j = i
    · rw [hj, move_self] at hjt
      exact htaking hjt
    · rw [move_of_ne m hj] at hjt
      exact h.taking j hjt

/-- A consumer gets the free mutex. -/
lemma Coherent.acquires (h : m.Coherent B) (hfree : m.holder = .free) :
    ({ m.move i .testing with holder := .consumer i } : Monitor σ α ι).Coherent B where
  producer := by
    have hp : m.producer.inside = false := by
      rw [← Bool.not_eq_true, ← h.producer, hfree]
      simp
    simp [move, hp]
  consumer j := by
    by_cases hj : j = i
    · subst hj
      simp [move, Consumer.inside]
    · have hnot : (m.consumers j).inside = false := by
        rw [← Bool.not_eq_true, ← h.consumer j, hfree]
        simp
      simp [move, Function.update_of_ne hj, hnot, Ne.symm hj]
  taking j hjt := by
    by_cases hj : j = i
    · subst hj
      simp [move] at hjt
    · exact h.taking j (by simpa [move, Function.update_of_ne hj] using hjt)

/-- A consumer gives the mutex back. -/
lemma Coherent.releases (h : m.Coherent B) (hin : (m.consumers i).inside = true)
    (hout : c.inside = false) :
    ({ m.move i c with holder := .free } : Monitor σ α ι).Coherent B where
  producer := by
    have hp : m.producer.inside = false := by
      rw [← Bool.not_eq_true, ← h.producer, (h.consumer i).mpr hin]
      simp
    simp [move, hp]
  consumer j := by
    by_cases hj : j = i
    · subst hj
      simp [move, hout]
    · have hnot : (m.consumers j).inside = false := by
        rw [← Bool.not_eq_true]
        exact fun hj' => hj (h.exclusive.1 j i hj' hin)
      simp [move, Function.update_of_ne hj, hnot]
  taking j hjt := by
    by_cases hj : j = i
    · subst hj
      have hc : c = .taking := by simpa [move] using hjt
      rw [hc] at hout
      cases hout
    · exact h.taking j (by simpa [move, Function.update_of_ne hj] using hjt)

/-- **A step** keeps the mutex with the thread that is where it is held. -/
theorem Step.coherent (hstep : Step B C m l m') (h : m.Coherent B) : m'.Coherent B := by
  have hfree_of : m.holder = .free → m.producer.inside = false ∧
      ∀ j, (m.consumers j).inside = false := by
    intro hfree
    refine ⟨?_, fun j => ?_⟩
    · rw [← Bool.not_eq_true, ← h.producer, hfree]
      simp
    · rw [← Bool.not_eq_true, ← h.consumer j, hfree]
      simp
  cases hstep with
  | arrive a hp =>
      have hnot := h.producer
      rw [hp] at hnot
      exact ⟨hnot, h.consumer, h.taking⟩
  | lockProducer hp hfree =>
      obtain ⟨-, hout⟩ := hfree_of hfree
      refine ⟨by simp [Producer.inside], fun j => ?_, h.taking⟩
      simp [hout j]
  | put hp hC =>
      have hin := h.producer
      rw [hp] at hin
      refine ⟨hin, h.consumer, fun j hj => ?_⟩
      rw [B.size_put]
      exact Nat.succ_pos _
  | signal woken hp hwoken hone =>
      have hin := h.producer
      rw [hp] at hin
      refine ⟨hin, fun j => ?_, fun j hj => ?_⟩
      · have hj := h.consumer j
        by_cases hmem : j ∈ woken
        · rw [hwoken j hmem] at hj
          simpa [hmem, Consumer.inside] using hj
        · simpa [hmem] using hj
      · by_cases hmem : j ∈ woken
        · simp [hmem] at hj
        · exact h.taking j (by simpa [hmem] using hj)
  | unlockProducer hp =>
      have hin : m.producer.inside = true := by rw [hp]; rfl
      have hout := h.exclusive.2
      refine ⟨by simp [Producer.inside], fun j => ?_, h.taking⟩
      simp [hout j hin]
  | lock i hi hfree => exact h.acquires hfree
  | test i hi hsome => exact h.stays (by rw [hi]; rfl) fun _ => hsome
  | wait i hi hnone => exact h.releases (by rw [hi]; rfl) rfl
  | wake i hi => exact h.stays (by rw [hi]; rfl) fun hc => by cases hc
  | relock i hi hfree => exact h.acquires hfree
  | take i hi =>
      have hmoved : (m.move i (.unlocking (B.take m.shared).1)).Coherent B :=
        h.stays (by rw [hi]; rfl) fun hc => by cases hc
      refine ⟨hmoved.producer, hmoved.consumer, fun j hj => ?_⟩
      -- nobody else takes an entry
      by_cases hji : j = i
      · rw [hji, move_self] at hj
        cases hj
      · rw [move_of_ne m hji] at hj
        exact absurd (h.exclusive.1 j i (by rw [hj]; rfl) (by rw [hi]; rfl)) hji
  | unlock i hi => exact h.releases (by rw [hi]; rfl) rfl
  | finish i hi => exact h.stays (by rw [hi]; rfl) fun hc => by cases hc

end Steps

/-! ### No signal is lost -/

section Attended

variable [Fintype ι]

/-- The consumers one after the other, when one of them has moved. -/
lemma sum_move {M : Type} [AddCommMonoid M] (f : Consumer α → M) (m : Monitor σ α ι) (i : ι)
    (c : Consumer α) :
    ∑ j, f ((m.move i c).consumers j) + f (m.consumers i) = ∑ j, f (m.consumers j) + f c := by
  have hsame : ∑ j ∈ Finset.univ.erase i, f ((m.move i c).consumers j)
      = ∑ j ∈ Finset.univ.erase i, f (m.consumers j) :=
    Finset.sum_congr rfl fun j hj => by rw [move_of_ne m (Finset.ne_of_mem_erase hj)]
  rw [← Finset.add_sum_erase _ _ (Finset.mem_univ i), hsame, move_self,
    ← Finset.add_sum_erase Finset.univ (fun j => f (m.consumers j)) (Finset.mem_univ i)]
  abel

/-- As long as somebody waits, every entry has a consumer on its way to it or a signal to come. -/
def Attended (B : Buffer σ α) (m : Monitor σ α ι) : Prop :=
  (∃ i, m.consumers i = .waiting) →
    B.size m.shared ≤ ∑ i, (m.consumers i).attends + m.producer.signals

variable {B : Buffer σ α} {C : σ → Prop} {m m' : Monitor σ α ι} {l : Label α}

omit [Fintype ι] in
/-- Whoever waits after another consumer has moved on has waited before. -/
lemma waits_of_move {i : ι} {c : Consumer α} (hc : c ≠ .waiting)
    (h : ∃ j, (m.move i c).consumers j = .waiting) : ∃ j, m.consumers j = .waiting := by
  obtain ⟨j, hj⟩ := h
  by_cases hji : j = i
  · rw [hji, move_self] at hj
    exact absurd hj hc
  · exact ⟨j, by rwa [move_of_ne m hji] at hj⟩

/-- A consumer that does not wait moves on, and takes no more than it was on its way to. -/
lemma Attended.moves (h : m.Attended B) {i : ι} {c : Consumer α}
    (hconsumers : m'.consumers = (m.move i c).consumers) (hproducer : m'.producer = m.producer)
    (hc : c ≠ .waiting)
    (hle : B.size m'.shared + (m.consumers i).attends ≤ B.size m.shared + c.attends) :
    m'.Attended B := by
  intro hwaits
  rw [hconsumers] at hwaits
  have hbefore := h (waits_of_move hc hwaits)
  have hsum := sum_move Consumer.attends m i c
  rw [hconsumers, hproducer]
  omega

/-- **A step** loses no signal. -/
theorem Step.attended (hstep : Step B C m l m') (hm : m.Coherent B) (h : m.Attended B) :
    m'.Attended B := by
  cases hstep with
  | arrive a hp | lockProducer hp hfree | unlockProducer hp =>
      intro hwaits
      have hle := h hwaits
      rw [hp] at hle
      exact hle
  | put hp hC =>
      intro hwaits
      have hle := h hwaits
      rw [hp] at hle
      change B.size (B.put m.shared _) ≤ _ + 1
      rw [B.size_put]
      exact Nat.succ_le_succ hle
  | signal woken hp hwoken hone =>
      intro hwaits
      obtain ⟨j, hj⟩ := hwaits
      have hbefore : ∃ i, m.consumers i = .waiting := by
        by_cases hmem : j ∈ woken
        · simp [hmem] at hj
        · exact ⟨j, by simpa [hmem] using hj⟩
      have hle := h hbefore
      rw [hp] at hle
      obtain ⟨i, hi⟩ := hone hbefore
      -- the consumer that was woken takes the place of the signal
      have hless : ∑ j, (m.consumers j).attends
          < ∑ j, (if j ∈ woken then Consumer.waking else m.consumers j).attends := by
        refine Finset.sum_lt_sum (fun k _ => ?_) ⟨i, Finset.mem_univ i, ?_⟩
        · by_cases hk : k ∈ woken
          · rw [hwoken k hk]
            exact Nat.zero_le _
          · rw [if_neg hk]
        · rw [hwoken i hi, if_pos hi]
          exact Nat.zero_lt_one
      exact hle.trans hless
  | wait i hi hnone =>
      intro _
      change B.size m.shared ≤ _
      rw [hnone]
      exact Nat.zero_le _
  | lock i hi hfree | relock i hi hfree | test i hi hsome | wake i hi | unlock i hi
  | finish i hi =>
      refine h.moves rfl rfl (by simp) ?_
      rw [hi]
      exact Nat.add_le_add_left (by simp [Consumer.attends]) _
  | take i hi =>
      refine h.moves rfl rfl (by simp) ?_
      rw [hi]
      exact (B.size_take m.shared (hm.taking i hi)).le

/-! ### Coming to a stop -/

/-- The steps that the threads have left before they stay where they are. -/
def todo (m : Monitor σ α ι) : ℕ :=
  ∑ i, (m.consumers i).todo + m.producer.todo (Fintype.card ι)

lemma todo_move (m : Monitor σ α ι) (i : ι) (c : Consumer α) :
    (m.move i c).todo + (m.consumers i).todo = m.todo + c.todo := by
  have hsum := sum_move Consumer.todo m i c
  simp only [todo]
  change _ + Producer.todo _ m.producer + _ = _
  omega

/-- A consumer that moves on has less left to do. -/
lemma todo_lt_of_move {i : ι} {c : Consumer α} (hconsumers : m'.consumers = (m.move i c).consumers)
    (hproducer : m'.producer = m.producer) (hlt : c.todo < (m.consumers i).todo) :
    m'.todo < m.todo := by
  have hmove := todo_move m i c
  have hsame : m'.todo = (m.move i c).todo := by
    rw [todo, todo, hconsumers, hproducer]
    rfl
  omega

/-- **A step of their own** gets the threads on. -/
theorem Step.todo_lt (hstep : Step B C m l m') (hown : l.own = true) : m'.todo < m.todo := by
  cases hstep with
  | arrive | wake | finish => cases hown
  | lockProducer hp | put hp | unlockProducer hp =>
      rw [todo, todo, hp]
      exact Nat.add_lt_add_left (by simp only [Producer.todo]; omega) _
  | signal woken hp hwoken hone =>
      have hsum : ∑ i, (if i ∈ woken then Consumer.waking else m.consumers i).todo
          ≤ ∑ i, ((m.consumers i).todo + 4) := by
        refine Finset.sum_le_sum fun i _ => ?_
        split_ifs
        · exact Nat.le_add_left _ _
        · exact Nat.le_add_right _ _
      rw [Finset.sum_add_distrib, Finset.sum_const, Finset.card_univ, smul_eq_mul] at hsum
      rw [todo, todo, hp]
      simp only [Producer.todo]
      omega
  | lock i hi | relock i hi | test i hi | wait i hi | take i hi | unlock i hi =>
      refine todo_lt_of_move rfl rfl ?_
      rw [hi]
      simp only [Consumer.todo]
      omega

/-- The producer waits for an entry to arrive, and every consumer waits or is using an entry. When
one of them waits, the buffer is empty. -/
structure Settled (B : Buffer σ α) (m : Monitor σ α ι) : Prop where
  producer : m.producer = .idle
  holder : m.holder = .free
  consumers : ∀ i, m.consumers i = .waiting ∨ ∃ a, m.consumers i = .busy a
  buffer : B.size m.shared = 0 ∨ ∀ i, ∃ a, m.consumers i = .busy a

/-- **Where the threads stay** when none of them has a step of its own. -/
theorem settled_of_stuck (hm : m.Coherent B) (h : m.Attended B)
    (hstuck : ∀ l m', Step B (fun _ => True) m l m' → l.own = false) : m.Settled B := by
  have hout : ∀ i, (m.consumers i).inside = false := by
    intro i
    cases hi : m.consumers i with
    | testing =>
        rcases Nat.eq_zero_or_pos (B.size m.shared) with hnone | hsome
        · cases hstuck _ _ (.wait i hi hnone)
        · cases hstuck _ _ (.test i hi hsome)
    | taking => cases hstuck _ _ (.take i hi)
    | unlocking a => cases hstuck _ _ (.unlock i hi)
    | _ => rfl
  have hsignal : m.producer ≠ .signalling := by
    intro hp
    by_cases hwaits : ∃ i, m.consumers i = .waiting
    · obtain ⟨i, hi⟩ := hwaits
      cases hstuck _ _ (.signal {i} hp (by simpa using hi) fun _ => ⟨i, by simp⟩)
    · cases hstuck _ _ (.signal ∅ hp (by simp) fun h => absurd h hwaits)
  have hfree : m.holder = .free := by
    cases hh : m.holder with
    | free => rfl
    | producer =>
        have hin := hm.producer.mp hh
        cases hp : m.producer with
        | putting a => cases hstuck _ _ (.put hp trivial)
        | unlocking => cases hstuck _ _ (.unlockProducer hp)
        | signalling => exact absurd hp hsignal
        | _ => rw [hp] at hin; cases hin
    | consumer i =>
        have hin := (hm.consumer i).mp hh
        rw [hout i] at hin
        cases hin
  have hidle : m.producer = .idle := by
    have hin : m.producer.inside = false := by
      rw [← Bool.not_eq_true, ← hm.producer, hfree]
      simp
    cases hp : m.producer with
    | idle => rfl
    | locking a => cases hstuck _ _ (.lockProducer hp hfree)
    | _ => rw [hp] at hin; cases hin
  have hstay : ∀ i, m.consumers i = .waiting ∨ ∃ a, m.consumers i = .busy a := by
    intro i
    cases hi : m.consumers i with
    | locking => cases hstuck _ _ (.lock i hi hfree)
    | waking => cases hstuck _ _ (.relock i hi hfree)
    | waiting => exact Or.inl rfl
    | busy a => exact Or.inr ⟨a, rfl⟩
    | _ =>
        have hin := hout i
        rw [hi] at hin
        cases hin
  refine ⟨hidle, hfree, hstay, ?_⟩
  by_cases hwaits : ∃ i, m.consumers i = .waiting
  · have hle := h hwaits
    have hzero : ∑ i, (m.consumers i).attends = 0 := by
      refine Finset.sum_eq_zero fun i _ => ?_
      rcases hstay i with hi | ⟨a, hi⟩ <;> rw [hi] <;> rfl
    rw [hzero, hidle] at hle
    exact Or.inl (Nat.le_zero.mp hle)
  · exact Or.inr fun i => (hstay i).resolve_left fun hi => hwaits ⟨i, hi⟩

end Attended

/-! ### Runs -/

/-- The runs of the threads from a buffer in the state `s₀`. -/
inductive Run (B : Buffer σ α) (C : σ → Prop) (s₀ : σ) : Monitor σ α ι → Trace α → Prop where
  | start : Run B C s₀ (start s₀) Trace.empty
  | step {m m' : Monitor σ α ι} {t : Trace α} {l : Label α} (h : Run B C s₀ m t)
      (hstep : Step B C m l m') : Run B C s₀ m' (t.add l)

/-- `k` steps of their own that the threads take from `m`. -/
inductive OwnSteps (B : Buffer σ α) (m : Monitor σ α ι) : ℕ → Monitor σ α ι → Prop where
  | refl : OwnSteps B m 0 m
  | step {k : ℕ} {u v : Monitor σ α ι} {l : Label α} (h : OwnSteps B m k u)
      (hstep : Step B (fun _ => True) u l v) (hown : l.own = true) : OwnSteps B m (k + 1) v

section Runs

variable {B : Buffer σ α} {C : σ → Prop} {s₀ : σ} {m m' : Monitor σ α ι} {t : Trace α}

/-- **In every run** the mutex is held by the thread that is where it is held. -/
theorem Run.coherent (h : Run B C s₀ m t) : m.Coherent B := by
  induction h with
  | start => exact coherent_start B s₀
  | step _ hstep ih => exact hstep.coherent ih

variable [Fintype ι]

/-- **In every run** no signal is lost. -/
theorem Run.attended (h : Run B C s₀ m t) : m.Attended B := by
  induction h with
  | start => exact fun ⟨i, hi⟩ => by cases hi
  | step h hstep ih => exact hstep.attended h.coherent ih

/-- What the threads have of a run: the producer holds what has arrived and was not put, and the
consumers what was taken and is not used up. -/
structure Accounts (m : Monitor σ α ι) (t : Trace α) : Prop where
  arrived : t.arrived = t.added ++ m.producer.held
  handed : (t.handed : Multiset α) = t.finished + ∑ i, (m.consumers i).held

omit [DecidableEq ι] in
lemma accounts_start (s₀ : σ) : Accounts (start s₀ : Monitor σ α ι) Trace.empty where
  arrived := rfl
  handed := by
    have hnone : ∑ i, ((start s₀ : Monitor σ α ι).consumers i).held = 0 :=
      Finset.sum_eq_zero fun _ _ => rfl
    rw [hnone]
    rfl

/-- A consumer moves on with what it holds. -/
lemma Accounts.moves (h : Accounts m t) {i : ι} {c : Consumer α}
    (hconsumers : m'.consumers = (m.move i c).consumers) (hproducer : m'.producer = m.producer)
    (hheld : c.held = (m.consumers i).held) : Accounts m' t where
  arrived := by rw [hproducer]; exact h.arrived
  handed := by
    have hsum := sum_move Consumer.held m i c
    rw [hheld] at hsum
    rw [hconsumers, add_right_cancel hsum]
    exact h.handed

/-- **A step** neither loses nor doubles an entry. -/
theorem Step.accounts {l : Label α} (hstep : Step B C m l m') (h : Accounts m t) :
    Accounts m' (t.add l) := by
  cases hstep with
  | arrive a hp =>
      refine ⟨?_, h.handed⟩
      have harrived := h.arrived
      rw [hp] at harrived
      simp only [Producer.held, List.append_nil] at harrived
      simp only [Trace.add, Producer.held, harrived]
  | lockProducer hp hfree | unlockProducer hp =>
      refine ⟨?_, h.handed⟩
      have harrived := h.arrived
      rw [hp] at harrived
      exact harrived
  | put hp hC =>
      refine ⟨?_, h.handed⟩
      have harrived := h.arrived
      rw [hp] at harrived
      simp only [Producer.held] at harrived
      simp only [Trace.add, Producer.held, harrived, List.append_nil]
  | signal woken hp hwoken hone =>
      refine ⟨?_, ?_⟩
      · have harrived := h.arrived
        rw [hp] at harrived
        exact harrived
      · rw [Trace.add, h.handed]
        refine congrArg _ (Finset.sum_congr rfl fun i _ => ?_)
        by_cases hi : i ∈ woken
        · simp only [if_pos hi, hwoken i hi]
          rfl
        · simp only [if_neg hi]
  | lock i hi hfree | relock i hi hfree | test i hi hsome | wait i hi hnone | wake i hi
  | unlock i hi => exact h.moves rfl rfl (by rw [hi]; rfl)
  | take i hi =>
      refine ⟨h.arrived, ?_⟩
      have hsum := sum_move Consumer.held m i (.unlocking (B.take m.shared).1)
      have hnone : (Consumer.taking : Consumer α).held = 0 := rfl
      rw [hi, hnone, add_zero] at hsum
      simp only [Trace.add]
      rw [← Multiset.coe_add, h.handed]
      change _ = _ + ∑ j, ((m.move i (.unlocking (B.take m.shared).1)).consumers j).held
      rw [hsum, add_assoc]
      rfl
  | @finish i a hi =>
      refine ⟨h.arrived, ?_⟩
      have hsum := sum_move Consumer.held m i .locking
      have hnone : (Consumer.locking : Consumer α).held = 0 := rfl
      rw [hi, hnone, add_zero] at hsum
      simp only [Trace.add]
      rw [h.handed, ← hsum, ← Multiset.coe_add, add_assoc]
      refine congrArg _ ?_
      rw [add_comm]
      rfl

/-- **What the threads do to the buffer** is a run of the buffer alone, in which an entry is taken
only when there is one, and every entry that has arrived is put, and every one that was taken is
held by one consumer until it is used up. -/
theorem Run.sequential (h : Run B C s₀ m t) :
    B.Run C s₀ m.shared t.added t.handed ∧ Accounts m t := by
  induction h with
  | start => exact ⟨.start, accounts_start s₀⟩
  | @step m m' t l h hstep ih =>
      refine ⟨?_, hstep.accounts ih.2⟩
      cases hstep with
      | put hp hC => exact ih.1.put hC _
      | take i hi => exact ih.1.take (h.coherent.taking i hi)
      | _ => exact ih.1

/-- **Left alone, the threads come to a stop**: from every state of a run they take no more steps of
their own than they have left, and as long as they have not settled there is one more. -/
theorem Run.settles (h : Run B (fun _ => True) s₀ m t) {k : ℕ} (hsteps : OwnSteps B m k m') :
    k + m'.todo ≤ m.todo ∧
      ((∃ l v, Step B (fun _ => True) m' l v ∧ l.own = true) ∨ m'.Settled B) := by
  have hrun : ∃ t', Run B (fun _ => True) s₀ m' t' := by
    induction hsteps with
    | refl => exact ⟨t, h⟩
    | step _ hstep _ ih =>
        obtain ⟨t', ht'⟩ := ih
        exact ⟨_, ht'.step hstep⟩
  refine ⟨?_, ?_⟩
  · clear hrun
    induction hsteps with
    | refl => exact (Nat.zero_add _).le
    | step _ hstep hown ih =>
        have hlt := hstep.todo_lt hown
        omega
  · obtain ⟨t', ht'⟩ := hrun
    by_cases hmore : ∃ l v, Step B (fun _ => True) m' l v ∧ l.own = true
    · exact Or.inl hmore
    · refine Or.inr (settled_of_stuck ht'.coherent ht'.attended fun l v hstep => ?_)
      rw [← Bool.not_eq_true]
      exact fun hown => hmore ⟨l, v, hstep, hown⟩

end Runs

end Monitor

end ColumnDb
