import ColumnDb.Library.Monitor
import ColumnDb.Server.ThreadPool

/-!
The acceptor and the workers (`server.c`, `worker.c`, `threadpool.c`).

The acceptor is the producer of a monitor and the workers are its consumers. A worker locks the
mutex, waits on the condition variable as long as `q_waiting` is zero, takes a socket, unlocks the
mutex, and serves the session; the acceptor queues a socket and signals, with the mutex locked.

* `socketQueue`: the queue of `thread_pool_t` as the buffer of the monitor.
* `server_handsOut`: in every run each socket is handed out once, in order, to one worker, and
  `get_socket` is called only when a socket is there.
* `server_settles`: no signal is lost: the threads come to a stop only when the queue is empty or
  every worker serves a session.
-/

namespace ColumnDb

/-- The queue of sockets, behind `mutex` and `cv_socket_waiting`. -/
def socketQueue : Buffer ThreadPool ℤ where
  size := ThreadPool.qWaiting
  put := addNewSocket
  take := getSocket
  size_put := fun _ _ => rfl
  size_take := fun _ h => Nat.sub_add_cancel h

section Queue

variable {C : ThreadPool → Prop} {sockets : Fin threadPoolMaxQueueSize → ℤ} {pool : ThreadPool}
  {added handed : List ℤ}

/-- The calls of the threads are those of the acceptor and the workers on the pool. -/
lemma poolRun_of_bufferRun (h : socketQueue.Run C (createThreadpool sockets) pool added handed) :
    PoolRun C pool added handed := by
  induction h with
  | start => exact .create sockets
  | put _ hC socket ih => exact ih.add hC socket
  | take _ hsome ih => exact ih.get hsome

/-- The sockets that were queued are those handed out and those that still wait. -/
lemma bufferRun_inOrder (h : socketQueue.Run (fun pool => pool.qWaiting < threadPoolMaxQueueSize)
    (createThreadpool sockets) pool added handed) : InOrder pool added handed := by
  induction h with
  | start => rfl
  | put _ hfree socket ih =>
      exact (congrArg (· ++ [socket]) ih).trans
        ((List.append_assoc _ _ _).trans (congrArg _ (queued_addNewSocket hfree socket).symm))
  | take _ hsome ih =>
      exact ih.trans ((congrArg _ (queued_getSocket hsome)).trans (List.append_assoc _ [_] _).symm)

end Queue

section Threads

variable {n : ℕ} {sockets : Fin threadPoolMaxQueueSize → ℤ} {m m' : Monitor ThreadPool ℤ (Fin n)}
  {t : Trace ℤ}

/-- **The acceptor and `n` workers**, in any order of their steps, as long as a socket is queued
only when fewer than `threadPoolMaxQueueSize` wait: at most one of them holds the mutex, the calls
on the queue are a run of the pool, the sockets accepted are those handed out, the queued ones and
the one in the hands of the acceptor, in order, and each one handed out is with one worker or its
session has ended. -/
theorem server_handsOut (h : Monitor.Run socketQueue
      (fun pool => pool.qWaiting < threadPoolMaxQueueSize) (createThreadpool sockets) m t) :
    ((∀ i j, (m.consumers i).inside = true → (m.consumers j).inside = true → i = j) ∧
      ∀ i, m.producer.inside = true → (m.consumers i).inside = false) ∧
    PoolRun (fun pool => pool.qWaiting < threadPoolMaxQueueSize) m.shared t.added t.handed ∧
    t.arrived = t.handed ++ m.shared.queued ++ m.producer.held ∧
    (t.handed : Multiset ℤ) = t.finished + ∑ i, (m.consumers i).held := by
  obtain ⟨hqueue, haccounts⟩ := h.sequential
  have hadded : t.added = t.handed ++ m.shared.queued := bufferRun_inOrder hqueue
  exact ⟨h.coherent.exclusive, poolRun_of_bufferRun hqueue, by rw [← hadded, haccounts.arrived],
    haccounts.handed⟩

/-- **No signal is lost**: from every state of a run, while nothing is accepted, no session ends and
nobody wakes up without a signal, the threads take no more steps than `todo` says, and when there is
no step left the acceptor waits for a connection, and the queue is empty or every worker serves a
session. -/
theorem server_settles (h : Monitor.Run socketQueue (fun _ => True) (createThreadpool sockets) m t)
    {k : ℕ} (hsteps : Monitor.OwnSteps socketQueue m k m') :
    k + m'.todo ≤ m.todo ∧
      ((∃ l u, Monitor.Step socketQueue (fun _ => True) m' l u ∧ l.own = true) ∨
        m'.producer = .idle ∧
          (m'.shared.qWaiting = 0 ∨ ∀ i, ∃ socket, m'.consumers i = .busy socket)) := by
  obtain ⟨hle, hend⟩ := h.settles hsteps
  exact ⟨hle, hend.imp_right fun hsettled => ⟨hsettled.producer, hsettled.buffer⟩⟩

end Threads

/-! ### One worker -/

section OneWorker

/-- The queue before the first socket. -/
def emptyQueue : ThreadPool := createThreadpool fun _ => 0

/-- A worker has gone to sleep before the socket `7` is accepted. -/
lemma oneWorker_sleeps (C : ThreadPool → Prop) : ∃ m t,
    Monitor.Run socketQueue C emptyQueue (m : Monitor ThreadPool ℤ (Fin 1)) t ∧
      t.arrived = [7] ∧ t.handed = [] ∧ m.shared = emptyQueue ∧ m.holder = .free ∧
      m.producer = .locking 7 ∧ m.consumers 0 = .waiting := by
  have h₀ : Monitor.Run socketQueue C emptyQueue
      (Monitor.start emptyQueue : Monitor ThreadPool ℤ (Fin 1)) Trace.empty := .start
  have h₁ := h₀.step (.lock (0 : Fin 1) rfl rfl)
  have h₂ := h₁.step (.wait 0 rfl rfl)
  exact ⟨_, _, h₂.step (.arrive 7 rfl), rfl, rfl, rfl, rfl, rfl, rfl⟩

/-- The signal wakes it up, and it takes the socket. -/
lemma oneWorker_wakes {C : ThreadPool → Prop} (hC : C emptyQueue)
    {m : Monitor ThreadPool ℤ (Fin 1)} {t : Trace ℤ}
    (h : Monitor.Run socketQueue C emptyQueue m t) (hshared : m.shared = emptyQueue)
    (hholder : m.holder = .free) (hproducer : m.producer = .locking 7)
    (hconsumer : m.consumers 0 = .waiting) :
    ∃ m' t', Monitor.Run socketQueue C emptyQueue m' t' ∧ t'.arrived = t.arrived ∧
      t'.handed = t.handed ++ [7] ∧ m'.consumers 0 = .busy 7 ∧
      Monitor.OwnSteps socketQueue m 8 m' := by
  obtain ⟨shared, holder, producer, consumers⟩ := m
  simp only at hshared hholder hproducer hconsumer
  subst hshared hholder hproducer
  have hwoken : ∀ i ∈ ({0} : Finset (Fin 1)), consumers i = .waiting := by simpa using hconsumer
  refine ⟨_, _, (((((((h.step (.lockProducer rfl rfl)).step (.put rfl hC)).step
    (.signal {0} rfl hwoken fun _ => ⟨0, by simp⟩)).step (.unlockProducer rfl)).step
    (.relock 0 rfl rfl)).step (.test 0 rfl Nat.one_pos)).step (.take 0 rfl)).step
    (.unlock 0 rfl), rfl, rfl, rfl, ?_⟩
  exact ((((((((Monitor.OwnSteps.refl.step (.lockProducer rfl rfl) rfl).step (.put rfl trivial)
    rfl).step (.signal {0} rfl hwoken fun _ => ⟨0, by simp⟩) rfl).step (.unlockProducer rfl)
    rfl).step (.relock 0 rfl rfl) rfl).step (.test 0 rfl Nat.one_pos) rfl).step (.take 0 rfl)
    rfl).step (.unlock 0 rfl) rfl)

/-- `server_handsOut` when the worker serves the session. -/
theorem oneWorker_handsOut : ∃ (m : Monitor ThreadPool ℤ (Fin 1)) (t : Trace ℤ),
    m.consumers 0 = .busy 7 ∧ t.handed = [7] ∧
    ((∀ i j, (m.consumers i).inside = true → (m.consumers j).inside = true → i = j) ∧
      ∀ i, m.producer.inside = true → (m.consumers i).inside = false) ∧
    PoolRun (fun pool => pool.qWaiting < threadPoolMaxQueueSize) m.shared t.added t.handed ∧
    t.arrived = t.handed ++ m.shared.queued ++ m.producer.held ∧
    (t.handed : Multiset ℤ) = t.finished + ∑ i, (m.consumers i).held := by
  obtain ⟨m, t, h, -, hhanded, hshared, hholder, hproducer, hconsumer⟩ :=
    oneWorker_sleeps fun pool => pool.qWaiting < threadPoolMaxQueueSize
  obtain ⟨m', t', h', -, hhanded', hbusy, -⟩ :=
    oneWorker_wakes (by decide) h hshared hholder hproducer hconsumer
  exact ⟨m', t', hbusy, by rw [hhanded', hhanded]; rfl, server_handsOut h'⟩

/-- `server_settles` from the accepted socket on: the worker that sleeps is not forgotten. -/
theorem oneWorker_settles : ∃ m m' : Monitor ThreadPool ℤ (Fin 1),
    m.consumers 0 = .waiting ∧ m'.consumers 0 = .busy 7 ∧ 8 + m'.todo ≤ m.todo ∧
      ((∃ l u, Monitor.Step socketQueue (fun _ => True) m' l u ∧ l.own = true) ∨
        m'.producer = .idle ∧
          (m'.shared.qWaiting = 0 ∨ ∀ i, ∃ socket, m'.consumers i = .busy socket)) := by
  obtain ⟨m, t, h, -, -, hshared, hholder, hproducer, hconsumer⟩ :=
    oneWorker_sleeps fun _ => True
  obtain ⟨m', t', -, -, -, hbusy, hsteps⟩ :=
    oneWorker_wakes trivial h hshared hholder hproducer hconsumer
  exact ⟨m, m', hconsumer, hbusy, server_settles h hsteps⟩

end OneWorker

end ColumnDb

