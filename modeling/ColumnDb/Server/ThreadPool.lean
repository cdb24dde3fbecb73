import ColumnDb.Library.Ring

/-!
The queue of accepted sockets (`threadpool.c`).

The acceptor writes sockets into a circular array and the workers take them out, each call
under the mutex. The array has `threadPoolMaxQueueSize` places, and `add_new_socket` does not
ask whether one of them is free.

* `ThreadPool`, `addNewSocket`, `getSocket`: the source's data and functions.
* `PoolRun`: the runs of the acceptor and the workers, with the sockets accepted and those
  handed out, in order.
* `InOrder`: the sockets handed out and then the queued ones are the accepted ones.
* `poolRun_inOrder`: this holds as long as every socket finds a free place, and it ends with
  the first one that does not.
-/

namespace ColumnDb

/-! ### The functions of the source -/

/-- `THREAD_POOL_MAX_QUEUE_SIZE`. -/
abbrev threadPoolMaxQueueSize : ℕ := 100

/-- The queue of `thread_pool_t`; its head is a place of the array. -/
structure ThreadPool where
  qHead : ℕ
  qWaiting : ℕ
  sockets : Fin threadPoolMaxQueueSize → ℤ
  qHead_lt : qHead < threadPoolMaxQueueSize

/-- `create_threadpool`; `sockets` is what `malloc` leaves in the array. -/
def createThreadpool (sockets : Fin threadPoolMaxQueueSize → ℤ) : ThreadPool where
  qHead := 0
  qWaiting := 0
  sockets := sockets
  qHead_lt := by decide

/-- `add_new_socket`. -/
def addNewSocket (pool : ThreadPool) (socket : ℤ) : ThreadPool :=
  let pos := pool.qHead + pool.qWaiting
  { pool with
    sockets := Function.update pool.sockets (Fin.ofNat threadPoolMaxQueueSize pos) socket
    qWaiting := pool.qWaiting + 1 }

/-- `get_socket`. -/
def getSocket (pool : ThreadPool) : ℤ × ThreadPool :=
  (pool.sockets ⟨pool.qHead, pool.qHead_lt⟩,
    { pool with
      qHead := (pool.qHead + 1) % threadPoolMaxQueueSize
      qWaiting := pool.qWaiting - 1
      qHead_lt := Nat.mod_lt _ (by decide) })

/-! ### The runs -/

/-- The runs of the acceptor, whose calls find a pool that meets `C`, and of the workers, who
wait until a socket is there. The lists hold the sockets accepted and those handed out. -/
inductive PoolRun (C : ThreadPool → Prop) : ThreadPool → List ℤ → List ℤ → Prop where
  | create (sockets : Fin threadPoolMaxQueueSize → ℤ) :
      PoolRun C (createThreadpool sockets) [] []
  | add {pool : ThreadPool} {accepted handed : List ℤ} (h : PoolRun C pool accepted handed)
      (hadd : C pool) (socket : ℤ) :
      PoolRun C (addNewSocket pool socket) (accepted ++ [socket]) handed
  | get {pool : ThreadPool} {accepted handed : List ℤ} (h : PoolRun C pool accepted handed)
      (hwaiting : 0 < pool.qWaiting) :
      PoolRun C (getSocket pool).2 accepted (handed ++ [(getSocket pool).1])

/-- The queued sockets, the first in the queue first. -/
def ThreadPool.queued (pool : ThreadPool) : List ℤ := ring pool.sockets pool.qHead pool.qWaiting

/-- The accepted sockets are those handed out, in order, and then the `q_waiting` queued ones. -/
def InOrder (pool : ThreadPool) (accepted handed : List ℤ) : Prop :=
  accepted = handed ++ pool.queued

/-- A socket that finds a free place is queued behind the others. -/
lemma queued_addNewSocket {pool : ThreadPool} (hfree : pool.qWaiting < threadPoolMaxQueueSize)
    (socket : ℤ) : (addNewSocket pool socket).queued = pool.queued ++ [socket] :=
  ring_push pool.sockets pool.qHead hfree socket

/-- A socket that finds no free place is queued twice. -/
lemma queued_addNewSocket_over {pool : ThreadPool}
    (hfull : threadPoolMaxQueueSize ≤ pool.qWaiting) (socket : ℤ) :
    ¬ (addNewSocket pool socket).queued.Nodup :=
  ring_push_over pool.sockets pool.qHead hfull socket

/-- A worker takes the first of the queued sockets. -/
lemma queued_getSocket {pool : ThreadPool} (hwaiting : 0 < pool.qWaiting) :
    pool.queued = (getSocket pool).1 :: (getSocket pool).2.queued := by
  obtain ⟨n, hn⟩ := Nat.exists_eq_add_of_lt hwaiting
  rw [Nat.zero_add] at hn
  have hpop := ring_pop pool.sockets pool.qHead_lt n
  rw [ThreadPool.queued, ThreadPool.queued, hn, hpop]
  simp [getSocket, hn]

/-- **The queue of sockets.** In every run in which each accepted socket finds fewer than
`threadPoolMaxQueueSize` waiting, the sockets are handed out in the order in which they were
accepted, and those not handed out are the queued ones. From any state in this order, a
further socket, different from the earlier ones, keeps it exactly if it finds a free place. -/
theorem poolRun_inOrder (pool : ThreadPool) (accepted handed : List ℤ) :
    (PoolRun (fun pool => pool.qWaiting < threadPoolMaxQueueSize) pool accepted handed →
      InOrder pool accepted handed) ∧
    (PoolRun (fun _ => True) pool accepted handed → InOrder pool accepted handed →
      ∀ socket, (accepted ++ [socket]).Nodup →
        (InOrder (addNewSocket pool socket) (accepted ++ [socket]) handed ↔
          pool.qWaiting < threadPoolMaxQueueSize)) := by
  refine ⟨fun hrun => ?_, fun _ hin socket hnodup => ?_⟩
  · induction hrun with
    | create sockets => rfl
    | add h hadd socket ih => rw [InOrder, queued_addNewSocket hadd, ih, List.append_assoc]
    | get h hwaiting ih => rw [InOrder, ih, queued_getSocket hwaiting, List.append_assoc]; rfl
  · constructor
    · intro hin'
      by_contra hfull
      rw [hin'] at hnodup
      exact queued_addNewSocket_over (not_lt.mp hfull) socket (List.nodup_append.mp hnodup).2.1
    · intro hfree
      rw [InOrder, queued_addNewSocket hfree, hin, List.append_assoc]

/-- The sockets of a list, accepted one after the other. -/
lemma PoolRun.addAll {C : ThreadPool → Prop} {handed : List ℤ} (sockets : List ℤ) :
    ∀ {pool : ThreadPool} {accepted : List ℤ}, PoolRun C pool accepted handed →
      (∀ p : ThreadPool, p.qWaiting < pool.qWaiting + sockets.length → C p) →
      PoolRun C (sockets.foldl addNewSocket pool) (accepted ++ sockets) handed := by
  induction sockets with
  | nil => exact fun h _ => by rwa [List.append_nil]
  | cons socket sockets ih =>
      intro pool accepted h hC
      rw [List.length_cons] at hC
      have hmore : (addNewSocket pool socket).qWaiting = pool.qWaiting + 1 := rfl
      have hrun := ih (h.add (hC pool (by omega)) socket) fun p hp => hC p (by omega)
      rwa [List.append_assoc] at hrun

/-- The sockets `0, 1, …, n - 1`. -/
def firstSockets (n : ℕ) : List ℤ := (List.range n).map fun k : ℕ => (k : ℤ)

/-- The pool after them. -/
def backlog (n : ℕ) : ThreadPool :=
  (firstSockets n).foldl addNewSocket (createThreadpool fun _ => 0)

/-- A run with `n` sockets that no worker takes. -/
lemma poolRun_backlog {C : ThreadPool → Prop} {n : ℕ}
    (hC : ∀ pool : ThreadPool, pool.qWaiting < n → C pool) :
    PoolRun C (backlog n) (firstSockets n) [] := by
  have hlen : (firstSockets n).length = n := by
    rw [firstSockets, List.length_map, List.length_range]
  refine PoolRun.addAll (firstSockets n) (PoolRun.create fun _ => 0) fun p hp => hC p ?_
  rw [hlen] at hp
  exact hp.trans_eq (Nat.zero_add n)

/-- The pool after `100` sockets, the first of which a worker takes, and one more. -/
def wrapped : ThreadPool := addNewSocket (getSocket (backlog 100)).2 100

lemma poolRun_wrapped {C : ThreadPool → Prop}
    (hC : ∀ pool : ThreadPool, pool.qWaiting < threadPoolMaxQueueSize → C pool) :
    PoolRun C wrapped (firstSockets 101) [0] := by
  have hget := (poolRun_backlog hC).get (by decide +kernel)
  have hadd := hget.add (hC _ (by decide +kernel)) 100
  have hfirst : (getSocket (backlog 100)).1 = 0 := by decide +kernel
  rw [hfirst, List.nil_append] at hadd
  exact hadd

/-- `poolRun_inOrder` at a run around the end of the array: the socket `100` has the place that the
first one had, the others wait in front of it, and there is no place for another one. -/
theorem wrapped_inOrder :
    PoolRun (fun pool => pool.qWaiting < threadPoolMaxQueueSize) wrapped (firstSockets 101) [0] ∧
      wrapped.sockets 0 = 100 ∧ wrapped.queued = (firstSockets 101).tail ∧
      ¬ InOrder (addNewSocket wrapped 101) (firstSockets 102) [0] := by
  have hin := (poolRun_inOrder wrapped (firstSockets 101) [0]).1 (poolRun_wrapped fun _ h => h)
  refine ⟨poolRun_wrapped fun _ h => h, by decide +kernel, ?_, ?_⟩
  · rw [hin]
    rfl
  · have hnodup : (firstSockets 101 ++ [101]).Nodup := by decide +kernel
    have hone := (poolRun_inOrder wrapped (firstSockets 101) [0]).2
      (poolRun_wrapped fun _ _ => trivial) hin 101 hnodup
    rw [show firstSockets 102 = firstSockets 101 ++ [101] from rfl, hone]
    decide +kernel

/-- After `101` sockets without a worker, the first one handed out is the last one accepted. -/
theorem backlog_overwrites :
    ∃ accepted, PoolRun (fun _ => True) (backlog 101) accepted [] ∧
      accepted.head? = some 0 ∧ (getSocket (backlog 101)).1 = 100 ∧
      ¬ InOrder (backlog 101) accepted [] := by
  have hrun := @poolRun_backlog (fun _ => True) 101 fun _ _ => trivial
  have hget : (getSocket (backlog 101)).1 = 100 := by decide +kernel
  refine ⟨_, hrun, rfl, hget, fun hin => ?_⟩
  have hwaiting : 0 < (backlog 101).qWaiting := by decide +kernel
  rw [InOrder, List.nil_append, queued_getSocket hwaiting, hget] at hin
  exact absurd (congrArg List.head? hin) (by decide)

end ColumnDb
