import ColumnDb.Library.Frames
import ColumnDb.Session.Worker

/-!
Payloads over a stream socket (`helper_socket.c`).

The peers run side by side. The sender is in a call of `_safe_send_helper`, with more calls to come;
the receiver is in a call of `safe_recv`, for a `socket_meta_t` and for a payload in turn; between
them are the bytes in flight. How many bytes a `send` or a `recv` transfers is up to the kernel.

* `sendTurn`, `recvTurn`: the turns of the two loops, with the count as an `int`.
* `Wire.step`: an event of either side, and `Wire.Enabled`: when it can happen.
* `Wire.Carries`: what was received, together with what is on the way, are the payloads.
* `Wire.step_carries`: every event keeps this, and gets on with the work.
* `wireRun_recovers`: every run is finite, and one that cannot go on has delivered all payloads.
-/

namespace ColumnDb

/-! ### The loops of the source -/

/-- The calls that `safe_send` makes for a block. -/
def safeSendCalls (data : List UInt8) : List (List UInt8) :=
  [bytesOfWord (data.length % 2 ^ 32), data.take (data.length % 2 ^ 32)]

lemma flatten_safeSendCalls (data : List UInt8) : (safeSendCalls data).flatten = safeSend data := by
  rw [safeSendCalls, List.flatten_cons, List.flatten_singleton]
  rfl

/-- A turn of the loop of `_safe_send_helper`, whose `send` has transferred `k` bytes: what is left
of the data. A count that is not positive ends the connection. -/
def sendTurn (data : List UInt8) (k : ℕ) : Outcome (List UInt8) :=
  let bytesSent := toInt32 k
  if bytesSent ≤ 0 then .error .exit else .ok (data.drop bytesSent.toNat)

/-- A turn of the loop of `safe_recv`, whose `recv` has transferred `k` bytes: how many are left to
receive. -/
def recvTurn (left k : ℕ) : Outcome ℕ :=
  let bytesReceived := toInt32 k
  if bytesReceived ≤ 0 then .error .exit else .ok (sub32 left bytesReceived.toNat)

/-- The two sides and what is between them: the bytes left in the current call of the sender and the
calls after it, the bytes in flight, and for the receiver the bytes left to receive, those that it
has, what it receives, and the payloads so far. -/
structure Wire where
  calls : List (List UInt8)
  inFlight : List UInt8
  left : ℕ
  got : List UInt8
  isWaitingForMeta : Bool
  received : List (List UInt8)
  deriving DecidableEq

/-- What happens on one of the sides: the kernel transfers bytes, or a call returns. -/
inductive WireEvent where
  | send (k : ℕ)
  | sendReturns
  | recv (k : ℕ)
  | recvReturns

namespace Wire

/-- The payloads are to be sent, and the receiver waits for the first length. -/
def start (payloads : List (List UInt8)) : Wire where
  calls := payloads.flatMap safeSendCalls
  inFlight := []
  left := 4
  got := []
  isWaitingForMeta := true
  received := []

/-- When an event can happen: `send` and `recv` transfer a number of bytes that is not zero, up to
the request, and a call returns when it has nothing left. -/
def Enabled (w : Wire) : WireEvent → Prop
  | .send k => ∃ data ∈ w.calls.head?, 0 < k ∧ k ≤ data.length
  | .sendReturns => w.calls.head? = some []
  | .recv k => 0 < k ∧ k ≤ w.left ∧ k ≤ w.inFlight.length
  | .recvReturns => w.left = 0

/-- The effect of an event. After the length of a payload the receiver asks for that many bytes, and
after a payload for the next length. -/
def step (w : Wire) : WireEvent → Outcome Wire
  | .send k =>
      match w.calls with
      | [] => .error .undefined
      | data :: calls => do
          let left ← sendTurn data k
          .ok { w with calls := left :: calls, inFlight := w.inFlight ++ data.take k }
  | .sendReturns => .ok { w with calls := w.calls.tail }
  | .recv k => do
      let left ← recvTurn w.left k
      .ok { w with
            left := left, got := w.got ++ w.inFlight.take k, inFlight := w.inFlight.drop k }
  | .recvReturns =>
      if w.isWaitingForMeta then
        .ok { w with left := wordOfBytes w.got, got := [], isWaitingForMeta := false }
      else
        .ok { w with
              left := 4, got := [], isWaitingForMeta := true
              received := w.received ++ [w.got] }

end Wire

/-- The states that the two sides reach, with the events on the way. -/
inductive WireRun (payloads : List (List UInt8)) : List WireEvent → Wire → Prop where
  | start : WireRun payloads [] (Wire.start payloads)
  | event {events : List WireEvent} {w w' : Wire} {e : WireEvent}
      (hrun : WireRun payloads events w) (he : w.Enabled e) (hstep : w.step e = .ok w') :
      WireRun payloads (events ++ [e]) w'

/-! ### What is on the way -/

/-- A length in front of a payload. -/
def metaFraming : Framing UInt8 where
  width := 4
  limit := 2 ^ 32
  header := bytesOfWord
  size := wordOfBytes
  length_header := length_bytesOfWord
  size_header _ hn := wordOfBytes_bytesOfWord hn

lemma safeSend_eq_frame {data : List UInt8} (h : data.length < 2 ^ 32) :
    safeSend data = metaFraming.frame data := by
  rw [safeSend, Nat.mod_eq_of_lt h, List.take_length]
  rfl

lemma toInt32_count {k : ℕ} (hk : k < 2 ^ 31) : toInt32 k = k := toInt32_of_range (by omega)

lemma sendTurn_ok {data : List UInt8} {k : ℕ} (hpos : 0 < k) (hk : k < 2 ^ 31) :
    sendTurn data k = .ok (data.drop k) := by
  rw [sendTurn, toInt32_count hk]
  exact if_neg (by omega)

lemma recvTurn_ok {left k : ℕ} (hpos : 0 < k) (hk : k < 2 ^ 31) (hle : k ≤ left) :
    recvTurn left k = .ok (left - k) := by
  have hpositive : ¬ (k : ℤ) ≤ 0 := by omega
  rw [recvTurn, toInt32_count hk]
  simp only [if_neg hpositive, Int.toNat_natCast, sub32_of_le hle]

namespace Wire

/-- The bytes that the receiver has not handed on: those of its call, those in flight and those that
are still to be sent. -/
def onTheWay (w : Wire) : List UInt8 := w.got ++ (w.inFlight ++ w.calls.flatten)

/-- The receiver is at the frames of `todo`: in the length of the first one, or in its payload. -/
def AtFrames (w : Wire) (todo : List (List UInt8)) : Prop :=
  if w.isWaitingForMeta then
    w.onTheWay = todo.flatMap metaFraming.frame ∧ w.got.length + w.left = 4
  else
    ∃ p rest, todo = p :: rest ∧ w.onTheWay = p ++ rest.flatMap metaFraming.frame ∧
      w.got.length + w.left = p.length

/-- The payloads are those that were received and those whose frames are on the way. -/
structure Carries (payloads : List (List UInt8)) (w : Wire) : Prop where
  small : ∀ data ∈ w.calls, data.length < 2 ^ 31
  frames : ∃ todo, payloads = w.received ++ todo ∧ w.AtFrames todo

/-- The work that is left: every byte is sent and received, and every call returns. -/
def work (payloads : List (List UInt8)) (w : Wire) : ℕ :=
  2 * w.calls.flatten.length + w.calls.length + w.inFlight.length +
    (2 * (payloads.length - w.received.length) + if w.isWaitingForMeta then 1 else 0)

section Steps

variable {payloads : List (List UInt8)} {w : Wire}

/-- What the sender has to send are the frames of the payloads. -/
lemma flatten_sendCalls (hsmall : ∀ p ∈ payloads, p.length < 2 ^ 31) :
    (payloads.flatMap safeSendCalls).flatten = payloads.flatMap metaFraming.frame := by
  induction payloads with
  | nil => rfl
  | cons p payloads ih =>
      have hp := hsmall p List.mem_cons_self
      rw [List.flatMap_cons, List.flatten_append, flatten_safeSendCalls,
        safeSend_eq_frame (by omega), List.flatMap_cons,
        ih fun q hq => hsmall q (List.mem_cons_of_mem _ hq)]

lemma carries_start (hsmall : ∀ p ∈ payloads, p.length < 2 ^ 31) :
    Carries payloads (start payloads) where
  small data hdata := by
    obtain ⟨p, hp, hdata⟩ := List.mem_flatMap.mp hdata
    have := hsmall p hp
    simp only [safeSendCalls, List.mem_cons, List.not_mem_nil, or_false] at hdata
    rcases hdata with rfl | rfl
    · rw [length_bytesOfWord]
      norm_num
    · rw [List.length_take]
      omega
  frames := by
    refine ⟨payloads, rfl, ?_⟩
    rw [AtFrames, if_pos (show (start payloads).isWaitingForMeta = true from rfl)]
    exact ⟨flatten_sendCalls hsmall, rfl⟩

/-- A payload that is being received is one of those to receive. -/
lemma Carries.left_lt (h : w.Carries payloads) (hsmall : ∀ p ∈ payloads, p.length < 2 ^ 31) :
    w.left < 2 ^ 31 := by
  obtain ⟨todo, hpayloads, hframes⟩ := h.frames
  rw [AtFrames] at hframes
  split_ifs at hframes
  · omega
  · obtain ⟨p, rest, rfl, -, hlen⟩ := hframes
    have hp := hsmall p (by rw [hpayloads]; simp)
    omega

/-- The events that move bytes leave those on the way as they are. -/
lemma AtFrames.congr {w' : Wire} {todo : List (List UInt8)} (h : w.AtFrames todo)
    (hmeta : w'.isWaitingForMeta = w.isWaitingForMeta) (hway : w'.onTheWay = w.onTheWay)
    (hlen : w'.got.length + w'.left = w.got.length + w.left) : w'.AtFrames todo := by
  rw [AtFrames, hmeta, hway, hlen]
  exact h

variable (hsmall : ∀ p ∈ payloads, p.length < 2 ^ 31) (h : w.Carries payloads)
include h

lemma send_carries {k : ℕ} (he : w.Enabled (.send k)) :
    ∃ w', w.step (.send k) = .ok w' ∧ w'.Carries payloads ∧ w'.work payloads < w.work payloads := by
  obtain ⟨data, hhead, hpos, hk⟩ := he
  obtain ⟨calls, hcalls⟩ := List.head?_eq_some_iff.mp hhead
  have hdata := h.small data (by rw [hcalls]; exact List.mem_cons_self)
  obtain ⟨todo, hpayloads, hframes⟩ := h.frames
  refine ⟨{ w with calls := data.drop k :: calls, inFlight := w.inFlight ++ data.take k }, ?_,
    ⟨fun data' hdata' => ?_, todo, hpayloads, hframes.congr rfl ?_ rfl⟩, ?_⟩
  · rw [step, hcalls]
    simp only [sendTurn_ok hpos (by omega), Outcome.ok_bind]
  · rcases List.mem_cons.mp hdata' with rfl | hdata'
    · rw [List.length_drop]
      omega
    · exact h.small data' (by rw [hcalls]; exact List.mem_cons_of_mem _ hdata')
  · simp only [onTheWay, hcalls, List.flatten_cons, List.append_assoc]
    rw [← List.append_assoc (data.take k), List.take_append_drop]
  · simp only [work, hcalls, List.flatten_cons, List.length_append, List.length_cons,
      List.length_take, List.length_drop]
    omega

lemma sendReturns_carries (he : w.Enabled .sendReturns) :
    ∃ w', w.step .sendReturns = .ok w' ∧ w'.Carries payloads ∧
      w'.work payloads < w.work payloads := by
  obtain ⟨calls, hcalls⟩ := List.head?_eq_some_iff.mp he
  obtain ⟨todo, hpayloads, hframes⟩ := h.frames
  refine ⟨{ w with calls := w.calls.tail }, rfl,
    ⟨fun data hdata => h.small data (List.mem_of_mem_tail hdata), todo, hpayloads,
      hframes.congr rfl ?_ rfl⟩, ?_⟩
  · simp only [onTheWay, hcalls, List.tail_cons, List.flatten_cons, List.nil_append]
  · simp only [work, hcalls, List.tail_cons, List.flatten_cons, List.nil_append, List.length_cons]
    omega

include hsmall

lemma recv_carries {k : ℕ} (he : w.Enabled (.recv k)) :
    ∃ w', w.step (.recv k) = .ok w' ∧ w'.Carries payloads ∧ w'.work payloads < w.work payloads := by
  obtain ⟨hpos, hk, hflight⟩ := he
  have hleft := h.left_lt hsmall
  obtain ⟨todo, hpayloads, hframes⟩ := h.frames
  refine ⟨{ w with
            left := w.left - k, got := w.got ++ w.inFlight.take k,
            inFlight := w.inFlight.drop k }, ?_,
    ⟨h.small, todo, hpayloads, hframes.congr rfl ?_ ?_⟩, ?_⟩
  · rw [step, recvTurn_ok hpos (by omega) hk, Outcome.ok_bind]
  · simp only [onTheWay, List.append_assoc]
    rw [← List.append_assoc (w.inFlight.take k), List.take_append_drop]
  · simp only [List.length_append, List.length_take]
    omega
  · simp only [work, List.length_drop]
    omega

/-- A call of the receiver returns: the bytes it has are a length, or a payload. -/
lemma recvReturns_carries (he : w.Enabled .recvReturns) :
    ∃ w', w.step .recvReturns = .ok w' ∧ w'.Carries payloads ∧
      w'.work payloads < w.work payloads := by
  obtain ⟨todo, hpayloads, hframes⟩ := h.frames
  have hleft : w.left = 0 := he
  rw [AtFrames] at hframes
  cases hmeta : w.isWaitingForMeta with
  | true =>
      rw [if_pos hmeta] at hframes
      obtain ⟨hway, hlen⟩ := hframes
      obtain ⟨p, rest, rfl, hgot, hrest⟩ :=
        metaFraming.of_header (by decide) (show w.got.length = 4 by omega) hway
      have hp := hsmall p (by rw [hpayloads]; simp)
      have hword : wordOfBytes w.got = p.length := by
        rw [hgot]
        exact wordOfBytes_bytesOfWord (by omega)
      refine ⟨{ w with left := wordOfBytes w.got, got := [], isWaitingForMeta := false }, ?_,
        ⟨h.small, p :: rest, hpayloads, ?_⟩, ?_⟩
      · rw [step, if_pos hmeta]
      · rw [AtFrames, if_neg (by simp)]
        exact ⟨p, rest, rfl, hrest, by simp only [hword, List.length_nil, Nat.zero_add]⟩
      · simp only [work, hmeta, if_true, Bool.false_eq_true, if_false]
        omega
  | false =>
      rw [if_neg (by rw [hmeta]; exact Bool.false_ne_true)] at hframes
      obtain ⟨p, rest, rfl, hway, hlen⟩ := hframes
      obtain ⟨hgot, hrest⟩ := metaFraming.of_block (show w.got.length = p.length by omega) hway
      refine ⟨{ w with
                left := 4, got := [], isWaitingForMeta := true,
                received := w.received ++ [w.got] }, ?_, ⟨h.small, rest, ?_, ?_⟩, ?_⟩
      · rw [step, if_neg (by rw [hmeta]; exact Bool.false_ne_true)]
      · rw [hgot, hpayloads, List.append_assoc, List.singleton_append]
      · rw [AtFrames, if_pos rfl]
        exact ⟨hrest, rfl⟩
      · have hlength := congrArg List.length hpayloads
        rw [List.length_append, List.length_cons] at hlength
        simp only [work, hmeta, if_true, Bool.false_eq_true, if_false, List.length_append,
          List.length_singleton]
        omega

/-- **An event** never fails, keeps the payloads together, and gets on with the work. -/
theorem step_carries {e : WireEvent} (he : w.Enabled e) :
    ∃ w', w.step e = .ok w' ∧ w'.Carries payloads ∧ w'.work payloads < w.work payloads := by
  cases e with
  | send k => exact send_carries h he
  | sendReturns => exact sendReturns_carries h he
  | recv k => exact recv_carries hsmall h he
  | recvReturns => exact recvReturns_carries hsmall h he

omit hsmall

/-- **When nothing can happen** everything was received. -/
theorem Carries.received_of_stuck (hstuck : ∀ e, ¬ w.Enabled e) :
    w.received = payloads ∧ w.calls = [] ∧ w.inFlight = [] ∧ w.got = [] ∧
      w.isWaitingForMeta = true := by
  have hcalls : w.calls = [] := by
    cases hc : w.calls with
    | nil => rfl
    | cons data calls =>
        exfalso
        cases data with
        | nil => exact hstuck .sendReturns (by rw [Enabled, hc]; rfl)
        | cons b data =>
            exact hstuck (.send 1) ⟨b :: data, by rw [hc]; rfl, Nat.one_pos, by simp⟩
  have hleft : 0 < w.left := Nat.pos_of_ne_zero fun hzero => hstuck .recvReturns hzero
  have hflight : w.inFlight = [] := by
    by_contra hne
    exact hstuck (.recv 1) ⟨Nat.one_pos, hleft, List.length_pos_iff.mpr hne⟩
  have hway : w.onTheWay = w.got := by
    rw [onTheWay, hflight, hcalls, List.flatten_nil, List.append_nil, List.append_nil]
  obtain ⟨todo, hpayloads, hframes⟩ := h.frames
  rw [AtFrames, hway] at hframes
  split_ifs at hframes with hmeta
  · obtain ⟨hgot, hlen⟩ := hframes
    have htodo := metaFraming.eq_nil_of_short (show (todo.flatMap metaFraming.frame).length < 4 by
      rw [← hgot]
      omega)
    subst htodo
    exact ⟨by rw [hpayloads, List.append_nil], hcalls, hflight, hgot, hmeta⟩
  · obtain ⟨p, rest, -, hgot, hlen⟩ := hframes
    rw [hgot, List.length_append] at hlen
    omega

end Steps

end Wire

/-! ### Runs -/

section Runs

variable {payloads : List (List UInt8)} {events : List WireEvent} {w : Wire}

lemma WireRun.carries (hsmall : ∀ p ∈ payloads, p.length < 2 ^ 31)
    (hrun : WireRun payloads events w) :
    w.Carries payloads ∧ events.length + w.work payloads ≤ (Wire.start payloads).work payloads := by
  induction hrun with
  | start => exact ⟨Wire.carries_start hsmall, (Nat.zero_add _).le⟩
  | event _ he hstep ih =>
      obtain ⟨hcarries, hwork⟩ := ih
      obtain ⟨w', hok, hcarries', hless⟩ := Wire.step_carries hsmall hcarries he
      cases hok.symm.trans hstep
      refine ⟨hcarries', ?_⟩
      rw [List.length_append, List.length_singleton]
      omega

/-- **Payloads over a stream socket**, of fewer than `2 ^ 31` bytes each. However the kernel splits
the stream, no helper fails, what was received is a beginning of the payloads, and after a bounded
number of events nothing can happen any more; then the payloads were received, and no byte is left
on the way. -/
theorem wireRun_recovers (payloads : List (List UInt8))
    (hsmall : ∀ p ∈ payloads, p.length < 2 ^ 31) (events : List WireEvent) (w : Wire)
    (hrun : WireRun payloads events w) :
    (∀ e, w.Enabled e → ∃ w', w.step e = .ok w') ∧ w.received <+: payloads ∧
      events.length ≤ (Wire.start payloads).work payloads ∧
      ((∀ e, ¬ w.Enabled e) → w.received = payloads ∧ w.calls = [] ∧ w.inFlight = [] ∧
        w.got = [] ∧ w.isWaitingForMeta = true) := by
  obtain ⟨hcarries, hwork⟩ := hrun.carries hsmall
  refine ⟨fun e he => ?_, ?_, by omega, hcarries.received_of_stuck⟩
  · obtain ⟨w', hok, -⟩ := Wire.step_carries hsmall hcarries he
    exact ⟨w', hok⟩
  · obtain ⟨todo, hpayloads, -⟩ := hcarries.frames
    exact ⟨todo, hpayloads.symm⟩

/-- The state after the payloads `[1, 2, 3]` and `[]` were received. -/
def bothReceived : Wire where
  calls := []
  inFlight := []
  left := 4
  got := []
  isWaitingForMeta := true
  received := [[1, 2, 3], []]

/-- A run in which both sides split the first length and its payload, each at its own places, while
the second payload is already sent before the end of the first is received. -/
lemma wireRun_both : WireRun [[1, 2, 3], []]
    [.send 3, .recv 2, .send 1, .sendReturns, .recv 2, .recvReturns, .send 1, .recv 1, .send 2,
      .sendReturns, .send 4, .sendReturns, .sendReturns, .recv 2, .recvReturns, .recv 4,
      .recvReturns, .recvReturns] bothReceived := by
  -- the length of the first payload
  have h₁ := WireRun.event (e := .send 3) (.start : WireRun [[1, 2, 3], []] [] _)
    ⟨_, rfl, by decide, by decide⟩ rfl
  have h₂ := h₁.event (e := .recv 2) ⟨by decide, by decide, by decide⟩ rfl
  have h₃ := h₂.event (e := .send 1) ⟨_, rfl, by decide, by decide⟩ rfl
  have h₄ := h₃.event (e := .sendReturns) rfl rfl
  have h₅ := h₄.event (e := .recv 2) ⟨by decide, by decide, by decide⟩ rfl
  have h₆ := h₅.event (e := .recvReturns) rfl rfl
  -- its bytes, and the second payload behind them
  have h₇ := h₆.event (e := .send 1) ⟨_, rfl, by decide, by decide⟩ rfl
  have h₈ := h₇.event (e := .recv 1) ⟨by decide, by decide, by decide⟩ rfl
  have h₉ := h₈.event (e := .send 2) ⟨_, rfl, by decide, by decide⟩ rfl
  have h₁₀ := h₉.event (e := .sendReturns) rfl rfl
  have h₁₁ := h₁₀.event (e := .send 4) ⟨_, rfl, by decide, by decide⟩ rfl
  have h₁₂ := h₁₁.event (e := .sendReturns) rfl rfl
  have h₁₃ := h₁₂.event (e := .sendReturns) rfl rfl
  have h₁₄ := h₁₃.event (e := .recv 2) ⟨by decide, by decide, by decide⟩ rfl
  have h₁₅ := h₁₄.event (e := .recvReturns) rfl rfl
  -- what is in flight is the second length, of no bytes
  have h₁₆ := h₁₅.event (e := .recv 4) ⟨by decide, by decide, by decide⟩ rfl
  have h₁₇ := h₁₆.event (e := .recvReturns) rfl rfl
  exact h₁₇.event (e := .recvReturns) rfl rfl

lemma bothReceived_stuck (e : WireEvent) : ¬ bothReceived.Enabled e := by
  cases e with
  | send k =>
      rintro ⟨data, hdata, -⟩
      exact absurd hdata (by simp [bothReceived])
  | sendReturns => exact (by decide : ¬ bothReceived.calls.head? = some [])
  | recv k =>
      rintro ⟨hpos, -, hle⟩
      exact absurd (hpos.trans_le hle) (by decide)
  | recvReturns => exact (by decide : ¬ bothReceived.left = 0)

/-- `wireRun_recovers` at that run, which cannot go on. -/
theorem bothPayloads_recovers : ∃ events w, WireRun [[1, 2, 3], []] events w ∧
    events.length ≤ (Wire.start [[1, 2, 3], []]).work [[1, 2, 3], []] ∧
    (∀ e, ¬ w.Enabled e) ∧ w.received = [[1, 2, 3], []] ∧ w.calls = [] ∧ w.inFlight = [] ∧
      w.got = [] ∧ w.isWaitingForMeta = true :=
  have h := wireRun_recovers [[1, 2, 3], []] (by decide) _ bothReceived wireRun_both
  ⟨_, _, wireRun_both, h.2.2.1, bothReceived_stuck, h.2.2.2 bothReceived_stuck⟩

end Runs

end ColumnDb
