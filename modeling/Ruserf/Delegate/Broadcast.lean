import Ruserf.Delegate.Effect

/-!
# Broadcasts piggybacked on memberlist's messages

`SerfDelegate::broadcast_messages(overhead, limit, encoded_len)` (`core/src/serf/delegate.rs`)
fills the room memberlist leaves in a message: it takes membership broadcasts with the whole
`limit`, then query broadcasts with what is left, then event broadcasts with what is left after
both. After each batch an accounting loop adds every message's `encoded_len` to `bytes_used` and
records it to the `ruserf.messages.sent` histogram. The queues' `get_broadcasts` is memberlist's
`TransmitLimitedQueue`, outside these sources: it comes in as a function of the queue and the
budget. `usize` arithmetic is a debug build's: `+=` panics past `usize::MAX`, `-` below zero.

The third accounting loop runs over `query_msgs` where `event_msgs` belongs. So `bytes_used`
counts the query batch twice and the event batch never, and so does the histogram
(`broadcast_messages_counts_query_twice`). With queues that keep within their budget, the
subtractions never go below zero and what is returned fits `limit`; the second count of the
query batch can take `bytes_used` past `usize::MAX` only for a `limit` above half of it
(`broadcast_messages_within_limit`), so on memberlist's message sizes the call returns
(`broadcast_messages_fits_limit`).
-/

namespace Ruserf

/-- The running state of the accounting loops: `bytes_used`, and the lengths recorded to the
`ruserf.messages.sent` histogram (with the `metrics` feature), in order. -/
structure Accounting where
  bytesUsed : Nat
  sent : List Nat
  deriving DecidableEq, Repr

/-- The sum of `encoded_len` over a batch of messages. -/
def batchSize (encodedLen : Bytes → Nat) : List Bytes → Nat
  | [] => 0
  | msg :: batch => encodedLen msg + batchSize encodedLen batch

@[simp] theorem batchSize_nil (encodedLen : Bytes → Nat) : batchSize encodedLen [] = 0 := rfl

@[simp] theorem batchSize_cons (encodedLen : Bytes → Nat) (msg : Bytes) (batch : List Bytes) :
    batchSize encodedLen (msg :: batch) = encodedLen msg + batchSize encodedLen batch := rfl

@[simp] theorem batchSize_append (encodedLen : Bytes → Nat) (a b : List Bytes) :
    batchSize encodedLen (a ++ b) = batchSize encodedLen a + batchSize encodedLen b := by
  induction a with
  | nil => simp
  | cons msg a ih => simp [ih, Nat.add_assoc]

variable (usizeMax : Nat)

/-- `a + b` on `usize` in a debug build: a panic past `usize::MAX`. -/
def usizeAdd (a b : Nat) : Except Panic Nat :=
  if a + b ≤ usizeMax then .ok (a + b) else .error .addOverflow

/-- `a - b` on `usize` in a debug build: a panic below zero. -/
def usizeSub (a b : Nat) : Except Panic Nat :=
  if b ≤ a then .ok (a - b) else .error .subtractOverflow

/-- An accounting loop `for msg in batch.iter()`: each message's `encoded_len` added to
`bytes_used` and recorded to the histogram. -/
def account (encodedLen : Bytes → Nat) (acc : Accounting) : List Bytes → Except Panic Accounting
  | [] => .ok acc
  | msg :: rest => do
    let bytesUsed ← usizeAdd usizeMax acc.bytesUsed (encodedLen msg)
    account encodedLen ⟨bytesUsed, acc.sent ++ [encodedLen msg]⟩ rest

/-- `SerfDelegate::broadcast_messages(overhead, limit, encoded_len)` with the queues'
`get_broadcasts`: the messages returned, membership then query then event, and the accounting
after the three loops. The third loop runs over `query_msgs`, as the source has it. -/
def broadcastMessages (get : Queue → Nat → Nat → List Bytes) (encodedLen : Bytes → Nat)
    (overhead limit : Nat) : Except Panic (List Bytes × Accounting) := do
  let msgs := get .broadcasts overhead limit
  let acc ← account usizeMax encodedLen ⟨0, []⟩ msgs
  let queryMsgs := get .queryBroadcasts overhead (← usizeSub limit acc.bytesUsed)
  let acc ← account usizeMax encodedLen acc queryMsgs
  let eventMsgs := get .eventBroadcasts overhead (← usizeSub limit acc.bytesUsed)
  let acc ← account usizeMax encodedLen acc queryMsgs
  return (msgs ++ queryMsgs ++ eventMsgs, acc)

/-- An accounting loop that starts within `usize` adds the batch's size and records its lengths,
or panics exactly when the total passes `usize::MAX`: lengths only grow the running sum. -/
theorem account_eq (encodedLen : Bytes → Nat) (batch : List Bytes) :
    ∀ acc : Accounting, acc.bytesUsed ≤ usizeMax →
      account usizeMax encodedLen acc batch =
        if acc.bytesUsed + batchSize encodedLen batch ≤ usizeMax then
          .ok ⟨acc.bytesUsed + batchSize encodedLen batch, acc.sent ++ batch.map encodedLen⟩
        else .error .addOverflow := by
  induction batch with
  | nil => intro acc h; simp [account, h]
  | cons msg rest ih =>
    intro acc _
    simp only [account, usizeAdd]
    by_cases fits : acc.bytesUsed + encodedLen msg ≤ usizeMax
    · simp only [if_pos fits, except_ok_bind,
        ih ⟨acc.bytesUsed + encodedLen msg, acc.sent ++ [encodedLen msg]⟩ fits, batchSize_cons,
        Nat.add_assoc, List.map_cons, List.append_assoc, List.singleton_append]
    · rw [if_neg fits, if_neg (by simp only [batchSize_cons]; omega)]
      rfl

/-- A loop that returns has added the batch's size and recorded its lengths. -/
theorem account_of_ok {encodedLen : Bytes → Nat} {batch : List Bytes} :
    ∀ {acc acc' : Accounting}, account usizeMax encodedLen acc batch = .ok acc' →
      acc' =
        ⟨acc.bytesUsed + batchSize encodedLen batch, acc.sent ++ batch.map encodedLen⟩ := by
  induction batch with
  | nil => intro acc acc' h; cases h; simp
  | cons msg rest ih =>
    intro acc acc' h
    simp only [account, usizeAdd] at h
    split at h
    · rw [ih h]
      simp only [batchSize_cons, Nat.add_assoc, List.map_cons, List.append_assoc,
        List.singleton_append]
    · cases h

/-- A loop whose total stays within `usize` returns. -/
theorem account_of_le {encodedLen : Bytes → Nat} {batch : List Bytes} {bytesUsed : Nat}
    {sent : List Nat} (h : bytesUsed + batchSize encodedLen batch ≤ usizeMax) :
    account usizeMax encodedLen ⟨bytesUsed, sent⟩ batch =
      .ok ⟨bytesUsed + batchSize encodedLen batch, sent ++ batch.map encodedLen⟩ := by
  rw [account_eq usizeMax encodedLen batch ⟨bytesUsed, sent⟩ (by dsimp only; omega), if_pos h]

theorem usizeSub_of_le {a b : Nat} (h : b ≤ a) : usizeSub a b = .ok (a - b) := if_pos h

theorem usizeSub_of_ok {a b c : Nat} (h : usizeSub a b = .ok c) : b ≤ a ∧ c = a - b := by
  unfold usizeSub at h
  split at h
  · cases h; exact ⟨‹_›, rfl⟩
  · cases h

variable (get : Queue → Nat → Nat → List Bytes) (encodedLen : Bytes → Nat)
  (overhead limit : Nat)

/-- Whenever `broadcast_messages` returns, it returns the membership batch fetched with `limit`,
the query batch fetched with what it left, and the event batch fetched with what both left; but
`bytes_used` has counted the query batch twice and the event batch never, and the histogram has
recorded the query batch's lengths twice and the event batch's never. So the accounting covers
what is returned exactly when the query and event batches have the same sizes. -/
theorem broadcast_messages_counts_query_twice {out : List Bytes × Accounting}
    (h : broadcastMessages usizeMax get encodedLen overhead limit = .ok out) :
    let m := get .broadcasts overhead limit
    let q := get .queryBroadcasts overhead (limit - batchSize encodedLen m)
    let e := get .eventBroadcasts overhead
      (limit - (batchSize encodedLen m + batchSize encodedLen q))
    out = (m ++ q ++ e, ⟨batchSize encodedLen (m ++ q ++ q), (m ++ q ++ q).map encodedLen⟩) ∧
    (out.2.bytesUsed = batchSize encodedLen out.1 ↔
      batchSize encodedLen q = batchSize encodedLen e) ∧
    (out.2.sent = out.1.map encodedLen ↔ q.map encodedLen = e.map encodedLen) := by
  simp only [broadcastMessages, except_bind_eq_ok] at h
  obtain ⟨acc, hm, budget, hbudget, acc', hq, budget', hbudget', acc'', he, hout⟩ := h
  obtain rfl := account_of_ok usizeMax hm
  obtain ⟨-, rfl⟩ := usizeSub_of_ok hbudget
  obtain rfl := account_of_ok usizeMax hq
  obtain ⟨-, rfl⟩ := usizeSub_of_ok hbudget'
  obtain rfl := account_of_ok usizeMax he
  cases hout
  simp only [Nat.zero_add, List.nil_append, batchSize_append, List.map_append, Nat.add_assoc,
    List.append_assoc, List.append_cancel_left_eq, Nat.add_left_cancel_iff, true_and, and_true]

/-- Queues holding no membership broadcast, one three-byte query broadcast and one five-byte
event broadcast, each handed out whatever the budget. -/
def threeThenFive (queue : Queue) (_overhead _budget : Nat) : List Bytes :=
  match queue with
  | .broadcasts => []
  | .queryBroadcasts => [[0, 0, 0]]
  | .eventBroadcasts => [[0, 0, 0, 0, 0]]

/-- On a 64-bit target, with `limit` 10 and `encoded_len` the message's length, the call returns
both messages but counts 6 bytes, not 8, and records 3 twice and never 5. -/
theorem broadcast_messages_counts_three_for_five :
    ∃ out, broadcastMessages (2 ^ 64 - 1) threeThenFive List.length 0 10 = .ok out ∧
      out.1 = [[0, 0, 0], [0, 0, 0, 0, 0]] ∧
      out.2.bytesUsed ≠ batchSize List.length out.1 ∧ out.2.sent ≠ out.1.map List.length := by
  have run : broadcastMessages (2 ^ 64 - 1) threeThenFive List.length 0 10 =
      .ok ([[0, 0, 0], [0, 0, 0, 0, 0]], ⟨6, [3, 3]⟩) := by rfl
  have returns :=
    broadcast_messages_counts_query_twice (2 ^ 64 - 1) threeThenFive List.length 0 10 run
  exact ⟨_, run, rfl, fun h => absurd (returns.2.1.1 h) (by decide),
    fun h => absurd (returns.2.2.1 h) (by decide)⟩

/-- With queues whose `get_broadcasts` keeps within the budget it is given and a `limit` within
`usize`, `broadcast_messages` never subtracts below zero, and what it returns (the membership
batch, then the query batch, then the event batch) fits `limit`; but it returns only while the
loops' count, with the query batch twice, stays within `usize::MAX`, and panics past it. -/
theorem broadcast_messages_within_limit
    (hget : ∀ queue budget, batchSize encodedLen (get queue overhead budget) ≤ budget)
    (hlimit : limit ≤ usizeMax) :
    let m := get .broadcasts overhead limit
    let q := get .queryBroadcasts overhead (limit - batchSize encodedLen m)
    let e := get .eventBroadcasts overhead
      (limit - (batchSize encodedLen m + batchSize encodedLen q))
    broadcastMessages usizeMax get encodedLen overhead limit =
      (if batchSize encodedLen (m ++ q ++ q) ≤ usizeMax then
        .ok (m ++ q ++ e, ⟨batchSize encodedLen (m ++ q ++ q), (m ++ q ++ q).map encodedLen⟩)
      else .error .addOverflow) ∧
    batchSize encodedLen (m ++ q ++ e) ≤ limit := by
  intro m q e
  have hm : batchSize encodedLen m ≤ limit := hget _ _
  have hq : batchSize encodedLen q ≤ limit - batchSize encodedLen m := hget _ _
  have he : batchSize encodedLen e ≤ limit - (batchSize encodedLen m + batchSize encodedLen q) :=
    hget _ _
  refine ⟨?_, by simp only [batchSize_append]; omega⟩
  simp only [m, q, e] at hm hq he ⊢
  simp (disch := omega) only [broadcastMessages, account_of_le, usizeSub_of_le, except_ok_bind,
    Nat.zero_add, List.nil_append]
  rw [account_eq usizeMax encodedLen _ _ (by dsimp only; omega)]
  simp only [batchSize_append, List.map_append, Nat.add_assoc, List.append_assoc]
  split_ifs <;> rfl

/-- With queues whose `get_broadcasts` keeps within the budget it is given and a `limit` at most
half of `usize::MAX`, as memberlist's message sizes are, `broadcast_messages` returns: it never
subtracts below zero, and its count, with the query batch twice, stays within `usize`. What it
returns, the membership batch, then the query batch, then the event batch, fits `limit`. -/
theorem broadcast_messages_fits_limit
    (hget : ∀ queue budget, batchSize encodedLen (get queue overhead budget) ≤ budget)
    (room : 2 * limit ≤ usizeMax) :
    let m := get .broadcasts overhead limit
    let q := get .queryBroadcasts overhead (limit - batchSize encodedLen m)
    let e := get .eventBroadcasts overhead
      (limit - (batchSize encodedLen m + batchSize encodedLen q))
    broadcastMessages usizeMax get encodedLen overhead limit =
      .ok (m ++ q ++ e, ⟨batchSize encodedLen (m ++ q ++ q), (m ++ q ++ q).map encodedLen⟩) ∧
    batchSize encodedLen (m ++ q ++ e) ≤ limit := by
  intro m q e
  have hm : batchSize encodedLen m ≤ limit := hget _ _
  have hq : batchSize encodedLen q ≤ limit - batchSize encodedLen m := hget _ _
  obtain ⟨run, fits⟩ :=
    broadcast_messages_within_limit usizeMax get encodedLen overhead limit hget (by omega)
  refine ⟨run.trans (if_pos ?_), fits⟩
  simp only [m, q, batchSize_append] at hm hq ⊢
  omega

/-- Queues that hand out their one message only when it fits the budget: a two-byte membership
broadcast, a three-byte query broadcast and a four-byte event broadcast. -/
def fittingQueues (queue : Queue) (_overhead budget : Nat) : List Bytes :=
  let msg : Bytes := match queue with
    | .broadcasts => [0, 0]
    | .queryBroadcasts => [0, 0, 0]
    | .eventBroadcasts => [0, 0, 0, 0]
  if msg.length ≤ budget then [msg] else []

/-- On a 64-bit target, with `limit` 10 and `encoded_len` the message's length, the call returns
all three messages, nine bytes in all. -/
theorem broadcast_messages_fits_ten :
    (∀ queue budget, batchSize List.length (fittingQueues queue 0 budget) ≤ budget) ∧
    2 * 10 ≤ 2 ^ 64 - 1 ∧
    let m := fittingQueues .broadcasts 0 10
    let q := fittingQueues .queryBroadcasts 0 (10 - batchSize List.length m)
    let e := fittingQueues .eventBroadcasts 0
      (10 - (batchSize List.length m + batchSize List.length q))
    broadcastMessages (2 ^ 64 - 1) fittingQueues List.length 0 10 =
      .ok (m ++ q ++ e, ⟨batchSize List.length (m ++ q ++ q), (m ++ q ++ q).map List.length⟩) ∧
    batchSize List.length (m ++ q ++ e) ≤ 10 := by
  have within : ∀ queue budget,
      batchSize List.length (fittingQueues queue 0 budget) ≤ budget := by
    intro queue budget
    dsimp only [fittingQueues]
    split_ifs with fits
    · simpa using fits
    · exact Nat.zero_le _
  exact ⟨within, by decide,
    broadcast_messages_fits_limit (2 ^ 64 - 1) fittingQueues List.length 0 10 within (by decide)⟩

end Ruserf
