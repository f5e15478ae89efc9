import Ruserf.Delegate.Effect

/-!
# Coordinates on pings

With coordinates enabled, a node answers a ping with `ack_payload` (a version byte, then its
coordinate), and `notify_ping_complete` on the pinging node reads the peer's coordinate back from
that payload, feeds it to the coordinate client's `update` with the round-trip time, and caches
the peer's coordinate and its own updated one. The client itself lives outside these sources;
its `update` comes in as a function of the client's coordinate.

`ack_payload` encodes the coordinate into `buf[1..]` of a buffer one byte long, so it writes
nothing (`ackPayload_eq`), and `notify_ping_complete` passes the client its own coordinate
`before` where the decoded one belongs (`notifyPingComplete_update_own`).
-/

namespace Ruserf

variable {I C D E : Type}

/-- `PING_VERSION`. -/
def pingVersion : UInt8 := 1

/-- The coordinate state of a node with coordinates enabled (`CoordCore`): its client's
coordinate, and the cache of coordinates by node id. -/
structure CoordCore (I C : Type) where
  coordinate : C
  cache : I → Option C

/-- The arguments of one call of the coordinate client's `update`: the peer's id, the coordinate
passed for it, and the round-trip time. -/
structure UpdateCall (I C D : Type) where
  id : I
  coordinate : C
  rtt : D
  deriving DecidableEq

/-- The coordinate client's `update(id, coordinate, rtt)` on a client at a given coordinate: the
client's new coordinate, or a rejection. -/
abbrev CoordinateUpdate (I C D : Type) := C → I → C → D → Option C

variable (coordinate : Codec C E)

/-- `SerfDelegate::ack_payload`: `PING_VERSION` put into an empty `Vec`, then the client's
coordinate encoded into `buf[1..]`; a failed encode is only logged. Without coordinates, no
payload. -/
def ackPayload (core : Option (CoordCore I C)) : Bytes :=
  match core with
  | some c =>
    let buf : Bytes := [pingVersion]
    match coordinate.encode c.coordinate (buf.drop 1) with
    | .ok (_, written) => buf.take 1 ++ written
    | .error _ => buf
  | none => []

/-- Whatever the coordinate and the codec, the payload is the version byte alone: the slice the
coordinate is encoded into is empty. -/
theorem ackPayload_eq (core : CoordCore I C) :
    ackPayload coordinate (some core) = [pingVersion] := by
  simp only [ackPayload]
  split
  · next written h => simp [List.length_eq_zero.1 (coordinate.encode_length _ _ _ _ h)]
  · rfl

variable [DecidableEq I] (update : CoordinateUpdate I C D) (localId : I)

/-- `SerfDelegate::notify_ping_complete` from node `node`: the `update` call it makes, if any,
and the coordinate state after it. -/
def notifyPingComplete (node : I) (rtt : D) (payload : Bytes) (core : Option (CoordCore I C)) :
    Except Panic (Option (UpdateCall I C D) × Option (CoordCore I C)) := do
  if payload.isEmpty then return (none, core)
  match core with
  | none => return (none, none)
  | some c =>
    if (← Bytes.index payload 0) ≠ pingVersion then return (none, core)
    match coordinate.decode (← Bytes.sliceFrom payload 1) with
    | .error _ => return (none, core)
    | .ok (_, coord) =>
      let before := c.coordinate
      match update c.coordinate node before rtt with
      | some after =>
        return (some ⟨node, before, rtt⟩,
          some ⟨after, Function.update (Function.update c.cache node (some coord)) localId
            (some after)⟩)
      | none => return (some ⟨node, before, rtt⟩, core)

/-- On a payload of the version byte and bytes that decode to `coord`, the client is updated with
the node's own coordinate, and on success the cache maps the peer to `coord` and the node itself
to its new coordinate. -/
theorem notifyPingComplete_of_decode (node : I) (rtt : D) (body : Bytes) (c : CoordCore I C)
    {n : Nat} {coord : C} (decoded : coordinate.decode body = .ok (n, coord)) :
    notifyPingComplete coordinate update localId node rtt (pingVersion :: body) (some c) =
      .ok (some ⟨node, c.coordinate, rtt⟩,
        match update c.coordinate node c.coordinate rtt with
        | some after => some ⟨after, Function.update (Function.update c.cache node (some coord))
            localId (some after)⟩
        | none => some c) := by
  simp only [notifyPingComplete, List.isEmpty_cons, Bool.false_eq_true, if_false,
    Bytes.index_cons_zero, Bytes.sliceFrom_cons_one, except_ok_bind, ne_eq, not_true_eq_false,
    decoded]
  split <;> rfl

/-- Every `update` call `notify_ping_complete` makes is for the peer, with the node's own
coordinate. -/
theorem notifyPingComplete_update_own (node : I) (rtt : D) (payload : Bytes) (c : CoordCore I C)
    {call : UpdateCall I C D} {after : Option (CoordCore I C)}
    (h : notifyPingComplete coordinate update localId node rtt payload (some c) =
      .ok (some call, after)) :
    call = ⟨node, c.coordinate, rtt⟩ := by
  cases payload with
  | nil => cases h
  | cons tag body =>
    by_cases version : tag = pingVersion
    · subst version
      cases hd : coordinate.decode body with
      | error e => simp [notifyPingComplete, hd] at h
      | ok p =>
        rw [notifyPingComplete_of_decode coordinate update localId node rtt body c hd] at h
        simp only [Except.ok.injEq, Prod.mk.injEq, Option.some.injEq] at h
        exact h.1.symm
    · simp [notifyPingComplete, version] at h

/-- A ping answered by the peer's `ack_payload` never hands the pinging node the peer's
coordinate: the payload is the version byte alone whatever the peer's coordinate, and every
`update` the pinging node makes is with its own coordinate. -/
theorem ping_ack_ignores_peer_coordinate (own peer : CoordCore I C) (node : I) (rtt : D) :
    ackPayload coordinate (some peer) = [pingVersion] ∧
    ∀ call after, notifyPingComplete coordinate update localId node rtt
        (ackPayload coordinate (some peer)) (some own) = .ok (some call, after) →
      call = ⟨node, own.coordinate, rtt⟩ :=
  ⟨ackPayload_eq coordinate peer, fun _ _ h => notifyPingComplete_update_own coordinate update
    localId node rtt _ own h⟩

/-- A node at coordinate `7` in a one-byte encoding. -/
def peerAtSeven : CoordCore Unit UInt8 := ⟨7, fun _ => none⟩

/-- A node at coordinate `3` with nothing cached. -/
def ownAtThree : CoordCore Unit UInt8 := ⟨3, fun _ => none⟩

/-- A coordinate client that moves to the coordinate it is given. -/
def moveTo : CoordinateUpdate Unit UInt8 Nat := fun _ _ coord _ => some coord

/-- Pinging the node at `7` with a round trip of 10: its `ack_payload` is the version byte alone,
so the pinging node finds no coordinate after it, makes no `update` and caches nothing. -/
theorem ping_ack_from_seven_caches_nothing :
    ackPayload Codec.byte (some peerAtSeven) = [pingVersion] ∧
    notifyPingComplete Codec.byte moveTo () () 10 (ackPayload Codec.byte (some peerAtSeven))
      (some ownAtThree) = .ok (none, some ownAtThree) :=
  have sent := (ping_ack_ignores_peer_coordinate Codec.byte moveTo () ownAtThree peerAtSeven ()
    10).1
  ⟨sent, by rw [sent]; rfl⟩

/-- `notify_ping_complete` never panics: the version byte is read only from a non-empty payload,
and the coordinate from what follows it. -/
theorem notifyPingComplete_ok (node : I) (rtt : D) (payload : Bytes)
    (core : Option (CoordCore I C)) :
    ∃ out, notifyPingComplete coordinate update localId node rtt payload core = .ok out := by
  cases payload with
  | nil => exact ⟨_, rfl⟩
  | cons tag body =>
    cases core with
    | none => exact ⟨_, rfl⟩
    | some c =>
      simp only [notifyPingComplete, List.isEmpty_cons, Bool.false_eq_true, if_false,
        Bytes.index_cons_zero, Bytes.sliceFrom_cons_one, except_ok_bind]
      split
      · exact ⟨_, rfl⟩
      · split <;> (try split) <;> exact ⟨_, rfl⟩

end Ruserf
