import Ruserf.Delegate.Message
import Ruserf.Delegate.PushPull
import Ruserf.Delegate.Ping
import Ruserf.Delegate.Node

/-!
# `SerfDelegate` on a peer's bytes

Three callbacks take bytes straight from a peer: `notify_message`, `merge_remote_state` and
`notify_ping_complete`. Each reads a tag or version byte only from a non-empty buffer and slices
only past it, and `merge_remote_state` subtracts one only from a positive time; the one offset a
peer's bytes steer is the relay's `consumed + 1`, which stays in the buffer as long as the node
decoder reports no more than it was given.
-/

namespace Ruserf

variable {I A Q R C D E : Type} [DecidableEq I] [DecidableEq A]

/-- On any bytes from a peer, the three callbacks that read them run without a panic, provided
the node decoder reports no more bytes consumed than it was given. -/
theorem peer_bytes_never_panic (message : Codec (SerfMessage I A Q R) E)
    (node : Codec (Node I A) E) (serf : Handlers I A Q) (encryption : Bool)
    (coordinate : Codec C E) (update : CoordinateUpdate I C D) (localId peer : I) (rtt : D)
    (core : Option (CoordCore I C)) (consumes : node.Consumes) (b : Bytes)
    (isJoin eventJoinIgnore : Bool) :
    (∃ cs, calls (notifyMessage message node serf encryption b) = .ok cs) ∧
    (∃ cs, calls (mergeRemoteState message encryption b isJoin eventJoinIgnore) = .ok cs) ∧
    (∃ out, notifyPingComplete coordinate update localId peer rtt b core = .ok out) :=
  ⟨notifyMessage_ok message node serf encryption consumes b,
    ⟨_, (mergeRemoteState_emits message encryption b isJoin eventJoinIgnore).calls⟩,
    notifyPingComplete_ok coordinate update localId peer rtt b core⟩

/-- The callbacks on the two bytes `[7, 1]`, a relay whose destination is cut short. -/
theorem peer_bytes_never_panic_on_cut_relay :
    nodeBytes.Consumes ∧
    (∃ cs, calls (notifyMessage (Codec.never (SerfMessage UInt8 UInt8 Unit Unit)) nodeBytes
      ⟨fun _ => true, fun _ => true, fun _ => true, fun _ => true⟩ false [7, 1]) = .ok cs) ∧
    (∃ cs, calls (mergeRemoteState (Codec.never (SerfMessage UInt8 UInt8 Unit Unit)) false [7, 1]
      true true) = .ok cs) ∧
    (∃ out, notifyPingComplete Codec.byte (fun _ _ _ _ => (none : Option UInt8)) (0 : UInt8) 1
      () [7, 1] (some ⟨3, fun _ => none⟩) = .ok out) :=
  ⟨nodeBytes_consumes, peer_bytes_never_panic _ nodeBytes _ false Codec.byte _ 0 1 ()
    (some ⟨3, fun _ => none⟩) nodeBytes_consumes [7, 1] true true⟩

end Ruserf
