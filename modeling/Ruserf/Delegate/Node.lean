import Ruserf.Delegate.Effect
import Mathlib.Data.List.Forall2

/-!
# Node metadata and members

A node's tags travel as memberlist's metadata: `node_meta` encodes the configured tags into a
`Meta` within memberlist's limit, and `node_to_member` decodes them back when memberlist hands
over a node. Two bounds of memberlist's, outside these sources, are in play: `Meta::MAX_SIZE`,
which bounds every `Meta` and which `node_meta` encodes within (`maxSize` here), and
`META_MAX_SIZE`, which `node_to_member` checks the metadata against (`metaMaxSize`). Both are 512
in memberlist; the results say which relation between them they need.

Tags that fit the limit and a codec that round-trips them survive the trip from one to the other
when `Meta::MAX_SIZE` is within `META_MAX_SIZE` (`node_meta_round_trips`).
-/

namespace Ruserf

variable {I A T E M : Type} {maxSize : Nat}

/-- The errors `node_to_member` can return. -/
inductive Error (E : Type) where
  /-- `Error::TagsTooLarge(len)`. -/
  | tagsTooLarge (len : Nat)
  /-- `Error::transform(e)`: the tags did not decode. -/
  | transform (e : E)
  deriving DecidableEq, Repr

variable (tags : Codec T E) (metaMaxSize : Nat)

/-- `SerfDelegate::node_meta(limit)` for the configured tags: encoded into a buffer of their
encoded length; no tags, or a failed encode, give `Meta::empty()`. It panics when the tags exceed
`limit.min(Meta::MAX_SIZE)`, when the `debug_assert_eq!` on the encoded length fails, and where
`try_into().unwrap()` meets more than `Meta::MAX_SIZE` bytes. -/
def nodeMeta (configured : Option T) (limit : Nat) : Except Panic (Meta maxSize) :=
  match configured with
  | some t =>
    let encodedLen := tags.encodedLen t
    let limit := min limit maxSize
    if encodedLen > limit then .error (.tagsExceedLimit limit) else
    match tags.encode t (List.replicate encodedLen 0) with
    | .ok (len, roleBytes) =>
      if len ≠ encodedLen then .error .debugAssert
      else if len > limit then .error (.tagsExceedLimit limit)
      else if fits : roleBytes.length ≤ maxSize then .ok ⟨roleBytes, fits⟩
      else .error .unwrapErr
    | .error _ => .ok (Meta.empty maxSize)
  | none => .ok (Meta.empty maxSize)

/-- `node_to_member`: `Left` for a node in `State::Left` and `None` otherwise, the metadata's
length checked against `META_MAX_SIZE`, and the tags decoded from it. -/
def nodeToMember (node : NodeState I A maxSize) : Except (Error E) (Member I A T) := do
  let status := if node.state = .left then MemberStatus.left else .none
  if node.meta.bytes.length > metaMaxSize then throw (.tagsTooLarge node.meta.bytes.length)
  let (_, decoded) ← (tags.decode node.meta.bytes).mapError .transform
  return ⟨node.node, decoded, status, .v0, .v0⟩

/-- On metadata within `META_MAX_SIZE`, `node_to_member` decodes the tags from it and sets the
status from the node's state. -/
theorem nodeToMember_eq {node : NodeState I A maxSize}
    (within : node.meta.bytes.length ≤ metaMaxSize) :
    nodeToMember tags metaMaxSize node =
      ((tags.decode node.meta.bytes).mapError Error.transform).map fun p =>
        ⟨node.node, p.2, if node.state = .left then .left else .none, .v0, .v0⟩ := by
  simp only [nodeToMember, gt_iff_lt, Nat.not_lt.2 within, if_false]
  cases tags.decode node.meta.bytes <;> rfl

/-- Metadata over `META_MAX_SIZE` makes `node_to_member` fail before it decodes anything. -/
theorem nodeToMember_of_too_large {node : NodeState I A maxSize}
    (over : metaMaxSize < node.meta.bytes.length) :
    nodeToMember tags metaMaxSize node =
      (.error (.tagsTooLarge node.meta.bytes.length) : Except (Error E) (Member I A T)) := by
  simp only [nodeToMember, gt_iff_lt, over, if_true]
  rfl

/-- `member` is what `node_to_member` makes of `node`: its metadata is within `META_MAX_SIZE`, and
the member has its node, the tags decoded from its metadata, `Left` exactly for a node in
`State::Left` and `None` otherwise, and the `V0` versions. -/
structure IsMemberOf (node : NodeState I A maxSize) (member : Member I A T) : Prop where
  within : node.meta.bytes.length ≤ metaMaxSize
  node_eq : member.node = node.node
  status_eq : member.status = if node.state = .left then .left else .none
  protocolVersion_eq : member.protocolVersion = .v0
  delegateVersion_eq : member.delegateVersion = .v0
  decodes : ∃ n, tags.decode node.meta.bytes = .ok (n, member.tags)

/-- `node_to_member` returns exactly the member that node's metadata decodes to. -/
theorem nodeToMember_eq_ok_iff (node : NodeState I A maxSize) (member : Member I A T) :
    nodeToMember tags metaMaxSize node = .ok member ↔ IsMemberOf tags metaMaxSize node member := by
  by_cases within : node.meta.bytes.length ≤ metaMaxSize
  case neg =>
    rw [nodeToMember_of_too_large tags metaMaxSize (Nat.lt_of_not_le within)]
    exact ⟨nofun, fun h => absurd h.within within⟩
  rw [nodeToMember_eq tags metaMaxSize within]
  cases hd : tags.decode node.meta.bytes with
  | error e => exact ⟨nofun, fun ⟨_, _, _, _, _, _, h⟩ => by rw [hd] at h; cases h⟩
  | ok p =>
    obtain ⟨n, t⟩ := p
    constructor
    · intro h
      cases h
      exact ⟨within, rfl, rfl, rfl, rfl, n, hd⟩
    · rintro ⟨-, hnode, hstatus, hp, hd', n', h⟩
      rw [hd] at h
      obtain ⟨-, rfl⟩ := Prod.mk.inj (Except.ok.inj h)
      rw [← hnode, ← hstatus, ← hp, ← hd']
      rfl

/-- Metadata over `META_MAX_SIZE`, or tags that do not decode, make `node_to_member` fail. -/
theorem nodeToMember_error_of_bad {node : NodeState I A maxSize}
    (bad : metaMaxSize < node.meta.bytes.length ∨ ∃ e, tags.decode node.meta.bytes = .error e) :
    ∃ e, nodeToMember tags metaMaxSize node = (.error e : Except (Error E) (Member I A T)) := by
  by_cases within : node.meta.bytes.length ≤ metaMaxSize
  · obtain ⟨e, h⟩ := bad.resolve_left (Nat.not_lt.2 within)
    exact ⟨_, by rw [nodeToMember_eq tags metaMaxSize within, h]; rfl⟩
  · exact ⟨_, nodeToMember_of_too_large tags metaMaxSize (Nat.lt_of_not_le within)⟩

/-- Tags that fit `limit.min(Meta::MAX_SIZE)`, with a codec that writes exactly their encoded
length and decodes what it wrote: `node_meta` returns their encoding without panicking, and, with
`Meta::MAX_SIZE` within `META_MAX_SIZE`, `node_to_member` reads them back from any node carrying
it. -/
theorem node_meta_round_trips (sizes : maxSize ≤ metaMaxSize) (t : T) (limit : Nat)
    (fits : tags.encodedLen t ≤ min limit maxSize) (roundTrips : tags.RoundTrips t) :
    ∃ m : Meta maxSize, nodeMeta tags (some t) limit = .ok m ∧
      m.bytes.length = tags.encodedLen t ∧
      ∀ node : NodeState I A maxSize, node.meta = m →
        ∃ member, nodeToMember tags metaMaxSize node = .ok member ∧ member.tags = t := by
  obtain ⟨out, hencode, n, hdecode⟩ := roundTrips
  have length : out.length = tags.encodedLen t := by
    simpa using tags.encode_length _ _ _ _ hencode
  have bound : out.length ≤ maxSize := length ▸ Nat.le_trans fits (Nat.min_le_right _ _)
  refine ⟨⟨out, bound⟩, ?_, length, ?_⟩
  · simp [nodeMeta, Nat.not_lt.2 fits, hencode, bound]
  · intro node hmeta
    have decoded : tags.decode node.meta.bytes = .ok (n, t) := by rw [hmeta]; exact hdecode
    have within := Nat.le_trans node.meta.length_le sizes
    exact ⟨_, by rw [nodeToMember_eq tags metaMaxSize within, decoded]; rfl, rfl⟩

/-- Tag `7` in a one-byte encoding, within a limit of 10, with memberlist's 512 for both
bounds. -/
theorem node_meta_round_trips_byte :
    512 ≤ 512 ∧ Codec.byte.encodedLen 7 ≤ min 10 512 ∧ Codec.byte.RoundTrips 7 ∧
    ∃ m : Meta 512, nodeMeta Codec.byte (some 7) 10 = .ok m ∧
      m.bytes.length = Codec.byte.encodedLen 7 ∧
      ∀ node : NodeState Unit Unit 512, node.meta = m →
        ∃ member, nodeToMember Codec.byte 512 node = .ok member ∧ member.tags = 7 :=
  ⟨le_rfl, by decide, Codec.byte_roundTrips 7,
    node_meta_round_trips Codec.byte 512 le_rfl 7 10 (by decide) (Codec.byte_roundTrips 7)⟩

/-- What `notify_alive` and `notify_merge` return as `Error<T, D>`: an error of
`node_to_member` passed on by `?`, or the user delegate's. -/
inductive MergeError (E M : Type) where
  /-- An error of `node_to_member`. -/
  | member (e : Error E)
  /-- `Error::Delegate(DelegateError::merge(e))`. -/
  | delegate (e : M)
  deriving DecidableEq, Repr

/-- The user delegate's `notify_merge(peers)`, outside these sources: its verdict on the members.
-/
abbrev MergeDelegate (I A T M : Type) := List (Member I A T) → Except M Unit

/-- `SerfDelegate::notify_merge(peers)`: with a user delegate, the peers converted by
`node_to_member` and collected, the first error passed on by `?`, then the user delegate's
`notify_merge` on the members, its error as `Error::Delegate(DelegateError::merge(e))`; without
one, `Ok(())`. With the result, the calls made to the user delegate, in order. -/
def notifyMerge (delegate : Option (MergeDelegate I A T M)) (peers : List (NodeState I A maxSize)) :
    List (List (Member I A T)) × Except (MergeError E M) Unit :=
  match delegate with
  | some d =>
    match peers.mapM (nodeToMember tags metaMaxSize) with
    | .ok members => ([members], (d members).mapError .delegate)
    | .error e => ([], .error (.member e))
  | none => ([], .ok ())

/-- `SerfDelegate::notify_alive(node)`: with a user delegate, `node_to_member` on `node`, its error
passed on by `?`, then the user delegate's `notify_merge` on the one member; without one,
`Ok(())`. -/
def notifyAlive (delegate : Option (MergeDelegate I A T M)) (node : NodeState I A maxSize) :
    List (List (Member I A T)) × Except (MergeError E M) Unit :=
  match delegate with
  | some d =>
    match nodeToMember tags metaMaxSize node with
    | .ok member => ([[member]], (d [member]).mapError .delegate)
    | .error e => ([], .error (.member e))
  | none => ([], .ok ())

/-- `notify_alive` is `notify_merge` on its one peer. -/
theorem notifyAlive_eq_notifyMerge (delegate : Option (MergeDelegate I A T M))
    (node : NodeState I A maxSize) :
    notifyAlive tags metaMaxSize delegate node = notifyMerge tags metaMaxSize delegate [node] := by
  cases delegate with
  | none => rfl
  | some d =>
    cases h : nodeToMember tags metaMaxSize node <;>
      simp only [notifyAlive, notifyMerge, h, List.mapM_cons, List.mapM_nil, except_ok_bind,
        except_error_bind, except_pure]

/-- With a user delegate, `notify_merge` fails closed: a peer whose metadata is over
`META_MAX_SIZE` or whose tags do not decode makes it return an error of `node_to_member` without
calling the user delegate; when every peer's metadata is within `META_MAX_SIZE` and its tags
decode, it calls the user delegate once, with the member made of each peer in the peers' order,
and returns its verdict. `notify_alive` is `notify_merge` on its one peer. -/
theorem notify_merge_fail_closed (d : MergeDelegate I A T M) :
    (∀ peers : List (NodeState I A maxSize),
      (∃ p ∈ peers,
          metaMaxSize < p.meta.bytes.length ∨ ∃ e, tags.decode p.meta.bytes = .error e) →
        ∃ e, notifyMerge tags metaMaxSize (some d) peers = ([], .error (.member e))) ∧
    (∀ peers : List (NodeState I A maxSize),
      (∀ p ∈ peers, p.meta.bytes.length ≤ metaMaxSize ∧
        ∃ n t, tags.decode p.meta.bytes = .ok (n, t)) →
        ∃ members, List.Forall₂ (IsMemberOf tags metaMaxSize) peers members ∧
          notifyMerge tags metaMaxSize (some d) peers =
            ([members], (d members).mapError .delegate)) ∧
    ∀ node : NodeState I A maxSize,
      notifyAlive tags metaMaxSize (some d) node =
        notifyMerge tags metaMaxSize (some d) [node] := by
  refine ⟨fun peers ⟨p, mem, bad⟩ => ?failing, fun peers good => ?decoding,
    notifyAlive_eq_notifyMerge tags metaMaxSize (some d)⟩
  case failing =>
    obtain ⟨e, he⟩ := nodeToMember_error_of_bad tags metaMaxSize bad
    obtain ⟨e', h⟩ := mapM_eq_error_of_mem he mem
    exact ⟨e', by rw [notifyMerge, h]⟩
  case decoding =>
    cases h : peers.mapM (nodeToMember tags metaMaxSize) with
    | error e =>
      obtain ⟨p, mem, hp⟩ := exists_mem_of_mapM_eq_error h
      obtain ⟨within, n, t, hd⟩ := good p mem
      rw [nodeToMember_eq tags metaMaxSize within, hd] at hp
      cases hp
    | ok members =>
      have converted := ((mapM_eq_ok_iff _ _ _).1 h).imp fun p m =>
        (nodeToMember_eq_ok_iff tags metaMaxSize p m).1
      exact ⟨members, converted, by rw [notifyMerge, h]⟩

/-- A node whose one-byte tags are `7`. -/
def taggedPeer : NodeState Unit Unit 512 := ⟨⟨(), ()⟩, ⟨[7], by decide⟩, .alive⟩

/-- A node with empty metadata, whose one-byte tags do not decode. -/
def untaggedPeer : NodeState Unit Unit 512 := ⟨⟨(), ()⟩, Meta.empty 512, .alive⟩

/-- A user delegate that accepts every merge. -/
def acceptAll : MergeDelegate Unit Unit UInt8 Unit := fun _ => .ok ()

/-- With one-byte tags and memberlist's 512: a merge that includes the node with empty metadata
fails without a call to the user delegate, and a merge of the tagged node alone calls it once. -/
theorem notify_merge_fail_closed_on_peers :
    (∃ e, notifyMerge Codec.byte 512 (some acceptAll) [taggedPeer, untaggedPeer] =
      ([], .error (.member e))) ∧
    ∃ members, List.Forall₂ (IsMemberOf Codec.byte 512) [taggedPeer] members ∧
      notifyMerge Codec.byte 512 (some acceptAll) [taggedPeer] =
        ([members], (acceptAll members).mapError .delegate) :=
  have closed := notify_merge_fail_closed Codec.byte 512 acceptAll
  ⟨closed.1 _ ⟨untaggedPeer, by simp, .inr ⟨(), rfl⟩⟩,
    closed.2.1 _ fun p mem => by
      rw [List.mem_singleton.1 mem]
      exact ⟨by decide, 1, 7, rfl⟩⟩

end Ruserf
