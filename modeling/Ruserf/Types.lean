import Ruserf.Clock
import Mathlib.Data.List.Nodup

/-!
# Wire types

The values the delegate reads and writes: byte strings with the panicking index, slice and
`Bytes::advance` of Rust, the tag byte of a gossip message (`types/message.rs`), the messages
themselves, and what memberlist hands over about a node. Fields that no modelled function reads
are left out; the encoded forms stay abstract, behind the `TransformDelegate` of
`Ruserf.Delegate.Effect`.
-/

namespace Ruserf

/-- `Bytes`: a byte string. -/
abbrev Bytes := List UInt8

/-- A panic the delegate's own code can reach. -/
inductive Panic where
  /-- `bytes[i]` with `i` past the end. -/
  | indexOutOfBounds
  /-- `&bytes[i..]` with `i` past the end. -/
  | sliceOutOfBounds
  /-- `Bytes::advance(cnt)` with `cnt` past the end. -/
  | advancePastEnd
  /-- An unsigned subtraction below zero (`LamportTime - LamportTime`, `usize - usize`). -/
  | subtractOverflow
  /-- An unsigned addition past its type's maximum (`usize += usize`). -/
  | addOverflow
  /-- `panic!("node tags {:?} exceeds length limit of {} bytes", ..)`. -/
  | tagsExceedLimit (limit : Nat)
  /-- A failed `debug_assert_eq!`. -/
  | debugAssert
  /-- `unwrap()` on an `Err`. -/
  | unwrapErr
  deriving DecidableEq, Repr

namespace Bytes

/-- `bytes[i]`. -/
def index (b : Bytes) (i : Nat) : Except Panic UInt8 :=
  match b.get? i with
  | some x => .ok x
  | none => .error .indexOutOfBounds

/-- `&bytes[i..]`. -/
def sliceFrom (b : Bytes) (i : Nat) : Except Panic Bytes :=
  if i ≤ b.length then .ok (b.drop i) else .error .sliceOutOfBounds

/-- `Bytes::advance(cnt)`: drop the first `cnt` bytes. -/
def advance (b : Bytes) (cnt : Nat) : Except Panic Bytes :=
  if cnt ≤ b.length then .ok (b.drop cnt) else .error .advancePastEnd

@[simp] theorem index_cons_zero (x : UInt8) (b : Bytes) : index (x :: b) 0 = .ok x := rfl

@[simp] theorem sliceFrom_cons_one (x : UInt8) (b : Bytes) : sliceFrom (x :: b) 1 = .ok b := by
  simp [sliceFrom]

theorem advance_of_le {b : Bytes} {cnt : Nat} (h : cnt ≤ b.length) :
    advance b cnt = .ok (b.drop cnt) := if_pos h

end Bytes

/-- `LamportTime - LamportTime`, which panics below zero. -/
def LamportTime.sub (a b : LamportTime) : Except Panic LamportTime :=
  if b ≤ a then .ok (a - b) else .error .subtractOverflow

/-- Subtracting one from a positive time does not underflow. -/
theorem LamportTime.sub_one_of_pos {a : LamportTime} (h : 0 < a) :
    LamportTime.sub a 1 = .ok (a - 1) := if_pos h

/-- `MessageType`: what the tag byte of a gossip message says it carries. -/
inductive MessageType where
  | leave
  | join
  | pushPull
  | userEvent
  | query
  | queryResponse
  | conflictResponse
  | relay
  | keyRequest
  | keyResponse
  deriving DecidableEq, Repr

/-- `MessageType as u8`: the `*_MESSAGE_TAG` constants. -/
def MessageType.tag : MessageType → UInt8
  | .leave => 0
  | .join => 1
  | .pushPull => 2
  | .userEvent => 3
  | .query => 4
  | .queryResponse => 5
  | .conflictResponse => 6
  | .relay => 7
  | .keyRequest => 253
  | .keyResponse => 254

/-- `UnknownMessageType`: a tag byte that names no message type. -/
structure UnknownMessageType where
  byte : UInt8
  deriving DecidableEq, Repr

/-- `TryFrom<u8> for MessageType`; the key messages exist only with the `encryption` feature. -/
def MessageType.tryFrom (encryption : Bool) (value : UInt8) :
    Except UnknownMessageType MessageType :=
  match value with
  | 0 => .ok .leave
  | 1 => .ok .join
  | 2 => .ok .pushPull
  | 3 => .ok .userEvent
  | 4 => .ok .query
  | 5 => .ok .queryResponse
  | 6 => .ok .conflictResponse
  | 7 => .ok .relay
  | 253 => if encryption then .ok .keyRequest else .error ⟨value⟩
  | 254 => if encryption then .ok .keyResponse else .error ⟨value⟩
  | _ => .error ⟨value⟩

/-- Every type that `try_from` accepts has the byte it was read from as its tag. -/
theorem MessageType.tag_of_tryFrom {encryption : Bool} {value : UInt8} {ty : MessageType}
    (h : tryFrom encryption value = .ok ty) : ty.tag = value := by
  unfold tryFrom at h
  split at h <;> (try split at h) <;> first | cases h; rfl | cases h

/-- A tag byte is read back as its type. -/
theorem MessageType.tryFrom_tag (encryption : Bool) (ty : MessageType)
    (h : ty ≠ .keyRequest ∧ ty ≠ .keyResponse) :
    tryFrom encryption ty.tag = .ok ty := by
  cases ty
  case keyRequest => exact absurd rfl h.1
  case keyResponse => exact absurd rfl h.2
  all_goals rfl

/-- With the `encryption` feature every tag is read back as its type. -/
theorem MessageType.tryFrom_true_tag (ty : MessageType) : tryFrom true ty.tag = .ok ty := by
  cases ty <;> rfl

/-- Distinct message types have distinct tags. -/
@[simp] theorem MessageType.tag_inj {a b : MessageType} : a.tag = b.tag ↔ a = b :=
  ⟨fun h => Except.ok.inj ((tryFrom_true_tag a).symm.trans (h ▸ tryFrom_true_tag b)),
    congrArg _⟩

/-- `Node<I, A>`: a node's id and its address. -/
structure Node (I A : Type) where
  id : I
  address : A
  deriving DecidableEq, Repr

/-- `IndexMap<K, V>`: entries in insertion order, each key once. -/
structure IndexMap (K V : Type) where
  entries : List (K × V)
  nodup : (entries.map Prod.fst).Nodup
  deriving DecidableEq

/-- `IndexSet<K>`: elements in insertion order, each once. -/
structure IndexSet (K : Type) where
  elems : List K
  nodup : elems.Nodup
  deriving DecidableEq

namespace IndexMap

variable {K V : Type} [DecidableEq K]

/-- `IndexMap::get`. -/
def get (m : IndexMap K V) (k : K) : Option V := m.entries.lookup k

/-- The empty map. -/
def empty : IndexMap K V := ⟨[], List.nodup_nil⟩

/-- `IndexMap::insert`: a new key goes last; a key already there keeps its place and takes the
new value. -/
def insert (m : IndexMap K V) (k : K) (v : V) : IndexMap K V :=
  if h : k ∈ m.entries.map Prod.fst then
    ⟨m.entries.map fun e => if e.1 = k then (k, v) else e, by
      have keys : (m.entries.map fun e => if e.1 = k then (k, v) else e).map Prod.fst =
          m.entries.map Prod.fst := by
        simp only [List.map_map]
        exact List.map_congr_left fun e _ => by by_cases he : e.1 = k <;> simp [he]
      exact keys ▸ m.nodup⟩
  else ⟨m.entries ++ [(k, v)], by
    rw [List.map_append, List.nodup_append]
    exact ⟨m.nodup, List.nodup_singleton _, List.disjoint_singleton.2 h⟩⟩

/-- `collect()` of key-value pairs into an `IndexMap`. -/
def ofList (l : List (K × V)) : IndexMap K V := l.foldl (fun m e => m.insert e.1 e.2) empty

end IndexMap

namespace IndexSet

variable {K : Type} [DecidableEq K]

/-- `IndexSet::contains`. -/
def contains (s : IndexSet K) (k : K) : Bool := decide (k ∈ s.elems)

/-- The empty set. -/
def empty : IndexSet K := ⟨[], List.nodup_nil⟩

/-- `IndexSet::insert`: a new element goes last, one already there stays where it is. -/
def insert (s : IndexSet K) (k : K) : IndexSet K :=
  if h : k ∈ s.elems then s
  else ⟨s.elems ++ [k], by simpa [List.nodup_append] using ⟨s.nodup, h⟩⟩

/-- `collect()` into an `IndexSet`. -/
def ofList (l : List K) : IndexSet K := l.foldl insert empty

end IndexSet

/-- `LeaveMessage`: an intent to leave, at a Lamport time. -/
structure LeaveMessage (I A : Type) where
  ltime : LamportTime
  node : Node I A
  prune : Bool
  deriving DecidableEq, Repr

/-- `JoinMessage`: an intent to join, at a Lamport time. -/
structure JoinMessage (I A : Type) where
  ltime : LamportTime
  node : Node I A
  deriving DecidableEq, Repr

/-- `UserEventMessage`: a user event as gossiped. -/
structure UserEventMessage where
  ltime : LamportTime
  name : String
  payload : Bytes
  cc : Bool
  deriving DecidableEq, Repr

/-- `UserEvent`: one event of a bucket. -/
structure UserEvent where
  name : String
  payload : Bytes
  deriving DecidableEq, Repr

/-- `UserEvents`: the bucket of events seen at one Lamport time. -/
structure UserEvents where
  ltime : LamportTime
  events : List UserEvent
  deriving DecidableEq, Repr

/-- `PushPull`: a node's full state, sent on join and for anti-entropy. -/
structure PushPull (I A : Type) where
  ltime : LamportTime
  statusLtimes : IndexMap (Node I A) LamportTime
  leftMembers : IndexSet (Node I A)
  eventLtime : LamportTime
  events : List (Option UserEvents)
  queryLtime : LamportTime
  deriving DecidableEq

/-- `SerfMessage`: every message serf gossips. Queries and their responses are passed on to
their handlers whole, as values of `Q` and `R`; the member of a conflict response and the key
messages are never read by the delegate, and are left out. -/
inductive SerfMessage (I A Q R : Type) where
  | leave (l : LeaveMessage I A)
  | join (j : JoinMessage I A)
  | pushPull (pp : PushPull I A)
  | userEvent (e : UserEventMessage)
  | query (q : Q)
  | queryResponse (r : R)
  | conflictResponse
  | keyRequest
  | keyResponse
  deriving DecidableEq

/-- `From<&SerfMessage> for MessageType`. -/
def SerfMessage.messageType {I A Q R : Type} : SerfMessage I A Q R → MessageType
  | .leave _ => .leave
  | .join _ => .join
  | .pushPull _ => .pushPull
  | .userEvent _ => .userEvent
  | .query _ => .query
  | .queryResponse _ => .queryResponse
  | .conflictResponse => .conflictResponse
  | .keyRequest => .keyRequest
  | .keyResponse => .keyResponse

/-- `Meta`: a node's metadata, at most `maxSize` bytes (`Meta::MAX_SIZE`). -/
structure Meta (maxSize : Nat) where
  bytes : Bytes
  length_le : bytes.length ≤ maxSize
  deriving DecidableEq

/-- `Meta::empty()`. -/
def Meta.empty (maxSize : Nat) : Meta maxSize := ⟨[], Nat.zero_le _⟩

/-- memberlist's `State` of a node. -/
inductive State where
  | alive
  | suspect
  | dead
  | left
  deriving DecidableEq, Repr

/-- memberlist's `NodeState`: the node, its metadata and its state. -/
structure NodeState (I A : Type) (maxSize : Nat) where
  node : Node I A
  meta : Meta maxSize
  state : State
  deriving DecidableEq

/-- `MemberStatus`. -/
inductive MemberStatus where
  | none
  | alive
  | leaving
  | left
  | failed
  deriving DecidableEq, Repr

/-- `ProtocolVersion`; `node_to_member` sets `V0`. -/
inductive ProtocolVersion where
  | v0
  deriving DecidableEq, Repr

/-- `DelegateVersion`; `node_to_member` sets `V0`. -/
inductive DelegateVersion where
  | v0
  deriving DecidableEq, Repr

/-- `Member`: a node as serf reports it, with its decoded tags. -/
structure Member (I A T : Type) where
  node : Node I A
  tags : T
  status : MemberStatus
  protocolVersion : ProtocolVersion
  delegateVersion : DelegateVersion
  deriving DecidableEq

end Ruserf
