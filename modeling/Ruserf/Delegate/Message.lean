import Ruserf.Delegate.Effect

/-!
# `notify_message`

memberlist hands every gossiped byte string to `SerfDelegate::notify_message`. The tag byte picks
the arm; four arms (`Leave`, `Join`, `UserEvent`, `Query`) decode the body, check that it is the
variant the tag names, run its handler and rebroadcast the whole message if the handler says so,
each on its own queue. `QueryResponse` goes to its handler without a rebroadcast, `Relay` forwards
what follows the destination node, and every other tag is dropped.
-/

namespace Ruserf

variable {I A Q R E : Type}

/-- The handler `notify_message` runs on a decoded message, with the handler's verdict, for the
four variants whose handler decides on a rebroadcast. -/
def Handlers.handle (serf : Handlers I A Q) : SerfMessage I A Q R → Option (Call I A Q R × Bool)
  | .leave l => some (.handleNodeLeaveIntent l, serf.nodeLeaveIntent l)
  | .join j => some (.handleNodeJoinIntent j, serf.nodeJoinIntent j)
  | .userEvent e => some (.handleUserEvent e, serf.userEvent e)
  | .query q => some (.handleQuery q, serf.query q)
  | _ => none

/-- The message a call hands to a handler, if it is a handler call. -/
def Call.handled? : Call I A Q R → Option (SerfMessage I A Q R)
  | .handleNodeLeaveIntent l => some (.leave l)
  | .handleNodeJoinIntent j => some (.join j)
  | .handleUserEvent e => some (.userEvent e)
  | .handleQuery q => some (.query q)
  | .handleQueryResponse r => some (.queryResponse r)
  | _ => none

/-- The queue and bytes of a `queue_broadcast` call. -/
def Call.queued? : Call I A Q R → Option (Queue × Bytes)
  | .queueBroadcast q msg => some (q, msg)
  | _ => none

/-- The broadcasts a callback queues; a callback that panics queues none. -/
def queued : Except Panic (List (Call I A Q R)) → List (Queue × Bytes)
  | .ok cs => cs.filterMap Call.queued?
  | .error _ => []

section

variable (message : Codec (SerfMessage I A Q R) E) (node : Codec (Node I A) E)
  (serf : Handlers I A Q) (encryption : Bool)

/-- One of the four rebroadcasting arms of `notify_message`: decode `msg[1..]`; if it is the
variant `ty` the tag named, run its handler, and keep `msg` for `queue` if the handler says so.
A wrong variant ("ruserf: receive unexpected message") or a failed decode is dropped. -/
def rebroadcastArm (msg : Bytes) (ty : MessageType) (queue : Queue) :
    DelegateM I A Q R (Option Bytes × Queue) := do
  match message.decode (← Bytes.sliceFrom msg 1) with
  | .ok (_, m) =>
    match (if m.messageType = ty then serf.handle m else none) with
    | some (c, verdict) =>
      emit c
      return (if verdict then some msg else none, queue)
    | none => return (none, .broadcasts)
  | .error _ => return (none, .broadcasts)

/-- The `match` of `notify_message` on the tag byte: the arm's calls, and the bytes it leaves
for a rebroadcast with the queue they go on. -/
def routeMessage (msg : Bytes) (tag : UInt8) : DelegateM I A Q R (Option Bytes × Queue) :=
  match MessageType.tryFrom encryption tag with
  | .ok .leave => rebroadcastArm message serf msg .leave .broadcasts
  | .ok .join => rebroadcastArm message serf msg .join .broadcasts
  | .ok .userEvent => rebroadcastArm message serf msg .userEvent .eventBroadcasts
  | .ok .query => rebroadcastArm message serf msg .query .queryBroadcasts
  | .ok .queryResponse => do
    match message.decode (← Bytes.sliceFrom msg 1) with
    | .ok (_, .queryResponse r) => emit (.handleQueryResponse r)
    | _ => pure ()
    pure (none, .broadcasts)
  | .ok .relay => do
    match node.decode (← Bytes.sliceFrom msg 1) with
    | .ok (consumed, n) => emit (.send n.address (← Bytes.advance msg (consumed + 1)))
    | .error _ => pure ()
    pure (none, .broadcasts)
  | .ok _ => pure (none, .broadcasts)
  | .error _ => pure (none, .broadcasts)

/-- `SerfDelegate::notify_message`. -/
def notifyMessage (msg : Bytes) : DelegateM I A Q R Unit := do
  if msg.isEmpty then return
  let (rebroadcast, queue) ← routeMessage message node serf encryption msg (← Bytes.index msg 0)
  if let some m := rebroadcast then emit (.queueBroadcast queue m)

/-- The rebroadcast rule, stated on the message alone: a non-empty `msg` whose first byte is the
tag of `Leave`, `Join`, `UserEvent` or `Query`, whose rest decodes to that variant, and whose
handler says so, is queued whole: on `broadcasts` for `Leave` and `Join`, on `event_broadcasts`
for `UserEvent` and on `query_broadcasts` for `Query`. -/
def rebroadcastOf (msg : Bytes) : Option (Queue × Bytes) :=
  match msg with
  | [] => none
  | tag :: body =>
    match message.decode body with
    | .ok (_, .leave l) =>
      if tag = MessageType.leave.tag ∧ serf.nodeLeaveIntent l then some (.broadcasts, msg)
      else none
    | .ok (_, .join j) =>
      if tag = MessageType.join.tag ∧ serf.nodeJoinIntent j then some (.broadcasts, msg) else none
    | .ok (_, .userEvent e) =>
      if tag = MessageType.userEvent.tag ∧ serf.userEvent e then some (.eventBroadcasts, msg)
      else none
    | .ok (_, .query q) =>
      if tag = MessageType.query.tag ∧ serf.query q then some (.queryBroadcasts, msg) else none
    | _ => none

/-- No rebroadcast is due for a tag other than those of the four rebroadcasting variants. -/
theorem rebroadcastOf_eq_none (tag : UInt8) (body : Bytes)
    (h : tag ≠ MessageType.leave.tag ∧ tag ≠ MessageType.join.tag ∧
      tag ≠ MessageType.userEvent.tag ∧ tag ≠ MessageType.query.tag) :
    rebroadcastOf message serf (tag :: body) = none := by
  obtain ⟨h1, h2, h3, h4⟩ := h
  simp only [rebroadcastOf]
  split <;> simp only [h1, h2, h3, h4, false_and, ↓reduceIte]

/-- A body that decodes to a variant other than the one the tag names is not rebroadcast. -/
theorem rebroadcastOf_of_ne {tag : UInt8} {body : Bytes} {n : Nat} {m : SerfMessage I A Q R}
    (hd : message.decode body = .ok (n, m)) (other : m.messageType.tag ≠ tag) :
    rebroadcastOf message serf (tag :: body) = none := by
  cases m <;> simp only [SerfMessage.messageType] at other <;>
    simp [rebroadcastOf, hd, Ne.symm other]

/-- What the arm for `tag :: body` does: it queues nothing itself, hands its handlers only a
decoding of `body` of the variant `tag` names, and leaves the rebroadcast `rebroadcastOf` gives;
it panics only in `Relay`, when the node decoder reports more bytes than it was given. -/
def RouteSpec (tag : UInt8) (body : Bytes) :
    Except Panic ((Option Bytes × Queue) × List (Call I A Q R)) → Prop
  | .ok out => (∀ c ∈ out.2, c.queued? = none) ∧
    (∀ c ∈ out.2, ∀ m, c.handled? = some m →
      m.messageType.tag = tag ∧ ∃ n, message.decode body = .ok (n, m)) ∧
    out.1.1.map (out.1.2, ·) = rebroadcastOf message serf (tag :: body)
  | .error _ => tag = MessageType.relay.tag ∧
    ∃ consumed n, node.decode body = .ok (consumed, n) ∧ body.length < consumed

/-- Every arm of `notify_message` meets `RouteSpec`. -/
theorem routeMessage_spec (tag : UInt8) (body : Bytes) :
    RouteSpec message node serf tag body
      ((routeMessage message node serf encryption (tag :: body) tag).run []) := by
  cases hty : MessageType.tryFrom encryption tag with
  | error e =>
    simp only [routeMessage, hty, pure_run, RouteSpec]
    refine ⟨by simp, by simp, (rebroadcastOf_eq_none message serf tag body ?_).symm⟩
    refine ⟨?_, ?_, ?_, ?_⟩ <;> rintro rfl <;>
      rw [MessageType.tryFrom_tag encryption _ (by decide)] at hty <;> cases hty
  | ok ty =>
    obtain rfl := (MessageType.tag_of_tryFrom hty).symm
    cases ty <;> simp only [routeMessage, hty, rebroadcastArm, StateT.run_bind, liftM_ok_run,
      Bytes.sliceFrom_cons_one, except_ok_bind]
    case leave | join | userEvent | query =>
      cases hd : message.decode body with
      | error e => simp [RouteSpec, rebroadcastOf, hd]
      | ok p =>
        obtain ⟨n, m⟩ := p
        dsimp only
        split
        · next c v h =>
          split at h
          · next same =>
            cases m <;> cases same
            cases h
            simp only [StateT.run_bind, emit_run, except_ok_bind, pure_run, List.nil_append,
              RouteSpec, List.mem_singleton, forall_eq]
            refine ⟨rfl, fun m handled => ?_, ?_⟩
            · cases handled; exact ⟨rfl, n, hd⟩
            · simp only [rebroadcastOf, hd, true_and]
              split_ifs <;> rfl
          · cases h
        · next h =>
          split at h
          · next same =>
            cases m <;> cases same
            cases h
          · next other =>
            exact ⟨by simp, by simp, (rebroadcastOf_of_ne message serf hd
              fun h => other (MessageType.tag_inj.1 h)).symm⟩
    case pushPull | conflictResponse | keyRequest | keyResponse =>
      exact ⟨by simp, by simp, (rebroadcastOf_eq_none message serf _ body (by decide)).symm⟩
    case queryResponse =>
      have none := (rebroadcastOf_eq_none message serf MessageType.queryResponse.tag body
        (by decide)).symm
      split
      · next n r hd =>
        simp only [StateT.run_bind, emit_run, except_ok_bind, pure_run, List.nil_append,
          RouteSpec, List.mem_singleton, forall_eq]
        refine ⟨rfl, fun m handled => ?_, none⟩
        cases handled; exact ⟨rfl, n, hd⟩
      · exact ⟨by simp, by simp, none⟩
    case relay =>
      have none := (rebroadcastOf_eq_none message serf MessageType.relay.tag body (by decide)).symm
      cases hd : node.decode body with
      | error e => exact ⟨by simp, by simp, none⟩
      | ok p =>
        obtain ⟨consumed, n⟩ := p
        simp only [Bytes.advance]
        split
        · exact ⟨by simp [Call.queued?], by simp [Call.handled?], none⟩
        · exact ⟨rfl, consumed, n, hd, by simp only [List.length_cons] at *; omega⟩

/-- `notify_message` on `tag :: body`: the arm's calls, then the rebroadcast it left. -/
theorem notifyMessage_cons_calls (tag : UInt8) (body : Bytes) :
    calls (notifyMessage message node serf encryption (tag :: body)) =
      ((routeMessage message node serf encryption (tag :: body) tag).run []).map
        fun out => out.2 ++ (out.1.1.map fun m => Call.queueBroadcast out.1.2 m).toList := by
  simp only [calls, notifyMessage, List.isEmpty_cons, Bool.false_eq_true, if_false,
    StateT.run_bind, liftM_ok_run, Bytes.index_cons_zero, except_ok_bind, pure_run]
  cases h : (routeMessage message node serf encryption (tag :: body) tag).run [] with
  | error e => rfl
  | ok out =>
    obtain ⟨⟨rb, q⟩, cs⟩ := out
    cases rb <;> simp [h]

@[simp] theorem notifyMessage_nil_calls :
    calls (notifyMessage message node serf encryption []) = .ok [] := rfl

/-- `notify_message` queues exactly the rebroadcast `rebroadcastOf` describes, one `SerfBroadcast`
of the whole message on the queue of its variant or none, and it hands a handler only a decoding
of `msg[1..]` of the variant `msg[0]` names. -/
theorem notify_message_rebroadcasts (msg : Bytes) :
    queued (calls (notifyMessage message node serf encryption msg)) =
      (rebroadcastOf message serf msg).toList ∧
    ∀ cs, calls (notifyMessage message node serf encryption msg) = .ok cs →
      ∀ c ∈ cs, ∀ m, c.handled? = some m →
        ∃ body n, msg = m.messageType.tag :: body ∧ message.decode body = .ok (n, m) := by
  cases msg with
  | nil => exact ⟨rfl, by rintro cs ⟨⟩ c hc; cases hc⟩
  | cons tag body =>
    rw [notifyMessage_cons_calls]
    have spec := routeMessage_spec message node serf encryption tag body
    revert spec
    cases (routeMessage message node serf encryption (tag :: body) tag).run [] with
    | error p =>
      rintro ⟨rfl, -⟩
      rw [rebroadcastOf_eq_none message serf _ body (by decide)]
      exact ⟨rfl, by rintro cs ⟨⟩⟩
    | ok out =>
      obtain ⟨⟨rb, q⟩, cs⟩ := out
      rintro ⟨noQueue, handled, hrb⟩
      dsimp only at noQueue handled hrb
      rw [← hrb]
      refine ⟨?_, ?_⟩
      · simp only [except_map_ok, queued, List.filterMap_append,
          List.filterMap_eq_nil_iff.2 noQueue]
        cases rb <;> rfl
      · rintro cs' ⟨⟩ c hc m hm
        rcases List.mem_append.1 hc with hc | hc
        · obtain ⟨htag, n, hd⟩ := handled c hc m hm
          exact ⟨body, n, by rw [htag], hd⟩
        · obtain ⟨m', -, rfl⟩ := Option.map_eq_some'.1 (Option.mem_toList.1 hc)
          cases hm

/-- `notify_message` panics only where the node decoder reports more bytes than it was given. -/
theorem notifyMessage_ok (consumes : node.Consumes) (msg : Bytes) :
    ∃ cs, calls (notifyMessage message node serf encryption msg) = .ok cs := by
  cases msg with
  | nil => exact ⟨[], rfl⟩
  | cons tag body =>
    rw [notifyMessage_cons_calls]
    have spec := routeMessage_spec message node serf encryption tag body
    revert spec
    cases (routeMessage message node serf encryption (tag :: body) tag).run [] with
    | error p =>
      rintro ⟨-, consumed, n, hd, past⟩
      exact absurd (consumes _ _ _ hd) (Nat.not_le_of_lt past)
    | ok out => exact fun _ => ⟨_, rfl⟩

/-- A `Relay` message whose node encoding `enc` decodes to `n` whatever follows it is forwarded to
`n`'s address as exactly the bytes after the encoding, once, and nothing else is done. -/
theorem notify_message_relays (n : Node I A) (enc inner : Bytes)
    (hnode : ∀ s, node.decode (enc ++ s) = .ok (enc.length, n)) :
    calls (notifyMessage message node serf encryption (MessageType.relay.tag :: (enc ++ inner))) =
      .ok [.send n.address inner] := by
  have drop : Bytes.advance (MessageType.relay.tag :: (enc ++ inner)) (enc.length + 1) =
      .ok inner := by
    rw [Bytes.advance_of_le (by simp)]
    simp
  simp only [notifyMessage_cons_calls, routeMessage, MessageType.tryFrom_tag encryption .relay
    (by decide), StateT.run_bind, liftM_ok_run, Bytes.sliceFrom_cons_one, except_ok_bind, hnode,
    drop, emit_run, pure_run]
  rfl

end

/-- A node as two bytes, its id and its address. -/
def nodeBytes : Codec (Node UInt8 UInt8) Unit where
  encodedLen _ := 2
  encode n dst := match dst with
    | _ :: _ :: rest => .ok (2, n.id :: n.address :: rest)
    | _ => .error ()
  decode
    | i :: a :: _ => .ok (2, ⟨i, a⟩)
    | _ => .error ()
  encode_length n dst k out h := by
    match dst, h with
    | _ :: _ :: rest, h => cases h; rfl

theorem nodeBytes_consumes : nodeBytes.Consumes := by
  rintro (_ | ⟨i, _ | ⟨a, rest⟩⟩) n node h <;> cases h
  simp

/-- Relaying to node `⟨1, 2⟩` with the two-byte node codec. -/
theorem notify_message_relays_two_bytes :
    (∀ s, nodeBytes.decode ([1, 2] ++ s) = .ok ([1, 2].length, ⟨1, 2⟩)) ∧
    calls (notifyMessage (Codec.never (SerfMessage UInt8 UInt8 Unit Unit)) nodeBytes
        ⟨fun _ => true, fun _ => true, fun _ => true, fun _ => true⟩ false
        (MessageType.relay.tag :: ([1, 2] ++ [9, 8]))) =
      .ok [.send 2 [9, 8]] :=
  ⟨fun _ => rfl,
    notify_message_relays _ nodeBytes _ false ⟨1, 2⟩ [1, 2] [9, 8] fun _ => rfl⟩

end Ruserf
