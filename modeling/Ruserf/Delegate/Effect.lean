import Ruserf.Types

/-!
# What a delegate callback does

`SerfDelegate` (`core/src/serf/delegate.rs`) reads bytes through the user's `TransformDelegate`
and acts on the rest of the node: it witnesses the node's clocks, calls the `Serf`'s handlers,
queues broadcasts and sends through memberlist. Those collaborators live outside these sources,
so a callback is modelled by the calls it makes, in order (`Call`), written in a state monad
over that list that can also panic (`DelegateM`). The handlers' verdicts come in as `Handlers`.
Log lines are left out: they only write diagnostics.

`Emits m out` says that running `m` appends exactly `out` to what was emitted before; the loop
lemma `forIn_run` turns a `for` loop of the source into the `flatMap` of its body's calls.
-/

namespace Ruserf

/-- One kind of value's methods of a `TransformDelegate`: `*_encoded_len`, `encode_*` into a
caller's `&mut [u8]` (which keeps its length), and `decode_*` from the front of a slice, each
`Ok` with the number of bytes written or read. -/
structure Codec (α E : Type) where
  encodedLen : α → Nat
  encode : α → Bytes → Except E (Nat × Bytes)
  decode : Bytes → Except E (Nat × α)
  encode_length : ∀ a dst n out, encode a dst = .ok (n, out) → out.length = dst.length

namespace Codec

variable {α E : Type}

/-- The decoder never reports more bytes read than it was given. -/
def Consumes (codec : Codec α E) : Prop :=
  ∀ b n a, codec.decode b = .ok (n, a) → n ≤ b.length

/-- Encoding `a` into a buffer of its encoded length fills it, and decoding what was written
returns `a`. -/
def RoundTrips (codec : Codec α E) (a : α) : Prop :=
  ∃ out,
    codec.encode a (List.replicate (codec.encodedLen a) 0) = .ok (codec.encodedLen a, out) ∧
    ∃ m, codec.decode out = .ok (m, a)

/-- A codec that reads and writes nothing. -/
def never (α : Type) : Codec α Unit where
  encodedLen _ := 0
  encode _ _ := .error ()
  decode _ := .error ()
  encode_length _ _ _ _ h := by cases h

/-- A codec that writes nothing and reads `a` from any bytes. -/
def const (a : α) : Codec α Unit where
  encodedLen _ := 0
  encode _ dst := .ok (0, dst)
  decode _ := .ok (0, a)
  encode_length _ _ _ _ h := by cases h; rfl

/-- A byte as itself. -/
def byte : Codec UInt8 Unit where
  encodedLen _ := 1
  encode x dst := match dst with
    | _ :: rest => .ok (1, x :: rest)
    | [] => .error ()
  decode
    | x :: _ => .ok (1, x)
    | [] => .error ()
  encode_length x dst n out h := by
    match dst, h with
    | _ :: rest, h => cases h; rfl

theorem byte_roundTrips (x : UInt8) : byte.RoundTrips x := ⟨[x], rfl, 1, rfl⟩

theorem const_roundTrips (a : α) : (const a).RoundTrips a := ⟨[], rfl, 0, rfl⟩

end Codec

/-- The node's three Lamport clocks. -/
inductive ClockName where
  | clock
  | eventClock
  | queryClock
  deriving DecidableEq, Repr

/-- The node's three broadcast queues. -/
inductive Queue where
  /-- `broadcasts`: membership intents. -/
  | broadcasts
  /-- `event_broadcasts`. -/
  | eventBroadcasts
  /-- `query_broadcasts`. -/
  | queryBroadcasts
  deriving DecidableEq, Repr

/-- What a delegate callback asks of the rest of the node. -/
inductive Call (I A Q R : Type) where
  /-- `LamportClock::witness` on one of the node's clocks. -/
  | witness (which : ClockName) (t : LamportTime)
  /-- `Serf::handle_node_leave_intent`. -/
  | handleNodeLeaveIntent (l : LeaveMessage I A)
  /-- `Serf::handle_node_join_intent`. -/
  | handleNodeJoinIntent (j : JoinMessage I A)
  /-- `Serf::handle_user_event`. -/
  | handleUserEvent (e : UserEventMessage)
  /-- `Serf::handle_query`. -/
  | handleQuery (q : Q)
  /-- `Serf::handle_query_response`. -/
  | handleQueryResponse (r : R)
  /-- Under the `event_core` write lock, `min_time` is raised to `t` if it is below. -/
  | raiseEventMinTime (t : LamportTime)
  /-- `queue_broadcast` of a `SerfBroadcast` carrying these bytes. -/
  | queueBroadcast (queue : Queue) (msg : Bytes)
  /-- `memberlist.send(address, msg)`. -/
  | send (address : A) (msg : Bytes)
  deriving DecidableEq

/-- The verdicts of the `Serf`'s handlers, whether to rebroadcast what they were given. -/
structure Handlers (I A Q : Type) where
  nodeLeaveIntent : LeaveMessage I A → Bool
  nodeJoinIntent : JoinMessage I A → Bool
  userEvent : UserEventMessage → Bool
  query : Q → Bool

/-- A delegate callback: it appends its calls to the list of those made so far, or panics. -/
abbrev DelegateM (I A Q R : Type) := StateT (List (Call I A Q R)) (Except Panic)

variable {I A Q R : Type}

/-- Make one call. -/
def emit (c : Call I A Q R) : DelegateM I A Q R Unit := modify (· ++ [c])

/-- The calls of a callback, or its panic. -/
def calls (m : DelegateM I A Q R Unit) : Except Panic (List (Call I A Q R)) :=
  (m.run []).map (·.2)

/-- Running `m` appends exactly `out` to whatever was emitted before. -/
def Emits (m : DelegateM I A Q R Unit) (out : List (Call I A Q R)) : Prop :=
  ∀ acc, m.run acc = .ok ((), acc ++ out)

@[simp] theorem except_pure {ε α : Type} (a : α) : (pure a : Except ε α) = .ok a := rfl

@[simp] theorem except_ok_bind {ε α β : Type} (a : α) (f : α → Except ε β) :
    (Except.ok a >>= f) = f a := rfl

@[simp] theorem except_error_bind {ε α β : Type} (e : ε) (f : α → Except ε β) :
    (Except.error e >>= f) = .error e := rfl

/-- A bind that returns: the first computation returned, and the rest did on its value. -/
theorem except_bind_eq_ok {ε α β : Type} {x : Except ε α} {f : α → Except ε β} {b : β} :
    x >>= f = .ok b ↔ ∃ a, x = .ok a ∧ f a = .ok b := by
  cases x with
  | error e => exact ⟨nofun, fun ⟨_, h, _⟩ => nomatch h⟩
  | ok a => exact ⟨fun h => ⟨a, rfl, h⟩, fun ⟨_, h, h'⟩ => by cases h; exact h'⟩

/-- A traversal (`collect::<Result<_, _>>()`) that returns: every element's result, in order. -/
theorem mapM_eq_ok_iff {ε α β : Type} (f : α → Except ε β) (xs : List α) (ys : List β) :
    xs.mapM f = .ok ys ↔ List.Forall₂ (fun x y => f x = .ok y) xs ys := by
  induction xs generalizing ys with
  | nil => cases ys <;> simp only [List.mapM_nil, except_pure, Except.ok.injEq] <;> simp
  | cons x xs ih =>
    cases ys <;> simp only [List.mapM_cons, except_bind_eq_ok, ih, except_pure, Except.ok.injEq]
      <;> simp

/-- A traversal over a list with an element that fails, fails. -/
theorem mapM_eq_error_of_mem {ε α β : Type} {f : α → Except ε β} {x : α} {e : ε}
    (fails : f x = .error e) : ∀ {xs : List α}, x ∈ xs → ∃ e', xs.mapM f = .error e'
  | a :: as, mem => by
    rw [List.mapM_cons]
    cases ha : f a with
    | error e' => exact ⟨e', rfl⟩
    | ok b =>
      rcases List.mem_cons.1 mem with rfl | mem
      · rw [ha] at fails; cases fails
      · obtain ⟨e', rest⟩ := mapM_eq_error_of_mem fails mem
        exact ⟨e', by rw [except_ok_bind, rest]; rfl⟩

/-- A traversal that fails, fails at one of the elements. -/
theorem exists_mem_of_mapM_eq_error {ε α β : Type} {f : α → Except ε β} {e : ε} :
    ∀ {xs : List α}, xs.mapM f = .error e → ∃ x ∈ xs, f x = .error e
  | [], h => nomatch h
  | a :: as, h => by
    rw [List.mapM_cons] at h
    cases ha : f a with
    | error e' => rw [ha] at h; cases h; exact ⟨a, List.mem_cons_self _ _, ha⟩
    | ok b =>
      rw [ha, except_ok_bind] at h
      cases hs : as.mapM f with
      | error e' =>
        rw [hs] at h; cases h
        obtain ⟨x, mem, hx⟩ := exists_mem_of_mapM_eq_error hs
        exact ⟨x, List.mem_cons_of_mem _ mem, hx⟩
      | ok bs => rw [hs] at h; cases h

@[simp] theorem except_map_ok {ε α β : Type} (f : α → β) (a : α) :
    Except.map f (.ok a : Except ε α) = .ok (f a) := rfl

@[simp] theorem except_map_error {ε α β : Type} (f : α → β) (e : ε) :
    Except.map f (.error e : Except ε α) = .error e := rfl

@[simp] theorem emit_run (c : Call I A Q R) (acc : List (Call I A Q R)) :
    (emit c).run acc = .ok ((), acc ++ [c]) := rfl

@[simp] theorem pure_run {α : Type} (a : α) (acc : List (Call I A Q R)) :
    (pure a : DelegateM I A Q R α).run acc = .ok (a, acc) := rfl

@[simp] theorem liftM_ok_run {α : Type} (a : α) (acc : List (Call I A Q R)) :
    (liftM (Except.ok a : Except Panic α) : DelegateM I A Q R α).run acc = .ok (a, acc) := rfl

theorem Emits.run_eq {m : DelegateM I A Q R Unit} {out : List (Call I A Q R)} (h : Emits m out)
    (acc : List (Call I A Q R)) : m.run acc = .ok ((), acc ++ out) := h acc

theorem Emits.calls {m : DelegateM I A Q R Unit} {out : List (Call I A Q R)} (h : Emits m out) :
    calls m = .ok out := by
  simp [Ruserf.calls, h []]

theorem emits_pure : Emits (pure () : DelegateM I A Q R Unit) [] := fun acc => by simp

theorem emits_emit (c : Call I A Q R) : Emits (emit c) [c] := fun _ => rfl

theorem Emits.ite {p : Prop} [Decidable p] {m m' : DelegateM I A Q R Unit}
    {out out' : List (Call I A Q R)} (h : Emits m out) (h' : Emits m' out') :
    Emits (if p then m else m') (if p then out else out') := by
  split <;> assumption

/-- A `for` loop whose body, at each element, emits that element's calls emits them all in
order. -/
theorem forIn_run {α : Type} (body : α → DelegateM I A Q R Unit)
    (g : α → List (Call I A Q R)) (hbody : ∀ x, Emits (body x) (g x)) (l : List α)
    (acc : List (Call I A Q R)) :
    (forIn l () (fun x _ => do body x; pure (ForInStep.yield ()))).run acc =
      .ok ((), acc ++ l.flatMap g) := by
  induction l generalizing acc with
  | nil => simp [List.forIn_nil]
  | cons x l ih =>
    simp only [List.forIn_cons, StateT.run_bind, hbody x acc, except_ok_bind, pure_run, ih,
      List.flatMap_cons, List.append_assoc]

end Ruserf
