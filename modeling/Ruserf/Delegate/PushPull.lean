import Ruserf.Clock.Witness
import Ruserf.Delegate.Effect

/-!
# Push/pull: `local_state` and `merge_remote_state`

`local_state` sends a node's clocks, its member and left tables and its event buffer as one
`PushPull` message; `merge_remote_state` witnesses the three clocks one below the peer's, replays
the peer's left members as leaves and its other members as joins, raises `min_time` on a join
that ignores old events, and replays the peer's events. `mergeRemoteState` does exactly what
`pushPullAlgorithm` lists, for every buffer, and leaves `min_time` at the larger of its own value
and the peer's event time exactly on such a join (`merge_remote_state_refines`).

Sent from one node to another, the clocks do not always catch up: a clock exactly one below the
peer's is witnessed at its own value, which `witness` leaves unchanged.
-/

namespace Ruserf

variable {I A Q R E : Type}

section Merge

variable (message : Codec (SerfMessage I A Q R) E) (encryption : Bool)

/-- `if ltime > LamportTime::ZERO { clock.witness(ltime - LamportTime(1)) }`. -/
def witnessPrevious (which : ClockName) (ltime : LamportTime) : DelegateM I A Q R Unit := do
  if ltime > 0 then emit (.witness which (← LamportTime.sub ltime 1))

/-- One event of a replayed bucket, at the bucket's time and with `cc: false`. -/
def replayEvent (ltime : LamportTime) (e : UserEvent) : DelegateM I A Q R Unit :=
  emit (.handleUserEvent ⟨ltime, e.name, e.payload, false⟩)

/-- One turn of the `events` loop: every event of a present bucket. -/
def replayBucket : Option UserEvents → DelegateM I A Q R Unit
  | some events => do for e in events.events do replayEvent events.ltime e
  | none => pure ()

theorem witnessPrevious_emits (which : ClockName) (ltime : LamportTime) :
    Emits (witnessPrevious which ltime : DelegateM I A Q R Unit)
      (if 0 < ltime then [.witness which (ltime - 1)] else []) := fun acc => by
  by_cases pos : 0 < ltime
  · simp [witnessPrevious, pos, LamportTime.sub_one_of_pos pos]
  · simp [witnessPrevious, pos]

theorem replayEvent_emits (ltime : LamportTime) (e : UserEvent) :
    Emits (replayEvent ltime e : DelegateM I A Q R Unit)
      [.handleUserEvent ⟨ltime, e.name, e.payload, false⟩] := emits_emit _

theorem replayBucket_emits (bucket : Option UserEvents) :
    Emits (replayBucket bucket : DelegateM I A Q R Unit)
      (match bucket with
        | some bucket =>
          bucket.events.map fun e => .handleUserEvent ⟨bucket.ltime, e.name, e.payload, false⟩
        | none => []) := by
  cases bucket with
  | none => exact emits_pure
  | some bucket =>
    intro acc
    simp only [replayBucket, StateT.run_bind, forIn_run _ _ (replayEvent_emits bucket.ltime),
      except_ok_bind, pure_run, List.map_eq_flatMap]

/-- The time a call raises `min_time` to, if it is a `raiseEventMinTime`. -/
def Call.raisedMinTime? : Call I A Q R → Option LamportTime
  | .raiseEventMinTime t => some t
  | _ => none

/-- `if pp.event_ltime > ec.min_time { ec.min_time = pp.event_ltime; }`, what a
`raiseEventMinTime` call does under `event_core`'s write lock. -/
def raiseMinTime (minTime eventLtime : LamportTime) : LamportTime :=
  if eventLtime > minTime then eventLtime else minTime

/-- `event_core.min_time` after a callback's calls, from `minTime`. -/
def eventMinTime (minTime : LamportTime) (cs : List (Call I A Q R)) : LamportTime :=
  (cs.filterMap Call.raisedMinTime?).foldl raiseMinTime minTime

/-- The check before the store makes the store a maximum. -/
theorem raiseMinTime_eq_max (minTime eventLtime : LamportTime) :
    raiseMinTime minTime eventLtime = max minTime eventLtime := by
  show _ = if minTime ≤ eventLtime then eventLtime else minTime
  unfold raiseMinTime
  split <;> split <;> simp_all only [gt_iff_lt, lt_iff_toNat, le_iff_toNat, eq_iff_toNat] <;> omega

variable [DecidableEq I] [DecidableEq A]

/-- One turn of the `left_members` loop: a leave at the node's status time, if it has one. -/
def leaveLeftMember (pp : PushPull I A) (node : Node I A) : DelegateM I A Q R Unit :=
  match pp.statusLtimes.get node with
  | some ltime => emit (.handleNodeLeaveIntent ⟨ltime, node, false⟩)
  | none => pure ()

/-- One turn of the `status_ltimes` loop: a join, skipping the left nodes. -/
def joinStatus (pp : PushPull I A) (entry : Node I A × LamportTime) : DelegateM I A Q R Unit :=
  if pp.leftMembers.contains entry.1 then pure ()
  else emit (.handleNodeJoinIntent ⟨entry.2, entry.1⟩)

/-- The `SerfMessage::PushPull(pp)` arm of `merge_remote_state`; `eventJoinIgnore` is the node's
`event_join_ignore`. -/
def mergePushPull (pp : PushPull I A) (isJoin eventJoinIgnore : Bool) :
    DelegateM I A Q R Unit := do
  witnessPrevious .clock pp.ltime
  witnessPrevious .eventClock pp.eventLtime
  witnessPrevious .queryClock pp.queryLtime
  for node in pp.leftMembers.elems do leaveLeftMember pp node
  for entry in pp.statusLtimes.entries do joinStatus pp entry
  if isJoin && eventJoinIgnore then emit (.raiseEventMinTime pp.eventLtime)
  for events in pp.events do replayBucket events

/-- `SerfDelegate::merge_remote_state`. An empty buffer, a bad type prefix, a type other than
`PushPull`, a failed decode and a decoded message of another variant are logged and dropped. -/
def mergeRemoteState (buf : Bytes) (isJoin eventJoinIgnore : Bool) : DelegateM I A Q R Unit := do
  if buf.isEmpty then return
  match MessageType.tryFrom encryption (← Bytes.index buf 0) with
  | .ok .pushPull =>
    match message.decode (← Bytes.sliceFrom buf 1) with
    | .ok (_, .pushPull pp) => mergePushPull pp isJoin eventJoinIgnore
    | _ => pure ()
  | _ => pure ()

/-- The clocks the push/pull algorithm witnesses: each one below the peer's, where that is
positive. -/
def pushPullWitnesses (pp : PushPull I A) : List (Call I A Q R) :=
  [(ClockName.clock, pp.ltime), (.eventClock, pp.eventLtime), (.queryClock, pp.queryLtime)].flatMap
    fun (which, t) => if 0 < t then [.witness which (t - 1)] else []

/-- What the push/pull algorithm replays after the clocks: a leave for each left member with a
status time; a join for each other member; `min_time` raised on a join that ignores old events;
and every event of every present bucket. -/
def pushPullReplays (pp : PushPull I A) (isJoin eventJoinIgnore : Bool) : List (Call I A Q R) :=
  pp.leftMembers.elems.filterMap
      (fun n => (pp.statusLtimes.get n).map (.handleNodeLeaveIntent ⟨·, n, false⟩)) ++
    (pp.statusLtimes.entries.filter (·.1 ∉ pp.leftMembers.elems)).map
      (fun (n, t) => .handleNodeJoinIntent ⟨t, n⟩) ++
    (if isJoin ∧ eventJoinIgnore then [.raiseEventMinTime pp.eventLtime] else []) ++
    pp.events.flatMap fun
      | some bucket =>
        bucket.events.map fun e => .handleUserEvent ⟨bucket.ltime, e.name, e.payload, false⟩
      | none => []

/-- The push/pull algorithm on a decoded `PushPull`, as the calls it makes in order. -/
def pushPullAlgorithm (pp : PushPull I A) (isJoin eventJoinIgnore : Bool) :
    List (Call I A Q R) :=
  pushPullWitnesses pp ++ pushPullReplays pp isJoin eventJoinIgnore

/-- What merging `buf` is for: the push/pull algorithm when `buf` is the `PushPull` tag followed
by bytes that decode to a `PushPull`, and nothing for any other buffer. -/
def remoteStateAlgorithm (buf : Bytes) (isJoin eventJoinIgnore : Bool) : List (Call I A Q R) :=
  match buf with
  | tag :: body =>
    if tag = MessageType.pushPull.tag then
      match message.decode body with
      | .ok (_, .pushPull pp) => pushPullAlgorithm pp isJoin eventJoinIgnore
      | _ => []
    else []
  | [] => []

/-- The `min_time` merging `buf` is to leave, in the spec's words: `max(min_time,
pp.event_ltime)` when `buf` carries a `PushPull` `pp` and the merge is a join that ignores old
events, and `min_time` otherwise. -/
def remoteStateMinTime (buf : Bytes) (isJoin eventJoinIgnore : Bool) (minTime : LamportTime) :
    LamportTime :=
  match buf with
  | tag :: body =>
    if tag = MessageType.pushPull.tag then
      match message.decode body with
      | .ok (_, .pushPull pp) =>
        if isJoin ∧ eventJoinIgnore then max minTime pp.eventLtime else minTime
      | _ => minTime
    else minTime
  | [] => minTime

theorem leaveLeftMember_emits (pp : PushPull I A) (node : Node I A) :
    Emits (leaveLeftMember pp node : DelegateM I A Q R Unit)
      ((pp.statusLtimes.get node).map (.handleNodeLeaveIntent ⟨·, node, false⟩)).toList := by
  unfold leaveLeftMember
  cases pp.statusLtimes.get node
  · exact emits_pure
  · exact emits_emit _

/-- A loop that makes one call for each element it does not skip makes the calls of the elements
kept. -/
theorem flatMap_unless {α β : Type} (p : α → Prop) [DecidablePred p] (f : α → β)
    (l : List α) :
    l.flatMap (fun x => if p x then [] else [f x]) = (l.filter fun x => ¬ p x).map f := by
  induction l with
  | nil => rfl
  | cons x l ih => by_cases h : p x <;> simp [h, ih]

theorem joinStatus_emits (pp : PushPull I A) (entry : Node I A × LamportTime) :
    Emits (joinStatus pp entry : DelegateM I A Q R Unit)
      (if entry.1 ∈ pp.leftMembers.elems then []
        else [.handleNodeJoinIntent ⟨entry.2, entry.1⟩]) := by
  simpa [joinStatus, IndexSet.contains] using Emits.ite emits_pure (emits_emit _)

/-- The arm for a decoded `PushPull` makes the calls of the push/pull algorithm, in its order. -/
theorem mergePushPull_emits (pp : PushPull I A) (isJoin eventJoinIgnore : Bool) :
    Emits (mergePushPull pp isJoin eventJoinIgnore : DelegateM I A Q R Unit)
      (pushPullAlgorithm pp isJoin eventJoinIgnore) := by
  intro acc
  have leaves := forIn_run _ _ (leaveLeftMember_emits (Q := Q) (R := R) pp) pp.leftMembers.elems
  have joins := forIn_run _ _ (joinStatus_emits (Q := Q) (R := R) pp) pp.statusLtimes.entries
  have events := forIn_run _ _ (replayBucket_emits (I := I) (A := A) (Q := Q) (R := R)) pp.events
  by_cases c : isJoin = true ∧ eventJoinIgnore = true <;>
  simp only [mergePushPull, StateT.run_bind, Emits.run_eq (witnessPrevious_emits _ _),
    except_ok_bind, leaves, joins, events, Bool.and_eq_true, c, and_self, ↓reduceIte, emit_run,
    pure_run, pushPullAlgorithm, pushPullWitnesses, pushPullReplays, List.flatMap_cons,
    List.flatMap_nil, List.append_nil, List.nil_append, List.filterMap_eq_flatMap_toList,
    flatMap_unless, List.append_assoc]

/-- `merge_remote_state` makes exactly the calls `remoteStateAlgorithm` lists, and never panics. -/
theorem mergeRemoteState_emits (buf : Bytes) (isJoin eventJoinIgnore : Bool) :
    Emits (mergeRemoteState message encryption buf isJoin eventJoinIgnore)
      (remoteStateAlgorithm message buf isJoin eventJoinIgnore) := by
  cases buf with
  | nil => exact emits_pure
  | cons tag body =>
    intro acc
    cases hty : MessageType.tryFrom encryption tag with
    | error e =>
      have other : tag ≠ MessageType.pushPull.tag := by
        rintro rfl
        rw [MessageType.tryFrom_tag encryption _ (by decide)] at hty
        cases hty
      simp [mergeRemoteState, hty, remoteStateAlgorithm, other]
    | ok ty =>
      obtain rfl := (MessageType.tag_of_tryFrom hty).symm
      simp only [mergeRemoteState, List.isEmpty_cons, Bool.false_eq_true, if_false,
        StateT.run_bind, liftM_ok_run, Bytes.index_cons_zero, except_ok_bind, hty]
      cases ty <;> simp [remoteStateAlgorithm, MessageType.tag]
      cases hd : message.decode body with
      | error e => simp [hd]
      | ok p =>
        obtain ⟨n, m⟩ := p
        cases m <;> simp [hd, Emits.run_eq (mergePushPull_emits _ _ _)]

/-- The push/pull algorithm raises `min_time` once, to the peer's event time, on a join that
ignores old events, and not otherwise. -/
theorem pushPullAlgorithm_raisedMinTimes (pp : PushPull I A) (isJoin eventJoinIgnore : Bool) :
    (pushPullAlgorithm pp isJoin eventJoinIgnore : List (Call I A Q R)).filterMap
        Call.raisedMinTime? = if isJoin ∧ eventJoinIgnore then [pp.eventLtime] else [] := by
  simp [pushPullAlgorithm, pushPullWitnesses, pushPullReplays, List.filterMap_flatMap,
    Call.raisedMinTime?, Function.comp_def, List.filterMap_filterMap, List.flatMap_eq_nil_iff,
    apply_ite (List.filterMap (Call.raisedMinTime? (I := I) (A := A) (Q := Q) (R := R))),
    Option.bind_map]
  rw [List.filterMap_eq_nil_iff.2 fun _ _ => rfl, List.filterMap_eq_nil_iff.2 fun _ _ => rfl,
    List.nil_append, List.nil_append, List.flatMap_eq_nil_iff.2 ?events, List.append_nil]
  case events => rintro (_ | b) - <;> simp [Call.raisedMinTime?]

/-- The calls of merging `buf` leave `min_time` where the spec says. -/
theorem eventMinTime_remoteStateAlgorithm (buf : Bytes) (isJoin eventJoinIgnore : Bool)
    (minTime : LamportTime) :
    eventMinTime minTime (remoteStateAlgorithm message buf isJoin eventJoinIgnore) =
      remoteStateMinTime message buf isJoin eventJoinIgnore minTime := by
  unfold remoteStateAlgorithm remoteStateMinTime
  split
  · split
    · split <;> try rfl
      simp only [eventMinTime, pushPullAlgorithm_raisedMinTimes]
      split <;> simp [raiseMinTime_eq_max]
    · rfl
  · rfl

/-- `SerfDelegate::merge_remote_state` refines the push/pull algorithm: on every buffer, whether
or not it is a join, it makes exactly the calls of `remoteStateAlgorithm`, in its order, and
leaves `event_core.min_time` at `max(min_time, pp.event_ltime)` on a join that ignores old events
and where it was otherwise. -/
theorem merge_remote_state_refines (buf : Bytes) (isJoin eventJoinIgnore : Bool) :
    calls (mergeRemoteState message encryption buf isJoin eventJoinIgnore) =
      .ok (remoteStateAlgorithm message buf isJoin eventJoinIgnore) ∧
    ∀ minTime, (calls (mergeRemoteState message encryption buf isJoin eventJoinIgnore)).map
        (eventMinTime minTime) =
      .ok (remoteStateMinTime message buf isJoin eventJoinIgnore minTime) :=
  have refines := (mergeRemoteState_emits message encryption buf isJoin eventJoinIgnore).calls
  ⟨refines, fun minTime => by
    rw [refines, ← eventMinTime_remoteStateAlgorithm]; rfl⟩

end Merge

section LocalState

variable [DecidableEq I] [DecidableEq A] (message : Codec (SerfMessage I A Q R) E)

/-- What `local_state` reads of a node: the node and status time of each member of
`members.states`, in its order, the left members, the three clocks and the event buffer. -/
structure LocalView (I A : Type) where
  states : List (Node I A × LamportTime)
  leftMembers : List (Node I A)
  clock : LamportTime
  eventClock : LamportTime
  events : List (Option UserEvents)
  queryClock : LamportTime

/-- The `PushPullRef` `local_state` builds from a view, its tables `collect`ed. -/
def LocalView.pushPull (view : LocalView I A) : PushPull I A :=
  ⟨view.clock, IndexMap.ofList view.states, IndexSet.ofList view.leftMembers, view.eventClock,
    view.events, view.queryClock⟩

/-- The three clock values a view captured. -/
def LocalView.clocks (view : LocalView I A) : ClockName → LamportTime
  | .clock => view.clock
  | .eventClock => view.eventClock
  | .queryClock => view.queryClock

/-- `SerfDelegate::local_state`: the `PushPull` tag, then the message encoded into a buffer of
its expected length; `Bytes::new()` when encoding fails, and the `debug_assert_eq!` fails when
the encoder reports another length. -/
def localState (view : LocalView I A) : Except Panic Bytes :=
  let msg := SerfMessage.pushPull (Q := Q) (R := R) view.pushPull
  let expected := message.encodedLen msg
  match message.encode msg (List.replicate expected 0) with
  | .ok (encodedLen, out) =>
    if expected = encodedLen then .ok (MessageType.pushPull.tag :: out) else .error .debugAssert
  | .error _ => .ok []

/-- With a codec that round-trips the view's `PushPull`, merging what `local_state` sends makes
the calls of the push/pull algorithm on that `PushPull`. -/
theorem merge_localState (view : LocalView I A)
    (roundTrips : message.RoundTrips (.pushPull view.pushPull))
    (encryption isJoin eventJoinIgnore : Bool) :
    ∃ buf, localState message view = .ok buf ∧
      calls (mergeRemoteState message encryption buf isJoin eventJoinIgnore) =
        .ok (pushPullAlgorithm view.pushPull isJoin eventJoinIgnore) := by
  obtain ⟨out, hencode, n, hdecode⟩ := roundTrips
  refine ⟨MessageType.pushPull.tag :: out, by simp [localState, hencode], ?_⟩
  rw [(mergeRemoteState_emits message encryption _ isJoin eventJoinIgnore).calls]
  simp [remoteStateAlgorithm, hdecode]

end LocalState

section Clocks

/-- A node's three clocks. -/
abbrev Clocks := ClockName → LamportTime

/-- A node's clocks after the `witness` calls of a callback, each run with no other thread on its
clock (`witnessAlone`), or `none` where one overflows. Only the delegate's own witnesses are
applied: the `Serf` handlers it calls live outside these sources. -/
def witnessCalls (clocks : Clocks) : List (Call I A Q R) → Option Clocks
  | [] => some clocks
  | .witness which t :: cs =>
    (LamportClock.witnessAlone (clocks which) t).bind
      fun c => witnessCalls (Function.update clocks which c) cs
  | _ :: cs => witnessCalls clocks cs

theorem witnessCalls_append (clocks : Clocks) (cs rest : List (Call I A Q R)) :
    witnessCalls clocks (cs ++ rest) = (witnessCalls clocks cs).bind (witnessCalls · rest) := by
  induction cs generalizing clocks with
  | nil => rfl
  | cons c cs ih =>
    cases c <;> simp only [List.cons_append, witnessCalls, List.append_eq, ih]
    case witness which t => cases LamportClock.witnessAlone (clocks which) t <;> simp [ih]

/-- Calls that witness no clock leave the clocks as they are. -/
theorem witnessCalls_of_no_witness (clocks : Clocks) (cs : List (Call I A Q R))
    (none : ∀ c ∈ cs, ∀ which t, c ≠ .witness which t) :
    witnessCalls clocks cs = some clocks := by
  induction cs with
  | nil => rfl
  | cons c cs ih =>
    have rest := ih fun c' hc' => none c' (List.mem_cons_of_mem _ hc')
    cases c <;> simp only [witnessCalls, rest]
    case witness which t => exact absurd rfl (none _ (List.mem_cons_self _ _) which t)

/-- Witnessing one below a positive time `t` moves a clock below `t - 1` to `t`, and leaves any
other clock where it is. -/
theorem witnessAlone_pred {t : LamportTime} (pos : 0 < t) (c : LamportTime) :
    LamportClock.witnessAlone c (t - 1) = some (if c < t - 1 then t else c) := by
  have pred : (t - 1).toNat = t.toNat - 1 := by simpa using UInt64.toNat_sub_of_le t 1 pos
  have below : t - 1 < t :=
    lt_iff_toNat.2 (by rw [pred]; exact Nat.sub_lt (lt_iff_toNat.1 pos) Nat.one_pos)
  unfold LamportClock.witnessAlone
  by_cases le : t - 1 ≤ c
  · have notLt : ¬ c < t - 1 := fun lt => Nat.not_le_of_lt (lt_iff_toNat.1 lt) (le_iff_toNat.1 le)
    simp [le, notLt]
  · have lt : c < t - 1 := lt_iff_toNat.2 (Nat.lt_of_not_le le)
    simp [le, lt, succ?, ne_u64Max_of_lt below]

/-- A clock after the guarded witness of `merge_remote_state` for a peer's time `a`. -/
def mergedClock (a b : LamportTime) : LamportTime := if 0 < a ∧ b < a - 1 then a else b

/-- The guarded witness never lowers a clock. -/
theorem le_mergedClock (a b : LamportTime) : b ≤ mergedClock a b := by
  unfold mergedClock
  split
  · next h => exact le_iff_toNat.2 (Nat.le_of_lt (Nat.lt_of_lt_of_le (lt_iff_toNat.1 h.2)
      (by rw [UInt64.toNat_sub_of_le a 1 h.1]; exact Nat.sub_le _ _)))
  · exact le_iff_toNat.2 (Nat.le_refl _)

/-- The guarded witness leaves a clock below the peer's exactly when it was one below it. -/
theorem mergedClock_lt_iff (a b : LamportTime) : mergedClock a b < a ↔ b.toNat + 1 = a.toNat := by
  unfold mergedClock
  by_cases pos : 0 < a
  · have pred : (a - 1).toNat = a.toNat - 1 := by simpa using UInt64.toNat_sub_of_le a 1 pos
    have pos : 0 < a.toNat := pos
    split <;> rename_i h <;>
      simp only [lt_iff_toNat, pred, not_and, not_lt, UInt64.toNat_zero] at h ⊢ <;> omega
  · have zero : a.toNat = 0 := by simpa [lt_iff_toNat] using pos
    simp only [pos, false_and, if_false, lt_iff_toNat, zero]
    omega

/-- For a positive peer's time `a`, the guarded witness is `witness(a - 1)` run alone. -/
theorem witnessAlone_mergedClock {a : LamportTime} (pos : 0 < a) (b : LamportTime) :
    LamportClock.witnessAlone b (a - 1) = some (mergedClock a b) := by
  rw [witnessAlone_pred pos]
  simp [mergedClock, pos]

theorem witnessCalls_witnessPrevious (clocks : Clocks) (which : ClockName) (a : LamportTime) :
    witnessCalls clocks (if 0 < a then [(.witness which (a - 1) : Call I A Q R)] else []) =
      some (Function.update clocks which (mergedClock a (clocks which))) := by
  by_cases pos : 0 < a
  · simp [witnessCalls, pos, witnessAlone_mergedClock pos]
  · simp [witnessCalls, pos, mergedClock]

/-- The three clock values a `PushPull` carries. -/
def PushPull.clocks (pp : PushPull I A) : ClockName → LamportTime
  | .clock => pp.ltime
  | .eventClock => pp.eventLtime
  | .queryClock => pp.queryLtime

variable [DecidableEq I] [DecidableEq A] (message : Codec (SerfMessage I A Q R) E)

/-- The replays witness no clock. -/
theorem pushPullReplays_no_witness (pp : PushPull I A) (isJoin eventJoinIgnore : Bool) :
    ∀ c ∈ (pushPullReplays pp isJoin eventJoinIgnore : List (Call I A Q R)), ∀ which t,
      c ≠ .witness which t := by
  simp only [pushPullReplays, List.mem_append, List.mem_filterMap, List.mem_map, List.mem_flatMap]
  rintro c (((⟨n, -, h⟩ | ⟨e, -, rfl⟩) | h) | ⟨b, -, h⟩) which t
  · obtain ⟨x, -, rfl⟩ := Option.map_eq_some'.1 h
    nofun
  · nofun
  · split at h <;> simp_all
  · rcases b with _ | b
    · cases h
    · obtain ⟨e, -, rfl⟩ := List.mem_map.1 h
      nofun

/-- After the push/pull algorithm's own witnesses, each clock is `mergedClock` of the peer's
value and its own. -/
theorem witnessCalls_pushPullAlgorithm (pp : PushPull I A) (isJoin eventJoinIgnore : Bool)
    (clocks : Clocks) :
    witnessCalls clocks (pushPullAlgorithm pp isJoin eventJoinIgnore : List (Call I A Q R)) =
      some fun c => mergedClock (pp.clocks c) (clocks c) := by
  simp only [pushPullAlgorithm, witnessCalls_append,
    witnessCalls_of_no_witness _ _ (pushPullReplays_no_witness pp isJoin eventJoinIgnore),
    pushPullWitnesses, List.flatMap_cons, List.flatMap_nil, List.append_nil,
    witnessCalls_witnessPrevious, Option.some_bind]
  congr 1
  funext c
  cases c <;> simp [Function.update, PushPull.clocks]

/-- Merging what `local_state` sends, a node's clocks after the merge's own witnesses: each moves
to the peer's value when it was more than one below it, and stays where it was otherwise. -/
theorem merge_localState_clocks (view : LocalView I A)
    (roundTrips : message.RoundTrips (.pushPull view.pushPull))
    (encryption isJoin eventJoinIgnore : Bool) (clocks : Clocks) :
    ∃ buf cs, localState message view = .ok buf ∧
      calls (mergeRemoteState message encryption buf isJoin eventJoinIgnore) = .ok cs ∧
      witnessCalls clocks cs = some fun c => mergedClock (view.clocks c) (clocks c) := by
  obtain ⟨buf, hbuf, hcalls⟩ := merge_localState message view roundTrips encryption isJoin
    eventJoinIgnore
  have captured : view.pushPull.clocks = view.clocks := funext fun c => by cases c <;> rfl
  exact ⟨buf, _, hbuf, hcalls, by rw [witnessCalls_pushPullAlgorithm, captured]⟩

/-- Merging what a peer's `local_state` sends never lowers a clock, and leaves it below the
peer's value exactly when it was one below: `witness(a - 1)` on a clock at `a - 1` returns at
its load. The atomic steps of `witness` agree: the merge's `witness(a - 1)` of a clock, run alone
by any thread from the clock's own value, returns, and leaves the clock where the merge says. -/
theorem merge_local_state_clock_one_behind (view : LocalView I A)
    (roundTrips : message.RoundTrips (.pushPull view.pushPull))
    (encryption isJoin eventJoinIgnore : Bool) (clocks : Clocks) :
    ∃ buf cs merged, localState message view = .ok buf ∧
      calls (mergeRemoteState message encryption buf isJoin eventJoinIgnore) = .ok cs ∧
      witnessCalls clocks cs = some merged ∧
      ∀ c, clocks c ≤ merged c ∧
        (merged c < view.clocks c ↔ (clocks c).toNat + 1 = (view.clocks c).toNat) ∧
        (0 < view.clocks c → ∀ tid,
          LamportClock.SoloWitness tid (view.clocks c - 1) (clocks c) (merged c)) := by
  obtain ⟨buf, cs, hbuf, hcalls, hmerged⟩ :=
    merge_localState_clocks message view roundTrips encryption isJoin eventJoinIgnore clocks
  exact ⟨buf, cs, _, hbuf, hcalls, hmerged, fun c => ⟨le_mergedClock _ _, mergedClock_lt_iff _ _,
    fun pos _ => .of_witnessAlone (witnessAlone_mergedClock pos _)⟩⟩

/-- A peer at 5 on every clock, with empty tables and buffer. -/
def peerAtFive : LocalView Unit Unit := ⟨[], [], 5, 5, [], 5⟩

/-- A node at 4 merging the `local_state` of a peer at 5 stays at 4 on every clock. -/
theorem merge_peer_at_five_stays_at_four :
    ∃ buf cs merged,
      localState (Codec.const (SerfMessage.pushPull (Q := Unit) (R := Unit) peerAtFive.pushPull))
        peerAtFive = .ok buf ∧
      calls (mergeRemoteState (Codec.const (SerfMessage.pushPull (Q := Unit) (R := Unit)
        peerAtFive.pushPull)) false buf true true) = .ok cs ∧
      witnessCalls (fun _ => 4) cs = some merged ∧
      ∀ c, (4 : LamportTime) ≤ merged c ∧
        (merged c < peerAtFive.clocks c ↔
          (4 : LamportTime).toNat + 1 = (peerAtFive.clocks c).toNat) ∧
        (0 < peerAtFive.clocks c → ∀ tid,
          LamportClock.SoloWitness tid (peerAtFive.clocks c - 1) 4 (merged c)) :=
  merge_local_state_clock_one_behind _ peerAtFive (Codec.const_roundTrips _) false true true _

end Clocks

end Ruserf
