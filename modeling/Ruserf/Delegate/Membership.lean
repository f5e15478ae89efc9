import Ruserf.Delegate.PushPull

/-!
# Push/pull carries the membership

`local_state` `collect`s a node's member table into an `IndexMap` from node to status time, and
its left members into an `IndexSet`. `merge_remote_state` replays the left members that have a
status time as leaves, and the other members as joins (`core/src/serf/delegate.rs`). The member
table is keyed by node id, so its nodes are distinct. A node merging what a peer's `local_state`
sends then makes, for every member of the peer, exactly one leave intent at its status time when
the member is among the left ones, exactly one join intent at its status time otherwise, and no
other leave or join (`merge_local_state_replays_members`). A left member listed twice still
leaves once, and a left member without a status time does not leave at all. The leave is at the
status time itself: the comment above the loop speaks of going one past the join time, and the
code does not.
-/

namespace Ruserf

variable {I A Q R E : Type}

namespace IndexSet

variable {K : Type} [DecidableEq K]

theorem mem_insert {s : IndexSet K} {k k' : K} :
    k' ∈ (s.insert k).elems ↔ k' ∈ s.elems ∨ k' = k := by
  unfold insert
  split
  · next present => exact ⟨.inl, fun | .inl h => h | .inr rfl => present⟩
  · simp

/-- `collect()` into an `IndexSet` keeps exactly the elements it was given. -/
@[simp] theorem mem_ofList {l : List K} {k : K} : k ∈ (ofList l).elems ↔ k ∈ l := by
  suffices ∀ s : IndexSet K, k ∈ (l.foldl insert s).elems ↔ k ∈ s.elems ∨ k ∈ l by
    simpa [ofList, empty] using this empty
  induction l with
  | nil => simp
  | cons x l ih =>
    intro s
    simp only [List.foldl_cons, ih, mem_insert, List.mem_cons, or_assoc]

end IndexSet

namespace IndexMap

variable {K V : Type} [DecidableEq K]

/-- A key not yet there goes last. -/
theorem insert_entries_of_not_mem {m : IndexMap K V} {k : K} {v : V}
    (h : k ∉ m.entries.map Prod.fst) : (m.insert k v).entries = m.entries ++ [(k, v)] := by
  simp only [insert, dif_neg h]

/-- With distinct keys, `collect()` into an `IndexMap` keeps the pairs as they came. -/
theorem ofList_entries {l : List (K × V)} (distinct : (l.map Prod.fst).Nodup) :
    (ofList l).entries = l := by
  suffices ∀ (l : List (K × V)) (m : IndexMap K V), ((m.entries ++ l).map Prod.fst).Nodup →
      (l.foldl (fun m e => m.insert e.1 e.2) m).entries = m.entries ++ l from
    this l empty distinct
  intro l
  induction l with
  | nil => simp
  | cons e l ih =>
    intro m nd
    have fresh : e.1 ∉ m.entries.map Prod.fst := by
      rw [List.map_append, List.map_cons] at nd
      exact fun h => List.nodup_append.1 nd |>.2.2 h (List.mem_cons_self _ _)
    have next := insert_entries_of_not_mem (v := e.2) fresh
    rw [List.foldl_cons, ih _ (by rwa [next, List.append_assoc]), next, List.append_assoc,
      List.singleton_append]

theorem lookup_eq_some_iff {k : K} {v : V} :
    ∀ {l : List (K × V)}, (l.map Prod.fst).Nodup → (l.lookup k = some v ↔ (k, v) ∈ l)
  | [], _ => by simp
  | (a, b) :: l, nd => by
    rw [List.map_cons, List.nodup_cons] at nd
    by_cases same : k = a
    · subst same
      simp only [List.lookup_cons_self, Option.some.injEq, List.mem_cons, Prod.mk.injEq,
        true_and]
      exact ⟨fun h => .inl h.symm,
        fun | .inl h => h.symm | .inr h => absurd (List.mem_map_of_mem Prod.fst h) nd.1⟩
    · simp [List.lookup_cons, beq_false_of_ne same, same, lookup_eq_some_iff nd.2]

/-- Under the map's distinct keys, `get` finds exactly its entries. -/
theorem get_eq_some_iff {m : IndexMap K V} {k : K} {v : V} :
    m.get k = some v ↔ (k, v) ∈ m.entries :=
  lookup_eq_some_iff m.nodup

end IndexMap

/-- The message of a leave intent, if the call is one. -/
def Call.leaveIntent? : Call I A Q R → Option (LeaveMessage I A)
  | .handleNodeLeaveIntent l => some l
  | _ => none

/-- The message of a join intent, if the call is one. -/
def Call.joinIntent? : Call I A Q R → Option (JoinMessage I A)
  | .handleNodeJoinIntent j => some j
  | _ => none

section Replay

variable [DecidableEq I] [DecidableEq A]

/-- The push/pull algorithm's leave intents: one for each left member with a status time. -/
theorem pushPullAlgorithm_leaves (pp : PushPull I A) (isJoin eventJoinIgnore : Bool) :
    (pushPullAlgorithm pp isJoin eventJoinIgnore : List (Call I A Q R)).filterMap
        Call.leaveIntent? =
      pp.leftMembers.elems.filterMap fun n => (pp.statusLtimes.get n).map (⟨·, n, false⟩) := by
  simp [pushPullAlgorithm, pushPullWitnesses, pushPullReplays, List.filterMap_flatMap,
    Call.leaveIntent?, Function.comp_def, List.filterMap_filterMap, List.flatMap_eq_nil_iff,
    apply_ite (List.filterMap (Call.leaveIntent? (I := I) (A := A) (Q := Q) (R := R))),
    Option.bind_map]
  rw [List.filterMap_eq_nil_iff.2 fun _ _ => rfl, List.nil_append,
    List.flatMap_eq_nil_iff.2 ?events, List.append_nil]
  · congr
    funext n
    cases pp.statusLtimes.get n <;> rfl
  case events => rintro (_ | b) - <;> simp [Call.leaveIntent?]

/-- The push/pull algorithm's join intents: one for each member that is not left. -/
theorem pushPullAlgorithm_joins (pp : PushPull I A) (isJoin eventJoinIgnore : Bool) :
    (pushPullAlgorithm pp isJoin eventJoinIgnore : List (Call I A Q R)).filterMap
        Call.joinIntent? =
      (pp.statusLtimes.entries.filter (·.1 ∉ pp.leftMembers.elems)).map fun e => ⟨e.2, e.1⟩ := by
  simp [pushPullAlgorithm, pushPullWitnesses, pushPullReplays, List.filterMap_flatMap,
    Call.joinIntent?, Function.comp_def, List.filterMap_filterMap, List.flatMap_eq_nil_iff,
    apply_ite (List.filterMap (Call.joinIntent? (I := I) (A := A) (Q := Q) (R := R))),
    Option.bind_map]
  rw [List.filterMap_eq_nil_iff.2 fun _ _ => rfl, List.nil_append,
    List.flatMap_eq_nil_iff.2 ?events, List.append_nil]
  · exact congrFun (List.filterMap_eq_map _) _
  case events => rintro (_ | b) - <;> simp [Call.joinIntent?]

/-- Each leave message comes from one left member, so it is made at most once. -/
theorem count_leaves (pp : PushPull I A) (l : LeaveMessage I A) :
    (pp.leftMembers.elems.filterMap fun n => (pp.statusLtimes.get n).map (⟨·, n, false⟩)).count l =
      if l.node ∈ pp.leftMembers.elems ∧ (l.node, l.ltime) ∈ pp.statusLtimes.entries ∧
        l.prune = false then 1 else 0 := by
  have distinct : (pp.leftMembers.elems.filterMap fun n =>
      (pp.statusLtimes.get n).map (⟨·, n, false⟩ : LamportTime → LeaveMessage I A)).Nodup :=
    pp.leftMembers.nodup.filterMap fun _ _ _ ha ha' => by
      obtain ⟨_, -, rfl⟩ := Option.map_eq_some'.1 ha
      obtain ⟨_, -, same⟩ := Option.map_eq_some'.1 ha'
      exact (congrArg LeaveMessage.node same).symm
  have mem : l ∈ (pp.leftMembers.elems.filterMap fun n =>
        (pp.statusLtimes.get n).map (⟨·, n, false⟩ : LamportTime → LeaveMessage I A)) ↔
      l.node ∈ pp.leftMembers.elems ∧ (l.node, l.ltime) ∈ pp.statusLtimes.entries ∧
        l.prune = false := by
    simp only [List.mem_filterMap, Option.map_eq_some', IndexMap.get_eq_some_iff]
    constructor
    · rintro ⟨n, hn, t, ht, rfl⟩
      exact ⟨hn, ht, rfl⟩
    · rintro ⟨hn, ht, hp⟩
      exact ⟨l.node, hn, l.ltime, ht, by rw [← hp]⟩
  rw [List.count_eq_of_nodup distinct]
  simp only [mem]

/-- Each join message comes from one entry of the member table, so it is made at most once. -/
theorem count_joins (pp : PushPull I A) (j : JoinMessage I A) :
    ((pp.statusLtimes.entries.filter (·.1 ∉ pp.leftMembers.elems)).map
        fun e => (⟨e.2, e.1⟩ : JoinMessage I A)).count j =
      if j.node ∉ pp.leftMembers.elems ∧ (j.node, j.ltime) ∈ pp.statusLtimes.entries
      then 1 else 0 := by
  have distinct : ((pp.statusLtimes.entries.filter (·.1 ∉ pp.leftMembers.elems)).map
      fun e => (⟨e.2, e.1⟩ : JoinMessage I A)).Nodup :=
    ((List.Nodup.of_map Prod.fst pp.statusLtimes.nodup).filter _).map fun a b h => by
      cases a; cases b; cases h; rfl
  have mem : j ∈ (pp.statusLtimes.entries.filter (·.1 ∉ pp.leftMembers.elems)).map
        (fun e => (⟨e.2, e.1⟩ : JoinMessage I A)) ↔
      j.node ∉ pp.leftMembers.elems ∧ (j.node, j.ltime) ∈ pp.statusLtimes.entries := by
    rw [List.mem_map]
    constructor
    · rintro ⟨⟨n, t⟩, he, rfl⟩
      obtain ⟨he, left⟩ := List.mem_filter.1 he
      exact ⟨of_decide_eq_true left, he⟩
    · rintro ⟨left, he⟩
      exact ⟨(j.node, j.ltime), List.mem_filter.2 ⟨he, decide_eq_true left⟩, rfl⟩
  rw [List.count_eq_of_nodup distinct]
  simp only [mem]

end Replay

section LocalState

variable [DecidableEq I] [DecidableEq A] (message : Codec (SerfMessage I A Q R) E)

/-- A node merging what a peer's `local_state` sends, with a message codec that round-trips the
peer's `PushPull` and a peer whose member table lists each node once (it is keyed by node id):
each leave intent it makes is for a left member of the peer, at that member's status time and
without pruning, and is made once; each join intent is for a member that is not left, at its
status time, and is made once. -/
theorem merge_local_state_replays_members (view : LocalView I A)
    (roundTrips : message.RoundTrips (.pushPull view.pushPull))
    (distinct : (view.states.map Prod.fst).Nodup) (encryption isJoin eventJoinIgnore : Bool) :
    ∃ buf cs, localState message view = .ok buf ∧
      calls (mergeRemoteState message encryption buf isJoin eventJoinIgnore) = .ok cs ∧
      (∀ l : LeaveMessage I A, (cs.filterMap Call.leaveIntent?).count l =
        if l.node ∈ view.leftMembers ∧ (l.node, l.ltime) ∈ view.states ∧ l.prune = false
        then 1 else 0) ∧
      ∀ j : JoinMessage I A, (cs.filterMap Call.joinIntent?).count j =
        if j.node ∉ view.leftMembers ∧ (j.node, j.ltime) ∈ view.states then 1 else 0 := by
  obtain ⟨buf, hbuf, hcalls⟩ :=
    merge_localState message view roundTrips encryption isJoin eventJoinIgnore
  have entries : view.pushPull.statusLtimes.entries = view.states :=
    IndexMap.ofList_entries distinct
  refine ⟨buf, _, hbuf, hcalls, fun l => ?_, fun j => ?_⟩
  · rw [pushPullAlgorithm_leaves, count_leaves, entries]
    simp only [LocalView.pushPull, IndexSet.mem_ofList]
  · rw [pushPullAlgorithm_joins, count_joins, entries]
    simp only [LocalView.pushPull, IndexSet.mem_ofList]

end LocalState

/-- A peer with members 0, 1 and 2 at status times 3, 5 and 7, whose left members list node 1
twice and node 9, which has no status time. -/
def leavingPeer : LocalView Nat Unit :=
  ⟨[(⟨0, ()⟩, 3), (⟨1, ()⟩, 5), (⟨2, ()⟩, 7)], [⟨1, ()⟩, ⟨1, ()⟩, ⟨9, ()⟩], 4, 0, [], 0⟩

/-- A codec that hands back `leavingPeer`'s `PushPull`. -/
def leavingPeerCodec : Codec (SerfMessage Nat Unit Unit Unit) Unit :=
  Codec.const (.pushPull leavingPeer.pushPull)

/-- The membership replay for `leavingPeer`. -/
theorem merge_local_state_replays_leaving_peer :
    leavingPeerCodec.RoundTrips (.pushPull leavingPeer.pushPull) ∧
    (leavingPeer.states.map Prod.fst).Nodup ∧
    ∃ buf cs, localState leavingPeerCodec leavingPeer = .ok buf ∧
      calls (mergeRemoteState leavingPeerCodec false buf false false) = .ok cs ∧
      (∀ l : LeaveMessage Nat Unit, (cs.filterMap Call.leaveIntent?).count l =
        if l.node ∈ leavingPeer.leftMembers ∧ (l.node, l.ltime) ∈ leavingPeer.states ∧
          l.prune = false
        then 1 else 0) ∧
      ∀ j : JoinMessage Nat Unit, (cs.filterMap Call.joinIntent?).count j =
        if j.node ∉ leavingPeer.leftMembers ∧ (j.node, j.ltime) ∈ leavingPeer.states then 1
        else 0 :=
  have roundTrips : leavingPeerCodec.RoundTrips (.pushPull leavingPeer.pushPull) :=
    Codec.const_roundTrips _
  have distinct : (leavingPeer.states.map Prod.fst).Nodup := by decide
  ⟨roundTrips, distinct,
    merge_local_state_replays_members leavingPeerCodec leavingPeer roundTrips distinct false false
      false⟩

example : (localState leavingPeerCodec leavingPeer).bind
      (calls <| mergeRemoteState leavingPeerCodec false · false false) =
    .ok [.witness .clock 3, .handleNodeLeaveIntent ⟨5, ⟨1, ()⟩, false⟩,
      .handleNodeJoinIntent ⟨3, ⟨0, ()⟩⟩, .handleNodeJoinIntent ⟨7, ⟨2, ()⟩⟩] := by
  rfl

end Ruserf
