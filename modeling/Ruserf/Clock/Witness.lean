import Ruserf.Clock.Runs

/-!
# A witness on its own, and where the clock overflows

Run with no other thread touching the clock, `witness(t)` from a clock at `c` leaves `c` when
`t ≤ c` and `t + 1` otherwise (`witnessAlone`): the load's `current >= time.0` returns at once
when the clock already equals `t`, so on that diagonal the clock is not moved one past `t`.
The atomic steps agree: a thread inside `witness(t)` that runs alone returns within two steps,
with the clock `witnessAlone` gives (`SoloWitness.of_witnessAlone`).
The code computes past `u64::MAX` in exactly two places: an `increment` whose `fetch_add` meets
the word at `u64::MAX`, and the `t + 1` of a `witness(u64::MAX)` that reaches its exchange.
-/

namespace Ruserf.LamportClock

/-- `witness(t)` on a clock at `c` that no other thread touches, when its exchange does not fail
spuriously: the clock it leaves, or `none` where `t + 1` overflows. -/
def witnessAlone (c t : LamportTime) : Option LamportTime :=
  if t ≤ c then some c else succ? t

/-- Thread `tid` is inside `witness(t)` and the word is still the `c` the call started from. -/
def InWitness (tid : Nat) (t c : LamportTime) (s : LamportClock) : Prop :=
  s.word = c ∧ (s.pc tid = .witnessLoad t ∨ ∃ below, s.pc tid = .witnessCas t c below)

/-- A step of the witnessing thread alone keeps it inside `witness(t)` with the word unchanged,
or returns with the word `witnessAlone` gives, or overflows where `witnessAlone` does. -/
theorem InWitness.next {tid : Nat} {t c : LamportTime} {s s' : LamportClock} {op : Op} {r : Ret}
    (hin : InWitness tid t c s) (hop : op.tid = tid) (h : step s op = some (s', r)) :
    (r = .internal ∧ InWitness tid t c s') ∨
      (r = .witnessed t ∧ witnessAlone c t = some s'.word) ∨
      (r = .overflowed ∧ witnessAlone c t = none) := by
  obtain ⟨rfl, hpc | ⟨below, hpc⟩⟩ := hin <;>
    cases op <;> simp only [Op.tid] at hop <;> subst hop <;>
    simp only [LamportClock.step, hpc, reduceCtorEq] at h
  case inl.load =>
    split at h <;> simp only [Option.some.injEq, Prod.mk.injEq] at h <;> obtain ⟨rfl, rfl⟩ := h
    · exact .inr (.inl ⟨rfl, if_pos ‹_›⟩)
    · exact .inl ⟨rfl, rfl, .inr ⟨_, setPc_pc_self _ _ _⟩⟩
  case inr.intro.cas spurious =>
    have above : ¬ t ≤ s.word := fun le => absurd (Nat.lt_of_lt_of_le below le) (Nat.lt_irrefl _)
    cases hs : succ? t with
    | none =>
      simp only [hs, Option.some.injEq, Prod.mk.injEq] at h
      obtain ⟨rfl, rfl⟩ := h
      exact .inr (.inr ⟨rfl, by rw [witnessAlone, if_neg above, hs]⟩)
    | some next =>
      simp only [hs] at h
      split at h <;> simp only [Option.some.injEq, Prod.mk.injEq] at h <;>
        obtain ⟨rfl, rfl⟩ := h
      · exact .inr (.inl ⟨rfl, by rw [witnessAlone, if_neg above, hs]⟩)
      · exact .inl ⟨rfl, rfl, .inl (setPc_pc_self _ _ _)⟩

/-- Run alone from inside `witness(t)`, the thread's first return leaves the word `witnessAlone`
gives, or is the overflow `witnessAlone` predicts. -/
theorem InWitness.first_return {tid : Nat} {t c : LamportTime} :
    ∀ {s : LamportClock} (pre : List Event) {e : Event} {post : List Event},
      InWitness tid t c s → Runs s (pre ++ e :: post) →
      (∀ e ∈ pre ++ e :: post, e.op.tid = tid) →
      (∀ e' ∈ pre, e'.ret = .internal) → e.ret ≠ .internal →
      (e.ret = .witnessed t ∧ witnessAlone c t = some e.after.word) ∨
        (e.ret = .overflowed ∧ witnessAlone c t = none)
  | _, [], _, _, hin, .cons hstep _, solo, _, returned =>
    (hin.next (solo _ (List.mem_cons_self _ _)) hstep).resolve_left fun h => returned h.1
  | _, e0 :: pre, _, _, hin, .cons hstep tail, solo, internal, returned => by
    have first := hin.next (solo _ (List.mem_cons_self _ _)) hstep
    have h0 : e0.ret = .internal := internal _ (List.mem_cons_self _ _)
    rcases first with ⟨-, next⟩ | ⟨hr, -⟩ | ⟨hr, -⟩
    · exact first_return pre next tail (fun e he => solo e (List.mem_cons_of_mem _ he))
        (fun e he => internal e (List.mem_cons_of_mem _ he)) returned
    all_goals rw [hr] at h0; cases h0

/-- At the exchange, with the word still the value loaded, a non-spurious
`compare_exchange_weak` returns. -/
theorem cas_returns {tid : Nat} {t : LamportTime} {s : LamportClock} {below : s.word < t}
    (hpc : s.pc tid = .witnessCas t s.word below) :
    ∃ s' r, step s (.cas tid false) = some (s', r) ∧ r ≠ .internal := by
  simp only [LamportClock.step, hpc]
  cases succ? t <;> simp <;> exact ⟨_, _, ⟨rfl, rfl⟩, nofun⟩

/-- Alone and without spurious failures, `witness(t)` returns within two steps: at its load when
`t ≤ c`, at its exchange otherwise. -/
theorem InWitness.returns {tid : Nat} {t c : LamportTime} {s : LamportClock}
    (hin : InWitness tid t c s) :
    ∃ run, Runs s run ∧ run.length ≤ 2 ∧ (∀ e ∈ run, e.op.tid = tid) ∧
      ∃ e ∈ run, e.ret ≠ .internal := by
  obtain ⟨rfl, hpc | ⟨below, hpc⟩⟩ := hin
  · by_cases le : t ≤ s.word
    · exact ⟨[⟨.load tid, .witnessed t, s.setPc tid .idle⟩],
        .cons (by simp only [LamportClock.step, hpc, dif_pos le]) (.nil _), by simp,
        by simp [Op.tid], ⟨_, List.mem_cons_self _ _, nofun⟩⟩
    · let s1 := s.setPc tid (.witnessCas t s.word (Nat.lt_of_not_le le))
      obtain ⟨s', r, hstep, hr⟩ := @cas_returns tid t s1 _ (setPc_pc_self _ _ _)
      exact ⟨[⟨.load tid, .internal, s1⟩, ⟨.cas tid false, r, s'⟩],
        .cons (by simp only [LamportClock.step, hpc, dif_neg le, s1]) (.cons hstep (.nil _)),
        by simp, by simp [Op.tid], ⟨_, List.mem_cons_of_mem _ (List.mem_cons_self _ _), hr⟩⟩
  · obtain ⟨s', r, hstep, hr⟩ := cas_returns hpc
    exact ⟨[⟨.cas tid false, r, s'⟩], .cons hstep (.nil _), by simp, by simp [Op.tid],
      ⟨_, List.mem_cons_self _ _, hr⟩⟩

/-- `witness(t)`, entered on a clock at `c`, leaves it at `w` when its thread runs alone: the call
returns within two steps when no exchange fails spuriously, and wherever it first returns,
spurious failures or not, it returns `witnessed t` with the clock at `w`. -/
def SoloWitness (tid : Nat) (t c w : LamportTime) : Prop :=
  ∀ s, InWitness tid t c s →
    (∃ run, Runs s run ∧ run.length ≤ 2 ∧ (∀ e ∈ run, e.op.tid = tid) ∧
      ∃ e ∈ run, e.ret ≠ .internal) ∧
    ∀ (pre : List Event) e post, Runs s (pre ++ e :: post) →
      (∀ e ∈ pre ++ e :: post, e.op.tid = tid) → (∀ e' ∈ pre, e'.ret = .internal) →
      e.ret ≠ .internal → e.ret = .witnessed t ∧ e.after.word = w

/-- Where `witnessAlone` gives a clock, `witness` run alone on the atomic steps leaves it there. -/
theorem SoloWitness.of_witnessAlone {tid : Nat} {t c w : LamportTime}
    (h : witnessAlone c t = some w) : SoloWitness tid t c w := fun _ hin =>
  ⟨hin.returns, fun pre _ _ run solo internal returned =>
    match hin.first_return pre run solo internal returned with
    | .inl ⟨hr, hw⟩ => ⟨hr, Option.some.inj (hw.symm.trans h)⟩
    | .inr ⟨_, overflows⟩ => nomatch overflows.symm.trans h⟩

/-- On the diagonal: on a clock at `c`, `witness(c)` returns at its first load and leaves the
clock at `c`, where `max(c, c + 1)` would be `c + 1`. -/
theorem witness_of_current_value_keeps_clock (c : LamportTime) (tid : Nat) :
    (runOps ⟨c, fun _ => .idle⟩ [.witness tid c, .load tid]).map
        (·.map fun e => (e.ret, e.after.word)) =
      some [(.internal, c), (.witnessed c, c)] := by
  simp [runOps, LamportClock.step, setPc]

/-- The time a thread inside `witness` is witnessing. -/
def Pc.witnessing? : Pc → Option LamportTime
  | .witnessLoad t | .witnessCas t _ _ => some t
  | _ => none

/-- The two places the code computes past `u64::MAX`: a `fetch_add` that meets the word at
`u64::MAX`, and the exchange of a `witness(u64::MAX)`. -/
theorem step_overflowed_iff {s : LamportClock} {op : Op} :
    (∃ s', step s op = some (s', .overflowed)) ↔
      (∃ tid, op = .increment tid ∧ s.pc tid = .idle ∧ s.word = u64Max) ∨
      (∃ tid spurious current below, op = .cas tid spurious ∧
        s.pc tid = .witnessCas u64Max current below) := by
  constructor
  · rintro ⟨s', h⟩
    cases op with
    | increment tid =>
      simp only [LamportClock.step] at h
      split at h
      · cases hs : succ? s.word <;> simp only [hs, Option.some.injEq, Prod.mk.injEq,
          reduceCtorEq, and_false] at h
        exact .inl ⟨tid, rfl, ‹_›, succ?_eq_none.1 hs⟩
      · cases h
    | cas tid spurious =>
      simp only [LamportClock.step] at h
      split at h
      · rename_i t current below hpc
        cases hs : succ? t with
        | none =>
          obtain rfl := succ?_eq_none.1 hs
          exact .inr ⟨tid, spurious, current, below, rfl, hpc⟩
        | some next =>
          simp only [hs] at h
          split at h <;> simp at h
      · cases h
    | time tid | witness tid _ | load tid =>
      simp only [LamportClock.step] at h
      repeat' split at h
      all_goals simp at h
  · rintro (⟨tid, rfl, hpc, hmax⟩ | ⟨tid, spurious, current, below, rfl, hpc⟩)
    · simp [LamportClock.step, hpc, hmax, succ?]
    · simp [LamportClock.step, hpc, succ?]

/-- Every thread inside `witness` witnesses a time below `u64::MAX`. -/
def TimesBelow (s : LamportClock) : Prop :=
  ∀ tid t, (s.pc tid).witnessing? = some t → t ≠ u64Max

theorem TimesBelow.setPc {s : LamportClock} {tid : Nat} {p : Pc} (hs : TimesBelow s)
    (hp : ∀ t, p.witnessing? = some t → t ≠ u64Max) : TimesBelow (s.setPc tid p) := by
  intro tid' t ht
  by_cases same : tid' = tid
  · subst same; exact hp t (by simpa using ht)
  · exact hs tid' t (by simpa [LamportClock.setPc, Function.update_noteq same] using ht)

/-- A step keeps every witnessed time below `u64::MAX` when a `witness` call it starts does. -/
theorem step_timesBelow {s s' : LamportClock} {op : Op} {r : Ret}
    (h : step s op = some (s', r)) (hs : TimesBelow s)
    (hop : ∀ tid t, op = .witness tid t → t ≠ u64Max) : TimesBelow s' := by
  have keep : ∀ tid p, (∀ t, p.witnessing? = some t → t ≠ u64Max) →
      TimesBelow (s.setPc tid p) :=
    fun _ _ hp => hs.setPc hp
  cases op with
  | increment tid =>
    simp only [LamportClock.step] at h
    split at h
    · cases hs' : succ? s.word <;> simp only [hs', Option.some.injEq, Prod.mk.injEq] at h <;>
        obtain ⟨rfl, rfl⟩ := h
      · exact TimesBelow.setPc hs (by simp [Pc.witnessing?])
      · exact hs
    · cases h
  | time tid =>
    simp only [LamportClock.step] at h
    split at h
    · simp only [Option.some.injEq, Prod.mk.injEq] at h; obtain ⟨rfl, rfl⟩ := h; exact hs
    · cases h
  | witness tid t =>
    simp only [LamportClock.step] at h
    split at h
    · simp only [Option.some.injEq, Prod.mk.injEq] at h; obtain ⟨rfl, rfl⟩ := h
      exact keep _ _ (by simpa [Pc.witnessing?] using hop tid t rfl)
    · cases h
  | load tid =>
    simp only [LamportClock.step] at h
    split at h
    · rename_i t hpc
      have below := hs tid t (by rw [hpc]; rfl)
      split at h <;> simp only [Option.some.injEq, Prod.mk.injEq] at h <;>
        obtain ⟨rfl, rfl⟩ := h
      · exact keep _ _ (by simp [Pc.witnessing?])
      · exact keep _ _ (by simpa [Pc.witnessing?] using below)
    · cases h
  | cas tid spurious =>
    simp only [LamportClock.step] at h
    split at h
    · rename_i t current _ hpc
      have below := hs tid t (by rw [hpc]; rfl)
      cases hs' : succ? t with
      | none =>
        simp only [hs', Option.some.injEq, Prod.mk.injEq] at h; obtain ⟨rfl, rfl⟩ := h
        exact keep _ _ (by simp [Pc.witnessing?])
      | some next =>
        simp only [hs'] at h
        split at h <;> simp only [Option.some.injEq, Prod.mk.injEq] at h <;>
          obtain ⟨rfl, rfl⟩ := h
        · exact @TimesBelow.setPc { s with word := next } tid .idle hs (by simp [Pc.witnessing?])
        · exact keep _ _ (by simpa [Pc.witnessing?] using below)
    · cases h

/-- A run whose clock values stay below `u64::MAX` and whose witnessed times do never overflows. -/
theorem Runs.no_overflow {s : LamportClock} {run : List Event} (h : Runs s run)
    (hs : TimesBelow s) (bounded : Bounded s run)
    (witnessed : ∀ e ∈ run, ∀ tid t, e.op = .witness tid t → t ≠ u64Max) :
    ∀ e ∈ run, e.ret ≠ .overflowed := by
  induction h with
  | nil s => simp
  | @cons s e run hstep tail ih =>
    simp only [List.mem_cons, forall_eq_or_imp]
    refine ⟨fun hret => ?_, ih (step_timesBelow hstep hs (witnessed e (List.mem_cons_self _ _)))
      bounded.tail fun e' he' => witnessed e' (List.mem_cons_of_mem _ he')⟩
    rcases step_overflowed_iff.1 ⟨_, hret ▸ hstep⟩ with ⟨tid, -, -, hmax⟩ |
      ⟨tid, -, current, below, -, hpc⟩
    · exact bounded.head_ne hmax
    · exact hs tid u64Max (by rw [hpc]; rfl) rfl

/-- Overflow happens exactly at a `fetch_add` meeting `u64::MAX` and at the exchange of a
`witness(u64::MAX)`; so a run that keeps every clock value and every witnessed time below
`u64::MAX`, from threads that witness nothing larger, never overflows. -/
theorem clock_overflow_points :
    (∀ (s : LamportClock) (op : Op), (∃ s', step s op = some (s', .overflowed)) ↔
      (∃ tid, op = .increment tid ∧ s.pc tid = .idle ∧ s.word = u64Max) ∨
      (∃ tid spurious current below, op = .cas tid spurious ∧
        s.pc tid = .witnessCas u64Max current below)) ∧
    (∀ (s : LamportClock) (run : List Event), Runs s run → TimesBelow s → Bounded s run →
      (∀ e ∈ run, ∀ tid t, e.op = .witness tid t → t ≠ u64Max) →
      ∀ e ∈ run, e.ret ≠ .overflowed) :=
  ⟨fun _ _ => step_overflowed_iff, fun _ _ h hs bounded witnessed =>
    h.no_overflow hs bounded witnessed⟩

/-- The test schedule keeps its clock values and its witnessed times below `u64::MAX`, so none of
its steps overflows. -/
theorem clock_overflow_points_on_test :
    Runs fresh testRun ∧ TimesBelow fresh ∧ Bounded fresh testRun ∧
    (∀ e ∈ testRun, ∀ tid t, e.op = .witness tid t → t ≠ u64Max) ∧
    ∀ e ∈ testRun, e.ret ≠ .overflowed :=
  have runs : Runs fresh testRun := @runOps_runs fresh testSchedule testRun rfl
  have times : TimesBelow fresh := fun _ _ between => nomatch between
  have bounded : Bounded fresh testRun := by decide
  have witnessed : ∀ e ∈ testRun, ∀ tid t, e.op = .witness tid t → t ≠ u64Max := by
    intro e he tid t hop
    have ops : testRun.map (·.op) = testSchedule := by decide
    have scheduled : Op.witness tid t ∈ testSchedule := hop ▸ ops ▸ List.mem_map_of_mem _ he
    simp only [testSchedule, List.mem_cons, Op.witness.injEq, reduceCtorEq, false_or,
      List.mem_nil_iff, or_false] at scheduled
    rcases scheduled with ⟨-, rfl⟩ | ⟨-, rfl⟩ | ⟨-, rfl⟩ <;> decide
  ⟨runs, times, bounded, witnessed, clock_overflow_points.2 _ _ runs times bounded witnessed⟩

/-- A peer's `u64::MAX` overflows the clock: `witness(u64::MAX)` on a fresh clock panics at its
exchange, and after `witness(u64::MAX - 1)` (what `merge_remote_state` calls for a push/pull time
of `u64::MAX`) the next `increment` panics. -/
theorem peer_time_overflows_clock :
    (runOps fresh [.witness 0 u64Max, .load 0, .cas 0 false]).map (·.map (·.ret)) =
      some [.internal, .internal, .overflowed] ∧
    (runOps fresh [.witness 0 (u64Max - 1), .load 0, .cas 0 false, .increment 0]).map
        (·.map (·.ret)) =
      some [.internal, .internal, .witnessed (u64Max - 1), .overflowed] := by
  decide

end Ruserf.LamportClock
