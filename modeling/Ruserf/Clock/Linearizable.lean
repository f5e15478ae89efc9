import Ruserf.Clock.Witness

/-!
# The lock-free clock is an atomic clock

`LamportClock::increment` is one `fetch_add` and `time` one load, but `witness` loops over a load
and a `compare_exchange_weak` and can take any number of steps, interleaved with other threads'
(`types/src/clock.rs`). Under every interleaving the clock still behaves as one atomic Lamport
clock:

* the steps that return nothing leave the word as it was, and the calls that returned, replayed
  one at a time on an atomic clock in the order they returned, return what the run returned and
  end at the run's word (`Runs.refines_atomic`);
* the loop is lock-free up to spurious failures: an exchange that fails without failing
  spuriously comes after a store by another thread, a `fetch_add` or a successful exchange, made
  since the thread's load (`Runs.failed_exchange_follows_store`).

Everything here follows from `step_transition`, which lists the steps a scheduler can take.
-/

namespace Ruserf.LamportClock

/-- Every step a scheduler can take: the position that enables it, and the clock and the return
it gives. -/
inductive Transition (s : LamportClock) : Op → LamportClock → Ret → Prop where
  /-- `fetch_add(1)` below `u64::MAX`, returning the word it stores. -/
  | increment {tid : Nat} : s.pc tid = .idle → s.word ≠ u64Max →
      Transition s (.increment tid) { s with word := s.word + 1 } (.incremented (s.word + 1))
  /-- `fetch_add(1)` at `u64::MAX`: the word wraps and the `+ 1` on the old value panics. -/
  | wrap {tid : Nat} : s.pc tid = .idle → s.word = u64Max →
      Transition s (.increment tid) (setPc { s with word := s.word + 1 } tid .panicked)
        .overflowed
  /-- `time()` loads the word. -/
  | time {tid : Nat} : s.pc tid = .idle → Transition s (.time tid) s (.read s.word)
  /-- `witness(t)` is called. -/
  | call {tid : Nat} {t : LamportTime} : s.pc tid = .idle →
      Transition s (.witness tid t) (s.setPc tid (.witnessLoad t)) .internal
  /-- The load sees the word at or past `t`, and `witness` returns. -/
  | loadReturn {tid : Nat} {t : LamportTime} : s.pc tid = .witnessLoad t → t ≤ s.word →
      Transition s (.load tid) (s.setPc tid .idle) (.witnessed t)
  /-- The load sees the word below `t`; the exchange comes next. -/
  | loadBelow {tid : Nat} {t : LamportTime} (below : s.word < t) : s.pc tid = .witnessLoad t →
      Transition s (.load tid) (s.setPc tid (.witnessCas t s.word below)) .internal
  /-- `t + 1` overflows before the exchange. -/
  | casOverflow {tid : Nat} {spurious : Bool} {current : LamportTime} {below : current < u64Max} :
      s.pc tid = .witnessCas u64Max current below →
      Transition s (.cas tid spurious) (s.setPc tid .panicked) .overflowed
  /-- The exchange meets the loaded value and stores `t + 1`, and `witness` returns. -/
  | store {tid : Nat} {t : LamportTime} {below : s.word < t} :
      s.pc tid = .witnessCas t s.word below → t ≠ u64Max →
      Transition s (.cas tid false) ⟨t + 1, Function.update s.pc tid .idle⟩ (.witnessed t)
  /-- The exchange fails, because the word moved or spuriously, and the loop loads again. -/
  | retry {tid : Nat} {spurious : Bool} {t current : LamportTime} {below : current < t} :
      s.pc tid = .witnessCas t current below → t ≠ u64Max →
      ¬ (s.word = current ∧ spurious = false) →
      Transition s (.cas tid spurious) (s.setPc tid (.witnessLoad t)) .internal

/-- Every step is one of the transitions. -/
theorem step_transition {s s' : LamportClock} {op : Op} {r : Ret}
    (h : step s op = some (s', r)) : Transition s op s' r := by
  cases op with
  | increment tid =>
    simp only [step] at h
    split at h
    · next hpc =>
      cases hs : succ? s.word <;> simp only [hs, Option.some.injEq, Prod.mk.injEq] at h <;>
        obtain ⟨rfl, rfl⟩ := h
      · exact .wrap hpc (succ?_eq_none.1 hs)
      · obtain ⟨ne, rfl⟩ := succ?_eq_some.1 hs
        exact .increment hpc ne
    · cases h
  | time tid =>
    simp only [step] at h
    split at h
    · next hpc =>
      simp only [Option.some.injEq, Prod.mk.injEq] at h
      obtain ⟨rfl, rfl⟩ := h
      exact .time hpc
    · cases h
  | witness tid t =>
    simp only [step] at h
    split at h
    · next hpc =>
      simp only [Option.some.injEq, Prod.mk.injEq] at h
      obtain ⟨rfl, rfl⟩ := h
      exact .call hpc
    · cases h
  | load tid =>
    simp only [step] at h
    split at h
    · next t hpc =>
      split at h <;> simp only [Option.some.injEq, Prod.mk.injEq] at h <;>
        obtain ⟨rfl, rfl⟩ := h
      · exact .loadReturn hpc ‹_›
      · exact .loadBelow _ hpc
    · cases h
  | cas tid spurious =>
    simp only [step] at h
    split at h
    · next t current below hpc =>
      cases hs : succ? t with
      | none =>
        obtain rfl := succ?_eq_none.1 hs
        simp only [hs, Option.some.injEq, Prod.mk.injEq] at h
        obtain ⟨rfl, rfl⟩ := h
        exact .casOverflow hpc
      | some next =>
        obtain ⟨ne, rfl⟩ := succ?_eq_some.1 hs
        simp only [hs] at h
        split at h <;> simp only [Option.some.injEq, Prod.mk.injEq] at h <;>
          obtain ⟨rfl, rfl⟩ := h
        · next same =>
          obtain ⟨rfl, rfl⟩ := same
          exact .store hpc ne
        · exact .retry hpc ne ‹_›
    · cases h

/-- The step wrote the word: a `fetch_add`, or a `compare_exchange_weak` that succeeded. -/
def Event.stores (e : Event) : Bool :=
  match e.op, e.ret with
  | .increment _, _ => true
  | .cas _ _, .witnessed _ => true
  | _, _ => false

namespace Transition

variable {s s' : LamportClock} {op : Op} {r : Ret} {tid : Nat} {t : LamportTime}

/-- A step leaves every other thread where it was. -/
theorem pc_of_ne (h : Transition s op s' r) (other : op.tid ≠ tid) : s'.pc tid = s.pc tid := by
  cases h <;> simp only [Op.tid] at other <;>
    simp [setPc, Function.update_noteq (Ne.symm other)]

/-- Only a `fetch_add` and a successful exchange write the word. -/
theorem word_of_not_stores (h : Transition s op s' r) (keep : (Event.mk op r s').stores = false) :
    s'.word = s.word := by
  cases h <;> first | rfl | cases keep

/-- A thread reaches the exchange only by a load that saw the word below its time, and that load
leaves the word as it was. -/
theorem enters_cas {current : LamportTime} {below : current < t} (h : Transition s op s' r)
    (own : op.tid = tid) (hpc : s'.pc tid = .witnessCas t current below) :
    op = .load tid ∧ current = s.word ∧ s'.word = s.word := by
  cases h <;> simp only [Op.tid] at own <;> subst own <;>
    simp_all [setPc]

/-- A non-spurious exchange fails only when the word is no longer the value loaded. -/
theorem cas_fails (h : Transition s (.cas tid false) s' .internal) :
    ∃ t current below, s.pc tid = .witnessCas t current below ∧ s.word ≠ current := by
  cases h with
  | retry hpc _ moved => exact ⟨_, _, _, hpc, fun same => moved ⟨same, rfl⟩⟩

end Transition

/-! ## Refinement of an atomic clock -/

/-- A call on an atomic Lamport clock, one that takes effect in a single step. -/
inductive AtomicCall where
  /-- `increment()`. -/
  | increment
  /-- `time()`. -/
  | time
  /-- `witness(t)`. -/
  | witness (t : LamportTime)
  deriving DecidableEq, Repr

/-- An atomic clock at `w` after one call, and what the call returns: `increment` stores and
returns `w + 1`, `time` returns `w`, and `witness(t)` leaves `w` when `t ≤ w` and stores `t + 1`
otherwise; each `+ 1` past `u64::MAX` panics. -/
def AtomicCall.apply : AtomicCall → UInt64 → UInt64 × Ret
  | .increment, w =>
    match succ? w with
    | some v => (v, .incremented v)
    | none => (w + 1, .overflowed)
  | .time, w => (w, .read w)
  | .witness t, w =>
    if t ≤ w then (w, .witnessed t)
    else
      match succ? t with
      | some v => (v, .witnessed t)
      | none => (w, .overflowed)

/-- The call a return answers. -/
def Ret.call? : Ret → Option AtomicCall
  | .incremented _ => some .increment
  | .read _ => some .time
  | .witnessed t => some (.witness t)
  | _ => none

/-- Calls applied one after another to an atomic clock at `w`: what each returns, and the word
they leave. -/
def runAtomic (w : UInt64) : List AtomicCall → List Ret × UInt64
  | [] => ([], w)
  | c :: cs =>
    let rest := runAtomic (c.apply w).1 cs
    ((c.apply w).2 :: rest.1, rest.2)

/-- The clock a run from `s` ends in. -/
def final (s : LamportClock) : List Event → LamportClock
  | [] => s
  | e :: run => final e.after run

/-- A step that does not overflow either returns nothing and leaves the word, or returns what its
call returns on an atomic clock, leaving the word the atomic call leaves. -/
theorem WordStep.refines {w w' : UInt64} {r : Ret} (h : WordStep w w' r)
    (safe : r ≠ .overflowed) :
    (r = .internal ∧ w' = w) ∨ ∃ c, r.call? = some c ∧ c.apply w = (w', r) := by
  cases h with
  | internal => exact .inl ⟨rfl, rfl⟩
  | read => exact .inr ⟨.time, rfl, rfl⟩
  | loaded le => exact .inr ⟨.witness _, rfl, if_pos le⟩
  | exchanged lt ne =>
    have above : ¬ _ ≤ w := Nat.not_le.2 lt
    exact .inr ⟨.witness _, rfl, by simp [AtomicCall.apply, above, succ?, ne]⟩
  | incremented ne => exact .inr ⟨.increment, rfl, by simp [AtomicCall.apply, succ?, ne]⟩
  | wrapped _ | overflowed => exact absurd rfl safe

/-- Any interleaving of `increment`, `time` and `witness` on one clock, spurious exchange failures
included, in which nothing overflows: replaying the calls that returned, in the order they
returned, on an atomic clock starting at the run's first word gives exactly the run's returns and
ends at its last word. -/
theorem Runs.refines_atomic {s : LamportClock} {run : List Event} (h : Runs s run)
    (safe : ∀ e ∈ run, e.ret ≠ .overflowed) :
    runAtomic s.word (run.filterMap (·.ret.call?)) =
      ((run.map (·.ret)).filter (· ≠ .internal), (final s run).word) := by
  induction h with
  | nil s => rfl
  | @cons s e run hstep _ ih =>
    have rest := ih fun e' he' => safe e' (List.mem_cons_of_mem _ he')
    rcases (step_wordStep hstep).refines (safe e (List.mem_cons_self _ _)) with
      ⟨hr, same⟩ | ⟨c, hc, happ⟩
    · simpa only [List.filterMap_cons, hr, Ret.call?, List.map_cons, List.filter_cons,
        ne_eq, not_true_eq_false, decide_False, same] using rest
    · have returned : e.ret ≠ .internal := by rintro hr; rw [hr] at hc; cases hc
      simp only [List.filterMap_cons, hc, runAtomic, happ, rest, List.map_cons, List.filter_cons,
        returned, ne_eq, not_false_eq_true, decide_True, if_true, final]

/-- The refinement on the test schedule, which overflows nowhere. -/
theorem refines_atomic_on_test :
    Runs fresh testRun ∧ (∀ e ∈ testRun, e.ret ≠ .overflowed) ∧
    runAtomic fresh.word (testRun.filterMap (·.ret.call?)) =
      ((testRun.map (·.ret)).filter (· ≠ .internal), (final fresh testRun).word) :=
  have runs : Runs fresh testRun := @runOps_runs fresh testSchedule testRun rfl
  have safe : ∀ e ∈ testRun, e.ret ≠ .overflowed := by decide
  ⟨runs, safe, runs.refines_atomic safe⟩

example : runAtomic 0 (testRun.filterMap (·.ret.call?)) =
    ([.incremented 1, .witnessed 41, .witnessed 30, .witnessed 41, .read 42], 42) := by decide

/-! ## Lock-freedom -/

/-- Before a non-spurious exchange of thread `tid` that failed: either the thread was at its
exchange at the start, with no step of its own since and a store since whenever the word was
then the value loaded, or its last load is in the run and a store by another thread followed. -/
theorem Runs.failed_exchange_aux {tid : Nat} {e : Event} {post : List Event}
    (op : e.op = .cas tid false) (ret : e.ret = .internal) :
    ∀ {s : LamportClock} {pre : List Event}, Runs s (pre ++ e :: post) →
      (∃ t current below, s.pc tid = .witnessCas t current below ∧
          (∀ e' ∈ pre, e'.op.tid ≠ tid) ∧ (current = s.word → ∃ e' ∈ pre, e'.stores)) ∨
        ∃ pre₁ l mid, pre = pre₁ ++ l :: mid ∧ l.op = .load tid ∧
          (∀ e' ∈ mid, e'.op.tid ≠ tid) ∧ ∃ e' ∈ mid, e'.stores
  | _, [], .cons hstep _ => by
    obtain ⟨t, current, below, hpc, moved⟩ := (step_transition (op ▸ ret ▸ hstep)).cas_fails
    exact .inl ⟨t, current, below, hpc, by simp, fun same => absurd same.symm moved⟩
  | s, e0 :: pre, .cons hstep tail => by
    have first := step_transition hstep
    rcases failed_exchange_aux op ret tail with ⟨t, current, below, hpc, others, moved⟩ |
      ⟨pre₁, l, mid, rfl, hl, others, found⟩
    · by_cases mine : e0.op.tid = tid
      · obtain ⟨hl, loaded, same⟩ := first.enters_cas mine hpc
        exact .inr ⟨[], e0, pre, rfl, hl, others, moved (by rw [loaded, same])⟩
      · refine .inl ⟨t, current, below, first.pc_of_ne mine ▸ hpc, ?_, fun loaded => ?_⟩
        · simp only [List.mem_cons, forall_eq_or_imp]
          exact ⟨mine, others⟩
        · cases st : e0.stores
          · obtain ⟨e', he', st'⟩ := moved (loaded.trans (first.word_of_not_stores st).symm)
            exact ⟨e', List.mem_cons_of_mem _ he', st'⟩
          · exact ⟨e0, List.mem_cons_self _ _, st⟩
    · exact .inr ⟨e0 :: pre₁, l, mid, rfl, hl, others, found⟩

/-- In any run from a clock where thread `tid` is not inside a `witness` call, every exchange of
the thread that fails without failing spuriously follows the thread's load, with no step of the
thread in between, and a store by another thread, a `fetch_add` or a successful exchange, after
that load: the thread retries only when another call has completed. -/
theorem Runs.failed_exchange_follows_store {s : LamportClock} {run : List Event} (h : Runs s run)
    {tid : Nat} (outside : (s.pc tid).witnessing? = none) :
    ∀ pre e post, run = pre ++ e :: post → e.op = .cas tid false → e.ret = .internal →
      ∃ pre₁ l mid, pre = pre₁ ++ l :: mid ∧ l.op = .load tid ∧
        (∀ e' ∈ mid, e'.op.tid ≠ tid) ∧ ∃ e' ∈ mid, e'.stores := by
  rintro pre e post rfl op ret
  rcases failed_exchange_aux op ret h with ⟨t, current, below, hpc, -⟩ | found
  · rw [hpc] at outside; cases outside
  · exact found

/-- On the test schedule, thread 2's exchange fails after thread 1's successful exchange. -/
theorem failed_exchange_follows_store_on_test :
    Runs fresh testRun ∧ (fresh.pc 2).witnessing? = none ∧
    ∀ pre e post, testRun = pre ++ e :: post → e.op = .cas 2 false → e.ret = .internal →
      ∃ pre₁ l mid, pre = pre₁ ++ l :: mid ∧ l.op = .load 2 ∧
        (∀ e' ∈ mid, e'.op.tid ≠ 2) ∧ ∃ e' ∈ mid, e'.stores :=
  have runs : Runs fresh testRun := @runOps_runs fresh testSchedule testRun rfl
  ⟨runs, rfl, runs.failed_exchange_follows_store rfl⟩

end Ruserf.LamportClock
