import Ruserf.Clock.Witness

/-!
# The clock in a release build

Without overflow checks, as in a release build, the `+ 1` on a loaded value wraps past
`u64::MAX` to `0` where a debug build panics. An `increment` at `u64::MAX` then stores and returns
`0`, and the exchange of a `witness(u64::MAX)` stores `0`, moving the clock back. Everywhere else
the two builds take the same steps (`step_of_stepRelease`). So a release-build run that keeps its
clock values and its witnessed times below `u64::MAX` is a debug-build run, and every law proved
of `Runs` holds for it (`release_clock_wraps_past_max`).
-/

namespace Ruserf.LamportClock

/-- One atomic step in a release build: `fetch_add(1) + 1` and `time.0 + 1` wrap past
`u64::MAX`; the other steps are the debug build's. -/
def stepRelease (s : LamportClock) : Op → Option (LamportClock × Ret)
  | .increment tid =>
    match s.pc tid with
    | .idle => some ({ s with word := s.word + 1 }, .incremented (s.word + 1))
    | _ => none
  | .cas tid spurious =>
    match s.pc tid with
    | .witnessCas t current _ =>
      if s.word = current ∧ spurious = false then
        some ({ word := t + 1, pc := Function.update s.pc tid .idle }, .witnessed t)
      else some (s.setPc tid (.witnessLoad t), .internal)
    | _ => none
  | op => step s op

/-- `RunsRelease s run`: from `s`, every event of `run` in turn is a release-build step. -/
inductive RunsRelease : LamportClock → List Event → Prop where
  | nil (s : LamportClock) : RunsRelease s []
  | cons {s : LamportClock} {e : Event} {run : List Event} :
      stepRelease s e.op = some (e.after, e.ret) → RunsRelease e.after run →
        RunsRelease s (e :: run)

/-- Off the two overflow points, a release-build step is the debug build's: the word is below
`u64::MAX`, and a thread at its exchange witnesses a time below it. -/
theorem step_of_stepRelease {s s' : LamportClock} {op : Op} {r : Ret}
    (h : stepRelease s op = some (s', r)) (word : s.word ≠ u64Max) (times : TimesBelow s) :
    step s op = some (s', r) := by
  cases op with
  | increment tid =>
    simp only [stepRelease] at h
    split at h
    · next idle => simpa [step, idle, succ?, word] using h
    · cases h
  | cas tid spurious =>
    simp only [stepRelease] at h
    split at h
    · next t current below hpc =>
      have below : t ≠ u64Max := times tid t (by rw [hpc]; rfl)
      simpa [step, hpc, succ?, below] using h
    · cases h
  | time | witness | load => exact h

/-- At `u64::MAX`, a release build's `increment` stores and returns `0`. -/
theorem stepRelease_increment_max {s : LamportClock} {tid : Nat} (idle : s.pc tid = .idle)
    (max : s.word = u64Max) :
    stepRelease s (.increment tid) = some ({ s with word := 0 }, .incremented 0) := by
  simp only [stepRelease, idle, max]
  rfl

/-- The exchange of a release build's `witness(u64::MAX)` that finds the word it loaded stores
`0`. -/
theorem stepRelease_witness_max {s : LamportClock} {tid : Nat} {current : LamportTime}
    {below : current < u64Max} (hpc : s.pc tid = .witnessCas u64Max current below)
    (same : s.word = current) :
    stepRelease s (.cas tid false) =
      some ({ word := 0, pc := Function.update s.pc tid .idle }, .witnessed u64Max) := by
  simp only [stepRelease, hpc, same, and_self, if_true]
  rfl

/-- A release-build run that keeps its clock values and its witnessed times below `u64::MAX` is a
debug-build run. -/
theorem RunsRelease.runs {s : LamportClock} {run : List Event} (h : RunsRelease s run)
    (times : TimesBelow s) (bounded : Bounded s run)
    (witnessed : ∀ e ∈ run, ∀ tid t, e.op = .witness tid t → t ≠ u64Max) : Runs s run := by
  induction h with
  | nil s => exact .nil s
  | @cons s e run hstep _ ih =>
    have first := step_of_stepRelease hstep bounded.head_ne times
    exact .cons first (ih (step_timesBelow first times (witnessed e (List.mem_cons_self _ _)))
      bounded.tail fun e' he' => witnessed e' (List.mem_cons_of_mem _ he'))

/-- In a release build the clock wraps where a debug build panics: an `increment` at `u64::MAX`
returns `0`, and `witness(u64::MAX)` stores `0`, below any clock it started from. A release-build
run whose clock values and witnessed times stay below `u64::MAX` takes the debug build's steps,
so the debug build's laws hold for it. -/
theorem release_clock_wraps_past_max :
    (∀ (s : LamportClock) tid, s.pc tid = .idle → s.word = u64Max →
      stepRelease s (.increment tid) = some ({ s with word := 0 }, .incremented 0)) ∧
    (∀ (s : LamportClock) tid current (below : current < u64Max),
      s.pc tid = .witnessCas u64Max current below → s.word = current →
      stepRelease s (.cas tid false) =
        some ({ word := 0, pc := Function.update s.pc tid .idle }, .witnessed u64Max)) ∧
    (∀ (s : LamportClock) run, RunsRelease s run → TimesBelow s → Bounded s run →
      (∀ e ∈ run, ∀ tid t, e.op = .witness tid t → t ≠ u64Max) → Runs s run) :=
  ⟨fun _ _ idle max => stepRelease_increment_max idle max,
    fun _ _ _ _ hpc same => stepRelease_witness_max hpc same,
    fun _ _ h times bounded witnessed => h.runs times bounded witnessed⟩

example : (stepRelease ⟨5, fun _ => .witnessCas u64Max 5 (by decide)⟩ (.cas 0 false)).map
    (fun (s, r) => (s.word, r)) = some (0, .witnessed u64Max) := by decide

end Ruserf.LamportClock
