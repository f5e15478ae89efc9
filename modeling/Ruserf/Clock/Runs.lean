import Ruserf.Clock

/-!
# Runs of a shared Lamport clock

A run is any sequence of atomic steps of any number of threads on one clock. Below `u64::MAX`
the word never decreases (`WordStep.le`), and everything else about runs follows from that one
fact: `increment` results strictly increase in the order the `fetch_add`s take effect, and once
a `witness(t)` has returned, every later read is at least `t` and every later increment above it.
-/

namespace Ruserf.LamportClock

/-- One step of a run: the operation the scheduler picked, what it returned, and the clock after
it. -/
structure Event where
  /-- The operation. -/
  op : Op
  /-- What it returned. -/
  ret : Ret
  /-- The clock after it. -/
  after : LamportClock

/-- `Runs s run`: from `s`, every event of `run` in turn is a step of the clock. -/
inductive Runs : LamportClock → List Event → Prop where
  | nil (s : LamportClock) : Runs s []
  | cons {s : LamportClock} {e : Event} {run : List Event} :
      step s e.op = some (e.after, e.ret) → Runs e.after run → Runs s (e :: run)

/-- The word before a run and after each of its steps. -/
def words (s : LamportClock) (run : List Event) : List UInt64 := s.word :: run.map (·.after.word)

@[simp] theorem words_nil (s : LamportClock) : words s [] = [s.word] := rfl

@[simp] theorem words_cons (s : LamportClock) (e : Event) (run : List Event) :
    words s (e :: run) = s.word :: words e.after run := rfl

/-- Every clock value of a run is below `u64::MAX`. -/
def Bounded (s : LamportClock) (run : List Event) : Prop := ∀ w ∈ words s run, w < u64Max

theorem Bounded.tail {s : LamportClock} {e : Event} {run : List Event}
    (h : Bounded s (e :: run)) : Bounded e.after run :=
  fun w hw => h w (List.mem_cons_of_mem _ hw)

theorem Bounded.head_ne {s : LamportClock} {run : List Event} (h : Bounded s run) :
    s.word ≠ u64Max :=
  ne_u64Max_of_lt (h _ (List.mem_cons_self _ _))

instance (s : LamportClock) (run : List Event) : Decidable (Bounded s run) :=
  inferInstanceAs (Decidable (∀ w ∈ words s run, w < u64Max))

/-- The run of a schedule from `s`, or `none` once it picks an operation that is not enabled. -/
def runOps : LamportClock → List Op → Option (List Event)
  | _, [] => some []
  | s, op :: ops =>
    match step s op with
    | some (s', r) => (runOps s' ops).map (⟨op, r, s'⟩ :: ·)
    | none => none

/-- A schedule that runs to its end gives a run. -/
theorem runOps_runs : ∀ {s : LamportClock} {ops : List Op} {run : List Event},
    runOps s ops = some run → Runs s run
  | _, [], _, h => by cases h; exact .nil _
  | s, op :: ops, run, h => by
    simp only [runOps] at h
    split at h
    · rename_i s' r hstep
      obtain ⟨tail, htail, rfl⟩ := Option.map_eq_some'.1 h
      exact .cons hstep (runOps_runs htail)
    · cases h

/-- A fresh clock, every thread between calls. -/
def fresh : LamportClock := ⟨0, fun _ => .idle⟩

/-- The schedule of `test_lamport_clock`, spread over three threads: thread 0 increments, threads
1 and 2 witness 41, and thread 0 witnesses 30 while thread 2 is between its load and its exchange;
thread 0 then reads the clock. -/
def testSchedule : List Op :=
  [.increment 0, .witness 1 41, .load 1, .witness 2 41, .load 2, .cas 1 false, .witness 0 30,
    .load 0, .cas 2 false, .load 2, .time 0]

/-- The run of `testSchedule` from a fresh clock. -/
def testRun : List Event := (runOps fresh testSchedule).getD []

/-- The rest of a run after a prefix is a run from the clock the prefix ends in, and its clock
values are among the whole run's. -/
theorem Runs.split {s : LamportClock} {pre rest : List Event} (h : Runs s (pre ++ rest)) :
    ∃ m, Runs m rest ∧ words m rest <:+ words s (pre ++ rest) := by
  induction pre generalizing s with
  | nil => exact ⟨s, h, List.suffix_refl _⟩
  | cons e pre ih =>
    cases h with
    | cons _ tail =>
      obtain ⟨m, hm, suffix⟩ := ih tail
      exact ⟨m, hm, suffix.trans (List.suffix_cons _ _)⟩

/-- A bounded run never lowers the word below where it started. -/
theorem Runs.start_le {s : LamportClock} {run : List Event} (h : Runs s run)
    (bounded : Bounded s run) : ∀ w ∈ words s run, s.word ≤ w := by
  induction h with
  | nil s => simp only [words_nil, List.mem_singleton]; rintro w rfl; exact Nat.le_refl _
  | cons hstep _ ih =>
    have first := (step_wordStep hstep).le bounded.head_ne
    simp only [words_cons, List.mem_cons]
    rintro w (rfl | hw)
    · exact Nat.le_refl _
    · exact Nat.le_trans first (ih bounded.tail w hw)

/-- In a bounded run, every `increment` returns more than the word the run started at. -/
theorem Runs.start_lt_incremented {s : LamportClock} {run : List Event} (h : Runs s run)
    (bounded : Bounded s run) : ∀ v ∈ run.filterMap (·.ret.incremented?), s.word < v := by
  induction h with
  | nil s => simp
  | @cons s e run hstep _ ih =>
    have first := step_wordStep hstep
    intro v hv
    cases hret : e.ret with
    | incremented u =>
      rw [hret] at first
      simp only [List.filterMap_cons, hret, Ret.incremented?, List.mem_cons] at hv
      obtain ⟨rfl, lt⟩ := first.incremented_eq
      rcases hv with rfl | hv
      · exact lt
      · exact Nat.lt_trans lt (ih bounded.tail v hv)
    | _ =>
      simp only [List.filterMap_cons, hret, Ret.incremented?] at hv
      exact Nat.lt_of_le_of_lt (first.le bounded.head_ne) (ih bounded.tail v hv)

/-- In a bounded run, every `time()` read is at least the word the run started at. -/
theorem Runs.start_le_read {s : LamportClock} {run : List Event} (h : Runs s run)
    (bounded : Bounded s run) : ∀ v ∈ run.filterMap (·.ret.read?), s.word ≤ v := by
  induction h with
  | nil s => simp
  | @cons s e run hstep _ ih =>
    have first := step_wordStep hstep
    intro v hv
    cases hret : e.ret with
    | read u =>
      rw [hret] at first
      simp only [List.filterMap_cons, hret, Ret.read?, List.mem_cons] at hv
      obtain ⟨rfl, same⟩ := first.read_eq
      rcases hv with rfl | hv
      · exact Nat.le_refl _
      · exact same ▸ ih bounded.tail v hv
    | _ =>
      simp only [List.filterMap_cons, hret, Ret.read?] at hv
      exact Nat.le_trans (first.le bounded.head_ne) (ih bounded.tail v hv)

/-- The clock values of a bounded run never decrease. -/
theorem Runs.words_pairwise {s : LamportClock} {run : List Event} (h : Runs s run)
    (bounded : Bounded s run) : (words s run).Pairwise (· ≤ ·) := by
  induction h with
  | nil s => exact List.pairwise_singleton _ _
  | @cons s e run hstep tail ih =>
    rw [words_cons, List.pairwise_cons]
    exact ⟨fun w hw => (Runs.cons hstep tail).start_le bounded w (List.mem_cons_of_mem _ hw),
      ih bounded.tail⟩

/-- The `increment` results of a bounded run strictly increase in run order. -/
theorem Runs.incremented_pairwise {s : LamportClock} {run : List Event} (h : Runs s run)
    (bounded : Bounded s run) : (run.filterMap (·.ret.incremented?)).Pairwise (· < ·) := by
  induction h with
  | nil s => exact List.Pairwise.nil
  | @cons s e run hstep tail ih =>
    have later := tail.start_lt_incremented bounded.tail
    cases hret : e.ret with
    | incremented u =>
      have first := step_wordStep hstep
      rw [hret] at first
      obtain ⟨rfl, -⟩ := first.incremented_eq
      simp only [List.filterMap_cons, hret, Ret.incremented?, List.pairwise_cons]
      exact ⟨later, ih bounded.tail⟩
    | _ =>
      simpa only [List.filterMap_cons, hret, Ret.incremented?] using ih bounded.tail

/-- Any number of threads, any interleaving of the atomic steps of `increment`, `time` and
`witness` (spurious exchange failures included), with every clock value below `u64::MAX`: the
word never decreases; `increment` results strictly increase in the order their `fetch_add`s take
effect, so no two are equal; and after a `witness(t)` returns, every `increment` returns more than
`t` and every `time()` reads at least `t`. -/
theorem lamport_clock_interleaving {s : LamportClock} {run : List Event} (h : Runs s run)
    (bounded : Bounded s run) :
    (words s run).Pairwise (· ≤ ·) ∧
    (run.filterMap (·.ret.incremented?)).Pairwise (· < ·) ∧
    ∀ pre e post t, run = pre ++ e :: post → e.ret = .witnessed t →
      (∀ v ∈ post.filterMap (·.ret.incremented?), t < v) ∧
      (∀ v ∈ post.filterMap (·.ret.read?), t ≤ v) := by
  refine ⟨h.words_pairwise bounded, h.incremented_pairwise bounded, ?_⟩
  rintro pre e post t rfl hret
  obtain ⟨m, hm, suffix⟩ := h.split
  cases hm with
  | cons hstep tail =>
    have sub : Bounded m (e :: post) := fun w hw => bounded w (suffix.subset hw)
    have returned : t ≤ e.after.word := (hret ▸ step_wordStep hstep).witnessed_le
    exact ⟨fun v hv => Nat.lt_of_le_of_lt returned (tail.start_lt_incremented sub.tail v hv),
      fun v hv => Nat.le_trans returned (tail.start_le_read sub.tail v hv)⟩

/-- The interleaving law on the test schedule: its run is bounded, and it holds there. -/
theorem lamport_clock_interleaving_on_test :
    Runs fresh testRun ∧ Bounded fresh testRun ∧
    (words fresh testRun).Pairwise (· ≤ ·) ∧
    (testRun.filterMap (·.ret.incremented?)).Pairwise (· < ·) ∧
    ∀ pre e post t, testRun = pre ++ e :: post → e.ret = .witnessed t →
      (∀ v ∈ post.filterMap (·.ret.incremented?), t < v) ∧
      (∀ v ∈ post.filterMap (·.ret.read?), t ≤ v) :=
  have runs : Runs fresh testRun := @runOps_runs fresh testSchedule testRun rfl
  have bounded : Bounded fresh testRun := by decide
  ⟨runs, bounded, lamport_clock_interleaving runs bounded⟩

example : testRun.map (·.ret) =
    [.incremented 1, .internal, .internal, .internal, .internal, .witnessed 41, .internal,
      .witnessed 30, .internal, .witnessed 41, .read 42] := by decide

end Ruserf.LamportClock
