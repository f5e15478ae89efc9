import Mathlib.Data.UInt
import Mathlib.Logic.Function.Basic

/-!
# Lamport clock

`LamportClock` in `types/src/clock.rs` is one `AtomicU64` shared by every clone of the clock.
This module models the word together with each thread's position in its call on it, so that an
execution is any interleaving of the atomic steps: `increment` is one `fetch_add`, `time` one
load, and `witness` a loop of a load and a `compare_exchange_weak` that fails whenever the word
changed since the load and may also fail spuriously. `fetch_add` wraps; the `+ 1` the code
computes on a loaded value is an overflow past `u64::MAX`, and the step that computes it panics,
as under Rust's overflow checks.
-/

namespace Ruserf

/-- `u64::MAX`. -/
def u64Max : UInt64 := 0xFFFFFFFFFFFFFFFF

/-- `LamportTime`: a `u64` point in logical time. -/
abbrev LamportTime := UInt64

/-- `x + 1` on a `u64`, or `none` where it passes `u64::MAX`. -/
def succ? (x : UInt64) : Option UInt64 := if x = u64Max then none else some (x + 1)

/-- The largest word is `2^64 - 1`. -/
theorem u64Max_toNat : u64Max.toNat = 2 ^ 64 - 1 := rfl

/-- Two words are equal exactly when their numbers are. -/
theorem eq_iff_toNat (x y : UInt64) : x = y ↔ x.toNat = y.toNat :=
  ⟨congrArg _, UInt64.toNat.inj⟩

/-- A word below `u64::MAX` has a successor one above it. -/
theorem toNat_add_one {x : UInt64} (h : x ≠ u64Max) : (x + 1).toNat = x.toNat + 1 := by
  have bound := x.toNat_lt_size
  have ne : x.toNat ≠ 2 ^ 64 - 1 := fun e => h ((eq_iff_toNat _ _).2 e)
  show (x.toNat + 1) % 2 ^ 64 = _
  exact Nat.mod_eq_of_lt (by simp only [UInt64.size] at bound; omega)

/-- Order on words is order on their numbers. -/
theorem le_iff_toNat {x y : UInt64} : x ≤ y ↔ x.toNat ≤ y.toNat := Iff.rfl

/-- Strict order on words is strict order on their numbers. -/
theorem lt_iff_toNat {x y : UInt64} : x < y ↔ x.toNat < y.toNat := Iff.rfl

/-- A word strictly below another is not `u64::MAX`. -/
theorem ne_u64Max_of_lt {x y : UInt64} (h : x < y) : x ≠ u64Max := by
  rintro rfl
  have bound := y.toNat_lt_size
  have below : u64Max.toNat < y.toNat := h
  simp only [UInt64.size, u64Max_toNat] at bound below
  omega

@[simp] theorem succ?_eq_none {x : UInt64} : succ? x = none ↔ x = u64Max := by
  unfold succ?; split <;> simp_all

@[simp] theorem succ?_eq_some {x y : UInt64} : succ? x = some y ↔ x ≠ u64Max ∧ y = x + 1 := by
  unfold succ?; split <;> simp_all [eq_comm]

/-- Where one thread is in its call on the clock. -/
inductive LamportClock.Pc where
  /-- Between calls. -/
  | idle
  /-- At the head of the `witness(t)` loop, about to load the word. -/
  | witnessLoad (t : LamportTime)
  /-- In `witness(t)` after a load that saw `current` below `t`; the exchange comes next. -/
  | witnessCas (t current : LamportTime) (below : current < t)
  /-- Stopped by an overflow panic. -/
  | panicked

/-- The shared `AtomicU64` of one `LamportClock`, and where every thread is. -/
structure LamportClock where
  /-- The atomic word. -/
  word : UInt64
  /-- Each thread's position in its call. -/
  pc : Nat → LamportClock.Pc

namespace LamportClock

/-- Move one thread to a new position. -/
def setPc (s : LamportClock) (tid : Nat) (p : Pc) : LamportClock :=
  { s with pc := Function.update s.pc tid p }

@[simp] theorem setPc_word (s : LamportClock) (tid : Nat) (p : Pc) :
    (s.setPc tid p).word = s.word := rfl

@[simp] theorem setPc_pc_self (s : LamportClock) (tid : Nat) (p : Pc) :
    (s.setPc tid p).pc tid = p := Function.update_same _ _ _

/-- An atomic step a scheduler can pick: a thread starts a call, or takes the next step of one. -/
inductive Op where
  /-- `increment`: its one `fetch_add(1)`. -/
  | increment (tid : Nat)
  /-- `time`: its one load. -/
  | time (tid : Nat)
  /-- The call `witness(t)`. -/
  | witness (tid : Nat) (t : LamportTime)
  /-- The load at the head of the `witness` loop. -/
  | load (tid : Nat)
  /-- The `compare_exchange_weak`; `spurious` makes it fail although the word is unchanged. -/
  | cas (tid : Nat) (spurious : Bool)
  deriving DecidableEq, Repr

/-- The thread an operation belongs to. -/
def Op.tid : Op → Nat
  | .increment tid | .time tid | .witness tid _ | .load tid | .cas tid _ => tid

/-- What a step hands back to its thread. -/
inductive Ret where
  /-- `increment` returned this time. -/
  | incremented (v : LamportTime)
  /-- `time` returned this time. -/
  | read (v : LamportTime)
  /-- `witness(t)` returned. -/
  | witnessed (t : LamportTime)
  /-- The call goes on. -/
  | internal
  /-- The step computed past `u64::MAX` and the thread panicked. -/
  | overflowed
  deriving DecidableEq, Repr

/-- The time an `increment` returned, if the step was one. -/
def Ret.incremented? : Ret → Option LamportTime
  | .incremented v => some v
  | _ => none

/-- The time a `time()` call read, if the step was one. -/
def Ret.read? : Ret → Option LamportTime
  | .read v => some v
  | _ => none

/-- One atomic step of `LamportClock::increment`, `time` or `witness`, or `none` where the thread
is not at that step. -/
def step (s : LamportClock) : Op → Option (LamportClock × Ret)
  | .increment tid =>
    match s.pc tid with
    | .idle =>
      let stored := { s with word := s.word + 1 }
      match succ? s.word with
      | some v => some (stored, .incremented v)
      | none => some (stored.setPc tid .panicked, .overflowed)
    | _ => none
  | .time tid =>
    match s.pc tid with
    | .idle => some (s, .read s.word)
    | _ => none
  | .witness tid t =>
    match s.pc tid with
    | .idle => some (s.setPc tid (.witnessLoad t), .internal)
    | _ => none
  | .load tid =>
    match s.pc tid with
    | .witnessLoad t =>
      if h : t ≤ s.word then some (s.setPc tid .idle, .witnessed t)
      else some (s.setPc tid (.witnessCas t s.word (Nat.lt_of_not_le h)), .internal)
    | _ => none
  | .cas tid spurious =>
    match s.pc tid with
    | .witnessCas t current _ =>
      match succ? t with
      | none => some (s.setPc tid .panicked, .overflowed)
      | some next =>
        if s.word = current ∧ spurious = false then
          some ({ word := next, pc := Function.update s.pc tid .idle }, .witnessed t)
        else some (s.setPc tid (.witnessLoad t), .internal)
    | _ => none

/-- What one step can do to the word, and what it returns along with it. -/
inductive WordStep (w : UInt64) : UInt64 → Ret → Prop where
  /-- A call starts, a load sees the word below its time, or an exchange fails. -/
  | internal : WordStep w w .internal
  /-- `time` reads the word. -/
  | read : WordStep w w (.read w)
  /-- A load sees the word at or past the witnessed time, and `witness` returns. -/
  | loaded {t : LamportTime} : t ≤ w → WordStep w w (.witnessed t)
  /-- An exchange meets the loaded value and stores one past the witnessed time. -/
  | exchanged {t : LamportTime} : w < t → t ≠ u64Max → WordStep w (t + 1) (.witnessed t)
  /-- `fetch_add` below `u64::MAX` returns the word it stores. -/
  | incremented : w ≠ u64Max → WordStep w (w + 1) (.incremented (w + 1))
  /-- `fetch_add` at `u64::MAX` wraps the word, and `+ 1` on the old value overflows. -/
  | wrapped : w = u64Max → WordStep w (w + 1) .overflowed
  /-- The exchange's `t + 1` overflows before it is attempted. -/
  | overflowed : WordStep w w .overflowed

/-- Every step moves the word as `WordStep` says. -/
theorem step_wordStep {s s' : LamportClock} {op : Op} {r : Ret} (h : step s op = some (s', r)) :
    WordStep s.word s'.word r := by
  cases op with
  | increment tid =>
    simp only [step] at h
    split at h
    · cases hs : succ? s.word with
      | none =>
        simp only [hs, Option.some.injEq, Prod.mk.injEq] at h
        obtain ⟨rfl, rfl⟩ := h
        exact .wrapped (succ?_eq_none.1 hs)
      | some v =>
        simp only [hs, Option.some.injEq, Prod.mk.injEq] at h
        obtain ⟨rfl, rfl⟩ := h
        obtain ⟨ne, rfl⟩ := succ?_eq_some.1 hs
        exact .incremented ne
    · cases h
  | time tid =>
    simp only [step] at h
    split at h
    · simp only [Option.some.injEq, Prod.mk.injEq] at h
      obtain ⟨rfl, rfl⟩ := h
      exact .read
    · cases h
  | witness tid t =>
    simp only [step] at h
    split at h
    · simp only [Option.some.injEq, Prod.mk.injEq] at h
      obtain ⟨rfl, rfl⟩ := h
      exact .internal
    · cases h
  | load tid =>
    simp only [step] at h
    split at h
    · split at h <;> simp only [Option.some.injEq, Prod.mk.injEq] at h <;>
        obtain ⟨rfl, rfl⟩ := h
      · exact .loaded ‹_›
      · exact .internal
    · cases h
  | cas tid spurious =>
    simp only [step] at h
    split at h
    · rename_i t current below _
      cases hs : succ? t with
      | none =>
        simp only [hs, Option.some.injEq, Prod.mk.injEq] at h
        obtain ⟨rfl, rfl⟩ := h
        exact .overflowed
      | some next =>
        obtain ⟨ne, rfl⟩ := succ?_eq_some.1 hs
        simp only [hs] at h
        split at h <;> simp only [Option.some.injEq, Prod.mk.injEq] at h <;>
          obtain ⟨rfl, rfl⟩ := h
        · rename_i same
          exact .exchanged (same.1 ▸ below) ne
        · exact .internal
    · cases h

namespace WordStep

variable {w w' : UInt64} {r : Ret}

/-- Below `u64::MAX` no step lowers the word. -/
theorem le (h : WordStep w w' r) (below : w ≠ u64Max) : w ≤ w' := by
  cases h with
  | exchanged lt ne => rw [le_iff_toNat, toNat_add_one ne]; exact Nat.le_succ_of_le lt.le
  | incremented ne => rw [le_iff_toNat, toNat_add_one ne]; exact Nat.le_succ _
  | wrapped eq => exact absurd eq below
  | _ => exact Nat.le_refl _

/-- An `increment` returns the word it stores, one above the word it met. -/
theorem incremented_eq {v : LamportTime} (h : WordStep w w' (.incremented v)) :
    v = w' ∧ w < w' := by
  cases h with
  | incremented ne =>
    exact ⟨rfl, by rw [lt_iff_toNat, toNat_add_one ne]; exact Nat.lt_succ_self _⟩

/-- A `time()` read returns the word and leaves it. -/
theorem read_eq {v : LamportTime} (h : WordStep w w' (.read v)) : v = w ∧ w' = w := by
  cases h; exact ⟨rfl, rfl⟩

/-- When `witness(t)` returns, the word is at least `t`. -/
theorem witnessed_le {t : LamportTime} (h : WordStep w w' (.witnessed t)) : t ≤ w' := by
  cases h with
  | loaded le => exact le
  | exchanged _ ne => rw [le_iff_toNat, toNat_add_one ne]; exact Nat.le_succ _

end WordStep

end LamportClock

end Ruserf
