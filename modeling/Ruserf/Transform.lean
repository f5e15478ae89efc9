import Ruserf.Delegate.Effect

/-!
# `Transformable` for `LamportTime`

A `LamportTime` goes on the wire as the varint of its `u64` (`impl Transformable for
LamportTime`, `types/src/clock.rs`): `encode`, `encoded_len` and `decode` call `encode_varint`,
`encoded_len_varint` and `decode_varint` of the `transformable` crate, which is not in these
sources. `encode_varint` is modelled on that crate's loop, which checks the buffer before each
byte with the high bit set but stores the last byte unchecked. The spec fixes no more of the
format than its round trip, so the other two are modelled as the base-128 varint their names
denote: seven bits a byte, the low group first, the high bit set on every byte but the last, at
most ten bytes for a `u64`.

Encoding into a buffer at least `encoded_len` long writes exactly `encoded_len` bytes, and
reading them back with anything after them gives the time. A buffer two or more bytes short is
refused, but one exactly one byte short panics at the last store (`lamport_time_transform`).
-/

namespace Ruserf

/-- Modelled from the spec: `EncodeVarintError` and `DecodeVarintError` of the `transformable`
crate, not in these sources. -/
inductive VarintError where
  /-- `encode_varint` ran out of buffer before a byte with the high bit set. -/
  | bufferTooSmall
  /-- The input ends inside a varint. -/
  | underflow
  /-- The varint runs past ten bytes or past 64 bits. -/
  | overflow
  deriving DecidableEq, Repr

namespace Varint

/-- The varint of `x`, the bytes `encode_varint` writes for it: the low seven bits with the high
bit set while more groups follow, then the rest of `x`. -/
def bytes (x : Nat) : List UInt8 :=
  if x < 0x80 then [x.toUInt8] else (x % 0x80 + 0x80).toUInt8 :: bytes (x / 0x80)
termination_by x
decreasing_by omega

/-- Modelled from the spec: `encoded_len_varint(x)` (not in these sources), the number of
seven-bit groups of `x`, at least one. -/
def encodedLen (x : Nat) : Nat := if x < 0x80 then 1 else encodedLen (x / 0x80) + 1
termination_by x
decreasing_by omega

/-- `encode_varint(x, buf)` of the `transformable` crate (not in these sources): the loop
`while x >= 0x80` that, at index `i`, returns `Err(BufferTooSmall)` when `i >= buf.len()` and
otherwise stores `(x as u8) | 0x80` and moves on with `x >> 7`; then the store `buf[i] = x as u8`,
not checked, and `Ok(i + 1)`. Here it recurses over `buf[i..]`, with the number of bytes written
and the buffer after the stores. -/
def encode (x : Nat) : Bytes → Except Panic (Except VarintError (Nat × Bytes))
  | [] => if x < 0x80 then .error .indexOutOfBounds else .ok (.error .bufferTooSmall)
  | _ :: rest =>
    if x < 0x80 then .ok (.ok (1, x.toUInt8 :: rest))
    else
      match encode (x / 0x80) rest with
      | .ok (.ok (n, written)) => .ok (.ok (n + 1, (x % 0x80 + 0x80).toUInt8 :: written))
      | stopped => stopped

/-- Modelled from the spec: the loop of `decode_varint` with `fuel` bytes still allowed: the
number of bytes read and the value. -/
def decodeFrom : Nat → Bytes → Except VarintError (Nat × Nat)
  | 0, _ => .error .overflow
  | _ + 1, [] => .error .underflow
  | fuel + 1, b :: rest =>
    if b.toNat < 0x80 then .ok (1, b.toNat)
    else
      match decodeFrom fuel rest with
      | .ok (n, v) => .ok (n + 1, b.toNat - 0x80 + 0x80 * v)
      | .error e => .error e

/-- Modelled from the spec: `decode_varint(src)` (not in these sources): at most ten bytes, and
a value that fits a `u64`. -/
def decode (src : Bytes) : Except VarintError (Nat × UInt64) :=
  match decodeFrom 10 src with
  | .ok (n, v) => if v < 2 ^ 64 then .ok (n, v.toUInt64) else .error .overflow
  | .error e => .error e

theorem toNat_toUInt8 {n : Nat} (h : n < 0x100) : n.toUInt8.toNat = n :=
  UInt8.toNat_ofNat_of_lt h

/-- The varint of `x` is `encodedLen x` bytes long. -/
theorem bytes_length (x : Nat) : (bytes x).length = encodedLen x := by
  induction x using Nat.strongRecOn with
  | ind x ih =>
    rw [bytes, encodedLen]
    split
    · rfl
    · simp only [List.length_cons, ih (x / 0x80) (by omega)]

theorem encodedLen_of_lt {x : Nat} (h : x < 0x80) : encodedLen x = 1 := by
  rw [encodedLen, if_pos h]

theorem encodedLen_of_not_lt {x : Nat} (h : ¬ x < 0x80) :
    encodedLen x = encodedLen (x / 0x80) + 1 := by
  rw [encodedLen, if_neg h]

/-- Every value takes at least one byte. -/
theorem encodedLen_pos (x : Nat) : 0 < encodedLen x := by
  rw [encodedLen]; split <;> omega

/-- A value takes more than one byte exactly when it is `0x80` or more. -/
theorem one_lt_encodedLen_iff {x : Nat} : 1 < encodedLen x ↔ ¬ x < 0x80 := by
  by_cases small : x < 0x80
  · simp [encodedLen_of_lt small, small]
  · have := encodedLen_pos (x / 0x80)
    simp only [encodedLen_of_not_lt small, small, not_false_eq_true, iff_true]
    omega

theorem bytes_of_lt {x : Nat} (h : x < 0x80) : bytes x = [x.toUInt8] := by
  rw [bytes, if_pos h]

theorem bytes_of_not_lt {x : Nat} (h : ¬ x < 0x80) :
    bytes x = (x % 0x80 + 0x80).toUInt8 :: bytes (x / 0x80) := by
  rw [bytes, if_neg h]

/-- A buffer with room for the varint gets it over its front. -/
theorem encode_of_le {dst : Bytes} : ∀ {x : Nat}, encodedLen x ≤ dst.length →
    encode x dst = .ok (.ok (encodedLen x, bytes x ++ dst.drop (encodedLen x))) := by
  induction dst with
  | nil => intro x h; exact absurd h (Nat.not_le.2 (encodedLen_pos x))
  | cons b rest ih =>
    intro x h
    by_cases small : x < 0x80
    · simp [encode, small, encodedLen_of_lt small, bytes_of_lt small]
    · rw [encodedLen_of_not_lt small] at h ⊢
      simp only [List.length_cons, Nat.add_le_add_iff_right] at h
      simp only [encode, small, if_false, ih h, bytes_of_not_lt small, List.drop_succ_cons,
        List.cons_append]

/-- A buffer two or more bytes short is refused inside the loop. -/
theorem encode_of_short {dst : Bytes} : ∀ {x : Nat}, dst.length + 2 ≤ encodedLen x →
    encode x dst = .ok (.error .bufferTooSmall) := by
  induction dst with
  | nil => intro x h; simp [encode, one_lt_encodedLen_iff.1 (by omega : 1 < encodedLen x)]
  | cons b rest ih =>
    intro x h
    have big := one_lt_encodedLen_iff.1 (by omega : 1 < encodedLen x)
    rw [encodedLen_of_not_lt big, List.length_cons] at h
    simp only [encode, big, if_false, @ih (x / 0x80) (by omega)]

/-- A buffer exactly one byte short takes every byte with the high bit set, and the unchecked
store of the last byte falls past its end. -/
theorem encode_of_one_short {dst : Bytes} : ∀ {x : Nat}, dst.length + 1 = encodedLen x →
    encode x dst = .error .indexOutOfBounds := by
  induction dst with
  | nil =>
    intro x h
    have small := Decidable.of_not_not (mt (@one_lt_encodedLen_iff x).2 (by simp at h; omega))
    simp [encode, small]
  | cons b rest ih =>
    intro x h
    have big := one_lt_encodedLen_iff.1 (by simp at h; omega : 1 < encodedLen x)
    rw [encodedLen_of_not_lt big, List.length_cons] at h
    simp only [encode, big, if_false, @ih (x / 0x80) (by omega)]

/-- A value below `128 ^ k` takes at most `k` groups, and every value at least one. -/
theorem encodedLen_le (k : Nat) : ∀ x, x < 0x80 ^ (k + 1) → encodedLen x ≤ k + 1 := by
  induction k with
  | zero => intro x h; rw [encodedLen, if_pos (by simpa using h)]
  | succ k ih =>
    intro x h
    rw [encodedLen]
    split
    · omega
    · have below : x / 0x80 < 0x80 ^ (k + 1) := by
        rw [Nat.div_lt_iff_lt_mul (by decide), ← Nat.pow_succ]; exact h
      exact Nat.succ_le_succ (ih _ below)

/-- A `u64` takes at most ten bytes. -/
theorem encodedLen_le_ten {x : Nat} (h : x < 2 ^ 64) : encodedLen x ≤ 10 :=
  encodedLen_le 9 x (Nat.lt_of_lt_of_le h (by decide))

/-- With enough bytes allowed, the loop reads the varint of `x` back, whatever follows it. -/
theorem decodeFrom_bytes (x : Nat) (s : Bytes) :
    ∀ fuel, encodedLen x ≤ fuel → decodeFrom fuel (bytes x ++ s) = .ok (encodedLen x, x) := by
  induction x using Nat.strongRecOn with
  | ind x ih =>
    intro fuel enough
    rw [bytes, encodedLen] at *
    obtain ⟨fuel, rfl⟩ : ∃ f, fuel = f + 1 := ⟨fuel - 1, by split at enough <;> omega⟩
    split
    · next small => simp [decodeFrom, toNat_toUInt8 (by omega : x < 0x100), small]
    · next big =>
      rw [if_neg big] at enough
      have byte := toNat_toUInt8 (by omega : x % 0x80 + 0x80 < 0x100)
      rw [List.cons_append]
      simp only [decodeFrom, byte, show ¬ x % 0x80 + 0x80 < 0x80 by omega,
        if_false, ih (x / 0x80) (by omega) fuel (by omega), Except.ok.injEq, Prod.mk.injEq,
        true_and]
      omega

/-- `decode_varint` reads a `u64`'s varint back, whatever follows it. -/
theorem decode_bytes (t : UInt64) (s : Bytes) :
    decode (bytes t.toNat ++ s) = .ok (encodedLen t.toNat, t) := by
  have fits : t.toNat < 2 ^ 64 := t.toNat_lt_size
  simp only [decode, decodeFrom_bytes _ s 10 (encodedLen_le_ten fits), if_pos fits]
  rw [show t.toNat.toUInt64 = t from UInt64.toNat.inj (UInt64.toNat_ofNat_of_lt fits)]

end Varint

/-- `LamportTime::encoded_len`: `encoded_len_varint(self.0)`. -/
def LamportTime.encodedLen (t : LamportTime) : Nat := Varint.encodedLen t.toNat

/-- `LamportTime::encode(dst)`: `encode_varint(self.0, dst)`, its error passed on. -/
def LamportTime.encode (t : LamportTime) (dst : Bytes) :
    Except Panic (Except VarintError (Nat × Bytes)) :=
  Varint.encode t.toNat dst

/-- `LamportTime::decode(src)`: `decode_varint(src)`, the value read as the time. -/
def LamportTime.decode (src : Bytes) : Except VarintError (Nat × LamportTime) :=
  Varint.decode src

/-- `LamportTime::encode` into a buffer at least `encoded_len` long returns `Ok(encoded_len)`, and
the buffer's first `encoded_len` bytes, followed by anything, decode to the time with
`encoded_len` bytes read. A buffer two or more bytes short gets `Err(BufferTooSmall)`; one exactly
one byte short makes `encode_varint` store its last byte past the end, a panic. -/
theorem lamport_time_transform (t : LamportTime) :
    (∀ dst : Bytes, LamportTime.encodedLen t ≤ dst.length →
      ∃ out, LamportTime.encode t dst = .ok (.ok (LamportTime.encodedLen t, out)) ∧
        ∀ s : Bytes, LamportTime.decode (out.take (LamportTime.encodedLen t) ++ s) =
          .ok (LamportTime.encodedLen t, t)) ∧
    (∀ dst : Bytes, dst.length + 2 ≤ LamportTime.encodedLen t →
      LamportTime.encode t dst = .ok (.error .bufferTooSmall)) ∧
    ∀ dst : Bytes, dst.length + 1 = LamportTime.encodedLen t →
      LamportTime.encode t dst = .error .indexOutOfBounds := by
  refine ⟨fun dst fits => ⟨_, Varint.encode_of_le fits, fun s => ?_⟩,
    fun _ short => Varint.encode_of_short short, fun _ short => Varint.encode_of_one_short short⟩
  rw [LamportTime.encodedLen, List.take_left' (Varint.bytes_length _)]
  exact Varint.decode_bytes t s

/-- The time `0` into an empty buffer: `encoded_len` is 1, the loop does not run, and the store
at index 0 panics instead of returning an error. -/
theorem lamport_time_encode_zero_panics :
    ([] : Bytes).length + 1 = LamportTime.encodedLen 0 ∧
      LamportTime.encode 0 [] = .error .indexOutOfBounds :=
  have oneShort : ([] : Bytes).length + 1 = LamportTime.encodedLen 0 :=
    (Varint.encodedLen_of_lt (by decide)).symm
  ⟨oneShort, (lamport_time_transform 0).2.2 [] oneShort⟩

end Ruserf
