import Mathlib.Data.Nat.Bitwise
import Mathlib.Data.List.Basic

/-!
# Bytes and the big-endian transcoder

Models of `src/utils/transcoder.hpp`. A `uint8_t` is `Byte := Fin 256`, a
buffer is `List Byte`, and the wider unsigned types are naturals with the
truncation of each conversion written out (`u32`, `u64`).

* `readAsBE32_writeAsBE32`, `readAsBE64_writeAsBE64`: reading gives back what was
  written, modulo `2^32` and `2^64`.
* `readAsBE16_writeAsBE16`: of 16 bits, the lower eight.
-/

namespace YTorrent

abbrev Byte := Fin 256

/-- Numerals of type `Byte` are built on this instance. -/
instance Byte.neZero : NeZero 256 := ⟨by decide⟩

/-- The conversion `(uint8_t)n`. -/
def byte (n : ℕ) : Byte := ⟨n % 256, Nat.mod_lt n (by decide)⟩

/-- The conversion of an unsigned value to `uint32_t`. -/
def u32 (n : ℕ) : ℕ := n % 2 ^ 32

/-- The conversion of an unsigned value to `size_t`. -/
def u64 (n : ℕ) : ℕ := n % 2 ^ 64

theorem u32_of_lt {n : ℕ} (h : n < 2 ^ 32) : u32 n = n := Nat.mod_eq_of_lt h

theorem u32_lt (n : ℕ) : u32 n < 2 ^ 32 := Nat.mod_lt n (by decide)

theorem u32_le (n : ℕ) : u32 n ≤ n := Nat.mod_le n _

theorem u64_of_lt {n : ℕ} (h : n < 2 ^ 64) : u64 n = n := Nat.mod_eq_of_lt h

@[simp] theorem u32_u32 (n : ℕ) : u32 (u32 n) = u32 n := u32_of_lt (u32_lt n)

/-- `addr[i]`. A read past the end of the buffer yields 0 in the model; the
    callers record such a read (`IncomingMessage.overrun`). -/
def readU8 (addr : List Byte) (i : ℕ) : ℕ := (addr.getD i 0).val

/-- `readAsBE16`: `(uint16_t)addr[1] | (uint16_t)(addr[0]) << 8` (line 44). -/
def readAsBE16 (addr : List Byte) : ℕ := readU8 addr 1 ||| readU8 addr 0 <<< 8

/-- `readAsBE32`: `(uint32_t)readAsBE16(addr + 2) | readAsBE16(addr) << 16` (line 49). -/
def readAsBE32 (addr : List Byte) : ℕ := readAsBE16 (addr.drop 2) ||| readAsBE16 addr <<< 16

/-- `readAsBE64`: `(uint64_t)readAsBE32(addr + 4) | (uint64_t)readAsBE32(addr) << 32`
    (line 54). -/
def readAsBE64 (addr : List Byte) : ℕ := readAsBE32 (addr.drop 4) ||| readAsBE32 addr <<< 32

/-- `readAsLE16` (line 11). -/
def readAsLE16 (addr : List Byte) : ℕ := readU8 addr 1 <<< 8 ||| readU8 addr 0

/-- `readAsLE32` (line 16). -/
def readAsLE32 (addr : List Byte) : ℕ := readAsLE16 (addr.drop 2) <<< 16 ||| readAsLE16 addr

/-- `writeAsBE16` (lines 57–61). The cast in `(uint8_t)value >> 8` comes before the shift. -/
def writeAsBE16 (value : ℕ) : List Byte := [byte ((byte value).val >>> 8), byte value]

/-- `writeAsBE32` (lines 63–69). -/
def writeAsBE32 (value : ℕ) : List Byte :=
  [byte (value >>> 24), byte (value >>> 16), byte (value >>> 8), byte value]

/-- `writeAsBE64` (lines 71–81). -/
def writeAsBE64 (value : ℕ) : List Byte :=
  [byte (value >>> 56), byte (value >>> 48), byte (value >>> 40), byte (value >>> 32),
    byte (value >>> 24), byte (value >>> 16), byte (value >>> 8), byte value]

@[simp] theorem length_writeAsBE16 (v : ℕ) : (writeAsBE16 v).length = 2 := rfl
@[simp] theorem length_writeAsBE32 (v : ℕ) : (writeAsBE32 v).length = 4 := rfl
@[simp] theorem length_writeAsBE64 (v : ℕ) : (writeAsBE64 v).length = 8 := rfl

/-- `|` of a shifted value with one that fits below the shift is a sum. -/
theorem or_shiftLeft_eq {a i : ℕ} (b : ℕ) (h : a < 2 ^ i) : a ||| b <<< i = b * 2 ^ i + a := by
  rw [Nat.or_comm, ← Nat.shiftLeft_add_eq_or_of_lt h, Nat.shiftLeft_eq]

theorem readU8_lt (addr : List Byte) (i : ℕ) : readU8 addr i < 256 := (addr.getD i 0).isLt

theorem readAsBE16_eq (addr : List Byte) :
    readAsBE16 addr = readU8 addr 0 * 256 + readU8 addr 1 :=
  or_shiftLeft_eq (i := 8) _ (readU8_lt addr 1)

theorem readAsBE16_lt (addr : List Byte) : readAsBE16 addr < 2 ^ 16 := by
  have h0 := readU8_lt addr 0
  have h1 := readU8_lt addr 1
  rw [readAsBE16_eq]; omega

theorem readAsBE32_eq (addr : List Byte) :
    readAsBE32 addr = readAsBE16 addr * 2 ^ 16 + readAsBE16 (addr.drop 2) :=
  or_shiftLeft_eq (i := 16) _ (readAsBE16_lt (addr.drop 2))

theorem readAsBE32_lt (addr : List Byte) : readAsBE32 addr < 2 ^ 32 := by
  have h0 := readAsBE16_lt addr
  have h1 := readAsBE16_lt (addr.drop 2)
  rw [readAsBE32_eq]; omega

/-- Reading a written value gives it back, truncated to 32 bits. -/
theorem readAsBE32_writeAsBE32 (v : ℕ) (rest : List Byte) :
    readAsBE32 (writeAsBE32 v ++ rest) = u32 v := by
  simp only [readAsBE32_eq, readAsBE16_eq, readU8, writeAsBE32, byte, u32, List.cons_append,
    List.nil_append, List.getD_cons_zero, List.getD_cons_succ, List.drop_succ_cons, List.drop_zero,
    Nat.shiftRight_eq_div_pow]
  omega

theorem readAsBE64_eq (addr : List Byte) :
    readAsBE64 addr = readAsBE32 addr * 2 ^ 32 + readAsBE32 (addr.drop 4) :=
  or_shiftLeft_eq (i := 32) _ (readAsBE32_lt (addr.drop 4))

/-- The eight bytes are those of the upper and of the lower half. -/
theorem writeAsBE64_eq (v : ℕ) : writeAsBE64 v = writeAsBE32 (v >>> 32) ++ writeAsBE32 v := by
  simp only [writeAsBE64, writeAsBE32, ← Nat.shiftRight_add, List.cons_append, List.nil_append]

theorem readAsBE64_writeAsBE64 (v : ℕ) (rest : List Byte) :
    readAsBE64 (writeAsBE64 v ++ rest) = u64 v := by
  have hdrop : (writeAsBE32 (v >>> 32) ++ (writeAsBE32 v ++ rest)).drop 4 = writeAsBE32 v ++ rest :=
    rfl
  rw [readAsBE64_eq, writeAsBE64_eq, List.append_assoc, hdrop, readAsBE32_writeAsBE32,
    readAsBE32_writeAsBE32, u32, u32, u64, Nat.shiftRight_eq_div_pow]
  omega

/-- The upper byte is lost. -/
theorem readAsBE16_writeAsBE16 (v : ℕ) (rest : List Byte) :
    readAsBE16 (writeAsBE16 v ++ rest) = v % 256 := by
  rw [readAsBE16_eq]
  simp only [readU8, writeAsBE16, byte, List.cons_append, List.nil_append, List.getD_cons_zero,
    List.getD_cons_succ, Nat.shiftRight_eq_div_pow]
  omega

end YTorrent
