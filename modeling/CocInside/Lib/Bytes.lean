import Mathlib.Data.Nat.Digits.Defs
import Mathlib.Tactic.Ring
import Mathlib.Tactic.Linarith

/-!
# Fixed-size byte buffers and little-endian numbers

* `leBytes k n`, `leNat bs`: the `k` low bytes of a number, least significant first, and back
  (`leNat_leBytes`).
* `poke s off bs`: a copy of `bs` into the middle of `s`.
* `Buf n`: an array of `n` bytes. `overwrite` is a copy into it, `clear` fills its front with
  zeros, `moveDown k` moves everything from `k` on to the front; what is behind stays as it was.
-/

namespace CocInside.Lib

/-! ## Little-endian numbers -/

/-- The `k` low bytes of `n`. -/
def leBytes : ℕ → ℕ → List UInt8
  | 0, _ => []
  | k + 1, n => UInt8.ofNat n :: leBytes k (n / 256)

/-- The number whose bytes these are. -/
def leNat (bs : List UInt8) : ℕ := Nat.ofDigits 256 (bs.map UInt8.toNat)

/-- The empty list of bytes is the number zero. -/
@[simp] lemma leNat_nil : leNat [] = 0 := rfl

/-- The first byte is the lowest. -/
@[simp] lemma leNat_cons (b : UInt8) (bs : List UInt8) :
    leNat (b :: bs) = b.toNat + 256 * leNat bs := by
  simp [leNat, Nat.ofDigits_cons]

/-- A number is written in as many bytes as asked for. -/
@[simp] lemma length_leBytes (k n : ℕ) : (leBytes k n).length = k := by
  induction k generalizing n with
  | zero => rfl
  | succ k ih => simp [leBytes, ih]

/-- The bytes of a number give it back, up to those cut off. -/
lemma leNat_leBytes (k n : ℕ) : leNat (leBytes k n) = n % 256 ^ k := by
  induction k generalizing n with
  | zero => simp [leBytes, Nat.mod_one]
  | succ k ih =>
      unfold leBytes
      rw [leNat_cons, ih, UInt8.toNat_ofNat', pow_succ' 256 k, Nat.mod_mul]

/-- The bytes of a number small enough give it back. -/
lemma leNat_leBytes_of_lt {k n : ℕ} (h : n < 256 ^ k) : leNat (leBytes k n) = n := by
  rw [leNat_leBytes, Nat.mod_eq_of_lt h]

/-- The number of bytes in a row: the later ones count above the earlier ones. -/
lemma leNat_append (bs cs : List UInt8) :
    leNat (bs ++ cs) = leNat bs + 256 ^ bs.length * leNat cs := by
  simp [leNat, Nat.ofDigits_append]

/-! ## Buffers -/

/-- `memcpy(s + off, bs, |bs|)`. -/
def poke (s : List UInt8) (off : ℕ) (bs : List UInt8) : List UInt8 :=
  s.take off ++ bs ++ s.drop (off + bs.length)

/-- An array of `n` bytes. -/
@[ext] structure Buf (n : ℕ) where
  bytes : List UInt8
  length_eq : bytes.length = n

namespace Buf

variable {n : ℕ}

/-- All zeros. -/
def zero (n : ℕ) : Buf n := ⟨List.replicate n 0, by simp⟩

/-- `memcpy(b + off, bs, |bs|)`. A part of `bs` beyond the end is left out. -/
def overwrite (b : Buf n) (off : ℕ) (bs : List UInt8) : Buf n where
  bytes := poke b.bytes off (bs.take (n - off))
  length_eq := by
    have := b.length_eq
    simp only [poke, List.length_append, List.length_take, List.length_drop]
    omega

/-- `memset(b, 0, k)`. -/
def clear (b : Buf n) (k : ℕ) : Buf n := b.overwrite 0 (List.replicate k 0)

/-- `memmove(b, b + k, n - k)`. -/
def moveDown (b : Buf n) (k : ℕ) : Buf n := b.overwrite 0 (b.bytes.drop k)

/-- The bytes before and behind what is overwritten stay. -/
lemma overwrite_bytes {b : Buf n} {off : ℕ} {bs : List UInt8} (h : off + bs.length ≤ n) :
    (b.overwrite off bs).bytes = b.bytes.take off ++ bs ++ b.bytes.drop (off + bs.length) := by
  show poke b.bytes off (bs.take (n - off)) = _
  rw [List.take_of_length_le (by omega : bs.length ≤ n - off), poke]

/-- The front after a copy to the front. -/
lemma take_overwrite_zero {b : Buf n} {bs : List UInt8} {k : ℕ} (h : bs.length ≤ n)
    (hk : k ≤ bs.length) : (b.overwrite 0 bs).bytes.take k = bs.take k := by
  rw [overwrite_bytes (by omega), List.take_zero, List.nil_append,
    List.take_append_of_le_length hk]

/-- What moved down is what stood from `k` on. -/
lemma take_moveDown (b : Buf n) (k : ℕ) : (b.moveDown k).bytes.take (n - k) = b.bytes.drop k := by
  have hlen : (b.bytes.drop k).length = n - k := by rw [List.length_drop, b.length_eq]
  unfold moveDown
  rw [take_overwrite_zero (by omega) (by omega), List.take_of_length_le (by omega)]

/-- Clearing the front leaves what is behind it. -/
lemma drop_clear (b : Buf n) (k : ℕ) : (b.clear k).bytes.drop k = b.bytes.drop k := by
  by_cases hk : k ≤ n
  · unfold clear
    rw [overwrite_bytes (by simpa using hk)]
    simp
  · rw [List.drop_eq_nil_of_le (by rw [Buf.length_eq]; omega),
      List.drop_eq_nil_of_le (by rw [Buf.length_eq]; omega)]

/-- Moving by nothing changes nothing. -/
@[simp] lemma moveDown_zero (b : Buf n) : b.moveDown 0 = b := by
  ext1
  rw [moveDown, overwrite_bytes (by rw [List.drop_zero, b.length_eq]; omega)]
  simp [b.length_eq]

end Buf

end CocInside.Lib
