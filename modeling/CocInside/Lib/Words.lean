import Mathlib.Data.BitVec
import Mathlib.Data.Nat.Bitwise
import Mathlib.Data.Nat.ModEq
import Mathlib.Tactic.Common

/-!
# Machine words

What the encodings rest on about words of fixed width.

* `sizeSub`: subtraction of sizes, which wraps.
* `setWidth_signExtend`: a word sign-extended and cut back is the same word.
* `zigzag_bits`: folding the sign into the lowest bit, and back.
* `or_shiftLeft`, `toNat_or_shiftLeft`: a word put together from two parts that do not overlap is
  their sum.
* `digits_eq_of_add_mod_eq`: such a word is known from its sum with any other.
-/

namespace CocInside.Lib

/-- `a - b` on `size_t`: a 64-bit word. -/
def sizeSub (a b : ℕ) : ℕ := if b ≤ a then a - b else a + 2 ^ 64 - b

/-- A difference that is not negative does not wrap. -/
lemma sizeSub_of_le {a b : ℕ} (h : b ≤ a) : sizeSub a b = a - b := if_pos h

/-- Widening by the sign and cutting back changes nothing. -/
lemma setWidth_signExtend {w v : ℕ} (h : w ≤ v) (x : BitVec w) :
    (x.signExtend v).setWidth w = x := by
  ext i hi
  rw [BitVec.getElem_setWidth, BitVec.getLsbD_signExtend]
  simp [hi, show i < v by omega]

/-- Low bits and a part shifted above them. -/
lemma or_shiftLeft {x k : ℕ} (h : x < 2 ^ k) (y : ℕ) : x ||| (y <<< k) = x + 2 ^ k * y := by
  rw [Nat.shiftLeft_eq, Nat.mul_comm, Nat.or_comm, ← Nat.two_pow_add_eq_or_of_lt h, Nat.add_comm]

/-- A part of a word above the bits of another. -/
lemma toNat_or_shiftLeft {x y : UInt32} {k : ℕ} (hk : k < 32) (hx : x.toNat < 2 ^ k)
    (hy : 2 ^ k * y.toNat < 2 ^ 32) :
    (x ||| y <<< UInt32.ofNat k).toNat = x.toNat + 2 ^ k * y.toNat := by
  have hshift : (UInt32.ofNat k).toNat % 32 = k := by
    rw [UInt32.toNat_ofNat']
    omega
  rw [UInt32.toNat_or, UInt32.toNat_shiftLeft, hshift, ← or_shiftLeft hx,
    Nat.mod_eq_of_lt (by rwa [Nat.shiftLeft_eq, Nat.mul_comm])]

/-- Two digits that fill a word: what is added to it does not hide them. -/
lemma digits_eq_of_add_mod_eq {m n q r q' r' c : ℕ} (hq : q < m) (hr : r < n) (hq' : q' < m)
    (hr' : r' < n) (h : (q + m * r + c) % (m * n) = (q' + m * r' + c) % (m * n)) :
    q = q' ∧ r = r' := by
  have hlt : ∀ {a b}, a < m → b < n → a + m * b < m * n := by
    intro a b ha hb
    calc a + m * b < m + m * b := Nat.add_lt_add_right ha _
      _ = m * (b + 1) := by rw [Nat.mul_succ, Nat.add_comm]
      _ ≤ m * n := Nat.mul_le_mul_left m hb
  have heq : q + m * r = q' + m * r' :=
    Nat.ModEq.eq_of_lt_of_lt (Nat.ModEq.add_right_cancel' c h) (hlt hq hr) (hlt hq' hr')
  constructor
  · have hmod := congrArg (· % m) heq
    simpa [Nat.mod_eq_of_lt hq, Nat.mod_eq_of_lt hq'] using hmod
  · have hdiv := congrArg (· / m) heq
    have hm : 0 < m := Nat.zero_lt_of_lt hq
    simpa [Nat.add_mul_div_left _ _ hm, Nat.div_eq_of_lt hq, Nat.div_eq_of_lt hq'] using hdiv

/-- The negation of the lowest bit is that bit everywhere. -/
lemma getElem_neg_and_one {w : ℕ} (x : BitVec w) (i : ℕ) (hi : i < w) :
    (-(x &&& 1#w))[i] = x.getLsbD 0 := by
  have h : x &&& 1#w = if x.getLsbD 0 then 1#w else 0#w := by
    ext j hj
    by_cases h0 : j = 0
    · subst h0
      by_cases hx : x[0] <;> simp [hx, hj]
    · by_cases hx : x.getLsbD 0 <;> simp [hx, h0]
  rw [h]
  by_cases hx : x.getLsbD 0
  · simp [hx, BitVec.neg_one_eq_allOnes]
  · simp [hx]

/-- **Zigzag is undone.** The arithmetic shift spreads the sign over the word, so that it stands
in the lowest bit and flips the others; decoding flips them back. -/
lemma zigzag_bits {w : ℕ} (x : BitVec w) :
    (((x <<< 1) ^^^ x.sshiftRight (w - 1)) >>> 1)
      ^^^ (-(((x <<< 1) ^^^ x.sshiftRight (w - 1)) &&& 1#w)) = x := by
  ext i hi
  have hlow : ((x <<< 1) ^^^ x.sshiftRight (w - 1)).getLsbD 0 = x.msb := by
    rw [BitVec.getLsbD_xor, BitVec.getLsbD_sshiftRight]
    simp [BitVec.msb_eq_getLsbD_last, show ¬ w ≤ 0 by omega]
  rw [BitVec.getElem_xor, getElem_neg_and_one _ _ hi, hlow, BitVec.getElem_ushiftRight,
    BitVec.getLsbD_xor, BitVec.getLsbD_shiftLeft, BitVec.getLsbD_sshiftRight]
  by_cases htop : i + 1 < w
  · have hsign : ¬ w - 1 + (1 + i) < w := by omega
    simp [hsign, show 1 + i < w by omega, show ¬ w ≤ 1 + i by omega,
      BitVec.getLsbD_eq_getElem hi]
  · -- The top bit is shifted out on the way up: what comes back down is the sign alone.
    obtain rfl : i = w - 1 := by omega
    simp [show ¬ 1 + (w - 1) < w by omega, show w ≤ 1 + (w - 1) by omega,
      BitVec.msb_eq_getLsbD_last, BitVec.getLsbD_eq_getElem hi]

end CocInside.Lib
