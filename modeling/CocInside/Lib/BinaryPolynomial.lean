import Mathlib

/-!
# Polynomials over two elements as numbers, and linear maps of full period

The bits of a number are the coefficients of a polynomial over `ZMod 2`. Multiplication modulo a
polynomial is done on the numbers, so that it can be computed.

* `poly`: the polynomial of a number. `mulMod`, `squarings`: products and repeated squares modulo one.
* `horner`: the value of the polynomial of a number, at a linear map, on a vector.
* `minimalPeriod_eq`: a linear map on `2 ^ n` vectors, with one vector that a polynomial of degree `n`
  sends to zero, has the full period `2 ^ n - 1` at every other vector than zero, if that is prime
  and the `n`-th repeated square of the indeterminate is the indeterminate.
-/

namespace CocInside.Lib

open Polynomial Function

/-- The polynomial whose coefficients are the first `k` bits of a number. -/
noncomputable def poly : ℕ → ℕ → (ZMod 2)[X]
  | 0, _ => 0
  | k + 1, a => X * poly k (a / 2) + if a % 2 = 1 then 1 else 0

/-- Multiplication by the indeterminate, modulo the polynomial `p` of degree `n`. -/
def shiftMod (p n a : ℕ) : ℕ := if 2 * a < 2 ^ n then 2 * a else 2 * a ^^^ p

/-- Multiplication by the first `k` bits of a number, modulo `p`. -/
def mulMod (p n a : ℕ) : ℕ → ℕ → ℕ
  | 0, _ => 0
  | k + 1, b => shiftMod p n (mulMod p n a k (b / 2)) ^^^ if b % 2 = 1 then a else 0

/-- `f` at a number that is computed before it is used. -/
def strictly (f : ℕ → ℕ) : ℕ → ℕ
  | 0 => f 0
  | a + 1 => f (a + 1)

/-- Evaluating the argument first changes nothing. -/
lemma strictly_eq (f : ℕ → ℕ) (a : ℕ) : strictly f a = f a := by
  cases a <;> rfl

/-- Squared `k` times, modulo `p`. -/
def squarings (p n : ℕ) : ℕ → ℕ → ℕ
  | 0, a => a
  | k + 1, a => strictly (squarings p n k) (mulMod p n a n a)

/-- The sum of the coefficients. -/
def sumBits : ℕ → ℕ → ZMod 2
  | 0, _ => 0
  | k + 1, a => sumBits k (a / 2) + if a % 2 = 1 then 1 else 0

/-- At one a polynomial has the sum of its coefficients. -/
lemma eval_one_poly (k a : ℕ) : (poly k a).eval 1 = sumBits k a := by
  induction k generalizing a with
  | zero => simp [poly, sumBits]
  | succ k ih =>
      rw [poly, sumBits, eval_add, eval_mul, eval_X, one_mul, ih]
      split <;> simp

/-- The exclusive or of the coefficients is the sum. -/
lemma poly_xor (k a b : ℕ) : poly k (a ^^^ b) = poly k a + poly k b := by
  induction k generalizing a b with
  | zero => simp [poly]
  | succ k ih =>
      have hbit : (if (a ^^^ b) % 2 = 1 then (1 : (ZMod 2)[X]) else 0) =
          (if a % 2 = 1 then 1 else 0) + if b % 2 = 1 then 1 else 0 := by
        rw [Nat.xor_mod_two_eq]
        rcases Nat.mod_two_eq_zero_or_one a with ha | ha <;>
          rcases Nat.mod_two_eq_zero_or_one b with hb | hb <;>
          simp [Nat.add_mod, ha, hb, CharTwo.add_self_eq_zero]
      rw [poly, poly, poly, Nat.xor_div_two, ih, hbit]
      ring

/-- The number zero is the polynomial zero. -/
lemma poly_zero (k : ℕ) : poly k 0 = 0 := by
  induction k with
  | zero => rfl
  | succ k ih => simp [poly, ih]

/-- Doubling the number is multiplying by `X`. -/
lemma poly_double (k a : ℕ) : poly (k + 1) (2 * a) = X * poly k a := by
  rw [poly, Nat.mul_div_cancel_left a (by decide), if_neg (by omega), add_zero]

/-- A bit that is not set counts for nothing. -/
lemma poly_succ_of_lt {k a : ℕ} (h : a < 2 ^ k) : poly (k + 1) a = poly k a := by
  induction k generalizing a with
  | zero =>
      obtain rfl : a = 0 := by simpa using h
      rw [poly_zero, poly_zero]
  | succ k ih =>
      rw [poly, ih (by rw [pow_succ] at h; omega), poly]

section Modulo

variable {p n : ℕ} (hp : 2 ^ n ≤ p) (hp' : p < 2 ^ (n + 1))
include hp hp'

/-- Two numbers of the same greatest bit. -/
lemma shiftMod_lt {a : ℕ} (h : a < 2 ^ n) : shiftMod p n a < 2 ^ n := by
  rw [shiftMod]
  split
  · assumption
  · rename_i hle
    have hone : ∀ {x}, 2 ^ n ≤ x → x < 2 ^ (n + 1) → x / 2 ^ n = 1 := by
      intro x hx hx'
      rw [pow_succ] at hx'
      exact Nat.div_eq_of_lt_le (by omega) (by omega)
    have hdiv : (2 * a ^^^ p) / 2 ^ n = 0 := by
      rw [Nat.xor_div_two_pow, hone (not_lt.mp hle) (by rw [pow_succ]; omega), hone hp hp',
        Nat.xor_self]
    exact (Nat.div_eq_zero_iff_lt (by positivity)).mp hdiv

/-- A product modulo `p` has its degree below that of `p`. -/
lemma mulMod_lt {a : ℕ} (h : a < 2 ^ n) (k b : ℕ) : mulMod p n a k b < 2 ^ n := by
  induction k generalizing b with
  | zero => exact Nat.two_pow_pos n
  | succ k ih =>
      refine Nat.xor_lt_two_pow (shiftMod_lt hp hp' (ih _)) ?_
      split
      · exact h
      · exact Nat.two_pow_pos n

/-- The shift modulo `p` is multiplication by `X`, modulo `p`. -/
lemma dvd_poly_shiftMod {a : ℕ} (h : a < 2 ^ n) :
    poly (n + 1) p ∣ poly n (shiftMod p n a) - X * poly n a := by
  have hlt := shiftMod_lt hp hp' h
  rw [← poly_succ_of_lt hlt, ← poly_double, shiftMod]
  split
  · simp
  · rw [poly_xor, add_sub_cancel_left]

/-- The product modulo `p` is the product, modulo `p`. -/
lemma dvd_poly_mulMod {a : ℕ} (h : a < 2 ^ n) (k b : ℕ) :
    poly (n + 1) p ∣ poly n (mulMod p n a k b) - poly n a * poly k b := by
  induction k generalizing b with
  | zero => simp [mulMod, poly, poly_zero]
  | succ k ih =>
      have hshift := dvd_poly_shiftMod hp hp' (mulMod_lt hp hp' h k (b / 2))
      have hbit : poly n (if b % 2 = 1 then a else 0) =
          poly n a * (if b % 2 = 1 then 1 else 0) := by
        split <;> simp [poly_zero]
      have hsum := dvd_add hshift ((ih (b / 2)).mul_left X)
      have hb : poly (k + 1) b = X * poly k (b / 2) + if b % 2 = 1 then 1 else 0 := rfl
      rw [mulMod, poly_xor, hbit, hb]
      refine hsum.trans (dvd_of_eq ?_)
      ring

/-- `k` squarings modulo `p` are the power `2 ^ k`, modulo `p`. -/
lemma dvd_poly_squarings (k : ℕ) {a : ℕ} (h : a < 2 ^ n) :
    poly (n + 1) p ∣ poly n (squarings p n k a) - poly n a ^ 2 ^ k := by
  induction k generalizing a with
  | zero => simp [squarings]
  | succ k ih =>
      have hsq := dvd_poly_mulMod hp hp' h n a
      have hpow := hsq.trans (sub_dvd_pow_sub_pow _ _ (2 ^ k))
      have hsum := dvd_add (ih (mulMod_lt hp hp' h n a)) hpow
      rw [squarings, strictly_eq]
      refine hsum.trans (dvd_of_eq ?_)
      rw [pow_succ' 2 k, pow_mul, pow_two]
      ring

end Modulo

/-! ## Linear maps -/

variable {S : Type*} [AddCommGroup S] [Module (ZMod 2) S] (T : Module.End (ZMod 2) S)

/-- The polynomial of the first `k` bits of a number, at `T`, on `v`. -/
def horner (T : S → S) (v : S) : ℕ → ℕ → S
  | 0, _ => 0
  | k + 1, a => T (horner T v k (a / 2)) + if a % 2 = 1 then v else 0

/-- Horner's rule evaluates the polynomial at the map. -/
lemma aeval_poly (v : S) (k a : ℕ) : aeval T (poly k a) v = horner T v k a := by
  induction k generalizing a with
  | zero => simp [poly, horner]
  | succ k ih =>
      rw [poly, horner, map_add, map_mul, aeval_X, LinearMap.add_apply, Module.End.mul_apply, ih]
      split <;> simp

/-- What is sent to zero by a polynomial is sent to zero by its multiples. -/
lemma aeval_eq_zero_of_dvd {q r : (ZMod 2)[X]} {v : S} (hq : aeval T q v = 0) (hdvd : q ∣ r) :
    aeval T r v = 0 := by
  obtain ⟨s, rfl⟩ := hdvd
  rw [mul_comm, map_mul, Module.End.mul_apply, hq, map_zero]

/-- The orbit of a vector of full period has all vectors but zero. -/
lemma exists_iterate_eq [Finite S] {m : ℕ} (hcard : Nat.card S = m + 1) {v : S} (hm : 0 < m)
    (hv : v ≠ 0) (hperiod : minimalPeriod T v = m) {w : S} (hw : w ≠ 0) :
    ∃ k < m, T^[k] v = w := by
  classical
  have := Fintype.ofFinite S
  rw [Nat.card_eq_fintype_card] at hcard
  have hback : T^[m] v = v := hperiod ▸ iterate_minimalPeriod
  have hsub : (Finset.range m).image (fun k => T^[k] v) ⊆ Finset.univ.erase 0 := by
    intro x hx
    obtain ⟨k, hk, rfl⟩ := Finset.mem_image.mp hx
    refine Finset.mem_erase.mpr ⟨fun hzero => hv ?_, Finset.mem_univ _⟩
    have hk := Finset.mem_range.mp hk
    rw [← hback, ← Nat.sub_add_cancel hk.le, iterate_add_apply, hzero]
    exact iterate_map_zero T _
  have hinj : Set.InjOn (fun k => T^[k] v) (Finset.range m) := by
    rw [Finset.coe_range, ← hperiod]
    exact iterate_injOn_Iio_minimalPeriod
  have heq := Finset.eq_of_subset_of_card_le hsub (by
    rw [Finset.card_image_of_injOn hinj, Finset.card_range, Finset.card_erase_of_mem
      (Finset.mem_univ _), Finset.card_univ, hcard]
    omega)
  have hmem : w ∈ (Finset.range m).image (fun k => T^[k] v) := by
    rw [heq]
    exact Finset.mem_erase.mpr ⟨hw, Finset.mem_univ _⟩
  obtain ⟨k, hk, hkw⟩ := Finset.mem_image.mp hmem
  exact ⟨k, Finset.mem_range.mp hk, hkw⟩

/-- **Full period.** -/
theorem minimalPeriod_eq [Finite S] {p n : ℕ} (hp : 2 ^ n ≤ p) (hp' : p < 2 ^ (n + 1))
    (hodd : p % 2 = 1) (hsum : sumBits (n + 1) p = 1) (hn : 1 < n) (hsq : squarings p n n 2 = 2)
    (hprime : (2 ^ n - 1).Prime) (hcard : Nat.card S = 2 ^ n) {v₀ : S} (hv₀ : v₀ ≠ 0)
    (hzero : horner T v₀ (n + 1) p = 0) {v : S} (hv : v ≠ 0) :
    minimalPeriod T v = 2 ^ n - 1 ∧ ∀ w, w ≠ 0 → ∃ k < 2 ^ n - 1, T^[k] v = w := by
  have hpos : 2 ^ n = (2 ^ n - 1) + 1 := (Nat.sub_add_cancel Nat.one_le_two_pow).symm
  have hann : aeval T (poly (n + 1) p) v₀ = 0 := (aeval_poly T v₀ (n + 1) p).trans hzero
  have htwo : poly n 2 = X := by
    obtain ⟨k, rfl⟩ : ∃ k, n = k + 2 := ⟨n - 2, by omega⟩
    simp [poly, poly_zero]
  -- The polynomial divides `X ^ 2 ^ n - X`, and has no factor in common with `X`.
  have hdvd : poly (n + 1) p ∣ X * (X ^ (2 ^ n - 1) - 1) := by
    have h := dvd_poly_squarings hp hp' n (show 2 < 2 ^ n from by
      calc 2 = 2 ^ 1 := rfl
        _ < 2 ^ n := Nat.pow_lt_pow_right (by decide) hn)
    rw [hsq, htwo] at h
    rw [mul_sub, ← pow_succ', ← hpos, mul_one]
    exact (dvd_neg.mpr h).trans (dvd_of_eq (neg_sub _ _))
  have hcoprime : IsCoprime (poly (n + 1) p) X := by
    refine ⟨1, -poly n (p / 2), ?_⟩
    rw [poly, if_pos hodd]
    ring
  have hback : T^[2 ^ n - 1] v₀ = v₀ := by
    have h := aeval_eq_zero_of_dvd T hann (hcoprime.dvd_of_dvd_mul_left hdvd)
    rw [map_sub, map_pow, aeval_X, map_one, LinearMap.sub_apply, Module.End.pow_apply,
      Module.End.one_apply, sub_eq_zero] at h
    exact h
  have hmoves : ¬ IsFixedPt T v₀ := by
    intro hfix
    have h := Module.End.aeval_apply_of_mem_apply_eq_smul (f := T) (p := poly (n + 1) p)
      (hfix.eq.trans (one_smul (ZMod 2) v₀).symm)
    rw [hann, eval_one_poly, hsum, one_smul] at h
    exact hv₀ h.symm
  have := Fact.mk hprime
  have hperiod : minimalPeriod T v₀ = 2 ^ n - 1 := minimalPeriod_eq_prime hback hmoves
  obtain ⟨j, -, rfl⟩ := exists_iterate_eq T (hcard.trans hpos) hprime.pos hv₀ hperiod hv
  have hperiod' : minimalPeriod T (T^[j] v₀) = 2 ^ n - 1 := by
    rw [minimalPeriod_apply_iterate (mk_mem_periodicPts hprime.pos hback), hperiod]
  exact ⟨hperiod', fun w hw => exists_iterate_eq T (hcard.trans hpos) hprime.pos hv hperiod' hw⟩

end CocInside.Lib
