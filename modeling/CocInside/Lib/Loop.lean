import Mathlib.Computability.StateTransition
import Mathlib.Data.Int.GCD
import Mathlib.Data.Nat.ModEq
import Mathlib.Tactic.Common
import Mathlib.Tactic.Ring

/-!
# Loops

A loop is a partial function on states: its body, undefined where the loop is left. What it does
from a state is `StateTransition.Reaches`; a state without a next one is the last.

* `reaches_invariant`: what the body keeps holds in every state that is reached.
* `ne_none_of_reaches`: a loop whose invariant always allows another turn is never left.
* `exists_reaches_none`: a loop whose body lowers a measure is left.
* `exists_lt_add_mul_mod_iff`: how far a counter gets that goes on by a fixed step and wraps.
-/

namespace CocInside.Lib

open StateTransition

variable {σ : Type*} {f : σ → Option σ} {I : σ → Prop}

/-- What the body keeps holds in every state the loop reaches. -/
lemma reaches_invariant (hstep : ∀ s t, I s → f s = some t → I t) {s t : σ} (hs : I s)
    (h : Reaches f s t) : I t := by
  induction h with
  | refl => exact hs
  | tail _ hlast ih => exact hstep _ _ ih hlast

/-- **Divergence rule.** A loop whose invariant always allows another turn is never left. -/
theorem ne_none_of_reaches (hstep : ∀ s, I s → ∃ t, f s = some t ∧ I t) {s t : σ} (hs : I s)
    (h : Reaches f s t) : f t ≠ none := by
  have hkeep : ∀ u v, I u → f u = some v → I v := by
    intro u v hu huv
    obtain ⟨w, huw, hw⟩ := hstep u hu
    cases huv.symm.trans huw
    exact hw
  obtain ⟨u, htu, -⟩ := hstep t (reaches_invariant hkeep hs h)
  rw [htu]
  exact Option.some_ne_none u

/-- **Measure rule.** A loop whose body lowers a measure is left, in a state where the invariant
holds. -/
theorem exists_reaches_none (m : σ → ℕ) (hstep : ∀ s t, I s → f s = some t → I t ∧ m t < m s)
    {s : σ} (hs : I s) : ∃ t, Reaches f s t ∧ f t = none ∧ I t := by
  induction hm : m s using Nat.strongRecOn generalizing s with
  | ind n ih =>
      subst hm
      cases hfs : f s with
      | none => exact ⟨s, .refl, hfs, hs⟩
      | some u =>
          obtain ⟨hu, hlt⟩ := hstep s u hs hfs
          obtain ⟨t, hreach, hlast, ht⟩ := ih _ hlt hu rfl
          exact ⟨t, .head hfs hreach, hlast, ht⟩

/-! ## Counters that wrap -/

/-- Counting on by `i` from `a` modulo `m` stays in the class of `a` modulo `gcd i m`. -/
lemma add_mul_mod_mod_gcd (m a i j : ℕ) : (a + j * i) % m % i.gcd m = a % i.gcd m := by
  rw [Nat.mod_mod_of_dvd _ (Nat.gcd_dvd_right i m), Nat.add_mod,
    Nat.mod_eq_zero_of_dvd ((Nat.gcd_dvd_left i m).mul_left j), Nat.add_zero, Nat.mod_mod]

/-- The greatest number below a multiple of `g` in the class of `r` is in the last block. -/
lemma le_of_mod_eq {g n x r : ℕ} (hlt : x < g * n) (hx : x % g = r) : x ≤ g * n - g + r := by
  have hblock : x / g < n := Nat.div_lt_of_lt_mul hlt
  have hsplit := Nat.div_add_mod x g
  have hle : g * (x / g + 1) ≤ g * n := Nat.mul_le_mul_left g hblock
  rw [Nat.mul_add, Nat.mul_one] at hle
  omega

/-- Going on by a divisor `g` of `m` gets to the last block of a later round. -/
lemma exists_add_mul_eq {m g : ℕ} (hg : g ∣ m) (hm : 0 < m) (a : ℕ) :
    ∃ c, a + g * c = m * (a / g) + (m - g + a % g) := by
  obtain ⟨n, rfl⟩ := hg
  obtain ⟨n, rfl⟩ := Nat.exists_eq_succ_of_ne_zero (Nat.pos_of_mul_pos_left hm).ne'
  refine ⟨n * (a / g + 1), ?_⟩
  rw [show g * n.succ - g = g * n by rw [Nat.mul_succ, Nat.add_sub_cancel], Nat.mul_succ]
  calc a + g * (n * (a / g + 1)) = g * (a / g) + a % g + g * (n * (a / g + 1)) := by
        rw [Nat.div_add_mod]
    _ = (g * n + g) * (a / g) + (g * n + a % g) := by ring

/-- Counting on gets to the greatest number of that class. -/
lemma exists_add_mul_mod_eq {m : ℕ} (hm : 0 < m) (a i : ℕ) :
    ∃ j, (a + j * i) % m = m - i.gcd m + a % i.gcd m := by
  have hg : 0 < i.gcd m := Nat.gcd_pos_of_pos_right i hm
  rcases Nat.lt_or_eq_of_le (Nat.gcd_le_right i hm) with hlt | heq
  · obtain ⟨k, -, hk⟩ := Nat.exists_mul_mod_eq_gcd hlt
    obtain ⟨c, hc⟩ := exists_add_mul_eq (Nat.gcd_dvd_right i m) hm a
    -- `k` steps go on by the gcd
    refine ⟨k * c, ?_⟩
    have hsteps : a + k * c * i ≡ a + i.gcd m * c [MOD m] := by
      refine Nat.ModEq.add_left a ?_
      have hmul := Nat.ModEq.mul_right c ((Nat.mod_modEq (i * k) m).symm)
      rw [hk] at hmul
      rwa [show k * c * i = i * k * c by ring]
    rw [hsteps, hc, Nat.mul_add_mod, Nat.mod_eq_of_lt]
    have := Nat.mod_lt a hg
    omega
  · exact ⟨0, by simp [heq]⟩

/-- **Counting on in a word.** Whether a counter that wraps at `m` ever gets past `x`. -/
theorem exists_lt_add_mul_mod_iff {m : ℕ} (hm : 0 < m) (a i x : ℕ) :
    (∃ j, x < (a + j * i) % m) ↔ x < m - i.gcd m + a % i.gcd m := by
  constructor
  · rintro ⟨j, hj⟩
    obtain ⟨n, hn⟩ := Nat.gcd_dvd_right i m
    have hlt : (a + j * i) % m < i.gcd m * n := (Nat.mod_lt _ hm).trans_eq hn
    have hle := le_of_mod_eq hlt (add_mul_mod_mod_gcd m a i j)
    rw [← hn] at hle
    exact lt_of_lt_of_le hj hle
  · intro hx
    obtain ⟨j, hj⟩ := exists_add_mul_mod_eq hm a i
    exact ⟨j, hj ▸ hx⟩

end CocInside.Lib
