import CocInside.Lib.BinaryPolynomial
import Mathlib.NumberTheory.LucasLehmer

/-!
# The random number generator

`Random` is the generator TinyMT with fixed parameters. Its state has 127 bits that matter; a step is
linear in them, and a number is made of the state after each step.

* `TinyMT64.nextState`, `TinyMT64.temper`, `TinyMT64.init`: the generator. `Random.next64`: its use.
* `Reduced`: the 127 bits, with exclusive or as addition; `Reduced.step` is linear.
* `Reduced.step_period`: the steps go through all states but zero.
* `Random.stream_period_iff`: whatever the seed, the numbers repeat after `2 ^ 127 - 1` and not before.
* `Random.stream_shift`: two seeds give the same numbers, from another place on.

Source: `System/TinyMT/tinymt64.h`, `System/TinyMT/tinymt64.c`, `System/Random.cpp`.
-/

namespace CocInside.System

open CocInside.Lib Function

/-- Source: `System/TinyMT/tinymt64.h`, `tinymt64_t`. -/
structure TinyMT64 where
  status0 : UInt64
  status1 : UInt64
  mat1 : UInt32
  mat2 : UInt32
  tmat : UInt64

namespace TinyMT64

/-- `-((int64_t)(x & 1)) & m`. -/
def select (x m : UInt64) : UInt64 := (0 - (x &&& 1)) &&& m

/-- `x ^= x << k`. -/
def xorLeft (k x : UInt64) : UInt64 := x ^^^ x <<< k

/-- `x ^= x >> k`. -/
def xorRight (k x : UInt64) : UInt64 := x ^^^ x >>> k

/-- `x` of `tinymt64_next_state`. -/
def mix (x : UInt64) : UInt64 := xorLeft 11 (xorLeft 32 (xorRight 32 (xorLeft 12 x)))

/-- Source: `System/TinyMT/tinymt64.h`, `tinymt64_next_state`. -/
def nextState (random : TinyMT64) : TinyMT64 :=
  let x := mix ((random.status0 &&& 0x7fffffffffffffff) ^^^ random.status1)
  { random with
    status0 := random.status1 ^^^ select x random.mat1.toUInt64
    status1 := x ^^^ select x (random.mat2.toUInt64 <<< 32) }

/-- Source: `System/TinyMT/tinymt64.h`, `tinymt64_temper`. -/
def temper (random : TinyMT64) : UInt64 :=
  let x := random.status0 + random.status1
  let x := x ^^^ random.status0 >>> 8
  x ^^^ select x random.tmat

/-- Source: `System/TinyMT/tinymt64.h`, `tinymt64_generate_uint64`. -/
def generateUint64 (random : TinyMT64) : UInt64 × TinyMT64 :=
  (random.nextState.temper, random.nextState)

/-- `status[i & 1]`. -/
def status (random : TinyMT64) (i : ℕ) : UInt64 :=
  if i % 2 = 0 then random.status0 else random.status1

/-- The word `status[i & 1]` is written. Source: `System/TinyMT/tinymt64.c`, `tinymt64_init`. -/
def setStatus (random : TinyMT64) (i : ℕ) (x : UInt64) : TinyMT64 :=
  if i % 2 = 0 then { random with status0 := x } else { random with status1 := x }

/-- The state is not to be zero. Source: `System/TinyMT/tinymt64.c`, `period_certification`. -/
def periodCertification (random : TinyMT64) : TinyMT64 :=
  if random.status0 &&& 0x7fffffffffffffff = 0 ∧ random.status1 = 0 then
    { random with status0 := 'T'.toNat.toUInt64, status1 := 'M'.toNat.toUInt64 }
  else random

/-- The body of the loop of `tinymt64_init`. -/
def initTurn (random : TinyMT64) (i : ℕ) : TinyMT64 :=
  random.setStatus i (random.status i ^^^ (UInt64.ofNat i + (6364136223846793005 : UInt64) *
    (random.status (i - 1) ^^^ random.status (i - 1) >>> 62)))

/-- Source: `System/TinyMT/tinymt64.c`, `tinymt64_init`. -/
def init (random : TinyMT64) (seed : UInt64) : TinyMT64 :=
  let random := { random with
    status0 := seed ^^^ random.mat1.toUInt64 <<< 32
    status1 := random.mat2.toUInt64 ^^^ random.tmat }
  ((List.range' 1 7).foldl initTurn random).periodCertification

end TinyMT64

/-- Source: `System/Random.h`, `Random`. -/
structure Random where
  randState : TinyMT64

namespace Random

/-- What `malloc` gives is overwritten. Source: `System/Random.cpp`, `Random::Random(UInt64 seed)`,
`Random::initState`. -/
def initState (seed : UInt64) : Random :=
  ⟨TinyMT64.init ⟨0, 0, 0x7a840f50, 0xf3d8fcf6, 0x9746beffffbffffe⟩ seed⟩

/-- Source: `System/Random.cpp`, `Random::next64`. -/
def next64 (r : Random) : UInt64 × Random :=
  let x := r.randState.generateUint64
  (x.1, ⟨x.2⟩)

/-- The results of the calls of `next64`. -/
def stream (r : Random) : ℕ → UInt64
  | 0 => r.next64.1
  | k + 1 => r.next64.2.stream k

end Random

/-! ## The state that matters -/

/-- The state without the bit that is masked. -/
@[ext]
structure Reduced where
  status0 : BitVec 63
  status1 : BitVec 64

namespace Reduced

instance : Zero Reduced := ⟨⟨0, 0⟩⟩

/-- The states add up by exclusive or. -/
instance : Add Reduced := ⟨fun v w => ⟨v.status0 ^^^ w.status0, v.status1 ^^^ w.status1⟩⟩

/-- Two reduced states add word by word. -/
lemma add_def (v w : Reduced) : v + w = ⟨v.status0 ^^^ w.status0, v.status1 ^^^ w.status1⟩ := rfl

/-- The zero of the reduced states: both words zero. -/
lemma zero_def : (0 : Reduced) = ⟨0, 0⟩ := rfl

instance : Neg Reduced := ⟨id⟩

/-- Every reduced state is its own negative: the space is over the field of two elements. -/
lemma add_self (v : Reduced) : v + v = 0 := by
  rw [add_def, BitVec.xor_self, BitVec.xor_self]
  rfl

instance : AddCommGroup Reduced where
  add_assoc v w x := by simp [add_def, BitVec.xor_assoc]
  zero_add v := by simp [add_def, zero_def]
  add_zero v := by simp [add_def, zero_def]
  add_comm v w := by simp [add_def, BitVec.xor_comm]
  neg_add_cancel := add_self
  nsmul := nsmulRec
  zsmul := zsmulRec

instance : Module (ZMod 2) Reduced :=
  AddCommGroup.zmodModule fun v => (two_nsmul v).trans v.add_self

/-- The states are as many as numbers of 127 bits. -/
def equiv : Reduced ≃ Fin (2 ^ 63) × Fin (2 ^ 64) where
  toFun v := (v.status0.toFin, v.status1.toFin)
  invFun x := ⟨⟨x.1⟩, ⟨x.2⟩⟩
  left_inv _ := rfl
  right_inv _ := rfl

instance : Finite Reduced := Finite.of_equiv _ equiv.symm

/-- There are `2 ^ 127` reduced states: the top bit of `status0` is not kept. -/
lemma card : Nat.card Reduced = 2 ^ 127 := by
  rw [Nat.card_congr equiv, Nat.card_prod, Nat.card_fin, Nat.card_fin]
  norm_num

/-- The generator in a given state. -/
def expand (v : Reduced) : TinyMT64 :=
  ⟨⟨v.status0.setWidth 64⟩, ⟨v.status1⟩, 0x7a840f50, 0xf3d8fcf6, 0x9746beffffbffffe⟩

end Reduced

/-- What the transition reads of a generator: `status0` without its top bit, and `status1`. -/
def TinyMT64.reduce (random : TinyMT64) : Reduced :=
  ⟨random.status0.toBitVec.setWidth 63, random.status1.toBitVec⟩

namespace Reduced

/-- What `tinymt64_next_state` does to the state. -/
def step (v : Reduced) : Reduced := v.expand.nextState.reduce

/-! ## Linearity -/

/-- The low bit is `0` or `1`. -/
lemma and_one (x : UInt64) : x &&& 1 = 0 ∨ x &&& 1 = 1 := by
  have h : (x &&& 1).toNat = x.toNat % 2 := by
    rw [UInt64.toNat_and]
    exact Nat.and_one_is_mod _
  rcases Nat.mod_two_eq_zero_or_one x.toNat with hx | hx
  · exact .inl (UInt64.toNat_inj.mp (h.trans hx))
  · exact .inr (UInt64.toNat_inj.mp (h.trans hx))

/-- A mask is linear. -/
lemma xor_and (x y m : UInt64) : (x ^^^ y) &&& m = (x &&& m) ^^^ (y &&& m) := by
  apply UInt64.toBitVec_inj.mp
  ext i
  simp [Bool.and_xor_distrib_right]

/-- Adding the matrix word when the low bit is set is linear. -/
lemma select_xor (x y m : UInt64) :
    TinyMT64.select (x ^^^ y) m = TinyMT64.select x m ^^^ TinyMT64.select y m := by
  have hones : (0 - 1 : UInt64) = -1 := by decide
  rw [TinyMT64.select, TinyMT64.select, TinyMT64.select, xor_and]
  rcases and_one x with hx | hx <;> rcases and_one y with hy | hy <;> rw [hx, hy] <;>
    simp [hones]

/-- The middle two of four summands change places. -/
lemma xor_xor_xor (a b c d : UInt64) : a ^^^ b ^^^ (c ^^^ d) = a ^^^ c ^^^ (b ^^^ d) := by
  ac_rfl

/-- A left shift added to the word is linear. -/
lemma xorLeft_xor (k x y : UInt64) :
    TinyMT64.xorLeft k (x ^^^ y) = TinyMT64.xorLeft k x ^^^ TinyMT64.xorLeft k y := by
  rw [TinyMT64.xorLeft, UInt64.shiftLeft_xor, xor_xor_xor]
  rfl

/-- A right shift added to the word is linear. -/
lemma xorRight_xor (k x y : UInt64) :
    TinyMT64.xorRight k (x ^^^ y) = TinyMT64.xorRight k x ^^^ TinyMT64.xorRight k y := by
  rw [TinyMT64.xorRight, UInt64.shiftRight_xor, xor_xor_xor]
  rfl

/-- The mixing of the two words is linear: it is made of shifts and sums. -/
lemma mix_xor (x y : UInt64) : TinyMT64.mix (x ^^^ y) = TinyMT64.mix x ^^^ TinyMT64.mix y := by
  rw [TinyMT64.mix, xorLeft_xor, xorRight_xor, xorLeft_xor, xorLeft_xor]
  rfl

/-- Expanding a reduced state to a generator is linear in both words. -/
lemma expand_add (v w : Reduced) : (v + w).expand.status0 = v.expand.status0 ^^^ w.expand.status0 ∧
    (v + w).expand.status1 = v.expand.status1 ^^^ w.expand.status1 := by
  refine ⟨UInt64.toBitVec_inj.mp ?_, rfl⟩
  show BitVec.setWidth 64 (v.status0 ^^^ w.status0) = _
  exact BitVec.setWidth_xor

/-- Forgetting the top bit is linear. -/
lemma reduce_xor (r s t : TinyMT64) (h0 : t.status0 = r.status0 ^^^ s.status0)
    (h1 : t.status1 = r.status1 ^^^ s.status1) : t.reduce = r.reduce + s.reduce := by
  rw [add_def, TinyMT64.reduce, h0, h1, UInt64.toBitVec_xor, UInt64.toBitVec_xor,
    BitVec.setWidth_xor]
  rfl

/-- The `x` of a step. -/
def mixed (v : Reduced) : UInt64 :=
  TinyMT64.mix ((v.expand.status0 &&& 0x7fffffffffffffff) ^^^ v.expand.status1)

/-- The mixed word is linear in the reduced state. -/
lemma mixed_add (v w : Reduced) : (v + w).mixed = v.mixed ^^^ w.mixed := by
  obtain ⟨h0, h1⟩ := expand_add v w
  rw [mixed, h0, h1, xor_and, xor_xor_xor, mix_xor]
  rfl

/-- The first word after a step, from the mixed word. -/
lemma nextState_status0 (v : Reduced) : v.expand.nextState.status0 =
    v.expand.status1 ^^^ TinyMT64.select v.mixed (0x7a840f50 : UInt32).toUInt64 := rfl

/-- The second word after a step, from the mixed word. -/
lemma nextState_status1 (v : Reduced) : v.expand.nextState.status1 =
    v.mixed ^^^ TinyMT64.select v.mixed ((0xf3d8fcf6 : UInt32).toUInt64 <<< 32) := rfl

/-- A step is linear. -/
lemma step_add (v w : Reduced) : (v + w).step = v.step + w.step := by
  apply reduce_xor
  · rw [nextState_status0, (expand_add v w).2, mixed_add, select_xor, xor_xor_xor]
    rfl
  · rw [nextState_status1, mixed_add, select_xor, xor_xor_xor]
    rfl

/-- A step, as a linear map. -/
def stepLinear : Module.End (ZMod 2) Reduced :=
  (AddMonoidHom.mk' step step_add).toZModLinearMap 2

/-- `2 ^ 127 - 1` is prime: what divides it is one or all of it. -/
lemma prime_period : (2 ^ 127 - 1).Prime :=
  lucas_lehmer_sufficiency 127 (by norm_num) (by norm_num)

/-- The polynomial that a step is a root of. -/
def charpoly : ℕ := 0xacf83c597f7be394c99d32f0af1ae88d

/-- The coefficients of the characteristic polynomial add up to one: it does not vanish at one. -/
lemma sumBits_charpoly : sumBits 128 charpoly = 1 := by decide +kernel

/-- Squaring `X` 127 times modulo the characteristic polynomial gives `X` back. -/
lemma squarings_charpoly : squarings charpoly 127 127 2 = 2 := by decide +kernel

/-- The characteristic polynomial of the step kills the first unit vector. -/
lemma horner_charpoly : horner step ⟨1, 0⟩ 128 charpoly = 0 :=
  Reduced.ext (by decide +kernel) (by decide +kernel)

/-- **The steps go through all states but zero.** -/
theorem step_period {v : Reduced} (hv : v ≠ 0) :
    minimalPeriod step v = 2 ^ 127 - 1 ∧ ∀ w, w ≠ 0 → ∃ k < 2 ^ 127 - 1, step^[k] v = w := by
  have hone : (⟨1, 0⟩ : Reduced) ≠ 0 := fun h => by simpa [zero_def] using congrArg status0 h
  exact minimalPeriod_eq stepLinear (by decide) (by decide) (by decide) sumBits_charpoly (by decide)
    squarings_charpoly prime_period card hone horner_charpoly hv

/-- The number that is made of the state after the next step. -/
def output (v : Reduced) : UInt64 := v.expand.nextState.temper

/-- Some states give different numbers. -/
lemma output_ne : output ⟨1, 0⟩ ≠ output ⟨2, 0⟩ := by decide +kernel

end Reduced

/-! ## The generator and the state that matters -/

namespace TinyMT64

/-- The parameters of `Random`. -/
def HasParameters (random : TinyMT64) : Prop :=
  random.mat1 = 0x7a840f50 ∧ random.mat2 = 0xf3d8fcf6 ∧ random.tmat = 0x9746beffffbffffe

/-- Cutting a word to its 63 low bits is masking it. -/
lemma mask_eq (x : UInt64) :
    UInt64.ofBitVec ((x.toBitVec.setWidth 63).setWidth 64) &&& 0x7fffffffffffffff =
      x &&& 0x7fffffffffffffff := by
  have hmask : (0x7fffffffffffffff : UInt64).toNat = 2 ^ 63 - 1 := rfl
  apply UInt64.toNat_inj.mp
  rw [UInt64.toNat_and, UInt64.toNat_and, hmask, Nat.and_two_pow_sub_one_eq_mod,
    Nat.and_two_pow_sub_one_eq_mod]
  show (BitVec.setWidth 64 (BitVec.setWidth 63 x.toBitVec)).toNat % 2 ^ 63 = _
  rw [BitVec.toNat_setWidth, BitVec.toNat_setWidth, UInt64.toNat_toBitVec]
  omega

/-- The bit that is masked is of no account. -/
lemma nextState_expand_reduce {random : TinyMT64} (h : random.HasParameters) :
    random.reduce.expand.nextState = random.nextState := by
  obtain ⟨status0, status1, mat1, mat2, tmat⟩ := random
  obtain ⟨rfl, rfl, rfl⟩ := h
  simp only [nextState, Reduced.expand, reduce, mask_eq]

/-- A step leaves the parameters alone. -/
lemma HasParameters.nextState {random : TinyMT64} (h : random.HasParameters) :
    random.nextState.HasParameters := h

/-- On the reduced states the transition is the linear step. -/
lemma reduce_nextState {random : TinyMT64} (h : random.HasParameters) :
    random.nextState.reduce = random.reduce.step := by
  rw [Reduced.step, nextState_expand_reduce h]

/-- A turn of the seeding loop leaves the parameters alone. -/
lemma HasParameters.initTurn {random : TinyMT64} (h : random.HasParameters) (i : ℕ) :
    (random.initTurn i).HasParameters := by
  rw [TinyMT64.initTurn, setStatus]
  split <;> exact h

/-- So does the whole seeding loop. -/
lemma HasParameters.foldl {random : TinyMT64} (h : random.HasParameters) (l : List ℕ) :
    (l.foldl TinyMT64.initTurn random).HasParameters := by
  induction l generalizing random with
  | nil => exact h
  | cons i l ih => exact ih (h.initTurn i)

/-- So does the repair of a zero state. -/
lemma HasParameters.periodCertification {random : TinyMT64} (h : random.HasParameters) :
    random.periodCertification.HasParameters := by
  rw [TinyMT64.periodCertification]
  split <;> exact h

/-- The state is certified: it is not zero. -/
lemma reduce_periodCertification (random : TinyMT64) : random.periodCertification.reduce ≠ 0 := by
  intro hzero
  have h0 := congrArg Reduced.status0 hzero
  have h1 := congrArg Reduced.status1 hzero
  rw [periodCertification] at h0 h1
  split at h0
  · rename_i hif
    rw [if_pos hif] at h1
    have hne : ('M'.toNat.toUInt64.toBitVec : BitVec 64) ≠ 0 := by decide
    exact hne h1
  · rename_i hif
    rw [if_neg hif] at h1
    refine hif ⟨?_, UInt64.toBitVec_inj.mp h1⟩
    change random.status0.toBitVec.setWidth 63 = 0 at h0
    rw [← mask_eq, h0]
    decide

end TinyMT64

namespace Random

/-- The outputs are those of the iterates of the linear step. -/
lemma stream_eq {random : TinyMT64} (h : random.HasParameters) (k : ℕ) :
    (⟨random⟩ : Random).stream k = (Reduced.step^[k] random.reduce).output := by
  induction k generalizing random with
  | zero =>
      show random.nextState.temper = _
      rw [iterate_zero_apply, Reduced.output, TinyMT64.nextState_expand_reduce h]
  | succ k ih =>
      rw [iterate_succ_apply, ← TinyMT64.reduce_nextState h]
      exact ih h.nextState

/-- A new generator is in a state other than zero. -/
lemma exists_stream_eq (seed : UInt64) :
    ∃ v : Reduced, v ≠ 0 ∧ ∀ k, (initState seed).stream k = (Reduced.step^[k] v).output := by
  refine ⟨(initState seed).randState.reduce, TinyMT64.reduce_periodCertification _, fun k => ?_⟩
  have h : TinyMT64.HasParameters ⟨seed ^^^ (0x7a840f50 : UInt32).toUInt64 <<< 32,
    (0xf3d8fcf6 : UInt32).toUInt64 ^^^ 0x9746beffffbffffe, 0x7a840f50, 0xf3d8fcf6,
    0x9746beffffbffffe⟩ := ⟨rfl, rfl, rfl⟩
  exact stream_eq (h.foldl (List.range' 1 7)).periodCertification k

/-- **The period.** Whatever the seed, the numbers repeat after `2 ^ 127 - 1`, and not before. -/
theorem stream_period_iff (seed : UInt64) (p : ℕ) :
    (∀ k, (initState seed).stream (k + p) = (initState seed).stream k) ↔ 2 ^ 127 - 1 ∣ p := by
  obtain ⟨v, hv, hstream⟩ := exists_stream_eq seed
  obtain ⟨hperiod, hall⟩ := Reduced.step_period hv
  have hback : ∀ q k, Reduced.step^[k + (2 ^ 127 - 1) * q] v = Reduced.step^[k] v := by
    intro q k
    rw [iterate_add_apply, ← hperiod]
    congr 1
    exact (isPeriodicPt_minimalPeriod Reduced.step v).mul_const q
  simp only [hstream]
  constructor
  · intro hp
    by_contra hdvd
    -- The numbers would all be the same, but all states come up.
    have hconst : ∀ k, (Reduced.step^[k] v).output = v.output := by
      have hmul : ∀ j k, (Reduced.step^[k + p * j] v).output = (Reduced.step^[k] v).output := by
        intro j
        induction j with
        | zero => exact fun k => rfl
        | succ j ih =>
            intro k
            rw [Nat.mul_succ, ← Nat.add_assoc, hp, ih]
      obtain ⟨j, hj⟩ := Nat.exists_mul_mod_eq_one_of_coprime
        ((Reduced.prime_period.coprime_iff_not_dvd.mpr hdvd).symm) Reduced.prime_period.one_lt
      have hone : ∀ k, (Reduced.step^[k + 1] v).output = (Reduced.step^[k] v).output := by
        intro k
        have hsplit : k + p * j = k + 1 + (2 ^ 127 - 1) * (p * j / (2 ^ 127 - 1)) := by
          have := Nat.mod_add_div (p * j) (2 ^ 127 - 1)
          omega
        rw [← hmul j k, hsplit, hback]
      intro k
      induction k with
      | zero => rfl
      | succ k ih => rw [hone, ih]
    have hne : ∀ {w : Reduced}, w ≠ 0 → w.output = v.output := by
      intro w hw
      obtain ⟨k, -, rfl⟩ := hall w hw
      exact hconst k
    refine Reduced.output_ne ((hne ?_).trans (hne ?_).symm)
    · exact fun h => absurd (congrArg Reduced.status0 h) (by decide)
    · exact fun h => absurd (congrArg Reduced.status0 h) (by decide)
  · rintro ⟨q, rfl⟩ k
    rw [hback]

/-- **One cycle.** Two seeds give the same numbers, from another place on. -/
theorem stream_shift (seed seed' : UInt64) :
    ∃ n < 2 ^ 127 - 1, ∀ k, (initState seed').stream k = (initState seed).stream (k + n) := by
  obtain ⟨v, hv, hstream⟩ := exists_stream_eq seed
  obtain ⟨w, hw, hstream'⟩ := exists_stream_eq seed'
  obtain ⟨n, hn, rfl⟩ := (Reduced.step_period hv).2 w hw
  refine ⟨n, hn, fun k => ?_⟩
  rw [hstream', hstream, iterate_add_apply]

end Random

end CocInside.System
