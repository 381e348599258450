import CocInside.Ssu.RoundTrip

/-!
# Which varints are accepted

`unpackUInt32` and `unpackUInt64` go on as long as bytes are left and the top bit is set; the shift
count grows by seven with every byte and is compared with nothing.

* `AcceptsVarint`: what a decoder of at most `n` groups into `w` bits would do on given bytes.
* `OverLong`: the bytes begin with `n` continuation bytes and go on.
* `varint_acceptance_iff`: the two decoders do it exactly if their input is not over-long.

Source: `Ssu/SsuUtils.h`, `Utils::unpackUInt32`, `Utils::unpackUInt64`.
-/

namespace CocInside.Ssu

open CocInside.Lib

section acceptance

variable {α : Type}

/-- On the bytes left at `c`: no shift reaches the width `w`; the decoder succeeds exactly if a
byte below 128 occurs among the first `n` bytes; then it takes the bytes up to and including the
first such byte and yields the sum of their groups in `w` bits. -/
structure AcceptsVarint (w n : ℕ) (toNat : α → ℕ) (d : Decoder α) (mem : Mem) (c : Cursor) :
    Prop where
  shifts : ∀ s, .shift s ∈ (d mem c).trace → s < w
  accepts : (d mem c).val ≠ none ↔ ∃ b ∈ (bytesAt mem c.buf c.leftSize).take n, b < 128
  result : ∀ v, (d mem c).val = some v →
    let k := Varint.runLength (bytesAt mem c.buf c.leftSize) + 1
    toNat v = Varint.groups ((bytesAt mem c.buf c.leftSize).take k) % 2 ^ w ∧
      (d mem c).cur = ⟨c.buf + k, c.leftSize - k⟩

/-- The bytes begin with `n` continuation bytes, and at least one more byte follows. -/
def OverLong (n : ℕ) (bs : List UInt8) : Prop := n < bs.length ∧ ∀ b ∈ bs.take n, 128 ≤ b

/-- Bytes are over-long when there are more than `n` and their run is at least `n`. -/
lemma overLong_iff {n : ℕ} {bs : List UInt8} :
    OverLong n bs ↔ n < bs.length ∧ n ≤ Varint.runLength bs := by
  have hlast := Varint.exists_last_iff bs n
  have hall : (∀ b ∈ bs.take n, 128 ≤ b) ↔ ¬ ∃ b ∈ bs.take n, b < 128 := by
    constructor
    · rintro h ⟨b, hb, hlt⟩
      exact absurd (h b hb) (UInt8.not_le.mpr hlt)
    · intro h b hb
      by_contra hnot
      exact h ⟨b, hb, UInt8.not_le.mp hnot⟩
  rw [OverLong, hall, hlast]
  omega

/-- A decoder that reads a varint into `w` bits accepts as it should exactly the inputs that are
not over-long, `n` being the number of groups that begin below the width. -/
lemma acceptsVarint_iff {w n : ℕ} (hlo : 7 * (n - 1) < w) (hhi : w ≤ 7 * n) (hw : 7 ≤ w)
    {toNat : α → ℕ} {g : ℕ → α} (hg : ∀ v, v < 2 ^ w → toNat (g v) = v) (mem : Mem) (c : Cursor) :
    AcceptsVarint w n toNat (Varint.read w >>= fun v => pure (g v)) mem c ↔
      ¬ OverLong n (bytesAt mem c.buf c.leftSize) := by
  obtain ⟨buf, left⟩ := c
  set bs := bytesAt mem buf left with hbs
  have hlen : bs.length = left := length_bytesAt mem buf left
  have hmem : Holds mem buf bs := holds_bytesAt mem buf left
  obtain ⟨hval, hcur, hshift⟩ := Varint.read_spec w hmem
  have hrun := Varint.runLength_le bs
  obtain ⟨hcur', htrace⟩ := bind_pure_cur_trace (Varint.read w) g mem ⟨buf, left⟩
  have hval' := bind_pure_val (Varint.read w) g mem ⟨buf, left⟩
  rw [hlen] at hval hcur hshift hrun
  rw [overLong_iff, hlen]
  constructor
  · -- The byte after the first `n` is shifted by `7 * n`.
    rintro h ⟨hlong, hcont⟩
    have hn : 0 < n := by omega
    have hbad := h.shifts (7 + 7 * (n - 1))
      (by rw [htrace]; exact (hshift _).mpr ⟨n - 1, by omega, rfl⟩)
    omega
  · intro hok
    have hlast := Varint.exists_last_iff bs n
    rw [hlen] at hlast
    have hsome : ((Varint.read w >>= fun v => pure (g v)) mem ⟨buf, left⟩).val ≠ none ↔
        Varint.runLength bs < left := by
      rw [hval', ne_eq, Option.map_eq_none_iff]
      exact hval
    refine ⟨?_, ?_, ?_⟩
    · intro s hs
      rw [htrace, hshift] at hs
      obtain ⟨i, hi, rfl⟩ := hs
      omega
    · rw [hsome, hlast]
      omega
    · intro v hv
      have hlt : Varint.runLength bs < left := hsome.mp (by rw [hv]; exact Option.some_ne_none v)
      refine ⟨?_, by rw [hcur']; exact hcur hlt⟩
      rw [hval', Option.map_eq_some_iff] at hv
      obtain ⟨u, hu, rfl⟩ := hv
      have hu' : (Varint.read w mem ⟨buf, bs.length⟩).val = some u := by
        rw [hlen]
        exact hu
      rw [Varint.read_value hmem (by omega) hw hu', hg _ (Nat.mod_lt _ (Nat.two_pow_pos w))]

end acceptance

/-- **Varint acceptance.** On every byte string, `unpackUInt32` shifts by less than 32, accepts
exactly the runs of at most five groups, takes them whole and yields their sum in 32 bits, if and
only if the string does not begin with five continuation bytes followed by another byte; and
`unpackUInt64` likewise with 64 bits and ten groups. -/
theorem varint_acceptance_iff (mem : Mem) (c : Cursor) :
    (AcceptsVarint 32 5 UInt32.toNat unpackUInt32 mem c ↔
      ¬ OverLong 5 (bytesAt mem c.buf c.leftSize)) ∧
    (AcceptsVarint 64 10 UInt64.toNat unpackUInt64 mem c ↔
      ¬ OverLong 10 (bytesAt mem c.buf c.leftSize)) := by
  constructor
  · exact acceptsVarint_iff (by decide) (by decide) (by decide)
      (fun v hv => UInt32.toNat_ofNat_of_lt' hv) mem c
  · exact acceptsVarint_iff (by decide) (by decide) (by decide)
      (fun v hv => UInt64.toNat_ofNat_of_lt' hv) mem c

/-- Five continuation bytes and a sixth byte are accepted, and shift by 35. -/
theorem not_acceptsVarint_six_groups :
    (unpackUInt32 (memOf [128, 128, 128, 128, 128, 1]) ⟨0, 6⟩).val ≠ none ∧
      .shift 35 ∈ (unpackUInt32 (memOf [128, 128, 128, 128, 128, 1]) ⟨0, 6⟩).trace ∧
      ¬ AcceptsVarint 32 5 UInt32.toNat unpackUInt32 (memOf [128, 128, 128, 128, 128, 1])
        ⟨0, 6⟩ := by
  refine ⟨by decide, by decide, ?_⟩
  intro h
  exact absurd (h.shifts 35 (by decide)) (by decide)

end CocInside.Ssu
