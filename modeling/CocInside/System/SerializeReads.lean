import CocInside.System.SerializeText

/-!
# How far `DeserializeInfo` reads

`operator >>` picks the length class from the byte at `current` before it compares anything with `pend`.
What it does with a number that is cut off is fixed afterwards: the value is 0 and `current` moves to
`pend`; but a number of 64 bits is read in two halves, and only the half that is cut off is 0.

* `classLength`, `encodedEnd`: how long a number is, by its first bytes.
* `BoundedRead`, `Inside`: what a read should keep to, and where it does.
* `getUInt32_spec`: one number, cut off or not.
* `bounded_reads_iff`: along any reads from an accepted string, all of them are bounded exactly when
  each starts inside.

Source: `System/Serialize.cpp`, `DeserializeInfo::operator >>`.
-/

namespace CocInside.System

open CocInside.Lib

/-! ## Lengths -/

/-- The number of bytes of a 32-bit number, by its first byte. -/
def classLength (lead : UInt8) : ℕ :=
  if lead.toNat < 0x80 then 1
  else if lead.toNat < 0xc0 then 2
  else if lead.toNat < 0xe0 then 3
  else if lead.toNat < 0xf0 then 4
  else 5

/-- The bits of the number that stand in its first byte. -/
def leadBits (lead : UInt8) : ℕ :=
  if lead.toNat < 0x80 then lead.toNat
  else if lead.toNat < 0xc0 then lead.toNat &&& 0x3f
  else if lead.toNat < 0xe0 then lead.toNat &&& 0x1f
  else if lead.toNat < 0xf0 then lead.toNat &&& 0x0f
  else 0

/-- The bytes at `a` are an encoding of 0: no bit of the number is set. -/
def EncodesZero (mem : Mem) (a : ℕ) : Prop :=
  leadBits (mem a) = 0 ∧ ∀ i ∈ List.range (classLength (mem a)), 0 < i → mem (a + i) = 0

instance (mem : Mem) (a : ℕ) : Decidable (EncodesZero mem a) := inferInstanceAs (Decidable (_ ∧ _))

/-- Every class of numbers takes at least one byte. -/
lemma classLength_pos (lead : UInt8) : 0 < classLength lead := by
  unfold classLength
  split_ifs <;> decide

/-- What a call does when the number is cut off, and when it is not. -/
lemma getBytes_cases (n val : ℕ) (mem : Mem) (c : Cursor) :
    (c.leftSize < n → getBytes n val mem c = ⟨some 0, ⟨c.buf + c.leftSize, 0⟩, [.read c.buf]⟩) ∧
    (n ≤ c.leftSize → getBytes n val mem c
      = ⟨some (UInt32.ofNat val), ⟨c.buf + n, c.leftSize - n⟩, readsAt c.buf n⟩) := by
  unfold getBytes
  constructor
  · intro hlt
    rw [if_pos hlt]
  · intro hle
    rw [if_neg (by omega)]

/-- A number below `2 ^ 32` as a `UInt32`. -/
lemma ofNat_eq_zero_iff {n : ℕ} (h : n < 2 ^ 32) : UInt32.ofNat n = 0 ↔ n = 0 := by
  rw [← UInt32.toNat_inj, UInt32.toNat_ofNat', Nat.mod_eq_of_lt h]
  rfl

/-- A byte shifted below bit 32. -/
lemma byte_shiftLeft_lt (b : UInt8) {k : ℕ} (hk : k ≤ 24) : b.toNat <<< k < 2 ^ 32 := by
  have hb := b.toNat_lt
  have hpow : 2 ^ k ≤ 2 ^ 24 := Nat.pow_le_pow_right (by decide) hk
  rw [Nat.shiftLeft_eq]
  calc b.toNat * 2 ^ k ≤ 255 * 2 ^ 24 := Nat.mul_le_mul (by omega) hpow
    _ < 2 ^ 32 := by decide

/-- A byte is zero when it is shifted to zero. -/
lemma byte_shiftLeft_eq_zero (b : UInt8) (k : ℕ) : b.toNat <<< k = 0 ↔ b = 0 := by
  rw [Nat.shiftLeft_eq_zero_iff, ← UInt8.toNat_inj]
  rfl

/-- **The number at `current`**: one call of `getBytes` for its class, with a value that is 0 exactly
when no bit is set. -/
lemma getUInt32_eq (mem : Mem) (c : Cursor) :
    ∃ val, getUInt32 mem c = getBytes (classLength (mem c.buf)) val mem c ∧
      (UInt32.ofNat val = 0 ↔ EncodesZero mem c.buf) := by
  have hb0 : (mem c.buf).toNat < 2 ^ 32 := (mem c.buf).toNat_lt.trans (by decide)
  have hand : ∀ m, (mem c.buf).toNat &&& m < 2 ^ 32 := fun m => Nat.and_le_left.trans_lt hb0
  have hshift : ∀ i k, k ≤ 24 → (mem (c.buf + i)).toNat <<< k < 2 ^ 32 :=
    fun i k hk => byte_shiftLeft_lt (mem (c.buf + i)) hk
  simp only [getUInt32, Nat.add_zero, EncodesZero, classLength, leadBits]
  split_ifs with h1 h2 h3 h4
  · refine ⟨_, rfl, ?_⟩
    rw [ofNat_eq_zero_iff hb0]
    simp
  · refine ⟨_, rfl, ?_⟩
    have hlt := Nat.or_lt_two_pow (hand 0x3f) (hshift 1 6 (by decide))
    rw [ofNat_eq_zero_iff hlt, Nat.or_eq_zero_iff, byte_shiftLeft_eq_zero]
    simp [List.range_succ]
  · refine ⟨_, rfl, ?_⟩
    have hlt := Nat.or_lt_two_pow (Nat.or_lt_two_pow (hand 0x1f) (hshift 1 5 (by decide)))
      (hshift 2 13 (by decide))
    rw [ofNat_eq_zero_iff hlt, Nat.or_eq_zero_iff, Nat.or_eq_zero_iff, byte_shiftLeft_eq_zero,
      byte_shiftLeft_eq_zero, and_assoc]
    simp [List.range_succ]
  · refine ⟨_, rfl, ?_⟩
    have hlt := Nat.or_lt_two_pow (Nat.or_lt_two_pow (Nat.or_lt_two_pow (hand 0x0f)
      (hshift 1 4 (by decide))) (hshift 2 12 (by decide))) (hshift 3 20 (by decide))
    rw [ofNat_eq_zero_iff hlt, Nat.or_eq_zero_iff, Nat.or_eq_zero_iff, Nat.or_eq_zero_iff,
      byte_shiftLeft_eq_zero, byte_shiftLeft_eq_zero, byte_shiftLeft_eq_zero, and_assoc, and_assoc]
    simp [List.range_succ]
  · refine ⟨_, rfl, ?_⟩
    have hb : ∀ i, (mem (c.buf + i)).toNat < 256 := fun i => (mem (c.buf + i)).toNat_lt
    have hz : ∀ i, mem (c.buf + i) = 0 ↔ (mem (c.buf + i)).toNat = 0 := fun i => by
      rw [← UInt8.toNat_inj]
      rfl
    have := hb 1
    have := hb 2
    have := hb 3
    have := hb 4
    simp only [leNat_cons, leNat_nil]
    rw [ofNat_eq_zero_iff (by omega)]
    simp only [List.range_succ, List.range_zero, List.nil_append, List.mem_append,
      List.mem_singleton, true_and, hz]
    constructor
    · rintro hsum i hi hpos
      rcases hi with (((rfl | rfl) | rfl) | rfl) | rfl <;> omega
    · intro h
      have h1' := h 1 (by simp) (by decide)
      have h2' := h 2 (by simp) (by decide)
      have h3' := h 3 (by simp) (by decide)
      have h4' := h 4 (by simp) (by decide)
      omega

/-- One number, cut off or not. -/
lemma getUInt32_spec (mem : Mem) (c : Cursor) :
    (c.leftSize < classLength (mem c.buf) →
      getUInt32 mem c = ⟨some 0, ⟨c.buf + c.leftSize, 0⟩, [.read c.buf]⟩) ∧
    (classLength (mem c.buf) ≤ c.leftSize →
      ∃ v, getUInt32 mem c = ⟨some v, ⟨c.buf + classLength (mem c.buf),
        c.leftSize - classLength (mem c.buf)⟩, readsAt c.buf (classLength (mem c.buf))⟩ ∧
        (v = 0 ↔ EncodesZero mem c.buf)) := by
  obtain ⟨val, heq, hzero⟩ := getUInt32_eq mem c
  obtain ⟨hcut, hwhole⟩ := getBytes_cases (classLength (mem c.buf)) val mem c
  rw [heq]
  exact ⟨hcut, fun hle => ⟨_, hwhole hle, hzero⟩⟩

/-- The first byte is looked at in any case. -/
lemma read_mem_getUInt32 (mem : Mem) (c : Cursor) : .read c.buf ∈ (getUInt32 mem c).trace := by
  obtain ⟨hcut, hwhole⟩ := getUInt32_spec mem c
  rcases Nat.lt_or_ge c.leftSize (classLength (mem c.buf)) with hlt | hge
  · rw [hcut hlt]
    exact List.mem_singleton_self _
  · obtain ⟨v, heq, -⟩ := hwhole hge
    rw [heq]
    have hpos := classLength_pos (mem c.buf)
    exact read_mem_readsAt.mpr ⟨le_rfl, by omega⟩

/-- The cursor stays inside, and a value is always there. -/
lemma getUInt32_cur (mem : Mem) (c : Cursor) :
    ∃ v, (getUInt32 mem c).val = some v ∧ c.buf ≤ (getUInt32 mem c).cur.buf ∧
      (getUInt32 mem c).cur.buf + (getUInt32 mem c).cur.leftSize = c.buf + c.leftSize := by
  obtain ⟨hcut, hwhole⟩ := getUInt32_spec mem c
  rcases Nat.lt_or_ge c.leftSize (classLength (mem c.buf)) with hlt | hge
  · rw [hcut hlt]
    exact ⟨0, rfl, Nat.le_add_right _ _, rfl⟩
  · obtain ⟨v, heq, -⟩ := hwhole hge
    rw [heq]
    refine ⟨v, rfl, Nat.le_add_right _ _, ?_⟩
    simp only
    omega

/-- The two halves of a number of 64 bits. -/
lemma getUInt64_eq {mem : Mem} {c : Cursor} {v1 v2 : UInt32}
    (h1 : (getUInt32 mem c).val = some v1)
    (h2 : (getUInt32 mem (getUInt32 mem c).cur).val = some v2) :
    getUInt64 mem c = ⟨some (v1.toUInt64 ||| (v2.toUInt64 <<< 32)),
      (getUInt32 mem (getUInt32 mem c).cur).cur,
      (getUInt32 mem c).trace ++ (getUInt32 mem (getUInt32 mem c).cur).trace⟩ := by
  unfold getUInt64
  rw [Decoder.bind_of_some h1, Decoder.bind_of_some h2, Decoder.pure_apply, List.append_nil]

/-- What is looked at for a number of 64 bits. -/
lemma getUInt64_trace (mem : Mem) (c : Cursor) :
    (getUInt64 mem c).trace
      = (getUInt32 mem c).trace ++ (getUInt32 mem (getUInt32 mem c).cur).trace := by
  obtain ⟨v1, hv1, -⟩ := getUInt32_cur mem c
  obtain ⟨v2, hv2, -⟩ := getUInt32_cur mem (getUInt32 mem c).cur
  rw [getUInt64_eq hv1 hv2]

/-- A number of 64 bits whose first half is `v1` and ends at `c1`, and whose second half is cut off. -/
lemma getUInt64_of_first {mem : Mem} {c c1 : Cursor} {v1 : UInt32} {tr : List Access}
    (h : getUInt32 mem c = ⟨some v1, c1, tr⟩) (hlt : c1.leftSize < classLength (mem c1.buf)) :
    getUInt64 mem c = ⟨some (v1.toUInt64 ||| ((0 : UInt32).toUInt64 <<< 32)),
      ⟨c1.buf + c1.leftSize, 0⟩, tr ++ [.read c1.buf]⟩ := by
  have hcut := (getUInt32_spec mem c1).1 hlt
  have h1 : (getUInt32 mem c).val = some v1 := by rw [h]
  have hc1 : (getUInt32 mem c).cur = c1 := by rw [h]
  have h2 : (getUInt32 mem (getUInt32 mem c).cur).val = some 0 := by rw [hc1, hcut]
  rw [getUInt64_eq h1 h2, hc1, hcut, h]

/-- With a byte left, no byte behind the last one is read. -/
lemma getUInt32_reads_lt {mem : Mem} {c : Cursor} {a : ℕ} (hpos : 0 < c.leftSize)
    (ha : .read a ∈ (getUInt32 mem c).trace) : a < c.buf + c.leftSize := by
  obtain ⟨hcut, hwhole⟩ := getUInt32_spec mem c
  rcases Nat.lt_or_ge c.leftSize (classLength (mem c.buf)) with hlt | hge
  · rw [hcut hlt] at ha
    obtain rfl : a = c.buf := by simpa using ha
    omega
  · obtain ⟨v, heq, -⟩ := hwhole hge
    rw [heq] at ha
    have := read_mem_readsAt.mp ha
    omega

/-- The same for a number of 64 bits, with a byte left for each half. -/
lemma getUInt64_reads_lt {mem : Mem} {c : Cursor} {a : ℕ} (hpos : 0 < c.leftSize)
    (hpos' : 0 < (getUInt32 mem c).cur.leftSize) (ha : .read a ∈ (getUInt64 mem c).trace) :
    a < c.buf + c.leftSize := by
  obtain ⟨-, -, -, hsum⟩ := getUInt32_cur mem c
  rw [getUInt64_trace] at ha
  rcases List.mem_append.mp ha with ha | ha
  · exact getUInt32_reads_lt hpos ha
  · exact hsum ▸ getUInt32_reads_lt hpos' ha

/-- The upper half is 0: the whole is 0 when the lower half is. -/
lemma join_zero_iff (v : UInt32) : v.toUInt64 ||| ((0 : UInt32).toUInt64 <<< 32) = 0 ↔ v = 0 := by
  rw [show (0 : UInt32).toUInt64 <<< 32 = 0 from rfl, UInt64.or_zero, ← UInt64.toNat_inj,
    ← UInt32.toNat_inj, UInt32.toNat_toUInt64]
  rfl

/-! ## The types -/

namespace IntType

/-- The types of 64 bits, which are read in two halves. -/
def wide : IntType → Bool
  | uint64 | int64 => true
  | _ => false

/-- The value 0 of a type. -/
def zero : IntType → Value
  | uint8 => .uint8 0
  | uint16 => .uint16 0
  | uint32 => .uint32 0
  | uint64 => .uint64 0
  | int8 => .int8 0
  | int16 => .int16 0
  | int32 => .int32 0
  | int64 => .int64 0

/-- A narrow type is one number, converted. -/
lemma read_narrow {t : IntType} (ht : t.wide = false) :
    ∃ f : UInt32 → Value, t.read = (getUInt32 >>= fun v => pure (f v)) ∧ f 0 = t.zero := by
  cases t with
  | uint64 => cases ht
  | int64 => cases ht
  | _ => exact ⟨_, rfl, rfl⟩

/-- A wide type is two numbers, put together. -/
lemma read_wide {t : IntType} (ht : t.wide = true) :
    ∃ f : UInt64 → Value, t.read = (getUInt64 >>= fun v => pure (f v)) ∧
      ∀ v, f v = t.zero ↔ v = 0 := by
  cases t with
  | uint64 => exact ⟨.uint64, rfl, fun v => by simp [zero]⟩
  | int64 =>
      refine ⟨fun v => .int64 v.toInt64, rfl, fun v => ?_⟩
      simp only [zero, Value.int64.injEq]
      rw [← Int64.toBitVec_inj, ← UInt64.toBitVec_inj]
      rfl
  | _ => cases ht

end IntType

/-- Where the encoding at `a` of a value of type `t` ends, by its first bytes. -/
def encodedEnd (mem : Mem) (t : IntType) (a : ℕ) : ℕ :=
  let half := a + classLength (mem a)
  if t.wide then half + classLength (mem half) else half

/-! ## One read -/

namespace DeserializeInfo

/-- All that one call of `operator >>` does. -/
def outcome (d : DeserializeInfo) (t : IntType) : Outcome Value :=
  t.read (memOf d.pbuf) ⟨d.current, d.pend - d.current⟩

/-- The object after the call. -/
def after (d : DeserializeInfo) (t : IntType) : DeserializeInfo :=
  { d with current := (d.outcome t).cur.buf }

/-- A read that keeps to its bounds: every byte it looks at lies before `pend`, `current` stays between
the payload's start and `pend`, and a value that is cut off is 0 and leaves `current` at `pend`. -/
structure BoundedRead (d : DeserializeInfo) (t : IntType) : Prop where
  reads : ∀ a, .read a ∈ (d.outcome t).trace → a < d.pend
  start : 4 ≤ (d.after t).current
  stop : (d.after t).current ≤ d.pend
  cut : d.pend < encodedEnd (memOf d.pbuf) t d.current →
    (d.outcome t).val = some t.zero ∧ (d.after t).current = d.pend

/-- A read that starts inside: there is a first byte, for each of the halves of a wide type; and if
only the second half is cut off, the first one is 0. -/
def Inside (d : DeserializeInfo) (t : IntType) : Prop :=
  let mem := memOf d.pbuf
  if t.wide then
    d.current + classLength (mem d.current) < d.pend ∧
      (encodedEnd mem t d.current ≤ d.pend ∨ EncodesZero mem d.current)
  else d.current < d.pend

instance (d : DeserializeInfo) (t : IntType) : Decidable (d.Inside t) :=
  inferInstanceAs (Decidable (if t.wide then _ ∧ _ else _))

/-- `current` between the start of the payload and `pend`. -/
def InRange (d : DeserializeInfo) : Prop := 4 ≤ d.current ∧ d.current ≤ d.pend

variable {d : DeserializeInfo} {t : IntType}

/-- A read of a narrow type. -/
lemma outcome_narrow (d : DeserializeInfo) (ht : t.wide = false) :
    ∃ f : UInt32 → Value, f 0 = t.zero ∧
      d.outcome t = ⟨(getUInt32 (memOf d.pbuf) ⟨d.current, d.pend - d.current⟩).val.map f,
        (getUInt32 (memOf d.pbuf) ⟨d.current, d.pend - d.current⟩).cur,
        (getUInt32 (memOf d.pbuf) ⟨d.current, d.pend - d.current⟩).trace⟩ := by
  obtain ⟨f, hread, hzero⟩ := IntType.read_narrow ht
  obtain ⟨v, hv, -⟩ := getUInt32_cur (memOf d.pbuf) ⟨d.current, d.pend - d.current⟩
  refine ⟨f, hzero, ?_⟩
  unfold outcome
  rw [hread, Decoder.bind_of_some hv, Decoder.pure_apply, List.append_nil, hv]
  rfl

/-- A read of a wide type. -/
lemma outcome_wide (d : DeserializeInfo) (ht : t.wide = true) :
    ∃ f : UInt64 → Value, (∀ v, f v = t.zero ↔ v = 0) ∧
      d.outcome t = ⟨(getUInt64 (memOf d.pbuf) ⟨d.current, d.pend - d.current⟩).val.map f,
        (getUInt64 (memOf d.pbuf) ⟨d.current, d.pend - d.current⟩).cur,
        (getUInt64 (memOf d.pbuf) ⟨d.current, d.pend - d.current⟩).trace⟩ := by
  obtain ⟨f, hread, hzero⟩ := IntType.read_wide ht
  obtain ⟨v1, hv1, -⟩ := getUInt32_cur (memOf d.pbuf) ⟨d.current, d.pend - d.current⟩
  obtain ⟨v2, hv2, -⟩ := getUInt32_cur (memOf d.pbuf)
    (getUInt32 (memOf d.pbuf) ⟨d.current, d.pend - d.current⟩).cur
  have hval := congrArg Outcome.val (getUInt64_eq hv1 hv2)
  refine ⟨f, hzero, ?_⟩
  unfold outcome
  rw [hread, Decoder.bind_of_some hval, Decoder.pure_apply, List.append_nil, hval]
  rfl

/-- **`current` stays in range**, whatever is read. -/
lemma InRange.after (h : d.InRange) (t : IntType) : (d.after t).InRange := by
  obtain ⟨hstart, hstop⟩ := h
  obtain ⟨v1, hv1, hle1, hsum1⟩ := getUInt32_cur (memOf d.pbuf) ⟨d.current, d.pend - d.current⟩
  unfold InRange DeserializeInfo.after
  cases ht : t.wide with
  | false =>
      obtain ⟨f, -, hout⟩ := outcome_narrow d ht
      rw [hout]
      dsimp only at hle1 hsum1 ⊢
      omega
  | true =>
      obtain ⟨f, -, hout⟩ := outcome_wide d ht
      obtain ⟨v2, hv2, hle2, hsum2⟩ := getUInt32_cur (memOf d.pbuf)
        (getUInt32 (memOf d.pbuf) ⟨d.current, d.pend - d.current⟩).cur
      rw [hout, getUInt64_eq hv1 hv2]
      dsimp only at hle1 hsum1 ⊢
      omega

/-- A narrow type keeps to its bounds exactly when a byte is left. -/
lemma boundedRead_narrow (h : d.InRange) (ht : t.wide = false) :
    d.BoundedRead t ↔ d.current < d.pend := by
  obtain ⟨f, hzero, hout⟩ := outcome_narrow d ht
  constructor
  · intro hb
    apply hb.reads
    rw [hout]
    exact read_mem_getUInt32 (memOf d.pbuf) ⟨d.current, d.pend - d.current⟩
  · intro hlt
    obtain ⟨hstart, hstop⟩ := h.after t
    obtain ⟨hcut, -⟩ := getUInt32_spec (memOf d.pbuf) ⟨d.current, d.pend - d.current⟩
    dsimp only at hcut
    refine ⟨?_, hstart, hstop, ?_⟩
    · intro a ha
      rw [hout] at ha
      have hread := getUInt32_reads_lt (Nat.sub_pos_of_lt hlt) ha
      dsimp only at hread
      omega
    · intro hend
      unfold encodedEnd at hend
      rw [ht] at hend
      simp only [Bool.false_eq_true, if_false] at hend
      rw [DeserializeInfo.after, hout, hcut (by omega)]
      refine ⟨congrArg some hzero, ?_⟩
      dsimp only
      omega

/-- A wide type keeps to its bounds exactly when a byte is left for each half, and a first half that
stands alone is 0. -/
lemma boundedRead_wide (h : d.InRange) (ht : t.wide = true) :
    d.BoundedRead t ↔
      d.current + classLength (memOf d.pbuf d.current) < d.pend ∧
        (encodedEnd (memOf d.pbuf) t d.current ≤ d.pend ∨ EncodesZero (memOf d.pbuf) d.current) := by
  obtain ⟨f, hzero, hout⟩ := outcome_wide d ht
  obtain ⟨hcut, hwhole⟩ := getUInt32_spec (memOf d.pbuf) ⟨d.current, d.pend - d.current⟩
  dsimp only at hcut hwhole
  have hend : encodedEnd (memOf d.pbuf) t d.current
      = d.current + classLength (memOf d.pbuf d.current)
        + classLength (memOf d.pbuf (d.current + classLength (memOf d.pbuf d.current))) := by
    simp [encodedEnd, ht]
  rw [hend]
  constructor
  · intro hb
    -- the first byte of the second half is looked at, so the first half is whole
    have hsecond : (getUInt32 (memOf d.pbuf) ⟨d.current, d.pend - d.current⟩).cur.buf < d.pend := by
      apply hb.reads
      rw [hout, getUInt64_trace]
      exact List.mem_append_right _ (read_mem_getUInt32 _ _)
    have hge : classLength (memOf d.pbuf d.current) ≤ d.pend - d.current := by
      by_contra hlt
      rw [hcut (by omega)] at hsecond
      dsimp only at hsecond
      omega
    obtain ⟨v1, heq, hv1⟩ := hwhole hge
    rw [heq] at hsecond
    dsimp only at hsecond
    refine ⟨hsecond, ?_⟩
    by_contra hnot
    push Not at hnot
    have hval := (hb.cut (by rw [hend]; exact hnot.1)).1
    have hcut2 := getUInt64_of_first heq
    dsimp only at hcut2
    rw [hout, hcut2 (by omega)] at hval
    have hv := (hzero _).mp (Option.some.inj hval)
    exact hnot.2 (hv1.mp ((join_zero_iff v1).mp hv))
  · rintro ⟨hlt, hor⟩
    obtain ⟨hstart, hstop⟩ := h.after t
    obtain ⟨v1, heq, hv1⟩ := hwhole (by omega)
    have hcut2 := getUInt64_of_first heq
    dsimp only at hcut2
    refine ⟨?_, hstart, hstop, ?_⟩
    · intro a ha
      rw [hout] at ha
      have hleft : 0 < (getUInt32 (memOf d.pbuf) ⟨d.current, d.pend - d.current⟩).cur.leftSize := by
        rw [heq]
        dsimp only
        omega
      have hread := getUInt64_reads_lt (Nat.sub_pos_of_lt (by omega)) hleft ha
      dsimp only at hread
      omega
    · intro hpast
      rw [hend] at hpast
      have hz : EncodesZero (memOf d.pbuf) d.current := hor.resolve_left (by omega)
      rw [DeserializeInfo.after, hout, hcut2 (by omega)]
      refine ⟨congrArg some ((hzero _).mpr ((join_zero_iff v1).mpr (hv1.mpr hz))), ?_⟩
      dsimp only
      omega

/-- **One read** keeps to its bounds exactly when it starts inside. -/
lemma boundedRead_iff (h : d.InRange) (t : IntType) : d.BoundedRead t ↔ d.Inside t := by
  unfold Inside
  cases ht : t.wide with
  | false => simpa using boundedRead_narrow h ht
  | true => simpa using boundedRead_wide h ht

/-! ## Any reads -/

/-- A property of every read of a sequence, each at the object that the ones before it leave. -/
def Along (P : DeserializeInfo → IntType → Prop) : DeserializeInfo → List IntType → Prop
  | _, [] => True
  | d, t :: ts => P d t ∧ Along P (d.after t) ts

/-- Every read returns a value. -/
lemma get_eq (d : DeserializeInfo) (t : IntType) :
    ∃ v, (d.outcome t).val = some v ∧ d.get t = some (v, d.after t) := by
  have hsome : ∃ v, (d.outcome t).val = some v := by
    cases ht : t.wide with
    | false =>
        obtain ⟨f, -, hout⟩ := outcome_narrow d ht
        obtain ⟨v, hv, -⟩ := getUInt32_cur (memOf d.pbuf) ⟨d.current, d.pend - d.current⟩
        exact ⟨f v, by rw [hout, hv]; rfl⟩
    | true =>
        obtain ⟨f, -, hout⟩ := outcome_wide d ht
        obtain ⟨v1, hv1, -⟩ := getUInt32_cur (memOf d.pbuf) ⟨d.current, d.pend - d.current⟩
        obtain ⟨v2, hv2, -⟩ := getUInt32_cur (memOf d.pbuf)
          (getUInt32 (memOf d.pbuf) ⟨d.current, d.pend - d.current⟩).cur
        refine ⟨f (v1.toUInt64 ||| (v2.toUInt64 <<< 32)), ?_⟩
        rw [hout, getUInt64_eq hv1 hv2]
        rfl
  obtain ⟨v, hv⟩ := hsome
  exact ⟨v, hv, congrArg (Option.map fun v => (v, d.after t)) hv⟩

/-- Any reads return values, and go through the objects of `Along`. -/
lemma getAll_eq (d : DeserializeInfo) (ts : List IntType) :
    ∃ vs, d.getAll ts = some (vs, ts.foldl after d) := by
  induction ts generalizing d with
  | nil => exact ⟨[], rfl⟩
  | cons t ts ih =>
      obtain ⟨v, -, hget⟩ := get_eq d t
      obtain ⟨vs, hall⟩ := ih (d.after t)
      refine ⟨v :: vs, ?_⟩
      rw [getAll, hget]
      simp only [Option.bind_eq_bind, Option.bind_some, hall, List.foldl_cons]

/-- From any object in range. -/
lemma along_boundedRead_iff (h : d.InRange) (ts : List IntType) :
    d.Along BoundedRead ts ↔ d.Along Inside ts := by
  induction ts generalizing d with
  | nil => exact Iff.rfl
  | cons t ts ih => exact and_congr (boundedRead_iff h t) (ih (h.after t))

end DeserializeInfo

/-- **Bounded reads, exactly.** From an accepted string, and for every sequence of reads of any types: all
of them keep to their bounds if and only if each of them starts inside. -/
theorem bounded_reads_iff (s : List UInt8) (hs : (DeserializeInfo.create s).isValid = true)
    (ts : List IntType) :
    (DeserializeInfo.create s).Along DeserializeInfo.BoundedRead ts ↔
      (DeserializeInfo.create s).Along DeserializeInfo.Inside ts := by
  obtain ⟨sz, pbuf, hacc, hcreate⟩ := accepted_of_isValid hs
  rw [hcreate]
  exact DeserializeInfo.along_boundedRead_iff ⟨le_rfl, hacc.header⟩ ts

/-- The numbers 5, `0x500000123` and 300, read as a 64-bit number from the first two encodings and two
narrower ones behind it. -/
theorem bounded_reads_iff_mismatched :
    (DeserializeInfo.create (ascii "GAQYHUwoEUArEA==")).Along DeserializeInfo.BoundedRead
      [.int64, .uint8, .uint16] :=
  (bounded_reads_iff (ascii "GAQYHUwoEUArEA==") (by decide +kernel) [.int64, .uint8, .uint16]).mpr
    ⟨by decide +kernel, by decide +kernel, by decide +kernel, trivial⟩

/-- A string without payload: a read looks at the byte at `pend`. -/
theorem read_at_end :
    (DeserializeInfo.create (ascii "AAAAAA==")).isValid = true ∧
      ¬(DeserializeInfo.create (ascii "AAAAAA==")).Along DeserializeInfo.BoundedRead [.uint8] := by
  refine ⟨by decide +kernel, ?_⟩
  rintro ⟨hbounded, -⟩
  have hlt := hbounded.reads 4 (by decide +kernel)
  exact absurd hlt (by decide +kernel)

end CocInside.System
