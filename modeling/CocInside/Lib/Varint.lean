import CocInside.Lib.Decoder
import Mathlib.Tactic.Ring
import Mathlib.Tactic.Linarith

/-!
# Base-128 variable-length integers

Seven bits a byte, least significant group first, the top bit set on every byte but the last.

* `write fuel v`: the bytes of `v`, for `fuel` at least the number of groups after the first.
* `read w`: the decoder into `w`-bit arithmetic. It places no bound on the number of groups: the
  shift count grows by seven with every continuation byte and is recorded in the trace.
* `length_write_le_iff`: the number of bytes, as bounds on the value.
* `safe_read`, `consumes_read`: the decoder stays inside its input, and a success takes a byte.
* `runLength`, `groups`: the continuation bytes in front, and the number that bytes stand for.
  `read_spec`: what reading does on any bytes at all; `read_value`: the value, as long as no shift
  reaches the width.
* `Whole`: the bytes are those of one varint. `decodes_whole`: if no shift reaches the width, they
  are decoded alike wherever they stand; `shiftsBelow_read_iff`: when none does;
  `refusesBelow_whole`: cut, they are refused; `exists_whole`: bytes with a last byte begin
  with some.
* `decodes_write`: reading what was written yields the value and stops right behind it. What is
  written is a whole varint, and its groups stand for the value.
-/

namespace CocInside.Lib.Varint

/-! ## Writing -/

/-- The low seven bits of a byte. -/
def low7 (b : UInt8) : ℕ := (b &&& 0x7F).toNat

/-- The bytes of `val`, at most `fuel + 1` of them. -/
def write : ℕ → ℕ → List UInt8
  | 0, val => [UInt8.ofNat (val &&& 0x7F)]
  | fuel + 1, val =>
      if val ≥ 128 then (UInt8.ofNat val ||| 0x80) :: write fuel (val >>> 7)
      else [UInt8.ofNat (val &&& 0x7F)]

/-- The seven low bits are the remainder by 128. -/
lemma low7_eq (b : UInt8) : low7 b = b.toNat % 128 := by
  unfold low7
  rw [UInt8.toNat_and]
  exact Nat.and_two_pow_sub_one_eq_mod _ 7

/-- A last byte holds the group and has its top bit clear. -/
lemma toNat_last (n : ℕ) : (UInt8.ofNat (n &&& 0x7F)).toNat = n % 128 := by
  have h : n &&& 0x7F = n % 128 := Nat.and_two_pow_sub_one_eq_mod n 7
  rw [h, UInt8.toNat_ofNat']
  omega

/-- A continuation byte holds the group and has its top bit set. -/
lemma toNat_continuation (n : ℕ) : (UInt8.ofNat n ||| 0x80).toNat = 128 + n % 128 := by
  have h : ∀ m : Fin 256, m.val ||| 128 = 128 + m.val % 128 := by decide +kernel
  rw [UInt8.toNat_or, UInt8.toNat_ofNat']
  have := h ⟨n % 2 ^ 8, Nat.mod_lt _ (by decide)⟩
  simp only at this
  show n % 2 ^ 8 ||| 128 = _
  omega

/-- The shift by seven is the quotient by 128. -/
lemma shiftRight_seven (n : ℕ) : n >>> 7 = n / 128 := Nat.shiftRight_eq_div_pow n 7

/-- Every number takes at least one byte. -/
lemma length_write_pos (fuel v : ℕ) : 1 ≤ (write fuel v).length := by
  cases fuel <;> rw [write]
  · simp
  · split <;> simp

/-- **The number of bytes.** A value takes at most `k + 1` bytes exactly when it is below
`128 ^ (k + 1)`. -/
lemma length_write_le_iff (fuel v : ℕ) (h : v < 128 ^ (fuel + 1)) (k : ℕ) :
    (write fuel v).length ≤ k + 1 ↔ v < 128 ^ (k + 1) := by
  have hpos : ∀ n, 1 ≤ 128 ^ n := fun n => Nat.one_le_pow _ _ (by decide)
  induction fuel generalizing v k with
  | zero =>
      have : v < 128 ^ (k + 1) := by
        have := hpos k
        rw [pow_succ]
        omega
      simp [write, this]
  | succ fuel ih =>
      unfold write
      split
      · rename_i hv
        have hdiv : v >>> 7 < 128 ^ (fuel + 1) := by
          rw [shiftRight_seven]
          rw [pow_succ] at h
          omega
        cases k with
        | zero =>
            have := length_write_pos fuel (v >>> 7)
            simp only [List.length_cons, Nat.zero_add, pow_one]
            omega
        | succ k =>
            have hk := ih _ hdiv k
            rw [shiftRight_seven] at hk
            simp only [List.length_cons, shiftRight_seven]
            rw [pow_succ _ (k + 1)]
            omega
      · have : v < 128 ^ (k + 1) := by
          have := hpos k
          rw [pow_succ]
          omega
        simp [this]

/-! ## Reading -/

/-- The groups after the first: the byte at `buf` has been added to `val` already, and more follow
while its top bit is set. The count of every shift is recorded; what one by the width or more
yields is the machine's. -/
def readLoop (w : ℕ) (mem : Mem) : ℕ → ℕ → ℕ → ℕ → Outcome ℕ
  | 0, buf, _, _ => ⟨none, ⟨buf, 0⟩, []⟩
  | left + 1, buf, val, shiftn =>
      if mem buf ≥ 128 then
        if left = 0 then ⟨none, ⟨buf + 1, 0⟩, []⟩
        else
          let group := mem.shiftLeft w (low7 (mem (buf + 1))) shiftn
          let o := readLoop w mem left (buf + 1) ((val + group) % 2 ^ w) (shiftn + 7)
          ⟨o.val, o.cur, .read (buf + 1) :: .shift shiftn :: o.trace⟩
      else ⟨some val, ⟨buf + 1, left⟩, []⟩

/-- Read a value. -/
def read (w : ℕ) : Decoder ℕ := fun mem c =>
  if c.leftSize = 0 then ⟨none, c, []⟩
  else
    let o := readLoop w mem c.leftSize c.buf (low7 (mem c.buf)) 7
    ⟨o.val, o.cur, .read c.buf :: o.trace⟩

/-- What the loop reads and where it stops. -/
lemma readLoop_respects (w : ℕ) (mem : Mem) (left buf val shiftn : ℕ) :
    Respects ⟨buf, left⟩ (readLoop w mem left buf val shiftn) ∧
      (0 < left → (readLoop w mem left buf val shiftn).cur.leftSize < left) := by
  induction left generalizing buf val shiftn with
  | zero => exact ⟨⟨le_rfl, rfl, fun _ h => absurd h List.not_mem_nil⟩, by omega⟩
  | succ left ih =>
      unfold readLoop
      split
      · split
        · rename_i h0
          subst h0
          exact ⟨⟨by simp, by simp, fun _ h => absurd h List.not_mem_nil⟩, fun _ => by simp⟩
        · rename_i h0
          obtain ⟨hr, hlt⟩ := ih (buf + 1)
            ((val + mem.shiftLeft w (low7 (mem (buf + 1))) shiftn) % 2 ^ w) (shiftn + 7)
          refine ⟨⟨?_, ?_, ?_⟩, ?_⟩
          · exact le_trans hr.le (Nat.le_succ _)
          · have := hr.conserve
            simp only at this ⊢
            omega
          · intro a ha
            simp only [List.mem_cons, Access.read.injEq, reduceCtorEq, false_or] at ha
            rcases ha with rfl | ha
            · show buf ≤ buf + 1 ∧ buf + 1 < buf + (left + 1)
              omega
            · have := hr.reads a ha
              simp only at this ⊢
              omega
          · intro _
            have := hlt (by omega)
            simp only
            omega
      · exact ⟨⟨by simp, by simp; omega, fun _ h => absurd h List.not_mem_nil⟩, fun _ => by simp⟩

/-- Reading stays inside the bytes left. -/
lemma safe_read (w : ℕ) : Safe (read w) := by
  intro mem c
  unfold read
  split
  · exact ⟨le_rfl, rfl, fun _ h => absurd h List.not_mem_nil⟩
  · obtain ⟨hr, -⟩ := readLoop_respects w mem c.leftSize c.buf (low7 (mem c.buf)) 7
    refine ⟨hr.le, hr.conserve, ?_⟩
    intro a ha
    simp only [List.mem_cons, Access.read.injEq] at ha
    rcases ha with rfl | ha
    · omega
    · exact hr.reads a ha

/-- A value read has taken a byte. -/
lemma consumes_read (w : ℕ) : Consumes (read w) := by
  intro mem c hval
  unfold read at hval ⊢
  split
  · rename_i h0
    simp [h0] at hval
  · exact (readLoop_respects w mem c.leftSize c.buf (low7 (mem c.buf)) 7).2 (by omega)

/-! ## Any bytes -/

/-- The number of continuation bytes in front. -/
def runLength (bs : List UInt8) : ℕ := (bs.takeWhile fun b => 128 ≤ b).length

/-- The number that the seven-bit groups of the bytes stand for. -/
def groups : List UInt8 → ℕ
  | [] => 0
  | b :: bs => low7 b + 128 * groups bs

/-- The run goes on while the top bit is set. -/
lemma runLength_cons (b : UInt8) (bs : List UInt8) :
    runLength (b :: bs) = if 128 ≤ b then runLength bs + 1 else 0 := by
  rw [runLength, List.takeWhile_cons]
  by_cases hb : 128 ≤ b
  · rw [if_pos (by simpa using hb), if_pos hb, List.length_cons, runLength]
  · rw [if_neg (by simpa using hb), if_neg hb, List.length_nil]

/-- The run is no longer than the bytes. -/
lemma runLength_le (bs : List UInt8) : runLength bs ≤ bs.length :=
  (List.takeWhile_prefix _).length_le

/-- There is a last byte among the first `n` exactly if the run is shorter than both `n` and the
bytes. -/
lemma exists_last_iff (bs : List UInt8) (n : ℕ) :
    (∃ b ∈ bs.take n, b < 128) ↔ runLength bs < n ∧ runLength bs < bs.length := by
  induction bs generalizing n with
  | nil => simp
  | cons b bs ih =>
      cases n with
      | zero => simp
      | succ n =>
          rw [List.take_succ_cons, runLength_cons, List.length_cons]
          by_cases hb : 128 ≤ b
          · have hnot : ¬ b < 128 := UInt8.not_lt.mpr hb
            simp only [List.mem_cons, exists_eq_or_imp, hnot, false_or, if_pos hb, ih n]
            omega
          · have hlt : b < 128 := UInt8.not_le.mp hb
            simp only [List.mem_cons, exists_eq_or_imp, hlt, true_or, if_neg hb, Nat.succ_pos,
              and_self]

/-- The seven low bits are below 128. -/
lemma low7_of_lt {b : UInt8} : low7 b < 128 := by
  rw [low7_eq]
  omega

/-- The byte at `buf` is the last one. -/
lemma readLoop_last {w : ℕ} {mem : Mem} {buf : ℕ} (hb : ¬ mem buf ≥ 128) (left val shiftn : ℕ) :
    readLoop w mem (left + 1) buf val shiftn = ⟨some val, ⟨buf + 1, left⟩, []⟩ := by
  rw [readLoop, if_neg hb]

/-- More should follow, and nothing does. -/
lemma readLoop_cut {w : ℕ} {mem : Mem} {buf : ℕ} (hb : mem buf ≥ 128) (val shiftn : ℕ) :
    readLoop w mem 1 buf val shiftn = ⟨none, ⟨buf + 1, 0⟩, []⟩ := by
  rw [readLoop, if_pos hb, if_pos rfl]

/-- One more group. -/
lemma readLoop_more {w : ℕ} {mem : Mem} {buf : ℕ} (hb : mem buf ≥ 128) (left val shiftn : ℕ) :
    ∃ o, o = readLoop w mem (left + 1) (buf + 1)
        ((val + mem.shiftLeft w (low7 (mem (buf + 1))) shiftn) % 2 ^ w) (shiftn + 7) ∧
      readLoop w mem (left + 2) buf val shiftn
        = ⟨o.val, o.cur, .read (buf + 1) :: .shift shiftn :: o.trace⟩ := by
  refine ⟨_, rfl, ?_⟩
  rw [readLoop, if_pos hb, if_neg (Nat.succ_ne_zero left)]

/-- The loop succeeds exactly if a last byte is there, and then stops behind it; it shifts once for
every byte after the first. -/
lemma readLoop_spec {w : ℕ} {mem : Mem} (bs : List UInt8) {buf : ℕ} (h : Holds mem buf bs)
    (val shiftn : ℕ) :
    ((readLoop w mem bs.length buf val shiftn).val ≠ none ↔ runLength bs < bs.length) ∧
      (runLength bs < bs.length → (readLoop w mem bs.length buf val shiftn).cur
        = ⟨buf + (runLength bs + 1), bs.length - (runLength bs + 1)⟩) ∧
      ∀ s, .shift s ∈ (readLoop w mem bs.length buf val shiftn).trace ↔
        ∃ i < min (runLength bs) (bs.length - 1), s = shiftn + 7 * i := by
  induction bs generalizing buf val shiftn with
  | nil => simp [readLoop]
  | cons b bs ih =>
      obtain ⟨hb, hrest⟩ := h
      rw [runLength_cons, List.length_cons]
      by_cases hcont : 128 ≤ b
      · rw [if_pos hcont]
        cases bs with
        | nil =>
            rw [List.length_nil, readLoop_cut (by rw [hb]; exact hcont)]
            simp [runLength]
        | cons b' bs =>
            have hb' : mem buf ≥ 128 := by rw [hb]; exact hcont
            obtain ⟨o, ho, hloop⟩ := readLoop_more (w := w) hb' bs.length val shiftn
            obtain ⟨hval, hcur, hshift⟩ := ih hrest
              ((val + mem.shiftLeft w (low7 (mem (buf + 1))) shiftn) % 2 ^ w) (shiftn + 7)
            rw [List.length_cons, ← ho] at hval hcur hshift
            rw [List.length_cons, hloop]
            refine ⟨by rw [hval]; omega, ?_, ?_⟩
            · intro hlt
              rw [hcur (by omega)]
              ext
              · show buf + 1 + (runLength (b' :: bs) + 1) = buf + (runLength (b' :: bs) + 1 + 1)
                omega
              · show bs.length + 1 - (runLength (b' :: bs) + 1)
                  = bs.length + 1 + 1 - (runLength (b' :: bs) + 1 + 1)
                omega
            · intro s
              simp only [List.mem_cons, reduceCtorEq, Access.shift.injEq, false_or, hshift s]
              constructor
              · rintro (rfl | ⟨i, hi, rfl⟩)
                · exact ⟨0, by omega, rfl⟩
                · exact ⟨i + 1, by omega, by ring⟩
              · rintro ⟨i, hi, rfl⟩
                cases i with
                | zero => exact .inl rfl
                | succ i => exact .inr ⟨i, by omega, by ring⟩
      · rw [if_neg hcont, readLoop_last (by rw [hb]; exact hcont)]
        simp

/-- The value of the loop, `val` having been read below bit `s`: as long as no shift reaches the
width, it is the sum of the groups in arithmetic of that width. -/
lemma readLoop_value {w : ℕ} {mem : Mem} (b : UInt8) (bs : List UInt8) {buf : ℕ}
    (h : Holds mem buf (b :: bs)) {a s v : ℕ} (hshift : s + 7 * runLength (b :: bs) < w)
    (hv : (readLoop w mem (bs.length + 1) buf ((a + 2 ^ s * low7 b) % 2 ^ w) (s + 7)).val
      = some v) :
    v = (a + 2 ^ s * groups ((b :: bs).take (runLength (b :: bs) + 1))) % 2 ^ w := by
  induction bs generalizing b buf a s with
  | nil =>
      obtain ⟨hb, -⟩ := h
      by_cases hcont : 128 ≤ b
      · rw [List.length_nil, readLoop_cut (by rw [hb]; exact hcont)] at hv
        cases hv
      · rw [List.length_nil, readLoop_last (by rw [hb]; exact hcont)] at hv
        cases hv
        rw [runLength_cons, if_neg hcont]
        simp [groups]
  | cons b' bs ih =>
      have hb := h.1
      by_cases hcont : 128 ≤ b
      · rw [runLength_cons, if_pos hcont] at hshift ⊢
        have hb' : mem buf ≥ 128 := by rw [hb]; exact hcont
        obtain ⟨o, ho, hloop⟩ := readLoop_more (w := w) hb' bs.length
          ((a + 2 ^ s * low7 b) % 2 ^ w) (s + 7)
        rw [List.length_cons, hloop] at hv
        have hgroup : ((a + 2 ^ s * low7 b) % 2 ^ w
              + mem.shiftLeft w (low7 (mem (buf + 1))) (s + 7)) % 2 ^ w
            = (a + 2 ^ s * low7 b + 2 ^ (s + 7) * low7 b') % 2 ^ w := by
          rw [h.2.1, mem.shiftLeft_of_lt _ (by omega : s + 7 < w), Nat.shiftLeft_eq, ← Nat.add_mod,
            Nat.mul_comm (low7 b')]
        rw [hgroup] at ho
        have hrest := ih b' h.2 (s := s + 7) (a := a + 2 ^ s * low7 b) (by omega)
          (by rw [← ho]; exact hv)
        have htake : groups ((b :: b' :: bs).take (runLength (b' :: bs) + 1 + 1))
            = low7 b + 128 * groups ((b' :: bs).take (runLength (b' :: bs) + 1)) := rfl
        rw [hrest, htake, pow_add]
        congr 1
        ring
      · rw [List.length_cons, readLoop_last (by rw [hb]; exact hcont)] at hv
        cases hv
        rw [runLength_cons, if_neg hcont]
        simp [groups]

/-- Reading succeeds exactly if a last byte is there, and then stops behind it; it shifts once for
every byte after the first, up to the last one it looks at. -/
lemma read_spec (w : ℕ) {mem : Mem} {bs : List UInt8} {buf : ℕ} (h : Holds mem buf bs) :
    ((read w mem ⟨buf, bs.length⟩).val ≠ none ↔ runLength bs < bs.length) ∧
      (runLength bs < bs.length → (read w mem ⟨buf, bs.length⟩).cur
        = ⟨buf + (runLength bs + 1), bs.length - (runLength bs + 1)⟩) ∧
      ∀ s, .shift s ∈ (read w mem ⟨buf, bs.length⟩).trace ↔
        ∃ i < min (runLength bs) (bs.length - 1), s = 7 + 7 * i := by
  unfold read
  by_cases h0 : bs.length = 0
  · rw [if_pos h0]
    simp [h0]
  · rw [if_neg h0]
    obtain ⟨hval, hcur, hshift⟩ := readLoop_spec (w := w) bs h (low7 (mem buf)) 7
    refine ⟨hval, hcur, ?_⟩
    intro s
    simp only [List.mem_cons, reduceCtorEq, false_or, hshift s]

/-- The value read, as long as no shift reaches the width. -/
lemma read_value {w : ℕ} {mem : Mem} {bs : List UInt8} {buf v : ℕ} (h : Holds mem buf bs)
    (hshift : 7 * runLength bs < w) (hw : 7 ≤ w)
    (hv : (read w mem ⟨buf, bs.length⟩).val = some v) :
    v = groups (bs.take (runLength bs + 1)) % 2 ^ w := by
  cases bs with
  | nil => cases hv
  | cons b bs =>
      have hsmall : low7 b < 2 ^ w :=
        lt_of_lt_of_le low7_of_lt (Nat.pow_le_pow_right (by decide : 0 < 2) hw)
      have hfirst : low7 (mem buf) = (0 + 2 ^ 0 * low7 b) % 2 ^ w := by
        rw [h.1, Nat.mod_eq_of_lt (by omega)]
        omega
      have hloop : (readLoop w mem (bs.length + 1) buf ((0 + 2 ^ 0 * low7 b) % 2 ^ w) (0 + 7)).val
          = some v := by
        rw [← hfirst]
        exact hv
      have hval := readLoop_value b bs h (by omega) hloop
      rw [hval]
      congr 1
      omega

/-! ## Whole varints -/

/-- All bytes but the last are continuation bytes. -/
def Whole (t : List UInt8) : Prop := runLength t + 1 = t.length

/-- A whole varint ends with its first byte whose top bit is clear. -/
lemma whole_cons {b : UInt8} {bs : List UInt8} :
    Whole (b :: bs) ↔ if 128 ≤ b then Whole bs else bs = [] := by
  rw [Whole, runLength_cons, List.length_cons]
  by_cases hb : 128 ≤ b
  · rw [if_pos hb, if_pos hb, Whole]
    omega
  · rw [if_neg hb, if_neg hb, ← List.length_eq_zero_iff]
    omega

/-- A whole varint has at least one byte. -/
lemma Whole.length_pos {t : List UInt8} (h : Whole t) : 0 < t.length := by
  rw [← h]
  exact Nat.succ_pos _

/-- What stands behind a whole varint does not belong to its run. -/
lemma Whole.runLength_append {t : List UInt8} (h : Whole t) (rest : List UInt8) :
    runLength (t ++ rest) = runLength t := by
  induction t with
  | nil => exact absurd h.length_pos (Nat.not_lt_zero _)
  | cons b t ih =>
      rw [whole_cons] at h
      rw [List.cons_append, runLength_cons, runLength_cons]
      by_cases hb : 128 ≤ b
      · rw [if_pos hb] at h
        rw [if_pos hb, if_pos hb, ih h]
      · rw [if_neg hb, if_neg hb]

/-- Reading a whole varint shifts once for every byte after the first. -/
lemma shiftsBelow_read_iff {w : ℕ} {mem : Mem} {t rest : List UInt8} {a : ℕ} (ht : Whole t)
    (hmem : Holds mem a (t ++ rest)) {b : ℕ} (hb : 0 < b) :
    ShiftsBelow b (read w mem ⟨a, (t ++ rest).length⟩).trace ↔ 7 * runLength t < b := by
  have hlen : runLength t + 1 = t.length := ht
  have hshift := (read_spec w hmem).2.2
  rw [ht.runLength_append, List.length_append] at hshift
  rw [List.length_append]
  constructor
  · intro h
    cases hrun : runLength t with
    | zero => exact hb
    | succ k =>
        have := h (7 + 7 * k) ((hshift _).mpr ⟨k, by omega, rfl⟩)
        omega
  · intro h s hs
    obtain ⟨i, hi, rfl⟩ := (hshift s).mp hs
    omega

/-- Bytes that reading takes all of are a whole varint. -/
lemma whole_of_read {w : ℕ} {mem : Mem} {t : List UInt8} {a : ℕ} (hmem : Holds mem a t)
    (hval : (read w mem ⟨a, t.length⟩).val ≠ none)
    (hcur : (read w mem ⟨a, t.length⟩).cur = ⟨a + t.length, 0⟩) : Whole t := by
  obtain ⟨hsome, hstop, -⟩ := read_spec w hmem
  have hbuf := congrArg Cursor.buf ((hstop (hsome.mp hval)).symm.trans hcur)
  exact Nat.add_left_cancel hbuf

/-- Bytes that have a last byte begin with a whole varint. -/
lemma exists_whole {bs : List UInt8} (h : runLength bs < bs.length) :
    ∃ t rest, bs = t ++ rest ∧ Whole t := by
  induction bs with
  | nil => exact absurd h (Nat.not_lt_zero _)
  | cons b bs ih =>
      rw [runLength_cons, List.length_cons] at h
      by_cases hb : 128 ≤ b
      · rw [if_pos hb] at h
        obtain ⟨t, rest, rfl, ht⟩ := ih (by omega)
        exact ⟨b :: t, rest, rfl, whole_cons.mpr (by rwa [if_pos hb])⟩
      · exact ⟨[b], bs, rfl, whole_cons.mpr (by rw [if_neg hb])⟩

/-- The loop on a whole varint depends on nothing but its bytes, as long as no shift reaches the
width. -/
lemma readLoop_whole {w : ℕ} {t : List UInt8} (ht : Whole t) (val shiftn : ℕ)
    (hshift : shiftn + 7 * runLength t < w + 7) :
    ∃ u, ∀ mem buf left, Holds mem buf t → t.length ≤ left →
      (readLoop w mem left buf val shiftn).val = some u ∧
        (readLoop w mem left buf val shiftn).cur = ⟨buf + t.length, left - t.length⟩ := by
  induction t generalizing val shiftn with
  | nil => exact absurd ht.length_pos (Nat.not_lt_zero _)
  | cons b t ih =>
      rw [whole_cons] at ht
      by_cases hb : 128 ≤ b
      · rw [if_pos hb] at ht
        rw [runLength_cons, if_pos hb] at hshift
        obtain ⟨b', t', rfl⟩ := List.exists_cons_of_length_pos ht.length_pos
        obtain ⟨u, hu⟩ := ih ht ((val + (low7 b' <<< shiftn) % 2 ^ w) % 2 ^ w) (shiftn + 7)
          (by omega)
        refine ⟨u, ?_⟩
        intro mem buf left hmem hlen
        rw [List.length_cons, List.length_cons] at hlen
        obtain ⟨left, rfl⟩ : ∃ l, left = l + 2 := ⟨left - 2, by omega⟩
        have hb' : mem buf ≥ 128 := by
          rw [hmem.1]
          exact hb
        obtain ⟨o, ho, hloop⟩ := readLoop_more (w := w) hb' left val shiftn
        rw [hmem.2.1, mem.shiftLeft_of_lt _ (by omega)] at ho
        obtain ⟨hval, hcur⟩ := hu mem (buf + 1) (left + 1) hmem.2
          (by rw [List.length_cons]; omega)
        rw [← ho] at hval hcur
        rw [hloop]
        refine ⟨hval, hcur.trans ?_⟩
        rw [List.length_cons, List.length_cons]
        ext
        · show buf + 1 + (t'.length + 1) = buf + (t'.length + 1 + 1)
          omega
        · show left + 1 - (t'.length + 1) = left + 2 - (t'.length + 1 + 1)
          omega
      · rw [if_neg hb] at ht
        subst ht
        refine ⟨val, ?_⟩
        intro mem buf left hmem hlen
        obtain ⟨left, rfl⟩ : ∃ l, left = l + 1 := ⟨left - 1, by simp at hlen; omega⟩
        rw [readLoop_last (by rw [hmem.1]; exact hb)]
        exact ⟨rfl, rfl⟩

/-- A whole varint on which no shift reaches the width is decoded alike wherever it stands. -/
lemma decodes_whole {w : ℕ} {t : List UInt8} (ht : Whole t) (hshift : 7 * runLength t < w) :
    ∃ u, Decodes (read w) t u := by
  obtain ⟨b, bs, rfl⟩ := List.exists_cons_of_length_pos ht.length_pos
  obtain ⟨u, hu⟩ := readLoop_whole (w := w) ht (low7 b) 7 (by omega)
  refine ⟨u, ?_⟩
  intro mem c hmem hlen
  rw [List.length_cons] at hlen
  rw [read, if_neg (by omega), hmem.1]
  exact hu mem c.buf c.leftSize hmem (by rw [List.length_cons]; exact hlen)

/-- A whole varint that is cut is refused. -/
lemma refusesBelow_whole (w : ℕ) {t : List UInt8} (ht : Whole t) :
    RefusesBelow (read w) t t.length := by
  intro q hq hlt mem a hmem
  by_contra hsome
  have hshort := (read_spec w hmem).1.mp hsome
  have hlast := (exists_last_iff q q.length).mpr ⟨hshort, hshort⟩
  rw [List.take_length, List.prefix_iff_eq_take.mp hq] at hlast
  have hrun := ((exists_last_iff t q.length).mp hlast).1
  have hwhole : runLength t + 1 = t.length := ht
  omega

/-! ## Reading what was written -/

/-- What is written is one varint. -/
lemma whole_write (fuel v : ℕ) : Whole (write fuel v) := by
  have hlast : ∀ n, Whole [UInt8.ofNat (n &&& 0x7F)] := by
    intro n
    rw [whole_cons, if_neg]
    rw [UInt8.le_iff_toNat_le, toNat_last]
    exact Nat.not_le.mpr (Nat.mod_lt _ (by decide))
  induction fuel generalizing v with
  | zero => exact hlast v
  | succ fuel ih =>
      rw [write]
      by_cases hv : v ≥ 128
      · have hcont : 128 ≤ UInt8.ofNat v ||| 0x80 := by
          rw [UInt8.le_iff_toNat_le, toNat_continuation]
          exact Nat.le_add_right _ _
        rw [if_pos hv, whole_cons, if_pos hcont]
        exact ih _
      · rw [if_neg hv]
        exact hlast v

/-- Its groups stand for the value. -/
lemma groups_write (fuel v : ℕ) (h : v < 128 ^ (fuel + 1)) : groups (write fuel v) = v := by
  induction fuel generalizing v with
  | zero =>
      rw [write, groups, groups, low7_eq, toNat_last, Nat.mod_mod, Nat.mod_eq_of_lt (by omega)]
      rfl
  | succ fuel ih =>
      rw [write]
      by_cases hv : v ≥ 128
      · have hdiv : v / 128 < 128 ^ (fuel + 1) := by
          rw [pow_succ] at h
          omega
        rw [if_pos hv, groups, low7_eq, toNat_continuation, shiftRight_seven, ih _ hdiv]
        omega
      · rw [if_neg hv, groups, groups, low7_eq, toNat_last]
        omega

/-- No shift reaches the width if the value fits it. -/
lemma runLength_write_lt {w fuel v : ℕ} (hv : v < 128 ^ (fuel + 1)) (hw : v < 2 ^ w)
    (hpos : 0 < w) : 7 * runLength (write fuel v) < w := by
  have hwhole : runLength (write fuel v) + 1 = (write fuel v).length := whole_write fuel v
  cases hrun : runLength (write fuel v) with
  | zero => exact hpos
  | succ k =>
      have hlarge : 128 ^ (k + 1) ≤ v := by
        rw [← Nat.not_lt, ← length_write_le_iff fuel v hv]
        omega
      have hpow : 2 ^ (7 * (k + 1)) < 2 ^ w := by
        rw [pow_mul]
        exact lt_of_le_of_lt hlarge hw
      exact (Nat.pow_lt_pow_iff_right (by decide)).mp hpow

/-- **Round trip.** Reading the bytes of a value that fits the width yields the value and stops
right behind them. -/
lemma decodes_write {w fuel v : ℕ} (hseven : 7 ≤ w) (hv : v < 128 ^ (fuel + 1)) (hw : v < 2 ^ w) :
    Decodes (read w) (write fuel v) v := by
  have hwhole := whole_write fuel v
  obtain ⟨u, hu⟩ := decodes_whole hwhole (runLength_write_lt hv hw (by omega))
  have hread := (hu (memOf (write fuel v)) ⟨0, _⟩ (holds_memOf _) le_rfl).1
  have huv := read_value (holds_memOf _) (runLength_write_lt hv hw (by omega)) hseven hread
  rw [hwhole, List.take_length, groups_write fuel v hv, Nat.mod_eq_of_lt hw] at huv
  rw [huv] at hu
  exact hu

/-- Written bytes that are cut are refused. -/
lemma refusesBelow_write (w fuel v : ℕ) :
    RefusesBelow (read w) (write fuel v) (write fuel v).length :=
  refusesBelow_whole w (whole_write fuel v)

end CocInside.Lib.Varint
