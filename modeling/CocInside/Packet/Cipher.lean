import CocInside.Lib.Keystream
import CocInside.Packet.Processor

/-!
# The packet cipher

`decryptPacket` XORs the opcode with a mask and the payload with a key stream, both made from the
key: the state of the stream is multiplied by 97 modulo the prime 251.

* `nextCh`, `keystream`: one step of the state, and the stream of a key.
* `decryptPacket_laws`: the routine undoes itself, a payload can be given in pieces, and the stream
  either changes every byte or none.

Source: `CocTest/Classes/Packet/Processor.cpp`, `decryptPacket`.
-/

namespace CocInside.Packet

open CocInside.Lib

/-- One step of `ch`. -/
def nextCh (ch : UInt32) : UInt32 := (ch * 97) % 251

/-- `newkey`, the state of the stream before the opcode. -/
def newKey (key : UInt32) : UInt32 := (((key - 2) * 33721) % 65537) % 251

/-- Byte `i` of the key stream. -/
def keystream (key : UInt32) (i : ℕ) : UInt8 := (nextCh^[i + 1] (nextCh (newKey key))).toUInt8

/-! ## The routine as a stream cipher -/

/-- The loop over the buffer combines it with the key stream that starts at `ch`. -/
lemma decryptBytes_eq (ch : UInt32) (buf : List UInt8) :
    decryptBytes ch buf = streamXor nextCh UInt32.toUInt8 ch buf := by
  induction buf generalizing ch with
  | nil => rfl
  | cons b buf ih =>
      simp only [decryptBytes, streamXor, ih]
      rfl

/-- A key below two leaves the packet in clear. -/
lemma decryptPacket_clear {key : UInt32} (hkey : key < 2) (op : UInt16) (buf : List UInt8) :
    decryptPacket key op buf = (op, buf) := if_pos hkey

/-- With a key of at least two the opcode and every byte are combined with the key stream. -/
lemma decryptPacket_cipher {key : UInt32} (hkey : ¬ key < 2) (op : UInt16) (buf : List UInt8) :
    decryptPacket key op buf
      = (op ^^^ ((nextCh (newKey key) <<< 8) + newKey key).toUInt16,
          streamXor nextCh UInt32.toUInt8 (nextCh (newKey key)) buf) := by
  rw [← decryptBytes_eq]
  exact if_neg hkey

/-- Applying the cipher twice with one key gives the packet back. -/
lemma decryptPacket_decryptPacket (key : UInt32) (op : UInt16) (buf : List UInt8) :
    decryptPacket key (decryptPacket key op buf).1 (decryptPacket key op buf).2 = (op, buf) := by
  by_cases hkey : key < 2
  · simp only [decryptPacket_clear hkey]
  · simp only [decryptPacket_cipher hkey, streamXor_streamXor, UInt16.xor_assoc, UInt16.xor_self,
      UInt16.xor_zero]

/-- The bytes of a prefix are enciphered the same way whatever follows them. -/
lemma take_decryptPacket_append (key : UInt32) (op : UInt16) (p q : List UInt8) :
    (decryptPacket key op (p ++ q)).2.take p.length = (decryptPacket key op p).2 := by
  by_cases hkey : key < 2
  · simp only [decryptPacket_clear hkey, List.take_left]
  · simp only [decryptPacket_cipher hkey, take_streamXor_append]

/-- Byte `i` of the payload meets byte `i` of the key stream. -/
lemma getElem?_decryptPacket {key : UInt32} (hkey : 2 ≤ key) (op : UInt16) (buf : List UInt8)
    (i : ℕ) : (decryptPacket key op buf).2[i]? = buf[i]?.map (· ^^^ keystream key i) := by
  rw [decryptPacket_cipher (UInt32.not_lt.mpr hkey), getElem?_streamXor]
  rfl

/-! ## The recurrence -/

/-- The states of the stream that are not zero. -/
def LiveCh (ch : UInt32) : Prop := 0 < ch.toNat ∧ ch.toNat < 251

/-- Below the modulus a step multiplies by 97 modulo 251, without overflow. -/
lemma toNat_nextCh {ch : UInt32} (h : ch.toNat < 251) : (nextCh ch).toNat = ch.toNat * 97 % 251 := by
  have hmul : (ch * 97).toNat = ch.toNat * 97 := by
    rw [UInt32.toNat_mul]
    exact Nat.mod_eq_of_lt (by change ch.toNat * 97 < 2 ^ 32; omega)
  rw [nextCh, UInt32.toNat_mod, hmul]
  rfl

/-- Multiplication by 97 modulo the prime 251 leads from no state but zero to zero. -/
lemma liveCh_nextCh {ch : UInt32} (h : LiveCh ch) : LiveCh (nextCh ch) := by
  obtain ⟨hpos, hlt⟩ := h
  rw [LiveCh, toNat_nextCh hlt]
  omega

/-- Zero is a fixed point of the step. -/
lemma nextCh_zero : nextCh 0 = 0 := rfl

/-- The start value is zero or a unit modulo 251. -/
lemma newKey_eq_zero_or_live (key : UInt32) : newKey key = 0 ∨ LiveCh (newKey key) := by
  have hlt : (newKey key).toNat < 251 := by
    rw [newKey, UInt32.toNat_mod]
    exact Nat.mod_lt _ (by decide)
  rcases Nat.eq_zero_or_pos (newKey key).toNat with h0 | hpos
  · exact .inl (UInt32.toNat_inj.mp h0)
  · exact .inr ⟨hpos, hlt⟩

/-- From the start value zero every key byte is zero. -/
lemma keystream_of_newKey_zero {key : UInt32} (h : newKey key = 0) (i : ℕ) : keystream key i = 0 := by
  have hzero : nextCh^[i + 1] (nextCh 0) = 0 :=
    iterate_invariant nextCh (p := fun ch => ch = 0)
      (by rintro ch rfl; exact nextCh_zero) nextCh_zero (i + 1)
  rw [keystream, h, hzero]
  rfl

/-- From a unit no key byte is zero: 97 is a unit modulo the prime 251. -/
lemma keystream_ne_zero {key : UInt32} (h : LiveCh (newKey key)) (i : ℕ) : keystream key i ≠ 0 := by
  have hlive : LiveCh (nextCh^[i + 1] (nextCh (newKey key))) :=
    iterate_invariant nextCh (p := LiveCh) (fun _ => liveCh_nextCh) (liveCh_nextCh h) (i + 1)
  intro h0
  have hnat := congrArg UInt8.toNat h0
  rw [keystream, UInt32.toNat_toUInt8, Nat.mod_eq_of_lt (by have := hlive.2; omega)] at hnat
  exact absurd hnat (Nat.ne_of_gt hlive.1)

/-- A byte that meets a byte of the stream other than zero changes. -/
lemma xor_ne_self {b k : UInt8} (h : k ≠ 0) : b ^^^ k ≠ b := by
  intro heq
  refine h ?_
  have hb : b ^^^ (b ^^^ k) = b ^^^ b := congrArg (b ^^^ ·) heq
  rwa [← UInt8.xor_assoc, UInt8.xor_self, UInt8.zero_xor] at hb

/-- **The packet cipher.** Applied twice with one key, `decryptPacket` restores the opcode and the
payload. The first bytes of the result depend on the first bytes of the payload only. For a key of
two or more byte `i` of the payload meets byte `i` of the key stream; either no byte of the stream
is zero and every payload byte changes, or all are, and they are exactly for the keys whose
`newkey` is zero. -/
theorem decryptPacket_laws (key : UInt32) (op : UInt16) :
    (∀ buf, decryptPacket key (decryptPacket key op buf).1 (decryptPacket key op buf).2
      = (op, buf)) ∧
    (∀ p q, (decryptPacket key op (p ++ q)).2.take p.length = (decryptPacket key op p).2) ∧
    (2 ≤ key →
      (∀ buf i, (decryptPacket key op buf).2[i]?
        = (buf[i]?).map fun b => b ^^^ keystream key i) ∧
      (((∀ i, keystream key i ≠ 0) ∧
          ∀ (buf : List UInt8) (i : ℕ), i < buf.length →
            (decryptPacket key op buf).2[i]? ≠ buf[i]?) ∨
        ∀ i, keystream key i = 0) ∧
      ((∀ i, keystream key i = 0) ↔ (((key - 2) * 33721) % 65537) % 251 = 0)) := by
  refine ⟨decryptPacket_decryptPacket key op, take_decryptPacket_append key op, ?_⟩
  intro hkey
  refine ⟨getElem?_decryptPacket hkey op, ?_, ?_⟩
  · rcases newKey_eq_zero_or_live key with h0 | hlive
    · exact .inr (keystream_of_newKey_zero h0)
    · refine .inl ⟨keystream_ne_zero hlive, ?_⟩
      intro buf i hi h
      rw [getElem?_decryptPacket hkey, List.getElem?_eq_getElem hi] at h
      exact xor_ne_self (keystream_ne_zero hlive i) (Option.some.inj h)
  · constructor
    · intro hall
      rcases newKey_eq_zero_or_live key with h0 | hlive
      · exact h0
      · exact absurd (hall 0) (keystream_ne_zero hlive 0)
    · exact keystream_of_newKey_zero

/-- Key 3 changes every byte, and key 2 none. -/
theorem decryptPacket_laws_keys :
    (decryptPacket 3 1 [0, 0]).2[0]? ≠ some 0 ∧ ∀ i, keystream 2 i = 0 := by
  constructor
  · rcases ((decryptPacket_laws 3 1).2.2 (by decide)).2.1 with ⟨-, h⟩ | h
    · exact h [0, 0] 0 (by decide)
    · exact absurd (h 0) (by decide)
  · exact ((decryptPacket_laws 2 1).2.2 (by decide)).2.2.mpr (by decide)

end CocInside.Packet
