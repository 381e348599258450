import CocInside.Ssu.Utils

/-!
# Tagged fields: sizes and round trip

The size functions are hard-coded ladders, and what they return is what the caller allocates
before a pack function writes unchecked; the unpack functions are written apart from both. Here
the three are shown to agree for every field kind.

* `length_packUInt32`, `length_packUInt64`: the ladders give the number of bytes written.
* `Kind`, with `Kind.size`, `Kind.packTag` and `Kind.unpack`: the kinds of field.
* `kind_packed`: the body of a field of any kind has the size announced, and unpacks to the value.
* `packTag_unpackTag`: the tagged field as a whole, with any bytes behind it.
-/

namespace CocInside.Ssu

open CocInside.Lib

/-! ## Sizes of varints -/

/-- The bytes written for a 32-bit value are as many as the ladder says. -/
lemma length_packUInt32 (v : UInt32) : (packUInt32 v).length = sizeUInt32 v := by
  have hv : v.toNat < 2 ^ 32 := v.toNat_lt
  have h := Varint.length_write_le_iff 4 v.toNat (by omega)
  have h0 := Varint.length_write_pos 4 v.toNat
  have h1 := h 0
  have h2 := h 1
  have h3 := h 2
  have h4 := h 3
  have h5 := h 4
  unfold packUInt32 sizeUInt32
  norm_num at h1 h2 h3 h4 h5 ⊢
  split_ifs <;> omega

/-- The bytes written for a 64-bit value are as many as the ladder says. -/
lemma length_packUInt64 (v : UInt64) : (packUInt64 v).length = sizeUInt64 v := by
  have hv : v.toNat < 2 ^ 64 := v.toNat_lt
  have h := Varint.length_write_le_iff 9 v.toNat (by omega)
  have h0 := Varint.length_write_pos 9 v.toNat
  have h1 := h 0
  have h2 := h 1
  have h3 := h 2
  have h4 := h 3
  have h5 := h 4
  have h6 := h 5
  have h7 := h 6
  have h8 := h 7
  have h9 := h 8
  have h10 := h 9
  unfold packUInt64 sizeUInt64
  norm_num at h1 h2 h3 h4 h5 h6 h7 h8 h9 h10 ⊢
  split_ifs <;> omega

/-- A negative value takes ten bytes. -/
example : packInt32 (-2) = [254, 255, 255, 255, 255, 255, 255, 255, 255, 1] ∧
    sizeInt32 (-2) = 10 := by decide

/-! ## Scalars -/

/-- What `packUInt32` writes is read back. -/
lemma decodes_unpackUInt32 (v : UInt32) : Decodes unpackUInt32 (packUInt32 v) v := by
  have h : Decodes (Varint.read 32) (packUInt32 v) v.toNat :=
    Varint.decodes_write (by decide) (by have := v.toNat_lt; omega) v.toNat_lt
  exact h.bind_ret UInt32.ofNat (by simp)

/-- What `packUInt64` writes is read back. -/
lemma decodes_unpackUInt64 (v : UInt64) : Decodes unpackUInt64 (packUInt64 v) v := by
  have h : Decodes (Varint.read 64) (packUInt64 v) v.toNat :=
    Varint.decodes_write (by decide) (by have := v.toNat_lt; omega) v.toNat_lt
  exact h.bind_ret UInt64.ofNat (by simp)

/-- A 32-bit value written short reads back through the 64-bit decoder as well. -/
lemma decodes_unpackUInt64_packUInt32 (v : UInt32) :
    Decodes unpackUInt64 (packUInt32 v) v.toUInt64 := by
  have hv : v.toNat < 2 ^ 32 := v.toNat_lt
  have h : Decodes (Varint.read 64) (packUInt32 v) v.toNat :=
    Varint.decodes_write (by decide) (by omega) (by omega)
  exact h.bind_ret UInt64.ofNat (by simp)

/-- The zigzag code of 32 bits is undone by its decoder. -/
lemma zzDecode32_zzEncode32 (n : Int32) : zzDecode32 (zzEncode32 n) = n := by
  apply Int32.toBitVec_inj.mp
  simpa [zzDecode32, zzEncode32] using zigzag_bits n.toBitVec

/-- The zigzag code of 64 bits is undone by its decoder. -/
lemma zzDecode64_zzEncode64 (n : Int64) : zzDecode64 (zzEncode64 n) = n := by
  apply Int64.toBitVec_inj.mp
  simpa [zzDecode64, zzEncode64] using zigzag_bits n.toBitVec

/-- Widening to 64 bits and cutting back to 32 changes nothing. -/
lemma toInt32_toInt64 (v : Int32) : v.toInt64.toUInt64.toUInt32.toInt32 = v := by
  apply Int32.toBitVec_inj.mp
  simp only [UInt32.toBitVec_toInt32, UInt64.toBitVec_toUInt32, Int64.toBitVec_toUInt64,
    Int32.toBitVec_toInt64]
  exact setWidth_signExtend (by decide) _

/-- What `packInt32` writes is read back. -/
lemma decodes_unpackInt32 (v : Int32) : Decodes unpackInt32 (packInt32 v) v := by
  unfold packInt32
  split
  · exact (decodes_unpackUInt64 v.toInt64.toUInt64).bind_ret _ (toInt32_toInt64 v)
  · exact (decodes_unpackUInt64_packUInt32 v.toUInt32).bind_ret _ (by simp)

/-- `sizeInt32` is the length of what `packInt32` writes. -/
lemma length_packInt32 (v : Int32) : (packInt32 v).length = sizeInt32 v := by
  unfold packInt32 sizeInt32
  split
  · exact length_packUInt64 _
  · exact length_packUInt32 _

/-- What `packInt64` writes is read back. -/
lemma decodes_unpackInt64 (v : Int64) : Decodes unpackInt64 (packInt64 v) v :=
  (decodes_unpackUInt64 _).bind_ret _ (by simp)

/-- What `packBinary` writes is read back. -/
lemma decodes_unpackBinary {n : ℕ} (v : Raw n) : Decodes (unpackBinary n) (packBinary v) v := by
  obtain ⟨bs, rfl⟩ := v
  intro mem c hmem hlen
  change bs.length ≤ c.leftSize at hlen
  unfold unpackBinary
  rw [if_neg (by omega)]
  refine ⟨?_, ?_⟩
  · exact congrArg some (Subtype.ext (bytesAt_of_holds hmem))
  · rw [sizeSub_of_le hlen]
    rfl

/-- What `packBool` writes is read back. -/
lemma decodes_unpackBool (v : Bool) : Decodes unpackBool (packBool v) v := by
  intro mem c hmem hlen
  unfold packBool at hmem
  rw [holds_cons] at hmem
  simp only [packBool, List.length_singleton] at hlen ⊢
  unfold unpackBool
  rw [if_neg (by omega), hmem.1, sizeSub_of_le hlen]
  cases v <;> exact ⟨rfl, rfl⟩

/-! ## Length-delimited kinds -/

/-- A string with its length in front. -/
lemma decodes_unpackString (v : List UInt8) (hv : v.length < 2 ^ 32) :
    Decodes unpackString (packUInt32 (UInt32.ofNat v.length) ++ packString v) v := by
  have hn : (UInt32.ofNat v.length).toNat = v.length := UInt32.toNat_ofNat_of_lt' hv
  refine (decodes_unpackUInt32 _).bind ?_
  intro mem c hmem hlen
  change v.length ≤ c.leftSize at hlen
  rw [takeClamped, if_neg (by omega), hn]
  refine ⟨?_, ?_⟩
  · exact congrArg some (bytesAt_of_holds hmem)
  · rw [sizeSub_of_le hlen]
    rfl

/-- `size`, `packBuffer` and `unpackBuffer` of an object type agree: the size is the number of
bytes written, and decoding them, with no more and no less left, into a new object gives the
object back. -/
structure ObjectType.Coherent {T : Type} (ty : ObjectType T) : Prop where
  length_packBuffer : ∀ v, (ty.packBuffer v).length = ty.size v
  unpackBuffer_packBuffer : ∀ v mem a, Holds mem a (ty.packBuffer v) →
    (ty.unpackBuffer ty.fresh mem ⟨a, ty.size v⟩).val = some v

/-- A nested object with its size in front. -/
lemma decodes_unpackObject {T : Type} {ty : ObjectType T} (hty : ty.Coherent) (v : T)
    (hv : ty.size v < 2 ^ 32) :
    Decodes (unpackObject ty ty.fresh)
      (packUInt32 (UInt32.ofNat (ty.size v)) ++ packObject ty v) v := by
  have hn : (UInt32.ofNat (ty.size v)).toNat = ty.size v := UInt32.toNat_ofNat_of_lt' hv
  refine (decodes_unpackUInt32 _).bind ?_
  intro mem c hmem hlen
  unfold packObject at hmem hlen ⊢
  have hval := hty.unpackBuffer_packBuffer v mem c.buf hmem
  rw [hty.length_packBuffer] at hlen ⊢
  rw [within, hn, hval, sizeSub_of_le hlen]
  exact ⟨rfl, rfl⟩

/-! ## Field kinds -/

/-- The kinds of field. -/
inductive Kind : Type 1
  | int32
  | sint32
  | uint32
  | enum (E : Type) (ty : EnumType E)
  | int64
  | sint64
  | uint64
  | float
  | double
  | bool
  | string
  | object (T : Type) (ty : ObjectType T)

namespace Kind

/-- The values of a kind. -/
def Val : Kind → Type
  | int32 | sint32 => Int32
  | uint32 => UInt32
  | enum E _ => E
  | int64 | sint64 => Int64
  | uint64 => UInt64
  | float => Raw 4
  | double => Raw 8
  | bool => Bool
  | string => List UInt8
  | object T _ => T

/-- The wire type of a kind. -/
def type : Kind → UInt8
  | double => 1
  | string | object _ _ => 2
  | float => 5
  | _ => 0

/-- The size function of a kind. -/
def size : (k : Kind) → k.Val → ℕ
  | int32, v => sizeInt32 v
  | sint32, v => sizeSInt32 v
  | uint32, v => sizeUInt32 v
  | enum _ ty, v => sizeEnum ty v
  | int64, v => sizeInt64 v
  | sint64, v => sizeSInt64 v
  | uint64, v => sizeUInt64 v
  | float, v => sizeFloat v
  | double, v => sizeDouble v
  | bool, v => sizeBool v
  | string, v => sizeString v
  | object _ ty, v => sizeObject ty v

/-- The function that packs a kind behind its tag. -/
def packTag : (k : Kind) → UInt32 → k.Val → List UInt8
  | int32, id, v => packInt32Tag id v
  | sint32, id, v => packSInt32Tag id v
  | uint32, id, v => packUInt32Tag id v
  | enum _ ty, id, v => packEnumTag ty id v
  | int64, id, v => packInt64Tag id v
  | sint64, id, v => packSInt64Tag id v
  | uint64, id, v => packUInt64Tag id v
  | float, id, v => packFloatTag id v
  | double, id, v => packDoubleTag id v
  | bool, id, v => packBoolTag id v
  | string, id, v => packStringTag id v
  | object _ ty, id, v => packObjectTag ty id v

/-- The function that unpacks a kind; an object is decoded into a new one. -/
def unpack : (k : Kind) → Decoder k.Val
  | int32 => unpackInt32
  | sint32 => unpackSInt32
  | uint32 => unpackUInt32
  | enum _ ty => unpackEnum ty
  | int64 => unpackInt64
  | sint64 => unpackSInt64
  | uint64 => unpackUInt64
  | float => unpackFloat
  | double => unpackDouble
  | bool => unpackBool
  | string => unpackString
  | object _ ty => unpackObject ty ty.fresh

/-- What a field of the kind asks of its value: a length that fits the 32-bit prefix, and for a
nested object that its own functions agree. -/
def Fits : (k : Kind) → k.Val → Prop
  | string, v => List.length (α := UInt8) v < 2 ^ 32
  | object _ ty, v => ty.Coherent ∧ ty.size v < 2 ^ 32
  | _, _ => True

end Kind

/-- What a kind writes behind its tag has the size announced, and unpacks to the value. -/
lemma kind_packed (k : Kind) (id : UInt32) (v : k.Val) (hv : k.Fits v) :
    ∃ body, k.packTag id v = packTag id k.type ++ body ∧ body.length = k.size v ∧
      Decodes k.unpack body v := by
  cases k with
  | int32 => exact ⟨_, rfl, length_packInt32 v, decodes_unpackInt32 v⟩
  | sint32 =>
      exact ⟨_, rfl, length_packUInt32 _,
        (decodes_unpackUInt32 _).bind_ret _ (zzDecode32_zzEncode32 v)⟩
  | uint32 => exact ⟨_, rfl, length_packUInt32 v, decodes_unpackUInt32 v⟩
  | enum E ty =>
      exact ⟨_, rfl, length_packUInt32 _,
        (decodes_unpackUInt32 _).bind_ret _ (ty.ofUInt32_toUInt32 v)⟩
  | int64 => exact ⟨_, rfl, length_packUInt64 _, decodes_unpackInt64 v⟩
  | sint64 =>
      exact ⟨_, rfl, length_packUInt64 _,
        (decodes_unpackUInt64 _).bind_ret _ (zzDecode64_zzEncode64 v)⟩
  | uint64 => exact ⟨_, rfl, length_packUInt64 v, decodes_unpackUInt64 v⟩
  | float => exact ⟨_, rfl, v.2, decodes_unpackBinary v⟩
  | double => exact ⟨_, rfl, v.2, decodes_unpackBinary v⟩
  | bool => exact ⟨_, rfl, rfl, decodes_unpackBool v⟩
  | string =>
      have hn : (UInt32.ofNat (List.length (α := UInt8) v)).toNat = List.length (α := UInt8) v :=
        UInt32.toNat_ofNat_of_lt' hv
      refine ⟨_, List.append_assoc _ _ _, ?_, decodes_unpackString v hv⟩
      rw [List.length_append, length_packUInt32]
      show _ = sizeUInt32 _ + UInt32.toNat _
      rw [hn]
      rfl
  | object T ty =>
      refine ⟨_, List.append_assoc _ _ _, ?_, decodes_unpackObject hv.1 v hv.2⟩
      rw [List.length_append, length_packUInt32]
      exact congrArg _ (hv.1.length_packBuffer v)

/-! ## Tags -/

/-- The number a tag is written as. -/
lemma toNat_tag {id : UInt32} (hid : id.toNat < 2 ^ 29) (type : UInt8) (ht : type.toNat < 8) :
    ((id <<< 3) + type.toUInt32).toNat = id.toNat * 8 + type.toNat := by
  rw [UInt32.toNat_add, UInt32.toNat_shiftLeft, UInt8.toNat_toUInt32, Nat.shiftLeft_eq]
  show (id.toNat * 2 ^ 3 % 2 ^ 32 + type.toNat) % 2 ^ 32 = _
  omega

/-- The wire types have three bits. -/
lemma Kind.type_lt (k : Kind) : k.type.toNat < 8 := by
  cases k <;> simp [Kind.type]

/-- A tag reads back as its id and type. -/
lemma decodes_unpackTag (id : UInt32) (hid : id.toNat < 2 ^ 29) (type : UInt8)
    (ht : type.toNat < 8) : Decodes unpackTag (packTag id type) (id, type) := by
  refine (decodes_unpackUInt32 _).bind_ret _ ?_
  have hn := toNat_tag hid type ht
  refine Prod.ext ?_ ?_
  · apply UInt32.toNat_inj.mp
    rw [UInt32.toNat_shiftRight, hn, Nat.shiftRight_eq_div_pow]
    show (id.toNat * 8 + type.toNat) / 2 ^ 3 = id.toNat
    omega
  · apply UInt8.toNat_inj.mp
    rw [UInt32.toNat_toUInt8, UInt32.toNat_and, hn]
    show ((id.toNat * 8 + type.toNat) &&& (2 ^ 3 - 1)) % 2 ^ 8 = type.toNat
    rw [Nat.and_two_pow_sub_one_eq_mod]
    omega

/-- **Tagged fields round trip.** For every kind, id, value and trailing bytes: the field takes
the bytes its size functions say, and decoding it, with the trailing bytes behind it, yields the
id, the wire type and the value and leaves exactly the trailing bytes. -/
theorem packTag_unpackTag (k : Kind) (id : UInt32) (hid : id.toNat < 2 ^ 29) (v : k.Val)
    (hv : k.Fits v) (rest : List UInt8) :
    (k.packTag id v).length = sizeUInt32 ((id <<< 3) + k.type.toUInt32) + k.size v ∧
      ∀ mem a, Holds mem a (k.packTag id v ++ rest) →
        let o := (do let tag ← unpackTag
                     let val ← k.unpack
                     pure (tag, val) : Decoder _) mem ⟨a, (k.packTag id v ++ rest).length⟩
        o.val = some ((id, k.type), v) ∧
          o.cur = ⟨a + (k.packTag id v).length, rest.length⟩ := by
  obtain ⟨body, hbody, hlen, hdec⟩ := kind_packed k id v hv
  have ht := k.type_lt
  refine ⟨?_, ?_⟩
  · rw [hbody, List.length_append, hlen, packTag, length_packUInt32]
  · intro mem a hmem
    have hfield : Decodes (do
        let tag ← unpackTag
        let val ← k.unpack
        pure (tag, val)) (k.packTag id v) ((id, k.type), v) := by
      rw [hbody]
      exact (decodes_unpackTag id hid k.type ht).bind (hdec.bind_ret _ rfl)
    rw [holds_append] at hmem
    have := hfield mem ⟨a, (k.packTag id v ++ rest).length⟩ hmem.1 (by simp)
    refine ⟨this.1, this.2.trans ?_⟩
    ext
    · rfl
    · simp

/-- The string `hi` as field 1, with one byte behind it. -/
theorem packTag_unpackTag_hi :
    packStringTag 1 [104, 105] = [10, 2, 104, 105] ∧
      ((do let tag ← unpackTag
           let val ← unpackString
           pure (tag, val) : Decoder _) (memOf [10, 2, 104, 105, 7]) ⟨0, 5⟩).val
        = some ((1, 2), [104, 105]) := by
  refine ⟨by decide, ?_⟩
  have hfits : Kind.string.Fits [104, 105] := by show 2 < 2 ^ 32; decide
  exact ((packTag_unpackTag .string 1 (by decide) [104, 105] hfits [7]).2
    (memOf [10, 2, 104, 105, 7]) 0 (holds_memOf _)).1

end CocInside.Ssu
