import CocInside.Lib.Varint
import CocInside.Lib.Words

/-!
# The field encodings of `ssu::Utils`

The packed message format: every field is a tag (`id << 3` plus a wire type, as a varint) followed
by a value. For each kind of value the class has a `size`, a `pack`, a `pack…Tag` and an `unpack`
function, written independently of each other; they are translated one by one here.

* The bytes a pack function writes at `buf` are its result; the pointer it returns is `buf` moved
  by their number.
* An unpack function is a `Decoder`: `buf` and `leftSize` are the cursor, `false` is failure. A
  reference parameter is the value on success. What a failed call left in it is not modelled: no
  caller in the class looks at it.
* `RepeatedObject` is the list of its elements.
* `float` and `double` are the 4 and 8 bytes they are copied as.

Source: `Ssu/SsuUtils.h`.
-/

namespace CocInside.Ssu

open CocInside.Lib

/-! ## Types handed to the templates -/

/-- The values of a trivially copyable type of `n` bytes, as the bytes `memcpy` moves. -/
def Raw (n : ℕ) : Type := { bs : List UInt8 // bs.length = n }

instance (n : ℕ) : DecidableEq (Raw n) := inferInstanceAs (DecidableEq (Subtype _))

/-- An enumeration: its `static_cast`s to and from `unsigned int`, which are inverse on its values
(the underlying type is at most 32 bits wide). -/
structure EnumType (E : Type) where
  toUInt32 : E → UInt32
  ofUInt32 : UInt32 → E
  ofUInt32_toUInt32 : ∀ e, ofUInt32 (toUInt32 e) = e

/-- A subclass of `ssu::Object`: its default constructor, and the three virtual functions.
`unpackBuffer` decodes into an object that exists already.
Source: `Ssu/SsuObject.h`, `Object`. -/
structure ObjectType (T : Type) where
  fresh : T
  size : T → ℕ
  packBuffer : T → List UInt8
  unpackBuffer : T → Decoder T

/-! ## Zigzag -/

/-- The left shift of a negative number drops its top bit, as the compilers and C++20 define it. Source:
`Utils::zzEncode32`. -/
def zzEncode32 (n : Int32) : UInt32 := ((n <<< 1) ^^^ (n >>> 31)).toUInt32

/-- Source: `Utils::zzDecode32`. -/
def zzDecode32 (n : UInt32) : Int32 := ((n >>> 1) ^^^ (-(n &&& 1).toInt32).toUInt32).toInt32

/-- The left shift is as in `zzEncode32`. Source: `Utils::zzEncode64`. -/
def zzEncode64 (n : Int64) : UInt64 := ((n <<< 1) ^^^ (n >>> 63)).toUInt64

/-- Source: `Utils::zzDecode64`. -/
def zzDecode64 (n : UInt64) : Int64 := ((n >>> 1) ^^^ (-(n &&& 1).toInt64).toUInt64).toInt64

/-! ## Sizes -/

/-- Source: `Utils::sizeUInt32`. -/
def sizeUInt32 (val : UInt32) : ℕ :=
  if val.toNat < 1 <<< 14 then
    if val.toNat < 1 <<< 7 then 1 else 2
  else if val.toNat < 1 <<< 21 then 3
  else if val.toNat < 1 <<< 28 then 4
  else 5

/-- Source: `Utils::sizeUInt64`. -/
def sizeUInt64 (val : UInt64) : ℕ :=
  if val.toNat < 1 <<< 28 then
    if val.toNat < 1 <<< 14 then
      if val.toNat < 1 <<< 7 then 1 else 2
    else
      if val.toNat < 1 <<< 21 then 3 else 4
  else
    if val.toNat < 1 <<< 42 then
      if val.toNat < 1 <<< 35 then 5 else 6
    else
      if val.toNat < 1 <<< 56 then
        if val.toNat < 1 <<< 49 then 7 else 8
      else
        if val.toNat < 1 <<< 63 then 9 else 10

/-- A negative value is widened to 64 bits. Source: `Utils::sizeInt32`. -/
def sizeInt32 (val : Int32) : ℕ :=
  if val < 0 then sizeUInt64 val.toInt64.toUInt64 else sizeUInt32 val.toUInt32

/-- Source: `Utils::sizeSInt32`. -/
def sizeSInt32 (val : Int32) : ℕ := sizeUInt32 (zzEncode32 val)

/-- Source: `Utils::sizeEnum`. -/
def sizeEnum {E : Type} (ty : EnumType E) (val : E) : ℕ := sizeUInt32 (ty.toUInt32 val)

/-- Source: `Utils::sizeInt64`. -/
def sizeInt64 (val : Int64) : ℕ := sizeUInt64 val.toUInt64

/-- Source: `Utils::sizeSInt64`. -/
def sizeSInt64 (val : Int64) : ℕ := sizeUInt64 (zzEncode64 val)

/-- Source: `Utils::sizeFloat`. -/
def sizeFloat (_val : Raw 4) : ℕ := 4

/-- Source: `Utils::sizeDouble`. -/
def sizeDouble (_val : Raw 8) : ℕ := 8

/-- Source: `Utils::sizeBool`. -/
def sizeBool (_val : Bool) : ℕ := 1

/-- Source: `Utils::sizeString`. -/
def sizeString (val : List UInt8) : ℕ :=
  let sz := UInt32.ofNat val.length
  sizeUInt32 sz + sz.toNat

/-- Source: `Utils::sizeObject`. -/
def sizeObject {T : Type} (ty : ObjectType T) (val : T) : ℕ :=
  let sz := ty.size val
  sizeUInt32 (UInt32.ofNat sz) + sz

/-! ## Packing -/

/-- At most five groups. Source: `Utils::packUInt32`. -/
def packUInt32 (val : UInt32) : List UInt8 := Varint.write 4 val.toNat

/-- At most ten groups. Source: `Utils::packUInt64`. -/
def packUInt64 (val : UInt64) : List UInt8 := Varint.write 9 val.toNat

/-- Source: `Utils::packInt32`. -/
def packInt32 (val : Int32) : List UInt8 :=
  if val < 0 then packUInt64 val.toInt64.toUInt64 else packUInt32 val.toUInt32

/-- Source: `Utils::packSInt32`. -/
def packSInt32 (val : Int32) : List UInt8 := packUInt32 (zzEncode32 val)

/-- Source: `Utils::packEnum`. -/
def packEnum {E : Type} (ty : EnumType E) (val : E) : List UInt8 := packUInt32 (ty.toUInt32 val)

/-- Source: `Utils::packInt64`. -/
def packInt64 (val : Int64) : List UInt8 := packUInt64 val.toUInt64

/-- Source: `Utils::packSInt64`. -/
def packSInt64 (val : Int64) : List UInt8 := packUInt64 (zzEncode64 val)

/-- Source: `Utils::packBinary`. -/
def packBinary {n : ℕ} (val : Raw n) : List UInt8 := val.1

/-- Source: `Utils::packFloat`. -/
def packFloat (val : Raw 4) : List UInt8 := packBinary val

/-- Source: `Utils::packDouble`. -/
def packDouble (val : Raw 8) : List UInt8 := packBinary val

/-- Source: `Utils::packBool`. -/
def packBool (val : Bool) : List UInt8 := [if val then 1 else 0]

/-- Source: `Utils::packString`. -/
def packString (val : List UInt8) : List UInt8 := val

/-- Source: `Utils::packObject`. -/
def packObject {T : Type} (ty : ObjectType T) (val : T) : List UInt8 := ty.packBuffer val

/-- Source: `Utils::packTag`. -/
def packTag (id : UInt32) (type : UInt8) : List UInt8 := packUInt32 ((id <<< 3) + type.toUInt32)

/-- Source: `Utils::packInt32Tag`. -/
def packInt32Tag (id : UInt32) (val : Int32) : List UInt8 := packTag id 0 ++ packInt32 val

/-- Source: `Utils::packSInt32Tag`. -/
def packSInt32Tag (id : UInt32) (val : Int32) : List UInt8 := packTag id 0 ++ packSInt32 val

/-- Source: `Utils::packUInt32Tag`. -/
def packUInt32Tag (id : UInt32) (val : UInt32) : List UInt8 := packTag id 0 ++ packUInt32 val

/-- Source: `Utils::packEnumTag`. -/
def packEnumTag {E : Type} (ty : EnumType E) (id : UInt32) (val : E) : List UInt8 :=
  packTag id 0 ++ packEnum ty val

/-- Source: `Utils::packInt64Tag`. -/
def packInt64Tag (id : UInt32) (val : Int64) : List UInt8 := packTag id 0 ++ packInt64 val

/-- Source: `Utils::packSInt64Tag`. -/
def packSInt64Tag (id : UInt32) (val : Int64) : List UInt8 := packTag id 0 ++ packSInt64 val

/-- Source: `Utils::packUInt64Tag`. -/
def packUInt64Tag (id : UInt32) (val : UInt64) : List UInt8 := packTag id 0 ++ packUInt64 val

/-- Source: `Utils::packFloatTag`. -/
def packFloatTag (id : UInt32) (val : Raw 4) : List UInt8 := packTag id 5 ++ packFloat val

/-- Source: `Utils::packDoubleTag`. -/
def packDoubleTag (id : UInt32) (val : Raw 8) : List UInt8 := packTag id 1 ++ packDouble val

/-- Source: `Utils::packBoolTag`. -/
def packBoolTag (id : UInt32) (val : Bool) : List UInt8 := packTag id 0 ++ packBool val

/-- Source: `Utils::packStringTag`. -/
def packStringTag (id : UInt32) (val : List UInt8) : List UInt8 :=
  packTag id 2 ++ packUInt32 (UInt32.ofNat val.length) ++ packString val

/-- Source: `Utils::packObjectTag`. -/
def packObjectTag {T : Type} (ty : ObjectType T) (id : UInt32) (val : T) : List UInt8 :=
  packTag id 2 ++ packUInt32 (UInt32.ofNat (ty.size val)) ++ packObject ty val

/-! ## Unpacking -/

/-- Source: `Utils::unpackUInt32`. -/
def unpackUInt32 : Decoder UInt32 := do
  let n ← Varint.read 32
  pure (UInt32.ofNat n)

/-- Source: `Utils::unpackUInt64`. -/
def unpackUInt64 : Decoder UInt64 := do
  let n ← Varint.read 64
  pure (UInt64.ofNat n)

/-- Source: `Utils::unpackInt32`. -/
def unpackInt32 : Decoder Int32 := do
  let n ← unpackUInt64
  pure n.toUInt32.toInt32

/-- Source: `Utils::unpackSInt32`. -/
def unpackSInt32 : Decoder Int32 := do
  let n ← unpackUInt32
  pure (zzDecode32 n)

/-- Source: `Utils::unpackEnum`. -/
def unpackEnum {E : Type} (ty : EnumType E) : Decoder E := do
  let n ← unpackUInt32
  pure (ty.ofUInt32 n)

/-- Source: `Utils::unpackInt64`. -/
def unpackInt64 : Decoder Int64 := do
  let n ← unpackUInt64
  pure n.toInt64

/-- Source: `Utils::unpackSInt64`. -/
def unpackSInt64 : Decoder Int64 := do
  let n ← unpackUInt64
  pure (zzDecode64 n)

/-- Source: `Utils::unpackBinary`. -/
def unpackBinary (len : ℕ) : Decoder (Raw len) := fun mem c =>
  if len > c.leftSize then ⟨none, c, []⟩
  else ⟨some ⟨bytesAt mem c.buf len, length_bytesAt mem c.buf len⟩,
    ⟨c.buf + len, sizeSub c.leftSize len⟩, readsAt c.buf len⟩

/-- Source: `Utils::unpackFloat`. -/
def unpackFloat : Decoder (Raw 4) := unpackBinary 4

/-- Source: `Utils::unpackDouble`. -/
def unpackDouble : Decoder (Raw 8) := unpackBinary 8

/-- Source: `Utils::unpackBool`. -/
def unpackBool : Decoder Bool := fun mem c =>
  if c.leftSize = 0 then ⟨none, c, []⟩
  else ⟨some (mem c.buf != 0), ⟨c.buf + 1, sizeSub c.leftSize 1⟩, [.read c.buf]⟩

/-- The body of a string after its length: no more than what is left is taken. -/
def takeClamped (length : UInt32) : Decoder (List UInt8) := fun mem c =>
  let length := if length.toNat > c.leftSize then UInt32.ofNat c.leftSize else length
  ⟨some (bytesAt mem c.buf length.toNat),
    ⟨c.buf + length.toNat, sizeSub c.leftSize length.toNat⟩, readsAt c.buf length.toNat⟩

/-- Source: `Utils::unpackString`. -/
def unpackString : Decoder (List UInt8) := do
  let length ← unpackUInt32
  takeClamped length

/-- The string is a new one instead of the caller's. Source: `Utils::unpackStringPtr`. -/
def unpackStringPtr : Decoder (List UInt8) := do
  let length ← unpackUInt32
  takeClamped length

/-- Run `d` on the `n` bytes from here on, as `thisbuf` and a size of its own; on success move
over all of them. Nothing compares `n` with the bytes left. -/
def within {α : Type} (n : ℕ) (d : Decoder α) : Decoder α := fun mem c =>
  let o := d mem ⟨c.buf, n⟩
  match o.val with
  | none => ⟨none, c, o.trace⟩
  | some v => ⟨some v, ⟨c.buf + n, sizeSub c.leftSize n⟩, o.trace⟩

/-- Source: `Utils::unpackObject`. -/
def unpackObject {T : Type} (ty : ObjectType T) (val : T) : Decoder T := do
  let n ← unpackUInt32
  within n.toNat (ty.unpackBuffer val)

/-- Allocation succeeds. Source: `Utils::unpackObjectPtr`. -/
def unpackObjectPtr {T : Type} (ty : ObjectType T) : Decoder T := ty.unpackBuffer ty.fresh

/-- Source: `Utils::unpackTag`. -/
def unpackTag : Decoder (UInt32 × UInt8) := do
  let n ← unpackUInt32
  pure (n >>> 3, (n &&& 7).toUInt8)

section repeated

variable {α : Type}

/-- Source: `Utils::unpackRepeated`. -/
def unpackRepeated (val : List α) (func : Decoder α) : Decoder (List α) := do
  let singleVal ← func
  pure (val ++ [singleVal])

/-- Source: `Utils::unpackRepeatedPtr`. -/
def unpackRepeatedPtr (val : List α) (func : Decoder α) : Decoder (List α) := do
  let n ← unpackUInt32
  let singleVal ← within n.toNat func
  pure (val ++ [singleVal])

/-- The loop of the packed decoders: elements until the window is used up. `none` is a run that
needs more than `fuel` turns. -/
def packedLoop (func : Decoder α) (mem : Mem) : ℕ → List α → Cursor → Option (Outcome (List α))
  | 0, _, _ => none
  | fuel + 1, val, c =>
      if c.leftSize = 0 then some ⟨some val, c, []⟩
      else
        let o := func mem c
        match o.val with
        | none => some ⟨none, o.cur, o.trace⟩
        | some singleVal =>
            (packedLoop func mem fuel (val ++ [singleVal]) o.cur).map
              fun p => ⟨p.val, p.cur, o.trace ++ p.trace⟩

/-- Source: `Utils::unpackRepeatedPacked`. -/
def unpackRepeatedPacked (fuel : ℕ) (val : List α) (func : Decoder α) (mem : Mem) (c : Cursor) :
    Option (Outcome (List α)) :=
  let o := unpackUInt32 mem c
  match o.val with
  | none => some ⟨none, o.cur, o.trace⟩
  | some n =>
      (packedLoop func mem fuel val ⟨o.cur.buf, n.toNat⟩).map fun p =>
        match p.val with
        | none => ⟨none, o.cur, o.trace ++ p.trace⟩
        | some vs => ⟨some vs, ⟨o.cur.buf + n.toNat, sizeSub o.cur.leftSize n.toNat⟩,
            o.trace ++ p.trace⟩

/-- The same statements with another name for the size. Source: `Utils::unpackRepeatedPackedPtr`. -/
def unpackRepeatedPackedPtr (fuel : ℕ) (val : List α) (func : Decoder α) (mem : Mem) (c : Cursor) :
    Option (Outcome (List α)) :=
  unpackRepeatedPacked fuel val func mem c

end repeated

end CocInside.Ssu
