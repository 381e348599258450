import CocInside.Lib.Bytes
import CocInside.Lib.Decoder
import CocInside.Lib.Words

/-!
# Serialization to text

`SerializeInfo` collects integers in a prefix-coded byte format behind a four-byte header (a 16-bit
payload length, a checksum, a version) and prints the bytes in a base-64 alphabet of its own bit
order. `DeserializeInfo` reads such a string back.

* `Value`, `Value.bytes`, `IntType.read`: the integers that can be written, the bytes written, and
  the reading side as decoders. A read past the end yields 0 and stops at the end; every byte
  looked at is in the trace.
* `SerializeInfo`, `DeserializeInfo`: the two classes.
* `decodes_read`: what is written for a value reads back as it.
* `decodeLoop_encodeLoop`: printing and parsing the bytes, for every length.
* `serialize_roundTrip`: the whole way.

The host is little-endian and `char` is signed.

Source: `System/Serialize.h`, `System/Serialize.cpp`.
-/

namespace CocInside.System

open CocInside.Lib

/-! ## The alphabet -/

/-- Source: `Serialize.cpp`, `table64`. -/
def table64 : List UInt8 :=
  [ 'A', 'B', 'C', 'D', 'E', 'F', 'G', 'H', 'I', 'J', 'K', 'L', 'M', 'N', 'O', 'P',
    'Q', 'R', 'S', 'T', 'U', 'V', 'W', 'X', 'Y', 'Z', 'a', 'b', 'c', 'd', 'e', 'f',
    'g', 'h', 'i', 'j', 'k', 'l', 'm', 'n', 'o', 'p', 'q', 'r', 's', 't', 'u', 'v',
    'w', 'x', 'y', 'z', '0', '1', '2', '3', '4', '5', '6', '7', '8', '9', '+', '/'].map
    fun c => UInt8.ofNat c.toNat

/-- Source: `Serialize.cpp`, `table128`. -/
def table128 : List ℤ :=
  [ -1, -1, -1, -1, -1, -1, -1, -1, -1, -1, -1, -1, -1, -1, -1, -1,
    -1, -1, -1, -1, -1, -1, -1, -1, -1, -1, -1, -1, -1, -1, -1, -1,
    -1, -1, -1, -1, -1, -1, -1, -1, -1, -1, -1, 62, -1, -1, -1, 63,
    52, 53, 54, 55, 56, 57, 58, 59, 60, 61, -1, -1, -1,  0, -1, -1,
    -1,  0,  1,  2,  3,  4,  5,  6,  7,  8,  9, 10, 11, 12, 13, 14,
    15, 16, 17, 18, 19, 20, 21, 22, 23, 24, 25, -1, -1, -1, -1, -1,
    -1, 26, 27, 28, 29, 30, 31, 32, 33, 34, 35, 36, 37, 38, 39, 40,
    41, 42, 43, 44, 45, 46, 47, 48, 49, 50, 51, -1, -1, -1, -1, -1]

/-- `table64[k]`. -/
def symbol (k : ℕ) : UInt8 := table64.getD k 0

/-- `table128[c]`. -/
def sextet (c : UInt8) : ℤ := table128.getD c.toNat (-1)

/-- The padding character. -/
def padding : UInt8 := UInt8.ofNat '='.toNat

/-! ## Integers -/

/-- The types with an `operator <<` and an `operator >>`. -/
inductive IntType where
  | uint8 | uint16 | uint32 | uint64 | int8 | int16 | int32 | int64
  deriving DecidableEq, Repr

/-- An integer of one of these types. -/
inductive Value where
  | uint8 (v : UInt8)
  | uint16 (v : UInt16)
  | uint32 (v : UInt32)
  | uint64 (v : UInt64)
  | int8 (v : Int8)
  | int16 (v : Int16)
  | int32 (v : Int32)
  | int64 (v : Int64)
  deriving DecidableEq

/-- The type of a value. -/
def Value.type : Value → IntType
  | uint8 _ => .uint8
  | uint16 _ => .uint16
  | uint32 _ => .uint32
  | uint64 _ => .uint64
  | int8 _ => .int8
  | int16 _ => .int16
  | int32 _ => .int32
  | int64 _ => .int64

/-- The bytes pushed for a 32-bit value. `push_back` keeps the low byte.
Source: `Serialize.cpp`, `SerializeInfo::operator << (UInt32)`. -/
def putUInt32 (val : UInt32) : List UInt8 :=
  let val := val.toNat
  if val < 0x80 then [UInt8.ofNat val]
  else if val < 0x4000 then [UInt8.ofNat ((val &&& 0x3f) ||| 0x80), UInt8.ofNat (val >>> 6)]
  else if val < 0x200000 then
    [UInt8.ofNat ((val &&& 0x1f) ||| 0xc0), UInt8.ofNat (val >>> 5), UInt8.ofNat (val >>> 13)]
  else if val < 0x10000000 then
    [UInt8.ofNat ((val &&& 0xf) ||| 0xe0), UInt8.ofNat (val >>> 4), UInt8.ofNat (val >>> 12),
      UInt8.ofNat (val >>> 20)]
  else
    [0xff, UInt8.ofNat val, UInt8.ofNat (val >>> 8), UInt8.ofNat (val >>> 16),
      UInt8.ofNat (val >>> 24)]

/-- The lower half first.
Source: `Serialize.cpp`, `SerializeInfo::operator << (UInt64)`. -/
def putUInt64 (val : UInt64) : List UInt8 :=
  putUInt32 (val &&& 0xffffffff).toUInt32 ++ putUInt32 (val >>> 32).toUInt32

/-- The bytes pushed for a value: the narrow types are converted to `UInt32`, the signed ones with
their sign.
Source: `Serialize.cpp`, `SerializeInfo::operator <<`. -/
def Value.bytes : Value → List UInt8
  | uint8 v => putUInt32 v.toUInt32
  | uint16 v => putUInt32 v.toUInt32
  | uint32 v => putUInt32 v
  | uint64 v => putUInt64 v
  | int8 v => putUInt32 v.toInt32.toUInt32
  | int16 v => putUInt32 v.toInt32.toUInt32
  | int32 v => putUInt32 v.toUInt32
  | int64 v => putUInt64 v.toUInt64

/-- `n` bytes are needed for `val`, of which the first has been looked at: if they are not there,
the value is 0 and `current` moves to the end. -/
def getBytes (n : ℕ) (val : ℕ) : Decoder UInt32 := fun _ c =>
  if c.leftSize < n then ⟨some 0, ⟨c.buf + c.leftSize, 0⟩, [.read c.buf]⟩
  else ⟨some (UInt32.ofNat val), ⟨c.buf + n, c.leftSize - n⟩, readsAt c.buf n⟩

/-- Source: `Serialize.cpp`, `DeserializeInfo::operator >> (UInt32&)`. -/
def getUInt32 : Decoder UInt32 := fun mem c =>
  let b (i : ℕ) : ℕ := (mem (c.buf + i)).toNat
  if b 0 < 0x80 then getBytes 1 (b 0) mem c
  else if b 0 < 0xc0 then getBytes 2 ((b 0 &&& 0x3f) ||| (b 1 <<< 6)) mem c
  else if b 0 < 0xe0 then
    getBytes 3 ((b 0 &&& 0x1f) ||| (b 1 <<< 5) ||| (b 2 <<< 13)) mem c
  else if b 0 < 0xf0 then
    getBytes 4 ((b 0 &&& 0x0f) ||| (b 1 <<< 4) ||| (b 2 <<< 12) ||| (b 3 <<< 20)) mem c
  else getBytes 5 (leNat [mem (c.buf + 1), mem (c.buf + 2), mem (c.buf + 3), mem (c.buf + 4)]) mem c

/-- Source: `Serialize.cpp`, `DeserializeInfo::operator >> (UInt64&)`. -/
def getUInt64 : Decoder UInt64 := do
  let val1 ← getUInt32
  let val2 ← getUInt32
  pure (val1.toUInt64 ||| (val2.toUInt64 <<< 32))

/-- Source: `Serialize.cpp`, `DeserializeInfo::operator >>`. -/
def IntType.read : IntType → Decoder Value
  | uint8 => getUInt32 >>= fun val1 => pure (.uint8 val1.toUInt8)
  | uint16 => getUInt32 >>= fun val1 => pure (.uint16 val1.toUInt16)
  | uint32 => getUInt32 >>= fun val => pure (.uint32 val)
  | uint64 => getUInt64 >>= fun val => pure (.uint64 val)
  | int8 => getUInt32 >>= fun val1 => pure (.int8 val1.toUInt8.toInt8)
  | int16 => getUInt32 >>= fun val1 => pure (.int16 val1.toUInt16.toInt16)
  | int32 => getUInt32 >>= fun val1 => pure (.int32 val1.toInt32)
  | int64 => getUInt64 >>= fun val => pure (.int64 val.toInt64)

/-! ## Writing -/

/-- The sum of bytes, modulo 256. -/
def checksum (bs : List UInt8) : UInt8 := bs.foldl (· + ·) 0

/-- The buffer always holds the header.
Source: `Serialize.h`, `SerializeInfo`. -/
structure SerializeInfo where
  buffer : List UInt8
  header : 4 ≤ buffer.length

/-- A group of three bytes as four characters.
Source: `Serialize.cpp`, `SerializeInfo::ToString`, the loop body. -/
def encodeGroup (b0 b1 b2 : UInt8) : List UInt8 :=
  [symbol (b0.toNat &&& 0x3f),
    symbol (((b0.toNat >>> 6) &&& 0x3) ||| ((b1.toNat &&& 0xf) <<< 2)),
    symbol (((b1.toNat >>> 4) &&& 0xf) ||| ((b2.toNat &&& 0x3) <<< 4)),
    symbol ((b2.toNat >>> 2) &&& 0x3f)]

/-- The last group, by the size of the buffer modulo 3.
Source: `Serialize.cpp`, `SerializeInfo::ToString`, after the loop. -/
def encodeTail (size : ℕ) (rest : List UInt8) : List UInt8 :=
  let b0 := rest.getD 0 0
  let b1 := rest.getD 1 0
  let b2 := rest.getD 2 0
  if size % 3 = 1 then
    [symbol (b0.toNat &&& 0x3f), symbol ((b0.toNat >>> 6) &&& 0x3), padding, padding]
  else if size % 3 = 2 then
    [symbol (b0.toNat &&& 0x3f),
      symbol (((b0.toNat >>> 6) &&& 0x3) ||| ((b1.toNat &&& 0xf) <<< 2)),
      symbol ((b1.toNat >>> 4) &&& 0xf), padding]
  else encodeGroup b0 b1 b2

/-- The loop, over the bytes from `i` on: it runs while more than three are left.
Source: `Serialize.cpp`, `SerializeInfo::ToString`, `i < buffer.size() - 3`. -/
def encodeLoop (size : ℕ) : List UInt8 → List UInt8
  | b0 :: b1 :: b2 :: b3 :: rest => encodeGroup b0 b1 b2 ++ encodeLoop size (b3 :: rest)
  | rest => encodeTail size rest

namespace SerializeInfo

/-- Source: `Serialize.cpp`, `SerializeInfo::SerializeInfo`. -/
def create (version : UInt8) : SerializeInfo := ⟨List.replicate 3 0 ++ [version], by simp⟩

/-- Source: `Serialize.cpp`, `SerializeInfo::operator <<`. -/
def put (s : SerializeInfo) (v : Value) : SerializeInfo where
  buffer := s.buffer ++ v.bytes
  header := by
    have := s.header
    rw [List.length_append]
    omega

/-- Fill in the length and the checksum. -/
def finish (s : SerializeInfo) : SerializeInfo where
  buffer :=
    let len := s.buffer.length - 4
    let buffer := s.buffer.set 0 (UInt8.ofNat (len &&& 0xff))
    let buffer := buffer.set 1 (UInt8.ofNat ((len >>> 8) &&& 0xff))
    let buffer := buffer.set 2 0
    buffer.set 2 (checksum (buffer.drop 4))
  header := by simpa using s.header

/-- The string, and the object after the call.
Source: `Serialize.cpp`, `SerializeInfo::ToString`. -/
def toString (s : SerializeInfo) : List UInt8 × SerializeInfo :=
  (encodeLoop s.finish.buffer.length s.finish.buffer, s.finish)

end SerializeInfo

/-! ## Reading -/

/-- A character that is no symbol and no padding. -/
def BadChar (c : UInt8) : Prop := c.toNat ≥ 128 ∨ sextet c = -1

instance (c : UInt8) : Decidable (BadChar c) := inferInstanceAs (Decidable (_ ∨ _))

/-- A group of four characters: how many bytes it counts for, and the three bytes stored; `none`
is the `return` for a bad character.
Source: `Serialize.cpp`, `DeserializeInfo::DeserializeInfo`, the loop body. -/
def decodeGroup (c0 c1 c2 c3 : UInt8) : Option (ℕ × List UInt8) :=
  if BadChar c0 ∨ BadChar c1 ∨ BadChar c2 ∨ BadChar c3 then none
  else
    let n := if c2 = padding then 1 else if c3 = padding then 2 else 3
    let val1 := (sextet c0).toNat
    let val2 := (sextet c1).toNat
    let val3 := (sextet c2).toNat
    let val4 := (sextet c3).toNat
    some (n, [UInt8.ofNat (val1 ||| ((val2 &&& 0x3) <<< 6)),
      UInt8.ofNat (((val2 >>> 2) &&& 0xf) ||| ((val3 &&& 0xf) <<< 4)),
      UInt8.ofNat (((val3 >>> 4) &&& 0x3) ||| (val4 <<< 2))])

/-- All groups: the byte count and the bytes stored. -/
def decodeLoop : List UInt8 → Option (ℕ × List UInt8)
  | [] => some (0, [])
  | c0 :: c1 :: c2 :: c3 :: rest => do
      let group ← decodeGroup c0 c1 c2 c3
      let more ← decodeLoop rest
      some (group.1 + more.1, group.2 ++ more.2)
  | _ => none

/-- `pend` and `current` are offsets into `pbuf`.
Source: `Serialize.h`, `DeserializeInfo`. -/
structure DeserializeInfo where
  valid : Bool
  pbuf : List UInt8
  pend : ℕ
  current : ℕ

namespace DeserializeInfo

/-- An object that is not valid; what else it holds is not modelled. -/
def invalid : DeserializeInfo := ⟨false, [], 0, 0⟩

/-- Source: `Serialize.cpp`, `DeserializeInfo::DeserializeInfo`. -/
def create (restore : List UInt8) : DeserializeInfo :=
  let len := restore.length
  if len % 4 ≠ 0 ∨ len < 4 then invalid
  else
    match decodeLoop restore with
    | none => invalid
    | some (sz, pbuf) =>
        if leNat (pbuf.take 2) ≠ sizeSub sz 4 then invalid
        else if checksum ((pbuf.take sz).drop 4) ≠ pbuf.getD 2 0 then invalid
        else ⟨true, pbuf, sz, 4⟩

/-- Source: `Serialize.cpp`, `DeserializeInfo::isValid`. -/
def isValid (d : DeserializeInfo) : Bool := d.valid

/-- Source: `Serialize.cpp`, `DeserializeInfo::isEnd`. -/
def isEnd (d : DeserializeInfo) : Bool := decide (d.current ≥ d.pend)

/-- Source: `Serialize.cpp`, `DeserializeInfo::GetVersion`. -/
def getVersion (d : DeserializeInfo) : UInt8 := d.pbuf.getD 3 0

/-- Read one integer.
Source: `Serialize.cpp`, `DeserializeInfo::operator >>`. -/
def get (d : DeserializeInfo) (t : IntType) : Option (Value × DeserializeInfo) :=
  let o := t.read (memOf d.pbuf) ⟨d.current, d.pend - d.current⟩
  o.val.map fun v => (v, { d with current := o.cur.buf })

/-- Read integers one after another. -/
def getAll (d : DeserializeInfo) : List IntType → Option (List Value × DeserializeInfo)
  | [] => some ([], d)
  | t :: ts => do
      let first ← d.get t
      let more ← first.2.getAll ts
      some (first.1 :: more.1, more.2)

end DeserializeInfo

/-! ## The integer format -/

/-- Enough bytes are there. -/
lemma getBytes_of_le {n val : ℕ} {v : UInt32} {mem : Mem} {c : Cursor} (h : n ≤ c.leftSize)
    (hval : val = v.toNat) :
    getBytes n val mem c = ⟨some v, ⟨c.buf + n, c.leftSize - n⟩, readsAt c.buf n⟩ := by
  unfold getBytes
  rw [if_neg (by omega), hval, UInt32.ofNat_toNat]

/-- A lead byte: `k` bits of the value below a class prefix `y`. -/
lemma toNat_lead (k y n : ℕ) (h : 2 ^ k * (y + 1) ≤ 256) :
    (UInt8.ofNat ((n &&& (2 ^ k - 1)) ||| (y <<< k))).toNat = n % 2 ^ k + 2 ^ k * y := by
  have hlt : n % 2 ^ k < 2 ^ k := Nat.mod_lt _ (Nat.two_pow_pos k)
  rw [Nat.and_two_pow_sub_one_eq_mod, or_shiftLeft hlt, UInt8.toNat_ofNat', Nat.mod_eq_of_lt]
  rw [Nat.mul_succ] at h
  omega

/-- The bits of the value in a lead byte. -/
lemma lead_and (k y n : ℕ) : (n % 2 ^ k + 2 ^ k * y) &&& (2 ^ k - 1) = n % 2 ^ k := by
  rw [Nat.and_two_pow_sub_one_eq_mod, Nat.add_mul_mod_self_left, Nat.mod_mod]

section classes

variable {mem : Mem} {c : Cursor} {n : ℕ}

/-- A byte shifted out of a value. -/
lemma toNat_shiftRight (n k : ℕ) : (UInt8.ofNat (n >>> k)).toNat = n / 2 ^ k % 256 := by
  rw [UInt8.toNat_ofNat', Nat.shiftRight_eq_div_pow]

/-- The reader of a number of one byte. -/
lemma getUInt32_one (h : Holds mem c.buf [UInt8.ofNat n]) (hn : n < 0x80) :
    getUInt32 mem c = getBytes 1 n mem c := by
  simp only [holds_cons, holds_nil, and_true] at h
  have h0 : (UInt8.ofNat n).toNat = n := by
    rw [UInt8.toNat_ofNat']
    omega
  simp only [getUInt32, Nat.add_zero, h, h0]
  rw [if_pos hn]

/-- The reader of a number of two bytes. -/
lemma getUInt32_two
    (h : Holds mem c.buf [UInt8.ofNat ((n &&& 0x3f) ||| 0x80), UInt8.ofNat (n >>> 6)])
    (hn : n < 0x4000) : getUInt32 mem c = getBytes 2 n mem c := by
  simp only [holds_cons, holds_nil, and_true] at h
  have h0 : (UInt8.ofNat ((n &&& 0x3f) ||| 0x80)).toNat = n % 2 ^ 6 + 2 ^ 6 * 2 :=
    toNat_lead 6 2 n (by decide)
  have hlow : (n % 2 ^ 6 + 2 ^ 6 * 2) &&& 0x3f = n % 2 ^ 6 := lead_and 6 2 n
  simp only [getUInt32, Nat.add_zero, h, h0, hlow, toNat_shiftRight]
  rw [if_neg (by omega), if_pos (by omega), or_shiftLeft (by omega)]
  congr 1
  omega

/-- The reader of a number of three bytes. -/
lemma getUInt32_three
    (h : Holds mem c.buf [UInt8.ofNat ((n &&& 0x1f) ||| 0xc0), UInt8.ofNat (n >>> 5),
      UInt8.ofNat (n >>> 13)])
    (hn : n < 0x200000) : getUInt32 mem c = getBytes 3 n mem c := by
  simp only [holds_cons, holds_nil, and_true, Nat.add_assoc, Nat.reduceAdd] at h
  have h0 : (UInt8.ofNat ((n &&& 0x1f) ||| 0xc0)).toNat = n % 2 ^ 5 + 2 ^ 5 * 6 :=
    toNat_lead 5 6 n (by decide)
  have hlow : (n % 2 ^ 5 + 2 ^ 5 * 6) &&& 0x1f = n % 2 ^ 5 := lead_and 5 6 n
  simp only [getUInt32, Nat.add_zero, h, h0, hlow, toNat_shiftRight]
  have h1 : n % 2 ^ 5 ||| (n / 2 ^ 5 % 256) <<< 5 = n % 2 ^ 5 + 2 ^ 5 * (n / 2 ^ 5 % 256) :=
    or_shiftLeft (by omega) _
  rw [if_neg (by omega), if_neg (by omega), if_pos (by omega), h1, or_shiftLeft (by omega)]
  congr 1
  omega

/-- The reader of a number of four bytes. -/
lemma getUInt32_four
    (h : Holds mem c.buf [UInt8.ofNat ((n &&& 0xf) ||| 0xe0), UInt8.ofNat (n >>> 4),
      UInt8.ofNat (n >>> 12), UInt8.ofNat (n >>> 20)])
    (hn : n < 0x10000000) : getUInt32 mem c = getBytes 4 n mem c := by
  simp only [holds_cons, holds_nil, and_true, Nat.add_assoc, Nat.reduceAdd] at h
  have h0 : (UInt8.ofNat ((n &&& 0xf) ||| 0xe0)).toNat = n % 2 ^ 4 + 2 ^ 4 * 14 :=
    toNat_lead 4 14 n (by decide)
  have hlow : (n % 2 ^ 4 + 2 ^ 4 * 14) &&& 0x0f = n % 2 ^ 4 := lead_and 4 14 n
  simp only [getUInt32, Nat.add_zero, h, h0, hlow, toNat_shiftRight]
  have h1 : n % 2 ^ 4 ||| (n / 2 ^ 4 % 256) <<< 4 = n % 2 ^ 4 + 2 ^ 4 * (n / 2 ^ 4 % 256) :=
    or_shiftLeft (by omega) _
  have h2 : n % 2 ^ 4 + 2 ^ 4 * (n / 2 ^ 4 % 256) ||| (n / 2 ^ 12 % 256) <<< 12
      = n % 2 ^ 4 + 2 ^ 4 * (n / 2 ^ 4 % 256) + 2 ^ 12 * (n / 2 ^ 12 % 256) :=
    or_shiftLeft (by omega) _
  rw [if_neg (by omega), if_neg (by omega), if_neg (by omega), if_pos (by omega), h1, h2,
    or_shiftLeft (by omega)]
  congr 1
  omega

/-- The reader of a number of five bytes. -/
lemma getUInt32_five
    (h : Holds mem c.buf [0xff, UInt8.ofNat n, UInt8.ofNat (n >>> 8), UInt8.ofNat (n >>> 16),
      UInt8.ofNat (n >>> 24)])
    (hn : n < 2 ^ 32) : getUInt32 mem c = getBytes 5 n mem c := by
  simp only [holds_cons, holds_nil, and_true, Nat.add_assoc, Nat.reduceAdd] at h
  have h0 : (255 : UInt8).toNat = 255 := rfl
  simp only [getUInt32, Nat.add_zero, h, h0, leNat_cons, leNat_nil,
    UInt8.toNat_ofNat']
  simp only [Nat.shiftRight_eq_div_pow]
  rw [if_neg (by omega), if_neg (by omega), if_neg (by omega), if_neg (by omega)]
  congr 1
  omega

end classes

/-- What is written for a 32-bit value reads back as it, in each of the five classes. -/
lemma decodes_getUInt32 (v : UInt32) : Decodes getUInt32 (putUInt32 v) v := by
  intro mem c hmem hlen
  have hv : v.toNat < 2 ^ 32 := v.toNat_lt
  have heq : getUInt32 mem c = getBytes (putUInt32 v).length v.toNat mem c := by
    clear hlen
    rw [putUInt32] at hmem ⊢
    split_ifs at hmem ⊢ with h1 h2 h3 h4
    · exact getUInt32_one hmem h1
    · exact getUInt32_two hmem h2
    · exact getUInt32_three hmem h3
    · exact getUInt32_four hmem h4
    · exact getUInt32_five hmem hv
  rw [heq, getBytes_of_le hlen rfl]
  exact ⟨rfl, rfl⟩

/-- The halves of a 64-bit value put together again. -/
lemma join_halves (v : UInt64) :
    (v &&& 0xffffffff).toUInt32.toUInt64 ||| ((v >>> 32).toUInt32.toUInt64 <<< 32) = v := by
  have hv : v.toNat < 2 ^ 64 := v.toNat_lt
  have hlow : v.toNat &&& 0xffffffff = v.toNat % 2 ^ 32 := Nat.and_two_pow_sub_one_eq_mod _ 32
  have hhigh : (v.toNat >>> 32 % 2 ^ 32) <<< 32 % 2 ^ 64 = (v.toNat / 2 ^ 32) <<< 32 := by
    rw [Nat.shiftRight_eq_div_pow, Nat.shiftLeft_eq, Nat.shiftLeft_eq]
    omega
  apply UInt64.toNat_inj.mp
  rw [UInt64.toNat_or, UInt64.toNat_shiftLeft, UInt32.toNat_toUInt64, UInt32.toNat_toUInt64,
    UInt64.toNat_toUInt32, UInt64.toNat_toUInt32, UInt64.toNat_and, UInt64.toNat_shiftRight]
  show (v.toNat &&& 0xffffffff) % 2 ^ 32 ||| (v.toNat >>> 32 % 2 ^ 32) <<< 32 % 2 ^ 64 = v.toNat
  rw [hlow, hhigh, Nat.mod_mod, or_shiftLeft (Nat.mod_lt _ (by decide))]
  omega

/-- What `putUInt64` writes is read back. -/
lemma decodes_getUInt64 (v : UInt64) : Decodes getUInt64 (putUInt64 v) v :=
  (decodes_getUInt32 _).bind ((decodes_getUInt32 _).bind_ret _ (join_halves v))

/-- **Integers.** What is written for a value reads back as the value, at its type. -/
lemma decodes_read (v : Value) : Decodes v.type.read v.bytes v := by
  cases v with
  | uint8 v => exact (decodes_getUInt32 _).bind_ret _ (by simp)
  | uint16 v => exact (decodes_getUInt32 _).bind_ret _ (by simp)
  | uint32 v => exact (decodes_getUInt32 _).bind_ret _ rfl
  | uint64 v => exact (decodes_getUInt64 _).bind_ret _ rfl
  | int8 v =>
      refine (decodes_getUInt32 _).bind_ret _ (congrArg Value.int8 (Int8.toBitVec_inj.mp ?_))
      simpa using setWidth_signExtend (by decide) v.toBitVec
  | int16 v =>
      refine (decodes_getUInt32 _).bind_ret _ (congrArg Value.int16 (Int16.toBitVec_inj.mp ?_))
      simpa using setWidth_signExtend (by decide) v.toBitVec
  | int32 v => exact (decodes_getUInt32 _).bind_ret _ (by simp)
  | int64 v => exact (decodes_getUInt64 _).bind_ret _ (by simp)

/-- A number takes at least one byte. -/
lemma length_putUInt32_pos (v : UInt32) : 0 < (putUInt32 v).length := by
  rw [putUInt32]
  split_ifs <;> simp

/-- Every value takes a byte. -/
lemma length_bytes_pos (v : Value) : 0 < v.bytes.length := by
  have hpos := length_putUInt32_pos
  cases v with
  | uint64 v | int64 v =>
      unfold Value.bytes putUInt64
      rw [List.length_append]
      exact Nat.add_pos_left (hpos _) _
  | _ => exact hpos _

/-! ## The text format -/

/-- The symbols: they are no bad characters, no padding, and look up to their index. -/
lemma symbol_spec {k : ℕ} (hk : k < 64) :
    ¬ BadChar (symbol k) ∧ symbol k ≠ padding ∧ (sextet (symbol k)).toNat = k := by
  have h : ∀ i : Fin 64, ¬ BadChar (symbol i) ∧ symbol i ≠ padding ∧
      (sextet (symbol i)).toNat = i := by decide +kernel
  exact h ⟨k, hk⟩

/-- The padding is a legal character, of value zero. -/
lemma padding_spec : ¬ BadChar padding ∧ (sextet padding).toNat = 0 := by decide

/-- The four sextets of three bytes, as numbers. -/
lemma sextets_eq (b0 b1 b2 : UInt8) :
    b0.toNat &&& 0x3f = b0.toNat % 64 ∧
    ((b0.toNat >>> 6) &&& 0x3) ||| ((b1.toNat &&& 0xf) <<< 2)
      = b0.toNat / 64 % 4 + 4 * (b1.toNat % 16) ∧
    ((b1.toNat >>> 4) &&& 0xf) ||| ((b2.toNat &&& 0x3) <<< 4)
      = b1.toNat / 16 % 16 + 16 * (b2.toNat % 4) ∧
    (b2.toNat >>> 2) &&& 0x3f = b2.toNat / 4 % 64 := by
  have m2 : ∀ n, n &&& 0x3 = n % 4 := fun n => Nat.and_two_pow_sub_one_eq_mod n 2
  have m4 : ∀ n, n &&& 0xf = n % 16 := fun n => Nat.and_two_pow_sub_one_eq_mod n 4
  have m6 : ∀ n, n &&& 0x3f = n % 64 := fun n => Nat.and_two_pow_sub_one_eq_mod n 6
  refine ⟨m6 _, ?_, ?_, ?_⟩
  · rw [m2, m4, Nat.shiftRight_eq_div_pow]
    exact or_shiftLeft (by omega) _
  · rw [m2, m4, Nat.shiftRight_eq_div_pow]
    exact or_shiftLeft (by omega) _
  · rw [m6, Nat.shiftRight_eq_div_pow]

/-- The three bytes of four sextets, as numbers. -/
lemma bytes_eq {s0 s1 s2 : ℕ} (h0 : s0 < 64) (h1 : s1 < 64) (h2 : s2 < 64) (s3 : ℕ) :
    s0 ||| ((s1 &&& 0x3) <<< 6) = s0 + 64 * (s1 % 4) ∧
    ((s1 >>> 2) &&& 0xf) ||| ((s2 &&& 0xf) <<< 4) = s1 / 4 + 16 * (s2 % 16) ∧
    ((s2 >>> 4) &&& 0x3) ||| (s3 <<< 2) = s2 / 16 + 4 * s3 := by
  have m2 : ∀ n, n &&& 0x3 = n % 4 := fun n => Nat.and_two_pow_sub_one_eq_mod n 2
  have m4 : ∀ n, n &&& 0xf = n % 16 := fun n => Nat.and_two_pow_sub_one_eq_mod n 4
  refine ⟨?_, ?_, ?_⟩
  · rw [m2]
    exact or_shiftLeft h0 _
  · rw [m4, m4, Nat.shiftRight_eq_div_pow, or_shiftLeft (by omega)]
    omega
  · rw [m2, Nat.shiftRight_eq_div_pow, or_shiftLeft (by omega)]
    omega

/-- The four sextets of three bytes: they are small, and the bytes come back. -/
lemma sextets_spec (b0 b1 b2 : UInt8) :
    let s0 := b0.toNat &&& 0x3f
    let s1 := ((b0.toNat >>> 6) &&& 0x3) ||| ((b1.toNat &&& 0xf) <<< 2)
    let s2 := ((b1.toNat >>> 4) &&& 0xf) ||| ((b2.toNat &&& 0x3) <<< 4)
    let s3 := (b2.toNat >>> 2) &&& 0x3f
    (s0 < 64 ∧ s1 < 64 ∧ s2 < 64 ∧ s3 < 64) ∧
      UInt8.ofNat (s0 ||| ((s1 &&& 0x3) <<< 6)) = b0 ∧
      UInt8.ofNat (((s1 >>> 2) &&& 0xf) ||| ((s2 &&& 0xf) <<< 4)) = b1 ∧
      UInt8.ofNat (((s2 >>> 4) &&& 0x3) ||| (s3 <<< 2)) = b2 := by
  have h0 : b0.toNat < 256 := b0.toNat_lt
  have h1 : b1.toNat < 256 := b1.toNat_lt
  have h2 : b2.toNat < 256 := b2.toNat_lt
  obtain ⟨e0, e1, e2, e3⟩ := sextets_eq b0 b1 b2
  intro s0 s1 s2 s3
  rw [show s0 = _ from e0, show s1 = _ from e1, show s2 = _ from e2, show s3 = _ from e3]
  obtain ⟨d0, d1, d2⟩ := bytes_eq (show b0.toNat % 64 < 64 by omega)
    (show b0.toNat / 64 % 4 + 4 * (b1.toNat % 16) < 64 by omega)
    (show b1.toNat / 16 % 16 + 16 * (b2.toNat % 4) < 64 by omega) (b2.toNat / 4 % 64)
  rw [d0, d1, d2]
  refine ⟨by omega, ?_, ?_, ?_⟩ <;>
  · apply UInt8.toNat_inj.mp
    rw [UInt8.toNat_ofNat']
    omega

/-- A group of characters whose sextets are known. -/
lemma decodeGroup_eq {c0 c1 c2 c3 : UInt8} {s0 s1 s2 s3 : ℕ}
    (h0 : ¬ BadChar c0 ∧ (sextet c0).toNat = s0) (h1 : ¬ BadChar c1 ∧ (sextet c1).toNat = s1)
    (h2 : ¬ BadChar c2 ∧ (sextet c2).toNat = s2) (h3 : ¬ BadChar c3 ∧ (sextet c3).toNat = s3) :
    decodeGroup c0 c1 c2 c3
      = some (if c2 = padding then 1 else if c3 = padding then 2 else 3,
          [UInt8.ofNat (s0 ||| ((s1 &&& 0x3) <<< 6)),
            UInt8.ofNat (((s1 >>> 2) &&& 0xf) ||| ((s2 &&& 0xf) <<< 4)),
            UInt8.ofNat (((s2 >>> 4) &&& 0x3) ||| (s3 <<< 2))]) := by
  unfold decodeGroup
  rw [if_neg (by tauto), h0.2, h1.2, h2.2, h3.2]

/-- A full group decodes to its bytes. -/
lemma decode_three (b0 b1 b2 : UInt8) (rest : List UInt8) :
    decodeLoop (encodeGroup b0 b1 b2 ++ rest)
      = (decodeLoop rest).map fun more => (3 + more.1, [b0, b1, b2] ++ more.2) := by
  obtain ⟨⟨h0, h1, h2, h3⟩, e0, e1, e2⟩ := sextets_spec b0 b1 b2
  have p0 := symbol_spec h0
  have p1 := symbol_spec h1
  have p2 := symbol_spec h2
  have p3 := symbol_spec h3
  have hg := decodeGroup_eq ⟨p0.1, p0.2.2⟩ ⟨p1.1, p1.2.2⟩ ⟨p2.1, p2.2.2⟩ ⟨p3.1, p3.2.2⟩
  rw [if_neg p2.2.1, if_neg p3.2.1, e0, e1, e2] at hg
  simp only [encodeGroup, List.cons_append, List.nil_append, decodeLoop, hg]
  cases decodeLoop rest <;> rfl

/-- One byte left: two characters and two paddings. -/
lemma decode_one (b0 : UInt8) {size : ℕ} (hsize : size % 3 = 1) :
    decodeLoop (encodeTail size [b0]) = some (1, [b0, 0, 0]) := by
  obtain ⟨⟨h0, h1, -, -⟩, e0, e1, e2⟩ := sextets_spec b0 0 0
  simp only [show (0 : UInt8).toNat = 0 from rfl, Nat.zero_and, Nat.zero_shiftLeft, Nat.or_zero,
    Nat.zero_shiftRight] at h1 e0 e1 e2
  have p0 := symbol_spec h0
  have p1 := symbol_spec h1
  have hg := decodeGroup_eq ⟨p0.1, p0.2.2⟩ ⟨p1.1, p1.2.2⟩ padding_spec padding_spec
  simp only [if_true, Nat.zero_and, Nat.zero_shiftLeft, Nat.or_zero, Nat.zero_shiftRight, e0, e1,
    e2] at hg
  simp [encodeTail, hsize, decodeLoop, hg]

/-- Two bytes left: three characters and a padding. -/
lemma decode_two (b0 b1 : UInt8) {size : ℕ} (hsize : size % 3 = 2) :
    decodeLoop (encodeTail size [b0, b1]) = some (2, [b0, b1, 0]) := by
  obtain ⟨⟨h0, h1, h2, -⟩, e0, e1, e2⟩ := sextets_spec b0 b1 0
  simp only [show (0 : UInt8).toNat = 0 from rfl, Nat.zero_and, Nat.zero_shiftLeft, Nat.or_zero,
    Nat.zero_shiftRight] at h2 e0 e1 e2
  have p0 := symbol_spec h0
  have p1 := symbol_spec h1
  have p2 := symbol_spec h2
  have hg := decodeGroup_eq ⟨p0.1, p0.2.2⟩ ⟨p1.1, p1.2.2⟩ ⟨p2.1, p2.2.2⟩ padding_spec
  rw [if_neg p2.2.1, if_pos rfl] at hg
  simp only [Nat.zero_shiftLeft, Nat.or_zero, e0, e1, e2] at hg
  simp [encodeTail, hsize, decodeLoop, hg]

/-- The bytes stored for a buffer: filled up with zeros to a multiple of three. -/
def padded (l : List UInt8) : List UInt8 := l ++ List.replicate ((3 - l.length % 3) % 3) 0

/-- **Printing and parsing the bytes** gives their number and the bytes. -/
lemma decodeLoop_encodeLoop (size : ℕ) (l : List UInt8) (hl : l ≠ [])
    (hsize : size % 3 = l.length % 3) :
    decodeLoop (encodeLoop size l) = some (l.length, padded l) := by
  induction l using encodeLoop.induct with
  | case1 b0 b1 b2 b3 rest ih =>
      have hmod : (b0 :: b1 :: b2 :: b3 :: rest).length % 3 = (b3 :: rest).length % 3 := by
        simp only [List.length_cons]
        omega
      unfold encodeLoop
      rw [decode_three, ih (by simp) (hsize.trans hmod), padded, padded, hmod]
      simp only [Option.map_some, List.length_cons, List.cons_append, List.nil_append]
      congr 2
      omega
  | case2 l hshort =>
      -- Fewer than four bytes are left: one, two or three.
      match l, hl, hshort with
      | [b0], _, _ => exact decode_one b0 hsize
      | [b0, b1], _, _ => exact decode_two b0 b1 hsize
      | [b0, b1, b2], _, _ =>
          have h3 : encodeLoop size [b0, b1, b2] = encodeGroup b0 b1 b2 ++ [] := by
            simp only [List.length_cons, List.length_nil] at hsize
            rw [List.append_nil]
            simp [encodeLoop, encodeTail, hsize]
          rw [h3, decode_three]
          simp [decodeLoop, padded]
      | b0 :: b1 :: b2 :: b3 :: rest, _, h => exact absurd rfl (h b0 b1 b2 b3 rest)

/-- The string is made of groups of four characters. -/
lemma length_encodeLoop (size : ℕ) (l : List UInt8) :
    (encodeLoop size l).length % 4 = 0 ∧ 4 ≤ (encodeLoop size l).length := by
  have htail : ∀ rest, (encodeTail size rest).length = 4 := by
    intro rest
    unfold encodeTail
    split_ifs <;> rfl
  induction l using encodeLoop.induct with
  | case1 b0 b1 b2 b3 rest ih =>
      have hg : (encodeGroup b0 b1 b2).length = 4 := rfl
      unfold encodeLoop
      rw [List.length_append]
      omega
  | case2 l hshort =>
      rw [encodeLoop]
      · have := htail l
        omega
      · exact hshort

/-! ## The whole way -/

namespace SerializeInfo

/-- The payload: what has been written behind the header. -/
def payload (s : SerializeInfo) : List UInt8 := s.buffer.drop 4

/-- The buffer after writing. -/
lemma foldl_put_buffer (vs : List Value) (s : SerializeInfo) :
    (vs.foldl put s).buffer = s.buffer ++ vs.flatMap Value.bytes := by
  induction vs generalizing s with
  | nil => simp
  | cons v vs ih => rw [List.foldl_cons, ih, put, List.flatMap_cons, List.append_assoc]

/-- The buffer with the header filled in. -/
lemma finish_buffer {s : SerializeInfo} {a b c version : UInt8} {payload : List UInt8}
    (h : s.buffer = a :: b :: c :: version :: payload) :
    s.finish.buffer = UInt8.ofNat (payload.length &&& 0xff)
      :: UInt8.ofNat ((payload.length >>> 8) &&& 0xff) :: checksum payload :: version
      :: payload := by
  simp [finish, h]

/-- `ToString` a second time: nothing in the header is read before it is written. -/
lemma finish_finish (s : SerializeInfo) : s.finish.finish.buffer = s.finish.buffer := by
  obtain ⟨buffer, header⟩ := s
  match buffer, header with
  | a :: b :: c :: version :: payload, header =>
      have h : (⟨a :: b :: c :: version :: payload, header⟩ : SerializeInfo).buffer
        = a :: b :: c :: version :: payload := rfl
      rw [finish_buffer (finish_buffer h), finish_buffer h]

end SerializeInfo

namespace DeserializeInfo

/-- The length field holds the length modulo `2 ^ 16`. -/
lemma leNat_length (n : ℕ) (rest : List UInt8) :
    leNat ((UInt8.ofNat (n &&& 0xff) :: UInt8.ofNat ((n >>> 8) &&& 0xff) :: rest).take 2)
      = n % 2 ^ 16 := by
  have m8 : ∀ k, k &&& 0xff = k % 2 ^ 8 := fun k => Nat.and_two_pow_sub_one_eq_mod k 8
  simp only [List.take_succ_cons, List.take_zero, leNat_cons, leNat_nil, UInt8.toNat_ofNat', m8,
    Nat.shiftRight_eq_div_pow]
  omega

/-- What the constructor makes of a printed buffer. -/
lemma create_encodeLoop (version : UInt8) (payload : List UInt8) :
    let buffer := UInt8.ofNat (payload.length &&& 0xff)
      :: UInt8.ofNat ((payload.length >>> 8) &&& 0xff) :: checksum payload :: version :: payload
    create (encodeLoop buffer.length buffer)
      = if payload.length ≤ 65535 then ⟨true, padded buffer, buffer.length, 4⟩ else invalid := by
  intro buffer
  have hlen : buffer.length = payload.length + 4 := by simp [buffer]
  have hchars := length_encodeLoop buffer.length buffer
  have hdec := decodeLoop_encodeLoop buffer.length buffer (by simp [buffer]) rfl
  have hfield : leNat ((padded buffer).take 2) = payload.length % 2 ^ 16 := by
    unfold padded
    exact leNat_length payload.length _
  have hsum : checksum (((padded buffer).take buffer.length).drop 4)
      = (padded buffer).getD 2 0 := by
    unfold padded
    rw [List.take_left' rfl]
    rfl
  have hsize : sizeSub buffer.length 4 = payload.length := by
    rw [sizeSub_of_le (by omega)]
    omega
  unfold create
  rw [if_neg (by omega), hdec]
  simp only [hfield, hsize, hsum, ne_eq, not_true_eq_false, if_false]
  split_ifs with h1 h2 h2
  · rfl
  · omega
  · omega
  · rfl

/-- Reading values that stand at `current`. -/
lemma getAll_of_holds (vs : List Value) (d : DeserializeInfo)
    (h : Holds (memOf d.pbuf) d.current (vs.flatMap Value.bytes))
    (hend : d.current + (vs.flatMap Value.bytes).length ≤ d.pend) :
    d.getAll (vs.map Value.type)
      = some (vs, { d with current := d.current + (vs.flatMap Value.bytes).length }) := by
  induction vs generalizing d with
  | nil => rfl
  | cons v vs ih =>
      rw [List.flatMap_cons] at h hend ⊢
      rw [List.length_append] at hend ⊢
      rw [holds_append] at h
      obtain ⟨hval, hcur⟩ := decodes_read v (memOf d.pbuf) ⟨d.current, d.pend - d.current⟩ h.1
        (by show v.bytes.length ≤ d.pend - d.current; omega)
      have hget : d.get v.type
          = some (v, { d with current := d.current + v.bytes.length }) := by
        rw [get, hval, hcur]
        rfl
      have hmore := ih { d with current := d.current + v.bytes.length } h.2
        (by show d.current + v.bytes.length + _ ≤ d.pend; omega)
      rw [List.map_cons, getAll, hget]
      simp only [Option.bind_eq_bind, Option.bind_some, hmore]
      rw [Nat.add_assoc]

end DeserializeInfo

/-- Only the empty sequence takes no bytes. -/
lemma flatMap_bytes_eq_nil (vs : List Value) (h : (vs.flatMap Value.bytes).length = 0) :
    vs = [] := by
  cases vs with
  | nil => rfl
  | cons v vs =>
      have := length_bytes_pos v
      rw [List.flatMap_cons, List.length_append] at h
      omega

/-- Reading the first `i` of the values that stand behind a header, and whether that is the end. -/
lemma getAll_take (h0 h1 h2 h3 : UInt8) (vs : List Value) {i : ℕ} (hi : i ≤ vs.length) :
    let buffer := h0 :: h1 :: h2 :: h3 :: vs.flatMap Value.bytes
    ∃ d', (⟨true, padded buffer, buffer.length, 4⟩ : DeserializeInfo).getAll
          ((vs.take i).map Value.type) = some (vs.take i, d') ∧
      d'.isEnd = decide (i = vs.length) := by
  intro buffer
  -- The values up to `i` and the ones behind them, as they stand in the payload.
  have hsplit : vs.flatMap Value.bytes
      = (vs.take i).flatMap Value.bytes ++ (vs.drop i).flatMap Value.bytes := by
    rw [← List.flatMap_append, List.take_append_drop]
  have hlen : buffer.length = 4 + ((vs.take i).flatMap Value.bytes).length
      + ((vs.drop i).flatMap Value.bytes).length := by
    have := congrArg List.length hsplit
    simp only [buffer, List.length_cons, List.length_append] at this ⊢
    omega
  have hholds : Holds (memOf (padded buffer)) 4 (vs.flatMap Value.bytes) := by
    have h := holds_memOf_drop (padded buffer) 4
    unfold padded at h ⊢
    exact (holds_append.mp h).1
  rw [hsplit, holds_append] at hholds
  refine ⟨_, DeserializeInfo.getAll_of_holds (vs.take i) _ hholds.1 ?_, ?_⟩
  · show 4 + _ ≤ buffer.length
    omega
  · rw [DeserializeInfo.isEnd, decide_eq_decide]
    show 4 + _ ≥ buffer.length ↔ i = vs.length
    constructor
    · intro h
      have hnil := flatMap_bytes_eq_nil (vs.drop i) (by omega)
      have := congrArg List.length hnil
      rw [List.length_drop, List.length_nil] at this
      omega
    · rintro rfl
      rw [List.drop_length, List.flatMap_nil, List.length_nil] at hlen
      omega

/-- **Serialization round trip.** For every version and every sequence of integers: the string is
valid exactly if the payload has at most 65535 bytes, and then it has the version, reads back as
the integers, in order and with their types, and is at its end after the last of them and not
before. Printing again gives the same string. -/
theorem serialize_roundTrip (version : UInt8) (vs : List Value) :
    let s := vs.foldl SerializeInfo.put (SerializeInfo.create version)
    let d := DeserializeInfo.create s.toString.1
    (d.isValid = true ↔ s.payload.length ≤ 65535) ∧
    (d.isValid = true →
      d.getVersion = version ∧
      ∀ i ≤ vs.length, ∃ d', d.getAll ((vs.take i).map Value.type) = some (vs.take i, d') ∧
        d'.isEnd = decide (i = vs.length)) ∧
    s.toString.2.toString.1 = s.toString.1 := by
  intro s d
  set payload := vs.flatMap Value.bytes with hpayload
  have hbuffer : s.buffer = 0 :: 0 :: 0 :: version :: payload :=
    SerializeInfo.foldl_put_buffer vs (SerializeInfo.create version)
  have hs : s.payload = payload := by rw [SerializeInfo.payload, hbuffer]; rfl
  have hfinish := SerializeInfo.finish_buffer hbuffer
  have hd : d = if payload.length ≤ 65535
      then ⟨true, padded s.finish.buffer, s.finish.buffer.length, 4⟩ else .invalid := by
    show DeserializeInfo.create (encodeLoop s.finish.buffer.length s.finish.buffer) = _
    rw [hfinish]
    exact DeserializeInfo.create_encodeLoop version payload
  have hvalid : d.isValid = true ↔ s.payload.length ≤ 65535 := by
    rw [hs, hd]
    split <;> simp_all [DeserializeInfo.isValid, DeserializeInfo.invalid]
  refine ⟨hvalid, ?_, ?_⟩
  · intro hv
    have hle : payload.length ≤ 65535 := hs ▸ hvalid.mp hv
    rw [if_pos hle] at hd
    rw [hd, hfinish]
    refine ⟨rfl, ?_⟩
    intro i hi
    exact getAll_take _ _ _ _ vs hi
  · show encodeLoop s.finish.finish.buffer.length s.finish.finish.buffer = _
    rw [SerializeInfo.finish_finish]
    rfl

end CocInside.System
