import CocInside.Lib.Bytes

/-!
# Outgoing packets

A packet is a 6-byte header (three bytes of payload size, a key byte, two bytes of opcode, all
little-endian) and the payload. `Builder::pack` writes the header by hand around the content.

* `Frame`: the layout, with any key byte. `Frame.size_bytes`, `Frame.key_bytes`, `Frame.op_bytes`:
  the fields of the header as a reader finds them, whatever follows the frame.
* `Builder.pack`, `Builder.packet_eq`: the builder writes a frame with key byte zero.
-/

namespace CocInside.Packet

open CocInside.Lib

/-! ## The layout -/

/-- A packet on the wire. The payload size has 24 bits. -/
structure Frame where
  key : UInt8
  op : UInt16
  payload : List UInt8
  payload_lt : payload.length < 2 ^ 24

namespace Frame

/-- The bytes of a packet. -/
def bytes (f : Frame) : List UInt8 :=
  leBytes 3 f.payload.length ++ [f.key] ++ leBytes 2 f.op.toNat ++ f.payload

/-- A frame is its payload and six bytes. -/
@[simp] lemma length_bytes (f : Frame) : f.bytes.length = f.payload.length + 6 := by
  simp only [bytes, List.length_append, length_leBytes, List.length_singleton]
  omega

/-- The first word of the header: the size below, the key byte above. -/
lemma leNat_take_four (f : Frame) (rest : List UInt8) :
    leNat ((f.bytes ++ rest).take 4) = f.payload.length + 2 ^ 24 * f.key.toNat := by
  have h : (f.bytes ++ rest).take 4 = leBytes 3 f.payload.length ++ [f.key] := by
    simp only [bytes, List.append_assoc]
    rw [← List.append_assoc (leBytes 3 _), List.take_left' (by simp)]
  rw [h, leNat_append, leNat_leBytes_of_lt f.payload_lt]
  simp

/-- The size field. -/
lemma size_bytes (f : Frame) (rest : List UInt8) :
    leNat ((f.bytes ++ rest).take 4) &&& 0x00FFFFFF = f.payload.length := by
  have h := f.payload_lt
  rw [leNat_take_four]
  show (f.payload.length + 2 ^ 24 * f.key.toNat) &&& (2 ^ 24 - 1) = _
  rw [Nat.and_two_pow_sub_one_eq_mod]
  omega

/-- The key byte. -/
lemma key_bytes (f : Frame) (rest : List UInt8) :
    leNat ((f.bytes ++ rest).take 4) >>> 24 = f.key.toNat := by
  have h := f.payload_lt
  rw [leNat_take_four, Nat.shiftRight_eq_div_pow]
  omega

/-- The opcode. -/
lemma op_bytes (f : Frame) (rest : List UInt8) :
    leNat (((f.bytes ++ rest).drop 4).take 2) = f.op.toNat := by
  have h : ((f.bytes ++ rest).drop 4).take 2 = leBytes 2 f.op.toNat := by
    simp only [bytes, List.append_assoc]
    rw [← List.append_assoc (leBytes 3 _), List.drop_left' (by simp), List.take_left' (by simp)]
  rw [h, leNat_leBytes_of_lt f.op.toNat_lt]

/-- What follows the header. -/
lemma drop_six_bytes (f : Frame) (rest : List UInt8) :
    (f.bytes ++ rest).drop 6 = f.payload ++ rest := by
  unfold bytes
  rw [List.append_assoc, List.drop_left' (by simp)]

end Frame

/-! ## Building -/

namespace Builder

/-- `new(std::nothrow) std::string` succeeds. `packContent` is what the virtual function of that
name does to the stream.
Source: `CocTest/Classes/Packet/Builder.cpp`, `Builder::pack`. -/
def pack (op : UInt16) (packContent : List UInt8 → List UInt8) : List UInt8 :=
  let s := List.replicate 6 0
  let s := poke s 4 (leBytes 2 op.toNat)
  let s := packContent s
  let sz := s.length - 6
  poke s 0 (leBytes 3 sz)

/-- The packet of a builder whose `packContent` appends `content`. -/
def packet (op : UInt16) (content : List UInt8) : List UInt8 := pack op (· ++ content)

/-- A packet is its content and six bytes. -/
@[simp] lemma length_packet (op : UInt16) (content : List UInt8) :
    (packet op content).length = content.length + 6 := by
  simp [packet, pack, poke, leBytes]

/-- The builder writes a frame with key byte zero. -/
lemma packet_eq (op : UInt16) (content : List UInt8) (h : content.length < 2 ^ 24) :
    packet op content = (⟨0, op, content, h⟩ : Frame).bytes := by
  simp [packet, pack, Frame.bytes, poke, leBytes]

end Builder

end CocInside.Packet
