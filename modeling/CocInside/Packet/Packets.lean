import CocInside.Packet.Builder
import CocInside.Ssu.Bounds
import CocInside.Ssu.Truncation

/-!
# The login messages

The generated message classes and the two templates of `ssu::Object` that pack them into a stream
and unpack them from bytes.

* `Object.pack`, `Object.unpack`.
* `csUserLogin`, `scUserLogin`: the messages, as object types. `CSUserLogin.unpackLoop_fuel`: the
  loop over the fields needs no more turns than there are bytes.
* `unpackBuffer_packBuffer`: a packed login unpacks to itself, into any object.
* `BuilderT.pack_eq`: the packet of a message is the packet of its packed bytes.
-/

namespace CocInside.Packet

open CocInside.Lib CocInside.Ssu

/-! ## `ssu::Object` -/

/-- The string after packing: it is grown by `size()` and the bytes are written there.
Source: `Ssu/SsuObject.h`, `Object::pack`. -/
def Object.pack {T : Type} (ty : ObjectType T) (val : T) (buf : List UInt8) : List UInt8 :=
  let pktSize := ty.size val
  if pktSize > 0 then
    let sz := buf.length
    poke (buf ++ List.replicate pktSize 0) sz (ty.packBuffer val)
  else buf

/-- Decode `length` bytes at `buffer` into an object.
Source: `Ssu/SsuObject.h`, `Object::unpack`. -/
def Object.unpack {T : Type} (ty : ObjectType T) (val : T) (mem : Mem) (buffer length : ℕ) :
    Option T :=
  (ty.unpackBuffer val mem ⟨buffer, length⟩).val

/-- Packing appends, if the size is the number of bytes written. -/
lemma Object.pack_eq {T : Type} (ty : ObjectType T) (val : T) (buf : List UInt8)
    (h : (ty.packBuffer val).length = ty.size val) :
    Object.pack ty val buf = buf ++ ty.packBuffer val := by
  rw [Object.pack]
  split
  · rw [poke, List.take_left' rfl, List.drop_eq_nil_of_le (by simp [h]), List.append_nil]
  · have : ty.packBuffer val = [] := List.eq_nil_of_length_eq_zero (by omega)
    rw [this, List.append_nil]

/-! ## `CSUserLogin_0x1` -/

/-- Source: `CocTest/Classes/Packet/PacketsCtoS.h`, `CSUserLogin_0x1`. -/
structure CSUserLogin where
  result : UInt32
  deriving DecidableEq, Repr

namespace CSUserLogin

/-- Source: `PacketsCtoS.cpp`, `CSUserLogin_0x1::packBuffer`. -/
def packBuffer (self : CSUserLogin) : List UInt8 := packUInt32Tag 1 self.result

/-- Source: `PacketsCtoS.cpp`, `CSUserLogin_0x1::size`. -/
def size (self : CSUserLogin) : ℕ := 1 + sizeUInt32 self.result

/-- At most `fuel` fields. A field with another tag is passed over with nothing but its tag.
Source: `PacketsCtoS.cpp`, `CSUserLogin_0x1::unpackBuffer`, `while(leftSize > 0)`. -/
def unpackLoop : ℕ → CSUserLogin → Decoder CSUserLogin
  | 0, self => pure self
  | fuel + 1, self => fun mem c =>
      if c.leftSize = 0 then (pure self : Decoder _) mem c
      else
        (unpackTag >>= fun (tag, type) =>
          if tag = 1 then
            if type ≠ 0 then Decoder.fail
            else unpackUInt32 >>= fun n => unpackLoop fuel ⟨n⟩
          else unpackLoop fuel self) mem c

/-- Source: `PacketsCtoS.cpp`, `CSUserLogin_0x1::unpackBuffer`. -/
def unpackBuffer (self : CSUserLogin) : Decoder CSUserLogin := fun mem c =>
  unpackLoop c.leftSize self mem c

/-- What one field does to the object. -/
def unpackField (fuel : ℕ) (self : CSUserLogin) : UInt32 × UInt8 → Decoder CSUserLogin
  | (tag, type) =>
      if tag = 1 then
        if type ≠ 0 then Decoder.fail
        else unpackUInt32 >>= fun n => unpackLoop fuel ⟨n⟩
      else unpackLoop fuel self

/-- Nothing is left. -/
lemma unpackLoop_done (fuel : ℕ) (self : CSUserLogin) (mem : Mem) {c : Cursor}
    (h : c.leftSize = 0) : unpackLoop fuel self mem c = ⟨some self, c, []⟩ := by
  cases fuel with
  | zero => rfl
  | succ fuel =>
      unfold unpackLoop
      simp only [if_pos h]
      rfl

/-- One more field. -/
lemma unpackLoop_turn (fuel : ℕ) (self : CSUserLogin) (mem : Mem) {c : Cursor}
    (h : c.leftSize ≠ 0) :
    unpackLoop (fuel + 1) self mem c = (unpackTag >>= unpackField fuel self) mem c := by
  unfold unpackLoop
  simp only [if_neg h]
  rfl

/-- A tag is read inside the buffer. -/
lemma safe_unpackTag : Safe unpackTag := safe_unpackUInt32.bind fun _ => Safe.ret _

/-- A tag takes at least one byte. -/
lemma consumes_unpackTag : Consumes unpackTag := consumes_unpackUInt32.bind fun _ => Safe.ret _

/-- Each turn takes a tag, so the bytes left bound the turns: more fuel changes nothing. -/
lemma unpackLoop_fuel {fuel fuel' : ℕ} {mem : Mem} {c : Cursor} (self : CSUserLogin)
    (h : c.leftSize ≤ fuel) (h' : c.leftSize ≤ fuel') :
    unpackLoop fuel self mem c = unpackLoop fuel' self mem c := by
  induction fuel generalizing fuel' self c with
  | zero => rw [unpackLoop_done _ _ _ (by omega), unpackLoop_done _ _ _ (by omega)]
  | succ fuel ih =>
      by_cases h0 : c.leftSize = 0
      · rw [unpackLoop_done _ _ _ h0, unpackLoop_done _ _ _ h0]
      · obtain ⟨fuel', rfl⟩ : ∃ m, fuel' = m + 1 := ⟨fuel' - 1, by omega⟩
        rw [unpackLoop_turn _ _ _ h0, unpackLoop_turn _ _ _ h0]
        refine Decoder.bind_congr ?_
        intro tt htt
        have hlt := consumes_unpackTag mem c (by simp [htt])
        obtain ⟨tag, type⟩ := tt
        rw [unpackField, unpackField]
        split
        · split
          · rfl
          · refine Decoder.bind_congr ?_
            intro n hn
            have hle := (safe_unpackUInt32 mem (unpackTag mem c).cur).le
            exact ih _ (by omega) (by omega)
        · exact ih _ (by omega) (by omega)

/-- The fields are read inside the buffer. By induction on the fuel. -/
lemma safe_unpackLoop (fuel : ℕ) (self : CSUserLogin) : Safe (unpackLoop fuel self) := by
  induction fuel generalizing self with
  | zero => exact Safe.ret self
  | succ fuel ih =>
      have hfield : ∀ tt, Safe (unpackField fuel self tt) := by
        rintro ⟨tag, type⟩
        rw [unpackField]
        split
        · split
          · exact Safe.fail
          · exact safe_unpackUInt32.bind fun n => ih ⟨n⟩
        · exact ih self
      intro mem c
      by_cases h0 : c.leftSize = 0
      · rw [unpackLoop_done _ _ _ h0]
        exact Safe.ret self mem c
      · rw [unpackLoop_turn _ _ _ h0]
        exact safe_unpackTag.bind hfield mem c

/-- The decoder respects the size it is given. -/
lemma safe_unpackBuffer (self : CSUserLogin) : Safe (unpackBuffer self) := fun mem c =>
  safe_unpackLoop c.leftSize self mem c

/-- `size` is the length of what `packBuffer` writes. -/
lemma length_packBuffer (self : CSUserLogin) : self.packBuffer.length = self.size := by
  unfold packBuffer packUInt32Tag
  rw [List.length_append, length_packUInt32, size]
  rfl

/-- **A packed login unpacks to itself**, into any object. -/
lemma unpackBuffer_packBuffer (self into : CSUserLogin) {mem : Mem} {a : ℕ}
    (h : Holds mem a self.packBuffer) :
    (unpackBuffer into mem ⟨a, self.size⟩).val = some self := by
  have hsize := self.length_packBuffer
  unfold packBuffer packUInt32Tag at h hsize
  rw [List.length_append] at hsize
  have htag : (packTag 1 0).length = 1 := rfl
  rw [holds_append] at h
  obtain ⟨hv, hc⟩ := decodes_unpackTag 1 (by decide) 0 (by decide) mem ⟨a, self.size⟩ h.1
    (by show (packTag 1 0).length ≤ self.size; omega)
  have h2 : Holds mem (unpackTag mem ⟨a, self.size⟩).cur.buf (packUInt32 self.result) := by
    rw [hc]
    exact h.2
  obtain ⟨hv', hc'⟩ := decodes_unpackUInt32 self.result mem (unpackTag mem ⟨a, self.size⟩).cur h2
    (by rw [hc]; show _ ≤ self.size - _; omega)
  obtain ⟨n, hn⟩ : ∃ n, self.size = n + 1 := ⟨sizeUInt32 self.result, by rw [size]; omega⟩
  have hloop : unpackBuffer into mem ⟨a, self.size⟩
      = (unpackTag >>= unpackField n into) mem ⟨a, self.size⟩ := by
    unfold unpackBuffer
    simp only [hn]
    exact unpackLoop_turn n into mem (by simp)
  rw [hloop, Decoder.bind_of_some hv, unpackField, if_pos rfl, if_neg (by simp),
    Decoder.bind_of_some hv', unpackLoop_done]
  rw [hc', hc]
  show self.size - _ - _ = 0
  omega

end CSUserLogin

/-- The class as an object type. The constructor leaves `_result` unset; a fresh object is taken
to hold 0. -/
def csUserLogin : ObjectType CSUserLogin where
  fresh := ⟨0⟩
  size := CSUserLogin.size
  packBuffer := CSUserLogin.packBuffer
  unpackBuffer := CSUserLogin.unpackBuffer

/-- The three functions of the class agree. -/
lemma csUserLogin_coherent : csUserLogin.Coherent where
  length_packBuffer := CSUserLogin.length_packBuffer
  unpackBuffer_packBuffer v _ _ h := v.unpackBuffer_packBuffer _ h

/-- A login as field 2 and the string `hi` as field 3 are read back in front of the number 300 as field
1, which is refused when it is cut after the first byte of its value. -/
theorem truncation_detected_login :
    TruncationDetected
      [.ofKind (.object CSUserLogin csUserLogin) 2 (⟨300⟩ : CSUserLogin),
        .ofKind .string 3 ([104, 105] : List UInt8)]
      (.ofKind .uint32 1 (300 : UInt32)) [8, 172] := by
  have hbytes : (Field.ofKind .uint32 1 (300 : UInt32)).bytes = [8, 172, 2] := by decide
  refine (truncation_detected_iff _ (.ofKind .uint32 1 (300 : UInt32)) [8, 172] ?_ ?_ ?_).mpr ⟨?_, ?_⟩
  · rw [hbytes]
    exact ⟨[2], rfl⟩
  · rw [hbytes]
    decide
  · intro g hg
    simp only [List.cons_append, List.nil_append, List.mem_cons, List.not_mem_nil, or_false] at hg
    obtain rfl | rfl | rfl := hg
    · exact ⟨csUserLogin_coherent, by decide⟩
    · trivial
    · trivial
  · intro g hg
    simp only [List.mem_cons, List.not_mem_nil, or_false] at hg
    obtain rfl | rfl := hg
    · trivial
    · show ([104, 105] : List UInt8).length < 2 ^ 32
      decide
  · exact Nat.lt_succ_self 2

/-! ## `SCUserLogin_0x1` -/

/-- A message without fields.
Source: `CocTest/Classes/Packet/PacketsStoC.cpp`, `SCUserLogin_0x1`. -/
def scUserLogin : ObjectType Unit where
  fresh := ()
  size _ := 0
  packBuffer _ := []
  unpackBuffer self := pure self

/-- It takes nothing, so a packed field of it with any length in front is never done. -/
lemma scUserLogin_packed_diverges {mem : Mem} {c : Cursor} {n : UInt32}
    (hn : (unpackUInt32 mem c).val = some n) (hpos : 0 < n.toNat) (fuel : ℕ) (val : List Unit) :
    unpackRepeatedPackedPtr fuel val (unpackObjectPtr scUserLogin) mem c = none := by
  have hsafe : Safe (unpackObjectPtr scUserLogin) := Safe.ret ()
  unfold unpackRepeatedPackedPtr unpackRepeatedPacked
  simp only [hn]
  rw [packedLoop_stall hsafe (by simpa using hpos) (by simp [unpackObjectPtr, scUserLogin,
    Decoder.pure_apply]) (by simp [unpackObjectPtr, scUserLogin, Decoder.pure_apply])]
  rfl

/-! ## `BuilderT` -/

/-- A builder whose `packContent` packs the object into the stream.
Source: `CocTest/Classes/Packet/Builder.h`, `BuilderT::packContent`. -/
def BuilderT.pack {T : Type} (ty : ObjectType T) (op : UInt16) (val : T) : List UInt8 :=
  Builder.pack op (Object.pack ty val)

/-- The packet of a message is the packet of its packed bytes. -/
lemma BuilderT.pack_eq {T : Type} {ty : ObjectType T} (hty : ty.Coherent) (op : UInt16)
    (val : T) : BuilderT.pack ty op val = Builder.packet op (ty.packBuffer val) := by
  simp only [BuilderT.pack, Builder.packet, Builder.pack,
    Object.pack_eq ty val _ (hty.length_packBuffer val)]

end CocInside.Packet
