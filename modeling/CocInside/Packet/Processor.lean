import CocInside.Lib.Runs
import CocInside.Packet.Packets
import CocInside.System.MsgQueue
import CocInside.TcpNetwork.ClientNet

/-!
# Incoming packets

`Processor::parseInit` takes one packet off the front of the client's pool: it reads the header,
copies the payload into a message, undoes the optional XOR cipher, looks the handler up by opcode
and queues the message. The pool is shifted on the way by `ClientNet::drainDataBuf`.

* `decryptPacket`, `Processor.addHandler`, `parseInit`: the functions. A table access beyond the
  end of the table is undefined and has no result.
* `parseInit_frame`: what a call does when the pool starts with a frame.
* `pack_parseInit`: build, parse and unpack.
* `exactConsumption_iff_drains`: when a call removes exactly the frame it parsed, and what repeated
  calls deliver as long as they do.

Source: `CocTest/Classes/Packet/Processor.cpp`, `CocTest/Classes/Packet/Processor.h`,
`CocTest/Classes/Packet/Handler/Handler.h`.
-/

namespace CocInside.Packet

open CocInside.Lib CocInside.Ssu CocInside.System CocInside.TcpNetwork

/-! ## The cipher -/

/-- The loop over the payload; `ch` is the state of the key stream.
Source: `Processor.cpp`, `decryptPacket`. -/
def decryptBytes : UInt32 → List UInt8 → List UInt8
  | _, [] => []
  | ch, b :: buf =>
      let ch := (ch * 97) % 251
      (b ^^^ ch.toUInt8) :: decryptBytes ch buf

/-- Source: `Processor.cpp`, `decryptPacket`. -/
def decryptPacket (key : UInt32) (op : UInt16) (buf : List UInt8) : UInt16 × List UInt8 :=
  if key < 2 then (op, buf)
  else
    let newkey := (((key - 2) * 33721) % 65537) % 251
    let ch2 := newkey
    let ch := (ch2 * 97) % 251
    (op ^^^ ((ch <<< 8) + ch2).toUInt16, decryptBytes ch buf)

/-! ## The processor -/

/-- A message for an initial handler, with the payload that stands behind it in memory.
Source: `Handler.h`, `HandlerMsgHeader`, `HandlerMsgInit`. -/
structure HandlerMsgInit (H : Type) where
  handler : H
  size : ℕ
  sessionId : UInt32
  fromGateway : UInt32
  remoteAddr : UInt32
  payload : List UInt8
  deriving DecidableEq

/-- `none` in a table is `NULL`.
Source: `Processor.h`, `Processor`. -/
structure Processor (H : Type) where
  queue : MsgQueue (HandlerMsgInit H)
  initHandlers : List (Option H)
  playerHandlers : List (Option H)

/-- The inherited `MsgQueue::pushMsg`. -/
def Processor.pushMsg {H : Type} (p : Processor H) (msg : HandlerMsgInit H) : Processor H :=
  { p with queue := p.queue.pushMsg msg }

/-- A message is put at the end of the queue that is filled. -/
@[simp] lemma Processor.pushMsg_current {H : Type} (p : Processor H) (msg : HandlerMsgInit H) :
    (p.pushMsg msg).queue.current = p.queue.current ++ [msg] := MsgQueue.pushMsg_current _ _

/-- A message that is pushed changes the processor. -/
lemma Processor.pushMsg_ne {H : Type} (p : Processor H) (msg : HandlerMsgInit H) :
    p.pushMsg msg ≠ p := by
  intro h
  simpa using congrArg (fun q => q.queue.current.length) h

/-- `vector::resize`, filling with `NULL`. -/
def resizeTable {H : Type} (table : List (Option H)) (n : ℕ) : List (Option H) :=
  table.take n ++ List.replicate (n - table.length) none

/-- Source: `Processor.cpp`, `Processor::addHandler`. -/
def Processor.addHandler {H : Type} (p : Processor H) (op : UInt16) (type : UInt8) (handler : H) :
    Processor H :=
  if type &&& 0x1 ≠ 0 then
    if p.initHandlers.length < op.toNat then
      { p with initHandlers := (resizeTable p.initHandlers (op.toNat + 1)).set op.toNat handler }
    else p
  else if type &&& 0x2 ≠ 0 then
    if p.playerHandlers.length < op.toNat then
      { p with playerHandlers :=
          (resizeTable p.playerHandlers (op.toNat + 1)).set op.toNat handler }
    else p
  else p

/-- The two globals `_clientnet` and `_processor`. -/
structure World (H : Type) where
  net : ClientNet
  processor : Processor H

section parse

variable {H : Type}

/-- `hdr.size & 0x00FFFFFF` of a header. -/
def frameSize (evbuf : List UInt8) : ℕ := leNat (evbuf.take 4) &&& 0x00FFFFFF

/-- `hdr.size >> 24` of a header. -/
def frameKey (evbuf : List UInt8) : UInt32 := UInt32.ofNat (leNat (evbuf.take 4) >>> 24)

/-- `hdr.op` of a header. -/
def frameOp (evbuf : List UInt8) : UInt16 := UInt16.ofNat (leNat ((evbuf.drop 4).take 2))

/-- Whether `malloc` succeeds is `alloc`. `none` is an access beyond the handler table.
Source: `Processor.cpp`, `Processor::parseInit`. -/
def parseInit (w : World H) (evbuf : List UInt8) (alloc : Bool) (len : ℤ) (data addr : UInt32) :
    Option (Bool × World H) :=
  if len < 6 then some (false, w)
  else
    let sz := frameSize evbuf
    if (sz : ℤ) + 6 > len then some (false, w)
    else
      let key := frameKey evbuf
      if !alloc then some (true, { w with net := w.net.drainDataBuf (sz + 6) })
      else
        let net := w.net.drainDataBuf 6
        let buf := net.copyDataBuf sz
        let opBuf := decryptPacket key (frameOp evbuf) buf
        match w.processor.initHandlers[opBuf.1.toNat]? with
        | none => none
        | some none => some (true, { w with net := net })
        | some (some hdl) =>
            let msg := ⟨hdl, sz, data, 0xFFFFFFFF, addr, opBuf.2⟩
            some (true, ⟨net, w.processor.pushMsg msg⟩)

/-! ## A frame at the front of the pool -/

/-- The message a frame becomes, if a handler is registered for its opcode. -/
def Frame.message (f : Frame) (handlers : List (Option H)) (data addr : UInt32) :
    Option (HandlerMsgInit H) :=
  let opBuf := decryptPacket f.key.toUInt32 f.op f.payload
  match handlers[opBuf.1.toNat]? with
  | some (some hdl) => some ⟨hdl, f.payload.length, data, 0xFFFFFFFF, addr, opBuf.2⟩
  | _ => none

/-- The size of a frame is read back. -/
lemma frameSize_bytes (f : Frame) (rest : List UInt8) :
    frameSize (f.bytes ++ rest) = f.payload.length := f.size_bytes rest

/-- The key of a frame is read back. -/
lemma frameKey_bytes (f : Frame) (rest : List UInt8) :
    frameKey (f.bytes ++ rest) = f.key.toUInt32 := by
  unfold frameKey
  rw [f.key_bytes]
  simp

/-- The opcode of a frame is read back. -/
lemma frameOp_bytes (f : Frame) (rest : List UInt8) : frameOp (f.bytes ++ rest) = f.op := by
  unfold frameOp
  rw [f.op_bytes]
  simp

/-- What is copied after the header has been drained. -/
lemma copyDataBuf_drainDataBuf (net : ClientNet) {sz : ℕ} (h : sz + 6 ≤ inMaxPoolSize) :
    (net.drainDataBuf 6).copyDataBuf sz = (net.dataBuf.bytes.drop 6).take sz := by
  rw [← net.take_drainDataBuf 6, List.take_take, Nat.min_eq_left (by omega)]
  rfl

/-- The frame is not there in full. -/
lemma parseInit_short {w : World H} {evbuf : List UInt8} {alloc : Bool} {len : ℤ}
    {data addr : UInt32} (h : len < frameSize evbuf + 6) :
    parseInit w evbuf alloc len data addr = some (false, w) := by
  unfold parseInit
  split
  · rfl
  · exact if_pos (by omega)

/-- There is no memory for the message: the whole frame is drained. -/
lemma parseInit_noAlloc {w : World H} {evbuf : List UInt8} {len : ℤ} {data addr : UInt32}
    (h : ¬ len < frameSize evbuf + 6) :
    parseInit w evbuf false len data addr
      = some (true, { w with net := w.net.drainDataBuf (frameSize evbuf + 6) }) := by
  unfold parseInit
  rw [if_neg (by omega)]
  simp only [if_neg (show ¬ (frameSize evbuf : ℤ) + 6 > len by omega)]
  rfl

/-- A frame with a handler is queued; six bytes are drained. -/
lemma parseInit_frame {w : World H} {f : Frame} {msg : HandlerMsgInit H} {len : ℤ}
    {data addr : UInt32} (hpool : f.bytes <+: w.net.dataBuf.bytes)
    (hlen : (f.payload.length : ℤ) + 6 ≤ len)
    (hmsg : f.message w.processor.initHandlers data addr = some msg) :
    parseInit w w.net.dataBuf.bytes true len data addr
      = some (true, ⟨w.net.drainDataBuf 6, w.processor.pushMsg msg⟩) := by
  obtain ⟨rest, hrest⟩ := hpool
  have hfit : f.payload.length + 6 ≤ inMaxPoolSize := by
    have := congrArg List.length hrest
    rw [List.length_append, Frame.length_bytes, Buf.length_eq] at this
    omega
  have hbuf : (w.net.drainDataBuf 6).copyDataBuf f.payload.length = f.payload := by
    rw [copyDataBuf_drainDataBuf _ hfit, ← hrest, f.drop_six_bytes, List.take_left' rfl]
  unfold parseInit
  rw [if_neg (by omega), ← hrest, frameSize_bytes, frameKey_bytes, frameOp_bytes]
  simp only [hbuf, if_neg (show ¬ (f.payload.length : ℤ) + 6 > len by omega), Bool.not_true,
    Bool.false_eq_true, if_false]
  unfold Frame.message at hmsg
  -- The table entry that made the message is the one the call finds.
  cases hh : w.processor.initHandlers[(decryptPacket f.key.toUInt32 f.op f.payload).1.toNat]? with
  | none => simp [hh] at hmsg
  | some e =>
      cases e with
      | none => simp [hh] at hmsg
      | some hdl =>
          simp only [hh, Option.some.injEq] at hmsg
          rw [← hmsg]

/-! ## Build, parse, unpack -/

/-- A frame of the builder is not encrypted. -/
lemma message_packet {op : UInt16} {c : List UInt8} (hc : c.length < 2 ^ 24)
    {handlers : List (Option H)} {hdl : H} (hreg : handlers[op.toNat]? = some (some hdl))
    (data addr : UInt32) :
    (⟨0, op, c, hc⟩ : Frame).message handlers data addr
      = some ⟨hdl, c.length, data, 0xFFFFFFFF, addr, c⟩ := by
  simp [Frame.message, decryptPacket, hreg]

/-- The size field of a pool that starts with a built packet. -/
lemma frameSize_packet {op : UInt16} {c pool : List UInt8} (hc : c.length < 2 ^ 24)
    (hpool : Builder.packet op c <+: pool) : frameSize pool = c.length := by
  obtain ⟨rest, hrest⟩ := hpool
  rw [← hrest, Builder.packet_eq op c hc, frameSize_bytes]

/-- A built packet is queued with its content. -/
lemma parseInit_packet {w : World H} {op : UInt16} {c : List UInt8} {hdl : H} {len : ℤ}
    (hreg : w.processor.initHandlers[op.toNat]? = some (some hdl)) (hc : c.length < 2 ^ 24)
    (hpool : Builder.packet op c <+: w.net.dataBuf.bytes) (hlen : (c.length : ℤ) + 6 ≤ len)
    (data addr : UInt32) :
    parseInit w w.net.dataBuf.bytes true len data addr
      = some (true, ⟨w.net.drainDataBuf 6,
          w.processor.pushMsg ⟨hdl, c.length, data, 0xFFFFFFFF, addr, c⟩⟩) := by
  rw [Builder.packet_eq op c hc] at hpool
  exact parseInit_frame hpool hlen (message_packet hc hreg data addr)

/-- **Build, parse, unpack.** With a built packet at the front of the pool and a handler registered
for its opcode, a call that is given all of it returns true, and queues one message with exactly
the content if there is memory for it; if there is none it queues nothing. A call that is given
less returns false and changes nothing. A login message built, parsed and unpacked, into any
object, is the same login. -/
theorem pack_parseInit (w : World H) (data addr : UInt32) :
    (∀ (op : UInt16) (hdl : H) (c : List UInt8) (len : ℤ),
      w.processor.initHandlers[op.toNat]? = some (some hdl) → c.length < 2 ^ 24 →
      Builder.packet op c <+: w.net.dataBuf.bytes →
        ((c.length : ℤ) + 6 ≤ len →
          (∃ net, parseInit w w.net.dataBuf.bytes true len data addr
            = some (true, ⟨net,
                w.processor.pushMsg ⟨hdl, c.length, data, 0xFFFFFFFF, addr, c⟩⟩)) ∧
          ∃ net, parseInit w w.net.dataBuf.bytes false len data addr
            = some (true, ⟨net, w.processor⟩)) ∧
        (len < (c.length : ℤ) + 6 →
          ∀ alloc, parseInit w w.net.dataBuf.bytes alloc len data addr = some (false, w))) ∧
    ∀ (v : UInt32) (into : CSUserLogin) (hdl : H) (len : ℤ),
      w.processor.initHandlers[(0x1 : UInt16).toNat]? = some (some hdl) →
      BuilderT.pack csUserLogin 0x1 ⟨v⟩ <+: w.net.dataBuf.bytes →
      ((BuilderT.pack csUserLogin 0x1 ⟨v⟩).length : ℤ) ≤ len →
        ∃ net msg, parseInit w w.net.dataBuf.bytes true len data addr
            = some (true, ⟨net, w.processor.pushMsg msg⟩) ∧
          Object.unpack csUserLogin into (memOf msg.payload) 0 msg.size = some ⟨v⟩ := by
  constructor
  · intro op hdl c len hreg hc hpool
    have hsize := frameSize_packet hc hpool
    refine ⟨fun hlen => ⟨?_, ?_⟩, ?_⟩
    · exact ⟨_, parseInit_packet hreg hc hpool hlen data addr⟩
    · exact ⟨_, parseInit_noAlloc (by omega)⟩
    · intro hlen alloc
      exact parseInit_short (by omega)
  · intro v into hdl len hreg hpool hlen
    rw [BuilderT.pack_eq csUserLogin_coherent] at hpool hlen
    rw [Builder.length_packet] at hlen
    -- A login takes at most six bytes.
    have hlogin : (csUserLogin.packBuffer ⟨v⟩).length = CSUserLogin.size ⟨v⟩ :=
      CSUserLogin.length_packBuffer ⟨v⟩
    have hsmall : CSUserLogin.size ⟨v⟩ < 2 ^ 24 := by
      simp only [CSUserLogin.size, sizeUInt32]
      split_ifs <;> omega
    refine ⟨_, _, parseInit_packet hreg (by omega) hpool (by omega) data addr, ?_⟩
    rw [hlogin]
    exact CSUserLogin.unpackBuffer_packBuffer ⟨v⟩ into (holds_memOf _)

/-- A connected client with the given bytes in its pool, and the given handlers. -/
def World.holding (handlers : List (Option H)) (pool : List UInt8) : World H where
  net := { ClientNet.create true with dataBuf := (Buf.zero _).overwrite 0 pool }
  processor := ⟨.empty, handlers, []⟩

/-- The pool that holds some bytes, and zeros behind them. -/
lemma World.pool_holding (handlers : List (Option H)) {pool : List UInt8}
    (h : pool.length ≤ inMaxPoolSize) :
    (World.holding handlers pool).net.dataBuf.bytes
      = pool ++ List.replicate (inMaxPoolSize - pool.length) 0 := by
  show ((Buf.zero _).overwrite 0 pool).bytes = _
  rw [Buf.overwrite_bytes (by omega)]
  simp [Buf.zero]

/-- A login with result 5 for session 3 from address 4. -/
theorem pack_parseInit_login :
    ∃ net msg, parseInit (World.holding [none, some ()] (BuilderT.pack csUserLogin 0x1 ⟨5⟩))
        (World.holding [none, some ()] (BuilderT.pack csUserLogin 0x1 ⟨5⟩)).net.dataBuf.bytes
        true 8 3 4
      = some (true, ⟨net, (World.holding [none, some ()]
          (BuilderT.pack csUserLogin 0x1 ⟨5⟩)).processor.pushMsg msg⟩) ∧
      Object.unpack csUserLogin ⟨0⟩ (memOf msg.payload) 0 msg.size = some ⟨5⟩ := by
  have hpool := World.pool_holding [none, some ()]
    (show (BuilderT.pack csUserLogin 0x1 ⟨5⟩).length ≤ inMaxPoolSize by decide)
  exact (pack_parseInit _ 3 4).2 5 ⟨0⟩ () 8 rfl ⟨_, hpool.symm⟩ (by decide)

/-- Without memory for the message the same login is dropped: its handler is registered and all of
it is there, the call returns true and queues nothing. -/
theorem not_queued_without_memory :
    let w := World.holding [none, some ()] (Builder.packet 0x1 [8, 5])
    w.processor.initHandlers[(0x1 : UInt16).toNat]? = some (some ()) ∧
      Builder.packet 0x1 [8, 5] <+: w.net.dataBuf.bytes ∧
      ¬ ∃ net msg, parseInit w w.net.dataBuf.bytes false 8 3 4
        = some (true, ⟨net, w.processor.pushMsg msg⟩) := by
  intro w
  have hpool := World.pool_holding [none, some ()]
    (show (Builder.packet 0x1 [8, 5]).length ≤ inMaxPoolSize by decide)
  refine ⟨rfl, ⟨_, hpool.symm⟩, ?_⟩
  rintro ⟨net, msg, h⟩
  have hsize : frameSize w.net.dataBuf.bytes = 2 :=
    frameSize_packet (by decide) ⟨_, hpool.symm⟩
  rw [parseInit_noAlloc (by rw [hsize]; decide)] at h
  have hp := congrArg World.processor (Prod.ext_iff.mp (Option.some.inj h)).2
  exact Processor.pushMsg_ne _ msg hp.symm

/-! ## Exact consumption -/

/-- A call of `parseInit` on the pool. -/
structure ParseCall where
  alloc : Bool
  len : ℤ
  data : UInt32
  addr : UInt32

/-- The call has a result. If it is false, nothing changed; if it is true, exactly the frame at
the front has been removed from the pool. -/
def ExactConsumption (w : World H) (c : ParseCall) : Prop :=
  ∃ b w', parseInit w w.net.dataBuf.bytes c.alloc c.len c.data c.addr = some (b, w') ∧
    (b = false → w' = w) ∧
    (b = true → w'.net.dataBuf.bytes.take
        (inMaxPoolSize - (frameSize w.net.dataBuf.bytes + 6))
      = w.net.dataBuf.bytes.drop (frameSize w.net.dataBuf.bytes + 6))

/-- The opcode of a header, decrypted. -/
def frameOpcode (evbuf : List UInt8) : UInt16 :=
  (decryptPacket (frameKey evbuf) (frameOp evbuf) []).1

/-- The frame is not there in full, or there is no memory for the message, or the opcode is inside
the handler table and the pool behind the header repeats with the size of the payload as its
period, as it does when that size is zero. -/
def Drains (w : World H) (c : ParseCall) : Prop :=
  c.len < frameSize w.net.dataBuf.bytes + 6 ∨ c.alloc = false ∨
    ((frameOpcode w.net.dataBuf.bytes).toNat < w.processor.initHandlers.length ∧
      ∀ i, i + (frameSize w.net.dataBuf.bytes + 6) < inMaxPoolSize →
        w.net.dataBuf.bytes[i + 6]?
          = w.net.dataBuf.bytes[i + (frameSize w.net.dataBuf.bytes + 6)]?)

/-- The opcode is deciphered without the payload. -/
lemma decryptPacket_fst (key : UInt32) (op : UInt16) (buf : List UInt8) :
    (decryptPacket key op buf).1 = (decryptPacket key op []).1 := by
  unfold decryptPacket
  split <;> rfl

/-- A call with memory and the whole frame leaves the pool drained by the header alone, if it has a
result at all. -/
lemma parseInit_alloc (w : World H) {evbuf : List UInt8} {len : ℤ} (data addr : UInt32)
    (h : ¬ len < frameSize evbuf + 6) :
    (w.processor.initHandlers.length ≤ (frameOpcode evbuf).toNat ∧
      parseInit w evbuf true len data addr = none) ∨
    ((frameOpcode evbuf).toNat < w.processor.initHandlers.length ∧
      ∃ p, parseInit w evbuf true len data addr
        = some (true, ⟨w.net.drainDataBuf 6, p⟩)) := by
  unfold parseInit
  rw [if_neg (by omega), frameOpcode]
  simp only [if_neg (show ¬ (frameSize evbuf : ℤ) + 6 > len by omega), Bool.not_true,
    Bool.false_eq_true, if_false]
  rw [decryptPacket_fst _ _ ((w.net.drainDataBuf 6).copyDataBuf _)]
  generalize (decryptPacket (frameKey evbuf) (frameOp evbuf) []).1.toNat = i
  by_cases hi : i < w.processor.initHandlers.length
  · refine .inr ⟨hi, ?_⟩
    rw [List.getElem?_eq_getElem hi]
    cases w.processor.initHandlers[i] with
    | none => exact ⟨_, rfl⟩
    | some hdl => exact ⟨_, rfl⟩
  · refine .inl ⟨by omega, ?_⟩
    rw [List.getElem?_eq_none (by omega)]

/-- A list shifted by six agrees with the list shifted by `k + 6` where it repeats every `k`. -/
lemma take_drop_eq_drop_iff {pool : List UInt8} {n k : ℕ} (hn : pool.length = n) :
    (pool.drop 6).take (n - (k + 6)) = pool.drop (k + 6) ↔
      ∀ i, i + (k + 6) < n → pool[i + 6]? = pool[i + (k + 6)]? := by
  constructor
  · intro h i hi
    have hget := congrArg (fun l => l[i]?) h
    simp only [List.getElem?_take, List.getElem?_drop] at hget
    rw [if_pos (by omega)] at hget
    rwa [Nat.add_comm i 6, Nat.add_comm i (k + 6)]
  · intro h
    refine List.ext_getElem? ?_
    intro i
    rw [List.getElem?_take, List.getElem?_drop, List.getElem?_drop]
    split
    · rw [Nat.add_comm 6 i, Nat.add_comm (k + 6) i]
      exact h i (by omega)
    · rw [List.getElem?_eq_none (by omega)]

/-- One call: exact consumption is exactly the condition. -/
lemma exactConsumption_iff (w : World H) (c : ParseCall) :
    ExactConsumption w c ↔ Drains w c := by
  unfold ExactConsumption Drains
  set pool := w.net.dataBuf.bytes with hpool
  have hN : pool.length = inMaxPoolSize := w.net.dataBuf.length_eq
  by_cases hshort : c.len < frameSize pool + 6
  · refine iff_of_true ⟨_, _, parseInit_short hshort, fun _ => rfl, ?_⟩ (.inl hshort)
    intro h
    cases h
  · cases halloc : c.alloc with
    | false =>
        refine iff_of_true ⟨_, _, parseInit_noAlloc hshort, ?_, ?_⟩
          (.inr (.inl rfl))
        · intro h
          cases h
        · intro _
          exact w.net.take_drainDataBuf _
    | true =>
        -- With memory only the header is drained; the rest is a question about the bytes.
        have hdrain : (w.net.drainDataBuf 6).dataBuf.bytes.take
            (inMaxPoolSize - (frameSize pool + 6))
            = (pool.drop 6).take (inMaxPoolSize - (frameSize pool + 6)) := by
          rw [hpool, ← w.net.take_drainDataBuf 6, List.take_take, Nat.min_eq_left (by omega)]
        simp only [hshort, Bool.true_eq_false, false_or]
        rcases parseInit_alloc w c.data c.addr hshort with ⟨hi, hnone⟩ | ⟨hi, p, hsome⟩
        · refine iff_of_false ?_ (fun h => absurd h.1 (by omega))
          rintro ⟨b, w', h, -⟩
          rw [hnone] at h
          cases h
        · rw [← take_drop_eq_drop_iff hN, ← hdrain]
          constructor
          · rintro ⟨b, w', h, -, htrue⟩
            rw [hsome] at h
            cases h
            exact ⟨hi, htrue rfl⟩
          · rintro ⟨-, h⟩
            refine ⟨_, _, hsome, ?_, fun _ => h⟩
            intro h
            cases h

/-! ## Repeated calls -/

/-- A world as a machine whose events are the calls on its pool. -/
def parseMachine (w : World H) : Machine (World H) ParseCall where
  init := w
  step w c := (parseInit w w.net.dataBuf.bytes c.alloc c.len c.data c.addr).map Prod.snd

/-- One call for each of the frames, given the bytes of those not parsed yet. -/
def callsFor (data addr : UInt32) : List Frame → List ParseCall
  | [] => []
  | f :: fs => ⟨true, ((f :: fs).flatMap Frame.bytes).length, data, addr⟩ :: callsFor data addr fs

/-- One call of a run that keeps to the condition: the message of the first frame is queued and
the frames behind it stand at the front of the pool. -/
lemma step_frame (w₀ : World H) {w : World H} {f : Frame} {fs : List Frame} {data addr : UInt32}
    {msg : HandlerMsgInit H} (hpool : (f :: fs).flatMap Frame.bytes <+: w.net.dataBuf.bytes)
    (hmsg : f.message w.processor.initHandlers data addr = some msg)
    (hdrain : Drains w ⟨true, ((f :: fs).flatMap Frame.bytes).length, data, addr⟩) :
    ∃ w', (parseMachine w₀).step w ⟨true, ((f :: fs).flatMap Frame.bytes).length, data, addr⟩
        = some w' ∧
      w'.processor = w.processor.pushMsg msg ∧
      fs.flatMap Frame.bytes <+: w'.net.dataBuf.bytes := by
  rw [List.flatMap_cons] at hpool hdrain ⊢
  have hf : f.bytes <+: w.net.dataBuf.bytes := (List.prefix_append _ _).trans hpool
  have hlen : (f.payload.length : ℤ) + 6 ≤ ((f.bytes ++ fs.flatMap Frame.bytes).length : ℕ) := by
    rw [List.length_append, Frame.length_bytes]
    omega
  have hparse := parseInit_frame hf hlen hmsg
  obtain ⟨b, w', hcall, -, htrue⟩ := (exactConsumption_iff _ _).mpr hdrain
  rw [hparse] at hcall
  cases hcall
  refine ⟨⟨w.net.drainDataBuf 6, w.processor.pushMsg msg⟩, ?_, rfl, ?_⟩
  · simp only [parseMachine, hparse, Option.map_some]
  · obtain ⟨rest, hrest⟩ := hpool
    have hsize : frameSize w.net.dataBuf.bytes = f.payload.length := by
      rw [← hrest, List.append_assoc, frameSize_bytes]
    have htake := htrue rfl
    rw [hsize, ← hrest, List.append_assoc, List.drop_left' (by simp)] at htake
    refine (List.prefix_append _ rest).trans ?_
    rw [← htake]
    exact List.take_prefix _ _

/-- A run that keeps to the condition queues the messages of all frames, in order. -/
lemma runFrom_frames {w₀ : World H} {data addr : UInt32} (frames : List Frame) {w : World H}
    (hpool : frames.flatMap Frame.bytes <+: w.net.dataBuf.bytes)
    (hreg : ∀ f ∈ frames, f.message w.processor.initHandlers data addr ≠ none)
    (hok : (parseMachine w₀).MeetsFrom Drains w (callsFor data addr frames)) :
    ∃ w', (parseMachine w₀).runFrom w (callsFor data addr frames) = some w' ∧
      w'.processor.queue.current = w.processor.queue.current
        ++ frames.filterMap fun f => f.message w.processor.initHandlers data addr := by
  induction frames generalizing w with
  | nil => exact ⟨w, rfl, by simp⟩
  | cons f fs ih =>
      obtain ⟨msg, hmsg⟩ := Option.ne_none_iff_exists'.mp (hreg f List.mem_cons_self)
      obtain ⟨u, hstep, hproc, hrest⟩ := step_frame w₀ hpool hmsg hok.1
      have htable : u.processor.initHandlers = w.processor.initHandlers := by
        rw [hproc]
        rfl
      obtain ⟨w', hrun, hq⟩ := ih hrest
        (fun g hg => htable ▸ hreg g (List.mem_cons_of_mem f hg)) (hok.2 u hstep)
      refine ⟨w', (parseMachine w₀).runFrom_cons_eq_some.mpr ⟨u, hstep, hrun⟩, ?_⟩
      rw [hq, htable, hproc, Processor.pushMsg_current]
      simp [hmsg]

/-- **Exact consumption.** A call of `parseInit` removes exactly the frame it parsed, or changes
nothing and says so, precisely when `Drains` holds: with memory for the message and a frame that
is there in full it drains the header only. And as long as it holds at every call, repeated calls
on concatenated frames with registered handlers queue exactly the messages of those frames, in
order. -/
theorem exactConsumption_iff_drains (w : World H) :
    (∀ c : ParseCall, c.len ≤ inMaxPoolSize → (ExactConsumption w c ↔ Drains w c)) ∧
    ∀ (frames : List Frame) (data addr : UInt32),
      frames.flatMap Frame.bytes <+: w.net.dataBuf.bytes →
      (∀ f ∈ frames, f.message w.processor.initHandlers data addr ≠ none) →
      (parseMachine w).Meets Drains (callsFor data addr frames) →
      ∃ w', (parseMachine w).run (callsFor data addr frames) = some w' ∧
        w'.processor.queue.current = w.processor.queue.current
          ++ frames.filterMap fun f => f.message w.processor.initHandlers data addr :=
  ⟨fun c _ => exactConsumption_iff w c,
    fun frames _ _ hpool hreg hok => runFrom_frames frames hpool hreg hok⟩

/-- A frame with an opcode of the table and no payload is drained. -/
lemma drains_of_payload_nil {w : World H} {f : Frame} (hpool : f.bytes <+: w.net.dataBuf.bytes)
    (hf : f.payload = []) {data addr : UInt32}
    (hreg : f.message w.processor.initHandlers data addr ≠ none) (c : ParseCall) : Drains w c := by
  obtain ⟨rest, hrest⟩ := hpool
  refine .inr (.inr ⟨?_, ?_⟩)
  · rw [← hrest, frameOpcode, frameKey_bytes, frameOp_bytes, ← hf]
    by_contra hlt
    apply hreg
    simp only [Frame.message, List.getElem?_eq_none (not_lt.mp hlt)]
  · intro i _
    rw [← hrest, frameSize_bytes, hf]
    rfl

/-- Frames without payload keep a run to the condition. -/
lemma meetsFrom_of_payload_nil {w₀ : World H} {data addr : UInt32} {frames : List Frame} {w : World H}
    (hpool : frames.flatMap Frame.bytes <+: w.net.dataBuf.bytes)
    (hreg : ∀ f ∈ frames, f.message w.processor.initHandlers data addr ≠ none)
    (hnil : ∀ f ∈ frames, f.payload = []) :
    (parseMachine w₀).MeetsFrom Drains w (callsFor data addr frames) := by
  induction frames generalizing w with
  | nil => trivial
  | cons f fs ih =>
      have hf : f.bytes <+: w.net.dataBuf.bytes := by
        rw [List.flatMap_cons] at hpool
        exact (List.prefix_append _ _).trans hpool
      have hdrain := drains_of_payload_nil hf (hnil f List.mem_cons_self) (hreg f List.mem_cons_self)
        ⟨true, ((f :: fs).flatMap Frame.bytes).length, data, addr⟩
      refine ⟨hdrain, ?_⟩
      intro u hu
      obtain ⟨msg, hmsg⟩ := Option.ne_none_iff_exists'.mp (hreg f List.mem_cons_self)
      obtain ⟨u', hstep, hproc, hrest⟩ := step_frame w₀ hpool hmsg hdrain
      obtain rfl : u' = u := Option.some.inj (hstep.symm.trans hu)
      have htable : u'.processor.initHandlers = w.processor.initHandlers := by
        rw [hproc]
        rfl
      exact ih hrest (fun g hg => htable ▸ hreg g (List.mem_cons_of_mem f hg))
        fun g hg => hnil g (List.mem_cons_of_mem f hg)

/-- Two frames without payload are queued by two calls; and without memory for its message a frame with
two bytes of payload, which another follows, is removed. -/
theorem exactConsumption_iff_drains_twoFrames :
    (∃ w', (parseMachine (World.holding [none, some ()]
          ([⟨0, 1, [], by decide⟩, ⟨0, 1, [], by decide⟩].flatMap Frame.bytes))).run
        (callsFor 3 4 [⟨0, 1, [], by decide⟩, ⟨0, 1, [], by decide⟩]) = some w' ∧
      w'.processor.queue.current
        = [⟨(), 0, 3, 0xFFFFFFFF, 4, []⟩, ⟨(), 0, 3, 0xFFFFFFFF, 4, []⟩]) ∧
    ExactConsumption (World.holding [none, some ()]
      (Builder.packet 0x1 [7, 8] ++ Builder.packet 0x1 [9])) ⟨false, 15, 3, 4⟩ := by
  constructor
  · have hpool := World.pool_holding [none, some ()]
      (show (([⟨0, 1, [], by decide⟩, ⟨0, 1, [], by decide⟩] : List Frame).flatMap Frame.bytes).length
        ≤ inMaxPoolSize by decide)
    have hreg : ∀ f ∈ ([⟨0, 1, [], by decide⟩, ⟨0, 1, [], by decide⟩] : List Frame),
        f.message [none, some ()] 3 4 ≠ none := by decide
    exact (exactConsumption_iff_drains _).2 _ 3 4 ⟨_, hpool.symm⟩ hreg
      (meetsFrom_of_payload_nil ⟨_, hpool.symm⟩ hreg (by decide))
  · exact ((exactConsumption_iff_drains _).1 ⟨false, 15, 3, 4⟩ (by decide)).mpr (.inr (.inl rfl))

/-- With one byte of payload that byte is left in front. -/
theorem not_exactConsumption_one_byte :
    ¬ ExactConsumption (World.holding [none, some ()] (Builder.packet 0x1 [7]))
      ⟨true, 7, 3, 4⟩ := by
  rw [exactConsumption_iff, Drains]
  have hpool := World.pool_holding [none, some ()]
    (show (Builder.packet 0x1 [7]).length ≤ inMaxPoolSize by decide)
  have hsize := frameSize_packet (by decide) ⟨_, hpool.symm⟩
  rw [hsize]
  rintro (h | h | ⟨-, h⟩)
  · exact absurd h (by decide)
  · cases h
  · have h0 := h 0 (by decide)
    rw [hpool, List.getElem?_append_left (by decide), List.getElem?_append_right (by decide),
      List.getElem?_replicate, if_pos (by decide)] at h0
    exact absurd h0 (by decide)

end parse

end CocInside.Packet
