import CocInside.Lib.Bytes

/-!
# The client's end of the connection

`ClientNet` sends whole messages over a stream socket and cuts the stream it receives back into
messages, through a compacting input buffer; each message found is copied to the front of a pool.

* `ClientNet`, `sendMsg`, `drainDataBuf`, `copyDataBuf`: the class.
* `Link`: the client together with the bytes on their way to it and a log of the byte strings it
  has copied out. `Link.extractStep`, `Link.extractLoop`: the inner loop of `runRecvMsg`;
  `Link.runRecvMsg`: one call, against a socket that offers given numbers of bytes.

The output buffer `m_nOutBuff` is cleared by the constructor and used by nothing, and is left out.

Source: `CocTest/Classes/TcpNetwork/ClientNet.h`, `CocTest/Classes/TcpNetwork/ClientNet.cpp`.
-/

namespace CocInside.TcpNetwork

open CocInside.Lib

/-- Source: `ClientNet.h`, `MAX_MESSAGE_SIZE`. -/
def maxMessageSize : ℕ := 5 * 1024

/-- Source: `ClientNet.h`, `IN_MAX_MESSAGE_SIZE`. -/
def inMaxMessageSize : ℕ := 10 * 1024

/-- Source: `ClientNet.h`, `IN_MAX_POOL_SIZE`. -/
def inMaxPoolSize : ℕ := 100 * 1024

/-- `socket` says that `m_tcpsocket` is set and its descriptor valid.
Source: `ClientNet.h`, `ClientNet`. -/
structure ClientNet where
  socket : Bool
  inputBuff : Buf inMaxMessageSize
  dataBuf : Buf inMaxPoolSize
  inbufLen : ℕ

namespace ClientNet

/-- A client right after construction, connected or not.
Source: `ClientNet.cpp`, `ClientNet::ClientNet`. -/
def create (socket : Bool) : ClientNet where
  socket := socket
  inputBuff := .zero _
  dataBuf := .zero _
  inbufLen := 0

/-- Whether the message is accepted, and the bytes handed to the socket's `write`.
Source: `ClientNet.cpp`, `ClientNet::sendMsg`. -/
def sendMsg (net : ClientNet) (pBuf : List UInt8) : Bool × List UInt8 :=
  if pBuf.length = 0 then (false, [])
  else if !net.socket then (false, [])
  else if pBuf.length > maxMessageSize then (false, [])
  else (true, pBuf)

/-- Source: `ClientNet.cpp`, `ClientNet::drainDataBuf`. -/
def drainDataBuf (net : ClientNet) (len : ℕ) : ClientNet :=
  if len > 0 then { net with dataBuf := (net.dataBuf.clear len).moveDown len } else net

/-- The bytes copied to the destination.
Source: `ClientNet.cpp`, `ClientNet::copyDataBuf`. -/
def copyDataBuf (net : ClientNet) (len : ℕ) : List UInt8 := net.dataBuf.bytes.take len

/-- A message that is taken is not too long. -/
lemma length_le_of_sendMsg {net : ClientNet} {pBuf : List UInt8}
    (h : (net.sendMsg pBuf).1 = true) : pBuf.length ≤ maxMessageSize := by
  unfold sendMsg at h
  split_ifs at h with h1 h2 h3
  omega

/-- Draining removes the front of the pool. -/
lemma take_drainDataBuf (net : ClientNet) (len : ℕ) :
    (net.drainDataBuf len).dataBuf.bytes.take (inMaxPoolSize - len)
      = net.dataBuf.bytes.drop len := by
  unfold drainDataBuf
  split
  · rw [Buf.take_moveDown, Buf.drop_clear]
  · obtain rfl : len = 0 := by omega
    rw [List.drop_zero, List.take_of_length_le (by rw [Buf.length_eq]; omega)]

/-- `nPacketSize`: the low three bytes of the size word, cut to 16 bits.
Source: `ClientNet.cpp`, `ClientNet::runRecvMsg`. -/
def packetSize (net : ClientNet) : ℕ := (leNat (net.inputBuff.bytes.take 4) &&& 0x00FFFFFF) % 2 ^ 16

end ClientNet

/-! ## Receiving -/

/-- The client, the bytes sent to it and not read yet, and the byte strings copied to `m_cbDataBuf`
so far. -/
structure Link where
  net : ClientNet
  wire : List UInt8
  got : List (List UInt8)

namespace Link

/-- A connected client at the end of a stream. -/
def start (wire : List UInt8) : Link := ⟨.create true, wire, []⟩

/-- `m_tcpsocket->read` returns `m` bytes, appended to the input buffer. -/
def read (s : Link) (m : ℕ) : Link where
  net := { s.net with
    inputBuff := s.net.inputBuff.overwrite s.net.inbufLen (s.wire.take m)
    inbufLen := s.net.inbufLen + m }
  wire := s.wire.drop m
  got := s.got

/-- One turn of the inner loop, or `none` if it ends: with less than a header, or on the `break`
for an incomplete packet.
Source: `ClientNet.cpp`, `ClientNet::runRecvMsg`, `while (m_nInbufLen >= 6)`. -/
def extractStep (s : Link) : Option Link :=
  if s.net.inbufLen < 6 then none
  else
    let nPacketSize := s.net.packetSize
    if s.net.inbufLen < nPacketSize then none
    else
      let packet := s.net.inputBuff.bytes.take nPacketSize
      some
        { s with
          net := { s.net with
            dataBuf := s.net.dataBuf.overwrite 0 packet
            inputBuff := s.net.inputBuff.moveDown nPacketSize
            inbufLen := s.net.inbufLen - nPacketSize }
          got := s.got ++ [packet] }

/-- The inner loop; `none` is a run of `fuel` turns or more. -/
def extractLoop : ℕ → Link → Option Link
  | 0, _ => none
  | fuel + 1, s =>
      match s.extractStep with
      | none => some s
      | some s' => extractLoop fuel s'

/-- The outer loop, against a socket that has the given numbers of bytes ready for its reads and
then none. A read gets no more than fits the buffer or was sent; one that gets nothing ends the
call. -/
def recvLoop (fuel : ℕ) : List ℕ → Link → Option Link
  | [], s => some s
  | k :: ks, s =>
      let m := min k (min (inMaxMessageSize - s.net.inbufLen) s.wire.length)
      if m = 0 then some s
      else do
        let s' ← extractLoop fuel (s.read m)
        recvLoop fuel ks s'

/-- Source: `ClientNet.cpp`, `ClientNet::runRecvMsg`. -/
def runRecvMsg (fuel : ℕ) (ready : List ℕ) (s : Link) : Option Link :=
  if s.net.socket then recvLoop fuel ready s else some s

/-- Any number of calls. -/
def runs (fuel : ℕ) : List (List ℕ) → Link → Option Link
  | [], s => some s
  | ready :: calls, s => do
      let s' ← runRecvMsg fuel ready s
      runs fuel calls s'

end Link

end CocInside.TcpNetwork
