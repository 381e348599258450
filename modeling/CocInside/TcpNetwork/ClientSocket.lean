import CocInside.Lib.Ring
import CocInside.Lib.Runs
import CocInside.Lib.Bytes

/-!
# The ring buffer of `ClientSocket`

`receiveMsg` returns the next message out of a ring buffer that `recvFromSock` fills. The size of the
buffer is the object-like macro `50*1024`, without parentheses: `x % IN_MAX_MESSAGE_SIZE` is
`(x % 50) * 1024`.

* `ringSize`, `modRingSize`: the size, and the expression above as it is parsed.
* `ClientSocket`, `Receiver`: the class, and the class with the bytes sent to it, the messages it has
  returned, and the place in the code.
* `Receiver.call`, `enterRecv`, `firstRecv`, `secondRecv`, `resume`, `decode`, `copy`: `receiveMsg` and
  `recvFromSock`, cut at the calls of `recv` and around the two places where the ring index is
  reduced.
* `Receiver.step_cases`: what a step can be.
* `receiver`: any calls of `receiveMsg`, against a socket that delivers the stream in any way.

`hasError` returns true and `Destroy` does nothing, as in the header: `recvFromSock` returns false
whenever its last `recv` delivers nothing, and what an earlier one delivered stays.

Source: `CocTest/Classes/TcpNetwork/ClientSocket.h`, `CocTest/Classes/TcpNetwork/ClientSocket.cpp`.
-/

namespace CocInside.TcpNetwork

open CocInside.Lib

/-- `IN_MAX_MESSAGE_SIZE`, where it stands alone or after a comparison or a minus sign.
Source: `ClientSocket.h`. -/
def ringSize : ℕ := 50 * 1024

/-- `x % IN_MAX_MESSAGE_SIZE`, that is `x % 50*1024`. -/
def modRingSize (x : ℕ) : ℕ := x % 50 * 1024

/-- `socket` says that `m_tcpsocket` is set and its descriptor valid.
Source: `ClientSocket.h`, `ClientSocket`. -/
structure ClientSocket where
  socket : Bool
  inputBuff : ℕ → UInt8
  inbufLen : ℕ
  inbufStart : ℕ

/-- What a `recv` does: deliver up to so many of the bytes that were sent, find the connection closed,
or fail (would-block included). -/
inductive Recv where
  | ready (k : ℕ)
  | closed
  | error
deriving DecidableEq

/-- Where `recvFromSock` returns to: the test for a header, or the one for a body of a given size. -/
inductive RecvSite where
  | header
  | body (packsize : ℕ)
deriving DecidableEq

/-- The place in the code. `nSize` is the size of the caller's buffer. -/
inductive ReceiverPhase where
  /-- Outside `receiveMsg`. -/
  | idle
  /-- At the first `recv` of `recvFromSock`. -/
  | firstRecv (nSize : ℕ) (site : RecvSite)
  /-- At the second one. -/
  | secondRecv (nSize : ℕ) (site : RecvSite)
  /-- Two bytes are there, and `packsize` is to be read. -/
  | decode (nSize : ℕ)
  /-- The message is there and is to be copied. -/
  | copy (nSize packsize : ℕ)
  /-- Past a write outside `m_InputBuff` or the caller's buffer. -/
  | overrun
deriving DecidableEq

/-- The class, the bytes sent to it and not read yet, and the messages it has returned. -/
structure Receiver where
  sock : ClientSocket
  wire : List UInt8
  got : List (List UInt8)
  phase : ReceiverPhase

namespace Receiver

/-- A socket right after construction and `connect`, at the end of a stream. -/
def start (wire : List UInt8) : Receiver :=
  ⟨⟨true, fun _ => 0, 0, 0⟩, wire, [], .idle⟩

/-- `receiveMsg` returns false. -/
def fail (s : Receiver) : Receiver := { s with phase := .idle }

/-- `recvFromSock` up to its first `recv`.
Source: `ClientSocket.cpp`, `ClientSocket::recvFromSock`. -/
def enterRecv (s : Receiver) (nSize : ℕ) (site : RecvSite) : Receiver :=
  if s.sock.inbufLen ≥ ringSize ∨ !s.sock.socket then s.fail
  else { s with phase := .firstRecv nSize site }

/-- `receiveMsg` up to the first bytes it needs; `nSize = 0` stands for a null buffer as well.
Source: `ClientSocket.cpp`, `ClientSocket::receiveMsg`. -/
def call (s : Receiver) (nSize : ℕ) : Receiver :=
  if nSize = 0 then s
  else if !s.sock.socket then s
  else if s.sock.inbufLen < 2 then s.enterRecv nSize .header
  else { s with phase := .decode nSize }

/-- The number of bytes a `recv` with room for `savelen` delivers. -/
def delivered (s : Receiver) (savelen : ℕ) : Recv → ℕ
  | .ready k => min k (min savelen s.wire.length)
  | .closed => 0
  | .error => 0

/-- `recv` writes the next `m` bytes of the stream to the buffer at `savepos`. -/
def deliver (s : Receiver) (savepos m : ℕ) : Receiver :=
  if savepos + m ≤ ringSize then
    { s with
      sock := { s.sock with
        inputBuff := store s.sock.inputBuff savepos (s.wire.take m)
        inbufLen := s.sock.inbufLen + m }
      wire := s.wire.drop m }
  else { s with phase := .overrun }

/-- `recvFromSock` has returned true. -/
def resume (s : Receiver) (nSize : ℕ) : RecvSite → Receiver
  | .header => if s.sock.inbufLen < 2 then s.fail else { s with phase := .decode nSize }
  | .body packsize =>
      if packsize > s.sock.inbufLen then s.fail else { s with phase := .copy nSize packsize }

/-- The room `recvFromSock` offers to its first `recv`. -/
def savelen (s : Receiver) : ℕ :=
  if s.sock.inbufStart + s.sock.inbufLen < ringSize then
    ringSize - (s.sock.inbufStart + s.sock.inbufLen)
  else ringSize - s.sock.inbufLen

/-- Source: `ClientSocket.cpp`, `ClientSocket::recvFromSock`, the first `recv` and what follows it. -/
def firstRecv (s : Receiver) (nSize : ℕ) (site : RecvSite) (r : Recv) : Receiver :=
  let inlen := s.delivered s.savelen r
  if inlen > 0 then
    let t := s.deliver (modRingSize (s.sock.inbufStart + s.sock.inbufLen)) inlen
    if t.phase = .overrun then t
    else if t.sock.inbufLen > ringSize then t.fail
    else if inlen = s.savelen ∧ t.sock.inbufLen < ringSize then
      { t with phase := .secondRecv nSize site }
    else t.resume nSize site
  else s.fail

/-- Source: `ClientSocket.cpp`, `ClientSocket::recvFromSock`, the second `recv` and what follows it. -/
def secondRecv (s : Receiver) (nSize : ℕ) (site : RecvSite) (r : Recv) : Receiver :=
  let inlen := s.delivered (ringSize - s.sock.inbufLen) r
  if inlen > 0 then
    let t := s.deliver (modRingSize (s.sock.inbufStart + s.sock.inbufLen)) inlen
    if t.phase = .overrun then t
    else if t.sock.inbufLen > ringSize then t.fail
    else t.resume nSize site
  else s.fail

/-- Reading `packsize`.
Source: `ClientSocket.cpp`, `ClientSocket::receiveMsg`. -/
def decode (s : Receiver) (nSize : ℕ) : Receiver :=
  let packsize := (s.sock.inputBuff s.sock.inbufStart).toNat
    + (s.sock.inputBuff (modRingSize (s.sock.inbufStart + 1))).toNat * 256
  if packsize = 0 ∨ packsize > ringSize then
    { s with sock := { s.sock with inbufLen := 0, inbufStart := 0 } }.fail
  else if packsize > s.sock.inbufLen then s.enterRecv nSize (.body packsize)
  else { s with phase := .copy nSize packsize }

/-- Copying the message out and returning true.
Source: `ClientSocket.cpp`, `ClientSocket::receiveMsg`. -/
def copy (s : Receiver) (nSize packsize : ℕ) : Receiver :=
  if packsize > nSize then { s with phase := .overrun }
  else
    let buf := s.sock.inputBuff
    let first := s.sock.inbufStart
    let msg :=
      if first + packsize > ringSize then
        let copylen := ringSize - first
        slice buf first copylen ++ slice buf 0 (packsize - copylen)
      else slice buf first packsize
    { s with
      sock := { s.sock with
        inbufStart := modRingSize (first + packsize)
        inbufLen := s.sock.inbufLen - packsize }
      got := s.got ++ [msg]
      phase := .idle }

/-- What happens next: a call of `receiveMsg` with a buffer of `nSize` bytes, the answer of a `recv`, or
the code going on by itself. -/
inductive Event where
  | call (nSize : ℕ)
  | recv (r : Recv)
  | go
deriving DecidableEq

/-- One step. -/
def step (s : Receiver) : Event → Option Receiver
  | .call nSize =>
      match s.phase with
      | .idle => some (s.call nSize)
      | _ => none
  | .recv r =>
      match s.phase with
      | .firstRecv nSize site => some (s.firstRecv nSize site r)
      | .secondRecv nSize site => some (s.secondRecv nSize site r)
      | _ => none
  | .go =>
      match s.phase with
      | .decode nSize => some (s.decode nSize)
      | .copy nSize packsize => some (s.copy nSize packsize)
      | _ => none

/-- The room of the first `recv` is free. -/
lemma savelen_le (s : Receiver) : s.savelen ≤ ringSize - s.sock.inbufLen := by
  unfold savelen
  split <;> omega

/-- What a `recv` delivers fits the room it is offered. -/
lemma delivered_le (s : Receiver) (savelen : ℕ) (r : Recv) :
    s.delivered savelen r ≤ savelen ∧ s.delivered savelen r ≤ s.wire.length := by
  cases r with
  | ready k =>
      simp only [Receiver.delivered]
      omega
  | closed => exact ⟨Nat.zero_le _, Nat.zero_le _⟩
  | error => exact ⟨Nat.zero_le _, Nat.zero_le _⟩

/-- A step is a call from outside, the answer of one of the two `recv`s, or the code going on to read
`packsize` or to copy. -/
lemma step_cases {s t : Receiver} {e : Event} (h : s.step e = some t) :
    (∃ nSize, e = .call nSize ∧ t = s.call nSize) ∨
    (∃ r nSize site, e = .recv r ∧ s.phase = .firstRecv nSize site ∧ t = s.firstRecv nSize site r) ∨
    (∃ r nSize site, e = .recv r ∧ s.phase = .secondRecv nSize site ∧
      t = s.secondRecv nSize site r) ∨
    (∃ nSize, e = .go ∧ s.phase = .decode nSize ∧ t = s.decode nSize) ∨
    ∃ nSize packsize, e = .go ∧ s.phase = .copy nSize packsize ∧ t = s.copy nSize packsize := by
  cases e with
  | call nSize =>
      simp only [step] at h
      split at h
      · cases h
        exact .inl ⟨nSize, rfl, rfl⟩
      · cases h
  | recv r =>
      simp only [step] at h
      split at h
      · next nSize site hph =>
          cases h
          exact .inr (.inl ⟨r, nSize, site, rfl, hph, rfl⟩)
      · next nSize site hph =>
          cases h
          exact .inr (.inr (.inl ⟨r, nSize, site, rfl, hph, rfl⟩))
      · cases h
  | go =>
      simp only [step] at h
      split at h
      · next nSize hph =>
          cases h
          exact .inr (.inr (.inr (.inl ⟨nSize, rfl, hph, rfl⟩)))
      · next nSize packsize hph =>
          cases h
          exact .inr (.inr (.inr (.inr ⟨nSize, packsize, rfl, hph, rfl⟩)))
      · cases h

end Receiver

/-- A socket at the end of a stream, from its connection on. -/
def receiver (wire : List UInt8) : Machine Receiver Receiver.Event where
  init := .start wire
  step := Receiver.step

end CocInside.TcpNetwork
