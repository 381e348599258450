import CocInside.LibEvent.EvbufferSocket
import CocInside.Lib.Runs

/-!
# `bufferevent` on a socket

What libevent does between a socket and its user: bytes come from the socket into the input buffer and
leave the output buffer for the socket, when the event loop finds that the socket is ready. The user takes
bytes from the input buffer, adds to the output buffer, and says what is enabled.

* `Bufferevent`: the buffers, what is enabled and suspended, and which events are pending. `readcb`,
  `writecb`: what the event loop calls; an event that is not pending is not called.
* `Stream`: with the bytes that went through. `streams`: any calls of the user and of the event loop, in any
  order. What the user does in a callback comes after it, except when a connection is made: then it comes in
  the middle.
* `streams_run`: every run goes on, and no byte is lost, doubled or out of order.

Left out are rate limits, the low-water marks and deferred callbacks, which only decide when the user is
called; the lock, as each function holds it from the beginning to the end; and `event_add` without memory.
`EV_READ | EV_WRITE` is one call after the other.

Source: `event/bufferevent.c`, `event/bufferevent_sock.c`, `event/bufferevent-internal.h`.
-/

namespace CocInside.LibEvent

open CocInside.Lib

/-- Without those of rate limits. Source: `event/bufferevent-internal.h`,
`bufferevent_suspend_flags`. -/
inductive Suspend where
  | wm
  | lookup
deriving DecidableEq

/-- `struct bufferevent` and `struct bufferevent_private`. Source: `event/bufferevent-internal.h`,
`struct bufferevent_private`. -/
structure Bufferevent where
  input : Evbuffer
  output : Evbuffer
  /-- `enabled & EV_READ`. -/
  enabledRead : Bool
  /-- `enabled & EV_WRITE`. -/
  enabledWrite : Bool
  readSuspended : Finset Suspend
  writeSuspended : Finset Suspend
  /-- `ev_read` is pending. -/
  evRead : Bool
  /-- `ev_write` is pending. -/
  evWrite : Bool
  /-- `ev_write` was made active by `event_active`. -/
  activeWrite : Bool
  connecting : Bool
  connectionRefused : Bool
  /-- `wm_read.high`. -/
  wmReadHigh : ℕ
  /-- `read_watermarks_cb` is there and enabled. -/
  readWatermarksCb : Bool

/-- `EV_READ` or `EV_WRITE`. -/
inductive Direction where
  | read
  | write

namespace Bufferevent

/-- Source: `event/bufferevent.c`, `bufferevent_init_common`, `event/bufferevent_sock.c`,
`bufferevent_socket_new`. -/
def socketNew : Bufferevent where
  input := { Evbuffer.new with freezeEnd := true }
  output := { Evbuffer.new with freezeStart := true }
  enabledRead := false
  enabledWrite := true
  readSuspended := ∅
  writeSuspended := ∅
  evRead := false
  evWrite := false
  activeWrite := false
  connecting := false
  connectionRefused := false
  wmReadHigh := 0
  readWatermarksCb := false

/-- `MAX_TO_READ_EVER`. Source: `event/bufferevent_ratelim.c`, `MAX_TO_READ_EVER`. -/
def maxToReadEver : ℤ := 16384

/-- `MAX_TO_WRITE_EVER`. Source: `event/bufferevent_ratelim.c`, `MAX_TO_WRITE_EVER`. -/
def maxToWriteEver : ℤ := 16384

/-- `EV_SSIZE_MAX`, with 64 bits.
Source: `event2/util.h`, `EV_SSIZE_MAX`. -/
def evSsizeMax : ℕ := 2 ^ 63 - 1

/-- The difference of two `size_t`, as the `ev_ssize_t` it is assigned to. Source:
`event/bufferevent_sock.c`, `bufferevent_readcb`. -/
def ssizeSub (a b : ℕ) : ℤ := Int.bmod (a - b) (2 ^ 64)

/-- Up to `EV_SSIZE_MAX` the difference is the one of the integers. -/
lemma ssizeSub_eq {a b bound : ℕ} (ha : a ≤ bound) (hb : b ≤ bound) (hbound : bound ≤ evSsizeMax) :
    ssizeSub a b = a - b := by
  unfold evSsizeMax at hbound
  exact Int.bmod_eq_of_le (by omega) (by omega)

/-! ## Events -/

/-- `event_del(&bufev->ev_read)`. -/
def delRead (b : Bufferevent) : Bufferevent := { b with evRead := false }

/-- `event_del(&bufev->ev_write)`. -/
def delWrite (b : Bufferevent) : Bufferevent := { b with evWrite := false, activeWrite := false }

/-- Source: `event/bufferevent_sock.c`, `be_socket_enable`. -/
def beSocketEnable (b : Bufferevent) : Direction → Bufferevent
  | .read => { b with evRead := true }
  | .write => { b with evWrite := true }

/-- Source: `event/bufferevent_sock.c`, `be_socket_disable`. -/
def beSocketDisable (b : Bufferevent) : Direction → Bufferevent
  | .read => b.delRead
  | .write => if b.connecting then b else b.delWrite

/-- Source: `event/bufferevent.c`, `bufferevent_enable`. -/
def enable (b : Bufferevent) : Direction → Bufferevent
  | .read =>
      let b := { b with enabledRead := true }
      if b.readSuspended = ∅ then b.beSocketEnable .read else b
  | .write =>
      let b := { b with enabledWrite := true }
      if b.writeSuspended = ∅ then b.beSocketEnable .write else b

/-- Source: `event/bufferevent.c`, `bufferevent_disable`. -/
def disable (b : Bufferevent) : Direction → Bufferevent
  | .read => { b with enabledRead := false }.beSocketDisable .read
  | .write => { b with enabledWrite := false }.beSocketDisable .write

/-- Source: `event/bufferevent.c`, `bufferevent_suspend_read`. -/
def suspendRead (b : Bufferevent) (what : Suspend) : Bufferevent :=
  let b := if b.readSuspended = ∅ then b.beSocketDisable .read else b
  { b with readSuspended := insert what b.readSuspended }

/-- Source: `event/bufferevent.c`, `bufferevent_unsuspend_read`. -/
def unsuspendRead (b : Bufferevent) (what : Suspend) : Bufferevent :=
  let b := { b with readSuspended := b.readSuspended.erase what }
  if b.readSuspended = ∅ ∧ b.enabledRead then b.beSocketEnable .read else b

/-- Source: `event/bufferevent.c`, `bufferevent_suspend_write`. -/
def suspendWrite (b : Bufferevent) (what : Suspend) : Bufferevent :=
  let b := if b.writeSuspended = ∅ then b.beSocketDisable .write else b
  { b with writeSuspended := insert what b.writeSuspended }

/-- Source: `event/bufferevent.c`, `bufferevent_unsuspend_write`. -/
def unsuspendWrite (b : Bufferevent) (what : Suspend) : Bufferevent :=
  let b := { b with writeSuspended := b.writeSuspended.erase what }
  if b.writeSuspended = ∅ ∧ b.enabledWrite then b.beSocketEnable .write else b

/-! ## The callbacks of the buffers -/

/-- Source: `event/bufferevent.c`, `bufferevent_inbuf_wm_cb`. -/
def inbufWmCb (b : Bufferevent) : Bufferevent :=
  if b.input.totalLen ≥ b.wmReadHigh then b.suspendRead .wm else b.unsuspendRead .wm

/-- Where bytes were added. Source: `event/bufferevent_sock.c`, `bufferevent_socket_outbuf_cb`. -/
def outbufCb (b : Bufferevent) : Bufferevent :=
  if b.enabledWrite ∧ ¬ (b.evWrite ∨ b.activeWrite) ∧ b.writeSuspended = ∅ then
    { b with evWrite := true }
  else b

/-- The input buffer after a change, and its callback if the length is another one. -/
def setInput (b : Bufferevent) (input : Evbuffer) : Bufferevent :=
  let b' := { b with input := input }
  if input.totalLen ≠ b.input.totalLen ∧ b.readWatermarksCb then b'.inbufWmCb else b'

/-- The output buffer after a change, and its callback if bytes were added. -/
def setOutput (b : Bufferevent) (output : Evbuffer) : Bufferevent :=
  let b' := { b with output := output }
  if output.totalLen > b.output.totalLen then b'.outbufCb else b'

/-- `bufferevent_setwatermark` with `EV_READ`. Source: `event/bufferevent.c`,
`bufferevent_setwatermark`. -/
def setwatermark (b : Bufferevent) (highmark : ℕ) : Bufferevent :=
  let b := { b with wmReadHigh := highmark }
  if highmark ≠ 0 then
    let b := { b with readWatermarksCb := true }
    if b.input.totalLen > highmark then b.suspendRead .wm
    else if b.input.totalLen < highmark then b.unsuspendRead .wm
    else b
  else { b with readWatermarksCb := false }.unsuspendRead .wm

/-! ## Connecting -/

/-- `be_socket_setfd` with a descriptor. Source: `event/bufferevent_sock.c`, `be_socket_setfd`. -/
def setfd (b : Bufferevent) : Bufferevent :=
  let b := b.delRead.delWrite
  let b := if b.enabledRead then b.enable .read else b
  if b.enabledWrite then b.enable .write else b

/-- What `evutil_socket_connect` says. -/
inductive ConnectResult where
  | failed
  | inProgress
  | connected
  | refused

/-- From where there is a socket. Source: `event/bufferevent_sock.c`,
`bufferevent_socket_connect`. -/
def socketConnect (b : Bufferevent) : ConnectResult → Bufferevent
  | .failed => b
  | .inProgress => { b.setfd.beSocketEnable .write with connecting := true }
  | .connected => { b.setfd with connecting := true, activeWrite := true }
  | .refused => { b.setfd with connectionRefused := true, connecting := true, activeWrite := true }

/-- Up to the lookup of the name. Source: `event/bufferevent_sock.c`,
`bufferevent_socket_connect_hostname`. -/
def connectHostname (b : Bufferevent) : Bufferevent := (b.suspendWrite .lookup).suspendRead .lookup

/-- `bufferevent_connect_getaddrinfo_cb`; without a result, the lookup failed. Source:
`event/bufferevent_sock.c`, `bufferevent_connect_getaddrinfo_cb`. -/
def getaddrinfoCb (b : Bufferevent) (r : Option ConnectResult) : Bufferevent :=
  let b := (b.unsuspendWrite .lookup).unsuspendRead .lookup
  match r with
  | none => b
  | some r => b.socketConnect r

end Bufferevent

/-! ## The user and the event loop -/

/-- A call on a buffer. -/
inductive BufferCall where
  | add (data : List UInt8)
  | drain (len : ℕ)
  | remove (datlen : ℕ)
  | copyout (datlen : ℕ)
  | pullup (size : ℤ)

/-- What it does, with the bytes that came in and those that left. -/
def BufferCall.run (mem : Malloc) (b : Evbuffer) :
    BufferCall → Option (List UInt8 × List UInt8 × Evbuffer)
  | .add data => (b.add mem data).map fun r => (if r.1 = 0 then data else [], [], r.2)
  | .drain len => (b.drain len).map fun r => ([], b.contents.take (b.totalLen - r.2.totalLen), r.2)
  | .remove datlen => (b.remove datlen).map fun r => ([], r.2.1, r.2.2)
  | .copyout datlen => (b.copyout datlen).map fun _ => ([], [], b)
  | .pullup size => (b.pullup mem size).map fun r => ([], [], r.2)

/-- A call of the user, also one in another part of the library that the user has set off. -/
inductive UserCall where
  | input (mem : Malloc) (call : BufferCall)
  | output (mem : Malloc) (call : BufferCall)
  | enable (event : Direction)
  | disable (event : Direction)
  | setwatermark (highmark : ℕ)
  | connectHostname
  | getaddrinfoCb (r : Option Bufferevent.ConnectResult)

/-- A call of the event loop. `timeout` is `event == EV_TIMEOUT`, `retriable` is what is said of `errno`. -/
inductive LoopCall where
  /-- `bufferevent_readcb`, with what the socket has. -/
  | readcb (timeout : Bool) (mem : Malloc) (nVecs : ℕ) (readable : ℤ) (incoming : Option (List UInt8))
      (retriable : Bool)
  /-- `bufferevent_writecb`, with how much the socket takes. `c` is what `evutil_socket_finished_connecting`
  says, `calls` what the user does when the connection is made. -/
  | writecb (timeout : Bool) (c : ℤ) (calls : List UserCall) (accepted : Option ℕ) (retriable : Bool)

/-- A bufferevent with the bytes that went through it. -/
structure Stream where
  bev : Bufferevent
  /-- What came from the socket. -/
  received : List UInt8
  /-- What the user took from the input buffer. -/
  taken : List UInt8
  /-- What the user added to the output buffer. -/
  accepted : List UInt8
  /-- What went to the socket. -/
  sent : List UInt8
  /-- A connection was not made, as the user was told. -/
  failed : Bool

namespace Stream

/-- After `bufferevent_socket_new`. Source: `event/bufferevent_sock.c`, `bufferevent_socket_new`. -/
def start : Stream := ⟨.socketNew, [], [], [], [], false⟩

/-- A call of the user. Source: `event/bufferevent.c`, `bufferevent_write`, `bufferevent_read`. -/
def user (s : Stream) : UserCall → Option Stream
  | .input mem call =>
      (call.run mem s.bev.input).map fun r =>
        { s with bev := s.bev.setInput r.2.2, taken := s.taken ++ r.2.1 }
  | .output mem call =>
      (call.run mem s.bev.output).map fun r =>
        { s with bev := s.bev.setOutput r.2.2, accepted := s.accepted ++ r.1 }
  | .enable event => some { s with bev := s.bev.enable event }
  | .disable event => some { s with bev := s.bev.disable event }
  | .setwatermark highmark => some { s with bev := s.bev.setwatermark highmark }
  | .connectHostname => some { s with bev := s.bev.connectHostname }
  | .getaddrinfoCb r => some { s with bev := s.bev.getaddrinfoCb r }

/-- Calls of the user, one after the other. -/
def users (s : Stream) (calls : List UserCall) : Option Stream := calls.foldlM Stream.user s

/-- Source: `event/bufferevent_sock.c`, `bufferevent_readcb`. -/
def readcb (s : Stream) (timeout : Bool) (mem : Malloc) (nVecs : ℕ) (readable : ℤ)
    (incoming : Option (List UInt8)) (retriable : Bool) : Option Stream :=
  let b := s.bev
  let howmuch := if b.wmReadHigh ≠ 0 then Bufferevent.ssizeSub b.wmReadHigh b.input.totalLen else -1
  if timeout then some { s with bev := b.disable .read }
  else if b.wmReadHigh ≠ 0 ∧ howmuch ≤ 0 then some { s with bev := b.suspendRead .wm }
  else
    let howmuch := if howmuch < 0 ∨ howmuch > Bufferevent.maxToReadEver then Bufferevent.maxToReadEver
      else howmuch
    if b.readSuspended ≠ ∅ then some s
    else do
      let r ← { b.input with freezeEnd := false }.read mem nVecs readable howmuch incoming
      let b := b.setInput { r.2.2 with freezeEnd := true }
      let b := if r.1 = -1 ∧ retriable ∨ r.1 > 0 then b else b.disable .read
      some { s with bev := b, received := s.received ++ r.2.1 }

/-- `bufferevent_writecb`, from where there is a connection. Source: `event/bufferevent_sock.c`,
`bufferevent_writecb`. -/
def writeOutput (s : Stream) (accepted : Option ℕ) (retriable : Bool) : Option Stream :=
  let b := s.bev
  if b.writeSuspended ≠ ∅ then some s
  else if b.output.totalLen ≠ 0 then do
    let r ← { b.output with freezeStart := false }.writeAtmost Bufferevent.maxToWriteEver accepted
    let b := b.setOutput { r.2.2 with freezeStart := true }
    let b := if r.1 = -1 ∧ retriable ∨ r.1 > 0 then
        if b.output.totalLen = 0 then b.delWrite else b
      else b.disable .write
    some { s with bev := b, sent := s.sent ++ r.2.1 }
  else some { s with bev := b.delWrite }

/-- Source: `event/bufferevent_sock.c`, `bufferevent_writecb`. -/
def writecb (s : Stream) (timeout : Bool) (c : ℤ) (calls : List UserCall) (accepted : Option ℕ)
    (retriable : Bool) : Option Stream :=
  let b := { s.bev with activeWrite := false }
  if timeout then some { s with bev := b.disable .write }
  else if b.connecting then
    let c := if b.connectionRefused then -1 else c
    let b := { b with connectionRefused := false }
    if c = 0 then some { s with bev := b }
    else
      let b := { b with connecting := false }
      if c < 0 then some { s with bev := b.delWrite.delRead, failed := true }
      else do
        let s ← { s with bev := b }.users calls
        if ¬ s.bev.enabledWrite ∨ s.bev.writeSuspended ≠ ∅ then some { s with bev := s.bev.delWrite }
        else s.writeOutput accepted retriable
  else { s with bev := b }.writeOutput accepted retriable

/-- A call of the event loop, for an event that is pending. -/
def loop (s : Stream) : LoopCall → Option Stream
  | .readcb timeout mem nVecs readable incoming retriable =>
      if s.bev.evRead then s.readcb timeout mem nVecs readable incoming retriable else some s
  | .writecb timeout c calls accepted retriable =>
      if s.bev.evWrite ∨ s.bev.activeWrite then s.writecb timeout c calls accepted retriable else some s

end Stream

/-- Any calls of the user and of the event loop. A failed assertion or an access outside a chain refuses. -/
def streams : Machine Stream (UserCall ⊕ LoopCall) where
  init := .start
  step s e := e.elim s.user s.loop

/-! ## The bytes -/

/-- A call on a buffer that has no empty chain behind the data, or that nothing may be added to. -/
lemma BufferCall.run_spec {b : Evbuffer} (h : b.Valid) (hadd : b.Packed ∨ b.freezeEnd = true) (mem : Malloc)
    (call : BufferCall) :
    ∃ added taken b', call.run mem b = some (added, taken, b') ∧ b.Keeps b' ∧
      taken ++ b'.contents = b.contents ++ added ∧ (b.freezeEnd = true → added = []) ∧
      (b.freezeStart = true → taken = []) := by
  cases call with
  | add data =>
      by_cases hfreeze : b.freezeEnd = true
      · refine ⟨[], [], b, ?_, h.keeps, by simp, fun _ => rfl, fun _ => rfl⟩
        rw [BufferCall.run, Evbuffer.add, if_pos hfreeze]
        rfl
      · obtain ⟨r, b', hrun, hkeeps, hresult⟩ :=
          Evbuffer.add_spec h (hadd.resolve_right hfreeze) mem data
        rw [BufferCall.run, hrun, Option.map_some]
        refine ⟨_, [], b', rfl, hkeeps, ?_, fun hc => absurd hc hfreeze, fun _ => rfl⟩
        rcases hresult with ⟨rfl, hsame⟩ | ⟨rfl, hsame, -⟩
        · rw [if_pos rfl, List.nil_append, hsame]
        · rw [if_neg (by simp), List.nil_append, hsame, List.append_nil]
  | drain len =>
      obtain ⟨r, b', hrun, hkeeps, hcontents, -⟩ := Evbuffer.drain_spec h len
      rw [BufferCall.run, hrun, Option.map_some]
      have hlen : b.totalLen - b'.totalLen =
          min (if b.freezeStart = true then 0 else len) b.contents.length := by
        rw [h.total, hkeeps.valid.total, hcontents, List.length_drop]
        omega
      refine ⟨[], _, b', rfl, hkeeps, ?_, fun _ => rfl, ?_⟩
      · dsimp only
        rw [hlen, ← List.take_eq_take_min, hcontents, List.take_append_drop, List.append_nil]
      · intro hfreeze
        dsimp only
        rw [hlen, if_pos hfreeze, Nat.zero_min, List.take_zero]
  | remove datlen =>
      obtain ⟨r, data, b', hrun, hkeeps, hdata, hcontents, -⟩ := Evbuffer.remove_spec h datlen
      rw [BufferCall.run, hrun, Option.map_some]
      refine ⟨[], data, b', rfl, hkeeps, by rw [hcontents, List.append_nil], fun _ => rfl, ?_⟩
      intro hfreeze
      rw [hdata, if_pos hfreeze, List.take_zero]
  | copyout datlen =>
      obtain ⟨r, data, hrun, -⟩ := Evbuffer.copyout_spec h datlen
      rw [BufferCall.run, hrun]
      exact ⟨[], [], b, rfl, h.keeps, by simp, fun _ => rfl, fun _ => rfl⟩
  | pullup size =>
      obtain ⟨r, b', hrun, hkeeps, hsame, -⟩ := Evbuffer.pullup_spec h mem size
      rw [BufferCall.run, hrun]
      exact ⟨[], [], b', rfl, hkeeps, by simp [hsame], fun _ => rfl, fun _ => rfl⟩

namespace Bufferevent

variable (b : Bufferevent)

/-- The two buffers. -/
def buffers : Evbuffer × Evbuffer := (b.input, b.output)

/-- Deleting `ev_read` leaves the two buffers alone. -/
@[simp] lemma buffers_delRead : b.delRead.buffers = b.buffers := rfl

/-- So does deleting `ev_write`. -/
@[simp] lemma buffers_delWrite : b.delWrite.buffers = b.buffers := rfl

/-- So does adding events to the loop. -/
@[simp] lemma buffers_beSocketEnable (event : Direction) :
    (b.beSocketEnable event).buffers = b.buffers := by
  cases event <;> rfl

/-- So does taking events from the loop. -/
@[simp] lemma buffers_beSocketDisable (event : Direction) :
    (b.beSocketDisable event).buffers = b.buffers := by
  cases event with
  | read => rfl
  | write =>
      rw [beSocketDisable]
      split <;> rfl

/-- So does enabling a direction. -/
@[simp] lemma buffers_enable (event : Direction) : (b.enable event).buffers = b.buffers := by
  cases event <;> (rw [enable]; dsimp only; split <;> rfl)

/-- So does disabling a direction. -/
@[simp] lemma buffers_disable (event : Direction) : (b.disable event).buffers = b.buffers := by
  cases event <;> exact buffers_beSocketDisable _ _

/-- So does suspending the reading. -/
@[simp] lemma buffers_suspendRead (what : Suspend) : (b.suspendRead what).buffers = b.buffers := by
  rw [suspendRead]
  split <;> rfl

/-- So does taking up the reading again. -/
@[simp] lemma buffers_unsuspendRead (what : Suspend) : (b.unsuspendRead what).buffers = b.buffers := by
  rw [unsuspendRead]
  dsimp only
  split <;> rfl

/-- So does suspending the writing. -/
@[simp] lemma buffers_suspendWrite (what : Suspend) : (b.suspendWrite what).buffers = b.buffers := by
  rw [suspendWrite]
  split
  · exact buffers_beSocketDisable _ _
  · rfl

/-- So does taking up the writing again. -/
@[simp] lemma buffers_unsuspendWrite (what : Suspend) : (b.unsuspendWrite what).buffers = b.buffers := by
  rw [unsuspendWrite]
  dsimp only
  split <;> rfl

/-- The input is the first of the two. -/
@[simp] lemma buffers_setInput (input : Evbuffer) : (b.setInput input).buffers = (input, b.output) := by
  rw [setInput]
  split
  · rw [inbufWmCb]
    split
    · rw [buffers_suspendRead]; rfl
    · rw [buffers_unsuspendRead]; rfl
  · rfl

/-- The output is the second of the two. -/
@[simp] lemma buffers_setOutput (output : Evbuffer) : (b.setOutput output).buffers = (b.input, output) := by
  rw [setOutput]
  split
  · rw [outbufCb]
    split <;> rfl
  · rfl

/-- Setting a watermark leaves the two buffers alone. -/
@[simp] lemma buffers_setwatermark (highmark : ℕ) : (b.setwatermark highmark).buffers = b.buffers := by
  rw [setwatermark]
  split
  · dsimp only
    split
    · rw [buffers_suspendRead]; rfl
    · split
      · rw [buffers_unsuspendRead]; rfl
      · rfl
  · rw [buffers_unsuspendRead]; rfl

/-- So does setting a descriptor. -/
@[simp] lemma buffers_setfd : b.setfd.buffers = b.buffers := by
  rw [setfd]
  split <;> split <;> simp

/-- So does the begin of a lookup. -/
@[simp] lemma buffers_connectHostname : b.connectHostname.buffers = b.buffers := by
  rw [connectHostname, buffers_suspendRead, buffers_suspendWrite]

/-- So does the begin of a connection. -/
@[simp] lemma buffers_socketConnect (r : ConnectResult) : (b.socketConnect r).buffers = b.buffers := by
  cases r with
  | failed => rfl
  | inProgress => exact (buffers_beSocketEnable _ _).trans b.buffers_setfd
  | connected => exact b.buffers_setfd
  | refused => exact b.buffers_setfd

/-- So does the end of a lookup. -/
@[simp] lemma buffers_getaddrinfoCb (r : Option ConnectResult) :
    (b.getaddrinfoCb r).buffers = b.buffers := by
  cases r <;> simp [getaddrinfoCb]

end Bufferevent

namespace Stream

/-- The buffers are as they should be, and hold what came in and has not left. -/
structure Flows (s : Stream) : Prop where
  input : s.bev.input.Valid
  inputEnd : s.bev.input.freezeEnd = true
  output : s.bev.output.Valid
  outputPacked : s.bev.output.Packed
  outputStart : s.bev.output.freezeStart = true
  received : s.received = s.taken ++ s.bev.input.contents
  accepted : s.accepted = s.sent ++ s.bev.output.contents

/-- At the start nothing has been put in or taken out. -/
lemma flows_start : start.Flows :=
  ⟨⟨rfl, .inr ⟨rfl, rfl⟩⟩, rfl, ⟨rfl, .inr ⟨rfl, rfl⟩⟩, .inl rfl, rfl, rfl, rfl⟩

variable {s : Stream}

/-- Where the buffers stay as they are. -/
lemma Flows.of_buffers (h : s.Flows) {b : Bufferevent} (hb : b.buffers = s.bev.buffers) (failed : Bool) :
    Flows { s with bev := b, failed := failed } := by
  obtain ⟨hinput, houtput⟩ := Prod.ext_iff.mp hb
  have hinput : b.input = s.bev.input := hinput
  have houtput : b.output = s.bev.output := houtput
  obtain ⟨h₁, h₂, h₃, h₄, h₅, h₆, h₇⟩ := h
  exact ⟨hinput ▸ h₁, hinput ▸ h₂, houtput ▸ h₃, houtput ▸ h₄, houtput ▸ h₅, hinput ▸ h₆, houtput ▸ h₇⟩

/-- Where the input buffer is another one. -/
lemma Flows.setInput (h : s.Flows) {b : Bufferevent} {e : Evbuffer} (hb : b.buffers = (e, s.bev.output))
    (hvalid : e.Valid) (hend : e.freezeEnd = true) {received taken : List UInt8}
    (hbytes : received = taken ++ e.contents) :
    Flows { s with bev := b, received := received, taken := taken } := by
  obtain ⟨hinput, houtput⟩ := Prod.ext_iff.mp hb
  have hinput : b.input = e := hinput
  have houtput : b.output = s.bev.output := houtput
  obtain ⟨-, -, h₃, h₄, h₅, -, h₇⟩ := h
  exact ⟨hinput ▸ hvalid, hinput ▸ hend, houtput ▸ h₃, houtput ▸ h₄, houtput ▸ h₅, hinput ▸ hbytes,
    houtput ▸ h₇⟩

/-- Where the output buffer is another one. -/
lemma Flows.setOutput (h : s.Flows) {b : Bufferevent} {e : Evbuffer} (hb : b.buffers = (s.bev.input, e))
    (hvalid : e.Valid) (hpacked : e.Packed) (hstart : e.freezeStart = true) {accepted sent : List UInt8}
    (hbytes : accepted = sent ++ e.contents) :
    Flows { s with bev := b, accepted := accepted, sent := sent } := by
  obtain ⟨hinput, houtput⟩ := Prod.ext_iff.mp hb
  have hinput : b.input = s.bev.input := hinput
  have houtput : b.output = e := houtput
  obtain ⟨h₁, h₂, -, -, -, h₆, -⟩ := h
  exact ⟨hinput ▸ h₁, hinput ▸ h₂, houtput ▸ hvalid, houtput ▸ hpacked, houtput ▸ hstart, hinput ▸ h₆,
    houtput ▸ hbytes⟩

/-- A call of the user, -/
lemma Flows.exists_user (h : s.Flows) (call : UserCall) : ∃ t, s.user call = some t ∧ t.Flows := by
  cases call with
  | input mem call =>
      obtain ⟨added, taken, e, hrun, hkeeps, hbytes, hadded, -⟩ :=
        BufferCall.run_spec h.input (.inr h.inputEnd) mem call
      rw [hadded h.inputEnd, List.append_nil] at hbytes
      rw [user, hrun, Option.map_some]
      refine ⟨_, rfl, h.setInput (Bufferevent.buffers_setInput _ _) hkeeps.valid ?_ ?_⟩
      · rw [hkeeps.freezeEnd, h.inputEnd]
      · rw [h.received, List.append_assoc, hbytes]
  | output mem call =>
      obtain ⟨added, taken, e, hrun, hkeeps, hbytes, -, htaken⟩ :=
        BufferCall.run_spec h.output (.inl h.outputPacked) mem call
      rw [htaken h.outputStart, List.nil_append] at hbytes
      rw [user, hrun, Option.map_some]
      refine ⟨_, rfl, h.setOutput (Bufferevent.buffers_setOutput _ _) hkeeps.valid
        (hkeeps.packed h.outputPacked) ?_ ?_⟩
      · rw [hkeeps.freezeStart, h.outputStart]
      · rw [h.accepted, List.append_assoc, hbytes]
  | enable event => exact ⟨_, rfl, h.of_buffers (by simp) _⟩
  | disable event => exact ⟨_, rfl, h.of_buffers (by simp) _⟩
  | setwatermark highmark => exact ⟨_, rfl, h.of_buffers (by simp) _⟩
  | connectHostname => exact ⟨_, rfl, h.of_buffers (by simp) _⟩
  | getaddrinfoCb r => exact ⟨_, rfl, h.of_buffers (by simp) _⟩

/-- and more than one. -/
lemma Flows.exists_users (h : s.Flows) (calls : List UserCall) :
    ∃ t, s.users calls = some t ∧ t.Flows := by
  induction calls generalizing s with
  | nil => exact ⟨s, rfl, h⟩
  | cons call calls ih =>
      obtain ⟨u, hu, hflows⟩ := h.exists_user call
      obtain ⟨t, ht, hflows'⟩ := ih hflows
      refine ⟨t, ?_, hflows'⟩
      rw [users, List.foldlM_cons, hu]
      exact ht

/-- Reading. -/
lemma Flows.exists_readcb (h : s.Flows) (timeout : Bool) (mem : Malloc) (nVecs : ℕ) (readable : ℤ)
    (incoming : Option (List UInt8)) (retriable : Bool) :
    ∃ t, s.readcb timeout mem nVecs readable incoming retriable = some t ∧ t.Flows := by
  unfold readcb
  extract_lets b howmuch howmuch'
  split
  · exact ⟨_, rfl, h.of_buffers (by simp [b]) _⟩
  split
  · exact ⟨_, rfl, h.of_buffers (by simp [b]) _⟩
  split
  · exact ⟨s, rfl, h⟩
  have hvalid : Evbuffer.Valid { b.input with freezeEnd := false } := ⟨h.input.total, h.input.ends⟩
  obtain ⟨r, bytes, e, hread, hgets, -⟩ :=
    Evbuffer.read_spec hvalid mem nVecs readable howmuch' incoming
  rw [hread, Option.bind_eq_bind, Option.bind_some]
  have hbytes : s.received ++ bytes = s.taken ++ e.contents := by
    rw [hgets.contents_eq, h.received, List.append_assoc]
    rfl
  refine ⟨_, rfl, h.setInput ?_ (e := { e with freezeEnd := true }) ⟨hgets.valid.total, hgets.valid.ends⟩
    rfl hbytes⟩
  split <;> simp [b]

/-- Writing. -/
lemma Flows.exists_writeOutput (h : s.Flows) (accepted : Option ℕ) (retriable : Bool) :
    ∃ t, s.writeOutput accepted retriable = some t ∧ t.Flows := by
  unfold writeOutput
  extract_lets b
  split
  · exact ⟨s, rfl, h⟩
  split
  · have hvalid : Evbuffer.Valid { b.output with freezeStart := false } :=
      ⟨h.output.total, h.output.ends⟩
    obtain ⟨r, sent, e, hwrite, hkeeps, hcontents, -⟩ :=
      Evbuffer.writeAtmost_spec hvalid Bufferevent.maxToWriteEver accepted
    rw [hwrite, Option.bind_eq_bind, Option.bind_some]
    have hbytes : s.accepted = s.sent ++ sent ++ e.contents := by
      rw [h.accepted, List.append_assoc, hcontents]
      rfl
    refine ⟨_, rfl, h.setOutput ?_ (e := { e with freezeStart := true })
      ⟨hkeeps.valid.total, hkeeps.valid.ends⟩ (hkeeps.packed h.outputPacked) rfl hbytes⟩
    split
    · split <;> simp [b]
    · simp [b]
  · exact ⟨_, rfl, h.of_buffers (by simp [b]) _⟩

/-- Writing, and connecting before it. -/
lemma Flows.exists_writecb (h : s.Flows) (timeout : Bool) (c : ℤ) (calls : List UserCall)
    (accepted : Option ℕ) (retriable : Bool) :
    ∃ t, s.writecb timeout c calls accepted retriable = some t ∧ t.Flows := by
  unfold writecb
  extract_lets b₀ b c' b₁ b₂
  split
  · exact ⟨_, rfl, h.of_buffers (b.buffers_disable .write) _⟩
  split
  · split
    · exact ⟨_, rfl, h.of_buffers (b := b₁) rfl _⟩
    split
    · exact ⟨_, rfl, h.of_buffers (b := b₂.delWrite.delRead) rfl _⟩
    have hmade : Flows { s with bev := b₂ } := h.of_buffers (b := b₂) rfl _
    obtain ⟨u, hu, hflows⟩ := hmade.exists_users calls
    rw [hu, Option.bind_eq_bind, Option.bind_some]
    split
    · exact ⟨_, rfl, hflows.of_buffers u.bev.buffers_delWrite _⟩
    · exact hflows.exists_writeOutput accepted retriable
  · have hfired : Flows { s with bev := b } := h.of_buffers (b := b) rfl _
    exact hfired.exists_writeOutput accepted retriable

/-- A step. -/
lemma Flows.exists_step (h : s.Flows) (e : UserCall ⊕ LoopCall) :
    ∃ t, streams.step s e = some t ∧ t.Flows := by
  rcases e with call | call
  · exact h.exists_user call
  · cases call with
    | readcb timeout mem nVecs readable incoming retriable =>
        dsimp only [streams, Sum.elim_inr, loop]
        split
        · exact h.exists_readcb timeout mem nVecs readable incoming retriable
        · exact ⟨s, rfl, h⟩
    | writecb timeout c calls accepted retriable =>
        dsimp only [streams, Sum.elim_inr, loop]
        split
        · exact h.exists_writecb timeout c calls accepted retriable
        · exact ⟨s, rfl, h⟩

/-- Every run goes on. -/
lemma flows_run (es : List (UserCall ⊕ LoopCall)) : ∃ s, streams.run es = some s ∧ s.Flows :=
  streams.exists_run flows_start (fun _ e h => h.exists_step e) es

/-- **The bytes**: every run goes on; what came from the socket is what the user took and what is in the
input buffer, and what the user added is what went to the socket and what is in the output buffer, in this
order. -/
theorem streams_run (es : List (UserCall ⊕ LoopCall)) :
    ∃ s, streams.run es = some s ∧ s.received = s.taken ++ s.bev.input.contents ∧
      s.accepted = s.sent ++ s.bev.output.contents := by
  obtain ⟨s, hrun, hflows⟩ := flows_run es
  exact ⟨s, hrun, hflows.received, hflows.accepted⟩

end Stream

end CocInside.LibEvent
