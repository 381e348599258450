import CocInside.LibEvent.Bufferevent

/-!
# When a `bufferevent` is called

The events of reading and writing are added and deleted in many places: when they are enabled or disabled,
suspended or not for the lookup of a name or the high-water mark, when bytes are added to the output buffer or
all of it is written, and around a connection attempt.

* `Armed`: where nothing stands in the way of reading or writing, the event is pending. `Marked`: reading is
  suspended for the mark only where it is reached. `Stream.Keeps`: every step keeps both, but a connection
  that is not made.
* `armed_run`: no wake-up is lost, in any run.
* `Below`, `mark_run`: no more is read than fits below the mark, whatever is set off by it.

Source: `event/bufferevent.c`, `event/bufferevent_sock.c`.
-/

namespace CocInside.LibEvent

open CocInside.Lib

namespace Bufferevent

/-- Where nothing stands in the way, the event is pending; reading is not otherwise. -/
structure Armed (b : Bufferevent) : Prop where
  read : b.evRead = true ↔ b.enabledRead = true ∧ b.readSuspended = ∅
  write : b.output.totalLen ≠ 0 ∨ b.activeWrite = true → b.enabledWrite = true →
    b.writeSuspended = ∅ → b.evWrite = true

/-- Reading is only suspended for the high-water mark where there is one and it is reached. -/
structure Marked (b : Bufferevent) : Prop where
  callback : b.readWatermarksCb = true ↔ b.wmReadHigh ≠ 0
  small : b.wmReadHigh ≤ evSsizeMax
  reached : .wm ∈ b.readSuspended → b.wmReadHigh ≠ 0 ∧ b.wmReadHigh ≤ b.input.totalLen

variable {b : Bufferevent}

/-- Enabling adds the event that is then wanted. -/
lemma Armed.enable (h : b.Armed) (event : Direction) : (b.enable event).Armed := by
  obtain ⟨hread, hwrite⟩ := h
  cases event <;> constructor <;> grind [Bufferevent.enable, beSocketEnable]

/-- Disabling deletes the event that is no longer wanted. -/
lemma Armed.disable (h : b.Armed) (event : Direction) : (b.disable event).Armed := by
  obtain ⟨hread, hwrite⟩ := h
  cases event <;> constructor <;> grind [Bufferevent.disable, beSocketDisable, delRead, delWrite]

/-- A suspension deletes `ev_read`. -/
lemma Armed.suspendRead (h : b.Armed) (what : Suspend) : (b.suspendRead what).Armed := by
  obtain ⟨hread, hwrite⟩ := h
  have hne := Finset.insert_ne_empty what b.readSuspended
  constructor <;> grind [Bufferevent.suspendRead, beSocketDisable, delRead]

/-- The last suspension lifted adds `ev_read` again. -/
lemma Armed.unsuspendRead (h : b.Armed) (what : Suspend) : (b.unsuspendRead what).Armed := by
  obtain ⟨hread, hwrite⟩ := h
  have hnil := Finset.erase_empty what
  constructor <;> grind [Bufferevent.unsuspendRead, beSocketEnable]

/-- A suspension deletes `ev_write`. -/
lemma Armed.suspendWrite (h : b.Armed) (what : Suspend) : (b.suspendWrite what).Armed := by
  obtain ⟨hread, hwrite⟩ := h
  have hne := Finset.insert_ne_empty what b.writeSuspended
  constructor <;> grind [Bufferevent.suspendWrite, beSocketDisable, delWrite]

/-- The last suspension lifted adds `ev_write` again. -/
lemma Armed.unsuspendWrite (h : b.Armed) (what : Suspend) : (b.unsuspendWrite what).Armed := by
  obtain ⟨hread, hwrite⟩ := h
  have hnil := Finset.erase_empty what
  constructor <;> grind [Bufferevent.unsuspendWrite, beSocketEnable]

/-- Taken from or added to, the input lifts or sets the suspension by the mark. -/
lemma Armed.setInput (h : b.Armed) (input : Evbuffer) : (b.setInput input).Armed := by
  have hset : Armed { b with input := input } := ⟨h.read, h.write⟩
  rw [Bufferevent.setInput]
  split
  · rw [inbufWmCb]
    split
    · exact hset.suspendRead .wm
    · exact hset.unsuspendRead .wm
  · exact hset

/-- Bytes added to the output add `ev_write`. -/
lemma Armed.setOutput (h : b.Armed) (output : Evbuffer) : (b.setOutput output).Armed := by
  obtain ⟨hread, hwrite⟩ := h
  constructor <;> grind [Bufferevent.setOutput, outbufCb]

/-- A new mark sets or lifts the suspension by it. -/
lemma Armed.setwatermark (h : b.Armed) (highmark : ℕ) : (b.setwatermark highmark).Armed := by
  have hset : ∀ cb, Armed { b with wmReadHigh := highmark, readWatermarksCb := cb } :=
    fun _ => ⟨h.read, h.write⟩
  rw [Bufferevent.setwatermark]
  split
  · dsimp only
    split
    · exact (hset true).suspendRead .wm
    · split
      · exact (hset true).unsuspendRead .wm
      · exact hset true
  · exact (hset false).unsuspendRead .wm

/-- With a descriptor set, both events are wanted exactly where they are enabled. -/
lemma armed_setfd (b : Bufferevent) : b.setfd.Armed := by
  constructor <;> grind [Bufferevent.setfd, Bufferevent.enable, beSocketEnable, delRead, delWrite]

/-- A connection attempt leaves the event of writing active only where it is pending, too, if it may be. -/
lemma Armed.socketConnect (h : b.Armed) (r : ConnectResult) : (b.socketConnect r).Armed := by
  cases r with
  | failed => exact h
  | inProgress =>
      obtain ⟨hread, hwrite⟩ := b.armed_setfd
      constructor <;> grind [Bufferevent.socketConnect, beSocketEnable]
  | connected =>
      constructor <;>
        grind [Bufferevent.socketConnect, Bufferevent.setfd, Bufferevent.enable, beSocketEnable, delRead,
          delWrite]
  | refused =>
      constructor <;>
        grind [Bufferevent.socketConnect, Bufferevent.setfd, Bufferevent.enable, beSocketEnable, delRead,
          delWrite]

/-- A lookup suspends both directions. -/
lemma Armed.connectHostname (h : b.Armed) : b.connectHostname.Armed :=
  (h.suspendWrite .lookup).suspendRead .lookup

/-- The end of a lookup lifts both suspensions, and a connection may be under way. -/
lemma Armed.getaddrinfoCb (h : b.Armed) (r : Option ConnectResult) : (b.getaddrinfoCb r).Armed := by
  have hlookup := (h.unsuspendWrite .lookup).unsuspendRead .lookup
  cases r with
  | none => exact hlookup
  | some r => exact hlookup.socketConnect r

/-- The event of writing goes where it is not needed. -/
lemma Armed.delWrite (h : b.Armed)
    (hidle : b.output.totalLen = 0 ∨ b.enabledWrite = false ∨ b.writeSuspended ≠ ∅) : b.delWrite.Armed := by
  obtain ⟨hread, hwrite⟩ := h
  constructor <;> grind [Bufferevent.delWrite]

/-- What `Marked` speaks of stays, but for suspending by other reasons. -/
lemma Marked.of_eq (h : b.Marked) {b' : Bufferevent} (hcb : b'.readWatermarksCb = b.readWatermarksCb)
    (hmark : b'.wmReadHigh = b.wmReadHigh) (hinput : b'.input = b.input)
    (hwm : .wm ∈ b'.readSuspended → .wm ∈ b.readSuspended) : b'.Marked := by
  refine ⟨by rw [hcb, hmark]; exact h.callback, by rw [hmark]; exact h.small, ?_⟩
  rw [hmark, hinput]
  exact h.reached ∘ hwm

/-- Enabling leaves the mark and its suspension. -/
lemma Marked.enable (h : b.Marked) (event : Direction) : (b.enable event).Marked := by
  apply h.of_eq <;> cases event <;> grind [Bufferevent.enable, beSocketEnable]

/-- Disabling leaves the mark and its suspension. -/
lemma Marked.disable (h : b.Marked) (event : Direction) : (b.disable event).Marked := by
  apply h.of_eq <;> cases event <;> grind [Bufferevent.disable, beSocketDisable, delRead, delWrite]

/-- The mark is about reading. -/
lemma Marked.suspendWrite (h : b.Marked) (what : Suspend) : (b.suspendWrite what).Marked := by
  apply h.of_eq <;> grind [Bufferevent.suspendWrite, beSocketDisable, delWrite]

/-- The mark is about reading. -/
lemma Marked.unsuspendWrite (h : b.Marked) (what : Suspend) : (b.unsuspendWrite what).Marked := by
  apply h.of_eq <;> grind [Bufferevent.unsuspendWrite, beSocketEnable]

/-- The mark is about the input. -/
lemma Marked.setOutput (h : b.Marked) (output : Evbuffer) : (b.setOutput output).Marked := by
  apply h.of_eq <;> grind [Bufferevent.setOutput, outbufCb]

/-- A connection leaves the mark and its suspension. -/
lemma Marked.socketConnect (h : b.Marked) (r : ConnectResult) : (b.socketConnect r).Marked := by
  apply h.of_eq <;> cases r <;>
    grind [Bufferevent.socketConnect, setfd, Bufferevent.enable, beSocketEnable, delRead, delWrite]

/-- A suspension for a lookup is not the one by the mark. -/
lemma Marked.suspendLookup (h : b.Marked) : (b.suspendRead .lookup).Marked := by
  apply h.of_eq <;> grind [Bufferevent.suspendRead, beSocketDisable, delRead]

/-- Lifting the suspension for a lookup leaves the one by the mark. -/
lemma Marked.unsuspendLookup (h : b.Marked) : (b.unsuspendRead .lookup).Marked := by
  apply h.of_eq <;> grind [Bufferevent.unsuspendRead, beSocketEnable]

/-- Suspending, where the mark is reached. -/
lemma marked_suspendRead (hcb : b.readWatermarksCb = true ↔ b.wmReadHigh ≠ 0)
    (hsmall : b.wmReadHigh ≤ evSsizeMax) (hmark : b.wmReadHigh ≠ 0)
    (hle : b.wmReadHigh ≤ b.input.totalLen) : (b.suspendRead .wm).Marked := by
  constructor <;> grind [Bufferevent.suspendRead, beSocketDisable, delRead]

/-- Reading goes on, so no mark need be reached. -/
lemma marked_unsuspendRead (hcb : b.readWatermarksCb = true ↔ b.wmReadHigh ≠ 0)
    (hsmall : b.wmReadHigh ≤ evSsizeMax) : (b.unsuspendRead .wm).Marked := by
  constructor <;> grind [Bufferevent.unsuspendRead, beSocketEnable]

/-- The suspension by the mark follows the length of the input. -/
lemma Marked.setInput (h : b.Marked) (input : Evbuffer) : (b.setInput input).Marked := by
  rw [Bufferevent.setInput]
  split
  · next hchanged =>
      rw [inbufWmCb]
      split
      · next hle => exact marked_suspendRead h.callback h.small (h.callback.mp hchanged.2) hle
      · exact marked_unsuspendRead h.callback h.small
  · next hsame =>
      refine ⟨h.callback, h.small, fun hwm => ?_⟩
      obtain ⟨hmark, hle⟩ := h.reached hwm
      have hlen : input.totalLen = b.input.totalLen := by
        by_contra hne
        exact hsame ⟨hne, h.callback.mpr hmark⟩
      exact ⟨hmark, hlen ▸ hle⟩

/-- A lookup leaves the mark and its suspension. -/
lemma Marked.connectHostname (h : b.Marked) : b.connectHostname.Marked :=
  (h.suspendWrite .lookup).suspendLookup

/-- The end of a lookup leaves the mark and its suspension. -/
lemma Marked.getaddrinfoCb (h : b.Marked) (r : Option ConnectResult) : (b.getaddrinfoCb r).Marked := by
  have hlookup := (h.unsuspendWrite .lookup).unsuspendLookup
  cases r with
  | none => exact hlookup
  | some r => exact hlookup.socketConnect r

/-- The mark is only changed by `bufferevent_setwatermark`. -/
@[simp] lemma wmReadHigh_enable (b : Bufferevent) (event : Direction) :
    (b.enable event).wmReadHigh = b.wmReadHigh := by
  cases event <;> grind [Bufferevent.enable, beSocketEnable]

/-- Disabling leaves the mark. -/
@[simp] lemma wmReadHigh_disable (b : Bufferevent) (event : Direction) :
    (b.disable event).wmReadHigh = b.wmReadHigh := by
  cases event <;> grind [Bufferevent.disable, beSocketDisable, delRead, delWrite]

/-- Suspending leaves the mark. -/
@[simp] lemma wmReadHigh_suspendRead (b : Bufferevent) (what : Suspend) :
    (b.suspendRead what).wmReadHigh = b.wmReadHigh := by
  grind [Bufferevent.suspendRead, beSocketDisable, delRead]

/-- Lifting a suspension leaves the mark. -/
@[simp] lemma wmReadHigh_unsuspendRead (b : Bufferevent) (what : Suspend) :
    (b.unsuspendRead what).wmReadHigh = b.wmReadHigh := by
  grind [Bufferevent.unsuspendRead, beSocketEnable]

/-- Suspending leaves the mark. -/
@[simp] lemma wmReadHigh_suspendWrite (b : Bufferevent) (what : Suspend) :
    (b.suspendWrite what).wmReadHigh = b.wmReadHigh := by
  grind [Bufferevent.suspendWrite, beSocketDisable, delWrite]

/-- Lifting a suspension leaves the mark. -/
@[simp] lemma wmReadHigh_unsuspendWrite (b : Bufferevent) (what : Suspend) :
    (b.unsuspendWrite what).wmReadHigh = b.wmReadHigh := by
  grind [Bufferevent.unsuspendWrite, beSocketEnable]

/-- What happens to the input leaves the mark. -/
@[simp] lemma wmReadHigh_setInput (b : Bufferevent) (input : Evbuffer) :
    (b.setInput input).wmReadHigh = b.wmReadHigh := by
  grind [Bufferevent.setInput, inbufWmCb, wmReadHigh_suspendRead, wmReadHigh_unsuspendRead]

/-- What happens to the output leaves the mark. -/
@[simp] lemma wmReadHigh_setOutput (b : Bufferevent) (output : Evbuffer) :
    (b.setOutput output).wmReadHigh = b.wmReadHigh := by
  grind [Bufferevent.setOutput, outbufCb]

/-- The mark that is set. -/
@[simp] lemma wmReadHigh_setwatermark (b : Bufferevent) (highmark : ℕ) :
    (b.setwatermark highmark).wmReadHigh = highmark := by
  grind [Bufferevent.setwatermark, wmReadHigh_suspendRead, wmReadHigh_unsuspendRead]

/-- A connection leaves the mark. -/
@[simp] lemma wmReadHigh_socketConnect (b : Bufferevent) (r : ConnectResult) :
    (b.socketConnect r).wmReadHigh = b.wmReadHigh := by
  cases r <;>
    grind [Bufferevent.socketConnect, setfd, beSocketEnable, delRead, delWrite, wmReadHigh_enable]

/-- A lookup leaves the mark. -/
@[simp] lemma wmReadHigh_connectHostname (b : Bufferevent) :
    b.connectHostname.wmReadHigh = b.wmReadHigh := by
  simp [Bufferevent.connectHostname]

/-- The end of a lookup leaves the mark. -/
@[simp] lemma wmReadHigh_getaddrinfoCb (b : Bufferevent) (r : Option ConnectResult) :
    (b.getaddrinfoCb r).wmReadHigh = b.wmReadHigh := by
  cases r <;> simp [Bufferevent.getaddrinfoCb]

end Bufferevent

/-- The mark that a call of the user sets, if it sets one, is among `p`. -/
def UserCall.Marks (p : ℕ → Prop) : UserCall → Prop
  | .setwatermark highmark => p highmark
  | _ => True

/-- The same of what the user does when the connection is made. -/
def LoopCall.Marks (p : ℕ → Prop) : LoopCall → Prop
  | .readcb .. => True
  | .writecb _ _ calls _ _ => ∀ call ∈ calls, call.Marks p

/-- All marks that are set in a run are among `p`. -/
def MarksAmong (p : ℕ → Prop) (es : List (UserCall ⊕ LoopCall)) : Prop :=
  ∀ e ∈ es, e.elim (UserCall.Marks p) (LoopCall.Marks p)

namespace Stream

/-- What a step keeps. -/
structure Keeps (s t : Stream) : Prop where
  failed : s.failed = true → t.failed = true
  armed : t.failed = false → s.bev.Armed → t.bev.Armed
  marked : s.bev.Marked → t.bev.Marked

/-- One step after the other. -/
lemma Keeps.trans {s t u : Stream} (h : s.Keeps t) (h' : t.Keeps u) : s.Keeps u := by
  refine ⟨h'.failed ∘ h.failed, ?_, h'.marked ∘ h.marked⟩
  intro hu hs
  have ht : t.failed = false := by
    by_contra hne
    rw [h'.failed (by simpa using hne)] at hu
    cases hu
  exact h'.armed hu (h.armed ht hs)

variable {s t : Stream}

end Stream

/-! ## The high-water mark -/

namespace Stream

/-- There is a mark and no more in the input buffer than `bound`. -/
structure Below (bound : ℕ) (s : Stream) : Prop where
  small : bound ≤ Bufferevent.evSsizeMax
  flows : s.Flows
  mark : s.bev.wmReadHigh ≠ 0
  le : s.bev.wmReadHigh ≤ bound
  length : s.bev.input.totalLen ≤ bound

variable {s t : Stream} {bound : ℕ}

/-- Where nothing comes into the input buffer. -/
lemma Below.of_le (h : s.Below bound) (hflows : t.Flows) (hmark : t.bev.wmReadHigh = s.bev.wmReadHigh)
    (hle : t.bev.input.totalLen ≤ s.bev.input.totalLen) : t.Below bound :=
  ⟨h.small, hflows, by rw [hmark]; exact h.mark, by rw [hmark]; exact h.le, hle.trans h.length⟩

/-- The input buffer, by the pair of both. -/
lemma totalLen_eq {b : Bufferevent} {p : Evbuffer × Evbuffer} (h : b.buffers = p) :
    b.input.totalLen = p.1.totalLen := by
  rw [← h]
  rfl

/-- A call of the user does not put more into the input. -/
lemma Below.user (h : s.Below bound) {call : UserCall} (hcall : call.Marks fun m => m ≠ 0 ∧ m ≤ bound)
    (hstep : s.user call = some t) : t.Below bound := by
  obtain ⟨u, hu, hflows⟩ := h.flows.exists_user call
  obtain rfl : u = t := Option.some.inj (hu.symm.trans hstep)
  cases call with
  | input mem call =>
      obtain ⟨added, taken, e, hrun, hkeeps, hbytes, hadded, -⟩ :=
        BufferCall.run_spec h.flows.input (.inr h.flows.inputEnd) mem call
      rw [Stream.user, hrun] at hstep
      cases hstep
      refine h.of_le hflows (Bufferevent.wmReadHigh_setInput _ _) ?_
      have hlen := congrArg List.length hbytes
      rw [hadded h.flows.inputEnd, List.append_nil, List.length_append, ← h.flows.input.total,
        ← hkeeps.valid.total] at hlen
      rw [totalLen_eq (Bufferevent.buffers_setInput _ _)]
      dsimp only
      omega
  | output mem call =>
      obtain ⟨r, -, rfl⟩ := Option.map_eq_some_iff.mp hstep
      refine h.of_le hflows (Bufferevent.wmReadHigh_setOutput _ _) ?_
      rw [totalLen_eq (Bufferevent.buffers_setOutput _ _)]
  | enable event =>
      cases hstep
      exact h.of_le hflows (by simp) (totalLen_eq (Bufferevent.buffers_enable _ event)).le
  | disable event =>
      cases hstep
      exact h.of_le hflows (by simp) (totalLen_eq (Bufferevent.buffers_disable _ event)).le
  | setwatermark highmark =>
      cases hstep
      refine ⟨h.small, hflows, ?_, ?_, ?_⟩
      · simpa using hcall.1
      · simpa using hcall.2
      · rw [totalLen_eq (Bufferevent.buffers_setwatermark _ highmark)]
        exact h.length
  | connectHostname =>
      cases hstep
      exact h.of_le hflows (by simp) (totalLen_eq (Bufferevent.buffers_connectHostname _)).le
  | getaddrinfoCb r =>
      cases hstep
      exact h.of_le hflows (by simp) (totalLen_eq (Bufferevent.buffers_getaddrinfoCb _ r)).le

/-- Neither do several. -/
lemma Below.users (h : s.Below bound) {calls : List UserCall}
    (hcalls : ∀ call ∈ calls, call.Marks fun m => m ≠ 0 ∧ m ≤ bound)
    (hstep : s.users calls = some t) : t.Below bound := by
  induction calls generalizing s with
  | nil =>
      cases hstep
      exact h
  | cons call calls ih =>
      rw [Stream.users, List.foldlM_cons, Option.bind_eq_bind, Option.bind_eq_some_iff] at hstep
      obtain ⟨u, hu, ht⟩ := hstep
      exact ih (h.user (hcalls call List.mem_cons_self) hu)
        (fun c hc => hcalls c (List.mem_cons_of_mem call hc)) ht

/-- With room below the mark, no more is read at once. -/
lemma readMax_le {x : ℤ} (hx : 0 < x) :
    0 ≤ (if x < 0 ∨ x > Bufferevent.maxToReadEver then Bufferevent.maxToReadEver else x) ∧
      (if x < 0 ∨ x > Bufferevent.maxToReadEver then Bufferevent.maxToReadEver else x) ≤ x := by
  unfold Bufferevent.maxToReadEver
  constructor <;> split <;> omega

/-- What is read fits below the mark. -/
lemma Below.readcb (h : s.Below bound) {timeout : Bool} {mem : Malloc} {nVecs : ℕ} {readable : ℤ}
    {incoming : Option (List UInt8)} {retriable : Bool}
    (hstep : s.readcb timeout mem nVecs readable incoming retriable = some t) : t.Below bound := by
  obtain ⟨u, hu, hflows⟩ := h.flows.exists_readcb timeout mem nVecs readable incoming retriable
  obtain rfl : u = t := Option.some.inj (hu.symm.trans hstep)
  unfold Stream.readcb at hstep
  extract_lets b howmuch howmuch' at hstep
  split at hstep
  · cases hstep
    exact h.of_le hflows (by simp [b]) (totalLen_eq (b.buffers_disable .read)).le
  split at hstep
  · cases hstep
    exact h.of_le hflows (by simp [b]) (totalLen_eq (b.buffers_suspendRead .wm)).le
  next hroom =>
  split at hstep
  · cases hstep
    exact h
  have hvalid : Evbuffer.Valid { b.input with freezeEnd := false } :=
    ⟨h.flows.input.total, h.flows.input.ends⟩
  obtain ⟨r, bytes, e, hread, hgets, -, hlimit, -⟩ :=
    Evbuffer.read_spec hvalid mem nVecs readable howmuch' incoming
  rw [hread, Option.bind_eq_bind, Option.bind_some] at hstep
  have hpos : 0 < howmuch := by
    by_contra hle
    exact hroom ⟨h.mark, not_lt.mp hle⟩
  have hhowmuch : 0 ≤ howmuch' ∧ howmuch' ≤ howmuch := readMax_le hpos
  have hmark : howmuch = s.bev.wmReadHigh - s.bev.input.totalLen :=
    (if_pos h.mark).trans (Bufferevent.ssizeSub_eq h.le h.length h.small)
  have hle := Evbuffer.readLimit_le readable hhowmuch.1
  have hlen : e.totalLen = s.bev.input.totalLen + bytes.length := by
    rw [hgets.valid.total, hgets.contents_eq, List.length_append]
    exact congrArg (· + bytes.length) h.flows.input.total.symm
  have htotal : u.bev.input.totalLen = e.totalLen ∧ u.bev.wmReadHigh = s.bev.wmReadHigh := by
    cases hstep
    dsimp only
    split
    · exact ⟨totalLen_eq (b.buffers_setInput _), b.wmReadHigh_setInput _⟩
    · refine ⟨?_, by simp [b]⟩
      rw [totalLen_eq (Bufferevent.buffers_disable _ .read)]
      exact totalLen_eq (b.buffers_setInput _)
  have hbound := h.le
  refine ⟨h.small, hflows, by rw [htotal.2]; exact h.mark, by rw [htotal.2]; exact h.le, ?_⟩
  omega

/-- Writing leaves the input. -/
lemma Below.writeOutput (h : s.Below bound) {accepted : Option ℕ} {retriable : Bool}
    (hstep : s.writeOutput accepted retriable = some t) : t.Below bound := by
  obtain ⟨u, hu, hflows⟩ := h.flows.exists_writeOutput accepted retriable
  obtain rfl : u = t := Option.some.inj (hu.symm.trans hstep)
  unfold Stream.writeOutput at hstep
  extract_lets b at hstep
  split at hstep
  · cases hstep
    exact h
  split at hstep
  · rw [Option.bind_eq_bind, Option.bind_eq_some_iff] at hstep
    obtain ⟨r, -, ht⟩ := hstep
    cases ht
    have hset := totalLen_eq (b.buffers_setOutput { r.2.2 with freezeStart := true })
    refine h.of_le hflows ?_ ?_
    · dsimp only
      split
      · split
        · exact b.wmReadHigh_setOutput _
        · exact b.wmReadHigh_setOutput _
      · simp [b]
    · dsimp only
      split
      · split
        · exact hset.le
        · exact hset.le
      · rw [totalLen_eq (Bufferevent.buffers_disable _ .write)]
        exact hset.le
  · cases hstep
    exact h.of_le hflows rfl le_rfl

/-- Being woken for writing leaves the input, whatever the user does when a connection is made. -/
lemma Below.writecb (h : s.Below bound) {timeout : Bool} {c : ℤ} {calls : List UserCall}
    {accepted : Option ℕ} {retriable : Bool}
    (hcalls : ∀ call ∈ calls, call.Marks fun m => m ≠ 0 ∧ m ≤ bound)
    (hstep : s.writecb timeout c calls accepted retriable = some t) : t.Below bound := by
  have hfired : ∀ {b : Bufferevent} {failed : Bool}, b.buffers = s.bev.buffers →
      b.wmReadHigh = s.bev.wmReadHigh → Below bound { s with bev := b, failed := failed } :=
    fun hb hmark => h.of_le (h.flows.of_buffers hb _) hmark (totalLen_eq hb).le
  unfold Stream.writecb at hstep
  extract_lets b₀ b c' b₁ b₂ at hstep
  split at hstep
  · cases hstep
    exact hfired (b.buffers_disable .write) (b.wmReadHigh_disable .write)
  split at hstep
  · split at hstep
    · cases hstep
      exact hfired (b := b₁) rfl rfl
    split at hstep
    · cases hstep
      exact hfired (b := b₂.delWrite.delRead) rfl rfl
    rw [Option.bind_eq_bind, Option.bind_eq_some_iff] at hstep
    obtain ⟨u, hu, ht⟩ := hstep
    have hmade : Below bound { s with bev := b₂ } := hfired (b := b₂) rfl rfl
    have husers := hmade.users hcalls hu
    split at ht
    · cases ht
      exact husers.of_le (husers.flows.of_buffers u.bev.buffers_delWrite _) rfl le_rfl
    · exact husers.writeOutput ht
  · have hcalled : Below bound { s with bev := b } := hfired (b := b) rfl rfl
    exact hcalled.writeOutput hstep

/-- No step puts more into the input than the mark allows. -/
lemma Below.step (h : s.Below bound) {e : UserCall ⊕ LoopCall}
    (he : e.elim (UserCall.Marks fun m => m ≠ 0 ∧ m ≤ bound) (LoopCall.Marks fun m => m ≠ 0 ∧ m ≤ bound))
    (hstep : streams.step s e = some t) : t.Below bound := by
  rcases e with call | call
  · exact h.user he hstep
  · cases call with
    | readcb timeout mem nVecs readable incoming retriable =>
        dsimp only [streams, Sum.elim_inr, loop] at hstep
        split at hstep
        · exact h.readcb hstep
        · cases hstep
          exact h
    | writecb timeout c calls accepted retriable =>
        dsimp only [streams, Sum.elim_inr, loop] at hstep
        split at hstep
        · exact h.writecb he hstep
        · cases hstep
          exact h

/-- **The high-water mark**: where the user begins with a mark, and sets none above it and does not take it
away, there is never more in the input buffer. -/
theorem mark_run {es : List (UserCall ⊕ LoopCall)} (hbound : bound ≠ 0)
    (hsmall : bound ≤ Bufferevent.evSsizeMax) (hes : MarksAmong (fun m => m ≠ 0 ∧ m ≤ bound) es)
    (hrun : streams.run (.inl (.setwatermark bound) :: es) = some s) :
    s.bev.input.contents.length ≤ bound := by
  have hstart : Below bound { start with bev := start.bev.setwatermark bound } :=
    ⟨hsmall, flows_start.of_buffers (Bufferevent.buffers_setwatermark _ bound) _, by simpa using hbound,
      by simp, (totalLen_eq (Bufferevent.buffers_setwatermark _ bound)).le.trans (Nat.zero_le _)⟩
  have hbelow : s.Below bound := streams.meetsFrom_invariant (fun _ _ _ h he hstep => h.step he hstep) hstart
    (streams.meetsFrom_of_forall hes _) hrun
  rw [← hbelow.flows.input.total]
  exact hbelow.length

/-- A mark of 5, and reading from a socket that has seven bytes: five of them come in. -/
theorem mark_run_reading : ∃ s, streams.run [.inl (.setwatermark 5), .inl (.enable .read),
    .inr (.readcb false (.filled 0) 4 7 (some [1, 2, 3, 4, 5, 6, 7]) true)] = some s ∧
      s.bev.input.contents = [1, 2, 3, 4, 5] ∧ s.bev.input.contents.length ≤ 5 := by
  have hread : (streams.run [.inl (.setwatermark 5), .inl (.enable .read),
      .inr (.readcb false (.filled 0) 4 7 (some [1, 2, 3, 4, 5, 6, 7]) true)]).map (·.bev.input.contents)
        = some [1, 2, 3, 4, 5] := by decide +kernel
  obtain ⟨s, hrun, hcontents⟩ := Option.map_eq_some_iff.mp hread
  exact ⟨s, hrun, hcontents, mark_run (by decide) (by decide)
    (by simp [MarksAmong, UserCall.Marks, LoopCall.Marks]) hrun⟩

end Stream

end CocInside.LibEvent
