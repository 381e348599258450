import CocInside.Packet.Builder
import CocInside.TcpNetwork.ClientNet

/-!
# Sender and receiver disagree on the size of a packet

`Builder::pack` puts the size of the payload into the header, and `Processor::parseInit` adds the
six bytes of the header to it again. `ClientNet::runRecvMsg` does not: it takes the field for the
size of the whole packet. What it copies out of the stream is six bytes short, and for a packet
without payload it copies nothing, removes nothing and never gets any further.

* `FramingAgreement`: what the two would have to satisfy, for every way the stream is split.
* `extractLoop_stuck`: the receive loop does not end on a packet without payload.
* `framingAgreement_iff_nil`: no stream of packets satisfies it but the empty one.
-/

namespace CocInside.TcpNetwork

open CocInside.Lib
open CocInside.Packet

/-- However the stream of these packets is split into reads and calls, the receiver returns, what
it has copied out are the first packets, whole and in order, and once all bytes are read it is all
of them. -/
def FramingAgreement (packets : List (List UInt8)) : Prop :=
  ∀ calls : List (List ℕ), ∃ fuel s,
    (Link.start packets.flatten).runs fuel calls = some s ∧ s.got <+: packets ∧
      (s.wire = [] → s.got = packets)

/-! ## The receiver on the first packet -/

namespace Link

/-- One turn, when there is a header and the size it holds is there. -/
lemma extractStep_eq {s : Link} (h6 : 6 ≤ s.net.inbufLen)
    (hsize : s.net.packetSize ≤ s.net.inbufLen) :
    ∃ s', s.extractStep = some s' ∧
      s'.got = s.got ++ [s.net.inputBuff.bytes.take s.net.packetSize] ∧
      s'.net.inputBuff = s.net.inputBuff.moveDown s.net.packetSize ∧
      s'.net.inbufLen = s.net.inbufLen - s.net.packetSize := by
  unfold extractStep
  rw [if_neg (by omega)]
  simp only [if_neg (not_lt.mpr hsize)]
  exact ⟨_, rfl, rfl, rfl, rfl⟩

/-- A size of zero removes nothing, so the next turn finds it again. -/
lemma extractLoop_stuck {s : Link} (h6 : 6 ≤ s.net.inbufLen) (h0 : s.net.packetSize = 0)
    (fuel : ℕ) : extractLoop fuel s = none := by
  induction fuel generalizing s with
  | zero => rfl
  | succ fuel ih =>
      obtain ⟨s', hs', -, hbuf, hlen⟩ := extractStep_eq h6 (by omega)
      rw [h0, Buf.moveDown_zero] at hbuf
      unfold extractLoop
      rw [hs']
      refine ih (by omega) ?_
      rw [ClientNet.packetSize, hbuf]
      exact h0

/-- A turn that leaves less than a header is the last. -/
lemma got_of_extractLoop {s s' : Link} {fuel : ℕ} (h6 : 6 ≤ s.net.inbufLen)
    (hsize : s.net.packetSize ≤ s.net.inbufLen)
    (hrest : s.net.inbufLen - s.net.packetSize < 6) (h : extractLoop fuel s = some s') :
    s'.got = s.got ++ [s.net.inputBuff.bytes.take s.net.packetSize] := by
  obtain ⟨t, ht, hgot, -, hlen⟩ := extractStep_eq h6 hsize
  cases fuel with
  | zero => cases h
  | succ fuel =>
      unfold extractLoop at h
      rw [ht] at h
      cases fuel with
      | zero => cases h
      | succ fuel =>
          have hstop : t.extractStep = none := by rw [extractStep, if_pos (by omega)]
          simp only [extractLoop, hstop, Option.some.injEq] at h
          rw [← h, hgot]

/-- A call with one read that gets all it asks for. -/
lemma runs_one_read {s : Link} {m fuel : ℕ} (hsock : s.net.socket = true) (hm : 0 < m)
    (hfree : m ≤ inMaxMessageSize - s.net.inbufLen) (hthere : m ≤ s.wire.length) :
    s.runs fuel [[m]] = extractLoop fuel (s.read m) := by
  have hmin : min m (min (inMaxMessageSize - s.net.inbufLen) s.wire.length) = m := by omega
  simp only [runs, runRecvMsg, hsock, if_true, recvLoop, hmin, if_neg hm.ne']
  cases extractLoop fuel (s.read m) <;> rfl

/-- The first read of `m` bytes puts them at the front of the input buffer. -/
lemma take_read_start {wire : List UInt8} {m k : ℕ} (hm : m ≤ inMaxMessageSize)
    (hw : m ≤ wire.length) (hk : k ≤ m) :
    ((start wire).read m).net.inputBuff.bytes.take k = wire.take k := by
  have hlen : (wire.take m).length = m := by
    rw [List.length_take]
    omega
  show ((Buf.zero _).overwrite 0 (wire.take m)).bytes.take k = _
  rw [Buf.take_overwrite_zero (by omega) (by omega), List.take_take, Nat.min_eq_left hk]

end Link

/-- Any packet at all breaks the agreement: read its payload's number of bytes, but no less than a
header. -/
lemma not_framingAgreement (op : UInt16) (content : List UInt8) (rest : List (List UInt8))
    (hfit : (Builder.packet op content).length ≤ maxMessageSize) :
    ¬ FramingAgreement (Builder.packet op content :: rest) := by
  intro h
  have hmax : maxMessageSize = 5120 := rfl
  have hin : inMaxMessageSize = 10240 := rfl
  have hc : content.length < 2 ^ 24 := by
    rw [Builder.length_packet] at hfit
    omega
  set f : Frame := ⟨0, op, content, hc⟩ with hf
  rw [Builder.packet_eq op content hc, ← hf] at hfit h
  rw [Frame.length_bytes] at hfit
  set p := f.payload.length with hp
  set wire := (f.bytes :: rest).flatten with hwire
  have hw : f.bytes ++ rest.flatten = wire := by simp [hwire]
  have hwlen : p + 6 ≤ wire.length := by
    rw [← hw, List.length_append, Frame.length_bytes]
    omega
  set m := max p 6 with hm
  have hread : ∀ k ≤ m, ((Link.start wire).read m).net.inputBuff.bytes.take k = wire.take k :=
    fun k hk => Link.take_read_start (by omega) (by omega) hk
  have hsize : ((Link.start wire).read m).net.packetSize = p := by
    rw [ClientNet.packetSize, hread 4 (by omega), ← hw, Frame.size_bytes]
    omega
  have hlen : ((Link.start wire).read m).net.inbufLen = m := Nat.zero_add m
  obtain ⟨fuel, s, hrun, hpre, -⟩ := h [[m]]
  have hloop : Link.extractLoop fuel ((Link.start wire).read m) = some s := by
    have hfree : m ≤ inMaxMessageSize - (Link.start wire).net.inbufLen := by
      show m ≤ inMaxMessageSize - 0
      omega
    have hthere : m ≤ (Link.start wire).wire.length := by
      show m ≤ wire.length
      omega
    rw [← Link.runs_one_read rfl (by omega) hfree hthere]
    exact hrun
  by_cases h0 : p = 0
  · rw [Link.extractLoop_stuck (by omega) (by omega)] at hloop
    cases hloop
  · have hgot := Link.got_of_extractLoop (by omega) (by omega) (by omega) hloop
    rw [hsize, hread p (by omega)] at hgot
    have hgot' : s.got = [wire.take p] := hgot
    rw [hgot', List.cons_prefix_cons] at hpre
    have := congrArg List.length hpre.1
    rw [List.length_take, Frame.length_bytes] at this
    omega

/-- **Framing.** For packets that `sendMsg` accepts, sender and receiver agree on the framing
exactly when there is no packet. -/
theorem framingAgreement_iff_nil (msgs : List (UInt16 × List UInt8))
    (hsend : ∀ m ∈ msgs, ((ClientNet.create true).sendMsg (Builder.packet m.1 m.2)).1 = true) :
    FramingAgreement (msgs.map fun m => Builder.packet m.1 m.2) ↔ msgs = [] := by
  constructor
  · intro h
    cases msgs with
    | nil => rfl
    | cons m msgs =>
        have hm := hsend m List.mem_cons_self
        exact absurd h (not_framingAgreement m.1 m.2 _ (ClientNet.length_le_of_sendMsg hm))
  · rintro rfl
    intro calls
    refine ⟨0, Link.start [], ?_, List.prefix_rfl, fun _ => rfl⟩
    -- Nothing is ever there to read.
    induction calls with
    | nil => rfl
    | cons ready calls ih =>
        have hcall : Link.runRecvMsg 0 ready (Link.start []) = some (Link.start []) := by
          cases ready <;> simp [Link.runRecvMsg, Link.recvLoop, Link.start, ClientNet.create]
        rw [List.map_nil, List.flatten_nil] at ih ⊢
        rw [Link.runs, hcall]
        exact ih

/-- A packet with opcode 1 and two bytes of payload. -/
theorem framingAgreement_iff_nil_login :
    FramingAgreement [Builder.packet 1 [8, 5]] ↔ [((1 : UInt16), ([8, 5] : List UInt8))] = [] :=
  framingAgreement_iff_nil [(1, [8, 5])] (by decide)

/-- The same packet is accepted by `sendMsg` and not received whole. -/
theorem not_framingAgreement_login :
    ((ClientNet.create true).sendMsg (Builder.packet 1 [8, 5])).1 = true ∧
      Builder.packet 1 [8, 5] = [2, 0, 0, 0, 1, 0, 8, 5] ∧
      ¬ FramingAgreement [Builder.packet 1 [8, 5]] :=
  ⟨by decide, by decide, not_framingAgreement 1 [8, 5] [] (by decide)⟩

end CocInside.TcpNetwork
