import CocInside.Packet.Packets
import CocInside.TcpNetwork.Framing
import Mathlib.Logic.Relation

/-!
# When the receive loop ends

Each turn of the inner loop of `runRecvMsg` takes as many bytes out of the input buffer as the header
at its front says, modulo `2 ^ 16`. A header that says none is found again on the next turn.

* `MeetsEmptyHeader`: cutting these bytes packet by packet leads to such a header.
* `Link.LoopEnds`: the loop ends, with every turn on the way taking bytes out of the buffer.
* `loopEnds_iff`: it does exactly if the buffered bytes meet no such header. The packet of
  `SCUserLogin_0x1`, which has no payload, is one.
* `Link.KeepsOversized`: a frame that is declared larger than the bytes received is left alone.
* `keepsOversized_iff`: it is, unless the low 16 bits of its size are those of a size that is there.

Source: `CocTest/Classes/TcpNetwork/ClientNet.cpp`, `ClientNet::runRecvMsg`.
-/

namespace CocInside.TcpNetwork

open CocInside.Lib
open CocInside.Packet

/-- The packet size that `runRecvMsg` finds in a header. -/
def headerSize (bytes : List UInt8) : ℕ := (leNat (bytes.take 4) &&& 0x00FFFFFF) % 2 ^ 16

/-- Cutting the bytes at the sizes in their headers leads to a header with size zero. -/
inductive MeetsEmptyHeader : List UInt8 → Prop
  | here {bytes : List UInt8} (h6 : 6 ≤ bytes.length) (h0 : headerSize bytes = 0) :
      MeetsEmptyHeader bytes
  | later {bytes : List UInt8} (h6 : 6 ≤ bytes.length) (hpos : 0 < headerSize bytes)
      (hle : headerSize bytes ≤ bytes.length)
      (hrest : MeetsEmptyHeader (bytes.drop (headerSize bytes))) : MeetsEmptyHeader bytes

/-- The bytes received and not yet taken out. -/
def ClientNet.pending (net : ClientNet) : List UInt8 := net.inputBuff.bytes.take net.inbufLen

namespace Link

/-- `t` is reached from `s` by turns of the inner loop. -/
def Turns (s t : Link) : Prop := Relation.ReflTransGen (fun a b => a.extractStep = some b) s t

/-- The inner loop ends, each turn of it takes bytes out of the buffer, and the number of bytes in
the buffer stays in its range. -/
structure LoopEnds (s : Link) : Prop where
  ends : ∃ fuel t, s.extractLoop fuel = some t
  decreases : ∀ t u, s.Turns t → t.extractStep = some u → u.net.inbufLen < t.net.inbufLen
  bounded : ∀ t, s.Turns t → t.net.inbufLen ≤ inMaxMessageSize

/-! ## One turn -/

/-- The bytes that are pending are `inbufLen`. -/
lemma length_pending {s : Link} (hlen : s.net.inbufLen ≤ inMaxMessageSize) :
    s.net.pending.length = s.net.inbufLen := by
  rw [ClientNet.pending, List.length_take, Buf.length_eq]
  omega

/-- The header read is the one of the pending bytes. -/
lemma packetSize_eq {s : Link} (h6 : 6 ≤ s.net.inbufLen) :
    s.net.packetSize = headerSize s.net.pending := by
  rw [ClientNet.packetSize, headerSize, ClientNet.pending, List.take_take,
    Nat.min_eq_left (by omega)]

/-- A turn that does not end the loop: there is a header, the packet is there, and its bytes go. -/
lemma extractStep_cases {s t : Link} (hlen : s.net.inbufLen ≤ inMaxMessageSize)
    (h : s.extractStep = some t) :
    6 ≤ s.net.pending.length ∧ headerSize s.net.pending ≤ s.net.pending.length ∧
      t.net.inbufLen = s.net.inbufLen - headerSize s.net.pending ∧
      t.net.pending = s.net.pending.drop (headerSize s.net.pending) := by
  have hpending := length_pending hlen
  have h6 : 6 ≤ s.net.inbufLen := by
    by_contra hno
    rw [extractStep, if_pos (by omega)] at h
    cases h
  have hsize := packetSize_eq h6
  have hle : s.net.packetSize ≤ s.net.inbufLen := by
    by_contra hno
    rw [extractStep, if_neg (by omega)] at h
    simp only [if_pos (not_le.mp hno)] at h
    cases h
  obtain ⟨u, hu, -, hbuf, hinbuf⟩ := extractStep_eq h6 hle
  rw [hu] at h
  cases h
  refine ⟨by omega, by omega, by rw [hinbuf, hsize], ?_⟩
  rw [← hsize, ClientNet.pending, ClientNet.pending, hbuf, hinbuf, List.drop_take,
    ← Buf.take_moveDown, List.take_take, Nat.min_eq_left (by omega)]

/-- Off an empty header every turn takes bytes out, and leaves bytes that meet none either. -/
lemma extractStep_of_not_meets {s t : Link} (hlen : s.net.inbufLen ≤ inMaxMessageSize)
    (hno : ¬MeetsEmptyHeader s.net.pending) (h : s.extractStep = some t) :
    t.net.inbufLen < s.net.inbufLen ∧ ¬MeetsEmptyHeader t.net.pending := by
  obtain ⟨h6, hle, hinbuf, hpend⟩ := extractStep_cases hlen h
  have hlength := length_pending hlen
  have hpos : 0 < headerSize s.net.pending := by
    rcases Nat.eq_zero_or_pos (headerSize s.net.pending) with h0 | hpos
    · exact absurd (.here h6 h0) hno
    · exact hpos
  refine ⟨by omega, ?_⟩
  intro hmeets
  rw [hpend] at hmeets
  exact hno (.later h6 hpos hle hmeets)

/-! ## The loop -/

/-- The range of the length is kept by every turn. -/
lemma Turns.bounded {s t : Link} (h : s.Turns t) (hlen : s.net.inbufLen ≤ inMaxMessageSize) :
    t.net.inbufLen ≤ inMaxMessageSize := by
  induction h with
  | refl => exact hlen
  | tail _ hstep ih =>
      obtain ⟨-, -, hinbuf, -⟩ := extractStep_cases ih hstep
      omega

/-- Turns from bytes that lead to no empty header leave bytes that lead to none. -/
lemma Turns.not_meets {s t : Link} (h : s.Turns t) (hlen : s.net.inbufLen ≤ inMaxMessageSize)
    (hno : ¬MeetsEmptyHeader s.net.pending) : ¬MeetsEmptyHeader t.net.pending := by
  induction h with
  | refl => exact hno
  | tail hturns hstep ih => exact (extractStep_of_not_meets (Turns.bounded hturns hlen) ih hstep).2

/-- Without an empty header the loop ends: the number of bytes in the buffer falls with every turn. -/
lemma exists_extractLoop {s : Link} (hlen : s.net.inbufLen ≤ inMaxMessageSize)
    (hno : ¬MeetsEmptyHeader s.net.pending) : ∃ fuel t, s.extractLoop fuel = some t := by
  induction hn : s.net.inbufLen using Nat.strongRecOn generalizing s with
  | ind n ih =>
      subst hn
      cases hstep : s.extractStep with
      | none => exact ⟨1, s, by rw [extractLoop, hstep]⟩
      | some t =>
          obtain ⟨hlt, hno'⟩ := extractStep_of_not_meets hlen hno hstep
          obtain ⟨fuel, u, hu⟩ := ih _ hlt (by omega) hno' rfl
          exact ⟨fuel + 1, u, by rw [extractLoop, hstep]; exact hu⟩

/-- At an empty header it does not. -/
lemma extractLoop_eq_none {bytes : List UInt8} (h : MeetsEmptyHeader bytes) {s : Link}
    (hlen : s.net.inbufLen ≤ inMaxMessageSize) (hbytes : s.net.pending = bytes) (fuel : ℕ) :
    s.extractLoop fuel = none := by
  induction h generalizing s fuel with
  | here h6 h0 =>
      have hlength := length_pending hlen
      rw [hbytes] at hlength
      have hsize := packetSize_eq (s := s) (by omega)
      exact extractLoop_stuck (by omega) (by rw [hsize, hbytes, h0]) fuel
  | later h6 hpos hle _ ih =>
      have hlength := length_pending hlen
      rw [hbytes] at hlength
      have hsize := packetSize_eq (s := s) (by omega)
      rw [hbytes] at hsize
      obtain ⟨t, ht, -⟩ := extractStep_eq (s := s) (by omega) (by omega)
      obtain ⟨-, -, hinbuf, hpend⟩ := extractStep_cases hlen ht
      rw [hbytes] at hpend
      cases fuel with
      | zero => rfl
      | succ fuel =>
          rw [extractLoop, ht]
          exact ih (by omega) hpend fuel

end Link

/-- **Termination of the receive loop.** From any contents of the input buffer, the inner loop ends,
every turn taking bytes out and the length staying in its range, exactly if the bytes received,
cut at the sizes in their headers, do not lead to a header whose size is zero modulo `2 ^ 16`. -/
theorem loopEnds_iff (s : Link) (hlen : s.net.inbufLen ≤ inMaxMessageSize) :
    s.LoopEnds ↔ ¬MeetsEmptyHeader s.net.pending := by
  constructor
  · intro h hmeets
    obtain ⟨fuel, t, ht⟩ := h.ends
    rw [Link.extractLoop_eq_none hmeets hlen rfl] at ht
    cases ht
  · intro hno
    refine ⟨Link.exists_extractLoop hlen hno, ?_, ?_⟩
    · intro t u hturns hstep
      exact (Link.extractStep_of_not_meets (hturns.bounded hlen) (hturns.not_meets hlen hno) hstep).1
    · intro t hturns
      exact hturns.bounded hlen

/-- Two frames, of six and seven bytes by their headers, and two bytes of a third. -/
def twoFrames : List UInt8 := [6, 0, 0, 0, 1, 0, 7, 0, 0, 0, 1, 0, 8, 3, 0]

/-- A client that has read them: two turns take the frames out, and the loop ends. -/
theorem loopEnds_iff_twoFrames :
    ∃ t u, ((Link.start twoFrames).read 15).extractStep = some t ∧ t.net.inbufLen = 9 ∧
      t.extractStep = some u ∧ u.net.inbufLen = 2 ∧ u.extractStep = none ∧
      ((Link.start twoFrames).read 15).LoopEnds := by
  set s := (Link.start twoFrames).read 15 with hs
  have hlen : s.net.inbufLen = 15 := rfl
  have hpending : s.net.pending = twoFrames :=
    Link.take_read_start (by decide) (by decide) (by decide)
  have hbound : s.net.inbufLen ≤ inMaxMessageSize := by
    rw [hlen]
    decide
  have hfirst : headerSize s.net.pending = 6 := by
    rw [hpending]
    decide
  have hsize := Link.packetSize_eq (s := s) (by omega)
  obtain ⟨t, ht, -⟩ := Link.extractStep_eq (s := s) (by omega) (by omega)
  obtain ⟨-, -, hinbuf, hrest⟩ := Link.extractStep_cases hbound ht
  rw [hfirst, hpending] at hrest
  have hsecond : headerSize t.net.pending = 7 := by
    rw [hrest]
    decide
  have hsize' := Link.packetSize_eq (s := t) (by omega)
  obtain ⟨u, hu, -⟩ := Link.extractStep_eq (s := t) (by omega) (by omega)
  obtain ⟨-, -, hinbuf', -⟩ := Link.extractStep_cases (by omega) hu
  refine ⟨t, u, ht, by omega, hu, by omega, ?_, ?_⟩
  · rw [Link.extractStep, if_pos (by omega)]
  · refine (loopEnds_iff s hbound).mpr ?_
    rw [hpending]
    intro h
    -- Neither header is empty, and behind the second frame there is less than a header.
    cases h with
    | here h6 h0 => exact absurd h0 (by decide)
    | later _ _ _ h =>
        cases h with
        | here h6 h0 => exact absurd h0 (by decide)
        | later _ _ _ h =>
            cases h with
            | here h6 h0 => exact absurd h6 (by decide)
            | later h6 _ _ _ => exact absurd h6 (by decide)

/-- A client that has read the packet of `SCUserLogin_0x1` never leaves the loop. -/
theorem not_loopEnds_scUserLogin :
    BuilderT.pack scUserLogin 1 () = [0, 0, 0, 0, 1, 0] ∧
      ((Link.start [0, 0, 0, 0, 1, 0]).read 6).net.inbufLen ≤ inMaxMessageSize ∧
      (∀ fuel, ((Link.start [0, 0, 0, 0, 1, 0]).read 6).extractLoop fuel = none) ∧
      ¬((Link.start [0, 0, 0, 0, 1, 0]).read 6).LoopEnds := by
  have hstuck : ∀ fuel, ((Link.start [0, 0, 0, 0, 1, 0]).read 6).extractLoop fuel = none := by
    apply Link.extractLoop_stuck
    · exact le_rfl
    · rw [ClientNet.packetSize, Link.take_read_start (by decide) (by decide) (by decide)]
      rfl
  refine ⟨by decide, by decide, hstuck, ?_⟩
  intro h
  obtain ⟨fuel, t, ht⟩ := h.ends
  rw [hstuck] at ht
  cases ht

/-! ## Frames larger than the bytes received -/

/-- The size that a header declares, `pHead->size & 0x00FFFFFF`. -/
def declaredSize (bytes : List UInt8) : ℕ := leNat (bytes.take 4) &&& 0x00FFFFFF

namespace Link

/-- The receiver leaves everything as it is until more bytes arrive: the inner loop ends at once,
so a call whose read leads here changes nothing further, and calls that find nothing to read change
nothing at all. -/
structure Waits (s : Link) : Prop where
  loop : ∀ fuel, 0 < fuel → s.extractLoop fuel = some s
  call : ∀ (s₀ : Link) (m fuel : ℕ), s₀.read m = s → s₀.net.socket = true → 0 < m →
    m ≤ inMaxMessageSize - s₀.net.inbufLen → m ≤ s₀.wire.length → 0 < fuel →
      s₀.runRecvMsg fuel [m] = some s
  idle : ∀ (fuel : ℕ) (calls : List (List ℕ)), (∀ ready ∈ calls, ∀ k ∈ ready, k = 0) →
    s.runs fuel calls = some s

/-- If the header declares more than the bytes received, the receiver waits. -/
def KeepsOversized (s : Link) : Prop :=
  s.net.inbufLen < declaredSize s.net.pending → s.Waits

/-- The inner loop ends at once with less than a header, or with less than the size of the packet
in 16 bits. -/
lemma extractStep_eq_none_iff (s : Link) :
    s.extractStep = none ↔
      s.net.inbufLen < 6 ∨ s.net.inbufLen < declaredSize s.net.pending % 2 ^ 16 := by
  by_cases h6 : s.net.inbufLen < 6
  · exact iff_of_true (if_pos h6) (.inl h6)
  · have hsize : s.net.packetSize = declaredSize s.net.pending % 2 ^ 16 := packetSize_eq (by omega)
    rw [← hsize]
    by_cases hlt : s.net.inbufLen < s.net.packetSize
    · refine iff_of_true ?_ (.inr hlt)
      rw [extractStep, if_neg h6]
      exact if_pos hlt
    · refine iff_of_false ?_ (by omega)
      obtain ⟨t, ht, -⟩ := extractStep_eq (s := s) (by omega) (by omega)
      rw [ht]
      exact Option.some_ne_none t

/-- Calls that find nothing to read. -/
lemma runs_of_nothing_ready (s : Link) (fuel : ℕ) {calls : List (List ℕ)}
    (h : ∀ ready ∈ calls, ∀ k ∈ ready, k = 0) : s.runs fuel calls = some s := by
  induction calls with
  | nil => rfl
  | cons ready calls ih =>
      have hcall : s.runRecvMsg fuel ready = some s := by
        unfold runRecvMsg
        split
        · cases ready with
          | nil => rfl
          | cons k ks =>
              obtain rfl : k = 0 := h _ List.mem_cons_self k List.mem_cons_self
              rw [recvLoop, Nat.zero_min]
              rfl
        · rfl
      rw [runs, hcall]
      exact ih (fun r hr => h r (List.mem_cons_of_mem ready hr))

/-- The loop waits exactly when no frame is extracted. -/
lemma waits_iff (s : Link) : s.Waits ↔ s.extractStep = none := by
  constructor
  · intro h
    have hone := h.loop 1 Nat.one_pos
    cases hstep : s.extractStep with
    | none => rfl
    | some t =>
        rw [extractLoop, hstep] at hone
        cases hone
  · intro h
    have hloop : ∀ fuel, 0 < fuel → s.extractLoop fuel = some s := by
      intro fuel hfuel
      obtain ⟨n, rfl⟩ := Nat.exists_eq_succ_of_ne_zero hfuel.ne'
      rw [extractLoop, h]
    refine ⟨hloop, ?_, fun fuel _ => runs_of_nothing_ready s fuel⟩
    rintro s₀ m fuel rfl hsock hm hfree hthere hfuel
    have hruns : s₀.runs fuel [[m]] = extractLoop fuel (s₀.read m) :=
      runs_one_read hsock hm hfree hthere
    rw [hloop fuel hfuel, runs] at hruns
    cases hcall : s₀.runRecvMsg fuel [m] with
    | none =>
        rw [hcall] at hruns
        cases hruns
    | some t =>
        rw [hcall] at hruns
        exact hruns

end Link

/-- **Oversized frames.** From any contents of the input buffer, a frame that is declared larger
than the bytes received is left in the buffer until more arrive, exactly if there is less than a
header, or the low 16 bits of the declared size alone are more than the bytes received. -/
theorem keepsOversized_iff (s : Link) :
    s.KeepsOversized ↔
      (s.net.inbufLen < declaredSize s.net.pending →
        s.net.inbufLen < 6 ∨ s.net.inbufLen < declaredSize s.net.pending % 2 ^ 16) := by
  rw [Link.KeepsOversized, Link.waits_iff, Link.extractStep_eq_none_iff]

/-- A header that declares 65542 bytes, of which six are there: they are taken for the packet. -/
theorem not_keepsOversized_six :
    ((Link.start [6, 0, 1, 0, 1, 0]).read 6).net.inbufLen = 6 ∧
      declaredSize ((Link.start [6, 0, 1, 0, 1, 0]).read 6).net.pending = 65542 ∧
      ¬((Link.start [6, 0, 1, 0, 1, 0]).read 6).KeepsOversized := by
  have hpending : ((Link.start [6, 0, 1, 0, 1, 0]).read 6).net.pending = [6, 0, 1, 0, 1, 0] :=
    Link.take_read_start (by decide) (by decide) (by decide)
  have hsize : declaredSize ((Link.start [6, 0, 1, 0, 1, 0]).read 6).net.pending = 65542 := by
    rw [hpending]
    decide
  refine ⟨rfl, hsize, ?_⟩
  intro h
  have hlen : ((Link.start [6, 0, 1, 0, 1, 0]).read 6).net.inbufLen = 6 := rfl
  have hnone := (Link.waits_iff _).mp (h (by rw [hlen, hsize]; decide))
  rcases (Link.extractStep_eq_none_iff _).mp hnone with h6 | h6
  · omega
  · rw [hsize, hlen] at h6
    exact absurd h6 (by decide)

end CocInside.TcpNetwork
