import CocInside.TcpNetwork.ClientSocket

/-!
# What the ring buffer does to a stream of messages

With indices reduced modulo the size of the buffer, the ring holds the next bytes of the stream, and
`receiveMsg` returns its messages one after the other. `modRingSize` is that reduction only at
multiples of the size.

* `Message`, `Fifo`: messages that begin with their length, and what is to hold of every run.
* `Reduces`: the steps in which the parse of the macro makes no difference.
* `Receiver.Holds`: the invariant: what is in the ring and on the wire are the messages to come.
* `fifo_of_reduces`: every run of such steps returns the messages in order.
-/

namespace CocInside.TcpNetwork

open CocInside.Lib

/-- A message: its first two bytes are its length, little-endian, and it fits the buffer. -/
structure Message where
  bytes : List UInt8
  two_le : 2 ≤ bytes.length
  le_ringSize : bytes.length ≤ ringSize
  length_eq : leNat (bytes.take 2) = bytes.length

/-- The stream of these messages. -/
def stream (msgs : List Message) : List UInt8 := (msgs.map Message.bytes).flatten

/-- A caller's buffer of `nSize` bytes is large enough for each of these messages. -/
def Fits (msgs : List Message) (nSize : ℕ) : Prop := ∀ m ∈ msgs, m.bytes.length ≤ nSize

/-- The messages returned are the first ones sent, whole and in order, and no buffer was overrun. -/
def Fifo (msgs : List Message) (s : Receiver) : Prop :=
  s.got <+: msgs.map Message.bytes ∧ s.phase ≠ .overrun

namespace Receiver

/-- The step would be the same if the indices were reduced modulo the size of the buffer: a `recv` that
delivers bytes has its position at a multiple of the size; the byte read for the upper half of
`packsize` equals the one behind the lower half; and a message that is copied empties the buffer or
ends at a multiple of the size. -/
def Reduces (s : Receiver) : Event → Prop
  | .call _ => True
  | .recv r =>
      match s.phase with
      | .firstRecv _ _ => 0 < s.delivered s.savelen r →
          (s.sock.inbufStart + s.sock.inbufLen) % ringSize = 0
      | .secondRecv _ _ => 0 < s.delivered (ringSize - s.sock.inbufLen) r →
          (s.sock.inbufStart + s.sock.inbufLen) % ringSize = 0
      | _ => True
  | .go =>
      match s.phase with
      | .decode _ => s.sock.inputBuff (modRingSize (s.sock.inbufStart + 1))
          = s.sock.inputBuff ((s.sock.inbufStart + 1) % ringSize)
      | .copy _ packsize => s.sock.inbufLen = packsize ∨
          (s.sock.inbufStart + packsize) % ringSize = 0
      | _ => True

/-- The bytes in the ring. -/
def ring (s : Receiver) : List UInt8 :=
  window s.sock.inputBuff ringSize s.sock.inbufStart s.sock.inbufLen

/-- `packsize` is the length of the next message. -/
def Next (rest : List Message) (packsize : ℕ) : Prop :=
  ∃ m rest', rest = m :: rest' ∧ m.bytes.length = packsize

/-- What holds at each place in the code, with the messages sent and those to come. -/
def PhaseHolds (s : Receiver) (msgs rest : List Message) : Prop :=
  match s.phase with
  | .idle => True
  | .firstRecv nSize site | .secondRecv nSize site =>
      Fits msgs nSize ∧ s.sock.inbufLen < ringSize ∧ ∀ p, site = .body p → Next rest p
  | .decode nSize => Fits msgs nSize ∧ 2 ≤ s.sock.inbufLen
  | .copy nSize packsize => Fits msgs nSize ∧ packsize ≤ s.sock.inbufLen ∧ Next rest packsize
  | .overrun => False

/-- The invariant: the messages are those returned and `rest`; the ring and the wire hold `rest`. -/
structure Holds (msgs rest : List Message) (s : Receiver) : Prop where
  start_lt : s.sock.inbufStart < ringSize
  len_le : s.sock.inbufLen ≤ ringSize
  got : msgs.map Message.bytes = s.got ++ rest.map Message.bytes
  bytes : s.ring ++ s.wire = stream rest
  phase : s.PhaseHolds msgs rest

variable {s : Receiver} {msgs rest : List Message}

/-- The messages returned are the first ones sent. -/
lemma Holds.fifo (h : Holds msgs rest s) : Fifo msgs s := by
  refine ⟨⟨_, h.got.symm⟩, ?_⟩
  intro hph
  have := h.phase
  simp [PhaseHolds, hph] at this

/-- The ring index is reduced as it should be at the multiples of the size, and nowhere else. -/
lemma modRingSize_eq_iff (x : ℕ) : modRingSize x = x % ringSize ↔ x % ringSize = 0 := by
  unfold modRingSize ringSize
  omega

/-- A place in the ring is inside it. -/
lemma modRingSize_lt (x : ℕ) : modRingSize x < ringSize := by
  unfold modRingSize ringSize
  omega

/-! ## The steps -/

/-- A failure changes nothing about the messages. -/
lemma Holds.fail (h : Holds msgs rest s) : Holds msgs rest s.fail :=
  ⟨h.start_lt, h.len_le, h.got, h.bytes, trivial⟩

/-- Nor does going on to receive. -/
lemma Holds.enterRecv (h : Holds msgs rest s) {nSize : ℕ} {site : RecvSite}
    (hsize : Fits msgs nSize) (hsite : ∀ p, site = .body p → Next rest p) :
    Holds msgs rest (s.enterRecv nSize site) := by
  unfold Receiver.enterRecv
  split
  · exact h.fail
  · next hno =>
      rw [not_or] at hno
      exact ⟨h.start_lt, h.len_le, h.got, h.bytes, hsize, Nat.lt_of_not_le hno.1, hsite⟩

/-- Nor does the begin of a call. -/
lemma Holds.call (h : Holds msgs rest s) {nSize : ℕ}
    (hsize : Fits msgs nSize) : Holds msgs rest (s.call nSize) := by
  unfold Receiver.call
  split
  · exact h
  · split
    · exact h
    · split
      · exact h.enterRecv hsize nofun
      · next hlen => exact ⟨h.start_lt, h.len_le, h.got, h.bytes, hsize, Nat.le_of_not_lt hlen⟩

/-- Nor does going on after a receive. -/
lemma Holds.resume (h : Holds msgs rest s) {nSize : ℕ} {site : RecvSite} (hsize : Fits msgs nSize)
    (hsite : ∀ p, site = .body p → Next rest p) : Holds msgs rest (s.resume nSize site) := by
  cases site with
  | header =>
      simp only [Receiver.resume]
      split
      · exact h.fail
      · next hlen => exact ⟨h.start_lt, h.len_le, h.got, h.bytes, hsize, Nat.le_of_not_lt hlen⟩
  | body packsize =>
      simp only [Receiver.resume]
      split
      · exact h.fail
      · next hlen =>
          exact ⟨h.start_lt, h.len_le, h.got, h.bytes, hsize, Nat.le_of_not_lt hlen,
            hsite packsize rfl⟩

/-- Bytes delivered at a position that is reduced right go behind those in the ring. -/
lemma Holds.deliver (h : Holds msgs rest s) {m : ℕ} (hm : m ≤ s.wire.length)
    (hroom : s.sock.inbufLen + m ≤ ringSize)
    (hend : (s.sock.inbufStart + s.sock.inbufLen) % ringSize + m ≤ ringSize)
    (hmod : (s.sock.inbufStart + s.sock.inbufLen) % ringSize = 0) :
    ∃ t, s.deliver (modRingSize (s.sock.inbufStart + s.sock.inbufLen)) m = t ∧ t.phase = s.phase ∧
      t.sock.inbufLen = s.sock.inbufLen + m ∧ Holds msgs rest t.fail := by
  have hlen : (s.wire.take m).length = m := by
    rw [List.length_take]
    omega
  have hwin := window_store s.sock.inputBuff (s.wire.take m) h.start_lt
    (by rw [hlen]; exact hroom) (by rw [hlen]; exact hend)
  rw [hlen] at hwin
  have hbytes : window (store s.sock.inputBuff ((s.sock.inbufStart + s.sock.inbufLen) % ringSize)
      (s.wire.take m)) ringSize s.sock.inbufStart (s.sock.inbufLen + m) ++ s.wire.drop m
      = stream rest := by
    rw [hwin, List.append_assoc, List.take_append_drop]
    exact h.bytes
  refine ⟨_, rfl, ?_⟩
  rw [(modRingSize_eq_iff _).mpr hmod, Receiver.deliver, if_pos hend]
  exact ⟨rfl, rfl, h.start_lt, hroom, h.got, hbytes, trivial⟩

/-- Bytes that the first receive puts at a multiple of the size come behind those in the ring. -/
lemma Holds.firstRecv (h : Holds msgs rest s) {nSize : ℕ} {site : RecvSite} {r : Recv}
    (hph : s.phase = .firstRecv nSize site)
    (hok : 0 < s.delivered s.savelen r →
      (s.sock.inbufStart + s.sock.inbufLen) % ringSize = 0) :
    Holds msgs rest (s.firstRecv nSize site r) := by
  obtain ⟨hsize, hlt, hsite⟩ : Fits msgs nSize ∧ s.sock.inbufLen < ringSize ∧
      ∀ p, site = .body p → Next rest p := by
    have := h.phase
    rwa [PhaseHolds, hph] at this
  unfold Receiver.firstRecv
  dsimp only
  by_cases hpos : s.delivered s.savelen r > 0
  · rw [if_pos hpos]
    obtain ⟨hle, hwire⟩ := s.delivered_le s.savelen r
    have hmod := hok hpos
    have hroom := s.savelen_le
    obtain ⟨t, ht, htph, htlen, ht'⟩ := h.deliver hwire (by omega) (by omega) hmod
    rw [ht, htlen, htph, hph, if_neg nofun, if_neg (by omega)]
    split
    · next hfull =>
        exact ⟨ht'.start_lt, ht'.len_le, ht'.got, ht'.bytes, hsize, htlen ▸ hfull.2, hsite⟩
    · exact ht'.resume hsize hsite
  · rw [if_neg hpos]
    exact h.fail

/-- So do those of the second receive. -/
lemma Holds.secondRecv (h : Holds msgs rest s) {nSize : ℕ} {site : RecvSite} {r : Recv}
    (hph : s.phase = .secondRecv nSize site)
    (hok : 0 < s.delivered (ringSize - s.sock.inbufLen) r →
      (s.sock.inbufStart + s.sock.inbufLen) % ringSize = 0) :
    Holds msgs rest (s.secondRecv nSize site r) := by
  obtain ⟨hsize, hlt, hsite⟩ : Fits msgs nSize ∧ s.sock.inbufLen < ringSize ∧
      ∀ p, site = .body p → Next rest p := by
    have := h.phase
    rwa [PhaseHolds, hph] at this
  unfold Receiver.secondRecv
  dsimp only
  by_cases hpos : s.delivered (ringSize - s.sock.inbufLen) r > 0
  · rw [if_pos hpos]
    obtain ⟨hle, hwire⟩ := s.delivered_le (ringSize - s.sock.inbufLen) r
    have hmod := hok hpos
    obtain ⟨t, ht, htph, htlen, ht'⟩ := h.deliver hwire (by omega) (by omega) hmod
    rw [ht, htlen, htph, hph, if_neg nofun, if_neg (by omega)]
    exact ht'.resume hsize hsite
  · rw [if_neg hpos]
    exact h.fail

/-- Two bytes in the ring are the first two of the next message. -/
lemma Holds.next_of_two_le (h : Holds msgs rest s) (hlen : 2 ≤ s.sock.inbufLen) :
    Next rest ((s.sock.inputBuff s.sock.inbufStart).toNat
      + (s.sock.inputBuff ((s.sock.inbufStart + 1) % ringSize)).toNat * 256) := by
  have hbytes := h.bytes
  have hlength : s.ring.length = s.sock.inbufLen := length_window _ _ _ _
  have hfst : (s.ring ++ s.wire)[0]? = some (s.sock.inputBuff s.sock.inbufStart) := by
    rw [List.getElem?_append_left (by omega), Receiver.ring, getElem?_window (by omega),
      Nat.add_zero, Nat.mod_eq_of_lt h.start_lt]
  have hsnd : (s.ring ++ s.wire)[1]?
      = some (s.sock.inputBuff ((s.sock.inbufStart + 1) % ringSize)) := by
    rw [List.getElem?_append_left (by omega), Receiver.ring, getElem?_window (by omega)]
  rw [hbytes] at hfst hsnd
  cases rest with
  | nil => cases hfst
  | cons m rest' =>
      refine ⟨m, rest', rfl, ?_⟩
      rw [← m.length_eq]
      have hm := m.two_le
      -- the message begins with two bytes
      obtain ⟨b₀, b₁, tl, hcons⟩ : ∃ b₀ b₁ tl, m.bytes = b₀ :: b₁ :: tl := by
        match hb : m.bytes with
        | [] => simp [hb] at hm
        | [b₀] => simp [hb] at hm
        | b₀ :: b₁ :: tl => exact ⟨b₀, b₁, tl, rfl⟩
      rw [stream, List.map_cons, List.flatten_cons, hcons] at hfst hsnd
      cases hfst
      cases hsnd
      rw [hcons]
      simp only [List.take_succ_cons, List.take_zero, leNat_cons, leNat_nil]
      omega

/-- The length read is that of the next message, when its upper byte is read inside the ring. -/
lemma Holds.decode (h : Holds msgs rest s) {nSize : ℕ} (hph : s.phase = .decode nSize)
    (hok : s.sock.inputBuff (modRingSize (s.sock.inbufStart + 1))
      = s.sock.inputBuff ((s.sock.inbufStart + 1) % ringSize)) :
    Holds msgs rest (s.decode nSize) := by
  obtain ⟨hsize, hlen⟩ : Fits msgs nSize ∧ 2 ≤ s.sock.inbufLen := by
    have := h.phase
    rwa [PhaseHolds, hph] at this
  have hnext := h.next_of_two_le hlen
  unfold Receiver.decode
  dsimp only
  rw [hok]
  generalize (s.sock.inputBuff s.sock.inbufStart).toNat
    + (s.sock.inputBuff ((s.sock.inbufStart + 1) % ringSize)).toNat * 256 = packsize at hnext ⊢
  obtain ⟨m, rest', hrest, hm⟩ := id hnext
  have htwo := m.two_le
  have hfits := m.le_ringSize
  rw [if_neg (by omega)]
  split
  · refine h.enterRecv hsize ?_
    intro p hp
    cases hp
    exact hnext
  · next hle =>
      exact ⟨h.start_lt, h.len_le, h.got, h.bytes, hsize, Nat.le_of_not_lt hle, hnext⟩

/-- The two ways of copying both copy the front of the ring. -/
lemma Holds.copied_eq (h : Holds msgs rest s) {packsize : ℕ} (hle : packsize ≤ s.sock.inbufLen) :
    (if s.sock.inbufStart + packsize > ringSize then
      slice s.sock.inputBuff s.sock.inbufStart (ringSize - s.sock.inbufStart)
        ++ slice s.sock.inputBuff 0 (packsize - (ringSize - s.sock.inbufStart))
    else slice s.sock.inputBuff s.sock.inbufStart packsize) = s.ring.take packsize := by
  have hlen := h.len_le
  rw [Receiver.ring, take_window _ _ _ hle]
  split
  · next hwrap => exact (window_eq_append h.start_lt (by omega) hwrap).symm
  · next hwrap => exact (window_eq_slice (by omega)).symm

/-- The message copied out is the next one, and the others stay, when nothing is left or the rest
begins at a multiple of the size. -/
lemma Holds.copy (h : Holds msgs rest s) {nSize packsize : ℕ} (hph : s.phase = .copy nSize packsize)
    (hok : s.sock.inbufLen = packsize ∨ (s.sock.inbufStart + packsize) % ringSize = 0) :
    ∃ rest', Holds msgs rest' (s.copy nSize packsize) := by
  obtain ⟨hsize, hle, m, rest', rfl, rfl⟩ : Fits msgs nSize ∧ packsize ≤ s.sock.inbufLen ∧
      Next rest packsize := by
    have := h.phase
    rwa [PhaseHolds, hph] at this
  have hfits := m.le_ringSize
  have hlen := h.len_le
  have hbytes := h.bytes
  have hlength : s.ring.length = s.sock.inbufLen := length_window _ _ _ _
  rw [stream, List.map_cons, List.flatten_cons] at hbytes
  -- the message is the front of the ring
  have hmsg : s.ring.take m.bytes.length = m.bytes := by
    have htake := congrArg (List.take m.bytes.length) hbytes
    rwa [List.take_append_of_le_length (by omega), List.take_left] at htake
  have hrest : s.ring.drop m.bytes.length ++ s.wire = stream rest' := by
    have hdrop := congrArg (List.drop m.bytes.length) hbytes
    rwa [List.drop_append_of_le_length (by omega), List.drop_left] at hdrop
  have hsent : m.bytes ∈ msgs.map Message.bytes := by
    rw [h.got]
    exact List.mem_append_right _ List.mem_cons_self
  obtain ⟨m', hm', heq⟩ := List.mem_map.mp hsent
  have hroom := hsize m' hm'
  rw [heq] at hroom
  unfold Receiver.copy
  rw [if_neg (by omega)]
  dsimp only
  rw [h.copied_eq hle, hmsg]
  refine ⟨rest', modRingSize_lt _, ?_, ?_, ?_, trivial⟩
  · show s.sock.inbufLen - m.bytes.length ≤ ringSize
    omega
  · show msgs.map Message.bytes = s.got ++ [m.bytes] ++ rest'.map Message.bytes
    rw [h.got, List.append_assoc]
    rfl
  · show window s.sock.inputBuff ringSize (modRingSize (s.sock.inbufStart + m.bytes.length))
      (s.sock.inbufLen - m.bytes.length) ++ s.wire = stream rest'
    rw [← hrest, Receiver.ring, drop_window _ _ _ hle]
    rcases hok with hall | hmod
    · rw [hall, Nat.sub_self]
      rfl
    · rw [(modRingSize_eq_iff _).mpr hmod]

/-- Every step in which the indices are reduced right keeps the invariant. -/
lemma Holds.step {t : Receiver} {e : Event} (h : Holds msgs rest s)
    (hsize : ∀ n, e = .call n → Fits msgs n) (hok : s.Reduces e) (hst : s.step e = some t) :
    ∃ rest', Holds msgs rest' t := by
  obtain ⟨nSize, rfl, rfl⟩ | ⟨r, nSize, site, rfl, hph, rfl⟩ | ⟨r, nSize, site, rfl, hph, rfl⟩ |
    ⟨nSize, rfl, hph, rfl⟩ | ⟨nSize, packsize, rfl, hph, rfl⟩ := step_cases hst
  · exact ⟨rest, h.call (hsize nSize rfl)⟩
  · simp only [Reduces, hph] at hok
    exact ⟨rest, h.firstRecv hph hok⟩
  · simp only [Reduces, hph] at hok
    exact ⟨rest, h.secondRecv hph hok⟩
  · simp only [Reduces, hph] at hok
    exact ⟨rest, h.decode hph hok⟩
  · simp only [Reduces, hph] at hok
    exact h.copy hph hok

/-- At the start everything is still to come. -/
lemma holds_start (msgs : List Message) : Holds msgs msgs (start (stream msgs)) where
  start_lt := Nat.succ_pos _
  len_le := Nat.zero_le _
  got := rfl
  bytes := rfl
  phase := trivial

end Receiver

/-! ## Runs -/

/-- **Runs whose steps reduce the ring index right.** Whatever the socket delivers and when, the
messages that `receiveMsg` returns are the first ones of the stream, whole and in order. -/
theorem fifo_of_reduces (msgs : List Message) (es fs : List Receiver.Event) (s : Receiver)
    (hsize : ∀ n, .call n ∈ es ++ fs → Fits msgs n)
    (hok : (receiver (stream msgs)).Meets Receiver.Reduces (es ++ fs))
    (hrun : (receiver (stream msgs)).run es = some s) : Fifo msgs s := by
  have hcalls : ∀ e ∈ es ++ fs, ∀ n, e = .call n → Fits msgs n := by
    intro e he n hn
    exact hsize n (hn ▸ he)
  have hboth := ((receiver (stream msgs)).meetsFrom_of_forall hcalls _).and hok
  obtain ⟨rest, hs⟩ := (receiver (stream msgs)).meets_invariant
    (I := fun t => ∃ rest, Receiver.Holds msgs rest t)
    ⟨msgs, Receiver.holds_start msgs⟩
    (fun _ _ _ ht he hst => ht.elim fun _ h => h.step he.1 he.2 hst)
    (Machine.MeetsFrom.of_append _ hboth) hrun
  exact hs.fifo

/-- A message of 50 bytes, the last 48 of them equal. -/
def fifty (b : UInt8) : Message where
  bytes := 50 :: 0 :: List.replicate 48 b
  two_le := by simp
  le_ringSize := by simp [ringSize]
  length_eq := rfl

set_option maxRecDepth 4096 in
/-- Two messages of 50 bytes that arrive one by one: the ring index is 0 again after each. -/
theorem fifo_of_reduces_fifty :
    ∃ s, (receiver (stream [fifty 1, fifty 2])).run
        [.call 64, .recv (.ready 50), .go, .go, .call 64, .recv .error, .call 64,
          .recv (.ready 50), .go, .go] = some s ∧
      s.got = [(fifty 1).bytes, (fifty 2).bytes] ∧ Fifo [fifty 1, fifty 2] s := by
  refine ⟨_, rfl, by decide, fifo_of_reduces [fifty 1, fifty 2]
    [.call 64, .recv (.ready 50), .go, .go, .call 64, .recv .error, .call 64,
      .recv (.ready 50), .go, .go] [] _ ?_ ?_ rfl⟩
  · intro n hn
    have hn : n = 64 := by simpa using hn
    subst hn
    unfold Fits
    decide
  · refine .cons rfl trivial (.cons rfl ?_ (.cons rfl ?_ (.cons rfl ?_ (.cons rfl trivial
      (.cons rfl ?_ (.cons rfl trivial (.cons rfl ?_ (.cons rfl ?_ (.cons rfl ?_ trivial)))))))))
    · exact fun _ => rfl
    · rfl
    · exact .inl rfl
    · exact fun _ => rfl
    · exact fun _ => rfl
    · rfl
    · exact .inl rfl

/-- The same two messages in one `recv`: `m_InbufStart` goes from 0 to `50 % 50 * 1024`, which is 0, and
the second call returns the first message again. -/
theorem not_fifo_fifty :
    ∃ s, (receiver (stream [fifty 1, fifty 2])).run
        [.call 64, .recv (.ready 100), .go, .go, .call 64, .go, .go] = some s ∧
      Fits [fifty 1, fifty 2] 64 ∧ s.got = [(fifty 1).bytes, (fifty 1).bytes] ∧
      ¬Fifo [fifty 1, fifty 2] s := by
  refine ⟨_, rfl, ?_, by decide, ?_⟩
  · unfold Fits
    decide
  · intro hfifo
    exact absurd hfifo.1 (by decide)

end CocInside.TcpNetwork
