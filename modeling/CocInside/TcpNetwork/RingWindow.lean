import CocInside.TcpNetwork.RingFifo

/-!
# The memory that `ClientSocket` touches

`receiveMsg` and `recvFromSock` touch `m_InputBuff` at the room offered to a `recv`, at the two bytes of
`packsize` and at the sources of `memcpy`, and the caller's buffer at its target. The assertion on the
room, `CHECKF(savepos + savelen <= IN_MAX_MESSAGE_SIZE)`, is commented out, and the capacity in `nSize`
is never compared with `packsize`.

* `Access`, `Receiver.accesses`: what the code is about to touch at each of its places.
* `Receiver.Safe`: the counters are in range, and every access stays where it should.
* `Receiver.Placed`: the counters for which the room of a first `recv` is free (`room_allowed_iff`).
* `Receiver.Guarded`: the steps after which all is still safe (`Receiver.Safe.step_iff`).
* `always_safe_iff`: a run is safe all along exactly if each of its steps is such a step.

Source: `CocTest/Classes/TcpNetwork/ClientSocket.cpp`, `ClientSocket::receiveMsg`,
`ClientSocket::recvFromSock`.
-/

namespace CocInside.TcpNetwork

open CocInside.Lib

/-- A piece of memory: room in `m_InputBuff` for a `recv`, bytes of `m_InputBuff` that are read, and
bytes written to the caller's buffer of `nSize` bytes. -/
inductive Access where
  | room (savepos savelen : ℕ)
  | source (first count : ℕ)
  | target (count nSize : ℕ)
deriving DecidableEq

namespace Receiver

/-- What the code touches next. -/
def accesses (s : Receiver) : List Access :=
  let first := s.sock.inbufStart
  match s.phase with
  | .idle => []
  | .firstRecv _ _ => [.room (modRingSize (first + s.sock.inbufLen)) s.savelen]
  | .secondRecv _ _ =>
      [.room (modRingSize (first + s.sock.inbufLen)) (ringSize - s.sock.inbufLen)]
  | .decode _ => [.source first 1, .source (modRingSize (first + 1)) 1]
  | .copy nSize packsize =>
      if first + packsize > ringSize then
        let copylen := ringSize - first
        [.source first copylen, .source 0 (packsize - copylen), .target packsize nSize]
      else [.source first packsize, .target packsize nSize]
  | .overrun => []

/-- The access stays inside its buffer, and room for a `recv` is clear of the unread bytes. -/
def Allows (s : Receiver) : Access → Prop
  | .room savepos savelen => savepos + savelen ≤ ringSize ∧
      ∀ p, savepos ≤ p → p < savepos + savelen →
        ¬Occupied ringSize s.sock.inbufStart s.sock.inbufLen p
  | .source first count => first + count ≤ ringSize
  | .target count nSize => count ≤ nSize

/-- The counters are in range, also after the subtraction of `packsize`; what is touched next is
allowed; and nothing was overrun before. -/
structure Safe (s : Receiver) : Prop where
  start_lt : s.sock.inbufStart < ringSize
  len_le : s.sock.inbufLen ≤ ringSize
  packsize_le : ∀ nSize packsize, s.phase = .copy nSize packsize → packsize ≤ s.sock.inbufLen
  allows : ∀ a ∈ s.accesses, s.Allows a
  not_overrun : s.phase ≠ .overrun

/-- The unread bytes end at the beginning or at the end of the buffer; or there are none, and the
reduced index is not behind the start; or the room at the reduced index ends in front of them. -/
def Placed (s : Receiver) : Prop :=
  let last := s.sock.inbufStart + s.sock.inbufLen
  last % ringSize = 0 ∨ (s.sock.inbufLen = 0 ∧ modRingSize last ≤ last) ∨
    (last < ringSize ∧ modRingSize last + (ringSize - last) ≤ s.sock.inbufStart)

/-- The length that the bytes read as a header announce. -/
def announced (s : Receiver) : ℕ :=
  (s.sock.inputBuff s.sock.inbufStart).toNat
    + (s.sock.inputBuff (modRingSize (s.sock.inbufStart + 1))).toNat * 256

/-- The step does not run into the macro or the missing check of `nSize`: where it leads to a first
`recv` the counters are `Placed`, and where it completes a message the message fits `nSize`. -/
def Guarded (s : Receiver) : Event → Prop
  | .call nSize => 0 < nSize → s.sock.socket = true → s.sock.inbufLen < 2 → s.Placed
  | .recv r =>
      match s.phase with
      | .firstRecv nSize site =>
          let inlen := s.delivered s.savelen r
          0 < inlen → ¬(inlen = s.savelen ∧ s.sock.inbufLen + inlen < ringSize) →
            ∀ packsize ≤ s.sock.inbufLen + inlen, site = .body packsize → packsize ≤ nSize
      | .secondRecv nSize site =>
          let inlen := s.delivered (ringSize - s.sock.inbufLen) r
          0 < inlen →
            ∀ packsize ≤ s.sock.inbufLen + inlen, site = .body packsize → packsize ≤ nSize
      | _ => True
  | .go =>
      match s.phase with
      | .decode nSize => 0 < s.announced → s.announced ≤ ringSize →
          (s.announced ≤ s.sock.inbufLen → s.announced ≤ nSize) ∧
          (s.sock.inbufLen < s.announced → s.sock.socket = true → s.Placed)
      | _ => True

variable {s : Receiver}

/-! ## The room of a first `recv` -/

/-- **The room of a first `recv`.** It is inside the buffer and clear of the unread bytes exactly if the
counters are `Placed`: the parse of the macro reduces an index right at multiples of the size only. -/
lemma room_allowed_iff (hs : s.sock.inbufStart < ringSize) (hl : s.sock.inbufLen < ringSize) :
    s.Allows (.room (modRingSize (s.sock.inbufStart + s.sock.inbufLen)) s.savelen) ↔ s.Placed := by
  have hocc : ∀ p, Occupied ringSize s.sock.inbufStart s.sock.inbufLen p ↔ _ :=
    fun p => occupied_iff hs hl.le
  have hq := modRingSize_eq_iff (s.sock.inbufStart + s.sock.inbufLen)
  simp only [Allows, hocc, Placed, savelen]
  generalize s.sock.inbufStart = start at *
  generalize s.sock.inbufLen = len at *
  generalize modRingSize (start + len) = q at *
  by_cases hlast : start + len < ringSize
  · rw [if_pos hlast]
    rw [Nat.mod_eq_of_lt hlast] at hq ⊢
    constructor
    · rintro ⟨hin, hfree⟩
      by_contra hno
      rw [not_or, not_or] at hno
      -- the room and the unread bytes meet
      refine hfree (max q start) (Nat.le_max_left _ _) ?_ (.inl ?_) <;> omega
    · intro hplaced
      refine ⟨by omega, ?_⟩
      intro p hp hp'
      omega
  · rw [if_neg hlast]
    rw [mod_of_lt_two_mul (by omega), if_neg hlast] at hq ⊢
    constructor
    · rintro ⟨hin, hfree⟩
      -- the free cells are just as many as the room has
      have hge : start + len - ringSize ≤ q := by
        by_contra hlt
        exact hfree q le_rfl (by omega) (.inr (by omega))
      have hle : q + (ringSize - len) ≤ start := by
        by_contra hlt
        exact hfree (q + (ringSize - len) - 1) (by omega) (by omega) (.inl (by omega))
      exact .inl (hq.mp (by omega))
    · intro hplaced
      have hzero : q = 0 := by omega
      refine ⟨by omega, ?_⟩
      intro p hp hp'
      omega

/-! ## What is safe at each place -/

section Places

variable (hs : s.sock.inbufStart < ringSize) (hl : s.sock.inbufLen ≤ ringSize)
include hs hl

/-- A receiver that has failed is safe. -/
lemma safe_fail : s.fail.Safe :=
  ⟨hs, hl, nofun, nofun, nofun⟩

/-- Decoding is safe before its step. -/
lemma safe_decode (nSize : ℕ) : { s with phase := .decode nSize : Receiver }.Safe := by
  refine ⟨hs, hl, nofun, ?_, nofun⟩
  intro a ha
  simp only [accesses, List.mem_cons, List.not_mem_nil, or_false] at ha
  rcases ha with rfl | rfl
  · exact hs
  · exact modRingSize_lt _

/-- The first receive is safe exactly when the window is placed. -/
lemma safe_firstRecv_iff {nSize : ℕ} {site : RecvSite} (hlt : s.sock.inbufLen < ringSize) :
    { s with phase := .firstRecv nSize site : Receiver }.Safe ↔ s.Placed := by
  rw [← room_allowed_iff hs hlt]
  constructor
  · intro h
    exact h.allows _ List.mem_cons_self
  · intro h
    refine ⟨hs, hl, nofun, ?_, nofun⟩
    intro a ha
    cases List.mem_singleton.mp ha
    exact h

/-- The second `recv` is only made where the first one has filled the buffer up to its end. -/
lemma safe_secondRecv {nSize : ℕ} {site : RecvSite}
    (hend : s.sock.inbufStart + s.sock.inbufLen = ringSize) :
    { s with phase := .secondRecv nSize site : Receiver }.Safe := by
  refine ⟨hs, hl, nofun, ?_, nofun⟩
  intro a ha
  cases List.mem_singleton.mp ha
  have hzero : modRingSize (s.sock.inbufStart + s.sock.inbufLen) = 0 := by
    rw [hend]
    rfl
  simp only [Allows, occupied_iff hs hl, hzero]
  refine ⟨by omega, ?_⟩
  intro p hp hp'
  omega

/-- A copy is safe exactly when the packet fits. -/
lemma safe_copy_iff {nSize packsize : ℕ} (hle : packsize ≤ s.sock.inbufLen) :
    { s with phase := .copy nSize packsize : Receiver }.Safe ↔ packsize ≤ nSize := by
  constructor
  · intro h
    refine h.allows (.target packsize nSize) ?_
    simp only [accesses]
    split <;> simp
  · intro hcap
    refine ⟨hs, hl, ?_, ?_, nofun⟩
    · intro n p hp
      cases hp
      exact hle
    · intro a ha
      simp only [accesses] at ha
      split at ha
      · simp only [List.mem_cons, List.not_mem_nil, or_false] at ha
        rcases ha with rfl | rfl | rfl
        · simp only [Allows]
          omega
        · simp only [Allows]
          omega
        · exact hcap
      · simp only [List.mem_cons, List.not_mem_nil, or_false] at ha
        rcases ha with rfl | rfl
        · simp only [Allows]
          omega
        · exact hcap

/-- Entering `recvFromSock`. -/
lemma safe_enterRecv_iff {nSize : ℕ} {site : RecvSite} (hlt : s.sock.inbufLen < ringSize) :
    (s.enterRecv nSize site).Safe ↔ (s.sock.socket = true → s.Placed) := by
  unfold Receiver.enterRecv
  cases hsock : s.sock.socket with
  | false =>
      rw [if_pos (by simp)]
      exact iff_of_true (safe_fail hs hl) nofun
  | true =>
      rw [if_neg (by simp; omega), safe_firstRecv_iff hs hl hlt]
      simp

/-- Coming back from `recvFromSock`. -/
lemma safe_resume_iff {nSize : ℕ} {site : RecvSite} :
    (s.resume nSize site).Safe ↔
      ∀ packsize ≤ s.sock.inbufLen, site = .body packsize → packsize ≤ nSize := by
  cases site with
  | header =>
      refine iff_of_true ?_ nofun
      simp only [Receiver.resume]
      split
      · exact safe_fail hs hl
      · exact safe_decode hs hl nSize
  | body packsize =>
      simp only [Receiver.resume]
      split
      · refine iff_of_true (safe_fail hs hl) ?_
        rintro p hp ⟨⟩
        omega
      · next hle =>
          rw [safe_copy_iff hs hl (Nat.le_of_not_lt hle)]
          constructor
          · rintro h p hp ⟨⟩
            exact h
          · intro h
            exact h packsize (Nat.le_of_not_lt hle) rfl

end Places

/-! ## The steps -/

/-- A `recv` into room inside the buffer changes the cells and the length only. -/
lemma deliver_of_le {savepos m : ℕ} (h : savepos + m ≤ ringSize) :
    ∃ t, s.deliver savepos m = t ∧ t.phase = s.phase ∧
      t.sock.inbufStart = s.sock.inbufStart ∧ t.sock.inbufLen = s.sock.inbufLen + m := by
  refine ⟨_, rfl, ?_⟩
  rw [Receiver.deliver, if_pos h]
  exact ⟨rfl, rfl, rfl⟩

/-- A call stays safe exactly when its guard holds. -/
lemma Safe.call_iff (h : s.Safe) (nSize : ℕ) :
    (s.call nSize).Safe ↔ s.Guarded (.call nSize) := by
  unfold Receiver.call
  simp only [Guarded]
  split
  · next hzero => exact iff_of_true h (by omega)
  · next hpos =>
      split
      · next hsock => exact iff_of_true h (by simp_all)
      · next hsock =>
          split
          · next hlen =>
              rw [safe_enterRecv_iff h.start_lt h.len_le (by unfold ringSize; omega)]
              simp_all [Nat.pos_of_ne_zero]
          · next hlen => exact iff_of_true (safe_decode h.start_lt h.len_le nSize) (by omega)

/-- The first receive stays safe exactly when its guard holds. -/
lemma Safe.firstRecv_iff (h : s.Safe) {nSize : ℕ} {site : RecvSite} (r : Recv)
    (hph : s.phase = .firstRecv nSize site) :
    (s.firstRecv nSize site r).Safe ↔ s.Guarded (.recv r) := by
  have hs := h.start_lt
  have hl := h.len_le
  obtain ⟨hin, -⟩ := h.allows (.room _ s.savelen) (by
    simp only [accesses, hph]
    exact List.mem_cons_self)
  obtain ⟨hle, -⟩ := s.delivered_le s.savelen r
  simp only [Receiver.firstRecv, Guarded, hph]
  generalize s.delivered s.savelen r = inlen at *
  by_cases hpos : inlen > 0
  · obtain ⟨t, ht, htph, hts, htl⟩ := s.deliver_of_le
      (show modRingSize (s.sock.inbufStart + s.sock.inbufLen) + inlen ≤ ringSize by omega)
    have hroom := s.savelen_le
    have hts' : t.sock.inbufStart < ringSize := by omega
    have htl' : t.sock.inbufLen ≤ ringSize := by omega
    rw [if_pos hpos, ht, htph, hph, if_neg nofun, if_neg (by omega), htl]
    by_cases hfull : inlen = s.savelen ∧ s.sock.inbufLen + inlen < ringSize
    · rw [if_pos hfull]
      refine iff_of_true (safe_secondRecv hts' htl' ?_) (fun _ hno => absurd hfull hno)
      have hsave := hfull.1
      unfold savelen at hsave
      split at hsave <;> omega
    · rw [if_neg hfull, safe_resume_iff hts' htl', htl]
      exact ⟨fun hp _ _ => hp, fun hp => hp hpos hfull⟩
  · rw [if_neg hpos]
    exact iff_of_true (safe_fail hs hl) (fun hgt => absurd hgt hpos)

/-- The second receive stays safe exactly when its guard holds. -/
lemma Safe.secondRecv_iff (h : s.Safe) {nSize : ℕ} {site : RecvSite} (r : Recv)
    (hph : s.phase = .secondRecv nSize site) :
    (s.secondRecv nSize site r).Safe ↔ s.Guarded (.recv r) := by
  have hs := h.start_lt
  have hl := h.len_le
  obtain ⟨hin, -⟩ := h.allows (.room _ (ringSize - s.sock.inbufLen)) (by
    simp only [accesses, hph]
    exact List.mem_cons_self)
  obtain ⟨hle, -⟩ := s.delivered_le (ringSize - s.sock.inbufLen) r
  simp only [Receiver.secondRecv, Guarded, hph]
  generalize s.delivered (ringSize - s.sock.inbufLen) r = inlen at *
  by_cases hpos : inlen > 0
  · obtain ⟨t, ht, htph, hts, htl⟩ := s.deliver_of_le
      (show modRingSize (s.sock.inbufStart + s.sock.inbufLen) + inlen ≤ ringSize by omega)
    have hts' : t.sock.inbufStart < ringSize := by omega
    have htl' : t.sock.inbufLen ≤ ringSize := by omega
    rw [if_pos hpos, ht, htph, hph, if_neg nofun, if_neg (by omega),
      safe_resume_iff hts' htl', htl]
    exact ⟨fun hp _ => hp, fun hp => hp hpos⟩
  · rw [if_neg hpos]
    exact iff_of_true (safe_fail hs hl) (fun hgt => absurd hgt hpos)

/-- Reading `packsize`, in terms of the length announced. -/
lemma decode_eq (s : Receiver) (nSize : ℕ) : s.decode nSize =
    if s.announced = 0 ∨ s.announced > ringSize then
      { s with sock := { s.sock with inbufLen := 0, inbufStart := 0 } : Receiver }.fail
    else if s.announced > s.sock.inbufLen then s.enterRecv nSize (.body s.announced)
    else { s with phase := .copy nSize s.announced } := rfl

/-- Decoding stays safe exactly when its guard holds. -/
lemma Safe.decode_iff (h : s.Safe) {nSize : ℕ} (hph : s.phase = .decode nSize) :
    (s.decode nSize).Safe ↔ s.Guarded .go := by
  have hs := h.start_lt
  have hl := h.len_le
  rw [decode_eq]
  simp only [Guarded, hph]
  generalize s.announced = packsize
  split
  · next hbad =>
      refine iff_of_true (safe_fail (Nat.succ_pos _) (Nat.zero_le _)) ?_
      intro hpos hle
      omega
  · next hgood =>
      split
      · next hgt =>
          rw [safe_enterRecv_iff hs hl (by omega)]
          exact ⟨fun hp _ _ => ⟨by omega, fun _ => hp⟩, fun hp => (hp (by omega) (by omega)).2 hgt⟩
      · next hle =>
          rw [safe_copy_iff hs hl (by omega)]
          exact ⟨fun hp _ _ => ⟨fun _ => hp, by omega⟩,
            fun hp => (hp (by omega) (by omega)).1 (by omega)⟩

/-- Copying a packet out stays safe. -/
lemma Safe.copy (h : s.Safe) {nSize packsize : ℕ} (hph : s.phase = .copy nSize packsize) :
    (s.copy nSize packsize).Safe := by
  have hcap : packsize ≤ nSize := by
    refine h.allows (.target packsize nSize) ?_
    simp only [accesses, hph]
    split <;> simp
  have hl := h.len_le
  unfold Receiver.copy
  rw [if_neg (by omega)]
  exact ⟨modRingSize_lt _, le_trans (Nat.sub_le _ _) hl, nofun, nofun, nofun⟩

/-- **One step.** Out of a safe state, exactly the guarded steps lead to a safe state. -/
lemma Safe.step_iff {t : Receiver} {e : Event} (h : s.Safe) (hst : s.step e = some t) :
    t.Safe ↔ s.Guarded e := by
  obtain ⟨nSize, rfl, rfl⟩ | ⟨r, nSize, site, rfl, hph, rfl⟩ | ⟨r, nSize, site, rfl, hph, rfl⟩ |
    ⟨nSize, rfl, hph, rfl⟩ | ⟨nSize, packsize, rfl, hph, rfl⟩ := step_cases hst
  · exact h.call_iff nSize
  · exact h.firstRecv_iff r hph
  · exact h.secondRecv_iff r hph
  · exact h.decode_iff hph
  · refine iff_of_true (h.copy hph) ?_
    simp only [Guarded, hph]

/-- The start is safe. -/
lemma safe_start (wire : List UInt8) : (start wire).Safe :=
  ⟨Nat.succ_pos _, Nat.zero_le _, nofun, nofun, nofun⟩

end Receiver

/-! ## Runs -/

/-- **Window safety.** Whatever the peer sends and however the socket delivers it, every state that a run
goes through is safe exactly if each step of the run is guarded. -/
theorem always_safe_iff (wire : List UInt8) (es : List Receiver.Event) (t : Receiver)
    (hrun : (receiver wire).run es = some t) :
    (∀ fs gs u, es = fs ++ gs → (receiver wire).run fs = some u → u.Safe) ↔
      (receiver wire).Meets Receiver.Guarded es :=
  (receiver wire).always_iff_meetsFrom (fun _ _ _ hs hst => hs.step_iff hst)
    (Receiver.safe_start wire) hrun

/-- A message of 25 bytes: the start of the ring becomes `25 * 1024`, and the next room is in front of
it. -/
theorem always_safe_twentyFive :
    ∃ t, (receiver (25 :: 0 :: List.replicate 23 7)).run
        [.call 64, .recv (.ready 25), .go, .go, .call 64] = some t ∧
      t.accesses = [.room 0 25600] ∧ t.Safe := by
  refine ⟨_, rfl, by decide, (always_safe_iff (25 :: 0 :: List.replicate 23 7)
    [.call 64, .recv (.ready 25), .go, .go, .call 64] _ rfl).mpr ?_
      [.call 64, .recv (.ready 25), .go, .go, .call 64] [] _ rfl rfl⟩
  refine .cons rfl ?_ (.cons rfl ?_ (.cons rfl ?_ (.cons rfl trivial (.cons rfl ?_ trivial))))
  · exact fun _ _ _ => .inl rfl
  · exact fun _ _ _ _ => nofun
  · exact fun _ _ => ⟨fun _ => by decide, fun hlt => absurd hlt (by decide)⟩
  · exact fun _ _ _ => .inr (.inl (by decide))

/-- After a message of two bytes the start is `2 * 1024`, and the next `recv` is offered 49152 bytes at
49152, far past the end; and a message of 65 bytes is copied to a buffer of 64. -/
theorem not_safe_two_bytes :
    (∃ s, (receiver [2, 0]).run [.call 64, .recv (.ready 2), .go, .go, .call 64] = some s ∧
      s.accesses = [.room 49152 49152] ∧ ¬s.Safe) ∧
    ∃ s, (receiver (65 :: 0 :: List.replicate 63 7)).run
        [.call 64, .recv (.ready 65), .go] = some s ∧
      s.accesses = [.source 0 65, .target 65 64] ∧ ¬s.Safe := by
  refine ⟨⟨_, rfl, by decide, ?_⟩, ⟨_, rfl, by decide, ?_⟩⟩
  · intro h
    exact absurd (h.allows (.room 49152 49152) (by decide)).1 (by decide)
  · intro h
    exact absurd (h.allows (.target 65 64) (by decide)) (by unfold Receiver.Allows; decide)

end CocInside.TcpNetwork
