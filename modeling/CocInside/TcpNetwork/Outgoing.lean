import CocInside.TcpNetwork.ClientNet

/-!
# What the socket takes of the messages sent

`connect` leaves the socket in non-blocking mode, where a `write` may take any number of the bytes it
is given, or fail. `sendMsg` does not look at the result: it returns true once it has called `write`,
and what the socket did not take is lost.

* `WriteResult`, `Outgoing`, `Outgoing.send`: one call of `sendMsg`, with the answer of the socket.
* `StreamIntegrity`: the socket has taken the messages that `sendMsg` returned true for, whole.
* `streamIntegrity_iff`: it has exactly when every `write` took all it was given.

Source: `CocTest/Classes/TcpNetwork/ClientNet.cpp`, `CocTest/Classes/TcpNetwork/TcpSocket.cpp`.
-/

namespace CocInside.TcpNetwork

/-- What a non-blocking `write` does: take a number of bytes, or fail.
Source: `TcpSocket.cpp`, `TcpSocket::write`. -/
inductive WriteResult where
  | accepted (n : ℕ)
  | failed
deriving DecidableEq

/-- The bytes the socket takes of those it is given. -/
def WriteResult.taken (bytes : List UInt8) : WriteResult → List UInt8
  | .accepted n => bytes.take n
  | .failed => []

/-- The `write` takes all of `len` bytes. -/
def WriteResult.TakesAll (len : ℕ) : WriteResult → Prop
  | .accepted n => len ≤ n
  | .failed => False

instance (len : ℕ) : (w : WriteResult) → Decidable (w.TakesAll len)
  | .accepted n => inferInstanceAs (Decidable (len ≤ n))
  | .failed => .isFalse id

/-- The bytes the socket has taken, and the messages for which `sendMsg` returned true. -/
structure Outgoing where
  stream : List UInt8
  sent : List (List UInt8)

/-- A call `sendMsg(msg)`, in which the socket answers the `write`, if there is one, with `w`.
Source: `ClientNet.cpp`, `ClientNet::sendMsg`. -/
def Outgoing.send (net : ClientNet) (o : Outgoing) (msg : List UInt8) (w : WriteResult) :
    Outgoing where
  stream := o.stream ++ w.taken (net.sendMsg msg).2
  sent := if (net.sendMsg msg).1 then o.sent ++ [msg] else o.sent

/-- Any calls of `sendMsg`, each with the answer of the socket. -/
def Outgoing.sends (net : ClientNet) (calls : List (List UInt8 × WriteResult)) : Outgoing :=
  calls.foldl (fun o c => o.send net c.1 c.2) ⟨[], []⟩

/-- The socket has taken exactly the messages that were reported sent, and nothing of the others. -/
def StreamIntegrity (net : ClientNet) (calls : List (List UInt8 × WriteResult)) : Prop :=
  (Outgoing.sends net calls).stream = (Outgoing.sends net calls).sent.flatten ∧
    ∀ c ∈ calls, (net.sendMsg c.1).1 = false → c.2.taken (net.sendMsg c.1).2 = []

/-! ## One call -/

/-- `sendMsg` hands the whole message to `write` when it returns true, and nothing otherwise. -/
lemma ClientNet.sendMsg_snd (net : ClientNet) (msg : List UInt8) :
    (net.sendMsg msg).2 = if (net.sendMsg msg).1 then msg else [] := by
  unfold ClientNet.sendMsg
  split
  · rfl
  · split
    · rfl
    · split
      · rfl
      · rfl

/-- `sendMsg` takes a message that is neither empty nor too long, when there is a socket. -/
lemma ClientNet.sendMsg_fst {net : ClientNet} {msg : List UInt8} :
    (net.sendMsg msg).1 = true ↔
      net.socket = true ∧ 0 < msg.length ∧ msg.length ≤ maxMessageSize := by
  unfold ClientNet.sendMsg
  split_ifs with hempty hsock hlong
  · simp [hempty]
  · simp_all
  · simp only [false_iff]
    omega
  · simp only [true_iff]
    simp only [Bool.not_eq_true', Bool.not_eq_false] at hsock
    exact ⟨hsock, by omega, by omega⟩

/-- Of nothing, nothing is taken. -/
lemma WriteResult.taken_nil (w : WriteResult) : w.taken [] = [] := by
  cases w with
  | accepted n => exact List.take_nil
  | failed => rfl

/-- No more is taken than there is. -/
lemma WriteResult.length_taken_le (bytes : List UInt8) (w : WriteResult) :
    (w.taken bytes).length ≤ bytes.length := by
  cases w with
  | accepted n =>
      rw [taken, List.length_take]
      exact Nat.min_le_right _ _
  | failed => exact Nat.zero_le _

/-- Taking as many bytes as were given is taking them all. -/
lemma WriteResult.length_taken_eq_iff {bytes : List UInt8} (hne : 0 < bytes.length)
    (w : WriteResult) : (w.taken bytes).length = bytes.length ↔ w.TakesAll bytes.length := by
  cases w with
  | accepted n =>
      rw [taken, List.length_take, TakesAll]
      omega
  | failed =>
      simp only [taken, List.length_nil, TakesAll, iff_false]
      omega

/-- What is taken in full is the message. -/
lemma WriteResult.taken_eq_of_length {bytes : List UInt8} {w : WriteResult}
    (h : (w.taken bytes).length = bytes.length) : w.taken bytes = bytes := by
  cases w with
  | accepted n =>
      rw [taken, List.length_take] at h
      exact List.take_of_length_le (by omega)
  | failed => exact (List.eq_nil_of_length_eq_zero h.symm).symm

/-! ## Any number of calls -/

/-- Stream and messages, call by call. -/
lemma Outgoing.foldl_send (net : ClientNet) (calls : List (List UInt8 × WriteResult))
    (o : Outgoing) :
    calls.foldl (fun o c => o.send net c.1 c.2) o =
      ⟨o.stream ++ calls.flatMap fun c => c.2.taken (net.sendMsg c.1).2,
        o.sent ++ (calls.filter fun c => (net.sendMsg c.1).1).map Prod.fst⟩ := by
  induction calls generalizing o with
  | nil => simp
  | cons c calls ih =>
      rw [List.foldl_cons, ih, Outgoing.send, List.flatMap_cons, List.append_assoc]
      congr 1
      by_cases hc : (net.sendMsg c.1).1 = true
      · simp [hc]
      · simp [hc]

/-- The messages reported sent are what the calls hand to `write`. -/
lemma Outgoing.flatten_sent (net : ClientNet) (calls : List (List UInt8 × WriteResult)) :
    ((calls.filter fun c => (net.sendMsg c.1).1).map Prod.fst).flatten
      = calls.flatMap fun c => (net.sendMsg c.1).2 := by
  induction calls with
  | nil => rfl
  | cons c calls ih =>
      rw [List.flatMap_cons, ← ih, net.sendMsg_snd]
      by_cases hc : (net.sendMsg c.1).1 = true
      · rw [List.filter_cons, if_pos hc, List.map_cons, List.flatten_cons, if_pos hc]
      · rw [List.filter_cons, if_neg hc, if_neg hc, List.nil_append]

/-- Over all calls no more is taken than there is. -/
lemma length_flatMap_taken_le (net : ClientNet) (calls : List (List UInt8 × WriteResult)) :
    (calls.flatMap fun c => c.2.taken (net.sendMsg c.1).2).length
      ≤ (calls.flatMap fun c => (net.sendMsg c.1).2).length := by
  induction calls with
  | nil => exact le_rfl
  | cons c calls ih =>
      rw [List.flatMap_cons, List.flatMap_cons, List.length_append, List.length_append]
      exact Nat.add_le_add (WriteResult.length_taken_le _ _) ih

/-- **Integrity of the outgoing stream.** It holds exactly when every `write` that `sendMsg` makes
(for a valid socket and a message of one to `MAX_MESSAGE_SIZE` bytes) takes the whole message. -/
theorem streamIntegrity_iff (net : ClientNet) (calls : List (List UInt8 × WriteResult)) :
    StreamIntegrity net calls ↔
      ∀ c ∈ calls, net.socket = true → 0 < c.1.length → c.1.length ≤ maxMessageSize →
        c.2.TakesAll c.1.length := by
  have hsilent : ∀ c ∈ calls, (net.sendMsg c.1).1 = false → c.2.taken (net.sendMsg c.1).2 = [] := by
    intro c _ hc
    rw [net.sendMsg_snd, hc]
    exact WriteResult.taken_nil c.2
  rw [StreamIntegrity, and_iff_left hsilent, Outgoing.sends, Outgoing.foldl_send]
  dsimp only
  rw [List.nil_append, List.nil_append, Outgoing.flatten_sent]
  clear hsilent
  induction calls with
  | nil => simp
  | cons c calls ih =>
      have hone : ((c.2.taken (net.sendMsg c.1).2).length = (net.sendMsg c.1).2.length) ↔
          (net.socket = true → 0 < c.1.length → c.1.length ≤ maxMessageSize →
            c.2.TakesAll c.1.length) := by
        by_cases hc : (net.sendMsg c.1).1 = true
        · obtain ⟨hsock, hpos, hmax⟩ := ClientNet.sendMsg_fst.mp hc
          rw [net.sendMsg_snd, if_pos hc, WriteResult.length_taken_eq_iff hpos]
          exact ⟨fun h _ _ _ => h, fun h => h hsock hpos hmax⟩
        · rw [net.sendMsg_snd, if_neg hc, WriteResult.taken_nil]
          refine iff_of_true rfl ?_
          intro hsock hpos hmax
          exact absurd (ClientNet.sendMsg_fst.mpr ⟨hsock, hpos, hmax⟩) hc
      have hle := WriteResult.length_taken_le (net.sendMsg c.1).2 c.2
      have hrest := length_flatMap_taken_le net calls
      rw [List.flatMap_cons, List.flatMap_cons, List.forall_mem_cons]
      refine Iff.trans ?_ (and_congr hone ih)
      constructor
      · intro h
        have hlen := congrArg List.length h
        rw [List.length_append, List.length_append] at hlen
        have hfirst : (c.2.taken (net.sendMsg c.1).2).length = (net.sendMsg c.1).2.length := by omega
        exact ⟨hfirst, (List.append_inj h hfirst).2⟩
      · rintro ⟨hfirst, htail⟩
        rw [htail, WriteResult.taken_eq_of_length hfirst]

/-- A message of two bytes of which the socket takes one: `sendMsg` returns true, and one byte of it is
in the stream. -/
theorem not_streamIntegrity_short_write :
    ((ClientNet.create true).sendMsg [1, 2]).1 = true ∧
      (Outgoing.sends (ClientNet.create true) [([1, 2], .accepted 1)]).stream = [1] ∧
      ¬StreamIntegrity (ClientNet.create true) [([1, 2], .accepted 1)] := by
  refine ⟨by decide, by decide, ?_⟩
  rintro ⟨hstream, -⟩
  exact absurd hstream (by decide)

end CocInside.TcpNetwork
