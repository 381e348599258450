import CocInside.Lib.Runs
import Mathlib.Data.List.Basic
import Mathlib.Data.UInt

/-!
# `Network::TcpClientBase`: sessions and their ids

`connect` appends the new socket to the vector `_server` and gives it an id whose low 20 bits are its
index there; the operations find a socket by these bits and compare its id with the one asked for.
`remove` deletes the socket and leaves its pointer in the vector: the code that would clear the slot
is commented out. An operation on that slot compares the id of a deleted socket.

* `TcpClientBase`, `connect`, `onClientEvent`, `setHandler`, `close2`, `pendClose2`, `send2`: the
  class. Sockets live at addresses that `new` chooses among the free ones, so that an address may
  come back.
* `baseMachine`: any order of these calls.
* `Addresses`: what an operation on an id is to do. `FindsLive`: the slot of the id is empty or holds
  the address of a socket that is not deleted.
* `tableSafe_iff`: in every run with fewer than `2 ^ 20` connects all ids are distinct, and the
  operations do what they are to do exactly if each of them meets `FindsLive`.

Source: `CocTest/Classes/Network/TcpClient.h`, `CocTest/Classes/Network/TcpClient.cpp`.
-/

namespace CocInside.Network

open CocInside.Lib

/-! ## The class -/

/-- A `TcpSocket` together with its `ClientData`. Event handlers are numbered.
Source: `Network/TcpSocket.h`, `TcpSocket`; `Network/TcpClient.cpp`, `ClientData`. -/
structure TcpSocket where
  fd : ℤ
  id : UInt32
  handler : ℕ
  /-- `_pendClose`. -/
  pending : Bool
  /-- `::shutdown` has been called on the descriptor. -/
  isShut : Bool
  /-- The output buffer of the `bufferevent`. -/
  output : List UInt8
deriving DecidableEq

/-- Source: `Network/Socket.cpp`, `Socket::shutdown`. -/
def TcpSocket.shutdown (ts : TcpSocket) : TcpSocket :=
  if ts.fd < 0 then ts else { ts with isShut := true }

/-- The members that sessions go through. `mem` are the sockets that are not deleted, by address. The
last three fields record what the code does to its surroundings: the ids that `connect` returned,
the handlers on which `destroy` was called, and the addresses of deleted sockets that were read.
Source: `Network/TcpClient.h`, `TcpClientBase`. -/
structure TcpClientBase where
  server : List ℕ
  clientUniqueId : UInt32
  defHandler : ℕ
  mem : ℕ → Option TcpSocket
  ids : List UInt32
  destroyed : List ℕ
  stale : List ℕ

namespace TcpClientBase

/-- A client right after construction. -/
def start (defHandler : ℕ) : TcpClientBase where
  server := []
  clientUniqueId := 0
  defHandler := defHandler
  mem _ := none
  ids := []
  destroyed := []
  stale := []

/-- A successful `connect`, with the new socket at the address `a`.
Source: `TcpClient.cpp`, `TcpClientBase::connect`. -/
def connect (c : TcpClientBase) (a : ℕ) (fd : ℤ) : TcpClientBase :=
  let uid := c.clientUniqueId + 1
  let sid := uid <<< 20 + UInt32.ofNat c.server.length
  { c with
    server := c.server ++ [a]
    clientUniqueId := uid
    mem := Function.update c.mem a (some ⟨fd, sid, c.defHandler, false, false, []⟩)
    ids := c.ids ++ [sid] }

/-- `BEV_EVENT_EOF | BEV_EVENT_ERROR | BEV_EVENT_TIMEOUT`. -/
def endEvents : UInt16 := 0x10 ||| 0x20 ||| 0x40

/-- An event on the socket at `a`. The end of the connection deletes `ClientData`, which destroys the
handler, and then the socket, in `remove`; the slot in `_server` stays as it is.
Source: `TcpClient.cpp`, `TcpClientBase::_onClientEvent`, `TcpClientBase::remove`. -/
def onClientEvent (c : TcpClientBase) (a : ℕ) (ts : TcpSocket) (wht : UInt16) : TcpClientBase :=
  if wht &&& endEvents > 0 then
    { c with
      mem := Function.update c.mem a none
      destroyed := c.destroyed ++ [ts.handler] }
  else c

/-- `n` bytes of the output buffer of the socket at `a` have been sent.
Source: `TcpClient.cpp`, `_onClientWrite`. -/
def onClientWrite (c : TcpClientBase) (a : ℕ) (ts : TcpSocket) (n : ℕ) : TcpClientBase :=
  let ts := { ts with output := ts.output.drop n }
  let ts := if ts.pending ∧ ts.output = [] then ts.shutdown else ts
  { c with mem := Function.update c.mem a (some ts) }

/-! ### Operations on an id -/

/-- What an operation does to the socket it finds, and the handlers it destroys. -/
abbrev Action := TcpSocket → TcpSocket × List ℕ

/-- The socket at `a` after an action. -/
def act (c : TcpClientBase) (a : ℕ) (ts : TcpSocket) (f : Action) : TcpClientBase :=
  { c with
    mem := Function.update c.mem a (some (f ts).1)
    destroyed := c.destroyed ++ (f ts).2 }

/-- The common frame of the operations: the slot of the low 20 bits, and the comparison of ids. If
the socket in the slot is deleted, its address is noted as read. -/
def withId (c : TcpClientBase) (id : UInt32) (f : Action) : TcpClientBase :=
  let index := (id &&& 0xFFFFF).toNat
  match c.server[index]? with
  | none => c
  | some a =>
      match c.mem a with
      | none => { c with stale := c.stale ++ [a] }
      | some ts => if ts.id = id then c.act a ts f else c

/-- Source: `TcpClient.cpp`, `TcpClientBase::setHandler`. -/
def setHandler (eh : ℕ) : Action := fun ts =>
  if ts.handler ≠ eh then ({ ts with handler := eh }, [ts.handler]) else (ts, [])

/-- Source: `TcpClient.cpp`, `TcpClientBase::close2`. -/
def close2 : Action := fun ts => (ts.shutdown, [])

/-- Source: `TcpClient.cpp`, `TcpClientBase::pendClose2`. -/
def pendClose2 : Action := fun ts =>
  if ts.output.length = 0 then (ts.shutdown, []) else ({ ts with pending := true }, [])

/-- One `bufferevent_write` for each of the one, two or three buffers.
Source: `TcpClient.cpp`, `TcpClientBase::send2`. -/
def send2 (bufs : List (List UInt8)) : Action := fun ts =>
  ({ ts with output := bufs.foldl (· ++ ·) ts.output }, [])

end TcpClientBase

/-! ## Runs -/

/-- An operation addressed to an id. -/
inductive SessionOp where
  | setHandler (eh : ℕ)
  | close2
  | pendClose2
  | send2 (bufs : List (List UInt8))

/-- What the operation does to the socket it finds. -/
def SessionOp.action : SessionOp → TcpClientBase.Action
  | .setHandler eh => TcpClientBase.setHandler eh
  | .close2 => TcpClientBase.close2
  | .pendClose2 => TcpClientBase.pendClose2
  | .send2 bufs => TcpClientBase.send2 bufs

/-- What may happen next. -/
inductive SessionEvent where
  /-- A successful `connect`, with the socket at a free address. -/
  | connect (a : ℕ) (fd : ℤ)
  /-- `libevent` calls `_onClientEvent` for a socket. -/
  | event (a : ℕ) (wht : UInt16)
  /-- `libevent` has sent some of the output of a socket. -/
  | written (a : ℕ) (n : ℕ)
  | op (id : UInt32) (o : SessionOp)

/-- One step. `libevent` calls back only for sockets that are not deleted. -/
def TcpClientBase.step (c : TcpClientBase) : SessionEvent → Option TcpClientBase
  | .connect a fd => if c.mem a = none then some (c.connect a fd) else none
  | .event a wht => (c.mem a).map fun ts => c.onClientEvent a ts wht
  | .written a n => (c.mem a).map fun ts => c.onClientWrite a ts n
  | .op id o => some (c.withId id o.action)

/-- A client from its construction on. -/
def baseMachine (defHandler : ℕ) : Machine TcpClientBase SessionEvent where
  init := .start defHandler
  step := TcpClientBase.step

/-- How often a run connects. -/
def connects (es : List SessionEvent) : ℕ :=
  es.countP fun
    | .connect _ _ => true
    | _ => false

/-! ## What the operations are to do -/

/-- The step from `c` to `c'` on an id is right: on the id of a connected socket it acts on that socket
and on nothing else, and on any other id it has no effect and reads no deleted socket. -/
structure Addresses (c : TcpClientBase) (id : UInt32) (o : SessionOp) (c' : TcpClientBase) :
    Prop where
  connected : ∀ a ts, c.mem a = some ts → ts.id = id → c' = c.act a ts o.action
  other : (∀ a ts, c.mem a = some ts → ts.id ≠ id) → c' = c

/-- Every operation of the step is right. -/
def StepSafe (c : TcpClientBase) : SessionEvent → Prop
  | .op id o => ∀ c', c.step (.op id o) = some c' → Addresses c id o c'
  | _ => True

/-- The ids that `connect` returned are distinct, and every operation along the run is right. -/
def TableSafe (defHandler : ℕ) (es : List SessionEvent) : Prop :=
  (∀ c, (baseMachine defHandler).run es = some c → c.ids.Nodup) ∧
    (baseMachine defHandler).Meets StepSafe es

/-- The slot of the id is outside the vector, or holds the address of a socket that is not deleted. -/
def FindsLive (c : TcpClientBase) : SessionEvent → Prop
  | .op id _ => ∀ a, c.server[(id &&& 0xFFFFF).toNat]? = some a → c.mem a ≠ none
  | _ => True

/-! ## Ids and slots -/

/-- The id of the `i`-th socket. -/
def sessionId (i : ℕ) : UInt32 := (UInt32.ofNat i + 1) <<< 20 + UInt32.ofNat i

/-- Below `2 ^ 20`, the low 20 bits of an id are its index. -/
lemma sessionId_and {i : ℕ} (hi : i < 2 ^ 20) : (sessionId i &&& 0xFFFFF).toNat = i := by
  rw [UInt32.toNat_and, show (0xFFFFF : UInt32).toNat = 2 ^ 20 - 1 from rfl,
    Nat.and_two_pow_sub_one_eq_mod, sessionId, UInt32.toNat_add, UInt32.toNat_shiftLeft,
    UInt32.toNat_add, UInt32.toNat_ofNat', show (1 : UInt32).toNat = 1 from rfl,
    show (20 : UInt32).toNat = 20 from rfl, Nat.shiftLeft_eq,
    show 2 ^ (20 % 32) = 1048576 from rfl]
  omega

/-- What ties ids, slots and sockets together. -/
structure TcpClientBase.Good (c : TcpClientBase) : Prop where
  uid : c.clientUniqueId = UInt32.ofNat c.server.length
  ids : c.ids = (List.range c.server.length).map sessionId
  live : ∀ a ts, c.mem a = some ts → ∃ i, c.server[i]? = some a ∧ ts.id = sessionId i

namespace TcpClientBase

variable {c c' : TcpClientBase}

/-- At the start there is no socket. -/
lemma good_start (defHandler : ℕ) : (start defHandler).Good where
  uid := rfl
  ids := rfl
  live := by simp [start]

/-- The ids are distinct. -/
lemma Good.nodup_ids (h : c.Good) (hlen : c.server.length ≤ 2 ^ 20) : c.ids.Nodup := by
  rw [h.ids]
  refine List.Nodup.map_on ?_ List.nodup_range
  intro i hi j hj heq
  rw [List.mem_range] at hi hj
  rw [← sessionId_and (i := i) (by omega), heq, sessionId_and (by omega)]

/-- A connected socket is found in the slot of its id. -/
lemma Good.slot_of_live (h : c.Good) (hlen : c.server.length ≤ 2 ^ 20) {a : ℕ} {ts : TcpSocket}
    (hts : c.mem a = some ts) : c.server[(ts.id &&& 0xFFFFF).toNat]? = some a := by
  obtain ⟨i, hi, hid⟩ := h.live a ts hts
  obtain ⟨hlt, -⟩ := List.getElem?_eq_some_iff.mp hi
  rw [hid, sessionId_and (by omega)]
  exact hi

/-- Replacing a socket by one with the same id, or by none. -/
lemma Good.update (h : c.Good) {a : ℕ} {ts : TcpSocket} (hts : c.mem a = some ts)
    {r : Option TcpSocket} (hr : ∀ ts', r = some ts' → ts'.id = ts.id)
    (hserver : c'.server = c.server) (huid : c'.clientUniqueId = c.clientUniqueId)
    (hids : c'.ids = c.ids) (hmem : c'.mem = Function.update c.mem a r) : c'.Good := by
  refine ⟨by rw [huid, hserver, h.uid], by rw [hids, hserver, h.ids], ?_⟩
  intro b ts' hb
  rw [hserver]
  rw [hmem] at hb
  by_cases hba : b = a
  · subst hba
    rw [Function.update_self] at hb
    obtain ⟨i, hi, hid⟩ := h.live b ts hts
    exact ⟨i, hi, (hr ts' hb).trans hid⟩
  · rw [Function.update_of_ne hba] at hb
    exact h.live b ts' hb

/-- A connection at a free address keeps the ties. -/
lemma Good.connect (h : c.Good) {a : ℕ} (ha : c.mem a = none) (fd : ℤ) : (c.connect a fd).Good := by
  have hlen : (c.connect a fd).server.length = c.server.length + 1 := by
    simp [TcpClientBase.connect]
  refine ⟨?_, ?_, ?_⟩
  · rw [hlen]
    show c.clientUniqueId + 1 = _
    rw [h.uid]
    exact (UInt32.ofNat_add c.server.length 1).symm
  · rw [hlen, List.range_succ, List.map_append, List.map_singleton, ← h.ids]
    show c.ids ++ [(c.clientUniqueId + 1) <<< 20 + UInt32.ofNat c.server.length] = _
    rw [h.uid]
    rfl
  · intro b ts hb
    by_cases hba : b = a
    · subst hba
      simp only [TcpClientBase.connect, Function.update_self, Option.some.injEq] at hb
      refine ⟨c.server.length, ?_, ?_⟩
      · show (c.server ++ [b])[c.server.length]? = some b
        simp
      · rw [← hb, h.uid]
        rfl
    · simp only [TcpClientBase.connect, Function.update_of_ne hba] at hb
      obtain ⟨i, hi, hid⟩ := h.live b ts hb
      obtain ⟨hlt, -⟩ := List.getElem?_eq_some_iff.mp hi
      refine ⟨i, ?_, hid⟩
      show (c.server ++ [a])[i]? = some b
      rw [List.getElem?_append_left hlt, hi]

end TcpClientBase

/-- A shutdown keeps the id. -/
lemma TcpSocket.id_shutdown (ts : TcpSocket) : ts.shutdown.id = ts.id := by
  unfold TcpSocket.shutdown
  split <;> rfl

/-- No operation changes the id of a socket. -/
lemma SessionOp.id_action (o : SessionOp) (ts : TcpSocket) : (o.action ts).1.id = ts.id := by
  cases o with
  | setHandler eh =>
      simp only [SessionOp.action, TcpClientBase.setHandler]
      split <;> rfl
  | close2 => exact ts.id_shutdown
  | pendClose2 =>
      simp only [SessionOp.action, TcpClientBase.pendClose2]
      split
      · exact ts.id_shutdown
      · rfl
  | send2 bufs => rfl

/-- An operation does nothing, or acts on the socket it finds, or reads a deleted one. -/
lemma TcpClientBase.withId_cases (c : TcpClientBase) (id : UInt32) (f : TcpClientBase.Action) :
    c.withId id f = c ∨
    (∃ a ts, c.mem a = some ts ∧ c.withId id f = c.act a ts f) ∨
    ∃ a, c.withId id f = { c with stale := c.stale ++ [a] } := by
  unfold TcpClientBase.withId
  dsimp only
  split
  · exact .inl rfl
  · next a _ =>
      split
      · exact .inr (.inr ⟨a, rfl⟩)
      · next ts hts =>
          split
          · exact .inr (.inl ⟨a, ts, hts, rfl⟩)
          · exact .inl rfl

/-- Every step keeps ids, slots and sockets together. -/
lemma TcpClientBase.Good.step {c c' : TcpClientBase} {e : SessionEvent} (h : c.Good)
    (hst : c.step e = some c') : c'.Good := by
  cases e with
  | connect a fd =>
      simp only [TcpClientBase.step] at hst
      split at hst
      · next ha =>
          cases hst
          exact h.connect ha fd
      · cases hst
  | event a wht =>
      obtain ⟨ts, hts, rfl⟩ := Option.map_eq_some_iff.mp hst
      unfold TcpClientBase.onClientEvent
      split
      · exact h.update hts (r := none) nofun rfl rfl rfl rfl
      · exact h
  | written a n =>
      obtain ⟨ts, hts, rfl⟩ := Option.map_eq_some_iff.mp hst
      refine h.update hts ?_ rfl rfl rfl rfl
      intro ts' hts'
      cases hts'
      dsimp only
      split
      · exact TcpSocket.id_shutdown _
      · rfl
  | op id o =>
      cases hst
      rcases c.withId_cases id o.action with heq | ⟨a, ts, hts, heq⟩ | ⟨a, heq⟩
      · rw [heq]
        exact h
      · rw [heq]
        refine h.update hts ?_ rfl rfl rfl rfl
        intro ts' hts'
        cases hts'
        exact o.id_action ts
      · rw [heq]
        exact ⟨h.uid, h.ids, h.live⟩

/-- A step adds as many slots as it makes connections. -/
lemma TcpClientBase.length_server_step {c c' : TcpClientBase} {e : SessionEvent}
    (hst : c.step e = some c') : c'.server.length = c.server.length + connects [e] := by
  cases e with
  | connect a fd =>
      simp only [TcpClientBase.step] at hst
      split at hst
      · cases hst
        exact List.length_append
      · cases hst
  | event a wht =>
      obtain ⟨ts, hts, rfl⟩ := Option.map_eq_some_iff.mp hst
      unfold TcpClientBase.onClientEvent
      split <;> rfl
  | written a n =>
      obtain ⟨ts, hts, rfl⟩ := Option.map_eq_some_iff.mp hst
      rfl
  | op id o =>
      cases hst
      rcases c.withId_cases id o.action with heq | ⟨a, ts, hts, heq⟩ | ⟨a, heq⟩
      · rw [heq]
        rfl
      · rw [heq]
        rfl
      · rw [heq]
        rfl

/-- The connections of a run add up. -/
lemma connects_cons (e : SessionEvent) (es : List SessionEvent) :
    connects (e :: es) = connects [e] + connects es := by
  rw [← List.singleton_append, connects, List.countP_append]
  rfl

/-! ## Right operations are the ones that find a live socket -/

/-- An operation whose slot holds no deleted socket is right. -/
lemma addresses_of_findsLive {c : TcpClientBase} {id : UInt32} {o : SessionOp} (h : c.Good)
    (hlen : c.server.length ≤ 2 ^ 20) (hlive : FindsLive c (.op id o)) :
    Addresses c id o (c.withId id o.action) := by
  have hslot : ∀ a ts, c.mem a = some ts → ts.id = id →
      c.server[(id &&& 0xFFFFF).toNat]? = some a := by
    intro a ts hts hid
    rw [← hid]
    exact h.slot_of_live hlen hts
  unfold TcpClientBase.withId
  dsimp only
  cases hs : c.server[(id &&& 0xFFFFF).toNat]? with
  | none =>
      refine ⟨?_, fun _ => rfl⟩
      intro a ts hts hid
      rw [hslot a ts hts hid] at hs
      cases hs
  | some b =>
      dsimp only
      cases hb : c.mem b with
      | none => exact absurd hb (hlive b hs)
      | some tb =>
          dsimp only
          have huniq : ∀ a ts, c.mem a = some ts → ts.id = id → a = b ∧ ts = tb := by
            intro a ts hts hid
            have hab := hslot a ts hts hid
            rw [hs] at hab
            cases hab
            rw [hb] at hts
            cases hts
            exact ⟨rfl, rfl⟩
          split
          · next hid =>
              refine ⟨?_, fun hno => absurd hid (hno b tb hb)⟩
              intro a ts hts hid'
              obtain ⟨rfl, rfl⟩ := huniq a ts hts hid'
              rfl
          · next hid =>
              refine ⟨?_, fun _ => rfl⟩
              intro a ts hts hid'
              obtain ⟨rfl, rfl⟩ := huniq a ts hts hid'
              exact absurd hid' hid

/-- An operation on a slot that holds a deleted socket is not. -/
lemma findsLive_of_addresses {c : TcpClientBase} {id : UInt32} {o : SessionOp} (h : c.Good)
    (hlen : c.server.length ≤ 2 ^ 20) (hright : Addresses c id o (c.withId id o.action)) :
    FindsLive c (.op id o) := by
  intro a ha hdead
  have hread : c.withId id o.action = { c with stale := c.stale ++ [a] } := by
    simp only [TcpClientBase.withId, ha, hdead]
  have hno : ∀ b ts, c.mem b = some ts → ts.id ≠ id := by
    rintro b ts hts rfl
    have hb := h.slot_of_live hlen hts
    rw [ha] at hb
    cases hb
    rw [hdead] at hts
    cases hts
  have heq := hright.other hno
  rw [hread] at heq
  have hstale := congrArg TcpClientBase.stale heq
  simp at hstale

/-- Step by step, right operations are those that find a live socket. -/
lemma meetsFrom_stepSafe_iff {defHandler : ℕ} {es : List SessionEvent} {c : TcpClientBase}
    (h : c.Good) (hlen : c.server.length + connects es ≤ 2 ^ 20) :
    (baseMachine defHandler).MeetsFrom StepSafe c es ↔
      (baseMachine defHandler).MeetsFrom FindsLive c es := by
  induction es generalizing c with
  | nil => exact Iff.rfl
  | cons e es ih =>
      rw [connects_cons] at hlen
      refine and_congr ?_ ?_
      · cases e with
        | op id o =>
            constructor
            · intro hsafe
              exact findsLive_of_addresses h (by omega) (hsafe _ rfl)
            · intro hlive c' hc'
              cases hc'
              exact addresses_of_findsLive h (by omega) hlive
        | connect a fd => exact Iff.rfl
        | event a wht => exact Iff.rfl
        | written a n => exact Iff.rfl
      · refine forall_congr' fun c' => forall_congr' fun hst => ?_
        have hstep := TcpClientBase.length_server_step hst
        exact ih (h.step hst) (by omega)

/-- The vector has one slot for each connect. -/
lemma length_server_run {defHandler : ℕ} {es : List SessionEvent} {c d : TcpClientBase}
    (hrun : (baseMachine defHandler).runFrom c es = some d) :
    d.server.length = c.server.length + connects es := by
  induction es generalizing c with
  | nil =>
      cases hrun
      rfl
  | cons e es ih =>
      obtain ⟨u, hu, hrest⟩ := (baseMachine defHandler).runFrom_cons_eq_some.mp hrun
      have hstep := TcpClientBase.length_server_step hu
      have := ih hrest
      rw [connects_cons]
      omega

/-- **Safety of the session table.** In every run with fewer than `2 ^ 20` connects, the table is safe
exactly if no operation is made on an id whose slot holds the pointer of a deleted socket. -/
theorem tableSafe_iff (defHandler : ℕ) (es : List SessionEvent) (hconnects : connects es < 2 ^ 20) :
    TableSafe defHandler es ↔ (baseMachine defHandler).Meets FindsLive es := by
  have hgood := TcpClientBase.good_start defHandler
  have hids : ∀ c, (baseMachine defHandler).run es = some c → c.ids.Nodup := by
    intro c hrun
    have hc : c.Good :=
      (baseMachine defHandler).run_invariant hgood (fun _ _ _ hs hst => hs.step hst) hrun
    have hlen := length_server_run hrun
    refine hc.nodup_ids ?_
    rw [hlen]
    exact (Nat.zero_add (connects es)).le.trans hconnects.le
  rw [TableSafe, and_iff_right hids]
  exact meetsFrom_stepSafe_iff hgood ((Nat.zero_add (connects es)).le.trans hconnects.le)

/-- Two connects; the first socket is written to and goes, the second is closed by its id. -/
theorem tableSafe_iff_two_sockets :
    TableSafe 0 [.connect 8 5, .connect 9 6, .op 1048576 (.send2 [[1], [2]]), .event 8 0x10,
      .op 2097153 .close2] := by
  refine (tableSafe_iff 0 _ (by decide)).mpr ?_
  refine .cons rfl trivial (.cons rfl trivial (.cons rfl ?_ (.cons rfl trivial (.cons rfl ?_ trivial))))
  · intro a ha
    cases ha
    exact nofun
  · intro a ha
    cases ha
    exact nofun

/-- A socket is connected and its connection ends; `close2` on its id reads the deleted socket. -/
theorem not_tableSafe_removed :
    ∃ c, (baseMachine 0).run [.connect 8 5, .event 8 0x10, .op 1048576 .close2] = some c ∧
      c.ids = [1048576] ∧ c.stale = [8] ∧
      ¬TableSafe 0 [.connect 8 5, .event 8 0x10, .op 1048576 .close2] := by
  refine ⟨_, rfl, by decide, by decide, ?_⟩
  rintro ⟨-, -, hmeets⟩
  have hop := ((hmeets _ rfl).2 _ rfl).1 _ rfl
  have hnone : ∀ a ts, (((TcpClientBase.start 0).connect 8 5).onClientEvent 8
      ⟨5, 1048576, 0, false, false, []⟩ 0x10).mem a = some ts → ts.id ≠ 1048576 := by
    intro a ts hts
    rw [TcpClientBase.onClientEvent, if_pos (by decide)] at hts
    simp [TcpClientBase.connect, TcpClientBase.start] at hts
  exact absurd (congrArg TcpClientBase.stale (hop.other hnone)) (by decide)

end CocInside.Network
