import CocInside.Packet.Processor

/-!
# Handler registration and dispatch

`Processor::addHandler` grows a handler table and fills the new entry in one step, and only when
the table is shorter than the opcode: a call for an opcode that is in the table, or right behind
it, is dropped. `Processor::parseInit` then indexes the table with the opcode of a packet.

* `register`, `tableOf`: one call on one table, and the table of a sequence of calls.
* `entry_tableOf`: an entry is the handler of the first call for its opcode, if that call found the
  table shorter than the opcode.
* `registrationIsMap_iff`: when a sequence of calls behaves as a map.
* `dispatch_iff`: when the opcode of a packet stays inside the table.

Source: `CocTest/Classes/Packet/Processor.cpp`, `Processor::addHandler`, `Processor::parseInit`.
-/

namespace CocInside.Packet

open CocInside.Lib CocInside.System CocInside.TcpNetwork

/-- The arguments of a call of `addHandler`. -/
structure AddCall (H : Type) where
  op : UInt16
  type : UInt8
  handler : H

section handlers

variable {H : Type}

/-- The processor after some calls, the tables being empty at first. -/
def Processor.registered (queue : MsgQueue (HandlerMsgInit H)) (calls : List (AddCall H)) :
    Processor H :=
  calls.foldl (fun p c => p.addHandler c.op c.type c.handler) ⟨queue, [], []⟩

/-- The handler of the first call for an opcode. -/
def firstHandler (calls : List (AddCall H)) (op : UInt16) : Option H :=
  (calls.find? fun c => c.op = op).map AddCall.handler

/-- The handler of the last call for an opcode. -/
def lastHandler (calls : List (AddCall H)) (op : UInt16) : Option H :=
  (calls.reverse.find? fun c => c.op = op).map AddCall.handler

/-- The table is the map that the calls define: the entry of a registered opcode exists and is the
handler of the last call for it, and an opcode never registered is beyond the table or `NULL`. -/
def IsMapOf (table : List (Option H)) (calls : List (AddCall H)) : Prop :=
  ∀ op : UInt16,
    (∀ h, lastHandler calls op = some h → table[op.toNat]? = some (some h)) ∧
    (lastHandler calls op = none →
      table[op.toNat]? = none ∨ table[op.toNat]? = some none)

/-- The calls that have the given type. -/
def callsOf (type : UInt8) (calls : List (AddCall H)) : List (AddCall H) :=
  calls.filter fun c => c.type = type

/-- Both tables are the maps that their calls define. -/
def RegistrationIsMap (queue : MsgQueue (HandlerMsgInit H)) (calls : List (AddCall H)) : Prop :=
  IsMapOf (Processor.registered queue calls).initHandlers (callsOf 1 calls) ∧
    IsMapOf (Processor.registered queue calls).playerHandlers (callsOf 2 calls)

/-- No call is for opcode zero, every call for a new opcode goes at least two beyond all opcodes
before it, and repeated calls for one opcode end with the handler they began with. -/
structure Ascending (calls : List (AddCall H)) : Prop where
  first : ∀ pre c post, calls = pre ++ c :: post → (∀ b ∈ pre, b.op ≠ c.op) →
    0 < c.op.toNat ∧ ∀ b ∈ pre, b.op.toNat + 1 < c.op.toNat
  last : ∀ op, lastHandler calls op = firstHandler calls op

/-! ## One table -/

/-- What `addHandler` does to the table of its type. -/
def register (table : List (Option H)) (c : AddCall H) : List (Option H) :=
  if table.length < c.op.toNat then
    (resizeTable table (c.op.toNat + 1)).set c.op.toNat c.handler
  else table

/-- The table after some calls. -/
def tableOf (calls : List (AddCall H)) : List (Option H) := calls.foldl register []

/-- The handler in an entry, none for `NULL` and beyond the table. -/
def entry (table : List (Option H)) (i : ℕ) : Option H := table[i]?.join

/-- The size of a table after calls for the given opcodes. -/
def tableSize (ops : List UInt16) : ℕ :=
  ops.foldl (fun n op => if n < op.toNat then op.toNat + 1 else n) 0

/-- Growing a table gives it the length asked for. -/
lemma length_resizeTable {table : List (Option H)} {n : ℕ} (h : table.length ≤ n) :
    (resizeTable table n).length = n := by
  rw [resizeTable, List.length_append, List.length_take, List.length_replicate]
  omega

/-- A registration grows the table only when it is shorter than the opcode. -/
lemma length_register (table : List (Option H)) (c : AddCall H) :
    (register table c).length
      = if table.length < c.op.toNat then c.op.toNat + 1 else table.length := by
  unfold register
  split_ifs with h
  · rw [List.length_set, length_resizeTable (by omega)]
  · rfl

/-- Growing a table adds no handler. -/
lemma entry_resizeTable {table : List (Option H)} {n : ℕ} (h : table.length ≤ n) (i : ℕ) :
    entry (resizeTable table n) i = entry table i := by
  rw [entry, entry, resizeTable, List.take_of_length_le h]
  by_cases hi : i < table.length
  · rw [List.getElem?_append_left hi]
  · rw [List.getElem?_append_right (by omega), List.getElem?_replicate,
      List.getElem?_eq_none (by omega : table.length ≤ i)]
    split_ifs <;> rfl

/-- A registration changes one entry, and only when the table is shorter than the opcode. -/
lemma entry_register (table : List (Option H)) (c : AddCall H) (i : ℕ) :
    entry (register table c) i
      = if table.length < c.op.toNat ∧ i = c.op.toNat then some c.handler else entry table i := by
  unfold register
  by_cases hgrow : table.length < c.op.toNat
  · rw [if_pos hgrow]
    by_cases hi : i = c.op.toNat
    · subst hi
      rw [if_pos ⟨hgrow, rfl⟩, entry,
        List.getElem?_set_self (by rw [length_resizeTable (by omega)]; omega)]
      rfl
    · rw [if_neg (by omega), entry, List.getElem?_set_ne (by omega), ← entry,
        entry_resizeTable (by omega)]
  · rw [if_neg hgrow, if_neg (by omega)]

/-! ## A sequence of calls -/

/-- The length of the table after a list of registrations, from their opcodes alone. -/
lemma length_foldl_register (table : List (Option H)) (calls : List (AddCall H)) :
    (calls.foldl register table).length
      = (calls.map AddCall.op).foldl (fun n op => if n < op.toNat then op.toNat + 1 else n)
          table.length := by
  induction calls generalizing table with
  | nil => rfl
  | cons c calls ih => rw [List.foldl_cons, ih, length_register, List.map_cons, List.foldl_cons]

/-- The table of a list of registrations is as long as its opcodes say. -/
lemma length_tableOf (calls : List (AddCall H)) :
    (tableOf calls).length = tableSize (calls.map AddCall.op) :=
  length_foldl_register [] calls

/-- No registration shortens the table. -/
lemma length_le_foldl_register (table : List (Option H)) (calls : List (AddCall H)) :
    table.length ≤ (calls.foldl register table).length := by
  induction calls generalizing table with
  | nil => exact le_rfl
  | cons c calls ih =>
      refine le_trans ?_ (ih (register table c))
      rw [length_register]
      split_ifs <;> omega

/-- The size comes from one of the calls. -/
lemma length_foldl_register_cases (table : List (Option H)) (calls : List (AddCall H)) :
    (calls.foldl register table).length = table.length ∨
      ∃ c ∈ calls, (calls.foldl register table).length = c.op.toNat + 1 := by
  induction calls generalizing table with
  | nil => exact .inl rfl
  | cons c calls ih =>
      rcases ih (register table c) with h | ⟨b, hb, h⟩
      · rw [List.foldl_cons, h, length_register]
        split_ifs with hgrow
        · exact .inr ⟨c, List.mem_cons_self, rfl⟩
        · exact .inl rfl
      · exact .inr ⟨b, List.mem_cons_of_mem c hb, h⟩

/-- Calls for other opcodes leave an entry as it is. -/
lemma entry_foldl_register_of_ne {calls : List (AddCall H)} {op : UInt16}
    (h : ∀ c ∈ calls, c.op ≠ op) (table : List (Option H)) :
    entry (calls.foldl register table) op.toNat = entry table op.toNat := by
  induction calls generalizing table with
  | nil => rfl
  | cons c calls ih =>
      have hne : op.toNat ≠ c.op.toNat := by
        intro heq
        exact h c List.mem_cons_self (UInt16.toNat_inj.mp heq).symm
      rw [List.foldl_cons, ih (fun b hb => h b (List.mem_cons_of_mem c hb)), entry_register,
        if_neg (fun hc => hne hc.2)]

/-- Once the table reaches an opcode, no call changes its entry. -/
lemma entry_foldl_register_of_le (calls : List (AddCall H)) {i : ℕ} {table : List (Option H)}
    (h : i ≤ table.length) : entry (calls.foldl register table) i = entry table i := by
  induction calls generalizing table with
  | nil => rfl
  | cons c calls ih =>
      have hle : i ≤ (register table c).length :=
        le_trans h (length_le_foldl_register table [c])
      rw [List.foldl_cons, ih hle, entry_register, if_neg (by omega)]

/-- **What the table holds.** The entry of an opcode is the handler of the first call for it if
that call found the table shorter than the opcode, and empty otherwise. -/
lemma entry_tableOf {pre post : List (AddCall H)} {c : AddCall H} (h : ∀ b ∈ pre, b.op ≠ c.op) :
    entry (tableOf (pre ++ c :: post)) c.op.toNat
      = if (tableOf pre).length < c.op.toNat then some c.handler else none := by
  have hpre : entry (tableOf pre) c.op.toNat = none := entry_foldl_register_of_ne h []
  have hsplit : tableOf (pre ++ c :: post) = post.foldl register (register (tableOf pre) c) := by
    rw [tableOf, List.foldl_append, List.foldl_cons]
    rfl
  have hreach : c.op.toNat ≤ (register (tableOf pre) c).length := by
    rw [length_register]
    split_ifs <;> omega
  rw [hsplit, entry_foldl_register_of_le post hreach, entry_register, hpre]
  by_cases hgrow : (tableOf pre).length < c.op.toNat
  · rw [if_pos ⟨hgrow, rfl⟩, if_pos hgrow]
  · rw [if_neg (fun hc => hgrow hc.1), if_neg hgrow]

/-- An opcode that was never registered has no handler. -/
lemma entry_tableOf_of_ne {calls : List (AddCall H)} {op : UInt16} (h : ∀ c ∈ calls, c.op ≠ op) :
    entry (tableOf calls) op.toNat = none := entry_foldl_register_of_ne h []

/-! ## First and last calls -/

/-- No call of an opcode, no first handler. -/
lemma firstHandler_eq_none {calls : List (AddCall H)} {op : UInt16}
    (h : ∀ c ∈ calls, c.op ≠ op) : firstHandler calls op = none := by
  rw [firstHandler, List.find?_eq_none.mpr (by simpa using h), Option.map_none]

/-- There is no last handler exactly when no call names the opcode. -/
lemma lastHandler_eq_none_iff {calls : List (AddCall H)} {op : UInt16} :
    lastHandler calls op = none ↔ ∀ c ∈ calls, c.op ≠ op := by
  rw [lastHandler, Option.map_eq_none_iff, List.find?_eq_none]
  simp

/-- The first handler is that of the first call that names the opcode. -/
lemma firstHandler_append {pre post : List (AddCall H)} {c : AddCall H}
    (h : ∀ b ∈ pre, b.op ≠ c.op) : firstHandler (pre ++ c :: post) c.op = some c.handler := by
  have hfind : (pre ++ c :: post).find? (fun b => b.op = c.op) = some c :=
    List.find?_eq_some_iff_append.mpr
      ⟨by simp, pre, post, rfl, fun b hb => by simp [h b hb]⟩
  rw [firstHandler, hfind, Option.map_some]

/-- An opcode that is registered has a first call. -/
lemma exists_first_call {calls : List (AddCall H)} {c : AddCall H} (hc : c ∈ calls) :
    ∃ pre b post, calls = pre ++ b :: post ∧ b.op = c.op ∧ ∀ a ∈ pre, a.op ≠ c.op := by
  have hsome : (calls.find? fun b => b.op = c.op).isSome := by
    rw [List.find?_isSome]
    exact ⟨c, hc, by simp⟩
  obtain ⟨b, hb⟩ := Option.isSome_iff_exists.mp hsome
  obtain ⟨hop, pre, post, hsplit, hpre⟩ := List.find?_eq_some_iff_append.mp hb
  exact ⟨pre, b, post, hsplit, by simpa using hop, fun a ha => by simpa using hpre a ha⟩

/-- A table is the map of the calls exactly when it holds the last handler of every opcode. -/
lemma isMapOf_iff {table : List (Option H)} {calls : List (AddCall H)} :
    IsMapOf table calls ↔ ∀ op : UInt16, entry table op.toNat = lastHandler calls op := by
  refine forall_congr' ?_
  intro op
  rw [entry]
  rcases table[op.toNat]? with - | (- | g)
  · cases lastHandler calls op <;> simp
  · cases lastHandler calls op <;> simp
  · cases lastHandler calls op <;> simp

/-! ## When registration is a map -/

/-- With ascending calls the first call for an opcode finds the table short of it. -/
lemma Ascending.length_lt {pre post : List (AddCall H)} {c : AddCall H}
    (h : Ascending (pre ++ c :: post)) (hpre : ∀ b ∈ pre, b.op ≠ c.op) :
    (tableOf pre).length < c.op.toNat := by
  obtain ⟨hpos, hgap⟩ := h.first pre c post rfl hpre
  rcases length_foldl_register_cases [] pre with h0 | ⟨b, hb, hlen⟩
  · rw [tableOf, h0]
    exact hpos
  · rw [tableOf, hlen]
    exact hgap b hb

/-- Registrations in ascending order of opcodes all take effect. -/
lemma isMapOf_tableOf_of_ascending {calls : List (AddCall H)} (h : Ascending calls) :
    IsMapOf (tableOf calls) calls := by
  refine isMapOf_iff.mpr ?_
  intro op
  rw [h.last op]
  by_cases hop : ∃ c ∈ calls, c.op = op
  · obtain ⟨c, hc, rfl⟩ := hop
    obtain ⟨pre, b, post, rfl, hb, hpre⟩ := exists_first_call hc
    rw [← hb] at hpre ⊢
    rw [entry_tableOf hpre, if_pos (h.length_lt hpre), firstHandler_append hpre]
  · have hne : ∀ c ∈ calls, c.op ≠ op := fun c hc heq => hop ⟨c, hc, heq⟩
    rw [entry_tableOf_of_ne hne, firstHandler_eq_none hne]

/-- If the table is the map, the first call for an opcode found the table short of it and had the
handler of the last. -/
lemma IsMapOf.first_call {pre post : List (AddCall H)} {c : AddCall H}
    (h : IsMapOf (tableOf (pre ++ c :: post)) (pre ++ c :: post)) (hpre : ∀ b ∈ pre, b.op ≠ c.op) :
    (tableOf pre).length < c.op.toNat ∧ lastHandler (pre ++ c :: post) c.op = some c.handler := by
  have hentry := isMapOf_iff.mp h c.op
  rw [entry_tableOf hpre] at hentry
  by_cases hgrow : (tableOf pre).length < c.op.toNat
  · rw [if_pos hgrow] at hentry
    exact ⟨hgrow, hentry.symm⟩
  · rw [if_neg hgrow] at hentry
    exact absurd rfl (lastHandler_eq_none_iff.mp hentry.symm c (by simp))

/-- A table that is the map of its calls was filled in ascending order. -/
lemma IsMapOf.ascending {calls : List (AddCall H)} (h : IsMapOf (tableOf calls) calls) :
    Ascending calls := by
  constructor
  · rintro pre c post rfl hpre
    have hgrow := (h.first_call hpre).1
    refine ⟨by omega, ?_⟩
    intro b hb
    -- The first call for the opcode of `b` has left the table one longer than that opcode.
    obtain ⟨pre', b', post', rfl, hop, hpre'⟩ := exists_first_call hb
    rw [List.append_assoc, List.cons_append] at h
    rw [← hop] at hpre' ⊢
    have hgrow' := (h.first_call hpre').1
    have hlen : b'.op.toNat + 1 ≤ (tableOf (pre' ++ b' :: post')).length := by
      have hmono := length_le_foldl_register (register (tableOf pre') b') post'
      rw [length_register, if_pos hgrow'] at hmono
      rwa [tableOf, List.foldl_append, List.foldl_cons]
    omega
  · intro op
    by_cases hop : ∃ c ∈ calls, c.op = op
    · obtain ⟨c, hc, rfl⟩ := hop
      obtain ⟨pre, b, post, rfl, hb, hpre⟩ := exists_first_call hc
      rw [← hb] at hpre ⊢
      rw [(h.first_call hpre).2, firstHandler_append hpre]
    · have hne : ∀ c ∈ calls, c.op ≠ op := fun c hc heq => hop ⟨c, hc, heq⟩
      rw [lastHandler_eq_none_iff.mpr hne, firstHandler_eq_none hne]

/-- The table is the map of the calls exactly when they come in ascending order. -/
lemma isMapOf_tableOf_iff (calls : List (AddCall H)) :
    IsMapOf (tableOf calls) calls ↔ Ascending calls :=
  ⟨IsMapOf.ascending, isMapOf_tableOf_of_ascending⟩

/-! ## The two tables of a processor -/

/-- The opcodes of the calls for initial handlers, the ones with bit `0x1` in their type. -/
def initOps (calls : List (AddCall H)) : List UInt16 :=
  (calls.filter fun c => c.type &&& 0x1 ≠ 0).map AddCall.op

/-- A call with the first bit registers in the table of new connections only. -/
lemma addHandler_init {p : Processor H} {c : AddCall H} (h : c.type &&& 0x1 ≠ 0) :
    (p.addHandler c.op c.type c.handler).initHandlers = register p.initHandlers c ∧
      (p.addHandler c.op c.type c.handler).playerHandlers = p.playerHandlers := by
  rw [Processor.addHandler, if_pos h, register]
  split_ifs <;> exact ⟨rfl, rfl⟩

/-- A call with the second bit alone registers in the table of players only. -/
lemma addHandler_player {p : Processor H} {c : AddCall H} (h0 : ¬ c.type &&& 0x1 ≠ 0)
    (h : c.type &&& 0x2 ≠ 0) :
    (p.addHandler c.op c.type c.handler).initHandlers = p.initHandlers ∧
      (p.addHandler c.op c.type c.handler).playerHandlers = register p.playerHandlers c := by
  rw [Processor.addHandler, if_neg h0, if_pos h, register]
  split_ifs <;> exact ⟨rfl, rfl⟩

/-- A call with neither bit does nothing. -/
lemma addHandler_neither {p : Processor H} {c : AddCall H} (h0 : ¬ c.type &&& 0x1 ≠ 0)
    (h : ¬ c.type &&& 0x2 ≠ 0) : p.addHandler c.op c.type c.handler = p := by
  rw [Processor.addHandler, if_neg h0, if_neg h]

/-- The table of new connections depends on the calls with the first bit only. -/
lemma initHandlers_foldl (p : Processor H) (calls : List (AddCall H)) :
    (calls.foldl (fun p c => p.addHandler c.op c.type c.handler) p).initHandlers
      = (calls.filter fun c => c.type &&& 0x1 ≠ 0).foldl register p.initHandlers := by
  induction calls generalizing p with
  | nil => rfl
  | cons c calls ih =>
      rw [List.foldl_cons, ih, List.filter_cons]
      by_cases h0 : c.type &&& 0x1 ≠ 0
      · rw [(addHandler_init h0).1, if_pos (by simpa using h0), List.foldl_cons]
      · rw [if_neg (by simpa using h0)]
        by_cases h : c.type &&& 0x2 ≠ 0
        · rw [(addHandler_player h0 h).1]
        · rw [addHandler_neither h0 h]

/-- The table of players depends on the calls with the second bit alone. -/
lemma playerHandlers_foldl (p : Processor H) (calls : List (AddCall H)) :
    (calls.foldl (fun p c => p.addHandler c.op c.type c.handler) p).playerHandlers
      = (calls.filter fun c => c.type &&& 0x1 = 0 ∧ c.type &&& 0x2 ≠ 0).foldl register
          p.playerHandlers := by
  induction calls generalizing p with
  | nil => rfl
  | cons c calls ih =>
      rw [List.foldl_cons, ih, List.filter_cons]
      by_cases h0 : c.type &&& 0x1 ≠ 0
      · rw [(addHandler_init h0).2, if_neg (by simp [h0])]
      · by_cases h : c.type &&& 0x2 ≠ 0
        · rw [(addHandler_player h0 h).2, if_pos (by simpa using ⟨not_not.mp h0, h⟩),
            List.foldl_cons]
        · rw [addHandler_neither h0 h, if_neg (by simp [not_not.mp h])]

/-- The table of new connections of a fresh processor. -/
lemma initHandlers_registered (queue : MsgQueue (HandlerMsgInit H)) (calls : List (AddCall H)) :
    (Processor.registered queue calls).initHandlers
      = tableOf (calls.filter fun c => c.type &&& 0x1 ≠ 0) := initHandlers_foldl _ calls

/-- Its length is decided by the opcodes registered for it. -/
lemma length_initHandlers (queue : MsgQueue (HandlerMsgInit H)) (calls : List (AddCall H)) :
    (Processor.registered queue calls).initHandlers.length = tableSize (initOps calls) := by
  rw [initHandlers_registered, length_tableOf, initOps]

/-- With types 1 and 2 only, each table has the calls of its type. -/
lemma tables_registered (queue : MsgQueue (HandlerMsgInit H)) {calls : List (AddCall H)}
    (htype : ∀ c ∈ calls, c.type = 1 ∨ c.type = 2) :
    (Processor.registered queue calls).initHandlers = tableOf (callsOf 1 calls) ∧
      (Processor.registered queue calls).playerHandlers = tableOf (callsOf 2 calls) := by
  constructor
  · rw [initHandlers_registered, callsOf]
    refine congrArg tableOf (List.filter_congr ?_)
    intro c hc
    rcases htype c hc with h | h <;> rw [h] <;> rfl
  · rw [Processor.registered, playerHandlers_foldl, callsOf]
    refine congrArg tableOf (List.filter_congr ?_)
    intro c hc
    rcases htype c hc with h | h <;> rw [h] <;> rfl

/-- **Registration.** For every sequence of calls with types 1 and 2, both tables are the maps that
the calls define exactly if the calls of each type are ascending: opcode zero is not registered,
every new opcode is at least two beyond the ones before it, and calls for an opcode that is there
already do not change its handler in the end. -/
theorem registrationIsMap_iff (queue : MsgQueue (HandlerMsgInit H)) (calls : List (AddCall H))
    (htype : ∀ c ∈ calls, c.type = 1 ∨ c.type = 2) :
    RegistrationIsMap queue calls ↔ Ascending (callsOf 1 calls) ∧ Ascending (callsOf 2 calls) := by
  obtain ⟨hinit, hplayer⟩ := tables_registered queue htype
  rw [RegistrationIsMap, hinit, hplayer, isMapOf_tableOf_iff, isMapOf_tableOf_iff]

/-- Initial handlers for opcodes 1 and 3, in this order. -/
theorem registrationIsMap_one_three :
    RegistrationIsMap .empty [⟨1, 1, true⟩, ⟨3, 1, false⟩] := by
  refine (registrationIsMap_iff .empty _ (by simp)).mpr ⟨⟨?_, ?_⟩, ⟨?_, ?_⟩⟩
  · intro pre c post hsplit _
    rcases pre with - | ⟨b, - | ⟨b', pre⟩⟩
    · cases hsplit
      exact ⟨by decide, by simp⟩
    · cases hsplit
      exact ⟨by decide, by simp⟩
    · simp [callsOf] at hsplit
  · intro op
    by_cases h1 : op = 1
    · subst h1
      rfl
    · by_cases h3 : op = 3
      · subst h3
        rfl
      · simp [lastHandler, firstHandler, callsOf, Ne.symm h1, Ne.symm h3]
  · intro pre c post hsplit _
    simp [callsOf] at hsplit
  · intro op
    rfl

/-- Of two neighbouring opcodes the second is dropped: its entry does not exist. -/
theorem not_registrationIsMap_one_two :
    lastHandler (callsOf 1 [⟨1, 1, true⟩, ⟨2, 1, false⟩]) 2 = some false ∧
      (Processor.registered .empty [⟨1, 1, true⟩, ⟨2, 1, false⟩]).initHandlers
        = [none, some true] ∧
      ¬ RegistrationIsMap .empty [⟨1, 1, true⟩, ⟨2, 1, false⟩] := by
  refine ⟨rfl, rfl, ?_⟩
  intro h
  have hentry := (h.1 2).1 false rfl
  exact absurd hentry (by decide)

/-! ## Dispatch -/

/-- No table outgrows the opcodes: they are of 16 bits. -/
lemma tableSize_le (ops : List UInt16) : tableSize ops ≤ 65536 := by
  have hstep : ∀ n, n ≤ 65536 →
      ops.foldl (fun n op => if n < op.toNat then op.toNat + 1 else n) n ≤ 65536 := by
    induction ops with
    | nil => exact fun n hn => hn
    | cons op ops ih =>
        intro n hn
        rw [List.foldl_cons]
        refine ih _ ?_
        have hop := op.toNat_lt
        split_ifs <;> omega
  exact hstep 0 (by decide)

/-- A call stays inside the table exactly if the frame is not there in full, or there is no memory
for the message, or the decrypted opcode is below the size of the table. -/
lemma parseInit_ne_none_iff (w : World H) (evbuf : List UInt8) (alloc : Bool) (len : ℤ)
    (data addr : UInt32) :
    parseInit w evbuf alloc len data addr ≠ none ↔
      len < frameSize evbuf + 6 ∨ alloc = false ∨
        (frameOpcode evbuf).toNat < w.processor.initHandlers.length := by
  by_cases hshort : len < frameSize evbuf + 6
  · exact iff_of_true (by rw [parseInit_short hshort]; exact Option.some_ne_none _) (.inl hshort)
  · cases alloc with
    | false =>
        refine iff_of_true ?_ (.inr (.inl rfl))
        rw [parseInit_noAlloc hshort]
        exact Option.some_ne_none _
    | true =>
        simp only [hshort, Bool.true_eq_false, false_or]
        rcases parseInit_alloc w data addr hshort with ⟨hle, hnone⟩ | ⟨hlt, p, hsome⟩
        · exact iff_of_false (not_not.mpr hnone) (by omega)
        · refine iff_of_true ?_ hlt
          rw [hsome]
          exact Option.some_ne_none _

/-- **Dispatch.** Whatever handlers have been registered, a call of `parseInit` indexes the table
inside its bounds, or discards the message without indexing it, exactly if the frame is not there
in full, or there is no memory for the message, or the decrypted opcode is below the size that the
registered opcodes have given the table. Every byte string is dispatched safely exactly if that
size is 65536. -/
theorem dispatch_iff (queue : MsgQueue (HandlerMsgInit H)) (calls : List (AddCall H))
    (net : ClientNet) :
    (∀ (evbuf : List UInt8) (alloc : Bool) (len : ℤ) (data addr : UInt32),
      parseInit ⟨net, .registered queue calls⟩ evbuf alloc len data addr ≠ none ↔
        len < frameSize evbuf + 6 ∨ alloc = false ∨
          (frameOpcode evbuf).toNat < tableSize (initOps calls)) ∧
    ((∀ (evbuf : List UInt8) (alloc : Bool) (data addr : UInt32),
      parseInit ⟨net, .registered queue calls⟩ evbuf alloc evbuf.length data addr ≠ none) ↔
        tableSize (initOps calls) = 65536) := by
  have hcall : ∀ (evbuf : List UInt8) (alloc : Bool) (len : ℤ) (data addr : UInt32),
      parseInit ⟨net, .registered queue calls⟩ evbuf alloc len data addr ≠ none ↔
        len < frameSize evbuf + 6 ∨ alloc = false ∨
          (frameOpcode evbuf).toNat < tableSize (initOps calls) := by
    intro evbuf alloc len data addr
    rw [parseInit_ne_none_iff, length_initHandlers]
  refine ⟨hcall, ?_⟩
  constructor
  · intro h
    -- An empty frame with the highest opcode.
    rcases (hcall [0, 0, 0, 0, 0xFF, 0xFF] true 6 0 0).mp (h _ true 0 0) with h6 | h | hop
    · exact absurd h6 (by decide)
    · cases h
    · have hle := tableSize_le (initOps calls)
      have hmax : (frameOpcode [0, 0, 0, 0, 0xFF, 0xFF]).toNat = 65535 := by decide
      omega
  · intro hsize evbuf alloc data addr
    refine (hcall _ _ _ _ _).mpr (.inr (.inr ?_))
    rw [hsize]
    exact (frameOpcode evbuf).toNat_lt

/-- With a handler for opcode 1 only, a packet with opcode 2 is looked up behind the table. -/
theorem not_dispatched_opcode_two :
    (Processor.registered .empty [⟨1, 1, ()⟩]).initHandlers.length = 2 ∧
      parseInit ⟨.create true, .registered .empty [⟨1, 1, ()⟩]⟩ [0, 0, 0, 0, 2, 0] true 6 0 0
        = none := by
  refine ⟨rfl, ?_⟩
  rcases parseInit_alloc ⟨.create true, .registered .empty [⟨1, 1, ()⟩]⟩ 0 0
    (show ¬ (6 : ℤ) < frameSize [0, 0, 0, 0, 2, 0] + 6 by decide) with h | ⟨hlt, -⟩
  · exact h.2
  · exact absurd hlt (by decide)

end handlers

end CocInside.Packet
