import CocInside.Lib.Window
import Mathlib.Data.Int.Notation

/-!
# `evbuffer`

The buffers of libevent: bytes that are added at the end and taken at the front, kept in a list of chains.
The chains at the end may be empty, for data that is to be read; `last_with_datap` says where the data ends.

* `Evbuffer`: the buffer. `add`, `drain`, `copyout`, `remove`, `pullup`: its functions. A failed assertion, a
  null pointer that is followed and a byte that is read or written outside a chain have no result.
* `Valid`: what the functions keep. `Packed`: there is no empty chain behind the data.
* `add_spec`, `drain_spec`, `copyout_spec`, `remove_spec`, `pullup_spec`: what each does to the contents. `add`
  writes to the last chain, so it needs `Packed`.

Left out are chains that are not plain memory (files, references), and so pinned and immutable ones, the
callbacks with their counts, and the lock. Lengths are natural numbers. `first`, `next` and `last` are the
order of a list.

Source: `event/buffer.c`, `event/evbuffer-internal.h`.
-/

namespace CocInside.LibEvent

open CocInside.Lib

/-- `misalign` is the start of the window, `off` its size. Source: `event/evbuffer-internal.h`,
`struct evbuffer_chain`. -/
abbrev Chain := Window UInt8

/-- Source: `event/evbuffer-internal.h`, `struct evbuffer`. -/
structure Evbuffer where
  chains : List Chain
  /-- How many chains there are before `*last_with_datap`. -/
  lastWithData : ℕ
  totalLen : ℕ
  freezeStart : Bool
  freezeEnd : Bool

/-- `malloc`: so many bytes of any value, or null. -/
abbrev Malloc := (n : ℕ) → Option { bytes : List UInt8 // bytes.length = n }

/-- Memory that does not run out, every byte of it `z`. -/
def Malloc.filled (z : UInt8) : Malloc := fun n => some ⟨List.replicate n z, List.length_replicate⟩

namespace Evbuffer

/-- Source: `event/buffer.c`, `evbuffer_new`. -/
def new : Evbuffer := ⟨[], 0, 0, false, false⟩

/-- `sizeof(struct evbuffer_chain)`. Source: `event/evbuffer-internal.h`, `EVBUFFER_CHAIN_SIZE`. -/
def chainSize : ℕ := 48

/-- With pointers of eight bytes. Source: `event/evbuffer-internal.h`, `MIN_BUFFER_SIZE`. -/
def minBufferSize : ℕ := 1024

/-- Source: `event/buffer.c`, `EVBUFFER_CHAIN_MAX_AUTO_SIZE`. -/
def chainMaxAutoSize : ℕ := 4096

/-- Source: `event/buffer.c`, `MAX_TO_REALIGN_IN_EXPAND`. -/
def maxToRealignInExpand : ℕ := 2048

/-! ## Chains -/

/-- `while (to_alloc < size) to_alloc <<= 1`. Source: `event/buffer.c`, `evbuffer_chain_new`. -/
def allocSize (size toAlloc : ℕ) : ℕ :=
  if h : toAlloc < size ∧ 0 < toAlloc then allocSize size (2 * toAlloc) else toAlloc
termination_by size - toAlloc

/-- Source: `event/buffer.c`, `evbuffer_chain_new`. -/
def chainNew (mem : Malloc) (size : ℕ) : Option Chain :=
  (mem (allocSize (size + chainSize) minBufferSize)).map fun m => .fresh (m.1.drop chainSize)

/-- Source: `event/buffer.c`, `evbuffer_chain_should_realign`. -/
def shouldRealign (chain : Chain) (datlen : ℕ) : Bool :=
  chain.cells.length - chain.size ≥ datlen && chain.size < chain.cells.length / 2 &&
    chain.size ≤ maxToRealignInExpand

/-- The chains with another one at the end. -/
def setLast (chains : List Chain) (chain : Chain) : List Chain := chains.dropLast ++ [chain]

/-- Behind the data, in the place of the empty chains there. Source: `event/buffer.c`,
`evbuffer_chain_insert`. -/
def chainInsert (b : Evbuffer) (chain : Chain) : Option Evbuffer :=
  if b.chains[b.lastWithData]?.isNone then
    if b.lastWithData = 0 ∧ b.chains = [] then
      some { b with chains := [chain], totalLen := b.totalLen + chain.size }
    else none
  else
    let i := b.lastWithData + ((b.chains.drop b.lastWithData).takeWhile (·.size ≠ 0)).length
    if i = b.chains.length then
      some { b with
        chains := b.chains ++ [chain]
        lastWithData := if chain.size ≠ 0 then i else b.lastWithData
        totalLen := b.totalLen + chain.size }
    else if (b.chains.drop i).all (·.size = 0) then
      some { b with chains := b.chains.take i ++ [chain], totalLen := b.totalLen + chain.size }
    else none

/-! ## Adding -/

/-- `evbuffer_add`, where there is a last chain. Source: `event/buffer.c`, `evbuffer_add`. -/
def addLast (mem : Malloc) (b : Evbuffer) (chain : Chain) (data : List UInt8) : Option (ℤ × Evbuffer) :=
  let remain := chain.room
  if remain ≥ data.length then do
    let chain ← chain.put data
    some (0, { b with chains := setLast b.chains chain, totalLen := b.totalLen + data.length })
  else if shouldRealign chain data.length then do
    let chain ← chain.align.put data
    some (0, { b with chains := setLast b.chains chain, totalLen := b.totalLen + data.length })
  else
    let toAlloc := chain.cells.length
    let toAlloc := if toAlloc ≤ chainMaxAutoSize / 2 then 2 * toAlloc else toAlloc
    let toAlloc := if data.length > toAlloc then data.length else toAlloc
    match chainNew mem toAlloc with
    | none => some (-1, b)
    | some tmp => do
        let chain ← chain.put (data.take remain)
        let tmp ← tmp.put (data.drop remain)
        let b ← { b with
          chains := setLast b.chains chain
          totalLen := b.totalLen + remain }.chainInsert tmp
        some (0, b)

/-- Source: `event/buffer.c`, `evbuffer_add`. -/
def add (mem : Malloc) (b : Evbuffer) (data : List UInt8) : Option (ℤ × Evbuffer) :=
  if b.freezeEnd then some (-1, b)
  else
    match b.chains.getLast? with
    | some chain => b.addLast mem chain data
    | none =>
        match chainNew mem data.length with
        | none => some (-1, b)
        | some chain => do
            let b ← b.chainInsert chain
            b.addLast mem chain data

/-! ## Taking -/

/-- The loop of `evbuffer_drain`. Source: `event/buffer.c`, `evbuffer_drain`. -/
def drainLoop (remaining lastWithData : ℕ) : List Chain → Option (ℕ × List Chain)
  | [] => none
  | chain :: chains =>
      if remaining ≥ chain.size then
        -- `last_with_datap` is set to the beginning where it is in this chain, or leads to it
        drainLoop (remaining - chain.size) (lastWithData - 1) chains
      else (chain.discard remaining).map fun chain => (lastWithData, chain :: chains)

/-- Source: `event/buffer.c`, `evbuffer_drain`. -/
def drain (b : Evbuffer) (len : ℕ) : Option (ℤ × Evbuffer) :=
  if b.totalLen = 0 then some (0, b)
  else if b.freezeStart then some (-1, b)
  else if len ≥ b.totalLen then
    some (0, { b with chains := [], lastWithData := 0, totalLen := 0 })
  else
    (drainLoop len b.lastWithData b.chains).map fun r =>
      (0, { b with chains := r.2, lastWithData := r.1, totalLen := b.totalLen - len })

/-- The loop of `evbuffer_copyout`. Source: `event/buffer.c`, `evbuffer_copyout`. -/
def copyoutLoop (datlen : ℕ) : List Chain → Option (List UInt8)
  | [] => if datlen = 0 then some [] else none
  | chain :: chains =>
      if datlen = 0 then some []
      else if datlen ≥ chain.size then
        (copyoutLoop (datlen - chain.size) chains).map (chain.contents ++ ·)
      else some (chain.contents.take datlen)

/-- With what it writes to `data_out`. Source: `event/buffer.c`, `evbuffer_copyout`. -/
def copyout (b : Evbuffer) (datlen : ℕ) : Option (ℤ × List UInt8) :=
  let datlen := min datlen b.totalLen
  if datlen = 0 then some (0, [])
  else if b.freezeStart then some (-1, [])
  else (copyoutLoop datlen b.chains).map fun data => (datlen, data)

/-- Source: `event/buffer.c`, `evbuffer_remove`. -/
def remove (b : Evbuffer) (datlen : ℕ) : Option (ℤ × List UInt8 × Evbuffer) := do
  let r ← b.copyout datlen
  if r.1 > 0 then
    let d ← b.drain r.1.toNat
    some (if d.1 < 0 then -1 else r.1, r.2, d.2)
  else some (r.1, r.2, b)

/-! ## Pulling up -/

/-- The loop of `evbuffer_pullup`: what is to come into `tmp`, from the cell `pos` on, and how many
chains were freed. Source: `event/buffer.c`, `evbuffer_pullup`. -/
def pullupLoop (tmp : Chain) (pos size freed : ℕ) : List Chain → Option (Chain × ℕ × List Chain)
  | [] => some (tmp, freed, [])
  | chain :: chains =>
      if size ≥ chain.size then do
        let tmp ← tmp.poke pos chain.contents
        pullupLoop tmp (pos + chain.size) (size - chain.size) (freed + 1) chains
      else do
        let tmp ← tmp.poke pos (chain.contents.take size)
        let chain ← chain.discard size
        some (tmp, freed, chain :: chains)

/-- The rest of `evbuffer_pullup`, once `tmp` is chosen. `rest` are the chains that may be copied,
`lead` of the chains before them stay; the result is what the pointer points to. Source:
`event/buffer.c`, `evbuffer_pullup`. -/
def pullupInto (b : Evbuffer) (tmp : Chain) (size need lead : ℕ) (rest : List Chain) :
    Option (List UInt8 × Evbuffer) := do
  let pos := tmp.start + tmp.size
  let tmp ← tmp.extend need
  let r ← pullupLoop tmp pos need 0 rest
  let chains := r.1 :: r.2.2
  -- the place of `*last_with_datap` among `rest`
  let place := b.lastWithData - lead
  let lastWithData :=
    if b.lastWithData = 0 then 0
    else if place < r.2.1 then 0
    else if 1 ≤ place ∧ place ≤ r.2.1 then
      if (r.2.2.head?.map (·.size)).getD 0 ≠ 0 then 1 else 0
    else place - r.2.1 + 1
  some ((r.1.cells.drop r.1.start).take size, { b with chains := chains, lastWithData := lastWithData })

/-- With the `size` bytes at the pointer it returns; `none` is null. Source: `event/buffer.c`,
`evbuffer_pullup`. -/
def pullup (mem : Malloc) (b : Evbuffer) (size : ℤ) : Option (Option (List UInt8) × Evbuffer) :=
  let size := if size < 0 then b.totalLen else size.toNat
  if size = 0 ∨ size > b.totalLen then some (none, b)
  else
    match b.chains with
    | [] => none
    | chain :: chains =>
        if chain.size ≥ size then some (some (chain.contents.take size), b)
        else if chain.cells.length - chain.start ≥ size then
          (b.pullupInto chain size (size - chain.size) 1 chains).map fun r => (some r.1, r.2)
        else
          match chainNew mem size with
          | none => some (none, b)
          | some tmp => (b.pullupInto tmp size size 0 (chain :: chains)).map fun r => (some r.1, r.2)

/-! ## What the functions keep -/

/-- The data ends in part `l`: it is not empty, and all behind it are. -/
def DataEnds : ℕ → List (List UInt8) → Prop
  | _, [] => False
  | 0, part :: parts => part ≠ [] ∧ parts.flatten = []
  | l + 1, _ :: parts => DataEnds l parts

/-- The contents of the chains. -/
def parts (chains : List Chain) : List (List UInt8) := chains.map Window.contents

/-- The contents of the buffer. -/
def contents (b : Evbuffer) : List UInt8 := (parts b.chains).flatten

/-- `last_with_datap` says where the data ends; without data, it is at the beginning. -/
def Ends (l : ℕ) (ps : List (List UInt8)) : Prop := DataEnds l ps ∨ l = 0 ∧ ps.flatten = []

/-- The stored values are right. -/
structure Valid (b : Evbuffer) : Prop where
  total : b.totalLen = b.contents.length
  ends : Ends b.lastWithData (parts b.chains)

/-- There is no chain behind the one in which the data ends. -/
def Packed (b : Evbuffer) : Prop := b.chains = [] ∨ b.lastWithData + 1 = b.chains.length

/-- What every function keeps. -/
structure Keeps (b b' : Evbuffer) : Prop where
  valid : b'.Valid
  packed : b.Packed → b'.Packed
  freezeStart : b'.freezeStart = b.freezeStart
  freezeEnd : b'.freezeEnd = b.freezeEnd

/-- A buffer that stays as it is. -/
lemma Valid.keeps {b : Evbuffer} (h : b.Valid) : b.Keeps b := ⟨h, id, rfl, rfl⟩

/-- One function after the other. -/
lemma Keeps.trans {b b' b'' : Evbuffer} (h : b.Keeps b') (h' : b'.Keeps b'') : b.Keeps b'' :=
  ⟨h'.valid, h'.packed ∘ h.packed, h'.freezeStart.trans h.freezeStart, h'.freezeEnd.trans h.freezeEnd⟩

/-- The contents of a chain come before those of the chains after it. -/
@[simp] lemma parts_cons (chain : Chain) (chains : List Chain) :
    parts (chain :: chains) = chain.contents :: parts chains := rfl

/-- The contents of two lists of chains. -/
@[simp] lemma parts_append (chains more : List Chain) :
    parts (chains ++ more) = parts chains ++ parts more := List.map_append

/-- There is one part for each chain. -/
@[simp] lemma length_parts (chains : List Chain) : (parts chains).length = chains.length :=
  List.length_map _

/-- Where there is data. -/
lemma Ends.dataEnds {l : ℕ} {ps : List (List UInt8)} (h : Ends l ps) (hne : ps.flatten ≠ []) :
    DataEnds l ps := h.resolve_right fun hc => hne hc.2

/-- Data does not end where there is none. -/
lemma not_dataEnds_nil (l : ℕ) : ¬ DataEnds l [] := by
  cases l <;> exact id

/-- Parts before. -/
lemma DataEnds.append {l : ℕ} {ps : List (List UInt8)} (h : DataEnds l ps)
    (before : List (List UInt8)) : DataEnds (before.length + l) (before ++ ps) := by
  induction before with
  | nil => simpa using h
  | cons part before ih =>
      rw [List.cons_append, List.length_cons, Nat.add_right_comm]
      exact ih

/-- Parts that are taken away before, if there is data in the others. -/
lemma DataEnds.drop {l : ℕ} {ps : List (List UInt8)} (h : DataEnds l ps) {k : ℕ}
    (hne : (ps.drop k).flatten ≠ []) : k ≤ l ∧ DataEnds (l - k) (ps.drop k) := by
  induction k generalizing l ps with
  | zero => exact ⟨Nat.zero_le l, h⟩
  | succ k ih =>
      cases ps with
      | nil => exact absurd h (not_dataEnds_nil l)
      | cons part ps =>
          rw [List.drop_succ_cons] at hne ⊢
          cases l with
          | zero =>
              -- there is no data behind the first part
              refine absurd (List.flatten_eq_nil_iff.mpr fun p hp => ?_) hne
              exact List.flatten_eq_nil_iff.mp h.2 p (List.mem_of_mem_drop hp)
          | succ l =>
              obtain ⟨hk, hends⟩ := @ih l ps h hne
              rw [Nat.add_sub_add_right]
              exact ⟨Nat.succ_le_succ hk, hends⟩

/-- Another first part, with data. -/
lemma DataEnds.of_cons {l : ℕ} {part part' : List UInt8} {ps : List (List UInt8)}
    (h : DataEnds l (part :: ps)) (hne : part' ≠ []) : DataEnds l (part' :: ps) := by
  cases l with
  | zero => exact ⟨hne, h.2⟩
  | succ l => exact h

/-- The part in which the data ends is one of the parts. -/
lemma DataEnds.lt {l : ℕ} {ps : List (List UInt8)} (h : DataEnds l ps) : l < ps.length := by
  induction ps generalizing l with
  | nil => exact absurd h (not_dataEnds_nil l)
  | cons part ps ih =>
      cases l with
      | zero => exact Nat.succ_pos _
      | succ l => exact Nat.succ_lt_succ (ih h)

/-- The memory that is asked for is enough. -/
lemma le_allocSize (size : ℕ) {toAlloc : ℕ} (h : 0 < toAlloc) : size ≤ allocSize size toAlloc := by
  induction toAlloc using allocSize.induct size with
  | case1 toAlloc hlt ih =>
      rw [allocSize, dif_pos hlt]
      exact ih (by omega)
  | case2 toAlloc hlt =>
      rw [allocSize, dif_neg hlt]
      omega

/-! ## Taking, specified -/

/-- The loop of `drain`, with less to take than there is. -/
lemma exists_drainLoop {chains : List Chain} {l remaining : ℕ} (h : DataEnds l (parts chains))
    (hlt : remaining < (parts chains).flatten.length) :
    ∃ l' chains', drainLoop remaining l chains = some (l', chains') ∧ DataEnds l' (parts chains') ∧
      (parts chains').flatten = (parts chains).flatten.drop remaining ∧
      (l + 1 = chains.length → l' + 1 = chains'.length) := by
  induction chains generalizing l remaining with
  | nil => exact absurd h (not_dataEnds_nil l)
  | cons chain chains ih =>
      rw [parts_cons, List.flatten_cons, List.length_append, Window.length_contents] at hlt
      rw [drainLoop, parts_cons, List.flatten_cons]
      by_cases hge : remaining ≥ chain.size
      · -- the chain is taken whole, so the data ends behind it
        have hall : chain.contents.length ≤ remaining := by rwa [Window.length_contents]
        obtain ⟨hl, hrest⟩ := h.drop (k := 1) (List.ne_nil_of_length_pos (by
          rw [parts_cons, List.drop_succ_cons, List.drop_zero]
          omega))
        obtain ⟨l', chains', hloop, hends, hdata, hpacked⟩ :=
          @ih (l - 1) (remaining - chain.size) hrest (by omega)
        refine ⟨l', chains', ?_, hends, ?_, fun hlen => hpacked ?_⟩
        · rw [if_pos hge]
          exact hloop
        · rw [hdata, List.drop_append, List.drop_eq_nil_of_le hall, Window.length_contents,
            List.nil_append]
        · rw [List.length_cons] at hlen
          omega
      · obtain ⟨chain', hdiscard, hcontents, hsize, -⟩ := chain.exists_discard (n := remaining) (by omega)
        refine ⟨l, chain' :: chains, ?_, h.of_cons ?_, ?_, id⟩
        · rw [if_neg hge, hdiscard, Option.map_some]
        · rw [Ne, Window.contents_eq_nil_iff]
          omega
        · rw [parts_cons, List.flatten_cons, hcontents, List.drop_append_of_le_length]
          rw [Window.length_contents]
          omega

/-- **`evbuffer_drain`** takes bytes at the front. -/
theorem drain_spec {b : Evbuffer} (h : b.Valid) (len : ℕ) :
    ∃ r b', b.drain len = some (r, b') ∧ b.Keeps b' ∧
      b'.contents = b.contents.drop (if b.freezeStart then 0 else len) ∧
      (b.freezeStart = false → r = 0) := by
  unfold drain
  by_cases hzero : b.totalLen = 0
  · have hnil : b.contents = [] := by rw [← List.length_eq_zero_iff, ← h.total, hzero]
    exact ⟨0, b, if_pos hzero, h.keeps, by rw [hnil, List.drop_nil], fun _ => rfl⟩
  rw [if_neg hzero]
  cases hfreeze : b.freezeStart with
  | true => exact ⟨-1, b, rfl, h.keeps, rfl, nofun⟩
  | false =>
      rw [if_neg Bool.false_ne_true]
      by_cases hall : len ≥ b.totalLen
      · rw [if_pos hall]
        refine ⟨0, _, rfl, ⟨⟨rfl, .inr ⟨rfl, rfl⟩⟩, fun _ => .inl rfl, hfreeze.symm, rfl⟩, ?_, fun _ => rfl⟩
        rw [if_neg Bool.false_ne_true, List.drop_eq_nil_of_le (h.total ▸ hall)]
        rfl
      · rw [if_neg hall]
        have hlt : len < (parts b.chains).flatten.length := by
          have htotal := h.total
          rw [contents] at htotal
          omega
        obtain ⟨l', chains', hloop, hends, hdata, hpacked⟩ :=
          exists_drainLoop (h.ends.dataEnds (List.ne_nil_of_length_pos (by omega))) hlt
        rw [hloop, Option.map_some]
        refine ⟨0, _, rfl, ⟨⟨?_, .inl hends⟩, ?_, hfreeze.symm, rfl⟩, hdata, fun _ => rfl⟩
        · simp only [contents]
          rw [hdata, List.length_drop, h.total]
          rfl
        · rintro (hnil | hlen)
          · rw [hnil] at hlt
            simp [parts] at hlt
          · exact .inr (hpacked hlen)

/-- The loop of `copyout`, with no more to copy than there is. -/
lemma copyoutLoop_eq {chains : List Chain} {datlen : ℕ}
    (h : datlen ≤ (parts chains).flatten.length) :
    copyoutLoop datlen chains = some ((parts chains).flatten.take datlen) := by
  induction chains generalizing datlen with
  | nil =>
      obtain rfl : datlen = 0 := by simpa [parts] using h
      rfl
  | cons chain chains ih =>
      rw [parts_cons, List.flatten_cons, List.length_append, Window.length_contents] at h
      rw [copyoutLoop, parts_cons, List.flatten_cons]
      by_cases hzero : datlen = 0
      · rw [if_pos hzero, hzero, List.take_zero]
      rw [if_neg hzero]
      by_cases hge : datlen ≥ chain.size
      · rw [if_pos hge, ih (by omega), Option.map_some, List.take_append, Window.length_contents,
          List.take_of_length_le (l := chain.contents) (by rw [Window.length_contents]; exact hge)]
      · rw [if_neg hge, List.take_append_of_le_length]
        rw [Window.length_contents]
        omega

/-- **`evbuffer_copyout`** copies bytes from the front. -/
theorem copyout_spec {b : Evbuffer} (h : b.Valid) (datlen : ℕ) :
    ∃ r data, b.copyout datlen = some (r, data) ∧
      data = b.contents.take (if b.freezeStart then 0 else datlen) ∧
      (r = data.length ∨ b.freezeStart = true ∧ r = -1) := by
  unfold copyout
  dsimp only
  by_cases hzero : min datlen b.totalLen = 0
  · rw [if_pos hzero]
    refine ⟨0, [], rfl, ?_, .inl rfl⟩
    have hnil : b.contents.take datlen = [] := by
      rw [← List.length_eq_zero_iff, List.length_take, ← h.total]
      exact hzero
    split
    · rw [List.take_zero]
    · exact hnil.symm
  rw [if_neg hzero]
  cases hfreeze : b.freezeStart with
  | true => exact ⟨-1, [], rfl, by simp, .inr ⟨rfl, rfl⟩⟩
  | false =>
      rw [if_neg Bool.false_ne_true, if_neg Bool.false_ne_true]
      have hlen : min datlen b.totalLen ≤ (parts b.chains).flatten.length := by
        have htotal := h.total
        rw [contents] at htotal
        omega
      rw [copyoutLoop_eq hlen, Option.map_some]
      refine ⟨_, _, rfl, ?_, .inl ?_⟩
      · rw [h.total]
        exact List.take_eq_take_min.symm
      · rw [List.length_take, Nat.min_eq_left hlen]

/-- **`evbuffer_remove`** moves bytes from the front to the caller. -/
theorem remove_spec {b : Evbuffer} (h : b.Valid) (datlen : ℕ) :
    ∃ r data b', b.remove datlen = some (r, data, b') ∧ b.Keeps b' ∧
      data = b.contents.take (if b.freezeStart then 0 else datlen) ∧ data ++ b'.contents = b.contents ∧
      (r = data.length ∨ b.freezeStart = true ∧ r = -1) := by
  obtain ⟨r, data, hcopy, hdata, hr⟩ := copyout_spec h datlen
  unfold remove
  rw [hcopy, Option.bind_eq_bind, Option.bind_some]
  dsimp only
  by_cases hpos : r > 0
  · obtain rfl : r = data.length := hr.resolve_right fun hc => by omega
    obtain ⟨d, b', hdrain, hkeeps, hcontents, hd⟩ := drain_spec h data.length
    have hunfrozen : b.freezeStart = false := by
      by_contra hfreeze
      rw [if_pos (by simpa using hfreeze), List.take_zero] at hdata
      simp [hdata] at hpos
    rw [if_pos hpos, Int.toNat_natCast, hdrain, Option.bind_eq_bind, Option.bind_some, hd hunfrozen,
      if_neg (by simp)]
    refine ⟨_, _, _, rfl, hkeeps, hdata, ?_, .inl rfl⟩
    have hprefix : data <+: b.contents := hdata ▸ List.take_prefix _ _
    rw [hcontents, hunfrozen, if_neg Bool.false_ne_true]
    exact (List.prefix_iff_eq_append.mp hprefix)
  · rw [if_neg hpos]
    refine ⟨_, _, _, rfl, h.keeps, hdata, ?_, hr⟩
    have hnil : data = [] := by
      rcases hr with hr | ⟨hfreeze, -⟩
      · rw [← List.length_eq_zero_iff]
        omega
      · rw [hdata, hfreeze, if_pos rfl, List.take_zero]
    rw [hnil, List.nil_append]

/-! ## Pulling up, specified -/

/-- The loop of `pullup`, where the bytes that are to come are there: they come behind the contents of the
chain, and what is left of the others begins with what is left of a chain. -/
lemma exists_pullupLoop {rest : List Chain} {w tmp : Chain} {need : ℕ} (freed : ℕ)
    (htmp : w.extend need = some tmp) (hneed : need ≤ (parts rest).flatten.length) :
    ∃ t k rest', pullupLoop tmp (w.start + w.size) need freed rest = some (t, freed + k, rest') ∧
      t.contents = w.contents ++ (parts rest).flatten.take need ∧
      (parts rest').flatten = (parts rest).flatten.drop need ∧ rest'.length + k = rest.length ∧
      (rest' = [] ∨ ∃ chain chain' chains, rest.drop k = chain :: chains ∧ rest' = chain' :: chains ∧
        chain.contents ≠ [] ∧ chain'.contents ≠ []) := by
  induction rest generalizing w tmp need freed with
  | nil =>
      obtain rfl : need = 0 := by simpa [parts] using hneed
      obtain rfl := Window.eq_of_extend_zero htmp
      exact ⟨tmp, 0, [], rfl, by simp, by simp, rfl, .inl rfl⟩
  | cons chain rest ih =>
      rw [parts_cons, List.flatten_cons, List.length_append, Window.length_contents] at hneed
      rw [pullupLoop, parts_cons, List.flatten_cons]
      by_cases hge : need ≥ chain.size
      · -- the chain is copied whole, and freed
        have hall : chain.contents.length ≤ need := by rwa [Window.length_contents]
        obtain ⟨v, tmp', hpoke, hv, hcontents, hstart, hsize⟩ :=
          Window.exists_poke_of_extend htmp chain.contents hall
        rw [Window.length_contents] at hv hsize
        obtain ⟨t, k, rest', hloop, ht, hrest, hlen, hplace⟩ := ih (freed + 1) hv (by omega)
        refine ⟨t, k + 1, rest', ?_, ?_, ?_, ?_, hplace⟩
        · rw [if_pos hge, hpoke, Option.bind_eq_bind, Option.bind_some]
          rw [hstart, hsize] at hloop
          rw [Nat.add_assoc, hloop, Nat.add_comm k 1, Nat.add_assoc]
        · rw [ht, hcontents, List.take_append, List.take_of_length_le hall, Window.length_contents,
            List.append_assoc]
        · rw [hrest, List.drop_append, List.drop_eq_nil_of_le hall, Window.length_contents,
            List.nil_append]
        · rw [List.length_cons]
          omega
      · -- the chain keeps what is behind the bytes that are wanted
        have hlen : (chain.contents.take need).length = need := by
          rw [List.length_take, Window.length_contents]
          omega
        obtain ⟨v, tmp', hpoke, hv, hcontents, -⟩ :=
          Window.exists_poke_of_extend htmp (chain.contents.take need) (Nat.le_of_eq hlen)
        obtain ⟨chain', hdiscard, hchain, hsize, -⟩ := chain.exists_discard (n := need) (by omega)
        rw [hlen, Nat.sub_self] at hv
        obtain rfl := Window.eq_of_extend_zero hv
        refine ⟨tmp', 0, chain' :: rest, ?_, ?_, ?_, rfl, .inr ⟨chain, chain', rest, rfl, rfl, ?_, ?_⟩⟩
        · rw [if_neg hge, hpoke, hdiscard]
          rfl
        · rw [hcontents, List.take_append_of_le_length]
          rw [Window.length_contents]
          omega
        · rw [parts_cons, List.flatten_cons, hchain, List.drop_append_of_le_length]
          rw [Window.length_contents]
          omega
        · rw [Ne, Window.contents_eq_nil_iff]
          omega
        · rw [Ne, Window.contents_eq_nil_iff]
          omega

/-- One part holds all the data. -/
lemma ends_singleton (part : List UInt8) : Ends 0 [part] := by
  by_cases hpart : part = []
  · exact .inr ⟨rfl, by rw [hpart]; rfl⟩
  · exact .inl ⟨hpart, rfl⟩

/-- Where the data ends behind `tmp`, once `k` chains are freed and what is left begins with data. -/
lemma place_eq {place k : ℕ} {chain : Chain} (chains : List Chain) (hk : k ≤ place)
    (hne : chain.contents ≠ []) :
    (if place < k then 0
      else if 1 ≤ place ∧ place ≤ k then
        if (((chain :: chains).head?.map (·.size)).getD 0) ≠ 0 then 1 else 0
      else place - k + 1) = place - k + 1 := by
  have hsize : chain.size ≠ 0 := by rwa [Ne, ← Window.contents_eq_nil_iff]
  rw [if_neg (Nat.not_lt.mpr hk)]
  split
  · rw [List.head?_cons, Option.map_some, Option.getD_some, if_pos hsize]
    omega
  · rfl

/-- The rest of `pullup`: `tmp` gets the first bytes of the chains that may be copied. -/
lemma pullupInto_spec {b : Evbuffer} (tmp : Chain) (need lead : ℕ) (rest : List Chain)
    (hsome : b.lastWithData ≠ 0) (hends : DataEnds (b.lastWithData - lead) (parts rest))
    (hroom : need ≤ tmp.room) (hneed : need ≤ (parts rest).flatten.length)
    (hdata : tmp.contents ++ (parts rest).flatten = b.contents)
    (htotal : b.totalLen = b.contents.length) (hlen : b.chains.length = lead + rest.length) :
    ∃ b', b.pullupInto tmp (tmp.size + need) need lead rest =
        some (b.contents.take (tmp.size + need), b') ∧ b.Keeps b' ∧ b'.contents = b.contents := by
  obtain ⟨u, hu, -⟩ := Window.exists_extend hroom
  obtain ⟨t, k, rest', hloop, ht, hrest, hlen', hplace⟩ := exists_pullupLoop 0 hu hneed
  have hcontents : t.contents ++ (parts rest').flatten = b.contents := by
    rw [ht, hrest, List.append_assoc, List.take_append_drop, hdata]
  have hsize : t.size = tmp.size + need := by
    have hlength := congrArg List.length ht
    rw [Window.length_contents, List.length_append, Window.length_contents, List.length_take,
      Nat.min_eq_left hneed] at hlength
    exact hlength
  have hbytes : (t.cells.drop t.start).take (tmp.size + need) = b.contents.take (tmp.size + need) := by
    rw [← hcontents, List.take_left' (by rw [Window.length_contents, hsize]), Window.contents, hsize]
  have htotal' : b.totalLen = (t.contents ++ (parts rest').flatten).length := by rw [hcontents, htotal]
  rw [Nat.zero_add] at hloop
  have hlt := hends.lt
  rw [length_parts] at hlt
  unfold pullupInto
  rw [hu, Option.bind_eq_bind, Option.bind_some, hloop, Option.bind_eq_bind, Option.bind_some]
  dsimp only
  rw [if_neg hsome, hbytes]
  rcases hplace with rfl | ⟨chain, chain', chains, hdrop, rfl, hchain, hchain'⟩
  · -- all chains were copied
    rw [List.length_nil] at hlen'
    rw [if_pos (by omega)]
    exact ⟨_, rfl, ⟨⟨htotal', ends_singleton _⟩, fun _ => .inr rfl, rfl, rfl⟩, hcontents⟩
  · have hparts : (parts rest).drop k = chain.contents :: parts chains := by
      rw [parts, ← List.map_drop, hdrop]
      rfl
    obtain ⟨hk, hends'⟩ := hends.drop (k := k) (by
      rw [hparts, List.flatten_cons]
      exact List.append_ne_nil_of_left_ne_nil hchain _)
    rw [hparts] at hends'
    rw [place_eq chains hk hchain']
    refine ⟨_, rfl, ⟨⟨htotal', .inl (hends'.of_cons hchain')⟩, ?_, rfl, rfl⟩, hcontents⟩
    rintro (hnil | hpacked)
    · rw [hnil, List.length_nil] at hlen
      omega
    · refine .inr ?_
      simp only [List.length_cons] at hlen' ⊢
      omega

/-- A new chain is empty, and has room. -/
lemma chainNew_spec {mem : Malloc} {n : ℕ} {chain : Chain} (h : chainNew mem n = some chain) :
    chain.contents = [] ∧ chain.size = 0 ∧ n ≤ chain.room := by
  unfold chainNew at h
  rw [Option.map_eq_some_iff] at h
  obtain ⟨m, -, rfl⟩ := h
  refine ⟨rfl, rfl, ?_⟩
  have hlarge : n + chainSize ≤ allocSize (n + chainSize) minBufferSize :=
    le_allocSize _ (by decide)
  rw [Window.room_fresh, List.length_drop, m.2]
  omega

/-- **`evbuffer_pullup`** brings bytes together at the front and leaves them in the buffer. -/
theorem pullup_spec {b : Evbuffer} (h : b.Valid) (mem : Malloc) (size : ℤ) :
    ∃ r b', b.pullup mem size = some (r, b') ∧ b.Keeps b' ∧ b'.contents = b.contents ∧
      (r = none ∨ r = some (b.contents.take (if size < 0 then b.contents.length else size.toNat))) := by
  unfold pullup
  rw [← h.total]
  generalize (if size < 0 then b.totalLen else size.toNat) = n
  dsimp only
  by_cases hbounds : n = 0 ∨ n > b.totalLen
  · exact ⟨none, b, if_pos hbounds, h.keeps, rfl, .inl rfl⟩
  rw [if_neg hbounds]
  have htotal := h.total
  have hne : b.contents ≠ [] := List.ne_nil_of_length_pos (by omega)
  have hends := h.ends.dataEnds hne
  cases hchains : b.chains with
  | nil =>
      rw [contents, hchains] at hne
      exact absurd rfl hne
  | cons chain chains =>
      have hcontents : b.contents = chain.contents ++ (parts chains).flatten := by
        rw [contents, hchains]
        rfl
      rw [hchains] at hends
      dsimp only
      by_cases hfirst : chain.size ≥ n
      · refine ⟨_, b, if_pos hfirst, h.keeps, rfl, .inr ?_⟩
        rw [hcontents, List.take_append_of_le_length]
        rwa [Window.length_contents]
      rw [if_neg hfirst]
      have hlength : b.contents.length = chain.size + (parts chains).flatten.length := by
        rw [hcontents, List.length_append, Window.length_contents]
      -- the data does not end in the first chain
      obtain ⟨hsome, hrest⟩ := hends.drop (k := 1) (List.ne_nil_of_length_pos (by
        rw [parts_cons, List.drop_succ_cons, List.drop_zero]
        omega))
      by_cases hspace : chain.cells.length - chain.start ≥ n
      · rw [if_pos hspace]
        obtain ⟨b', hinto, hkeeps, hsame⟩ := pullupInto_spec (b := b)
          chain (n - chain.size) 1 chains (by omega) hrest (by rw [Window.room]; omega) (by omega)
          hcontents.symm htotal (by rw [hchains, List.length_cons, Nat.add_comm])
        rw [Nat.add_sub_cancel' (by omega)] at hinto
        rw [hinto]
        exact ⟨_, b', rfl, hkeeps, hsame, .inr rfl⟩
      · rw [if_neg hspace]
        cases hnew : chainNew mem n with
        | none => exact ⟨none, b, rfl, h.keeps, rfl, .inl rfl⟩
        | some tmp =>
            obtain ⟨hempty, hsize, hroom⟩ := chainNew_spec hnew
            obtain ⟨b', hinto, hkeeps, hsame⟩ := pullupInto_spec (b := b)
              tmp n 0 (chain :: chains) (by omega) hends hroom (by rw [← hchains, ← contents]; omega)
              (by rw [hempty, ← hchains]; rfl) htotal (by rw [hchains, Nat.zero_add])
            rw [hsize, Nat.zero_add] at hinto
            dsimp only
            rw [hinto]
            exact ⟨_, b', rfl, hkeeps, hsame, .inr rfl⟩

/-! ## Adding, specified -/

/-- The data ends in the last part, if it is not empty or the only one, -/
lemma ends_concat {ps : List (List UInt8)} {part : List UInt8} (h : ps = [] ∨ part ≠ []) :
    Ends ps.length (ps ++ [part]) := by
  rcases h with rfl | hpart
  · exact ends_singleton part
  · have hlast : DataEnds 0 [part] := ⟨hpart, rfl⟩
    exact .inl (hlast.append ps)

/-- and only then. -/
lemma eq_nil_or_ne_nil_of_ends {ps : List (List UInt8)} {part : List UInt8}
    (h : Ends ps.length (ps ++ [part])) : ps = [] ∨ part ≠ [] := by
  rcases h with hends | ⟨hzero, -⟩
  · refine .inr ?_
    induction ps with
    | nil => exact hends.1
    | cons p ps ih => exact ih hends
  · exact .inl (List.length_eq_zero_iff.mp hzero)

/-- The data ends in the last chain. -/
structure EndsIn (b : Evbuffer) (chains : List Chain) (chain : Chain) : Prop where
  chains_eq : b.chains = chains ++ [chain]
  last_eq : b.lastWithData = chains.length

namespace EndsIn

variable {b : Evbuffer} {chains : List Chain} {chain : Chain}

/-- What is in the chain, and before it. -/
lemma contents_eq (h : b.EndsIn chains chain) :
    b.contents = (parts chains).flatten ++ chain.contents := by
  rw [contents, h.chains_eq]
  simp [parts]

/-- There is no chain behind it. -/
lemma packed (h : b.EndsIn chains chain) : b.Packed := by
  refine .inr ?_
  rw [h.chains_eq, h.last_eq, List.length_append, List.length_singleton]

/-- Only the first chain may be empty. -/
lemma nil_or_ne_nil (h : b.EndsIn chains chain) (hb : b.Valid) :
    parts chains = [] ∨ chain.contents ≠ [] := by
  have hends := hb.ends
  rw [h.chains_eq, h.last_eq, parts_append, ← length_parts] at hends
  exact eq_nil_or_ne_nil_of_ends hends

/-- The last chain with more in it. -/
lemma setLast_spec (h : b.EndsIn chains chain) (hb : b.Valid) {chain' : Chain} {more : List UInt8}
    (hmore : chain'.contents = chain.contents ++ more) {b' : Evbuffer}
    (hb' : b' = { b with
      chains := setLast b.chains chain'
      totalLen := b.totalLen + more.length }) :
    b'.EndsIn chains chain' ∧ b.Keeps b' ∧ b'.contents = b.contents ++ more := by
  subst hb'
  have hin : Evbuffer.EndsIn { b with
      chains := setLast b.chains chain'
      totalLen := b.totalLen + more.length } chains chain' :=
    ⟨by rw [setLast, h.chains_eq, List.dropLast_concat], h.last_eq⟩
  have hcontents := hin.contents_eq
  rw [hmore, ← List.append_assoc, ← h.contents_eq] at hcontents
  refine ⟨hin, ⟨⟨?_, ?_⟩, fun _ => hin.packed, rfl, rfl⟩, hcontents⟩
  · rw [hcontents, List.length_append, ← hb.total]
  · rw [hin.chains_eq, hin.last_eq, parts_append, ← length_parts]
    refine ends_concat ((h.nil_or_ne_nil hb).imp_right fun hne => ?_)
    rw [hmore]
    exact List.append_ne_nil_of_left_ne_nil hne more

/-- A chain with data comes behind the last one, or in its place. -/
lemma chainInsert_spec (h : b.EndsIn chains chain) (hb : b.Valid) {tmp : Chain}
    (hne : tmp.contents ≠ []) :
    ∃ b', b.chainInsert tmp = some b' ∧ b.Keeps b' ∧ b'.contents = b.contents ++ tmp.contents := by
  have hget : b.chains[b.lastWithData]? = some chain := by
    rw [h.chains_eq, h.last_eq]
    simp
  have hdrop : b.chains.drop b.lastWithData = [chain] := by
    rw [h.chains_eq, h.last_eq, List.drop_left]
  have hsize : tmp.size ≠ 0 := by rwa [Ne, ← Window.contents_eq_nil_iff]
  have htotal : b.totalLen + tmp.size = (b.contents ++ tmp.contents).length := by
    rw [List.length_append, hb.total, Window.length_contents]
  unfold chainInsert
  rw [hget, Option.isNone_some, if_neg Bool.false_ne_true, hdrop]
  by_cases hchain : chain.size = 0
  · -- the only chain is empty
    have hempty : chain.contents = [] := (Window.contents_eq_nil_iff _).mpr hchain
    have hnil : chains = [] := by
      have hparts := (h.nil_or_ne_nil hb).resolve_right fun hc => hc hempty
      simpa [parts] using hparts
    subst hnil
    have hzero : b.lastWithData = 0 := h.last_eq
    have hcontents : b.contents = [] := by rw [h.contents_eq, hempty]; rfl
    have hlen : b.chains.length = 1 := by rw [h.chains_eq]; rfl
    rw [hcontents, List.nil_append] at htotal ⊢
    simp only [List.takeWhile_cons, hchain, ne_eq, not_true, decide_false, Bool.false_eq_true, if_false,
      List.length_nil, Nat.add_zero, hzero, hlen, Nat.zero_ne_one]
    rw [if_pos (by rw [h.chains_eq]; simp [hchain])]
    refine ⟨_, rfl, ⟨⟨?_, ends_singleton _⟩, fun _ => .inr rfl, rfl, rfl⟩, ?_⟩
    · rw [htotal]
      simp [contents, parts]
    · simp [contents, parts]
  · have hlen : b.lastWithData + 1 = b.chains.length := by
      rw [h.chains_eq, h.last_eq, List.length_append, List.length_singleton]
    have hdata : (parts (b.chains ++ [tmp])).flatten = b.contents ++ tmp.contents := by
      simp [contents, parts]
    simp only [List.takeWhile_cons, hchain, ne_eq, not_false_eq_true, decide_true, if_true,
      List.takeWhile_nil, List.length_singleton, hlen, hsize]
    refine ⟨_, rfl, ⟨⟨?_, ?_⟩, fun _ => .inr ?_, rfl, rfl⟩, hdata⟩
    · rw [contents, hdata, ← htotal]
    · simp only
      rw [parts_append, ← length_parts]
      exact ends_concat (.inr hne)
    · simp

/-- Data that fits behind the contents of the last chain, aligned or not. -/
lemma exists_put (h : b.EndsIn chains chain) (hb : b.Valid) {c : Chain} (hc : c.contents = chain.contents)
    {data : List UInt8} (hroom : data.length ≤ c.room) :
    ∃ c' b', c.put data = some c' ∧
      b' = { b with chains := setLast b.chains c', totalLen := b.totalLen + data.length } ∧
      b'.EndsIn chains c' ∧ b.Keeps b' ∧ b'.contents = b.contents ++ data := by
  obtain ⟨c', hput, hc', -⟩ := c.exists_put data hroom
  rw [hc] at hc'
  exact ⟨c', _, hput, rfl, h.setLast_spec hb hc' rfl⟩

/-- Data that does not fit: the last chain gets what it has room for, and a new one the rest. -/
lemma exists_put_insert (h : b.EndsIn chains chain) (hb : b.Valid) {tmp : Chain}
    (hempty : tmp.contents = []) {data : List UInt8} (hmore : chain.room < data.length)
    (hroom : data.length ≤ tmp.room) :
    ∃ c' tmp' b', chain.put (data.take chain.room) = some c' ∧
      tmp.put (data.drop chain.room) = some tmp' ∧
      { b with
        chains := setLast b.chains c'
        totalLen := b.totalLen + chain.room }.chainInsert tmp' = some b' ∧
      b.Keeps b' ∧ b'.contents = b.contents ++ data := by
  have hlen : (data.take chain.room).length = chain.room := by
    rw [List.length_take]
    omega
  obtain ⟨c', b₁, hput, hb₁, hin, hkeeps, hcontents⟩ := h.exists_put hb rfl (Nat.le_of_eq hlen)
  obtain ⟨tmp', hput', htmp', -⟩ := tmp.exists_put (data.drop chain.room) (by
    rw [List.length_drop]
    omega)
  rw [hempty, List.nil_append] at htmp'
  have hne : tmp'.contents ≠ [] := by
    rw [htmp', ← List.length_pos_iff, List.length_drop]
    omega
  obtain ⟨b', hinsert, hkeeps', hcontents'⟩ := hin.chainInsert_spec hkeeps.valid hne
  rw [hb₁, hlen] at hinsert
  refine ⟨c', tmp', b', hput, hput', hinsert, hkeeps.trans hkeeps', ?_⟩
  rw [hcontents', hcontents, htmp', List.append_assoc, List.take_append_drop]

end EndsIn

/-- `evbuffer_add`, where there is a last chain and the data ends in it. -/
lemma addLast_spec {b : Evbuffer} (hb : b.Valid) {chains : List Chain} {chain : Chain}
    (h : b.EndsIn chains chain) (mem : Malloc) (data : List UInt8) :
    ∃ r b', b.addLast mem chain data = some (r, b') ∧ b.Keeps b' ∧
      (r = 0 ∧ b'.contents = b.contents ++ data ∨
        r = -1 ∧ b'.contents = b.contents ∧ ∃ n, mem n = none) := by
  unfold addLast
  dsimp only
  by_cases hroom : chain.room ≥ data.length
  · obtain ⟨c', b', hput, hb', -, hkeeps, hcontents⟩ := h.exists_put hb rfl hroom
    rw [if_pos hroom, hput]
    exact ⟨0, b', by rw [hb']; rfl, hkeeps, .inl ⟨rfl, hcontents⟩⟩
  rw [if_neg hroom]
  by_cases halign : shouldRealign chain data.length = true
  · have hroom' : data.length ≤ chain.align.room := by
      rw [shouldRealign, Bool.and_eq_true, Bool.and_eq_true, decide_eq_true_eq] at halign
      rw [Window.room_align]
      exact halign.1.1
    obtain ⟨c', b', hput, hb', -, hkeeps, hcontents⟩ := h.exists_put hb chain.contents_align hroom'
    rw [if_pos halign, hput]
    exact ⟨0, b', by rw [hb']; rfl, hkeeps, .inl ⟨rfl, hcontents⟩⟩
  rw [if_neg halign]
  generalize hneed : (if data.length > if chain.cells.length ≤ chainMaxAutoSize / 2 then
    2 * chain.cells.length else chain.cells.length then data.length
    else if chain.cells.length ≤ chainMaxAutoSize / 2 then 2 * chain.cells.length
      else chain.cells.length) = need
  have hlarge : data.length ≤ need := by
    rw [← hneed]
    split <;> split <;> omega
  cases hnew : chainNew mem need with
  | none =>
      refine ⟨-1, b, rfl, hb.keeps, .inr ⟨rfl, rfl, ?_⟩⟩
      exact ⟨_, Option.map_eq_none_iff.mp hnew⟩
  | some tmp =>
      obtain ⟨hempty, -, htmp⟩ := chainNew_spec hnew
      obtain ⟨c', tmp', b', hput, hput', hinsert, hkeeps, hcontents⟩ :=
        h.exists_put_insert hb hempty (Nat.lt_of_not_le hroom) (Nat.le_trans hlarge htmp)
      dsimp only
      rw [hput, hput', Option.bind_eq_bind, Option.bind_some, Option.bind_eq_bind, Option.bind_some, hinsert]
      exact ⟨0, b', rfl, hkeeps, .inl ⟨rfl, hcontents⟩⟩

/-- A first chain. -/
lemma exists_chainInsert_nil {b : Evbuffer} (hb : b.Valid) (hnil : b.chains = []) {chain : Chain}
    (hchain : chain.contents = []) :
    ∃ b', b.chainInsert chain = some b' ∧ b'.EndsIn [] chain ∧ b.Keeps b' ∧ b'.contents = b.contents := by
  have hlast : b.lastWithData = 0 := by
    rcases hb.ends with hends | ⟨hzero, -⟩
    · rw [hnil] at hends
      exact absurd hends (not_dataEnds_nil _)
    · exact hzero
  have hcontents : b.contents = [] := by rw [contents, hnil]; rfl
  have hsize : chain.size = 0 := (Window.contents_eq_nil_iff _).mp hchain
  have htotal : b.totalLen = 0 := by rw [hb.total, hcontents]; rfl
  unfold chainInsert
  rw [hnil, List.getElem?_nil, Option.isNone_none, if_pos rfl, if_pos ⟨hlast, rfl⟩]
  have hin : Evbuffer.EndsIn { b with chains := [chain], totalLen := b.totalLen + chain.size } [] chain :=
    ⟨rfl, hlast⟩
  have hsame : Evbuffer.contents { b with chains := [chain], totalLen := b.totalLen + chain.size } = [] := by
    rw [hin.contents_eq, hchain]
    rfl
  refine ⟨_, rfl, hin, ⟨⟨?_, ?_⟩, fun _ => hin.packed, rfl, rfl⟩, hsame.trans hcontents.symm⟩
  · rw [hsame]
    simp only [htotal, hsize, List.length_nil]
  · simp only [hlast]
    exact ends_singleton _

/-- **`evbuffer_add`** adds bytes at the end, where there is no empty chain behind the data. -/
theorem add_spec {b : Evbuffer} (h : b.Valid) (hp : b.Packed) (mem : Malloc) (data : List UInt8) :
    ∃ r b', b.add mem data = some (r, b') ∧ b.Keeps b' ∧
      (r = 0 ∧ b'.contents = b.contents ++ data ∨
        r = -1 ∧ b'.contents = b.contents ∧ (b.freezeEnd = true ∨ ∃ n, mem n = none)) := by
  unfold add
  by_cases hfreeze : b.freezeEnd = true
  · rw [if_pos hfreeze]
    exact ⟨-1, b, rfl, h.keeps, .inr ⟨rfl, rfl, .inl hfreeze⟩⟩
  rw [if_neg hfreeze]
  rcases List.eq_nil_or_concat b.chains with hnil | ⟨chains, chain, hchains⟩
  · rw [hnil, List.getLast?_nil]
    dsimp only
    cases hnew : chainNew mem data.length with
    | none => exact ⟨-1, b, rfl, h.keeps, .inr ⟨rfl, rfl, .inr ⟨_, Option.map_eq_none_iff.mp hnew⟩⟩⟩
    | some chain =>
        obtain ⟨b₁, hinsert, hin, hkeeps, hsame⟩ := exists_chainInsert_nil h hnil (chainNew_spec hnew).1
        obtain ⟨r, b', hadd, hkeeps', hresult⟩ := addLast_spec hkeeps.valid hin mem data
        dsimp only
        rw [hinsert, Option.bind_eq_bind, Option.bind_some, hadd]
        rw [hsame] at hresult
        exact ⟨r, b', rfl, hkeeps.trans hkeeps', hresult.imp_right fun hr => ⟨hr.1, hr.2.1, .inr hr.2.2⟩⟩
  · rw [List.concat_eq_append] at hchains
    have hin : b.EndsIn chains chain := by
      refine ⟨hchains, ?_⟩
      rcases hp with hnil | hlast
      · rw [hnil] at hchains
        simp at hchains
      · rw [hchains, List.length_append, List.length_singleton] at hlast
        omega
    obtain ⟨r, b', hadd, hkeeps, hresult⟩ := addLast_spec h hin mem data
    rw [hchains, List.getLast?_concat]
    exact ⟨r, b', hadd, hkeeps, hresult.imp_right fun hr => ⟨hr.1, hr.2.1, .inr hr.2.2⟩⟩

end Evbuffer

end CocInside.LibEvent
