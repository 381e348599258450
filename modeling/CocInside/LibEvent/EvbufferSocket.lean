import CocInside.LibEvent.Evbuffer
import Mathlib

/-!
# `evbuffer` and the socket

Bytes are read from a socket into the free space behind the data, which may be in several chains, and
written to it from the chains at the front, `readv` and `writev` being the system calls.

* `expandFast`: there is enough space behind the data. `read`: `evbuffer_read`, which takes what is there in
  pieces, one for each chain.
* `writeAtmost`: `evbuffer_write_atmost`, which offers the chains as they are and drops what was taken.
* `exists_readv`: the pieces that the system writes are those that are then in use.
* `read_spec`, `writeAtmost_spec`: the bytes that are read come behind the contents, the bytes that are
  written leave at the front.

Left out is `sendfile`.

Source: `event/buffer.c`.
-/

namespace CocInside.LibEvent

open CocInside.Lib

namespace Evbuffer

/-! ## Reading -/

/-- The loop of `_evbuffer_expand_fast` from `*last_with_datap` on: whether there is space enough in
at most `n` chains, how many are used and what they have. An empty chain is aligned on the way.
Source: `_evbuffer_expand_fast`. -/
def expandLoop (datlen n : ℕ) (atFirst : Bool) (used avail : ℕ) :
    List Chain → Option (Bool × ℕ × ℕ × List Chain)
  | [] => some (false, used, avail, [])
  | chain :: chains =>
      if chain.size ≠ 0 ∧ !atFirst then none
      else
        let used' := if chain.size = 0 ∨ chain.room ≠ 0 then used + 1 else used
        let avail' := avail + if chain.size = 0 then chain.cells.length else chain.room
        let chain := if chain.size = 0 then chain.rewind else chain
        if avail' ≥ datlen then some (true, used', avail', chain :: chains)
        else if used' = n then some (false, used', avail', chain :: chains)
        else
          (expandLoop datlen n false used' avail' chains).map fun r =>
            (r.1, r.2.1, r.2.2.1, chain :: r.2.2.2)

/-- The end of `_evbuffer_expand_fast`: all empty chains make way for one that is large enough.
Source: `_evbuffer_expand_fast`. -/
def replaceEmpty (mem : Malloc) (b : Evbuffer) (datlen : ℕ) : Option (ℤ × Evbuffer) := do
  let chain ← b.chains[b.lastWithData]?
  if chain.size = 0 then
    if b.lastWithData = 0 ∧ b.chains.all (·.size = 0) then
      match chainNew mem datlen with
      | none => some (-1, { b with chains := [], lastWithData := 0, totalLen := 0 })
      | some tmp => some (0, { b with chains := [tmp], lastWithData := 0 })
    else none
  else
    let kept := b.chains.take (b.lastWithData + 1)
    if (b.chains.drop (b.lastWithData + 1)).all (·.size = 0) then
      match chainNew mem (datlen - chain.room) with
      | none => some (-1, { b with chains := kept })
      | some tmp => some (0, { b with chains := kept ++ [tmp] })
    else none

/-- Source: `_evbuffer_expand_fast`. -/
def expandFast (mem : Malloc) (b : Evbuffer) (datlen n : ℕ) : Option (ℤ × Evbuffer) :=
  if b.chains = [] then
    match chainNew mem datlen with
    | none => some (-1, b)
    | some chain => (b.chainInsert chain).map fun b => (0, b)
  else do
    let r ← expandLoop datlen n true 0 0 (b.chains.drop b.lastWithData)
    let b := { b with chains := b.chains.take b.lastWithData ++ r.2.2.2 }
    if r.1 then some (0, b)
    else if r.2.1 < n then
      match chainNew mem (datlen - r.2.2.1) with
      | none => some (-1, b)
      | some tmp => some (0, { b with chains := b.chains ++ [tmp] })
    else b.replaceEmpty mem datlen

/-- With `exact`: how much is to be read into each chain. Source: `_evbuffer_read_setup_vecs`. -/
def readSetupVecs (nVecs howmuch : ℕ) : List Chain → Option (List ℕ)
  | [] => if nVecs = 0 ∨ howmuch = 0 then some [] else none
  | chain :: chains =>
      match nVecs with
      | 0 => some []
      | nVecs + 1 =>
          if howmuch = 0 then some []
          else
            let avail := min chain.room howmuch
            (readSetupVecs nVecs (howmuch - avail) chains).map (avail :: ·)

/-- `readv`: the bytes go into the free space of the chains, one after the other. Source:
`evbuffer_read`. -/
def readv (bytes : List UInt8) : List ℕ → List Chain → Option (List Chain)
  | [], chains => some chains
  | _ :: _, [] => none
  | len :: lens, chain :: chains => do
      let chain ← chain.poke (chain.start + chain.size) (bytes.take len)
      let chains ← readv (bytes.drop len) lens chains
      some (chain :: chains)

/-- The loop at the end of `evbuffer_read`: what was read is in use, and in which chain it ends.
Source: `evbuffer_read`. -/
def commitLoop (nVecs remaining : ℕ) : List Chain → Option (Option ℕ × List Chain)
  | [] => if nVecs = 0 then some (none, []) else none
  | chain :: chains =>
      match nVecs with
      | 0 => some (none, chain :: chains)
      | nVecs + 1 =>
          if chain.room < remaining then do
            let chain' ← chain.extend chain.room
            let r ← commitLoop nVecs (remaining - chain.room) chains
            some (r.1.map (· + 1), chain' :: r.2)
          else (chain.extend remaining).map fun chain => (some 0, chain :: chains)

/-- Source: `event/buffer.c`, `EVBUFFER_MAX_READ`. -/
def maxRead : ℕ := 4096

/-- How much `evbuffer_read` reads at most. `readable` is what `ioctl` says there is. Source:
`evbuffer_read`. -/
def readLimit (readable howmuch : ℤ) : ℕ :=
  let n : ℤ := if readable ≤ 0 ∨ readable > maxRead then maxRead else readable
  (if howmuch < 0 ∨ howmuch > n then n else howmuch).toNat

/-- `incoming` is what the socket has, `none` for an error; `nVecs` is `NUM_READ_IOVEC`, or 2 on
Windows. Beside the result, the bytes that were taken from the socket. Source: `evbuffer_read`. -/
def read (mem : Malloc) (b : Evbuffer) (nVecs : ℕ) (readable howmuch : ℤ)
    (incoming : Option (List UInt8)) : Option (ℤ × List UInt8 × Evbuffer) :=
  if b.freezeEnd then some (-1, [], b)
  else do
    let limit := readLimit readable howmuch
    let r ← b.expandFast mem limit 4
    let b := r.2
    if r.1 < 0 then some (-1, [], b)
    else
      let chain ← b.chains[b.lastWithData]?
      let place := if chain.room = 0 then b.lastWithData + 1 else b.lastWithData
      let lens ← readSetupVecs nVecs limit (b.chains.drop place)
      match incoming.map (·.take lens.sum) with
      | none => some (-1, [], b)
      | some [] => some (0, [], b)
      | some bytes => do
          let chains ← readv bytes lens (b.chains.drop place)
          let c ← commitLoop lens.length bytes.length chains
          some (bytes.length, bytes, { b with
            chains := b.chains.take place ++ c.2
            lastWithData := (c.1.map (place + ·)).getD b.lastWithData
            totalLen := b.totalLen + bytes.length })

/-! ## Writing -/

/-- The loop: what is offered to the socket. Source: `evbuffer_write_iovec`. -/
def writeIovec (vecs howmuch : ℕ) : List Chain → List (List UInt8)
  | [] => []
  | chain :: chains =>
      if vecs = 0 ∨ howmuch = 0 then []
      else if howmuch ≥ chain.size then
        chain.contents :: writeIovec (vecs - 1) (howmuch - chain.size) chains
      else [chain.contents.take howmuch]

/-- Not on Windows. Source: `event/buffer.c`, `NUM_WRITE_IOVEC`. -/
def numWriteIovec : ℕ := 128

/-- The socket takes `accepted` bytes of what it is offered, `none` for an error. Beside the result,
the bytes that it took. Source: `evbuffer_write_atmost`. -/
def writeAtmost (b : Evbuffer) (howmuch : ℤ) (accepted : Option ℕ) :
    Option (ℤ × List UInt8 × Evbuffer) :=
  if b.freezeStart then some (-1, [], b)
  else
    let howmuch := if howmuch < 0 ∨ howmuch > b.totalLen then b.totalLen else howmuch.toNat
    if howmuch = 0 then some (-1, [], b)
    else
      let iov := writeIovec numWriteIovec howmuch b.chains
      if iov = [] then some (0, [], b)
      else
        match accepted with
        | none => some (-1, [], b)
        | some n => do
            let sent := iov.flatten.take n
            let b ← if sent.length > 0 then (b.drain sent.length).map Prod.snd else some b
            some (sent.length, sent, b)

/-! ## Where the data ends -/

/-- `chain` is `*last_with_datap`: there is no data behind it. -/
structure Splits (b : Evbuffer) (before : List Chain) (chain : Chain) (behind : List Chain) : Prop where
  chains_eq : b.chains = before ++ chain :: behind
  last_eq : b.lastWithData = before.length
  behind_nil : (parts behind).flatten = []
  first : before = [] ∨ chain.contents ≠ []

/-- The data ends in some part, behind which there is none. -/
lemma exists_splits_of_dataEnds {chains : List Chain} {l : ℕ} (h : DataEnds l (parts chains)) :
    ∃ before chain behind, chains = before ++ chain :: behind ∧ l = before.length ∧
      (parts behind).flatten = [] ∧ chain.contents ≠ [] := by
  induction chains generalizing l with
  | nil => exact absurd h (not_dataEnds_nil l)
  | cons chain chains ih =>
      cases l with
      | zero => exact ⟨[], chain, chains, rfl, rfl, h.2, h.1⟩
      | succ l =>
          obtain ⟨before, c, behind, hchains, hl, hbehind, hc⟩ := ih h
          exact ⟨chain :: before, c, behind, by rw [hchains]; rfl, by rw [hl]; rfl, hbehind, hc⟩

/-- There is such a chain if there is any. -/
lemma Valid.exists_splits {b : Evbuffer} (h : b.Valid) (hne : b.chains ≠ []) :
    ∃ before chain behind, b.Splits before chain behind := by
  rcases h.ends with hends | ⟨hzero, hnil⟩
  · obtain ⟨before, chain, behind, hchains, hl, hbehind, hchain⟩ := exists_splits_of_dataEnds hends
    exact ⟨before, chain, behind, hchains, hl, hbehind, .inr hchain⟩
  · obtain ⟨chain, behind, hchains⟩ := List.exists_cons_of_ne_nil hne
    rw [hchains, parts_cons, List.flatten_cons, List.append_eq_nil_iff] at hnil
    exact ⟨[], chain, behind, hchains, hzero, hnil.2, .inl rfl⟩

namespace Splits

variable {b : Evbuffer} {before behind : List Chain} {chain : Chain}

/-- The chain at the pointer, -/
lemma getElem?_eq (h : b.Splits before chain behind) : b.chains[b.lastWithData]? = some chain := by
  rw [h.chains_eq, h.last_eq]
  simp

/-- those from there on, -/
lemma drop_eq (h : b.Splits before chain behind) : b.chains.drop b.lastWithData = chain :: behind := by
  rw [h.chains_eq, h.last_eq, List.drop_left]

/-- and those before. -/
lemma take_eq (h : b.Splits before chain behind) : b.chains.take b.lastWithData = before := by
  rw [h.chains_eq, h.last_eq, List.take_left]

/-- What is in the buffer. -/
lemma contents_eq (h : b.Splits before chain behind) :
    b.contents = (parts before).flatten ++ chain.contents := by
  rw [contents, h.chains_eq, parts_append, parts_cons, List.flatten_append, List.flatten_cons,
    h.behind_nil, List.append_nil]

/-- The pointer is right. -/
lemma ends (h : b.Splits before chain behind) : Ends b.lastWithData (parts b.chains) := by
  rw [h.chains_eq, h.last_eq, parts_append, parts_cons, ← length_parts]
  by_cases hchain : chain.contents = []
  · obtain rfl := h.first.resolve_right fun hne => hne hchain
    refine .inr ⟨rfl, ?_⟩
    rw [hchain]
    exact h.behind_nil
  · have hlast : DataEnds 0 (chain.contents :: parts behind) := ⟨hchain, h.behind_nil⟩
    exact .inl (hlast.append _)

/-- The chains behind the data may be others. -/
lemma congr (h : b.Splits before chain behind) (hb : b.Valid) (chain' : Chain) (behind' : List Chain)
    (hchain : chain'.contents = chain.contents) (hbehind : (parts behind').flatten = []) {b' : Evbuffer}
    (hb' : b' = { b with chains := before ++ chain' :: behind' }) :
    b'.Splits before chain' behind' ∧ b'.Valid ∧ b'.contents = b.contents := by
  subst hb'
  have hsplits : Evbuffer.Splits { b with chains := before ++ chain' :: behind' } before chain' behind' :=
    ⟨rfl, h.last_eq, hbehind, by rw [hchain]; exact h.first⟩
  have hcontents : Evbuffer.contents { b with chains := before ++ chain' :: behind' } = b.contents := by
    rw [hsplits.contents_eq, hchain, h.contents_eq]
  refine ⟨hsplits, ⟨?_, hsplits.ends⟩, hcontents⟩
  rw [hcontents]
  exact hb.total

end Splits

/-! ## Space, specified -/

/-- The free space of chains. -/
def space (chains : List Chain) : ℕ := (chains.map Window.room).sum

/-- The room of the chains adds up. -/
@[simp] lemma space_cons (chain : Chain) (chains : List Chain) :
    space (chain :: chains) = chain.room + space chains := rfl

/-- Chains without data are empty. -/
lemma all_size_eq_zero {chains : List Chain} (h : (parts chains).flatten = []) :
    chains.all (·.size = 0) = true := by
  rw [List.all_eq_true]
  intro chain hmem
  rw [decide_eq_true_eq, ← Window.contents_eq_nil_iff]
  exact List.flatten_eq_nil_iff.mp h _ (List.mem_map_of_mem hmem)

/-- The loop of `expandFast`: it counts space that is there, and changes no contents. -/
lemma exists_expandLoop (datlen n : ℕ) {chains : List Chain} (atFirst : Bool) (used avail : ℕ)
    (h : (parts (if atFirst then chains.tail else chains)).flatten = []) :
    ∃ ok used' avail' chains', expandLoop datlen n atFirst used avail chains =
        some (ok, used', avail', chains') ∧ parts chains' = parts chains ∧
      avail' ≤ avail + space chains' ∧ (ok = true → datlen ≤ avail') := by
  induction chains generalizing atFirst used avail with
  | nil => exact ⟨false, used, avail, [], rfl, rfl, Nat.le_add_right _ _, nofun⟩
  | cons chain chains ih =>
      have hrest : (parts chains).flatten = [] := by
        cases atFirst with
        | true => exact h
        | false => exact (List.append_eq_nil_iff.mp h).2
      have hassert : ¬ (chain.size ≠ 0 ∧ (!atFirst) = true) := by
        rintro ⟨hsize, hat⟩
        cases atFirst with
        | true => cases hat
        | false => exact hsize ((Window.contents_eq_nil_iff _).mp (List.append_eq_nil_iff.mp h).1)
      rw [expandLoop, if_neg hassert]
      -- the chain, aligned if it is empty, has the space that is counted
      generalize hchain : (if chain.size = 0 then chain.rewind else chain) = chain'
      have hsame : chain'.contents = chain.contents := by
        rw [← hchain]
        split
        · next hsize => exact Window.contents_rewind hsize
        · rfl
      have hroom : (if chain.size = 0 then chain.cells.length else chain.room) = chain'.room := by
        rw [← hchain]
        split
        · next hsize => rw [Window.room_rewind, hsize, Nat.sub_zero]
        · rfl
      dsimp only
      rw [hroom]
      generalize (if chain.size = 0 ∨ chain.room ≠ 0 then used + 1 else used) = used'
      have hparts : parts (chain' :: chains) = parts (chain :: chains) := by
        rw [parts_cons, parts_cons, hsame]
      have hspace : avail + chain'.room ≤ avail + space (chain' :: chains) := by
        rw [space_cons]
        omega
      by_cases hok : avail + chain'.room ≥ datlen
      · exact ⟨true, _, _, _, if_pos hok, hparts, hspace, fun _ => hok⟩
      rw [if_neg hok]
      by_cases hn : used' = n
      · exact ⟨false, _, _, _, if_pos hn, hparts, hspace, nofun⟩
      rw [if_neg hn]
      obtain ⟨ok, used'', avail', chains', hloop, hsame', havail, henough⟩ :=
        ih false used' (avail + chain'.room) hrest
      rw [hloop, Option.map_some]
      refine ⟨ok, used'', avail', chain' :: chains', rfl, ?_, ?_, henough⟩
      · rw [parts_cons, parts_cons, hsame, hsame']
      · rw [space_cons]
        omega

/-- What `expandFast` gives: the same contents, and enough space if it succeeds. -/
structure Expanded (b b' : Evbuffer) (r : ℤ) (datlen : ℕ) : Prop where
  valid : b'.Valid
  contents_eq : b'.contents = b.contents
  freezeStart : b'.freezeStart = b.freezeStart
  freezeEnd : b'.freezeEnd = b.freezeEnd
  result : r = 0 ∧ b'.chains ≠ [] ∧ datlen ≤ space (b'.chains.drop b'.lastWithData) ∨ r = -1

/-- The end of `expandFast`. -/
lemma Splits.replaceEmpty_spec {b : Evbuffer} {before behind : List Chain} {chain : Chain}
    (h : b.Splits before chain behind) (hb : b.Valid) (mem : Malloc) (datlen : ℕ) :
    ∃ r b', b.replaceEmpty mem datlen = some (r, b') ∧ b.Expanded b' r datlen := by
  unfold replaceEmpty
  rw [h.getElem?_eq, Option.bind_eq_bind, Option.bind_some]
  by_cases hsize : chain.size = 0
  · -- there is no data at all
    have hempty : chain.contents = [] := (Window.contents_eq_nil_iff _).mpr hsize
    obtain rfl := h.first.resolve_right fun hne => hne hempty
    have hlast : b.lastWithData = 0 := h.last_eq
    have hnil : b.contents = [] := by rw [h.contents_eq, hempty]; rfl
    have htotal : b.totalLen = 0 := by rw [hb.total, hnil]; rfl
    rw [if_pos hsize, if_pos ⟨hlast, all_size_eq_zero hnil⟩]
    cases hnew : chainNew mem datlen with
    | none => exact ⟨-1, _, rfl, ⟨rfl, .inr ⟨rfl, rfl⟩⟩, hnil.symm, rfl, rfl, .inr rfl⟩
    | some tmp =>
        obtain ⟨htmp, -, hroom⟩ := chainNew_spec hnew
        have hnil' : Evbuffer.contents { b with chains := [tmp], lastWithData := 0 } = [] := by
          simp [contents, parts, htmp]
        refine ⟨0, _, rfl, ⟨?_, ends_singleton _⟩, hnil'.trans hnil.symm, rfl, rfl,
          .inl ⟨rfl, List.cons_ne_nil _ _, ?_⟩⟩
        · rw [hnil']
          exact htotal
        · rw [List.drop_zero, space_cons]
          omega
  · have htake : b.chains.take (b.lastWithData + 1) = before ++ [chain] := by
      rw [h.chains_eq, h.last_eq, List.append_cons, List.take_left' (by simp)]
    have hdrop : b.chains.drop (b.lastWithData + 1) = behind := by
      rw [h.chains_eq, h.last_eq, List.append_cons, List.drop_left' (by simp)]
    rw [if_neg hsize, hdrop, if_pos (all_size_eq_zero h.behind_nil), htake]
    cases hnew : chainNew mem (datlen - chain.room) with
    | none =>
        obtain ⟨-, hvalid, hsame⟩ := h.congr hb chain [] rfl rfl rfl
        exact ⟨-1, _, rfl, hvalid, hsame, rfl, rfl, .inr rfl⟩
    | some tmp =>
        obtain ⟨htmp, -, hroom⟩ := chainNew_spec hnew
        obtain ⟨hsplits, hvalid, hsame⟩ := h.congr hb chain [tmp] rfl (by simp [parts, htmp]) rfl
        dsimp only
        rw [List.append_assoc, List.singleton_append]
        refine ⟨0, _, rfl, hvalid, hsame, rfl, rfl, .inl ⟨rfl, ?_, ?_⟩⟩
        · simp
        · rw [hsplits.drop_eq, space_cons, space_cons]
          omega

/-- **`_evbuffer_expand_fast`** makes space behind the data. -/
theorem expandFast_spec {b : Evbuffer} (h : b.Valid) (mem : Malloc) (datlen n : ℕ) :
    ∃ r b', b.expandFast mem datlen n = some (r, b') ∧ b.Expanded b' r datlen := by
  unfold expandFast
  by_cases hnil : b.chains = []
  · rw [if_pos hnil]
    cases hnew : chainNew mem datlen with
    | none => exact ⟨-1, b, rfl, h, rfl, rfl, rfl, .inr rfl⟩
    | some chain =>
        obtain ⟨hchain, -, hroom⟩ := chainNew_spec hnew
        obtain ⟨b', hinsert, hin, hkeeps, hsame⟩ := exists_chainInsert_nil h hnil hchain
        dsimp only
        rw [hinsert, Option.map_some]
        refine ⟨0, b', rfl, hkeeps.valid, hsame, hkeeps.freezeStart, hkeeps.freezeEnd, .inl ⟨rfl, ?_, ?_⟩⟩
        · rw [hin.chains_eq]
          simp
        · rw [hin.chains_eq, hin.last_eq]
          exact Nat.le_trans hroom (Nat.le_add_right _ _)
  rw [if_neg hnil]
  obtain ⟨before, chain, behind, hsplits⟩ := h.exists_splits hnil
  obtain ⟨ok, used, avail, chains, hloop, hparts, havail, henough⟩ :=
    @exists_expandLoop datlen n (chain :: behind) true 0 0 hsplits.behind_nil
  rw [hsplits.drop_eq, hsplits.take_eq, hloop, Option.bind_eq_bind, Option.bind_some]
  dsimp only
  -- the chains are the same but for the place of the empty ones
  cases chains with
  | nil => cases hparts
  | cons chain' behind' =>
      rw [parts_cons, parts_cons, List.cons.injEq] at hparts
      obtain ⟨hsplits', hvalid, hsame⟩ :=
        hsplits.congr h chain' behind' hparts.1 (hparts.2 ▸ hsplits.behind_nil) rfl
      rw [Nat.zero_add] at havail
      by_cases hok : ok = true
      · rw [if_pos hok]
        refine ⟨0, _, rfl, hvalid, hsame, rfl, rfl, .inl ⟨rfl, by simp, ?_⟩⟩
        rw [hsplits'.drop_eq]
        exact Nat.le_trans (henough hok) havail
      rw [if_neg hok]
      by_cases hused : used < n
      · rw [if_pos hused]
        cases hnew : chainNew mem (datlen - avail) with
        | none => exact ⟨-1, _, rfl, hvalid, hsame, rfl, rfl, .inr rfl⟩
        | some tmp =>
            obtain ⟨htmp, -, hroom⟩ := chainNew_spec hnew
            obtain ⟨hsplits'', hvalid', hsame'⟩ := hsplits'.congr hvalid chain' (behind' ++ [tmp]) rfl
              (by rw [parts_append, List.flatten_append, hsplits'.behind_nil]; simp [parts, htmp]) rfl
            dsimp only
            rw [List.append_assoc, List.cons_append]
            refine ⟨0, _, rfl, hvalid', hsame'.trans hsame, rfl, rfl, .inl ⟨rfl, by simp, ?_⟩⟩
            rw [hsplits''.drop_eq]
            simp only [space, List.map_cons, List.map_append, List.sum_cons, List.sum_append, List.map_nil,
              List.sum_nil] at havail ⊢
            omega
      · rw [if_neg hused]
        obtain ⟨r, b', hreplace, hexpanded⟩ := hsplits'.replaceEmpty_spec hvalid mem datlen
        exact ⟨r, b', hreplace, hexpanded.valid, hexpanded.contents_eq.trans hsame,
          hexpanded.freezeStart, hexpanded.freezeEnd, hexpanded.result⟩

/-! ## Reading, specified -/

/-- The pieces are found where there is space enough, and are not more than what is wanted. -/
lemma exists_readSetupVecs {chains : List Chain} (nVecs howmuch : ℕ) (h : howmuch ≤ space chains) :
    ∃ lens, readSetupVecs nVecs howmuch chains = some lens ∧ lens.sum ≤ howmuch := by
  induction chains generalizing nVecs howmuch with
  | nil =>
      obtain rfl : howmuch = 0 := Nat.le_zero.mp h
      exact ⟨[], by rw [readSetupVecs, if_pos (Or.inr rfl)], Nat.le_refl 0⟩
  | cons chain chains ih =>
      cases nVecs with
      | zero => exact ⟨[], rfl, Nat.zero_le _⟩
      | succ nVecs =>
          rw [readSetupVecs]
          by_cases hzero : howmuch = 0
          · exact ⟨[], if_pos hzero, Nat.zero_le _⟩
          rw [space_cons] at h
          obtain ⟨lens, hlens, hsum⟩ := ih nVecs (howmuch - min chain.room howmuch) (by omega)
          rw [if_neg hzero]
          dsimp only
          rw [hlens, Option.map_some]
          refine ⟨_, rfl, ?_⟩
          rw [List.sum_cons]
          omega

/-- What the pieces of some chains look like: the first chain's, and those of the others. -/
lemma readSetupVecs_cons {chain : Chain} {chains : List Chain} {nVecs howmuch len : ℕ} {lens : List ℕ}
    (h : readSetupVecs nVecs howmuch (chain :: chains) = some (len :: lens)) :
    len = min chain.room howmuch ∧
      ∃ nVecs', readSetupVecs nVecs' (howmuch - len) chains = some lens := by
  cases nVecs with
  | zero => cases h
  | succ nVecs =>
      rw [readSetupVecs] at h
      split at h
      · cases h
      · dsimp only at h
        rw [Option.map_eq_some_iff] at h
        obtain ⟨lens', hlens, hcons⟩ := h
        cases hcons
        exact ⟨rfl, nVecs, hlens⟩

/-- There are no more pieces than chains. -/
lemma length_readSetupVecs_le {chains : List Chain} {nVecs howmuch : ℕ} {lens : List ℕ}
    (h : readSetupVecs nVecs howmuch chains = some lens) : lens.length ≤ chains.length := by
  induction chains generalizing nVecs howmuch lens with
  | nil =>
      rw [readSetupVecs] at h
      split at h <;> cases h
      exact Nat.le_refl 0
  | cons chain chains ih =>
      cases lens with
      | nil => exact Nat.zero_le _
      | cons len lens =>
          obtain ⟨-, nVecs', hlens⟩ := readSetupVecs_cons h
          exact Nat.succ_le_succ (ih hlens)

/-- When all bytes are written, the other pieces stay as they are. -/
lemma readv_nil {lens : List ℕ} {chains : List Chain} (h : lens.length ≤ chains.length) :
    readv [] lens chains = some chains := by
  induction lens generalizing chains with
  | nil => rfl
  | cons len lens ih =>
      cases chains with
      | nil => cases h
      | cons chain chains =>
          rw [readv, List.take_nil, List.drop_nil, Window.poke_nil, Option.bind_eq_bind, Option.bind_some,
            ih (Nat.le_of_succ_le_succ h), Option.bind_eq_bind, Option.bind_some]

/-- No data behind some parts, so none behind the next. -/
lemma flatten_tail_eq_nil {chains : List Chain} (h : (parts chains).flatten = []) :
    (parts chains.tail).flatten = [] := by
  cases chains with
  | nil => exact h
  | cons chain chains => exact (List.append_eq_nil_iff.mp h).2

/-- What `readv` writes to the pieces is what is then in use. -/
lemma exists_readv {chains : List Chain} {nVecs howmuch : ℕ} {lens : List ℕ} {bytes : List UInt8}
    (hlens : readSetupVecs nVecs howmuch chains = some lens) (hbytes : bytes.length ≤ lens.sum)
    (hsum : lens.sum ≤ howmuch) (hne : bytes ≠ []) (htail : (parts chains.tail).flatten = []) :
    ∃ written j chains', readv bytes lens chains = some written ∧
      commitLoop lens.length bytes.length written = some (some j, chains') ∧
      DataEnds j (parts chains') ∧ (parts chains').flatten = (parts chains).flatten ++ bytes := by
  induction chains generalizing nVecs howmuch lens bytes with
  | nil =>
      rw [List.length_eq_zero_iff.mp (Nat.le_zero.mp (length_readSetupVecs_le hlens))] at hbytes
      exact absurd (List.length_eq_zero_iff.mp (Nat.le_zero.mp hbytes)) hne
  | cons chain chains ih =>
      rw [List.tail_cons] at htail
      cases lens with
      | nil => exact absurd (List.length_eq_zero_iff.mp (Nat.le_zero.mp hbytes)) hne
      | cons len lens =>
          obtain ⟨hlen, nVecs', hlens'⟩ := readSetupVecs_cons hlens
          rw [List.sum_cons] at hbytes hsum
          have htake : (bytes.take len).length = min len bytes.length := List.length_take
          obtain ⟨v, u, hpoke, hroom, hextend, hcontents⟩ :=
            chain.exists_poke (bytes.take len) (by omega)
          rw [readv, hpoke, Option.bind_eq_bind, Option.bind_some, parts_cons, List.flatten_cons]
          by_cases hfits : bytes.length ≤ len
          · -- the bytes end in this chain
            rw [List.take_of_length_le hfits] at hextend hcontents
            rw [List.drop_eq_nil_of_le hfits, readv_nil (length_readSetupVecs_le hlens'),
              Option.bind_eq_bind, Option.bind_some]
            refine ⟨_, 0, u :: chains, rfl, ?_, ⟨?_, htail⟩, ?_⟩
            · rw [List.length_cons, commitLoop, if_neg (by omega), hextend, Option.map_some]
            · rw [hcontents]
              exact List.append_ne_nil_of_right_ne_nil _ hne
            · rw [parts_cons, List.flatten_cons, hcontents, htail, List.append_nil, List.append_nil]
          · -- the chain is filled, as the piece is all of its space
            have hfull : (bytes.take len).length = v.room := by omega
            have hrest : (bytes.drop len).length = bytes.length - len := List.length_drop
            obtain ⟨written, j, chains', hreadv, hcommit, hends, hflatten⟩ :=
              @ih _ _ _ (bytes.drop len) hlens' (by omega) (by omega)
                (List.ne_nil_of_length_pos (by omega))
                (flatten_tail_eq_nil htail)
            rw [hreadv, Option.bind_eq_bind, Option.bind_some]
            refine ⟨_, j + 1, u :: chains', rfl, ?_, hends, ?_⟩
            · rw [hrest, show len = v.room by omega] at hcommit
              rw [List.length_cons, commitLoop, if_pos (by omega), ← hfull, hextend, hfull,
                Option.bind_eq_bind, Option.bind_some, hcommit]
              rfl
            · rw [parts_cons, List.flatten_cons, hcontents, hflatten, htail, List.nil_append, List.append_nil,
                List.append_assoc, List.take_append_drop]

/-- The chains that are read into, and those before. -/
lemma Splits.exists_place {b : Evbuffer} {before behind : List Chain} {chain : Chain}
    (h : b.Splits before chain behind) {limit : ℕ} (hspace : limit ≤ space (b.chains.drop b.lastWithData)) :
    ∃ front back, (if chain.room = 0 then b.lastWithData + 1 else b.lastWithData) = front.length ∧
      b.chains = front ++ back ∧ limit ≤ space back ∧ (parts back.tail).flatten = [] := by
  rw [h.drop_eq, space_cons] at hspace
  by_cases hroom : chain.room = 0
  · refine ⟨before ++ [chain], behind, ?_, ?_, by omega, flatten_tail_eq_nil h.behind_nil⟩
    · rw [if_pos hroom, h.last_eq, List.length_append, List.length_singleton]
    · rw [h.chains_eq, List.append_cons]
  · exact ⟨before, chain :: behind, by rw [if_neg hroom, h.last_eq], h.chains_eq, hspace, h.behind_nil⟩

/-- The buffer with bytes behind the contents. -/
structure Gets (b b' : Evbuffer) (bytes : List UInt8) : Prop where
  valid : b'.Valid
  contents_eq : b'.contents = b.contents ++ bytes
  freezeStart : b'.freezeStart = b.freezeStart
  freezeEnd : b'.freezeEnd = b.freezeEnd

/-- Space brings no bytes. -/
lemma Expanded.gets {b b' : Evbuffer} {r : ℤ} {datlen : ℕ} (h : b.Expanded b' r datlen) :
    b.Gets b' [] :=
  ⟨h.valid, by rw [h.contents_eq, List.append_nil], h.freezeStart, h.freezeEnd⟩

/-- The end of `read`, when bytes have come. -/
lemma Expanded.exists_commit {b b' : Evbuffer} {r : ℤ} {limit nVecs : ℕ} (h : b.Expanded b' r limit)
    {front back : List Chain} (hchains : b'.chains = front ++ back) (htail : (parts back.tail).flatten = [])
    {lens : List ℕ} (hlens : readSetupVecs nVecs limit back = some lens) (hsum : lens.sum ≤ limit)
    {bytes : List UInt8} (hbytes : bytes.length ≤ lens.sum) (hne : bytes ≠ []) :
    ∃ written j chains', readv bytes lens back = some written ∧
      commitLoop lens.length bytes.length written = some (some j, chains') ∧
      b.Gets { b' with
        chains := front ++ chains'
        lastWithData := front.length + j
        totalLen := b'.totalLen + bytes.length } bytes := by
  obtain ⟨written, j, chains', hreadv, hcommit, hends, hflatten⟩ :=
    exists_readv hlens hbytes hsum hne htail
  have hdata : (parts (front ++ chains')).flatten = b.contents ++ bytes := by
    rw [← h.contents_eq, contents, hchains, parts_append, parts_append, List.flatten_append,
      List.flatten_append, hflatten, List.append_assoc]
  refine ⟨written, j, chains', hreadv, hcommit, ⟨?_, .inl ?_⟩, hdata, h.freezeStart, h.freezeEnd⟩
  · rw [contents, hdata, List.length_append, ← h.contents_eq, ← h.valid.total]
  · rw [parts_append, ← length_parts]
    exact hends.append _

/-- No more is read than the limit that is given. -/
lemma readLimit_le (readable : ℤ) {howmuch : ℤ} (h : 0 ≤ howmuch) :
    (readLimit readable howmuch : ℤ) ≤ howmuch := by
  unfold readLimit
  dsimp only
  split <;> split <;> omega

/-- **`evbuffer_read`** puts bytes of the socket behind the contents, no more than there may be. -/
theorem read_spec {b : Evbuffer} (h : b.Valid) (mem : Malloc) (nVecs : ℕ) (readable howmuch : ℤ)
    (incoming : Option (List UInt8)) :
    ∃ r bytes b', b.read mem nVecs readable howmuch incoming = some (r, bytes, b') ∧ b.Gets b' bytes ∧
      bytes <+: incoming.getD [] ∧ bytes.length ≤ readLimit readable howmuch ∧
      (r = bytes.length ∨ r = -1 ∧ bytes = []) := by
  unfold read
  by_cases hfreeze : b.freezeEnd = true
  · rw [if_pos hfreeze]
    exact ⟨-1, [], b, rfl, ⟨h, by rw [List.append_nil], rfl, rfl⟩, List.nil_prefix, Nat.zero_le _,
      .inr ⟨rfl, rfl⟩⟩
  rw [if_neg hfreeze]
  dsimp only
  generalize readLimit readable howmuch = limit
  obtain ⟨r, b₁, hexpand, hexpanded⟩ := expandFast_spec h mem limit 4
  have hgets := hexpanded.gets
  rw [hexpand, Option.bind_eq_bind, Option.bind_some]
  dsimp only
  rcases hexpanded.result with ⟨hr, hne, hspace⟩ | hr
  swap
  · rw [if_pos (by omega)]
    exact ⟨-1, [], b₁, rfl, hgets, List.nil_prefix, Nat.zero_le _, .inr ⟨rfl, rfl⟩⟩
  obtain ⟨before, chain, behind, hsplits⟩ := hexpanded.valid.exists_splits hne
  obtain ⟨front, back, hplace, hchains, hback, htail⟩ := hsplits.exists_place hspace
  obtain ⟨lens, hlens, hsum⟩ := exists_readSetupVecs nVecs limit hback
  have hdrop : b₁.chains.drop front.length = back := by rw [hchains, List.drop_left]
  have htake : b₁.chains.take front.length = front := by rw [hchains, List.take_left]
  rw [if_neg (by omega), hsplits.getElem?_eq, Option.bind_eq_bind, Option.bind_some, hplace, hdrop, htake,
    hlens, Option.bind_eq_bind, Option.bind_some]
  cases incoming with
  | none => exact ⟨-1, [], b₁, rfl, hgets, List.nil_prefix, Nat.zero_le _, .inr ⟨rfl, rfl⟩⟩
  | some incoming =>
      rw [Option.map_some]
      cases hbytes : incoming.take lens.sum with
      | nil => exact ⟨0, [], b₁, rfl, hgets, List.nil_prefix, Nat.zero_le _, .inl rfl⟩
      | cons byte more =>
          dsimp only
          rw [← hbytes]
          have hfits : (incoming.take lens.sum).length ≤ lens.sum := List.length_take_le _ _
          obtain ⟨written, j, chains', hreadv, hcommit, hgets'⟩ :=
            hexpanded.exists_commit hchains htail hlens hsum hfits (by rw [hbytes]; nofun)
          rw [hreadv, Option.bind_eq_bind, Option.bind_some, hcommit, Option.bind_eq_bind, Option.bind_some]
          exact ⟨_, _, _, rfl, hgets', List.take_prefix _ _, Nat.le_trans hfits hsum, .inl rfl⟩

/-! ## Writing, specified -/

/-- What is offered to the socket is at the front. -/
lemma isPrefix_writeIovec (chains : List Chain) (vecs howmuch : ℕ) :
    (writeIovec vecs howmuch chains).flatten <+: (parts chains).flatten := by
  induction chains generalizing vecs howmuch with
  | nil => exact List.nil_prefix
  | cons chain chains ih =>
      rw [writeIovec, parts_cons, List.flatten_cons]
      split
      · exact List.nil_prefix
      split
      · rw [List.flatten_cons]
        exact (List.prefix_append_right_inj _).mpr (ih _ _)
      · rw [List.flatten_singleton]
        exact (List.take_prefix _ _).trans (List.prefix_append _ _)

/-- **`evbuffer_write_atmost`** gives bytes from the front to the socket. -/
theorem writeAtmost_spec {b : Evbuffer} (h : b.Valid) (howmuch : ℤ) (accepted : Option ℕ) :
    ∃ r sent b', b.writeAtmost howmuch accepted = some (r, sent, b') ∧ b.Keeps b' ∧
      sent ++ b'.contents = b.contents ∧ (r = sent.length ∨ r = -1 ∧ sent = []) := by
  unfold writeAtmost
  by_cases hfreeze : b.freezeStart = true
  · exact ⟨-1, [], b, if_pos hfreeze, h.keeps, rfl, .inr ⟨rfl, rfl⟩⟩
  rw [if_neg hfreeze]
  generalize (if howmuch < 0 ∨ howmuch > b.totalLen then b.totalLen else howmuch.toNat) = limit
  dsimp only
  by_cases hzero : limit = 0
  · exact ⟨-1, [], b, if_pos hzero, h.keeps, rfl, .inr ⟨rfl, rfl⟩⟩
  rw [if_neg hzero]
  by_cases hnil : writeIovec numWriteIovec limit b.chains = []
  · exact ⟨0, [], b, if_pos hnil, h.keeps, rfl, .inl rfl⟩
  rw [if_neg hnil]
  cases accepted with
  | none => exact ⟨-1, [], b, rfl, h.keeps, rfl, .inr ⟨rfl, rfl⟩⟩
  | some n =>
      have hprefix : (writeIovec numWriteIovec limit b.chains).flatten.take n <+: b.contents :=
        (List.take_prefix _ _).trans (isPrefix_writeIovec _ _ _)
      dsimp only
      generalize (writeIovec numWriteIovec limit b.chains).flatten.take n = sent at hprefix ⊢
      by_cases hsent : sent.length > 0
      · obtain ⟨r, b', hdrain, hkeeps, hcontents, -⟩ := drain_spec h sent.length
        rw [if_pos hsent, hdrain, Option.map_some, Option.bind_eq_bind, Option.bind_some]
        refine ⟨_, sent, b', rfl, hkeeps, ?_, .inl rfl⟩
        rw [hcontents, if_neg hfreeze]
        exact List.prefix_iff_eq_append.mp hprefix
      · rw [if_neg hsent, Option.bind_eq_bind, Option.bind_some]
        refine ⟨_, sent, b, rfl, h.keeps, ?_, .inl rfl⟩
        rw [List.length_eq_zero_iff.mp (Nat.eq_zero_of_not_pos hsent), List.nil_append]

end Evbuffer

end CocInside.LibEvent
