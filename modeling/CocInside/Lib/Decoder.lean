import Mathlib.Data.List.Basic
import Mathlib.Data.List.GetD
import Mathlib.Data.Nat.Init
import Mathlib.Algebra.Order.Group.Nat
import Mathlib.Tactic.Common

/-!
# Decoders over a memory, with the accesses they make

A decoder reads bytes of a memory from a cursor on, and either succeeds with a value or fails; in
both cases it leaves a cursor. Besides the result, an `Outcome` records the accesses made on the
way, so that bounds can be stated: the memory is total, and nothing but the decoder itself keeps
it from reading past the end it was given. What a shift by too much yields is a part of the machine
(`Mem.overShift`), so that what is proved for every `Mem` holds whatever it yields.

* `Decoder` and its monad structure: a failure stops the rest.
* `Outcome.after`: an outcome with accesses made before it. `ShiftsBelow w`: accesses of which none
  is a shift by `w` or more.
* `Respects c o`: the outcome `o` of a call at `c` stayed inside the bytes left at `c`, and its
  cursor moved by what it took off the size. `Safe d`: every call does. Safety is closed under
  sequencing (`Safe.bind`).
* `Consumes d`: success takes at least one byte.
* `Holds mem a bs`: the bytes `bs` stand at address `a`. `Decodes d bs v`: wherever `bs` stand,
  `d` yields `v` and leaves the cursor right behind them. Closed under sequencing
  (`Decodes.bind`).
* `RefusesBelow d bs n`, `AcceptsFrom d bs n`: what `d` does when it is given only the first bytes
  of `bs`, fewer than `n` or at least `n`. Closed under sequencing as well.
-/

namespace CocInside.Lib

/-- The machine a decoder runs on: the bytes of its memory, and what it makes of `x` shifted left in
`w` bits by a count that is not below `w`. The language leaves such a shift undefined and machines
differ, so nothing is known of `overShift w x count`. -/
structure Mem where
  byte : ℕ → UInt8
  overShift : ℕ → ℕ → ℕ → ℕ

instance : CoeFun Mem fun _ => ℕ → UInt8 := ⟨Mem.byte⟩

/-- `x` shifted left by `count` in `w` bits. -/
def Mem.shiftLeft (mem : Mem) (w x count : ℕ) : ℕ :=
  if count < w then (x <<< count) % 2 ^ w else mem.overShift w x count % 2 ^ w

/-- A shift below the width is the shift cut to the width. -/
lemma Mem.shiftLeft_of_lt (mem : Mem) {w count : ℕ} (x : ℕ) (h : count < w) :
    mem.shiftLeft w x count = (x <<< count) % 2 ^ w := if_pos h

/-- A position and the number of bytes left from there on. -/
@[ext] structure Cursor where
  buf : ℕ
  leftSize : ℕ
  deriving DecidableEq, Repr

/-- An access whose legality depends on its argument: a byte read, or a shift by a count. -/
inductive Access where
  | read (addr : ℕ)
  | shift (count : ℕ)
  deriving DecidableEq, Repr

/-- What a call of a decoder leaves: the value if it succeeded, the cursor, the accesses. -/
@[ext] structure Outcome (α : Type) where
  val : Option α
  cur : Cursor
  trace : List Access
  deriving DecidableEq, Repr

/-- The outcome behind accesses made before. -/
def Outcome.after {α : Type} (tr : List Access) (o : Outcome α) : Outcome α :=
  ⟨o.val, o.cur, tr ++ o.trace⟩

/-- A decoder. -/
def Decoder (α : Type) : Type := Mem → Cursor → Outcome α

namespace Decoder

variable {α β : Type}

/-- Succeed without reading. -/
def ret (a : α) : Decoder α := fun _ c => ⟨some a, c, []⟩

/-- Fail without reading. -/
def fail : Decoder α := fun _ c => ⟨none, c, []⟩

/-- Run `d`, and `f` on its value from where it stopped. -/
def andThen (d : Decoder α) (f : α → Decoder β) : Decoder β := fun mem c =>
  match (d mem c).val with
  | none => ⟨none, (d mem c).cur, (d mem c).trace⟩
  | some a =>
      let o := f a mem (d mem c).cur
      ⟨o.val, o.cur, (d mem c).trace ++ o.trace⟩

instance : Monad Decoder where
  pure := ret
  bind := andThen

/-- A constant decoder reads nothing. -/
lemma pure_apply (a : α) (mem : Mem) (c : Cursor) :
    (pure a : Decoder α) mem c = ⟨some a, c, []⟩ := rfl

/-- Sequencing after a failure. -/
lemma bind_of_none {d : Decoder α} {f : α → Decoder β} {mem : Mem} {c : Cursor}
    (h : (d mem c).val = none) :
    (d >>= f) mem c = ⟨none, (d mem c).cur, (d mem c).trace⟩ := by
  show andThen d f mem c = _
  simp [andThen, h]

/-- Sequencing after a success. -/
lemma bind_of_some {d : Decoder α} {f : α → Decoder β} {mem : Mem} {c : Cursor} {a : α}
    (h : (d mem c).val = some a) :
    (d >>= f) mem c = ⟨(f a mem (d mem c).cur).val, (f a mem (d mem c).cur).cur,
      (d mem c).trace ++ (f a mem (d mem c).cur).trace⟩ := by
  show andThen d f mem c = _
  simp [andThen, h]

/-- Sequencing looks at what follows only where the first part stopped. -/
lemma bind_congr {d : Decoder α} {f g : α → Decoder β} {mem : Mem} {c : Cursor}
    (h : ∀ a, (d mem c).val = some a → f a mem (d mem c).cur = g a mem (d mem c).cur) :
    (d >>= f) mem c = (d >>= g) mem c := by
  cases hv : (d mem c).val with
  | none => rw [bind_of_none hv, bind_of_none hv]
  | some a => rw [bind_of_some hv, bind_of_some hv, h a hv]

end Decoder

/-! ## Accesses made before -/

namespace Outcome

variable {α : Type} (tr : List Access) (o : Outcome α)

/-- What was read before does not change the value. -/
@[simp] lemma val_after : (o.after tr).val = o.val := rfl

/-- What was read before does not change the place. -/
@[simp] lemma cur_after : (o.after tr).cur = o.cur := rfl

/-- What was read before comes first in the trace. -/
@[simp] lemma trace_after : (o.after tr).trace = tr ++ o.trace := rfl

/-- Nothing was read before. -/
@[simp] lemma after_nil : o.after [] = o := rfl

/-- Traces put in front add up. -/
lemma after_after (tr' : List Access) : (o.after tr).after tr' = o.after (tr' ++ tr) := by
  rw [after, after, after, List.append_assoc]

end Outcome

/-- No shift of the accesses is by `w` or more. -/
def ShiftsBelow (w : ℕ) (tr : List Access) : Prop := ∀ s, .shift s ∈ tr → s < w

/-- Without accesses no shift is made. -/
@[simp] lemma shiftsBelow_nil (w : ℕ) : ShiftsBelow w [] := fun _ h => absurd h List.not_mem_nil

/-- The shifts of two traces are those of both. -/
lemma shiftsBelow_append {w : ℕ} {tr tr' : List Access} :
    ShiftsBelow w (tr ++ tr') ↔ ShiftsBelow w tr ∧ ShiftsBelow w tr' := by
  simp only [ShiftsBelow, List.mem_append, or_imp, forall_and]

/-- What the first of two decoders accesses, both in sequence access. -/
lemma ShiftsBelow.of_bind {α β : Type} {w : ℕ} {d : Decoder α} {f : α → Decoder β} {mem : Mem}
    {c : Cursor} (h : ShiftsBelow w ((d >>= f) mem c).trace) : ShiftsBelow w (d mem c).trace := by
  cases hv : (d mem c).val with
  | none =>
      rw [Decoder.bind_of_none hv] at h
      exact h
  | some a =>
      rw [Decoder.bind_of_some hv] at h
      exact (shiftsBelow_append.mp h).1

/-! ## Copying -/

/-- The `n` bytes at `a`. -/
def bytesAt (mem : Mem) (a : ℕ) : ℕ → List UInt8
  | 0 => []
  | n + 1 => mem a :: bytesAt mem (a + 1) n

/-- The reads of a `memcpy` of `n` bytes from `a`. -/
def readsAt (a : ℕ) : ℕ → List Access
  | 0 => []
  | n + 1 => .read a :: readsAt (a + 1) n

/-- As many bytes are read as were asked for. -/
@[simp] lemma length_bytesAt (mem : Mem) (a n : ℕ) : (bytesAt mem a n).length = n := by
  induction n generalizing a with
  | zero => rfl
  | succ n ih => simp [bytesAt, ih]

/-- The reads of a block are of its addresses. -/
lemma read_mem_readsAt {a n x : ℕ} : Access.read x ∈ readsAt a n ↔ a ≤ x ∧ x < a + n := by
  induction n generalizing a with
  | zero => simp [readsAt]
  | succ n ih =>
      simp only [readsAt, List.mem_cons, Access.read.injEq, ih]
      omega

/-! ## Safety -/

section safety

variable {α β : Type}

/-- The outcome of a call at `c` stayed inside the bytes left at `c`: the size did not grow, the
position moved by what was taken off it, and every byte read was one of them. -/
structure Respects (c : Cursor) (o : Outcome α) : Prop where
  le : o.cur.leftSize ≤ c.leftSize
  conserve : o.cur.buf + o.cur.leftSize = c.buf + c.leftSize
  reads : ∀ a, .read a ∈ o.trace → c.buf ≤ a ∧ a < c.buf + c.leftSize

/-- A decoder that respects the bytes it is given, whatever they are. -/
def Safe (d : Decoder α) : Prop := ∀ mem c, Respects c (d mem c)

/-- A decoder whose successes take at least one byte. -/
def Consumes (d : Decoder α) : Prop :=
  ∀ mem c, (d mem c).val ≠ none → (d mem c).cur.leftSize < c.leftSize

/-- What a first call and a second one from where it stopped respect, both together respect. -/
lemma Respects.append {c : Cursor} {o : Outcome α} {o' : Outcome β} (h : Respects c o)
    (h' : Respects o.cur o') :
    Respects c (⟨o'.val, o'.cur, o.trace ++ o'.trace⟩ : Outcome β) where
  le := h'.le.trans h.le
  conserve := h'.conserve.trans h.conserve
  reads a ha := by
    rcases List.mem_append.mp ha with ha | ha
    · exact h.reads a ha
    · have h1 := h'.reads a ha
      have h2 := h.conserve
      have h3 := h.le
      omega

/-- `Respects` looks at the cursor and the accesses only. -/
lemma respects_congr {c : Cursor} {o : Outcome α} {o' : Outcome β} (hcur : o.cur = o'.cur)
    (htr : o.trace = o'.trace) : Respects c o ↔ Respects c o' := by
  constructor
  · rintro ⟨h1, h2, h3⟩
    exact ⟨hcur ▸ h1, hcur ▸ h2, htr ▸ h3⟩
  · rintro ⟨h1, h2, h3⟩
    exact ⟨hcur ▸ h1, hcur ▸ h2, htr ▸ h3⟩

/-- A function of the value changes neither the cursor nor the accesses. -/
lemma bind_pure_cur_trace (d : Decoder α) (g : α → β) (mem : Mem) (c : Cursor) :
    ((d >>= fun a => pure (g a)) mem c).cur = (d mem c).cur ∧
      ((d >>= fun a => pure (g a)) mem c).trace = (d mem c).trace := by
  cases h : (d mem c).val with
  | none => simp [Decoder.bind_of_none h]
  | some a => simp [Decoder.bind_of_some h, Decoder.pure_apply]

/-- A function of the value is applied to the value. -/
lemma bind_pure_val (d : Decoder α) (g : α → β) (mem : Mem) (c : Cursor) :
    ((d >>= fun a => pure (g a)) mem c).val = (d mem c).val.map g := by
  cases h : (d mem c).val with
  | none => rw [Decoder.bind_of_none h, Option.map_none]
  | some a => rw [Decoder.bind_of_some h, Decoder.pure_apply, Option.map_some]

/-- A window inside the bytes left is respected as they are, and so is moving over it. -/
lemma Respects.window {c : Cursor} {n : ℕ} {o : Outcome α} (hn : n ≤ c.leftSize)
    (h : Respects ⟨c.buf, n⟩ o) (v : Option β) :
    Respects c ⟨v, c, o.trace⟩ ∧ Respects c ⟨v, ⟨c.buf + n, c.leftSize - n⟩, o.trace⟩ := by
  have hreads : ∀ a, .read a ∈ o.trace → c.buf ≤ a ∧ a < c.buf + c.leftSize := by
    intro a ha
    have h1 : c.buf ≤ a ∧ a < c.buf + n := h.reads a ha
    omega
  refine ⟨⟨le_rfl, rfl, hreads⟩, ⟨Nat.sub_le _ _, ?_, hreads⟩⟩
  show c.buf + n + (c.leftSize - n) = c.buf + c.leftSize
  omega

/-- A constant decoder is safe. -/
lemma Safe.ret (a : α) : Safe (pure a : Decoder α) := fun _ _ =>
  ⟨le_rfl, rfl, fun _ h => absurd h List.not_mem_nil⟩

/-- A decoder that refuses is safe. -/
lemma Safe.fail : Safe (Decoder.fail : Decoder α) := fun _ _ =>
  ⟨le_rfl, rfl, fun _ h => absurd h List.not_mem_nil⟩

/-- Safety is closed under sequencing. -/
lemma Safe.bind {d : Decoder α} {f : α → Decoder β} (hd : Safe d) (hf : ∀ a, Safe (f a)) :
    Safe (d >>= f) := by
  intro mem c
  cases h : (d mem c).val with
  | none =>
      rw [Decoder.bind_of_none h]
      exact ⟨(hd mem c).le, (hd mem c).conserve, (hd mem c).reads⟩
  | some a =>
      rw [Decoder.bind_of_some h]
      exact (hd mem c).append (hf a mem _)

/-- If the first of two decoders consumes, so do both in sequence. -/
lemma Consumes.bind {d : Decoder α} {f : α → Decoder β} (hd : Consumes d)
    (hf : ∀ a, Safe (f a)) : Consumes (d >>= f) := by
  intro mem c hval
  cases h : (d mem c).val with
  | none => simp [Decoder.bind_of_none h] at hval
  | some a =>
      rw [Decoder.bind_of_some h]
      exact lt_of_le_of_lt (hf a mem _).le (hd mem c (by simp [h]))

end safety

/-! ## Decoding known bytes -/

section decodes

variable {α β : Type}

/-- The bytes `bs` stand at address `a`. -/
def Holds (mem : Mem) : ℕ → List UInt8 → Prop
  | _, [] => True
  | a, b :: bs => mem a = b ∧ Holds mem (a + 1) bs

/-- The empty list of bytes is at every address. -/
@[simp] lemma holds_nil (mem : Mem) (a : ℕ) : Holds mem a [] := trivial

/-- The first byte is at the address, the others behind it. -/
@[simp] lemma holds_cons {mem : Mem} {a : ℕ} {b : UInt8} {bs : List UInt8} :
    Holds mem a (b :: bs) ↔ mem a = b ∧ Holds mem (a + 1) bs := Iff.rfl

/-- Bytes in a row. -/
lemma holds_append {mem : Mem} {a : ℕ} {bs cs : List UInt8} :
    Holds mem a (bs ++ cs) ↔ Holds mem a bs ∧ Holds mem (a + bs.length) cs := by
  induction bs generalizing a with
  | nil => simp
  | cons b bs ih =>
      rw [List.cons_append, holds_cons, holds_cons, ih, List.length_cons]
      have : a + 1 + bs.length = a + (bs.length + 1) := by omega
      rw [this, and_assoc]

/-- The bytes at an address are the ones that stand there. -/
lemma bytesAt_of_holds {mem : Mem} {a : ℕ} {bs : List UInt8} (h : Holds mem a bs) :
    bytesAt mem a bs.length = bs := by
  induction bs generalizing a with
  | nil => rfl
  | cons b bs ih =>
      rw [holds_cons] at h
      rw [List.length_cons, bytesAt, h.1, ih h.2]

/-- What stands at an address are the bytes there. -/
lemma holds_bytesAt (mem : Mem) (a n : ℕ) : Holds mem a (bytesAt mem a n) := by
  induction n generalizing a with
  | zero => trivial
  | succ n ih => exact ⟨rfl, ih (a + 1)⟩

/-- A memory that starts with a list of bytes, of a machine that shifts all bits out. -/
def memOf (bs : List UInt8) : Mem where
  byte i := bs.getD i 0
  overShift _ _ _ := 0

/-- The bytes of a list stand at the start of its memory. -/
lemma holds_memOf_drop (bs : List UInt8) (k : ℕ) : Holds (memOf bs) k (bs.drop k) := by
  induction h : bs.drop k generalizing k with
  | nil => trivial
  | cons b cs ih =>
      have hk : k < bs.length := by
        by_contra hge
        rw [List.drop_eq_nil_of_le (not_lt.mp hge)] at h
        cases h
      rw [List.drop_eq_getElem_cons hk] at h
      obtain ⟨hb, hcs⟩ := List.cons.inj h
      refine ⟨?_, ih (k + 1) hcs⟩
      simpa [memOf, hk] using hb

/-- A list of bytes stands at the start of its memory. -/
lemma holds_memOf (bs : List UInt8) : Holds (memOf bs) 0 bs := by
  simpa using holds_memOf_drop bs 0

/-- Wherever `bs` stand with enough bytes left, `d` yields `v` and stops right behind them. -/
def Decodes (d : Decoder α) (bs : List UInt8) (v : α) : Prop :=
  ∀ mem c, Holds mem c.buf bs → bs.length ≤ c.leftSize →
    (d mem c).val = some v ∧
      (d mem c).cur = ⟨c.buf + bs.length, c.leftSize - bs.length⟩

/-- In front of other bytes, `d` takes its own and leaves those. -/
lemma Decodes.of_append {d : Decoder α} {bs rest : List UInt8} {v : α} (hd : Decodes d bs v)
    {mem : Mem} {a : ℕ} (hmem : Holds mem a (bs ++ rest)) :
    (d mem ⟨a, (bs ++ rest).length⟩).val = some v ∧
      (d mem ⟨a, (bs ++ rest).length⟩).cur = ⟨a + bs.length, rest.length⟩ ∧
      Holds mem (a + bs.length) rest := by
  rw [holds_append] at hmem
  rw [List.length_append]
  obtain ⟨hval, hcur⟩ := hd mem ⟨a, bs.length + rest.length⟩ hmem.1 (Nat.le_add_right _ _)
  refine ⟨hval, hcur.trans ?_, hmem.2⟩
  show (⟨a + bs.length, bs.length + rest.length - bs.length⟩ : Cursor) = _
  rw [Nat.add_sub_cancel_left]

/-- Decoding is closed under sequencing. -/
lemma Decodes.bind {d : Decoder α} {f : α → Decoder β} {bs cs : List UInt8} {v : α} {u : β}
    (hd : Decodes d bs v) (hf : Decodes (f v) cs u) : Decodes (d >>= f) (bs ++ cs) u := by
  intro mem c hmem hlen
  rw [holds_append] at hmem
  rw [List.length_append] at hlen
  obtain ⟨hval, hcur⟩ := hd mem c hmem.1 (by omega)
  have hf' := hf mem (d mem c).cur (by rw [hcur]; exact hmem.2) (by rw [hcur]; show _ ≤ _ - _; omega)
  rw [Decoder.bind_of_some hval]
  refine ⟨hf'.1, ?_⟩
  rw [hf'.2, hcur, List.length_append]
  ext
  · show c.buf + bs.length + cs.length = c.buf + (bs.length + cs.length)
    omega
  · show c.leftSize - bs.length - cs.length = c.leftSize - (bs.length + cs.length)
    omega

/-- Yielding a value takes no bytes. -/
lemma Decodes.ret (v : α) : Decodes (pure v : Decoder α) [] v := fun _ _ _ _ => ⟨rfl, rfl⟩

/-- Decoding, then a function of the value. -/
lemma Decodes.bind_ret {d : Decoder α} {bs : List UInt8} {v : α} (hd : Decodes d bs v)
    (g : α → β) {u : β} (hg : g v = u) : Decodes (d >>= fun a => pure (g a)) bs u := by
  subst hg
  simpa using hd.bind (f := fun a => pure (g a)) (Decodes.ret (g v))

end decodes

/-! ## Cut input -/

section cut

variable {α β : Type}

/-- Given fewer than `n` of the bytes `bs`, `d` fails, whatever stands behind them. -/
def RefusesBelow (d : Decoder α) (bs : List UInt8) (n : ℕ) : Prop :=
  ∀ q, q <+: bs → q.length < n → ∀ mem a, Holds mem a q → (d mem ⟨a, q.length⟩).val = none

/-- Given at least `n` of the bytes `bs`, `d` succeeds if the others still stand behind them. -/
def AcceptsFrom (d : Decoder α) (bs : List UInt8) (n : ℕ) : Prop :=
  ∀ k, n ≤ k → k ≤ bs.length → ∀ mem a, Holds mem a bs → (d mem ⟨a, k⟩).val ≠ none

/-- If the first of two decoders refuses whatever is cut, the second decides from there on. -/
lemma RefusesBelow.bind {d : Decoder α} {f : α → Decoder β} {bs cs : List UInt8} {v : α} {n : ℕ}
    (hd : RefusesBelow d bs bs.length) (hdec : Decodes d bs v) (hf : RefusesBelow (f v) cs n) :
    RefusesBelow (d >>= f) (bs ++ cs) (bs.length + n) := by
  intro q hq hlen mem a hmem
  by_cases hlt : q.length < bs.length
  · have hpre : q <+: bs := List.prefix_of_prefix_length_le hq (List.prefix_append bs cs) hlt.le
    rw [Decoder.bind_of_none (hd q hpre hlt mem a hmem)]
  · have hbs : bs <+: q :=
      List.prefix_of_prefix_length_le (List.prefix_append bs cs) hq (not_lt.mp hlt)
    obtain ⟨q', rfl⟩ := hbs
    have hq' : q' <+: cs := (List.prefix_append_right_inj bs).mp hq
    obtain ⟨hval, hcur, hmem'⟩ := hdec.of_append hmem
    rw [List.length_append] at hlen
    rw [Decoder.bind_of_some hval, hcur]
    exact hf q' hq' (by omega) mem _ hmem'

/-- A function of the value changes nothing. -/
lemma RefusesBelow.bind_ret {d : Decoder α} {bs : List UInt8} {n : ℕ} (hd : RefusesBelow d bs n)
    (g : α → β) : RefusesBelow (d >>= fun a => pure (g a)) bs n := by
  intro q hq hlen mem a hmem
  rw [Decoder.bind_of_none (hd q hq hlen mem a hmem)]

/-- If the first of two decoders has all its bytes, the second decides. -/
lemma AcceptsFrom.bind {d : Decoder α} {f : α → Decoder β} {bs cs : List UInt8} {v : α} {n : ℕ}
    (hdec : Decodes d bs v) (hf : AcceptsFrom (f v) cs n) :
    AcceptsFrom (d >>= f) (bs ++ cs) (bs.length + n) := by
  intro k hn hk mem a hmem
  rw [List.length_append] at hk
  rw [holds_append] at hmem
  obtain ⟨hval, hcur⟩ := hdec mem ⟨a, k⟩ hmem.1 (by show bs.length ≤ k; omega)
  rw [Decoder.bind_of_some hval, hcur]
  exact hf (k - bs.length) (by omega) (by omega) mem _ hmem.2

/-- With all its bytes a decoder succeeds. -/
lemma Decodes.acceptsFrom {d : Decoder α} {bs : List UInt8} {v : α} (h : Decodes d bs v) :
    AcceptsFrom d bs bs.length := by
  intro k hn _ mem a hmem
  rw [(h mem ⟨a, k⟩ hmem hn).1]
  exact Option.some_ne_none v

end cut

end CocInside.Lib
