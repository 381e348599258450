import CocInside.Ssu.RoundTrip

/-!
# Bounds of the length-delimited and repeated decoders

Each of these decoders takes a length out of the bytes it decodes. The string decoders clamp it to
what is left and `unpackBinary` refuses one that is too large; `unpackObject` and the decoders of
repeated fields with a length compare it with nothing, hand it to the nested decoder as the size
of its input, and subtract it from `leftSize`. The length is the one the machine decodes: where a
varint is so long that a shift is undefined, any value of `Mem.overShift`.

* `Element`, `Call`: the nested decoders and the calls in question. `Call.Bounded`: the call ends,
  reads only bytes it was given, and moves `buf` by what it takes off `leftSize`.
* `WindowOk`, `PackedOk`: what the bytes must satisfy for the unchecked length to do no harm.
* `packedLoop_total`, `packedLoop_stall`: the packed loop ends unless an element is decoded out of
  a non-empty window without taking anything.
* `bounded_iff_keeps`: the exact inputs on which each call is bounded.
-/

namespace CocInside.Ssu

open CocInside.Lib

/-! ## Safety of the scalar and string decoders -/

section safety

/-- A varint of 32 bits is read inside the buffer. -/
lemma safe_unpackUInt32 : Safe unpackUInt32 := (Varint.safe_read 32).bind fun _ => Safe.ret _

/-- A varint of 64 bits is read inside the buffer. -/
lemma safe_unpackUInt64 : Safe unpackUInt64 := (Varint.safe_read 64).bind fun _ => Safe.ret _

/-- A varint takes at least one byte. -/
lemma consumes_unpackUInt32 : Consumes unpackUInt32 :=
  (Varint.consumes_read 32).bind fun _ => Safe.ret _

/-- `unpackBinary` refuses a length that is not there. -/
lemma safe_unpackBinary (len : ℕ) : Safe (unpackBinary len) := by
  intro mem c
  unfold unpackBinary
  split
  · exact ⟨le_rfl, rfl, fun _ h => absurd h List.not_mem_nil⟩
  · rename_i hle
    rw [sizeSub_of_le (by omega)]
    refine ⟨Nat.sub_le _ _, ?_, ?_⟩
    · show c.buf + len + (c.leftSize - len) = c.buf + c.leftSize
      omega
    · intro a ha
      have := read_mem_readsAt.mp ha
      omega

/-- A boolean is read inside the buffer. -/
lemma safe_unpackBool : Safe unpackBool := by
  intro mem c
  unfold unpackBool
  split
  · exact ⟨le_rfl, rfl, fun _ h => absurd h List.not_mem_nil⟩
  · rename_i hpos
    rw [sizeSub_of_le (by omega)]
    refine ⟨Nat.sub_le _ _, ?_, ?_⟩
    · show c.buf + 1 + (c.leftSize - 1) = c.buf + c.leftSize
      omega
    · intro a ha
      simp only [List.mem_singleton, Access.read.injEq] at ha
      omega

/-- The string decoders clamp the length to what is left. -/
lemma safe_takeClamped (length : UInt32) : Safe (takeClamped length) := by
  intro mem c
  have hlen : (if length.toNat > c.leftSize then UInt32.ofNat c.leftSize else length).toNat
      ≤ c.leftSize := by
    split
    · have hlt : c.leftSize < 2 ^ 32 := by
        have := length.toNat_lt
        omega
      rw [UInt32.toNat_ofNat_of_lt' hlt]
    · omega
  rw [takeClamped]
  generalize (if length.toNat > c.leftSize then UInt32.ofNat c.leftSize else length).toNat = n
    at hlen
  rw [sizeSub_of_le hlen]
  refine ⟨Nat.sub_le _ _, ?_, ?_⟩
  · show c.buf + n + (c.leftSize - n) = c.buf + c.leftSize
    omega
  · intro a ha
    have := read_mem_readsAt.mp ha
    omega

/-- A string is cut to what is left: its length is checked. -/
lemma safe_unpackString : Safe unpackString := safe_unpackUInt32.bind safe_takeClamped

/-- So is a string that is pointed to. -/
lemma safe_unpackStringPtr : Safe unpackStringPtr := safe_unpackUInt32.bind safe_takeClamped

end safety

/-! ## The calls -/

/-- The kinds whose values take no length. -/
def Kind.Scalar : Kind → Prop
  | .string | .object _ _ => False
  | _ => True

/-- The decoders of the scalar kinds read inside the buffer. -/
lemma Kind.Scalar.safe {k : Kind} (hk : k.Scalar) : Safe k.unpack := by
  cases k with
  | string | object => exact hk.elim
  | int32 => exact safe_unpackUInt64.bind fun _ => Safe.ret _
  | sint32 => exact safe_unpackUInt32.bind fun _ => Safe.ret _
  | uint32 => exact safe_unpackUInt32
  | enum => exact safe_unpackUInt32.bind fun _ => Safe.ret _
  | int64 => exact safe_unpackUInt64.bind fun _ => Safe.ret _
  | sint64 => exact safe_unpackUInt64.bind fun _ => Safe.ret _
  | uint64 => exact safe_unpackUInt64
  | float => exact safe_unpackBinary 4
  | double => exact safe_unpackBinary 8
  | bool => exact safe_unpackBool

/-- The decoders a call may nest: a scalar of the class, or an object decoder that respects the
size it is given. -/
inductive Element : Type 1
  | scalar (k : Kind) (isScalar : k.Scalar)
  | object (T : Type) (ty : ObjectType T) (val : T) (safe : Safe (ty.unpackBuffer val))

namespace Element

/-- The values of an element. -/
def Val : Element → Type
  | scalar k _ => k.Val
  | object T _ _ _ => T

/-- The element's decoder. -/
def decode : (e : Element) → Decoder e.Val
  | scalar k _ => k.unpack
  | object _ ty val _ => ty.unpackBuffer val

/-- The decoders of the elements read inside the buffer. -/
lemma safe_decode : ∀ e : Element, Safe e.decode
  | scalar _ hk => hk.safe
  | object _ _ _ h => h

end Element

/-- The length-delimited and repeated decoders, with their arguments. -/
inductive Call : Type 1
  | string
  | stringPtr
  | binary (len : ℕ)
  | object (T : Type) (ty : ObjectType T) (val : T) (safe : Safe (ty.unpackBuffer val))
  | repeated (e : Element) (val : List e.Val)
  | repeatedPacked (e : Element) (val : List e.Val)
  | repeatedPtr (e : Element) (val : List e.Val)
  | repeatedPackedPtr (e : Element) (val : List e.Val)

namespace Call

/-- What a call returns. -/
def Result : Call → Type
  | string | stringPtr => List UInt8
  | binary len => Raw len
  | object T _ _ _ => T
  | repeated e _ | repeatedPacked e _ | repeatedPtr e _ | repeatedPackedPtr e _ => List e.Val

/-- Run a call with at most `fuel` turns of its loop, if it has one. -/
def run : (k : Call) → ℕ → Mem → Cursor → Option (Outcome k.Result)
  | string, _, mem, c => some (unpackString mem c)
  | stringPtr, _, mem, c => some (unpackStringPtr mem c)
  | binary len, _, mem, c => some (unpackBinary len mem c)
  | object _ ty val _, _, mem, c => some (unpackObject ty val mem c)
  | repeated e val, _, mem, c => some (unpackRepeated val e.decode mem c)
  | repeatedPacked e val, fuel, mem, c => unpackRepeatedPacked fuel val e.decode mem c
  | repeatedPtr e val, _, mem, c => some (unpackRepeatedPtr val e.decode mem c)
  | repeatedPackedPtr e val, fuel, mem, c => unpackRepeatedPackedPtr fuel val e.decode mem c

/-- The call ends, and its outcome respects the bytes it was given. -/
def Bounded (k : Call) (mem : Mem) (c : Cursor) : Prop :=
  ∃ fuel o, k.run fuel mem c = some o ∧ Respects c o

end Call

/-! ## The conditions -/

section conditions

variable {α : Type}

/-- Successive elements decoded out of a window that is not used up yet, and their accesses. -/
inductive Elements (d : Decoder α) (mem : Mem) : Cursor → Cursor → List Access → Prop
  | nil (w : Cursor) : Elements d mem w w []
  | cons {w w' : Cursor} {v : α} {tr : List Access} (hpos : 0 < w.leftSize)
      (hv : (d mem w).val = some v) (rest : Elements d mem (d mem w).cur w' tr) :
      Elements d mem w w' ((d mem w).trace ++ tr)

/-- No element is decoded out of a window that is not used up without taking a byte. -/
def NoStall (d : Decoder α) (mem : Mem) (w : Cursor) : Prop :=
  ∀ w' tr, Elements d mem w w' tr → 0 < w'.leftSize → (d mem w').val ≠ none →
    (d mem w').cur.leftSize < w'.leftSize

/-- Some element fails, and up to there nothing at `bound` or above is read. -/
def FailsBefore (d : Decoder α) (mem : Mem) (w : Cursor) (bound : ℕ) : Prop :=
  ∃ w' tr, Elements d mem w w' tr ∧ 0 < w'.leftSize ∧ (d mem w').val = none ∧
    ∀ a, .read a ∈ tr ++ (d mem w').trace → a < bound

/-- The length in front, if there is one, is covered by the bytes left, or the nested decoder
fails without reading past them. -/
def WindowOk (d : Decoder α) (mem : Mem) (c : Cursor) : Prop :=
  ∀ n, (unpackUInt32 mem c).val = some n →
    let c' := (unpackUInt32 mem c).cur
    let o := d mem ⟨c'.buf, n.toNat⟩
    n.toNat ≤ c'.leftSize ∨
      (o.val = none ∧ ∀ a, .read a ∈ o.trace → a < c'.buf + c'.leftSize)

/-- The same for a sequence of elements, none of which may stall. -/
def PackedOk (d : Decoder α) (mem : Mem) (c : Cursor) : Prop :=
  ∀ n, (unpackUInt32 mem c).val = some n →
    let c' := (unpackUInt32 mem c).cur
    (n.toNat ≤ c'.leftSize ∧ NoStall d mem ⟨c'.buf, n.toNat⟩) ∨
      (c'.leftSize < n.toNat ∧
        FailsBefore d mem ⟨c'.buf, n.toNat⟩ (c'.buf + c'.leftSize))

end conditions

/-- What the input must satisfy for a call to keep to it: nothing for the decoders that check the
length or have none. -/
def Call.Keeps : Call → Mem → Cursor → Prop
  | .string, _, _ | .stringPtr, _, _ | .binary _, _, _ | .repeated _ _, _, _ => True
  | .object _ ty val _, mem, c => WindowOk (ty.unpackBuffer val) mem c
  | .repeatedPtr e _, mem, c => WindowOk e.decode mem c
  | .repeatedPacked e _, mem, c | .repeatedPackedPtr e _, mem, c => PackedOk e.decode mem c

/-! ## One window -/

section window

variable {α β : Type}

/-- Moving over more than the bytes left breaks the balance: the size wraps. -/
lemma not_respects_overrun {c c' : Cursor} {n : UInt32} {v : Option α} {tr : List Access}
    (hc : c'.buf + c'.leftSize = c.buf + c.leftSize) (hn : c'.leftSize < n.toNat) :
    ¬ Respects c ⟨v, ⟨c'.buf + n.toNat, sizeSub c'.leftSize n.toNat⟩, tr⟩ := by
  intro h
  have h2 : c'.buf + n.toNat + sizeSub c'.leftSize n.toNat = c.buf + c.leftSize := h.conserve
  have hlt : n.toNat < 2 ^ 32 := n.toNat_lt
  unfold sizeSub at h2
  rw [if_neg (by omega)] at h2
  omega

/-- A nested decoder that refuses takes nothing. -/
lemma within_of_none {n : ℕ} {d : Decoder α} {mem : Mem} {c : Cursor}
    (hv : (d mem ⟨c.buf, n⟩).val = none) :
    within n d mem c = ⟨none, c, (d mem ⟨c.buf, n⟩).trace⟩ := by
  simp only [within, hv]

/-- After a nested decoder the place is behind the `n` bytes, however many of them it has read. -/
lemma within_of_some {n : ℕ} {d : Decoder α} {mem : Mem} {c : Cursor} {v : α}
    (hv : (d mem ⟨c.buf, n⟩).val = some v) :
    within n d mem c = ⟨some v, ⟨c.buf + n, sizeSub c.leftSize n⟩,
      (d mem ⟨c.buf, n⟩).trace⟩ := by
  simp only [within, hv]

/-- A length followed by a nested decoder on that many bytes. -/
lemma respects_within_iff {d : Decoder α} (hd : Safe d) {f : UInt32 → Decoder β}
    (hf : ∀ n mem c, (f n mem c).cur = (within n.toNat d mem c).cur ∧
      (f n mem c).trace = (within n.toNat d mem c).trace) (mem : Mem) (c : Cursor) :
    Respects c ((unpackUInt32 >>= f) mem c) ↔ WindowOk d mem c := by
  have hp := safe_unpackUInt32 mem c
  unfold WindowOk
  cases hn : (unpackUInt32 mem c).val with
  | none =>
      rw [Decoder.bind_of_none hn]
      exact iff_of_true ⟨hp.le, hp.conserve, hp.reads⟩ (by simp)
  | some n =>
      rw [Decoder.bind_of_some hn]
      simp only [Option.some.injEq, forall_eq']
      set c' := (unpackUInt32 mem c).cur with hc'
      have hcons : c'.buf + c'.leftSize = c.buf + c.leftSize := hp.conserve
      obtain ⟨hcur, htr⟩ := hf n mem c'
      have hw : Respects ⟨c'.buf, n.toNat⟩ (d mem ⟨c'.buf, n.toNat⟩) := hd mem _
      constructor
      · intro h
        by_cases hle : n.toNat ≤ c'.leftSize
        · exact .inl hle
        · right
          cases hv : (d mem ⟨c'.buf, n.toNat⟩).val with
          | none =>
              refine ⟨rfl, ?_⟩
              intro a ha
              have : (f n mem c').trace = (d mem ⟨c'.buf, n.toNat⟩).trace := by
                rw [htr, within_of_none hv]
              have h1 := (h.reads a (by simp [this, ha])).2
              omega
          | some v =>
              have hover : (f n mem c').cur
                  = ⟨c'.buf + n.toNat, sizeSub c'.leftSize n.toNat⟩ := by
                rw [hcur, within_of_some hv]
              rw [hover] at h
              exact absurd h (not_respects_overrun hcons (by omega))
      · intro h
        have key : Respects c' (f n mem c') := by
          rw [respects_congr hcur htr]
          rcases h with hle | ⟨hv, hlt⟩
          · cases hv : (d mem ⟨c'.buf, n.toNat⟩).val with
            | none =>
                rw [within_of_none hv]
                exact (hw.window hle none).1
            | some v =>
                rw [within_of_some hv, sizeSub_of_le hle]
                exact (hw.window hle (some v)).2
          · rw [within_of_none hv]
            exact ⟨le_rfl, rfl, fun a ha => ⟨(hw.reads a ha).1, hlt a ha⟩⟩
        exact hp.append key

end window

/-! ## The packed loop -/

section packed

variable {α : Type} {d : Decoder α} {mem : Mem}

/-- The window is used up. -/
lemma packedLoop_done {w : Cursor} (hw : w.leftSize = 0) (fuel : ℕ) (val : List α) :
    packedLoop d mem (fuel + 1) val w = some ⟨some val, w, []⟩ := by
  unfold packedLoop
  rw [if_pos hw]

/-- The next element fails. -/
lemma packedLoop_fail {w : Cursor} (hw : w.leftSize ≠ 0) (hv : (d mem w).val = none) (fuel : ℕ)
    (val : List α) :
    packedLoop d mem (fuel + 1) val w = some ⟨none, (d mem w).cur, (d mem w).trace⟩ := by
  unfold packedLoop
  rw [if_neg hw]
  simp only [hv]

/-- The next element is decoded. -/
lemma packedLoop_next {w : Cursor} {v : α} (hw : w.leftSize ≠ 0) (hv : (d mem w).val = some v)
    (fuel : ℕ) (val : List α) :
    packedLoop d mem (fuel + 1) val w
      = (packedLoop d mem fuel (val ++ [v]) (d mem w).cur).map
        fun p => ⟨p.val, p.cur, (d mem w).trace ++ p.trace⟩ := by
  rw [packedLoop, if_neg hw]
  simp only [hv]

/-- The three ways a run of the loop begins. -/
lemma packedLoop_cases {fuel : ℕ} {val : List α} {w : Cursor} {o : Outcome (List α)}
    (h : packedLoop d mem fuel val w = some o) :
    (w.leftSize = 0 ∧ o = ⟨some val, w, []⟩) ∨
    (w.leftSize ≠ 0 ∧ (d mem w).val = none ∧ o = ⟨none, (d mem w).cur, (d mem w).trace⟩) ∨
    ∃ fuel' v p, fuel = fuel' + 1 ∧ w.leftSize ≠ 0 ∧ (d mem w).val = some v ∧
      packedLoop d mem fuel' (val ++ [v]) (d mem w).cur = some p ∧
      o = ⟨p.val, p.cur, (d mem w).trace ++ p.trace⟩ := by
  cases fuel with
  | zero => simp [packedLoop] at h
  | succ fuel =>
      by_cases hw : w.leftSize = 0
      · rw [packedLoop_done hw, Option.some.injEq] at h
        exact .inl ⟨hw, h.symm⟩
      · cases hv : (d mem w).val with
        | none =>
            rw [packedLoop_fail hw hv, Option.some.injEq] at h
            exact .inr (.inl ⟨hw, rfl, h.symm⟩)
        | some v =>
            rw [packedLoop_next hw hv, Option.map_eq_some_iff] at h
            obtain ⟨p, hp, rfl⟩ := h
            exact .inr (.inr ⟨fuel, v, p, rfl, hw, rfl, hp, rfl⟩)

/-- What a run of the loop does stays inside its window. -/
lemma packedLoop_respects (hd : Safe d) {fuel : ℕ} {val : List α} {w : Cursor}
    {o : Outcome (List α)} (h : packedLoop d mem fuel val w = some o) : Respects w o := by
  induction fuel generalizing val w o with
  | zero => simp [packedLoop] at h
  | succ fuel ih =>
      obtain ⟨-, rfl⟩ | ⟨-, -, rfl⟩ | ⟨_, v, p, hf, -, -, hp, rfl⟩ := packedLoop_cases h
      · exact ⟨le_rfl, rfl, fun _ h => absurd h List.not_mem_nil⟩
      · exact ⟨(hd mem w).le, (hd mem w).conserve, (hd mem w).reads⟩
      · cases hf
        exact (hd mem w).append (ih hp)

/-- Without a stall the size of the window bounds the number of turns. -/
lemma packedLoop_total {w : Cursor} (h : NoStall d mem w) (val : List α) :
    ∃ fuel o, packedLoop d mem fuel val w = some o := by
  -- The measure is the size left; fuel above it is fuel enough.
  suffices hs : ∀ fuel, ∀ w : Cursor, w.leftSize < fuel → NoStall d mem w → ∀ val,
      ∃ o, packedLoop d mem fuel val w = some o from ⟨_, hs _ w (Nat.lt_succ_self _) h val⟩
  intro fuel
  induction fuel with
  | zero => omega
  | succ fuel ih =>
      intro w hlt h val
      by_cases hw : w.leftSize = 0
      · exact ⟨_, packedLoop_done hw fuel val⟩
      · cases hv : (d mem w).val with
        | none => exact ⟨_, packedLoop_fail hw hv fuel val⟩
        | some v =>
            have hstep := h w [] (.nil w) (by omega) (by simp [hv])
            have hrest : NoStall d mem (d mem w).cur := fun w' tr hw' =>
              h w' _ (.cons (by omega) hv hw')
            obtain ⟨o, ho⟩ := ih (d mem w).cur (by omega) hrest (val ++ [v])
            exact ⟨_, by rw [packedLoop_next hw hv, ho, Option.map_some]⟩

/-- An element that takes nothing out of a window that is not used up is decoded for ever. -/
lemma packedLoop_stall (hd : Safe d) {w : Cursor} (hpos : 0 < w.leftSize)
    (hv : (d mem w).val ≠ none) (hstall : ¬ (d mem w).cur.leftSize < w.leftSize) (fuel : ℕ)
    (val : List α) : packedLoop d mem fuel val w = none := by
  have hcur : (d mem w).cur = w := by
    have h1 := (hd mem w).le
    have h2 := (hd mem w).conserve
    ext
    · omega
    · omega
  obtain ⟨v, hv⟩ := Option.ne_none_iff_exists'.mp hv
  induction fuel generalizing val with
  | zero => rfl
  | succ fuel ih => rw [packedLoop_next hpos.ne' hv, hcur, ih, Option.map_none]

/-- A run of the loop passes through every window its elements lead to. -/
lemma packedLoop_elements {w w' : Cursor} {tr : List Access} (h : Elements d mem w w' tr)
    {fuel : ℕ} {val : List α} {o : Outcome (List α)}
    (ho : packedLoop d mem fuel val w = some o) :
    ∃ fuel' val' o', packedLoop d mem fuel' val' w' = some o' := by
  induction h generalizing fuel val o with
  | nil w => exact ⟨_, _, _, ho⟩
  | @cons w w' v tr hpos hv _ ih =>
      obtain ⟨h0, -⟩ | ⟨-, hnone, -⟩ | ⟨_, v', p, -, -, -, hp, -⟩ := packedLoop_cases ho
      · omega
      · rw [hv] at hnone
        cases hnone
      · exact ih hp

/-- A loop that ends has no stall. -/
lemma noStall_of_packedLoop (hd : Safe d) {w : Cursor} {fuel : ℕ} {val : List α}
    {o : Outcome (List α)} (ho : packedLoop d mem fuel val w = some o) : NoStall d mem w := by
  intro w' tr hw' hpos hv
  by_contra hstall
  obtain ⟨fuel', val', o', ho'⟩ := packedLoop_elements hw' ho
  rw [packedLoop_stall hd hpos hv hstall] at ho'
  cases ho'

/-- A loop that fails does so at some element, after decoding the ones before it. -/
lemma elements_of_packedLoop {fuel : ℕ} {val : List α} {w : Cursor} {o : Outcome (List α)}
    (ho : packedLoop d mem fuel val w = some o) (hv : o.val = none) :
    ∃ w' tr, Elements d mem w w' tr ∧ 0 < w'.leftSize ∧ (d mem w').val = none ∧
      o.trace = tr ++ (d mem w').trace := by
  induction fuel generalizing val w o with
  | zero => simp [packedLoop] at ho
  | succ fuel ih =>
      obtain ⟨-, rfl⟩ | ⟨h0, hn, rfl⟩ | ⟨_, v, p, hf, h0, hs, hp, rfl⟩ := packedLoop_cases ho
      · cases hv
      · exact ⟨w, [], .nil w, by omega, hn, rfl⟩
      · cases hf
        obtain ⟨w', tr, hw', h1, h2, h3⟩ := ih hp hv
        exact ⟨w', _, .cons (by omega) hs hw', h1, h2, by simp [h3]⟩

/-- The converse: an element that fails ends the loop there. -/
lemma packedLoop_of_elements {w w' : Cursor} {tr : List Access} (h : Elements d mem w w' tr)
    (hpos : 0 < w'.leftSize) (hv : (d mem w').val = none) (val : List α) :
    ∃ fuel o, packedLoop d mem fuel val w = some o ∧ o.val = none ∧
      o.trace = tr ++ (d mem w').trace := by
  induction h generalizing val with
  | nil w => exact ⟨1, _, packedLoop_fail hpos.ne' hv 0 val, rfl, rfl⟩
  | @cons w w' v tr hpos' hv' _ ih =>
      obtain ⟨fuel, o, ho, h1, h2⟩ := ih hpos hv (val ++ [v])
      refine ⟨fuel + 1, ⟨o.val, o.cur, (d mem w).trace ++ o.trace⟩, ?_, h1, by simp [h2]⟩
      rw [packedLoop_next hpos'.ne' hv', ho, Option.map_some]

/-- A length followed by elements up to it. -/
lemma respects_packed_iff (hd : Safe d) (c : Cursor) (val : List α) :
    (∃ fuel o, unpackRepeatedPacked fuel val d mem c = some o ∧ Respects c o)
      ↔ PackedOk d mem c := by
  have hp := safe_unpackUInt32 mem c
  simp only [PackedOk, unpackRepeatedPacked]
  cases hn : (unpackUInt32 mem c).val with
  | none =>
      refine iff_of_true ⟨0, _, rfl, ?_⟩ (by simp)
      exact ⟨hp.le, hp.conserve, hp.reads⟩
  | some n =>
      simp only [Option.some.injEq, forall_eq', Option.map_eq_some_iff]
      set c' := (unpackUInt32 mem c).cur with hc'
      have hcons : c'.buf + c'.leftSize = c.buf + c.leftSize := hp.conserve
      constructor
      · rintro ⟨fuel, o, ⟨p, hloop, rfl⟩, h⟩
        by_cases hle : n.toNat ≤ c'.leftSize
        · exact .inl ⟨hle, noStall_of_packedLoop hd hloop⟩
        · refine .inr ⟨by omega, ?_⟩
          cases hv : p.val with
          | none =>
              simp only [hv] at h
              obtain ⟨w', tr, hw', h1, h2, h3⟩ := elements_of_packedLoop hloop hv
              refine ⟨w', tr, hw', h1, h2, ?_⟩
              intro a ha
              have := (h.reads a (by simp [h3, List.mem_append.mp ha])).2
              omega
          | some vs =>
              simp only [hv] at h
              exact absurd h (not_respects_overrun hcons (by omega))
      · rintro (⟨hle, hns⟩ | ⟨hlt, w', tr, hw', hpos, hv, hreads⟩)
        · obtain ⟨fuel, p, hloop⟩ := packedLoop_total hns val
          refine ⟨fuel, _, ⟨p, hloop, rfl⟩, ?_⟩
          have hw := packedLoop_respects hd hloop
          cases hv : p.val with
          | none => exact hp.append (hw.window hle none).1
          | some vs =>
              rw [sizeSub_of_le hle]
              exact hp.append (hw.window hle (some vs)).2
        · obtain ⟨fuel, p, hloop, hpv, hptr⟩ := packedLoop_of_elements hw' hpos hv val
          refine ⟨fuel, _, ⟨p, hloop, rfl⟩, ?_⟩
          have hw := packedLoop_respects hd hloop
          simp only [hpv]
          have hstop : Respects c' (⟨none, c', p.trace⟩ : Outcome (List α)) :=
            ⟨le_rfl, rfl, fun a ha => ⟨(hw.reads a ha).1, hreads a (hptr ▸ ha)⟩⟩
          exact hp.append hstop

end packed

/-! ## The calls that keep to their input -/

/-- **Bounds of the decoders.** A call ends, reads only the bytes it was given and moves `buf` by
what it takes off `leftSize` exactly when its input satisfies `Call.Keeps`: always for the string
decoders, `unpackBinary` and `unpackRepeated`, and for the others only if the length in front does
no harm. -/
theorem bounded_iff_keeps (k : Call) (mem : Mem) (c : Cursor) :
    k.Bounded mem c ↔ k.Keeps mem c := by
  -- A call without a loop is bounded when its one outcome respects the input.
  have once : ∀ {α : Type} (o : Outcome α),
      (∃ _ : ℕ, ∃ o', some o = some o' ∧ Respects c o') ↔ Respects c o := fun o =>
    ⟨fun ⟨_, _, h, ho⟩ => Option.some.inj h ▸ ho, fun h => ⟨0, o, rfl, h⟩⟩
  cases k with
  | string => exact (once _).trans (iff_of_true (safe_unpackString mem c) trivial)
  | stringPtr => exact (once _).trans (iff_of_true (safe_unpackStringPtr mem c) trivial)
  | binary len => exact (once _).trans (iff_of_true (safe_unpackBinary len mem c) trivial)
  | object T ty val hsafe =>
      exact (once _).trans (respects_within_iff hsafe (fun _ _ _ => ⟨rfl, rfl⟩) mem c)
  | repeated e val =>
      have hsafe : Safe (unpackRepeated val e.decode) := e.safe_decode.bind fun _ => Safe.ret _
      exact (once _).trans (iff_of_true (hsafe mem c) trivial)
  | repeatedPacked e val => exact respects_packed_iff e.safe_decode c val
  | repeatedPtr e val =>
      exact (once _).trans (respects_within_iff e.safe_decode
        (fun n mem c => bind_pure_cur_trace (within n.toNat e.decode) _ mem c) mem c)
  | repeatedPackedPtr e val => exact respects_packed_iff e.safe_decode c val

/-- Two bytes, a length of 5 and one byte behind it: the element is decoded out of a window of five
bytes, `buf` moves four bytes past the end and `leftSize` wraps. -/
theorem not_bounded_length_past_end :
    (unpackRepeatedPtr [] unpackUInt32 (memOf [5, 1]) ⟨0, 2⟩).cur = ⟨6, 2 ^ 64 - 4⟩ ∧
      ¬ (Call.repeatedPtr (.scalar .uint32 trivial) []).Bounded (memOf [5, 1]) ⟨0, 2⟩ := by
  have hcur : (unpackRepeatedPtr [] unpackUInt32 (memOf [5, 1]) ⟨0, 2⟩).cur
      = ⟨6, 2 ^ 64 - 4⟩ := by decide
  refine ⟨hcur, ?_⟩
  rintro ⟨fuel, o, ho, hr⟩
  obtain rfl := Option.some.inj ho
  have hle : (2 ^ 64 - 4 : ℕ) ≤ 2 := by
    have := hr.le
    rwa [show (unpackRepeatedPtr [] (Element.scalar .uint32 trivial).decode (memOf [5, 1])
      ⟨0, 2⟩).cur = _ from hcur] at this
  omega

end CocInside.Ssu
