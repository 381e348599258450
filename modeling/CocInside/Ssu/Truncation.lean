import CocInside.Ssu.Repeated

/-!
# Fields that are cut off

A sequence of tagged fields is decoded in order, each with `unpackTag` and the function of its kind,
from input that ends inside one of them. Every decoder of a varint, `unpackBinary` and `unpackBool`
refuse what is cut. `unpackString` takes what is there for the string, and `unpackObject` hands the
announced size to the nested decoder whether that many bytes are left or not.

* `Field`, `Field.bytes`, `Field.decode`: tagged fields.
* `Field.visible`: the number of bytes a field needs for its decoder to succeed.
* `TruncationDetected`: the fields in front are read back and the cut one is refused.
* `truncation_detected_iff`: it is, exactly if the cut is before that point.

Source: `Ssu/SsuUtils.h`.
-/

namespace CocInside.Ssu

open CocInside.Lib

/-! ## Fields -/

/-- Source: `Utils::packBinaryTag`. -/
def packBinaryTag (id : UInt32) (val : List UInt8) : List UInt8 :=
  packTag id 2 ++ packUInt32 (UInt32.ofNat val.length) ++ val

/-- A tagged field of one of the kinds, or a binary one. -/
inductive Field : Type 1
  | ofKind (k : Kind) (id : UInt32) (v : k.Val)
  | binary (id : UInt32) (v : List UInt8)

/-- The bytes that `unpackBinary` copies for a given length. -/
def binaryBody (len : UInt32) : Decoder (List UInt8) := do
  let val ← unpackBinary len.toNat
  pure val.1

/-- What `packBinaryTag` writes behind the tag: `unpackBinary` is given the length that stands in
front. -/
def unpackLengthBinary : Decoder (List UInt8) := do
  let len ← unpackUInt32
  binaryBody len

namespace Field

/-- The values of a field. -/
def Val : Field → Type
  | ofKind k _ _ => k.Val
  | binary _ _ => List UInt8

/-- The value of a field. -/
def val : (f : Field) → f.Val
  | ofKind _ _ v => v
  | binary _ v => v

/-- The encoding of a field. -/
def bytes : Field → List UInt8
  | ofKind k id v => k.packTag id v
  | binary id v => packBinaryTag id v

/-- Decoding a field with `unpackTag` and the function of its kind. -/
def decode : (f : Field) → Decoder f.Val
  | ofKind k _ _ => unpackTag >>= fun _ => k.unpack
  | binary _ _ => unpackTag >>= fun _ => unpackLengthBinary

/-- The number of bytes from which on the decoder of a field succeeds: all of a scalar, the tag and
the length of a string or an object, and for a binary field also as many bytes as the length in
32 bits says. -/
def visible : Field → ℕ
  | ofKind .string id v =>
      (packTag id 2).length + (packUInt32 (UInt32.ofNat (List.length (α := UInt8) v))).length
  | ofKind (.object _ ty) id v =>
      (packTag id 2).length + (packUInt32 (UInt32.ofNat (ty.size v))).length
  | ofKind k id v => (k.packTag id v).length
  | binary id v =>
      (packTag id 2).length + (packUInt32 (UInt32.ofNat v.length)).length + v.length % 2 ^ 32

/-- A nested object has functions that agree and a size that fits its 32-bit length. -/
def ObjectOk : Field → Prop
  | ofKind (.object _ ty) _ v => ty.Coherent ∧ ty.size v < 2 ^ 32
  | _ => True

/-- A string or binary field has a size that fits its 32-bit length. -/
def LengthFits : Field → Prop
  | ofKind .string _ v => List.length (α := UInt8) v < 2 ^ 32
  | binary _ v => v.length < 2 ^ 32
  | _ => True

end Field

/-- Decoding the fields in order from `c` yields their values and arrives at `c'`. -/
def ReadsBack (mem : Mem) : List Field → Cursor → Cursor → Prop
  | [], c, c' => c = c'
  | f :: fs, c, c' => (f.decode mem c).val = some f.val ∧ ReadsBack mem fs (f.decode mem c).cur c'

/-- Of the fields `pre` and then `f`, all bytes of the first ones are there and the bytes `p` of the
last. Decoding them in order, whatever stands behind these bytes, yields the values of `pre` and
returns false at `f`. -/
def TruncationDetected (pre : List Field) (f : Field) (p : List UInt8) : Prop :=
  ∀ mem a, Holds mem a (pre.flatMap Field.bytes ++ p) →
    ∃ c, ReadsBack mem pre ⟨a, (pre.flatMap Field.bytes ++ p).length⟩ c ∧
      (f.decode mem c).val = none

/-! ## What the decoders refuse -/

/-- A varint of 32 bits that is cut is refused. -/
lemma refusesBelow_unpackUInt32 (v : UInt32) :
    RefusesBelow unpackUInt32 (packUInt32 v) (packUInt32 v).length :=
  (Varint.refusesBelow_write 32 4 v.toNat).bind_ret _

/-- A varint of 64 bits that is cut is refused. -/
lemma refusesBelow_unpackUInt64 (v : UInt64) :
    RefusesBelow unpackUInt64 (packUInt64 v) (packUInt64 v).length :=
  (Varint.refusesBelow_write 64 9 v.toNat).bind_ret _

/-- Fixed bytes that are cut are refused. -/
lemma refusesBelow_unpackBinary {len m : ℕ} (hm : m ≤ len) (bs : List UInt8) :
    RefusesBelow (unpackBinary len) bs m := by
  intro q _ hlt mem a _
  rw [unpackBinary, if_pos (show len > q.length by omega)]

/-- A boolean without its byte is refused. -/
lemma refusesBelow_unpackBool (bs : List UInt8) : RefusesBelow unpackBool bs 1 := by
  intro q _ hlt mem a _
  rw [unpackBool, if_pos (show q.length = 0 by omega)]

/-- A zigzag number that is cut is refused. -/
lemma refusesBelow_unpackInt32 (v : Int32) :
    RefusesBelow unpackInt32 (packInt32 v) (packInt32 v).length := by
  unfold packInt32
  split
  · exact (refusesBelow_unpackUInt64 _).bind_ret _
  · exact ((Varint.refusesBelow_write 64 4 _).bind_ret UInt64.ofNat).bind_ret _

/-- A scalar is refused unless all of it is there. -/
lemma Kind.Scalar.refusesBelow {k : Kind} (hk : k.Scalar) (v : k.Val) :
    RefusesBelow k.unpack (k.pack v) (k.pack v).length := by
  cases k with
  | string | object => exact hk.elim
  | int32 => exact refusesBelow_unpackInt32 v
  | sint32 => exact (refusesBelow_unpackUInt32 _).bind_ret _
  | uint32 => exact refusesBelow_unpackUInt32 v
  | enum => exact (refusesBelow_unpackUInt32 _).bind_ret _
  | int64 => exact (refusesBelow_unpackUInt64 _).bind_ret _
  | sint64 => exact (refusesBelow_unpackUInt64 _).bind_ret _
  | uint64 => exact refusesBelow_unpackUInt64 v
  | float => exact refusesBelow_unpackBinary v.2.le _
  | double => exact refusesBelow_unpackBinary v.2.le _
  | bool => exact refusesBelow_unpackBool _

/-- A tag is read whatever its id, and refused unless all of it is there. -/
lemma tag_cut (id : UInt32) (type : UInt8) :
    RefusesBelow unpackTag (packTag id type) (packTag id type).length ∧
      ∃ t, Decodes unpackTag (packTag id type) t :=
  ⟨(refusesBelow_unpackUInt32 _).bind_ret _, _, (decodes_unpackUInt32 _).bind_ret _ rfl⟩

/-! ## One field -/

section oneField

variable {α : Type}

/-- A tag, a length and a body: the body decides. -/
lemma delimited_cut {body : UInt32 → Decoder α} {n : ℕ} {bs : List UInt8} {m : ℕ}
    (hrefuses : RefusesBelow (body (UInt32.ofNat n)) bs m)
    (haccepts : AcceptsFrom (body (UInt32.ofNat n)) bs m) (id : UInt32) :
    RefusesBelow (unpackTag >>= fun _ => unpackUInt32 >>= body)
        (packTag id 2 ++ packUInt32 (UInt32.ofNat n) ++ bs)
        ((packTag id 2).length + (packUInt32 (UInt32.ofNat n)).length + m) ∧
      AcceptsFrom (unpackTag >>= fun _ => unpackUInt32 >>= body)
        (packTag id 2 ++ packUInt32 (UInt32.ofNat n) ++ bs)
        ((packTag id 2).length + (packUInt32 (UInt32.ofNat n)).length + m) := by
  obtain ⟨htag, t, hdec⟩ := tag_cut id 2
  rw [List.append_assoc, Nat.add_assoc]
  constructor
  · exact htag.bind hdec ((refusesBelow_unpackUInt32 _).bind (decodes_unpackUInt32 _) hrefuses)
  · exact AcceptsFrom.bind hdec (AcceptsFrom.bind (decodes_unpackUInt32 _) haccepts)

/-- The body of a string is never refused. -/
lemma acceptsFrom_takeClamped (n : UInt32) (bs : List UInt8) : AcceptsFrom (takeClamped n) bs 0 := by
  intro k _ _ mem a _
  rw [takeClamped]
  exact Option.some_ne_none _

/-- The body of an object is not refused while the rest of it still stands in memory. -/
lemma acceptsFrom_within {T : Type} {ty : ObjectType T} (hty : ty.Coherent) {v : T}
    (hv : ty.size v < 2 ^ 32) :
    AcceptsFrom (within (UInt32.ofNat (ty.size v)).toNat (ty.unpackBuffer ty.fresh))
      (packObject ty v) 0 := by
  intro k _ _ mem a hmem
  have hval := hty.unpackBuffer_packBuffer v mem a hmem
  rw [UInt32.toNat_ofNat_of_lt' hv, within_of_some hval]
  exact Option.some_ne_none v

/-- Fixed bytes are accepted as soon as they are all there. -/
lemma acceptsFrom_unpackBinary (len : ℕ) (bs : List UInt8) :
    AcceptsFrom (unpackBinary len) bs len := by
  intro k hn _ mem a _
  rw [unpackBinary, if_neg (not_lt.mpr hn)]
  exact Option.some_ne_none _

/-- A function of the value changes nothing about when it is accepted. -/
lemma acceptsFrom_bind_ret {β : Type} {d : Decoder α} {bs : List UInt8} {n : ℕ}
    (h : AcceptsFrom d bs n) (g : α → β) : AcceptsFrom (d >>= fun a => pure (g a)) bs n := by
  intro k hn hk mem a hmem
  rw [bind_pure_val, ne_eq, Option.map_eq_none_iff]
  exact h k hn hk mem a hmem

end oneField

/-- A scalar field is visible in all of its bytes. -/
lemma Field.visible_scalar {k : Kind} (hk : k.Scalar) (id : UInt32) (v : k.Val) :
    (Field.ofKind k id v).visible = (k.packTag id v).length := by
  cases k with
  | string | object => exact hk.elim
  | _ => rfl

/-- **One field.** Given fewer bytes than `visible` the decoder of a field fails; given as many or
more it succeeds, the rest of the field still standing in memory. -/
lemma Field.cut (f : Field) (hobj : f.ObjectOk) :
    RefusesBelow f.decode f.bytes f.visible ∧ AcceptsFrom f.decode f.bytes f.visible := by
  have hscalar : ∀ (k : Kind), k.Scalar → ∀ (id : UInt32) (v : k.Val),
      RefusesBelow (unpackTag >>= fun _ => k.unpack) (k.packTag id v) (k.packTag id v).length ∧
        AcceptsFrom (unpackTag >>= fun _ => k.unpack) (k.packTag id v)
          (k.packTag id v).length := by
    intro k hk id v
    obtain ⟨htag, t, hdec⟩ := tag_cut id k.type
    rw [hk.packTag_eq, List.length_append]
    exact ⟨htag.bind hdec (hk.refusesBelow v), AcceptsFrom.bind hdec (hk.packed v).2.acceptsFrom⟩
  cases f with
  | ofKind k id v =>
      by_cases hk : k.Scalar
      · rw [visible_scalar hk]
        exact hscalar k hk id v
      · cases k with
        | string =>
            exact delimited_cut (fun q _ hlt => absurd hlt (Nat.not_lt_zero _))
              (acceptsFrom_takeClamped _ v) id
        | object T ty =>
            exact delimited_cut (fun q _ hlt => absurd hlt (Nat.not_lt_zero _))
              (acceptsFrom_within hobj.1 hobj.2) id
        | _ => exact absurd trivial hk
  | binary id v =>
      have hn : (UInt32.ofNat v.length).toNat = v.length % 2 ^ 32 := UInt32.toNat_ofNat'
      have hrefuses : RefusesBelow (binaryBody (UInt32.ofNat v.length)) v (v.length % 2 ^ 32) :=
        (refusesBelow_unpackBinary hn.ge v).bind_ret _
      have haccepts : AcceptsFrom (binaryBody (UInt32.ofNat v.length)) v (v.length % 2 ^ 32) := by
        rw [← hn]
        exact acceptsFrom_bind_ret (acceptsFrom_unpackBinary _ v) _
      exact delimited_cut hrefuses haccepts id

/-! ## Reading fields back -/

/-- A field whose length fits is decoded to its value. -/
lemma Field.decodes (f : Field) (hobj : f.ObjectOk) (hfit : f.LengthFits) :
    Decodes f.decode f.bytes f.val := by
  cases f with
  | ofKind k id v =>
      have hv : k.Fits v := by
        cases k with
        | string => exact hfit
        | object T ty => exact hobj
        | _ => trivial
      obtain ⟨body, hbody, -, hdec⟩ := kind_packed k id v hv
      obtain ⟨-, t, htag⟩ := tag_cut id k.type
      show Decodes (unpackTag >>= fun _ => k.unpack) (k.packTag id v) v
      rw [hbody]
      exact htag.bind hdec
  | binary id v =>
      obtain ⟨-, t, htag⟩ := tag_cut id 2
      have hn : (UInt32.ofNat v.length).toNat = v.length := UInt32.toNat_ofNat_of_lt' hfit
      have hbody : Decodes (binaryBody (UInt32.ofNat v.length)) v v := by
        rw [binaryBody, hn]
        exact (decodes_unpackBinary (⟨v, rfl⟩ : Raw v.length)).bind_ret _ rfl
      show Decodes (unpackTag >>= fun _ => unpackLengthBinary) (packBinaryTag id v) v
      rw [packBinaryTag, List.append_assoc]
      exact htag.bind ((decodes_unpackUInt32 _).bind hbody)

/-- What is decoded of a string or binary field has a length below `2 ^ 32`. -/
lemma Field.decode_ne_of_not_fits {f : Field} (h : ¬ f.LengthFits) (mem : Mem) (c : Cursor) :
    (f.decode mem c).val ≠ some f.val := by
  -- Both decoders end with a number of bytes that came out of a 32-bit length.
  have hlength : ∀ {body : UInt32 → Decoder (List UInt8)},
      (∀ n mem c v, (body n mem c).val = some v → v.length < 2 ^ 32) → ∀ v,
      ((unpackTag >>= fun _ => unpackUInt32 >>= body) mem c).val = some v → v.length < 2 ^ 32 := by
    intro body hbody v hv
    cases ht : (unpackTag mem c).val with
    | none =>
        rw [Decoder.bind_of_none ht] at hv
        cases hv
    | some t =>
        rw [Decoder.bind_of_some ht] at hv
        cases hn : (unpackUInt32 mem (unpackTag mem c).cur).val with
        | none =>
            rw [Decoder.bind_of_none hn] at hv
            cases hv
        | some n =>
            rw [Decoder.bind_of_some hn] at hv
            exact hbody n _ _ v hv
  intro hval
  cases f with
  | ofKind k id v =>
      cases k with
      | string =>
          refine h (hlength ?_ v hval)
          intro n mem c u hu
          rw [takeClamped, Option.some.injEq] at hu
          rw [← hu, length_bytesAt]
          exact UInt32.toNat_lt _
      | _ => exact h trivial
  | binary id v =>
      refine h (hlength ?_ v hval)
      intro n mem c u hu
      rw [binaryBody, bind_pure_val, Option.map_eq_some_iff] at hu
      obtain ⟨raw, -, rfl⟩ := hu
      rw [raw.2]
      exact n.toNat_lt

/-- Fields whose lengths fit are read back, up to the bytes behind them. -/
lemma readsBack_of_fits {fs : List Field} (hobj : ∀ f ∈ fs, f.ObjectOk)
    (hfit : ∀ f ∈ fs, f.LengthFits) {mem : Mem} {a : ℕ} (left : ℕ)
    (hmem : Holds mem a (fs.flatMap Field.bytes)) :
    ReadsBack mem fs ⟨a, (fs.flatMap Field.bytes).length + left⟩
      ⟨a + (fs.flatMap Field.bytes).length, left⟩ := by
  induction fs generalizing a with
  | nil =>
      show (⟨a, 0 + left⟩ : Cursor) = ⟨a + 0, left⟩
      rw [Nat.zero_add, Nat.add_zero]
  | cons f fs ih =>
      rw [List.flatMap_cons, holds_append] at hmem
      rw [List.flatMap_cons, List.length_append]
      obtain ⟨hval, hcur⟩ := f.decodes (hobj f List.mem_cons_self) (hfit f List.mem_cons_self) mem
        ⟨a, f.bytes.length + (fs.flatMap Field.bytes).length + left⟩ hmem.1
        (by show f.bytes.length ≤ f.bytes.length + (fs.flatMap Field.bytes).length + left; omega)
      refine ⟨hval, ?_⟩
      have hrest := ih (fun g hg => hobj g (List.mem_cons_of_mem f hg))
        (fun g hg => hfit g (List.mem_cons_of_mem f hg)) hmem.2
      have hcur' : (f.decode mem
          ⟨a, f.bytes.length + (fs.flatMap Field.bytes).length + left⟩).cur
          = ⟨a + f.bytes.length, (fs.flatMap Field.bytes).length + left⟩ := by
        rw [hcur]
        ext
        · rfl
        · show f.bytes.length + (fs.flatMap Field.bytes).length + left - f.bytes.length
            = (fs.flatMap Field.bytes).length + left
          omega
      rw [hcur', ← Nat.add_assoc]
      exact hrest

/-- Fields that are read back have lengths that fit. -/
lemma ReadsBack.fits {mem : Mem} {fs : List Field} {c c' : Cursor} (h : ReadsBack mem fs c c') :
    ∀ f ∈ fs, f.LengthFits := by
  induction fs generalizing c with
  | nil => exact fun f hf => absurd hf List.not_mem_nil
  | cons g fs ih =>
      intro f hf
      rcases List.mem_cons.mp hf with rfl | hf
      · by_contra hno
        exact Field.decode_ne_of_not_fits hno mem c h.1
      · exact ih h.2 f hf

/-- Where a field is read back to is determined. -/
lemma ReadsBack.unique {mem : Mem} {fs : List Field} {c c₁ c₂ : Cursor}
    (h₁ : ReadsBack mem fs c c₁) (h₂ : ReadsBack mem fs c c₂) : c₁ = c₂ := by
  induction fs generalizing c with
  | nil => exact h₁.symm.trans h₂
  | cons f fs ih => exact ih h₁.2 h₂.2

/-- **Truncation.** Fields in order, the last one cut: the first are read back and the cut one is
refused, whatever stands behind the input, exactly if the strings and binary fields in front are
shorter than `2 ^ 32` bytes and fewer than `visible` bytes of the last field are there. For a scalar
that is any cut; for a string or an object, a cut inside the tag or the length; for a binary field
shorter than `2 ^ 32` bytes, any cut. -/
theorem truncation_detected_iff (pre : List Field) (f : Field) (p : List UInt8)
    (hp : p <+: f.bytes) (hcut : p.length < f.bytes.length)
    (hobj : ∀ g ∈ pre ++ [f], g.ObjectOk) :
    TruncationDetected pre f p ↔ (∀ g ∈ pre, g.LengthFits) ∧ p.length < f.visible := by
  have hpre : ∀ g ∈ pre, g.ObjectOk := fun g hg => hobj g (List.mem_append_left _ hg)
  obtain ⟨hrefuses, haccepts⟩ := f.cut (hobj f (by simp))
  constructor
  · intro h
    -- The uncut encoding stands in memory.
    obtain ⟨mem, hmem⟩ : ∃ mem, Holds mem 0 (pre.flatMap Field.bytes ++ f.bytes) :=
      ⟨_, holds_memOf _⟩
    have hmemp : Holds mem 0 (pre.flatMap Field.bytes ++ p) := by
      obtain ⟨rest, hrest⟩ := hp
      rw [← hrest, ← List.append_assoc, holds_append] at hmem
      exact hmem.1
    obtain ⟨c, hback, hnone⟩ := h mem 0 hmemp
    refine ⟨hback.fits, ?_⟩
    by_contra hlong
    have hthere := readsBack_of_fits hpre hback.fits p.length (holds_append.mp hmem).1
    rw [List.length_append] at hback
    obtain rfl := hback.unique hthere
    exact haccepts p.length (not_lt.mp hlong) hcut.le _ _ (holds_append.mp hmem).2 hnone
  · rintro ⟨hfit, hshort⟩ mem a hmem
    rw [holds_append] at hmem
    rw [List.length_append]
    exact ⟨_, readsBack_of_fits hpre hfit p.length hmem.1, hrefuses p hp hshort mem _ hmem.2⟩

/-- The string `hi` as field 1, cut after its first character: what is there is taken for the
string. -/
theorem not_truncation_detected_string :
    packStringTag 1 [104, 105] = [10, 2, 104, 105] ∧
      (unpackString (memOf [10, 2, 104]) (unpackTag (memOf [10, 2, 104]) ⟨0, 3⟩).cur).val
        = some [104] ∧
      ¬ TruncationDetected [] (.ofKind .string 1 ([104, 105] : List UInt8)) [10, 2, 104] := by
  refine ⟨by decide, by decide, ?_⟩
  intro h
  obtain ⟨c, rfl, hnone⟩ := h (memOf [10, 2, 104]) 0 (holds_memOf [10, 2, 104])
  have hsome : ((Field.ofKind .string 1 ([104, 105] : List UInt8)).decode (memOf [10, 2, 104])
      ⟨0, 3⟩).val = some ([104] : List UInt8) := rfl
  exact absurd (hsome.symm.trans hnone) (Option.some_ne_none _)

end CocInside.Ssu
