import CocInside.Packet.Packets

/-!
# Fields that a message does not know

`CSUserLogin_0x1::unpackBuffer` passes over a field with another tag by going on behind the tag: the
payload of the field is read as tags again. Every token it reads, tag or value, is a varint, and a
byte below 128 ends one; so what it does with inserted bytes can be read off them alone. A token of
more than five bytes shifts a 32-bit number by 35, which is undefined; a payload may well hold one.

* `UnknownField`: a well-formed field with a tag other than 1.
* `ForwardCompatible`: inserted fields change nothing, and nothing undefined happens.
* `Skips`, `AwaitsValue`: bytes that are read as tags of other fields only, and bytes behind which
  the loop is about to read the value of field 1.
* `Gives`: the value that is left, unless a shift was undefined.
* `forwardCompatible_iff`: the inserted fields that change nothing.

Source: `CocTest/Classes/Packet/PacketsCtoS.cpp`, `CSUserLogin_0x1::unpackBuffer`.
-/

namespace CocInside.Packet

open CocInside.Lib CocInside.Ssu

/-- The payload of a field, by wire type. -/
inductive Payload where
  | varint (groups : List UInt8) (whole : Varint.Whole groups)
  | fixed64 (bytes : Raw 8)
  | delimited (bytes : List UInt8) (short : bytes.length < 2 ^ 32)
  | fixed32 (bytes : Raw 4)

namespace Payload

/-- The wire type. -/
def type : Payload → UInt8
  | varint _ _ => 0
  | fixed64 _ => 1
  | delimited _ _ => 2
  | fixed32 _ => 5

/-- The bytes behind the tag. -/
def bytes : Payload → List UInt8
  | varint groups _ => groups
  | fixed64 bytes => bytes.1
  | delimited bytes _ => packUInt32 (UInt32.ofNat bytes.length) ++ bytes
  | fixed32 bytes => bytes.1

end Payload

/-- A well-formed field with a tag other than 1. -/
structure UnknownField where
  id : UInt32
  id_lt : id.toNat < 2 ^ 29
  id_ne : id ≠ 1
  payload : Payload

/-- The encoding of a field. -/
def UnknownField.bytes (f : UnknownField) : List UInt8 :=
  packTag f.id f.payload.type ++ f.payload.bytes

/-- A login with fields inserted before and after its own, whatever its value and the object it is
decoded into: the decoder makes no undefined shift, returns true, takes all of the input and yields
the value. -/
def ForwardCompatible (before after : List UnknownField) : Prop :=
  ∀ (v : UInt32) (into : CSUserLogin) (mem : Mem) (a : ℕ),
    let input := before.flatMap UnknownField.bytes ++ CSUserLogin.packBuffer ⟨v⟩
      ++ after.flatMap UnknownField.bytes
    Holds mem a input →
      (CSUserLogin.unpackBuffer into mem ⟨a, input.length⟩).val = some ⟨v⟩ ∧
        (CSUserLogin.unpackBuffer into mem ⟨a, input.length⟩).cur = ⟨a + input.length, 0⟩ ∧
        ShiftsBelow 32 (CSUserLogin.unpackBuffer into mem ⟨a, input.length⟩).trace

/-- The bytes are read as tags of at most five bytes, none of them of field 1. -/
inductive Skips : List UInt8 → Prop
  | nil : Skips []
  | tag {t rest : List UInt8} {id : UInt32} {type : UInt8} (ht : Decodes unpackTag t (id, type))
      (short : t.length ≤ 5) (hid : id ≠ 1) (hrest : Skips rest) : Skips (t ++ rest)

/-- The bytes are read as tags, and values behind tags of field 1, of at most five bytes each, and
end with a tag of field 1 and type 0: the loop is about to read a value. -/
inductive AwaitsValue : List UInt8 → Prop
  | here {t : List UInt8} (ht : Decodes unpackTag t (1, 0)) (short : t.length ≤ 5) : AwaitsValue t
  | tag {t rest : List UInt8} {id : UInt32} {type : UInt8} (ht : Decodes unpackTag t (id, type))
      (short : t.length ≤ 5) (hid : id ≠ 1) (hrest : AwaitsValue rest) : AwaitsValue (t ++ rest)
  | value {t u rest : List UInt8} {w : UInt32} (ht : Decodes unpackTag t (1, 0))
      (short : t.length ≤ 5) (hu : Decodes unpackUInt32 u w) (short' : u.length ≤ 5)
      (hrest : AwaitsValue rest) : AwaitsValue (t ++ (u ++ rest))

namespace CSUserLogin

/-! ## Tokens -/

/-- What is decoded as a number is one varint. -/
lemma whole_of_decodes {u : List UInt8} {w : UInt32} (hu : Decodes unpackUInt32 u w) :
    Varint.Whole u := by
  obtain ⟨hval, hcur⟩ := hu (memOf u) ⟨0, u.length⟩ (holds_memOf u) le_rfl
  rw [Nat.sub_self, unpackUInt32, (bind_pure_cur_trace _ _ _ _).1] at hcur
  refine Varint.whole_of_read (holds_memOf u) ?_ hcur
  intro hnone
  rw [unpackUInt32, bind_pure_val, hnone] at hval
  cases hval

/-- What is decoded as a tag is one varint. -/
lemma whole_of_tag {t : List UInt8} {tt : UInt32 × UInt8} (ht : Decodes unpackTag t tt) :
    Varint.Whole t := by
  obtain ⟨hval, hcur⟩ := ht (memOf t) ⟨0, t.length⟩ (holds_memOf t) le_rfl
  rw [Nat.sub_self, unpackTag, (bind_pure_cur_trace _ _ _ _).1, unpackUInt32,
    (bind_pure_cur_trace _ _ _ _).1] at hcur
  refine Varint.whole_of_read (holds_memOf t) ?_ hcur
  intro hnone
  rw [unpackTag, bind_pure_val, unpackUInt32, bind_pure_val, hnone] at hval
  cases hval

/-- A whole varint of at most five bytes is a tag, and a value. -/
lemma whole_token {t : List UInt8} (ht : Varint.Whole t) (short : t.length ≤ 5) :
    (∃ id type, Decodes unpackTag t (id, type)) ∧ ∃ w, Decodes unpackUInt32 t w := by
  have hlen : Varint.runLength t + 1 = t.length := ht
  obtain ⟨n, hn⟩ := Varint.decodes_whole (w := 32) ht (by omega)
  have hvalue : Decodes unpackUInt32 t (UInt32.ofNat n) := hn.bind_ret _ rfl
  exact ⟨⟨_, _, hvalue.bind_ret _ rfl⟩, _, hvalue⟩

/-- A number has no undefined shift exactly if its varint has at most five bytes. -/
lemma shiftsBelow_value_iff {u rest : List UInt8} (hu : Varint.Whole u) {mem : Mem} {a : ℕ}
    (hmem : Holds mem a (u ++ rest)) :
    ShiftsBelow 32 (unpackUInt32 mem ⟨a, (u ++ rest).length⟩).trace ↔ u.length ≤ 5 := by
  have hlen : Varint.runLength u + 1 = u.length := hu
  rw [unpackUInt32, (bind_pure_cur_trace _ _ _ _).2,
    Varint.shiftsBelow_read_iff hu hmem (by decide)]
  omega

/-- Nor has a tag. -/
lemma shiftsBelow_tag_iff {t rest : List UInt8} (ht : Varint.Whole t) {mem : Mem} {a : ℕ}
    (hmem : Holds mem a (t ++ rest)) :
    ShiftsBelow 32 (unpackTag mem ⟨a, (t ++ rest).length⟩).trace ↔ t.length ≤ 5 := by
  rw [unpackTag, (bind_pure_cur_trace _ _ _ _).2, shiftsBelow_value_iff ht hmem]

/-! ## One turn of the loop -/

/-- A turn: the tag decides. -/
lemma unpackBuffer_turn (self : CSUserLogin) (mem : Mem) {c : Cursor} (h : c.leftSize ≠ 0) :
    unpackBuffer self mem c = (unpackTag >>= unpackField (c.leftSize - 1) self) mem c := by
  obtain ⟨buf, left⟩ := c
  obtain ⟨n, rfl⟩ := Nat.exists_eq_succ_of_ne_zero h
  exact unpackLoop_turn n self mem h

/-- A turn that has its tag goes on behind it, with turns enough for the bytes left. -/
lemma unpackBuffer_tag {t rest : List UInt8} {tt : UInt32 × UInt8} (ht : Decodes unpackTag t tt)
    (self : CSUserLogin) {mem : Mem} {a : ℕ} (hmem : Holds mem a (t ++ rest)) :
    ∃ n, rest.length ≤ n ∧ unpackBuffer self mem ⟨a, (t ++ rest).length⟩
      = (unpackField n self tt mem ⟨a + t.length, rest.length⟩).after
          (unpackTag mem ⟨a, (t ++ rest).length⟩).trace := by
  have hpos := (whole_of_tag ht).length_pos
  have hlen : (t ++ rest).length = t.length + rest.length := List.length_append
  obtain ⟨hval, hcur, -⟩ := ht.of_append hmem
  have hturn := unpackBuffer_turn self mem
    (show (⟨a, (t ++ rest).length⟩ : Cursor).leftSize ≠ 0 by show (t ++ rest).length ≠ 0; omega)
  rw [Decoder.bind_of_some hval, hcur] at hturn
  exact ⟨(t ++ rest).length - 1, by omega, hturn⟩

/-- The loop with turns enough is the decoder. -/
lemma unpackLoop_eq_unpackBuffer (self : CSUserLogin) (mem : Mem) {n : ℕ} {c : Cursor}
    (h : c.leftSize ≤ n) : unpackLoop n self mem c = unpackBuffer self mem c :=
  unpackLoop_fuel self h le_rfl

/-- Another field: the loop goes on behind its tag. -/
lemma unpackBuffer_skip {t rest : List UInt8} {id : UInt32} {type : UInt8}
    (ht : Decodes unpackTag t (id, type)) (hid : id ≠ 1) (self : CSUserLogin) {mem : Mem} {a : ℕ}
    (hmem : Holds mem a (t ++ rest)) :
    unpackBuffer self mem ⟨a, (t ++ rest).length⟩
      = (unpackBuffer self mem ⟨a + t.length, rest.length⟩).after
          (unpackTag mem ⟨a, (t ++ rest).length⟩).trace := by
  obtain ⟨n, hn, hturn⟩ := unpackBuffer_tag ht self hmem
  rw [hturn, unpackField, if_neg hid, unpackLoop_eq_unpackBuffer self mem hn]

/-- Field 1: its value is stored and the loop goes on behind it. -/
lemma unpackBuffer_value {t u rest : List UInt8} {w : UInt32} (ht : Decodes unpackTag t (1, 0))
    (hu : Decodes unpackUInt32 u w) (self : CSUserLogin) {mem : Mem} {a : ℕ}
    (hmem : Holds mem a (t ++ (u ++ rest))) :
    unpackBuffer self mem ⟨a, (t ++ (u ++ rest)).length⟩
      = (unpackBuffer ⟨w⟩ mem ⟨a + t.length + u.length, rest.length⟩).after
          ((unpackTag mem ⟨a, (t ++ (u ++ rest)).length⟩).trace
            ++ (unpackUInt32 mem ⟨a + t.length, (u ++ rest).length⟩).trace) := by
  obtain ⟨n, hn, hturn⟩ := unpackBuffer_tag ht self hmem
  obtain ⟨hval, hcur, -⟩ := hu.of_append (holds_append.mp hmem).2
  have hle : rest.length ≤ n := by
    rw [List.length_append] at hn
    omega
  rw [hturn, unpackField, if_pos rfl, if_neg (by simp), Decoder.bind_of_some hval, hcur,
    unpackLoop_eq_unpackBuffer ⟨w⟩ mem hle, ← Outcome.after_after]
  rfl

/-! ## Values left unless a shift is undefined -/

/-- The value left is `r`, unless a shift was undefined on the way. -/
def Gives (r : Option CSUserLogin) (o : Lib.Outcome CSUserLogin) : Prop :=
  o.val = r ∨ ¬ ShiftsBelow 32 o.trace

/-- Accesses before change nothing about the value left. -/
lemma Gives.after {r : Option CSUserLogin} {o : Lib.Outcome CSUserLogin} (h : Gives r o)
    (tr : List Access) : Gives r (o.after tr) := by
  rcases h with hval | hover
  · exact .inl hval
  · refine .inr ?_
    rw [Outcome.trace_after, shiftsBelow_append]
    exact fun h => hover h.2

/-- A tag of more than five bytes is undefined. -/
lemma gives_of_longTag {t rest : List UInt8} (ht : Varint.Whole t) (long : ¬ t.length ≤ 5)
    (self : CSUserLogin) (r : Option CSUserLogin) {mem : Mem} {a : ℕ}
    (hmem : Holds mem a (t ++ rest)) :
    Gives r (unpackBuffer self mem ⟨a, (t ++ rest).length⟩) := by
  have hpos := ht.length_pos
  have hlen : (t ++ rest).length = t.length + rest.length := List.length_append
  refine .inr ?_
  rw [unpackBuffer_turn self mem (by show (t ++ rest).length ≠ 0; omega)]
  exact fun h => long ((shiftsBelow_tag_iff ht hmem).mp h.of_bind)

/-- So is a value of field 1 of more than five bytes. -/
lemma gives_of_longValue {t u rest : List UInt8} (ht : Decodes unpackTag t (1, 0))
    (hu : Varint.Whole u) (long : ¬ u.length ≤ 5) (self : CSUserLogin) (r : Option CSUserLogin)
    {mem : Mem} {a : ℕ} (hmem : Holds mem a (t ++ (u ++ rest))) :
    Gives r (unpackBuffer self mem ⟨a, (t ++ (u ++ rest)).length⟩) := by
  obtain ⟨n, -, hturn⟩ := unpackBuffer_tag ht self hmem
  rw [hturn]
  refine Gives.after (.inr ?_) _
  rw [unpackField, if_pos rfl, if_neg (by simp)]
  exact fun h => long ((shiftsBelow_value_iff hu (holds_append.mp hmem).2).mp h.of_bind)

/-- Field 1 with another wire type is refused. -/
lemma gives_of_badType {t rest : List UInt8} {type : UInt8} (ht : Decodes unpackTag t (1, type))
    (htype : type ≠ 0) (self : CSUserLogin) {mem : Mem} {a : ℕ} (hmem : Holds mem a (t ++ rest)) :
    Gives none (unpackBuffer self mem ⟨a, (t ++ rest).length⟩) := by
  obtain ⟨n, -, hturn⟩ := unpackBuffer_tag ht self hmem
  rw [hturn, unpackField, if_pos rfl, if_pos htype]
  exact .inl rfl

/-- Field 1 without a whole value behind it is refused. -/
lemma gives_of_noValue {t rest : List UInt8} (ht : Decodes unpackTag t (1, 0))
    (hrest : ¬ Varint.runLength rest < rest.length) (self : CSUserLogin) {mem : Mem} {a : ℕ}
    (hmem : Holds mem a (t ++ rest)) :
    Gives none (unpackBuffer self mem ⟨a, (t ++ rest).length⟩) := by
  obtain ⟨n, -, hturn⟩ := unpackBuffer_tag ht self hmem
  have hnone : (unpackUInt32 mem ⟨a + t.length, rest.length⟩).val = none := by
    rw [unpackUInt32, bind_pure_val, Option.map_eq_none_iff]
    by_contra hsome
    exact hrest ((Varint.read_spec 32 (holds_append.mp hmem).2).1.mp hsome)
  rw [hturn, unpackField, if_pos rfl, if_neg (by simp), Decoder.bind_of_none hnone]
  exact .inl rfl

/-- Bytes that do not begin with a whole tag are refused. -/
lemma gives_of_noTag {bs : List UInt8} (hbs : bs ≠ [])
    (hrun : ¬ Varint.runLength bs < bs.length) (self : CSUserLogin) {mem : Mem} {a : ℕ}
    (hmem : Holds mem a bs) : Gives none (unpackBuffer self mem ⟨a, bs.length⟩) := by
  have hne : bs.length ≠ 0 := fun h => hbs (List.length_eq_zero_iff.mp h)
  have hnone : (unpackTag mem ⟨a, bs.length⟩).val = none := by
    rw [unpackTag, bind_pure_val, Option.map_eq_none_iff, unpackUInt32, bind_pure_val,
      Option.map_eq_none_iff]
    by_contra hsome
    exact hrun ((Varint.read_spec 32 hmem).1.mp hsome)
  rw [unpackBuffer_turn self mem (by exact hne), Decoder.bind_of_none hnone]
  exact .inl rfl

/-! ## Bytes behind the known field -/

/-- Bytes that are only skipped: the object stays as it is, all of them are taken, and every shift
is defined. -/
lemma unpackBuffer_of_skips {bs : List UInt8} (h : Skips bs) (self : CSUserLogin) {mem : Mem}
    {a : ℕ} (hmem : Holds mem a bs) :
    (unpackBuffer self mem ⟨a, bs.length⟩).val = some self ∧
      (unpackBuffer self mem ⟨a, bs.length⟩).cur = ⟨a + bs.length, 0⟩ ∧
      ShiftsBelow 32 (unpackBuffer self mem ⟨a, bs.length⟩).trace := by
  induction h generalizing a with
  | nil =>
      rw [unpackBuffer, unpackLoop_done _ _ _ rfl]
      exact ⟨rfl, rfl, shiftsBelow_nil 32⟩
  | @tag t rest id type ht short hid _ ih =>
      obtain ⟨hval, hcur, hshift⟩ := ih (holds_append.mp hmem).2
      rw [unpackBuffer_skip ht hid self hmem, Outcome.val_after, Outcome.cur_after,
        Outcome.trace_after, hval, hcur, shiftsBelow_append, List.length_append, Nat.add_assoc,
        ← List.length_append, shiftsBelow_tag_iff (whole_of_tag ht) hmem]
      exact ⟨rfl, rfl, short, hshift⟩

/-- **What bytes do.** They are only skipped, or what they leave does not depend on what was there
before: a value out of themselves, or a refusal, unless a shift is undefined. -/
lemma skips_or_gives (bs : List UInt8) :
    Skips bs ∨ ∃ r : Option CSUserLogin, ∀ (self : CSUserLogin) (mem : Mem) (a : ℕ),
      Holds mem a bs → Gives r (unpackBuffer self mem ⟨a, bs.length⟩) := by
  induction hn : bs.length using Nat.strongRecOn generalizing bs with
  | ind n ih =>
      subst hn
      by_cases hnil : bs = []
      · subst hnil
        exact .inl .nil
      by_cases hrun : Varint.runLength bs < bs.length
      swap
      · exact .inr ⟨none, fun self mem a hmem => gives_of_noTag hnil hrun self hmem⟩
      obtain ⟨t, rest, rfl, ht⟩ := Varint.exists_whole hrun
      have hpos := ht.length_pos
      rw [List.length_append] at ih
      by_cases short : t.length ≤ 5
      swap
      · exact .inr ⟨none, fun self mem a hmem => gives_of_longTag ht short self none hmem⟩
      obtain ⟨id, type, htag⟩ := (whole_token ht short).1
      by_cases hid : id = 1
      · subst hid
        right
        by_cases htype : type = 0
        swap
        · exact ⟨none, fun self mem a hmem => gives_of_badType htag htype self hmem⟩
        subst htype
        by_cases hrun' : Varint.runLength rest < rest.length
        swap
        · exact ⟨none, fun self mem a hmem => gives_of_noValue htag hrun' self hmem⟩
        obtain ⟨u, rest, rfl, hu⟩ := Varint.exists_whole hrun'
        rw [List.length_append] at ih
        by_cases short' : u.length ≤ 5
        swap
        · exact ⟨none, fun self mem a hmem => gives_of_longValue htag hu short' self none hmem⟩
        obtain ⟨w, hw⟩ := (whole_token hu short').2
        -- The value is stored, and the bytes behind it keep or replace it.
        rcases ih rest.length (by omega) rest rfl with hskips | ⟨r, hr⟩
        · refine ⟨some ⟨w⟩, ?_⟩
          intro self mem a hmem
          have hrest := (holds_append.mp (holds_append.mp hmem).2).2
          rw [unpackBuffer_value htag hw self hmem]
          exact .inl (unpackBuffer_of_skips hskips ⟨w⟩ hrest).1
        · refine ⟨r, ?_⟩
          intro self mem a hmem
          have hrest := (holds_append.mp (holds_append.mp hmem).2).2
          rw [unpackBuffer_value htag hw self hmem]
          exact (hr ⟨w⟩ mem _ hrest).after _
      · rcases ih rest.length (by omega) rest rfl with hskips | ⟨r, hr⟩
        · exact .inl (.tag htag short hid hskips)
        · refine .inr ⟨r, ?_⟩
          intro self mem a hmem
          rw [unpackBuffer_skip htag hid self hmem]
          exact (hr self mem _ (holds_append.mp hmem).2).after _

/-- What bytes leave of one object does not depend on where they stand. -/
lemma exists_gives (bs : List UInt8) (self : CSUserLogin) :
    ∃ r, ∀ (mem : Mem) (a : ℕ), Holds mem a bs →
      Gives r (unpackBuffer self mem ⟨a, bs.length⟩) := by
  rcases skips_or_gives bs with hskips | ⟨r, hr⟩
  · exact ⟨some self, fun mem a hmem => .inl (unpackBuffer_of_skips hskips self hmem).1⟩
  · exact ⟨r, hr self⟩

/-! ## Bytes before the value -/

/-- Behind bytes that await a value, the value is stored; every shift on the way is defined. -/
lemma unpackBuffer_of_awaits {bs : List UInt8} (h : AwaitsValue bs) (v : UInt32)
    {rest : List UInt8} (self : CSUserLogin) {mem : Mem} {a : ℕ}
    (hmem : Holds mem a (bs ++ (packUInt32 v ++ rest))) :
    ∃ tr, ShiftsBelow 32 tr ∧ unpackBuffer self mem ⟨a, (bs ++ (packUInt32 v ++ rest)).length⟩
      = (unpackBuffer ⟨v⟩ mem ⟨a + bs.length + (packUInt32 v).length, rest.length⟩).after tr := by
  have hv := decodes_unpackUInt32 v
  have hvlen : (packUInt32 v).length ≤ 5 := by
    rw [length_packUInt32, sizeUInt32]
    split_ifs <;> omega
  induction h generalizing self a with
  | here ht short =>
      have hu := (holds_append.mp hmem).2
      refine ⟨_, ?_, unpackBuffer_value ht hv self hmem⟩
      rw [shiftsBelow_append, shiftsBelow_tag_iff (whole_of_tag ht) hmem,
        shiftsBelow_value_iff (whole_of_decodes hv) hu]
      exact ⟨short, hvlen⟩
  | @tag t bs id type ht short hid _ ih =>
      rw [List.append_assoc] at hmem ⊢
      obtain ⟨tr, hshift, heq⟩ := ih self (holds_append.mp hmem).2
      have hpos : a + (t ++ bs).length = a + t.length + bs.length := by
        rw [List.length_append, Nat.add_assoc]
      rw [unpackBuffer_skip ht hid self hmem, heq, Outcome.after_after, hpos]
      refine ⟨_, ?_, rfl⟩
      rw [shiftsBelow_append, shiftsBelow_tag_iff (whole_of_tag ht) hmem]
      exact ⟨short, hshift⟩
  | @value t u bs w ht short hu short' _ ih =>
      rw [List.append_assoc, List.append_assoc] at hmem ⊢
      have htail := (holds_append.mp hmem).2
      obtain ⟨tr, hshift, heq⟩ := ih ⟨w⟩ (holds_append.mp htail).2
      have hpos : a + (t ++ (u ++ bs)).length = a + t.length + u.length + bs.length := by
        rw [List.length_append, List.length_append]
        omega
      rw [unpackBuffer_value ht hu self hmem, heq, Outcome.after_after, hpos]
      refine ⟨_, ?_, rfl⟩
      rw [shiftsBelow_append, shiftsBelow_append, shiftsBelow_tag_iff (whole_of_tag ht) hmem,
        shiftsBelow_value_iff (whole_of_decodes hu) htail]
      exact ⟨⟨short, short'⟩, hshift⟩

/-- The bytes do not end inside a varint. -/
def Ends (bs : List UInt8) : Prop := ∀ b ∈ bs.getLast?, b < 128

/-- The bytes at the end do not end inside a varint either. -/
lemma Ends.of_append {t rest : List UInt8} (h : Ends (t ++ rest)) : Ends rest := by
  intro b hb
  refine h b ?_
  rw [List.getLast?_append, Option.mem_def, Option.mem_def.mp hb, Option.some_or]

/-- The run at the front ends before the bytes do. -/
lemma Ends.runLength_lt {bs : List UInt8} (h : Ends bs) (hne : bs ≠ []) :
    Varint.runLength bs < bs.length := by
  have hlast := h (bs.getLast hne) (List.getLast?_eq_some_getLast hne)
  have hex := (Varint.exists_last_iff bs bs.length).mp
    ⟨bs.getLast hne, by rw [List.take_length]; exact List.getLast_mem hne, hlast⟩
  exact hex.1

/-- Behind the bytes, which were read into `self`, the loop goes on as from the start with
`self'`. -/
def LeadsTo (bs : List UInt8) (self self' : CSUserLogin) : Prop :=
  ∀ (rest : List UInt8) (mem : Mem) (a : ℕ), Holds mem a (bs ++ rest) →
    ∃ tr, unpackBuffer self mem ⟨a, (bs ++ rest).length⟩
      = (unpackBuffer self' mem ⟨a + bs.length, rest.length⟩).after tr

/-- Whatever stands behind the bytes, the input is refused, unless a shift is undefined. -/
def Spoils (bs : List UInt8) (self : CSUserLogin) : Prop :=
  ∀ (rest : List UInt8) (mem : Mem) (a : ℕ), Holds mem a (bs ++ rest) →
    Gives none (unpackBuffer self mem ⟨a, (bs ++ rest).length⟩)

/-- A token in front of bytes that lead on. -/
lemma LeadsTo.append {t bs : List UInt8} {self self' self'' : CSUserLogin}
    (h : LeadsTo t self self') (h' : LeadsTo bs self' self'') : LeadsTo (t ++ bs) self self'' := by
  intro rest mem a hmem
  rw [List.append_assoc] at hmem ⊢
  obtain ⟨tr, htr⟩ := h _ mem a hmem
  obtain ⟨tr', htr'⟩ := h' rest mem _ (holds_append.mp hmem).2
  refine ⟨tr ++ tr', ?_⟩
  rw [htr, htr', Outcome.after_after, List.length_append, Nat.add_assoc]

/-- A token in front of bytes that spoil the input. -/
lemma LeadsTo.spoils {t bs : List UInt8} {self self' : CSUserLogin} (h : LeadsTo t self self')
    (h' : Spoils bs self') : Spoils (t ++ bs) self := by
  intro rest mem a hmem
  rw [List.append_assoc] at hmem ⊢
  obtain ⟨tr, htr⟩ := h _ mem a hmem
  rw [htr]
  exact (h' rest mem _ (holds_append.mp hmem).2).after tr

/-- A tag of another field is skipped. -/
lemma leadsTo_skip {t : List UInt8} {id : UInt32} {type : UInt8}
    (ht : Decodes unpackTag t (id, type)) (hid : id ≠ 1) (self : CSUserLogin) :
    LeadsTo t self self := fun _ _ _ hmem => ⟨_, unpackBuffer_skip ht hid self hmem⟩

/-- The tag and the value of the field set it. -/
lemma leadsTo_value {t u : List UInt8} {w : UInt32} (ht : Decodes unpackTag t (1, 0))
    (hu : Decodes unpackUInt32 u w) (self : CSUserLogin) : LeadsTo (t ++ u) self ⟨w⟩ := by
  intro rest mem a hmem
  have hpos : a + (t ++ u).length = a + t.length + u.length := by
    rw [List.length_append, Nat.add_assoc]
  rw [List.append_assoc] at hmem ⊢
  rw [hpos]
  exact ⟨_, unpackBuffer_value ht hu self hmem⟩

/-- **What bytes lead to.** Bytes that do not end inside a varint await a value, or spoil the input,
or lead to a tag, with an object that does not depend on what stands behind them. -/
lemma awaits_or_leads (bs : List UInt8) (hends : Ends bs) (self : CSUserLogin) :
    AwaitsValue bs ∨ Spoils bs self ∨ ∃ self', LeadsTo bs self self' := by
  induction hn : bs.length using Nat.strongRecOn generalizing bs self with
  | ind n ih =>
      subst hn
      by_cases hnil : bs = []
      · subst hnil
        exact .inr (.inr ⟨self, fun rest mem a _ => ⟨[], rfl⟩⟩)
      obtain ⟨t, bs, rfl, ht⟩ := Varint.exists_whole (hends.runLength_lt hnil)
      have hpos := ht.length_pos
      rw [List.length_append] at ih
      by_cases short : t.length ≤ 5
      swap
      · refine .inr (.inl ?_)
        intro rest mem a hmem
        rw [List.append_assoc] at hmem ⊢
        exact gives_of_longTag ht short self none hmem
      obtain ⟨id, type, htag⟩ := (whole_token ht short).1
      by_cases hid : id = 1
      swap
      · have hskip := leadsTo_skip htag hid self
        rcases ih bs.length (by omega) bs hends.of_append self rfl with hawaits | hspoils | ⟨s, hs⟩
        · exact .inl (.tag htag short hid hawaits)
        · exact .inr (.inl (hskip.spoils hspoils))
        · exact .inr (.inr ⟨s, hskip.append hs⟩)
      subst hid
      by_cases htype : type = 0
      swap
      · refine .inr (.inl ?_)
        intro rest mem a hmem
        rw [List.append_assoc] at hmem ⊢
        exact gives_of_badType htag htype self hmem
      subst htype
      by_cases hbs : bs = []
      · subst hbs
        rw [List.append_nil]
        exact .inl (.here htag short)
      obtain ⟨u, bs, rfl, hu⟩ := Varint.exists_whole (hends.of_append.runLength_lt hbs)
      rw [List.length_append] at ih
      by_cases short' : u.length ≤ 5
      swap
      · refine .inr (.inl ?_)
        intro rest mem a hmem
        rw [List.append_assoc, List.append_assoc] at hmem ⊢
        exact gives_of_longValue htag hu short' self none hmem
      obtain ⟨w, hw⟩ := (whole_token hu short').2
      have hvalue := leadsTo_value htag hw self
      rcases ih bs.length (by omega) bs hends.of_append.of_append ⟨w⟩ rfl
        with hawaits | hspoils | ⟨s, hs⟩
      · exact .inl (.value htag short hw short' hawaits)
      · rw [← List.append_assoc]
        exact .inr (.inl (hvalue.spoils hspoils))
      · rw [← List.append_assoc]
        exact .inr (.inr ⟨s, hvalue.append hs⟩)

/-! ## Inserted fields -/

/-- The tag of the known field is one byte below 128. -/
lemma ends_append_tag (bs : List UInt8) : Ends (bs ++ packTag 1 0) := by
  intro b hb
  have htag : packTag 1 0 = [8] := by decide
  rw [htag, List.getLast?_concat] at hb
  obtain rfl := Option.some.inj hb
  decide

/-- Bytes that lead to a tag leave the same of a value that is a tag of another field, whatever
value it is. -/
lemma LeadsTo.exists_gives {bs : List UInt8} {self self' : CSUserLogin} (h : LeadsTo bs self self')
    (rest : List UInt8) : ∃ r, ∀ (t : List UInt8) (id : UInt32) (type : UInt8),
      Decodes unpackTag t (id, type) → id ≠ 1 → ∀ (mem : Mem) (a : ℕ),
        Holds mem a (bs ++ (t ++ rest)) →
          Gives r (unpackBuffer self mem ⟨a, (bs ++ (t ++ rest)).length⟩) := by
  obtain ⟨r, hr⟩ := CSUserLogin.exists_gives rest self'
  refine ⟨r, ?_⟩
  intro t id type ht hid mem a hmem
  have htail := (holds_append.mp hmem).2
  obtain ⟨tr, htr⟩ := h _ mem a hmem
  rw [htr, unpackBuffer_skip ht hid self' htail]
  exact ((hr mem _ (holds_append.mp htail).2).after _).after tr

/-- Bytes that await a value leave of a value `v` what those behind it leave of it. -/
lemma gives_of_awaits {bs rest : List UInt8} (h : AwaitsValue bs) {r : Option CSUserLogin}
    (hr : ∀ (self : CSUserLogin) (mem : Mem) (a : ℕ), Holds mem a rest →
      Gives r (unpackBuffer self mem ⟨a, rest.length⟩)) (v : UInt32) (self : CSUserLogin)
    {mem : Mem} {a : ℕ} (hmem : Holds mem a (bs ++ (packUInt32 v ++ rest))) :
    Gives r (unpackBuffer self mem ⟨a, (bs ++ (packUInt32 v ++ rest)).length⟩) := by
  obtain ⟨tr, -, htr⟩ := unpackBuffer_of_awaits h v self hmem
  have htail := (holds_append.mp (holds_append.mp hmem).2).2
  rw [Nat.add_assoc, Nat.add_comm bs.length, ← Nat.add_assoc] at htr
  rw [htr]
  refine (hr ⟨v⟩ mem _ ?_).after tr
  rwa [Nat.add_right_comm]

end CSUserLogin

open CSUserLogin

/-- **Forward compatibility.** Inserting fields before and after the known field of a login changes
nothing, for all values, and every shift is defined, exactly if the bytes inserted before it
together with its own tag are read as tags and values that end with a tag of field 1, and those
inserted after it are read as tags of which none is of field 1, all of them of at most five
bytes. -/
theorem forwardCompatible_iff (before after : List UnknownField) :
    ForwardCompatible before after ↔
      AwaitsValue (before.flatMap UnknownField.bytes ++ packTag 1 0) ∧
        Skips (after.flatMap UnknownField.bytes) := by
  set bs := before.flatMap UnknownField.bytes with hbs
  set rest := after.flatMap UnknownField.bytes with hrest
  have hinput : ∀ v, bs ++ CSUserLogin.packBuffer ⟨v⟩ ++ rest
      = bs ++ packTag 1 0 ++ (packUInt32 v ++ rest) := by
    intro v
    rw [packBuffer, packUInt32Tag, List.append_assoc, List.append_assoc, List.append_assoc]
  constructor
  · intro h
    -- A result that all values share would be the result for 0 and for 16.
    have hnot : ∀ r, ¬ ∀ v, v = 0 ∨ v = 16 → ∀ mem,
        Holds mem 0 (bs ++ packTag 1 0 ++ (packUInt32 v ++ rest)) →
        Gives r (unpackBuffer ⟨0⟩ mem
          ⟨0, (bs ++ packTag 1 0 ++ (packUInt32 v ++ rest)).length⟩) := by
      intro r hr
      have hval : ∀ v, v = 0 ∨ v = 16 → r = some ⟨v⟩ := by
        intro v hv
        have hmem := holds_memOf (bs ++ packTag 1 0 ++ (packUInt32 v ++ rest))
        have hgives := hr v hv _ hmem
        rw [← hinput] at hmem hgives
        obtain ⟨hsome, -, hshift⟩ := h v ⟨0⟩ _ 0 hmem
        rcases hgives with hval | hover
        · exact hval.symm.trans hsome
        · exact absurd hshift hover
      exact absurd ((hval 0 (.inl rfl)).symm.trans (hval 16 (.inr rfl))) (by decide)
    rcases awaits_or_leads _ (ends_append_tag bs) ⟨0⟩ with hawaits | hspoils | ⟨self', hleads⟩
    · refine ⟨hawaits, ?_⟩
      rcases skips_or_gives rest with hskips | ⟨r, hr⟩
      · exact hskips
      · exact absurd (fun v _ mem hmem => gives_of_awaits hawaits hr v ⟨0⟩ hmem) (hnot r)
    · exact absurd (fun v _ mem hmem => hspoils _ mem 0 hmem) (hnot none)
    · -- Read as tags, 0 and 16 are tags of other fields.
      obtain ⟨r, hr⟩ := hleads.exists_gives rest
      refine absurd ?_ (hnot r)
      rintro v (rfl | rfl) mem hmem
      · exact hr _ 0 0 ((decodes_unpackUInt32 0).bind_ret _ rfl) (by decide) mem 0 hmem
      · exact hr _ 2 0 ((decodes_unpackUInt32 16).bind_ret _ rfl) (by decide) mem 0 hmem
  · rintro ⟨hawaits, hskips⟩ v into mem a input hmem
    have hinput' : input = bs ++ packTag 1 0 ++ (packUInt32 v ++ rest) := hinput v
    rw [hinput'] at hmem ⊢
    obtain ⟨tr, htr, heq⟩ := unpackBuffer_of_awaits hawaits v into hmem
    have htail := (holds_append.mp (holds_append.mp hmem).2).2
    obtain ⟨hval, hcur, hshift⟩ := unpackBuffer_of_skips hskips ⟨v⟩ htail
    rw [heq, Outcome.val_after, Outcome.cur_after, Outcome.trace_after, shiftsBelow_append]
    refine ⟨hval, hcur.trans ?_, htr, hshift⟩
    simp only [List.length_append]
    ext
    · show a + (bs.length + (packTag 1 0).length) + (packUInt32 v).length + rest.length
        = a + (bs.length + (packTag 1 0).length + ((packUInt32 v).length + rest.length))
      omega
    · rfl

/-- A field with tag 2 and four bytes, two of which look like field 1 with value 7. -/
def lookalike : UnknownField := ⟨2, by decide, by decide, .fixed32 ⟨[8, 7, 0, 0], rfl⟩⟩

/-- Behind a login with value 5 it replaces the value by 7. -/
theorem not_forwardCompatible_lookalike :
    lookalike.bytes = [21, 8, 7, 0, 0] ∧
      (CSUserLogin.unpackBuffer ⟨0⟩ (memOf [8, 5, 21, 8, 7, 0, 0]) ⟨0, 7⟩).val = some ⟨7⟩ ∧
      ¬ ForwardCompatible [] [lookalike] := by
  have hval : (CSUserLogin.unpackBuffer ⟨0⟩ (memOf [8, 5, 21, 8, 7, 0, 0]) ⟨0, 7⟩).val
      = some ⟨7⟩ := by decide
  refine ⟨by decide, hval, ?_⟩
  intro h
  have h5 := (h 5 ⟨0⟩ (memOf [8, 5, 21, 8, 7, 0, 0]) 0 (holds_memOf [8, 5, 21, 8, 7, 0, 0])).1
  exact absurd (hval.symm.trans h5) (by decide)

end CocInside.Packet
