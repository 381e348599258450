import CocInside.Ssu.Bounds

/-!
# Repeated fields: round trip

A list of scalars is written in one of two ways: packed, as one field whose body is the elements in
a row behind their total size, which a separate pass computes; or as one tagged field for each
element. Both decoders append to a `RepeatedObject`, a buffer that starts with room for eight
elements and doubles.

* `RepeatedObject`, `reserve`, `add`: the class, with the elements below its size as a list.
* `sizeRepeated`, `sizeRepeatedPacked`, `packRepeatedTag`, `packRepeatedPackedTag`: the encoders.
* `RepeatedObject.unpackRepeated`, `RepeatedObject.unpackRepeatedPacked`: the decoders, shown to do
  to the elements what the decoders over lists do.
* `repeated_roundTrip`: both encodings of a list decode to it.

Source: `Ssu/SsuUtils.h`, `Ssu/SsuRepeated.h`.
-/

namespace CocInside.Ssu

open CocInside.Lib

/-! ## The container -/

/-- `objs` is the storage, as long as `_capacity`; the elements are the first `size`.
Source: `SsuRepeated.h`, `RepeatedObject`. -/
structure RepeatedObject (T : Type) where
  objs : List T
  size : ℕ
  size_le : size ≤ objs.length

namespace RepeatedObject

variable {T : Type}

/-- An empty container; `fill` is what storage holds before it is written.
Source: `SsuRepeated.h`, `RepeatedObject::RepeatedObject`. -/
def create (fill : T) : RepeatedObject T := ⟨List.replicate 8 fill, 0, Nat.zero_le _⟩

/-- Source: `SsuRepeated.h`, `RepeatedObject::capacity`. -/
def capacity (r : RepeatedObject T) : ℕ := r.objs.length

/-- The elements, from `begin()` to `end()`. -/
def toList (r : RepeatedObject T) : List T := r.objs.take r.size

/-- Source: `SsuRepeated.h`, `RepeatedObject::reserve`. -/
def reserve (fill : T) (r : RepeatedObject T) (newsize : ℕ) : RepeatedObject T :=
  if newsize ≤ r.capacity then r
  else
    let capacity := max newsize (r.capacity * 2)
    { objs := r.objs.take r.size ++ List.replicate (capacity - r.size) fill
      size := r.size
      size_le := by
        rw [List.length_append, List.length_take]
        have := r.size_le
        omega }

/-- Growing keeps the elements, and makes room. -/
lemma reserve_spec (fill : T) (r : RepeatedObject T) :
    (r.reserve fill (r.capacity + 1)).toList = r.toList ∧
      (r.reserve fill (r.capacity + 1)).size < (r.reserve fill (r.capacity + 1)).capacity := by
  have hsize : r.size ≤ r.capacity := r.size_le
  have htake : (r.objs.take r.size).length = r.size := by
    rw [List.length_take]
    exact Nat.min_eq_left hsize
  rw [reserve, if_neg (by omega)]
  refine ⟨?_, ?_⟩
  · rw [toList, List.take_left' htake]
    rfl
  · show r.size < (r.objs.take r.size
      ++ List.replicate (max (r.capacity + 1) (r.capacity * 2) - r.size) fill).length
    rw [List.length_append, htake, List.length_replicate]
    omega

/-- `_objs[_size ++] = val`. -/
def put (r : RepeatedObject T) (h : r.size < r.capacity) (val : T) : RepeatedObject T :=
  ⟨r.objs.set r.size val, r.size + 1, by rw [List.length_set]; exact h⟩

/-- Source: `SsuRepeated.h`, `RepeatedObject::add`. -/
def add (fill : T) (r : RepeatedObject T) (val : T) : RepeatedObject T :=
  if h : r.size ≥ r.capacity then
    (r.reserve fill (r.capacity + 1)).put (reserve_spec fill r).2 val
  else r.put (not_le.mp h) val

/-- An element that is put is the last. -/
lemma toList_put (r : RepeatedObject T) (h : r.size < r.capacity) (val : T) :
    (r.put h val).toList = r.toList ++ [val] := by
  rw [put, toList, toList, List.take_add_one, List.take_set_of_le (le_refl r.size),
    List.getElem?_set_self h]
  rfl

/-- An added element stands behind the others, whatever the capacity was. -/
lemma toList_add (fill : T) (r : RepeatedObject T) (val : T) :
    (r.add fill val).toList = r.toList ++ [val] := by
  unfold add
  split
  · rw [toList_put, (reserve_spec fill r).1]
  · rw [toList_put]

end RepeatedObject

/-! ## Encoders -/

section encoders

variable {α : Type}

/-- Source: `SsuUtils.h`, `Utils::sizeRepeated`. -/
def sizeRepeated (val : List α) (func : α → ℕ) : ℕ := val.foldl (fun sz v => sz + func v) 0

/-- Source: `SsuUtils.h`, `Utils::sizeRepeatedPacked`. -/
def sizeRepeatedPacked (val : List α) (func : α → ℕ) : ℕ :=
  let sz := sizeRepeated val func
  sz + sizeUInt32 (UInt32.ofNat sz)

/-- Source: `SsuUtils.h`, `Utils::packRepeatedTag`. -/
def packRepeatedTag (id : UInt32) (val : List α) (func : UInt32 → α → List UInt8) : List UInt8 :=
  val.flatMap (func id)

/-- Source: `SsuUtils.h`, `Utils::packRepeatedPackedTag`. -/
def packRepeatedPackedTag (id : UInt32) (val : List α) (func : α → List UInt8)
    (sizefunc : α → ℕ) : List UInt8 :=
  packTag id 2 ++ packUInt32 (UInt32.ofNat (sizeRepeated val sizefunc)) ++ val.flatMap func

/-- The size pass computes the length of what the other pass writes. -/
lemma sizeRepeated_eq {func : α → List UInt8} {sizefunc : α → ℕ}
    (h : ∀ v, (func v).length = sizefunc v) (val : List α) :
    sizeRepeated val sizefunc = (val.flatMap func).length := by
  have hfold : ∀ n, val.foldl (fun sz v => sz + sizefunc v) n = n + (val.flatMap func).length := by
    induction val with
    | nil => exact fun n => rfl
    | cons v val ih =>
        intro n
        rw [List.foldl_cons, ih, List.flatMap_cons, List.length_append, h v, Nat.add_assoc]
  rw [sizeRepeated, hfold, Nat.zero_add]

end encoders

/-! ## Decoders -/

section decoders

variable {α : Type}

namespace RepeatedObject

/-- Source: `SsuUtils.h`, `Utils::unpackRepeated`. -/
def unpackRepeated (fill : α) (val : RepeatedObject α) (func : Decoder α) :
    Decoder (RepeatedObject α) := do
  let singleVal ← func
  pure (val.add fill singleVal)

/-- The loop of `unpackRepeatedPacked`; `none` is a run that needs more than `fuel` turns. -/
def packedLoop (fill : α) (func : Decoder α) (mem : Mem) :
    ℕ → RepeatedObject α → Cursor → Option (Outcome (RepeatedObject α))
  | 0, _, _ => none
  | fuel + 1, val, c =>
      if c.leftSize = 0 then some ⟨some val, c, []⟩
      else
        let o := func mem c
        match o.val with
        | none => some ⟨none, o.cur, o.trace⟩
        | some singleVal =>
            (packedLoop fill func mem fuel (val.add fill singleVal) o.cur).map
              fun p => ⟨p.val, p.cur, o.trace ++ p.trace⟩

/-- Source: `SsuUtils.h`, `Utils::unpackRepeatedPacked`. -/
def unpackRepeatedPacked (fill : α) (fuel : ℕ) (val : RepeatedObject α) (func : Decoder α)
    (mem : Mem) (c : Cursor) : Option (Outcome (RepeatedObject α)) :=
  let o := unpackUInt32 mem c
  match o.val with
  | none => some ⟨none, o.cur, o.trace⟩
  | some n =>
      (packedLoop fill func mem fuel val ⟨o.cur.buf, n.toNat⟩).map fun p =>
        match p.val with
        | none => ⟨none, o.cur, o.trace ++ p.trace⟩
        | some vs => ⟨some vs, ⟨o.cur.buf + n.toNat, sizeSub o.cur.leftSize n.toNat⟩,
            o.trace ++ p.trace⟩

/-- An outcome with the elements of its container. -/
def elements (o : Outcome (RepeatedObject α)) : Outcome (List α) :=
  ⟨o.val.map toList, o.cur, o.trace⟩

/-- The loop does to the elements what the loop over lists does. -/
lemma packedLoop_elements (fill : α) (func : Decoder α) (mem : Mem) (fuel : ℕ)
    (val : RepeatedObject α) (c : Cursor) :
    (packedLoop fill func mem fuel val c).map elements
      = Ssu.packedLoop func mem fuel val.toList c := by
  induction fuel generalizing val c with
  | zero => rfl
  | succ fuel ih =>
      by_cases h0 : c.leftSize = 0
      · rw [packedLoop_done h0, packedLoop, if_pos h0]
        rfl
      · cases hv : (func mem c).val with
        | none =>
            rw [packedLoop_fail h0 hv, packedLoop, if_neg h0]
            simp only [hv]
            rfl
        | some v =>
            rw [packedLoop_next h0 hv, packedLoop, if_neg h0, ← toList_add fill, ← ih]
            simp only [hv, Option.map_map]
            rfl

/-- So does the decoder of packed fields. -/
lemma unpackRepeatedPacked_elements (fill : α) (func : Decoder α) (mem : Mem) (fuel : ℕ)
    (val : RepeatedObject α) (c : Cursor) :
    (unpackRepeatedPacked fill fuel val func mem c).map elements
      = Ssu.unpackRepeatedPacked fuel val.toList func mem c := by
  unfold unpackRepeatedPacked Ssu.unpackRepeatedPacked
  cases hn : (unpackUInt32 mem c).val with
  | none =>
      simp only [hn]
      rfl
  | some n =>
      simp only [hn]
      rw [← packedLoop_elements fill, Option.map_map, Option.map_map]
      congr 1
      funext p
      cases hp : p.val <;> simp [elements, hp]

/-- A decoder that has a value for the list has one for the container. -/
lemma exists_of_elements {o : Option (Outcome (RepeatedObject α))} {vs : List α} {c : Cursor}
    {tr : List Access} (h : o.map elements = some ⟨some vs, c, tr⟩) :
    ∃ r : RepeatedObject α, r.toList = vs ∧ o = some ⟨some r, c, tr⟩ := by
  obtain ⟨p, rfl, hp⟩ := Option.map_eq_some_iff.mp h
  obtain ⟨pv, pc, pt⟩ := p
  rw [elements, Outcome.mk.injEq] at hp
  obtain ⟨hv, rfl, rfl⟩ := hp
  obtain ⟨r, rfl, hr⟩ := Option.map_eq_some_iff.mp hv
  exact ⟨r, hr, rfl⟩

end RepeatedObject

/-- Fields decoded one after another, each into the container behind its tag; the tags are the
second result. -/
def unpackTagged (fill : α) (func : Decoder α) :
    ℕ → RepeatedObject α → Decoder (RepeatedObject α × List (UInt32 × UInt8))
  | 0, val => pure (val, [])
  | n + 1, val => do
      let tag ← unpackTag
      let val ← RepeatedObject.unpackRepeated fill val func
      let rest ← unpackTagged fill func n val
      pure (rest.1, tag :: rest.2)

/-! ## Decoding what was encoded -/

/-- The loop on elements in a row, none of them empty, takes them all. -/
lemma packedLoop_flatMap {d : Decoder α} {enc : α → List UInt8} {vs : List α}
    (hdec : ∀ v ∈ vs, Decodes d (enc v) v) (hpos : ∀ v ∈ vs, 0 < (enc v).length) {mem : Mem}
    {buf : ℕ} (hmem : Holds mem buf (vs.flatMap enc)) (val : List α) {fuel : ℕ}
    (hfuel : vs.length < fuel) :
    ∃ c tr, packedLoop d mem fuel val ⟨buf, (vs.flatMap enc).length⟩ = some ⟨some (val ++ vs), c, tr⟩
      := by
  induction vs generalizing buf val fuel with
  | nil =>
      obtain ⟨fuel, rfl⟩ := Nat.exists_eq_succ_of_ne_zero (Nat.ne_of_gt hfuel)
      exact ⟨_, _, by rw [packedLoop_done rfl, List.append_nil]⟩
  | cons v vs ih =>
      obtain ⟨fuel, rfl⟩ := Nat.exists_eq_succ_of_ne_zero (Nat.ne_of_gt (Nat.zero_lt_of_lt hfuel))
      rw [List.flatMap_cons] at hmem ⊢
      have hpos_v := hpos v List.mem_cons_self
      have hlen : (enc v ++ vs.flatMap enc).length ≠ 0 := by
        rw [List.length_append]
        omega
      obtain ⟨hval, hcur, hmem'⟩ := (hdec v List.mem_cons_self).of_append hmem
      obtain ⟨c, tr, hloop⟩ := ih (fun u hu => hdec u (List.mem_cons_of_mem v hu))
        (fun u hu => hpos u (List.mem_cons_of_mem v hu)) hmem' (val ++ [v])
        (by simpa using hfuel)
      refine ⟨c, (d mem ⟨buf, (enc v ++ vs.flatMap enc).length⟩).trace ++ tr, ?_⟩
      rw [packedLoop_next hlen hval, hcur, hloop, Option.map_some, List.append_assoc]
      rfl

/-- A packed field behind its length, in front of other bytes. -/
lemma unpackRepeatedPacked_flatMap {d : Decoder α} {enc : α → List UInt8} {vs : List α}
    (hdec : ∀ v ∈ vs, Decodes d (enc v) v) (hpos : ∀ v ∈ vs, 0 < (enc v).length)
    (hlen : (vs.flatMap enc).length < 2 ^ 32) {rest : List UInt8} {mem : Mem} {a : ℕ}
    (hmem : Holds mem a
      (packUInt32 (UInt32.ofNat (vs.flatMap enc).length) ++ (vs.flatMap enc ++ rest)))
    (val : List α) {fuel : ℕ} (hfuel : vs.length < fuel) :
    ∃ tr, unpackRepeatedPacked fuel val d mem
        ⟨a, (packUInt32 (UInt32.ofNat (vs.flatMap enc).length) ++ (vs.flatMap enc ++ rest)).length⟩
      = some ⟨some (val ++ vs),
          ⟨a + (packUInt32 (UInt32.ofNat (vs.flatMap enc).length)).length
            + (vs.flatMap enc).length, rest.length⟩, tr⟩ := by
  have hn : (UInt32.ofNat (vs.flatMap enc).length).toNat = (vs.flatMap enc).length :=
    UInt32.toNat_ofNat_of_lt' hlen
  obtain ⟨hval, hcur, hmem'⟩ := (decodes_unpackUInt32 _).of_append hmem
  obtain ⟨c', tr, hloop⟩ := packedLoop_flatMap hdec hpos (holds_append.mp hmem').1 val hfuel
  rw [unpackRepeatedPacked]
  simp only [hval, hcur, hn, hloop, Option.map_some]
  rw [List.length_append, sizeSub_of_le (Nat.le_add_right _ _), Nat.add_sub_cancel_left]
  exact ⟨_, rfl⟩

/-- Tagged fields in a row. -/
lemma decodes_unpackTagged {d : Decoder α} {enc : α → List UInt8} (fill : α) {id : UInt32}
    {type : UInt8} (hid : id.toNat < 2 ^ 29) (htype : type.toNat < 8) {vs : List α}
    (hdec : ∀ v ∈ vs, Decodes d (enc v) v) (r : RepeatedObject α) :
    ∃ r' : RepeatedObject α, r'.toList = r.toList ++ vs ∧
      Decodes (unpackTagged fill d vs.length r) (vs.flatMap fun v => packTag id type ++ enc v)
        (r', List.replicate vs.length (id, type)) := by
  induction vs generalizing r with
  | nil => exact ⟨r, (List.append_nil _).symm, Decodes.ret _⟩
  | cons v vs ih =>
      obtain ⟨r', hr', hrest⟩ := ih (fun u hu => hdec u (List.mem_cons_of_mem v hu)) (r.add fill v)
      refine ⟨r', ?_, ?_⟩
      · rw [hr', RepeatedObject.toList_add, List.append_assoc]
        rfl
      · rw [List.flatMap_cons, List.append_assoc]
        refine (decodes_unpackTag id hid type htype).bind ?_
        refine ((hdec v List.mem_cons_self).bind_ret _ rfl).bind ?_
        exact hrest.bind_ret _ rfl

end decoders

/-! ## The scalar kinds -/

/-- The function that packs a kind without a tag. -/
def Kind.pack : (k : Kind) → k.Val → List UInt8
  | .int32, v => packInt32 v
  | .sint32, v => packSInt32 v
  | .uint32, v => packUInt32 v
  | .enum _ ty, v => packEnum ty v
  | .int64, v => packInt64 v
  | .sint64, v => packSInt64 v
  | .uint64, v => packUInt64 v
  | .float, v => packFloat v
  | .double, v => packDouble v
  | .bool, v => packBool v
  | .string, v => packString v
  | .object _ ty, v => packObject ty v

namespace Kind

variable {k : Kind}

/-- A scalar field is its tag and its value. -/
lemma Scalar.packTag_eq (hk : k.Scalar) (id : UInt32) (v : k.Val) :
    k.packTag id v = Ssu.packTag id k.type ++ k.pack v := by
  cases k with
  | string | object => exact hk.elim
  | _ => rfl

/-- Every value of a scalar kind fits. -/
lemma Scalar.fits (hk : k.Scalar) (v : k.Val) : k.Fits v := by
  cases k with
  | string | object => exact hk.elim
  | _ => trivial

/-- A scalar has the size announced, and unpacks to the value. -/
lemma Scalar.packed (hk : k.Scalar) (v : k.Val) :
    (k.pack v).length = k.size v ∧ Decodes k.unpack (k.pack v) v := by
  obtain ⟨body, hbody, hlen, hdec⟩ := kind_packed k 0 v (hk.fits v)
  rw [hk.packTag_eq] at hbody
  obtain rfl := List.append_cancel_left hbody
  exact ⟨hlen, hdec⟩

/-- Every value of a scalar kind takes at least one byte. -/
lemma Scalar.length_pack_pos (hk : k.Scalar) (v : k.Val) : 0 < (k.pack v).length := by
  cases k with
  | string | object => exact hk.elim
  | int32 =>
      show 0 < (packInt32 v).length
      unfold packInt32
      split
      · exact Varint.length_write_pos 9 _
      · exact Varint.length_write_pos 4 _
  | sint32 | uint32 | enum => exact Varint.length_write_pos 4 _
  | int64 | sint64 | uint64 => exact Varint.length_write_pos 9 _
  | float | double => exact v.2.symm ▸ Nat.succ_pos _
  | bool => exact Nat.one_pos

end Kind

/-- **Repeated fields round trip.** For every scalar kind, list, id and container, and any bytes
behind the field. The packed encoding is the tag, the length of the body and the body, as many
bytes as the size functions say; `unpackTag` and `unpackRepeatedPacked` on it append exactly the
list, in order, and leave exactly the trailing bytes. The encoding with one tag for each element,
decoded by as many calls of `unpackTag` and `unpackRepeated`, appends the same list. -/
theorem repeated_roundTrip (k : Kind) (hk : k.Scalar) (id : UInt32) (hid : id.toNat < 2 ^ 29)
    (vs : List k.Val) (hlen : (vs.flatMap k.pack).length < 2 ^ 32) (rest : List UInt8)
    (fill : k.Val) (r : RepeatedObject k.Val) (mem : Mem) (a : ℕ) :
    let packed := packRepeatedPackedTag id vs k.pack k.size
    let tagged := packRepeatedTag id vs k.packTag
    packed = packTag id 2 ++ packUInt32 (UInt32.ofNat (vs.flatMap k.pack).length)
        ++ vs.flatMap k.pack ∧
      packed.length = sizeUInt32 ((id <<< 3) + 2) + sizeRepeatedPacked vs k.size ∧
      (Holds mem a (packed ++ rest) →
        let tag := unpackTag mem ⟨a, (packed ++ rest).length⟩
        tag.val = some (id, 2) ∧
          ∀ fuel, vs.length < fuel → ∃ r' tr, r'.toList = r.toList ++ vs ∧
            RepeatedObject.unpackRepeatedPacked fill fuel r k.unpack mem tag.cur
              = some ⟨some r', ⟨a + packed.length, rest.length⟩, tr⟩) ∧
      (Holds mem a (tagged ++ rest) →
        ∃ r' : RepeatedObject k.Val, r'.toList = r.toList ++ vs ∧
          let o := unpackTagged fill k.unpack vs.length r mem ⟨a, (tagged ++ rest).length⟩
          o.val = some (r', List.replicate vs.length (id, k.type)) ∧
            o.cur = ⟨a + tagged.length, rest.length⟩) := by
  intro packed tagged
  have hsize : sizeRepeated vs k.size = (vs.flatMap k.pack).length :=
    sizeRepeated_eq (fun v => (hk.packed v).1) vs
  have hpacked : packed = packTag id 2 ++ packUInt32 (UInt32.ofNat (vs.flatMap k.pack).length)
      ++ vs.flatMap k.pack := by
    rw [← hsize]
    rfl
  have hdec : ∀ v ∈ vs, Decodes k.unpack (k.pack v) v := fun v _ => (hk.packed v).2
  refine ⟨hpacked, ?_, ?_, ?_⟩
  · rw [hpacked, List.length_append, List.length_append, packTag, length_packUInt32,
      length_packUInt32, sizeRepeatedPacked, hsize]
    show sizeUInt32 ((id <<< 3) + 2) + _ + _ = _
    omega
  · intro hmem
    rw [hpacked, List.append_assoc, List.append_assoc] at hmem ⊢
    obtain ⟨hval, hcur, hmem'⟩ := (decodes_unpackTag id hid 2 (by decide)).of_append hmem
    refine ⟨hval, ?_⟩
    intro fuel hfuel
    obtain ⟨tr, hrun⟩ := unpackRepeatedPacked_flatMap hdec (fun v _ => hk.length_pack_pos v) hlen
      hmem' r.toList hfuel
    rw [← RepeatedObject.unpackRepeatedPacked_elements fill] at hrun
    obtain ⟨r', hr', heq⟩ := RepeatedObject.exists_of_elements hrun
    refine ⟨r', tr, hr', ?_⟩
    rw [hcur, heq, List.length_append, List.length_append, Nat.add_assoc, Nat.add_assoc,
      Nat.add_assoc]
  · intro hmem
    have htagged : tagged = vs.flatMap fun v => packTag id k.type ++ k.pack v := by
      show vs.flatMap (k.packTag id) = _
      congr 1
      funext v
      exact hk.packTag_eq id v
    obtain ⟨r', hr', hdecodes⟩ := decodes_unpackTagged fill hid k.type_lt hdec r
    rw [← htagged] at hdecodes
    obtain ⟨hval, hcur, -⟩ := hdecodes.of_append hmem
    exact ⟨r', hr', hval, hcur⟩

/-- The list of 1 and 300 as packed field 1, with one byte behind it. -/
theorem repeated_roundTrip_one_threeHundred :
    packRepeatedPackedTag 1 [1, 300] packUInt32 sizeUInt32 = [10, 3, 1, 172, 2] ∧
      ∃ (r' : RepeatedObject UInt32) (tr : List Access), r'.toList = [1, 300] ∧
        RepeatedObject.unpackRepeatedPacked 0 3 (RepeatedObject.create 0) unpackUInt32
          (memOf [10, 3, 1, 172, 2, 7]) (unpackTag (memOf [10, 3, 1, 172, 2, 7]) ⟨0, 6⟩).cur
          = some ⟨some r', ⟨5, 1⟩, tr⟩ := by
  refine ⟨by decide, ?_⟩
  have hvals : (([1, 300] : List UInt32).flatMap packUInt32).length < 2 ^ 32 := by decide
  exact ((repeated_roundTrip .uint32 trivial 1 (by decide) ([1, 300] : List UInt32) hvals [7]
    (0 : UInt32) (RepeatedObject.create (0 : UInt32)) (memOf [10, 3, 1, 172, 2, 7]) 0).2.2.1
      (holds_memOf [10, 3, 1, 172, 2, 7])).2 3 (by decide)

end CocInside.Ssu
