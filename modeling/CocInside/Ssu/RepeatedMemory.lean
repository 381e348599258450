import CocInside.Lib.Storage
import CocInside.Ssu.Repeated

/-!
# `RepeatedObject` in memory

The container starts in an array of its own, moves to the heap when that is full, and from one array on
the heap to the next. Here its storage is modelled cell by cell: what is copied, and which arrays are
released.

* `RepeatedMemory`, `reserve`, `add`, `clear`, `destroy`: the class over a `Storage`. A `new` may throw; an
  access that is not allowed is a fault.
* `Call`, `step`, `run`: sequences of calls; `add` may be given an element of the container itself.
* `Inv`, `Shows`: the invariant, and what a container shows from outside.
* `reserve_spec`, `add_spec`, `clear_spec`: the calls keep the invariant; `reserve_refused`,
  `add_refused`: what is refused an array throws and shows what it did; `add_cell_full`: an element of
  its own that a full container on the heap cannot take.
* `ShowsAlong`, `showsAlong_iff`: every sequence of calls on an empty container, up to one that throws.

Source: `Ssu/SsuRepeated.h`.
-/

namespace CocInside.Ssu

open CocInside.Lib

/-! ## The class -/

/-- The width of `size_t` and the size of `T`; a container is an object and has room in memory. -/
structure Target where
  bits : ℕ
  sizeof : ℕ
  bits_ge : 16 ≤ bits
  sizeof_pos : 0 < sizeof
  fits : 8 * sizeof < 2 ^ bits

/-- `SIZE_MAX + 1`. -/
def Target.word (t : Target) : ℕ := 2 ^ t.bits

/-- How a call ends. An exception leaves the object as it is at that moment. -/
inductive Outcome (σ : Type) where
  | returns (s : σ)
  | throws (s : σ)
  | faults
deriving DecidableEq

/-- What comes next if a call returns. -/
def Outcome.bind {σ : Type} (x : Outcome σ) (f : σ → Outcome σ) : Outcome σ :=
  match x with
  | .returns s => f s
  | .throws s => .throws s
  | .faults => .faults

/-- `_objs`, `_size`, `_capacity`; `_initObj` and the arrays on the heap are in `mem`.
Source: `SsuRepeated.h`, `RepeatedObject`. -/
structure RepeatedMemory (T : Type) where
  objs : Place
  size : ℕ
  capacity : ℕ
  mem : Storage T
deriving DecidableEq

namespace RepeatedMemory

variable {T : Type}

/-- Source: `SsuRepeated.h`, `RepeatedObject::_initSize`. -/
def initSize : ℕ := 8

/-- An empty container.
Source: `SsuRepeated.h`, `RepeatedObject::RepeatedObject`. -/
def create : RepeatedMemory T := ⟨.own, 0, initSize, ⟨List.replicate initSize none, [], []⟩⟩

/-- `if(objs != _initObj) delete[] objs;`. -/
def release (mem : Storage T) (objs : Place) : Option (Storage T) :=
  if objs ≠ .own then mem.delete objs else some mem

/-- `room` is the answer of the allocator; two arrays that do not fit in memory together it cannot give.
Source: `SsuRepeated.h`, `RepeatedObject::reserve`. -/
def reserve (t : Target) (room : Bool) (r : RepeatedMemory T) (newsize : ℕ) :
    Outcome (RepeatedMemory T) :=
  if newsize ≤ r.capacity then .returns r
  else
    let capacity := max newsize (r.capacity * 2 % t.word)
    if room ∧ (capacity + initSize) * t.sizeof ≤ t.word then
      let (objs, mem) := r.mem.alloc capacity
      match mem.memcpy objs r.objs (t.sizeof * r.size % t.word / t.sizeof) with
      | none => .faults
      | some mem =>
          match release mem r.objs with
          | none => .faults
          | some mem => .returns { r with objs := objs, capacity := capacity, mem := mem }
    else .throws { r with capacity := capacity }

/-- An argument `const T&`: an object somewhere else, or a cell of one of the arrays. -/
inductive Ref (T : Type) where
  | value (v : T)
  | cell (p : Place) (i : ℕ)

/-- What a reference reads. -/
def Ref.read (mem : Storage T) : Ref T → Option (Option T)
  | .value v => some (some v)
  | .cell p i => mem.read p i

/-- `_objs[_size ++] = val;`. -/
def put (t : Target) (val : Ref T) (r : RepeatedMemory T) : Outcome (RepeatedMemory T) :=
  match (val.read r.mem).bind (r.mem.write r.objs r.size) with
  | none => .faults
  | some mem => .returns { r with size := (r.size + 1) % t.word, mem := mem }

/-- Source: `SsuRepeated.h`, `RepeatedObject::add(const T&)`. -/
def add (t : Target) (room : Bool) (r : RepeatedMemory T) (val : Ref T) :
    Outcome (RepeatedMemory T) :=
  if r.size ≥ r.capacity then (reserve t room r ((r.capacity + 1) % t.word)).bind (put t val)
  else put t val r

/-- Source: `SsuRepeated.h`, `RepeatedObject::clear`. -/
def clear (r : RepeatedMemory T) : Outcome (RepeatedMemory T) :=
  match release r.mem r.objs with
  | none => .faults
  | some mem => .returns ⟨.own, 0, initSize, mem⟩

/-- Source: `SsuRepeated.h`, `RepeatedObject::~RepeatedObject`. -/
def destroy (r : RepeatedMemory T) : Option (Storage T) := release r.mem r.objs

/-- Source: `SsuRepeated.h`, `RepeatedObject::operator[]`. -/
def index (r : RepeatedMemory T) (idx : ℕ) : Option (Option T) := r.mem.read r.objs idx

/-- The next `n` elements for an iterator at `begin() + i`. -/
def iterateFrom (r : RepeatedMemory T) : ℕ → ℕ → Option (List (Option T))
  | 0, _ => some []
  | n + 1, i => (r.mem.read r.objs i).bind fun v => (r.iterateFrom n (i + 1)).map (v :: ·)

/-- The elements from `begin()` to `end()`.
Source: `SsuRepeated.h`, `RepeatedObject::begin`, `RepeatedObject::end`. -/
def iterate (r : RepeatedMemory T) : Option (List (Option T)) := r.iterateFrom r.size 0

/-! ## Sequences of calls -/

/-- A call. What `add` is given is an object somewhere else, or, as in `r.add(r[i])`, an element of the
container itself. -/
inductive Call (T : Type) where
  | add (v : T)
  | addOwn (i : ℕ)
  | reserve (n : ℕ)
  | clear

/-- A call, with the answer of the allocator if it asks for an array. -/
def step (t : Target) (r : RepeatedMemory T) (c : Call T × Bool) : Outcome (RepeatedMemory T) :=
  match c.1 with
  | .add v => add t c.2 r (.value v)
  | .addOwn i => add t c.2 r (.cell r.objs i)
  | .reserve n => reserve t c.2 r n
  | .clear => clear r

/-- Calls one after the other, up to the first that throws. -/
def run (t : Target) : RepeatedMemory T → List (Call T × Bool) → Outcome (RepeatedMemory T)
  | r, [] => .returns r
  | r, c :: cs => (step t r c).bind fun r => run t r cs

/-- The list that a call leaves. -/
def Call.list (vs : List T) : Call T → List T
  | .add v => vs ++ [v]
  | .addOwn i => vs ++ vs[i]?.toList
  | .reserve _ => vs
  | .clear => []

/-- An own element is one that the container has. -/
def Call.InRange (vs : List T) : Call T → Prop
  | .addOwn i => i < vs.length
  | _ => True

/-- The values added since the last `clear`. -/
def added (vs : List T) (cs : List (Call T × Bool)) : List T :=
  cs.foldl (fun vs c => c.1.list vs) vs

/-- The own elements that calls add are there at the call. -/
def InRange : List T → List (Call T × Bool) → Prop
  | _, [] => True
  | vs, c :: cs => c.1.InRange vs ∧ InRange (c.1.list vs) cs

/-! ## What a container shows -/

/-- What a container shows from outside: the list `vs`, and which arrays were released, how often. -/
structure Shows (r : RepeatedMemory T) (vs : List T) : Prop where
  size_eq : r.size = vs.length
  size_le : r.size ≤ r.capacity
  initSize_le : 8 ≤ r.capacity
  index_eq : ∀ i (h : i < vs.length), r.index i = some (some vs[i])
  iterate_eq : r.iterate = some (vs.map some)
  own_never : r.mem.released.count .own = 0
  heap_once : ∀ b < r.mem.blocks.length,
    r.mem.released.count (.heap b) = if r.objs = .heap b then 0 else 1

/-- The length of the array that `reserve` asks for, if it asks for one. -/
def wanted (t : Target) (r : RepeatedMemory T) (newsize : ℕ) : Option ℕ :=
  if newsize ≤ r.capacity then none else some (max newsize (r.capacity * 2 % t.word))

/-- The length of the array that `add` asks for, which it does when the container is full. -/
def addWanted (t : Target) (r : RepeatedMemory T) : Option ℕ :=
  if r.size ≥ r.capacity then wanted t r ((r.capacity + 1) % t.word) else none

/-- The length of the array that a call asks for, if it asks for one. -/
def Call.wanted (t : Target) (r : RepeatedMemory T) : Call T → Option ℕ
  | .add _ | .addOwn _ => addWanted t r
  | .reserve n => RepeatedMemory.wanted t r n
  | .clear => none

/-- An array that is asked for cannot be had: the allocator has no room, or so long an array does not fit
in memory. -/
def NoRoom (t : Target) (room : Bool) (wanted : Option ℕ) : Prop :=
  ∃ n ∈ wanted, room = false ∨ t.word < (n + initSize) * t.sizeof

/-- The container as it is asks for an array in this call, and is refused it. -/
def Refused (t : Target) (r : RepeatedMemory T) (c : Call T × Bool) : Prop :=
  NoRoom t c.2 (c.1.wanted t r)

/-- **The container is a list along the calls.** It shows the list `vs`, and after every call the list
that the call leaves, up to the end or to a call that is refused an array; that one throws, and the
container still shows what it did. -/
def ShowsAlong (t : Target) : RepeatedMemory T → List T → List (Call T × Bool) → Prop
  | r, vs, [] => Shows r vs
  | r, vs, c :: cs => Shows r vs ∧
      match step t r c with
      | .returns r' => ShowsAlong t r' (c.1.list vs) cs
      | .throws r' => Refused t r c ∧ Shows r' vs
      | .faults => False

/-- An own element is added to a full container on the heap. -/
def Call.Dangles (r : RepeatedMemory T) : Call T → Prop
  | .addOwn _ => r.size = r.capacity ∧ r.objs ≠ .own
  | _ => False

/-- No call adds an own element to a container that is full and on the heap then, or that call is
refused the longer array. -/
def NoneDangles (t : Target) : RepeatedMemory T → List (Call T × Bool) → Prop
  | _, [] => True
  | r, c :: cs => (c.1.Dangles r → Refused t r c) ∧
      match step t r c with
      | .returns r' => NoneDangles t r' cs
      | _ => True

instance (vs : List T) : DecidablePred (Call.InRange vs)
  | .addOwn i => inferInstanceAs (Decidable (i < vs.length))
  | .add _ | .reserve _ | .clear => .isTrue trivial

instance decidableInRange : (vs : List T) → DecidablePred (InRange vs)
  | _, [] => .isTrue trivial
  | vs, c :: cs =>
      have := decidableInRange (c.1.list vs) cs
      inferInstanceAs (Decidable (c.1.InRange vs ∧ InRange (c.1.list vs) cs))

instance (r : RepeatedMemory T) : DecidablePred (Call.Dangles r)
  | .addOwn _ => inferInstanceAs (Decidable (r.size = r.capacity ∧ r.objs ≠ .own))
  | .add _ | .reserve _ | .clear => .isFalse id

instance (t : Target) (room : Bool) : DecidablePred (NoRoom t room)
  | none => .isFalse nofun
  | some n => decidable_of_iff (room = false ∨ t.word < (n + initSize) * t.sizeof) (by simp [NoRoom])

instance (t : Target) (r : RepeatedMemory T) (c : Call T × Bool) : Decidable (Refused t r c) :=
  inferInstanceAs (Decidable (NoRoom t c.2 _))

instance decidableNoneDangles (t : Target) :
    (r : RepeatedMemory T) → DecidablePred (NoneDangles t r)
  | _, [] => .isTrue trivial
  | r, c :: cs =>
      have : Decidable (match step t r c with
          | .returns r' => NoneDangles t r' cs
          | _ => True) :=
        match step t r c with
        | .returns r' => decidableNoneDangles t r' cs
        | .throws _ | .faults => .isTrue trivial
      inferInstanceAs (Decidable ((c.1.Dangles r → Refused t r c) ∧ _))

/-! ## The invariant -/

/-- The elements stand at the beginning of an array as long as the capacity, sizes stay below
`SIZE_MAX`, and of all arrays on the heap the current one alone is not released. -/
structure Inv (t : Target) (r : RepeatedMemory T) (vs : List T) : Prop where
  array : ∃ cs, r.mem.cells r.objs = some cs ∧ cs.length = r.capacity ∧
    cs.take vs.length = vs.map some
  size_eq : r.size = vs.length
  size_le : r.size ≤ r.capacity
  initSize_le : initSize ≤ r.capacity
  capacity_lt : r.capacity + 1 < t.word
  bytes_lt : t.sizeof * r.capacity < t.word
  own_length : r.mem.own.length = initSize
  nodup : r.mem.released.Nodup
  mem_released : ∀ p, p ∈ r.mem.released ↔ p ≠ r.objs ∧ ∃ b < r.mem.blocks.length, p = .heap b

/-- `size_t` counts beyond the first capacity. -/
lemma initSize_lt_word (t : Target) : initSize + 1 < t.word := by
  have hpow : 2 ^ 16 ≤ t.word := Nat.pow_le_pow_right (by decide) t.bits_ge
  rw [initSize]
  omega

/-- An empty container in its own array, when of the arrays on the heap none is left. -/
lemma inv_own (t : Target) {mem : Storage T} (hlen : mem.own.length = initSize)
    (hnodup : mem.released.Nodup)
    (hmem : ∀ p, p ∈ mem.released ↔ ∃ b < mem.blocks.length, p = .heap b) :
    Inv t ⟨.own, 0, initSize, mem⟩ [] where
  array := ⟨mem.own, rfl, hlen, rfl⟩
  size_eq := rfl
  size_le := Nat.zero_le _
  initSize_le := le_rfl
  capacity_lt := initSize_lt_word t
  bytes_lt := by
    rw [Nat.mul_comm]
    exact t.fits
  own_length := hlen
  nodup := hnodup
  mem_released := by
    intro p
    rw [hmem]
    refine ⟨?_, And.right⟩
    rintro ⟨b, hb, rfl⟩
    exact ⟨by simp, b, hb, rfl⟩

/-- The empty container. -/
lemma inv_create (t : Target) : Inv t (create : RepeatedMemory T) [] :=
  inv_own t List.length_replicate List.nodup_nil (by simp)

/-- An iterator goes over the cells of the array. -/
lemma iterateFrom_eq {r : RepeatedMemory T} {cs : List (Option T)}
    (h : r.mem.cells r.objs = some cs) {n i : ℕ} (hle : i + n ≤ cs.length) :
    r.iterateFrom n i = some ((cs.drop i).take n) := by
  induction n generalizing i with
  | zero => simp [iterateFrom]
  | succ n ih =>
      have hi : i < cs.length := by omega
      rw [iterateFrom, Storage.read, h, Option.bind_some, List.getElem?_eq_getElem hi,
        Option.bind_some, ih (by omega), Option.map_some, List.drop_eq_getElem_cons hi,
        List.take_succ_cons]

/-- What follows from the array, also when the capacity says more than there is. -/
lemma Inv.shows_of_capacity_le {t : Target} {r : RepeatedMemory T} {vs : List T} (h : Inv t r vs)
    {capacity : ℕ} (hle : r.capacity ≤ capacity) : Shows { r with capacity := capacity } vs := by
  obtain ⟨cs, hcells, hlen, htake⟩ := h.array
  have hvs : vs.length ≤ cs.length := by
    rw [hlen, ← h.size_eq]
    exact h.size_le
  refine ⟨h.size_eq, h.size_le.trans hle, h.initSize_le.trans hle, ?_, ?_, ?_, ?_⟩
  · intro i hi
    have hget := congrArg (fun l => l[i]?) htake
    rw [List.getElem?_take_of_lt hi, List.getElem?_map, List.getElem?_eq_getElem hi] at hget
    rw [index, Storage.read, hcells]
    exact hget
  · have hle : 0 + r.size ≤ cs.length := by simpa [h.size_eq] using hvs
    have hiter := iterateFrom_eq (r := { r with capacity := capacity }) hcells hle
    rw [List.drop_zero, h.size_eq, htake] at hiter
    simpa [iterate, h.size_eq] using hiter
  · rw [List.count_eq_zero, h.mem_released]
    simp
  · intro b hb
    split
    · next hobjs =>
        rw [List.count_eq_zero, h.mem_released]
        exact fun hmem => hmem.1 hobjs.symm
    · next hobjs =>
        apply List.count_eq_one_of_mem h.nodup
        rw [h.mem_released]
        exact ⟨fun heq => hobjs heq.symm, b, hb, rfl⟩

/-- A container with the invariant shows its list. -/
lemma Inv.shows {t : Target} {r : RepeatedMemory T} {vs : List T} (h : Inv t r vs) : Shows r vs :=
  h.shows_of_capacity_le le_rfl

/-! ## One call -/

/-- The old array is released, if it is not the one in the object: then of the arrays so far none is
left. -/
lemma release_spec {mem : Storage T} {objs : Place} {cs : List (Option T)} {n : ℕ}
    (hcells : mem.cells objs = some cs) (hplace : objs = .own ∨ ∃ b < n, objs = .heap b)
    (hnodup : mem.released.Nodup)
    (hmem : ∀ p, p ∈ mem.released ↔ p ≠ objs ∧ ∃ b < n, p = .heap b) :
    ∃ mem', release mem objs = some mem' ∧ mem'.own = mem.own ∧ mem'.blocks = mem.blocks ∧
      mem'.released.Nodup ∧ (∀ p, p ∈ mem'.released ↔ ∃ b < n, p = .heap b) ∧
      ∀ q, q ≠ objs → mem'.cells q = mem.cells q := by
  by_cases hobjs : objs = .own
  · subst hobjs
    refine ⟨mem, by simp [release], rfl, rfl, hnodup, ?_, fun _ _ => rfl⟩
    intro p
    rw [hmem]
    refine ⟨And.right, ?_⟩
    rintro ⟨b, hb, rfl⟩
    exact ⟨by simp, b, hb, rfl⟩
  · refine ⟨{ mem with released := mem.released ++ [objs] }, ?_, rfl, rfl, ?_, ?_,
      fun q hq => mem.cells_released_of_ne hq⟩
    · rw [release, if_pos hobjs, Storage.delete_eq hcells hobjs]
    · have hfresh : objs ∉ mem.released := fun h => ((hmem objs).mp h).1 rfl
      rw [← List.concat_eq_append]
      exact hnodup.concat hfresh
    · intro p
      rw [List.mem_append, List.mem_singleton, hmem]
      constructor
      · rintro (⟨-, h⟩ | rfl)
        · exact h
        · exact hplace.resolve_left hobjs
      · intro h
        by_cases hp : p = objs
        · exact .inr hp
        · exact .inl ⟨hp, h⟩

/-- Where the current array stands. -/
lemma Inv.place {t : Target} {r : RepeatedMemory T} {vs : List T} (h : Inv t r vs) :
    r.objs = .own ∨ ∃ b < r.mem.blocks.length, r.objs = .heap b := by
  obtain ⟨cs, hcells, -⟩ := h.array
  rcases hobjs : r.objs with - | b
  · exact .inl rfl
  · refine .inr ⟨b, ?_, rfl⟩
    rw [hobjs, Storage.cells] at hcells
    split at hcells
    · exact absurd hcells (by simp)
    · exact (List.getElem?_eq_some_iff.mp hcells).1

/-- The elements that `memcpy` is asked for. -/
lemma Inv.copied {t : Target} {r : RepeatedMemory T} {vs : List T} (h : Inv t r vs) :
    t.sizeof * r.size % t.word / t.sizeof = vs.length := by
  have hbytes : t.sizeof * r.size < t.word :=
    lt_of_le_of_lt (Nat.mul_le_mul_left t.sizeof h.size_le) h.bytes_lt
  rw [Nat.mod_eq_of_lt hbytes, Nat.mul_div_cancel_left _ t.sizeof_pos, h.size_eq]

/-- An array that fits in memory, beside the one in the object, is shorter than `size_t` counts. -/
lemma lt_word_of_fits {t : Target} {capacity : ℕ}
    (hroom : (capacity + initSize) * t.sizeof ≤ t.word) :
    capacity + 1 < t.word ∧ t.sizeof * capacity < t.word := by
  constructor
  · have hcap : capacity + initSize ≤ t.word :=
      (Nat.le_mul_of_pos_right _ t.sizeof_pos).trans hroom
    rw [initSize] at hcap
    omega
  · have hpos : 0 < initSize * t.sizeof := Nat.mul_pos (by decide) t.sizeof_pos
    rw [Nat.add_mul, Nat.mul_comm capacity] at hroom
    omega

/-- The arrays before a new one are those that are not the new one. -/
lemma exists_heap_lt_iff {n : ℕ} {p : Place} :
    (∃ b < n, p = .heap b) ↔ p ≠ .heap n ∧ ∃ b < n + 1, p = .heap b := by
  constructor
  · rintro ⟨b, hb, rfl⟩
    exact ⟨by simpa using hb.ne, b, Nat.lt_succ_of_lt hb, rfl⟩
  · rintro ⟨hp, b, hb, rfl⟩
    refine ⟨b, lt_of_le_of_ne (Nat.le_of_lt_succ hb) ?_, rfl⟩
    simpa using hp

/-- The move to a new, longer array. -/
lemma Inv.move {t : Target} {r : RepeatedMemory T} {vs : List T} (h : Inv t r vs) {capacity : ℕ}
    (hgrow : r.capacity < capacity) (hroom : (capacity + initSize) * t.sizeof ≤ t.word) :
    ∃ mem₁ mem₂, (r.mem.alloc capacity).2.memcpy (r.mem.alloc capacity).1 r.objs
        (t.sizeof * r.size % t.word / t.sizeof) = some mem₁ ∧
      release mem₁ r.objs = some mem₂ ∧ (r.objs ≠ .own → r.objs ∈ mem₂.released) ∧
      mem₂.own = r.mem.own ∧
      Inv t { r with objs := (r.mem.alloc capacity).1, capacity := capacity, mem := mem₂ } vs := by
  obtain ⟨cs, hcells, hlen, htake⟩ := h.array
  have hvs : vs.length ≤ r.capacity := h.size_eq ▸ h.size_le
  have hfresh : Place.heap r.mem.blocks.length ∉ r.mem.released := by
    rw [h.mem_released]
    simp
  have hnew := Storage.cells_alloc_self hfresh capacity
  obtain ⟨hold, hne⟩ := Storage.cells_alloc_of_eq_some hcells capacity
  have hcopy := Storage.memcpy_eq hold hnew (n := vs.length) (by omega)
    (by rw [List.length_replicate]; omega)
  set mem₁ := (r.mem.alloc capacity).2.setCells
    (cs.take vs.length ++ (List.replicate capacity none).drop vs.length) (r.mem.alloc capacity).1
    with hmem₁
  have hold₁ : mem₁.cells r.objs = some cs := by
    rw [hmem₁, Storage.cells_setCells_of_ne _ _ hne, hold]
  have hnew₁ := Storage.cells_setCells_self hnew
    (cs.take vs.length ++ (List.replicate capacity none).drop vs.length)
  obtain ⟨mem₂, hrelease, hown, hblocks, hnodup, hmem, hkeep⟩ := release_spec hold₁ h.place
    (by simpa [hmem₁, Storage.alloc] using h.nodup)
    (by simpa [hmem₁, Storage.alloc] using h.mem_released)
  have hpre : (cs.take vs.length).length = vs.length := by
    rw [List.length_take]
    omega
  refine ⟨mem₁, mem₂, by rw [h.copied, hcopy], hrelease,
    fun hobjs => (hmem _).mpr (h.place.resolve_left hobjs), by rw [hown, hmem₁]; rfl, ?_⟩
  exact
    { array := by
        refine ⟨_, (hkeep _ hne.symm).trans hnew₁, ?_, ?_⟩
        · rw [List.length_append, hpre, List.length_drop, List.length_replicate]
          exact Nat.add_sub_of_le (hvs.trans hgrow.le)
        · rw [List.take_left' hpre, htake]
      size_eq := h.size_eq
      size_le := h.size_le.trans hgrow.le
      initSize_le := h.initSize_le.trans hgrow.le
      capacity_lt := (lt_word_of_fits hroom).1
      bytes_lt := (lt_word_of_fits hroom).2
      own_length := by
        rw [hown, hmem₁]
        exact h.own_length
      nodup := hnodup
      mem_released := by
        intro p
        rw [hmem, hblocks, hmem₁, Storage.length_blocks_setCells]
        simp only [Storage.alloc, List.length_append, List.length_singleton]
        exact exists_heap_lt_iff }

/-- When an array that is asked for cannot be had. -/
lemma noRoom_some {t : Target} {room : Bool} {n : ℕ} :
    NoRoom t room (some n) ↔ ¬ (room ∧ (n + initSize) * t.sizeof ≤ t.word) := by
  simp only [NoRoom, Option.mem_some_iff, exists_eq_left', not_and_or, Bool.not_eq_true, not_le]

/-- An array that is not asked for is not refused. -/
lemma not_noRoom_none (t : Target) (room : Bool) : ¬ NoRoom t room none := by
  rintro ⟨n, ⟨⟩, -⟩

/-- A `reserve` that is refused an array throws, and leaves the list. -/
lemma reserve_refused {t : Target} {room : Bool} {r : RepeatedMemory T} {vs : List T}
    (h : Inv t r vs) {newsize : ℕ} (hno : NoRoom t room (wanted t r newsize)) :
    ∃ r', reserve t room r newsize = .throws r' ∧ Shows r' vs := by
  rw [wanted] at hno
  split_ifs at hno with hle
  · exact absurd hno (not_noRoom_none t room)
  rw [noRoom_some] at hno
  exact ⟨_, by rw [reserve, if_neg hle]; exact if_neg hno,
    h.shows_of_capacity_le ((not_le.mp hle).le.trans (le_max_left _ _))⟩

/-- **`reserve`.** It returns with room for as many elements as it was asked for, and the same list. The
array in the object is left as it was, and one on the heap that is replaced is released. -/
theorem reserve_spec {t : Target} {room : Bool} {r : RepeatedMemory T} {vs : List T}
    (h : Inv t r vs) {newsize : ℕ} (hroom : ¬ NoRoom t room (wanted t r newsize)) :
    ∃ r', reserve t room r newsize = .returns r' ∧ Inv t r' vs ∧ newsize ≤ r'.capacity ∧
      r'.mem.own = r.mem.own ∧
      (r.capacity < newsize → r.objs ≠ .own → r.objs ∈ r'.mem.released) := by
  by_cases hle : newsize ≤ r.capacity
  · exact ⟨r, by rw [reserve, if_pos hle], h, hle, rfl, fun hlt => absurd hle (not_le.mpr hlt)⟩
  rw [wanted, if_neg hle, noRoom_some, not_not] at hroom
  have hgrow := lt_of_lt_of_le (not_le.mp hle) (le_max_left newsize (r.capacity * 2 % t.word))
  obtain ⟨mem₁, mem₂, hcopy, hrelease, hreleased, hown, hinv⟩ := h.move hgrow hroom.2
  refine ⟨_, ?_, hinv, le_max_left _ _, hown, fun _ => hreleased⟩
  rw [reserve, if_neg hle]
  simp only [if_pos hroom, hcopy, hrelease]

/-- A write behind the last element. -/
lemma put_spec (t : Target) {r : RepeatedMemory T} {vs : List T} (h : Inv t r vs)
    (hlt : r.size < r.capacity) (val : Ref T) {v : T} (hval : val.read r.mem = some (some v)) :
    ∃ r', put t val r = .returns r' ∧ Inv t r' (vs ++ [v]) := by
  obtain ⟨cs, hcells, hlen, htake⟩ := h.array
  have hi : r.size < cs.length := hlt.trans_eq hlen.symm
  have hwrite := Storage.write_eq hcells hi (some v)
  have hsize : (r.size + 1) % t.word = r.size + 1 :=
    Nat.mod_eq_of_lt (lt_of_le_of_lt (Nat.succ_le_succ h.size_le) h.capacity_lt)
  refine ⟨{ r with size := r.size + 1, mem := r.mem.setCells (cs.set r.size (some v)) r.objs }, ?_, ?_⟩
  · rw [put, hval, Option.bind_some, hwrite, hsize]
  · exact
      { array := by
          refine ⟨_, Storage.cells_setCells_self hcells _, by rw [List.length_set, hlen], ?_⟩
          rw [List.length_append, List.length_singleton, ← h.size_eq, List.take_add_one,
            List.take_set_of_le le_rfl, h.size_eq, htake, ← h.size_eq,
            List.getElem?_set_self hi]
          simp
        size_eq := by simp [h.size_eq]
        size_le := hlt
        initSize_le := h.initSize_le
        capacity_lt := h.capacity_lt
        bytes_lt := h.bytes_lt
        own_length := (Storage.length_own_setCells hcells List.length_set).trans h.own_length
        nodup := by simpa using h.nodup
        mem_released := by simpa using h.mem_released }

/-- An `add` that is refused an array throws, and leaves the list. -/
lemma add_refused {t : Target} {room : Bool} {r : RepeatedMemory T} {vs : List T} (h : Inv t r vs)
    (val : Ref T) (hno : NoRoom t room (addWanted t r)) :
    ∃ r', add t room r val = .throws r' ∧ Shows r' vs := by
  rw [addWanted] at hno
  split_ifs at hno with hfull
  · obtain ⟨r', hrun, hshows⟩ := reserve_refused h hno
    exact ⟨r', by rw [add, if_pos hfull, hrun, Outcome.bind], hshows⟩
  · exact absurd hno (not_noRoom_none t room)

/-- **`add`.** It returns with the value behind the others. What the reference reads must stay there when
the container moves. -/
theorem add_spec {t : Target} {room : Bool} {r : RepeatedMemory T} {vs : List T} (h : Inv t r vs)
    (hroom : ¬ NoRoom t room (addWanted t r)) {val : Ref T} {v : T}
    (hval : val.read r.mem = some (some v))
    (hstays : r.size = r.capacity → ∀ mem, mem.own = r.mem.own → val.read mem = some (some v)) :
    ∃ r', add t room r val = .returns r' ∧ Inv t r' (vs ++ [v]) := by
  by_cases hfull : r.size ≥ r.capacity
  · rw [addWanted, if_pos hfull, Nat.mod_eq_of_lt h.capacity_lt] at hroom
    obtain ⟨r', hrun, hinv, hle, hown, -⟩ := reserve_spec h hroom
    have heq : r.size = r.capacity := h.size_le.antisymm hfull
    have hlt : r'.size < r'.capacity := by
      rw [hinv.size_eq, ← h.size_eq, heq]
      exact hle
    obtain ⟨r'', hput, hinv'⟩ := put_spec t hinv hlt val (hstays heq _ hown)
    exact ⟨r'', by rw [add, if_pos hfull, Nat.mod_eq_of_lt h.capacity_lt, hrun, Outcome.bind, hput],
      hinv'⟩
  · obtain ⟨r', hput, hinv⟩ := put_spec t h (not_le.mp hfull) val hval
    exact ⟨r', by rw [add, if_neg hfull, hput], hinv⟩

/-- An element of a full container on the heap is no argument for `add`: its array is released before it
is read. -/
theorem add_cell_full {t : Target} {room : Bool} {r : RepeatedMemory T} {vs : List T}
    (h : Inv t r vs) (hroom : ¬ NoRoom t room (addWanted t r)) (hfull : r.size = r.capacity)
    (hheap : r.objs ≠ .own) (i : ℕ) : add t room r (.cell r.objs i) = .faults := by
  rw [addWanted, if_pos hfull.ge, Nat.mod_eq_of_lt h.capacity_lt] at hroom
  obtain ⟨r', hrun, -, -, -, hreleased⟩ := reserve_spec h hroom
  have hgone := Storage.cells_of_mem_released (hreleased (Nat.lt_succ_self _) hheap) hheap
  rw [add, if_pos hfull.ge, Nat.mod_eq_of_lt h.capacity_lt, hrun, Outcome.bind, put, Ref.read,
    Storage.read, hgone]
  rfl

/-- **`clear`.** It returns an empty container. -/
theorem clear_spec (t : Target) {r : RepeatedMemory T} {vs : List T} (h : Inv t r vs) :
    ∃ r', clear r = .returns r' ∧ Inv t r' [] := by
  obtain ⟨cs, hcells, -⟩ := h.array
  obtain ⟨mem, hrelease, hown, hblocks, hnodup, hmem, -⟩ :=
    release_spec hcells h.place h.nodup h.mem_released
  refine ⟨⟨.own, 0, initSize, mem⟩, by rw [clear, hrelease], inv_own t ?_ hnodup ?_⟩
  · rw [hown, h.own_length]
  · intro p
    rw [hmem, hblocks]

/-- The destructor leaves no array behind, and releases none twice. -/
theorem destroy_spec {t : Target} {r : RepeatedMemory T} {vs : List T} (h : Inv t r vs) :
    ∃ mem, destroy r = some mem ∧ mem.released.count .own = 0 ∧
      ∀ b < mem.blocks.length, mem.released.count (.heap b) = 1 := by
  obtain ⟨cs, hcells, -⟩ := h.array
  obtain ⟨mem, hrelease, -, hblocks, hnodup, hmem, -⟩ :=
    release_spec hcells h.place h.nodup h.mem_released
  refine ⟨mem, hrelease, ?_, ?_⟩
  · rw [List.count_eq_zero, hmem]
    simp
  · intro b hb
    apply List.count_eq_one_of_mem hnodup
    rw [hmem]
    exact ⟨b, hblocks ▸ hb, rfl⟩

/-! ## Every sequence of calls -/

/-- A call that is refused an array. -/
lemma step_refused {t : Target} {r : RepeatedMemory T} {vs : List T} (h : Inv t r vs)
    {c : Call T × Bool} (hno : Refused t r c) : ∃ r', step t r c = .throws r' ∧ Shows r' vs := by
  obtain ⟨call, room⟩ := c
  cases call with
  | add v => exact add_refused h (.value v) hno
  | addOwn i => exact add_refused h (.cell r.objs i) hno
  | reserve n => exact reserve_refused h hno
  | clear => exact absurd hno (not_noRoom_none t room)

/-- A call that adds an own element to a full container on the heap. -/
lemma step_dangles {t : Target} {r : RepeatedMemory T} {vs : List T} (h : Inv t r vs)
    {c : Call T × Bool} (hroom : ¬ Refused t r c) (hdangles : c.1.Dangles r) :
    step t r c = .faults := by
  obtain ⟨call, room⟩ := c
  cases call with
  | addOwn i => exact add_cell_full h hroom hdangles.1 hdangles.2 i
  | add v => cases hdangles
  | reserve n => cases hdangles
  | clear => cases hdangles

/-- **One call** of any other kind returns, with the list that it leaves. -/
lemma step_spec {t : Target} {r : RepeatedMemory T} {vs : List T} (h : Inv t r vs)
    {c : Call T × Bool} (hrange : c.1.InRange vs) (hroom : ¬ Refused t r c)
    (hdangles : ¬ c.1.Dangles r) : ∃ r', step t r c = .returns r' ∧ Inv t r' (c.1.list vs) := by
  obtain ⟨call, room⟩ := c
  cases call with
  | add v => exact add_spec h hroom rfl fun _ _ _ => rfl
  | addOwn i =>
      have hread : (Ref.cell r.objs i).read r.mem = some (some vs[i]) := h.shows.index_eq i hrange
      have hlist : (Call.addOwn i).list vs = vs ++ [vs[i]] := by
        rw [Call.list, List.getElem?_eq_getElem hrange, Option.toList_some]
      rw [hlist]
      refine add_spec h hroom hread fun hfull mem hown => ?_
      -- a full container that does not dangle is in its own array, and that one is never released
      have hobjs : r.objs = .own := not_not.mp fun hne => hdangles ⟨hfull, hne⟩
      rw [hobjs] at hread ⊢
      simp only [Ref.read, Storage.read, Storage.cells, hown] at hread ⊢
      exact hread
  | reserve n =>
      obtain ⟨r', hrun, hinv, -⟩ := reserve_spec h hroom
      exact ⟨r', hrun, hinv⟩
  | clear => exact clear_spec t h

/-- The calls from a container with the invariant. -/
lemma showsAlong_iff_of_inv {t : Target} {r : RepeatedMemory T} {vs : List T} (h : Inv t r vs)
    {cs : List (Call T × Bool)} (hrange : InRange vs cs) :
    ShowsAlong t r vs cs ↔ NoneDangles t r cs := by
  induction cs generalizing r vs with
  | nil => exact iff_of_true h.shows trivial
  | cons c cs ih =>
      rw [ShowsAlong, NoneDangles, and_iff_right h.shows]
      by_cases hno : Refused t r c
      · obtain ⟨r', hstep, hshows⟩ := step_refused h hno
        rw [hstep]
        exact iff_of_true ⟨hno, hshows⟩ ⟨fun _ => hno, trivial⟩
      by_cases hdangles : c.1.Dangles r
      · rw [step_dangles h hno hdangles]
        exact iff_of_false id fun hnone => hno (hnone.1 hdangles)
      · obtain ⟨r', hstep, hinv⟩ := step_spec h hrange.1 hno hdangles
        rw [hstep, and_iff_right fun hd => absurd hd hdangles]
        exact ih hinv hrange.2

/-- Along calls that it is a list along, the container does not fault, and shows the list at the end. -/
lemma ShowsAlong.run {t : Target} {r : RepeatedMemory T} {vs : List T} {cs : List (Call T × Bool)}
    (h : ShowsAlong t r vs cs) :
    run t r cs ≠ .faults ∧ ∀ r', run t r cs = .returns r' → Shows r' (added vs cs) := by
  induction cs generalizing r vs with
  | nil =>
      refine ⟨nofun, ?_⟩
      rintro r' ⟨⟩
      exact h
  | cons c cs ih =>
      obtain ⟨-, hstep⟩ := h
      rw [RepeatedMemory.run]
      cases hs : step t r c with
      | returns r₁ =>
          rw [hs] at hstep
          exact ih hstep
      | throws r₁ => exact ⟨nofun, nofun⟩
      | faults =>
          rw [hs] at hstep
          cases hstep

/-- **The container is a list** along any calls of `add`, `reserve` and `clear` on an empty container,
with any answers of the allocator, if and only if no own element is added to it when it is full and on
the heap, but by an `add` that throws. -/
theorem showsAlong_iff (t : Target) (cs : List (Call T × Bool)) (hrange : InRange [] cs) :
    ShowsAlong t create [] cs ↔ NoneDangles t create cs :=
  showsAlong_iff_of_inv (inv_create t) hrange

/-- Elements of four bytes, counted with 64 bits. -/
def fourBytes : Target := ⟨64, 4, by decide, by decide, by decide⟩

/-- The first element again when the array in the object is full, then more elements than the array on
the heap holds, and a start from anew. -/
def refilled : List (Call UInt32 × Bool) :=
  (List.range 8).map (fun i => (.add (UInt32.ofNat i), true)) ++
    [(.addOwn 0, true), (.reserve 16, true), (.addOwn 1, true), (.reserve 17, true), (.clear, true),
      (.add 9, true)]

/-- Elements of four bytes: the array in the object is filled, twice a larger one takes its place,
and the container is cleared. -/
theorem showsAlong_iff_refilled :
    ShowsAlong fourBytes create [] refilled ∧
      ∃ r, run fourBytes create (refilled.take 12) = .returns r ∧ r.capacity = 32 ∧
        r.iterate = some ([0, 1, 2, 3, 4, 5, 6, 7, 0, 1].map some) :=
  ⟨(showsAlong_iff fourBytes refilled (by decide)).mpr (by decide +kernel), _, rfl, rfl, rfl⟩

/-- Sixteen elements fill the array on the heap; then the first of them is added again. -/
def overfilled : List (Call UInt32 × Bool) :=
  (List.range 16).map (fun i => (.add (UInt32.ofNat i), true)) ++ [(.addOwn 0, true)]

/-- The array of the first element is released before the element is read. -/
theorem not_showsAlong_overfilled :
    InRange [] overfilled ∧ run fourBytes create overfilled = .faults ∧
      ¬ ShowsAlong fourBytes create [] overfilled := by
  have hrun : run fourBytes create overfilled = .faults := by rfl
  exact ⟨by decide, hrun, fun hshows => hshows.run.1 hrun⟩

/-- Calls of `add` only. -/
lemma added_adds (vs : List T) (cs : List (T × Bool)) :
    added vs (cs.map fun c => (.add c.1, c.2)) = vs ++ cs.map Prod.fst := by
  induction cs generalizing vs with
  | nil => simp [added]
  | cons c cs ih => simpa [added, Call.list] using ih (vs ++ [c.1])

/-- The container of lists. -/
lemma toList_foldl_add (fill : T) (vs : List T) (q : RepeatedObject T) :
    (vs.foldl (RepeatedObject.add fill) q).toList = q.toList ++ vs := by
  induction vs generalizing q with
  | nil => simp
  | cons v vs ih => rw [List.foldl_cons, ih, RepeatedObject.toList_add, List.append_assoc,
      List.singleton_append]

/-- They add no own element. -/
lemma showsAlong_adds (t : Target) (cs : List (T × Bool)) :
    ShowsAlong t create [] (cs.map fun c => (.add c.1, c.2)) := by
  refine (showsAlong_iff_of_inv (inv_create t) ?_).mpr ?_
  · generalize ([] : List T) = vs
    induction cs generalizing vs with
    | nil => trivial
    | cons c cs ih => exact ⟨trivial, ih _⟩
  · generalize (create : RepeatedMemory T) = r
    induction cs generalizing r with
    | nil => trivial
    | cons c cs ih =>
        refine ⟨nofun, ?_⟩
        split
        · exact ih _
        · trivial

/-- **Refinement.** What the decoders append shows as in the container of lists, that their round trip
is about. -/
theorem iterate_adds (t : Target) (fill : T) (cs : List (T × Bool)) {r : RepeatedMemory T}
    (h : run t create (cs.map fun c => (.add c.1, c.2)) = .returns r) :
    r.iterate = some (((cs.map Prod.fst).foldl (RepeatedObject.add fill)
      (RepeatedObject.create fill)).toList.map some) := by
  rw [((showsAlong_adds t cs).run.2 r h).iterate_eq, added_adds, toList_foldl_add]
  rfl

/-! ## Where that ends -/

/-- A container whose `reserve` threw says that it has room for more elements than there is: when it is
full, `add` writes behind its array. -/
theorem add_after_throw (t : Target) {r : RepeatedMemory T} {vs : List T} (h : Inv t r vs)
    (hfull : r.size = r.capacity) {capacity : ℕ} (hgrow : r.capacity < capacity) (room : Bool)
    (v : T) : add t room { r with capacity := capacity } (.value v) = .faults := by
  obtain ⟨cs, hcells, hlen, -⟩ := h.array
  have hroom : ¬ r.size ≥ capacity := by omega
  rw [add, if_neg hroom, put]
  have hout : ¬ r.size < cs.length := by omega
  simp [Ref.read, Storage.write, hcells, hout]

end RepeatedMemory

end CocInside.Ssu
