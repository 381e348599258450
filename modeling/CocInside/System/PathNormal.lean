import CocInside.Lib.Split
import CocInside.System.Path

/-!
# Printing and parsing again

`parseUnix` leaves a path in a normal form, and `buildUnix` prints it. What is printed is parsed to the
same path, but for two kinds of relative texts: where a device is named, it is printed as an absolute
path; and a leading `~` that is a directory of its own, not the home directory, is printed as one.

* `Path.buildUnix`: the code.
* `Path.Normal`, `normal_unixLoop`: the directories that `parseUnix` leaves.
* `parseUnix_buildUnix_absolute`, `parseUnix_buildUnix_relative`: paths that are parsed back.
* `depth`, `standing`: the elements of a text that stand at its beginning once all before them is
  folded away.
* `head?_foldl_unixElement`, `device_foldl_unixElement`: what these elements decide.
* `printsBack_iff`: for which texts parsing, printing and parsing gives the same path.

Source: `System/Path.cpp`.
-/

namespace CocInside.System

open CocInside.Lib

namespace Path

/-! ## The code -/

/-- Source: `Path.cpp`, `Path::buildUnix`. -/
def buildUnix (p : Path) : List Char :=
  (if p.device ≠ [] then '/' :: p.device ++ [':', '/'] else if p.absolute then ['/'] else []) ++
    p.dirs.flatMap (· ++ ['/']) ++ p.name

/-! ## The loop over elements -/

/-- What stands between the slashes. -/
def elements (it : List Char) : List (List Char) := it.splitOnP (· = '/')

/-- There is at least one element, the name. -/
lemma elements_ne_nil (it : List Char) : elements it ≠ [] := List.splitOnP_ne_nil _ it

/-- The loop takes what stands between the separators one by one; the last is the name. -/
lemma parseLoop_eq (isSeparator : Char → Bool) (element : Path → List Char → Path) (p : Path)
    (it : List Char) :
    parseLoop isSeparator element p [] it =
      { (it.splitOnP isSeparator).dropLast.foldl element p with
        name := (it.splitOnP isSeparator).getLast?.getD [] } := by
  suffices h : ∀ name, parseLoop isSeparator element p name it =
      { ((it.splitOnP isSeparator).modifyHead (name ++ ·)).dropLast.foldl element p with
        name := ((it.splitOnP isSeparator).modifyHead (name ++ ·)).getLast?.getD [] } by
    have hid : (it.splitOnP isSeparator).modifyHead (fun e => [] ++ e) = it.splitOnP isSeparator := by
      rcases it.splitOnP isSeparator with - | ⟨first, others⟩ <;> rfl
    rw [h [], hid]
  intro name
  induction it generalizing p name with
  | nil => simp [parseLoop]
  | cons c it ih =>
      obtain ⟨first, others, hsplit⟩ :=
        List.exists_cons_of_ne_nil (List.splitOnP_ne_nil isSeparator it)
      rw [parseLoop, List.splitOnP_cons_eq_if_modifyHead]
      by_cases hc : isSeparator c = true
      · rw [if_pos hc, if_pos hc, ih]
        simp [hsplit]
      · rw [if_neg hc, if_neg hc, ih]
        simp [hsplit]

/-- The loop of `parseUnix`. -/
lemma unixLoop_eq (p : Path) (it : List Char) :
    unixLoop p it =
      { (elements it).dropLast.foldl unixElement p with name := (elements it).getLast?.getD [] } :=
  parseLoop_eq (· = '/') unixElement p it

/-! ## The normal form -/

/-- Directories as `parseUnix` leaves them: each is a proper name, the first is not a device, and `..`
stands at the beginning only, in an absolute path nowhere. -/
structure Normal (absolute : Bool) (dirs : List (List Char)) : Prop where
  ne_nil : ∀ d ∈ dirs, d ≠ []
  ne_dot : ∀ d ∈ dirs, d ≠ ['.']
  slash : ∀ d ∈ dirs, '/' ∉ d
  colon : ∀ d, dirs.head? = some d → d.getLast? ≠ some ':'
  up : ∃ k rest, dirs = List.replicate k dotdot ++ rest ∧ dotdot ∉ rest ∧ (absolute = true → k = 0)

/-- No directories. -/
lemma normal_nil (absolute : Bool) : Normal absolute [] :=
  ⟨by simp, by simp, by simp, by simp, 0, [], rfl, by simp, fun _ => rfl⟩

/-- The directories at the beginning of normal ones. -/
lemma Normal.of_append {absolute : Bool} {dirs more : List (List Char)}
    (h : Normal absolute (dirs ++ more)) : Normal absolute dirs := by
  obtain ⟨k, rest, heq, hrest, habs⟩ := h.up
  refine ⟨fun d hd => h.ne_nil d (List.mem_append_left _ hd),
    fun d hd => h.ne_dot d (List.mem_append_left _ hd),
    fun d hd => h.slash d (List.mem_append_left _ hd), ?_, ?_⟩
  · intro d hd
    exact h.colon d (by rw [List.head?_append, hd]; rfl)
  · have htake : dirs = (List.replicate k dotdot ++ rest).take dirs.length := by
      rw [← heq, List.take_left]
    rw [List.take_append, List.take_replicate, List.length_replicate] at htake
    refine ⟨min dirs.length k, rest.take (dirs.length - k), htake, ?_, ?_⟩
    · exact fun hmem => hrest (List.mem_of_mem_take hmem)
    · intro h1
      rw [habs h1, Nat.min_zero]

/-- One more directory behind normal ones, with the `..` still at the beginning. -/
lemma Normal.concat_of_up {absolute : Bool} {dirs : List (List Char)} (h : Normal absolute dirs)
    {d : List Char} (hnil : d ≠ []) (hdot : d ≠ ['.']) (hslash : '/' ∉ d)
    (hcolon : dirs = [] → d.getLast? ≠ some ':')
    (hup : ∃ k rest, dirs ++ [d] = List.replicate k dotdot ++ rest ∧ dotdot ∉ rest ∧
      (absolute = true → k = 0)) : Normal absolute (dirs ++ [d]) := by
  refine ⟨?_, ?_, ?_, ?_, hup⟩
  · simpa [or_imp, forall_and] using ⟨h.ne_nil, hnil⟩
  · simpa [or_imp, forall_and] using ⟨h.ne_dot, hdot⟩
  · simpa [or_imp, forall_and] using ⟨h.slash, hslash⟩
  · rcases dirs with - | ⟨first, others⟩
    · simpa using hcolon rfl
    · simpa using h.colon first

/-- A name behind normal directories. -/
lemma Normal.concat {absolute : Bool} {dirs : List (List Char)} (h : Normal absolute dirs)
    {d : List Char} (hnil : d ≠ []) (hdot : d ≠ ['.']) (hslash : '/' ∉ d) (hup : d ≠ dotdot)
    (hcolon : dirs = [] → d.getLast? ≠ some ':') : Normal absolute (dirs ++ [d]) := by
  obtain ⟨k, rest, heq, hrest, habs⟩ := h.up
  apply h.concat_of_up hnil hdot hslash hcolon
  refine ⟨k, rest ++ [d], by rw [heq, List.append_assoc], ?_, habs⟩
  simpa using ⟨hrest, Ne.symm hup⟩

/-- Another `..` at the beginning of a relative path. -/
lemma Normal.concat_dotdot {dirs : List (List Char)} (h : Normal false dirs)
    (hlast : dirs = [] ∨ dirs.getLast? = some dotdot) : Normal false (dirs ++ [dotdot]) := by
  obtain ⟨k, rest, heq, hrest, habs⟩ := h.up
  have hnil : rest = [] := by
    by_contra hne
    rcases hlast with hnil | hlast
    · rw [hnil] at heq
      exact hne (List.append_eq_nil_iff.mp heq.symm).2
    · rw [heq, List.getLast?_append_of_ne_nil _ hne] at hlast
      exact hrest (List.mem_of_getLast? hlast)
  apply h.concat_of_up (by decide) (by decide) (by decide) (fun _ => by decide)
  refine ⟨k + 1, [], ?_, by simp, by simp⟩
  rw [heq, hnil, List.append_nil, List.append_nil, List.replicate_succ']

/-- Only the directories are touched. -/
lemma pushDirectory_eq (p : Path) (d : List Char) :
    p.pushDirectory d = { p with dirs := (p.pushDirectory d).dirs } := by
  unfold pushDirectory
  split_ifs <;> rfl

/-- `pushDirectory` keeps the normal form. -/
lemma normal_pushDirectory {p : Path} (h : Normal p.absolute p.dirs) {d : List Char}
    (hslash : '/' ∉ d) (hcolon : p.dirs = [] → d.getLast? ≠ some ':') :
    Normal p.absolute (p.pushDirectory d).dirs := by
  unfold pushDirectory
  split_ifs with hname hup hpop hrel
  · have hne : p.dirs ≠ [] := hpop.1
    rw [← List.dropLast_append_getLast hne] at h
    exact h.of_append
  · have habs : p.absolute = false := by simpa using hrel
    rw [habs] at h ⊢
    rw [hup]
    apply h.concat_dotdot
    by_cases hnil : p.dirs = []
    · exact .inl hnil
    · exact .inr (not_not.mp fun hlast => hpop ⟨hnil, hlast⟩)
  · exact h
  · exact h.concat hname.1 hname.2 hslash hup hcolon
  · exact h

/-- A path with normal directories and a device without a slash. -/
structure IsNormal (p : Path) : Prop where
  dirs : Normal p.absolute p.dirs
  device : '/' ∉ p.device

/-- An element without a slash keeps the normal form. -/
lemma IsNormal.unixElement {p : Path} (h : p.IsNormal) {e : List Char} (he : '/' ∉ e) :
    (Path.unixElement p e).IsNormal := by
  have hpush : (p.dirs = [] → e.getLast? ≠ some ':') → (p.pushDirectory e).IsNormal := by
    intro hcolon
    rw [pushDirectory_eq]
    exact ⟨normal_pushDirectory h.dirs he hcolon, h.device⟩
  unfold Path.unixElement
  split_ifs with hdirs hcolon
  · exact ⟨h.dirs, fun hmem => he (List.dropLast_subset e hmem)⟩
  · exact hpush fun _ => hcolon
  · exact hpush fun hnil => absurd hnil hdirs

/-- The flag is not touched. -/
@[simp]
lemma absolute_unixElement (p : Path) (e : List Char) : (unixElement p e).absolute = p.absolute := by
  unfold unixElement
  split_ifs
  · rfl
  · rw [pushDirectory_eq]
  · rw [pushDirectory_eq]

/-- Nor by all of them. -/
@[simp]
lemma absolute_foldl_unixElement (es : List (List Char)) (p : Path) :
    (es.foldl unixElement p).absolute = p.absolute := by
  induction es generalizing p with
  | nil => rfl
  | cons e es ih => rw [List.foldl_cons, ih, absolute_unixElement]

/-- Nor by the loop. -/
@[simp]
lemma absolute_unixLoop (p : Path) (it : List Char) : (unixLoop p it).absolute = p.absolute := by
  rw [unixLoop_eq]
  exact absolute_foldl_unixElement _ p

/-- Elements without slashes keep the normal form. -/
lemma IsNormal.foldl {es : List (List Char)} (hes : ∀ e ∈ es, '/' ∉ e) {p : Path} (h : p.IsNormal) :
    (es.foldl Path.unixElement p).IsNormal := by
  induction es generalizing p with
  | nil => exact h
  | cons e es ih =>
      exact ih (fun d hd => hes d (List.mem_cons_of_mem e hd))
        (h.unixElement (hes e List.mem_cons_self))

/-- The elements of a text have no slashes. -/
lemma slash_notMem_of_mem_elements {it e : List Char} (h : e ∈ elements it) : '/' ∉ e := by
  intro hmem
  have hfalse := eq_false_of_mem_splitOnP h '/' hmem
  simp at hfalse

/-- **The normal form.** What the loop leaves, from a path in normal form. -/
theorem IsNormal.unixLoop {p : Path} (h : p.IsNormal) (it : List Char) :
    (Path.unixLoop p it).IsNormal ∧ '/' ∉ (Path.unixLoop p it).name ∧
      (Path.unixLoop p it).absolute = p.absolute := by
  have hes : ∀ e ∈ (elements it).dropLast, '/' ∉ e := fun e he =>
    slash_notMem_of_mem_elements (List.dropLast_subset _ he)
  have hloop := h.foldl hes
  refine ⟨?_, ?_, absolute_unixLoop p it⟩
  · rw [unixLoop_eq]
    exact ⟨hloop.dirs, hloop.device⟩
  rw [unixLoop_eq, List.getLast?_eq_some_getLast (elements_ne_nil it)]
  exact slash_notMem_of_mem_elements (List.getLast_mem (elements_ne_nil it))

/-- An empty path. -/
lemma isNormal_cleared (absolute : Bool) : (cleared absolute).IsNormal :=
  ⟨normal_nil absolute, by simp [cleared]⟩

/-! ## Printed paths -/

/-- In normal directories, one `..` behind the other. -/
lemma Normal.eq_replicate {absolute : Bool} {dirs : List (List Char)}
    (h : Normal absolute (dirs ++ [dotdot])) :
    ∃ k, dirs = List.replicate k dotdot ∧ absolute = false := by
  obtain ⟨k, rest, heq, hrest, habs⟩ := h.up
  have hnil : rest = [] := by
    by_contra hne
    have hlast := congrArg List.getLast? heq
    rw [List.getLast?_append_of_ne_nil _ hne, List.getLast?_concat] at hlast
    exact hrest (List.mem_of_getLast? hlast.symm)
  rw [hnil, List.append_nil] at heq
  rcases k with - | k
  · simp at heq
  · rw [List.replicate_succ'] at heq
    refine ⟨k, List.append_cancel_right heq, ?_⟩
    by_contra hne
    exact absurd (habs (by simpa using hne)) (Nat.succ_ne_zero k)

/-- The next directory of a path in normal form is added. -/
lemma unixElement_of_normal {p : Path} {d : List Char} (h : Normal p.absolute (p.dirs ++ [d])) :
    unixElement p d = { p with dirs := p.dirs ++ [d] } := by
  have hpush : p.pushDirectory d = { p with dirs := p.dirs ++ [d] } := by
    have hname : d ≠ [] ∧ d ≠ ['.'] := ⟨h.ne_nil d (by simp), h.ne_dot d (by simp)⟩
    rw [pushDirectory, if_pos hname]
    by_cases hup : d = dotdot
    · subst hup
      obtain ⟨k, hdirs, habs⟩ := h.eq_replicate
      have hlast : ¬ (p.dirs ≠ [] ∧ p.dirs.getLast? ≠ some dotdot) := by
        rw [hdirs]
        rcases k with - | k
        · simp
        · simp [List.replicate_succ']
      rw [if_pos rfl, if_neg hlast, if_pos (by simp [habs])]
    · rw [if_neg hup]
  unfold unixElement
  split_ifs with hdirs hcolon
  · exact absurd hcolon (h.colon d (by simp [hdirs]))
  · exact hpush
  · exact hpush

/-- And so are all of them. -/
lemma foldl_unixElement_of_normal {dirs : List (List Char)} {p : Path}
    (h : Normal p.absolute (p.dirs ++ dirs)) :
    dirs.foldl unixElement p = { p with dirs := p.dirs ++ dirs } := by
  induction dirs generalizing p with
  | nil => simp
  | cons d dirs ih =>
      have hd : Normal p.absolute (p.dirs ++ [d]) := by
        rw [← List.singleton_append, ← List.append_assoc] at h
        exact h.of_append
      rw [List.foldl_cons, unixElement_of_normal hd, ih (by simpa using h)]
      simp

/-- The loop at an element with a slash behind it. -/
lemma unixLoop_append_slash (p : Path) {e : List Char} (he : '/' ∉ e) (it : List Char) :
    unixLoop p (e ++ '/' :: it) = unixLoop (unixElement p e) it := by
  have hsplit : elements (e ++ '/' :: it) = e :: elements it := by
    apply List.splitOnP_append_cons_of_forall_mem _ '/' (by simp)
    intro c hc
    simpa using ne_of_mem_of_not_mem hc he
  obtain ⟨first, others, hit⟩ := List.exists_cons_of_ne_nil (elements_ne_nil it)
  rw [unixLoop_eq, unixLoop_eq, hsplit, hit, List.dropLast_cons_cons, List.foldl_cons,
    List.getLast?_cons_cons]

/-- A text that begins with a slash. -/
lemma parseUnix_slash (cwd : Parsed) (it : List Char) :
    parseUnix cwd ('/' :: it) = .returns (unixLoop (cleared true) it) := by
  unfold parseUnix
  rfl

/-- A relative text. -/
lemma parseUnix_relative (cwd : Parsed) {path : List Char} (hslash : path.head? ≠ some '/')
    (hhome : ¬ beginsAtHome path = true) : parseUnix cwd path = .returns (unixLoop cleared path) := by
  unfold parseUnix
  rw [if_neg hslash, if_neg hhome]

/-- A text that begins at home. -/
lemma parseUnix_home (cwd : Path) {path : List Char} (hslash : path.head? ≠ some '/')
    (hhome : beginsAtHome path = true) :
    parseUnix (.returns cwd) path =
      .returns (unixLoop { cleared true with dirs := cwd.dirs } path.tail) := by
  unfold parseUnix
  rw [if_neg hslash, if_pos hhome]

/-- Directories with a slash behind each, and a name. -/
lemma elements_flatMap {dirs : List (List Char)} {name : List Char} (h : ∀ d ∈ dirs, '/' ∉ d)
    (hname : '/' ∉ name) : elements (dirs.flatMap (· ++ ['/']) ++ name) = dirs ++ [name] := by
  apply splitOnP_flatMap (by simp)
  · intro d hd c hc
    simpa using ne_of_mem_of_not_mem hc (h d hd)
  · intro c hc
    simpa using ne_of_mem_of_not_mem hc hname

/-- The loop over directories in normal form and a name. -/
lemma unixLoop_flatMap {p : Path} {dirs : List (List Char)} {name : List Char}
    (h : Normal p.absolute dirs) (hp : p.dirs = []) (hname : '/' ∉ name) :
    unixLoop p (dirs.flatMap (· ++ ['/']) ++ name) = { p with dirs := dirs, name := name } := by
  have hfold : dirs.foldl unixElement p = { p with dirs := dirs } := by
    rw [foldl_unixElement_of_normal (by rwa [hp, List.nil_append]), hp, List.nil_append]
  rw [unixLoop_eq, elements_flatMap h.slash hname, List.dropLast_concat, List.getLast?_concat, hfold]
  rfl

/-- An absolute path is printed and parsed back. -/
lemma parseUnix_buildUnix_absolute (cwd : Parsed) {p : Path} (h : p.IsNormal) (hname : '/' ∉ p.name)
    (habs : p.absolute = true) :
    parseUnix cwd p.buildUnix =
      .returns { cleared true with device := p.device, dirs := p.dirs, name := p.name } := by
  have hdirs : Normal true p.dirs := habs ▸ h.dirs
  by_cases hdev : p.device = []
  · have hbuild : p.buildUnix = '/' :: (p.dirs.flatMap (· ++ ['/']) ++ p.name) := by
      simp [buildUnix, hdev, habs]
    rw [hbuild, parseUnix_slash, unixLoop_flatMap (p := cleared true) hdirs rfl hname, hdev]
    rfl
  · -- the device is an element of its own, before the first directory
    have hbuild : p.buildUnix =
        '/' :: ((p.device ++ [':']) ++ '/' :: (p.dirs.flatMap (· ++ ['/']) ++ p.name)) := by
      simp [buildUnix, hdev]
    have hslash : '/' ∉ p.device ++ [':'] := by simpa using h.device
    have hdevice : unixElement (cleared true) (p.device ++ [':']) =
        { cleared true with device := p.device } := by
      simp [unixElement, cleared]
    rw [hbuild, parseUnix_slash, unixLoop_append_slash _ hslash, hdevice,
      unixLoop_flatMap (p := { cleared true with device := p.device }) hdirs rfl hname]

/-- Does a text begin at home whose first element is known? -/
lemma beginsAtHome_append {e rest : List Char} (he : '/' ∉ e)
    (hrest : rest = [] ∨ rest.head? = some '/') :
    beginsAtHome (e ++ rest) = true ↔ e = ['~'] := by
  rcases e with - | ⟨c, e⟩
  · rcases hrest with rfl | hrest
    · simp [beginsAtHome]
    · obtain ⟨rest, rfl⟩ := List.head?_eq_some_iff.mp hrest
      simp [beginsAtHome]
  · by_cases hc : c = '~'
    · subst hc
      rcases e with - | ⟨d, e⟩
      · simpa [beginsAtHome] using hrest
      · have hd : d ≠ '/' := fun hd => he (by simp [hd])
        simp [beginsAtHome, hd]
    · have hother : beginsAtHome (c :: (e ++ rest)) = false := by
        unfold beginsAtHome
        split
        · next heq => exact absurd (List.cons.inj heq).1 hc
        · rfl
      simp [hother, hc]

/-- A relative path without a device is printed element by element. -/
lemma buildUnix_relative {p : Path} (habs : p.absolute = false) (hdev : p.device = []) :
    p.buildUnix = p.dirs.flatMap (· ++ ['/']) ++ p.name := by
  simp [buildUnix, habs, hdev]

/-- The first element of what is printed, and the rest. -/
lemma exists_flatMap_eq {dirs : List (List Char)} (h : ∀ d ∈ dirs, d ≠ []) (name : List Char) :
    ∃ e rest, (dirs ++ [name]).head? = some e ∧ dirs.flatMap (· ++ ['/']) ++ name = e ++ rest ∧
      (rest = [] ∨ rest.head? = some '/') ∧ (e = [] → rest = []) := by
  rcases dirs with - | ⟨d, dirs⟩
  · exact ⟨name, [], rfl, by simp, .inl rfl, fun _ => rfl⟩
  · refine ⟨d, '/' :: (dirs.flatMap (· ++ ['/']) ++ name), rfl, by simp, .inr rfl, ?_⟩
    exact fun hd => absurd hd (h d List.mem_cons_self)

/-- **Relative paths.** Without a device, what is printed begins at home if `~` is the first element,
and else it is parsed back. -/
lemma parseUnix_buildUnix_relative (cwd : Parsed) {p : Path} (h : p.IsNormal) (hname : '/' ∉ p.name)
    (habs : p.absolute = false) (hdev : p.device = []) :
    p.buildUnix.head? ≠ some '/' ∧
      (beginsAtHome p.buildUnix = true ↔ (p.dirs ++ [p.name]).head? = some ['~']) ∧
      ((p.dirs ++ [p.name]).head? ≠ some ['~'] →
        parseUnix cwd p.buildUnix = .returns { cleared with dirs := p.dirs, name := p.name }) := by
  obtain ⟨e, rest, hhead, heq, hrest, hempty⟩ := exists_flatMap_eq h.dirs.ne_nil p.name
  have hdirs : Normal false p.dirs := habs ▸ h.dirs
  have he : '/' ∉ e := by
    rcases List.mem_append.mp (List.mem_of_head? hhead) with hmem | hmem
    · exact hdirs.slash e hmem
    · rw [List.mem_singleton.mp hmem]
      exact hname
  have hslash : p.buildUnix.head? ≠ some '/' := by
    rw [buildUnix_relative habs hdev, heq]
    rcases e with - | ⟨c, e⟩
    · simp [hempty rfl]
    · intro hc
      obtain rfl : c = '/' := by simpa using hc
      exact he List.mem_cons_self
  have hhome : beginsAtHome p.buildUnix = true ↔ (p.dirs ++ [p.name]).head? = some ['~'] := by
    rw [buildUnix_relative habs hdev, heq, beginsAtHome_append he hrest, hhead, Option.some.injEq]
  refine ⟨hslash, hhome, fun hne => ?_⟩
  rw [parseUnix_relative cwd hslash (mt hhome.mp hne), buildUnix_relative habs hdev,
    unixLoop_flatMap (p := cleared) hdirs rfl hname]

/-! ## Elements that stand at the beginning -/

/-- How many directories deep a relative text is behind an element; `none` once a `..` has left the place
where it begins, for it never comes back. -/
def deeper : Option ℕ → List Char → Option ℕ
  | none, _ => none
  | some n, e =>
      if e = [] ∨ e = ['.'] then some n
      else if e = dotdot then (if n = 0 then none else some (n - 1))
      else if n = 0 ∧ e.getLast? = some ':' then some 0
      else some (n + 1)

/-- The elements that stand where the text begins, that is with all elements before them folded away. -/
def standing : Option ℕ → List (List Char) → List (List Char)
  | _, [] => []
  | n, e :: es => if n = some 0 then e :: standing (deeper n e) es else standing (deeper n e) es

/-- The depth, and the directories of a relative path. -/
def Stands (p : Path) : Option ℕ → Prop
  | none => p.dirs.head? = some dotdot
  | some n => p.dirs.length = n ∧ dotdot ∉ p.dirs

/-- The beginning is where there are no directories. -/
lemma Stands.eq_zero_iff {p : Path} {n : Option ℕ} (h : p.Stands n) : n = some 0 ↔ p.dirs = [] := by
  rcases n with - | n
  · have hne : p.dirs ≠ [] := by
      intro hnil
      rw [Stands, hnil] at h
      simp at h
    simp [hne]
  · rw [Option.some.injEq, ← h.1, List.length_eq_zero_iff]

/-- As long as there are directories, the first stays. -/
lemma head?_pushDirectory {p : Path} (hp : p.dirs ≠ []) {d : List Char}
    (h : (p.pushDirectory d).dirs ≠ []) : (p.pushDirectory d).dirs.head? = p.dirs.head? := by
  have hpush : (p.dirs ++ [d]).head? = p.dirs.head? := List.head?_append_of_ne_nil _ hp
  unfold pushDirectory at h ⊢
  split_ifs at h ⊢
  · rw [List.head?_dropLast, if_pos]
    have hpos : 0 < p.dirs.dropLast.length := List.length_pos_of_ne_nil h
    rw [List.length_dropLast] at hpos
    omega
  · exact hpush
  · rfl
  · exact hpush
  · rfl

/-- A `..` stays at the beginning. -/
lemma pushDirectory_ne_nil {p : Path} (h : p.dirs.head? = some dotdot) (d : List Char) :
    (p.pushDirectory d).dirs ≠ [] := by
  have hne : p.dirs ≠ [] := by
    rintro hnil
    simp [hnil] at h
  unfold pushDirectory
  split_ifs with _ _ hpop
  · -- with nothing behind it, it would be the last
    rcases hdirs : p.dirs with - | ⟨first, - | ⟨second, others⟩⟩
    · exact absurd hdirs hne
    · rw [hdirs] at h hpop
      exact absurd h (by simpa using hpop.2)
    · simp
  · simp
  · exact hne
  · simp
  · exact hne

/-- `pushDirectory` goes as deep as it should. -/
lemma Stands.pushDirectory {p : Path} {n : Option ℕ} (h : p.Stands n) (habs : p.absolute = false)
    {e : List Char} (hcolon : p.dirs = [] → e.getLast? ≠ some ':') :
    (p.pushDirectory e).Stands (deeper n e) := by
  rcases n with - | n
  · have hne : p.dirs ≠ [] := fun hnil => by simp [Stands, hnil] at h
    show (p.pushDirectory e).dirs.head? = some dotdot
    rw [head?_pushDirectory hne (pushDirectory_ne_nil h e)]
    exact h
  obtain ⟨hlen, hup⟩ := h
  by_cases hskip : e = [] ∨ e = ['.']
  · have hsame : p.pushDirectory e = p := by
      rw [Path.pushDirectory, if_neg]
      rcases hskip with rfl | rfl <;> simp
    rw [hsame, deeper, if_pos hskip]
    exact ⟨hlen, hup⟩
  rw [Path.pushDirectory, if_pos (by simpa [not_or] using hskip), deeper, if_neg hskip]
  by_cases hdot : e = dotdot
  · rw [if_pos hdot, if_pos hdot]
    by_cases hnil : p.dirs = []
    · have hn : n = 0 := by rw [← hlen, hnil, List.length_nil]
      rw [if_neg (by simp [hnil]), if_pos (by simp [habs]), if_pos hn]
      simp [Stands, hnil, hdot]
    · have hlast : p.dirs.getLast? ≠ some dotdot := fun heq => hup (List.mem_of_getLast? heq)
      have hn : n ≠ 0 := by
        rw [← hlen]
        exact fun hzero => hnil (List.length_eq_zero_iff.mp hzero)
      rw [if_pos ⟨hnil, hlast⟩, if_neg hn]
      exact ⟨by rw [List.length_dropLast, hlen], fun hmem => hup (List.dropLast_subset _ hmem)⟩
  · have hname : ¬ (n = 0 ∧ e.getLast? = some ':') := by
      rintro ⟨hn, hlast⟩
      exact hcolon (List.length_eq_zero_iff.mp (hlen.trans hn)) hlast
    rw [if_neg hdot, if_neg hdot, if_neg hname]
    refine ⟨by simp [hlen], ?_⟩
    simpa using ⟨hup, Ne.symm hdot⟩

/-- And so does an element. -/
lemma Stands.unixElement {p : Path} {n : Option ℕ} (h : p.Stands n) (habs : p.absolute = false)
    (e : List Char) : (Path.unixElement p e).Stands (deeper n e) := by
  unfold Path.unixElement
  split_ifs with hdirs hcolon
  · obtain rfl : n = some 0 := h.eq_zero_iff.mpr hdirs
    have hskip : ¬ (e = [] ∨ e = ['.']) := by
      rintro (rfl | rfl) <;> simp at hcolon
    have hdot : e ≠ dotdot := by
      rintro rfl
      simp [dotdot] at hcolon
    rw [deeper, if_neg hskip, if_neg hdot, if_pos ⟨rfl, hcolon⟩]
    exact h
  · exact h.pushDirectory habs fun _ => hcolon
  · exact h.pushDirectory habs fun hnil => absurd hnil hdirs

/-- As long as there are directories, an element does not change the first. -/
lemma head?_unixElement {p : Path} (hp : p.dirs ≠ []) {e : List Char}
    (h : (unixElement p e).dirs ≠ []) : (unixElement p e).dirs.head? = p.dirs.head? := by
  unfold unixElement at h ⊢
  rw [if_neg hp] at h ⊢
  exact head?_pushDirectory hp h

/-- Where an element makes the first directory, it is that element. -/
lemma head?_unixElement_of_nil {p : Path} (hp : p.dirs = []) {e : List Char}
    (h : (unixElement p e).dirs ≠ []) : (unixElement p e).dirs.head? = some e := by
  unfold unixElement pushDirectory at h ⊢
  split_ifs at h ⊢ <;> simp_all

/-- **The first directory**, or the name if there is none: the last of the elements that stand at the
beginning. -/
theorem head?_foldl_unixElement {es : List (List Char)} {p : Path} {n : Option ℕ} (h : p.Stands n)
    (habs : p.absolute = false) (name : List Char) :
    ((es.foldl unixElement p).dirs ++ [name]).head? =
      (standing n (es ++ [name])).getLast?.or p.dirs.head? := by
  induction es generalizing p n with
  | nil =>
      by_cases hn : n = some 0
      · simp [standing, hn, h.eq_zero_iff.mp hn]
      · have hne : p.dirs ≠ [] := mt h.eq_zero_iff.mpr hn
        simp [standing, hn, List.head?_append_of_ne_nil _ hne]
  | cons e es ih =>
      have hstep := h.unixElement habs e
      rw [List.foldl_cons, ih hstep (by simpa using habs), List.cons_append, standing]
      rcases hrest : standing (deeper n e) (es ++ [name]) with - | ⟨first, others⟩
      · -- the text does not come back to the beginning, so there are directories from here on
        have hne : (unixElement p e).dirs ≠ [] := by
          intro hnil
          rw [hstep.eq_zero_iff.mpr hnil] at hrest
          rcases hes : es ++ [name] with - | ⟨first, others⟩
          · simp at hes
          · simp [hes, standing] at hrest
        by_cases hn : n = some 0
        · simp [hn, head?_unixElement_of_nil (h.eq_zero_iff.mp hn) hne]
        · simp [hn, head?_unixElement (mt h.eq_zero_iff.mpr hn) hne]
      · by_cases hn : n = some 0
        · simp [hn, h.eq_zero_iff.mp hn, List.getLast?_cons]
        · simp [hn, List.getLast?_cons]

/-- Is the element written like a device? -/
def endsInColon (e : List Char) : Bool := e.getLast? = some ':'

/-- An element that names a device, or not. -/
lemma device_unixElement (p : Path) (e : List Char) :
    (unixElement p e).device =
      if p.dirs = [] ∧ endsInColon e = true then e.dropLast else p.device := by
  unfold unixElement endsInColon
  by_cases hdirs : p.dirs = []
  · by_cases hcolon : e.getLast? = some ':'
    · simp [hdirs, hcolon]
    · simp only [hdirs, hcolon, if_true, if_false, decide_false, Bool.false_eq_true, and_false]
      rw [pushDirectory_eq]
  · simp only [hdirs, if_false, false_and]
    rw [pushDirectory_eq]

/-- **The device**: the last of the elements that stand at the beginning and end in a colon. -/
theorem device_foldl_unixElement {es : List (List Char)} {p : Path} {n : Option ℕ} (h : p.Stands n)
    (habs : p.absolute = false) :
    (es.foldl unixElement p).device =
      ((standing n es).filter endsInColon).getLast?.elim p.device List.dropLast := by
  induction es generalizing p n with
  | nil => simp [standing]
  | cons e es ih =>
      have hstep := h.unixElement habs e
      rw [List.foldl_cons, ih hstep (by simpa using habs), standing, device_unixElement]
      by_cases hn : n = some 0
      · by_cases hcolon : endsInColon e = true
        · rw [if_pos ⟨h.eq_zero_iff.mp hn, hcolon⟩, if_pos hn, List.filter_cons_of_pos hcolon,
            List.getLast?_cons]
          rcases ((standing (deeper n e) es).filter endsInColon).getLast? <;> rfl
        · rw [if_neg (by simp [hcolon]), if_pos hn, List.filter_cons_of_neg hcolon]
      · rw [if_neg (by simp [mt h.eq_zero_iff.mpr hn]), if_neg hn]

/-! ## Texts that are printed back -/

/-- `home()` on Unix. -/
def unixHome (home : List Char) : Parsed := homePath ⟨false, some home, none⟩

/-- The text is parsed, and what `buildUnix` prints is parsed to the same path. -/
def PrintsBack (home s : List Char) : Prop :=
  ∃ p q, parseUnix (unixHome home) s = .returns p ∧
    parseUnix (unixHome home) p.buildUnix = .returns q ∧
    q.device = p.device ∧ q.dirs = p.dirs ∧ q.name = p.name ∧ q.absolute = p.absolute

/-- Of the elements that stand at the beginning, the last is not `~`, and the last before the name that
ends in a colon has nothing before the colon. -/
def Settled (s : List Char) : Prop :=
  (standing (some 0) (elements s)).getLast? ≠ some ['~'] ∧
    ∀ e, ((standing (some 0) (elements s).dropLast).filter endsInColon).getLast? = some e → e = [':']

/-- A home directory that is absolute is parsed, to directories in normal form. -/
lemma unixHome_eq {home : List Char} (h : home.head? = some '/') :
    ∃ cwd, unixHome home = .returns cwd ∧ Normal true cwd.dirs := by
  obtain ⟨rest, rfl⟩ := List.head?_eq_some_iff.mp h
  obtain ⟨hnormal, -, habs⟩ := (isNormal_cleared true).unixLoop rest
  refine ⟨_, parseUnix_slash .diverges rest, ?_⟩
  have hdirs := hnormal.dirs
  rwa [habs] at hdirs

/-- A text that gives an absolute path is printed back. -/
lemma printsBack_of_unixLoop {home s it : List Char} {p : Path} (h : p.IsNormal)
    (habs : p.absolute = true) (hparse : parseUnix (unixHome home) s = .returns (unixLoop p it)) :
    PrintsBack home s := by
  obtain ⟨hnormal, hname, hloop⟩ := h.unixLoop it
  exact ⟨_, _, hparse, parseUnix_buildUnix_absolute _ hnormal hname (hloop.trans habs), rfl, rfl, rfl,
    (hloop.trans habs).symm⟩

/-- What is printed from a relative path is parsed to an absolute one. -/
lemma not_printsBack_of_absolute {home s : List Char} {p q : Path}
    (hparse : parseUnix (unixHome home) s = .returns p) (habs : p.absolute = false)
    (hbuild : parseUnix (unixHome home) p.buildUnix = .returns q) (hq : q.absolute = true) :
    ¬ PrintsBack home s := by
  rintro ⟨p', q', hparse', hbuild', -, -, -, hflag⟩
  obtain rfl : p = p' := by simpa [hparse] using hparse'
  obtain rfl : q = q' := by simpa [hbuild] using hbuild'
  rw [hq, habs] at hflag
  exact Bool.noConfusion hflag

/-- A path with a device is printed with a slash before it. -/
lemma exists_buildUnix_eq {p : Path} (h : p.device ≠ []) : ∃ it, p.buildUnix = '/' :: it :=
  ⟨p.device ++ [':', '/'] ++ p.dirs.flatMap (· ++ ['/']) ++ p.name, by simp [buildUnix, h]⟩

/-- A relative text is printed back if it has no device, and `~` is not its first element. -/
lemma printsBack_relative_iff {home s : List Char} (hhome : home.head? = some '/')
    (hslash : s.head? ≠ some '/') (htilde : ¬ beginsAtHome s = true) :
    PrintsBack home s ↔ (unixLoop cleared s).device = [] ∧
      ((unixLoop cleared s).dirs ++ [(unixLoop cleared s).name]).head? ≠ some ['~'] := by
  obtain ⟨cwd, hcwd, -⟩ := unixHome_eq hhome
  obtain ⟨hnormal, hname, habs⟩ := (isNormal_cleared false).unixLoop s
  have hparse := parseUnix_relative (unixHome home) hslash htilde
  by_cases hdev : (unixLoop cleared s).device = []
  · obtain ⟨hnoslash, hiff, hback⟩ :=
      parseUnix_buildUnix_relative (unixHome home) hnormal hname habs hdev
    by_cases hfirst : ((unixLoop cleared s).dirs ++ [(unixLoop cleared s).name]).head? = some ['~']
    · refine iff_of_false ?_ (fun h => h.2 hfirst)
      have hbuild := parseUnix_home cwd hnoslash (hiff.mpr hfirst)
      rw [← hcwd] at hbuild
      exact not_printsBack_of_absolute hparse habs hbuild (absolute_unixLoop _ _)
    · refine iff_of_true ⟨_, _, hparse, hback hfirst, ?_, rfl, rfl, habs.symm⟩ ⟨hdev, hfirst⟩
      rw [hdev]
      rfl
  · refine iff_of_false ?_ (fun h => hdev h.1)
    obtain ⟨it, hit⟩ := exists_buildUnix_eq hdev
    have hagain := parseUnix_slash (unixHome home) it
    rw [← hit] at hagain
    exact not_printsBack_of_absolute hparse habs hagain (absolute_unixLoop _ _)

/-- Elements that end in a colon and have nothing before it. -/
lemma elim_dropLast_eq_nil_iff (es : List (List Char)) :
    (es.filter endsInColon).getLast?.elim [] List.dropLast = [] ↔
      ∀ e, (es.filter endsInColon).getLast? = some e → e = [':'] := by
  rcases hlast : (es.filter endsInColon).getLast? with - | e
  · simp
  · have hcolon : e.getLast? = some ':' := by
      have hmem := List.of_mem_filter (List.mem_of_getLast? hlast)
      simpa [endsInColon] using hmem
    have hne : e ≠ [] := fun hnil => by simp [hnil] at hcolon
    have heq : e = e.dropLast ++ [':'] := by
      rw [List.getLast?_eq_some_getLast hne, Option.some.injEq] at hcolon
      rw [← hcolon, List.dropLast_append_getLast hne]
    simp only [Option.elim_some, Option.some.injEq, forall_eq']
    constructor
    · intro hnil
      rw [heq, hnil]
      rfl
    · rintro rfl
      rfl

/-- **Exactness.** With an absolute home directory, a text is printed back if and only if it begins with a
slash or at home, or is settled. -/
theorem printsBack_iff (home s : List Char) (hhome : home.head? = some '/') :
    PrintsBack home s ↔ s.head? = some '/' ∨ beginsAtHome s = true ∨ Settled s := by
  by_cases hslash : s.head? = some '/'
  · obtain ⟨it, rfl⟩ := List.head?_eq_some_iff.mp hslash
    refine iff_of_true ?_ (.inl hslash)
    exact printsBack_of_unixLoop (isNormal_cleared true) rfl (parseUnix_slash _ it)
  by_cases htilde : beginsAtHome s = true
  · refine iff_of_true ?_ (.inr (.inl htilde))
    obtain ⟨cwd, hcwd, hnormal⟩ := unixHome_eq hhome
    have hparse := parseUnix_home cwd hslash htilde
    rw [← hcwd] at hparse
    exact printsBack_of_unixLoop ⟨hnormal, by simp [cleared]⟩ rfl hparse
  · have hstands : (cleared : Path).Stands (some 0) := ⟨rfl, by simp [cleared]⟩
    have hparts : elements s = (elements s).dropLast ++ [(elements s).getLast?.getD []] := by
      rw [List.getLast?_eq_some_getLast (elements_ne_nil s)]
      exact (List.dropLast_append_getLast (elements_ne_nil s)).symm
    rw [printsBack_relative_iff hhome hslash htilde, unixLoop_eq, device_foldl_unixElement hstands rfl,
      head?_foldl_unixElement hstands rfl, ← hparts]
    simp only [hslash, htilde, false_or, Settled]
    rw [and_comm, show (cleared : Path).device = [] from rfl, elim_dropLast_eq_nil_iff]
    simp [cleared]

/-- `./a/~/..` with the home directory `/h`: the `~` does not stand at the beginning. -/
theorem printsBack_iff_inner :
    (['/', 'h'] : List Char).head? = some '/' ∧
      PrintsBack ['/', 'h'] ['.', '/', 'a', '/', '~', '/', '.', '.'] := by
  refine ⟨by decide, (printsBack_iff _ _ (by decide)).mpr (.inr (.inr ⟨?_, ?_⟩))⟩
  · simp [standing, deeper, elements, dotdot, List.splitOnP_cons_eq_if_modifyHead]
  · simp [standing, deeper, elements, dotdot, List.splitOnP_cons_eq_if_modifyHead, endsInColon]

/-- `b:/c` is printed as `/b:/c`, which is absolute; `./~/x` is printed as `~/x`, which is in the home
directory. -/
theorem not_printsBack_device :
    (∀ p, parseUnix (unixHome ['/', 'h']) ['b', ':', '/', 'c'] = .returns p →
        p.absolute = false ∧ p.buildUnix = ['/', 'b', ':', '/', 'c']) ∧
      (∀ p, parseUnix (unixHome ['/', 'h']) ['.', '/', '~', '/', 'x'] = .returns p →
        p.dirs = [['~']] ∧ p.buildUnix = ['~', '/', 'x']) ∧
      ¬ ∀ home s : List Char, home.head? = some '/' → PrintsBack home s := by
  have hrun : parseUnix (unixHome ['/', 'h']) ['b', ':', '/', 'c'] =
      .returns { cleared with device := ['b'], name := ['c'] } := by decide
  have hrun' : parseUnix (unixHome ['/', 'h']) ['.', '/', '~', '/', 'x'] =
      .returns { cleared with dirs := [['~']], name := ['x'] } := by decide
  refine ⟨?_, ?_, fun h => ?_⟩
  · intro p hp
    obtain rfl := Parsed.returns.inj (hrun.symm.trans hp)
    decide
  · intro p hp
    obtain rfl := Parsed.returns.inj (hrun'.symm.trans hp)
    decide
  · have hagain : parseUnix (unixHome ['/', 'h']) ['/', 'b', ':', '/', 'c'] =
        .returns { cleared true with device := ['b'], name := ['c'] } := by decide
    exact not_printsBack_of_absolute hrun rfl hagain rfl (h ['/', 'h'] _ (by decide))

end Path

end CocInside.System
