import CocInside.System.PathNormal
import Mathlib.Data.List.Chain

/-!
# Windows paths, printed and parsed again

`buildWindows` prints a path, and `parseWindows` reads it. Which paths come back as they were is said
exactly, for all paths, so also for those that were edited or come from another style.

* `Path.buildWindows`: the code.
* `Path.Folded`: directories as `pushDirectory` leaves them; `Folded.pushDirectory`, `Folded.foldl_eq`.
* `Path.WindowsForm`: the paths that `parseWindows` returns; `windowsForm_of_parseWindows`.
* `Path.LooksLikeDrive`: what is printed would be read as a drive.
* `parseWindows_buildWindows_iff`: a path comes back if and only if it has that form and does not look
  like a drive.

Source: `System/Path.cpp`.
-/

namespace CocInside.System

open CocInside.Lib

namespace Path

/-- Source: `Path.cpp`, `Path::buildWindows`. -/
def buildWindows (p : Path) : List Char :=
  (if p.node ≠ [] then '\\' :: '\\' :: p.node ++ ['\\']
    else if p.device ≠ [] then p.device ++ [':', '\\']
    else if p.absolute then ['\\'] else []) ++
    p.dirs.flatMap (· ++ ['\\']) ++ p.name

/-! ## Directories that are folded -/

/-- Directories as `pushDirectory` leaves them: `.` and empty names are dropped, and `..` stands at the
beginning only, in an absolute path nowhere. -/
structure Folded (absolute : Bool) (dirs : List (List Char)) : Prop where
  ne_nil : [] ∉ dirs
  ne_dot : ['.'] ∉ dirs
  chain : dirs.IsChain fun d e => e = dotdot → d = dotdot
  rooted : absolute = true → dotdot ∉ dirs

/-- No directories. -/
lemma folded_nil (absolute : Bool) : Folded absolute [] :=
  ⟨List.not_mem_nil, List.not_mem_nil, .nil, fun _ => List.not_mem_nil⟩

namespace Folded

variable {absolute : Bool} {dirs more : List (List Char)} {d : List Char}

/-- The directories at the beginning of folded ones. -/
lemma of_append (h : Folded absolute (dirs ++ more)) : Folded absolute dirs where
  ne_nil hmem := h.ne_nil (List.mem_append_left _ hmem)
  ne_dot hmem := h.ne_dot (List.mem_append_left _ hmem)
  chain := h.chain.left_of_append
  rooted habs hmem := h.rooted habs (List.mem_append_left _ hmem)

/-- One more directory behind folded ones. -/
lemma concat_iff : Folded absolute (dirs ++ [d]) ↔
    Folded absolute dirs ∧ d ≠ [] ∧ d ≠ ['.'] ∧
      (d = dotdot → absolute = false ∧ (dirs = [] ∨ dirs.getLast? = some dotdot)) := by
  have hchain : (dirs ++ [d]).IsChain (fun d e => e = dotdot → d = dotdot) ↔
      dirs.IsChain (fun d e => e = dotdot → d = dotdot) ∧
        (d = dotdot → dirs = [] ∨ dirs.getLast? = some dotdot) := by
    rw [List.isChain_append]
    rcases List.eq_nil_or_concat dirs with rfl | ⟨init, last, rfl⟩
    · simp
    · simp
  constructor
  · intro h
    have hnil := h.ne_nil
    have hdot := h.ne_dot
    have hroot := h.rooted
    simp only [List.mem_append, List.mem_singleton, not_or] at hnil hdot hroot
    refine ⟨h.of_append, hnil.2 ∘ Eq.symm, hdot.2 ∘ Eq.symm, ?_⟩
    intro hup
    refine ⟨?_, (hchain.mp h.chain).2 hup⟩
    by_contra habs
    exact (hroot (by simpa using habs)).2 hup.symm
  · rintro ⟨h, hnil, hdot, hup⟩
    refine ⟨?_, ?_, hchain.mpr ⟨h.chain, fun hd => (hup hd).2⟩, ?_⟩
    · simpa using ⟨h.ne_nil, hnil⟩
    · simpa using ⟨h.ne_dot, hdot ∘ Eq.symm⟩
    · intro habs
      have hd : d ≠ dotdot := by
        intro hd
        rw [(hup hd).1] at habs
        cases habs
      simpa using ⟨h.rooted habs, Ne.symm hd⟩

end Folded

/-- The flag is not touched. -/
@[simp]
lemma absolute_pushDirectory (p : Path) (d : List Char) :
    (p.pushDirectory d).absolute = p.absolute := by
  rw [pushDirectory_eq]

/-- `pushDirectory` leaves folded directories. -/
lemma Folded.pushDirectory {p : Path} (h : Folded p.absolute p.dirs) (d : List Char) :
    Folded p.absolute (p.pushDirectory d).dirs := by
  unfold Path.pushDirectory
  split_ifs with hname hup hpop hrel
  · have hlast := List.dropLast_append_getLast hpop.1
    rw [← hlast] at h
    exact h.of_append
  · refine concat_iff.mpr ⟨h, hname.1, hname.2, fun _ => ⟨by simpa using hrel, ?_⟩⟩
    by_cases hnil : p.dirs = []
    · exact .inl hnil
    · exact .inr (not_not.mp fun hlast => hpop ⟨hnil, hlast⟩)
  · exact h
  · exact concat_iff.mpr ⟨h, hname.1, hname.2, fun hd => absurd hd hup⟩
  · exact h

/-- A folded list is built up by `pushDirectory`. -/
lemma Folded.foldl_eq {p : Path} {dirs : List (List Char)} (h : Folded p.absolute (p.dirs ++ dirs)) :
    dirs.foldl Path.pushDirectory p = { p with dirs := p.dirs ++ dirs } := by
  induction dirs generalizing p with
  | nil => simp
  | cons d dirs ih =>
      rw [← List.singleton_append, ← List.append_assoc] at h
      obtain ⟨-, hnil, hdot, hup⟩ := concat_iff.mp h.of_append
      have hpush : p.pushDirectory d = { p with dirs := p.dirs ++ [d] } := by
        rw [Path.pushDirectory, if_pos ⟨hnil, hdot⟩]
        by_cases hd : d = dotdot
        · obtain ⟨habs, hlast⟩ := hup hd
          have hkeep : ¬ (p.dirs ≠ [] ∧ p.dirs.getLast? ≠ some dotdot) := by
            rintro ⟨hne, hne'⟩
            exact hlast.elim hne hne'
          rw [if_pos hd, if_neg hkeep, if_pos (by simp [habs])]
        · rw [if_neg hd]
      rw [List.foldl_cons, hpush, ih h]
      simp

/-- Any directories that are pushed one by one. -/
lemma Folded.foldl {p : Path} (h : Folded p.absolute p.dirs) (es : List (List Char)) :
    Folded p.absolute (es.foldl Path.pushDirectory p).dirs := by
  induction es generalizing p with
  | nil => exact h
  | cons e es ih =>
      have hflag := absolute_pushDirectory p e
      have hrest := ih (hflag ▸ h.pushDirectory e)
      rwa [hflag] at hrest

/-- Only directories are pushed. -/
lemma foldl_pushDirectory_eq (p : Path) (es : List (List Char)) :
    es.foldl Path.pushDirectory p = { p with dirs := (es.foldl Path.pushDirectory p).dirs } := by
  induction es generalizing p with
  | nil => rfl
  | cons e es ih =>
      rw [List.foldl_cons, pushDirectory_eq p e]
      exact ih _

/-- No directory comes from elsewhere. -/
lemma mem_foldl_pushDirectory {p : Path} {es : List (List Char)} {d : List Char}
    (h : d ∈ (es.foldl Path.pushDirectory p).dirs) : d ∈ p.dirs ∨ d ∈ es := by
  induction es generalizing p with
  | nil => exact .inl h
  | cons e es ih =>
      have hpush : ∀ d ∈ (p.pushDirectory e).dirs, d ∈ p.dirs ∨ d = e := by
        intro d hd
        unfold Path.pushDirectory at hd
        split_ifs at hd
        · exact .inl (List.dropLast_subset _ hd)
        · simpa using hd
        · exact .inl hd
        · simpa using hd
        · exact .inl hd
      rcases ih h with hd | hd
      · rcases hpush d hd with hd | rfl
        · exact .inl hd
        · exact .inr List.mem_cons_self
      · exact .inr (List.mem_cons_of_mem e hd)

/-! ## What `parseWindows` returns -/

/-- No character is a separator. -/
def IsElement (e : List Char) : Prop := ∀ c ∈ e, isWindowsSeparator c = false

/-- How a Windows path begins: at a root or nowhere, at a drive, or at a share, of which nothing but the
node may be given. -/
inductive WindowsRoot (p : Path) : Prop where
  | plain (node : p.node = []) (device : p.device = [])
  | drive (node : p.node = []) (d : Char) (letter : d.isAlpha = true) (device : p.device = [d])
      (absolute : p.absolute = true)
  | share (node : p.node ≠ []) (element : IsElement p.node) (device : p.device = [])
      (absolute : p.absolute = true) (name : p.dirs = [] → p.name = [])

/-- The paths that `parseWindows` returns. -/
structure WindowsForm (p : Path) : Prop where
  root : p.WindowsRoot
  folded : Folded p.absolute p.dirs
  dirs : ∀ d ∈ p.dirs, IsElement d
  name : IsElement p.name
  version : p.version = []

/-- Where the loop of `parseWindows` begins. -/
lemma windowsRoot_cases {s it : List Char} {q : Path} (h : windowsRoot s = .ok (q, it)) :
    (∃ absolute, q = cleared absolute) ∨
      (∃ d : Char, d.isAlpha = true ∧ q = { cleared true with device := [d] }) ∨
      (∃ node, IsElement node ∧ q = { cleared true with node := node }) := by
  unfold windowsRoot at h
  dsimp only at h
  split at h
  · cases h
    exact .inl ⟨_, rfl⟩
  · next d it₁ hit =>
      split at h
      · next hshare =>
          cases h
          rw [Bool.and_eq_true] at hshare
          rw [hshare.1]
          exact .inr (.inr ⟨_, fun c hc => eq_false_of_mem_takeWhile hc, rfl⟩)
      · split at h
        · split at h
          · cases h
          · next hletter =>
              rw [Bool.or_eq_true, not_or] at hletter
              split at h
              · cases h
                exact .inr (.inl ⟨d, by simpa using hletter.2, rfl⟩)
              · cases h
        · cases h
          exact .inl ⟨_, rfl⟩

/-- The loop of `parseWindows`, and what comes behind it. -/
lemma parseWindows_eq {s it : List Char} {q : Path} (h : windowsRoot s = .ok (q, it)) :
    parseWindows s =
      let es := it.splitOnP isWindowsSeparator
      let p := { es.dropLast.foldl Path.pushDirectory q with name := es.getLast?.getD [] }
      .returns (if p.node ≠ [] ∧ p.dirs = [] ∧ p.name ≠ [] then p.makeDirectory else p) := by
  rw [parseWindows, h]
  dsimp only
  rw [parseLoop_eq]

/-- A share: its name is a directory, if there is no other. -/
lemma windowsForm_share {p : Path} (hnode : p.node ≠ []) (helem : IsElement p.node)
    (hdev : p.device = []) (habs : p.absolute = true) (hfolded : Folded p.absolute p.dirs)
    (hdirs : ∀ d ∈ p.dirs, IsElement d) (hname : IsElement p.name) (hversion : p.version = []) :
    (if p.node ≠ [] ∧ p.dirs = [] ∧ p.name ≠ [] then p.makeDirectory else p).WindowsForm := by
  split
  · rw [makeDirectory, pushDirectory_eq]
    refine ⟨.share hnode helem hdev habs fun _ => rfl, hfolded.pushDirectory p.name, ?_,
      by simp [IsElement], rfl⟩
    intro d hd
    rcases @mem_foldl_pushDirectory p [p.name] _ hd with hd | hd
    · exact hdirs d hd
    · rw [List.mem_singleton.mp hd]
      exact hname
  · next hshare =>
      refine ⟨.share hnode helem hdev habs ?_, hfolded, hdirs, hname, hversion⟩
      intro hnil
      by_contra hne
      exact hshare ⟨hnode, hnil, hne⟩

/-- **The form.** What `parseWindows` returns. -/
theorem windowsForm_of_parseWindows {s : List Char} {p : Path} (h : parseWindows s = .returns p) :
    p.WindowsForm := by
  cases hroot : windowsRoot s with
  | error q =>
      rw [parseWindows, hroot] at h
      cases h
  | ok r =>
      obtain ⟨q, it⟩ := r
      rw [parseWindows_eq hroot, Parsed.returns.injEq, foldl_pushDirectory_eq] at h
      dsimp only at h
      have hes : ∀ e ∈ it.splitOnP isWindowsSeparator, IsElement e := fun e he =>
        eq_false_of_mem_splitOnP he
      have hname : IsElement ((it.splitOnP isWindowsSeparator).getLast?.getD []) := by
        rw [List.getLast?_eq_some_getLast (List.splitOnP_ne_nil _ it)]
        exact hes _ (List.getLast_mem _)
      generalize (it.splitOnP isWindowsSeparator).getLast?.getD [] = name at h hname
      have hq : q.dirs = [] ∧ q.version = [] := by
        rcases windowsRoot_cases hroot with ⟨_, rfl⟩ | ⟨_, _, rfl⟩ | ⟨_, _, rfl⟩ <;> exact ⟨rfl, rfl⟩
      have hfolded := (hq.1 ▸ folded_nil q.absolute : Folded q.absolute q.dirs).foldl
        (it.splitOnP isWindowsSeparator).dropLast
      have hdirs : ∀ d ∈ ((it.splitOnP isWindowsSeparator).dropLast.foldl Path.pushDirectory q).dirs,
          IsElement d := by
        intro d hd
        rcases mem_foldl_pushDirectory hd with hd | hd
        · rw [hq.1] at hd
          cases hd
        · exact hes d (List.dropLast_subset _ hd)
      generalize ((it.splitOnP isWindowsSeparator).dropLast.foldl Path.pushDirectory q).dirs = dirs
        at h hfolded hdirs
      -- without a node, nothing comes behind the loop
      have hplain : q.node = [] → p = { q with dirs := dirs, name := name } := by
        intro hnode
        rw [← h, if_neg fun hc => hc.1 hnode]
      rcases windowsRoot_cases hroot with ⟨absolute, rfl⟩ | ⟨d, hd, rfl⟩ | ⟨node, hnode, rfl⟩
      · rw [hplain rfl]
        exact ⟨.plain rfl rfl, hfolded, hdirs, hname, rfl⟩
      · rw [hplain rfl]
        exact ⟨.drive rfl d hd rfl rfl, hfolded, hdirs, hname, rfl⟩
      · by_cases hnil : node = []
        · rw [hplain hnil]
          exact ⟨.plain hnil rfl, hfolded, hdirs, hname, rfl⟩
        · rw [← h]
          exact windowsForm_share (p := { cleared true with node := node, dirs := dirs, name := name })
            hnil hnode rfl rfl hfolded hdirs hname rfl

/-! ## What is printed -/

/-- Directories with a separator behind each, and the name. -/
def body (p : Path) : List Char := p.dirs.flatMap (· ++ ['\\']) ++ p.name

/-- What is printed without a node or a device would be read as a drive: its first element has a colon as
its second character. -/
def LooksLikeDrive (p : Path) : Prop :=
  p.node = [] ∧ p.device = [] ∧ ∃ e, (p.dirs ++ [p.name]).head? = some e ∧ e[1]? = some ':'

/-- The first element of the body. -/
lemma exists_body_eq {p : Path} (h : p.WindowsForm) :
    ∃ e rest, (p.dirs ++ [p.name]).head? = some e ∧ p.body = e ++ rest ∧ IsElement e ∧
      (rest = [] ∨ rest.head? = some '\\' ∧ e ≠ []) := by
  rcases hdirs : p.dirs with - | ⟨d, dirs⟩
  · exact ⟨p.name, [], rfl, by simp [body, hdirs], h.name, .inl rfl⟩
  · have hd : d ∈ p.dirs := by simp [hdirs]
    refine ⟨d, '\\' :: (dirs.flatMap (· ++ ['\\']) ++ p.name), rfl, by simp [body, hdirs],
      h.dirs d hd, .inr ⟨rfl, ?_⟩⟩
    rintro rfl
    exact h.folded.ne_nil hd

/-- The body does not begin with a separator, and it looks like a drive if its second character is a colon. -/
lemma body_cases {p : Path} (h : p.WindowsForm) (hnode : p.node = []) (hdev : p.device = []) :
    p.body = [] ∧ ¬ p.LooksLikeDrive ∨ ∃ c rest, p.body = c :: rest ∧ isWindowsSeparator c = false ∧
      (p.LooksLikeDrive ↔ rest.head? = some ':') := by
  obtain ⟨e, rest, hhead, heq, helem, hrest⟩ := exists_body_eq h
  have hdrive : p.LooksLikeDrive ↔ e[1]? = some ':' := by
    simp [LooksLikeDrive, hnode, hdev, hhead]
  rcases e with - | ⟨c, e⟩
  · obtain rfl : rest = [] := hrest.elim id fun hne => absurd rfl hne.2
    exact .inl ⟨heq, by simp [hdrive]⟩
  · refine .inr ⟨c, e ++ rest, heq, helem c List.mem_cons_self, ?_⟩
    rw [hdrive]
    rcases e with - | ⟨c', e⟩
    · rcases hrest with rfl | ⟨hrest, -⟩
      · simp
      · simp [hrest]
    · simp

/-- The elements of the body. -/
lemma splitOnP_body {p : Path} (h : p.WindowsForm) :
    p.body.splitOnP isWindowsSeparator = p.dirs ++ [p.name] :=
  splitOnP_flatMap (by decide) h.dirs h.name

/-- What is read of the body, behind the root. -/
lemma parseWindows_body {p q : Path} (h : p.WindowsForm) {s : List Char}
    (hs : windowsRoot s = .ok (q, p.body)) (hq : q = { p with dirs := [], name := [] }) :
    parseWindows s = .returns p := by
  have hfold : p.dirs.foldl Path.pushDirectory q = { p with name := [] } := by
    have hfolded : Folded q.absolute (q.dirs ++ p.dirs) := by
      rw [hq]
      exact h.folded
    rw [hfolded.foldl_eq, hq]
    rfl
  have hshare : ¬ (p.node ≠ [] ∧ p.dirs = [] ∧ p.name ≠ []) := by
    rintro ⟨hnode, hdirs, hname⟩
    obtain ⟨hnode', -⟩ | ⟨hnode', -⟩ | ⟨-, -, -, -, hnil⟩ := h.root
    · exact hnode hnode'
    · exact hnode hnode'
    · exact hname (hnil hdirs)
  rw [parseWindows_eq hs, splitOnP_body h]
  dsimp only
  rw [List.dropLast_concat, List.getLast?_concat, hfold]
  exact congrArg Parsed.returns (if_neg hshare)

/-! ## The roots, read again -/

/-- The separator that is printed. -/
lemma isWindowsSeparator_backslash : isWindowsSeparator '\\' = true := by decide

/-- A share. -/
lemma windowsRoot_share {node : List Char} (h : IsElement node) (it : List Char) :
    windowsRoot ('\\' :: '\\' :: (node ++ '\\' :: it)) = .ok ({ cleared true with node := node }, it) := by
  have hall : ∀ c ∈ node, (!isWindowsSeparator c) = true := fun c hc => by rw [h c hc, Bool.not_false]
  have htake : (node ++ '\\' :: it).takeWhile (!isWindowsSeparator ·) = node := by
    rw [takeWhile_append_of_stop (by simp [isWindowsSeparator_backslash]),
      List.takeWhile_eq_self_iff.mpr hall]
  have hdrop : (node ++ '\\' :: it).dropWhile (!isWindowsSeparator ·) = '\\' :: it := by
    rw [dropWhile_append_of_stop (by simp [isWindowsSeparator_backslash]),
      List.dropWhile_eq_nil_iff.mpr hall, List.nil_append]
  unfold windowsRoot
  simp [isWindowsSeparator_backslash, htake, hdrop]

/-- A letter is not a separator. -/
lemma isWindowsSeparator_of_isAlpha {d : Char} (h : d.isAlpha = true) :
    isWindowsSeparator d = false := by
  rw [isWindowsSeparator, decide_eq_false_iff_not, not_or]
  refine ⟨?_, ?_⟩ <;> rintro rfl <;> simp at h

/-- A drive. -/
lemma windowsRoot_drive {d : Char} (h : d.isAlpha = true) (it : List Char) :
    windowsRoot (d :: ':' :: '\\' :: it) = .ok ({ cleared true with device := [d] }, it) := by
  unfold windowsRoot
  simp [isWindowsSeparator_of_isAlpha h, isWindowsSeparator_backslash, h, cleared]

/-- What begins a path without a node or a device. -/
def plainRoot (absolute : Bool) : List Char := if absolute then ['\\'] else []

/-- Nothing behind it. -/
lemma windowsRoot_nil (absolute : Bool) : windowsRoot (plainRoot absolute) = .ok (cleared absolute, []) := by
  cases absolute <;> rfl

/-- No colon behind the first character. -/
lemma windowsRoot_plain {c : Char} {rest : List Char} (absolute : Bool)
    (hc : isWindowsSeparator c = false) (hrest : rest.head? ≠ some ':') :
    windowsRoot (plainRoot absolute ++ c :: rest) = .ok (cleared absolute, c :: rest) := by
  cases absolute <;>
    simp [plainRoot, windowsRoot, hc, hrest, isWindowsSeparator_backslash]

/-- With a colon there, it is a drive if it is anything. -/
lemma device_of_windowsRoot {c : Char} {rest it : List Char} {absolute : Bool} {q : Path}
    (hc : isWindowsSeparator c = false) (hrest : rest.head? = some ':')
    (h : windowsRoot (plainRoot absolute ++ c :: rest) = .ok (q, it)) : q.device = [c] := by
  obtain ⟨rest, rfl⟩ := List.head?_eq_some_iff.mp hrest
  cases absolute with
  | false =>
      have hparse : windowsRoot (c :: ':' :: rest) = .ok (q, it) := h
      unfold windowsRoot at hparse
      simp only [List.head?_cons, Option.any_some, hc, Bool.false_and, Bool.false_eq_true, if_false,
        if_true, List.tail_cons, Bool.false_or] at hparse
      split_ifs at hparse
      cases hparse
      rfl
  | true => simp [plainRoot, windowsRoot, hc, isWindowsSeparator_backslash] at h

/-- The device is that of the root. -/
lemma device_of_parseWindows {s it : List Char} {p q : Path} (hroot : windowsRoot s = .ok (q, it))
    (h : parseWindows s = .returns p) : p.device = q.device := by
  rw [parseWindows_eq hroot, Parsed.returns.injEq, foldl_pushDirectory_eq] at h
  dsimp only at h
  rw [← h]
  split
  · rw [makeDirectory, pushDirectory_eq]
  · rfl

/-- **Exactness.** A path that is printed in Windows style and read again comes back as it was if and only
if it is one that the parser returns and what is printed does not look like a drive. -/
theorem parseWindows_buildWindows_iff (p : Path) :
    parseWindows p.buildWindows = .returns p ↔ p.WindowsForm ∧ ¬ p.LooksLikeDrive := by
  constructor
  · intro h
    refine ⟨windowsForm_of_parseWindows h, ?_⟩
    intro hdrive
    have hform := windowsForm_of_parseWindows h
    have hbuild : p.buildWindows = plainRoot p.absolute ++ p.body := by
      simp [buildWindows, plainRoot, body, hdrive.1, hdrive.2.1]
    rcases body_cases hform hdrive.1 hdrive.2.1 with ⟨-, hnot⟩ | ⟨c, rest, hbody, hc, hiff⟩
    · exact hnot hdrive
    · rw [hbuild, hbody] at h
      cases hroot : windowsRoot (plainRoot p.absolute ++ c :: rest) with
      | error q =>
          rw [parseWindows, hroot] at h
          cases h
      | ok r =>
          have hdev := device_of_parseWindows hroot h
          rw [device_of_windowsRoot hc (hiff.mp hdrive) hroot, hdrive.2.1] at hdev
          cases hdev
  · rintro ⟨hform, hdrive⟩
    rcases hform.root with ⟨hnode, hdev⟩ | ⟨hnode, d, hd, hdev, habs⟩ | ⟨hnode, helem, hdev, habs, -⟩
    · have hbuild : p.buildWindows = plainRoot p.absolute ++ p.body := by
        simp [buildWindows, plainRoot, body, hnode, hdev]
      have hq : cleared p.absolute = { p with dirs := [], name := [] } := by
        simp [cleared, hnode, hdev, hform.version]
      rw [hbuild]
      refine parseWindows_body hform ?_ hq
      rcases body_cases hform hnode hdev with ⟨hbody, -⟩ | ⟨c, rest, hbody, hc, hiff⟩
      · rw [hbody, List.append_nil]
        exact windowsRoot_nil p.absolute
      · rw [hbody]
        exact windowsRoot_plain p.absolute hc (mt hiff.mpr hdrive)
    · have hbuild : p.buildWindows = d :: ':' :: '\\' :: p.body := by
        simp [buildWindows, body, hnode, hdev]
      rw [hbuild]
      refine parseWindows_body hform (windowsRoot_drive hd p.body) ?_
      simp [cleared, hnode, hdev, habs, hform.version]
    · have hbuild : p.buildWindows = '\\' :: '\\' :: (p.node ++ '\\' :: p.body) := by
        simp [buildWindows, body, hnode]
      rw [hbuild]
      refine parseWindows_body hform (windowsRoot_share helem p.body) ?_
      simp [cleared, hdev, habs, hform.version]

end Path

end CocInside.System
