import CocInside.System.IniText

/-!
# Lines that should not count

A comment, a line without `=`, and blanks behind the bracket of a section are not meant to change what
`Load` makes of a text. They do: `find_first_of("=") > 0` holds of `npos`, so such a line is taken for a
key; and the name of a section is cut off by the length of the line, so that with blanks behind it the
bracket becomes part of the name.

* `Noise`, `Noise.IsNoise`, `Ignored`: the changes of a text, and that they change nothing, whatever follows.
* `lineType_noise`, `loadLine_header`: how such lines are read.
* `Noise.Harmless`: what was read before decides whether a change is one.
* `ignored_iff`: the changes that are ignored are the harmless ones.

Source: `System/IniFile.cpp`.
-/

namespace CocInside.System

open CocInside.Lib

/-! ## Statements -/

/-- A line as the loop looks at it. -/
abbrev lineRead (l : Str) : Str := rTrim (lTrim l) ['\n', '\r']

/-- Trimmed on both sides, the line begins with `[` and ends with `]`. -/
def IsHeader (l : Str) : Prop :=
  (rTrim (lTrim l) [' ', '\t', '\r', '\n']).head? = some '[' ∧
    (rTrim (lTrim l) [' ', '\t', '\r', '\n']).getLast? = some ']'

/-- A line put in, or blanks `w` put in behind the bracket of the line of a section, where `t₁` and `t₂` stand
already. -/
inductive Noise where
  | line (l : Str)
  | trailing (lead body t₁ w t₂ : Str)

namespace Noise

/-- The lines that are meant: comments and lines without `=` that are no sections; and lines of
sections, with nothing but blanks before the first bracket and behind the last. -/
def IsNoise : Noise → Prop
  | line l => '\n' ∉ l ∧ ((lTrim l).head? = some '#' ∨ '=' ∉ l ∧ ¬ IsHeader l)
  | trailing lead body t₁ w t₂ => '\n' ∉ body ∧ (∀ c ∈ lead, c ∈ blanks) ∧ (∀ c ∈ w, c ∈ blanks) ∧
      ∀ c ∈ t₁ ++ t₂, c ∈ blanks ∨ c = '\r'

/-- The line of a section. -/
def header (lead body t : Str) : Str := lead ++ '[' :: (body ++ ']' :: t)

/-- The lines that are there without the change. -/
def old : Noise → List Str
  | line _ => []
  | trailing lead body t₁ _ t₂ => [header lead body (t₁ ++ t₂)]

/-- The lines that are there with it. -/
def new : Noise → List Str
  | line l => [l]
  | trailing lead body t₁ w t₂ => [header lead body (t₁ ++ w ++ t₂)]

end Noise

/-- Behind the lines `before`, the change is ignored, whatever stands behind it. -/
def Ignored (f : IniFile) (bMerge : Bool) (before : List Str) (n : Noise) : Prop :=
  ∀ old new after, getlines [] old = before ++ n.old ++ after →
    getlines [] new = before ++ n.new ++ after → f.load new bMerge = f.load old bMerge

/-- The file and the section that is read, behind the lines `before`. -/
def loadedLines (f : IniFile) (bMerge : Bool) (before : List Str) : IniFile × Option Str :=
  before.foldl loadLine (if bMerge then f else f.removeAllSections, none)

/-- What is read of the blanks behind the bracket: nothing if they are carriage returns, else all up to
the last carriage return that is not at their end. -/
def tailRead (t : Str) : Option Str :=
  if rTrim t ['\n', '\r'] = [] then none else some (rTrim (rTrim t ['\n', '\r']))

/-- A line is harmless if it is blank, or no section is read yet, or its key is there with its value;
blanks behind a bracket are if as much is read of them as before, or if the name has a NUL and the
section is there already. -/
def Noise.Harmless (st : IniFile × Option Str) : Noise → Prop
  | .line l => lineRead l = [] ∨ st.2 = none ∨
      ∃ p sec key, st.2 = some p ∧ st.1.sections.find? p = some sec ∧
        sec.getKey (splitKey (lineRead l)).1 = some key ∧
        key.value = (splitKey (lineRead l)).2
  | .trailing _ body t₁ w t₂ => tailRead (t₁ ++ w ++ t₂) = tailRead (t₁ ++ t₂) ∨
      '\x00' ∈ body ∧ (st.1.getSection body).isSome = true

/-! ## Trims -/

/-- A trim at the last character. -/
lemma rTrim_concat (s : Str) (c : Char) (chars : Str) :
    rTrim (s ++ [c]) chars = if c ∈ chars then rTrim s chars else s ++ [c] := by
  simp only [rTrim, List.rdropWhile_concat, decide_eq_true_eq]

/-- A trim leaves a character at the end that it does not take off. -/
lemma notMem_of_rTrim_eq {s chars u : Str} {c : Char} (h : rTrim s chars = u ++ [c]) :
    c ∉ chars := by
  have hne : rTrim s chars ≠ [] := by simp [h]
  have hlast : ¬ decide ((rTrim s chars).getLast hne ∈ chars) = true :=
    List.rdropWhile_last_not _ _ hne
  simpa [h] using hlast

/-- A trim takes off what a smaller one leaves. -/
lemma rTrim_rTrim {small large : Str} (h : ∀ c ∈ small, c ∈ large) (s : Str) :
    rTrim (rTrim s small) large = rTrim s large := by
  induction s using List.reverseRecOn with
  | nil => rfl
  | append_singleton s c ih =>
      rw [rTrim_concat, rTrim_concat]
      by_cases hc : c ∈ small
      · rw [if_pos hc, if_pos (h c hc), ih]
      · rw [if_neg hc, rTrim_concat]

/-- A trim goes no further than a character that it does not take off. -/
lemma rTrim_append {chars : Str} {c : Char} (hc : c ∉ chars) (s t : Str) :
    rTrim (s ++ c :: t) chars = s ++ c :: rTrim t chars := by
  induction t using List.reverseRecOn with
  | nil =>
      rw [rTrim_concat, if_neg hc]
      rfl
  | append_singleton t d ih =>
      have hassoc : s ++ c :: (t ++ [d]) = (s ++ c :: t) ++ [d] := by simp
      rw [hassoc, rTrim_concat, rTrim_concat]
      by_cases hd : d ∈ chars
      · rw [if_pos hd, if_pos hd, ih]
      · rw [if_neg hd, if_neg hd, hassoc]

/-- A trim takes nothing off at the other end. -/
lemma head?_rTrim {s chars : Str} (h : rTrim s chars ≠ []) : (rTrim s chars).head? = s.head? := by
  obtain ⟨t, ht⟩ : rTrim s chars <+: s := List.rdropWhile_prefix _ _
  rw [← ht, List.head?_append_of_ne_nil _ h]
  rw [ht]

/-- Nor anything in the middle. -/
lemma lTrim_append {chars : Str} {c : Char} (hc : c ∉ chars) (s t : Str) :
    lTrim (s ++ c :: t) chars = lTrim s chars ++ c :: t := by
  induction s with
  | nil => simp [lTrim, hc]
  | cons d s ih =>
      by_cases hd : d ∈ chars
      · simpa [lTrim, hd] using ih
      · simp [lTrim, hd]

/-! ## Lines that are taken for keys -/

/-- Where a search for one character finds it first. -/
lemma findFirstOf_eq_zero_iff (s : Str) (c : Char) :
    findFirstOf s [c] = some 0 ↔ s.head? = some c := by
  rcases s with - | ⟨d, s⟩
  · simp [findFirstOf]
  · by_cases hd : d = c
    · simp [findFirstOf, List.findIdx?_cons, hd]
    · simp [findFirstOf, List.findIdx?_cons, hd]

/-- A line that begins with neither bracket nor `=` is a key, and so is one with a bracket that is not
closed. -/
lemma lineType_eq_key {s : Str} (hheader : ¬ (s.head? = some '[' ∧
      (rTrim s [' ', '\t', '\r', '\n']).getLast? = some ']')) (heq : s.head? ≠ some '=') :
    lineType s = .key := by
  have hno : ¬ (findFirstOf s ['['] = some 0 ∧
      (rTrim s [' ', '\t', '\r', '\n']).getLast? = some ']') := by
    rwa [findFirstOf_eq_zero_iff]
  have hkey : findFirstOf s ['='] ≠ some 0 := mt (findFirstOf_eq_zero_iff s '=').mp heq
  rw [lineType, if_neg hno]
  simp [hkey]

/-- The characters of a trimmed line. -/
lemma mem_of_mem_trims {c : Char} {l chars : Str} (h : c ∈ rTrim (lTrim l) chars) : c ∈ l :=
  (List.dropWhile_suffix _).subset ((List.rdropWhile_prefix _ _).subset h)

/-- **Noise is a key.** Comments, and lines without `=` that are no sections, are taken for keys. -/
lemma lineType_noise {l : Str} (h : (Noise.line l).IsNoise)
    (hne : lineRead l ≠ []) :
    lineType (lineRead l) = .key := by
  have hhead := head?_rTrim hne
  rcases h.2 with hcomment | ⟨heq, hheader⟩
  · rw [hcomment] at hhead
    exact lineType_eq_key (by simp [hhead]) (by simp [hhead])
  · have htrim : rTrim (lineRead l) [' ', '\t', '\r', '\n'] =
        rTrim (lTrim l) [' ', '\t', '\r', '\n'] := rTrim_rTrim (by simp) _
    apply lineType_eq_key
    · rintro ⟨hopen, hclose⟩
      rw [htrim] at hclose
      have hsome : rTrim (lTrim l) [' ', '\t', '\r', '\n'] ≠ [] := by
        intro hnil
        simp [hnil] at hclose
      refine hheader ⟨?_, hclose⟩
      rw [head?_rTrim hsome, ← hhead, hopen]
    · intro hc
      exact heq (mem_of_mem_trims (List.mem_of_head? hc))

/-- A blank line. -/
lemma loadLine_blank {l : Str} (h : lineRead l = []) (st : IniFile × Option Str) :
    loadLine st l = st := by
  rw [loadLine, if_pos h]

/-- A line that is taken for a key, before the first section. -/
lemma loadLine_noise_none {l : Str} (h : (Noise.line l).IsNoise) (f : IniFile) :
    loadLine (f, none) l = (f, none) := by
  by_cases hne : lineRead l = []
  · exact loadLine_blank hne _
  · rw [loadLine, if_neg hne, lineType_noise h hne]

/-- A line that is taken for a key, in a section. -/
lemma loadLine_noise_some {l : Str} (h : (Noise.line l).IsNoise)
    (hne : lineRead l ≠ []) (f : IniFile) (p : Str) :
    loadLine (f, some p) l =
      (f.modifySection p (·.setKeyValue (splitKey (lineRead l)).1
        (splitKey (lineRead l)).2), some p) := by
  rw [loadLine, if_neg hne, lineType_noise h hne]

/-! ## Lines of sections -/

/-- The name that is read, trimmed: with blanks behind the bracket, the bracket is part of it. -/
def nameRead (body t : Str) : Str :=
  match tailRead t with
  | none => trim body
  | some c => lTrim body ++ ']' :: c

/-- The line, trimmed. -/
lemma trims_header {lead : Str} (hlead : ∀ c ∈ lead, c ∈ blanks) (body t : Str) :
    rTrim (lTrim (Noise.header lead body t)) ['\n', '\r'] =
      '[' :: (body ++ ']' :: rTrim t ['\n', '\r']) := by
  have hleft : lTrim (Noise.header lead body t) = '[' :: (body ++ ']' :: t) := by
    have hnil : lTrim lead = [] := List.dropWhile_eq_nil_iff.mpr (by simpa using hlead)
    rw [Noise.header, lTrim_append (by decide), hnil, List.nil_append]
  rw [hleft, ← List.cons_append, rTrim_append (by decide)]
  rfl

/-- What ends the blanks behind the bracket, without carriage returns, is a blank. -/
lemma mem_blanks_of_rTrim {t u : Str} {b : Char} (ht : ∀ c ∈ t, c ∈ blanks ∨ c = '\r')
    (h : rTrim t ['\n', '\r'] = u ++ [b]) : b ∈ blanks := by
  have hmem : b ∈ t := by
    apply (List.rdropWhile_prefix (fun c => decide (c ∈ ['\n', '\r'])) t).subset
    rw [← rTrim, h]
    simp
  rcases ht b hmem with hb | rfl
  · exact hb
  · exact absurd (notMem_of_rTrim_eq h) (by decide)

/-- The characters between the first and the last are a name; trimmed, they are what is read. -/
lemma trim_name {t : Str} (ht : ∀ c ∈ t, c ∈ blanks ∨ c = '\r') (body : Str) :
    trim ((('[' :: (body ++ ']' :: rTrim t ['\n', '\r'])).drop 1).take
        (('[' :: (body ++ ']' :: rTrim t ['\n', '\r'])).length - 2)) = nameRead body t := by
  have hdrop : (('[' :: (body ++ ']' :: rTrim t ['\n', '\r'])).drop 1).take
      (('[' :: (body ++ ']' :: rTrim t ['\n', '\r'])).length - 2) =
        (body ++ ']' :: rTrim t ['\n', '\r']).dropLast := by
    rw [List.dropLast_eq_take]
    rfl
  rw [hdrop]
  rcases List.eq_nil_or_concat' (rTrim t ['\n', '\r']) with hnil | ⟨u, b, hu⟩
  · rw [nameRead, tailRead, if_pos hnil, hnil, List.dropLast_concat]
  · have hne : rTrim t ['\n', '\r'] ≠ [] := by simp [hu]
    have hlast : body ++ ']' :: (u ++ [b]) = (body ++ ']' :: u) ++ [b] := by simp
    rw [nameRead, tailRead, if_neg hne, hu, hlast, List.dropLast_concat, trim,
      rTrim_append (by decide), lTrim_append (by decide), rTrim_concat,
      if_pos (mem_blanks_of_rTrim ht hu)]

/-- **Sections.** A turn of the loop at the line of a section. -/
lemma loadLine_header {lead t : Str} (hlead : ∀ c ∈ lead, c ∈ blanks)
    (ht : ∀ c ∈ t, c ∈ blanks ∨ c = '\r') (st : IniFile × Option Str) (body : Str) :
    loadLine st (Noise.header lead body t) =
      (⟨st.1.sections.ensure (nameRead body t) ⟨nameRead body t, .empty⟩⟩,
        some (nameRead body t)) := by
  have hblank : rTrim (rTrim t ['\n', '\r']) [' ', '\t', '\r', '\n'] = [] := by
    rw [rTrim_rTrim (by simp), rTrim, List.rdropWhile_eq_nil_iff]
    intro c hc
    rcases ht c hc with hc | rfl
    · have hsub : ∀ d ∈ blanks, d ∈ [' ', '\t', '\r', '\n'] := by simp [blanks]
      simpa using hsub c hc
    · decide
  have htype : lineType ('[' :: (body ++ ']' :: rTrim t ['\n', '\r'])) = .sect := by
    have hlast : (rTrim ('[' :: (body ++ ']' :: rTrim t ['\n', '\r'])) [' ', '\t', '\r', '\n']).getLast? =
        some ']' := by
      rw [← List.cons_append, rTrim_append (by decide), hblank, List.getLast?_concat]
    have hsect : findFirstOf ('[' :: (body ++ ']' :: rTrim t ['\n', '\r'])) ['['] = some 0 ∧
        (rTrim ('[' :: (body ++ ']' :: rTrim t ['\n', '\r'])) [' ', '\t', '\r', '\n']).getLast? =
          some ']' := ⟨(findFirstOf_eq_zero_iff _ _).mpr rfl, hlast⟩
    rw [lineType, if_pos hsect]
    rfl
  have hne : '[' :: (body ++ ']' :: rTrim t ['\n', '\r']) ≠ [] := List.cons_ne_nil _ _
  rw [loadLine, trims_header hlead, if_neg hne, htype]
  simp only [IniFile.addSection_eq, trim_name ht]

/-! ## Names that are told apart -/

/-- What is read of the blanks behind the bracket are blanks. -/
lemma mem_of_tailRead {t c : Str} (ht : ∀ d ∈ t, d ∈ blanks ∨ d = '\r') (h : tailRead t = some c) :
    ∀ d ∈ c, d ∈ blanks ∨ d = '\r' := by
  rw [tailRead] at h
  split at h
  · exact absurd h (by simp)
  · obtain rfl := Option.some.inj h
    intro d hd
    exact ht d ((List.rdropWhile_prefix _ _).subset ((List.rdropWhile_prefix _ _).subset hd))

/-- Trimmed on both sides, a text is not longer than trimmed on one. -/
lemma length_trim_le (s : Str) : (trim s).length ≤ (lTrim s).length := by
  obtain ⟨rest, hrest⟩ : rTrim s <+: s := List.rdropWhile_prefix _ _
  rcases List.eq_nil_or_concat' (rTrim s) with hnil | ⟨u, c, hu⟩
  · rw [trim, hnil]
    exact Nat.zero_le _
  · have hc : c ∉ blanks := notMem_of_rTrim_eq hu
    have hs : s = u ++ c :: rest := by
      rw [← hrest, hu]
      simp
    rw [trim, hu, lTrim_append hc, hs, lTrim_append hc]
    simp

/-- The names, compared by a length-preserving map that keeps blanks. -/
lemma nameRead_map_ne {φ : Char → Char} (hφ : ∀ d, d ∈ blanks ∨ d = '\r' → φ d = d) {body t t' : Str}
    (ht : ∀ d ∈ t, d ∈ blanks ∨ d = '\r') (ht' : ∀ d ∈ t', d ∈ blanks ∨ d = '\r')
    (h : tailRead t' ≠ tailRead t) :
    (nameRead body t').map φ ≠ (nameRead body t).map φ := by
  have hlt : ∀ c : Str, (trim body).length < (lTrim body ++ ']' :: c).length := by
    intro c
    have hle := length_trim_le body
    rw [List.length_append, List.length_cons]
    omega
  have hkeep : ∀ {t c : Str}, (∀ d ∈ t, d ∈ blanks ∨ d = '\r') → tailRead t = some c →
      c.map φ = c := by
    intro t c ht hc
    refine (List.map_congr_left fun d hd => ?_).trans (List.map_id c)
    exact hφ d (mem_of_tailRead ht hc d hd)
  intro heq
  rcases hc : tailRead t with - | c <;> rcases hc' : tailRead t' with - | c'
  · exact h (hc'.trans hc.symm)
  · have hlen := congrArg List.length heq
    rw [List.length_map, List.length_map, nameRead, nameRead, hc, hc'] at hlen
    exact absurd hlen (hlt c').ne'
  · have hlen := congrArg List.length heq
    rw [List.length_map, List.length_map, nameRead, nameRead, hc, hc'] at hlen
    exact absurd hlen (hlt c).ne
  · rw [nameRead, nameRead, hc, hc', List.map_append, List.map_append,
      List.append_cancel_left_eq, List.map_cons, List.map_cons, hkeep ht hc, hkeep ht' hc'] at heq
    exact h (by rw [hc, hc', (List.cons.inj heq).2])

/-- The maps compare names up to a NUL. -/
lemma foldCase_of_notMem {s : Str} (h : '\x00' ∉ s) : foldCase s = s.map Char.toLower := by
  have hall : s.takeWhile (· ≠ '\x00') = s := by
    rw [List.takeWhile_eq_self_iff]
    intro c hc
    simpa using ne_of_mem_of_not_mem hc h
  rw [foldCase, hall]

/-- And no further. -/
lemma foldCase_append_nul {s : Str} (h : '\x00' ∉ s) (t : Str) :
    foldCase (s ++ '\x00' :: t) = foldCase s := by
  have hall : ∀ c ∈ s, decide (c ≠ '\x00') = true := by
    intro c hc
    simpa using ne_of_mem_of_not_mem hc h
  rw [foldCase_of_notMem h, foldCase, List.takeWhile_append_of_pos hall]
  simp

/-- Names with a NUL in them are the same to the maps, whatever is behind the bracket. -/
lemma foldCase_nameRead_of_nul {body : Str} (h : '\x00' ∈ body) (t : Str) :
    foldCase (nameRead body t) = foldCase (trim body) := by
  obtain ⟨a, d, hbody, ha⟩ := List.eq_append_cons_of_mem h
  have hleft : '\x00' ∉ lTrim a := fun hmem => ha ((List.dropWhile_suffix _).subset hmem)
  have htrim : trim body = lTrim a ++ '\x00' :: rTrim d := by
    rw [hbody, trim, rTrim_append (by decide), lTrim_append (by decide)]
  rw [nameRead]
  split
  · rfl
  · next c _ =>
      rw [htrim, foldCase_append_nul hleft, hbody, lTrim_append (by decide), List.append_assoc,
        List.cons_append, foldCase_append_nul hleft]

/-- Other names are not. -/
lemma foldCase_nameRead_ne {body t t' : Str} (hnul : '\x00' ∉ body)
    (ht : ∀ d ∈ t, d ∈ blanks ∨ d = '\r') (ht' : ∀ d ∈ t', d ∈ blanks ∨ d = '\r')
    (h : tailRead t' ≠ tailRead t) :
    foldCase (nameRead body t') ≠ foldCase (nameRead body t) := by
  have hfree : ∀ {t : Str}, (∀ d ∈ t, d ∈ blanks ∨ d = '\r') → '\x00' ∉ nameRead body t := by
    intro t ht
    rw [nameRead]
    split
    · exact fun hmem => hnul ((List.rdropWhile_prefix _ _).subset
        ((List.dropWhile_suffix _).subset hmem))
    · next c hc =>
        have hbody : '\x00' ∉ lTrim body := fun hmem => hnul ((List.dropWhile_suffix _).subset hmem)
        have hread : '\x00' ∉ c := fun hmem => by
          have := mem_of_tailRead ht hc _ hmem
          simp [blanks] at this
        simpa using ⟨hbody, hread⟩
  rw [foldCase_of_notMem (hfree ht), foldCase_of_notMem (hfree ht')]
  refine nameRead_map_ne ?_ ht ht' h
  intro d hd
  simp only [blanks, List.mem_cons, List.not_mem_nil, or_false] at hd
  rcases hd with (rfl | rfl) | rfl <;> decide

/-! ## The loop -/

/-- The three things a line can do: begin a section, set a value, or nothing. -/
lemma loadLine_cases (l : Str) :
    (∃ n, ∀ st : IniFile × Option Str,
      loadLine st l = (⟨st.1.sections.ensure n ⟨n, .empty⟩⟩, some n)) ∨
    (∃ k v, ∀ f : IniFile, loadLine (f, none) l = (f, none) ∧
      ∀ p, loadLine (f, some p) l = (f.modifySection p (·.setKeyValue k v), some p)) ∨
    ∀ st : IniFile × Option Str, loadLine st l = st := by
  by_cases hne : lineRead l = []
  · exact .inr (.inr (loadLine_blank hne))
  · rcases htype : lineType (lineRead l) with - | - | - | -
    · refine .inr (.inl ⟨(splitKey (lineRead l)).1,
        (splitKey (lineRead l)).2, fun f => ⟨?_, fun p => ?_⟩⟩)
      · rw [loadLine, if_neg hne, htype]
      · rw [loadLine, if_neg hne, htype]
    · refine .inl ⟨trim (((lineRead l).drop 1).take
        ((lineRead l).length - 2)), fun st => ?_⟩
      rw [loadLine, if_neg hne, htype]
      simp only [IniFile.addSection_eq]
    · refine .inr (.inr fun st => ?_)
      rw [loadLine, if_neg hne, htype]
    · refine .inr (.inr fun st => ?_)
      rw [loadLine, if_neg hne, htype]

/-- The section that is read is there. -/
def HasSection (st : IniFile × Option Str) : Prop :=
  ∀ p, st.2 = some p → ∃ sec, st.1.sections.find? p = some sec

/-- A line keeps it there. -/
lemma HasSection.loadLine {st : IniFile × Option Str} (h : HasSection st) (l : Str) :
    HasSection (CocInside.System.loadLine st l) := by
  obtain ⟨f, p⟩ := st
  rcases loadLine_cases l with ⟨n, hload⟩ | ⟨k, v, hload⟩ | hload
  · rw [hload]
    intro q hq
    obtain rfl : n = q := by simpa using hq
    exact ⟨_, by rw [SortedMap.find?_ensure, if_pos rfl]⟩
  · rcases p with - | p
    · rw [(hload f).1]
      exact h
    · rw [(hload f).2 p]
      intro q hq
      obtain rfl : p = q := by simpa using hq
      obtain ⟨sec, hsec⟩ := h p rfl
      exact ⟨sec.setKeyValue k v, by
        rw [IniFile.modifySection, SortedMap.find?_modify, if_pos rfl, hsec, Option.map_some]⟩
  · rw [hload]
    exact h

/-- After any lines, the section that is read is there. -/
lemma hasSection_loadedLines (f : IniFile) (bMerge : Bool) (before : List Str) :
    HasSection (loadedLines f bMerge before) := by
  have hfold : ∀ (lines : List Str) (st : IniFile × Option Str), HasSection st →
      HasSection (lines.foldl loadLine st) := by
    intro lines
    induction lines with
    | nil => exact fun st h => h
    | cons l lines ih => exact fun st h => ih _ (h.loadLine l)
  exact hfold before _ fun p hp => by simp at hp

/-- Names that the maps do not tell apart name the same section to all lines that follow. -/
lemma foldl_loadLine_congr {p p' : Str} (h : foldCase p = foldCase p') (lines : List Str)
    (f : IniFile) :
    (lines.foldl loadLine (f, some p)).1 = (lines.foldl loadLine (f, some p')).1 := by
  induction lines generalizing f with
  | nil => rfl
  | cons l lines ih =>
      rw [List.foldl_cons, List.foldl_cons]
      rcases loadLine_cases l with ⟨n, hload⟩ | ⟨k, v, hload⟩ | hload
      · rw [hload, hload]
      · rw [(hload f).2, (hload f).2, ih, IniFile.modifySection, IniFile.modifySection,
          SortedMap.modify_congr _ h]
      · rw [hload, hload]
        exact ih f

/-! ## Texts and lines -/

/-- Lines that are written one below the other are read as they are. -/
lemma getlines_flatMap {lines : List Str} (h : ∀ l ∈ lines, '\n' ∉ l) :
    getlines [] (lines.flatMap (· ++ ['\n'])) = lines := by
  induction lines with
  | nil => rfl
  | cons l lines ih =>
      rw [List.flatMap_cons, List.append_assoc, List.singleton_append,
        getlines_line (h l List.mem_cons_self), ih fun l' hl' => h l' (List.mem_cons_of_mem l hl')]
      rfl

/-- The lines of a text have no linefeeds. -/
lemma lf_notMem_of_mem_getlines {cur s l : Str} (hcur : '\n' ∉ cur) (h : l ∈ getlines cur s) :
    '\n' ∉ l := by
  induction s generalizing cur with
  | nil =>
      rw [getlines] at h
      split at h
      · simp at h
      · rw [List.mem_singleton.mp h]
        simpa using hcur
  | cons c s ih =>
      rw [getlines] at h
      split at h
      · rcases List.mem_cons.mp h with rfl | h
        · simpa using hcur
        · exact ih (by simp) h
      · next hc => exact ih (by simpa using ⟨Ne.symm hc, hcur⟩) h

/-- The lines of a change have no linefeeds. -/
lemma Noise.lf_notMem {n : Noise} (h : n.IsNoise) : ∀ l ∈ n.old ++ n.new, '\n' ∉ l := by
  have hblank : ∀ {s : Str}, (∀ c ∈ s, c ∈ blanks) → '\n' ∉ s := fun hs hmem =>
    absurd (hs _ hmem) (by decide)
  cases n with
  | line l => simpa [old, new] using h.1
  | trailing lead body t₁ w t₂ =>
      obtain ⟨hbody, hlead, hw, ht⟩ := h
      have htail : '\n' ∉ t₁ ++ t₂ := fun hmem => absurd (ht _ hmem) (by decide)
      rw [List.mem_append, not_or] at htail
      simp [old, new, header, hbody, hblank hlead, hblank hw, htail.1, htail.2]

/-- Ignored texts, line by line. -/
lemma ignored_iff_foldl (f : IniFile) (bMerge : Bool) {before : List Str}
    (hbefore : ∀ l ∈ before, '\n' ∉ l) {n : Noise} (hn : n.IsNoise) :
    Ignored f bMerge before n ↔ ∀ after : List Str, (∀ l ∈ after, '\n' ∉ l) →
      (after.foldl loadLine (n.new.foldl loadLine (loadedLines f bMerge before))).1 =
        (after.foldl loadLine (n.old.foldl loadLine (loadedLines f bMerge before))).1 := by
  have hload : ∀ text lines after, getlines [] text = before ++ lines ++ after →
      f.load text bMerge =
        (after.foldl loadLine (lines.foldl loadLine (loadedLines f bMerge before))).1 := by
    intro text lines after htext
    rw [IniFile.load, htext, List.foldl_append, List.foldl_append]
    rfl
  constructor
  · intro h after hafter
    have hlines : ∀ lines, (∀ l ∈ lines, '\n' ∉ l) → ∃ text,
        getlines [] text = before ++ lines ++ after := by
      intro lines hlines
      refine ⟨_, getlines_flatMap ?_⟩
      intro l hl
      rw [List.mem_append, List.mem_append] at hl
      rcases hl with (hl | hl) | hl
      · exact hbefore l hl
      · exact hlines l hl
      · exact hafter l hl
    obtain ⟨old, hold⟩ := hlines n.old fun l hl => Noise.lf_notMem hn l (List.mem_append_left _ hl)
    obtain ⟨new, hnew⟩ := hlines n.new fun l hl => Noise.lf_notMem hn l (List.mem_append_right _ hl)
    rw [← hload new n.new after hnew, ← hload old n.old after hold]
    exact h old new after hold hnew
  · intro h old new after hold hnew
    rw [hload new n.new after hnew, hload old n.old after hold]
    refine h after fun l hl => lf_notMem_of_mem_getlines List.not_mem_nil (s := old) ?_
    rw [hold]
    exact List.mem_append_right _ hl

/-! ## What is ignored -/

/-- A value that is set where it is already. -/
lemma setKeyValue_eq_self {sec : IniSection} {k v : Str} {key : IniKey}
    (hkey : sec.getKey k = some key) (hvalue : key.value = v) : sec.setKeyValue k v = sec := by
  have hensure : sec.keys.ensure (trim k) ⟨trim k, []⟩ = sec.keys :=
    SortedMap.ensure_of_find?_eq_some hkey _
  have hmodify : sec.keys.modify (trim k) (·.setValue v) = sec.keys := by
    refine SortedMap.modify_eq_self fun w hw => ?_
    obtain rfl : key = w := Option.some.inj (hkey.symm.trans hw)
    rw [IniKey.setValue, ← hvalue]
  rw [IniSection.setKeyValue, IniSection.addKey_eq]
  simp only [hensure, hmodify]

/-- A value that is set in a section and leaves the file as it is was there already. -/
lemma exists_key_of_modifySection_eq {f : IniFile} {p k v : Str} {sec : IniSection}
    (hsec : f.sections.find? p = some sec)
    (h : f.modifySection p (·.setKeyValue k v) = f) :
    ∃ key, sec.getKey k = some key ∧ key.value = v := by
  have hfind := congrArg (fun g : IniFile => g.sections.find? p) h
  simp only [IniFile.modifySection, SortedMap.find?_modify, if_true, hsec, Option.map_some,
    Option.some.injEq] at hfind
  refine ⟨{ (sec.getKey k).getD ⟨trim k, []⟩ with value := v }, ?_, rfl⟩
  have hkey := IniSection.getKey_setKeyValue sec k k v
  rwa [hfind, if_pos (show SameName k k from rfl)] at hkey

/-- Lines: ignored exactly if harmless. -/
lemma foldl_line_iff {st : IniFile × Option Str} (hst : HasSection st) {l : Str}
    (hn : (Noise.line l).IsNoise) :
    (∀ after : List Str, (∀ l' ∈ after, '\n' ∉ l') →
      (after.foldl loadLine (loadLine st l)).1 = (after.foldl loadLine st).1) ↔
      (Noise.line l).Harmless st := by
  obtain ⟨f, p⟩ := st
  constructor
  · intro h
    by_cases hne : lineRead l = []
    · exact .inl hne
    · rcases p with - | p
      · exact .inr (.inl rfl)
      · obtain ⟨sec, hsec⟩ := hst p rfl
        have hsame := h [] (by simp)
        rw [loadLine_noise_some hn hne] at hsame
        obtain ⟨key, hkey, hvalue⟩ := exists_key_of_modifySection_eq hsec hsame
        exact .inr (.inr ⟨p, sec, key, rfl, hsec, hkey, hvalue⟩)
  · intro h after _
    suffices hsame : loadLine (f, p) l = (f, p) by rw [hsame]
    by_cases hne : lineRead l = []
    · exact loadLine_blank hne _
    · rcases h with h | h | ⟨q, sec, key, hq, hsec, hkey, hvalue⟩
      · exact absurd h hne
      · obtain rfl : p = none := h
        exact loadLine_noise_none hn f
      · obtain rfl : p = some q := hq
        have hmodify : f.modifySection q (·.setKeyValue (splitKey (lineRead l)).1
            (splitKey (lineRead l)).2) = f := by
          have hsections : f.sections.modify q (·.setKeyValue (splitKey (lineRead l)).1
              (splitKey (lineRead l)).2) = f.sections := by
            apply SortedMap.modify_eq_self
            intro sec' hsec'
            obtain rfl : sec = sec' := Option.some.inj (hsec.symm.trans hsec')
            exact setKeyValue_eq_self hkey hvalue
          exact IniFile.ext hsections
        rw [loadLine_noise_some hn hne, hmodify]

/-- A value for the key `k` that a section does not have yet. -/
lemma exists_value_ne (sec : Option IniSection) :
    ∃ v : Str, KeySavable ⟨['k'], v⟩ ∧
      ∀ s, sec = some s → ∀ key, s.getKey ['k'] = some key → key.value ≠ v := by
  -- a longer one than there is
  let n := ((sec.bind (·.getKey ['k'])).map (·.value.length)).getD 0
  refine ⟨List.replicate (n + 1) 'v', ⟨by simp, by simp, by simp, by simp, ?_, ?_⟩, ?_⟩
  · simp [List.mem_replicate]
  · simp [List.replicate_succ']
  · rintro s rfl key hkey heq
    have hlen := congrArg List.length heq
    simp [n, hkey] at hlen

/-- Two names that the maps tell apart are told apart by the value of a key behind the line. -/
lemma foldCase_eq_of_foldl_eq {f : IniFile} {n n' : Str}
    (h : ∀ after : List Str, (∀ l ∈ after, '\n' ∉ l) →
      (after.foldl loadLine (⟨f.sections.ensure n' ⟨n', .empty⟩⟩, some n')).1 =
        (after.foldl loadLine (⟨f.sections.ensure n ⟨n, .empty⟩⟩, some n)).1) :
    foldCase n' = foldCase n := by
  obtain ⟨v, hsav, hv⟩ := exists_value_ne (f.sections.find? n)
  by_contra hne
  have hlf : ∀ l ∈ [keyLine ⟨['k'], v⟩ ++ Linefeed.unix.cr], '\n' ∉ l := by
    simpa [keyLine, Linefeed.cr] using hsav.value_lf
  have hsame := h _ hlf
  simp only [List.foldl_cons, List.foldl_nil] at hsame
  rw [loadLine_key hsav rfl, loadLine_key hsav rfl] at hsame
  have hfind := congrArg (fun g : IniFile => g.sections.find? n) hsame
  simp only [IniFile.modifySection, SortedMap.find?_modify, SortedMap.find?_ensure, if_true,
    Ne.symm hne, if_false, Option.map_some] at hfind
  have hkey := IniSection.getKey_setKeyValue
    ((f.sections.find? n).getD ⟨n, .empty⟩) ['k'] ['k'] v
  rw [if_pos (show SameName ['k'] ['k'] from rfl)] at hkey
  exact hv _ hfind _ hkey rfl

/-- Two names of a new section that the maps do not tell apart are kept by it. -/
lemma eq_of_ensure_eq {f : IniFile} {n n' : Str} (hfold : foldCase n' = foldCase n)
    (hnone : f.sections.find? n = none)
    (h : (⟨f.sections.ensure n' ⟨n', .empty⟩⟩ : IniFile) = ⟨f.sections.ensure n ⟨n, .empty⟩⟩) :
    n' = n := by
  have hnone' : f.sections.find? n' = none := by rw [f.sections.find?_congr hfold, hnone]
  have hfind := congrArg (fun g : IniFile => g.sections.find? n) h
  simp only [SortedMap.find?_ensure, hfold, if_true, hnone, hnone', Option.getD_none,
    Option.some.injEq] at hfind
  exact congrArg IniSection.sectionName hfind

/-- Blanks behind the bracket: ignored exactly if harmless. -/
lemma foldl_trailing_iff (st : IniFile × Option Str) {lead body t₁ w t₂ : Str}
    (hn : (Noise.trailing lead body t₁ w t₂).IsNoise) :
    (∀ after : List Str, (∀ l ∈ after, '\n' ∉ l) →
      (after.foldl loadLine (loadLine st (Noise.header lead body (t₁ ++ w ++ t₂)))).1 =
        (after.foldl loadLine (loadLine st (Noise.header lead body (t₁ ++ t₂)))).1) ↔
      (Noise.trailing lead body t₁ w t₂).Harmless st := by
  obtain ⟨-, hlead, hw, ht⟩ := hn
  have ht' : ∀ c ∈ t₁ ++ w ++ t₂, c ∈ blanks ∨ c = '\r' := by
    intro c hc
    rw [List.mem_append, List.mem_append] at hc
    rcases hc with (hc | hc) | hc
    · exact ht c (List.mem_append_left _ hc)
    · exact .inl (hw c hc)
    · exact ht c (List.mem_append_right _ hc)
  rw [loadLine_header hlead ht', loadLine_header hlead ht]
  constructor
  · intro h
    by_cases htail : tailRead (t₁ ++ w ++ t₂) = tailRead (t₁ ++ t₂)
    · exact .inl htail
    · have hfold := foldCase_eq_of_foldl_eq h
      have hnul : '\x00' ∈ body := by
        by_contra hnul
        exact foldCase_nameRead_ne hnul ht ht' htail hfold
      refine .inr ⟨hnul, ?_⟩
      rw [Option.isSome_iff_ne_none]
      intro hnone
      have hread : st.1.sections.find? (nameRead body (t₁ ++ t₂)) = none := by
        rw [st.1.sections.find?_congr (foldCase_nameRead_of_nul hnul (t₁ ++ t₂))]
        exact hnone
      have hname := eq_of_ensure_eq hfold hread (h [] (by simp))
      exact nameRead_map_ne (φ := id) (fun _ _ => rfl) ht ht' htail (by rw [hname])
  · rintro (htail | ⟨hnul, hsome⟩) after -
    · have hname : nameRead body (t₁ ++ w ++ t₂) = nameRead body (t₁ ++ t₂) := by
        rw [nameRead, htail]
        rfl
      rw [hname]
    · obtain ⟨sec, hsec⟩ := Option.isSome_iff_exists.mp hsome
      have hfind : ∀ t, st.1.sections.find? (nameRead body t) = some sec := fun t => by
        rw [st.1.sections.find?_congr (foldCase_nameRead_of_nul hnul t)]
        exact hsec
      rw [SortedMap.ensure_of_find?_eq_some (hfind _), SortedMap.ensure_of_find?_eq_some (hfind _)]
      apply foldl_loadLine_congr
      rw [foldCase_nameRead_of_nul hnul, foldCase_nameRead_of_nul hnul]

/-- **Exactness.** Behind any lines, a comment, a line that is neither section nor key, and blanks behind
the bracket of a section are ignored whatever follows if and only if they are harmless there. -/
theorem ignored_iff (f : IniFile) (bMerge : Bool) (before : List Str) (n : Noise)
    (hbefore : ∀ l ∈ before, '\n' ∉ l) (hn : n.IsNoise) :
    Ignored f bMerge before n ↔ n.Harmless (loadedLines f bMerge before) := by
  rw [ignored_iff_foldl f bMerge hbefore hn]
  cases n with
  | line l => exact foldl_line_iff (hasSection_loadedLines f bMerge before) hn
  | trailing lead body t₁ w t₂ => exact foldl_trailing_iff _ hn

/-- Behind a section with the comment `#c` as a key, the same comment again and a blank line; and a tab
behind a bracket where a blank stands already. -/
theorem ignored_iff_section :
    (∀ l ∈ ["[s]".toList, "k=v".toList, "#c".toList], '\n' ∉ l) ∧
      Ignored .empty false ["[s]".toList, "k=v".toList, "#c".toList] (.line " #c".toList) ∧
      Ignored .empty false ["[s]".toList, "k=v".toList, "#c".toList] (.line "\t ".toList) ∧
      Ignored .empty false ["[s]".toList, "k=v".toList, "#c".toList]
        (.trailing [] ['a'] [' '] ['\t'] []) := by
  have hbefore : ∀ l ∈ ["[s]".toList, "k=v".toList, "#c".toList], '\n' ∉ l := by decide
  have hkey : (((loadedLines .empty false ["[s]".toList, "k=v".toList, "#c".toList]).1.sections.find?
      ['s']).bind fun sec => sec.getKey "#c".toList) = some ⟨"#c".toList, "#c".toList⟩ := by
    decide +kernel
  obtain ⟨sec, hsec, hkey⟩ := Option.bind_eq_some_iff.mp hkey
  refine ⟨hbefore, ?_, ?_, ?_⟩
  · refine (ignored_iff _ _ _ (.line " #c".toList) hbefore ⟨by decide, .inl (by decide)⟩).mpr ?_
    exact .inr (.inr ⟨['s'], sec, _, by decide +kernel, hsec, hkey, by decide +kernel⟩)
  · exact (ignored_iff _ _ _ (.line "\t ".toList) hbefore
      ⟨by decide, .inr ⟨by decide, fun h => absurd h.1 (by decide +kernel)⟩⟩).mpr
      (.inl (by decide +kernel))
  · refine (ignored_iff _ _ _ (.trailing [] ['a'] [' '] ['\t'] []) hbefore ?_).mpr (.inl (by decide))
    exact ⟨by decide, by simp, by simp [blanks], by simp [blanks]⟩

/-- Behind `[s]`, the comment `#c` becomes a key; and `[a]` with a blank behind it begins the section
`a]`. -/
theorem not_ignored_comment :
    (IniFile.empty.load "[s]\n".toList false).getKey ['s'] "#c".toList = none ∧
      (IniFile.empty.load "[s]\n#c\n".toList false).getKey ['s'] "#c".toList =
        some ⟨"#c".toList, "#c".toList⟩ ∧
      ((IniFile.empty.load "[a]\n".toList false).getSection "a]".toList).isSome = false ∧
      ((IniFile.empty.load "[a] \n".toList false).getSection "a]".toList).isSome = true ∧
      ¬ ∀ (f : IniFile) (bMerge : Bool) (before : List Str) (n : Noise),
        (∀ l ∈ before, '\n' ∉ l) → n.IsNoise → Ignored f bMerge before n := by
  have hold : (IniFile.empty.load "[s]\n".toList false).getKey ['s'] "#c".toList = none := by
    decide +kernel
  have hnew : (IniFile.empty.load "[s]\n#c\n".toList false).getKey ['s'] "#c".toList =
      some ⟨"#c".toList, "#c".toList⟩ := by decide +kernel
  refine ⟨hold, hnew, by decide +kernel, by decide +kernel, fun h => ?_⟩
  have hsame := h .empty false ["[s]".toList] (.line "#c".toList) (by simp)
    ⟨by decide, .inl (by decide)⟩ "[s]\n".toList "[s]\n#c\n".toList [] (by decide) (by decide)
  rw [hsame, hold] at hnew
  exact absurd hnew (by decide)

end CocInside.System
