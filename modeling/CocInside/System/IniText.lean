import CocInside.System.IniStore

/-!
# Saving and loading

`Save` writes a line for each section and each key. `Load` tells sections from keys by a bracket at
either end of the line, and keys from their values by the first `=`.

* `IniFile.save`: the text, with either of the two linefeeds that the build may choose.
* `getlines`: the lines that `std::getline` cuts the text into.
* `LineType`, `lineType`, `loadLine`, `IniFile.load`: a line's kind, a turn of the loop, and the loop.
* `Savable`: the names and values that a line can hold.
* `load_save`: loading what was saved gives back the file.

Source: `System/IniFile.cpp`.
-/

namespace CocInside.System

open CocInside.Lib

/-! ## The model -/

/-- The linefeed of the build. -/
inductive Linefeed where
  | unix
  | windows
deriving DecidableEq

/-- `_CRLFA`. -/
def Linefeed.crlf : Linefeed → Str
  | .unix => ['\n']
  | .windows => ['\r', '\n']

/-- The line of a key. -/
def keyLine (key : IniKey) : Str := key.keyName ++ '=' :: key.value

/-- The line of a section. -/
def sectionLine (sec : IniSection) : Str := '[' :: sec.sectionName ++ [']']

/-- Source: `IniFile.cpp`, `IniFileA::Save`. -/
def IniFile.save (f : IniFile) (lf : Linefeed) : Str :=
  f.sections.entries.flatMap fun e =>
    sectionLine e.2 ++ lf.crlf ++ e.2.keys.entries.flatMap fun k => keyLine k.2 ++ lf.crlf

/-- The lines that calls of `std::getline` return, with `cur` the reversed beginning of the first one.
The text may or may not end in a linefeed. -/
def getlines (cur : Str) : Str → List Str
  | [] => if cur = [] then [] else [cur.reverse]
  | c :: cs => if c = '\n' then cur.reverse :: getlines [] cs else getlines (c :: cur) cs

/-- `find_first_of`; `none` is `npos`. -/
def findFirstOf (s chars : Str) : Option ℕ := s.findIdx? (· ∈ chars)

/-- The kinds of lines. -/
inductive LineType where
  | key
  | sect
  | comment
  | other
deriving DecidableEq

/-- The kind of a line; `npos > 0` holds, and so every line that is no section and does not begin with
`=` is a key.
Source: `IniFile.cpp`, `IniFileA::Load`. -/
def lineType (sRead : Str) : LineType :=
  let nType : LineType :=
    if findFirstOf sRead ['['] = some 0 ∧
        (rTrim sRead [' ', '\t', '\r', '\n']).getLast? = some ']' then .sect
    else .other
  let nType := if nType = .other ∧ findFirstOf sRead ['='] ≠ some 0 then .key else nType
  if nType = .other ∧ findFirstOf sRead ['#'] = some 0 then .comment else nType

/-- The name and the value in the line of a key; without a `=`, both are the line.
Source: `IniFile.cpp`, `IniFileA::Load`. -/
def splitKey (sRead : Str) : Str × Str :=
  match findFirstOf sRead ['='] with
  | some iFind => (sRead.take iFind, sRead.drop (iFind + 1))
  | none => (sRead, sRead)

/-- A turn of the loop, on the file and `pSection`.
Source: `IniFile.cpp`, `IniFileA::Load`. -/
def loadLine (st : IniFile × Option Str) (line : Str) : IniFile × Option Str :=
  let sRead := rTrim (lTrim line) ['\n', '\r']
  if sRead = [] then st
  else
    match lineType sRead with
    | .sect =>
        let added := st.1.addSection ((sRead.drop 1).take (sRead.length - 2))
        (added.1, some added.2)
    | .key =>
        match st.2 with
        | some pSection =>
            let split := splitKey sRead
            (st.1.modifySection pSection (·.setKeyValue split.1 split.2), st.2)
        | none => st
    | .comment => st
    | .other => st

/-- Source: `IniFile.cpp`, `IniFileA::Load`. -/
def IniFile.load (f : IniFile) (input : Str) (bMerge : Bool) : IniFile :=
  let f := if bMerge then f else f.removeAllSections
  ((getlines [] input).foldl loadLine (f, none)).1

/-! ## What a line can hold -/

/-- A key whose line can be read back. -/
structure KeySavable (key : IniKey) : Prop where
  name_ne : key.keyName ≠ []
  name_eq : '=' ∉ key.keyName
  name_lf : '\n' ∉ key.keyName
  name_bracket : key.keyName.head? ≠ some '['
  value_lf : '\n' ∉ key.value
  value_cr : key.value.getLast? ≠ some '\r'

instance (key : IniKey) : Decidable (KeySavable key) :=
  decidable_of_iff
    (key.keyName ≠ [] ∧ '=' ∉ key.keyName ∧ '\n' ∉ key.keyName ∧ key.keyName.head? ≠ some '[' ∧
      '\n' ∉ key.value ∧ key.value.getLast? ≠ some '\r')
    ⟨fun ⟨h₁, h₂, h₃, h₄, h₅, h₆⟩ => ⟨h₁, h₂, h₃, h₄, h₅, h₆⟩,
      fun ⟨h₁, h₂, h₃, h₄, h₅, h₆⟩ => ⟨h₁, h₂, h₃, h₄, h₅, h₆⟩⟩

/-- A file whose lines can be read back. -/
structure IniFile.Savable (f : IniFile) : Prop where
  section_lf : ∀ e ∈ f.sections.entries, '\n' ∉ e.2.sectionName
  keys : ∀ e ∈ f.sections.entries, ∀ k ∈ e.2.keys.entries, KeySavable k.2

/-! ## Lines -/

/-- What `getline` leaves of the linefeed. -/
def Linefeed.cr : Linefeed → Str
  | .unix => []
  | .windows => ['\r']

/-- A line ends at its line feed. -/
lemma getlines_line {l : Str} (h : '\n' ∉ l) (cur rest : Str) :
    getlines cur (l ++ '\n' :: rest) = (cur.reverse ++ l) :: getlines [] rest := by
  induction l generalizing cur with
  | nil => simp [getlines]
  | cons c l ih =>
      rw [List.mem_cons, not_or] at h
      rw [List.cons_append, getlines, if_neg (Ne.symm h.1), ih h.2]
      simp

/-- A line that was written is read, up to a carriage return. -/
lemma getlines_crlf {l : Str} (h : '\n' ∉ l) (lf : Linefeed) (rest : Str) :
    getlines [] (l ++ lf.crlf ++ rest) = (l ++ lf.cr) :: getlines [] rest := by
  cases lf with
  | unix =>
      rw [Linefeed.crlf, Linefeed.cr, List.append_assoc, List.append_nil]
      exact getlines_line h [] rest
  | windows =>
      have h' : '\n' ∉ l ++ ['\r'] := by simpa using h
      rw [Linefeed.crlf, Linefeed.cr, List.append_assoc]
      simpa using getlines_line h' [] rest

/-- The trims take off the carriage return and nothing else. -/
lemma trim_line {c : Char} {l : Str} (lf : Linefeed) (hc : c ∉ blanks)
    (hlast : ∀ b, (c :: l).getLast? = some b → b ≠ '\n' ∧ b ≠ '\r') :
    rTrim (lTrim (c :: l ++ lf.cr)) ['\n', '\r'] = c :: l := by
  have hleft : lTrim (c :: l ++ lf.cr) = c :: l ++ lf.cr := by
    rw [lTrim, List.cons_append, List.dropWhile_cons_of_neg (by simpa using hc)]
  have hright : rTrim (c :: l) ['\n', '\r'] = c :: l := by
    refine List.rdropWhile_eq_self_iff.mpr ?_
    intro hne
    have := hlast _ (List.getLast?_eq_some_getLast hne)
    simpa using this
  rw [hleft]
  cases lf with
  | unix =>
      rw [Linefeed.cr, List.append_nil]
      exact hright
  | windows =>
      rw [Linefeed.cr, rTrim, List.rdropWhile_concat_pos _ _ _ (by decide)]
      exact hright

/-- The line of a section is read as one. -/
lemma loadLine_section (st : IniFile × Option Str) (sec : IniSection) (lf : Linefeed) :
    loadLine st (sectionLine sec ++ lf.cr)
      = ((st.1.addSection sec.sectionName).1, some (st.1.addSection sec.sectionName).2) := by
  have htrim : rTrim (lTrim (sectionLine sec ++ lf.cr)) ['\n', '\r'] = sectionLine sec := by
    refine trim_line (c := '[') lf (by decide) ?_
    intro b hb
    have hlast : (sectionLine sec).getLast? = some ']' := List.getLast?_concat
    cases hlast.symm.trans hb
    decide
  have hlast : rTrim (sectionLine sec) [' ', '\t', '\r', '\n'] = sectionLine sec :=
    List.rdropWhile_concat_neg _ _ _ (by decide)
  have htype : lineType (sectionLine sec) = .sect := by
    rw [lineType, hlast, sectionLine, List.getLast?_concat]
    rfl
  have hname : ((sectionLine sec).drop 1).take ((sectionLine sec).length - 2)
      = sec.sectionName := by
    simp [sectionLine]
  have hne : sectionLine sec ≠ [] := List.cons_ne_nil _ _
  rw [loadLine, htrim, if_neg hne, htype]
  simp only [hname]

/-- A trimmed name begins with no blank. -/
lemma head_notMem_blanks {c : Char} {l : Str} (h : trim (c :: l) = c :: l) : c ∉ blanks := by
  intro hc
  have hhead := List.head?_dropWhile_not (fun x => decide (x ∈ blanks)) (rTrim (c :: l))
  have heq : (rTrim (c :: l)).dropWhile (fun x => decide (x ∈ blanks)) = c :: l := h
  rw [heq] at hhead
  simp [hc] at hhead

/-- The name and the value of a key are told apart. -/
lemma splitKey_keyLine {key : IniKey} (h : '=' ∉ key.keyName) :
    findFirstOf (keyLine key) ['='] = some key.keyName.length ∧
      splitKey (keyLine key) = (key.keyName, key.value) := by
  have hfind : findFirstOf (keyLine key) ['='] = some key.keyName.length := by
    rw [findFirstOf, keyLine, List.findIdx?_append]
    have hnone : key.keyName.findIdx? (· ∈ ['=']) = none := by
      rw [List.findIdx?_eq_none_iff]
      intro c hc
      simpa using fun heq : c = '=' => h (heq ▸ hc)
    rw [hnone, List.findIdx?_cons]
    simp
  refine ⟨hfind, ?_⟩
  rw [splitKey, hfind]
  simp [keyLine]

/-- The line of a key does not end in a carriage return if the value does not. -/
lemma getLast?_keyLine {key : IniKey} (h : key.value.getLast? ≠ some '\r') :
    (keyLine key).getLast? ≠ some '\r' := by
  rw [keyLine, List.getLast?_append_of_ne_nil _ (List.cons_ne_nil _ _)]
  cases hv : key.value with
  | nil => decide
  | cons c v =>
      rw [List.getLast?_cons_cons, ← hv]
      exact h

/-- The line of a key is of that kind: it begins with neither `[` nor `=`. -/
lemma lineType_keyLine {key : IniKey} (h : KeySavable key) : lineType (keyLine key) = .key := by
  have hfirst : ∀ c, key.keyName.head? ≠ some c → findFirstOf (keyLine key) [c] ≠ some 0 := by
    intro c hc
    cases hname : key.keyName with
    | nil => exact absurd hname h.name_ne
    | cons d l =>
        have hd : d ≠ c := by simpa [hname] using hc
        rw [findFirstOf, keyLine, hname, List.cons_append, List.findIdx?_cons]
        simp [hd]
  have heq : findFirstOf (keyLine key) ['='] ≠ some 0 := by
    refine hfirst '=' ?_
    intro hhead
    exact h.name_eq (List.mem_of_head? hhead)
  have hno : ¬(findFirstOf (keyLine key) ['['] = some 0 ∧
      (rTrim (keyLine key) [' ', '\t', '\r', '\n']).getLast? = some ']') :=
    fun hboth => hfirst '[' h.name_bracket hboth.1
  rw [lineType, if_neg hno]
  simp [heq]

/-- The line of a key is read as one, in the section that was read last. -/
lemma loadLine_key {key : IniKey} (hkey : KeySavable key) (htrimmed : trim key.keyName = key.keyName)
    (f : IniFile) (p : Str) (lf : Linefeed) :
    loadLine (f, some p) (keyLine key ++ lf.cr)
      = (f.modifySection p (·.setKeyValue key.keyName key.value), some p) := by
  obtain ⟨hfind, hsplit⟩ := splitKey_keyLine hkey.name_eq
  cases hname : key.keyName with
  | nil => exact absurd hname hkey.name_ne
  | cons c l =>
      have hline : keyLine key = c :: (l ++ '=' :: key.value) := by
        rw [keyLine, hname]
        rfl
      have hlf : '\n' ∉ keyLine key := by
        simpa [keyLine] using ⟨hkey.name_lf, hkey.value_lf⟩
      have htrim : rTrim (lTrim (keyLine key ++ lf.cr)) ['\n', '\r'] = keyLine key := by
        rw [hline]
        refine trim_line lf (head_notMem_blanks (hname ▸ htrimmed)) ?_
        intro b hb
        rw [← hline] at hb
        refine ⟨fun heq => hlf (heq ▸ List.mem_of_getLast? hb), ?_⟩
        rintro rfl
        exact getLast?_keyLine hkey.value_cr hb
      have hne : keyLine key ≠ [] := by
        rw [hline]
        exact List.cons_ne_nil _ _
      rw [loadLine, htrim, if_neg hne, lineType_keyLine hkey]
      simp only [hsplit, hname]

/-! ## The loop -/

/-- The lines of keys, as `getline` returns them. -/
def keyLines (lf : Linefeed) (ks : List (Str × IniKey)) : List Str :=
  ks.map fun k => keyLine k.2 ++ lf.cr

/-- The lines of sections, as `getline` returns them. -/
def sectionLines (lf : Linefeed) (ss : List (Str × IniSection)) : List Str :=
  ss.flatMap fun e => (sectionLine e.2 ++ lf.cr) :: keyLines lf e.2.keys.entries

/-- The lines of the keys of a section. -/
lemma getlines_keys {ks : List (Str × IniKey)} (h : ∀ k ∈ ks, KeySavable k.2) (lf : Linefeed)
    (rest : Str) :
    getlines [] (ks.flatMap (fun k => keyLine k.2 ++ lf.crlf) ++ rest)
      = keyLines lf ks ++ getlines [] rest := by
  induction ks with
  | nil => rfl
  | cons k ks ih =>
      have hk := h k List.mem_cons_self
      have hlf : '\n' ∉ keyLine k.2 := by
        simpa [keyLine] using ⟨hk.name_lf, hk.value_lf⟩
      rw [List.flatMap_cons, List.append_assoc, getlines_crlf hlf,
        ih fun k' hk' => h k' (List.mem_cons_of_mem k hk')]
      rfl

/-- The text is cut into the lines that were written. -/
lemma getlines_save {ss : List (Str × IniSection)}
    (hname : ∀ e ∈ ss, '\n' ∉ e.2.sectionName)
    (hkeys : ∀ e ∈ ss, ∀ k ∈ e.2.keys.entries, KeySavable k.2) (lf : Linefeed) :
    getlines [] (ss.flatMap fun e => sectionLine e.2 ++ lf.crlf ++
      e.2.keys.entries.flatMap fun k => keyLine k.2 ++ lf.crlf) = sectionLines lf ss := by
  induction ss with
  | nil => rfl
  | cons e ss ih =>
      have hlf : '\n' ∉ sectionLine e.2 := by
        simpa [sectionLine] using hname e List.mem_cons_self
      rw [List.flatMap_cons, List.append_assoc, List.append_assoc, ← List.append_assoc,
        getlines_crlf hlf, getlines_keys (hkeys e List.mem_cons_self),
        ih (fun e' he' => hname e' (List.mem_cons_of_mem e he'))
          (fun e' he' => hkeys e' (List.mem_cons_of_mem e he'))]
      rfl

/-- A value set for a name behind all others goes to the end. -/
lemma entries_setKeyValue_last {sec : IniSection} {key : IniKey}
    (htrim : trim key.keyName = key.keyName)
    (h : ∀ e ∈ sec.keys.entries, foldCase e.1 < foldCase key.keyName) :
    (sec.setKeyValue key.keyName key.value).keys.entries
      = sec.keys.entries ++ [(key.keyName, key)] := by
  have hadded : (sec.keys.ensure key.keyName ⟨key.keyName, []⟩).entries
      = sec.keys.entries ++ [(key.keyName, ⟨key.keyName, []⟩)] := SortedMap.ensure_last h
  rw [IniSection.setKeyValue, IniSection.addKey_eq, htrim]
  exact SortedMap.modify_last (·.setValue key.value) hadded

/-- Keys that come in order are appended to the section that is read. -/
lemma foldl_keyLines {es : List (Str × IniSection)} {n : Str} (lf : Linefeed)
    {ks : List (Str × IniKey)} (hkept : ∀ k ∈ ks, KeyKept k.1 k.2)
    (hsav : ∀ k ∈ ks, KeySavable k.2) {f : IniFile} {sec : IniSection}
    (hf : f.sections.entries = es ++ [(n, sec)])
    (hsorted : (sec.keys.entries ++ ks).Pairwise fun a b => foldCase a.1 < foldCase b.1) :
    ∃ g sec', (keyLines lf ks).foldl loadLine (f, some n) = (g, some n) ∧
      g.sections.entries = es ++ [(n, sec')] ∧ sec'.sectionName = sec.sectionName ∧
      sec'.keys.entries = sec.keys.entries ++ ks := by
  induction ks generalizing f sec with
  | nil => exact ⟨f, sec, rfl, hf, rfl, (List.append_nil _).symm⟩
  | cons k ks ih =>
      obtain ⟨hname, htrim⟩ := hkept k List.mem_cons_self
      rw [← hname] at htrim
      have hlt : ∀ e ∈ sec.keys.entries, foldCase e.1 < foldCase k.2.keyName := by
        intro e he
        rw [hname]
        exact (List.pairwise_append.mp hsorted).2.2 e he k List.mem_cons_self
      have hentries := entries_setKeyValue_last htrim hlt
      have hk : (k.2.keyName, k.2) = k := by rw [hname]
      rw [hk] at hentries
      have hmod := SortedMap.modify_last (·.setKeyValue k.2.keyName k.2.value) hf
      obtain ⟨g, sec', hg, hsec, hsname, hskeys⟩ := ih
        (fun k' hk' => hkept k' (List.mem_cons_of_mem k hk'))
        (fun k' hk' => hsav k' (List.mem_cons_of_mem k hk')) hmod
        (by rw [hentries, List.append_assoc]; exact hsorted)
      refine ⟨g, sec', ?_, hsec, ?_, ?_⟩
      · rw [keyLines, List.map_cons, List.foldl_cons,
          loadLine_key (hsav k List.mem_cons_self) htrim]
        exact hg
      · rw [hsname, IniSection.setKeyValue, IniSection.addKey_eq]
      · rw [hskeys, hentries, List.append_assoc]
        rfl

/-- Sections that come in order are appended to the file. -/
lemma foldl_sectionLines (lf : Linefeed) {ss : List (Str × IniSection)}
    (hkept : ∀ e ∈ ss, SectionKept e.1 e.2)
    (hsav : ∀ e ∈ ss, ∀ k ∈ e.2.keys.entries, KeySavable k.2) {f : IniFile} (p : Option Str)
    (hsorted : (f.sections.entries ++ ss).Pairwise fun a b => foldCase a.1 < foldCase b.1) :
    ((sectionLines lf ss).foldl loadLine (f, p)).1.sections.entries
      = f.sections.entries ++ ss := by
  induction ss generalizing f p with
  | nil => exact (List.append_nil _).symm
  | cons e ss ih =>
      obtain ⟨hname, htrim, hkeys⟩ := hkept e List.mem_cons_self
      have hlt : ∀ e' ∈ f.sections.entries, foldCase e'.1 < foldCase e.1 := by
        intro e' he'
        exact (List.pairwise_append.mp hsorted).2.2 e' he' e List.mem_cons_self
      -- the line of the section, and then those of its keys
      have hadd : f.addSection e.2.sectionName
          = (⟨f.sections.ensure e.1 ⟨e.1, .empty⟩⟩, e.1) := by
        rw [IniFile.addSection_eq, hname, htrim]
      have hentries : (f.sections.ensure e.1 ⟨e.1, .empty⟩).entries
          = f.sections.entries ++ [(e.1, ⟨e.1, .empty⟩)] := SortedMap.ensure_last hlt
      obtain ⟨g, sec', hg, hsec, hsname, hskeys⟩ := foldl_keyLines
        (f := ⟨f.sections.ensure e.1 ⟨e.1, .empty⟩⟩) lf hkeys (hsav e List.mem_cons_self) hentries
        e.2.keys.sorted
      have heq : sec' = e.2 := IniSection.ext (hsname.trans hname.symm) (SortedMap.ext hskeys)
      rw [heq] at hsec
      rw [sectionLines, List.flatMap_cons, List.cons_append, List.foldl_cons, List.foldl_append,
        loadLine_section, hadd, hg]
      have htail := ih (fun e' he' => hkept e' (List.mem_cons_of_mem e he'))
        (fun e' he' => hsav e' (List.mem_cons_of_mem e he')) (f := g) (some e.1)
        (by rw [hsec, List.append_assoc]; exact hsorted)
      rw [hsec, List.append_assoc] at htail
      exact htail

/-! ## Round trip -/

/-- **What was saved is loaded.** Loaded into any object, the text of a file with names and values that
lines can hold gives exactly its sections, keys and values. -/
theorem load_save (f g : IniFile) (lf : Linefeed) (hkept : f.WellKept) (hsav : f.Savable) :
    g.load (f.save lf) false = f := by
  refine IniFile.ext (SortedMap.ext ?_)
  rw [IniFile.load, IniFile.save, getlines_save hsav.section_lf hsav.keys]
  exact foldl_sectionLines lf hkept.entries hsav.keys none f.sections.sorted

/-- A section with a bracket in its name, and a key and a value with a `#` and a second `=`. -/
theorem load_save_brackets :
    ∃ f : IniFile, f.getKeyValue "a]".toList "#k".toList = " x=1 ".toList ∧
      (IniFile.empty.setKeyValue "old".toList "k".toList "v".toList).load (f.save .windows) false
        = f := by
  refine ⟨IniFile.empty.setKeyValue "a]".toList "#k".toList " x=1 ".toList, by decide,
    load_save _ _ .windows ?_ ?_⟩
  · exact IniFile.wellKept_of_all (IniFile.kept_setKeyValue (SortedMap.all_empty _) _ _ _)
  · exact ⟨by decide, by decide⟩

end CocInside.System
