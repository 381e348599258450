import CocInside.System.IniFile

/-!
# The laws of the store

Names are held by the maps and by the objects. Whatever the history of a file, the two agree, and the
calls do to lookups what they promise, up to blanks and case as `ci_less_a` sees them.

* `SameName`: names that the maps do not tell apart.
* `IniFile.WellKept`: the agreement. `SetLaw`, `RenameSectionLaw`, `RenameKeyLaw`: the promises.
* `store_laws`: they hold after every sequence of calls.
* `not_unchanged_after_nul`: letters behind a NUL do not tell names apart.
-/

namespace CocInside.System

open CocInside.Lib

/-! ## Statements -/

/-- Equal up to surrounding blanks and to what the maps ignore: case, and all behind a NUL. -/
def SameName (a b : Str) : Prop := foldCase (trim a) = foldCase (trim b)

instance (a b : Str) : Decidable (SameName a b) :=
  inferInstanceAs (Decidable (foldCase (trim a) = foldCase (trim b)))

/-- Equal up to surrounding blanks and case. -/
def UpToCase (a b : Str) : Prop := (trim a).map Char.toLower = (trim b).map Char.toLower

instance (a b : Str) : Decidable (UpToCase a b) :=
  inferInstanceAs (Decidable ((trim a).map Char.toLower = (trim b).map Char.toLower))

/-- An entry of the keys of a section: the object has the name, trimmed. -/
def KeyKept (k : Str) (key : IniKey) : Prop := key.keyName = k ∧ trim k = k

/-- An entry of the sections of a file, with its own keys. -/
def SectionKept (k : Str) (sec : IniSection) : Prop :=
  sec.sectionName = k ∧ trim k = k ∧ sec.keys.All KeyKept

namespace IniFile

/-- Maps and objects agree on the names; the names are trimmed, and no two are the same. -/
structure WellKept (f : IniFile) : Prop where
  entries : f.sections.All SectionKept
  sections : f.sections.entries.Pairwise fun a b => ¬SameName a.2.sectionName b.2.sectionName
  keys : ∀ e ∈ f.sections.entries,
    e.2.keys.entries.Pairwise fun a b => ¬SameName a.2.keyName b.2.keyName

/-- `SetKeyValue(s, k, v)` sets this value, and changes no other key and no other section. -/
structure SetLaw (f : IniFile) (s k v : Str) : Prop where
  value : ∀ s' k', SameName s' s → SameName k' k → (f.setKeyValue s k v).getKeyValue s' k' = v
  other_keys : ∀ s' k', ¬(SameName s' s ∧ SameName k' k) →
    (f.setKeyValue s k v).getKey s' k' = f.getKey s' k'
  other_sections : ∀ s', ¬SameName s' s → (f.setKeyValue s k v).getSection s' = f.getSection s'

/-- `RenameSection(s, n)` moves the whole section or changes nothing. -/
structure RenameSectionLaw (f : IniFile) (s n : Str) : Prop where
  renamed : (f.renameSection s n).2 = true → ∃ sec, f.getSection s = some sec ∧ ¬SameName n s ∧
    ∀ s', (f.renameSection s n).1.getSection s' =
      if SameName s' n then some { sec with sectionName := trim n }
      else if SameName s' s then none
      else f.getSection s'
  refused : (f.renameSection s n).2 = false → (f.renameSection s n).1 = f

/-- `RenameKey(s, k, n)` moves the key or changes nothing. -/
structure RenameKeyLaw (f : IniFile) (s k n : Str) : Prop where
  renamed : (f.renameKey s k n).2 = true → ∃ sec sec' key, f.getSection s = some sec ∧
    sec.getKey k = some key ∧ ¬SameName n k ∧ sec'.sectionName = sec.sectionName ∧
    (∀ k', sec'.getKey k' =
      if SameName k' n then some { key with keyName := trim n }
      else if SameName k' k then none
      else sec.getKey k') ∧
    ∀ s', (f.renameKey s k n).1.getSection s' =
      if SameName s' s then some sec' else f.getSection s'
  refused : (f.renameKey s k n).2 = false → (f.renameKey s k n).1 = f

end IniFile

/-! ## Trimming -/

/-- A trimmed name is trimmed. -/
lemma trim_trim (s : Str) : trim (trim s) = trim s := by
  have hlast : rTrim (trim s) = trim s := by
    refine List.rdropWhile_eq_self_iff.mpr ?_
    intro hne
    have hr : rTrim s ≠ [] := by
      intro h
      rw [trim, h] at hne
      exact hne rfl
    have heq : (trim s).getLast hne = (rTrim s).getLast hr :=
      (List.dropWhile_suffix _).getLast hne
    rw [heq]
    exact List.rdropWhile_last_not _ _ hr
  rw [trim, hlast, trim, lTrim, lTrim, List.dropWhile_idempotent]

/-! ## Names -/

/-- The names of distinct entries are distinct, as their keys are. -/
lemma pairwise_not_sameName {α : Type} {m : SortedMap foldCase α} {name : α → Str}
    (h : ∀ e ∈ m.entries, name e.2 = e.1 ∧ trim e.1 = e.1) :
    m.entries.Pairwise fun a b => ¬SameName (name a.2) (name b.2) := by
  refine m.sorted.imp_of_mem ?_
  intro a b ha hb hlt hsame
  obtain ⟨haname, hatrim⟩ := h a ha
  obtain ⟨hbname, hbtrim⟩ := h b hb
  rw [SameName, haname, hbname, hatrim, hbtrim] at hsame
  exact hlt.ne hsame

/-! ## Keys -/

namespace IniSection

variable {sec : IniSection}

/-- Adding a key leaves one that is there. -/
lemma addKey_eq (sec : IniSection) (k : Str) :
    sec.addKey k = ({ sec with keys := sec.keys.ensure (trim k) ⟨trim k, []⟩ }, trim k) := by
  unfold addKey SortedMap.ensure
  dsimp only
  cases sec.keys.find? (trim k) <;> rfl

/-- Dropping a key takes it out of the map, if it is there. -/
lemma dropKey_eq (sec : IniSection) (k : Str) :
    sec.dropKey k = { sec with keys := sec.keys.erase k } := by
  unfold dropKey
  split
  · rfl
  · next h => rw [SortedMap.erase_of_find?_eq_none h]

/-- A key that is added is kept under its name. -/
lemma keys_addKey (h : sec.keys.All KeyKept) (k : Str) : (sec.addKey k).1.keys.All KeyKept := by
  rw [addKey_eq]
  exact h.ensure ⟨rfl, trim_trim k⟩

/-- The keys that are left are kept under their names. -/
lemma keys_dropKey (h : sec.keys.All KeyKept) (k : Str) : (sec.dropKey k).keys.All KeyKept := by
  rw [dropKey_eq]
  exact h.erase k

/-- A value that is set is kept under the name of its key. -/
lemma keys_setKeyValue (h : sec.keys.All KeyKept) (k v : Str) :
    (sec.setKeyValue k v).keys.All KeyKept :=
  (keys_addKey h k).modify fun _ _ _ hkey => hkey

/-- The two ways a key is given another name. -/
lemma setKeyName_cases (sec : IniSection) (key : IniKey) (n : Str) :
    (sec.keys.find? (trim n) = none ∧
      sec.setKeyName key n = (⟨sec.sectionName,
        (sec.keys.erase key.keyName).assign (trim n) { key with keyName := trim n }⟩, true)) ∨
    ((∃ k, sec.keys.find? (trim n) = some k) ∧ sec.setKeyName key n = (sec, false)) := by
  unfold setKeyName
  dsimp only
  split
  · next hn =>
      rw [dropKey_eq]
      exact .inl ⟨hn, rfl⟩
  · next k hn => exact .inr ⟨⟨k, hn⟩, rfl⟩

/-- A key that is renamed is kept under its new name. -/
lemma keys_setKeyName (h : sec.keys.All KeyKept) (key : IniKey) (n : Str) :
    (sec.setKeyName key n).1.keys.All KeyKept := by
  rcases sec.setKeyName_cases key n with ⟨hn, heq⟩ | ⟨-, heq⟩
  · rw [heq]
    refine (h.erase _).assign ?_ ⟨rfl, trim_trim n⟩
    rw [SortedMap.find?_erase, hn, ite_self]
  · rw [heq]
    exact h

/-- What the value of a key is after `SetKeyValue`. -/
lemma getKey_setKeyValue (sec : IniSection) (k k' v : Str) :
    (sec.setKeyValue k v).getKey k' =
      if SameName k' k then some { (sec.getKey k).getD ⟨trim k, []⟩ with value := v }
      else sec.getKey k' := by
  simp only [setKeyValue, addKey_eq, getKey, SortedMap.find?_modify, SortedMap.find?_ensure, SameName]
  by_cases h : foldCase (trim k') = foldCase (trim k)
  · simp only [h, if_true, Option.map_some, IniKey.setValue]
  · simp only [h, if_false]

/-- What the keys are after one was given another name. -/
lemma getKey_setKeyName {k n : Str} {key : IniKey} (h : sec.keys.All KeyKept)
    (hkey : sec.getKey k = some key) (htrue : (sec.setKeyName key n).2 = true) :
    ¬SameName n k ∧ (sec.setKeyName key n).1.sectionName = sec.sectionName ∧
    ∀ k', (sec.setKeyName key n).1.getKey k' =
      if SameName k' n then some { key with keyName := trim n }
      else if SameName k' k then none
      else sec.getKey k' := by
  -- the name that the key has leads to it
  obtain ⟨k₀, hk₀, rfl, -⟩ := h.of_find? hkey
  rcases sec.setKeyName_cases key n with ⟨hn, heq⟩ | ⟨-, heq⟩
  · rw [heq]
    refine ⟨?_, rfl, ?_⟩
    · intro hsame
      rw [getKey, ← sec.keys.find?_congr hsame, hn] at hkey
      cases hkey
    · intro k'
      simp only [getKey, SortedMap.find?_assign, SortedMap.find?_erase, SameName, hk₀]
      congr
  · rw [heq] at htrue
    cases htrue

end IniSection

/-! ## Files -/

namespace IniFile

variable {f g : IniFile}

/-- Adding a section leaves one that is there. -/
lemma addSection_eq (f : IniFile) (s : Str) :
    f.addSection s = (⟨f.sections.ensure (trim s) ⟨trim s, .empty⟩⟩, trim s) := by
  unfold addSection SortedMap.ensure
  dsimp only
  cases f.sections.find? (trim s) <;> rfl

/-- Dropping a section takes it out of the map, if it is there. -/
lemma dropSection_eq (f : IniFile) (s : Str) : f.dropSection s = ⟨f.sections.erase s⟩ := by
  unfold dropSection
  split
  · rfl
  · next h => rw [SortedMap.erase_of_find?_eq_none h]

/-- The two ways a section is given another name. -/
lemma setSectionName_cases (f : IniFile) (sec : IniSection) (n : Str) :
    (f.sections.find? (trim n) = none ∧
      f.setSectionName sec n = (⟨(f.sections.erase sec.sectionName).assign (trim n)
        { sec with sectionName := trim n }⟩, true)) ∨
    ((∃ k, f.sections.find? (trim n) = some k) ∧ f.setSectionName sec n = (f, false)) := by
  unfold setSectionName
  dsimp only
  split
  · next hn =>
      rw [dropSection_eq]
      exact .inl ⟨hn, rfl⟩
  · next k hn => exact .inr ⟨⟨k, hn⟩, rfl⟩

/-! ### What the calls keep -/

/-- A section that is added is kept under its name. -/
lemma kept_addSection (h : f.sections.All SectionKept) (s : Str) :
    (f.addSection s).1.sections.All SectionKept := by
  rw [addSection_eq]
  exact h.ensure ⟨rfl, trim_trim s, SortedMap.all_empty _⟩

/-- The sections that are left are kept under their names. -/
lemma kept_dropSection (h : f.sections.All SectionKept) (s : Str) :
    (f.dropSection s).sections.All SectionKept := by
  rw [dropSection_eq]
  exact h.erase s

/-- A change of the keys of a section. -/
lemma kept_modifySection (h : f.sections.All SectionKept) {p : Str} {g : IniSection → IniSection}
    (hg : ∀ sec, f.sections.find? p = some sec → (g sec).sectionName = sec.sectionName ∧
      (sec.keys.All KeyKept → (g sec).keys.All KeyKept)) :
    (f.modifySection p g).sections.All SectionKept := by
  refine h.modify ?_
  rintro k sec hsec ⟨hname, htrim, hkeys⟩
  obtain ⟨hgname, hgkeys⟩ := hg sec hsec
  exact ⟨hgname.trans hname, htrim, hgkeys hkeys⟩

/-- Setting a value keeps sections and keys under their names. -/
lemma kept_setKeyValue (h : f.sections.All SectionKept) (s k v : Str) :
    (f.setKeyValue s k v).sections.All SectionKept := by
  refine kept_modifySection (kept_addSection h s) ?_
  intro sec _
  refine ⟨?_, fun hkeys => IniSection.keys_setKeyValue hkeys k v⟩
  rw [IniSection.setKeyValue, IniSection.addKey_eq]

/-- Renaming a section keeps sections and keys under their names. -/
lemma kept_renameSection (h : f.sections.All SectionKept) (s n : Str) :
    (f.renameSection s n).1.sections.All SectionKept := by
  unfold renameSection
  split
  · next sec hsec =>
      obtain ⟨k, -, -, -, hkeys⟩ := h.of_find? hsec
      rcases f.setSectionName_cases sec n with ⟨hn, heq⟩ | ⟨-, heq⟩
      · rw [heq]
        refine (h.erase _).assign ?_ ⟨rfl, trim_trim n, hkeys⟩
        rw [SortedMap.find?_erase, hn, ite_self]
      · rw [heq]
        exact h
  · exact h

/-- Renaming a key keeps sections and keys under their names. -/
lemma kept_renameKey (h : f.sections.All SectionKept) (s k n : Str) :
    (f.renameKey s k n).1.sections.All SectionKept := by
  unfold renameKey
  split
  · next sec hsec =>
      split
      · next key hkey =>
          refine kept_modifySection h ?_
          intro sec' hsec'
          rw [getSection, hsec'] at hsec
          cases hsec
          refine ⟨?_, fun hkeys => IniSection.keys_setKeyName hkeys key n⟩
          rcases sec.setKeyName_cases key n with ⟨-, heq⟩ | ⟨-, heq⟩ <;> rw [heq]
      · exact h
  · exact h

/-- Every call keeps the agreement of the names. -/
lemma kept_step {e : Op} (h : f.sections.All SectionKept) (hst : f.step e = some g) :
    g.sections.All SectionKept := by
  cases e with
  | addSection s =>
      cases hst
      exact kept_addSection h s
  | removeSection s =>
      cases hst
      exact kept_dropSection h _
  | removeSectionPtr p =>
      obtain ⟨sec, -, rfl⟩ := Option.map_eq_some_iff.mp hst
      exact kept_dropSection h _
  | removeAllSections =>
      cases hst
      exact SortedMap.all_empty _
  | setKeyValue s k v =>
      cases hst
      exact kept_setKeyValue h s k v
  | addKey p k =>
      obtain ⟨_, -, rfl⟩ := Option.map_eq_some_iff.mp hst
      refine kept_modifySection h ?_
      intro sec _
      refine ⟨?_, fun hkeys => IniSection.keys_addKey hkeys k⟩
      rw [IniSection.addKey_eq]
  | removeKey p k =>
      obtain ⟨_, -, rfl⟩ := Option.map_eq_some_iff.mp hst
      refine kept_modifySection h ?_
      intro sec _
      refine ⟨?_, fun hkeys => IniSection.keys_dropKey hkeys _⟩
      rw [IniSection.removeKey, IniSection.dropKey_eq]
  | removeKeyPtr p k =>
      obtain ⟨key, -, rfl⟩ := Option.map_eq_some_iff.mp hst
      refine kept_modifySection h ?_
      intro sec _
      refine ⟨?_, fun hkeys => IniSection.keys_dropKey hkeys _⟩
      rw [IniSection.removeKeyPtr, IniSection.dropKey_eq]
  | renameSection s n =>
      cases hst
      exact kept_renameSection h s n
  | renameKey s k n =>
      cases hst
      exact kept_renameKey h s k n

/-- Every section and key kept under its name is all there is to keep. -/
lemma wellKept_of_all (h : f.sections.All SectionKept) : f.WellKept where
  entries := h
  sections := pairwise_not_sameName fun e he => ⟨(h e he).1, (h e he).2.1⟩
  keys := fun e he => pairwise_not_sameName (h e he).2.2

/-! ### What the calls do to lookups -/

/-- The section a value is set in, made if it is not there; the other sections are as they were. -/
lemma getSection_setKeyValue (f : IniFile) (s s' k v : Str) :
    (f.setKeyValue s k v).getSection s' =
      if SameName s' s then
        some (((f.getSection s).getD ⟨trim s, .empty⟩).setKeyValue k v)
      else f.getSection s' := by
  simp only [setKeyValue, addSection_eq, modifySection, getSection, SortedMap.find?_modify,
    SortedMap.find?_ensure, SameName]
  by_cases h : foldCase (trim s') = foldCase (trim s)
  · simp only [h, if_true, Option.map_some]
  · simp only [h, if_false]

/-- Setting a value. -/
lemma setLaw (f : IniFile) (s k v : Str) : f.SetLaw s k v := by
  refine ⟨?_, ?_, ?_⟩
  · intro s' k' hs hk
    rw [getKeyValue, getSection_setKeyValue, if_pos hs]
    simp only [IniSection.getKey_setKeyValue, if_pos hk]
  · intro s' k' hne
    rw [getKey, getKey, getSection_setKeyValue]
    by_cases hs : SameName s' s
    · rw [if_pos hs, Option.bind_some, IniSection.getKey_setKeyValue,
        if_neg fun hk => hne ⟨hs, hk⟩]
      have hcongr : f.getSection s' = f.getSection s := f.sections.find?_congr hs
      rw [hcongr]
      cases f.getSection s with
      | none => rfl
      | some sec => rfl
    · rw [if_neg hs]
  · intro s' hs
    rw [getSection_setKeyValue, if_neg hs]

/-- A renaming of a section that is refused changes nothing. -/
lemma RenameSectionLaw.of_refused {s n : Str} (h : f.renameSection s n = (f, false)) :
    f.RenameSectionLaw s n := by
  refine ⟨?_, ?_⟩
  · intro ht
    rw [h] at ht
    cases ht
  · intro _
    rw [h]

/-- A renaming of a key that is refused changes nothing. -/
lemma RenameKeyLaw.of_refused {s k n : Str} (h : f.renameKey s k n = (f, false)) :
    f.RenameKeyLaw s k n := by
  refine ⟨?_, ?_⟩
  · intro ht
    rw [h] at ht
    cases ht
  · intro _
    rw [h]

/-- Renaming a section. -/
lemma renameSectionLaw (h : f.sections.All SectionKept) (s n : Str) : f.RenameSectionLaw s n := by
  cases hsec : f.getSection s with
  | none => exact .of_refused (by rw [renameSection, hsec])
  | some sec =>
      have heq : f.renameSection s n = f.setSectionName sec n := by rw [renameSection, hsec]
      -- the name that the section has leads to it
      obtain ⟨k₀, hk₀, rfl, -⟩ := h.of_find? hsec
      rcases f.setSectionName_cases sec n with ⟨hn, hset⟩ | ⟨-, hset⟩
      · rw [hset] at heq
        refine ⟨?_, ?_⟩
        · intro _
          refine ⟨sec, hsec, ?_, ?_⟩
          · intro hsame
            rw [getSection, ← f.sections.find?_congr hsame, hn] at hsec
            cases hsec
          · intro s'
            rw [heq]
            simp only [getSection, SortedMap.find?_assign, SortedMap.find?_erase, SameName, hk₀]
            congr
        · intro hf
          rw [heq] at hf
          cases hf
      · exact .of_refused (heq.trans hset)

/-- Renaming a key. -/
lemma renameKeyLaw (h : f.sections.All SectionKept) (s k n : Str) : f.RenameKeyLaw s k n := by
  cases hsec : f.getSection s with
  | none => exact .of_refused (by rw [renameKey, hsec])
  | some sec =>
      cases hkey : sec.getKey k with
      | none =>
          refine .of_refused ?_
          rw [renameKey, hsec]
          simp only [hkey]
      | some key =>
          have heq : f.renameKey s k n =
              (f.modifySection (trim s) fun _ => (sec.setKeyName key n).1,
                (sec.setKeyName key n).2) := by
            rw [renameKey, hsec]
            simp only [hkey]
          obtain ⟨-, -, -, -, hkeys⟩ := h.of_find? hsec
          refine ⟨?_, ?_⟩
          · intro ht
            rw [heq] at ht
            obtain ⟨hne, hname, hgets⟩ := IniSection.getKey_setKeyName hkeys hkey ht
            refine ⟨sec, _, key, hsec, hkey, hne, hname, hgets, ?_⟩
            intro s'
            rw [heq]
            simp only [modifySection, getSection, SortedMap.find?_modify, SameName] at hsec ⊢
            by_cases hsame : foldCase (trim s') = foldCase (trim s)
            · simp only [hsame, if_true, f.sections.find?_congr hsame, hsec, Option.map_some]
            · simp only [hsame, if_false]
          · intro hf
            rw [heq] at hf ⊢
            rcases sec.setKeyName_cases key n with ⟨-, hset⟩ | ⟨-, hset⟩
            · rw [hset] at hf
              cases hf
            · rw [hset]
              exact IniFile.ext (SortedMap.modify_const hsec)

end IniFile

/-! ## Runs -/

/-- **The laws of the store.** After every sequence of calls, the names in the maps and in the objects
agree, trimmed and distinct; a value that is set is found, and a rename moves all of its content or does
nothing; and nothing else changes. -/
theorem store_laws (es : List IniFile.Op) (f : IniFile) (hrun : iniFile.run es = some f) :
    f.WellKept ∧ (∀ s k v, f.SetLaw s k v) ∧ (∀ s n, f.RenameSectionLaw s n) ∧
      ∀ s k n, f.RenameKeyLaw s k n := by
  have h : f.sections.All SectionKept :=
    iniFile.run_invariant (I := fun f => f.sections.All SectionKept) (SortedMap.all_empty _)
      (fun _ _ _ hf hst => IniFile.kept_step hf hst) hrun
  exact ⟨IniFile.wellKept_of_all h, f.setLaw, IniFile.renameSectionLaw h, IniFile.renameKeyLaw h⟩

/-- A value set in a section ` Net`, whose key is then renamed and whose section is renamed. -/
theorem store_laws_renamed :
    ∃ f, iniFile.run [.setKeyValue " Net".toList "port".toList "80".toList,
        .renameKey "NET".toList "Port ".toList "p".toList,
        .renameSection "net".toList "host".toList] = some f ∧
      f.getKeyValue "HOST".toList "P".toList = "80".toList ∧
      f.WellKept ∧ (∀ s k v, f.SetLaw s k v) ∧ (∀ s n, f.RenameSectionLaw s n) ∧
      ∀ s k n, f.RenameKeyLaw s k n :=
  ⟨_, rfl, by decide, store_laws [.setKeyValue " Net".toList "port".toList "80".toList,
    .renameKey "NET".toList "Port ".toList "p".toList,
    .renameSection "net".toList "host".toList] _ rfl⟩

/-- Letters behind a NUL do not count: a value set in section `a\0b` is read in section `a\0c`, which
has another name, also up to case. -/
theorem not_unchanged_after_nul :
    ¬∀ (es : List IniFile.Op) (f : IniFile) (s k v s' k' : Str), iniFile.run es = some f →
      ¬(UpToCase s' s ∧ UpToCase k' k) →
      (f.setKeyValue s k v).getKeyValue s' k' = f.getKeyValue s' k' := by
  intro h
  have heq := h [] .empty ['a', '\x00', 'b'] ['k'] ['v'] ['a', '\x00', 'c'] ['k'] rfl (by decide)
  exact absurd heq (by decide)

end CocInside.System
