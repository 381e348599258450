import CocInside.Lib.SortedMap
import CocInside.Lib.Runs
import Mathlib.Data.Char
import Mathlib.Data.List.Lex
import Mathlib.Data.List.DropRight

/-!
# `IniFileA`

Sections and keys in two levels of `std::map`, compared by `ci_less_a`. The maps own their objects, and
an object keeps its name a second time.

* `trim`, `lTrim`, `rTrim`: the helpers on strings.
* `foldCase`: what `ci_less_a` compares; it sees no further than the first NUL.
* `IniKey`, `IniSection`, `IniFile` and their member functions. A pointer that a function returns is
  given by a name that the map finds it under; one that a function takes, by the object it points to.
* `IniFile.Op`, `iniFile`: the calls that change a file, and any sequence of them.

`_INIFILE_DEBUG` is not defined, and the destructors only free memory.

Source: `System/IniFile.h`, `System/IniFile.cpp`.
-/

namespace CocInside.System

open CocInside.Lib

/-- `std::string`. -/
abbrev Str := List Char

/-! ## Strings -/

/-- The blanks that the trims remove by default. -/
def blanks : Str := [' ', '\t']

/-- Source: `IniFile.cpp`, `RTrim`. -/
def rTrim (str : Str) (chars : Str := blanks) : Str := str.rdropWhile (· ∈ chars)

/-- Source: `IniFile.cpp`, `LTrim`. -/
def lTrim (str : Str) (chars : Str := blanks) : Str := str.dropWhile (· ∈ chars)

/-- Source: `IniFile.cpp`, `Trim`. -/
def trim (str : Str) (chars : Str := blanks) : Str := lTrim (rTrim str chars) chars

/-- The lower-case characters of `s.c_str()`; `strcasecmp` orders them lexicographically.
Source: `IniFile.h`, `ci_less_a`. -/
def foldCase (s : Str) : Str := (s.takeWhile (· ≠ '\x00')).map Char.toLower

/-! ## Keys and sections -/

/-- Source: `IniFile.h`, `IniKeyA`. -/
structure IniKey where
  keyName : Str
  value : Str
deriving DecidableEq

/-- Source: `IniFile.h`, `KeyMapA`. -/
abbrev KeyMap := SortedMap foldCase IniKey

/-- Source: `IniFile.h`, `IniSectionA`. -/
@[ext] structure IniSection where
  sectionName : Str
  keys : KeyMap

/-- Source: `IniFile.h`, `SecMapA`. -/
abbrev SecMap := SortedMap foldCase IniSection

/-- Source: `IniFile.h`, `IniFileA`. -/
@[ext] structure IniFile where
  sections : SecMap

/-- Source: `IniFile.cpp`, `IniKeyA::SetValue`. -/
def IniKey.setValue (key : IniKey) (sValue : Str) : IniKey := { key with value := sValue }

namespace IniSection

/-- Source: `IniFile.cpp`, `IniSectionA::GetKey`. -/
def getKey (sec : IniSection) (sKeyName : Str) : Option IniKey := sec.keys.find? (trim sKeyName)

/-- The section, and the key that is returned.
Source: `IniFile.cpp`, `IniSectionA::AddKey`. -/
def addKey (sec : IniSection) (sKeyName : Str) : IniSection × Str :=
  let sKeyName := trim sKeyName
  match sec.keys.find? sKeyName with
  | none => ({ sec with keys := sec.keys.assign sKeyName ⟨sKeyName, []⟩ }, sKeyName)
  | some _ => (sec, sKeyName)

/-- Removal of the key that `sKey` finds, if any. -/
def dropKey (sec : IniSection) (sKey : Str) : IniSection :=
  match sec.keys.find? sKey with
  | some _ => { sec with keys := sec.keys.erase sKey }
  | none => sec

/-- Source: `IniFile.cpp`, `IniSectionA::RemoveKey( std::string )`. -/
def removeKey (sec : IniSection) (sKey : Str) : IniSection := sec.dropKey (trim sKey)

/-- Source: `IniFile.cpp`, `IniSectionA::RemoveKey( IniKeyA* )`. -/
def removeKeyPtr (sec : IniSection) (pKey : IniKey) : IniSection := sec.dropKey pKey.keyName

/-- A value set through the pointer that `AddKey` returns.
Source: `IniFile.cpp`, `IniSectionA::SetKeyValue`. -/
def setKeyValue (sec : IniSection) (sKey sValue : Str) : IniSection :=
  let added := sec.addKey sKey
  { added.1 with keys := added.1.keys.modify added.2 (·.setValue sValue) }

/-- The section of the key, and what is returned.
Source: `IniFile.cpp`, `IniKeyA::SetKeyName`. -/
def setKeyName (sec : IniSection) (key : IniKey) (sKeyName : Str) : IniSection × Bool :=
  let sKeyName := trim sKeyName
  match sec.keys.find? sKeyName with
  | none =>
      let keys := (sec.dropKey key.keyName).keys
      ({ sec with keys := keys.assign sKeyName { key with keyName := sKeyName } }, true)
  | some _ => (sec, false)

end IniSection

/-! ## Files -/

namespace IniFile

/-- A file right after construction. -/
def empty : IniFile := ⟨.empty⟩

/-- Source: `IniFile.cpp`, `IniFileA::GetSection`. -/
def getSection (f : IniFile) (sSection : Str) : Option IniSection :=
  f.sections.find? (trim sSection)

/-- The file, and the section that is returned.
Source: `IniFile.cpp`, `IniFileA::AddSection`. -/
def addSection (f : IniFile) (sSection : Str) : IniFile × Str :=
  let sSection := trim sSection
  match f.sections.find? sSection with
  | none => (⟨f.sections.assign sSection ⟨sSection, .empty⟩⟩, sSection)
  | some _ => (f, sSection)

/-- A change of the section behind a pointer. -/
def modifySection (f : IniFile) (pSec : Str) (g : IniSection → IniSection) : IniFile :=
  ⟨f.sections.modify pSec g⟩

/-- The key that the two names lead to. -/
def getKey (f : IniFile) (sSection sKey : Str) : Option IniKey :=
  (f.getSection sSection).bind (·.getKey sKey)

/-- Source: `IniFile.cpp`, `IniFileA::GetKeyValue`. -/
def getKeyValue (f : IniFile) (sSection sKey : Str) : Str :=
  match f.getSection sSection with
  | none => []
  | some sec =>
      match sec.getKey sKey with
      | none => []
      | some key => key.value

/-- Source: `IniFile.cpp`, `IniFileA::SetKeyValue`. -/
def setKeyValue (f : IniFile) (sSection sKey sValue : Str) : IniFile :=
  let added := f.addSection sSection
  added.1.modifySection added.2 (·.setKeyValue sKey sValue)

/-- Removal of the section that `sSection` finds, if any. -/
def dropSection (f : IniFile) (sSection : Str) : IniFile :=
  match f.sections.find? sSection with
  | some _ => ⟨f.sections.erase sSection⟩
  | none => f

/-- Source: `IniFile.cpp`, `IniFileA::RemoveSection( std::string )`. -/
def removeSection (f : IniFile) (sSection : Str) : IniFile := f.dropSection (trim sSection)

/-- Source: `IniFile.cpp`, `IniFileA::RemoveSection( IniSectionA* )`. -/
def removeSectionPtr (f : IniFile) (pSection : IniSection) : IniFile :=
  f.dropSection pSection.sectionName

/-- Source: `IniFile.cpp`, `IniFileA::RemoveAllSections`. -/
def removeAllSections (_ : IniFile) : IniFile := ⟨.empty⟩

/-- The file of the section, and what is returned.
Source: `IniFile.cpp`, `IniSectionA::SetSectionName`. -/
def setSectionName (f : IniFile) (sec : IniSection) (sSectionName : Str) : IniFile × Bool :=
  let sSectionName := trim sSectionName
  match f.sections.find? sSectionName with
  | none =>
      let sections := (f.dropSection sec.sectionName).sections
      (⟨sections.assign sSectionName { sec with sectionName := sSectionName }⟩, true)
  | some _ => (f, false)

/-- Source: `IniFile.cpp`, `IniFileA::RenameSection`. -/
def renameSection (f : IniFile) (sSectionName sNewSectionName : Str) : IniFile × Bool :=
  match f.getSection sSectionName with
  | some sec => f.setSectionName sec sNewSectionName
  | none => (f, false)

/-- Source: `IniFile.cpp`, `IniFileA::RenameKey`. -/
def renameKey (f : IniFile) (sSectionName sKeyName sNewKeyName : Str) : IniFile × Bool :=
  match f.getSection sSectionName with
  | some sec =>
      match sec.getKey sKeyName with
      | some key =>
          let renamed := sec.setKeyName key sNewKeyName
          (f.modifySection (trim sSectionName) fun _ => renamed.1, renamed.2)
      | none => (f, false)
  | none => (f, false)

/-! ## Sequences of calls -/

/-- A call that may change a file. Sections and keys that a call takes by pointer are those that
`GetSection` and `GetKey` return for the names given. -/
inductive Op where
  | addSection (sSection : Str)
  | removeSection (sSection : Str)
  | removeSectionPtr (pSection : Str)
  | removeAllSections
  | setKeyValue (sSection sKey sValue : Str)
  | addKey (pSection sKey : Str)
  | removeKey (pSection sKey : Str)
  | removeKeyPtr (pSection pKey : Str)
  | renameSection (sSectionName sNewSectionName : Str)
  | renameKey (sSectionName sKeyName sNewKeyName : Str)
deriving DecidableEq

/-- A call; none through a null pointer. -/
def step (f : IniFile) : Op → Option IniFile
  | .addSection sSection => some (f.addSection sSection).1
  | .removeSection sSection => some (f.removeSection sSection)
  | .removeSectionPtr pSection => (f.getSection pSection).map f.removeSectionPtr
  | .removeAllSections => some f.removeAllSections
  | .setKeyValue sSection sKey sValue => some (f.setKeyValue sSection sKey sValue)
  | .addKey pSection sKey =>
      (f.getSection pSection).map fun _ =>
        f.modifySection (trim pSection) fun sec => (sec.addKey sKey).1
  | .removeKey pSection sKey =>
      (f.getSection pSection).map fun _ =>
        f.modifySection (trim pSection) (·.removeKey sKey)
  | .removeKeyPtr pSection pKey =>
      (f.getKey pSection pKey).map fun key =>
        f.modifySection (trim pSection) (·.removeKeyPtr key)
  | .renameSection sSectionName sNewSectionName =>
      some (f.renameSection sSectionName sNewSectionName).1
  | .renameKey sSectionName sKeyName sNewKeyName =>
      some (f.renameKey sSectionName sKeyName sNewKeyName).1

end IniFile

/-- A file, from its construction on. -/
def iniFile : Machine IniFile IniFile.Op where
  init := .empty
  step := IniFile.step

end CocInside.System
