import CocInside.Lib.Runs

/-!
# `Path`

A path is a list of directories with a flag that says whether it starts at the root; `pushDirectory`
lets `..` take the directory before it away, and at the root, nothing.

* `Path`: the class, and its member functions that edit the list or the flag.
* `Path.parseLoop`, `Path.parseUnix`, `Path.parseWindows`: the parsers, with what `home()` returns as a parameter.
* `Path.Parsed`: a call of a parser returns, throws in the middle, or calls itself without end.
* `Path.Ctor`, `Path.Method`, `Path.Call`: constructors and member functions, with the other objects they take.
* `paths`: any calls on any number of objects, on either platform.

The VMS style, and the style that is guessed from the text, are not part of the model.

Source: `System/Path.h`, `System/Path.cpp`.
-/

namespace CocInside.System

open CocInside.Lib

/-- The directory `..`. -/
def dotdot : List Char := ['.', '.']

/-- Source: `Path.h`, `Path`. -/
structure Path where
  node : List Char
  device : List Char
  name : List Char
  version : List Char
  dirs : List (List Char)
  absolute : Bool
deriving DecidableEq

namespace Path

/-- An empty path; without a flag given, what `clear` leaves.
Source: `Path.cpp`, `Path::Path(bool)`, `Path::clear`. -/
def cleared (absolute : Bool := false) : Path := ⟨[], [], [], [], [], absolute⟩

/-! ## Member functions -/

/-- Source: `Path.cpp`, `Path::pushDirectory`. -/
def pushDirectory (p : Path) (dir : List Char) : Path :=
  if dir ≠ [] ∧ dir ≠ ['.'] then
    if dir = dotdot then
      if p.dirs ≠ [] ∧ p.dirs.getLast? ≠ some dotdot then { p with dirs := p.dirs.dropLast }
      else if !p.absolute then { p with dirs := p.dirs ++ [dir] }
      else p
    else { p with dirs := p.dirs ++ [dir] }
  else p

/-- Source: `Path.cpp`, `Path::makeDirectory`. -/
def makeDirectory (p : Path) : Path := { p.pushDirectory p.name with name := [], version := [] }

/-- Source: `Path.cpp`, `Path::makeFile`. -/
def makeFile (p : Path) : Path :=
  if p.dirs ≠ [] ∧ p.name = [] then
    { p with name := p.dirs.getLast?.getD [], dirs := p.dirs.dropLast }
  else p

/-- Source: `Path.cpp`, `Path::makeParent`. -/
def makeParent (p : Path) : Path :=
  if p.name = [] then
    if p.dirs = [] then
      if !p.absolute then { p with dirs := p.dirs ++ [dotdot] } else p
    else if p.dirs.getLast? = some dotdot then { p with dirs := p.dirs ++ [dotdot] }
    else { p with dirs := p.dirs.dropLast }
  else { p with name := [], version := [] }

/-- Source: `Path.cpp`, `Path::makeAbsolute(const Path&)`. -/
def makeAbsolute (p base : Path) : Path :=
  if !p.absolute then
    let tmp := p.dirs.foldl pushDirectory base.makeDirectory
    { p with node := tmp.node, device := tmp.device, dirs := tmp.dirs, absolute := base.absolute }
  else p

/-- Source: `Path.cpp`, `Path::append`. -/
def append (p path : Path) : Path :=
  let p := p.makeDirectory
  { p with dirs := p.dirs ++ path.dirs, name := path.name, version := path.version }

/-- Source: `Path.cpp`, `Path::resolve`. -/
def resolve (p path : Path) : Path :=
  if path.absolute then path
  else { path.dirs.foldl pushDirectory p with name := path.name }

/-- The loop of `resolve` on the object itself: the list grows and shrinks while it is read, and the
loop may not end. `none` after so many turns.
Source: `Path.cpp`, `Path::resolve`. -/
def resolveSelfLoop : ℕ → ℕ → Path → Option Path
  | turns, i, p =>
      match p.dirs[i]? with
      | none => some p
      | some dir =>
          match turns with
          | 0 => none
          | turns + 1 => resolveSelfLoop turns (i + 1) (p.pushDirectory dir)

/-- Source: `Path.cpp`, `Path::setNode`. -/
def setNode (p : Path) (node : List Char) : Path :=
  { p with node := node, absolute := p.absolute || node ≠ [] }

/-- Source: `Path.cpp`, `Path::setDevice`. -/
def setDevice (p : Path) (device : List Char) : Path :=
  { p with device := device, absolute := p.absolute || device ≠ [] }

/-! ## Parsers -/

/-- How a call of a parser ends. An exception leaves the object as it is at that moment. -/
inductive Parsed where
  | returns (p : Path)
  | throws (p : Path)
  | diverges
deriving DecidableEq

/-- The loop of both parsers: elements up to a separator are directories, the last one is the name.
`name` is the beginning of the element that is read.
Source: `Path.cpp`, `Path::parseUnix`, `Path::parseWindows`. -/
def parseLoop (isSeparator : Char → Bool) (element : Path → List Char → Path) (p : Path)
    (name : List Char) : List Char → Path
  | [] => { p with name := name }
  | c :: it =>
      if isSeparator c then parseLoop isSeparator element (element p name) [] it
      else parseLoop isSeparator element p (name ++ [c]) it

/-- A directory in `parseUnix`; before the first one, a name that ends in a colon is a device.
Source: `Path.cpp`, `Path::parseUnix`. -/
def unixElement (p : Path) (name : List Char) : Path :=
  if p.dirs = [] then
    if name.getLast? = some ':' then { p with device := name.dropLast }
    else p.pushDirectory name
  else p.pushDirectory name

/-- The loop of `parseUnix`. -/
def unixLoop (p : Path) (it : List Char) : Path := parseLoop (· = '/') unixElement p [] it

/-- Does the path begin with the home directory? -/
def beginsAtHome : List Char → Bool
  | '~' :: it => it = [] ∨ it.head? = some '/'
  | _ => false

/-- `cwd` is how `Path cwd(home())` ends.
Source: `Path.cpp`, `Path::parseUnix`. -/
def parseUnix (cwd : Parsed) (path : List Char) : Parsed :=
  if path.head? = some '/' then .returns (unixLoop (cleared true) path.tail)
  else if beginsAtHome path then
    match cwd with
    | .returns cwd => .returns (unixLoop { cleared true with dirs := cwd.dirs } path.tail)
    | .throws _ => .throws cleared
    | .diverges => .diverges
  else .returns (unixLoop cleared path)

/-- The separators of `parseWindows`. -/
def isWindowsSeparator (c : Char) : Bool := c = '\\' ∨ c = '/'

/-- `parseWindows` up to its loop: the path so far and the rest of the text, or the exception.
Source: `Path.cpp`, `Path::parseWindows`. -/
def windowsRoot (path : List Char) : Except Path (Path × List Char) :=
  let absolute := path.head?.any isWindowsSeparator
  let p := cleared absolute
  let it := if absolute then path.tail else path
  match it with
  | [] => .ok (p, [])
  | d :: it₁ =>
      if absolute && isWindowsSeparator d then
        .ok ({ p with node := it₁.takeWhile (!isWindowsSeparator ·) },
          (it₁.dropWhile (!isWindowsSeparator ·)).tail)
      else if it₁.head? = some ':' then
        if absolute || !d.isAlpha then .error p
        else
          let p := { p with absolute := true, device := [d] }
          let it₂ := it₁.tail
          if it₂.head?.any isWindowsSeparator then .ok (p, it₂.tail) else .error p
      else .ok (p, it)

/-- Source: `Path.cpp`, `Path::parseWindows`. -/
def parseWindows (path : List Char) : Parsed :=
  match windowsRoot path with
  | .error p => .throws p
  | .ok (p, it) =>
      let p := parseLoop isWindowsSeparator pushDirectory p [] it
      .returns (if p.node ≠ [] ∧ p.dirs = [] ∧ p.name ≠ [] then p.makeDirectory else p)

/-- The platform a build is for, and what `home()` and `current()` return at the time of a call; `none`
if they throw. -/
structure Env where
  windows : Bool
  home : Option (List Char)
  current : Option (List Char)
deriving DecidableEq

/-- `Path cwd(home())`. On Unix, a home directory that itself begins with `~` asks for `home()` again,
and so on.
Source: `Path.cpp`, `Path::parseUnix`. -/
def homePath (env : Env) : Parsed :=
  match env.home with
  | none => .throws cleared
  | some home => if env.windows then parseWindows home else parseUnix .diverges home

/-- The styles of the model. -/
inductive Style where
  | unix
  | windows
  | native
deriving DecidableEq

/-- Is the text read by `parseUnix`? -/
def Style.isUnix (env : Env) : Style → Bool
  | .unix => true
  | .windows => false
  | .native => !env.windows

/-- Source: `Path.cpp`, `Path::assign(const std::string&, Style)`. -/
def assign (env : Env) (style : Style) (path : List Char) : Parsed :=
  if style.isUnix env then parseUnix (homePath env) path else parseWindows path

/-- The path of the working directory, that `makeAbsolute()` takes as the base. -/
def currentPath (env : Env) : Parsed :=
  match env.current with
  | none => .throws cleared
  | some current => assign env .native current

/-! ## Calls -/

/-- The constructors; other objects are given by their numbers. -/
inductive Ctor where
  | empty (absolute : Bool)
  | ofString (path : List Char) (style : Style)
  | copy (j : ℕ)
  | ofFileName (parent : ℕ) (fileName : List Char)
  | ofRelative (parent relative : ℕ)
deriving DecidableEq

/-- The member functions; `makeAbsoluteHere` is the one without an argument. -/
inductive Method where
  | parse (path : List Char) (style : Style)
  | makeDirectory
  | makeFile
  | makeParent
  | makeAbsoluteHere
  | makeAbsolute (base : ℕ)
  | append (path : ℕ)
  | resolve (path : ℕ)
  | resolveSelf (turns : ℕ)
  | pushDirectory (dir : List Char)
  | setNode (node : List Char)
  | setDevice (device : List Char)
deriving DecidableEq

/-- A call and what the system says at its time. -/
inductive Call where
  | make (env : Env) (c : Ctor)
  | on (env : Env) (i : ℕ) (m : Method)
deriving DecidableEq

/-- The object that a constructor makes, if it does not throw; `none` if it does not return. -/
def Ctor.run (env : Env) (ps : List Path) : Ctor → Option (List Path)
  | .empty absolute => some [.cleared absolute]
  | .ofString path style =>
      match assign env style path with
      | .returns p => some [p]
      | .throws _ => some []
      | .diverges => none
  | .copy j => (ps[j]?).map fun p => [p]
  | .ofFileName parent fileName =>
      (ps[parent]?).map fun p => [{ p.makeDirectory with name := fileName }]
  | .ofRelative parent relative =>
      (ps[parent]?).bind fun p => (ps[relative]?).map fun q => [p.resolve q]

/-- What a member function makes of object `i`; `none` if it does not return. An object cannot be
appended to itself: `insert` takes no iterators of its own vector. -/
def Method.run (env : Env) (ps : List Path) (i : ℕ) (p : Path) : Method → Option Path
  | .parse path style =>
      match assign env style path with
      | .returns q => some q
      | .throws q => some q
      | .diverges => none
  | .makeDirectory => some p.makeDirectory
  | .makeFile => some p.makeFile
  | .makeParent => some p.makeParent
  | .makeAbsoluteHere =>
      match currentPath env with
      | .returns base => some (p.makeAbsolute base)
      | .throws _ => some p
      | .diverges => none
  | .makeAbsolute base => (ps[base]?).map p.makeAbsolute
  | .append path => if path = i then none else (ps[path]?).map p.append
  | .resolve path => if path = i then none else (ps[path]?).map p.resolve
  | .resolveSelf turns => if p.absolute then some p else p.resolveSelfLoop turns 0
  | .pushDirectory dir => some (p.pushDirectory dir)
  | .setNode node => some (p.setNode node)
  | .setDevice device => some (p.setDevice device)

/-- A call. -/
def Call.run (ps : List Path) : Call → Option (List Path)
  | .make env c => (c.run env ps).map (ps ++ ·)
  | .on env i m => (ps[i]?).bind fun p => (m.run env ps i p).map (ps.set i ·)

end Path

/-- Any number of objects, none at first. -/
def paths : Machine (List Path) Path.Call where
  init := []
  step := Path.Call.run

end CocInside.System
