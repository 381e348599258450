import CocInside.Lib.Split
import Mathlib.Data.List.Basic

/-!
# `PathImpl::expandImpl`

The expansion of environment variables on Unix, one pass over the text. A reference is `${NAME}` or
`$NAME`; in the second form the scan takes digits and underscores only, so a name stops at its first
letter, and what is left of it is copied.

* `PathImpl.Environ`, `PathImpl.scan`, `PathImpl.expandLoop`, `PathImpl.expandImpl`: the code.
* `Template`: literals with references between them, written as a text (`Template.text`) and as what
  is meant by it (`Template.meaning`).
* `Reference.shown`, `expandLoop_references`: what the loop makes of any such text.
* `expandImpl_text_iff`: for which texts that is what is meant, whatever the environment is.

Source: `System/Unix/PathImpl.cpp`.
-/

namespace CocInside.System

open CocInside.Lib

namespace PathImpl

/-! ## The code -/

/-- The environment of the process. Names and values are C strings. -/
structure Environ where
  value : List Char → Option (List Char)
  name_nul : ∀ {name text}, value name = some text → '\x00' ∉ name
  text_nul : ∀ {name text}, value name = some text → '\x00' ∉ text

/-- `getenv(var.c_str())`: the name ends at the first NUL of the string. -/
def Environ.getenv (environ : Environ) (var : List Char) : Option (List Char) :=
  environ.value (var.takeWhile (· ≠ '\x00'))

/-- `(*it >= '0' && *it <= '9') || *it == '_'`. -/
def isScanned (c : Char) : Bool := ('0' ≤ c && c ≤ '9') || c = '_'

/-- What is read behind a `$`: the name and the rest of the text.
Source: `Unix/PathImpl.cpp`, `PathImpl::expandImpl`. -/
def scan (it : List Char) : List Char × List Char :=
  if it.head? = some '{' then
    (it.tail.takeWhile (· ≠ '}'), (it.tail.dropWhile (· ≠ '}')).tail)
  else (it.takeWhile isScanned, it.dropWhile isScanned)

/-- The loop, from what stands between `it` and `end`; `none` if that many turns are not enough.
Source: `Unix/PathImpl.cpp`, `PathImpl::expandImpl`. -/
def expandLoop (environ : Environ) : ℕ → List Char → List Char → Option (List Char)
  | _, [], result => some result
  | 0, _ :: _, _ => none
  | turns + 1, c :: it, result =>
      if c = '$' then
        expandLoop environ turns (scan it).2 (result ++ (environ.getenv (scan it).1).getD [])
      else expandLoop environ turns it (result ++ [c])

/-- `home` is what `homeImpl()` returns.
Source: `Unix/PathImpl.cpp`, `PathImpl::expandImpl`. -/
def expandImpl (environ : Environ) (home : List Char) (turns : ℕ) (path : List Char) :
    Option (List Char) :=
  if path.head? = some '~' then
    if path.tail.head? = some '/' then expandLoop environ turns path.tail.tail home
    else expandLoop environ turns path.tail ['~']
  else expandLoop environ turns path []

/-! ## Texts with references -/

/-- A letter, a digit or an underscore. -/
def isNameChar (c : Char) : Bool := c.isAlpha || c.isDigit || c = '_'

/-- A reference, in braces or not. -/
inductive Reference where
  | braced (name : List Char) (closed : '}' ∉ name)
  | bare (name : List Char) (chars : ∀ c ∈ name, isNameChar c = true)

namespace Reference

/-- The name that is referred to. -/
def name : Reference → List Char
  | braced name _ => name
  | bare name _ => name

/-- The reference as it is written. -/
def text : Reference → List Char
  | braced name _ => '$' :: '{' :: name ++ ['}']
  | bare name _ => '$' :: name

/-- May this literal stand behind the reference? A name without braces has to end there, and a lone
`$` must not look like `${`. -/
def Ends (literal : List Char) : Reference → Prop
  | braced _ _ => True
  | bare name _ =>
      (∀ c, literal.head? = some c → isNameChar c = false) ∧
        (name = [] → literal.head? ≠ some '{')

/-- The value of the name, or nothing. -/
def meaning (environ : Environ) (r : Reference) : List Char := (environ.value r.name).getD []

end Reference

/-- A reference and the literal behind it. -/
structure Piece where
  ref : Reference
  literal : List Char
  dollar : '$' ∉ literal
  ends : ref.Ends literal

/-- Literals with references between them. The first literal does not begin with `~`. -/
structure Template where
  first : List Char
  dollar : '$' ∉ first
  tilde : first.head? ≠ some '~'
  pieces : List Piece

/-- The pieces as they are written. -/
def piecesText (pieces : List Piece) : List Char :=
  pieces.flatMap fun p => p.ref.text ++ p.literal

namespace Template

/-- The text. -/
def text (t : Template) : List Char := t.first ++ piecesText t.pieces

/-- The text with the values in the place of the references. -/
def meaning (environ : Environ) (t : Template) : List Char :=
  t.first ++ t.pieces.flatMap fun p => p.ref.meaning environ ++ p.literal

end Template

/-! ## What the loop makes of a text -/

/-- What the code puts in the place of a reference: without braces, the value of the part of the name
before its first letter, and the rest of the name. -/
def Reference.shown (environ : Environ) : Reference → List Char
  | braced name _ => (environ.getenv name).getD []
  | bare name _ =>
      (environ.getenv (name.takeWhile isScanned)).getD [] ++ name.dropWhile isScanned

/-- A character of a name is a letter, or the scan takes it. -/
lemma isNameChar_eq (c : Char) : isNameChar c = (c.isAlpha || isScanned c) :=
  Bool.or_assoc _ _ _

/-- Neither `$` nor a brace is a character of names. -/
lemma ne_dollar_of_isNameChar {c : Char} (h : isNameChar c = true) : c ≠ '$' ∧ c ≠ '{' := by
  constructor <;> rintro rfl <;> exact absurd h (by decide)

/-- A text without `$` is copied. -/
lemma expandLoop_literal (environ : Environ) {literal : List Char} (h : '$' ∉ literal) {turns : ℕ}
    (hle : literal.length ≤ turns) (it result : List Char) :
    expandLoop environ turns (literal ++ it) result =
      expandLoop environ (turns - literal.length) it (result ++ literal) := by
  induction literal generalizing turns result with
  | nil => simp
  | cons c literal ih =>
      rw [List.mem_cons, not_or] at h
      obtain ⟨turns, rfl⟩ := Nat.exists_eq_succ_of_ne_zero
        (Nat.ne_of_gt (lt_of_lt_of_le (Nat.succ_pos _) hle))
      rw [List.cons_append, expandLoop, if_neg (Ne.symm h.1),
        ih h.2 (Nat.le_of_succ_le_succ hle)]
      simp

/-- A name in braces is read up to the closing one. -/
lemma scan_braced {name : List Char} (h : '}' ∉ name) (it : List Char) :
    scan ('{' :: name ++ '}' :: it) = (name, it) := by
  have hall : ∀ c ∈ name, decide (c ≠ '}') = true := by
    intro c hc
    simpa using ne_of_mem_of_not_mem hc h
  rw [scan, List.cons_append, List.head?_cons, if_pos rfl, List.tail_cons,
    List.takeWhile_append_of_pos hall, List.dropWhile_append_of_pos hall]
  simp

/-- A name without braces is read up to its first letter. -/
lemma scan_bare {name it : List Char} (hname : ∀ c ∈ name, isNameChar c = true)
    (hit : ∀ c, it.head? = some c → isNameChar c = false) (hlone : name = [] → it.head? ≠ some '{') :
    scan (name ++ it) = (name.takeWhile isScanned, name.dropWhile isScanned ++ it) := by
  have hhead : (name ++ it).head? ≠ some '{' := by
    rcases name with - | ⟨c, name⟩
    · exact hlone rfl
    · simpa using (ne_dollar_of_isNameChar (hname c (by simp))).2
  have hstop : it.takeWhile isScanned = [] ∧ it.dropWhile isScanned = it := by
    rcases it with - | ⟨c, it⟩
    · simp
    · have hc : isScanned c = false := by
        have hno := hit c rfl
        rw [isNameChar_eq, Bool.or_eq_false_iff] at hno
        exact hno.2
      simp [hc]
  rw [scan, if_neg hhead, takeWhile_append_of_stop hstop.1 name,
    dropWhile_append_of_stop hstop.2 name]

/-- Behind a literal there is a `$` or nothing. -/
lemma head?_piecesText {pieces : List Piece} {c : Char} (h : (piecesText pieces).head? = some c) :
    c = '$' := by
  rcases pieces with - | ⟨⟨ref, literal, _, _⟩, pieces⟩
  · simp [piecesText] at h
  · rcases ref with name | name <;> simpa [piecesText, Reference.text, eq_comm] using h

/-- The text behind a reference is one that may stand there. -/
lemma ends_append {ref : Reference} {literal : List Char} (h : ref.Ends literal)
    (pieces : List Piece) : ref.Ends (literal ++ piecesText pieces) := by
  rcases ref with name | name
  · trivial
  · rcases literal with - | ⟨c, literal⟩
    · refine ⟨fun c hc => ?_, fun _ hc => ?_⟩
      · rw [head?_piecesText hc]
        rfl
      · exact absurd (head?_piecesText hc) (by decide)
    · exact h

/-- The loop at a reference: what is shown for it is added, as if it were a literal. -/
lemma expandLoop_reference (environ : Environ) (ref : Reference) {it : List Char}
    (hit : ref.Ends it) {turns : ℕ} (h : ref.text.length ≤ turns) (result : List Char) :
    ∃ left, turns - ref.text.length ≤ left ∧
      expandLoop environ turns (ref.text ++ it) result =
        expandLoop environ left it (result ++ ref.shown environ) := by
  rcases ref with ⟨name, closed⟩ | ⟨name, chars⟩
  · obtain ⟨turns, rfl⟩ := Nat.exists_eq_succ_of_ne_zero
      (Nat.ne_of_gt (lt_of_lt_of_le (Nat.succ_pos _) h))
    refine ⟨turns, ?_, ?_⟩
    · simp only [Reference.text, List.length_append, List.length_cons]
      omega
    · have hscan := scan_braced closed it
      simp only [Reference.text, List.cons_append, List.append_assoc, List.nil_append] at hscan ⊢
      rw [expandLoop, if_pos rfl, hscan]
      rfl
  · obtain ⟨turns, rfl⟩ := Nat.exists_eq_succ_of_ne_zero
      (Nat.ne_of_gt (lt_of_lt_of_le (Nat.succ_pos _) h))
    have hle : (name.dropWhile isScanned).length ≤ name.length :=
      (List.dropWhile_suffix isScanned).length_le
    have hdollar : '$' ∉ name.dropWhile isScanned := by
      intro hmem
      exact (ne_dollar_of_isNameChar (chars _ ((List.dropWhile_suffix isScanned).mem hmem))).1 rfl
    have hturns : name.length ≤ turns := Nat.le_of_succ_le_succ h
    refine ⟨turns - (name.dropWhile isScanned).length, ?_, ?_⟩
    · simp only [Reference.text, List.length_cons]
      omega
    · rw [Reference.text, List.cons_append, expandLoop, if_pos rfl,
        scan_bare chars hit.1 hit.2, expandLoop_literal environ hdollar (hle.trans hturns),
        List.append_assoc]
      rfl

/-- **The pieces.** What the loop makes of references and literals, whatever stands in them. -/
theorem expandLoop_references (environ : Environ) (pieces : List Piece) {turns : ℕ}
    (h : (piecesText pieces).length ≤ turns) (result : List Char) :
    expandLoop environ turns (piecesText pieces) result =
      some (result ++ pieces.flatMap fun p => p.ref.shown environ ++ p.literal) := by
  induction pieces generalizing turns result with
  | nil => simp [piecesText, expandLoop]
  | cons p pieces ih =>
      have htext : piecesText (p :: pieces) = p.ref.text ++ (p.literal ++ piecesText pieces) := by
        simp [piecesText]
      rw [htext, List.length_append, List.length_append] at h
      obtain ⟨left, hleft, hrun⟩ := expandLoop_reference environ p.ref
        (ends_append p.ends pieces) (by omega : p.ref.text.length ≤ turns) result
      rw [htext, hrun, expandLoop_literal environ p.dollar (by omega), ih (by omega)]
      simp

/-- **A text.** The code returns for every text, with what is shown for its references. -/
theorem expandImpl_text (environ : Environ) (home : List Char) (t : Template) {turns : ℕ}
    (h : t.text.length ≤ turns) :
    expandImpl environ home turns t.text =
      some (t.first ++ t.pieces.flatMap fun p => p.ref.shown environ ++ p.literal) := by
  have hhead : t.text.head? ≠ some '~' := by
    rw [Template.text]
    rcases hfirst : t.first with - | ⟨c, first⟩
    · intro hc
      exact absurd (head?_piecesText hc) (by decide)
    · simpa [hfirst] using t.tilde
  rw [Template.text, List.length_append] at h
  rw [expandImpl, if_neg hhead, Template.text, expandLoop_literal environ t.dollar (by omega),
    expandLoop_references environ t.pieces (by omega), List.nil_append]

/-! ## Where that is what is meant -/

/-- A reference that the code reads: a name without letters, or a name in braces that is a C string. -/
def Reference.Readable : Reference → Prop
  | braced name _ => '\x00' ∉ name
  | bare name _ => ∀ c ∈ name, c.isAlpha = false

/-- The letters, by their codes. -/
lemma isAlpha_eq_true_iff (c : Char) :
    c.isAlpha = true ↔ 65 ≤ c.val.toNat ∧ c.val.toNat ≤ 90 ∨ 97 ≤ c.val.toNat ∧ c.val.toNat ≤ 122 := by
  have heq : c.isAlpha = (decide ('A'.val ≤ c.val ∧ c.val ≤ 'Z'.val) ||
      (decide ('a'.val ≤ c.val) && decide (c.val ≤ 'z'.val))) := rfl
  simp only [heq, Bool.or_eq_true, Bool.and_eq_true, decide_eq_true_eq, UInt32.le_iff_toNat_le]
  rfl

/-- The scan takes the characters of names that are not letters. -/
lemma isScanned_eq_true_iff {c : Char} (h : isNameChar c = true) :
    isScanned c = true ↔ c.isAlpha = false := by
  constructor
  · intro hscan
    rw [← Bool.not_eq_true, isAlpha_eq_true_iff]
    rw [isScanned, Bool.or_eq_true, Bool.and_eq_true, decide_eq_true_eq, decide_eq_true_eq,
      decide_eq_true_eq] at hscan
    rcases hscan with ⟨-, hhigh⟩ | rfl
    · have hle : c.val.toNat ≤ 57 := UInt32.le_iff_toNat_le.mp hhigh
      omega
    · decide
  · intro halpha
    rwa [isNameChar_eq, halpha, Bool.false_or] at h

/-- `getenv` with a C string. -/
lemma Environ.getenv_of_nul (environ : Environ) {name : List Char} (h : '\x00' ∉ name) :
    environ.getenv name = environ.value name := by
  have hall : name.takeWhile (· ≠ '\x00') = name := by
    rw [List.takeWhile_eq_self_iff]
    intro c hc
    simpa using ne_of_mem_of_not_mem hc h
  rw [Environ.getenv, hall]

/-- A character of a name is not a NUL. -/
lemma nul_notMem_of_isNameChar {name : List Char} (h : ∀ c ∈ name, isNameChar c = true) :
    '\x00' ∉ name := fun hmem => absurd (h _ hmem) (by decide)

/-- What the code reads, it reads right. -/
lemma Reference.shown_eq_meaning (environ : Environ) {ref : Reference} (h : ref.Readable) :
    ref.shown environ = ref.meaning environ := by
  rcases ref with ⟨name, closed⟩ | ⟨name, chars⟩
  · rw [shown, environ.getenv_of_nul h]
    rfl
  · have hall : ∀ c ∈ name, isScanned c = true := fun c hc =>
      (isScanned_eq_true_iff (chars c hc)).mpr (h c hc)
    rw [shown, List.takeWhile_eq_self_iff.mpr hall, List.dropWhile_eq_nil_iff.mpr hall,
      environ.getenv_of_nul (nul_notMem_of_isNameChar chars), List.append_nil]
    rfl

/-- The environment with no variables. -/
def Environ.empty : Environ := ⟨fun _ => none, fun h => by simp at h, fun h => by simp at h⟩

/-- The environment with one variable. -/
def Environ.single (name text : List Char) (hname : '\x00' ∉ name) (htext : '\x00' ∉ text) :
    Environ where
  value n := if n = name then some text else none
  name_nul h := by
    split at h
    · next heq => exact heq ▸ hname
    · exact absurd h (by simp)
  text_nul h := by
    split at h
    · exact Option.some.inj h ▸ htext
    · exact absurd h (by simp)

/-- Two texts made piece by piece. If no piece is shorter in the first of them and the texts are of the
same length, then so are the pieces. -/
lemma length_eq_of_flatMap {α : Type*} {f g : α → List Char} {l : List α}
    (hle : ∀ x ∈ l, (g x).length ≤ (f x).length) :
    (l.flatMap g).length ≤ (l.flatMap f).length ∧
      ((l.flatMap f).length = (l.flatMap g).length → ∀ x ∈ l, (f x).length = (g x).length) := by
  induction l with
  | nil => simp
  | cons x l ih =>
      obtain ⟨hmono, heq⟩ := ih fun y hy => hle y (List.mem_cons_of_mem x hy)
      have hx := hle x List.mem_cons_self
      simp only [List.flatMap_cons, List.length_append]
      refine ⟨by omega, fun h => ?_⟩
      intro y hy
      rcases List.mem_cons.mp hy with rfl | hy
      · omega
      · exact heq (by omega) y hy

/-- In an environment where every reference shows at least what is meant, a text that is read right has
references that each show as much as is meant. -/
lemma length_shown_eq {environ : Environ} (home : List Char) {t : Template}
    (hle : ∀ p ∈ t.pieces, (p.ref.meaning environ).length ≤ (p.ref.shown environ).length)
    (h : expandImpl environ home t.text.length t.text = some (t.meaning environ)) :
    ∀ p ∈ t.pieces, (p.ref.shown environ).length = (p.ref.meaning environ).length := by
  rw [expandImpl_text environ home t le_rfl, Option.some.injEq, Template.meaning,
    List.append_cancel_left_eq] at h
  have hpieces := (length_eq_of_flatMap
    (f := fun p : Piece => p.ref.shown environ ++ p.literal)
    (g := fun p => p.ref.meaning environ ++ p.literal) (l := t.pieces)
    (by simpa using hle)).2 (congrArg List.length h)
  simpa using hpieces

/-- A name without braces that is read right in the empty environment has no letters. -/
lemma not_isAlpha_of_length {name : List Char} (chars : ∀ c ∈ name, isNameChar c = true)
    (h : ((Reference.bare name chars).shown .empty).length =
      ((Reference.bare name chars).meaning .empty).length) :
    ∀ c ∈ name, c.isAlpha = false := by
  have hnil : name.dropWhile isScanned = [] := by
    simpa [Reference.shown, Reference.meaning, Environ.getenv, Environ.empty] using h
  intro c hc
  exact (isScanned_eq_true_iff (chars c hc)).mp (List.dropWhile_eq_nil_iff.mp hnil c hc)

/-- No variable has a name with a NUL. -/
lemma Reference.meaning_of_nul (environ : Environ) (ref : Reference) (h : '\x00' ∈ ref.name) :
    ref.meaning environ = [] := by
  rcases hvalue : environ.value ref.name with - | text
  · simp [meaning, hvalue]
  · exact absurd h (environ.name_nul hvalue)

/-- Once the names without braces are read right, every reference shows at least what is meant. -/
lemma Reference.length_meaning_le (environ : Environ) {ref : Reference}
    (h : ∀ name chars, ref = .bare name chars → ref.Readable) :
    (ref.meaning environ).length ≤ (ref.shown environ).length := by
  by_cases hread : ref.Readable
  · rw [shown_eq_meaning environ hread]
  · rcases ref with ⟨name, closed⟩ | ⟨name, chars⟩
    · have hnul : '\x00' ∈ name := not_not.mp hread
      simp [meaning_of_nul environ (.braced name closed) hnul]
    · exact absurd (h name chars rfl) hread

/-- **Exactness.** A text is expanded as it is meant in every environment if and only if its names
without braces have no letters and its names in braces have no NUL. -/
theorem expandImpl_text_iff (home : List Char) (t : Template) :
    (∀ environ turns, t.text.length ≤ turns →
        expandImpl environ home turns t.text = some (t.meaning environ)) ↔
      ∀ p ∈ t.pieces, p.ref.Readable := by
  constructor
  · intro h
    have hbare : ∀ p ∈ t.pieces, ∀ name chars, p.ref = .bare name chars → p.ref.Readable := by
      intro p hp name chars href
      have hlen := length_shown_eq home ?_ (h .empty _ le_rfl) p hp
      · rw [href] at hlen ⊢
        exact not_isAlpha_of_length chars hlen
      · intro p hp
        simp [Reference.meaning, Environ.empty]
    intro p hp
    rcases href : p.ref with ⟨name, closed⟩ | ⟨name, chars⟩
    · -- the variable that `getenv` finds under the part of the name before the NUL
      intro hnul
      have hcut : '\x00' ∉ name.takeWhile (· ≠ '\x00') := fun hmem => by
        simpa using List.mem_takeWhile_imp hmem
      have hlen := length_shown_eq home
        (fun p hp => Reference.length_meaning_le (.single _ ['x'] hcut (by decide)) (hbare p hp))
        (h _ _ le_rfl) p hp
      rw [href, Reference.meaning_of_nul _ (.braced name closed) hnul] at hlen
      simp [Reference.shown, Environ.getenv, Environ.single] at hlen
    · exact href ▸ hbare p hp name chars href
  · intro h environ turns hturns
    rw [expandImpl_text environ home t hturns, Template.meaning]
    congr 2
    apply List.flatMap_congr
    intro p hp
    rw [Reference.shown_eq_meaning environ (h p hp)]

/-- The text `$HOME`. -/
def homeText : Template where
  first := []
  dollar := by simp
  tilde := by simp
  pieces := [⟨.bare ['H', 'O', 'M', 'E'] (by simp [isNameChar]), [], by simp, by simp [Reference.Ends]⟩]

/-- An environment with `HOME=/r`. -/
def homeEnviron : Environ := .single ['H', 'O', 'M', 'E'] ['/', 'r'] (by decide) (by decide)

/-- `$HOME` is expanded to `HOME`, not to the value of the variable. -/
theorem expandImpl_home :
    homeText.text = ['$', 'H', 'O', 'M', 'E'] ∧
      homeText.meaning homeEnviron = ['/', 'r'] ∧
      expandImpl homeEnviron ['/'] 5 homeText.text = some ['H', 'O', 'M', 'E'] ∧
      ¬ ∀ (environ : Environ) (home : List Char) (t : Template) (turns : ℕ), t.text.length ≤ turns →
        expandImpl environ home turns t.text = some (t.meaning environ) := by
  have hmeaning : homeText.meaning homeEnviron = ['/', 'r'] := by decide
  have hrun : expandImpl homeEnviron ['/'] 5 homeText.text = some ['H', 'O', 'M', 'E'] := by decide
  refine ⟨by decide, hmeaning, hrun, fun h => ?_⟩
  have hall := h homeEnviron ['/'] homeText 5 (by decide)
  rw [hrun, hmeaning] at hall
  exact absurd hall (by decide)

end PathImpl

end CocInside.System
