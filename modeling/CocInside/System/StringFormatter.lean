import Mathlib.Data.List.Basic
import Mathlib.Tactic.Common

/-!
# `StringFormatter`

`format` replaces the placeholders `?` of a format string by its arguments, one scan for each argument.
The scans read `??` as the character `?`; what is left behind the last of them is copied as it is.
This is the header without `SYSTEM_USE_TYPED_FORMAT`.

* `formatOne`, `formatString`, `format`: the code, with arguments given as what `<<` prints for them.
* `Template`: texts with holes between them, written as a format string (`Template.source`) and as
  what is meant by it (`Template.text`).
* `formatOne_escape`, `formatAll_holes`: what one scan, and all of them, make of a template.
* `format_template`: a template is formatted as it is meant, as far as its last hole, and to its end
  where the text there is free of `?`.

Two holes with nothing between them are written `??`, so such a template does not get its arguments.

Source: `System/StringFormatter.h`.
-/

namespace CocInside.System

namespace StringFormatter

/-! ## The code -/

/-- The character `?`. -/
def mark : UInt8 := 63

/-- One scan: the stream and the rest of the format string after it. An argument that finds no
placeholder is not printed.
Source: `StringFormatter.h`, `_format`. -/
def formatOne (arg : List UInt8) : List UInt8 → List UInt8 → List UInt8 × List UInt8
  | ostr, [] => (ostr, [])
  | ostr, c :: fmtStr =>
      if c = mark then
        match fmtStr with
        | [] => (ostr ++ arg, [])
        | d :: rest =>
            if d = mark then formatOne arg (ostr ++ [mark]) rest else (ostr ++ arg, d :: rest)
      else formatOne arg (ostr ++ [c]) fmtStr

/-- The scans of all arguments, one behind the other. -/
def formatAll (args : List (List UInt8)) (ostr fmtStr : List UInt8) : List UInt8 × List UInt8 :=
  args.foldl (fun st arg => formatOne arg st.1 st.2) (ostr, fmtStr)

/-- There is one `formatString` for each number of arguments from 1 to 9, with as many calls of
`_format`.
Source: `StringFormatter.h`, `formatString`. -/
def formatString (result fmtStr : List UInt8) (args : List (List UInt8)) : List UInt8 :=
  let (ostr, it) := formatAll args [] fmtStr
  result ++ (if it = [] then ostr else ostr ++ it)

/-- Source: `StringFormatter.h`, `format`. -/
def format (fmtStr : List UInt8) (args : List (List UInt8)) : List UInt8 :=
  formatString [] fmtStr args

/-! ## Templates -/

/-- A text with every `?` doubled. -/
def escape : List UInt8 → List UInt8
  | [] => []
  | c :: s => if c = mark then mark :: mark :: escape s else c :: escape s

/-- A hole, what is printed in it, and the text behind it, which does not begin with `?`. -/
structure Hole where
  arg : List UInt8
  text : List UInt8
  head_ne : text.head? ≠ some mark

/-- A text and up to nine holes, each with a text behind it. -/
structure Template where
  head : List UInt8
  holes : List Hole
  holes_ne : holes ≠ []
  length_le : holes.length ≤ 9

namespace Template

/-- The template as a format string. -/
def source (T : Template) : List UInt8 :=
  escape T.head ++ T.holes.flatMap fun h => mark :: escape h.text

/-- Its arguments. -/
def args (T : Template) : List (List UInt8) := T.holes.map Hole.arg

/-- What is meant by it. -/
def text (T : Template) : List UInt8 := T.head ++ T.holes.flatMap fun h => h.arg ++ h.text

/-- The last hole. -/
def last (T : Template) : Hole := T.holes.getLast T.holes_ne

/-- What is meant by it, without the text behind the last hole. -/
def front (T : Template) : List UInt8 :=
  T.head ++ (T.holes.dropLast.flatMap fun h => h.arg ++ h.text) ++ T.last.arg

/-- There is text between any two holes. -/
def Spaced (T : Template) : Prop := ∀ h ∈ T.holes.dropLast, h.text ≠ []

/-- The last hole is the last. -/
lemma holes_eq (T : Template) : T.holes = T.holes.dropLast ++ [T.last] :=
  (List.dropLast_append_getLast T.holes_ne).symm

/-- The text of a template is its front and the text of the last hole. -/
lemma text_eq (T : Template) : T.text = T.front ++ T.last.text := by
  rw [text, front]
  nth_rewrite 1 [T.holes_eq]
  simp only [List.flatMap_append, List.flatMap_cons, List.flatMap_nil, List.append_nil,
    List.append_assoc]

end Template

/-! ## Escaped texts -/

/-- Escaping does not change the first byte. -/
lemma head?_escape (s : List UInt8) : (escape s).head? = s.head? := by
  cases s with
  | nil => rfl
  | cons c s =>
      rw [escape]
      split
      · next hc =>
          rw [hc]
          rfl
      · rfl

/-- Escaping leaves something where there was something. -/
lemma escape_ne_nil {s : List UInt8} (h : s ≠ []) : escape s ≠ [] := by
  intro hnil
  apply h
  rw [← List.head?_eq_none_iff, ← head?_escape, hnil]
  rfl

/-- A text without `?` is its own escaped form. -/
lemma escape_of_notMem {s : List UInt8} (h : mark ∉ s) : escape s = s := by
  induction s with
  | nil => rfl
  | cons c s ih =>
      rw [List.mem_cons, not_or] at h
      rw [escape, if_neg (Ne.symm h.1), ih h.2]

/-! ## The scans -/

section Scan

variable (arg ostr : List UInt8)

/-- A doubled mark is a mark. -/
lemma formatOne_mark_mark (rest : List UInt8) :
    formatOne arg ostr (mark :: mark :: rest) = formatOne arg (ostr ++ [mark]) rest := by
  rw [formatOne.eq_def]
  simp

/-- A single mark is the place of the argument. -/
lemma formatOne_mark {rest : List UInt8} (h : rest.head? ≠ some mark) :
    formatOne arg ostr (mark :: rest) = (ostr ++ arg, rest) := by
  rw [formatOne.eq_def]
  cases rest with
  | nil => simp
  | cons d rest =>
      have hd : d ≠ mark := by
        rintro rfl
        exact h rfl
      simp [hd]

/-- Any other byte is copied. -/
lemma formatOne_cons {c : UInt8} (h : c ≠ mark) (rest : List UInt8) :
    formatOne arg ostr (c :: rest) = formatOne arg (ostr ++ [c]) rest := by
  rw [formatOne.eq_def]
  simp [h]

/-- A scan over an escaped text up to a placeholder that no `?` follows. -/
lemma formatOne_escape (s : List UInt8) {rest : List UInt8} (hrest : rest.head? ≠ some mark) :
    formatOne arg ostr (escape s ++ mark :: rest) = (ostr ++ s ++ arg, rest) := by
  induction s generalizing ostr with
  | nil =>
      rw [escape, List.nil_append, List.append_nil]
      exact formatOne_mark arg ostr hrest
  | cons c s ih =>
      rw [escape]
      split
      · next hc =>
          rw [hc, List.cons_append, List.cons_append, formatOne_mark_mark, ih, List.append_assoc ostr]
          rfl
      · next hc =>
          rw [List.cons_append, formatOne_cons arg ostr hc, ih, List.append_assoc ostr]
          rfl

end Scan

/-- All scans, over texts with holes: what stands behind the last hole is left. -/
lemma formatAll_holes (mid : List Hole) (hmid : ∀ h ∈ mid, h.text ≠ []) (z : Hole)
    (s ostr : List UInt8) :
    formatAll ((mid ++ [z]).map Hole.arg) ostr
        (escape s ++ (mid ++ [z]).flatMap fun h => mark :: escape h.text)
      = (ostr ++ s ++ (mid.flatMap fun h => h.arg ++ h.text) ++ z.arg, escape z.text) := by
  induction mid generalizing s ostr with
  | nil =>
      have hz : (escape z.text).head? ≠ some mark := by
        rw [head?_escape]
        exact z.head_ne
      simp only [List.nil_append, List.map_cons, List.map_nil, List.flatMap_cons, List.flatMap_nil,
        List.append_nil, formatAll, List.foldl_cons, List.foldl_nil]
      exact formatOne_escape z.arg ostr s hz
  | cons h mid ih =>
      have hne := escape_ne_nil (hmid h List.mem_cons_self)
      have hrest : ∀ t, (escape h.text ++ t).head? ≠ some mark := by
        intro t
        rw [List.head?_append_of_ne_nil _ hne, head?_escape]
        exact h.head_ne
      have hstep : ∀ t, formatOne h.arg ostr (escape s ++ (mark :: escape h.text ++ t))
          = (ostr ++ s ++ h.arg, escape h.text ++ t) := by
        intro t
        exact formatOne_escape h.arg ostr s (hrest t)
      have hrec := ih (fun h' hh' => hmid h' (List.mem_cons_of_mem h hh')) h.text
        (ostr ++ s ++ h.arg)
      simp only [List.cons_append, List.map_cons, List.flatMap_cons, formatAll, List.foldl_cons]
      rw [← List.cons_append, hstep]
      refine hrec.trans ?_
      simp only [List.append_assoc]

/-- A template comes out as it is meant up to its last argument, and escaped behind it. -/
lemma format_source (T : Template) (hT : T.Spaced) :
    format T.source T.args = T.front ++ escape T.last.text := by
  have hall := formatAll_holes T.holes.dropLast hT T.last T.head []
  rw [← T.holes_eq, List.nil_append] at hall
  rw [format, formatString, Template.source, Template.args, hall]
  show (if escape T.last.text = [] then T.front else T.front ++ escape T.last.text) = _
  split
  · next hnil => rw [hnil, List.append_nil]
  · rfl

/-- **Formatting a template.** Where there is text between any two holes, everything up to the last
argument comes out as it is meant, and so does all of it if the text behind the last hole is free of
`?`. -/
theorem format_template (T : Template) (hT : T.Spaced) :
    T.front <+: format T.source T.args ∧
      (mark ∉ T.last.text → format T.source T.args = T.text) := by
  rw [format_source T hT]
  constructor
  · exact List.prefix_append _ _
  · intro hmark
    rw [escape_of_notMem hmark, T.text_eq]

/-- The texts `?`, `a?b` and `!`, around 1 and 2. -/
def question : Template where
  head := [63]
  holes := [⟨[49], [97, 63, 98], by decide⟩, ⟨[50], [33], by decide⟩]
  holes_ne := nofun
  length_le := by decide

/-- The format string `???a??b?!` with 1 and 2 gives `?1a?b2!`. -/
theorem format_question : question.source = [63, 63, 63, 97, 63, 63, 98, 63, 33] ∧
    format question.source question.args = [63, 49, 97, 63, 98, 50, 33] := by
  refine ⟨by decide, ?_⟩
  exact (format_template question (by unfold Template.Spaced; decide)).2 (by decide)

/-- Two holes with no text around them. -/
def adjacent : Template where
  head := []
  holes := [⟨[49], [], nofun⟩, ⟨[50], [], nofun⟩]
  holes_ne := nofun
  length_le := by decide

/-- A hole with `a?` behind it. -/
def trailing : Template where
  head := []
  holes := [⟨[49], [97, 63], by decide⟩]
  holes_ne := nofun
  length_le := by decide

/-- The format string `??` with 1 and 2 gives `?`, not `12`; and `?a??` with 1 gives `1a??`, not
`1a?`. -/
theorem format_adjacent_trailing :
    (adjacent.source = [63, 63] ∧ format adjacent.source adjacent.args = [63] ∧
      adjacent.text = [49, 50]) ∧
    (trailing.source = [63, 97, 63, 63] ∧
      format trailing.source trailing.args = [49, 97, 63, 63] ∧ trailing.text = [49, 97, 63]) ∧
    ¬∀ T : Template, format T.source T.args = T.text := by
  refine ⟨by decide, by decide, ?_⟩
  intro h
  exact absurd (h adjacent) (by decide)

end StringFormatter

end CocInside.System
