import Mathlib.Data.List.GetD
import Mathlib.Data.List.TakeWhile
import Mathlib.Tactic.Common

/-!
# `CsvParser`

`load` goes over the bytes of a file with two offsets: what stands between `lastOff` and `offset` belongs
to the current field and is copied to `curline` only when something else comes up.

* `Load`, `Load.turn`, `CsvParser.load`: the code.
* `Token`, `tokens`: the file as a sequence of marks and characters, by one look ahead and a mode.
* `Build`: what the tokens build up, field by field, without offsets.
* `load_eq`: the code reads what the tokens build.
* `tokens_append`: a file in two parts.

Source: `System/CsvParser.h`, `System/CsvParser.cpp`.
-/

namespace CocInside.System

/-! ## The code -/

/-- Source: `CsvParser.h`, `CsvParser::Row`. -/
abbrev Row := List (List UInt8)

/-- Source: `CsvParser.h`, `CsvParser`. -/
structure CsvParser where
  sep : UInt8
  quote : UInt8
  cur : ℕ
  rows : List Row
deriving DecidableEq

/-- `c == '\r' || c == '\n'`. -/
def isNewline (c : UInt8) : Bool := c == 13 || c == 10

/-- The backslash. -/
def backslash : UInt8 := 92

/-- The variables of the loop; `status` is 0 or 1. -/
structure Load where
  status : Bool
  offset : ℕ
  lastOff : ℕ
  row : Row
  curline : List UInt8
  rows : List Row

namespace Load

/-- Before the loop. -/
def start : Load := ⟨false, 0, 0, [], [], []⟩

/-- `data[i]`; there is a 0 behind the bytes. -/
def byteAt (data : List UInt8) (i : ℕ) : UInt8 := data.getD i 0

/-- `curline` after `if(lastOff < offset) curline.insert(curline.end(), data + lastOff, data + offset)`. -/
def flush (data : List UInt8) (st : Load) : List UInt8 :=
  if st.lastOff < st.offset then st.curline ++ (data.take st.offset).drop st.lastOff else st.curline

/-- The offset after the inner `do`: all newlines from here on are skipped. -/
def skipNewlines (data : List UInt8) (offset : ℕ) : ℕ :=
  offset + 1 + ((data.drop (offset + 1)).takeWhile isNewline).length

/-- A turn of the loop.
Source: `CsvParser.cpp`, `CsvParser::load`. -/
def turn (p : CsvParser) (data : List UInt8) (st : Load) : Load :=
  let c := byteAt data st.offset
  if isNewline c then
    { st with
      rows := st.rows ++ [st.row ++ [st.flush data]]
      row := []
      curline := []
      offset := skipNewlines data st.offset
      lastOff := skipNewlines data st.offset }
  else if st.status = false then
    if c = p.sep then
      { st with
        row := st.row ++ [st.flush data]
        curline := []
        offset := st.offset + 1
        lastOff := st.offset + 1 }
    else if c = p.quote then
      { st with
        curline := st.flush data
        status := true
        offset := st.offset + 1
        lastOff := st.offset + 1 }
    else { st with offset := st.offset + 1 }
  else if c = backslash ∧ byteAt data (st.offset + 1) = p.quote then
    { st with
      curline := st.flush data ++ [p.quote]
      offset := st.offset + 2
      lastOff := st.offset + 2 }
  else if c = p.quote then
    { st with
      status := false
      curline := st.flush data
      offset := st.offset + 1
      lastOff := st.offset + 1 }
  else { st with offset := st.offset + 1 }

/-- The loop, for at most `fuel` turns. Every turn gets on, so that as many as there are bytes are enough.
Source: `CsvParser.cpp`, `CsvParser::load`, `while(offset < sz)`. -/
def loop (p : CsvParser) (data : List UInt8) : ℕ → Load → Load
  | 0, st => st
  | fuel + 1, st => if st.offset < data.length then loop p data fuel (st.turn p data) else st

/-- `_rows` at the end.
Source: `CsvParser.cpp`, `CsvParser::load`, after the loop. -/
def finish (data : List UInt8) (st : Load) : List Row :=
  let row := if st.lastOff < st.offset then st.row ++ [st.flush data] else st.row
  if row ≠ [] then st.rows ++ [row] else st.rows

end Load

/-- `load`, for the bytes of the file if it can be opened; `malloc` is whether there is memory for them.
Source: `CsvParser.cpp`, `CsvParser::load`. -/
def CsvParser.load (p : CsvParser) (file : Option (List UInt8)) (malloc : Bool) : Bool × CsvParser :=
  let p := { p with cur := 0, rows := [] }
  match file with
  | none => (false, p)
  | some data =>
      if data.length = 0 then (true, p)
      else if malloc = false then (false, p)
      else (true, { p with rows := (Load.loop p data data.length .start).finish data })

/-! ## Tokens -/

/-- What a byte of a file means: a character of a field, a quote that was escaped, a quote that opens or
closes, the end of a field, the end of a row. -/
inductive Token where
  | text (c : UInt8)
  | literal (c : UInt8)
  | quote
  | separator
  | endOfLine
deriving DecidableEq

/-- Which bytes that follow are passed over: none, the quote of an escape, newlines. -/
inductive Skip where
  | nothing
  | one
  | newlines
deriving DecidableEq

/-- How the next byte is read. -/
@[ext] structure Mode where
  status : Bool
  skip : Skip
deriving DecidableEq

/-- The tokens of one byte `c` with `next` behind it, and the mode after it. -/
def Mode.read (p : CsvParser) (m : Mode) (c next : UInt8) : List Token × Mode :=
  if m.skip = .one then ([], ⟨m.status, .nothing⟩)
  else if m.skip = .newlines ∧ isNewline c then ([], m)
  else if isNewline c then ([.endOfLine], ⟨m.status, .newlines⟩)
  else if m.status = false then
    if c = p.sep then ([.separator], ⟨false, .nothing⟩)
    else if c = p.quote then ([.quote], ⟨true, .nothing⟩)
    else ([.text c], ⟨false, .nothing⟩)
  else if c = backslash ∧ next = p.quote then ([.literal p.quote], ⟨true, .one⟩)
  else if c = p.quote then ([.quote], ⟨false, .nothing⟩)
  else ([.text c], ⟨true, .nothing⟩)

/-- The tokens of `s` with `next` behind it. -/
def tokens (p : CsvParser) (next : UInt8) : Mode → List UInt8 → List Token
  | _, [] => []
  | m, c :: s => (m.read p c (s.headD next)).1 ++ tokens p next (m.read p c (s.headD next)).2 s

/-- The mode after `s`. -/
def modeAfter (p : CsvParser) (next : UInt8) : Mode → List UInt8 → Mode
  | m, [] => m
  | m, c :: s => modeAfter p next (m.read p c (s.headD next)).2 s

/-- The fields and rows so far; `pending` is whether the field has characters that no quote or
separator has closed off. -/
@[ext] structure Build where
  field : List UInt8
  row : Row
  rows : List Row
  pending : Bool

namespace Build

/-- Nothing yet. -/
def start : Build := ⟨[], [], [], false⟩

/-- One token. -/
def add (b : Build) : Token → Build
  | .text c => { b with field := b.field ++ [c], pending := true }
  | .literal c => { b with field := b.field ++ [c], pending := false }
  | .quote => { b with pending := false }
  | .separator => { b with field := [], row := b.row ++ [b.field], pending := false }
  | .endOfLine => ⟨[], [], b.rows ++ [b.row ++ [b.field]], false⟩

/-- The end of the file. -/
def finish (b : Build) : List Row :=
  let row := if b.pending then b.row ++ [b.field] else b.row
  if row ≠ [] then b.rows ++ [row] else b.rows

end Build

/-- What `load` reads, on tokens. -/
def rowsOf (p : CsvParser) (status : Bool) (s : List UInt8) : List Row :=
  ((tokens p 0 ⟨status, .nothing⟩ s).foldl Build.add .start).finish

/-! ## The code and the tokens -/

namespace Mode

variable {p : CsvParser} {c next : UInt8} {status : Bool}

/-- A line break where nothing was read ends the line. -/
lemma read_newline (hnl : isNewline c = true) :
    read p ⟨status, .nothing⟩ c next = ([.endOfLine], ⟨status, .newlines⟩) := by
  rw [read, if_neg (by simp), if_neg (by simp), if_pos hnl]

/-- A byte that is no newline is read by the status alone. -/
lemma read_of_not_newline (hnl : ¬isNewline c = true) :
    read p ⟨status, .nothing⟩ c next
      = if status = false then
          if c = p.sep then ([.separator], ⟨false, .nothing⟩)
          else if c = p.quote then ([.quote], ⟨true, .nothing⟩)
          else ([.text c], ⟨false, .nothing⟩)
        else if c = backslash ∧ next = p.quote then ([.literal p.quote], ⟨true, .one⟩)
        else if c = p.quote then ([.quote], ⟨false, .nothing⟩)
        else ([.text c], ⟨true, .nothing⟩) := by
  rw [read, if_neg (by simp), if_neg (by simp), if_neg hnl]

/-- A byte outside quotes. -/
lemma read_outside (hnl : ¬isNewline c = true) :
    read p ⟨false, .nothing⟩ c next
      = if c = p.sep then ([.separator], ⟨false, .nothing⟩)
        else if c = p.quote then ([.quote], ⟨true, .nothing⟩)
        else ([.text c], ⟨false, .nothing⟩) := by
  rw [read_of_not_newline hnl, if_pos rfl]

/-- A byte inside quotes. -/
lemma read_inside (hnl : ¬isNewline c = true) :
    read p ⟨true, .nothing⟩ c next
      = if c = backslash ∧ next = p.quote then ([.literal p.quote], ⟨true, .one⟩)
        else if c = p.quote then ([.quote], ⟨false, .nothing⟩)
        else ([.text c], ⟨true, .nothing⟩) := by
  rw [read_of_not_newline hnl, if_neg (by decide)]

/-- After newlines, a byte that is none is read as any other. -/
lemma read_of_skip {skip : Skip} (hskip : skip ≠ .one) (hnl : ¬isNewline c = true) :
    read p ⟨status, skip⟩ c next = read p ⟨status, .nothing⟩ c next := by
  cases skip with
  | nothing => rfl
  | one => exact absurd rfl hskip
  | newlines =>
      rw [read_of_not_newline hnl, read, if_neg (by simp), if_neg (by simp [hnl]), if_neg hnl]

end Mode

section tokens

variable {p : CsvParser} {next : UInt8}

/-- A file in two parts: the first byte of the second is behind the first part. -/
lemma tokens_append (m : Mode) (s t : List UInt8) :
    tokens p next m (s ++ t)
      = tokens p (t.headD next) m s ++ tokens p next (modeAfter p (t.headD next) m s) t := by
  induction s generalizing m with
  | nil => rfl
  | cons c s ih =>
      have hhead : (s ++ t).headD next = s.headD (t.headD next) := by cases s <;> rfl
      simp only [List.cons_append, tokens, modeAfter, hhead, ih, List.append_assoc]

/-- Skipped newlines give no tokens. -/
lemma tokens_newlines (status : Bool) (s : List UInt8) :
    tokens p next ⟨status, .newlines⟩ s
      = tokens p next ⟨status, .nothing⟩ (s.dropWhile isNewline) := by
  induction s with
  | nil => rfl
  | cons c s ih =>
      by_cases hc : isNewline c
      · rw [List.dropWhile_cons_of_pos hc, ← ih]
        simp [tokens, Mode.read, hc]
      · rw [List.dropWhile_cons_of_neg hc]
        simp [tokens, Mode.read, hc]

/-- The quote of an escape gives no token. -/
lemma tokens_one (status : Bool) (s : List UInt8) :
    tokens p next ⟨status, .one⟩ s = tokens p next ⟨status, .nothing⟩ s.tail := by
  cases s with
  | nil => rfl
  | cons c s => simp [tokens, Mode.read]

end tokens

namespace Load

variable {p : CsvParser} {data : List UInt8} {st : Load}

/-- The state without offsets. -/
def view (data : List UInt8) (st : Load) : Build :=
  ⟨st.flush data, st.row, st.rows, decide (st.lastOff < st.offset)⟩

/-- The end of the file, without offsets. -/
lemma finish_view (data : List UInt8) (st : Load) : (st.view data).finish = st.finish data := by
  simp [view, Build.finish, finish]

/-- Nothing is left to copy. -/
lemma flush_of_eq (h : st.lastOff = st.offset) : st.flush data = st.curline := by
  unfold flush
  rw [if_neg (by omega)]

/-- The view when nothing is left to copy. -/
lemma view_of_eq (h : st.lastOff = st.offset) :
    st.view data = ⟨st.curline, st.row, st.rows, false⟩ := by
  unfold view
  rw [flush_of_eq h, decide_eq_false (by omega)]

/-- One more byte belongs to the field. -/
lemma flush_succ (hle : st.lastOff ≤ st.offset) (hlt : st.offset < data.length) :
    { st with offset := st.offset + 1 }.flush data
      = st.flush data ++ [byteAt data st.offset] := by
  have hbyte : data[st.offset] = byteAt data st.offset := by
    unfold byteAt
    rw [List.getD_eq_getElem _ _ hlt]
  have hslice : (data.take (st.offset + 1)).drop st.lastOff
      = (data.take st.offset).drop st.lastOff ++ [byteAt data st.offset] := by
    rw [List.take_succ_eq_append_getElem hlt, List.drop_append_of_le_length, hbyte]
    rw [List.length_take]
    omega
  unfold flush
  dsimp only
  rw [if_pos (by omega), hslice]
  split_ifs with h
  · rw [List.append_assoc]
  · rw [List.drop_eq_nil_of_le (by rw [List.length_take]; omega), List.nil_append]

/-- The bytes behind the skipped newlines. -/
lemma drop_skipNewlines (data : List UInt8) (offset : ℕ) :
    data.drop (skipNewlines data offset) = (data.drop (offset + 1)).dropWhile isNewline := by
  unfold skipNewlines
  rw [← List.drop_drop]
  have hdrop := @List.drop_left _ ((data.drop (offset + 1)).takeWhile isNewline)
    ((data.drop (offset + 1)).dropWhile isNewline)
  rwa [List.takeWhile_append_dropWhile] at hdrop

/-- What a turn does: it builds the tokens of the byte at `offset`, and goes on where these leave
off. -/
structure Turns (p : CsvParser) (data : List UInt8) (st st' : Load) : Prop where
  le : st'.lastOff ≤ st'.offset
  lt : st.offset < st'.offset
  view : st'.view data = (Mode.read p ⟨st.status, .nothing⟩ (byteAt data st.offset)
    (byteAt data (st.offset + 1))).1.foldl Build.add (st.view data)
  rest : tokens p 0 (Mode.read p ⟨st.status, .nothing⟩ (byteAt data st.offset)
      (byteAt data (st.offset + 1))).2 (data.drop (st.offset + 1))
    = tokens p 0 ⟨st'.status, .nothing⟩ (data.drop st'.offset)

/-- At a newline. -/
lemma turns_newline (hnl : isNewline (byteAt data st.offset) = true) :
    Turns p data st (st.turn p data) := by
  have hread : Mode.read p ⟨st.status, .nothing⟩ (byteAt data st.offset)
      (byteAt data (st.offset + 1)) = ([.endOfLine], ⟨st.status, .newlines⟩) := by
    simp [Mode.read, hnl]
  have hturn : st.turn p data = ⟨st.status, skipNewlines data st.offset,
      skipNewlines data st.offset, [], [], st.rows ++ [st.row ++ [st.flush data]]⟩ := by
    simp [turn, hnl]
  rw [hturn]
  refine ⟨le_rfl, ?_, ?_, ?_⟩
  · show st.offset < skipNewlines data st.offset
    unfold skipNewlines
    omega
  · rw [hread, view_of_eq rfl]
    rfl
  · rw [hread]
    dsimp only
    rw [tokens_newlines, drop_skipNewlines]

/-- At a character of the field. -/
lemma turns_text (hle : st.lastOff ≤ st.offset) (hlt : st.offset < data.length)
    (hread : Mode.read p ⟨st.status, .nothing⟩ (byteAt data st.offset)
      (byteAt data (st.offset + 1)) = ([.text (byteAt data st.offset)], ⟨st.status, .nothing⟩)) :
    Turns p data st { st with offset := st.offset + 1 } := by
  refine ⟨Nat.le_succ_of_le hle, Nat.lt_succ_self _, ?_, ?_⟩
  · rw [hread]
    unfold view
    rw [flush_succ hle hlt]
    simp only [List.foldl_cons, List.foldl_nil, Build.add, Build.mk.injEq, true_and,
      decide_eq_true_eq]
    omega
  · rw [hread]

/-- At a mark: the field is copied up to it. -/
lemma turns_mark {st' : Load} {k : Token} (hoff : st'.offset = st.offset + 1)
    (hlast : st'.lastOff = st'.offset)
    (hread : Mode.read p ⟨st.status, .nothing⟩ (byteAt data st.offset)
      (byteAt data (st.offset + 1)) = ([k], ⟨st'.status, .nothing⟩))
    (hview : (st.view data).add k = ⟨st'.curline, st'.row, st'.rows, false⟩) :
    Turns p data st st' := by
  refine ⟨hlast.le, by omega, ?_, ?_⟩
  · rw [hread, view_of_eq hlast]
    exact hview.symm
  · rw [hread, hoff]

/-- At an escape: two bytes are taken. -/
lemma turns_escape (hs : st.status = true)
    (hread : Mode.read p ⟨st.status, .nothing⟩ (byteAt data st.offset)
      (byteAt data (st.offset + 1)) = ([.literal p.quote], ⟨true, .one⟩)) :
    Turns p data st { st with
      curline := st.flush data ++ [p.quote], offset := st.offset + 2, lastOff := st.offset + 2 } := by
  refine ⟨le_rfl, ?_, ?_, ?_⟩
  · show st.offset < st.offset + 2
    omega
  · rw [hread, view_of_eq rfl]
    rfl
  · rw [hread]
    dsimp only
    rw [tokens_one, hs, List.tail_drop]

/-- **One turn** builds the tokens of the bytes it takes. -/
lemma turns (hle : st.lastOff ≤ st.offset) (hlt : st.offset < data.length) :
    Turns p data st (st.turn p data) := by
  by_cases hnl : isNewline (byteAt data st.offset) = true
  · exact turns_newline hnl
  cases hs : st.status with
  | false =>
      by_cases hsep : byteAt data st.offset = p.sep
      · rw [turn, if_neg hnl, if_pos hs, if_pos hsep]
        refine turns_mark rfl rfl (k := .separator) ?_ rfl
        rw [Mode.read_of_not_newline hnl, if_pos hs, if_pos hsep, hs]
      by_cases hquote : byteAt data st.offset = p.quote
      · rw [turn, if_neg hnl, if_pos hs, if_neg hsep, if_pos hquote]
        refine turns_mark rfl rfl (k := .quote) ?_ rfl
        rw [Mode.read_of_not_newline hnl, if_pos hs, if_neg hsep, if_pos hquote]
      · rw [turn, if_neg hnl, if_pos hs, if_neg hsep, if_neg hquote]
        refine turns_text hle hlt ?_
        rw [Mode.read_of_not_newline hnl, if_pos hs, if_neg hsep, if_neg hquote, hs]
  | true =>
      have hs' : ¬st.status = false := by simp [hs]
      by_cases hesc : byteAt data st.offset = backslash ∧ byteAt data (st.offset + 1) = p.quote
      · rw [turn, if_neg hnl, if_neg hs', if_pos hesc]
        refine turns_escape hs ?_
        rw [Mode.read_of_not_newline hnl, if_neg hs', if_pos hesc]
      by_cases hquote : byteAt data st.offset = p.quote
      · rw [turn, if_neg hnl, if_neg hs', if_neg hesc, if_pos hquote]
        refine turns_mark rfl rfl (k := .quote) ?_ rfl
        rw [Mode.read_of_not_newline hnl, if_neg hs', if_neg hesc, if_pos hquote]
      · rw [turn, if_neg hnl, if_neg hs', if_neg hesc, if_neg hquote]
        refine turns_text hle hlt ?_
        rw [Mode.read_of_not_newline hnl, if_neg hs', if_neg hesc, if_neg hquote, hs]

/-- **The loop** builds the tokens of all bytes from `offset` on, with as many turns as there are
bytes. -/
lemma loop_finish {fuel : ℕ} (hle : st.lastOff ≤ st.offset) (hfuel : data.length ≤ st.offset + fuel) :
    (loop p data fuel st).finish data
      = ((tokens p 0 ⟨st.status, .nothing⟩ (data.drop st.offset)).foldl Build.add
          (st.view data)).finish := by
  induction fuel generalizing st with
  | zero =>
      rw [List.drop_eq_nil_of_le (by omega)]
      exact (finish_view data st).symm
  | succ fuel ih =>
      rw [loop]
      split_ifs with hlt
      · have hturn := turns (p := p) hle hlt
        have hdrop : data.drop st.offset = byteAt data st.offset :: data.drop (st.offset + 1) := by
          rw [List.drop_eq_getElem_cons hlt, byteAt, List.getD_eq_getElem _ _ hlt]
        have hnext : (data.drop (st.offset + 1)).headD 0 = byteAt data (st.offset + 1) := by
          rw [List.headD_eq_getD]
          unfold byteAt
          rw [List.getD_eq_getElem?_getD, List.getElem?_drop, ← List.getD_eq_getElem?_getD]
        have hlt' := hturn.lt
        rw [ih hturn.le (by omega), hdrop, tokens, hnext, List.foldl_append, hturn.rest, hturn.view]
      · rw [List.drop_eq_nil_of_le (by omega)]
        exact (finish_view data st).symm

end Load

/-- The tokens depend on the separator and the quote only. -/
lemma tokens_clear (p : CsvParser) (next : UInt8) (m : Mode) (s : List UInt8) :
    tokens { p with cur := 0, rows := [] } next m s = tokens p next m s := by
  induction s generalizing m with
  | nil => rfl
  | cons c s ih =>
      unfold tokens
      rw [ih]
      rfl

/-- **What `load` returns** for a file it can read. -/
lemma load_eq (p : CsvParser) (s : List UInt8) :
    p.load (some s) true = (true, { p with cur := 0, rows := rowsOf p false s }) := by
  have hrows : (Load.loop { p with cur := 0, rows := [] } s s.length .start).finish s
      = rowsOf p false s := by
    rw [Load.loop_finish le_rfl (by simp [Load.start]), tokens_clear]
    rfl
  unfold CsvParser.load
  dsimp only
  by_cases hnil : s.length = 0
  · rw [if_pos hnil, List.length_eq_zero_iff.mp hnil]
    rfl
  · rw [if_neg hnil, if_neg (by decide), hrows]

end CocInside.System
