import CocInside.System.CsvParser
import Mathlib.Data.List.Basic

/-!
# The rows that `CsvParser::load` reads

* `render`: a file with every field between quotes. `load_render`: it is read back.
* `EndsInText`: the last byte is a character of a field. `load_newline_iff`: a last newline makes no
  difference exactly then; otherwise the last field is dropped without it.
* `insideQuotes`: the status that a text leaves. `load_append_iff`: rows read after a text are the rows
  read alone, exactly when it leaves the quotes closed or what follows reads the same inside quotes.

Source: `System/CsvParser.cpp`, `CsvParser::load`.
-/

namespace CocInside.System

variable {p : CsvParser} {next : UInt8}

/-! ## Writing and reading -/

/-- The characters of a field, each inner quote behind a backslash. -/
def escapeField (p : CsvParser) (f : List UInt8) : List UInt8 :=
  f.flatMap fun c => if c = p.quote then [backslash, p.quote] else [c]

/-- A field between quotes. -/
def renderField (p : CsvParser) (f : List UInt8) : List UInt8 :=
  p.quote :: escapeField p f ++ [p.quote]

/-- The fields of a row with separators between them. -/
def joinFields (p : CsvParser) : Row → List UInt8
  | [] => []
  | [f] => renderField p f
  | f :: fs => renderField p f ++ p.sep :: joinFields p fs

/-- A file: every row ended by a newline. -/
def render (p : CsvParser) (rows : List Row) : List UInt8 :=
  rows.flatMap fun row => joinFields p row ++ [10]

/-- A separator and a quote that can be told from each other, from newlines and from the escape. -/
structure CsvParser.Proper (p : CsvParser) : Prop where
  ne : p.sep ≠ p.quote
  sep : isNewline p.sep = false
  quote : isNewline p.quote = false
  escape : p.quote ≠ backslash

/-- The fields that can be written: no newlines in them, and no backslash at the end. -/
structure Writable (f : List UInt8) : Prop where
  newline : ∀ c ∈ f, isNewline c = false
  last : f.getLast? ≠ some backslash

/-- A character of a written field. -/
def fieldToken (p : CsvParser) (c : UInt8) : Token :=
  if c = p.quote then .literal p.quote else .text c

/-- What is behind a backslash of a written field is no quote. -/
lemma headD_escapeField (hp : p.Proper) {f rest : List UInt8} (hf : f ≠ []) :
    (escapeField p f ++ rest).headD next ≠ p.quote := by
  obtain ⟨c, f, rfl⟩ := List.exists_cons_of_ne_nil hf
  by_cases hc : c = p.quote
  · simpa [escapeField, hc] using hp.escape.symm
  · simp [escapeField, hc]

/-- **A written field reads back**, up to its closing quote. -/
lemma tokens_escapeField (hp : p.Proper) {f : List UInt8} (hf : Writable f) (rest : List UInt8) :
    tokens p next ⟨true, .nothing⟩ (escapeField p f ++ p.quote :: rest)
      = f.map (fieldToken p) ++ .quote :: tokens p next ⟨false, .nothing⟩ rest := by
  induction f with
  | nil =>
      have hq : ¬isNewline p.quote = true := by simp [hp.quote]
      rw [escapeField, List.flatMap_nil, List.nil_append, tokens, Mode.read_inside hq,
        if_neg (by simp [hp.escape]), if_pos rfl]
      rfl
  | cons c f ih =>
      have hnl : ¬isNewline c = true := by simp [hf.newline c List.mem_cons_self]
      have hf' : Writable f := by
        refine ⟨fun d hd => hf.newline d (List.mem_cons_of_mem c hd), fun hlast => ?_⟩
        apply hf.last
        rw [List.getLast?_cons, hlast]
        rfl
      by_cases hc : c = p.quote
      · -- the escape of a quote
        have hb : ¬isNewline backslash = true := by decide
        have hsplit : escapeField p (c :: f) ++ p.quote :: rest
            = backslash :: p.quote :: (escapeField p f ++ p.quote :: rest) := by
          simp [escapeField, hc]
        rw [hsplit, tokens, Mode.read_inside hb, if_pos ⟨rfl, rfl⟩, tokens_one, List.tail_cons, ih hf']
        simp [fieldToken, hc]
      · have hsplit : escapeField p (c :: f) ++ p.quote :: rest
            = c :: (escapeField p f ++ p.quote :: rest) := by
          simp [escapeField, hc]
        have hesc : ¬(c = backslash ∧ (escapeField p f ++ p.quote :: rest).headD next = p.quote) := by
          rintro ⟨rfl, hhead⟩
          rcases eq_or_ne f [] with rfl | hne
          · exact hf.last rfl
          · exact headD_escapeField hp hne hhead
        rw [hsplit, tokens, Mode.read_inside hnl, if_neg hesc, if_neg hc, ih hf']
        simp [fieldToken, hc]

/-- What the characters of a field build. -/
lemma foldl_fieldToken (f : List UInt8) (b : Build) :
    ((f.map (fieldToken p)).foldl Build.add b).add .quote
      = { b with field := b.field ++ f, pending := false } := by
  induction f generalizing b with
  | nil => simp [Build.add]
  | cons c f ih =>
      rw [List.map_cons, List.foldl_cons, ih]
      by_cases hc : c = p.quote
      · simp [fieldToken, hc, Build.add]
      · simp [fieldToken, hc, Build.add]

/-- A written field, between quotes. -/
lemma foldl_renderField (hp : p.Proper) {f : List UInt8} (hf : Writable f) (rest : List UInt8)
    (b : Build) :
    (tokens p next ⟨false, .nothing⟩ (renderField p f ++ rest)).foldl Build.add b
      = (tokens p next ⟨false, .nothing⟩ rest).foldl Build.add
          { b with field := b.field ++ f, pending := false } := by
  have hq : ¬isNewline p.quote = true := by simp [hp.quote]
  have hsplit : renderField p f ++ rest = p.quote :: (escapeField p f ++ p.quote :: rest) := by
    simp [renderField]
  rw [hsplit, tokens, Mode.read_outside hq, if_neg hp.ne.symm, if_pos rfl, tokens_escapeField hp hf,
    List.foldl_append, List.foldl_append, List.foldl_cons, foldl_fieldToken]
  rfl

/-- A written row, with what has been read of it so far. -/
lemma foldl_joinFields (hp : p.Proper) {fs : Row} (hne : fs ≠ []) (hfs : ∀ f ∈ fs, Writable f)
    (rest : List UInt8) (row : Row) (rows : List Row) (pending : Bool) :
    (tokens p next ⟨false, .nothing⟩ (joinFields p fs ++ 10 :: rest)).foldl Build.add
        ⟨[], row, rows, pending⟩
      = (tokens p next ⟨false, .newlines⟩ rest).foldl Build.add
          ⟨[], [], rows ++ [row ++ fs], false⟩ := by
  induction fs using joinFields.induct generalizing row pending with
  | case1 => exact absurd rfl hne
  | case2 f =>
      rw [joinFields, foldl_renderField hp (hfs f List.mem_cons_self), tokens,
        Mode.read_newline (by decide)]
      rfl
  | case3 f fs hmore ih =>
      have hs : ¬isNewline p.sep = true := by simp [hp.sep]
      have hne' : fs ≠ [] := fun h => hmore h
      have hsplit : joinFields p (f :: fs) ++ 10 :: rest
          = renderField p f ++ p.sep :: (joinFields p fs ++ 10 :: rest) := by
        rw [joinFields]
        · simp
        · exact hmore
      rw [hsplit, foldl_renderField hp (hfs f List.mem_cons_self), tokens,
        Mode.read_outside hs, if_pos rfl, List.foldl_append]
      show (tokens p next ⟨false, .nothing⟩ (joinFields p fs ++ 10 :: rest)).foldl Build.add
        ⟨[], row ++ [[] ++ f], rows, false⟩ = _
      rw [ih hne' (fun g hg => hfs g (List.mem_cons_of_mem f hg))]
      simp

/-- A file does not start with a newline. -/
lemma dropWhile_render (hp : p.Proper) {rows : List Row} (hne : ∀ row ∈ rows, row ≠ []) :
    (render p rows).dropWhile isNewline = render p rows := by
  cases rows with
  | nil => rfl
  | cons row rows =>
      obtain ⟨f, fs, rfl⟩ := List.exists_cons_of_ne_nil (hne row List.mem_cons_self)
      have hstart : ∃ tl, render p ((f :: fs) :: rows) = p.quote :: tl := by
        cases fs with
        | nil => exact ⟨_, rfl⟩
        | cons g gs => exact ⟨_, rfl⟩
      obtain ⟨tl, htl⟩ := hstart
      rw [htl, List.dropWhile_cons_of_neg (by simp [hp.quote])]

/-- A written file. -/
lemma foldl_render (hp : p.Proper) {rows : List Row} (hne : ∀ row ∈ rows, row ≠ [])
    (hfs : ∀ row ∈ rows, ∀ f ∈ row, Writable f) (done : List Row) :
    (tokens p next ⟨false, .nothing⟩ (render p rows)).foldl Build.add ⟨[], [], done, false⟩
      = ⟨[], [], done ++ rows, false⟩ := by
  induction rows generalizing done with
  | nil => simp [render, tokens]
  | cons row rows ih =>
      have hrest : ∀ row ∈ rows, row ≠ [] := fun r hr => hne r (List.mem_cons_of_mem row hr)
      have hsplit : render p (row :: rows) = joinFields p row ++ 10 :: render p rows := by
        simp [render]
      rw [hsplit, foldl_joinFields hp (hne row List.mem_cons_self) (hfs row List.mem_cons_self),
        tokens_newlines, dropWhile_render hp hrest,
        ih hrest (fun r hr => hfs r (List.mem_cons_of_mem row hr))]
      simp

/-- **Round trip.** Rows whose fields have no newlines and do not end in a backslash, written with every
field between quotes, are read back as they were. -/
theorem load_render (p : CsvParser) (hp : p.Proper) (rows : List Row) (hne : ∀ row ∈ rows, row ≠ [])
    (hfs : ∀ row ∈ rows, ∀ f ∈ row, Writable f) :
    p.load (some (render p rows)) true = (true, { p with cur := 0, rows := rows }) := by
  rw [load_eq, rowsOf]
  show (true, { p with cur := 0, rows := ((tokens p 0 ⟨false, .nothing⟩ (render p rows)).foldl
    Build.add ⟨[], [], [], false⟩).finish }) = _
  rw [foldl_render hp hne hfs]
  rfl

/-- Commas and double quotes. -/
def commas : CsvParser := ⟨44, 34, 0, []⟩

/-- Two rows, with a separator, a quote, a backslash before a quote and an empty field. -/
theorem load_render_commas :
    commas.load (some (render commas [[[97, 44, 34], []], [[92, 34, 98]]])) true
      = (true, { commas with rows := [[[97, 44, 34], []], [[92, 34, 98]]] }) := by
  refine load_render commas ⟨by decide, by decide, by decide, by decide⟩ _ ?_ ?_
  · decide
  · simp only [List.forall_mem_cons, List.not_mem_nil, false_imp_iff, implies_true, and_true]
    refine ⟨⟨⟨?_, by decide⟩, ⟨nofun, by decide⟩⟩, ⟨?_, by decide⟩⟩
    · simp [isNewline]
    · simp [isNewline]

/-! ## Modes and what has been built -/

/-- The mode after two texts is that after the second, from the mode after the first. -/
lemma modeAfter_append (m : Mode) (s t : List UInt8) :
    modeAfter p next m (s ++ t) = modeAfter p next (modeAfter p (t.headD next) m s) t := by
  induction s generalizing m with
  | nil => rfl
  | cons c s ih =>
      have hhead : (s ++ t).headD next = s.headD (t.headD next) := by cases s <;> rfl
      simp only [List.cons_append, modeAfter, hhead, ih]

/-- What a mode says about the parser and about what has been built: inside quotes the quote is one that
can open and close, an escape has been copied, and behind newlines a row has been started. -/
structure Linked (p : CsvParser) (m : Mode) (b : Build) : Prop where
  quote : m.status = true → isNewline p.quote = false ∧ p.sep ≠ p.quote
  one : m.skip = .one → m.status = true ∧ b.pending = false
  newlines : m.skip = .newlines → b.field = [] ∧ b.row = [] ∧ b.pending = false

/-- One byte keeps the link. -/
lemma Linked.read {m : Mode} {b : Build} (h : Linked p m b) (c : UInt8) :
    Linked p (m.read p c next).2 ((m.read p c next).1.foldl Build.add b) := by
  obtain ⟨status, skip⟩ := m
  unfold Mode.read
  dsimp only
  split_ifs with h1 h2 h3 h4 h5 h6 h7 h8
  · exact ⟨h.quote, by simp, by simp⟩
  · exact h
  · exact ⟨h.quote, by simp, fun _ => ⟨rfl, rfl, rfl⟩⟩
  · exact ⟨by simp, by simp, by simp⟩
  · refine ⟨fun _ => ⟨?_, ?_⟩, by simp, by simp⟩
    · simpa [h6] using h3
    · rw [← h6]
      exact fun heq => h5 heq.symm
  · exact ⟨by simp, by simp, by simp⟩
  · exact ⟨fun _ => h.quote (by simpa using h4), fun _ => ⟨rfl, rfl⟩, by simp⟩
  · exact ⟨by simp, by simp, by simp⟩
  · exact ⟨fun _ => h.quote (by simpa using h4), by simp, by simp⟩

/-- **Any bytes keep the link.** -/
lemma Linked.tokens {m : Mode} {b : Build} (h : Linked p m b) (s : List UInt8) :
    Linked p (modeAfter p next m s) ((tokens p next m s).foldl Build.add b) := by
  induction s generalizing m b with
  | nil => exact h
  | cons c s ih =>
      rw [CocInside.System.tokens, modeAfter, List.foldl_append]
      exact ih (h.read c)

/-- From the start. -/
lemma linked_start (p : CsvParser) (next : UInt8) (s : List UInt8) :
    Linked p (modeAfter p next ⟨false, .nothing⟩ s)
      ((tokens p next ⟨false, .nothing⟩ s).foldl Build.add .start) :=
  Linked.tokens ⟨by simp, by simp, by simp⟩ s

/-- An escape looks ahead to its quote. -/
lemma Mode.quote_of_read_one {m : Mode} {c : UInt8} :
    (m.read p c next).2.skip = .one → next = p.quote := by
  obtain ⟨status, skip⟩ := m
  unfold Mode.read
  dsimp only
  split_ifs with h1 h2 h3 h4 h5 h6 h7
  · simp
  · exact fun h => absurd h h1
  · simp
  · simp
  · simp
  · simp
  · exact fun _ => h7.2
  · simp
  · simp

/-- A mode that skips one byte is before the quote of an escape. -/
lemma quote_of_skip_one (p : CsvParser) (next : UInt8) (s : List UInt8)
    (h : (modeAfter p next ⟨false, .nothing⟩ s).skip = .one) : next = p.quote := by
  rcases List.eq_nil_or_concat' s with rfl | ⟨u, c, rfl⟩
  · cases h
  · rw [modeAfter_append] at h
    exact Mode.quote_of_read_one h

/-! ## The end of the file -/

/-- Whether a text leaves a quote open, when `next` is behind it. -/
def insideQuotes (p : CsvParser) (s : List UInt8) (next : UInt8) : Bool :=
  (modeAfter p next ⟨false, .nothing⟩ s).status

/-- The last byte is a character of a field: no quote, no separator outside quotes, and no backslash that
takes the 0 behind the file for a quote. -/
def EndsInText (p : CsvParser) (s : List UInt8) : Prop :=
  let c := s.getLastD 0
  let inside := insideQuotes p s.dropLast c
  c ≠ p.quote ∧ (c = p.sep → inside = true) ∧ ¬(p.quote = 0 ∧ c = backslash ∧ inside = true)

instance (p : CsvParser) (s : List UInt8) : Decidable (EndsInText p s) :=
  inferInstanceAs (Decidable (_ ∧ _))

/-- A row that is ended by a newline. -/
lemma finish_endOfLine (b : Build) :
    (b.add .endOfLine).finish = b.rows ++ [b.row ++ [b.field]] := by
  simp [Build.add, Build.finish]

/-- A row that the end of the file ends, with a field that is pending. -/
lemma finish_text (b : Build) (c : UInt8) :
    (b.add (.text c)).finish = ((b.add (.text c)).add .endOfLine).finish := by
  simp [Build.add, Build.finish]

/-- Without a pending field, the end of the file never adds one. -/
lemma finish_ne {b : Build} (h : b.pending = false) (f : List UInt8) :
    b.finish ≠ b.rows ++ [b.row ++ [f]] := by
  unfold Build.finish
  rw [h]
  simp only [Bool.false_eq_true, if_false]
  split_ifs with hrow
  · intro heq
    have hlast := List.singleton_inj.mp (List.append_cancel_left heq)
    have := congrArg List.length hlast
    simp at this
  · intro heq
    have := congrArg List.length heq
    simp at this

/-- A character of a field, at the end of the file and before a newline. -/
lemma read_last_text {m : Mode} {b : Build} {c : UInt8} (hlink : Linked p m b)
    (hnl : ¬isNewline c = true) (hone : m.skip ≠ .one) (hquote : c ≠ p.quote)
    (hsep : c = p.sep → m.status = true) (hzero : ¬(p.quote = 0 ∧ c = backslash ∧ m.status = true)) :
    ∀ next, next = 0 ∨ next = 10 → m.read p c next = ([.text c], ⟨m.status, .nothing⟩) := by
  intro next hnext
  obtain ⟨status, skip⟩ := m
  rw [Mode.read_of_skip hone hnl]
  cases status with
  | false =>
      have hne : c ≠ p.sep := fun heq => Bool.false_ne_true (hsep heq)
      rw [Mode.read_outside hnl, if_neg hne, if_neg hquote]
  | true =>
      have hesc : ¬(c = backslash ∧ next = p.quote) := by
        rintro ⟨hc, hq⟩
        rcases hnext with rfl | rfl
        · exact hzero ⟨hq.symm, hc, rfl⟩
        · have := (hlink.quote rfl).1
          rw [← hq] at this
          exact absurd this (by decide)
      rw [Mode.read_inside hnl, if_neg hesc, if_neg hquote]

/-- Any other byte leaves no field pending, and no more in the row than it does before a newline. -/
lemma read_last_mark {m : Mode} {b : Build} {c : UInt8} (hlink : Linked p m b)
    (hnl : ¬isNewline c = true)
    (hmark : ¬(m.skip ≠ .one ∧ c ≠ p.quote ∧ (c = p.sep → m.status = true) ∧
      ¬(p.quote = 0 ∧ c = backslash ∧ m.status = true))) :
    ((m.read p c 0).1.foldl Build.add b).pending = false ∧
      ((m.read p c 10).1.foldl Build.add b).rows = ((m.read p c 0).1.foldl Build.add b).rows ∧
      ((m.read p c 10).1.foldl Build.add b).row = ((m.read p c 0).1.foldl Build.add b).row ∧
      (m.read p c 10).2.skip = .nothing := by
  obtain ⟨status, skip⟩ := m
  by_cases hone : skip = .one
  · subst hone
    exact ⟨(hlink.one rfl).2, rfl, rfl, rfl⟩
  rw [Mode.read_of_skip hone hnl, Mode.read_of_skip hone hnl]
  cases status with
  | false =>
      rw [Mode.read_outside hnl, Mode.read_outside hnl]
      by_cases hsep : c = p.sep
      · rw [if_pos hsep]
        exact ⟨rfl, rfl, rfl, rfl⟩
      by_cases hquote : c = p.quote
      · rw [if_neg hsep, if_pos hquote]
        exact ⟨rfl, rfl, rfl, rfl⟩
      · exact absurd ⟨hone, hquote, fun h => absurd h hsep, by simp⟩ hmark
  | true =>
      have h10 : ¬(c = backslash ∧ 10 = p.quote) := by
        rintro ⟨-, hq⟩
        have := (hlink.quote rfl).1
        rw [← hq] at this
        exact absurd this (by decide)
      rw [Mode.read_inside hnl, Mode.read_inside hnl, if_neg h10]
      by_cases hesc : c = backslash ∧ 0 = p.quote
      · have hne : c ≠ p.quote := by
          rw [hesc.1, ← hesc.2]
          decide
        rw [if_pos hesc, if_neg hne]
        exact ⟨rfl, rfl, rfl, rfl⟩
      · rw [if_neg hesc]
        by_cases hquote : c = p.quote
        · rw [if_pos hquote]
          exact ⟨rfl, rfl, rfl, rfl⟩
        · exact absurd ⟨hone, hquote, fun _ => rfl, fun h => hesc ⟨h.2.1, h.1.symm⟩⟩ hmark

/-- **The last newline, exactly.** For a file that does not end in a newline, one more newline makes no
difference to the rows if and only if the last byte is a character of a field. -/
theorem load_newline_iff (p : CsvParser) (s : List UInt8) (hne : s ≠ [])
    (hlast : isNewline (s.getLastD 0) = false) :
    (p.load (some s) true).2.rows = (p.load (some (s ++ [10])) true).2.rows ↔ EndsInText p s := by
  obtain ⟨u, c, rfl⟩ := (List.eq_nil_or_concat' s).resolve_left hne
  rw [load_eq, load_eq]
  unfold EndsInText insideQuotes rowsOf
  simp only [List.getLastD_concat] at hlast
  simp only [List.getLastD_concat, List.dropLast_concat]
  have hnl : ¬isNewline c = true := by simp [hlast]
  have hlink := linked_start p c u
  have hone := quote_of_skip_one p c u
  rw [tokens_append, tokens_append, tokens_append, modeAfter_append, List.foldl_append,
    List.foldl_append, List.foldl_append]
  simp only [List.headD_cons, tokens, modeAfter, List.headD_nil, List.append_nil]
  generalize modeAfter p c ⟨false, .nothing⟩ u = m at hlink hone ⊢
  generalize (tokens p c ⟨false, .nothing⟩ u).foldl Build.add .start = b at hlink ⊢
  constructor
  · intro heq
    by_contra hnot
    have hmark : ¬(m.skip ≠ .one ∧ c ≠ p.quote ∧ (c = p.sep → m.status = true) ∧
        ¬(p.quote = 0 ∧ c = backslash ∧ m.status = true)) := fun h => hnot h.2
    obtain ⟨hpending, hrows, hrow, hskip⟩ := read_last_mark hlink hnl hmark
    generalize hm' : (m.read p c 10).2 = m' at heq hskip
    obtain ⟨status, skip⟩ := m'
    dsimp only at hskip
    subst hskip
    rw [Mode.read_newline (by decide)] at heq
    simp only [List.foldl_cons, List.foldl_nil] at heq
    rw [finish_endOfLine, hrows, hrow] at heq
    exact finish_ne hpending _ heq
  · rintro ⟨hquote, hsep, hzero⟩
    have hread := read_last_text hlink hnl (fun h => hquote (hone h)) hquote hsep hzero
    rw [hread 0 (.inl rfl), hread 10 (.inr rfl), Mode.read_newline (by decide)]
    exact finish_text b c

/-- Two fields without quotes. -/
theorem load_newline_plain :
    (commas.load (some [97, 44, 98]) true).2.rows
      = (commas.load (some ([97, 44, 98] ++ [10])) true).2.rows :=
  (load_newline_iff commas [97, 44, 98] (by decide) (by decide)).mpr (by decide)

/-- A last field between quotes is dropped. -/
theorem load_quoted_dropped :
    (commas.load (some [97, 44, 34, 98, 34]) true).2.rows = [[[97]]] ∧
      (commas.load (some ([97, 44, 34, 98, 34] ++ [10])) true).2.rows = [[[97], [98]]] := by
  decide

/-! ## Rows after other rows -/

/-- The rows so far stand before what is read from there on. -/
lemma foldl_finish_append (toks : List Token) (done : List Row) (b : Build) :
    (toks.foldl Build.add { b with rows := done ++ b.rows }).finish
      = done ++ (toks.foldl Build.add b).finish := by
  induction toks generalizing b with
  | nil =>
      obtain ⟨field, row, rows, pending⟩ := b
      rw [List.foldl_nil, List.foldl_nil]
      cases pending with
      | true => simp [Build.finish]
      | false => by_cases hrow : row = [] <;> simp [Build.finish, hrow]
  | cons k toks ih =>
      have hadd : ({ b with rows := done ++ b.rows } : Build).add k
          = { b.add k with rows := done ++ (b.add k).rows } := by
        cases k <;> simp [Build.add]
      rw [List.foldl_cons, List.foldl_cons, hadd, ih]

/-- After a text that ends in a newline: a row is to be started, and only the status is left of it. -/
lemma after_newline (p : CsvParser) (u : List UInt8) :
    ∃ status done, ∀ next, modeAfter p next ⟨false, .nothing⟩ (u ++ [10]) = ⟨status, .newlines⟩ ∧
      (tokens p next ⟨false, .nothing⟩ (u ++ [10])).foldl Build.add .start
        = ⟨[], [], done, false⟩ := by
  have hlink := linked_start p 10 u
  have hone := quote_of_skip_one p 10 u
  generalize hm : modeAfter p 10 ⟨false, .nothing⟩ u = m at hlink hone
  generalize hb : (tokens p 10 ⟨false, .nothing⟩ u).foldl Build.add .start = b at hlink
  have hskip : m.skip ≠ .one := by
    intro h
    have hq := (hlink.quote (hlink.one h).1).1
    rw [← hone h] at hq
    exact absurd hq (by decide)
  have hnl : isNewline 10 = true := by decide
  -- the newline ends a row, or is skipped with others
  have hread : ∃ done, ∀ next, (m.read p 10 next).2 = ⟨m.status, .newlines⟩ ∧
      (m.read p 10 next).1.foldl Build.add b = ⟨[], [], done, false⟩ := by
    obtain ⟨status, skip⟩ := m
    cases skip with
    | nothing =>
        refine ⟨b.rows ++ [b.row ++ [b.field]], fun next => ?_⟩
        rw [Mode.read_newline hnl]
        exact ⟨rfl, rfl⟩
    | one => exact absurd rfl hskip
    | newlines =>
        obtain ⟨hfield, hrow, hpending⟩ := hlink.newlines rfl
        refine ⟨b.rows, fun next => ?_⟩
        rw [Mode.read, if_neg (by simp), if_pos ⟨rfl, hnl⟩]
        refine ⟨rfl, ?_⟩
        simp [← hfield, ← hrow, ← hpending]
  obtain ⟨done, hread⟩ := hread
  refine ⟨m.status, done, fun next => ?_⟩
  rw [modeAfter_append, tokens_append, List.foldl_append, List.headD_cons, hm, hb]
  simp only [modeAfter, tokens, List.headD_nil, List.append_nil]
  exact hread next

/-- What follows a text that ends in a newline is read on its own, in the status that the text leaves. -/
lemma rowsOf_append {u t : List UInt8} (ht : isNewline (t.headD 0) = false) :
    rowsOf p false (u ++ [10] ++ t)
      = rowsOf p false (u ++ [10]) ++ rowsOf p (insideQuotes p (u ++ [10]) 0) t := by
  obtain ⟨status, done, hafter⟩ := after_newline p u
  obtain ⟨hmode, hbuild⟩ := hafter (t.headD 0)
  obtain ⟨hmode0, hbuild0⟩ := hafter 0
  have hskip : t.dropWhile isNewline = t := by
    cases t with
    | nil => rfl
    | cons c t => exact List.dropWhile_cons_of_neg (by simpa using ht)
  unfold rowsOf insideQuotes
  rw [tokens_append, List.foldl_append, hbuild, hmode, hbuild0, hmode0, tokens_newlines, hskip]
  have hrows := foldl_finish_append (tokens p 0 ⟨status, .nothing⟩ t) done .start
  simp only [Build.start, List.append_nil] at hrows ⊢
  rw [hrows]
  rfl

/-! ## Reading inside and outside quotes -/

/-- No field and no row is made of these tokens, not even at the end of the file. -/
def quiet : Bool → List Token → Bool
  | pending, [] => !pending
  | _, .text _ :: toks => quiet true toks
  | _, .literal _ :: toks => quiet false toks
  | _, .quote :: toks => quiet false toks
  | _, .separator :: _ => false
  | _, .endOfLine :: _ => false

/-- A file that reads the same inside and outside quotes: no separators in it, and no escapes but one
in a last field that is dropped. Where the quote is the escape character itself, three in a row are one
escape and one quote for both readings. -/
def readsAlike (p : CsvParser) : List UInt8 → Bool
  | [] => true
  | c :: t =>
      if isNewline c then readsAlike p t
      else if c = p.sep then false
      else if c = backslash ∧ t.headD 0 = p.quote then
        match t with
        | [] => false
        | _ :: t =>
            if p.quote = backslash ∧ t.headD 0 = backslash then readsAlike p t
            else quiet false (tokens p 0 ⟨true, .nothing⟩ t) &&
              (p.quote ≠ backslash || quiet false (tokens p 0 ⟨false, .nothing⟩ t))
      else readsAlike p t

/-- The rows so far stay. -/
lemma foldl_finish_exists (toks : List Token) (b : Build) :
    ∃ rows, (toks.foldl Build.add b).finish = b.rows ++ rows := by
  have happend := foldl_finish_append toks b.rows { b with rows := [] }
  rw [List.append_nil] at happend
  exact ⟨_, happend⟩

/-- A field that is in the row stays the first one of the next row. -/
lemma foldl_row_cons (toks : List Token) {b : Build} {f : List UInt8} {row : Row}
    (hrow : b.row = f :: row) :
    ∃ fs rows, (toks.foldl Build.add b).finish = b.rows ++ (f :: fs) :: rows := by
  induction toks generalizing b row with
  | nil =>
      rw [List.foldl_nil, Build.finish, hrow]
      cases b.pending with
      | true => exact ⟨row ++ [b.field], [], by simp⟩
      | false => exact ⟨row, [], by simp⟩
  | cons k toks ih =>
      rw [List.foldl_cons]
      cases k with
      | text c => exact ih (b := b.add (.text c)) hrow
      | literal c => exact ih (b := b.add (.literal c)) hrow
      | quote => exact ih (b := b.add .quote) hrow
      | separator =>
          have hrow' : (b.add .separator).row = f :: (row ++ [b.field]) := by simp [Build.add, hrow]
          exact ih hrow'
      | endOfLine =>
          obtain ⟨rows, hrows⟩ := foldl_finish_exists toks (b.add .endOfLine)
          refine ⟨row ++ [b.field], rows, ?_⟩
          rw [hrows]
          simp [Build.add, hrow]

/-- Quiet tokens leave the rows as they are; others make a row whose first field begins with what there
is of it. -/
lemma foldl_quiet (toks : List Token) {b : Build} (hrow : b.row = []) :
    (quiet b.pending toks = true → (toks.foldl Build.add b).finish = b.rows) ∧
    (quiet b.pending toks = false → ∃ f fs rows,
      (toks.foldl Build.add b).finish = b.rows ++ ((b.field ++ f) :: fs) :: rows) := by
  induction toks generalizing b with
  | nil =>
      rw [List.foldl_nil, Build.finish, hrow]
      unfold quiet
      cases b.pending with
      | true => exact ⟨by simp, fun _ => ⟨[], [], [], by simp⟩⟩
      | false => exact ⟨by simp, by simp⟩
  | cons k toks ih =>
      rw [List.foldl_cons]
      cases k with
      | text c =>
          obtain ⟨hquiet, hloud⟩ := ih (b := b.add (.text c)) hrow
          refine ⟨hquiet, fun h => ?_⟩
          obtain ⟨f, fs, rows, heq⟩ := hloud h
          exact ⟨c :: f, fs, rows, by rw [heq]; simp [Build.add]⟩
      | literal c =>
          obtain ⟨hquiet, hloud⟩ := ih (b := b.add (.literal c)) hrow
          refine ⟨hquiet, fun h => ?_⟩
          obtain ⟨f, fs, rows, heq⟩ := hloud h
          exact ⟨c :: f, fs, rows, by rw [heq]; simp [Build.add]⟩
      | quote => exact ih (b := b.add .quote) hrow
      | separator =>
          refine ⟨by simp [quiet], fun _ => ?_⟩
          have hrow' : (b.add .separator).row = b.field :: [] := by simp [Build.add, hrow]
          obtain ⟨fs, rows, heq⟩ := foldl_row_cons toks hrow'
          exact ⟨[], fs, rows, by rw [heq]; simp [Build.add]⟩
      | endOfLine =>
          refine ⟨by simp [quiet], fun _ => ?_⟩
          obtain ⟨rows, heq⟩ := foldl_finish_exists toks (b.add .endOfLine)
          exact ⟨[], [], rows, by rw [heq]; simp [Build.add, hrow]⟩

/-- The rows built by the tokens of `t`. -/
def rowsFrom (p : CsvParser) (m : Mode) (t : List UInt8) (b : Build) : List Row :=
  ((tokens p 0 m t).foldl Build.add b).finish

/-- Rows that are the same have the same first field. -/
lemma first_field_inj {rows rest rest' : List Row} {x f f' : List UInt8} {fs fs' : Row}
    (h : rows ++ ((x ++ f) :: fs) :: rest = rows ++ ((x ++ f') :: fs') :: rest') : f = f' := by
  have hrest := List.append_cancel_left h
  exact List.append_cancel_left (List.cons.inj (List.cons.inj hrest).1).1

/-- The tokens of one more byte that is no newline. -/
lemma rowsFrom_cons {m : Mode} {c : UInt8} {t : List UInt8} {b : Build} {toks : List Token} {m' : Mode}
    (hread : m.read p c (t.headD 0) = (toks, m')) :
    rowsFrom p m (c :: t) b = rowsFrom p m' t (toks.foldl Build.add b) := by
  unfold rowsFrom
  rw [tokens, hread, List.foldl_append]

/-- A separator is read differently: it ends the field outside quotes, and belongs to it inside. -/
lemma rowsFrom_sep {t : List UInt8} {b : Build} (hnl : ¬isNewline p.sep = true)
    (hne : p.sep ≠ p.quote) (hrow : b.row = []) :
    rowsFrom p ⟨true, .nothing⟩ (p.sep :: t) b ≠ rowsFrom p ⟨false, .nothing⟩ (p.sep :: t) b := by
  have houtside : ∃ fs rows,
      rowsFrom p ⟨false, .nothing⟩ (p.sep :: t) b = b.rows ++ (b.field :: fs) :: rows := by
    rw [rowsFrom_cons ((Mode.read_outside hnl).trans (if_pos rfl))]
    have hrow' : (b.add .separator).row = b.field :: [] := by simp [Build.add, hrow]
    exact foldl_row_cons _ hrow'
  have hinside : ∃ d, rowsFrom p ⟨true, .nothing⟩ (p.sep :: t) b = b.rows ∨ ∃ f fs rows,
      rowsFrom p ⟨true, .nothing⟩ (p.sep :: t) b = b.rows ++ ((b.field ++ [d] ++ f) :: fs) :: rows := by
    by_cases hesc : p.sep = backslash ∧ t.headD 0 = p.quote
    · refine ⟨p.quote, ?_⟩
      rw [rowsFrom_cons ((Mode.read_inside hnl).trans (if_pos hesc))]
      obtain ⟨hquiet, hloud⟩ := foldl_quiet (tokens p 0 ⟨true, .one⟩ t)
        (b := b.add (.literal p.quote)) hrow
      cases hq : quiet (b.add (.literal p.quote)).pending (tokens p 0 ⟨true, .one⟩ t) with
      | true => exact .inl (hquiet hq)
      | false => exact .inr (hloud hq)
    · refine ⟨p.sep, ?_⟩
      rw [rowsFrom_cons ((Mode.read_inside hnl).trans ((if_neg hesc).trans (if_neg hne)))]
      obtain ⟨hquiet, hloud⟩ := foldl_quiet (tokens p 0 ⟨true, .nothing⟩ t)
        (b := b.add (.text p.sep)) hrow
      cases hq : quiet (b.add (.text p.sep)).pending (tokens p 0 ⟨true, .nothing⟩ t) with
      | true => exact .inl (hquiet hq)
      | false => exact .inr (hloud hq)
  obtain ⟨fs, rows, hout⟩ := houtside
  obtain ⟨d, hin⟩ := hinside
  rw [hout]
  intro heq
  rcases hin with hin | ⟨f, fs', rows', hin⟩
  · have := congrArg List.length (hin.symm.trans heq)
    simp at this
  · have hrest := List.append_cancel_left (hin.symm.trans heq)
    have := congrArg List.length (List.cons.inj (List.cons.inj hrest).1).1
    simp at this

/-- An escape is read differently, unless its field is dropped. -/
lemma rowsFrom_escape {t : List UInt8} {b : Build} (hsep : backslash ≠ p.sep)
    (hquote : p.quote ≠ backslash) (hnl : ¬isNewline p.quote = true) (hne : p.sep ≠ p.quote)
    (hrow : b.row = []) :
    rowsFrom p ⟨true, .nothing⟩ (backslash :: p.quote :: t) b
        = rowsFrom p ⟨false, .nothing⟩ (backslash :: p.quote :: t) b ↔
      quiet false (tokens p 0 ⟨true, .nothing⟩ t) = true := by
  have hb : ¬isNewline backslash = true := by decide
  rw [rowsFrom_cons ((Mode.read_inside hb).trans (if_pos ⟨rfl, rfl⟩)),
    rowsFrom_cons ((Mode.read_outside hb).trans ((if_neg hsep).trans (if_neg hquote.symm))),
    rowsFrom_cons ((Mode.read_outside hnl).trans ((if_neg hne.symm).trans (if_pos rfl)))]
  unfold rowsFrom
  rw [tokens_one, List.tail_cons]
  obtain ⟨hquiet, hloud⟩ := foldl_quiet (tokens p 0 ⟨true, .nothing⟩ t)
    (b := [Token.literal p.quote].foldl Build.add b) hrow
  obtain ⟨hquiet', hloud'⟩ := foldl_quiet (tokens p 0 ⟨true, .nothing⟩ t)
    (b := [Token.quote].foldl Build.add ([Token.text backslash].foldl Build.add b)) hrow
  cases hq : quiet false (tokens p 0 ⟨true, .nothing⟩ t) with
  | true =>
      refine iff_of_true ?_ rfl
      rw [hquiet hq, hquiet' hq]
      rfl
  | false =>
      refine iff_of_false ?_ (by simp)
      obtain ⟨f, fs, rows, heq⟩ := hloud hq
      obtain ⟨f', fs', rows', heq'⟩ := hloud' hq
      rw [heq, heq']
      intro hsame
      simp only [List.foldl_cons, List.foldl_nil, Build.add, List.append_assoc] at hsame
      exact hquote (List.cons.inj (first_field_inj hsame)).1

/-- An escape at the end of the file is taken with the 0 behind it. -/
lemma rowsFrom_escape_last {b : Build} (hsep : backslash ≠ p.sep) (hzero : 0 = p.quote)
    (hrow : b.row = []) :
    rowsFrom p ⟨true, .nothing⟩ [backslash] b ≠ rowsFrom p ⟨false, .nothing⟩ [backslash] b := by
  have hb : ¬isNewline backslash = true := by decide
  have hquote : backslash ≠ 0 := by decide
  simp [rowsFrom, tokens, Mode.read_inside hb, Mode.read_outside hb, ← hzero, hsep, hquote, Build.add,
    Build.finish, hrow]

/-! ## A quote that is the escape character -/

/-- A text that begins with a backslash. -/
lemma exists_of_headD_backslash {t : List UInt8} (h : t.headD 0 = backslash) :
    ∃ t', t = backslash :: t' := by
  cases t with
  | nil => exact absurd h (by decide)
  | cons c t =>
      obtain rfl : c = backslash := h
      exact ⟨t, rfl⟩

/-- Outside quotes, a field that goes on does not go on with a quote. -/
lemma rowsFrom_outside {t : List UInt8} {b : Build} (ht : t.headD 0 ≠ p.quote) (hrow : b.row = [])
    (hloud : quiet b.pending (tokens p 0 ⟨false, .nothing⟩ t) = false) :
    ∃ f fs rows, rowsFrom p ⟨false, .nothing⟩ t b = b.rows ++ ((b.field ++ f) :: fs) :: rows ∧
      f.head? ≠ some p.quote := by
  cases t with
  | nil =>
      have hpending : b.pending = true := by simpa [tokens, quiet] using hloud
      exact ⟨[], [], [], by simp [rowsFrom, tokens, Build.finish, hpending, hrow], by simp⟩
  | cons c t =>
      have hc : c ≠ p.quote := ht
      by_cases hnl : isNewline c = true
      · rw [rowsFrom_cons (Mode.read_newline hnl)]
        obtain ⟨rows, heq⟩ := foldl_finish_exists (tokens p 0 ⟨false, .newlines⟩ t)
          (b.add .endOfLine)
        refine ⟨[], [], rows, heq.trans ?_, by simp⟩
        simp [Build.add, hrow]
      by_cases hsep : c = p.sep
      · rw [rowsFrom_cons ((Mode.read_outside hnl).trans (if_pos hsep))]
        have hrow' : (b.add .separator).row = b.field :: [] := by simp [Build.add, hrow]
        obtain ⟨fs, rows, heq⟩ := foldl_row_cons (tokens p 0 ⟨false, .nothing⟩ t) hrow'
        refine ⟨[], fs, rows, heq.trans ?_, by simp⟩
        simp [Build.add]
      · have hread : ∀ next, Mode.read p ⟨false, .nothing⟩ c next
            = ([.text c], ⟨false, .nothing⟩) := by
          intro next
          rw [Mode.read_outside hnl, if_neg hsep, if_neg hc]
        rw [rowsFrom_cons (hread _)]
        rw [tokens, hread] at hloud
        obtain ⟨f, fs, rows, heq⟩ :=
          (foldl_quiet (tokens p 0 ⟨false, .nothing⟩ t) (b := b.add (.text c)) hrow).2 hloud
        refine ⟨c :: f, fs, rows, heq.trans ?_, ?_⟩
        · simp [Build.add]
        · simpa using hc

section Escape

variable (hquote : p.quote = backslash)
include hquote

/-- Two in a row, inside quotes. -/
lemma rowsFrom_inside_two (t : List UInt8) (b : Build) :
    rowsFrom p ⟨true, .nothing⟩ (backslash :: backslash :: t) b
      = rowsFrom p ⟨true, .nothing⟩ t (b.add (.literal p.quote)) := by
  have hread : Mode.read p ⟨true, .nothing⟩ backslash backslash
      = ([.literal p.quote], ⟨true, .one⟩) := by
    rw [Mode.read_inside (by decide), if_pos ⟨rfl, hquote.symm⟩]
  rw [rowsFrom_cons hread]
  unfold rowsFrom
  rw [tokens_one]
  rfl

/-- One, outside quotes. -/
lemma rowsFrom_outside_one (hsep : p.sep ≠ p.quote) (t : List UInt8) (b : Build) :
    rowsFrom p ⟨false, .nothing⟩ (backslash :: t) b
      = rowsFrom p ⟨true, .nothing⟩ t (b.add .quote) := by
  have hread : Mode.read p ⟨false, .nothing⟩ backslash (t.headD 0) = ([.quote], ⟨true, .nothing⟩) := by
    rw [Mode.read_outside (by decide), if_neg (hquote ▸ hsep.symm), if_pos hquote.symm]
  rw [rowsFrom_cons hread]
  rfl

/-- Three in a row: one literal for both readings, and one that is left. -/
lemma rowsFrom_three (hsep : p.sep ≠ p.quote) (t : List UInt8) (b : Build) (status : Bool) :
    rowsFrom p ⟨status, .nothing⟩ (backslash :: backslash :: backslash :: t) b
      = rowsFrom p ⟨status, .nothing⟩ (backslash :: t) (b.add (.literal p.quote)) := by
  cases status with
  | true => exact rowsFrom_inside_two hquote _ _
  | false =>
      rw [rowsFrom_outside_one hquote hsep, rowsFrom_inside_two hquote,
        rowsFrom_outside_one hquote hsep]
      rfl

/-- Two in a row and no more: a literal inside quotes, and nothing outside them. -/
lemma rowsFrom_two (hsep : p.sep ≠ p.quote) {t : List UInt8} {b : Build}
    (ht : t.headD 0 ≠ backslash) (hrow : b.row = []) :
    rowsFrom p ⟨true, .nothing⟩ (backslash :: backslash :: t) b
        = rowsFrom p ⟨false, .nothing⟩ (backslash :: backslash :: t) b ↔
      quiet false (tokens p 0 ⟨true, .nothing⟩ t) = true ∧
        quiet false (tokens p 0 ⟨false, .nothing⟩ t) = true := by
  have hread : Mode.read p ⟨true, .nothing⟩ backslash (t.headD 0) = ([.quote], ⟨false, .nothing⟩) := by
    rw [Mode.read_inside (by decide), if_neg (by rw [hquote]; exact fun h => ht h.2),
      if_pos hquote.symm]
  rw [rowsFrom_inside_two hquote, rowsFrom_outside_one hquote hsep, rowsFrom_cons hread]
  have hin := foldl_quiet (tokens p 0 ⟨true, .nothing⟩ t) (b := b.add (.literal p.quote)) hrow
  have hout := foldl_quiet (tokens p 0 ⟨false, .nothing⟩ t) (b := (b.add .quote).add .quote) hrow
  have hloud' := rowsFrom_outside (b := (b.add .quote).add .quote) (hquote ▸ ht) hrow
  cases hqin : quiet false (tokens p 0 ⟨true, .nothing⟩ t) with
  | true =>
      have heq := hin.1 hqin
      cases hqout : quiet false (tokens p 0 ⟨false, .nothing⟩ t) with
      | true => exact iff_of_true (heq.trans (hout.1 hqout).symm) ⟨rfl, rfl⟩
      | false =>
          refine iff_of_false ?_ (by simp)
          obtain ⟨f, fs, rows, heq', -⟩ := hloud' hqout
          intro hsame
          have := congrArg List.length (heq.symm.trans (hsame.trans heq'))
          simp [Build.add] at this
  | false =>
      refine iff_of_false ?_ (by simp)
      obtain ⟨f, fs, rows, heq⟩ := hin.2 hqin
      intro hsame
      cases hqout : quiet false (tokens p 0 ⟨false, .nothing⟩ t) with
      | true =>
          have := congrArg List.length (heq.symm.trans (hsame.trans (hout.1 hqout)))
          simp [Build.add] at this
      | false =>
          obtain ⟨f', fs', rows', heq', hhead⟩ := hloud' hqout
          have hfirst := heq.symm.trans (hsame.trans heq')
          simp only [Build.add, List.append_assoc] at hfirst
          rw [← first_field_inj hfirst] at hhead
          exact hhead rfl

end Escape

/-- An escape, given how what follows it reads with the literal in front of it. -/
lemma rowsFrom_alike_escape {t : List UInt8} {b : Build} (hsep : backslash ≠ p.sep)
    (hnl : isNewline p.quote = false) (hne : p.sep ≠ p.quote) (hrow : b.row = [])
    (hrest : rowsFrom p ⟨true, .nothing⟩ t (b.add (.literal p.quote))
        = rowsFrom p ⟨false, .nothing⟩ t (b.add (.literal p.quote)) ↔ readsAlike p t = true) :
    rowsFrom p ⟨true, .nothing⟩ (backslash :: p.quote :: t) b
        = rowsFrom p ⟨false, .nothing⟩ (backslash :: p.quote :: t) b ↔
      (if p.quote = backslash ∧ t.headD 0 = backslash then readsAlike p t
        else quiet false (tokens p 0 ⟨true, .nothing⟩ t) &&
          (p.quote ≠ backslash || quiet false (tokens p 0 ⟨false, .nothing⟩ t))) = true := by
  by_cases hquote : p.quote = backslash
  · by_cases hthree : t.headD 0 = backslash
    · rw [if_pos ⟨hquote, hthree⟩, ← hrest]
      obtain ⟨t', rfl⟩ := exists_of_headD_backslash hthree
      rw [hquote, rowsFrom_three hquote hne, rowsFrom_three hquote hne, hquote]
    · rw [if_neg (fun h => hthree h.2), hquote, rowsFrom_two hquote hne hthree hrow]
      simp
  · rw [if_neg (fun h => hquote h.1), rowsFrom_escape hsep hquote (by simp [hnl]) hne hrow]
    simp [hquote]

/-- **Inside and outside quotes.** With nothing of a row read before it, a file makes the same rows
inside and outside quotes exactly if it reads alike. -/
lemma rowsFrom_alike (hnl : isNewline p.quote = false) (hne : p.sep ≠ p.quote) (t : List UInt8)
    {b : Build} (hrow : b.row = []) {skip : Skip} (hskip : skip ≠ .one) :
    rowsFrom p ⟨true, skip⟩ t b = rowsFrom p ⟨false, skip⟩ t b ↔ readsAlike p t = true := by
  induction hn : t.length using Nat.strong_induction_on generalizing t b skip with
  | _ n ih =>
    subst hn
    cases t with
    | nil => exact iff_of_true rfl rfl
    | cons c t =>
        unfold readsAlike
        by_cases hc : isNewline c = true
        · rw [if_pos hc]
          cases skip with
          | one => exact absurd rfl hskip
          | nothing =>
              rw [rowsFrom_cons (Mode.read_newline hc), rowsFrom_cons (Mode.read_newline hc)]
              exact ih _ (Nat.lt_succ_self _) t rfl (by decide) rfl
          | newlines =>
              have hread : ∀ status next, Mode.read p ⟨status, .newlines⟩ c next
                  = ([], ⟨status, .newlines⟩) := by
                intro status next
                rw [Mode.read, if_neg (by simp), if_pos ⟨rfl, hc⟩]
              rw [rowsFrom_cons (hread true _), rowsFrom_cons (hread false _)]
              exact ih _ (Nat.lt_succ_self _) t hrow hskip rfl
        · -- from here on it does not matter whether newlines came before
          have hplain : ∀ status, rowsFrom p ⟨status, skip⟩ (c :: t) b
              = rowsFrom p ⟨status, .nothing⟩ (c :: t) b := by
            intro status
            unfold rowsFrom
            rw [tokens, tokens, Mode.read_of_skip hskip hc]
          rw [if_neg hc, hplain, hplain]
          by_cases hsep : c = p.sep
          · subst hsep
            rw [if_pos rfl]
            exact iff_of_false (rowsFrom_sep hc hne hrow) (by simp)
          rw [if_neg hsep]
          by_cases hesc : c = backslash ∧ t.headD 0 = p.quote
          · rw [if_pos hesc]
            obtain ⟨rfl, hhead⟩ := hesc
            cases t with
            | nil => exact iff_of_false (rowsFrom_escape_last hsep hhead hrow) (by simp)
            | cons d t =>
                obtain rfl : d = p.quote := hhead
                refine rowsFrom_alike_escape hsep hnl hne hrow ?_
                refine ih _ ?_ t (b := b.add (.literal p.quote)) hrow (by decide) rfl
                rw [List.length_cons, List.length_cons]
                omega
          rw [if_neg hesc]
          by_cases hquote : c = p.quote
          · -- the sides change places
            rw [rowsFrom_cons ((Mode.read_inside hc).trans ((if_neg hesc).trans (if_pos hquote))),
              rowsFrom_cons ((Mode.read_outside hc).trans ((if_neg hsep).trans (if_pos hquote))),
              eq_comm]
            exact ih _ (Nat.lt_succ_self _) t (b := b.add .quote) hrow (by decide) rfl
          · rw [rowsFrom_cons ((Mode.read_inside hc).trans ((if_neg hesc).trans (if_neg hquote))),
              rowsFrom_cons ((Mode.read_outside hc).trans ((if_neg hsep).trans (if_neg hquote)))]
            exact ih _ (Nat.lt_succ_self _) t (b := b.add (.text c)) hrow (by decide) rfl

/-- **Rows after other rows, exactly.** Let `s` end in a newline and `t` not begin with one. The rows
of `s` and `t` in one file are the rows of `s` and the rows of `t` if and only if `s` leaves no quote
open or `t` reads the same inside and outside quotes. -/
theorem load_append_iff (p : CsvParser) (s t : List UInt8) (hs : s.getLast? = some 10)
    (ht : isNewline (t.headD 0) = false) :
    (p.load (some (s ++ t)) true).2.rows
        = (p.load (some s) true).2.rows ++ (p.load (some t) true).2.rows ↔
      insideQuotes p s 0 = false ∨ readsAlike p t = true := by
  obtain ⟨u, rfl⟩ := List.getLast?_eq_some_iff.mp hs
  simp only [load_eq]
  rw [rowsOf_append ht, List.append_cancel_left_eq]
  cases hq : insideQuotes p (u ++ [10]) 0 with
  | false => simp
  | true =>
      obtain ⟨hnl, hne⟩ := (linked_start p 0 (u ++ [10])).quote hq
      have halike := rowsFrom_alike hnl hne t (b := .start) rfl
        (show Skip.nothing ≠ .one by decide)
      rw [or_iff_right (by simp)]
      exact halike

/-- The row `a,"b,c` and `d",e`, with a separator and a newline between its quotes, and the row `f,g`
after it. -/
theorem load_append_iff_quoted :
    (commas.load (some ([97, 44, 34, 98, 44, 99, 10, 100, 34, 44, 101, 10] ++ [102, 44, 103, 10]))
        true).2.rows
      = (commas.load (some [97, 44, 34, 98, 44, 99, 10, 100, 34, 44, 101, 10]) true).2.rows
        ++ [[[102], [103]]] :=
  (load_append_iff commas [97, 44, 34, 98, 44, 99, 10, 100, 34, 44, 101, 10] [102, 44, 103, 10]
    (by decide) (by decide)).mpr (.inl (by decide))

/-- A row with one quote in it: the separator of the next row is taken for a character. -/
theorem load_open_quote :
    (commas.load (some ([34, 97, 10] ++ [98, 44, 99, 10])) true).2.rows = [[[97]], [[98, 44, 99]]] ∧
      (commas.load (some [34, 97, 10]) true).2.rows = [[[97]]] ∧
      (commas.load (some [98, 44, 99, 10]) true).2.rows = [[[98], [99]]] := by
  decide

end CocInside.System
