/-
A document of lines is the table of their names and values.

A record is written as a sequence of lines, each with a bare name and a value that ends where the
line does (`Reads`).  Such a line is read as one assignment (`readStatement_line`), so the lines are
read as the assignments one after the other (`readStatements_lines`).  Carrying out assignments to
different names lists them in order (`build_assignments`), and that is the table of the document
(`read_lines`).
-/
import EliminationOrder.Proofs.Toml.Laws
import EliminationOrder.Proofs.Toml.Scalar
import EliminationOrder.Toml.Native

namespace EliminationOrder.Toml

open Decimal (isDigit ne_of_class not_mem_of_class numeral)

variable {c : Char} {cs s rest text : List Char} {v : Value} {bound : Nat}

/-! ### Values that end with the line -/

/-- A text is read as a value, as far as the end of the line. -/
structure Reads (text : List Char) (v : Value) : Prop where
  /-- No blanks are dropped from its front. -/
  head : ∃ c cs, text = c :: cs ∧ isBlank c = false
  noReturn : '\r' ∉ text
  readValue : ∀ bound rest, readValue (bound + 1) (text ++ '\n' :: rest) = some (v, '\n' :: rest)

/-- What begins like a scalar is read as one. -/
theorem readValue_scalar (hc : isScalarChar c = true) :
    readValue (bound + 1) (c :: cs) = readScalar (c :: cs) := by
  unfold readValue
  split
  · rename_i h
    exact absurd (List.cons.inj h).1 (ne_of_class hc rfl)
  · rename_i h
    exact absurd (List.cons.inj h).1 (ne_of_class hc rfl)
  · rename_i h
    exact absurd (List.cons.inj h).1 (ne_of_class hc rfl)
  · rename_i h
    exact absurd (List.cons.inj h).1 (ne_of_class hc rfl)
  · rfl

/-- A class without the two blanks has none. -/
theorem isBlank_of_class {p : Char → Bool} (hc : p c = true) (hspace : p ' ' = false)
    (htab : p '\t' = false) : isBlank c = false := by
  rw [isBlank, Bool.or_eq_false_iff, beq_eq_false_iff_ne, beq_eq_false_iff_ne]
  exact ⟨ne_of_class hc hspace, ne_of_class hc htab⟩

/-- **A text of scalar characters is read as the scalar that it is.** -/
theorem Reads.of_scalar (hne : text ≠ []) (hs : ∀ c ∈ text, isScalarChar c = true)
    (hv : scalar? text = some v) : Reads text v := by
  obtain ⟨c, cs, rfl⟩ := List.exists_cons_of_ne_nil hne
  have hc := hs c List.mem_cons_self
  refine ⟨⟨c, cs, rfl, isBlank_of_class hc rfl rfl⟩, not_mem_of_class hs rfl, fun bound rest => ?_⟩
  rw [List.cons_append, readValue_scalar hc, ← List.cons_append, readScalar_line hs, hv]
  rfl

theorem isScalarChar_of_isDigit (hc : isDigit c = true) : isScalarChar c = true := by
  obtain ⟨hge, hle⟩ := Decimal.isDigit_iff.mp hc
  have halnum : c.isAlphanum = true := by
    rw [Char.isAlphanum, Bool.or_eq_true]
    right
    rw [Char.isDigit, Bool.and_eq_true, decide_eq_true_iff, decide_eq_true_iff]
    exact ⟨hge, hle⟩
  rw [isScalarChar, halnum]
  rfl

/-- Numbers are written with characters of scalars. -/
theorem Numeric.scalarChars (h : Numeric text) : ∀ c ∈ text, isScalarChar c = true := by
  intro c hc
  have hc := h.chars c hc
  simp only [isNumberChar, Bool.or_eq_true, beq_iff_eq] at hc
  rcases hc with rfl | (((hc | rfl) | rfl) | rfl) | rfl
  · rfl
  · exact isScalarChar_of_isDigit hc
  all_goals rfl

/-- **A floating-point number is read as it was written.** -/
theorem reads_float {f : Float} (h : f.isNaN = false) :
    Reads (Decimal.write .document f) (.float f) :=
  Reads.of_scalar (numeric_write h).ne_nil (numeric_write h).scalarChars (scalar?_write h)

/-- **A numeral in range is read as its number.** -/
theorem reads_integer {n : ℕ} (hn : (n : ℤ) ≤ Int64.maxValue.toInt) :
    Reads (numeral n) (.integer n) :=
  Reads.of_scalar (numeric_numeral n).ne_nil (numeric_numeral n).scalarChars (scalar?_numeral hn)

/-- What a string in double quotes holds as it is. -/
def isVerbatim (c : Char) : Bool :=
  isPlain c && c != '"' && c != '\\'

/-- Such characters are read as far as the closing quote. -/
theorem readBasic_verbatim (hcs : ∀ c ∈ cs, isVerbatim c = true) (hbound : cs.length < bound) :
    readBasic bound (cs ++ '"' :: rest) = some (cs, rest) := by
  induction cs generalizing bound with
  | nil =>
      obtain ⟨bound, rfl⟩ : ∃ b, bound = b + 1 := ⟨bound - 1, by simp at hbound; omega⟩
      rw [List.nil_append, readBasic, if_pos rfl]
  | cons c cs ih =>
      obtain ⟨bound, rfl⟩ : ∃ b, bound = b + 1 := ⟨bound - 1, by simp at hbound; omega⟩
      have hc := hcs c List.mem_cons_self
      rw [isVerbatim, Bool.and_eq_true, Bool.and_eq_true, bne_iff_ne, bne_iff_ne] at hc
      have hrest : readBasic bound (cs ++ '"' :: rest) = some (cs, rest) :=
        ih (fun c hc => hcs c (List.mem_cons_of_mem _ hc)) (by simp at hbound; omega)
      rw [List.cons_append, readBasic, if_neg hc.1.2, if_neg hc.2, if_pos hc.1.1, hrest]
      rfl

/-- **A name in double quotes is read as the string.** -/
theorem reads_string (cs : List Char) (hne : cs ≠ []) (hcs : ∀ c ∈ cs, isVerbatim c = true) :
    Reads ('"' :: cs ++ ['"']) (.string (String.ofList cs)) := by
  refine ⟨⟨'"', cs ++ ['"'], rfl, rfl⟩, ?_, fun bound rest => ?_⟩
  · simpa using not_mem_of_class hcs rfl
  · obtain ⟨c, ds, rfl⟩ := List.exists_cons_of_ne_nil hne
    have hc := hcs c List.mem_cons_self
    rw [isVerbatim, Bool.and_eq_true, Bool.and_eq_true, bne_iff_ne, bne_iff_ne] at hc
    have hbasic : readBasic ((c :: ds ++ '"' :: '\n' :: rest).length + 1)
        (c :: ds ++ '"' :: '\n' :: rest) = some (c :: ds, '\n' :: rest) :=
      readBasic_verbatim hcs (by simp)
    have hstring : readString ('"' :: (c :: ds ++ '"' :: '\n' :: rest))
        = some (String.ofList (c :: ds), '\n' :: rest) := by
      unfold readString
      split
      -- Three quotes in a row would open a string of several lines.
      · rename_i h
        exact absurd (List.cons.inj (List.cons.inj h).2).1 hc.1.2
      · rename_i h
        cases (List.cons.inj h).1
      · rename_i h
        obtain rfl := (List.cons.inj h).2
        rw [hbasic]
        rfl
      · rename_i h
        cases (List.cons.inj h).1
      · rename_i h _
        exact absurd rfl (h _)
    have htext : '"' :: (c :: ds) ++ ['"'] ++ '\n' :: rest = '"' :: (c :: ds ++ '"' :: '\n' :: rest) := by
      simp
    rw [htext, Toml.readValue, hstring]
    rfl

/-! ### Lines -/

/-- **A bare name before an equals sign is read as a key.** -/
theorem readKey_bare (h : Bare cs) :
    readKey (bound + 1) (cs ++ ' ' :: '=' :: rest)
      = some (⟨[], String.ofList cs⟩, '=' :: rest) := by
  have hname : readName (cs ++ ' ' :: '=' :: rest) = some (String.ofList cs, ' ' :: '=' :: rest) := by
    obtain ⟨c, ds, rfl⟩ := List.exists_cons_of_ne_nil h.ne_nil
    have hc := h.chars c List.mem_cons_self
    have hblank : isBare ' ' = false := rfl
    unfold readName
    split
    · rename_i hquote
      exact absurd (List.cons.inj hquote).1 (ne_of_class hc rfl)
    · rename_i hquote
      exact absurd (List.cons.inj hquote).1 (ne_of_class hc rfl)
    · simp only [takeWhile_run h.chars hblank, dropWhile_run h.chars hblank]
      rfl
  have hblanks : skipBlanks (' ' :: '=' :: rest) = '=' :: rest := rfl
  simp only [readKey, hname, Option.bind_eq_bind, Option.bind_some, hblanks]
  rfl

theorem line_append (name : String) (value rest : List Char) :
    line name value ++ rest = name.toList ++ ' ' :: '=' :: ' ' :: (value ++ '\n' :: rest) := by
  simp [line]

/-- A line begins with the first character of its name. -/
theorem Bare.line_head {name : String} (h : Bare name.toList) (value rest : List Char) :
    ∃ c cs, line name value ++ rest = c :: cs ∧ isBare c = true := by
  obtain ⟨c, cs, hcons⟩ := List.exists_cons_of_ne_nil h.ne_nil
  have hc := h.chars c (by rw [hcons]; exact List.mem_cons_self)
  exact ⟨c, _, by rw [line_append, hcons, List.cons_append], hc⟩

/-- No blanks are dropped in front of what does not begin with one. -/
theorem skipBlanks_cons (hc : isBlank c = false) : skipBlanks (c :: cs) = c :: cs :=
  List.dropWhile_cons_of_neg (by rw [hc]; exact Bool.false_ne_true)

/-- **A line is read as one assignment.** -/
theorem readStatement_line {name : String} (hname : Bare name.toList) (hv : Reads text v) :
    readStatement (line name text ++ rest) = some (.assign ⟨[], name⟩ v, '\n' :: rest) := by
  obtain ⟨c, ds, hfirst, hc⟩ := hname.line_head text rest
  have hkey : readKey (line name text ++ rest).length (line name text ++ rest)
      = some (⟨[], name⟩, '=' :: ' ' :: (text ++ '\n' :: rest)) := by
    rw [hfirst, List.length_cons, ← hfirst, line_append, readKey_bare hname, String.ofList_toList]
  have hblanks : skipBlanks (' ' :: (text ++ '\n' :: rest)) = text ++ '\n' :: rest := by
    obtain ⟨d, es, rfl, hd⟩ := hv.head
    exact skipBlanks_cons hd
  have hvalue := hv.readValue (2 * (' ' :: (text ++ '\n' :: rest)).length) rest
  unfold readStatement
  split
  · rename_i hbracket
    rw [hfirst] at hbracket
    exact absurd (List.cons.inj hbracket).1 (ne_of_class hc rfl)
  · rename_i hbracket
    rw [hfirst] at hbracket
    exact absurd (List.cons.inj hbracket).1 (ne_of_class hc rfl)
  · simp only [hkey, Option.bind_eq_bind, Option.bind_some, hblanks, hvalue]
    rfl

/-! ### Documents -/

/-- A line of a document: a name, and a value with its text. -/
structure Line where
  name : String
  text : List Char
  value : Value
  bare : Bare name.toList
  reads : Reads text value

/-- The text of lines. -/
def linesText (ls : List Line) : List Char :=
  ls.flatMap fun l => line l.name l.text

/-- The entries of lines. -/
def linesEntries (ls : List Line) : Entries :=
  ls.map fun l => (l.name, l.value)

/-- **Lines are read as assignments, one after the other.** -/
theorem readStatements_lines (ls : List Line) (hbound : ls.length < bound) :
    readStatements bound (linesText ls)
      = some (ls.map fun l => .assign ⟨[], l.name⟩ l.value) := by
  induction ls generalizing bound with
  | nil =>
      obtain ⟨bound, rfl⟩ : ∃ b, bound = b + 1 := ⟨bound - 1, by simp at hbound; omega⟩
      rfl
  | cons l ls ih =>
      obtain ⟨bound, rfl⟩ : ∃ b, bound = b + 1 := ⟨bound - 1, by simp at hbound; omega⟩
      have hrest : readStatements bound (linesText ls)
          = some (ls.map fun l => .assign ⟨[], l.name⟩ l.value) := ih (by simp at hbound; omega)
      have hstatement : readStatement (line l.name l.text ++ linesText ls)
          = some (.assign ⟨[], l.name⟩ l.value, '\n' :: linesText ls) :=
        readStatement_line l.bare l.reads
      obtain ⟨c, ds, hfirst, hc⟩ := l.bare.line_head l.text (linesText ls)
      have hblanks : skipBlanks (line l.name l.text ++ linesText ls)
          = line l.name l.text ++ linesText ls := by
        rw [hfirst]
        exact skipBlanks_cons (isBlank_of_class hc rfl rfl)
      have hfinish : finishLine ('\n' :: linesText ls) = some (linesText ls) := rfl
      show readStatements (bound + 1) (line l.name l.text ++ linesText ls) = _
      unfold readStatements
      rw [hblanks]
      split
      · rename_i h
        rw [hfirst] at h
        cases h
      · rename_i h
        rw [hfirst] at h
        exact absurd (List.cons.inj h).1 (ne_of_class hc rfl)
      · rename_i h
        rw [hfirst] at h
        exact absurd (List.cons.inj h).1 (ne_of_class hc rfl)
      · simp only [hstatement, Option.bind_eq_bind, Option.bind_some, hfinish, hrest]
        rfl

/-- A value under a new name is added at the end. -/
theorem add_new {name : String} {es : Entries} (h : name ∉ es.map Prod.fst) :
    es.add name v = some (es ++ [(name, v)]) := by
  unfold Entries.add
  induction es with
  | nil => rfl
  | cons e es ih =>
      rw [List.map_cons, List.mem_cons, not_or] at h
      rw [Entries.alter, if_neg (Ne.symm h.1), ih h.2]
      rfl

/-- **Assignments to different names list them in order.** -/
theorem build_assignments {es : Entries} (ls : List Line)
    (hnodup : (es.map Prod.fst ++ ls.map Line.name).Nodup) :
    build [] es (ls.map fun l => .assign ⟨[], l.name⟩ l.value) = some (es ++ linesEntries ls) := by
  induction ls generalizing es with
  | nil => rw [List.map_nil, build, linesEntries, List.map_nil, List.append_nil]
  | cons l ls ih =>
      have hnew : l.name ∉ es.map Prod.fst := by
        rw [List.nodup_append] at hnodup
        exact fun hmem => hnodup.2.2 _ hmem _ List.mem_cons_self rfl
      have hrest := @ih (es ++ [(l.name, l.value)]) (by simpa using hnodup)
      rw [List.map_cons, build, Entries.alterAt, Entries.addDotted, add_new hnew]
      show build [] (es ++ [(l.name, l.value)]) _ = _
      rw [hrest, linesEntries, linesEntries, List.map_cons, List.append_assoc]
      rfl

/-- A text without carriage returns has one kind of line break already. -/
theorem unifyLineBreaks_of_noReturn (h : '\r' ∉ s) : unifyLineBreaks s = s := by
  induction s with
  | nil => rfl
  | cons c s ih =>
      rw [List.mem_cons, not_or] at h
      rw [unifyLineBreaks, ih h.2]
      rintro cs rfl
      exact absurd rfl h.1

theorem noReturn_linesText (ls : List Line) : '\r' ∉ linesText ls := by
  intro h
  obtain ⟨l, -, hl⟩ := List.mem_flatMap.mp h
  have hname : '\r' ∉ l.name.toList := not_mem_of_class l.bare.chars rfl
  have htext := l.reads.noReturn
  simp [line, hname, htext] at hl

theorem skipMark_linesText (ls : List Line) : skipMark (linesText ls) = linesText ls := by
  cases ls with
  | nil => rfl
  | cons l ls =>
      obtain ⟨c, ds, hfirst, hc⟩ := l.bare.line_head l.text (linesText ls)
      show skipMark (line l.name l.text ++ linesText ls) = line l.name l.text ++ linesText ls
      rw [hfirst]
      unfold skipMark
      split
      · rename_i h
        exact absurd (List.cons.inj h).1 (ne_of_class hc rfl)
      · rfl

theorem length_le_linesText (ls : List Line) : ls.length ≤ (linesText ls).length := by
  induction ls with
  | nil => exact Nat.zero_le _
  | cons l ls ih =>
      show _ ≤ (line l.name l.text ++ linesText ls).length
      rw [line_append]
      simp only [List.length_append, List.length_cons]
      omega

/-- **A document of lines with different names is the table of their entries.** -/
theorem read_lines (ls : List Line) (hnodup : (ls.map Line.name).Nodup) :
    read (String.ofList (linesText ls)) = some (linesEntries ls) := by
  have hlength := length_le_linesText ls
  have hstatements : readStatements ((linesText ls).length + 1) (linesText ls)
      = some (ls.map fun l => .assign ⟨[], l.name⟩ l.value) := readStatements_lines ls (by omega)
  unfold read
  simp only [String.toList_ofList, skipMark_linesText, unifyLineBreaks_of_noReturn (noReturn_linesText ls),
    hstatements, Option.bind_eq_bind, Option.bind_some]
  exact build_assignments ls (by simpa using hnodup)

end EliminationOrder.Toml
