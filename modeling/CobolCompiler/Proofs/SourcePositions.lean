import CobolCompiler.Source.Span
import Mathlib.Data.List.TakeWhile

/-!
# Lines, columns and offsets

A place in a source text can be given by its byte offset or by its line and column. `lineNumberAt`
and `columnNumberAt` say what the line and the column of an offset are, from the bytes in front of
it alone; the offset may also lie within a character. The two ways to give a place agree
(`lines_and_offsets_agree`): the line and the column of an offset are looked up as that offset, and
the span between two places is the same whether their offsets are recorded or not. Whatever a
location says, its span lies within the text and is empty only at the end.

The lookup goes through a text line by line, and so do the proofs (`lineInduction`).
-/

namespace CobolCompiler.Source

variable {a : Nat} {body : List Char} {text : List Char}

/-! ### Bytes -/

/-- The bytes of a text. -/
def bytes (text : List Char) : List UInt8 :=
  text.flatMap String.utf8EncodeChar

@[simp] theorem bytes_append (first second : List Char) :
    bytes (first ++ second) = bytes first ++ bytes second :=
  List.flatMap_append

theorem bytes_newline_cons (text : List Char) : bytes ('\n' :: text) = 10 :: bytes text := rfl

/-- The byte of a line break is part of no other character. -/
theorem newline_notMem_utf8EncodeChar {c : Char} (h : c ≠ '\n') : 10 ∉ String.utf8EncodeChar c := by
  have hvalue : c.val.toNat ≠ 10 := by
    intro heq
    exact h (Char.ext (UInt32.toNat_inj.mp heq))
  have hbyte : ∀ n, n < 256 → n ≠ 10 → (10 : UInt8) ≠ UInt8.ofNat n := by
    intro n hlt hne heq
    have hnat : 10 = (UInt8.ofNat n).toNat := congrArg UInt8.toNat heq
    rw [UInt8.toNat_ofNat'] at hnat
    omega
  -- The bytes of a longer character have their highest bits set.
  delta String.utf8EncodeChar
  dsimp only
  split
  · simpa using hbyte _ (by omega) hvalue
  · split
    · simp only [List.mem_cons, List.not_mem_nil, or_false, not_or]
      exact ⟨hbyte _ (by omega) (by omega), hbyte _ (by omega) (by omega)⟩
    · split
      · simp only [List.mem_cons, List.not_mem_nil, or_false, not_or]
        exact ⟨hbyte _ (by omega) (by omega), hbyte _ (by omega) (by omega),
          hbyte _ (by omega) (by omega)⟩
      · simp only [List.mem_cons, List.not_mem_nil, or_false, not_or]
        exact ⟨hbyte _ (by omega) (by omega), hbyte _ (by omega) (by omega),
          hbyte _ (by omega) (by omega), hbyte _ (by omega) (by omega)⟩

theorem newline_notMem_bytes (h : '\n' ∉ body) : 10 ∉ bytes body := by
  intro hmem
  obtain ⟨c, hc, hbyte⟩ := List.mem_flatMap.mp hmem
  have hne : c ≠ '\n' := by
    intro heq
    exact h (heq ▸ hc)
  exact newline_notMem_utf8EncodeChar hne hbyte

theorem foldl_utf8Size (text : List Char) (n : Nat) :
    text.foldl (fun n c => n + c.utf8Size) n = n + (bytes text).length := by
  induction text generalizing n with
  | nil => rfl
  | cons c text ih =>
    have hcons : (bytes (c :: text)).length = c.utf8Size + (bytes text).length := by
      rw [bytes, List.flatMap_cons, List.length_append, String.length_utf8EncodeChar]
      rfl
    rw [List.foldl_cons, ih, hcons]
    omega

theorem byteLength_eq (text : List Char) : byteLength text = (bytes text).length := by
  rw [byteLength, foldl_utf8Size, Nat.zero_add]

theorem byteLength_append (first second : List Char) :
    byteLength (first ++ second) = byteLength first + byteLength second := by
  rw [byteLength_eq, byteLength_eq, byteLength_eq, bytes_append, List.length_append]

theorem byteLength_newline_cons (text : List Char) :
    byteLength ('\n' :: text) = byteLength text + 1 := by
  rw [byteLength_eq, byteLength_eq, bytes_newline_cons, List.length_cons]

/-! ### Lines -/

theorem cutLine_of_notMem (h : '\n' ∉ body) : cutLine body = (body, []) := by
  induction body with
  | nil => rfl
  | cons c body ih =>
    obtain ⟨hc, hbody⟩ := not_or.mp (mt List.mem_cons.mpr h)
    rw [cutLine, if_neg (Ne.symm hc), ih hbody]

theorem cutLine_append (h : '\n' ∉ body) (rest : List Char) :
    cutLine (body ++ '\n' :: rest) = (body ++ ['\n'], rest) := by
  induction body with
  | nil => rfl
  | cons c body ih =>
    obtain ⟨hc, hbody⟩ := not_or.mp (mt List.mem_cons.mpr h)
    rw [List.cons_append, cutLine, if_neg (Ne.symm hc), ih hbody]
    rfl

theorem lines_of_ne_nil (h : text ≠ []) :
    lines text = (cutLine text).1 :: lines (cutLine text).2 := by
  cases text with
  | nil => exact absurd rfl h
  | cons c text => rw [lines]

theorem lines_of_notMem (h : '\n' ∉ body) (hne : body ≠ []) : lines body = [body] := by
  rw [lines_of_ne_nil hne, cutLine_of_notMem h, lines]

theorem lines_append (h : '\n' ∉ body) (rest : List Char) :
    lines (body ++ '\n' :: rest) = (body ++ ['\n']) :: lines rest := by
  rw [lines_of_ne_nil (by simp), cutLine_append h]

/-- A text is what stands behind its last line break, or it is a line in front of a text. -/
@[elab_as_elim]
theorem lineInduction {P : List Char → Prop} (last : ∀ body, '\n' ∉ body → P body)
    (line : ∀ body rest, '\n' ∉ body → P rest → P (body ++ '\n' :: rest)) (text : List Char) :
    P text := by
  induction hlength : text.length using Nat.strongRecOn generalizing text with
  | ind length ih =>
    by_cases hbreak : '\n' ∈ text
    · obtain ⟨body, rest, rfl, hbody⟩ := List.eq_append_cons_of_mem hbreak
      rw [List.length_append, List.length_cons] at hlength
      exact line body rest hbody (ih rest.length (by omega) rest rfl)
    · exact last text hbreak

/-! ### The line and the column of an offset -/

/-- The bytes of a text in front of an offset. -/
def bytesBefore (text : List Char) (offset : Nat) : List UInt8 :=
  (bytes text).take offset

/-- The number of the line that an offset lies in, counted from one: one more than there are line
breaks in front of it. -/
def lineNumberAt (text : List Char) (offset : Nat) : Nat :=
  (bytesBefore text offset).count 10 + 1

/-- The number of the column that an offset lies in, counted from one: one more than there are bytes
between the last line break in front of it and the offset. -/
def columnNumberAt (text : List Char) (offset : Nat) : Nat :=
  ((bytesBefore text offset).reverse.takeWhile (· ≠ 10)).length + 1

/-- The position of an offset, with any offset recorded in it. -/
def positionAt (text : List Char) (offset recorded : Nat) : Position :=
  ⟨recorded, lineNumberAt text offset, columnNumberAt text offset⟩

section numbers

variable {body : List Char} (hbody : '\n' ∉ body) (rest : List Char)
variable {a : Nat}
include hbody

theorem newline_notMem_bytesBefore (ha : a ≤ byteLength body) :
    10 ∉ bytesBefore (body ++ rest) a := by
  intro hmem
  rw [byteLength_eq] at ha
  rw [bytesBefore, bytes_append, List.take_append_of_le_length ha] at hmem
  exact newline_notMem_bytes hbody (List.mem_of_mem_take hmem)

theorem lineNumberAt_first (ha : a ≤ byteLength body) : lineNumberAt (body ++ rest) a = 1 := by
  rw [lineNumberAt, List.count_eq_zero.mpr (newline_notMem_bytesBefore hbody rest ha)]

theorem columnNumberAt_first (ha : a ≤ byteLength body) :
    columnNumberAt (body ++ rest) a = a + 1 := by
  have hall : (bytesBefore (body ++ rest) a).reverse.takeWhile (· ≠ 10) =
      (bytesBefore (body ++ rest) a).reverse := by
    rw [List.takeWhile_eq_self_iff]
    intro b hb
    have hne : b ≠ 10 := by
      intro heq
      exact newline_notMem_bytesBefore hbody rest ha (heq ▸ List.mem_reverse.mp hb)
    exact decide_eq_true hne
  have hlength : (bytesBefore (body ++ rest) a).length = a := by
    rw [byteLength_eq] at ha
    rw [bytesBefore, List.length_take, bytes_append, List.length_append]
    omega
  rw [columnNumberAt, hall, List.length_reverse, hlength]

omit hbody in
/-- Behind a line break, the bytes in front of an offset are the line and those behind it. -/
theorem bytesBefore_append (body : List Char) (a : Nat) :
    bytesBefore (body ++ '\n' :: rest) (byteLength body + 1 + a) = bytes body ++ 10 ::
      bytesBefore rest a := by
  rw [bytesBefore, bytesBefore, bytes_append, bytes_newline_cons, byteLength_eq, Nat.add_assoc,
    List.take_length_add_append, Nat.add_comm 1, List.take_succ_cons]

theorem lineNumberAt_append (a : Nat) :
    lineNumberAt (body ++ '\n' :: rest) (byteLength body + 1 + a) = lineNumberAt rest a + 1 := by
  have hnone : (bytes body).count 10 = 0 := List.count_eq_zero.mpr (newline_notMem_bytes hbody)
  rw [lineNumberAt, bytesBefore_append, List.count_append, hnone, List.count_cons_self,
    Nat.zero_add]
  rfl

omit hbody in
theorem columnNumberAt_append (body : List Char) (a : Nat) :
    columnNumberAt (body ++ '\n' :: rest) (byteLength body + 1 + a) = columnNumberAt rest a := by
  rw [columnNumberAt, bytesBefore_append, List.reverse_append, List.reverse_cons, List.append_assoc]
  rw [columnNumberAt]
  -- Going backwards, nothing is taken from beyond the line break.
  congr 2
  generalize (bytesBefore rest a).reverse = behind
  induction behind with
  | nil => simp
  | cons b behind ih =>
    by_cases hb : b = 10
    · simp [hb]
    · simpa [hb] using ih

end numbers

/-! ### Looking up an offset -/

/-- A column of a line is found, up to its line break. -/
theorem columnOffset_eq (hbody : '\n' ∉ body) (ending : List Char)
    (hending : ∀ c ∈ ending, c = '\n')
    (ha : a ≤ byteLength body) : columnOffset (body ++ ending) (a + 1) = a := by
  have hfilter : (body ++ ending).filter (· ≠ '\n') = body := by
    have hkept : body.filter (· ≠ '\n') = body := by
      rw [List.filter_eq_self]
      intro c hc
      have hne : c ≠ '\n' := by
        intro heq
        exact hbody (heq ▸ hc)
      exact decide_eq_true hne
    have hdropped : ending.filter (· ≠ '\n') = [] := by
      rw [List.filter_eq_nil_iff]
      intro c hc
      simp [hending c hc]
    rw [List.filter_append, hkept, hdropped, List.append_nil]
  rw [columnOffset, hfilter]
  omega

/-- The lookup in a text, where `number` lines with `offset` bytes have gone before. -/
theorem offsetFrom_lines (text : List Char) (number offset recorded : Nat)
    (ha : a ≤ byteLength text) :
    offsetFrom ⟨recorded, number + lineNumberAt text a, columnNumberAt text a⟩ (number + 1) offset
      (lines text) = offset + a := by
  induction text using lineInduction generalizing number offset a with
  | last body hbody =>
    by_cases hnil : body = []
    · -- Behind a final line break there is no line, and the end of the text is meant.
      subst hnil
      have hzero : a = 0 := Nat.le_zero.mp ha
      rw [hzero, lines]
      rfl
    · have hline := lineNumberAt_first hbody [] ha
      have hcolumn := columnNumberAt_first hbody [] ha
      have hoffset := columnOffset_eq hbody [] (by simp) ha
      rw [List.append_nil] at hline hcolumn hoffset
      rw [lines_of_notMem hbody hnil, hline, hcolumn, offsetFrom, if_pos rfl, hoffset]
  | line body rest hbody ih =>
    rw [lines_append hbody, offsetFrom]
    by_cases hfirst : a ≤ byteLength body
    · have hline := lineNumberAt_first hbody ('\n' :: rest) hfirst
      have hcolumn := columnNumberAt_first hbody ('\n' :: rest) hfirst
      have hoffset := columnOffset_eq hbody ['\n'] (by simp) hfirst
      rw [hline, hcolumn, if_pos rfl, hoffset]
    · -- behind the first line the rest is a text of its own, with one line less to go
      obtain ⟨behind, rfl⟩ : ∃ behind, a = byteLength body + 1 + behind :=
        ⟨a - (byteLength body + 1), by omega⟩
      rw [byteLength_append, byteLength_newline_cons] at ha
      have hbehind :=
        ih (number + 1) (offset + (byteLength body + 1)) (show behind ≤ byteLength rest by omega)
      have hlater : ¬number + 1 = number + (lineNumberAt rest behind + 1) := by
        rw [lineNumberAt]
        omega
      have hsize : byteLength (body ++ ['\n']) = byteLength body + 1 :=
        byteLength_append body ['\n']
      rw [lineNumberAt_append hbody, columnNumberAt_append, if_neg hlater, hsize,
        show number + (lineNumberAt rest behind + 1) = number + 1 + lineNumberAt rest behind by
          omega, hbehind]
      omega

theorem offsetOf_positionAt (text : List Char) (ha : a ≤ byteLength text) (recorded : Nat) :
    offsetOf text (positionAt text a recorded) = a := by
  have h := offsetFrom_lines text 0 0 recorded ha
  rw [Nat.zero_add, Nat.zero_add, Nat.zero_add] at h
  exact h

/-! ### Spans -/

/-- The span between two places: both are moved into the text, the second behind the first, and an
empty span is widened where the text goes on. -/
def spanBetween (size first last : Nat) : Span :=
  let start := min first size
  let stop := max start (min last size)
  if stop = start ∧ stop < size then ⟨start, stop + 1⟩ else ⟨start, stop⟩

theorem span_of_offsets {location : Location} (h : location.start.offset < location.stop.offset) :
    span text location = spanBetween (byteLength text) location.start.offset
      location.stop.offset := by
  simp [span, spanBetween, h]

theorem span_of_lines {location : Location} (h : ¬location.start.offset < location.stop.offset) :
    span text location =
      spanBetween (byteLength text) (offsetOf text location.start)
        (offsetOf text location.stop) := by
  simp [span, spanBetween, h]

theorem spanBetween_of_lt {size a b : Nat} (hab : a < b) (hb : b ≤ size) :
    spanBetween size a b = ⟨a, b⟩ := by
  have hstart : min a size = a := by omega
  have hstop : max a (min b size) = b := by omega
  rw [spanBetween, hstart, hstop, if_neg (by omega)]

theorem spanBetween_self {size a : Nat} (ha : a ≤ size) :
    spanBetween size a a = if a < size then ⟨a, a + 1⟩ else ⟨a, a⟩ := by
  have hstart : min a size = a := by omega
  rw [spanBetween, hstart, Nat.max_self]
  simp

theorem spanBetween_bounds (size first last : Nat) :
    (spanBetween size first last).start ≤ (spanBetween size first last).stop ∧
    (spanBetween size first last).stop ≤ size ∧
    ((spanBetween size first last).start = (spanBetween size first last).stop →
      (spanBetween size first last).start = size) := by
  unfold spanBetween
  dsimp only
  split
  · -- A widened span.
    refine ⟨?_, ?_, ?_⟩ <;> dsimp only <;> omega
  · refine ⟨?_, ?_, ?_⟩ <;> dsimp only <;> omega

/-- The line and the column of an offset are looked up as that offset, and give the span that
offsets give. Every span lies within the text, and is empty only at its end. -/
theorem lines_and_offsets_agree (text : List Char) :
    (∀ a b, a ≤ b → b ≤ byteLength text →
      (∀ recorded, offsetOf text (positionAt text a recorded) = a ∧
        offsetOf text (positionAt text b recorded) = b) ∧
      (a < b →
        span text ⟨positionAt text a 0, positionAt text b 0⟩ =
          span text ⟨positionAt text a a, positionAt text b b⟩ ∧
        span text ⟨positionAt text a a, positionAt text b b⟩ = ⟨a, b⟩) ∧
      (a = b → span text ⟨positionAt text a 0, positionAt text b 0⟩ =
        if a < byteLength text then ⟨a, a + 1⟩ else ⟨a, a⟩)) ∧
    ∀ location, (span text location).start ≤ (span text location).stop ∧
      (span text location).stop ≤ byteLength text ∧
      ((span text location).start = (span text location).stop →
        (span text location).start = byteLength text) := by
  refine ⟨?_, ?_⟩
  · intro a b hab hb
    have ha : a ≤ byteLength text := Nat.le_trans hab hb
    have hlines : span text ⟨positionAt text a 0, positionAt text b 0⟩ =
        spanBetween (byteLength text) a b := by
      rw [span_of_lines (Nat.lt_irrefl 0), offsetOf_positionAt text ha, offsetOf_positionAt text hb]
    refine ⟨?_, ?_, ?_⟩
    · intro recorded
      exact ⟨offsetOf_positionAt text ha recorded, offsetOf_positionAt text hb recorded⟩
    · intro hlt
      have hoffsets : span text ⟨positionAt text a a, positionAt text b b⟩ = ⟨a, b⟩ :=
        (span_of_offsets hlt).trans (spanBetween_of_lt hlt hb)
      exact ⟨by rw [hlines, spanBetween_of_lt hlt hb, hoffsets], hoffsets⟩
    · intro heq
      subst heq
      rw [hlines, spanBetween_self ha]
  · intro location
    by_cases h : location.start.offset < location.stop.offset
    · rw [span_of_offsets h]
      exact spanBetween_bounds _ _ _
    · rw [span_of_lines h]
      exact spanBetween_bounds _ _ _

/-- An offset within a character, and one behind an empty line. -/
theorem offset_within_character_found :
    (2 ≤ 5 ∧ 5 ≤ byteLength ['a', 'é', '\n', '\n', 'b']) ∧
      positionAt ['a', 'é', '\n', '\n', 'b'] 2 0 = ⟨0, 1, 3⟩ ∧
        positionAt ['a', 'é', '\n', '\n', 'b'] 5 0 = ⟨0, 3, 1⟩ ∧
      span ['a', 'é', '\n', '\n', 'b'] ⟨⟨0, 1, 3⟩, ⟨0, 3, 1⟩⟩ = ⟨2, 5⟩ := by
  have hfirst : positionAt ['a', 'é', '\n', '\n', 'b'] 2 0 = ⟨0, 1, 3⟩ := by decide
  have hlast : positionAt ['a', 'é', '\n', '\n', 'b'] 5 0 = ⟨0, 3, 1⟩ := by decide
  have hsize : 2 ≤ 5 ∧ 5 ≤ byteLength ['a', 'é', '\n', '\n', 'b'] := by decide
  obtain ⟨-, hspan, -⟩ :=
    (lines_and_offsets_agree ['a', 'é', '\n', '\n', 'b']).1 2 5 hsize.1 hsize.2
  obtain ⟨hlines, hoffsets⟩ := hspan (by decide)
  rw [hoffsets, hfirst, hlast] at hlines
  exact ⟨hsize, hfirst, hlast, hlines⟩

end CobolCompiler.Source
