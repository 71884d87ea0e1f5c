import CobolCompiler.Picture.Reader
import CobolCompiler.Proofs.FieldClauses
import CobolCompiler.Proofs.Literals

/-!
# Pictures as they are written

The written form of a picture is a row of items (`Item`): a character, and behind it a repeat count
in parentheses if it is to be repeated. The reader works through the text with one character of
lookahead; here it is compared with the rows of items that make up the text (`Written`), which say
nothing about how it is read.

* `printed_picture_read_back`: what is printed of a picture is read back as that picture.
* `picture_text_read_exactly`: which texts are accepted, and what they spell.

An opening parenthesis begins a count only right behind a character that has no count yet. At the
start of the text, and behind a count, it is a character like any other, and then it needs no
closing parenthesis.
-/

namespace CobolCompiler.Picture

open Text Number

variable {p : Picture} {row : List Item}

/-! ### Repeat counts -/

/-- A repeat count as it is written: decimal digits with an optional plus sign, blanks around them,
for a positive number that is not too large. -/
def IsCount (text : List Char) (n : Nat) : Prop :=
  ∃ sign digits, sign ∈ [[], ['+']] ∧ trim text = sign ++ digits ∧ digits ≠ [] ∧
    (∀ c ∈ digits, isDigit c = true) ∧ ofDigits digits = n ∧ 0 < n ∧ n ≤ maxSize

/-- What is left of a count without its plus sign. -/
theorem repeatCount?_of_trim {text sign digits : List Char} (hsign : sign ∈ [[], ['+']])
    (htrim : trim text = sign ++ digits) (hplus : sign = [] → digits.head? ≠ some '+') :
    repeatCount? text =
      if digits.isEmpty || !digits.all isDigit then none
      else if 0 < ofDigits digits && ofDigits digits ≤ maxSize then some (ofDigits digits)
        else none := by
  simp only [List.mem_cons, List.not_mem_nil, or_false] at hsign
  rcases hsign with rfl | rfl
  · cases digits with
    | nil => simp [repeatCount?, htrim]
    | cons c rest =>
      have hc : c ≠ '+' := by simpa using hplus rfl
      simp [repeatCount?, htrim, hc]
  · simp [repeatCount?, htrim]

theorem repeatCount?_eq_some_iff {text : List Char} {n : Nat} :
    repeatCount? text = some n ↔ IsCount text n := by
  constructor
  · intro h
    -- the text behind the sign is what is left of it without a plus
    obtain ⟨sign, digits, hsign, htrim, hplus⟩ : ∃ sign digits : List Char, sign ∈ [[], ['+']] ∧
        trim text = sign ++ digits ∧ (sign = [] → digits.head? ≠ some '+') := by
      by_cases hhead : (trim text).head? = some '+'
      · obtain ⟨rest, hrest⟩ := List.head?_eq_some_iff.mp hhead
        exact ⟨['+'], rest, by simp, hrest, by simp⟩
      · exact ⟨[], trim text, by simp, rfl, fun _ => hhead⟩
    rw [repeatCount?_of_trim hsign htrim hplus] at h
    by_cases hdigits : (digits.isEmpty || !digits.all isDigit) = true
    · rw [if_pos hdigits] at h
      cases h
    · rw [if_neg hdigits] at h
      by_cases hsize : (0 < ofDigits digits && ofDigits digits ≤ maxSize) = true
      · rw [if_pos hsize] at h
        obtain rfl := Option.some.inj h
        simp only [Bool.or_eq_true, List.isEmpty_iff, Bool.not_eq_true', not_or, Bool.not_eq_false,
          List.all_eq_true] at hdigits
        simp only [Bool.and_eq_true, decide_eq_true_eq] at hsize
        exact ⟨sign, digits, hsign, htrim, hdigits.1, hdigits.2, rfl, hsize.1, hsize.2⟩
      · rw [if_neg hsize] at h
        cases h
  · intro h
    obtain ⟨sign, digits, hsign, htrim, hnonempty, hdigits, rfl, hpos, hle⟩ := h
    have hplus : sign = [] → digits.head? ≠ some '+' := by
      intro _ hhead
      exact absurd (hdigits '+' (List.mem_of_head? hhead)) (by decide)
    have hall : ¬(digits.isEmpty || !digits.all isDigit) = true := by
      simpa [hnonempty] using hdigits
    rw [repeatCount?_of_trim hsign htrim hplus, if_neg hall, if_pos (by simp [hpos, hle])]

/-- What is trimmed off is blank. -/
theorem mem_trim {text : List Char} {c : Char} (hc : c ∈ text) (hblank : isBlank c = false) :
    c ∈ trim text := by
  have hdrop : ∀ l : List Char, c ∈ l → c ∈ l.dropWhile isBlank := by
    intro l hl
    rw [← List.takeWhile_append_dropWhile (p := isBlank) (l := l)] at hl
    refine (List.mem_append.mp hl).resolve_left fun htaken => ?_
    rw [List.mem_takeWhile_imp htaken] at hblank
    cases hblank
  rw [trim, trimRight, List.mem_reverse]
  exact hdrop _ (List.mem_reverse.mpr (hdrop text hc))

/-- No parenthesis stands in a count. -/
theorem IsCount.closing_notMem {text : List Char} {n : Nat} (h : IsCount text n) : ')' ∉ text := by
  intro hmem
  obtain ⟨sign, digits, hsign, htrim, -, hdigits, -⟩ := h
  have htrimmed : ')' ∈ sign ++ digits := htrim ▸ mem_trim hmem (by decide)
  rcases List.mem_append.mp htrimmed with hin | hin
  · simp only [List.mem_cons, List.not_mem_nil, or_false] at hsign
    rcases hsign with rfl | rfl
    · cases hin
    · exact absurd hin (by decide)
  · exact absurd (hdigits ')' hin) (by decide)

/-! ### Items -/

/-- An item of a picture as it is written. -/
structure Item where
  symbol : Char
  /-- What stands between the parentheses behind the character, if there are any. -/
  count? : Option (List Char)
  /-- How often the character is repeated. -/
  size : Nat
  /-- The size is what the count says, and one without a count. -/
  isSize : match count? with
    | some count => IsCount count size
    | none => size = 1

namespace Item

/-- An item without count. -/
def single (c : Char) : Item :=
  ⟨c, none, 1, rfl⟩

/-- An item with a count. -/
def counted (c : Char) {count : List Char} {n : Nat} (h : IsCount count n) : Item :=
  ⟨c, some count, n, h⟩

/-- Every item is of one of these two forms. -/
theorem eq_single_or_counted (i : Item) :
    i = single i.symbol ∨ ∃ count, ∃ h : IsCount count i.size, i = counted i.symbol h := by
  obtain ⟨c, count?, n, hsize⟩ := i
  cases count? with
  | none =>
    obtain rfl : n = 1 := hsize
    exact .inl rfl
  | some count => exact .inr ⟨count, hsize, rfl⟩

/-- The characters that an item is written with. -/
def text (i : Item) : List Char :=
  match i.count? with
  | none => [i.symbol]
  | some count => i.symbol :: '(' :: (count ++ [')'])

/-- The run that an item stands for: letters are taken in upper case. -/
def segment (i : Item) : Segment :=
  ⟨i.symbol.toUpper, i.size⟩

theorem head?_text (i : Item) (rest : List Char) : (i.text ++ rest).head? = some i.symbol := by
  unfold text
  cases i.count? <;> rfl

end Item

/-- The characters of a row of items. -/
def itemText (row : List Item) : List Char :=
  row.flatMap Item.text

/-- The characters that a row of items spells out. -/
def itemsSpelled (row : List Item) : List Char :=
  row.flatMap fun i => List.replicate i.size i.symbol.toUpper

/-- A row of items in which no opening parenthesis follows an item without count, where it would
begin a count. So a parenthesis can only be the character of the first item, and of an item behind a
count. -/
def Separated (row : List Item) : Prop :=
  row.IsChain fun i next => i.count? = none → next.symbol ≠ '('

/-- The text is made up of these items. -/
structure Written (text : List Char) (row : List Item) : Prop where
  separated : Separated row
  text_eq : text = itemText row

/-- Items are separated if what follows the first one does not begin with a parenthesis, or the
first one has a count, and the others are separated. -/
theorem separated_cons {i : Item} {rest : List Item} :
    Separated (i :: rest) ↔ (i.count? = none → (itemText rest).head? ≠ some '(') ∧
      Separated rest := by
  cases rest with
  | nil => simp [Separated, itemText]
  | cons next rest =>
    have hhead : (itemText (next :: rest)).head? = some next.symbol :=
      next.head?_text (itemText rest)
    rw [Separated, List.isChain_cons_cons, hhead]
    simp [Separated]

theorem separated_of_forall {row : List Item} (h : ∀ i ∈ row, i.symbol ≠ '(') : Separated row := by
  induction row with
  | nil => exact .nil
  | cons i rest ih =>
    obtain ⟨-, hrest⟩ := List.forall_mem_cons.mp h
    refine separated_cons.mpr ⟨fun _ => ?_, ih hrest⟩
    cases rest with
    | nil => simp [itemText]
    | cons next rest =>
      rw [itemText, List.flatMap_cons, next.head?_text]
      simpa using hrest next List.mem_cons_self

/-- The runs of a row spell out what its items do. -/
theorem spelled_segments (row : List Item) : spelled (row.map Item.segment) = itemsSpelled row := by
  induction row with
  | nil => rfl
  | cons i rest ih =>
    rw [List.map_cons, spelled_cons, ih]
    rfl

/-! ### Reading items -/

theorem items_single {c : Char} {rest : List Char} (h : rest.head? ≠ some '(') :
    items (c :: rest) = (items rest).map (⟨c.toUpper, 1⟩ :: ·) := by
  cases rest with
  | nil => rw [items, items]; rfl
  | cons d rest =>
    have hd : d ≠ '(' := by simpa using h
    rw [items, if_neg hd]
    cases items (d :: rest) <;> rfl

theorem all_ne_closing {count : List Char} (h : ')' ∉ count) :
    ∀ d ∈ count, decide (d ≠ ')') = true := by
  intro d hd
  exact decide_eq_true fun heq => h (heq ▸ hd)

theorem takeWhile_closing {count rest : List Char} (h : ')' ∉ count) :
    (count ++ ')' :: rest).takeWhile (· ≠ ')') = count := by
  rw [List.takeWhile_append_of_pos (all_ne_closing h)]
  simp

theorem afterClosing_append {count rest : List Char} (h : ')' ∉ count) :
    afterClosing (count ++ ')' :: rest) = rest := by
  rw [afterClosing, List.dropWhile_append_of_pos (all_ne_closing h)]
  simp

theorem items_counted {c : Char} {count rest : List Char} {n : Nat} (h : IsCount count n) :
    items (c :: '(' :: (count ++ ')' :: rest)) = (items rest).map (⟨c.toUpper, n⟩ :: ·) := by
  have hclosed : (count ++ ')' :: rest).contains ')' = true := by simp
  rw [items, if_pos rfl, takeWhile_closing h.closing_notMem, afterClosing_append h.closing_notMem,
    hclosed, repeatCount?_eq_some_iff.mpr h]
  cases items rest <;> rfl

/-- The first item is read as a whole. -/
theorem items_append {i : Item} {rest : List Char} (h : i.count? = none → rest.head? ≠ some '(') :
    items (i.text ++ rest) = (items rest).map (i.segment :: ·) := by
  rcases i.eq_single_or_counted with hi | ⟨count, hcount, hi⟩
  · rw [hi] at h ⊢
    exact items_single (h rfl)
  · rw [hi]
    have htext : (Item.counted i.symbol hcount).text ++ rest = i.symbol :: '(' ::
        (count ++ ')' :: rest) := by
      simp [Item.text, Item.counted]
    rw [htext]
    exact items_counted hcount

/-- Items that are separated are read one by one. -/
theorem items_itemText (h : Separated row) : items (itemText row) = .ok (row.map Item.segment) := by
  induction row with
  | nil => rw [itemText, List.flatMap_nil, items]; rfl
  | cons i rest ih =>
    obtain ⟨hfirst, hrest⟩ := separated_cons.mp h
    show items (i.text ++ itemText rest) = _
    rw [items_append hfirst, ih hrest]
    rfl

/-- Every text either is made up of items, or it is refused. -/
theorem exists_written_or_malformed (text : List Char) :
    (∃ row, Written text row) ∨ items text = .error .malformed := by
  -- the cases are those of the reader; the text left over is made up of items or refused
  induction text using items.induct with
  | case1 => exact .inl ⟨[], .nil, rfl⟩
  | case2 c => exact .inl ⟨[.single c], .singleton _, rfl⟩
  | case3 c rest n hcount hclosed ih =>
    have hmem : ')' ∈ rest := by simpa using hclosed
    obtain ⟨count, behind, rfl, hnotMem⟩ := List.eq_append_cons_of_mem hmem
    rw [takeWhile_closing hnotMem] at hcount
    rw [afterClosing_append hnotMem] at ih
    have hisCount : IsCount count n := repeatCount?_eq_some_iff.mp hcount
    rcases ih with ⟨row, hrow⟩ | hrefused
    · have hseparated : Separated (.counted c hisCount :: row) :=
        separated_cons.mpr ⟨fun hnone => absurd hnone (by simp [Item.counted]), hrow.separated⟩
      refine .inl ⟨.counted c hisCount :: row, hseparated, ?_⟩
      rw [hrow.text_eq]
      simp [itemText, Item.text, Item.counted]
    · right
      rw [items_counted hisCount, hrefused]
      rfl
  | case4 c rest hbad =>
    right
    rw [items, if_pos rfl]
    split
    · next n hclosed hcount => exact (hbad n hclosed hcount).elim
    · rfl
  | case5 c d rest hd ih =>
    have hnext : (d :: rest).head? ≠ some '(' := by simpa using hd
    rcases ih with ⟨row, hrow⟩ | hrefused
    · have hseparated : Separated (.single c :: row) :=
        separated_cons.mpr ⟨fun _ => hrow.text_eq ▸ hnext, hrow.separated⟩
      refine .inl ⟨.single c :: row, hseparated, ?_⟩
      rw [hrow.text_eq]
      rfl
    · right
      rw [items_single hnext, hrefused]
      rfl

theorem parse_eq (text : String) : parse text = (items text.toList).map merge := by
  rw [parse]
  cases items text.toList <;> rfl

/-- A text that is made up of items is read as their runs, joined. -/
theorem Written.parse_eq {text : String} (h : Written text.toList row) :
    parse text = .ok (merge (row.map Item.segment)) := by
  rw [Picture.parse_eq, h.text_eq, items_itemText h.separated]
  rfl

theorem exists_written_of_parse {text : String} (h : parse text = .ok p) :
    ∃ row, Written text.toList row := by
  rcases exists_written_or_malformed text.toList with hwritten | hrefused
  · exact hwritten
  · rw [parse_eq, hrefused] at h
    cases h

/-! ### Printing and reading -/

/-- A picture whose runs are joined, are not too long, and have characters that are not changed and
not taken for something else when they are read. -/
structure Printable (p : Picture) : Prop where
  merged : p.Merged
  size : ∀ run ∈ p, 1 ≤ run.size ∧ run.size ≤ maxSize
  symbol : ∀ run ∈ p, run.symbol ≠ '(' ∧ run.symbol.isLower = false

theorem toUpper_of_isLower_eq_false {c : Char} (h : c.isLower = false) : c.toUpper = c := by
  delta Char.isLower at h
  rw [Bool.and_eq_false_iff, decide_eq_false_iff_not, decide_eq_false_iff_not] at h
  refine dif_neg ?_
  intro hrange
  exact h.elim (· hrange.1) (· hrange.2)

/-- A joined picture is not changed by joining. -/
theorem Merged.merge_eq (h : p.Merged) : p.merge = p := by
  induction p with
  | nil => rfl
  | cons run rest ih =>
    rw [merge_cons, ih h.of_cons]
    cases rest with
    | nil => rfl
    | cons next rest => rw [absorb, if_neg (List.isChain_cons_cons.mp h).1]

/-- A number is a repeat count as it is printed. -/
theorem isCount_toDigits {n : Nat} (hpos : 1 ≤ n) (hle : n ≤ maxSize) :
    IsCount (Nat.toDigits 10 n) n := by
  have hdigits : ∀ c ∈ Nat.toDigits 10 n, isDigit c = true := by
    intro c hc
    have hdigit := Nat.isDigit_of_mem_toDigits (by omega) (by omega) hc
    simp only [Char.isDigit, Bool.and_eq_true, decide_eq_true_eq] at hdigit
    simp only [isDigit, Bool.and_eq_true, decide_eq_true_eq]
    exact hdigit
  have hvalue : ofDigits (Nat.toDigits 10 n) = n := Nat.ofDigitChars_toDigits (by omega) (by omega)
  have hnonempty : Nat.toDigits 10 n ≠ [] := by
    intro hnil
    rw [hnil, ofDigits_nil] at hvalue
    omega
  have htrim : trim (Nat.toDigits 10 n) = Nat.toDigits 10 n :=
    trim_eq_self fun c hc => not_isBlank_of_isDigit (hdigits c hc)
  exact ⟨[], Nat.toDigits 10 n, by simp, htrim, hnonempty, hdigits, hvalue, hpos, hle⟩

/-- What is printed of a run is an item. -/
theorem exists_item_of_segment {run : Segment} (hsize : 1 ≤ run.size ∧ run.size ≤ maxSize)
    (hsymbol : run.symbol.isLower = false) :
    ∃ i : Item, i.symbol = run.symbol ∧ i.segment = run ∧ i.text = run.text.toList := by
  obtain ⟨c, n⟩ := run
  have hupper : c.toUpper = c := toUpper_of_isLower_eq_false hsymbol
  by_cases hone : n = 1
  · subst hone
    refine ⟨.single c, rfl, ?_, ?_⟩
    · show (⟨c.toUpper, 1⟩ : Segment) = ⟨c, 1⟩
      rw [hupper]
    · rw [Segment.text, if_pos rfl, String.toList_singleton]
      rfl
  · refine ⟨.counted c (isCount_toDigits hsize.1 hsize.2), rfl, ?_, ?_⟩
    · show (⟨c.toUpper, n⟩ : Segment) = ⟨c, n⟩
      rw [hupper]
    · rw [Segment.text, if_neg hone]
      have hchar : toString c = String.singleton c := rfl
      have hopening : (toString "(").toList = ['('] := by decide
      have hclosing : (toString ")").toList = [')'] := by decide
      simp [Item.text, Item.counted, Nat.toString_eq_repr, Nat.repr_eq_ofList_toDigits, hchar,
        hopening, hclosing]

theorem text_cons (run : Segment) (p : Picture) : text (run :: p) = run.text ++ text p := by
  simp [text, String.join_cons]

/-- What is printed of a picture is made up of items for its runs. -/
theorem Printable.exists_items (h : p.Printable) :
    ∃ row : List Item, (∀ i ∈ row, i.symbol ≠ '(') ∧ row.map Item.segment = p ∧
      itemText row = p.text.toList := by
  obtain ⟨-, hsize, hsymbol⟩ := h
  induction p with
  | nil => exact ⟨[], by simp, rfl, rfl⟩
  | cons run rest ih =>
    obtain ⟨hrunSize, hrestSize⟩ := List.forall_mem_cons.mp hsize
    obtain ⟨hrunSymbol, hrestSymbol⟩ := List.forall_mem_cons.mp hsymbol
    obtain ⟨i, hi, hsegment, htext⟩ := exists_item_of_segment hrunSize hrunSymbol.2
    obtain ⟨row, hrow, hsegments, htexts⟩ := ih hrestSize hrestSymbol
    refine ⟨i :: row, ?_, ?_, ?_⟩
    · exact List.forall_mem_cons.mpr ⟨hi ▸ hrunSymbol.1, hrow⟩
    · rw [List.map_cons, hsegment, hsegments]
    · rw [text_cons, String.toList_append, ← htext, ← htexts]
      rfl

/-- What is printed of a picture is read back as that picture. -/
theorem printed_picture_read_back {p : Picture} (h : p.Printable) : parse p.text = .ok p := by
  obtain ⟨row, hsymbol, hsegments, htext⟩ := h.exists_items
  have hwritten : Written p.text.toList row := ⟨separated_of_forall hsymbol, htext.symm⟩
  rw [hwritten.parse_eq, hsegments, h.merged.merge_eq]

/-- Counts next to characters that occur in counts, and the largest size. -/
theorem crowded_picture_read_back :
    parse "S)(12)09(4294967295)" = .ok [⟨'S', 1⟩, ⟨')', 12⟩, ⟨'0', 1⟩, ⟨'9', 4294967295⟩] := by
  have htext : text [⟨'S', 1⟩, ⟨')', 12⟩, ⟨'0', 1⟩, ⟨'9', 4294967295⟩] =
      "S)(12)09(4294967295)" := by decide +kernel
  have hmerged : Merged [⟨'S', 1⟩, ⟨')', 12⟩, ⟨'0', 1⟩, ⟨'9', 4294967295⟩] := by
    unfold Merged
    decide
  rw [← htext]
  exact printed_picture_read_back ⟨hmerged, by decide, by decide⟩

/-! ### Which texts are pictures -/

/-- Only an opening parenthesis is read as one. -/
theorem toUpper_ne_opening {c : Char} (h : c ≠ '(') : c.toUpper ≠ '(' := by
  intro heq
  delta Char.toUpper at heq
  split at heq
  · next hrange =>
    have hlow : 97 ≤ c.toNat := hrange.1
    have hhigh : c.toNat ≤ 122 := hrange.2
    have hvalue := congrArg (fun d : Char => d.val.toNat) heq
    simp only [UInt32.toNat_add, UInt32.toNat_sub] at hvalue
    simp at hvalue
    omega
  · exact h heq

theorem Item.size_pos (i : Item) : 0 < i.size := by
  rcases i.eq_single_or_counted with hi | ⟨count, hcount, -⟩
  · rw [hi]
    exact Nat.one_pos
  · obtain ⟨sign, digits, -, -, -, -, -, hpos, -⟩ := hcount
    exact hpos

/-- An item with a count ends with a closing parenthesis. -/
theorem Item.getLast?_text {i : Item} (h : i.count? ≠ none) : i.text.getLast? = some ')' := by
  rcases i.eq_single_or_counted with hi | ⟨count, hcount, hi⟩
  · rw [hi] at h
    exact absurd rfl h
  · have htext : i.text = (i.symbol :: '(' :: count) ++ [')'] := by
      rw [hi]
      rfl
    rw [htext, List.getLast?_concat]

theorem opening_mem_itemsSpelled : '(' ∈ itemsSpelled row ↔ ∃ i ∈ row, i.symbol = '(' := by
  rw [itemsSpelled, List.mem_flatMap]
  constructor
  · intro h
    obtain ⟨i, hi, hmem⟩ := h
    refine ⟨i, hi, ?_⟩
    by_contra hne
    exact toUpper_ne_opening hne (List.eq_of_mem_replicate hmem).symm
  · intro h
    obtain ⟨i, hi, hsymbol⟩ := h
    refine ⟨i, hi, List.mem_replicate.mpr ⟨Nat.ne_of_gt i.size_pos, ?_⟩⟩
    rw [hsymbol]
    decide

/-- What is read spells out what the items say. -/
theorem Written.spelled_eq {text : String} (h : Written text.toList row)
    (hparse : parse text = .ok p) :
    p.spelled = itemsSpelled row := by
  rw [h.parse_eq] at hparse
  obtain rfl := Except.ok.inj hparse
  rw [spelled_merge, spelled_segments]

/-- The texts whose items have no parenthesis for their character are the accepted ones that spell
none. -/
theorem exists_plain_row_iff (text : String) :
    (∃ row : List Item, (∀ i ∈ row, i.symbol ≠ '(') ∧ text.toList = itemText row) ↔
      ∃ p, parse text = .ok p ∧ '(' ∉ p.spelled := by
  constructor
  · intro h
    obtain ⟨row, hsymbol, htext⟩ := h
    have hwritten : Written text.toList row := ⟨separated_of_forall hsymbol, htext⟩
    refine ⟨_, hwritten.parse_eq, ?_⟩
    rw [hwritten.spelled_eq hwritten.parse_eq, opening_mem_itemsSpelled]
    intro hopening
    obtain ⟨i, hi, heq⟩ := hopening
    exact hsymbol i hi heq
  · intro h
    obtain ⟨p, hparse, hspelled⟩ := h
    obtain ⟨row, hwritten⟩ := exists_written_of_parse hparse
    rw [hwritten.spelled_eq hparse, opening_mem_itemsSpelled] at hspelled
    exact ⟨row, fun i hi heq => hspelled ⟨i, hi, heq⟩, hwritten.text_eq⟩

/-- An opening parenthesis that is never closed is the character of an item: it stands first, or
behind a count. -/
theorem Separated.unclosed {before behind : List Char} (h : Separated row)
    (htext : itemText row = before ++ '(' :: behind) (hclosing : ')' ∉ behind) :
    before = [] ∨ before.getLast? = some ')' := by
  induction row generalizing before with
  | nil => simp [itemText] at htext
  | cons i rest ih =>
    obtain ⟨hfirst, hseparated⟩ := separated_cons.mp h
    -- behind an item the parenthesis can only stand if the item has a count
    have hbehind : before = i.text → itemText rest = '(' :: behind →
        before.getLast? = some ')' := by
      intro hbefore hrest
      rw [hbefore]
      refine Item.getLast?_text fun hnone => hfirst hnone ?_
      rw [hrest]
      rfl
    have hsplit : i.text ++ itemText rest = before ++ '(' :: behind := htext
    rcases List.append_eq_append_iff.mp hsplit
      with ⟨inner, hbefore, hrest⟩ | ⟨inner, hitem, hopening⟩
    · -- the parenthesis stands in the items that follow
      rcases ih hseparated hrest with hnil | hlast
      · rw [hnil, List.append_nil] at hbefore
        rw [hnil, List.nil_append] at hrest
        exact .inr (hbehind hbefore hrest)
      · right
        rw [hbefore, List.getLast?_append, hlast]
        rfl
    · cases inner with
      | nil =>
        rw [List.append_nil] at hitem
        exact .inr (hbehind hitem.symm hopening.symm)
      | cons c inner =>
        -- the parenthesis is one of this item
        obtain ⟨rfl, hinner⟩ := List.cons_eq_cons.mp hopening
        by_cases hnone : i.count? = none
        · left
          have hsingle : i.text = [i.symbol] := by rw [Item.text, hnone]
          rw [hsingle] at hitem
          have hlength := congrArg List.length hitem
          simp only [List.length_nil, List.length_append, List.length_cons] at hlength
          exact List.eq_nil_of_length_eq_zero (by omega)
        · have hlast := Item.getLast?_text hnone
          rw [hitem, List.getLast?_append_cons] at hlast
          have hmem : ')' ∈ '(' :: inner := List.mem_of_getLast? hlast
          have hnotMem : ')' ∉ inner := fun hin => hclosing (hinner ▸ List.mem_append_left _ hin)
          simp [hnotMem] at hmem

/-- Which texts are pictures, and what they spell. A text is accepted exactly if it is made up of
items, and then the runs spell out the characters of the items as often as the items say, with no
two runs of one character side by side; any other text is malformed. The texts without a parenthesis
for the character of an item are those that spell none. A parenthesis that is never closed makes a
text malformed unless it stands first or behind a closing one. -/
theorem picture_text_read_exactly (text : String) :
    ((∃ p, parse text = .ok p) ↔ ∃ row, Written text.toList row) ∧
    (∀ row, Written text.toList row → ∃ p, parse text = .ok p ∧ p.spelled = itemsSpelled row ∧
      p.Merged) ∧
    ((¬∃ row, Written text.toList row) → parse text = .error .malformed) ∧
    ((∃ row : List Item, (∀ i ∈ row, i.symbol ≠ '(') ∧ text.toList = itemText row) ↔
      ∃ p, parse text = .ok p ∧ '(' ∉ p.spelled) ∧
    (∀ before behind, text.toList = before ++ '(' :: behind → ')' ∉ behind → before ≠ [] →
      before.getLast? ≠ some ')' → parse text = .error .malformed) := by
  have hrefused : (¬∃ row, Written text.toList row) → parse text = .error .malformed := by
    intro hnone
    have hmalformed := (exists_written_or_malformed text.toList).resolve_left hnone
    rw [parse_eq, hmalformed]
    rfl
  refine ⟨⟨?_, ?_⟩, ?_, hrefused, exists_plain_row_iff text, ?_⟩
  · intro haccepted
    obtain ⟨p, hparse⟩ := haccepted
    exact exists_written_of_parse hparse
  · intro hwritten
    obtain ⟨row, hrow⟩ := hwritten
    exact ⟨_, hrow.parse_eq⟩
  · intro row hrow
    exact ⟨_, hrow.parse_eq, hrow.spelled_eq hrow.parse_eq, merged_merge _⟩
  · intro before behind htext hclosing hfirst hlast
    refine hrefused fun hwritten => ?_
    obtain ⟨row, hrow⟩ := hwritten
    rcases hrow.separated.unclosed (hrow.text_eq.symm.trans htext) hclosing with hnil | hclosed
    · exact hfirst hnil
    · exact hlast hclosed

/-- A parenthesis behind a count is repeated like any other character. -/
theorem repeated_parenthesis_read :
    ∃ p, parse "x( +03 )((2)" = .ok p ∧ p.spelled = ['X', 'X', 'X', '(', '('] ∧ p.Merged := by
  have hthree : IsCount " +03 ".toList 3 := repeatCount?_eq_some_iff.mp (by decide +kernel)
  have htwo : IsCount "2".toList 2 := repeatCount?_eq_some_iff.mp (by decide +kernel)
  have hwritten : Written "x( +03 )((2)".toList [.counted 'x' hthree, .counted '(' htwo] := by
    refine ⟨List.isChain_cons_cons.mpr ⟨fun hnone => ?_, .singleton _⟩, rfl⟩
    cases hnone
  have hrow : itemsSpelled [.counted 'x' hthree, .counted '(' htwo] =
      ['X', 'X', 'X', '(', '('] := by
    show List.replicate 3 'x'.toUpper ++ (List.replicate 2 '('.toUpper ++ []) = _
    decide
  obtain ⟨p, hparse, hspelled, hmerged⟩ := (picture_text_read_exactly "x( +03 )((2)").2.1 _ hwritten
  exact ⟨p, hparse, hspelled.trans hrow, hmerged⟩

/-- A parenthesis alone is accepted, though it is never closed. -/
theorem lone_parenthesis_accepted :
    parse "(" = .ok [⟨'(', 1⟩] ∧ ¬∃ row : List Item, (∀ i ∈ row, i.symbol ≠ '(') ∧
      "(".toList = itemText row := by
  have hparse : parse "(" = .ok [⟨'(', 1⟩] := by decide +kernel
  refine ⟨hparse, fun hplain => ?_⟩
  obtain ⟨p, hread, hspelled⟩ := (exists_plain_row_iff "(").mp hplain
  rw [hparse] at hread
  obtain rfl := Except.ok.inj hread
  exact hspelled (by decide)

end CobolCompiler.Picture
