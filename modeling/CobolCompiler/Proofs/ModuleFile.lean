import CobolCompiler.Machine.Codec
import Mathlib.Tactic.Ring

/-!
# Reading back module files

What is written for a module is read back as that module, whatever bytes follow it
(`Module.ofBytes_toBytes_append`), and a file that breaks off is never taken for a module
(`Module.truncated_refused`). The format has no total length and no checksum, and bytes behind a
module are ignored, so both are properties of how the parts of a file are written: a reader can tell
from the bytes of a part where the part ends. `Reads` says that a reader takes exactly the given
bytes off the front of any input, and `Codes` adds what becomes of an input that breaks off. `Codes`
is closed under the sequencing of readers, so that the result for each part of a file follows the
way in which the part is put together. `Undoes` relates a reader to a writer.

A length is written in the width of 64 bits. What has fewer than `2 ^ 64` bytes is read back, for
then every length in it fits. A length that does not fit is refused in a whole file as well as in a
truncated one.
-/

namespace CobolCompiler.Machine

/-! ### Readers and what they take -/

/-- From any input that starts with the bytes, the reader takes just these and makes the value of
them. -/
def Reads {α : Type} (reader : Reader α) (a : α) (bytes : Bytes) : Prop :=
  ∀ rest, reader (bytes ++ rest) = .ok (a, rest)

/-- The bytes of a value show a reader where they end. -/
structure Codes {α : Type} (fits : Prop) (reader : Reader α) (a : α) (bytes : Bytes) : Prop where
  /-- They are read on a condition. -/
  reads : fits → Reads reader a bytes
  /-- Without the condition too, an input that starts with the bytes is read in this way if it is
  accepted at all. -/
  whole : ∀ rest b left, reader (bytes ++ rest) = .ok (b, left) → b = a ∧ left = rest
  /-- An input that breaks off within the bytes is refused. -/
  cut : ∀ start missing, bytes = start ++ missing → missing ≠ [] → ∃ e, reader start = .error e

section codes

variable {α β : Type} {fits fits' : Prop} {reader : Reader α} {next : α → Reader β} {a : α} {b : β}
  {bytes bytes' : Bytes}

theorem bind_eq_error {input : Bytes} {e : CodecError} (h : reader input = .error e) :
    (reader >>= next) input = .error e := by
  show (reader input >>= fun p => next p.1 p.2) = .error e
  rw [h]
  rfl

theorem bind_eq_of_ok {input rest : Bytes} (h : reader input = .ok (a, rest)) :
    (reader >>= next) input = next a rest := by
  show (reader input >>= fun p => next p.1 p.2) = next a rest
  rw [h]
  rfl

/-- A reader that reads the bytes for certain only has to refuse what breaks off. -/
theorem Reads.codes (h : Reads reader a bytes) (hcut : ∀ start missing, bytes = start ++ missing →
      missing ≠ [] → ∃ e, reader start = .error e) :
    Codes fits reader a bytes where
  reads := fun _ => h
  whole := by
    intro rest b left hread
    rw [h rest] at hread
    obtain ⟨rfl, rfl⟩ := Prod.mk.inj (Except.ok.inj hread)
    exact ⟨rfl, rfl⟩
  cut := hcut

theorem codes_pure (a : α) : Codes fits (pure a) a [] := by
  have hreads : Reads (pure a) a [] := fun _ => rfl
  refine hreads.codes fun start missing hsplit hmissing => ?_
  exact absurd (List.append_eq_nil_iff.mp hsplit.symm).2 hmissing

/-- What refuses everything is right about any bytes, though on no condition. -/
theorem codes_throw (e : CodecError) (a : α) (bytes : Bytes) :
    Codes False (throw e : Reader α) a bytes where
  reads := False.elim
  whole := by
    intro rest b left h
    cases h
  cut := by
    intro start missing _ _
    exact ⟨e, rfl⟩

theorem Codes.mono (h : Codes fits reader a bytes) (hfits : fits' → fits) :
    Codes fits' reader a bytes :=
  ⟨fun hf => h.reads (hfits hf), h.whole, h.cut⟩

/-- An input that breaks off within two parts does so within the first one, or behind it and within
the second. -/
theorem Codes.bind (h : Codes fits reader a bytes) (hnext : Codes fits (next a) b bytes') :
    Codes fits (reader >>= next) b (bytes ++ bytes') where
  reads := by
    intro hfits rest
    rw [List.append_assoc, bind_eq_of_ok (h.reads hfits _)]
    exact hnext.reads hfits rest
  whole := by
    intro rest c left haccepted
    rw [List.append_assoc] at haccepted
    cases hread : reader (bytes ++ (bytes' ++ rest)) with
    | error e =>
      rw [bind_eq_error hread] at haccepted
      cases haccepted
    | ok p =>
      obtain ⟨x, behind⟩ := p
      obtain ⟨rfl, rfl⟩ := h.whole _ _ _ hread
      rw [bind_eq_of_ok hread] at haccepted
      exact hnext.whole rest c left haccepted
  cut := by
    intro start missing hsplit hmissing
    -- An input that holds the first part and breaks off within the second.
    have hbehind : ∀ start', bytes' = start' ++ missing →
        ∃ e, (reader >>= next) (bytes ++ start') = .error e := by
      intro start' hstart'
      cases hread : reader (bytes ++ start') with
      | error e => exact ⟨e, bind_eq_error hread⟩
      | ok p =>
        obtain ⟨x, behind⟩ := p
        obtain ⟨rfl, rfl⟩ := h.whole _ _ _ hread
        rw [bind_eq_of_ok hread]
        exact hnext.cut behind missing hstart' hmissing
    rcases List.append_eq_append_iff.mp hsplit with ⟨start', rfl, hstart'⟩ | ⟨missing', hbytes, rfl⟩
    · exact hbehind start' hstart'
    · by_cases hnil : missing' = []
      · -- The cut is right between the two parts.
        subst hnil
        rw [List.append_nil] at hbytes
        rw [← hbytes, ← List.append_nil bytes]
        exact hbehind [] rfl
      · obtain ⟨e, he⟩ := h.cut start missing' hbytes hnil
        exact ⟨e, bind_eq_error he⟩

theorem Codes.bind_nil (h : Codes fits reader a bytes) (hnext : Codes fits (next a) b []) :
    Codes fits (reader >>= next) b bytes := by
  rw [← List.append_nil bytes]
  exact h.bind hnext

/-- A reader that only changes what another has read. -/
theorem Codes.map (h : Codes fits reader a bytes) (f : α → β) :
    Codes fits (reader >>= fun x => pure (f x)) (f a) bytes :=
  h.bind_nil (codes_pure (f a))

theorem codes_readByte (b : UInt8) : Codes fits readByte b [b] := by
  have hreads : Reads readByte b [b] := fun _ => rfl
  refine hreads.codes fun start missing hsplit hmissing => ?_
  cases start with
  | nil => exact ⟨.unexpectedEnd, rfl⟩
  | cons c start =>
    have hnil := (List.append_eq_nil_iff.mp (List.cons.inj hsplit).2.symm).2
    exact absurd hnil hmissing

theorem codes_readBytes (bytes : Bytes) : Codes fits (readBytes bytes.length) bytes bytes := by
  have hreads : Reads (readBytes bytes.length) bytes bytes := by
    intro rest
    -- The input is long enough, whatever follows.
    have hlong : ¬ (bytes ++ rest).length < bytes.length := by simp
    rw [readBytes, if_neg hlong, List.take_left, List.drop_left]
  refine hreads.codes fun start missing hsplit hmissing => ⟨.unexpectedEnd, ?_⟩
  have hshort : start.length < bytes.length := by
    have hpos := List.length_pos_iff.mpr hmissing
    rw [hsplit, List.length_append]
    omega
  rw [readBytes, if_pos hshort]

end codes

/-! ### Numbers -/

namespace Varint

theorem encode_of_lt {n : Nat} (h : n < 128) : encode n = [n.toUInt8] := by
  rw [encode, if_pos h]

theorem encode_of_ge {n : Nat} (h : 128 ≤ n) :
    encode n = (n % 128 + 128).toUInt8 :: encode (n / 128) := by
  rw [encode, if_neg (by omega)]

theorem encode_ne_nil (n : Nat) : encode n ≠ [] := by
  rw [encode]
  split <;> simp

theorem decodeWithin_succ (lastByte left : Nat) :
    decodeWithin lastByte (left + 1) = readByte >>= fun b =>
      if b.toNat < 128 then
        if left = 0 ∧ lastByte < b.toNat then throw .badVarint else pure b.toNat
      else decodeWithin lastByte left >>= fun higher => pure (b.toNat - 128 + 128 * higher) := by
  rw [decodeWithin]
  congr 1
  funext b
  by_cases hb : b.toNat < 128
  · by_cases hover : left = 0 ∧ lastByte < b.toNat
    · simp only [hb, hover, decide_true, Bool.and_self, and_self, if_true]
      rfl
    · have hfits : (decide (left = 0) && decide (lastByte < b.toNat)) = false := by
        simpa using hover
      simp only [hb, hover, hfits, if_true, if_false]
      rfl
  · simp only [hb]
    rfl

/-- A single byte is read as its number, unless it is the last permitted one and too great for
that. -/
theorem codes_decodeWithin_single (lastByte left : Nat) {n : Nat} (hsmall : n < 128) :
    Codes (left = 0 → n ≤ lastByte) (decodeWithin lastByte (left + 1)) n (encode n) := by
  have hbyte : n.toUInt8.toNat = n := by simp; omega
  rw [encode_of_lt hsmall, decodeWithin_succ]
  apply (codes_readByte n.toUInt8).bind_nil
  rw [hbyte, if_pos hsmall]
  split
  · exact (codes_throw .badVarint n []).mono (by omega)
  · exact codes_pure n

/-- The lowest group of a number is one byte, and the rest is a number of its own. -/
theorem codes_decodeWithin_group {fits : Prop} {lastByte left n : Nat} (hbig : ¬n < 128)
    (hrest : Codes fits (decodeWithin lastByte left) (n / 128) (encode (n / 128))) :
    Codes fits (decodeWithin lastByte (left + 1)) n (encode n) := by
  have hbyte : (n % 128 + 128).toUInt8.toNat = n % 128 + 128 := by simp; omega
  have hsum : n % 128 + 128 - 128 + 128 * (n / 128) = n := by omega
  have hhigher := hrest.map fun higher => n % 128 + 128 - 128 + 128 * higher
  rw [hsum] at hhigher
  rw [encode_of_ge (by omega), decodeWithin_succ]
  apply (codes_readByte (n % 128 + 128).toUInt8).bind
  rw [hbyte, if_neg (by omega)]
  exact hhigher

/-- A number is read back if it fits: below the last permitted byte there is room for seven bits a
byte, and the last byte has a bound of its own. -/
theorem codes_decodeWithin {lastByte : Nat} (hlast : lastByte < 128) (left n : Nat) :
    Codes (n < 128 ^ left * (lastByte + 1)) (decodeWithin lastByte (left + 1)) n (encode n) := by
  induction left generalizing n with
  | zero =>
    by_cases hsmall : n < 128
    · exact (codes_decodeWithin_single lastByte 0 hsmall).mono (by omega)
    · exact (codes_decodeWithin_group hsmall (codes_throw .badVarint _ _)).mono (by omega)
  | succ left ih =>
    by_cases hsmall : n < 128
    · exact (codes_decodeWithin_single lastByte (left + 1) hsmall).mono (by omega)
    · refine (codes_decodeWithin_group hsmall (ih (n / 128))).mono fun hn => ?_
      rw [Nat.div_lt_iff_lt_mul (by omega)]
      calc n < 128 ^ (left + 1) * (lastByte + 1) := hn
        _ = 128 ^ left * (lastByte + 1) * 128 := by ring

theorem codes_w16 {n : Nat} (h : n < 2 ^ 16) {fits : Prop} : Codes fits (decode w16) n (encode n) :=
  (codes_decodeWithin (by decide) 2 n).mono fun _ => by simpa [w16] using h

theorem codes_w32 {n : Nat} (h : n < 2 ^ 32) {fits : Prop} : Codes fits (decode w32) n (encode n) :=
  (codes_decodeWithin (by decide) 4 n).mono fun _ => by simpa [w32] using h

theorem codes_w64 (n : Nat) : Codes (n < 2 ^ 64) (decode w64) n (encode n) :=
  (codes_decodeWithin (by decide) 9 n).mono fun h => by simpa [w64] using h

theorem zigzag_lt (i : Int16) : zigzag i.toInt < 2 ^ 16 := by
  have hlow := i.le_toInt
  have hhigh := i.toInt_lt
  unfold zigzag
  split <;> omega

end Varint

/-! ### Parts of a file -/

/-- A reader reads back whatever a writer writes, as long as it is not too long for its lengths to
be written. -/
def Undoes {α : Type} (reader : Reader α) (write : α → Bytes) : Prop :=
  ∀ a, (write a).length < 2 ^ 64 → Reads reader a (write a)

/-- A writer writes what a reader reads back, and in such a way that it cannot be cut. -/
def Coded {α : Type} (reader : Reader α) (write : α → Bytes) : Prop :=
  ∀ a, Codes ((write a).length < 2 ^ 64) reader a (write a)

theorem fromUTF8?_toUTF8 (s : String) :
    String.fromUTF8? ⟨s.toUTF8.data.toList.toArray⟩ = some s := by
  show (if h : s.toByteArray.IsValidUTF8 then some (String.fromUTF8 s.toByteArray h) else none) =
    some s
  rw [dif_pos s.isValidUTF8]
  rfl

theorem coded_text : Coded Decode.text Encode.text := by
  intro s
  have hbytes : s.toUTF8.data.toList.length = s.utf8ByteSize := by simp [String.toUTF8]
  have hsize : (Encode.text s).length < 2 ^ 64 → s.utf8ByteSize < 2 ^ 64 := by
    intro h
    rw [Encode.text, List.length_append, hbytes] at h
    omega
  apply ((Varint.codes_w64 s.utf8ByteSize).mono hsize).bind
  rw [← hbytes]
  apply (codes_readBytes _).bind_nil
  rw [fromUTF8?_toUTF8]
  exact codes_pure s

/-- Items that can be read one by one are read one after the other, and end where the last one
does. -/
theorem codes_items {α : Type} {fits : Prop} {item : Reader α} {write : α → Bytes} {items : List α}
    (h : ∀ a ∈ items, Codes fits item a (write a)) (done : Array α) :
    Codes fits (Decode.items item done items.length) (done ++ items.toArray)
      (items.flatMap write) := by
  induction items generalizing done with
  | nil =>
    rw [List.flatMap_nil, show done ++ ([] : List α).toArray = done from Array.append_empty]
    exact codes_pure done
  | cons first rest ih =>
    have hrest := ih (fun a ha => h a (by simp [ha])) (done.push first)
    rw [List.flatMap_cons]
    apply (h first (by simp)).bind
    simpa using hrest

theorem length_le_length_flatMap {α : Type} {write : α → Bytes} (hne : ∀ a, write a ≠ [])
    (items : List α) :
    items.length ≤ (items.flatMap write).length := by
  induction items with
  | nil => simp
  | cons first rest ih =>
    have hfirst := List.length_pos_iff.2 (hne first)
    rw [List.flatMap_cons, List.length_append, List.length_cons]
    omega

theorem length_le_length_flatMap_of_mem {α : Type} (write : α → Bytes) {items : List α} {a : α}
    (ha : a ∈ items) :
    (write a).length ≤ (items.flatMap write).length := by
  obtain ⟨before, behind, hsplit⟩ := List.append_of_mem ha
  rw [hsplit, List.flatMap_append, List.flatMap_cons, List.length_append, List.length_append]
  omega

/-- A list is read back if each item takes at least one byte: then it has no more items than
bytes. -/
theorem Coded.list {α : Type} {item : Reader α} {write : α → Bytes} (h : Coded item write)
    (hne : ∀ a, write a ≠ []) : Coded (Decode.list item) (Encode.list write) := by
  intro items
  have hcount : items.size ≤ (items.toList.flatMap write).length :=
    length_le_length_flatMap hne items.toList
  have hlength : (Encode.list write items).length =
      (Varint.encode items.size).length + (items.toList.flatMap write).length := List.length_append
  have hitems :
      ∀ a ∈ items.toList, Codes ((Encode.list write items).length < 2 ^ 64) item a (write a) := by
    intro a ha
    have hitem := length_le_length_flatMap_of_mem write ha
    exact (h a).mono (by omega)
  apply ((Varint.codes_w64 items.size).mono (by omega)).bind
  simpa using codes_items hitems #[]

/-- The bytes of a number, lowest first, add up to it again as far as they reach. -/
theorem foldr_bytes (count n : Nat) :
    ((List.range count).map fun i => (n / 256 ^ i).toUInt8).foldr (fun b m => b.toNat + 256 * m) 0 =
      n % 256 ^ count := by
  induction count generalizing n with
  | zero => simp [Nat.mod_one]
  | succ count ih =>
    -- All bytes but the lowest are those of the number without it.
    have hshift : ∀ i, n / 256 ^ (i + 1) = n / 256 / 256 ^ i := by
      intro i
      rw [Nat.div_div_eq_div_mul, pow_succ']
    rw [List.range_succ_eq_map, List.map_cons, List.map_map, List.foldr_cons]
    have hrest : ((fun i => (n / 256 ^ i).toUInt8) ∘ Nat.succ) = fun i =>
        (n / 256 / 256 ^ i).toUInt8 := by
      funext i
      simp [hshift]
    rw [hrest, ih, pow_succ', Nat.mod_mul]
    simp

section fixed

variable {fits : Prop}

theorem codes_pattern (bits : UInt64) : Codes fits Decode.pattern bits (Encode.pattern bits) := by
  have hbits : UInt64.ofNat ((Encode.pattern bits).foldr (fun b n => b.toNat + 256 * n) 0) =
      bits := by
    simp only [Encode.pattern, Nat.shiftRight_eq_div_pow, Nat.pow_mul]
    rw [foldr_bytes, Nat.mod_eq_of_lt (by simpa using bits.toNat_lt)]
    simp
  have hread : Codes fits _ _ _ := (codes_readBytes (Encode.pattern bits)).map
    fun bytes => UInt64.ofNat (bytes.foldr (fun b n => b.toNat + 256 * n) 0)
  rw [hbits] at hread
  exact hread

theorem codes_index (i : UInt16) : Codes fits Decode.index i (Varint.encode i.toNat) := by
  have hread : Codes fits _ _ _ := (Varint.codes_w16 i.toNat_lt).map UInt16.ofNat
  rw [UInt16.ofNat_toNat] at hread
  exact hread

theorem codes_slot (i : Int16) :
    Codes fits Decode.slot i (Varint.encode (Varint.zigzag i.toInt)) := by
  have hread : Codes fits _ _ _ :=
    (Varint.codes_w16 (Varint.zigzag_lt i)).map fun n => Int16.ofInt (Varint.unzigzag n)
  rw [Varint.unzigzag_zigzag, Int16.ofInt_toInt] at hread
  exact hread

/-- The number of a variant is one byte. -/
theorem codes_variant {n : Nat} (h : n < 128) :
    Codes fits (Varint.decode Varint.w32) n [n.toUInt8] := by
  rw [← Varint.encode_of_lt h]
  exact Varint.codes_w32 (by omega)

theorem codes_instruction (i : Instruction) :
    Codes fits Decode.instruction i (Encode.instruction i) := by
  have hvariant : ∀ n < 10, Codes fits (Varint.decode Varint.w32) n [n.toUInt8] :=
    fun n hn => codes_variant (by omega)
  cases i with
  | load i => exact (hvariant 0 (by decide)).bind ((codes_index i).map Instruction.load)
  | loadField i => exact (hvariant 1 (by decide)).bind ((codes_index i).map Instruction.loadField)
  | store i => exact (hvariant 2 (by decide)).bind ((codes_index i).map Instruction.store)
  | push i => exact (hvariant 3 (by decide)).bind ((codes_slot i).map Instruction.push)
  | replace i => exact (hvariant 4 (by decide)).bind ((codes_slot i).map Instruction.replace)
  | pop => exact (hvariant 5 (by decide)).bind (codes_pure Instruction.pop)
  | imported i => exact (hvariant 6 (by decide)).bind ((codes_index i).map Instruction.imported)
  | proto i => exact (hvariant 7 (by decide)).bind ((codes_index i).map Instruction.proto)
  | call usings returnings =>
    exact (hvariant 8 (by decide)).bind
      ((codes_readByte usings).bind ((codes_readByte returnings).map (Instruction.call usings)))
  | ret => exact (hvariant 9 (by decide)).bind (codes_pure Instruction.ret)

end fixed

theorem coded_value : Coded Decode.value Encode.value := by
  intro v
  have hvariant :
      ∀ n < 3, Codes ((Encode.value v).length < 2 ^ 64) (Varint.decode Varint.w32) n [n.toUInt8] :=
    fun n hn => codes_variant (by omega)
  cases v with
  | comp2 bits => exact (hvariant 0 (by decide)).bind ((codes_pattern bits).map Value.comp2)
  | comp4 precision scale digits =>
    simp only [Encode.value, List.cons_append, List.append_assoc, List.length_cons,
      List.length_append] at hvariant ⊢
    -- The reader makes its two numbers from natural ones, so the value is put in this form.
    have hvalue : Value.comp4 precision scale digits =
        Value.comp4 (UInt32.ofNat precision.toNat) (UInt32.ofNat scale.toNat) digits := by simp
    rw [hvalue]
    exact (hvariant 1 (by decide)).bind ((Varint.codes_w32 precision.toNat_lt).bind
      ((Varint.codes_w32 scale.toNat_lt).bind (((coded_text digits).mono (by omega)).map
        (Value.comp4 (.ofNat precision.toNat) (.ofNat scale.toNat)))))
  | display s =>
    simp only [Encode.value, List.length_cons] at hvariant ⊢
    exact (hvariant 2 (by decide)).bind (((coded_text s).mono (by omega)).map Value.display)

theorem coded_imported : Coded Decode.imported Encode.imported := by
  intro i
  simp only [Encode.imported, List.length_append]
  exact ((coded_text i.owner).mono (by omega)).bind
    (((coded_text i.program).mono (by omega)).map (Import.mk i.owner))

theorem coded_optionalText : Coded Decode.optionalText Encode.optionalText := by
  intro s?
  cases s? with
  | none => exact (codes_readByte 0).bind_nil (codes_pure none)
  | some s =>
    simp only [Encode.optionalText, List.length_cons]
    exact (codes_readByte 1).bind (((coded_text s).mono (by omega)).map some)

/-! ### Nothing is written without a byte -/

theorem text_ne_nil (s : String) : Encode.text s ≠ [] := by
  simp [Encode.text, Varint.encode_ne_nil]

theorem value_ne_nil (v : Value) : Encode.value v ≠ [] := by
  cases v <;> simp [Encode.value]

theorem instruction_ne_nil (i : Instruction) : Encode.instruction i ≠ [] := by
  cases i <;> simp [Encode.instruction]

theorem imported_ne_nil (i : Import) : Encode.imported i ≠ [] := by
  simp [Encode.imported, text_ne_nil]

theorem prototype_ne_nil (p : Prototype) : Encode.prototype p ≠ [] := by
  simp [Encode.prototype]

/-! ### Modules -/

theorem coded_prototype : Coded Decode.prototype Encode.prototype := by
  have hvalues := coded_value.list value_ne_nil
  have hcode : Coded (Decode.list Decode.instruction) (Encode.list Encode.instruction) :=
    Coded.list (fun i => codes_instruction i) instruction_ne_nil
  intro p
  simp only [Encode.prototype, List.append_assoc, List.length_append]
  exact ((coded_optionalText p.name?).mono (by omega)).bind ((codes_readByte p.usings).bind
    ((codes_readByte p.returnings).bind (((hvalues p.fields).mono (by omega)).bind (((hcode
      p.code).mono (by omega)).map (Prototype.mk p.name? p.usings p.returnings p.fields)))))

theorem coded_moduleFile : Coded Decode.moduleFile Module.toBytes := by
  have hvalues := coded_value.list value_ne_nil
  have himports := coded_imported.list imported_ne_nil
  have hprototypes := coded_prototype.list prototype_ne_nil
  intro m
  simp only [Module.toBytes, List.append_assoc, List.length_append]
  exact ((coded_text m.name).mono (by omega)).bind (((hvalues m.constants).mono (by omega)).bind
    (((himports m.imports).mono (by omega)).bind
      (((hprototypes m.prototypes).mono (by omega)).map (Module.mk m.name m.constants m.imports))))

theorem undoes_moduleFile : Undoes Decode.moduleFile Module.toBytes :=
  fun m h => (coded_moduleFile m).reads h

namespace Module

/-- A module file gives back its module, whatever follows it. The lengths in a file are numbers of
64 bits; a file too long for them does not fit into memory either. -/
theorem ofBytes_toBytes_append (m : Module) (h : m.toBytes.length < 2 ^ 64) (rest : Bytes) :
    ofBytes (m.toBytes ++ rest) = .ok m := by
  have hread := undoes_moduleFile m h rest
  show (do let p ← Decode.moduleFile (m.toBytes ++ rest); pure p.1) = Except.ok m
  rw [hread]
  rfl

/-- A module with numbers at the limits of their widths: a pattern that is not a number, the least
slot, the greatest index, and a text that takes more bytes than characters. -/
def atLimits : Module where
  name := "GRÖSSE"
  constants := #[.comp2 0x7ff8000000000001, .comp4 18 127 "-5", .comp4 128 16384 "", .display "€"]
  imports := #[⟨"SYSTEM", "DISPLAY"⟩]
  prototypes :=
    #[⟨some "MAIN", 255, 0, #[.display ""], #[.push (-32768), .load 65535, .call 1 0, .ret]⟩,
      ⟨none, 0, 1, #[], #[.replace 32767, .proto 128]⟩]

theorem ofBytes_toBytes_atLimits :
    atLimits.toBytes.length < 2 ^ 64 ∧ ofBytes (atLimits.toBytes ++ [255, 0]) = .ok atLimits := by
  have h : atLimits.toBytes.length < 2 ^ 64 := by decide +kernel
  exact ⟨h, ofBytes_toBytes_append atLimits h [255, 0]⟩

/-- A module file that breaks off anywhere is refused. -/
theorem truncated_refused (m : Module) (bytes : Bytes) (hstart : bytes <+: m.toBytes)
    (hbroken : bytes ≠ m.toBytes) :
    ∃ e, ofBytes bytes = .error e := by
  obtain ⟨missing, hsplit⟩ := hstart
  have hmissing : missing ≠ [] := by
    intro hnil
    rw [hnil, List.append_nil] at hsplit
    exact hbroken hsplit
  obtain ⟨e, he⟩ := (coded_moduleFile m).cut bytes missing hsplit.symm hmissing
  refine ⟨e, ?_⟩
  show (do let p ← Decode.moduleFile bytes; pure p.1) = Except.error e
  rw [he]
  rfl

/-- The last byte of a file cannot be left out. -/
theorem atLimits_without_last_refused :
    atLimits.toBytes.dropLast <+: atLimits.toBytes ∧ atLimits.toBytes.dropLast ≠ atLimits.toBytes ∧
      ∃ e, ofBytes atLimits.toBytes.dropLast = .error e := by
  have hstart : atLimits.toBytes.dropLast <+: atLimits.toBytes := List.dropLast_prefix _
  have hbroken : atLimits.toBytes.dropLast ≠ atLimits.toBytes := by decide +kernel
  exact ⟨hstart, hbroken, truncated_refused atLimits _ hstart hbroken⟩

end Module

end CobolCompiler.Machine
