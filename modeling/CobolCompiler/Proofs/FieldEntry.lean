import CobolCompiler.Proofs.FieldClauses

/-!
# Entering a field

A field declaration is read from the clauses below its node, checked, and entered into the scope if
the program has no field of the name. `Declares` says which clauses a node has, without regard to
their order. The two results about `Declaration.definer` say what becomes of the node: a mistake
stops the walk where it is and changes nothing, and a field without mistake is added to the program
that is being declared. Both are about pictures that spell a row of less than 2^32 characters, so
that no sum of sizes overflows (`overflows_eq_false`).
-/

namespace CobolCompiler

/-- The literal that a default value is written as. -/
def DefaultValue.payload : DefaultValue → Payload
  | .number text => .numberLiteral text
  | .string text => .stringLiteral text

namespace Picture

theorem size_le_length_spelled {p : Picture} {s : Segment} (hs : s ∈ p) :
    s.size ≤ p.spelled.length := by
  induction p with
  | nil => cases hs
  | cons t p ih =>
    rw [spelled_cons, List.length_append, Segment.spelled, List.length_replicate]
    rcases List.mem_cons.mp hs with rfl | hs
    · omega
    · exact (ih hs).trans (Nat.le_add_left _ _)

theorem count_add_count_le (p : Picture) {c d : Char} (h : c ≠ d) :
    p.count c + p.count d ≤ p.spelled.length := by
  induction p with
  | nil => exact Nat.le_refl 0
  | cons s p ih =>
    rw [count_cons, count_cons, spelled_cons, List.length_append, Segment.spelled,
      List.length_replicate]
    split_ifs with hc hd
    · exact absurd (hc.symm.trans hd) h
    all_goals omega

end Picture

namespace Declaration

/-! ### Clauses -/

/-- No sum of sizes is larger than the number of characters that the picture spells. -/
theorem overflows_eq_false {c : Clauses}
    (h : ∀ p place, c.picture? = some (p, place) → p.spelled.length < 0x100000000) :
    overflows c = false := by
  unfold overflows
  split
  · next p place _ hp =>
    have hlength := h p place hp
    have hruled : ruledPlaces p ≤ p.spelled.length := by
      have hpoint := p.count_add_count_le (show 'V' ≠ '9' by decide)
      have hletter := p.count_add_count_le (show 'X' ≠ 'A' by decide)
      unfold ruledPlaces
      split_ifs <;> omega
    have hruns : p.any (0x100000000 ≤ ·.size) = false := by
      rw [List.any_eq_false]
      intro s hs
      have hsize := Picture.size_le_length_spelled hs
      simpa using hsize.trans_lt hlength
    rw [hruns, Bool.false_or, decide_eq_false (p := 0x100000000 ≤ ruledPlaces p) (by omega),
      Bool.and_false]
  · rfl

/-- A node declares a field with a valid level and with these clauses, each given with its place.
Where there are several clauses of a kind, the first one counts. -/
structure Declares (n : Node) (usage : Usage) (picture? : Option (Picture × Location))
    (default? : Option (DefaultValue × Location)) : Prop where
  payload : n.payload = .field
  level : ∀ c number, n.child? .level = some c → c.payload = .level number → 1 ≤ number ∧
    number ≤ 77
  usage : (n.child? .usage).map (·.payload) = some (.usage usage)
  picture : (n.child? .picture).map (fun c => (c.payload, c.location)) = picture?.map fun d =>
    (.picture d.1, d.2)
  default : (n.children.find? fun c => c.is .numberLiteral || c.is .stringLiteral).map
    (fun c => (c.payload, c.location)) = default?.map fun d => (d.1.payload, d.2)

/-- The level that a field is built with is the one that counts. -/
theorem level_field {level : Nat} (hlevel : 1 ≤ level ∧ level ≤ 77) (name : String)
    (clauses : List Node) (c : Node)
    (number : Nat) (hc : (Build.field level name clauses).child? .level = some c)
    (hnumber : c.payload = .level number) :
    1 ≤ number ∧ number ≤ 77 := by
  cases hc
  cases hnumber
  exact hlevel

/-- What is found first is read from the first that has it. -/
theorem findSome?_eq_bind_find? {α β : Type} {f : α → Option β} {p : α → Bool}
    (h : ∀ a, (f a).isSome = p a)
    (items : List α) : items.findSome? f = (items.find? p).bind f := by
  induction items with
  | nil => rfl
  | cons a rest ih =>
    rw [List.findSome?_cons, List.find?_cons, ← h a, ih]
    cases hf : f a with
    | none => rfl
    | some b => exact hf.symm

section read

variable {n : Node} {usage : Usage} {picture? : Option (Picture × Location)}
  {default? : Option (DefaultValue × Location)} (h : Declares n usage picture? default?)

include h

theorem Declares.usage_ofNode : (Clauses.ofNode n).usage = usage := by
  have htag : ∀ c : Node, (usageOf? c).isSome = c.is .usage := by
    intro c
    obtain ⟨_, payload, _, _⟩ := c
    cases payload <;> rfl
  obtain ⟨c, hc, hpayload⟩ := Option.map_eq_some_iff.mp h.usage
  have hfound : n.children.findSome? usageOf? = some usage := by
    rw [findSome?_eq_bind_find? htag, show n.children.find? (·.is .usage) = some c from hc,
      Option.bind_some, usageOf?, hpayload]
  show (n.children.findSome? usageOf?).getD .display = usage
  rw [hfound, Option.getD_some]

theorem Declares.picture_ofNode :
    (Clauses.ofNode n).picture? = picture?.map fun d => (d.1.merge, d.2) := by
  have htag : ∀ c : Node, (pictureOf? c).isSome = c.is .picture := by
    intro c
    obtain ⟨_, payload, _, _⟩ := c
    cases payload <;> rfl
  have hpicture := h.picture
  show n.children.findSome? pictureOf? = _
  rw [findSome?_eq_bind_find? htag]
  rw [Node.child?] at hpicture
  cases hfound : n.children.find? (·.is .picture) with
  | none =>
    rw [hfound] at hpicture
    cases picture? with
    | none => rfl
    | some d => cases hpicture
  | some c =>
    rw [hfound] at hpicture
    cases picture? with
    | none => cases hpicture
    | some d =>
      obtain ⟨hpayload, hlocation⟩ := Prod.mk.inj (Option.some.inj hpicture)
      show pictureOf? c = _
      rw [pictureOf?, hpayload, hlocation]
      rfl

theorem Declares.default_ofNode : (Clauses.ofNode n).default? = default? := by
  have htag : ∀ c : Node, (defaultOf? c).isSome = (c.is .numberLiteral || c.is .stringLiteral) := by
    intro c
    obtain ⟨_, payload, _, _⟩ := c
    cases payload <;> rfl
  have hdefault := h.default
  show n.children.findSome? defaultOf? = _
  rw [findSome?_eq_bind_find? htag]
  cases hfound : n.children.find? (fun c => c.is .numberLiteral || c.is .stringLiteral) with
  | none =>
    rw [hfound] at hdefault
    cases default? with
    | none => rfl
    | some d => cases hdefault
  | some c =>
    rw [hfound] at hdefault
    cases default? with
    | none => cases hdefault
    | some d =>
      obtain ⟨value, place⟩ := d
      obtain ⟨hpayload, hlocation⟩ := Prod.mk.inj (Option.some.inj hdefault)
      show defaultOf? c = some (value, place)
      rw [defaultOf?, hpayload, hlocation]
      cases value <;> rfl

theorem Declares.checkLevel_ofNode : checkLevel (Clauses.ofNode n) = .ok () := by
  have htag : ∀ c : Node, (levelOf? c).isSome = c.is .level := by
    intro c
    obtain ⟨_, payload, _, _⟩ := c
    cases payload <;> rfl
  have hlevel : (Clauses.ofNode n).level? = (n.child? .level).bind levelOf? :=
    findSome?_eq_bind_find? htag _
  unfold checkLevel
  rw [hlevel]
  cases hfound : n.child? .level with
  | none => rfl
  | some c =>
    cases hpayload : c.payload with
    | level number =>
      have hbounds := h.level c number hfound hpayload
      simp [levelOf?, hpayload, hbounds]
    | _ => simp [levelOf?, hpayload]

/-- Reading the declaration is checking its clauses against its usage. -/
theorem Declares.readField_eq (policy : FractionPolicy) (home : Section) :
    readField policy home n = (checkUsage policy home (Clauses.ofNode n)).map fun comp4? =>
      { name := n.name, home, level := ((Clauses.ofNode n).level?.map (·.1)).getD 1, usage,
        picture? := picture?.map (·.1.merge), type? := none, location := n.nameLocation,
        default? := default?.map (·.1), comp4? } := by
  have husage := h.usage_ofNode
  have hpicture := h.picture_ofNode
  have hdefault := h.default_ofNode
  simp only [readField, h.checkLevel_ofNode, hpicture, hdefault, husage, bind, Except.bind]
  cases checkUsage policy home (Clauses.ofNode n) with
  | error mistake => rfl
  | ok comp4? =>
    have hmerged : (picture?.map fun d => (d.1.merge, d.2)).map (·.1) =
        picture?.map (·.1.merge) := by
      rw [Option.map_map]
      rfl
    rw [hmerged]
    rfl

/-- A picture that spells few enough characters does not overflow. -/
theorem Declares.overflows_eq_false (hlength : ∀ d ∈ picture?, d.1.spelled.length < 0x100000000) :
    overflows (Clauses.ofNode n) = false := by
  apply Declaration.overflows_eq_false
  intro p place hp
  rw [h.picture_ofNode] at hp
  obtain ⟨d, hd, heq⟩ := Option.map_eq_some_iff.mp hp
  cases heq
  rw [Picture.spelled_merge]
  exact hlength d hd

end read

/-! ### Entering -/

/-- The state once a field has been entered for a node. -/
def State.withField (s : State) (owner : ProgramId) (n : Node) (field : Field) : State :=
  { s with
    globals := (s.globals.addField owner field).2
    bindings := s.bindings.bindField n (s.globals.addField owner field).1 }

/-- The state in the working storage of a program that has nothing in it. -/
def State.inProgram (program : String) : State where
  globals := (Globals.initial.addProgram (.declare program ⟨0⟩ false .none)).2
  bindings := .empty
  chunk? := some ⟨0⟩
  program? := some ⟨0⟩
  home? := some .workingStorage

section enter

variable {file : String} {policy : FractionPolicy} {n : Node} {s : State} {owner : ProgramId}
  (hfield : n.payload = .field) (hsize : overflows (Clauses.ofNode n) = false)
  (howner : s.program? = some owner)

include hfield hsize howner

/-- The walk stops at a declaration with a mistake, and nothing has changed. -/
theorem enter_of_mistake {mistake : Mistake}
    (hread : readField policy (s.home?.getD .workingStorage) n = .error mistake) :
    (definer file policy).enter n s =
      .error (.fault mistake.problem file mistake.location none) s := by
  have hpure : (pure owner : DeclareM ProgramId) s = .ok owner s := rfl
  simp only [definer, hfield, defineField, bind_apply, get_apply, howner, require, hpure, hsize,
    Bool.false_eq_true, if_false, hread]
  rfl

/-- A field without mistake is entered, unless there is one of the name. -/
theorem enter_of_field {field : Field}
    (hread : readField policy (s.home?.getD .workingStorage) n = .ok field)
    (hfresh : (s.globals.program owner).field? field.name = none) :
    (definer file policy).enter n s = .ok () (s.withField owner n field) := by
  have hpure : (pure owner : DeclareM ProgramId) s = .ok owner s := rfl
  have hprevious : previousField? s.globals owner field.name = none := by
    rw [previousField?, hfresh, Option.map_none]
  simp only [definer, hfield, defineField, bind_apply, get_apply, howner, require, hpure, hsize,
    Bool.false_eq_true, if_false, hread, hprevious]
  rfl

end enter

end Declaration

end CobolCompiler
