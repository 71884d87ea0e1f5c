import CobolCompiler.Proofs.FieldEntry

/-!
# The picture of a COMP-4 field

A picture is checked run by run, after adjacent runs of one character have been joined. Here its
rules are stated about the row of characters that it spells (`WellSpelled`), so that it makes no
difference how the row is cut into runs. A picture that breaks a rule is refused for the first one
it breaks (`Misspelled`), and then nothing is declared.

The sign is looked for in the runs behind the first one only. So a row may begin with several signs:
that `S` has to come first means that no other character comes before it.
-/

namespace CobolCompiler

/-! ### Runs and the characters they spell -/

namespace Picture

/-- No run is empty. -/
def Positive (p : Picture) : Prop :=
  ∀ run ∈ p, 0 < run.size

instance (p : Picture) : Decidable p.Positive :=
  inferInstanceAs (Decidable (∀ run ∈ p, 0 < run.size))

variable {run : Segment}

theorem positive_cons {p : Picture} : Positive (run :: p) ↔ 0 < run.size ∧ Positive p :=
  List.forall_mem_cons

theorem positive_absorb {p : Picture} (hrun : 0 < run.size) (h : Positive p) :
    Positive (absorb run p) := by
  cases p with
  | nil => exact positive_cons.mpr ⟨hrun, h⟩
  | cons first rest =>
    obtain ⟨hfirst, hrest⟩ := positive_cons.mp h
    by_cases hsame : run.symbol = first.symbol
    · rw [absorb, if_pos hsame]
      exact positive_cons.mpr ⟨Nat.add_pos_left hrun _, hrest⟩
    · rw [absorb, if_neg hsame]
      exact positive_cons.mpr ⟨hrun, h⟩

theorem Positive.merge {p : Picture} (h : Positive p) : Positive p.merge := by
  induction p with
  | nil => exact h
  | cons run p ih =>
    obtain ⟨hrun, hp⟩ := positive_cons.mp h
    exact positive_absorb hrun (ih hp)

theorem count_spelled (c : Char) (p : Picture) : p.spelled.count c = p.count c := by
  induction p with
  | nil => rfl
  | cons run p ih =>
    rw [spelled_cons, List.count_append, ih, count_cons, Segment.spelled, List.count_replicate]
    simp

theorem Positive.mem_spelled {p : Picture} (h : Positive p) {c : Char} :
    c ∈ p.spelled ↔ ∃ run ∈ p, run.symbol = c := by
  induction p with
  | nil => simp
  | cons run p ih =>
    obtain ⟨hrun, hp⟩ := positive_cons.mp h
    have hspelled : c ∈ run.spelled ↔ run.symbol = c := by
      rw [Segment.spelled, List.mem_replicate]
      constructor
      · intro hc
        exact hc.2.symm
      · intro hc
        exact ⟨by omega, hc.symm⟩
    rw [spelled_cons, List.mem_append, ih hp, hspelled]
    simp

/-- Behind the characters of the first run nothing more of them is dropped, for the next run has
another character. -/
theorem Merged.dropWhile_spelled {p : Picture} (hmerged : Merged (run :: p)) (hp : Positive p) :
    p.spelled.dropWhile (· = run.symbol) = p.spelled := by
  cases p with
  | nil => rfl
  | cons next rest =>
    have hne : run.symbol ≠ next.symbol := (List.isChain_cons_cons.mp hmerged).1
    obtain ⟨hnext, -⟩ := positive_cons.mp hp
    obtain ⟨size, hsize⟩ := Nat.exists_eq_succ_of_ne_zero (Nat.ne_of_gt hnext)
    rw [spelled_cons, Segment.spelled, hsize, List.replicate_succ, List.cons_append]
    exact List.dropWhile_cons_of_neg (by simpa using hne.symm)

/-- A character stands in a run behind the first one exactly if it is spelled behind some other
character. -/
theorem any_drop_one_iff {p : Picture} (hmerged : Merged p) (hp : Positive p) (c : Char) :
    (p.drop 1).any (·.symbol = c) = true ↔ c ∈ p.spelled.dropWhile (· = c) := by
  cases p with
  | nil => simp
  | cons run rest =>
    obtain ⟨hrun, hrest⟩ := positive_cons.mp hp
    have hany : (rest.any (·.symbol = c)) = true ↔ c ∈ Picture.spelled rest := by
      rw [hrest.mem_spelled, List.any_eq_true]
      simp
    show (rest.any (·.symbol = c)) = true ↔ _
    rw [hany, spelled_cons, Segment.spelled]
    by_cases hsame : run.symbol = c
    · -- the first run is dropped as a whole, and nothing behind it is
      subst hsame
      rw [List.dropWhile_append_of_pos (by simp), hmerged.dropWhile_spelled hrest]
    · -- the first run stays, and has no place for the character
      obtain ⟨size, hsize⟩ := Nat.exists_eq_succ_of_ne_zero (Nat.ne_of_gt hrun)
      rw [hsize, List.replicate_succ, List.cons_append,
        List.dropWhile_cons_of_neg (by simpa using hsame),
        ← List.cons_append, ← List.replicate_succ, List.mem_append, List.mem_replicate]
      constructor
      · exact .inr
      · intro hmem
        exact hmem.resolve_left fun hfirst => hsame hfirst.2.symm

end Picture

namespace Declaration

/-! ### The rules -/

/-- The rules for the row of characters of a COMP-4 picture. -/
structure WellSpelled (row : List Char) : Prop where
  /-- No sign stands behind another character. -/
  sign : 'S' ∉ row.dropWhile (· = 'S')
  point : row.count 'V' ≤ 1
  letter : row.count 'X' + row.count 'A' ≤ 1
  digits : row.count '9' ≤ 18

instance (row : List Char) : Decidable (WellSpelled row) :=
  decidable_of_iff ('S' ∉ row.dropWhile (· = 'S') ∧ row.count 'V' ≤ 1 ∧
    row.count 'X' + row.count 'A' ≤ 1 ∧ row.count '9' ≤ 18)
    ⟨fun h => ⟨h.1, h.2.1, h.2.2.1, h.2.2.2⟩, fun h => ⟨h.sign, h.point, h.letter, h.digits⟩⟩

/-- The problem of a row that breaks a rule: the first rule that it breaks. -/
inductive Misspelled (name : String) (row : List Char) : Problem → Prop
  | sign (hsign : 'S' ∈ row.dropWhile (· = 'S')) : Misspelled name row (.badSignPicture name)
  | point (hsign : 'S' ∉ row.dropWhile (· = 'S')) (hpoint : 1 < row.count 'V') :
      Misspelled name row (.manyVirtualDecimalPoint name)
  | letter (hsign : 'S' ∉ row.dropWhile (· = 'S')) (hpoint : row.count 'V' ≤ 1)
      (hletter : 1 < row.count 'X' + row.count 'A') :
      Misspelled name row (.incompatibleComp4Picture name)
  | digits (hsign : 'S' ∉ row.dropWhile (· = 'S')) (hpoint : row.count 'V' ≤ 1)
      (hletter : row.count 'X' + row.count 'A' ≤ 1) (hdigits : 18 < row.count '9') :
      Misspelled name row (.exceedComp4Precision name (row.count '9'))

theorem wellSpelled_or_misspelled (name : String) (row : List Char) :
    WellSpelled row ∨ ∃ problem, Misspelled name row problem := by
  by_cases hsign : 'S' ∈ row.dropWhile (· = 'S')
  · exact .inr ⟨_, .sign hsign⟩
  by_cases hpoint : 1 < row.count 'V'
  · exact .inr ⟨_, .point hsign hpoint⟩
  by_cases hletter : 1 < row.count 'X' + row.count 'A'
  · exact .inr ⟨_, .letter hsign (by omega) hletter⟩
  by_cases hdigits : 18 < row.count '9'
  · exact .inr ⟨_, .digits hsign (by omega) (by omega) hdigits⟩
  · exact .inl ⟨hsign, by omega, by omega, by omega⟩

section check

variable {name : String} {p : Picture} (hp : p.Positive)

include hp

/-- The checks on the joined runs are the rules for the row of characters. -/
theorem checkPicture_merge : checkPicture name p.merge =
    if 'S' ∈ p.spelled.dropWhile (· = 'S') then .error (.badSignPicture name)
    else if p.spelled.count 'V' > 1 then .error (.manyVirtualDecimalPoint name) else
    if p.spelled.count 'X' + p.spelled.count 'A' > 1 then .error (.incompatibleComp4Picture name)
    else if p.spelled.count '9' > 18 then .error (.exceedComp4Precision name (p.spelled.count '9'))
    else .ok () := by
  have hcount : ∀ c, p.merge.count c = p.spelled.count c := by
    intro c
    rw [← Picture.count_spelled, Picture.spelled_merge]
  have hsign := Picture.any_drop_one_iff p.merged_merge hp.merge 'S'
  rw [Picture.spelled_merge] at hsign
  simp only [checkPicture, hsign, hcount]
  rfl

theorem WellSpelled.checkPicture_eq (h : WellSpelled p.spelled) :
    checkPicture name p.merge = .ok () := by
  rw [checkPicture_merge hp, if_neg h.sign, if_neg (Nat.not_lt.mpr h.point),
    if_neg (Nat.not_lt.mpr h.letter), if_neg (Nat.not_lt.mpr h.digits)]

theorem Misspelled.checkPicture_eq {problem : Problem} (h : Misspelled name p.spelled problem) :
    checkPicture name p.merge = .error problem := by
  rw [checkPicture_merge hp]
  cases h with
  | sign hsign => rw [if_pos hsign]
  | point hsign hpoint => rw [if_neg hsign, if_pos hpoint]
  | letter hsign hpoint hletter => rw [if_neg hsign, if_neg (Nat.not_lt.mpr hpoint), if_pos hletter]
  | digits hsign hpoint hletter hdigits =>
    rw [if_neg hsign, if_neg (Nat.not_lt.mpr hpoint), if_neg (Nat.not_lt.mpr hletter),
      if_pos hdigits]

end check

/-! ### Fields with a picture -/

section clauses

variable {policy : FractionPolicy} {home : Section} {c : Clauses} {q : Picture} {place : Location}
  (husage : c.usage = .comp4) (hpicture : c.picture? = some (q, place))
  (hdefault : c.default? = none)

include husage hpicture hdefault

/-- Without a default the picture is all that is checked, and it gives the field its shape. -/
theorem checkUsage_of_picture :
    checkUsage policy home c = ((checkPicture c.name q).mapError (⟨·, place⟩)).map fun _ =>
      some { q.layout with value? := none } := by
  have hnone : comp4Default c = .ok none := by rw [comp4Default, hdefault]
  simp only [checkUsage, husage, checkComp4, hpicture, hnone, bind, Except.bind]
  cases checkPicture c.name q with
  | error problem => rfl
  | ok _ => rfl

end clauses

section field

variable {policy : FractionPolicy} {home : Section} {n : Node} {p : Picture} {place : Location}
  (hn : Declares n .comp4 (some (p, place)) none) (hp : p.Positive)

include hn hp

theorem WellSpelled.exists_readField (h : WellSpelled p.spelled) :
    ∃ field, readField policy home n = .ok field ∧
      field.name = n.name ∧ field.usage = .comp4 ∧ field.picture? = some p.merge := by
  rw [hn.readField_eq, checkUsage_of_picture hn.usage_ofNode hn.picture_ofNode hn.default_ofNode,
    h.checkPicture_eq hp]
  exact ⟨_, rfl, rfl, rfl, rfl⟩

theorem Misspelled.readField_eq {problem : Problem} (h : Misspelled n.name p.spelled problem) :
    readField policy home n = .error ⟨problem, place⟩ := by
  rw [hn.readField_eq, checkUsage_of_picture hn.usage_ofNode hn.picture_ofNode hn.default_ofNode,
    show (Clauses.ofNode n).name = n.name from rfl, h.checkPicture_eq hp]
  rfl

end field

/-- When the picture of a COMP-4 field is accepted. The field has a valid level, no default and a
name that is new to the program; its picture may be cut into runs in any way, none of them empty,
whose sizes add up to less than 2^32. The field is entered exactly if the characters of the picture
follow the rules. If they do not, the walk stops at the picture with the first rule that is broken,
and the scope is what it was. -/
theorem comp4_picture_accepted_iff {file : String} {policy : FractionPolicy} {n : Node}
    {p : Picture} {place : Location}
    {s : State} {owner : ProgramId} (hn : Declares n .comp4 (some (p, place)) none)
    (hp : p.Positive) (hlength : p.spelled.length < 0x100000000) (howner : s.program? = some owner)
    (hfresh : (s.globals.program owner).field? n.name = none) :
    ((∃ t, (definer file policy).enter n s = .ok () t) ↔ WellSpelled p.spelled) ∧
    (WellSpelled p.spelled →
      ∃ field, (definer file policy).enter n s = .ok () (s.withField owner n field) ∧
      field.name = n.name ∧ field.usage = .comp4 ∧ field.picture? = some p.merge) ∧
    (¬WellSpelled p.spelled → ∃ problem, Misspelled n.name p.spelled problem ∧
      (definer file policy).enter n s = .error (.fault problem file place none) s) := by
  have hsize : overflows (Clauses.ofNode n) = false :=
    hn.overflows_eq_false (by simpa using hlength)
  have haccepted : WellSpelled p.spelled → ∃ field,
      (definer file policy).enter n s = .ok () (s.withField owner n field) ∧
        field.name = n.name ∧ field.usage = .comp4 ∧ field.picture? = some p.merge := by
    intro h
    obtain ⟨field, hread, hname, hfield⟩ := h.exists_readField hn hp
    exact ⟨field, enter_of_field hn.payload hsize howner hread (hname ▸ hfresh), hname, hfield⟩
  have hrefused : ¬WellSpelled p.spelled → ∃ problem, Misspelled n.name p.spelled problem ∧
      (definer file policy).enter n s = .error (.fault problem file place none) s := by
    intro h
    obtain ⟨problem, hproblem⟩ := (wellSpelled_or_misspelled n.name p.spelled).resolve_left h
    exact ⟨problem, hproblem,
      enter_of_mistake hn.payload hsize howner (hproblem.readField_eq hn hp)⟩
  refine ⟨⟨?_, ?_⟩, haccepted, hrefused⟩
  · intro hentered
    obtain ⟨t, ht⟩ := hentered
    by_contra h
    obtain ⟨problem, -, hstop⟩ := hrefused h
    rw [hstop] at ht
    cases ht
  · intro h
    obtain ⟨field, hentered, -⟩ := haccepted h
    exact ⟨_, hentered⟩

/-- A COMP-4 field with a picture and no default. -/
def totalField (p : Picture) : Node :=
  Build.field 5 "TOTAL" [Build.leaf (.usage .comp4), Build.leaf (.picture p)]

theorem totalField_declares (p : Picture) :
    Declares (totalField p) .comp4 (some (p, .none)) none where
  payload := rfl
  level := level_field (by decide) _ _
  usage := rfl
  picture := rfl
  default := rfl

/-- Eighteen digits fit, in two runs on either side of the point, and nineteen do not, in two runs
that stand together. -/
theorem totalField_digits :
    (∃ t, (definer "SALES.cbl" .reject).enter (totalField [⟨'S', 1⟩, ⟨'9', 10⟩, ⟨'V', 1⟩, ⟨'9', 8⟩])
      (.inProgram "SUM") = .ok () t) ∧
    (definer "SALES.cbl" .reject).enter (totalField [⟨'9', 10⟩, ⟨'9', 9⟩]) (.inProgram "SUM") =
      .error (.fault (.exceedComp4Precision "TOTAL" 19) "SALES.cbl" .none none)
        (.inProgram "SUM") := by
  have hfresh : ((State.inProgram "SUM").globals.program ⟨0⟩).field? "TOTAL" = none := by
    decide +kernel
  have hlong : ∃ problem, Misspelled "TOTAL" (Picture.spelled [⟨'9', 10⟩, ⟨'9', 9⟩]) problem ∧
      (definer "SALES.cbl" .reject).enter (totalField [⟨'9', 10⟩, ⟨'9', 9⟩]) (.inProgram "SUM") =
        .error (.fault problem "SALES.cbl" .none none) (.inProgram "SUM") :=
    (comp4_picture_accepted_iff (totalField_declares _) (by decide) (by decide) rfl hfresh).2.2
      (by decide)
  refine ⟨(comp4_picture_accepted_iff (totalField_declares _) (by decide) (by decide) rfl
    hfresh).1.mpr (by decide), ?_⟩
  obtain ⟨problem, hproblem, hstop⟩ := hlong
  cases hproblem with
  | sign hsign => exact absurd hsign (by decide)
  | point _ hpoint => exact absurd hpoint (by decide)
  | letter _ _ hletter => exact absurd hletter (by decide)
  | digits _ _ _ _ => exact hstop

/-- A second sign is not the first character, but it is accepted behind the first one. -/
theorem totalField_second_sign :
    'S' ∈ (Picture.spelled [⟨'S', 2⟩, ⟨'9', 1⟩]).drop 1 ∧
    ∃ t, (definer "SALES.cbl" .reject).enter (totalField [⟨'S', 2⟩, ⟨'9', 1⟩]) (.inProgram "SUM") =
      .ok () t := by
  have hspelled : WellSpelled (Picture.spelled [⟨'S', 2⟩, ⟨'9', 1⟩]) := by decide
  obtain ⟨field, hread, hname, -⟩ := hspelled.exists_readField (totalField_declares _) (by decide)
  have hfresh : ((State.inProgram "SUM").globals.program ⟨0⟩).field? field.name = none := by
    rw [hname]
    decide +kernel
  exact ⟨by decide, _, enter_of_field rfl (by decide) rfl hread hfresh⟩

end Declaration

end CobolCompiler
