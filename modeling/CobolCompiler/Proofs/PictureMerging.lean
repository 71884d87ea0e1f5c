import CobolCompiler.Proofs.PictureRules
import CobolCompiler.Proofs.PictureText

/-!
# Merged pictures

Merging joins adjacent runs of one character. It gives a normal form of pictures
(`merging_is_normal_form`): a merged picture spells the row that was spelled before, no more can be
merged in it, and among the pictures without empty runs it depends on the row alone. The layout that
a picture declares is read off run by run, and is the same for the runs and for the merged ones,
although an empty run is not part of the row: a picture that begins with an empty run of the sign is
signed, merged or not.

Sizes are unbounded here. The sizes of a picture add up to the length of the row, which merging
keeps, so that no size grows beyond the sum of those it was made of.
-/

namespace CobolCompiler.Picture

/-! ### One picture for each row -/

/-- The picture that spells a row character by character. -/
def ofRow (row : List Char) : Picture :=
  row.map fun c => ⟨c, 1⟩

/-- Two runs of one character can as well be absorbed as one. -/
theorem absorb_absorb (c : Char) (m n : Nat) (p : Picture) :
    absorb ⟨c, m⟩ (absorb ⟨c, n⟩ p) = absorb ⟨c, m + n⟩ p := by
  cases p with
  | nil => simp [absorb]
  | cons first rest =>
    by_cases hsame : c = first.symbol
    · simp [absorb, hsame, Nat.add_assoc]
    · simp [absorb, hsame]

/-- A run that is not empty is absorbed character by character. -/
theorem merge_ofRow_replicate (c : Char) (n : Nat) (row : List Char) :
    merge (ofRow (List.replicate (n + 1) c ++ row)) = absorb ⟨c, n + 1⟩ (merge (ofRow row)) := by
  induction n with
  | zero => rfl
  | succ n ih =>
    calc merge (ofRow (List.replicate (n + 2) c ++ row))
        = absorb ⟨c, 1⟩ (merge (ofRow (List.replicate (n + 1) c ++ row))) := rfl
      _ = absorb ⟨c, 1⟩ (absorb ⟨c, n + 1⟩ (merge (ofRow row))) := by rw [ih]
      _ = absorb ⟨c, n + 2⟩ (merge (ofRow row)) := by rw [absorb_absorb, Nat.add_comm 1]

variable {p : Picture}

/-- Without empty runs, what a picture is merged to can be told from the row it spells. -/
theorem merge_eq_merge_ofRow (h : p.Positive) : p.merge = merge (ofRow p.spelled) := by
  induction p with
  | nil => rfl
  | cons run p ih =>
    obtain ⟨hrun, hp⟩ := positive_cons.mp h
    obtain ⟨n, hn⟩ : ∃ n, run.size = n + 1 := ⟨run.size - 1, by omega⟩
    have hspelled : run.spelled = List.replicate (n + 1) run.symbol := by rw [Segment.spelled, hn]
    rw [merge_cons, spelled_cons, hspelled, merge_ofRow_replicate, ← ih hp, ← hn]

theorem merge_eq_merge_iff {q : Picture} (hp : p.Positive) (hq : q.Positive) :
    p.merge = q.merge ↔ p.spelled = q.spelled := by
  constructor
  · intro hmerge
    rw [← spelled_merge p, hmerge, spelled_merge]
  · intro hspelled
    rw [merge_eq_merge_ofRow hp, hspelled, merge_eq_merge_ofRow hq]

/-! ### Layouts -/

theorem digitPlaces_absorb (after : Bool) (run : Segment) (p : Picture) :
    digitPlaces after (absorb run p) = digitPlaces after (run :: p) := by
  cases p with
  | nil => rfl
  | cons first rest =>
    by_cases hsame : run.symbol = first.symbol
    · rw [absorb, if_pos hsame]
      -- A joined point is passed once and for all, and joined digits are on the same side of it.
      by_cases hpoint : first.symbol = 'V'
      · simp [digitPlaces, hsame, hpoint]
      · by_cases hnine : first.symbol = '9'
        · cases after <;> simp [digitPlaces, hsame, hnine, Nat.add_assoc]
        · simp [digitPlaces, hsame, hpoint, hnine]
    · rw [absorb, if_neg hsame]

theorem digitPlaces_merge (after : Bool) (p : Picture) :
    digitPlaces after p.merge = digitPlaces after p := by
  induction p generalizing after with
  | nil => rfl
  | cons run p ih => rw [merge_cons, digitPlaces_absorb, digitPlaces, ih, digitPlaces]

theorem isSigned_absorb (run : Segment) (p : Picture) :
    (absorb run p).isSigned = isSigned (run :: p) := by
  cases p with
  | nil => rfl
  | cons first rest =>
    -- A joined run has the character of the one that is put in front.
    by_cases hsame : run.symbol = first.symbol
    · rw [absorb, if_pos hsame]
      rfl
    · rw [absorb, if_neg hsame]

theorem isSigned_merge (p : Picture) : p.merge.isSigned = p.isSigned := by
  cases p with
  | nil => rfl
  | cons run p => exact isSigned_absorb run (merge p)

theorem layout_merge (p : Picture) : p.merge.layout = p.layout := by
  rw [layout, layout, digitPlaces_merge, isSigned_merge]

/-- A COMP-4 field depends on the layout of its picture only. -/
theorem decode_eq_of_layout_eq {q : Picture} (h : p.layout = q.layout) (literal? : Option String)
    (policy : FractionPolicy) :
    Comp4.decode (some p) literal? policy = Comp4.decode (some q) literal? policy := by
  simp only [Comp4.decode, Comp4.ofPicture, h]

/-! ### The normal form -/

/-- Merging gives a normal form of pictures and loses nothing of what they mean, as rows of
characters and as layouts of fields. -/
theorem merging_is_normal_form (p : Picture) :
    p.merge.Merged ∧ p.merge.spelled = p.spelled ∧ p.merge.merge = p.merge ∧
    (∀ q : Picture, p.Positive → q.Positive → (p.merge = q.merge ↔ p.spelled = q.spelled)) ∧
    ∀ (literal? : Option String) (policy : FractionPolicy),
      Comp4.decode (some p.merge) literal? policy = Comp4.decode (some p) literal? policy := by
  refine ⟨p.merged_merge, p.spelled_merge, p.merged_merge.merge_eq, ?_, ?_⟩
  · intro q hp hq
    exact merge_eq_merge_iff hp hq
  · exact decode_eq_of_layout_eq p.layout_merge

/-- Two ways to write a row of six characters, in runs that are cut differently. -/
theorem differently_cut_runs_merge_alike :
    Positive [⟨'S', 1⟩, ⟨'9', 1⟩, ⟨'9', 2⟩, ⟨'V', 1⟩, ⟨'9', 1⟩] ∧
      Positive [⟨'S', 1⟩, ⟨'9', 3⟩, ⟨'V', 1⟩, ⟨'9', 1⟩] ∧
      merge [⟨'S', 1⟩, ⟨'9', 1⟩, ⟨'9', 2⟩, ⟨'V', 1⟩, ⟨'9', 1⟩] =
        merge [⟨'S', 1⟩, ⟨'9', 3⟩, ⟨'V', 1⟩, ⟨'9', 1⟩] := by
  have hfirst : Positive [⟨'S', 1⟩, ⟨'9', 1⟩, ⟨'9', 2⟩, ⟨'V', 1⟩, ⟨'9', 1⟩] := by decide
  have hsecond : Positive [⟨'S', 1⟩, ⟨'9', 3⟩, ⟨'V', 1⟩, ⟨'9', 1⟩] := by decide
  exact ⟨hfirst, hsecond, ((merging_is_normal_form _).2.2.2.1 _ hfirst hsecond).mpr rfl⟩

end CobolCompiler.Picture
