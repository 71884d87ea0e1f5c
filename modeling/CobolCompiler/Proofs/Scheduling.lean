import CobolCompiler.Proofs.Search
import Mathlib.Data.List.Duplicate

/-!
# Schedules

What the wishes of passes come to is stated on their names: `Precedes passes a b` holds if a pass
named `a` has to run before one named `b`. Passes can be ordered if no name is given twice, all
wishes are for passes that are there, and no name has to precede itself (`Schedulable`).
`schedule_isOk_iff` says that `schedule` succeeds on those and no others; the results about single
errors say which of the three conditions an error stands for.

The search works on indices. `waitsFor_iff` translates: with distinct names, an index waits for
another exactly if the name of the one has to follow the name of the other.
-/

namespace CobolCompiler

namespace Schedule

variable {error : ScheduleError} {passes : List Wishes}

/-! ### Wishes -/

/-- A pass wishes that a name precedes another, one of the two being its own. -/
def Asks (w : Wishes) (earlier later : String) : Prop :=
  w.name = later ∧ earlier ∈ w.after ∨ w.name = earlier ∧ later ∈ w.before

/-- A name has to precede another: some pass wishes so. -/
def Precedes (passes : List Wishes) (earlier later : String) : Prop :=
  ∃ w ∈ passes, Asks w earlier later

/-- All wishes are for passes that are there. -/
def Resolved (passes : List Wishes) : Prop :=
  ∀ w ∈ passes, ∀ name ∈ w.after ++ w.before, name ∈ passes.map (·.name)

instance (passes : List Wishes) : Decidable (Resolved passes) :=
  inferInstanceAs
    (Decidable (∀ w ∈ passes, ∀ name ∈ w.after ++ w.before, name ∈ passes.map (·.name)))

/-- Both sides of a wish are names of passes, the one by itself and the other because wishes are
resolved. -/
theorem Resolved.mem_names (hresolved : Resolved passes) {earlier later : String}
    (h : Precedes passes earlier later) :
    earlier ∈ passes.map (·.name) ∧ later ∈ passes.map (·.name) := by
  obtain ⟨w, hw, hask⟩ := h
  have hown : w.name ∈ passes.map (·.name) := List.mem_map_of_mem hw
  have hothers := hresolved w hw
  rcases hask with ⟨rfl, hafter⟩ | ⟨rfl, hbefore⟩
  · exact ⟨hothers earlier (by simp [hafter]), hown⟩
  · exact ⟨hown, hothers later (by simp [hbefore])⟩

/-- An error that names a wish for a pass that is not there. -/
inductive Unmet (names : List String) (w : Wishes) : ScheduleError → Prop
  | after {name : String} (hwish : name ∈ w.after) (hmissing : name ∉ names) :
      Unmet names w (.unresolved w.name name)
  | before {name : String} (hwish : name ∈ w.before) (hmissing : name ∉ names) :
      Unmet names w (.unresolvedReversed w.name name)

theorem Unmet.not_resolved {w : Wishes} (h : Unmet (passes.map (·.name)) w error)
    (hw : w ∈ passes) :
    ¬ Resolved passes := by
  intro hresolved
  cases h with
  | after hwish hmissing => exact hmissing (hresolved w hw _ (by simp [hwish]))
  | before hwish hmissing => exact hmissing (hresolved w hw _ (by simp [hwish]))

/-- Passes that can be ordered. -/
structure Schedulable (passes : List Wishes) : Prop where
  nodup : (passes.map (·.name)).Nodup
  resolved : Resolved passes
  acyclic : ∀ name, ¬ Relation.TransGen (Precedes passes) name name

section permutations

variable {passes passes' : List Wishes} (h : passes.Perm passes')

include h

theorem precedes_of_perm : Precedes passes = Precedes passes' := by
  funext earlier later
  simp only [Precedes, h.mem_iff]

theorem Schedulable.of_perm (hs : Schedulable passes) : Schedulable passes' := by
  have hnames : (passes.map (·.name)).Perm (passes'.map (·.name)) := h.map _
  constructor
  · exact hnames.nodup_iff.1 hs.nodup
  · intro w hw name hname
    exact hnames.mem_iff.1 (hs.resolved w (h.mem_iff.2 hw) name hname)
  · rw [← precedes_of_perm h]
    exact hs.acyclic

end permutations

/-! ### Names given twice -/

/-- A name that is reported is given twice; if none is, all names are distinct. -/
theorem duplicate?_spec (seen names : List String) :
    match duplicate? seen names with
    | some name => name ∈ seen ∧ name ∈ names ∨ names.Duplicate name
    | none => names.Nodup ∧ ∀ name ∈ names, name ∉ seen := by
  -- A name moves from the list to those seen, so that they have to be general.
  induction names generalizing seen with
  | nil => simp [duplicate?]
  | cons first rest ih =>
    rw [duplicate?]
    by_cases hseen : first ∈ seen
    · simp [hseen]
    · have hrest := ih (first :: seen)
      rw [if_neg hseen]
      cases hfound : duplicate? (first :: seen) rest with
      | none =>
        rw [hfound] at hrest
        obtain ⟨hnodup, hfree⟩ := hrest
        have hfirst : first ∉ rest := fun hmem => hfree first hmem (by simp)
        have hold : ∀ name ∈ rest, name ∉ seen :=
          fun name hname hmem => hfree name hname (by simp [hmem])
        exact ⟨hnodup.cons hfirst, by simpa using ⟨hseen, hold⟩⟩
      | some name =>
        rw [hfound] at hrest
        rcases hrest with ⟨hmem, hname⟩ | hrest
        · rcases List.mem_cons.1 hmem with heq | hmem
          · subst heq
            exact .inr (List.Mem.duplicate_cons_self hname)
          · exact .inl ⟨hmem, by simp [hname]⟩
        · exact .inr (hrest.duplicate_cons _)

/-! ### Waits -/

theorem mapM_spec {α β ε : Type} (f : α → Except ε β) (items : List α) :
    match items.mapM f with
    | .ok results => (∀ a ∈ items, ∃ b, f a = .ok b) ∧ ∀ b, b ∈ results ↔ ∃ a ∈ items, f a = .ok b
    | .error error => ∃ a ∈ items, f a = .error error := by
  induction items with
  | nil => simp [pure, Except.pure]
  | cons first rest ih =>
    rw [List.mapM_cons]
    cases hfirst : f first with
    | error error => exact ⟨first, by simp, hfirst⟩
    | ok result =>
      cases hrest : rest.mapM f with
      | ok results =>
        rw [hrest] at ih
        show (∀ a ∈ first :: rest, ∃ b, f a = .ok b) ∧ ∀ b, b ∈ result :: results ↔
          ∃ a ∈ first :: rest, f a = .ok b
        constructor
        · simpa using ⟨⟨result, hfirst⟩, ih.1⟩
        · intro b
          simp [ih.2, hfirst, eq_comm]
      | error error =>
        rw [hrest] at ih
        obtain ⟨a, ha, herror⟩ := ih
        exact ⟨a, by simp [ha], herror⟩

/-- The wait that a wish leads to, or the error that the wish is for no pass. -/
def resolve (names : List String) (wait : Nat → Wait) (missing : String → ScheduleError)
    (name : String) : Except ScheduleError Wait :=
  match names.idxOf? name with
  | some i => .ok (wait i)
  | none => .error (missing name)

theorem waitsOf_eq (names : List String) (index : Nat) (w : Wishes) :
    waitsOf names index w = do
      let own ← w.after.mapM (resolve names (⟨index, ·⟩) (.unresolved w.name))
      let others ← w.before.mapM (resolve names (⟨·, index⟩) (.unresolvedReversed w.name))
      return own ++ others := rfl

theorem mapM_resolve_spec (names : List String) (wait : Nat → Wait)
    (missing : String → ScheduleError)
    (wishes : List String) : match wishes.mapM (resolve names wait missing) with
    | .ok waits => (∀ name ∈ wishes, name ∈ names) ∧
        ∀ w, w ∈ waits ↔ ∃ name ∈ wishes, ∃ i, names.idxOf? name = some i ∧ w = wait i
    | .error error => ∃ name ∈ wishes, name ∉ names ∧ error = missing name := by
  have hok : ∀ name w, resolve names wait missing name = .ok w ↔ ∃ i, names.idxOf? name = some i ∧
      w = wait i := by
    intro name w
    cases hi : names.idxOf? name with
    | none => simp [resolve, hi]
    | some i => simp [resolve, hi, eq_comm]
  have hspec := mapM_spec (resolve names wait missing) wishes
  cases hwaits : wishes.mapM (resolve names wait missing) with
  | ok waits =>
    rw [hwaits] at hspec
    constructor
    · intro name hname
      by_contra hmissing
      obtain ⟨w, hw⟩ := hspec.1 name hname
      obtain ⟨i, hi, -⟩ := (hok name w).1 hw
      simp [List.idxOf?_eq_none_iff.2 hmissing] at hi
    · simpa only [hok] using hspec.2
  | error error =>
    rw [hwaits] at hspec
    obtain ⟨name, hname, herror⟩ := hspec
    cases hi : names.idxOf? name with
    | some i => simp [resolve, hi] at herror
    | none =>
      exact ⟨name, hname, List.idxOf?_eq_none_iff.1 hi, by simpa [resolve, hi] using herror.symm⟩

/-- What one pass waits for and is waited for by, or a wish of it that is for no pass. -/
theorem waitsOf_spec (names : List String) (index : Nat) (w : Wishes) :
    match waitsOf names index w with
    | .ok ws => (∀ name ∈ w.after ++ w.before, name ∈ names) ∧
        ∀ waiting earlier, (⟨waiting, earlier⟩ : Wait) ∈ ws ↔
          waiting = index ∧ (∃ name ∈ w.after, names.idxOf? name = some earlier) ∨
          earlier = index ∧ ∃ name ∈ w.before, names.idxOf? name = some waiting
    | .error error => Unmet names w error := by
  rw [waitsOf_eq]
  have hafter := mapM_resolve_spec names (⟨index, ·⟩) (.unresolved w.name) w.after
  have hbefore := mapM_resolve_spec names (⟨·, index⟩) (.unresolvedReversed w.name) w.before
  -- wishes to come after are looked at first, so an error is about them if both are wrong
  cases hown : w.after.mapM (resolve names (⟨index, ·⟩) (.unresolved w.name)) with
  | error error =>
    rw [hown] at hafter
    obtain ⟨name, hname, hmissing, rfl⟩ := hafter
    exact .after hname hmissing
  | ok own =>
    rw [hown] at hafter
    cases hothers : w.before.mapM (resolve names (⟨·, index⟩) (.unresolvedReversed w.name)) with
    | error error =>
      rw [hothers] at hbefore
      obtain ⟨name, hname, hmissing, rfl⟩ := hbefore
      exact .before hname hmissing
    | ok others =>
      rw [hothers] at hbefore
      constructor
      · intro name hname
        exact (List.mem_append.1 hname).elim (hafter.1 name) (hbefore.1 name)
      · intro waiting earlier
        rw [List.mem_append, hafter.2, hbefore.2]
        simp only [Wait.mk.injEq]
        grind

/-- With distinct names, a name is found at the place where it stands and at no other. -/
theorem idxOf?_eq_some_iff {names : List String} (hnodup : names.Nodup) {name : String} {i : Nat} :
    names.idxOf? name = some i ↔ names[i]? = some name := by
  rw [List.idxOf?_eq_some_iff, List.getElem?_eq_some_iff]
  constructor
  · intro ⟨hi, hname, _⟩
    exact ⟨hi, hname⟩
  · intro ⟨hi, hname⟩
    refine ⟨hi, hname, ?_⟩
    intro j hj hsame
    have heq := (hnodup.getElem_inj_iff).1 (hsame.trans hname.symm)
    omega

section translation

variable {passes : List Wishes} (hnodup : (passes.map (·.name)).Nodup)

include hnodup

theorem mem_waitsOf_iff {w : Wishes} {i : Nat} {ws : List Wait} (hi : passes[i]? = some w)
    (hws : waitsOf (passes.map (·.name)) i w = .ok ws) (waiting earlier : Nat) :
    (⟨waiting, earlier⟩ : Wait) ∈ ws ↔
      ∃ before after, (passes.map (·.name))[earlier]? = some before ∧
        (passes.map (·.name))[waiting]? = some after ∧ Asks w before after := by
  have hspec := waitsOf_spec (passes.map (·.name)) i w
  rw [hws] at hspec
  have hplace : (passes.map (·.name))[i]? = some w.name := by simp [hi]
  -- The own name of the pass stands at its index only.
  have hown : ∀ j, (passes.map (·.name))[j]? = some w.name ↔ j = i := by
    intro j
    rw [← idxOf?_eq_some_iff hnodup, (idxOf?_eq_some_iff hnodup).2 hplace,
      Option.some.injEq, eq_comm]
  rw [hspec.2]
  simp only [idxOf?_eq_some_iff hnodup]
  constructor
  · intro hwait
    rcases hwait with ⟨rfl, name, hname, hearlier⟩ | ⟨rfl, name, hname, hwaiting⟩
    · exact ⟨name, w.name, hearlier, hplace, .inl ⟨rfl, hname⟩⟩
    · exact ⟨w.name, name, hplace, hwaiting, .inr ⟨rfl, hname⟩⟩
  · intro ⟨before, after, hbefore, hafter, hask⟩
    rcases hask with ⟨rfl, hname⟩ | ⟨rfl, hname⟩
    · exact .inl ⟨(hown waiting).1 hafter, before, hname, hbefore⟩
    · exact .inr ⟨(hown earlier).1 hbefore, after, hname, hafter⟩

/-- All waits, or a wish of some pass that is for no pass. An index waits for another exactly if the
name of the one has to follow the name of the other. -/
theorem waits_spec :
    match waits passes with
    | .ok ws =>
      Resolved passes ∧ ∀ index earlier, WaitsFor ws index earlier ↔ ∃ before after,
        (passes.map (·.name))[earlier]? = some before ∧ (passes.map (·.name))[index]? = some after ∧
        Precedes passes before after
    | .error error => ∃ w ∈ passes, Unmet (passes.map (·.name)) w error := by
  have hwaits : waits passes = passes.zipIdx.mapM
      (fun p => waitsOf (passes.map (·.name)) p.2 p.1) >>= fun all => pure all.flatten := rfl
  have hspec := mapM_spec (fun p => waitsOf (passes.map (·.name)) p.2 p.1) passes.zipIdx
  rw [hwaits]
  cases hall : passes.zipIdx.mapM (fun p => waitsOf (passes.map (·.name)) p.2 p.1) with
  | error error =>
    rw [hall] at hspec
    obtain ⟨p, hp, herror⟩ := hspec
    have hunmet := waitsOf_spec (passes.map (·.name)) p.2 p.1
    rw [herror] at hunmet
    exact ⟨p.1, List.mem_of_getElem? (List.mem_zipIdx_iff_getElem?.1 hp), hunmet⟩
  | ok all =>
    rw [hall] at hspec
    obtain ⟨hevery, hmem⟩ := hspec
    -- Each pass has an index at which it was asked, and it gave an answer.
    have hone : ∀ w ∈ passes, ∃ i ws, passes[i]? = some w ∧
        waitsOf (passes.map (·.name)) i w = .ok ws := by
      intro w hw
      obtain ⟨i, hi⟩ := List.mem_iff_getElem?.1 hw
      obtain ⟨ws, hws⟩ := hevery (w, i) (List.mem_zipIdx_iff_getElem?.2 hi)
      exact ⟨i, ws, hi, hws⟩
    constructor
    · intro w hw
      obtain ⟨i, ws, _, hws⟩ := hone w hw
      have hresolved := waitsOf_spec (passes.map (·.name)) i w
      rw [hws] at hresolved
      exact hresolved.1
    · intro index earlier
      rw [WaitsFor, mem_predecessors, List.mem_flatten]
      constructor
      · intro ⟨ws, hws, hwait⟩
        obtain ⟨⟨w, i⟩, hp, hof⟩ := (hmem ws).1 hws
        have hi := List.mem_zipIdx_iff_getElem?.1 hp
        obtain ⟨before, after, hbefore, hafter, hask⟩ :=
          (mem_waitsOf_iff hnodup hi hof index earlier).1 hwait
        exact ⟨before, after, hbefore, hafter, w, List.mem_of_getElem? hi, hask⟩
      · intro ⟨before, after, hbefore, hafter, w, hw, hask⟩
        obtain ⟨i, ws, hi, hws⟩ := hone w hw
        have hwait :=
          (mem_waitsOf_iff hnodup hi hws index earlier).2 ⟨before, after, hbefore, hafter, hask⟩
        exact ⟨ws, (hmem ws).2 ⟨(w, i), List.mem_zipIdx_iff_getElem?.2 hi, hws⟩, hwait⟩

end translation

/-! ### The answers of a schedule -/

/-- The error that a circle of indices is reported as. -/
def cycleOf (passes : List Wishes) (circle : List Nat) : ScheduleError :=
  .cycle (circle.map fun i => (passes.map (·.name)).getD i "")

/-- What `schedule` does: it refuses a name given twice, then a wish for no pass, and then it
searches. -/
theorem schedule_cases (passes : List Wishes) :
    (∃ name, (passes.map (·.name)).Duplicate name ∧ schedule passes = .error (.duplicate name)) ∨
    (passes.map (·.name)).Nodup ∧
      ((∃ error, (∃ w ∈ passes, Unmet (passes.map (·.name)) w error) ∧
        schedule passes = .error error) ∨
       Resolved passes ∧ ∃ ws result, waits passes = .ok ws ∧
         Search ws [] [] (List.range passes.length) result ∧
           schedule passes = result.mapError (cycleOf passes)) := by
  have hdup := duplicate?_spec [] (passes.map (·.name))
  cases hfound : duplicate? [] (passes.map (·.name)) with
  | some name =>
    rw [hfound] at hdup
    have hname : (passes.map (·.name)).Duplicate name := by simpa using hdup
    exact .inl ⟨name, hname, by simp [schedule, hfound]; rfl⟩
  | none =>
    rw [hfound] at hdup
    have hwaits := waits_spec hdup.1
    refine .inr ⟨hdup.1, ?_⟩
    cases hws : waits passes with
    | error error =>
      rw [hws] at hwaits
      exact .inl ⟨error, hwaits, by simp [schedule, hfound, hws]; rfl⟩
    | ok ws =>
      rw [hws] at hwaits
      -- What is waited for has a name, so it is the index of a pass; this bounds the length of a
      -- path.
      have hbound : ∀ w ∈ ws, w.earlier < passes.length := by
        intro w hw
        obtain ⟨before, _, hbefore, _⟩ := (hwaits.2 w.waiting w.earlier).1 (mem_predecessors.2 hw)
        simpa using (List.getElem?_eq_some_iff.1 hbefore).1
      have hsearch := search_foldlM_visit hbound (passes.length + 1) [] []
        (List.range passes.length) List.nodup_nil
        (by simp) (fun i hi => List.mem_range.1 hi) (by simp)
      refine .inr ⟨hwaits.1, ws, _, rfl, hsearch, ?_⟩
      simp only [schedule, hfound, hws, bind, Except.bind]
      cases (List.range passes.length).foldlM (visit ws (passes.length + 1) []) [] <;> rfl

section search

variable {passes : List Wishes} {ws : List Wait} (hnodup : (passes.map (·.name)).Nodup)
  (hws : waits passes = .ok ws)

include hnodup hws

theorem waitsFor_iff {index earlier : Nat} :
    WaitsFor ws index earlier ↔ ∃ before after, (passes.map (·.name))[earlier]? = some before ∧
      (passes.map (·.name))[index]? = some after ∧ Precedes passes before after := by
  have hspec := waits_spec hnodup
  rw [hws] at hspec
  exact hspec.2 index earlier

/-- The indices of names wait for each other as the names have to follow each other, also through
others. -/
theorem transGen_waitsFor (hresolved : Resolved passes) {name : String}
    (h : Relation.TransGen (Precedes passes) name name) :
    ∃ i < passes.length, Relation.TransGen (WaitsFor ws) i i := by
  have hplace : ∀ {c}, c ∈ passes.map (·.name) →
      (passes.map (·.name))[(passes.map (·.name)).idxOf c]? = some c :=
    fun hc => List.getElem?_idxOf hc
  -- Names precede, but indices wait: the steps go the other way.
  have hlift : Function.swap (Precedes passes) ≤
      Function.onFun (WaitsFor ws) (passes.map (·.name)).idxOf := by
    intro later earlier hprecedes
    obtain ⟨hearlier, hlater⟩ := hresolved.mem_names hprecedes
    exact (waitsFor_iff hnodup hws).2 ⟨earlier, later, hplace hearlier, hplace hlater, hprecedes⟩
  have hcircle := Relation.TransGen.lift (passes.map (·.name)).idxOf hlift name name h.swap
  obtain ⟨next, hfirst, _⟩ := Relation.TransGen.head'_iff.1 h
  have hindex := (List.getElem?_eq_some_iff.1 (hplace (hresolved.mem_names hfirst).1)).1
  exact ⟨_, by simpa using hindex, hcircle⟩

/-- A circle of indices is one of names, each following the next. -/
theorem isCircle_names {circle : List Nat} (h : IsCircle (WaitsFor ws) circle) :
    IsCircle (fun name next => Precedes passes next name)
      (circle.map fun i => (passes.map (·.name)).getD i "") := by
  apply h.map
  · intro index earlier hwait
    obtain ⟨before, after, hbefore, hafter, hprecedes⟩ := (waitsFor_iff hnodup hws).1 hwait
    rw [List.getD_eq_getElem?_getD, List.getD_eq_getElem?_getD, hbefore, hafter]
    exact hprecedes
  · -- An index that waits has a name, and no other index has the same.
    intro i j i' j' hi hj hsame
    obtain ⟨_, name, _, hname, _⟩ := (waitsFor_iff hnodup hws).1 hi
    obtain ⟨_, name', _, hname', _⟩ := (waitsFor_iff hnodup hws).1 hj
    rw [List.getD_eq_getElem?_getD, List.getD_eq_getElem?_getD, hname, hname'] at hsame
    have heq : name = name' := hsame
    have hi' := (idxOf?_eq_some_iff hnodup).2 hname
    rw [heq, (idxOf?_eq_some_iff hnodup).2 hname'] at hi'
    exact (Option.some.inj hi').symm

end search

/-- An order that is given was found by the search. -/
theorem search_of_schedule {order : List Nat} (h : schedule passes = .ok order) :
    (passes.map (·.name)).Nodup ∧ Resolved passes ∧
      ∃ ws, waits passes = .ok ws ∧ Search ws [] [] (List.range passes.length) (.ok order) := by
  rcases schedule_cases passes with
    ⟨name, _, herror⟩
      | ⟨hnodup, ⟨error, _, herror⟩ | ⟨hresolved, ws, result, hws, hsearch, hresult⟩⟩
  · rw [h] at herror
    cases herror
  · rw [h] at herror
    cases herror
  cases result with
  | error circle =>
    rw [h] at hresult
    cases hresult
  | ok final =>
    have hfinal : order = final := Except.ok.inj (h.symm.trans hresult)
    exact ⟨hnodup, hresolved, ws, hws, hfinal ▸ hsearch⟩

/-- An order that is found holds each index once, and each behind those it waits for. -/
theorem ordered_of_schedule {order : List Nat} (h : schedule passes = .ok order) :
    (passes.map (·.name)).Nodup ∧ Resolved passes ∧
      ∃ ws, waits passes = .ok ws ∧ Ordered ws order ∧ order.Perm (List.range passes.length) := by
  obtain ⟨hnodup, hresolved, ws, hws, hsearch⟩ := search_of_schedule h
  obtain ⟨hordered, -, hall, -⟩ := hsearch.ordered (ordered_nil ws) (by simp)
  refine ⟨hnodup, hresolved, ws, hws, hordered, ?_⟩
  rw [List.perm_ext_iff_of_nodup hordered.nodup List.nodup_range]
  intro i
  constructor
  · intro hi
    rcases hsearch.mem_reachable i hi with hold | ⟨start, hstart, hreach⟩
    · cases hold
    -- What is reached last is waited for, and so it is the index of a pass.
    rcases Relation.ReflTransGen.cases_tail hreach with heq | ⟨j, _, hwait⟩
    · rw [heq]
      exact hstart
    · obtain ⟨before, _, hbefore, _⟩ := (waitsFor_iff hnodup hws).1 hwait
      simpa using (List.getElem?_eq_some_iff.1 hbefore).1
  · intro hi
    exact hall hi

/-- What an error says about the passes. -/
theorem schedule_error_cases (h : schedule passes = .error error) :
    (∃ name, error = .duplicate name ∧ (passes.map (·.name)).Duplicate name) ∨
    ((passes.map (·.name)).Nodup ∧ ∃ w ∈ passes, Unmet (passes.map (·.name)) w error) ∨
    ((passes.map (·.name)).Nodup ∧ Resolved passes ∧
      ∃ path, error = .cycle path ∧
        IsCircle (fun name next => Precedes passes next name) path) := by
  rcases schedule_cases passes with
    ⟨name, hname, herror⟩
      | ⟨hnodup, ⟨error', hunmet, herror⟩ | ⟨hresolved, ws, result, hws, hsearch, hresult⟩⟩
  · rw [h] at herror
    exact .inl ⟨name, Except.error.inj herror, hname⟩
  · rw [h] at herror
    rw [Except.error.inj herror]
    exact .inr (.inl ⟨hnodup, hunmet⟩)
  cases result with
  | ok order =>
    rw [h] at hresult
    cases hresult
  | error circle =>
    rw [h] at hresult
    have hcircle := hsearch.isCircle List.nodup_nil .nil (by simp)
    exact .inr
      (.inr ⟨hnodup, hresolved, _, Except.error.inj hresult, isCircle_names hnodup hws hcircle⟩)

/-- Passes get an order exactly if they can be ordered. -/
theorem schedule_isOk_iff (passes : List Wishes) :
    (∃ order, schedule passes = .ok order) ↔ Schedulable passes := by
  constructor
  · intro ⟨order, h⟩
    obtain ⟨hnodup, hresolved, ws, hws, hordered, hperm⟩ := ordered_of_schedule h
    refine ⟨hnodup, hresolved, ?_⟩
    intro name hname
    obtain ⟨i, hi, hself⟩ := transGen_waitsFor hnodup hws hresolved hname
    exact hordered.not_waits_for_itself (hperm.mem_iff.2 (List.mem_range.2 hi)) hself
  · intro hs
    cases h : schedule passes with
    | ok order => exact ⟨order, rfl⟩
    | error error =>
      exfalso
      rcases schedule_error_cases h
        with ⟨name, _, hname⟩ | ⟨_, w, hw, hunmet⟩ | ⟨_, _, path, _, hpath⟩
      · exact hname.not_nodup hs.nodup
      · exact hunmet.not_resolved hw hs.resolved
      · obtain ⟨name, hname⟩ := hpath.exists_transGen
        exact hs.acyclic name hname.swap

section errors

variable {passes : List Wishes}

/-- Passes that cannot be ordered get an error. -/
theorem exists_error_of_not_schedulable (h : ¬ Schedulable passes) :
    ∃ error, schedule passes = .error error := by
  cases hresult : schedule passes with
  | ok order => exact absurd ((schedule_isOk_iff passes).1 ⟨order, hresult⟩) h
  | error error => exact ⟨error, rfl⟩

theorem schedule_duplicate_iff :
    (∃ name, schedule passes = .error (.duplicate name)) ↔ ¬ (passes.map (·.name)).Nodup := by
  constructor
  · intro ⟨name, h⟩
    rcases schedule_error_cases h with ⟨_, _, hname⟩ | ⟨_, w, _, hunmet⟩ | ⟨_, _, path, herror, _⟩
    · exact hname.not_nodup
    · cases hunmet
    · cases herror
  · intro htwice
    obtain ⟨error, h⟩ := exists_error_of_not_schedulable fun hs => htwice hs.nodup
    rcases schedule_error_cases h with ⟨name, rfl, _⟩ | ⟨hnodup, _⟩ | ⟨hnodup, _⟩
    · exact ⟨name, h⟩
    · exact absurd hnodup htwice
    · exact absurd hnodup htwice

/-- A wish that is reported is a wish of the pass it is reported of, and there is no pass of the
name. -/
theorem unmet_of_schedule {pass name : String} (h : schedule passes = .error error)
    (herror : error = .unresolved pass name ∨ error = .unresolvedReversed pass name) :
    ∃ w ∈ passes, Unmet (passes.map (·.name)) w error := by
  rcases schedule_error_cases h with ⟨_, rfl, _⟩ | ⟨_, hunmet⟩ | ⟨_, _, path, rfl, _⟩
  · simp at herror
  · exact hunmet
  · simp at herror

theorem schedule_unresolved_iff (hnodup : (passes.map (·.name)).Nodup) :
    (∃ pass name, schedule passes = .error (.unresolved pass name) ∨
        schedule passes = .error (.unresolvedReversed pass name)) ↔
      ∃ w ∈ passes, ∃ name ∈ w.after ++ w.before, name ∉ passes.map (·.name) := by
  constructor
  · intro ⟨pass, name, h⟩
    have hunmet : ∃ error, ∃ w ∈ passes, Unmet (passes.map (·.name)) w error := by
      rcases h with h | h
      · exact ⟨_, unmet_of_schedule h (.inl rfl)⟩
      · exact ⟨_, unmet_of_schedule h (.inr rfl)⟩
    obtain ⟨error, w, hw, hunmet⟩ := hunmet
    cases hunmet with
    | @after name hwish hmissing => exact ⟨w, hw, name, by simp [hwish], hmissing⟩
    | @before name hwish hmissing => exact ⟨w, hw, name, by simp [hwish], hmissing⟩
  · intro ⟨w, hw, name, hname, hmissing⟩
    have hunresolved : ¬ Resolved passes := fun hresolved => hmissing (hresolved w hw name hname)
    obtain ⟨error, h⟩ := exists_error_of_not_schedulable fun hs => hunresolved hs.resolved
    rcases schedule_error_cases h with ⟨_, _, htwice⟩ | ⟨_, _, _, hunmet⟩ | ⟨_, hresolved, _⟩
    · exact absurd hnodup htwice.not_nodup
    · cases hunmet with
      | after => exact ⟨_, _, .inl h⟩
      | before => exact ⟨_, _, .inr h⟩
    · exact absurd hresolved hunresolved

theorem isCircle_of_schedule {path : List String} (h : schedule passes = .error (.cycle path)) :
    IsCircle (fun name next => Precedes passes next name) path := by
  rcases schedule_error_cases h with ⟨_, herror, _⟩ | ⟨_, _, _, hunmet⟩ | ⟨_, _, _, herror, hcircle⟩
  · cases herror
  · cases hunmet
  · cases herror
    exact hcircle

theorem schedule_cycle_iff (hnodup : (passes.map (·.name)).Nodup) (hresolved : Resolved passes) :
    (∃ path, schedule passes = .error (.cycle path)) ↔
      ∃ name, Relation.TransGen (Precedes passes) name name := by
  constructor
  · intro ⟨path, h⟩
    obtain ⟨name, hname⟩ := (isCircle_of_schedule h).exists_transGen
    exact ⟨name, hname.swap⟩
  · intro ⟨name, hname⟩
    obtain ⟨error, h⟩ := exists_error_of_not_schedulable fun hs => hs.acyclic name hname
    rcases schedule_error_cases h with ⟨_, _, htwice⟩ | ⟨_, w, hw, hunmet⟩ | ⟨_, _, path, rfl, _⟩
    · exact absurd hnodup htwice.not_nodup
    · exact absurd hresolved (hunmet.not_resolved hw)
    · exact ⟨path, h⟩

end errors

end Schedule

open Schedule

/-- A schedule holds each index once, and every wish of every pass is met in it: the pass that a
wish names is there, there is only one of that name, and it stands on the side it has to. -/
theorem schedule_meets_wishes {passes : List Wishes} {order : List Nat}
    (h : schedule passes = .ok order) :
    order.Perm (List.range passes.length) ∧ (passes.map (·.name)).Nodup ∧
      ∀ i w, passes[i]? = some w →
        (∀ name ∈ w.after, ∃ j p, passes[j]? = some p ∧ p.name = name ∧
          order.idxOf j < order.idxOf i) ∧
        (∀ name ∈ w.before, ∃ j p, passes[j]? = some p ∧ p.name = name ∧
          order.idxOf i < order.idxOf j) := by
  obtain ⟨hnodup, hresolved, ws, hws, hordered, hperm⟩ := ordered_of_schedule h
  refine ⟨hperm, hnodup, ?_⟩
  intro i w hi
  have hw := List.mem_of_getElem? hi
  have hplace : (passes.map (·.name))[i]? = some w.name := by simp [hi]
  have hfind : ∀ name ∈ w.after ++ w.before, ∃ (j : Nat) (p : Wishes), passes[j]? = some p ∧
      p.name = name := by
    intro name hname
    obtain ⟨p, hp, hnamed⟩ := List.mem_map.1 (hresolved w hw name hname)
    obtain ⟨j, hj⟩ := List.mem_iff_getElem?.1 hp
    exact ⟨j, p, hj, hnamed⟩
  have hlisted : ∀ {j p}, passes[j]? = some p → j ∈ order := by
    intro j p hj
    exact hperm.mem_iff.2 (List.mem_range.2 (List.getElem?_eq_some_iff.1 hj).1)
  constructor
  · intro name hname
    obtain ⟨j, p, hj, hp⟩ := hfind name (by simp [hname])
    have hwait : WaitsFor ws i j :=
      (waitsFor_iff hnodup hws).2 ⟨name, w.name, by simp [hj, hp], hplace, w, hw, .inl ⟨rfl, hname⟩⟩
    exact ⟨j, p, hj, hp, (hordered.idxOf_lt (hlisted hi) hwait).2⟩
  · intro name hname
    obtain ⟨j, p, hj, hp⟩ := hfind name (by simp [hname])
    have hwait : WaitsFor ws j i :=
      (waitsFor_iff hnodup hws).2 ⟨w.name, name, hplace, by simp [hj, hp], w, hw, .inr ⟨rfl, hname⟩⟩
    exact ⟨j, p, hj, hp, (hordered.idxOf_lt (hlisted hj) hwait).2⟩

/-- Three passes registered in the wrong order: the last has to run first, and the first behind
both. -/
def tangled : List Wishes :=
  [⟨"EMIT", ["CHECK"], []⟩, ⟨"CHECK", [], []⟩, ⟨"PARSE", [], ["CHECK", "EMIT"]⟩]

theorem tangled_meets_wishes :
    schedule tangled = .ok [2, 1, 0] ∧ [2, 1, 0].Perm (List.range tangled.length) ∧
      ∃ j p, tangled[j]? = some p ∧ p.name = "CHECK" ∧ [2, 1, 0].idxOf 2 < [2, 1, 0].idxOf j := by
  have h : schedule tangled = .ok [2, 1, 0] := by decide
  have hmeets := schedule_meets_wishes h
  exact ⟨h, hmeets.1, (hmeets.2.2 2 ⟨"PARSE", [], ["CHECK", "EMIT"]⟩ rfl).2 "CHECK" (by simp)⟩

/-- Each error is given exactly where it is due, and what it names is there to be seen.

A name given twice comes first, then a wish for a pass that is not there, then a circle. The search
takes place only if there is nothing of the first two kinds, and it always ends. So whether passes
have an order does not depend on the order in which they are registered. -/
theorem schedule_errors_exact (passes : List Wishes) :
    ((∃ name, schedule passes = .error (.duplicate name)) ↔ ¬ (passes.map (·.name)).Nodup) ∧
    ((passes.map (·.name)).Nodup →
      ((∃ pass name, schedule passes = .error (.unresolved pass name) ∨
          schedule passes = .error (.unresolvedReversed pass name)) ↔
        ∃ w ∈ passes, ∃ name ∈ w.after ++ w.before, name ∉ passes.map (·.name))) ∧
    (∀ pass name, schedule passes = .error (.unresolved pass name) →
      ∃ w ∈ passes, w.name = pass ∧ name ∈ w.after ∧ name ∉ passes.map (·.name)) ∧
    (∀ pass name, schedule passes = .error (.unresolvedReversed pass name) →
      ∃ w ∈ passes, w.name = pass ∧ name ∈ w.before ∧ name ∉ passes.map (·.name)) ∧
    ((passes.map (·.name)).Nodup → Resolved passes →
      ((∃ path, schedule passes = .error (.cycle path)) ↔
        ∃ name, Relation.TransGen (Precedes passes) name name)) ∧
    (∀ path, schedule passes = .error (.cycle path) →
      IsCircle (fun name next => Precedes passes next name) path) ∧
    ((passes.map (·.name)).Nodup → Resolved passes → ∃ ws result, waits passes = .ok ws ∧
      Search ws [] [] (List.range passes.length) result ∧
        schedule passes = result.mapError (cycleOf passes)) ∧
    ∀ passes', passes.Perm passes' →
      ((∃ order, schedule passes = .ok order) ↔ ∃ order, schedule passes' = .ok order) := by
  refine ⟨schedule_duplicate_iff, schedule_unresolved_iff, ?_, ?_, schedule_cycle_iff,
    fun _ => isCircle_of_schedule, ?_, ?_⟩
  · intro pass name h
    obtain ⟨w, hw, hunmet⟩ := unmet_of_schedule h (.inl rfl)
    cases hunmet with
    | after hwish hmissing => exact ⟨w, hw, rfl, hwish, hmissing⟩
  · intro pass name h
    obtain ⟨w, hw, hunmet⟩ := unmet_of_schedule h (.inr rfl)
    cases hunmet with
    | before hwish hmissing => exact ⟨w, hw, rfl, hwish, hmissing⟩
  · intro hnodup hresolved
    rcases schedule_cases passes with ⟨_, htwice, _⟩ | ⟨_, ⟨_, ⟨w, hw, hunmet⟩, _⟩ | ⟨_, hsearch⟩⟩
    · exact absurd hnodup htwice.not_nodup
    · exact absurd hresolved (hunmet.not_resolved hw)
    · exact hsearch
  · intro passes' hperm
    rw [schedule_isOk_iff, schedule_isOk_iff]
    exact ⟨Schedulable.of_perm hperm, Schedulable.of_perm hperm.symm⟩

/-- Four passes that wait for each other in a circle, one that is free of it and one that leads into
it. -/
def circular : List Wishes :=
  [⟨"READ", [], []⟩, ⟨"A", ["READ", "B"], []⟩, ⟨"B", ["C"], []⟩, ⟨"C", [], []⟩, ⟨"D", [], ["A"]⟩,
    ⟨"A2", ["A"], ["C"]⟩]

theorem circular_errors_exact :
    schedule circular = .error (.cycle ["A", "B", "C", "A2", "A"]) ∧
      IsCircle (fun name next => Precedes circular next name) ["A", "B", "C", "A2", "A"] ∧
      (∃ name, Relation.TransGen (Precedes circular) name name) ∧
      ¬ ∃ order, schedule circular.reverse = .ok order := by
  have h : schedule circular = .error (.cycle ["A", "B", "C", "A2", "A"]) := by decide
  obtain ⟨-, -, -, -, hcycle, hpath, -, hperm⟩ := schedule_errors_exact circular
  refine ⟨h, hpath _ h, (hcycle (by decide) (by decide)).1 ⟨_, h⟩, ?_⟩
  rw [← hperm _ (List.reverse_perm circular).symm]
  simp [h]

end CobolCompiler
