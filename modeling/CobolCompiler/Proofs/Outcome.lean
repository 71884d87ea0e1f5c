import CobolCompiler.Pass.Basic

/-!
# What steps guarantee

Every step of a compilation works on a state and either answers or stops, and leaves a state in both
cases. `Ensures` says what holds afterwards: a condition on the answer and the state it comes with,
and one on the stop and the state it comes with. The equivalences below push such a guarantee
through a step from its end to its beginning, so that unfolding a step and rewriting with them
leaves only conditions on the state at the start.

Loops have rules of their own. Their invariant speaks about the items that are done.
-/

namespace CobolCompiler

variable {ε σ α β : Type}

theorem bind_apply (step : EStateM ε σ β) (next : β → EStateM ε σ α) (s : σ) :
    (step >>= next) s =
      match step s with
      | .ok b s' => next b s'
      | .error e s' => .error e s' := rfl

theorem get_apply (s : σ) : (get : EStateM ε σ σ) s = .ok s s := rfl

theorem modify_apply (f : σ → σ) (s : σ) : (modify f : EStateM ε σ PUnit) s = .ok ⟨⟩ (f s) := rfl

/-- A step that begins in state `s` either answers, and then `ok` holds, or stops, and then `err`
holds. -/
def Ensures (step : EStateM ε σ α) (s : σ) (ok : α → σ → Prop) (err : ε → σ → Prop) : Prop :=
  match step s with
  | .ok a s' => ok a s'
  | .error e s' => err e s'

section basic

variable {s s' : σ} {ok ok' : α → σ → Prop} {err err' : ε → σ → Prop}

variable {step : EStateM ε σ α} {next : β → EStateM ε σ α} {a : α}

theorem Ensures.of_ok (h : Ensures step s ok err) (heq : step s = .ok a s') :
    ok a s' := by
  unfold Ensures at h
  rw [heq] at h
  exact h

theorem Ensures.of_error (h : Ensures step s ok err) {e : ε} (heq : step s = .error e s') :
    err e s' := by
  unfold Ensures at h
  rw [heq] at h
  exact h

/-- The guarantees of a step of which the answer is known. -/
theorem ensures_of_eq (heq : step s = .ok a s') : Ensures step s ok err ↔ ok a s' := by
  unfold Ensures
  rw [heq]

/-- A guarantee is what holds of each of the two outcomes. -/
theorem ensures_iff :
    Ensures step s ok err ↔
      (∀ a s', step s = .ok a s' → ok a s') ∧ (∀ e s', step s = .error e s' → err e s') := by
  constructor
  · intro h
    exact ⟨fun a s' heq => h.of_ok heq, fun e s' heq => h.of_error heq⟩
  · intro ⟨hok, herr⟩
    unfold Ensures
    split
    · next heq => exact hok _ _ heq
    · next heq => exact herr _ _ heq

theorem Ensures.mono (h : Ensures step s ok err) (hok : ∀ a s', ok a s' → ok' a s')
    (herr : ∀ e s', err e s' → err' e s') : Ensures step s ok' err' := by
  unfold Ensures at h ⊢
  split
  · next heq => rw [heq] at h; exact hok _ _ h
  · next heq => rw [heq] at h; exact herr _ _ h

theorem Ensures.imp (h : Ensures step s ok err) (hok : ∀ a s', ok a s' → ok' a s') :
    Ensures step s ok' err :=
  h.mono hok fun _ _ he => he

/-- A step that cannot stop answers. -/
theorem Ensures.exists_ok (h : Ensures step s ok fun _ _ => False) :
    ∃ a s', step s = .ok a s' ∧ ok a s' := by
  unfold Ensures at h
  split at h
  · next a s' heq => exact ⟨a, s', heq, h⟩
  · exact h.elim

/-- Two guarantees of one step hold together. -/
theorem Ensures.and (h : Ensures step s ok err) (h' : Ensures step s ok' err') :
    Ensures step s (fun a t => ok a t ∧ ok' a t) (fun e t => err e t ∧ err' e t) := by
  unfold Ensures at h h' ⊢
  split
  · next heq => rw [heq] at h h'; exact ⟨h, h'⟩
  · next heq => rw [heq] at h h'; exact ⟨h, h'⟩

@[simp] theorem ensures_pure (a : α) : Ensures (pure a) s ok err ↔ ok a s := Iff.rfl

@[simp] theorem ensures_throw (e : ε) :
    Ensures (throw e : EStateM ε σ α) s ok err ↔ err e s := Iff.rfl

@[simp] theorem ensures_get {ok : σ → σ → Prop} : Ensures get s ok err ↔ ok s s := Iff.rfl

@[simp] theorem ensures_modify {ok : PUnit → σ → Prop} (f : σ → σ) :
    Ensures (modify f) s ok err ↔ ok ⟨⟩ (f s) := Iff.rfl

@[simp] theorem ensures_bind {step : EStateM ε σ β} :
    Ensures (step >>= next) s ok err ↔
      Ensures step s (fun b t => Ensures (next b) t ok err) err := by
  unfold Ensures
  rw [bind_apply]
  cases step s <;> exact Iff.rfl

/-- What the first step guarantees is there for the next. -/
theorem Ensures.bind {step : EStateM ε σ β} {mid : β → σ → Prop} (h : Ensures step s mid err)
    (hnext : ∀ b t, mid b t → Ensures (next b) t ok err) : Ensures (step >>= next) s ok err :=
  ensures_bind.mpr (h.imp hnext)

theorem ensures_require {invariant : Invariant} {ok : α → σ → Prop} {err : Stop → σ → Prop}
    (o : Option α) :
    Ensures (require invariant o) s ok err ↔
      (∀ a, o = some a → ok a s) ∧ (o = none → err (.broken invariant) s) := by
  cases o with
  | none => simp [require]
  | some a => simp [require]

theorem ensures_require_some {invariant : Invariant} {ok : α → σ → Prop} {err : Stop → σ → Prop} :
    Ensures (require invariant (some a)) s ok err ↔ ok a s :=
  Iff.rfl

theorem ensures_onPart {part : Run → σ} {put : σ → Run → Run} {step : EStateM Stop σ α} {run : Run}
    {ok : α → Run → Prop} {err : Stop → Run → Prop} :
    Ensures (onPart part put step) run ok err ↔
      Ensures step (part run) (fun a s => ok a (put s run)) (fun e s => err e (put s run)) := by
  unfold Ensures onPart
  cases step (part run) <;> exact Iff.rfl

/-- The state that a step ends in. -/
def stateOf : EStateM.Result ε σ α → σ
  | .ok _ s => s
  | .error _ s => s

/-- What holds of both outcomes of a step holds of the state that it ends in. -/
theorem holds_stateOf {P : σ → Prop} (h : Ensures step s (fun _ => P) (fun _ => P)) :
    P (stateOf (step s)) := by
  unfold Ensures at h
  split at h
  · next heq => rw [heq]; exact h
  · next heq => rw [heq]; exact h

theorem ensures_of_stateOf {P : σ → Prop} (h : P (stateOf (step s))) :
    Ensures step s (fun _ => P) (fun _ => P) := by
  unfold Ensures
  split
  · next heq => rwa [heq] at h
  · next heq => rwa [heq] at h

/-- Whether a step answers. -/
def answers (step : EStateM ε σ α) (s : σ) : Bool :=
  match step s with
  | .ok .. => true
  | .error .. => false

theorem exists_of_answers (h : answers step s = true) : ∃ a s', step s = .ok a s' := by
  unfold answers at h
  split at h
  · next a s' heq => exact ⟨a, s', heq⟩
  · cases h

/-- What a step answers with, if it does. -/
def answerOf? (step : EStateM ε σ α) (s : σ) : Option α :=
  match step s with
  | .ok a _ => some a
  | .error .. => none

theorem exists_of_answerOf? (h : answerOf? step s = some a) : ∃ s', step s = .ok a s' := by
  unfold answerOf? at h
  split at h
  · next a' s' heq =>
    obtain rfl := Option.some.inj h
    exact ⟨s', heq⟩
  · cases h

/-- Why a step stops, if it does. -/
def stopOf? (step : EStateM ε σ α) (s : σ) : Option ε :=
  match step s with
  | .ok .. => none
  | .error e _ => some e

theorem exists_of_stopOf? {e : ε} (h : stopOf? step s = some e) :
    ∃ s', step s = .error e s' := by
  unfold stopOf? at h
  split at h
  · cases h
  · next e' s' heq =>
    obtain rfl := Option.some.inj h
    exact ⟨s', heq⟩

theorem answers_bind {step : EStateM ε σ β} {b : β} {s' : σ} (h : step s = .ok b s') :
    answers (step >>= next) s = answers (next b) s' := by
  rw [answers, answers, bind_apply, h]

/-- A sequence answers if both of its steps do. -/
theorem exists_of_bind_eq_ok {step : EStateM ε σ β} {t : σ} (h : (step >>= next) s = .ok a t) :
    ∃ b s', step s = .ok b s' ∧ next b s' = .ok a t := by
  rw [bind_apply] at h
  cases hstep : step s with
  | ok b s' =>
    rw [hstep] at h
    exact ⟨b, s', rfl, h⟩
  | error e s' =>
    rw [hstep] at h
    cases h

theorem exists_of_answers_bind {step : EStateM ε σ β} (h : answers (step >>= next) s = true) :
    ∃ b s', step s = .ok b s' ∧ answers (next b) s' = true := by
  obtain ⟨a, t, hrun⟩ := exists_of_answers h
  obtain ⟨b, s', hstep, hnext⟩ := exists_of_bind_eq_ok hrun
  exact ⟨b, s', hstep, by rw [answers, hnext]⟩

end basic

/-! ### Loops -/

section loops

variable {err : ε → σ → Prop}

/-- A loop over a list keeps an invariant that speaks about the items already done. -/
theorem ensures_forM {f : α → EStateM ε σ PUnit} (I : List α → σ → Prop) {items : List α} {s : σ}
    (hstart : I [] s)
    (hstep : ∀ done item rest t, items = done ++ item :: rest → I done t →
      Ensures (f item) t (fun _ => I (done ++ [item])) err) :
    Ensures (items.forM f) s (fun _ => I items) err := by
  -- the items done so far are set apart from those to come
  suffices h : ∀ rest done t, items = done ++ rest → I done t →
      Ensures (rest.forM f) t (fun _ => I items) err from h items [] s rfl hstart
  intro rest
  induction rest with
  | nil =>
    intro done t hitems hI
    rw [List.append_nil] at hitems
    subst hitems
    exact hI
  | cons item rest ih =>
    intro done t hitems hI
    refine (hstep done item rest t hitems hI).bind ?_
    intro _ t' hI'
    exact ih (done ++ [item]) t' (by rw [hitems, List.append_assoc]; rfl) hI'

/-- The same for a loop that passes a value on. -/
theorem ensures_foldlM {f : β → α → EStateM ε σ β} (I : List α → β → σ → Prop) {items : List α}
    {b : β} {s : σ} (hstart : I [] b s)
    (hstep : ∀ done item rest c t, items = done ++ item :: rest → I done c t →
      Ensures (f c item) t (I (done ++ [item])) err) :
    Ensures (items.foldlM f b) s (I items) err := by
  suffices h : ∀ rest done c t, items = done ++ rest → I done c t →
      Ensures (rest.foldlM f c) t (I items) err from h items [] b s rfl hstart
  intro rest
  induction rest with
  | nil =>
    intro done c t hitems hI
    rw [List.append_nil] at hitems
    subst hitems
    exact hI
  | cons item rest ih =>
    intro done c t hitems hI
    rw [List.foldlM_cons]
    refine (hstep done item rest c t hitems hI).bind ?_
    intro c' t' hI'
    exact ih (done ++ [item]) c' t' (by rw [hitems, List.append_assoc]; rfl) hI'

/-- Passes run up to some point, and then on from there. -/
theorem runAll_append (passes more : List Pass) (root : Node) :
    runAll (passes ++ more) root = runAll passes root >>= runAll more :=
  List.foldlM_append

/-- What holds of passes, and of sequences of steps of which it holds, holds when they run one after
another. -/
theorem runAll_holds {P : RunM Node → Prop} (hpure : ∀ root, P (pure root))
    (hbind : ∀ {step next}, P step → (∀ root, P (next root)) → P (step >>= next))
    {passes : List Pass}
    (h : ∀ pass ∈ passes, ∀ root, P (pass.action root)) (root : Node) : P (runAll passes root) := by
  induction passes generalizing root with
  | nil => exact hpure root
  | cons pass rest ih =>
    rw [runAll, List.foldlM_cons]
    exact hbind (h pass List.mem_cons_self root)
      (ih fun other hother => h other (List.mem_cons_of_mem pass hother))

end loops

/-! ### Stops -/

/-- The stop is an answer to the user and not a broken invariant. -/
def Stop.IsFailure (e : Stop) : Prop :=
  ∃ failure, e = .failed failure

theorem isFailure_failed (failure : Failure) : (Stop.failed failure).IsFailure :=
  ⟨failure, rfl⟩

@[simp] theorem isFailure_fault (problem : Problem) (file : String) (location : Location)
    (related? : Option Place) : (Stop.fault problem file location related?).IsFailure :=
  ⟨_, rfl⟩

/-- The stop is an answer to the user, or else this invariant is broken. -/
def Stop.IsFailureOr (invariant : Invariant) (e : Stop) : Prop :=
  e.IsFailure ∨ e = .broken invariant

end CobolCompiler
