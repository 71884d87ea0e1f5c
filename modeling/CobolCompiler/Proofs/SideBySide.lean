import CobolCompiler.Proofs.Walk
import Mathlib.Data.List.Forall2
import Mathlib.Data.Option.Basic

/-!
# Two runs side by side

`Alike` compares two steps, each with a state of its own. If both answer, their answers and the
states they leave are related. With `exact` they also stop together, and for the same reason;
without it nothing is said of runs of which one stops.

The rules are those of `Ensures`, for two steps at a time: sequences, loops over lists whose items
are related, and walks over one tree in two states. `Lockstep` says the same of all related states
at once.
-/

namespace CobolCompiler

variable {ε σ τ α β γ δ : Type} {exact : Prop}

/-- Two steps do the same up to a relation between what they leave. -/
def Alike (exact : Prop) (x : EStateM ε σ α) (y : EStateM ε τ β) (s : σ) (t : τ)
    (ok : α → σ → β → τ → Prop) : Prop :=
  match x s, y t with
  | .ok a s', .ok b t' => ok a s' b t'
  | .error e _, .error e' _ => exact → e = e'
  | _, _ => ¬exact

section rules

variable {x : EStateM ε σ α} {y : EStateM ε τ β} {s : σ} {t : τ} {ok ok' : α → σ → β → τ → Prop}

theorem Alike.of_ok (h : Alike exact x y s t ok) {a : α} {b : β} {s' : σ} {t' : τ}
    (hx : x s = .ok a s') (hy : y t = .ok b t') : ok a s' b t' := by
  unfold Alike at h
  rw [hx, hy] at h
  exact h

/-- What is exactly alike has one outcome. -/
theorem Alike.outcome (h : Alike True x y s t ok) :
    (∃ a b s' t', x s = .ok a s' ∧ y t = .ok b t' ∧ ok a s' b t') ∨
      ∃ e s' t', x s = .error e s' ∧ y t = .error e t' := by
  unfold Alike at h
  split at h
  · next a s' b t' hx hy => exact Or.inl ⟨a, b, s', t', hx, hy, h⟩
  · next e s' e' t' hx hy =>
    obtain rfl := h trivial
    exact Or.inr ⟨e, s', t', hx, hy⟩
  · exact absurd trivial h

theorem Alike.mono (h : Alike exact x y s t ok) (hok : ∀ a s' b t', ok a s' b t' → ok' a s' b t') :
    Alike exact x y s t ok' := by
  unfold Alike at h ⊢
  split at h
  · exact hok _ _ _ _ h
  · exact h
  · exact h

variable {P : α → σ → Prop} {Q : β → τ → Prop}

/-- What each of the steps guarantees may be used for what they leave together. -/
theorem Alike.with (h : Alike exact x y s t ok) {err : ε → σ → Prop} {err' : ε → τ → Prop}
    (hx : Ensures x s P err) (hy : Ensures y t Q err') :
    Alike exact x y s t fun a s' b t' => ok a s' b t' ∧ P a s' ∧ Q b t' := by
  unfold Alike at h ⊢
  split at h
  · next heq heq' => exact ⟨h, hx.of_ok heq, hy.of_ok heq'⟩
  · exact h
  · exact h

theorem alike_pure {a : α} {b : β} :
    Alike exact (pure a : EStateM ε σ α) (pure b) s t ok ↔ ok a s b t := Iff.rfl

/-- Both steps stop. -/
theorem alike_stop {e e' : ε} {s' : σ} {t' : τ} (hx : x s = .error e s') (hy : y t = .error e' t')
    (h : exact → e = e') : Alike exact x y s t ok := by
  unfold Alike
  rw [hx, hy]
  exact h

/-- One step stops, where the other may go on. -/
theorem alike_stop_left {e : ε} {s' : σ} (hx : x s = .error e s') (h : ¬exact) :
    Alike exact x y s t ok := by
  unfold Alike
  rw [hx]
  cases y t with
  | ok b t' => exact h
  | error e' t' => exact fun hexact => absurd hexact h

theorem alike_stop_right {e : ε} {t' : τ} (hy : y t = .error e t') (h : ¬exact) :
    Alike exact x y s t ok := by
  unfold Alike
  rw [hy]
  cases x s with
  | ok a s' => exact h
  | error e' s' => exact fun hexact => absurd hexact h

/-- Where the steps may stop at different points, what each of them guarantees is all that is
known. -/
theorem alike_of_ensures (h : ¬exact) {err : ε → σ → Prop} {err' : ε → τ → Prop}
    (hx : Ensures x s P err) (hy : Ensures y t Q err') :
    Alike exact x y s t fun a s' b t' => P a s' ∧ Q b t' := by
  unfold Alike
  cases hxs : x s with
  | error e s' =>
    cases y t with
    | ok b t' => exact h
    | error e' t' => exact fun hexact => absurd hexact h
  | ok a s' =>
    cases hyt : y t with
    | ok b t' => exact ⟨hx.of_ok hxs, hy.of_ok hyt⟩
    | error e' t' => exact h

/-- Two steps that cannot stop. -/
theorem alike_of_total (hx : Ensures x s P fun _ _ => False) (hy : Ensures y t Q fun _ _ => False) :
    Alike exact x y s t fun a s' b t' => P a s' ∧ Q b t' := by
  obtain ⟨a, s', hxs, ha⟩ := hx.exists_ok
  obtain ⟨b, t', hyt, hb⟩ := hy.exists_ok
  unfold Alike
  rw [hxs, hyt]
  exact ⟨ha, hb⟩

theorem alike_modify {ok : PUnit → σ → PUnit → τ → Prop} {f : σ → σ} {g : τ → τ} :
    Alike exact (modify f : EStateM ε σ PUnit) (modify g) s t ok ↔ ok ⟨⟩ (f s) ⟨⟩ (g t) := Iff.rfl

theorem alike_bind {f : α → EStateM ε σ γ} {g : β → EStateM ε τ δ} {ok : γ → σ → δ → τ → Prop}
    (h : Alike exact x y s t fun a s' b t' => Alike exact (f a) (g b) s' t' ok) :
    Alike exact (x >>= f) (y >>= g) s t ok := by
  cases hx : x s with
  | ok a s' =>
    cases hy : y t with
    | ok b t' =>
      simp only [Alike, bind_apply, hx, hy] at h ⊢
      exact h
    | error e t' =>
      simp only [Alike, bind_apply, hx, hy] at h ⊢
      cases f a s' with
      | ok c s'' => exact h
      | error e' s'' => exact fun hexact => absurd hexact h
  | error e s' =>
    cases hy : y t with
    | ok b t' =>
      simp only [Alike, bind_apply, hx, hy] at h ⊢
      cases g b t' with
      | ok d t'' => exact h
      | error e' t'' => exact fun hexact => absurd hexact h
    | error e' t' =>
      simp only [Alike, bind_apply, hx, hy] at h ⊢
      exact h

theorem alike_get_bind {f : σ → EStateM ε σ γ} {g : τ → EStateM ε τ δ} {ok : γ → σ → δ → τ → Prop} :
    Alike exact (get >>= f) (get >>= g) s t ok ↔ Alike exact (f s) (g t) s t ok := Iff.rfl

theorem alike_modify_bind {f : σ → σ} {g : τ → τ} {next : PUnit → EStateM ε σ γ}
    {next' : PUnit → EStateM ε τ δ} {ok : γ → σ → δ → τ → Prop} :
    Alike exact (modify f >>= next) (modify g >>= next') s t ok ↔
      Alike exact (next ⟨⟩) (next' ⟨⟩) (f s) (g t) ok := Iff.rfl

/-- A step that does the same on both sides. -/
theorem alike_self {x : EStateM ε σ α} {ok : α → σ → α → σ → Prop}
    (h : ∀ a s', x s = .ok a s' → ok a s' a s') :
    Alike exact x x s s ok := by
  unfold Alike
  cases hx : x s with
  | ok a s' => exact h a s' hx
  | error e s' => exact fun _ => rfl

theorem alike_require {R : α → β → Prop} {o : Option α} {o' : Option β} {invariant : Invariant}
    {ok : α → σ → β → τ → Prop} (hrel : Option.Rel R o o') (hok : ∀ a b, R a b → ok a s b t) :
    Alike exact (require invariant o) (require invariant o') s t ok := by
  cases hrel with
  | none => exact fun _ => rfl
  | some hab => exact hok _ _ hab

/-- Two steps look something up and stop where it is not found. For an exact comparison, it is found
in both or in neither. -/
theorem alike_lookup {A B : Type} {o : Option A} {o' : Option B}
    (hfound : exact → (o.isSome ↔ o'.isSome)) {e e' : ε}
    (hx : o = none → x s = .error e s) (hy : o' = none → y t = .error e' t) (he : exact → e = e')
    (h : ∀ a b, o = some a → o' = some b → Alike exact x y s t ok) : Alike exact x y s t ok := by
  cases o with
  | none =>
    cases o' with
    | none => exact alike_stop (hx rfl) (hy rfl) he
    | some b => exact alike_stop_left (hx rfl) fun hexact => by simpa using hfound hexact
  | some a =>
    cases o' with
    | none => exact alike_stop_right (hy rfl) fun hexact => by simpa using hfound hexact
    | some b => exact h a b rfl rfl

theorem alike_onPart {part : Run → σ} {part' : Run → τ} {put : σ → Run → Run} {put' : τ → Run → Run}
    {x : EStateM Stop σ α} {y : EStateM Stop τ β} {run run' : Run} {ok : α → Run → β → Run → Prop} :
    Alike exact (onPart part put x) (onPart part' put' y) run run' ok ↔
      Alike exact x y (part run) (part' run') fun a s b t => ok a (put s run) b (put' t run') := by
  unfold Alike onPart
  cases x (part run) <;> cases y (part' run') <;> exact Iff.rfl

end rules

/-! ### Loops -/

section loops

variable {R : α → β → Prop} {as : List α} {bs : List β} {s : σ} {t : τ}

/-- Loops over related items keep a relation between the states. -/
theorem alike_forM {f : α → EStateM ε σ PUnit} {g : β → EStateM ε τ PUnit} {I : σ → τ → Prop}
    (hitems : List.Forall₂ R as bs) (hstart : I s t)
    (hstep : ∀ a b s t, R a b → I s t → Alike exact (f a) (g b) s t fun _ s' _ t' => I s' t') :
    Alike exact (as.forM f) (bs.forM g) s t fun _ s' _ t' => I s' t' := by
  induction hitems generalizing s t with
  | nil => exact hstart
  | @cons a b as bs hab _ ih =>
    change Alike exact (f a >>= fun _ => as.forM f) (g b >>= fun _ => bs.forM g) s t _
    apply alike_bind
    apply (hstep a b s t hab hstart).mono
    intro _ s' _ t' hI
    exact ih hI

/-- The same for loops that pass a value on. -/
theorem alike_foldlM {f : γ → α → EStateM ε σ γ} {g : δ → β → EStateM ε τ δ}
    {I : γ → σ → δ → τ → Prop} {c : γ} {d : δ} (hitems : List.Forall₂ R as bs) (hstart : I c s d t)
    (hstep : ∀ a b c d s t, R a b → I c s d t → Alike exact (f c a) (g d b) s t I) :
    Alike exact (as.foldlM f c) (bs.foldlM g d) s t I := by
  induction hitems generalizing c d s t with
  | nil => exact hstart
  | @cons a b as bs hab _ ih =>
    rw [List.foldlM_cons, List.foldlM_cons]
    apply alike_bind
    apply (hstep a b c d s t hab hstart).mono
    intro c' s' d' t' hI
    exact ih hI

/-- Loops over the same items; the steps may rely on which they are. -/
theorem alike_forM_same {f : α → EStateM ε σ PUnit} {g : α → EStateM ε τ PUnit} {I : σ → τ → Prop}
    {items : List α} (hstart : I s t)
    (hstep : ∀ a ∈ items, ∀ s t, I s t → Alike exact (f a) (g a) s t fun _ s' _ t' => I s' t') :
    Alike exact (items.forM f) (items.forM g) s t fun _ s' _ t' => I s' t' := by
  have hitems : List.Forall₂ (fun a b => a ∈ items ∧ b = a) items items :=
    List.forall₂_same.mpr fun a ha => ⟨ha, rfl⟩
  apply alike_forM hitems hstart
  rintro a b s t ⟨ha, hb⟩ hI
  subst hb
  exact hstep b ha s t hI

end loops

/-! ### Lockstep -/

/-- From states related by `I`, two steps lead to answers related by `R` and states related by
`J`. -/
def Lockstep (exact : Prop) (I : σ → τ → Prop) (x : EStateM ε σ α) (y : EStateM ε τ β)
    (R : α → β → Prop) (J : σ → τ → Prop) : Prop :=
  ∀ s t, I s t → Alike exact x y s t fun a s' b t' => R a b ∧ J s' t'

namespace Lockstep

variable {I J K : σ → τ → Prop} {R : α → β → Prop} {S : γ → δ → Prop} {x : EStateM ε σ α}
  {y : EStateM ε τ β}

theorem pure {a : α} {b : β} (h : R a b) :
    Lockstep exact I (Pure.pure a : EStateM ε σ α) (Pure.pure b) R I :=
  fun _ _ hI => ⟨h, hI⟩

theorem throw {e e' : ε} (h : exact → e = e') :
    Lockstep exact I (MonadExcept.throw e : EStateM ε σ α) (MonadExcept.throw e') R J :=
  fun _ _ _ => h

theorem bind {f : α → EStateM ε σ γ} {g : β → EStateM ε τ δ} (hx : Lockstep exact I x y R J)
    (hf : ∀ a b, R a b → Lockstep exact J (f a) (g b) S K) :
    Lockstep exact I (x >>= f) (y >>= g) S K := by
  intro s t hI
  apply alike_bind
  apply (hx s t hI).mono
  rintro a s' b t' ⟨hab, hJ⟩
  exact hf a b hab s' t' hJ

/-- What a step reads of its state is used by the rest of it, whichever state that then meets. -/
theorem get_bind {f : σ → EStateM ε σ γ} {g : τ → EStateM ε τ δ}
    (h : ∀ s t, I s t → Lockstep exact I (f s) (g t) S K) :
    Lockstep exact I (get >>= f) (get >>= g) S K :=
  fun s t hI => h s t hI s t hI

theorem modify {f : σ → σ} {g : τ → τ} (h : ∀ s t, I s t → J (f s) (g t)) :
    Lockstep exact I (modify f : EStateM ε σ PUnit) (modify g) Eq J :=
  fun s t hI => ⟨rfl, h s t hI⟩

theorem require {o : Option α} {o' : Option β} (h : Option.Rel R o o') (invariant : Invariant) :
    Lockstep exact I (CobolCompiler.require invariant o) (CobolCompiler.require invariant o') R
      I := by
  intro s t hI
  exact alike_require h fun a b hab => ⟨hab, hI⟩

theorem forM {f : α → EStateM ε σ PUnit} {g : β → EStateM ε τ PUnit} {as : List α} {bs : List β}
    (hitems : List.Forall₂ R as bs) (hstep : ∀ a b, R a b → Lockstep exact I (f a) (g b) Eq I) :
    Lockstep exact I (as.forM f) (bs.forM g) Eq I := by
  intro s t hI
  refine (alike_forM hitems hI ?_).mono fun _ _ _ _ hI' => ⟨rfl, hI'⟩
  intro a b s t hab hI
  exact (hstep a b hab s t hI).mono fun _ _ _ _ hI' => hI'.2

theorem foldlM {f : γ → α → EStateM ε σ γ} {g : δ → β → EStateM ε τ δ} {as : List α} {bs : List β}
    {c : γ} {d : δ} (hitems : List.Forall₂ R as bs) (hstart : S c d)
    (hstep : ∀ a b c d, R a b → S c d → Lockstep exact I (f c a) (g d b) S I) :
    Lockstep exact I (as.foldlM f c) (bs.foldlM g d) S I := by
  intro s t hI
  apply alike_foldlM (I := fun c s d t => S c d ∧ I s t) hitems ⟨hstart, hI⟩
  rintro a b c d s t hab ⟨hcd, hI⟩
  exact hstep a b c d hab hcd s t hI

end Lockstep

/-! ### Walks -/

namespace Visitor

variable {v : Visitor ε σ} {v' : Visitor ε τ} {I : σ → τ → Prop} {s : σ} {t : τ}

/-- What entering and leaving the nodes of a tree keeps in both runs, its walk keeps. -/
theorem alike_walk {n : Node} (henter : ∀ m ∈ n.nodes, ∀ s t, I s t →
      Alike exact (v.enter m) (v'.enter m) s t fun _ s' _ t' => I s' t') (hleave : ∀ m ∈ n.nodes,
        ∀ s t, I s t → Alike exact (v.leave m) (v'.leave m) s t fun _ s' _ t' => I s' t')
    (hstart : I s t) : Alike exact (v.walk n) (v'.walk n) s t fun _ s' _ t' => I s' t' := by
  induction n using Node.induction_on generalizing s t with
  | node id payload location children ih =>
    have hchildren : ∀ s t, I s t →
        Alike exact (v.walkAll children) (v'.walkAll children) s t fun _ s' _ t' => I s' t' := by
      intro s t hI
      rw [walkAll_eq_forM, walkAll_eq_forM]
      apply alike_forM_same hI
      intro c hc s t hI
      exact ih c hc (fun m hm => henter m (Node.mem_nodes_of_child hc hm))
        (fun m hm => hleave m (Node.mem_nodes_of_child hc hm)) hI
    rw [walk_mk, walk_mk]
    apply alike_bind
    apply (henter _ (Node.self_mem_nodes _) s t hstart).mono
    intro _ s' _ t' hI
    apply alike_bind
    apply (hchildren s' t' hI).mono
    intro _ s'' _ t'' hI'
    exact hleave _ (Node.self_mem_nodes _) s'' t'' hI'

theorem alike_walkAll {ns : List Node}
    (henter : ∀ n ∈ ns, ∀ m ∈ n.nodes, ∀ s t, I s t →
      Alike exact (v.enter m) (v'.enter m) s t fun _ s' _ t' => I s' t')
    (hleave : ∀ n ∈ ns, ∀ m ∈ n.nodes, ∀ s t, I s t →
      Alike exact (v.leave m) (v'.leave m) s t fun _ s' _ t' => I s' t')
    (hstart : I s t) : Alike exact (v.walkAll ns) (v'.walkAll ns) s t fun _ s' _ t' => I s' t' := by
  rw [walkAll_eq_forM, walkAll_eq_forM]
  apply alike_forM_same hstart
  intro n hn s t hI
  exact alike_walk (henter n hn) (hleave n hn) hI

theorem lockstep_walkAll {ns : List Node}
    (henter : ∀ n ∈ ns, ∀ m ∈ n.nodes, Lockstep exact I (v.enter m) (v'.enter m) Eq I)
    (hleave : ∀ n ∈ ns, ∀ m ∈ n.nodes, Lockstep exact I (v.leave m) (v'.leave m) Eq I) :
    Lockstep exact I (v.walkAll ns) (v'.walkAll ns) Eq I := by
  intro s t hI
  refine (alike_walkAll ?_ ?_ hI).mono fun _ _ _ _ hI' => ⟨rfl, hI'⟩
  · intro n hn m hm s t hI
    exact (henter n hn m hm s t hI).mono fun _ _ _ _ hI' => hI'.2
  · intro n hn m hm s t hI
    exact (hleave n hn m hm s t hI).mono fun _ _ _ _ hI' => hI'.2

end Visitor

end CobolCompiler
