import CobolCompiler.Proofs.Scheduling
import Mathlib.Data.List.Sort

/-!
# Schedules and the order of registration

Passes are visited in the order of their registration, and a visit adds the passes that are waited
for first. So a schedule begins, for each pass, with that pass, those registered earlier and all
that any of them waits for, directly or through others; nothing else comes in between
(`exists_closure`). What is registered late and runs early must therefore be waited for
(`schedule_keeps_registration_order`).
-/

namespace CobolCompiler

namespace Schedule

variable {i j : Nat} {p q : Wishes} {passes : List Wishes}

/-! ### What a search has added so far -/

/-- A search adds to the order at its end. -/
theorem Search.prefix_order {waits : List Wait} {path order indices final : List Nat}
    (h : Search waits path order indices (.ok final)) : order <+: final := by
  generalize hresult : Except.ok final = result at h
  induction h generalizing final with
  | done =>
    cases hresult
    exact List.prefix_rfl
  | known _ _ ih => exact ih hresult
  | closed => cases hresult
  | failed => cases hresult
  | @visited path order order' rest index result _ _ _ _ ihbelow ihrest =>
    have hbelow : order <+: order' := ihbelow rfl
    have hindex : order' ++ [index] <+: final := ihrest hresult
    exact hbelow.trans ((List.prefix_append _ _).trans hindex)

/-- Visiting some passes and then others goes through an order in between. -/
theorem Search.split {waits : List Wait} {path order first second final : List Nat}
    (h : Search waits path order (first ++ second) (.ok final)) :
    ∃ mid, Search waits path order first (.ok mid) ∧ Search waits path mid second (.ok final) := by
  induction first generalizing order with
  | nil => exact ⟨order, .done, h⟩
  | cons index rest ih =>
    cases h with
    | known hknown hrest =>
      obtain ⟨mid, hfirst, hsecond⟩ := ih hrest
      exact ⟨mid, .known hknown hfirst, hsecond⟩
    | visited hnew hpath hbelow hrest =>
      obtain ⟨mid, hfirst, hsecond⟩ := ih hrest
      exact ⟨mid, .visited hnew hpath hbelow hfirst, hsecond⟩

/-- An order has all that its passes wait for, also through others. -/
theorem Ordered.mem_of_waits {waits : List Wait}
    {order : List Nat} (h : Ordered waits order) {index earlier : Nat} (hindex : index ∈ order)
    (hwait : Relation.ReflTransGen (WaitsFor waits) index earlier) : earlier ∈ order := by
  rcases Relation.reflTransGen_iff_eq_or_transGen.1 hwait with heq | htrans
  · exact heq ▸ hindex
  · exact (h.idxOf_lt_of_transGen hindex htrans).1

/-- The first passes are done before any others are looked at: at that point the order has exactly
these passes and what they wait for. -/
theorem exists_closure {waits : List Wait} {count first : Nat} {final : List Nat}
    (hfirst : first ≤ count) (h : Search waits [] [] (List.range count) (.ok final)) :
    ∃ mid, mid <+: final ∧
      ∀ i, i ∈ mid ↔ ∃ k < first, Relation.ReflTransGen (WaitsFor waits) k i := by
  obtain ⟨more, rfl⟩ := Nat.exists_eq_add_of_le hfirst
  rw [List.range_add] at h
  obtain ⟨mid, hmid, hrest⟩ := h.split
  obtain ⟨hordered, -, hroots, -⟩ := hmid.ordered (ordered_nil waits) (by simp)
  refine ⟨mid, hrest.prefix_order, ?_⟩
  intro i
  constructor
  · intro hi
    rcases hmid.mem_reachable i hi with hold | ⟨k, hk, hreach⟩
    · cases hold
    · exact ⟨k, List.mem_range.1 hk, hreach⟩
  · intro hreached
    obtain ⟨k, hk, hreach⟩ := hreached
    exact hordered.mem_of_waits (hroots (List.mem_range.2 hk)) hreach

/-- What stands before a member of a prefix is in the prefix. -/
theorem mem_of_idxOf_lt {mid final : List Nat} (hfront : mid <+: final) (hi : i ∈ mid)
    (hlt : final.idxOf j < final.idxOf i) : j ∈ mid := by
  obtain ⟨rest, rfl⟩ := hfront
  by_contra hj
  have hbound : mid.idxOf i < mid.length := List.idxOf_lt_length_iff.2 hi
  rw [List.idxOf_append_of_mem hi, List.idxOf_append_of_notMem hj] at hlt
  omega

/-! ### Schedules -/

instance (passes : List Wishes) (earlier later : String) :
    Decidable (Precedes passes earlier later) :=
  inferInstanceAs (Decidable
    (∃ w ∈ passes, w.name = later ∧ earlier ∈ w.after ∨ w.name = earlier ∧ later ∈ w.before))

/-- Every pass is registered behind those that have to run before it. -/
def RegisteredInOrder (passes : List Wishes) : Prop :=
  ∀ earlier later : Fin passes.length, Precedes passes passes[earlier].name passes[later].name →
    earlier < later

instance (passes : List Wishes) : Decidable (RegisteredInOrder passes) :=
  inferInstanceAs (Decidable (∀ earlier later : Fin passes.length,
    Precedes passes passes[earlier].name passes[later].name → earlier < later))

section found

variable {passes : List Wishes} {order : List Nat} (h : schedule passes = .ok order)

include h

/-- Waits between indices, also through others, are wishes between the passes at them. -/
theorem precedes_of_waits {ws : List Wait} (hws : waits passes = .ok ws) {index earlier : Nat}
    (hp : passes[index]? = some p) (hq : passes[earlier]? = some q)
    (hwait : Relation.TransGen (WaitsFor ws) index earlier) :
    Relation.TransGen (Precedes passes) q.name p.name := by
  obtain ⟨hnodup, -⟩ := search_of_schedule h
  have hlift : WaitsFor ws ≤ Function.onFun (Function.swap (Precedes passes))
      ((passes.map (·.name)).getD · "") := by
    intro a b hab
    show Precedes passes ((passes.map (·.name)).getD b "") ((passes.map (·.name)).getD a "")
    obtain ⟨before, after, hbefore, hafter, hprecedes⟩ := (waitsFor_iff hnodup hws).1 hab
    rw [List.getD_eq_getElem?_getD, List.getD_eq_getElem?_getD, hbefore, hafter]
    exact hprecedes
  have hnames := (Relation.TransGen.lift _ hlift _ _ hwait).swap
  simpa [hp, hq] using hnames

/-- A pass that overtakes another one registered earlier has to run before that one or before one
registered still earlier. -/
theorem waited_for_of_overtakes {q : Wishes} (hlater : i < j) (hj : passes[j]? = some q)
    (hovertakes : order.idxOf j < order.idxOf i) :
    ∃ k ≤ i, ∃ p, passes[k]? = some p ∧ Relation.TransGen (Precedes passes) q.name p.name := by
  obtain ⟨-, -, ws, hws, hsearch⟩ := search_of_schedule h
  have hjlt : j < passes.length := (List.getElem?_eq_some_iff.1 hj).1
  obtain ⟨mid, hfront, hmid⟩ := exists_closure (by omega : i + 1 ≤ passes.length) hsearch
  -- the order has pass `i` by the time its visit ends, and so it has what overtakes it
  have hi : i ∈ mid := (hmid i).2 ⟨i, by omega, .refl⟩
  obtain ⟨k, hk, hreach⟩ := (hmid j).1 (mem_of_idxOf_lt hfront hi hovertakes)
  have hklt : k < passes.length := by omega
  refine ⟨k, by omega, passes[k], List.getElem?_eq_getElem hklt, ?_⟩
  -- `j` comes behind `k` in the list of passes, so it is not `k` itself that was reached
  rcases Relation.reflTransGen_iff_eq_or_transGen.1 hreach with heq | htrans
  · omega
  · exact precedes_of_waits h hws (List.getElem?_eq_getElem hklt) hj htrans

end found

theorem RegisteredInOrder.lt (h : RegisteredInOrder passes) (hi : passes[i]? = some p)
    (hj : passes[j]? = some q) (hprecedes : Precedes passes p.name q.name) : i < j := by
  obtain ⟨hilt, rfl⟩ := List.getElem?_eq_some_iff.1 hi
  obtain ⟨hjlt, rfl⟩ := List.getElem?_eq_some_iff.1 hj
  exact h ⟨i, hilt⟩ ⟨j, hjlt⟩ hprecedes

/-- Among passes registered in order, what has to run earlier is registered earlier, also through
others. -/
theorem RegisteredInOrder.lt_of_transGen (h : RegisteredInOrder passes)
    (hresolved : Resolved passes) (hi : passes[i]? = some p) (hj : passes[j]? = some q)
    (hprecedes : Relation.TransGen (Precedes passes) p.name q.name) : i < j := by
  generalize hname : q.name = name at hprecedes
  induction hprecedes generalizing j q with
  | single hstep => exact h.lt hi hj (hname ▸ hstep)
  | tail _ hstep ih =>
    -- the name in between is that of a pass, because wishes are resolved
    obtain ⟨r, hr, rfl⟩ := List.mem_map.1 (hresolved.mem_names hstep).1
    obtain ⟨k, hk⟩ := List.mem_iff_getElem?.1 hr
    have hik : i < k := ih hk rfl
    have hkj : k < j := h.lt hk hj (hname ▸ hstep)
    omega

/-- Passes that are registered in order run in that order. -/
theorem RegisteredInOrder.order_eq (hregistered : RegisteredInOrder passes) {order : List Nat}
    (h : schedule passes = .ok order) : order = List.range passes.length := by
  obtain ⟨-, hresolved, ws, -, hordered, hperm⟩ := ordered_of_schedule h
  apply hperm.eq_of_pairwise' (r := (· ≤ ·))
  · rw [List.pairwise_iff_getElem]
    intro a b ha hb hab
    by_contra hgreater
    -- two passes in the wrong order, the later one scheduled first
    have hjlt : order[a] < passes.length := List.mem_range.1 (hperm.mem_iff.1 (List.getElem_mem ha))
    have hovertakes : order.idxOf order[a] < order.idxOf order[b] := by
      rw [hordered.nodup.idxOf_getElem a ha, hordered.nodup.idxOf_getElem b hb]
      exact hab
    have hj := List.getElem?_eq_getElem hjlt
    obtain ⟨k, hk, p, hp, hprecedes⟩ :=
      waited_for_of_overtakes h (Nat.lt_of_not_le hgreater) hj hovertakes
    have hlt := hregistered.lt_of_transGen hresolved hj hp hprecedes
    omega
  · exact List.pairwise_le_range

/-- Passes that are registered in order have an order. -/
theorem RegisteredInOrder.schedulable (hregistered : RegisteredInOrder passes)
    (hnodup : (passes.map (·.name)).Nodup) (hresolved : Resolved passes) : Schedulable passes := by
  refine ⟨hnodup, hresolved, ?_⟩
  intro name hcircle
  -- the name is that of a pass, which would have to be registered before itself
  obtain ⟨next, hstep, _⟩ := Relation.TransGen.head'_iff.1 hcircle
  obtain ⟨p, hp, rfl⟩ := List.mem_map.1 (hresolved.mem_names hstep).1
  obtain ⟨i, hi⟩ := List.mem_iff_getElem?.1 hp
  exact Nat.lt_irrefl i (hregistered.lt_of_transGen hresolved hi hi hcircle)

end Schedule

open Schedule

/-- Independent passes keep the order of their registration. A pass that overtakes another has to
run before that one, or before one registered still earlier, directly or through others. If each
pass is registered behind those that have to run before it, the schedule is the order of
registration; then there is one, unless a name is given twice or a wish is for no pass. -/
theorem schedule_keeps_registration_order (passes : List Wishes) :
    (∀ order, schedule passes = .ok order →
      (∀ i j q, i < j → passes[j]? = some q → order.idxOf j < order.idxOf i →
        ∃ k ≤ i, ∃ p, passes[k]? = some p ∧ Relation.TransGen (Precedes passes) q.name p.name) ∧
      (RegisteredInOrder passes → order = List.range passes.length)) ∧
    ((passes.map (·.name)).Nodup → Resolved passes → RegisteredInOrder passes →
      schedule passes = .ok (List.range passes.length)) := by
  constructor
  · intro order h
    refine ⟨?_, fun hregistered => hregistered.order_eq h⟩
    intro i j q hlater hj hovertakes
    exact waited_for_of_overtakes h hlater hj hovertakes
  · intro hnodup hresolved hregistered
    obtain ⟨order, h⟩ := (schedule_isOk_iff passes).2 (hregistered.schedulable hnodup hresolved)
    rw [h, hregistered.order_eq h]

/-- The last of four passes overtakes the two that are registered first, although neither waits for
it directly: the first one waits for the third, and that one for the last. The second one keeps its
place behind the first. -/
def overtaken : List Wishes :=
  [⟨"EMIT", ["CHECK"], []⟩, ⟨"TRACE", [], []⟩, ⟨"CHECK", [], []⟩, ⟨"PARSE", [], ["CHECK"]⟩]

theorem overtaken_keeps_registration_order :
    schedule overtaken = .ok [3, 2, 0, 1] ∧
      (∃ k ≤ 1, ∃ p, overtaken[k]? = some p ∧
        Relation.TransGen (Precedes overtaken) "PARSE" p.name) ∧
      schedule [⟨"PARSE", [], ["EMIT"]⟩, ⟨"TRACE", [], []⟩, ⟨"EMIT", ["PARSE"], []⟩] =
        .ok [0, 1, 2] := by
  have h : schedule overtaken = .ok [3, 2, 0, 1] := by decide
  obtain ⟨hkeeps, -⟩ := schedule_keeps_registration_order overtaken
  refine ⟨h, (hkeeps _ h).1 1 3 ⟨"PARSE", [], ["CHECK"]⟩ (by decide) rfl (by decide), ?_⟩
  exact (schedule_keeps_registration_order _).2 (by decide) (by decide) (by decide)

end CobolCompiler
