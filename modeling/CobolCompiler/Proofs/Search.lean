import CobolCompiler.Pass.Schedule
import Mathlib.Data.List.Chain
import Mathlib.Data.List.Nodup
import Mathlib.Data.List.Perm.Subperm
import Mathlib.Logic.Relation

/-!
# The search for an order

`Schedule.visit` looks for an order of passes depth first. `Search` says what such a search does
without the room that bounds the recursion, and `search_foldlM_visit` shows that the room is never
used up: a path has no pass twice, so it is never longer than the number of passes. The rest is by
induction over `Search`:

* an order that is found is `Ordered`: each pass stands behind the passes it waits for
  (`Search.ordered`);
* it holds nothing but what the search started with and passes that are waited for
  (`Search.mem_reachable`);
* an error is a circle of passes, each waiting for the next (`Search.isCircle`);
* in an order no pass waits for itself, not even through others (`Ordered.not_waits_for_itself`), so
  the search finds a circle wherever there is one.
-/

namespace CobolCompiler.Schedule

variable {index earlier : Nat} {waits : List Wait}

theorem mem_predecessors :
    earlier ∈ predecessors waits index ↔ (⟨index, earlier⟩ : Wait) ∈ waits := by
  simp only [predecessors, List.mem_map, List.mem_filter, decide_eq_true_eq]
  constructor
  · intro ⟨w, ⟨hw, hwaiting⟩, hearlier⟩
    subst hwaiting hearlier
    exact hw
  · intro h
    exact ⟨_, ⟨h, rfl⟩, rfl⟩

/-- A pass waits directly for another. -/
def WaitsFor (waits : List Wait) (index earlier : Nat) : Prop :=
  earlier ∈ predecessors waits index

/-! ### Circles -/

/-- A path that ends where it starts, has no other repetition, and takes only steps of the
relation. -/
def IsCircle {α : Type} (next : α → α → Prop) (path : List α) : Prop :=
  ∃ first inner, path = first :: inner ++ [first] ∧ (first :: inner).Nodup ∧ path.IsChain next

section circles

variable {α β : Type} {next : α → α → Prop}

theorem transGen_of_isChain {first last : α} {inner : List α}
    (h : (first :: inner ++ [last]).IsChain next) :
    Relation.TransGen next first last := by
  induction inner generalizing first with
  | nil => exact .single (by simpa using h)
  | cons second rest ih =>
    have hstep := List.isChain_cons_cons.1 h
    exact .head hstep.1 (ih hstep.2)

variable {path : List α}

/-- Every pass of a path has a successor but the last. -/
theorem exists_next_of_isChain {last : α} (h : (path ++ [last]).IsChain next) :
    ∀ a ∈ path, ∃ b, next a b := by
  intro a ha
  obtain ⟨before, behind, rfl⟩ := List.append_of_mem ha
  rw [List.append_assoc] at h
  have htail := h.right_of_append
  cases behind with
  | nil => exact ⟨last, by simpa using htail⟩
  | cons b rest => exact ⟨b, (List.isChain_cons_cons.1 htail).1⟩

theorem IsCircle.exists_transGen (h : IsCircle next path) : ∃ a, Relation.TransGen next a a := by
  obtain ⟨first, inner, rfl, -, hchain⟩ := h
  exact ⟨first, transGen_of_isChain hchain⟩

/-- A circle stays one under a map that keeps the steps and is injective on what has a successor. -/
theorem IsCircle.map {next' : β → β → Prop} {f : α → β} (h : IsCircle next path)
    (hstep : ∀ a b, next a b → next' (f a) (f b))
    (hinj : ∀ a b a' b', next a a' → next b b' → f a = f b → a = b) :
    IsCircle next' (path.map f) := by
  obtain ⟨first, inner, rfl, hnodup, hchain⟩ := h
  have hnext := exists_next_of_isChain hchain
  refine ⟨f first, inner.map f, by simp, ?_, ?_⟩
  · have hmap : ((first :: inner).map f).Nodup := by
      apply hnodup.map_on
      intro a ha b hb hab
      obtain ⟨a', ha'⟩ := hnext a ha
      obtain ⟨b', hb'⟩ := hnext b hb
      exact hinj a b a' b' ha' hb' hab
    exact hmap
  · rw [List.isChain_map]
    exact hchain.imp fun a b => hstep a b

end circles

/-! ### The search without its room -/

/-- The circle that closes where a pass is met that is on the path. -/
def circleAt (path : List Nat) (index : Nat) : List Nat :=
  index :: (path.takeWhile (· ≠ index)).reverse ++ [index]

/-- What the search does with some passes in turn, given the path to them and the order so far: it
ends in a longer order or in a circle. -/
inductive Search (waits : List Wait) :
    (path order indices : List Nat) → Except (List Nat) (List Nat) → Prop
  | done {path order : List Nat} : Search waits path order [] (.ok order)
  | known {path order rest : List Nat} {index : Nat} {result : Except (List Nat) (List Nat)}
      (hknown : index ∈ order) (hrest : Search waits path order rest result) :
      Search waits path order (index :: rest) result
  | closed {path order rest : List Nat} {index : Nat} (hnew : index ∉ order)
      (hpath : index ∈ path) :
      Search waits path order (index :: rest) (.error (circleAt path index))
  | visited {path order order' rest : List Nat} {index : Nat}
      {result : Except (List Nat) (List Nat)} (hnew : index ∉ order) (hpath : index ∉ path)
      (hbelow : Search waits (index :: path) order (predecessors waits index) (.ok order'))
      (hrest : Search waits path (order' ++ [index]) rest result) :
      Search waits path order (index :: rest) result
  | failed {path order rest circle : List Nat} {index : Nat} (hnew : index ∉ order)
      (hpath : index ∉ path)
      (hbelow : Search waits (index :: path) order (predecessors waits index) (.error circle)) :
      Search waits path order (index :: rest) (.error circle)

variable {path indices : List Nat}

/-- Distinct numbers below a bound are not more than the bound. -/
theorem length_le_of_nodup {count : Nat} (hnodup : path.Nodup) (hpath : ∀ i ∈ path, i < count) :
    path.length ≤ count := by
  have hsub : path ⊆ List.range count := fun i hi => List.mem_range.2 (hpath i hi)
  simpa using (hnodup.subperm hsub).length_le

/-- Visiting passes in turn is a search. The path and the room together always exceed the number of
passes, so that there is room left whenever a pass is visited. -/
theorem search_foldlM_visit {count : Nat} (hwaits : ∀ w ∈ waits, w.earlier < count) (room : Nat)
    (path order indices : List Nat) (hnodup : path.Nodup) (hpath : ∀ i ∈ path, i < count)
    (hindices : ∀ i ∈ indices, i < count) (hroom : count < path.length + room) :
    Search waits path order indices (indices.foldlM (visit waits room path) order) := by
  induction room generalizing path order indices with
  | zero =>
    have hshort := length_le_of_nodup hnodup hpath
    omega
  | succ room ihroom =>
    induction indices generalizing order with
    | nil => exact .done
    | cons index rest ih =>
      have hrest := fun order' => ih order' fun i hi => hindices i (by simp [hi])
      rw [List.foldlM_cons, visit]
      by_cases hknown : index ∈ order
      · rw [if_pos hknown]
        exact .known hknown (hrest order)
      rw [if_neg hknown]
      by_cases hmet : index ∈ path
      · rw [if_pos hmet]
        exact .closed hknown hmet
      rw [if_neg hmet]
      -- The pass goes on the path, which gets longer by as much as the room gets smaller.
      have hbelow := ihroom (index :: path) order (predecessors waits index) (hnodup.cons hmet)
        (by simpa using ⟨hindices index (by simp), hpath⟩)
        (fun i hi => hwaits _ (mem_predecessors.1 hi))
        (by simp only [List.length_cons]; omega)
      cases hresult : (predecessors waits index).foldlM (visit waits room (index :: path)) order
        with
      | error circle =>
        rw [hresult] at hbelow
        exact .failed hknown hmet hbelow
      | ok order' =>
        rw [hresult] at hbelow
        exact .visited hknown hmet hbelow (hrest (order' ++ [index]))

/-! ### Orders -/

/-- An order in which no pass stands twice and each stands behind the passes it waits for. -/
structure Ordered (waits : List Wait) (order : List Nat) : Prop where
  nodup : order.Nodup
  behind : ∀ done index rest, order = done ++ index :: rest →
    ∀ earlier, WaitsFor waits index earlier → earlier ∈ done

theorem ordered_nil (waits : List Wait) : Ordered waits [] := by
  constructor
  · exact List.nodup_nil
  · intro done index rest h
    simp at h

theorem Ordered.concat {order : List Nat} (h : Ordered waits order) (hnew : index ∉ order)
    (hearlier : ∀ earlier, WaitsFor waits index earlier → earlier ∈ order) :
    Ordered waits (order ++ [index]) := by
  constructor
  · exact List.nodup_append.2 ⟨h.nodup, by simp, by grind⟩
  · intro done other rest heq
    -- Either it is the new pass that is looked at, or the split is one of the old order.
    rcases List.eq_nil_or_concat rest with hrest | ⟨rest', last, hrest⟩
    · subst hrest
      obtain ⟨hdone, hother⟩ := List.append_inj' heq rfl
      simp only [List.cons.injEq, and_true] at hother
      subst hdone hother
      exact hearlier
    · subst hrest
      have hsplit : order ++ [index] = (done ++ other :: rest') ++ [last] := by simpa using heq
      exact h.behind done other rest' (List.append_inj' hsplit rfl).1

section ordered

variable {waits : List Wait} {order : List Nat} (h : Ordered waits order)

include h

theorem Ordered.idxOf_lt (hindex : index ∈ order) (hwait : WaitsFor waits index earlier) :
    earlier ∈ order ∧ order.idxOf earlier < order.idxOf index := by
  obtain ⟨done, rest, rfl, hnew⟩ := List.eq_append_cons_of_mem hindex
  have hdone := h.behind done index rest rfl earlier hwait
  have hlt : done.idxOf earlier < done.length := List.idxOf_lt_length_iff.2 hdone
  rw [List.idxOf_append_of_mem hdone, List.idxOf_append_of_notMem hnew]
  exact ⟨by simp [hdone], by omega⟩

theorem Ordered.idxOf_lt_of_transGen (hindex : index ∈ order)
    (hwait : Relation.TransGen (WaitsFor waits) index earlier) :
    earlier ∈ order ∧ order.idxOf earlier < order.idxOf index := by
  induction hwait with
  | single hstep => exact h.idxOf_lt hindex hstep
  | tail _ hstep ih =>
    have hlast := h.idxOf_lt ih.1 hstep
    exact ⟨hlast.1, hlast.2.trans ih.2⟩

theorem Ordered.not_waits_for_itself (hindex : index ∈ order) :
    ¬ Relation.TransGen (WaitsFor waits) index index := by
  intro hwait
  exact Nat.lt_irrefl _ (h.idxOf_lt_of_transGen hindex hwait).2

end ordered

/-! ### What a search ends in -/

/-- A search that finds an order keeps the order so far at its front, adds the passes asked for, and
adds none of the path: those are still waiting. -/
theorem Search.ordered {order final : List Nat} (h : Search waits path order indices (.ok final))
    (horder : Ordered waits order) (hpath : ∀ i ∈ path, i ∉ order) :
    Ordered waits final ∧ order ⊆ final ∧ indices ⊆ final ∧ ∀ i ∈ path, i ∉ final := by
  generalize hresult : Except.ok final = result at h
  induction h generalizing final with
  | done =>
    cases hresult
    exact ⟨horder, List.Subset.refl _, List.nil_subset _, hpath⟩
  | known hknown _ ih =>
    obtain ⟨hfinal, hold, hrest, hfree⟩ := ih horder hpath hresult
    exact ⟨hfinal, hold, List.cons_subset.2 ⟨hold hknown, hrest⟩, hfree⟩
  | closed => cases hresult
  | failed => cases hresult
  | @visited path order order' rest index result hnew hmet _ _ ihbelow ihrest =>
    obtain ⟨hbelow, holdbelow, hearlier, hfreebelow⟩ :=
      ihbelow horder (by simpa using ⟨hnew, hpath⟩) rfl
    have hindex : index ∉ order' := hfreebelow index (by simp)
    have hnext : Ordered waits (order' ++ [index]) := hbelow.concat hindex fun i hi => hearlier hi
    have hfreenext : ∀ i ∈ path, i ∉ order' ++ [index] := by
      intro i hi
      have hne : i ≠ index := fun heq => hmet (heq ▸ hi)
      simpa [hne] using hfreebelow i (by simp [hi])
    obtain ⟨hfinal, hold, hrest, hfree⟩ := ihrest hnext hfreenext hresult
    have hbehind : order' ⊆ final := fun i hi => hold (by simp [hi])
    exact ⟨hfinal, List.Subset.trans holdbelow hbehind, List.cons_subset.2 ⟨hold (by simp), hrest⟩,
      hfree⟩

theorem Search.mem_reachable {order final : List Nat}
    (h : Search waits path order indices (.ok final)) :
    ∀ i ∈ final, i ∈ order ∨ ∃ start ∈ indices, Relation.ReflTransGen (WaitsFor waits) start i := by
  generalize hresult : Except.ok final = result at h
  induction h generalizing final with
  | done =>
    cases hresult
    intro i hi
    exact .inl hi
  | known _ _ ih =>
    intro i hi
    rcases ih hresult i hi with hold | ⟨start, hstart, hreach⟩
    · exact .inl hold
    · exact .inr ⟨start, by simp [hstart], hreach⟩
  | closed => cases hresult
  | failed => cases hresult
  | @visited path order order' rest index result _ _ _ _ ihbelow ihrest =>
    intro i hi
    rcases ihrest hresult i hi with hold | ⟨start, hstart, hreach⟩
    · rcases List.mem_append.1 hold with hbelow | hlast
      · rcases ihbelow rfl i hbelow with hold' | ⟨earlier, hearlier, hreach⟩
        · exact .inl hold'
        · exact .inr ⟨index, by simp, .head hearlier hreach⟩
      · exact .inr ⟨index, by simp, by rw [List.mem_singleton.1 hlast]⟩
    · exact .inr ⟨start, by simp [hstart], hreach⟩

/-- Where a pass is met on the path that waits for it, the part of the path down to it is a
circle. -/
theorem isCircle_circleAt (hnodup : path.Nodup)
    (hchain : path.IsChain fun nearer farther => WaitsFor waits farther nearer)
    (hpath : index ∈ path) (hhead : ∀ head ∈ path.head?, WaitsFor waits head index) :
    IsCircle (WaitsFor waits) (circleAt path index) := by
  obtain ⟨above, below, rfl, hnew⟩ := List.eq_append_cons_of_mem hpath
  have htake : (above ++ index :: below).takeWhile (· ≠ index) = above := by
    rw [List.takeWhile_append_of_pos (by grind)]
    simp
  have hnodup' : (index :: above).Nodup := by
    have hfront : above.Nodup := hnodup.sublist (List.sublist_append_left _ _)
    exact hfront.cons hnew
  refine ⟨index, above.reverse, by rw [circleAt, htake], ?_, ?_⟩
  · simpa [List.nodup_cons] using hnodup'
  · -- Read backwards it is the path's own chain, with the pass that was met again in front of it.
    rw [circleAt, htake]
    have hback : (index :: above.reverse ++ [index]) = (index :: (above ++ [index])).reverse := by
      simp
    rw [hback, List.isChain_reverse, List.isChain_cons]
    constructor
    · intro head hh
      apply hhead
      cases above with
      | nil => simpa using hh
      | cons nearest rest => simpa using hh
    · have hpath : (above ++ [index] ++ below).IsChain fun nearer farther =>
          WaitsFor waits farther nearer := by
        simpa using hchain
      exact hpath.left_of_append

/-- A search that fails has found a circle. The path is a chain of waits that the passes in turn
continue. -/
theorem Search.isCircle {order circle : List Nat}
    (h : Search waits path order indices (.error circle)) (hnodup : path.Nodup)
    (hchain : path.IsChain fun nearer farther => WaitsFor waits farther nearer)
    (hindices : ∀ head ∈ path.head?, ∀ i ∈ indices, WaitsFor waits head i) :
    IsCircle (WaitsFor waits) circle := by
  generalize hresult : Except.error circle = result at h
  induction h generalizing circle with
  | done => cases hresult
  | known _ _ ih =>
    exact ih hnodup hchain (fun head hhead i hi => hindices head hhead i (by simp [hi])) hresult
  | closed _ hpath =>
    cases hresult
    exact isCircle_circleAt hnodup hchain hpath fun head hhead => hindices head hhead _ (by simp)
  | visited _ _ _ _ _ ihrest =>
    exact ihrest hnodup hchain (fun head hhead i hi => hindices head hhead i (by simp [hi])) hresult
  | @failed path order rest circle index _ hmet _ ihbelow =>
    apply ihbelow (hnodup.cons hmet) _ _ hresult
    · exact List.isChain_cons.2 ⟨fun head hhead => hindices head hhead index (by simp), hchain⟩
    · intro head hhead i hi
      cases hhead
      exact hi

end CobolCompiler.Schedule
