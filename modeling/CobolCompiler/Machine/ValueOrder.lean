import CobolCompiler.Machine.Module
import Std.Data.TreeMap

/-!
# An order on values

Values are put in order so that they can be the keys of a map: first by their kind, then by their
parts. The order itself means nothing; what matters is that only a value itself is equal to it.
-/

namespace CobolCompiler.Machine.Value

/-- The number of a value's kind, and its parts. -/
def parts : Value → Nat × Nat × Nat × String
  | .comp2 bits => (0, bits.toNat, 0, "")
  | .comp4 precision scale digits => (1, precision.toNat, scale.toNat, digits)
  | .display text => (2, 0, 0, text)

/-- A value is known by its parts. -/
theorem eq_of_parts_eq {v w : Value} (h : v.parts = w.parts) : v = w := by
  cases v <;> cases w <;> simp_all [parts, UInt64.toNat_inj, UInt32.toNat_inj]

/-- Compare two values part by part. -/
def order : Value → Value → Ordering :=
  compareLex (compareOn (·.parts.1)) (compareLex (compareOn (·.parts.2.1))
    (compareLex (compareOn (·.parts.2.2.1)) (compareOn (·.parts.2.2.2))))

instance : Ord Value := ⟨order⟩

instance : Std.TransOrd Value := by
  change Std.TransCmp order
  unfold order
  infer_instance

instance : Std.LawfulEqOrd Value where
  eq_of_compare {v w} h := by
    apply eq_of_parts_eq
    change order v w = .eq at h
    simp only [order, compareLex_eq_eq, compareOn, Std.LawfulEqOrd.compare_eq_iff_eq] at h
    obtain ⟨kind, first, second, last⟩ := h
    exact Prod.ext kind (Prod.ext first (Prod.ext second last))

end CobolCompiler.Machine.Value
