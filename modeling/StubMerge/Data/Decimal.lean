/-!
# Decimal numbers

A `Decimal` is a coefficient times a power of ten. `reaches` compares one with a whole bound. It
never builds a power of ten that the comparison does not need, so an exponent with many digits
costs nothing; `reaches_ofNat` and `reaches_negSucc` say that the answer is that of the plain
comparison.
-/

namespace StubMerge

/-- The number `coefficient * 10 ^ exponent`. -/
structure Decimal where
  coefficient : Nat
  exponent : Int
deriving DecidableEq, Repr, Inhabited

namespace Decimal

/-- From this exponent on, powers of ten are larger than the number. -/
def enough (n : Nat) : Nat := n.log2 + 1

/-- Whether a decimal number is at least as large as a bound. -/
def reaches (d : Decimal) (bound : Nat) : Bool :=
  match d.exponent with
  | .ofNat e => bound ≤ d.coefficient * Nat.pow 10 (min e (enough bound))
  | .negSucc e => bound * Nat.pow 10 (min (e + 1) (enough d.coefficient)) ≤ d.coefficient

theorem lt_pow_of_enough_le {n e : Nat} (h : enough n ≤ e) : n < Nat.pow 10 e :=
  calc n < Nat.pow 2 (enough n) := Nat.lt_log2_self
    _ ≤ Nat.pow 10 (enough n) := Nat.pow_le_pow_left (by decide) _
    _ ≤ Nat.pow 10 e := Nat.pow_le_pow_right (by decide) h

/-- A factor that is larger than the bound can be cut down to one that still is. -/
theorem le_mul_pow_min (bound c e : Nat) :
    bound ≤ c * Nat.pow 10 (min e (enough bound)) ↔ bound ≤ c * Nat.pow 10 e := by
  rcases Nat.le_total e (enough bound) with h | h
  · rw [Nat.min_eq_left h]
  · rw [Nat.min_eq_right h]
    rcases Nat.eq_zero_or_pos c with rfl | hc
    · simp only [Nat.zero_mul]
    · have near := lt_pow_of_enough_le (Nat.le_refl (enough bound))
      have far := lt_pow_of_enough_le h
      exact ⟨fun _ => Nat.le_trans (Nat.le_of_lt far) (Nat.le_mul_of_pos_left _ hc),
        fun _ => Nat.le_trans (Nat.le_of_lt near) (Nat.le_mul_of_pos_left _ hc)⟩

theorem mul_pow_min_le (bound c e : Nat) :
    bound * Nat.pow 10 (min e (enough c)) ≤ c ↔ bound * Nat.pow 10 e ≤ c := by
  rcases Nat.le_total e (enough c) with h | h
  · rw [Nat.min_eq_left h]
  · rw [Nat.min_eq_right h]
    rcases Nat.eq_zero_or_pos bound with rfl | hb
    · simp only [Nat.zero_mul]
    · have near := lt_pow_of_enough_le (Nat.le_refl (enough c))
      have far := lt_pow_of_enough_le h
      refine ⟨fun le => absurd ?_ (Nat.lt_irrefl c), fun le => absurd ?_ (Nat.lt_irrefl c)⟩
      · exact Nat.lt_of_lt_of_le near (Nat.le_trans (Nat.le_mul_of_pos_left _ hb) le)
      · exact Nat.lt_of_lt_of_le far (Nat.le_trans (Nat.le_mul_of_pos_left _ hb) le)

/-- With a power of ten as a factor, the bound is compared with the product. -/
theorem reaches_ofNat (c e bound : Nat) :
    reaches ⟨c, .ofNat e⟩ bound = true ↔ bound ≤ c * Nat.pow 10 e := by
  rw [reaches, decide_eq_true_iff, le_mul_pow_min]

/-- With a power of ten as a divisor, both sides are multiplied by it. -/
theorem reaches_negSucc (c e bound : Nat) :
    reaches ⟨c, .negSucc e⟩ bound = true ↔ bound * Nat.pow 10 (e + 1) ≤ c := by
  rw [reaches, decide_eq_true_iff, mul_pow_min_le]

end Decimal

end StubMerge
