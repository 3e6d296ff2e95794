import Mathlib.Data.Int.Basic
import Mathlib.Tactic.Common

/-!
# Clocks that wrap around

A clock kept as a signed integer modulo `m` shows `t` as `Int.bmod t m`, and has
wrapped around `Int.bdiv t m` times by then. Differences of close readings are the
time that has passed (`elapsed_eq`). The readings themselves are in the order of the
times exactly when the clock has not wrapped around in between (`compared_iff`).
-/
namespace TcpLearn.Periods

variable {m : Nat} {x y : Int}

/-- The difference of two readings, wrapped around itself. -/
theorem elapsed_eq (before : y ≤ x) (near : x < y + m / 2) : Int.bmod (Int.bmod x m - Int.bmod y m) m = x - y := by
  rw [Int.bmod_sub_bmod, Int.sub_bmod_bmod]
  apply Int.bmod_eq_of_le
  · omega
  · omega

/-- After one more period the reading is less, however close the times are. -/
theorem compared_wrong (positive : 0 < m) (near : y < x + m) (wrapped : Int.bdiv x m < Int.bdiv y m) :
    x < y ∧ Int.bmod y m < Int.bmod x m := by
  have shown := Int.bmod_add_bdiv x m
  have shown' := Int.bmod_add_bdiv y m
  have low := Int.le_bmod (x := x) positive
  have high := Int.bmod_lt (x := x) positive
  have low' := Int.le_bmod (x := y) positive
  have high' := Int.bmod_lt (x := y) positive
  have period : (m : Int) * Int.bdiv x m + m ≤ m * Int.bdiv y m := by
    calc (m : Int) * Int.bdiv x m + m = m * (Int.bdiv x m + 1) := by rw [Int.mul_add, Int.mul_one]
      _ ≤ m * Int.bdiv y m := Int.mul_le_mul_of_nonneg_left wrapped (Int.natCast_nonneg m)
  constructor <;> omega

/-- Times less than `m` apart are compared right by their readings exactly when the
    clock has wrapped around as often at both. -/
theorem compared_iff (positive : 0 < m) (near : x < y + m) (near' : y < x + m) :
    (Int.bmod x m < Int.bmod y m ↔ x < y) ↔ Int.bdiv x m = Int.bdiv y m := by
  rcases Int.lt_trichotomy (Int.bdiv x m) (Int.bdiv y m) with wrapped | same | wrapped
  · obtain ⟨before, shown⟩ := compared_wrong positive near' wrapped
    exact iff_of_false (fun right => absurd (right.mpr before) (by omega)) (Int.ne_of_lt wrapped)
  · have shown := Int.bmod_add_bdiv x m
    have shown' := Int.bmod_add_bdiv y m
    rw [same] at shown
    refine iff_of_true ?_ same
    constructor <;> intro before <;> omega
  · obtain ⟨after, shown⟩ := compared_wrong positive near wrapped
    exact iff_of_false (fun right => absurd (right.mp shown) (by omega)) (Int.ne_of_lt wrapped).symm

end TcpLearn.Periods
