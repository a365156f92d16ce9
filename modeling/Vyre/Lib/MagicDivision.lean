import Mathlib.Tactic.Ring

/-!
# Division by multiplication

A quotient `n / d` can be computed as `n * M / P` when `M` is `P / d` rounded
up and `P` is large enough for the rounding error not to reach the next
quotient. How large is enough is decided by the largest dividend `nc` that
leaves the remainder `d - 1`.

The module also has what a search for `P` needs that doubles it step by step
and keeps quotients and remainders instead of dividing again, and the two ways
of computing `n * M / P` in words of a fixed width.
-/

namespace MagicDivision

section Double

variable {x d b : Nat}

/-- The digit that doubling the dividend, and adding `b`, adds to the quotient. -/
def carry (x d b : Nat) : Nat := if d ≤ 2 * (x % d) + b then 1 else 0

theorem double_eq (x d b : Nat) : 2 * x + b = d * (2 * (x / d)) + (2 * (x % d) + b) := by
  have h := Nat.div_add_mod x d
  calc 2 * x + b = 2 * (d * (x / d) + x % d) + b := by rw [h]
    _ = d * (2 * (x / d)) + (2 * (x % d) + b) := by ring

theorem double_rest (hd : 0 < d) (hb : b ≤ 1) :
    (2 * (x % d) + b) / d = carry x d b ∧
      (2 * (x % d) + b) % d = 2 * (x % d) + b - d * carry x d b := by
  have hr := Nat.mod_lt x hd
  unfold carry
  split
  case isTrue hc =>
    have hlt : 2 * (x % d) + b - d < d := by omega
    rw [Nat.div_eq_sub_div hd hc, Nat.div_eq_of_lt hlt, Nat.mod_eq_sub_mod hc, Nat.mod_eq_of_lt hlt]
    exact ⟨rfl, by omega⟩
  case isFalse hc =>
    have hlt : 2 * (x % d) + b < d := by omega
    rw [Nat.div_eq_of_lt hlt, Nat.mod_eq_of_lt hlt]
    exact ⟨rfl, by omega⟩

theorem double_div (hd : 0 < d) (hb : b ≤ 1) : (2 * x + b) / d = 2 * (x / d) + carry x d b := by
  rw [double_eq x d b, Nat.mul_add_div hd, (double_rest hd hb).1]

theorem double_mod (hd : 0 < d) (hb : b ≤ 1) :
    (2 * x + b) % d = 2 * (x % d) + b - d * carry x d b := by
  rw [double_eq x d b, Nat.mul_add_mod, (double_rest hd hb).2]

end Double

/-- `P / d`, rounded up. -/
def magic (P d : Nat) : Nat := (P - 1) / d + 1

/-- By how much `magic P d * d` exceeds `P`. -/
def excess (P d : Nat) : Nat := d - 1 - (P - 1) % d

section Magic

variable {P d n nc W : Nat}

theorem magic_mul (hd : 0 < d) (hP : 0 < P) : magic P d * d = P + excess P d := by
  have h := Nat.div_add_mod (P - 1) d
  have hr := Nat.mod_lt (P - 1) hd
  have hmul : magic P d * d = d * ((P - 1) / d) + d := by
    unfold magic
    ring
  unfold excess
  omega

theorem magic_double (hd : 0 < d) (hP : 0 < P) :
    magic (2 * P) d = 2 * ((P - 1) / d) + carry (P - 1) d 1 + 1 := by
  have h : 2 * P - 1 = 2 * (P - 1) + 1 := by omega
  unfold magic
  rw [h, double_div hd (Nat.le_refl 1)]

theorem carry_le (x d b : Nat) : carry x d b ≤ 1 := by
  unfold carry
  split <;> omega

theorem magic_double_le (hd : 0 < d) (hP : 0 < P) : magic (2 * P) d ≤ 2 * magic P d := by
  have hc := carry_le (P - 1) d 1
  rw [magic_double hd hP]
  unfold magic
  omega

/-- The product with the magic number has the quotient in its upper part, as long
as the error made by rounding stays below what is missing to the next quotient. -/
theorem mul_magic_div (hd : 0 < d) (hP : 0 < P) (herr : n * excess P d < (d - n % d) * P) :
    n * magic P d / P = n / d := by
  have hmul := magic_mul hd hP
  have hn := Nat.div_add_mod n d
  have hr := Nat.mod_lt n hd
  have hprod : n * magic P d * d = n * P + n * excess P d := by
    rw [Nat.mul_assoc, hmul, Nat.mul_add]
  apply Nat.div_eq_of_lt_le
  · -- the quotient is reached
    apply Nat.le_of_mul_le_mul_right (c := d) _ hd
    calc n / d * P * d = d * (n / d) * P := by ring
      _ ≤ n * P := Nat.mul_le_mul_right P (by omega)
      _ ≤ n * magic P d * d := by omega
  · -- and not exceeded
    apply Nat.lt_of_mul_lt_mul_right (a := d)
    calc n * magic P d * d < n * P + (d - n % d) * P := by omega
      _ = (n + (d - n % d)) * P := (Nat.add_mul _ _ _).symm
      _ = (d * (n / d) + d) * P := by rw [show n + (d - n % d) = d * (n / d) + d by omega]
      _ = (n / d + 1) * P * d := by ring

/-- The error is small for every dividend below `nc + d` once it is small for
`nc`, the last of the remainder classes to be tested. -/
theorem mul_excess_lt (hd : 0 < d) (hnc : nc % d = d - 1) (hn : n < nc + d)
    (herr : excess P d * nc < P) : n * excess P d < (d - n % d) * P := by
  have hr := Nat.mod_lt n hd
  by_cases hle : n ≤ nc
  · calc n * excess P d ≤ nc * excess P d := Nat.mul_le_mul_right _ hle
      _ = excess P d * nc := Nat.mul_comm _ _
      _ < P := herr
      _ ≤ (d - n % d) * P := Nat.le_mul_of_pos_left P (by omega)
  · -- above `nc` the remainder is at most `d - 2`
    have hq := Nat.div_add_mod nc d
    have hsplit : n = d * (nc / d + 1) + (n - nc - 1) := by
      rw [Nat.mul_add]
      omega
    have hmod : n % d = n - nc - 1 := by
      rw [hsplit, Nat.mul_add_mod, Nat.mod_eq_of_lt (by omega)]
      omega
    calc n * excess P d ≤ (2 * nc) * excess P d := Nat.mul_le_mul_right _ (by omega)
      _ = 2 * (excess P d * nc) := by ring
      _ < 2 * P := by omega
      _ ≤ (d - n % d) * P := Nat.mul_le_mul_right P (by omega)

theorem mul_magic_div_of_lt (hd : 0 < d) (hP : 0 < P) (hnc : nc % d = d - 1) (hn : n < nc + d)
    (herr : excess P d * nc < P) : n * magic P d / P = n / d :=
  mul_magic_div hd hP (mul_excess_lt hd hnc hn herr)

/-- The bound is met by a quotient of `P` by `nc` above the excess, or equal to it
with something left over. -/
theorem excess_mul_lt (h : excess P d < P / nc ∨ (excess P d = P / nc ∧ P % nc ≠ 0)) :
    excess P d * nc < P := by
  have hP := Nat.div_add_mod P nc
  have hcomm := Nat.mul_comm nc (P / nc)
  rcases h with hlt | ⟨heq, hne⟩
  · have hpos : 0 < nc := by
      apply Nat.pos_of_ne_zero
      rintro rfl
      omega
    have := Nat.mul_le_mul_right nc (Nat.succ_le_of_lt hlt)
    rw [Nat.succ_mul] at this
    omega
  · rw [heq]
    omega

/-- A multiplier one bit too long: the upper word of the product with its lower
part, averaged with the dividend, so that the sum stays in the word. -/
theorem mul_div_average {M m s t : Nat} (hW : 0 < W) (hM : M = W + m) (ht : t = n * m / W)
    (hmW : m ≤ W) :
    (t + (n - t) / 2) / s = n * M / (W * (2 * s)) := by
  have hle : t ≤ n := by
    rw [ht]
    exact Nat.div_le_of_le_mul (by rw [Nat.mul_comm]; exact Nat.mul_le_mul_right n hmW)
  have hhalf : t + (n - t) / 2 = (n + t) / 2 := by omega
  have hsum : n * M / W = n + t := by
    rw [hM, Nat.mul_add, Nat.mul_comm n W, Nat.mul_add_div hW, ht]
  rw [hhalf, ← Nat.div_div_eq_div_mul, hsum, Nat.div_div_eq_div_mul]

end Magic

end MagicDivision
