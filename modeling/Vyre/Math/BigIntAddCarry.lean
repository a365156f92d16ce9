import Mathlib.Data.Nat.Digits.Defs
import Mathlib.Tactic.Linarith
import Vyre.Lib.Scratch

/-!
# Addition of big integers in two phases

`bigint_add_carry_cpu_into` adds limb by limb and records the carries,
`resolve_carry_chain_cpu_into` ripples them (`math/bigint_add_carry.rs`).
-/

namespace Vyre.BigInt

open List

/-- A caller's vector: its items, and how many fit without an allocation. -/
structure OutputVec where
  items : List UInt32
  capacity : Nat

inductive BigIntAddCarryError where
  | limbCountMismatch (aLen bLen : Nat)
  | splitCarryLengthMismatch (sumLen carryLen : Nat)
  | allocationFailed (operation message : String)

def reserveBigintOutput (alloc : Allocator) (out : OutputVec) (len : Nat) (operation : String) :
    Except BigIntAddCarryError Unit :=
  if out.capacity < len then
    (reserveGraphItems alloc (len - out.items.length) "bigint add-carry CPU oracle"
      operation).mapError (.allocationFailed operation)
  else .ok ()

/-- `u32::overflowing_add`, the flag as a word. -/
def overflowingAdd (x y : UInt32) : UInt32 × UInt32 :=
  (x + y, if 2 ^ 32 ≤ x.toNat + y.toNat then 1 else 0)

/-- The limbs and the carries of the first phase. -/
def bigintAddCarryCpuInto (alloc : Allocator) (a b : List UInt32)
    (sumPartial carryPartial : OutputVec) :
    Except BigIntAddCarryError (List UInt32 × List UInt32) := do
  if a.length ≠ b.length then .error (.limbCountMismatch a.length b.length)
  reserveBigintOutput alloc sumPartial a.length "sum_partial"
  reserveBigintOutput alloc carryPartial a.length "carry_partial"
  return (zipWith overflowingAdd a b).unzip

/-- The loop of the second phase, from the lowest limb on. -/
def resolveLimbs (carryIn : UInt32) : List (UInt32 × UInt32) → List UInt32 × UInt32
  | [] => ([], carryIn)
  | (sum, carry) :: rest =>
    let (withIn, overflowFromIn) := overflowingAdd sum carryIn
    let (finalSum, carryOut) := resolveLimbs (carry ||| overflowFromIn) rest
    (withIn :: finalSum, carryOut)

/-- The limbs of the sum and the carry out of the highest. -/
def resolveCarryChainCpuInto (alloc : Allocator) (sumPartial carryPartial : List UInt32)
    (finalSum : OutputVec) : Except BigIntAddCarryError (List UInt32 × UInt32) := do
  if sumPartial.length ≠ carryPartial.length then
    .error (.splitCarryLengthMismatch sumPartial.length carryPartial.length)
  reserveBigintOutput alloc finalSum sumPartial.length "final_sum"
  return resolveLimbs 0 (sumPartial.zip carryPartial)

/-- The number whose limbs these are, the lowest first. -/
def value (limbs : List UInt32) : Nat := Nat.ofDigits (2 ^ 32) (limbs.map UInt32.toNat)

theorem value_cons (x : UInt32) (xs : List UInt32) :
    value (x :: xs) = x.toNat + 2 ^ 32 * value xs := by
  simp [value, Nat.ofDigits_cons]

theorem value_lt (xs : List UInt32) : value xs < 2 ^ (32 * xs.length) := by
  have h := Nat.ofDigits_lt_base_pow_length (b := 2 ^ 32) (l := xs.map UInt32.toNat) (by decide)
    (by simpa using fun x _ => x.toNat_lt)
  rwa [length_map, ← Nat.pow_mul] at h

theorem limb_carry (x y : UInt32) {c : UInt32} (hc : c.toNat ≤ 1) :
    ((overflowingAdd x y).2 ||| (overflowingAdd (x + y) c).2).toNat ≤ 1 ∧
      x.toNat + y.toNat + c.toNat = (x + y + c).toNat +
        2 ^ 32 * ((overflowingAdd x y).2 ||| (overflowingAdd (x + y) c).2).toNat := by
  have hx := x.toNat_lt
  have hy := y.toNat_lt
  simp only [overflowingAdd, UInt32.toNat_add]
  -- A sum that overflowed is not the greatest limb, so the incoming carry fits.
  split_ifs <;> simp only [UInt32.or_self, UInt32.or_zero, UInt32.zero_or, UInt32.toNat_one,
    UInt32.toNat_zero] <;> omega

theorem resolveLimbs_cons (x y c : UInt32) (rest : List (UInt32 × UInt32)) :
    resolveLimbs c (overflowingAdd x y :: rest) =
      let (final, out) :=
        resolveLimbs ((overflowingAdd x y).2 ||| (overflowingAdd (x + y) c).2) rest
      ((x + y + c) :: final, out) := rfl

theorem resolveLimbs_value {a b : List UInt32} (hlen : a.length = b.length) {c : UInt32}
    (hc : c.toNat ≤ 1) {final : List UInt32} {out : UInt32}
    (h : resolveLimbs c (zipWith overflowingAdd a b) = (final, out)) :
    final.length = a.length ∧
      value a + value b + c.toNat = value final + 2 ^ (32 * a.length) * out.toNat := by
  induction a generalizing b c final with
  | nil =>
    obtain rfl := eq_nil_of_length_eq_zero hlen.symm
    cases h
    simp [value]
  | cons x a ih =>
    cases b with
    | nil => cases hlen
    | cons y b =>
      obtain ⟨hout, hlimb⟩ := limb_carry x y hc
      rw [zipWith_cons_cons, resolveLimbs_cons] at h
      cases h
      obtain ⟨hfinal, hvalue⟩ := ih (Nat.succ.inj hlen) hout rfl
      refine ⟨congrArg (· + 1) hfinal, ?_⟩
      rw [length_cons, value_cons, value_cons, value_cons, Nat.mul_succ, Nat.pow_add]
      linarith

theorem reserveBigintOutput_of_grants {alloc : Allocator} (h : alloc.Grants) (out : OutputVec)
    (len : Nat) (operation : String) : reserveBigintOutput alloc out len operation = .ok () := by
  rw [reserveBigintOutput, reserveGraphItems_of_grants h]
  split <;> rfl

/-- For operands of equally many limbs the two phases return the sum modulo the size of the
operands, and its carry. -/
theorem twoPhaseAdd_exact (alloc : Allocator) (halloc : alloc.Grants) (a b : List UInt32)
    (hlen : a.length = b.length) (sumOut carryOut finalOut : OutputVec) :
    ∃ sums carries final carry,
      bigintAddCarryCpuInto alloc a b sumOut carryOut = .ok (sums, carries) ∧
      resolveCarryChainCpuInto alloc sums carries finalOut = .ok (final, carry) ∧
      final.length = a.length ∧
      value final = (value a + value b) % 2 ^ (32 * a.length) ∧
      carry.toNat = (value a + value b) / 2 ^ (32 * a.length) := by
  cases hresolve : resolveLimbs 0 (zipWith overflowingAdd a b) with
  | mk final carry =>
    obtain ⟨hfinal, hvalue⟩ := resolveLimbs_value hlen (by decide) hresolve
    have hlt := value_lt final
    rw [hfinal] at hlt
    rw [UInt32.toNat_zero, Nat.add_zero] at hvalue
    refine ⟨(zipWith overflowingAdd a b).unzip.1,
      (zipWith overflowingAdd a b).unzip.2, final, carry,
      ?_, ?_, hfinal, ?_, ?_⟩
    · rw [bigintAddCarryCpuInto, if_neg (not_not.mpr hlen), reserveBigintOutput_of_grants halloc,
        reserveBigintOutput_of_grants halloc]
      rfl
    · rw [resolveCarryChainCpuInto, if_neg (by simp), reserveBigintOutput_of_grants halloc,
        zip_unzip, hresolve]
      rfl
    · rw [hvalue, Nat.add_mul_mod_self_left, Nat.mod_eq_of_lt hlt]
    · rw [hvalue, Nat.add_mul_div_left _ _ (by positivity), Nat.div_eq_of_lt hlt, Nat.zero_add]

theorem twoPhaseAdd_exact_carries :
    ∃ sums carries final carry,
      bigintAddCarryCpuInto (fun _ _ => none) [4294967295, 4294967295] [1, 0] ⟨[], 0⟩ ⟨[], 0⟩ =
        .ok (sums, carries) ∧
      resolveCarryChainCpuInto (fun _ _ => none) sums carries ⟨[], 0⟩ = .ok (final, carry) ∧
      final.length = 2 ∧ value final = 0 ∧ carry.toNat = 1 :=
  twoPhaseAdd_exact (fun _ _ => none) (fun _ _ => rfl) [4294967295, 4294967295] [1, 0] rfl
    ⟨[], 0⟩ ⟨[], 0⟩ ⟨[], 0⟩

end Vyre.BigInt
