import Mathlib.Data.Nat.ModEq
import Vyre.Optimizer.DivMagic

/-!
# Arithmetic modulo the transform's prime

The expressions with which `hash/ntt.rs` multiplies modulo its prime on 32-bit words:
`mod_mul_expr` goes through Montgomery form.
-/

namespace Vyre.Ntt

open Reference StrengthReduce UInt32 Nat

/-- `998244353 = 119 * 2^23 + 1`. -/
def primeP : UInt32 := 998244353

def montgomeryR2 : UInt32 := 932051910

def montgomeryNPrime : UInt32 := 998244351

/-! ## Montgomery multiplication -/

def montgomeryReduceProductExpr (left right : Expr) : Expr :=
  let lo := Expr.mul left right
  let hi := Expr.mulhi left right
  let m := Expr.mul lo (.u32 montgomeryNPrime)
  let mpLo := Expr.mul m (.u32 primeP)
  let mpHi := Expr.mulhi m (.u32 primeP)
  let lowSum := Expr.add lo mpLo
  let carry := Expr.select (.lt lowSum lo) (.u32 1) (.u32 0)
  let reduced := Expr.add (.add hi mpHi) carry
  .select (.ge reduced (.u32 primeP)) (.sub reduced (.u32 primeP)) reduced

def modMulExpr (left right : Expr) : Expr :=
  let leftMont := montgomeryReduceProductExpr left (.u32 montgomeryR2)
  let rightMont := montgomeryReduceProductExpr right (.u32 montgomeryR2)
  let productMont := montgomeryReduceProductExpr leftMont rightMont
  montgomeryReduceProductExpr productMont (.u32 1)

def montgomeryReduceProduct (x y : UInt32) : UInt32 :=
  let m := x * y * montgomeryNPrime
  let carry := if x * y + m * primeP < x * y then 1 else 0
  let reduced :=
    ofNat (x.toNat * y.toNat / 2 ^ 32) + ofNat (m.toNat * primeP.toNat / 2 ^ 32) + carry
  if reduced ≥ primeP then reduced - primeP else reduced

variable {host : Host} {lane : Lane} {m : Memory} {left right : Expr} {x y a b : UInt32}

theorem gives_montgomeryReduceProductExpr (hl : Gives host lane m left (.u32 x))
    (hr : Gives host lane m right (.u32 y)) :
    Gives host lane m (montgomeryReduceProductExpr left right)
      (.u32 (montgomeryReduceProduct x y)) := by
  have hselect {c l r : Expr} {k : Prop} [Decidable k] {a b : UInt32}
      (hc : Gives host lane m c (.bool k)) (hl : Gives host lane m l (.u32 a))
      (hr : Gives host lane m r (.u32 b)) :
      Gives host lane m (.select c l r) (.u32 (if k then a else b)) := by
    have h := hc.select hl hr
    by_cases hk : k <;> simpa [hk] using h
  have hlo := hl.mul hr
  have hm := hlo.mul (.u32 montgomeryNPrime)
  have hcarry := hselect ((hlo.add (hm.mul (.u32 primeP))).lt hlo) (.u32 1) (.u32 0)
  have hreduced := ((gives_mulhi hl hr).add (gives_mulhi hm (.u32 primeP))).add hcarry
  exact hselect (hreduced.binOp (.u32 primeP) rfl) (hreduced.sub (.u32 primeP)) hreduced

/-- The multiple of the prime that is added makes the lower word zero, so that the upper words
and the carry are the quotient by `2 ^ 32`. -/
theorem reduced_words {n k : Nat} (hn : n < 998244353 * 2 ^ 32)
    (hk : k = n % 2 ^ 32 * 998244351 % 2 ^ 32) :
    (n % 2 ^ 32 + k * 998244353 % 2 ^ 32) % 2 ^ 32 = 0 ∧
      (n / 2 ^ 32 + k * 998244353 / 2 ^ 32 + if 0 < n % 2 ^ 32 then 1 else 0) * 2 ^ 32 =
        n + k * 998244353 := by
  have hzero : (n % 2 ^ 32 + k * 998244353 % 2 ^ 32) % 2 ^ 32 = 0 := by omega
  refine ⟨hzero, ?_⟩
  split <;> omega

theorem montgomeryReduceProduct_spec (hxy : x.toNat * y.toNat < 998244353 * 2 ^ 32) :
    (montgomeryReduceProduct x y).toNat < 998244353 ∧
      (montgomeryReduceProduct x y).toNat * 2 ^ 32 ≡ x.toNat * y.toNat [MOD 998244353] := by
  have hprime : primeP.toNat = 998244353 := rfl
  have hlo : (x * y).toNat = x.toNat * y.toNat % 2 ^ 32 := UInt32.toNat_mul x y
  have hm : (x * y * montgomeryNPrime).toNat = x.toNat * y.toNat % 2 ^ 32 * 998244351 % 2 ^ 32 := by
    rw [UInt32.toNat_mul, hlo]
    rfl
  obtain ⟨hzero, hwords⟩ := reduced_words hxy hm
  obtain ⟨t, ht, heq⟩ : ∃ t : UInt32, t.toNat * 2 ^ 32 =
      x.toNat * y.toNat + (x * y * montgomeryNPrime).toNat * 998244353 ∧
      montgomeryReduceProduct x y = if t ≥ primeP then t - primeP else t := by
    refine ⟨_, ?_, rfl⟩
    rw [← hwords, UInt32.toNat_add, UInt32.toNat_add, toNat_mulhi, toNat_mulhi, hprime,
      apply_ite UInt32.toNat, UInt32.toNat_one, UInt32.toNat_zero]
    simp only [UInt32.lt_iff_toNat_lt, UInt32.toNat_add,
      UInt32.toNat_mul (_ * _) primeP, hlo, hprime,
      hzero]
    congr 1
    split <;> omega
  rw [heq]
  have hcongr : t.toNat * 2 ^ 32 ≡ x.toNat * y.toNat [MOD 998244353] := by
    rw [ht]
    exact Nat.add_mul_mod_self_right _ _ _
  split
  · rename_i hge
    have hle : 998244353 ≤ t.toNat := hge
    rw [UInt32.toNat_sub_of_le _ _ hge, hprime]
    refine ⟨by omega, Nat.ModEq.trans ?_ hcongr⟩
    refine Nat.ModEq.mul_right _ (Nat.ModEq.symm ?_)
    exact Nat.mod_eq_sub_mod hle
  · rename_i hlt
    exact ⟨Nat.lt_of_not_le hlt, hcongr⟩

/-- For operands below the prime the expression gives their product modulo the prime. -/
theorem modMulExpr_exact (hl : Gives host lane m left (.u32 a))
    (hr : Gives host lane m right (.u32 b)) (ha : a < primeP) (hb : b < primeP) :
    Gives host lane m (modMulExpr left right) (.u32 (ofNat (a.toNat * b.toNat % 998244353))) := by
  have hcancel {s t : Nat} (h : s * 2 ^ 32 ≡ t * 2 ^ 32 [MOD 998244353]) : s ≡ t [MOD 998244353] :=
    h.cancel_right_of_coprime (by decide)
  -- into Montgomery form
  have hmont {x : UInt32} (hx : x < primeP) :
      (montgomeryReduceProduct x montgomeryR2).toNat < 998244353 ∧
        (montgomeryReduceProduct x montgomeryR2).toNat ≡ x.toNat * 2 ^ 32 [MOD 998244353] := by
    obtain ⟨hlt, heq⟩ := montgomeryReduceProduct_spec (x := x) (y := montgomeryR2)
      (Nat.mul_lt_mul'' hx montgomeryR2.toNat_lt)
    have hsquare : montgomeryR2.toNat ≡ 2 ^ 32 * 2 ^ 32 [MOD 998244353] := by decide
    refine ⟨hlt, hcancel (heq.trans ?_)⟩
    rw [Nat.mul_assoc]
    exact hsquare.mul_left _
  obtain ⟨hla, hma⟩ := hmont ha
  obtain ⟨hlb, hmb⟩ := hmont hb
  have hp := montgomeryReduceProduct_spec (Nat.mul_lt_mul'' hla (hlb.trans (by decide)))
  have hproduct : (montgomeryReduceProduct (montgomeryReduceProduct a montgomeryR2)
      (montgomeryReduceProduct b montgomeryR2)).toNat ≡ a.toNat * b.toNat * 2 ^ 32
        [MOD 998244353] := by
    refine hcancel (hp.2.trans ((hma.mul hmb).trans ?_))
    rw [Nat.mul_mul_mul_comm, ← Nat.mul_assoc]
  -- and back
  have hf := montgomeryReduceProduct_spec (y := 1) (Nat.mul_lt_mul'' hp.1 (by decide))
  have hvalue := hcancel (hf.2.trans (by rw [UInt32.toNat_one, Nat.mul_one]; exact hproduct))
  have h := gives_montgomeryReduceProductExpr (gives_montgomeryReduceProductExpr
    (gives_montgomeryReduceProductExpr hl (.u32 montgomeryR2))
    (gives_montgomeryReduceProductExpr hr (.u32 montgomeryR2))) (.u32 1)
  rw [Nat.mod_eq_of_modEq hvalue.symm hf.1, UInt32.ofNat_toNat]
  exact h

theorem modMulExpr_exact_greatest : (998244352 : UInt32) < primeP ∧
    ∀ (host : Host) (lane : Lane) (m : Memory),
      Gives host lane m (modMulExpr (.u32 998244352) (.u32 998244352)) (.u32 1) :=
  ⟨by decide, fun _ _ _ => modMulExpr_exact (.u32 _) (.u32 _) (by decide) (by decide)⟩

end Vyre.Ntt
