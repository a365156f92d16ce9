import Vyre.Optimizer.FoldIdentities

/-!
# The rules of each operator

The arms of `simplify_binop`, operator by operator: what an arm returns evaluates
to the value of the operation, given the values of the operands. An arm that is
wrong in some case takes the negation of the case as a hypothesis.

Only expressions with a type are folded here, so equal operands are the same
expression and no arm for floats applies.
-/

namespace Vyre.ConstFold

open Reference StateExcept LiteralFold Option

/-! ## Typed expressions -/

section Typed

variable {env : ScalarEnv} {fingerprint : Fingerprint} {e l r : Expr}
  {t : ScalarType}

section

variable (h : typeOf env e = some t)

include h

theorem hasFields_of_typeOf : e.Forall Expr.HasFields :=
  (@forall_of_typeOf env e t Eq h).imp fun _ he => he.1

theorem foldNode_of_typeOf {floats : Floats} {fl : FoldFloats} :
    e.Forall (FoldNode floats fl) := by
  refine (@forall_of_typeOf env e t Eq h).imp fun node hnode => ?_
  unfold FoldNode
  split
  · exact hnode.1
  · exact (hnode.2.2 _ rfl).elim
  · trivial

theorem operand_of_typeOf {host : Host} {lane : Lane} {m : Memory} {v : Value} {fl : FoldFloats}
    (hv : Gives host lane m e v) : Operand host.floats fl e v := by
  refine operand_of_gives ?_ hv
  rintro bits rfl
  cases h

end

theorem eq_of_same (h : typeOf env l = some t) (hs : Expr.same fingerprint l r = true) : l = r :=
  Expr.eq_of_same (hasFields_of_typeOf h) hs

theorem same_self (h : typeOf env e = some t) : Expr.same fingerprint e e = true :=
  Expr.same_self (hasFields_of_typeOf h)

theorem isFloatExpr_eq_false (h : typeOf env e = some t) : isFloatExpr e = false := by
  induction e generalizing t with
  | binOp op left right ihl ihr =>
    obtain ⟨operand, hl, hr, -⟩ := typeOf_binOp.mp h
    simp [isFloatExpr, ihl hl, ihr hr]
  | unOp op operand ih =>
    obtain ⟨ty, ho, -⟩ := typeOf_unOp.mp h
    simp [isFloatExpr, ih ho]
  | cast target value ih =>
    obtain ⟨-, htarget⟩ := typeOf_cast.mp h
    cases target <;> first | rfl | cases htarget
  | litF32 bits | fma a b c => cases h
  | _ => rfl

variable {host : Host} {lane : Lane} {m : Memory} {a : Value}

section

variable (h : typeOf env e = some t)

include h

section

variable (ha : Gives host lane m e a)

include ha

theorem exprScalarLiteral_denotes
    (s : ScalarLiteral) (hs : exprScalarLiteral e = some s) : s.Denotes a := by
  cases e <;> cases hs
  case litF32 bits => cases h
  all_goals
    cases ha
    rfl

theorem value_of_isZero
    (hz : isZero e = true) : a = .u32 0 ∨ a = .i32 0 :=
  ScalarLiteral.any_isNumericZero (exprScalarLiteral_denotes h ha) hz

theorem value_of_isIntZero
    (hz : isIntZero e = true) : a = .u32 0 ∨ a = .i32 0 :=
  ScalarLiteral.any_isIntegerZero (exprScalarLiteral_denotes h ha) hz

theorem value_of_isOne
    (hz : isOne e = true) : a = .u32 1 ∨ a = .i32 1 :=
  ScalarLiteral.any_isNumericOne (exprScalarLiteral_denotes h ha) hz

end

theorem isIntZero_of_isZero (hz : isZero e = true) :
    isIntZero e = true := by
  cases e
  case litF32 bits => cases h
  all_goals exact hz

theorem eq_of_isOne (hz : isOne e = true) :
    e = .litU32 1 ∨ e = .litI32 1 := by
  cases e
  case litU32 x => exact .inl (congrArg Expr.litU32 (beq_iff_eq.mp hz))
  case litI32 x => exact .inr (congrArg Expr.litI32 (beq_iff_eq.mp hz))
  case litF32 bits => cases h
  all_goals cases hz

end

theorem eq_of_isLitU32 {x : UInt32} (hz : isLitU32 x e = true) : e = .litU32 x := by
  unfold isLitU32 at hz
  split at hz
  · rw [beq_iff_eq.mp hz]
  · cases hz

section

variable (ha : Gives host lane m e a)

include ha

theorem value_of_isLitU32 {x : UInt32} (hz : isLitU32 x e = true) :
    a = .u32 x := by
  cases eq_of_isLitU32 hz
  cases ha
  rfl

theorem value_of_isLitI32 {x : Int32} (hz : isLitI32 x e = true) :
    a = .i32 x := by
  unfold isLitI32 at hz
  split at hz
  · cases ha
    rw [beq_iff_eq.mp hz]
  · cases hz

theorem value_of_isLitBool {x : Bool} (hz : isLitBool x e = true) :
    a = .bool x := by
  unfold isLitBool at hz
  split at hz
  · cases ha
    rw [beq_iff_eq.mp hz]
  · cases hz

end

theorem isLitF32_eq_false {bits : UInt32} (h : typeOf env e = some t) :
    isLitF32 bits e = false := by
  cases e <;> first | rfl | cases h

end Typed

/-! ## Arithmetic on values -/

section Arithmetic

variable {fl : Floats} {op : BinOp} {t : ScalarType} {x y z w v : Value}

theorem eval_u32 (i j : UInt32) :
    evalBinop fl .add (.u32 i) (.u32 j) = .ok (.u32 (i + j)) ∧
      evalBinop fl .sub (.u32 i) (.u32 j) = .ok (.u32 (i - j)) ∧
      evalBinop fl .mul (.u32 i) (.u32 j) = .ok (.u32 (i * j)) := ⟨rfl, rfl, rfl⟩

theorem eval_i32 (i j : Int32) :
    evalBinop fl .add (.i32 i) (.i32 j) = .ok (.i32 (i + j)) ∧
      evalBinop fl .sub (.i32 i) (.i32 j) = .ok (.i32 (i - j)) ∧
      evalBinop fl .mul (.i32 i) (.i32 j) = .ok (.i32 (i * j)) := ⟨rfl, rfl, rfl⟩

/-- No arithmetic on `bool`. -/
theorem eval_bool {p q : Bool} (hop : op = .add ∨ op = .sub ∨ op = .mul) :
    evalBinop fl op (.bool p) (.bool q) ≠ .ok v := by
  intro h
  rcases hop with rfl | rfl | rfl <;> cases h

theorem eval_minus_one (hv : evalBinop fl .mul x (.i32 (-1)) = .ok v) :
    evalUnop fl .negate x = .ok v := by
  obtain ⟨i, rfl⟩ := i32_of_right hv
  cases hv
  exact congrArg (fun k => Except.ok (Value.i32 k)) (by grind)

/-- A comparison that is `k` on equal operands. -/
def IsReflexive (op : BinOp) (k : Bool) : Prop :=
  (op = .eq ∨ op = .le ∨ op = .ge) ∧ k = true ∨ (op = .ne ∨ op = .lt ∨ op = .gt) ∧ k = false

theorem eval_reflexive {k : Bool} (ht : t.Has x) (hop : IsReflexive op k)
    (hv : evalBinop fl op x x = .ok v) : v = .bool k := by
  cases t <;> obtain ⟨i, rfl⟩ := ht <;>
    rcases hop with ⟨rfl | rfl | rfl, rfl⟩ | ⟨rfl | rfl | rfl, rfl⟩ <;> cases hv <;> simp

/-- An order: what it is on equal operands, and on a right operand `least` or a left
operand `greatest`. -/
def IsComparison (op : BinOp) (reflexive extreme : Bool) (least greatest : UInt32) : Prop :=
  op = .lt ∧ reflexive = false ∧ extreme = false ∧ least = 0 ∧ greatest = maxU32 ∨
    op = .gt ∧ reflexive = false ∧ extreme = false ∧ least = maxU32 ∧ greatest = 0 ∨
    op = .le ∧ reflexive = true ∧ extreme = true ∧ least = maxU32 ∧ greatest = 0 ∨
    op = .ge ∧ reflexive = true ∧ extreme = true ∧ least = 0 ∧ greatest = maxU32

theorem le_maxU32 (i : UInt32) : i ≤ maxU32 := by
  have := i.toNat_lt
  rw [UInt32.le_iff_toNat_le, show maxU32.toNat = 4294967295 by decide]
  omega

section Comparison

variable {reflexive extreme : Bool} {least greatest : UInt32}
  (hop : IsComparison op reflexive extreme least greatest)

include hop

theorem IsComparison.isReflexive : IsReflexive op reflexive := by
  rcases hop with ⟨rfl, rfl, -⟩ | ⟨rfl, rfl, -⟩ | ⟨rfl, rfl, -⟩ | ⟨rfl, rfl, -⟩ <;>
    simp [IsReflexive]

theorem eval_least (hv : evalBinop fl op x (.u32 least) = .ok v) : v = .bool extreme := by
  obtain ⟨i, rfl⟩ := u32_of_right hv
  have hmax := le_maxU32 i
  rcases hop with ⟨rfl, -, rfl, rfl, -⟩ | ⟨rfl, -, rfl, rfl, -⟩ | ⟨rfl, -, rfl, rfl, -⟩ |
    ⟨rfl, -, rfl, rfl, -⟩ <;> cases hv <;> simp_all

theorem eval_greatest (hv : evalBinop fl op (.u32 greatest) x = .ok v) : v = .bool extreme := by
  obtain ⟨i, rfl⟩ := u32_of_left hv
  have hmax := le_maxU32 i
  rcases hop with ⟨rfl, -, rfl, -, rfl⟩ | ⟨rfl, -, rfl, -, rfl⟩ | ⟨rfl, -, rfl, -, rfl⟩ |
    ⟨rfl, -, rfl, -, rfl⟩ <;> cases hv <;> simp_all

end Comparison

/-- `min` and `max` with the literal that leaves the other operand and the literal
that is the result. -/
def IsExtreme (op : BinOp) (unit zero : UInt32) : Prop :=
  op = .min ∧ unit = maxU32 ∧ zero = 0 ∨ op = .max ∧ unit = 0 ∧ zero = maxU32

section Extreme

variable {unit zero : UInt32} (hop : IsExtreme op unit zero)

include hop

theorem IsExtreme.isCommutative : isCommutative op = true := by
  rcases hop with ⟨rfl, -, -⟩ | ⟨rfl, -, -⟩ <;> rfl

theorem eval_extreme_unit (hv : evalBinop fl op x (.u32 unit) = .ok v) : v = x := by
  obtain ⟨i, rfl⟩ := u32_of_right hv
  have := le_maxU32 i
  rcases hop with ⟨rfl, rfl, rfl⟩ | ⟨rfl, rfl, rfl⟩ <;> cases hv <;> simp_all

theorem eval_extreme_zero (hv : evalBinop fl op x (.u32 zero) = .ok v) : v = .u32 zero := by
  obtain ⟨i, rfl⟩ := u32_of_right hv
  have := le_maxU32 i
  rcases hop with ⟨rfl, rfl, rfl⟩ | ⟨rfl, rfl, rfl⟩ <;> cases hv <;> simp_all

end Extreme

variable (hx : t.Has x) (hy : t.Has y)

include hx hy

variable (hz : t.Has z)

include hz

theorem eval_assoc (hop : op = .add ∨ op = .mul) :
    (∃ s, evalBinop fl op x y = .ok s ∧ evalBinop fl op s z = .ok v) ↔
      ∃ s, evalBinop fl op y z = .ok s ∧ evalBinop fl op x s = .ok v := by
  cases t <;> obtain ⟨i, rfl⟩ := hx <;> obtain ⟨j, rfl⟩ := hy <;> obtain ⟨k, rfl⟩ := hz <;>
    rcases hop with rfl | rfl <;>
    simp [eval_u32, eval_i32, eval_bool, UInt32.add_assoc, UInt32.mul_assoc, Int32.add_assoc,
      Int32.mul_assoc]

/-- Multiplication distributes over addition and subtraction: the product with
the sum is the sum of the products. -/
theorem eval_distrib (hop : op = .add ∨ op = .sub) :
    (∃ s, evalBinop fl op y z = .ok s ∧ evalBinop fl .mul x s = .ok v) ↔
      ∃ p q, evalBinop fl .mul x y = .ok p ∧ evalBinop fl .mul x z = .ok q ∧
        evalBinop fl op p q = .ok v := by
  cases t <;> obtain ⟨i, rfl⟩ := hx <;> obtain ⟨j, rfl⟩ := hy <;> obtain ⟨k, rfl⟩ := hz <;>
    rcases hop with rfl | rfl <;>
    simp [eval_u32, eval_i32, eval_bool, UInt32.mul_add, UInt32.mul_sub,
      Int32.mul_add, Int32.mul_sub]

end Arithmetic

/-- `combine` computes `op` on literals. -/
def Combines (op : BinOp) (combine : Expr → Expr → Option Expr) : Prop :=
  ∀ host lane m k₁ k₂ k x y, combine k₁ k₂ = some k → Gives host lane m k₁ x →
    Gives host lane m k₂ y → ∃ s, evalBinop host.floats op x y = .ok s ∧ Gives host lane m k s

theorem checkedU32_eq_some {exact : Int} {w w' : UInt32} (h : checkedU32 exact w = some w') :
    w = w' :=
  some.inj (ite_none_right_eq_some.mp h).2

theorem checkedI32_eq_some {exact : Int} {w w' : Int32} (h : checkedI32 exact w = some w') :
    w = w' :=
  some.inj (ite_none_right_eq_some.mp h).2

theorem combines_onLiterals {op : BinOp} {u : UInt32 → UInt32 → UInt32}
    {i : Int32 → Int32 → Int32} {exactU : UInt32 → UInt32 → Int} {exactI : Int32 → Int32 → Int}
    (hu : ∀ fl x y, evalBinop fl op (.u32 x) (.u32 y) = .ok (.u32 (u x y)))
    (hi : ∀ fl x y, evalBinop fl op (.i32 x) (.i32 y) = .ok (.i32 (i x y))) :
    Combines op (onLiterals (fun x y => checkedU32 (exactU x y) (u x y))
      fun x y => checkedI32 (exactI x y) (i x y)) := by
  intro host lane m k₁ k₂ k x y h hx hy
  unfold onLiterals at h
  split at h
  · obtain ⟨w, hw, rfl⟩ := map_eq_some_iff.mp h
    cases hx
    cases hy
    cases checkedU32_eq_some hw
    exact ⟨_, hu _ _ _, rfl⟩
  · obtain ⟨w, hw, rfl⟩ := map_eq_some_iff.mp h
    cases hx
    cases hy
    cases checkedI32_eq_some hw
    exact ⟨_, hi _ _ _, rfl⟩
  · cases h

theorem combines_sum : Combines .add sumLiterals :=
  combines_onLiterals (fun _ _ _ => rfl) fun _ _ _ => rfl

theorem combines_difference : Combines .sub differenceLiterals :=
  combines_onLiterals (fun _ _ _ => rfl) fun _ _ _ => rfl

theorem combines_product : Combines .mul productLiterals :=
  combines_onLiterals (fun _ _ _ => rfl) fun _ _ _ => rfl

theorem mulOperands_eq_some {e x y : Expr} (h : mulOperands e = some (x, y)) : e = .mul x y := by
  unfold mulOperands at h
  split at h
  · cases h
    rfl
  · cases h

/-! ## Fused shifts -/

section Shifts

variable {op : BinOp} {w p q : UInt32} {x s : Nat}

theorem toNat_fusedShift (p q : UInt32) :
    (fusedShift p q).toNat = min (p.toNat + q.toNat) 31 :=
  UInt32.toNat_ofNat_of_lt' (by show _ < 2 ^ 32; omega)

/-- Both sides are multiples of `2 ^ s`. Without that factor the right one is 0 or
half the modulus, which is even. -/
theorem mul_two_pow_eq_iff (hs : s < 31) :
    x * 2 ^ s % 2 ^ 32 = x * 2 ^ 31 % 2 ^ 32 ↔ x % 2 ^ (32 - s) = 0 := by
  obtain ⟨half, hhalf, heven⟩ : ∃ half, half = 2 ^ (31 - s) ∧ half % 2 = 0 :=
    ⟨_, rfl, Nat.two_pow_mod_two_eq_zero.mpr (by omega)⟩
  have hpow : 2 ^ 31 = half * 2 ^ s := by
    rw [hhalf, ← Nat.pow_add, Nat.sub_add_cancel (by omega)]
  have hmodulus : 2 ^ (32 - s) = 2 * half := by
    rw [hhalf, ← Nat.pow_succ', Nat.succ_eq_add_one]
    congr 1
    omega
  have hword : 2 ^ 32 = 2 * half * 2 ^ s := by
    rw [Nat.mul_assoc, ← hpow]
    rfl
  have hparity : x % (2 * half) % 2 = x % 2 := Nat.mod_mod_of_dvd x ⟨half, rfl⟩
  rw [hmodulus, hword, hpow, ← Nat.mul_assoc, Nat.mul_mod_mul_right, Nat.mul_mod_mul_right,
    Nat.mul_mod_mul_right, Nat.mul_left_inj (Nat.two_pow_pos s).ne']
  obtain heq | heq := Nat.mod_two_eq_zero_or_one x
  · rw [heq, Nat.zero_mul]
  · rw [heq, Nat.one_mul]
    omega

theorem div_two_pow_eq_iff (hs : s < 31) : x / 2 ^ s = x / 2 ^ 31 ↔ x < 2 ^ s := by
  have hpow : 2 ^ 31 = 2 ^ s * 2 ^ (31 - s) := by
    rw [← Nat.pow_add, Nat.add_sub_cancel' (by omega)]
  rw [hpow, ← Nat.div_div_eq_div_mul, ← Nat.div_eq_zero_iff_lt (Nat.two_pow_pos s)]
  constructor
  · intro h
    by_contra hne
    have hlt :=
      Nat.div_lt_self (Nat.pos_of_ne_zero hne) (Nat.one_lt_two_pow (n := 31 - s) (by omega))
    omega
  · intro h
    rw [h, Nat.zero_div]

theorem mul_two_pow_ne_iff (x s : Nat) :
    x * 2 ^ s % 2 ^ 32 ≠ x * 2 ^ 31 % 2 ^ 32 ↔
      32 ≤ s ∧ x % 2 = 1 ∨ s < 31 ∧ x % 2 ^ (32 - s) ≠ 0 := by
  obtain hs | rfl | hs := Nat.lt_trichotomy s 31
  · rw [Ne, mul_two_pow_eq_iff hs]
    omega
  · omega
  · have hzero : x * 2 ^ s % 2 ^ 32 = 0 :=
      Nat.mod_eq_zero_of_dvd (Nat.dvd_mul_left_of_dvd (Nat.pow_dvd_pow 2 hs) x)
    rw [hzero]
    omega

theorem div_two_pow_ne_iff (hx : x < 2 ^ 32) (s : Nat) :
    x / 2 ^ s ≠ x / 2 ^ 31 ↔ 32 ≤ s ∧ 2 ^ 31 ≤ x ∨ s < 31 ∧ 2 ^ s ≤ x := by
  obtain hs | rfl | hs := Nat.lt_trichotomy s 31
  · rw [Ne, div_two_pow_eq_iff hs]
    omega
  · omega
  · have hzero : x / 2 ^ s = 0 :=
      Nat.div_eq_of_lt (Nat.lt_of_lt_of_le hx (Nat.pow_le_pow_right (by decide) hs))
    rw [hzero]
    omega

/-- Where two shifts by literals differ from the one they are fused into. The
interpreter takes each amount modulo the width, the fused amount is the sum cut at
31: as long as the sum is an amount, nothing changes. -/
def ShiftsApart (op : BinOp) (w p q : UInt32) : Prop :=
  let s := p.toNat % 32 + q.toNat % 32
  32 ≤ p.toNat + q.toNat ∧
    if op = .shl then
      32 ≤ s ∧ w.toNat % 2 = 1 ∨ s < 31 ∧ w.toNat % 2 ^ (32 - s) ≠ 0
    else
      32 ≤ s ∧ 2 ^ 31 ≤ w.toNat ∨ s < 31 ∧ 2 ^ s ≤ w.toNat

theorem shiftsApart_iff (hop : op = .shl ∨ op = .shr) :
    ShiftsApart op w p q ↔
      shiftU32 (shiftU32 w p (op = .shl)) q (op = .shl) ≠
        shiftU32 w (fusedShift p q) (op = .shl) := by
  rw [Ne, ← UInt32.toNat_inj, ShiftsApart]
  by_cases hsum : 32 ≤ p.toNat + q.toNat
  · have hcut : min (p.toNat + q.toNat) 31 % 32 = 31 := by omega
    obtain rfl | rfl := hop
    · simpa only [hsum, true_and, if_true, decide_true, toNat_shl, toNat_fusedShift, hcut,
        Nat.mod_mul_mod, Nat.mul_assoc, ← Nat.pow_add] using (mul_two_pow_ne_iff w.toNat _).symm
    · simpa only [hsum, true_and, reduceCtorEq, if_false, decide_false, toNat_shr,
        toNat_fusedShift, hcut, Nat.div_div_eq_div_mul, ← Nat.pow_add] using
        (div_two_pow_ne_iff w.toNat_lt _).symm
  · have hamount : min (p.toNat + q.toNat) 31 % 32 = p.toNat % 32 + q.toNat % 32 := by omega
    obtain rfl | rfl := hop
    · simp [hsum, toNat_shl, toNat_fusedShift, hamount, Nat.mod_mul_mod, Nat.mul_assoc,
        Nat.pow_add]
    · simp [hsum, toNat_shr, toNat_fusedShift, hamount, Nat.div_div_eq_div_mul, Nat.pow_add]

end Shifts

/-! ## Binary operators -/

section Rules

variable {env : ScalarEnv} {host : Host} {lane : Lane} {m : Memory}
  {fingerprint : Fingerprint} {op : BinOp} {l r : Expr} {t : ScalarType}
  {a b v : Value} {combine : Expr → Expr → Option Expr}
  (henv : env.Describes lane m) (hl : typeOf env l = some t) (hr : typeOf env r = some t)
  (ha : Gives host lane m l a) (hb : Gives host lane m r b)

theorem operands {ty : ScalarType} {x y : Expr} (henv : env.Describes lane m)
    (h : typeOf env (.binOp op x y) = some ty) (hv : Gives host lane m (.binOp op x y) v) :
    ∃ t p q, typeOf env x = some t ∧ typeOf env y = some t ∧ t.binop op = some ty ∧
      Gives host lane m x p ∧ Gives host lane m y q ∧ t.Has p ∧ t.Has q ∧
      evalBinop host.floats op p q = .ok v := by
  obtain ⟨t, hx, hy, hop⟩ := typeOf_binOp.mp h
  obtain ⟨p, q, hp, hq, hev⟩ := hv.binOp_inv h
  exact ⟨t, p, q, hx, hy, hop, hp, hq, typeOf_has henv hx hp, typeOf_has henv hy hq, hev⟩

theorem binop_arithmetic {ty : ScalarType} (hop : op = .add ∨ op = .sub ∨ op = .mul)
    (h : t.binop op = some ty) : t = ty := by
  rcases hop with rfl | rfl | rfl <;> cases t <;> cases h <;> rfl

theorem reflexive_gives {k : Bool} {c : Bool} (hl : typeOf env l = some t) (hat : t.Has a)
    (ha : Gives host lane m l a) (hb : Gives host lane m r b) (hop : IsReflexive op k)
    (hv : evalBinop host.floats op a b = .ok v) (h : (Expr.same fingerprint l r && c) = true) :
    Gives host lane m (.bool k) v := by
  cases eq_of_same hl (Bool.and_eq_true_iff.mp h).1
  cases ha.unique hb
  rw [eval_reflexive hat hop hv]
  rfl

theorem simplifyComparison_gives {k k' : Bool} {least greatest : UInt32}
    (hl : typeOf env l = some t) (hat : t.Has a) (ha : Gives host lane m l a)
    (hb : Gives host lane m r b) (hop : IsComparison op k k' least greatest)
    (hv : evalBinop host.floats op a b = .ok v) :
    Yields (Gives host lane m · v) (simplifyComparison fingerprint k k' least greatest l r) :=
  .orElse (.arm (reflexive_gives hl hat ha hb hop.isReflexive hv)) <|
  .orElse (.arm fun h => by
    cases value_of_isLitU32 hb h
    rw [eval_least hop hv]
    rfl) <|
  .arm fun h => by
    cases value_of_isLitU32 ha h
    rw [eval_greatest hop hv]
    rfl

include henv hl hr ha hb

omit henv hl hr ha in
theorem regroup_gives {x k₁ k : Expr} {p q : Value} (hop : op = .add ∨ op = .mul)
    (hc : Combines op combine)
    (hpt : t.Has p) (hqt : t.Has q) (hbt : t.Has b) (hp : Gives host lane m x p)
    (hq : Gives host lane m k₁ q)
    (hev : evalBinop host.floats op p q = .ok a) (hv : evalBinop host.floats op a b = .ok v)
    (hk : combine k₁ r = some k) : Gives host lane m (.binOp op x k) v := by
  obtain ⟨s, hs, hks⟩ := hc host lane m k₁ r k q b hk hq hb
  obtain ⟨s', hs', hres⟩ := (eval_assoc hpt hqt hbt hop).mp ⟨a, hev, hv⟩
  cases hs.symm.trans hs'
  exact hp.binOp hks hres

theorem reassociate_gives (hop : op = .add ∨ op = .mul) (hc : Combines op combine)
    (hv : evalBinop host.floats op a b = .ok v) :
    Yields (Gives host lane m · v) (reassociate op combine l r) ∧
      Yields (Gives host lane m · v) (reassociateLeft op combine l r) := by
  cases l with
  | binOp op' x y =>
    rw [reassociate, reassociateLeft]
    by_cases heq : op' = op
    · subst heq
      obtain ⟨t', p, q, hx, hy, htyp, hp, hq, hpt, hqt, hev⟩ := operands henv hl ha
      cases binop_arithmetic (by tauto) htyp
      have hbt := typeOf_has henv hr hb
      have hcomm : isCommutative op' = true := by
        rcases hop with rfl | rfl <;> rfl
      simp only [if_true]
      constructor <;> intro e he <;> obtain ⟨k, hk, rfl⟩ := map_eq_some_iff.mp he
      · exact regroup_gives hb hop hc hpt hqt hbt hp hq hev hv hk
      · exact regroup_gives hb hop hc hqt hpt hbt hq hp (eval_comm hpt hcomm hev) hv hk
    · simp only [if_neg heq]
      exact ⟨.none, .none⟩
  | _ => exact ⟨.none, .none⟩

theorem factor_gives (hop : op = .add ∨ op = .sub) (hc : Combines op combine)
    (hv : evalBinop host.floats op a b = .ok v) :
    Yields (Gives host lane m · v) (factor fingerprint combine l r) := by
  unfold factor
  split
  case h_2 => exact .none
  case h_1 x k₁ y k₂ hmul hmul' =>
    split
    case isFalse => exact .none
    case isTrue hsame =>
      intro e he
      obtain ⟨k, hk, rfl⟩ := map_eq_some_iff.mp he
      rw [mulOperands_eq_some hmul] at hl ha
      rw [mulOperands_eq_some hmul'] at hr hb
      obtain ⟨t₁, p, q, hx, hk₁, htyp, hp, hq, hpt, hqt, hev⟩ := operands henv hl ha
      obtain ⟨t₂, p', q', -, -, htyp', hp', hq', -, hqt', hev'⟩ := operands henv hr hb
      cases binop_arithmetic (by tauto) htyp
      cases binop_arithmetic (by tauto) htyp'
      cases eq_of_same hx hsame
      cases hp.unique hp'
      obtain ⟨s, hs, hks⟩ := hc host lane m k₁ k₂ k q q' hk hq hq'
      obtain ⟨s', hs', hres⟩ := (eval_distrib hpt hqt hqt' hop).mpr ⟨a, b, hev, hev', hv⟩
      cases hs.symm.trans hs'
      exact hp.binOp hks hres

theorem expand_gives (hop : op = .add ∨ op = .sub) (hv : evalBinop host.floats .mul a b = .ok v) :
    Yields (Gives host lane m · v) (expand op l r) := by
  have hat := typeOf_has henv hl ha
  have hbt := typeOf_has henv hr hb
  apply Yields.orElse
  · split
    case h_2 => exact .none
    case h_1 op' x y =>
      refine .arm fun hc => ?_
      simp only [Bool.and_eq_true, decide_eq_true_eq] at hc
      obtain ⟨⟨-, rfl⟩, -⟩ := hc
      obtain ⟨t₁, p, q, hx, hy, htyp, hp, hq, hpt, hqt, hev⟩ := operands henv hr hb
      cases binop_arithmetic (by tauto) htyp
      obtain ⟨c, d, hc, hd, hres⟩ := (eval_distrib hat hpt hqt hop).mp ⟨b, hev, hv⟩
      exact (ha.binOp hp hc).binOp (ha.binOp hq hd) hres
  · split
    case h_2 => exact .none
    case h_1 op' x y =>
      refine .arm fun hc => ?_
      simp only [Bool.and_eq_true, decide_eq_true_eq] at hc
      obtain ⟨⟨-, rfl⟩, -⟩ := hc
      obtain ⟨t₁, p, q, hx, hy, htyp, hp, hq, hpt, hqt, hev⟩ := operands henv hl ha
      cases binop_arithmetic (by tauto) htyp
      obtain ⟨c, d, hc, hd, hres⟩ :=
        (eval_distrib hbt hpt hqt hop).mp ⟨a, hev, eval_comm hat rfl hv⟩
      exact (hp.binOp hb (eval_comm hbt rfl hc)).binOp (hq.binOp hb (eval_comm hbt rfl hd)) hres

theorem simplifyAdd_gives (hv : evalBinop host.floats .add a b = .ok v) :
    Yields (Gives host lane m · v) (simplifyAdd fingerprint l r) :=
  .orElse (.bind_none fun p => by rw [isFloatExpr_eq_false hr]; rfl) <|
  .orElse (.bind_none fun p => by rw [isFloatExpr_eq_false hl]; rfl) <|
  .orElse (.arm fun h => eval_right_zero rfl (value_of_isZero hr hb h) hv ▸ ha) <|
  .orElse (.arm fun h => eval_right_zero rfl (value_of_isZero hl ha h)
    (eval_comm (typeOf_has henv hl ha) rfl hv) ▸ hb) <|
  .orElse (reassociate_gives henv hl hr ha hb (.inl rfl) combines_sum hv).1 <|
  .orElse (reassociate_gives henv hl hr ha hb (.inl rfl) combines_sum hv).2
    (factor_gives henv hl hr ha hb (.inl rfl) combines_sum hv)

/-- An operand without its own value, when it is not an `i32`. -/
theorem cancel_gives (hop : op = .sub ∨ op = .bitXor ∨ op = .wrappingSub ∨ op = .saturatingSub)
    (hi : l = r → typeOf env l ≠ some .i32) (hv : evalBinop host.floats op a b = .ok v)
    (h : Expr.same fingerprint l r = true) : Gives host lane m (.u32 0) v := by
  cases eq_of_same hl h
  cases ha.unique hb
  have hat := typeOf_has henv hl ha
  cases t with
  | u32 =>
    obtain ⟨x, rfl⟩ := hat
    rcases hop with rfl | rfl | rfl | rfl <;> cases hv <;> simp [Gives.u32]
  | i32 => exact absurd hl (hi rfl)
  | bool =>
    obtain ⟨x, rfl⟩ := hat
    rcases hop with rfl | rfl | rfl | rfl <;> cases hv

theorem simplifySub_gives (hi : l = r → typeOf env l ≠ some .i32)
    (hv : evalBinop host.floats .sub a b = .ok v) :
    Yields (Gives host lane m · v) (simplifySub fingerprint l r) :=
  .orElse (.arm (cancel_gives henv hl hr ha hb (.inl rfl) hi hv)) <|
  .orElse (.bind_none fun p => by rw [isFloatExpr_eq_false hr]; rfl) <|
  .orElse (.bind_none fun p => by rw [isFloatExpr_eq_false hl]; rfl) <|
  .orElse (.arm fun h => eval_right_zero rfl (value_of_isZero hr hb h) hv ▸ ha)
    (factor_gives henv hl hr ha hb (.inr rfl) combines_difference hv)

theorem simplifyMul_gives (hv : evalBinop host.floats .mul a b = .ok v) :
    Yields (Gives host lane m · v) (simplifyMul l r) :=
  .orElse (reassociate_gives henv hl hr ha hb (.inr rfl) combines_product hv).1 <|
  .orElse (reassociate_gives henv hl hr ha hb (.inr rfl) combines_product hv).2 <|
  .orElse (expand_gives henv hl hr ha hb (.inl rfl) hv) <|
  .orElse (expand_gives henv hl hr ha hb (.inr rfl) hv) <|
  .orElse (.arm fun h => eval_right_one rfl (value_of_isOne hr hb h) hv ▸ ha) <|
  .orElse (.arm fun h => eval_right_one rfl (value_of_isOne hl ha h)
    (eval_comm (typeOf_has henv hl ha) rfl hv) ▸ hb) <|
  .orElse (.arm fun h => by
    cases value_of_isLitI32 hb h
    exact ha.unOp (eval_minus_one hv)) <|
  .orElse (.arm fun h => by
    cases value_of_isLitI32 ha h
    exact hb.unOp (eval_minus_one (eval_comm (typeOf_has henv hl ha) rfl hv))) <|
  .orElse (.arm fun h => by rw [isLitF32_eq_false hr] at h; cases h) <|
  .orElse (.arm fun h => by rw [isLitF32_eq_false hl] at h; cases h) <|
  .orElse (.arm fun h => eval_absorbs_right rfl (value_of_isIntZero hr hb h) hv ▸ hb)
    (.arm fun h => eval_absorbs_right rfl (value_of_isIntZero hl ha h)
      (eval_comm (typeOf_has henv hl ha) rfl hv) ▸ ha)

/-- A quotient by itself, when the operand is a nonzero `u32`. -/
theorem simplifyDiv_gives
    (hone : l = r → typeOf env l ≠ some .i32 ∧ ¬Gives host lane m l (.u32 0))
    (hv : evalBinop host.floats .div a b = .ok v) :
    Yields (Gives host lane m · v) (simplifyDiv fingerprint l r) := by
  unfold simplifyDiv
  split
  case isTrue h => exact .some (eval_right_one rfl (value_of_isOne hr hb h) hv ▸ ha)
  case isFalse =>
    split
    case isTrue => exact .none
    case isFalse =>
      rw [isLitF32_eq_false hl]
      apply Yields.orElse
      · unfold tangent
        split
        case h_1 x y =>
          -- A sine has no integer type.
          obtain ⟨ty, -, hop⟩ := typeOf_unOp.mp hl
          cases hop
        case h_2 => exact .none
      · apply Yields.arm
        intro h
        cases eq_of_same hl (Bool.and_eq_true_iff.mp h).1
        cases ha.unique hb
        have hat := typeOf_has henv hl ha
        cases t with
        | u32 =>
          obtain ⟨x, rfl⟩ := hat
          cases hv
          have hx : x ≠ 0 := by
            intro hx
            exact (hone rfl).2 (hx ▸ ha)
          rw [if_neg hx, UInt32.div_self, if_neg hx]
          rfl
        | i32 => exact absurd hl (hone rfl).1
        | bool =>
          obtain ⟨x, rfl⟩ := hat
          cases hv

theorem simplifyMod_gives (hi : r = .litI32 1 ∨ l = r → typeOf env l ≠ some .i32)
    (hv : evalBinop host.floats .mod a b = .ok v) :
    Yields (Gives host lane m · v) (simplifyMod fingerprint l r) := by
  apply Yields.orElse
  · apply Yields.arm
    intro h
    rcases eq_of_isOne hr h with rfl | rfl
    · cases hb
      obtain ⟨x, rfl⟩ := u32_of_right hv
      cases hv
      simp [Gives.u32]
    · cases hr
      exact absurd hl (hi (.inl rfl))
  · apply Yields.arm
    intro h
    cases eq_of_same hl h
    cases ha.unique hb
    have hat := typeOf_has henv hl ha
    cases t with
    | u32 =>
      obtain ⟨x, rfl⟩ := hat
      cases hv
      simp [Gives.u32]
    | i32 => exact absurd hl (hi (.inr rfl))
    | bool =>
      obtain ⟨x, rfl⟩ := hat
      cases hv

theorem idempotent_gives (hop : isIdempotent op = true)
    (hlogical : l = r → op = .and ∨ op = .or → t = .bool)
    (hv : evalBinop host.floats op a b = .ok v) (h : Expr.same fingerprint l r = true) :
    Gives host lane m l v := by
  cases eq_of_same hl h
  cases ha.unique hb
  rw [eval_idempotent (typeOf_has henv hl ha) hop (hlogical rfl) hv]
  exact ha

theorem simplifyBitAnd_gives (hv : evalBinop host.floats .bitAnd a b = .ok v) :
    Yields (Gives host lane m · v) (simplifyBitAnd fingerprint l r) :=
  .orElse (.arm fun h => eval_absorbs_right rfl (value_of_isIntZero hr hb h) hv ▸ hb) <|
  .orElse (.arm fun h => eval_absorbs_right rfl (value_of_isIntZero hl ha h)
    (eval_comm (typeOf_has henv hl ha) rfl hv) ▸ ha) <|
  .orElse (.arm (idempotent_gives henv hl hr ha hb rfl (by simp) hv)) <|
  .orElse (.arm fun h => eval_and_ones (.inl (value_of_isLitU32 hb h)) hv ▸ ha)
    (.arm fun h => eval_and_ones (.inl (value_of_isLitU32 ha h))
      (eval_comm (typeOf_has henv hl ha) rfl hv) ▸ hb)

theorem simplifyBitOr_gives (hv : evalBinop host.floats .bitOr a b = .ok v) :
    Yields (Gives host lane m · v) (simplifyBitOr fingerprint l r) :=
  .orElse (.arm fun h => eval_right_zero rfl (value_of_isIntZero hr hb h) hv ▸ ha) <|
  .orElse (.arm fun h => eval_right_zero rfl (value_of_isIntZero hl ha h)
    (eval_comm (typeOf_has henv hl ha) rfl hv) ▸ hb) <|
  .orElse (.arm (idempotent_gives henv hl hr ha hb rfl (by simp) hv)) <|
  .orElse (.arm fun h => by
    cases value_of_isLitU32 hb h
    rw [eval_or_ones (.inl rfl) hv]
    rfl) <|
  .arm fun h => by
    cases value_of_isLitU32 ha h
    rw [eval_or_ones (.inl rfl) (eval_comm (typeOf_has henv hl ha) rfl hv)]
    rfl

theorem simplifyBitXor_gives (hi : l = r → typeOf env l ≠ some .i32)
    (hv : evalBinop host.floats .bitXor a b = .ok v) :
    Yields (Gives host lane m · v) (simplifyBitXor fingerprint l r) :=
  .orElse (.arm fun h => eval_right_zero rfl (value_of_isIntZero hr hb h) hv ▸ ha) <|
  .orElse (.arm fun h => eval_right_zero rfl (value_of_isIntZero hl ha h)
    (eval_comm (typeOf_has henv hl ha) rfl hv) ▸ hb) <|
  .orElse (.arm (cancel_gives henv hl hr ha hb (.inr (.inl rfl)) hi hv)) <|
  .orElse (.arm fun h => by
    cases value_of_isLitU32 hb h
    obtain ⟨x, rfl⟩ := u32_of_right hv
    cases hv
    exact ha.unOp (by simp [evalUnop, unopU32, unopInt, maxU32_eq])) <|
  .arm fun h => by
    cases value_of_isLitU32 ha h
    obtain ⟨x, rfl⟩ := u32_of_left hv
    cases hv
    exact hb.unOp (by simp [evalUnop, unopU32, unopInt, maxU32_eq])

theorem simplifyShift_gives (hop : op = .shl ∨ op = .shr)
    (hfused : ∀ x p q w, l = .binOp op x (.litU32 p) → r = .litU32 q → q ≠ 0 →
      Gives host lane m x (.u32 w) → ¬ShiftsApart op w p q)
    (hv : evalBinop host.floats op a b = .ok v) :
    Yields (Gives host lane m · v) (simplifyShift op l r) := by
  apply Yields.arm_orElse
  · intro h
    have hzero : rightIdentityWhenZero op = true := by
      rcases hop with rfl | rfl <;> rfl
    exact eval_right_zero hzero (.inl (value_of_isLitU32 hb h)) hv ▸ ha
  · intro hnonzero
    split
    case h_2 => exact .none
    case h_1 op' x p q =>
      apply Yields.arm
      intro h
      cases of_decide_eq_true h
      have hq : q ≠ 0 := fun hq => by simp [isLitU32, hq] at hnonzero
      obtain ⟨t', w, p', hx, -, -, hw, hp, -, -, hev⟩ := operands henv hl ha
      cases hb
      cases hp
      obtain ⟨w, rfl⟩ := u32_of_right hev
      have hsame := not_not.mp (mt (shiftsApart_iff hop).mpr (hfused x p q w rfl rfl hq hw))
      rcases hop with rfl | rfl <;> cases hev <;> cases hv <;>
        exact hw.binOp rfl (congrArg (fun k => Except.ok (Value.u32 k)) hsame.symm)

/-- The arms `min` and `max` share. -/
theorem extreme_gives {unit zero : UInt32} (hop : IsExtreme op unit zero)
    (hv : evalBinop host.floats op a b = .ok v) :
    Yields (Gives host lane m · v)
      (arm (Expr.same fingerprint l r) l <|> arm (isLitU32 unit r) l <|> arm (isLitU32 unit l) r
        <|> arm (isLitU32 zero r) (.u32 zero) <|> arm (isLitU32 zero l) (.u32 zero)) := by
  have hidem : isIdempotent op = true := by
    rcases hop with ⟨rfl, -, -⟩ | ⟨rfl, -, -⟩ <;> rfl
  have hnot : l = r → op = .and ∨ op = .or → t = .bool := by
    rcases hop with ⟨rfl, -, -⟩ | ⟨rfl, -, -⟩ <;> simp
  have hcomm := eval_comm (typeOf_has henv hl ha) hop.isCommutative hv
  refine .orElse (.arm (idempotent_gives henv hl hr ha hb hidem hnot hv)) ?_
  refine .orElse (.arm fun h => ?_) (.orElse (.arm fun h => ?_) (.orElse (.arm fun h => ?_)
    (.arm fun h => ?_)))
  · cases value_of_isLitU32 hb h
    exact eval_extreme_unit hop hv ▸ ha
  · cases value_of_isLitU32 ha h
    exact eval_extreme_unit hop hcomm ▸ hb
  · cases value_of_isLitU32 hb h
    exact eval_extreme_zero hop hv ▸ Gives.u32 zero
  · cases value_of_isLitU32 ha h
    exact eval_extreme_zero hop hcomm ▸ Gives.u32 zero

/-- A zero factor is an integer literal, which the identity table returns itself;
only the unit arms of `SaturatingMul` are reached. -/
theorem simplifySaturatingMul_gives (hzr : isIntZero r = false) (hzl : isIntZero l = false)
    (hv : evalBinop host.floats .saturatingMul a b = .ok v) :
    Yields (Gives host lane m · v) (simplifySaturatingMul l r) :=
  .orElse (.arm fun h => eval_right_one rfl (value_of_isOne hr hb h) hv ▸ ha) <|
  .orElse (.arm fun h => eval_right_one rfl (value_of_isOne hl ha h)
    (eval_comm (typeOf_has henv hl ha) rfl hv) ▸ hb) <|
  .orElse (.arm fun h => by rw [isIntZero_of_isZero hr h] at hzr; cases hzr)
    (.arm fun h => by rw [isIntZero_of_isZero hl h] at hzl; cases hzl)

end Rules

section Logical

variable {env : ScalarEnv} {host : Host} {lane : Lane} {m : Memory}
  {fingerprint : Fingerprint} {op dual : BinOp} {l r : Expr} {t : ScalarType}
  {a b v : Value} {unit : Bool} (henv : env.Describes lane m)
  (hl : typeOf env l = some t) (hr : typeOf env r = some t)
  (ha : Gives host lane m l a) (hb : Gives host lane m r b)

section

variable (hop : IsLogical op unit)

include hop

theorem IsLogical.binop : t.binop op = some .bool := by
  rcases hop with ⟨rfl, -⟩ | ⟨rfl, -⟩ <;> rfl

theorem IsLogical.isCommutative : isCommutative op = true := by
  rcases hop with ⟨rfl, -⟩ | ⟨rfl, -⟩ <;> rfl

/-- A logical operator on `k` and its negation. -/
theorem eval_negation {fl : Floats} (k : Bool) :
    evalBinop fl op (.bool k) (.bool (!k)) = .ok (.bool (!unit)) := by
  rcases hop with ⟨rfl, rfl⟩ | ⟨rfl, rfl⟩ <;> cases k <;> rfl

/-- A logical operator on `k` and the dual operator on `k`. -/
theorem eval_absorption {fl : Floats} (hdual : IsLogical dual (!unit))
    {k j : Bool} {q : Value} (hq : evalBinop fl dual (.bool k) (.bool j) = .ok q) :
    evalBinop fl op (.bool k) q = .ok (.bool k) := by
  rcases hop with ⟨rfl, rfl⟩ | ⟨rfl, rfl⟩ <;> rcases hdual with ⟨rfl, h⟩ | ⟨rfl, h⟩ <;> cases h <;>
    cases hq <;>
    cases k <;> cases j <;> rfl

end

include henv hl hr ha hb

theorem negation_value (h : isNegationOf fingerprint l r = true) :
    ∃ k, a = .bool k ∧ b = .bool (!k) := by
  unfold isNegationOf at h
  split at h
  case h_2 => cases h
  case h_1 operand =>
    obtain ⟨ty, ho, hty⟩ := typeOf_unOp.mp hr
    obtain ⟨p, hp, hev⟩ := hb.unOp_inv hr
    cases hty
    cases eq_of_same ho h
    cases hp.unique ha
    obtain ⟨k, rfl⟩ := typeOf_has henv hl ha
    cases hev
    exact ⟨k, rfl, rfl⟩

theorem operand_value (hdual : IsLogical dual unit) (h : hasOperand fingerprint dual l r = true) :
    ∃ k j, a = .bool k ∧ evalBinop host.floats dual (.bool k) (.bool j) = .ok b := by
  unfold hasOperand at h
  split at h
  case h_2 => cases h
  case h_1 op' x y =>
    obtain ⟨hop, hsame⟩ := Bool.and_eq_true_iff.mp h
    cases of_decide_eq_true hop
    obtain ⟨t', p, q, hx, hy, hty, hp, hq, hpt, hqt, hev⟩ := operands henv hr hb
    cases hdual.binop.symm.trans hty
    obtain ⟨k, rfl⟩ := typeOf_has henv hl ha
    rcases Bool.or_eq_true_iff.mp hsame with hs | hs
    · cases eq_of_same hx hs
      cases hp.unique ha
      obtain ⟨j, rfl⟩ := bool_of_left hev
      exact ⟨k, j, rfl, hev⟩
    · cases eq_of_same hy hs
      cases hq.unique ha
      obtain ⟨j, rfl⟩ := bool_of_right hev
      exact ⟨k, j, rfl, eval_comm (t := .bool) ⟨_, rfl⟩ hdual.isCommutative hev⟩

theorem simplifyLogical_gives (hop : IsLogical op unit) (hdual : IsLogical dual (!unit))
    (hbool : l = r → t = .bool) (hv : evalBinop host.floats op a b = .ok v) :
    Yields (Gives host lane m · v) (simplifyLogical fingerprint unit dual l r) := by
  have hidem : isIdempotent op = true := by
    rcases hop with ⟨rfl, -⟩ | ⟨rfl, -⟩ <;> rfl
  have hcomm := eval_comm (typeOf_has henv hl ha) hop.isCommutative hv
  refine .orElse (.arm fun h => ?_) (.orElse (.arm fun h => ?_) (.orElse (.arm fun h => ?_)
    (.orElse (.arm fun h => ?_) (.orElse (.arm fun h => ?_) (.orElse (.arm fun h => ?_)
      (.orElse (.arm fun h => ?_) (.orElse (.arm fun h => ?_) (.arm fun h => ?_))))))))
  · cases value_of_isLitBool ha h
    exact eval_unit_right hop hcomm ▸ hb
  · cases value_of_isLitBool hb h
    exact eval_unit_right hop hv ▸ ha
  · cases value_of_isLitBool ha h
    exact eval_zero_right hop hcomm ▸ gives_litBool (!unit)
  · cases value_of_isLitBool hb h
    exact eval_zero_right hop hv ▸ gives_litBool (!unit)
  · exact idempotent_gives henv hl hr ha hb hidem (fun heq _ => hbool heq) hv h
  · obtain ⟨k, rfl, rfl⟩ := negation_value henv hl hr ha hb h
    cases (eval_negation hop k).symm.trans hv
    rfl
  · obtain ⟨k, rfl, rfl⟩ := negation_value henv hr hl hb ha h
    cases (eval_negation hop k).symm.trans hcomm
    rfl
  · obtain ⟨k, j, rfl, hq⟩ := operand_value henv hl hr ha hb hdual h
    cases (eval_absorption hop hdual hq).symm.trans hv
    exact ha
  · obtain ⟨k, j, rfl, hq⟩ := operand_value henv hr hl hb ha hdual h
    cases (eval_absorption hop hdual hq).symm.trans hcomm
    exact hb

end Logical

end Vyre.ConstFold
