import Vyre.Optimizer.ConstFoldSound
import Vyre.Optimizer.HornerForm
import Vyre.Optimizer.ShiftChains

/-!
# Strength reduction keeps values and effects

What `reduce_expr` returns evaluates to the value of the expression it replaces
and leaves the same memory, for expressions over `u32`, `i32` and `bool` with
loads and atomics, except in four cases: an operand that writes memory is dropped
because the other one decides the result; a product of `i32` operands is turned
into a shift by a `u32` literal, which no operand type allows; a product with one
of the largest constants becomes a chain whose last shift is by 32; and the
rules for `x op ~x` return a `u32` also for `i32` operands, while nested shifts
are fused without taking the amounts modulo the width.

`Misreduces` says when one of them happens. Some rules evaluate an operand more
often than the operation does, or two operands in the other order; `Quiet` says
that the operands do not notice.
-/

namespace Vyre.StrengthReduce

open Reference StateExcept ConstFold LiteralFold

section Scalar

variable {env : ScalarEnv} {e : Expr}

variable (he : e.Forall (ScalarNode env))

include he

theorem hasFields_of_scalar : e.Forall Expr.HasFields := by
  refine he.imp fun e h => ?_
  cases e
  case litF32 | ext => exact h.elim
  all_goals trivial

theorem isFloatExpr_of_scalar : isFloatExpr e = false := by
  induction e with
  | binOp op left right ihl ihr => simp [isFloatExpr, ihl he.2.1, ihr he.2.2]
  | unOp op operand ih => simp [isFloatExpr, ih he.2]
  | cast target value ih =>
    obtain ⟨ty, hty⟩ := he.1
    cases target <;> first | rfl | cases hty
  | litF32 bits => exact he.elim
  | fma a b c => exact he.1.elim
  | _ => rfl

theorem isLitF32_of_scalar {bits : UInt32} :
    isLitF32 bits e = false := by
  cases e
  case litF32 => exact he.elim
  all_goals rfl

theorem isZeroF32_of_scalar : isZeroF32 e = false := by
  cases e
  case litF32 => exact he.elim
  all_goals rfl

end Scalar

/-- The rule for the operation drops the operand `x`: the other one decides. -/
def Drops (op : BinOp) (l r x : Expr) : Prop :=
  match op with
  | .mul | .min => r = .litU32 0 ∧ x = l ∨ l = .litU32 0 ∧ x = r
  | .max => r = .litU32 maxU32 ∧ x = l ∨ l = .litU32 maxU32 ∧ x = r
  | .mod => r = .litU32 1 ∧ x = l
  | .shl | .shr => (l = .litU32 0 ∨ l = .litI32 0) ∧ x = r
  | .lt | .ge => r = .litU32 0 ∧ x = l
  | .gt | .le => l = .litU32 0 ∧ x = r
  | _ => False

/-- One operand is the complement of the other, `x`. -/
def Complements (l r x : Expr) : Prop :=
  r = .unOp .bitNot l ∧ x = l ∨ l = .unOp .bitNot r ∧ x = r

def NoPower (l r : Expr) : Prop := powerOfTwoShift r = none ∧ powerOfTwoShift l = none

/-- The rule for the operation evaluates `x` more often than the operation, or, where
the operation evaluates it twice, not at all. -/
def Repeats (op : BinOp) (l r x : Expr) : Prop :=
  match op with
  | .mul => NoPower l r ∧ (Decomposes l r ∧ x = l ∨ ¬Decomposes l r ∧ Decomposes r l ∧ x = r)
  | .div => ∃ d, r = .litU32 d ∧ 1 < d ∧ isPowerOfTwo d = false ∧
      (computeDivMagic d).needsFixup = true ∧ x = l
  | .mod => ∃ d, r = .litU32 d ∧ 1 < d ∧ isPowerOfTwo d = false ∧ x = l
  | .bitAnd | .bitOr | .bitXor => Complements l r x
  | .absDiff => l = r ∧ x = l
  | _ => False

/-- The rule for the operation evaluates `r` before `y`: `(-y) + r` becomes `r - y`. -/
def Swaps (op : BinOp) (l r y : Expr) : Prop :=
  op = .add ∧ l = .unOp .negate y ∧ ∀ z, r ≠ .unOp .negate z

def IsLitI32 (e : Expr) : Prop := ∃ c, e = .litI32 c

def Shifts (l r : Expr) : Prop := ¬NoPower l r ∨ Decomposes l r ∨ Decomposes r l

section Misreduces

variable (host : Host) (lane : Lane) (m : Memory)

/-- `y` and then `r` evaluate as `r` and then `y`. -/
def Commute (y r : Expr) : Prop :=
  ∀ a m₁ b m', Runs host lane m y a m₁ → Runs host lane m₁ r b m' →
    ∃ m₂, Runs host lane m r b m₂ ∧ Runs host lane m₂ y a m'

/-- The operands that are evaluated more often, or in the other order, do not notice. -/
structure QuietBinop (op : BinOp) (l r : Expr) : Prop where
  steady : ∀ x, Repeats op l r x → Steady host lane m x
  commute : ∀ y, Swaps op l r y → Commute host lane m y r

def Quiet : Expr → Prop
  | .binOp op l r => QuietBinop host lane m op l r
  | _ => True

/-- The chain for the product of `x` with the constant has a shift by 32. -/
def Overflows (x constant : Expr) : Prop :=
  ∃ c w, constant = .litU32 c ∧ 1 < c ∧ isPowerOfTwo c = false ∧ Chains x c ∧
    Reaches (nafTerms c) ∧ Gives host lane m x (.u32 w) ∧ w ≠ 0

def Miscomputes (op : BinOp) (l r : Expr) : Prop :=
  match op with
  -- A shift of an `i32` by a `u32`.
  | .mul => (IsLitI32 l ∨ IsLitI32 r) ∧ Shifts l r ∨
      NoPower l r ∧ (Overflows host lane m l r ∨ ¬Decomposes l r ∧ Overflows host lane m r l)
  | .shl | .shr =>
      ∃ x p q w m₁, l = .binOp op x (.litU32 p) ∧ r = .litU32 q ∧ q ≠ 0 ∧
        Runs host lane m x (.u32 w) m₁ ∧ ShiftsApart op w p q
  -- `x & ~x` and its kin are a `u32`, for `i32` operands too.
  | .bitAnd | .bitOr | .bitXor => ∃ x i, Complements l r x ∧ Gives host lane m x (.i32 i)
  | _ => False

def MisreducesBinop (op : BinOp) (l r : Expr) : Prop :=
  (∃ x, Drops op l r x ∧ ¬Steady host lane m x) ∨ Miscomputes host lane m op l r

/-- `reduce_expr` returns an expression of another value or another effect. -/
def Misreduces : Expr → Prop
  | .binOp op l r => MisreducesBinop host lane m op l r
  | _ => False

end Misreduces

section Operands

variable {host : Host} {lane : Lane} {m m₁ m' : Memory} {e l r : Expr} {a b v : Value}

theorem literal_of_isLitU32 {x : UInt32} (h : Runs host lane m e v m') (hz : isLitU32 x e = true) :
    v = .u32 x ∧ m' = m := by
  cases eq_of_isLitU32 hz
  exact h.litU32

variable {op : BinOp} {x : UInt32} (ha : Runs host lane m l a m₁) (hb : Runs host lane m₁ r b m')
  (hv : evalBinop host.floats op a b = .ok v)

theorem steady_of_drops (hmis : ¬MisreducesBinop host lane m op l r) (h : Drops op l r e) :
    Steady host lane m e :=
  not_not.mp fun hs => hmis (.inl ⟨e, h, hs⟩)

include ha hb hv

theorem runs_left (hz : isLitU32 x r = true)
    (hid : evalBinop host.floats op a (.u32 x) = .ok v → v = a) : Runs host lane m l v m' := by
  obtain ⟨rfl, rfl⟩ := literal_of_isLitU32 hb hz
  rw [hid hv]
  exact ha

theorem runs_right (hz : isLitU32 x l = true)
    (hid : evalBinop host.floats op (.u32 x) b = .ok v → v = b) : Runs host lane m r v m' := by
  obtain ⟨rfl, rfl⟩ := literal_of_isLitU32 ha hz
  rw [hid hv]
  exact hb

theorem runs_drop_left (hz : isLitU32 x r = true) (hs : Steady host lane m l)
    (hlit : evalBinop host.floats op a (.u32 x) = .ok v → Gives host lane m e v) :
    Runs host lane m e v m' := by
  obtain ⟨rfl, rfl⟩ := literal_of_isLitU32 hb hz
  rw [ha.steady_iff.mp hs]
  exact hlit hv

theorem runs_drop_right (hz : isLitU32 x l = true) (hs : Steady host lane m r)
    (hlit : evalBinop host.floats op (.u32 x) b = .ok v → Gives host lane m e v) :
    Runs host lane m e v m' := by
  obtain ⟨rfl, rfl⟩ := literal_of_isLitU32 ha hz
  rw [hb.steady_iff.mp hs]
  exact hlit hv

end Operands

/-! ## Products -/

section Products

variable {host : Host} {lane : Lane} {m m₁ m' : Memory} {x constant e l r : Expr} {a b v : Value}
  {w : UInt32}

theorem positiveU32Constant_cases {c : UInt32} (h : positiveU32Constant e = some c) :
    e = .litU32 c ∨ IsLitI32 e := by
  unfold positiveU32Constant at h
  split at h
  case h_1 value =>
    cases h
    exact .inl rfl
  case h_2 value => exact .inr ⟨value, rfl⟩
  case h_3 => cases h

theorem powerOfTwoShift_cases {s : UInt32} (h : powerOfTwoShift e = some s) :
    (∃ c k, e = .litU32 c ∧ k < 32 ∧ c.toNat = 2 ^ k ∧ s = trailingZeros c) ∨ IsLitI32 e := by
  unfold powerOfTwoShift at h
  split at h
  case h_1 c =>
    split at h
    case isTrue hpow =>
      obtain ⟨k, hk, hc⟩ := isPowerOfTwo_iff.mp hpow
      exact .inl ⟨c, k, rfl, hk, hc, (Option.some.inj h).symm⟩
    case isFalse => cases h
  case h_2 value => exact .inr ⟨value, rfl⟩
  case h_3 => cases h

theorem gives_decompose (h : shiftAddDecompose x constant = some e) (hlit : ¬IsLitI32 constant)
    (hw : Gives host lane m x (.u32 w)) (hover : ¬Overflows host lane m x constant) :
    ∃ c, constant = .litU32 c ∧ Gives host lane m e (.u32 (w * c)) := by
  obtain ⟨c, hc, hone, hpow, hcase⟩ := shiftAddDecompose_cases h
  have hconst : constant = .litU32 c := (positiveU32Constant_cases hc).resolve_right hlit
  refine ⟨c, hconst, ?_⟩
  rcases hcase with hchain | ⟨-, htwo⟩
  · have hsum := gives_shiftAddChain hw hchain
    have hchains := (shiftAddChain_isSome_iff hone hpow).mp ⟨e, hchain⟩
    by_cases hreach : Reaches (nafTerms c)
    · -- A shift by 32 is harmless only when the operand is zero.
      have hzero : w = 0 := not_not.mp fun hne =>
        hover ⟨c, w, hconst, hone, hpow, hchains, hreach, hw, hne⟩
      rw [if_pos hreach, hzero, UInt32.add_zero] at hsum
      rw [hzero]
      exact hsum
    · rw [if_neg hreach, UInt32.add_zero] at hsum
      exact hsum
  · exact gives_twoPowers hw htwo

theorem eval_mul_u32 {fl : Floats} {c : UInt32} (hv : evalBinop fl .mul a (.u32 c) = .ok v) :
    ∃ w, a = .u32 w ∧ v = .u32 (w * c) := by
  obtain ⟨w, rfl⟩ := u32_of_right hv
  cases hv
  exact ⟨w, rfl, rfl⟩

/-- `-(x * -c)`, on values. -/
theorem eval_negatedProduct {fl : Floats} {c : Int32} (hv : evalBinop fl .mul a (.i32 c) = .ok v) :
    ∃ p, evalBinop fl .mul a (.i32 (-c)) = .ok p ∧ evalUnop fl .negate p = .ok v := by
  obtain ⟨i, rfl⟩ := i32_of_right hv
  cases hv
  exact ⟨_, rfl, congrArg (fun k => Except.ok (Value.i32 k)) (by grind)⟩

theorem negatedProduct_cases (h : negatedProduct x constant = some e) :
    ∃ c, constant = .litI32 c ∧ e = .negate (.mul x (.i32 (-c))) := by
  unfold negatedProduct at h
  split at h
  case h_1 c => exact ⟨c, rfl, (arm_eq_some_iff.mp h).2.symm⟩
  case h_2 => cases h

variable {env : ScalarEnv} (hl : l.Forall (ScalarNode env)) (hr : r.Forall (ScalarNode env))
  (ha : Runs host lane m l a m₁) (hb : Runs host lane m₁ r b m')

theorem shl_power_runs {s : UInt32} (hx : Runs host lane m x a m')
    (hs : powerOfTwoShift constant = some s) (hlit : ¬IsLitI32 constant)
    (hv : ∀ c, constant = .litU32 c → ∃ w, a = .u32 w ∧ v = .u32 (w * c)) :
    Runs host lane m (.shl x (.u32 s)) v m' := by
  obtain ⟨c, k, hc, hk, hpow, rfl⟩ := (powerOfTwoShift_cases hs).resolve_right hlit
  obtain ⟨w, rfl, rfl⟩ := hv c hc
  rw [← shiftU32_power hk hpow]
  exact hx.binOp (Gives.u32 _).runs rfl

theorem decompose_runs (he : shiftAddDecompose x constant = some e) (hlit : ¬IsLitI32 constant)
    (hx : Runs host lane m x a m') (hs : Steady host lane m x)
    (hover : ¬Overflows host lane m x constant)
    (hv : ∀ c, constant = .litU32 c → ∃ w, a = .u32 w ∧ v = .u32 (w * c)) :
    Runs host lane m e v m' := by
  obtain ⟨hx, rfl⟩ := hs.gives hx
  obtain ⟨c, hc, -⟩ := shiftAddDecompose_cases he
  have hconst := (positiveU32Constant_cases hc).resolve_right hlit
  obtain ⟨w, rfl, rfl⟩ := hv c hconst
  obtain ⟨c', hc', hres⟩ := gives_decompose he hlit hx hover
  cases hconst.symm.trans hc'
  exact hres.runs

include hl hr ha hb in
theorem reduceMul_runs (hv : evalBinop host.floats .mul a b = .ok v)
    (hquiet : QuietBinop host lane m .mul l r) (hmis : ¬MisreducesBinop host lane m .mul l r) :
    Yields (Runs host lane m · v m') (reduceMul l r) := by
  have hsteady : ∀ x, Drops .mul l r x → Steady host lane m x := fun x => steady_of_drops hmis
  have hmis := (not_or.mp hmis).2
  -- With an `i32` literal no rule for shifts applies.
  have hword : Shifts l r → ¬IsLitI32 l ∧ ¬IsLitI32 r :=
    fun hs => ⟨fun h => hmis (.inl ⟨.inl h, hs⟩), fun h => hmis (.inl ⟨.inr h, hs⟩)⟩
  have hright : ∀ c, r = .litU32 c → m' = m₁ ∧ ∃ w, a = .u32 w ∧ v = .u32 (w * c) := by
    rintro c rfl
    obtain ⟨rfl, rfl⟩ := hb.litU32
    exact ⟨rfl, eval_mul_u32 hv⟩
  have hleft : ∀ c, l = .litU32 c → m₁ = m ∧ ∃ w, b = .u32 w ∧ v = .u32 (w * c) := by
    rintro c rfl
    obtain ⟨rfl, rfl⟩ := ha.litU32
    exact ⟨rfl, eval_mul_u32 (eval_comm_u32 rfl hv)⟩
  apply Yields.orElse
  · apply Yields.arm
    intro h
    exact runs_drop_left ha hb hv h (hsteady l (.inl ⟨eq_of_isLitU32 h, rfl⟩)) fun hv' =>
      eval_absorbs_right rfl (.inl rfl) hv' ▸ Gives.u32 0
  apply Yields.orElse
  · apply Yields.arm
    intro h
    exact runs_drop_right ha hb hv h (hsteady r (.inr ⟨eq_of_isLitU32 h, rfl⟩)) fun hv' =>
      eval_absorbs_right rfl (.inl rfl) (eval_comm_u32 rfl hv') ▸ Gives.u32 0
  apply Yields.orElse
  · exact .arm fun h => runs_left ha hb hv h (eval_right_one rfl (.inl rfl))
  apply Yields.orElse
  · exact .arm fun h => runs_right ha hb hv h fun hv' =>
      eval_right_one rfl (.inl rfl) (eval_comm_u32 rfl hv')
  apply Yields.orElse_of_none
  · intro e he
    obtain ⟨s, hs, rfl⟩ := Option.map_eq_some_iff.mp he
    have hlit := hword (.inl fun hno => by rw [hno.1] at hs; cases hs)
    obtain ⟨c, -, hc, -⟩ := (powerOfTwoShift_cases hs).resolve_right hlit.2
    rw [(hright c hc).1]
    exact shl_power_runs ha hs hlit.2 fun c hc => (hright c hc).2
  intro hnoright
  apply Yields.orElse_of_none
  · intro e he
    obtain ⟨s, hs, rfl⟩ := Option.map_eq_some_iff.mp he
    have hlit := hword (.inl fun hno => by rw [hno.2] at hs; cases hs)
    obtain ⟨c, -, hc, -⟩ := (powerOfTwoShift_cases hs).resolve_right hlit.1
    rw [(hleft c hc).1] at hb
    exact shl_power_runs hb hs hlit.1 fun c hc => (hleft c hc).2
  intro hnoleft
  have hno : NoPower l r :=
    ⟨Option.map_eq_none_iff.mp hnoright, Option.map_eq_none_iff.mp hnoleft⟩
  apply Yields.orElse_of_none
  · intro e he
    have hdec := shiftAddDecompose_isSome_iff.mp ⟨e, he⟩
    have hlit := (hword (.inr (.inl hdec))).2
    obtain ⟨c, hc, -⟩ := id hdec
    rw [(hright c ((positiveU32Constant_cases hc).resolve_right hlit)).1]
    exact decompose_runs he hlit ha (hquiet.steady l ⟨hno, .inl ⟨hdec, rfl⟩⟩)
      (fun h => hmis (.inr ⟨hno, .inl h⟩)) fun c hc => (hright c hc).2
  intro hnodec
  apply Yields.orElse
  · intro e he
    have hdec := shiftAddDecompose_isSome_iff.mp ⟨e, he⟩
    have hndec : ¬Decomposes l r := fun h => by
      obtain ⟨e', he'⟩ := shiftAddDecompose_isSome_iff.mpr h
      rw [hnodec] at he'
      cases he'
    have hlit := (hword (.inr (.inr hdec))).1
    obtain ⟨c, hc, -⟩ := id hdec
    rw [(hleft c ((positiveU32Constant_cases hc).resolve_right hlit)).1] at hb
    exact decompose_runs he hlit hb (hquiet.steady r ⟨hno, .inr ⟨hndec, hdec, rfl⟩⟩)
      (fun h => hmis (.inr ⟨hno, .inr ⟨hndec, h⟩⟩)) fun c hc => (hleft c hc).2
  apply Yields.orElse
  · intro e he
    obtain ⟨c, rfl, rfl⟩ := negatedProduct_cases he
    obtain ⟨rfl, rfl⟩ := hb.litI32
    obtain ⟨p, hp, hneg⟩ := eval_negatedProduct hv
    exact (ha.binOp (gives_litI32 _).runs hp).unOp hneg
  apply Yields.orElse
  · intro e he
    obtain ⟨c, rfl, rfl⟩ := negatedProduct_cases he
    obtain ⟨rfl, rfl⟩ := ha.litI32
    obtain ⟨p, hp, hneg⟩ := eval_negatedProduct (eval_comm (t := .i32) ⟨_, rfl⟩ rfl hv)
    exact (hb.binOp (gives_litI32 _).runs hp).unOp hneg
  rw [isLitF32_of_scalar hl, isLitF32_of_scalar hr, isLitF32_of_scalar hl, isLitF32_of_scalar hr]
  exact .none

end Products

/-! ## Quotients and remainders -/

section Quotients

variable {env : ScalarEnv} {host : Host} {lane : Lane} {m m₁ m' : Memory} {x l r : Expr}
  {a b v : Value} {w d : UInt32}

theorem shiftU32_power_div {k : Nat} (hk : k < 32) (hd : d.toNat = 2 ^ k) (w : UInt32) :
    shiftU32 w (trailingZeros d) false = w / d := by
  have hshift : (trailingZeros d).toNat = k := toNat_trailingZeros hk hd
  apply UInt32.toNat_inj.mp
  rw [toNat_shr, UInt32.toNat_div, hshift, Nat.mod_eq_of_lt hk, hd]

theorem and_power_sub_one {k : Nat} (hd : d.toNat = 2 ^ k) (w : UInt32) :
    w &&& (d - 1) = w % d := by
  have hpos := Nat.two_pow_pos k
  have hle : (1 : UInt32) ≤ d := UInt32.le_iff_toNat_le.mpr (by rw [hd]; exact hpos)
  apply UInt32.toNat_inj.mp
  rw [UInt32.toNat_and, UInt32.toNat_sub_of_le _ _ hle, UInt32.toNat_mod, hd]
  exact Nat.and_two_pow_sub_one_eq_mod w.toNat k

theorem sub_quotient (w d : UInt32) : w - w / d * d = w % d := by
  have hle : w / d * d ≤ w := by
    exact Nat.le_trans (Nat.mod_le _ _) (Nat.div_mul_le_self _ _)
  have hmul : (w / d * d).toNat = w.toNat / d.toNat * d.toNat := by
    exact Nat.mod_eq_of_lt (Nat.lt_of_le_of_lt (Nat.div_mul_le_self _ _) w.toNat_lt)
  have hsum := Nat.div_add_mod w.toNat d.toNat
  rw [Nat.mul_comm] at hsum
  apply UInt32.toNat_inj.mp
  rw [UInt32.toNat_sub_of_le _ _ hle, UInt32.toNat_mod]
  omega

theorem sequence_runs {g : DivMagic} (hg : g.Divides d) (hfix : g.needsFixup = false)
    (hx : Runs host lane m x (.u32 w) m₁) : Runs host lane m (sequence x g) (.u32 (w / d)) m₁ := by
  have hlit : Gives host lane m₁ (.litU32 w) (.u32 w) := Gives.u32 w
  have hseq := (gives_sequence hg hlit).runs
  unfold sequence at hseq ⊢
  simp only [hfix, Bool.false_eq_true, if_false] at hseq ⊢
  split at hseq
  case isTrue h =>
    rw [if_pos h]
    exact hseq.replace_left hlit hx
  case isFalse h =>
    rw [if_neg h]
    obtain ⟨t, m₂, b, ht, hb, hop⟩ := hseq.binOp_inv
    exact (ht.replace_left hlit hx).binOp hb hop

/-- What `granlund_montgomery_div` emits for a dividend that is not disturbed by being
evaluated twice. -/
theorem granlundMontgomeryDiv_runs {e : Expr} (he : granlundMontgomeryDiv x d = some e)
    (hx : Runs host lane m x (.u32 w) m₁)
    (hs : (computeDivMagic d).needsFixup = true → Steady host lane m x) :
    Runs host lane m e (.u32 (w / d)) m₁ := by
  by_cases hguard : d ≤ 1 ∨ d.toNat.isPowerOfTwo
  · rw [granlundMontgomeryDiv, if_pos hguard] at he
    cases he
  · rw [not_or, UInt32.not_le] at hguard
    have hd : 1 < d.toNat := UInt32.lt_iff_toNat_lt.mp hguard.1
    rw [granlundMontgomeryDiv_eq x hd hguard.2] at he
    cases he
    have hdiv := divides_computeDivMagic hd
    by_cases hfix : (computeDivMagic d).needsFixup = true
    · obtain ⟨hgives, rfl⟩ := (hs hfix).gives hx
      exact (gives_sequence hdiv hgives).runs
    · exact sequence_runs hdiv (Bool.eq_false_iff.mpr hfix) hx

theorem eval_div_u32 {fl : Floats} (hd : d ≠ 0) (hv : evalBinop fl .div a (.u32 d) = .ok v) :
    ∃ w, a = .u32 w ∧ v = .u32 (w / d) := by
  obtain ⟨w, rfl⟩ := u32_of_right hv
  refine ⟨w, rfl, ?_⟩
  cases hv
  rw [if_neg hd]

theorem eval_mod_u32 {fl : Floats} (hd : d ≠ 0) (hv : evalBinop fl .mod a (.u32 d) = .ok v) :
    ∃ w, a = .u32 w ∧ v = .u32 (w % d) := by
  obtain ⟨w, rfl⟩ := u32_of_right hv
  refine ⟨w, rfl, ?_⟩
  cases hv
  rw [if_neg hd]

theorem ne_zero_of_power {k : Nat} (hd : d.toNat = 2 ^ k) : d ≠ 0 := by
  rintro rfl
  exact absurd hd (Nat.two_pow_pos k).ne

variable (hl : l.Forall (ScalarNode env)) (hr : r.Forall (ScalarNode env))
  (ha : Runs host lane m l a m₁) (hb : Runs host lane m₁ r b m')

include hl hr ha hb

theorem reduceDiv_runs {fl : FoldFloats} (hv : evalBinop host.floats .div a b = .ok v)
    (hquiet : QuietBinop host lane m .div l r) :
    Yields (Runs host lane m · v m') (reduceDiv fl l r) := by
  have hrec : reciprocalConstantFold fl l r = none := by
    cases l
    case litF32 => exact hl.elim
    all_goals rfl
  unfold reduceDiv
  rw [hrec, isLitF32_of_scalar hl]
  unfold reduceDivisor
  split
  case h_2 => exact hr.elim
  case h_3 => exact .none
  case h_1 d =>
    obtain ⟨rfl, rfl⟩ := hb.litU32
    split
    case isTrue hone =>
      subst hone
      exact .some (eval_right_one rfl (.inl rfl) hv ▸ ha)
    case isFalse =>
      split
      case isTrue hpow =>
        obtain ⟨k, hk, hd⟩ := isPowerOfTwo_iff.mp hpow
        obtain ⟨w, rfl, rfl⟩ := eval_div_u32 (ne_zero_of_power hd) hv
        rw [← shiftU32_power_div hk hd]
        exact .some (ha.binOp (Gives.u32 _).runs rfl)
      case isFalse hpow =>
        split
        case isFalse => exact .none
        case isTrue hone =>
          have hne : d ≠ 0 := fun hz => by subst hz; exact absurd hone (by decide)
          obtain ⟨w, rfl, rfl⟩ := eval_div_u32 hne hv
          intro e he
          apply granlundMontgomeryDiv_runs he ha
          intro hfix
          exact hquiet.steady l ⟨d, rfl, hone, Bool.eq_false_iff.mpr hpow, hfix, rfl⟩

omit hl hr in
theorem reduceMod_runs (hv : evalBinop host.floats .mod a b = .ok v)
    (hquiet : QuietBinop host lane m .mod l r) (hmis : ¬MisreducesBinop host lane m .mod l r) :
    Yields (Runs host lane m · v m') (reduceMod l r) := by
  unfold reduceMod
  split
  case h_2 => exact .none
  case h_1 d =>
    obtain ⟨rfl, rfl⟩ := hb.litU32
    split
    case isTrue hone =>
      subst hone
      have hsteady : Steady host lane m l :=
        not_not.mp fun hs => hmis (.inl ⟨l, ⟨rfl, rfl⟩, hs⟩)
      obtain ⟨w, rfl, rfl⟩ := eval_mod_u32 (by decide) hv
      rw [ha.steady_iff.mp hsteady, UInt32.mod_one]
      exact .some (Gives.u32 0).runs
    case isFalse hone =>
      split
      case isTrue hpow =>
        obtain ⟨k, hk, hd⟩ := isPowerOfTwo_iff.mp hpow
        obtain ⟨w, rfl, rfl⟩ := eval_mod_u32 (ne_zero_of_power hd) hv
        rw [← and_power_sub_one hd]
        exact .some (ha.binOp (Gives.u32 _).runs rfl)
      case isFalse hpow =>
        intro e he
        obtain ⟨quotient, hq, rfl⟩ := Option.map_eq_some_iff.mp he
        have hlt : 1 < d := by
          by_contra hle
          rw [granlundMontgomeryDiv, if_pos (.inl (UInt32.not_lt.mp hle))] at hq
          cases hq
        have hne : d ≠ 0 := fun hz => by subst hz; exact absurd hlt (by decide)
        obtain ⟨w, rfl, rfl⟩ := eval_mod_u32 hne hv
        have hsteady := hquiet.steady l ⟨d, rfl, hlt, Bool.eq_false_iff.mpr hpow, rfl⟩
        obtain ⟨hw, rfl⟩ := hsteady.gives ha
        have hquot := granlundMontgomeryDiv_runs hq ha fun _ => hsteady
        rw [← sub_quotient]
        exact hw.runs.binOp (hquot.binOp (Gives.u32 d).runs rfl) rfl

end Quotients

/-! ## The other operators -/

section Others

variable {env : ScalarEnv} {host : Host} {lane : Lane} {m m₁ m' : Memory} {op : BinOp}
  {l r y : Expr} {a b c v : Value} {fingerprint : Fingerprint}

theorem eval_negation {fl : Floats} (hscalar : IsScalar b) (hneg : evalUnop fl .negate b = .ok c) :
    (evalBinop fl .add a c = .ok v → evalBinop fl .sub a b = .ok v) ∧
      (evalBinop fl .sub a c = .ok v → evalBinop fl .add a b = .ok v) ∧
      (evalBinop fl .add c a = .ok v → evalBinop fl .sub a b = .ok v) := by
  suffices h : (evalBinop fl .add a c = .ok v → evalBinop fl .sub a b = .ok v) ∧
      (evalBinop fl .sub a c = .ok v → evalBinop fl .add a b = .ok v) ∧ IsScalar c from
    ⟨h.1, h.2.1, fun hv => h.1 (eval_comm h.2.2.choose_spec rfl hv)⟩
  obtain ⟨ty, hty⟩ := hscalar
  cases ty with
  | u32 | i32 =>
    obtain ⟨x, rfl⟩ := hty
    cases hneg
    refine ⟨fun hv => ?_, fun hv => ?_, by first | exact isScalar_u32 _ | exact isScalar_i32 _⟩ <;>
    · cases a <;> cases hv
      first
        | exact congrArg (fun k => Except.ok (Value.u32 k)) (by grind)
        | exact congrArg (fun k => Except.ok (Value.i32 k)) (by grind)
  | bool =>
    obtain ⟨x, rfl⟩ := hty
    cases hneg

theorem eq_of_isLitI32 {x : Int32} (h : isLitI32 x l = true) : l = .litI32 x := by
  cases l
  case litI32 y =>
    rw [isLitI32, beq_iff_eq] at h
    rw [h]
  all_goals cases h

theorem eval_zero_shift {fl : Floats} (hop : op = .shl ∨ op = .shr) (ha : a = .u32 0 ∨ a = .i32 0)
    (hv : evalBinop fl op a b = .ok v) : v = a := by
  rcases ha with rfl | rfl
  · obtain ⟨w, rfl⟩ := u32_of_left hv
    rcases hop with rfl | rfl <;> cases hv <;> simp [shiftU32]
  · obtain ⟨w, rfl⟩ := i32_of_left hv
    rcases hop with rfl | rfl <;> cases hv <;> simp [shiftI32]

variable (henv : env.Describes lane m) (hl : l.Forall (ScalarNode env))
  (hr : r.Forall (ScalarNode env)) (ha : Runs host lane m l a m₁) (hb : Runs host lane m₁ r b m')

include henv hl hr ha hb

theorem fuseNegation_runs (hv : evalBinop host.floats .add a b = .ok v)
    (hquiet : QuietBinop host lane m .add l r) :
    Yields (Runs host lane m · v m') (fuseNegation l r) := by
  unfold fuseNegation
  split
  case h_1 y =>
    obtain ⟨q, hq, hneg⟩ := hb.unOp_inv
    have hscalar := hq.isScalar (henv.runs ha) hr.2
    exact .some (ha.binOp hq ((eval_negation hscalar hneg).1 hv))
  case h_2 hnot =>
    split
    case h_2 => exact .none
    case h_1 y =>
      obtain ⟨q, hq, hneg⟩ := ha.unOp_inv
      have hscalar := hq.isScalar henv hl.2
      obtain ⟨m₂, hr₂, hy₂⟩ := hquiet.commute y ⟨rfl, rfl, hnot⟩ q m₁ b m' hq hb
      exact .some (hr₂.binOp hy₂ ((eval_negation hscalar hneg).2.2 hv))

theorem reduceAdd_runs (hv : evalBinop host.floats .add a b = .ok v)
    (hquiet : QuietBinop host lane m .add l r) :
    Yields (Runs host lane m · v m') (reduceAdd l r) := by
  have hfl := isFloatExpr_of_scalar hl
  have hfr := isFloatExpr_of_scalar hr
  unfold reduceAdd synthesizeFmaAdd
  rw [isZeroF32_of_scalar hl, isZeroF32_of_scalar hr]
  apply Yields.orElse
  · refine .orElse (.bind_none fun p => ?_) (.orElse (.bind_none fun p => ?_)
      (.orElse (.bind_none fun p => ?_) (.bind_none fun p => ?_))) <;> simp only [hfl, hfr] <;> rfl
  apply Yields.orElse
  · exact .none
  apply Yields.orElse
  · exact .none
  apply Yields.orElse
  · exact .arm fun h => runs_left ha hb hv h (eval_right_zero rfl (.inl rfl))
  apply Yields.orElse
  · exact .arm fun h => runs_right ha hb hv h fun hv' =>
      eval_right_zero rfl (.inl rfl) (eval_comm_u32 rfl hv')
  exact fuseNegation_runs henv hl hr ha hb hv hquiet

theorem reduceSub_runs (hv : evalBinop host.floats .sub a b = .ok v) :
    Yields (Runs host lane m · v m') (reduceSub l r) := by
  have hfl := isFloatExpr_of_scalar hl
  have hfr := isFloatExpr_of_scalar hr
  unfold reduceSub synthesizeFmaSub
  rw [isZeroF32_of_scalar hr]
  apply Yields.orElse
  · refine .orElse (.bind_none fun p => ?_) (.bind_none fun p => ?_) <;> simp only [hfl, hfr] <;>
      rfl
  apply Yields.orElse
  · exact .none
  apply Yields.orElse
  · exact .arm fun h => runs_left ha hb hv h (eval_right_zero rfl (.inl rfl))
  split
  case h_2 => exact .none
  case h_1 y =>
    obtain ⟨q, hq, hneg⟩ := hb.unOp_inv
    have hscalar := hq.isScalar (henv.runs ha) hr.2
    exact .some (ha.binOp hq ((eval_negation hscalar hneg).2.1 hv))

omit henv hl hr in
theorem reduceShift_runs (hop : op = .shl ∨ op = .shr)
    (hv : evalBinop host.floats op a b = .ok v) (hmis : ¬MisreducesBinop host lane m op l r) :
    Yields (Runs host lane m · v m') (reduceShift op l r) := by
  have hsteady : l = .litU32 0 ∨ l = .litI32 0 → Steady host lane m r :=
    fun hzero => steady_of_drops hmis (by rcases hop with rfl | rfl <;> exact ⟨hzero, rfl⟩)
  have hfused : ∀ x p q w m₁, l = .binOp op x (.litU32 p) → r = .litU32 q → q ≠ 0 →
      Runs host lane m x (.u32 w) m₁ → ¬ShiftsApart op w p q := by
    intro x p q w m₁ hl hr hq hx hap
    rcases hop with rfl | rfl <;> exact hmis (.inr ⟨x, p, q, w, m₁, hl, hr, hq, hx, hap⟩)
  have hzero : rightIdentityWhenZero op = true := by
    rcases hop with rfl | rfl <;> rfl
  apply Yields.orElse
  · apply Yields.arm
    intro h
    rcases Bool.or_eq_true_iff.mp h with hu | hi
    · have hlit := eq_of_isLitU32 hu
      refine runs_drop_right ha hb hv hu (hsteady (.inl hlit)) fun hv' => ?_
      rw [hlit, eval_zero_shift hop (.inl rfl) hv']
      exact Gives.u32 0
    · have hlit := eq_of_isLitI32 hi
      subst hlit
      obtain ⟨rfl, rfl⟩ := ha.litI32
      rw [hb.steady_iff.mp (hsteady (.inr rfl)), eval_zero_shift hop (.inr rfl) hv]
      exact (gives_litI32 0).runs
  apply Yields.orElse_of_none
  · exact .arm fun h => runs_left ha hb hv h (eval_right_zero hzero (.inl rfl))
  intro hnonzero
  split
  case h_2 => exact .none
  case h_1 op' x p q =>
    apply Yields.arm
    intro h
    cases of_decide_eq_true h
    have hq : q ≠ 0 := fun hq => by simp [arm, isLitU32, hq] at hnonzero
    obtain ⟨rfl, rfl⟩ := hb.litU32
    obtain ⟨w, m₂, p', hw, hp, hev⟩ := ha.binOp_inv
    obtain ⟨rfl, rfl⟩ := hp.litU32
    obtain ⟨w, rfl⟩ := u32_of_right hev
    have hsame := not_not.mp (mt (shiftsApart_iff hop).mpr (hfused x p q w _ rfl rfl hq hw))
    rcases hop with rfl | rfl <;>
    · cases hev
      cases hv
      exact hw.binOp (Gives.u32 _).runs (congrArg (fun k => Except.ok (Value.u32 k)) hsame.symm)

/-- The operators with a rule for a complement, and the `u32` that it returns. -/
def IsMask (op : BinOp) (result : UInt32) : Prop :=
  op = .bitAnd ∧ result = 0 ∨ (op = .bitOr ∨ op = .bitXor) ∧ result = maxU32

omit henv hl hr ha hb in
theorem eval_mask {fl : Floats} {result w : UInt32} (hop : IsMask op result)
    (hv : evalBinop fl op (.u32 w) (.u32 (~~~w)) = .ok v) : v = .u32 result := by
  have hxor : w ^^^ ~~~w = -1 := by
    rw [UInt32.xor_not, UInt32.xor_self]
    rfl
  rcases hop with ⟨rfl, rfl⟩ | ⟨rfl | rfl, rfl⟩ <;> cases hv <;> simp [maxU32_eq, hxor]

omit henv hl hr ha hb in
theorem isComplementOf_iff (hy : y.Forall (ScalarNode env)) :
    isComplementOf fingerprint l y = true ↔ y = .unOp .bitNot l := by
  constructor
  · intro h
    unfold isComplementOf at h
    split at h
    case h_1 inner => rw [Expr.eq_of_same (hasFields_of_scalar hy.2) h]
    case h_2 => cases h
  · intro h
    subst h
    exact Expr.same_self (hasFields_of_scalar hy.2)

omit henv hl hr ha hb in
theorem complement_value {x : Expr} (hscalar : IsScalar a) (hx : Gives host lane m x a)
    (hnot : evalUnop host.floats .bitNot a = .ok b) :
    (∃ i, Gives host lane m x (.i32 i)) ∨ ∃ w, a = .u32 w ∧ b = .u32 (~~~w) := by
  obtain ⟨ty, hty⟩ := hscalar
  cases ty <;> obtain ⟨w, rfl⟩ := hty
  · cases hnot
    exact .inr ⟨w, rfl, rfl⟩
  · exact .inl ⟨w, hx⟩
  · cases hnot

theorem complement_values {x : Expr} (hx : Complements l r x) (hs : Steady host lane m x) :
    m' = m ∧ ((∃ i, Gives host lane m x (.i32 i)) ∨
      ∃ w, a = .u32 w ∧ b = .u32 (~~~w) ∨ b = .u32 w ∧ a = .u32 (~~~w)) := by
  rcases hx with ⟨rfl, rfl⟩ | ⟨rfl, rfl⟩
  · obtain ⟨hx, rfl⟩ := hs.gives ha
    obtain ⟨a', ha', hnot⟩ := hb.unOp_inv
    obtain ⟨rfl, rfl⟩ := ha.unique ha'
    exact ⟨rfl, (complement_value (ha.isScalar henv hl) hx hnot).imp id fun ⟨w, h⟩ => ⟨w, .inl h⟩⟩
  · obtain ⟨b', hb', hnot⟩ := ha.unOp_inv
    obtain ⟨hx, rfl⟩ := hs.gives hb'
    obtain ⟨rfl, rfl⟩ := hb.unique hb'
    exact ⟨rfl, (complement_value (hb.isScalar henv hr) hx hnot).imp id fun ⟨w, h⟩ => ⟨w, .inr h⟩⟩

theorem reduceComplement_runs {result : UInt32} (hop : IsMask op result)
    (hv : evalBinop host.floats op a b = .ok v) (hquiet : QuietBinop host lane m op l r)
    (hmis : ¬MisreducesBinop host lane m op l r) :
    Yields (Runs host lane m · v m') (reduceComplement fingerprint result l r) := by
  have hsteady : ∀ x, Complements l r x → Steady host lane m x := by
    intro x hx
    apply hquiet.steady
    rcases hop with ⟨rfl, -⟩ | ⟨rfl | rfl, -⟩ <;> exact hx
  have hword : ∀ x i, Complements l r x → ¬Gives host lane m x (.i32 i) := by
    intro x i hx hi
    apply hmis
    right
    rcases hop with ⟨rfl, -⟩ | ⟨rfl | rfl, -⟩ <;> exact ⟨x, i, hx, hi⟩
  have hres : ∀ x, Complements l r x → Runs host lane m (.u32 result) v m' := by
    intro x hx
    have hcomm : isCommutative op = true := by
      rcases hop with ⟨rfl, -⟩ | ⟨rfl | rfl, -⟩ <;> rfl
    obtain ⟨rfl, hval⟩ := complement_values henv hl hr ha hb hx (hsteady x hx)
    obtain ⟨w, ⟨rfl, rfl⟩ | ⟨rfl, rfl⟩⟩ := hval.resolve_left fun ⟨i, hi⟩ => hword x i hx hi
    · exact eval_mask hop hv ▸ (Gives.u32 result).runs
    · exact eval_mask hop (eval_comm_u32 hcomm hv) ▸ (Gives.u32 result).runs
  apply Yields.orElse
  · exact .arm fun h => hres l (.inl ⟨(isComplementOf_iff hr).mp h, rfl⟩)
  · exact .arm fun h => hres r (.inr ⟨(isComplementOf_iff hl).mp h, rfl⟩)

omit hr in
theorem absDiff_runs (hv : evalBinop host.floats .absDiff a b = .ok v)
    (hquiet : QuietBinop host lane m .absDiff l r) (h : Expr.same fingerprint l r = true) :
    Runs host lane m (.u32 0) v m' := by
  cases Expr.eq_of_same (hasFields_of_scalar hl) h
  obtain ⟨hx, rfl⟩ := (hquiet.steady l ⟨rfl, rfl⟩).gives ha
  obtain ⟨rfl, rfl⟩ := ha.unique hb
  refine (ha.isScalar henv hl).cases (P := fun a => evalBinop host.floats .absDiff a a = .ok v →
    Runs host lane m₁ (.u32 0) v m₁) ?_ ?_ ?_ hv <;> intro w hv <;> cases hv <;>
    simp [Gives.u32, Gives.runs]

omit henv hl hr in
/-- The arms of `min` and `max` for a literal that decides, and for one that does not. -/
theorem extreme_runs {unit zero : UInt32} (hop : IsExtreme op unit zero)
    (hv : evalBinop host.floats op a b = .ok v) (hmis : ¬MisreducesBinop host lane m op l r) :
    (isLitU32 unit r = true → Runs host lane m l v m') ∧
      (isLitU32 unit l = true → Runs host lane m r v m') ∧
      (isLitU32 zero r = true → Runs host lane m (.u32 zero) v m') ∧
      (isLitU32 zero l = true → Runs host lane m (.u32 zero) v m') := by
  have hsteady : ∀ x, r = .litU32 zero ∧ x = l ∨ l = .litU32 zero ∧ x = r → Steady host lane m x :=
    fun x hx => steady_of_drops hmis (by rcases hop with ⟨rfl, -, rfl⟩ | ⟨rfl, -, rfl⟩ <;> exact hx)
  refine ⟨fun h => ?_, fun h => ?_, fun h => ?_, fun h => ?_⟩
  · exact runs_left ha hb hv h (eval_extreme_unit hop)
  · exact runs_right ha hb hv h fun hv' =>
      eval_extreme_unit hop (eval_comm_u32 hop.isCommutative hv')
  · exact runs_drop_left ha hb hv h (hsteady l (.inl ⟨eq_of_isLitU32 h, rfl⟩)) fun hv' =>
      eval_extreme_zero hop hv' ▸ Gives.u32 zero
  · exact runs_drop_right ha hb hv h (hsteady r (.inr ⟨eq_of_isLitU32 h, rfl⟩)) fun hv' =>
      eval_extreme_zero hop (eval_comm_u32 hop.isCommutative hv') ▸ Gives.u32 zero

omit henv hl hr in
theorem rotate_runs (hop : op = .rotateLeft ∨ op = .rotateRight)
    (hv : evalBinop host.floats op a b = .ok v) :
    Yields (Runs host lane m · v m')
      (arm (isLitU32 0 r) l <|> arm (isLitU32 32 r) l) := by
  have hzero : rightIdentityWhenZero op = true := by
    rcases hop with rfl | rfl <;> rfl
  apply Yields.orElse
  · exact .arm fun h => runs_left ha hb hv h (eval_right_zero hzero (.inl rfl))
  · apply Yields.arm
    intro h
    apply runs_left ha hb hv h
    intro hv'
    obtain ⟨w, rfl⟩ := u32_of_right hv'
    -- A rotation by the width is one by zero.
    rcases hop with rfl | rfl <;>
      exact @eval_right_zero host.floats _ _ (.u32 0) _ hzero (.inl rfl) hv'

omit henv hl hr in
theorem least_runs {k : Bool} (hop : op = .lt ∧ k = false ∨ op = .ge ∧ k = true)
    (hv : evalBinop host.floats op a b = .ok v) (hmis : ¬MisreducesBinop host lane m op l r) :
    Yields (Runs host lane m · v m') (arm (isLitU32 0 r) (.bool k)) := by
  apply Yields.arm
  intro h
  have hsteady : Steady host lane m l := steady_of_drops hmis
    (by rcases hop with ⟨rfl, -⟩ | ⟨rfl, -⟩ <;> exact ⟨eq_of_isLitU32 h, rfl⟩)
  refine runs_drop_left ha hb hv h hsteady fun hv' => ?_
  rcases hop with ⟨rfl, rfl⟩ | ⟨rfl, rfl⟩
  · exact eval_least (.inl ⟨rfl, rfl, rfl, rfl, rfl⟩) hv' ▸ gives_litBool false
  · exact eval_least (.inr (.inr (.inr ⟨rfl, rfl, rfl, rfl, rfl⟩))) hv' ▸ gives_litBool true

omit henv hl hr in
theorem greatest_runs {k : Bool} (hop : op = .gt ∧ k = false ∨ op = .le ∧ k = true)
    (hv : evalBinop host.floats op a b = .ok v) (hmis : ¬MisreducesBinop host lane m op l r) :
    Yields (Runs host lane m · v m') (arm (isLitU32 0 l) (.bool k)) := by
  apply Yields.arm
  intro h
  have hsteady : Steady host lane m r := steady_of_drops hmis
    (by rcases hop with ⟨rfl, -⟩ | ⟨rfl, -⟩ <;> exact ⟨eq_of_isLitU32 h, rfl⟩)
  refine runs_drop_right ha hb hv h hsteady fun hv' => ?_
  rcases hop with ⟨rfl, rfl⟩ | ⟨rfl, rfl⟩
  · exact eval_greatest (.inr (.inl ⟨rfl, rfl, rfl, rfl, rfl⟩)) hv' ▸ gives_litBool false
  · exact eval_greatest (.inr (.inr (.inl ⟨rfl, rfl, rfl, rfl, rfl⟩))) hv' ▸ gives_litBool true

theorem reduceByOperator_runs {fl : FoldFloats} (hv : evalBinop host.floats op a b = .ok v)
    (hquiet : QuietBinop host lane m op l r) (hmis : ¬MisreducesBinop host lane m op l r) :
    Yields (Runs host lane m · v m') (reduceByOperator fingerprint fl op l r) := by
  cases op
  case mul => exact reduceMul_runs hl hr ha hb hv hquiet hmis
  case div => exact reduceDiv_runs hl hr ha hb hv hquiet
  case mod => exact reduceMod_runs ha hb hv hquiet hmis
  case add => exact reduceAdd_runs henv hl hr ha hb hv hquiet
  case sub => exact reduceSub_runs henv hl hr ha hb hv
  case shl | shr => exact reduceShift_runs ha hb (by simp) hv hmis
  case bitAnd | bitOr | bitXor =>
    exact reduceComplement_runs henv hl hr ha hb (by simp [IsMask]) hv hquiet hmis
  case rotateLeft | rotateRight => exact rotate_runs ha hb (by simp) hv
  case absDiff => exact .arm (absDiff_runs henv hl ha hb hv hquiet)
  case min =>
    obtain ⟨hunit, hunit', hzero, hzero'⟩ := extreme_runs ha hb (.inl ⟨rfl, rfl, rfl⟩) hv hmis
    exact .orElse (.arm hzero) (.orElse (.arm hzero') (.orElse (.arm hunit) (.arm hunit')))
  case max =>
    obtain ⟨hunit, hunit', hzero, hzero'⟩ := extreme_runs ha hb (.inr ⟨rfl, rfl, rfl⟩) hv hmis
    exact .orElse (.arm hunit) (.orElse (.arm hunit') (.orElse (.arm hzero) (.arm hzero')))
  case lt | ge => exact least_runs ha hb (by simp) hv hmis
  case gt | le => exact greatest_runs ha hb (by simp) hv hmis
  all_goals exact .none

end Others

/-- What `reduce_expr` returns evaluates as the expression does. -/
theorem reduceExpr_runs {env : ScalarEnv} {host : Host} {lane : Lane} {m m' : Memory} {e : Expr}
    {v : Value} {fingerprint : Fingerprint} {fl : FoldFloats}
    (henv : env.Describes lane m) (he : e.Forall (ScalarNode env)) (hrun : Runs host lane m e v m')
    (hquiet : Quiet host lane m e) (hmis : ¬Misreduces host lane m e) :
    Yields (Runs host lane m · v m') (reduceExpr fingerprint fl e) := by
  apply Yields.orElse
  · exact fun e' h => hornerPolynomialInt_runs (hrun.isScalar henv he) h hrun
  · split
    case h_2 => exact .none
    case h_1 op l r =>
      obtain ⟨a, m₁, b, ha, hb, hv⟩ := hrun.binOp_inv
      exact reduceByOperator_runs henv he.2.1 he.2.2 ha hb hv hquiet hmis

end Vyre.StrengthReduce
