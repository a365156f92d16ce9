import Vyre.Optimizer.FoldRules

/-!
# Constant folding keeps values

What `fold_expr` returns evaluates to the value of the expression it replaces,
for expressions over `u32`, `i32` and `bool`, except where one of five rules
fires outside of the case it is meant for: the result of a cancelling operation
is always a `u32` zero or one, a quotient of an operand by itself is one even
when the operand is zero, fused shifts are not taken modulo the width, idempotent
logical operators return an integer operand as it is, and a selection between
one and zero becomes a cast of a condition that may be any integer.

`Misfolds` says when one of them does; it is exact.
-/

namespace Vyre.ConstFold

open Reference StateExcept LiteralFold

/-! ## Where the rules misfire -/

section Misfolds

variable (env : ScalarEnv) (host : Host) (lane : Lane) (m : Memory)

def MisfoldsBinop (op : BinOp) (l r : Expr) : Prop :=
  match op with
  -- `x - x` and its kin are a `u32` zero, for `i32` operands too.
  | .sub | .bitXor | .wrappingSub | .saturatingSub => l = r ∧ typeOf env l = some .i32
  | .mod => (r = .litI32 1 ∨ l = r) ∧ typeOf env l = some .i32
  -- `x / x` is a `u32` one, also when `x` is zero.
  | .div => l = r ∧ (typeOf env l = some .i32 ∨ Gives host lane m l (.u32 0))
  -- `x && x` is `x`, also when `x` is an integer.
  | .and | .or => l = r ∧ typeOf env l ≠ some .bool
  | .shl | .shr =>
      ∃ x p q w, l = .binOp op x (.litU32 p) ∧ r = .litU32 q ∧ q ≠ 0 ∧
        Gives host lane m x (.u32 w) ∧ ShiftsApart op w p q
  | _ => False

/-- `!!x` is `x`, also when `x` is an integer. -/
def MisfoldsUnop (op : UnOp) (operand : Expr) : Prop :=
  op = .logicalNot ∧ ∃ x, operand = .unOp .logicalNot x ∧ typeOf env x ≠ some .bool

/-- `select(c, 1, 0)` is the condition itself, also when it is another integer. -/
def MisfoldsSelect (cond trueVal falseVal : Expr) : Prop :=
  trueVal = .litU32 1 ∧ falseVal = .litU32 0 ∧ (∀ x, cond ≠ .litU32 x) ∧
    ∃ w : UInt32, (Gives host lane m cond (.u32 w) ∨ Gives host lane m cond (.i32 w.toInt32)) ∧
      w ≠ 0 ∧ w ≠ 1

/-- A rule that fires on the expression, which is not a literal tree, misfires. -/
def Misfolds (fl : FoldFloats) (e : Expr) : Prop :=
  foldLiteralTree fl e = none ∧
    match e with
    | .binOp op l r => MisfoldsBinop env host lane m op l r
    | .unOp op operand => MisfoldsUnop env op operand
    | .select cond trueVal falseVal => MisfoldsSelect host lane m cond trueVal falseVal
    | _ => False

end Misfolds

section Sound

variable {env : ScalarEnv} {host : Host} {lane : Lane} {m : Memory}
  {fingerprint : Fingerprint} {op : BinOp} {l r : Expr} {t ty : ScalarType}
  {a b v : Value} (henv : env.Describes lane m)

theorem eq_false_of_arm {α : Type} {c : Bool} {x : α} (h : arm c x = none) : c = false := by
  cases c with
  | false => rfl
  | true => cases h

theorem not_isIntZero_of_table {same : Bool} {lhs rhs : Option ScalarLiteral}
    (h : binopIdentityReplacement .saturatingMul same lhs rhs = none) :
    rhs.any (·.isIntegerZero) = false ∧ lhs.any (·.isIntegerZero) = false := by
  obtain ⟨-, h⟩ := (Option.orElse_eq_none _ _).mp h
  obtain ⟨-, h⟩ := (Option.orElse_eq_none _ _).mp h
  obtain ⟨-, h⟩ := (Option.orElse_eq_none _ _).mp h
  obtain ⟨-, h⟩ := (Option.orElse_eq_none _ _).mp h
  obtain ⟨hright, h⟩ := (Option.orElse_eq_none _ _).mp h
  obtain ⟨hleft, -⟩ := (Option.orElse_eq_none _ _).mp h
  exact ⟨eq_false_of_arm hright, eq_false_of_arm hleft⟩

theorem bool_of_not_misfolds (h : typeOf env l = some t) (hne : ¬typeOf env l ≠ some .bool) :
    t = .bool :=
  Option.some.inj (h.symm.trans (not_not.mp hne))

variable (hl : typeOf env l = some t) (hr : typeOf env r = some t)
  (ha : Gives host lane m l a) (hb : Gives host lane m r b)

include henv hl hr ha hb

theorem simplifyByOperator_gives (hv : evalBinop host.floats op a b = .ok v)
    (hmis : ¬MisfoldsBinop env host lane m op l r)
    (hzero : op = .saturatingMul → isIntZero r = false ∧ isIntZero l = false) :
    Yields (Gives host lane m · v) (simplifyByOperator fingerprint op l r) := by
  have hat := typeOf_has henv hl ha
  cases op
  case add => exact simplifyAdd_gives henv hl hr ha hb hv
  case sub => exact simplifySub_gives henv hl hr ha hb (fun heq hi => hmis ⟨heq, hi⟩) hv
  case mul => exact simplifyMul_gives henv hl hr ha hb hv
  case div =>
    exact simplifyDiv_gives henv hl hr ha hb
      (fun heq => ⟨fun hi => hmis ⟨heq, .inl hi⟩, fun hz => hmis ⟨heq, .inr hz⟩⟩) hv
  case mod => exact simplifyMod_gives henv hl hr ha hb (fun heq hi => hmis ⟨heq, hi⟩) hv
  case bitAnd => exact simplifyBitAnd_gives henv hl hr ha hb hv
  case bitOr => exact simplifyBitOr_gives henv hl hr ha hb hv
  case bitXor => exact simplifyBitXor_gives henv hl hr ha hb (fun heq hi => hmis ⟨heq, hi⟩) hv
  case shl | shr =>
    exact simplifyShift_gives henv hl hr ha hb (by simp)
      (fun x p q w hx hq hne hw hap => hmis ⟨x, p, q, w, hx, hq, hne, hw, hap⟩) hv
  case min | max => exact extreme_gives henv hl hr ha hb (by simp [IsExtreme]) hv
  case saturatingMul =>
    exact simplifySaturatingMul_gives henv hl hr ha hb (hzero rfl).1 (hzero rfl).2 hv
  case eq | ne => exact .arm (reflexive_gives hl hat ha hb (by simp [IsReflexive]) hv)
  case lt | gt | le | ge => exact simplifyComparison_gives hl hat ha hb (by simp [IsComparison]) hv
  case wrappingAdd | saturatingAdd =>
    exact .orElse (.arm fun h => eval_right_zero rfl (value_of_isZero hr hb h) hv ▸ ha)
      (.arm fun h => eval_right_zero rfl (value_of_isZero hl ha h) (eval_comm hat rfl hv) ▸ hb)
  case wrappingSub | saturatingSub =>
    exact .orElse (.arm fun h => eval_right_zero rfl (value_of_isZero hr hb h) hv ▸ ha)
      (.arm (cancel_gives henv hl hr ha hb (by simp) (fun heq hi => hmis ⟨heq, hi⟩) hv))
  case and | or =>
    exact simplifyLogical_gives henv hl hr ha hb (by simp [IsLogical]) (by simp [IsLogical])
      (fun heq => bool_of_not_misfolds hl fun hne => hmis ⟨heq, hne⟩) hv
  all_goals exact .none

theorem simplifyBinop_gives (hv : evalBinop host.floats op a b = .ok v)
    (hmis : ¬MisfoldsBinop env host lane m op l r) :
    Yields (Gives host lane m · v) (simplifyBinop fingerprint op l r) := by
  have heq : (Expr.same fingerprint l r && isSimplePure l) = true → l = r :=
    fun h => eq_of_same hl (Bool.and_eq_true_iff.mp h).1
  have hval : (Expr.same fingerprint l r && isSimplePure l) = true → a = b := by
    intro h
    cases heq h
    exact ha.unique hb
  have hlogical : (Expr.same fingerprint l r && isSimplePure l) = true →
      op = .and ∨ op = .or → t = .bool := by
    intro h hop
    rcases hop with rfl | rfl <;> exact bool_of_not_misfolds hl fun hne => hmis ⟨heq h, hne⟩
  have htable := binopIdentityReplacement_value (typeOf_has henv hl ha) hval hlogical
    (exprScalarLiteral_denotes hl ha) (exprScalarLiteral_denotes hr hb) hv
  unfold simplifyBinop
  split
  case h_1 hside => exact .some (htable _ hside ▸ ha)
  case h_2 hside => exact .some (htable _ hside ▸ hb)
  case h_3 hside =>
    apply simplifyByOperator_gives henv hl hr ha hb hv hmis
    intro hop
    subst hop
    exact not_isIntZero_of_table hside

end Sound

/-! ## The other constructors -/

section Others

variable {env : ScalarEnv} {host : Host} {lane : Lane} {m : Memory}
  {fingerprint : Fingerprint} {ty : ScalarType} {v : Value}
  (henv : env.Describes lane m)

variable {fl : Floats} {op : UnOp} {t : ScalarType} {a : Value}

theorem eval_involution {x : Value} (ht : t.Has x) (hop : isInvolution op = true)
    (hbool : op = .logicalNot → t = .bool) (h : evalUnop fl op x = .ok a)
    (h' : evalUnop fl op a = .ok v) : v = x := by
  cases t <;> obtain ⟨i, rfl⟩ := ht <;> cases op <;> cases hop <;>
    first | (cases h <;> cases h' <;> simp [onBitsU32, onBitsI32] <;> done) | cases hbool rfl

theorem eval_negate_sub {x y s : Value} (hx : t.Has x) (hy : t.Has y)
    (h : evalBinop fl .sub x y = .ok s) (hv : evalUnop fl .negate s = .ok v) :
    evalBinop fl .sub y x = .ok v := by
  cases t <;> obtain ⟨i, rfl⟩ := hx <;> obtain ⟨j, rfl⟩ := hy <;> cases h
  · cases hv
    exact congrArg (fun k => Except.ok (Value.u32 k)) (by grind)
  · cases hv
    exact congrArg (fun k => Except.ok (Value.i32 k)) (by grind)

theorem isAbsorbed_eq_false {inner : UnOp} (hop : t.unop op = some ty) :
    isAbsorbed op inner = false := by
  cases t <;> cases op <;> cases hop <;> simp [isAbsorbed]

theorem integerUnary_gives {operand : Expr} (hop : t.unop op = some ty)
    (ha : Gives host lane m operand a) (hev : evalUnop host.floats op a = .ok v) :
    Yields (Gives host lane m · v) (integerUnary op operand) := by
  unfold integerUnary
  split
  case h_7 | h_8 => cases t <;> cases hop
  case h_9 => exact .none
  all_goals
    cases ha
    cases hev
    exact .some rfl

include henv

theorem simplifyUnop_gives {operand : Expr} (hty : typeOf env (.unOp op operand) = some ty)
    (hv : Gives host lane m (.unOp op operand) v) (hmis : ¬MisfoldsUnop env op operand) :
    Yields (Gives host lane m · v) (simplifyUnop op operand) := by
  obtain ⟨t, ho, hop⟩ := typeOf_unOp.mp hty
  obtain ⟨a, ha, hev⟩ := hv.unOp_inv hty
  unfold simplifyUnop
  split
  case h_1 inner x =>
    obtain ⟨t', hx, -⟩ := typeOf_unOp.mp ho
    obtain ⟨p, hp, hinner⟩ := ha.unOp_inv ho
    refine .orElse (.arm fun h => ?_) (.orElse (.arm fun h => ?_) (.arm fun h => ?_))
    · obtain ⟨hsame, hinv⟩ := Bool.and_eq_true_iff.mp h
      cases of_decide_eq_true hsame
      have hbool : op = .logicalNot → t' = .bool := by
        rintro rfl
        exact bool_of_not_misfolds hx fun hne => hmis ⟨rfl, x, rfl, hne⟩
      exact eval_involution (typeOf_has henv hx hp) hinv hbool hinner hev ▸ hp
    · cases of_decide_eq_true (Bool.and_eq_true_iff.mp h).1
      cases t <;> cases hop
    · rw [isAbsorbed_eq_false hop] at h
      cases h
  case h_2 left right =>
    refine .arm fun h => ?_
    cases of_decide_eq_true h
    obtain ⟨t', p, q, hx, hy, htyp, hp, hq, hpt, hqt, hsub⟩ := operands henv ho ha
    exact hq.binOp hp (eval_negate_sub hpt hqt hsub hev)
  case h_3 => cases ho
  case h_4 => exact integerUnary_gives hop ha hev

omit henv in
theorem truthy_logicalNot {p c : Value} (ht : t.Has p) (h : evalUnop fl .logicalNot p = .ok c) :
    c.truthy fl = !p.truthy fl := by
  cases t <;> obtain ⟨i, rfl⟩ := ht <;> cases h
  · by_cases hi : i = 0 <;> simp [truthy_u32, hi]
  · by_cases hi : i = 0 <;> simp [truthy_i32, hi]
  · simp

omit henv in
/-- The cast of a condition that is zero or one, or a `bool`, is its truth. -/
theorem castValue_truth {c : Value} (ht : t.Has c) (hu : ∀ w, c = .u32 w → w = 0 ∨ w = 1)
    (hi : ∀ w : UInt32, c = .i32 w.toInt32 → w = 0 ∨ w = 1) :
    castValue fl .u32 c = .ok (if c.truthy fl then .u32 1 else .u32 0) := by
  cases t <;> obtain ⟨i, rfl⟩ := ht
  · rcases hu i rfl with rfl | rfl <;> rfl
  · have hval : i = i.toUInt32.toInt32 := (Int32.toInt32_toUInt32 i).symm
    rcases hi i.toUInt32 (congrArg Value.i32 hval) with h | h <;> rw [h] at hval <;> cases hval <;>
      rfl
  · cases i <;> rfl

theorem simplifySelect_gives {cond trueVal falseVal : Expr}
    (hty : typeOf env (.select cond trueVal falseVal) = some ty)
    (hv : Gives host lane m (.select cond trueVal falseVal) v)
    (hmis : ¬MisfoldsSelect host lane m cond trueVal falseVal) :
    Yields (Gives host lane m · v) (simplifySelect fingerprint cond trueVal falseVal) := by
  obtain ⟨⟨tc, hc⟩, ht, hf⟩ := typeOf_select.mp hty
  obtain ⟨c, x, y, hcv, hx, hy, hres⟩ := hv.select_inv hty
  have hct := typeOf_has henv hc hcv
  unfold simplifySelect
  split
  case h_1 value =>
    cases hcv
    cases value
    · exact .some (hres ▸ hy)
    · exact .some (hres ▸ hx)
  case h_2 value =>
    cases hcv
    rw [truthy_u32] at hres
    by_cases hz : value = 0
    · rw [if_neg (by simp [hz])] at hres
      rw [if_pos hz]
      exact .some (hres ▸ hy)
    · rw [if_pos (by simp [hz])] at hres
      rw [if_neg hz]
      exact .some (hres ▸ hx)
  case h_3 hbool hu32 =>
    apply Yields.orElse
    · apply Yields.arm
      intro h
      cases eq_of_same ht h
      cases hx.unique hy
      rw [hres, ite_self]
      exact hx
    apply Yields.orElse
    · split
      case h_2 => exact .none
      case h_1 inner =>
        obtain ⟨ti, hi, -⟩ := typeOf_unOp.mp hc
        obtain ⟨p, hp, hnot⟩ := hcv.unOp_inv hc
        have hsel := hp.selectOn hy hx
        rw [truthy_logicalNot (typeOf_has henv hi hp) hnot] at hres
        cases htruth : p.truthy host.floats <;> rw [htruth] at hsel hres <;>
          exact .some (hres ▸ hsel)
    apply Yields.orElse
    · apply Yields.arm
      intro h
      obtain ⟨hone, hzero⟩ := Bool.and_eq_true_iff.mp h
      cases eq_of_isLitU32 hone
      cases eq_of_isLitU32 hzero
      cases hx
      cases hy
      rw [hres]
      apply hcv.cast
      apply castValue_truth hct
      · intro w hw
        by_contra hne
        rw [not_or] at hne
        exact hmis ⟨rfl, rfl, hu32, w, .inl (hw ▸ hcv), hne⟩
      · intro w hw
        by_contra hne
        rw [not_or] at hne
        exact hmis ⟨rfl, rfl, hu32, w, .inr (hw ▸ hcv), hne⟩
    apply Yields.orElse
    · apply Yields.arm
      intro h
      obtain ⟨hzero, hone⟩ := Bool.and_eq_true_iff.mp h
      cases eq_of_isLitU32 hone
      cases eq_of_isLitU32 hzero
      cases hx
      cases hy
      obtain ⟨k, hk⟩ : ∃ k, evalUnop host.floats .logicalNot c = .ok (.bool k) := by
        cases tc <;> obtain ⟨i, rfl⟩ := hct <;> exact ⟨_, rfl⟩
      have hnot := truthy_logicalNot hct hk
      rw [truthy_bool] at hnot
      apply (hcv.unOp hk).cast
      rw [hres]
      cases htruth : c.truthy host.floats <;> rw [htruth] at hnot <;> cases hnot <;> rfl
    apply Yields.orElse
    · split
      case h_2 => exact .none
      case h_1 inner innerTrue innerFalse =>
        apply Yields.arm
        intro h
        obtain ⟨⟨ti, hi⟩, hit, -⟩ := typeOf_select.mp ht
        obtain ⟨c', x', y', hcv', hx', -, hres'⟩ := hx.select_inv ht
        cases eq_of_same hi h
        cases hcv.unique hcv'
        have hsel := hcv.selectOn hx' hy
        cases htruth : c.truthy host.floats <;> simp_all
    · split
      case h_2 => exact .none
      case h_1 inner innerTrue innerFalse =>
        apply Yields.arm
        intro h
        obtain ⟨⟨ti, hi⟩, hit, -⟩ := typeOf_select.mp hf
        obtain ⟨c', x', y', hcv', -, hy', hres'⟩ := hy.select_inv hf
        cases eq_of_same hi h
        cases hcv.unique hcv'
        have hsel := hcv.selectOn hx hy'
        cases htruth : c.truthy host.floats <;> simp_all

omit henv in
theorem castValue_idempotent {target : DataType} {p : Value} (ht : t.Has p)
    (htarget : ScalarType.ofTarget target = some ty) (h : castValue fl target p = .ok a)
    (h' : castValue fl target a = .ok v) : a = v := by
  cases t <;> obtain ⟨i, rfl⟩ := ht <;> cases target <;> cases htarget <;> cases h <;> cases h' <;>
    simp only [truthy_bool]

theorem foldCast_gives {fl : FoldFloats} {target : DataType} {value : Expr}
    (hty : typeOf env (.cast target value) = some ty)
    (hv : Gives host lane m (.cast target value) v) :
    Yields (Gives host lane m · v) (foldCast fl target value) := by
  obtain ⟨⟨t, ho⟩, htarget⟩ := typeOf_cast.mp hty
  obtain ⟨a, ha, hcast⟩ := hv.cast_inv hty
  apply Yields.orElse
  · intro e he
    refine (foldCastLiteral_folded ?_ (operand_of_typeOf ho ha) hcast he).1.gives
    rintro rfl
    cases htarget
  · split
    case h_2 => exact .none
    case h_1 target' inner =>
      apply Yields.arm
      intro h
      cases of_decide_eq_true h
      obtain ⟨⟨t', hi⟩, -⟩ := typeOf_cast.mp ho
      obtain ⟨p, hp, hcast'⟩ := ha.cast_inv ho
      cases castValue_idempotent (typeOf_has henv hi hp) htarget hcast' hcast
      exact ha

end Others

section Folding

variable {env : ScalarEnv} {host : Host} {lane : Lane} {m : Memory}
  {fingerprint : Fingerprint} {fl : FoldFloats} {e : Expr} {ty : ScalarType}
  {v : Value}

theorem foldExpr_gives (henv : env.Describes lane m) (hty : typeOf env e = some ty)
    (hv : Gives host lane m e v) (hmis : ¬Misfolds env host lane m fl e) :
    Yields (Gives host lane m · v) (foldExpr fingerprint fl e) := by
  cases htree : foldLiteralTree fl e with
  | some e' =>
    unfold foldExpr
    rw [htree]
    exact .some (foldLiteralTree_folded (foldNode_of_typeOf hty) hv htree).1.gives
  | none =>
    unfold foldExpr
    rw [htree]
    refine .orElse .none ?_
    split
    case h_1 op l r =>
      obtain ⟨t, a, b, hl, hr, -, ha, hb, hat, -, hev⟩ := operands henv hty hv
      apply Yields.orElse
      · exact simplifyBinop_gives henv hl hr ha hb hev fun h => hmis ⟨htree, h⟩
      · exact fun e' he => (foldBinaryLiteral_folded (operand_of_typeOf hl ha)
          (operand_of_typeOf hr hb) hev he).1.gives
    case h_2 op operand =>
      obtain ⟨t, ho, -⟩ := typeOf_unOp.mp hty
      obtain ⟨a, ha, hev⟩ := hv.unOp_inv hty
      apply Yields.orElse
      · exact simplifyUnop_gives henv hty hv fun h => hmis ⟨htree, h⟩
      · exact fun e' he => (foldUnaryLiteral_folded (operand_of_typeOf ho ha) hev he).1.gives
    case h_3 cond trueVal falseVal =>
      exact simplifySelect_gives henv hty hv fun h => hmis ⟨htree, h⟩
    case h_4 => cases hty
    case h_5 target value => exact foldCast_gives henv hty hv
    case h_6 => exact .none

/-! ### The misfires -/

variable {op : BinOp} {l r x : Expr} {t : ScalarType}

/-- What `simplify_binop` returns is what `fold_expr` returns, on what is not a
literal tree. -/
theorem foldExpr_of_simplifyBinop {e' : Expr} (htree : foldLiteralTree fl (.binOp op l r) = none)
    (h : simplifyBinop fingerprint op l r = some e') :
    foldExpr fingerprint fl (.binOp op l r) = some e' := by
  unfold foldExpr
  rw [htree]
  dsimp only
  rw [h]
  rfl

/-- The operators that are evaluated on any two equal integer literals. -/
def IsCancelling (op : BinOp) : Prop :=
  op = .sub ∨ op = .bitXor ∨ op = .wrappingSub ∨ op = .saturatingSub ∨ op = .mod ∨ op = .div

theorem exprScalarLiteral_eq_none (htree : foldLiteralTree fl (.binOp op l l) = none)
    (hl : typeOf env l = some t) (ht : t ≠ .bool) (hop : IsCancelling op ∨ op = .and ∨ op = .or) :
    exprScalarLiteral l = none := by
  cases l
  case litU32 x | litI32 x =>
    rcases hop with (rfl | rfl | rfl | rfl | rfl | rfl) | rfl | rfl <;> cases htree
  case litBool x =>
    cases hl
    exact absurd rfl ht
  case litF32 bits => cases hl
  all_goals rfl

theorem table_eq_none {same : Bool} (hop : IsCancelling op) :
    binopIdentityReplacement op same none none = none := by
  rcases hop with rfl | rfl | rfl | rfl | rfl | rfl <;> cases same <;> rfl

section

variable (hl : typeOf env l = some t)

include hl

theorem tangent_eq_none : tangent fingerprint l r = none := by
  unfold tangent
  split
  case h_1 x y =>
    obtain ⟨ty, -, hop⟩ := typeOf_unOp.mp hl
    cases hop
  case h_2 => rfl

theorem simplifyDiv_self (hlit : exprScalarLiteral l = none) :
    simplifyDiv fingerprint l l = some (.u32 1) := by
  have hone : isOne l = false := by
    rw [isOne, hlit]
    rfl
  have hminus : isLitI32 (-1) l = false := by
    cases l
    case litI32 x => cases hlit
    all_goals rfl
  unfold simplifyDiv
  rw [hone, hminus, isLitF32_eq_false hl, tangent_eq_none hl, same_self hl,
    isFloatExpr_eq_false hl]
  rfl

/-- An operand without itself, or divided by itself, is a `u32` literal. -/
theorem simplifyBinop_cancel (hlit : exprScalarLiteral l = none)
    (hop : IsCancelling op) :
    simplifyBinop fingerprint op l l = some (.u32 (if op = .div then 1 else 0)) := by
  have hsame : Expr.same fingerprint l l = true := same_self hl
  have hzero : isZero l = false := by
    rw [isZero, hlit]
    rfl
  have hint : isIntZero l = false := by
    rw [isIntZero, hlit]
    rfl
  have hone : isOne l = false := by
    rw [isOne, hlit]
    rfl
  unfold simplifyBinop
  rw [hlit, table_eq_none hop]
  rcases hop with rfl | rfl | rfl | rfl | rfl | rfl <;> first
    | exact simplifyDiv_self hl hlit
    | simp [simplifyByOperator, simplifySub, simplifyBitXor, simplifyMod, arm, hsame,
        hint, hzero, hone]

end

theorem not_Gives.u32 {x : UInt32} (h : v ≠ .u32 x) : ¬Gives host lane m (.u32 x) v := by
  intro hx
  cases hx
  exact h rfl

variable (henv : env.Describes lane m)

include henv

/-- The type of a cancelled operation on `i32` is not `u32`. -/
theorem cancel_wrong (hop : IsCancelling op) (hl : typeOf env l = some .i32)
    (hv : Gives host lane m (.binOp op l l) v) (htree : foldLiteralTree fl (.binOp op l l) = none) :
    ∃ e', foldExpr fingerprint fl (.binOp op l l) = some e' ∧ ¬Gives host lane m e' v := by
  have hty : typeOf env (.binOp op l l) = some .i32 := by
    apply typeOf_binOp.mpr
    rcases hop with rfl | rfl | rfl | rfl | rfl | rfl <;> exact ⟨.i32, hl, hl, rfl⟩
  have hlit := exprScalarLiteral_eq_none htree hl (by decide) (.inl hop)
  obtain ⟨x, rfl⟩ := typeOf_has henv hty hv
  exact ⟨_, foldExpr_of_simplifyBinop htree (simplifyBinop_cancel hl hlit hop),
    not_Gives.u32 (by simp)⟩

omit henv in
/-- Zero by itself is the greatest `u32`. -/
theorem div_zero_wrong (hl : typeOf env l = some .u32) (hz : Gives host lane m l (.u32 0))
    (hv : Gives host lane m (.binOp .div l l) v)
    (htree : foldLiteralTree fl (.binOp .div l l) = none) :
    ∃ e', foldExpr fingerprint fl (.binOp .div l l) = some e' ∧ ¬Gives host lane m e' v := by
  have hop : IsCancelling .div := by simp [IsCancelling]
  have hlit := exprScalarLiteral_eq_none htree hl (by decide) (.inl hop)
  have hmax : Gives host lane m (.binOp .div l l) (.u32 maxU32) := hz.binOp hz rfl
  cases hv.unique hmax
  exact ⟨_, foldExpr_of_simplifyBinop htree (simplifyBinop_cancel hl hlit hop),
    not_Gives.u32 (by simp [maxU32])⟩

theorem mod_one_wrong (hl : typeOf env l = some .i32)
    (hv : Gives host lane m (.binOp .mod l (.litI32 1)) v)
    (htree : foldLiteralTree fl (.binOp .mod l (.litI32 1)) = none) :
    ∃ e', foldExpr fingerprint fl (.binOp .mod l (.litI32 1)) = some e' ∧
      ¬Gives host lane m e' v := by
  have hty : typeOf env (.binOp .mod l (.litI32 1)) = some .i32 :=
    typeOf_binOp.mpr ⟨.i32, hl, rfl, rfl⟩
  obtain ⟨x, rfl⟩ := typeOf_has henv hty hv
  have hrule : simplifyBinop fingerprint .mod l (.litI32 1) = some (.u32 0) := by
    unfold simplifyBinop
    have htable : ∀ same lhs, binopIdentityReplacement .mod same lhs (some (.i32 1)) = none := by
      intro same lhs
      cases same <;> rfl
    rw [exprScalarLiteral, htable]
    rfl
  exact ⟨_, foldExpr_of_simplifyBinop htree hrule, not_Gives.u32 (by simp)⟩

omit henv in
theorem simplifyBinop_logical {unit : Bool} (hop : IsLogical op unit) (hl : typeOf env l = some t)
    (hlit : exprScalarLiteral l = none) : simplifyBinop fingerprint op l l = some l := by
  have hbool : ∀ k, isLitBool k l = false := by
    intro k
    cases l
    case litBool x => cases hlit
    all_goals rfl
  have hsame : Expr.same fingerprint l l = true := same_self hl
  -- The table has the row for simple operands only; the arm is for the others.
  have htable : ∀ pure, binopIdentityReplacement op (true && pure) none none =
      if pure then some .left else none := by
    intro pure
    rcases hop with ⟨rfl, rfl⟩ | ⟨rfl, rfl⟩ <;> cases pure <;> rfl
  have hrule : simplifyByOperator fingerprint op l l = some l := by
    rcases hop with ⟨rfl, rfl⟩ | ⟨rfl, rfl⟩ <;>
      simp [simplifyByOperator, simplifyLogical, arm, hsame, hbool]
  unfold simplifyBinop
  rw [hlit, hsame, htable]
  cases isSimplePure l
  · exact hrule
  · rfl

theorem logical_wrong {unit : Bool} (hop : IsLogical op unit) (hl : typeOf env l = some t)
    (ht : t ≠ .bool) (hv : Gives host lane m (.binOp op l l) v)
    (htree : foldLiteralTree fl (.binOp op l l) = none) :
    ∃ e', foldExpr fingerprint fl (.binOp op l l) = some e' ∧ ¬Gives host lane m e' v := by
  have hty : typeOf env (.binOp op l l) = some .bool :=
    typeOf_binOp.mpr ⟨t, hl, hl, hop.binop⟩
  have hlit : exprScalarLiteral l = none := by
    apply exprScalarLiteral_eq_none htree hl ht
    rcases hop with ⟨rfl, -⟩ | ⟨rfl, -⟩ <;> simp
  obtain ⟨k, rfl⟩ := typeOf_has henv hty hv
  refine ⟨l, foldExpr_of_simplifyBinop htree (simplifyBinop_logical hop hl hlit), fun hk => ht ?_⟩
  have hkt := typeOf_has henv hl hk
  cases t <;> obtain ⟨x, hx⟩ := hkt <;> cases hx
  rfl

section

variable (hop : op = .shl ∨ op = .shr)

include hop

omit henv in
theorem simplifyBinop_shift {p q : UInt32} (hq : q ≠ 0) :
    simplifyBinop fingerprint op (.binOp op x (.litU32 p)) (.litU32 q) =
      some (.binOp op x (.u32 (fusedShift p q))) := by
  have hz : (q == 0) = false := beq_eq_false_iff_ne.mpr hq
  have htable : ∀ same, binopIdentityReplacement op same none (some (.u32 q)) = none := by
    intro same
    unfold binopIdentityReplacement
    have hany : (some (ScalarLiteral.u32 q)).any (·.isNumericZero) = false := hz
    rw [hany]
    rcases hop with rfl | rfl <;> cases same <;> rfl
  have hrule : simplifyShift op (.binOp op x (.litU32 p)) (.litU32 q) =
      some (.binOp op x (.u32 (fusedShift p q))) := by
    simp [simplifyShift, arm, isLitU32, hz]
  unfold simplifyBinop
  rw [show exprScalarLiteral (.binOp op x (.litU32 p)) = none from rfl,
    show exprScalarLiteral (.litU32 q) = some (.u32 q) from rfl, htable]
  rcases hop with rfl | rfl <;> exact hrule

omit henv in
theorem gives_shift {w : UInt32} (hw : Gives host lane m x (.u32 w))
    (p : UInt32) :
    Gives host lane m (.binOp op x (.litU32 p)) (.u32 (shiftU32 w p (op = .shl))) := by
  rcases hop with rfl | rfl <;> exact hw.binOp (Gives.u32 p) rfl

omit henv in
theorem shift_wrong {p q w : UInt32} (hq : q ≠ 0)
    (hw : Gives host lane m x (.u32 w)) (hap : ShiftsApart op w p q)
    (hv : Gives host lane m (.binOp op (.binOp op x (.litU32 p)) (.litU32 q)) v)
    (htree : foldLiteralTree fl (.binOp op (.binOp op x (.litU32 p)) (.litU32 q)) = none) :
    ∃ e', foldExpr fingerprint fl (.binOp op (.binOp op x (.litU32 p)) (.litU32 q)) = some e' ∧
      ¬Gives host lane m e' v := by
  refine ⟨_, foldExpr_of_simplifyBinop htree (simplifyBinop_shift hop hq),
    fun hfused => (shiftsApart_iff hop).mp hap ?_⟩
  have htwice := gives_shift hop (gives_shift hop hw p) q
  have honce := gives_shift hop hw (fusedShift p q)
  exact Value.u32.inj ((htwice.unique hv).trans (hfused.unique honce))

end

theorem misfoldsBinop_wrong (hty : typeOf env (.binOp op l r) = some ty)
    (hv : Gives host lane m (.binOp op l r) v) (htree : foldLiteralTree fl (.binOp op l r) = none)
    (hmis : MisfoldsBinop env host lane m op l r) :
    ∃ e', foldExpr fingerprint fl (.binOp op l r) = some e' ∧ ¬Gives host lane m e' v := by
  obtain ⟨t, hl, hr, hop⟩ := typeOf_binOp.mp hty
  cases op
  case sub | bitXor | wrappingSub | saturatingSub =>
    obtain ⟨rfl, hi⟩ := hmis
    exact cancel_wrong henv (by simp [IsCancelling]) hi hv htree
  case mod =>
    obtain ⟨rfl | rfl, hi⟩ := hmis
    · exact mod_one_wrong henv hi hv htree
    · exact cancel_wrong henv (by simp [IsCancelling]) hi hv htree
  case div =>
    obtain ⟨rfl, hi | hz⟩ := hmis
    · exact cancel_wrong henv (by simp [IsCancelling]) hi hv htree
    · have hzt := typeOf_has henv hl hz
      cases t <;> obtain ⟨x, hx⟩ := hzt <;> cases hx
      exact div_zero_wrong hl hz hv htree
  case and =>
    obtain ⟨rfl, hne⟩ := hmis
    exact logical_wrong henv (.inl ⟨rfl, rfl⟩) hl (fun h => hne (h ▸ hl)) hv htree
  case or =>
    obtain ⟨rfl, hne⟩ := hmis
    exact logical_wrong henv (.inr ⟨rfl, rfl⟩) hl (fun h => hne (h ▸ hl)) hv htree
  case shl | shr =>
    obtain ⟨x, p, q, w, rfl, rfl, hq, hw, hap⟩ := hmis
    exact shift_wrong (by simp) hq hw hap hv htree
  all_goals cases hmis

theorem misfoldsUnop_wrong {op : UnOp} {operand : Expr}
    (hty : typeOf env (.unOp op operand) = some ty) (hv : Gives host lane m (.unOp op operand) v)
    (htree : foldLiteralTree fl (.unOp op operand) = none) (hmis : MisfoldsUnop env op operand) :
    ∃ e', foldExpr fingerprint fl (.unOp op operand) = some e' ∧ ¬Gives host lane m e' v := by
  obtain ⟨rfl, x, rfl, hne⟩ := hmis
  obtain ⟨t, ho, hop⟩ := typeOf_unOp.mp hty
  obtain ⟨t', hx, -⟩ := typeOf_unOp.mp ho
  cases hop
  have hfold : foldExpr fingerprint fl (.unOp .logicalNot (.unOp .logicalNot x)) = some x := by
    unfold foldExpr
    rw [htree]
    rfl
  refine ⟨x, hfold, fun hxv => hne ?_⟩
  obtain ⟨k, rfl⟩ := typeOf_has henv hty hv
  have hkt := typeOf_has henv hx hxv
  cases t' <;> obtain ⟨i, hi⟩ := hkt <;> cases hi
  exact hx

omit henv in
/-- An integer condition is not a `bool` literal nor a negation, so the selection of one or
zero by it is a cast. -/
theorem foldExpr_select {cond : Expr} (hty : typeOf env cond ≠ some .bool)
    (hlit : ∀ x, cond ≠ .litU32 x) (hc : ∃ t, typeOf env cond = some t) :
    foldExpr fingerprint fl (.select cond (.litU32 1) (.litU32 0)) = some (.cast .u32 cond) := by
  have hrule :
      simplifySelect fingerprint cond (.litU32 1) (.litU32 0) = some (.cast .u32 cond) := by
    unfold simplifySelect
    split
    case h_1 value => exact absurd rfl hty
    case h_2 value => exact absurd rfl (hlit value)
    case h_3 =>
      split
      case h_1 inner =>
        obtain ⟨t, hnot⟩ := hc
        obtain ⟨t', hi, hop⟩ := typeOf_unOp.mp hnot
        exact absurd (typeOf_unOp.mpr ⟨t', hi, rfl⟩) hty
      case h_2 => rfl
  exact hrule

theorem misfoldsSelect_wrong {cond trueVal falseVal : Expr}
    (hty : typeOf env (.select cond trueVal falseVal) = some ty)
    (hv : Gives host lane m (.select cond trueVal falseVal) v)
    (hmis : MisfoldsSelect host lane m cond trueVal falseVal) :
    ∃ e', foldExpr fingerprint fl (.select cond trueVal falseVal) = some e' ∧
      ¬Gives host lane m e' v := by
  obtain ⟨rfl, rfl, hlit, w, hw, hzero, hone⟩ := hmis
  obtain ⟨⟨tc, hc⟩, -, -⟩ := typeOf_select.mp hty
  obtain ⟨c, hcw, hint, hcast, htruth⟩ : ∃ c, Gives host lane m cond c ∧ (∀ k, c ≠ .bool k) ∧
      castValue host.floats .u32 c = .ok (.u32 w) ∧ c.truthy host.floats = true := by
    rcases hw with hw | hw
    · exact ⟨_, hw, by simp, rfl, by simp [truthy_u32, hzero]⟩
    · have hbits : w.toInt32.toUInt32 = w := UInt32.toUInt32_toInt32 w
      have hne : w.toInt32 ≠ 0 := by
        intro h
        rw [h] at hbits
        exact hzero hbits.symm
      exact ⟨_, hw, by simp, by rw [castValue, hbits], by simp [truthy_i32, hne]⟩
  have hcty : typeOf env cond ≠ some .bool := by
    intro h
    obtain ⟨k, hk⟩ := typeOf_has henv h hcw
    exact hint k hk
  refine ⟨_, foldExpr_select hcty hlit ⟨tc, hc⟩, fun hcv => hone ?_⟩
  have hval := hcw.selectOn (Gives.u32 1) (Gives.u32 0)
  rw [htruth] at hval
  cases hv.unique hval
  exact Value.u32.inj ((hcw.cast hcast).unique hcv)

/-- Constant folding keeps the value of an expression exactly when no rule misfires:
every rewriting of a typed expression that evaluates gives the same value, of the
same type, unless the expression is one of `Misfolds`. -/
theorem foldExpr_value_iff (hty : typeOf env e = some ty) (hv : Gives host lane m e v) :
    (∀ e', foldExpr fingerprint fl e = some e' → Gives host lane m e' v) ↔
      ¬Misfolds env host lane m fl e := by
  constructor
  · intro hgives hmis
    obtain ⟨htree, hmis⟩ := hmis
    obtain ⟨e', hfold, hwrong⟩ : ∃ e', foldExpr fingerprint fl e = some e' ∧
        ¬Gives host lane m e' v := by
      split at hmis
      case h_1 op l r => exact misfoldsBinop_wrong henv hty hv htree hmis
      case h_2 op operand => exact misfoldsUnop_wrong henv hty hv htree hmis
      case h_3 cond trueVal falseVal => exact misfoldsSelect_wrong henv hty hv hmis
      case h_4 => cases hmis
    exact hwrong (hgives e' hfold)
  · intro hmis
    exact foldExpr_gives henv hty hv hmis

end Folding

def scalarLane : Lane :=
  ⟨⟨(0, 0, 0), (0, 0, 0), (0, 0, 0)⟩, 0, fun name =>
    if name = "zero" then some (.u32 0) else if name = "one" then some (.u32 1)
    else if name = "signed" then some (.i32 7) else none⟩

def noBuffers : Memory := ⟨fun _ => none, fun _ => none⟩

def scalarEnv : ScalarEnv where
  vars name :=
    if name = "zero" then some .u32 else if name = "one" then some .u32
    else if name = "signed" then some .i32 else none
  buffers _ := none

def integerFloats : FoldFloats := { integerHost.floats with rem := fun a _ => a }

theorem scalarEnv_describes : scalarEnv.Describes scalarLane noBuffers where
  vars name ty v hty hv := by
    simp only [scalarEnv, scalarLane] at hty hv
    split_ifs at hty hv <;> cases hty <;> cases hv <;> exact ⟨_, rfl⟩
  buffers buffer ty b hty hb := by cases hty

/-- `zero / zero`. -/
def zeroQuotient : Expr := .binOp .div (.var "zero") (.var "zero")

/-- `(one << 16) << 16`. -/
def wideShift : Expr := .binOp .shl (.binOp .shl (.var "one") (.litU32 16)) (.litU32 16)

/-- `signed - signed`. -/
def signedDifference : Expr := .binOp .sub (.var "signed") (.var "signed")

theorem foldExpr_changes_values :
    scalarEnv.Describes scalarLane noBuffers ∧
    (typeOf scalarEnv zeroQuotient = some .u32 ∧
      Gives integerHost scalarLane noBuffers zeroQuotient (.u32 0xFFFFFFFF) ∧
      foldExpr (fun _ => []) integerFloats zeroQuotient = some (.litU32 1)) ∧
    (typeOf scalarEnv wideShift = some .u32 ∧
      Gives integerHost scalarLane noBuffers wideShift (.u32 0) ∧
      ∃ e, foldExpr (fun _ => []) integerFloats wideShift = some e ∧
        Gives integerHost scalarLane noBuffers e (.u32 0x80000000)) ∧
    (typeOf scalarEnv signedDifference = some .i32 ∧
      Gives integerHost scalarLane noBuffers signedDifference (.i32 0) ∧
      foldExpr (fun _ => []) integerFloats signedDifference = some (.litU32 0)) := by
  exact ⟨scalarEnv_describes, ⟨rfl, rfl, rfl⟩, ⟨rfl, rfl, _, rfl, rfl⟩, rfl, rfl, rfl⟩

/-- `one + 0` is rewritten to `one`. -/
theorem foldExpr_value_iff_sum :
    (∀ e', foldExpr (fun _ => []) integerFloats (.binOp .add (.var "one") (.litU32 0)) = some e' →
        Gives integerHost scalarLane noBuffers e' (.u32 1)) ↔
      ¬Misfolds scalarEnv integerHost scalarLane noBuffers integerFloats
        (.binOp .add (.var "one") (.litU32 0)) :=
  foldExpr_value_iff scalarEnv_describes rfl rfl

end Vyre.ConstFold
