import Vyre.Ir.Same
import Vyre.Reference.Kernel

/-!
# Integer and boolean expressions

The types under which the interpreter evaluates an expression over `u32`, `i32`
and `bool` without effects: both operands of an operator have one type, and the
operator is defined at it. A `bool` buffer is read back as `u32`, so loads have
an integer type.

An expression that has a type here reads no float, calls nothing and writes
nothing; its value is of its type, whatever the memory holds.
-/

namespace Vyre

open Reference StateExcept Option

/-- The types at which operators are exact. -/
inductive ScalarType where
  | u32
  | i32
  | bool
deriving DecidableEq

namespace ScalarType

def Has : ScalarType → Value → Prop
  | .u32, v => ∃ x, v = .u32 x
  | .i32, v => ∃ x, v = .i32 x
  | .bool, v => ∃ x, v = .bool x

def dataType : ScalarType → DataType
  | .u32 => .u32
  | .i32 => .i32
  | .bool => .bool

/-- The type of the result, both operands being of type `ty`. -/
def binop (op : BinOp) (ty : ScalarType) : Option ScalarType :=
  match op with
  | .eq | .ne | .and | .or => some .bool
  | .lt | .gt | .le | .ge => if ty = .bool then none else some .bool
  | .add | .sub | .mul | .div | .mod | .bitAnd | .bitOr | .bitXor | .shl | .shr | .min | .max
  | .wrappingAdd | .wrappingSub | .saturatingAdd | .saturatingSub | .saturatingMul =>
      if ty = .bool then none else some ty
  | .absDiff => if ty = .bool then none else some .u32
  | .rotateLeft | .rotateRight | .mulHigh => if ty = .u32 then some .u32 else none
  | _ => none

def unop (op : UnOp) (ty : ScalarType) : Option ScalarType :=
  match op with
  | .logicalNot => some .bool
  | .negate | .bitNot | .popcount | .clz | .ctz | .reverseBits =>
      if ty = .bool then none else some ty
  | _ => none

def ofTarget : DataType → Option ScalarType
  | .u32 => some .u32
  | .i32 => some .i32
  | .bool => some .bool
  | _ => none

end ScalarType

/-- Types of the variables, and of what a load of a buffer gives. -/
structure ScalarEnv where
  vars : Ident → Option ScalarType
  buffers : Ident → Option ScalarType

/-- The type of a well-typed expression without effects. -/
def typeOf (env : ScalarEnv) : Expr → Option ScalarType
  | .litU32 _ | .bufLen _ | .invocationId _ | .workgroupId _ | .localId _ => some .u32
  | .litI32 _ => some .i32
  | .litBool _ => some .bool
  | .var name => env.vars name
  | .load buffer index => if typeOf env index = some .u32 then env.buffers buffer else none
  | .binOp op left right =>
      if typeOf env left = typeOf env right then (typeOf env left).bind (ScalarType.binop op)
        else none
  | .unOp op operand => (typeOf env operand).bind (ScalarType.unop op)
  | .select cond trueVal falseVal =>
      if (typeOf env cond).isSome ∧ typeOf env trueVal = typeOf env falseVal then typeOf env trueVal
      else none
  | .cast target value => if (typeOf env value).isSome then ScalarType.ofTarget target else none
  | _ => none

/-- The lane and the buffers hold values of these types. -/
structure ScalarEnv.Describes (env : ScalarEnv) (lane : Lane) (m : Memory) : Prop where
  vars : ∀ name ty v, env.vars name = some ty → lane.locals name = some v → ty.Has v
  buffers : ∀ buffer ty b, env.buffers buffer = some ty → m.find buffer = some b →
    Buffer.conformType b.element = ty.dataType

section Inversion

variable {env : ScalarEnv} {ty : ScalarType}

-- Generates the equations of `typeOf` once, before the proofs that use them.
attribute [local simp] typeOf in
theorem typeOf_binOp {op : BinOp} {left right : Expr} :
    typeOf env (.binOp op left right) = some ty ↔
      ∃ operand, typeOf env left = some operand ∧ typeOf env right = some operand ∧
        operand.binop op = some ty := by
  rw [typeOf, ite_none_right_eq_some, bind_eq_some_iff]
  grind

theorem typeOf_unOp {op : UnOp} {operand : Expr} :
    typeOf env (.unOp op operand) = some ty ↔
      ∃ ty', typeOf env operand = some ty' ∧ ty'.unop op = some ty := by
  exact bind_eq_some_iff

theorem typeOf_select {cond trueVal falseVal : Expr} :
    typeOf env (.select cond trueVal falseVal) = some ty ↔
      (∃ ty', typeOf env cond = some ty') ∧ typeOf env trueVal = some ty ∧
        typeOf env falseVal = some ty := by
  rw [typeOf, ite_none_right_eq_some, isSome_iff_exists]
  grind

theorem typeOf_cast {target : DataType} {value : Expr} :
    typeOf env (.cast target value) = some ty ↔
      (∃ ty', typeOf env value = some ty') ∧ ScalarType.ofTarget target = some ty := by
  rw [typeOf, ite_none_right_eq_some, isSome_iff_exists]

theorem typeOf_load {buffer : Ident} {index : Expr} :
    typeOf env (.load buffer index) = some ty ↔
      typeOf env index = some .u32 ∧ env.buffers buffer = some ty := by
  rw [typeOf, ite_none_right_eq_some]

end Inversion

section Values

variable {fl : Floats} {ty ty' : ScalarType} {a b v : Value}

/-- An operator keeps its typing rule. -/
theorem evalBinop_has {op : BinOp} (ha : ty.Has a) (hb : ty.Has b) (hop : ty.binop op = some ty')
    (hv : evalBinop fl op a b = .ok v) : ty'.Has v := by
  cases ty with
  | u32 | bool =>
    obtain ⟨x, rfl⟩ := ha
    obtain ⟨y, rfl⟩ := hb
    cases op <;> cases hop <;> cases hv <;> exact ⟨_, rfl⟩
  | i32 =>
    obtain ⟨x, rfl⟩ := ha
    obtain ⟨y, rfl⟩ := hb
    cases op
    case div | mod =>
      cases hop
      obtain ⟨q, -, rfl⟩ := ByteCodec.map_eq_ok.mp hv
      exact ⟨_, rfl⟩
    all_goals cases hop <;> cases hv <;> exact ⟨_, rfl⟩

theorem evalUnop_has {op : UnOp} (ha : ty.Has a) (hop : ty.unop op = some ty')
    (hv : evalUnop fl op a = .ok v) : ty'.Has v := by
  cases ty <;> obtain ⟨x, rfl⟩ := ha <;> cases op <;> cases hop <;> cases hv <;> exact ⟨_, rfl⟩

theorem castValue_has {target : DataType} (ha : ty.Has a)
    (htarget : ScalarType.ofTarget target = some ty') (hv : castValue fl target a = .ok v) :
    ty'.Has v := by
  cases ty <;> obtain ⟨x, rfl⟩ := ha <;> cases target <;> cases htarget <;> cases hv <;>
    exact ⟨_, rfl⟩

/-- A load is of the type of its buffer, also past the end. -/
theorem Reference.Buffer.load_has {b : Buffer} {ty : ScalarType}
    (hty : Buffer.conformType b.element = ty.dataType) (index : UInt32) :
    ty.Has (b.load fl index) := by
  have hzero : ty.Has (Value.zeroFor ty.dataType) := by
    cases ty <;> exact ⟨_, rfl⟩
  have hread : ∀ bytes,
      ty.Has ((Value.fromElementBytes fl ty.dataType bytes).getD (Value.zeroFor ty.dataType)) := by
    intro bytes
    cases ty with
    | u32 | i32 | bool =>
      simp only [ScalarType.dataType, Value.fromElementBytes]
      split
      · exact ⟨_, rfl⟩
      · exact ⟨_, rfl⟩
  have hbytes : b.element ≠ .bytes := by
    intro h
    rw [h] at hty
    cases ty <;> cases hty
  unfold Buffer.load
  rw [hty]
  simp only [if_neg hbytes]
  split
  · exact hzero
  · split
    · exact hzero
    · exact hread _

end Values

/-! ## Evaluation -/

section Evaluation

variable {env : ScalarEnv} {host : Host} {lane : Lane} {m m' : Memory} {v : Value}

variable {e : Expr} {ty : ScalarType}

/-- What a typed expression does not contain. -/
theorem forall_of_typeOf {R : Memory → Memory → Prop} (h : typeOf env e = some ty) :
    e.Forall fun e => e.HasFields ∧ AtomicsKeep R e ∧ ∀ value, e ≠ .cast .f32 value := by
  induction e generalizing ty with
  | load buffer index ih => exact ⟨⟨trivial, trivial, nofun⟩, ih (typeOf_load.mp h).1⟩
  | binOp op left right ihl ihr =>
    obtain ⟨operand, hl, hr, -⟩ := typeOf_binOp.mp h
    exact ⟨⟨trivial, trivial, nofun⟩, ihl hl, ihr hr⟩
  | unOp op operand ih =>
    obtain ⟨ty', ho, -⟩ := typeOf_unOp.mp h
    exact ⟨⟨trivial, trivial, nofun⟩, ih ho⟩
  | select cond trueVal falseVal ihc iht ihf =>
    obtain ⟨⟨ty', hc⟩, ht, hf⟩ := typeOf_select.mp h
    exact ⟨⟨trivial, trivial, nofun⟩, ihc hc, iht ht, ihf hf⟩
  | cast target value ih =>
    obtain ⟨⟨ty', hval⟩, htarget⟩ := typeOf_cast.mp h
    refine ⟨⟨trivial, trivial, ?_⟩, ih hval⟩
    rintro value ⟨⟩
    cases htarget
  | litU32 | litI32 | litBool | var | bufLen | invocationId | workgroupId | localId =>
    exact ⟨trivial, trivial, nofun⟩
  | _ => cases h

/-- A typed expression writes nothing. -/
theorem typeOf_keeps (h : typeOf env e = some ty) : Keeps Eq (evalExpr host [lane] e lane) :=
  keeps_evalExpr ((forall_of_typeOf h).imp fun _ he => he.2.1) lane

theorem gives_of_eval (h : typeOf env e = some ty)
    (hv : evalExpr host [lane] e lane m = .ok (v, m')) :
    Gives host lane m e v ∧ m' = m := by
  have hm : m = m' := typeOf_keeps h m v m' hv
  subst hm
  exact ⟨hv, rfl⟩

theorem Reference.Gives.binOp_inv {op : BinOp} {left right : Expr}
    (h : typeOf env (.binOp op left right) = some ty)
    (hv : Gives host lane m (.binOp op left right) v) :
    ∃ a b, Gives host lane m left a ∧ Gives host lane m right b ∧
      evalBinop host.floats op a b = .ok v := by
  obtain ⟨operand, hl, hr, -⟩ := typeOf_binOp.mp h
  obtain ⟨a, m₁, ha, hrest⟩ := bind_eq_ok.mp hv
  obtain ⟨b, m₂, hb, hop⟩ := bind_eq_ok.mp hrest
  obtain ⟨ha, rfl⟩ := gives_of_eval hl ha
  obtain ⟨hb, rfl⟩ := gives_of_eval hr hb
  exact ⟨a, b, ha, hb, (lift_eq_ok.mp hop).1⟩

theorem Reference.Gives.unOp_inv {op : UnOp} {operand : Expr}
    (h : typeOf env (.unOp op operand) = some ty) (hv : Gives host lane m (.unOp op operand) v) :
    ∃ a, Gives host lane m operand a ∧ evalUnop host.floats op a = .ok v := by
  obtain ⟨ty', ho, -⟩ := typeOf_unOp.mp h
  obtain ⟨a, m₁, ha, hop⟩ := bind_eq_ok.mp hv
  obtain ⟨ha, rfl⟩ := gives_of_eval ho ha
  exact ⟨a, ha, (lift_eq_ok.mp hop).1⟩

theorem Reference.Gives.cast_inv {target : DataType} {value : Expr}
    (h : typeOf env (.cast target value) = some ty)
    (hv : Gives host lane m (.cast target value) v) :
    ∃ a, Gives host lane m value a ∧ castValue host.floats target a = .ok v := by
  obtain ⟨⟨ty', hval⟩, -⟩ := typeOf_cast.mp h
  obtain ⟨a, m₁, ha, hop⟩ := bind_eq_ok.mp hv
  obtain ⟨ha, rfl⟩ := gives_of_eval hval ha
  exact ⟨a, ha, (lift_eq_ok.mp hop).1⟩

theorem Reference.Gives.select_inv {cond trueVal falseVal : Expr}
    (h : typeOf env (.select cond trueVal falseVal) = some ty)
    (hv : Gives host lane m (.select cond trueVal falseVal) v) :
    ∃ c t f, Gives host lane m cond c ∧ Gives host lane m trueVal t ∧ Gives host lane m falseVal f ∧
      v = if c.truthy host.floats then t else f := by
  obtain ⟨⟨ty', hc⟩, ht, hf⟩ := typeOf_select.mp h
  simp only [Gives, evalExpr, bind_eq_ok] at hv
  obtain ⟨c, m₁, hcv, t, m₂, htv, f, m₃, hfv, ⟨⟩⟩ := hv
  obtain ⟨hcv, rfl⟩ := gives_of_eval hc hcv
  obtain ⟨htv, rfl⟩ := gives_of_eval ht htv
  exact ⟨c, t, f, hcv, htv, hfv, rfl⟩

theorem Reference.Gives.unique {v' : Value} (h : Gives host lane m e v)
    (h' : Gives host lane m e v') : v = v' :=
  (Prod.mk.inj (Except.ok.inj (h.symm.trans h'))).1

theorem Reference.Gives.unOp {op : UnOp} {operand : Expr} {a : Value}
    (ha : Gives host lane m operand a) (hop : evalUnop host.floats op a = .ok v) :
    Gives host lane m (.unOp op operand) v :=
  bind_eq_ok.mpr ⟨a, m, ha, lift_eq_ok.mpr ⟨hop, rfl⟩⟩

theorem Reference.Gives.cast {target : DataType} {value : Expr} {a : Value}
    (ha : Gives host lane m value a) (hcast : castValue host.floats target a = .ok v) :
    Gives host lane m (.cast target value) v :=
  bind_eq_ok.mpr ⟨a, m, ha, lift_eq_ok.mpr ⟨hcast, rfl⟩⟩

theorem axisValue_has {ids : Dim3} {axis : UInt8} (h : axisValue ids axis = .ok v) :
    ScalarType.u32.Has v := by
  unfold axisValue at h
  repeat' split at h
  all_goals cases h
  all_goals exact ⟨_, rfl⟩

/-- The value of a typed expression is of its type. -/
theorem typeOf_has (henv : env.Describes lane m) (h : typeOf env e = some ty)
    (hv : Gives host lane m e v) : ty.Has v := by
  induction e generalizing ty v with
  | litU32 value | litI32 value | litBool value =>
    cases h
    cases hv
    exact ⟨_, rfl⟩
  | var name =>
    exact henv.vars name ty v h (orFail_eq_ok.mp hv).1
  | load buffer index ih =>
    obtain ⟨hindex, hbuffer⟩ := typeOf_load.mp h
    obtain ⟨i, idx, b, -, -, hfind, rfl⟩ := evalExpr_load_eq_ok.mp hv
    exact Buffer.load_has (henv.buffers buffer ty b hbuffer hfind) idx
  | bufLen buffer =>
    cases h
    simp only [Gives, evalExpr, bind_eq_ok] at hv
    obtain ⟨_, _, -, b, _, -, ⟨⟩⟩ := hv
    exact ⟨_, rfl⟩
  | invocationId axis | workgroupId axis | localId axis =>
    cases h
    exact axisValue_has (lift_eq_ok.mp hv).1
  | binOp op left right ihl ihr =>
    obtain ⟨operand, hl, hr, hop⟩ := typeOf_binOp.mp h
    obtain ⟨a, b, ha, hb, hev⟩ := hv.binOp_inv h
    exact evalBinop_has (ihl hl ha) (ihr hr hb) hop hev
  | unOp op operand ih =>
    obtain ⟨ty', ho, hop⟩ := typeOf_unOp.mp h
    obtain ⟨a, ha, hev⟩ := hv.unOp_inv h
    exact evalUnop_has (ih ho ha) hop hev
  | select cond trueVal falseVal ihc iht ihf =>
    obtain ⟨-, ht, hf⟩ := typeOf_select.mp h
    obtain ⟨c, t, f, -, htv, hfv, rfl⟩ := hv.select_inv h
    split
    · exact iht ht htv
    · exact ihf hf hfv
  | cast target value ih =>
    obtain ⟨⟨ty', hval⟩, htarget⟩ := typeOf_cast.mp h
    obtain ⟨a, ha, hev⟩ := hv.cast_inv h
    exact castValue_has (ih hval ha) htarget hev
  | _ => cases h

end Evaluation

end Vyre
