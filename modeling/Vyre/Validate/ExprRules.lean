import Vyre.Ir.Collect
import Vyre.Ir.Display

/-!
# Expression rules of the validator

`validate_expr` (`validate/expr_rules.rs`) and what it calls: type inference and
operand rules (`typecheck.rs`), casts (`cast.rs`), atomics (`atomic_rules.rs`),
loads and stores (`bytes_rejection.rs`). A rule returns the diagnostics it
pushes, in order. The source walks expressions with explicit stacks for type
inference, uniformity and accesses; the functions here recurse.

Warnings are not modelled: nothing reads them.
-/

namespace Vyre.Validate

structure Binding where
  ty : DataType
  mutable : Bool
  uniform : Bool

abbrev Scope := Ident → Option Binding

abbrev Buffers := Ident → Option BufferDecl

structure TypedParam where
  name : String
  ty : String

/-- `DialectLookup`, to the inputs of each signature. -/
abbrev DialectLookup := Ident → Option (List TypedParam)

/-- `ValidationOptions`: the backend seen through its methods, the two
capabilities the rules read, the dialect lookup in effect (the one supplied or
else the installed one). -/
structure Options where
  backend : Option (String × (DataType → Bool)) := none
  supportsSubgroupOps : Bool := false
  supportsDistributedCollectives : Bool := false
  dialect : Option DialectLookup := none
  allowShadowing : Bool := false

variable (options : Options)

def Options.supportsCastTarget (target : DataType) : Bool :=
  match options.backend with
  | some (_, supports) => supports target
  | none => true

def Options.backendName : String :=
  match options.backend with
  | some (name, _) => name
  | none => "best-effort universal"

def report (condition : Bool) (message : String) : List String :=
  if condition then [message] else []

@[simp] theorem report_eq_nil {condition : Bool} {message : String} :
    report condition message = [] ↔ condition = false := by
  cases condition <;> simp [report]

/-- `Frame::Bin` of `expr_type`. -/
def joinType (left right : Option DataType) : Option DataType :=
  some (if left = right then left.getD .u32 else .u32)

section Types

variable (buffers : Buffers) (scope : Scope)

def exprType : Expr → Option DataType
  | .litU32 _ | .bufLen _ | .invocationId _ | .workgroupId _ | .localId _ | .subgroupLocalId
  | .subgroupSize | .atomic _ _ _ _ _ _ => some .u32
  | .litI32 _ => some .i32
  | .litF32 _ => some .f32
  | .litBool _ => some .bool
  | .var name => (scope name).map (·.ty)
  | .load buffer _ => (buffers buffer).map (·.element)
  | .call _ _ => none
  | .cast target _ => some target
  | .binOp op left right =>
      match op with
      | .add | .sub | .mul | .div | .saturatingAdd | .saturatingSub | .saturatingMul
      | .min | .max => joinType (exprType left) (exprType right)
      | .and | .or | .eq | .ne | .lt | .gt | .le | .ge => some .bool
      | _ => some .u32
  | .unOp op operand =>
      match op with
      | .negate | .bitNot | .popcount | .clz | .ctz | .reverseBits => exprType operand
      | .logicalNot | .isNan | .isInf | .isFinite => some .bool
      | .sin | .cos | .exp | .log | .log2 | .exp2 | .tan | .acos | .asin | .atan | .tanh
      | .sinh | .cosh | .abs | .sqrt | .inverseSqrt | .reciprocal | .floor | .ceil | .round
      | .trunc | .sign => some .f32
      | _ => none
  | .select _ trueVal falseVal =>
      if exprType trueVal = exprType falseVal then exprType trueVal else none
  | .fma a b c =>
      if exprType a = some .f32 ∧ exprType b = some .f32 ∧ exprType c = some .f32 then some .f32
      else none
  | .subgroupBallot _ => some .u32
  | .subgroupShuffle value _ => exprType value
  | .subgroupAdd value => exprType value
  | .ext extension => extension.resultType

def isUniform : Expr → Bool
  | .litU32 _ | .litI32 _ | .litF32 _ | .litBool _ | .bufLen _ | .workgroupId _ => true
  | .var name => (scope name).any (·.uniform)
  | .binOp _ left right => isUniform left && isUniform right
  | .unOp _ operand => isUniform operand
  | .cast _ value => isUniform value
  | .select cond trueVal falseVal => isUniform cond && isUniform trueVal && isUniform falseVal
  | .fma a b c => isUniform a && isUniform b && isUniform c
  | _ => false

end Types

def exprIsStaticZero : Expr → Bool
  | .litU32 value => value == 0
  | .litI32 value => value == 0
  | .litF32 bits => bits == 0 || bits == 0x80000000
  | .cast _ value => exprIsStaticZero value
  | _ => false

/-- A check of the operand types that are known, left first. -/
def eachSide (left right : Option DataType) (check : String → DataType → List String) :
    List String :=
  left.elim [] (check "left") ++ right.elim [] (check "right")

def bothSides (left right : Option DataType) (check : DataType → DataType → List String) :
    List String :=
  match left, right with
  | some l, some r => check l r
  | _, _ => []

def isNumeric (ty : DataType) : Bool := ty = .u32 || ty = .i32 || ty = .f32

def isInteger (ty : DataType) : Bool := ty = .u32 || ty = .i32

def isWide (ty : DataType) : Bool := ty = .u64 || ty = .i64

variable (op : BinOp)

def isSaturating : Bool :=
  op = .saturatingAdd || op = .saturatingSub || op = .saturatingMul

/-- The arithmetic arm of `validate_binop_operands`. -/
def arithmeticOperands (right : Expr) (l r : Option DataType) : List String :=
  report (op = .div && exprIsStaticZero right) "V044: binary operation `Div` has a statically-zero divisor. Fix: guard the divisor, use Select to substitute a non-zero value, or reject the input before building IR."
  ++ bothSides l r (fun l r =>
    report (isWide l || isWide r) s!"binary operation `{op.debug}` received left=`{l.display}`, right=`{r.display}`. 64-bit integer arithmetic is outside vyre-foundation's cross-backend arithmetic contract. Fix: express the operation as a U32 pair with explicit carry/borrow, or use a backend-specific op whose schema declares native 64-bit arithmetic."
    ++ report (isSaturating op && (l ≠ .u32 || r ≠ .u32)) s!"Saturating arithmetic `{op.debug}` received left=`{l.display}`, right=`{r.display}`; legal set is only U32 in the current lowering. Fix: cast both operands to U32, or clamp explicitly for I32/F32."
    ++ report (op = .absDiff && (l = .i32 || r = .i32)) s!"AbsDiff has left=`{l.display}`, right=`{r.display}` and can overflow (i32::MIN - i32::MAX invokes target-text signed-integer UB). Fix: cast operands to U32 before AbsDiff, or rewrite as an explicit branch.")
  ++ eachSide l r (fun side ty =>
    report (ty = .bool) s!"binary operation `{op.debug}` {side} operand has type `{ty.display}`, but numeric arithmetic expects one of `u32`, `i32`, or `f32`. Fix: cast the operand to U32 or I32 before arithmetic, or rewrite to avoid mixing logical and arithmetic operators.")
  ++ bothSides l r (fun l r =>
    report (isNumeric l && isNumeric r && l ≠ r) s!"binary operation `{op.debug}` operands have mismatched numeric types: left=`{l.display}`, right=`{r.display}` (legal set: U32, I32, F32). Fix: cast one operand so both sides share a type (target-text has no implicit promotion).")

/-- The `Mod` arm. -/
def moduloOperands (right : Expr) (l r : Option DataType) : List String :=
  report (exprIsStaticZero right) "V044: binary operation `Mod` has a statically-zero divisor. Fix: guard the divisor, use Select to substitute a non-zero value, or reject the input before building IR."
  ++ eachSide l r (fun side ty =>
    report (!isInteger ty) s!"binary operation `Mod` {side} operand must be `u32` or `i32`, got `{ty.display}`. Legal set for Mod is integer-only. Fix: cast both operands to the same integer type before modulo.")
  ++ bothSides l r (fun l r =>
    report (isInteger l && isInteger r && l ≠ r) s!"binary operation `Mod` operands have mismatched integer types: left=`{l.display}`, right=`{r.display}`. Fix: cast one operand so both sides share the same integer type.")

def bitwiseOperands (l r : Option DataType) : List String :=
  bothSides l r fun l r =>
    report (!isInteger l) s!"binary operation `{op.debug}` left operand has type `{l.display}`; legal integer set is `u32` or `i32`. Fix: cast the left operand to U32 or I32."
    ++ report (!isInteger r) s!"binary operation `{op.debug}` right operand has type `{r.display}`; legal integer set is `u32` or `i32`. Fix: cast the right operand to U32 or I32."
    ++ report (l ≠ r) s!"binary operation `{op.debug}` operands have mismatched integer types: left=`{l.display}`, right=`{r.display}`. Integer operands must match and belong to `u32` or `i32`. Fix: cast both operands to the same integer type."

def shiftOperands (l r : Option DataType) : List String :=
  eachSide l r fun side ty =>
    report (ty ≠ .u32) s!"binary operation `{op.debug}` {side} operand has type `{ty.display}`; shift/rotate operands must be `u32`. Fix: cast the operand to U32 before shifting/rotating."

def logicalOperands (l r : Option DataType) : List String :=
  eachSide l r fun side ty =>
    report (ty ≠ .u32 && ty ≠ .bool) s!"binary operation `{op.debug}` {side} operand has type `{ty.display}`; logical And/Or operands must be `u32` or `bool`. Fix: cast the operand to U32 or Bool."

def comparisonOperands (l r : Option DataType) : List String :=
  bothSides l r fun l r =>
    report (l ≠ r) s!"binary comparison `{op.debug}` operands have mismatched types: left=`{l.display}`, right=`{r.display}`. Comparisons require matching types. Fix: cast both operands to the same type before comparing."

/-- `validate_binop_operands`, given the operand types. -/
def validateBinopOperands (right : Expr) (l r : Option DataType) : List String :=
  match op with
  | .add | .sub | .mul | .div | .saturatingAdd | .saturatingSub | .saturatingMul | .min | .max
  | .absDiff => arithmeticOperands op right l r
  | .mod => moduloOperands right l r
  | .bitAnd | .bitOr | .bitXor => bitwiseOperands op l r
  | .shl | .shr | .rotateLeft | .rotateRight => shiftOperands op l r
  | .and | .or => logicalOperands op l r
  | .eq | .ne | .lt | .gt | .le | .ge => comparisonOperands op l r
  | .shuffle | .ballot | .waveReduce | .waveBroadcast =>
      [s!"binary operation `{op.debug}` requires backend subgroup semantics (`supports_subgroup_ops() == true`) before foundation validation can guarantee safety. Fix: validate with ValidationOptions::with_backend(backend) where `backend.supports_subgroup_ops() == true`, or remove `{op.debug}` before lowering."]
  | .wrappingAdd | .wrappingSub | .mulHigh | .ext _ => []

/-- `validate_unop_operand`, given the operand type. -/
def validateUnopOperand (op : UnOp) (operand : Option DataType) : List String :=
  match operand with
  | none => []
  | some ty =>
    match op with
    | .negate =>
        if ty = .i32 then [s!"unary operation `Negate` operand has type `{ty.display}`, but legal total Negate types are `u32` and `f32`; raw i32 negation has the i32::MIN overflow case. Fix: use `0 - x` for wrapping i32 negation, cast to U32 before Negate, or guard with Select(i32::MIN, 0, -x)."]
        else report (ty ≠ .u32 && ty ≠ .f32) s!"unary operation `{op.debug}` operand has type `{ty.display}`, but legal set is U32, I32, or F32. Fix: cast or rewrite the operand to U32/I32/F32."
    | .logicalNot =>
        report (ty ≠ .u32 && ty ≠ .bool) s!"unary operation `LogicalNot` operand has type `{ty.display}`; legal set is `u32` or `bool`. Fix: cast or rewrite the operand to produce U32 or Bool."
    | .bitNot | .popcount | .clz | .ctz | .reverseBits =>
        report (ty ≠ .u32 && ty ≠ .i32 && ty ≠ .u64) s!"unary operation `{op.debug}` operand has type `{ty.display}`; legal integer set is `u32`, `i32`, or `u64`. Fix: cast or rewrite the operand to produce U32, I32, or U64."
    | .sin | .cos | .exp | .log | .log2 | .exp2 | .tan | .acos | .asin | .atan | .tanh | .sinh
    | .cosh | .abs | .sqrt | .inverseSqrt | .reciprocal | .floor | .ceil | .round | .trunc
    | .sign | .isNan | .isInf | .isFinite =>
        report (ty ≠ .f32) s!"unary operation `{op.debug}` operand has type `{ty.display}`; legal set for math ops is `f32`. Fix: cast or rewrite the operand to produce F32."
    | .unpack4Low | .unpack4High | .unpack8Low | .unpack8High | .ext _ =>
        [s!"unary operation `{op.debug}` is not recognized. Fix: use a known UnOp variant from this enum (`Negate`, `LogicalNot`, `BitNot`, `Popcount`, `Clz`, `Ctz`, `ReverseBits`, `Sin`, `Cos`, `Exp`, `Log`, `Log2`, `Exp2`, `Tan`, `Acos`, `Asin`, `Atan`, `Tanh`, `Sinh`, `Cosh`, `Abs`, `Sqrt`, `InverseSqrt`, `Reciprocal`, `Floor`, `Ceil`, `Round`, `Trunc`, `Sign`, `IsNan`, `IsInf`, `IsFinite`, `Unpack4Low`, `Unpack4High`, `Unpack8Low`, `Unpack8High`)."]

def isIntegerLikeScalar : DataType → Bool
  | .u8 | .u16 | .u32 | .u64 | .i8 | .i16 | .i32 | .i64 | .bool => true
  | _ => false

def castIsValid (source target : DataType) : Bool :=
  source = target || (isIntegerLikeScalar source && isIntegerLikeScalar target) ||
    match source, target with
    | .u32, .vec2U32 | .u32, .vec4U32 | .i32, .vec2U32 | .i32, .vec4U32 | .bool, .vec2U32
    | .bool, .vec4U32 | .u64, .vec2U32 | .vec2U32, .u32 | .vec2U32, .i32 | .vec2U32, .u64
    | .vec2U32, .bool | .vec4U32, .u32 | .vec4U32, .i32 | .vec4U32, .vec2U32 | .vec4U32, .bool
    | .vec4U32, .u64 | .u32, .f32 | .i32, .f32 | .bool, .f32 | .f32, .u32 | .f32, .i32
    | .f32, .bool => true
    | _, _ => false

def castTargetSet (source : DataType) : String :=
  let candidates : List DataType := [source, .u8, .u16, .u32, .u64, .i8, .i16, .i32, .i64, .bool,
    .bytes, .vec2U32, .vec4U32, .f32]
  let legal := candidates.foldl
    (fun legal target => if castIsValid source target && target ∉ legal then legal ++ [target]
      else legal) []
  "[" ++ ", ".intercalate (legal.map fun target => s!"`{target.display}`") ++ "]"

def validateCast (target : DataType) (source : Option DataType) :
    List String :=
  report (!options.supportsCastTarget target) s!"V034: backend `{options.backendName}` does not support cast target `{target.display}`. Fix: choose a target type this backend supports, or validate against a backend that advertises `{target.display}` cast support."
  ++ source.elim [] fun source =>
    if target = .bytes ∧ source ≠ .bytes then ["V023: cast to Bytes is unsupported in target-text lowering. Fix: use buffer load/store directly for byte data."]
    else report (!castIsValid source target) s!"V012: unsupported cast from `{source.display}` to `{target.display}`. Source type `{source.display}` legal targets are {castTargetSet source}. Choose one of those targets or rewrite this cast expression before validation."

def checkLoad (buffers : Buffers) (buffer : Ident) : List String :=
  match buffers buffer with
  | none => [s!"load from unknown buffer `{buffer}`. Fix: declare it in Program::buffers."]
  | some buf =>
      report (buf.element = .bytes && !buf.bytesExtraction) s!"V013: load from buffer `{buffer}` with element type `bytes` is not supported. Fix: declare the buffer with a typed element (U32/I32/F32/…) or with `.with_bytes_extraction(true)` when the consuming op is a dedicated bytes-extraction op."

def checkStore (buffers : Buffers) (buffer : Ident) : List String :=
  match buffers buffer with
  | none => [s!"store to unknown buffer `{buffer}`. Fix: declare it in Program::buffers."]
  | some buf =>
      report (buf.access ≠ .readWrite && buf.access ≠ .writeOnly && buf.access ≠ .workgroup) s!"store to non-writable buffer `{buffer}`. Fix: declare it with BufferAccess::ReadWrite, BufferAccess::WriteOnly, or BufferAccess::Workgroup."
      ++ report (buf.element = .bytes && !buf.bytesExtraction) s!"V013: store to buffer `{buffer}` with element type `bytes` is not supported. Fix: use a typed buffer (U32/I32/F32/…) for stores, or declare the buffer with `.with_bytes_extraction(true)` when this is a bytes-producing op such as decode.base64."

/-- The access arm of `validate_atomic`. -/
def atomicAccess (op : AtomicOp) (buffer : Ident) (access : BufferAccess) : List String :=
  match access with
  | .readWrite => []
  | .workgroup => [s!"V025: atomic `{op.debug}` on workgroup buffer `{buffer}` is rejected by the current memory model. Fix: use a storage ReadWrite buffer for atomics."]
  | .readOnly => [s!"V009: atomic `{op.debug}` targets read-only buffer `{buffer}`. Fix: declare `{buffer}` with BufferAccess::ReadWrite before issuing `{op.debug}`."]
  | .uniform => [s!"V009: atomic `{op.debug}` targets uniform buffer `{buffer}`. Fix: move `{buffer}` to BufferAccess::ReadWrite before issuing `{op.debug}`."]
  | .writeOnly => [s!"V009: atomic `{op.debug}` targets unsupported buffer access `{access.debug}` on `{buffer}`. Fix: use BufferAccess::ReadWrite storage buffers for atomics."]

/-- The last arm of `validate_atomic`: a compare-exchange has an expected value,
the other operations have none. `expected` is its type when there is one. -/
def atomicExpectedShape (op : AtomicOp) (expected : Option (Option DataType)) : List String :=
  match op, expected with
  | .compareExchange, some ty =>
      ty.elim [] fun ty => report (ty ≠ .u32) s!"compare-exchange expected type `{ty.display}` does not match required `u32`. Fix: ensure Expr::Atomic.expected is U32."
  | .compareExchange, none => ["compare-exchange atomic is missing expected value. Fix: set Expr::Atomic.expected for AtomicOp::CompareExchange."]
  | _, some _ => ["non-compare-exchange atomic includes an expected value. Fix: use Expr::Atomic.expected only with AtomicOp::CompareExchange."]
  | _, none => []

/-- `validate_atomic`, given the types of its operands. -/
def validateAtomic (buffers : Buffers) (op : AtomicOp) (buffer : Ident) (ordering : MemoryOrdering)
    (index value : Option DataType) (expected : Option (Option DataType)) : List String :=
  report (!ordering.isValidForAtomicRmw) s!"V042: atomic `{op.debug}` on buffer `{buffer}` uses invalid memory ordering `{ordering.debug}`. Fix: use Relaxed, Acquire, Release, AcqRel, or SeqCst for atomic read-modify-write operations."
  ++ index.elim [] (fun ty => report (ty ≠ .u32) s!"V027: atomic index on buffer `{buffer}` has type `{ty.display}`, must be `u32`. Fix: cast the index to U32 before the atomic operation.")
  ++ match buffers buffer with
    | none => [s!"atomic on unknown buffer `{buffer}`. Fix: declare it in Program::buffers."]
    | some buf =>
        atomicAccess op buffer buf.access
        ++ report (buf.element = .bytes) s!"V013: operation on buffer `{buffer}` with element type `bytes` is not supported. Fix: use a typed buffer."
        ++ report (buf.element ≠ .u32) s!"V014: atomic on buffer `{buffer}` with non-u32 element type `{buf.element.display}`. Fix: atomics only support U32 elements."
        ++ value.elim [] (fun ty => report (ty ≠ .u32) s!"atomic value type `{ty.display}` does not match required `u32`. Fix: ensure the atomic operand is U32.")
        ++ atomicExpectedShape op expected

def dataTypeFromSignatureSpelling (spelling : String) : Option DataType :=
  match spelling with
  | "u8" | "U8" => some .u8
  | "u16" | "U16" => some .u16
  | "u32" | "U32" => some .u32
  | "u64" | "U64" => some .u64
  | "i8" | "I8" => some .i8
  | "i16" | "I16" => some .i16
  | "i32" | "I32" => some .i32
  | "i64" | "I64" => some .i64
  | "f32" | "F32" => some .f32
  | "bool" | "Bool" => some .bool
  | "bytes" | "Bytes" => some .bytes
  | "vec2<u32>" | "Vec2U32" => some .vec2U32
  | "vec4<u32>" | "Vec4U32" => some .vec4U32
  | _ => none

/-- One argument in `validate_call_signature`. -/
def validateCallArgument (opId : Ident) (index : Nat) (param : TypedParam)
    (actual : Option DataType) : List String :=
  match dataTypeFromSignatureSpelling param.ty with
  | none => [s!"V021: call `{opId}` signature input `{param.name}` uses unknown type spelling `{param.ty}`. Fix: register a foundation-known scalar/vector type spelling for this parameter or validate it in the dialect layer."]
  | some expected =>
      actual.elim [] fun actual => report (actual ≠ expected) s!"V022: call `{opId}` argument {index} (`{param.name}`) has type `{actual.display}` but signature expects `{expected.display}`. Fix: cast or rewrite the argument to match the registered op signature."

/-- `validate_call`, given the types of the arguments. -/
def validateCall (opId : Ident) (args : List (Option DataType)) : List String :=
  match options.dialect with
  | none => []
  | some lookup =>
    match lookup opId with
    | none => [s!"V016: call references unknown op `{opId}`. Fix: register the dialect that owns `{opId}` before validation, or inline/remove this call."]
    | some inputs =>
        if args.length ≠ inputs.length then
          [s!"V020: call `{opId}` has {args.length} arguments but signature expects {inputs.length}. Fix: pass exactly {inputs.length} arguments in the order declared by the op signature."]
        else (args.zip inputs).zipIdx.flatMap fun ((actual, param), index) =>
          validateCallArgument opId index param actual

def validateExprExtension (extension : ExprExtension) : List String :=
  report (extension.extensionKind = "") "V030: opaque expression extension has an empty extension_kind. Fix: return a stable non-empty namespace from ExprNode::extension_kind."
  ++ report (extension.debugIdentity = "") s!"V030: opaque expression extension `{extension.extensionKind}` has an empty debug_identity. Fix: return a stable human-readable identity from ExprNode::debug_identity."
  ++ report extension.resultType.isNone s!"V030: opaque expression extension `{extension.extensionKind}`/`{extension.debugIdentity}` has no static result type. Fix: implement ExprNode::result_type so validation, CSE, and backends know the produced DataType."
  ++ extension.validateExtension.elim [] fun message =>
    [s!"V030: opaque expression extension `{extension.extensionKind}`/`{extension.debugIdentity}` failed validation: {message}"]

def validateSubgroupExprSupport : List String :=
  report (!options.supportsSubgroupOps) "V041: subgroup expressions require backend subgroup-ops support. Fix: Validate with ValidationOptions::with_backend(backend) where backend.supports_subgroup_ops() == true."

/-- `DEFAULT_MAX_EXPR_DEPTH`. -/
def maxExprDepth : Nat := 128

/-- `check_expr_depth`, and the rules of an expression within bounds. -/
def guardDepth (depth : Nat) (errors : List String) : List String :=
  if maxExprDepth < depth then [s!"V033: expression nesting depth {depth} exceeds max {maxExprDepth}. Fix: split the expression into intermediate let-bindings before lowering."]
  else errors

/-- The operand types of `Fma`. -/
def validateFma (a b c : Option DataType) : List String :=
  let slot (name : String) (ty : Option DataType) : List String :=
    ty.elim [] fun ty => report (ty ≠ .f32) s!"V028: Fma operand `{name}` has type `{ty.display}`, must be `f32`. Fix: cast the operand to F32 before Fma, or use the integer mul/add form explicitly."
  slot "a" a ++ slot "b" b ++ slot "c" c

section Exprs

variable (options : Options) (buffers : Buffers) (scope : Scope)

mutual

def validateExpr : Expr → Nat → List String
  | .litU32 _, depth | .litI32 _, depth | .litF32 _, depth | .litBool _, depth =>
      guardDepth depth []
  | .var name, depth => guardDepth depth
      (report (scope name).isNone s!"reference to undeclared variable `{name}`. Fix: add `let {name} = ...;` before this use.")
  | .load buffer index, depth => guardDepth depth
      (checkLoad buffers buffer ++ validateExpr index (depth + 1))
  | .bufLen buffer, depth => guardDepth depth
      (report (buffers buffer).isNone s!"buflen of unknown buffer `{buffer}`. Fix: declare it in Program::buffers.")
  | .invocationId axis, depth | .workgroupId axis, depth | .localId axis, depth => guardDepth depth
      (report (2 < axis) s!"invocation/workgroup ID axis {axis} out of range. Fix: use 0 (x), 1 (y), or 2 (z).")
  | .binOp op left right, depth => guardDepth depth
      (validateExpr left (depth + 1) ++ validateExpr right (depth + 1) ++
        validateBinopOperands op right (exprType buffers scope left) (exprType buffers scope right))
  | .unOp op operand, depth => guardDepth depth
      (validateExpr operand (depth + 1) ++ validateUnopOperand op (exprType buffers scope operand))
  | .call opId args, depth => guardDepth depth
      (validateArgs args (depth + 1) ++
        validateCall options opId (args.map fun arg => exprType buffers scope arg))
  | .fma a b c, depth => guardDepth depth
      (validateExpr a (depth + 1) ++ validateExpr b (depth + 1) ++ validateExpr c (depth + 1) ++
        validateFma (exprType buffers scope a) (exprType buffers scope b)
          (exprType buffers scope c))
  | .select cond trueVal falseVal, depth => guardDepth depth
      (validateExpr cond (depth + 1) ++ validateExpr trueVal (depth + 1) ++
        validateExpr falseVal (depth + 1) ++
        bothSides (exprType buffers scope trueVal) (exprType buffers scope falseVal) fun t f =>
          report (t ≠ f) s!"V029: Select branches have mismatched types: true=`{t.display}`, false=`{f.display}`. Fix: cast both branches to the same type before Select.")
  | .cast target value, depth => guardDepth depth
      (validateExpr value (depth + 1) ++ validateCast options target (exprType buffers scope value))
  | .atomic op buffer index expected value ordering, depth => guardDepth depth
      (validateAtomic buffers op buffer ordering (exprType buffers scope index)
          (exprType buffers scope value) (expected.map fun e => exprType buffers scope e) ++
        validateExpr index (depth + 1) ++ validateExpected expected (depth + 1) ++
        validateExpr value (depth + 1))
  | .subgroupBallot cond, depth => guardDepth depth
      (validateExpr cond (depth + 1) ++ validateSubgroupExprSupport options)
  | .subgroupShuffle value lane, depth => guardDepth depth
      (validateExpr value (depth + 1) ++ validateExpr lane (depth + 1) ++
        validateSubgroupExprSupport options)
  | .subgroupAdd value, depth => guardDepth depth
      (validateExpr value (depth + 1) ++ validateSubgroupExprSupport options)
  | .subgroupLocalId, depth | .subgroupSize, depth => guardDepth depth
      (validateSubgroupExprSupport options)
  | .ext extension, depth => guardDepth depth (validateExprExtension extension)

def validateArgs : List Expr → Nat → List String
  | [], _ => []
  | arg :: args, depth => validateExpr arg depth ++ validateArgs args depth

def validateExpected : Option Expr → Nat → List String
  | none, _ => []
  | some e, depth => validateExpr e depth

end

end Exprs

/-- `NodeAccesses`: the buffers read or written plainly, and atomically. -/
structure NodeAccesses where
  readBuffers : List Ident
  atomicBuffers : List Ident

namespace NodeAccesses

def none : NodeAccesses := ⟨[], []⟩

def union (a b : NodeAccesses) : NodeAccesses :=
  ⟨a.readBuffers ++ b.readBuffers, a.atomicBuffers ++ b.atomicBuffers⟩

def reads (buffers : List Ident) : NodeAccesses := ⟨buffers, []⟩

end NodeAccesses

/-- `collect_expr_accesses`. -/
def exprAccesses (e : Expr) : NodeAccesses where
  readBuffers := e.collect fun
    | .load buffer _ | .bufLen buffer => [buffer]
    | _ => []
  atomicBuffers := e.collect fun
    | .atomic _ buffer _ _ _ _ => [buffer]
    | _ => []

end Vyre.Validate
