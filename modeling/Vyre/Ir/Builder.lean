import Vyre.Ir.Program

/-!
# Expression builders

The constructors of `impl Expr` that the kernels of the repository are written
with (`expr.rs`, `expr/builders/operators.rs`, `expr/atomics.rs`).
-/

namespace Vyre

namespace Expr

abbrev u32 (value : UInt32) : Expr := .litU32 value

abbrev gidX : Expr := .invocationId 0

variable (left right : Expr)

abbrev add : Expr := .binOp .add left right

abbrev sub : Expr := .binOp .sub left right

abbrev mul : Expr := .binOp .mul left right

abbrev div : Expr := .binOp .div left right

abbrev rem : Expr := .binOp .mod left right

abbrev bitand : Expr := .binOp .bitAnd left right

abbrev shl : Expr := .binOp .shl left right

abbrev shr : Expr := .binOp .shr left right

abbrev eq : Expr := .binOp .eq left right

abbrev ne : Expr := .binOp .ne left right

abbrev lt : Expr := .binOp .lt left right

abbrev gt : Expr := .binOp .gt left right

abbrev le : Expr := .binOp .le left right

abbrev ge : Expr := .binOp .ge left right

abbrev or : Expr := .binOp .or left right

/-- `atomic_or`, with the default ordering. -/
abbrev atomicOr (buffer : Ident) (index value : Expr) : Expr :=
  .atomic .or buffer index none value .seqCst

abbrev atomicAdd (buffer : Ident) (index value : Expr) : Expr :=
  .atomic .add buffer index none value .seqCst

abbrev atomicExchange (buffer : Ident) (index value : Expr) : Expr :=
  .atomic .exchange buffer index none value .seqCst

abbrev atomicMin (buffer : Ident) (index value : Expr) : Expr :=
  .atomic .min buffer index none value .seqCst

abbrev atomicCompareExchange (buffer : Ident) (index expected newValue : Expr) : Expr :=
  .atomic .compareExchange buffer index (some expected) newValue .seqCst

end Expr

end Vyre
