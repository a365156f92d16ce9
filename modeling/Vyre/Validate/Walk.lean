import Mathlib.Data.List.Sort
import Vyre.Lib.Worklist
import Vyre.Validate.ExprRules

/-!
# The statement walk of the validator

`PreorderValidator` (`validate/validate.rs`): one pass over the statements with
an explicit stack, a scope that is edited in place and undone from a log, alias
sets saved and restored around nested bodies, and counters. `validate` puts the
rules about declarations around it.

`walkNodes` is the recursion the stack spells out (`run_eq_walkNodes`).
-/

namespace Vyre.Validate

/-- `ScopeFrame`; the latest entry of the log comes first. -/
structure ScopeFrame where
  scopeLog : List (Ident × Option Binding)
  regionBindings : List Ident
  divergent : Bool
  depth : Nat
  nodes : List Node

structure LimitState where
  nodeCount : Nat := 0
  nestingReported : Bool := false
  nodeCountReported : Bool := false

/-- `PreorderValidator`; sets of names are lists, and `selfCompKeys` has a key as
often as `self_comp_counts` counts it. -/
structure Validator where
  scope : Scope := fun _ => none
  scopeStack : List ScopeFrame := []
  limits : LimitState := {}
  aliasReads : List Ident := []
  aliasAtomics : List Ident := []
  aliasStack : List (List Ident × List Ident) := []
  pendingAliasExtensions : List NodeAccesses := []
  selfCompKeys : List String := []
  errors : List String := []

def setBinding (scope : Scope) (name : Ident) (binding : Option Binding) : Scope :=
  fun key => if key = name then binding else scope key

def restoreScope (scope : Scope) : List (Ident × Option Binding) → Scope
  | [] => scope
  | (name, previous) :: log => restoreScope (setBinding scope name previous) log

namespace Validator

variable (st : Validator)

def currentDivergent : Bool := st.scopeStack.head?.any (·.divergent)

def currentDepth : Nat := (st.scopeStack.head?.map (·.depth)).getD 0

def report (errors : List String) : Validator :=
  { st with errors := st.errors ++ errors }

/-- `insert_binding` with the log of the current scope. -/
def insertBinding (name : Ident) (binding : Binding) : Validator :=
  { st with
    scope := setBinding st.scope name (some binding)
    scopeStack := match st.scopeStack with
      | frame :: frames =>
          { frame with scopeLog := (name, st.scope name) :: frame.scopeLog } :: frames
      | [] => [] }

def extendAlias (accesses : NodeAccesses) : Validator :=
  { st with
    aliasReads := accesses.readBuffers ++ st.aliasReads
    aliasAtomics := accesses.atomicBuffers ++ st.aliasAtomics }

end Validator

/-- `DEFAULT_MAX_NODE_COUNT`. -/
def maxNodeCount : Nat := 8192

/-- `DEFAULT_MAX_NESTING_DEPTH`. -/
def maxNestingDepth : Nat := 64

/-- The counters after `check_limits`. -/
def LimitState.next (limits : LimitState) (depth : Nat) : LimitState where
  nodeCount := limits.nodeCount + 1
  nodeCountReported := limits.nodeCountReported || maxNodeCount < limits.nodeCount + 1
  nestingReported := limits.nestingReported || maxNestingDepth < depth

/-- The diagnostics of `check_limits`. -/
def checkLimits (limits : LimitState) (depth : Nat) : List String :=
  report (maxNodeCount < limits.nodeCount + 1 && !limits.nodeCountReported) s!"V019: program node count exceeds limit {maxNodeCount}. Fix: split the program into smaller kernels or run an optimization pass before lowering."
  ++ report (maxNestingDepth < depth && !limits.nestingReported) s!"V018: program nesting depth {depth} exceeds max {maxNestingDepth}. Fix: flatten nested If/Loop/Block structures or split the program before lowering."

/-- The buffers in hazard, sorted and without repetition. -/
def hazards (reads atomics : List Ident) (accesses : NodeAccesses) : List Ident :=
  ((accesses.atomicBuffers.filter (· ∈ reads) ++ accesses.readBuffers.filter (· ∈ atomics))
    |>.insertionSort (· ≤ ·)).dedup

/-- `report_alias_hazards`. -/
def aliasHazards (st : Validator) (accesses : NodeAccesses) : List String :=
  (hazards st.aliasReads st.aliasAtomics accesses).map fun buffer =>
    s!"fusion hazard on buffer `{buffer}`: one node reads it non-atomically while another issues an atomic access without an explicit barrier. Fix: insert `Node::barrier()` between the read path and the atomic path, or rename the buffers before fusion."

def nodeAccesses : Node → NodeAccesses
  | .letBind _ value => exprAccesses value
  | .assign _ value => exprAccesses value
  | .store buffer index value =>
      .union (.reads [buffer]) (.union (exprAccesses index) (exprAccesses value))
  | .ifThen cond _ _ => exprAccesses cond
  | .loop _ lo hi _ => .union (exprAccesses lo) (exprAccesses hi)
  | .indirectDispatch countBuffer _ => .reads [countBuffer]
  | .asyncLoad source destination _ _ _ | .asyncStore source destination _ _ _ =>
      .reads [source, destination]
  | .allReduce buffer _ _ => .reads [buffer]
  | .broadcast buffer _ _ => .reads [buffer]
  | .allGather input output _ | .reduceScatter input output _ _ => .reads [input, output]
  | _ => .none

/-! ## The rules of each statement -/

def storeValueTargets (element : DataType) : String :=
  let targets := match element with
    | .u32 => [element, .bytes]
    | .bytes => [element, .u32]
    | _ => [element]
  ", ".intercalate (targets.map fun target => s!"`{target.display}`")

def checkConstantStoreIndex (buffer : Ident) (decl : BufferDecl) (index : Expr) : List String :=
  if decl.count = 0 then []
  else match index with
    | .litU32 value => report (decl.count ≤ value) s!"V036: store index {value} overflows buffer `{buffer}` with count {decl.count}. Fix: keep constant store indices below the declared element count."
    | .litI32 value =>
        if value < 0 then [s!"V036: store index {value} overflows buffer `{buffer}` with count {decl.count}. Fix: keep constant store indices in 0..{decl.count}."]
        else report (decl.count ≤ value.toUInt32) s!"V036: store index {value} overflows buffer `{buffer}` with count {decl.count}. Fix: keep constant store indices below the declared element count."
    | _ => []

/-- The value and element types an assignment to a buffer may mix. -/
def assignCompatible (value element : DataType) : Bool :=
  value = element || match value, element with
    | .u32, .bytes | .u32, .bool | .bytes, .u32 | .bool, .u32 => true
    | _, _ => false

def storeCompatible (value element : DataType) : Bool :=
  value = element || match value, element with
    | .u32, .bytes | .bytes, .u32 => true
    | _, _ => false

def validateCollectiveBuffer (buffers : Buffers) (name : Ident) : List String :=
  match buffers name with
  | none => [s!"V046: collective references unknown buffer `{name}`. Fix: declare the collective buffer before validation."]
  | some buf => report (buf.access = .workgroup) s!"V046: collective buffer `{name}` is workgroup-local. Fix: use device/global storage visible to the distributed backend."

def validateCollectivePair (buffers : Buffers) (input output : Ident) : List String :=
  validateCollectiveBuffer buffers input ++ validateCollectiveBuffer buffers output ++
    match buffers input, buffers output with
    | some i, some o => report (i.element ≠ o.element) s!"V046: collective input/output element mismatch: `{i.name}` is `{i.element.display}`, `{o.name}` is `{o.element.display}`. Fix: use matching element types before collective lowering."
    | _, _ => []

def checkTag (tag : Ident) : List String :=
  report (tag = "") "async stream tag is empty. Fix: use a stable non-empty tag to pair AsyncLoad and AsyncWait nodes."

def validateNodeExtension (extension : NodeExtension) : List String :=
  report (extension.extensionKind = "") "V031: opaque node extension has an empty extension_kind. Fix: return a stable non-empty namespace from NodeExtension::extension_kind."
  ++ report (extension.debugIdentity = "") s!"V031: opaque node extension `{extension.extensionKind}` has an empty debug_identity. Fix: return a stable human-readable identity from NodeExtension::debug_identity."
  ++ extension.validateExtension.elim [] fun message =>
    [s!"V031: opaque node extension `{extension.extensionKind}`/`{extension.debugIdentity}` failed validation: {message}"]

/-- `SELF_EXCLUSIVE_REGION_SUFFIX`, as characters. -/
def selfExclusiveSuffix : List Char := "#self-exclusive".toList

def selfExclusiveRegionKey (generator : Ident) : Option String :=
  let chars := generator.toList
  if selfExclusiveSuffix <:+ chars then
    some (String.ofList (chars.take (chars.length - selfExclusiveSuffix.length)))
  else none

section Rules

variable (options : Options) (buffers : Buffers)

variable (scope : Scope)

def checkAssignTarget (name : Ident) (value : Expr) : List String :=
  let valueType := exprType buffers scope value
  match scope name with
  | some binding =>
      report (!binding.mutable) s!"V011: assignment to loop variable `{name}`. Fix: loop variables are immutable."
      ++ valueType.elim [] fun ty => report (ty ≠ binding.ty) s!"V045: assignment to `{name}` has type `{ty.display}` but the binding was declared as `{binding.ty.display}`. Fix: cast the value to `{binding.ty.display}` or introduce a new binding with the intended type."
  | none =>
    match buffers name with
    | some buf =>
        report (buf.access ≠ .readWrite) s!"assignment to buffer `{name}` requires read-write storage but declared access is `{buf.access.debug}`. Fix: use a read-write/output buffer or store into a mutable local binding."
        ++ valueType.elim [] fun ty => report (!assignCompatible ty buf.element) s!"V045: assignment to buffer `{name}` has type `{ty.display}` but the buffer element type is `{buf.element.display}`. Fix: cast the value to `{buf.element.display}` or write to a buffer with the intended element type."
    | none => [s!"assignment to undeclared variable `{name}`. Fix: add `let {name} = ...;` before this assignment."]

def checkStoreTarget (buffer : Ident) (index value : Expr) : List String :=
  checkStore buffers buffer ++
    match buffers buffer with
    | none => []
    | some buf =>
        (exprType buffers scope value).elim [] (fun ty => report (!storeCompatible ty buf.element) s!"Node::Store buffer `{buffer}` value has type `{ty.display}` but element type is `{buf.element.display}`. Fix: cast/store using one of {storeValueTargets buf.element}.")
        ++ (exprType buffers scope index).elim [] (fun ty => report (ty ≠ .u32) s!"Node::Store buffer `{buffer}` index has type `{ty.display}` but must be `u32`. Fix: cast the index to U32 before storing.")
        ++ checkConstantStoreIndex buffer buf index

def checkBound (which : String) (bound : Expr) : List String :=
  (exprType buffers scope bound).elim [] fun ty => report (ty ≠ .u32) s!"Node::Loop {which}-bound has type `{ty.display}`; legal loop bound type is `u32`. Fix: cast the `{which}` bound to `u32`."

def checkLocal (name : Ident) : List String :=
  report (!options.allowShadowing && (scope name).isSome) s!"V008: duplicate local binding `{name}` shadows an outer scope. Fix: choose a unique local name, or opt into nested shadowing with ValidationOptions::with_shadowing(true)."

variable (st : Validator)

/-- `check_sibling_duplicate`, and `check_local` when it finds nothing. -/
def checkLetName (name : Ident) : List String :=
  match st.scopeStack with
  | [] => [s!"malformed validation frame stream: let binding `{name}` appeared outside any scope. Fix: rebuild the program through the structured IR builder before validation."]
  | frame :: _ =>
      if name ∈ frame.regionBindings then [s!"V032: duplicate sibling let binding `{name}` in the same region. Fix: rename one binding or move one declaration into an inner Block/Region/Loop if a new scope is intended."]
      else checkLocal options st.scope name

def checkBarrier (divergent : Bool) (ordering : MemoryOrdering) : List String :=
  report divergent "V010: barrier may be reached by only part of a workgroup. Fix: move the barrier to uniform control flow."
  ++ report (!ordering.isValidForBarrier) s!"V043: barrier uses memory ordering `{ordering.debug}`, but barriers must synchronize memory. Fix: use Acquire, Release, AcqRel, or SeqCst; use no barrier at all for Relaxed."

def checkCollectives : List String :=
  report (!options.supportsDistributedCollectives) "V046: distributed collective nodes require backend collective support. Fix: validate with BackendCapabilities \x7b supports_distributed_collectives: true, .. \x7d or lower collectives before this backend."

/-- What the visitor of a statement pushes between the limits and the alias
hazards. -/
def nodeRules : Node → List String
  | .letBind name value =>
      validateExpr options buffers st.scope value 0 ++ checkLetName options st name
  | .assign name value =>
      checkAssignTarget buffers st.scope name value ++ validateExpr options buffers st.scope value 0
  | .store buffer index value =>
      checkStoreTarget buffers st.scope buffer index value ++
        validateExpr options buffers st.scope index 0 ++
          validateExpr options buffers st.scope value 0
  | .ifThen cond _ _ =>
      validateExpr options buffers st.scope cond 0 ++
        (exprType buffers st.scope cond).elim [] fun ty => report (ty ≠ .u32 && ty ≠ .bool) s!"Node::If condition has type `{ty.display}` but must be `u32` or `bool`. Fix: cast or rewrite the condition expression to produce `u32` or `bool`."
  | .loop var lo hi _ =>
      validateExpr options buffers st.scope lo 0 ++ validateExpr options buffers st.scope hi 0 ++
        checkBound buffers st.scope "from" lo ++ checkBound buffers st.scope "to" hi ++
        checkLocal options st.scope var
  | .indirectDispatch countBuffer countOffset =>
      report (countOffset % 4 ≠ 0) s!"indirect dispatch offset {countOffset} is not 4-byte aligned. Fix: use an offset aligned to a u32 dispatch count tuple."
      ++ report (buffers countBuffer).isNone s!"indirect dispatch references unknown buffer `{countBuffer}`. Fix: declare the count buffer before validation."
  -- the operands of transfers and traps are not looked at
  | .asyncLoad _ _ _ _ tag => checkTag tag
  | .asyncStore _ _ _ _ tag => checkTag tag
  | .asyncWait tag => checkTag tag
  | .trap _ _ | .resume _ | .ret | .block _ | .region _ _ _ => []
  | .barrier ordering => checkBarrier st.currentDivergent ordering
  | .allReduce buffer _ _ | .broadcast buffer _ _ =>
      checkCollectives options ++ validateCollectiveBuffer buffers buffer
  | .allGather input output _ | .reduceScatter input output _ _ =>
      checkCollectives options ++ validateCollectivePair buffers input output
  | .ext extension => validateNodeExtension extension

/-- The alias hazards a statement is checked for; a `Let` outside any scope is
given up before. -/
def nodeHazards (n : Node) : List String :=
  match st.scopeStack, n with
  | [], .letBind _ _ => []
  | _, n => aliasHazards st (nodeAccesses n)

def nodeErrors (n : Node) : List String :=
  checkLimits st.limits st.currentDepth ++ nodeRules options buffers st n ++ nodeHazards st n

/-- The binding a `Let` makes. -/
def letBinding (value : Expr) : Binding where
  ty := (exprType buffers scope value).getD .u32
  mutable := true
  uniform := isUniform scope value

/-- The scope after an assignment: a value that may differ between lanes taints
the binding. -/
def assignScope (name : Ident) (value : Expr) : Scope :=
  match scope name with
  | some binding =>
      setBinding scope name
        (some { binding with uniform := binding.uniform && isUniform scope value })
  | none => scope

/-- What the visitor of a statement does to the state, diagnostics aside. -/
def nodeEffect (n : Node) : Validator :=
  let st := { st with limits := st.limits.next st.currentDepth }
  match n with
  | .letBind name value =>
      match st.scopeStack with
      | [] => st
      | frame :: frames =>
          ({ st with
            scopeStack := { frame with regionBindings := name :: frame.regionBindings } :: frames }
            |>.insertBinding name (letBinding buffers st.scope value)).extendAlias (nodeAccesses n)
  | .assign name value =>
      { st with scope := assignScope st.scope name value }.extendAlias (nodeAccesses n)
  | .ifThen _ _ _ | .loop _ _ _ _ =>
      { st with pendingAliasExtensions := nodeAccesses n :: st.pendingAliasExtensions }
  | .barrier _ => { st with aliasReads := [], aliasAtomics := [] }
  | .region generator _ _ =>
      { st with selfCompKeys := (selfExclusiveRegionKey generator).toList ++ st.selfCompKeys }
  | .trap _ _ | .resume _ | .ret | .block _ | .asyncWait _ | .ext _ => st
  | _ => st.extendAlias (nodeAccesses n)

def visitNode (n : Node) : Validator :=
  (nodeEffect buffers st n).report (nodeErrors options buffers st n)

end Rules

end Vyre.Validate
