import Vyre.Validate.Walk

/-!
# The traversal and `validate`

The explicit stack of `PreorderValidator::run`, the recursion it spells out
(`run_eq_walkNodes`), and the rules about declarations that `validate` runs
around it.
-/

namespace Vyre.Validate

open List

/-! ## Frames -/

/-- `Frame`. -/
inductive WalkFrame where
  | child (n : Node)
  | postIf
  | postLoop
  | pushScope (divergent : Bool) (depth : Nat) (nodes : List Node)
  | popScope
  | pushAlias
  | popAlias
  | insertLoopVar (var : Ident) (uniform : Bool)

/-- `push_nested_sequence`, in the order the frames are popped. -/
def nestedSequence (nodes : List Node) (divergent : Bool) (depth : Nat)
    (preChildren : List WalkFrame) : List WalkFrame :=
  [.pushScope divergent depth nodes, .pushAlias] ++ preChildren ++ nodes.map .child
    ++ [.popAlias, .popScope]

/-- A `return` with statements after it. -/
def returnPosition (nodes : List Node) : List String :=
  match nodes.findIdx? (fun n => n matches .ret) with
  | some pos => report (pos ≠ nodes.length - 1) "unreachable statements after `return`. Fix: remove statements after `return` or reorder them."
  | none => []

namespace Validator

variable (st : Validator)

def pushScope (divergent : Bool) (depth : Nat) (nodes : List Node) : Validator :=
  { st with scopeStack := ⟨[], [], divergent, depth, nodes⟩ :: st.scopeStack }

def popScope : Validator :=
  match st.scopeStack with
  | [] => st.report ["malformed validation frame stream: PopScope without matching PushScope. Fix: rebuild the program through the structured IR builder before validation."]
  | frame :: frames =>
      { st with scope := restoreScope st.scope frame.scopeLog, scopeStack := frames }.report
        (returnPosition frame.nodes)

def pushAlias : Validator :=
  { st with
    aliasStack := (st.aliasReads, st.aliasAtomics) :: st.aliasStack
    aliasReads := []
    aliasAtomics := [] }

def popAlias : Validator :=
  match st.aliasStack with
  | [] => st.report ["malformed validation frame stream: PopAlias without matching PushAlias. Fix: rebuild the program through the structured IR builder before validation."]
  | (reads, atomics) :: aliases =>
      { st with aliasStack := aliases, aliasReads := reads, aliasAtomics := atomics }

def insertLoopVar (var : Ident) (uniform : Bool) : Validator :=
  match st.scopeStack with
  | [] => st.report [s!"malformed validation frame stream: loop variable `{var}` inserted outside any scope. Fix: rebuild the program through the structured IR builder before validation."]
  | _ :: _ => st.insertBinding var ⟨.u32, false, uniform⟩

/-- `PostIf` and `PostLoop`. -/
def extendPending : Validator :=
  match st.pendingAliasExtensions with
  | [] => st
  | accesses :: pending => { st with pendingAliasExtensions := pending }.extendAlias accesses

def enter (divergent : Bool) (depth : Nat) (nodes : List Node) : Validator :=
  (st.pushScope divergent depth nodes).pushAlias

def leave : Validator := st.popAlias.popScope

/-- The divergence of the branches of an `If`. -/
def branchDivergent (cond : Expr) : Bool :=
  st.currentDivergent || !isUniform st.scope cond

def boundsUniform (lo hi : Expr) : Bool :=
  isUniform st.scope lo && isUniform st.scope hi

end Validator

def childFrames (st : Validator) : Node → List WalkFrame
  | .ifThen cond thenNodes otherwise =>
      nestedSequence thenNodes (st.branchDivergent cond) (st.currentDepth + 1) []
      ++ nestedSequence otherwise (st.branchDivergent cond) (st.currentDepth + 1) []
      ++ [.postIf]
  | .loop var lo hi body =>
      nestedSequence body (st.currentDivergent || !st.boundsUniform lo hi) (st.currentDepth + 1)
        [.insertLoopVar var (st.boundsUniform lo hi && !st.currentDivergent)]
      ++ [.postLoop]
  | .block body | .region _ _ body =>
      nestedSequence body st.currentDivergent (st.currentDepth + 1) []
  | _ => []

mutual

def walkWeight : Node → Nat
  | .ifThen _ thenNodes otherwise => walkWeightList thenNodes + walkWeightList otherwise + 10
  | .loop _ _ _ body => walkWeightList body + 7
  | .block body | .region _ _ body => walkWeightList body + 5
  | _ => 1

def walkWeightList : List Node → Nat
  | [] => 0
  | n :: ns => walkWeight n + walkWeightList ns

end

theorem walkWeight_pos (n : Node) : 0 < walkWeight n := by
  cases n <;> simp [walkWeight]

theorem walkWeightList_eq (ns : List Node) : walkWeightList ns = (ns.map walkWeight).sum := by
  induction ns with
  | nil => rfl
  | cons n ns ih => simp [walkWeightList, ih]

def WalkFrame.weight : WalkFrame → Nat
  | .child n => walkWeight n
  | _ => 1

open WalkFrame

theorem nestedSequence_weight (nodes : List Node) (divergent : Bool) (depth : Nat)
    (preChildren : List WalkFrame) :
    ((nestedSequence nodes divergent depth preChildren).map weight).sum =
      walkWeightList nodes + (preChildren.map weight).sum + 4 := by
  have hchild : (nodes.map (weight ∘ child)).sum = walkWeightList nodes :=
    (walkWeightList_eq nodes).symm
  simp only [nestedSequence, map_append, map_map, sum_append,
    map_cons, map_nil, sum_cons, sum_nil, weight]
  omega

theorem childFrames_weight (st : Validator) (n : Node) :
    ((childFrames st n).map weight).sum < walkWeight n := by
  cases n with
  | ifThen cond thenNodes otherwise | loop var lo hi body =>
    simp only [childFrames, map_append, sum_append, nestedSequence_weight, walkWeight,
      map_cons, map_nil, sum_cons, sum_nil, weight]
    omega
  | block body | region _ _ body =>
    simp only [childFrames, nestedSequence_weight, walkWeight, map_nil, sum_nil]
    omega
  | _ => exact walkWeight_pos _

section Run

variable (options : Options) (buffers : Buffers)

/-- One turn of the loop of `run`. A visitor's `Break` is uninhabited. -/
def walkStep (frame : WalkFrame) (st : Validator) : Except Empty (List WalkFrame × Validator) :=
  match frame with
  | .child n => .ok (childFrames (visitNode options buffers st n) n, visitNode options buffers st n)
  | .postIf | .postLoop => .ok ([], st.extendPending)
  | .pushScope divergent depth nodes => .ok ([], st.pushScope divergent depth nodes)
  | .popScope => .ok ([], st.popScope)
  | .pushAlias => .ok ([], st.pushAlias)
  | .popAlias => .ok ([], st.popAlias)
  | .insertLoopVar var uniform => .ok ([], st.insertLoopVar var uniform)

/-- The loop of `run`. -/
def walkLoop : Worklist.Loop WalkFrame Validator Empty where
  step := walkStep options buffers
  weight := weight
  decreases := by
    intro frame st items st' h
    cases frame with
    | child n =>
      obtain ⟨rfl, -⟩ := Prod.mk.inj (Except.ok.inj h)
      exact childFrames_weight _ n
    | _ =>
      obtain ⟨rfl, -⟩ := Prod.mk.inj (Except.ok.inj h)
      exact Nat.one_pos

variable (nodes : List Node)

/-- The frames `run` starts with; the alias frame is not popped. -/
def initialFrames : List WalkFrame :=
  [.pushScope false 0 nodes, .pushAlias] ++ nodes.map .child ++ [.popScope]

mutual

def walkNode (st : Validator) : Node → Validator
  | .ifThen cond thenNodes otherwise =>
      let st := visitNode options buffers st (.ifThen cond thenNodes otherwise)
      let divergent := st.branchDivergent cond
      let depth := st.currentDepth + 1
      let st := (walkNodes (st.enter divergent depth thenNodes) thenNodes).leave
      let st := (walkNodes (st.enter divergent depth otherwise) otherwise).leave
      st.extendPending
  | .loop var lo hi body =>
      let st := visitNode options buffers st (.loop var lo hi body)
      let divergent := st.currentDivergent || !st.boundsUniform lo hi
      let uniform := st.boundsUniform lo hi && !st.currentDivergent
      let st := (st.enter divergent (st.currentDepth + 1) body).insertLoopVar var uniform
      (walkNodes st body).leave.extendPending
  | .block body =>
      let st := visitNode options buffers st (.block body)
      (walkNodes (st.enter st.currentDivergent (st.currentDepth + 1) body) body).leave
  | .region generator sourceRegion body =>
      let st := visitNode options buffers st (.region generator sourceRegion body)
      (walkNodes (st.enter st.currentDivergent (st.currentDepth + 1) body) body).leave
  | n => visitNode options buffers st n

def walkNodes (st : Validator) : List Node → Validator
  | [] => st
  | n :: ns => walkNodes (walkNode st n) ns

end

/-- What a frame does to the state once everything it pushes is popped. -/
def runFrame (st : Validator) : WalkFrame → Validator
  | .child n => walkNode options buffers st n
  | .postIf | .postLoop => st.extendPending
  | .pushScope divergent depth nodes => st.pushScope divergent depth nodes
  | .popScope => st.popScope
  | .pushAlias => st.pushAlias
  | .popAlias => st.popAlias
  | .insertLoopVar var uniform => st.insertLoopVar var uniform

theorem foldl_child (ns : List Node) (st : Validator) :
    (ns.map child).foldl (runFrame options buffers) st
      = walkNodes options buffers st ns := by
  induction ns generalizing st with
  | nil => rfl
  | cons n ns ih =>
    rw [walkNodes, ← ih]
    rfl

theorem foldl_nestedSequence (ns : List Node) (divergent : Bool) (depth : Nat)
    (preChildren : List WalkFrame) (st : Validator) :
    (nestedSequence ns divergent depth preChildren).foldl (runFrame options buffers) st
      = (walkNodes options buffers
          (preChildren.foldl (runFrame options buffers) (st.enter divergent depth ns))
            ns).leave := by
  simp only [nestedSequence, foldl_append, foldl_child]
  rfl

theorem foldl_childFrames (st : Validator) (n : Node) :
    (childFrames (visitNode options buffers st n) n).foldl (runFrame options buffers)
      (visitNode options buffers st n) = walkNode options buffers st n := by
  cases n with
  | ifThen cond thenNodes otherwise | loop var lo hi body =>
    simp only [childFrames, foldl_append, foldl_nestedSequence]
    rfl
  | block body | region _ _ body =>
    simp only [childFrames, foldl_nestedSequence]
    rfl
  | _ => rfl

theorem run_eq_walkNodes (frames : List WalkFrame) (st : Validator) :
    (walkLoop options buffers).run frames st =
      .ok (frames.foldl (runFrame options buffers) st) := by
  have hpure : ∀ (frames : List WalkFrame) st,
      frames.foldlM
        (fun st frame => (.ok (runFrame options buffers st frame) : Except Empty Validator)) st
        = .ok (frames.foldl (runFrame options buffers) st) := by
    intro frames st
    exact foldlM_pure
  rw [(walkLoop options buffers).run_eq_foldlM
    (fun st frame => .ok (runFrame options buffers st frame)), hpure]
  intro frame st
  cases frame with
  | child n =>
    show _ = foldlM _ _ (childFrames _ n)
    rw [hpure, foldl_childFrames]
    rfl
  | _ => rfl

/-- The self-exclusive regions that occur more than once, sorted. -/
def selfCompositionErrors (keys : List String) : List String :=
  ((keys.filter fun key => 1 < keys.count key).insertionSort (· ≤ ·)).dedup.map fun generator =>
    s!"region `{generator}` is marked non-composable with itself but appears multiple times in one fused program. Fix: split the parser into separate dispatches, or give each instance distinct scratch storage before fusion."

/-- The diagnostics of `run`. -/
def runErrors : List String :=
  match (walkLoop options buffers).run (initialFrames nodes) {} with
  | .ok st => st.errors ++ selfCompositionErrors st.selfCompKeys
  | .error e => e.elim

def walkEntry : Validator :=
  walkNodes options buffers (({} : Validator).enter false 0 nodes) nodes

theorem runErrors_eq :
    runErrors options buffers nodes = (walkEntry options buffers nodes).popScope.errors
      ++ selfCompositionErrors (walkEntry options buffers nodes).popScope.selfCompKeys := by
  unfold runErrors
  rw [run_eq_walkNodes]
  simp only [initialFrames, foldl_append, foldl_child]
  rfl

end Run

/-! ## Declarations -/

def topLevelNodeName : Node → String
  | .letBind _ _ => "Let"
  | .assign _ _ => "Assign"
  | .store _ _ _ => "Store"
  | .ifThen _ _ _ => "If"
  | .loop _ _ _ _ => "Loop"
  | .ret => "Return"
  | .block _ => "Block"
  | .barrier _ => "Barrier"
  | .region _ _ _ => "Region"
  | .indirectDispatch _ _ => "IndirectDispatch"
  | .asyncLoad _ _ _ _ _ => "AsyncLoad"
  | .asyncStore _ _ _ _ _ => "AsyncStore"
  | .asyncWait _ => "AsyncWait"
  | .trap _ _ => "Trap"
  | .resume _ => "Resume"
  | .allReduce _ _ _ => "AllReduce"
  | .allGather _ _ _ => "AllGather"
  | .reduceScatter _ _ _ _ => "ReduceScatter"
  | .broadcast _ _ _ => "Broadcast"
  | .ext _ => "Opaque"

def topLevelRegionViolation (entry : List Node) : Option String :=
  if entry.isEmpty then some "program entry has no top-level Region. Fix: construct runnable programs with Program::wrapped(...) or wrap the body in Node::Region before validation, interpretation, or dispatch."
  else (entry.zipIdx.find? fun (n, _) => !(n matches .region _ _ _)).map fun (n, index) =>
    s!"program entry node {index} is `{topLevelNodeName n}` instead of `Node::Region`. Fix: construct runnable programs with Program::wrapped(...) or wrap the top-level body in Node::Region; raw Program::new is reserved for wire decode and negative tests."

def checkWorkgroupSize (size : UInt32 × UInt32 × UInt32) : List String :=
  [size.1, size.2.1, size.2.2].zipIdx.flatMap fun (size, axis) =>
    report (size = 0) s!"workgroup_size[{axis}] is 0. Fix: all workgroup dimensions must be >= 1."

def validateOutputBufferElementType (buf : BufferDecl) : List String :=
  report (buf.isOutput && match buf.element with | .array _ | .tensor => true | _ => false) s!"output buffer `{buf.name}` uses unsupported element type `{buf.element.display}`. Fix: output buffers must use fixed-width scalar or vector element types, not Array or Tensor."

/-- The loop over the declarations; `names` and `bindings` have been seen. -/
def checkDeclarations (names : List Ident) (bindings : List UInt32) :
    List BufferDecl → List String
  | [] => []
  | buf :: bufs =>
      report (buf.name ∈ names) s!"duplicate buffer name `{buf.name}`. Fix: each buffer must have a unique name."
      ++ report (buf.access ≠ .workgroup && buf.binding ∈ bindings) s!"duplicate binding slot {buf.binding} (buffer `{buf.name}`). Fix: each buffer must have a unique binding."
      ++ report (buf.access = .workgroup && buf.count = 0) s!"workgroup buffer `{buf.name}` has count 0. Fix: declare a positive element count."
      ++ validateOutputBufferElementType buf
      ++ checkDeclarations (buf.name :: names)
          (if buf.access = .workgroup then bindings else buf.binding :: bindings) bufs

def validateOutputMarkers (buffers : List BufferDecl) : List String :=
  let outputs := buffers.countP (·.isOutput)
  report (1 < outputs) s!"V022: program declares {outputs} output buffers. Fix: mark at most one result buffer with BufferDecl::output(...)."

/-- `buffer_map`: of two declarations of a name the later one stays. -/
def bufferMap (buffers : List BufferDecl) : Buffers :=
  fun name => buffers.reverse.find? (·.name == name)

/-- The buffers that `ProgramFacts` counts, one for each mention. -/
def bufferRefs (ns : List Node) : List Ident :=
  Node.collectList (fun e => (exprBuffer e).toList) nodeBuffers ns

def violationMessage (buf : BufferDecl) (uses : Nat) : List String :=
  match buf.linearType with
  | .linear => report (uses ≠ 1) s!"buffer `{buf.name}` declared `LinearType::Linear` must be used exactly once but was used {uses} time(s). Fix: ensure the program reads or writes this buffer exactly once on every path, or change the discipline to Affine / Relevant / Unrestricted."
  | .affine => report (1 < uses) s!"buffer `{buf.name}` declared `LinearType::Affine` must be used at most once but was used {uses} time(s). Fix: drop the redundant references, or change the discipline to Relevant / Unrestricted to allow re-use."
  | .relevant => report (uses = 0) s!"buffer `{buf.name}` declared `LinearType::Relevant` must be used at least once but was unused. Fix: add a read or write of this buffer, or change the discipline to Affine / Unrestricted."
  | .unrestricted => []

def checkLinearTypes (p : Program) : List String :=
  p.buffers.flatMap fun buf =>
    violationMessage buf (min ((bufferRefs p.entry).count buf.name) (2 ^ 32 - 1))

/-- `ShapePredicate::describe`. -/
def describeShape : ShapePredicate → String
  | .atLeast n => s!"count >= {n}"
  | .atMost n => s!"count <= {n}"
  | .exactly n => s!"count == {n}"
  | .multipleOf n => s!"count % {n} == 0"
  | .modEquals modulus remainder => s!"count % {modulus} == {remainder}"
  | .affineRange scale offset min max => s!"{min} <= count * {scale} + {offset} <= {max}"
  | .and a b => s!"({describeShape a}) && ({describeShape b})"
  | .or a b => s!"({describeShape a}) || ({describeShape b})"
  | .not inner => s!"!({describeShape inner})"

def checkShapePredicates (buffers : List BufferDecl) : List String :=
  buffers.flatMap fun buf => buf.shapePredicate.elim [] fun predicate =>
    report (!predicate.holds buf.count) s!"buffer `{buf.name}` declared shape predicate `{describeShape predicate}` but has count={buf.count}. Fix: change the count to satisfy the predicate, or relax the predicate."

/-- The errors of `validate_with_options`. -/
def validateWithOptions (options : Options) (p : Program) : List String :=
  (topLevelRegionViolation p.entry).toList
  ++ checkWorkgroupSize p.workgroupSize
  ++ checkDeclarations [] [] p.buffers
  ++ validateOutputMarkers p.buffers
  ++ runErrors options (bufferMap p.buffers) p.entry
  ++ checkLinearTypes p
  ++ checkShapePredicates p.buffers

-- The walk by recursion has the errors of the loop, and evaluates.
instance (options : Options) (p : Program) : Decidable (validateWithOptions options p = []) :=
  decidable_of_iff ((topLevelRegionViolation p.entry).toList ++
    checkWorkgroupSize p.workgroupSize ++
      checkDeclarations [] [] p.buffers ++ validateOutputMarkers p.buffers ++
      ((walkEntry options (bufferMap p.buffers) p.entry).popScope.errors ++
        selfCompositionErrors
          (walkEntry options (bufferMap p.buffers) p.entry).popScope.selfCompKeys) ++
      checkLinearTypes p ++ checkShapePredicates p.buffers = [])
    (by rw [validateWithOptions, runErrors_eq])

/-- `validate`: default options, with the dialect lookup installed in the
process, if any. -/
def validate (dialect : Option DialectLookup) (p : Program) : List String :=
  validateWithOptions { dialect } p

instance (dialect : Option DialectLookup) (p : Program) :
    Decidable (validate dialect p = []) :=
  inferInstanceAs (Decidable (validateWithOptions _ p = []))

end Vyre.Validate
