import Vyre.Ir.Collect
import Vyre.Transform.Inline

/-!
# What inlining leaves behind

No call, and no buffer through which an inlined operation is called, as long as
calls and those buffers stay out of the places neither walker rewrites. What the
walkers drop does not count: the indices of the loads that are replaced, the
values of the indices of output stores, and arguments that are not loaded.
-/

namespace Vyre.Transform

open Worklist StateExcept List Node

mutual

/-- What the loop of `rename_expr_vars` computes. -/
def renamed (vars : Ident → Option String) : Expr → Expr
  | .var name => .var (renameUse vars name)
  | .load buffer index => .load buffer (renamed vars index)
  | .binOp op left right => .binOp op (renamed vars left) (renamed vars right)
  | .unOp op operand => .unOp op (renamed vars operand)
  | .call opId args => .call opId (renamedArgs vars args)
  | .fma a b c => .fma (renamed vars a) (renamed vars b) (renamed vars c)
  | .select cond trueVal falseVal =>
      .select (renamed vars cond) (renamed vars trueVal) (renamed vars falseVal)
  | .cast target value => .cast target (renamed vars value)
  | .atomic op buffer index expected value ordering =>
      .atomic op buffer (renamed vars index) (renamedExpected vars expected) (renamed vars value)
        ordering
  | .invocationId _ | .workgroupId _ | .localId _ | .subgroupLocalId | .subgroupSize => .litU32 0
  | e => e

def renamedExpected (vars : Ident → Option String) : Option Expr → Option Expr
  | none => none
  | some e => some (renamed vars e)

def renamedArgs (vars : Ident → Option String) : List Expr → List Expr
  | [] => []
  | e :: es => renamed vars e :: renamedArgs vars es

end

theorem renamedArgs_eq (vars : Ident → Option String) (es : List Expr) :
    renamedArgs vars es = es.map (renamed vars) := by
  induction es with
  | nil => rfl
  | cons e es ih => rw [renamedArgs, ih, map_cons]

section Rename

variable {vars : Ident → Option String}

theorem renameLoop_step {frame : RenameFrame} {frames items : List RenameFrame}
    {values values' : List Expr} (h : renameStep vars frame values = .ok (items, values')) :
    (renameLoop vars).run (frame :: frames) values =
      (renameLoop vars).run (items ++ frames) values' := by
  rw [Loop.run_cons, show (renameLoop vars).step frame values = _ from h]
  rfl

theorem renameLoop_args {args : List Expr}
    (h : ∀ e ∈ args, ∀ frames values, (renameLoop vars).run (.enter e :: frames) values =
      (renameLoop vars).run frames (renamed vars e :: values))
    (frames : List RenameFrame) (values : List Expr) :
    (renameLoop vars).run (args.map .enter ++ frames) values =
      (renameLoop vars).run frames ((args.map (renamed vars)).reverse ++ values) := by
  induction args generalizing values with
  | nil => rfl
  | cons e args ih =>
    rw [map_cons, cons_append, h e (by simp), ih fun a ha => h a (by simp [ha])]
    simp

theorem renameLoop_enter (e : Expr) (frames : List RenameFrame) (values : List Expr) :
    (renameLoop vars).run (.enter e :: frames) values =
      (renameLoop vars).run frames (renamed vars e :: values) := by
  induction e generalizing frames values with
  | load buffer index ih | unOp op operand ih | cast target value ih =>
    rw [renameLoop_step rfl, cons_append, ih, cons_append, renameLoop_step rfl]
    rfl
  | binOp op left right ihl ihr =>
    rw [renameLoop_step rfl, cons_append, ihl, cons_append, ihr, cons_append,
      renameLoop_step rfl]
    rfl
  | call opId args ih =>
    have hcall : renameStep vars (.call opId args.length)
        ((args.map (renamed vars)).reverse ++ values) =
        .ok ([], .call opId (args.map (renamed vars)) :: values) := by
      have hlen : args.length = (args.map (renamed vars)).reverse.length := by simp
      rw [renameStep, if_pos (by simp), hlen, take_left, drop_left, reverse_reverse]
    rw [renameLoop_step rfl, append_assoc, renameLoop_args ih, cons_append,
      renameLoop_step hcall, renamed, renamedArgs_eq]
    rfl
  | fma a b c iha ihb ihc | select a b c iha ihb ihc =>
    rw [renameLoop_step rfl, cons_append, iha, cons_append, ihb, cons_append, ihc,
      cons_append, renameLoop_step rfl]
    rfl
  | atomic op buffer _ expected value ordering ihi ihe ihv =>
    cases expected with
    | none =>
      rw [renameLoop_step rfl, cons_append, ihi]
      show (renameLoop vars).run (.enter value :: .atomic op buffer false ordering :: frames) _ = _
      rw [ihv, renameLoop_step rfl]
      rfl
    | some expected =>
      rw [renameLoop_step rfl, cons_append, ihi]
      show (renameLoop vars).run (.enter expected :: .enter value ::
        .atomic op buffer true ordering :: frames) _ = _
      rw [ihe expected rfl, ihv, renameLoop_step rfl]
      rfl
  | _ =>
    rw [renameLoop_step rfl]
    rfl

theorem renameExprVars_eq (e : Expr) : renameExprVars vars e = .ok (renamed vars e) := by
  rw [renameExprVars, renameLoop_enter, Loop.run_nil]

end Rename

/-! ## Names and calls -/

def isCall : Expr → Bool
  | .call _ _ => true
  | _ => false

/-- The operands of an expression that the caller's walker does not look at. -/
def hiddenOperands : Expr → List Expr
  | .subgroupBallot cond => [cond]
  | .subgroupShuffle value lane => [value, lane]
  | .subgroupAdd value => [value]
  | _ => []

/-- The operands of a statement that neither walker looks at. -/
def hiddenNodeOperands : Node → List Expr
  | .asyncLoad _ _ offset size _ => [offset, size]
  | .asyncStore _ _ offset size _ => [offset, size]
  | .trap address _ => [address]
  | _ => []

section Closed

variable (allowed : Ident → Prop)

structure ClosedAt (e : Expr) : Prop where
  noCall : isCall e = false
  buffers : ∀ b ∈ exprBuffer e, allowed b

def ClosedExpr (e : Expr) : Prop := e.Forall (ClosedAt allowed)

def ClosedNode (n : Node) : Prop :=
  n.Forall (ClosedAt allowed) fun n => ∀ b ∈ nodeBuffers n, allowed b

abbrev ClosedNodes (ns : List Node) : Prop := ∀ n ∈ ns, ClosedNode allowed n

/-- What a walker returns for an expression whose value may be kept. -/
structure ClosedHoisted (kept : Bool) (r : Hoisted) : Prop where
  nodes : ClosedNodes allowed r.1
  value : kept = true → ClosedExpr allowed r.2

end Closed

def inputNames (callee : Program) : List Ident := (inputBuffers callee).map (·.name)

def outputNames (callee : Program) : List Ident :=
  (callee.buffers.filter (·.isOutput)).map (·.name)

def boundary (callee : Program) : List Ident := inputNames callee ++ outputNames callee

/-! ## What becomes of an operand -/

/-- An expression that one of the walkers visits. -/
structure Place where
  /-- The walker is the one over the bodies of operations. -/
  callee : Bool
  /-- The value is used, and not only the statements hoisted from it. -/
  kept : Bool
  expr : Expr

section Places

variable (used : String → Nat → Bool) (inputs outputs : List Ident)

mutual

/-- The expressions that are visited when a walker is at `e`. A load of an input
becomes the argument, and its index is dropped; the arguments of a call are for
the caller's walker, and `used` tells which of them the operation loads. -/
def places (callee kept : Bool) : Expr → List Place
  | .load buffer index => ⟨callee, kept, .load buffer index⟩ ::
      if callee = true ∧ buffer ∈ inputs then [] else places callee kept index
  | .binOp op left right => ⟨callee, kept, .binOp op left right⟩ ::
      (places callee kept left ++ places callee kept right)
  | .unOp op operand => ⟨callee, kept, .unOp op operand⟩ :: places callee kept operand
  | .cast target value => ⟨callee, kept, .cast target value⟩ :: places callee kept value
  | .fma a b c => ⟨callee, kept, .fma a b c⟩ ::
      (places callee kept a ++ places callee kept b ++ places callee kept c)
  | .select cond trueVal falseVal => ⟨callee, kept, .select cond trueVal falseVal⟩ ::
      (places callee kept cond ++ places callee kept trueVal ++ places callee kept falseVal)
  | .atomic op buffer index expected value ordering =>
      ⟨callee, kept, .atomic op buffer index expected value ordering⟩ ::
        (places callee kept index ++ expectedPlaces callee kept expected ++
          places callee kept value)
  | .call opId args => ⟨callee, kept, .call opId args⟩ :: argPlaces opId 0 args
  | e => [⟨callee, kept, e⟩]

def expectedPlaces (callee kept : Bool) : Option Expr → List Place
  | none => []
  | some e => places callee kept e

def argPlaces (opId : String) : Nat → List Expr → List Place
  | _, [] => []
  | i, arg :: args => places false (used opId i) arg ++ argPlaces opId (i + 1) args

end

/-- The same for a statement, without the statements in it. Of the index of an
output store only what is hoisted is left. -/
def nodePlaces (callee : Bool) : Node → List Place
  | .letBind _ e | .assign _ e | .ifThen e _ _ => places used inputs callee true e
  | .store buffer index value =>
      places used inputs callee (!decide (callee = true ∧ buffer ∈ outputs)) index ++
        places used inputs callee true value
  | .loop _ lo hi _ => places used inputs callee true lo ++ places used inputs callee true hi
  | _ => []

end Places

def bodyPlaces (used : String → Nat → Bool) (callee : Bool) (p : Program) : List Place :=
  collectList (fun _ => []) (nodePlaces used (inputNames p) (outputNames p) callee) p.entry

def keptLoad : Place → Option Ident
  | ⟨true, true, .load buffer _⟩ => some buffer
  | _ => none

/-- The buffers whose loads the walker over an operation's body keeps or replaces.
Arguments of calls do not come in. -/
def keptLoads (callee : Program) : List Ident :=
  (bodyPlaces (fun _ _ => false) true callee).filterMap keptLoad

def sortedInputs (callee : Program) : List BufferDecl :=
  (inputBuffers callee).insertionSort fun a b => a.binding ≤ b.binding

/-- The operation loads its input for the argument. -/
def usesArg (resolver : OpResolver) (opId : String) (i : Nat) : Bool :=
  (resolver opId).any fun callee =>
    (sortedInputs callee)[i]?.any fun input => decide (input.name ∈ keptLoads callee)

def placeCall : Place → Option Ident
  | ⟨_, _, .call opId _⟩ => some opId
  | _ => none

/-- The operations that a walker comes to call. -/
def visitedCalls (resolver : OpResolver) (callee : Bool) (p : Program) : List Ident :=
  (bodyPlaces (usesArg resolver) callee p).filterMap placeCall

section Conditions

variable (names inputs outputs : List Ident) (buffer : Ident → Prop) (call : String → Prop)

/-- In the place of the expression only buffers in `buffer` are left, given that
its operands are so, and no call of an operation outside `call` is made. -/
def PlaceOk : Place → Prop
  | ⟨callee, kept, .load b _⟩ => ¬ (callee = true ∧ b ∈ inputs) → kept = true → buffer b
  | ⟨callee, kept, .bufLen b⟩ => ¬ (callee = true ∧ b ∈ names) → kept = true → buffer b
  | ⟨_, kept, .atomic _ b _ _ _ _⟩ => kept = true → buffer b
  | ⟨_, _, .call opId _⟩ => call opId
  | ⟨callee, kept, e⟩ => callee = false → kept = true → ∀ h ∈ hiddenOperands e, ClosedExpr buffer h

/-- The same for what a statement itself names. -/
@[mk_iff] structure NodeOk (callee : Bool) (n : Node) : Prop where
  buffers : ∀ b ∈ nodeBuffers n,
    (callee = true ∧ b ∈ outputs ∧ ∃ index value, n = .store b index value) ∨ buffer b
  hidden : ∀ h ∈ hiddenNodeOperands n, ClosedExpr buffer h

end Conditions

/-- The buffers that must not be left of a body. -/
def ownNames (callee : Bool) (p : Program) : List Ident := if callee then boundary p else []

/-- Nothing that is kept of the body is a call, or names a buffer the operation is
called through. -/
@[mk_iff] structure Clean (resolver : OpResolver) (callee : Bool) (p : Program) : Prop where
  places : ∀ pl ∈ bodyPlaces (usesArg resolver) callee p,
    PlaceOk (ownNames callee p) (inputNames p) (· ∉ ownNames callee p) (fun _ => True) pl
  nodes : ∀ n ∈ p.entry, n.Forall (fun _ => True)
    (NodeOk (outputNames p) (· ∉ ownNames callee p) callee)

abbrev Yields {σ α : Type} (x : StateT σ (Except InlineError) α) (P : α → Prop) : Prop :=
  Meets (fun _ => True) (fun _ => False) x P

variable {σ α : Type} {P : α → Prop} {allowed : Ident → Prop} {called : String → Prop}
  {callee : Program} {kept : Bool} {names inputs outputs : List Ident} {resolver : OpResolver}

theorem Yields.throw (e : InlineError) :
    Yields (MonadExcept.throw e : StateT σ (Except InlineError) α) P :=
  fun _ _ h => h

theorem Yields.of_ok {x : StateT σ (Except InlineError) α} (h : ∀ s a s', x s = .ok (a, s') → P a) :
    Yields x P := by
  intro s _
  cases hx : x s with
  | error e => exact id
  | ok r => exact ⟨h s r.1 r.2 hx, trivial⟩

theorem Yields.result {x : StateT σ (Except InlineError) α} (h : Yields x P) {s s' : σ} {a : α}
    (hx : x s = .ok (a, s')) : P a := by
  have hr := h s trivial
  rw [hx] at hr
  exact hr.1

theorem Yields.any (x : StateT σ (Except InlineError) α) : Yields x fun _ => True :=
  Yields.of_ok fun _ _ _ _ => trivial

theorem ClosedNodes.append {ns ms : List Node} (hn : ClosedNodes allowed ns)
    (hm : ClosedNodes allowed ms) : ClosedNodes allowed (ns ++ ms) :=
  forall_mem_append.mpr ⟨hn, hm⟩

theorem ClosedNodes.single {n : Node} (h : ClosedNode allowed n) : ClosedNodes allowed [n] :=
  forall_mem_singleton.mpr h

theorem ClosedNodes.snoc {ns : List Node} {n : Node} (hns : ClosedNodes allowed ns)
    (h : ClosedNode allowed n) : ClosedNodes allowed (ns ++ [n]) := hns.append (.single h)

theorem Yields.hoist₁ {x : StateT σ (Except InlineError) Hoisted} {mk : Expr → Expr}
    (hx : Yields x (ClosedHoisted allowed kept))
    (hmk : kept = true → ∀ e, ClosedExpr allowed e → ClosedExpr allowed (mk e)) :
    Yields (do
      let (hoisted, e) ← x
      return (hoisted, mk e)) (ClosedHoisted allowed kept) :=
  hx.bind fun _ h => .pure ⟨h.nodes, fun hk => hmk hk _ (h.value hk)⟩

theorem Yields.hoist₂ {x y : StateT σ (Except InlineError) Hoisted} {mk : Expr → Expr → Expr}
    (hx : Yields x (ClosedHoisted allowed kept)) (hy : Yields y (ClosedHoisted allowed kept))
    (hmk : ∀ a b, ClosedExpr allowed a → ClosedExpr allowed b → ClosedExpr allowed (mk a b)) :
    Yields (do
      let (hoisted, a) ← x
      let (more, b) ← y
      return (hoisted ++ more, mk a b)) (ClosedHoisted allowed kept) :=
  hx.bind fun _ ha => hy.bind fun _ hb =>
    .pure ⟨ha.nodes.append hb.nodes, fun hk => hmk _ _ (ha.value hk) (hb.value hk)⟩

theorem Yields.hoist₃ {x y z : StateT σ (Except InlineError) Hoisted}
    {mk : Expr → Expr → Expr → Expr} (hx : Yields x (ClosedHoisted allowed kept))
    (hy : Yields y (ClosedHoisted allowed kept)) (hz : Yields z (ClosedHoisted allowed kept))
    (hmk : ∀ a b c, ClosedExpr allowed a → ClosedExpr allowed b → ClosedExpr allowed c →
      ClosedExpr allowed (mk a b c)) :
    Yields (do
      let (hoisted, a) ← x
      let (more, b) ← y
      let (rest, c) ← z
      return (hoisted ++ more ++ rest, mk a b c)) (ClosedHoisted allowed kept) :=
  hx.bind fun _ ha => hy.bind fun _ hb => hz.bind fun _ hc =>
    .pure ⟨(ha.nodes.append hb.nodes).append hc.nodes,
      fun hk => hmk _ _ _ (ha.value hk) (hb.value hk) (hc.value hk)⟩

/-! ## The caller -/

section Caller

variable {expand : String → Program → List Expr → Inline Hoisted}

/-- Expanding an operation that may be called gives closed statements, when the
arguments that it loads are closed. -/
def ExpandsClosed (allowed : Ident → Prop) (called : String → Prop) (resolver : OpResolver)
    (expand : String → Program → List Expr → Inline Hoisted) : Prop :=
  ∀ opId callee args, called opId → resolver opId = some callee →
    (∀ i a, args[i]? = some a → usesArg resolver opId i = true → ClosedExpr allowed a) →
      Yields (expand opId callee args) (ClosedHoisted allowed true)

theorem inlineArgs_closed {opId : String} {args : List Expr} {k : Nat}
    (hargs : ∀ a ∈ args, ∀ kept, (∀ pl ∈ places (usesArg resolver) inputs false kept a,
      PlaceOk names inputs allowed called pl) →
      Yields (inlineExpr resolver expand a) (ClosedHoisted allowed kept))
    (h : ∀ pl ∈ argPlaces (usesArg resolver) inputs opId k args,
      PlaceOk names inputs allowed called pl) :
    Yields (inlineArgs resolver expand args) fun r =>
      ClosedNodes allowed r.1 ∧ ∀ i a, r.2[i]? = some a →
        usesArg resolver opId (k + i) = true → ClosedExpr allowed a := by
  induction args generalizing k with
  | nil => exact .pure ⟨nofun, by simp⟩
  | cons a args ih =>
    rw [argPlaces, forall_mem_append] at h
    refine (hargs a (by simp) _ h.1).bind fun _ ha => ?_
    refine (ih (fun b hb => hargs b (by simp [hb])) h.2).bind ?_
    rintro ⟨rest, args'⟩ ⟨hrest, hargs'⟩
    refine .pure ⟨ha.nodes.append hrest, fun i b hb hused => ?_⟩
    cases i with
    | zero =>
      cases hb
      exact ha.value hused
    | succ i => exact hargs' i b hb (by rwa [Nat.add_right_comm, Nat.add_assoc])

theorem inlineResolved_closed (hexpand : ExpandsClosed allowed called resolver expand)
    {opId : String} (hcalled : called opId) {hoisted : List Node}
    (hhoisted : ClosedNodes allowed hoisted) {args : List Expr}
    (hargs : ∀ i a, args[i]? = some a → usesArg resolver opId i = true → ClosedExpr allowed a) :
    Yields (inlineResolved resolver expand opId hoisted args) (ClosedHoisted allowed kept) := by
  unfold inlineResolved
  cases hr : resolver opId with
  | none => exact .throw _
  | some callee =>
    refine (Yields.any _).bind fun _ _ => ?_
    refine (hexpand opId callee args hcalled hr hargs).bind ?_
    rintro ⟨calleeHoisted, value⟩ h
    exact (Yields.any _).bind fun _ _ =>
      .pure ⟨hhoisted.append h.nodes, fun _ => h.value rfl⟩

theorem inlineExpected_closed {expected : Option Expr}
    (h : ∀ e ∈ expected, Yields (inlineExpr resolver expand e) (ClosedHoisted allowed kept)) :
    Yields (inlineExpected resolver expand expected) fun r =>
      ClosedNodes allowed r.1 ∧ (kept = true → ∀ e ∈ r.2, ClosedExpr allowed e) := by
  cases expected with
  | none => exact .pure ⟨nofun, by simp⟩
  | some e =>
    refine (h e rfl).bind fun _ he => .pure ⟨he.nodes, fun hk => ?_⟩
    rintro x ⟨⟩
    exact he.value hk

theorem forall_expectedPlaces {used : String → Nat → Bool} {c : Bool} {expected : Option Expr}
    {Q : Place → Prop} : (∀ pl ∈ expectedPlaces used inputs c kept expected, Q pl) ↔
      ∀ e ∈ expected, ∀ pl ∈ places used inputs c kept e, Q pl := by
  cases expected <;> simp [expectedPlaces]

theorem inlineExpr_closed (hexpand : ExpandsClosed allowed called resolver expand) {e : Expr}
    (h : ∀ pl ∈ places (usesArg resolver) inputs false kept e,
      PlaceOk names inputs allowed called pl) :
    Yields (inlineExpr resolver expand e) (ClosedHoisted allowed kept) := by
  induction e generalizing kept with
    (unfold inlineExpr; simp only [places, forall_mem_cons, forall_mem_append] at h)
  | load buffer index ih =>
    obtain ⟨hload, hindex⟩ := h
    rw [if_neg (by simp)] at hindex
    exact .hoist₁ (ih hindex) fun hk _ hi =>
      ⟨⟨rfl, by simpa [exprBuffer] using hload (by simp) hk⟩, hi⟩
  | binOp op left right ihl ihr =>
    exact .hoist₂ (ihl h.2.1) (ihr h.2.2) fun _ _ hl hr => ⟨⟨rfl, nofun⟩, hl, hr⟩
  | unOp op operand ih | cast target operand ih =>
    exact .hoist₁ (ih h.2) fun _ _ ho => ⟨⟨rfl, nofun⟩, ho⟩
  | fma a b c iha ihb ihc | select a b c iha ihb ihc =>
    exact .hoist₃ (iha h.2.1.1) (ihb h.2.1.2) (ihc h.2.2) fun _ _ _ ha hb hc =>
      ⟨⟨rfl, nofun⟩, ha, hb, hc⟩
  | call opId args ih =>
    refine (Yields.any _).bind fun _ _ => ?_
    refine (inlineArgs_closed (fun a ha kept => ih a ha) h.2).bind ?_
    rintro ⟨hoisted, args'⟩ ⟨hhoisted, hargs⟩
    exact inlineResolved_closed hexpand h.1 hhoisted fun i a ha hused =>
      hargs i a ha (by rwa [Nat.zero_add])
  | atomic _ _ _ _ _ _ ihi ihe ihv =>
    obtain ⟨hatomic, ⟨hindex, hexpected⟩, hvalue⟩ := h
    refine (ihi hindex).bind fun _ hi => ?_
    refine (inlineExpected_closed fun e he =>
      ihe e he (forall_expectedPlaces.mp hexpected e he)).bind ?_
    rintro ⟨expectedHoisted, expected'⟩ ⟨hnodes, hexpected'⟩
    refine (ihv hvalue).bind fun _ hv => ?_
    exact .pure ⟨(hi.nodes.append hnodes).append hv.nodes, fun hk =>
      ⟨⟨rfl, by simpa [exprBuffer] using hatomic hk⟩, hi.value hk,
        Expr.forallExpected_iff.mpr (hexpected' hk), hv.value hk⟩⟩
  | subgroupBallot e | subgroupAdd e =>
    exact .pure ⟨nofun, fun hk => ⟨⟨rfl, nofun⟩, h.1 rfl hk e (by simp [hiddenOperands])⟩⟩
  | subgroupShuffle value lane =>
    exact .pure ⟨nofun, fun hk => ⟨⟨rfl, nofun⟩,
      h.1 rfl hk value (by simp [hiddenOperands]), h.1 rfl hk lane (by simp [hiddenOperands])⟩⟩
  | bufLen buffer =>
    exact .pure ⟨nofun, fun hk =>
      ⟨rfl, by simpa [exprBuffer] using h.1 (by simp) hk⟩⟩
  | _ => exact .pure ⟨nofun, fun _ => ⟨rfl, nofun⟩⟩

/-- A statement that a walker closes. -/
structure NodeFine (names inputs outputs : List Ident) (allowed : Ident → Prop)
    (called : String → Prop) (resolver : OpResolver) (callee : Bool) (n : Node) : Prop where
  places : ∀ pl ∈ nodePlaces (usesArg resolver) inputs outputs callee n,
    PlaceOk names inputs allowed called pl
  own : NodeOk outputs allowed callee n

theorem NodeOk.buffer {callee : Bool} {n : Node}
    (h : NodeOk outputs allowed callee n) (hstore : ∀ b index value, n ≠ .store b index value) :
    ∀ b ∈ nodeBuffers n, allowed b := by
  intro b hb
  rcases h.buffers b hb with ⟨-, -, index, value, heq⟩ | hb
  · exact absurd heq (hstore b index value)
  · exact hb

theorem inlineNodes_closed {ns : List Node}
    (h : ∀ n ∈ ns, Yields (inlineNode resolver expand n) (ClosedNodes allowed)) :
    Yields (inlineNodes resolver expand ns) (ClosedNodes allowed) := by
  induction ns with
  | nil => exact .pure nofun
  | cons n ns ih =>
    refine (h n (by simp)).bind fun head hhead => ?_
    exact (ih fun m hm => h m (by simp [hm])).bind fun tail htail =>
      .pure (hhead.append htail)

theorem inlineNode_closed (hexpand : ExpandsClosed allowed called resolver expand) {n : Node}
    (h : n.Forall (fun _ => True) (NodeFine names inputs outputs allowed called resolver false)) :
    Yields (inlineNode resolver expand n) (ClosedNodes allowed) := by
  have hexpr : ∀ {e : Expr}, (∀ pl ∈ places (usesArg resolver) inputs false true e,
      PlaceOk names inputs allowed called pl) →
      Yields (inlineExpr resolver expand e) (ClosedHoisted allowed true) :=
        inlineExpr_closed hexpand
  induction n with unfold inlineNode
  | letBind name value | assign name value =>
    refine (hexpr h.1.places).bind fun _ hv => ?_
    exact .pure (hv.nodes.snoc ⟨nofun, hv.value rfl⟩)
  | store buffer index value =>
    obtain ⟨⟨hplaces, hown⟩, -⟩ := h
    simp only [nodePlaces, Bool.false_eq_true, false_and, decide_false, Bool.not_false,
      forall_mem_append] at hplaces
    refine (hexpr hplaces.1).bind fun _ hi => ?_
    refine (hexpr hplaces.2).bind fun _ hv => ?_
    refine .pure ((hi.nodes.append hv.nodes).snoc ⟨fun b hb => ?_, hi.value rfl, hv.value rfl⟩)
    exact (hown.buffers b hb).resolve_left fun hcallee => Bool.noConfusion hcallee.1
  | ifThen cond thenNodes otherwise iht iho =>
    have ht := forallList_iff.mp h.2.2.1
    have ho := forallList_iff.mp h.2.2.2
    refine (hexpr h.1.places).bind fun _ hc => ?_
    refine (inlineNodes_closed fun m hm => iht m hm (ht m hm)).bind fun thenNodes' hthen => ?_
    refine (inlineNodes_closed fun m hm => iho m hm (ho m hm)).bind fun otherwise' hother => ?_
    exact .pure (hc.nodes.snoc
      ⟨nofun, hc.value rfl, forallList_iff.mpr hthen, forallList_iff.mpr hother⟩)
  | loop var lo hi body ih =>
    have hb := forallList_iff.mp h.2.2.2
    have hplaces := forall_mem_append.mp h.1.places
    refine (hexpr hplaces.1).bind fun _ hlo => ?_
    refine (hexpr hplaces.2).bind fun _ hhi => ?_
    refine (inlineNodes_closed fun m hm => ih m hm (hb m hm)).bind fun body' hbody => ?_
    exact .pure ((hlo.nodes.append hhi.nodes).snoc
      ⟨nofun, hlo.value rfl, hhi.value rfl, forallList_iff.mpr hbody⟩)
  | block body ih | region _ _ body ih =>
    have hb := forallList_iff.mp h.2
    refine (inlineNodes_closed fun m hm => ih m hm (hb m hm)).bind fun body' hbody => ?_
    exact .pure (.single ⟨nofun, forallList_iff.mpr hbody⟩)
  | asyncLoad _ _ offset size _ | asyncStore _ _ offset size _ =>
    exact .pure (.single ⟨h.1.own.buffer nofun,
      h.1.own.hidden offset (by simp [hiddenNodeOperands]),
      h.1.own.hidden size (by simp [hiddenNodeOperands])⟩)
  | trap address tag =>
    exact .pure (.single ⟨nofun, h.1.own.hidden address (by simp [hiddenNodeOperands])⟩)
  | ext extension => exact .throw _
  | _ => exact .pure (.single (NodeOk.buffer (NodeFine.own h) nofun))

end Caller

/-! ## Callees -/

/-- The caller's walker makes the same of an expression whose variables are renamed. -/
theorem placeOk_renamed (vars : Ident → Option String) {used : String → Nat → Bool} {e : Expr}
    (h : ∀ pl ∈ places used inputs false kept e, PlaceOk names inputs allowed called pl) :
    ∀ pl ∈ places used inputs false kept (renamed vars e),
      PlaceOk names inputs allowed called pl := by
  induction e generalizing kept with
    (simp only [renamed, places, forall_mem_cons, forall_mem_append] at h ⊢)
  | load buffer index ih =>
    rw [if_neg (by simp)] at h ⊢
    exact ⟨h.1, ih h.2⟩
  | binOp op left right ihl ihr => exact ⟨h.1, ihl h.2.1, ihr h.2.2⟩
  | unOp op operand ih | cast target value ih => exact ⟨h.1, ih h.2⟩
  | fma a b c iha ihb ihc | select a b c iha ihb ihc =>
    exact ⟨h.1, ⟨iha h.2.1.1, ihb h.2.1.2⟩, ihc h.2.2⟩
  | call opId args ih =>
    refine ⟨h.1, ?_⟩
    obtain ⟨-, hargs⟩ := h
    rw [renamedArgs_eq]
    generalize 0 = k at hargs ⊢
    induction args generalizing k with
    | nil => simp [argPlaces]
    | cons a args ihargs =>
      rw [argPlaces, forall_mem_append] at hargs
      rw [map_cons, argPlaces, forall_mem_append]
      exact ⟨ih a (by simp) hargs.1, ihargs (fun b hb => ih b (by simp [hb])) _ hargs.2⟩
  | atomic _ _ _ expected _ _ ihi ihe ihv =>
    obtain ⟨hatomic, ⟨hindex, hexpected⟩, hvalue⟩ := h
    refine ⟨hatomic, ⟨ihi hindex, ?_⟩, ihv hvalue⟩
    cases expected with
    | none => simp [renamedExpected, expectedPlaces]
    | some x => exact ihe x rfl hexpected
  | _ => exact h

section Callee

structure Expansion.Fits (x : Expansion) (allowed : Ident → Prop) (callee : Program) : Prop where
  args : ∀ b ∈ keptLoads callee, ∀ a, x.inputArg b = some a → ClosedExpr allowed a
  inputs : ∀ b, b ∈ inputNames callee ↔ (x.inputArg b).isSome = true
  output : outputNames callee = [x.outputName]

variable {x : Expansion} {inline : Expr → Inline Hoisted}

theorem Yields.inCtx {α : Type} {y : Inline α} {P : α → Prop} (h : Yields y P) :
    Yields (Transform.inCtx y) P := by
  refine Yields.of_ok fun s a s' hs => ?_
  unfold Transform.inCtx at hs
  cases hy : y s.ctx <;> rw [hy] at hs <;> cases hs
  exact h.result hy

theorem expandExpected_closed {expected : Option Expr}
    (h : ∀ e ∈ expected, Yields (expandExpr x inline e) (ClosedHoisted allowed kept)) :
    Yields (expandExpected x inline expected) fun r =>
      ClosedNodes allowed r.1 ∧ (kept = true → ∀ e ∈ r.2, ClosedExpr allowed e) := by
  cases expected with
  | none => exact .pure ⟨nofun, by simp⟩
  | some e =>
    refine (h e rfl).bind fun _ he => .pure ⟨he.nodes, fun hk => ?_⟩
    rintro x ⟨⟩
    exact he.value hk

/-- The expressions that the walker over a callee is to close. -/
def InlinesClosed (names inputs : List Ident) (allowed : Ident → Prop) (called : String → Prop)
    (resolver : OpResolver) (inline : Expr → Inline Hoisted) : Prop :=
  ∀ kept e, (∀ pl ∈ places (usesArg resolver) inputs false kept e,
    PlaceOk names inputs allowed called pl) → Yields (inline e) (ClosedHoisted allowed kept)

theorem expandExpr_closed (hx : x.Fits allowed callee)
    (hinline : InlinesClosed (boundary callee) (inputNames callee) allowed called resolver inline)
    {e : Expr} (h : ∀ pl ∈ places (usesArg resolver) (inputNames callee) true kept e,
      PlaceOk (boundary callee) (inputNames callee) allowed called pl)
    (hloads : ∀ pl ∈ places (fun _ _ => false) (inputNames callee) true kept e,
      ∀ b ∈ keptLoad pl, b ∈ keptLoads callee) :
    Yields (expandExpr x inline e) (ClosedHoisted allowed kept) := by
  induction e with
    (unfold expandExpr; simp only [places, forall_mem_cons, forall_mem_append] at h hloads)
  | var name =>
    exact (Yields.any _).bind fun _ _ => .pure ⟨nofun, fun _ => ⟨rfl, nofun⟩⟩
  | load buffer index ih =>
    cases harg : x.inputArg buffer with
    | some arg =>
      refine .pure ⟨nofun, fun hk => hx.args buffer ?_ arg harg⟩
      subst hk
      exact hloads.1 buffer rfl
    | none =>
      have hinput : ¬ buffer ∈ inputNames callee := by
        rw [hx.inputs, harg]
        simp
      rw [if_neg fun hb => hinput hb.2] at h hloads
      refine (ih h.2 hloads.2).bind fun _ hi => .pure ⟨hi.nodes, fun hk => ⟨⟨rfl, ?_⟩, hi.value hk⟩⟩
      simpa [exprBuffer] using h.1 (fun hb => hinput hb.2) hk
  | bufLen buffer =>
    split_ifs with hbound
    · exact .pure ⟨nofun, fun _ => ⟨rfl, nofun⟩⟩
    · refine .pure ⟨nofun, fun hk => ⟨rfl, ?_⟩⟩
      have houter : buffer ∉ boundary callee := by
        simp only [boundary, mem_append, hx.inputs, hx.output, mem_singleton]
        exact fun hmem => hbound (hmem.symm.imp Eq.symm id)
      simpa [exprBuffer] using h.1 (fun hb => houter hb.2) hk
  | call opId args =>
    refine (Yields.any _).bind fun s _ => ?_
    rw [renameExprVars_eq]
    refine (hinline kept _ (placeOk_renamed s.vars ?_)).inCtx
    rw [places, forall_mem_cons]
    exact h
  | binOp op left right ihl ihr =>
    exact .hoist₂ (ihl h.2.1 hloads.2.1) (ihr h.2.2 hloads.2.2) fun _ _ hl hr =>
      ⟨⟨rfl, nofun⟩, hl, hr⟩
  | unOp op operand ih | cast target operand ih =>
    exact .hoist₁ (ih h.2 hloads.2) fun _ _ ho => ⟨⟨rfl, nofun⟩, ho⟩
  | fma a b c iha ihb ihc | select a b c iha ihb ihc =>
    exact .hoist₃ (iha h.2.1.1 hloads.2.1.1) (ihb h.2.1.2 hloads.2.1.2) (ihc h.2.2 hloads.2.2)
      fun _ _ _ ha hb hc => ⟨⟨rfl, nofun⟩, ha, hb, hc⟩
  | atomic _ _ _ _ _ _ ihi ihe ihv =>
    obtain ⟨hatomic, ⟨hindex, hexpected⟩, hvalue⟩ := h
    obtain ⟨-, ⟨hlindex, hlexpected⟩, hlvalue⟩ := hloads
    refine (ihi hindex hlindex).bind fun _ hi => ?_
    refine (expandExpected_closed fun e he => ihe e he (forall_expectedPlaces.mp hexpected e he)
      (forall_expectedPlaces.mp hlexpected e he)).bind ?_
    rintro ⟨expectedHoisted, expected'⟩ ⟨hnodes, hexpected'⟩
    refine (ihv hvalue hlvalue).bind fun _ hv => ?_
    exact .pure ⟨(hi.nodes.append hnodes).append hv.nodes, fun hk =>
      ⟨⟨rfl, by simpa [exprBuffer] using hatomic hk⟩, hi.value hk,
        Expr.forallExpected_iff.mpr (hexpected' hk), hv.value hk⟩⟩
  | subgroupBallot cond | subgroupShuffle value lane | subgroupAdd value | ext extension =>
    exact .throw _
  | _ => exact .pure ⟨nofun, fun _ => ⟨rfl, nofun⟩⟩

theorem expandNodes_closed {ns : List Node}
    (h : ∀ n ∈ ns, Yields (expandNode x inline n) (ClosedNodes allowed)) :
    Yields (expandNodes x inline ns) (ClosedNodes allowed) := by
  induction ns with
  | nil => exact .pure nofun
  | cons n ns ih =>
    refine (h n (by simp)).bind fun head hhead => ?_
    exact (ih fun m hm => h m (by simp [hm])).bind fun tail htail =>
      .pure (hhead.append htail)

/-- A statement of an operation's body that the walker over it closes. -/
structure CalleeFine (allowed : Ident → Prop) (called : String → Prop) (resolver : OpResolver)
    (callee : Program) (n : Node) : Prop extends NodeFine (boundary callee) (inputNames callee)
      (outputNames callee) allowed called resolver true n where
  loads : ∀ pl ∈ nodePlaces (fun _ _ => false) (inputNames callee) (outputNames callee) true n,
    ∀ b ∈ keptLoad pl, b ∈ keptLoads callee

theorem expandNode_closed (hx : x.Fits allowed callee)
    (hinline : InlinesClosed (boundary callee) (inputNames callee) allowed called resolver inline)
    {n : Node} (h : n.Forall (fun _ => True) (CalleeFine allowed called resolver callee)) :
    Yields (expandNode x inline n) (ClosedNodes allowed) := by
  have hexpr : ∀ {kept : Bool} {e : Expr},
      (∀ pl ∈ places (usesArg resolver) (inputNames callee) true kept e,
        PlaceOk (boundary callee) (inputNames callee) allowed called pl) →
      (∀ pl ∈ places (fun _ _ => false) (inputNames callee) true kept e,
        ∀ b ∈ keptLoad pl, b ∈ keptLoads callee) →
      Yields (expandExpr x inline e) (ClosedHoisted allowed kept) := expandExpr_closed hx hinline
  induction n with unfold expandNode
  | letBind name value =>
    refine (Yields.any _).bind fun renamed _ => ?_
    refine (hexpr h.1.places h.1.loads).bind fun _ hv => ?_
    exact .pure (hv.nodes.snoc ⟨nofun, hv.value rfl⟩)
  | assign name value =>
    refine (hexpr h.1.places h.1.loads).bind fun _ hv => ?_
    exact (Yields.any _).bind fun s _ =>
      .pure (hv.nodes.snoc ⟨nofun, hv.value rfl⟩)
  | store buffer index value =>
    have hplaces := forall_mem_append.mp h.1.places
    have hloads := forall_mem_append.mp h.1.loads
    refine (hexpr hplaces.1 hloads.1).bind fun _ hi => ?_
    refine (hexpr hplaces.2 hloads.2).bind fun _ hv => ?_
    have hnodes := hi.nodes.append hv.nodes
    split_ifs with houtput
    · exact (Yields.any _).bind fun _ _ =>
        .pure (hnodes.snoc ⟨nofun, hv.value rfl⟩)
    · have hother : buffer ∉ outputNames callee := by
        rw [hx.output, mem_singleton]
        exact fun heq => houtput heq.symm
      refine .pure (hnodes.snoc ⟨fun b hb => ?_, hi.value (by simp [hother]), hv.value rfl⟩)
      rcases h.1.own.buffers b hb with ⟨-, hmem, -⟩ | hb'
      · rw [mem_singleton.mp hb] at hmem
        exact absurd hmem hother
      · exact hb'
  | ifThen cond thenNodes otherwise iht iho =>
    have ht := forallList_iff.mp h.2.2.1
    have ho := forallList_iff.mp h.2.2.2
    refine (hexpr h.1.places h.1.loads).bind fun _ hc => ?_
    refine (expandNodes_closed fun m hm => iht m hm (ht m hm)).bind fun thenNodes' hthen => ?_
    refine (expandNodes_closed fun m hm => iho m hm (ho m hm)).bind fun otherwise' hother => ?_
    exact .pure (hc.nodes.snoc
      ⟨nofun, hc.value rfl, forallList_iff.mpr hthen, forallList_iff.mpr hother⟩)
  | loop var lo hi body ih =>
    have hb := forallList_iff.mp h.2.2.2
    have hplaces := forall_mem_append.mp h.1.places
    have hloads := forall_mem_append.mp h.1.loads
    refine (Yields.any _).bind fun renamed _ => ?_
    refine (hexpr hplaces.1 hloads.1).bind fun _ hlo => ?_
    refine (hexpr hplaces.2 hloads.2).bind fun _ hhi => ?_
    refine (expandNodes_closed fun m hm => ih m hm (hb m hm)).bind fun body' hbody => ?_
    exact .pure ((hlo.nodes.append hhi.nodes).snoc
      ⟨nofun, hlo.value rfl, hhi.value rfl, forallList_iff.mpr hbody⟩)
  | block body ih | region _ _ body ih =>
    have hb := forallList_iff.mp h.2
    refine (expandNodes_closed fun m hm => ih m hm (hb m hm)).bind fun body' hbody => ?_
    exact .pure (.single ⟨nofun, forallList_iff.mpr hbody⟩)
  | asyncLoad _ _ offset size _ | asyncStore _ _ offset size _ =>
    exact .pure (.single ⟨h.1.own.buffer nofun,
      h.1.own.hidden offset (by simp [hiddenNodeOperands]),
      h.1.own.hidden size (by simp [hiddenNodeOperands])⟩)
  | trap address tag =>
    exact .pure (.single ⟨nofun, h.1.own.hidden address (by simp [hiddenNodeOperands])⟩)
  | ext extension => exact .throw _
  | _ => exact .pure (.single (NodeOk.buffer (CalleeFine.toNodeFine h).own nofun))

end Callee

theorem zeroValue_closed (allowed : Ident → Prop) (type : DataType) :
    ClosedExpr allowed (zeroValue type) := by
  cases type <;> exact ⟨rfl, nofun⟩

theorem inputArgMap_fits {args : List Expr} {opId namePrefix resultName : String}
    {output : BufferDecl} (hresolved : resolver opId = some callee)
    (hargs : ∀ i a, args[i]? = some a → usesArg resolver opId i = true → ClosedExpr allowed a)
    (hlen : args.length = (inputBuffers callee).length)
    (houtput : outputBuffer opId callee = .ok output) :
    Expansion.Fits ⟨namePrefix, inputArgMap callee args, output.name, resultName⟩ allowed
      callee where
  args b hb a h := by
    obtain ⟨pair, hfind, rfl⟩ := Option.map_eq_some_iff.mp h
    have hname : pair.1 = b := by simpa using find?_some hfind
    have hmem := mem_reverse.mp (mem_of_find?_eq_some hfind)
    obtain ⟨⟨input, arg⟩, hzip, rfl⟩ := mem_map.mp hmem
    obtain ⟨i, hi⟩ := getElem?_of_mem hzip
    obtain ⟨hinput, harg⟩ := getElem?_zip_eq_some.mp hi
    refine hargs i arg harg ?_
    replace hinput : (sortedInputs callee)[i]? = some input := hinput
    replace hname : input.name = b := hname
    simp [usesArg, hresolved, hinput, hname, hb]
  inputs b := by
    rw [Expansion.inputArg, Option.isSome_map, find?_isSome]
    constructor
    · intro hb
      obtain ⟨input, hinput, rfl⟩ := mem_map.mp hb
      have hsorted : input ∈ sortedInputs callee := (mem_insertionSort _).mpr hinput
      obtain ⟨i, hi, hget⟩ := mem_iff_getElem.mp hsorted
      have hi' : i < args.length := by
        rw [sortedInputs, length_insertionSort] at hi
        omega
      refine ⟨(input.name, args[i]), mem_reverse.mpr (mem_map.mpr ⟨(input, args[i]), ?_, rfl⟩),
        by simp⟩
      exact mem_iff_getElem?.mpr ⟨i, getElem?_zip_eq_some.mpr
        ⟨List.getElem?_eq_some_iff.mpr ⟨hi, hget⟩, getElem?_eq_getElem hi'⟩⟩
    · rintro ⟨pair, hmem, hname⟩
      obtain ⟨⟨input, arg⟩, hzip, rfl⟩ := mem_map.mp (mem_reverse.mp hmem)
      rw [← show input.name = b by simpa using hname]
      exact mem_map_of_mem ((mem_insertionSort _).mp (of_mem_zip hzip).1)
  output := by
    unfold outputBuffer at houtput
    split at houtput
    · rename_i found hfilter
      cases houtput
      simp [outputNames, hfilter]
    · cases houtput
    · cases houtput

theorem expandBody_closed {x : Expansion} {inline : Expr → Inline Hoisted}
    (hx : x.Fits allowed callee)
    (hinline : InlinesClosed (boundary callee) (inputNames callee) allowed called resolver inline)
    {body : List Node}
    (h : ∀ n ∈ body, n.Forall (fun _ => True) (CalleeFine allowed called resolver callee)) :
    Yields (expandBody x inline body) fun r => ClosedNodes allowed r.1 := by
  have hnodes := expandNodes_closed fun n hn => expandNode_closed hx hinline (h n hn)
  refine Yields.of_ok fun s r s' hs => ?_
  unfold expandBody at hs
  cases hy : expandNodes x inline body ⟨s, fun _ => none, false⟩ <;> rw [hy] at hs <;> cases hs
  exact hnodes.result hy

theorem requireArgs_yields (opId : String) (expected got : Nat) :
    Yields (requireArgs opId expected got) fun _ => got = expected := by
  unfold requireArgs
  split_ifs with h
  · exact .pure h
  · exact .throw _

theorem outputBuffer_yields (opId : String) (callee : Program) :
    Yields (StateT.lift (outputBuffer opId callee) : Inline BufferDecl) fun output =>
      outputBuffer opId callee = .ok output := by
  cases h : outputBuffer opId callee with
  | error e => exact .throw e
  | ok output => exact .pure rfl

/-- The bodies of the operations that may be called. -/
def CalleesFine (allowed : Ident → Prop) (called : String → Prop) (resolver : OpResolver) : Prop :=
  ∀ opId callee, called opId → resolver opId = some callee →
    ∀ n ∈ callee.entry, n.Forall (fun _ => True) (CalleeFine allowed called resolver callee)

theorem expandCallee_closed (hcallees : CalleesFine allowed called resolver)
    (depth : Nat) : ExpandsClosed allowed called resolver (expandCallee resolver depth) := by
  induction depth with
  | zero => exact fun _ _ _ _ _ _ => .throw _
  | succ depth ih =>
    intro opId callee args hcalled hresolved hargs
    have hinline : InlinesClosed (boundary callee) (inputNames callee) allowed called resolver
        (inlineExpr resolver (expandCallee resolver depth)) :=
      fun kept e he => inlineExpr_closed ih he
    refine (Yields.any _).bind fun ctx _ => (Yields.any _).bind fun _ _ => ?_
    refine (requireArgs_yields opId _ _).bind fun _ hlen => ?_
    refine (outputBuffer_yields opId callee).bind fun output houtput => ?_
    refine (expandBody_closed (inputArgMap_fits hresolved hargs hlen houtput) hinline
      (hcallees opId callee hcalled hresolved)).bind fun _ hnodes => ?_
    refine (Yields.any _).bind fun _ _ => .pure ⟨?_, fun _ => ⟨rfl, nofun⟩⟩
    exact forall_mem_cons.mpr ⟨⟨nofun, zeroValue_closed allowed output.element⟩, hnodes⟩

/-! ## Programs -/

def calledOps (ns : List Node) : List Ident :=
  collectList (fun | .call opId _ => [opId] | _ => []) (fun _ => []) ns

def mentions (ns : List Node) : List Ident :=
  collectList (fun e => (exprBuffer e).toList) nodeBuffers ns

/-- The operations whose bodies are expanded in `p`. -/
inductive Inlined (resolver : OpResolver) (p : Program) : String → Program → Prop
  | direct {opId : String} {callee : Program} : opId ∈ visitedCalls resolver false p →
      resolver opId = some callee → Inlined resolver p opId callee
  | nested {opId opId' : String} {callee callee' : Program} : Inlined resolver p opId callee →
      opId' ∈ visitedCalls resolver true callee → resolver opId' = some callee' →
      Inlined resolver p opId' callee'

/-- A buffer of the program itself, or one that an inlined operation uses
besides those it is called through. -/
def Outside (resolver : OpResolver) (p : Program) (b : Ident) : Prop :=
  b ∈ mentions p.entry ∨ ∃ opId callee, Inlined resolver p opId callee ∧
    b ∈ mentions callee.entry ∧ b ∉ boundary callee

section Program

variable {p : Program}

def Met (resolver : OpResolver) (p : Program) (opId : String) : Prop :=
  opId ∈ visitedCalls resolver false p ∨
    ∃ opId' callee, Inlined resolver p opId' callee ∧ opId ∈ visitedCalls resolver true callee

theorem Met.inlined {opId : String} {callee : Program} (h : Met resolver p opId)
    (hresolved : resolver opId = some callee) : Inlined resolver p opId callee := by
  rcases h with h | ⟨opId', callee', hinlined, h⟩
  · exact .direct h hresolved
  · exact .nested hinlined h hresolved

theorem forall_mentions {P : Ident → Prop} {ns : List Node} :
    (∀ n ∈ ns, n.Forall (fun e => ∀ b ∈ exprBuffer e, P b) fun n => ∀ b ∈ nodeBuffers n, P b) ↔
      ∀ b ∈ mentions ns, P b := by
  rw [mentions, ← forallList_iff_collect fun n _ => forall_iff_collect,
    forallList_iff]
  simp only [Option.mem_toList, Option.mem_def]

theorem forall_calledOps {P : Ident → Prop} {ns : List Node} :
    (∀ n ∈ ns, n.Forall (fun e => ∀ opId args, e = .call opId args → P opId) fun _ => True) ↔
      ∀ opId ∈ calledOps ns, P opId := by
  rw [calledOps, ← forallList_iff_collect fun n _ => forall_iff_collect,
    forallList_iff]
  refine forall₂_congr fun n _ => ⟨fun h => h.imp ?_ (by simp), fun h => h.imp ?_ (by simp)⟩
  · intro e he
    cases e <;> simp_all
  · intro e he opId args heq
    subst heq
    exact he opId (by simp)

theorem forall_bodyPlaces {used : String → Nat → Bool} {c : Bool} {Q : Place → Prop} :
    (∀ n ∈ p.entry, n.Forall (fun _ => True) fun n =>
      ∀ pl ∈ nodePlaces used (inputNames p) (outputNames p) c n, Q pl) ↔
      ∀ pl ∈ bodyPlaces used c p, Q pl := by
  rw [bodyPlaces, ← forallList_iff_collect fun n _ => forall_iff_collect, forallList_iff]
  simp only [not_mem_nil, false_implies, implies_true]

/-- What holds of the expressions in an expression holds of those in its places. -/
theorem forall_places {P : Expr → Prop} {used : String → Nat → Bool} {c : Bool} {e : Expr}
    (h : e.Forall P) : ∀ pl ∈ places used inputs c kept e, pl.expr.Forall P := by
  induction e generalizing c kept with simp only [places, forall_mem_cons, forall_mem_append]
  | load buffer index ih =>
    refine ⟨h, ?_⟩
    split_ifs
    · simp
    · exact ih h.2
  | binOp op left right ihl ihr => exact ⟨h, ihl h.2.1, ihr h.2.2⟩
  | unOp op operand ih | cast target value ih => exact ⟨h, ih h.2⟩
  | fma a b c iha ihb ihc | select a b c iha ihb ihc =>
    exact ⟨h, ⟨iha h.2.1, ihb h.2.2.1⟩, ihc h.2.2.2⟩
  | call opId args ih =>
    refine ⟨h, ?_⟩
    have hargs := Expr.forallArgs_iff.mp h.2
    clear h
    generalize 0 = k
    induction args generalizing k with
    | nil => simp [argPlaces]
    | cons a args ihargs =>
      rw [argPlaces, forall_mem_append]
      exact ⟨ih a (by simp) (hargs a (by simp)), ihargs (fun b hb => ih b (by simp [hb]))
        (fun b hb => hargs b (by simp [hb])) _⟩
  | atomic _ _ _ _ _ _ ihi ihe ihv =>
    exact ⟨h, ⟨ihi h.2.1, forall_expectedPlaces.mpr fun e he =>
      ihe e he (Expr.forallExpected_iff.mp h.2.2.1 e he)⟩, ihv h.2.2.2⟩
  | _ => exact ⟨h, by simp⟩

theorem ClosedExpr.of_clean {e : Expr} (h : ClosedExpr (· ∉ names) e)
    (hbuffers : e.Forall fun e => ∀ b ∈ exprBuffer e, b ∉ names → allowed b) :
    ClosedExpr allowed e :=
  (Expr.Forall.and h hbuffers).imp fun _ he =>
    ⟨he.1.noCall, fun b hb => he.2 b hb (he.1.buffers b hb)⟩

theorem PlaceOk.of_clean {pl : Place} (h : PlaceOk names inputs (· ∉ names) (fun _ => True) pl)
    (hbuffers : pl.expr.Forall fun e => ∀ b ∈ exprBuffer e, b ∉ names → allowed b)
    (hcall : ∀ opId ∈ placeCall pl, called opId) : PlaceOk names inputs allowed called pl := by
  obtain ⟨c, kept, e⟩ := pl
  cases e with
  | load b index => exact fun hnot hk => hbuffers.1 b rfl (h hnot hk)
  | bufLen b => exact fun hnot hk => hbuffers b rfl (h hnot hk)
  | atomic _ b _ _ _ _ => exact fun hk => hbuffers.1 b rfl (h hk)
  | call opId args => exact hcall opId rfl
  | subgroupBallot cond | subgroupAdd value =>
    refine fun hc hk hidden hmem => (h hc hk hidden hmem).of_clean ?_
    exact (mem_singleton.mp hmem) ▸ hbuffers.2
  | subgroupShuffle value lane =>
    refine fun hc hk hidden hmem => (h hc hk hidden hmem).of_clean ?_
    rcases mem_pair.mp hmem with rfl | rfl
    · exact hbuffers.2.1
    · exact hbuffers.2.2
  | _ => exact fun _ _ _ hmem => nomatch hmem

theorem Node.Forall.nested {P : Expr → Prop} {Q : Node → Prop} {n : Node} (h : n.Forall P Q) :
    n.Forall (fun _ => True) fun m => m.Forall P Q := by
  have hexpr : ∀ e : Expr, e.Forall fun _ => True := Expr.forall_of_all fun _ => trivial
  induction n with
  | ifThen cond thenNodes otherwise iht iho =>
    exact ⟨h, hexpr _, forallList_iff.mpr fun m hm => iht m hm (forallList_iff.mp h.2.2.1 m hm),
      forallList_iff.mpr fun m hm => iho m hm (forallList_iff.mp h.2.2.2 m hm)⟩
  | loop var lo hi body ih =>
    exact ⟨h, hexpr _, hexpr _,
      forallList_iff.mpr fun m hm => ih m hm (forallList_iff.mp h.2.2.2 m hm)⟩
  | block body ih | region _ _ body ih =>
    exact ⟨h, forallList_iff.mpr fun m hm => ih m hm (forallList_iff.mp h.2 m hm)⟩
  | letBind | assign | trap => exact ⟨h, hexpr _⟩
  | store | asyncLoad | asyncStore => exact ⟨h, hexpr _, hexpr _⟩
  | _ => exact h

theorem forall_nodePlaces {P : Expr → Prop} {Q : Node → Prop} {used : String → Nat → Bool}
    {c : Bool} {n : Node} (h : n.Forall P Q) :
    ∀ pl ∈ nodePlaces used inputs outputs c n, pl.expr.Forall P := by
  cases n with
  | letBind | assign | ifThen => exact forall_places (by first | exact h.2 | exact h.2.1)
  | store | loop =>
    exact forall_mem_append.mpr
      ⟨forall_places h.2.1, forall_places (by first | exact h.2.2 | exact h.2.2.1)⟩
  | _ => simp [nodePlaces]

theorem NodeOk.of_clean {c : Bool} {n : Node} (h : NodeOk outputs (· ∉ names) c n)
    (hbuffers : n.Forall (fun e => ∀ b ∈ exprBuffer e, b ∉ names → allowed b)
      fun n => ∀ b ∈ nodeBuffers n, b ∉ names → allowed b) : NodeOk outputs allowed c n := by
  refine ⟨fun b hb => (h.buffers b hb).imp_right fun hnot => ?_, fun hidden hmem =>
    (h.hidden hidden hmem).of_clean ?_⟩
  · have hown : ∀ b ∈ nodeBuffers n, b ∉ names → allowed b := by
      cases n <;> first | exact hbuffers.1 | exact hbuffers
    exact hown b hb hnot
  · cases n with
    | asyncLoad _ _ _ _ | asyncStore _ _ _ _ =>
      rcases mem_pair.mp hmem with rfl | rfl
      · exact hbuffers.2.1
      · exact hbuffers.2.2
    | trap address => exact (mem_singleton.mp hmem) ▸ hbuffers.2
    | _ => cases hmem

/-- What is clean is closed, with the names and calls that there are. -/
theorem nodeFine_of_clean {c : Bool} (h : Clean resolver c p)
    (hbuffers : ∀ b ∈ mentions p.entry, b ∉ ownNames c p → allowed b)
    (hcalls : ∀ opId ∈ visitedCalls resolver c p, called opId) : ∀ n ∈ p.entry,
    n.Forall (fun _ => True) (NodeFine (ownNames c p) (inputNames p) (outputNames p) allowed called
      resolver c) := by
  intro n hn
  have hplaces : n.Forall (fun _ => True) fun n =>
      ∀ pl ∈ nodePlaces (usesArg resolver) (inputNames p) (outputNames p) c n,
        PlaceOk (ownNames c p) (inputNames p) (· ∉ ownNames c p) (fun _ => True) pl ∧
          ∀ opId ∈ placeCall pl, called opId :=
    forall_bodyPlaces.mpr (fun pl hpl => ⟨h.places pl hpl, fun opId hop =>
      hcalls opId (mem_filterMap.mpr ⟨pl, hpl, hop⟩)⟩) n hn
  have hnested := Node.Forall.nested (forall_mentions.mpr hbuffers n hn)
  refine (Node.Forall.and hplaces (Node.Forall.and hnested (h.nodes n hn))).imp
    (fun _ _ => trivial) fun m hm => ⟨fun pl hpl => ?_, hm.2.2.of_clean hm.2.1⟩
  obtain ⟨hok, hcall⟩ := hm.1 pl hpl
  exact hok.of_clean (forall_nodePlaces hm.2.1 pl hpl) hcall

theorem calleesFine_of_clean
    (h : ∀ opId callee, Inlined resolver p opId callee → Clean resolver true callee) :
    CalleesFine (Outside resolver p) (Met resolver p) resolver := by
  intro opId callee hmet hresolved n hn
  have hinlined := hmet.inlined hresolved
  have hnames : ∀ b ∈ mentions callee.entry, b ∉ ownNames true callee → Outside resolver p b :=
    fun b hb houter => .inr ⟨opId, callee, hinlined, hb, houter⟩
  have hcalls : ∀ op ∈ visitedCalls resolver true callee, Met resolver p op :=
    fun op hop => .inr ⟨opId, callee, hinlined, hop⟩
  have hfine := nodeFine_of_clean (h opId callee hinlined) hnames hcalls n hn
  have hloads := (@forall_bodyPlaces callee (fun _ _ => false) true
    fun pl => ∀ b ∈ keptLoad pl, b ∈ keptLoads callee).mpr
    (fun pl hpl b hb => mem_filterMap.mpr ⟨pl, hpl, hb⟩) n hn
  exact (Node.Forall.and hfine hloads).imp (fun _ _ => trivial) fun m hm => ⟨hm.1, hm.2⟩

theorem wrapEntry_closed {entry : List Node} (h : ClosedNodes allowed entry) :
    ClosedNodes allowed (wrapEntry entry) := by
  unfold wrapEntry
  split
  · exact .single ⟨nofun, forallList_iff.mpr h⟩
  · exact h

end Program

/-- What inlining returns has no call, and names no buffer that an inlined
operation is called through, when nothing that the walkers keep is a call they do
not look at or names such a buffer in a way they do not rewrite. -/
theorem inlineCalls_closed (resolver : OpResolver) (depth : Nat) (p q : Program)
    (hp : Clean resolver false p)
    (hcallees : ∀ opId callee, Inlined resolver p opId callee → Clean resolver true callee)
    (h : inlineCallsWithResolver resolver depth p = .ok q) :
    calledOps q.entry = [] ∧ ∀ b ∈ mentions q.entry, Outside resolver p b := by
  have hexpand := expandCallee_closed (calleesFine_of_clean hcallees) depth
  have hnames : ∀ b ∈ mentions p.entry, b ∉ ownNames false p → Outside resolver p b :=
    fun b hb _ => .inl hb
  have hcalls : ∀ op ∈ visitedCalls resolver false p, Met resolver p op := fun _ => .inl
  have hfine := nodeFine_of_clean hp hnames hcalls
  have hnodes := inlineNodes_closed fun n hn => inlineNode_closed hexpand (hfine n hn)
  unfold inlineCallsWithResolver at h
  cases hrun : inlineNodes resolver (expandCallee resolver depth) p.entry ⟨[], 0⟩ <;>
    rw [hrun] at h <;> cases h
  have hclosed := wrapEntry_closed (hnodes.result hrun)
  constructor
  · refine eq_nil_iff_forall_not_mem.mpr (forall_calledOps.mp fun n hn => ?_)
    refine (hclosed n hn).imp (fun e he opId args heq => ?_) fun _ _ => trivial
    subst heq
    exact Bool.noConfusion he.noCall
  · refine forall_mentions.mp fun n hn => ?_
    exact (hclosed n hn).imp (fun e he => he.buffers) fun m hm => hm

/-- An operation with the input `input` and one word of output. -/
def operation (input : Ident) (body : List Node) : Program :=
  .wrapped [.storage input 0 .readOnly .u32,
    { BufferDecl.readWrite "result" 1 .u32 with isOutput := true }] (1, 1, 1) body

/-- Adds 1. What it reads for its indices is dropped. -/
def addOne : Program :=
  operation "x"
    [.store "result" (.load "result" (.litU32 0))
      (.binOp .add (.load "x" (.load "result" (.litU32 0))) (.litU32 1))]

/-- Adds 2 by a call whose argument is a variable. -/
def addTwo : Program :=
  operation "y"
    [.letBind "t" (.load "y" (.litU32 0)),
      .store "result" (.litU32 0) (.binOp .add (.call "add_one" [.var "t"]) (.litU32 1))]

def addTwoDirect : Program :=
  operation "y"
    [.store "result" (.litU32 0)
      (.binOp .add (.call "add_one" [.load "y" (.litU32 0)]) (.litU32 1))]

def arithmetic : OpResolver
  | "add_one" => some addOne
  | "add_two" => some addTwo
  | "add_two_direct" => some addTwoDirect
  | _ => none

def computing (nodes : List Node) : Program :=
  .wrapped [{ BufferDecl.readWrite "out" 0 .u32 with isOutput := true }] (1, 1, 1) nodes

def nestedCalls : Program :=
  computing [.store "out" (.litU32 0) (.call "add_one" [.call "add_two" [.litU32 5]])]

theorem inlined_nestedCalls {opId : String} (h : Inlined arithmetic nestedCalls opId callee) :
    callee = addOne ∨ callee = addTwo := by
  have hcalled : ∀ opId ∈ ["add_one", "add_two"], ∀ callee, arithmetic opId = some callee →
      callee = addOne ∨ callee = addTwo := by
    simp [arithmetic, eq_comm]
  induction h with
  | direct hop hresolved => exact hcalled _ hop _ hresolved
  | nested _ hop hresolved ih =>
    rcases ih with rfl | rfl
    · cases hop
    · exact hcalled _ (mem_cons.mpr (.inl (mem_singleton.mp hop))) _ hresolved

-- The places of a body, spelled out.
attribute [local simp] clean_iff bodyPlaces collectList Node.collect Expr.collect Expr.collectArgs
  nodePlaces places argPlaces PlaceOk nodeOk_iff Node.Forall Expr.Forall nodeBuffers
  hiddenNodeOperands hiddenOperands

theorem clean_addOne : Clean arithmetic true addOne := by
  have hnames : ownNames true addOne = ["x", "result"] := by decide
  have hinputs : inputNames addOne = ["x"] := by decide
  have houtputs : outputNames addOne = ["result"] := by decide
  have hentry : addOne.entry = [.region rootRegionGenerator none
    [.store "result" (.load "result" (.litU32 0))
      (.binOp .add (.load "x" (.load "result" (.litU32 0))) (.litU32 1))]] := rfl
  simp [hnames, hinputs, houtputs, hentry]

theorem clean_addTwo : Clean arithmetic true addTwo := by
  have hnames : ownNames true addTwo = ["y", "result"] := by decide
  have hinputs : inputNames addTwo = ["y"] := by decide
  have houtputs : outputNames addTwo = ["result"] := by decide
  have hentry : addTwo.entry = [.region rootRegionGenerator none
    [.letBind "t" (.load "y" (.litU32 0)),
      .store "result" (.litU32 0) (.binOp .add (.call "add_one" [.var "t"]) (.litU32 1))]] := rfl
  simp [hnames, hinputs, houtputs, hentry]

theorem inlineCalls_closed_nested :
    ∃ q, inlineCallsWithResolver arithmetic 4 nestedCalls = .ok q ∧ calledOps q.entry = [] ∧
      ∀ b ∈ mentions q.entry, Outside arithmetic nestedCalls b := by
  cases hrun : inlineCallsWithResolver arithmetic 4 nestedCalls with
  | error e =>
    have hok : (inlineCallsWithResolver arithmetic 4 nestedCalls).isOk = true := by decide +kernel
    rw [hrun] at hok
    cases hok
  | ok q =>
    refine ⟨q, rfl, inlineCalls_closed arithmetic 4 nestedCalls q ?_ ?_ hrun⟩
    · have hentry : nestedCalls.entry = [.region rootRegionGenerator none
        [.store "out" (.litU32 0) (.call "add_one" [.call "add_two" [.litU32 5]])]] := rfl
      simp [ownNames, hentry]
    · intro opId callee h
      rcases inlined_nestedCalls h with rfl | rfl
      · exact clean_addOne
      · exact clean_addTwo

/-- A call in the address of a trap stays, and the argument of a nested call
still reads the input of the operation that makes it. -/
theorem inlining_leaves_call_and_input :
    ((inlineCallsWithResolver arithmetic 4
        (computing [.trap (.call "add_one" [.litU32 5]) "t"])).toOption.map
      fun q => calledOps q.entry) = some ["add_one"] ∧
    ((inlineCallsWithResolver arithmetic 4
        (computing [.store "out" (.litU32 0) (.call "add_two_direct" [.litU32 5])])).toOption.map
      fun q => mentions q.entry) = some ["y", "out"] ∧
    boundary addTwoDirect = ["y", "result"] := by
  refine ⟨?_, ?_, ?_⟩
  · decide
  · decide +kernel
  · decide

end Vyre.Transform
