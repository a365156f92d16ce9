import Vyre.Validate.Traversal

/-!
# What an accepted program has passed

The walk edits one scope in place and undoes its edits from a log. Read as data
flow it is simpler: `flow` is the scope after a statement, `Checked` says that
each statement passed its rules in the scope that reaches it. The walk of an
accepted program is that flow (`walkNodes_accepted`).
-/

namespace Vyre.Validate

open List

/-- The scope after a body: what the body bound is gone, what it did to outer
bindings stays. -/
def exitScope (outer inner : Scope) : Scope :=
  fun name => if (outer name).isSome then inner name else none

def loopBinding (uniform : Bool) : Binding := ⟨.u32, false, uniform⟩

def boundBy : Node → List Ident
  | .letBind name _ => [name]
  | _ => []

def boundByAll : List Node → List Ident
  | [] => []
  | n :: ns => boundByAll ns ++ boundBy n

/-- The divergence of the branches of an `If`. -/
def branchDivergence (divergent : Bool) (scope : Scope) (cond : Expr) : Bool :=
  divergent || !isUniform scope cond

def uniformBounds (scope : Scope) (lo hi : Expr) : Bool := isUniform scope lo && isUniform scope hi

def loopScope (divergent : Bool) (scope : Scope) (var : Ident) (lo hi : Expr) : Scope :=
  setBinding scope var (some (loopBinding (uniformBounds scope lo hi && !divergent)))

section Flow

variable (buffers : Buffers)

mutual

def flow (divergent : Bool) (scope : Scope) : Node → Scope
  | .letBind name value => setBinding scope name (some (letBinding buffers scope value))
  | .assign name value => assignScope scope name value
  | .ifThen cond thenNodes otherwise =>
      let inner := branchDivergence divergent scope cond
      let scope := exitScope scope (flowAll inner scope thenNodes)
      exitScope scope (flowAll inner scope otherwise)
  | .loop var lo hi body =>
      exitScope scope (flowAll (divergent || !uniformBounds scope lo hi)
        (loopScope divergent scope var lo hi) body)
  | .block body | .region _ _ body => exitScope scope (flowAll divergent scope body)
  | _ => scope

def flowAll (divergent : Bool) (scope : Scope) : List Node → Scope
  | [] => scope
  | n :: ns => flowAll divergent (flow divergent scope n) ns

end

/-- The alias sets after a statement; those of nested bodies are dropped with
their frame. -/
def aliasAfter (seen : NodeAccesses) (n : Node) : NodeAccesses :=
  match n with
  | .barrier _ => .none
  | n => .union (nodeAccesses n) seen

mutual

/-- `Q` holds of the statement and of the statements inside it, each with the
divergence, the scope and the alias sets that reach it. -/
def Checked (Q : Bool → Scope → NodeAccesses → Node → Prop) (divergent : Bool) (scope : Scope)
    (seen : NodeAccesses) : Node → Prop
  | .ifThen cond thenNodes otherwise =>
      Q divergent scope seen (.ifThen cond thenNodes otherwise) ∧
      CheckedAll Q (branchDivergence divergent scope cond) scope .none thenNodes ∧
      CheckedAll Q (branchDivergence divergent scope cond)
        (exitScope scope (flowAll buffers (branchDivergence divergent scope cond) scope thenNodes))
        .none otherwise
  | .loop var lo hi body =>
      Q divergent scope seen (.loop var lo hi body) ∧
      CheckedAll Q (divergent || !uniformBounds scope lo hi)
        (loopScope divergent scope var lo hi) .none body
  | .block body => Q divergent scope seen (.block body) ∧ CheckedAll Q divergent scope .none body
  | .region generator sourceRegion body =>
      Q divergent scope seen (.region generator sourceRegion body) ∧
      CheckedAll Q divergent scope .none body
  | n => Q divergent scope seen n

def CheckedAll (Q : Bool → Scope → NodeAccesses → Node → Prop) (divergent : Bool) (scope : Scope)
    (seen : NodeAccesses) : List Node → Prop
  | [] => True
  | n :: ns => Checked Q divergent scope seen n ∧
      CheckedAll Q divergent (flow buffers divergent scope n) (aliasAfter seen n) ns

end

end Flow

@[simp] theorem isSome_setBinding (scope : Scope) (name key : Ident) (binding : Binding) :
    (setBinding scope name (some binding) key).isSome =
      (decide (key = name) || (scope key).isSome) := by
  unfold setBinding
  by_cases h : key = name <;> simp [h]

@[simp] theorem isSome_assignScope (scope : Scope) (name key : Ident) (value : Expr) :
    (assignScope scope name value key).isSome = (scope key).isSome := by
  unfold assignScope
  cases h : scope name with
  | none => rfl
  | some binding =>
    by_cases hk : key = name <;> simp [hk, h]

@[simp] theorem isSome_exitScope (outer inner : Scope) (key : Ident) :
    (exitScope outer inner key).isSome = ((outer key).isSome && (inner key).isSome) := by
  unfold exitScope
  by_cases h : (outer key).isSome <;> simp [h]

theorem isSome_flowAll_of (buffers : Buffers) (ns : List Node)
    (ih : ∀ n ∈ ns, ∀ divergent scope key, (flow buffers divergent scope n key).isSome =
      ((scope key).isSome || decide (key ∈ boundBy n)))
    (divergent : Bool) (scope : Scope) (key : Ident) :
    (flowAll buffers divergent scope ns key).isSome =
      ((scope key).isSome || decide (key ∈ boundByAll ns)) := by
  induction ns generalizing scope with
  | nil => simp [flowAll, boundByAll]
  | cons n ns ihs =>
    rw [flowAll, ihs fun m hm => ih m (mem_cons_of_mem n hm), ih n (by simp), boundByAll]
    simp only [mem_append, Bool.decide_or, Bool.or_assoc,
      Bool.or_comm (decide (key ∈ boundBy n))]

theorem isSome_flow (buffers : Buffers) (n : Node) (divergent : Bool) (scope : Scope)
    (key : Ident) :
    (flow buffers divergent scope n key).isSome =
      ((scope key).isSome || decide (key ∈ boundBy n)) := by
  induction n generalizing divergent scope key with
  | letBind name value => simp [flow, boundBy, Bool.or_comm]
  | ifThen cond thenNodes otherwise iht iho =>
    simp only [flow, isSome_exitScope, isSome_flowAll_of buffers _ iht,
      isSome_flowAll_of buffers _ iho, boundBy]
    cases (scope key).isSome <;> simp
  | loop var lo hi body ih =>
    simp only [flow, isSome_exitScope, isSome_flowAll_of buffers _ ih, loopScope,
      isSome_setBinding, boundBy]
    cases (scope key).isSome <;> simp
  | block body ih | region _ _ body ih =>
    simp only [flow, isSome_exitScope, isSome_flowAll_of buffers _ ih, boundBy]
    cases (scope key).isSome <;> simp
  | _ => simp [flow, boundBy]

theorem isSome_flowAll (buffers : Buffers) (ns : List Node) (divergent : Bool) (scope : Scope)
    (key : Ident) :
    (flowAll buffers divergent scope ns key).isSome =
      ((scope key).isSome || decide (key ∈ boundByAll ns)) :=
  isSome_flowAll_of buffers ns (fun n _ => isSome_flow buffers n) divergent scope key

theorem restoreScope_eq_exitScope (outer inner : Scope) (names : List Ident)
    (hfresh : ∀ name ∈ names, outer name = none)
    (hdom : ∀ key, (inner key).isSome = ((outer key).isSome || decide (key ∈ names))) :
    restoreScope inner (names.map fun name => (name, none)) = exitScope outer inner := by
  have hrestore : ∀ (names : List Ident) (scope : Scope) key,
      restoreScope scope (names.map fun name => (name, none)) key
        = if key ∈ names then none else scope key := by
    intro names
    induction names with
    | nil => intro scope key; simp [restoreScope]
    | cons name names ih =>
      intro scope key
      rw [map_cons, restoreScope, ih]
      by_cases hk : key = name <;> simp [hk, setBinding]
  funext key
  rw [hrestore, exitScope]
  by_cases hk : key ∈ names
  · simp [hk, hfresh key hk]
  · have := hdom key
    cases ho : outer key with
    | none => simpa [ho, hk] using this
    | some b => simp [hk]

section Errors

variable {options : Options} {buffers : Buffers}

theorem prefix_nil_errors {before after : List String} (h : before <+: after) (hnil : after = []) :
    before = [] := by
  rw [hnil] at h
  exact prefix_nil.mp h

variable (st : Validator)

theorem popScope_errors : st.errors <+: st.popScope.errors := by
  unfold Validator.popScope
  cases st.scopeStack <;> exact prefix_append _ _

theorem popAlias_errors : st.errors <+: st.popAlias.errors := by
  unfold Validator.popAlias
  cases st.aliasStack with
  | nil => exact prefix_append _ _
  | cons => exact prefix_rfl

theorem leave_errors : st.errors <+: st.leave.errors :=
  (popAlias_errors st).trans (popScope_errors st.popAlias)

@[simp] theorem extendPending_errors : st.extendPending.errors = st.errors := by
  unfold Validator.extendPending
  cases st.pendingAliasExtensions <;> rfl

@[simp] theorem nodeEffect_errors (n : Node) :
    (nodeEffect buffers st n).errors = st.errors := by
  cases n with
  | letBind name value =>
    unfold nodeEffect
    cases st.scopeStack <;> rfl
  | _ => rfl

theorem visitNode_errors (n : Node) :
    (visitNode options buffers st n).errors = st.errors ++ nodeErrors options buffers st n := by
  show (nodeEffect buffers st n).errors ++ _ = _
  rw [nodeEffect_errors]

theorem visitNode_grows (n : Node) :
    st.errors <+: (visitNode options buffers st n).errors := by
  rw [visitNode_errors]
  exact prefix_append _ _

theorem walkNodes_errors_of (ns : List Node)
    (ih : ∀ n ∈ ns, ∀ st : Validator, st.errors <+: (walkNode options buffers st n).errors)
    (st : Validator) : st.errors <+: (walkNodes options buffers st ns).errors := by
  induction ns generalizing st with
  | nil => exact prefix_rfl
  | cons n ns ihs =>
    exact (ih n (by simp) st).trans (ihs (fun m hm => ih m (mem_cons_of_mem n hm)) _)

/-- A body between `enter` and `leave` keeps what has been reported. -/
theorem nested_errors_of (ns : List Node)
    (ih : ∀ n ∈ ns, ∀ st : Validator, st.errors <+: (walkNode options buffers st n).errors)
    (st : Validator) (divergent : Bool) (depth : Nat) :
    st.errors <+: (walkNodes options buffers (st.enter divergent depth ns) ns).leave.errors :=
  (walkNodes_errors_of ns ih (st.enter divergent depth ns)).trans (leave_errors _)

theorem walkNode_errors (n : Node) (st : Validator) :
    st.errors <+: (walkNode options buffers st n).errors := by
  induction n generalizing st with
  | ifThen cond thenNodes otherwise iht iho =>
    rw [walkNode, extendPending_errors]
    exact (visitNode_grows st _).trans
      ((nested_errors_of _ iht _ _ _).trans
        (nested_errors_of _ iho _ _ _))
  | loop var lo hi body ih =>
    rw [walkNode, extendPending_errors]
    refine List.IsPrefix.trans ?_ ((walkNodes_errors_of _ ih _).trans (leave_errors _))
    exact visitNode_grows st (.loop var lo hi body)
  | block body ih | region _ _ body ih =>
    exact (visitNode_grows st _).trans
      (nested_errors_of _ ih _ _ _)
  | _ => exact visitNode_grows st _

end Errors

/-! ## The walk of an accepted program -/

section Accepted

variable (options : Options) (buffers : Buffers)

/-- A state of the walk with this divergence, scope and alias sets reports
nothing about the statement. -/
def Accepts (divergent : Bool) (scope : Scope) (seen : NodeAccesses) (n : Node) : Prop :=
  ∃ st : Validator, st.scopeStack ≠ [] ∧ st.currentDivergent = divergent ∧ st.scope = scope ∧
    (⟨st.aliasReads, st.aliasAtomics⟩ : NodeAccesses) = seen ∧ nodeErrors options buffers st n = []

/-- The state `st'` is `st` with the given scope and alias sets, and with `names`
bound in the frame on top. -/
structure Walked (st st' : Validator) (scope : Scope) (names : List Ident) (seen : NodeAccesses) :
    Prop where
  scope_eq : st'.scope = scope
  alias_eq : (⟨st'.aliasReads, st'.aliasAtomics⟩ : NodeAccesses) = seen
  aliasStack_eq : st'.aliasStack = st.aliasStack
  pending_eq : st'.pendingAliasExtensions = st.pendingAliasExtensions
  stack_eq : ∀ frame frames, st.scopeStack = frame :: frames → ∃ bindings,
    st'.scopeStack = { frame with
      scopeLog := names.map (fun name => (name, none)) ++ frame.scopeLog
      regionBindings := bindings } :: frames

variable {options buffers} {scope : Scope} {seen : NodeAccesses} {st st' : Validator}
  {names : List Ident}

theorem Accepts.letBind_fresh {divergent : Bool} {name : Ident} {value : Expr}
    (hshadow : options.allowShadowing = false)
    (h : Accepts options buffers divergent scope seen (.letBind name value)) :
    scope name = none := by
  obtain ⟨st, hstack, -, rfl, -, herr⟩ := h
  simp only [nodeErrors, nodeRules, append_eq_nil_iff] at herr
  obtain ⟨⟨-, -, hname⟩, -⟩ := herr
  cases hs : st.scopeStack with
  | nil => exact absurd hs hstack
  | cons frame frames =>
    simp only [checkLetName, hs] at hname
    split at hname
    · cases hname
    · simpa [checkLocal, hshadow] using hname

theorem Accepts.loop_fresh {divergent : Bool} {var : Ident} {lo hi : Expr} {body : List Node}
    (hshadow : options.allowShadowing = false)
    (h : Accepts options buffers divergent scope seen (.loop var lo hi body)) :
    scope var = none := by
  obtain ⟨st, -, -, rfl, -, herr⟩ := h
  simp only [nodeErrors, nodeRules, append_eq_nil_iff] at herr
  obtain ⟨⟨-, -, hname⟩, -⟩ := herr
  simpa [checkLocal, hshadow] using hname

theorem accepts_of_visit {n : Node} (hstack : st.scopeStack ≠ [])
    (h : (visitNode options buffers st n).errors = []) :
    Accepts options buffers st.currentDivergent st.scope ⟨st.aliasReads, st.aliasAtomics⟩ n := by
  rw [visitNode_errors, append_eq_nil_iff] at h
  exact ⟨st, hstack, rfl, rfl, rfl, h.2⟩

variable (options buffers) in
def NodeAccepted (n : Node) : Prop :=
  ∀ st : Validator, st.scopeStack ≠ [] → (walkNode options buffers st n).errors = [] →
    Checked buffers (Accepts options buffers) st.currentDivergent st.scope
      ⟨st.aliasReads, st.aliasAtomics⟩ n ∧
    Walked st (walkNode options buffers st n) (flow buffers st.currentDivergent st.scope n)
      (boundBy n) (aliasAfter ⟨st.aliasReads, st.aliasAtomics⟩ n)

theorem Walked.ne_nil (h : Walked st st' scope names seen) (hst : st.scopeStack ≠ []) :
    st'.scopeStack ≠ [] := by
  obtain ⟨frame, frames, hs⟩ := exists_cons_of_ne_nil hst
  obtain ⟨bindings, hs'⟩ := h.stack_eq frame frames hs
  simp [hs']

theorem Walked.divergent (h : Walked st st' scope names seen) (hst : st.scopeStack ≠ []) :
    st'.currentDivergent = st.currentDivergent := by
  obtain ⟨frame, frames, hs⟩ := exists_cons_of_ne_nil hst
  obtain ⟨bindings, hs'⟩ := h.stack_eq frame frames hs
  simp [Validator.currentDivergent, hs, hs']

theorem Walked.trans {st₁ st₂ : Validator} {scope₁ scope₂ : Scope} {names₁ names₂ : List Ident}
    {seen₁ seen₂ : NodeAccesses} (h₁ : Walked st st₁ scope₁ names₁ seen₁)
    (h₂ : Walked st₁ st₂ scope₂ names₂ seen₂) : Walked st st₂ scope₂ (names₂ ++ names₁) seen₂ where
  scope_eq := h₂.scope_eq
  alias_eq := h₂.alias_eq
  aliasStack_eq := h₂.aliasStack_eq.trans h₁.aliasStack_eq
  pending_eq := h₂.pending_eq.trans h₁.pending_eq
  stack_eq := by
    intro frame frames hs
    obtain ⟨bindings₁, hs₁⟩ := h₁.stack_eq frame frames hs
    obtain ⟨bindings₂, hs₂⟩ := h₂.stack_eq _ frames hs₁
    exact ⟨bindings₂, by simp [hs₂]⟩

theorem walkNodes_accepted_of (ns : List Node) (ih : ∀ n ∈ ns, NodeAccepted options buffers n)
    (st : Validator) (hst : st.scopeStack ≠ [])
    (herr : (walkNodes options buffers st ns).errors = []) :
    CheckedAll buffers (Accepts options buffers) st.currentDivergent st.scope
      ⟨st.aliasReads, st.aliasAtomics⟩ ns ∧
    Walked st (walkNodes options buffers st ns) (flowAll buffers st.currentDivergent st.scope ns)
      (boundByAll ns) (ns.foldl aliasAfter ⟨st.aliasReads, st.aliasAtomics⟩) := by
  induction ns generalizing st with
  | nil =>
    refine ⟨trivial, rfl, rfl, rfl, rfl, ?_⟩
    intro frame frames hs
    exact ⟨frame.regionBindings, hs⟩
  | cons n ns ihs =>
    have hn : (walkNode options buffers st n).errors = [] :=
      prefix_nil_errors (walkNodes_errors_of ns
        (fun m _ => walkNode_errors m) _) herr
    obtain ⟨hcheck, hwalk⟩ := ih n (by simp) st hst hn
    obtain ⟨hchecks, hwalks⟩ := ihs (fun m hm => ih m (mem_cons_of_mem n hm)) _
      (hwalk.ne_nil hst) herr
    rw [hwalk.scope_eq, hwalk.alias_eq, hwalk.divergent hst] at hchecks hwalks
    exact ⟨⟨hcheck, hchecks⟩, hwalk.trans hwalks⟩

theorem fresh_of_checkedAll (hshadow : options.allowShadowing = false) (ns : List Node)
    {divergent : Bool} (h : CheckedAll buffers (Accepts options buffers) divergent scope seen ns) :
    ∀ name ∈ boundByAll ns, scope name = none := by
  induction ns generalizing scope seen with
  | nil => simp [boundByAll]
  | cons n ns ih =>
    obtain ⟨hn, hns⟩ := h
    intro name hname
    rcases mem_append.mp hname with hname | hname
    · have hflow := ih hns name hname
      have := isSome_flow buffers n divergent scope name
      rw [hflow] at this
      simpa using (Bool.or_eq_false_iff.mp this.symm).1
    · cases n with
      | letBind bound value =>
        rw [boundBy, mem_singleton] at hname
        rw [hname]
        exact hn.letBind_fresh hshadow
      | _ => cases hname

/-- Leaving a body restores everything but the scope, and the scope up to what
the body did to outer bindings. `bound` is in the frame before the body. -/
theorem Walked.leave {entered : Validator}
    (hwalk : Walked entered st' scope names seen) (st : Validator)
    (bound : List Ident) {divergent : Bool} {depth : Nat} {ns : List Node}
    (hstack : entered.scopeStack =
      ⟨bound.map fun name => (name, none), [], divergent, depth, ns⟩ :: st.scopeStack)
    (halias : entered.aliasStack = (st.aliasReads, st.aliasAtomics) :: st.aliasStack)
    (hpending : entered.pendingAliasExtensions = st.pendingAliasExtensions)
    (hfresh : ∀ name ∈ names ++ bound, st.scope name = none)
    (hdom : ∀ key, (scope key).isSome = ((st.scope key).isSome || decide (key ∈ names ++ bound))) :
    Walked st st'.leave (exitScope st.scope scope) [] ⟨st.aliasReads, st.aliasAtomics⟩ := by
  obtain ⟨bindings, hs⟩ := hwalk.stack_eq _ _ hstack
  have ha := hwalk.aliasStack_eq.trans halias
  have hleave : st'.leave = { st' with
      scope := exitScope st.scope scope
      scopeStack := st.scopeStack
      aliasStack := st.aliasStack
      aliasReads := st.aliasReads
      aliasAtomics := st.aliasAtomics
      errors := st'.errors ++ returnPosition ns } := by
    have hrestore := restoreScope_eq_exitScope st.scope scope (names ++ bound) hfresh hdom
    rw [map_append] at hrestore
    rw [← hrestore, ← hwalk.scope_eq]
    unfold Validator.leave Validator.popAlias
    rw [ha]
    simp only [Validator.popScope, hs, Validator.report]
  rw [hleave]
  refine ⟨rfl, rfl, rfl, hwalk.pending_eq.trans hpending, ?_⟩
  intro frame frames hf
  exact ⟨frame.regionBindings, hf⟩

/-- A body between `enter` and `leave`. -/
theorem nested_accepted_of (hshadow : options.allowShadowing = false) (ns : List Node)
    (ih : ∀ n ∈ ns, NodeAccepted options buffers n) (st : Validator) (divergent : Bool)
    (depth : Nat)
    (herr : (walkNodes options buffers (st.enter divergent depth ns) ns).leave.errors = []) :
    CheckedAll buffers (Accepts options buffers) divergent st.scope .none ns ∧
    Walked st (walkNodes options buffers (st.enter divergent depth ns) ns).leave
      (exitScope st.scope (flowAll buffers divergent st.scope ns)) []
      ⟨st.aliasReads, st.aliasAtomics⟩ := by
  obtain ⟨hcheck, hwalk⟩ := walkNodes_accepted_of ns ih
    (st.enter divergent depth ns) (cons_ne_nil _ _) (prefix_nil_errors (leave_errors _) herr)
  refine ⟨hcheck, hwalk.leave st [] rfl rfl rfl ?_ ?_⟩
  · rw [append_nil]
    exact fresh_of_checkedAll hshadow ns hcheck
  · rw [append_nil]
    exact isSome_flowAll buffers ns divergent st.scope

theorem loopBody_accepted_of (hshadow : options.allowShadowing = false) (ns : List Node)
    (ih : ∀ n ∈ ns, NodeAccepted options buffers n) (st : Validator) (divergent : Bool)
    (depth : Nat) (var : Ident) (uniform : Bool) (hfresh : st.scope var = none)
    (herr : (walkNodes options buffers
      ((st.enter divergent depth ns).insertLoopVar var uniform) ns).leave.errors = []) :
    CheckedAll buffers (Accepts options buffers) divergent
      (setBinding st.scope var (some (loopBinding uniform))) .none ns ∧
    Walked st (walkNodes options buffers
        ((st.enter divergent depth ns).insertLoopVar var uniform) ns).leave
      (exitScope st.scope
        (flowAll buffers divergent (setBinding st.scope var (some (loopBinding uniform))) ns)) []
      ⟨st.aliasReads, st.aliasAtomics⟩ := by
  have hstack : ((st.enter divergent depth ns).insertLoopVar var uniform).scopeStack =
      ⟨[var].map fun name => (name, none), [], divergent, depth, ns⟩ :: st.scopeStack := by
    rw [← hfresh]
    rfl
  obtain ⟨hcheck, hwalk⟩ := walkNodes_accepted_of ns ih
    ((st.enter divergent depth ns).insertLoopVar var uniform) (by simp [hstack])
    (prefix_nil_errors (leave_errors _) herr)
  refine ⟨hcheck, hwalk.leave st [var] hstack rfl rfl ?_ ?_⟩
  · intro name hname
    rcases mem_append.mp hname with hname | hname
    · have hnone := fresh_of_checkedAll hshadow ns hcheck name hname
      have := isSome_setBinding st.scope var name (loopBinding uniform)
      rw [show setBinding st.scope var (some (loopBinding uniform)) name = none from hnone] at this
      simpa using (Bool.or_eq_false_iff.mp this.symm).2
    · rw [mem_singleton.mp hname]
      exact hfresh
  · intro key
    rw [isSome_flowAll]
    show ((setBinding st.scope var (some (loopBinding uniform)) key).isSome || _) = _
    rw [isSome_setBinding]
    simp only [mem_append, mem_singleton, Bool.decide_or]
    ac_rfl

theorem nested_errors (ns : List Node) (st : Validator) (divergent : Bool) (depth : Nat) :
    st.errors <+: (walkNodes options buffers (st.enter divergent depth ns) ns).leave.errors :=
  nested_errors_of ns (fun n _ => walkNode_errors n) st divergent depth

theorem Walked.of_visited {visited : Validator} (h : Walked visited st' scope names seen)
    (hstack : visited.scopeStack = st.scopeStack) (halias : visited.aliasStack = st.aliasStack)
    (hpending : visited.pendingAliasExtensions = st.pendingAliasExtensions) :
    Walked st st' scope names seen where
  scope_eq := h.scope_eq
  alias_eq := h.alias_eq
  aliasStack_eq := h.aliasStack_eq.trans halias
  pending_eq := h.pending_eq.trans hpending
  stack_eq := fun frame frames hs => h.stack_eq frame frames (hstack.trans hs)

/-- `PostIf` and `PostLoop` add the accesses that the visitor left pending. -/
theorem Walked.extendPending {visited : Validator} {accesses : NodeAccesses}
    (h : Walked visited st' scope names seen) (hstack : visited.scopeStack = st.scopeStack)
    (halias : visited.aliasStack = st.aliasStack)
    (hpending : visited.pendingAliasExtensions = accesses :: st.pendingAliasExtensions) :
    Walked st st'.extendPending scope names (.union accesses seen) := by
  have hp := h.pending_eq.trans hpending
  unfold Validator.extendPending
  rw [hp]
  refine ⟨h.scope_eq, ?_, h.aliasStack_eq.trans halias, rfl, ?_⟩
  · rw [← h.alias_eq]
    rfl
  · intro frame frames hs
    exact h.stack_eq frame frames (hstack.trans hs)

theorem walkNode_accepted (hshadow : options.allowShadowing = false) (n : Node) :
    NodeAccepted options buffers n := by
  induction n with intro st hst herr
  | letBind name value =>
    have haccepts := accepts_of_visit hst herr
    refine ⟨haccepts, ?_⟩
    obtain ⟨frame, frames, hs⟩ := exists_cons_of_ne_nil hst
    have hfresh := haccepts.letBind_fresh hshadow
    show Walked st ((nodeEffect buffers st _).report _) _ _ _
    unfold nodeEffect
    simp only [hs]
    refine ⟨rfl, rfl, rfl, rfl, ?_⟩
    intro frame' frames' hs'
    obtain ⟨rfl, rfl⟩ := cons.inj (hs.symm.trans hs')
    refine ⟨name :: frame.regionBindings, ?_⟩
    simp only [Validator.report, Validator.extendAlias, Validator.insertBinding, boundBy, hfresh,
      map_cons, map_nil, singleton_append]
  | ifThen cond thenNodes otherwise iht iho =>
    rw [walkNode, extendPending_errors] at herr
    have hthen := prefix_nil_errors (nested_errors otherwise _ _ _) herr
    have hvisit := prefix_nil_errors (nested_errors thenNodes _ _ _) hthen
    obtain ⟨hct, hwt⟩ := nested_accepted_of hshadow thenNodes iht _ _ _ hthen
    obtain ⟨hco, hwo⟩ := nested_accepted_of hshadow otherwise iho _ _ _ herr
    rw [hwt.scope_eq] at hco hwo
    rw [hwt.alias_eq] at hwo
    exact ⟨⟨accepts_of_visit hst hvisit, hct, hco⟩,
      (hwt.trans hwo).extendPending rfl rfl rfl⟩
  | loop var lo hi body ih =>
    rw [walkNode, extendPending_errors] at herr
    have hin := prefix_nil_errors (leave_errors _) herr
    have hvisit := prefix_nil_errors (walkNodes_errors_of body
      (fun m _ => walkNode_errors m) _) hin
    have haccepts := accepts_of_visit hst hvisit
    have hfresh : st.scope var = none := haccepts.loop_fresh hshadow
    obtain ⟨hcheck, hwalk⟩ := loopBody_accepted_of hshadow body ih
      (visitNode options buffers st (.loop var lo hi body)) _ _ var _ hfresh herr
    exact ⟨⟨haccepts, hcheck⟩, hwalk.extendPending rfl rfl rfl⟩
  | block body ih | region _ _ body ih =>
    have hvisit := prefix_nil_errors (nested_errors body _ _ _) herr
    obtain ⟨hcheck, hwalk⟩ := nested_accepted_of hshadow body ih _ _ _ herr
    exact ⟨⟨accepts_of_visit hst hvisit, hcheck⟩, hwalk.of_visited rfl rfl rfl⟩
  | _ =>
    refine ⟨accepts_of_visit hst herr, rfl, rfl, rfl, rfl, ?_⟩
    intro frame frames hs
    exact ⟨frame.regionBindings, hs⟩

end Accepted

def emptyScope : Scope := fun _ => none

theorem checked_of_validate {options : Options} {p : Program}
    (hshadow : options.allowShadowing = false) (h : validateWithOptions options p = []) :
    CheckedAll (bufferMap p.buffers) (Accepts options (bufferMap p.buffers)) false emptyScope .none
      p.entry := by
  simp only [validateWithOptions, append_eq_nil_iff, runErrors_eq] at h
  obtain ⟨⟨⟨-, hwalk, -⟩, -⟩, -⟩ := h
  exact (walkNodes_accepted_of p.entry
    (fun n _ => walkNode_accepted hshadow n)
    (({} : Validator).enter false 0 p.entry) (cons_ne_nil _ _)
    (prefix_nil_errors (popScope_errors _) hwalk)).1

end Vyre.Validate
