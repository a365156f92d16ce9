import Vyre.Soundness.Static

/-!
# What a run of the machine keeps

The scope stack of an invocation follows the nesting of the program: the locals
are the names in scope at the statement it is about to run, with values of the
types recorded there. `Discipline` says what a set of statement rules has to
give for this to be kept; `Reachable.configOk` is the result for whole runs,
`ConfigOk.round_error` for the errors a round can end with.
-/

namespace Vyre.Soundness

open Validate Reference StateExcept

section Triples

variable {α : Type} {I : Memory → Prop} {B : Error → Prop} {P : α → Prop}

theorem meets_fail {e : Error} (h : ¬ B e) : Meets I B (Eval.fail e : Eval α) P :=
  fun _ _ => h

theorem meets_orFail {o : Option α} {e : Error} (herr : ¬ B e) (h : ∀ a, o = some a → P a) :
    Meets I B (Eval.orFail o e) P := by
  cases o with
  | none => exact meets_fail herr
  | some a => exact .pure (h a rfl)

theorem meets_lift {r : Except Error α} (herr : ∀ e, r = .error e → ¬ B e)
    (h : ∀ a, r = .ok a → P a) : Meets I B (Eval.lift r) P := by
  cases r with
  | error e => exact meets_fail (herr e rfl)
  | ok a => exact .pure (h a rfl)

end Triples

/-- The errors about names: unbound, bound twice, or immutable. -/
def isScopeError : Error → Bool
  | .undeclaredVariable _ | .duplicateLocal _ | .assignUndeclared _ | .assignLoopVariable _ => true
  | _ => false

def operands : Node → List Expr
  | .letBind _ value => [value]
  | .assign _ value => [value]
  | .store _ index value => [index, value]
  | .ifThen cond _ _ => [cond]
  | .loop _ lo hi _ => [lo, hi]
  | .asyncLoad _ _ offset size _ => [offset, size]
  | .asyncStore _ _ offset size _ => [offset, size]
  | .trap address _ => [address]
  | _ => []

theorem forall_operands {P : Expr → Prop} {Q : Node → Prop} {n : Node} (h : n.Forall P Q) :
    ∀ e ∈ operands n, e.Forall P := by
  cases n <;> simp_all [operands, Node.Forall]

/-! ## Locals and scopes -/

/-- The locals are the names of the scope, with values of the recorded types. -/
structure LocalsOk (HasType : DataType → Value → Prop) (scope : Scope)
    (locals : Ident → Option Value) : Prop where
  bound : ∀ name, (locals name).isSome = (scope name).isSome
  typed : ∀ name b v, scope name = some b → locals name = some v → HasType b.ty v

/-- The same, and the immutable names are the loop variables. -/
structure EnvOk (HasType : DataType → Value → Prop) (scope : Scope) (env : Locals) : Prop
    extends LocalsOk HasType scope env.locals where
  immutable : ∀ name, env.immutable name = (scope name).any (!·.mutable)

def hide (scope : Scope) (names : List Ident) : Scope :=
  fun key => if key ∈ names then none else scope key

theorem hide_setBinding {scope : Scope} {name : Ident} (hfresh : scope name = none)
    (binding : Binding) (names : List Ident) :
    hide (setBinding scope name (some binding)) (name :: names) = hide scope names := by
  funext key
  by_cases hk : key = name <;> simp [hide, setBinding, hk, hfresh]

section Env

variable {HasType : DataType → Value → Prop} {scope : Scope} {env : Locals}

theorem EnvOk.new : EnvOk HasType emptyScope Locals.new where
  bound := fun _ => rfl
  typed := fun _ _ _ h => by cases h
  immutable := fun _ => rfl

theorem EnvOk.pushScope (h : EnvOk HasType scope env) : EnvOk HasType scope env.pushScope :=
  ⟨h.toLocalsOk, h.immutable⟩

theorem EnvOk.popScope (h : EnvOk HasType scope env) {names : List Ident}
    {scopes : List (List Ident)} (hs : env.scopes = names :: scopes) :
    EnvOk HasType (hide scope names) env.popScope := by
  unfold Locals.popScope
  rw [hs]
  refine ⟨⟨?_, ?_⟩, ?_⟩
  · intro name
    by_cases hn : name ∈ names <;> simp [hide, hn, h.bound name]
  · intro name b v hb hv
    by_cases hn : name ∈ names
    · simp [hide, hn] at hb
    · exact h.typed name b v (by simpa [hide, hn] using hb) (by simpa [hn] using hv)
  · intro name
    by_cases hn : name ∈ names <;> simp [hide, hn, h.immutable name]

variable {v : Value} {name : Ident}

theorem LocalsOk.setLocal (h : LocalsOk HasType scope env.locals) (name : Ident) {b : Binding}
    (hv : HasType b.ty v) :
    LocalsOk HasType (setBinding scope name (some b)) (env.setLocal name v).locals where
  bound := by
    intro key
    by_cases hk : key = name <;> simp [Locals.setLocal, hk, h.bound key]
  typed := by
    intro key b' v' hb' hv'
    by_cases hk : key = name
    · cases (if_pos hk).symm.trans hb'
      cases (if_pos hk).symm.trans hv'
      exact hv
    · exact h.typed key b' v' (by simpa [setBinding, hk] using hb')
        (by simpa [Locals.setLocal, hk] using hv')

variable (h : EnvOk HasType scope env)

include h

section

variable (hfresh : scope name = none)

include hfresh

theorem EnvOk.unbound : env.locals name = none := by
  simpa [hfresh] using h.bound name

theorem EnvOk.bind {b : Binding}
    (hmutable : b.mutable = true) (hv : HasType b.ty v) :
    ∃ env', env.bind name v = .ok env' ∧ EnvOk HasType (setBinding scope name (some b)) env' ∧
      env'.scopes = Locals.addName name env.scopes := by
  refine ⟨{ env.setLocal name v with scopes := Locals.addName name env.scopes }, ?_,
    ⟨h.setLocal name hv, ?_⟩, rfl⟩
  · simp [Locals.bind, h.unbound hfresh]
  · intro key
    show env.immutable key = _
    by_cases hk : key = name <;> simp [h.immutable, hk, hfresh, setBinding, hmutable]

theorem EnvOk.bindLoopVar
    (hv : HasType .u32 v) :
    ∃ env', env.bindLoopVar name v = .ok env' ∧
      EnvOk HasType (setBinding scope name (some (loopBinding false))) env' ∧
      env'.scopes = Locals.addName name env.scopes := by
  refine ⟨{ env.setLocal name v with
      scopes := Locals.addName name env.scopes
      immutable := fun key => if key = name then true else env.immutable key }, ?_,
    ⟨h.setLocal name hv, ?_⟩, rfl⟩
  · rw [Locals.bindLoopVar, Locals.bind, h.unbound hfresh]
    rfl
  · intro key
    by_cases hk : key = name <;> simp [hk, setBinding, loopBinding, h.immutable]

end

theorem EnvOk.assign
    (hv : ∀ b, scope name = some b → HasType b.ty v) :
    match env.assign name v with
    | .ok env' => EnvOk HasType scope env' ∧ env'.scopes = env.scopes
    | .error e => (e = .assignUndeclared name ∧ scope name = none) ∨
        (e = .assignLoopVariable name ∧ ∃ b, scope name = some b ∧ b.mutable = false) := by
  unfold Locals.assign
  cases hb : scope name with
  | none => simp [h.unbound hb]
  | some b =>
    have hsome : (env.locals name).isNone = false := by simp [h.bound, hb]
    simp only [hsome, h.immutable, hb, Option.any_some]
    cases hm : b.mutable with
    | false => exact .inr ⟨rfl, b, rfl, hm⟩
    | true =>
      have hset := h.setLocal name (hv b hb)
      have hsame : setBinding scope name (some b) = scope := by
        funext key
        by_cases hk : key = name <;> simp [setBinding, hk, hb]
      rw [hsame] at hset
      exact ⟨⟨hset, h.immutable⟩, rfl⟩

end Env

/-- Rules that statements pass, and what follows from them for evaluation: the
values of operands have the types the validator infers, no error in `Bad` is
raised, and binding and assigning find the names they need. -/
structure Discipline (host : Host) (buffers : Buffers) where
  Rule : Nat → Scope → Node → Prop
  HasType : DataType → Value → Prop
  MemoryOk : Memory → Prop
  Bad : Error → Prop
  memory_closed : ∀ {m m'}, SameShape m m' → MemoryOk m → MemoryOk m'
  bad_scope : ∀ {e}, Bad e → isScopeError e = true
  let_fresh : ∀ {label scope name value}, Rule label scope (.letBind name value) → scope name = none
  loop_fresh : ∀ {label scope var lo hi body},
    Rule label scope (.loop var lo hi body) → scope var = none
  loop_value : ∀ v, HasType .u32 (.u32 v)
  assign_typed : ∀ {label scope name value b locals v}, Rule label scope (.assign name value) →
    LocalsOk HasType scope locals → scope name = some b →
    HasType ((exprType buffers scope value).getD .u32) v → HasType b.ty v
  assign_bound : ∀ {label scope name value}, Rule label scope (.assign name value) →
    Bad (.assignUndeclared name) → scope name ≠ none
  assign_mutable : ∀ {label scope name value b}, Rule label scope (.assign name value) →
    Bad (.assignLoopVariable name) → scope name = some b → b.mutable = true
  eval : ∀ {label scope n e}, Rule label scope n → e ∈ operands n → ∀ snapshots lane,
    LocalsOk HasType scope lane.locals →
    Meets MemoryOk Bad (evalExpr host snapshots e lane)
      (HasType ((exprType buffers scope e).getD .u32))

section Machine

variable {host : Host} {buffers : Buffers} (D : Discipline host buffers)

/-- The frames of an invocation follow the nesting of the program. `scope` is
what reaches the statements of the top frame; a scoped frame goes with the
innermost of `scopes`, and only the entry is not scoped. -/
def FramesOk (scope : Scope) (scopes : List (List Ident)) : List Frame → Prop
  | [] => True
  | .nodes rest label false :: frames => UnderAll buffers D.Rule scope label rest ∧ frames = []
  | .nodes rest label true :: frames => UnderAll buffers D.Rule scope label rest ∧
      match scopes with
      | names :: scopes => FramesOk (hide scope names) scopes frames
      | [] => False
  | .loop var _ _ body label :: frames => scope var = none ∧
      UnderAll buffers D.Rule (setBinding scope var (some (loopBinding false))) label body ∧
      FramesOk scope scopes frames

/-- An invocation whose locals are the names in scope where it stands. -/
def InvocationOk (inv : Invocation) : Prop :=
  ∃ scope, EnvOk D.HasType scope inv.locals ∧ FramesOk D scope inv.locals.scopes inv.frames

structure ConfigOk (c : Config) : Prop where
  memory : D.MemoryOk c.memory
  invocations : ∀ inv ∈ c.invocations, InvocationOk D inv

variable {D}

variable {e : Error} {scope : Scope} {label : Nat} {inv : Invocation} {c : Config}
  {usesSubgroupOps : Bool}

theorem Discipline.not_bad (h : isScopeError e = false) : ¬ D.Bad e := by
  intro hb
  rw [D.bad_scope hb] at h
  cases h

theorem FramesOk.next {scope' : Scope} {scopes scopes' : List (List Ident)}
    {rest : List Node} {label' : Nat} {isScoped : Bool} {frames : List Frame} {n : Node}
    (h : FramesOk D scope scopes (.nodes (n :: rest) label isScoped :: frames))
    (hrest : UnderAll buffers D.Rule scope' label' rest)
    (hbelow : ∀ names below, scopes = names :: below →
      ∃ names', scopes' = names' :: below ∧ hide scope' names' = hide scope names) :
    FramesOk D scope' scopes' (.nodes rest label' isScoped :: frames) := by
  cases isScoped with
  | false => exact ⟨hrest, h.2⟩
  | true =>
    cases scopes with
    | nil => exact h.2.elim
    | cons names below =>
      obtain ⟨names', hs', hhide⟩ := hbelow names below rfl
      rw [hs']
      refine ⟨hrest, ?_⟩
      show FramesOk D (hide scope' names') below frames
      rw [hhide]
      exact h.2

theorem InvocationOk.enter {body : List Node} (henv : EnvOk D.HasType scope inv.locals)
    (hframes : FramesOk D scope inv.locals.scopes inv.frames)
    (hbody : UnderAll buffers D.Rule scope label body) : InvocationOk D (inv.enter body label) := by
  refine ⟨scope, henv.pushScope, hbody, ?_⟩
  exact hframes

theorem FramesOk.split {scopes : List (List Ident)} {n : Node} {rest : List Node} {isScoped : Bool}
    {frames : List Frame}
    (h : FramesOk D scope scopes (.nodes (n :: rest) label isScoped :: frames)) :
    Under buffers D.Rule scope label n ∧
      UnderAll buffers D.Rule (after buffers scope n) (label + labels n) rest := by
  cases isScoped <;> exact h.1

theorem resolveBuffer_error {m : Memory} {name : Ident} (h : m.resolveBuffer name = .error e) :
    isScopeError e = false := by
  unfold Memory.resolveBuffer at h
  split at h <;> cases h
  rfl

theorem meets_resolveBuffer (m : Memory) (name : Ident) :
    Meets D.MemoryOk D.Bad (Eval.lift (m.resolveBuffer name)) fun b => m.find name = some b :=
  meets_lift (fun _ he => D.not_bad (resolveBuffer_error he)) fun _ hb => resolveBuffer_eq_ok.mp hb

theorem storeElement_meets (fl : Floats) (buffer : Ident) (index : UInt32) (value : Value) :
    Meets D.MemoryOk D.Bad (storeElement fl buffer index value) fun _ => True :=
  Meets.get.bind fun m hm => (meets_resolveBuffer m buffer).bind fun target htarget =>
    .set (D.memory_closed (Memory.update_shape htarget (target.store_shape fl index value)) hm)

theorem applyAsyncTransfer_meets (transfer : Transfer) :
    Meets D.MemoryOk D.Bad (applyAsyncTransfer transfer) fun _ => True := by
  refine Meets.get.bind fun m hm => (meets_resolveBuffer m _).bind fun target htarget => ?_
  split
  · refine .set (D.memory_closed (Memory.update_shape htarget (Buffer.overwrite_shape ?_)) hm)
    rw [List.length_take]
    omega
  · exact .pure trivial

theorem readBytes_meets (m : Memory) (source : Ident) (start byteCount : Nat) :
    Meets D.MemoryOk D.Bad (Eval.lift (readBytes m source start byteCount)) fun _ => True := by
  refine meets_lift (fun e he => ?_) fun _ _ => trivial
  unfold readBytes at he
  cases hr : m.resolveBuffer source <;> rw [hr] at he <;> cases he
  exact D.not_bad (resolveBuffer_error hr)

/-! ## One step -/

theorem toByteCount_meets (fl : Floats) (what : String) (v : Value) :
    Meets D.MemoryOk D.Bad (toByteCount fl what v) fun _ => True :=
  (meets_orFail (P := fun _ => True) (D.not_bad rfl) fun _ _ => trivial).bind fun _ _ =>
    .pure trivial

theorem beginAsync_meets (h : InvocationOk D inv) (tag : Ident) (transfer : Transfer) :
    Meets D.MemoryOk D.Bad (Eval.lift (inv.beginAsync tag transfer)) (InvocationOk D) := by
  unfold Invocation.beginAsync
  split_ifs
  · exact meets_fail (D.not_bad rfl)
  · exact .pure h

theorem finishAsync_meets (h : InvocationOk D inv) (tag : Ident) :
    Meets D.MemoryOk D.Bad (Eval.lift (inv.finishAsync tag)) fun r => InvocationOk D r.2 := by
  unfold Invocation.finishAsync
  split
  · exact .pure h
  · exact meets_fail (D.not_bad rfl)

section Step

variable (snapshots : List Lane) {inv : Invocation} {scope : Scope} {label : Nat}

theorem executeNode_meets (n : Node) {rest : List Node} {isScoped : Bool} {frames : List Frame}
    (henv : EnvOk D.HasType scope inv.locals)
    (hframes : FramesOk D scope inv.locals.scopes (.nodes (n :: rest) label isScoped :: frames))
    (hinv : inv.frames = .nodes rest (label + labels n) isScoped :: frames) :
    Meets D.MemoryOk D.Bad (executeNode host snapshots inv label n) (InvocationOk D) := by
  obtain ⟨hn, hrest⟩ := hframes.split
  have heval : ∀ {e : Expr}, D.Rule label scope n → e ∈ operands n →
      Meets D.MemoryOk D.Bad (evalExpr host snapshots e inv.lane)
        (D.HasType ((exprType buffers scope e).getD .u32)) :=
    fun hr he => D.eval hr he snapshots inv.lane henv.toLocalsOk
  -- when the statement binds nothing, the frames below it are as before
  have hkeep : after buffers scope n = scope → FramesOk D scope inv.locals.scopes inv.frames := by
    intro hsame
    rw [hinv]
    rw [hsame] at hrest
    exact hframes.next hrest fun names below hs => ⟨names, hs, rfl⟩
  cases n with
  | letBind name value =>
    refine (heval hn (by simp [operands])).bind fun v hv => ?_
    obtain ⟨env', hbind, henv', hscopes⟩ :=
      henv.bind (b := ⟨_, true, false⟩) (D.let_fresh hn) rfl hv
    rw [hbind]
    refine .pure ⟨_, henv', ?_⟩
    rw [hinv, hscopes]
    refine hframes.next hrest fun names below hs => ⟨name :: names, ?_, ?_⟩
    · rw [hs]
      rfl
    · exact hide_setBinding (D.let_fresh hn) _ names
  | assign name value =>
    refine (heval hn (by simp [operands])).bind fun v hv => ?_
    have hassign := henv.assign fun b (hb : scope name = some b) =>
      D.assign_typed hn henv.toLocalsOk hb hv
    cases hr : inv.locals.assign name v with
    | error e =>
      rw [hr] at hassign
      rcases hassign with ⟨rfl, hnone⟩ | ⟨rfl, b, hb, hm⟩
      · exact meets_fail fun hbad => D.assign_bound hn hbad hnone
      · refine meets_fail fun hbad => ?_
        rw [D.assign_mutable hn hbad hb] at hm
        cases hm
    | ok env' =>
      rw [hr] at hassign
      refine .pure ⟨scope, hassign.1, ?_⟩
      rw [hassign.2]
      exact hkeep rfl
  | store buffer index value =>
    exact (heval hn (by simp [operands])).bind fun i _ =>
      (meets_orFail (D.not_bad rfl) fun _ _ => trivial).bind fun idx _ =>
      (heval hn (by simp [operands])).bind fun v _ =>
      (storeElement_meets _ _ _ _).bind fun _ _ => .pure ⟨scope, henv, hkeep rfl⟩
  | ifThen cond thenNodes otherwise =>
    obtain ⟨hrule, hthen, hotherwise⟩ := hn
    refine (heval hrule (by simp [operands])).bind fun v _ => .pure ?_
    -- recording the branch for the uniformity check leaves locals and frames alone
    have hrecord : ∀ (checks : List (Nat × Bool)) {body : List Node} {label' : Nat},
        UnderAll buffers D.Rule scope label' body →
        InvocationOk D ({ inv with uniformChecks := checks }.enter body label') :=
      fun checks _ _ hbody => .enter henv (hkeep rfl) hbody
    split_ifs
    · exact hrecord _ hthen
    · exact hrecord inv.uniformChecks hthen
    · exact hrecord _ hotherwise
    · exact hrecord inv.uniformChecks hotherwise
  | loop var lo hi body =>
    obtain ⟨hrule, hbody⟩ := hn
    exact (heval hrule (by simp [operands])).bind fun _ _ =>
      (meets_orFail (D.not_bad rfl) fun _ _ => trivial).bind fun next _ =>
      (heval hrule (by simp [operands])).bind fun _ _ =>
      (meets_orFail (D.not_bad rfl) fun _ _ => trivial).bind fun stop _ =>
      .pure ⟨scope, henv, D.loop_fresh hrule, hbody, hkeep rfl⟩
  | indirectDispatch countBuffer countOffset =>
    rw [executeNode]
    split_ifs <;> exact meets_fail (D.not_bad rfl)
  | asyncLoad _ _ _ _ _ | asyncStore _ _ _ _ _ =>
    refine (heval hn (by simp [operands])).bind fun _ _ =>
      (toByteCount_meets _ _ _).bind fun start _ =>
      (heval hn (by simp [operands])).bind fun _ _ =>
      (toByteCount_meets _ _ _).bind fun byteCount _ =>
      Meets.get.bind fun m _ => (readBytes_meets m _ _ _).bind fun payload _ =>
      (meets_resolveBuffer m _).bind fun _ _ => beginAsync_meets ?_ _ _
    exact ⟨scope, henv, hkeep rfl⟩
  | asyncWait tag =>
    refine (finishAsync_meets ⟨scope, henv, hkeep rfl⟩ tag).bind fun r hr => ?_
    exact (applyAsyncTransfer_meets r.1).bind fun _ _ => .pure hr
  | trap address tag =>
    exact (heval hn (by simp [operands])).bind fun _ _ =>
      (meets_orFail (P := fun _ => True) (D.not_bad rfl) fun _ _ => trivial).bind fun _ _ =>
      meets_fail (D.not_bad rfl)
  | ret => exact .pure ⟨scope, henv, trivial⟩
  | barrier ordering => exact .pure ⟨scope, henv, hkeep rfl⟩
  | block body | region _ _ body => exact .pure (.enter henv (hkeep rfl) hn.2)
  | _ => exact meets_fail (D.not_bad rfl)

theorem stepFrames_meets {frames : List Frame} (henv : EnvOk D.HasType scope inv.locals)
    (hframes : FramesOk D scope inv.locals.scopes frames) :
    Meets D.MemoryOk D.Bad (stepFrames host snapshots inv frames) (InvocationOk D) := by
  match frames with
  | [] => exact .pure ⟨scope, henv, trivial⟩
  | .nodes [] label false :: frames =>
    obtain ⟨-, rfl⟩ := hframes
    exact .pure ⟨scope, henv, trivial⟩
  | .nodes [] label true :: frames =>
    obtain ⟨-, hbelow⟩ := hframes
    cases hs : inv.locals.scopes with
    | nil =>
      rw [hs] at hbelow
      exact hbelow.elim
    | cons names scopes =>
      rw [hs] at hbelow
      refine .pure ⟨hide scope names, henv.popScope hs, ?_⟩
      have hpop : inv.locals.popScope.scopes = scopes := by simp [Locals.popScope, hs]
      rw [hpop]
      exact hbelow
  | .nodes (n :: rest) label isScoped :: frames =>
    exact executeNode_meets snapshots n henv hframes rfl
  | .loop var next stop body label :: frames =>
    obtain ⟨hfresh, hbody, hbelow⟩ := hframes
    show Meets _ _ (Eval.lift (stepLoop inv var next stop body label frames)) _
    unfold stepLoop
    split_ifs with hdone
    · exact .pure ⟨scope, henv, hbelow⟩
    · obtain ⟨env', hbind, henv', hscopes⟩ := henv.pushScope.bindLoopVar hfresh (D.loop_value next)
      rw [hbind]
      refine .pure ⟨_, henv', ?_⟩
      rw [hscopes]
      refine ⟨hbody, ?_⟩
      show FramesOk D (hide _ [var]) inv.locals.scopes _
      rw [hide_setBinding hfresh]
      exact ⟨hfresh, hbody, hbelow⟩

theorem step_meets (h : InvocationOk D inv) :
    Meets D.MemoryOk D.Bad (step host snapshots inv) (InvocationOk D) := by
  obtain ⟨scope, henv, hframes⟩ := h
  exact stepFrames_meets snapshots henv hframes

end Step

theorem stepAll_meets (snapshots : List Lane) {invs : List Invocation}
    (h : ∀ inv ∈ invs, InvocationOk D inv) :
    Meets D.MemoryOk D.Bad (stepAll host snapshots invs) fun invs => ∀ inv ∈ invs,
      InvocationOk D inv := by
  refine .mapM invs fun inv hinv => ?_
  split_ifs
  · exact step_meets snapshots (h inv hinv)
  · exact .pure (h inv hinv)

theorem ConfigOk.round {c' : Config} (h : ConfigOk D c)
    (hround : c.round host usesSubgroupOps = .ok c') : ConfigOk D c' := by
  obtain ⟨invs, hsteps, hinvs'⟩ := Config.round_eq_ok hround
  have hstep := stepAll_meets (c.snapshots usesSubgroupOps) h.invocations c.memory h.memory
  rw [hsteps] at hstep
  obtain ⟨hinvs, hmemory⟩ := hstep
  refine ⟨hmemory, ?_⟩
  rcases hinvs' with heq | hreleased
  · rw [heq]
    exact hinvs
  · rw [releaseBarrierIfReady_eq_some hreleased]
    intro inv hinv
    obtain ⟨inv', hinv', rfl⟩ := List.mem_map.mp hinv
    exact hinvs inv' hinv'

/-- The errors a round ends with are not `Bad`. -/
theorem ConfigOk.round_error (h : ConfigOk D c) (hround : c.round host usesSubgroupOps = .error e) :
    ¬ D.Bad e := by
  rcases Config.round_eq_error hround with hsteps | ⟨message, rfl⟩
  · have hstep := stepAll_meets (c.snapshots usesSubgroupOps) h.invocations c.memory h.memory
    rw [hsteps] at hstep
    exact hstep
  · exact D.not_bad rfl

theorem ConfigOk.of_reachable {start : Config} (hstart : ConfigOk D start)
    (h : Reachable host usesSubgroupOps start c) : ConfigOk D c := by
  induction h with
  | start => exact hstart
  | round _ _ hround ih => exact ih.round hround

theorem ConfigOk.start {p : Program} {workgroup : Dim3} {invs : List Invocation} {memory : Memory}
    (hentry : UnderAll buffers D.Rule emptyScope 0 p.entry) (hmemory : D.MemoryOk memory)
    (h : createInvocations p workgroup = .ok invs) : ConfigOk D ⟨memory, invs⟩ where
  memory := hmemory
  invocations := by
    intro inv hinv
    obtain ⟨ids, index, -, rfl⟩ := new_of_createInvocations h hinv
    exact ⟨emptyScope, .new, hentry, rfl⟩

end Machine

end Vyre.Soundness
