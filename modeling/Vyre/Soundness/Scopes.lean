import Vyre.Soundness.Invariant

/-!
# Names at run time

An invocation of an accepted program finds every name it evaluates, binds no
name twice and assigns no loop variable, provided the statements the validator
does not look into are in order: the operands of transfers and traps, and
assignments to buffer names.
-/

namespace Vyre.Soundness

open Validate Reference StateExcept List

variable {α : Type} {e : Error} {fl : Floats} {depth : Nat} {options : Options} {buffers : Buffers}
  {scope : Scope}

theorem binopInt_error [Add α] [Sub α] [Mul α] [AndOp α] [OrOp α] [XorOp α] [OfNat α 0]
    [DecidableEq α] [LT α] [DecidableLT α] [LE α] [DecidableLE α] {wrap : α → Value}
    {shift : α → α → Bool → α} {div rem : α → α → Except Error α} {op : BinOp} {l r : α}
    (hdiv : ∀ e, div l r = .error e → isScopeError e = false)
    (hrem : ∀ e, rem l r = .error e → isScopeError e = false)
    (h : binopInt wrap shift div rem op l r = .error e) : isScopeError e = false := by
  have hmap : ∀ {x : Except Error α}, x.map wrap = .error e → x = .error e := by
    intro x hx
    cases x <;> cases hx
    rfl
  cases op with
  | div => exact hdiv e (hmap h)
  | mod => exact hrem e (hmap h)
  | _ =>
    simp only [binopInt, Except.error.injEq, reduceCtorEq] at h <;>
    · rw [← h]
      rfl

theorem divI32_error {l r : Int32} (h : divI32 l r = .error e) : isScopeError e = false := by
  unfold divI32 at h
  split_ifs at h <;> cases h <;> rfl

theorem remI32_error {l r : Int32} (h : remI32 l r = .error e) : isScopeError e = false := by
  unfold remI32 at h
  split_ifs at h <;> cases h <;> rfl

theorem evalBinop_error {op : BinOp} {l r : Value} (h : evalBinop fl op l r = .error e) :
    isScopeError e = false := by
  unfold evalBinop at h
  split at h
  · cases h
  · split at h
    · exact binopInt_error (fun _ hd => by cases hd) (fun _ hr => by cases hr) h
    · exact binopInt_error (fun _ hd => divI32_error hd) (fun _ hr => remI32_error hr) h
    · exact binopInt_error (fun _ hd => by cases hd) (fun _ hr => by cases hr) h
    · unfold binopBool at h
      split at h <;> cases h
      rfl
    · unfold binopF32 at h
      split at h <;> cases h
      rfl
    · cases h
      rfl

theorem evalUnop_error {op : UnOp} {v : Value} (h : evalUnop fl op v = .error e) :
    isScopeError e = false := by
  cases v with
  | u32 value | i32 value | u64 value | bool value | float bits =>
    simp only [evalUnop, unopU32, unopI32, unopU64, unopInt, unopBool, unopF32] at h
    split at h <;> cases h
    rfl
  | _ =>
    cases h
    rfl

theorem castValue_error {target : DataType} {v : Value} (h : castValue fl target v = .error e) :
    isScopeError e = false := by
  have hor :
      ∀ {result : Option Value}, castOr target v result = .error e → isScopeError e = false := by
    intro result h
    cases result <;> cases h
    rfl
  cases target <;> simp only [castValue] at h <;> first
    | cases h
    | exact hor h
    | (split at h <;> first | cases h | exact hor h)

theorem axisValue_error {values : Dim3} {axis : UInt8} (h : axisValue values axis = .error e) :
    isScopeError e = false := by
  unfold axisValue at h
  split at h <;> cases h
  rfl

/-! ## Evaluation -/

/-- The names an expression reads are in scope, and it does not read them in
other invocations. -/
def NamesBound (scope : Scope) : Expr → Prop
  | .var name => (scope name).isSome
  | .subgroupBallot _ | .subgroupShuffle _ _ | .subgroupAdd _ => False
  | _ => True

def anyType : DataType → Value → Prop := fun _ _ => True

abbrev Quiet {α : Type} (x : Eval α) : Prop :=
  Meets (fun _ => True) (fun e => isScopeError e = true) x fun _ => True

theorem quiet_of_not_scope {r : Except Error α} (h : ∀ e, r = .error e → isScopeError e = false) :
    Quiet (Eval.lift r) :=
  meets_lift (fun e he => by simp [h e he]) fun _ _ => trivial

theorem quiet_orFail {o : Option α} (h : isScopeError e = false) : Quiet (Eval.orFail o e) :=
  meets_orFail (by simp [h]) fun _ _ => trivial

theorem quiet_fail (h : isScopeError e = false) : Quiet (Eval.fail e : Eval α) :=
  meets_fail (by simp [h])

theorem meets_atomicRmw {B : Error → Prop} (htext : ∀ message, ¬ B (.interp message))
    (hop : ∀ op, ¬ B (.unsupportedAtomic op)) (op : AtomicOp) (buffer : Ident) (index : UInt32)
    (expected : Option UInt32) (value : UInt32) :
    Meets (fun _ => True) B (atomicRmw Memory.atomicBuffer op buffer index expected value)
      fun v => ∃ word, v = .u32 word := by
  refine Meets.get.bind fun m _ => Meets.bind (P := fun _ => True) ?_ fun target _ => ?_
  · refine meets_lift (fun e he => ?_) fun _ _ => trivial
    unfold Memory.atomicBuffer at he
    split at he <;> cases he
    exact htext _
  · cases target.atomicLoad index with
    | none => exact .pure ⟨0, rfl⟩
    | some old =>
      refine Meets.bind (P := fun _ => True)
        (meets_lift (fun e he => ?_) fun _ _ => trivial) fun _ _ =>
        (Meets.set trivial).bind fun _ _ => .pure ⟨_, rfl⟩
      cases op with
      | compareExchange =>
        cases expected <;> cases he
        exact htext _
      | _ => cases he <;> exact hop _

section Eval

variable {host : Host} {snapshots : List Lane} {scope : Scope} {lane : Lane}

theorem quiet_resolveBuffer (m : Memory) (name : Ident) :
    Quiet (Eval.lift (m.resolveBuffer name)) :=
  quiet_of_not_scope fun _ he => resolveBuffer_error he

theorem quiet_encodeInputs {args : List Expr}
    (hargs : ∀ a ∈ args, Quiet (evalExpr host snapshots a lane)) (opId : Ident)
    (params : List String) (input : List UInt8) :
    Quiet (encodeInputs host snapshots opId args params input lane) := by
  induction args generalizing params input with
  | nil => cases params <;> exact .pure trivial
  | cons arg args ih =>
    cases params with
    | nil => exact .pure trivial
    | cons param params =>
      have hrest := ih fun a ha => hargs a (mem_cons_of_mem arg ha)
      simp only [encodeInputs]
      split
      · exact Meets.bind (P := fun _ => True) (quiet_fail rfl) fun _ _ =>
          (hargs arg (by simp)).bind fun v _ => hrest _ _
      · exact (hargs arg (by simp)).bind fun v _ => hrest _ _

theorem quiet_evalExpr {e : Expr} (he : e.Forall (NamesBound scope))
    (hlane : LocalsOk anyType scope lane.locals) : Quiet (evalExpr host snapshots e lane) := by
  induction e with
  | var name =>
    have hbound : (lane.locals name).isSome = true := (hlane.bound name).trans he
    obtain ⟨v, hv⟩ := Option.isSome_iff_exists.mp hbound
    rw [evalExpr, hv]
    exact .pure trivial
  | load buffer index ih =>
    exact (ih he.2).bind fun v _ => (quiet_orFail rfl).bind fun idx _ =>
      Meets.get.bind fun m _ => (quiet_resolveBuffer m _).bind fun target _ => .pure trivial
  | bufLen buffer =>
    exact Meets.get.bind fun m _ => (quiet_resolveBuffer m _).bind fun target _ => .pure trivial
  | invocationId axis | workgroupId axis | localId axis =>
    exact quiet_of_not_scope fun _ h => axisValue_error h
  | binOp op left right ihl ihr =>
    exact (ihl he.2.1).bind fun l _ => (ihr he.2.2).bind fun r _ =>
      quiet_of_not_scope fun _ h => evalBinop_error h
  | unOp op operand ih =>
    exact (ih he.2).bind fun v _ => quiet_of_not_scope fun _ h => evalUnop_error h
  | call opId args ih =>
    have hargs := Expr.forallArgs_iff.mp he.2
    refine Meets.bind (P := fun _ => True) (quiet_of_not_scope ?_) fun op _ =>
      Meets.bind (P := fun _ => True) (quiet_of_not_scope ?_) fun _ _ =>
      (quiet_encodeInputs (fun a ha => ih a ha (hargs a ha)) _ _ _).bind fun input _ =>
      Meets.bind (P := fun _ => True) (quiet_of_not_scope ?_) fun output _ => .pure trivial
    · intro e h
      unfold resolveCall at h
      repeat' split at h
      all_goals cases h <;> rfl
    · intro e h
      unfold validateArity at h
      split_ifs at h
      cases h
      rfl
    · intro e h
      unfold invokeCpuRef at h
      split at h <;> cases h
      rfl
  | select cond trueVal falseVal ihc iht ihf =>
    exact (ihc he.2.1).bind fun c _ => (iht he.2.2.1).bind fun t _ =>
      (ihf he.2.2.2).bind fun f _ => .pure trivial
  | cast target value ih =>
    exact (ih he.2).bind fun v _ => quiet_of_not_scope fun _ h => castValue_error h
  | fma a b c iha ihb ihc =>
    exact (iha he.2.1).bind fun _ _ => (quiet_orFail rfl).bind fun x _ =>
      (ihb he.2.2.1).bind fun _ _ => (quiet_orFail rfl).bind fun y _ =>
      (ihc he.2.2.2).bind fun _ _ => (quiet_orFail rfl).bind fun z _ => .pure trivial
  | atomic _ _ _ expected _ _ ihi ihe ihv =>
    obtain ⟨-, hindex, hexpected, hvalue⟩ := he
    have hexp : Quiet (evalExpected host snapshots expected lane) := by
      cases expected with
      | none => exact .pure trivial
      | some x =>
        exact (ihe x rfl (Expr.forallExpected_iff.mp hexpected x rfl)).bind fun v _ =>
          (quiet_orFail rfl).bind fun word _ => .pure trivial
    refine Meets.bind (P := fun _ => True) (quiet_of_not_scope ?_) fun _ _ =>
      (ihi hindex).bind fun _ _ => (quiet_orFail rfl).bind fun idx _ => hexp.bind fun exp _ =>
      (ihv hvalue).bind fun _ _ => (quiet_orFail rfl).bind fun v _ =>
      (meets_atomicRmw (fun _ => Bool.false_ne_true) (fun _ => Bool.false_ne_true) _ _ _ _ _).imp
        fun _ _ => trivial
    intro e h
    unfold atomicExpectedRule at h
    split at h <;> cases h <;> rfl
  | subgroupBallot cond | subgroupShuffle value src | subgroupAdd value => exact he.1.elim
  | subgroupLocalId | subgroupSize | ext extension => exact quiet_fail rfl
  | _ => exact .pure trivial

end Eval

/-! ## What the validator checks -/

theorem of_guardDepth {errors : List String} (h : guardDepth depth errors = []) : errors = [] := by
  unfold guardDepth at h
  split_ifs at h
  exact h

theorem validateArgs_eq_nil {args : List Expr}
    (h : validateArgs options buffers scope args depth = []) :
    ∀ arg ∈ args, validateExpr options buffers scope arg depth = [] := by
  induction args with
  | nil => simp
  | cons arg args ih =>
    rw [validateArgs, append_eq_nil_iff] at h
    exact forall_mem_cons.mpr ⟨h.1, ih h.2⟩

theorem validateExpr_forall {e : Expr} (h : validateExpr options buffers scope e depth = []) :
    e.Forall fun x => ∃ depth, validateExpr options buffers scope x depth = [] := by
  induction e generalizing depth with
  | load buffer index ih =>
    have := append_eq_nil_iff.mp (of_guardDepth h)
    exact ⟨⟨depth, h⟩, ih this.2⟩
  | unOp op operand ih | cast target operand ih | subgroupBallot operand ih
  | subgroupAdd operand ih =>
    have := append_eq_nil_iff.mp (of_guardDepth h)
    exact ⟨⟨depth, h⟩, ih this.1⟩
  | binOp op left right ihl ihr | subgroupShuffle left right ihl ihr =>
    have := of_guardDepth h
    simp only [append_eq_nil_iff] at this
    exact ⟨⟨depth, h⟩, ihl this.1.1, ihr this.1.2⟩
  | call opId args ih =>
    have := validateArgs_eq_nil (append_eq_nil_iff.mp (of_guardDepth h)).1
    exact ⟨⟨depth, h⟩, Expr.forallArgs_iff.mpr fun arg harg => ih arg harg (this arg harg)⟩
  | select a b c iha ihb ihc | fma a b c iha ihb ihc =>
    have := of_guardDepth h
    simp only [append_eq_nil_iff] at this
    obtain ⟨⟨⟨ha, hb⟩, hc⟩, -⟩ := this
    exact ⟨⟨depth, h⟩, iha ha, ihb hb, ihc hc⟩
  | atomic _ _ _ _ _ _ ihi ihe ihv =>
    have := of_guardDepth h
    simp only [append_eq_nil_iff] at this
    obtain ⟨⟨⟨-, hi⟩, he⟩, hv⟩ := this
    refine ⟨⟨depth, h⟩, ihi hi, Expr.forallExpected_iff.mpr ?_, ihv hv⟩
    rintro x ⟨⟩
    exact ihe x rfl he
  | _ => exact ⟨depth, h⟩

theorem namesBound_of_validateExpr (hno : options.supportsSubgroupOps = false) {e : Expr}
    (h : validateExpr options buffers scope e depth = []) : e.Forall (NamesBound scope) := by
  refine (validateExpr_forall h).imp fun x hx => ?_
  obtain ⟨depth, hx⟩ := hx
  cases x with
  | var name =>
    have := of_guardDepth hx
    show (scope name).isSome = true
    simpa using this
  | subgroupBallot cond | subgroupShuffle value lane | subgroupAdd value =>
    have := (append_eq_nil_iff.mp (of_guardDepth hx)).2
    simp [validateSubgroupExprSupport, hno] at this
  | _ => trivial

def ScopeRule (scope : Scope) (n : Node) : Prop :=
  (∀ e ∈ operands n, e.Forall (NamesBound scope)) ∧
  match n with
  | .letBind name _ => scope name = none
  | .loop var _ _ _ => scope var = none
  | .assign name _ => ∃ b, scope name = some b ∧ b.mutable = true
  | _ => True

/-- What the validator does not look at: the operands of transfers and traps,
and whether an assignment is to a variable or to a buffer. -/
def UncheckedNamesBound (scope : Scope) : Node → Prop
  | .asyncLoad _ _ offset size _ | .asyncStore _ _ offset size _ =>
      offset.Forall (NamesBound scope) ∧ size.Forall (NamesBound scope)
  | .trap address _ => address.Forall (NamesBound scope)
  | .assign name _ => (scope name).isSome
  | _ => True

theorem isSome_erase (scope : Scope) (name : Ident) :
    (erase scope name).isSome = (scope name).isSome := by
  simp [erase]

theorem scopeRule_of_accepts (hshadow : options.allowShadowing = false)
    (hno : options.supportsSubgroupOps = false) {divergent : Bool} {seen : NodeAccesses} {n : Node}
    (h : Accepts options buffers divergent scope seen n)
    (hunchecked : UncheckedNamesBound (erase scope) n) : ScopeRule (erase scope) n := by
  have hexpr : ∀ {e : Expr}, validateExpr options buffers scope e 0 = [] →
      e.Forall (NamesBound (erase scope)) := fun he =>
    namesBound_of_validateExpr hno ((validateExpr_erase options buffers scope _ 0).trans he)
  have hnone : ∀ {name : Ident}, scope name = none → erase scope name = none := fun hname => by
    simp [erase, hname]
  obtain ⟨st, hstack, hdiv, hscope, hseen, herr⟩ := id h
  rw [nodeErrors, append_eq_nil_iff, append_eq_nil_iff] at herr
  have hrules := herr.1.2
  rw [← hscope] at hexpr
  cases n with
  | letBind name value =>
    rw [nodeRules, append_eq_nil_iff] at hrules
    refine ⟨?_, hnone (h.letBind_fresh hshadow)⟩
    simpa [operands, hscope] using hexpr hrules.1
  | assign name value =>
    rw [nodeRules, append_eq_nil_iff] at hrules
    refine ⟨by simpa [operands, hscope] using hexpr hrules.2, ?_⟩
    obtain ⟨b, hb⟩ := Option.isSome_iff_exists.mp ((isSome_erase scope name).symm.trans hunchecked)
    have htarget := hrules.1
    rw [checkAssignTarget, hscope, hb] at htarget
    simp only [append_eq_nil_iff] at htarget
    refine ⟨{ b with uniform := false }, by simp [erase, hb], ?_⟩
    simpa using htarget.1
  | store buffer index value =>
    rw [nodeRules, append_eq_nil_iff, append_eq_nil_iff] at hrules
    refine ⟨?_, trivial⟩
    simpa [operands, hscope] using And.intro (hexpr hrules.1.2) (hexpr hrules.2)
  | ifThen cond thenNodes otherwise =>
    rw [nodeRules, append_eq_nil_iff] at hrules
    refine ⟨?_, trivial⟩
    simpa [operands, hscope] using hexpr hrules.1
  | loop var lo hi body =>
    simp only [nodeRules, append_eq_nil_iff] at hrules
    refine ⟨?_, hnone (h.loop_fresh hshadow)⟩
    simpa [operands, hscope] using And.intro (hexpr hrules.1.1.1.1) (hexpr hrules.1.1.1.2)
  | asyncLoad _ _ _ _ _ | asyncStore _ _ _ _ _
  | trap address _ =>
    exact ⟨by simpa [operands, UncheckedNamesBound] using hunchecked, trivial⟩
  | _ => exact ⟨by simp [operands], trivial⟩

/-- The rules about names keep the locals of an invocation in step with the
scopes of the program. -/
def scopeDiscipline (host : Host) (buffers : Buffers) : Discipline host buffers where
  Rule := fun _ => ScopeRule
  HasType := anyType
  MemoryOk := fun _ => True
  Bad := fun e => isScopeError e = true
  memory_closed := fun _ _ => trivial
  bad_scope := id
  let_fresh := fun h => h.2
  loop_fresh := fun h => h.2
  loop_value := fun _ => trivial
  assign_typed := fun _ _ _ _ => trivial
  assign_bound := fun h _ hnone => by
    obtain ⟨b, hb, -⟩ := h.2
    rw [hnone] at hb
    cases hb
  assign_mutable := fun h _ hb => by
    obtain ⟨b', hb', hm⟩ := h.2
    rw [hb] at hb'
    cases hb'
    exact hm
  eval := fun h he _ _ hlane =>
    (quiet_evalExpr (h.1 _ he) hlane).imp fun _ _ => trivial

/-- The names in the parts of a program that the validator does not look at are
bound: variables in the operands of transfers and traps, which moreover have no
subgroup collective, and the targets of assignments. -/
def UncheckedBound (p : Program) : Prop :=
  UnderAll (bufferMap p.buffers) (fun _ => UncheckedNamesBound) emptyScope 0 p.entry

/-- No run of an accepted program ends with an unbound variable, a name bound
twice or an assigned loop variable, when the unchecked names are bound. -/
theorem round_error_not_scope (dialect : Option DialectLookup) (p : Program)
    (hvalid : validate dialect p = []) (hunchecked : UncheckedBound p) (host : Host)
    (usesSubgroupOps : Bool) (workgroup : Dim3) (invs : List Invocation)
    (hinvs : createInvocations p workgroup = .ok invs) (memory : Memory) (c : Config)
    (hc : Reachable host usesSubgroupOps ⟨memory, invs⟩ c) (e : Error)
    (he : c.round host usesSubgroupOps = .error e) : isScopeError e = false := by
  have hrules : UnderAll (bufferMap p.buffers) (fun _ => ScopeRule) emptyScope 0 p.entry := by
    refine UnderAll.imp₂ ?_ (acceptedIn_of_validate rfl hvalid) hunchecked
    rintro label scope n ⟨divergent, full, seen, rfl, haccepts⟩ hn
    exact scopeRule_of_accepts rfl rfl haccepts hn
  have hstart : ConfigOk (scopeDiscipline host (bufferMap p.buffers)) ⟨memory, invs⟩ :=
    .start hrules trivial hinvs
  have hbad := (hstart.of_reachable hc).round_error he
  simpa [scopeDiscipline] using hbad

def oneWordMemory : Memory where
  storage := fun name => if name = "a" then some ⟨[0, 0, 0, 0], .u32⟩ else none
  workgroup := fun _ => none

/-- Binds, loops, assigns and ends in a trap whose address it computed. -/
def haltingProgram : Program :=
  .wrapped [.readWrite "a" 0 .u32] (1, 1, 1)
    [.letBind "x" (.litU32 7),
     .loop "i" (.litU32 0) (.litU32 1) [.assign "x" (.binOp .add (.var "x") (.var "i"))],
     .trap (.var "x") "halt"]

theorem round_error_not_scope_halting :
    ∃ invs c e, createInvocations haltingProgram (0, 0, 0) = .ok invs ∧
      Reachable integerHost false ⟨oneWordMemory, invs⟩ c ∧
      c.round integerHost false = .error e ∧ isScopeError e = false := by
  have hvalid : validate none haltingProgram = [] := by decide
  have hunchecked : UncheckedBound haltingProgram := by
    simp [UncheckedBound, haltingProgram, Program.wrapped, Program.newRaw, UnderAll, Under, after,
      UncheckedNamesBound, Expr.Forall, NamesBound, setBinding]
  obtain ⟨invs, hinvs⟩ : ∃ invs, createInvocations haltingProgram (0, 0, 0) = .ok invs := ⟨_, rfl⟩
  have hfails : (createInvocations haltingProgram (0, 0, 0) >>= fun invs =>
      rounds integerHost false 9 ⟨oneWordMemory, invs⟩).toOption.isNone = true := by
    decide +kernel
  rw [hinvs] at hfails
  cases hrun : rounds integerHost false 9 ⟨oneWordMemory, invs⟩ with
  | ok c =>
    rw [show (Except.ok invs >>= fun invs => rounds integerHost false 9 ⟨oneWordMemory, invs⟩)
      = .ok c from hrun] at hfails
    cases hfails
  | error e =>
    obtain ⟨c, hc, he⟩ := reachable_of_rounds_error hrun
    exact ⟨invs, c, e, hinvs, hc, he, round_error_not_scope none haltingProgram hvalid hunchecked
      integerHost false (0, 0, 0) invs hinvs oneWordMemory c hc e he⟩

def ghostProgram : Program :=
  .wrapped [.readWrite "a" 0 .u32] (1, 1, 1) [.asyncLoad "a" "a" (.var "ghost") (.litU32 4) "t"]

def bufferTargetProgram : Program :=
  .wrapped [.readWrite "a" 0 .u32] (1, 1, 1) [.assign "a" (.litU32 1)]

/-- Both are accepted, and both stop on a name. -/
theorem accepted_scope_errors :
    (validate none ghostProgram = [] ∧
      ∃ invs c, createInvocations ghostProgram (0, 0, 0) = .ok invs ∧
        Reachable integerHost false ⟨oneWordMemory, invs⟩ c ∧
        c.round integerHost false = .error (.undeclaredVariable "ghost")) ∧
    (validate none bufferTargetProgram = [] ∧
      ∃ invs c, createInvocations bufferTargetProgram (0, 0, 0) = .ok invs ∧
        Reachable integerHost false ⟨oneWordMemory, invs⟩ c ∧
        c.round integerHost false = .error (.assignUndeclared "a")) := by
  refine ⟨⟨?_, ?_⟩, ?_, ?_⟩
  · decide
  · exact exists_reachable_error 2 ⟨_, rfl, rfl⟩
  · decide
  · exact exists_reachable_error 2 ⟨_, rfl, rfl⟩

end Vyre.Soundness
