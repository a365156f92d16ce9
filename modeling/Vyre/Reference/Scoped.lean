import Vyre.Reference.Solo

/-!
# Execution over environments

The statements of an invocation as operations on an environment: the values of
the names in scope, the names that may not be assigned, and the transfers in
flight. There is no scope stack; leaving a body forgets the names that were not
bound when it was entered. The invocation is alone: a collective sees its lane.

The machine records which way the branches around barriers go and compares the
records. Here a run is told beforehand, by a plan, which way each of them is
expected to go, and fails at the first that goes another way. A plan follows the
structure of the statements, so it can be carried to a rewritten program.

The module shows that the recursion over invocations, with its scope stack,
labels and recorded branches, computes the same.
-/

namespace Vyre.Reference

open Eval StateExcept

/-- What the statements of one invocation read and change besides the memory. -/
@[ext]
structure Thread where
  ids : InvocationIds
  index : UInt32
  vals : Ident → Option Value
  fixed : Ident → Bool
  pending : List (Ident × Transfer)

namespace Thread

variable (t : Thread)

def lane : Lane := ⟨t.ids, t.index, t.vals⟩

def set (name : Ident) (value : Value) : Thread :=
  { t with vals := fun key => if key = name then some value else t.vals key }

def bind (name : Ident) (value : Value) : Except Error Thread :=
  if (t.vals name).isSome then .error (.duplicateLocal name) else .ok (t.set name value)

def assign (name : Ident) (value : Value) : Except Error Thread :=
  if (t.vals name).isNone then .error (.assignUndeclared name)
  else if t.fixed name then .error (.assignLoopVariable name)
  else .ok (t.set name value)

def fix (name : Ident) : Thread :=
  { t with fixed := fun key => if key = name then true else t.fixed key }

def bindLoopVar (name : Ident) (value : Value) : Except Error Thread :=
  (t.bind name value).map (·.fix name)

/-- Back in `t` after a body that ended in `t'`. -/
def leave (t t' : Thread) : Thread :=
  { t' with
    vals := fun key => if (t.vals key).isSome then t'.vals key else none
    fixed := t.fixed }

def dropLocals : Thread :=
  { t with vals := Locals.new.locals, fixed := Locals.new.immutable }

def invocation : Invocation where
  ids := t.ids
  linearLocalIndex := t.index
  locals := ⟨t.vals, t.fixed, []⟩
  returned := false
  waitingAtBarrier := false
  uniformChecks := []
  frames := []
  pendingAsync := t.pending

end Thread

def Invocation.thread (inv : Invocation) : Thread :=
  ⟨inv.ids, inv.linearLocalIndex, inv.locals.locals, inv.locals.immutable, inv.pendingAsync⟩

def runLoop (body : Thread → Eval (Outcome Thread)) (var : Ident) :
    Nat → UInt32 → Thread → Eval (Outcome Thread)
  | 0, _, t => return .next t
  | left + 1, next, t => do
      let entered ← Eval.lift (t.bindLoopVar var (.u32 next))
      let out ← body entered
      out.andThen fun t' => runLoop body var left (next + 1) (t.leave t')

/-! ## Plans -/

/-- From a statement with a body to one of its bodies, or to the next. -/
inductive Turn where
  | inner
  | other
  | rest

/-- Which way the branches around barriers are expected to go, by their place
among the statements that have a body. -/
def Plan := List Turn → Bool

def hasBody : Node → Bool
  | .ifThen .. | .loop .. | .block .. | .region .. => true
  | _ => false

namespace Plan

def under (π : Plan) (turn : Turn) : Plan := fun path => π (turn :: path)

/-- For the statements after a statement. -/
def after (π : Plan) (n : Node) : Plan := if hasBody n then π.under .rest else π

/-- The plan of a statement with the given bodies. -/
def node (taken : Bool) (inner other : Plan) : Plan
  | [] => taken
  | .inner :: path => inner path
  | .other :: path => other path
  | .rest :: _ => false

/-- The plan of a statement, with that of the statements after it. -/
def withRest (π rest : Plan) : Plan
  | .rest :: path => rest path
  | path => π path

end Plan

/-- How the statements are run: the branches around barriers go as the plan
says, where the run is strict. -/
structure Route where
  host : Host
  strict : Bool
  plan : Plan

namespace Route

variable (ρ : Route)

def on (π : Plan) : Route := { ρ with plan := π }

def into (turn : Turn) : Route := ρ.on (ρ.plan.under turn)

def after (n : Node) : Route := ρ.on (ρ.plan.after n)

/-- The comparison of a branch with what is expected of it. -/
def check (guardsBarrier taken : Bool) : Eval Unit :=
  if ρ.strict && guardsBarrier then Eval.lift (verifyChecks [(0, ρ.plan [])] [(0, taken)])
  else pure ()

end Route

/-- A run of which nothing is expected. -/
instance : Coe Host Route := ⟨fun host => ⟨host, false, fun _ => false⟩⟩

section Run

mutual

def runNode : Route → Node → Thread → Eval (Outcome Thread)
  | ρ, .letBind name value, t => do
      let v ← evalExpr ρ.host [t.lane] value t.lane
      return .next (← Eval.lift (t.bind name v))
  | ρ, .assign name value, t => do
      let v ← evalExpr ρ.host [t.lane] value t.lane
      return .next (← Eval.lift (t.assign name v))
  | ρ, .ifThen cond thenNodes otherwise, t => do
      let c := (← evalExpr ρ.host [t.lane] cond t.lane).truthy ρ.host.floats
      ρ.check (containsBarrier thenNodes || containsBarrier otherwise) c
      Outcome.map t.leave <$>
        bif c then runNodes (ρ.into .inner) thenNodes t else runNodes (ρ.into .other) otherwise t
  | ρ, .loop var lo hi body, t => do
      let (next, stop) ← loopBounds ρ.host [t.lane] t.lane lo hi
      runLoop (runNodes (ρ.into .inner) body) var (stop.toNat - next.toNat) next t
  | _, .ret, t => return .returned t.dropLocals
  | ρ, .block body, t => Outcome.map t.leave <$> runNodes (ρ.into .inner) body t
  | ρ, .region _ _ body, t => Outcome.map t.leave <$> runNodes (ρ.into .inner) body t
  | ρ, n, t => do
      let inv ← executeNode ρ.host [t.lane] t.invocation 0 n
      return .next { t with pending := inv.pendingAsync }

def runNodes : Route → List Node → Thread → Eval (Outcome Thread)
  | _, [], t => return .next t
  | ρ, n :: ns, t => do
      let out ← runNode ρ n t
      out.andThen (runNodes (ρ.after n) ns)

end

end Run

/-- A body was entered from `base`, and its names are those of the innermost
scope. -/
structure Entered (base cur : Locals) : Prop where
  scopes : ∃ top, cur.scopes = top :: base.scopes ∧ (∀ x ∈ top, base.locals x = none) ∧
    (∀ x, (cur.locals x).isSome = true ↔ (base.locals x).isSome = true ∨ x ∈ top) ∧
    ∀ x, x ∉ top → cur.immutable x = base.immutable x
  fixed : ∀ x, cur.immutable x = true → (cur.locals x).isSome = true
  baseFixed : ∀ x, base.immutable x = true → (base.locals x).isSome = true

variable {base cur : Locals} {inv : Invocation} {memory : Memory}

theorem Entered.pushScope (h : ∀ x, base.immutable x = true → (base.locals x).isSome = true) :
    Entered base base.pushScope where
  scopes := ⟨[], rfl, by simp, by simp [Locals.pushScope], fun _ _ => rfl⟩
  fixed := h
  baseFixed := h

section

variable (h : Entered base cur)

include h

theorem Entered.popScope :
    cur.popScope = ⟨fun x => if (base.locals x).isSome then cur.locals x else none, base.immutable,
      base.scopes⟩ := by
  obtain ⟨top, hscopes, hnew, hdom, hfixed⟩ := h.scopes
  have hlocals : (fun key => if key ∈ top then none else cur.locals key) =
      fun x => if (base.locals x).isSome then cur.locals x else none := by
    funext x
    by_cases hx : x ∈ top
    · simp [hx, hnew x hx]
    · have hbound : (cur.locals x).isSome = (base.locals x).isSome := by
        rw [Bool.eq_iff_iff, hdom]
        simp [hx]
      cases hb : base.locals x <;> simp_all
  have himmutable :
      (fun key => if key ∈ top then false else cur.immutable key) = base.immutable := by
    funext x
    by_cases hx : x ∈ top
    · have := h.baseFixed x
      simp_all
    · simp [hx, hfixed x hx]
  simp only [Locals.popScope, hscopes, hlocals, himmutable]

theorem Entered.setLocal {name : Ident} (hname : (cur.locals name).isSome = true) (value : Value) :
    Entered base (cur.setLocal name value) := by
  obtain ⟨top, hscopes, hnew, hdom, hfixed⟩ := h.scopes
  have hsame : ∀ x, ((cur.setLocal name value).locals x).isSome = (cur.locals x).isSome := by
    intro x
    by_cases hx : x = name <;> simp [Locals.setLocal, hx, hname]
  exact ⟨⟨top, hscopes, hnew, fun x => by rw [hsame, hdom], hfixed⟩,
    fun x hx => by rw [hsame]; exact h.fixed x hx, h.baseFixed⟩

theorem Entered.addName {name : Ident} (hname : cur.locals name = none)
    (value : Value) (immutable : Ident → Bool)
    (himmutable : ∀ x, x ≠ name → immutable x = cur.immutable x) :
    Entered base ⟨(cur.setLocal name value).locals, immutable, Locals.addName name cur.scopes⟩ := by
  obtain ⟨top, hscopes, hnew, hdom, hfixed⟩ := h.scopes
  refine ⟨⟨name :: top, by simp only [hscopes, Locals.addName], ?_, ?_, ?_⟩, ?_, h.baseFixed⟩
  · intro x hx
    rcases List.mem_cons.mp hx with rfl | hx
    · have := hdom x
      simp_all
    · exact hnew x hx
  · intro x
    by_cases hx : x = name <;> simp [Locals.setLocal, hx, hdom]
  · intro x hx
    obtain ⟨hne, hx⟩ := not_or.mp (fun h => hx (List.mem_cons.mpr h))
    exact (himmutable x hne).trans (hfixed x hx)
  · intro x hx
    by_cases hxn : x = name
    · simp [Locals.setLocal, hxn]
    · have hfix := h.fixed x ((himmutable x hxn).symm.trans hx)
      simpa [Locals.setLocal, hxn] using hfix

theorem Entered.left {after : Locals} (hbody : Entered cur after) :
    Entered base after.popScope := by
  obtain ⟨top, hscopes, hnew, hdom, hfixed⟩ := h.scopes
  obtain ⟨_, -, -, hdom', -⟩ := hbody.scopes
  have hsame : ∀ x, (if (cur.locals x).isSome = true then after.locals x else none).isSome =
      (cur.locals x).isSome := by
    intro x
    split_ifs with hx
    · rw [hx]
      exact (hdom' x).mpr (.inl hx)
    · simpa using hx
  rw [hbody.popScope]
  exact ⟨⟨top, hscopes, hnew, fun x => by rw [hsame, hdom], hfixed⟩,
    fun x hx => by rw [hsame]; exact h.fixed x hx, h.baseFixed⟩

end

/-! ## The two executions agree -/

def Outcome.mapState {σ τ : Type} (f : σ → τ) : Outcome σ → Outcome τ
  | .next s => .next (f s)
  | .returned s => .returned (f s)

/-- The recorded branches went as the node ids are answered for. -/
def Agrees (answers : Nat → Bool) (checks : List (Nat × Bool)) : Prop :=
  ∀ x ∈ checks, x.2 = answers x.1

theorem consistent_iff_agrees {checks : List (Nat × Bool)} :
    Consistent checks ↔ ∃ answers, Agrees answers checks := by
  constructor
  · intro h
    refine ⟨fun id => decide ((id, true) ∈ checks), ?_⟩
    rintro ⟨id, taken⟩ hx
    cases taken with
    | true => simpa using hx
    | false => simpa using fun hy => Bool.false_ne_true (h (id, false) hx (id, true) hy rfl)
  · rintro ⟨answers, h⟩ x hx y hy hid
    rw [h x hx, h y hy, hid]

theorem Route.check_of_strict {ρ : Route} (hρ : ρ.strict = true) (guardsBarrier taken : Bool) :
    (guardsBarrier = true → taken = ρ.plan []) ∧ ρ.check guardsBarrier taken = pure () ∨
      guardsBarrier = true ∧ taken ≠ ρ.plan [] ∧ ∃ e, ρ.check guardsBarrier taken = fail e := by
  rw [Route.check, hρ]
  cases guardsBarrier with
  | false => exact .inl ⟨nofun, rfl⟩
  | true =>
    cases ρ.plan [] <;> cases taken <;>
      first | exact .inl ⟨fun _ => rfl, rfl⟩ | exact .inr ⟨rfl, nofun, _, rfl⟩

section Labels

variable (answers : Nat → Bool)

mutual

/-- The plan of a statement says what is answered for the labels in it. -/
def Reads : Plan → Node → Nat → Prop
  | π, .ifThen _ thenNodes otherwise, label => π [] = answers label ∧
      ReadsList (π.under .inner) thenNodes (label + 1) ∧
      ReadsList (π.under .other) otherwise (label + 1 + labelsList thenNodes)
  | π, .loop _ _ _ body, label => ReadsList (π.under .inner) body (label + 1)
  | π, .block body, label => ReadsList (π.under .inner) body label
  | π, .region _ _ body, label => ReadsList (π.under .inner) body (label + 1)
  | _, _, _ => True

def ReadsList : Plan → List Node → Nat → Prop
  | _, [], _ => True
  | π, n :: ns, label => Reads π n label ∧
      ReadsList (π.after n) ns (label + labels n)

end

end Labels

/-- The results of the two executions of a body that was entered from `base`,
when the branches in `before` were recorded. -/
structure Matches (answers : Nat → Bool) (base : Locals) (before : List (Nat × Bool))
    (r : Except Error (Outcome Invocation × Memory))
    (r' : Except Error (Outcome Thread × Memory)) : Prop where
  grows : ∀ {out memory}, r = .ok (out, memory) → before ⊆ out.state.uniformChecks
  run : ∀ {out memory}, r = .ok (out, memory) → Agrees answers out.state.uniformChecks →
    r' = .ok (out.mapState Invocation.thread, memory)
  exec : ∀ {out' memory}, r' = .ok (out', memory) → ∃ out, r = .ok (out, memory) ∧
    out' = out.mapState Invocation.thread ∧
    (Agrees answers before → Agrees answers out.state.uniformChecks)
  entered : ∀ {inv memory}, r = .ok (.next inv, memory) → Entered base inv.locals

variable {answers : Nat → Bool} {before : List (Nat × Bool)}

theorem Matches.pure (h : Entered base inv.locals) (hsub : before ⊆ inv.uniformChecks)
    (hsame : Agrees answers before → Agrees answers inv.uniformChecks) (memory : Memory) :
    Matches answers base before ((Pure.pure (.next inv) : Eval (Outcome Invocation)) memory)
      ((Pure.pure (.next inv.thread) : Eval (Outcome Thread)) memory) where
  grows heq := by
    cases heq
    exact hsub
  run heq _ := by
    cases heq
    rfl
  exec heq := by
    cases heq
    exact ⟨_, rfl, rfl, hsame⟩
  entered heq := by
    cases heq
    exact h

theorem Matches.error (e e' : Error) : Matches answers base before (.error e) (.error e') :=
  ⟨nofun, nofun, nofun, nofun⟩

theorem Matches.andThen {base' : Locals} {x : Eval (Outcome Invocation)}
    {x' : Eval (Outcome Thread)} {f : Invocation → Eval (Outcome Invocation)}
    {f' : Thread → Eval (Outcome Thread)} (hx : Matches answers base before (x memory) (x' memory))
    (hf : ∀ inv memory, Entered base inv.locals →
      Matches answers base' inv.uniformChecks (f inv memory) (f' inv.thread memory)) :
    Matches answers base' before ((x >>= fun out => out.andThen f) memory)
      ((x' >>= fun out => out.andThen f') memory) where
  grows heq := by
    obtain ⟨out₁, m₁, hout₁, hrest⟩ := bind_eq_ok.mp heq
    cases out₁ with
    | next inv =>
      exact List.Subset.trans (hx.grows hout₁) ((hf inv m₁ (hx.entered hout₁)).grows hrest)
    | returned inv =>
      cases hrest
      exact hx.grows hout₁
  run heq hagrees := by
    obtain ⟨out₁, m₁, hout₁, hrest⟩ := bind_eq_ok.mp heq
    cases out₁ with
    | next inv =>
      have hfm := hf inv m₁ (hx.entered hout₁)
      have hrun := hx.run hout₁ fun x hx => hagrees x (hfm.grows hrest hx)
      exact bind_eq_ok.mpr ⟨_, m₁, hrun, hfm.run hrest hagrees⟩
    | returned inv =>
      cases hrest
      exact bind_eq_ok.mpr ⟨_, _, hx.run hout₁ hagrees, rfl⟩
  exec heq := by
    obtain ⟨out₁', m₁, hout₁', hrest'⟩ := bind_eq_ok.mp heq
    obtain ⟨out₁, hout₁, rfl, hsame₁⟩ := hx.exec hout₁'
    cases out₁ with
    | next inv =>
      obtain ⟨out, hrest, hout, hsame⟩ := (hf inv m₁ (hx.entered hout₁)).exec hrest'
      exact ⟨out, bind_eq_ok.mpr ⟨_, m₁, hout₁, hrest⟩, hout, fun h => hsame (hsame₁ h)⟩
    | returned inv =>
      cases hrest'
      exact ⟨_, bind_eq_ok.mpr ⟨_, _, hout₁, rfl⟩, rfl, hsame₁⟩
  entered heq := by
    obtain ⟨out₁, m₁, hout₁, hrest⟩ := bind_eq_ok.mp heq
    cases out₁ with
    | next inv => exact (hf inv m₁ (hx.entered hout₁)).entered hrest
    | returned inv => cases hrest

theorem Matches.bind {α : Type} {x : Eval α} {f : α → Eval (Outcome Invocation)}
    {f' : α → Eval (Outcome Thread)}
    (hf : ∀ a memory, Matches answers base before (f a memory) (f' a memory)) :
    Matches answers base before ((x >>= f) memory) ((x >>= f') memory) := by
  show Matches answers base before (x memory >>= fun p => f p.1 p.2)
    (x memory >>= fun p => f' p.1 p.2)
  cases x memory with
  | error e => exact .error e e
  | ok p => exact hf p.1 p.2

theorem Entered.thread_leaveScope {after : Invocation} (h : Entered inv.locals after.locals) :
    after.leaveScope.thread = inv.thread.leave after.thread := by
  simp only [Invocation.leaveScope, h.popScope]
  rfl

theorem Matches.scoped (h : Entered base inv.locals) {x : Eval (Outcome Invocation)}
    {x' : Eval (Outcome Thread)} (hx : Matches answers inv.locals before (x memory) (x' memory)) :
    Matches answers base before ((Outcome.map .leaveScope <$> x) memory)
      ((Outcome.map inv.thread.leave <$> x') memory) := by
  have hleave : ∀ {out m}, x memory = .ok (out, m) →
      (out.map .leaveScope).mapState Invocation.thread =
        Outcome.map inv.thread.leave (out.mapState Invocation.thread) ∧
      (out.map .leaveScope).state.uniformChecks = out.state.uniformChecks := by
    intro out m hout
    cases out with
    | next after => exact ⟨congrArg Outcome.next (hx.entered hout).thread_leaveScope, rfl⟩
    | returned after => exact ⟨rfl, rfl⟩
  constructor
  case grows =>
    intro out m heq
    obtain ⟨out₁, _, hout, heq⟩ := map_eq_ok.mp heq
    cases heq
    rw [(hleave hout).2]
    exact hx.grows hout
  case run =>
    intro out m heq hagrees
    obtain ⟨out₁, _, hout, heq⟩ := map_eq_ok.mp heq
    cases heq
    rw [(hleave hout).2] at hagrees
    exact map_eq_ok.mpr ⟨_, m, hx.run hout hagrees, by rw [(hleave hout).1]⟩
  case exec =>
    intro out' m heq
    obtain ⟨out₁', _, hout', heq⟩ := map_eq_ok.mp heq
    cases heq
    obtain ⟨out, hout, rfl, hsame⟩ := hx.exec hout'
    refine ⟨_, map_eq_ok.mpr ⟨out, m, hout, rfl⟩, (hleave hout).1.symm, ?_⟩
    rw [(hleave hout).2]
    exact hsame
  case entered =>
    intro after m heq
    obtain ⟨out₁, _, hout, heq⟩ := map_eq_ok.mp heq
    cases out₁ with
    | returned inv => cases heq
    | next inv' =>
      cases heq
      exact h.left (hx.entered hout)

/-- A recorded branch is compared with what is answered for it. -/
theorem Matches.checked {ρ : Route} (hρ : ρ.strict = true) {id : Nat} (hid : ρ.plan [] = answers id)
    {guards c : Bool} {x : Eval (Outcome Invocation)} {x' : Eval (Outcome Thread)}
    (hx : Matches answers base (inv.recordBranch guards id c).uniformChecks (x memory)
      (x' memory)) :
    Matches answers base inv.uniformChecks (x memory)
      ((ρ.check guards c >>= fun _ => x') memory) := by
  have hsub : inv.uniformChecks ⊆ (inv.recordBranch guards id c).uniformChecks := by
    cases guards <;> simp [Invocation.recordBranch]
  rcases ρ.check_of_strict hρ guards c with ⟨htaken, hcheck⟩ | ⟨rfl, hne, e, hcheck⟩
  · rw [hcheck]
    have hsame : Agrees answers inv.uniformChecks →
        Agrees answers (inv.recordBranch guards id c).uniformChecks := by
      intro h
      cases guards with
      | false => exact h
      | true =>
        rw [hid] at htaken
        exact List.forall_mem_append.mpr ⟨h, by simpa using htaken⟩
    refine ⟨fun heq => List.Subset.trans hsub (hx.grows heq), hx.run, fun heq => ?_, hx.entered⟩
    obtain ⟨out, hout, heq, hagrees⟩ := hx.exec heq
    exact ⟨out, hout, heq, fun h => hagrees (hsame h)⟩
  · rw [hcheck]
    refine ⟨fun heq => List.Subset.trans hsub (hx.grows heq), fun heq hagrees => ?_,
      nofun, hx.entered⟩
    -- The branch that was recorded is not the one that is answered for.
    have hrecord := hagrees (id, c) (hx.grows heq (by simp [Invocation.recordBranch]))
    exact absurd (hrecord.trans hid.symm) hne

section Agreement

variable {host : Host} {π : Plan}

section

variable (h : Entered base inv.locals)

include h

theorem matches_letBind (ρ : Route) (name : Ident) (value : Expr) (label : Nat) (memory : Memory) :
    Matches answers base inv.uniformChecks
      (execNode ρ.host true (.letBind name value) label inv memory)
      (runNode ρ (.letBind name value) inv.thread memory) := by
  have hvals : inv.thread.vals = inv.locals.locals := rfl
  simp only [execNode, executeNode, runNode, bind_assoc, Locals.bind, Thread.bind, hvals]
  refine Matches.bind fun v m => ?_
  split_ifs with hname
  · exact .error _ _
  · exact @Matches.pure base { inv with locals := _, waitingAtBarrier := false } _ _
      (h.addName (by simpa using hname) v _ fun _ _ => rfl) (List.Subset.refl _) id m

theorem matches_assign (ρ : Route) (name : Ident) (value : Expr) (label : Nat) (memory : Memory) :
    Matches answers base inv.uniformChecks
      (execNode ρ.host true (.assign name value) label inv memory)
      (runNode ρ (.assign name value) inv.thread memory) := by
  have hvals : inv.thread.vals = inv.locals.locals := rfl
  have hfix : inv.thread.fixed = inv.locals.immutable := rfl
  simp only [execNode, executeNode, runNode, bind_assoc, Locals.assign, Thread.assign, hvals, hfix]
  refine Matches.bind fun v m => ?_
  split_ifs with hname hfixed
  · exact .error _ _
  · exact .error _ _
  · exact @Matches.pure base { inv with locals := _, waitingAtBarrier := false } _ _
      (h.setLocal (by simpa [Option.isSome_iff_ne_none] using hname) v) (List.Subset.refl _) id m

theorem matches_simple (ρ : Route) {n : Node} (hn : changesNoLocal n = true) (label : Nat)
    (memory : Memory) : Matches answers base inv.uniformChecks
      (execNode ρ.host true n label inv memory) (runNode ρ n inv.thread memory) := by
  have hexec : execNode ρ.host true n label inv = (fun i => .next (inv.withEffect n i).released) <$>
      executeNode ρ.host [inv.thread.lane] inv.thread.invocation 0 n :=
    execNode_withEffect hn inv inv.thread.invocation rfl rfl label 0
  have hrun : runNode ρ n inv.thread =
      (fun i => .next { inv.thread with pending := i.pendingAsync }) <$>
        executeNode ρ.host [inv.thread.lane] inv.thread.invocation 0 n := by
    cases n <;> first | rfl | cases hn
  rw [hexec, hrun, map_eq_pure_bind, map_eq_pure_bind]
  exact Matches.bind fun i m =>
    @Matches.pure base (inv.withEffect n i).released _ _ h (List.Subset.refl _) id m

end

theorem matches_loop {ρ : Route} {body : List Node} {label : Nat}
    (hbody : ∀ base inv memory, Entered base inv.locals →
      Matches answers base inv.uniformChecks (execNodes ρ.host true body label inv memory)
        (runNodes ρ body inv.thread memory))
    (var : Ident) (left : Nat) (next : UInt32)
    (h : Entered base inv.locals) (memory : Memory) :
    Matches answers base inv.uniformChecks
      (execLoop (execNodes ρ.host true body label) var left next inv memory)
      (runLoop (runNodes ρ body) var left next inv.thread memory) := by
  induction left generalizing next inv memory with
  | zero => exact .pure h (List.Subset.refl _) id memory
  | succ left ih =>
    have hvals : inv.thread.vals = inv.locals.pushScope.locals := rfl
    simp only [execLoop, runLoop, Locals.bindLoopVar, Locals.bind, Thread.bindLoopVar,
      Thread.bind, hvals]
    split_ifs with hlocals
    · exact .error _ _
    · have hentered := @Entered.addName _ _ (Entered.pushScope h.fixed) var (by simpa using hlocals)
        (.u32 next) (fun key => if key = var then true else inv.locals.immutable key)
        fun x hx => by simp [hx, Locals.pushScope]
      refine Matches.andThen (hbody _ { inv with locals := _ } memory hentered) ?_
      intro after m hafter
      rw [← hafter.thread_leaveScope]
      exact @ih after.leaveScope (next + 1) (h.left hafter) m

/-- The structured run of statements answers for their labels. -/
def Answered (answers : Nat → Bool) (n : Node) : Prop :=
  ∀ (ρ : Route) label base inv memory, ρ.strict = true →
    Reads (fun label => answers (ρ.host.nodeId label)) ρ.plan n label → Entered base inv.locals →
    Matches answers base inv.uniformChecks (execNode ρ.host true n label inv memory)
      (runNode ρ n inv.thread memory)

theorem matches_nodes {nodes : List Node} (hnodes : ∀ n ∈ nodes, Answered answers n) (ρ : Route)
    (label : Nat) (base : Locals) (inv : Invocation) (memory : Memory) (hρ : ρ.strict = true)
    (hreads : ReadsList (fun label => answers (ρ.host.nodeId label)) ρ.plan nodes label)
    (h : Entered base inv.locals) :
    Matches answers base inv.uniformChecks (execNodes ρ.host true nodes label inv memory)
      (runNodes ρ nodes inv.thread memory) := by
  induction nodes generalizing ρ label inv memory with
  | nil => exact .pure h (List.Subset.refl _) id memory
  | cons n ns ih =>
    refine Matches.andThen (hnodes n (by simp) ρ label base inv memory hρ hreads.1 h) ?_
    intro after m hafter
    exact ih (fun n hn => hnodes n (by simp [hn])) (ρ.after n) _ after m hρ hreads.2 hafter

theorem matches_node (n : Node) : Answered answers n := by
  induction n with
  | letBind name value =>
    exact fun ρ label base inv m _ _ h => matches_letBind h ρ name value label m
  | assign name value => exact fun ρ label base inv m _ _ h => matches_assign h ρ name value label m
  | ifThen cond thenNodes otherwise ihThen ihElse =>
    intro ρ label base inv memory hρ hreads h
    refine Matches.bind fun v m => ?_
    generalize hc : v.truthy ρ.host.floats = c
    refine Matches.checked hρ hreads.1 ?_
    have hrecord : ∀ guards id, (inv.recordBranch guards id c).thread = inv.thread ∧
        (inv.recordBranch guards id c).locals = inv.locals := by
      intro guards id
      cases guards <;> exact ⟨rfl, rfl⟩
    obtain ⟨hthread, hlocals⟩ :=
      hrecord (containsBarrier thenNodes || containsBarrier otherwise) (ρ.host.nodeId label)
    generalize inv.recordBranch (containsBarrier thenNodes || containsBarrier otherwise)
      (ρ.host.nodeId label) c = recorded at hthread hlocals ⊢
    rw [← hthread]
    rw [← hlocals] at h
    cases c with
    | true =>
      exact .scoped h (matches_nodes ihThen (ρ.into .inner) _ _ recorded.enterScope m hρ hreads.2.1
        (.pushScope h.fixed))
    | false =>
      exact .scoped h (matches_nodes ihElse (ρ.into .other) _ _ recorded.enterScope m hρ hreads.2.2
        (.pushScope h.fixed))
  | loop var lo hi body ih =>
    intro ρ label base inv memory hρ hreads h
    refine Matches.bind fun bounds m => ?_
    exact matches_loop (fun base inv m h =>
      matches_nodes ih (ρ.into .inner) (label + 1) base inv m hρ hreads h) var _ _ h m
  | ret => exact fun ρ label base inv m _ _ _ => ⟨by rintro _ _ ⟨⟩; exact List.Subset.refl _,
      by rintro _ _ ⟨⟩ _; rfl, by rintro _ _ ⟨⟩; exact ⟨_, rfl, rfl, id⟩, nofun⟩
  | block body ih =>
    exact fun ρ label base inv m hρ hreads h => .scoped h
      (matches_nodes ih (ρ.into .inner) label _ inv.enterScope m hρ hreads (.pushScope h.fixed))
  | region _ _ body ih =>
    exact fun ρ label base inv m hρ hreads h => .scoped h
      (matches_nodes ih (ρ.into .inner) (label + 1) _ inv.enterScope m hρ hreads
        (.pushScope h.fixed))
  | _ => exact fun ρ label base inv m _ _ h => matches_simple h ρ rfl label m

end Agreement

/-! ## Plans and answers -/

section Answers

variable {σ σ' : Nat → Bool} {π : Plan}

theorem readsList_of_nodes {ns : List Node} (h : ∀ n ∈ ns, ∀ label, ∃ π, Reads σ π n label)
    (label : Nat) : ∃ π, ReadsList σ π ns label := by
  induction ns generalizing label with
  | nil => exact ⟨fun _ => false, trivial⟩
  | cons n ns ih =>
    obtain ⟨π, hn⟩ := h n (by simp) label
    obtain ⟨rest, hns⟩ := ih (fun n hn => h n (by simp [hn])) (label + labels n)
    cases n with
    | ifThen | loop | block | region => exact ⟨π.withRest rest, hn, hns⟩
    | _ => exact ⟨rest, trivial, hns⟩

/-- Every answer for the labels is what some plan says. -/
theorem reads_exists (n : Node) (label : Nat) : ∃ π, Reads σ π n label := by
  induction n generalizing label with
  | ifThen cond thenNodes otherwise ihThen ihElse =>
    obtain ⟨inner, hinner⟩ := readsList_of_nodes ihThen (label + 1)
    obtain ⟨other, hother⟩ := readsList_of_nodes ihElse (label + 1 + labelsList thenNodes)
    exact ⟨.node (σ label) inner other, rfl, hinner, hother⟩
  | loop var lo hi body ih | region _ _ body ih =>
    obtain ⟨inner, hinner⟩ := readsList_of_nodes ih (label + 1)
    exact ⟨.node false inner inner, hinner⟩
  | block body ih =>
    obtain ⟨inner, hinner⟩ := readsList_of_nodes ih label
    exact ⟨.node false inner inner, hinner⟩
  | _ => exact ⟨fun _ => false, trivial⟩

theorem readsList_congr {ns : List Node}
    (h : ∀ n ∈ ns, ∀ (π : Plan) label, (∀ k, label ≤ k → k < label + labels n → σ k = σ' k) →
      Reads σ π n label → Reads σ' π n label) (π : Plan) {label : Nat}
    (hsame : ∀ k, label ≤ k → k < label + labelsList ns → σ k = σ' k)
    (hreads : ReadsList σ π ns label) : ReadsList σ' π ns label := by
  induction ns generalizing π label with
  | nil => trivial
  | cons n ns ih =>
    rw [labelsList] at hsame
    exact ⟨h n (by simp) π label (fun k hk hlt => hsame k hk (by omega)) hreads.1,
      ih (fun n hn => h n (by simp [hn])) _
        (fun k hk hlt => hsame k (by omega) (by omega)) hreads.2⟩

theorem reads_congr (n : Node) (π : Plan) {label : Nat}
    (hsame : ∀ k, label ≤ k → k < label + labels n → σ k = σ' k) (hreads : Reads σ π n label) :
    Reads σ' π n label := by
  induction n generalizing π label with
  | ifThen cond thenNodes otherwise ihThen ihElse =>
    rw [labels] at hsame
    exact ⟨hreads.1.trans (hsame label (by omega) (by omega)),
      readsList_congr (fun n hn π label => ihThen n hn π) _
        (fun k hk hlt => hsame k (by omega) (by omega)) hreads.2.1,
      readsList_congr (fun n hn π label => ihElse n hn π) _
        (fun k hk hlt => hsame k (by omega) (by omega)) hreads.2.2⟩
  | loop var lo hi body ih | region _ _ body ih =>
    rw [labels] at hsame
    exact readsList_congr (fun n hn π label => ih n hn π) _
      (fun k hk hlt => hsame k (by omega) (by omega)) hreads
  | block body ih => exact readsList_congr (fun n hn π label => ih n hn π) _ hsame hreads
  | _ => trivial

/-- Answers for the labels below a bound, and others for those from it on. -/
def answersBelow (bound : Nat) (σ σ' : Nat → Bool) (label : Nat) : Bool :=
  if label < bound then σ label else σ' label

theorem answers_of_nodes {ns : List Node} (h : ∀ n ∈ ns, ∀ (π : Plan) label, ∃ σ, Reads σ π n label)
    (π : Plan) (label : Nat) : ∃ σ, ReadsList σ π ns label := by
  induction ns generalizing π label with
  | nil => exact ⟨fun _ => false, trivial⟩
  | cons n ns ih =>
    obtain ⟨σ, hn⟩ := h n (by simp) π label
    obtain ⟨σ', hns⟩ := ih (fun n hn => h n (by simp [hn])) (π.after n) (label + labels n)
    refine ⟨answersBelow (label + labels n) σ σ', reads_congr n π (fun k hk hlt => ?_) hn,
      readsList_congr (fun n _ π label => reads_congr n π) _ (fun k hk hlt => ?_) hns⟩
    · rw [answersBelow, if_pos hlt]
    · rw [answersBelow, if_neg (by omega)]

/-- Every plan is an answer for the labels. -/
theorem answers_exist (n : Node) (π : Plan) (label : Nat) : ∃ σ, Reads σ π n label := by
  induction n generalizing π label with
  | ifThen cond thenNodes otherwise ihThen ihElse =>
    obtain ⟨σ, hinner⟩ := answers_of_nodes ihThen (π.under .inner) (label + 1)
    obtain ⟨σ', hother⟩ :=
      answers_of_nodes ihElse (π.under .other) (label + 1 + labelsList thenNodes)
    refine ⟨answersBelow (label + 1) (fun _ => π [])
      (answersBelow (label + 1 + labelsList thenNodes) σ σ'), ?_,
      readsList_congr (fun n _ π label => reads_congr n π) _ (fun k hk hlt => ?_) hinner,
      readsList_congr (fun n _ π label => reads_congr n π) _ (fun k hk hlt => ?_) hother⟩
    · rw [answersBelow, if_pos (Nat.lt_succ_self label)]
    · rw [answersBelow, if_neg (by omega), answersBelow, if_pos hlt]
    · rw [answersBelow, if_neg (by omega), answersBelow, if_neg (by omega)]
  | loop var lo hi body ih | region _ _ body ih =>
    exact answers_of_nodes ih (π.under .inner) (label + 1)
  | block body ih => exact answers_of_nodes ih (π.under .inner) label
  | _ => exact ⟨fun _ => false, trivial⟩

end Answers

/-! ## Runs of one invocation -/

/-- An invocation by itself runs `entry` along a route to the end without an
error, and leaves `m'` and no transfer in flight. -/
def EndsOk (ρ : Route) (entry : List Node) (ids : InvocationIds) (index : UInt32)
    (m m' : Memory) : Prop :=
  ∃ out, runNodes ρ entry (Invocation.start ids index).thread m = .ok (out, m') ∧
    out.state.pending = []

section Runs

variable {host : Host} {debugIds : InvocationIds → String} {entry : List Node}
  {ids : InvocationIds} {index : UInt32} {m m' : Memory} {π : Plan}

theorem endsOk_iff_exec
    (hreads : ReadsList (fun label => answers (host.nodeId label)) π entry 0) :
    EndsOk ⟨host, true, π⟩ entry ids index m m' ↔
      ∃ out, execNodes host true entry 0 (Invocation.start ids index) m = .ok (out, m') ∧
        Agrees answers out.state.uniformChecks ∧ out.state.pendingAsync = [] := by
  have hentered : Entered ⟨fun _ => none, fun _ => false, []⟩ (Invocation.start ids index).locals :=
    .pushScope fun x hx => by cases hx
  have hmatch := matches_nodes (fun n _ => matches_node n) ⟨host, true, π⟩ 0 _
    (Invocation.start ids index) m rfl hreads hentered
  have hpending : ∀ out : Outcome Invocation,
      (out.mapState Invocation.thread).state.pending = out.state.pendingAsync :=
    fun out => by cases out <;> rfl
  constructor
  · rintro ⟨out', hrun, hnone⟩
    obtain ⟨out, hexec, rfl, hagrees⟩ := hmatch.exec hrun
    exact ⟨out, hexec, hagrees fun x hx => (List.not_mem_nil hx).elim,
      (hpending out).symm.trans hnone⟩
  · rintro ⟨out, hexec, hagrees, hnone⟩
    exact ⟨_, hmatch.run hexec hagrees, (hpending out).trans hnone⟩

theorem RunsAlone.answered (h : RunsAlone host debugIds entry ids index m m') :
    ∃ (answers : Nat → Bool) (π : Plan),
      ReadsList (fun label => answers (host.nodeId label)) π entry 0 ∧
      EndsOk ⟨host, true, π⟩ entry ids index m m' := by
  obtain ⟨out, hexec, hchecks, hpending⟩ := (runsAlone_iff ..).mp h
  obtain ⟨answers, hagrees⟩ := consistent_iff_agrees.mp hchecks
  obtain ⟨π, hreads⟩ : ∃ π, ReadsList (fun label => answers (host.nodeId label)) π entry 0 :=
    readsList_of_nodes (fun n _ => reads_exists n) 0
  exact ⟨answers, π, hreads, (endsOk_iff_exec hreads).mpr ⟨out, hexec, hagrees, hpending⟩⟩

theorem EndsOk.runsAlone (h : EndsOk ⟨host, true, π⟩ entry ids index m m') (answers : Nat → Bool)
    (hreads : ReadsList (fun label => answers (host.nodeId label)) π entry 0) :
    RunsAlone host debugIds entry ids index m m' := by
  obtain ⟨out, hexec, hagrees, hpending⟩ := (endsOk_iff_exec hreads).mp h
  exact (runsAlone_iff ..).mpr ⟨out, hexec, consistent_iff_agrees.mpr ⟨_, hagrees⟩, hpending⟩

/-- The machine with one invocation and the structured run agree: it ends without
an error exactly when one answer for each node id makes a plan along which the
structured run ends. -/
theorem runsAlone_iff_endsOk (host : Host) (debugIds : InvocationIds → String) (entry : List Node)
    (ids : InvocationIds) (index : UInt32) (m m' : Memory) :
    RunsAlone host debugIds entry ids index m m' ↔
      ∃ (answers : Nat → Bool) (π : Plan),
        ReadsList (fun label => answers (host.nodeId label)) π entry 0 ∧
        EndsOk ⟨host, true, π⟩ entry ids index m m' :=
  ⟨RunsAlone.answered, fun ⟨answers, _, hreads, h⟩ => h.runsAlone answers hreads⟩

/-- Where the node ids tell the statements apart, any plan will do. -/
theorem EndsOk.runsAlone_of_injective (hids : Function.Injective host.nodeId)
    (h : EndsOk ⟨host, true, π⟩ entry ids index m m') :
    RunsAlone host debugIds entry ids index m m' := by
  obtain ⟨σ, hreads⟩ := answers_of_nodes (fun n _ => answers_exist n) π 0
  have hreads' : ReadsList (fun label => σ (Function.invFun host.nodeId (host.nodeId label)))
      π entry 0 := by
    simpa only [Function.leftInverse_invFun hids _] using hreads
  exact h.runsAlone (fun id => σ (Function.invFun host.nodeId id)) hreads'

/-- What ends along some plan wherever `entry` ends along one. -/
theorem RunsAlone.of_plans (hids : Function.Injective host.nodeId) {entry' : List Node}
    (h : RunsAlone host debugIds entry ids index m m')
    (hplan : ∀ π, EndsOk ⟨host, true, π⟩ entry ids index m m' →
      ∃ π', EndsOk ⟨host, true, π'⟩ entry' ids index m m') :
    RunsAlone host debugIds entry' ids index m m' := by
  obtain ⟨_, π, -, hrun⟩ := h.answered
  obtain ⟨π', hrun'⟩ := hplan π hrun
  exact hrun'.runsAlone_of_injective hids

end Runs

end Vyre.Reference
