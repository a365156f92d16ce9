import Vyre.Reference.Kernel

/-!
# Runs that follow runs

Rules for showing that the statements of one program follow those of another:
from related environments and memories, what succeeds in the one succeeds in the
other, and leaves related environments and memories. There is a rule for every
statement; the rules ask for its parts.
-/

namespace Vyre.Reference

open Eval StateExcept

/-- Both go on in environments that are related, or, where that may be, both
return in the same one. -/
def OutcomesIn (mayReturn : Prop) (B : Thread → Thread → Prop) :
    Outcome Thread → Outcome Thread → Prop
  | .next t, .next t' => B t t'
  | .returned t, .returned t' => mayReturn ∧ t = t'
  | _, _ => False

/-- The runs of `y` follow those of `x`, to environments in `B`. -/
abbrev Sim (mayReturn : Prop) (R : Memory → Memory → Prop) (B : Thread → Thread → Prop)
    (x y : Eval (Outcome Thread)) : Prop :=
  Relates R (OutcomesIn mayReturn B) x y

theorem OutcomesIn.next {B : Thread → Thread → Prop} {out out' : Outcome Thread}
    (h : OutcomesIn False B out out') : ∃ t t', out = .next t ∧ out' = .next t' ∧ B t t' := by
  cases out <;> cases out' <;> first | exact ⟨_, _, rfl, rfl, h⟩ | exact h.elim | exact h.1.elim

theorem OutcomesIn.pending {q : Prop} {B : Thread → Thread → Prop} {out out' : Outcome Thread}
    (h : OutcomesIn q B out out') (hB : ∀ t t', B t t' → t'.pending = t.pending) :
    out'.state.pending = out.state.pending := by
  cases out <;> cases out' <;> first | exact hB _ _ h | exact h.elim | exact congrArg _ h.2.symm

variable {q : Prop} {R : Memory → Memory → Prop} {B C : Thread → Thread → Prop} {host : Host}
  {t t' : Thread} {ρ : Route} {π π' : Plan}

def fetch (source destination : Ident) (start count : Nat) : Eval (List UInt8) := do
  let memory ← get
  let payload ← Eval.lift (readBytes memory source start count)
  let _ ← Eval.lift (memory.resolveBuffer destination)
  return payload

/-- The accesses of a statement without a body run the same from related memories. -/
def NodeAccesses (R : Memory → Memory → Prop) (host : Host) : Node → Prop
  | .store buffer _ _ => ∀ idx v, Respects R (storeElement host.floats buffer idx v)
  | .asyncLoad source destination _ _ _ | .asyncStore source destination _ _ _ =>
      ∀ start count, Respects R (fetch source destination start count)
  | .asyncWait _ => ∀ transfer, Respects R (applyAsyncTransfer transfer)
  | _ => True

theorem nodeAccesses_eq (n : Node) : NodeAccesses Eq host n := by
  cases n <;> simp [NodeAccesses, respects_eq]

theorem nodeAccesses_shaped (m₀ : Memory) (n : Node) : NodeAccesses (Shaped m₀) host n := by
  have hget : Respects (Shaped m₀) (get : Eval Memory) := Keeps.respects Keeps.get m₀
  cases n with
  | store buffer index value =>
    refine fun idx v => Keeps.respects (fun m u m' h => ?_) m₀
    obtain ⟨b, hb, rfl⟩ := storeElement_eq_ok.mp h
    exact Memory.update_shape hb (b.store_shape _ idx v)
  | asyncLoad | asyncStore =>
    exact fun _ _ => hget.bind fun _ => (follows_lift _).bind fun _ =>
      (follows_lift _).bind fun _ => .pure rfl
  | asyncWait tag =>
    refine fun transfer => Keeps.respects (fun m u m' h => ?_) m₀
    simp only [applyAsyncTransfer, bind_eq_ok, lift_eq_ok, resolveBuffer_eq_ok] at h
    obtain ⟨_, _, ⟨⟩, b, _, ⟨hb, rfl⟩, h⟩ := h
    split at h <;> cases h
    · refine Memory.update_shape hb (Buffer.overwrite_shape ?_)
      rw [List.length_take]
      omega
    · rfl
  | _ => trivial

@[simp] theorem Route.on_host : (ρ.on π).host = ρ.host := rfl

theorem follows_check (htaken : π' [] = π []) {guards guards' : Bool}
    (hguards : guards' = true → guards = true) (c : Bool) :
    Follows R ((ρ.on π).check guards c) ((ρ.on π').check guards' c) := by
  have hsame : (ρ.on π').check guards' c = (ρ.on π).check guards' c := by
    simp only [Route.check, Route.on, htaken]
    rfl
  rw [hsame]
  cases guards' with
  | true =>
    rw [hguards rfl]
    unfold Route.check
    split
    · exact follows_lift _
    · exact .pure rfl
  | false =>
    intro m m' u m₁ hR hrun
    obtain rfl := Route.check_memory hrun
    have hfree : (ρ.on π).check false c = pure () := by simp [Route.check]
    rw [hfree]
    exact ⟨(), m', rfl, rfl, hR⟩

def PlainOperands (P : Expr → Prop) : Node → Prop
  | .store _ e e' | .asyncLoad _ _ e e' _ | .asyncStore _ _ e e' _ => P e ∧ P e'
  | .trap e _ => P e
  | _ => True

theorem plainOperands_of_all {P : Expr → Prop} (h : ∀ e, P e) (n : Node) : PlainOperands P n := by
  cases n <;> simp [PlainOperands, h]

def mapPlain (g : Expr → Expr) : Node → Option Node
  | .store buffer index value => some (.store buffer (g index) (g value))
  | .asyncLoad source destination offset size tag =>
      some (.asyncLoad source destination (g offset) (g size) tag)
  | .asyncStore source destination offset size tag =>
      some (.asyncStore source destination (g offset) (g size) tag)
  | .trap address tag => some (.trap (g address) tag)
  | .letBind .. | .assign .. | .ifThen .. | .loop .. | .ret | .block .. | .region .. => none
  | n => some n

namespace Sim

variable {x y : Eval (Outcome Thread)}

theorem imp (h : Sim q R B x y)
    (hB : ∀ u u', (∃ m m₁, x m = .ok (.next u, m₁)) → B u u' → C u u') : Sim q R C x y := by
  intro m m' out m₁ hR hrun
  obtain ⟨out', m₁', hrun', hout, hR'⟩ := h m m' out m₁ hR hrun
  refine ⟨out', m₁', hrun', ?_, hR'⟩
  cases out with
  | returned u => cases out' <;> exact hout
  | next u =>
    cases out' with
    | returned u' => exact hout
    | next u' => exact hB u u' ⟨m, m₁, hrun⟩ hout

theorem andThen {f f' : Thread → Eval (Outcome Thread)} (h : Sim q R B x y)
    (hf : ∀ u u', B u u' → Sim q R C (f u) (f' u')) :
    Sim q R C (x >>= fun out => out.andThen f) (y >>= fun out => out.andThen f') := by
  refine Relates.bind h fun out out' hout => ?_
  cases out <;> cases out' <;> first | exact hf _ _ hout | exact hout.elim | exact .pure hout

theorem map {f f' : Thread → Thread} (h : Sim q R (fun u u' => B (f u) (f' u')) x y) :
    Sim q R B (Outcome.map f <$> x) (Outcome.map f' <$> y) := by
  refine Relates.bind h fun out out' hout => .pure ?_
  cases out <;> cases out' <;> exact hout

theorem trans {z : Eval (Outcome Thread)} {D : Thread → Thread → Prop} (h : Sim q R B x y)
    (h' : Sim q Eq C y z) (hD : ∀ {u u' u''}, B u u' → C u' u'' → D u u'') : Sim q R D x z := by
  intro m m' out m₁ hR hrun
  obtain ⟨out', m₁', hrun', hout, hR'⟩ := h m m' out m₁ hR hrun
  obtain ⟨out'', _, hrun'', hout', rfl⟩ := h' m' m' out' m₁' rfl hrun'
  refine ⟨out'', m₁', hrun'', ?_, hR'⟩
  cases out <;> cases out' <;> cases out'' <;> first | exact hD hout hout' | simp_all [OutcomesIn]

/-! ## Statements -/

variable {name name' : Ident} {e e' : Expr}

section

variable (he : Follows R (evalExpr ρ.host [t.lane] e t.lane) (evalExpr ρ.host [t'.lane] e' t'.lane))

include he

theorem letBind
    (h : ∀ {v m m₁}, evalExpr ρ.host [t.lane] e t.lane m = .ok (v, m₁) → t.vals name = none →
      t'.vals name' = none ∧ B (t.set name v) (t'.set name' v)) :
    Sim q R B (runNode (ρ.on π) (.letBind name e) t)
      (runNode (ρ.on π') (.letBind name' e') t') := by
  intro m m' out m₁ hR hrun
  obtain ⟨v, hv, hnone, rfl⟩ := runNode_letBind_eq_ok.mp hrun
  obtain ⟨_, m₁', hv', rfl, hR'⟩ := he m m' v m₁ hR hv
  obtain ⟨hnone', hB⟩ := h hv hnone
  exact ⟨_, m₁', runNode_letBind_eq_ok.mpr ⟨v, hv', hnone', rfl⟩, hB, hR'⟩

theorem assign
    (h : ∀ v, (t.vals name).isSome = true → t.fixed name = false → (t'.vals name').isSome = true ∧
      t'.fixed name' = false ∧ B (t.set name v) (t'.set name' v)) :
    Sim q R B (runNode (ρ.on π) (.assign name e) t) (runNode (ρ.on π') (.assign name' e') t') := by
  intro m m' out m₁ hR hrun
  obtain ⟨v, hv, hsome, hfixed, rfl⟩ := runNode_assign_eq_ok.mp hrun
  obtain ⟨_, m₁', hv', rfl, hR'⟩ := he m m' v m₁ hR hv
  obtain ⟨hsome', hfixed', hB⟩ := h v hsome hfixed
  exact ⟨_, m₁', runNode_assign_eq_ok.mpr ⟨v, hv', hsome', hfixed', rfl⟩, hB, hR'⟩

theorem ifThen {thenNodes thenNodes' otherwise otherwise' : List Node} (htaken : π' [] = π [])
    (hguards : (containsBarrier thenNodes' || containsBarrier otherwise') = true →
      (containsBarrier thenNodes || containsBarrier otherwise) = true)
    (hthen : Sim q R (fun u u' => B (t.leave u) (t'.leave u'))
      (runNodes (ρ.on (π.under .inner)) thenNodes t)
        (runNodes (ρ.on (π'.under .inner)) thenNodes' t'))
    (helse : Sim q R (fun u u' => B (t.leave u) (t'.leave u'))
      (runNodes (ρ.on (π.under .other)) otherwise t)
        (runNodes (ρ.on (π'.under .other)) otherwise' t')) :
    Sim q R B (runNode (ρ.on π) (.ifThen e thenNodes otherwise) t)
      (runNode (ρ.on π') (.ifThen e' thenNodes' otherwise') t') := by
  refine he.bind fun v => ?_
  simp only [Route.on_host]
  refine (follows_check htaken hguards _).bind fun _ => ?_
  cases v.truthy ρ.host.floats with
  | true => exact Sim.map hthen
  | false => exact Sim.map helse

end

theorem runLoop {body body' : Thread → Eval (Outcome Thread)} {var var' : Ident}
    {first stop : UInt32}
    (hB : B t t')
    (hbody : ∀ {t t'} (k : UInt32), k < stop → B t t' → t.vals var = none → t'.vals var' = none ∧
      Sim q R (fun u u' => B (t.leave u) (t'.leave u')) (body ((t.set var (.u32 k)).fix var))
        (body' ((t'.set var' (.u32 k)).fix var'))) :
    Sim q R B (runLoop body var (stop.toNat - first.toNat) first t)
      (runLoop body' var' (stop.toNat - first.toNat) first t') := by
  obtain ⟨left, hleft⟩ : ∃ left, left = stop.toNat - first.toNat := ⟨_, rfl⟩
  rw [← hleft]
  induction left generalizing t t' first with
  | zero => exact .pure hB
  | succ left ih =>
    intro m m' out m₁ hR hrun
    obtain ⟨hnone, hrun⟩ := runLoop_succ_eq_ok.mp hrun
    have hlt := stop.toNat_lt
    have hsucc : (first + 1).toNat = first.toNat + 1 := by
      rw [UInt32.toNat_add, UInt32.toNat_one, Nat.mod_eq_of_lt (by omega)]
    obtain ⟨hnone', hsim⟩ := hbody first (UInt32.lt_iff_toNat_lt.mpr (by omega)) hB hnone
    obtain ⟨out', m₁', hrun', hres⟩ :=
      hsim.andThen (fun u u' hu => ih hu (by omega)) m m' out m₁ hR (bind_eq_ok.mpr hrun)
    exact ⟨out', m₁', runLoop_succ_eq_ok.mpr ⟨hnone', bind_eq_ok.mp hrun'⟩, hres⟩

theorem loop {var var' : Ident} {hi hi' : Expr} {body body' : List Node}
    (hlo : Follows R (evalExpr ρ.host [t.lane] e t.lane) (evalExpr ρ.host [t'.lane] e' t'.lane))
    (hhi : Follows R (evalExpr ρ.host [t.lane] hi t.lane) (evalExpr ρ.host [t'.lane] hi' t'.lane))
    (hB : B t t')
    (hbody : ∀ {t t'} (k : UInt32), (∀ b, hi = .litU32 b → k < b) → B t t' → t.vals var = none →
      t'.vals var' = none ∧ Sim q R (fun u u' => B (t.leave u) (t'.leave u'))
        (runNodes (ρ.on (π.under .inner)) body ((t.set var (.u32 k)).fix var))
        (runNodes (ρ.on (π'.under .inner)) body' ((t'.set var' (.u32 k)).fix var'))) :
    Sim q R B (runNode (ρ.on π) (.loop var e hi body) t)
      (runNode (ρ.on π') (.loop var' e' hi' body') t') := by
  have hbounds : Follows R (loopBounds ρ.host [t.lane] t.lane e hi)
      (loopBounds ρ.host [t'.lane] t'.lane e' hi') :=
    hlo.bind fun _ => (follows_orFail _ _ _).bind fun _ => hhi.bind fun _ =>
      (follows_orFail _ _ _).bind fun _ => .pure rfl
  intro m m' out m₁ hR hrun
  obtain ⟨bounds, m₂, hok, hrun⟩ := bind_eq_ok.mp hrun
  obtain ⟨_, m₂', hok', rfl, hR'⟩ := hbounds m m' bounds m₂ hR hok
  have hstop : ∀ b, hi = .litU32 b → bounds.2 = b := by
    rintro b rfl
    obtain ⟨_, _, _, -, -, hb, hstop⟩ := loopBounds_eq_ok.mp hok
    cases hb
    cases hstop
    rfl
  obtain ⟨out', m₁', hrun', hres⟩ :=
    runLoop hB (fun k hk => hbody k fun b hb => hstop b hb ▸ hk) m₂ m₂' out m₁ hR' hrun
  exact ⟨out', m₁', bind_eq_ok.mpr ⟨_, m₂', hok', hrun'⟩, hres⟩

theorem ret (hids : t'.ids = t.ids) (hindex : t'.index = t.index)
    (hpending : t'.pending = t.pending) :
    Sim True R B (runNode (ρ.on π) .ret t) (runNode (ρ.on π') .ret t') := by
  refine .pure ⟨trivial, ?_⟩
  rw [Thread.dropLocals, Thread.dropLocals, hids, hindex, hpending]

theorem plain {n n' : Node} {g : Expr → Expr} (hn : mapPlain g n = some n')
    (he : PlainOperands (fun e => Follows R (evalExpr ρ.host [t.lane] e t.lane)
      (evalExpr ρ.host [t'.lane] (g e) t'.lane)) n)
    (ha : NodeAccesses R ρ.host n) (hpending : t'.pending = t.pending)
    (hB : ∀ pending, B { t with pending } { t' with pending }) :
    Sim q R B (runNode (ρ.on π) n t) (runNode (ρ.on π') n' t') := by
  have hrun :
      ∀ {x x' : Eval Invocation}, Relates R (fun i i' => i'.pendingAsync = i.pendingAsync) x x' →
      Sim q R B (x >>= fun inv => Pure.pure (.next { t with pending := inv.pendingAsync }))
        (x' >>= fun inv => Pure.pure (.next { t' with pending := inv.pendingAsync })) := by
    intro x x' h
    refine Relates.bind h fun inv inv' heq => .pure ?_
    rw [heq]
    exact hB _
  have hpending' : t'.invocation.pendingAsync = t.invocation.pendingAsync := hpending
  have htransfer : ∀ {source destination start count} (place : List UInt8 → Transfer) (tag : Ident),
      Respects R (fetch source destination start count) →
      Relates R (fun i i' => i'.pendingAsync = i.pendingAsync)
        (get >>= fun m => Eval.lift (readBytes m source start count) >>= fun payload =>
          Eval.lift (m.resolveBuffer destination) >>= fun _ =>
          Eval.lift (t.invocation.beginAsync tag (place payload)))
        (get >>= fun m => Eval.lift (readBytes m source start count) >>= fun payload =>
          Eval.lift (m.resolveBuffer destination) >>= fun _ =>
          Eval.lift (t'.invocation.beginAsync tag (place payload))) := by
    intro source destination start count place tag h
    simpa only [fetch, bind_assoc, pure_bind] using h.bind fun payload => by
      rw [Invocation.beginAsync, Invocation.beginAsync, hpending']
      split
      · exact relates_fail _ _
      · exact .pure rfl
  have hcount : ∀ label v, Respects R (toByteCount ρ.host.floats label v) :=
    fun label v => (follows_orFail _ _ _).bind fun k => .pure rfl
  cases n <;> cases hn
  case store buffer index value =>
    exact hrun (he.1.bind fun _ => (follows_orFail _ _ _).bind fun idx => he.2.bind fun v =>
      (ha idx v).bind fun _ => .pure hpending)
  case asyncLoad source destination offset size tag
    | asyncStore source destination offset size tag =>
    exact hrun (he.1.bind fun _ => (hcount _ _).bind fun start => he.2.bind fun _ =>
      (hcount _ _).bind fun count => htransfer _ tag (ha _ _))
  case asyncWait tag =>
    refine hrun ?_
    simp only [executeNode, Invocation.finishAsync, hpending']
    cases t.invocation.pendingAsync.find? (·.1 == tag) with
    | none => exact relates_fail _ _
    | some entry =>
      show Relates R _ (applyAsyncTransfer entry.2 >>= fun _ => Pure.pure _)
        (applyAsyncTransfer entry.2 >>= fun _ => Pure.pure _)
      exact (ha entry.2).bind fun _ => .pure rfl
  case trap address tag =>
    exact hrun (Follows.bind he fun _ => (follows_orFail _ _ _).bind fun _ => relates_fail _ _)
  case indirectDispatch buffer offset =>
    refine hrun ?_
    rw [executeNode]
    split <;> exact relates_fail _ _
  case barrier ordering => exact hrun (.pure hpending)
  all_goals exact hrun (relates_fail _ _)

theorem nodes {f : Node → Node} {ns : List Node} (hf : ∀ n ∈ ns, hasBody (f n) = hasBody n)
    (h : ∀ n ∈ ns, ∀ π {u u'}, B u u' →
      Sim q R B (runNode (ρ.on π) n u) (runNode (ρ.on π) (f n) u')) (hB : B t t') :
    Sim q R B (runNodes (ρ.on π) ns t) (runNodes (ρ.on π) (ns.map f) t') := by
  induction ns generalizing π t t' with
  | nil => exact .pure hB
  | cons n ns ih =>
    have hafter : (ρ.on π).after (f n) = (ρ.on π).after n := by
      simp only [Route.after, Plan.after, hf n (by simp)]
    rw [List.map_cons, runNodes, runNodes, hafter]
    exact (h n (by simp) π hB).andThen fun u u' hu =>
      ih (fun n hn => hf n (by simp [hn])) (fun n hn => h n (by simp [hn])) hu

theorem self {ns : List Node}
    (h : ∀ n ∈ ns, ∀ π {u u'}, B u u' → Sim q R B (runNode (ρ.on π) n u) (runNode (ρ.on π) n u'))
    (hB : B t t') : Sim q R B (runNodes (ρ.on π) ns t) (runNodes (ρ.on π) ns t') := by
  have hnodes : Sim q R B (runNodes (ρ.on π) ns t) (runNodes (ρ.on π) (ns.map id) t') :=
    nodes (fun _ _ => rfl) h hB
  rwa [List.map_id] at hnodes

/-- Some plan makes the run of a list follow, when one does for each statement. -/
theorem flatMap {f : Node → List Node} {ns : List Node}
    (h : ∀ n ∈ ns, ∀ π, ∃ π', ∀ {u u'}, B u u' →
      Sim q R B (runNode (ρ.on π) n u) (runNodes (ρ.on π') (f n) u')) (π : Plan) :
    ∃ π', ∀ {t t'}, B t t' →
      Sim q R B (runNodes (ρ.on π) ns t) (runNodes (ρ.on π') (ns.flatMap f) t') := by
  induction ns generalizing π with
  | nil => exact ⟨π, fun hB => .pure hB⟩
  | cons n ns ih =>
    obtain ⟨π₁, hn⟩ := h n (by simp) π
    obtain ⟨π₂, hns⟩ := ih (fun n hn => h n (by simp [hn])) (π.after n)
    refine ⟨.append (f n) π₁ π₂, fun hB => ?_⟩
    rw [List.flatMap_cons, runNodes_append]
    exact (hn hB).andThen fun u u' hu => hns hu

theorem refines_iff {x y : Eval (Outcome Thread)} : Refines x y ↔ Sim True Eq Eq x y := by
  constructor
  · rintro h m _ out m₁ rfl hrun
    refine ⟨out, m₁, h m _ hrun, ?_, rfl⟩
    cases out <;> simp [OutcomesIn]
  · rintro h m ⟨out, m₁⟩ hrun
    obtain ⟨out', _, hrun', hout, rfl⟩ := h m m out m₁ rfl hrun
    cases out <;> cases out' <;> simp_all [OutcomesIn]

end Sim

/-! ## Runs of which nothing is expected -/

theorem runNodes_free_of_nodes {ns : List Node}
    (h : ∀ n ∈ ns, ∀ π t, Sim True Eq Eq (runNode (ρ.on π) n t) (runNode ρ.host n t)) (π : Plan)
    (t : Thread) : Sim True Eq Eq (runNodes (ρ.on π) ns t) (runNodes ρ.host ns t) := by
  induction ns generalizing π t with
  | nil => exact .pure rfl
  | cons n ns ih =>
    rw [runNodes, runNodes, Route.after_free]
    refine (h n (by simp) π t).andThen ?_
    rintro u _ rfl
    exact ih (fun n hn => h n (by simp [hn])) (π.after n) u

theorem sim_free (n : Node) (π : Plan) (t : Thread) :
    Sim True Eq Eq (runNode (ρ.on π) n t) (runNode ρ.host n t) := by
  have hcheck : ∀ (π : Plan) guards c, Follows Eq ((ρ.on π).check guards c)
      (Route.check ρ.host guards c) := by
    rintro π guards c m _ u m₁ rfl hrun
    exact ⟨u, m, rfl, rfl, Route.check_memory hrun⟩
  have hbody : ∀ {ns : List Node} {π : Plan} {t t₀ : Thread}, (∀ n ∈ ns, ∀ π t,
      Sim True Eq Eq (runNode (ρ.on π) n t) (runNode ρ.host n t)) →
      Sim True Eq (fun u u' => t₀.leave u = t₀.leave u') (runNodes (ρ.on π) ns t)
        (runNodes ρ.host ns t) :=
    fun ih => (runNodes_free_of_nodes ih _ _).imp fun u u' _ hu => congrArg _ hu
  induction n generalizing π t with
  | ifThen cond thenNodes otherwise ihThen ihElse =>
    refine (respects_eq _).bind fun v => (hcheck π _ _).bind fun _ => ?_
    simp only [Route.on_host]
    cases v.truthy ρ.host.floats with
    | true => exact Sim.map (hbody ihThen)
    | false => exact Sim.map (hbody ihElse)
  | loop var lo hi body ih =>
    refine (respects_eq _).bind fun bounds => Sim.runLoop rfl ?_
    rintro t _ k - rfl hnone
    exact ⟨hnone, hbody ih⟩
  | block body ih | region _ _ body ih => exact Sim.map (hbody ih)
  | _ => exact Sim.refines_iff.mp .rfl

theorem runNodes_free (ns : List Node) (π : Plan) (t : Thread) :
    Refines (runNodes (ρ.on π) ns t) (runNodes ρ.host ns t) :=
  Sim.refines_iff.mpr (runNodes_free_of_nodes (fun n _ => sim_free n) π t)

theorem runNode_free (n : Node) (π : Plan) (t : Thread) :
    Refines (runNode (ρ.on π) n t) (runNode ρ.host n t) :=
  Sim.refines_iff.mpr (sim_free n π t)

/-! ## Names keep their values -/

/-- `t'` has the ids and the names of `t`, and the names in `S` with their values. -/
structure Kept (S : Ident → Prop) (t t' : Thread) : Prop where
  ids : t'.ids = t.ids
  index : t'.index = t.index
  bound : ∀ key, (t.vals key).isSome = true → (t'.vals key).isSome = true
  same : ∀ key, S key → (t.vals key).isSome = true → t'.vals key = t.vals key

namespace Kept

variable {S : Ident → Prop} {t t' t'' : Thread}

theorem refl (t : Thread) : Kept S t t := ⟨rfl, rfl, fun _ h => h, fun _ _ _ => rfl⟩

theorem trans (h : Kept S t t') (h' : Kept S t' t'') : Kept S t t'' where
  ids := h'.ids.trans h.ids
  index := h'.index.trans h.index
  bound := fun key hkey => h'.bound key (h.bound key hkey)
  same := fun key hS hkey => (h'.same key hS (h.bound key hkey)).trans (h.same key hS hkey)

theorem set {name : Ident} (v : Value) (h : S name → t.vals name = none) :
    Kept S t (t.set name v) where
  ids := rfl
  index := rfl
  bound := by
    intro key hkey
    rw [Thread.set_vals]
    split
    · rfl
    · exact hkey
  same := by
    intro key hS hkey
    have hne : key ≠ name := by
      rintro rfl
      simp [h hS] at hkey
    rw [Thread.set_vals, if_neg hne]

theorem leave {t₁ : Thread}
    (hbound : ∀ key, (t.vals key).isSome = true → (t₁.vals key).isSome = true)
    (h : Kept S t t') : Kept S t (t₁.leave t') where
  ids := h.ids
  index := h.index
  bound := by
    intro key hkey
    rw [Thread.leave_vals, if_pos (hbound key hkey)]
    exact h.bound key hkey
  same := by
    intro key hS hkey
    rw [Thread.leave_vals, if_pos (hbound key hkey)]
    exact h.same key hS hkey

end Kept

/-- A computation that goes on does so in `Q`. -/
def GoesOn (Q : Thread → Prop) (x : Eval (Outcome Thread)) : Prop :=
  ∀ m t' m', x m = .ok (.next t', m') → Q t'

/-- The assignments of a statement are to names in `P`. -/
def AssignsIn (P : Ident → Prop) : Node → Prop
  | .assign name _ => P name
  | _ => True

/-- A relation between the environments before and after statements in `P`. -/
structure Steps (host : Host) (R : Thread → Thread → Prop) (P : Node → Prop) : Prop where
  refl : ∀ t, R t t
  trans : ∀ {t t' t''}, R t t' → R t' t'' → R t t''
  leave : ∀ {t t'}, R t t' → R t (t.leave t')
  pending : ∀ t pending, R t { t with pending }
  letBind : ∀ {name e t v m m'}, P (.letBind name e) → t.vals name = none →
    evalExpr host [t.lane] e t.lane m = .ok (v, m') → R t (t.set name v)
  assign : ∀ {name e t} (v : Value), P (.assign name e) → t.fixed name = false → R t (t.set name v)
  loopVar : ∀ {var lo hi body t} (v : Value), P (.loop var lo hi body) → t.vals var = none →
    R t ((t.set var v).fix var)

namespace Steps

variable {R : Thread → Thread → Prop} {P : Node → Prop}

theorem node (hR : Steps ρ.host R P) {n : Node} (hn : n.Forall (fun _ => True) P) (π : Plan)
    (t : Thread) : GoesOn (R t) (runNode (ρ.on π) n t) := by
  suffices h : ∀ π {t₀ t}, R t₀ t →
      Sim True Eq (fun u u' => u = u' ∧ R t₀ u) (runNode (ρ.on π) n t) (runNode (ρ.on π) n t) by
    intro m t' m' hrun
    obtain ⟨out, -, -, hout, -⟩ := h π (hR.refl t) m m _ m' rfl hrun
    cases out with
    | next u => exact hout.2
    | returned u => exact hout.elim
  have hbody : ∀ {ns : List Node}, (∀ n ∈ ns, n.Forall (fun _ => True) P → ∀ π {t₀ t}, R t₀ t →
      Sim True Eq (fun u u' => u = u' ∧ R t₀ u) (runNode (ρ.on π) n t) (runNode (ρ.on π) n t)) →
      Node.ForallList (fun _ => True) P ns → ∀ π {t₀ t t₁}, R t₀ t₁ → R t₁ t →
      Sim True Eq (fun u u' => t₁.leave u = t₁.leave u' ∧ R t₀ (t₁.leave u))
        (runNodes (ρ.on π) ns t) (runNodes (ρ.on π) ns t) := by
    intro ns ih hns π t₀ t t₁ ht₁ ht
    have hnodes : Sim True Eq (fun u u' => u = u' ∧ R t₁ u) (runNodes (ρ.on π) ns t)
        (runNodes (ρ.on π) ns t) := by
      refine Sim.self (fun n hmem π u u' hu => ?_) ⟨rfl, ht⟩
      obtain ⟨rfl, hu⟩ := hu
      exact ih n hmem (Node.forallList_iff.mp hns n hmem) π hu
    exact hnodes.imp fun u u' _ hu => ⟨by rw [hu.1], hR.trans ht₁ (hR.leave hu.2)⟩
  intro π t₀ t ht
  induction n generalizing π t₀ t with
  | letBind name value =>
    exact Sim.letBind (respects_eq _) fun hv hnone =>
      ⟨hnone, rfl, hR.trans ht (hR.letBind hn.1 hnone hv)⟩
  | assign name value =>
    exact Sim.assign (respects_eq _) fun v hsome hfixed =>
      ⟨hsome, hfixed, rfl, hR.trans ht (hR.assign v hn.1 hfixed)⟩
  | ifThen cond thenNodes otherwise ihThen ihElse =>
    exact Sim.ifThen (respects_eq _) rfl id (hbody ihThen hn.2.2.1 _ ht (hR.refl t))
      (hbody ihElse hn.2.2.2 _ ht (hR.refl t))
  | loop var lo hi body ih =>
    refine Sim.loop (respects_eq _) (respects_eq _) ⟨rfl, ht⟩ ?_
    rintro t _ k - ⟨rfl, ht⟩ hnone
    exact ⟨hnone, hbody ih hn.2.2.2 _ ht (hR.loopVar (.u32 k) hn.1 hnone)⟩
  | block body ih | region _ _ body ih =>
    exact Sim.map (hbody ih hn.2 _ ht (hR.refl t))
  | ret => exact Sim.ret rfl rfl rfl
  | _ =>
    -- The other statements change nothing of the environment but the transfers.
    exact Sim.plain (g := id) rfl (plainOperands_of_all (fun _ => respects_eq _) _)
      (nodeAccesses_eq _) rfl
      fun _ => ⟨rfl, hR.trans ht (hR.pending t _)⟩

end Steps

theorem kept_node {S : Ident → Prop} {n : Node}
    (hn : n.Forall (fun _ => True) (AssignsIn fun x => ¬ S x)) (π : Plan) (t : Thread) :
    GoesOn (Kept S t) (runNode (ρ.on π) n t) := by
  have hsteps : Steps ρ.host (Kept S) (AssignsIn fun x => ¬ S x) := {
    refl := .refl
    trans := .trans
    leave := .leave fun _ => id
    pending _ _ := ⟨rfl, rfl, fun _ h => h, fun _ _ _ => rfl⟩
    letBind _ hnone _ := .set _ fun _ => hnone
    assign v hname _ := .set v fun hS => absurd hS hname
    -- The name of the loop was not bound, so entering the body keeps the others.
    loopVar v _ hnone :=
      (Kept.set v fun _ => hnone).trans ⟨rfl, rfl, fun _ h => h, fun _ _ _ => rfl⟩ }
  exact hsteps.node hn π t

theorem keepsBound_node (ρ : Route) (π : Plan) (n : Node) (t : Thread) :
    GoesOn (Kept (fun _ => False) t) (runNode (ρ.on π) n t) := by
  refine kept_node (Node.forall_of_all (fun _ => trivial) (fun n => ?_) n) π t
  cases n <;> first | exact id | trivial

/-- The names in `H` have their values there and may not be assigned. -/
def Holding (H : Ident → Option Value) (t : Thread) : Prop :=
  ∀ x v, H x = some v → t.vals x = some v ∧ t.fixed x = true

namespace Holding

variable {H : Ident → Option Value} {t t' : Thread} {name : Ident}

variable (h : Holding H t)

include h

theorem set (v : Value) (hname : t.vals name = none ∨ t.fixed name = false) :
    Holding H (t.set name v) := by
  intro x w hx
  obtain ⟨hvals, hfixed⟩ := h x w hx
  have hne : x ≠ name := by
    rintro rfl
    rcases hname with hname | hname
    · cases hname.symm.trans hvals
    · cases hname.symm.trans hfixed
  rw [Thread.set_vals, if_neg hne]
  exact ⟨hvals, hfixed⟩

theorem fix (name : Ident) : Holding H (t.fix name) := by
  intro x w hx
  rw [Thread.fix_fixed, (h x w hx).2, ite_self]
  exact ⟨(h x w hx).1, rfl⟩

theorem leave (h' : Holding H t') : Holding H (t.leave t') := by
  intro x w hx
  rw [Thread.leave_vals, (h x w hx).1]
  exact ⟨(h' x w hx).1, (h x w hx).2⟩

theorem node (n : Node) (π : Plan) : Sim True Eq (fun u u' => u = u' ∧ Holding H u)
    (runNode (ρ.on π) n t) (runNode (ρ.on π) n t) := by
  have hsteps : Steps ρ.host (fun t t' => Holding H t → Holding H t') fun _ => True := {
    refl _ := id
    trans h h' ht := h' (h ht)
    leave h ht := ht.leave (h ht)
    pending _ _ ht := ht
    letBind _ hnone _ ht := ht.set _ (.inl hnone)
    assign v _ hfixed ht := ht.set v (.inr hfixed)
    loopVar v _ hnone ht := (ht.set v (.inl hnone)).fix _ }
  have hall := Node.forall_of_all (fun _ => trivial) (fun _ => trivial) n
  exact (Sim.refines_iff.mp .rfl).imp fun u u' ⟨m, m', hrun⟩ heq =>
    ⟨heq, hsteps.node hall π t m u m' hrun h⟩

theorem enter (v : Value) (hnone : t.vals name = none) :
    Holding (Function.update H name (some v)) ((t.set name v).fix name) := by
  intro x w hx
  by_cases hname : x = name
  · subst hname
    rw [Function.update_self] at hx
    cases hx
    simp
  · rw [Function.update_of_ne hname] at hx
    exact ((h.set v (.inl hnone)).fix name) x w hx

theorem exit (hnone : t.vals name = none) {v : Value}
    (h' : Holding (Function.update H name (some v)) t') : Holding H (t.leave t') := by
  refine h.leave fun x w hx => h' x w ?_
  have hname : x ≠ name := by
    rintro rfl
    cases hnone.symm.trans (h x w hx).1
  rw [Function.update_of_ne hname, hx]

end Holding

end Vyre.Reference
