import Vyre.Optimizer.NodeMap

/-!
# Guards in loops

`loop_bound_tighten.rs` takes a guard `i < n` around the whole body of a loop
over `i` into its upper bound, and `loop_redundant_bound_check_elide.rs` drops
the guards `i < n` in a loop up to `n`.
-/

namespace Vyre.LoopGuards

open Reference Reference.Eval StateExcept NodeMap

/-! ## The smaller bound -/

def matchTightenPattern (loopVar : Ident) (lo hi : Expr) (body : List Node) :
    Option (UInt32 × UInt32 × List Node) :=
  match lo, hi, body with
  | .litU32 _, .litU32 upper, [.ifThen (.binOp .lt (.var name) (.litU32 n)) thenNodes []] =>
      if name = loopVar then some (upper, n, thenNodes) else none
  | _, _, _ => none

def tightenIfEligible : Node → Node
  | .loop var lo hi body =>
      match matchTightenPattern var lo hi body with
      | some (upperLit, predicateLit, realBody) =>
          if predicateLit ≥ upperLit then .loop var lo hi body
          else .loop var lo (.litU32 predicateLit) realBody
      | none => .loop var lo hi body
  | n => n

/-- `LoopBoundTighten::transform`. -/
def tightenTransform (p : Program) : Program :=
  { p with entry := p.entry.map (rewriteDeep tightenIfEligible) }

theorem tightenIfEligible_cases (n : Node) : tightenIfEligible n = n ∨ ∃ var a b c body, c < b ∧
    n = .loop var (.litU32 a) (.litU32 b) [.ifThen (.lt (.var var) (.litU32 c)) body []] ∧
      tightenIfEligible n = .loop var (.litU32 a) (.litU32 c) body := by
  cases n with
  | loop var lo hi body =>
    rw [tightenIfEligible]
    split
    case h_1 upper predicate realBody h =>
      unfold matchTightenPattern at h
      repeat' split at h
      all_goals cases h
      rename_i hname
      subst hname
      split
      · exact .inl rfl
      · exact .inr ⟨_, _, _, _, _, UInt32.not_le.mp ‹_›, rfl, rfl⟩
    case h_2 => exact .inl rfl
  | _ => exact .inl rfl

/-- The rule makes no statement deeper, so that visiting it again ends. -/
theorem levels_tightenIfEligible (n : Node) : levels (tightenIfEligible n) ≤ levels n := by
  rcases tightenIfEligible_cases n with h | ⟨var, a, b, c, body, -, rfl, h⟩
  · rw [h]
  · rw [h]
    simp only [levels, levelsList]
    omega

theorem tighten_eq (n : Node) : rewriteDeep tightenIfEligible n =
    tightenIfEligible (mapBody (List.map (rewriteDeep tightenIfEligible))
      (mapBody (List.map (rewriteDeep tightenIfEligible)) n)) :=
  rewriteDeep_eq levels_tightenIfEligible n

variable {ρ : Route} {t : Thread} {var : Ident} {body : List Node}

/-- The iterations up to the guard's bound are those of its body, and the others
do nothing. -/
theorem runLoop_guarded (π : Plan) {b c : UInt32} (hlt : c < b) (left : Nat) (next : UInt32)
    (hleft : next.toNat + left = b.toNat) (t : Thread) :
    Refines
      (runLoop (runNodes (ρ.on π) [.ifThen (.lt (.var var) (.litU32 c)) body []]) var left next t)
      (runLoop (runNodes (ρ.on (π.under .inner)) body) var (c.toNat - next.toNat) next t) := by
  have hcb := UInt32.lt_iff_toNat_lt.mp hlt
  have hb := b.toNat_lt
  induction left generalizing next t with
  | zero =>
    rw [show c.toNat - next.toNat = 0 by omega]
    exact .rfl
  | succ left ih =>
    intro m r hrun
    obtain ⟨hnone, out, m₂, hout, hrun⟩ := runLoop_succ_eq_ok.mp hrun
    have hsucc : (next + 1).toNat = next.toNat + 1 := by
      rw [UInt32.toNat_add, UInt32.toNat_one, Nat.mod_eq_of_lt (by omega)]
    have hcond : Gives ρ.host ((t.set var (.u32 next)).fix var).lane m
        (.lt (.var var) (.litU32 c)) (.bool (next < c)) := (Gives.var (by simp)).lt (Gives.u32 c)
    rw [runNodes_single] at hout
    obtain ⟨out', m₃, hbody, hmap⟩ :=
      map_eq_ok.mp (branch_of_runNode_ifThen (ρ := ρ.on π) hcond hout)
    cases hmap
    by_cases hk : next < c
    · have hk' := UInt32.lt_iff_toNat_lt.mp hk
      rw [show c.toNat - next.toNat = c.toNat - (next + 1).toNat + 1 by omega]
      rw [decide_eq_true hk] at hbody
      refine runLoop_succ_eq_ok.mpr ⟨hnone, out', m₂, hbody, ?_⟩
      cases out' with
      | returned u => exact hrun
      | next u =>
        -- The branch is left into the scope of the iteration, and that is left too.
        have hrun := ih (next + 1) (by omega) _ _ _ hrun
        rwa [Thread.leave_leave (Thread.bound_entered var _)] at hrun
    · have hk' := UInt32.lt_iff_toNat_lt.not.mp hk
      rw [decide_eq_false hk] at hbody
      cases hbody
      have hrun := ih (next + 1) (by omega) _ _ _ hrun
      rw [Thread.leave_self, Thread.leave_bound hnone,
        show c.toNat - (next + 1).toNat = 0 by omega] at hrun
      rw [show c.toNat - next.toNat = 0 by omega]
      exact hrun

theorem replaces_tightenIfEligible (ρ : Route) (n : Node) :
    Replaces ρ [n] [tightenIfEligible n] := by
  rcases tightenIfEligible_cases n with h | ⟨var, a, b, c, body, hlt, rfl, h⟩
  · rw [h]
    exact .refl ρ _
  · rw [h]
    refine ⟨fun hb => ?_,
      fun π => ⟨.node false ((π.under .inner).under .inner) π, fun t m r hrun => ?_⟩⟩
    · simpa [containsBarrier, nodeContainsBarrier] using hb
    · rw [runNodes_single] at hrun ⊢
      have hloop : ∀ (ρ' : Route) (k : UInt32) (ns : List Node),
          runNode ρ' (.loop var (.litU32 a) (.litU32 k) ns) t m =
            runLoop (runNodes (ρ'.into .inner) ns) var (k.toNat - a.toNat) a t m := fun _ _ _ => rfl
      rw [hloop] at hrun ⊢
      by_cases hab : a.toNat ≤ b.toNat
      · exact runLoop_guarded (π.under .inner) hlt _ a (by omega) t m r hrun
      · have hcb := UInt32.lt_iff_toNat_lt.mp hlt
        rw [show b.toNat - a.toNat = 0 by omega] at hrun
        rw [show c.toNat - a.toNat = 0 by omega]
        exact hrun

theorem replaces_tightenTransform (ρ : Route) (p : Program) :
    Replaces ρ p.entry (tightenTransform p).entry :=
  Replaces.map fun n _ => replaces_rewriteAt (replaces_tightenIfEligible ρ) _ n

/-- Tightening the bounds of loops keeps the run of an invocation that ends
without an error, and what it leaves in the buffers. -/
theorem boundTightening_preserves {host : Host} (hids : Function.Injective host.nodeId)
    (debugIds : InvocationIds → String) (p : Program) (ids : InvocationIds) (index : UInt32)
    (m m' : Memory) (h : RunsAlone host debugIds p.entry ids index m m') :
    RunsAlone host debugIds (tightenTransform p).entry ids index m m' :=
  BodyRefines.runsAlone (fun ρ => (replaces_tightenTransform ρ p).body) hids h

def guardedStores : Program :=
  wordProgram [.loop "i" (.litU32 0) (.litU32 4)
    [.ifThen (.lt (.var "i") (.litU32 2)) [.store "out" (.var "i") (.litU32 7)] []]]

theorem boundTightening_preserves_guardedStores :
    ∃ m', RunsFirst guardedStores [0] [0, 0, 0] m' ∧
      (tightenTransform guardedStores).entry = [.region rootRegionGenerator none
        [.loop "i" (.litU32 0) (.litU32 2) [.store "out" (.var "i") (.litU32 7)]]] ∧
      RunsFirst (tightenTransform guardedStores) [0] [0, 0, 0] m' := by
  obtain ⟨m', hrun⟩ : ∃ m', RunsFirst guardedStores [0] [0, 0, 0] m' := ⟨_, runsFirst ⟨_, rfl, rfl⟩⟩
  exact ⟨m', hrun, rfl, boundTightening_preserves Function.injective_id _ _ _ _ _ _ hrun⟩

/-! ## Guards that always hold -/

def litU32Value : Expr → Option UInt32
  | .litU32 n => some n
  | _ => none

def condMatchesLoopVarLtLit (cond : Expr) (var : Ident) : Option UInt32 :=
  match cond with
  | .binOp .lt (.var v) right => if v = var then litU32Value right else none
  | _ => none

/-- The guard of a branch without an alternative is the bound of the loop around. -/
def isRedundant (loopCtx : Option (Ident × UInt32)) (cond : Expr) (otherwise : List Node) : Bool :=
  otherwise.isEmpty && match loopCtx with
    | some (loopVar, loopTo) => condMatchesLoopVarLtLit cond loopVar == some loopTo
    | none => false

mutual

/-- `elide_in_node_with_ctx`, with the variable and the bound of the loop around. -/
def elideInNode : Option (Ident × UInt32) → Node → Node
  | loopCtx, .ifThen cond thenNodes otherwise =>
      if isRedundant loopCtx cond otherwise then .block (elideInSequence loopCtx thenNodes)
      else .ifThen cond (elideInSequence loopCtx thenNodes) (elideInSequence loopCtx otherwise)
  | _, .loop var lo hi body =>
      .loop var lo hi (elideInSequence ((litU32Value hi).map (var, ·)) body)
  | loopCtx, .block body => .block (elideInSequence loopCtx body)
  | _, .region generator sourceRegion body =>
      .region generator sourceRegion (elideInSequence none body)
  | _, n => n

def elideInSequence : Option (Ident × UInt32) → List Node → List Node
  | _, [] => []
  | loopCtx, n :: ns => elideInNode loopCtx n :: elideInSequence loopCtx ns

end

/-- `LoopRedundantBoundCheckElidePass::transform`. -/
def elideTransform (p : Program) : Program := { p with entry := elideInSequence none p.entry }

variable {H : Ident → Option Value} {loopCtx : Option (Ident × UInt32)}

theorem elideInSequence_eq (loopCtx : Option (Ident × UInt32)) (ns : List Node) :
    elideInSequence loopCtx ns = ns.map (elideInNode loopCtx) := by
  induction ns with
  | nil => rfl
  | cons n ns ih => rw [elideInSequence, ih, List.map_cons]

def Below (loopCtx : Option (Ident × UInt32)) (H : Ident → Option Value) : Prop :=
  ∀ var b, loopCtx = some (var, b) → ∃ k : UInt32, k < b ∧ H var = some (.u32 k)

theorem gives_of_isRedundant {host : Host} {cond : Expr} {otherwise : List Node}
    (h : isRedundant loopCtx cond otherwise = true) (hbelow : Below loopCtx H) (ht : Holding H t)
    (m : Memory) : Gives host t.lane m cond (.bool true) := by
  obtain ⟨-, h⟩ := Bool.and_eq_true_iff.mp h
  cases loopCtx with
  | none => cases h
  | some ctx =>
    obtain ⟨k, hk, hvar⟩ := hbelow ctx.1 ctx.2 rfl
    have hmatch := eq_of_beq h
    unfold condMatchesLoopVarLtLit at hmatch
    repeat' split at hmatch
    case h_1.isTrue v right _ hv =>
      subst hv
      cases right <;> cases hmatch
      rw [← decide_eq_true hk]
      exact (Gives.var (ht _ _ hvar).1).lt (Gives.u32 _)
    all_goals cases hmatch

theorem hasBody_elideInNode (n : Node) : hasBody (elideInNode loopCtx n) = hasBody n := by
  cases n with
  | ifThen cond thenNodes otherwise =>
    rw [elideInNode]
    split <;> rfl
  | _ => rfl

theorem nodeContainsBarrier_elideInNode (n : Node) :
    nodeContainsBarrier (elideInNode loopCtx n) = nodeContainsBarrier n := by
  have hbody : ∀ {ns : List Node} {loopCtx}, (∀ n ∈ ns, ∀ {loopCtx},
      nodeContainsBarrier (elideInNode loopCtx n) = nodeContainsBarrier n) →
      containsBarrier (elideInSequence loopCtx ns) = containsBarrier ns := by
    intro ns loopCtx ih
    rw [elideInSequence_eq]
    exact containsBarrier_map fun n hn => ih n hn
  induction n generalizing loopCtx with
  | ifThen cond thenNodes otherwise ihThen ihElse =>
    rw [elideInNode]
    split
    case isTrue h =>
      -- The dropped alternative was empty.
      obtain ⟨hempty, -⟩ := Bool.and_eq_true_iff.mp h
      rw [List.isEmpty_iff.mp hempty, nodeContainsBarrier, nodeContainsBarrier,
        hbody fun n hn {_} => ihThen n hn,
        containsBarrier, Bool.or_false]
    case isFalse =>
      rw [nodeContainsBarrier, nodeContainsBarrier, hbody fun n hn {_} => ihThen n hn,
        hbody fun n hn {_} => ihElse n hn]
  | loop var lo hi body ih | block body ih => exact hbody fun n hn {_} => ih n hn
  | _ => rfl

theorem containsBarrier_elideInSequence (ns : List Node) :
    containsBarrier (elideInSequence loopCtx ns) = containsBarrier ns := by
  rw [elideInSequence_eq]
  exact containsBarrier_map fun n _ => nodeContainsBarrier_elideInNode n

theorem sim_elideInNode (n : Node) (π : Plan) {loopCtx : Option (Ident × UInt32)}
    {H : Ident → Option Value} {t : Thread} (hbelow : Below loopCtx H) (ht : Holding H t) :
    Sim True Eq (fun u u' => u = u' ∧ Holding H u)
      (runNode (ρ.on π) n t) (runNode (ρ.on π) (elideInNode loopCtx n) t) := by
  have hnodes : ∀ {ns : List Node} {π : Plan} {loopCtx : Option (Ident × UInt32)}
      {H : Ident → Option Value} {t : Thread},
      (∀ n ∈ ns, ∀ (π : Plan) {loopCtx H t}, Below loopCtx H → Holding H t →
        Sim True Eq (fun u u' => u = u' ∧ Holding H u)
          (runNode (ρ.on π) n t) (runNode (ρ.on π) (elideInNode loopCtx n) t)) →
      Below loopCtx H → Holding H t →
      Sim True Eq (fun u u' => u = u' ∧ Holding H u) (runNodes (ρ.on π) ns t)
        (runNodes (ρ.on π) (elideInSequence loopCtx ns) t) := by
    intro ns π loopCtx H t ih hbelow ht
    rw [elideInSequence_eq]
    refine Sim.nodes (fun n _ => hasBody_elideInNode n) (fun n hn π u u' hu => ?_) ⟨rfl, ht⟩
    obtain ⟨rfl, hu⟩ := hu
    exact ih n hn π hbelow hu
  have hleave : ∀ {H : Ident → Option Value} {t : Thread} {x y : Eval (Outcome Thread)},
      Holding H t → Sim True Eq (fun u u' => u = u' ∧ Holding H u) x y →
      Sim True Eq (fun u u' => t.leave u = t.leave u' ∧ Holding H (t.leave u)) x y :=
    fun ht h => h.imp fun u u' _ hu => ⟨by rw [hu.1], ht.leave hu.2⟩
  induction n generalizing π loopCtx H t with
  | ifThen cond thenNodes otherwise ihThen ihElse =>
    rw [elideInNode]
    split
    case isTrue h =>
      rintro m _ out m₁ rfl hrun
      exact Sim.map (hleave ht (hnodes ihThen hbelow ht)) m m out m₁ rfl
        (branch_of_runNode_ifThen (gives_of_isRedundant h hbelow ht m) hrun)
    case isFalse =>
      refine Sim.ifThen (respects_eq _) rfl (fun hb => ?_) (hleave ht (hnodes ihThen hbelow ht))
        (hleave ht (hnodes ihElse hbelow ht))
      rwa [containsBarrier_elideInSequence, containsBarrier_elideInSequence] at hb
  | loop var lo hi body ih =>
    refine Sim.loop (respects_eq _) (respects_eq _) ⟨rfl, ht⟩ ?_
    rintro t _ k hk ⟨rfl, ht⟩ hnone
    refine ⟨hnone, (hnodes ih ?_ (ht.enter (.u32 k) hnone)).imp
      fun u u' _ hu => ⟨by rw [hu.1], ht.exit hnone hu.2⟩⟩
    intro v b hctx
    cases hi <;> cases hctx
    exact ⟨k, hk _ rfl, Function.update_self ..⟩
  | block body ih => exact Sim.map (hleave ht (hnodes ih hbelow ht))
  | region _ _ body ih =>
    exact Sim.map (hleave ht (hnodes ih (fun _ _ h => by cases h) ht))
  | _ => exact ht.node _ π

theorem replaces_elideTransform (ρ : Route) (p : Program) :
    Replaces ρ p.entry (elideTransform p).entry where
  barriers := by
    rw [elideTransform, containsBarrier_elideInSequence]
    exact id
  runs π := by
    refine ⟨π, fun t => Sim.refines_iff.mpr ?_⟩
    rw [elideTransform, elideInSequence_eq]
    refine Sim.nodes (fun n _ => hasBody_elideInNode n) (fun n _ π u u' hu => ?_) rfl
    subst hu
    exact (sim_elideInNode n π (H := fun _ => none) (fun _ _ h => by cases h)
      (fun _ _ h => by cases h)).imp fun _ _ _ h => h.1

/-- Eliding guards that always hold keeps the run of an invocation that ends
without an error, and what it leaves in the buffers. -/
theorem guardElision_preserves {host : Host} (hids : Function.Injective host.nodeId)
    (debugIds : InvocationIds → String) (p : Program) (ids : InvocationIds) (index : UInt32)
    (m m' : Memory) (h : RunsAlone host debugIds p.entry ids index m m') :
    RunsAlone host debugIds (elideTransform p).entry ids index m m' :=
  BodyRefines.runsAlone (fun ρ => (replaces_elideTransform ρ p).body) hids h

def checkedStores : Program :=
  wordProgram [.loop "i" (.litU32 0) (.litU32 2)
    [.ifThen (.lt (.var "i") (.litU32 2)) [.store "out" (.var "i") (.litU32 7)] []]]

theorem guardElision_preserves_checkedStores :
    ∃ m', RunsFirst checkedStores [0] [0, 0, 0] m' ∧
      (elideTransform checkedStores).entry = [.region rootRegionGenerator none
        [.loop "i" (.litU32 0) (.litU32 2) [.block [.store "out" (.var "i") (.litU32 7)]]]] ∧
      RunsFirst (elideTransform checkedStores) [0] [0, 0, 0] m' := by
  obtain ⟨m', hrun⟩ : ∃ m', RunsFirst checkedStores [0] [0, 0, 0] m' := ⟨_, runsFirst ⟨_, rfl, rfl⟩⟩
  exact ⟨m', hrun, rfl, guardElision_preserves Function.injective_id _ _ _ _ _ _ hrun⟩

end Vyre.LoopGuards
