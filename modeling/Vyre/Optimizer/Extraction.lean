import Mathlib.Order.Bounds.Defs
import Vyre.Lib.ByteCodec
import Vyre.Optimizer.Completeness

/-!
# Extraction from the e-graph

`extract_best`: the costs of the classes are lowered until nothing changes, at
most 1024 times over the nodes. A table that has come to rest holds the least
costs of the finite terms, also where classes are cyclic.
-/

namespace Vyre.Optimizer

open ByteCodec EGraph List ENodeLang

variable {L : Type} [ENodeLang L]

/-- `saturating_add` on `u64`. -/
def saturatingAddU64 (a b : Nat) : Nat := min (a + b) (2 ^ 64 - 1)

/-- The table `costs`: the best node of a class so far and its cost. Every index
has been checked against the number of classes. -/
abbrev Costs (L : Type) := Nat → Option (L × Nat)

section Extract

variable (g : EGraph L) (costFn : L → UInt64)

/-- The loop over the children of a node, which ends at a class without a cost. -/
def addChildCosts (costs : Costs L) : List Nat → Nat → Except EGraphError (Option Nat)
  | [], nodeCost => .ok (some nodeCost)
  | child :: rest, nodeCost => do
    let canonChild ← g.tryFindImmut child
    let idx ← eclassIndex canonChild g.classes.length "egraph extraction child class"
    match costs idx with
    | some (_, c) => addChildCosts costs rest (saturatingAddU64 nodeCost c)
    | none => return none

/-- One node of the loop over the graph, with the flag `changed`. -/
def relaxNode (state : Costs L × Bool) (entry : Nat × L) : Except EGraphError (Costs L × Bool) := do
  let idx ← eclassIndex entry.1 g.classes.length "egraph extraction class"
  match ← addChildCosts g state.1 (children entry.2) (costFn entry.2).toNat with
  | none => return state
  | some nodeCost =>
    if (state.1 idx).any fun best => best.2 ≤ nodeCost then return state
    else return (Function.update state.1 idx (some (entry.2, nodeCost)), true)

/-- The loop `while changed`, with the value of `changed` it ends with. -/
def relaxLoop : Nat → Costs L → Except EGraphError (Costs L × Bool)
  | 0, costs => .ok (costs, true)
  | iters + 1, costs => do
    let (costs, changed) ← g.iterNodes.foldlM (relaxNode g costFn) (costs, false)
    if changed then relaxLoop iters costs else return (costs, false)

def extractionCosts : Except EGraphError (Costs L × Bool) := relaxLoop g costFn 1024 fun _ => none

def tryExtractBest (id : Nat) : Except EGraphError (Option (L × Nat)) := do
  let (costs, _) ← extractionCosts g costFn
  let canon ← g.tryFindImmut id
  let idx ← eclassIndex canon g.classes.length "egraph extraction root class"
  return costs idx

def extractBest (id : Nat) : Option (L × Nat) :=
  match tryExtractBest g costFn id with
  | .ok best => best
  | .error _ => none

end Extract

inductive Term (L : Type) where
  | node (n : L) (args : List (Term L))

mutual

def Term.cost (costFn : L → UInt64) : Term L → Nat
  | .node n args => Term.addCosts costFn args (costFn n).toNat

def Term.addCosts (costFn : L → UInt64) : List (Term L) → Nat → Nat
  | [], total => total
  | t :: ts, total => Term.addCosts costFn ts (saturatingAddU64 total (t.cost costFn))

end

/-- The class of `i` represents the term: a node of it, over terms of the classes
of its children. -/
inductive Represents (g : EGraph L) : Nat → Term L → Prop
  | node {i : Nat} {n : L} {args : List (Term L)} (mem : n ∈ g.nodesAt (g.rootOf i))
      (length : args.length = (children n).length)
      (children : ∀ p ∈ (children n).zip args, Represents g p.1 p.2) : Represents g i (.node n args)

/-! ## The table -/

section Table

variable {g : EGraph L} {costFn : L → UInt64} {costs : Costs L} {state state' : Costs L × Bool}
  {cs : List Nat} {total k : Nat}

def Achieved (g : EGraph L) (costFn : L → UInt64) (costs : Costs L) : Prop :=
  ∀ i n k, costs i = some (n, k) →
    n ∈ g.nodesAt i ∧ ∃ t, Represents g i t ∧ t.cost costFn = k

/-- No way over the node is cheaper than what the table holds for its class. -/
def AtRest (g : EGraph L) (costFn : L → UInt64) (costs : Costs L) (entry : Nat × L) : Prop :=
  ∀ k, addChildCosts g costs (children entry.2) (costFn entry.2).toNat = .ok (some k) →
    ∃ best, costs entry.1 = some best ∧ best.2 ≤ k

theorem relaxNode_cases {entry : Nat × L} (h : relaxNode g costFn state entry = .ok state') :
    state' = state ∧ AtRest g costFn state.1 entry ∨
      ∃ k, addChildCosts g state.1 (children entry.2) (costFn entry.2).toNat = .ok (some k) ∧
        state' = (Function.update state.1 entry.1 (some (entry.2, k)), true) := by
  obtain ⟨idx, hidx, h⟩ := bind_eq_ok.mp h
  obtain ⟨cost, hcost, h⟩ := bind_eq_ok.mp h
  obtain ⟨-, rfl⟩ := ite_error_eq_ok.mp hidx
  unfold AtRest
  rw [hcost]
  cases cost with
  | none =>
    cases h
    exact .inl ⟨rfl, nofun⟩
  | some k =>
    dsimp only at h
    split at h
    · rename_i hbest
      cases h
      refine .inl ⟨rfl, ?_⟩
      rintro k' ⟨⟩
      simpa [Option.any_eq_true] using hbest
    · cases h
      exact .inr ⟨k, rfl, rfl⟩

variable (hg : g.WellFormed)

include hg

theorem represents_of_root {i : Nat} {t : Term L} (h : Represents g (g.rootOf i) t) :
    Represents g i t := by
  cases h with
  | node mem length children =>
    rw [hg.rootOf_rootOf] at mem
    exact .node mem length children

theorem addChildCosts_cons {c : Nat} (hc : c < g.classes.length) :
    addChildCosts g costs (c :: cs) total =
      match costs (g.rootOf c) with
      | some (_, k) => addChildCosts g costs cs (saturatingAddU64 total k)
      | none => .ok none := by
  rw [addChildCosts, hg.tryFindImmut hc]
  simp only [bind, Except.bind, eclassIndex, if_pos (hg.rootOf_lt hc)]
  rfl

theorem Achieved.addChildCosts (h : Achieved g costFn costs) (hcs : ∀ c ∈ cs, c < g.classes.length)
    (hk : addChildCosts g costs cs total = .ok (some k)) :
    ∃ args, args.length = cs.length ∧ (∀ p ∈ cs.zip args, Represents g p.1 p.2) ∧
      Term.addCosts costFn args total = k := by
  induction cs generalizing total with
  | nil =>
    cases hk
    exact ⟨[], rfl, by simp, rfl⟩
  | cons c cs ih =>
    rw [addChildCosts_cons hg (hcs c mem_cons_self)] at hk
    split at hk
    · rename_i hcost
      obtain ⟨-, t, ht, rfl⟩ := h _ _ _ hcost
      obtain ⟨args, hlen, hargs, rfl⟩ := ih (fun c hc => hcs c (mem_cons_of_mem _ hc)) hk
      refine ⟨t :: args, by simp [hlen], ?_, rfl⟩
      rw [zip_cons_cons, forall_mem_cons]
      exact ⟨represents_of_root hg ht, hargs⟩
    · cases hk

theorem Achieved.relaxNode {entry : Nat × L} (h : Achieved g costFn state.1)
    (hentry : entry ∈ g.iterNodes) (hrun : relaxNode g costFn state entry = .ok state') :
    Achieved g costFn state'.1 := by
  rcases relaxNode_cases hrun with ⟨rfl, -⟩ | ⟨k, hk, rfl⟩
  · exact h
  · obtain ⟨hroot, hmem⟩ := (mem_iterNodes hg).mp hentry
    intro i n c hi
    simp only [Function.update_apply] at hi
    split at hi
    · rename_i heq
      cases heq
      cases hi
      obtain ⟨args, hlen, hargs, hcost⟩ := h.addChildCosts hg (hg.children _ _ hmem) hk
      exact ⟨hmem, .node entry.2 args, .node (hroot.symm ▸ hmem) hlen hargs, hcost⟩
    · exact h i n c hi

/-- One iteration over the nodes: the table still holds costs of terms, and if
nothing has changed, every node is at rest. -/
theorem relaxNodes_spec {entries : List (Nat × L)} (h : Achieved g costFn state.1)
    (hsub : entries ⊆ g.iterNodes) (hrun : entries.foldlM (relaxNode g costFn) state = .ok state') :
    Achieved g costFn state'.1 ∧
      (state'.2 = false → state' = state ∧ ∀ entry ∈ entries, AtRest g costFn state.1 entry) := by
  induction entries generalizing state with
  | nil =>
    cases hrun
    exact ⟨h, fun _ => ⟨rfl, by simp⟩⟩
  | cons entry entries ih =>
    obtain ⟨hentry, hsub⟩ := cons_subset.mp hsub
    obtain ⟨next, hstep, hrun⟩ := bind_eq_ok.mp hrun
    obtain ⟨hach, hrest⟩ := ih (h.relaxNode hg hentry hstep) hsub hrun
    refine ⟨hach, ?_⟩
    intro hsame
    obtain ⟨rfl, hrest⟩ := hrest hsame
    rcases relaxNode_cases hstep with ⟨rfl, hfirst⟩ | ⟨k, -, rfl⟩
    · exact ⟨rfl, forall_mem_cons.mpr ⟨hfirst, hrest⟩⟩
    · cases hsame

theorem relaxLoop_spec {iters : Nat} {costs' : Costs L} (h : Achieved g costFn costs)
    (hrun : relaxLoop g costFn iters costs = .ok (costs', false)) :
    Achieved g costFn costs' ∧ ∀ entry ∈ g.iterNodes, AtRest g costFn costs' entry := by
  induction iters generalizing costs with
  | zero => cases hrun
  | succ iters ih =>
    obtain ⟨⟨costs₁, changed⟩, hpass, hrun⟩ := bind_eq_ok.mp hrun
    obtain ⟨hach, hrest⟩ := relaxNodes_spec hg h (Subset.refl _) hpass
    cases changed with
    | true => exact ih hach hrun
    | false =>
      cases hrun
      obtain ⟨heq, hrest⟩ := hrest rfl
      cases heq
      exact ⟨h, hrest⟩

theorem addChildCosts_le {args : List (Term L)} {total' : Nat}
    (hcs : ∀ c ∈ cs, c < g.classes.length) (hlen : args.length = cs.length)
    (h : ∀ p ∈ cs.zip args, ∃ best, costs (g.rootOf p.1) = some best ∧ best.2 ≤ p.2.cost costFn)
    (htotal : total ≤ total') :
    ∃ k, addChildCosts g costs cs total = .ok (some k) ∧ k ≤ Term.addCosts costFn args total' := by
  induction cs generalizing args total total' with
  | nil =>
    cases length_eq_zero_iff.mp hlen
    exact ⟨total, rfl, htotal⟩
  | cons c cs ih =>
    cases args with
    | nil => cases hlen
    | cons t args =>
      rw [zip_cons_cons, forall_mem_cons] at h
      obtain ⟨⟨⟨n, k⟩, hbest, hle⟩, h⟩ := h
      rw [addChildCosts_cons hg (hcs c mem_cons_self), hbest]
      apply ih (fun c hc => hcs c (mem_cons_of_mem _ hc)) (by simpa using hlen) h
      exact min_le_min_right _ (Nat.add_le_add htotal hle)

theorem le_cost_of_represents {i : Nat} {t : Term L}
    (hrest : ∀ entry ∈ g.iterNodes, AtRest g costFn costs entry) (h : Represents g i t) :
    ∃ best, costs (g.rootOf i) = some best ∧ best.2 ≤ t.cost costFn := by
  -- the induction is on the term: a cycle of classes is unrolled finitely often
  induction h with
  | @node i n args mem length _ ih =>
    obtain ⟨k, hk, hle⟩ := addChildCosts_le hg (hg.children _ n mem) length ih (Nat.le_refl _)
    obtain ⟨best, hbest, hbestle⟩ :=
      hrest (g.rootOf i, n) ((mem_iterNodes hg).mpr ⟨hg.rootOf_rootOf i, mem⟩) k hk
    exact ⟨best, hbest, hbestle.trans hle⟩

end Table

/-- An iteration over the costs that ends because nothing has changed finds the
least cost of a term of the class, and no node where there is no term. -/
theorem extractBest_optimal {g : EGraph L} (hg : g.WellFormed) (costFn : L → UInt64) {id : Nat}
    (hid : id < g.classes.length) (hstop : ∃ costs, extractionCosts g costFn = .ok (costs, false)) :
    (extractBest g costFn id = none ↔ ∀ t, ¬ Represents g id t) ∧
      ∀ n k, extractBest g costFn id = some (n, k) → n ∈ g.nodesAt (g.rootOf id) ∧
        IsLeast {c | ∃ t, Represents g id t ∧ t.cost costFn = c} k := by
  obtain ⟨costs, hstop⟩ := hstop
  have hbest : extractBest g costFn id = costs (g.rootOf id) := by
    simp only [extractBest, tryExtractBest, hstop, hg.tryFindImmut hid, bind, Except.bind,
      eclassIndex, if_pos (hg.rootOf_lt hid)]
    rfl
  obtain ⟨hach, hrest⟩ := relaxLoop_spec hg (by intro i n k h; cases h) hstop
  rw [hbest]
  refine ⟨⟨?_, ?_⟩, ?_⟩
  · intro hnone t ht
    obtain ⟨best, hsome, -⟩ := le_cost_of_represents hg hrest ht
    rw [hnone] at hsome
    cases hsome
  · intro hterm
    cases hsome : costs (g.rootOf id) with
    | none => rfl
    | some best =>
      obtain ⟨-, t, ht, -⟩ := hach _ best.1 best.2 hsome
      exact absurd (represents_of_root hg ht) (hterm t)
  · intro n k hsome
    obtain ⟨hmem, t, ht, hcost⟩ := hach _ n k hsome
    refine ⟨hmem, ⟨t, represents_of_root hg ht, hcost⟩, ?_⟩
    rintro c ⟨t, ht, rfl⟩
    obtain ⟨best, hbest, hle⟩ := le_cost_of_represents hg hrest ht
    rw [hsome] at hbest
    cases hbest
    exact hle

theorem extractBest_optimal_cyclic : ∃ g : EGraph Arith,
    extractBest g (fun _ => 1) 1 = some (.const 7, 1) ∧
    IsLeast {c | ∃ t, Represents g 1 t ∧ t.cost (fun _ => 1) = c} 1 := by
  have hbest : extractBest (Session.run [.add (.const 7), .add (.add 0 0), .union 0 1]).graph
      (fun _ => 1) 1 = some (Arith.const 7, 1) := by decide
  exact ⟨_, hbest,
    ((extractBest_optimal (sound_run _).wf _ (by decide) ⟨_, rfl⟩).2 _ _ hbest).2⟩

end Vyre.Optimizer
