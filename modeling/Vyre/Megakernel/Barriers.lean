import Vyre.Ir.Collect

/-!
# Barrier elision

`megakernel/planner/barriers.rs`: a barrier between two blocks or regions is
removed when the buffer effects collected from the two do not conflict. Staging
allocations are not modelled.
-/

namespace Vyre.Megakernel

open List Node

/-- What the collector notes. -/
inductive Effect where
  | read (buffer : Ident)
  | write (buffer : Ident)
  | unknown

/-- The own effects of an expression in `collect_expr_access`. -/
def exprEffects : Expr → List Effect
  | .load buffer _ => [.read buffer]
  | .bufLen buffer => [.read buffer]
  | .atomic _ buffer _ _ _ _ => [.read buffer, .write buffer]
  | .ext _ => [.unknown]
  | _ => []

/-- The own effects of a statement in `collect_node_access`; the collectives
fall under its last case. -/
def nodeEffects : Node → List Effect
  | .store buffer _ _ => [.write buffer]
  | .indirectDispatch countBuffer _ => [.read countBuffer]
  | .asyncLoad source destination _ _ _ | .asyncStore source destination _ _ _ =>
      [.read source, .write destination]
  | .trap _ _ => [.unknown]
  | .allReduce _ _ _ | .allGather _ _ _ | .reduceScatter _ _ _ _ | .broadcast _ _ _ => [.unknown]
  | .ext _ => [.unknown]
  | _ => []

structure AccessSet where
  reads : List Ident := []
  writes : List Ident := []
  unknown : Bool := false

def pushUnique (set : List Ident) (value : Ident) : List Ident :=
  if value ∈ set then set else set ++ [value]

def AccessSet.note (out : AccessSet) : Effect → AccessSet
  | .read buffer => { out with reads := pushUnique out.reads buffer }
  | .write buffer => { out with writes := pushUnique out.writes buffer }
  | .unknown => { out with unknown := true }

variable (n : Node)

/-- `collect_node_access`, which visits a statement before its operands and
bodies. -/
def collectNodeAccess : AccessSet :=
  (n.collect exprEffects nodeEffects).foldl AccessSet.note {}

def intersects (left right : List Ident) : Bool :=
  if left.length ≤ right.length then left.any fun value => right.any (· == value)
  else right.any fun value => left.any (· == value)

def AccessSet.conflictsWith (a b : AccessSet) : Bool :=
  intersects a.writes b.reads || intersects a.reads b.writes || intersects a.writes b.writes

def isRuntimeArm : Node → Bool
  | .block _ | .region _ _ _ => true
  | _ => false

def armsAreIndependent (left right : Node) : Bool :=
  let leftAccess := collectNodeAccess left
  let rightAccess := collectNodeAccess right
  !leftAccess.unknown && !rightAccess.unknown && !leftAccess.conflictsWith rightAccess

def isBarrier : Node → Bool
  | .barrier _ => true
  | _ => false

mutual

def nodeHasBarrier : Node → Bool
  | .barrier _ => true
  | .ifThen _ thenNodes otherwise => nodesHaveBarrier thenNodes || nodesHaveBarrier otherwise
  | .loop _ _ _ body | .block body | .region _ _ body => nodesHaveBarrier body
  | _ => false

def nodesHaveBarrier : List Node → Bool
  | [] => false
  | n :: ns => nodeHasBarrier n || nodesHaveBarrier ns

end

/-- The test of `try_elide_barrier_siblings` for a barrier between two
siblings. -/
def removable (left right : Option Node) : Bool :=
  match left, right with
  | some left, some right =>
      isRuntimeArm left && isRuntimeArm right && armsAreIndependent left right
  | _, _ => false

/-- The loop of `try_elide_barrier_siblings`, with the output so far, the last
first, and the barriers removed so far. -/
def elideBarrierSiblings (out : List Node) (removed : Nat) : List Node → List Node × Nat
  | [] => (out.reverse, removed)
  | n :: rest =>
      if isBarrier n && removable out.head? rest.head?
        then elideBarrierSiblings out (removed + 1) rest
      else elideBarrierSiblings (n :: out) removed rest

/-- `try_rewrite_nodes`, given the rewritten statements with the barriers
removed inside them. -/
def rewriteSiblings (nodes : List Node) (rewritten : List Node × Nat) : List Node × Nat :=
  if !nodesHaveBarrier nodes then (nodes, 0) else elideBarrierSiblings [] rewritten.2 rewritten.1

mutual

/-- `try_rewrite_node`. -/
def rewriteNode : Node → Node × Nat
  | .ifThen cond thenNodes otherwise =>
      let thenNodes := rewriteSiblings thenNodes (rewriteEach thenNodes)
      let otherwise := rewriteSiblings otherwise (rewriteEach otherwise)
      (.ifThen cond thenNodes.1 otherwise.1, thenNodes.2 + otherwise.2)
  | .loop var lo hi body =>
      let body := rewriteSiblings body (rewriteEach body)
      (.loop var lo hi body.1, body.2)
  | .block body =>
      let body := rewriteSiblings body (rewriteEach body)
      (.block body.1, body.2)
  | .region generator sourceRegion body =>
      let body := rewriteSiblings body (rewriteEach body)
      (.region generator sourceRegion body.1, body.2)
  | n => (n, 0)

def rewriteEach : List Node → List Node × Nat
  | [] => ([], 0)
  | n :: ns =>
      let n := rewriteNode n
      let ns := rewriteEach ns
      (n.1 :: ns.1, n.2 + ns.2)

end

/-- `try_rewrite_nodes`. -/
def rewriteNodes (nodes : List Node) : List Node × Nat := rewriteSiblings nodes (rewriteEach nodes)

/-- `elide_value_flow_barriers`, with the number of barriers it removed. -/
def elideValueFlowBarriers (program : Program) : Program × Nat :=
  if !nodesHaveBarrier program.entry then (program, 0)
  else
    let entry := rewriteNodes program.entry
    (if entry.2 = 0 then program else { program with entry := entry.1 }, entry.2)

theorem collectList_append (f : Expr → List Effect) (g : Node → List Effect) (ns ns' : List Node) :
    collectList f g (ns ++ ns') = collectList f g ns ++ collectList f g ns' := by
  induction ns with
  | nil => rfl
  | cons n ns ih => simp only [cons_append, collectList, ih, append_assoc]

theorem collectList_elideBarrierSiblings (out : List Node) (removed : Nat) (ns : List Node) :
    collectList exprEffects nodeEffects (elideBarrierSiblings out removed ns).1 =
      collectList exprEffects nodeEffects out.reverse ++
        collectList exprEffects nodeEffects ns := by
  induction ns generalizing out removed with
  | nil => simp [elideBarrierSiblings, collectList]
  | cons n ns ih =>
    rw [elideBarrierSiblings]
    by_cases hremove : (isBarrier n && removable out.head? ns.head?) = true
    · have hnone : n.collect exprEffects nodeEffects = [] := by
        cases n <;> first | rfl | cases hremove
      rw [if_pos hremove, ih, collectList, hnone, nil_append]
    · rw [if_neg hremove, ih, reverse_cons, collectList_append, collectList, collectList,
        collectList, append_nil, append_assoc]

theorem rewriteEach_fst (ns : List Node) :
    (rewriteEach ns).1 = ns.map fun n => (rewriteNode n).1 := by
  induction ns with
  | nil => rfl
  | cons n ns ih => rw [rewriteEach, map_cons, ← ih]

variable {ns : List Node}

theorem collectList_rewriteSiblings
    (h : ∀ n ∈ ns, (rewriteNode n).1.collect exprEffects nodeEffects =
      n.collect exprEffects nodeEffects) :
    collectList exprEffects nodeEffects (rewriteSiblings ns (rewriteEach ns)).1 =
      collectList exprEffects nodeEffects ns := by
  have heach : collectList exprEffects nodeEffects (rewriteEach ns).1 =
      collectList exprEffects nodeEffects ns := by
    rw [rewriteEach_fst]
    induction ns with
    | nil => rfl
    | cons n ns ih =>
      rw [map_cons, collectList, collectList, h n (by simp),
        ih fun m hm => h m (by simp [hm])]
  rw [rewriteSiblings]
  split_ifs with hbarrier
  · rfl
  · rw [collectList_elideBarrierSiblings, heach]
    rfl

theorem collect_rewriteNode :
    (rewriteNode n).1.collect exprEffects nodeEffects = n.collect exprEffects nodeEffects := by
  induction n with
  | ifThen cond thenNodes otherwise ihThen ihElse =>
    simp only [rewriteNode, collect, collectList_rewriteSiblings ihThen,
      collectList_rewriteSiblings ihElse]
    rfl
  | loop var lo hi body ih | block body ih | region _ _ body ih =>
    simp only [rewriteNode, collect, collectList_rewriteSiblings ih]
    rfl
  | _ => rfl

theorem isRuntimeArm_rewriteNode : isRuntimeArm (rewriteNode n).1 = isRuntimeArm n := by
  cases n <;> rfl

theorem isBarrier_rewriteNode : isBarrier (rewriteNode n).1 = isBarrier n := by
  cases n <;> rfl

theorem isBarrier_of_isRuntimeArm {n : Node} (h : isRuntimeArm n = true) : isBarrier n = false := by
  cases n <;> first | rfl | cases h

/-- Whether a barrier is removed does not depend on the order of the
rewrites. -/
theorem removable_rewriteNode (left right : Option Node) :
    removable (left.map fun n => (rewriteNode n).1) (right.map fun n => (rewriteNode n).1) =
      removable left right := by
  cases left with
  | none => rfl
  | some left =>
    cases right with
    | none => rfl
    | some right =>
      simp only [Option.map_some, removable, isRuntimeArm_rewriteNode, armsAreIndependent,
        collectNodeAccess, collect_rewriteNode]

def elideFrom : Option Node → List Node → List Node
  | _, [] => []
  | previous, n :: rest =>
      if isBarrier n && removable previous rest.head? then elideFrom (some n) rest
      else (rewriteNode n).1 :: elideFrom (some n) rest

theorem elideBarrierSiblings_fst (previous : Option Node) (out : List Node) (removed : Nat)
    (ns : List Node)
    (h : (ns.head?.map isBarrier = some true) →
      out.head? = previous.map fun n => (rewriteNode n).1) :
    (elideBarrierSiblings out removed (ns.map fun n => (rewriteNode n).1)).1 =
      out.reverse ++ elideFrom previous ns := by
  induction ns generalizing previous out removed with
  | nil => simp [elideBarrierSiblings, elideFrom]
  | cons n ns ih =>
    have hnext :
        (ns.map fun n => (rewriteNode n).1).head? = ns.head?.map fun n => (rewriteNode n).1 :=
      head?_map
    rw [map_cons, elideBarrierSiblings, elideFrom, isBarrier_rewriteNode, hnext]
    by_cases hbarrier : isBarrier n = true
    · rw [h (by simp [hbarrier]), removable_rewriteNode]
      by_cases hremove : removable previous ns.head? = true
      · -- The sibling after a removed barrier is an arm, so it is not a barrier.
        rw [if_pos (by simp [hbarrier, hremove]), if_pos (by simp [hbarrier, hremove])]
        apply ih
        intro hhead
        cases ns with
        | nil => cases hhead
        | cons right ns =>
          cases previous with
          | none => cases hremove
          | some left =>
            simp only [removable, head?_cons, Bool.and_eq_true] at hremove
            have hnot := isBarrier_of_isRuntimeArm hremove.1.2
            simp [hnot] at hhead
      · rw [if_neg (by simp [hremove]), if_neg (by simp [hremove]), ih (some n)]
        · simp
        · exact fun _ => rfl
    · rw [if_neg (by simp [hbarrier]), if_neg (by simp [hbarrier]), ih (some n)]
      · simp
      · exact fun _ => rfl

theorem elideFrom_of_no_barrier (previous : Option Node)
    (hbarrier : nodesHaveBarrier ns = false)
    (h : ∀ n ∈ ns, nodeHasBarrier n = false → (rewriteNode n).1 = n) :
    elideFrom previous ns = ns := by
  induction ns generalizing previous with
  | nil => rfl
  | cons n ns ih =>
    simp only [nodesHaveBarrier, Bool.or_eq_false_iff] at hbarrier
    have hnot : isBarrier n = false := by
      cases n <;> first | rfl | cases hbarrier.1
    rw [elideFrom, if_neg (by simp [hnot]), h n (by simp) hbarrier.1,
      ih (some n) hbarrier.2 fun m hm => h m (by simp [hm])]

theorem rewriteSiblings_of_no_barrier (h : nodesHaveBarrier ns = false)
    (rewritten : List Node × Nat) : rewriteSiblings ns rewritten = (ns, 0) := by
  rw [rewriteSiblings, if_pos (by simp [h])]

theorem rewriteNode_of_no_barrier {n : Node} (h : nodeHasBarrier n = false) :
    rewriteNode n = (n, 0) := by
  cases n with
  | ifThen cond thenNodes otherwise =>
    simp only [nodeHasBarrier, Bool.or_eq_false_iff] at h
    simp only [rewriteNode, rewriteSiblings_of_no_barrier h.1, rewriteSiblings_of_no_barrier h.2]
  | loop var lo hi body | block body | region _ _ body =>
    simp only [rewriteNode, rewriteSiblings_of_no_barrier h]
  | _ => rfl

theorem rewriteNodes_fst (ns : List Node) : (rewriteNodes ns).1 = elideFrom none ns := by
  rw [rewriteNodes, rewriteSiblings]
  by_cases hbarrier : nodesHaveBarrier ns = true
  · rw [if_neg (by simp [hbarrier]), rewriteEach_fst]
    exact elideBarrierSiblings_fst none [] _ ns fun _ => rfl
  · have hnone : nodesHaveBarrier ns = false := by simpa using hbarrier
    rw [if_pos (by simp [hnone])]
    exact (elideFrom_of_no_barrier none hnone
      fun n _ hn => by rw [rewriteNode_of_no_barrier hn]).symm

theorem rewriteNode_fst :
    (rewriteNode n).1 =
      match n with
      | .ifThen cond thenNodes otherwise =>
          .ifThen cond (elideFrom none thenNodes) (elideFrom none otherwise)
      | .loop var lo hi body => .loop var lo hi (elideFrom none body)
      | .block body => .block (elideFrom none body)
      | .region generator sourceRegion body => .region generator sourceRegion (elideFrom none body)
      | n => n := by
  cases n <;> simp only [rewriteNode, ← rewriteNodes_fst, rewriteNodes]

theorem le_elideBarrierSiblings_snd (out : List Node) (removed : Nat) (ns : List Node) :
    removed ≤ (elideBarrierSiblings out removed ns).2 := by
  induction ns generalizing out removed with
  | nil => exact le_rfl
  | cons n ns ih =>
    rw [elideBarrierSiblings]
    split_ifs with hremove
    · exact (Nat.le_succ removed).trans (ih out (removed + 1))
    · exact ih (n :: out) removed

theorem elideBarrierSiblings_of_snd_eq_zero {out : List Node} {removed : Nat}
    (h : (elideBarrierSiblings out removed ns).2 = 0) :
    removed = 0 ∧ (elideBarrierSiblings out removed ns).1 = out.reverse ++ ns := by
  induction ns generalizing out removed with
  | nil => exact ⟨h, (append_nil _).symm⟩
  | cons n ns ih =>
    rw [elideBarrierSiblings] at h ⊢
    split_ifs at h ⊢ with hremove
    · have := le_elideBarrierSiblings_snd out (removed + 1) ns
      omega
    · obtain ⟨hzero, hsame⟩ := ih h
      exact ⟨hzero, by rw [hsame]; simp⟩

theorem rewriteSiblings_of_snd_eq_zero
    (ih : ∀ n ∈ ns, (rewriteNode n).2 = 0 → (rewriteNode n).1 = n)
    (h : (rewriteSiblings ns (rewriteEach ns)).2 = 0) :
    (rewriteSiblings ns (rewriteEach ns)).1 = ns := by
  have heach : (rewriteEach ns).2 = 0 → (rewriteEach ns).1 = ns := by
    intro hzero
    clear h
    induction ns with
    | nil => rfl
    | cons n ns ihn =>
      simp only [rewriteEach, Nat.add_eq_zero_iff] at hzero ⊢
      rw [ih n (by simp) hzero.1, ihn (fun m hm => ih m (by simp [hm])) hzero.2]
  rw [rewriteSiblings] at h ⊢
  split_ifs at h ⊢ with hbarrier
  · rfl
  · obtain ⟨hzero, hsame⟩ := elideBarrierSiblings_of_snd_eq_zero h
    rw [hsame, heach hzero]
    rfl

theorem rewriteNode_of_snd_eq_zero (h : (rewriteNode n).2 = 0) : (rewriteNode n).1 = n := by
  induction n with
  | ifThen cond thenNodes otherwise ihThen ihElse =>
    simp only [rewriteNode, Nat.add_eq_zero_iff] at h ⊢
    rw [rewriteSiblings_of_snd_eq_zero ihThen h.1, rewriteSiblings_of_snd_eq_zero ihElse h.2]
  | loop var lo hi body ih | block body ih | region _ _ body ih =>
    simp only [rewriteNode] at h ⊢
    rw [rewriteSiblings_of_snd_eq_zero ih h]
  | _ => rfl

theorem entry_elideValueFlowBarriers (program : Program) :
    (elideValueFlowBarriers program).1.entry = elideFrom none program.entry := by
  rw [elideValueFlowBarriers]
  by_cases hbarrier : nodesHaveBarrier program.entry = true
  · rw [if_neg (by simp [hbarrier]), ← rewriteNodes_fst]
    by_cases hzero : (rewriteNodes program.entry).2 = 0
    · simp only [if_pos hzero]
      exact (rewriteSiblings_of_snd_eq_zero (fun n _ => rewriteNode_of_snd_eq_zero n) hzero).symm
    · simp only [if_neg hzero]
  · have hnone : nodesHaveBarrier program.entry = false := by simpa using hbarrier
    rw [if_pos (by simp [hnone])]
    exact (elideFrom_of_no_barrier none hnone
      fun n _ hn => by rw [rewriteNode_of_no_barrier hn]).symm

end Vyre.Megakernel
