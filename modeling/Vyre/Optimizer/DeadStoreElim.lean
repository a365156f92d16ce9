import Vyre.Optimizer.Along
import Vyre.Optimizer.BufferTouch
import Vyre.Reference.Reads

/-!
# Dead-store elimination

`optimizer/passes/memory/dead_store_elim.rs`: a store is dropped when a store
to the same element follows in the same body before anything that observes the
buffer.

The pass does not look at the operands of a store to the buffer, the
overwriting one included, nor at assignments to the names of the index, nor at
the effects of what it drops. Where what a dropped store wrote is written over
before it is read, and its operands have no effects, the program runs the same
and reads the same.
-/

namespace Vyre.DeadStoreElim

open Reference Reference.Eval StateExcept MemoryPass NodeMap List

def nodeObservesBuffer (buffer : Ident) (n : Node) : Bool := nodeTouchesBuffer true buffer false n

section Pass

variable (fingerprint : Fingerprint)

def overwrites (buffer : Ident) (index : Expr) : Node → Bool
  | .store other i _ => other = buffer && index.same fingerprint i
  | _ => false

/-- The inner loop of `drop_dead_stores`: the siblings after a store overwrite
it before one of them observes the buffer. -/
def isOverwritten (buffer : Ident) (index : Expr) : List Node → Bool
  | [] => false
  | n :: rest =>
      if overwrites fingerprint buffer index n then true
      else if nodeObservesBuffer buffer n then false
      else isOverwritten buffer index rest

def isDead (rest : List Node) : Node → Bool
  | .store buffer index _ => isOverwritten fingerprint buffer index rest
  | _ => false

def dropDeadStores : List Node → List Node
  | [] => []
  | n :: rest => if isDead fingerprint rest n then dropDeadStores rest else n :: dropDeadStores rest

end Pass

variable {fingerprint : Fingerprint} {host : Host} {buffer : Ident}
  {index value : Expr} {t : Thread} {m m' : Memory} {ns : List Node} {n : Node}

/-! ## What becomes of a dropped store -/

section Idle

variable (fingerprint : Fingerprint) (host : Host)

/-- The pass drops the statement, given the statements after it in its body. -/
def isDropped (rest : List Node) (n : Node) : Bool :=
  isDead fingerprint (rewriteNodes (dropDeadStores fingerprint) rest) n

/-- A store that is reached in `t` and `m` writes `s`. Its operands leave `m'`. -/
def Writes (buffer : Ident) (index value : Expr) (t : Thread) (m m' : Memory) (s : Span) : Prop :=
  ∃ i m₁ idx v b, evalExpr host [t.lane] index t.lane m = .ok (i, m₁) ∧
    i.tryAsU32 host.floats = some idx ∧ evalExpr host [t.lane] value t.lane m₁ = .ok (v, m') ∧
    m'.find buffer = some b ∧ s = ⟨buffer, (b.storeData host.floats idx v).1,
      (b.storeData host.floats idx v).2.length⟩

/-- A run goes on to the first store to `index`, which writes over `s`. Until then,
and for its operands, nothing that the pass keeps reads bytes of `s`. -/
def Until (s : Span) (index : Expr) : List Node → Thread → Memory → Prop
  | [], _, _ => False
  | n :: rest, t, m =>
      (isDropped fingerprint rest n = false →
        ∀ r ∈ nodeReads host (isDropped fingerprint) n t m, r.Avoids s.Has) ∧
      if overwrites fingerprint s.buffer index n then
        ∃ i value m' s', n = .store s.buffer i value ∧ Writes host s.buffer i value t m m' s' ∧
          ∀ name p, s.Has name p → s'.Has name p
      else ∃ t' m', runNode host n t m = .ok (.next t', m') ∧ Until s index rest t' m'

/-- A store that the pass drops has operands that change nothing, and what it
writes is written over before it is read. -/
def Idle (_ : List Visit) (n : Node) (rest : List Node) (t : Thread) (m : Memory) : Prop :=
  isDropped fingerprint rest n = true → ∀ buffer index value, n = .store buffer index value →
    ∃ s, Writes host buffer index value t m m s ∧
      ∀ m', runNode host n t m = .ok (.next t, m') → Until fingerprint host s index rest t m'

end Idle

theorem Writes.unique {m₁ m₂ : Memory} {s₁ s₂ : Span}
    (h₁ : Writes host buffer index value t m m₁ s₁)
    (h₂ : Writes host buffer index value t m m₂ s₂) : m₁ = m₂ ∧ s₁ = s₂ := by
  obtain ⟨i, k, idx, v, b, hi, hidx, hv, hb, rfl⟩ := h₁
  obtain ⟨i', k', idx', v', b', hi', hidx', hv', hb', rfl⟩ := h₂
  cases hi.symm.trans hi'
  cases hidx.symm.trans hidx'
  cases hv.symm.trans hv'
  cases hb.symm.trans hb'
  exact ⟨rfl, rfl⟩

/-! ## Bodies -/

/-- The bytes in which the memories may differ: those of the bodies around, and
those of the stores that were dropped and are not written over yet. -/
def Stale (outer : Ident → Nat → Prop) (pending : List (Span × Expr)) (name : Ident) (p : Nat) :
    Prop :=
  outer name p ∨ ∃ q ∈ pending, q.1.Has name p

theorem containsBarrier_dropDeadStores (ns : List Node) :
    containsBarrier (dropDeadStores fingerprint ns) = containsBarrier ns := by
  induction ns with
  | nil => rfl
  | cons n ns ih =>
    rw [dropDeadStores]
    split_ifs with hdead
    · cases n with
      | store buffer index value => exact ih
      | _ => cases hdead
    · rw [containsBarrier, containsBarrier, ih]

/-- What is left of a body. -/
def kept (fingerprint : Fingerprint) (ns : List Node) : List Node :=
  dropDeadStores fingerprint (rewriteNodes (dropDeadStores fingerprint) ns)

theorem kept_cons (n : Node) (rest : List Node) : kept fingerprint (n :: rest) =
    if isDropped fingerprint rest n then kept fingerprint rest
    else mapBody (kept fingerprint) n :: kept fingerprint rest := by
  have hdead : isDead fingerprint (rewriteNodes (dropDeadStores fingerprint) rest)
      (rewriteNode (dropDeadStores fingerprint) n) = isDropped fingerprint rest n := by
    cases n <;> rfl
  have hnode : rewriteNode (dropDeadStores fingerprint) n = mapBody (kept fingerprint) n := by
    cases n <;> rfl
  rw [kept, rewriteNodes, dropDeadStores, hdead, hnode]
  rfl

theorem containsBarrier_kept (ns : List Node) :
    containsBarrier (kept fingerprint ns) = containsBarrier ns := by
  have hlist : ∀ {ns : List Node}, (∀ n ∈ ns,
      nodeContainsBarrier (rewriteNode (dropDeadStores fingerprint) n) = nodeContainsBarrier n) →
      containsBarrier (kept fingerprint ns) = containsBarrier ns := by
    intro ns hns
    rw [kept, containsBarrier_dropDeadStores, rewriteNodes_eq, containsBarrier_map hns]
  refine hlist fun n hn => ?_
  clear hn
  induction n using bodies_induction with
  | h n ih =>
    cases n with
    | ifThen cond thenNodes otherwise =>
      exact congrArg₂ (· || ·) (hlist ih.1) (hlist ih.2)
    | loop var lo hi body | block body => exact hlist ih
    | _ => rfl

/-- A statement runs the same after the pass, from memories that differ in bytes
that it does not read. -/
def NodeFollows (fingerprint : Fingerprint) (ρ : Route) (n : Node) : Prop :=
  ∀ π t m m' D out m₁, AlongNode ρ.host (Idle fingerprint ρ.host) n t m → Apart D m m' →
    (∀ r ∈ nodeReads ρ.host (isDropped fingerprint) n t m, r.Avoids D) →
    runNode (ρ.on π) n t m = .ok (out, m₁) →
    ∃ m₁', runNode (ρ.on π) (mapBody (kept fingerprint) n) t m' = .ok (out, m₁') ∧
      Apart D m₁ m₁' ∧
      nodeReads ρ.host (fun _ _ => false) (mapBody (kept fingerprint) n) t m' =
        nodeReads ρ.host (isDropped fingerprint) n t m

variable {ρ : Route} {outer : Ident → Nat → Prop} {pending : List (Span × Expr)} {π : Plan}
  {out : Outcome Thread} {m₁ : Memory} {rest : List Node}

/-- What a statement leaves behind after the pass, when it is run from memories that
differ in the stale bytes. -/
def StepsTo (fingerprint : Fingerprint) (ρ : Route) (π : Plan)
    (outer : Ident → Nat → Prop) (n : Node) (rest : List Node) (t : Thread) (m m' : Memory)
    (out : Outcome Thread) (m₁ : Memory) : Prop :=
  ∃ m₁' pending, runNode (ρ.on π) (mapBody (kept fingerprint) n) t m' =
      .ok (out, m₁') ∧ Apart (Stale outer pending) m₁ m₁' ∧
    (∀ q ∈ pending, ∃ t', out = .next t' ∧ Until fingerprint ρ.host q.1 q.2 rest t' m₁) ∧
    nodeReads ρ.host (fun _ _ => false) (mapBody (kept fingerprint) n) t m' =
      nodeReads ρ.host (isDropped fingerprint) n t m

theorem Until.step {s : Span} (h : Until fingerprint ρ.host s index (n :: rest) t m)
    (hover : overwrites fingerprint s.buffer index n = false)
    (hrun : runNode (ρ.on π) n t m = .ok (out, m₁)) :
    ∃ t', out = .next t' ∧ Until fingerprint ρ.host s index rest t' m₁ := by
  obtain ⟨-, h⟩ := h
  rw [if_neg (by simp [hover])] at h
  obtain ⟨t', m', hnext, h⟩ := h
  cases hnext.symm.trans (runNode_free n π t m _ hrun)
  exact ⟨t', rfl, h⟩

section Kept

variable (hkept : isDropped fingerprint rest n = false)
  (hpending : ∀ q ∈ pending, Until fingerprint ρ.host q.1 q.2 (n :: rest) t m)
  (hm : Apart (Stale outer pending) m m')
  (hreads : ∀ r ∈ nodeReads ρ.host (isDropped fingerprint) n t m, r.Avoids outer)

include hkept hpending hreads in
theorem avoids_stale : ∀ r ∈ nodeReads ρ.host (isDropped fingerprint) n t m,
    r.Avoids (Stale outer pending) := by
  rintro r hr name p hhas (hout | ⟨q, hq, hstale⟩)
  · exact hreads r hr name p hhas hout
  · exact (hpending q hq).1 hkept r hr name p hhas hstale

include hkept hpending hm hreads

theorem stepsTo_of_follows (hn : NodeFollows fingerprint ρ n)
    (hstore : ∀ buffer index value, n ≠ .store buffer index value)
    (halong : AlongNode ρ.host (Idle fingerprint ρ.host) n t m)
    (hrun : runNode (ρ.on π) n t m = .ok (out, m₁)) :
    StepsTo fingerprint ρ π outer n rest t m m' out m₁ := by
  obtain ⟨m₁', hrun', hm₁, hsame⟩ :=
    hn π t m m' _ out m₁ halong hm (avoids_stale hkept hpending hreads) hrun
  refine ⟨m₁', pending, hrun', hm₁, fun q hq => (hpending q hq).step ?_ hrun, hsame⟩
  cases n with
  | store buffer index value => exact absurd rfl (hstore buffer index value)
  | _ => rfl

end Kept

/-- The stores that are still to be written over after a statement. -/
def stillPending (fingerprint : Fingerprint) (pending : List (Span × Expr))
    (n : Node) : List (Span × Expr) :=
  pending.filter fun q => !overwrites fingerprint q.1.buffer q.2 n

theorem Until.stillPending
    (hpending : ∀ q ∈ pending, Until fingerprint ρ.host q.1 q.2 (n :: rest) t m)
    (hrun : runNode (ρ.on π) n t m = .ok (out, m₁)) :
    ∀ q ∈ stillPending fingerprint pending n,
      ∃ t', out = .next t' ∧ Until fingerprint ρ.host q.1 q.2 rest t' m₁ := by
  intro q hq
  obtain ⟨hq, hover⟩ := mem_filter.mp hq
  exact (hpending q hq).step (by simpa using hover) hrun

/-- A stale byte that a store does not write is of a store that it does not
write over. -/
theorem Stale.after_store {s : Span} {key : Ident} {p : Nat} {m₁ : Memory}
    (hstale : Stale outer pending key p)
    (hpending : ∀ q ∈ pending,
      Until fingerprint ρ.host q.1 q.2 (.store buffer index value :: rest) t m)
    (hwrites : Writes ρ.host buffer index value t m m₁ s) :
    s.Has key p ∨
      Stale outer (stillPending fingerprint pending (.store buffer index value)) key p := by
  rcases hstale with hout | ⟨q, hq, hhas⟩
  · exact .inr (.inl hout)
  · obtain ⟨-, huntil⟩ := hpending q hq
    split_ifs at huntil with hover
    · obtain ⟨_, _, _, _, heq, hwrites', hcovers⟩ := huntil
      cases heq
      obtain ⟨-, rfl⟩ := hwrites.unique hwrites'
      exact .inl (hcovers key p hhas)
    · exact .inr (.inr ⟨q, mem_filter.mpr ⟨hq, by simpa using hover⟩, hhas⟩)

/-- A store that the pass keeps ends what it writes over. -/
theorem stepsTo_store (hkept : isDropped fingerprint rest (.store buffer index value) = false)
    (hpending : ∀ q ∈ pending,
      Until fingerprint ρ.host q.1 q.2 (.store buffer index value :: rest) t m)
    (hm : Apart (Stale outer pending) m m')
    (hreads : ∀ r ∈ nodeReads ρ.host (isDropped fingerprint) (.store buffer index value) t m,
      r.Avoids outer)
    (hrun : runNode (ρ.on π) (.store buffer index value) t m = .ok (out, m₁)) :
    StepsTo fingerprint ρ π outer (.store buffer index value) rest t m m' out m₁ := by
  have havoids := avoids_stale hkept hpending hreads
  obtain ⟨i, k₁, idx, v, k₂, b, hi, hidx, hv, hb, rfl, rfl⟩ := runNode_store_eq_ok.mp hrun
  rw [Route.on_host] at hi hidx hv
  simp only [nodeReads, plainReads, thenReads_of_ok hi, forall_mem_append] at havoids
  obtain ⟨k₁', hi', hk₁, hsamei⟩ := readsSame_evalExpr index m m' i k₁ hm havoids.1 hi
  obtain ⟨k₂', hv', hk₂, hsamev⟩ := readsSame_evalExpr value k₁ k₁' v k₂ hk₁ havoids.2 hv
  obtain ⟨b', hb', hnear⟩ := hk₂.find hb
  have hwrites : Writes ρ.host buffer index value t m k₂ _ :=
    ⟨i, k₁, idx, v, b, hi, hidx, hv, hb, rfl⟩
  refine ⟨_, stillPending fingerprint pending (.store buffer index value),
    runNode_store_eq_ok.mpr ⟨i, k₁', idx, v, k₂', b', hi', hidx, hv', hb', rfl, rfl⟩,
    hk₂.update ((hnear.store v).mono fun p hp => ?_) fun key p hkey hD => ?_,
    Until.stillPending hpending hrun, ?_⟩
  · exact (hp.1.after_store hpending hwrites).resolve_left fun hhas => hp.2 hhas.2
  · exact (hD.after_store hpending hwrites).resolve_left fun hhas => hkey hhas.1.symm
  · simp only [mapBody, nodeReads, plainReads, thenReads_of_ok hi, thenReads_of_ok hi', hsamei,
      hsamev]

theorem Apart.of_stale (h : Apart (Stale outer pending) m m') (hnone : ∀ q, q ∉ pending) :
    Apart outer m m' := by
  refine h.mono fun name p hstale => ?_
  rcases hstale with hout | ⟨q, hq, -⟩
  · exact hout
  · exact absurd hq (hnone q)

/-- A store that the pass drops makes its bytes stale, until they are written over. -/
theorem pending_of_dropped {past : List Visit} (hdrop : isDropped fingerprint rest n = true)
    (hidle : Idle fingerprint ρ.host past n rest t m)
    (hpending : ∀ q ∈ pending, Until fingerprint ρ.host q.1 q.2 (n :: rest) t m)
    (hm : Apart (Stale outer pending) m m')
    (hrun : runNode (ρ.on π) n t m = .ok (out, m₁)) :
    out = .next t ∧ hasBody n = false ∧ ∃ pending', Apart (Stale outer pending') m₁ m' ∧
      ∀ q ∈ pending', Until fingerprint ρ.host q.1 q.2 rest t m₁ := by
  cases n with
  | store buffer index value =>
    obtain ⟨s, hwrites, huntil⟩ := hidle hdrop buffer index value rfl
    replace huntil := huntil m₁
    have hfree := runNode_free _ π t m _ hrun
    obtain ⟨i, k₁, idx, v, k₂, b, hi, hidx, hv, hb, rfl, rfl⟩ := runNode_store_eq_ok.mp hrun
    rw [Route.on_host] at hi hidx hv
    obtain ⟨rfl, rfl⟩ := hwrites.unique ⟨i, k₁, idx, v, b, hi, hidx, hv, hb, rfl⟩
    let own : Span := ⟨buffer, (b.storeData ρ.host.floats idx v).1,
      (b.storeData ρ.host.floats idx v).2.length⟩
    refine ⟨rfl, rfl,
      (own, index) :: stillPending fingerprint pending (.store buffer index value), ?_, ?_⟩
    · refine (hm.store_left hb ρ.host.floats idx v).mono fun key p hstale => ?_
      -- What it writes over is among its own bytes.
      rcases hstale.symm.elim .inl (·.after_store hpending hwrites) with hhas | hout | ⟨q, hq, hhas⟩
      · exact .inr ⟨_, mem_cons_self, hhas⟩
      · exact .inl hout
      · exact .inr ⟨q, mem_cons_of_mem _ hq, hhas⟩
    · intro q hq
      rcases mem_cons.mp hq with rfl | hq
      · exact huntil hfree
      · obtain ⟨t', ht', hrest⟩ := Until.stillPending hpending hrun q hq
        cases ht'
        exact hrest
  | _ => cases hdrop

/-- The statements of a body run the same without the stores that are dropped. -/
theorem follows_nodes {past : List Visit} (hns : ∀ n ∈ ns, NodeFollows fingerprint ρ n)
    (halong : AlongNodes ρ.host (Idle fingerprint ρ.host) past ns t m)
    (hpending : ∀ q ∈ pending, Until fingerprint ρ.host q.1 q.2 ns t m)
    (hm : Apart (Stale outer pending) m m')
    (hreads : ∀ r ∈ nodesReads ρ.host (isDropped fingerprint) ns t m, r.Avoids outer)
    (hrun : runNodes (ρ.on π) ns t m = .ok (out, m₁)) :
    ∃ m₁', runNodes (ρ.on π) (kept fingerprint ns) t m' = .ok (out, m₁') ∧ Apart outer m₁ m₁' ∧
      nodesReads ρ.host (fun _ _ => false) (kept fingerprint ns) t m' =
        nodesReads ρ.host (isDropped fingerprint) ns t m := by
  induction ns generalizing past pending π t m m' with
  | nil =>
    cases hrun
    exact ⟨m', rfl, Apart.of_stale hm hpending, rfl⟩
  | cons n rest ih =>
    obtain ⟨hidle, hnode, hafter⟩ := halong
    obtain ⟨out₁, k, hn, hrest⟩ := bind_eq_ok.mp hrun
    have hfree := runNode_free n π t m _ hn
    replace hns : NodeFollows fingerprint ρ n ∧ ∀ n ∈ rest, NodeFollows fingerprint ρ n :=
      forall_mem_cons.mp hns
    rw [nodesReads, thenReads_of_ok hfree] at hreads ⊢
    rw [forall_mem_append] at hreads
    rw [kept_cons]
    by_cases hdrop : isDropped fingerprint rest n = true
    · obtain ⟨rfl, hbody, pending', hm, hpending⟩ :=
        pending_of_dropped hdrop hidle hpending hm hn
      have hsame : (ρ.on π).after n = ρ.on π := by
        rw [Route.after, Plan.after, hbody]
        rfl
      rw [hsame] at hrest
      rw [if_pos hdrop, if_pos hdrop]
      exact ih hns.2 (hafter t k hfree) hpending hm hreads.2 hrest
    · rw [if_neg hdrop] at hreads ⊢
      rw [if_neg hdrop]
      have hkept : isDropped fingerprint rest n = false := by simpa using hdrop
      have hstep : StepsTo fingerprint ρ π outer n rest t m m' out₁ k := by
        cases n with
        | store buffer index value => exact stepsTo_store hkept hpending hm hreads.1 hn
        | _ => exact stepsTo_of_follows hkept hpending hm hreads.1 hns.1 (by simp) hnode hn
      obtain ⟨k', pending', hn', hk, hpending, hsame⟩ := hstep
      have hfree' := runNode_free _ π t m' _ hn'
      have hplan : (ρ.on π).after (mapBody (kept fingerprint) n) = (ρ.on π).after n := by
        cases n <;> rfl
      rw [nodesReads, thenReads_of_ok hfree', runNodes, hplan, if_neg Bool.false_ne_true, hsame]
      cases out₁ with
      | returned t' =>
        cases hrest
        refine ⟨k', bind_eq_ok.mpr ⟨_, k', hn', rfl⟩, Apart.of_stale hk fun q hq => ?_, rfl⟩
        obtain ⟨t', hnext, -⟩ := hpending q hq
        cases hnext
      | next t' =>
        obtain ⟨m₁', hrest', hm₁, hreads'⟩ := ih hns.2 (hafter t' k hfree) (fun q hq => by
          obtain ⟨t', hnext, huntil⟩ := hpending q hq
          cases hnext
          exact huntil) hk hreads.2 hrest
        exact ⟨m₁', bind_eq_ok.mpr ⟨_, k', hn', hrest'⟩, hm₁, congrArg _ hreads'⟩

section Statements

variable {D : Ident → Nat → Prop} (hns : ∀ n ∈ ns, NodeFollows fingerprint ρ n)

include hns

theorem follows_body (halong : AlongNodes ρ.host (Idle fingerprint ρ.host) [] ns t m)
    (hm : Apart D m m')
    (hreads : ∀ r ∈ nodesReads ρ.host (isDropped fingerprint) ns t m, r.Avoids D)
    (hrun : runNodes (ρ.on π) ns t m = .ok (out, m₁)) :
    ∃ m₁', runNodes (ρ.on π) (kept fingerprint ns) t m' = .ok (out, m₁') ∧ Apart D m₁ m₁' ∧
      nodesReads ρ.host (fun _ _ => false) (kept fingerprint ns) t m' =
        nodesReads ρ.host (isDropped fingerprint) ns t m :=
  follows_nodes hns halong (forall_mem_nil _) (hm.mono fun _ _ => .inl) hreads hrun

theorem follows_leave (halong : AlongNodes ρ.host (Idle fingerprint ρ.host) [] ns t m)
    (hm : Apart D m m')
    (hreads : ∀ r ∈ nodesReads ρ.host (isDropped fingerprint) ns t m, r.Avoids D)
    (hrun : (Outcome.map t.leave <$> runNodes (ρ.on π) ns t) m = .ok (out, m₁)) :
    ∃ m₁', (Outcome.map t.leave <$> runNodes (ρ.on π) (kept fingerprint ns) t) m' = .ok (out, m₁') ∧
      Apart D m₁ m₁' ∧ nodesReads ρ.host (fun _ _ => false) (kept fingerprint ns) t m' =
        nodesReads ρ.host (isDropped fingerprint) ns t m := by
  obtain ⟨out', m₂, hrun, hout⟩ := map_eq_ok.mp hrun
  cases hout
  obtain ⟨m₂', hrun', hm₂, hsame⟩ := follows_body hns halong hm hreads hrun
  exact ⟨m₂', map_eq_ok.mpr ⟨out', m₂', hrun', rfl⟩, hm₂, hsame⟩

theorem follows_runLoop {var : Ident} {left : Nat} {next : UInt32}
    (halong : AlongLoop (runNodes ρ.host ns) (AlongNodes ρ.host (Idle fingerprint ρ.host) [] ns) var
      left next t m) (hm : Apart D m m')
    (hreads : ∀ r ∈ loopReads (runNodes ρ.host ns) (nodesReads ρ.host (isDropped fingerprint) ns)
      var left next t m, r.Avoids D)
    (hrun : runLoop (runNodes (ρ.on π) ns) var left next t m = .ok (out, m₁)) :
    ∃ m₁', runLoop (runNodes (ρ.on π) (kept fingerprint ns)) var left next t m' = .ok (out, m₁') ∧
      Apart D m₁ m₁' ∧
      loopReads (runNodes ρ.host (kept fingerprint ns))
        (nodesReads ρ.host (fun _ _ => false) (kept fingerprint ns)) var left next t m' =
        loopReads (runNodes ρ.host ns) (nodesReads ρ.host (isDropped fingerprint) ns) var left next
          t m := by
  induction left generalizing next t m m' with
  | zero =>
    cases hrun
    exact ⟨m', rfl, hm, rfl⟩
  | succ left ih =>
    obtain ⟨hnone, out₁, k, hbody, hrest⟩ := runLoop_succ_eq_ok.mp hrun
    have hentered := (Thread.bindLoopVar_eq_ok (v := .u32 next)).mpr ⟨hnone, rfl⟩
    obtain ⟨halong, hafter⟩ := halong _ hentered
    have hfree := runNodes_free ns π _ m _ hbody
    simp only [loopReads, hentered, thenReads_of_ok hfree, forall_mem_append] at hreads ⊢
    obtain ⟨k', hbody', hk, hsame⟩ := follows_body hns halong hm hreads.1 hbody
    rw [thenReads_of_ok (runNodes_free _ π _ m' _ hbody'), hsame]
    cases out₁ with
    | returned t' =>
      cases hrest
      exact ⟨k', runLoop_succ_eq_ok.mpr ⟨hnone, _, k', hbody', rfl⟩, hk, rfl⟩
    | next t' =>
      obtain ⟨m₁', hrest', hm₁, hreads'⟩ := ih (hafter t' k hfree) hk hreads.2 hrest
      exact ⟨m₁', runLoop_succ_eq_ok.mpr ⟨hnone, _, k', hbody', hrest'⟩, hm₁, congrArg _ hreads'⟩

end Statements

theorem nodeFollows (n : Node) : NodeFollows fingerprint ρ n := by
  induction n using bodies_induction with
  | h n ih =>
    intro π t m m' D out m₁ halong hm hreads hrun
    cases n with
    | ifThen cond thenNodes otherwise =>
      obtain ⟨v, k, hv, hchecked⟩ := bind_eq_ok.mp hrun
      obtain ⟨_, k₁, hcheck, hbranch⟩ := bind_eq_ok.mp hchecked
      obtain rfl := Route.check_memory hcheck
      rw [Route.on_host] at hv hcheck hbranch
      simp only [nodeReads, thenReads_of_ok hv, forall_mem_append] at hreads
      obtain ⟨k', hv', hk, hsame⟩ := readsSame_evalExpr cond m m' v k₁ hm hreads.1 hv
      have halong := halong v k₁ hv
      -- The check does not look at the memory.
      obtain ⟨_, k'', hcheck', -, rfl⟩ :=
        follows_check (R := fun _ n => n = k') rfl id _ k₁ k' _ _ rfl hcheck
      have hrun' : ∀ r, (Outcome.map t.leave <$> bif v.truthy ρ.host.floats then
            runNodes (ρ.on (π.under .inner)) (kept fingerprint thenNodes) t
          else runNodes (ρ.on (π.under .other)) (kept fingerprint otherwise) t) k'' = .ok r →
          runNode (ρ.on π) (.ifThen cond (kept fingerprint thenNodes)
            (kept fingerprint otherwise)) t m' = .ok r := by
        intro r hr
        refine bind_eq_ok.mpr ⟨v, k'', hv', bind_eq_ok.mpr ⟨(), k'', ?_, hr⟩⟩
        rw [containsBarrier_kept, containsBarrier_kept]
        exact hcheck'
      simp only [mapBody, nodeReads, thenReads_of_ok hv, thenReads_of_ok hv', hsame]
      cases htruthy : v.truthy ρ.host.floats with
      | true =>
        rw [htruthy] at halong hreads hbranch hrun'
        obtain ⟨m₁', hbranch', hm₁, hreads'⟩ := follows_leave ih.1 halong hk hreads.2 hbranch
        exact ⟨m₁', hrun' _ hbranch', hm₁, congrArg _ hreads'⟩
      | false =>
        rw [htruthy] at halong hreads hbranch hrun'
        obtain ⟨m₁', hbranch', hm₁, hreads'⟩ := follows_leave ih.2 halong hk hreads.2 hbranch
        exact ⟨m₁', hrun' _ hbranch', hm₁, congrArg _ hreads'⟩
    | loop var lo hi body =>
      obtain ⟨bounds, k, hbounds, hrun⟩ := bind_eq_ok.mp hrun
      rw [Route.on_host] at hbounds
      obtain ⟨v, k₁, w, hlo, hfirst, hhi, hstop⟩ := loopBounds_eq_ok.mp hbounds
      simp only [nodeReads, thenReads_of_ok hbounds, thenReads_of_ok hlo, forall_mem_append]
        at hreads
      obtain ⟨k₁', hlo', hk₁, hsamelo⟩ := readsSame_evalExpr lo m m' v k₁ hm hreads.1.1 hlo
      obtain ⟨k', hhi', hk, hsamehi⟩ := readsSame_evalExpr hi k₁ k₁' w k hk₁ hreads.1.2 hhi
      have hbounds' := loopBounds_eq_ok.mpr ⟨v, k₁', w, hlo', hfirst, hhi', hstop⟩
      obtain ⟨m₁', hrun', hm₁, hsame⟩ :=
        follows_runLoop ih (halong bounds k hbounds) hk hreads.2 hrun
      refine ⟨m₁', bind_eq_ok.mpr ⟨bounds, k', hbounds', hrun'⟩, hm₁, ?_⟩
      simp only [mapBody, nodeReads, thenReads_of_ok hbounds, thenReads_of_ok hbounds',
        thenReads_of_ok hlo, thenReads_of_ok hlo', hsamelo, hsamehi, hsame]
    | block body | region _ _ body =>
      exact follows_leave ih halong hm hreads hrun
    | _ => exact readsSame_plain rfl π t m m' out m₁ hm hreads hrun

/-! ## The pass -/

def storeSuccessor : Program :=
  wordProgram [.store "b" (.litU32 0) (.litU32 5),
    .store "b" (.litU32 0) (.binOp .add (.load "b" (.litU32 0)) (.litU32 1))]

def movedIndex : Program :=
  wordProgram [.letBind "i" (.litU32 0), .store "b" (.var "i") (.litU32 5),
    .assign "i" (.litU32 1), .store "b" (.var "i") (.litU32 6)]

def clearTwice : Program :=
  wordProgram [.store "b" (.litU32 0) (.litU32 0), .letBind "x" (.load "out" (.litU32 0)),
    .store "b" (.litU32 0) (.var "x")]

end Vyre.DeadStoreElim
