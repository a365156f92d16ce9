import Vyre.Optimizer.Along
import Vyre.Optimizer.BufferTouch

/-!
# Store-to-load forwarding

`optimizer/passes/memory/store_to_load_forward.rs`: a `let` that loads what a
store before it in the same body wrote takes the stored expression instead.

The pass does not ask whether the store was in bounds, whether the element type
gives the value back, or whether the names in the two operands still have their
values. Where all three are so of the stores that are forwarded, the program runs
the same.
-/

namespace Vyre.StoreToLoadForward

open Reference Reference.Eval StateExcept MemoryPass NodeMap List

def nodeBlocksForwarding (buffer : Ident) (n : Node) : Bool := nodeTouchesBuffer false buffer true n

def valueIsObservablyFree : Expr → Bool
  | .litU32 _ | .litI32 _ | .litF32 _ | .litBool _ | .var _ | .invocationId _ | .workgroupId _
  | .localId _ | .subgroupLocalId | .subgroupSize => true
  | .binOp _ left right => valueIsObservablyFree left && valueIsObservablyFree right
  | .unOp _ operand | .cast _ operand => valueIsObservablyFree operand
  | .fma a b c => valueIsObservablyFree a && valueIsObservablyFree b && valueIsObservablyFree c
  | .select cond trueVal falseVal => valueIsObservablyFree cond && valueIsObservablyFree trueVal &&
      valueIsObservablyFree falseVal
  | _ => false

section Pass

variable (fingerprint : Fingerprint)

/-- `find_forwarding_store` among the siblings before, the last of them first. -/
def findForwardingStore (buffer : Ident) (index : Expr) : List Node → Option Expr
  | [] => none
  | .store other i value :: prev =>
      if other = buffer then if i.same fingerprint index then some value else none
      else if nodeBlocksForwarding buffer (.store other i value) then none
      else findForwardingStore buffer index prev
  | n :: prev =>
      if nodeBlocksForwarding buffer n then none else findForwardingStore buffer index prev

/-- What the value of a `let` becomes after `prev`. -/
def forwardedValue (prev : List Node) : Expr → Expr
  | .load buffer index =>
      match findForwardingStore fingerprint buffer index prev with
      | some value => if valueIsObservablyFree value then value else .load buffer index
      | none => .load buffer index
  | value => value

def forwardedNode (prev : List Node) : Node → Node
  | .letBind name value => .letBind name (forwardedValue fingerprint prev value)
  | n => n

/-- What `forward_in_body` still pushes; `prev` is `out`, the last node first. -/
def forwardFrom (prev : List Node) : List Node → List Node
  | [] => []
  | n :: rest => forwardedNode fingerprint prev n ::
      forwardFrom (forwardedNode fingerprint prev n :: prev) rest

def forwardInBody (body : List Node) : List Node := forwardFrom fingerprint [] body

end Pass

variable {fingerprint : Fingerprint} {host : Host} {buffer : Ident}
  {index value : Expr} {t : Thread} {m : Memory}

/-! ## What is forwarded -/

/-- The statements before a load, the last of them first, forward a store to it:
none since the store blocks it, unless it is a `let` to which a store is forwarded
itself. -/
inductive Forwards (fingerprint : Fingerprint) :
    List Visit → Ident → Expr → Visit → Prop where
  | store {buffer : Ident} {i value index : Expr} {t : Thread} {m : Memory} (past : List Visit)
      (hsame : i.same fingerprint index = true) :
      Forwards fingerprint (⟨.store buffer i value, t, m⟩ :: past) buffer index
        ⟨.store buffer i value, t, m⟩
  | skip {past : List Visit} {buffer : Ident} {index : Expr} {store : Visit} (visit : Visit)
      (hblocks : nodeBlocksForwarding buffer visit.node = false)
      (h : Forwards fingerprint past buffer index store) :
      Forwards fingerprint (visit :: past) buffer index store
  | skipLet {past : List Visit} {buffer other : Ident} {index i value j : Expr}
      {store : Visit} {s t : Thread} {k m : Memory} (name : Ident)
      (hother : Forwards fingerprint past other i ⟨.store other j value, s, k⟩)
      (hfree : valueIsObservablyFree value = true)
      (h : Forwards fingerprint past buffer index store) :
      Forwards fingerprint (⟨.letBind name (.load other i), t, m⟩ :: past) buffer index store

/-- A store that is reached in `s` and `k` writes `v` to an element, and the buffer
gives it back from there. -/
structure Landed (host : Host) (buffer : Ident) (index value : Expr) (s : Thread) (k : Memory)
    (idx : UInt32) (v : Value) (after : Buffer) : Prop where
  stored : ∃ i k₁ k₂ b, evalExpr host [s.lane] index s.lane k = .ok (i, k₁) ∧
    i.tryAsU32 host.floats = some idx ∧ evalExpr host [s.lane] value s.lane k₁ = .ok (v, k₂) ∧
    k₂.find buffer = some b ∧ after = b.store host.floats idx v
  loaded : after.load host.floats idx = v

/-- Where a store is forwarded to a `let`, it has landed, the buffer is as it left
it, and the index and the stored expression give what they gave then. -/
def Current (fingerprint : Fingerprint) (host : Host) (past : List Visit) (n : Node)
    (_ : List Node) (t : Thread) (m : Memory) : Prop :=
  ∀ name buffer index i value s k, n = .letBind name (.load buffer index) →
    Forwards fingerprint past buffer index ⟨.store buffer i value, s, k⟩ →
    valueIsObservablyFree value = true →
    ∃ idx v after, Landed host buffer i value s k idx v after ∧
      m.find buffer = some after ∧
      (∃ j, Gives host t.lane m index j ∧ j.tryAsU32 host.floats = some idx) ∧
      Gives host t.lane m value v

theorem findForwardingStore_cons {n : Node} {prev : List Node}
    (h : findForwardingStore fingerprint buffer index (n :: prev) = some value) :
    (∃ i, n = .store buffer i value ∧ i.same fingerprint index = true) ∨
      (nodeBlocksForwarding buffer n = false ∧
        findForwardingStore fingerprint buffer index prev = some value) := by
  cases n with
  | store other i v =>
    rw [findForwardingStore] at h
    split_ifs at h with hother hsame hblocks
    · cases h
      exact .inl ⟨i, by rw [hother], hsame⟩
    · exact .inr ⟨by simpa using hblocks, h⟩
  | _ =>
    simp only [findForwardingStore] at h
    split_ifs at h with hblocks
    exact .inr ⟨by simpa using hblocks, h⟩

/-- A `let` keeps its value, or loads what a store before wrote. -/
theorem forwardedValue_cases (fingerprint : Fingerprint) (prev : List Node)
    (value : Expr) :
    forwardedValue fingerprint prev value = value ∨ ∃ buffer index stored,
      value = .load buffer index ∧ forwardedValue fingerprint prev value = stored ∧
        findForwardingStore fingerprint buffer index prev = some stored ∧
        valueIsObservablyFree stored = true := by
  unfold forwardedValue
  split
  · rename_i buffer index
    split
    · rename_i stored hfind
      split_ifs with hfree
      · exact .inr ⟨buffer, index, stored, rfl, rfl, hfind, hfree⟩
      · exact .inl rfl
    · exact .inl rfl
  · exact .inl rfl

theorem exists_store_of_findForwardingStore {prev : List Node}
    (h : findForwardingStore fingerprint buffer index prev = some value) :
    ∃ i, .store buffer i value ∈ prev ∧ i.same fingerprint index = true := by
  induction prev with
  | nil => cases h
  | cons n prev ih =>
    rcases findForwardingStore_cons h with ⟨i, rfl, hsame⟩ | ⟨-, h⟩
    · exact ⟨i, by simp, hsame⟩
    · obtain ⟨i, hmem, hsame⟩ := ih h
      exact ⟨i, by simp [hmem], hsame⟩

/-- A body that blocks no forwarding after the pass did not block it before: the
store that is forwarded to a load touches what the load touches. -/
theorem nodesTouchBuffer_of_forwardFrom {prev ns : List Node}
    (hprev : ∀ n ∈ prev, nodeBlocksForwarding buffer n = false)
    (hns : ∀ n ∈ ns, nodeBlocksForwarding buffer (rewriteNode (forwardInBody fingerprint) n) =
      false →
      nodeBlocksForwarding buffer n = false)
    (h : nodesTouchBuffer false buffer true (forwardFrom fingerprint prev
      (rewriteNodes (forwardInBody fingerprint) ns)) = false) :
    nodesTouchBuffer false buffer true ns = false := by
  induction ns generalizing prev with
  | nil => rfl
  | cons n ns ih =>
    obtain ⟨hn, hrest⟩ := Bool.or_eq_false_iff.mp h
    refine Bool.or_eq_false_iff.mpr ⟨?_, ih (List.forall_mem_cons.mpr ⟨hn, hprev⟩)
      (fun n hn => hns n (by simp [hn])) hrest⟩
    cases n with
    | letBind name e =>
      rcases forwardedValue_cases fingerprint prev e with
        hsame | ⟨other, index, stored, rfl, -, hfind, -⟩
      · simpa only [rewriteNode, forwardedNode, hsame] using hn
      · obtain ⟨i, hmem, hsame⟩ := exists_store_of_findForwardingStore hfind
        have hstore := hprev _ hmem
        simp only [nodeBlocksForwarding, nodeTouchesBuffer] at hstore
        split_ifs at hstore with hother
        have hindex := (Bool.or_eq_false_iff.mp hstore).1
        simp [nodeTouchesBuffer, exprTouchesBuffer, hother, ← exprTouchesBuffer_same hsame, hindex]
    | _ => exact hns _ (by simp) hn

theorem nodeBlocksForwarding_of_rewriteNode {n : Node}
    (h : nodeBlocksForwarding buffer (rewriteNode (forwardInBody fingerprint) n) = false) :
    nodeBlocksForwarding buffer n = false := by
  have hbody : ∀ {ns : List Node}, (∀ n ∈ ns,
      nodeBlocksForwarding buffer (rewriteNode (forwardInBody fingerprint) n) = false →
      nodeBlocksForwarding buffer n = false) →
      nodesTouchBuffer false buffer true (forwardInBody fingerprint
        (rewriteNodes (forwardInBody fingerprint) ns)) = false →
      nodesTouchBuffer false buffer true ns = false :=
    fun ih h => nodesTouchBuffer_of_forwardFrom (by simp) ih h
  induction n using bodies_induction with
  | h n ih =>
    cases n with
    | ifThen cond thenNodes otherwise =>
      simp only [nodeBlocksForwarding, rewriteNode, nodeTouchesBuffer, Bool.or_eq_false_iff] at h ⊢
      exact ⟨⟨h.1.1, hbody ih.1 h.1.2⟩, hbody ih.2 h.2⟩
    | loop var lo hi body =>
      simp only [nodeBlocksForwarding, rewriteNode, nodeTouchesBuffer, Bool.or_eq_false_iff] at h ⊢
      exact ⟨h.1, hbody ih h.2⟩
    | block body | region _ _ body => exact hbody ih h
    | _ => exact h

/-! ## Bodies -/

/-- `out` of `forward_in_body` after statements of the program, the last first. -/
def written (fingerprint : Fingerprint) : List Node → List Node
  | [] => []
  | n :: before => forwardedNode fingerprint (written fingerprint before)
      (rewriteNode (forwardInBody fingerprint) n) :: written fingerprint before

theorem forwards_of_findForwardingStore {past : List Visit}
    (h : findForwardingStore fingerprint buffer index
      (written fingerprint (past.map (·.node))) = some value) :
    ∃ i s k, Forwards fingerprint past buffer index ⟨.store buffer i value, s, k⟩ := by
  induction past generalizing buffer index value with
  | nil => cases h
  | cons visit past ih =>
    obtain ⟨n, t, m⟩ := visit
    rcases findForwardingStore_cons h with ⟨i, heq, hsame⟩ | ⟨hblocks, hfind⟩
    · cases n <;> cases heq
      exact ⟨i, t, m, .store past hsame⟩
    · obtain ⟨i, s, k, hstore⟩ := ih hfind
      refine ⟨i, s, k, ?_⟩
      have hplain :
          nodeBlocksForwarding buffer (rewriteNode (forwardInBody fingerprint) n) = false →
          Forwards fingerprint (⟨n, t, m⟩ :: past) buffer index ⟨.store buffer i value, s, k⟩ :=
        fun hn => .skip _ (nodeBlocksForwarding_of_rewriteNode hn) hstore
      cases n with
      | letBind name e =>
        rcases forwardedValue_cases fingerprint
          (written fingerprint (past.map (·.node))) e
            with hsame | ⟨other, j, stored, rfl, -, hother, hfree⟩
        · refine hplain ?_
          simpa only [List.map_cons, written, rewriteNode, forwardedNode, hsame] using hblocks
        · obtain ⟨i', s', k', hother⟩ := ih hother
          exact .skipLet name hother hfree hstore
      | _ => exact hplain hblocks

theorem edits_forwardInBody (ρ : Route) : Edits ρ (Current fingerprint ρ.host)
    (fun before ns => forwardFrom fingerprint (written fingerprint before)
      (rewriteNodes (forwardInBody fingerprint) ns))
    fun before => forwardedNode fingerprint (written fingerprint before) where
  nil _ := rfl
  cons before n rest := by
    have hmap : mapBody (fun ns => forwardFrom fingerprint (written fingerprint [])
        (rewriteNodes (forwardInBody fingerprint) ns)) n =
          rewriteNode (forwardInBody fingerprint) n := by
      cases n <;> rfl
    rw [hmap]
    rfl
  hasBody before n := by cases n <;> rfl
  barriers before n := by cases n <;> rfl
  step {past n rest t m} hcurrent π := by
    cases n with
    | letBind name e =>
      refine RefinesAt.bind ?_ fun _ _ _ _ hrun => hrun
      rcases forwardedValue_cases fingerprint
        (written fingerprint (past.map (·.node))) e
          with hsame | ⟨buffer, index, stored, rfl, hstored, hfind, hfree⟩
      · rw [hsame]
        exact fun _ hrun => hrun
      · -- The load and the stored expression both give what was stored.
        obtain ⟨i, s, k, hstore⟩ := forwards_of_findForwardingStore hfind
        obtain ⟨idx, v, after, hlanded, hafter, ⟨j, hj, hidx⟩, hv⟩ :=
          hcurrent name buffer index i stored s k rfl hstore hfree
        have hgives : Gives ρ.host t.lane m (.load buffer index) v :=
          evalExpr_load_eq_ok.mpr ⟨j, idx, after, hj, hidx, hafter, hlanded.loaded.symm⟩
        rw [hstored]
        intro r hrun
        cases hgives.symm.trans hrun
        exact hv
    | _ => exact fun _ hrun => hrun

/-- Stores past the end of `b`, and reads it back. -/
def lateStore : Program :=
  wordProgram [.store "b" (.litU32 5) (.litU32 7), .letBind "x" (.load "b" (.litU32 5)),
    .store "out" (.litU32 0) (.var "x")]

/-- Assigns the stored name before `b` is read back. -/
def reboundStore : Program :=
  wordProgram [.letBind "x" (.litU32 1), .store "b" (.litU32 0) (.var "x"), .assign "x" (.litU32 2),
    .letBind "y" (.load "b" (.litU32 0)), .store "out" (.litU32 0) (.var "y")]

/-- Stores past the end of `b`, writes a name to `b` and copies it from there to
`out`. -/
def copyThrough : Program :=
  wordProgram [.store "b" (.litU32 5) (.litU32 9), .letBind "x" (.litU32 7),
    .store "b" (.litU32 0) (.var "x"), .letBind "y" (.load "b" (.litU32 0)),
    .store "out" (.litU32 0) (.var "y")]

end Vyre.StoreToLoadForward
