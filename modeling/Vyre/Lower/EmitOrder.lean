import Mathlib.Data.Finset.Card
import Mathlib.Logic.Relation
import Vyre.Lower.Descriptor

/-!
# The order of emission

`rewrites/emit_order/mod.rs`: the ops of a body are put in an order in which a
value that can be moved stands before the ops that read it. The flags `emitted`
and the ops that are out already are one list here, of the indices in the order
they are emitted. A visit that does not return is `none`: with more visits open
than there are ops, some op is visited inside its own visit, and so on for ever.
-/

namespace Vyre.Lower

open List

/-- `classify_operand(kind, pos) == OperandClass::ResultRef`. It and
`operand_is_result_reference` differ on loop carriers and behind the body of a loop. -/
def isResultRef (kind : KernelOpKind) (pos : Nat) : Bool :=
  match kind with
  | .loopCarrierInit _ | .loopCarrier _ | .loopCarrierEnd _ => true
  | .structuredForLoop _ => pos == 0 || pos == 1
  | _ => operandIsResultReference kind pos

def isPureMovable : KernelOpKind → Bool
  | .literal | .localInvocationId | .globalInvocationId | .workgroupId => true
  | .subgroupLocalId | .subgroupSize | .loopIndex _ | .bufferLength | .copy => true
  | .binOpKind _ | .unOpKind _ | .fma | .select | .cast _ => true
  | _ => false

section Ops

variable (ops : List KernelOp)

/-- `BodyIndex::producer_index`: a later op of the same result takes the entry. -/
def producerIndex (id : UInt32) : Option Nat :=
  (range ops.length).reverse.find? fun i => ops[i]?.bind KernelOp.result = some id

/-- The producers that the result operands of the op at `index` refer to. -/
def producers (index : Nat) : List Nat :=
  match ops[index]? with
  | none => []
  | some op => op.operands.zipIdx.filterMap fun (operand, pos) =>
    if isResultRef op.kind pos then producerIndex ops operand else none

/-- Whether the op at `index` is pure and movable. -/
def movable (index : Nat) : Bool := ops[index]?.any fun op => isPureMovable op.kind

/-- At most `depth` visits are open at once. -/
def emitWithDependencies : (depth index : Nat) → List Nat → Option (List Nat)
  | 0, _, _ => none
  | depth + 1, index, emitted =>
    if index ∈ emitted then some emitted
    else do
      let emitted ← (producers ops index).foldlM (fun emitted producer =>
        if producer = index ∨ producer ∈ emitted then some emitted
        else if movable ops producer then emitWithDependencies depth producer emitted
        else some emitted) emitted
      some (if index ∈ emitted then emitted else emitted ++ [index])

/-- The loop of `schedule_body`. -/
def emissionOrder : Option (List Nat) :=
  (range ops.length).foldlM
    (fun emitted index => emitWithDependencies ops (ops.length + 1) index emitted) []

end Ops

mutual

def scheduleBody : KernelBody → Option KernelBody
  | ⟨ops, childBodies, literals⟩ => do
    let children ← scheduleBodies childBodies
    let order ← emissionOrder ops
    some ⟨order.filterMap (ops[·]?), children, literals⟩

def scheduleBodies : List KernelBody → Option (List KernelBody)
  | [] => some []
  | c :: cs => do
    let c ← scheduleBody c
    let cs ← scheduleBodies cs
    some (c :: cs)

end

def emitOrder (d : KernelDescriptor) : Option KernelDescriptor := do
  let body ← scheduleBody d.body
  some { d with body }

/-! ## Linearizations -/

section Ops

variable (ops : List KernelOp)

def Acyclic : Prop :=
  ∀ i, ¬ Relation.TransGen (fun p c => p ∈ producers ops c) i i

/-- `p` has to stand before `c`: as a value that `c` reads and that can be moved,
or as the earlier one of two ops that keep their places. -/
def Before (p c : Nat) : Prop :=
  (p ∈ producers ops c ∧ movable ops p) ∨ (p < c ∧ ¬ movable ops p ∧ ¬ movable ops c)

/-- What is out at any time. -/
structure Emitted (order : List Nat) : Prop where
  nodup : order.Nodup
  lt : ∀ i ∈ order, i < ops.length
  first : ∀ c ∈ order, ∀ p, Before ops p c → [p, c].Sublist order

/-- The order of a whole body. -/
structure Linearizes (order : List Nat) : Prop extends Emitted ops order where
  perm : order.Perm (range ops.length)

end Ops

/-- Two trees of bodies where each body of the second lists the ops of the first
in an order that linearizes them. -/
inductive Linearized : KernelBody → KernelBody → Prop
  | mk {ops : List KernelOp} {order : List Nat} {children children' : List KernelBody}
      (literals : List LiteralValue) (horder : Linearizes ops order)
      (hchildren : List.Forall₂ Linearized children children') :
      Linearized ⟨ops, children, literals⟩ ⟨order.filterMap (ops[·]?), children', literals⟩

variable {ops : List KernelOp} {emitted : List Nat} {index : Nat}

theorem lt_of_mem_producers {p c : Nat} (h : p ∈ producers ops c) : p < ops.length := by
  unfold producers at h
  split at h
  case h_1 => cases h
  case h_2 op _ =>
    obtain ⟨⟨operand, pos⟩, -, hp⟩ := mem_filterMap.mp h
    dsimp only at hp
    split at hp
    · exact mem_range.mp (mem_reverse.mp (mem_of_find?_eq_some hp))
    · cases hp

theorem Emitted.push (h : Emitted ops emitted) (hindex : index < ops.length)
    (hnot : index ∉ emitted) (hfirst : ∀ p, Before ops p index → p ∈ emitted) :
    Emitted ops (emitted ++ [index]) where
  nodup := nodup_append.mpr ⟨h.nodup, nodup_singleton _, by
    rintro a ha _ hb rfl
    exact hnot (mem_singleton.mp hb ▸ ha)⟩
  lt := forall_mem_append.mpr ⟨h.lt, forall_mem_singleton.mpr hindex⟩
  first := forall_mem_append.mpr ⟨
    fun c hc p hp => (h.first c hc p hp).trans (sublist_append_left _ _),
    forall_mem_singleton.mpr fun p hp =>
      (singleton_sublist.mpr (hfirst p hp)).append (List.Sublist.refl _)⟩

/-- What a visit of `index` does. -/
def Visits (ops : List KernelOp) (depth index : Nat) : Prop :=
  ∀ emitted, Emitted ops emitted → (¬ movable ops index → ∀ p < index, p ∈ emitted) →
    ∃ out, emitWithDependencies ops depth index emitted = some out ∧
      Emitted ops out ∧ emitted ⊆ out ∧ index ∈ out

theorem foldlM_producers {deps : List Nat} {depth : Nat} (hself : index ∉ deps)
    (hvisits : ∀ p ∈ deps, Visits ops depth p) (h : Emitted ops emitted) :
    ∃ out, deps.foldlM (fun emitted producer =>
        if producer = index ∨ producer ∈ emitted then some emitted
        else if movable ops producer then emitWithDependencies ops depth producer emitted
        else some emitted) emitted = some out ∧
      Emitted ops out ∧ emitted ⊆ out ∧ ∀ p ∈ deps, movable ops p → p ∈ out := by
  induction deps generalizing emitted with
  | nil => exact ⟨emitted, rfl, h, List.Subset.refl _, by simp⟩
  | cons p deps ih =>
    obtain ⟨hp, hdeps⟩ := forall_mem_cons.mp hvisits
    obtain ⟨hne, hself⟩ := ne_and_not_mem_of_not_mem_cons hself
    by_cases hmem : p ∈ emitted
    · obtain ⟨out, hout, hordered, hsub, hall⟩ := ih hself hdeps h
      exact ⟨out, by simpa [hmem] using hout, hordered, hsub,
        forall_mem_cons.mpr ⟨fun _ => hsub hmem, hall⟩⟩
    by_cases hm : movable ops p
    · obtain ⟨mid, hmid, hordered, hsub, hpmid⟩ := hp emitted h fun hnot => absurd hm hnot
      obtain ⟨out, hout, hordered, hsub', hall⟩ := ih hself hdeps hordered
      exact ⟨out, by simpa [Ne.symm hne, hmem, hm, hmid] using hout, hordered,
        List.Subset.trans hsub hsub', forall_mem_cons.mpr ⟨fun _ => hsub' hpmid, hall⟩⟩
    · obtain ⟨out, hout, hordered, hsub, hall⟩ := ih hself hdeps h
      exact ⟨out, by simpa [hm] using hout, hordered, hsub,
        forall_mem_cons.mpr ⟨fun hp => absurd hp hm, hall⟩⟩

open scoped Classical in
/-- The ops that a visit of `index` can reach. -/
noncomputable def reached (ops : List KernelOp) (index : Nat) : Finset Nat :=
  {p ∈ Finset.range ops.length | Relation.TransGen (fun p c => p ∈ producers ops c) p index}

theorem mem_reached {p : Nat} : p ∈ reached ops index ↔
    p < ops.length ∧ Relation.TransGen (fun p c => p ∈ producers ops c) p index := by
  simp [reached]

theorem reached_ssubset {p : Nat} (hacyclic : Acyclic ops) (hp : p ∈ producers ops index) :
    reached ops p ⊂ reached ops index := by
  have hsub : reached ops p ⊆ reached ops index := by
    intro q hq
    obtain ⟨hlt, hpath⟩ := mem_reached.mp hq
    exact mem_reached.mpr ⟨hlt, hpath.tail hp⟩
  refine (Finset.ssubset_iff_of_subset hsub).mpr ⟨p, ?_, ?_⟩
  · exact mem_reached.mpr ⟨lt_of_mem_producers hp, .single hp⟩
  · exact fun h => hacyclic p (mem_reached.mp h).2

theorem visits_of_acyclic {depth : Nat} (hacyclic : Acyclic ops) (hindex : index < ops.length)
    (hdepth : (reached ops index).card < depth) : Visits ops depth index := by
  induction depth generalizing index with
  | zero => cases hdepth
  | succ depth ih =>
    intro emitted h hearlier
    rw [emitWithDependencies]
    by_cases hmem : index ∈ emitted
    · rw [if_pos hmem]
      exact ⟨emitted, rfl, h, List.Subset.refl _, hmem⟩
    rw [if_neg hmem]
    obtain ⟨next, hnext, hordered, hsub, hdeps⟩ :=
      foldlM_producers (fun hself => hacyclic index (.single hself))
        (fun p hp => ih (lt_of_mem_producers hp)
          ((Finset.card_lt_card (reached_ssubset hacyclic hp)).trans_le (Nat.le_of_lt_succ hdepth)))
            h
    refine ⟨_, by rw [hnext]; rfl, ?_⟩
    split
    next hin => exact ⟨hordered, hsub, hin⟩
    next hin =>
      refine ⟨hordered.push hindex hin ?_,
        List.Subset.trans hsub (subset_append_left _ _), by simp⟩
      rintro p (⟨hp, hm⟩ | ⟨hlt, -, hm⟩)
      · exact hdeps p hp hm
      · exact hsub (hearlier hm p hlt)

theorem emissionOrder_spec (hacyclic : Acyclic ops) :
    ∃ order, emissionOrder ops = some order ∧ Linearizes ops order := by
  have hloop : ∀ count ≤ ops.length, ∃ order, (range count).foldlM
      (fun emitted index => emitWithDependencies ops (ops.length + 1) index emitted) [] =
        some order ∧
      Emitted ops order ∧ range count ⊆ order := by
    intro count hcount
    induction count with
    | zero => exact ⟨[], rfl, ⟨nodup_nil, by simp, by simp⟩, by simp⟩
    | succ count ih =>
      obtain ⟨emitted, hrun, hemitted, hsub⟩ := ih (by omega)
      have hreached : reached ops count ⊆ Finset.range ops.length :=
        fun p hp => Finset.mem_range.mpr (mem_reached.mp hp).1
      have hcard : (reached ops count).card < ops.length + 1 := by
        simpa [Nat.lt_succ_iff] using Finset.card_le_card hreached
      obtain ⟨out, hout, hordered, hsub', hmem⟩ :=
        visits_of_acyclic hacyclic hcount hcard emitted hemitted
        fun _ p hp => hsub (mem_range.mpr hp)
      refine ⟨out, ?_, hordered, ?_⟩
      · rw [range_succ, foldlM_append, hrun]
        simpa using hout
      · rw [range_succ]
        exact append_subset.mpr ⟨List.Subset.trans hsub hsub', by simpa using hmem⟩
  obtain ⟨order, horder, hordered, hsub⟩ := hloop ops.length le_rfl
  refine ⟨order, horder, hordered, ?_⟩
  exact (perm_ext_iff_of_nodup hordered.nodup nodup_range).mpr fun i =>
    ⟨fun hi => mem_range.mpr (hordered.lt i hi), fun hi => hsub hi⟩

theorem scheduleBodies_spec {cs : List KernelBody}
    (h : ∀ c ∈ cs, ∃ c', scheduleBody c = some c' ∧ Linearized c c') :
    ∃ cs', scheduleBodies cs = some cs' ∧ List.Forall₂ Linearized cs cs' := by
  induction cs with
  | nil => exact ⟨[], rfl, .nil⟩
  | cons c cs ih =>
    obtain ⟨c', hc, hl⟩ := h c mem_cons_self
    obtain ⟨cs', hcs, hls⟩ := ih fun d hd => h d (mem_cons_of_mem _ hd)
    exact ⟨c' :: cs', by rw [scheduleBodies, hc, hcs]; rfl, .cons hl hls⟩

theorem scheduleBody_spec {b : KernelBody} (h : ∀ b' ∈ b.bodies, Acyclic b'.ops) :
    ∃ b', scheduleBody b = some b' ∧ Linearized b b' := by
  induction b with
  | mk ops childBodies literals ih =>
    obtain ⟨children, hchildren, hls⟩ := scheduleBodies_spec fun c hc =>
      ih c hc fun b' hb' => h b' (KernelBody.mem_bodies_of_child hc hb')
    obtain ⟨order, horder, hl⟩ := emissionOrder_spec (h _ (KernelBody.self_mem_bodies _))
    exact ⟨_, by rw [scheduleBody, hchildren, horder]; rfl, .mk literals hl hls⟩

/-- The pass returns, and every body of the tree it returns is a linearization. -/
theorem emitOrder_linearizes (d : KernelDescriptor)
    (h : ∀ b ∈ d.body.bodies, Acyclic b.ops) :
    ∃ b, emitOrder d = some { d with body := b } ∧ Linearized d.body b := by
  obtain ⟨b, hb, hl⟩ := scheduleBody_spec h
  exact ⟨b, by rw [emitOrder, hb]; rfl, hl⟩

def lateValue : KernelDescriptor where
  id := "late"
  bindings := []
  workgroupSize := (1, 1, 1)
  body := ⟨[⟨.storeGlobal, [0, 1, 1], none⟩, ⟨.literal, [0], some 1⟩], [], [.u32 7]⟩

theorem acyclic_lateValue : ∀ b ∈ lateValue.body.bodies, Acyclic b.ops := by
  intro b hb i hi
  obtain rfl := mem_singleton.mp hb
  have hlater : ∀ p c, p ∈ producers lateValue.body.ops c → p > c := by
    intro p c h
    rcases c with _ | _ | c
    · revert p
      decide
    · revert p
      decide
    · cases h
  exact lt_irrefl i (Relation.transGen_minimal hlater i i hi)

theorem emitOrder_linearizes_lateValue :
    ∃ b, emitOrder lateValue = some { lateValue with body := b } ∧ Linearized lateValue.body b :=
  emitOrder_linearizes lateValue acyclic_lateValue

end Vyre.Lower
