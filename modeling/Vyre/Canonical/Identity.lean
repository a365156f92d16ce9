import Vyre.Canonical.Canonicalize
import Vyre.Wire.ProgramRoundTrip

/-!
# Canonical identity

Two programs that differ only in the order of their buffer declarations and in
swapped operands have the same canonical wire bytes. For operands this always
holds. For buffers it holds exactly when the sort key tells apart every two
declarations that the encoder writes differently.
-/

namespace Vyre.Canonical

open ByteCodec Wire List

/-- The canonicalizer sorts the operands of `op left right`. -/
def Sortable (op : BinOp) (left right : Expr) : Prop :=
  canSortAllOperands op = true ∨
    isCommutativeBinop op = true ∧ (isLiteral left = true ∨ isLiteral right = true)

/-- One pair of sortable operands is swapped, at any depth. -/
inductive ExprSwap : Expr → Expr → Prop
  | here {op left right} : Sortable op left right →
      ExprSwap (.binOp op left right) (.binOp op right left)
  | binOpLeft {op left left' right} : ExprSwap left left' →
      ExprSwap (.binOp op left right) (.binOp op left' right)
  | binOpRight {op left right right'} : ExprSwap right right' →
      ExprSwap (.binOp op left right) (.binOp op left right')
  | unOp {op e e'} : ExprSwap e e' → ExprSwap (.unOp op e) (.unOp op e')
  | load {buffer e e'} : ExprSwap e e' → ExprSwap (.load buffer e) (.load buffer e')
  | call {opId before e e' after} : ExprSwap e e' →
      ExprSwap (.call opId (before ++ e :: after)) (.call opId (before ++ e' :: after))
  | selectCond {e e' t f} : ExprSwap e e' → ExprSwap (.select e t f) (.select e' t f)
  | selectTrue {c e e' f} : ExprSwap e e' → ExprSwap (.select c e f) (.select c e' f)
  | selectFalse {c t e e'} : ExprSwap e e' → ExprSwap (.select c t e) (.select c t e')
  | cast {target e e'} : ExprSwap e e' → ExprSwap (.cast target e) (.cast target e')
  | fmaA {e e' b c} : ExprSwap e e' → ExprSwap (.fma e b c) (.fma e' b c)
  | fmaB {a e e' c} : ExprSwap e e' → ExprSwap (.fma a e c) (.fma a e' c)
  | fmaC {a b e e'} : ExprSwap e e' → ExprSwap (.fma a b e) (.fma a b e')
  | atomicIndex {op buffer e e' expected value ordering} : ExprSwap e e' →
      ExprSwap (.atomic op buffer e expected value ordering)
        (.atomic op buffer e' expected value ordering)
  | atomicExpected {op buffer index e e' value ordering} : ExprSwap e e' →
      ExprSwap (.atomic op buffer index (some e) value ordering)
        (.atomic op buffer index (some e') value ordering)
  | atomicValue {op buffer index expected e e' ordering} : ExprSwap e e' →
      ExprSwap (.atomic op buffer index expected e ordering)
        (.atomic op buffer index expected e' ordering)
  | subgroupBallot {e e'} : ExprSwap e e' → ExprSwap (.subgroupBallot e) (.subgroupBallot e')
  | shuffleValue {e e' lane} : ExprSwap e e' →
      ExprSwap (.subgroupShuffle e lane) (.subgroupShuffle e' lane)
  | shuffleLane {value e e'} : ExprSwap e e' →
      ExprSwap (.subgroupShuffle value e) (.subgroupShuffle value e')
  | subgroupAdd {e e'} : ExprSwap e e' → ExprSwap (.subgroupAdd e) (.subgroupAdd e')

/-- One swap inside a statement. -/
inductive NodeSwap : Node → Node → Prop
  | letBind {name e e'} : ExprSwap e e' → NodeSwap (.letBind name e) (.letBind name e')
  | assign {name e e'} : ExprSwap e e' → NodeSwap (.assign name e) (.assign name e')
  | storeIndex {buffer e e' value} : ExprSwap e e' →
      NodeSwap (.store buffer e value) (.store buffer e' value)
  | storeValue {buffer index e e'} : ExprSwap e e' →
      NodeSwap (.store buffer index e) (.store buffer index e')
  | ifCond {e e' thenNodes otherwise} : ExprSwap e e' →
      NodeSwap (.ifThen e thenNodes otherwise) (.ifThen e' thenNodes otherwise)
  | ifThen {cond before n n' after otherwise} : NodeSwap n n' →
      NodeSwap (.ifThen cond (before ++ n :: after) otherwise)
        (.ifThen cond (before ++ n' :: after) otherwise)
  | ifElse {cond thenNodes before n n' after} : NodeSwap n n' →
      NodeSwap (.ifThen cond thenNodes (before ++ n :: after))
        (.ifThen cond thenNodes (before ++ n' :: after))
  | loopLo {var e e' hi body} :
      ExprSwap e e' → NodeSwap (.loop var e hi body) (.loop var e' hi body)
  | loopHi {var lo e e' body} :
      ExprSwap e e' → NodeSwap (.loop var lo e body) (.loop var lo e' body)
  | loopBody {var lo hi before n n' after} : NodeSwap n n' →
      NodeSwap (.loop var lo hi (before ++ n :: after)) (.loop var lo hi (before ++ n' :: after))
  | asyncLoadOffset {source destination e e' size tag} : ExprSwap e e' →
      NodeSwap (.asyncLoad source destination e size tag)
        (.asyncLoad source destination e' size tag)
  | asyncLoadSize {source destination offset e e' tag} : ExprSwap e e' →
      NodeSwap (.asyncLoad source destination offset e tag)
        (.asyncLoad source destination offset e' tag)
  | asyncStoreOffset {source destination e e' size tag} : ExprSwap e e' →
      NodeSwap (.asyncStore source destination e size tag)
        (.asyncStore source destination e' size tag)
  | asyncStoreSize {source destination offset e e' tag} : ExprSwap e e' →
      NodeSwap (.asyncStore source destination offset e tag)
        (.asyncStore source destination offset e' tag)
  | trap {e e' tag} : ExprSwap e e' → NodeSwap (.trap e tag) (.trap e' tag)
  | block {before n n' after} : NodeSwap n n' →
      NodeSwap (.block (before ++ n :: after)) (.block (before ++ n' :: after))
  | region {generator sourceRegion before n n' after} : NodeSwap n n' →
      NodeSwap (.region generator sourceRegion (before ++ n :: after))
        (.region generator sourceRegion (before ++ n' :: after))

/-- One change of declaration order, or one swap. -/
inductive RearrangedOnce : Program → Program → Prop
  | buffers {p : Program} {buffers} : p.buffers.Perm buffers →
      RearrangedOnce p { p with buffers }
  | entry {p : Program} {before n n' after} : p.entry = before ++ n :: after → NodeSwap n n' →
      RearrangedOnce p { p with entry := before ++ n' :: after }

/-- The programs differ only in the order of their buffer declarations and in
swapped operands. -/
def Rearranged : Program → Program → Prop := Relation.ReflTransGen RearrangedOnce

/-! ## Expressions -/

/-- Of two expressions, the second is written as the first. -/
structure SameExpr (e e' : Expr) : Prop where
  literal : isLiteral e' = isLiteral e
  wire : EncodableExpr e → EncodableExpr e' ∧ exprBytes e' = exprBytes e

theorem SameExpr.refl (e : Expr) : SameExpr e e := ⟨rfl, fun h => ⟨h, rfl⟩⟩

variable {e left right : Expr} {op : BinOp} {ns ns' : List Node} {n n' : Node} {b b' : BufferDecl}
  {p : Program} {host : Host} {bytes x y : List UInt8}

theorem exprWireKey_of_encodable (h : EncodableExpr e) : exprWireKey e = exprBytes e := by
  rw [exprWireKey, putExpr_eq_ok.mpr ⟨h, rfl⟩]

theorem encodable_sortOperands :
    EncodableExpr (sortOperands op left right) ↔ EncodableExpr left ∧ EncodableExpr right := by
  rw [sortOperands]
  split
  · rw [EncodableExpr, and_comm]
  · rw [EncodableExpr]

theorem shouldSwapOperands_congr {left' right' : Expr} (hl : SameExpr left left')
    (hr : SameExpr right right') (hel : EncodableExpr left) (her : EncodableExpr right) :
    shouldSwapOperands op left' right' = shouldSwapOperands op left right := by
  obtain ⟨hel', hbl⟩ := hl.wire hel
  obtain ⟨her', hbr⟩ := hr.wire her
  simp only [shouldSwapOperands, hl.literal, hr.literal, exprWireKey_of_encodable, hel, her, hel',
    her', hbl, hbr]

theorem SameExpr.sortOperands {left' right' : Expr} (hl : SameExpr left left')
    (hr : SameExpr right right') :
    SameExpr (sortOperands op left right) (sortOperands op left' right') where
  literal := by
    unfold Canonical.sortOperands
    split <;> split <;> rfl
  wire := by
    intro he
    obtain ⟨hel, her⟩ := encodable_sortOperands.mp he
    obtain ⟨hel', hbl⟩ := hl.wire hel
    obtain ⟨her', hbr⟩ := hr.wire her
    refine ⟨encodable_sortOperands.mpr ⟨hel', her'⟩, ?_⟩
    unfold Canonical.sortOperands
    rw [shouldSwapOperands_congr hl hr hel her]
    split <;> simp only [exprBytes, hbl, hbr]

section

variable (h : Sortable op left right)

include h

theorem shouldSwapOperands_of_sortable (hel : EncodableExpr left)
    (her : EncodableExpr right) :
    shouldSwapOperands op left right =
      (if isLiteral left = isLiteral right then decide (exprBytes right < exprBytes left)
      else isLiteral left) := by
  have hcomm : isCommutativeBinop op = true := by
    rcases h with h | ⟨h, -⟩
    · cases op <;> first | rfl | cases h
    · exact h
  unfold shouldSwapOperands
  rw [if_pos hcomm, exprWireKey_of_encodable hel, exprWireKey_of_encodable her]
  cases hl : isLiteral left <;> cases hr : isLiteral right
  · -- Without a literal the operator itself has to be one that is sorted.
    have hsort : canSortAllOperands op = true := by
      rcases h with h | ⟨-, h | h⟩
      · exact h
      · rw [hl] at h
        cases h
      · rw [hr] at h
        cases h
    simp [hsort]
  · rfl
  · rfl
  · rfl

theorem Sortable.symm :
    Sortable op right left := h.imp id fun h => ⟨h.1, h.2.symm⟩

/-- Neither order is preferred only when both operands are written the same. -/
theorem exprBytes_eq_of_tie (hel : EncodableExpr left)
    (her : EncodableExpr right)
    (htie : shouldSwapOperands op right left = shouldSwapOperands op left right) :
    exprBytes left = exprBytes right := by
  rw [shouldSwapOperands_of_sortable h hel her, shouldSwapOperands_of_sortable h.symm her hel]
    at htie
  by_cases hlit : isLiteral left = isLiteral right
  · rw [if_pos hlit, if_pos hlit.symm, decide_eq_decide] at htie
    have hnot : ¬ exprBytes left < exprBytes right := fun hlt =>
      List.lt_asymm hlt (htie.mp hlt)
    exact List.le_antisymm (fun hlt => hnot (htie.mpr hlt)) hnot
  · rw [if_neg hlit, if_neg (Ne.symm hlit)] at htie
    exact absurd htie.symm hlit

/-- Sorting forgets the order of sortable operands, up to what is written. -/
theorem sameExpr_sortOperands_comm :
    SameExpr (sortOperands op left right) (sortOperands op right left) where
  literal := by
    unfold sortOperands
    split <;> split <;> rfl
  wire := by
    intro he
    obtain ⟨hel, her⟩ := encodable_sortOperands.mp he
    refine ⟨encodable_sortOperands.mpr ⟨her, hel⟩, ?_⟩
    unfold sortOperands
    by_cases htie : shouldSwapOperands op right left = shouldSwapOperands op left right
    · have hbytes := exprBytes_eq_of_tie h hel her htie
      split <;> split <;> simp only [exprBytes, hbytes]
    · cases hl : shouldSwapOperands op left right <;> cases hr : shouldSwapOperands op right left
      · exact absurd (hr.trans hl.symm) htie
      · rfl
      · rfl
      · exact absurd (hr.trans hl.symm) htie

end

theorem encodableExprs_replace {before after : List Expr} {e' : Expr} (h : SameExpr e e')
    (he : EncodableExprs (before ++ e :: after)) :
    EncodableExprs (before ++ e' :: after) ∧
      exprsBytes (before ++ e' :: after) = exprsBytes (before ++ e :: after) := by
  rw [encodableExprs_iff, forall_mem_append, forall_mem_cons] at he ⊢
  obtain ⟨hbefore, he, hafter⟩ := he
  obtain ⟨he', hbytes⟩ := h.wire he
  exact ⟨⟨hbefore, he', hafter⟩, by simp [exprsBytes_eq, hbytes]⟩

theorem ExprSwap.same {e' : Expr} (h : ExprSwap e e') :
    SameExpr (canonicalizeExpr e) (canonicalizeExpr e') := by
  induction h with
  | here hsort =>
    rename_i op left right
    have hcanon : Sortable op (canonicalizeExpr left) (canonicalizeExpr right) := by
      unfold Sortable
      rwa [isLiteral_canonicalizeExpr, isLiteral_canonicalizeExpr]
    exact sameExpr_sortOperands_comm hcanon
  | binOpLeft _ ih =>
    exact ih.sortOperands (.refl _)
  | binOpRight _ ih =>
    exact SameExpr.sortOperands (.refl _) ih
  | call _ ih =>
    refine ⟨rfl, ?_⟩
    simp only [canonicalizeExpr, canonicalizeArgs_eq, map_append, map_cons, exprBytes]
    rintro ⟨hop, hlen, hargs⟩
    obtain ⟨hargs', hbytes⟩ := encodableExprs_replace ih hargs
    refine ⟨⟨hop, by simpa using hlen, hargs'⟩, ?_⟩
    rw [hbytes]
    simp
  | _ _ ih =>
    refine ⟨rfl, ?_⟩
    have := ih.wire
    simp only [canonicalizeExpr, canonicalizeExpected, EncodableExpr, EncodableExpected, exprBytes,
      expectedBytes]
    grind

structure SameNode (n n' : Node) : Prop where
  isLet : isLet n' = isLet n
  opId : nodeOpId n' = nodeOpId n
  wire : EncodableNode n → EncodableNode n' ∧ nodeBytes n' = nodeBytes n

theorem SameNode.refl (n : Node) : SameNode n n := ⟨rfl, rfl, fun h => ⟨h, rfl⟩⟩

def SameNodes : List Node → List Node → Prop := List.Forall₂ SameNode

theorem SameNodes.refl (ns : List Node) : SameNodes ns ns :=
  forall₂_same.mpr fun n _ => SameNode.refl n

theorem SameNodes.wire (h : SameNodes ns ns') (he : EncodableNodes ns) :
    EncodableNodes ns' ∧ nodesBytes ns' = nodesBytes ns := by
  induction h with
  | nil => exact ⟨he, rfl⟩
  | cons hn _ ih =>
    obtain ⟨hn', hbytes⟩ := hn.wire he.1
    obtain ⟨hns', hrest⟩ := ih he.2
    exact ⟨⟨hn', hns'⟩, by rw [nodesBytes, nodesBytes, hbytes, hrest]⟩

theorem SameNodes.canSpliceBlock (h : SameNodes ns ns') :
    canSpliceBlock ns' = canSpliceBlock ns := by
  unfold Canonical.canSpliceBlock
  induction h with
  | nil => rfl
  | cons hn _ ih => rw [all_cons, all_cons, hn.isLet, ih]

theorem canonicalizeNodes_append (ns ns' : List Node) :
    canonicalizeNodes (ns ++ ns') = canonicalizeNodes ns ++ canonicalizeNodes ns' := by
  induction ns with
  | nil => rfl
  | cons n ns ih => rw [cons_append, canonicalizeNodes, ih, canonicalizeNodes, append_assoc]

theorem sameNodes_replace {before after : List Node}
    (h : SameNodes (pushCanonicalNode (canonicalizeNode n))
      (pushCanonicalNode (canonicalizeNode n'))) :
    SameNodes (canonicalizeNodes (before ++ n :: after))
      (canonicalizeNodes (before ++ n' :: after)) := by
  rw [canonicalizeNodes_append, canonicalizeNodes_append]
  exact rel_append (SameNodes.refl _) (rel_append h (SameNodes.refl _))

theorem SameNodes.single (hpush : pushCanonicalNode n = [n]) (hpush' : pushCanonicalNode n' = [n'])
    (h : SameNode n n') : SameNodes (pushCanonicalNode n) (pushCanonicalNode n') := by
  rw [hpush, hpush']
  exact .cons h .nil

theorem NodeSwap.same (h : NodeSwap n n') :
    SameNodes (pushCanonicalNode (canonicalizeNode n))
      (pushCanonicalNode (canonicalizeNode n')) := by
  induction h with
  | ifThen _ ih | ifElse _ ih | loopBody _ ih | region _ ih =>
    refine .single rfl rfl ⟨rfl, rfl, ?_⟩
    have hlen := fun before after => (@sameNodes_replace _ _ before after ih).length_eq
    have hwire := fun before after => (@sameNodes_replace _ _ before after ih).wire
    simp only [canonicalizeNode, EncodableNode, nodeBytes]
    grind
  | @block before n n' after _ ih =>
    have hnodes := @sameNodes_replace n n' before after ih
    have hlen := hnodes.length_eq
    have hwire := hnodes.wire
    simp only [canonicalizeNode, pushCanonicalNode, hnodes.canSpliceBlock]
    split
    · exact hnodes
    · refine .cons ⟨rfl, rfl, ?_⟩ .nil
      simp only [EncodableNode, nodeBytes]
      grind
  | _ hswap =>
    refine .single rfl rfl ⟨rfl, rfl, ?_⟩
    have hwire := hswap.same.wire
    simp only [canonicalizeNode, EncodableNode, nodeBytes]
    grind

/-- The encoder writes the same for both declarations. -/
def SameOnWire (b b' : BufferDecl) : Prop :=
  bufferMetadataBytes b = bufferMetadataBytes b' ∧ regionBytes 0 b = regionBytes 0 b'

/-- Declarations with one sort key are written the same. -/
def KeyDecidesWire (p : Program) : Prop :=
  ∀ b ∈ p.buffers, ∀ b' ∈ p.buffers,
    bufferDeclCanonicalKey b = bufferDeclCanonicalKey b' → SameOnWire b b'

theorem sortBuffers_perm (buffers : List BufferDecl) : (sortBuffers buffers).Perm buffers :=
  perm_insertionSort _ buffers

/-- The sequence of keys of a sorted table does not depend on the order it was
declared in. -/
theorem map_key_sortBuffers {buffers buffers' : List BufferDecl} (h : buffers.Perm buffers') :
    (sortBuffers buffers).map bufferDeclCanonicalKey =
      (sortBuffers buffers').map bufferDeclCanonicalKey := by
  have hperm : (sortBuffers buffers).Perm (sortBuffers buffers') :=
    ((sortBuffers_perm buffers).trans h).trans (sortBuffers_perm buffers').symm
  refine List.Perm.eq_of_pairwise ?_ (pairwise_sortBuffers buffers |>.map _ fun _ _ h => h)
    (pairwise_sortBuffers buffers' |>.map _ fun _ _ h => h) (hperm.map _)
  exact fun a b _ _ hab hba => List.le_antisymm hab hba

theorem forall₂_of_map_eq {R : BufferDecl → BufferDecl → Prop} {bs bs' : List BufferDecl}
    (h : bs.map bufferDeclCanonicalKey = bs'.map bufferDeclCanonicalKey)
    (hR : ∀ b ∈ bs, ∀ b' ∈ bs', bufferDeclCanonicalKey b = bufferDeclCanonicalKey b' → R b b') :
    List.Forall₂ R bs bs' := by
  rw [← forall₂_eq_eq_eq, forall₂_map_left_iff, forall₂_map_right_iff,
    forall₂_iff_zip] at h
  refine forall₂_iff_zip.mpr ⟨h.1, fun {b b'} hmem => ?_⟩
  obtain ⟨hb, hb'⟩ := of_mem_zip hmem
  exact hR b hb b' hb' (h.2 hmem)

theorem regionBytes_eq (index : Nat) (b : BufferDecl) :
    regionBytes index b = lebBytes 10 index ++ (regionBytes 0 b).drop 1 := by
  simp [regionBytes, lebBytes]

theorem SameOnWire.region (h : SameOnWire b b') (index : Nat) :
    regionBytes index b = regionBytes index b' := by
  rw [regionBytes_eq, regionBytes_eq index b', h.2]

theorem SameOnWire.access (h : SameOnWire b b') : b.access = b'.access := by
  have htag : accessTag b.access = accessTag b'.access := by
    have h := h.2
    simp only [regionBytes, append_assoc, cons_append, append_cancel_left_eq,
      cons.injEq] at h
    exact h.2.1
  cases ha : b.access <;> cases ha' : b'.access <;> simp_all [accessTag]

theorem table_congr {bs bs' : List BufferDecl} (h : List.Forall₂ SameOnWire bs bs') :
    bs.flatMap bufferMetadataBytes = bs'.flatMap bufferMetadataBytes ∧
    outputCount bs = outputCount bs' ∧ ∀ index, regionsBytes index bs = regionsBytes index bs' ∧
      outputIndexBytes index bs = outputIndexBytes index bs' := by
  induction h with
  | nil => exact ⟨rfl, rfl, fun _ => ⟨rfl, rfl⟩⟩
  | cons hb _ ih =>
    obtain ⟨hmeta, hcount, hindexed⟩ := ih
    refine ⟨?_, ?_, fun index => ⟨?_, ?_⟩⟩
    · rw [flatMap_cons, flatMap_cons, hb.1, hmeta]
    · simp only [outputCount, filter_cons, hb.access] at hcount ⊢
      split <;> simp [hcount]
    · rw [regionsBytes, regionsBytes, hb.region, (hindexed _).1]
    · rw [outputIndexBytes, outputIndexBytes, hb.access, (hindexed _).2]

theorem encodable_of_buffers {buffers : List BufferDecl} (hperm : p.buffers.Perm buffers)
    (hsame : List.Forall₂ SameOnWire p.buffers buffers) (hp : EncodableProgram p) :
    EncodableProgram { p with buffers } ∧ bodyBytes { p with buffers } = bodyBytes p := by
  have hlen := hsame.length_eq
  have hmem : ∀ b ∈ buffers, b ∈ p.buffers := fun b hb => hperm.mem_iff.mpr hb
  obtain ⟨hmetas, hcount, hindexed⟩ := table_congr hsame
  have hmeta : metadataBytes { p with buffers } = metadataBytes p := by
    simp only [metadataBytes, hmetas, hlen]
  constructor
  · exact { hp with
      shapes := fun b hb => hp.shapes b (hmem b hb)
      nodes := { hp.nodes with
        names := fun b hb => hp.nodes.names b (hmem b hb)
        bufferCount := by simpa [← hlen] using hp.nodes.bufferCount
        metadata := by simpa [hmeta] using hp.nodes.metadata }
      regionIds := by simpa [← hlen] using hp.regionIds
      elements := fun b hb => hp.elements b (hmem b hb) }
  · simp only [bodyBytes, nodesSectionBytes, hmeta, outputSetBytes, hcount, hindexed, hlen]

theorem SameNode.entry (h : SameNode n n') (he : EncodableEntryNode n) :
    EncodableEntryNode n' ∧ entryNodeBytes n' = entryNodeBytes n := by
  obtain ⟨hn, hid, hlen⟩ := he
  obtain ⟨hn', hbytes⟩ := h.wire hn
  refine ⟨⟨hn', ?_, ?_⟩, ?_⟩
  · rwa [h.opId]
  · rwa [hbytes]
  · rw [entryNodeBytes, entryNodeBytes, h.opId, hbytes]

theorem SameNodes.entries (h : SameNodes ns ns') (he : ∀ n ∈ ns, EncodableEntryNode n) :
    (∀ n ∈ ns', EncodableEntryNode n) ∧ ns'.flatMap entryNodeBytes = ns.flatMap entryNodeBytes := by
  induction h with
  | nil => exact ⟨he, rfl⟩
  | cons hn _ ih =>
    obtain ⟨hn, hns⟩ := (forall_mem_cons.mp he).imp hn.entry ih
    exact ⟨forall_mem_cons.mpr ⟨hn.1, hns.1⟩, by rw [flatMap_cons, flatMap_cons, hn.2, hns.2]⟩

theorem encodable_of_entry {entry : List Node} (hsame : SameNodes p.entry entry)
    (hp : EncodableProgram p) :
    EncodableProgram { p with entry } ∧ bodyBytes { p with entry } = bodyBytes p := by
  have hlen := hsame.length_eq
  obtain ⟨hentry, hbytes⟩ := hsame.entries hp.nodes.entry
  constructor
  · exact { hp with nodes := { hp.nodes with
      nodeCount := by simpa [← hlen] using hp.nodes.nodeCount
      entry := hentry } }
  · have hmeta : metadataBytes { p with entry } = metadataBytes p := rfl
    simp only [bodyBytes, nodesSectionBytes, hmeta, hbytes, hlen]

theorem RearrangedOnce.canonicalWireBytes {q : Program} (h : RearrangedOnce p q)
    (hkeys : KeyDecidesWire p) (hbytes : canonicalWireBytes host p = .ok bytes) :
    canonicalWireBytes host q = .ok bytes ∧ KeyDecidesWire q := by
  obtain ⟨hp, rfl⟩ := toWire_eq_ok.mp hbytes
  cases h with
  | @buffers buffers hperm =>
    have hsorted : (sortBuffers p.buffers).Perm (sortBuffers buffers) :=
      ((sortBuffers_perm p.buffers).trans hperm).trans (sortBuffers_perm buffers).symm
    have hsame : List.Forall₂ SameOnWire (sortBuffers p.buffers) (sortBuffers buffers) := by
      refine forall₂_of_map_eq (map_key_sortBuffers hperm) fun b hb b' hb' hkey => ?_
      have hb := (sortBuffers_perm p.buffers).mem_iff.mp hb
      have hb' := hperm.mem_iff.mpr ((sortBuffers_perm buffers).mem_iff.mp hb')
      exact hkeys b hb b' hb' hkey
    obtain ⟨hq, hbody⟩ := @encodable_of_buffers (canonicalized p) _ hsorted hsame hp
    refine ⟨toWire_eq_ok.mpr ⟨hq, ?_⟩, ?_⟩
    · exact congrArg (fun body => putHeader host body ++ body) hbody.symm
    · intro b hb b' hb'
      exact hkeys b (hperm.mem_iff.mpr hb) b' (hperm.mem_iff.mpr hb')
  | @entry before n n' after hentry hswap =>
    have hsame : SameNodes (canonicalized p).entry (canonicalizeNodes (before ++ n' :: after)) := by
      rw [canonicalized, hentry]
      exact sameNodes_replace hswap.same
    obtain ⟨hq, hbody⟩ := encodable_of_entry hsame hp
    refine ⟨toWire_eq_ok.mpr ⟨hq, ?_⟩, hkeys⟩
    exact congrArg (fun body => putHeader host body ++ body) hbody.symm

theorem Rearranged.canonicalWireBytes {q : Program} (h : Rearranged p q) (hkeys : KeyDecidesWire p)
    (hp : canonicalWireBytes host p = .ok bytes) :
    canonicalWireBytes host q = .ok bytes ∧ KeyDecidesWire q := by
  induction h with
  | refl => exact ⟨hp, hkeys⟩
  | tail _ hstep ih => exact hstep.canonicalWireBytes ih.2 ih.1

/-! ## Declarations that share a key -/

theorem lebBytes_append_inj {m n : Nat} (hm : m < 2 ^ 64) (hn : n < 2 ^ 64)
    (h : lebBytes 10 m ++ x = lebBytes 10 n ++ y) : m = n ∧ x = y :=
  ((@reads_lebU64 0 x ⟨x, 0⟩ .source m m hm).mpr ⟨rfl, rfl⟩).append_inj
    ((reads_lebU64 hn).mpr ⟨rfl, rfl⟩) h

theorem rangeBytes_append_inj {r r' : Option (UInt64 × UInt64)}
    (h : rangeBytes r ++ x = rangeBytes r' ++ y) : r = r' ∧ x = y := by
  match r, r', h with
  | none, none, h => exact ⟨rfl, (cons.inj h).2⟩
  | none, some _, h | some _, none, h => exact absurd (cons.inj h).1 (by decide)
  | some range, some range', h =>
    simp only [rangeBytes, cons_append, append_assoc, cons.injEq,
      true_and] at h
    obtain ⟨hstart, h⟩ := lebBytes_append_inj (UInt64.toNat_lt _) (UInt64.toNat_lt _) h
    obtain ⟨hstop, h⟩ := lebBytes_append_inj (UInt64.toNat_lt _) (UInt64.toNat_lt _) h
    refine ⟨?_, h⟩
    rw [Prod.ext (UInt64.toNat_inj.mp hstart) (UInt64.toNat_inj.mp hstop)]

theorem bufferMetadataBytes_append_inj (hb : StringFits b.name) (hb' : StringFits b'.name)
    (h : bufferMetadataBytes b ++ x = bufferMetadataBytes b' ++ y) :
    bufferMetadataBytes b = bufferMetadataBytes b' := by
  have hu32 :
      ∀ {v : UInt32} {rest : List UInt8}, Reads Reader.u32 ⟨putU32 v ++ rest, 0⟩ v ⟨rest, 0⟩ :=
    reads_u32.mpr ⟨rfl, rfl⟩
  simp only [bufferMetadataBytes, append_assoc] at h
  obtain ⟨hname, h⟩ := ((@reads_string 0 _ ⟨_, 0⟩ _ _ hb).mpr ⟨rfl, rfl⟩).append_inj
    ((reads_string hb').mpr ⟨rfl, rfl⟩) h
  obtain ⟨hbinding, h⟩ := hu32.append_inj hu32 h
  obtain ⟨hcount, h⟩ := hu32.append_inj hu32 h
  obtain ⟨hflags, h⟩ := append_inj h rfl
  obtain ⟨hrange, h⟩ := rangeBytes_append_inj h
  obtain ⟨hhints, -⟩ := ((@reads_hints 0 _ ⟨_, 0⟩ _ _).mpr ⟨rfl, rfl⟩).append_inj
    (reads_hints.mpr ⟨rfl, rfl⟩) h
  rw [bufferMetadataBytes, bufferMetadataBytes, hname, hbinding, hcount, hflags, hrange, hhints]

theorem regionBytes_append_inj {index : Nat}
    (h : regionBytes index b ++ x = regionBytes index b' ++ y) :
    regionBytes 0 b = regionBytes 0 b' := by
  have hshort : ∀ b : BufferDecl, (shapeBytes b).length < 2 ^ 64 := fun b =>
    lt_of_le_of_lt (shapeBytes_length b) (by omega)
  have hhints : ∀ b : BufferDecl, (putHintsPayload b.hints).length < 2 ^ 64 := fun b =>
    lt_of_le_of_lt (putHintsPayload_length b.hints) (by omega)
  simp only [regionBytes, append_assoc, append_cancel_left_eq] at h
  obtain ⟨htags, h⟩ := append_inj h rfl
  obtain ⟨hlen, h⟩ := lebBytes_append_inj (hshort b) (hshort b') h
  obtain ⟨hshape, h⟩ := append_inj h hlen
  obtain ⟨hlen', h⟩ := lebBytes_append_inj (hhints b) (hhints b') h
  obtain ⟨hpayload, -⟩ := append_inj h hlen'
  rw [regionBytes, regionBytes, htags, hshape, hpayload]

theorem regionsBytes_append (index : Nat) (bs bs' : List BufferDecl) :
    regionsBytes index (bs ++ bs') = regionsBytes index bs ++
      regionsBytes (index + bs.length) bs' := by
  induction bs generalizing index with
  | nil => rfl
  | cons b bs ih =>
    have hshift : index + 1 + bs.length = index + (b :: bs).length := by
      rw [length_cons]
      omega
    rw [cons_append, regionsBytes, ih, regionsBytes, append_assoc, hshift]

/-- The bytes of a program give away the order of neighbours that are written
differently. -/
theorem sameOnWire_of_bodyBytes_eq {before after : List BufferDecl} (hb : StringFits b.name)
    (hb' : StringFits b'.name) (h : bodyBytes { p with buffers := before ++ b :: b' :: after } =
      bodyBytes { p with buffers := before ++ b' :: b :: after }) : SameOnWire b b' := by
  have hlen : (metadataBytes { p with buffers := before ++ b :: b' :: after }).length =
      (metadataBytes { p with buffers := before ++ b' :: b :: after }).length := by
    simp only [metadataBytes, length_append, flatMap_append, flatMap_cons]
    simp only [length_cons]
    omega
  simp only [bodyBytes, nodesSectionBytes, recordBytes, append_assoc, hlen,
    append_cancel_left_eq] at h
  obtain ⟨hmeta, h⟩ := append_inj h hlen
  have hcount : (before ++ b :: b' :: after).length = (before ++ b' :: b :: after).length := by
    simp
  constructor
  · simp only [metadataBytes, hcount, append_cancel_left_eq,
      flatMap_append] at hmeta
    exact bufferMetadataBytes_append_inj hb hb' hmeta
  · simp only [hcount, append_assoc, append_cancel_left_eq, regionsBytes_append,
      regionsBytes] at h
    exact regionBytes_append_inj h

theorem sortBuffers_pair (h : bufferDeclCanonicalKey b = bufferDeclCanonicalKey b')
    (rest : List BufferDecl) :
    ∃ before after, sortBuffers (b :: b' :: rest) = before ++ b :: b' :: after ∧
      sortBuffers (b' :: b :: rest) = before ++ b' :: b :: after := by
  have hle : bufferDeclCanonicalKey b ≤ bufferDeclCanonicalKey b' := h ▸ List.le_refl _
  have hge : bufferDeclCanonicalKey b' ≤ bufferDeclCanonicalKey b := h ▸ List.le_refl _
  have hcons : ∀ c bs, sortBuffers (c :: bs) = (sortBuffers bs).orderedInsert
      (fun a b => bufferDeclCanonicalKey a ≤ bufferDeclCanonicalKey b) c := fun _ _ => rfl
  rw [hcons, hcons, hcons, hcons]
  -- Induction on the sorted rest: both are inserted at the same place.
  generalize sortBuffers rest = sorted
  induction sorted with
  | nil => exact ⟨[], [], by simp [hle, hge]⟩
  | cons c sorted ih =>
    by_cases hc : bufferDeclCanonicalKey b ≤ bufferDeclCanonicalKey c
    · have hc' : bufferDeclCanonicalKey b' ≤ bufferDeclCanonicalKey c := h ▸ hc
      exact ⟨[], c :: sorted, by simp [hc, hc', hle, hge]⟩
    · have hc' : ¬ bufferDeclCanonicalKey b' ≤ bufferDeclCanonicalKey c := h ▸ hc
      obtain ⟨before, after, hfirst, hsecond⟩ := ih
      exact ⟨c :: before, after, by simp [hc, hc', hfirst, hsecond]⟩

theorem keyDecidesWire_of_invariant
    (h : ∀ q, Rearranged p q → canonicalWireBytes host q = .ok bytes) : KeyDecidesWire p := by
  intro b hb b' hb' hkey
  by_cases heq : b = b'
  · subst heq
    exact ⟨rfl, rfl⟩
  · have hmem : b' ∈ p.buffers.erase b := (mem_erase_of_ne (Ne.symm heq)).mpr hb'
    have hperm : p.buffers.Perm (b :: b' :: (p.buffers.erase b).erase b') :=
      (perm_cons_erase hb).trans ((perm_cons_erase hmem).cons b)
    obtain ⟨before, after, hfirst, hsecond⟩ :=
      sortBuffers_pair hkey ((p.buffers.erase b).erase b')
    obtain ⟨hq, hbytes⟩ := toWire_eq_ok.mp (h _ (.single (.buffers hperm)))
    obtain ⟨hq', hbytes'⟩ := toWire_eq_ok.mp
      (h _ (.single (.buffers (hperm.trans (List.Perm.swap _ _ _)))))
    have hbody := (append_inj (hbytes.symm.trans hbytes')
      ((putHeader_length host _).trans (putHeader_length host _).symm)).2
    have hnames := hq.nodes.names
    simp only [canonicalized, hfirst, hsecond] at hbody hnames
    exact sameOnWire_of_bodyBytes_eq (p := canonicalized p) (hnames b (by simp))
      (hnames b' (by simp))
      hbody

theorem keyName_of_fits {name : Ident} (h : StringFits name) : keyName name = stringBytes name := by
  have hlen : (utf8 name).length < 2 ^ 32 := lt_of_le_of_lt h (by decide)
  rw [keyName, putLenU32_eq_ok.mpr ⟨hlen, rfl⟩, stringBytes]

/-- Declarations with different names have different keys, so the condition
holds for every table without duplicate names. -/
theorem keyDecidesWire_of_names (hnames : (p.buffers.map (·.name)).Nodup)
    (hfits : ∀ b ∈ p.buffers, StringFits b.name) : KeyDecidesWire p := by
  intro b hb b' hb' hkey
  simp only [bufferDeclCanonicalKey, keyName_of_fits (hfits b hb), keyName_of_fits (hfits b' hb'),
    append_assoc] at hkey
  obtain ⟨hname, -⟩ := ((@reads_string 0 _ ⟨_, 0⟩ _ _ (hfits b hb)).mpr ⟨rfl, rfl⟩).append_inj
    ((reads_string (hfits b' hb')).mpr ⟨rfl, rfl⟩) hkey
  obtain rfl := inj_on_of_nodup_map hnames hb hb' hname
  exact ⟨rfl, rfl⟩

/-- Canonical identity: canonicalizing is a fixed point, and the canonical bytes
are those of every rearrangement exactly when the keys decide. -/
theorem canonical_identity (host : Host) (p : Program) :
    canonicalized (canonicalized p) = canonicalized p ∧
    ∀ bytes, canonicalWireBytes host p = .ok bytes →
      ((∀ q, Rearranged p q → canonicalWireBytes host q = .ok bytes) ↔ KeyDecidesWire p) := by
  refine ⟨canonicalized_idem p, fun bytes hbytes => ⟨keyDecidesWire_of_invariant, ?_⟩⟩
  exact fun hkeys q hq => (hq.canonicalWireBytes hkeys hbytes).1

/-- `a[0] = b[0] | a[0]`. -/
def orProgram : Program :=
  .wrapped [.readWrite "a" 0 .u32, .readWrite "b" 1 .u32] (1, 1, 1)
    [.store "a" (.litU32 0) (.binOp .bitOr (.load "b" (.litU32 0)) (.load "a" (.litU32 0)))]

theorem canonical_identity_orProgram :
    canonicalized (canonicalized orProgram) = canonicalized orProgram ∧
    ∃ bytes, canonicalWireBytes plainHost orProgram = .ok bytes ∧
      ∀ q, Rearranged orProgram q → canonicalWireBytes plainHost q = .ok bytes := by
  have hsome : (canonicalWireBytes plainHost orProgram).toOption.isSome = true := by decide +kernel
  obtain ⟨hfixed, hbytes⟩ := canonical_identity plainHost orProgram
  cases hok : canonicalWireBytes plainHost orProgram with
  | error e =>
    rw [hok] at hsome
    cases hsome
  | ok bytes =>
    have hfits : ∀ b ∈ orProgram.buffers, StringFits b.name := by
      decide
    have hkeys : KeyDecidesWire orProgram := keyDecidesWire_of_names (by decide) hfits
    exact ⟨hfixed, bytes, rfl, (hbytes bytes hok).mpr hkeys⟩

/-- A buffer of unknown length, of which the bytes up to `stop` are read back. -/
def rangedBuffer (stop : UInt64) : BufferDecl :=
  { BufferDecl.readWrite "b" 0 .u32 with outputByteRange := some (0, stop) }

def rangedProgram (stop stop' : UInt64) : Program :=
  .wrapped [rangedBuffer stop, rangedBuffer stop'] (1, 1, 1) []

/-- The key keeps no bound above `u32::MAX`, so two declarations that differ
only there stay in the order they were declared in. -/
theorem canonical_bytes_depend_on_order :
    Rearranged (rangedProgram 4294967296 4294967297) (rangedProgram 4294967297 4294967296) ∧
    (canonicalWireBytes plainHost (rangedProgram 4294967296 4294967297)).toOption.isSome = true ∧
    (canonicalWireBytes plainHost (rangedProgram 4294967296 4294967297)).toOption ≠
      (canonicalWireBytes plainHost (rangedProgram 4294967297 4294967296)).toOption := by
  refine ⟨.single (.buffers (List.Perm.swap _ _ _)), ?_, ?_⟩
  · decide
  · decide

end Vyre.Canonical
