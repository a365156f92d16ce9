import Vyre.Wire.Canonical

/-!
# Programs in canonical spelling

The bytes the canonical decoder accepts are the bytes `to_wire` writes for the
program it returns, and the source's decoder returns the same program. So the
encoding of a decoded program gives its bytes back exactly when those bytes are
in canonical spelling.
-/

namespace Vyre.Wire

open ByteCodec List
open Reader

section Sections

variable {c c' : Cursor} {host : Host} {chk : Checks}

variable {field : String} {index stack : Nat} {tag : UInt8}

theorem rest_of_optionally {α : Type} {read : Read α} {P : α → Prop} {bytes : α → List UInt8}
    {o : Option α} (hread : ∀ {c a c'}, Reads read c a c' → P a ∧ c.rest = bytes a ++ c'.rest)
    (h : Reads (optionally field read) c o c') :
    (∀ a ∈ o, P a) ∧ c.rest = o.elim [0] (fun a => 1 :: bytes a) ++ c'.rest := by
  simp only [optionally, reads_bind] at h
  obtain ⟨tag, m, ht, h⟩ := h
  rw [rest_of_u8 ht]
  split at h <;> simp only [reads_pure, reads_map, reads_err] at h
  · obtain ⟨rfl, rfl⟩ := h
    exact ⟨by simp, rfl⟩
  · obtain ⟨a, ha, rfl⟩ := h
    obtain ⟨hP, hrest⟩ := hread ha
    exact ⟨by simpa using hP, by rw [hrest]; rfl⟩

theorem rest_of_coalesceAxis {axis : Option UInt8} (h : Reads (optionally field u8) c axis c') :
    c.rest = axis.elim [0] (fun axis => [1, axis]) ++ c'.rest :=
  (rest_of_optionally (P := fun _ => True) (fun h => ⟨trivial, rest_of_u8 h⟩) h).2

theorem rest_of_cacheLocality {l : CacheLocality} (h : Reads cacheLocality c l c') :
    c.rest = localityTag l :: c'.rest := by
  refine rest_of_byte (fun h => ?_) h
  split at h <;> simp_all [localityTag]

theorem rest_of_hints {h : MemoryHints} (hr : Reads readHints c h c') :
    c.rest = putHintsPayload h ++ c'.rest := by
  simp only [readHints, bind_pure_comp, reads_bind, reads_map] at hr
  obtain ⟨axis, m, ha, align, m', hal, locality, hl, rfl⟩ := hr
  rw [rest_of_coalesceAxis ha, rest_of_u32 hal, rest_of_cacheLocality hl, putHintsPayload]
  cases axis <;> simp

theorem rest_of_entryOpId {r : Option String} (h : Reads (optionally field string) c r c') :
    EncodableName r ∧ c.rest = sourceRegionBytes r ++ c'.rest := by
  obtain ⟨hfit, hrest⟩ := rest_of_optionally rest_of_string h
  cases r with
  | none => exact ⟨trivial, hrest⟩
  | some name => exact ⟨hfit name rfl, hrest⟩

theorem rest_of_outputRange (hchk : chk.canonical = true) {range : Option (UInt64 × UInt64)}
    (h : Reads (optionally field (outputRange chk)) c range c') :
    (∀ r ∈ range, r.1 ≤ r.2) ∧ c.rest = rangeBytes range ++ c'.rest := by
  have hread : ∀ {c r c'}, Reads (outputRange chk) c r c' →
      r.1 ≤ r.2 ∧ c.rest = putLebU64 r.1 ++ putLebU64 r.2 ++ c'.rest := by
    intro c r c' hr
    simp only [outputRange, bind_pure_comp, reads_bind, reads_map, reads_ensure] at hr
    obtain ⟨start, m₁, hs, stop, m₂, he, u, ⟨hle, rfl⟩, rfl⟩ := hr
    obtain ⟨hs64, hrest⟩ := rest_of_lebU64 hchk hs
    obtain ⟨he64, hrest'⟩ := rest_of_lebU64 hchk he
    have hstart : (UInt64.ofNat start).toNat = start := UInt64.toNat_ofNat_of_lt' hs64
    have hstop : (UInt64.ofNat stop).toNat = stop := UInt64.toNat_ofNat_of_lt' he64
    refine ⟨?_, ?_⟩
    · rw [UInt64.le_iff_toNat_le, hstart, hstop]
      exact of_decide_eq_true hle
    · simp [putLebU64, hstart, hstop, hrest, hrest']
  obtain ⟨hle, hrest⟩ := rest_of_optionally hread h
  refine ⟨hle, hrest.trans ?_⟩
  cases range <;> rfl

theorem rest_of_bufferMetadata (hchk : chk.canonical = true) {b : BufferDecl}
    (h : Reads (readBufferMetadata chk) c b c') :
    (StringFits b.name ∧ MetadataFits b ∧ metadataBuffer b = b) ∧
      c.rest = bufferMetadataBytes b ++ c'.rest := by
  simp only [readBufferMetadata, bind_pure_comp, reads_bind, reads_map, reads_ensure] at h
  obtain ⟨name, m, hn, binding, m₁, hb, count, m₂, hc, isOutput, m₃, ho, liveOut, m₄, hl, u, m₅,
    ⟨hco, rfl⟩, u', m₆, ⟨hcl, rfl⟩, range, m₇, hr, hints, hh, rfl⟩ := h
  obtain ⟨hfit, hrest⟩ := rest_of_string hn
  obtain ⟨horder, hrest'⟩ := rest_of_outputRange hchk hr
  refine ⟨⟨hfit, ⟨?_, ?_, horder⟩, rfl⟩, ?_⟩
  · simpa [imp_iff_not_or] using hco
  · simpa [imp_iff_not_or] using hcl
  · simp [hrest, rest_of_u32 hb, rest_of_u32 hc, rest_of_flag hchk ho, rest_of_flag hchk hl, hrest',
      rest_of_hints hh, bufferMetadataBytes]

theorem rest_of_strictFlag {b : Bool} (h : Reads (strictFlag field) c b c') :
    c.rest = flagByte b :: c'.rest := by
  refine rest_of_byte (fun h => ?_) h
  split at h <;> simp_all [flagByte]

def Metadata.program (m : Metadata) (entry : List Node) : Program :=
  ⟨m.entryOpId, m.buffers, m.workgroupSize, entry, m.nonComposableWithSelf⟩

theorem rest_of_metadata (hchk : chk.canonical = true) {a : Metadata} (entry : List Node)
    (h : Reads (readMetadata chk) c a c') :
    (EncodableName a.entryOpId ∧ PositiveWorkgroup (a.program entry) ∧
      a.buffers.length ≤ maxBuffers ∧
      ∀ b ∈ a.buffers, StringFits b.name ∧ MetadataFits b ∧ metadataBuffer b = b) ∧
      c.rest = metadataBytes (a.program entry) ++ c'.rest := by
  simp only [readMetadata, validateWorkgroupSize, bind_pure_comp, reads_bind, reads_map,
    reads_ensure] at h
  obtain ⟨marker, m, hm, u, m₁, ⟨hmarker, rfl⟩, opId, m₂, ho, x, m₃, hx, y, m₄, hy, z, m₅, hz,
    u', m₆, ⟨u₁, m₇, ⟨hx0, rfl⟩, u₂, m₈, ⟨hy0, rfl⟩, hz0, rfl⟩, flag, m₉, hf, count, m₁₀, hc,
    buffers, hb, rfl⟩ := h
  obtain ⟨-, hrest⟩ := rest_of_take hm
  obtain ⟨hname, hrest'⟩ := rest_of_entryOpId ho
  obtain ⟨hmax, -, hrest''⟩ := rest_of_lebLen hchk hc
  have hlen := hb.many_length
  have hone : ∀ {c a c'}, True → Reads (readBufferMetadata chk) c a c' →
      (StringFits a.name ∧ MetadataFits a ∧ metadataBuffer a = a) ∧
        c.rest = bufferMetadataBytes a ++ c'.rest := fun _ hr => rest_of_bufferMetadata hchk hr
  obtain ⟨hall, hrest₃⟩ := Reads.many_inv hone (fun _ _ => trivial) hb
  rw [beq_iff_eq] at hmarker
  subst hmarker hlen
  refine ⟨⟨hname, ⟨?_, ?_, ?_⟩, hmax, hall⟩, ?_⟩
  · simpa [Metadata.program] using hx0
  · simpa [Metadata.program] using hy0
  · simpa [Metadata.program] using hz0
  · simp [hrest, hrest', rest_of_u32 hx, rest_of_u32 hy, rest_of_u32 hz, rest_of_strictFlag hf,
      hrest'', hrest₃, metadataBytes, Metadata.program]

theorem rest_of_nodeRecord (hchk : chk.canonical = true) {opId : String} {payload : List UInt8}
    (h : Reads (readNodeRecord chk index) c (opId, payload, []) c') :
    (StringFits opId ∧ payload.length < 2 ^ 64) ∧ c.rest = recordBytes opId payload ++ c'.rest := by
  simp only [readNodeRecord, bind_pure_comp, reads_bind, reads_map] at h
  obtain ⟨_, m, ho, len, m₁, hl, _, m₂, hp, count, m₃, hc, operands, hops, rfl, rfl, rfl⟩ := h
  obtain ⟨hfit, hrest⟩ := rest_of_lebString hchk ho
  obtain ⟨-, hlt, hrest'⟩ := rest_of_lebLen hchk hl
  obtain ⟨rfl, hrest''⟩ := rest_of_take hp
  obtain ⟨-, -, hrest₃⟩ := rest_of_lebLen hchk hc
  have hzero : count = 0 := by
    have := hops.many_length
    simpa using this.symm
  subst hzero
  obtain ⟨rfl, -⟩ := reads_many_zero.mp hops
  refine ⟨⟨hfit, hlt⟩, ?_⟩
  simp [hrest, hrest', hrest'', hrest₃, recordBytes]

section

variable (hcanon : chk.canonical = true)

include hcanon

variable (hguard : chk.guardTypes = false)

include hguard

theorem rest_of_entryNode
    {n : Node} (hplain : n.Forall plainExpr plainNode)
    (h : Reads (readEntryNode host chk stack index) c n c') :
    EncodableEntryNode n ∧ c.rest = entryNodeBytes n ++ c'.rest := by
  simp only [readEntryNode, bind_pure_comp, reads_bind, reads_map, reads_ensure, reads_within] at h
  obtain ⟨⟨opId, payload, operands⟩, m, hr, h⟩ := h
  obtain ⟨u, m₁, ⟨hops, rfl⟩, n', m₂, ⟨rfl, d, hn⟩, u', ⟨hop, rfl⟩, rfl⟩ := h
  rw [List.isEmpty_iff] at hops
  subst hops
  obtain ⟨⟨hfit, hlt⟩, hrest⟩ := rest_of_nodeRecord hcanon hr
  obtain ⟨hok, hbytes⟩ := rest_of_node hcanon hguard hplain hn
  simp only [append_nil] at hbytes
  rw [beq_iff_eq] at hop
  subst hbytes hop
  have hop64 : (utf8 (nodeOpId n)).length < 2 ^ 64 := by
    have hmax : maxStringLen < 2 ^ 64 := by decide
    exact lt_of_le_of_lt hfit hmax
  exact ⟨⟨hok, hop64, hlt⟩, hrest⟩

theorem rest_of_entryNodes
    {left : Nat} {ns : List Node} (hplain : ∀ n ∈ ns, n.Forall plainExpr plainNode)
    (h : Reads (readEntryNodes host chk stack left index) c ns c') :
    (ns.length = left ∧ ∀ n ∈ ns, EncodableEntryNode n) ∧
      c.rest = ns.flatMap entryNodeBytes ++ c'.rest := by
  induction left generalizing index c ns with
  | zero =>
    obtain ⟨rfl, rfl⟩ := reads_pure.mp h
    simp
  | succ left ih =>
    simp only [readEntryNodes, bind_pure_comp, reads_bind, reads_map] at h
    obtain ⟨n, m, hn, tail, ht, rfl⟩ := h
    obtain ⟨hok, hrest⟩ := rest_of_entryNode hcanon hguard (hplain n (by simp)) hn
    obtain ⟨⟨rfl, hall⟩, hrest'⟩ := ih (fun x hx => hplain x (by simp [hx])) ht
    exact ⟨⟨by simp, forall_mem_cons.mpr ⟨hok, hall⟩⟩, by simp [hrest, hrest']⟩

theorem rest_of_nodesSection
    {a : Metadata} {entry : List Node} (hplain : ∀ n ∈ entry, n.Forall plainExpr plainNode)
    (h : Reads (readNodes host chk stack) c (a, entry) c') :
    EncodableNodesSection (a.program entry) ∧ PositiveWorkgroup (a.program entry) ∧
      a.buffers.length ≤ maxBuffers ∧ (∀ b ∈ a.buffers, MetadataFits b ∧ metadataBuffer b = b) ∧
      c.rest = nodesSectionBytes (a.program entry) ++ c'.rest := by
  simp only [readNodes, bind_pure_comp, reads_bind, reads_map, reads_ensure, reads_within] at h
  obtain ⟨count, m, hc, u, m₁, ⟨hc0, rfl⟩, ⟨opId, payload, operands⟩, m₂, hr, h⟩ := h
  obtain ⟨u₁, m₃, ⟨hop, rfl⟩, u₂, m₄, ⟨hops, rfl⟩, a', m₅, ⟨rfl, d, hm⟩, entry', he, rfl, rfl⟩ := h
  rw [List.isEmpty_iff] at hops
  rw [beq_iff_eq] at hop
  subst hops hop
  obtain ⟨hmax, -, hrest⟩ := rest_of_lebLen hcanon hc
  obtain ⟨⟨-, hlt⟩, hrest'⟩ := rest_of_nodeRecord hcanon hr
  obtain ⟨⟨hname, hpos, hbuffers, hall⟩, hmeta⟩ := rest_of_metadata hcanon entry hm
  obtain ⟨⟨hlen, hnodes⟩, hrest''⟩ := rest_of_entryNodes hcanon hguard hplain he
  simp only [append_nil] at hmeta
  subst hmeta
  have hcount : entry.length + 1 = count := by
    have : count ≠ 0 := by simpa using hc0
    omega
  have hsmall : maxNodes < 2 ^ 64 := by decide
  have hsmall' : maxBuffers < 2 ^ 64 := by decide
  refine ⟨⟨hname, fun b hb => (hall b hb).1, ?_, ?_, hlt, hnodes⟩, hpos, hbuffers,
    fun b hb => (hall b hb).2, ?_⟩
  · exact lt_of_le_of_lt hbuffers hsmall'
  · exact lt_of_le_of_lt (hcount ▸ hmax) hsmall
  · simp only [nodesSectionBytes, Metadata.program, hcount, hrest, hrest', hrest'', append_assoc]

end

/-! ## Memory regions -/

theorem rest_of_denseScale (hchk : chk.canonical = true) {s : QuantizationScale}
    (h : Reads (readDenseQuantizationScale chk) c s c') :
    EncodableScale s ∧ c.rest = denseScaleBytes s ++ c'.rest := by
  simp only [readDenseQuantizationScale, reads_bind] at h
  obtain ⟨tag, m, ht, param, m', hp, h⟩ := h
  rw [(rest_of_lebU64 hchk ht).2, rest_of_lebParam hchk hp]
  split at h <;> simp at h
  · obtain ⟨⟨rfl, rfl⟩, rfl⟩ := h
    exact ⟨trivial, by simp [denseScaleBytes, putLebU32]⟩
  · obtain ⟨rfl, rfl⟩ := h
    exact ⟨trivial, by simp [denseScaleBytes]⟩
  · obtain ⟨⟨hne, rfl⟩, rfl⟩ := h
    exact ⟨hne, by simp [denseScaleBytes]⟩

theorem rest_of_denseZeroPoint (hchk : chk.canonical = true) {z : QuantizationZeroPoint}
    (h : Reads (readDenseQuantizationZeroPoint chk) c z c') :
    EncodableZeroPoint z ∧ c.rest = denseZeroPointBytes z ++ c'.rest := by
  simp only [readDenseQuantizationZeroPoint, reads_bind] at h
  obtain ⟨tag, m, ht, param, m', hp, h⟩ := h
  rw [(rest_of_lebU64 hchk ht).2, rest_of_lebParam hchk hp]
  split at h <;> simp at h
  · obtain ⟨⟨rfl, rfl⟩, rfl⟩ := h
    exact ⟨trivial, by simp [denseZeroPointBytes, putLebU32]⟩
  · obtain ⟨⟨rfl, rfl⟩, rfl⟩ := h
    exact ⟨trivial, by simp [denseZeroPointBytes, putLebU32]⟩
  · obtain ⟨rfl, rfl⟩ := h
    exact ⟨trivial, by simp [denseZeroPointBytes]⟩
  · obtain ⟨⟨hne, rfl⟩, rfl⟩ := h
    exact ⟨hne, by simp [denseZeroPointBytes]⟩

theorem rest_of_regionScalar {t : DataType} (h : Reads (regionScalar tag) c t c') :
    c' = c ∧ EncodableElement t ∧ dataTypeTag t = tag ∧ elementShapeBytes t = [] := by
  obtain ⟨rfl, hr⟩ := reads_lift.mp h
  refine ⟨rfl, ?_⟩
  cases hs : scalarFromTag tag with
  | error e => simp [hs, Except.mapError] at hr
  | ok t' =>
    rw [hs] at hr
    cases hr
    unfold scalarFromTag at hs
    split at hs <;> cases hs <;> exact ⟨trivial, rfl, rfl⟩

theorem rest_of_element (hchk : chk.canonical = true) {t : DataType}
    (h : Reads (readElement chk tag) c t c') :
    (EncodableElement t ∧ dataTypeTag t = tag) ∧ c.rest = elementShapeBytes t ++ c'.rest := by
  unfold readElement at h
  split at h
  · simp only [bind_pure_comp, reads_map] at h
    obtain ⟨size, hs, rfl⟩ := h
    obtain ⟨hlt, hrest⟩ := rest_of_lebU64 hchk hs
    refine ⟨⟨trivial, rfl⟩, ?_⟩
    rw [hrest, elementShapeBytes, putLebU64, UInt64.toNat_ofNat', Nat.mod_eq_of_lt hlt]
  · simp only [bind_pure_comp, reads_map] at h
    obtain ⟨id, hi, rfl⟩ := h
    exact ⟨⟨trivial, rfl⟩, rest_of_lebParam hchk hi⟩
  · simp only [bind_pure_comp, reads_bind, reads_map, reads_ensure] at h
    obtain ⟨id, m, hi, u, ⟨-, rfl⟩, rfl⟩ := h
    exact ⟨⟨trivial, rfl⟩, rest_of_lebParam hchk hi⟩
  · simp only [bind_pure_comp, reads_bind, reads_map, reads_ensure] at h
    obtain ⟨stag, m, ht, u, m₁, ⟨hlt, rfl⟩, storage, m₂, hst, u', m₃, ⟨hq, rfl⟩, scale, m₄, hs,
      zero, hz, rfl⟩ := h
    obtain ⟨-, hrest⟩ := rest_of_lebU64 hchk ht
    obtain ⟨rfl, -, htag, -⟩ := rest_of_regionScalar hst
    obtain ⟨hok, hrest'⟩ := rest_of_denseScale hchk hs
    obtain ⟨hok', hrest''⟩ := rest_of_denseZeroPoint hchk hz
    have hback : (dataTypeTag storage).toNat = stag := by
      rw [htag]
      exact Nat.mod_eq_of_lt (of_decide_eq_true hlt)
    refine ⟨⟨⟨hq, hok, hok'⟩, rfl⟩, ?_⟩
    simp [hrest, hrest', hrest'', elementShapeBytes, hback]
  · obtain ⟨rfl, hok, htag, hnil⟩ := rest_of_regionScalar h
    exact ⟨⟨hok, htag⟩, by rw [hnil]; rfl⟩

theorem rest_of_memoryKind {k : MemoryKind} (h : Reads memoryKind c k c') :
    c.rest = memoryKindTag k :: c'.rest := by
  refine rest_of_byte (fun h => ?_) h
  split at h <;> simp_all [memoryKindTag]

theorem rest_of_bufferAccess {k : BufferAccess} (h : Reads bufferAccess c k c') :
    c.rest = accessTag k :: c'.rest := by
  refine rest_of_byte (fun h => ?_) h
  split at h <;> simp_all [accessTag]

section

variable (hchk : chk.canonical = true)

include hchk

theorem rest_of_shape {a : UInt32 × DataType}
    (h : Reads (readShape chk tag) c a c') :
    (EncodableElement a.2 ∧ dataTypeTag a.2 = tag) ∧
      c.rest = putLebU32 a.1 ++ elementShapeBytes a.2 ++ c'.rest := by
  simp only [readShape, bind_pure_comp, reads_bind, reads_map] at h
  obtain ⟨count, m, hc, t, ht, rfl⟩ := h
  obtain ⟨hok, hrest⟩ := rest_of_element hchk ht
  exact ⟨hok, by rw [rest_of_lebParam hchk hc, hrest, append_assoc]⟩

theorem rest_of_memoryRegion {b r : BufferDecl}
    (hfits : MetadataFits b) (hb : metadataBuffer b = b)
    (h : Reads (readMemoryRegion chk index b) c r c') :
    (metadataBuffer r = b ∧ EncodableElement r.element ∧ EncodableShape r) ∧
      c.rest = regionBytes index r ++ c'.rest := by
  simp only [readMemoryRegion, bind_pure_comp, reads_bind, reads_map, reads_ensure,
    reads_within, reads_require, hchk, forall_const] at h
  obtain ⟨id, m, hi, u, m₁, ⟨hid, rfl⟩, kind, m₂, hk, access, m₃, ha, tag, m₄, ht, stag, m₅, hst,
    u₁, m₆, ⟨hst0, rfl⟩, slen, m₇, hsl, spay, m₈, hsp, ⟨count, element⟩, m₉, ⟨rfl, d, hshape⟩, h⟩ :=
      h
  obtain ⟨hlen, m₁₀, hhl, hpay, m₁₁, hhp, hints, m₁₂, ⟨rfl, d', hhints⟩, u₂, m₁₃, ⟨hcount, rfl⟩,
    u₃, m₁₄, ⟨hw, rfl⟩, u₄, m₁₅, ⟨ho, rfl⟩, u₅, m₁₆, ⟨hl, rfl⟩, u₆, m₁₇, hr, u₇, ⟨hh, rfl⟩, rfl⟩ :=
      h
  obtain ⟨rfl, hrest₁⟩ := rest_of_take hsp
  obtain ⟨-, -, hrest₂⟩ := rest_of_lebLen hchk hsl
  obtain ⟨⟨helem, htag⟩, hrest₃⟩ := rest_of_shape hchk hshape
  obtain ⟨-, -, hrest₄⟩ := rest_of_lebLen hchk hhl
  obtain ⟨rfl, hrest₅⟩ := rest_of_take hhp
  have hrest₆ := rest_of_hints hhints
  simp only [beq_iff_eq] at hid hst0 hcount hh
  subst hid hst0 hcount hh htag hrest₃ hrest₆
  have hmeta : metadataBuffer { b with kind, access, element } = b := hb
  have hvalid : RangeFits { b with kind, access, element } ∧ c' = m₁₆ := by
    refine (@reads_validateOutputRangeFits c' { b with kind, access, element } m₁₆ u₆).mp ?_
    exact hr
  obtain ⟨hrange, rfl⟩ := hvalid
  refine ⟨⟨hmeta, helem, ⟨?_, ?_, ?_⟩⟩, ?_⟩
  · simpa [imp_iff_not_or] using hw
  · simpa [imp_iff_not_or] using hl
  · intro range hmem
    exact ⟨hfits.2.2 range hmem, .inr (hrange range hmem)⟩
  · rw [rest_of_lebU32 hchk hi, rest_of_memoryKind hk, rest_of_bufferAccess ha, rest_of_u8 ht,
      rest_of_u8 hst, hrest₂, hrest₁, hrest₄, hrest₅, regionBytes, putLebU32]
    simp [shapeBytes]

theorem rest_of_memoryRegionsFrom {bs rs : List BufferDecl}
    (hbs : ∀ b ∈ bs, MetadataFits b ∧ metadataBuffer b = b)
    (h : Reads (readMemoryRegionsFrom chk index bs) c rs c') :
    (rs.map metadataBuffer = bs ∧ ∀ r ∈ rs, EncodableElement r.element ∧ EncodableShape r) ∧
      c.rest = regionsBytes index rs ++ c'.rest := by
  induction bs generalizing index c rs with
  | nil =>
    obtain ⟨rfl, rfl⟩ := reads_pure.mp h
    exact ⟨⟨rfl, by simp⟩, rfl⟩
  | cons b bs ih =>
    simp only [readMemoryRegionsFrom, bind_pure_comp, reads_bind, reads_map] at h
    obtain ⟨r, m, hr, tail, ht, rfl⟩ := h
    obtain ⟨hfit, hmeta⟩ := hbs b (by simp)
    obtain ⟨⟨hr', hok⟩, hrest⟩ := rest_of_memoryRegion hchk hfit hmeta hr
    obtain ⟨⟨htail, hall⟩, hrest'⟩ := ih (fun x hx => hbs x (by simp [hx])) ht
    exact ⟨⟨by rw [map_cons, hr', htail], forall_mem_cons.mpr ⟨hok, hall⟩⟩,
      by simp [hrest, hrest', regionsBytes]⟩

theorem rest_of_outputIndices {buffers : List BufferDecl} {left : Nat}
    {previous : Option UInt32} {indices : List UInt32}
    (h : Reads (readOutputIndices chk buffers left previous) c indices c') :
    indices.length = left ∧ c.rest = indices.flatMap putLebU32 ++ c'.rest := by
  induction left generalizing previous c indices with
  | zero =>
    obtain ⟨rfl, rfl⟩ := reads_pure.mp h
    exact ⟨rfl, rfl⟩
  | succ left ih =>
    simp only [readOutputIndices, reads_bind] at h
    obtain ⟨index, m, hi, h⟩ := h
    split at h
    · exact (reads_err.mp h).elim
    · simp only [bind_pure_comp, reads_bind, reads_map, reads_ensure] at h
      obtain ⟨u, m₁, ⟨-, rfl⟩, u', m₂, ⟨-, rfl⟩, tail, ht, rfl⟩ := h
      obtain ⟨rfl, hrest⟩ := ih ht
      exact ⟨rfl, by simp [rest_of_lebU32 hchk hi, hrest]⟩

theorem rest_of_outputSet {buffers : List BufferDecl}
    {indices : List UInt32} (h : Reads (readOutputSet chk buffers) c indices c') :
    c.rest = outputSetBytes buffers ++ c'.rest := by
  simp only [readOutputSet, bind_pure_comp, reads_bind, reads_map, reads_ensure] at h
  obtain ⟨count, m, hc, indices', m', hi, u, ⟨hcanon, rfl⟩, rfl⟩ := h
  obtain ⟨-, -, hrest⟩ := rest_of_lebLen hchk hc
  obtain ⟨rfl, hrest'⟩ := rest_of_outputIndices hchk hi
  rw [beq_iff_eq, canonicalOutputIndices_eq] at hcanon
  have hbytes : indices.flatMap putLebU32 = (outputIndices 0 buffers).flatMap (lebBytes 10) := by
    rw [← hcanon, flatMap_map]
    rfl
  have hlen : indices.length = outputCount buffers := by
    rw [outputCount_eq 0, ← hcanon, length_map]
  rw [hrest, hrest', outputSetBytes, outputIndexBytes_eq, hbytes, hlen, append_assoc]

end

theorem rest_of_body (hcanon : chk.canonical = true) (hguard : chk.guardTypes = false) {p : Program}
    (hplain : ∀ n ∈ p.entry, n.Forall plainExpr plainNode)
    (h : Reads (readBody host chk stack) c p c') :
    EncodableProgram p ∧ c.rest = bodyBytes p ++ c'.rest := by
  simp only [readBody, readMemoryRegions, bind_pure_comp, reads_bind, reads_map, reads_ensure] at h
  obtain ⟨⟨a, entry⟩, m, hn, buffers, m₁, ⟨count, m₂, hc, u, m₃, ⟨hcount, rfl⟩, hr⟩, indices, ho,
    rfl⟩ := h
  obtain ⟨hnodes, hpos, hmax, hfits, hrest⟩ := rest_of_nodesSection hcanon hguard hplain hn
  obtain ⟨-, -, hrest'⟩ := rest_of_lebLen hcanon hc
  obtain ⟨⟨hmap, hall⟩, hrest''⟩ := rest_of_memoryRegionsFrom hcanon hfits hr
  have hrest₃ := rest_of_outputSet hcanon ho
  rw [beq_iff_eq] at hcount
  have hlen : a.buffers.length = buffers.length := by rw [← hmap, length_map]
  have hbytes : metadataBytes (a.program entry) =
      metadataBytes ⟨a.entryOpId, buffers, a.workgroupSize, entry, a.nonComposableWithSelf⟩ := by
    simp only [metadataBytes, Metadata.program, ← hmap, length_map, flatMap_map]
    rfl
  have hsmall : maxBuffers < 2 ^ 32 := by decide
  refine ⟨⟨hpos, fun b hb => (hall b hb).2, ?_, ?_, fun b hb => (hall b hb).1⟩, ?_⟩
  · refine ⟨hnodes.entryOpId, ?_, ?_, hnodes.nodeCount, ?_, hnodes.entry⟩
    · exact fun b hb => hnodes.names (metadataBuffer b)
        (show _ ∈ a.buffers from hmap ▸ mem_map_of_mem hb)
    · simpa [Metadata.program, hlen] using hnodes.bufferCount
    · rw [← hbytes]
      exact hnodes.metadata
  · show buffers.length ≤ 2 ^ 32
    omega
  · simp only [bodyBytes, nodesSectionBytes, ← hbytes, hrest, hrest', hrest'', hrest₃, hcount, hlen,
      append_assoc]
    rfl

end Sections

/-! ## Header -/

theorem flags_eq {flags : Nat} (h16 : flags < 2 ^ 16)
    (h : ¬ (flags &&& 0xFFF8 ≠ 0 ∨ flags &&& 3 ≠ 0))
    (h' : flags &&& flagOpaqueEndianFixed ≠ 0) : flags = flagOpaqueEndianFixed := by
  have hhigh : flags &&& 0xFFF8 = 0 := by
    by_contra hne
    exact h (.inl hne)
  have hsplit : flags = flags % 8 := by
    calc flags = flags &&& 0xFFFF := by
          rw [show (0xFFFF : Nat) = 2 ^ 16 - 1 from rfl, Nat.and_two_pow_sub_one_eq_mod,
            Nat.mod_eq_of_lt h16]
      _ = flags &&& (0xFFF8 ||| 7) := rfl
      _ = (flags &&& 0xFFF8) ||| (flags &&& 7) := Nat.and_or_distrib_left _ _ _
      _ = flags % 8 := by
          rw [hhigh, Nat.zero_or, show (7 : Nat) = 2 ^ 3 - 1 from rfl,
            Nat.and_two_pow_sub_one_eq_mod]
  have hsmall : ∀ n : Fin 8, ¬ (n.val &&& 0xFFF8 ≠ 0 ∨ n.val &&& 3 ≠ 0) →
      n.val &&& flagOpaqueEndianFixed ≠ 0 → n.val = flagOpaqueEndianFixed := by decide
  exact hsmall ⟨flags, by omega⟩ h h'

theorem leBytes_two {bs : List UInt8} {n : Nat} (hlen : bs.length = 2) (h : ofLeBytes bs = n) :
    bs = leBytes 2 n := by
  rw [← h, ← hlen, leBytes_ofLeBytes]

variable {host : Host} {bytes : List UInt8} {p : Program}

theorem header_of_fromWireWith {chk : Checks} {stack : Nat}
    (h : fromWireWith host chk stack bytes = .ok p) :
    ∃ body, bytes = putHeader host body ++ body := by
  simp only [fromWireWith, error_ite_eq_ok] at h
  obtain ⟨-, hmagic, -, hversion, hlen, hflags, hfixed, hhash, -⟩ := h
  rw [not_not] at hmagic hversion hhash
  have htwo : ∀ n ≤ 8, ((bytes.drop n).take 2).length = 2 := by
    intro n hn
    rw [length_take, length_drop]
    omega
  have hf := htwo 6 (by omega)
  have hf16 : ofLeBytes ((bytes.drop 6).take 2) < 2 ^ 16 := by
    have := ofLeBytes_lt ((bytes.drop 6).take 2)
    rwa [hf] at this
  refine ⟨bytes.drop 40, ?_⟩
  rw [putHeader, hhash, ← hmagic, ← leBytes_two (htwo 4 (by omega)) hversion,
    ← leBytes_two hf (flags_eq hf16 hflags hfixed)]
  simp only [append_assoc]
  have hjoin : ∀ n k, (bytes.drop n).take k ++ bytes.drop (n + k) = bytes.drop n := by
    intro n k
    rw [← drop_drop, take_append_drop]
  rw [hjoin 8 32, hjoin 6 2, hjoin 4 2, take_append_drop]

/-- No extension statement or expression, whose payloads the host reads. -/
def NoExtensions (p : Program) : Prop := ∀ n ∈ p.entry, n.Forall plainExpr plainNode

/-- The canonical decoder accepts `bytes`, as a program without extensions. -/
def CanonicalSpelling (host : Host) (bytes : List UInt8) : Prop :=
  ∃ p, NoExtensions p ∧ fromWireWith host .strict bytes.length bytes = .ok p

theorem NoExtensions.inverts (h : NoExtensions p) (host : Host) :
    ∀ n ∈ p.entry, n.Forall (exprInverts host) (nodeInverts host) := by
  intro n hn
  refine (h n hn).imp ?_ ?_
  · intro e he
    cases e with
    | ext x => exact he.elim
    | _ => trivial
  · intro n hn
    cases n with
    | ext x => exact hn.elim
    | _ => trivial

/-- What the canonical decoder accepts is what `to_wire` writes. -/
theorem toWire_of_strict (hp : NoExtensions p)
    (h : fromWireWith host .strict bytes.length bytes = .ok p) :
    EncodableProgram p ∧ bytes = programBytes host p := by
  obtain ⟨body, rfl⟩ := header_of_fromWireWith h
  obtain ⟨-, d, hbody⟩ := fromWireWith_header.mp h
  obtain ⟨hok, hrest⟩ := rest_of_body rfl rfl hp hbody
  simp only [append_nil] at hrest
  exact ⟨hok, by rw [programBytes, hrest]⟩

theorem programBytes_length (host : Host) (p : Program) :
    (bodyBytes p).length ≤ (programBytes host p).length := by
  rw [programBytes, length_append]
  omega

/-- The canonical decoder refuses more than the source's and otherwise agrees
with it. -/
theorem fromWire_of_strict (hp : NoExtensions p)
    (h : fromWireWith host .strict bytes.length bytes = .ok p) : fromWire host bytes = .ok p := by
  obtain ⟨hok, rfl⟩ := toWire_of_strict hp h
  rw [fromWireWith_programBytes rfl hok (hp.inverts host) (programBytes_length host p)] at h
  exact (fromWire_programBytes hok (hp.inverts host)).mpr h

/-- Re-encoding a decoded program gives its bytes back exactly when they are in
canonical spelling, and a program has one canonical spelling. -/
theorem toWire_fromWire_iff_canonical (host : Host) {bytes : List UInt8} {p : Program}
    (hp : NoExtensions p) (hdec : fromWire host bytes = .ok p) :
    (toWire host p = .ok bytes ↔ CanonicalSpelling host bytes) ∧
      ∀ bytes', fromWire host bytes' = .ok p → CanonicalSpelling host bytes →
        CanonicalSpelling host bytes' → bytes' = bytes := by
  have hcanon : ∀ {bytes'}, fromWire host bytes' = .ok p → CanonicalSpelling host bytes' →
      EncodableProgram p ∧ bytes' = programBytes host p := by
    rintro bytes' hdec' ⟨q, hq, hstrict⟩
    have hsame := fromWire_of_strict hq hstrict
    rw [hdec'] at hsame
    cases hsame
    exact toWire_of_strict hq hstrict
  refine ⟨⟨?_, ?_⟩, ?_⟩
  · intro henc
    obtain ⟨hok, rfl⟩ := toWire_eq_ok.mp henc
    rw [fromWire_programBytes hok (hp.inverts host)] at hdec
    exact ⟨p, hp, (fromWireWith_programBytes rfl hok (hp.inverts host)
      (programBytes_length host p)).mpr hdec⟩
  · intro h
    exact toWire_eq_ok.mpr (hcanon hdec h)
  · intro bytes' hdec' h h'
    rw [(hcanon hdec' h').2, (hcanon hdec h).2]

theorem toWire_fromWire_counter : ∃ bytes p, NoExtensions p ∧ fromWire plainHost bytes = .ok p ∧
    ((toWire plainHost p = .ok bytes ↔ CanonicalSpelling plainHost bytes) ∧
      ∀ bytes', fromWire plainHost bytes' = .ok p → CanonicalSpelling plainHost bytes →
        CanonicalSpelling plainHost bytes' → bytes' = bytes) := by
  have hp : NoExtensions (decoded counterProgram) := by
    refine forall_mem_singleton.mpr ?_
    simp [canonNode, canonNodes, canonExpr, canonExpected, Node.Forall,
      Expr.Forall, plainExpr, plainNode]
  have hdec := (fromWire_programBytes counterProgram_encodable
    fun n _ => plainHost_inverts.node_forall n).mpr
      ⟨by decide +kernel, counterProgram_decodable, rfl⟩
  exact ⟨_, _, hp, hdec, toWire_fromWire_iff_canonical plainHost hp hdec⟩

def emptyProgram : Program := .newRaw [] (1, 1, 1) []

def overlongBody : List UInt8 := [0x81, 0x00] ++ (bodyBytes emptyProgram).drop 1

def overlongBytes : List UInt8 := putHeader plainHost overlongBody ++ overlongBody

theorem overlong_not_canonical : NoExtensions emptyProgram ∧
    fromWire plainHost overlongBytes = .ok emptyProgram ∧
    toWire plainHost emptyProgram ≠ .ok overlongBytes := by
  refine ⟨?_, rfl, ?_⟩
  · intro n hn
    cases hn
  intro h
  exact absurd (toWire_eq_ok.mp h).2 (by decide)

end Vyre.Wire
