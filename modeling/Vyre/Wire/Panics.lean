import Mathlib.Data.Nat.Digits.Defs
import Vyre.Wire.Encode

/-!
# Panics of the encoder

`to_wire` is fallible, and its diagnostics are built in buffers of 256 bytes
that panic when they overflow. All diagnostics but the shape checks of
`reject_non_roundtrippable_shapes` have a bounded text. Those name a buffer of
the program before any check has bounded its name.
-/

namespace Vyre.Wire

open ByteCodec Worklist List

def Returns {α : Type} (call : Except EncodeFailure α) : Prop :=
  call ≠ .error .panicked

namespace Returns

variable {α β : Type}

@[simp] theorem ok (a : α) : Returns (.ok a : Except EncodeFailure α) := by
  simp [Returns]

@[simp] theorem pure (a : α) : Returns (Pure.pure a : Except EncodeFailure α) := ok a

@[simp] theorem staticMsg (message : String) :
    Returns (.error (Wire.staticMsg message) : Except EncodeFailure α) := by
  simp [Returns, Wire.staticMsg]

variable {x : Except EncodeFailure α}

@[simp] theorem bind_iff {f : α → Except EncodeFailure β} :
    Returns (x >>= f) ↔ Returns x ∧ ∀ a, x = .ok a → Returns (f a) := by
  cases x with
  | ok a =>
    show Returns (f a) ↔ _
    simp
  | error e =>
    show (Except.error e : Except EncodeFailure β) ≠ _ ↔ _
    simp [Returns]

@[simp] theorem map_iff {f : α → β} : Returns (f <$> x) ↔ Returns x := by
  cases x with
  | ok a => simp
  | error e =>
    simp [Returns]

theorem bind {f : α → Except EncodeFailure β} (hx : Returns x) (hf : ∀ a, Returns (f a)) :
    Returns (x >>= f) :=
  bind_iff.mpr ⟨hx, fun a _ => hf a⟩

@[simp] theorem ite_iff {c : Prop} [Decidable c] {y : Except EncodeFailure α} :
    Returns (if c then x else y) ↔ (c → Returns x) ∧ (¬c → Returns y) := by
  by_cases hc : c <;> simp [hc]

theorem ite {c : Prop} [Decidable c] {y : Except EncodeFailure α} (hx : Returns x)
    (hy : Returns y) : Returns (if c then x else y) := by
  by_cases hc : c
  · rwa [if_pos hc]
  · rwa [if_neg hc]

end Returns

theorem utf8Size_of_isDigit {c : Char} (h : c.isDigit = true) : c.utf8Size = 1 := by
  simp only [Char.isDigit, Bool.and_eq_true, decide_eq_true_eq] at h
  have hle : c.val ≤ 127 := UInt32.le_trans h.2 (by decide)
  simp [Char.utf8Size, hle]

theorem utf8_ofList_length (l : List Char) (h : ∀ c ∈ l, c.utf8Size = 1) :
    (utf8 (String.ofList l)).length = l.length := by
  have hbytes : ∀ s : String, (utf8 s).length = s.utf8ByteSize := fun s => by simp [utf8]
  rw [hbytes]
  induction l with
  | nil => simp
  | cons c l ih =>
    have hc := h c (by simp)
    have hl := ih (fun d hd => h d (by simp [hd]))
    simp [hc, hl, Nat.add_comm]

theorem utf8_toString_length (n : Nat) :
    (utf8 (toString n)).length = (Nat.toDigits 10 n).length :=
  utf8_ofList_length _ fun _ hc =>
    utf8Size_of_isDigit (Nat.isDigit_of_mem_toDigits (by decide) (by decide) hc)

theorem utf8_toString_length_le (n : UInt64) : (utf8 (toString n)).length ≤ 20 := by
  have hlen := utf8_toString_length n.toNat
  have hlt : n.toNat < 10 ^ 20 := lt_trans n.toNat_lt (by norm_num)
  show (utf8 (toString n.toNat)).length ≤ 20
  rw [hlen]
  exact Nat.toDigits_length 10 n.toNat 20 (by decide) hlt

variable {α : Type} {before after : String} {text a : Nat} {b : BufferDecl}

theorem dynamicMsg_returns_iff (parts : List String) :
    Returns (.error (dynamicMsg parts) : Except EncodeFailure α) ↔
      (parts.map (fun part => (utf8 part).length)).sum ≤ 256 := by
  unfold dynamicMsg Returns
  split <;> simp_all

theorem fmtUsize_returns (value : Nat) (h : (utf8 before).length + (utf8 after).length ≤ 236) :
    Returns (.error (fmtUsize before value after) : Except EncodeFailure α) := by
  have hdigits := utf8_toString_length_le (UInt64.ofNat value)
  rw [fmtUsize, dynamicMsg_returns_iff]
  simp only [map_cons, map_nil, sum_cons, sum_nil]
  omega

theorem fmtUsize2_returns {mid : String} (v₁ v₂ : Nat)
    (h : (utf8 before).length + (utf8 mid).length + (utf8 after).length ≤ 216) :
    Returns (.error (fmtUsize2 before v₁ mid v₂ after) : Except EncodeFailure α) := by
  have hdigits₁ := utf8_toString_length_le (UInt64.ofNat v₁)
  have hdigits₂ := utf8_toString_length_le (UInt64.ofNat v₂)
  rw [fmtUsize2, dynamicMsg_returns_iff]
  simp only [map_cons, map_nil, sum_cons, sum_nil]
  omega

open Returns

theorem putLenU32_returns (value : Nat) {label : String} (h : (utf8 label).length ≤ 150) :
    Returns (putLenU32 value label) := by
  refine ite (ok _) (fmtUsize_returns value ?_)
  have hafter : (utf8 " exceeds u32::MAX. Fix: split the Program before IR wire-format serialization.").length
      ≤ 86 := by decide
  omega

@[simp] theorem putString_returns (value : String) : Returns (putString value) := by
  refine ite (fmtUsize2_returns _ _ (by decide)) ?_
  exact (putLenU32_returns _ (by decide)).bind fun _ => pure _

@[simp] theorem putLebLen_returns (value : Nat) (tooLong : String) :
    Returns (putLebLen value tooLong) :=
  Returns.ite (Returns.ok _) (Returns.staticMsg _)

@[simp] theorem encodeTag_returns [DecidableEq α] (value : α) (table : List (UInt8 × α))
    (unknownVariant : String) : Returns (encodeTag value table unknownVariant) := by
  unfold encodeTag
  split
  · exact ok _
  · exact Returns.staticMsg _

/-! ## Sections of the body -/

@[simp] theorem putBinOp_returns (op : BinOp) : Returns (putBinOp op) := by
  cases op <;> simp [putBinOp]

@[simp] theorem putUnOp_returns (op : UnOp) : Returns (putUnOp op) := by
  cases op <;> simp [putUnOp]

@[simp] theorem putAtomicOp_returns (op : AtomicOp) : Returns (putAtomicOp op) := by
  cases op <;> simp [putAtomicOp]

theorem putRank_returns (value : Nat) (h : (utf8 before).length + (utf8 after).length ≤ 236) :
    Returns (putRank value before after) :=
  ite (ok _) (fmtUsize_returns value h)

@[simp] theorem putQuantizationScale_returns (scale : QuantizationScale) :
    Returns (putQuantizationScale scale) := by
  cases scale <;> simp [putQuantizationScale]

@[simp] theorem putQuantizationZeroPoint_returns (zeroPoint : QuantizationZeroPoint) :
    Returns (putQuantizationZeroPoint zeroPoint) := by
  cases zeroPoint <;> simp [putQuantizationZeroPoint]

@[simp] theorem putDataType_returns (type : DataType) : Returns (putDataType type) := by
  induction type with
  | array elementSize | deviceMesh axes =>
    exact (putRank_returns _ (by decide)).bind fun _ => pure _
  | tensorShaped element shape ih =>
    refine ih.bind fun _ => ?_
    exact (putRank_returns _ (by decide)).bind fun _ => pure _
  | _ => simp [putDataType, *]

theorem putPayload_returns (payload : List UInt8) {label : String}
    (htext : (utf8 before).length + (utf8 after).length ≤ 236)
    (hlabel : (utf8 label).length ≤ 150) : Returns (putPayload payload before after label) := by
  refine ite ?_ (fmtUsize_returns _ htext)
  exact (putLenU32_returns _ hlabel).bind fun _ => pure _

@[simp] theorem putArgCount_returns (count : Nat) :
    Returns (putLenU32 count "call argument count") := putLenU32_returns _ (by decide)

theorem putExprStep_returns (s : EncodeStep) : Returns (putExprStep s) := by
  cases s with
  | writeByte b => exact ok _
  | encode e =>
    cases e with
    | ext extension =>
      refine (putString_returns _).bind fun _ => ?_
      refine (putPayload_returns _ (by decide) (by decide)).bind fun _ => ?_
      exact pure _
    | _ => simp [putExprStep]

@[simp] theorem putExpr_returns (e : Expr) : Returns (putExpr e) := by
  refine putExprLoop.run_ne_error ?_ _ _
  intro s out hs
  have hstep := putExprStep_returns s
  simp only [putExprLoop] at hs
  cases h : putExprStep s with
  | ok r => simp [h, Except.map] at hs
  | error e =>
    simp only [h, Except.map] at hs
    exact hstep (by rw [h, hs])

@[simp] theorem putSourceRegion_returns (source : Option String) :
    Returns (putSourceRegion source) := by
  cases source with
  | none => exact ok _
  | some name => exact (putString_returns name).bind fun _ => pure _

theorem putNodeList_returns {ns : List Node} (h : ∀ n ∈ ns, Returns (putNode n)) :
    Returns (putNodeList ns) := by
  induction ns with
  | nil => simp [putNodeList]
  | cons n ns ih => simp [putNodeList, h n (by simp), ih fun m hm => h m (by simp [hm])]

@[simp] theorem putNodeCount_returns (count : Nat) : Returns (putLenU32 count "node count") :=
  putLenU32_returns _ (by decide)

theorem putNode_returns (n : Node) : Returns (putNode n) := by
  induction n with
  | ifThen cond thenNodes otherwise ihThen ihOtherwise =>
    simp [putNode, putNodeList_returns ihThen, putNodeList_returns ihOtherwise]
  | loop var lo hi body ih | block body ih | region _ _ body ih =>
    simp [putNode, putNodeList_returns ih]
  | ext extension =>
    refine (putString_returns _).bind fun _ => ?_
    refine (putPayload_returns _ (by decide) (by decide)).bind fun _ => ?_
    exact pure _
  | _ => simp [putNode]

theorem putAll_returns {f : α → Put} (hf : ∀ x, Returns (f x)) (xs : List α) :
    Returns (putAll f xs) := by
  induction xs with
  | nil => exact ok _
  | cons x xs ih => simp [putAll, hf, ih]

@[simp] theorem putNodeRecord_returns (opId : String) (payload : List UInt8) :
    Returns (putNodeRecord opId payload) := by
  simp [putNodeRecord, putLebStr]

variable (p : Program)

variable (buffers : List BufferDecl)

@[simp] theorem putMetadataPayload_returns :
    Returns (putMetadataPayload p buffers) := by
  have hentry : ∀ opId, Returns (putEntryOpId opId) := by
    intro opId
    cases opId <;> simp [putEntryOpId]
  have hbuffer : ∀ b, Returns (putBufferMetadata b) := by simp [putBufferMetadata]
  simp [putMetadataPayload, hentry, putAll_returns hbuffer]

theorem putNodesSection_returns :
    Returns (putNodesSection p buffers) := by
  have hentry : ∀ n, Returns (putEntryNode n) := by simp [putEntryNode, putNode_returns]
  simp [putNodesSection, putAll_returns hentry]

@[simp] theorem regionTypeTag_returns (element : DataType) : Returns (regionTypeTag element) := by
  cases element <;> simp [regionTypeTag]

@[simp] theorem putDenseQuantizationScale_returns (scale : QuantizationScale) :
    Returns (putDenseQuantizationScale scale) := by
  cases scale <;> simp [putDenseQuantizationScale]

@[simp] theorem putDenseQuantizationZeroPoint_returns (zeroPoint : QuantizationZeroPoint) :
    Returns (putDenseQuantizationZeroPoint zeroPoint) := by
  cases zeroPoint <;> simp [putDenseQuantizationZeroPoint]

@[simp] theorem putElementShape_returns (element : DataType) :
    Returns (putElementShape element) := by
  cases element <;> simp [putElementShape]

theorem putMemoryRegion_returns (index : Nat) (b : BufferDecl) :
    Returns (putMemoryRegion index b) := by
  refine ite ?_ (fmtUsize_returns _ (by decide))
  simp

theorem putMemoryRegions_returns :
    Returns (putMemoryRegions buffers) := by
  have hfrom : ∀ index, Returns (putMemoryRegionsFrom index buffers) := by
    induction buffers with
    | nil => exact fun _ => ok _
    | cons b bs ih => simp [putMemoryRegionsFrom, putMemoryRegion_returns, ih]
  simp [putMemoryRegions, hfrom]

theorem putOutputSet_returns : Returns (putOutputSet buffers) := by
  have hindices : ∀ index, Returns (putOutputIndices index buffers) := by
    induction buffers with
    | nil => exact fun _ => ok _
    | cons b bs ih => simp [putOutputIndices, ih]
  simp [putOutputSet, hindices]

/-! ## Shape checks -/

def digitCount (n : Nat) : Nat := (utf8 (toString n)).length

/-- The shape of `b` is refused; `text` is the length of the diagnostic around
the name of the buffer. -/
inductive Refused (b : BufferDecl) : (text : Nat) → Prop
  | emptyWorkgroup : b.count = 0 → b.access = .workgroup → Refused b 88
  | emptyLiveOut : b.count = 0 → b.access ≠ .workgroup → b.pipelineLiveOut = true →
      Refused b 92
  | unsizedOutput {range : UInt64 × UInt64} : b.count ≠ 0 → b.outputByteRange = some range →
      b.element.sizeBytes = none → Refused b 128
  | oversizedOutput {range : UInt64 × UInt64} {size : Nat} : b.count ≠ 0 →
      b.outputByteRange = some range → b.element.sizeBytes = some size →
      2 ^ 64 ≤ b.count.toNat * size → Refused b 106
  | reversedDynamic {start stop : UInt64} : b.count = 0 → b.access ≠ .workgroup →
      b.pipelineLiveOut = false → b.outputByteRange = some (start, stop) → stop < start →
      Refused b (81 + digitCount start.toNat + digitCount stop.toNat)
  | reversedStatic {start stop : UInt64} {size : Nat} : b.count ≠ 0 →
      b.outputByteRange = some (start, stop) → b.element.sizeBytes = some size →
      b.count.toNat * size < 2 ^ 64 → stop < start →
      Refused b (81 + digitCount start.toNat + digitCount stop.toNat)
  | beyondEnd {start stop : UInt64} {size : Nat} : b.count ≠ 0 →
      b.outputByteRange = some (start, stop) → b.element.sizeBytes = some size →
      b.count.toNat * size < stop.toNat → start ≤ stop →
      Refused b (129 + digitCount stop.toNat + digitCount (b.count.toNat * size))

/-- The name of `b` leaves room for the diagnostic that refuses its shape. -/
def NameFits (b : BufferDecl) : Prop :=
  ∀ text, Refused b text → text + (utf8 b.name).length ≤ 256

/-- The lengths of the parts of a diagnostic, in the order they are pushed. -/
def partLengths (parts : List String) : List Nat := parts.map fun part => (utf8 part).length

theorem around_name {name : String} (h : (partLengths [before, after]).sum = text) :
    (partLengths [before, name, after]).sum = text + (utf8 name).length := by
  simp only [partLengths, map_cons, sum_cons] at h ⊢
  omega

theorem around_name_range {mid sep name : String} {v₁ v₂ : Nat}
    (h : (partLengths [before, mid, sep, after]).sum = text) :
    (partLengths [before, name, mid, toString v₁, sep, toString v₂, after]).sum =
      text + digitCount v₁ + digitCount v₂ + (utf8 name).length := by
  simp only [partLengths, map_cons, sum_cons,
    digitCount] at h ⊢
  omega

theorem rejectBufferShape_of_range {range : UInt64 × UInt64}
    (hcount : b.count = 0 → b.access ≠ .workgroup ∧ b.pipelineLiveOut = false)
    (hrange : b.outputByteRange = some range) :
    rejectBufferShape b = rejectOutputRange b range := by
  have hworkgroup : ¬ (b.count = 0 ∧ b.access = .workgroup) := fun h => (hcount h.1).1 h.2
  have hlive : ¬ (b.count = 0 ∧ b.pipelineLiveOut = true) := by
    intro h
    have hoff := (hcount h.1).2
    rw [hoff] at h
    exact Bool.false_ne_true h.2
  rw [rejectBufferShape, if_neg hworkgroup, if_neg hlive, hrange]

theorem outputFullSize_dynamic (hcount : b.count = 0) :
    outputFullSize b = .ok (2 ^ 64 - 1) := if_pos hcount

theorem outputFullSize_static {size : Nat} (hcount : b.count ≠ 0)
    (hsize : b.element.sizeBytes = some size) (hfits : b.count.toNat * size < 2 ^ 64) :
    outputFullSize b = .ok (b.count.toNat * size) := by
  rw [outputFullSize, if_neg hcount, hsize]
  exact if_pos hfits

/-- The check on `b` fails with `text` bytes around the name. -/
inductive Reported (b : BufferDecl) (text : Nat) : Prop
  | intro {parts : List String} : rejectBufferShape b = .error (dynamicMsg parts) →
      (partLengths parts).sum = text + (utf8 b.name).length → Reported b text

theorem Refused.reported (h : Refused b text) : Reported b text := by
  cases h with
  | emptyWorkgroup hcount haccess =>
    exact .intro (if_pos ⟨hcount, haccess⟩) (around_name (by decide))
  | emptyLiveOut hcount haccess hlive =>
    apply Reported.intro
    · rw [rejectBufferShape, if_neg (fun h => haccess h.2), if_pos ⟨hcount, hlive⟩]
    · exact around_name (by decide)
  | unsizedOutput hcount hrange hsize =>
    apply Reported.intro
    · rw [rejectBufferShape_of_range (fun h => absurd h hcount) hrange, rejectOutputRange,
        outputFullSize, if_neg hcount, hsize]
      rfl
    · exact around_name (by decide)
  | oversizedOutput hcount hrange hsize hbig =>
    apply Reported.intro
    · rw [rejectBufferShape_of_range (fun h => absurd h hcount) hrange, rejectOutputRange,
        outputFullSize, if_neg hcount, hsize]
      simp only [if_neg (Nat.not_lt.mpr hbig)]
      rfl
    · exact around_name (by decide)
  | @reversedDynamic start stop hcount haccess hlive hrange hlt =>
    apply Reported.intro
    · rw [rejectBufferShape_of_range (fun _ => ⟨haccess, hlive⟩) hrange, rejectOutputRange,
        outputFullSize_dynamic hcount]
      exact if_pos hlt
    · exact @around_name_range _ _ _ _ _ _ start.toNat stop.toNat (by decide)
  | @reversedStatic start stop size hcount hrange hsize hfits hlt =>
    apply Reported.intro
    · rw [rejectBufferShape_of_range (fun h => absurd h hcount) hrange, rejectOutputRange,
        outputFullSize_static hcount hsize hfits]
      exact if_pos hlt
    · exact @around_name_range _ _ _ _ _ _ start.toNat stop.toNat (by decide)
  | @beyondEnd start stop size hcount hrange hsize hend hle =>
    have hfull : b.count.toNat * size < 2 ^ 64 := lt_trans hend stop.toNat_lt
    apply Reported.intro
    · rw [rejectBufferShape_of_range (fun h => absurd h hcount) hrange, rejectOutputRange,
        outputFullSize_static hcount hsize hfull]
      refine (if_neg (UInt64.not_lt.mpr hle)).trans (if_pos ⟨hend, ?_⟩)
      have hstop := stop.toNat_lt
      omega
    · exact @around_name_range _ _ _ _ _ _ stop.toNat _ (by decide)

theorem rejectBufferShape_ok (h : ∀ text, ¬ Refused b text) : rejectBufferShape b = .ok () := by
  by_cases hcount : b.count = 0
  · have haccess : b.access ≠ .workgroup := fun ha => h _ (.emptyWorkgroup hcount ha)
    have hlive : b.pipelineLiveOut = false := by
      by_contra hl
      exact h _ (.emptyLiveOut hcount haccess (Bool.not_eq_false _ ▸ hl))
    cases hrange : b.outputByteRange with
    | none => simp [rejectBufferShape, haccess, hlive, hrange]
    | some range =>
      obtain ⟨start, stop⟩ := range
      have hle : ¬ stop < start := fun hlt =>
        h _ (.reversedDynamic hcount haccess hlive hrange hlt)
      rw [rejectBufferShape_of_range (fun _ => ⟨haccess, hlive⟩) hrange, rejectOutputRange,
        outputFullSize_dynamic hcount]
      exact (if_neg hle).trans (if_neg fun hbad => hbad.2 rfl)
  · cases hrange : b.outputByteRange with
    | none => simp [rejectBufferShape, hcount, hrange]
    | some range =>
      obtain ⟨start, stop⟩ := range
      cases hsize : b.element.sizeBytes with
      | none => exact absurd (.unsizedOutput hcount hrange hsize) (h _)
      | some size =>
        have hfits : b.count.toNat * size < 2 ^ 64 := by
          by_contra hbig
          exact h _ (.oversizedOutput hcount hrange hsize (Nat.not_lt.mp hbig))
        have hle : ¬ stop < start := fun hlt =>
          h _ (.reversedStatic hcount hrange hsize hfits hlt)
        have hend : ¬ b.count.toNat * size < stop.toNat := fun hlt =>
          h _ (.beyondEnd hcount hrange hsize hlt (UInt64.not_lt.mp hle))
        rw [rejectBufferShape_of_range (fun h => absurd h hcount) hrange, rejectOutputRange,
          outputFullSize_static hcount hsize hfits]
        exact (if_neg hle).trans (if_neg fun hbad => hend hbad.1)

theorem rejectBufferShape_returns_iff (b : BufferDecl) :
    Returns (rejectBufferShape b) ↔ NameFits b := by
  constructor
  · intro hreturns text hrefused
    obtain ⟨hreport, hlen⟩ := hrefused.reported
    rw [hreport, dynamicMsg_returns_iff] at hreturns
    exact hlen ▸ hreturns
  · intro hfits
    by_cases hrefused : ∃ text, Refused b text
    · obtain ⟨text, htext⟩ := hrefused
      obtain ⟨hreport, hlen⟩ := htext.reported
      rw [hreport, dynamicMsg_returns_iff]
      exact hlen ▸ hfits text htext
    · rw [rejectBufferShape_ok (not_exists.mp hrefused)]
      exact ok ()

/-- The first buffer of a refused shape has a name that leaves room for its
diagnostic. -/
def DiagnosticsFit : Prop :=
  ∀ before b after, buffers = before ++ b :: after →
    (∀ a ∈ before, ∀ text, ¬ Refused a text) → NameFits b

theorem diagnosticsFit_cons {bs : List BufferDecl} :
    DiagnosticsFit (b :: bs) ↔
      NameFits b ∧ ((∀ text, ¬ Refused b text) → DiagnosticsFit bs) := by
  constructor
  · intro h
    refine ⟨h [] b bs rfl (by simp), ?_⟩
    intro hb before a after heq hbefore
    exact h (b :: before) a after (by rw [heq]; rfl) (forall_mem_cons.mpr ⟨hb, hbefore⟩)
  · intro ⟨hfits, hrest⟩ before a after heq hbefore
    cases before with
    | nil =>
      simp only [nil_append, cons.injEq] at heq
      exact heq.1 ▸ hfits
    | cons x before =>
      simp only [cons_append, cons.injEq] at heq
      obtain ⟨rfl, heq⟩ := heq
      refine hrest (hbefore b (by simp)) before a after heq ?_
      intro y hy
      exact hbefore y (by simp [hy])

theorem rejectBufferShape_ok_iff (b : BufferDecl) :
    rejectBufferShape b = .ok () ↔ ∀ text, ¬ Refused b text := by
  refine ⟨?_, rejectBufferShape_ok⟩
  intro hok text hrefused
  obtain ⟨hreport, -⟩ := hrefused.reported
  rw [hok] at hreport
  cases hreport

theorem rejectBuffers_returns_iff :
    Returns (buffers.forM rejectBufferShape) ↔ DiagnosticsFit buffers := by
  induction buffers with
  | nil =>
    refine ⟨fun _ before b after h => ?_, fun _ => pure _⟩
    simp at h
  | cons b bs ih =>
    show Returns (rejectBufferShape b >>= fun _ => bs.forM rejectBufferShape) ↔ _
    rw [bind_iff, diagnosticsFit_cons, rejectBufferShape_returns_iff,
      ← rejectBufferShape_ok_iff]
    refine and_congr_right fun _ => ⟨fun h hok => ih.mp (h () hok), fun h _ hok => ih.mpr (h hok)⟩

/-- A workgroup dimension of 0, reported before any buffer is looked at. -/
def HasZeroAxis : Prop :=
  p.workgroupSize.1 = 0 ∨ p.workgroupSize.2.1 = 0 ∨ p.workgroupSize.2.2 = 0

theorem rejectZeroAxis_returns (axis : Nat) (size : UInt32) :
    Returns (rejectZeroAxis axis size) :=
  ite (ok _) (fmtUsize_returns _ (by decide))

theorem rejectShapes_returns_iff :
    Returns (rejectNonRoundtrippableShapes p buffers) ↔
      HasZeroAxis p ∨ DiagnosticsFit buffers := by
  simp only [rejectNonRoundtrippableShapes, bind_iff, rejectZeroAxis_returns,
    rejectZeroAxis_eq_ok, rejectBuffers_returns_iff, forall_const, HasZeroAxis]
  tauto

theorem putBody_returns_iff :
    Returns (putBody p buffers) ↔ HasZeroAxis p ∨ DiagnosticsFit buffers := by
  rw [← rejectShapes_returns_iff, putBody, bind_iff]
  refine ⟨fun h => h.1, fun h => ⟨h, fun _ _ => ?_⟩⟩
  refine (putNodesSection_returns p buffers).bind fun _ => ?_
  refine (putMemoryRegions_returns buffers).bind fun _ => ?_
  exact (putOutputSet_returns buffers).bind fun _ => pure _

theorem toWire_returns_iff (host : Host) (p : Program) :
    Returns (toWire host p) ↔ HasZeroAxis p ∨ DiagnosticsFit p.buffers := by
  rw [← putBody_returns_iff, toWire, toWireWithBufferOrder, bind_iff]
  exact ⟨fun h => h.1, fun h => ⟨h, fun _ _ => pure _⟩⟩

def nameBytes : Nat := (p.buffers.map fun b => (utf8 b.name).length).sum

/-- The bytes `to_wire` reserves are within `isize::MAX`. -/
def CapacityFits : Prop :=
  48 * p.entry.length + 42 * p.buffers.length + nameBytes p + 296 < 2 ^ 63

/-- Equal, or both too large to reserve. Saturation starts far above the limit. -/
def SameRequest (a b : Nat) : Prop := a = b ∨ (2 ^ 63 ≤ a ∧ 2 ^ 63 ≤ b)

theorem SameRequest.add {a' b b' : Nat} (ha : SameRequest a a') (hb : SameRequest b b') :
    SameRequest (saturatingAdd a b) (a' + b') := by
  unfold SameRequest saturatingAdd at *
  omega

theorem SameRequest.mul (a b : Nat) : SameRequest (saturatingMul a b) (a * b) := by
  unfold SameRequest saturatingMul
  omega

theorem withCapacity_ok_iff {b : Nat} (h : SameRequest a b) (u : Unit) :
    withCapacity a = .ok u ↔ b < 2 ^ 63 := by
  unfold withCapacity SameRequest at *
  split
  · simp
    omega
  · simp
    omega

theorem withCapacity_returns_iff {b : Nat} (h : SameRequest a b) :
    Returns (withCapacity a) ↔ b < 2 ^ 63 := by
  rw [← withCapacity_ok_iff h ()]
  unfold withCapacity
  split <;> simp [Returns]

theorem sumUsize_cases (values : List Nat) :
    (values.sum < 2 ^ 64 ∧ sumUsize values = .ok values.sum) ∨
      (2 ^ 64 ≤ values.sum ∧ sumUsize values = .error .panicked) := by
  by_cases h : values.sum < 2 ^ 64
  · exact .inl ⟨h, if_pos h⟩
  · exact .inr ⟨Nat.not_lt.mp h, if_neg h⟩

theorem estimatedWireCapacity_cases :
    (∃ capacity, estimatedWireCapacity p p.buffers = .ok capacity ∧
      SameRequest capacity
        (48 * p.entry.length + 42 * p.buffers.length + nameBytes p + 296)) ∨
      (2 ^ 64 ≤ nameBytes p ∧ estimatedWireCapacity p p.buffers = .error .panicked) := by
  have hrefl : ∀ n, SameRequest n n := fun n => .inl rfl
  rcases sumUsize_cases (p.buffers.map fun b => (utf8 b.name).length) with
    ⟨-, hsum⟩ | ⟨hlarge, hsum⟩
  · left
    have hbody := ((((SameRequest.mul p.entry.length 48).add
      (SameRequest.mul p.buffers.length 40)).add (hrefl (nameBytes p))).add
      (SameRequest.mul p.buffers.length 2)).add (hrefl 256)
    have hheader := (((hrefl magic.length).add (hrefl 2)).add (hrefl 2)).add (hrefl 32)
    refine ⟨_, by rw [estimatedWireCapacity, estimatedBodyCapacity, hsum]; rfl, ?_⟩
    have hmagic : magic.length = 4 := rfl
    have hplain : magic.length + 2 + 2 + 32 + (p.entry.length * 48 + p.buffers.length * 40 +
        nameBytes p + p.buffers.length * 2 + 256) =
        48 * p.entry.length + 42 * p.buffers.length + nameBytes p + 296 := by
      omega
    exact hplain ▸ hheader.add hbody
  · right
    exact ⟨hlarge, by rw [estimatedWireCapacity, estimatedBodyCapacity, hsum]; rfl⟩

theorem toWireReserved_returns_iff (host : Host) (p : Program) :
    Returns (toWireReserved host p) ↔ CapacityFits p ∧ Returns (toWire host p) := by
  unfold toWireReserved CapacityFits
  rcases estimatedWireCapacity_cases p with ⟨capacity, hestimate, hsame⟩ | ⟨hlarge, hestimate⟩
  · rw [hestimate]
    show Returns (withCapacity capacity >>= fun _ => toWire host p) ↔ _
    rw [bind_iff, withCapacity_returns_iff hsame]
    simp only [withCapacity_ok_iff hsame]
    exact and_congr_right fun hfits => ⟨fun h => h () hfits, fun h _ _ => h⟩
  · rw [hestimate]
    refine iff_of_false (fun h => h rfl) (fun h => ?_)
    omega

/-- `to_wire` comes back exactly when its reservation is possible and the first
refused buffer, if the encoder gets to the buffers, has a short enough name. -/
theorem encode_returns_iff (host : Host) (p : Program) :
    Returns (toWireReserved host p) ↔
      CapacityFits p ∧ (HasZeroAxis p ∨ DiagnosticsFit p.buffers) := by
  rw [toWireReserved_returns_iff, toWire_returns_iff]

def longNameProgram : Program where
  buffers := [.workgroup (String.ofList (replicate 169 'a')) 0 .u32]
  workgroupSize := (1, 1, 1)
  entry := []

theorem encode_panics :
    ∃ host, toWireReserved host longNameProgram = .error .panicked := by
  refine ⟨⟨fun _ => replicate 32 0, by simp, fun _ _ => .error "", fun _ _ => .error ""⟩, ?_⟩
  decide +kernel

end Vyre.Wire
