import Vyre.Megakernel.Publish

/-!
# Packing operations into a slot

One slot can hold several inner operations. The host packs their opcodes and
argument offsets into the first argument words and the arguments behind them
(`publish_packed_slot`, `protocol_api/publish.rs`). The module says what an
accepted list of operations leaves in the slot.
-/

namespace Vyre.Megakernel

open ByteCodec Reference List UInt32

abbrev PackedOp := UInt8 × List UInt32

def writePackedMetadataByte (args : List UInt32) (byteIndex : Nat) (value : UInt8) : List UInt32 :=
  args.modify (byteIndex / 4) (· ||| value.toUInt32 <<< ofNat (byteIndex % 4 * 8))

/-- What the packing loop has written: `args`, and `packed_args` up to
`packed_arg_words`. -/
structure Packing where
  args : List UInt32
  packed : List UInt32

/-- One round of the packing loop. The sums of lengths fit in `usize`. -/
def packOp (metadataWords index : Nat) (op : PackedOp) (st : Packing) :
    Except PipelineError Packing :=
  if 256 ≤ st.packed.length then
    .error (submission "packed slot arg offsets must fit in one u8 word index")
  else if argsPerSlot < metadataWords + (st.packed.length + op.2.length) then
    .error (submission "packed slot payload exceeds the 12-word slot argument budget")
  else
    let args := writePackedMetadataByte st.args (2 + index * 2) op.1
    let args := writePackedMetadataByte args (2 + index * 2 + 1) (UInt8.ofNat st.packed.length)
    .ok ⟨args, st.packed ++ op.2⟩

def packOps (metadataWords : Nat) : Nat → List PackedOp → Packing → Except PipelineError Packing
  | _, [], st => .ok st
  | index, op :: ops, st => do
      let st ← packOp metadataWords index op st
      packOps metadataWords (index + 1) ops st

def metadataWords (opCount : Nat) : Nat := (opCount * 2 + 2 + 3) / 4

def publishPackedSlot (ring : List UInt8) (slotIdx tenant : UInt32) (ops : List PackedOp) :
    Except PipelineError (List UInt8) :=
  if 256 ≤ ops.length then .error (submission "packed slot supports at most 255 inner opcodes")
  else if argsPerSlot < metadataWords ops.length then
    .error (submission "packed slot metadata exceeds the 12-word slot argument budget")
  else do
    let args := writePackedMetadataByte (replicate argsPerSlot 0) 0 (UInt8.ofNat ops.length)
    let st ← packOps (metadataWords ops.length) 0 ops ⟨args, []⟩
    if 256 ≤ st.packed.length then
      .error (submission "packed slot total arg words must fit in one u8")
    else
      let args := writePackedMetadataByte st.args 1 (UInt8.ofNat st.packed.length)
      let totalWords := metadataWords ops.length + st.packed.length
      let args := args.take (metadataWords ops.length) ++ st.packed ++ args.drop totalWords
      publishSlot ring slotIdx tenant Opcode.packedSlot (args.take totalWords)

def byteAt (ws : List UInt32) (b : Nat) : UInt32 :=
  ws.getD (b / 4) 0 >>> ofNat (b % 4 * 8) &&& 0xFF

theorem getElem_ff {i : Nat} (hi : i < 32) : (255#32)[i] = decide (i < 8) := by
  have h : (255#32) = BitVec.setWidth 32 (BitVec.allOnes 8) := rfl
  rw [← BitVec.getLsbD_eq_getElem, h, BitVec.getLsbD_setWidth, BitVec.getLsbD_allOnes]
  simp [hi]

theorem byte_or (w : UInt32) (v : UInt8) {j j' : Nat} (hj : j < 4) (hj' : j' < 4) :
    (w ||| v.toUInt32 <<< ofNat (j * 8)) >>> ofNat (j' * 8) &&& 0xFF =
      if j' = j then (w >>> ofNat (j' * 8) &&& 0xFF) ||| v.toUInt32
      else w >>> ofNat (j' * 8) &&& 0xFF := by
  apply UInt32.toBitVec_inj.mp
  apply BitVec.eq_of_getLsbD_eq
  intro i hi
  have hs : (j * 8) % 4294967296 % 32 = j * 8 := by omega
  have hs' : (j' * 8) % 4294967296 % 32 = j' * 8 := by omega
  by_cases h : j' = j
  · subst h
    by_cases hbyte : i < 8
    · simp [hs', hi, getElem_ff hi, hbyte, show j' * 8 + i < 32 by omega]
    · simp [BitVec.getLsbD_of_ge v.toBitVec i (by omega)]
  · by_cases hbyte : i < 8
    · by_cases hbefore : j' * 8 + i < j * 8
      · simp [h, hs, hs', hbefore]
      · have hout : v.toBitVec.getLsbD (j' * 8 + i - j * 8) = false :=
          BitVec.getLsbD_of_ge _ _ (by omega)
        simp [h, hs, hs', hout]
    · simp [h, hi, getElem_ff hi, hbyte]

theorem byteAt_write {ws : List UInt32} {b : Nat} (hb : b / 4 < ws.length) (hzero : byteAt ws b = 0)
    (v : UInt8) (b' : Nat) :
    byteAt (writePackedMetadataByte ws b v) b' = if b' = b then v.toUInt32 else byteAt ws b' := by
  unfold byteAt writePackedMetadataByte
  by_cases hword : b' / 4 = b / 4
  · have hget : (ws.modify (b / 4) (· ||| v.toUInt32 <<< ofNat (b % 4 * 8))).getD (b' / 4) 0 =
        ws.getD (b / 4) 0 ||| v.toUInt32 <<< ofNat (b % 4 * 8) := by
      simp [hword, hb]
    rw [hget, byte_or _ _ (by omega) (by omega)]
    by_cases hbyte : b' = b
    · subst hbyte
      have hz : ws.getD (b' / 4) 0 >>> ofNat (b' % 4 * 8) &&& 0xFF = 0 := hzero
      rw [if_pos rfl, if_pos rfl, hz, UInt32.zero_or]
    · rw [if_neg (by omega), if_neg hbyte, hword]
  · have hget : (ws.modify (b / 4) (· ||| v.toUInt32 <<< ofNat (b % 4 * 8))).getD (b' / 4) 0 =
        ws.getD (b' / 4) 0 := by
      simp [Ne.symm hword]
    rw [hget, if_neg (by rintro rfl; exact hword rfl)]

@[simp] theorem length_write (ws : List UInt32) (b : Nat) (v : UInt8) :
    (writePackedMetadataByte ws b v).length = ws.length := by
  simp [writePackedMetadataByte]

/-! ## What the packer writes -/

variable (ops : List PackedOp)

/-- Where the arguments of an operation start among all arguments. -/
def argOffset (i : Nat) : Nat := ((ops.take i).map fun op => op.2.length).sum

def allArgs : List UInt32 := ops.flatMap fun op => op.2

theorem length_allArgs_take (i : Nat) : (allArgs (ops.take i)).length = argOffset ops i := by
  simp [allArgs, argOffset]

theorem length_allArgs : (allArgs ops).length = argOffset ops ops.length := by
  rw [← length_allArgs_take, take_length]

theorem argOffset_append (op : PackedOp) {i : Nat} (h : i ≤ ops.length) :
    argOffset (ops ++ [op]) i = argOffset ops i := by
  rw [argOffset, take_append_of_le_length h, argOffset]

/-- The operations `ops`, out of `count`, are packed. -/
structure Packed (count : Nat) (ops : List PackedOp) (st : Packing) : Prop where
  length : st.args.length = argsPerSlot
  packed : st.packed = allArgs ops
  fits : metadataWords count + st.packed.length ≤ argsPerSlot
  count : byteAt st.args 0 = ofNat count
  total : byteAt st.args 1 = 0
  opcode : ∀ i (h : i < ops.length), byteAt st.args (2 + i * 2) = ops[i].1.toUInt32
  offset : ∀ i, i < ops.length → byteAt st.args (2 + i * 2 + 1) = ofNat (argOffset ops i)
  rest : ∀ b, 2 + ops.length * 2 ≤ b → byteAt st.args b = 0

theorem byte_lt {count n b : Nat} (hfits : metadataWords count ≤ argsPerSlot) (hn : n < count)
    (hb : b ≤ 2 + n * 2 + 1) : b / 4 < argsPerSlot := by
  unfold metadataWords argsPerSlot at *
  omega

variable {ops : List PackedOp}

theorem Packed.packOp {count : Nat} {st st' : Packing} (h : Packed count ops st)
    {op : PackedOp} (hlt : ops.length < count)
    (hok : packOp (metadataWords count) ops.length op st = .ok st') :
    Packed count (ops ++ [op]) st' := by
  unfold Megakernel.packOp at hok
  have hfits := h.fits
  have hmeta : metadataWords count ≤ argsPerSlot := by omega
  by_cases hbig : 256 ≤ st.packed.length
  · rw [if_pos hbig] at hok
    cases hok
  rw [if_neg hbig] at hok
  by_cases hover : argsPerSlot < metadataWords count + (st.packed.length + op.2.length)
  · rw [if_pos hover] at hok
    cases hok
  rw [if_neg hover] at hok
  cases hok
  have hbyte : ∀ b, byteAt (writePackedMetadataByte (writePackedMetadataByte st.args
      (2 + ops.length * 2) op.1) (2 + ops.length * 2 + 1) (UInt8.ofNat st.packed.length)) b =
      if b = 2 + ops.length * 2 + 1 then ofNat (argOffset ops ops.length)
      else if b = 2 + ops.length * 2 then op.1.toUInt32 else byteAt st.args b := by
    intro b
    have hfirst := byteAt_write (by rw [h.length]; exact byte_lt hmeta hlt (by omega))
      (h.rest (2 + ops.length * 2) (by omega)) op.1
    have hzero : byteAt (writePackedMetadataByte st.args (2 + ops.length * 2) op.1)
        (2 + ops.length * 2 + 1) = 0 := by
      rw [hfirst, if_neg (by omega)]
      exact h.rest _ (by omega)
    rw [byteAt_write (by rw [length_write, h.length]; exact byte_lt hmeta hlt (by omega)) hzero,
      UInt8.toUInt32_ofNat' (by change _ < 256; omega), h.packed, length_allArgs, hfirst]
  have hlength : (ops ++ [op]).length = ops.length + 1 := by simp
  refine ⟨by simpa using h.length, ?_, ?_, ?_, ?_, ?_, ?_, ?_⟩
  · rw [h.packed]
    simp [allArgs]
  · rw [length_append]
    omega
  · rw [hbyte, if_neg (by omega), if_neg (by omega), h.count]
  · rw [hbyte, if_neg (by omega), if_neg (by omega), h.total]
  · intro i hi
    rw [hbyte, if_neg (by omega)]
    by_cases hlast : i = ops.length
    · subst hlast
      simp
    · rw [if_neg (by omega), h.opcode i (by omega), getElem_append_left]
  · intro i hi
    rw [hbyte, argOffset_append ops op (by omega)]
    by_cases hlast : i = ops.length
    · rw [if_pos (by rw [hlast]), hlast]
    · rw [if_neg (by omega), if_neg (by omega), h.offset i (by omega)]
  · intro b hb
    rw [hbyte, if_neg (by omega), if_neg (by omega)]
    exact h.rest b (by omega)

theorem Packed.packOps {count : Nat} {more : List PackedOp} {st st' : Packing}
    (h : Packed count ops st) (hcount : ops.length + more.length = count)
    (hok : packOps (metadataWords count) ops.length more st = .ok st') :
    Packed count (ops ++ more) st' := by
  induction more generalizing ops st with
  | nil =>
    cases hok
    simpa using h
  | cons op more ih =>
    obtain ⟨mid, hmid, hok⟩ := bind_eq_ok.mp hok
    have hlength : (ops ++ [op]).length = ops.length + 1 := by simp
    rw [length_cons] at hcount
    have hpacked := ih (h.packOp (by omega) hmid) (by omega) (by rw [hlength]; exact hok)
    simpa using hpacked

structure Layout (ops : List PackedOp) (payload : List UInt32) : Prop where
  length : payload.length = metadataWords ops.length + (allArgs ops).length
  fits : payload.length ≤ argsPerSlot
  count : byteAt payload 0 = ofNat ops.length
  opcode : ∀ i (h : i < ops.length), byteAt payload (2 + i * 2) = ops[i].1.toUInt32
  offset : ∀ i, i < ops.length → byteAt payload (2 + i * 2 + 1) = ofNat (argOffset ops i)
  arg : ∀ j, j < (allArgs ops).length →
    payload.getD (metadataWords ops.length + j) 0 = (allArgs ops).getD j 0

theorem byteAt_take_append {args tail : List UInt32} {w b : Nat} (hw : w ≤ args.length)
    (hb : b < 4 * w) :
    byteAt (args.take w ++ tail) b = byteAt args b := by
  have hlt : b / 4 < w := by omega
  have htake : b / 4 < (args.take w).length := by
    rw [length_take]
    omega
  simp [byteAt, getElem?_append_left htake, hlt]

theorem Packed.layout {st : Packing} (h : Packed ops.length ops st) :
    Layout ops (take (metadataWords ops.length + st.packed.length)
      ((writePackedMetadataByte st.args 1 (UInt8.ofNat st.packed.length)).take
        (metadataWords ops.length) ++
        st.packed ++ (writePackedMetadataByte st.args 1 (UInt8.ofNat st.packed.length)).drop
          (metadataWords ops.length + st.packed.length))) := by
  have hfits := h.fits
  set args := writePackedMetadataByte st.args 1 (UInt8.ofNat st.packed.length) with hargs
  have hlength : args.length = argsPerSlot := by rw [length_write, h.length]
  have htake : (args.take (metadataWords ops.length)).length = metadataWords ops.length := by
    rw [length_take]
    omega
  have hpayload : take (metadataWords ops.length + st.packed.length)
      (args.take (metadataWords ops.length) ++ st.packed ++
        args.drop (metadataWords ops.length + st.packed.length)) =
      args.take (metadataWords ops.length) ++ st.packed := by
    rw [take_append_of_le_length (by rw [length_append, htake]), take_of_length_le]
    rw [length_append, htake]
  have hbyte : ∀ b, b ≠ 1 → b < 4 * metadataWords ops.length →
      byteAt (args.take (metadataWords ops.length) ++ st.packed) b = byteAt st.args b := by
    intro b hb hin
    rw [byteAt_take_append (by omega) hin, hargs,
      byteAt_write (by rw [h.length]; decide) h.total, if_neg hb]
  have hmeta : 2 + ops.length * 2 ≤ 4 * metadataWords ops.length := by
    unfold metadataWords
    omega
  rw [hpayload]
  refine ⟨?_, ?_, ?_, ?_, ?_, ?_⟩
  · rw [length_append, htake, h.packed]
  · rw [length_append, htake]
    exact hfits
  · rw [hbyte 0 (by omega) (by omega), h.count]
  · intro i hi
    rw [hbyte _ (by omega) (by omega), h.opcode i hi]
  · intro i hi
    rw [hbyte _ (by omega) (by omega), h.offset i hi]
  · intro j hj
    rw [← h.packed, getD_append_right _ _ _ _ (by rw [htake]; omega), htake,
      Nat.add_sub_cancel_left]

theorem publishPackedSlot_eq_ok {ring ring' : List UInt8} {slot tenant : UInt32}
    (h : publishPackedSlot ring slot tenant ops = .ok ring') :
    ∃ ws payload, slotWords * slot.toNat + slotWords ≤ ws.length ∧ Layout ops payload ∧
      ring' = Words.toBytes (rewriteSlot ws slot.toNat tenant Opcode.packedSlot payload) := by
  unfold publishPackedSlot at h
  by_cases hmany : 256 ≤ ops.length
  · rw [if_pos hmany] at h
    cases h
  rw [if_neg hmany] at h
  by_cases hmeta : argsPerSlot < metadataWords ops.length
  · rw [if_pos hmeta] at h
    cases h
  rw [if_neg hmeta] at h
  obtain ⟨st, hpack, h⟩ := bind_eq_ok.mp h
  have hzero : ∀ b, byteAt (replicate argsPerSlot 0) b = 0 := by
    intro b
    have hget : (replicate argsPerSlot (0 : UInt32)).getD (b / 4) 0 = 0 := by
      rw [getD_eq_getElem?_getD, getElem?_replicate]
      split <;> rfl
    rw [byteAt, hget, UInt32.zero_shiftRight, UInt32.zero_and]
  have hbyte := @byteAt_write (replicate argsPerSlot 0) 0 (by decide) (hzero 0)
  have hstart : Packed ops.length []
      ⟨writePackedMetadataByte (replicate argsPerSlot 0) 0 (UInt8.ofNat ops.length), []⟩ := by
    refine ⟨by simp, rfl, by simp; omega, ?_, ?_, by simp, by simp, ?_⟩
    · rw [hbyte, if_pos rfl, UInt8.toUInt32_ofNat' (by change _ < 256; omega)]
    · rw [hbyte, if_neg (by omega), hzero]
    · intro b hb
      rw [hbyte, if_neg (by omega), hzero]
  have hpacked := hstart.packOps (by simp) hpack
  by_cases htotal : 256 ≤ st.packed.length
  · rw [if_pos htotal] at h
    cases h
  rw [if_neg htotal] at h
  obtain ⟨ws, -, hws, -, -, hring⟩ := publishSlot_eq_ok h
  exact ⟨ws, _, hws, hpacked.layout, hring⟩

end Vyre.Megakernel
