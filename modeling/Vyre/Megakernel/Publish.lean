import Vyre.Reference.Kernel

/-!
# Publishing into the ring

The host side of the megakernel protocol (`megakernel/protocol.rs`,
`protocol/opcode.rs`, `protocol/slot.rs`, `protocol_api/publish.rs`): a slot is
sixteen little-endian words of the ring bytes, and a publisher writes a slot
whose status says that nobody else uses it.

On the host `usize` has 64 bits, so a `u32` always converts.
-/

namespace Vyre.Megakernel

open ByteCodec Reference List Words

def slotWords : Nat := 16

def statusWord : Nat := 0

def opcodeWord : Nat := 1

def tenantWord : Nat := 2

def priorityWord : Nat := 3

def arg0Word : Nat := 4

def argsPerSlot : Nat := 12

/-- `MAX_RING_SLOTS`: the slots the device can address. -/
def maxRingSlots : Nat := 0xFFFFFFFF / slotWords

namespace Slot

def empty : UInt32 := 0

def published : UInt32 := 1

def done : UInt32 := 3

end Slot

namespace Opcode

def storeU32 : UInt32 := 1

def atomicAdd : UInt32 := 2

def loadU32 : UInt32 := 3

def compareSwap : UInt32 := 4

def memcpy : UInt32 := 5

def batchFence : UInt32 := 7

def packedSlot : UInt32 := 0x80000001

def printf : UInt32 := 0x0000FFFE

def shutdown : UInt32 := 0xFFFFFFFF

def systemMask : UInt32 := 0x80000000

def reservedMaxRangeMin : UInt32 := 0x0000FFF0

def isSystem (op : UInt32) : Bool :=
  op &&& systemMask != 0 || (reservedMaxRangeMin ≤ op && op ≤ 0x0000FFFF) || op ≤ batchFence

def isBuiltin (op : UInt32) : Bool :=
  op ≤ batchFence || op == packedSlot || op == printf || op == shutdown

def validateUserOpcode (op : UInt32) : Except String Unit :=
  if isSystem op then
    .error "User opcode overlaps with reserved system range or uses the high bit."
  else .ok ()

def validatePublishOpcode (op : UInt32) : Except String Unit :=
  if isBuiltin op then .ok () else validateUserOpcode op

end Opcode

/-- `PipelineError::QueueFull`. -/
inductive PipelineError where
  | queueFull (queue fix : String)
  deriving DecidableEq

def submission (fix : String) : PipelineError := .queueFull "submission" fix

structure RingPublishView where
  slotBytes : Nat
  slotCapacity : Nat

/-- `ok_or` of a checked operation. -/
def orQueueFull {α : Type} (o : Option α) (fix : String) : Except PipelineError α :=
  match o with
  | some a => .ok a
  | none => .error (submission fix)

def validateRingPublishView (ring : List UInt8) : Except PipelineError RingPublishView := do
  let slotBytes ← orQueueFull (checkedMul slotWords 4)
    "slot byte width overflowed usize; keep SLOT_WORDS within the u32 ABI"
  if ring.length % slotBytes ≠ 0 then
    .error (submission "ring buffer byte length is not an exact multiple of SLOT_WORDS * 4; rebuild it with Megakernel::encode_empty_ring")
  else .ok ⟨slotBytes, ring.length / slotBytes⟩

def slotBase (slotIdx : UInt32) (view : RingPublishView) : Except PipelineError Nat :=
  orQueueFull (checkedMul slotIdx.toNat view.slotBytes)
    "slot byte offset overflowed usize; shard the ring before publishing"

/-- `read_word` of `publish_slot_validated`. -/
def readWord (ring : List UInt8) (base word : Nat) : Except PipelineError UInt32 :=
  if base + word * 4 + 4 ≤ ring.length then .ok (readU32Prefix (ring.drop (base + word * 4)))
  else .error (submission "slot word is outside the validated ring buffer; validate ring length before publishing")

def writeSlotWord (ring : List UInt8) (base word : Nat) (value : UInt32) : List UInt8 :=
  ring.take (base + word * 4) ++ leBytes 4 value.toNat ++ ring.drop (base + word * 4 + 4)

/-- `fill(0)` of a range of bytes. -/
def fillZero (ring : List UInt8) (start stop : Nat) : List UInt8 :=
  ring.take start ++ replicate (stop - start) 0 ++ ring.drop stop

/-- The argument words from the `index`-th on. -/
def writeArgs (ring : List UInt8) (base : Nat) : Nat → List UInt32 → List UInt8
  | _, [] => ring
  | index, arg :: args =>
      writeArgs (writeSlotWord ring base (arg0Word + index) arg) base (index + 1) args

/-- The writes of `publish_slot_validated` and `write_slot_unchecked`: the
status comes last. -/
def writeSlot (ring : List UInt8) (base : Nat) (tenant opcode : UInt32) (args : List UInt32) :
    List UInt8 :=
  let ring := writeSlotWord ring base opcodeWord opcode
  let ring := writeSlotWord ring base tenantWord tenant
  -- `scheduler::priority::NORMAL`.
  let ring := writeSlotWord ring base priorityWord 2
  let start := base + arg0Word * 4
  let ring := fillZero ring start (start + argsPerSlot * 4)
  let ring := writeArgs ring base 0 args
  writeSlotWord ring base statusWord Slot.published

def publishSlotValidated (ring : List UInt8) (view : RingPublishView)
    (slotIdx tenant opcode : UInt32)
    (args : List UInt32) : Except PipelineError (List UInt8) := do
  if view.slotCapacity ≤ slotIdx.toNat then
    .error (submission "slot_idx exceeds ring slot count; enlarge the ring via encode_empty_ring")
  else if argsPerSlot < args.length then
    .error (submission "too many args for one slot; 12 u32 args max per slot")
  else
    match Opcode.validatePublishOpcode opcode with
    | .error fix => .error (submission fix)
    | .ok () => do
        let base ← slotBase slotIdx view
        let currentStatus ← readWord ring base statusWord
        if currentStatus ≠ Slot.empty ∧ currentStatus ≠ Slot.done then
          .error (submission "slot is not publishable; only EMPTY and DONE slots may be written by the host")
        else .ok (writeSlot ring base tenant opcode args)

def publishSlot (ring : List UInt8) (slotIdx tenant opcode : UInt32) (args : List UInt32) :
    Except PipelineError (List UInt8) := do
  let view ← validateRingPublishView ring
  publishSlotValidated ring view slotIdx tenant opcode args

/-! ## The writes, on words -/

def rewriteSlot (ws : List UInt32) (slot : Nat) (tenant opcode : UInt32) (args : List UInt32) :
    List UInt32 :=
  ws.take (slotWords * slot) ++
    ([Slot.published, opcode, tenant, 2] ++ args ++ replicate (argsPerSlot - args.length) 0) ++
    ws.drop (slotWords * slot + slotWords)

variable {ws pre post args : List UInt32} {slot : Nat}

theorem writeSlotWord_toBytes {word : Nat} (h : slotWords * slot + word < ws.length) (v : UInt32) :
    writeSlotWord (toBytes ws) (slot * 64) word v =
      toBytes (ws.set (slotWords * slot + word) v) := by
  have hoff : slot * 64 + word * 4 = 4 * (slotWords * slot + word) := by
    unfold slotWords
    omega
  rw [writeSlotWord, hoff, overwrite_toBytes h]

theorem set_middle {hd : List UInt32} {k : Nat} (h : k < hd.length) (v : UInt32) :
    (pre ++ hd ++ post).set (pre.length + k) v = pre ++ hd.set k v ++ post := by
  simp [h]

theorem fillZero_toBytes (pre body post : List UInt32) :
    fillZero (toBytes (pre ++ body ++ post)) (4 * pre.length) (4 * (pre.length + body.length)) =
      toBytes (pre ++ replicate body.length 0 ++ post) := by
  have hzero : replicate (4 * body.length) 0 = toBytes (replicate body.length 0) := by
    induction body.length with
    | zero => rfl
    | succ n ih =>
      rw [replicate_succ, toBytes_cons, ← ih]
      rfl
  have htake : (pre ++ body ++ post).take pre.length = pre := by simp
  have hdrop : (pre ++ body ++ post).drop (pre.length + body.length) = post := by
    rw [← length_append, drop_left]
  have hlength : 4 * (pre.length + body.length) - 4 * pre.length = 4 * body.length := by omega
  rw [fillZero, hlength, hzero, take_toBytes, drop_toBytes, htake, hdrop,
    toBytes_append, toBytes_append]

theorem writeArgs_toBytes {index : Nat} {body : List UInt32}
    (hpre : pre.length = slotWords * slot + (arg0Word + index)) (h : args.length ≤ body.length) :
    writeArgs (toBytes (pre ++ body ++ post)) (slot * 64) index args =
      toBytes (pre ++ args ++ (body.drop args.length ++ post)) := by
  induction args generalizing pre body index with
  | nil => simp [writeArgs]
  | cons arg args ih =>
    cases body with
    | nil => simp at h
    | cons x body =>
      simp only [length_cons] at h
      have hword : slotWords * slot + (arg0Word + index) < (pre ++ (x :: body) ++ post).length := by
        simp only [length_append, length_cons]
        omega
      have hset : (pre ++ (x :: body) ++ post).set (pre.length + 0) arg =
          (pre ++ [arg]) ++ body ++ post := by
        simp
      rw [writeArgs, writeSlotWord_toBytes hword, ← hpre, ← Nat.add_zero pre.length, hset,
        ih (by rw [length_append]; simp; omega) (by omega)]
      simp

theorem exists_slot (h : slotWords * slot + slotWords ≤ ws.length) :
    ∃ pre w₀ w₁ w₂ w₃ body post, ws = pre ++ [w₀, w₁, w₂, w₃] ++ (body ++ post) ∧
      pre.length = slotWords * slot ∧ body.length = argsPerSlot := by
  have hhead : ((ws.drop (slotWords * slot)).take 4).length = 4 := by
    rw [length_take, length_drop]
    unfold slotWords at *
    omega
  obtain ⟨w₀, w₁, w₂, w₃, hhead⟩ := length_eq_four.mp hhead
  refine ⟨ws.take (slotWords * slot), w₀, w₁, w₂, w₃,
    (ws.drop (slotWords * slot + 4)).take argsPerSlot,
    (ws.drop (slotWords * slot + 4)).drop argsPerSlot, ?_, ?_, ?_⟩
  · rw [← hhead, take_append_drop, ← drop_drop, append_assoc, take_append_drop,
      take_append_drop]
  · rw [length_take]
    omega
  · rw [length_take, length_drop]
    unfold slotWords argsPerSlot at *
    omega

theorem rewriteSlot_split {hd body : List UInt32} (hpre : pre.length = slotWords * slot)
    (hhd : hd.length = 4) (hbody : body.length = argsPerSlot) (tenant opcode : UInt32)
    (args : List UInt32) :
    rewriteSlot (pre ++ hd ++ (body ++ post)) slot tenant opcode args =
      pre ++ ([Slot.published, opcode, tenant, 2] ++ args ++
        replicate (argsPerSlot - args.length) 0) ++ post := by
  have htake : (pre ++ hd ++ (body ++ post)).take pre.length = pre := by simp
  have hdrop : (pre ++ hd ++ (body ++ post)).drop (pre.length + slotWords) = post := by
    have hsplit : pre.length + slotWords = (pre ++ hd ++ body).length := by
      simp only [length_append, hhd, hbody]
      rfl
    rw [hsplit, ← append_assoc, drop_left]
  rw [rewriteSlot, ← hpre, htake, hdrop]

theorem writeSlot_toBytes (h : slotWords * slot + slotWords ≤ ws.length) (tenant opcode : UInt32)
    (hargs : args.length ≤ argsPerSlot) :
    writeSlot (toBytes ws) (slot * 64) tenant opcode args =
      toBytes (rewriteSlot ws slot tenant opcode args) := by
  obtain ⟨pre, w₀, w₁, w₂, w₃, body, post, rfl, hpre, hbody⟩ := exists_slot h
  have hset : ∀ (hd tail : List UInt32) (k : Nat) (v : UInt32), hd.length = 4 → k < 4 →
      writeSlotWord (toBytes (pre ++ hd ++ tail)) (slot * 64) k v =
        toBytes (pre ++ hd.set k v ++ tail) := by
    intro hd tail k v hhd hk
    have hlt : slotWords * slot + k < (pre ++ hd ++ tail).length := by
      simp only [length_append]
      omega
    rw [writeSlotWord_toBytes hlt, ← hpre, set_middle (by omega)]
  have hfill : ∀ hd : List UInt32, hd.length = 4 →
      fillZero (toBytes (pre ++ hd ++ (body ++ post))) (slot * 64 + arg0Word * 4)
        (slot * 64 + arg0Word * 4 + argsPerSlot * 4) =
      toBytes (pre ++ hd ++ replicate argsPerSlot 0 ++ post) := by
    intro hd hhd
    have hstart : slot * 64 + arg0Word * 4 = 4 * (pre ++ hd).length := by
      rw [length_append, hpre]
      unfold slotWords arg0Word
      omega
    have hstop :
        slot * 64 + arg0Word * 4 + argsPerSlot * 4 = 4 * ((pre ++ hd).length + body.length) := by
      omega
    rw [hstart] at hstop
    rw [hstart, hstop, ← append_assoc, fillZero_toBytes, hbody]
  have hargs' : ∀ hd : List UInt32, hd.length = 4 →
      writeArgs (toBytes (pre ++ hd ++ replicate argsPerSlot 0 ++ post)) (slot * 64) 0 args =
        toBytes (pre ++ hd ++ (args ++ (replicate (argsPerSlot - args.length) 0 ++ post))) := by
    intro hd hhd
    rw [writeArgs_toBytes (by rw [length_append, hpre, hhd]; rfl) (by simpa using hargs),
      drop_replicate, append_assoc]
  have hheader : ∀ tail, writeSlotWord (writeSlotWord (writeSlotWord
      (toBytes (pre ++ [w₀, w₁, w₂, w₃] ++ tail)) (slot * 64) opcodeWord opcode)
      (slot * 64) tenantWord tenant) (slot * 64) priorityWord 2 =
        toBytes (pre ++ [w₀, opcode, tenant, 2] ++ tail) := by
    intro tail
    rw [hset _ _ _ _ rfl (by decide), hset _ _ _ _ rfl (by decide), hset _ _ _ _ rfl (by decide)]
    rfl
  simp only [writeSlot]
  rw [hheader, hfill _ rfl, hargs' _ rfl, hset _ _ _ _ rfl (by decide),
    rewriteSlot_split hpre rfl hbody]
  simp [statusWord]

def statusAt (ws : List UInt32) (slot : Nat) : UInt32 := ws.getD (slotWords * slot) 0

theorem validateRingPublishView_eq_ok {ring : List UInt8} {view : RingPublishView} :
    validateRingPublishView ring = .ok view ↔
      ring.length % 64 = 0 ∧ view = ⟨64, ring.length / 64⟩ := by
  show (if ring.length % 64 ≠ 0 then _ else Except.ok (RingPublishView.mk 64 (ring.length / 64))) =
    .ok view ↔ _
  by_cases hmod : ring.length % 64 = 0
  · simp [hmod, eq_comm]
  · simp [hmod]

theorem slotBase_eq (slot : UInt32) (capacity : Nat) :
    slotBase slot ⟨64, capacity⟩ = .ok (slot.toNat * 64) := by
  have hlt := slot.toNat_lt
  have hin : slot.toNat * 64 < usizeLimit := by
    unfold usizeLimit
    omega
  rw [slotBase, checkedMul, if_pos hin]
  rfl

theorem readWord_toBytes {word : Nat} (h : slotWords * slot + word < ws.length) :
    readWord (toBytes ws) (slot * 64) word = .ok (ws.getD (slotWords * slot + word) 0) := by
  have hoff : slot * 64 + word * 4 = 4 * (slotWords * slot + word) := by
    unfold slotWords
    omega
  rw [readWord, hoff, length_toBytes, if_pos (by omega), readU32Prefix,
    ofLeBytes_drop_toBytes h, getD_eq_getElem _ _ h]

theorem publishSlot_eq_ok {ring ring' : List UInt8} {slot tenant opcode : UInt32}
    (h : publishSlot ring slot tenant opcode args = .ok ring') :
    ∃ ws, ring = toBytes ws ∧ slotWords * slot.toNat + slotWords ≤ ws.length ∧
      args.length ≤ argsPerSlot ∧
      (statusAt ws slot.toNat = Slot.empty ∨ statusAt ws slot.toNat = Slot.done) ∧
      ring' = toBytes (rewriteSlot ws slot.toNat tenant opcode args) := by
  obtain ⟨view, hview, h⟩ := bind_eq_ok.mp h
  obtain ⟨hmod, rfl⟩ := validateRingPublishView_eq_ok.mp hview
  obtain ⟨ws, hlength, rfl⟩ := @Words.exists_toBytes ring (ring.length / 4) (by omega)
  rw [publishSlotValidated, error_ite_eq_ok, error_ite_eq_ok] at h
  obtain ⟨hslot, hargs, h⟩ := h
  dsimp only at hslot
  have hfits : slotWords * slot.toNat + slotWords ≤ ws.length := by
    unfold slotWords
    omega
  have hword : slotWords * slot.toNat + statusWord < ws.length := by
    unfold slotWords statusWord at *
    omega
  split at h
  · cases h
  · simp only [slotBase_eq, bind_eq_ok, Except.ok.injEq, exists_eq_left', readWord_toBytes hword,
      error_ite_eq_ok, writeSlot_toBytes hfits tenant opcode (not_lt.mp hargs)] at h
    exact ⟨ws, rfl, hfits, by omega, by tauto, h.2.symm⟩

end Vyre.Megakernel
