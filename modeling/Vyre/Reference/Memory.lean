import Vyre.Reference.Ops

/-!
# Buffers and memory

`oob.rs` and `hashmap/memory.rs`: typed bytes with the out-of-bounds rules of
the reference interpreter, and the two name spaces of buffers. A name is looked
up in storage first, then among the workgroup buffers; atomics only in storage.
-/

namespace Vyre

def DataType.minBytes : DataType → Nat
  | .u16 | .i16 | .f16 | .bf16 => 2
  | .bool | .u32 | .i32 | .f32 | .handle _ => 4
  | .i64 | .u64 | .vec2U32 | .f64 => 8
  | .vec4U32 => 16
  | .vec element count => min (element.minBytes * count.toNat) (usizeLimit - 1)
  | .bytes | .array _ | .tensor | .tensorShaped _ _ => 0
  | .u8 | .i8 | .f8e4m3 | .f8e5m2 | .i4 | .fp4 | .nf4 => 1
  | .sparseCsr _ | .sparseCoo _ | .sparseBsr _ _ _ | .deviceMesh _ => 0
  | .quantized storage _ _ => storage.minBytes
  | .ext _ => 0

def DataType.bitWidth : DataType → Option Nat
  | .i4 | .fp4 | .nf4 => some 4
  | .f8e4m3 | .f8e5m2 | .u8 | .i8 => some 8
  | .u16 | .i16 | .f16 | .bf16 => some 16
  | .bool | .u32 | .i32 | .f32 | .handle _ => some 32
  | .i64 | .u64 | .f64 | .vec2U32 => some 64
  | .vec4U32 => some 128
  | .deviceMesh _ => some 32
  | .quantized storage _ _ => storage.bitWidth
  | .bytes => some 8
  | .vec element count =>
      match element.bitWidth with
      | some bits => checkedMul bits count.toNat
      | none => none
  | .array _ | .tensor | .tensorShaped _ _ | .sparseCsr _ | .sparseCoo _ | .sparseBsr _ _ _
  | .ext _ => none

end Vyre

namespace Vyre.Reference

open ByteCodec

structure Buffer where
  bytes : List UInt8
  element : DataType
  deriving DecidableEq

namespace Buffer

/-- `Buffer::len`: elements, capped at `u32::MAX`. -/
def len (b : Buffer) : UInt32 :=
  let count :=
    match b.element.bitWidth with
    | some bits => b.bytes.length * 8 / bits
    | none =>
        match b.element.sizeBytes with
        | some stride => if stride = 0 then b.bytes.length else b.bytes.length / stride
        | none => b.bytes.length
  UInt32.ofNat (min count 0xFFFFFFFF)

/-- `copy_from_slice` of `data` at `offset`. -/
def overwrite (b : Buffer) (offset : Nat) (data : List UInt8) : Buffer :=
  { b with bytes := b.bytes.take offset ++ data ++ b.bytes.drop (offset + data.length) }

/-- `ir_to_conform_type`: a bool element is read back as a `u32`. -/
def conformType : DataType → DataType
  | .bool => .u32
  | ty => ty

variable (fl : Floats)

/-- `oob::load`: out of bounds reads as zero of the element type. -/
def load (b : Buffer) (index : UInt32) : Value :=
  let ty := conformType b.element
  if b.element = .bytes then
    if b.bytes.length < index.toNat then .bytes [] else .bytes (b.bytes.drop index.toNat)
  else
    match checkedMul index.toNat b.element.minBytes with
    | none => Value.zeroFor ty
    | some offset =>
        if b.element.minBytes = 0 ∨ b.bytes.length < offset + b.element.minBytes then
          Value.zeroFor ty
        else
          (Value.fromElementBytes fl ty ((b.bytes.drop offset).take b.element.minBytes)).getD
            (Value.zeroFor ty)

/-- `write_element`: the bytes of one element slot. -/
def elementBytes (element : DataType) (value : Value) : List UInt8 :=
  match element with
  | .f32 =>
      let bits := match value with
        | .float bits => fl.narrow bits
        | .u32 bits => bits
        | _ => 0
      leBytes 4 (canonicalF32 bits).toNat
  | element => value.toSlot element.minBytes

/-- `oob::store`: out of bounds is a no-op. -/
def store (b : Buffer) (index : UInt32) (value : Value) : Buffer :=
  if b.element = .bytes then
    if b.bytes.length ≤ index.toNat then b
    else b.overwrite index.toNat (value.toBytes.take (b.bytes.length - index.toNat))
  else
    match checkedMul index.toNat b.element.minBytes with
    | none => b
    | some offset =>
        if b.element.minBytes = 0 ∨ b.bytes.length < offset + b.element.minBytes then b
        else b.overwrite offset (elementBytes fl b.element value)

/-- `oob::atomic_load`: words are at least four bytes apart. -/
def atomicLoad (b : Buffer) (index : UInt32) : Option UInt32 :=
  match checkedMul index.toNat (max b.element.minBytes 4) with
  | none => none
  | some offset =>
      if b.bytes.length < offset + 4 then none
      else some (readU32Prefix (b.bytes.drop offset))

def atomicStore (b : Buffer) (index : UInt32) (value : UInt32) : Buffer :=
  match checkedMul index.toNat (max b.element.minBytes 4) with
  | none => b
  | some offset =>
      if offset + 4 ≤ b.bytes.length then b.overwrite offset (leBytes 4 value.toNat) else b

end Buffer

/-- `HashmapMemory`; the maps are functions of the name. -/
structure Memory where
  storage : Ident → Option Buffer
  workgroup : Ident → Option Buffer

/-- `insert` into one of the maps. -/
def setBuffer (buffers : Ident → Option Buffer) (name : Ident) (b : Buffer) :
    Ident → Option Buffer :=
  fun key => if key = name then some b else buffers key

namespace Memory

def find (memory : Memory) (name : Ident) : Option Buffer :=
  (memory.storage name).or (memory.workgroup name)

def resolveBuffer (memory : Memory) (name : Ident) : Except Error Buffer :=
  match memory.find name with
  | some b => .ok b
  | none => .error (.interp s!"missing buffer `{name}`. Fix: initialize all declared buffers.")

/-- Write through `buffer_mut`: the map the buffer was found in. -/
def update (memory : Memory) (name : Ident) (b : Buffer) : Memory :=
  if (memory.storage name).isSome then
    { memory with storage := setBuffer memory.storage name b }
  else { memory with workgroup := setBuffer memory.workgroup name b }

/-- `atomic_buffer_mut`. -/
def atomicBuffer (memory : Memory) (name : Ident) : Except Error Buffer :=
  match memory.storage name with
  | some b => .ok b
  | none => .error (.interp s!"atomic target `{name}` is workgroup memory or missing. Fix: atomics only support ReadWrite storage buffers.")

end Memory

/-! ## What writes keep

Loads depend on the bytes; lengths and element types never change, which is
what the static analyses rely on. -/

theorem Buffer.overwrite_length {b : Buffer} {offset : Nat} {data : List UInt8}
    (h : offset + data.length ≤ b.bytes.length) :
    (b.overwrite offset data).bytes.length = b.bytes.length := by
  simp only [overwrite, List.length_append, List.length_take, List.length_drop]
  omega

/-- What no operation changes: the element type and the number of bytes. -/
def Buffer.shape (b : Buffer) : DataType × Nat := (b.element, b.bytes.length)

theorem Buffer.overwrite_shape {b : Buffer} {offset : Nat} {data : List UInt8}
    (h : offset + data.length ≤ b.bytes.length) : (b.overwrite offset data).shape = b.shape :=
  Prod.ext rfl (overwrite_length h)

theorem Buffer.elementBytes_length (fl : Floats) (element : DataType) (value : Value) :
    (Buffer.elementBytes fl element value).length = element.minBytes := by
  have hslot : ∀ n, (value.toSlot n).length = n := by
    intro n
    simp only [Value.toSlot, List.length_append, List.length_take, List.length_replicate]
    omega
  cases element <;> first | exact hslot _ | exact leBytes_length _ _

theorem Buffer.store_shape (fl : Floats) (b : Buffer) (index : UInt32) (value : Value) :
    (b.store fl index value).shape = b.shape := by
  unfold store
  split_ifs with hbytes hlen
  · rfl
  · apply overwrite_shape
    rw [List.length_take]
    omega
  split
  · rfl
  split_ifs with hout
  · rfl
  · apply overwrite_shape
    rw [elementBytes_length]
    omega

theorem Buffer.atomicStore_shape (b : Buffer) (index value : UInt32) :
    (b.atomicStore index value).shape = b.shape := by
  unfold atomicStore
  split
  · rfl
  split_ifs with hin
  · apply overwrite_shape
    exact hin
  · rfl

def Memory.shape (m : Memory) :
    (Ident → Option (DataType × Nat)) × (Ident → Option (DataType × Nat)) :=
  (fun name => (m.storage name).map Buffer.shape, fun name => (m.workgroup name).map Buffer.shape)

theorem setBuffer_shape {buffers : Ident → Option Buffer} {name : Ident} {b b' : Buffer}
    (hb : buffers name = some b) (h : b'.shape = b.shape) :
    (fun key => (setBuffer buffers name b' key).map Buffer.shape) =
      fun key => (buffers key).map Buffer.shape := by
  funext key
  by_cases hkey : key = name
  · subst hkey
    simp [setBuffer, hb, h]
  · simp [setBuffer, hkey]

theorem Memory.find_shape {m m' : Memory} (h : m.shape = m'.shape) (name : Ident) :
    (m.find name).map Buffer.shape = (m'.find name).map Buffer.shape := by
  obtain ⟨hs, hw⟩ := Prod.mk.inj h
  have hs := congrFun hs name
  have hw := congrFun hw name
  simp only [Memory.find, Option.map_or, hs, hw]

theorem Memory.update_shape {m : Memory} {name : Ident} {b b' : Buffer}
    (hb : m.find name = some b) (h : b'.shape = b.shape) : (m.update name b').shape = m.shape := by
  unfold Memory.update
  cases hs : m.storage name with
  | some c =>
    rw [Memory.find, hs] at hb
    exact Prod.ext (setBuffer_shape (hs.trans hb) h) rfl
  | none =>
    rw [Memory.find, hs] at hb
    exact Prod.ext rfl (setBuffer_shape hb h)

end Vyre.Reference
