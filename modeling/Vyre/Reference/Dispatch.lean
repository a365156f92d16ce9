import Vyre.Reference.Machine
import Vyre.Validate.Traversal

/-!
# Running a program

`run_hashmap_reference` (`hashmap/mod.rs`): the program is validated, the inputs
are bound to the buffers in order, the grid follows from the sizes of the
buffers, and the workgroups run one after another over the same storage.

A grid over two or three axes takes a root in floating point, which is a
parameter here; `powf` with exponent one is the identity.
-/

namespace Vyre

/-- `checked_bit_width_for_packed_size`. -/
def DataType.checkedBitWidth : DataType → Except String (Option Nat)
  | .i4 | .fp4 | .nf4 => .ok (some 4)
  | .f8e4m3 | .f8e5m2 | .u8 | .i8 => .ok (some 8)
  | .u16 | .i16 | .f16 | .bf16 => .ok (some 16)
  | .bool | .u32 | .i32 | .f32 | .handle _ => .ok (some 32)
  | .i64 | .u64 | .f64 | .vec2U32 => .ok (some 64)
  | .vec4U32 => .ok (some 128)
  | .deviceMesh _ => .ok (some 32)
  | .quantized storage _ _ => storage.checkedBitWidth
  | .bytes => .ok (some 8)
  | .vec element count => do
      match ← element.checkedBitWidth with
      | none => return none
      | some bits =>
          match checkedMul bits count.toNat with
          | some total => return some total
          | none => .error s!"Fix: packed byte sizing overflowed nested bit width for {(DataType.vec element count).display}."
  | .array _ | .tensor | .tensorShaped _ _ | .sparseCsr _ | .sparseCoo _ | .sparseBsr _ _ _
  | .ext _ => .ok none

/-- `checked_size_bytes_for_packed_size`. -/
def DataType.checkedSizeBytes : DataType → Except String (Option Nat)
  | .u8 | .i8 => .ok (some 1)
  | .u16 | .i16 | .f16 | .bf16 => .ok (some 2)
  | .bool | .u32 | .i32 | .f32 => .ok (some 4)
  | .i64 | .u64 | .vec2U32 | .f64 => .ok (some 8)
  | .vec4U32 => .ok (some 16)
  | .handle _ => .ok (some 4)
  | .bytes => .ok (some 1)
  | .array elementSize => .ok (some elementSize.toNat)
  | .vec element count => do
      match ← element.checkedSizeBytes with
      | none => return none
      | some width =>
          match checkedMul width count.toNat with
          | some total => return some total
          | none => .error s!"Fix: packed byte sizing overflowed nested byte width for {(DataType.vec element count).display}."
  | .tensor | .tensorShaped _ _ => .ok none
  | .f8e4m3 | .f8e5m2 => .ok (some 1)
  | .i4 | .fp4 | .nf4 => .ok (some 1)
  | .sparseCsr _ | .sparseCoo _ | .sparseBsr _ _ _ => .ok none
  | .deviceMesh _ => .ok (some 4)
  | .quantized storage _ _ => storage.checkedSizeBytes
  | .ext _ => .ok none

def DataType.packedSizeBytes (ty : DataType) (elementCount : Nat) : Except String (Option Nat) := do
  match ← ty.checkedBitWidth with
  | some bits =>
      match checkedMul bits elementCount with
      | none => .error s!"Fix: packed byte sizing overflowed bits for {ty.display} with {elementCount} logical element(s)."
      | some total =>
          if total + 7 < usizeLimit then return some ((total + 7) / 8)
          else .error s!"Fix: packed byte sizing overflowed byte rounding for {ty.display} with {elementCount} logical element(s)."
  | none =>
      match ← ty.checkedSizeBytes with
      | some width =>
          match checkedMul width elementCount with
          | some total => return some total
          | none => .error s!"Fix: packed byte sizing overflowed bytes for {ty.display} with {elementCount} logical element(s)."
      | none => return none

def BufferDecl.staticByteLen (b : BufferDecl) : Except String (Option Nat) :=
  if b.count = 0 then .ok none
  else (b.element.packedSizeBytes b.count.toNat).mapError fun error =>
    s!"buffer `{b.name}` static byte length could not be computed: {error}. Fix: use a fixed-width element type or split the buffer."

end Vyre

namespace Vyre.Reference

def maxWorkgroupBytes : Nat := 64 * 1024 * 1024

variable (decl : BufferDecl)

def declaredMinByteLen : Except Error Nat :=
  match decl.staticByteLen with
  | .ok (some byteLen) => .ok byteLen
  | .ok none =>
      if decl.count = 0 then .ok 0
      else .error (.interp s!"buffer `{decl.name}` has unsized element type {decl.element.display}. Fix: provide a fixed-width buffer element type before invoking the reference interpreter.")
  | .error error => .error (.interp error)

def workgroupByteLen : Except Error Nat :=
  match decl.staticByteLen with
  | .ok (some byteLen) => .ok byteLen
  | .ok none =>
      if decl.count = 0 then .ok 0
      else .error (.interp s!"workgroup buffer `{decl.name}` has unsized element type {decl.element.display}. Fix: use a fixed-width workgroup element type.")
  | .error error => .error (.interp error)

/-- The loop of `workgroup_memory`. -/
def allocateWorkgroup (buffers : Ident → Option Buffer) (allocated : Nat) :
    List BufferDecl → Except Error (Ident → Option Buffer)
  | [] => .ok buffers
  | decl :: decls => do
      let len ← workgroupByteLen decl
      if usizeLimit ≤ allocated + len then
        .error (.interp "total workgroup memory byte size overflows usize. Fix: reduce workgroup buffer declarations.")
      else if maxWorkgroupBytes < allocated + len then
        .error (.interp s!"workgroup memory requires {allocated + len} bytes, exceeding the {maxWorkgroupBytes}-byte reference budget. Fix: reduce workgroup buffer counts.")
      else
        allocateWorkgroup (setBuffer buffers decl.name ⟨List.replicate len 0, decl.element⟩)
          (allocated + len) decls

/-- `reset_workgroup`: buffers of the declared layout, all zero. Those of the
workgroup before are reused when the layout is the same. -/
def workgroupMemory (program : Program) : Except Error (Ident → Option Buffer) :=
  allocateWorkgroup (fun _ => none) 0 (program.buffers.filter (·.access = .workgroup))

def elementCount (byteLen : Nat) : Except Error UInt32 :=
  match decl.element.bitWidth with
  | some bits =>
      if usizeLimit ≤ byteLen * 8 then
        .error (.interp s!"buffer `{decl.name}` has {byteLen} bytes and overflows host bit counting. Fix: shrink declaration footprint or split work.")
      else if byteLen * 8 / bits < 2 ^ 32 then .ok (UInt32.ofNat (byteLen * 8 / bits))
      else .error (.interp s!"buffer `{decl.name}` has {byteLen} bytes for {bits}-bit elements and overflows u32 elements. Fix: shrink declaration footprint or split work.")
  | none =>
      match decl.element.sizeBytes with
      | none => .error (.interp s!"buffer `{decl.name}` has unsized element type {decl.element.display}. Fix: provide a fixed-width buffer element type before invoking the reference interpreter.")
      | some 0 =>
          if byteLen < 2 ^ 32 then .ok (UInt32.ofNat byteLen)
          else .error (.interp s!"buffer `{decl.name}` has {byteLen} bytes and cannot be indexed within u32 address space. Fix: shrink or split the invocation.")
      | some stride =>
          if byteLen / stride < 2 ^ 32 then .ok (UInt32.ofNat (byteLen / stride))
          else .error (.interp s!"buffer `{decl.name}` has {byteLen} bytes for stride {stride} and overflows u32 elements. Fix: shrink declaration footprint or split work.")

def backendAllocatedOutput : Bool :=
  decl.isOutput || decl.access = .writeOnly || (decl.pipelineLiveOut && decl.access = .readWrite)

structure Bound where
  storage : Ident → Option Buffer := fun _ => none
  inputs : List Value
  outputDecls : List BufferDecl := []
  maxOutputElements : UInt32 := 0
  maxInputElements : UInt32 := 1
  programGraphNodeCount : Option UInt32 := none
  hasWorkgroupBuffer : Bool := false

def bindBytes (legacyInputMode : Bool) (decl : BufferDecl) (requiredBytes : Nat)
    (inputs : List Value) : Except Error (List UInt8 × List Value) :=
  if backendAllocatedOutput decl then
    if legacyInputMode then
      match inputs with
      | _ :: inputs => .ok (List.replicate requiredBytes 0, inputs)
      | [] => .error (.interp s!"missing legacy output initializer for buffer `{decl.name}`. Fix: pass one Value for each non-workgroup buffer or migrate to logical inputs only.")
    else .ok (List.replicate requiredBytes 0, inputs)
  else
    match inputs with
    | value :: inputs => .ok (value.toBytes, inputs)
    | [] => .error (.interp s!"missing input for buffer `{decl.name}`. Fix: pass one Value for each non-output, non-workgroup buffer in Program::buffers order.")

def bindBuffer (legacyInputMode : Bool) (st : Bound) (decl : BufferDecl) : Except Error Bound :=
  if decl.access = .workgroup then .ok { st with hasWorkgroupBuffer := true }
  else do
    let programGraphNodeCount :=
      if decl.binding = 0 ∧ decl.name = "pg_nodes" then some decl.count
      else st.programGraphNodeCount
    let requiredBytes ← declaredMinByteLen decl
    let (bytes, inputs) ← bindBytes legacyInputMode decl requiredBytes st.inputs
    if bytes.length < requiredBytes then
      .error (.interp s!"buffer `{decl.name}` has {bytes.length} bytes but requires at least {requiredBytes} bytes ({decl.count} elements of {decl.element.display}). Fix: provide a larger input buffer.")
    else do
      let elements ← elementCount decl bytes.length
      let storage := setBuffer st.storage decl.name ⟨bytes, decl.element⟩
      if backendAllocatedOutput decl || decl.access = .readWrite then
        return { st with
          storage, inputs, programGraphNodeCount
          maxOutputElements := max st.maxOutputElements elements
          outputDecls := st.outputDecls ++ [decl] }
      else
        return { st with
          storage, inputs, programGraphNodeCount
          maxInputElements := max st.maxInputElements elements }

def bindInputs (program : Program) (inputs : List Value) : Except Error Bound := do
  let perBuffer := program.buffers.filter (·.access ≠ .workgroup)
  let logicalInputCount := perBuffer.countP fun decl => !backendAllocatedOutput decl
  let legacyInputMode := inputs.length = perBuffer.length ∧ inputs.length ≠ logicalInputCount
  let st ← program.buffers.foldlM (bindBuffer legacyInputMode) { inputs }
  if st.inputs.isEmpty then return st
  else .error (.interp "unused input values supplied. Fix: pass exactly one Value per non-workgroup buffer declaration.")

/-- What running a program takes from outside besides the host: the signatures
the validator looks up, the text of ids in a message, and the root of the grid. -/
structure Setting where
  host : Host
  signatures : Option Validate.DialectLookup
  debugIds : InvocationIds → String
  /-- `(total as f64).powf(1.0 / axes as f64).ceil() as u32`. -/
  rootCeil : Nat → UInt32 → UInt32
  rootCeil_one : ∀ total, rootCeil 1 total = total

/-- `saturating_mul`. -/
def saturatingMulU32 (a b : UInt32) : UInt32 := UInt32.ofNat (min (a.toNat * b.toNat) (2 ^ 32 - 1))

/-- `stats().atomic_op_count > 0`. -/
def usesAtomics (entry : List Node) : Bool :=
  !(Node.collectList (fun | .atomic _ _ _ _ _ _ => [()] | _ => []) (fun _ => []) entry).isEmpty

def totalWorkgroups (program : Program) (st : Bound) : UInt32 :=
  let size := program.workgroupSize
  let perWorkgroup :=
    max (saturatingMulU32 (saturatingMulU32 (saturatingMulU32 1 size.1) size.2.1) size.2.2) 1
  let forceFullSpan := st.hasWorkgroupBuffer || usesAtomics program.entry
  let elements := max (max (max st.maxOutputElements (st.programGraphNodeCount.getD 0)) 1)
    (if st.outputDecls.isEmpty || forceFullSpan then st.maxInputElements else 1)
  max (UInt32.ofNat ((elements.toNat + perWorkgroup.toNat - 1) / perWorkgroup.toNat)) 1

def workgroupCounts (s : Setting) (size : Dim3) (total : UInt32) : Dim3 :=
  let active := [size.1, size.2.1, size.2.2].countP (1 < ·)
  if active = 0 then (total, 1, 1)
  else
    let base := max (s.rootCeil active total) 1
    (if 1 < size.1 then base else 1, if 1 < size.2.1 then base else 1,
      if 1 < size.2.2 then base else 1)

def workgroups (counts : Dim3) : List Dim3 :=
  (List.range counts.2.2.toNat).flatMap fun z => (List.range counts.2.1.toNat).flatMap fun y =>
    (List.range counts.1.toNat).map fun x => (UInt32.ofNat x, UInt32.ofNat y, UInt32.ofNat z)

section Runs

variable (s : Setting) (program : Program)

def RunsWorkgroup (workgroup : Dim3) (memory memory' : Memory) : Prop :=
  ∃ shared invs, workgroupMemory program = .ok shared ∧
    createInvocations program workgroup = .ok invs ∧
    ∃ k c, rounds s.host (usesSubgroupOps program.entry) k
      ⟨{ memory with workgroup := shared }, invs⟩ = .ok c ∧
      c.finished = true ∧ c.pendingCheck s.debugIds = .ok () ∧ c.memory = memory'

def RunsWorkgroups : List Dim3 → Memory → Memory → Prop
  | [], memory, memory' => memory = memory'
  | workgroup :: rest, memory, memory' =>
      ∃ between, RunsWorkgroup s program workgroup memory between ∧
        RunsWorkgroups rest between memory'

def outputValue (buffer : Buffer) (decl : BufferDecl) : Value :=
  match decl.outputByteRange with
  | some (start, stop) =>
      if start ≤ stop ∧ stop.toNat ≤ buffer.bytes.length then
        .bytes ((buffer.bytes.take stop.toNat).drop start.toNat)
      else .bytes buffer.bytes
  | none => .bytes buffer.bytes

/-- The buffers a caller gets back; the names are different in a valid program. -/
def collectOutputs (storage : Ident → Option Buffer) (decls : List BufferDecl) :
    Except Error (List Value) :=
  decls.mapM fun decl =>
    match storage decl.name with
    | some buffer => .ok (outputValue buffer decl)
    | none => .error (.interp s!"missing output buffer `{decl.name}` after dispatch. Fix: keep buffer declarations unique.")

/-- `run_hashmap_reference` returns `outputs`. -/
def Evaluates (inputs outputs : List Value) : Prop :=
  Validate.validateWithOptions { supportsSubgroupOps := true, dialect := s.signatures } program =
    [] ∧
    ∃ st, bindInputs program inputs = .ok st ∧
      ¬(program.workgroupSize.1 = 0 ∨ program.workgroupSize.2.1 = 0 ∨
        program.workgroupSize.2.2 = 0) ∧
      ∃ memory, RunsWorkgroups s program
          (workgroups (workgroupCounts s program.workgroupSize (totalWorkgroups program st)))
          ⟨st.storage, fun _ => none⟩ memory ∧
        collectOutputs memory.storage st.outputDecls = .ok outputs

end Runs

end Vyre.Reference
