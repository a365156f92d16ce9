import Vyre.Ir.Program
import Vyre.Lib.ByteCodec

/-!
# Wire framing

Limits, failures and the primitive writers and readers of the `VYRE` wire
format (`serial/wire.rs`, `serial/wire/framing`, the LEB128 half of
`decode/from_wire.rs`).

Every `put_*` function of the source only appends to its output, so a writer is
modelled by the bytes it appends.

The decoder takes two switches the source does not have. `Checks.source` turns
both off and is the decoder of the repository; turning one on adds checks, so
that what the source lets through can be named.
-/

namespace Vyre.Wire

open ByteCodec

def maxBuffers : Nat := 16384
def maxNodes : Nat := 1000000
def maxArgs : Nat := 4096
def maxStringLen : Nat := 2 ^ 20
def maxOpaquePayloadLen : Nat := maxArgs * 1024
def maxDecodeDepth : Nat := 64
def maxProgramBytes : Nat := 64 * 1024 * 1024

/-- What the codec calls outside the repository: the digest, and the decoders
that extension crates register (`decode_opaque_node`, `decode_opaque_expr`). -/
structure Host where
  blake3 : List UInt8 → List UInt8
  blake3_length : ∀ bytes, (blake3 bytes).length = 32
  decodeOpaqueExpr : String → List UInt8 → Except String ExprExtension
  decodeOpaqueNode : String → List UInt8 → Except String NodeExtension

/-- Registered decoders undo the payload encoders of their own extensions. -/
structure Host.Inverts (host : Host) : Prop where
  expr : ∀ x y, host.decodeOpaqueExpr x.extensionKind x.wirePayload = .ok y → y = x
  node : ∀ x y, host.decodeOpaqueNode x.extensionKind x.wirePayload = .ok y → y = x

/-- An encoder call ends with a diagnostic, or panics while building one. -/
inductive EncodeFailure where
  | error (message : String)
  | panicked
  deriving DecidableEq

abbrev Put := Except EncodeFailure (List UInt8)

def staticMsg (message : String) : EncodeFailure := .error message

/-- `WireEncodeErr::Dynamic`: the parts are pushed into an `ArrayString<256>`,
and `push_str` panics once they do not fit. -/
def dynamicMsg (parts : List String) : EncodeFailure :=
  if (parts.map (fun part => (utf8 part).length)).sum ≤ 256 then
    .error (String.join parts)
  else .panicked

/-- `WireEncodeErr::fmt_usize`; the value is a `usize` of 64 bits. -/
def fmtUsize (before : String) (value : Nat) (after : String) : EncodeFailure :=
  dynamicMsg [before, toString (UInt64.ofNat value), after]

def fmtUsize2 (before : String) (v₁ : Nat) (mid : String) (v₂ : Nat) (after : String) :
    EncodeFailure :=
  dynamicMsg [before, toString (UInt64.ofNat v₁), mid, toString (UInt64.ofNat v₂), after]

def putU32 (value : UInt32) : List UInt8 := leBytes 4 value.toNat

def putU64 (value : UInt64) : List UInt8 := leBytes 8 value.toNat

def putLenU32 (value : Nat) (label : String) : Put :=
  if value < 2 ^ 32 then .ok (leBytes 4 value)
  else .error (fmtUsize label value
    " exceeds u32::MAX. Fix: split the Program before IR wire-format serialization.")

def putString (value : String) : Put :=
  if maxStringLen < (utf8 value).length then
    .error (fmtUsize2 "Fix: string length " (utf8 value).length
      " exceeds IR wire-format limit " maxStringLen
      "; shorten names/op ids before serialization.")
  else do
    let len ← putLenU32 (utf8 value).length "string length"
    return len ++ utf8 value

/-- `put_leb_u64`: ten groups of seven bits cover a `u64`. -/
def putLebU64 (value : UInt64) : List UInt8 := lebBytes 10 value.toNat

def putLebU32 (value : UInt32) : List UInt8 := lebBytes 10 value.toNat

/-- A length written with `put_leb_u64` after `u64::try_from`. -/
def putLebLen (value : Nat) (tooLong : String) : Put :=
  if value < 2 ^ 64 then .ok (lebBytes 10 value) else .error (staticMsg tooLong)

/-- Checks the source's decoder does not make. -/
structure Checks where
  /-- Refuse every spelling the encoder never writes. -/
  canonical : Bool
  /-- Count data types against the nesting limit. -/
  guardTypes : Bool

def Checks.source : Checks := ⟨false, false⟩

def Checks.strict : Checks := ⟨true, false⟩

def Checks.guarded : Checks := ⟨false, true⟩

inductive DecodeFailure where
  | error (message : String)
  | versionMismatch (expected found : Nat)
  /-- The call stack ran out: more nested decoder calls than it has frames. -/
  | stackOverflow
  /-- Raised by `Checks.canonical` only. -/
  | nonCanonical
  /-- Raised by `Checks.guardTypes` only. -/
  | typeTooDeep
  deriving DecidableEq

abbrev Read := Get DecodeFailure

/-- `Err(message)`. -/
def err {α : Type} (message : String) : Read α := fail (.error message)

/-- `if !ok { return Err(message) }`. -/
def ensure (ok : Bool) (message : String) : Read Unit := check ok (.error message)

def Checks.require (chk : Checks) (ok : Bool) : Read Unit :=
  check (!chk.canonical || ok) .nonCanonical

def truncated : DecodeFailure :=
  .error "truncated IR wire format. Fix: provide the complete Program bytes."

namespace Reader

def take (len : Nat) : Read (List UInt8) := ByteCodec.take truncated len

def u8 : Read UInt8 := byte truncated

def u32 : Read UInt32 := do
  let bytes ← take 4
  return UInt32.ofNat (ofLeBytes bytes)

def u64 : Read UInt64 := do
  let bytes ← take 8
  return UInt64.ofNat (ofLeBytes bytes)

def i32 : Read Int32 := do
  let bits ← u32
  return bits.toInt32

def boundedLen (max : Nat) (label : String) : Read Nat := do
  let value ← u32
  ensure (value.toNat ≤ max) s!"Fix: {label} {value} exceeds IR wire-format limit {max}; split the Program or reject this untrusted blob."
  return value.toNat

/-- `str::from_utf8` with the caller's diagnostic. -/
def utf8Text (bytes : List UInt8) (message : String) : Read String :=
  match ofUtf8 bytes with
  | some s => pure s
  | none => err message

def string : Read String := do
  let len ← boundedLen maxStringLen "string length"
  let bytes ← take len
  utf8Text bytes "invalid UTF-8 in IR wire-format string. Fix: serialize valid Rust String values."

variable (chk : Checks)

/-- A byte read as `reader.u8()? != 0`. -/
def flag : Read Bool := do
  let b ← u8
  chk.require (b ≤ 1)
  return b != 0

def lebErrors : LebErrors DecodeFailure where
  short := truncated
  overflow := .error "TruncatedPayload: LEB128 integer exceeds u64. Fix: reject malformed wire bytes."
  unterminated := .error
    "TruncatedPayload: unterminated LEB128 integer. Fix: reject malformed wire bytes."
  overlong := .nonCanonical

/-- `leb_u64`: ten bytes at most, the tenth at most 1. -/
def lebU64 : Read Nat := leb lebErrors chk.canonical 1 10 0 0

def lebU32 : Read UInt32 := do
  let value ← lebU64 chk
  ensure (value < 2 ^ 32) s!"TruncatedPayload: LEB128 value {value} cannot fit u32. Fix: reject malformed wire bytes."
  return UInt32.ofNat value

def lebLen (max : Nat) (label : String) : Read Nat := do
  let value ← lebU64 chk
  ensure (value ≤ max) s!"TruncatedPayload: {label} {value} exceeds limit {max}. Fix: split the Program or reject this untrusted payload."
  return value

def lebString : Read String := do
  let len ← lebLen chk maxStringLen "string length"
  let bytes ← take len
  utf8Text bytes "TruncatedPayload: invalid UTF-8 in string. Fix: serialize valid UTF-8 operation identifiers."

end Reader

def stringBytes (s : String) : List UInt8 := leBytes 4 (utf8 s).length ++ utf8 s

def StringFits (s : String) : Prop := (utf8 s).length ≤ maxStringLen

instance (s : String) : Decidable (StringFits s) := inferInstanceAs (Decidable (_ ≤ _))

variable {bs : List UInt8}

@[simp] theorem putLenU32_eq_ok {n : Nat} {label : String} :
    putLenU32 n label = .ok bs ↔ n < 2 ^ 32 ∧ bs = leBytes 4 n := by
  rw [putLenU32, ite_error_eq_ok]

@[simp] theorem putString_eq_ok {s : String} :
    putString s = .ok bs ↔ StringFits s ∧ bs = stringBytes s := by
  rw [putString, error_ite_eq_ok, not_lt]
  refine and_congr_right fun h => ?_
  have hlen : (utf8 s).length < 4294967296 := lt_of_le_of_lt h (by decide)
  simp [stringBytes, hlen, eq_comm (a := bs)]

@[simp] theorem putLebLen_eq_ok {n : Nat} {tooLong : String} :
    putLebLen n tooLong = .ok bs ↔ n < 2 ^ 64 ∧ bs = lebBytes 10 n := by
  rw [putLebLen, ite_error_eq_ok]

section Forward

variable {d : Nat} {rest : List UInt8} {c' : Cursor}

variable {c : Cursor} {a : Bool} {message : String} {chk : Checks} {v n : Nat}

@[simp] theorem reads_err {α : Type} {a : α} : Reads (err message : Read α) c a c' ↔ False := by
  simp [err]

@[simp] theorem reads_ensure {ok : Bool} {u : Unit} :
    Reads (ensure ok message) c u c' ↔ ok = true ∧ c' = c := by
  simp [ensure]

@[simp] theorem reads_require {ok : Bool} {u : Unit} :
    Reads (chk.require ok) c u c' ↔ (chk.canonical = true → ok = true) ∧ c' = c := by
  cases h : chk.canonical <;> simp [Checks.require, h]

@[simp] theorem reads_u8 {b a : UInt8} :
    Reads Reader.u8 ⟨b :: rest, d⟩ a c' ↔ c' = ⟨rest, d⟩ ∧ a = b := reads_byte_cons

theorem toNat_lt_pow (v : UInt32) : v.toNat < 256 ^ 4 := v.toNat_lt

@[simp] theorem reads_u32 {v a : UInt32} :
    Reads Reader.u32 ⟨putU32 v ++ rest, d⟩ a c' ↔ c' = ⟨rest, d⟩ ∧ a = v := by
  have hv : ofLeBytes (leBytes 4 v.toNat) = v.toNat := ofLeBytes_leBytes (toNat_lt_pow v)
  simp [Reader.u32, Reader.take, putU32, hv]

@[simp] theorem reads_u64 {v a : UInt64} :
    Reads Reader.u64 ⟨putU64 v ++ rest, d⟩ a c' ↔ c' = ⟨rest, d⟩ ∧ a = v := by
  have hv : ofLeBytes (leBytes 8 v.toNat) = v.toNat := ofLeBytes_leBytes v.toNat_lt
  simp [Reader.u64, Reader.take, putU64, hv]

@[simp] theorem reads_i32 {v a : Int32} :
    Reads Reader.i32 ⟨putU32 v.toUInt32 ++ rest, d⟩ a c' ↔ c' = ⟨rest, d⟩ ∧ a = v := by
  simp [Reader.i32]

theorem reads_boundedLen {max : Nat} {label : String} (hn : n < 2 ^ 32) :
    Reads (Reader.boundedLen max label) ⟨leBytes 4 n ++ rest, d⟩ v c' ↔
      n ≤ max ∧ c' = ⟨rest, d⟩ ∧ v = n := by
  have hval : (UInt32.ofNat n).toNat = n := by rw [UInt32.toNat_ofNat', Nat.mod_eq_of_lt hn]
  have hput : leBytes 4 n = putU32 (UInt32.ofNat n) := by rw [putU32, hval]
  rw [hput]
  simp [Reader.boundedLen, hval, and_assoc]

@[simp] theorem reads_utf8Text {s t : String} :
    Reads (Reader.utf8Text (utf8 s) message) c t c' ↔ c' = c ∧ t = s := by
  simp [Reader.utf8Text]

theorem reads_string {s t : String} (hs : StringFits s) :
    Reads Reader.string ⟨stringBytes s ++ rest, d⟩ t c' ↔ c' = ⟨rest, d⟩ ∧ t = s := by
  have hlen : (utf8 s).length < 2 ^ 32 := by
    have : maxStringLen < 2 ^ 32 := by decide
    unfold StringFits at hs
    omega
  have hle : (utf8 s).length ≤ maxStringLen := hs
  simp [Reader.string, stringBytes, reads_boundedLen hlen, Reader.take, hle]

/-- The byte a `bool` is written as. -/
def flagByte (b : Bool) : UInt8 := if b then 1 else 0

@[simp] theorem reads_flag {b : Bool} :
    Reads (Reader.flag chk) ⟨flagByte b :: rest, d⟩ a c' ↔ c' = ⟨rest, d⟩ ∧ a = b := by
  cases b <;> simp [Reader.flag, flagByte]

@[simp] theorem reads_flag_zero :
    Reads (Reader.flag chk) ⟨0 :: rest, d⟩ a c' ↔ c' = ⟨rest, d⟩ ∧ a = false :=
  reads_flag (b := false)

@[simp] theorem reads_flag_one :
    Reads (Reader.flag chk) ⟨1 :: rest, d⟩ a c' ↔ c' = ⟨rest, d⟩ ∧ a = true :=
  reads_flag (b := true)

theorem reads_lebU64 (hn : n < 2 ^ 64) :
    Reads (Reader.lebU64 chk) ⟨lebBytes 10 n ++ rest, d⟩ v c' ↔ c' = ⟨rest, d⟩ ∧ v = n := by
  rw [Reader.lebU64, reads_leb_lebBytes (by omega) (by omega)
    (by calc n < 2 ^ 64 := hn
          _ = 128 ^ 9 * (1 + 1) := by norm_num) (by omega)]
  simp

@[simp] theorem reads_lebU32 {v a : UInt32} :
    Reads (Reader.lebU32 chk) ⟨putLebU32 v ++ rest, d⟩ a c' ↔ c' = ⟨rest, d⟩ ∧ a = v := by
  have hv : v.toNat < 2 ^ 32 := v.toNat_lt
  have hv' : v.toNat < 2 ^ 64 := by omega
  simp only [Nat.reducePow] at hv
  simp [Reader.lebU32, putLebU32, reads_lebU64 hv', hv]

theorem reads_lebLen {max : Nat} {label : String} (hn : n < 2 ^ 64) :
    Reads (Reader.lebLen chk max label) ⟨lebBytes 10 n ++ rest, d⟩ v c' ↔
      n ≤ max ∧ c' = ⟨rest, d⟩ ∧ v = n := by
  simp [Reader.lebLen, reads_lebU64 hn, and_assoc]

end Forward

end Vyre.Wire
