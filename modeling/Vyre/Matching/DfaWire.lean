import Vyre.Lib.ByteCodec

/-!
# Decoding automata

`CompiledDfa::from_bytes` (`matching/dfa_compile.rs`) over the word reader of
`serial/envelope.rs`, and what a decoded automaton does when it is stepped from
state 0 through its transition table.

The decoder checks the lengths of the tables and the output offsets. It does not
look at the entries of the transition table, and it accepts an automaton without
states.
-/

namespace Vyre.Matching

open ByteCodec List

inductive EnvelopeError where
  | truncated (needed got : Nat)
  | badMagic (expected found : List UInt8)
  | versionMismatch (expected found : UInt32)
  | sectionTooLarge (len max : Nat)
  deriving DecidableEq

structure WireReader where
  src : List UInt8
  cursor : Nat

variable (bytes : List UInt8)

/-- `u32::from_le_bytes` of the four bytes at an offset. -/
def wordAt (offset : Nat) : UInt32 :=
  UInt32.ofNat (ofLeBytes ((bytes.drop offset).take 4))

namespace WireReader

def new (bytes expectedMagic : List UInt8) (expectedVersion : UInt32) :
    Except EnvelopeError WireReader :=
  if bytes.length < 8 then .error (.truncated 8 bytes.length)
  else if bytes.take 4 ≠ expectedMagic then .error (.badMagic expectedMagic (bytes.take 4))
  else if wordAt bytes 4 ≠ expectedVersion then
    .error (.versionMismatch expectedVersion (wordAt bytes 4))
  else .ok ⟨bytes, 8⟩

def readU32 (r : WireReader) : Except EnvelopeError (UInt32 × WireReader) :=
  if r.src.length < r.cursor + 4 then .error (.truncated (r.cursor + 4) r.src.length)
  else .ok (wordAt r.src r.cursor, { r with cursor := r.cursor + 4 })

def readWords (r : WireReader) : Except EnvelopeError (List UInt32 × WireReader) := do
  let (count, r) ← r.readU32
  if r.src.length < r.cursor + count.toNat * 4 then
    .error (.truncated (r.cursor + count.toNat * 4) r.src.length)
  else
    return ((range count.toNat).map fun i => wordAt r.src (r.cursor + i * 4),
      { r with cursor := r.cursor + count.toNat * 4 })

end WireReader

/-- `write_words`: the count and then the words. -/
def writeWords (words : List UInt32) : Except EnvelopeError (List UInt8) :=
  if words.length < 2 ^ 32 then
    .ok (leBytes 4 words.length ++ words.flatMap fun w => leBytes 4 w.toNat)
  else .error (.sectionTooLarge words.length (2 ^ 32 - 1))

structure CompiledDfa where
  transitions : List UInt32
  accept : List UInt32
  stateCount : UInt32
  maxPatternLen : UInt32
  outputOffsets : List UInt32
  outputRecords : List UInt32
  deriving DecidableEq

inductive DfaWireError where
  | truncated (needed got : Nat)
  | badMagic
  | versionMismatch (expected found : UInt32)
  | shapeMismatch (reason : String)
  | sectionTooLarge (len max : Nat)
  deriving DecidableEq

def mapEnvelopeError : EnvelopeError → DfaWireError
  | .truncated needed got => .truncated needed got
  | .badMagic _ _ => .badMagic
  | .versionMismatch expected found => .versionMismatch expected found
  | .sectionTooLarge len max => .sectionTooLarge len max

/-- `b"VDFA"`. -/
def dfaWireMagic : List UInt8 := [86, 68, 70, 65]

def dfaWireVersion : UInt32 := 2

def rejectIf (bad : Bool) (reason : String) : Except DfaWireError Unit :=
  if bad then .error (.shapeMismatch reason) else .ok ()

def enveloped {α : Type} (r : Except EnvelopeError α) : Except DfaWireError α :=
  r.mapError mapEnvelopeError

namespace CompiledDfa

variable (d : CompiledDfa)

def toBytes : Except DfaWireError (List UInt8) := do
  let transitions ← enveloped (writeWords d.transitions)
  let accept ← enveloped (writeWords d.accept)
  let outputOffsets ← enveloped (writeWords d.outputOffsets)
  let outputRecords ← enveloped (writeWords d.outputRecords)
  return dfaWireMagic ++ leBytes 4 dfaWireVersion.toNat ++ leBytes 4 d.stateCount.toNat ++
    leBytes 4 d.maxPatternLen.toNat ++ transitions ++ accept ++ outputOffsets ++ outputRecords

/-- The checks of `from_bytes` after the tables are read. -/
def checkShape : Except DfaWireError Unit := do
  rejectIf (d.transitions.length != d.stateCount.toNat * 256)
    "transitions length != state_count * 256"
  rejectIf (d.accept.length != d.stateCount.toNat) "accept length != state_count"
  rejectIf (d.outputOffsets.length != d.stateCount.toNat + 1)
    "output_offsets length != state_count + 1"
  rejectIf (d.outputOffsets.head? != some 0) "output_offsets must start at zero"
  rejectIf (d.outputOffsets.getLast? != some (UInt32.ofNat d.outputRecords.length))
    "output_offsets last entry must equal output_records length"
  rejectIf ((d.outputOffsets.zip d.outputOffsets.tail).any fun window => window.1 > window.2)
    "output_offsets must be monotonic"
  rejectIf (d.outputOffsets.any fun offset => offset.toNat > d.outputRecords.length)
    "output_offsets entries must be within output_records"
  rejectIf (d.maxPatternLen == 0 && (d.accept.any (· != 0) || !d.outputRecords.isEmpty))
    "max_pattern_len is zero for a non-empty accepting DFA"

def fromBytes (bytes : List UInt8) : Except DfaWireError CompiledDfa := do
  let r ← enveloped (WireReader.new bytes dfaWireMagic dfaWireVersion)
  let (stateCount, r) ← enveloped r.readU32
  let (maxPatternLen, r) ← enveloped r.readU32
  let (transitions, r) ← enveloped r.readWords
  let (accept, r) ← enveloped r.readWords
  let (outputOffsets, r) ← enveloped r.readWords
  let (outputRecords, _) ← enveloped r.readWords
  let d : CompiledDfa :=
    ⟨transitions, accept, stateCount, maxPatternLen, outputOffsets, outputRecords⟩
  d.checkShape
  return d

/-- `transitions[state * 256 + byte]`, when there is such an entry. -/
def step (state : Nat) (byte : UInt8) : Option Nat :=
  d.transitions[state * 256 + byte.toNat]?.map UInt32.toNat

def run (state : Nat) (text : List UInt8) : Option Nat := text.foldlM d.step state

/-- `output_records[output_offsets[s]..output_offsets[s + 1]]`, when the slice is
inside. -/
def outputs (state : Nat) : Option (List UInt32) := do
  let first ← d.outputOffsets[state]?
  let last ← d.outputOffsets[state + 1]?
  if first ≤ last ∧ last.toNat ≤ d.outputRecords.length then
    return (d.outputRecords.take last.toNat).drop first.toNat
  else none

/-- No text leaves the states or the output records. -/
def SafeToRun : Prop :=
  ∀ text, ∃ s, d.run 0 text = some s ∧ s < d.stateCount.toNat ∧ (d.outputs s).isSome = true

end CompiledDfa

def declaredStates : Nat := (wordAt bytes 8).toNat

/-- The entry of the transition table for a state and a byte: the table starts
after the header and its own count. -/
def declaredTarget (state : Nat) (byte : UInt8) : Nat :=
  (wordAt bytes (20 + (state * 256 + byte.toNat) * 4)).toNat

/-- Some set of declared states contains 0 and the targets of its states. -/
def TargetsDeclared : Prop :=
  ∃ S : Nat → Prop, S 0 ∧ ∀ s, S s → s < declaredStates bytes ∧ ∀ c, S (declaredTarget bytes s c)

/-! ## What the decoder guarantees -/

@[simp] theorem enveloped_eq_ok {α : Type} {r : Except EnvelopeError α} {a : α} :
    enveloped r = .ok a ↔ r = .ok a := by
  cases r with
  | error e | ok b => simp [enveloped, Except.mapError]

@[simp] theorem rejectIf_eq_ok {bad : Bool} {reason : String} {u : Unit} :
    rejectIf bad reason = .ok u ↔ bad = false := by
  cases bad with
  | true | false => simp [rejectIf]

variable {r : WireReader} {w : UInt32} {ws : List UInt32} {rest : List UInt8}

theorem WireReader.new_eq_ok {bytes magic : List UInt8} {version : UInt32}
    (h : WireReader.new bytes magic version = .ok r) : r = ⟨bytes, 8⟩ := by
  simp only [WireReader.new, error_ite_eq_ok] at h
  obtain ⟨-, -, -, hr⟩ := h
  cases hr
  rfl

theorem WireReader.readU32_eq_ok {r' : WireReader} (h : r.readU32 = .ok (w, r')) :
    w = wordAt r.src r.cursor ∧ r' = ⟨r.src, r.cursor + 4⟩ := by
  unfold WireReader.readU32 at h
  split at h
  · cases h
  · cases h
    exact ⟨rfl, rfl⟩

theorem WireReader.readWords_eq_ok {r' : WireReader} (h : r.readWords = .ok (ws, r')) :
    ∃ count, ws = (range count).map fun i => wordAt r.src (r.cursor + 4 + i * 4) := by
  obtain ⟨⟨count, r₁⟩, hcount, h⟩ := bind_eq_ok.mp h
  obtain ⟨-, rfl⟩ := WireReader.readU32_eq_ok hcount
  dsimp only at h
  split at h
  · cases h
  · cases h
    exact ⟨count.toNat, rfl⟩

namespace CompiledDfa

/-- What the checks of the decoder say about the tables. -/
structure Shaped (d : CompiledDfa) : Prop where
  transitions : d.transitions.length = d.stateCount.toNat * 256
  offsets : d.outputOffsets.length = d.stateCount.toNat + 1
  monotonic : ∀ window ∈ d.outputOffsets.zip d.outputOffsets.tail, window.1 ≤ window.2
  within : ∀ offset ∈ d.outputOffsets, offset.toNat ≤ d.outputRecords.length

variable {d : CompiledDfa}

theorem shaped_of_checkShape (h : d.checkShape = .ok ()) : d.Shaped := by
  simp only [checkShape, bind_eq_ok, rejectIf_eq_ok, bne_eq_false_iff_eq, any_eq_false,
    decide_eq_true_eq, UInt32.not_lt, Nat.not_lt] at h
  obtain ⟨_, htransitions, _, -, _, hoffsets, _, -, _, -, _, hmonotonic, _, hwithin, -⟩ := h
  exact ⟨htransitions, hoffsets, hmonotonic, hwithin⟩

variable {bytes : List UInt8}

theorem decoded_of_fromBytes (h : fromBytes bytes = .ok d) :
    d.stateCount = wordAt bytes 8 ∧
      (∃ count, d.transitions = (range count).map fun i => wordAt bytes (20 + i * 4)) ∧
      d.Shaped := by
  unfold fromBytes at h
  simp only [bind_eq_ok, enveloped_eq_ok, pure_eq_ok] at h
  obtain ⟨r, hr, ⟨states, r₁⟩, hstates, ⟨len, r₂⟩, hlen, ⟨transitions, r₃⟩,
    htransitions, _, -, _, -,
    _, -, _, hshape, rfl⟩ := h
  obtain rfl := WireReader.new_eq_ok hr
  obtain ⟨rfl, rfl⟩ := WireReader.readU32_eq_ok hstates
  obtain ⟨rfl, rfl⟩ := WireReader.readU32_eq_ok hlen
  exact ⟨rfl, WireReader.readWords_eq_ok htransitions, shaped_of_checkShape hshape⟩

theorem Shaped.outputs_isSome (h : d.Shaped) {s : Nat} (hs : s < d.stateCount.toNat) :
    (d.outputs s).isSome = true := by
  have hfirst : s < d.outputOffsets.length := by rw [h.offsets]; omega
  have hlast : s + 1 < d.outputOffsets.length := by rw [h.offsets]; omega
  have hwindow : (d.outputOffsets[s], d.outputOffsets[s + 1]) ∈
      d.outputOffsets.zip d.outputOffsets.tail := by
    have hlength : s < (d.outputOffsets.zip d.outputOffsets.tail).length := by
      simp only [length_zip, length_tail]
      omega
    have := getElem_mem hlength
    simpa using this
  have hle := h.monotonic _ hwindow
  have hin := h.within _ (getElem_mem hlast)
  simp [outputs, hfirst, hlast, hle, hin]

theorem step_declared (h : fromBytes bytes = .ok d) {s : Nat}
    (hs : s < declaredStates bytes) (c : UInt8) : d.step s c = some (declaredTarget bytes s c) := by
  obtain ⟨hstates, ⟨count, htransitions⟩, hshaped⟩ := decoded_of_fromBytes h
  have hcount : count = declaredStates bytes * 256 := by
    have := hshaped.transitions
    rw [htransitions, hstates] at this
    simpa [declaredStates] using this
  have hindex : s * 256 + c.toNat < count := by
    have := c.toNat_lt
    omega
  simp [step, htransitions, hindex, declaredTarget]

theorem run_cons (d : CompiledDfa) (s : Nat) (c : UInt8) (text : List UInt8) :
    d.run s (c :: text) = (d.step s c).bind fun s' => d.run s' text := rfl

theorem run_append_one (d : CompiledDfa) (s : Nat) (text : List UInt8) (c : UInt8) :
    d.run s (text ++ [c]) = (d.run s text).bind fun s' => d.step s' c := by
  simp only [run, foldlM_append]
  cases foldlM d.step s text with
  | none => rfl
  | some s' => simp

/-- A decoded automaton is safe to run exactly when its bytes name a set of
declared states that contains 0 and the targets of its states. -/
theorem fromBytes_safe_iff {d : CompiledDfa} (h : fromBytes bytes = .ok d) :
    d.SafeToRun ↔ TargetsDeclared bytes := by
  obtain ⟨hstates, -, hshaped⟩ := decoded_of_fromBytes h
  have hcount : d.stateCount.toNat = declaredStates bytes := by rw [hstates, declaredStates]
  constructor
  · -- The reached states are such a set.
    intro hsafe
    refine ⟨fun s => ∃ text, d.run 0 text = some s, ⟨[], rfl⟩, ?_⟩
    intro s hs
    obtain ⟨text, htext⟩ := hs
    obtain ⟨s', hs', hlt, -⟩ := hsafe text
    obtain rfl : s = s' := Option.some.inj (htext.symm.trans hs')
    rw [hcount] at hlt
    refine ⟨hlt, fun c => ⟨text ++ [c], ?_⟩⟩
    rw [run_append_one, htext, Option.bind_some, step_declared h hlt]
  · intro hclosed text
    obtain ⟨S, hzero, hS⟩ := hclosed
    -- Every state on the way is in the set.
    have hrun : ∀ text s, S s → ∃ s', d.run s text = some s' ∧ S s' := by
      intro text
      induction text with
      | nil => exact fun s hs => ⟨s, rfl, hs⟩
      | cons c text ih =>
        intro s hs
        obtain ⟨hlt, htarget⟩ := hS s hs
        rw [run_cons, step_declared h hlt]
        exact ih _ (htarget c)
    obtain ⟨s, hs, hmem⟩ := hrun text 0 hzero
    have hlt := (hS s hmem).1
    rw [← hcount] at hlt
    exact ⟨s, hs, hlt, hshaped.outputs_isSome hlt⟩

end CompiledDfa

/-! ## Decoding what was encoded -/

structure WireReader.Facing (r : WireReader) (rest : List UInt8) : Prop where
  inside : r.cursor ≤ r.src.length
  left : r.src.drop r.cursor = rest

theorem WireReader.Facing.length (h : r.Facing rest) : r.src.length = r.cursor + rest.length := by
  have hinside := h.inside
  rw [← h.left, length_drop]
  omega

theorem WireReader.Facing.skip {first : List UInt8} {k : Nat} (h : r.Facing (first ++ rest))
    (hk : first.length = k) : (⟨r.src, r.cursor + k⟩ : WireReader).Facing rest where
  inside := by
    have := h.length
    simp only [length_append] at this
    dsimp only
    omega
  left := by rw [← drop_drop, h.left, drop_left' hk]

theorem wordAt_of_facing (h : r.Facing (leBytes 4 w.toNat ++ rest)) :
    wordAt r.src r.cursor = w := by
  have htake : (leBytes 4 w.toNat ++ rest).take 4 = leBytes 4 w.toNat :=
    take_left' (leBytes_length 4 w.toNat)
  rw [wordAt, h.left, htake, ofLeBytes_leBytes w.toNat_lt, UInt32.ofNat_toNat]

theorem WireReader.Facing.readU32 (h : r.Facing (leBytes 4 w.toNat ++ rest)) :
    r.readU32 = .ok (w, ⟨r.src, r.cursor + 4⟩) := by
  have hlength := h.length
  rw [length_append, leBytes_length] at hlength
  rw [WireReader.readU32, if_neg (by omega), wordAt_of_facing h]

def wordsBytes (ws : List UInt32) : List UInt8 := ws.flatMap fun w => leBytes 4 w.toNat

theorem wordsBytes_length (ws : List UInt32) : (wordsBytes ws).length = ws.length * 4 := by
  induction ws with
  | nil => rfl
  | cons w ws ih =>
    rw [wordsBytes, flatMap_cons, length_append, leBytes_length, ← wordsBytes, ih,
      length_cons]
    omega

theorem words_of_facing (h : r.Facing (wordsBytes ws ++ rest)) :
    ((range ws.length).map fun i => wordAt r.src (r.cursor + i * 4)) = ws := by
  induction ws generalizing r with
  | nil => rfl
  | cons w ws ih =>
    rw [wordsBytes, flatMap_cons, append_assoc] at h
    have hwords := ih (h.skip (leBytes_length 4 _))
    have hshift : ∀ i, r.cursor + (i + 1) * 4 = r.cursor + 4 + i * 4 := fun i => by omega
    rw [length_cons, range_succ_eq_map, map_cons, map_map]
    simp only [Function.comp_def, hshift, hwords, Nat.zero_mul, Nat.add_zero,
      wordAt_of_facing h]

theorem WireReader.Facing.readWords {written : List UInt8} (hwritten : writeWords ws = .ok written)
    (h : r.Facing (written ++ rest)) : ∃ r', r.readWords = .ok (ws, r') ∧ r'.Facing rest := by
  unfold writeWords at hwritten
  by_cases hsize : ws.length < 2 ^ 32
  · rw [if_pos hsize] at hwritten
    cases hwritten
    have hcount : (UInt32.ofNat ws.length).toNat = ws.length := UInt32.toNat_ofNat_of_lt' hsize
    rw [append_assoc, ← hcount, ← wordsBytes] at h
    have hfacing := h.skip (leBytes_length 4 _)
    have hlength := hfacing.length
    simp only [length_append, wordsBytes_length] at hlength
    refine ⟨_, ?_, hfacing.skip (wordsBytes_length ws)⟩
    have hfits : ¬ r.src.length < r.cursor + 4 + ws.length * 4 := by omega
    simp only [WireReader.readWords, h.readU32, hcount, hfits, words_of_facing hfacing, bind,
      Except.bind]
    rfl
  · rw [if_neg hsize] at hwritten
    cases hwritten

theorem WireReader.new_of_header (magic payload : List UInt8) (version : UInt32)
    (hmagic : magic.length = 4) :
    ∃ r, WireReader.new (magic ++ (leBytes 4 version.toNat ++ payload)) magic version = .ok r ∧
      r.Facing payload := by
  have hstart : (⟨magic ++ (leBytes 4 version.toNat ++ payload), 0⟩ : WireReader).Facing
      (magic ++ (leBytes 4 version.toNat ++ payload)) := ⟨Nat.zero_le _, rfl⟩
  have hversion := hstart.skip hmagic
  have hpayload := hversion.skip (leBytes_length 4 _)
  have hlength : ¬ (magic ++ (leBytes 4 version.toNat ++ payload)).length < 8 := by
    simp only [length_append, leBytes_length]
    omega
  refine ⟨_, ?_, hpayload⟩
  rw [WireReader.new, if_neg hlength, if_neg (not_not.mpr (take_left' hmagic)),
    if_neg (not_not.mpr (wordAt_of_facing hversion))]

namespace CompiledDfa

/-- The decoder reads the tables that were written, and then checks them. -/
theorem fromBytes_toBytes {d : CompiledDfa} {bytes : List UInt8} (h : d.toBytes = .ok bytes) :
    fromBytes bytes = d.checkShape.map fun _ => d := by
  unfold toBytes at h
  simp only [bind_eq_ok, enveloped_eq_ok, pure_eq_ok] at h
  obtain ⟨transitions, htransitions, accept, haccept, offsets, hoffsets, records, hrecords, rfl⟩ :=
    h
  simp only [append_assoc]
  rw [← append_nil records]
  obtain ⟨r₀, hnew, h₀⟩ := WireReader.new_of_header dfaWireMagic
    (leBytes 4 d.stateCount.toNat ++ (leBytes 4 d.maxPatternLen.toNat ++
      (transitions ++ (accept ++ (offsets ++ (records ++ [])))))) dfaWireVersion rfl
  have h₁ := h₀.skip (leBytes_length 4 _)
  have h₂ := h₁.skip (leBytes_length 4 _)
  obtain ⟨r₃, hr₃, h₃⟩ := WireReader.Facing.readWords htransitions h₂
  obtain ⟨r₄, hr₄, h₄⟩ := WireReader.Facing.readWords haccept h₃
  obtain ⟨r₅, hr₅, h₅⟩ := WireReader.Facing.readWords hoffsets h₄
  obtain ⟨r₆, hr₆, -⟩ := WireReader.Facing.readWords hrecords h₅
  simp only [fromBytes, enveloped_eq_ok.mpr hnew, enveloped_eq_ok.mpr h₀.readU32,
    enveloped_eq_ok.mpr h₁.readU32, enveloped_eq_ok.mpr hr₃, enveloped_eq_ok.mpr hr₄,
    enveloped_eq_ok.mpr hr₅, enveloped_eq_ok.mpr hr₆, bind, Except.bind]
  cases d.checkShape with
  | error e | ok u => rfl

def oneState (target : UInt32) : CompiledDfa :=
  ⟨replicate 256 target, [0], 1, 0, [0, 0], []⟩

def blob (d : CompiledDfa) : List UInt8 := d.toBytes.toOption.getD []

theorem fromBytes_blob {d : CompiledDfa} (hshape : d.checkShape = .ok ())
    (h : d.toBytes.toOption.isSome = true) : fromBytes d.blob = .ok d := by
  cases hbytes : d.toBytes with
  | error e => simp [hbytes, Except.toOption] at h
  | ok bytes =>
    rw [blob, hbytes, Except.toOption, Option.getD_some, fromBytes_toBytes hbytes, hshape]
    rfl

theorem fromBytes_oneState (target : UInt32) :
    fromBytes (oneState target).blob = .ok (oneState target) :=
  fromBytes_blob rfl rfl

def noStates : CompiledDfa := ⟨[], [], 0, 0, [0], []⟩

/-- The search for the one-byte pattern `c`: state 1, with the only output record, is
where the last byte was `c`. -/
def byteSearch (c : UInt8) : CompiledDfa where
  transitions := (range 512).map fun i => if i % 256 = c.toNat then 1 else 0
  accept := [0, 1]
  stateCount := 2
  maxPatternLen := 1
  outputOffsets := [0, 0, 1]
  outputRecords := [0]

theorem step_byteSearch {c : UInt8} {s : Nat} (hs : s < 2) (b : UInt8) :
    (byteSearch c).step s b = some (if b = c then 1 else 0) := by
  have hb := b.toNat_lt
  have hindex : s * 256 + b.toNat < 512 := by omega
  have hbyte : (s * 256 + b.toNat) % 256 = b.toNat := by omega
  simp only [step, byteSearch, getElem?_map, getElem?_range hindex, Option.map_some, hbyte,
    UInt8.toNat_inj]
  split <;> rfl

theorem run_byteSearch (c : UInt8) {s : Nat} (hs : s < 2) (text : List UInt8) :
    ∃ s' < 2, (byteSearch c).run s text = some s' := by
  induction text generalizing s with
  | nil => exact ⟨s, hs, rfl⟩
  | cons b text ih =>
    rw [run_cons, step_byteSearch hs]
    exact ih (by split <;> decide)

theorem fromBytes_safe_byteSearch :
    fromBytes (byteSearch 97).blob = .ok (byteSearch 97) ∧
      (byteSearch 97).outputs 1 = some [0] ∧ TargetsDeclared (byteSearch 97).blob := by
  have hread : fromBytes (byteSearch 97).blob = .ok (byteSearch 97) :=
    fromBytes_blob (by decide +kernel) (by decide +kernel)
  refine ⟨hread, rfl, (fromBytes_safe_iff hread).mp fun text => ?_⟩
  obtain ⟨s, hs, hrun⟩ := run_byteSearch 97 (s := 0) (by decide) text
  exact ⟨s, hrun, hs, (decoded_of_fromBytes hread).2.2.outputs_isSome hs⟩

/-- The decoder accepts an automaton whose only state goes to state 7, and an
automaton without states. -/
theorem fromBytes_accepts_unsafe :
    (fromBytes (oneState 7).blob = .ok (oneState 7) ∧ (oneState 7).run 0 [0] = some 7 ∧
      ¬ (oneState 7).SafeToRun) ∧
    fromBytes noStates.blob = .ok noStates ∧ ¬ noStates.SafeToRun := by
  have hseven : (oneState 7).run 0 [0] = some 7 := by decide
  refine ⟨⟨fromBytes_oneState 7, hseven, ?_⟩, fromBytes_blob (by decide) (by decide), ?_⟩
  · intro hsafe
    obtain ⟨s, hs, hlt, -⟩ := hsafe [0]
    obtain rfl : 7 = s := Option.some.inj (hseven.symm.trans hs)
    exact absurd hlt (by decide)
  · intro hsafe
    obtain ⟨s, -, hlt, -⟩ := hsafe []
    exact absurd hlt (Nat.not_lt_zero s)

end CompiledDfa

end Vyre.Matching
