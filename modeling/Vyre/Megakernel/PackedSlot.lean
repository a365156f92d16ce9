import Vyre.Megakernel.Handlers
import Vyre.Megakernel.Packing

/-!
# Taking a packed slot apart

The device reads the operations of a packed slot and dispatches them one after
another (`packed_slot_body`, `handlers.rs`). Host and device agree on the
layout but not on its limits: the module computes what the device dispatches
from the words of a slot, and characterizes the operation lists that arrive as
they were published.
-/

namespace Vyre.Megakernel

open ByteCodec Reference List Thread

def packedPayloadByte (byteOffset : Expr) : Expr :=
  let wordOffset := Expr.div byteOffset (.u32 4)
  let bitShift := Expr.mul (.rem byteOffset (.u32 4)) (.u32 8)
  let word := Expr.load "ring_buffer" (.add (.add (.var "slot_base") (.u32 4)) wordOffset)
  .bitand (.shr word bitShift) (.u32 0xFF)

def packedArg (offset : Expr) : Expr :=
  .load "ring_buffer" (.add (.add (.var "slot_base") (.u32 4)) offset)

/-- The loop body of `packed_slot_body`. -/
def packedInnerBody (dispatch : List Node) : List Node :=
  [.letBind "packed_pair_byte" (.add (.u32 2) (.mul (.var "packed_inner_index") (.u32 2))),
   .letBind "packed_opcode" (packedPayloadByte (.var "packed_pair_byte")),
   .letBind "packed_arg_offset" (packedPayloadByte (.add (.var "packed_pair_byte") (.u32 1))),
   .letBind "packed_arg_base" (.add (.var "packed_metadata_words") (.var "packed_arg_offset")),
   .assign "opcode" (.var "packed_opcode"),
   .assign "arg0" (packedArg (.var "packed_arg_base")),
   .assign "arg1" (packedArg (.add (.var "packed_arg_base") (.u32 1))),
   .assign "arg2" (packedArg (.add (.var "packed_arg_base") (.u32 2))),
   .ifThen (.le (.add (.var "packed_arg_base") (.u32 3)) (.u32 12)) [.block dispatch] []]

/-- `packed_slot_body`, with the block of `dispatch_opcode_body` given. -/
def packedSlotBody (dispatch : List Node) : List Node :=
  [.letBind "packed_raw_opcode_count" (packedPayloadByte (.u32 0)),
   -- `ARGS_PER_SLOT / 3` is 4.
   .letBind "packed_opcode_count"
     (.select (.gt (.var "packed_raw_opcode_count") (.u32 4)) (.u32 4)
        (.var "packed_raw_opcode_count")),
   .letBind "packed_metadata_bytes" (.add (.u32 2) (.mul (.var "packed_opcode_count") (.u32 2))),
   .letBind "packed_metadata_words" (.div (.add (.var "packed_metadata_bytes") (.u32 3)) (.u32 4)),
   .loop "packed_inner_index" (.u32 0) (.var "packed_opcode_count")
     [.block (packedInnerBody dispatch)]]

/-! ## What the device reads -/

def slotArgs (ws : List UInt32) (slot : Nat) : List UInt32 :=
  (ws.drop (slotWords * slot + arg0Word)).take argsPerSlot

theorem getD_slotArgs (ws : List UInt32) (slot : Nat) {k : Nat} (h : k < argsPerSlot) :
    (slotArgs ws slot).getD k 0 = ws.getD (slotWords * slot + arg0Word + k) 0 := by
  simp [slotArgs, h]

/-- What an inner operation is dispatched with. -/
structure Delivery where
  opcode : UInt32
  arg0 : UInt32
  arg1 : UInt32
  arg2 : UInt32
  deriving DecidableEq

def Delivery.In (d : Delivery) (t : Thread) : Prop :=
  t.vals "opcode" = some (.u32 d.opcode) ∧ t.vals "arg0" = some (.u32 d.arg0) ∧
    t.vals "arg1" = some (.u32 d.arg1) ∧ t.vals "arg2" = some (.u32 d.arg2)

/-- The dispatch block is run once for each delivery, in order, each time in an
environment that holds it; the memory after the last run is the result. An
error ends the runs. -/
inductive Dispatches (host : Host) (dispatch : List Node) :
    List Delivery → Memory → Except Error Memory → Prop where
  | done (m : Memory) : Dispatches host dispatch [] m (.ok m)
  | failed {d : Delivery} (ds : List Delivery) {t : Thread} {m : Memory} {e : Error} (hd : d.In t)
      (hrun : runNode host (.block dispatch) t m = .error e) :
      Dispatches host dispatch (d :: ds) m (.error e)
  | next {d : Delivery} {ds : List Delivery} {t t' : Thread} {m m' : Memory}
      {r : Except Error Memory}
      (hd : d.In t) (hrun : runNode host (.block dispatch) t m = .ok (.next t', m'))
      (hrest : Dispatches host dispatch ds m' r) : Dispatches host dispatch (d :: ds) m r

def packedNames : List Ident :=
  ["packed_raw_opcode_count", "packed_opcode_count", "packed_metadata_bytes",
    "packed_metadata_words", "packed_inner_index", "packed_pair_byte", "packed_opcode",
    "packed_arg_offset", "packed_arg_base"]

/-- The environment `claimed_slot_bindings` makes for the slot at `base`. -/
structure OnSlot (t : Thread) (base : UInt32) : Prop where
  base : t.vals "slot_base" = some (.u32 base)
  bound : ∀ name ∈ ["opcode", "arg0", "arg1", "arg2"],
    (t.vals name).isSome = true ∧ t.fixed name = false
  free : ∀ name ∈ packedNames, t.vals name = none

def deliveryAt (payload : List UInt32) (words i : Nat) : Option Delivery :=
  let base := words + (byteAt payload (2 + i * 2 + 1)).toNat
  if base + 3 ≤ argsPerSlot then
    some ⟨byteAt payload (2 + i * 2), payload.getD base 0, payload.getD (base + 1) 0,
      payload.getD (base + 2) 0⟩
  else none

/-- The operations the device looks at. -/
def unpackedCount (payload : List UInt32) : Nat := min (byteAt payload 0).toNat 4

def deliveries (payload : List UInt32) : List Delivery :=
  (range (unpackedCount payload)).filterMap
    (deliveryAt payload (metadataWords (unpackedCount payload)))

theorem byteAt_lt (ws : List UInt32) (b : Nat) : (byteAt ws b).toNat < 256 := by
  have hand : (byteAt ws b).toNat =
      (ws.getD (b / 4) 0 >>> UInt32.ofNat (b % 4 * 8)).toNat &&& (2 ^ 8 - 1) := rfl
  rw [hand, Nat.and_two_pow_sub_one_eq_mod]
  exact Nat.mod_lt _ (by decide)

section Device

variable {host : Host} {dispatch : List Node} {ws : List UInt32} {slot : Nat} {base : UInt32}
  {t : Thread} {m : Memory}

def argAt (ws : List UInt32) (base k : UInt32) : UInt32 := ws.getD (base + 4 + k).toNat 0

theorem gives_packedArg (base : UInt32) (hbase : t.vals "slot_base" = some (.u32 base))
    (hring : m.find "ring_buffer" = some (.ofWords ws)) {e : Expr} {k : UInt32}
    (he : Gives host t.lane m e (.u32 k)) :
    Gives host t.lane m (packedArg e) (.u32 (argAt ws base k)) :=
  .load (.add (.add (.var hbase) (.u32 4)) he) hring

structure Unpacking (t : Thread) (base words : UInt32) : Prop where
  base : t.vals "slot_base" = some (.u32 base)
  words : t.vals "packed_metadata_words" = some (.u32 words)
  bound : ∀ name ∈ ["opcode", "arg0", "arg1", "arg2"],
    (t.vals name).isSome = true ∧ t.fixed name = false
  free : ∀ name ∈ ["packed_inner_index", "packed_pair_byte", "packed_opcode", "packed_arg_offset",
    "packed_arg_base"], t.vals name = none

theorem le_args_iff {words off : UInt32} (hwords : words.toNat ≤ argsPerSlot)
    (hoff : off.toNat < 256) :
    words + off + 3 ≤ 12 ↔ words.toNat + off.toNat + 3 ≤ argsPerSlot := by
  rw [UInt32.le_iff_toNat_le]
  simp only [UInt32.toNat_add, UInt32.reduceToNat]
  unfold argsPerSlot at *
  omega

theorem Unpacking.leave {t' : Thread} {words : UInt32} (h : Unpacking t base words)
    (hkept : Kept IsSlotName t t') : Unpacking (t.leave t') base words where
  base := by rw [leave_vals, hkept.same _ (.inl rfl) (by rw [h.base]; rfl), h.base]; rfl
  words := by rw [leave_vals, hkept.same _ (.inr rfl) (by rw [h.words]; rfl), h.words]; rfl
  bound := by
    intro name hname
    obtain ⟨hsome, hfixed⟩ := h.bound name hname
    rw [leave_vals, if_pos hsome]
    exact ⟨hkept.bound name hsome, hfixed⟩
  free := by
    intro name hname
    rw [leave_vals, h.free name hname]
    rfl

def innerRound (host : Host) (dispatch : List Node) (i : UInt32) (t : Thread) :
    Eval (Outcome Thread) :=
  runNodes host [.block (packedInnerBody dispatch)]
    ((t.set "packed_inner_index" (.u32 i)).fix "packed_inner_index")

variable (haddr : base.toNat = slotWords * slot) (hroom : slotWords * slot + slotWords ≤ 2 ^ 32)

include haddr hroom

/-- `packed_payload_byte` reads a byte of the argument words. -/
theorem gives_payloadByte (hbase : t.vals "slot_base" = some (.u32 base))
    (hring : m.find "ring_buffer" = some (.ofWords ws)) {e : Expr} {b : UInt32}
    (he : Gives host t.lane m e (.u32 b)) (hb : b.toNat < 48) :
    Gives host t.lane m (packedPayloadByte e) (.u32 (byteAt (slotArgs ws slot) b.toNat)) := by
  have hword : (base + 4 + b / 4).toNat = slotWords * slot + arg0Word + b.toNat / 4 := by
    simp only [UInt32.toNat_add, UInt32.toNat_div, UInt32.reduceToNat]
    unfold slotWords arg0Word at *
    omega
  have hshift : b % 4 * 8 &&& 31 = UInt32.ofNat (b.toNat % 4 * 8) := by
    apply UInt32.toNat_inj.mp
    rw [toNat_and_31, UInt32.toNat_ofNat_of_lt' (by simp only [UInt32.size]; omega)]
    simp only [UInt32.toNat_mul, UInt32.toNat_mod, UInt32.reduceToNat]
    omega
  have hgives : Gives host t.lane m (packedPayloadByte e)
      (.u32 (ws.getD (base + 4 + b / 4).toNat 0 >>> (b % 4 * 8 &&& 31) &&& 0xFF)) :=
    .bitand (.shr (.load (.add (.add (.var hbase) (.u32 4)) (.div he (.u32 4) (by decide))) hring)
      (.mul (.rem he (.u32 4) (by decide)) (.u32 8))) (.u32 0xFF)
  rw [hword, hshift] at hgives
  rw [byteAt, getD_slotArgs ws slot (by unfold argsPerSlot; omega)]
  exact hgives

theorem argAt_eq {k : UInt32} (hk : k.toNat < argsPerSlot) :
    argAt ws base k = (slotArgs ws slot).getD k.toNat 0 := by
  have hword : (base + 4 + k).toNat = slotWords * slot + arg0Word + k.toNat := by
    simp only [UInt32.toNat_add, UInt32.reduceToNat]
    unfold slotWords arg0Word argsPerSlot at *
    omega
  rw [getD_slotArgs ws slot hk, argAt, hword]

theorem runNodes_inner (hring : m.find "ring_buffer" = some (.ofWords ws)) {words i : UInt32}
    (h : Unpacking t base words) (hwords : words.toNat ≤ argsPerSlot) (hi : i.toNat < 4) :
    ∃ s k d, runNodes host (packedInnerBody dispatch)
          ((t.set "packed_inner_index" (.u32 i)).fix "packed_inner_index") m =
        runNodes host [.ifThen (.le (.add (.var "packed_arg_base") (.u32 3)) (.u32 12))
          [.block dispatch] []] s m ∧
      Gives host s.lane m (.le (.add (.var "packed_arg_base") (.u32 3)) (.u32 12)) (.bool k) ∧
      (k = true → d.In s) ∧ deliveryAt (slotArgs ws slot) words.toNat i.toNat =
        (if k then some d else none) ∧
      Kept IsSlotName t s := by
  have hpair : (2 + i * 2).toNat = 2 + i.toNat * 2 := by
    simp only [UInt32.toNat_add, UInt32.toNat_mul, UInt32.reduceToNat]
    omega
  have hpair' : (2 + i * 2 + 1).toNat = 2 + i.toNat * 2 + 1 := by
    rw [UInt32.toNat_add]
    simp only [UInt32.reduceToNat]
    omega
  have hfree := h.free
  have hbound := h.bound
  simp only [mem_cons, not_mem_nil, or_false, forall_eq_or_imp, forall_eq] at hfree hbound
  obtain ⟨hindex, hpairb, hop, hoff, hbaseb⟩ := hfree
  obtain ⟨⟨hopcode, hopcodef⟩, ⟨harg0, harg0f⟩, ⟨harg1, harg1f⟩, ⟨harg2, harg2f⟩⟩ := hbound
  set opcode := byteAt (slotArgs ws slot) (2 + i.toNat * 2) with hopcodeEq
  set off := byteAt (slotArgs ws slot) (2 + i.toNat * 2 + 1) with hoffEq
  have hofflt : off.toNat < 256 := byteAt_lt _ _
  refine ⟨((((((((((t.set "packed_inner_index" (.u32 i)).fix "packed_inner_index").set
    "packed_pair_byte" (.u32 (2 + i * 2))).set "packed_opcode" (.u32 opcode)).set
    "packed_arg_offset" (.u32 off)).set "packed_arg_base" (.u32 (words + off))).set
    "opcode" (.u32 opcode)).set "arg0" (.u32 (argAt ws base (words + off)))).set
    "arg1" (.u32 (argAt ws base (words + off + 1)))).set
    "arg2" (.u32 (argAt ws base (words + off + 2)))), decide (words + off + 3 ≤ 12),
    ⟨opcode, (slotArgs ws slot).getD (words.toNat + off.toNat) 0,
      (slotArgs ws slot).getD (words.toNat + off.toNat + 1) 0,
      (slotArgs ws slot).getD (words.toNat + off.toNat + 2) 0⟩, ?_, ?_, ?_, ?_, ?_⟩
  · unfold packedInnerBody
    rw [runNodes_letBind (.add (.u32 2) (.mul (.var (v := .u32 i) (by simp)) (.u32 2)))
      (by simp [hpairb]),
      runNodes_letBind (gives_payloadByte haddr hroom (by simp [h.base]) hring
        (.var (v := .u32 (2 + i * 2)) (by simp)) (by omega)) (by simp [hop]),
      runNodes_letBind (gives_payloadByte haddr hroom (by simp [h.base]) hring
        (.add (.var (v := .u32 (2 + i * 2)) (by simp)) (.u32 1)) (by omega)) (by simp [hoff]),
      hpair, hpair', ← hopcodeEq, ← hoffEq,
      runNodes_letBind
        (.add (.var (v := .u32 words) (by simp [h.words])) (.var (v := .u32 off) (by simp)))
        (by simp [hbaseb]),
      runNodes_assign (.var (v := .u32 opcode) (by simp)) (by simp [hopcode]) (by simp [hopcodef]),
      runNodes_assign
        (gives_packedArg base (by simp [h.base]) hring (.var (v := .u32 (words + off)) (by simp)))
        (by simp [harg0]) (by simp [harg0f]),
      runNodes_assign (gives_packedArg base (by simp [h.base]) hring
        (.add (.var (v := .u32 (words + off)) (by simp)) (.u32 1))) (by simp [harg1])
          (by simp [harg1f]),
      runNodes_assign (gives_packedArg base (by simp [h.base]) hring
        (.add (.var (v := .u32 (words + off)) (by simp)) (.u32 2))) (by simp [harg2])
          (by simp [harg2f])]
  · exact .le (.add (.var (v := .u32 (words + off)) (by simp)) (.u32 3)) (.u32 12)
  · intro hk
    have hle := (le_args_iff hwords hofflt).mp (of_decide_eq_true hk)
    have hsum : ∀ k : UInt32, k.toNat < 3 →
        (words + off + k).toNat = words.toNat + off.toNat + k.toNat := by
      intro k hk
      simp only [UInt32.toNat_add]
      unfold argsPerSlot at hle
      omega
    have hat : ∀ k : UInt32, k.toNat < 3 → argAt ws base (words + off + k) =
        (slotArgs ws slot).getD (words.toNat + off.toNat + k.toNat) 0 := by
      intro k hk
      rw [argAt_eq haddr hroom (by rw [hsum k hk]; omega), hsum k hk]
    have hat₀ := hat 0 (by decide)
    rw [UInt32.add_zero] at hat₀
    refine ⟨?_, ?_, ?_, ?_⟩
    · simp
    · simp [hat₀]
    · simp [hat 1 (by decide)]
    · simp [hat 2 (by decide)]
  · simp only [deliveryAt, ← hoffEq, ← hopcodeEq, decide_eq_true_eq, le_args_iff hwords hofflt]
  · refine ⟨by simp only [Thread.set_ids, Thread.fix_ids], by simp only [Thread.set, Thread.fix],
      fun name hname => ?_, ?_⟩
    · simp only [set_vals, fix_vals]
      split_ifs <;> first | rfl | exact hname
    · rintro name (rfl | rfl) - <;> simp

variable (hkeep : KeepsSlot host dispatch)

include hkeep

theorem round_cases
    (hring : m.find "ring_buffer" = some (.ofWords ws)) {words i : UInt32}
    (h : Unpacking t base words) (hwords : words.toNat ≤ argsPerSlot) (hi : i.toNat < 4) :
    (deliveryAt (slotArgs ws slot) words.toNat i.toNat = none ∧
      ∃ t', innerRound host dispatch i t m = .ok (.next t', m) ∧
        Unpacking (t.leave t') base words) ∨
    ∃ d s, deliveryAt (slotArgs ws slot) words.toNat i.toNat = some d ∧ d.In s ∧
      ((∃ e, runNode host (.block dispatch) s m = .error e ∧
          innerRound host dispatch i t m = .error e) ∨
        ∃ s' m' t', runNode host (.block dispatch) s m = .ok (.next s', m') ∧
          innerRound host dispatch i t m = .ok (.next t', m') ∧
          Unpacking (t.leave t') base words ∧ m'.find "ring_buffer" = some (.ofWords ws)) := by
  obtain ⟨s, k, d, hinner, hcond, hin, hdelivery, hkept⟩ :=
    runNodes_inner haddr hroom hring h hwords hi
  set t₁ := (t.set "packed_inner_index" (.u32 i)).fix "packed_inner_index" with ht₁
  have hleave : ∀ {s'}, Kept IsSlotName t s' → Unpacking (t.leave (t₁.leave s')) base words :=
    fun hs' => h.leave (hs'.leave (bound_entered _ _))
  have hrun : innerRound host dispatch i t m =
      (fun p => (Outcome.map t₁.leave p.1, p.2)) <$> (fun p => (Outcome.map s.leave p.1, p.2)) <$>
        runNodes host (if k then [.block dispatch] else []) s m := by
    rw [innerRound, runNodes_single]
    show (fun p => (Outcome.map t₁.leave p.1, p.2)) <$>
      runNodes host (packedInnerBody dispatch) t₁ m = _
    rw [hinner, runNodes_single, runNode_ifThen hcond]
    rfl
  cases k with
  | false =>
    left
    refine ⟨hdelivery, t₁.leave (s.leave s), hrun, ?_⟩
    rw [leave_self]
    exact hleave hkept
  | true =>
    right
    rw [if_pos rfl, runNodes_single (.block dispatch)] at hrun
    refine ⟨d, s, hdelivery, hin rfl, ?_⟩
    cases hblock : runNode host (.block dispatch) s m with
    | error e =>
      left
      rw [hblock] at hrun
      exact ⟨e, rfl, hrun⟩
    | ok r =>
      right
      obtain ⟨out, m'⟩ := r
      obtain ⟨s', rfl, hs', hring'⟩ := hkeep.steady s m out m' hblock
      rw [hblock] at hrun
      refine ⟨s', m', t₁.leave (s.leave s'), rfl, hrun, ?_, hring'.trans hring⟩
      exact hleave (hkept.trans (hs'.leave fun _ => id))

theorem dispatches_loop {words : UInt32} (hwords : words.toNat ≤ argsPerSlot)
    (left : Nat) (i : UInt32) (hi : i.toNat + left ≤ 4) (h : Unpacking t base words)
    (hring : m.find "ring_buffer" = some (.ofWords ws)) :
    Dispatches host dispatch
      ((range' i.toNat left).filterMap (deliveryAt (slotArgs ws slot) words.toNat)) m
      ((runLoop (runNodes host [.block (packedInnerBody dispatch)])
        "packed_inner_index" left i t m).map
        Prod.snd) := by
  induction left generalizing i t m with
  | zero => exact .done m
  | succ left ih =>
    have hnext : (i + 1).toNat = i.toNat + 1 := by
      rw [UInt32.toNat_add]
      simp only [UInt32.reduceToNat]
      omega
    have hfree : t.vals "packed_inner_index" = none := h.free _ (by simp)
    rw [runLoop_succ hfree, range'_succ]
    change Dispatches host dispatch _ m (Except.map Prod.snd (innerRound host dispatch i t m >>= _))
    obtain ⟨hnone, t', hrun, hafter⟩ | ⟨d, s, hsome, hin, hcases⟩ :=
      round_cases haddr hroom hkeep hring h hwords (show i.toNat < 4 by omega)
    · rw [filterMap_cons_none hnone, hrun, ← hnext]
      exact ih (i + 1) (by omega) hafter hring
    · rw [filterMap_cons_some hsome]
      obtain ⟨e, hblock, hrun⟩ | ⟨s', m', t', hblock, hrun, hafter, hring'⟩ := hcases
      · rw [hrun]
        exact .failed _ hin hblock
      · rw [hrun, ← hnext]
        exact .next hin hblock (ih (i + 1) (by omega) hafter hring')

/-- `packed_slot_body` dispatches what `deliveries` computes from the words of
the slot. -/
theorem dispatches_packedSlotBody (h : OnSlot t base)
    (hring : m.find "ring_buffer" = some (.ofWords ws)) :
    Dispatches host dispatch (deliveries (slotArgs ws slot)) m
      ((runNodes host (packedSlotBody dispatch) t m).map Prod.snd) := by
  have hfree := h.free
  simp only [packedNames, mem_cons, forall_eq_or_imp] at hfree
  obtain ⟨hraw, hcount, hbytes, hwords, hindex, hpair, hop, hoff, hargs⟩ := hfree
  set raw := byteAt (slotArgs ws slot) 0 with hrawEq
  have hle : unpackedCount (slotArgs ws slot) ≤ 4 := Nat.min_le_right _ _
  set count := UInt32.ofNat (unpackedCount (slotArgs ws slot)) with hcountEq
  have hcountNat : count.toNat = unpackedCount (slotArgs ws slot) :=
    UInt32.toNat_ofNat_of_lt' (by simp only [UInt32.size]; omega)
  have hselect : (if decide (4 < raw) = true then Value.u32 4 else Value.u32 raw) = .u32 count := by
    by_cases hbig : 4 < raw
    · have hlt : 4 < raw.toNat := UInt32.lt_iff_toNat_lt.mp hbig
      have hfour : unpackedCount (slotArgs ws slot) = 4 := Nat.min_eq_right hlt.le
      rw [if_pos (decide_eq_true hbig), hcountEq, hfour]
      rfl
    · have hlt : raw.toNat ≤ 4 := Nat.not_lt.mp fun hlt => hbig (UInt32.lt_iff_toNat_lt.mpr hlt)
      have hself : unpackedCount (slotArgs ws slot) = raw.toNat := Nat.min_eq_left hlt
      rw [if_neg (by simpa using hbig), hcountEq, hself, UInt32.ofNat_toNat]
  set words := (2 + count * 2 + 3) / 4 with hwordsEq
  have hwordsNat : words.toNat = metadataWords (unpackedCount (slotArgs ws slot)) := by
    simp only [hwordsEq, UInt32.toNat_div, UInt32.toNat_add, UInt32.toNat_mul, UInt32.reduceToNat]
    unfold metadataWords
    omega
  have hwordsLe : words.toNat ≤ argsPerSlot := by
    rw [hwordsNat]
    unfold metadataWords argsPerSlot
    omega
  have hgives : Gives host (t.set "packed_raw_opcode_count" (.u32 raw)).lane m
      (.select (.gt (.var "packed_raw_opcode_count") (.u32 4)) (.u32 4)
        (.var "packed_raw_opcode_count"))
      (.u32 count) := by
    rw [← hselect]
    exact .select (.gt (.var (v := .u32 raw) (by simp)) (.u32 4)) (.u32 4) (.var (by simp))
  unfold packedSlotBody
  rw [runNodes_letBind (gives_payloadByte haddr hroom h.base hring (.u32 0) (by decide)) hraw]
  show Dispatches host dispatch _ m (Except.map Prod.snd
    (runNodes host _ (t.set "packed_raw_opcode_count" (.u32 raw)) m))
  rw [runNodes_letBind hgives (by simp [hcount]),
    runNodes_letBind (.add (.u32 2) (.mul (.var (v := .u32 count) (by simp)) (.u32 2)))
      (by simp [hbytes]),
    runNodes_letBind
      (.div (.add (.var (v := .u32 (2 + count * 2)) (by simp)) (.u32 3)) (.u32 4) (by decide))
      (by simp [hwords]),
    runNodes_single, runNode_loop (.u32 0) (.var (v := .u32 count) (by simp)),
      ← hwordsEq, hcountNat]
  have hloop : Unpacking ((((t.set "packed_raw_opcode_count" (.u32 raw)).set
      "packed_opcode_count" (.u32 count)).set "packed_metadata_bytes" (.u32 (2 + count * 2))).set
      "packed_metadata_words" (.u32 words)) base words := by
    refine ⟨by simp [h.base], by simp, ?_, ?_⟩
    · intro name hname
      have hbound := h.bound name hname
      simp only [mem_cons, not_mem_nil, or_false] at hname
      obtain rfl | rfl | rfl | rfl := hname <;> simpa using hbound
    · simp [hindex, hpair, hop, hoff, hargs]
  have hdispatch := dispatches_loop haddr hroom hkeep hwordsLe
    (unpackedCount (slotArgs ws slot)) 0 (by simpa using hle) hloop hring
  rw [hwordsNat] at hdispatch
  rw [deliveries, range_eq_range']
  exact hdispatch

end Device

/-- The delivery is the operation with its own arguments, as many of the three
as it has. -/
def Carries (d : Delivery) (op : PackedOp) : Prop :=
  d.opcode = op.1.toUInt32 ∧ (∀ a, op.2[0]? = some a → d.arg0 = a) ∧
    (∀ a, op.2[1]? = some a → d.arg1 = a) ∧ ∀ a, op.2[2]? = some a → d.arg2 = a

/-- At most four operations, and the three words from the first argument of
each are inside the slot. -/
def FitsDevice (ops : List PackedOp) : Prop :=
  ops.length ≤ 4 ∧ ∀ i, i < ops.length →
    metadataWords ops.length + argOffset ops i + 3 ≤ argsPerSlot

instance (ops : List PackedOp) : Decidable (FitsDevice ops) := by
  unfold FitsDevice
  infer_instance

theorem getD_allArgs {ops : List PackedOp} {i k : Nat} (hi : i < ops.length) {a : UInt32}
    (ha : ops[i].2[k]? = some a) :
    argOffset ops i + k < (allArgs ops).length ∧
      (allArgs ops).getD (argOffset ops i + k) 0 = a := by
  have hk : k < ops[i].2.length := (List.getElem?_eq_some_iff.mp ha).1
  have hsplit : allArgs ops = allArgs (ops.take i) ++ (ops[i].2 ++ allArgs (ops.drop (i + 1))) := by
    conv_lhs => rw [← take_append_drop i ops, drop_eq_getElem_cons hi, allArgs, flatMap_append]
    rfl
  rw [hsplit, ← length_allArgs_take]
  simp [getElem?_append_right, getElem?_append_left hk, ha]
  omega

theorem argOffset_le (ops : List PackedOp) (i : Nat) : argOffset ops i ≤ (allArgs ops).length := by
  conv_rhs => rw [← take_append_drop i ops, allArgs, flatMap_append, length_append]
  exact (length_allArgs_take ops i).ge.trans (Nat.le_add_right _ _)

section Layout

variable {ops : List PackedOp} {payload : List UInt32}

variable (h : Layout ops payload)

include h

theorem Layout.length_le : ops.length ≤ 23 := by
  have hlength := h.length
  have hfits := h.fits
  unfold metadataWords argsPerSlot at *
  omega

theorem Layout.unpackedCount_eq : unpackedCount payload = min ops.length 4 := by
  have hle := h.length_le
  rw [unpackedCount, h.count, UInt32.toNat_ofNat_of_lt' (by simp only [UInt32.size]; omega)]

theorem Layout.toNat_offset {i : Nat} (hi : i < ops.length) :
    (byteAt payload (2 + i * 2 + 1)).toNat = argOffset ops i := by
  have hoff := argOffset_le ops i
  have hlength := h.length
  have hfits := h.fits
  rw [h.offset i hi,
    UInt32.toNat_ofNat_of_lt' (by simp only [UInt32.size]; unfold argsPerSlot at hfits; omega)]

theorem Layout.carries {i : Nat} (hi : i < ops.length)
    (hin : metadataWords ops.length + argOffset ops i + 3 ≤ argsPerSlot) :
    ∃ d, deliveryAt payload (metadataWords ops.length) i = some d ∧ Carries d ops[i] := by
  have harg : ∀ k a, ops[i].2[k]? = some a →
      payload.getD (metadataWords ops.length + argOffset ops i + k) 0 = a := by
    intro k a ha
    obtain ⟨hlt, hget⟩ := getD_allArgs hi ha
    rw [Nat.add_assoc, h.arg _ hlt, hget]
  refine ⟨_, by rw [deliveryAt, h.toNat_offset hi, if_pos hin], h.opcode i hi, ?_, ?_, ?_⟩
  · exact fun a ha => harg 0 a ha
  · exact fun a ha => harg 1 a ha
  · exact fun a ha => harg 2 a ha

theorem Layout.deliveries_carry (hfits : FitsDevice ops) :
    List.Forall₂ Carries (deliveries payload) ops := by
  have hcount : unpackedCount payload = ops.length := by
    rw [h.unpackedCount_eq, Nat.min_eq_left hfits.1]
  have hall : ∀ k ≤ ops.length, List.Forall₂ Carries
      ((range k).filterMap (deliveryAt payload (metadataWords ops.length))) (ops.take k) := by
    intro k hk
    induction k with
    | zero => simp
    | succ k ih =>
      obtain ⟨d, hd, hcarries⟩ := h.carries (by omega) (hfits.2 k (by omega))
      rw [range_succ, filterMap_append, take_succ_eq_append_getElem (by omega)]
      refine rel_append (ih (by omega)) ?_
      simp [hd, hcarries]
  have hlast := hall ops.length le_rfl
  rw [take_length] at hlast
  rw [deliveries, hcount]
  exact hlast

theorem Layout.fitsDevice (hlength : (deliveries payload).length = ops.length) :
    FitsDevice ops := by
  have hcount := h.unpackedCount_eq
  have hle : (deliveries payload).length ≤ unpackedCount payload :=
    (length_filterMap_le _ _).trans_eq length_range
  have hsmall : ops.length ≤ 4 := by omega
  have hall : unpackedCount payload = ops.length := by omega
  refine ⟨hsmall, ?_⟩
  intro i hi
  by_contra hout
  have hnone : deliveryAt payload (metadataWords ops.length) i = none := by
    rw [deliveryAt, h.toNat_offset hi, if_neg hout]
  rw [deliveries, hall] at hlength
  have hlt : ((range ops.length).filterMap (deliveryAt payload (metadataWords ops.length))).length <
      (range ops.length).length := by
    rw [length_filterMap_lt_length_iff_exists]
    exact ⟨i, mem_range.mpr hi, hnone⟩
  rw [length_range] at hlt
  omega

end Layout

theorem length_deliveries_le (payload : List UInt32) : (deliveries payload).length ≤ 4 :=
  ((length_filterMap_le _ _).trans_eq length_range).trans (Nat.min_le_right _ _)

theorem byteAt_congr {p q : List UInt32} (h : ∀ k, p.getD k 0 = q.getD k 0) :
    byteAt p = byteAt q := by
  funext b
  rw [byteAt, h, byteAt]

theorem deliveries_congr {p q : List UInt32} (h : ∀ k, p.getD k 0 = q.getD k 0) :
    deliveries p = deliveries q := by
  have hcount : unpackedCount p = unpackedCount q := by
    rw [unpackedCount, byteAt_congr h, unpackedCount]
  have hat : deliveryAt p = deliveryAt q := by
    funext words i
    simp only [deliveryAt, byteAt_congr h, h]
  rw [deliveries, hcount, hat, deliveries]

theorem slotArgs_rewriteSlot {ws : List UInt32} {slot : Nat}
    (h : slotWords * slot + slotWords ≤ ws.length) (tenant opcode : UInt32) {args : List UInt32}
    (hargs : args.length ≤ argsPerSlot) :
    slotArgs (rewriteSlot ws slot tenant opcode args) slot =
      args ++ replicate (argsPerSlot - args.length) 0 := by
  have hpre : (ws.take (slotWords * slot)).length = slotWords * slot := by
    rw [length_take]
    omega
  have hbody :
      (args ++ replicate (argsPerSlot - args.length) (0 : UInt32)).length = argsPerSlot := by
    rw [length_append, length_replicate]
    omega
  have hsplit : rewriteSlot ws slot tenant opcode args =
      (ws.take (slotWords * slot) ++ [Slot.published, opcode, tenant, 2]) ++
        ((args ++ replicate (argsPerSlot - args.length) 0) ++
          ws.drop (slotWords * slot + slotWords)) := by
    simp [rewriteSlot]
  have hlength : (ws.take (slotWords * slot) ++ [Slot.published, opcode, tenant, 2]).length =
      slotWords * slot + arg0Word := by
    rw [length_append, hpre]
    rfl
  rw [slotArgs, hsplit, ← hlength, drop_left, take_left' hbody]

theorem deliveries_rewriteSlot {ws payload : List UInt32} {slot : Nat}
    (h : slotWords * slot + slotWords ≤ ws.length) (tenant opcode : UInt32)
    (hfits : payload.length ≤ argsPerSlot) :
    deliveries (slotArgs (rewriteSlot ws slot tenant opcode payload) slot) =
      deliveries payload := by
  rw [slotArgs_rewriteSlot h tenant opcode hfits]
  apply deliveries_congr
  intro k
  by_cases hk : k < payload.length
  · rw [getD_append _ _ _ _ hk]
  · rw [getD_append_right _ _ _ _ (by omega), getD_eq_default payload _ (by omega),
      getD_eq_getElem?_getD, getElem?_replicate]
    split <;> rfl

/-- The device dispatches exactly the published operations, each once and in
order, with its own arguments: whatever the dispatch block does, as long as it
leaves the slot alone. -/
def DispatchedAsPublished (ring : List UInt8) (slot : UInt32) (ops : List PackedOp) : Prop :=
  ∃ ds, List.Forall₂ Carries ds ops ∧ ∀ host dispatch t m, KeepsSlot host dispatch →
    OnSlot t (slot * 16) → m.find "ring_buffer" = some ⟨ring, .u32⟩ →
    Dispatches host dispatch ds m ((runNodes host (packedSlotBody dispatch) t m).map Prod.snd)

/-! ## Counting dispatches -/

def countingDispatch : List Node :=
  [.store "dispatch_log" (.u32 0) (.add (.load "dispatch_log" (.u32 0)) (.u32 1))]

theorem runNode_countingDispatch (host : Host) (t : Thread) {m : Memory} {n : UInt32}
    (h : m.find "dispatch_log" = some (.ofWords [n])) :
    runNode host (.block countingDispatch) t m =
      .ok (.next t, m.update "dispatch_log" (.ofWords [n + 1])) := by
  have hstore : runNodes host countingDispatch t m =
      .ok (.next t, m.update "dispatch_log" (.ofWords [n + 1])) := by
    rw [countingDispatch, runNodes_single]
    exact runNode_store (.u32 0) (.add (.load (.u32 0) h) (.u32 1)) h
  show (fun p => (Outcome.map t.leave p.1, p.2)) <$> runNodes host countingDispatch t m = _
  rw [hstore]
  show Except.ok (Outcome.next (t.leave t), _) = _
  rw [leave_self]

theorem keepsSlot_countingDispatch (host : Host) : KeepsSlot host countingDispatch := by
  refine keepsSlot_of_steady (forall_mem_singleton.mpr (steady_of_sparesRing ?_))
  exact ⟨show "dispatch_log" ≠ "ring_buffer" by decide, trivial, trivial,
    ⟨trivial, trivial⟩, trivial⟩

theorem Dispatches.count {host : Host} {ds : List Delivery} {m : Memory} {r : Except Error Memory}
    {n : UInt32} (h : Dispatches host countingDispatch ds m r)
    (hlog : m.find "dispatch_log" = some (.ofWords [n])) :
    ∃ m', r = .ok m' ∧ m'.find "dispatch_log" = some (.ofWords [n + UInt32.ofNat ds.length]) := by
  induction h generalizing n with
  | done m => exact ⟨m, rfl, by simpa using hlog⟩
  | failed ds hd hrun =>
    rw [runNode_countingDispatch host _ hlog] at hrun
    cases hrun
  | @next d ds t t' m m' r hd hrun hrest ih =>
    rw [runNode_countingDispatch host _ hlog] at hrun
    cases hrun
    obtain ⟨last, hr, hlast⟩ := ih (n := n + 1) (by rw [Memory.find_update, if_pos rfl])
    refine ⟨last, hr, ?_⟩
    rw [hlast, length_cons, UInt32.ofNat_add, UInt32.add_assoc, UInt32.add_comm 1]
    rfl

def slotThread (base : UInt32) : Thread where
  ids := ⟨(0, 0, 0), (0, 0, 0), (0, 0, 0)⟩
  index := 0
  vals := fun name =>
    if name = "slot_base" then some (.u32 base)
    else if name ∈ ["opcode", "arg0", "arg1", "arg2"] then some (.u32 0) else none
  fixed := fun _ => false
  pending := []

theorem onSlot_slotThread (base : UInt32) : OnSlot (slotThread base) base where
  base := by simp [slotThread]
  bound := by simp [slotThread]
  free := by simp [slotThread, packedNames]

def loggedMemory (ring : List UInt8) : Memory where
  storage := fun name =>
    if name = "ring_buffer" then some ⟨ring, .u32⟩
    else if name = "dispatch_log" then some (.ofWords [0]) else none
  workgroup := fun _ => none

theorem Layout.dispatched_iff {ws payload : List UInt32} {slot tenant opcode : UInt32}
    {ops : List PackedOp} (h : Layout ops payload) (hslot : slot.toNat < maxRingSlots)
    (hws : slotWords * slot.toNat + slotWords ≤ ws.length) :
    DispatchedAsPublished (Words.toBytes (rewriteSlot ws slot.toNat tenant opcode payload)) slot
      ops ↔
      FitsDevice ops := by
  have haddr : (slot * 16).toNat = slotWords * slot.toNat := by
    rw [UInt32.toNat_mul]
    simp only [UInt32.reduceToNat]
    unfold maxRingSlots slotWords at *
    omega
  have hroom : slotWords * slot.toNat + slotWords ≤ 2 ^ 32 := by
    unfold maxRingSlots slotWords at *
    omega
  have hdeliver : ∀ host dispatch t m, KeepsSlot host dispatch → OnSlot t (slot * 16) →
      m.find "ring_buffer" =
        some ⟨Words.toBytes (rewriteSlot ws slot.toNat tenant opcode payload), .u32⟩ →
      Dispatches host dispatch (deliveries payload) m
        ((runNodes host (packedSlotBody dispatch) t m).map Prod.snd) := by
    intro host dispatch t m hkeep hon hring
    have hdispatches := dispatches_packedSlotBody haddr hroom hkeep hon hring
    rwa [deliveries_rewriteSlot hws tenant opcode h.fits] at hdispatches
  constructor
  · rintro ⟨ds, hcarry, hall⟩
    generalize hbytes : Words.toBytes (rewriteSlot ws slot.toNat tenant opcode payload) = ring at *
    have hring : (loggedMemory ring).find "ring_buffer" = some ⟨ring, .u32⟩ := by
      simp [loggedMemory, Memory.find]
    have hlog : (loggedMemory ring).find "dispatch_log" = some (.ofWords [0]) := by
      simp [loggedMemory, Memory.find]
    have hkeep := keepsSlot_countingDispatch integerHost
    have hon := onSlot_slotThread (slot * 16)
    -- The two lists of deliveries leave the same count behind.
    obtain ⟨m₁, hr₁, hcount₁⟩ := (hall _ _ _ _ hkeep hon hring).count hlog
    obtain ⟨m₂, hr₂, hcount₂⟩ := (hdeliver _ _ _ _ hkeep hon hring).count hlog
    rw [hr₁] at hr₂
    cases hr₂
    rw [hcount₁] at hcount₂
    have hwords := congrArg (Option.map fun b => b.load integerHost.floats 0) hcount₂
    have hcounts : UInt32.ofNat ds.length = UInt32.ofNat (deliveries payload).length := by
      simpa using hwords
    have hsmall := h.length_le
    have hfew := length_deliveries_le payload
    have hds : ds.length = ops.length := hcarry.length_eq
    have hnats := congrArg UInt32.toNat hcounts
    rw [UInt32.toNat_ofNat_of_lt' (by simp only [UInt32.size]; omega),
      UInt32.toNat_ofNat_of_lt' (by simp only [UInt32.size]; omega)] at hnats
    exact h.fitsDevice (by omega)
  · intro hfits
    exact ⟨deliveries payload, h.deliveries_carry hfits, hdeliver⟩

/-- A packed slot the host accepted is executed as published exactly when the
operations fit the device: at most four, with the three words from each
operation's first argument inside the slot. -/
theorem packedSlot_dispatched_iff {ring ring' : List UInt8} {slot tenant : UInt32}
    {ops : List PackedOp}
    (hpublish : publishPackedSlot ring slot tenant ops = .ok ring')
    (hslot : slot.toNat < maxRingSlots) :
    DispatchedAsPublished ring' slot ops ↔ FitsDevice ops := by
  obtain ⟨ws, payload, hws, hlayout, rfl⟩ := publishPackedSlot_eq_ok hpublish
  exact hlayout.dispatched_iff hslot hws

/-- A compare-and-swap, an addition and a fence, with three, two and no arguments.
The dispatch block of the device leaves their slot alone. -/
theorem packedSlot_dispatched_mixed :
    (∃ ring', publishPackedSlot (replicate 64 0) 0 0 [(4, [7, 3, 9]), (2, [7, 3]), (7, [])] =
        .ok ring' ∧ DispatchedAsPublished ring' 0 [(4, [7, 3, 9]), (2, [7, 3]), (7, [])]) ∧
      KeepsSlot integerHost (dispatchOpcodeBody []) := by
  obtain ⟨ring', hpublish⟩ : ∃ ring', publishPackedSlot (replicate 64 0) 0 0
      [(4, [7, 3, 9]), (2, [7, 3]), (7, [])] = .ok ring' := ⟨_, rfl⟩
  refine ⟨⟨ring', hpublish, ?_⟩, keepsSlot_dispatchOpcodeBody (by simp)⟩
  exact (packedSlot_dispatched_iff hpublish (by decide)).mpr (by decide)

/-- Five operations without arguments are accepted, and one is lost. -/
theorem packedSlot_loses_fifth :
    ∃ ring', publishPackedSlot (replicate 64 0) 0 0
        [(2, []), (2, []), (2, []), (2, []), (2, [])] = .ok ring' ∧
      ¬ DispatchedAsPublished ring' 0 [(2, []), (2, []), (2, []), (2, []), (2, [])] := by
  obtain ⟨ring', hpublish⟩ : ∃ ring', publishPackedSlot (replicate 64 0) 0 0
      [(2, []), (2, []), (2, []), (2, []), (2, [])] = .ok ring' := ⟨_, rfl⟩
  refine ⟨ring', hpublish, ?_⟩
  obtain ⟨ws, payload, hws, hlayout, rfl⟩ := publishPackedSlot_eq_ok hpublish
  intro hdispatched
  exact absurd ((hlayout.dispatched_iff (by decide) hws).mp hdispatched) (by decide)

end Vyre.Megakernel
