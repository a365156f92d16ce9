import Vyre.Reference.Simulation

/-!
# What a run reads

The bytes that expressions and statements read, in the order in which they are
read, with the values they give. From two memories that differ only in bytes that
are not read, a run goes the same way.
-/

namespace Vyre.Reference

open Eval StateExcept List

/-- Bytes of a buffer. -/
structure Span where
  buffer : Ident
  start : Nat
  length : Nat

def Span.Has (s : Span) (name : Ident) (p : Nat) : Prop :=
  s.buffer = name ∧ s.start ≤ p ∧ p < s.start + s.length

/-- None of the bytes is in `D`. -/
def Span.Avoids (s : Span) (D : Ident → Nat → Prop) : Prop := ∀ name p, s.Has name p → ¬ D name p

/-- Bytes that are read, and the value that they give. -/
structure Read extends Span where
  value : Value

/-! ## The bytes of elements -/

namespace Buffer

variable (fl : Floats) (b : Buffer) (index : UInt32)

/-- Where `load` reads, and how many bytes. -/
def loadSpan : Nat × Nat :=
  if b.element = .bytes then (index.toNat, b.bytes.length - index.toNat)
  else
    match checkedMul index.toNat b.element.minBytes with
    | none => (0, 0)
    | some offset =>
        if b.element.minBytes = 0 ∨ b.bytes.length < offset + b.element.minBytes then (0, 0)
        else (offset, b.element.minBytes)

def atomicSpan : Nat × Nat :=
  match checkedMul index.toNat (max b.element.minBytes 4) with
  | none => (0, 0)
  | some offset => if b.bytes.length < offset + 4 then (0, 0) else (offset, 4)

/-- Where `store` writes, and what. -/
def storeData (value : Value) : Nat × List UInt8 :=
  if b.element = .bytes then
    if b.bytes.length ≤ index.toNat then (0, [])
    else (index.toNat, value.toBytes.take (b.bytes.length - index.toNat))
  else
    match checkedMul index.toNat b.element.minBytes with
    | none => (0, [])
    | some offset =>
        if b.element.minBytes = 0 ∨ b.bytes.length < offset + b.element.minBytes then (0, [])
        else (offset, elementBytes fl b.element value)

variable {fl b index}

theorem overwrite_nil (b : Buffer) : b.overwrite 0 [] = b := by
  simp [overwrite]

theorem store_eq_overwrite (value : Value) : b.store fl index value =
    b.overwrite (b.storeData fl index value).1 (b.storeData fl index value).2 := by
  unfold store storeData
  split_ifs
  · exact (overwrite_nil b).symm
  · rfl
  cases checkedMul index.toNat b.element.minBytes with
  | none => exact (overwrite_nil b).symm
  | some offset =>
    dsimp only
    split_ifs
    · exact (overwrite_nil b).symm
    · rfl

theorem storeData_le (value : Value) : (b.storeData fl index value).1 +
    (b.storeData fl index value).2.length ≤ b.bytes.length := by
  unfold storeData
  split_ifs
  · exact Nat.zero_le _
  · rw [length_take]
    omega
  split
  · exact Nat.zero_le _
  split_ifs
  · exact Nat.zero_le _
  · rw [elementBytes_length]
    omega

theorem getElem?_overwrite {offset : Nat} {data : List UInt8}
    (h : offset + data.length ≤ b.bytes.length) (p : Nat) : (b.overwrite offset data).bytes[p]? =
      if offset ≤ p ∧ p < offset + data.length then data[p - offset]? else b.bytes[p]? := by
  have htake : (b.bytes.take offset).length = offset := length_take_of_le (by omega)
  rw [overwrite, append_assoc, getElem?_append, htake]
  by_cases hlow : p < offset
  · rw [if_pos hlow, if_neg (by omega), getElem?_take_of_lt hlow]
  · rw [if_neg hlow, getElem?_append]
    by_cases hhigh : p < offset + data.length
    · rw [if_pos (by omega), if_pos (by omega)]
    · rw [if_neg (by omega), if_neg (by omega), getElem?_drop]
      congr 1
      omega

end Buffer

/-! ## Memories that differ in some bytes -/

/-- The buffers agree but for the bytes in `D`. -/
structure Near (D : Nat → Prop) (b b' : Buffer) : Prop where
  element : b'.element = b.element
  length : b'.bytes.length = b.bytes.length
  bytes : ∀ p, ¬ D p → b'.bytes[p]? = b.bytes[p]?

namespace Near

variable {D : Nat → Prop} {b b' : Buffer} {fl : Floats} {index : UInt32}

theorem slice (h : Near D b b') {start count : Nat}
    (hD : ∀ p, start ≤ p → p < start + count → ¬ D p) :
    (b'.bytes.drop start).take count = (b.bytes.drop start).take count := by
  refine ext_getElem? fun i => ?_
  rw [getElem?_take, getElem?_take, getElem?_drop, getElem?_drop]
  split_ifs with hi
  · exact h.bytes _ (hD _ (by omega) (by omega))
  · rfl

theorem loadSpan (h : Near D b b') : b'.loadSpan index = b.loadSpan index := by
  simp only [Buffer.loadSpan, h.element, h.length]

theorem load (h : Near D b b') (hD : ∀ p, (b.loadSpan index).1 ≤ p →
      p < (b.loadSpan index).1 + (b.loadSpan index).2 → ¬ D p) :
    b'.load fl index = b.load fl index := by
  unfold Buffer.loadSpan at hD
  unfold Buffer.load
  rw [h.element, h.length]
  split_ifs at hD ⊢ with hbytes hlength
  · rfl
  · have hslice := h.slice hD
    rw [take_of_length_le (by simp [h.length]), take_of_length_le (by simp)] at hslice
    rw [hslice]
  · cases hmul : checkedMul index.toNat b.element.minBytes with
    | none => rfl
    | some offset =>
      simp only [hmul] at hD ⊢
      split_ifs at hD ⊢
      · rfl
      · rw [h.slice hD]

theorem atomicSpan (h : Near D b b') : b'.atomicSpan index = b.atomicSpan index := by
  simp only [Buffer.atomicSpan, h.element, h.length]

theorem atomicLoad (h : Near D b b') (hD : ∀ p, (b.atomicSpan index).1 ≤ p →
      p < (b.atomicSpan index).1 + (b.atomicSpan index).2 → ¬ D p) :
    b'.atomicLoad index = b.atomicLoad index := by
  unfold Buffer.atomicSpan at hD
  unfold Buffer.atomicLoad
  rw [h.element, h.length]
  cases hmul : checkedMul index.toNat (max b.element.minBytes 4) with
  | none => rfl
  | some offset =>
    simp only [hmul] at hD ⊢
    split_ifs at hD ⊢
    · rfl
    · rw [readU32Prefix, readU32Prefix, h.slice hD]

theorem storeData (h : Near D b b') (value : Value) :
    b'.storeData fl index value = b.storeData fl index value := by
  simp only [Buffer.storeData, h.element, h.length]

/-- What both write they agree in afterwards. -/
theorem overwrite (h : Near D b b') {offset : Nat} {data : List UInt8}
    (hle : offset + data.length ≤ b.bytes.length) :
    Near (fun p => D p ∧ ¬ (offset ≤ p ∧ p < offset + data.length)) (b.overwrite offset data)
      (b'.overwrite offset data) where
  element := h.element
  length := by
    rw [Buffer.overwrite_length hle, Buffer.overwrite_length (h.length ▸ hle), h.length]
  bytes p hp := by
    rw [Buffer.getElem?_overwrite hle, Buffer.getElem?_overwrite (h.length ▸ hle)]
    split_ifs with hin
    · rfl
    · exact h.bytes p fun hD => hp ⟨hD, hin⟩

theorem mono {E : Nat → Prop} (h : Near D b b') (hDE : ∀ p, D p → E p) : Near E b b' :=
  ⟨h.element, h.length, fun p hp => h.bytes p fun hD => hp (hDE p hD)⟩

theorem store (h : Near D b b') (value : Value) :
    Near (fun p => D p ∧ ¬ ((b.storeData fl index value).1 ≤ p ∧
      p < (b.storeData fl index value).1 + (b.storeData fl index value).2.length))
      (b.store fl index value) (b'.store fl index value) := by
  rw [Buffer.store_eq_overwrite, Buffer.store_eq_overwrite, h.storeData]
  exact h.overwrite (Buffer.storeData_le value)

theorem atomicStore (h : Near D b b') (word : UInt32) :
    Near D (b.atomicStore index word) (b'.atomicStore index word) := by
  unfold Buffer.atomicStore
  rw [h.element, h.length]
  cases checkedMul index.toNat (max b.element.minBytes 4) with
  | none => exact h
  | some offset =>
    dsimp only
    split_ifs with hfits
    · exact (h.overwrite (by simpa using hfits)).mono fun p hp => hp.1
    · exact h

theorem overwrite_left (h : Near D b b') {offset : Nat} {data : List UInt8}
    (hle : offset + data.length ≤ b.bytes.length) :
    Near (fun p => D p ∨ offset ≤ p ∧ p < offset + data.length) (b.overwrite offset data) b' where
  element := h.element
  length := by rw [Buffer.overwrite_length hle, h.length]
  bytes p hp := by
    rw [Buffer.getElem?_overwrite hle, if_neg fun hin => hp (.inr hin)]
    exact h.bytes p fun hD => hp (.inl hD)

theorem eq_of_empty (h : Near (fun _ => False) b b') : b' = b := by
  obtain ⟨_, _⟩ := b
  obtain ⟨_, _⟩ := b'
  exact congrArg₂ Buffer.mk (ext_getElem? fun p => h.bytes p id) h.element

end Near

section Update

variable (m : Memory) (name key : Ident) (b : Buffer)

theorem Memory.update_storage : (m.update name b).storage key =
    if key = name ∧ (m.storage name).isSome = true then some b else m.storage key := by
  unfold Memory.update setBuffer
  by_cases hs : (m.storage name).isSome = true <;> simp [hs]

theorem Memory.update_workgroup : (m.update name b).workgroup key =
    if key = name ∧ ¬ (m.storage name).isSome = true then some b else m.workgroup key := by
  unfold Memory.update setBuffer
  by_cases hs : (m.storage name).isSome = true <;> simp [hs]

variable {m name b}

theorem Memory.eq_of_maps {m' : Memory} (hs : ∀ key, m.storage key = m'.storage key)
    (hw : ∀ key, m.workgroup key = m'.workgroup key) : m = m' := by
  cases m
  cases m'
  exact congrArg₂ Memory.mk (funext hs) (funext hw)

theorem Memory.update_self (h : m.find name = some b) : m.update name b = m := by
  apply Memory.eq_of_maps <;> intro key <;> simp only [update_storage, update_workgroup] <;>
    cases hs : m.storage name <;> grind [Memory.find]

end Update

/-- The memories have the same buffers, which agree but for the bytes in `D`. -/
structure Apart (D : Ident → Nat → Prop) (m m' : Memory) : Prop where
  storage : ∀ name, (m'.storage name).isSome = (m.storage name).isSome
  /-- A workgroup buffer that cannot be found is the same. -/
  hidden : ∀ name, (m.storage name).isSome = true → m'.workgroup name = m.workgroup name
  find : ∀ {name b}, m.find name = some b → ∃ b', m'.find name = some b' ∧ Near (D name) b b'
  missing : ∀ {name}, m.find name = none → m'.find name = none

namespace Apart

variable {D E : Ident → Nat → Prop} {m m' : Memory} {name : Ident} {b b' : Buffer}

theorem refl (m : Memory) : Apart D m m :=
  ⟨fun _ => rfl, fun _ _ => rfl, fun {_ b} hb => ⟨b, hb, rfl, rfl, fun _ _ => rfl⟩, id⟩

theorem mono (h : Apart D m m') (hDE : ∀ name p, D name p → E name p) : Apart E m m' where
  storage := h.storage
  hidden := h.hidden
  find hb := by
    obtain ⟨b', hb', hnear⟩ := h.find hb
    exact ⟨b', hb', hnear.mono (hDE _)⟩
  missing := h.missing

theorem update (h : Apart D m m') (hnear : Near (E name) b b')
    (hE : ∀ key p, key ≠ name → D key p → E key p) :
    Apart E (m.update name b) (m'.update name b') where
  storage key := by
    simp only [Memory.update_storage, h.storage]
    split_ifs <;> simp [h.storage]
  hidden key hkey := by
    simp only [Memory.update_storage, Memory.update_workgroup, h.storage] at hkey ⊢
    split_ifs at hkey ⊢ <;> simp_all [h.hidden]
  find {key c} hc := by
    rw [Memory.find_update] at hc ⊢
    split_ifs at hc ⊢ with hkey
    · subst hkey
      cases hc
      exact ⟨b', rfl, hnear⟩
    · obtain ⟨c', hc', hnear⟩ := h.find hc
      exact ⟨c', hc', hnear.mono fun p => hE key p hkey⟩
  missing {key} hkey := by
    rw [Memory.find_update] at hkey ⊢
    split_ifs at hkey ⊢
    exact h.missing hkey

theorem eq_of_empty (h : Apart (fun _ _ => False) m m') : m' = m := by
  have hfind : ∀ name, m'.find name = m.find name := by
    intro name
    cases hb : m.find name with
    | none => exact h.missing hb
    | some b =>
      obtain ⟨b', hb', hnear⟩ := h.find hb
      rw [hb', hnear.eq_of_empty]
  have hmaps : ∀ name, m'.storage name = m.storage name ∧ m'.workgroup name = m.workgroup name := by
    intro name
    have hsome := h.storage name
    have hhidden := h.hidden name
    have hfound := hfind name
    simp only [Memory.find] at hfound
    cases hs : m.storage name <;> cases hs' : m'.storage name <;> simp_all
  exact Memory.eq_of_maps (fun name => (hmaps name).1) fun name => (hmaps name).2

/-- A store that only the first memory makes. -/
theorem store_left (h : Apart D m m') (hb : m.find name = some b) (fl : Floats) (idx : UInt32)
    (v : Value) : Apart (fun key p => D key p ∨ Span.Has ⟨name, (b.storeData fl idx v).1,
      (b.storeData fl idx v).2.length⟩ key p) (m.update name (b.store fl idx v)) m' := by
  obtain ⟨b', hb', hnear⟩ := h.find hb
  rw [← Memory.update_self hb', Buffer.store_eq_overwrite]
  refine h.update ((hnear.overwrite_left (Buffer.storeData_le v)).mono fun p hp => ?_)
    fun key p _ hD => .inl hD
  exact hp.imp_right fun hin => ⟨rfl, hin⟩

end Apart

/-! ## The reads of expressions -/

/-- What a computation reads from a memory. -/
abbrev Trace := Memory → List Read

def noReads : Trace := fun _ => []

/-- What is read when `x` is followed by what its result leads to. -/
def thenReads {α : Type} (reads : Trace) (x : Eval α) (rest : α → Trace) : Trace := fun m =>
  reads m ++ match x m with
    | .ok (a, m') => rest a m'
    | .error _ => []

section Reads

variable (host : Host) (lane : Lane)

/-- The read of a load, at the index that was evaluated. -/
def loadRead (buffer : Ident) (index : Value) : Trace := fun m =>
  match index.tryAsU32 host.floats, m.find buffer with
  | some idx, some b =>
      [⟨⟨buffer, (b.loadSpan idx).1, (b.loadSpan idx).2⟩, b.load host.floats idx⟩]
  | _, _ => []

def atomicRead (buffer : Ident) (index : Value) : Trace := fun m =>
  match index.tryAsU32 host.floats, m.storage buffer with
  | some idx, some b =>
      [⟨⟨buffer, (b.atomicSpan idx).1, (b.atomicSpan idx).2⟩, .u32 ((b.atomicLoad idx).getD 0)⟩]
  | _, _ => []

mutual

/-- What an expression reads, when it is evaluated by an invocation alone. -/
def exprReads : Expr → Trace
  | .load buffer index => thenReads (exprReads index) (evalExpr host [lane] index lane)
      fun i => loadRead host buffer i
  | .binOp _ left right => thenReads (exprReads left) (evalExpr host [lane] left lane)
      fun _ => exprReads right
  | .unOp _ operand => exprReads operand
  | .cast _ operand => exprReads operand
  | .call _ args => argsReads args
  | .select a b c | .fma a b c =>
      thenReads (exprReads a) (evalExpr host [lane] a lane) fun _ =>
        thenReads (exprReads b) (evalExpr host [lane] b lane) fun _ => exprReads c
  | .atomic _ buffer index expected value _ =>
      thenReads (exprReads index) (evalExpr host [lane] index lane) fun i =>
        thenReads (expectedReads expected) (evalExpected host [lane] expected lane) fun _ =>
          thenReads (exprReads value) (evalExpr host [lane] value lane)
            fun _ => atomicRead host buffer i
  -- Alone, a lane is not in its own slice when its index is past the first subgroup.
  | .subgroupBallot cond =>
      if subgroupSlice [lane] lane.linearLocalIndex = [] then noReads else exprReads cond
  | .subgroupAdd value =>
      if subgroupSlice [lane] lane.linearLocalIndex = [] then noReads else exprReads value
  | .subgroupShuffle value src =>
      if subgroupSlice [lane] lane.linearLocalIndex = [] then noReads
      else thenReads (exprReads value) (evalExpr host [lane] value lane) fun _ => exprReads src
  | _ => noReads

def expectedReads : Option Expr → Trace
  | none => noReads
  | some e => exprReads e

def argsReads : List Expr → Trace
  | [] => noReads
  | e :: es => thenReads (exprReads e) (evalExpr host [lane] e lane) fun _ => argsReads es

end

end Reads

/-! ## Runs that do not read the difference -/

/-- From memories that differ only in bytes that `x` does not read, `x` does the
same and reads the same. -/
def ReadsSame {α : Type} (D : Ident → Nat → Prop) (x : Eval α) (reads : Trace) : Prop :=
  ∀ m m' a m₁, Apart D m m' → (∀ r ∈ reads m, r.Avoids D) → x m = .ok (a, m₁) →
    ∃ m₁', x m' = .ok (a, m₁') ∧ Apart D m₁ m₁' ∧ reads m' = reads m

section Same

variable {α β : Type} {D : Ident → Nat → Prop} {x : Eval α} {f : α → Eval β} {reads : Trace}
  {rest : α → Trace} {m m₁ : Memory} {a : α}

theorem thenReads_of_ok (h : x m = .ok (a, m₁)) :
    thenReads reads x rest m = reads m ++ rest a m₁ := by
  rw [thenReads, h]

namespace ReadsSame

theorem bind (h : ReadsSame D x reads) (hf : ∀ a, ReadsSame D (f a) (rest a)) :
    ReadsSame D (x >>= f) (thenReads reads x rest) := by
  intro m m' b m₂ hm hreads hrun
  obtain ⟨a, m₁, hx, hrun⟩ := bind_eq_ok.mp hrun
  rw [thenReads_of_ok hx, forall_mem_append] at hreads
  obtain ⟨m₁', hx', hm₁, hsame⟩ := h m m' a m₁ hm hreads.1 hx
  obtain ⟨m₂', hf', hm₂, hrest⟩ := hf a m₁ m₁' b m₂ hm₁ hreads.2 hrun
  refine ⟨m₂', bind_eq_ok.mpr ⟨a, m₁', hx', hf'⟩, hm₂, ?_⟩
  rw [thenReads_of_ok hx, thenReads_of_ok hx', hsame, hrest]

theorem last (h : ReadsSame D x reads) (hf : ∀ a, ReadsSame D (f a) noReads) :
    ReadsSame D (x >>= f) reads := by
  intro m m' b m₂ hm hreads hrun
  obtain ⟨a, m₁, hx, hrun⟩ := bind_eq_ok.mp hrun
  obtain ⟨m₁', hx', hm₁, hsame⟩ := h m m' a m₁ hm hreads hx
  obtain ⟨m₂', hf', hm₂, -⟩ := hf a m₁ m₁' b m₂ hm₁ (by simp [noReads]) hrun
  exact ⟨m₂', bind_eq_ok.mpr ⟨a, m₁', hx', hf'⟩, hm₂, hsame⟩

theorem pure (a : α) : ReadsSame D (Pure.pure a) noReads := by
  intro m m' b m₁ hm _ hrun
  cases hrun
  exact ⟨m', rfl, hm, rfl⟩

theorem fail (e : Error) : ReadsSame D (Eval.fail e : Eval α) reads := by
  intro m m' a m₁ _ _ hrun
  cases hrun

/-- A step that does not look at the memory. -/
theorem lift_bind {r : Except Error α} (hf : ∀ a, ReadsSame D (f a) reads) :
    ReadsSame D (Eval.lift r >>= f) reads := by
  cases r with
  | error e => exact fail e
  | ok a => exact hf a

theorem orFail_bind {o : Option α} {e : Error} (hf : ∀ a, o = some a → ReadsSame D (f a) reads) :
    ReadsSame D (orFail o e >>= f) reads := by
  cases o with
  | none => exact fail e
  | some a => exact hf a rfl

theorem lift (r : Except Error α) : ReadsSame D (Eval.lift r) noReads := by
  cases r with
  | error e => exact fail e
  | ok a => exact pure a

theorem orFail (o : Option α) (e : Error) : ReadsSame D (Eval.orFail o e) noReads := by
  cases o with
  | none => exact fail e
  | some a => exact pure a

end ReadsSame

variable {host : Host} {lane : Lane} {buffer : Ident} {v : Value}

theorem readsSame_load : ReadsSame D
    (toIndex host.floats "load index" v >>= fun idx => get >>= fun m =>
      Eval.lift (m.resolveBuffer buffer) >>=
        fun b => (Pure.pure (b.load host.floats idx) : Eval Value))
    (loadRead host buffer v) := by
  intro m m' a m₁ hm hreads hrun
  simp only [toIndex, bind_eq_ok, orFail_eq_ok, lift_eq_ok, resolveBuffer_eq_ok] at hrun ⊢
  obtain ⟨idx, _, ⟨hidx, rfl⟩, _, _, ⟨⟩, b, _, ⟨hb, rfl⟩, ⟨⟩⟩ := hrun
  obtain ⟨b', hb', hnear⟩ := hm.find hb
  simp only [loadRead, hidx, hb, hb', mem_singleton, forall_eq] at hreads ⊢
  have hload : b'.load host.floats idx = b.load host.floats idx :=
    hnear.load fun p hlow hhigh => hreads buffer p ⟨rfl, hlow, hhigh⟩
  refine ⟨m', ⟨idx, m', ⟨rfl, rfl⟩, m', m', rfl, b', m', ⟨hb', rfl⟩, ?_⟩, hm, ?_⟩
  · rw [hload]
    rfl
  · rw [hload, hnear.loadSpan]

theorem readsSame_bufLen :
    ReadsSame D (get >>= fun m => Eval.lift (m.resolveBuffer buffer) >>= fun b =>
    (Pure.pure (.u32 b.len) : Eval Value)) noReads := by
  intro m m' a m₁ hm _ hrun
  simp only [bind_eq_ok, lift_eq_ok, resolveBuffer_eq_ok] at hrun ⊢
  obtain ⟨_, _, ⟨⟩, b, _, ⟨hb, rfl⟩, ⟨⟩⟩ := hrun
  obtain ⟨b', hb', hnear⟩ := hm.find hb
  refine ⟨m', ⟨m', m', rfl, b', m', ⟨hb', rfl⟩, ?_⟩, hm, rfl⟩
  simp only [Buffer.len, hnear.element, hnear.length]
  rfl

theorem readsSame_atomicRmw {op : AtomicOp} {idx : UInt32} {expected : Option UInt32}
    {word : UInt32}
    (hidx : v.tryAsU32 host.floats = some idx) :
    ReadsSame D (atomicRmw Memory.atomicBuffer op buffer idx expected word)
      (atomicRead host buffer v) := by
  intro m m' a m₁ hm hreads hrun
  obtain ⟨b, htarget, hcase⟩ := atomicRmw_eq_ok.mp hrun
  have hb : m.storage buffer = some b := atomicBuffer_eq_ok htarget
  -- The name is in storage in both memories.
  obtain ⟨b', hfind, hnear⟩ := hm.find (show m.find buffer = some b by rw [Memory.find, hb]; rfl)
  have hb' : m'.storage buffer = some b' := by
    have hsome := hm.storage buffer
    rw [hb] at hsome
    obtain ⟨c, hc⟩ := Option.isSome_iff_exists.mp hsome
    rw [Memory.find, hc] at hfind
    exact hc.trans hfind
  have htarget' : m'.atomicBuffer buffer = .ok b' := by rw [Memory.atomicBuffer, hb']
  simp only [atomicRead, hidx, hb, hb', mem_singleton, forall_eq] at hreads ⊢
  have hload : b'.atomicLoad idx = b.atomicLoad idx :=
    hnear.atomicLoad fun p hlow hhigh => hreads buffer p ⟨rfl, hlow, hhigh⟩
  rw [hload, hnear.atomicSpan]
  rcases hcase with ⟨hnone, rfl, rfl⟩ | ⟨old, p, hold, happly, rfl, rfl⟩
  · exact ⟨m', atomicRmw_eq_ok.mpr ⟨b', htarget', .inl ⟨hload.trans hnone, rfl, rfl⟩⟩, hm, rfl⟩
  · refine ⟨_,
      atomicRmw_eq_ok.mpr ⟨b', htarget', .inr ⟨old, p, hload.trans hold, happly, rfl, rfl⟩⟩,
      ?_, rfl⟩
    have hset : ∀ {n : Memory} {c : Buffer}, n.storage buffer = some c → ∀ c',
        { n with storage := setBuffer n.storage buffer c' } = n.update buffer c' := by
      intro n c hc c'
      rw [Memory.update, hc]
      rfl
    rw [hset hb, hset hb']
    exact hm.update (hnear.atomicStore p.2) fun _ _ _ => id

theorem readsSame_encodeInputs {opId : Ident} {args : List Expr} {params : List String}
    {input : List UInt8} (hlength : args.length = params.length)
    (h : ∀ e ∈ args, ReadsSame D (evalExpr host [lane] e lane) (exprReads host lane e)) :
    ReadsSame D (encodeInputs host [lane] opId args params input lane)
      (argsReads host lane args) := by
  induction args generalizing params input with
  | nil => cases params <;> exact .pure _
  | cons e es ih =>
    cases params with
    | nil => cases hlength
    | cons param params =>
      simp only [encodeInputs]
      split
      · exact .fail _
      · exact (h e (by simp)).bind fun v =>
          ih (Nat.succ_injective hlength) fun e he => h e (by simp [he])

/-- An expression that does not read the difference evaluates the same. -/
theorem readsSame_evalExpr (e : Expr) :
    ReadsSame D (evalExpr host [lane] e lane) (exprReads host lane e) := by
  have hslice : subgroupSlice [lane] lane.linearLocalIndex = [] ∨
      subgroupSlice [lane] lane.linearLocalIndex = [lane] := by
    unfold subgroupSlice
    cases lane.linearLocalIndex.toNat / subgroupWidth * subgroupWidth with
    | zero => exact .inr rfl
    | succ start => exact .inl (by simp)
  have hone : ∀ {α : Type} (f : Lane → Eval α), [lane].mapM f = f lane >>= fun a => pure [a] := by
    intro α f
    simp only [mapM_cons, mapM_nil, pure_bind]
  induction e with
  | load buffer index ih => exact ih.bind fun v => readsSame_load
  | bufLen buffer => exact readsSame_bufLen
  | binOp op left right ihl ihr => exact ihl.bind fun _ => ihr.last fun _ => .lift _
  | unOp op operand ih | cast target operand ih => exact ih.last fun _ => .lift _
  | select a b c iha ihb ihc => exact iha.bind fun _ => ihb.bind fun _ => ihc.last fun _ => .pure _
  | fma a b c iha ihb ihc =>
    exact iha.bind fun _ => .orFail_bind fun _ _ => ihb.bind fun _ => .orFail_bind fun _ _ =>
      ihc.last fun _ => .orFail_bind fun _ _ => .pure _
  | call opId args ih =>
    refine .lift_bind fun op => ?_
    unfold validateArity
    split_ifs with hlength
    · exact .lift_bind fun _ => (readsSame_encodeInputs hlength ih).last fun _ =>
        .lift_bind fun _ => .pure _
    · exact .fail _
  | atomic _ _ _ expected _ _ ihi ihe ihv =>
    have hexpected : ReadsSame D (evalExpected host [lane] expected lane)
        (expectedReads host lane expected) := by
      cases expected with
      | none => exact .pure _
      | some e => exact (ihe e rfl).last fun _ => .orFail_bind fun _ _ => .pure _
    exact .lift_bind fun _ => ihi.bind fun i => .orFail_bind fun idx hidx => hexpected.bind
      fun _ => ihv.bind fun _ => .orFail_bind fun _ _ => readsSame_atomicRmw hidx
  | subgroupBallot cond ih =>
    rcases hslice with hslice | hslice <;> simp only [evalExpr, exprReads, hslice]
    · exact .pure _
    · rw [hone, if_neg (by simp), bind_assoc]
      exact ih.last fun _ => .pure _
  | subgroupAdd value ih =>
    rcases hslice with hslice | hslice <;> simp only [evalExpr, exprReads, hslice]
    · simp only [mapM_nil, pure_bind, ↓reduceIte]
      exact .lift _
    · rw [hone, if_neg (by simp), bind_assoc]
      exact ih.last fun _ => .lift _
  | subgroupShuffle value src ihv ihs =>
    rcases hslice with hslice | hslice <;> simp only [evalExpr, exprReads, hslice]
    · simp only [mapM_nil, pure_bind, ↓reduceIte]
      exact .lift _
    · rw [hone, hone, if_neg (by simp)]
      simp only [bind_assoc, pure_bind]
      exact ihv.bind fun _ => ihs.last fun _ => .orFail_bind fun _ _ => .lift _
  | litU32 | litI32 | litF32 | litBool => exact .pure _
  | var name => exact .orFail _ _
  | invocationId axis | workgroupId axis | localId axis => exact .lift _
  | subgroupLocalId | subgroupSize | ext => exact .fail _

end Same

/-! ## The reads of statements -/

section Statements

variable (host : Host)

/-- The read of a transfer of bytes from a buffer. -/
def transferRead (source : Ident) (start : Nat) (count : Value) : Trace := fun m =>
  match count.tryAsU64 host.floats, m.find source with
  | some n, some b =>
      [⟨⟨source, start, n.toNat⟩, .bytes ((b.bytes.drop start).take n.toNat)⟩]
  | _, _ => []

/-- What a statement without a body reads. -/
def plainReads (t : Thread) : Node → Trace
  | .letBind _ e | .assign _ e | .trap e _ => exprReads host t.lane e
  | .store _ index value => thenReads (exprReads host t.lane index)
      (evalExpr host [t.lane] index t.lane) fun _ => exprReads host t.lane value
  | .asyncLoad source _ offset size _ => thenReads (exprReads host t.lane offset)
      (evalExpr host [t.lane] offset t.lane) fun o => thenReads (exprReads host t.lane size)
      (evalExpr host [t.lane] size t.lane)
      (transferRead host source ((o.tryAsU64 host.floats).getD 0).toNat)
  | .asyncStore source _ offset size _ => thenReads (exprReads host t.lane offset)
      (evalExpr host [t.lane] offset t.lane) fun _ => thenReads (exprReads host t.lane size)
      (evalExpr host [t.lane] size t.lane) (transferRead host source 0)
  | _ => noReads

def loopReads (body : Thread → Eval (Outcome Thread)) (reads : Thread → Trace) (var : Ident) :
    Nat → UInt32 → Thread → Trace
  | 0, _, _ => noReads
  | left + 1, next, t =>
      match t.bindLoopVar var (.u32 next) with
      | .error _ => noReads
      | .ok entered => thenReads (reads entered) (body entered) fun out =>
          match out with
          | .next t' => loopReads body reads var left (next + 1) (t.leave t')
          | .returned _ => noReads

variable (skip : List Node → Node → Bool)

mutual

/-- What a statement reads when it is run. -/
def nodeReads : Node → Thread → Trace
  | .ifThen cond thenNodes otherwise, t => thenReads (exprReads host t.lane cond)
      (evalExpr host [t.lane] cond t.lane) fun v =>
        if v.truthy host.floats then nodesReads thenNodes t else nodesReads otherwise t
  | .loop var lo hi body, t => thenReads
      (thenReads (exprReads host t.lane lo) (evalExpr host [t.lane] lo t.lane)
        fun _ => exprReads host t.lane hi)
      (loopBounds host [t.lane] t.lane lo hi) fun bounds =>
        loopReads (runNodes host body) (nodesReads body) var
          (bounds.2.toNat - bounds.1.toNat) bounds.1 t
  | .block body, t => nodesReads body t
  | .region _ _ body, t => nodesReads body t
  | n, t => plainReads host t n

/-- What the statements of a body read, without those that `skip` leaves out given
the statements after them. -/
def nodesReads : List Node → Thread → Trace
  | [], _ => noReads
  | n :: ns, t => thenReads (if skip ns n then noReads else nodeReads n t) (runNode host n t)
      fun out => match out with
        | .next t' => nodesReads ns t'
        | .returned _ => noReads

end

variable {host} {D : Ident → Nat → Prop} {ρ : Route}

theorem readsSame_storeElement (buffer : Ident) (idx : UInt32) (v : Value) :
    ReadsSame D (storeElement host.floats buffer idx v) noReads := by
  intro m m' a m₁ hm _ hrun
  obtain ⟨b, hb, rfl⟩ := storeElement_eq_ok.mp hrun
  obtain ⟨b', hb', hnear⟩ := hm.find hb
  exact ⟨_, storeElement_eq_ok.mpr ⟨b', hb', rfl⟩,
    hm.update ((hnear.store v).mono fun p hp => hp.1) fun _ _ _ => id, rfl⟩

theorem readsSame_applyAsyncTransfer (transfer : Transfer) :
    ReadsSame D (applyAsyncTransfer transfer) noReads := by
  intro m m' a m₁ hm _ hrun
  simp only [applyAsyncTransfer, bind_eq_ok, lift_eq_ok, resolveBuffer_eq_ok] at hrun ⊢
  obtain ⟨_, _, ⟨⟩, b, _, ⟨hb, rfl⟩, hrun⟩ := hrun
  obtain ⟨b', hb', hnear⟩ := hm.find hb
  split at hrun <;> rename_i hstart <;> cases hrun
  · refine ⟨_, ⟨m', m', rfl, b', m', ⟨hb', rfl⟩, by rw [hnear.length, if_pos hstart]; rfl⟩,
      hm.update ((hnear.overwrite ?_).mono fun p hp => hp.1) fun _ _ _ => id, rfl⟩
    rw [length_take]
    omega
  · exact ⟨m', ⟨m', m', rfl, b', m', ⟨hb', rfl⟩, by rw [hnear.length, if_neg hstart]; rfl⟩, hm, rfl⟩

theorem readsSame_transfer {α : Type} {source destination : Ident} {start : Nat} {count : Value}
    {n : UInt64} (hn : count.tryAsU64 host.floats = some n) (k : List UInt8 → Except Error α) :
    ReadsSame D (get >>= fun m => Eval.lift (readBytes m source start n.toNat) >>= fun payload =>
      Eval.lift (m.resolveBuffer destination) >>= fun _ => Eval.lift (k payload))
      (transferRead host source start count) := by
  intro m m' a m₁ hm hreads hrun
  simp only [readBytes, bind_eq_ok, lift_eq_ok, resolveBuffer_eq_ok, ByteCodec.bind_eq_ok] at hrun ⊢
  obtain ⟨_, _, ⟨⟩, payload, _, ⟨⟨b, hb, ⟨⟩⟩, rfl⟩, c, _, ⟨hc, rfl⟩, hk, rfl⟩ := hrun
  obtain ⟨b', hb', hnear⟩ := hm.find hb
  obtain ⟨c', hc', -⟩ := hm.find hc
  simp only [transferRead, hn, hb, hb', mem_singleton, forall_eq] at hreads ⊢
  have hslice : (b'.bytes.drop start).take n.toNat = (b.bytes.drop start).take n.toNat :=
    hnear.slice fun p hlow hhigh => hreads source p ⟨rfl, hlow, hhigh⟩
  refine ⟨m', ⟨m', m', rfl, _, m', ⟨⟨b', hb', rfl⟩, rfl⟩, c', m', ⟨hc', rfl⟩, ?_, rfl⟩, hm, ?_⟩
  · rw [hslice, hk]
  · rw [hslice]

/-- A statement without a body that does not read the difference runs the same. -/
theorem readsSame_plain {n : Node} (hn : hasBody n = false) (π : Plan) (t : Thread) :
    ReadsSame D (runNode (ρ.on π) n t) (plainReads ρ.host t n) := by
  cases n with
  | letBind name e | assign name e =>
    exact (readsSame_evalExpr e).last fun _ => .lift_bind fun _ => .pure _
  | ifThen | loop | block | region => cases hn
  | ret => exact .pure _
  | store buffer index value =>
    refine .last ?_ fun _ => .pure _
    exact (readsSame_evalExpr index).bind fun _ => .orFail_bind fun _ _ =>
      (readsSame_evalExpr value).last fun _ => (readsSame_storeElement _ _ _).last fun _ => .pure _
  | asyncLoad _ _ offset size _ =>
    refine .last ?_ fun _ => .pure _
    refine (readsSame_evalExpr offset).bind fun o => ?_
    simp only [toByteCount, bind_assoc, pure_bind]
    refine .orFail_bind fun start hstart => (readsSame_evalExpr size).bind fun _ =>
      .orFail_bind fun n hn => ?_
    rw [Route.on_host] at hstart hn
    rw [hstart]
    exact readsSame_transfer hn _
  | asyncStore _ _ offset size _ =>
    refine .last ?_ fun _ => .pure _
    refine (readsSame_evalExpr offset).bind fun o => ?_
    simp only [toByteCount, bind_assoc, pure_bind]
    exact .orFail_bind fun start hstart => (readsSame_evalExpr size).bind fun _ =>
      .orFail_bind fun n hn => readsSame_transfer hn _
  | asyncWait tag =>
    refine .last ?_ fun _ => .pure _
    exact .lift_bind fun _ => (readsSame_applyAsyncTransfer _).last fun _ => .pure _
  | trap address tag =>
    refine .last ?_ fun _ => .pure _
    exact (readsSame_evalExpr address).last fun _ => .orFail_bind fun _ _ => .fail _
  | barrier ordering =>
    refine .last ?_ fun _ => .pure _
    exact .pure _
  | indirectDispatch buffer offset =>
    refine .last ?_ fun _ => .pure _
    simp only [executeNode]
    split <;> exact .fail _
  | _ =>
    refine .last ?_ fun _ => .pure _
    exact .fail _

end Statements

end Vyre.Reference
