import Mathlib.Data.Nat.Bitwise
import Mathlib.Data.List.Basic
import Mathlib.Tactic.Ring

/-!
# Byte readers and the integers they read

A reader is a state-and-error computation over a cursor: the bytes still to be
read and a nesting counter. `Reads p c a c'` says that `p` succeeds at `c` with
value `a` and leaves `c'`; its rules for `pure`, `bind` and the primitives are
simp lemmas, so that a reader applied to the bytes a writer produced is
evaluated by `simp`, and a successful run is taken apart the same way.

Little-endian and LEB128 integers come with both directions of the round trip.
-/

namespace ByteCodec

open List

structure Cursor where
  rest : List UInt8
  depth : Nat
  deriving DecidableEq

abbrev Get (ε : Type) := StateT Cursor (Except ε)

variable {ε α β : Type}

variable {x : Except ε α}

@[simp] theorem bind_eq_ok {f : α → Except ε β} {b : β} :
    (x >>= f) = .ok b ↔ ∃ a, x = .ok a ∧ f a = .ok b := by
  cases x with
  | error e | ok a => simp [Bind.bind, Except.bind]

variable {b a : α} {c c' : Cursor} {p : Get ε α} {v d n k acc shift top : Nat} {short : ε}
  {bs rest : List UInt8} {as : List α} {minimal : Bool}

@[simp] theorem pure_eq_ok : (pure a : Except ε α) = .ok b ↔ a = b := by
  simp [pure, Except.pure]

@[simp] theorem map_eq_ok {f : α → β} {b : β} :
    f <$> x = .ok b ↔ ∃ a, x = .ok a ∧ f a = b := by
  cases x with
  | error e | ok a => simp

theorem ite_error_eq_ok {q : Prop} [Decidable q] {e : ε} :
    (if q then Except.ok a else .error e) = .ok b ↔ q ∧ b = a := by
  by_cases hq : q
  · simp [hq, eq_comm]
  · simp [hq]

theorem error_ite_eq_ok {q : Prop} [Decidable q] {e : ε} :
    (if q then .error e else x) = .ok a ↔ ¬ q ∧ x = .ok a := by
  by_cases hq : q <;> simp [hq]

/-- `p` succeeds at `c`, returns `a` and stops at `c'`. -/
def Reads (p : Get ε α) (c : Cursor) (a : α) (c' : Cursor) : Prop :=
  p.run c = .ok (a, c')

@[simp] theorem reads_pure : Reads (pure a : Get ε α) c b c' ↔ c' = c ∧ b = a := by
  constructor
  · intro h
    cases h
    exact ⟨rfl, rfl⟩
  · rintro ⟨rfl, rfl⟩
    rfl

@[simp] theorem reads_bind {f : α → Get ε β} {b : β} :
    Reads (p >>= f) c b c' ↔ ∃ a m, Reads p c a m ∧ Reads (f a) m b c' := by
  simp only [Reads, StateT.run_bind]
  cases h : p.run c with
  | error e => simp
  | ok r =>
    obtain ⟨a, m⟩ := r
    simp

@[simp] theorem reads_map {f : α → β} {b : β} :
    Reads (f <$> p) c b c' ↔ ∃ a, Reads p c a c' ∧ b = f a := by
  rw [← bind_pure_comp, reads_bind]
  simp

/-- Fails with `e`. -/
def fail (e : ε) : Get ε α := fun _ => .error e

@[simp] theorem reads_fail {e : ε} : Reads (fail e : Get ε α) c a c' ↔ False := by
  simp [Reads, fail, StateT.run]

/-- Fails with `e` unless `ok`. -/
def check (ok : Bool) (e : ε) : Get ε Unit :=
  fun c => if ok then .ok ((), c) else .error e

@[simp] theorem reads_check {ok : Bool} {e : ε} {u : Unit} :
    Reads (check ok e) c u c' ↔ ok = true ∧ c' = c := by
  cases ok
  · simp [Reads, check, StateT.run]
  · simp [Reads, check, StateT.run, eq_comm]

@[simp] theorem reads_ite {q : Prop} [Decidable q] {p' : Get ε α} :
    Reads (if q then p else p') c a c' ↔ if q then Reads p c a c' else Reads p' c a c' := by
  split <;> rfl

def lift (r : Except ε α) : Get ε α := fun c => r.map (·, c)

@[simp] theorem reads_lift {r : Except ε α} : Reads (lift r) c a c' ↔ c' = c ∧ r = .ok a := by
  cases r with
  | error e => simp [Reads, lift, StateT.run, Except.map]
  | ok b =>
    simp only [Reads, lift, StateT.run, Except.map, Except.ok.injEq, Prod.mk.injEq]
    constructor
    · rintro ⟨rfl, rfl⟩
      exact ⟨rfl, rfl⟩
    · rintro ⟨rfl, rfl⟩
      exact ⟨rfl, rfl⟩

theorem run_fst_eq_ok : (p.run c).map Prod.fst = .ok a ↔ ∃ c', Reads p c a c' := by
  unfold Reads
  cases p.run c with
  | error e => simp [Except.map]
  | ok r =>
    obtain ⟨b, c'⟩ := r
    simp [Except.map]

/-- A run is determined by its start. -/
theorem Reads.unique {c₁ c₂ : Cursor} (h₁ : Reads p c a c₁) (h₂ : Reads p c b c₂) :
    a = b ∧ c₁ = c₂ := by
  rw [Reads, h₁] at h₂
  cases h₂
  exact ⟨rfl, rfl⟩

/-- A reader that finds two pieces of input at the start of the same bytes found
the same piece. -/
theorem Reads.append_inj {u v x y : List UInt8} (hu : Reads p ⟨u ++ x, d⟩ a ⟨x, d⟩)
    (hv : Reads p ⟨v ++ y, d⟩ b ⟨y, d⟩) (h : u ++ x = v ++ y) : a = b ∧ x = y := by
  rw [h] at hu
  obtain ⟨hab, hxy⟩ := hu.unique hv
  exact ⟨hab, congrArg Cursor.rest hxy⟩

/-! ## Taking bytes -/

/-- The next `n` bytes, or `short` when fewer remain. -/
def take (short : ε) (n : Nat) : Get ε (List UInt8) := fun c =>
  if n ≤ c.rest.length then .ok (c.rest.take n, { c with rest := c.rest.drop n })
  else .error short

theorem reads_take :
    Reads (take short n) c bs c' ↔
      bs.length = n ∧ c.rest = bs ++ c'.rest ∧ c'.depth = c.depth := by
  obtain ⟨rest, d⟩ := c
  simp only [Reads, take, StateT.run]
  constructor
  · intro h
    split at h
    · cases h
      exact ⟨by rw [length_take]; omega, by simp, rfl⟩
    · cases h
  · rintro ⟨hn, rfl, rfl⟩
    subst hn
    simp

@[simp] theorem reads_take_append {as : List UInt8} (h : bs.length = n) :
    Reads (take short n) ⟨bs ++ rest, d⟩ as c' ↔ c' = ⟨rest, d⟩ ∧ as = bs := by
  rw [reads_take]
  constructor
  · rintro ⟨hl, happ, hd⟩
    obtain ⟨h1, h2⟩ := append_inj happ (by omega)
    obtain ⟨r', d'⟩ := c'
    simp only at h2 hd
    exact ⟨by rw [h2, hd], h1.symm⟩
  · rintro ⟨rfl, rfl⟩
    exact ⟨h, rfl, rfl⟩

def byte (short : ε) : Get ε UInt8 := fun c =>
  match c.rest with
  | [] => .error short
  | b :: rest => .ok (b, { c with rest })

@[simp] theorem reads_byte_cons {b a : UInt8} :
    Reads (byte short) ⟨b :: rest, d⟩ a c' ↔ c' = ⟨rest, d⟩ ∧ a = b := by
  simp only [Reads, byte, StateT.run, Except.ok.injEq, Prod.mk.injEq]
  exact ⟨fun ⟨h, h'⟩ => ⟨h'.symm, h.symm⟩, fun ⟨h', h⟩ => ⟨h.symm, h'.symm⟩⟩

theorem reads_byte {a : UInt8} :
    Reads (byte short) c a c' ↔ c.rest = a :: c'.rest ∧ c'.depth = c.depth := by
  obtain ⟨rest, d⟩ := c
  obtain ⟨rest', d'⟩ := c'
  cases rest with
  | nil => simp [Reads, byte, StateT.run]
  | cons b rest =>
    simp only [reads_byte_cons]
    grind

/-- Runs `p` on a slice of its own, from nesting 0, and requires that it consume
all of it. -/
def within (slice : List UInt8) (p : Get ε α) (trailing : ε) : Get ε α := fun c =>
  match p.run ⟨slice, 0⟩ with
  | .error e => .error e
  | .ok (a, stop) => if stop.rest = [] then .ok (a, c) else .error trailing

theorem reads_within {slice : List UInt8} {trailing : ε} :
    Reads (within slice p trailing) c a c' ↔
      c' = c ∧ ∃ d, Reads p ⟨slice, 0⟩ a ⟨[], d⟩ := by
  simp only [Reads, within, StateT.run]
  split
  · rename_i e h
    simp [h]
  · rename_i b stop h
    obtain ⟨rest, d⟩ := stop
    grind

/-- Runs `p` `n` times. -/
def many (p : Get ε α) : Nat → Get ε (List α)
  | 0 => pure []
  | n + 1 => do
      let a ← p
      let as ← many p n
      return a :: as

@[simp] theorem reads_many_zero : Reads (many p 0) c as c' ↔ c' = c ∧ as = [] := by
  simp [many]

@[simp] theorem reads_many_succ :
    Reads (many p (n + 1)) c as c' ↔
      ∃ a m, Reads p c a m ∧ ∃ tail, Reads (many p n) m tail c' ∧ as = a :: tail := by
  simp only [many, bind_pure_comp, reads_bind, reads_map]

theorem Reads.many_length (h : Reads (many p n) c as c') : as.length = n := by
  induction n generalizing c as with
  | zero => simp [(reads_many_zero.mp h).2]
  | succ n ih =>
    obtain ⟨a, m, -, tail, ht, rfl⟩ := reads_many_succ.mp h
    simp [ih ht]

/-- Reading back a list whose members `p` reads back one by one. -/
theorem reads_many_flatMap {γ : Type} {bytes : γ → List UInt8}
    {ok : γ → Prop} {val : γ → α} {xs : List γ}
    (h : ∀ x ∈ xs, ∀ rest a c', Reads p ⟨bytes x ++ rest, d⟩ a c' ↔
      ok x ∧ c' = ⟨rest, d⟩ ∧ a = val x)
    :
    Reads (many p xs.length) ⟨xs.flatMap bytes ++ rest, d⟩ as c' ↔
      (∀ x ∈ xs, ok x) ∧ c' = ⟨rest, d⟩ ∧ as = xs.map val := by
  induction xs generalizing as with
  | nil => simp
  | cons x xs ih =>
    have hx := h x (by simp)
    have ih' := fun tail => @ih tail fun y hy => h y (by simp [hy])
    simp only [length_cons, flatMap_cons, append_assoc, reads_many_succ, hx,
      mem_cons, forall_eq_or_imp]
    constructor
    · rintro ⟨a, m, ⟨hok, rfl, rfl⟩, tail, ht, rfl⟩
      obtain ⟨hall, rfl, rfl⟩ := (ih' tail).mp ht
      exact ⟨⟨hok, hall⟩, rfl, rfl⟩
    · rintro ⟨⟨hok, hall⟩, rfl, rfl⟩
      exact ⟨_, _, ⟨hok, rfl, rfl⟩, _, (ih' _).mpr ⟨hall, rfl, rfl⟩, rfl⟩

/-- What `many` accepted, given what each run of `p` with a value in `pre`
consumes. -/
theorem Reads.many_inv {bytes : α → List UInt8} {pre ok : α → Prop}
    (h : ∀ {c a c'}, pre a → Reads p c a c' → ok a ∧ c.rest = bytes a ++ c'.rest)
    (hpre : ∀ a ∈ as, pre a) (hr : Reads (many p n) c as c') :
    (∀ a ∈ as, ok a) ∧ c.rest = as.flatMap bytes ++ c'.rest := by
  induction n generalizing c as with
  | zero =>
    obtain ⟨rfl, rfl⟩ := reads_many_zero.mp hr
    simp
  | succ n ih =>
    obtain ⟨a, m, ha, tail, ht, rfl⟩ := reads_many_succ.mp hr
    obtain ⟨hok, hrest⟩ := h (hpre a (by simp)) ha
    obtain ⟨hall, hrest'⟩ := ih (fun b hb => hpre b (by simp [hb])) ht
    refine ⟨forall_mem_cons.mpr ⟨hok, hall⟩, ?_⟩
    rw [hrest, hrest', flatMap_cons, append_assoc]

def utf8 (s : String) : List UInt8 := s.toByteArray.data.toList

def ofUtf8 (bs : List UInt8) : Option String := String.fromUTF8? ⟨bs.toArray⟩

theorem ofUtf8_eq_some {s : String} : ofUtf8 bs = some s ↔ bs = utf8 s := by
  unfold ofUtf8 String.fromUTF8?
  constructor
  · intro h
    split at h
    · cases h
      rfl
    · cases h
  · rintro rfl
    rw [dif_pos (show ByteArray.IsValidUTF8 ⟨(utf8 s).toArray⟩ from s.isValidUTF8)]
    rfl

@[simp] theorem ofUtf8_utf8 (s : String) : ofUtf8 (utf8 s) = some s := ofUtf8_eq_some.mpr rfl

/-! ## Little-endian integers -/

/-- `n` modulo `256 ^ k`, as `k` bytes, least significant first. -/
def leBytes : Nat → Nat → List UInt8
  | 0, _ => []
  | k + 1, n => UInt8.ofNat n :: leBytes k (n / 256)

def ofLeBytes : List UInt8 → Nat
  | [] => 0
  | b :: bs => b.toNat + 256 * ofLeBytes bs

@[simp] theorem leBytes_length (k n : Nat) : (leBytes k n).length = k := by
  induction k generalizing n with
  | zero => rfl
  | succ k ih => simp [leBytes, ih]

theorem ofLeBytes_lt (bs : List UInt8) : ofLeBytes bs < 256 ^ bs.length := by
  induction bs with
  | nil => simp [ofLeBytes]
  | cons b bs ih =>
    have hb := b.toNat_lt
    simp only [ofLeBytes, length_cons]
    omega

theorem ofLeBytes_leBytes (h : n < 256 ^ k) : ofLeBytes (leBytes k n) = n := by
  induction k generalizing n with
  | zero => simp only [Nat.pow_zero] at h; simp only [leBytes, ofLeBytes]; omega
  | succ k ih =>
    have hdiv : n / 256 < 256 ^ k := by
      omega
    simp only [leBytes, ofLeBytes, ih hdiv, UInt8.toNat_ofNat']
    omega

theorem leBytes_ofLeBytes (bs : List UInt8) : leBytes bs.length (ofLeBytes bs) = bs := by
  induction bs with
  | nil => rfl
  | cons b bs ih =>
    have hb := b.toNat_lt
    have hlow : UInt8.ofNat (b.toNat + 256 * ofLeBytes bs) = b := by
      apply UInt8.toNat_inj.mp
      rw [UInt8.toNat_ofNat']
      omega
    have hhigh : (b.toNat + 256 * ofLeBytes bs) / 256 = ofLeBytes bs := by omega
    simp only [length_cons, leBytes, ofLeBytes, hlow, hhigh, ih]

/-! ## LEB128

Seven bits a byte, least significant group first, bit 7 set on every byte but
the last. -/

/-- The LEB128 spelling of `n`, at most `k` bytes of it. -/
def lebBytes : Nat → Nat → List UInt8
  | 0, _ => []
  | k + 1, n =>
      if n / 128 = 0 then [UInt8.ofNat n]
      else UInt8.ofNat (n % 128 + 128) :: lebBytes k (n / 128)

theorem lebBytes_length_le (k n : Nat) : (lebBytes k n).length ≤ k := by
  induction k generalizing n with
  | zero => simp [lebBytes]
  | succ k ih =>
    rw [lebBytes]
    split
    · simp
    · simpa using ih (n / 128)

/-- The failures of a LEB128 reader. -/
structure LebErrors (ε : Type) where
  short : ε
  overflow : ε
  unterminated : ε
  overlong : ε

/-- Reads at most `k` more bytes of a LEB128 integer into `acc` at bit `shift`;
the last allowed byte is at most `top`. With `minimal`, a spelling that ends in
a zero group is refused. -/
def leb (e : LebErrors ε) (minimal : Bool) (top : Nat) : Nat → Nat → Nat → Get ε Nat
  | 0, _, _ => fail e.unterminated
  | k + 1, shift, acc => do
      let b ← byte e.short
      check (k != 0 || b.toNat ≤ top) e.overflow
      let acc := acc ||| ((b.toNat &&& 0x7F) <<< shift)
      if b.toNat &&& 0x80 = 0 then do
        check (!minimal || shift == 0 || b != 0) e.overlong
        return acc
      else leb e minimal top k (shift + 7) acc

theorem and_127 (n : Nat) : n &&& 0x7F = n % 128 := Nat.and_two_pow_sub_one_eq_mod n 7

theorem and_128_eq_zero (h : n < 256) : n &&& 0x80 = 0 ↔ n < 128 := by
  have hall : ∀ i : Fin 256, i.val &&& 0x80 = 0 ↔ i.val < 128 := by decide +kernel
  exact hall ⟨n, h⟩

theorem or_shiftLeft (g : Nat) (h : acc < 2 ^ shift) :
    acc ||| (g <<< shift) = acc + g * 2 ^ shift := by
  rw [Nat.shiftLeft_eq, Nat.mul_comm g, Nat.or_comm, ← Nat.two_pow_add_eq_or_of_lt h]
  omega

variable {e : LebErrors ε}

theorem reads_leb_succ (hacc : acc < 2 ^ shift) :
    Reads (leb e minimal top (k + 1) shift acc) c v c' ↔
      ∃ b m, Reads (byte e.short) c b m ∧ (k ≠ 0 ∨ b.toNat ≤ top) ∧
        if b.toNat < 128 then
          ((minimal = false ∨ shift = 0) ∨ b ≠ 0) ∧
            c' = m ∧ v = acc + b.toNat % 128 * 2 ^ shift
        else Reads (leb e minimal top k (shift + 7) (acc + b.toNat % 128 * 2 ^ shift)) m v c' := by
  have hbit : ∀ b : UInt8, (b.toNat &&& 128 = 0) = (b.toNat < 128) := fun b =>
    propext (and_128_eq_zero b.toNat_lt)
  have hgroup : ∀ b : UInt8,
      acc ||| ((b.toNat &&& 127) <<< shift) = acc + b.toNat % 128 * 2 ^ shift := fun b => by
    rw [and_127, or_shiftLeft _ hacc]
  simp only [leb, reads_bind, reads_check, reads_ite, reads_pure, hbit, hgroup]
  constructor
  · rintro ⟨b, m, hb, u, m', ⟨htop, rfl⟩, h⟩
    refine ⟨b, m', hb, by simpa using htop, ?_⟩
    split at h
    · rename_i hlt
      obtain ⟨u', m'', ⟨hmin, rfl⟩, rfl, rfl⟩ := h
      rw [if_pos hlt]
      exact ⟨by simpa using hmin, rfl, rfl⟩
    · rename_i hlt
      rwa [if_neg hlt]
  · rintro ⟨b, m, hb, htop, h⟩
    refine ⟨b, m, hb, (), m, ⟨by simpa using htop, rfl⟩, ?_⟩
    split at h
    · rename_i hlt
      obtain ⟨hmin, rfl, rfl⟩ := h
      rw [if_pos hlt]
      exact ⟨(), c', ⟨by simpa using hmin, rfl⟩, rfl, rfl⟩
    · rename_i hlt
      rwa [if_neg hlt]

theorem leb_acc_lt (g : Nat) (h : acc < 2 ^ shift) :
    acc + g % 128 * 2 ^ shift < 2 ^ (shift + 7) := by
  have hg : g % 128 ≤ 127 := by omega
  have := Nat.mul_le_mul_right (2 ^ shift) hg
  rw [Nat.pow_add]
  omega

theorem leb_split (acc n shift : Nat) :
    acc + n * 2 ^ shift = acc + n % 128 * 2 ^ shift + n / 128 * 2 ^ (shift + 7) := by
  calc acc + n * 2 ^ shift = acc + (128 * (n / 128) + n % 128) * 2 ^ shift := by
        rw [Nat.div_add_mod]
    _ = acc + n % 128 * 2 ^ shift + n / 128 * 2 ^ (shift + 7) := by
        rw [Nat.pow_add]; ring

theorem reads_leb_last (hacc : acc < 2 ^ shift) (hn : n < 128) (htop : k ≠ 0 ∨ n ≤ top)
    (hpos : shift ≠ 0 → n ≠ 0) :
    Reads (leb e minimal top (k + 1) shift acc) ⟨UInt8.ofNat n :: rest, d⟩ v c' ↔
      c' = ⟨rest, d⟩ ∧ v = acc + n * 2 ^ shift := by
  have hb : (UInt8.ofNat n).toNat = n := by rw [UInt8.toNat_ofNat']; omega
  have hz : (minimal = false ∨ shift = 0) ∨ UInt8.ofNat n ≠ 0 := by
    by_cases hs : shift = 0
    · exact .inl (.inr hs)
    · refine .inr (fun h => hpos hs ?_)
      have := congrArg UInt8.toNat h
      rwa [hb] at this
  rw [reads_leb_succ hacc]
  simp only [reads_byte_cons]
  constructor
  · rintro ⟨b, m, ⟨rfl, rfl⟩, -, h⟩
    rw [hb, if_pos hn, Nat.mod_eq_of_lt hn] at h
    exact ⟨h.2.1, h.2.2⟩
  · rintro ⟨rfl, rfl⟩
    refine ⟨_, _, ⟨rfl, rfl⟩, by rwa [hb], ?_⟩
    rw [hb, if_pos hn, Nat.mod_eq_of_lt hn]
    exact ⟨hz, rfl, rfl⟩

/-- Reading what `lebBytes` wrote: the value is recovered whether or not the
reader insists on minimal spellings. -/
theorem reads_leb_lebBytes (htop : top < 128) (hacc : acc < 2 ^ shift)
    (hn : n < 128 ^ k * (top + 1)) (hpos : shift ≠ 0 → n ≠ 0) :
    Reads (leb e minimal top (k + 1) shift acc) ⟨lebBytes (k + 1) n ++ rest, d⟩ v c' ↔
      c' = ⟨rest, d⟩ ∧ v = acc + n * 2 ^ shift := by
  -- induction on the bytes still allowed; the accumulator bound is the invariant
  induction k generalizing shift acc n with
  | zero =>
    have hn' : n ≤ top := by simpa [Nat.lt_succ_iff] using hn
    rw [lebBytes, if_pos (by omega), cons_append, nil_append,
      reads_leb_last hacc (by omega) (.inr hn') hpos]
  | succ k ih =>
    rw [lebBytes]
    by_cases h0 : n / 128 = 0
    · rw [if_pos h0, cons_append, nil_append,
        reads_leb_last hacc (by omega) (.inl (by omega)) hpos]
    · have hb : (UInt8.ofNat (n % 128 + 128)).toNat = n % 128 + 128 := by
        rw [UInt8.toNat_ofNat']; omega
      have hdiv : n / 128 < 128 ^ k * (top + 1) := by
        apply Nat.div_lt_of_lt_mul
        calc n < 128 ^ (k + 1) * (top + 1) := hn
          _ = 128 * (128 ^ k * (top + 1)) := by ring
      have hmod : (n % 128 + 128) % 128 = n % 128 := by omega
      rw [reads_leb_succ hacc, leb_split acc n, ← ih (leb_acc_lt n hacc) hdiv (fun _ => h0)]
      simp only [if_neg h0, cons_append, reads_byte_cons]
      constructor
      · rintro ⟨b, m, ⟨rfl, rfl⟩, -, h⟩
        rwa [hb, hmod] at h
      · intro h
        refine ⟨_, _, ⟨rfl, rfl⟩, .inl (by omega), ?_⟩
        rwa [hb, hmod]

theorem lebBytes_byte {b : UInt8} (h : b.toNat < 128) : lebBytes (k + 1) b.toNat = [b] := by
  rw [lebBytes, if_pos (by omega)]
  simp

theorem lebBytes_byte_cons {b : UInt8} (h : ¬ b.toNat < 128) (hn : n ≠ 0) :
    lebBytes (k + 1) (n * 128 + b.toNat % 128) = b :: lebBytes k n := by
  have hback : UInt8.ofNat ((n * 128 + b.toNat % 128) % 128 + 128) = b := by
    have := b.toNat_lt
    apply UInt8.toNat_inj.mp
    rw [UInt8.toNat_ofNat']
    omega
  rw [lebBytes, if_neg (by omega), hback,
    show (n * 128 + b.toNat % 128) / 128 = n by omega]

/-- What a reader that insists on minimal spellings accepted is what `lebBytes`
writes. -/
theorem Reads.leb_minimal (htop : top < 128) (hacc : acc < 2 ^ shift)
    (h : Reads (leb e true top (k + 1) shift acc) c v c') :
    ∃ n, v = acc + n * 2 ^ shift ∧ n < 128 ^ k * (top + 1) ∧ (shift ≠ 0 → n ≠ 0) ∧
      c.rest = lebBytes (k + 1) n ++ c'.rest ∧ c'.depth = c.depth := by
  induction k generalizing shift acc c with
  | zero =>
    obtain ⟨b, m, hb, hk, h⟩ := (reads_leb_succ hacc).mp h
    have hlt : b.toNat < 128 := by omega
    rw [if_pos hlt] at h
    obtain ⟨hz, rfl, rfl⟩ := h
    obtain ⟨hrest, hd⟩ := reads_byte.mp hb
    refine ⟨b.toNat, by rw [Nat.mod_eq_of_lt hlt], by simp; omega, ?_, ?_, hd⟩
    · rintro hs h0
      have hb0 : b = 0 := UInt8.toNat_inj.mp h0
      simp [hs, hb0] at hz
    · rw [hrest, lebBytes_byte hlt]
      rfl
  | succ k ih =>
    obtain ⟨b, m, hb, -, h⟩ := (reads_leb_succ hacc).mp h
    obtain ⟨hrest, hd⟩ := reads_byte.mp hb
    split_ifs at h with hlt
    · obtain ⟨hz, rfl, rfl⟩ := h
      have hpow : 128 ≤ 128 ^ (k + 1) * (top + 1) := by
        calc 128 = 128 ^ 1 * 1 := rfl
          _ ≤ 128 ^ (k + 1) * (top + 1) :=
            Nat.mul_le_mul (Nat.pow_le_pow_right (by omega) (by omega)) (by omega)
      refine ⟨b.toNat, by rw [Nat.mod_eq_of_lt hlt], by omega, ?_, ?_, hd⟩
      · rintro hs h0
        have hb0 : b = 0 := UInt8.toNat_inj.mp h0
        simp [hs, hb0] at hz
      · rw [hrest, lebBytes_byte hlt]
        rfl
    · obtain ⟨n, rfl, hn, hpos, hrest', hd'⟩ := ih (leb_acc_lt b.toNat hacc) h
      have hn0 : n ≠ 0 := hpos (by omega)
      refine ⟨n * 128 + b.toNat % 128, ?_, ?_, fun _ => by omega, ?_, by rw [hd', hd]⟩
      · rw [leb_split acc (n * 128 + b.toNat % 128),
          show (n * 128 + b.toNat % 128) % 128 = b.toNat % 128 by omega,
          show (n * 128 + b.toNat % 128) / 128 = n by omega]
      · have hpow : 128 ^ (k + 1) * (top + 1) = 128 * (128 ^ k * (top + 1)) := by ring
        omega
      · rw [hrest, hrest', lebBytes_byte_cons hlt hn0]
        rfl

end ByteCodec
