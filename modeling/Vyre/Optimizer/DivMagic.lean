import Vyre.Lib.MagicDivision
import Vyre.Reference.Kernel

/-!
# Division by invariant constants

`compute_div_magic` and `granlund_montgomery_div` of
`algebraic/strength_reduce/arithmetic.rs`: a division by a constant becomes a
multiply-high and a shift. The multiplier is found by a loop that doubles a
power of two and keeps two quotients and remainders in wrapping words.

The loop computes `MagicDivision.magic` of the first power of two that is
large enough; why such a multiplier divides is the library's business. What is
proved here is that the words of the loop carry what they should although one
of the quotients wraps, that the loop leaves at the first multiplier of 33
bits, and that the emitted sequence gives the quotient.
-/

namespace Vyre

abbrev Expr.mulhi (left right : Expr) : Expr := .binOp .mulHigh left right

namespace StrengthReduce

open MagicDivision

structure DivMagic where
  magic : UInt32
  shift : UInt32
  needsFixup : Bool
deriving DecidableEq, Repr

/-- The variables of the loop in `compute_div_magic`. -/
structure MagicState where
  p : Nat
  q1 : UInt32
  r1 : UInt32
  q2 : UInt32
  r2 : UInt32
  needsFixup : Bool

/-- The largest dividend with remainder `d - 1`. -/
def largestDividend (d : UInt32) : UInt32 := 0xFFFFFFFF - (0 - d) % d

namespace MagicState

def start (d nc : UInt32) : MagicState where
  p := 31
  q1 := 0x80000000 / nc
  r1 := 0x80000000 - 0x80000000 / nc * nc
  q2 := 0x7FFFFFFF / d
  r2 := 0x7FFFFFFF - 0x7FFFFFFF / d * d
  needsFixup := false

def step (d nc : UInt32) (s : MagicState) : MagicState where
  p := s.p + 1
  q1 := if nc - s.r1 ≤ s.r1 then s.q1 <<< 1 + 1 else s.q1 <<< 1
  r1 := if nc - s.r1 ≤ s.r1 then s.r1 <<< 1 - nc else s.r1 <<< 1
  q2 := if d - s.r2 ≤ s.r2 + 1 then s.q2 <<< 1 + 1 else s.q2 <<< 1
  r2 := if d - s.r2 ≤ s.r2 + 1 then s.r2 <<< 1 + 1 - d else s.r2 <<< 1 + 1
  needsFixup :=
    s.needsFixup || (if d - s.r2 ≤ s.r2 + 1 then 0x7FFFFFFF ≤ s.q2 else 0x80000000 ≤ s.q2)

def continues (d : UInt32) (s : MagicState) : Bool :=
  s.p < 64 && (s.q1 < d - 1 - s.r2 || (s.q1 == d - 1 - s.r2 && s.r1 == 0))

/-- The loop of `compute_div_magic`. -/
def loop (d nc : UInt32) (s : MagicState) : MagicState :=
  if (s.step d nc).continues d then loop d nc (s.step d nc) else s.step d nc
termination_by 64 - s.p
decreasing_by
  have hp : s.p + 1 < 64 := by
    have h : (s.step d nc).continues d = true := by assumption
    simp only [continues, step, Bool.and_eq_true] at h
    exact of_decide_eq_true h.1
  show 64 - (s.p + 1) < 64 - s.p
  omega

/-- What `compute_div_magic` returns from the variables of the loop. -/
def result (s : MagicState) : DivMagic where
  magic := s.q2 + 1
  shift := UInt32.ofNat (s.p - 32)
  needsFixup := s.needsFixup

end MagicState

open MagicState

def computeDivMagic (d : UInt32) : DivMagic :=
  (loop d (largestDividend d) (start d (largestDividend d))).result

def granlundMontgomeryDiv (dividend : Expr) (d : UInt32) : Option Expr :=
  if d ≤ 1 ∨ d.toNat.isPowerOfTwo then none
  else
    let magic := computeDivMagic d
    if magic.needsFixup then
      let t := Expr.mulhi dividend (.u32 magic.magic)
      let sum := Expr.add t (.shr (.sub dividend t) (.u32 1))
      -- `saturating_sub(1)`
      let shift := if magic.shift = 0 then 0 else magic.shift - 1
      if shift = 0 then some sum else some (.shr sum (.u32 shift))
    else
      let hi := Expr.mulhi dividend (.u32 magic.magic)
      if magic.shift = 0 then some hi else some (.shr hi (.u32 magic.shift))

section Words

theorem toNat_shl_one (x : UInt32) : (x <<< 1).toNat = 2 * x.toNat % 2 ^ 32 := by
  show x.toNat <<< 1 % 2 ^ 32 = _
  rw [Nat.shiftLeft_eq, Nat.mul_comm]

variable {x : Nat} {d q r b : UInt32}

theorem le_iff_carry (hr : r.toNat = x % d.toNat) (hd : 0 < d.toNat) (hb : b.toNat ≤ 1) :
    d - r ≤ r + b ↔ d.toNat ≤ 2 * (x % d.toNat) + b.toNat := by
  have hlt := Nat.mod_lt x hd
  have hd32 := d.toNat_lt
  have hsub : (d - r).toNat = d.toNat - r.toNat :=
    UInt32.toNat_sub_of_le d r (UInt32.le_iff_toNat_le.2 (by omega))
  have hadd : (r + b).toNat = r.toNat + b.toNat := by
    rw [UInt32.toNat_add, Nat.mod_eq_of_lt (by omega)]
  rw [UInt32.le_iff_toNat_le]
  omega

theorem toNat_double_quotient (hq : q.toNat = x / d.toNat % 2 ^ 32) (hr : r.toNat = x % d.toNat)
    (hd : 0 < d.toNat) (hb : b.toNat ≤ 1) :
    (if d - r ≤ r + b then q <<< 1 + 1 else q <<< 1).toNat =
      (2 * x + b.toNat) / d.toNat % 2 ^ 32 := by
  have hshl := toNat_shl_one q
  have hadd : (q <<< 1 + 1).toNat = ((q <<< 1).toNat + 1) % 2 ^ 32 := UInt32.toNat_add _ _
  rw [double_div hd hb, carry]
  by_cases hc : d - r ≤ r + b
  · rw [if_pos hc, if_pos ((le_iff_carry hr hd hb).1 hc)]
    omega
  · rw [if_neg hc, if_neg (fun h => hc ((le_iff_carry hr hd hb).2 h))]
    omega

theorem toNat_double_remainder (hr : r.toNat = x % d.toNat) (hd : 0 < d.toNat) (hb : b.toNat ≤ 1) :
    (if d - r ≤ r + b then r <<< 1 + b - d else r <<< 1 + b).toNat =
      (2 * x + b.toNat) % d.toNat := by
  have hlt := Nat.mod_lt x hd
  have hd32 := d.toNat_lt
  have hshl := toNat_shl_one r
  have hadd : (r <<< 1 + b).toNat = ((r <<< 1).toNat + b.toNat) % 2 ^ 32 := UInt32.toNat_add _ _
  have hsub : (r <<< 1 + b - d).toNat = (2 ^ 32 - d.toNat + (r <<< 1 + b).toNat) % 2 ^ 32 :=
    UInt32.toNat_sub _ _
  rw [double_mod hd hb, carry]
  by_cases hc : d - r ≤ r + b
  · have hcarry := (le_iff_carry hr hd hb).1 hc
    rw [if_pos hc, if_pos hcarry]
    omega
  · have hcarry : ¬ d.toNat ≤ 2 * (x % d.toNat) + b.toNat :=
      fun h => hc ((le_iff_carry hr hd hb).2 h)
    rw [if_neg hc, if_neg hcarry]
    omega

end Words

/-! ## What the loop keeps -/

theorem largestDividend_mod {d : UInt32} (hd : 0 < d.toNat) :
    (largestDividend d).toNat % d.toNat = d.toNat - 1 ∧
      2 ^ 32 ≤ (largestDividend d).toNat + d.toNat := by
  have hd32 := d.toNat_lt
  have hneg : (0 - d).toNat = 2 ^ 32 - d.toNat := by
    show (2 ^ 32 - d.toNat + 0) % 2 ^ 32 = _
    omega
  have hmod : ((0 - d) % d).toNat = (2 ^ 32 - d.toNat) % d.toNat := by
    rw [UInt32.toNat_mod, hneg]
  have hrest := Nat.mod_lt (2 ^ 32 - d.toNat) hd
  have hsplit := Nat.div_add_mod (2 ^ 32 - d.toNat) d.toNat
  have hnc : (largestDividend d).toNat = 2 ^ 32 - 1 - (2 ^ 32 - d.toNat) % d.toNat := by
    have hmax : (0xFFFFFFFF : UInt32).toNat = 2 ^ 32 - 1 := by decide
    unfold largestDividend
    rw [UInt32.toNat_sub_of_le _ _ (UInt32.le_iff_toNat_le.2 (by omega)), hmod, hmax]
  constructor
  · rw [hnc, show 2 ^ 32 - 1 - (2 ^ 32 - d.toNat) % d.toNat =
      d.toNat * ((2 ^ 32 - d.toNat) / d.toNat) + (d.toNat - 1) by omega,
      Nat.mul_add_mod, Nat.mod_eq_of_lt (by omega)]
  · omega

theorem largestDividend_ge {d : UInt32} (hd : 0 < d.toNat) :
    2 ^ 31 ≤ (largestDividend d).toNat := by
  obtain ⟨hmod, hsum⟩ := largestDividend_mod hd
  have := Nat.mod_le (largestDividend d).toNat d.toNat
  omega

namespace MagicState

/-- The words hold the quotients and remainders of the current power of two; the
quotients only up to the word's size. -/
structure Tracks (d nc : UInt32) (s : MagicState) : Prop where
  q1 : s.q1.toNat = 2 ^ s.p / nc.toNat % 2 ^ 32
  r1 : s.r1.toNat = 2 ^ s.p % nc.toNat
  q2 : s.q2.toNat = (2 ^ s.p - 1) / d.toNat % 2 ^ 32
  r2 : s.r2.toNat = (2 ^ s.p - 1) % d.toNat

variable {d nc : UInt32} {s : MagicState}

theorem tracks_start (d nc : UInt32) : (start d nc).Tracks d nc := by
  have hrest : ∀ x w : UInt32, (x - x / w * w).toNat = x.toNat % w.toNat := by
    intro x w
    have hle := Nat.div_mul_le_self x.toNat w.toNat
    have hx := x.toNat_lt
    have hmul : (x / w * w).toNat = x.toNat / w.toNat * w.toNat := by
      rw [UInt32.toNat_mul, UInt32.toNat_div, Nat.mod_eq_of_lt (by omega)]
    rw [UInt32.toNat_sub_of_le _ _ (UInt32.le_iff_toNat_le.2 (by omega)), hmul,
      Nat.mod_eq_sub_div_mul]
  have hquot : ∀ x w : UInt32, (x / w).toNat = x.toNat / w.toNat % 2 ^ 32 := by
    intro x w
    have hle := Nat.div_le_self x.toNat w.toNat
    have hx := x.toNat_lt
    rw [UInt32.toNat_div, Nat.mod_eq_of_lt (by omega)]
  exact ⟨hquot _ _, hrest _ _, hquot _ _, hrest _ _⟩

theorem Tracks.step (h : s.Tracks d nc) (hd : 0 < d.toNat) (hnc : 0 < nc.toNat) :
    (s.step d nc).Tracks d nc := by
  have hpow : 2 ^ (s.p + 1) = 2 * 2 ^ s.p := Nat.pow_succ'
  have hpos : 0 < 2 ^ s.p := Nat.two_pow_pos s.p
  have hpred : 2 * 2 ^ s.p - 1 = 2 * (2 ^ s.p - 1) + 1 := by omega
  have hzero : ∀ w : UInt32, w + 0 = w := fun w => UInt32.add_zero w
  constructor
  · have := @toNat_double_quotient (2 ^ s.p) nc s.q1 s.r1 0 h.q1 h.r1 hnc (by decide)
    rw [hzero] at this
    exact this.trans (congrArg (fun k => k / nc.toNat % 2 ^ 32) hpow.symm)
  · have := @toNat_double_remainder (2 ^ s.p) nc s.r1 0 h.r1 hnc (by decide)
    rw [hzero, hzero] at this
    exact this.trans (congrArg (fun k => k % nc.toNat) hpow.symm)
  · have := @toNat_double_quotient (2 ^ s.p - 1) d s.q2 s.r2 1 h.q2 h.r2 hd (by decide)
    exact this.trans (congrArg (fun k => k / d.toNat % 2 ^ 32)
      (hpred.symm.trans (congrArg (fun k => k - 1) hpow.symm)))
  · have := @toNat_double_remainder (2 ^ s.p - 1) d s.r2 1 h.r2 hd (by decide)
    exact this.trans
      (congrArg (fun k => k % d.toNat) (hpred.symm.trans (congrArg (fun k => k - 1) hpow.symm)))

/-- The state at the head of the loop: the multiplier so far fits a word, and no
fix-up has been asked for. -/
structure Searching (d nc : UInt32) (s : MagicState) : Prop where
  tracks : s.Tracks d nc
  fits : magic (2 ^ s.p) d.toNat < 2 ^ 32
  needsFixup : s.needsFixup = false
  started : 31 ≤ s.p
  unfinished : s.p < 64

/-- The state after a pass: the flag says whether the multiplier still fits. -/
structure Stepped (d nc : UInt32) (s : MagicState) : Prop where
  tracks : s.Tracks d nc
  lt : magic (2 ^ s.p) d.toNat < 2 ^ 33
  needsFixup : s.needsFixup = decide (2 ^ 32 ≤ magic (2 ^ s.p) d.toNat)
  started : 32 ≤ s.p
  bounded : s.p ≤ 64

theorem Searching.q2_eq (h : s.Searching d nc) : s.q2.toNat = (2 ^ s.p - 1) / d.toNat := by
  have hfits := h.fits
  unfold magic at hfits
  rw [h.tracks.q2, Nat.mod_eq_of_lt (by omega)]

theorem Searching.stepped (h : s.Searching d nc) (hd : 0 < d.toNat) (hnc : 0 < nc.toNat) :
    (s.step d nc).Stepped d nc := by
  have hpos : 0 < 2 ^ s.p := Nat.two_pow_pos s.p
  have hpow : 2 ^ (s.p + 1) = 2 * 2 ^ s.p := Nat.pow_succ'
  have hdouble :
      magic (2 ^ (s.p + 1)) d.toNat = 2 * s.q2.toNat + carry (2 ^ s.p - 1) d.toNat 1 + 1 := by
    rw [hpow, magic_double hd hpos, h.q2_eq]
  have hfits := h.fits
  have hstarted := h.started
  have hunfinished := h.unfinished
  refine ⟨h.tracks.step hd hnc, ?_, ?_, ?_, ?_⟩
  · show magic (2 ^ (s.p + 1)) d.toNat < 2 ^ 33
    have := magic_double_le hd hpos
    rw [hpow]
    omega
  · -- both tests of the source say that the doubled quotient leaves the word
    show (s.needsFixup || _) = decide (2 ^ 32 ≤ magic (2 ^ (s.p + 1)) d.toNat)
    have hiff : d - s.r2 ≤ s.r2 + 1 ↔ d.toNat ≤ 2 * ((2 ^ s.p - 1) % d.toNat) + 1 :=
      le_iff_carry h.tracks.r2 hd (by decide)
    rw [h.needsFixup, hdouble, carry]
    by_cases hc : d - s.r2 ≤ s.r2 + 1
    · rw [if_pos hc, if_pos (hiff.1 hc)]
      apply decide_eq_decide.2
      show 2 ^ 31 - 1 ≤ s.q2.toNat ↔ _
      omega
    · rw [if_neg hc, if_neg (mt hiff.2 hc)]
      apply decide_eq_decide.2
      show 2 ^ 31 ≤ s.q2.toNat ↔ _
      omega
  · show 32 ≤ s.p + 1
    omega
  · show s.p + 1 ≤ 64
    omega

theorem Tracks.excess (h : s.Tracks d nc) (hd : 0 < d.toNat) :
    (d - 1 - s.r2).toNat = excess (2 ^ s.p) d.toNat := by
  have hlt := Nat.mod_lt (2 ^ s.p - 1) hd
  have hr := h.r2
  have hone : (d - 1).toNat = d.toNat - 1 :=
    UInt32.toNat_sub_of_le d 1 (UInt32.le_iff_toNat_le.2 (by show 1 ≤ d.toNat; omega))
  rw [UInt32.toNat_sub_of_le _ _ (UInt32.le_iff_toNat_le.2 (by omega)), hone, hr]
  rfl

theorem continues_iff (h : s.Tracks d nc) (hd : 0 < d.toNat) :
    s.continues d = true ↔ s.p < 64 ∧ (s.q1.toNat < excess (2 ^ s.p) d.toNat ∨
      (s.q1.toNat = excess (2 ^ s.p) d.toNat ∧ s.r1.toNat = 0)) := by
  simp only [continues, Bool.and_eq_true, Bool.or_eq_true, decide_eq_true_eq, beq_iff_eq,
    UInt32.lt_iff_toNat_lt, ← UInt32.toNat_inj, h.excess hd]
  rfl

theorem excess_lt_of_left (h : s.Tracks d nc) (hd : 0 < d.toNat) (hp : s.p ≤ 64)
    (hleft : s.continues d = false) :
    excess (2 ^ s.p) d.toNat * nc.toNat < 2 ^ s.p := by
  have hnot : ¬ s.continues d = true := by
    rw [hleft]
    exact Bool.false_ne_true
  rw [continues_iff h hd] at hnot
  by_cases hlast : s.p = 64
  · -- at the last power any excess is small enough
    rw [hlast]
    have hlt : excess (2 ^ 64) d.toNat < 2 ^ 32 := by
      have := d.toNat_lt
      unfold excess
      omega
    have hnc := nc.toNat_lt
    calc excess (2 ^ 64) d.toNat * nc.toNat < 2 ^ 32 * 2 ^ 32 := Nat.mul_lt_mul'' hlt hnc
      _ = 2 ^ 64 := by decide
  · -- the wrapped quotient is at most the true one
    have hwrapped : s.q1.toNat ≤ 2 ^ s.p / nc.toNat := by
      rw [h.q1]
      exact Nat.mod_le _ _
    have hr := h.r1
    apply excess_mul_lt
    omega

theorem two_pow_split {p : Nat} (h : 32 ≤ p) : 2 ^ p = 2 ^ 32 * 2 ^ (p - 32) := by
  rw [← Nat.pow_add, show 32 + (p - 32) = p by omega]

/-- The first multiplier that needs 33 bits ends the search: its power of two is
past `nc * d`, and the quotient by `nc` has not wrapped yet. -/
theorem not_continues (hd : 1 < d.toNat) (hnc : nc = largestDividend d) (h : s.Stepped d nc)
    (hlong : 2 ^ 32 ≤ magic (2 ^ s.p) d.toNat) : s.continues d = false := by
  rw [Bool.eq_false_iff, Ne, continues_iff h.tracks (by omega)]
  intro hcont
  obtain ⟨hmod, hsum⟩ := largestDividend_mod (d := d) (by omega)
  have hge := largestDividend_ge (d := d) (by omega)
  rw [← hnc] at hmod hsum hge
  have hnc32 := nc.toNat_lt
  -- the power of two over the word is at least the divisor
  have hpow := two_pow_split h.started
  have hle : s.p - 32 ≤ 31 := by omega
  have hsmall : 2 ^ (s.p - 32) ≤ 2 ^ 31 := Nat.pow_le_pow_right (by decide) hle
  have hlarge : d.toNat ≤ 2 ^ (s.p - 32) := by
    have hquot : 2 ^ 32 - 1 ≤ (2 ^ s.p - 1) / d.toNat := by
      unfold magic at hlong
      omega
    have hmul := (Nat.le_div_iff_mul_le (by omega)).1 hquot
    omega
  have hstrict : 2 ^ (s.p - 32) < nc.toNat := by
    rcases Nat.lt_or_ge (2 ^ (s.p - 32)) nc.toNat with hlt | hge'
    · exact hlt
    · -- otherwise divisor and dividend both are `2 ^ 31`, and the remainder is zero
      have heq : nc.toNat = d.toNat := by omega
      rw [heq, Nat.mod_self] at hmod
      omega
  have hexact : 2 ^ s.p / nc.toNat < 2 ^ 32 := by
    rw [Nat.div_lt_iff_lt_mul (by omega), hpow]
    exact Nat.mul_lt_mul_of_pos_left hstrict (by decide)
  have hquot : d.toNat ≤ 2 ^ s.p / nc.toNat := by
    rw [Nat.le_div_iff_mul_le (by omega), hpow, Nat.mul_comm]
    exact Nat.mul_le_mul (by omega) hlarge
  have hexcess : excess (2 ^ s.p) d.toNat < d.toNat := by
    unfold excess
    omega
  have hq1 := h.tracks.q1
  omega

structure Found (d nc : UInt32) (s : MagicState) : Prop extends Stepped d nc s where
  enough : excess (2 ^ s.p) d.toNat * nc.toNat < 2 ^ s.p

theorem found_loop (hd : 1 < d.toNat) (hnc : nc = largestDividend d) (h : s.Searching d nc) :
    (loop d nc s).Found d nc := by
  have hncpos : 0 < nc.toNat := by
    have := largestDividend_ge (d := d) (by omega)
    rw [hnc]
    omega
  induction s using loop.induct d nc with
  | case1 s hcont ih =>
    have hstep := h.stepped (by omega) hncpos
    rw [loop, if_pos hcont]
    apply ih
    -- the loop goes on only while the multiplier fits
    have hfits : ¬ 2 ^ 32 ≤ magic (2 ^ (s.step d nc).p) d.toNat := by
      intro hlong
      rw [not_continues hd hnc hstep hlong] at hcont
      cases hcont
    have hbelow := ((continues_iff hstep.tracks (by omega)).1 hcont).1
    have hstarted := hstep.started
    exact ⟨hstep.tracks, by omega, hstep.needsFixup.trans (decide_eq_false hfits), by omega, hbelow⟩
  | case2 s hcont =>
    have hstep := h.stepped (by omega) hncpos
    rw [loop, if_neg hcont]
    exact ⟨hstep, excess_lt_of_left hstep.tracks (by omega) hstep.bounded
      (Bool.eq_false_iff.2 hcont)⟩

theorem searching_start (d nc : UInt32) : (start d nc).Searching d nc := by
  refine ⟨tracks_start d nc, ?_, rfl, Nat.le_refl 31, show 31 < 64 by omega⟩
  have hle := Nat.div_le_self (2 ^ 31 - 1) d.toNat
  show (2 ^ 31 - 1) / d.toNat + 1 < 2 ^ 32
  omega

end MagicState

/-! ## The emitted sequence -/

open Reference

section Sequence

variable {host : Host} {lane : Lane} {m : Memory} {l r : Expr} {x y : UInt32}

theorem gives_mulhi (hl : Gives host lane m l (.u32 x)) (hr : Gives host lane m r (.u32 y)) :
    Gives host lane m (.mulhi l r) (.u32 (UInt32.ofNat (x.toNat * y.toNat / 2 ^ 32))) :=
  hl.binOp hr rfl

theorem toNat_mulhi (x y : UInt32) :
    (UInt32.ofNat (x.toNat * y.toNat / 2 ^ 32)).toNat = x.toNat * y.toNat / 2 ^ 32 := by
  apply UInt32.toNat_ofNat_of_lt'
  apply Nat.div_lt_of_lt_mul
  exact Nat.mul_lt_mul'' x.toNat_lt y.toNat_lt

theorem toNat_shr_of_lt {y : UInt32} (x : UInt32) (hy : y.toNat < 32) :
    (x >>> (y &&& 31)).toNat = x.toNat / 2 ^ y.toNat :=
  (toNat_shr x y).trans (by rw [Nat.mod_eq_of_lt hy])

theorem gives_lastShift {w v : UInt32} (hl : Gives host lane m l (.u32 w)) (hy : y.toNat < 32)
    (hv : v.toNat = w.toNat / 2 ^ y.toNat) :
    Gives host lane m (if y = 0 then l else .shr l (.u32 y)) (.u32 v) := by
  by_cases hzero : y = 0
  · rw [hzero] at hv
    have heq : v = w := by
      apply UInt32.toNat_inj.1
      rw [hv]
      exact Nat.div_one _
    rw [if_pos hzero, heq]
    exact hl
  · have heq : v = w >>> (y &&& 31) := by
      apply UInt32.toNat_inj.1
      rw [hv, toNat_shr_of_lt w hy]
    rw [if_neg hzero, heq]
    exact hl.shr (.u32 y)

end Sequence

/-- The shift `granlund_montgomery_div` ends its sequence with. -/
def DivMagic.lastShift (g : DivMagic) : UInt32 :=
  if g.needsFixup then (if g.shift = 0 then 0 else g.shift - 1) else g.shift

/-- What makes a magic number work: the search has found it for a power of two of
at most 64 bits. -/
structure DivMagic.Divides (g : DivMagic) (d : UInt32) : Prop where
  lastShift : g.lastShift.toNat < 32
  short (h : g.needsFixup = false) (n : UInt32) :
    n.toNat * g.magic.toNat / 2 ^ 32 / 2 ^ g.lastShift.toNat = n.toNat / d.toNat
  long (h : g.needsFixup = true) (n : UInt32) :
    (n.toNat * g.magic.toNat / 2 ^ 32 +
      (n.toNat - n.toNat * g.magic.toNat / 2 ^ 32) / 2) / 2 ^ g.lastShift.toNat = n.toNat / d.toNat

namespace MagicState

variable {d nc : UInt32} {s : MagicState}

variable (h : s.Found d nc)

include h

theorem Found.div (hd : 1 < d.toNat) (hnc : nc = largestDividend d) (n : UInt32) :
    n.toNat * magic (2 ^ s.p) d.toNat / 2 ^ s.p = n.toNat / d.toNat := by
  obtain ⟨hmod, hsum⟩ := largestDividend_mod (d := d) (by omega)
  rw [← hnc] at hmod hsum
  have hn := n.toNat_lt
  exact mul_magic_div_of_lt (by omega) (Nat.two_pow_pos _) hmod (by omega) h.enough

theorem Found.toNat_magic :
    s.result.magic.toNat = magic (2 ^ s.p) d.toNat % 2 ^ 32 := by
  show (s.q2 + 1).toNat = _
  rw [UInt32.toNat_add, h.tracks.q2]
  show ((2 ^ s.p - 1) / d.toNat % 2 ^ 32 + 1) % 2 ^ 32 = ((2 ^ s.p - 1) / d.toNat + 1) % 2 ^ 32
  omega

theorem Found.toNat_shift : s.result.shift.toNat = s.p - 32 := by
  have hbounded := h.bounded
  apply UInt32.toNat_ofNat_of_lt'
  show s.p - 32 < 2 ^ 32
  omega

variable (hd : 1 < d.toNat)

include hd

theorem Found.lt_of_short
    (hshort : magic (2 ^ s.p) d.toNat < 2 ^ 32) : s.p - 32 < 32 := by
  have hbounded := h.bounded
  have hd32 := d.toNat_lt
  rcases Nat.lt_or_ge s.p 64 with hlt | hge
  · omega
  · have hp : s.p = 64 := by omega
    have hquot : 2 ^ 32 ≤ (2 ^ 64 - 1) / d.toNat := by
      rw [Nat.le_div_iff_mul_le (by omega)]
      calc 2 ^ 32 * d.toNat ≤ 2 ^ 32 * (2 ^ 32 - 1) := Nat.mul_le_mul_left _ (by omega)
        _ ≤ 2 ^ 64 - 1 := by decide
    rw [hp] at hshort
    unfold magic at hshort
    omega

theorem Found.pos_of_long
    (hlong : 2 ^ 32 ≤ magic (2 ^ s.p) d.toNat) : 1 ≤ s.p - 32 := by
  have hstarted := h.started
  rcases Nat.lt_or_ge 32 s.p with hlt | hge
  · omega
  · have hp : s.p = 32 := by omega
    have hquot : (2 ^ 32 - 1) / d.toNat ≤ (2 ^ 32 - 1) / 2 := Nat.div_le_div_left hd (by decide)
    rw [hp] at hlong
    unfold magic at hlong
    omega

theorem Found.divides_short (hnc : nc = largestDividend d)
    (hshort : magic (2 ^ s.p) d.toNat < 2 ^ 32) : s.result.Divides d := by
  have hflag : s.result.needsFixup = false := h.needsFixup.trans (decide_eq_false (by omega))
  have hlast : s.result.lastShift.toNat = s.p - 32 := by
    rw [DivMagic.lastShift, hflag]
    exact h.toNat_shift
  have hlt := h.lt_of_short hd hshort
  constructor
  · omega
  · intro _ n
    rw [hlast, Nat.div_div_eq_div_mul, ← two_pow_split h.started, h.toNat_magic,
      Nat.mod_eq_of_lt hshort]
    exact h.div hd hnc n
  · intro hlong
    rw [hflag] at hlong
    cases hlong

theorem Found.divides_long (hnc : nc = largestDividend d)
    (hlong : 2 ^ 32 ≤ magic (2 ^ s.p) d.toNat) : s.result.Divides d := by
  have hflag : s.result.needsFixup = true := h.needsFixup.trans (decide_eq_true hlong)
  have hpos := h.pos_of_long hd hlong
  have hbounded := h.bounded
  have hshift := h.toNat_shift
  have hlast : s.result.lastShift.toNat = s.p - 33 := by
    have hle : (1 : UInt32) ≤ s.result.shift :=
      UInt32.le_iff_toNat_le.2 (by rw [hshift]; exact hpos)
    have hne : s.result.shift ≠ 0 := by
      intro hzero
      rw [hzero] at hle
      exact absurd hle (by decide)
    rw [DivMagic.lastShift, hflag, if_pos rfl, if_neg hne, UInt32.toNat_sub_of_le _ _ hle, hshift]
    show s.p - 32 - 1 = s.p - 33
    omega
  constructor
  · omega
  · intro hshort
    rw [hflag] at hshort
    cases hshort
  · intro _ n
    have hlow : magic (2 ^ s.p) d.toNat = 2 ^ 32 + s.result.magic.toNat := by
      have hmagic := h.toNat_magic
      have hlt := h.lt
      omega
    have hhalf : 2 ^ s.p = 2 ^ 32 * (2 * 2 ^ (s.p - 33)) := by
      rw [two_pow_split h.started, show s.p - 32 = s.p - 33 + 1 by omega, Nat.pow_succ 2 (s.p - 33),
        Nat.mul_comm (2 ^ (s.p - 33)) 2]
    rw [hlast, mul_div_average (by decide) hlow rfl s.result.magic.toNat_lt.le, ← hhalf]
    exact h.div hd hnc n

end MagicState

theorem divides_computeDivMagic {d : UInt32} (hd : 1 < d.toNat) :
    (computeDivMagic d).Divides d := by
  have hfound := found_loop hd rfl (searching_start d (largestDividend d))
  rcases Nat.lt_or_ge (magic (2 ^ _) d.toNat) (2 ^ 32) with hshort | hlong
  · exact hfound.divides_short hd rfl hshort
  · exact hfound.divides_long hd rfl hlong

section Division

variable {host : Host} {lane : Lane} {m : Memory} {dividend : Expr} {n d : UInt32}

/-- The sequence `granlund_montgomery_div` emits for a magic number. -/
def sequence (dividend : Expr) (g : DivMagic) : Expr :=
  let t := Expr.mulhi dividend (.u32 g.magic)
  let whole := if g.needsFixup then Expr.add t (.shr (.sub dividend t) (.u32 1)) else t
  if g.lastShift = 0 then whole else .shr whole (.u32 g.lastShift)

theorem granlundMontgomeryDiv_eq (dividend : Expr) (hd : 1 < d.toNat)
    (hpow : ¬ d.toNat.isPowerOfTwo) :
    granlundMontgomeryDiv dividend d = some (sequence dividend (computeDivMagic d)) := by
  have hguard : ¬ (d ≤ 1 ∨ d.toNat.isPowerOfTwo) :=
    not_or.2 ⟨UInt32.not_le.2 (UInt32.lt_iff_toNat_lt.2 hd), hpow⟩
  unfold granlundMontgomeryDiv
  rw [if_neg hguard]
  generalize computeDivMagic d = g
  unfold sequence DivMagic.lastShift
  by_cases hfix : g.needsFixup = true
  · simp only [if_pos hfix]
    exact (apply_ite some _ _ _).symm
  · simp only [if_neg hfix]
    exact (apply_ite some _ _ _).symm

theorem gives_sequence {g : DivMagic} (hg : g.Divides d)
    (hn : Gives host lane m dividend (.u32 n)) :
    Gives host lane m (sequence dividend g) (.u32 (n / d)) := by
  have ht := gives_mulhi hn (.u32 g.magic)
  have htNat := toNat_mulhi n g.magic
  unfold sequence
  by_cases hfix : g.needsFixup = true
  · simp only [if_pos hfix]
    apply gives_lastShift (ht.add ((hn.sub ht).shr (.u32 1))) hg.lastShift
    -- the average stays in the word, so that neither the difference nor the sum wraps
    have hlt := n.toNat_lt
    have hle : n.toNat * g.magic.toNat / 2 ^ 32 ≤ n.toNat := by
      apply Nat.div_le_of_le_mul
      rw [Nat.mul_comm]
      exact Nat.mul_le_mul_right _ g.magic.toNat_lt.le
    rw [UInt32.toNat_div, UInt32.toNat_add, toNat_shr_of_lt _ (by decide),
      UInt32.toNat_sub_of_le _ _ (UInt32.le_iff_toNat_le.2 (by omega)), htNat,
      Nat.mod_eq_of_lt (by show _ + _ / 2 < _; omega)]
    exact (hg.long hfix n).symm
  · simp only [if_neg hfix]
    apply gives_lastShift ht hg.lastShift
    rw [htNat]
    exact (hg.short (Bool.eq_false_iff.2 hfix) n).symm

end Division

end StrengthReduce

end Vyre
