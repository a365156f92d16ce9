import Vyre.Optimizer.FoldIdentities
import Vyre.Optimizer.StrengthReduce

/-!
# Products as chains of shifts

What the sequences emitted for a product with a constant compute. The digits of
`naf_terms` sum up to the constant modulo the word, with one exception: for
constants over two thirds of the word the last digit has weight `2 ^ 32`. Its
term should vanish, but a shift by 32 is a shift by zero, and the chain computes
one multiple of the operand too many.
-/

namespace Vyre.StrengthReduce

open Reference ConstFold List

/-- `2 ^ s` in the word. -/
def weight (s : Nat) : UInt32 := UInt32.ofNat (2 ^ s)

theorem weight_zero : weight 0 = 1 := rfl

theorem weight_succ (s : Nat) : weight (s + 1) = 2 * weight s := by
  unfold weight
  rw [Nat.pow_succ 2 s, Nat.mul_comm, UInt32.ofNat_mul]
  rfl

theorem weight_32 : weight 32 = 0 := rfl

variable {s : Nat} {n : UInt32}

theorem toNat_weight (h : s < 32) : (weight s).toNat = 2 ^ s :=
  UInt32.toNat_ofNat_of_lt' (Nat.pow_lt_pow_right (by decide) h)

theorem shiftU32_eq_mul (h : s < 32) (w : UInt32) :
    shiftU32 w (UInt32.ofNat s) true = w * weight s := by
  have hs : (UInt32.ofNat s).toNat = s := UInt32.toNat_ofNat_of_lt' (by show s < 2 ^ 32; omega)
  apply UInt32.toNat_inj.mp
  rw [toNat_shl, hs, Nat.mod_eq_of_lt h, UInt32.toNat_mul, toNat_weight h]

theorem shiftU32_32 (w : UInt32) : shiftU32 w (UInt32.ofNat 32) true = w := by
  exact UInt32.shiftLeft_zero

/-! ## Digits -/

theorem eq_double_half (h : n &&& 1 = 0) : n = (2 : UInt32) * (n >>> 1) := by
  rw [and_one_eq_zero_iff] at h
  have hlt := n.toNat_lt
  apply UInt32.toNat_inj.mp
  show n.toNat = 2 * (n.toNat / 2) % 2 ^ 32
  omega

theorem eq_double_half_add_one (h : n &&& 1 ≠ 0) : n = (2 : UInt32) * ((n - 1) >>> 1) + 1 := by
  rw [Ne, and_one_eq_zero_iff] at h
  have hne : n ≠ 0 := by
    rintro rfl
    exact h rfl
  have hlt := n.toNat_lt
  apply UInt32.toNat_inj.mp
  rw [UInt32.toNat_add, UInt32.toNat_mul, toNat_half, toNat_sub_one hne]
  show n.toNat = (2 * ((n.toNat - 1) / 2) % 2 ^ 32 + 1) % 2 ^ 32
  omega

theorem eq_double_half_sub_one (h : n &&& 1 ≠ 0) : n = (2 : UInt32) * ((n + 1) >>> 1) - 1 := by
  have heven : (n + 1) &&& 1 = 0 := by
    rw [Ne, and_one_eq_zero_iff] at h
    rw [and_one_eq_zero_iff]
    show (n.toNat + 1) % 2 ^ 32 % 2 = 0
    omega
  have hdouble := eq_double_half heven
  grind

/-- What a term adds to a chain over the operand `w`. -/
def emitted (w : UInt32) (term : SignedShiftTerm) : UInt32 :=
  if term.positive then shiftU32 w (UInt32.ofNat term.shift) true
  else 0 - shiftU32 w (UInt32.ofNat term.shift) true

def total (w : UInt32) (terms : List SignedShiftTerm) : UInt32 :=
  terms.foldr (fun term acc => emitted w term + acc) 0

/-- A digit has weight `2 ^ 32`. -/
def Reaches (terms : List SignedShiftTerm) : Prop := ∃ term ∈ terms, term.shift = 32

theorem total_append (w : UInt32) (ts us : List SignedShiftTerm) :
    total w (ts ++ us) = total w ts + total w us := by
  induction ts with
  | nil => exact (UInt32.zero_add _).symm
  | cons t ts ih =>
    show emitted w t + total w (ts ++ us) = emitted w t + total w ts + total w us
    rw [ih, UInt32.add_assoc]

theorem total_reverse (w : UInt32) (ts : List SignedShiftTerm) :
    total w ts.reverse = total w ts := by
  induction ts with
  | nil => rfl
  | cons t ts ih =>
    rw [reverse_cons, total_append, ih, UInt32.add_comm]
    show emitted w t + 0 + total w ts = emitted w t + total w ts
    rw [UInt32.add_zero]

theorem le_shift_of_mem {term : SignedShiftTerm} (h : term ∈ nafFrom n s) : s ≤ term.shift := by
  fun_induction nafFrom n s with
  | case1 => cases h
  | case2 n s hz heven ih => exact Nat.le_of_succ_le (ih h)
  | case3 n s hz hodd hsign ih | case4 n s hz hodd hsign ih =>
    rcases mem_cons.mp h with rfl | hrest
    · exact Nat.le_refl s
    · exact Nat.le_of_succ_le (ih hrest)

theorem reaches_cons {term : SignedShiftTerm} {terms : List SignedShiftTerm}
    (h : term.shift < 32) : Reaches (term :: terms) ↔ Reaches terms := by
  simp [Reaches, h.ne]

instance (terms : List SignedShiftTerm) : Decidable (Reaches terms) :=
  inferInstanceAs (Decidable (∃ term ∈ terms, term.shift = 32))

theorem two_pow_place (hs : s < 32) : 2 ^ (32 - s) = 2 * 2 ^ (32 - (s + 1)) := by
  rw [show 32 - s = 32 - (s + 1) + 1 by omega, Nat.pow_succ 2, Nat.mul_comm]

/-- A number that fits into the places from `s` on fits, halved and rounded up, into
those after it. -/
theorem half_le {k : Nat} (hs : s < 32) (hk : k ≤ 2 ^ (32 - s)) :
    (k + 1) / 2 ≤ 2 ^ (32 - (s + 1)) := by
  have hpow := two_pow_place hs
  omega

theorem lt_32_of_two_le {k : Nat} (hs : s ≤ 32) (hk : k ≤ 2 ^ (32 - s)) (h : 2 ≤ k) : s < 32 := by
  rcases Nat.lt_or_ge s 32 with hlt | hge
  · exact hlt
  · have : s = 32 := Nat.le_antisymm hs hge
    subst this
    omega

/-! The value of a number `n` at a place of weight `p`, by its half `h` and its digit. -/

theorem even_place (w h p r : UInt32) : w * h * (2 * p) + r = w * (2 * h) * p + r := by grind

theorem positive_place (w h p r : UInt32) :
    w * p + (w * h * (2 * p) + r) = w * (2 * h + 1) * p + r := by grind

theorem negative_place (w h p r : UInt32) :
    0 - w * p + (w * h * (2 * p) + r) = w * (2 * h - 1) * p + r := by grind

/-- The digits of a number that fits into the places from `s` on sum up to it, and to
one multiple more when they reach weight `2 ^ 32`. -/
theorem total_nafFrom (w : UInt32) (hs : s ≤ 32) (hn : n.toNat ≤ 2 ^ (32 - s)) :
    total w (nafFrom n s) = w * n * weight s + if Reaches (nafFrom n s) then w else 0 := by
  fun_induction nafFrom n s with
  | case1 => simp [total, Reaches]
  | case2 n s hz heven ih =>
    have hpos : n.toNat ≠ 0 := fun h => hz (UInt32.toNat_inj.mp h)
    have hmod := (and_one_eq_zero_iff n).mp heven
    have hlt := lt_32_of_two_le hs hn (by omega)
    have hhalf := half_le hlt hn
    rw [ih hlt (by rw [toNat_half]; omega), weight_succ, even_place, ← eq_double_half heven]
  | case3 n s hz hodd hsign ih =>
    have hmod := mt (and_one_eq_zero_iff n).mpr hodd
    rcases Nat.lt_or_ge s 32 with hlt | hge
    · have hhalf := half_le hlt hn
      have hrest := ih hlt (by rw [toNat_half, toNat_sub_one hz]; omega)
      have hfirst : emitted w ⟨s, true⟩ = w * weight s := shiftU32_eq_mul hlt w
      simp only [reaches_cons (show (SignedShiftTerm.mk s true).shift < 32 from hlt)]
      show emitted w ⟨s, true⟩ + total w (nafFrom ((n - 1) >>> 1) (s + 1)) = _
      rw [hrest, hfirst, weight_succ, positive_place, ← eq_double_half_add_one hodd]
    · -- The last place: the number is one, and its digit is emitted as a shift by 32.
      have hs32 : s = 32 := Nat.le_antisymm hs hge
      subst hs32
      have hone : n = 1 := by
        apply UInt32.toNat_inj.mp
        show n.toNat = 1
        omega
      subst hone
      have hrest : nafFrom (((1 : UInt32) - 1) >>> 1) (32 + 1) = [] := by
        unfold nafFrom
        exact dif_pos rfl
      have hfirst : emitted w ⟨32, true⟩ = w := shiftU32_32 w
      have hreach : Reaches (⟨32, true⟩ :: nafFrom (((1 : UInt32) - 1) >>> 1) (32 + 1)) :=
        ⟨⟨32, true⟩, mem_cons_self, rfl⟩
      rw [if_pos hreach, hrest, weight_32]
      show emitted w ⟨32, true⟩ + 0 = _
      rw [hfirst, UInt32.mul_zero, UInt32.add_comm]
  | case4 n s hz hodd hsign ih =>
    have hmod := mt (and_one_eq_zero_iff n).mpr hodd
    rw [and_three_eq_one_iff] at hsign
    have hlt := lt_32_of_two_le hs hn (by omega)
    have hhalf := half_le hlt hn
    have hbound : ((n + 1) >>> 1).toNat ≤ 2 ^ (32 - (s + 1)) := by
      show (n.toNat + 1) % 2 ^ 32 / 2 ≤ _
      omega
    have hrest := ih hlt hbound
    have hfirst : emitted w ⟨s, false⟩ = 0 - w * weight s :=
      congrArg (0 - ·) (shiftU32_eq_mul hlt w)
    simp only [reaches_cons (show (SignedShiftTerm.mk s false).shift < 32 from hlt)]
    show emitted w ⟨s, false⟩ + total w (nafFrom ((n + 1) >>> 1) (s + 1)) = _
    rw [hrest, hfirst, weight_succ, negative_place, ← eq_double_half_sub_one hodd]

theorem total_nafTerms (w c : UInt32) :
    total w (nafTerms c) = w * c + if Reaches (nafTerms c) then w else 0 := by
  have hsum := total_nafFrom w (Nat.zero_le 32) (Nat.le_of_lt c.toNat_lt)
  rw [weight_zero, UInt32.mul_one] at hsum
  exact hsum

/-- The recoding of the constant has a digit of weight `2 ^ 32`. The greatest word has none,
since its successor is zero. -/
def TopDigit (c : UInt32) : Prop := 2 ^ 33 < 3 * c.toNat ∧ c.toNat + 1 ≠ 2 ^ 32

instance (c : UInt32) : Decidable (TopDigit c) := inferInstanceAs (Decidable (_ ∧ _))

theorem two_pow_mod_three (k : Nat) : 2 ^ k % 3 ≠ 0 := by
  induction k with
  | zero => decide
  | succ k ih =>
    omega

/-- The digits of a number at a place reach weight `2 ^ 32` if it is over two thirds of
what fits there. -/
theorem reaches_nafFrom_iff (hs : s ≤ 32) (hn : n.toNat ≤ 2 ^ (32 - s))
    (hwrap : n.toNat + 1 ≠ 2 ^ 32) : Reaches (nafFrom n s) ↔ 2 * 2 ^ (32 - s) < 3 * n.toNat := by
  fun_induction nafFrom n s with
  | case1 => simp [Reaches]
  | case2 n s hz heven ih =>
    have hmod := (and_one_eq_zero_iff n).mp heven
    have hpos : n.toNat ≠ 0 := fun h => hz (UInt32.toNat_inj.mp h)
    have hbound := n.toNat_lt
    have hlt := lt_32_of_two_le hs hn (by omega)
    have hpow := two_pow_place hlt
    rw [ih hlt (by rw [toNat_half]; omega) (by rw [toNat_half]; omega), toNat_half]
    omega
  | case3 n s hz hodd hsign ih =>
    have hmod := mt (and_one_eq_zero_iff n).mpr hodd
    rcases Nat.lt_or_ge s 32 with hlt | hge
    · have hpow := two_pow_place hlt
      have hthree := two_pow_mod_three (32 - (s + 1))
      have hfour : n.toNat % 4 = 1 := by
        rcases hsign with hthree | rfl
        · exact (and_three_eq_one_iff n).mp hthree
        · rfl
      rw [reaches_cons (show (SignedShiftTerm.mk s true).shift < 32 from hlt),
        ih hlt (by rw [toNat_half, toNat_sub_one hz]; omega)
          (by rw [toNat_half, toNat_sub_one hz]; omega),
        toNat_half, toNat_sub_one hz]
      omega
    · -- The last place, which the number one fills.
      have hs32 : s = 32 := Nat.le_antisymm hs hge
      subst hs32
      refine ⟨fun _ => ?_, fun _ => ⟨⟨32, true⟩, mem_cons_self, rfl⟩⟩
      omega
  | case4 n s hz hodd hsign ih =>
    have hmod := mt (and_one_eq_zero_iff n).mpr hodd
    have hbound := n.toNat_lt
    rw [and_three_eq_one_iff] at hsign
    have hlt := lt_32_of_two_le hs hn (by omega)
    have hpow := two_pow_place hlt
    have hhalf : ((n + 1) >>> 1).toNat = (n.toNat + 1) / 2 := by
      show (n.toNat + 1) % 2 ^ 32 / 2 = _
      rw [Nat.mod_eq_of_lt (by omega)]
    rw [reaches_cons (show (SignedShiftTerm.mk s false).shift < 32 from hlt),
      ih hlt (by rw [hhalf]; omega) (by rw [hhalf]; omega), hhalf]
    omega

theorem reaches_nafTerms_iff (c : UInt32) : Reaches (nafTerms c) ↔ TopDigit c := by
  by_cases hwrap : c.toNat + 1 = 2 ^ 32
  · have hc : c = 0xFFFFFFFF := UInt32.toNat_inj.mp (by show _ = 4294967295; omega)
    subst hc
    have hterms : nafTerms 0xFFFFFFFF = [⟨0, false⟩] := by decide +kernel
    rw [hterms]
    simp [Reaches, TopDigit]
  · have hsmall := Nat.le_of_lt c.toNat_lt
    rw [nafTerms, reaches_nafFrom_iff (Nat.zero_le 32) hsmall hwrap]
    exact ⟨fun h => ⟨h, hwrap⟩, fun h => h.1⟩

section Emitted

variable {host : Host} {lane : Lane} {m : Memory} {x : Expr} {w c : UInt32}

theorem gives_shiftedTerm (hw : Gives host lane m x (.u32 w)) (s : Nat) :
    Gives host lane m (shiftedTerm x s) (.u32 (shiftU32 w (UInt32.ofNat s) true)) := by
  unfold shiftedTerm
  split
  case isTrue h =>
    rw [h, shiftU32_eq_mul (by decide), weight_zero, UInt32.mul_one]
    exact hw
  case isFalse => exact hw.binOp (Gives.u32 _) rfl

theorem gives_chain (hw : Gives host lane m x (.u32 w)) {acc : Expr} {k : UInt32}
    (hacc : Gives host lane m acc (.u32 k)) (terms : List SignedShiftTerm) :
    Gives host lane m (terms.foldl (chainStep x) acc) (.u32 (k + total w terms)) := by
  induction terms generalizing acc k with
  | nil =>
    show Gives host lane m acc (.u32 (k + 0))
    rw [UInt32.add_zero]
    exact hacc
  | cons t terms ih =>
    have hstep : Gives host lane m (chainStep x acc t) (.u32 (k + emitted w t)) := by
      have hterm := gives_shiftedTerm hw t.shift
      unfold chainStep emitted
      split
      · exact hacc.add hterm
      · rw [show ∀ u : UInt32, k + (0 - u) = k - u by intro u; grind]
        exact hacc.sub hterm
    show Gives host lane m (terms.foldl (chainStep x) (chainStep x acc t))
      (.u32 (k + (emitted w t + total w terms)))
    rw [← UInt32.add_assoc]
    exact ih hstep

variable {k hi : Nat} {e : Expr}

/-- The chain emitted for the digits of `c`. -/
theorem gives_shiftAddChain (hw : Gives host lane m x (.u32 w)) (h : shiftAddChain x c = some e) :
    Gives host lane m e (.u32 (w * c + if Reaches (nafTerms c) then w else 0)) := by
  rw [← total_nafTerms, ← total_reverse]
  unfold shiftAddChain at h
  split at h
  · cases h
  · split at h
    · cases h
    · split at h
      · cases h
      · split at h
        case h_1 => cases h
        case h_2 first rest hterms =>
          cases h
          rw [hterms]
          have hstart : Gives host lane m (chainStart x first) (.u32 (emitted w first)) := by
            have hterm := gives_shiftedTerm hw first.shift
            unfold chainStart emitted
            split
            · exact hterm
            · exact (Gives.u32 0).sub hterm
          exact gives_chain hw hstart rest

theorem isPowerOfTwo_iff : isPowerOfTwo c = true ↔ ∃ k, k < 32 ∧ c.toNat = 2 ^ k := by
  unfold isPowerOfTwo
  rw [decide_eq_true_eq]
  constructor
  · intro h
    obtain ⟨k, hk⟩ := h
    have hlt : 2 ^ k < 2 ^ 32 := hk ▸ c.toNat_lt
    exact ⟨k, (Nat.pow_lt_pow_iff_right (by decide)).mp hlt, hk⟩
  · intro h
    obtain ⟨k, -, hk⟩ := h
    exact ⟨k, hk⟩

theorem eq_weight (hk : k < 32) (h : c.toNat = 2 ^ k) : c = weight k :=
  UInt32.toNat_inj.mp (h.trans (toNat_weight hk).symm)

theorem trailingZeros_eq (h : c.toNat = 2 ^ k) : trailingZeros c = UInt32.ofNat k := by
  unfold trailingZeros
  rw [h, Nat.log2_two_pow]

theorem toNat_trailingZeros (hk : k < 32) (h : c.toNat = 2 ^ k) : (trailingZeros c).toNat = k := by
  rw [trailingZeros_eq h]
  exact UInt32.toNat_ofNat_of_lt' (by show k < 2 ^ 32; omega)

theorem one_shl_eq_weight (hk : k < 32) : (1 : UInt32) <<< UInt32.ofNat k = weight k := by
  have hnat : (UInt32.ofNat k).toNat = k := UInt32.toNat_ofNat_of_lt' (by show k < 2 ^ 32; omega)
  apply UInt32.toNat_inj.mp
  rw [UInt32.toNat_shiftLeft, hnat, Nat.mod_eq_of_lt hk, toNat_weight hk, Nat.shiftLeft_eq]
  show 1 * 2 ^ k % 2 ^ 32 = 2 ^ k
  rw [Nat.one_mul, Nat.mod_eq_of_lt (Nat.pow_lt_pow_right (by decide) hk)]

theorem shiftU32_power (hk : k < 32) (hc : c.toNat = 2 ^ k) (w : UInt32) :
    shiftU32 w (trailingZeros c) true = w * c := by
  rw [trailingZeros_eq hc, eq_weight hk hc, shiftU32_eq_mul hk]

theorem arm_eq_some_iff {α : Type} {b : Bool} {y z : α} : arm b y = some z ↔ b = true ∧ y = z := by
  cases b <;> simp [arm]

theorem sumOfTwoPowers_eq_some_iff (hhi : hi < 32) :
    sumOfTwoPowers x c hi = some e ↔ ∃ lo, lo < 32 ∧ c.toNat = 2 ^ hi + 2 ^ lo ∧
      e = .add (.shl x (.u32 (UInt32.ofNat hi))) (shiftedTerm x lo) := by
  have hhigh := toNat_weight hhi
  unfold sumOfTwoPowers
  rw [one_shl_eq_weight hhi]
  dsimp only
  constructor
  · intro h
    split at h
    case isTrue => cases h
    case isFalse hle =>
      have hle : weight hi ≤ c := UInt32.not_lt.mp hle
      have hnat := UInt32.toNat_sub_of_le _ _ hle
      have hleNat := UInt32.le_iff_toNat_le.mp hle
      split at h
      case isTrue => cases h
      case isFalse =>
        obtain ⟨hpow, rfl⟩ := arm_eq_some_iff.mp h
        obtain ⟨lo, hlo, hlow⟩ := isPowerOfTwo_iff.mp hpow
        refine ⟨lo, hlo, ?_, by rw [toNat_trailingZeros hlo hlow]⟩
        omega
  · intro h
    obtain ⟨lo, hlo, hc, rfl⟩ := h
    have hpos := Nat.two_pow_pos lo
    have hle : weight hi ≤ c := UInt32.le_iff_toNat_le.mpr (by omega)
    have hnat : (c - weight hi).toNat = 2 ^ lo := by
      rw [UInt32.toNat_sub_of_le _ _ hle]
      omega
    have hne : c - weight hi ≠ 0 := by
      intro hz
      rw [hz] at hnat
      exact absurd hnat (by show (0 : Nat) ≠ _; omega)
    rw [if_neg (UInt32.not_lt.mpr hle), if_neg hne, toNat_trailingZeros hlo hnat]
    exact arm_eq_some_iff.mpr ⟨isPowerOfTwo_iff.mpr ⟨lo, hlo, hnat⟩, rfl⟩

theorem differenceOfTwoPowers_eq_some_iff (hhi : hi < 32) (hc : 0 < c.toNat) :
    differenceOfTwoPowers x c hi = some e ↔ ∃ lo, lo < 32 ∧ c.toNat + 2 ^ lo = 2 ^ hi ∧
      e = .sub (.shl x (.u32 (UInt32.ofNat hi))) (shiftedTerm x lo) := by
  have hhigh := toNat_weight hhi
  unfold differenceOfTwoPowers
  rw [one_shl_eq_weight hhi]
  dsimp only
  constructor
  · intro h
    split at h
    case isTrue => cases h
    case isFalse hlt =>
      have hle : c ≤ weight hi := UInt32.le_of_lt (UInt32.not_le.mp hlt)
      have hnat := UInt32.toNat_sub_of_le _ _ hle
      have hleNat := UInt32.le_iff_toNat_le.mp hle
      obtain ⟨hcond, rfl⟩ := arm_eq_some_iff.mp h
      obtain ⟨lo, hlo, hlow⟩ := isPowerOfTwo_iff.mp (Bool.and_eq_true_iff.mp hcond).1
      refine ⟨lo, hlo, ?_, by rw [toNat_trailingZeros hlo hlow]⟩
      omega
  · intro h
    obtain ⟨lo, hlo, hsum, rfl⟩ := h
    have hpos := Nat.two_pow_pos lo
    have hlt : ¬weight hi ≤ c := by
      rw [UInt32.le_iff_toNat_le]
      omega
    have hnat : (weight hi - c).toNat = 2 ^ lo := by
      rw [UInt32.toNat_sub_of_le _ _ (UInt32.le_of_lt (UInt32.not_le.mp hlt))]
      omega
    have hsmall : weight hi - c < weight hi := by
      rw [UInt32.lt_iff_toNat_lt]
      omega
    rw [if_neg hlt, toNat_trailingZeros hlo hnat]
    refine arm_eq_some_iff.mpr ⟨?_, rfl⟩
    rw [Bool.and_eq_true_iff, decide_eq_true_eq]
    exact ⟨isPowerOfTwo_iff.mpr ⟨lo, hlo, hnat⟩, hsmall⟩

/-! ### When a product is decomposed -/

/-- `shift_add_chain` emits a chain for `x * c`. -/
def Chains (x : Expr) (c : UInt32) : Prop :=
  operandDuplicationCost x ≤ 1 ∧ 2 ≤ (nafTerms c).length ∧ shiftAddCost (nafTerms c) ≤ 4

/-- The sum or the difference of two powers of two, the greater one of at most 16 bits. -/
def TwoPowers (c : UInt32) : Prop :=
  ∃ hi lo, hi ≤ 16 ∧ (1 ≤ hi ∧ c.toNat = 2 ^ hi + 2 ^ lo ∨ 2 ≤ hi ∧ c.toNat + 2 ^ lo = 2 ^ hi)

/-- `shift_add_decompose` rewrites the product of `x` and the constant. -/
def Decomposes (x constant : Expr) : Prop :=
  ∃ c, positiveU32Constant constant = some c ∧ 1 < c ∧ isPowerOfTwo c = false ∧
    (Chains x c ∨ TwoPowers c)

theorem shiftAddChain_isSome_iff (hc : 1 < c) (hpow : isPowerOfTwo c = false) :
    (∃ e, shiftAddChain x c = some e) ↔ Chains x c := by
  have hle : ¬c ≤ 1 := UInt32.not_le.mpr hc
  simp only [shiftAddChain, Chains, maxShiftAddChainCost, hle, hpow, Bool.false_eq_true, false_or]
  cases hrev : (nafTerms c).reverse with
  | nil => simp_all
  | cons first rest =>
    split_ifs <;> simp [*]
    omega

/-- What `shift_add_decompose` returns when there is no chain. -/
def IsTwoPowers (x : Expr) (c : UInt32) (e : Expr) : Prop :=
  ∃ hi lo, 1 ≤ hi ∧ hi ≤ 16 ∧ lo < 32 ∧
    (c.toNat = 2 ^ hi + 2 ^ lo ∧
        e = .add (.shl x (.u32 (UInt32.ofNat hi))) (shiftedTerm x lo) ∨
      2 ≤ hi ∧ c.toNat + 2 ^ lo = 2 ^ hi ∧
        e = .sub (.shl x (.u32 (UInt32.ofNat hi))) (shiftedTerm x lo))

theorem findSome?_two_powers {f : Nat → Option Expr} {start count : Nat}
    (h : (range' start count).reverse.findSome? f = some e) :
    ∃ hi, start ≤ hi ∧ hi < start + count ∧ f hi = some e := by
  obtain ⟨hi, hmem, hf⟩ := exists_of_findSome?_eq_some h
  rw [mem_reverse, mem_range'_1] at hmem
  exact ⟨hi, hmem.1, hmem.2, hf⟩

/-- What `shift_add_decompose` returns: a chain, or two powers. -/
theorem shiftAddDecompose_cases {constant : Expr} (h : shiftAddDecompose x constant = some e) :
    ∃ c, positiveU32Constant constant = some c ∧ 1 < c ∧ isPowerOfTwo c = false ∧
      (shiftAddChain x c = some e ∨ shiftAddChain x c = none ∧ IsTwoPowers x c e) := by
  unfold shiftAddDecompose at h
  split at h
  case h_1 => cases h
  case h_2 c hc =>
    split at h
    case isTrue => cases h
    case isFalse hguard =>
      rw [not_or, UInt32.not_le, Bool.not_eq_true] at hguard
      have hpos : 0 < c.toNat := Nat.lt_of_lt_of_le Nat.one_pos
        (Nat.le_of_lt (UInt32.lt_iff_toNat_lt.mp hguard.1))
      refine ⟨c, hc, hguard.1, hguard.2, ?_⟩
      cases hchain : shiftAddChain x c with
      | some e' =>
        rw [hchain] at h
        cases h
        exact .inl rfl
      | none =>
        rw [hchain] at h
        right
        refine ⟨rfl, ?_⟩
        cases hsum : (range' 1 16).reverse.findSome? (sumOfTwoPowers x c) with
        | some e' =>
          rw [hsum] at h
          cases h
          obtain ⟨hi, hlow, hhigh, hf⟩ := findSome?_two_powers hsum
          obtain ⟨lo, hlo, heq, rfl⟩ := (sumOfTwoPowers_eq_some_iff (by omega)).mp hf
          exact ⟨hi, lo, hlow, by omega, hlo, .inl ⟨heq, rfl⟩⟩
        | none =>
          rw [hsum] at h
          obtain ⟨hi, hlow, hhigh, hf⟩ := findSome?_two_powers h
          obtain ⟨lo, hlo, heq, rfl⟩ := (differenceOfTwoPowers_eq_some_iff (by omega) hpos).mp hf
          exact ⟨hi, lo, by omega, by omega, hlo, .inr ⟨hlow, heq, rfl⟩⟩

theorem findSome?_isSome {f : Nat → Option Expr} {start count : Nat} (hlow : start ≤ hi)
    (hhigh : hi < start + count) (h : f hi = some e) :
    ∃ e', (range' start count).reverse.findSome? f = some e' := by
  apply Option.isSome_iff_exists.mp
  rw [findSome?_isSome_iff]
  refine ⟨hi, ?_, by rw [h]; rfl⟩
  rw [mem_reverse, mem_range'_1]
  exact ⟨hlow, hhigh⟩

theorem exists_orElse {α : Type} {o o' : Option α} (h : (∃ e, o = some e) ∨ ∃ e, o' = some e) :
    ∃ e, (o <|> o') = some e := by
  cases o <;> simp_all

theorem lt_32_of_two_pow_le {lo : Nat} (h : 2 ^ lo ≤ c.toNat) : lo < 32 :=
  (Nat.pow_lt_pow_iff_right (by decide)).mp (Nat.lt_of_le_of_lt h c.toNat_lt)

theorem shiftAddDecompose_isSome_iff {constant : Expr} :
    (∃ e, shiftAddDecompose x constant = some e) ↔ Decomposes x constant := by
  constructor
  · intro h
    obtain ⟨e, h⟩ := h
    obtain ⟨c, hc, hone, hpow, hcase⟩ := shiftAddDecompose_cases h
    refine ⟨c, hc, hone, hpow, ?_⟩
    rcases hcase with hchain | ⟨-, hi, lo, hlow, hhigh, -, hsum | hdiff⟩
    · exact .inl ((shiftAddChain_isSome_iff hone hpow).mp ⟨e, hchain⟩)
    · exact .inr ⟨hi, lo, hhigh, .inl ⟨hlow, hsum.1⟩⟩
    · exact .inr ⟨hi, lo, hhigh, .inr ⟨hdiff.1, hdiff.2.1⟩⟩
  · intro h
    obtain ⟨c, hc, hone, hpow, hcase⟩ := h
    have hpos : 0 < c.toNat := Nat.lt_of_lt_of_le Nat.one_pos
      (Nat.le_of_lt (UInt32.lt_iff_toNat_lt.mp hone))
    unfold shiftAddDecompose
    rw [hc]
    dsimp only
    rw [if_neg (by simp [UInt32.not_le.mpr hone, hpow])]
    apply exists_orElse
    rcases hcase with hchain | ⟨hi, lo, hhigh, ⟨hlow, hsum⟩ | ⟨hlow, hdiff⟩⟩
    · exact .inl ((shiftAddChain_isSome_iff hone hpow).mpr hchain)
    · have hle : 2 ^ lo ≤ c.toNat := hsum ▸ Nat.le_add_left _ _
      have hlo := lt_32_of_two_pow_le hle
      right
      apply exists_orElse
      left
      exact findSome?_isSome hlow (by omega)
        ((sumOfTwoPowers_eq_some_iff (by omega)).mpr ⟨lo, hlo, hsum, rfl⟩)
    · have hlo : lo < 32 := by
        have hle : 2 ^ lo ≤ 2 ^ hi := by omega
        have := (Nat.pow_le_pow_iff_right (by decide : 1 < 2)).mp hle
        omega
      right
      apply exists_orElse
      right
      exact findSome?_isSome hlow (by omega)
        ((differenceOfTwoPowers_eq_some_iff (by omega) hpos).mpr ⟨lo, hlo, hdiff, rfl⟩)

theorem gives_twoPowers (hw : Gives host lane m x (.u32 w)) (h : IsTwoPowers x c e) :
    Gives host lane m e (.u32 (w * c)) := by
  obtain ⟨hi, lo, -, hhi, hlo, ⟨hsum, rfl⟩ | ⟨-, hdiff, rfl⟩⟩ := h
  · have hc : c = weight hi + weight lo := by
      apply UInt32.toNat_inj.mp
      rw [UInt32.toNat_add, toNat_weight (by omega), toNat_weight hlo, ← hsum]
      exact (Nat.mod_eq_of_lt c.toNat_lt).symm
    have hval : w * c = w * weight hi + w * weight lo := by
      rw [hc]
      exact UInt32.mul_add
    rw [hval, ← shiftU32_eq_mul (by omega), ← shiftU32_eq_mul hlo]
    exact (hw.binOp (Gives.u32 _) rfl).add (gives_shiftedTerm hw lo)
  · have hc : c = weight hi - weight lo := by
      apply UInt32.toNat_inj.mp
      rw [UInt32.toNat_sub_of_le, toNat_weight (by omega), toNat_weight hlo]
      · omega
      · rw [UInt32.le_iff_toNat_le, toNat_weight hlo, toNat_weight (by omega)]
        omega
    have hval : w * c = w * weight hi - w * weight lo := by
      rw [hc]
      exact UInt32.mul_sub
    rw [hval, ← shiftU32_eq_mul (by omega), ← shiftU32_eq_mul hlo]
    exact (hw.binOp (Gives.u32 _) rfl).sub (gives_shiftedTerm hw lo)

/-- What is emitted for a product with a constant has its value, unless a chain is emitted
for a constant with a top digit and the operand is not zero. -/
theorem shiftChains_exact_iff (hw : Gives host lane m x (.u32 w)) (c : UInt32) :
    (∀ e, shiftAddChain x c = some e ∨ shiftAddDecompose x (.litU32 c) = some e →
      Gives host lane m e (.u32 (w * c))) ↔
    (1 < c → isPowerOfTwo c = false → Chains x c → TopDigit c → w = 0) := by
  constructor
  · intro h hone hpow hchains htop
    obtain ⟨e, he⟩ := (shiftAddChain_isSome_iff hone hpow).mpr hchains
    have hsum := gives_shiftAddChain hw he
    rw [if_pos ((reaches_nafTerms_iff c).mpr htop)] at hsum
    have hval : w * c = w * c + w := Value.u32.inj ((h e (.inl he)).unique hsum)
    grind
  · intro h e he
    have hchain : shiftAddChain x c = some e → Gives host lane m e (.u32 (w * c)) := by
      intro hc
      have hguard : 1 < c ∧ isPowerOfTwo c = false := by
        by_contra hnot
        rw [not_and_or, UInt32.not_lt, Bool.not_eq_false] at hnot
        rw [shiftAddChain, if_pos (hnot.imp_right .inl)] at hc
        cases hc
      have hchains := (shiftAddChain_isSome_iff hguard.1 hguard.2).mp ⟨e, hc⟩
      have hsum := gives_shiftAddChain hw hc
      split at hsum
      case isTrue hreach =>
        have hzero := h hguard.1 hguard.2 hchains ((reaches_nafTerms_iff c).mp hreach)
        rwa [hzero, UInt32.add_zero, ← hzero] at hsum
      case isFalse => rwa [UInt32.add_zero] at hsum
    rcases he with hc | hdec
    · exact hchain hc
    · obtain ⟨k, hk, -, -, hc | ⟨-, htwo⟩⟩ := shiftAddDecompose_cases hdec
      · cases hk
        exact hchain hc
      · cases hk
        exact gives_twoPowers hw htwo

theorem shiftChain_of_large : ∃ e, shiftAddChain (.litU32 1) 0xFFFFFFFE = some e ∧
    ∀ host lane m, Gives host lane m e (.u32 0xFFFFFFFF) ∧
      ¬Gives host lane m e (.u32 (1 * 0xFFFFFFFE)) := by
  have hterms : nafTerms 0xFFFFFFFE = [⟨1, false⟩, ⟨32, true⟩] := by decide +kernel
  have hchains : Chains (.litU32 1) 0xFFFFFFFE := by
    rw [Chains, hterms]
    decide
  obtain ⟨e, he⟩ := (shiftAddChain_isSome_iff (by decide) (by decide)).mpr hchains
  refine ⟨e, he, fun host lane m => ?_⟩
  have hsum := gives_shiftAddChain (Gives.u32 1 : Gives host lane m _ _) he
  rw [if_pos ((reaches_nafTerms_iff _).mpr (by decide))] at hsum
  refine ⟨hsum, fun hprod => ?_⟩
  cases hsum.unique hprod

theorem shiftChains_exact_ten : ∃ e, shiftAddDecompose (.litU32 3) (.litU32 10) = some e ∧
    ∀ host lane m, Gives host lane m e (.u32 30) := by
  obtain ⟨e, he⟩ := Option.isSome_iff_exists.mp
    (by decide +kernel : (shiftAddDecompose (.litU32 3) (.litU32 10)).isSome = true)
  have hten : ¬TopDigit 10 := by decide
  refine ⟨e, he, fun host lane m => ?_⟩
  exact (shiftChains_exact_iff (Gives.u32 3) 10).mpr
    (fun _ _ _ htop => (hten htop).elim) e (.inr he)

end Emitted

end Vyre.StrengthReduce
