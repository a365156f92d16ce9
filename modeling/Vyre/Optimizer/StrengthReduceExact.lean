import Vyre.Optimizer.StrengthReduceSound
import Vyre.Reference.Agreement
import Vyre.Validate.Flow

/-!
# Where strength reduction misfires

In the cases of `Misreduces` what `reduce_expr` returns does not evaluate as the
expression does: it leaves another memory, fails, or is another value. So on
operands that do not notice being evaluated again, the condition is exact.
-/

namespace Vyre.StrengthReduce

open Reference StateExcept ConstFold LiteralFold

section Misfires

variable {env : ScalarEnv} {host : Host} {lane : Lane} {m m₁ m' : Memory} {op : BinOp}
  {e e' l r x constant : Expr} {a b v : Value} {w c : UInt32}
  {fingerprint : Fingerprint} {fl : FoldFloats}

theorem reduceExpr_of_ne_add (hop : op ≠ .add) :
    reduceExpr fingerprint fl (.binOp op l r) = reduceByOperator fingerprint fl op l r := by
  have hhorner : hornerPolynomialInt (.binOp op l r) = none := by
    unfold hornerPolynomialInt collectAddTerms collectOperands
    rw [if_neg hop]
    rfl
  unfold reduceExpr
  rw [hhorner]
  rfl

theorem isLitU32_of_not_steady (h : ¬Steady host lane m e) (k : UInt32) : isLitU32 k e = false := by
  by_contra hlit
  rw [Bool.not_eq_false] at hlit
  apply h
  rw [eq_of_isLitU32 hlit]
  exact fun v m' hrun => hrun.litU32.2

theorem runs_dropped (ha : Runs host lane m l a m₁) (hb : Runs host lane m₁ r b m')
    (hx : Drops op l r x) : ∃ c, Runs host lane m x c m' := by
  have hright : ∀ k, r = .litU32 k ∧ x = l → ∃ c, Runs host lane m x c m' := by
    rintro k ⟨rfl, rfl⟩
    obtain ⟨-, rfl⟩ := hb.litU32
    exact ⟨a, ha⟩
  have hleft : ∀ k, l = .litU32 k ∧ x = r → ∃ c, Runs host lane m x c m' := by
    rintro k ⟨rfl, rfl⟩
    obtain ⟨-, rfl⟩ := ha.litU32
    exact ⟨b, hb⟩
  have hshift : (l = .litU32 0 ∨ l = .litI32 0) ∧ x = r → ∃ c, Runs host lane m x c m' := by
    rintro ⟨hlit | rfl, rfl⟩
    · exact hleft 0 ⟨hlit, rfl⟩
    · obtain ⟨-, rfl⟩ := ha.litI32
      exact ⟨b, hb⟩
  cases op
  case mul | min => exact hx.elim (hright 0) (hleft 0)
  case max => exact hx.elim (hright maxU32) (hleft maxU32)
  case mod => exact hright 1 hx
  case shl | shr => exact hshift hx
  case lt | ge => exact hright 0 hx
  case gt | le => exact hleft 0 hx
  all_goals exact hx.elim

theorem reduce_of_drops (hx : Drops op l r x) (hs : ¬Steady host lane m x) :
    ∃ e', reduceByOperator fingerprint fl op l r = some e' ∧ Steady host lane m e' := by
  have hlit := isLitU32_of_not_steady hs
  have hu32 : ∀ k, Steady host lane m (.litU32 k) := fun k v m' h => h.litU32.2
  have hi32 : ∀ k, Steady host lane m (.litI32 k) := fun k v m' h => h.litI32.2
  have hbool : ∀ k, Steady host lane m (.litBool k) := by
    intro k v m' h
    cases h
    rfl
  cases op
  case mul | min =>
    rcases hx with ⟨rfl, rfl⟩ | ⟨rfl, rfl⟩
    · exact ⟨_, rfl, hu32 0⟩
    · refine ⟨.litU32 0, ?_, hu32 0⟩
      simp only [reduceByOperator, reduceMul, hlit 0]
      rfl
  case max =>
    rcases hx with ⟨rfl, rfl⟩ | ⟨rfl, rfl⟩ <;> refine ⟨.litU32 maxU32, ?_, hu32 maxU32⟩ <;>
      simp only [reduceByOperator, hlit 0, hlit maxU32] <;> rfl
  case mod =>
    obtain ⟨rfl, rfl⟩ := hx
    exact ⟨_, rfl, hu32 0⟩
  case shl | shr =>
    obtain ⟨rfl | rfl, rfl⟩ := hx
    · exact ⟨_, rfl, hu32 0⟩
    · exact ⟨_, rfl, hi32 0⟩
  case lt | gt =>
    obtain ⟨rfl, rfl⟩ := hx
    exact ⟨_, rfl, hbool false⟩
  case ge | le =>
    obtain ⟨rfl, rfl⟩ := hx
    exact ⟨_, rfl, hbool true⟩
  all_goals exact hx.elim

theorem drops_wrong (ha : Runs host lane m l a m₁) (hb : Runs host lane m₁ r b m')
    (hx : Drops op l r x) (hs : ¬Steady host lane m x) :
    ∃ e', reduceByOperator fingerprint fl op l r = some e' ∧ ¬Runs host lane m e' v m' := by
  obtain ⟨c, hc⟩ := runs_dropped ha hb hx
  obtain ⟨e', he', hsteady⟩ := reduce_of_drops hx hs
  refine ⟨e', he', fun hrun => hs ?_⟩
  exact hc.steady_iff.mpr (hsteady v m' hrun)

/-! ## Products -/

/-- No shift of an `i32` by a `u32` literal evaluates. -/
theorem not_runs_shl {i : Int32} {s : UInt32} (hx : Runs host lane m x (.i32 i) m₁) :
    ¬Runs host lane m (.shl x (.u32 s)) v m' := by
  intro h
  obtain ⟨a, m₂, b, ha, hb, hop⟩ := h.binOp_inv
  obtain ⟨rfl, rfl⟩ := ha.unique hx
  obtain ⟨rfl, -⟩ := hb.litU32
  cases hop

theorem not_runs_chain (hacc : ∀ v m', ¬Runs host lane m e v m') (terms : List SignedShiftTerm)
    (v : Value) (m' : Memory) : ¬Runs host lane m (terms.foldl (chainStep x) e) v m' := by
  induction terms generalizing e with
  | nil => exact hacc v m'
  | cons t terms ih =>
    apply ih
    intro v m' h
    unfold chainStep at h
    split at h <;>
    · obtain ⟨a, m₁, -, ha, -⟩ := h.binOp_inv
      exact hacc a m₁ ha

theorem lt_shift_of_mem_tail {n : UInt32} {s : Nat} {term : SignedShiftTerm}
    (h : term ∈ (nafFrom n s).tail) : s < term.shift := by
  fun_induction nafFrom n s with
  | case1 => cases h
  | case2 n s hz heven ih => exact Nat.lt_of_succ_lt (ih h)
  | case3 n s hz hodd hsign ih | case4 n s hz hodd hsign ih => exact le_shift_of_mem h

theorem not_runs_shiftAddChain {i : Int32} (h : shiftAddChain x c = some e)
    (hx : Runs host lane m x (.i32 i) m₁) : ¬Runs host lane m e v m' := by
  unfold shiftAddChain at h
  split at h
  · cases h
  · split at h
    · cases h
    case isFalse hlen =>
      split at h
      · cases h
      · split at h
        case h_1 => cases h
        case h_2 first rest hterms =>
          cases h
          -- The chain starts with the last of at least two digits.
          have hshift : first.shift ≠ 0 := by
            have hlist : nafTerms c = rest.reverse ++ [first] := by
              rw [← List.reverse_reverse (nafTerms c), hterms, List.reverse_cons]
            have hmem : first ∈ (nafTerms c).tail := by
              cases hrest : rest.reverse with
              | nil =>
                rw [hlist, hrest] at hlen
                exact absurd Nat.one_lt_two hlen
              | cons t ts =>
                rw [hlist, hrest]
                exact List.mem_append_right ts List.mem_cons_self
            exact Nat.ne_of_gt (lt_shift_of_mem_tail hmem)
          apply not_runs_chain
          intro v m' hrun
          unfold chainStart shiftedTerm at hrun
          split at hrun
          · exact not_runs_shl hx hrun
          · obtain ⟨a, m₂, b, ha, hb, -⟩ := hrun.binOp_inv
            obtain ⟨-, rfl⟩ := ha.litU32
            exact not_runs_shl hx hb

/-- What replaces a product of `i32` operands does not evaluate. -/
theorem not_runs_decompose {i : Int32} (h : shiftAddDecompose x constant = some e)
    (hx : Runs host lane m x (.i32 i) m₁) : ¬Runs host lane m e v m' := by
  obtain ⟨c, -, -, -, hchain | ⟨-, hi, lo, -, -, -, ⟨-, rfl⟩ | ⟨-, -, rfl⟩⟩⟩ :=
    shiftAddDecompose_cases h
  · exact not_runs_shiftAddChain hchain hx
  all_goals
    intro hrun
    obtain ⟨a, m₂, -, ha, -⟩ := hrun.binOp_inv
    exact not_runs_shl hx ha

def ShiftRule (l r e : Expr) : Prop :=
  (∃ s, powerOfTwoShift r = some s ∧ e = .shl l (.u32 s)) ∨
    (∃ s, powerOfTwoShift r = none ∧ powerOfTwoShift l = some s ∧ e = .shl r (.u32 s)) ∨
    NoPower l r ∧
      (shiftAddDecompose l r = some e ∨ shiftAddDecompose l r = none ∧
        shiftAddDecompose r l = some e)

theorem shiftRule_of_shifts (h : Shifts l r) : ∃ e, ShiftRule l r e := by
  cases hr : powerOfTwoShift r with
  | some s => exact ⟨_, .inl ⟨s, hr, rfl⟩⟩
  | none =>
    cases hl : powerOfTwoShift l with
    | some s => exact ⟨_, .inr (.inl ⟨s, hr, hl, rfl⟩)⟩
    | none =>
      have hno : NoPower l r := ⟨hr, hl⟩
      cases hdec : shiftAddDecompose l r with
      | some e => exact ⟨e, .inr (.inr ⟨hno, .inl hdec⟩)⟩
      | none =>
        rcases h with h | h | h
        · exact absurd hno h
        · obtain ⟨e, he⟩ := shiftAddDecompose_isSome_iff.mpr h
          rw [hdec] at he
          cases he
        · obtain ⟨e, he⟩ := shiftAddDecompose_isSome_iff.mpr h
          exact ⟨e, .inr (.inr ⟨hno, .inr ⟨hdec, he⟩⟩)⟩

theorem reduceMul_of_shiftRule (hr : ∀ k, k = 0 ∨ k = 1 → isLitU32 k r = false)
    (hl : ∀ k, k = 0 ∨ k = 1 → isLitU32 k l = false) (h : ShiftRule l r e) :
    reduceMul l r = some e := by
  unfold reduceMul
  rw [hr 0 (.inl rfl), hl 0 (.inl rfl), hr 1 (.inr rfl), hl 1 (.inr rfl)]
  obtain ⟨s, hs, rfl⟩ | ⟨s, hn, hs, rfl⟩ | ⟨⟨hnr, hnl⟩, hdec | ⟨hn, hdec⟩⟩ := h <;>
    simp only [*] <;> rfl

theorem isLitU32_of_runs (h : Runs host lane m e v m') {k : UInt32} (hv : v ≠ .u32 k) :
    isLitU32 k e = false := by
  by_contra hlit
  rw [Bool.not_eq_false] at hlit
  exact hv (literal_of_isLitU32 h hlit).1

theorem signed_wrong (ha : Runs host lane m l a m₁) (hb : Runs host lane m₁ r b m')
    (hv : evalBinop host.floats .mul a b = .ok v) (hi : IsLitI32 l ∨ IsLitI32 r)
    (hs : Shifts l r) : ∃ e', reduceMul l r = some e' ∧ ¬Runs host lane m e' v m' := by
  obtain ⟨i, j, rfl, rfl⟩ : ∃ i j, a = .i32 i ∧ b = .i32 j := by
    rcases hi with ⟨i, rfl⟩ | ⟨j, rfl⟩
    · obtain ⟨rfl, -⟩ := ha.litI32
      obtain ⟨j, rfl⟩ := i32_of_left hv
      exact ⟨i, j, rfl, rfl⟩
    · obtain ⟨rfl, -⟩ := hb.litI32
      obtain ⟨i, rfl⟩ := i32_of_right hv
      exact ⟨i, j, rfl, rfl⟩
  -- Where `l` is the constant it is an `i32` literal.
  have hmem : (∃ s, powerOfTwoShift l = some s) ∨ (∃ c, positiveU32Constant l = some c) →
      m₁ = m := by
    have hlit : IsLitI32 l → m₁ = m := fun ⟨c, hc⟩ => (hc ▸ ha).litI32.2
    have hword : ∀ c, l ≠ .litU32 c := fun c hc => by cases (hc ▸ ha).litU32.1
    rintro (⟨s, h⟩ | ⟨c, h⟩)
    · exact hlit ((powerOfTwoShift_cases h).resolve_left fun ⟨c, k, hc, _⟩ => hword c hc)
    · exact hlit ((positiveU32Constant_cases h).resolve_left (hword c))
  obtain ⟨e', he'⟩ := shiftRule_of_shifts hs
  refine ⟨e', reduceMul_of_shiftRule (fun k _ => isLitU32_of_runs hb (by simp))
    (fun k _ => isLitU32_of_runs ha (by simp)) he', ?_⟩
  obtain ⟨s, hs, rfl⟩ | ⟨s, hn, hs, rfl⟩ | ⟨hno, hdec | ⟨hn, hdec⟩⟩ := he'
  · exact not_runs_shl ha
  · rw [hmem (.inl ⟨s, hs⟩)] at hb
    exact not_runs_shl hb
  · exact not_runs_decompose hdec ha
  · obtain ⟨c, hc, -⟩ := shiftAddDecompose_cases hdec
    rw [hmem (.inr ⟨c, hc⟩)] at hb
    exact not_runs_decompose hdec hb

theorem overflow_wrong (v : Value) (m' : Memory) (h : Overflows host lane m x constant)
    (hv : ∀ w c, Gives host lane m x (.u32 w) → constant = .litU32 c → v = .u32 (w * c)) :
    ∃ e', shiftAddDecompose x constant = some e' ∧ ¬Runs host lane m e' v m' := by
  obtain ⟨c, w, rfl, hone, hpow, hchains, hreach, hw, hne⟩ := h
  obtain ⟨e', he'⟩ := (shiftAddChain_isSome_iff hone hpow).mpr hchains
  have hdec : shiftAddDecompose x (.litU32 c) = some e' := by
    unfold shiftAddDecompose positiveU32Constant
    dsimp only
    rw [if_neg (by simp [UInt32.not_le.mpr hone, hpow]), he']
    rfl
  refine ⟨e', hdec, fun hrun => hne ?_⟩
  have hsum := gives_shiftAddChain hw he'
  have hval := (hrun.unique hsum.runs).1
  grind

theorem Overflows.not_unit (h : Overflows host lane m x constant) (hx : powerOfTwoShift x = none)
    (k : UInt32) (hk : k = 0 ∨ k = 1) : isLitU32 k x = false ∧ isLitU32 k constant = false := by
  obtain ⟨c, w, rfl, hone, -, -, -, hw, hne⟩ := h
  constructor
  · by_contra hlit
    rw [Bool.not_eq_false] at hlit
    rcases hk with rfl | rfl
    · exact hne (Value.u32.inj (value_of_isLitU32 hw hlit))
    · rw [eq_of_isLitU32 hlit, powerOfTwoShift,
        if_pos (isPowerOfTwo_iff.mpr ⟨0, by decide, rfl⟩)] at hx
      cases hx
  · have hlt := UInt32.lt_iff_toNat_lt.mp hone
    refine isLitU32_of_runs (Gives.u32 c : Gives host lane m _ _).runs fun heq => ?_
    cases heq
    rcases hk with rfl | rfl <;> exact absurd hlt (by decide)

theorem product_wrong (ha : Runs host lane m l a m₁) (hb : Runs host lane m₁ r b m')
    (hv : evalBinop host.floats .mul a b = .ok v) (hmis : Miscomputes host lane m .mul l r) :
    ∃ e', reduceMul l r = some e' ∧ ¬Runs host lane m e' v m' := by
  rcases hmis with ⟨hi, hs⟩ | ⟨hno, hover | ⟨hndec, hover⟩⟩
  · exact signed_wrong ha hb hv hi hs
  · obtain ⟨e', he', hwrong⟩ := overflow_wrong v m' hover fun w c hw hc => by
      subst hc
      obtain ⟨rfl, rfl⟩ := ha.unique hw.runs
      obtain ⟨rfl, -⟩ := hb.litU32
      cases hv
      rfl
    have hunit := hover.not_unit hno.2
    exact ⟨e', reduceMul_of_shiftRule (fun k hk => (hunit k hk).2) (fun k hk => (hunit k hk).1)
      (.inr (.inr ⟨hno, .inl he'⟩)), hwrong⟩
  · obtain ⟨e', he', hwrong⟩ := overflow_wrong v m' hover fun w c hw hc => by
      subst hc
      obtain ⟨rfl, rfl⟩ := ha.litU32
      obtain ⟨rfl, -⟩ := hb.unique hw.runs
      cases hv
      exact congrArg Value.u32 (UInt32.mul_comm c w)
    have hnone : shiftAddDecompose l r = none := by
      cases hdec : shiftAddDecompose l r with
      | none => rfl
      | some e => exact absurd (shiftAddDecompose_isSome_iff.mp ⟨e, hdec⟩) hndec
    have hunit := hover.not_unit hno.1
    exact ⟨e', reduceMul_of_shiftRule (fun k hk => (hunit k hk).1) (fun k hk => (hunit k hk).2)
      (.inr (.inr ⟨hno, .inr ⟨hnone, he'⟩⟩)), hwrong⟩

theorem shift_wrong (hop : op = .shl ∨ op = .shr) {x : Expr} {p q : UInt32} (hq : q ≠ 0)
    (hx : Runs host lane m x (.u32 w) m₁) (hap : ShiftsApart op w p q)
    (hrun : Runs host lane m (.binOp op (.binOp op x (.litU32 p)) (.litU32 q)) v m') :
    ∃ e', reduceShift op (.binOp op x (.litU32 p)) (.litU32 q) = some e' ∧
      ¬Runs host lane m e' v m' := by
  have hshift : ∀ {y : Expr} {u : UInt32} (s : UInt32), Runs host lane m y (.u32 u) m₁ →
      Runs host lane m (.binOp op y (.litU32 s)) (.u32 (shiftU32 u s (op = .shl))) m₁ := by
    intro y u s hy
    rcases hop with rfl | rfl <;> exact hy.binOp (Gives.u32 s).runs rfl
  have hrule : reduceShift op (.binOp op x (.litU32 p)) (.litU32 q) =
      some (.binOp op x (.u32 (fusedShift p q))) := by
    have hz : (q == 0) = false := beq_eq_false_iff_ne.mpr hq
    simp [reduceShift, arm, isLitU32, isLitI32, hz]
  refine ⟨_, hrule, fun hfused => (shiftsApart_iff hop).mp hap ?_⟩
  obtain ⟨htwice, -⟩ := hrun.unique (hshift q (hshift p hx))
  obtain ⟨honce, -⟩ := hfused.unique (hshift (fusedShift p q) hx)
  exact Value.u32.inj (htwice.symm.trans honce)

/-- The rule for a complement returns a `u32`. -/
theorem complement_wrong {i : Int32} {result : UInt32} (hop : IsMask op result)
    (hl : l.Forall (ScalarNode env)) (hr : r.Forall (ScalarNode env))
    (ha : Runs host lane m l a m₁) (hb : Runs host lane m₁ r b m')
    (hv : evalBinop host.floats op a b = .ok v) (hx : Complements l r x)
    (hi : Gives host lane m x (.i32 i)) :
    ∃ e', reduceComplement fingerprint result l r = some e' ∧ ¬Runs host lane m e' v m' := by
  have hrule : reduceComplement fingerprint result l r = some (.u32 result) := by
    unfold reduceComplement
    rcases hx with ⟨rfl, rfl⟩ | ⟨rfl, rfl⟩
    · rw [(isComplementOf_iff hr).mpr rfl]
      rfl
    · rw [(isComplementOf_iff hl).mpr rfl]
      cases isComplementOf fingerprint (.unOp .bitNot x) x <;> rfl
  obtain ⟨p, q, rfl, rfl⟩ : ∃ p q, a = .i32 p ∧ b = .i32 q := by
    rcases hx with ⟨rfl, rfl⟩ | ⟨rfl, rfl⟩
    · obtain ⟨rfl, rfl⟩ := ha.unique hi.runs
      obtain ⟨j, rfl⟩ := i32_of_left hv
      exact ⟨i, j, rfl, rfl⟩
    · obtain ⟨p, hp, hnot⟩ := ha.unOp_inv
      obtain ⟨rfl, rfl⟩ := hp.unique hi.runs
      cases hnot
      obtain ⟨j, rfl⟩ := i32_of_left hv
      exact ⟨_, j, rfl, rfl⟩
  refine ⟨_, hrule, fun hrun => ?_⟩
  obtain ⟨rfl, -⟩ := hrun.litU32
  rcases hop with ⟨rfl, -⟩ | ⟨rfl | rfl, -⟩ <;> cases hv

theorem misreduces_wrong (he : e.Forall (ScalarNode env)) (hrun : Runs host lane m e v m')
    (hmis : Misreduces host lane m e) :
    ∃ e', reduceExpr fingerprint fl e = some e' ∧ ¬Runs host lane m e' v m' := by
  cases e
  case binOp op l r =>
    obtain ⟨a, m₁, b, ha, hb, hv⟩ := hrun.binOp_inv
    obtain ⟨-, hl, hr⟩ := he
    have hadd : op ≠ .add := by
      rintro rfl
      rcases hmis with ⟨x, hx, -⟩ | hx <;> exact hx
    rw [reduceExpr_of_ne_add hadd]
    rcases hmis with ⟨x, hx, hs⟩ | hmis
    · exact drops_wrong ha hb hx hs
    cases op
    case mul => exact product_wrong ha hb hv hmis
    case shl | shr =>
      obtain ⟨x, p, q, w, m₂, rfl, rfl, hq, hx, hap⟩ := hmis
      exact shift_wrong (by simp) hq hx hap hrun
    case bitAnd | bitOr | bitXor =>
      obtain ⟨x, i, hx, hi⟩ := hmis
      exact complement_wrong (by simp [IsMask]) hl hr ha hb hv hx hi
    all_goals exact hmis.elim
  all_goals exact hmis.elim

/-- What `reduce_expr` returns has the value and the effect of the expression unless it
misreduces it, for operands that do not notice being evaluated again or in the other
order. -/
theorem reduceExpr_preserves_iff (henv : env.Describes lane m) (he : e.Forall (ScalarNode env))
    (hrun : Runs host lane m e v m') (hquiet : Quiet host lane m e) :
    (∀ e', reduceExpr fingerprint fl e = some e' → Runs host lane m e' v m') ↔
      ¬Misreduces host lane m e := by
  constructor
  · intro h hmis
    obtain ⟨e', he', hwrong⟩ := misreduces_wrong he hrun hmis
    exact hwrong (h e' he')
  · intro hmis
    exact reduceExpr_runs henv he hrun hquiet hmis

end Misfires

/-- `atomic_add(acc, 0, 1) * 0`. -/
def countedZero : Expr :=
  .binOp .mul (.atomic .add "acc" (.litU32 0) none (.litU32 1) .seqCst) (.litU32 0)

/-- `one * 0xFFFFFFFE`. -/
def largeProduct : Expr := .binOp .mul (.var "one") (.litU32 0xFFFFFFFE)

/-- `signed * 4`. -/
def signedProduct : Expr := .binOp .mul (.var "signed") (.litI32 4)

def productProgram : Program :=
  .wrapped [.readWrite "acc" 0 .u32] (1, 1, 1)
    [.letBind "one" (.litU32 1), .letBind "signed" (.litI32 7), .letBind "counted" countedZero,
     .letBind "large" largeProduct, .letBind "product" signedProduct]

/-- The expression evaluates to `v`, and what replaces it does not, or not with the same effect. -/
def Differs (e : Expr) (v : Value) : Prop :=
  ∃ m', Runs integerHost scalarLane accMemory e v m' ∧
    ∃ e', reduceExpr (fun _ => []) integerFloats e = some e' ∧
      ¬Runs integerHost scalarLane accMemory e' v m'

theorem nafTerms_large : nafTerms 0xFFFFFFFE = [⟨1, false⟩, ⟨32, true⟩] := by decide +kernel

theorem overflows_large : Overflows integerHost scalarLane accMemory (.var "one")
    (.litU32 0xFFFFFFFE) := by
  refine ⟨0xFFFFFFFE, 1, rfl, by decide, by decide, ?_, ?_, rfl, by decide⟩
  · rw [Chains, nafTerms_large]
    decide
  · rw [nafTerms_large]
    exact ⟨⟨32, true⟩, by simp, rfl⟩

theorem reduceExpr_changes_values :
    Validate.validate none productProgram = [] ∧ Differs countedZero (.u32 0) ∧
      Differs largeProduct (.u32 0xFFFFFFFE) ∧ Differs signedProduct (.i32 28) := by
  have hfour : isPowerOfTwo 4 = true := isPowerOfTwo_iff.mpr ⟨2, by decide, rfl⟩
  have hlarge : isPowerOfTwo 0xFFFFFFFE = false := by decide
  refine ⟨?_, ⟨_, rfl, _, rfl, fun h => ?_⟩, ⟨accMemory, rfl, ?_⟩, ⟨accMemory, rfl, ?_⟩⟩
  · decide
  · exact absurd (congrArg (fun m : Memory => (m.storage "acc").map (·.bytes)) h.litU32.2)
      (by decide)
  · have he : largeProduct.Forall (ScalarNode scalarEnv) := ⟨trivial, ⟨.u32, rfl⟩, trivial⟩
    refine misreduces_wrong he rfl ?_
    refine .inr (.inr ⟨⟨?_, rfl⟩, .inl overflows_large⟩)
    rfl
  · have he : signedProduct.Forall (ScalarNode scalarEnv) := ⟨trivial, ⟨.i32, rfl⟩, trivial⟩
    refine misreduces_wrong he rfl ?_
    refine .inr (.inl ⟨.inr ⟨4, rfl⟩, .inl fun hno => ?_⟩)
    have hshift := hno.1
    cases hshift

/-- `atomic_add(acc, 0, 1) * 4`. -/
def countedProduct : Expr :=
  .binOp .mul (.atomic .add "acc" (.litU32 0) none (.litU32 1) .seqCst) (.litU32 4)

theorem scalarEnv_describes_acc : scalarEnv.Describes scalarLane accMemory where
  vars := scalarEnv_describes.vars
  buffers _ _ _ hty _ := by cases hty

theorem countedProduct_scalar : countedProduct.Forall (ScalarNode scalarEnv) :=
  ⟨trivial, ⟨trivial, trivial, trivial, trivial⟩, trivial⟩

theorem countedProduct_quiet : Quiet integerHost scalarLane accMemory countedProduct := by
  refine ⟨fun x hx => ?_, fun y hy => ?_⟩
  · have hshift := hx.1.1
    cases hshift
  · cases hy.1

theorem reduceExpr_preserves_iff_counted : ∃ m',
    Runs integerHost scalarLane accMemory countedProduct (.u32 20) m' ∧
      ((∀ e', reduceExpr (fun _ => []) integerFloats countedProduct = some e' →
          Runs integerHost scalarLane accMemory e' (.u32 20) m') ↔
        ¬Misreduces integerHost scalarLane accMemory countedProduct) :=
  ⟨_, rfl, reduceExpr_preserves_iff scalarEnv_describes_acc countedProduct_scalar rfl
    countedProduct_quiet⟩

end Vyre.StrengthReduce
