import Vyre.Optimizer.FoldIdentities
import Vyre.Optimizer.ScalarRuns
import Vyre.Optimizer.StrengthReduce

/-!
# Horner form

A sum of monomials in one variable and the Horner form emitted for it have the
same value. Words and signed words are added and multiplied alike, so both are
computed on bits: a monomial is a coefficient times a power of the variable's
bits, and the loop over the terms collects the coefficients of a polynomial
whose value is the sum so far.
-/

namespace Vyre.StrengthReduce

open Reference StateExcept ConstFold List Option

def IntKind.value : IntKind → UInt32 → Value
  | .u32, bits => .u32 bits
  | .i32, bits => .i32 bits.toInt32

section Kinds

variable {k : IntKind} {fl : Floats} {x y : Value} {b : UInt32}

theorem IntKind.value_inj {b' : UInt32} (h : k.value b = k.value b') : b = b' := by
  cases k with
  | u32 => exact Value.u32.inj h
  | i32 =>
    have hbits := congrArg Int32.toUInt32 (Value.i32.inj h)
    rwa [UInt32.toUInt32_toInt32] at hbits

theorem eval_add_kind (a b : UInt32) :
    evalBinop fl .add (k.value a) (k.value b) = .ok (k.value (a + b)) := by
  cases k with
  | u32 => rfl
  | i32 => exact congrArg (fun i => Except.ok (Value.i32 i)) (UInt32.toInt32_add a b).symm

theorem eval_mul_kind (a b : UInt32) :
    evalBinop fl .mul (k.value a) (k.value b) = .ok (k.value (a * b)) := by
  cases k with
  | u32 => rfl
  | i32 => exact congrArg (fun i => Except.ok (Value.i32 i)) (UInt32.toInt32_mul a b).symm

theorem value_toUInt32 (i : Int32) : Value.i32 i = IntKind.i32.value i.toUInt32 :=
  congrArg Value.i32 (Int32.toInt32_toUInt32 i).symm

theorem kind_of_eval {op : BinOp} (hop : op = .add ∨ op = .mul)
    (h : evalBinop fl op x y = .ok (k.value b)) : ∃ a c, x = k.value a ∧ y = k.value c := by
  cases k with
  | u32 =>
    cases x <;> cases y <;> rcases hop with rfl | rfl <;> cases h <;> exact ⟨_, _, rfl, rfl⟩
  | i32 =>
    cases x <;> cases y <;> rcases hop with rfl | rfl <;> cases h <;>
      exact ⟨_, _, value_toUInt32 _, value_toUInt32 _⟩

theorem add_of_eval (h : evalBinop fl .add x y = .ok (k.value b)) :
    ∃ a c, x = k.value a ∧ y = k.value c ∧ a + c = b := by
  obtain ⟨a, c, rfl, rfl⟩ := kind_of_eval (.inl rfl) h
  rw [eval_add_kind] at h
  exact ⟨a, c, rfl, rfl, IntKind.value_inj (Except.ok.inj h)⟩

theorem mul_of_eval (h : evalBinop fl .mul x y = .ok (k.value b)) :
    ∃ a c, x = k.value a ∧ y = k.value c ∧ a * c = b := by
  obtain ⟨a, c, rfl, rfl⟩ := kind_of_eval (.inr rfl) h
  rw [eval_mul_kind] at h
  exact ⟨a, c, rfl, rfl, IntKind.value_inj (Except.ok.inj h)⟩

end Kinds

section Terms

variable {host : Host} {lane : Lane} {m m' : Memory} {e : Expr} {k : IntKind} {b : UInt32}

/-- The operands of a tree of an operator, which is `f` with the unit `u` on bits, have
its kind, and combine to it. -/
theorem runs_operands {op : BinOp} {f : UInt32 → UInt32 → UInt32} {u : UInt32}
    (hop : ∀ x y b, evalBinop host.floats op x y = .ok (k.value b) →
      ∃ a c, x = k.value a ∧ y = k.value c ∧ f a c = b)
    (hassoc : ∀ a b c, f (f a b) c = f a (f b c)) (hunit : ∀ a, f u a = a) (hunit' : ∀ a, f a u = a)
    (h : Runs host lane m e (k.value b) m')
    (hkeeps : ∀ t ∈ collectOperands op e, Keeps Eq (evalExpr host [lane] t lane)) :
    m' = m ∧ ∃ bs, List.Forall₂ (fun t bits => Gives host lane m t (k.value bits))
      (collectOperands op e) bs ∧ bs.foldr f u = b := by
  have hleaf : ∀ {e b m'}, Runs host lane m e (k.value b) m' →
      Keeps Eq (evalExpr host [lane] e lane) → m' = m ∧
        ∃ bs, List.Forall₂ (fun t bits => Gives host lane m t (k.value bits)) [e] bs ∧
          bs.foldr f u = b := by
    intro e b m' h hkeep
    have hm : m = m' := hkeep m _ m' h
    subst hm
    exact ⟨rfl, [b], .cons h .nil, hunit' b⟩
  have happend : ∀ as bs : List UInt32, (as ++ bs).foldr f u = f (as.foldr f u) (bs.foldr f u) := by
    intro as bs
    induction as with
    | nil => exact (hunit _).symm
    | cons a as ih =>
      show f a ((as ++ bs).foldr f u) = f (f a (as.foldr f u)) (bs.foldr f u)
      rw [ih, hassoc]
  fun_induction collectOperands op e generalizing b m' with
  | case1 left right ihl ihr =>
    obtain ⟨x, m₁, y, hx, hy, hev⟩ := h.binOp_inv
    obtain ⟨a, c, rfl, rfl, rfl⟩ := hop x y b hev
    obtain ⟨rfl, as, has, rfl⟩ := ihl hx fun t ht => hkeeps t (mem_append_left _ ht)
    obtain ⟨rfl, cs, hcs, rfl⟩ := ihr hy fun t ht => hkeeps t (mem_append_right _ ht)
    exact ⟨rfl, as ++ cs, rel_append has hcs, happend as cs⟩
  | case2 op' left right hne | case3 e hne => exact hleaf h (hkeeps _ (by simp))

end Terms

/-! ## Monomials -/

def power (x : UInt32) : Nat → UInt32
  | 0 => 1
  | n + 1 => x * power x n

def variableBits (lane : Lane) : Option Ident → UInt32
  | none => 0
  | some name =>
      match lane.locals name with
      | some (.u32 bits) => bits
      | some (.i32 i) => i.toUInt32
      | _ => 0

section Monomials

variable {host : Host} {lane : Lane} {m : Memory} {e : Expr} {k : IntKind} {b : UInt32}

theorem variableBits_eq {name : Ident} (h : lane.locals name = some (k.value b)) :
    variableBits lane (some name) = b := by
  unfold variableBits
  cases k with
  | u32 | i32 => simp [h, IntKind.value]

theorem locals_of_gives {name : Ident} (h : Gives host lane m (.var name) (k.value b)) :
    lane.locals name = some (k.value (variableBits lane (some name))) := by
  have hlocal := (orFail_eq_ok.mp h).1
  rw [variableBits_eq hlocal]
  exact hlocal

theorem kind_of_litU32 {value : UInt32} (h : Gives host lane m (.litU32 value) (k.value b)) :
    k = .u32 ∧ b = value := by
  cases k <;> cases h
  exact ⟨rfl, rfl⟩

theorem kind_of_litI32 {value : Int32} (h : Gives host lane m (.litI32 value) (k.value b)) :
    k = .i32 ∧ b = value.toUInt32 := by
  cases k <;> cases h
  exact ⟨rfl, (UInt32.toUInt32_toInt32 b).symm⟩

theorem agree_eq_some {α : Type} [DecidableEq α] {known : Option α} {x y : α}
    (h : agree known x = some y) : y = x ∧ (known = none ∨ known = some x) := by
  unfold agree at h
  grind

/-- A monomial of the kind: its variable holds an integer of the kind. -/
structure Monomial.Fits (lane : Lane) (k : IntKind) (s : Monomial) : Prop where
  constant : s.var = none → s.degree = 0
  bound : ∀ name, s.var = some name →
    lane.locals name = some (k.value (variableBits lane (some name)))
  kind : ∀ k', s.kind = some k' → k' = k

def Monomial.value (lane : Lane) (s : Monomial) : UInt32 :=
  s.coeff * power (variableBits lane s.var) s.degree

variable {s s' : Monomial}

theorem Monomial.Fits.factor (h : s.Fits lane k) (hs : s.factor e = some s')
    (he : Gives host lane m e (k.value b)) : s'.Fits lane k ∧ s'.value lane = s.value lane * b := by
  unfold Monomial.factor at hs
  split at hs
  case h_1 value | h_2 value =>
    obtain ⟨k', hk', rfl⟩ := map_eq_some_iff.mp hs
    obtain ⟨rfl, rfl⟩ : k = _ ∧ b = _ := by
      first | exact kind_of_litU32 he | exact kind_of_litI32 he
    cases (agree_eq_some hk').1
    refine ⟨⟨h.constant, h.bound, fun k' hk => (some.inj hk).symm⟩, ?_⟩
    unfold Monomial.value
    grind
  case h_3 name =>
    obtain ⟨v, hv, rfl⟩ := map_eq_some_iff.mp hs
    obtain ⟨rfl, hknown⟩ := agree_eq_some hv
    have hlocal := locals_of_gives he
    have hbits : variableBits lane (some v) = b := variableBits_eq (orFail_eq_ok.mp he).1
    constructor
    · refine ⟨fun hnone => (by cases hnone), fun name hname => ?_, h.kind⟩
      cases hname
      exact hlocal
    · show s.coeff * (variableBits lane (some v) * power (variableBits lane (some v)) s.degree) = _
      rw [hbits]
      rcases hknown with hnone | hsome
      · unfold Monomial.value
        rw [h.constant hnone]
        show s.coeff * (b * 1) = s.coeff * 1 * b
        grind
      · unfold Monomial.value
        grind
  case h_4 => cases hs

theorem Monomial.Fits.factors {es : List Expr} {bs : List UInt32} (h : s.Fits lane k)
    (hs : es.foldlM Monomial.factor s = some s')
    (hes : List.Forall₂ (fun t bits => Gives host lane m t (k.value bits)) es bs) :
    s'.Fits lane k ∧ s'.value lane = s.value lane * bs.foldr (· * ·) 1 := by
  induction hes generalizing s with
  | nil =>
    cases hs
    exact ⟨h, (UInt32.mul_one _).symm⟩
  | cons hhead htail ih =>
    obtain ⟨s₁, hfirst, hrest⟩ := bind_eq_some_iff.mp hs
    obtain ⟨hfits, hval⟩ := h.factor hfirst hhead
    obtain ⟨hfits', hval'⟩ := ih hfits hrest
    refine ⟨hfits', ?_⟩
    rw [hval', hval]
    exact UInt32.mul_assoc _ _ _

theorem keeps_of_factor (h : s.factor e = some s') : Keeps Eq (evalExpr host [lane] e lane) := by
  unfold Monomial.factor at h
  split at h
  · exact .pure _
  · exact .pure _
  · exact keeps_of_respects fun _ => follows_orFail _ _ _
  · cases h

theorem keeps_of_factors {es : List Expr} (h : es.foldlM Monomial.factor s = some s') :
    ∀ e ∈ es, Keeps Eq (evalExpr host [lane] e lane) := by
  induction es generalizing s with
  | nil => simp
  | cons f fs ih =>
    obtain ⟨s₁, hfirst, hrest⟩ := bind_eq_some_iff.mp h
    exact forall_mem_cons.mpr ⟨keeps_of_factor hfirst, ih hrest⟩

theorem keeps_of_operands {op : BinOp}
    (h : ∀ t ∈ collectOperands op e, Keeps Eq (evalExpr host [lane] t lane)) :
    Keeps Eq (evalExpr host [lane] e lane) := by
  fun_induction collectOperands op e with
  | case1 left right ihl ihr =>
    exact (ihl fun t ht => h t (mem_append_left _ ht)).bind fun a =>
      (ihr fun t ht => h t (mem_append_right _ ht)).bind fun b => keeps_of_respects fun _ =>
        follows_lift _
  | case2 op' left right hne | case3 e hne => exact h _ (by simp)

theorem monomialIntTerm_keeps {t : Monomial} (h : monomialIntTerm e = some t) :
    Keeps Eq (evalExpr host [lane] e lane) := by
  unfold monomialIntTerm at h
  split at h
  · exact .pure _
  · exact .pure _
  · exact keeps_of_respects fun _ => follows_orFail _ _ _
  · split at h
    · cases h
    · exact keeps_of_operands (keeps_of_factors h)

theorem monomialIntTerm_fits {t : Monomial} (h : monomialIntTerm e = some t)
    (he : Gives host lane m e (k.value b)) : t.Fits lane k ∧ t.value lane = b := by
  unfold monomialIntTerm at h
  split at h
  case h_1 value | h_2 value =>
    obtain ⟨rfl, rfl⟩ : k = _ ∧ b = _ := by
      first | exact kind_of_litU32 he | exact kind_of_litI32 he
    cases h
    exact ⟨⟨fun _ => rfl, fun name hname => (by cases hname),
      fun k' hk => (some.inj hk).symm⟩, UInt32.mul_one _⟩
  case h_3 name =>
    cases h
    have hlocal := locals_of_gives he
    refine ⟨⟨fun hnone => (by cases hnone), fun name hname => ?_, fun k' hk => (by cases hk)⟩, ?_⟩
    · cases hname
      exact hlocal
    · show 1 * (variableBits lane (some name) * 1) = b
      rw [variableBits_eq (orFail_eq_ok.mp he).1]
      grind
  case h_4 =>
    split at h
    case isTrue => cases h
    case isFalse =>
      obtain ⟨-, bs, hbs, hprod⟩ := runs_operands (fun x y b => mul_of_eval) UInt32.mul_assoc
        UInt32.one_mul UInt32.mul_one he.runs (keeps_of_factors h)
      have hone : (Monomial.mk 1 0 none none).Fits lane k :=
        ⟨fun _ => rfl, fun name hname => (by cases hname), fun k' hk => (by cases hk)⟩
      obtain ⟨hfits, hval⟩ := hone.factors h hbs
      refine ⟨hfits, ?_⟩
      rw [hval, hprod]
      show 1 * 1 * b = b
      grind

end Monomials

/-! ## Polynomials -/

def polyValue (x : UInt32) : List (Option UInt32) → UInt32
  | [] => 0
  | c :: cs => c.getD 0 + x * polyValue x cs

theorem polyValue_eq_foldr (x : UInt32) (cs : List (Option UInt32)) :
    polyValue x cs = cs.foldr (fun c a => c.getD 0 + x * a) 0 := by
  induction cs with
  | nil => rfl
  | cons c cs ih => rw [polyValue, ih, foldr_cons]

theorem polyValue_replicate (x : UInt32) (n : Nat) : polyValue x (replicate n none) = 0 := by
  induction n with
  | zero => rfl
  | succ n ih =>
    show 0 + x * polyValue x (replicate n none) = 0
    grind

theorem polyValue_append_none (x : UInt32) (cs : List (Option UInt32)) (n : Nat) :
    polyValue x (cs ++ replicate n none) = polyValue x cs := by
  induction cs with
  | nil => exact polyValue_replicate x n
  | cons c cs ih => rw [cons_append, polyValue, ih, polyValue]

variable {cs : List (Option UInt32)} {idx : Nat}

theorem polyValue_set (x c : UInt32) (h : cs[idx]? = some none) :
    polyValue x (cs.set idx (some c)) = polyValue x cs + c * power x idx := by
  induction cs generalizing idx with
  | nil => cases h
  | cons d cs ih =>
    cases idx with
    | zero =>
      have hd : d = none := some.inj h
      subst hd
      show c + x * polyValue x cs = 0 + x * polyValue x cs + c * 1
      grind
    | succ idx =>
      show d.getD 0 + x * polyValue x (cs.set idx (some c)) =
        d.getD 0 + x * polyValue x cs + c * (x * power x idx)
      grind

theorem setCoeff_value {cs' : List (Option UInt32)} {c : UInt32} (h : setCoeff cs idx c = some cs')
    (x : UInt32) : polyValue x cs' = polyValue x cs + c * power x idx := by
  unfold setCoeff at h
  dsimp only at h
  split at h
  case h_1 hget =>
    cases h
    rw [polyValue_set x c hget, polyValue_append_none]
  case h_2 => cases h

theorem setCoeff_length {cs' : List (Option UInt32)} {c : UInt32}
    (h : setCoeff cs idx c = some cs') : cs'.length = max cs.length (idx + 1) := by
  unfold setCoeff at h
  dsimp only at h
  split at h
  case h_1 hget =>
    cases h
    rw [length_set, length_append, length_replicate]
    omega
  case h_2 => cases h

theorem polyValue_short (h : cs.length ≤ 1) (x y : UInt32) : polyValue x cs = polyValue y cs := by
  cases cs with
  | nil => rfl
  | cons c cs =>
    have hnil : cs = [] := by simpa using h
    subst hnil
    show c.getD 0 + x * 0 = c.getD 0 + y * 0
    grind

theorem agreeWith_eq_some {α : Type} [DecidableEq α] {known new r : Option α}
    (h : agreeWith known new = some r) :
    new = none ∧ r = known ∨ ∃ x, new = some x ∧ r = some x ∧ (known = none ∨ known = some x) := by
  unfold agreeWith at h
  split at h
  · cases h
    exact .inl ⟨rfl, rfl⟩
  · obtain ⟨y, hy, rfl⟩ := map_eq_some_iff.mp h
    obtain ⟨rfl, hknown⟩ := agree_eq_some hy
    exact .inr ⟨y, rfl, rfl, hknown⟩

structure Polynomial.Fits (lane : Lane) (k : IntKind) (p : Polynomial) : Prop where
  constant : p.var = none → p.coeffs.length ≤ 1
  bound : ∀ name, p.var = some name →
    lane.locals name = some (k.value (variableBits lane (some name)))
  kind : ∀ k', p.kind = some k' → k' = k

def Polynomial.value (lane : Lane) (p : Polynomial) : UInt32 :=
  polyValue (variableBits lane p.var) p.coeffs

section Polynomials

variable {host : Host} {lane : Lane} {m : Memory} {e : Expr} {k : IntKind} {b : UInt32}
  {p p' : Polynomial}

theorem Polynomial.term_eq_some (h : p.term e = some p') :
    ∃ t, monomialIntTerm e = some t ∧ agreeWith p.var t.var = some p'.var ∧
      agreeWith p.kind t.kind = some p'.kind ∧
        setCoeff p.coeffs t.degree t.coeff = some p'.coeffs := by
  obtain ⟨t, ht, h⟩ := bind_eq_some_iff.mp h
  refine ⟨t, ht, ?_⟩
  split at h
  case isTrue => cases h
  case isFalse =>
    obtain ⟨v, hv, h⟩ := bind_eq_some_iff.mp h
    obtain ⟨k, hk, h⟩ := bind_eq_some_iff.mp h
    obtain ⟨cs, hcs, ⟨⟩⟩ := bind_eq_some_iff.mp h
    exact ⟨hv, hk, hcs⟩

theorem Polynomial.Fits.term (h : p.Fits lane k) (hp : p.term e = some p')
    (he : Gives host lane m e (k.value b)) : p'.Fits lane k ∧ p'.value lane = p.value lane + b := by
  obtain ⟨t, ht, hvar, hkind, hcoeffs⟩ := Polynomial.term_eq_some hp
  obtain ⟨hfits, rfl⟩ := monomialIntTerm_fits ht he
  have hlen := setCoeff_length hcoeffs
  have hkinds : ∀ k', p'.kind = some k' → k' = k := by
    intro k' hk'
    rcases agreeWith_eq_some hkind with ⟨-, heq⟩ | ⟨x, hx, heq, -⟩
    · exact h.kind k' (heq ▸ hk')
    · exact hfits.kind k' (hx.trans (heq.symm.trans hk'))
  unfold Polynomial.value Monomial.value
  rw [setCoeff_value hcoeffs]
  rcases agreeWith_eq_some hvar with ⟨hnone, heq⟩ | ⟨x, hx, heq, hknown⟩
  · -- A constant term: the variable, if there is one, stays.
    have hzero := hfits.constant hnone
    rw [heq, hzero]
    refine ⟨⟨fun hv => ?_, fun name hname => h.bound name (heq ▸ hname), hkinds⟩, rfl⟩
    have := h.constant (heq ▸ hv)
    omega
  · refine ⟨⟨fun hv => (by rw [heq] at hv; cases hv), fun name hname => ?_, hkinds⟩, ?_⟩
    · exact hfits.bound name (hx.trans (heq.symm.trans hname))
    · rw [heq, hx]
      rcases hknown with hnone | hsome
      · rw [polyValue_short (h.constant hnone) (variableBits lane (some x))
          (variableBits lane p.var)]
      · rw [hsome]

theorem Polynomial.Fits.terms {es : List Expr} {bs : List UInt32} (h : p.Fits lane k)
    (hp : es.foldlM Polynomial.term p = some p')
    (hes : List.Forall₂ (fun t bits => Gives host lane m t (k.value bits)) es bs) :
    p'.Fits lane k ∧ p'.value lane = p.value lane + bs.foldr (· + ·) 0 := by
  induction hes generalizing p with
  | nil =>
    cases hp
    exact ⟨h, (UInt32.add_zero _).symm⟩
  | cons hhead htail ih =>
    obtain ⟨p₁, hfirst, hrest⟩ := bind_eq_some_iff.mp hp
    obtain ⟨hfits, hval⟩ := h.term hfirst hhead
    obtain ⟨hfits', hval'⟩ := ih hfits hrest
    refine ⟨hfits', ?_⟩
    rw [hval', hval]
    exact UInt32.add_assoc _ _ _

theorem keeps_of_terms {es : List Expr} (hp : es.foldlM Polynomial.term p = some p') :
    ∀ e ∈ es, Keeps Eq (evalExpr host [lane] e lane) := by
  induction es generalizing p with
  | nil => simp
  | cons f fs ih =>
    obtain ⟨p₁, hfirst, hrest⟩ := bind_eq_some_iff.mp hp
    obtain ⟨t, ht, -⟩ := Polynomial.term_eq_some hfirst
    exact forall_mem_cons.mpr ⟨monomialIntTerm_keeps ht, ih hrest⟩

theorem gives_lit (b : UInt32) : Gives host lane m (k.lit b) (k.value b) := by
  cases k <;> rfl

theorem gives_hornerSteps {x acc : Expr} {xBits a : UInt32}
    (hx : Gives host lane m x (k.value xBits)) (hacc : Gives host lane m acc (k.value a))
    (cs : List (Option UInt32)) :
    Gives host lane m (cs.foldl (hornerStep k x) acc)
      (k.value (cs.foldl (fun a c => c.getD 0 + xBits * a) a)) := by
  induction cs generalizing acc a with
  | nil => exact hacc
  | cons c cs ih =>
    have hmul : Gives host lane m (.mul acc x) (k.value (xBits * a)) := by
      rw [UInt32.mul_comm]
      exact hacc.binOp hx (eval_mul_kind a xBits)
    have hstep : Gives host lane m (hornerStep k x acc c) (k.value (c.getD 0 + xBits * a)) := by
      unfold hornerStep
      split
      case isTrue hzero =>
        rw [hzero, UInt32.zero_add]
        exact hmul
      case isFalse =>
        rw [UInt32.add_comm]
        exact hmul.binOp (gives_lit _) (eval_add_kind _ _)
    exact ih hstep

theorem gives_hornerFold {x e : Expr} {xBits : UInt32} (hx : Gives host lane m x (k.value xBits))
    {cs : List (Option UInt32)} (h : hornerFold k x cs = some e) :
    Gives host lane m e (k.value (polyValue xBits cs)) := by
  have hpoly : polyValue xBits cs = cs.reverse.foldl (fun a c => c.getD 0 + xBits * a) 0 := by
    rw [foldl_reverse]
    exact polyValue_eq_foldr xBits cs
  unfold hornerFold at h
  rw [hpoly]
  split at h
  case h_1 => cases h
  case h_2 top rest hrev =>
    cases h
    rw [hrev]
    have htop : top.getD 0 + xBits * 0 = top.getD 0 := by grind
    show Gives host lane m _ (k.value (rest.foldl _ (top.getD 0 + xBits * 0)))
    rw [htop]
    exact gives_hornerSteps hx (gives_lit _) rest

theorem eq_binOp_of_operands {op : BinOp} (h : ¬(collectOperands op e).length < 2) :
    ∃ left right, e = .binOp op left right := by
  unfold collectOperands at h
  grind

theorem kind_of_sum {left right : Expr} {v : Value} {m' : Memory} (hscalar : IsScalar v)
    (h : Runs host lane m (.binOp .add left right) v m') : ∃ k b, v = IntKind.value k b := by
  obtain ⟨x, m₁, y, -, -, hev⟩ := h.binOp_inv
  obtain ⟨ty, hty⟩ := hscalar
  cases ty <;> obtain ⟨i, rfl⟩ := hty
  · exact ⟨.u32, i, rfl⟩
  · exact ⟨.i32, i.toUInt32, value_toUInt32 i⟩
  · cases x <;> cases y <;> cases hev

theorem hornerPolynomialInt_runs {e' : Expr} {v : Value} {m' : Memory} (hscalar : IsScalar v)
    (h : hornerPolynomialInt e = some e') (hrun : Runs host lane m e v m') :
    Runs host lane m e' v m' := by
  unfold hornerPolynomialInt at h
  split at h
  case isTrue => cases h
  case isFalse hlen =>
    obtain ⟨p, hp, hrest⟩ := bind_eq_some_iff.mp h
    obtain ⟨kind, hkind, hrest⟩ := bind_eq_some_iff.mp hrest
    split at hrest
    case isTrue => cases hrest
    case isFalse =>
      obtain ⟨name, hname, hout⟩ := bind_eq_some_iff.mp hrest
      obtain ⟨left, right, rfl⟩ := eq_binOp_of_operands hlen
      obtain ⟨k, b, rfl⟩ := kind_of_sum hscalar hrun
      obtain ⟨rfl, bs, hbs, rfl⟩ := runs_operands (fun x y b => add_of_eval) UInt32.add_assoc
        (fun a => UInt32.zero_add a) (fun a => UInt32.add_zero a) hrun (keeps_of_terms hp)
      have hempty : (Polynomial.mk [] none none).Fits lane k :=
        ⟨fun _ => Nat.zero_le 1, fun name hname => (by cases hname), fun k' hk => (by cases hk)⟩
      obtain ⟨hfits, hval⟩ := hempty.terms hp hbs
      cases hfits.kind kind hkind
      have hx : Gives host lane m' (.var name) (kind.value (variableBits lane (some name))) :=
        orFail_eq_ok.mpr ⟨hfits.bound name hname, rfl⟩
      have hfold := gives_hornerFold hx hout
      have hsum : polyValue (variableBits lane (some name)) p.coeffs = bs.foldr (· + ·) 0 := by
        rw [← hname]
        exact hval.trans (UInt32.zero_add _)
      rw [hsum] at hfold
      exact hfold.runs

/-- A tree of sums and products over literals of a kind and one variable. -/
inductive IntPolynomial (k : IntKind) (x : Ident) : Expr → Prop where
  | lit (bits : UInt32) : IntPolynomial k x (k.lit bits)
  | var : IntPolynomial k x (.var x)
  | add {left right : Expr} : IntPolynomial k x left → IntPolynomial k x right →
      IntPolynomial k x (.add left right)
  | mul {left right : Expr} : IntPolynomial k x left → IntPolynomial k x right →
      IntPolynomial k x (.mul left right)

theorem IntPolynomial.gives {x : Ident} (h : IntPolynomial k x e)
    (hx : lane.locals x = some (k.value b)) : ∃ c, Gives host lane m e (k.value c) := by
  induction h with
  | lit bits => exact ⟨bits, gives_lit bits⟩
  | var => exact ⟨b, orFail_eq_ok.mpr ⟨hx, rfl⟩⟩
  | add _ _ ihl ihr =>
    obtain ⟨c, hc⟩ := ihl
    obtain ⟨d, hd⟩ := ihr
    exact ⟨c + d, hc.binOp hd (eval_add_kind c d)⟩
  | mul _ _ ihl ihr =>
    obtain ⟨c, hc⟩ := ihl
    obtain ⟨d, hd⟩ := ihr
    exact ⟨c * d, hc.binOp hd (eval_mul_kind c d)⟩

theorem isScalar_value (c : UInt32) : IsScalar (k.value c) := by
  cases k with
  | u32 => exact isScalar_u32 c
  | i32 => exact isScalar_i32 c.toInt32

/-- The tree and its Horner form evaluate to the same integer, whatever integer of the kind
the variable holds. -/
theorem hornerPolynomialInt_exact {x : Ident} {e' : Expr} (he : IntPolynomial k x e)
    (h : hornerPolynomialInt e = some e') (hx : lane.locals x = some (k.value b)) :
    ∃ c, Gives host lane m e (k.value c) ∧ Gives host lane m e' (k.value c) := by
  obtain ⟨c, hc⟩ := he.gives hx
  exact ⟨c, hc, hornerPolynomialInt_runs (isScalar_value c) h hc.runs⟩

/-- `x * x * 3 + x + 5`. -/
def quadratic : Expr :=
  .add (.add (.mul (.mul (.var "x") (.var "x")) (.i32 3)) (.var "x")) (.i32 5)

def quadraticLane : Lane := ⟨⟨(0, 0, 0), (0, 0, 0), (0, 0, 0)⟩, 0, fun _ => some (.i32 (-2))⟩

theorem hornerPolynomialInt_exact_quadratic :
    ∃ e' c, hornerPolynomialInt quadratic = some e' ∧
      Gives integerHost quadraticLane ⟨fun _ => none, fun _ => none⟩ quadratic
        (IntKind.i32.value c) ∧
      Gives integerHost quadraticLane ⟨fun _ => none, fun _ => none⟩ e' (IntKind.i32.value c) := by
  have hpoly : IntPolynomial .i32 "x" quadratic :=
    .add (.add (.mul (.mul .var .var) (.lit 3)) .var) (.lit 5)
  have hx : quadraticLane.locals "x" = some (IntKind.i32.value (-2 : Int32).toUInt32) :=
    congrArg some (value_toUInt32 (-2))
  obtain ⟨e', he'⟩ : ∃ e', hornerPolynomialInt quadratic = some e' := ⟨_, rfl⟩
  obtain ⟨c, hc⟩ := hornerPolynomialInt_exact hpoly he' hx
  exact ⟨e', c, he', hc⟩

end Polynomials

end Vyre.StrengthReduce
