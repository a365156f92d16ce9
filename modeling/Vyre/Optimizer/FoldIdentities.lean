import Vyre.Optimizer.ConstFold
import Vyre.Optimizer.ScalarTyping

/-!
# The values behind the folding rules

What constant folding relies on, on values: a literal tree evaluates to the
literal it folds to, and every row of the identity table names an operand whose
value is the value of the operation. The rows are read off `eval_binop` once
each, for `u32` and `i32` together.
-/

namespace Vyre.ConstFold

open Reference StateExcept LiteralFold Bool

/-- What an arm returns, if it returns, satisfies `P`. -/
def Yields {α : Type} (P : α → Prop) (o : Option α) : Prop := ∀ e, o = some e → P e

namespace Yields

variable {α : Type} {P : α → Prop} {o o' : Option α}

theorem none : Yields P none := by
  intro e h
  cases h

variable {e : α}

theorem some (h : P e) : Yields P (some e) := by
  intro e' he
  cases he
  exact h

theorem arm {c : Bool} (h : c = true → P e) : Yields P (arm c e) := by
  intro e' he
  unfold ConstFold.arm at he
  split at he
  case isTrue hc =>
    cases he
    exact h hc
  case isFalse => cases he

theorem bind_none {β : Type} {b : Option β} {f : β → Option α} (h : ∀ p, f p = Option.none) :
    Yields P (b.bind f) := by
  intro e he
  obtain ⟨p, -, hp⟩ := Option.bind_eq_some_iff.mp he
  rw [h p] at hp
  cases hp

theorem orElse (h : Yields P o) (h' : Yields P o') : Yields P (o <|> o') := by
  intro e he
  cases o with
  | none => exact h' e he
  | some e' => exact h e he

theorem orElse_of_none (h : Yields P o) (h' : o = Option.none → Yields P o') :
    Yields P (o <|> o') := by
  cases o with
  | none => exact h' rfl
  | some e => exact fun e' he => h e' he

theorem arm_orElse {c : Bool} (h : c = true → P e) (h' : c = false → Yields P o') :
    Yields P (ConstFold.arm c e <|> o') := by
  cases c with
  | false => exact .orElse .none (h' rfl)
  | true => exact .some (h rfl)

end Yields

/-! ## Literals -/

section Literals

variable {host : Host} {lane : Lane} {m : Memory} {e : Expr} {v : Value}

theorem gives_litI32 (x : Int32) : Gives host lane m (.litI32 x) (.i32 x) := rfl

theorem gives_litBool (x : Bool) : Gives host lane m (.litBool x) (.bool x) := rfl

theorem truthy_u32 (fl : Floats) (x : UInt32) : (Value.u32 x).truthy fl = decide (x ≠ 0) := by
  by_cases hx : x = 0 <;> simp [Value.truthy, Value.tryAsU32, hx]

/-- A negative integer has no `u32`, and counts as true. -/
theorem truthy_i32 (fl : Floats) (x : Int32) : (Value.i32 x).truthy fl = decide (x ≠ 0) := by
  by_cases hx : x = 0
  · subst hx
    rfl
  · have hbits : x.toUInt32 ≠ 0 := by
      intro h
      rw [← Int32.toInt32_toUInt32 x, h] at hx
      exact hx rfl
    by_cases hpos : 0 ≤ x <;> simp [Value.truthy, Value.tryAsU32, hx, hpos, hbits]

theorem mod_32_eq_and (b : UInt32) : b % 32 = b &&& 31 := by
  apply UInt32.toNat_inj.1
  exact (Nat.and_two_pow_sub_one_eq_mod b.toNat 5).symm

theorem mod_32_eq_and_i32 (b : Int32) : (b.toUInt32 % 32).toInt32 = b &&& 31 := by
  rw [mod_32_eq_and]
  rfl

variable {floats : Floats} {fl : FoldFloats}

/-- What `ieee754.rs` and the conversions between `f32` and `f64` satisfy. -/
structure FloatLaws (fl : Floats) : Prop where
  narrow_widen : ∀ b, canonicalF32 b = b → fl.narrow (fl.widen b) = b
  widen_zero : ∀ b, canonicalF32 b = b → ((fl.widen b &&& 0x7FFFFFFFFFFFFFFF != 0) = !fl.eq b 0)
  widen_bool : ∀ p : Bool, fl.widen (if p then oneF32 else 0) = if p then 0x3FF0000000000000 else 0
  ofU32 : ∀ x, canonicalF32 (fl.ofU32 x) = fl.ofU32 x
  ofI32 : ∀ x, canonicalF32 (fl.ofI32 x) = fl.ofI32 x
  inverseSqrt : ∀ b, fl.unary .inverseSqrt b = fl.div oneF32 (fl.unary .sqrt b)
  reciprocal : ∀ b, fl.unary .reciprocal b = canonicalF32 (fl.div oneF32 (canonicalF32 b))

def LiteralOf (fl : Floats) : Expr → Value → Prop
  | .litU32 x, v => v = .u32 x
  | .litI32 x, v => v = .i32 x
  | .litBool p, v => v = .bool p
  | .litF32 b, v => canonicalF32 b = b ∧ v = .float (fl.widen b)
  | _, _ => False

theorem LiteralOf.gives (h : LiteralOf host.floats e v) : Gives host lane m e v := by
  cases e
  case litF32 bits =>
    obtain ⟨hbits, rfl⟩ := h
    show Except.ok (floatValue host.floats bits, m) = _
    rw [floatValue, hbits]
  case litU32 | litI32 | litBool =>
    cases h
    rfl
  all_goals cases h

def Shares (floats : Floats) (fl : FoldFloats) : Prop := floats = fl.toFloats ∧ FloatLaws floats

/-- What the folder returns for a value: an `f32` only where it shares the floats. -/
def Folded (floats : Floats) (fl : FoldFloats) (e : Expr) (v : Value) : Prop :=
  LiteralOf floats e v ∧ ∀ bits, e = .litF32 bits → Shares floats fl

variable {op : BinOp} {x : UInt32} {snapshots : List Lane} {m' : Memory}

theorem foldU32Binary_folded {a b : UInt32} (h : foldU32Binary op a b = some e)
    (hv : evalBinop floats op (.u32 a) (.u32 b) = .ok v) : Folded floats fl e v := by
  cases op
  case shl | shr | rotateLeft | rotateRight =>
    cases h
    cases hv
    rw [mod_32_eq_and]
    exact ⟨rfl, nofun⟩
  all_goals cases h <;> cases hv <;> exact ⟨rfl, nofun⟩

theorem foldI32Binary_folded {a b : Int32} (h : foldI32Binary op a b = some e)
    (hv : evalBinop floats op (.i32 a) (.i32 b) = .ok v) : Folded floats fl e v := by
  cases op
  case div | mod =>
    cases h
    obtain ⟨q, hq, rfl⟩ := ByteCodec.map_eq_ok.mp hv
    simp only [divI32, remI32] at hq
    split_ifs at hq with hb
    cases hq
    rw [if_neg hb]
    exact ⟨rfl, nofun⟩
  case shl | shr =>
    simp only [foldI32Binary, mod_32_eq_and_i32] at h
    split at h
    · cases h
    · cases h
      cases hv
      exact ⟨rfl, nofun⟩
  all_goals cases h <;> cases hv <;> exact ⟨rfl, nofun⟩

theorem foldBoolBinary_folded {a b : Bool} (h : foldBoolBinary op a b = some e)
    (hv : evalBinop floats op (.bool a) (.bool b) = .ok v) : Folded floats fl e v := by
  cases op <;> cases h <;> cases hv <;> exact ⟨rfl, nofun⟩

theorem foldU32Unary_folded {op : UnOp} (h : foldU32Unary fl op x = some e)
    (hv : evalUnop floats op (.u32 x) = .ok v) : Folded floats fl e v := by
  cases op <;> cases hv <;> cases h <;> exact ⟨rfl, nofun⟩

theorem foldI32Unary_folded {op : UnOp} {x : Int32}
    (h : foldI32Unary fl op x = some e) (hv : evalUnop floats op (.i32 x) = .ok v) :
    Folded floats fl e v := by
  cases op <;> cases hv <;> cases h <;> exact ⟨rfl, nofun⟩

theorem foldBoolUnary_folded {op : UnOp} {x : Bool} (h : foldBoolUnary op x = some e)
    (hv : evalUnop floats op (.bool x) = .ok v) : Folded floats fl e v := by
  cases op <;> cases hv
  cases h
  exact ⟨rfl, nofun⟩

theorem canonicalF32_idem (bits : UInt32) :
    canonicalF32 (canonicalF32 bits) = canonicalF32 bits := by
  have hsign : bits &&& 0x80000000 = 0 ∨ bits &&& 0x80000000 = 0x80000000 := by
    have hbit : (bits &&& 0x80000000).toNat = (bits.toNat.testBit 31).toNat * 2 ^ 31 := by
      exact Nat.and_two_pow _ 31
    cases htest : bits.toNat.testBit 31 with
    | false => exact .inl (UInt32.toNat_inj.mp (by rw [hbit, htest]; rfl))
    | true => exact .inr (UInt32.toNat_inj.mp (by rw [hbit, htest]; rfl))
  have hcases : canonicalF32 bits = 0x7FC00000 ∨ canonicalF32 bits = 0 ∨
      canonicalF32 bits = 0x80000000 ∨ canonicalF32 bits = bits := by
    unfold canonicalF32
    split
    · exact .inl rfl
    · split
      · rcases hsign with h | h
        · exact .inr (.inl h)
        · exact .inr (.inr (.inl h))
      · exact .inr (.inr (.inr rfl))
  rcases hcases with h | h | h | h <;> rw [h] <;> first | rfl | exact h

section

variable (hshares : Shares floats fl)

include hshares

theorem folded_float (bits : UInt32) :
    Folded floats fl (.litF32 (canonicalF32 bits)) (floatValue floats bits) :=
  ⟨⟨canonicalF32_idem bits, rfl⟩, fun _ _ => hshares⟩

theorem foldF32Binary_folded {y : UInt32} (hx : canonicalF32 x = x)
    (hy : canonicalF32 y = y)
    (hv : evalBinop floats op (.float (floats.widen x)) (.float (floats.widen y)) = .ok v)
    (h : foldF32Binary fl op x y = some e) : Folded floats fl e v := by
  obtain ⟨rfl, hlaws⟩ := hshares
  have hshares : Shares fl.toFloats fl := ⟨rfl, hlaws⟩
  have heval : binopF32 fl.toFloats op x y = .ok v := by
    rw [← hlaws.narrow_widen x hx, ← hlaws.narrow_widen y hy]
    exact hv
  unfold binopF32 at heval
  unfold foldF32Binary at h
  dsimp only at heval h
  split at h
  · cases h
  cases op
  case div =>
    cases heval
    dsimp only at h
    split at h
    · cases h
    · cases h
      exact folded_float hshares _
  all_goals cases heval <;> cases h <;> first | exact ⟨rfl, nofun⟩ | exact folded_float hshares _

theorem foldF32Unary_folded {op : UnOp} (hx : canonicalF32 x = x)
    (hv : evalUnop floats op (.float (floats.widen x)) = .ok v)
    (h : foldF32Unary fl op x = some e) : Folded floats fl e v := by
  obtain ⟨rfl, hlaws⟩ := hshares
  have hshares : Shares fl.toFloats fl := ⟨rfl, hlaws⟩
  have heval : unopF32 fl.toFloats op x = .ok v := by
    rw [← hlaws.narrow_widen x hx]
    exact hv
  unfold unopF32 at heval
  unfold foldF32Unary at h
  rw [hx] at heval h
  cases op
  case isNan | isInf | isFinite =>
    cases heval
    cases h
    exact ⟨rfl, nofun⟩
  all_goals
    dsimp only at h
    split at h
    · cases h
    cases heval <;> cases h
  case inverseSqrt =>
    rw [hlaws.inverseSqrt]
    exact folded_float hshares _
  case reciprocal =>
    rw [hlaws.reciprocal, hx, floatValue, canonicalF32_idem]
    exact folded_float hshares _
  all_goals exact folded_float hshares _

end

/-- An operand of the folder: what it returned for a value, or not a literal. -/
def Operand (floats : Floats) (fl : FoldFloats) (l : Expr) (a : Value) : Prop :=
  Folded floats fl l a ∨ exprScalarLiteral l = none

variable {l r : Expr} {a b : Value}

theorem Operand.folded (h : Operand floats fl l a) {s : ScalarLiteral}
    (hs : exprScalarLiteral l = some s) : Folded floats fl l a :=
  h.resolve_right (by rw [hs]; exact Option.some_ne_none s)

theorem Operand.literal (h : Operand floats fl l a) {s : ScalarLiteral}
    (hs : exprScalarLiteral l = some s) : LiteralOf floats l a := (h.folded hs).1

theorem operand_of_gives (hl : ∀ bits, l ≠ .litF32 bits)
    (ha : evalExpr host snapshots l lane m = .ok (a, m')) : Operand host.floats fl l a := by
  cases l
  case litF32 bits => exact (hl bits rfl).elim
  case litU32 | litI32 | litBool =>
    cases ha
    exact .inl ⟨rfl, nofun⟩
  all_goals exact .inr rfl

theorem foldBinaryLiteral_folded (hl : Operand floats fl l a) (hr : Operand floats fl r b)
    (hv : evalBinop floats op a b = .ok v) (h : foldBinaryLiteral fl op l r = some e) :
    Folded floats fl e v := by
  unfold foldBinaryLiteral at h
  split at h
  case h_4 =>
    obtain ⟨⟨hx, rfl⟩, hshares⟩ := hl.folded rfl
    obtain ⟨hy, rfl⟩ := hr.literal rfl
    exact foldF32Binary_folded (hshares _ rfl) hx hy hv h
  case h_5 => cases h
  all_goals
    cases hl.literal rfl
    cases hr.literal rfl
    first
    | exact foldU32Binary_folded h hv
    | exact foldI32Binary_folded h hv
    | exact foldBoolBinary_folded h hv

theorem foldUnaryLiteral_folded {op : UnOp} (hl : Operand floats fl l a)
    (hv : evalUnop floats op a = .ok v) (h : foldUnaryLiteral fl op l = some e) :
    Folded floats fl e v := by
  unfold foldUnaryLiteral at h
  split at h
  · cases hl.literal rfl
    exact foldU32Unary_folded h hv
  · cases hl.literal rfl
    exact foldI32Unary_folded h hv
  · cases hl.literal rfl
    exact foldBoolUnary_folded h hv
  · obtain ⟨⟨hx, rfl⟩, hshares⟩ := hl.folded rfl
    exact foldF32Unary_folded (hshares _ rfl) hx hv h
  · cases h

theorem foldCastLiteral_target {target : DataType} (h : foldCastLiteral fl target l = some e) :
    target = .u32 ∨ target = .i32 ∨ target = .f32 ∨ target = .bool := by
  unfold foldCastLiteral at h
  split at h
  case h_5 => cases h
  all_goals simp

theorem foldCastLiteral_folded {target : DataType} (htarget : target = .f32 → Shares floats fl)
    (hl : Operand floats fl l a) (hv : castValue floats target a = .ok v)
    (h : foldCastLiteral fl target l = some e) : Folded floats fl e v := by
  cases l
  case litF32 bits =>
    obtain ⟨⟨hbits, rfl⟩, hshares⟩ := hl.folded rfl
    obtain ⟨rfl, hlaws⟩ := hshares bits rfl
    rcases foldCastLiteral_target h with rfl | rfl | rfl | rfl
    case inl | inr.inl =>
      dsimp only [foldCastLiteral] at h
      split at h
      · cases h
        cases hv
        exact ⟨rfl, nofun⟩
      · cases h
    all_goals cases h
    all_goals cases hv
    · exact ⟨⟨hbits, rfl⟩, hshares⟩
    · exact ⟨congrArg Value.bool (hlaws.widen_zero bits hbits), nofun⟩
  case litU32 x =>
    cases hl.literal rfl
    rcases foldCastLiteral_target h with rfl | rfl | rfl | rfl <;> cases h <;> cases hv
    all_goals first
      | exact ⟨rfl, nofun⟩
      | exact ⟨congrArg Value.bool (truthy_u32 _ x), nofun⟩
      | skip
    obtain ⟨rfl, hlaws⟩ := htarget rfl
    exact ⟨⟨hlaws.ofU32 x, rfl⟩, fun _ _ => htarget rfl⟩
  case litI32 x =>
    cases hl.literal rfl
    rcases foldCastLiteral_target h with rfl | rfl | rfl | rfl <;> cases h <;> cases hv
    all_goals first
      | exact ⟨rfl, nofun⟩
      | exact ⟨congrArg Value.bool (truthy_i32 _ x), nofun⟩
      | skip
    obtain ⟨rfl, hlaws⟩ := htarget rfl
    exact ⟨⟨hlaws.ofI32 x, rfl⟩, fun _ _ => htarget rfl⟩
  case litBool p =>
    cases hl.literal rfl
    rcases foldCastLiteral_target h with rfl | rfl | rfl | rfl <;> cases h <;> cases hv
    all_goals first
      | exact ⟨rfl, nofun⟩
      | exact ⟨congrArg Value.bool (truthy_bool _ p), nofun⟩
      | skip
    obtain ⟨rfl, hlaws⟩ := htarget rfl
    refine ⟨⟨?_, congrArg Value.float (hlaws.widen_bool p).symm⟩, fun _ _ => htarget rfl⟩
    cases p <;> rfl
  all_goals rcases foldCastLiteral_target h with rfl | rfl | rfl | rfl <;> cases h

theorem foldFmaLiteral_folded {y z : UInt32} {c : Value} {f : Expr} (hl : Operand floats fl l a)
    (hr : Operand floats fl r b) (hf : Operand floats fl f c) (hx : a.tryAsF32 floats = some x)
    (hy : b.tryAsF32 floats = some y) (hz : c.tryAsF32 floats = some z)
    (h : foldFmaLiteral fl l r f = some e) : Folded floats fl e (fmaValue floats x y z) := by
  unfold foldFmaLiteral at h
  split at h
  case h_2 => cases h
  case h_1 p q s =>
    obtain ⟨⟨hp, rfl⟩, hshares⟩ := hl.folded rfl
    obtain ⟨hq, rfl⟩ := hr.literal rfl
    obtain ⟨hs, rfl⟩ := hf.literal rfl
    obtain ⟨rfl, hlaws⟩ := hshares p rfl
    have hback : ∀ {bits u : UInt32}, canonicalF32 bits = bits →
        (Value.float (fl.widen bits)).tryAsF32 fl.toFloats = some u → canonicalF32 u = bits := by
      intro bits u hbits hu
      have hu : fl.narrow (fl.widen bits) = u := Option.some.inj hu
      rw [← hu, hlaws.narrow_widen bits hbits, hbits]
    split at h
    · cases h
    · cases h
      rw [fmaValue, hback hp hx, hback hq hy, hback hs hz]
      exact folded_float (hshares p rfl) _

def FoldNode (floats : Floats) (fl : FoldFloats) : Expr → Prop
  | .litF32 _ => False
  | .cast .f32 _ => Shares floats fl
  | _ => True

theorem operand_getD (hl : l.Forall (FoldNode host.floats fl))
    (ha : evalExpr host snapshots l lane m = .ok (a, m'))
    (ih : ∀ e, foldLiteralTree fl l = some e → Folded host.floats fl e a) :
    Operand host.floats fl ((foldLiteralTree fl l).getD l) a := by
  cases htree : foldLiteralTree fl l with
  | some e => exact .inl (ih e htree)
  | none =>
    refine operand_of_gives ?_ ha
    rintro bits rfl
    exact hl

theorem foldLiteralTree_folded {e e' : Expr} (he : e.Forall (FoldNode host.floats fl))
    (hrun : evalExpr host snapshots e lane m = .ok (v, m')) (h : foldLiteralTree fl e = some e') :
    Folded host.floats fl e' v := by
  induction e generalizing v m m' e' with
  | binOp op left right ihl ihr =>
    obtain ⟨-, hleft, hright⟩ := he
    obtain ⟨a, m₁, ha, hrest⟩ := bind_eq_ok.mp hrun
    obtain ⟨b, m₂, hb, hop⟩ := bind_eq_ok.mp hrest
    have hl := operand_getD hleft ha fun e => ihl hleft ha
    have hr := operand_getD hright hb fun e => ihr hright hb
    exact foldBinaryLiteral_folded hl hr (lift_eq_ok.mp hop).1 h
  | unOp op operand ih =>
    obtain ⟨-, hoperand⟩ := he
    obtain ⟨a, m₁, ha, hop⟩ := bind_eq_ok.mp hrun
    have hl := operand_getD hoperand ha fun e => ih hoperand ha
    exact foldUnaryLiteral_folded hl (lift_eq_ok.mp hop).1 h
  | cast target value ih =>
    obtain ⟨hcast, hvalue⟩ := he
    obtain ⟨a, m₁, ha, hop⟩ := bind_eq_ok.mp hrun
    have hl := operand_getD hvalue ha fun e => ih hvalue ha
    refine foldCastLiteral_folded ?_ hl (lift_eq_ok.mp hop).1 h
    rintro rfl
    exact hcast
  | fma p q s ihp ihq ihs =>
    obtain ⟨-, hp, hq, hs⟩ := he
    simp only [evalExpr, bind_eq_ok] at hrun
    obtain ⟨a, _, ha, x, _, hx, b, _, hb, y, _, hy, c, _, hc, z, _, hz, ⟨⟩⟩ := hrun
    exact foldFmaLiteral_folded (operand_getD hp ha fun e => ihp hp ha)
      (operand_getD hq hb fun e => ihq hq hb) (operand_getD hs hc fun e => ihs hs hc)
      (orFail_eq_ok.mp hx).1 (orFail_eq_ok.mp hy).1 (orFail_eq_ok.mp hz).1 h
  | _ => cases h

/-- The nodes of a tree of integer and boolean literals, operators and casts. -/
def LiteralNode : Expr → Prop
  | .litU32 _ | .litI32 _ | .litBool _ | .binOp .. | .unOp .. | .cast .. | .fma .. => True
  | _ => False

/-- What the folder makes of a tree of literals is the literal of its value. -/
theorem foldLiteralTree_literal {snapshots : List Lane} {m' : Memory} {e e' : Expr}
    (hfloats : Shares host.floats fl) (he : e.Forall LiteralNode)
    (hrun : evalExpr host snapshots e lane m = .ok (v, m')) (h : foldLiteralTree fl e = some e') :
    LiteralOf host.floats e' v := by
  refine (foldLiteralTree_folded (he.imp fun e hnode => ?_) hrun h).1
  unfold FoldNode
  split
  · exact hnode
  · exact hfloats
  · trivial

/-- A one widens as `f64::from` does, any other word to itself. -/
def widenWord (b : UInt32) : UInt64 := if b = oneF32 then 0x3FF0000000000000 else b.toUInt64

def wordFloats : FoldFloats :=
  { integerHost.floats with
    narrow := fun v => if v = 0x3FF0000000000000 then oneF32 else v.toUInt32
    widen := widenWord
    eq := fun a _ => widenWord a &&& 0x7FFFFFFFFFFFFFFF == 0
    rem := fun a _ => a }

theorem wordFloats_laws : FloatLaws wordFloats.toFloats where
  narrow_widen b _ := by
    by_cases hb : b = oneF32
    · subst hb
      rfl
    · have hword : b.toUInt64 ≠ 0x3FF0000000000000 := by
        intro h
        have := congrArg UInt64.toNat h
        have := b.toNat_lt
        simp at *
        omega
      simp only [wordFloats, widenWord, if_neg hb, if_neg hword, UInt32.toUInt32_toUInt64]
  widen_zero _ _ := rfl
  widen_bool p := by cases p <;> rfl
  ofU32 _ := canonicalF32_idem 0
  ofI32 _ := canonicalF32_idem 0
  inverseSqrt _ := rfl
  reciprocal _ := (canonicalF32_idem 0).symm

/-- `1u32 << 33`, cast to `bool` and to `f32`. -/
def shiftedLiteral : Expr := .cast .f32 (.cast .bool (.binOp .shl (.litU32 1) (.litU32 33)))

theorem foldLiteralTree_literal_shifted :
    foldLiteralTree wordFloats shiftedLiteral = some (.litF32 oneF32) ∧
      LiteralOf wordFloats.toFloats (.litF32 oneF32) (.float 0x3FF0000000000000) := by
  have hrun : evalExpr { integerHost with floats := wordFloats.toFloats } [] shiftedLiteral
      ⟨⟨(0, 0, 0), (0, 0, 0), (0, 0, 0)⟩, 0, fun _ => none⟩ ⟨fun _ => none, fun _ => none⟩ =
      .ok (.float 0x3FF0000000000000, ⟨fun _ => none, fun _ => none⟩) := rfl
  refine ⟨rfl, foldLiteralTree_literal ⟨rfl, wordFloats_laws⟩ ?_ hrun rfl⟩
  exact ⟨trivial, trivial, trivial, trivial, trivial⟩

end Literals

/-! ## Identities -/

theorem ofNat_toNat_min (x : UInt32) : UInt32.ofNat (min x.toNat 0xFFFFFFFF) = x := by
  have := x.toNat_lt
  rw [Nat.min_eq_left (by omega), UInt32.ofNat_toNat]

theorem saturateI32_toInt (x : Int32) : saturateI32 x.toInt = x := by
  unfold saturateI32
  have := x.toInt_lt
  have := x.le_toInt
  rw [show max (-2147483648) (min x.toInt 2147483647) = x.toInt by omega, Int32.ofInt_toInt]

theorem rotateLeft_zero (x : UInt32) : UInt32.ofBitVec (x.toBitVec.rotateLeft 0) = x := by
  have hout : x.toBitVec >>> 32 = 0#32 := BitVec.ushiftRight_eq_zero (by decide)
  simp [BitVec.rotateLeft, BitVec.rotateLeftAux, hout]

theorem rotateRight_zero (x : UInt32) : UInt32.ofBitVec (x.toBitVec.rotateRight 0) = x := by
  simp [BitVec.rotateRight, BitVec.rotateRightAux]

section Identities

variable {fl : Floats} {op : BinOp} {a b v : Value} {x : UInt32} {i : Int32} {p : Bool}

theorem u32_of_right (hv : evalBinop fl op a (.u32 x) = .ok v) : ∃ y, a = .u32 y := by
  cases a <;> first | exact ⟨_, rfl⟩ | cases hv

theorem u32_of_left (hv : evalBinop fl op (.u32 x) b = .ok v) : ∃ y, b = .u32 y := by
  cases b <;> first | exact ⟨_, rfl⟩ | cases hv

theorem i32_of_right (hv : evalBinop fl op a (.i32 i) = .ok v) : ∃ j, a = .i32 j := by
  cases a <;> first | exact ⟨_, rfl⟩ | cases hv

theorem i32_of_left (hv : evalBinop fl op (.i32 i) b = .ok v) : ∃ j, b = .i32 j := by
  cases b <;> first | exact ⟨_, rfl⟩ | cases hv

theorem bool_of_right (hv : evalBinop fl op a (.bool p) = .ok v) : ∃ q, a = .bool q := by
  cases a <;> first | exact ⟨_, rfl⟩ | cases hv

theorem bool_of_left (hv : evalBinop fl op (.bool p) b = .ok v) : ∃ q, b = .bool q := by
  cases b <;> first | exact ⟨_, rfl⟩ | cases hv

/-- The operators that do not depend on the order of integer and `bool` operands. -/
def isCommutative (op : BinOp) : Bool :=
  op = .add || op = .mul || op = .bitAnd || op = .bitOr || op = .bitXor || op = .and || op = .or ||
    op = .min || op = .max || op = .wrappingAdd || op = .saturatingAdd || op = .saturatingMul

theorem eval_comm {t : ScalarType} (ht : t.Has a) (hop : isCommutative op = true)
    (hv : evalBinop fl op a b = .ok v) : evalBinop fl op b a = .ok v := by
  rw [← hv]
  cases t with
  | u32 | i32 =>
    obtain ⟨x, rfl⟩ := ht
    first | obtain ⟨y, rfl⟩ := u32_of_left hv | obtain ⟨y, rfl⟩ := i32_of_left hv
    cases op <;> cases hop <;> first
      | exact congrArg (fun k => Except.ok (Value.u32 k)) (by grind)
      | exact congrArg (fun k => Except.ok (Value.i32 k)) (by grind)
      | exact congrArg (fun k => Except.ok (Value.bool k)) (by grind)
  | bool =>
    obtain ⟨x, rfl⟩ := ht
    obtain ⟨y, rfl⟩ := bool_of_left hv
    cases op <;> cases hop <;> cases hv <;> cases x <;> cases y <;> rfl

theorem eval_comm_u32 (hop : isCommutative op = true) (hv : evalBinop fl op (.u32 x) b = .ok v) :
    evalBinop fl op b (.u32 x) = .ok v := eval_comm (t := .u32) ⟨x, rfl⟩ hop hv

/-- The logical operator whose `unit` leaves the other operand. -/
def IsLogical (op : BinOp) (unit : Bool) : Prop := op = .and ∧ unit = true ∨ op = .or ∧ unit = false

section Logical

variable {unit : Bool} (hop : IsLogical op unit)

include hop

theorem eval_unit_right (hv : evalBinop fl op a (.bool unit) = .ok v) : v = a := by
  obtain ⟨p, rfl⟩ := bool_of_right hv
  rcases hop with ⟨rfl, rfl⟩ | ⟨rfl, rfl⟩ <;> cases hv <;> simp

theorem eval_zero_right (hv : evalBinop fl op a (.bool (!unit)) = .ok v) : v = .bool (!unit) := by
  obtain ⟨p, rfl⟩ := bool_of_right hv
  rcases hop with ⟨rfl, rfl⟩ | ⟨rfl, rfl⟩ <;> cases hv <;> simp

end Logical

theorem eval_right_zero (hop : rightIdentityWhenZero op = true) (hb : b = .u32 0 ∨ b = .i32 0)
    (hv : evalBinop fl op a b = .ok v) : v = a := by
  rcases hb with rfl | rfl
  · obtain ⟨x, rfl⟩ := u32_of_right hv
    cases op <;> cases hop <;> cases hv <;>
      simp [shiftU32, ofNat_toNat_min, rotateLeft_zero, rotateRight_zero]
  · obtain ⟨i, rfl⟩ := i32_of_right hv
    cases op <;> cases hop <;> cases hv <;> simp [shiftI32, saturateI32_toInt]

theorem eval_right_one (hop : rightIdentityWhenOne op = true) (hb : b = .u32 1 ∨ b = .i32 1)
    (hv : evalBinop fl op a b = .ok v) : v = a := by
  rcases hb with rfl | rfl
  · obtain ⟨x, rfl⟩ := u32_of_right hv
    cases op <;> cases hop <;> cases hv <;> simp [ofNat_toNat_min]
  · obtain ⟨i, rfl⟩ := i32_of_right hv
    obtain (rfl | rfl) | rfl : (op = .mul ∨ op = .div) ∨ op = .saturatingMul := by
      simpa [rightIdentityWhenOne] using hop
    · cases hv
      simp
    · obtain ⟨q, hq, rfl⟩ := ByteCodec.map_eq_ok.mp hv
      have hdiv : divI32 i 1 = .ok (i / 1) := by
        rw [divI32, if_neg (by decide), if_neg (fun h => absurd h.2 (by decide))]
      cases hdiv.symm.trans hq
      simp
    · cases hv
      simp [saturateI32_toInt]

def absorbsZero (op : BinOp) : Bool := op = .mul || op = .saturatingMul || op = .bitAnd

theorem eval_absorbs_right (hop : absorbsZero op = true) (hb : b = .u32 0 ∨ b = .i32 0)
    (hv : evalBinop fl op a b = .ok v) : v = b := by
  rcases hb with rfl | rfl
  · obtain ⟨x, rfl⟩ := u32_of_right hv
    cases op <;> cases hop <;> cases hv <;> simp
  · obtain ⟨i, rfl⟩ := i32_of_right hv
    cases op <;> cases hop <;> cases hv <;> simp [saturateI32]

theorem maxU32_eq : maxU32 = -1 := by decide

theorem eval_and_ones (hb : b = .u32 maxU32 ∨ b = .i32 (-1))
    (hv : evalBinop fl .bitAnd a b = .ok v) :
    v = a := by
  rcases hb with rfl | rfl
  · obtain ⟨x, rfl⟩ := u32_of_right hv
    cases hv
    simp [maxU32_eq]
  · obtain ⟨x, rfl⟩ := i32_of_right hv
    cases hv
    simp

theorem eval_or_ones (hb : b = .u32 maxU32 ∨ b = .i32 (-1)) (hv : evalBinop fl .bitOr a b = .ok v) :
    v = b := by
  rcases hb with rfl | rfl
  · obtain ⟨x, rfl⟩ := u32_of_right hv
    cases hv
    simp [maxU32_eq]
  · obtain ⟨x, rfl⟩ := i32_of_right hv
    cases hv
    simp

/-- An idempotent operator returns its operand; the logical ones return a `bool`,
so only a `bool` operand. -/
theorem eval_idempotent {t : ScalarType} (ht : t.Has a) (hop : isIdempotent op = true)
    (hlogical : op = .and ∨ op = .or → t = .bool) (hv : evalBinop fl op a a = .ok v) : v = a := by
  cases t with
  | u32 | i32 =>
    obtain ⟨x, rfl⟩ := ht
    cases op <;> cases hop <;>
      first | cases hlogical (.inl rfl) | cases hlogical (.inr rfl) | (cases hv; simp)
  | bool =>
    obtain ⟨x, rfl⟩ := ht
    cases op <;> cases hop <;> cases hv <;> simp

end Identities

/-! ## The identity table -/

section Table

variable {fl : Floats} {op : BinOp} {a b v : Value}

def ScalarLiteral.Denotes : ScalarLiteral → Value → Prop
  | .u32 x, v => v = .u32 x
  | .i32 x, v => v = .i32 x
  | .bool x, v => v = .bool x
  | .f32 _, _ => False

namespace ScalarLiteral

variable {o : Option ScalarLiteral} (ho : ∀ s, o = some s → s.Denotes a)

include ho

theorem any_denotes {test : ScalarLiteral → Bool} (h : o.any test = true) :
    ∃ s : ScalarLiteral, s.Denotes a ∧ test s = true := by
  cases o with
  | none => cases h
  | some s => exact ⟨s, ho s rfl, h⟩

theorem any_isNumericZero (h : o.any isNumericZero = true) : a = .u32 0 ∨ a = .i32 0 := by
  obtain ⟨s, hs, htest⟩ := any_denotes ho h
  cases s <;> simp_all [Denotes, isNumericZero]

theorem any_isIntegerZero (h : o.any isIntegerZero = true) : a = .u32 0 ∨ a = .i32 0 := by
  obtain ⟨s, hs, htest⟩ := any_denotes ho h
  cases s <;> simp_all [Denotes, isIntegerZero]

theorem any_isNumericOne (h : o.any isNumericOne = true) : a = .u32 1 ∨ a = .i32 1 := by
  obtain ⟨s, hs, htest⟩ := any_denotes ho h
  cases s <;> simp_all [Denotes, isNumericOne]

theorem any_isBitAllOnes (h : o.any isBitAllOnes = true) : a = .u32 maxU32 ∨ a = .i32 (-1) := by
  obtain ⟨s, hs, htest⟩ := any_denotes ho h
  cases s <;> simp_all [Denotes, isBitAllOnes]

theorem any_isTrue (h : o.any isTrue = true) : a = .bool true := by
  obtain ⟨s, hs, htest⟩ := any_denotes ho h
  cases s <;> simp_all [Denotes, isTrue]

theorem any_isFalse (h : o.any isFalse = true) : a = .bool false := by
  obtain ⟨s, hs, htest⟩ := any_denotes ho h
  cases s <;> simp_all [Denotes, isFalse]

end ScalarLiteral

open ScalarLiteral

def IdentityReplacement.pick (a b : Value) : IdentityReplacement → Value
  | .left => a
  | .right => b

/-- The identity table returns an operand whose value is the value of the operation. -/
theorem binopIdentityReplacement_value {same : Bool} {lhs rhs : Option ScalarLiteral}
    {t : ScalarType} (ht : t.Has a) (hsame : same = true → a = b)
    (hlogical : same = true → op = .and ∨ op = .or → t = .bool)
    (hl : ∀ s, lhs = some s → s.Denotes a) (hr : ∀ s, rhs = some s → s.Denotes b)
    (hv : evalBinop fl op a b = .ok v) :
    Yields (fun side => v = side.pick a b) (binopIdentityReplacement op same lhs rhs) := by
  refine .orElse (.arm fun h => ?_)
    (.orElse ?_ (.orElse (.arm fun h => ?_) (.orElse (.arm fun h => ?_)
    (.orElse (.arm fun h => ?_) (.orElse (.arm fun h => ?_) (.orElse (.arm fun h => ?_)
      (.arm fun h => ?_)))))))
  · obtain ⟨hs, hop⟩ := and_eq_true_iff.mp h
    cases hsame hs
    exact eval_idempotent ht hop (hlogical hs) hv
  · split
    · have hop : IsLogical .and true := .inl ⟨rfl, rfl⟩
      refine .orElse (.arm fun h => ?_) (.orElse (.arm fun h => ?_)
        (.orElse (.arm fun h => ?_) (.arm fun h => ?_)))
      · cases any_isTrue hr h
        exact eval_unit_right hop hv
      · cases any_isTrue hl h
        exact eval_unit_right hop (eval_comm ht rfl hv)
      · cases any_isFalse hr h
        exact eval_zero_right hop hv
      · cases any_isFalse hl h
        exact eval_zero_right hop (eval_comm ht rfl hv)
    · have hop : IsLogical .or false := .inr ⟨rfl, rfl⟩
      refine .orElse (.arm fun h => ?_) (.orElse (.arm fun h => ?_)
        (.orElse (.arm fun h => ?_) (.arm fun h => ?_)))
      · cases any_isFalse hr h
        exact eval_unit_right hop hv
      · cases any_isFalse hl h
        exact eval_unit_right hop (eval_comm ht rfl hv)
      · cases any_isTrue hr h
        exact eval_zero_right hop hv
      · cases any_isTrue hl h
        exact eval_zero_right hop (eval_comm ht rfl hv)
    · exact .orElse
        (.arm fun h => eval_and_ones (any_isBitAllOnes hr h) hv)
        (.arm fun h => eval_and_ones (any_isBitAllOnes hl h) (eval_comm ht rfl hv))
    · exact .orElse
        (.arm fun h => eval_or_ones (any_isBitAllOnes hr h) hv)
        (.arm fun h => eval_or_ones (any_isBitAllOnes hl h) (eval_comm ht rfl hv))
    · exact .none
  · rcases or_eq_true_iff.mp h with h | h
    · obtain ⟨hop, hz⟩ := and_eq_true_iff.mp h
      exact eval_right_zero hop (any_isNumericZero hr hz) hv
    · obtain ⟨hop, hz⟩ := and_eq_true_iff.mp h
      exact eval_right_one hop (any_isNumericOne hr hz) hv
  · rcases or_eq_true_iff.mp h with h | h
    · obtain ⟨hop, hz⟩ := and_eq_true_iff.mp h
      have hright : rightIdentityWhenZero op = true ∧ isCommutative op = true := by
        cases op <;> cases hop <;> exact ⟨rfl, rfl⟩
      exact eval_right_zero hright.1 (any_isNumericZero hl hz)
        (eval_comm ht hright.2 hv)
    · obtain ⟨hop, hz⟩ := and_eq_true_iff.mp h
      have hright : rightIdentityWhenOne op = true ∧ isCommutative op = true := by
        cases op <;> cases hop <;> exact ⟨rfl, rfl⟩
      exact eval_right_one hright.1 (any_isNumericOne hl hz)
        (eval_comm ht hright.2 hv)
  all_goals
    obtain ⟨hop, hz⟩ := and_eq_true_iff.mp h
    have habsorbs : absorbsZero op = true ∧ isCommutative op = true := by
      cases op <;> cases hop <;> exact ⟨rfl, rfl⟩
  · exact eval_absorbs_right habsorbs.1 (any_isIntegerZero hr hz) hv
  · exact eval_absorbs_right habsorbs.1 (any_isIntegerZero hl hz)
      (eval_comm ht habsorbs.2 hv)
  · exact eval_absorbs_right habsorbs.1 (any_isNumericZero hr hz) hv
  · exact eval_absorbs_right habsorbs.1 (any_isNumericZero hl hz)
      (eval_comm ht habsorbs.2 hv)

end Table

end Vyre.ConstFold
