import Vyre.Ir.Program

/-!
# Equality of expressions

`PartialEq` of `Expr`, as the registry of the syntax generates it: field by
field, with the equality of `f32` on float literals (so `0.0` and `-0.0` are
equal and no NaN is equal to itself), and by kind and fingerprint on extensions.
The fingerprint of an extension is its own; it is a parameter here.
-/

namespace Vyre

open Vyre.Expr

/-- `==` on `f32`, on bits: the two zeros are equal, a NaN is not. -/
def sameF32 (a b : UInt32) : Bool :=
  (a == b && !((a >>> 23) &&& 0xFF == 0xFF && a &&& 0x7FFFFF != 0)) ||
    (a &&& 0x7FFFFFFF == 0 && b &&& 0x7FFFFFFF == 0)

/-- `stable_fingerprint` of the extensions. -/
abbrev Fingerprint := ExprExtension → List UInt8

section Same

variable (fingerprint : Fingerprint)

mutual

/-- `Expr::eq`. -/
def Expr.same : Expr → Expr → Bool
  | .litU32 a, .litU32 b => a == b
  | .litI32 a, .litI32 b => a == b
  | .litF32 a, .litF32 b => sameF32 a b
  | .litBool a, .litBool b => a == b
  | .var a, .var b => a == b
  | .load buffer index, .load buffer' index' => buffer == buffer' && index.same index'
  | .bufLen a, .bufLen b => a == b
  | .invocationId a, .invocationId b => a == b
  | .workgroupId a, .workgroupId b => a == b
  | .localId a, .localId b => a == b
  | .binOp op l r, .binOp op' l' r' => decide (op = op') && l.same l' && r.same r'
  | .unOp op e, .unOp op' e' => decide (op = op') && e.same e'
  | .call opId args, .call opId' args' => opId == opId' && sameAll args args'
  | .select c t f, .select c' t' f' => c.same c' && t.same t' && f.same f'
  | .cast target e, .cast target' e' => decide (target = target') && e.same e'
  | .fma a b c, .fma a' b' c' => a.same a' && b.same b' && c.same c'
  | .atomic op buffer index expected value ordering,
      .atomic op' buffer' index' expected' value' ordering' =>
      decide (op = op') && buffer == buffer' && index.same index' &&
        sameExpected expected expected' && value.same value' && decide (ordering = ordering')
  | .subgroupBallot c, .subgroupBallot c' => c.same c'
  | .subgroupShuffle e lane, .subgroupShuffle e' lane' => e.same e' && lane.same lane'
  | .subgroupAdd e, .subgroupAdd e' => e.same e'
  | .subgroupLocalId, .subgroupLocalId | .subgroupSize, .subgroupSize => true
  | .ext a, .ext b => a.extensionKind == b.extensionKind && fingerprint a == fingerprint b
  | _, _ => false

def Expr.sameAll : List Expr → List Expr → Bool
  | [], [] => true
  | e :: es, e' :: es' => e.same e' && sameAll es es'
  | _, _ => false

def Expr.sameExpected : Option Expr → Option Expr → Bool
  | none, none => true
  | some e, some e' => e.same e'
  | _, _ => false

end

/-- An expression whose equality is decided by its fields. -/
def Expr.HasFields : Expr → Prop
  | .litF32 _ | .ext _ => False
  | _ => True

variable {fingerprint}

theorem Expr.eq_of_sameAll {left right : List Expr}
    (ih : ∀ e ∈ left, ∀ e', e.Forall HasFields → same fingerprint e e' = true → e = e')
    (hfields : ∀ e ∈ left, e.Forall HasFields) (h : sameAll fingerprint left right = true) :
    left = right := by
  induction left generalizing right with
  | nil =>
    cases right with
    | nil => rfl
    | cons e' es' => cases h
  | cons e es ihs =>
    cases right with
    | nil => cases h
    | cons e' es' =>
      obtain ⟨hhead, htail⟩ := Bool.and_eq_true_iff.mp h
      rw [ih e (by simp) e' (hfields e (by simp)) hhead,
        ihs (fun a ha => ih a (by simp [ha])) (fun a ha => hfields a (by simp [ha])) htail]

theorem Expr.eq_of_same {e e' : Expr} (hfields : e.Forall Expr.HasFields)
    (h : same fingerprint e e' = true) : e = e' := by
  induction e generalizing e' with
  | litF32 bits | ext extension => exact hfields.elim
  | binOp op l r ihl ihr =>
    cases e' <;> try cases h
    simp only [same, Bool.and_eq_true, decide_eq_true_eq] at h
    rw [h.1.1, ihl hfields.2.1 h.1.2, ihr hfields.2.2 h.2]
  | load buffer index ih | unOp op operand ih | cast target value ih =>
    cases e' <;> try cases h
    simp only [same, Bool.and_eq_true, beq_iff_eq, decide_eq_true_eq] at h
    rw [h.1, ih hfields.2 h.2]
  | call opId args ih =>
    cases e' <;> try cases h
    simp only [same, Bool.and_eq_true, beq_iff_eq] at h
    rw [h.1, eq_of_sameAll (fun a ha a' hf hs => ih a ha hf hs) (forallArgs_iff.mp hfields.2) h.2]
  | select a b c iha ihb ihc | fma a b c iha ihb ihc =>
    cases e' <;> try cases h
    simp only [same, Bool.and_eq_true] at h
    rw [iha hfields.2.1 h.1.1, ihb hfields.2.2.1 h.1.2, ihc hfields.2.2.2 h.2]
  | atomic _ _ _ expected _ _ ihi ihe ihv =>
    obtain ⟨-, hindex, hexpected, hvalue⟩ := hfields
    cases e' with try cases h
    | atomic _ _ _ expected' _ _ =>
      simp only [same, Bool.and_eq_true, beq_iff_eq, decide_eq_true_eq] at h
      obtain ⟨⟨⟨⟨⟨hop, hbuffer⟩, hi⟩, he⟩, hv⟩, hordering⟩ := h
      have hexp : expected = expected' := by
        cases expected with
        | none =>
          cases expected' with
          | none => rfl
          | some x' => cases he
        | some x =>
          cases expected' with
          | none => cases he
          | some x' => rw [ihe x rfl (forallExpected_iff.mp hexpected x rfl) he]
      rw [hop, hbuffer, ihi hindex hi, hexp, ihv hvalue hv, hordering]
  | subgroupBallot c ih | subgroupAdd value ih =>
    cases e' <;> try cases h
    rw [ih hfields.2 h]
  | subgroupShuffle value lane ihv ihl =>
    cases e' <;> try cases h
    simp only [same, Bool.and_eq_true] at h
    rw [ihv hfields.2.1 h.1, ihl hfields.2.2 h.2]
  | _ =>
    cases e' <;> try cases h
    all_goals simp_all [same]

theorem Expr.same_self {e : Expr} (hfields : e.Forall Expr.HasFields) :
    same fingerprint e e = true := by
  induction e with
  | litF32 bits | ext extension => exact hfields.elim
  | call opId args ih =>
    have hargs : ∀ es : List Expr, (∀ a ∈ es, same fingerprint a a = true) →
        sameAll fingerprint es es = true := by
      intro es
      induction es with
      | nil => exact fun _ => rfl
      | cons a es ihs =>
        intro h
        rw [sameAll, h a (by simp), ihs fun b hb => h b (by simp [hb])]
        rfl
    simp [same, hargs args fun a ha => ih a ha (forallArgs_iff.mp hfields.2 a ha)]
  | atomic _ _ _ expected _ _ ihi ihe ihv =>
    obtain ⟨-, hindex, hexpected, hvalue⟩ := hfields
    have hexp : sameExpected fingerprint expected expected = true := by
      cases expected with
      | none => rfl
      | some x => exact ihe x rfl (forallExpected_iff.mp hexpected x rfl)
    simp [same, ihi hindex, hexp, ihv hvalue]
  | load buffer index ih | unOp op operand ih | cast target value ih | subgroupBallot c ih
  | subgroupAdd value ih => simp [same, ih hfields.2]
  | binOp op l r ihl ihr | subgroupShuffle l r ihl ihr =>
    simp [same, ihl hfields.2.1, ihr hfields.2.2]
  | select a b c iha ihb ihc | fma a b c iha ihb ihc =>
    simp [same, iha hfields.2.1, ihb hfields.2.2.1, ihc hfields.2.2.2]
  | _ => simp [same]

end Same

end Vyre
