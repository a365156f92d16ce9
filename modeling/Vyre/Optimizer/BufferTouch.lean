import Vyre.Ir.Same

/-!
# Statements that do not touch a buffer

`expr_touches_buffer` and the checks of statements that dead-store elimination
and store-to-load forwarding share.
-/

namespace Vyre.MemoryPass

section Touch

variable (cas : Bool) (buffer : Ident)

mutual

/-- `expr_touches_buffer`. For dead-store elimination (`cas`) a compare-exchange
touches every buffer. Neither pass looks at the lane of a shuffle. -/
def exprTouchesBuffer : Expr → Bool
  | .load other index => other == buffer || exprTouchesBuffer index
  | .bufLen other => other == buffer
  | .atomic op other index expected value _ =>
      other == buffer || exprTouchesBuffer index ||
        (cas && (op == .compareExchange || op == .compareExchangeWeak)) ||
        expectedTouchesBuffer expected || exprTouchesBuffer value
  | .binOp _ left right => exprTouchesBuffer left || exprTouchesBuffer right
  | .unOp _ operand | .cast _ operand => exprTouchesBuffer operand
  | .fma a b c => exprTouchesBuffer a || exprTouchesBuffer b || exprTouchesBuffer c
  | .select cond trueVal falseVal =>
      exprTouchesBuffer cond || exprTouchesBuffer trueVal || exprTouchesBuffer falseVal
  | .call _ args => argsTouchBuffer args
  | .subgroupShuffle value _ | .subgroupAdd value => exprTouchesBuffer value
  | .subgroupBallot cond => exprTouchesBuffer cond
  | .ext _ => true
  | _ => false

def expectedTouchesBuffer : Option Expr → Bool
  | none => false
  | some e => exprTouchesBuffer e

def argsTouchBuffer : List Expr → Bool
  | [] => false
  | e :: es => exprTouchesBuffer e || argsTouchBuffer es

end

mutual

/-- The check of a statement; `sameStore` is the answer for a store to the
buffer, of whatever operands. -/
def nodeTouchesBuffer (sameStore : Bool) : Node → Bool
  | .store other index value =>
      if other = buffer then sameStore
      else exprTouchesBuffer cas buffer index || exprTouchesBuffer cas buffer value
  | .letBind _ value | .assign _ value => exprTouchesBuffer cas buffer value
  | .ifThen cond thenNodes otherwise => exprTouchesBuffer cas buffer cond ||
      nodesTouchBuffer sameStore thenNodes || nodesTouchBuffer sameStore otherwise
  | .loop _ lo hi body => exprTouchesBuffer cas buffer lo || exprTouchesBuffer cas buffer hi ||
      nodesTouchBuffer sameStore body
  | .block body | .region _ _ body => nodesTouchBuffer sameStore body
  | .allReduce other _ _ | .broadcast other _ _ => other == buffer
  | .allGather input output _ | .reduceScatter input output _ _ =>
      input == buffer || output == buffer
  | .barrier _ | .asyncWait _ | .resume _ | .ret | .ext _ => true
  | .asyncLoad source destination offset size _ | .asyncStore source destination offset size _ =>
      source == buffer || destination == buffer || exprTouchesBuffer cas buffer offset ||
        exprTouchesBuffer cas buffer size
  | .indirectDispatch countBuffer _ => countBuffer == buffer
  | .trap address _ => exprTouchesBuffer cas buffer address

def nodesTouchBuffer (sameStore : Bool) : List Node → Bool
  | [] => false
  | n :: ns => nodeTouchesBuffer sameStore n || nodesTouchBuffer sameStore ns

end

end Touch

variable {cas : Bool} {buffer : Ident} {fingerprint : Fingerprint}

/-- Equal expressions touch the same buffers. -/
theorem exprTouchesBuffer_same {e e' : Expr} (h : e.same fingerprint e' = true) :
    exprTouchesBuffer cas buffer e = exprTouchesBuffer cas buffer e' := by
  induction e generalizing e' with
  | call opId args ih =>
    cases e' with try cases h
    | call _ args' =>
      obtain ⟨-, hargs⟩ := Bool.and_eq_true_iff.mp h
      simp only [exprTouchesBuffer]
      clear h
      induction args generalizing args' with
      | nil =>
        cases args' with
        | nil => rfl
        | cons a' as' => cases hargs
      | cons a as ihas =>
        cases args' with
        | nil => cases hargs
        | cons a' as' =>
          obtain ⟨hhead, htail⟩ := Bool.and_eq_true_iff.mp hargs
          rw [argsTouchBuffer, argsTouchBuffer, ih a (by simp) hhead,
            ihas (fun a ha => ih a (by simp [ha])) as' htail]
  | atomic _ other _ expected _ _ ihi ihe ihv =>
    cases e' with try cases h
    | atomic _ _ _ expected' _ _ =>
      simp only [Expr.same, Bool.and_eq_true, beq_iff_eq, decide_eq_true_eq] at h
      obtain ⟨⟨⟨⟨⟨hop, hother⟩, hi⟩, he⟩, hv⟩, -⟩ := h
      have hexp : expectedTouchesBuffer cas buffer expected =
          expectedTouchesBuffer cas buffer expected' := by
        cases expected <;> cases expected' <;>
          first | rfl | cases he | exact ihe _ rfl he
      simp only [exprTouchesBuffer, hop, hother, ihi hi, hexp, ihv hv]
  | load other index ih | unOp op operand ih | cast target operand ih =>
    cases e' <;> try cases h
    simp only [Expr.same, Bool.and_eq_true, beq_iff_eq, decide_eq_true_eq] at h
    simp only [exprTouchesBuffer, h.1, ih h.2]
  | binOp op left right ihl ihr =>
    cases e' <;> try cases h
    simp only [Expr.same, Bool.and_eq_true] at h
    simp only [exprTouchesBuffer, ihl h.1.2, ihr h.2]
  | select a b c iha ihb ihc | fma a b c iha ihb ihc =>
    cases e' <;> try cases h
    simp only [Expr.same, Bool.and_eq_true] at h
    simp only [exprTouchesBuffer, iha h.1.1, ihb h.1.2, ihc h.2]
  | subgroupShuffle value lane ih _ =>
    cases e' <;> try cases h
    simp only [exprTouchesBuffer, ih (Bool.and_eq_true_iff.mp h).1]
  | subgroupBallot value ih | subgroupAdd value ih =>
    cases e' <;> try cases h
    simp only [exprTouchesBuffer, ih h]
  | _ =>
    cases e' <;> try cases h
    simp_all [exprTouchesBuffer, Expr.same]

end Vyre.MemoryPass
