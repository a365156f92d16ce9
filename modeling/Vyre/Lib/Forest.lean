import Mathlib.Algebra.Order.Ring.Nat
import Mathlib.Order.WellFounded

/-!
# Descending forests

A parent function that never goes up in a well-founded order. Every element has
a root; pointing an element at its root changes no root, and pointing one root
below another joins two trees and leaves the others alone.
-/

namespace Forest

variable {α : Type*} [PartialOrder α] {p : α → α}

/-- No parent is above its child. -/
def Descends (p : α → α) : Prop := ∀ a, p a ≤ a

theorem Descends.lt_of_ne (hp : Descends p) {a : α} (h : p a ≠ a) : p a < a :=
  lt_of_le_of_ne (hp a) h

theorem Descends.update [DecidableEq α] (hp : Descends p) {a b : α} (h : b ≤ a) :
    Descends (Function.update p a b) := by
  intro x
  by_cases hx : x = a
  · rw [hx, Function.update_self]
    exact h
  · rw [Function.update_of_ne hx]
    exact hp x

theorem Descends.induction [WellFoundedLT α] (hp : Descends p) {P : α → Prop}
    (fixed : ∀ a, p a = a → P a) (step : ∀ a, p a < a → P (p a) → P a) (a : α) : P a := by
  induction a using WellFoundedLT.induction with
  | ind a ih =>
    by_cases h : p a = a
    · exact fixed a h
    · have hlt := hp.lt_of_ne h
      exact step a hlt (ih (p a) hlt)

def root [WellFoundedLT α] [DecidableLT α] (p : α → α) (a : α) : α :=
  if _h : p a < a then root p (p a) else a
termination_by WellFounded.wrap (wellFounded_lt : WellFounded (· < · : α → α → Prop)) a

variable [WellFoundedLT α] [DecidableLT α]

theorem root_of_fixed {a : α} (h : p a = a) : root p a = a := by
  rw [root, dif_neg (by rw [h]; exact lt_irrefl a)]

namespace Descends

variable (hp : Descends p)

include hp

theorem root_parent (a : α) : root p (p a) = root p a := by
  by_cases h : p a = a
  · rw [h]
  · rw [root.eq_def p a, dif_pos (hp.lt_of_ne h)]

theorem parent_root (a : α) : p (root p a) = root p a := by
  induction a using hp.induction with
  | fixed a h => rw [root_of_fixed h, h]
  | step a _ ih => rwa [hp.root_parent] at ih

theorem root_root (a : α) : root p (root p a) = root p a := root_of_fixed (hp.parent_root a)

theorem root_le (a : α) : root p a ≤ a := by
  induction a using hp.induction with
  | fixed a h => rw [root_of_fixed h]
  | step a hlt ih =>
    rw [hp.root_parent] at ih
    exact ih.trans hlt.le

theorem root_eq_self_iff {a : α} : root p a = a ↔ p a = a := by
  constructor
  · intro h
    rw [← h]
    exact hp.parent_root a
  · exact root_of_fixed

section Update

variable [DecidableEq α]

theorem root_update_root (a x : α) : root (Function.update p a (root p a)) x = root p x := by
  have hq := hp.update (hp.root_le a)
  induction x using hp.induction with
  | fixed x h =>
    apply (root_of_fixed _).trans (root_of_fixed h).symm
    by_cases hx : x = a
    · rw [← hx, Function.update_self, root_of_fixed h]
    · rw [Function.update_of_ne hx, h]
  | step x hlt ih =>
    by_cases hx : x = a
    · subst hx
      -- one step to the root, which is still fixed
      rw [← hq.root_parent, Function.update_self]
      apply root_of_fixed
      by_cases hroot : root p x = x
      · rw [hroot, Function.update_self]
      · rw [Function.update_of_ne hroot, hp.parent_root]
    · rw [← hq.root_parent, Function.update_of_ne hx, ih, hp.root_parent]

theorem root_update_link {a b : α} (ha : p a = a) (hb : p b = b) (h : b < a) (x : α) :
    root (Function.update p a b) x = if root p x = a then b else root p x := by
  have hq := hp.update h.le
  have hfixed : Function.update p a b b = b := by rw [Function.update_of_ne h.ne, hb]
  induction x using hp.induction with
  | fixed x hx =>
    rw [root_of_fixed hx]
    by_cases hxa : x = a
    · rw [if_pos hxa, hxa, ← hq.root_parent, Function.update_self, root_of_fixed hfixed]
    · rw [if_neg hxa]
      exact root_of_fixed (by rw [Function.update_of_ne hxa, hx])
  | step x hlt ih =>
    have hxa : x ≠ a := by
      rintro rfl
      exact hlt.ne ha
    rw [← hq.root_parent, Function.update_of_ne hxa, ih, hp.root_parent]

end Update

end Descends

end Forest
