import Mathlib.Algebra.Order.Ring.Nat
import Mathlib.Data.List.Forall2

/-!
# Stateful computations that may fail

Inversion of successful runs, and relations between the state before and after
a successful run. A relation that is reflexive and transitive is kept by a
sequence when each part keeps it.
-/

namespace StateExcept

open List

variable {σ ε α β : Type}

variable {x : StateT σ (Except ε) α} {f : α → StateT σ (Except ε) β} {s : σ} {a : α} {P : α → Prop}

theorem bind_eq_ok {r : β × σ} :
    (x >>= f) s = .ok r ↔ ∃ a s', x s = .ok (a, s') ∧ f a s' = .ok r := by
  show (x s >>= fun p => f p.1 p.2) = .ok r ↔ _
  cases x s with
  | error e => exact ⟨nofun, nofun⟩
  | ok p =>
    refine ⟨fun h => ⟨p.1, p.2, rfl, h⟩, ?_⟩
    rintro ⟨a, s', h, hf⟩
    cases h
    exact hf

theorem bind_of_ok {s' : σ} (h : x s = .ok (a, s')) : (x >>= f) s = f a s' := by
  show (x s >>= fun p => f p.1 p.2) = _
  rw [h]
  rfl

theorem pure_eq_ok {r : α × σ} : (pure a : StateT σ (Except ε) α) s = .ok r ↔ r = (a, s) := by
  show Except.ok (a, s) = .ok r ↔ _
  rw [Except.ok.injEq, eq_comm]

theorem map_eq_ok {f : α → β} {r : β × σ} :
    (f <$> x) s = .ok r ↔ ∃ a s', x s = .ok (a, s') ∧ r = (f a, s') := by
  rw [map_eq_pure_bind, bind_eq_ok]
  simp only [pure_eq_ok]

theorem exists_of_mapM_eq_ok {f : α → Except ε β} {as : List α} {bs : List β}
    (h : as.mapM f = .ok bs) {b : β} (hb : b ∈ bs) : ∃ a ∈ as, f a = .ok b := by
  induction as generalizing bs with
  | nil =>
    cases h
    cases hb
  | cons a as ih =>
    rw [mapM_cons] at h
    cases ha : f a with
    | error e =>
      rw [ha] at h
      cases h
    | ok c =>
      cases has : as.mapM f with
      | error e =>
        rw [ha, has] at h
        cases h
      | ok cs =>
        rw [ha, has] at h
        cases h
        rcases mem_cons.mp hb with rfl | hb
        · exact ⟨a, by simp, ha⟩
        · obtain ⟨a', ha', hfa'⟩ := ih has hb
          exact ⟨a', mem_cons_of_mem a ha', hfa'⟩

/-- A successful run of `x` relates the state before to the state after. -/
def Keeps (R : σ → σ → Prop) (x : StateT σ (Except ε) α) : Prop :=
  ∀ s a s', x s = .ok (a, s') → R s s'

variable {R : σ → σ → Prop}

theorem Keeps.pure [Std.Refl R] (a : α) : Keeps R (Pure.pure a : StateT σ (Except ε) α) := by
  intro s b s' h
  obtain ⟨-, rfl⟩ := Prod.mk.inj (pure_eq_ok.mp h)
  exact Std.Refl.refl s'

theorem Keeps.get [Std.Refl R] : Keeps R (MonadState.get : StateT σ (Except ε) σ) := by
  intro s a s' h
  cases h
  exact Std.Refl.refl s

theorem Keeps.bind [IsTrans σ R] (hx : Keeps R x) (hf : ∀ a, Keeps R (f a)) :
    Keeps R (x >>= f) := by
  intro s b s'' h
  obtain ⟨a, s', hxs, hfs⟩ := bind_eq_ok.mp h
  exact trans_of R (hx s a s' hxs) (hf a s' b s'' hfs)

/-! ## Relational triples

How a run from one state is answered by a run from a related state. -/

section Relates

variable {γ δ : Type} {P : α → β → Prop} {y : StateT σ (Except ε) β}

/-- From related states, a run of `x` that succeeds is followed by one of `y`, to
related results and states. -/
def Relates (R : σ → σ → Prop) (P : α → β → Prop) (x : StateT σ (Except ε) α)
    (y : StateT σ (Except ε) β) : Prop :=
  ∀ s t a s', R s t → x s = .ok (a, s') → ∃ b t', y t = .ok (b, t') ∧ P a b ∧ R s' t'

/-- The same with one result. -/
abbrev Follows (R : σ → σ → Prop) (x y : StateT σ (Except ε) α) : Prop := Relates R Eq x y

/-- `x` runs the same from related states. -/
abbrev Respects (R : σ → σ → Prop) (x : StateT σ (Except ε) α) : Prop := Follows R x x

theorem Relates.pure {a : α} {b : β} (h : P a b) :
    Relates R P (Pure.pure a : StateT σ (Except ε) α) (Pure.pure b) := by
  intro s t a' s' hR hrun
  cases hrun
  exact ⟨b, t, rfl, h, hR⟩

theorem Relates.bind {Q : γ → δ → Prop} {f : α → StateT σ (Except ε) γ}
    {g : β → StateT σ (Except ε) δ}
    (hx : Relates R P x y) (hf : ∀ a b, P a b → Relates R Q (f a) (g b)) :
    Relates R Q (x >>= f) (y >>= g) := by
  intro s t c s'' hR hrun
  obtain ⟨a, s', hxs, hfs⟩ := bind_eq_ok.mp hrun
  obtain ⟨b, t', hyt, hP, hR'⟩ := hx s t a s' hR hxs
  obtain ⟨d, t'', hgt, hQ, hR''⟩ := hf a b hP s' t' c s'' hR' hfs
  exact ⟨d, t'', bind_eq_ok.mpr ⟨b, t', hyt, hgt⟩, hQ, hR''⟩

theorem Follows.bind {x' : StateT σ (Except ε) α} {Q : γ → δ → Prop} {f : α → StateT σ (Except ε) γ}
    {g : α → StateT σ (Except ε) δ} (hx : Follows R x x') (hf : ∀ a, Relates R Q (f a) (g a)) :
    Relates R Q (x >>= f) (x' >>= g) := by
  refine Relates.bind hx ?_
  rintro a _ rfl
  exact hf a

theorem Follows.mapM {f : α → StateT σ (Except ε) γ} {g : β → StateT σ (Except ε) γ}
    {as : List α} {bs : List β} (h : Forall₂ (fun a b => Follows R (f a) (g b)) as bs) :
    Follows R (as.mapM f) (bs.mapM g) := by
  induction h with
  | nil => exact .pure rfl
  | cons hab _ ih =>
    rw [mapM_cons, mapM_cons]
    exact hab.bind fun c => ih.bind fun cs => .pure rfl

theorem respects_eq (x : StateT σ (Except ε) α) : Respects Eq x := by
  rintro s _ a s' rfl hrun
  exact ⟨a, s', hrun, rfl, rfl⟩

/-- Whatever `x` gives, `y` gives. -/
def Refines (x y : StateT σ (Except ε) α) : Prop := ∀ s r, x s = .ok r → y s = .ok r

theorem Refines.rfl : Refines x x := fun _ _ h => h

theorem Refines.trans {y z : StateT σ (Except ε) α} (h : Refines x y) (h' : Refines y z) :
    Refines x z :=
  fun s r hrun => h' s r (h s r hrun)

theorem refines_iff {y : StateT σ (Except ε) α} : Refines x y ↔ Follows Eq x y := by
  constructor
  · rintro h s _ a s' rfl hrun
    exact ⟨a, s', h s _ hrun, Eq.refl a, Eq.refl s'⟩
  · rintro h s r hrun
    obtain ⟨_, _, hrun', rfl, rfl⟩ := h s s r.1 r.2 (Eq.refl s) hrun
    exact hrun'

theorem Keeps.respects [IsTrans σ R] (h : Keeps R x) (s₀ : σ) :
    Respects (fun s t => s = t ∧ R s₀ s) x := by
  rintro s _ a s' ⟨rfl, hs⟩ hrun
  exact ⟨a, s', hrun, rfl, rfl, trans_of R hs (h s a s' hrun)⟩

theorem keeps_of_respects [Std.Refl R] (h : ∀ s₀, Respects (fun s t => s = t ∧ R s₀ s) x) :
    Keeps R x := by
  intro s a s' hrun
  obtain ⟨-, -, -, -, -, hR⟩ := h s s s a s' ⟨rfl, Std.Refl.refl s⟩ hrun
  exact hR

theorem relates_eq [Std.Refl R] (h : ∀ s₀, Relates (fun s t => s = t ∧ R s₀ s) P x y) :
    Relates Eq P x y := by
  rintro s _ a s' rfl hrun
  obtain ⟨b, t', hrun', hP, rfl, -⟩ := h s s s a s' ⟨rfl, Std.Refl.refl s⟩ hrun
  exact ⟨b, s', hrun', hP, rfl⟩

end Relates

/-! ## Triples

A precondition on the state that every part of a program keeps, a postcondition
on the result, and the errors that must not occur. -/

/-- From a state in `I` a run of `x` ends in a state in `I` with a result in
`P`, or fails with an error that is not in `B`. -/
def Meets (I : σ → Prop) (B : ε → Prop) (x : StateT σ (Except ε) α) (P : α → Prop) : Prop :=
  ∀ s, I s → match x s with
    | .ok r => P r.1 ∧ I r.2
    | .error e => ¬ B e

variable {I : σ → Prop} {B : ε → Prop}

theorem Meets.pure (h : P a) : Meets I B (Pure.pure a : StateT σ (Except ε) α) P :=
  fun _ hs => ⟨h, hs⟩

theorem Meets.get : Meets I B (MonadState.get : StateT σ (Except ε) σ) I :=
  fun _ hs => ⟨hs, hs⟩

theorem Meets.set (h : I s) :
    Meets I B (MonadState.set s : StateT σ (Except ε) PUnit) fun _ => True :=
  fun _ _ => ⟨trivial, h⟩

theorem Meets.bind {Q : β → Prop} (hx : Meets I B x P) (hf : ∀ a, P a → Meets I B (f a) Q) :
    Meets I B (x >>= f) Q := by
  intro s hs
  have hxs := hx s hs
  show match (x s >>= fun p => f p.1 p.2) with
    | .ok r => Q r.1 ∧ I r.2
    | .error e => ¬ B e
  cases h : x s with
  | error e =>
    rw [h] at hxs
    exact hxs
  | ok r =>
    rw [h] at hxs
    exact hf r.1 hxs.1 r.2 hxs.2

theorem Meets.imp {Q : α → Prop} (hx : Meets I B x P) (h : ∀ a, P a → Q a) : Meets I B x Q := by
  intro s hs
  have hxs := hx s hs
  cases hr : x s with
  | error e =>
    rw [hr] at hxs
    exact hxs
  | ok r =>
    rw [hr] at hxs
    exact ⟨h r.1 hxs.1, hxs.2⟩

theorem Meets.mapM {P : β → Prop} (as : List α) (h : ∀ a ∈ as, Meets I B (f a) P) :
    Meets I B (as.mapM f) fun bs => ∀ b ∈ bs, P b := by
  induction as with
  | nil =>
    exact .pure (by simp)
  | cons a as ih =>
    rw [mapM_cons]
    refine (h a (by simp)).bind fun b hb =>
      (ih fun c hc => h c (mem_cons_of_mem a hc)).bind fun bs hbs => .pure ?_
    exact forall_mem_cons.mpr ⟨hb, hbs⟩

theorem Meets.mono_errors {B' : ε → Prop} (hx : Meets I B x P) (h : ∀ e, B' e → B e) :
    Meets I B' x P := by
  intro s hs
  have hxs := hx s hs
  cases hr : x s with
  | error e =>
    rw [hr] at hxs
    exact fun hb => hxs (h e hb)
  | ok r =>
    rw [hr] at hxs
    exact hxs

/-- A program that relates the states before and after keeps a property closed
under the relation. -/
theorem Meets.of_keeps (hx : Meets (fun _ => True) B x P) (hk : Keeps R x)
    (hclosed : ∀ s s', R s s' → I s → I s') : Meets I B x P := by
  intro s hs
  have hxs := hx s trivial
  cases hr : x s with
  | error e =>
    rw [hr] at hxs
    exact hxs
  | ok r =>
    rw [hr] at hxs
    exact ⟨hxs.1, hclosed s r.2 (hk s r.1 r.2 hr) hs⟩

end StateExcept
