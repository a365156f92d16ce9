import Vyre.Lib.ByteCodec

/-!
# Readers in lockstep

Two readers that do the same on the same input, each at its own nesting, except
that an error of the second may show as another one in the first. `relabel`
says how, and `allowed` which errors the second may raise at all. Both come back
to the nesting they started at.
-/

namespace ByteCodec

open ByteCodec

/-- How the errors of two readers in lockstep correspond. -/
structure ErrorMap (ε : Type) where
  relabel : ε → ε
  allowed : ε → Prop

/-- Errors that may be raised and are the same on both sides. -/
def ErrorMap.Fixes {ε : Type} (f : ErrorMap ε) (e : ε) : Prop := f.allowed e ∧ f.relabel e = e

section Lockstep

variable {ε α β : Type} (f : ErrorMap ε)

/-- At nestings `d` and `d'`, `p` does what `q` does. -/
def Lockstep (d d' : Nat) (p q : Get ε α) : Prop :=
  ∀ rest, (∃ a rest', q.run ⟨rest, d'⟩ = .ok (a, ⟨rest', d'⟩) ∧
      p.run ⟨rest, d⟩ = .ok (a, ⟨rest', d⟩)) ∨
    ∃ e, f.allowed e ∧ q.run ⟨rest, d'⟩ = .error e ∧ p.run ⟨rest, d⟩ = .error (f.relabel e)

variable {f} {d d' : Nat} {p q : Get ε α}

theorem Lockstep.pure (a : α) : Lockstep f d d' (Pure.pure a) (Pure.pure a) :=
  fun rest => .inl ⟨a, rest, rfl, rfl⟩

theorem Lockstep.bind {g h : α → Get ε β} (hp : Lockstep f d d' p q)
    (hg : ∀ a, Lockstep f d d' (g a) (h a)) : Lockstep f d d' (p >>= g) (q >>= h) := by
  intro rest
  simp only [StateT.run_bind]
  rcases hp rest with ⟨a, rest', hq, hp⟩ | ⟨e, hok, hq, hp⟩
  · rw [hq, hp]
    exact hg a rest'
  · rw [hq, hp]
    exact .inr ⟨e, hok, rfl, rfl⟩

theorem Lockstep.map {g : α → β} (hp : Lockstep f d d' p q) :
    Lockstep f d d' (g <$> p) (g <$> q) := by
  exact hp.bind fun a => .pure (g a)

theorem Lockstep.fail {e : ε} (he : f.Fixes e) :
    Lockstep f d d' (fail e : Get ε α) (fail e) := by
  intro rest
  refine .inr ⟨e, he.1, rfl, ?_⟩
  rw [he.2]
  rfl

theorem Lockstep.check {ok : Bool} {e : ε} (he : f.Fixes e) :
    Lockstep f d d' (check ok e) (check ok e) := by
  cases ok with
  | true => exact fun rest => .inl ⟨(), rest, rfl, rfl⟩
  | false => exact Lockstep.fail he

theorem Lockstep.lift {r : Except ε α} (he : ∀ e, r = .error e → f.Fixes e) :
    Lockstep f d d' (lift r) (lift r) := by
  cases r with
  | error e => exact Lockstep.fail (he e rfl)
  | ok a => exact Lockstep.pure a

theorem Lockstep.ite {c : Prop} [Decidable c] {p' q' : Get ε α} (hp : Lockstep f d d' p q)
    (hp' : Lockstep f d d' p' q') :
    Lockstep f d d' (if c then p else p') (if c then q else q') := by
  split
  · exact hp
  · exact hp'

theorem Lockstep.byte {short : ε} (he : f.Fixes short) :
    Lockstep f d d' (byte short) (byte short) := by
  intro rest
  cases rest with
  | nil => exact Lockstep.fail (α := UInt8) he []
  | cons b rest => exact .inl ⟨b, rest, rfl, rfl⟩

theorem Lockstep.take {short : ε} {n : Nat} (he : f.Fixes short) :
    Lockstep f d d' (take short n) (take short n) := by
  intro rest
  by_cases hn : n ≤ rest.length
  · refine .inl ⟨rest.take n, rest.drop n, ?_, ?_⟩ <;> exact if_pos hn
  · refine .inr ⟨short, he.1, if_neg hn, ?_⟩
    rw [he.2]
    exact if_neg hn

theorem Lockstep.many {n : Nat} (hp : Lockstep f d d' p q) :
    Lockstep f d d' (many p n) (many q n) := by
  induction n with
  | zero => exact Lockstep.pure []
  | succ n ih => exact hp.bind fun a => ih.bind fun as => .pure (a :: as)

theorem Lockstep.within {slice : List UInt8} {trailing : ε} (he : f.Fixes trailing)
    (hp : Lockstep f 0 0 p q) :
    Lockstep f d d' (within slice p trailing) (within slice q trailing) := by
  intro rest
  unfold ByteCodec.within
  rcases hp slice with ⟨a, rest', hq, hp⟩ | ⟨e, hok, hq, hp⟩
  · rw [hq, hp]
    by_cases hrest : rest' = []
    · exact .inl ⟨a, rest, if_pos hrest, if_pos hrest⟩
    · refine .inr ⟨trailing, he.1, if_neg hrest, ?_⟩
      rw [he.2]
      exact if_neg hrest
  · rw [hq, hp]
    exact .inr ⟨e, hok, rfl, rfl⟩

theorem Lockstep.leb {errors : LebErrors ε} {minimal : Bool} {top k shift acc : Nat}
    (hs : f.Fixes errors.short) (ho : f.Fixes errors.overflow) (hu : f.Fixes errors.unterminated)
    (hl : f.Fixes errors.overlong) :
    Lockstep f d d' (leb errors minimal top k shift acc)
      (leb errors minimal top k shift acc) := by
  induction k generalizing shift acc with
  | zero => exact Lockstep.fail hu
  | succ k ih =>
    refine (Lockstep.byte hs).bind fun b => (Lockstep.check ho).bind fun _ => ?_
    exact Lockstep.ite ((Lockstep.check hl).bind fun _ => .pure _) ih

/-- Lockstep as a class: readers built alike are in step when their parts are. -/
class InStep (f : ErrorMap ε) (d d' : Nat) (p q : Get ε α) : Prop where
  lockstep : Lockstep f d d' p q

instance (a : α) : InStep f d d' (Pure.pure a) (Pure.pure a) := ⟨.pure a⟩

instance InStep.bind {g h : α → Get ε β} [hp : InStep f d d' p q]
    [hg : ∀ a, InStep f d d' (g a) (h a)] : InStep f d d' (p >>= g) (q >>= h) :=
  ⟨hp.lockstep.bind fun a => (hg a).lockstep⟩

theorem InStep.andThen {g h : α → Get ε β} [InStep f d d' p q]
    (hg : ∀ a, InStep f d d' (g a) (h a)) : InStep f d d' (p >>= g) (q >>= h) := inferInstance

instance {g : α → β} [hp : InStep f d d' p q] : InStep f d d' (g <$> p) (g <$> q) :=
  ⟨hp.lockstep.map⟩

instance {c : Prop} [Decidable c] {p' q' : Get ε α} [hp : InStep f d d' p q]
    [hp' : InStep f d d' p' q'] : InStep f d d' (if c then p else p') (if c then q else q') :=
  ⟨hp.lockstep.ite hp'.lockstep⟩

instance {n : Nat} [hp : InStep f d d' p q] :
    InStep f d d' (many p n) (many q n) := ⟨hp.lockstep.many⟩

end Lockstep

end ByteCodec
