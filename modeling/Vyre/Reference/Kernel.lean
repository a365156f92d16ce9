import Vyre.Ir.Builder
import Vyre.Lib.Words
import Vyre.Reference.Scoped

/-!
# Rules for kernels over words

How the expressions and statements of a kernel evaluate when its buffers hold
32-bit words: a rule for each constructor, over environments. A kernel is
verified by chaining them.
-/

namespace Vyre.Reference

open Eval StateExcept Words

/-- A `u32` buffer with the given words. -/
def Buffer.ofWords (ws : List UInt32) : Buffer := ⟨toBytes ws, .u32⟩

namespace Buffer

theorem checkedMul_index (i : UInt32) : checkedMul i.toNat 4 = some (4 * i.toNat) := by
  have hlt := i.toNat_lt
  rw [checkedMul, if_pos (by unfold usizeLimit; omega), Nat.mul_comm]

/-- A load past the end gives 0. -/
@[simp] theorem load_ofWords (fl : Floats) (ws : List UInt32) (i : UInt32) :
    (ofWords ws).load fl i = .u32 (ws.getD i.toNat 0) := by
  have hstride : DataType.u32.minBytes = 4 := rfl
  have hbytes : ¬ DataType.u32 = .bytes := by decide
  simp only [load, ofWords, if_neg hbytes, hstride, checkedMul_index, conformType,
    length_toBytes]
  by_cases hin : i.toNat < ws.length
  · have hlength : (((toBytes ws).drop (4 * i.toNat)).take 4).length = 4 := by
      rw [List.length_take, List.length_drop, length_toBytes]
      omega
    have hword : readU32Prefix (((toBytes ws).drop (4 * i.toNat)).take 4) = ws[i.toNat] := by
      rw [readU32Prefix, List.take_take, Nat.min_self, ofLeBytes_drop_toBytes hin]
    rw [if_neg (by omega), Value.fromElementBytes, if_neg (by omega), hword]
    simp [hin]
  · rw [if_pos (by omega)]
    have hdefault : ws.getD i.toNat 0 = 0 := List.getD_eq_default _ _ (by omega)
    rw [hdefault]
    rfl

/-- A store past the end does nothing. -/
theorem store_slot {fl : Floats} {v : Value} {w : UInt32}
    (hslot : elementBytes fl .u32 v = ByteCodec.leBytes 4 w.toNat) (ws : List UInt32) (i : UInt32) :
    (ofWords ws).store fl i v = ofWords (ws.set i.toNat w) := by
  have hstride : DataType.u32.minBytes = 4 := rfl
  have hbytes : ¬ DataType.u32 = .bytes := by decide
  simp only [store, ofWords, if_neg hbytes, hstride, checkedMul_index, length_toBytes, hslot,
    overwrite, ByteCodec.leBytes_length]
  by_cases hin : i.toNat < ws.length
  · rw [if_neg (by omega), overwrite_toBytes hin]
  · rw [if_pos (by omega), List.set_eq_of_length_le (by omega)]

@[simp] theorem store_ofWords (fl : Floats) (ws : List UInt32) (i v : UInt32) :
    (ofWords ws).store fl i (.u32 v) = ofWords (ws.set i.toNat v) := by
  refine store_slot ?_ ws i
  have hlength : (ByteCodec.leBytes 4 v.toNat).length = 4 := ByteCodec.leBytes_length _ _
  have hstride : DataType.u32.minBytes = 4 := rfl
  simp [elementBytes, Value.toSlot, Value.toBytes, hstride, List.take_of_length_le hlength.le]

end Buffer

/-! ## Shifts, as numbers -/

theorem toNat_and_31 (b : UInt32) : (b &&& 31).toNat = b.toNat % 32 :=
  Nat.and_two_pow_sub_one_eq_mod b.toNat 5

theorem toNat_shl (w p : UInt32) :
    (shiftU32 w p true).toNat = w.toNat * 2 ^ (p.toNat % 32) % 2 ^ 32 := by
  rw [shiftU32, if_pos rfl, UInt32.toNat_shiftLeft, toNat_and_31, Nat.mod_mod, Nat.shiftLeft_eq]

theorem toNat_shr (w p : UInt32) :
    (shiftU32 w p false).toNat = w.toNat / 2 ^ (p.toNat % 32) := by
  rw [shiftU32, if_neg (by decide), UInt32.toNat_shiftRight, toNat_and_31, Nat.mod_mod,
    Nat.shiftRight_eq_div_pow]

/-! ## Expressions -/

/-- The expression has the value, and the memory is as before. -/
def Gives (host : Host) (lane : Lane) (m : Memory) (e : Expr) (v : Value) : Prop :=
  evalExpr host [lane] e lane m = .ok (v, m)

namespace Gives

variable {host : Host} {lane : Lane} {m : Memory} {l r e c : Expr} {x y : UInt32} {a b v : Value}

theorem u32 (x : UInt32) : Gives host lane m (.u32 x) (.u32 x) := rfl

theorem var {name : Ident} (h : lane.locals name = some v) : Gives host lane m (.var name) v := by
  simp only [Gives, evalExpr, h]
  rfl

theorem binOp {op : BinOp} (hl : Gives host lane m l a) (hr : Gives host lane m r b)
    (hop : evalBinop host.floats op a b = .ok v) : Gives host lane m (.binOp op l r) v :=
  bind_eq_ok.mpr ⟨a, m, hl, bind_eq_ok.mpr ⟨b, m, hr, lift_eq_ok.mpr ⟨hop, rfl⟩⟩⟩

section Operators

variable (hl : Gives host lane m l (.u32 x)) (hr : Gives host lane m r (.u32 y))
include hl hr

theorem add : Gives host lane m (.add l r) (.u32 (x + y)) := hl.binOp hr rfl

theorem sub : Gives host lane m (.sub l r) (.u32 (x - y)) := hl.binOp hr rfl

theorem mul : Gives host lane m (.mul l r) (.u32 (x * y)) := hl.binOp hr rfl

theorem div (hy : y ≠ 0) : Gives host lane m (.div l r) (.u32 (x / y)) :=
  hl.binOp hr (by
    show (divU32 x y).map Value.u32 = _
    rw [divU32, if_neg hy]
    rfl)

theorem rem (hy : y ≠ 0) : Gives host lane m (.rem l r) (.u32 (x % y)) :=
  hl.binOp hr (by
    show (remU32 x y).map Value.u32 = _
    rw [remU32, if_neg hy]
    rfl)

theorem bitand : Gives host lane m (.bitand l r) (.u32 (x &&& y)) := hl.binOp hr rfl

theorem shr : Gives host lane m (.shr l r) (.u32 (x >>> (y &&& 31))) := hl.binOp hr rfl

theorem lt : Gives host lane m (.lt l r) (.bool (x < y)) := hl.binOp hr rfl

theorem gt : Gives host lane m (.gt l r) (.bool (y < x)) := hl.binOp hr rfl

theorem le : Gives host lane m (.le l r) (.bool (x ≤ y)) := hl.binOp hr rfl

end Operators

theorem load {buffer : Ident} {ws : List UInt32} (he : Gives host lane m e (.u32 x))
    (hb : m.find buffer = some (.ofWords ws)) :
    Gives host lane m (.load buffer e) (.u32 (ws.getD x.toNat 0)) :=
  evalExpr_load_eq_ok.mpr ⟨.u32 x, x, .ofWords ws, he, rfl, hb, (Buffer.load_ofWords _ ws x).symm⟩

/-- Both arms of a select are evaluated. -/
theorem selectOn {k : Value} (hc : Gives host lane m c k) (hl : Gives host lane m l a)
    (hr : Gives host lane m r b) :
    Gives host lane m (.select c l r) (if k.truthy host.floats then a else b) :=
  bind_eq_ok.mpr ⟨k, m, hc, bind_eq_ok.mpr ⟨a, m, hl, bind_eq_ok.mpr ⟨b, m, hr, rfl⟩⟩⟩

theorem select {k : Bool} (hc : Gives host lane m c (.bool k)) (hl : Gives host lane m l a)
    (hr : Gives host lane m r b) : Gives host lane m (.select c l r) (if k then a else b) := by
  have h := hc.selectOn hl hr
  cases k <;> exact h

end Gives

@[simp] theorem truthy_bool (fl : Floats) (k : Bool) : (Value.bool k).truthy fl = k := by
  cases k <;> rfl

theorem Memory.find_update (m : Memory) (name : Ident) (b' : Buffer) (key : Ident) :
    (m.update name b').find key = if key = name then some b' else m.find key := by
  unfold Memory.update
  by_cases hkey : key = name
  · subst hkey
    cases hs : m.storage key <;> simp [Memory.find, setBuffer, hs]
  · cases hs : m.storage name <;> simp [Memory.find, setBuffer, hkey]

namespace Thread

variable (t : Thread)

@[simp] theorem lane_locals : t.lane.locals = t.vals := rfl

@[simp] theorem lane_ids : t.lane.ids = t.ids := rfl

@[simp] theorem set_vals (name key : Ident) (v : Value) :
    (t.set name v).vals key = if key = name then some v else t.vals key := rfl

@[simp] theorem set_fixed (name : Ident) (v : Value) :
    (t.set name v).fixed = t.fixed := rfl

@[simp] theorem set_ids (name : Ident) (v : Value) : (t.set name v).ids = t.ids := rfl

@[simp] theorem fix_vals (name : Ident) : (t.fix name).vals = t.vals := rfl

@[simp] theorem fix_ids (name : Ident) : (t.fix name).ids = t.ids := rfl

@[simp] theorem fix_fixed (name key : Ident) :
    (t.fix name).fixed key = if key = name then true else t.fixed key := rfl

@[simp] theorem leave_vals (t t' : Thread) (key : Ident) :
    (t.leave t').vals key = if (t.vals key).isSome then t'.vals key else none := rfl

@[simp] theorem leave_fixed (t t' : Thread) : (t.leave t').fixed = t.fixed := rfl

@[simp] theorem leave_ids (t t' : Thread) : (t.leave t').ids = t'.ids := rfl

variable {t t' : Thread} {name : Ident} {v : Value}

/-- A `let` needs a free name. -/
theorem bind_eq_ok : t.bind name v = .ok t' ↔ t.vals name = none ∧ t' = t.set name v := by
  rw [Thread.bind]
  cases hname : t.vals name with
  | some w => simp
  | none => simp [eq_comm]

theorem bindLoopVar_eq_ok :
    t.bindLoopVar name v = .ok t' ↔ t.vals name = none ∧ t' = (t.set name v).fix name := by
  rw [Thread.bindLoopVar, Thread.bind]
  cases hname : t.vals name with
  | some w => simp [Except.map]
  | none => simp [Except.map, eq_comm]

/-- An assignment needs a bound name, not that of a loop. -/
theorem assign_eq_ok : t.assign name v = .ok t' ↔
    (t.vals name).isSome = true ∧ t.fixed name = false ∧ t' = t.set name v := by
  rw [Thread.assign]
  cases hname : t.vals name with
  | none => simp
  | some w => cases hfixed : t.fixed name <;> simp [eq_comm]

end Thread

/-! ## Statements -/

section Statements

variable {host : Host} {ρ : Route} {t t' : Thread} {m m' : Memory} {name : Ident} {e c : Expr}
  {v : Value}

variable {out : Outcome Thread} {body : Thread → Eval (Outcome Thread)}

theorem runNode_letBind_eq_ok : runNode ρ (.letBind name e) t m = .ok (out, m') ↔
    ∃ v, evalExpr ρ.host [t.lane] e t.lane m = .ok (v, m') ∧ t.vals name = none ∧
      out = .next (t.set name v) := by
  simp only [runNode, bind_eq_ok, lift_eq_ok, Thread.bind_eq_ok, pure_eq_ok]
  grind

theorem runNode_assign_eq_ok : runNode ρ (.assign name e) t m = .ok (out, m') ↔
    ∃ v, evalExpr ρ.host [t.lane] e t.lane m = .ok (v, m') ∧ (t.vals name).isSome = true ∧
      t.fixed name = false ∧
      out = .next (t.set name v) := by
  simp only [runNode, bind_eq_ok, lift_eq_ok, Thread.assign_eq_ok, pure_eq_ok]
  grind

variable {buffer : Ident} {ns thenNodes otherwise : List Node}

theorem storeElement_eq_ok {fl : Floats} {idx : UInt32} {u : Unit} :
    storeElement fl buffer idx v m = .ok (u, m') ↔
      ∃ b, m.find buffer = some b ∧ m' = m.update buffer (b.store fl idx v) := by
  simp only [storeElement, bind_eq_ok, lift_eq_ok, resolveBuffer_eq_ok]
  constructor
  · rintro ⟨_, _, ⟨⟩, b, _, ⟨hb, rfl⟩, ⟨⟩⟩
    exact ⟨b, hb, rfl⟩
  · rintro ⟨b, hb, rfl⟩
    exact ⟨m, m, rfl, b, m, ⟨hb, rfl⟩, rfl⟩

/-- The value of a store is evaluated after its index. -/
theorem runNode_store_eq_ok {index value : Expr} :
    runNode ρ (.store buffer index value) t m = .ok (out, m') ↔
      ∃ i m₁ idx w m₂ b, evalExpr ρ.host [t.lane] index t.lane m = .ok (i, m₁) ∧
        i.tryAsU32 ρ.host.floats = some idx ∧
          evalExpr ρ.host [t.lane] value t.lane m₁ = .ok (w, m₂) ∧
        m₂.find buffer = some b ∧ out = .next t ∧
          m' = m₂.update buffer (b.store ρ.host.floats idx w) := by
  simp only [runNode, executeNode, toIndex, bind_eq_ok, orFail_eq_ok, storeElement_eq_ok]
  constructor
  · rintro ⟨_, _, ⟨i, m₁, hi, idx, _, ⟨hidx, rfl⟩, w, m₂, hw, _, _, ⟨b, hb, rfl⟩, ⟨⟩⟩, ⟨⟩⟩
    exact ⟨i, m₁, idx, w, m₂, b, hi, hidx, hw, hb, rfl, rfl⟩
  · rintro ⟨i, m₁, idx, w, m₂, b, hi, hidx, hw, hb, rfl, rfl⟩
    exact ⟨t.invocation, _, ⟨i, m₁, hi, idx, m₁, ⟨hidx, rfl⟩, w, m₂, hw, (), _, ⟨b, hb, rfl⟩, rfl⟩,
      rfl⟩

theorem runNode_store {index value : Expr} {i w : UInt32} {ws : List UInt32}
    (hi : Gives host t.lane m index (.u32 i)) (hv : Gives host t.lane m value (.u32 w))
    (hb : m.find buffer = some (.ofWords ws)) :
    runNode host (.store buffer index value) t m =
      .ok (.next t, m.update buffer (.ofWords (ws.set i.toNat w))) := by
  rw [← Buffer.store_ofWords host.floats]
  exact runNode_store_eq_ok.mpr ⟨_, m, i, _, m, _, hi, rfl, hv, hb, rfl, rfl⟩

@[simp] theorem Route.after_free (n : Node) : Route.after host n = host := by
  cases n <;> rfl

/-- A statement that goes on, and then the rest. -/
theorem runNodes_cons {n : Node} (h : runNode host n t m = .ok (.next t', m')) :
    runNodes host (n :: ns) t m = runNodes host ns t' m' := by
  rw [runNodes, Route.after_free]
  exact bind_of_ok h

theorem runNodes_letBind (he : Gives host t.lane m e v) (hname : t.vals name = none) :
    runNodes host (.letBind name e :: ns) t m = runNodes host ns (t.set name v) m :=
  runNodes_cons (runNode_letBind_eq_ok.mpr ⟨v, he, hname, rfl⟩)

theorem runNodes_assign (he : Gives host t.lane m e v) (hname : (t.vals name).isSome = true)
    (hfixed : t.fixed name = false) :
    runNodes host (.assign name e :: ns) t m = runNodes host ns (t.set name v) m :=
  runNodes_cons (runNode_assign_eq_ok.mpr ⟨v, he, hname, hfixed, rfl⟩)

theorem runNodes_single (n : Node) : runNodes ρ [n] t = runNode ρ n t := by
  have hpure : ∀ out : Outcome Thread, out.andThen (runNodes (ρ.after n) []) = pure out := by
    intro out
    cases out <;> rfl
  rw [runNodes]
  simp only [hpure, bind_pure]

/-- A plan for the statements of two lists. -/
def Plan.append : List Node → Plan → Plan → Plan
  | [], _, π' => π'
  | n :: ns, π, π' =>
      if hasBody n then π.withRest (Plan.append ns (π.after n) π')
        else Plan.append ns (π.after n) π'

theorem runNode_withRest (n : Node) (π rest : Plan) (t : Thread) :
    runNode (ρ.on (π.withRest rest)) n t = runNode (ρ.on π) n t := by
  cases n <;> rfl

/-- A list runs as its parts, one after the other. -/
theorem runNodes_append (ns ks : List Node) (π π' : Plan) (t : Thread) :
    runNodes (ρ.on (Plan.append ns π π')) (ns ++ ks) t =
      runNodes (ρ.on π) ns t >>= fun out => out.andThen (runNodes (ρ.on π') ks) := by
  induction ns generalizing π t with
  | nil => rfl
  | cons n ns ih =>
    have hstep : ∀ {π₁ : Plan}, runNode (ρ.on π₁) n t = runNode (ρ.on π) n t →
        π₁.after n = Plan.append ns (π.after n) π' → runNodes (ρ.on π₁) (n :: ns ++ ks) t =
          runNodes (ρ.on π) (n :: ns) t >>= fun out => out.andThen (runNodes (ρ.on π') ks) := by
      intro π₁ hn hafter
      rw [List.cons_append, runNodes, runNodes, bind_assoc, hn]
      congr 1
      funext out
      cases out with
      | next u =>
        show runNodes (ρ.on (π₁.after n)) (ns ++ ks) u = _
        rw [hafter]
        exact ih (π.after n) u
      | returned u => rfl
    cases n with
    | ifThen | loop | block | region => exact hstep (runNode_withRest _ π _ t) rfl
    | _ => exact hstep rfl rfl

theorem runNode_ifThen {k : Bool} (hc : Gives host t.lane m c (.bool k)) :
    runNode host (.ifThen c thenNodes otherwise) t m =
      (Outcome.map t.leave <$> runNodes host (if k then thenNodes else otherwise) t) m := by
  rw [runNode, bind_of_ok hc]
  cases k <;> rfl

/-- The check of a branch does not touch the memory. -/
theorem Route.check_memory {guardsBarrier taken : Bool} {u : Unit}
    (h : ρ.check guardsBarrier taken m = .ok (u, m')) : m' = m := by
  unfold Route.check at h
  split at h
  · exact (lift_eq_ok.mp h).2
  · cases h
    rfl

theorem branch_of_runNode_ifThen {k : Bool} (hc : Gives ρ.host t.lane m c (.bool k))
    {r : Outcome Thread × Memory} (h : runNode ρ (.ifThen c thenNodes otherwise) t m = .ok r) :
    (Outcome.map t.leave <$> bif k then runNodes (ρ.into .inner) thenNodes t
      else runNodes (ρ.into .other) otherwise t) m = .ok r := by
  rw [runNode, bind_of_ok hc] at h
  obtain ⟨_, m₁, hcheck, h⟩ := bind_eq_ok.mp h
  rw [Route.check_memory hcheck] at h
  cases k <;> exact h

/-- The bounds of a loop are evaluated once, the lower one first. -/
theorem loopBounds_eq_ok {lane : Lane} {lo hi : Expr} {first stop : UInt32} :
    loopBounds host [lane] lane lo hi m = .ok ((first, stop), m') ↔
      ∃ v m₁ w, evalExpr host [lane] lo lane m = .ok (v, m₁) ∧ v.tryAsU32 host.floats = some first ∧
        evalExpr host [lane] hi lane m₁ = .ok (w, m') ∧ w.tryAsU32 host.floats = some stop := by
  simp only [loopBounds, toLoopBound, bind_eq_ok, orFail_eq_ok, pure_eq_ok]
  grind

theorem runNode_loop {lo hi : Expr} {first stop : UInt32} {body : List Node}
    (hlo : Gives host t.lane m lo (.u32 first)) (hhi : Gives host t.lane m hi (.u32 stop)) :
    runNode host (.loop name lo hi body) t m =
      runLoop (runNodes host body) name (stop.toNat - first.toNat) first t m := by
  exact bind_of_ok (loopBounds_eq_ok.mpr ⟨_, m, _, hlo, rfl, hhi, rfl⟩)

theorem runLoop_succ {left : Nat} {next : UInt32} (h : t.vals name = none) :
    runLoop body name (left + 1) next t m = (body ((t.set name (.u32 next)).fix name) >>= fun out =>
      out.andThen fun t' => runLoop body name left (next + 1) (t.leave t')) m := by
  rw [runLoop, Thread.bindLoopVar_eq_ok.mpr ⟨h, rfl⟩]
  rfl

/-- A turn binds the variable, and what it bound is dropped. -/
theorem runLoop_succ_eq_ok {left : Nat} {next : UInt32}
    {r : Outcome Thread × Memory} :
    runLoop body name (left + 1) next t m = .ok r ↔ t.vals name = none ∧
      ∃ out m₁, body ((t.set name (.u32 next)).fix name) m = .ok (out, m₁) ∧
        out.andThen (fun t' => runLoop body name left (next + 1) (t.leave t')) m₁ = .ok r := by
  constructor
  · intro h
    obtain ⟨entered, m₁, hentered, h⟩ := bind_eq_ok.mp h
    obtain ⟨hbind, rfl⟩ := lift_eq_ok.mp hentered
    obtain ⟨hnone, rfl⟩ := Thread.bindLoopVar_eq_ok.mp hbind
    exact ⟨hnone, bind_eq_ok.mp h⟩
  · intro h
    rw [runLoop_succ h.1]
    exact bind_eq_ok.mpr h.2

end Statements

variable {t t' : Thread} {name : Ident}

theorem Thread.leave_vals_of_eq (h : t'.vals = t.vals) : (t.leave t').vals = t.vals := by
  funext key
  rw [Thread.leave_vals, h]
  split_ifs with hkey
  · rfl
  · exact (by simpa using hkey : t.vals key = none).symm

@[simp] theorem Thread.leave_self (t : Thread) : t.leave t = t :=
  Thread.ext rfl rfl (Thread.leave_vals_of_eq rfl) rfl rfl

theorem Thread.leave_leave {s : Thread}
    (h : ∀ key, (t.vals key).isSome = true → (s.vals key).isSome = true)
    (u : Thread) : t.leave (s.leave u) = t.leave u := by
  refine Thread.ext rfl rfl (funext fun key => ?_) rfl rfl
  rw [Thread.leave_vals, Thread.leave_vals, Thread.leave_vals]
  by_cases hkey : (t.vals key).isSome = true
  · rw [if_pos (h key hkey)]
  · rw [if_neg hkey, if_neg hkey]

theorem Thread.bound_entered (name : Ident) (v : Value) (key : Ident)
    (h : (t.vals key).isSome = true) :
    (((t.set name v).fix name).vals key).isSome = true := by
  rw [Thread.fix_vals, Thread.set_vals]
  split
  · rfl
  · exact h

/-- Leaving a scope undoes the binding of the loop variable. -/
theorem Thread.leave_bound (h : t.vals name = none) (v : Value) :
    t.leave ((t.set name v).fix name) = t := by
  refine Thread.ext rfl rfl (funext fun key => ?_) rfl rfl
  rw [Thread.leave_vals, Thread.fix_vals, Thread.set_vals]
  by_cases hkey : key = name
  · rw [hkey, h]
    rfl
  · rw [if_neg hkey]
    cases t.vals key <;> rfl

end Vyre.Reference
