import Vyre.Optimizer.ScalarTyping

/-!
# Evaluation of integer and boolean expressions with effects

Expressions over `u32`, `i32` and `bool` that may read buffers and update them
by atomics. An evaluation is read as a transition: from a memory to a value and
a memory. The operators check the types of their operands themselves, so every
value of a successful evaluation is of one of the three types.
-/

namespace Vyre

open Reference StateExcept

def ScalarNode (env : ScalarEnv) : Expr → Prop
  | .var name => ∃ ty, env.vars name = some ty
  | .load buffer _ => ∃ ty, env.buffers buffer = some ty
  | .cast target _ => ∃ ty, ScalarType.ofTarget target = some ty
  | .litU32 _ | .litI32 _ | .litBool _ | .bufLen _ | .invocationId _ | .workgroupId _ | .localId _
  | .binOp _ _ _ | .unOp _ _ | .select _ _ _ | .atomic _ _ _ _ _ _ => True
  | _ => False

/-- `e` evaluates to `v` and leaves `m'`. -/
def Runs (host : Host) (lane : Lane) (m : Memory) (e : Expr) (v : Value) (m' : Memory) : Prop :=
  evalExpr host [lane] e lane m = .ok (v, m')

/-- `e` leaves the memory as it finds it, if it evaluates. -/
def Steady (host : Host) (lane : Lane) (m : Memory) (e : Expr) : Prop :=
  ∀ v m', Runs host lane m e v m' → m' = m

section Runs

variable {host : Host} {lane : Lane} {m m₁ m' : Memory} {e l r : Expr} {a b v : Value}

theorem Steady.gives (hs : Steady host lane m e) (h : Runs host lane m e v m') :
    Gives host lane m e v ∧ m' = m := by
  cases hs v m' h
  exact ⟨h, rfl⟩

theorem Reference.Gives.runs (h : Gives host lane m e v) : Runs host lane m e v m := h

theorem Runs.unique {v' : Value} {m'' : Memory} (h : Runs host lane m e v m')
    (h' : Runs host lane m e v' m'') : v = v' ∧ m' = m'' :=
  Prod.mk.inj (Except.ok.inj (h.symm.trans h'))

/-- Where an expression evaluates, it is steady when that evaluation writes nothing. -/
theorem Runs.steady_iff (h : Runs host lane m e v m') : Steady host lane m e ↔ m' = m := by
  constructor
  · exact fun hs => hs v m' h
  · intro heq v' m'' h'
    rw [← (h.unique h').2, heq]

theorem Runs.binOp {op : BinOp} (hl : Runs host lane m l a m₁) (hr : Runs host lane m₁ r b m')
    (hop : evalBinop host.floats op a b = .ok v) : Runs host lane m (.binOp op l r) v m' :=
  bind_eq_ok.mpr ⟨a, m₁, hl, bind_eq_ok.mpr ⟨b, m', hr, lift_eq_ok.mpr ⟨hop, rfl⟩⟩⟩

theorem Runs.binOp_inv {op : BinOp} (h : Runs host lane m (.binOp op l r) v m') :
    ∃ a m₁ b, Runs host lane m l a m₁ ∧ Runs host lane m₁ r b m' ∧
      evalBinop host.floats op a b = .ok v := by
  simp only [Runs, evalExpr, bind_eq_ok, lift_eq_ok] at h
  obtain ⟨a, m₁, ha, b, _, hb, hev, rfl⟩ := h
  exact ⟨a, m₁, b, ha, hb, hev⟩

theorem Runs.replace_left {op : BinOp} {l' : Expr} (h : Runs host lane m₁ (.binOp op l' r) v m')
    (hl' : Gives host lane m₁ l' a) (hl : Runs host lane m l a m₁) :
    Runs host lane m (.binOp op l r) v m' := by
  obtain ⟨a', m₂, b, ha, hb, hop⟩ := h.binOp_inv
  obtain ⟨rfl, rfl⟩ := ha.unique hl'.runs
  exact hl.binOp hb hop

theorem Runs.unOp {op : UnOp} (ha : Runs host lane m e a m')
    (hop : evalUnop host.floats op a = .ok v) : Runs host lane m (.unOp op e) v m' :=
  bind_eq_ok.mpr ⟨a, m', ha, lift_eq_ok.mpr ⟨hop, rfl⟩⟩

theorem Runs.unOp_inv {op : UnOp} (h : Runs host lane m (.unOp op e) v m') :
    ∃ a, Runs host lane m e a m' ∧ evalUnop host.floats op a = .ok v := by
  obtain ⟨a, m₁, ha, hop⟩ := bind_eq_ok.mp h
  obtain ⟨hev, rfl⟩ := lift_eq_ok.mp hop
  exact ⟨a, ha, hev⟩

theorem Runs.litU32 {x : UInt32} (h : Runs host lane m (.litU32 x) v m') : v = .u32 x ∧ m' = m := by
  cases h
  exact ⟨rfl, rfl⟩

theorem Runs.litI32 {x : Int32} (h : Runs host lane m (.litI32 x) v m') : v = .i32 x ∧ m' = m := by
  cases h
  exact ⟨rfl, rfl⟩

end Runs

def IsScalar (v : Value) : Prop := ∃ ty : ScalarType, ty.Has v

theorem isScalar_u32 (x : UInt32) : IsScalar (.u32 x) := ⟨.u32, x, rfl⟩

theorem isScalar_i32 (x : Int32) : IsScalar (.i32 x) := ⟨.i32, x, rfl⟩

theorem isScalar_bool (x : Bool) : IsScalar (.bool x) := ⟨.bool, x, rfl⟩

theorem IsScalar.cases {P : Value → Prop} {v : Value} (h : IsScalar v) (hu : ∀ x, P (.u32 x))
    (hi : ∀ x, P (.i32 x)) (hb : ∀ x, P (.bool x)) : P v := by
  obtain ⟨ty, h⟩ := h
  cases ty <;> obtain ⟨x, rfl⟩ := h
  · exact hu x
  · exact hi x
  · exact hb x

section Scalars

variable {fl : Floats} {a b v : Value}

theorem evalBinop_scalar {op : BinOp} (ha : IsScalar a) (hb : IsScalar b)
    (hv : evalBinop fl op a b = .ok v) : IsScalar v := by
  obtain ⟨ta, ha⟩ := ha
  obtain ⟨tb, hb⟩ := hb
  cases ta <;> obtain ⟨x, rfl⟩ := ha <;> cases tb <;> obtain ⟨y, rfl⟩ := hb <;> cases op
  -- The two checked quotients are the only results that are not written out.
  case i32.i32.div | i32.i32.mod =>
    obtain ⟨q, -, rfl⟩ := ByteCodec.map_eq_ok.mp hv
    exact isScalar_i32 q
  all_goals cases hv <;> first | exact isScalar_u32 _ | exact isScalar_i32 _ | exact isScalar_bool _

theorem evalUnop_scalar {op : UnOp} (ha : IsScalar a) (hv : evalUnop fl op a = .ok v) :
    IsScalar v := by
  obtain ⟨ta, ha⟩ := ha
  cases ta <;> obtain ⟨x, rfl⟩ := ha <;> cases op <;> cases hv <;>
    first | exact isScalar_u32 _ | exact isScalar_i32 _ | exact isScalar_bool _

end Scalars

section Evaluation

variable {env : ScalarEnv} {host : Host} {lane : Lane} {m m' : Memory} {e : Expr} {v : Value}

theorem ScalarEnv.Describes.sameShape (h : env.Describes lane m) (hshape : SameShape m m') :
    env.Describes lane m' where
  vars := h.vars
  buffers buffer ty b hty hb := by
    have hsome : (m'.find buffer).map Buffer.shape = (m.find buffer).map Buffer.shape := by
      unfold Memory.find
      rw [Option.map_or, Option.map_or]
      exact congrArg₂ Option.or (congrFun (congrArg Prod.fst hshape) buffer)
        (congrFun (congrArg Prod.snd hshape) buffer)
    rw [hb] at hsome
    obtain ⟨b', hb', heq⟩ := Option.map_eq_some_iff.mp hsome.symm
    have helem : b'.element = b.element := congrArg Prod.fst heq
    rw [← helem]
    exact h.buffers buffer ty b' hty hb'

theorem ScalarEnv.Describes.runs (h : env.Describes lane m) (hrun : Runs host lane m e v m') :
    env.Describes lane m' :=
  h.sameShape (evalExpr_sameShape host [lane] e lane m v m' hrun)

theorem atomicRmw_scalar {resolve : Memory → Ident → Except Error Buffer} {op : AtomicOp}
    {buffer : Ident} {index value : UInt32} {expected : Option UInt32}
    (h : atomicRmw resolve op buffer index expected value m = .ok (v, m')) : IsScalar v := by
  obtain ⟨target, -, ⟨-, rfl, -⟩ | ⟨old, p, -, -, rfl, -⟩⟩ := atomicRmw_eq_ok.mp h
  · exact isScalar_u32 0
  · exact isScalar_u32 p.1

theorem Runs.isScalar (henv : env.Describes lane m) (he : e.Forall (ScalarNode env))
    (h : Runs host lane m e v m') : IsScalar v := by
  induction e generalizing m m' v with
  | litU32 value | litI32 value | litBool value =>
    cases h
    first | exact isScalar_u32 value | exact isScalar_i32 value | exact isScalar_bool value
  | var name =>
    obtain ⟨ty, hty⟩ := he
    exact ⟨ty, henv.vars name ty v hty (orFail_eq_ok.mp h).1⟩
  | load buffer index ih =>
    obtain ⟨⟨ty, hty⟩, hindex⟩ := he
    obtain ⟨i, idx, b, hi, -, hfind, rfl⟩ := evalExpr_load_eq_ok.mp h
    exact ⟨ty, Buffer.load_has ((henv.runs hi).buffers buffer ty b hty hfind) idx⟩
  | bufLen buffer =>
    simp only [Runs, evalExpr, bind_eq_ok] at h
    obtain ⟨_, _, -, b, _, -, ⟨⟩⟩ := h
    exact isScalar_u32 _
  | invocationId axis | workgroupId axis | localId axis =>
    exact ⟨.u32, axisValue_has (lift_eq_ok.mp h).1⟩
  | binOp op left right ihl ihr =>
    obtain ⟨a, m₁, b, ha, hb, hev⟩ := h.binOp_inv
    exact evalBinop_scalar (ihl henv he.2.1 ha) (ihr (henv.runs ha) he.2.2 hb) hev
  | unOp op operand ih =>
    obtain ⟨a, ha, hev⟩ := h.unOp_inv
    exact evalUnop_scalar (ih henv he.2 ha) hev
  | select cond trueVal falseVal ihc iht ihf =>
    simp only [Runs, evalExpr, bind_eq_ok] at h
    obtain ⟨c, m₁, hc, t, m₂, ht, f, _, hf, ⟨⟩⟩ := h
    have henv₁ := henv.runs hc
    split
    · exact iht henv₁ he.2.2.1 ht
    · exact ihf (henv₁.runs ht) he.2.2.2 hf
  | cast target value ih =>
    obtain ⟨⟨ty, hty⟩, hvalue⟩ := he
    obtain ⟨a, m₁, ha, hop⟩ := bind_eq_ok.mp h
    obtain ⟨t, hat⟩ := ih henv hvalue ha
    exact ⟨ty, castValue_has hat hty (lift_eq_ok.mp hop).1⟩
  | atomic _ _ _ _ _ _ =>
    simp only [Runs, evalExpr, bind_eq_ok] at h
    obtain ⟨_, _, -, _, _, -, _, _, -, _, _, -, _, _, -, _, _, -, hrmw⟩ := h
    exact atomicRmw_scalar hrmw
  | litF32 | subgroupLocalId | subgroupSize | ext => exact he.elim
  | call | fma | subgroupBallot | subgroupShuffle | subgroupAdd => exact he.1.elim

end Evaluation

end Vyre
