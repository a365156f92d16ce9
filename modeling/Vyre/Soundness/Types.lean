import Vyre.Soundness.Scopes

/-!
# Types at run time

The validator infers types in one table (`exprType`), checks operands in a second
(`validateBinopOperands`, `validateUnopOperand`), and the interpreter dispatches
on values in a third (`evalBinop`, `evalUnop`). `binopType` and `unopType` are the
signatures on which the three agree, for `u32`, `i32` and `bool`; `SoundOperator`
excludes the operators on which they do not.
-/

namespace Vyre.Soundness

open Validate Reference StateExcept List

inductive HasType : DataType → Value → Prop
  | u32 (v : UInt32) : HasType .u32 (.u32 v)
  | i32 (v : Int32) : HasType .i32 (.i32 v)
  | bool (v : Bool) : HasType .bool (.bool v)

def IsScalar (ty : DataType) : Prop := ty = .u32 ∨ ty = .i32 ∨ ty = .bool

theorem HasType.isScalar {ty : DataType} {v : Value} (h : HasType ty v) : IsScalar ty := by
  cases h with
  | u32 | i32 | bool => simp [IsScalar]

/-- The errors about operands of a type the operator does not take. -/
def isTypeError : Error → Bool
  | .mismatchedOperands _ _ _ | .unknownBinOp _ | .unknownUnOp _ | .boolBinOp _ | .boolUnOp _
  | .floatBinOp _ | .floatUnOp _ | .nonPrimitiveOperand _ _ => true
  | _ => false

/-- A result of type `ty`, or an error that is not about types. -/
def Returns (ty : DataType) (r : Except Error Value) : Prop :=
  match r with
  | .ok v => HasType ty v
  | .error e => isTypeError e = false

def binopType (op : BinOp) (left right : DataType) : Option DataType :=
  match op with
  | .add | .sub | .mul | .div | .min | .max =>
      if left = right ∧ (left = .u32 ∨ left = .i32) then some left else none
  | .saturatingAdd | .saturatingSub | .saturatingMul | .wrappingAdd | .wrappingSub | .mulHigh
  | .absDiff | .mod | .bitAnd | .bitOr | .bitXor | .shl | .shr | .rotateLeft | .rotateRight =>
      if left = .u32 ∧ right = .u32 then some .u32 else none
  | .eq | .ne => if left = right then some .bool else none
  | .lt | .gt | .le | .ge =>
      if left = right ∧ (left = .u32 ∨ left = .i32) then some .bool else none
  | .and | .or => if left = right ∧ (left = .u32 ∨ left = .bool) then some .bool else none
  | .shuffle | .ballot | .waveReduce | .waveBroadcast | .ext _ => none

def unopType (op : UnOp) (operand : DataType) : Option DataType :=
  match op with
  | .negate => if operand = .u32 then some .u32 else none
  | .bitNot | .popcount | .clz | .ctz | .reverseBits =>
      if operand = .u32 ∨ operand = .i32 then some operand else none
  | .logicalNot => if operand = .u32 ∨ operand = .bool then some .bool else none
  | _ => none

theorem divI32_not_type {l r : Int32} : Returns .i32 ((divI32 l r).map .i32) := by
  unfold divI32
  split_ifs <;> first | rfl | exact .i32 _

theorem evalBinop_returns (fl : Floats) {op : BinOp} {left right ty : DataType} {l r : Value}
    (hl : HasType left l) (hr : HasType right r) (h : binopType op left right = some ty) :
    Returns ty (evalBinop fl op l r) := by
  cases op with
  | div =>
    cases hl <;> cases hr <;> simp [binopType] at h <;> subst h
    · exact .u32 _
    · exact divI32_not_type
  | _ =>
    cases hl <;> cases hr <;> simp [binopType] at h <;> subst h <;>
      first | exact .u32 _ | exact .i32 _ | exact .bool _

theorem evalUnop_returns (fl : Floats) {op : UnOp} {operand ty : DataType} {v : Value}
    (hv : HasType operand v) (h : unopType op operand = some ty) :
    Returns ty (evalUnop fl op v) := by
  cases op <;> cases hv <;> simp [unopType] at h <;> subst h <;>
    first | exact .u32 _ | exact .i32 _ | exact .bool _

theorem castValue_returns (fl : Floats) {source target : DataType} {v : Value}
    (hv : HasType source v) (htarget : IsScalar target) :
    Returns target (castValue fl target v) := by
  rcases htarget with rfl | rfl | rfl
  · cases hv <;> exact .u32 _
  · cases hv <;> exact .i32 _
  · exact .bool _

/-- Operand types on which the tables agree: not all that the validator accepts
are. -/
def SoundBinop (op : BinOp) (left right : DataType) : Prop :=
  match op with
  -- inferred as `u32` whatever the operands are
  | .mod | .bitAnd | .bitOr | .bitXor => left ≠ .i32
  -- accepted on bools, which the interpreter does not order
  | .lt | .gt | .le | .ge => left ≠ .bool
  -- accepted on a `u32` and a `bool`
  | .and | .or => left = right
  -- not checked at all
  | .wrappingAdd | .wrappingSub | .mulHigh => left = .u32 ∧ right = .u32
  | _ => True

def InFragment : Expr → Prop
  | .litF32 _ | .call _ _ | .fma _ _ _ | .subgroupBallot _ | .subgroupShuffle _ _ | .subgroupAdd _
  | .subgroupLocalId | .subgroupSize | .ext _ => False
  | .cast target _ => IsScalar target
  | .binOp (.ext _) _ _ | .unOp (.ext _) _ => False
  | _ => True

/-- An operator applied where the tables agree, and no load from a buffer of
bools, which are read back as `u32`. -/
def SoundOperator (buffers : Buffers) (scope : Scope) : Expr → Prop
  | .load buffer _ => ∀ d, buffers buffer = some d → d.element ≠ .bool
  | .binOp op left right => ∀ l r, exprType buffers scope left = some l →
      exprType buffers scope right = some r → SoundBinop op l r
  | _ => True

section Tables

variable {buffers : Buffers} {scope : Scope}

/-- What the arithmetic rule leaves of two scalar operand types. -/
theorem types_of_arithmeticOperands {op : BinOp} {right : Expr} {l r : DataType} (hls : IsScalar l)
    (hrs : IsScalar r) (h : arithmeticOperands op right (some l) (some r) = []) :
    l = r ∧ (l = .u32 ∨ l = .i32) ∧ (isSaturating op = true ∨ op = .absDiff → l = .u32) := by
  simp only [arithmeticOperands, bothSides, eachSide, append_eq_nil_iff] at h
  obtain ⟨⟨⟨-, ⟨-, hsaturating⟩, habsDiff⟩, hleft, hright⟩, hmismatch⟩ := h
  rcases hls with rfl | rfl | rfl <;> rcases hrs with rfl | rfl | rfl <;>
    simp_all [isNumeric]

theorem exprType_binOp {op : BinOp} {left right : Expr} {l r : DataType}
    (hl : exprType buffers scope left = some l) (hr : exprType buffers scope right = some r)
    (hls : IsScalar l) (hrs : IsScalar r) (hext : InFragment (.binOp op left right))
    (hrules : validateBinopOperands op right (some l) (some r) = []) (hsound : SoundBinop op l r) :
    ∃ ty, exprType buffers scope (.binOp op left right) = some ty ∧ binopType op l r = some ty := by
  have hjoin :
      l = r → joinType (exprType buffers scope left) (exprType buffers scope right) = some l := by
    rintro rfl
    simp [joinType, hl, hr]
  cases op with
  | ext id => exact hext.elim
  | shuffle | ballot | waveReduce | waveBroadcast => cases hrules
  | wrappingAdd | wrappingSub | mulHigh => exact ⟨.u32, rfl, if_pos hsound⟩
  | add | sub | mul | div | min | max =>
    obtain ⟨heq, hint, -⟩ := types_of_arithmeticOperands hls hrs hrules
    exact ⟨l, hjoin heq, if_pos ⟨heq, hint⟩⟩
  | saturatingAdd | saturatingSub | saturatingMul =>
    obtain ⟨rfl, -, hu32⟩ := types_of_arithmeticOperands hls hrs hrules
    obtain rfl := hu32 (.inl rfl)
    exact ⟨.u32, hjoin rfl, rfl⟩
  | absDiff =>
    obtain ⟨rfl, -, hu32⟩ := types_of_arithmeticOperands hls hrs hrules
    obtain rfl := hu32 (.inr rfl)
    exact ⟨.u32, rfl, rfl⟩
  | mod =>
    simp only [validateBinopOperands, moduloOperands, bothSides, eachSide,
      append_eq_nil_iff] at hrules
    obtain ⟨⟨-, hleft, hright⟩, hmismatch⟩ := hrules
    have hne : l ≠ .i32 := hsound
    rcases hls with rfl | rfl | rfl <;> rcases hrs with rfl | rfl | rfl <;>
      simp_all [isInteger, exprType, binopType]
  | bitAnd | bitOr | bitXor =>
    simp only [validateBinopOperands, bitwiseOperands, bothSides, append_eq_nil_iff] at hrules
    obtain ⟨⟨hleft, hright⟩, hmismatch⟩ := hrules
    have hne : l ≠ .i32 := hsound
    rcases hls with rfl | rfl | rfl <;> rcases hrs with rfl | rfl | rfl <;>
      simp_all [isInteger, exprType, binopType]
  | shl | shr | rotateLeft | rotateRight =>
    simp only [validateBinopOperands, shiftOperands, eachSide, Option.elim, append_eq_nil_iff,
      report_eq_nil, decide_eq_false_iff_not, not_not] at hrules
    exact ⟨.u32, rfl, if_pos hrules⟩
  | and | or =>
    obtain rfl : l = r := hsound
    simp only [validateBinopOperands, logicalOperands, eachSide] at hrules
    rcases hls with rfl | rfl | rfl <;> simp_all [exprType, binopType]
  | eq | ne =>
    simp only [validateBinopOperands, comparisonOperands, bothSides, report_eq_nil,
      decide_eq_false_iff_not, not_not] at hrules
    exact ⟨.bool, rfl, if_pos hrules⟩
  | lt | gt | le | ge =>
    simp only [validateBinopOperands, comparisonOperands, bothSides, report_eq_nil,
      decide_eq_false_iff_not, not_not] at hrules
    have hne : l ≠ .bool := hsound
    exact ⟨.bool, rfl, if_pos ⟨hrules, hls.imp_right fun h => h.resolve_right hne⟩⟩

theorem exprType_unOp {op : UnOp} {operand : Expr} {ty : DataType}
    (ho : exprType buffers scope operand = some ty) (hs : IsScalar ty)
    (hrules : validateUnopOperand op (some ty) = []) :
    ∃ result, exprType buffers scope (.unOp op operand) = some result ∧
      unopType op ty = some result := by
  cases op <;> rcases hs with rfl | rfl | rfl <;> simp [validateUnopOperand] at hrules <;>
    simp [exprType, unopType, ho]

theorem binopType_isScalar {op : BinOp} {l r ty : DataType} (hl : IsScalar l)
    (h : binopType op l r = some ty) : IsScalar ty := by
  cases op <;> simp only [binopType] at h <;> (try split_ifs at h) <;> cases h <;>
    first | exact hl | exact .inl rfl | exact .inr (.inr rfl)

theorem unopType_isScalar {op : UnOp} {operand ty : DataType} (ho : IsScalar operand)
    (h : unopType op operand = some ty) : IsScalar ty := by
  cases op <;> simp only [unopType] at h <;> (try split_ifs at h) <;> cases h <;>
    first | exact ho | exact .inl rfl | exact .inr (.inr rfl)

end Tables

/-! ## Evaluation -/

/-- The buffers of the memory have the element types they are declared with. -/
def ElementsDeclared (buffers : Buffers) (m : Memory) : Prop :=
  ∀ name b d, m.find name = some b → buffers name = some d → b.element = d.element

theorem ElementsDeclared.of_sameShape {buffers : Buffers} {m m' : Memory} (hshape : SameShape m m')
    (h : ElementsDeclared buffers m) : ElementsDeclared buffers m' := by
  intro name b' d hb' hd
  have hfind := Memory.find_shape hshape name
  rw [hb'] at hfind
  obtain ⟨b, hb, hb_shape⟩ := Option.map_eq_some_iff.mp hfind.symm
  rw [← h name b d hb hd]
  exact (Prod.mk.inj hb_shape).1.symm

theorem load_hasType (fl : Floats) {b : Buffer} (index : UInt32)
    (h : b.element = .u32 ∨ b.element = .i32) : HasType b.element (b.load fl index) := by
  unfold Buffer.load
  rcases h with h | h <;>
  · simp only [h, Value.fromElementBytes]
    rw [if_neg (by decide)]
    split
    · constructor
    · split_ifs <;> constructor

section Eval

variable {host : Host} {snapshots : List Lane} {options : Options} {buffers : Buffers}
  {scope : Scope} {lane : Lane}

abbrev Evaluates (buffers : Buffers) (ty : DataType) (x : Eval Value) : Prop :=
  Meets (ElementsDeclared buffers) (fun e => isTypeError e = true) x (HasType ty)

theorem meets_returns {ty : DataType} {r : Except Error Value} (h : Returns ty r) :
    Evaluates buffers ty (Eval.lift r) := by
  cases r with
  | ok v => exact .pure h
  | error e =>
    refine meets_fail fun hbad => ?_
    rw [show isTypeError e = false from h] at hbad
    cases hbad

theorem meets_orFail_plain {α : Type} {o : Option α} {e : Error} (h : isTypeError e = false) :
    Meets (ElementsDeclared buffers) (fun e => isTypeError e = true) (Eval.orFail o e)
      fun _ => True := by
  refine meets_orFail (fun hbad => ?_) fun _ _ => trivial
  rw [h] at hbad
  cases hbad

theorem meets_axisValue (values : Dim3) (axis : UInt8) :
    Evaluates buffers .u32 (Eval.lift (axisValue values axis)) := by
  apply meets_returns
  unfold axisValue
  split <;> first | exact .u32 _ | rfl

theorem meets_resolve (m : Memory) (name : Ident) :
    Meets (ElementsDeclared buffers) (fun e => isTypeError e = true)
      (Eval.lift (m.resolveBuffer name)) fun b => m.find name = some b := by
  refine meets_lift (fun e he hbad => ?_) fun _ hb => resolveBuffer_eq_ok.mp hb
  unfold Memory.resolveBuffer at he
  split at he <;> cases he
  cases hbad

/-- A validated expression of the fragment, on which the tables agree. -/
def Typable (options : Options) (buffers : Buffers) (scope : Scope) (e : Expr) : Prop :=
  InFragment e ∧ SoundOperator buffers scope e ∧
    ∃ depth, validateExpr options buffers scope e depth = []

theorem evalExpr_typed (helement : ∀ name d, buffers name = some d → IsScalar d.element)
    (hlane : LocalsOk HasType scope lane.locals) {e : Expr}
    (he : e.Forall (Typable options buffers scope)) :
    ∃ ty, exprType buffers scope e = some ty ∧ IsScalar ty ∧
      Evaluates buffers ty (evalExpr host snapshots e lane) := by
  have hu32 : IsScalar .u32 := .inl rfl
  induction e with
  | litU32 value => exact ⟨.u32, rfl, hu32, .pure (.u32 value)⟩
  | litI32 value => exact ⟨.i32, rfl, .inr (.inl rfl), .pure (.i32 value)⟩
  | litBool value => exact ⟨.bool, rfl, .inr (.inr rfl), .pure (.bool value)⟩
  | var name =>
    obtain ⟨-, -, depth, hvalid⟩ := he
    have hbound := of_guardDepth hvalid
    obtain ⟨b, hb⟩ := Option.isSome_iff_exists.mp
      (show (scope name).isSome = true by simpa using hbound)
    obtain ⟨v, hv⟩ := Option.isSome_iff_exists.mp
      (show (lane.locals name).isSome = true by rw [hlane.bound, hb]; rfl)
    have htyped := hlane.typed name b v hb hv
    refine ⟨b.ty, by rw [exprType, hb]; rfl, htyped.isScalar, ?_⟩
    rw [evalExpr, hv]
    exact .pure htyped
  | load buffer index ih =>
    obtain ⟨⟨-, hsound, depth, hvalid⟩, hindex⟩ := he
    obtain ⟨_, -, -, hindex⟩ := ih hindex
    have hrule := (append_eq_nil_iff.mp (of_guardDepth hvalid)).1
    cases hd : buffers buffer with
    | none =>
      rw [checkLoad, hd] at hrule
      cases hrule
    | some d =>
      have hscalar := helement buffer d hd
      refine ⟨d.element, by rw [exprType, hd]; rfl, hscalar, ?_⟩
      refine hindex.bind fun v _ => (meets_orFail_plain rfl).bind fun idx _ =>
        Meets.get.bind fun m hm => (meets_resolve m buffer).bind fun target htarget => .pure ?_
      have helem := hm buffer target d htarget hd
      have hword : target.element = .u32 ∨ target.element = .i32 := by
        rw [helem]
        rcases hscalar with h | h | h
        · exact .inl h
        · exact .inr h
        · exact absurd h (hsound d hd)
      rw [← helem]
      exact load_hasType host.floats idx hword
  | bufLen buffer =>
    exact ⟨.u32, rfl, hu32, Meets.get.bind fun m _ => (meets_resolve m buffer).bind fun target _ =>
      .pure (.u32 _)⟩
  | invocationId axis | workgroupId axis | localId axis =>
    exact ⟨.u32, rfl, hu32, meets_axisValue _ _⟩
  | binOp op left right ihl ihr =>
    obtain ⟨⟨hfrag, hsound, depth, hvalid⟩, hleft, hright⟩ := he
    obtain ⟨l, hl, hls, hleft⟩ := ihl hleft
    obtain ⟨r, hr, hrs, hright⟩ := ihr hright
    have hrules := (append_eq_nil_iff.mp (of_guardDepth hvalid)).2
    rw [hl, hr] at hrules
    obtain ⟨ty, hty, hsig⟩ := exprType_binOp hl hr hls hrs hfrag hrules (hsound l r hl hr)
    refine ⟨ty, hty, binopType_isScalar hls hsig, ?_⟩
    exact hleft.bind fun vl hvl => hright.bind fun vr hvr =>
      meets_returns (evalBinop_returns host.floats hvl hvr hsig)
  | unOp op operand ih =>
    obtain ⟨⟨-, -, depth, hvalid⟩, hoperand⟩ := he
    obtain ⟨ty, hty, hs, hoperand⟩ := ih hoperand
    have hrules := (append_eq_nil_iff.mp (of_guardDepth hvalid)).2
    rw [hty] at hrules
    obtain ⟨result, hresult, hsig⟩ := exprType_unOp hty hs hrules
    refine ⟨result, hresult, unopType_isScalar hs hsig, ?_⟩
    exact hoperand.bind fun v hv => meets_returns (evalUnop_returns host.floats hv hsig)
  | select cond trueVal falseVal ihc iht ihf =>
    obtain ⟨⟨-, -, depth, hvalid⟩, hcond, htrue, hfalse⟩ := he
    obtain ⟨_, -, -, hcond⟩ := ihc hcond
    obtain ⟨t, ht, hts, htrue⟩ := iht htrue
    obtain ⟨f, hf, -, hfalse⟩ := ihf hfalse
    have hsame : t = f := by
      have := (append_eq_nil_iff.mp (of_guardDepth hvalid)).2
      rw [ht, hf] at this
      simpa [bothSides] using this
    subst hsame
    refine ⟨t, by rw [exprType, ht, hf, if_pos rfl], hts, ?_⟩
    refine hcond.bind fun c _ => htrue.bind fun vt hvt => hfalse.bind fun vf hvf => .pure ?_
    split_ifs
    · exact hvt
    · exact hvf
  | cast target value ih =>
    obtain ⟨source, -, -, hvalue⟩ := ih he.2
    exact ⟨target, rfl, he.1.1, hvalue.bind fun v hv =>
      meets_returns (castValue_returns host.floats hv he.1.1)⟩
  | atomic op buffer _ expected _ _ ihi ihe ihv =>
    obtain ⟨-, hindex, hexpected, hvalue⟩ := he
    obtain ⟨_, -, -, hindex⟩ := ihi hindex
    obtain ⟨_, -, -, hvalue⟩ := ihv hvalue
    have hexpected : Meets (ElementsDeclared buffers) (fun e => isTypeError e = true)
        (evalExpected host snapshots expected lane) fun _ => True := by
      cases expected with
      | none => exact .pure trivial
      | some x =>
        obtain ⟨_, -, -, hx⟩ := ihe x rfl (Expr.forallExpected_iff.mp hexpected x rfl)
        exact hx.bind fun v _ => (meets_orFail_plain rfl).bind fun word _ => .pure trivial
    have hrmw : ∀ idx exp v,
        Evaluates buffers .u32 (atomicRmw Memory.atomicBuffer op buffer idx exp v) := by
      intro idx exp v
      refine Meets.of_keeps
        ((meets_atomicRmw (fun _ => Bool.false_ne_true) (fun _ => Bool.false_ne_true) op buffer idx
        exp v).imp ?_)
        (keeps_atomicRmw (fun _ _ h => atomicBuffer_eq_ok h) op idx exp v) fun _ _ =>
          ElementsDeclared.of_sameShape
      rintro _ ⟨word, rfl⟩
      exact .u32 word
    refine ⟨.u32, rfl, hu32, Meets.bind (P := fun _ => True) ?_ fun _ _ =>
      hindex.bind fun _ _ => (meets_orFail_plain rfl).bind fun idx _ =>
      hexpected.bind fun exp _ => hvalue.bind fun _ _ =>
      (meets_orFail_plain rfl).bind fun v _ => hrmw idx exp v⟩
    refine meets_lift (fun e he hbad => ?_) fun _ _ => trivial
    unfold atomicExpectedRule at he
    split at he <;> cases he <;> cases hbad
  | litF32 bits | subgroupLocalId | subgroupSize | ext extension => exact he.1.elim
  | call opId args | fma a b c | subgroupBallot cond | subgroupShuffle value src
  | subgroupAdd value => exact he.1.1.elim

end Eval

/-- The operands of a statement that the validator does not look at. -/
def uncheckedOperands : Node → List Expr
  | .asyncLoad _ _ offset size _ | .asyncStore _ _ offset size _ => [offset, size]
  | .trap address _ => [address]
  | _ => []

def TypeRule (options : Options) (buffers : Buffers) (scope : Scope) (n : Node) : Prop :=
  (∀ e ∈ operands n, e.Forall InFragment ∧ e.Forall (SoundOperator buffers scope) ∧
    validateExpr options buffers scope e 0 = []) ∧
  match n with
  | .letBind name _ => scope name = none
  | .loop var _ _ _ => scope var = none
  | .assign name value =>
      ∀ b ty, scope name = some b → exprType buffers scope value = some ty → ty = b.ty
  | _ => True

theorem typeRule_of_accepts {options : Options} (hshadow : options.allowShadowing = false)
    {buffers : Buffers} {divergent : Bool} {scope : Scope} {seen : NodeAccesses} {n : Node}
    (h : Accepts options buffers divergent scope seen n)
    (hfrag : ∀ e ∈ operands n, e.Forall InFragment)
    (hsound : ∀ e ∈ operands n, e.Forall (SoundOperator buffers (erase scope)))
    (hunchecked : ∀ e ∈ uncheckedOperands n, validateExpr options buffers (erase scope) e 0 = []) :
    TypeRule options buffers (erase scope) n := by
  have hnone : ∀ {name : Ident}, scope name = none → erase scope name = none := fun hname => by
    simp [erase, hname]
  -- the operands only have to be validated
  have hoperands : (∀ e ∈ operands n, validateExpr options buffers scope e 0 = []) →
      ∀ e ∈ operands n, e.Forall InFragment ∧ e.Forall (SoundOperator buffers (erase scope)) ∧
        validateExpr options buffers (erase scope) e 0 = [] := by
    intro hvalid e he
    exact ⟨hfrag e he, hsound e he,
      (validateExpr_erase options buffers scope e 0).trans (hvalid e he)⟩
  obtain ⟨st, hstack, hdiv, hscope, hseen, herr⟩ := id h
  rw [nodeErrors, append_eq_nil_iff, append_eq_nil_iff] at herr
  have hrules := herr.1.2
  cases n with
  | letBind name value =>
    rw [nodeRules, append_eq_nil_iff, hscope] at hrules
    refine ⟨hoperands ?_, hnone (h.letBind_fresh hshadow)⟩
    simpa [operands] using hrules.1
  | assign name value =>
    rw [nodeRules, append_eq_nil_iff, hscope] at hrules
    refine ⟨hoperands (by simpa [operands] using hrules.2), ?_⟩
    intro b ty hb hty
    obtain ⟨b', hb', rfl⟩ := Option.map_eq_some_iff.mp hb
    rw [exprType_erase] at hty
    have htarget := hrules.1
    rw [checkAssignTarget, hb', hty] at htarget
    simp only [append_eq_nil_iff] at htarget
    simpa using htarget.2
  | store buffer index value =>
    rw [nodeRules, append_eq_nil_iff, append_eq_nil_iff, hscope] at hrules
    refine ⟨hoperands ?_, trivial⟩
    simpa [operands] using And.intro hrules.1.2 hrules.2
  | ifThen cond thenNodes otherwise =>
    rw [nodeRules, append_eq_nil_iff, hscope] at hrules
    refine ⟨hoperands ?_, trivial⟩
    simpa [operands] using hrules.1
  | loop var lo hi body =>
    simp only [nodeRules, append_eq_nil_iff, hscope] at hrules
    refine ⟨hoperands ?_, hnone (h.loop_fresh hshadow)⟩
    simpa [operands] using And.intro hrules.1.1.1.1 hrules.1.1.1.2
  | asyncLoad _ _ _ _ _ | asyncStore _ _ _ _ _
  | trap address _ =>
    exact ⟨fun e he => ⟨hfrag e he, hsound e he, hunchecked e he⟩, trivial⟩
  | _ => exact ⟨by simp [operands], trivial⟩

/-! ## Runs -/

/-- The rules about types, for the statements of one program, keep the values of
locals at the types of their bindings. -/
def typeDiscipline (host : Host) (options : Options) (buffers : Buffers)
    (helement : ∀ name d, buffers name = some d → IsScalar d.element)
    (vs : List (Nat × Scope × Node)) : Discipline host buffers where
  Rule := fun label scope n => TypeRule options buffers scope n ∧ (label, scope, n) ∈ vs
  HasType := HasType
  MemoryOk := ElementsDeclared buffers
  Bad := fun _ => False
  memory_closed := ElementsDeclared.of_sameShape
  bad_scope := False.elim
  let_fresh := fun h => h.1.2
  loop_fresh := fun h => h.1.2
  loop_value := HasType.u32
  assign_typed := fun {_ scope name value b locals v} h hlocals hb hv => by
    obtain ⟨hfrag, hsound, hvalid⟩ := h.1.1 value (by simp [operands])
    -- any lane with these locals shows that the value has a type
    let lane : Lane := ⟨⟨(0, 0, 0), (0, 0, 0), (0, 0, 0)⟩, 0, locals⟩
    obtain ⟨ty, hty, -, -⟩ := @evalExpr_typed host [] options buffers scope lane helement hlocals
      value (hfrag.and (hsound.and (validateExpr_forall hvalid)))
    rw [hty] at hv
    rw [← h.1.2 b ty hb hty]
    exact hv
  assign_bound := fun _ hbad => hbad.elim
  assign_mutable := fun _ hbad => hbad.elim
  eval := fun {_ scope n e} h he snapshots lane hlane => by
    obtain ⟨hfrag, hsound, hvalid⟩ := h.1.1 e he
    obtain ⟨ty, hty, -, heval⟩ :=
      evalExpr_typed helement hlane (hfrag.and (hsound.and (validateExpr_forall hvalid)))
    rw [hty]
    exact heval.mono_errors fun _ hbad => hbad.elim

/-- The values of the program are of type `u32`, `i32` and `bool`, and it has no
calls, subgroup operations or extensions. -/
def FragmentProgram (p : Program) : Prop :=
  (∀ d ∈ p.buffers, IsScalar d.element) ∧ Node.ForallList InFragment (fun _ => True) p.entry

/-- Operators are applied where the tables agree, no buffer of bools is loaded
from, and the operands of transfers and traps would pass the validator. -/
def SoundProgram (dialect : Option DialectLookup) (p : Program) : Prop :=
  UnderAll (bufferMap p.buffers) (fun _ scope n =>
    (∀ e ∈ operands n, e.Forall (SoundOperator (bufferMap p.buffers) scope)) ∧
    ∀ e ∈ uncheckedOperands n, validateExpr { dialect } (bufferMap p.buffers) scope e 0 = [])
    emptyScope 0 p.entry

section Runs

variable {dialect : Option DialectLookup} {p : Program}

theorem isScalar_of_bufferMap (hfrag : FragmentProgram p) (name : Ident) (d : BufferDecl)
    (h : bufferMap p.buffers name = some d) : IsScalar d.element :=
  hfrag.1 d (mem_reverse.mp (mem_of_find?_eq_some h))

theorem typeRule_of_visit (hvalid : validate dialect p = []) (hfrag : FragmentProgram p)
    (hsound : SoundProgram dialect p) :
    ∀ v ∈ visitsAll (bufferMap p.buffers) emptyScope 0 p.entry,
      TypeRule { dialect } (bufferMap p.buffers) v.2.1 v.2.2 := by
  intro v hv
  obtain ⟨divergent, full, seen, herase, haccepts⟩ :=
    (underAll_iff _ _ _).mp (acceptedIn_of_validate rfl hvalid) v hv
  have hfragment := forall_of_mem_visitsAll p.entry (fun m _ => forall_of_mem_visits m) hfrag.2 v hv
  obtain ⟨hsoundOps, hunchecked⟩ := (underAll_iff _ _ _).mp hsound v hv
  rw [← herase] at hsoundOps hunchecked ⊢
  exact typeRule_of_accepts rfl haccepts (forall_operands hfragment) hsoundOps hunchecked

/-- A validated operand, and all that is inside it, returns values of the types
inferred for it. -/
theorem forall_returns {host : Host} {snapshots : List Lane} {options : Options} {buffers : Buffers}
    {scope : Scope} {lane : Lane}
    (helement : ∀ name d, buffers name = some d → IsScalar d.element)
    (hlane : LocalsOk HasType scope lane.locals) {e : Expr} (hfrag : e.Forall InFragment)
    (hsound : e.Forall (SoundOperator buffers scope))
    (hvalid : validateExpr options buffers scope e 0 = []) {m : Memory}
    (hm : ElementsDeclared buffers m) :
    e.Forall fun x => ∀ ty, exprType buffers scope x = some ty →
      Returns ty ((evalExpr host snapshots x lane m).map (·.1)) := by
  refine (hfrag.and (hsound.and (validateExpr_forall hvalid))).nested.imp fun x hx ty hty => ?_
  obtain ⟨ty', hty', -, heval⟩ := evalExpr_typed helement hlane hx
  obtain rfl : ty' = ty := Option.some.inj (hty'.symm.trans hty)
  have hrun := heval m hm
  cases hr : evalExpr host snapshots x lane m with
  | ok r =>
    rw [hr] at hrun
    exact hrun.1
  | error err =>
    rw [hr] at hrun
    show isTypeError err = false
    simpa using hrun

end Runs

/-- Where an invocation stands before a statement of a sound program, the
operands of the statement and all expressions inside them evaluate to values of
the types the validator infers, and not to an error about types. Other lanes may
have changed the contents of the memory since the round began. -/
theorem evalExpr_returns (dialect : Option DialectLookup) (p : Program)
    (hvalid : validate dialect p = []) (hfrag : FragmentProgram p) (hsound : SoundProgram dialect p)
    (host : Host) (usesSubgroupOps : Bool) (workgroup : Dim3) (invs : List Invocation)
    (hinvs : createInvocations p workgroup = .ok invs) (memory : Memory)
    (hmemory : ElementsDeclared (bufferMap p.buffers) memory) (c : Config)
    (hc : Reachable host usesSubgroupOps ⟨memory, invs⟩ c) (inv : Invocation)
    (hinv : inv ∈ c.invocations) (n : Node) (rest : List Node) (label : Nat) (isScoped : Bool)
    (frames : List Frame) (hframes : inv.frames = .nodes (n :: rest) label isScoped :: frames)
    (scope : Scope) (hn : (label, scope, n) ∈ visitsAll (bufferMap p.buffers) emptyScope 0 p.entry)
    (operand : Expr) (hoperand : operand ∈ operands n) (snapshots : List Lane) (m : Memory)
    (hm : SameShape c.memory m) :
    operand.Forall fun e => ∀ ty, exprType (bufferMap p.buffers) scope e = some ty →
      Returns ty ((evalExpr host snapshots e inv.lane m).map (·.1)) := by
  have helement := isScalar_of_bufferMap hfrag
  have hrule := typeRule_of_visit hvalid hfrag hsound
  have hstart : ConfigOk (typeDiscipline host { dialect } (bufferMap p.buffers) helement
      (visitsAll (bufferMap p.buffers) emptyScope 0 p.entry)) ⟨memory, invs⟩ :=
    .start ((underAll_iff _ _ _).mpr fun v hv => ⟨hrule v hv, hv⟩) hmemory hinvs
  have hok := hstart.of_reachable hc
  obtain ⟨scope', henv, hframesOk⟩ := hok.invocations inv hinv
  rw [hframes] at hframesOk
  obtain ⟨htype, hvisit⟩ := hframesOk.split.1.self
  -- the label tells which scope it is
  have hscope : scope = scope' := by
    refine oneScope_visitsAll p.entry emptyScope 0 _ hn _ hvisit ?_ rfl rfl
    rintro body rfl
    cases hoperand
  subst hscope
  have hlocals : LocalsOk HasType scope inv.lane.locals := henv.toLocalsOk
  obtain ⟨hfragment, hsoundOps, hvalidExpr⟩ := htype.1 operand hoperand
  exact forall_returns helement hlocals hfragment hsoundOps hvalidExpr
    (ElementsDeclared.of_sameShape hm hok.memory)

def storingProgram : Program :=
  .wrapped [.readWrite "a" 0 .u32] (1, 1, 1)
    [.letBind "x" (.litU32 7),
     .store "a" (.litU32 0) (.binOp .add (.var "x") (.localId 0))]

theorem evalExpr_returns_storing :
    ∃ invs c inv label isScoped frames scope,
      createInvocations storingProgram (0, 0, 0) = .ok invs ∧
      Reachable integerHost false ⟨oneWordMemory, invs⟩ c ∧ inv ∈ c.invocations ∧
      inv.frames = .nodes [.store "a" (.litU32 0) (.binOp .add (.var "x") (.localId 0))] label
        isScoped :: frames ∧
      Expr.Forall (fun e => ∀ ty, exprType (bufferMap storingProgram.buffers) scope e = some ty →
        Returns ty ((evalExpr integerHost [] e inv.lane c.memory).map (·.1)))
        (.binOp .add (.var "x") (.localId 0)) := by
  have hvalid : validate none storingProgram = [] := by decide
  have hfrag : FragmentProgram storingProgram := by
    simp [FragmentProgram, storingProgram, Program.wrapped, Program.newRaw, Node.ForallList,
      Node.Forall, Expr.Forall, InFragment, IsScalar, BufferDecl.readWrite, BufferDecl.storage]
  have hsound : SoundProgram none storingProgram := by
    simp [SoundProgram, storingProgram, Program.wrapped, Program.newRaw, UnderAll, Under, after,
      operands, uncheckedOperands, Expr.Forall, SoundOperator, SoundBinop]
  have hmemory : ElementsDeclared (bufferMap storingProgram.buffers) oneWordMemory := by
    intro name b d hb hd
    by_cases hname : name = "a"
    · subst hname
      cases hb
      cases hd
      rfl
    · simp [oneWordMemory, Memory.find, hname] at hb
  obtain ⟨invs, c, inv, hinvs, hrun, hmem, hframes⟩ : ∃ invs c inv,
      createInvocations storingProgram (0, 0, 0) = .ok invs ∧
      rounds integerHost false 2 ⟨oneWordMemory, invs⟩ = .ok c ∧ inv ∈ c.invocations ∧
      inv.frames = [.nodes [.store "a" (.litU32 0) (.binOp .add (.var "x") (.localId 0))] 2 true,
        .nodes [] 3 false] :=
    ⟨_, _, _, rfl, rfl, mem_singleton.mpr rfl, rfl⟩
  have hreach := reachable_of_rounds hrun
  have hvisit : (2, setBinding emptyScope "x" (some ⟨.u32, true, false⟩),
      Node.store "a" (.litU32 0) (.binOp .add (.var "x") (.localId 0)))
        ∈ visitsAll (bufferMap storingProgram.buffers) emptyScope 0 storingProgram.entry := by
    simp [storingProgram, Program.wrapped, Program.newRaw, visitsAll, visits, after,
      labels, exprType]
  exact ⟨invs, c, inv, 2, true, _, _, hinvs, hreach, hmem, hframes,
    evalExpr_returns none storingProgram hvalid hfrag hsound integerHost false (0, 0, 0) invs hinvs
      oneWordMemory hmemory c hreach inv hmem _ _ _ _ _ hframes _ hvisit _ (by simp [operands]) []
      c.memory rfl⟩

def boolOrderProgram : Program :=
  .wrapped [.readWrite "a" 0 .u32] (1, 1, 1)
    [.letBind "x" (.binOp .lt (.litBool true) (.litBool false))]

def signedMaskProgram : Program :=
  .wrapped [.readWrite "a" 0 .u32] (1, 1, 1)
    [.letBind "x" (.binOp .bitAnd (.litI32 1) (.litI32 1))]

def boolLoadProgram : Program :=
  .wrapped [.readWrite "a" 0 .bool] (1, 1, 1) [.letBind "x" (.load "a" (.litU32 0))]

def boolMemory : Memory where
  storage := fun name => if name = "a" then some ⟨[1, 0, 0, 0], .bool⟩ else none
  workgroup := fun _ => none

/-- All three are accepted. The first stops with a type error; the others give a
local a value that is not of the type inferred for it. -/
theorem accepted_type_failures :
    (validate none boolOrderProgram = [] ∧
      exprType (bufferMap boolOrderProgram.buffers) emptyScope
        (.binOp .lt (.litBool true) (.litBool false)) = some .bool ∧
      ∃ invs c, createInvocations boolOrderProgram (0, 0, 0) = .ok invs ∧
        Reachable integerHost false ⟨oneWordMemory, invs⟩ c ∧
        c.round integerHost false = .error (.boolBinOp .lt)) ∧
    (validate none signedMaskProgram = [] ∧
      exprType (bufferMap signedMaskProgram.buffers) emptyScope
        (.binOp .bitAnd (.litI32 1) (.litI32 1)) = some .u32 ∧
      ∃ invs c, createInvocations signedMaskProgram (0, 0, 0) = .ok invs ∧
        Reachable integerHost false ⟨oneWordMemory, invs⟩ c ∧
        c.invocations.map (·.locals.locals "x") = [some (.i32 1)]) ∧
    (validate none boolLoadProgram = [] ∧
      exprType (bufferMap boolLoadProgram.buffers) emptyScope (.load "a" (.litU32 0)) = some .bool ∧
      ∃ invs c, createInvocations boolLoadProgram (0, 0, 0) = .ok invs ∧
        Reachable integerHost false ⟨boolMemory, invs⟩ c ∧
        c.invocations.map (·.locals.locals "x") = [some (.u32 1)]) := by
  refine ⟨⟨?_, rfl, ?_⟩, ⟨?_, rfl, ?_⟩, ?_, rfl, ?_⟩
  · decide
  · exact exists_reachable_error 2 ⟨_, rfl, rfl⟩
  · decide
  · obtain ⟨invs, c, hinvs, hrun, hx⟩ : ∃ invs c,
        createInvocations signedMaskProgram (0, 0, 0) = .ok invs ∧
        rounds integerHost false 2 ⟨oneWordMemory, invs⟩ = .ok c ∧
        c.invocations.map (·.locals.locals "x") = [some (.i32 1)] := ⟨_, _, rfl, rfl, rfl⟩
    exact ⟨invs, c, hinvs, reachable_of_rounds hrun, hx⟩
  · decide
  · obtain ⟨invs, c, hinvs, hrun, hx⟩ : ∃ invs c,
        createInvocations boolLoadProgram (0, 0, 0) = .ok invs ∧
        rounds integerHost false 2 ⟨boolMemory, invs⟩ = .ok c ∧
        c.invocations.map (·.locals.locals "x") = [some (.u32 1)] := ⟨_, _, rfl, rfl, rfl⟩
    exact ⟨invs, c, hinvs, reachable_of_rounds hrun, hx⟩

end Vyre.Soundness
