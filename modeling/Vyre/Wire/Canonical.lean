import Vyre.Wire.ProgramRoundTrip

/-!
# Canonical spellings

What the decoder with `Checks.canonical` consumed is the layout of the value it
returned: a LEB128 integer is spelled in its fewest bytes, a flag is 0 or 1, an
`f32` literal is in canonical form, and both sections give the same hints. The
source's decoder lets other spellings through.
-/

namespace Vyre.Wire

open ByteCodec
open Reader

section Primitives

variable {c c' : Cursor}

/-- A byte that is read was the first one left. -/
@[grind →] theorem rest_of_u8 {b : UInt8} (h : Reads u8 c b c') : c.rest = b :: c'.rest :=
  (reads_byte.mp h).1

variable {v : UInt32} {n : Nat} {s : String}

theorem rest_of_take {bs : List UInt8} (h : Reads (Reader.take n) c bs c') :
    bs.length = n ∧ c.rest = bs ++ c'.rest :=
  ⟨(reads_take.mp h).1, (reads_take.mp h).2.1⟩

theorem rest_of_leBytes {bs : List UInt8} (h : Reads (Reader.take n) c bs c') :
    c.rest = leBytes n (ofLeBytes bs % 256 ^ n) ++ c'.rest := by
  obtain ⟨rfl, hrest⟩ := rest_of_take h
  rw [Nat.mod_eq_of_lt (ofLeBytes_lt bs), leBytes_ofLeBytes, hrest]

@[grind →] theorem rest_of_u32 (h : Reads u32 c v c') : c.rest = putU32 v ++ c'.rest := by
  simp only [u32, bind_pure_comp, reads_map] at h
  obtain ⟨bs, hb, rfl⟩ := h
  exact rest_of_leBytes hb

@[grind →] theorem rest_of_u64 {v : UInt64} (h : Reads u64 c v c') :
    c.rest = putU64 v ++ c'.rest := by
  simp only [u64, bind_pure_comp, reads_map] at h
  obtain ⟨bs, hb, rfl⟩ := h
  exact rest_of_leBytes hb

@[grind →] theorem rest_of_i32 {v : Int32} (h : Reads i32 c v c') :
    c.rest = putU32 v.toUInt32 ++ c'.rest := by
  simp only [i32, bind_pure_comp, reads_map] at h
  obtain ⟨bits, hb, rfl⟩ := h
  exact rest_of_u32 hb

@[grind →] theorem rest_of_boundedLen {max : Nat} {label : String}
    (h : Reads (boundedLen max label) c n c') :
    n ≤ max ∧ n < 2 ^ 32 ∧ c.rest = leBytes 4 n ++ c'.rest := by
  simp only [boundedLen, bind_pure_comp, reads_bind, reads_map, reads_ensure] at h
  obtain ⟨v, m, hv, u, ⟨hle, rfl⟩, rfl⟩ := h
  exact ⟨of_decide_eq_true hle, v.toNat_lt, rest_of_u32 hv⟩

theorem reads_utf8Text_iff {bs : List UInt8} {message : String} :
    Reads (utf8Text bs message) c s c' ↔ c' = c ∧ bs = utf8 s := by
  rw [← ofUtf8_eq_some, utf8Text]
  cases ofUtf8 bs with
  | none => simp
  | some t => simp [eq_comm]

@[grind →] theorem rest_of_string (h : Reads string c s c') :
    StringFits s ∧ c.rest = stringBytes s ++ c'.rest := by
  simp only [string, reads_bind, reads_utf8Text_iff] at h
  obtain ⟨n, m, hn, bs, m', hb, rfl, rfl⟩ := h
  obtain ⟨hmax, -, hrest⟩ := rest_of_boundedLen hn
  obtain ⟨rfl, hrest'⟩ := rest_of_take hb
  exact ⟨hmax, by rw [hrest, hrest', stringBytes, List.append_assoc]⟩

variable {chk : Checks}

variable (hchk : chk.canonical = true)

include hchk

@[grind →] theorem rest_of_flag {b : Bool} (h : Reads (flag chk) c b c') :
    c.rest = flagByte b :: c'.rest := by
  simp only [flag, bind_pure_comp, reads_bind, reads_map, reads_require, hchk, forall_const] at h
  obtain ⟨v, m, hv, u, ⟨hle, rfl⟩, rfl⟩ := h
  rw [rest_of_u8 hv]
  have hcases : v = 0 ∨ v = 1 := by
    have hle : v ≤ 1 := of_decide_eq_true hle
    have : v.toNat ≤ 1 := UInt8.le_iff_toNat_le.mp hle
    rcases Nat.le_one_iff_eq_zero_or_eq_one.mp this with h | h
    · exact .inl (UInt8.toNat_inj.mp h)
    · exact .inr (UInt8.toNat_inj.mp h)
  rcases hcases with rfl | rfl <;> rfl

/-- Of the spellings of a number only the shortest is read. -/
theorem rest_of_lebU64 (h : Reads (lebU64 chk) c n c') :
    n < 2 ^ 64 ∧ c.rest = lebBytes 10 n ++ c'.rest := by
  rw [lebU64, hchk] at h
  obtain ⟨n', rfl, hlt, -, hrest, -⟩ := Reads.leb_minimal (by omega) (by omega) h
  rw [Nat.pow_zero, Nat.mul_one, Nat.zero_add]
  exact ⟨by omega, hrest⟩

theorem rest_of_lebU32 (h : Reads (lebU32 chk) c v c') :
    c.rest = putLebU32 v ++ c'.rest := by
  simp only [lebU32, bind_pure_comp, reads_bind, reads_map, reads_ensure] at h
  obtain ⟨n, m, hn, u, ⟨hlt, rfl⟩, rfl⟩ := h
  rw [putLebU32, UInt32.toNat_ofNat', Nat.mod_eq_of_lt (of_decide_eq_true hlt)]
  exact (rest_of_lebU64 hchk hn).2

theorem rest_of_lebLen {max : Nat} {label : String}
    (h : Reads (lebLen chk max label) c n c') :
    n ≤ max ∧ n < 2 ^ 64 ∧ c.rest = lebBytes 10 n ++ c'.rest := by
  simp only [lebLen, bind_pure_comp, reads_bind, reads_map, reads_ensure] at h
  obtain ⟨v, m, hv, u, ⟨hle, rfl⟩, rfl⟩ := h
  exact ⟨of_decide_eq_true hle, rest_of_lebU64 hchk hv⟩

theorem rest_of_lebParam {field : String}
    (h : Reads (lebParam chk field) c v c') : c.rest = putLebU32 v ++ c'.rest := by
  simp only [lebParam, bind_pure_comp, reads_bind, reads_map, reads_ensure] at h
  obtain ⟨n, m, hn, u, ⟨hlt, rfl⟩, rfl⟩ := h
  rw [putLebU32, UInt32.toNat_ofNat', Nat.mod_eq_of_lt (of_decide_eq_true hlt)]
  exact (rest_of_lebU64 hchk hn).2

theorem rest_of_lebString (h : Reads (lebString chk) c s c') :
    StringFits s ∧ c.rest = lebBytes 10 (utf8 s).length ++ utf8 s ++ c'.rest := by
  simp only [lebString, reads_bind, reads_utf8Text_iff] at h
  obtain ⟨n, m, hn, bs, m', hb, rfl, rfl⟩ := h
  obtain ⟨hmax, -, hrest⟩ := rest_of_lebLen hchk hn
  obtain ⟨rfl, hrest'⟩ := rest_of_take hb
  exact ⟨hmax, by rw [hrest, hrest', List.append_assoc]⟩

end Primitives

/-! ## Operators and data types -/

section Values

variable {c c' : Cursor} {host : Host} {chk : Checks}

variable {tag : UInt8} {t : DataType}

/-- An accepted tag is in the table, with its value. -/
theorem mem_of_decodeTag {α : Type} {table : List (UInt8 × α)} {kind : String} {a : α}
    (h : Reads (decodeTag tag table kind) c a c') : c' = c ∧ (tag, a) ∈ table := by
  unfold decodeTag at h
  split at h
  · rename_i t v hfind
    obtain ⟨rfl, rfl⟩ := reads_pure.mp h
    have htag := List.find?_some hfind
    simp only [decide_eq_true_eq] at htag
    subst htag
    exact ⟨rfl, List.mem_of_find?_eq_some hfind⟩
  · exact (reads_err.mp h).elim

@[grind →] theorem rest_of_extensionId {id : UInt32} {surface : String}
    (h : Reads (extensionId surface) c id c') : c.rest = putU32 id ++ c'.rest := by
  simp only [extensionId, bind_pure_comp, reads_bind, reads_map, reads_ensure] at h
  obtain ⟨raw, m, hr, u, ⟨-, rfl⟩, rfl⟩ := h
  exact rest_of_u32 hr

/-- An operator is its tag, or 0x80 and the id of an extension. -/
theorem rest_of_tagged {α : Type} {table : List (UInt8 × α)} {kind surface : String}
    {ext : UInt32 → α} {bytes : α → List UInt8} {a : α}
    (hext : ∀ id, bytes (ext id) = 0x80 :: putU32 id) (htable : ∀ x ∈ table, bytes x.2 = [x.1])
    (h : Reads (do
      let tag ← u8
      if tag = 0x80 then return ext (← extensionId surface) else decodeTag tag table kind) c a c') :
    c.rest = bytes a ++ c'.rest := by
  simp only [bind_pure_comp, reads_bind, reads_ite, reads_map] at h
  obtain ⟨tag, m, ht, h⟩ := h
  rw [rest_of_u8 ht]
  split at h
  · obtain ⟨id, hid, rfl⟩ := h
    rename_i htag
    rw [rest_of_extensionId hid, htag, hext]
    rfl
  · obtain ⟨rfl, hmem⟩ := mem_of_decodeTag h
    rw [htable _ hmem]
    rfl

@[grind →] theorem rest_of_binOp {op : BinOp} (h : Reads binOp c op c') :
    c.rest = binOpBytes op ++ c'.rest :=
  rest_of_tagged (fun _ => rfl) (by decide) h

@[grind →] theorem rest_of_unOp {op : UnOp} (h : Reads unOp c op c') :
    c.rest = unOpBytes op ++ c'.rest :=
  rest_of_tagged (fun _ => rfl) (by decide) h

@[grind →] theorem rest_of_atomicOp {op : AtomicOp} (h : Reads atomicOp c op c') :
    c.rest = atomicOpBytes op ++ c'.rest :=
  rest_of_tagged (fun _ => rfl) (by decide) h

/-- A value that is one byte on the wire. -/
theorem rest_of_byte {α : Type} {f : UInt8 → Read α} {byte : α → UInt8} {a : α}
    (hf : ∀ {tag a c c'}, Reads (f tag) c a c' → byte a = tag ∧ c' = c)
    (h : Reads (u8 >>= f) c a c') :
    c.rest = byte a :: c'.rest := by
  obtain ⟨tag, m, ht, h⟩ := reads_bind.mp h
  obtain ⟨rfl, rfl⟩ := hf h
  exact rest_of_u8 ht

@[grind →] theorem rest_of_ordering {o : MemoryOrdering} (h : Reads ordering c o c') :
    c.rest = orderingTag o :: c'.rest := by
  refine rest_of_byte (fun h => ?_) h
  split at h <;> simp_all [orderingTag]

@[grind →] theorem rest_of_collectiveOp {o : CollectiveOp} (h : Reads collectiveOp c o c') :
    c.rest = collectiveOpTag o :: c'.rest := by
  refine rest_of_byte (fun h => ?_) h
  split at h <;> simp_all [collectiveOpTag]

@[grind →] theorem rest_of_quantizationScale {s : QuantizationScale}
    (h : Reads quantizationScale c s c') :
    EncodableScale s ∧ c.rest = scaleBytes s ++ c'.rest := by
  simp only [quantizationScale, reads_bind] at h
  obtain ⟨tag, m, ht, param, m', hp, h⟩ := h
  rw [rest_of_u8 ht, rest_of_u32 hp]
  split at h <;> simp at h
  · obtain ⟨⟨rfl, rfl⟩, rfl⟩ := h
    exact ⟨trivial, rfl⟩
  · obtain ⟨rfl, rfl⟩ := h
    exact ⟨trivial, rfl⟩
  · obtain ⟨⟨hne, rfl⟩, rfl⟩ := h
    exact ⟨hne, rfl⟩

@[grind →] theorem rest_of_quantizationZeroPoint {z : QuantizationZeroPoint}
    (h : Reads quantizationZeroPoint c z c') :
    EncodableZeroPoint z ∧ c.rest = zeroPointBytes z ++ c'.rest := by
  simp only [quantizationZeroPoint, reads_bind] at h
  obtain ⟨tag, m, ht, param, m', hp, h⟩ := h
  rw [rest_of_u8 ht, rest_of_u32 hp]
  split at h <;> simp at h
  · obtain ⟨⟨rfl, rfl⟩, rfl⟩ := h
    exact ⟨trivial, rfl⟩
  · obtain ⟨⟨rfl, rfl⟩, rfl⟩ := h
    exact ⟨trivial, rfl⟩
  · obtain ⟨rfl, rfl⟩ := h
    exact ⟨trivial, rfl⟩
  · obtain ⟨⟨hne, rfl⟩, rfl⟩ := h
    exact ⟨hne, rfl⟩

theorem rest_of_u32s {n : UInt32} {xs : List UInt32} (h : Reads (many u32 n.toNat) c xs c') :
    xs.length < 2 ^ 32 ∧ putU32 n = leBytes 4 xs.length ∧
      c.rest = xs.flatMap putU32 ++ c'.rest := by
  have hlen := h.many_length
  have hone : ∀ {c a c'}, True → Reads u32 c a c' → True ∧ c.rest = putU32 a ++ c'.rest :=
    fun _ hr => ⟨trivial, rest_of_u32 hr⟩
  obtain ⟨-, hrest⟩ := Reads.many_inv hone (fun _ _ => trivial) h
  rw [hlen]
  exact ⟨n.toNat_lt, rfl, hrest⟩

theorem scalarFromTag_eq_ok (h : scalarFromTag tag = .ok t) :
    EncodableType t ∧ typeBytes t = [tag] := by
  unfold scalarFromTag at h
  split at h <;> cases h <;> exact ⟨trivial, rfl⟩

/-- The payload of a type, its tag read, given the types inside. -/
theorem rest_of_dataTypeArm {nested : Read DataType}
    (hn : ∀ {c a c'}, Reads nested c a c' → EncodableType a ∧ c.rest = typeBytes a ++ c'.rest)
    (h : Reads (dataTypeArm nested tag) c t c') :
    EncodableType t ∧ tag :: c.rest = typeBytes t ++ c'.rest := by
  unfold dataTypeArm at h
  split at h
  case h_11 =>
    obtain ⟨rfl, h⟩ := reads_lift.mp h
    cases hs : scalarFromTag tag with
    | error e => simp [hs, Except.mapError] at h
    | ok t' =>
      rw [hs] at h
      cases h
      obtain ⟨hok, hbytes⟩ := scalarFromTag_eq_ok hs
      exact ⟨hok, by rw [hbytes]; rfl⟩
  all_goals simp only [bind_pure_comp, reads_bind, reads_map, reads_ensure] at h
  case h_1 =>
    obtain ⟨size, hs, rfl⟩ := h
    have hlt := size.toNat_lt
    refine ⟨by simpa [EncodableType] using hlt, ?_⟩
    simp [rest_of_u32 hs, typeBytes, putU32]
  case h_4 =>
    obtain ⟨e, m, he, len, m', hl, shape, hs, rfl⟩ := h
    obtain ⟨hlt, hput, hrest'⟩ := rest_of_u32s hs
    grind [typeBytes, EncodableType]
  case h_8 =>
    obtain ⟨len, m, hl, axes, ha, rfl⟩ := h
    obtain ⟨hlt, hput, hrest⟩ := rest_of_u32s ha
    grind [typeBytes, EncodableType]
  all_goals grind [typeBytes, EncodableType]

/-- A type that is read was spelled as the encoder spells it. -/
theorem rest_of_dataType (hchk : chk.guardTypes = false) {stack : Nat}
    (h : Reads (dataType chk stack) c t c') :
    EncodableType t ∧ c.rest = typeBytes t ++ c'.rest := by
  induction stack generalizing c t c' with
  | zero => simp [dataType] at h
  | succ stack ih =>
    simp only [dataType, dataTypeInner, enterType, leaveType, hchk,
      reads_bind] at h
    obtain ⟨u, m, ⟨rfl, -⟩, t', m', ⟨tag, m'', ht, harm⟩, u', m''', ⟨rfl, -⟩, rfl, rfl⟩ := h
    obtain ⟨hok, hrest⟩ := rest_of_dataTypeArm ih harm
    exact ⟨hok, by rw [rest_of_u8 ht, hrest]⟩

end Values

section Trees

variable {c c' : Cursor} {host : Host} {chk : Checks}

/-- Extensions are spelled by their host. -/
def plainExpr : Expr → Prop
  | .ext _ => False
  | _ => True

def plainNode : Node → Prop
  | .ext _ => False
  | _ => True

section

variable (hchk : chk.canonical = true)

include hchk

@[grind →] theorem rest_of_f32Bits {bits : UInt32}
    (h : Reads (f32Bits chk) c bits c') : c.rest = putU32 (canonicalF32Bits bits) ++ c'.rest := by
  simp only [f32Bits, bind_pure_comp, reads_bind, reads_map, reads_require, hchk, forall_const,
    beq_iff_eq] at h
  obtain ⟨v, m, hv, u, ⟨hcanon, rfl⟩, rfl⟩ := h
  rw [hcanon]
  exact rest_of_u32 hv

theorem rest_of_expectedOperand {sub : Read Expr} {x : Option Expr}
    (hsub : ∀ {c a c'}, a.Forall plainExpr → Reads sub c a c' →
      EncodableExpr a ∧ c.rest = exprBytes a ++ c'.rest)
    (hplain : Expr.ForallExpected plainExpr x) (h : Reads (expectedOperand chk sub) c x c') :
    EncodableExpected x ∧ c.rest = expectedBytes x ++ c'.rest := by
  simp only [expectedOperand, reads_bind, reads_ite, reads_map] at h
  obtain ⟨present, m, hp, h⟩ := h
  rw [rest_of_flag hchk hp]
  split at h
  · rename_i ht
    obtain ⟨e, he, rfl⟩ := h
    obtain ⟨hok, hrest⟩ := hsub hplain he
    exact ⟨hok, by rw [ht, hrest]; rfl⟩
  · rename_i hf
    obtain ⟨rfl, rfl⟩ := h
    rw [Bool.not_eq_true] at hf
    exact ⟨trivial, by rw [hf]; rfl⟩

/-- The payload of an expression, given its operands. -/
theorem rest_of_exprArm {sub : Read Expr} {ty : Read DataType}
    {tag : UInt8} {e : Expr}
    (hsub : ∀ {c a c'}, a.Forall plainExpr → Reads sub c a c' →
      EncodableExpr a ∧ c.rest = exprBytes a ++ c'.rest)
    (hty : ∀ {c a c'}, Reads ty c a c' → EncodableType a ∧ c.rest = typeBytes a ++ c'.rest)
    (hplain : e.Forall plainExpr) (h : Reads (exprArm host chk sub ty tag) c e c') :
    EncodableExpr e ∧ tag :: c.rest = exprBytes e ++ c'.rest := by
  unfold exprArm at h
  split at h <;> simp only [bind_pure_comp, reads_bind, reads_map, reads_pure, reads_err] at h
  case h_13 =>
    obtain ⟨name, m, hn, count, m', hc, args, ha, rfl⟩ := h
    obtain ⟨hfit, hrest⟩ := rest_of_string hn
    obtain ⟨-, hlt, hrest'⟩ := rest_of_boundedLen hc
    have hlen := ha.many_length
    obtain ⟨hok, hrest''⟩ := Reads.many_inv hsub (Expr.forallArgs_iff.mp hplain.2) ha
    subst hlen
    exact ⟨⟨hfit, hlt, encodableExprs_iff.mpr hok⟩,
      by simp [hrest, hrest', hrest'', exprBytes, exprsBytes_eq]⟩
  case h_16 =>
    obtain ⟨op, m, ho, order, m₁, hord, name, m₂, hn, index, m₃, hi, expected, m₄, hx, value, hv,
      rfl⟩ := h
    obtain ⟨-, hpi, hpx, hpv⟩ := hplain
    obtain ⟨hfit, hrest⟩ := rest_of_string hn
    obtain ⟨hok, hrest'⟩ := hsub hpi hi
    obtain ⟨hok', hrest''⟩ := rest_of_expectedOperand hchk hsub hpx hx
    obtain ⟨hok'', hrest₃⟩ := hsub hpv hv
    exact ⟨⟨hfit, hok, hok', hok''⟩,
      by simp [rest_of_atomicOp ho, rest_of_ordering hord, hrest, hrest', hrest'',
        hrest₃, exprBytes]⟩
  case h_23 =>
    obtain ⟨x, hx, rfl⟩ := h
    exact hplain.elim
  all_goals grind [exprBytes, EncodableExpr, Expr.Forall]

end

/-- An expression that is read was spelled as the encoder spells it. -/
theorem rest_of_expr (hcanon : chk.canonical = true) (hguard : chk.guardTypes = false)
    {stack : Nat} {e : Expr} (hplain : e.Forall plainExpr)
    (h : Reads (expr host chk stack) c e c') :
    EncodableExpr e ∧ c.rest = exprBytes e ++ c'.rest := by
  induction stack generalizing c e c' with
  | zero => simp [expr] at h
  | succ stack ih =>
    simp only [expr, exprInner, reads_bind, reads_enter, reads_leave] at h
    obtain ⟨u, m, ⟨-, rfl⟩, e', m', ⟨tag, m'', ht, harm⟩, u', m₁, rfl, rfl, rfl⟩ := h
    obtain ⟨hok, hrest⟩ := rest_of_exprArm hcanon ih (rest_of_dataType hguard) hplain harm
    exact ⟨hok, (rest_of_u8 ht).trans hrest⟩

@[grind →] theorem rest_of_sourceRegion {r : Option String} (h : Reads sourceRegion c r c') :
    EncodableName r ∧ c.rest = sourceRegionBytes r ++ c'.rest := by
  simp only [sourceRegion, reads_bind] at h
  obtain ⟨presence, m, hp, h⟩ := h
  rw [rest_of_u8 hp]
  split at h <;> simp only [reads_pure, reads_map, reads_err] at h
  · obtain ⟨rfl, rfl⟩ := h
    exact ⟨trivial, rfl⟩
  · obtain ⟨name, hn, rfl⟩ := h
    obtain ⟨hfit, hrest⟩ := rest_of_string hn
    exact ⟨hfit, by rw [hrest]; rfl⟩

theorem rest_of_nodes {sub : Read Node} {ns : List Node}
    (hsub : ∀ {c a c'}, a.Forall plainExpr plainNode → Reads sub c a c' →
      EncodableNode a ∧ c.rest = nodeBytes a ++ c'.rest)
    (hplain : Node.ForallList plainExpr plainNode ns) (h : Reads (nodes sub) c ns c') :
    (ns.length < 2 ^ 32 ∧ EncodableNodes ns) ∧
      c.rest = leBytes 4 ns.length ++ nodesBytes ns ++ c'.rest := by
  simp only [nodes, reads_bind] at h
  obtain ⟨n, m, hn, h⟩ := h
  obtain ⟨-, hlt, hrest⟩ := rest_of_boundedLen hn
  have hlen := h.many_length
  obtain ⟨hok, hrest'⟩ := Reads.many_inv hsub (Node.forallList_iff.mp hplain) h
  subst hlen
  exact ⟨⟨hlt, encodableNodes_iff.mpr hok⟩, by rw [hrest, hrest', nodesBytes_eq, List.append_assoc]⟩

/-- The payload of a statement, given its parts. -/
theorem rest_of_nodeArm {expr : Read Expr} {sub : Read Node} {tag : UInt8} {n : Node}
    (hexpr : ∀ {c a c'}, a.Forall plainExpr → Reads expr c a c' →
      EncodableExpr a ∧ c.rest = exprBytes a ++ c'.rest)
    (hsub : ∀ {c a c'}, a.Forall plainExpr plainNode → Reads sub c a c' →
      EncodableNode a ∧ c.rest = nodeBytes a ++ c'.rest)
    (hplain : n.Forall plainExpr plainNode) (h : Reads (nodeArm host expr sub tag) c n c') :
    EncodableNode n ∧ tag :: c.rest = nodeBytes n ++ c'.rest := by
  have hbody : ∀ {c ns c'}, Node.ForallList plainExpr plainNode ns → Reads (nodes sub) c ns c' →
      (ns.length < 2 ^ 32 ∧ EncodableNodes ns) ∧
        c.rest = leBytes 4 ns.length ++ nodesBytes ns ++ c'.rest := rest_of_nodes hsub
  unfold nodeArm at h
  split at h <;> simp only [bind_pure_comp, reads_bind, reads_map, reads_pure, reads_err] at h
  case h_20 =>
    obtain ⟨x, hx, rfl⟩ := h
    exact hplain.elim
  all_goals grind [nodeBytes, EncodableNode, Node.Forall]

/-- A statement that is read was spelled as the encoder spells it. -/
theorem rest_of_node (hcanon : chk.canonical = true) (hguard : chk.guardTypes = false)
    {stack : Nat} {n : Node} (hplain : n.Forall plainExpr plainNode)
    (h : Reads (node host chk stack) c n c') :
    EncodableNode n ∧ c.rest = nodeBytes n ++ c'.rest := by
  induction stack generalizing c n c' with
  | zero => simp [node] at h
  | succ stack ih =>
    simp only [node, nodeInner, reads_bind, reads_enter, reads_leave] at h
    obtain ⟨u, m, ⟨-, rfl⟩, n', m', ⟨tag, m'', ht, harm⟩, u', m₁, rfl, rfl, rfl⟩ := h
    obtain ⟨hok, hrest⟩ := rest_of_nodeArm (rest_of_expr hcanon hguard) ih hplain harm
    exact ⟨hok, (rest_of_u8 ht).trans hrest⟩

end Trees

end Vyre.Wire
