import Vyre.Optimizer.ExprRewrite

/-!
# Remainders of known literals

`fold_mod_lookbehind` (`const_fold/binop_identities.rs`) replaces `x % n` by `x`
where a `let` of the same body bound `x` to a literal below `n`. It forgets the
name at an assignment in that body, and not at one in a body nested in it. Where
the name is below `n` all the same when the remainder is taken, the program runs
the same.
-/

namespace Vyre.ModLookbehind

open Reference Reference.Eval StateExcept NodeMap ExprRewrite Function

abbrev LocalLits := Ident → Option UInt32

/-- What `rewrite_expr_for_mod` puts in the place of an expression. -/
def elideMod (lits : LocalLits) : Expr → Option Expr
  | .binOp .mod (.var x) (.litU32 n) =>
    match lits x with
    | some c => if c < n then some (.var x) else none
    | none => none
  | _ => none

def rewriteExprForMod (lits : LocalLits) : Expr → Expr := rewriteExpr (elideMod lits)

def nextLits (lits : LocalLits) : Node → LocalLits
  | .letBind name value =>
    match rewriteExprForMod lits value with
    | .litU32 c => update lits name (some c)
    | .litI32 c => if 0 ≤ c then update lits name (some c.toUInt32) else lits
    | _ => lits
  | .assign name _ => update lits name none
  | _ => lits

/-- The loop of `fold_mod_lookbehind`, which starts anew in every body. -/
def lookbehind : Walk LocalLits where
  init _ := none
  next := nextLits
  expr
    | lits, .assign name _, e => rewriteExprForMod (update lits name none) e
    | _, .asyncLoad .., e | _, .asyncStore .., e => e
    | lits, _, e => rewriteExprForMod lits e

def foldModLookbehind (nodes : List Node) : List Node := lookbehind.nodes lookbehind.init nodes

/-! ## Where remainders are taken -/

/-- The literals the fold remembers. -/
def literalWord : Expr → Option UInt32
  | .litU32 c => some c
  | .litI32 c => if 0 ≤ c then some c.toUInt32 else none
  | _ => none

/-- A `let` of the body bound the name to the literal, and no statement of the
body since then assigns it. The statements are given with the last first. -/
def Bound (before : List Node) (x : Ident) (c : UInt32) : Prop :=
  ∃ since value earlier, before = since ++ .letBind x value :: earlier ∧
    literalWord value = some c ∧ ∀ e, .assign x e ∉ since

/-- The name of which an expression takes remainders, and the divisors. -/
def remainders : Expr → Option (Ident × List UInt32)
  | .var x => some (x, [])
  | .binOp .mod e (.litU32 k) => (remainders e).map fun r => (r.1, k :: r.2)
  | _ => none

/-- The operands that the fold rewrites. -/
def rewrittenOperands : Node → List Expr
  | .asyncLoad .. | .asyncStore .. => []
  | n => ownOperands n

/-- The remainders that the fold elides in the operands of a statement are of
names that are below the divisor. -/
def Below (past : List Visit) (n : Node) (_ : List Node) (t : Thread) (_ : Memory) : Prop :=
  ∀ e ∈ rewrittenOperands n, e.Forall fun e => ∀ x ks c, remainders e = some (x, ks) →
    (∀ value, n ≠ .assign x value) → Bound (past.map (·.node)) x c → (∀ k ∈ ks, c < k) →
    ∀ k ∈ ks, ∀ w, t.vals x = some (.u32 w) → w < k

section Table

variable {host : Host} {lits : LocalLits} {t : Thread} {e e' : Expr}

theorem elideMod_eq_some (h : elideMod lits e = some e') :
    ∃ x n c, e = .binOp .mod (.var x) (.litU32 n) ∧ lits x = some c ∧ c < n ∧ e' = .var x := by
  unfold elideMod at h
  split at h
  · rename_i x n
    split at h
    · rename_i c hc
      split at h
      · rename_i hlt
        cases h
        exact ⟨x, n, c, rfl, hc, hlt, rfl⟩
      · cases h
    · cases h
  · cases h

theorem rewriteExprForMod_eq (lits : LocalLits) (e : Expr) : rewriteExprForMod lits e =
    replaced (elideMod lits) (mapOperands (rewriteExprForMod lits) e) :=
  rewriteExpr_eq e

theorem literalWord_of_rewriteExprForMod {c : UInt32}
    (h : literalWord (rewriteExprForMod lits e) = some c) : rewriteExprForMod lits e = e := by
  rw [rewriteExprForMod_eq, replaced] at h ⊢
  cases helide : elideMod lits (mapOperands (rewriteExprForMod lits) e) with
  | none =>
    rw [helide] at h
    cases e <;> first | rfl | cases h
  | some e' =>
    obtain ⟨x, n, c', -, -, -, rfl⟩ := elideMod_eq_some helide
    rw [helide] at h
    cases h

/-- The fold leaves an expression as it is built from its operands, or elides a
remainder. -/
theorem rewriteExprForMod_cases (lits : LocalLits) (e : Expr) :
    rewriteExprForMod lits e = mapOperands (rewriteExprForMod lits) e ∨
      ∃ left x n c, e = .binOp .mod left (.litU32 n) ∧ rewriteExprForMod lits left = .var x ∧
        lits x = some c ∧ c < n ∧ rewriteExprForMod lits e = .var x := by
  rw [rewriteExprForMod_eq lits e, replaced]
  cases helide : elideMod lits (mapOperands (rewriteExprForMod lits) e) with
  | none => exact .inl rfl
  | some e' =>
    obtain ⟨x, n, c, hmap, hc, hlt, rfl⟩ := elideMod_eq_some helide
    cases e with
    | binOp op left right =>
      obtain ⟨rfl, hleft, hright⟩ := Expr.binOp.inj hmap
      obtain rfl : right = .litU32 n := by
        rw [← hright, literalWord_of_rewriteExprForMod (c := n) (by rw [hright]; rfl)]
      exact .inr ⟨left, x, n, c, rfl, hleft, hc, hlt, rfl⟩
    | _ => cases hmap

/-- What becomes a name is that name, with the remainders of it that are elided. -/
theorem remainders_of_rewriteExprForMod {x : Ident} (h : rewriteExprForMod lits e = .var x) :
    ∃ ks, remainders e = some (x, ks) ∧ ∀ k ∈ ks, ∃ c, lits x = some c ∧ c < k := by
  have hcases := rewriteExprForMod_cases lits e
  induction e with
  | binOp op left right ih _ =>
    rcases hcases with heq | ⟨_, y, n, c, ⟨⟩, hleft, hc, hlt, heq⟩
    · cases heq.symm.trans h
    · cases heq.symm.trans h
      obtain ⟨ks, hks, hbelow⟩ := ih hleft (rewriteExprForMod_cases lits left)
      exact ⟨n :: ks, by simp [remainders, hks], List.forall_mem_cons.mpr ⟨⟨c, hc, hlt⟩, hbelow⟩⟩
  | var name =>
    cases h
    exact ⟨[], rfl, by simp⟩
  | _ =>
    rcases hcases with heq | ⟨_, y, n, c, heq, -⟩
    · cases heq.symm.trans h
    · cases heq

theorem nextLits_letBind (name : Ident) (value : Expr) : nextLits lits (.letBind name value) =
    (literalWord (rewriteExprForMod lits value)).elim lits fun c => update lits name (some c) := by
  simp only [nextLits]
  generalize rewriteExprForMod lits value = e
  cases e with
  | litI32 c =>
    simp only [literalWord]
    split_ifs <;> rfl
  | _ => rfl

/-- A name is remembered at its `let`, or was before and is not assigned. -/
theorem nextLits_eq_some {n : Node} {x : Ident} {c : UInt32} (h : nextLits lits n x = some c) :
    (∃ value, n = .letBind x value ∧ literalWord value = some c) ∨
      lits x = some c ∧ ∀ value, n ≠ .assign x value := by
  cases n with
  | letBind name value =>
    rw [nextLits_letBind] at h
    cases hword : literalWord (rewriteExprForMod lits value) with
    | none =>
      rw [hword] at h
      exact .inr ⟨h, fun _ heq => by cases heq⟩
    | some word =>
      rw [hword, Option.elim_some] at h
      by_cases hname : x = name
      · subst hname
        rw [update_self] at h
        cases h
        exact .inl ⟨value, rfl, literalWord_of_rewriteExprForMod hword ▸ hword⟩
      · rw [update_of_ne hname] at h
        exact .inr ⟨h, fun _ heq => by cases heq⟩
  | assign name value =>
    have hname : x ≠ name := by
      rintro rfl
      simp [nextLits] at h
    simp only [nextLits, update_of_ne hname] at h
    exact .inr ⟨h, fun _ heq => hname (Node.assign.inj heq).1.symm⟩
  | _ => exact .inr ⟨h, fun _ heq => by cases heq⟩

/-- The table of the fold after statements of a body. -/
def table (before : List Node) : LocalLits :=
  before.foldr (fun n lits => nextLits lits n) lookbehind.init

theorem bound_of_table {before : List Node} {x : Ident} {c : UInt32}
    (h : table before x = some c) : Bound before x c := by
  induction before with
  | nil => cases h
  | cons n before ih =>
    rcases nextLits_eq_some h with ⟨value, rfl, hvalue⟩ | ⟨hold, hne⟩
    · exact ⟨[], value, before, rfl, hvalue, by simp⟩
    · obtain ⟨since, value, earlier, rfl, hvalue, hsince⟩ := ih hold
      refine ⟨n :: since, value, earlier, rfl, hvalue, fun e hmem => ?_⟩
      rcases List.mem_cons.mp hmem with heq | hmem
      · exact hne e heq.symm
      · exact hsince e hmem

/-! ## Soundness -/

theorem evalBinop_mod_of_lt (fl : Floats) {c n : UInt32} (h : c < n) :
    evalBinop fl .mod (.u32 c) (.u32 n) = .ok (.u32 c) := by
  have hn : n ≠ 0 := by
    rintro rfl
    exact UInt32.not_lt_zero h
  have hmod : c % n = c := UInt32.mod_eq_of_lt h
  show (remU32 c n).map Value.u32 = _
  rw [remU32, if_neg hn, hmod]
  rfl

/-- The remainder of a word below the divisor is the word, and other values have
no remainder by a word. -/
theorem refines_rewriteExprForMod (h : e.Forall fun e => ∀ x ks c, remainders e = some (x, ks) →
      lits x = some c → (∀ k ∈ ks, c < k) → ∀ k ∈ ks, ∀ w, t.vals x = some (.u32 w) → w < k) :
    Refines (evalExpr host [t.lane] e t.lane)
      (evalExpr host [t.lane] (rewriteExprForMod lits e) t.lane) := by
  refine refines_rewriteExpr operands_of_forall (fun seen e he => ?_) h
  change Refines (evalExpr host seen (mapOperands (rewriteExprForMod lits) e) t.lane)
    (evalExpr host seen (rewriteExprForMod lits e) t.lane)
  rcases rewriteExprForMod_cases lits e with heq | ⟨left, x, n, c, rfl, hleft, hc, hlt, heq⟩
  · rw [heq]
    exact .rfl
  obtain ⟨ks, hks, hbelow⟩ := remainders_of_rewriteExprForMod hleft
  have hwhole : ∀ k ∈ n :: ks, c < k := by
    refine List.forall_mem_cons.mpr ⟨hlt, fun k hk => ?_⟩
    obtain ⟨c', hc', hlt'⟩ := hbelow k hk
    cases hc.symm.trans hc'
    exact hlt'
  have hx := he.1 x (n :: ks) c (by simp [remainders, hks]) hc hwhole n (by simp)
  rw [heq, mapOperands, hleft]
  intro m r hrun
  obtain ⟨v, m₁, hv, hrun⟩ := bind_eq_ok.mp hrun
  obtain ⟨w, m₂, hw, hop⟩ := bind_eq_ok.mp hrun
  cases hw
  obtain ⟨hop, hm⟩ := lift_eq_ok.mp (show Eval.lift _ m₁ = .ok (r.1, r.2) from hop)
  have hvals : t.vals x = some v := (orFail_eq_ok.mp hv).1
  cases v with
  | u32 word =>
    rw [evalBinop_mod_of_lt _ (hx word hvals)] at hop
    cases r
    cases hop
    cases hm
    exact hv
  | _ => cases hop

end Table

theorem edits_lookbehind (ρ : Route) : Edits ρ Below (fun before => lookbehind.nodes (table before))
    fun before n => mapOwn (lookbehind.expr (table before) n) n where
  nil _ := rfl
  cons before n rest := by
    have hexpr : lookbehind.expr (table before) (mapBody (lookbehind.nodes lookbehind.init) n) =
        lookbehind.expr (table before) n := by cases n <;> rfl
    change lookbehind.node (table before) n :: _ = _
    rw [Walk.node_eq]
    exact congrArg₂ _ (congrArg (mapOwn · _) hexpr.symm) rfl
  hasBody before n := by cases n <;> rfl
  barriers before n := by cases n <;> rfl
  step {past n rest t m} hP π r hrun := by
    refine refines_mapOwn (fun e he => ?_) π m r hrun
    have hknown : ∀ {lits : LocalLits}, (∀ x c, lits x = some c →
        table (past.map (·.node)) x = some c ∧ ∀ value, n ≠ .assign x value) →
        e ∈ rewrittenOperands n → Refines (evalExpr ρ.host [t.lane] e t.lane)
          (evalExpr ρ.host [t.lane] (rewriteExprForMod lits e) t.lane) := by
      intro lits hlits hmem
      refine refines_rewriteExprForMod ((hP e hmem).imp fun e he x ks c hks hc => ?_)
      obtain ⟨htable, hne⟩ := hlits x c hc
      exact he x ks c hks hne (bound_of_table htable)
    cases n with
    | assign name value =>
      refine hknown (fun x c hx => ?_) he
      have hne : x ≠ name := by
        rintro rfl
        simp at hx
      rw [update_of_ne hne] at hx
      exact ⟨hx, fun _ heq => hne (Node.assign.inj heq).1.symm⟩
    | asyncLoad | asyncStore => exact .rfl
    | _ => exact hknown (fun x c hx => ⟨hx, fun _ heq => by cases heq⟩) he

/-- Where the names whose remainders are elided are below the divisors when they
are reached, an invocation still ends, and leaves the same. -/
theorem modElision_preserves {host : Host} (hids : Function.Injective host.nodeId)
    {debugIds : InvocationIds → String} {p : Program} {ids : InvocationIds} {index : UInt32}
    {m m' : Memory}
    (hbelow : AlongNodes host Below [] p.entry (Invocation.start ids index).thread m)
    (hrun : RunsAlone host debugIds p.entry ids index m m') :
    RunsAlone host debugIds (foldModLookbehind p.entry) ids index m m' :=
  Edits.runsAlone (fun ρ _ => edits_lookbehind ρ) hids hbelow hrun

/-- Binds a name to 1, assigns it in a branch, and stores its remainder by 4. -/
def assignedInBranch (word : UInt32) : Program :=
  wordProgram [.letBind "x" (.litU32 1), .ifThen (.litBool true) [.assign "x" (.litU32 word)] [],
    .store "out" (.litU32 0) (.binOp .mod (.var "x") (.litU32 4))]

-- The remainders of a statement, spelled out.
attribute [local simp] Below rewrittenOperands ownOperands Expr.Forall remainders

theorem modElision_preserves_assignedInBranch : ∃ m',
    RunsFirst (assignedInBranch 3) [0] [0] m' ∧
      foldModLookbehind (assignedInBranch 3).entry = [.region rootRegionGenerator none
        [.letBind "x" (.litU32 1), .ifThen (.litBool true) [.assign "x" (.litU32 3)] [],
          .store "out" (.litU32 0) (.var "x")]] ∧
      RunsAlone integerHost (fun _ => "") (foldModLookbehind (assignedInBranch 3).entry) firstIds 0
        (twoBuffers [0] [0]) m' := by
  obtain ⟨m', hrun⟩ : ∃ m', RunsFirst (assignedInBranch 3) [0] [0] m' :=
    ⟨_, runsFirst ⟨_, rfl, rfl⟩⟩
  refine ⟨m', hrun, rfl, modElision_preserves Function.injective_id ?_ hrun⟩
  -- Only the last statement takes a remainder, of a name that is 3 there.
  refine ⟨by simp, ⟨by simp, trivial, fun t₁ m₁ h₁ => ?_⟩, fun _ _ _ => trivial⟩
  cases h₁
  refine ⟨by simp, fun v m₂ h₂ => ?_, fun t₃ m₃ h₃ => ?_⟩
  · cases h₂
    exact ⟨by simp, trivial, fun _ _ _ => trivial⟩
  · cases h₃
    refine ⟨?_, trivial, fun _ _ _ => trivial⟩
    simp only [Below, rewrittenOperands, ownOperands, List.forall_mem_cons, Expr.Forall, remainders]
    refine ⟨by simp, ⟨fun x ks c h _ _ _ k hk w hw => ?_, fun x ks c h _ _ _ k hk => ?_, by simp⟩,
      by simp⟩
    · cases h
      cases hw
      rw [List.mem_singleton.mp hk]
      decide
    · cases h
      cases hk

theorem modElision_changes_contents : Validate.validate none (assignedInBranch 10) = [] ∧
    Changes (assignedInBranch 10)
      { assignedInBranch 10 with entry := foldModLookbehind (assignedInBranch 10).entry } [0] [0]
      "out" :=
  ⟨by decide, changes_of_contents ⟨_, rfl, rfl⟩ (by decide)⟩

end Vyre.ModLookbehind
