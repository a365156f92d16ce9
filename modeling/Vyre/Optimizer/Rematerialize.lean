import Vyre.Optimizer.LoopSubstitution

/-!
# Declarations of leaves

`rematerialize_cheap_let.rs`: a leaf stands for the name it is declared for in the
rest of the body, and the declaration goes.
-/

namespace Vyre.Rematerialize

open Reference Reference.Eval StateExcept NodeMap LoopSubstitution

def isCheapLeaf : Expr → Bool
  | .litU32 _ | .litI32 _ | .litF32 _ | .litBool _ | .var _ | .bufLen _ | .invocationId _
  | .workgroupId _ | .localId _ | .subgroupLocalId | .subgroupSize => true
  | _ => false

/-- `node_reassigns` of a statement of the tail. -/
def tailReassigns (tail : List Node) (name : Ident) : Bool := bodyRebindsVar tail name

def canRematerializeLet (name : Ident) (value : Expr) (tail : List Node) : Bool :=
  !tailReassigns tail name && match value with
    | .var source => !tailReassigns tail source
    | _ => true

/-- The loop of `rewrite_sequence`, from the statement it is at. -/
def sweep : List Node → List Node
  | [] => []
  | .letBind name value :: tail =>
      if isCheapLeaf value && canRematerializeLet name value tail then
        sweep (substituteNodes false name value tail)
      else .letBind name value :: sweep tail
  | n :: tail => n :: sweep tail
termination_by ns => ns.length
decreasing_by all_goals simp [substituteNodes_eq]

section Sound

variable {ρ : Route} {host : Host} {ns ns' : List Node}

theorem sameOutside_cons {π : Plan} {n : Node}
    (h : SameOutside ρ (π.after n) (π.after n) ns ns') :
    SameOutside ρ π π (n :: ns) (n :: ns') := by
  intro t
  have hn : Sim True Eq (fun u u' => u = u' ∧ Kept (fun _ => False) t u) (runNode (ρ.on π) n t)
      (runNode (ρ.on π) n t) :=
    (Sim.refines_iff.mp .rfl).imp
      fun u u' ⟨m, m', hrun⟩ heq => ⟨heq, keepsBound_node ρ π n t m u m' hrun⟩
  refine hn.andThen ?_
  rintro u _ ⟨rfl, hu⟩
  exact h.within hu.bound

theorem bodyRebindsVar_of_mem {name : Ident} (h : bodyRebindsVar ns name = false) {n : Node}
    (hn : n ∈ ns) :
    bodyRebindsVar [n] name = false := by
  simp only [bodyRebindsVar, anyNodes, anyNodes_eq_false h n hn, Bool.or_false]

theorem assignsIn_of_rebinds {names : Ident → Prop} {n : Node}
    (h : ∀ key, names key → bodyRebindsVar [n] key = false) :
    n.Forall (fun _ => True) (AssignsIn fun key => ¬ names key) := by
  have hexpr : ∀ e : Expr, e.Forall fun _ => True := Expr.forall_of_all fun _ => trivial
  have hbody : ∀ {ns : List Node}, (∀ n ∈ ns, (∀ key, names key → bodyRebindsVar [n] key = false) →
      n.Forall (fun _ => True) (AssignsIn fun key => ¬ names key)) →
      (∀ key, names key → bodyRebindsVar ns key = false) →
      Node.ForallList (fun _ => True) (AssignsIn fun key => ¬ names key) ns :=
    fun ih h => Node.forallList_iff.mpr fun n hn => ih n hn fun key hkey =>
      bodyRebindsVar_of_mem (h key hkey) hn
  induction n with simp only [bodyRebindsVar, anyNodes, anyNode, Bool.or_false] at h
  | assign name value => exact ⟨fun hname => by simpa using h name hname, hexpr _⟩
  | ifThen cond thenNodes otherwise ihThen ihElse =>
    simp only [Option.getD_none, Bool.or_eq_false_iff] at h
    exact ⟨trivial, hexpr _, hbody ihThen fun key hkey => (h key hkey).1,
      hbody ihElse fun key hkey => (h key hkey).2⟩
  | loop var lo hi body ih =>
    refine ⟨trivial, hexpr _, hexpr _, hbody ih fun key hkey => ?_⟩
    have := h key hkey
    split_ifs at this
    · cases this
    · exact this
  | block body ih | region _ _ body ih => exact ⟨trivial, hbody ih h⟩
  | _ => simp [Node.Forall, AssignsIn, hexpr]

/-- A leaf has its value in every environment with the ids and the source of a
copy, and every memory of the same shape. -/
theorem evalExpr_leaf {value : Expr} (hleaf : isCheapLeaf value = true) {seen seen' : List Lane}
    {lane lane' : Lane} {m m₁ k : Memory} {v : Value}
    (h : evalExpr host seen value lane m = .ok (v, m₁)) (hids : lane'.ids = lane.ids)
    (hvar : ∀ x, value = .var x → lane'.locals x = lane.locals x) (hk : SameShape m k) :
    m₁ = m ∧ evalExpr host seen' value lane' k = .ok (v, k) := by
  cases value with
  | var x =>
    obtain ⟨hx, rfl⟩ := orFail_eq_ok.mp (show orFail (lane.locals x) _ m = .ok (v, m₁) from h)
    exact ⟨rfl, orFail_eq_ok.mpr ⟨(hvar x rfl).trans hx, rfl⟩⟩
  | bufLen buffer =>
    obtain ⟨_, _, hrun, rfl, rfl, rfl⟩ := respects_bufLen hk buffer m k v m₁ ⟨rfl, rfl⟩ h
    exact ⟨rfl, hrun⟩
  | invocationId axis | workgroupId axis | localId axis =>
    obtain ⟨haxis, rfl⟩ := lift_eq_ok.mp h
    exact ⟨rfl, lift_eq_ok.mpr ⟨hids ▸ haxis, rfl⟩⟩
  | litU32 | litI32 | litF32 | litBool =>
    cases h
    exact ⟨rfl, rfl⟩
  | subgroupLocalId | subgroupSize => cases h
  | _ => cases hleaf

theorem sameOutside_dropLet (π : Plan) {name : Ident} {value : Expr}
    (hleaf : isCheapLeaf value = true) (hcan : canRematerializeLet name value ns = true) :
    SameOutside ρ π π (.letBind name value :: ns) (substituteNodes false name value ns) := by
  rintro t m _ out m' rfl hrun
  obtain ⟨_, m₁, hlet, hrest⟩ := bind_eq_ok.mp hrun
  obtain ⟨v, hv, hnone, rfl⟩ := runNode_letBind_eq_ok.mp hlet
  let h : Held := ⟨t.ids, t.index, fun key => key = name ∨ value = .var key,
    fun key => ¬ (key = name ∨ value = .var key), name, .inl rfl, v, none⟩
  -- The source of a copy is another name: this one is not bound yet.
  have hsource : ∀ x, value = .var x → t.vals x = some v ∧ x ≠ name := by
    rintro x rfl
    obtain ⟨hx, -⟩ := orFail_eq_ok.mp hv
    exact ⟨hx, by rintro rfl; cases hnone.symm.trans hx⟩
  have hgives : ∀ {u u' k} (seen : List Lane), Beside h u u' → SameShape m k →
      m₁ = m ∧ evalExpr ρ.host seen value u'.lane k = .ok (v, k) := by
    intro u u' k seen hb hk
    refine evalExpr_leaf hleaf hv hb.ids.2 (fun x hx => ?_) hk
    obtain ⟨hxv, hne⟩ := hsource x hx
    exact (hb.same x hne).1.trans ((hb.held x (.inr hx)).1.trans hxv.symm)
  have hstart : Beside h (t.set name v) t := by
    refine ⟨⟨rfl, rfl⟩, ⟨rfl, rfl⟩, rfl, fun key hkey => ⟨?_, (absurd hkey ·)⟩, hnone,
      fun key hne => ?_⟩
    · rcases hkey with rfl | hkey
      · simp [h]
      · rw [Thread.set_vals, if_neg (hsource key hkey).2, (hsource key hkey).1]
    · rw [Thread.set_vals, if_neg hne]
      exact ⟨rfl, rfl⟩
  have hrebinds : ∀ key, h.names key → bodyRebindsVar ns key = false := by
    rintro key (rfl | rfl) <;> simp_all [canRematerializeLet, tailReassigns]
  obtain rfl := (hgives [] hstart rfl).1
  have hsim : Sim True (Shaped m₁) (Beside h) (runNodes (ρ.on π) ns (t.set name v))
      (runNodes (ρ.on π) (substituteNodes false name value ns) t) :=
    sim_substituteNodes (fun seen hb hk => (hgives seen hb hk).2)
      (fun n hn => assignsIn_of_rebinds fun key hkey =>
        bodyRebindsVar_of_mem (hrebinds key hkey) hn)
      π hstart
  obtain ⟨out', _, hrun', hout, rfl, -⟩ :=
    (hsim.imp fun u u' _ hu => hu.leave_eq hnone) m₁ m₁ out m' ⟨rfl, rfl⟩ hrest
  exact ⟨out', m', hrun', hout, rfl⟩

theorem sameOutside_sweep (ns : List Node) (π : Plan) : SameOutside ρ π π ns (sweep ns) := by
  fun_induction sweep ns generalizing π with
  | case1 => exact fun t => .pure rfl
  | case2 name value tail h ih =>
    obtain ⟨hleaf, hcan⟩ := Bool.and_eq_true_iff.mp h
    exact fun t => (sameOutside_dropLet π hleaf hcan t).trans (ih π t) Eq.trans
  | case3 name value tail h ih => exact sameOutside_cons (ih _)
  | case4 n tail hn ih => exact sameOutside_cons (ih _)

theorem containsBarrier_sweep (ns : List Node) :
    containsBarrier (sweep ns) = containsBarrier ns := by
  fun_induction sweep ns with
  | case1 => rfl
  | case2 name value tail h ih => rw [ih, containsBarrier_substituteNodes, containsBarrier]; rfl
  | case3 name value tail h ih | case4 n tail hn ih => rw [containsBarrier, containsBarrier, ih]

theorem bodyRefines_sweep (ρ : Route) (ns : List Node) : BodyRefines ρ ns (sweep ns) :=
  ⟨fun hb => containsBarrier_sweep ns ▸ hb, fun π => ⟨π, sameOutside_sweep ns π⟩⟩

end Sound

section Runs

variable {host : Host} {debugIds : InvocationIds → String} {ids : InvocationIds} {index : UInt32}
  {m m' : Memory}

end Runs

/-- Stores the length of `b` under a name. -/
def namedLength : List Node := [.letBind "x" (.bufLen "b"), .store "out" (.litU32 0) (.var "x")]

theorem transform_wordProgram {ns ns' : List Node} (hns : rewriteNodes sweep ns = ns)
    (h : sweep ns = ns') : transform sweep (wordProgram ns) = wordProgram ns' := by
  have hroot : ∀ body, sweep [.region rootRegionGenerator none body] =
      [.region rootRegionGenerator none body] := fun body => by simp [sweep]
  show ({ wordProgram ns with entry := _ } : Program) = _
  simp only [wordProgram, Program.wrapped, Program.newRaw, rewriteNodes, rewriteNode, hns, h, hroot]

theorem sweep_namedLength : sweep namedLength = [.store "out" (.litU32 0) (.bufLen "b")] := by
  simp [namedLength, sweep, isCheapLeaf, canRematerializeLet, tailReassigns, bodyRebindsVar,
    anyNodes, anyNode, substituteNodes, substituteNode]
  exact ⟨rfl, rfl⟩

/-- Divides by a name that is zero. -/
def divideByName : List Node :=
  [.letBind "z" (.litU32 0), .store "out" (.litU32 0) (.binOp .div (.litU32 10) (.var "z"))]

theorem sweep_divideByName :
    sweep divideByName = [.store "out" (.litU32 0) (.binOp .div (.litU32 10) (.litU32 0))] := by
  simp [divideByName, sweep, isCheapLeaf, canRematerializeLet, tailReassigns, bodyRebindsVar,
    anyNodes, anyNode, substituteNodes, substituteNode]
  exact ⟨rfl, rfl⟩

end Vyre.Rematerialize
