import Vyre.Reference.Machine
import Vyre.Validate.Flow

/-!
# Scopes without uniformity

Types and mutability of a binding never change, only its uniformity does. With
uniformity erased the scope that reaches a statement is a matter of nesting and
of the bindings before it, and a body leaves it alone: `Under` says what holds of
each statement, by its label, in the erased scope that reaches it.
-/

namespace Vyre.Soundness

open Validate Reference List

/-- A scope with every binding marked as possibly different between lanes. -/
def erase (scope : Scope) : Scope :=
  fun name => (scope name).map fun b => { b with uniform := false }

section Under

variable (buffers : Buffers)

def after (scope : Scope) : Node → Scope
  | .letBind name value =>
      setBinding scope name (some ⟨(exprType buffers scope value).getD .u32, true, false⟩)
  | _ => scope

mutual

/-- `Q` holds of the statement and of the statements inside it, each with its
label and the erased scope that reaches it. -/
def Under (Q : Nat → Scope → Node → Prop) (scope : Scope) (label : Nat) : Node → Prop
  | .ifThen cond thenNodes otherwise =>
      Q label scope (.ifThen cond thenNodes otherwise) ∧
      UnderAll Q scope (label + 1) thenNodes ∧
      UnderAll Q scope (label + 1 + labelsList thenNodes) otherwise
  | .loop var lo hi body =>
      Q label scope (.loop var lo hi body) ∧
      UnderAll Q (setBinding scope var (some (loopBinding false))) (label + 1) body
  | .block body => Q label scope (.block body) ∧ UnderAll Q scope label body
  | .region generator sourceRegion body =>
      Q label scope (.region generator sourceRegion body) ∧ UnderAll Q scope (label + 1) body
  | n => Q label scope n

def UnderAll (Q : Nat → Scope → Node → Prop) (scope : Scope) (label : Nat) : List Node → Prop
  | [] => True
  | n :: ns => Under Q scope label n ∧ UnderAll Q (after buffers scope n) (label + labels n) ns

end

end Under

/-! ## Erasing -/

theorem exprType_erase (buffers : Buffers) (scope : Scope) (e : Expr) :
    exprType buffers (erase scope) e = exprType buffers scope e := by
  induction e with
  | var name =>
    rw [exprType, erase, Option.map_map]
    rfl
  | _ => simp only [exprType, *]

variable {options : Options}

theorem validateArgs_congr {buffers : Buffers} {scope scope' : Scope}
    {args : List Expr}
    (h : ∀ arg ∈ args, ∀ depth, validateExpr options buffers scope arg depth =
      validateExpr options buffers scope' arg depth) (depth : Nat) :
    validateArgs options buffers scope args depth =
      validateArgs options buffers scope' args depth := by
  induction args with
  | nil => rfl
  | cons arg args ih =>
    rw [validateArgs, validateArgs, h arg (by simp), ih fun a ha => h a (mem_cons_of_mem arg ha)]

theorem validateExpr_erase (options : Options) (buffers : Buffers) (scope : Scope) (e : Expr)
    (depth : Nat) :
    validateExpr options buffers (erase scope) e depth =
      validateExpr options buffers scope e depth := by
  induction e generalizing depth with
  | var name => simp [validateExpr, erase]
  | call opId args ih => simp only [validateExpr, validateArgs_congr ih, exprType_erase]
  | atomic _ _ _ expected _ _ ihi ihe ihv =>
    have hexpected : validateExpected options buffers (erase scope) expected (depth + 1)
        = validateExpected options buffers scope expected (depth + 1) := by
      cases expected with
      | none => rfl
      | some x => exact ihe x rfl (depth + 1)
    simp only [validateExpr, ihi, ihv, exprType_erase, hexpected]
  | _ => simp only [validateExpr, exprType_erase, *]

theorem erase_setBinding (scope : Scope) (name : Ident) (binding : Binding) :
    erase (setBinding scope name (some binding))
      = setBinding (erase scope) name (some { binding with uniform := false }) := by
  funext key
  by_cases h : key = name <;> simp [erase, setBinding, h]

theorem erase_assignScope (scope : Scope) (name : Ident) (value : Expr) :
    erase (assignScope scope name value) = erase scope := by
  unfold assignScope
  cases h : scope name with
  | none => rfl
  | some binding =>
    funext key
    by_cases hk : key = name <;> simp [erase, setBinding, hk, h]

section Checked

variable {buffers : Buffers} {Q : Bool → Scope → NodeAccesses → Node → Prop}

/-- Bodies change nothing but the uniformity of outer bindings. -/
def KeepsOuter (buffers : Buffers) (Q : Bool → Scope → NodeAccesses → Node → Prop)
    (ns : List Node) : Prop :=
  ∀ divergent scope seen, CheckedAll buffers Q divergent scope seen ns →
    ∀ key, (scope key).isSome → erase (flowAll buffers divergent scope ns) key = erase scope key

variable {scope : Scope}

theorem erase_exitScope {ns : List Node} (h : KeepsOuter buffers Q ns) {divergent : Bool}
    {seen : NodeAccesses} (hc : CheckedAll buffers Q divergent scope seen ns) :
    erase (exitScope scope (flowAll buffers divergent scope ns)) = erase scope := by
  funext key
  by_cases hk : (scope key).isSome
  · have := h divergent scope seen hc key hk
    simpa [erase, exitScope, hk] using this
  · have hnone : scope key = none := by simpa using hk
    simp [erase, exitScope, hnone]

structure BindsFresh (Q : Bool → Scope → NodeAccesses → Node → Prop) : Prop where
  letBind : ∀ {divergent scope seen name value},
    Q divergent scope seen (.letBind name value) → scope name = none
  loop : ∀ {divergent scope seen var lo hi body},
    Q divergent scope seen (.loop var lo hi body) → scope var = none

def ErasesTo (buffers : Buffers) (Q : Bool → Scope → NodeAccesses → Node → Prop) (n : Node) :
    Prop :=
  ∀ divergent scope seen, Checked buffers Q divergent scope seen n →
    erase (flow buffers divergent scope n) = after buffers (erase scope) n

theorem ne_of_fresh {name key : Ident} (hfresh : scope name = none) (hk : (scope key).isSome) :
    key ≠ name := by
  rintro rfl
  rw [hfresh] at hk
  cases hk

theorem keepsOuter_of (hQ : BindsFresh Q) (ns : List Node)
    (h : ∀ n ∈ ns, ErasesTo buffers Q n) : KeepsOuter buffers Q ns := by
  induction ns with
  | nil => intro divergent scope seen _ key _; rfl
  | cons n ns ih =>
    intro divergent scope seen hc key hk
    obtain ⟨hn, hrest⟩ := hc
    rw [flowAll, ih (fun m hm => h m (mem_cons_of_mem n hm)) divergent _ _ hrest key
      (by rw [isSome_flow, hk]; rfl), h n (by simp) divergent scope seen hn]
    cases n with
    | letBind name value => simp [after, setBinding, ne_of_fresh (hQ.letBind hn) hk]
    | _ => rfl

theorem erasesTo (hQ : BindsFresh Q) (n : Node) : ErasesTo buffers Q n := by
  induction n with
  | letBind name value =>
    intro divergent scope seen _
    rw [flow, after, erase_setBinding, exprType_erase]
    rfl
  | assign name value => exact fun _ scope _ _ => erase_assignScope scope name value
  | ifThen cond thenNodes otherwise iht iho =>
    intro divergent scope seen hchecked
    obtain ⟨-, ht, ho⟩ := hchecked
    rw [flow, erase_exitScope (keepsOuter_of hQ otherwise iho) ho,
      erase_exitScope (keepsOuter_of hQ thenNodes iht) ht]
    rfl
  | loop var lo hi body ih =>
    intro divergent scope seen hchecked
    obtain ⟨hn, hb⟩ := hchecked
    funext key
    by_cases hk : (scope key).isSome
    · have hne := ne_of_fresh (hQ.loop hn) hk
      have := keepsOuter_of hQ body ih _ _ _ hb key
      simp only [erase, loopScope, setBinding, hne] at this
      simpa [flow, exitScope, erase, after, hk, loopScope] using this
    · have hnone : scope key = none := by simpa using hk
      simp [flow, exitScope, erase, after, hnone]
  | block body ih | region _ _ body ih =>
    intro divergent scope seen hchecked
    obtain ⟨-, hb⟩ := hchecked
    rw [flow, erase_exitScope (keepsOuter_of hQ body ih) hb]
    rfl
  | _ => exact fun _ _ _ _ => rfl

variable {Q' : Nat → Scope → Node → Prop}

theorem underAll_of (hQ : BindsFresh Q) (ns : List Node)
    (h : ∀ n ∈ ns, ∀ divergent scope seen label, Checked buffers Q divergent scope seen n →
      Under buffers Q' (erase scope) label n)
    {divergent : Bool} {seen : NodeAccesses} (label : Nat)
    (hc : CheckedAll buffers Q divergent scope seen ns) :
    UnderAll buffers Q' (erase scope) label ns := by
  induction ns generalizing scope seen label with
  | nil => trivial
  | cons n ns ih =>
    obtain ⟨hn, hns⟩ := hc
    refine ⟨h n (by simp) _ _ _ label hn, ?_⟩
    rw [← erasesTo hQ n _ _ _ hn]
    exact ih (fun m hm => h m (mem_cons_of_mem n hm)) _ hns

theorem under_of_checked (hQ : BindsFresh Q)
    (himp : ∀ divergent scope seen label n, Q divergent scope seen n → Q' label (erase scope) n)
    (n : Node) (divergent : Bool) (scope : Scope) (seen : NodeAccesses) (label : Nat)
    (hc : Checked buffers Q divergent scope seen n) : Under buffers Q' (erase scope) label n := by
  induction n generalizing divergent scope seen label with
  | ifThen cond thenNodes otherwise iht iho =>
    obtain ⟨hn, ht, ho⟩ := hc
    refine ⟨himp _ _ _ _ _ hn, underAll_of hQ thenNodes iht _ ht, ?_⟩
    rw [← erase_exitScope (keepsOuter_of hQ thenNodes fun m _ => erasesTo hQ m) ht]
    exact underAll_of hQ otherwise iho _ ho
  | loop var lo hi body ih =>
    obtain ⟨hn, hb⟩ := hc
    refine ⟨himp _ _ _ _ _ hn, ?_⟩
    have := underAll_of hQ body ih (label + 1) hb
    rwa [loopScope, erase_setBinding] at this
  | block body ih | region _ _ body ih =>
    exact ⟨himp _ _ _ _ _ hc.1, underAll_of hQ body ih _ hc.2⟩
  | _ => exact himp _ _ _ _ _ hc

end Checked

/-! ## The statements of a program -/

section Visits

variable (buffers : Buffers)

mutual

/-- The statement and those inside it, with their labels and the erased scopes
that reach them. -/
def visits (scope : Scope) (label : Nat) : Node → List (Nat × Scope × Node)
  | .ifThen cond thenNodes otherwise =>
      (label, scope, .ifThen cond thenNodes otherwise) ::
        (visitsAll scope (label + 1) thenNodes ++
          visitsAll scope (label + 1 + labelsList thenNodes) otherwise)
  | .loop var lo hi body => (label, scope, .loop var lo hi body) ::
      visitsAll (setBinding scope var (some (loopBinding false))) (label + 1) body
  | .block body => (label, scope, .block body) :: visitsAll scope label body
  | .region generator sourceRegion body =>
      (label, scope, .region generator sourceRegion body) :: visitsAll scope (label + 1) body
  | n => [(label, scope, n)]

def visitsAll (scope : Scope) (label : Nat) : List Node → List (Nat × Scope × Node)
  | [] => []
  | n :: ns => visits scope label n ++ visitsAll (after buffers scope n) (label + labels n) ns

end

variable {buffers} {Q : Nat → Scope → Node → Prop}

theorem underAll_iff_of (ns : List Node)
    (h : ∀ n ∈ ns, ∀ scope label, Under buffers Q scope label n ↔
      ∀ v ∈ visits buffers scope label n, Q v.1 v.2.1 v.2.2) (scope : Scope) (label : Nat) :
    UnderAll buffers Q scope label ns ↔
      ∀ v ∈ visitsAll buffers scope label ns, Q v.1 v.2.1 v.2.2 := by
  induction ns generalizing scope label with
  | nil => simp [UnderAll, visitsAll]
  | cons n ns ih =>
    rw [UnderAll, visitsAll, forall_mem_append, h n (by simp),
      ih fun m hm => h m (mem_cons_of_mem n hm)]

theorem under_iff (n : Node) (scope : Scope) (label : Nat) :
    Under buffers Q scope label n ↔ ∀ v ∈ visits buffers scope label n, Q v.1 v.2.1 v.2.2 := by
  induction n generalizing scope label with
  | ifThen cond thenNodes otherwise iht iho =>
    rw [Under, visits, forall_mem_cons, forall_mem_append, underAll_iff_of thenNodes iht,
      underAll_iff_of otherwise iho]
  | loop var lo hi body ih | block body ih | region _ _ body ih =>
    rw [Under, visits, forall_mem_cons, underAll_iff_of body ih]
  | _ => simp [Under, visits]

theorem underAll_iff (ns : List Node) (scope : Scope) (label : Nat) :
    UnderAll buffers Q scope label ns ↔
      ∀ v ∈ visitsAll buffers scope label ns, Q v.1 v.2.1 v.2.2 :=
  underAll_iff_of ns (fun n _ => under_iff n) scope label

variable {n : Node} {scope : Scope} {label : Nat}

theorem Under.self (h : Under buffers Q scope label n) : Q label scope n := by
  cases n <;> first | exact h.1 | exact h

theorem UnderAll.imp₂ {Q' R : Nat → Scope → Node → Prop}
    (himp : ∀ label scope n, Q label scope n → Q' label scope n → R label scope n) {ns : List Node}
    (h₁ : UnderAll buffers Q scope label ns) (h₂ : UnderAll buffers Q' scope label ns) :
    UnderAll buffers R scope label ns := by
  rw [underAll_iff] at h₁ h₂ ⊢
  exact fun v hv => himp _ _ _ (h₁ v hv) (h₂ v hv)

theorem forall_of_mem_visitsAll {P : Expr → Prop} {R : Node → Prop} (ns : List Node)
    (h : ∀ n ∈ ns, ∀ scope label, n.Forall P R → ∀ v ∈ visits buffers scope label n,
      v.2.2.Forall P R) (hns : Node.ForallList P R ns) :
    ∀ v ∈ visitsAll buffers scope label ns, v.2.2.Forall P R := by
  induction ns generalizing scope label with
  | nil => simp [visitsAll]
  | cons n ns ih =>
    exact forall_mem_append.mpr ⟨h n (by simp) scope label hns.1,
      ih (fun m hm => h m (mem_cons_of_mem n hm)) hns.2⟩

theorem forall_of_mem_visits {P : Expr → Prop} {R : Node → Prop} (n : Node) (scope : Scope)
    (label : Nat) (h : n.Forall P R) : ∀ v ∈ visits buffers scope label n, v.2.2.Forall P R := by
  induction n generalizing scope label with
  | ifThen cond thenNodes otherwise iht iho =>
    exact forall_mem_cons.mpr ⟨h, forall_mem_append.mpr
      ⟨forall_of_mem_visitsAll thenNodes iht h.2.2.1,
        forall_of_mem_visitsAll otherwise iho h.2.2.2⟩⟩
  | loop var lo hi body ih =>
    exact forall_mem_cons.mpr ⟨h, forall_of_mem_visitsAll body ih h.2.2.2⟩
  | block body ih | region _ _ body ih =>
    exact forall_mem_cons.mpr ⟨h, forall_of_mem_visitsAll body ih h.2⟩
  | _ => exact forall_mem_singleton.mpr h

/-! A statement that takes a label is determined by it. -/

theorem range_of_mem_visitsAll (ns : List Node)
    (h : ∀ n ∈ ns, ∀ scope label, ∀ v ∈ visits buffers scope label n,
      label ≤ v.1 ∧ v.1 + labels v.2.2 ≤ label + labels n) :
    ∀ v ∈ visitsAll buffers scope label ns,
      label ≤ v.1 ∧ v.1 + labels v.2.2 ≤ label + labelsList ns := by
  induction ns generalizing scope label with
  | nil => simp [visitsAll]
  | cons n ns ih =>
    intro v hv
    rw [labelsList]
    rcases mem_append.mp hv with hv | hv
    · have := h n (by simp) scope label v hv
      omega
    · have := ih (fun m hm => h m (mem_cons_of_mem n hm)) v hv
      omega

theorem range_of_mem_visits (n : Node) (scope : Scope) (label : Nat) :
    ∀ v ∈ visits buffers scope label n, label ≤ v.1 ∧ v.1 + labels v.2.2 ≤ label + labels n := by
  induction n generalizing scope label with
  | ifThen cond thenNodes otherwise iht iho =>
    refine forall_mem_cons.mpr ⟨⟨le_rfl, le_rfl⟩, forall_mem_append.mpr
      ⟨fun v hv => ?_, fun v hv => ?_⟩⟩ <;> rw [labels]
    · have := range_of_mem_visitsAll thenNodes iht v hv
      omega
    · have := range_of_mem_visitsAll otherwise iho v hv
      omega
  | loop var lo hi body ih | region _ _ body ih =>
    refine forall_mem_cons.mpr ⟨⟨le_rfl, le_rfl⟩, fun v hv => ?_⟩
    have := range_of_mem_visitsAll body ih v hv
    rw [labels]
    omega
  | block body ih =>
    exact forall_mem_cons.mpr ⟨⟨le_rfl, le_rfl⟩, range_of_mem_visitsAll body ih⟩
  | _ => simp [visits]

def OneScope (vs : List (Nat × Scope × Node)) : Prop :=
  ∀ v ∈ vs, ∀ w ∈ vs, (∀ body, v.2.2 ≠ .block body) → v.1 = w.1 → v.2.2 = w.2.2 → v.2.1 = w.2.1

theorem labels_pos (h : ∀ body, n ≠ .block body) : 0 < labels n := by
  cases n with
  | block body => exact absurd rfl (h body)
  | _ => rw [labels] <;> simp

theorem OneScope.append {vs ws : List (Nat × Scope × Node)} (hv : OneScope vs) (hw : OneScope ws)
    (bound : Nat) (hlow : ∀ v ∈ vs, v.1 + labels v.2.2 ≤ bound) (hhigh : ∀ w ∈ ws, bound ≤ w.1) :
    OneScope (vs ++ ws) := by
  intro v hv' w hw' hblock hlabel hnode
  have hpos := labels_pos hblock
  rcases mem_append.mp hv' with h₁ | h₁ <;> rcases mem_append.mp hw' with h₂ | h₂
  · exact hv v h₁ w h₂ hblock hlabel hnode
  · have := hlow v h₁
    have := hhigh w h₂
    omega
  · have := hlow w h₂
    have := hhigh v h₁
    rw [hnode] at hpos
    omega
  · exact hw v h₁ w h₂ hblock hlabel hnode

theorem OneScope.cons {vs : List (Nat × Scope × Node)} (h : OneScope vs)
    (hhigh : ∀ v ∈ vs, label + 1 ≤ v.1 ∨ ∃ body, n = .block body) :
    OneScope ((label, scope, n) :: vs) := by
  intro v hv w hw hblock hlabel hnode
  rcases mem_cons.mp hv with rfl | hv' <;> rcases mem_cons.mp hw with rfl | hw'
  · rfl
  · rcases hhigh w hw' with hlt | ⟨body, hb⟩
    · exact absurd hlabel (by show label ≠ w.1; omega)
    · exact absurd hb (hblock body)
  · rcases hhigh v hv' with hlt | ⟨body, hb⟩
    · exact absurd hlabel (by show v.1 ≠ label; omega)
    · exact absurd (hnode.trans hb) (hblock body)
  · exact h v hv' w hw' hblock hlabel hnode

theorem oneScope_visitsAll_of (ns : List Node)
    (h : ∀ n ∈ ns, ∀ scope label, OneScope (visits buffers scope label n)) (scope : Scope)
    (label : Nat) : OneScope (visitsAll buffers scope label ns) := by
  induction ns generalizing scope label with
  | nil => simp [OneScope, visitsAll]
  | cons n ns ih =>
    refine (h n (by simp) scope label).append
      (ih (fun m hm => h m (mem_cons_of_mem n hm)) _ _) (label + labels n)
      (fun v hv => (range_of_mem_visits n scope label v hv).2) fun w hw => ?_
    exact (range_of_mem_visitsAll ns (fun m _ => range_of_mem_visits m) w hw).1

theorem oneScope_visits (n : Node) (scope : Scope) (label : Nat) :
    OneScope (visits buffers scope label n) := by
  have hbody : ∀ {scope : Scope} {label : Nat} {ns : List Node},
      ∀ v ∈ visitsAll buffers scope label ns, label ≤ v.1 ∧
        v.1 + labels v.2.2 ≤ label + labelsList ns :=
    fun {_ _ ns} => range_of_mem_visitsAll ns fun m _ => range_of_mem_visits m
  induction n generalizing scope label with
  | ifThen cond thenNodes otherwise iht iho =>
    refine .cons (.append (oneScope_visitsAll_of thenNodes iht _ _)
      (oneScope_visitsAll_of otherwise iho _ _) _ (fun v hv => (hbody v hv).2)
      fun w hw => (hbody w hw).1) fun v hv => .inl ?_
    rcases mem_append.mp hv with hv | hv
    · exact (hbody v hv).1
    · have := (hbody v hv).1
      omega
  | loop var lo hi body ih | region _ _ body ih =>
    exact .cons (oneScope_visitsAll_of body ih _ _) fun v hv => .inl (hbody v hv).1
  | block body ih => exact .cons (oneScope_visitsAll_of body ih _ _) fun v hv => .inr ⟨body, rfl⟩
  | _ => exact .cons (by simp [OneScope]) (by simp)

theorem oneScope_visitsAll (ns : List Node) (scope : Scope) (label : Nat) :
    OneScope (visitsAll buffers scope label ns) :=
  oneScope_visitsAll_of ns (fun n _ => oneScope_visits n) scope label

end Visits

/-- The validator accepts the statement in a scope that erases to this one. -/
def AcceptedIn (options : Options) (buffers : Buffers) (scope : Scope) (n : Node) : Prop :=
  ∃ divergent full seen, erase full = scope ∧ Accepts options buffers divergent full seen n

theorem bindsFresh_accepts (hshadow : options.allowShadowing = false) (buffers : Buffers) :
    BindsFresh (Accepts options buffers) where
  letBind := fun h => h.letBind_fresh hshadow
  loop := fun h => h.loop_fresh hshadow

theorem acceptedIn_of_validate {p : Program} (hshadow : options.allowShadowing = false)
    (h : validateWithOptions options p = []) :
    UnderAll (bufferMap p.buffers) (fun _ => AcceptedIn options (bufferMap p.buffers)) emptyScope 0
      p.entry := by
  have hfresh := bindsFresh_accepts hshadow (bufferMap p.buffers)
  exact underAll_of hfresh p.entry
    (fun n _ => under_of_checked hfresh
      (fun divergent full seen _ n hn => ⟨divergent, full, seen, rfl, hn⟩) n)
    0 (checked_of_validate hshadow h)

end Vyre.Soundness
