import Vyre.Reference.Simulation
import Vyre.Validate.Traversal

/-!
# Rewriting the bodies of a program

The passes over statements rewrite every body of a program from the inside out
(`map_children`, then `map_body` of `visit/node_map.rs`). Statements replace
others when they run the same, along another plan where the pass changes which
statements have a body. What a pass may put for one statement or for one body it
may put everywhere.
-/

namespace Vyre.NodeMap

open Reference Reference.Eval StateExcept List

/-! ## The rewrite -/

mutual

/-- `rewrite_node` of the passes: the children first, then the bodies by `f`. -/
def rewriteNode (f : List Node → List Node) : Node → Node
  | .ifThen cond thenNodes otherwise =>
      .ifThen cond (f (rewriteNodes f thenNodes)) (f (rewriteNodes f otherwise))
  | .loop var lo hi body => .loop var lo hi (f (rewriteNodes f body))
  | .block body => .block (f (rewriteNodes f body))
  | .region generator sourceRegion body =>
      .region generator sourceRegion (f (rewriteNodes f body))
  | n => n

def rewriteNodes (f : List Node → List Node) : List Node → List Node
  | [] => []
  | n :: ns => rewriteNode f n :: rewriteNodes f ns

end

theorem rewriteNodes_eq (f : List Node → List Node) (ns : List Node) :
    rewriteNodes f ns = ns.map (rewriteNode f) := by
  induction ns with
  | nil => rfl
  | cons n ns ih => rw [rewriteNodes, ih, map_cons]

/-- `transform` of the passes. -/
def transform (f : List Node → List Node) (p : Program) : Program :=
  { p with entry := f (rewriteNodes f p.entry) }

/-- `map_body`. `map_children` is the map of every body. -/
def mapBody (f : List Node → List Node) : Node → Node
  | .ifThen cond thenNodes otherwise => .ifThen cond (f thenNodes) (f otherwise)
  | .loop var lo hi body => .loop var lo hi (f body)
  | .block body => .block (f body)
  | .region generator sourceRegion body => .region generator sourceRegion (f body)
  | n => n

/-- The bodies of a statement are in `G`. -/
def BodiesIn (G : List Node → Prop) : Node → Prop
  | .ifThen _ thenNodes otherwise => G thenNodes ∧ G otherwise
  | .loop _ _ _ body | .block body | .region _ _ body => G body
  | _ => True

variable {G : List Node → Prop}

theorem BodiesIn.imp {G' : List Node → Prop} (hG : ∀ body, G body → G' body) {n : Node}
    (h : BodiesIn G n) : BodiesIn G' n := by
  cases n with
  | ifThen cond thenNodes otherwise => exact ⟨hG _ h.1, hG _ h.2⟩
  | loop var lo hi body | block body | region _ _ body => exact hG _ h
  | _ => trivial

theorem bodies_of_all (hG : ∀ body, G body) (n : Node) : BodiesIn G n := by
  cases n with
  | ifThen cond thenNodes otherwise => exact ⟨hG _, hG _⟩
  | loop var lo hi body | block body | region _ _ body => exact hG _
  | _ => trivial

theorem bodies_induction {Q : Node → Prop}
    (h : ∀ n, BodiesIn (fun body => ∀ c ∈ body, Q c) n → Q n) (n : Node) : Q n := by
  induction n with
  | ifThen cond thenNodes otherwise ihThen ihElse => exact h _ ⟨ihThen, ihElse⟩
  | loop var lo hi body ih | block body ih | region _ _ body ih => exact h _ ih
  | _ => exact h _ trivial

/-! ## Statements in the place of others -/

theorem containsBarrier_eq_any (ns : List Node) :
    containsBarrier ns = ns.any nodeContainsBarrier := by
  induction ns with
  | nil => rfl
  | cons n ns ih => rw [containsBarrier, any_cons, ih]

theorem containsBarrier_map {f : Node → Node} {ns : List Node}
    (h : ∀ n ∈ ns, nodeContainsBarrier (f n) = nodeContainsBarrier n) :
    containsBarrier (ns.map f) = containsBarrier ns := by
  induction ns with
  | nil => rfl
  | cons n ns ih =>
    rw [map_cons, containsBarrier, containsBarrier, h n (by simp),
      ih fun n hn => h n (by simp [hn])]

/-- What `ns` does along a plan, `ns'` does along some plan; and it brings no
barrier, so that no branch around it comes to be checked. -/
structure Replaces (ρ : Route) (ns ns' : List Node) : Prop where
  barriers : containsBarrier ns' = true → containsBarrier ns = true
  runs : ∀ π, ∃ π', ∀ t, Refines (runNodes (ρ.on π) ns t) (runNodes (ρ.on π') ns' t)

/-- What `body` does along `π`, `body'` does along `π'` to the names around it. -/
def SameOutside (ρ : Route) (π π' : Plan) (body body' : List Node) : Prop :=
  ∀ t, Sim True Eq (fun u u' => t.leave u = t.leave u')
    (runNodes (ρ.on π) body t) (runNodes (ρ.on π') body' t)

/-- `body'` may be the body of a statement in the place of `body`. -/
structure BodyRefines (ρ : Route) (body body' : List Node) : Prop where
  barriers : containsBarrier body' = true → containsBarrier body = true
  runs : ∀ π, ∃ π', SameOutside ρ π π' body body'

variable {ρ : Route} {π π' : Plan} {ns ns' ns'' : List Node} {f : List Node → List Node} {n : Node}

theorem SameOutside.within (h : SameOutside ρ π π' ns ns') {t t₁ : Thread}
    (hbound : ∀ key, (t.vals key).isSome = true → (t₁.vals key).isSome = true) :
    Sim True Eq (fun u u' => t.leave u = t.leave u') (runNodes (ρ.on π) ns t₁)
      (runNodes (ρ.on π') ns' t₁) := by
  refine (h t₁).imp fun u u' _ hu => ?_
  rw [← Thread.leave_leave hbound u, hu, Thread.leave_leave hbound]

namespace Replaces

theorem refl (ρ : Route) (ns : List Node) : Replaces ρ ns ns := ⟨id, fun π => ⟨π, fun _ => .rfl⟩⟩

theorem trans (h : Replaces ρ ns ns') (h' : Replaces ρ ns' ns'') : Replaces ρ ns ns'' where
  barriers hb := h.barriers (h'.barriers hb)
  runs π := by
    obtain ⟨π₁, h₁⟩ := h.runs π
    obtain ⟨π₂, h₂⟩ := h'.runs π₁
    exact ⟨π₂, fun t => (h₁ t).trans (h₂ t)⟩

theorem body (h : Replaces ρ ns ns') : BodyRefines ρ ns ns' where
  barriers := h.barriers
  runs π := by
    obtain ⟨π', hrun⟩ := h.runs π
    exact ⟨π', fun t => (Sim.refines_iff.mp (hrun t)).imp fun _ _ _ => congrArg _⟩

theorem flatMap {f : Node → List Node} (h : ∀ n ∈ ns, Replaces ρ [n] (f n)) :
    Replaces ρ ns (ns.flatMap f) where
  barriers hb := by
    rw [containsBarrier_eq_any, any_flatMap, any_eq_true] at hb
    obtain ⟨n, hn, hb⟩ := hb
    rw [← containsBarrier_eq_any] at hb
    have hbarrier := (h n hn).barriers hb
    rw [containsBarrier_eq_any, any_eq_true] at hbarrier ⊢
    obtain ⟨_, hmem, hbarrier⟩ := hbarrier
    cases mem_singleton.mp hmem
    exact ⟨n, hn, hbarrier⟩
  runs π := by
    obtain ⟨π', hrun⟩ := Sim.flatMap (B := Eq) (q := True) (R := Eq) (fun n hn π => by
      obtain ⟨π', hrun⟩ := (h n hn).runs π
      refine ⟨π', ?_⟩
      rintro u _ rfl
      rw [← runNodes_single]
      exact Sim.refines_iff.mp (hrun u)) π
    exact ⟨π', fun t => Sim.refines_iff.mpr (hrun rfl)⟩

theorem map {f : Node → Node} (h : ∀ n ∈ ns, Replaces ρ [n] [f n]) : Replaces ρ ns (ns.map f) := by
  rw [map_eq_flatMap]
  exact flatMap h

end Replaces

theorem BodyRefines.trans (h : BodyRefines ρ ns ns') (h' : BodyRefines ρ ns' ns'') :
    BodyRefines ρ ns ns'' where
  barriers hb := h.barriers (h'.barriers hb)
  runs π := by
    obtain ⟨π₁, h₁⟩ := h.runs π
    obtain ⟨π₂, h₂⟩ := h'.runs π₁
    exact ⟨π₂, fun t => (h₁ t).trans (h₂ t) Eq.trans⟩

theorem replaces_mapBody (h : BodiesIn (fun body => BodyRefines ρ body (f body)) n) :
    Replaces ρ [n] [mapBody f n] := by
  constructor
  · intro hb
    cases n with
    | ifThen cond thenNodes otherwise =>
      simp only [containsBarrier, mapBody, nodeContainsBarrier, Bool.or_false, Bool.or_eq_true]
        at hb ⊢
      exact hb.imp h.1.barriers h.2.barriers
    | loop var lo hi body | block body =>
      simp only [containsBarrier, mapBody, nodeContainsBarrier, Bool.or_false] at hb ⊢
      exact h.barriers hb
    | region _ _ body => exact hb
    | _ => exact hb
  · intro π
    have hself : ∃ π', ∀ t, Refines (runNodes (ρ.on π) [n] t) (runNodes (ρ.on π') [n] t) :=
      ⟨π, fun _ => .rfl⟩
    cases n with
    | ifThen cond thenNodes otherwise =>
      obtain ⟨π₁, hthen⟩ := h.1.runs (π.under .inner)
      obtain ⟨π₂, helse⟩ := h.2.runs (π.under .other)
      refine ⟨.node (π []) π₁ π₂, fun t => Sim.refines_iff.mpr ?_⟩
      rw [runNodes_single, runNodes_single]
      refine Sim.ifThen (respects_eq _) rfl (fun hb => ?_) (hthen t) (helse t)
      rw [Bool.or_eq_true] at hb ⊢
      exact hb.imp h.1.barriers h.2.barriers
    | loop var lo hi body =>
      obtain ⟨π₁, hbody⟩ := h.runs (π.under .inner)
      refine ⟨.node (π []) π₁ π₁, fun t => Sim.refines_iff.mpr ?_⟩
      rw [runNodes_single, runNodes_single]
      refine Sim.loop (respects_eq _) (respects_eq _) rfl ?_
      rintro t _ k - rfl hnone
      exact ⟨hnone, hbody.within (Thread.bound_entered var _)⟩
    | block body | region _ _ body =>
      obtain ⟨π₁, hbody⟩ := h.runs (π.under .inner)
      refine ⟨.node (π []) π₁ π₁, fun t => Sim.refines_iff.mpr ?_⟩
      rw [runNodes_single, runNodes_single]
      exact Sim.map (hbody t)
    | _ => exact hself

section Bodies

variable (hf : ∀ ns, BodyRefines ρ ns (f ns))
include hf

theorem replaces_rewriteNode (n : Node) : Replaces ρ [n] [rewriteNode f n] := by
  induction n using bodies_induction with
  | h n ih =>
    have heq : rewriteNode f n = mapBody (fun body => f (rewriteNodes f body)) n := by
      cases n <;> rfl
    rw [heq]
    refine replaces_mapBody (ih.imp fun body hbody => ?_)
    rw [rewriteNodes_eq]
    exact (Replaces.map hbody).body.trans (hf _)

theorem bodyRefines_transform (p : Program) : BodyRefines ρ p.entry (transform f p).entry := by
  rw [transform, rewriteNodes_eq]
  exact (Replaces.map fun n _ => replaces_rewriteNode hf n).body.trans (hf _)

end Bodies

/-- An invocation that ends without an error still does, and leaves the same, when
its program is replaced. -/
theorem BodyRefines.runsAlone {host : Host} (h : ∀ ρ : Route, BodyRefines ρ ns ns')
    (hids : Function.Injective host.nodeId) {debugIds : InvocationIds → String}
    {ids : InvocationIds} {index : UInt32} {m m' : Memory}
    (hrun : RunsAlone host debugIds ns ids index m m') :
    RunsAlone host debugIds ns' ids index m m' := by
  refine hrun.of_plans hids fun π ⟨out, hout, hpending⟩ => ?_
  obtain ⟨π', hsame⟩ := (h ⟨host, true, π⟩).runs π
  obtain ⟨out', _, hout', hleave, rfl⟩ := hsame _ m m out m' rfl hout
  refine ⟨π', out', hout', ?_⟩
  rw [hleave.pending fun u u' hu => (congrArg Thread.pending hu).symm, hpending]

section Passes

/-! ### Passes that visit what they have rewritten

Some passes map the children with themselves and then, once more, the bodies. -/

mutual

def levels : Node → Nat
  | .ifThen _ thenNodes otherwise => max (levelsList thenNodes) (levelsList otherwise) + 1
  | .loop _ _ _ body | .block body | .region _ _ body => levelsList body + 1
  | _ => 0

def levelsList : List Node → Nat
  | [] => 0
  | n :: ns => max (levels n) (levelsList ns)

end

/-- `rewrite_node` to a depth. -/
def rewriteAt (g : Node → Node) : Nat → Node → Node
  | 0, n => n
  | depth + 1, n => g (mapBody (map (rewriteAt g depth)) (mapBody (map (rewriteAt g depth)) n))

/-- `rewrite_node`. -/
def rewriteDeep (g : Node → Node) (n : Node) : Node := rewriteAt g (levels n + 1) n

theorem mapBody_mapBody (f : Node → Node) (n : Node) :
    mapBody (map f) (mapBody (map f) n) = mapBody (map fun c => f (f c)) n := by
  cases n <;> simp only [mapBody, map_map, Function.comp_def]

theorem mapBody_congr {f f' : Node → Node} {n : Node}
    (h : BodiesIn (fun body => ∀ c ∈ body, f c = f' c) n) :
    mapBody (map f) n = mapBody (map f') n := by
  cases n with
  | ifThen cond thenNodes otherwise =>
    rw [mapBody, mapBody, map_congr_left h.1, map_congr_left h.2]
  | loop var lo hi body | block body | region _ _ body =>
    exact congrArg _ (map_congr_left h)
  | _ => rfl

theorem levelsList_le {ns : List Node} {k : Nat} : levelsList ns ≤ k ↔ ∀ n ∈ ns, levels n ≤ k := by
  induction ns with
  | nil => simp [levelsList]
  | cons n ns ih => simp [levelsList, ih]

theorem levels_bodies (n : Node) : BodiesIn (fun body => ∀ c ∈ body, levels c < levels n) n := by
  have hbody : ∀ {ns : List Node} {k}, levelsList ns ≤ k → ∀ c ∈ ns, levels c < k + 1 :=
    fun h c hc => Nat.lt_succ_of_le (levelsList_le.mp h c hc)
  cases n with
  | ifThen cond thenNodes otherwise =>
    exact ⟨hbody (Nat.le_max_left _ _), hbody (Nat.le_max_right _ _)⟩
  | loop var lo hi body | block body | region _ _ body => exact hbody (Nat.le_refl _)
  | _ => trivial

theorem levels_mapBody {f : Node → Node} (hf : ∀ c, levels (f c) ≤ levels c) (n : Node) :
    levels (mapBody (map f) n) ≤ levels n := by
  have hbody : ∀ ns : List Node, levelsList (ns.map f) ≤ levelsList ns := by
    intro ns
    refine levelsList_le.mpr fun c hc => ?_
    obtain ⟨n, hn, rfl⟩ := mem_map.mp hc
    exact Nat.le_trans (hf n) (levelsList_le.mp (Nat.le_refl _) n hn)
  cases n with
  | ifThen cond thenNodes otherwise =>
    have := hbody thenNodes
    have := hbody otherwise
    simp only [mapBody, levels]
    omega
  | loop var lo hi body | block body | region _ _ body =>
    exact Nat.succ_le_succ (hbody body)
  | _ => exact Nat.le_refl _

variable {g : Node → Node} (hg : ∀ n, levels (g n) ≤ levels n)
include hg

theorem levels_rewriteAt (depth : Nat) (n : Node) : levels (rewriteAt g depth n) ≤ levels n := by
  induction depth generalizing n with
  | zero => exact Nat.le_refl _
  | succ depth ih => exact (hg _).trans ((levels_mapBody ih _).trans (levels_mapBody ih n))

theorem rewriteAt_of_lt {depth depth' : Nat} {n : Node} (h : levels n < depth)
    (h' : levels n < depth') :
    rewriteAt g depth n = rewriteAt g depth' n := by
  induction depth generalizing n depth' with
  | zero => cases h
  | succ depth ih =>
    obtain _ | depth' := depth'
    · cases h'
    rw [rewriteAt, rewriteAt, mapBody_mapBody, mapBody_mapBody]
    refine congrArg g (mapBody_congr ((levels_bodies n).imp fun body hbody c hc => ?_))
    have := hbody c hc
    have := levels_rewriteAt hg depth c
    exact (ih (by omega) (by omega)).trans (congrArg _ (ih (by omega) (by omega)))

theorem rewriteDeep_eq (n : Node) : rewriteDeep g n =
    g (mapBody (map (rewriteDeep g)) (mapBody (map (rewriteDeep g)) n)) := by
  rw [rewriteDeep, rewriteAt, mapBody_mapBody, mapBody_mapBody]
  refine congrArg g (mapBody_congr ((levels_bodies n).imp fun body hbody c hc => ?_))
  have hlt := hbody c hc
  rw [rewriteAt_of_lt hg hlt (Nat.lt_succ_self _)]
  exact rewriteAt_of_lt hg ((levels_rewriteAt hg _ c).trans_lt hlt) (Nat.lt_succ_self _)

omit hg in
theorem replaces_rewriteAt (hg : ∀ n, Replaces ρ [n] [g n]) (depth : Nat) (n : Node) :
    Replaces ρ [n] [rewriteAt g depth n] := by
  induction depth generalizing n with
  | zero => exact .refl ρ _
  | succ depth ih =>
    have hchildren : ∀ n, Replaces ρ [n] [mapBody (map (rewriteAt g depth)) n] :=
      fun n => replaces_mapBody (bodies_of_all (fun body => (Replaces.map fun n _ => ih n).body) n)
    exact (hchildren n).trans ((hchildren _).trans (hg _))

end Passes

/-! ## Runs from the validation on -/

section Interprets

variable (signatures : Option Validate.DialectLookup)

/-- The validation with which `run_hashmap_reference` begins. -/
def Accepted (p : Program) : Prop :=
  Validate.validateWithOptions { supportsSubgroupOps := true, dialect := signatures } p = []

instance (p : Program) : Decidable (Accepted signatures p) :=
  inferInstanceAs (Decidable (Validate.validateWithOptions _ p = []))

/-- The program is accepted, and its invocation ends without an error. -/
def Interprets (host : Host) (debugIds : InvocationIds → String) (p : Program)
    (ids : InvocationIds) (index : UInt32) (m m' : Memory) : Prop :=
  Accepted signatures p ∧ RunsAlone host debugIds p.entry ids index m m'

end Interprets

/-! ## Small programs -/

/-- A program over the words `b` and `out`. -/
def wordProgram (entry : List Node) : Program :=
  .wrapped [.readWrite "b" 0 .u32, .readWrite "out" 1 .u32] (1, 1, 1) entry

def firstIds : InvocationIds := ⟨(0, 0, 0), (0, 0, 0), (0, 0, 0)⟩

def twoBuffers (b out : List UInt32) : Memory where
  storage := fun name =>
    if name = "b" then some (.ofWords b) else if name = "out" then some (.ofWords out) else none
  workgroup := fun _ => none

/-- The first invocation of a program by itself, over two buffers of words. -/
abbrev RunsFirst (p : Program) (b out : List UInt32) (m' : Memory) : Prop :=
  RunsAlone integerHost (fun _ => "") p.entry firstIds 0 (twoBuffers b out) m'

/-- The same, with the validation before it. -/
abbrev InterpretsFirst (p : Program) (b out : List UInt32) (m' : Memory) : Prop :=
  Interprets none integerHost (fun _ => "") p firstIds 0 (twoBuffers b out) m'

theorem runsFirst {p : Program} {b out : List UInt32} {m' : Memory}
    (h : EndsOk ⟨integerHost, true, fun _ => false⟩ p.entry firstIds 0 (twoBuffers b out) m') :
    RunsFirst p b out m' :=
  h.runsAlone_of_injective Function.injective_id

def contents (p : Program) (b out : List UInt32) (name : Ident) : Option Buffer :=
  (runNodes integerHost p.entry (Invocation.start firstIds 0).thread
    (twoBuffers b out)).toOption.bind fun r => r.2.find name

theorem contents_eq {p : Program} {b out : List UInt32} {m' : Memory} (h : RunsFirst p b out m')
    (name : Ident) : contents p b out name = m'.find name := by
  obtain ⟨_, π, -, out', hrun, -⟩ := h.answered
  rw [contents, runNodes_free (ρ := ⟨integerHost, true, π⟩) p.entry π _ _ _ hrun]
  rfl

/-- The first invocation ends, and that of `p'` does not leave the same in the
buffer. -/
def Changes (p p' : Program) (b out : List UInt32) (name : Ident) : Prop :=
  ∃ m', RunsFirst p b out m' ∧ ∀ m'', RunsFirst p' b out m'' → m''.find name ≠ m'.find name

theorem changes_of_contents {p p' : Program} {b out : List UInt32} {m' : Memory} {name : Ident}
    (hrun : EndsOk ⟨integerHost, true, fun _ => false⟩ p.entry firstIds 0 (twoBuffers b out) m')
    (h : contents p' b out name ≠ contents p b out name) : Changes p p' b out name := by
  refine ⟨m', runsFirst hrun, fun m'' hrun' heq => h ?_⟩
  rw [contents_eq hrun', contents_eq (runsFirst hrun), heq]

end Vyre.NodeMap
