import Vyre.Reference.Dispatch
import Vyre.Reference.Kernel
import Vyre.Validate.Flow

/-!
# Union-find

The kernel of `graph/union_find.rs`: one lane for each edge looks for the roots
of its end points and links the higher one to the lower one by compare and
exchange.

After a lost race the kernel looks for a root again in a block, and binds names
that are already bound. The validator rejects that, so the reference interpreter
never runs the program.
-/

namespace Vyre.Graph

open Vyre.Reference

/-- `OP_ID`. -/
def unionFindOpId : Ident := "vyre-primitives::graph::union_find"

def unionFindWorkgroupSize : UInt32 × UInt32 × UInt32 := (256, 1, 1)

def findRootBody (parent idVar rootVar scratchParentVar : Ident) (nodeCount : UInt32) : List Node :=
  [.letBind rootVar (.var idVar),
   .letBind scratchParentVar (.var idVar),
   .loop "uf_find_iter" (.u32 0) (.u32 (max nodeCount 1))
    [.ifThen (.ne (.var rootVar) (.var scratchParentVar))
      [.assign rootVar (.var scratchParentVar),
       .ifThen (.ge (.var rootVar) (.u32 nodeCount))
         [.trap (.var rootVar) "union-find-parent-oob"] [],
       .assign scratchParentVar (.atomicOr parent (.var rootVar) (.u32 0)),
       .ifThen (.lt (.var scratchParentVar) (.u32 nodeCount))
        [.letBind "uf_grandparent" (.atomicOr parent (.var scratchParentVar) (.u32 0)),
         .letBind "uf_path_old" (.atomicMin parent (.var rootVar) (.var "uf_grandparent"))]
        []]
      []]]

/-- What `union_roots_body` does before its retry loop. -/
def unionRootsStart (parent edgeA edgeB edgeIndexVar : Ident) (nodeCount : UInt32) : List Node :=
  [.letBind "uf_a" (.load edgeA (.var edgeIndexVar)),
   .letBind "uf_b" (.load edgeB (.var edgeIndexVar)),
   .ifThen (.or (.ge (.var "uf_a") (.u32 nodeCount)) (.ge (.var "uf_b") (.u32 nodeCount)))
    [.trap (.var edgeIndexVar) "union-find-edge-oob"] []]
  ++ findRootBody parent "uf_a" "uf_root_a" "uf_parent_a" nodeCount
  ++ findRootBody parent "uf_b" "uf_root_b" "uf_parent_b" nodeCount

/-- The retry loop of `union_roots_body`. -/
def unionRetry (parent : Ident) (nodeCount : UInt32) : Node :=
  .loop "uf_union_iter" (.u32 0) (.u32 (max nodeCount 1))
    [.ifThen (.ne (.var "uf_root_a") (.var "uf_root_b"))
      [.letBind "uf_low" (.select (.lt (.var "uf_root_a") (.var "uf_root_b"))
        (.var "uf_root_a") (.var "uf_root_b")),
       .letBind "uf_high" (.select (.lt (.var "uf_root_a") (.var "uf_root_b"))
        (.var "uf_root_b") (.var "uf_root_a")),
       .letBind "uf_observed"
         (.atomicCompareExchange parent (.var "uf_high") (.var "uf_high") (.var "uf_low")),
       .ifThen (.eq (.var "uf_observed") (.var "uf_high"))
        [.assign "uf_root_b" (.var "uf_low")]
        [.assign "uf_b" (.var "uf_observed"),
         .block (findRootBody parent "uf_b" "uf_root_b" "uf_parent_b" nodeCount)]]
      []]

def unionRootsBody (parent edgeA edgeB edgeIndexVar : Ident) (nodeCount : UInt32) : List Node :=
  unionRootsStart parent edgeA edgeB edgeIndexVar nodeCount ++ [unionRetry parent nodeCount]

def unionFindProgram (parent edgeA edgeB : Ident) (nodeCount edgeCount : UInt32) : Program :=
  .newRaw
    [{ BufferDecl.storage parent 0 .readWrite .u32 with count := max nodeCount 1 },
     { BufferDecl.storage edgeA 1 .readOnly .u32 with count := max edgeCount 1 },
     { BufferDecl.storage edgeB 2 .readOnly .u32 with count := max edgeCount 1 }]
    unionFindWorkgroupSize
    [.region unionFindOpId none
      [.letBind "uf_edge" .gidX,
       .ifThen (.lt .gidX (.u32 edgeCount))
         (unionRootsBody parent edgeA edgeB "uf_edge" nodeCount) []]]

def parentOf (ps : List UInt32) (u : Nat) : Nat := (ps.getD u 0).toNat

/-- A parent array: parents are nodes, and from every node parents lead to a
root. -/
structure IsForest (ps : List UInt32) : Prop where
  inRange : ∀ p ∈ ps, p.toNat < ps.length
  rooted : ∀ u < ps.length, ∃ k, parentOf ps ((parentOf ps)^[k] u) = (parentOf ps)^[k] u

def SameRoot (ps : List UInt32) (u v : Nat) : Prop :=
  ∃ j k, (parentOf ps)^[j] u = (parentOf ps)^[k] v ∧
    parentOf ps ((parentOf ps)^[j] u) = (parentOf ps)^[j] u

/-- Two nodes are connected by the forest and the edges. -/
def Connected (ps : List UInt32) (edges : List (UInt32 × UInt32)) : Nat → Nat → Prop :=
  Relation.EqvGen fun u v => (u < ps.length ∧ parentOf ps u = v) ∨
    ∃ e ∈ edges, e.1.toNat = u ∧ e.2.toNat = v

def edgeWords (ends : List UInt32) : List UInt32 := if ends.isEmpty then [0] else ends

/-- The interpreter runs the kernel over the edges, and the parents it leaves
have a common root exactly for connected nodes. -/
def ComputesConnectivity (s : Setting) (parent edgeA edgeB : Ident) (ps : List UInt32)
    (edges : List (UInt32 × UInt32)) : Prop :=
  ∃ ps', Evaluates s
      (unionFindProgram parent edgeA edgeB (UInt32.ofNat ps.length) (UInt32.ofNat edges.length))
      [.bytes (Words.toBytes ps), .bytes (Words.toBytes (edgeWords (edges.map (·.1)))),
        .bytes (Words.toBytes (edgeWords (edges.map (·.2))))]
      [.bytes (Words.toBytes ps')] ∧
    ∀ u v, u < ps.length → v < ps.length → (SameRoot ps' u v ↔ Connected ps edges u v)

section Rejected

open Vyre.Validate

variable {buffers : Buffers} {Q : Bool → Scope → NodeAccesses → Node → Prop} {divergent : Bool}
  {scope : Scope} {seen : NodeAccesses}

theorem checked_after (before after : List Node) {n : Node}
    (h : CheckedAll buffers Q divergent scope seen (before ++ n :: after)) :
    ∃ seen', Checked buffers Q divergent (flowAll buffers divergent scope before) seen' n := by
  induction before generalizing scope seen with
  | nil => exact ⟨seen, h.1⟩
  | cons m before ih => exact ih h.2

theorem isSome_loopScope {var key : Ident} {lo hi : Expr} (h : (scope key).isSome = true) :
    (loopScope divergent scope var lo hi key).isSome = true := by
  rw [loopScope, isSome_setBinding, h, Bool.or_true]

theorem rejects_findRootBody (hfresh : ∀ divergent scope seen name value,
      Q divergent scope seen (.letBind name value) → scope name = none)
    {parent idVar rootVar scratchParentVar : Ident} {nodeCount : UInt32}
    (hbound : (scope rootVar).isSome = true) :
    ¬CheckedAll buffers Q divergent scope seen
      (findRootBody parent idVar rootVar scratchParentVar nodeCount) := by
  intro h
  have hnone : scope rootVar = none := hfresh _ _ _ _ _ h.1
  rw [hnone] at hbound
  cases hbound

theorem rejects_unionRetry (hfresh : ∀ divergent scope seen name value,
      Q divergent scope seen (.letBind name value) → scope name = none)
    {parent : Ident} {nodeCount : UInt32} (hbound : (scope "uf_root_b").isSome = true) :
    ¬Checked buffers Q divergent scope seen (unionRetry parent nodeCount) := by
  intro h
  obtain ⟨-, hloop, -⟩ := h
  obtain ⟨-, hbody, -⟩ := hloop
  obtain ⟨-, -, -, ⟨-, -, hlost⟩, -⟩ := hbody
  obtain ⟨-, ⟨-, hwalk⟩, -⟩ := hlost
  refine rejects_findRootBody hfresh ?_ hwalk
  have hin := @isSome_loopScope divergent scope "uf_union_iter" "uf_root_b" (.u32 0)
    (.u32 (max nodeCount 1)) hbound
  simp only [isSome_flow, isSome_exitScope, isSome_flowAll, hin, Bool.true_or, Bool.and_self]

/-- The interpreter never runs the program: its validator rejects it. -/
theorem not_evaluates_unionFindProgram (s : Setting) (parent edgeA edgeB : Ident)
    (nodeCount edgeCount : UInt32) (inputs outputs : List Value) :
    ¬Evaluates s (unionFindProgram parent edgeA edgeB nodeCount edgeCount) inputs outputs := by
  intro h
  obtain ⟨hvalid, -⟩ := h
  have hchecked := checked_of_validate rfl hvalid
  obtain ⟨⟨-, -, ⟨-, hbody, -⟩, -⟩, -⟩ := hchecked
  obtain ⟨seen', hretry⟩ := checked_after _ [] hbody
  refine rejects_unionRetry (fun _ _ _ _ _ h => h.letBind_fresh rfl) ?_ hretry
  rw [isSome_flowAll]
  simp [unionRootsStart, findRootBody, boundByAll, boundBy]

end Rejected

/-- No forest and no batch of edges is processed. -/
theorem not_computesConnectivity (s : Setting) (parent edgeA edgeB : Ident) (ps : List UInt32)
    (edges : List (UInt32 × UInt32)) : ¬ComputesConnectivity s parent edgeA edgeB ps edges := by
  intro h
  obtain ⟨ps', hrun, -⟩ := h
  exact not_evaluates_unionFindProgram s parent edgeA edgeB _ _ _ _ hrun

theorem unionFind_rejects_edge : IsForest [0, 1] ∧ Connected [0, 1] [(0, 1)] 0 1 ∧
    ∀ (s : Setting) (parent edgeA edgeB : Ident),
      ¬ComputesConnectivity s parent edgeA edgeB [0, 1] [(0, 1)] := by
  refine ⟨⟨?_, ?_⟩, .rel 0 1 (.inr ⟨(0, 1), by simp, rfl, rfl⟩), ?_⟩
  · intro p hp
    obtain rfl | hp := List.mem_cons.mp hp
    · decide
    · rw [List.mem_singleton.mp hp]
      decide
  · intro u hu
    refine ⟨0, ?_⟩
    match u, hu with
    | 0, _ => rfl
    | 1, _ => rfl
  · intro s parent edgeA edgeB h
    obtain ⟨ps', hrun, -⟩ := h
    exact not_evaluates_unionFindProgram s parent edgeA edgeB _ _ _ _ hrun

end Vyre.Graph
