import Mathlib.Data.List.Sort
import Vyre.Lib.ExceptState
import Vyre.Lib.Forest

/-!
# The e-graph

`EGraph` of the equality-saturation engine (`optimizer/eqsat.rs`): classes of
nodes, a union-find over dense class ids with path compression, a hashcons from
canonical nodes to classes, and a queue of classes to rebuild.

An `EClassId` is a natural number below `2 ^ 32`. Reservations are not modelled:
no allocation fails. Loops over parent pointers
and over the queue have a bound, which is never reached (`findLoop_eq`,
`tryRebuild_ok`).
-/

namespace Vyre.Optimizer

open ExceptState List

/-- `ENodeLang`, with the hash of a node. -/
class ENodeLang (L : Type) where
  children : L → List Nat
  withChildren : L → List Nat → L
  hash : L → UInt64

/-- What the documentation of `ENodeLang` asks of an implementation: a rebuilt
node has the same shape, with the children given to it. -/
class LawfulENodeLang (L : Type) [ENodeLang L] : Prop where
  withChildren_children : ∀ n : L, ENodeLang.withChildren n (ENodeLang.children n) = n
  children_withChildren : ∀ (n : L) (ids : List Nat),
    ids.length = (ENodeLang.children n).length →
    ENodeLang.children (ENodeLang.withChildren n ids) = ids
  withChildren_withChildren : ∀ (n : L) (ids ids' : List Nat),
    ids.length = (ENodeLang.children n).length → ids'.length = (ENodeLang.children n).length →
    ENodeLang.withChildren (ENodeLang.withChildren n ids) ids' = ENodeLang.withChildren n ids'

/-- `EGraphError`; `loopBound` stands for a loop that does not end. -/
inductive EGraphError where
  | classIdOverflow (index : Nat)
  | classIdOutOfBounds (context : String) (id : Nat) (len : Nat)
  | loopBound
  deriving DecidableEq

structure EClass (L : Type) where
  nodes : List L := []
  parents : List Nat := []

/-- `EGraph`; the class pushed last on the queue comes first. -/
structure EGraph (L : Type) where
  classes : List (EClass L)
  hashcons : L → Option Nat
  parent : List Nat
  pending : List Nat

/-- The fallible operations; a failure leaves the state it has reached. -/
abbrev M (L : Type) := ExceptT EGraphError (StateM (EGraph L))

variable {L : Type}

def EGraph.new : EGraph L := ⟨[], fun _ => none, [], []⟩

def eclassIndex (id : Nat) (len : Nat) (context : String) : Except EGraphError Nat :=
  if id < len then .ok id else .error (.classIdOutOfBounds context id len)

def tryEclassIdFromIndex (index : Nat) : Except EGraphError Nat :=
  if index < 2 ^ 32 then .ok index else .error (.classIdOverflow index)

/-- The loop up to the root, of `try_find` and `try_find_immut`. -/
def findLoop (parent : List Nat) (context : String) :
    Nat → Nat → Except EGraphError Nat
  | 0, _ => .error .loopBound
  | fuel + 1, cur => do
      let idx ← eclassIndex cur parent.length context
      let next := parent.getD idx cur
      if next = cur then return cur else findLoop parent context fuel next

/-- The path compression of `try_find`. -/
def compressLoop (cur : Nat) :
    Nat → Nat → List Nat → Except EGraphError Unit × List Nat
  | 0, _, parent => (.error .loopBound, parent)
  | fuel + 1, walk, parent =>
      match eclassIndex walk parent.length "egraph path compression" with
      | .error e => (.error e, parent)
      | .ok idx =>
          let next := parent.getD idx walk
          if next = cur then (.ok (), parent) else compressLoop cur fuel next (parent.set idx cur)

def tryFind (id : Nat) : M L Nat := do
  let g ← get
  let cur ← liftExcept (findLoop g.parent "egraph find" (g.parent.length + 1) id)
  let (result, parent) := compressLoop cur (g.parent.length + 1) id g.parent
  set { g with parent }
  liftExcept (result.map fun _ => cur)

namespace EGraph

def tryFindImmut (g : EGraph L) (id : Nat) : Except EGraphError Nat :=
  findLoop g.parent "egraph immutable find" (g.parent.length + 1) id

variable [ENodeLang L]

def tryCanonicalize (g : EGraph L) (node : L) : Except EGraphError L := do
  let canonChildren ← (ENodeLang.children node).mapM g.tryFindImmut
  return ENodeLang.withChildren node canonChildren

def nodesAt (g : EGraph L) (idx : Nat) : List L := (g.classes.getD idx {}).nodes

def setNodes (g : EGraph L) (idx : Nat) (nodes : List L) : EGraph L :=
  { g with classes := g.classes.modify idx fun c => { c with nodes } }

/-- The insertion of `try_add`, once the children are registered. -/
def insertClass [DecidableEq L] (g : EGraph L) (canon : L) (newId : Nat)
    (childIndices : List Nat) : EGraph L :=
  { g with
    parent := g.parent ++ [newId]
    classes := childIndices.foldl
      (fun classes idx => classes.modify idx fun c => { c with parents := c.parents ++ [newId] })
      g.classes ++ [{ nodes := [canon] }]
    hashcons := Function.update g.hashcons canon (some newId) }

/-- The merge of `try_union`. -/
def merge (g : EGraph L) (winner loser : Nat) : EGraph L :=
  let loserClass := g.classes.getD loser {}
  { g with
    parent := g.parent.set loser winner
    classes := (g.classes.set loser {}).modify winner fun c =>
      { nodes := c.nodes ++ loserClass.nodes, parents := c.parents ++ loserClass.parents }
    pending := winner :: g.pending }

end EGraph

section Operations

variable [ENodeLang L]

/-- The registration of one child in `try_add`. -/
def childIndex (child : Nat) : M L Nat := do
  let childCanon ← tryFind child
  let g ← get
  liftExcept (eclassIndex childCanon g.classes.length "egraph child parent registration")

def tryAdd [DecidableEq L] (node : L) : M L Nat := do
  let g ← get
  let canon ← liftExcept (g.tryCanonicalize node)
  match g.hashcons canon with
  | some existing => tryFind existing
  | none => do
      let newId ← liftExcept (tryEclassIdFromIndex g.classes.length)
      let childIndices ← (ENodeLang.children canon).mapM childIndex
      modify fun g => g.insertClass canon newId childIndices
      return newId

/-- `try_union`: the smaller id becomes the root. -/
def tryUnion (a b : Nat) : M L Nat := do
  let aRoot ← tryFind a
  let bRoot ← tryFind b
  if aRoot = bRoot then return aRoot
  let (winner, loser) := if aRoot < bRoot then (aRoot, bRoot) else (bRoot, aRoot)
  let g ← get
  let winnerIdx ← liftExcept (eclassIndex winner g.classes.length "egraph union winner")
  let loserIdx ← liftExcept (eclassIndex loser g.classes.length "egraph union loser")
  set (g.merge winnerIdx loserIdx)
  return winner

/-- `try_dedup_enodes_by_hash`: sorted by hash, and without repetition. The sort
of the source may order nodes of one hash in another way. -/
def dedupEnodesByHash [DecidableEq L] (nodes : List L) : List L :=
  (nodes.insertionSort fun a b => ENodeLang.hash a ≤ ENodeLang.hash b).dedup

/-- The collision of a node of `canonical` with the hashcons in `try_rebuild`,
with the number of unions. -/
def unionExisting (canonical : Nat) (newCanon : L) : M L Nat := do
  let g ← get
  match g.hashcons newCanon with
  | none => return 0
  | some existing => do
      let existingCanon ← tryFind existing
      if existingCanon = canonical then return 0
      let unified ← tryUnion existingCanon canonical
      if unified = canonical then return 1
      modify fun g => { g with pending := unified :: g.pending }
      return 1

/-- One node of the loop of `try_rebuild`. -/
def rebuildNode [DecidableEq L] (canonical : Nat) (node : L) : M L (L × Nat) := do
  let g ← get
  let newCanon ← liftExcept (g.tryCanonicalize node)
  let newUnions ← unionExisting canonical newCanon
  modify fun g => { g with hashcons := Function.update g.hashcons newCanon (some canonical) }
  return (newCanon, newUnions)

/-- One class of the loop of `try_rebuild`. -/
def rebuildClass [DecidableEq L] (classId : Nat) : M L Nat := do
  let canonical ← tryFind classId
  let g ← get
  let canonicalIdx ← liftExcept (eclassIndex canonical g.classes.length "egraph rebuild")
  set (g.setNodes canonicalIdx [])
  let results ← (g.nodesAt canonicalIdx).mapM (rebuildNode canonical)
  modify fun g => g.setNodes canonicalIdx (dedupEnodesByHash (results.map (·.1)))
  return (results.map (·.2)).sum

/-- The loop of `try_rebuild`. -/
def rebuildLoop [DecidableEq L] : Nat → Nat → M L Nat
  | 0, _ => throw .loopBound
  | fuel + 1, newUnions => do
      let g ← get
      match g.pending with
      | [] => return newUnions
      | classId :: pending => do
          set { g with pending }
          let more ← rebuildClass classId
          rebuildLoop fuel (newUnions + more)

def EGraph.total (g : EGraph L) : Nat := (g.classes.map (·.nodes.length)).sum

/-- `try_rebuild`. A class that loses its root to another in the middle of the
loop schedules a class for each node after that, so the bound has a term for the
nodes of every class. -/
def tryRebuild [DecidableEq L] : M L Nat := do
  let g ← get
  rebuildLoop (g.pending.length + (2 * g.total + 3) * g.classes.length + 1) 0

end Operations

/-- The parent pointers as a function; an id without a class is its own root. -/
def parentOf (parent : List Nat) (id : Nat) : Nat := parent.getD id id

variable {parent : List Nat}

theorem parentOf_set {i : Nat} (hi : i < parent.length) (v : Nat) :
    parentOf (parent.set i v) = Function.update (parentOf parent) i v := by
  funext j
  by_cases hj : j = i
  · subst hj
    simp [parentOf, hi]
  · simp [parentOf, getElem?_set_ne (Ne.symm hj), hj]

theorem parentOf_append {newId : Nat} (h : newId = parent.length) :
    parentOf (parent ++ [newId]) = parentOf parent := by
  funext j
  subst h
  simp only [parentOf, getD_eq_getElem?_getD]
  rcases lt_trichotomy j parent.length with hj | hj | hj
  · rw [getElem?_append_left hj]
  · simp [hj]
  · rw [getElem?_eq_none (by simp; omega), getElem?_eq_none (by omega)]

theorem findLoop_eq (hp : Forest.Descends (parentOf parent))
    (context : String) {fuel : Nat} {id : Nat} (hid : id < parent.length) (hfuel : id < fuel) :
    findLoop parent context fuel id = .ok (Forest.root (parentOf parent) id) := by
  induction fuel generalizing id with
  | zero => omega
  | succ fuel ih =>
    have hidx : eclassIndex id parent.length context = .ok id := by rw [eclassIndex, if_pos hid]
    simp only [findLoop, hidx]
    show (if parentOf parent id = id then _
      else findLoop parent context fuel (parentOf parent id)) = _
    by_cases hroot : parentOf parent id = id
    · rw [if_pos hroot, Forest.root_of_fixed hroot]
      rfl
    · have hlt := hp.lt_of_ne hroot
      rw [if_neg hroot, ih (hlt.trans hid) (by omega), hp.root_parent]

theorem findLoop_error (context : String) (fuel : Nat) {id : Nat}
    (hid : parent.length ≤ id) :
    findLoop parent context (fuel + 1) id =
      .error (.classIdOutOfBounds context id parent.length) := by
  have hidx : eclassIndex id parent.length context
      = .error (.classIdOutOfBounds context id parent.length) := by
    rw [eclassIndex, if_neg (by omega)]
  simp only [findLoop, hidx, bind, Except.bind]

theorem compressLoop_spec {cur : Nat} {fuel : Nat} {walk : Nat}
    (hp : Forest.Descends (parentOf parent)) (hwalk : walk < parent.length) (hfuel : walk < fuel)
    (hcur : Forest.root (parentOf parent) walk = cur) :
    ∃ parent', compressLoop cur fuel walk parent = (.ok (), parent') ∧
      parent'.length = parent.length ∧ Forest.Descends (parentOf parent') ∧
      ∀ i, Forest.root (parentOf parent') i = Forest.root (parentOf parent) i := by
  induction fuel generalizing walk parent with
  | zero => omega
  | succ fuel ih =>
    have hidx : eclassIndex walk parent.length "egraph path compression" = .ok walk := by
      rw [eclassIndex, if_pos hwalk]
    simp only [compressLoop, hidx]
    split_ifs with hnext
    · exact ⟨parent, rfl, rfl, hp, fun _ => rfl⟩
    · have hne : parentOf parent walk ≠ walk := by
        intro heq
        rw [Forest.root_of_fixed heq] at hcur
        exact hnext (heq.trans hcur)
      have hlt := hp.lt_of_ne hne
      have hset := parentOf_set hwalk cur
      rw [← hcur] at hset
      have hroots : ∀ i, Forest.root (parentOf (parent.set walk cur)) i
          = Forest.root (parentOf parent) i := by
        intro i
        rw [← hcur, hset, hp.root_update_root]
      have hp' : Forest.Descends (parentOf (parent.set walk cur)) := by
        rw [← hcur, hset]
        exact hp.update (hp.root_le walk)
      have hwalk' : parentOf parent walk < (parent.set walk cur).length := by
        rw [length_set]
        omega
      obtain ⟨parent', hrun, hlen, hdesc, hroot⟩ :=
        ih hp' hwalk' (by omega) (by rw [hroots, hp.root_parent, hcur])
      exact ⟨parent', hrun, by rw [hlen, length_set], hdesc,
        fun i => (hroot i).trans (hroots i)⟩

/-! ## What the operations do -/

namespace EGraph

def rootOf (g : EGraph L) (id : Nat) : Nat := Forest.root (parentOf g.parent) id

/-- The children of the node are classes. -/
abbrev Covers [ENodeLang L] (g : EGraph L) (n : L) : Prop :=
  ∀ c ∈ ENodeLang.children n, c < g.classes.length

structure WellFormed [ENodeLang L] (g : EGraph L) : Prop where
  length : g.parent.length = g.classes.length
  descends : Forest.Descends (parentOf g.parent)
  hashcons : ∀ k id, g.hashcons k = some id → id < g.classes.length
  children : ∀ i, ∀ n ∈ g.nodesAt i, g.Covers n
  pending : ∀ i ∈ g.pending, i < g.classes.length

structure Compressed (g g' : EGraph L) : Prop where
  eq : g' = { g with parent := g'.parent }
  length : g'.parent.length = g.parent.length
  descends : Forest.Descends (parentOf g'.parent)
  root : ∀ id, g'.rootOf id = g.rootOf id

def canon [ENodeLang L] (g : EGraph L) (n : L) : L :=
  ENodeLang.withChildren n ((ENodeLang.children n).map g.rootOf)

variable {g : EGraph L}

theorem canon_congr [ENodeLang L] {g' : EGraph L} (h : ∀ id, g'.rootOf id = g.rootOf id) (n : L) :
    g'.canon n = g.canon n := by
  rw [canon, canon, funext h]

theorem nodesAt_nil_of_le {i : Nat} (h : g.classes.length ≤ i) :
    g.nodesAt i = [] := by
  rw [nodesAt, getD_eq_getElem?_getD, getElem?_eq_none h]
  rfl

namespace Compressed

variable {g g' g'' : EGraph L}

theorem refl (h : Forest.Descends (parentOf g.parent)) : Compressed g g :=
  ⟨rfl, rfl, h, fun _ => rfl⟩

theorem trans (h : Compressed g g') (h' : Compressed g' g'') : Compressed g g'' where
  eq := by rw [h'.eq, h.eq]
  length := h'.length.trans h.length
  descends := h'.descends
  root := fun id => (h'.root id).trans (h.root id)

theorem classes (h : Compressed g g') : g'.classes = g.classes := by rw [h.eq]

theorem hashcons (h : Compressed g g') : g'.hashcons = g.hashcons := by rw [h.eq]

theorem pending (h : Compressed g g') : g'.pending = g.pending := by rw [h.eq]

theorem nodesAt (h : Compressed g g') (i : Nat) : g'.nodesAt i = g.nodesAt i := by
  rw [EGraph.nodesAt, h.classes, EGraph.nodesAt]

variable [ENodeLang L]

theorem canon (h : Compressed g g') (n : L) : g'.canon n = g.canon n := canon_congr h.root n

theorem wellFormed (h : Compressed g g') (hg : g.WellFormed) : g'.WellFormed where
  length := by rw [h.length, h.classes, hg.length]
  descends := h.descends
  hashcons := by
    rw [h.hashcons, h.classes]
    exact hg.hashcons
  children := by
    intro i n hn
    rw [h.nodesAt] at hn
    rw [Covers, h.classes]
    exact hg.children i n hn
  pending := by
    rw [h.pending, h.classes]
    exact hg.pending

end Compressed

namespace WellFormed

variable [ENodeLang L] {g : EGraph L} (hg : g.WellFormed)

include hg

theorem rootOf_lt {id : Nat} (hid : id < g.classes.length) : g.rootOf id < g.classes.length :=
  lt_of_le_of_lt (hg.descends.root_le id) hid

theorem rootOf_rootOf (id : Nat) : g.rootOf (g.rootOf id) = g.rootOf id := hg.descends.root_root id

theorem tryFindImmut {id : Nat} (hid : id < g.classes.length) :
    g.tryFindImmut id = .ok (g.rootOf id) := by
  rw [← hg.length] at hid
  exact findLoop_eq hg.descends _ hid (by omega)

theorem tryFind {id : Nat} (hid : id < g.classes.length) :
    ∃ g', exec (tryFind id) g = (.ok (g.rootOf id), g') ∧ Compressed g g' := by
  rw [← hg.length] at hid
  obtain ⟨parent', hrun, hlen, hdesc, hroots⟩ :=
    compressLoop_spec hg.descends hid (Nat.lt_succ_of_lt hid) rfl
  refine ⟨{ g with parent := parent' }, ?_, rfl, hlen, hdesc, hroots⟩
  have hfind := findLoop_eq hg.descends "egraph find" hid (Nat.lt_succ_of_lt hid)
  rw [Optimizer.tryFind, exec_bind_ok (exec_get g), hfind, exec_bind_ok (exec_liftExcept _ g)]
  simp only [hrun]
  rfl

theorem tryFind_error {id : Nat} (hid : g.classes.length ≤ id) :
    exec (Optimizer.tryFind id) g
      = (.error (.classIdOutOfBounds "egraph find" id g.classes.length), g) := by
  rw [← hg.length] at hid ⊢
  rw [Optimizer.tryFind, exec_bind_ok (exec_get g), findLoop_error _ _ hid]
  exact exec_bind_error (exec_liftExcept _ g)

theorem tryCanonicalize {n : L} (hn : g.Covers n) :
    g.tryCanonicalize n = .ok (g.canon n) := by
  have hmap : ∀ ids : List Nat, (∀ c ∈ ids, c < g.classes.length) →
      ids.mapM g.tryFindImmut = .ok (ids.map g.rootOf) := by
    intro ids hids
    induction ids with
    | nil => rfl
    | cons c ids ih =>
      rw [mapM_cons, hg.tryFindImmut (hids c (by simp)),
        ih fun d hd => hids d (mem_cons_of_mem c hd)]
      rfl
  rw [EGraph.tryCanonicalize, hmap _ hn]
  rfl

theorem tryCanonicalize_error {n : L} {c : Nat} (hc : c ∈ ENodeLang.children n)
    (hlen : g.classes.length ≤ c) : ∃ e, g.tryCanonicalize n = .error e := by
  have hmap : ∀ ids : List Nat, c ∈ ids → ∃ e, ids.mapM g.tryFindImmut = .error e := by
    intro ids hids
    induction ids with
    | nil => cases hids
    | cons d ids ih =>
      rw [mapM_cons]
      by_cases hd : d < g.classes.length
      · rw [hg.tryFindImmut hd]
        have hne : c ≠ d := by omega
        obtain ⟨e, he⟩ := ih ((mem_cons.mp hids).resolve_left hne)
        rw [he]
        exact ⟨e, rfl⟩
      · have herr : g.tryFindImmut d = .error _ :=
          findLoop_error "egraph immutable find" g.parent.length (by rw [hg.length]; omega)
        rw [herr]
        exact ⟨_, rfl⟩
  obtain ⟨e, he⟩ := hmap _ hc
  refine ⟨e, ?_⟩
  rw [EGraph.tryCanonicalize, he]
  rfl

theorem tryUnion {a b : Nat} (ha : a < g.classes.length) (hb : b < g.classes.length) :
    ∃ g', Compressed g g' ∧ exec (tryUnion a b) g =
      if g.rootOf a = g.rootOf b then (.ok (g.rootOf a), g')
      else (.ok (min (g.rootOf a) (g.rootOf b)),
        g'.merge (min (g.rootOf a) (g.rootOf b)) (max (g.rootOf a) (g.rootOf b))) := by
  obtain ⟨g₁, hrun₁, hc₁⟩ := hg.tryFind ha
  obtain ⟨g₂, hrun₂, hc₂⟩ := (hc₁.wellFormed hg).tryFind (by rw [hc₁.classes]; exact hb)
  have hc := hc₁.trans hc₂
  refine ⟨g₂, hc, ?_⟩
  rw [Optimizer.tryUnion, exec_bind_ok hrun₁, exec_bind_ok hrun₂, hc₁.root]
  by_cases heq : g.rootOf a = g.rootOf b
  · rw [if_pos heq, if_pos heq]
    rfl
  · rw [if_neg heq, if_neg heq]
    have hidx : ∀ {id : Nat} (context : String), id < g.classes.length →
        eclassIndex id g₂.classes.length context = .ok id := by
      intro id context hid
      rw [eclassIndex, hc.classes, if_pos hid]
    have hra := hg.rootOf_lt ha
    have hrb := hg.rootOf_lt hb
    rcases lt_or_gt_of_ne heq with hlt | hlt
    · simp only [if_pos hlt, min_eq_left hlt.le, max_eq_right hlt.le]
      rw [exec_bind_ok (exec_get g₂), hidx _ hra, exec_bind_ok (exec_liftExcept _ g₂), hidx _ hrb,
        exec_bind_ok (exec_liftExcept _ g₂)]
      rfl
    · simp only [if_neg (not_lt_of_gt hlt), min_eq_right hlt.le, max_eq_left hlt.le]
      rw [exec_bind_ok (exec_get g₂), hidx _ hrb, exec_bind_ok (exec_liftExcept _ g₂), hidx _ hra,
        exec_bind_ok (exec_liftExcept _ g₂)]
      rfl

theorem tryUnion_error {a b : Nat} (h : g.classes.length ≤ a ∨ g.classes.length ≤ b) :
    ∃ e g', exec (Optimizer.tryUnion a b) g = (.error e, g') ∧ Compressed g g' := by
  by_cases ha : g.classes.length ≤ a
  · refine ⟨_, g, exec_bind_error (hg.tryFind_error ha), .refl hg.descends⟩
  · obtain ⟨g₁, hrun₁, hc₁⟩ := hg.tryFind (not_le.mp ha)
    have hb : g₁.classes.length ≤ b := by
      rw [hc₁.classes]
      exact h.resolve_left ha
    have hrun₂ := (hc₁.wellFormed hg).tryFind_error hb
    exact ⟨_, g₁, (exec_bind_ok hrun₁).trans (exec_bind_error hrun₂), hc₁⟩

end WellFormed

theorem nodesAt_merge {winner loser : Nat} (hne : winner ≠ loser)
    (hw : winner < g.classes.length) (hl : loser < g.classes.length) (i : Nat) :
    (g.merge winner loser).nodesAt i =
      if i = winner then g.nodesAt winner ++ g.nodesAt loser
      else if i = loser then [] else g.nodesAt i := by
  simp only [nodesAt, merge]
  by_cases hiw : i = winner
  · subst hiw
    simp [hne.symm, hw]
  · by_cases hil : i = loser
    · subst hil
      simp [hne, hl, hiw]
    · simp [hiw, hil, Ne.symm hiw, Ne.symm hil]

theorem WellFormed.rootOf_merge [ENodeLang L] (hg : g.WellFormed)
    {winner loser : Nat} (hlt : winner < loser) (hw : g.rootOf winner = winner)
    (hl : g.rootOf loser = loser) (hlen : loser < g.classes.length) (id : Nat) :
    (g.merge winner loser).rootOf id = if g.rootOf id = loser then winner else g.rootOf id := by
  have hloser : loser < g.parent.length := by rw [hg.length]; exact hlen
  have hset := parentOf_set hloser winner
  show Forest.root (parentOf (g.parent.set loser winner)) id = _
  rw [hset, hg.descends.root_update_link (hg.descends.root_eq_self_iff.mp hl)
    (hg.descends.root_eq_self_iff.mp hw) hlt]
  rfl

theorem WellFormed.merge [ENodeLang L] (hg : g.WellFormed) {winner loser : Nat}
    (hlt : winner < loser) (hlen : loser < g.classes.length) :
    (g.merge winner loser).WellFormed := by
  have hclasses : (g.merge winner loser).classes.length = g.classes.length := by simp [EGraph.merge]
  have hloser : loser < g.parent.length := by rw [hg.length]; exact hlen
  refine ⟨?_, ?_, ?_, ?_, ?_⟩
  · rw [hclasses, ← hg.length]
    simp [EGraph.merge]
  · show Forest.Descends (parentOf (g.parent.set loser winner))
    rw [parentOf_set hloser]
    exact hg.descends.update hlt.le
  · rw [hclasses]
    exact hg.hashcons
  · intro i n hn
    rw [Covers, hclasses]
    rw [nodesAt_merge hlt.ne (hlt.trans hlen) hlen] at hn
    split_ifs at hn with hw hl
    · exact forall_mem_append.mpr ⟨hg.children _, hg.children _⟩ n hn
    · cases hn
    · exact hg.children i n hn
  · rw [hclasses]
    exact forall_mem_cons.mpr ⟨hlt.trans hlen, hg.pending⟩

/-! ### Adding -/

section Add

variable [ENodeLang L] [LawfulENodeLang L] {g : EGraph L}

theorem children_canon (g : EGraph L) (n : L) :
    ENodeLang.children (g.canon n) = (ENodeLang.children n).map g.rootOf :=
  LawfulENodeLang.children_withChildren n _ (by simp)

theorem WellFormed.canon_canon (hg : g.WellFormed) (n : L) : g.canon (g.canon n) = g.canon n := by
  rw [canon, children_canon, map_map]
  have hroots : g.rootOf ∘ g.rootOf = g.rootOf := funext hg.rootOf_rootOf
  rw [hroots, canon, LawfulENodeLang.withChildren_withChildren n _ _ (by simp) (by simp)]

theorem WellFormed.canon_lt (hg : g.WellFormed) {n : L}
    (hn : g.Covers n) :
    g.Covers (g.canon n) := by
  intro c hc
  rw [children_canon] at hc
  obtain ⟨d, hd, rfl⟩ := mem_map.mp hc
  exact hg.rootOf_lt (hn d hd)

omit [LawfulENodeLang L] in
theorem WellFormed.mapM_childIndex (hg : g.WellFormed) {ids : List Nat}
    (hids : ∀ c ∈ ids, c < g.classes.length) :
    ∃ indices g', exec (ids.mapM childIndex) g = (.ok indices, g') ∧ Compressed g g' := by
  induction ids generalizing g with
  | nil => exact ⟨[], g, rfl, .refl hg.descends⟩
  | cons c ids ih =>
    obtain ⟨g₁, hrun, hc₁⟩ := hg.tryFind (hids c (by simp))
    have hidx : exec (childIndex c) g = (.ok (g.rootOf c), g₁) := by
      rw [childIndex, exec_bind_ok hrun, exec_bind_ok (exec_get g₁), exec_liftExcept, eclassIndex,
        hc₁.classes, if_pos (hg.rootOf_lt (hids c (by simp)))]
    obtain ⟨indices, g₂, hruns, hc₂⟩ := ih (hc₁.wellFormed hg) fun d hd => by
      rw [hc₁.classes]
      exact hids d (mem_cons_of_mem c hd)
    refine ⟨g.rootOf c :: indices, g₂, ?_, hc₁.trans hc₂⟩
    rw [mapM_cons, exec_bind_ok hidx, exec_bind_ok hruns]
    rfl

variable [DecidableEq L]

omit [LawfulENodeLang L] in
theorem WellFormed.tryAdd_hit (hg : g.WellFormed) {n : L}
    (hn : g.Covers n) {existing : Nat}
    (hhit : g.hashcons (g.canon n) = some existing) :
    ∃ g', exec (tryAdd n) g = (.ok (g.rootOf existing), g') ∧ Compressed g g' := by
  obtain ⟨g', hrun, hc⟩ := hg.tryFind (hg.hashcons _ _ hhit)
  refine ⟨g', ?_, hc⟩
  rw [tryAdd, exec_bind_ok (exec_get g), hg.tryCanonicalize hn, exec_bind_ok (exec_liftExcept _ g)]
  simp only [hhit]
  exact hrun

theorem WellFormed.tryAdd_miss (hg : g.WellFormed) {n : L}
    (hn : g.Covers n)
    (hmiss : g.hashcons (g.canon n) = none) (hlen : g.classes.length < 2 ^ 32) :
    ∃ indices g', exec (tryAdd n) g
        = (.ok g.classes.length, g'.insertClass (g.canon n) g.classes.length indices) ∧
      Compressed g g' := by
  obtain ⟨indices, g', hrun, hc⟩ := hg.mapM_childIndex (hg.canon_lt hn)
  refine ⟨indices, g', ?_, hc⟩
  rw [tryAdd, exec_bind_ok (exec_get g), hg.tryCanonicalize hn, exec_bind_ok (exec_liftExcept _ g)]
  simp only [hmiss]
  rw [tryEclassIdFromIndex, if_pos hlen, exec_bind_ok (exec_liftExcept _ g), exec_bind_ok hrun]
  rfl

omit [LawfulENodeLang L] in
theorem WellFormed.tryAdd_error (hg : g.WellFormed) {n : L}
    (h : (∃ c ∈ ENodeLang.children n, g.classes.length ≤ c) ∨
      g.Covers n ∧ g.hashcons (g.canon n) = none ∧
        2 ^ 32 ≤ g.classes.length) :
    ∃ e, exec (tryAdd n) g = (.error e, g) := by
  rcases h with ⟨c, hc, hlen⟩ | ⟨hn, hmiss, hlen⟩
  · obtain ⟨e, he⟩ := hg.tryCanonicalize_error hc hlen
    refine ⟨e, ?_⟩
    rw [tryAdd, exec_bind_ok (exec_get g), he]
    exact exec_bind_error (exec_liftExcept _ g)
  · refine ⟨.classIdOverflow g.classes.length, ?_⟩
    rw [tryAdd, exec_bind_ok (exec_get g), hg.tryCanonicalize hn,
      exec_bind_ok (exec_liftExcept _ g)]
    simp only [hmiss]
    rw [tryEclassIdFromIndex, if_neg (not_lt.mpr hlen)]
    exact exec_bind_error (exec_liftExcept _ g)

omit [ENodeLang L] [LawfulENodeLang L] in
theorem rootOf_insertClass {newId : Nat} (h : newId = g.parent.length) (n : L) (indices : List Nat)
    (id : Nat) : (g.insertClass n newId indices).rootOf id = g.rootOf id := by
  show Forest.root (parentOf (g.parent ++ [newId])) id = _
  rw [parentOf_append h]
  rfl

omit [ENodeLang L] [LawfulENodeLang L] [DecidableEq L] in
theorem nodes_registered (newId : Nat) (indices : List Nat) (classes : List (EClass L)) :
    (indices.foldl (fun classes idx =>
      classes.modify idx fun c => { c with parents := c.parents ++ [newId] }) classes).map (·.nodes)
      = classes.map (·.nodes) := by
  induction indices generalizing classes with
  | nil => rfl
  | cons idx indices ih =>
    rw [foldl_cons, ih]
    apply ext_getElem?
    intro i
    simp only [getElem?_map, getElem?_modify]
    by_cases hi : idx = i
    · cases classes[i]? <;> simp [hi]
    · cases classes[i]? <;> simp [hi]

omit [ENodeLang L] [LawfulENodeLang L] in
theorem nodesAt_insertClass (n : L) (newId : Nat) (indices : List Nat) (i : Nat) :
    (g.insertClass n newId indices).nodesAt i =
      if i = g.classes.length then [n] else g.nodesAt i := by
  have hnodes : ∀ h : EGraph L, h.nodesAt i = ((h.classes.map (·.nodes))[i]?).getD [] := by
    intro h
    rw [nodesAt, getD_eq_getElem?_getD, getElem?_map]
    cases h.classes[i]? <;> rfl
  rw [hnodes, hnodes, insertClass, map_append, nodes_registered]
  rcases lt_trichotomy i g.classes.length with hi | hi | hi
  · rw [getElem?_append_left (by simpa using hi), if_neg hi.ne]
  · subst hi
    simp
  · rw [if_neg hi.ne', getElem?_eq_none (by simp; omega), getElem?_eq_none (by simp; omega)]

omit [ENodeLang L] [LawfulENodeLang L] in
theorem length_insertClass (n : L) (newId : Nat) (indices : List Nat) :
    (g.insertClass n newId indices).classes.length = g.classes.length + 1 := by
  have := congrArg length (nodes_registered newId indices g.classes)
  simp only [length_map] at this
  simp [insertClass, this]

omit [LawfulENodeLang L] in
theorem WellFormed.insertClass (hg : g.WellFormed) {n : L}
    (hn : g.Covers n) (indices : List Nat) :
    (g.insertClass n g.classes.length indices).WellFormed := by
  refine ⟨?_, ?_, ?_, ?_, ?_⟩
  · rw [length_insertClass, ← hg.length]
    simp [EGraph.insertClass]
  · show Forest.Descends (parentOf (g.parent ++ [g.classes.length]))
    rw [parentOf_append hg.length.symm]
    exact hg.descends
  · intro k id hk
    rw [length_insertClass]
    by_cases hkn : k = n
    · have : g.classes.length = id := by simpa [EGraph.insertClass, hkn] using hk
      omega
    · have := hg.hashcons k id (by simpa [EGraph.insertClass, hkn] using hk)
      omega
  · intro i m hm c hc
    rw [length_insertClass]
    rw [nodesAt_insertClass] at hm
    split_ifs at hm with hi
    · obtain rfl := mem_singleton.mp hm
      have := hn c hc
      omega
    · have := hg.children i m hm c hc
      omega
  · intro i hi
    rw [length_insertClass]
    have := hg.pending i hi
    omega

end Add

end EGraph

end Vyre.Optimizer
