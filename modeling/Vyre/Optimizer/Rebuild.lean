import Mathlib.Algebra.Order.BigOperators.Group.Finset
import Vyre.Optimizer.EGraph

/-!
# Rebuilding ends

What one node of `try_rebuild` does to the graph, and that the queue runs empty:
each union leaves one root less, and the classes scheduled without one are at
most as many as the nodes of a class that has just lost its root.
-/

namespace Vyre.Optimizer

open ExceptState List

variable {L : Type}

namespace EGraph

def insertKey [DecidableEq L] (g : EGraph L) (k : L) (id : Nat) : EGraph L :=
  { g with hashcons := Function.update g.hashcons k (some id) }

variable (g : EGraph L)

def schedule (id : Nat) : EGraph L := { g with pending := id :: g.pending }

section

variable [ENodeLang L] {g : EGraph L}

theorem WellFormed.insertKey [DecidableEq L] (hg : g.WellFormed) {k : L} {id : Nat}
    (hid : id < g.classes.length) : (g.insertKey k id).WellFormed where
  length := hg.length
  descends := hg.descends
  hashcons := by
    intro k' id' h
    by_cases hk : k' = k
    · have : id = id' := by simpa [EGraph.insertKey, hk] using h
      exact this ▸ hid
    · exact hg.hashcons k' id' (by simpa [EGraph.insertKey, hk] using h)
  children := hg.children
  pending := hg.pending

theorem WellFormed.schedule (hg : g.WellFormed) {id : Nat} (hid : id < g.classes.length) :
    (g.schedule id).WellFormed where
  length := hg.length
  descends := hg.descends
  hashcons := hg.hashcons
  children := hg.children
  pending := forall_mem_cons.mpr ⟨hid, hg.pending⟩

/-- The graph before a node is put into the hashcons: as it is, or after a union
with the class that the hashcons names for the node. -/
inductive Collides (canonical : Nat) (g g₁ : EGraph L) (n : L) : Nat → EGraph L → Prop
  /-- The canonical node is new, or in the class already. -/
  | none (h : ∀ e, g.hashcons (g.canon n) = some e → g.rootOf e = canonical) :
      Collides canonical g g₁ n 0 g₁
  /-- The class is no longer a root, and the node is in the class that it went to. -/
  | joined {e : Nat} (he : g.hashcons (g.canon n) = some e) (hne : g.rootOf e ≠ canonical)
      (heq : g.rootOf e = g.rootOf canonical) :
      Collides canonical g g₁ n 1 (g₁.schedule (g.rootOf canonical))
  /-- The node is in another class, and this one stays a root. -/
  | wins {e : Nat} (he : g.hashcons (g.canon n) = some e) (hroot : g.rootOf canonical = canonical)
      (hlt : canonical < g.rootOf e) :
      Collides canonical g g₁ n 1 (g₁.merge canonical (g.rootOf e))
  /-- The node is in another class, and this one is not a root afterwards. -/
  | loses {e winner loser : Nat} (he : g.hashcons (g.canon n) = some e)
      (hroots : winner = g.rootOf e ∧ loser = g.rootOf canonical ∨
        winner = g.rootOf canonical ∧ loser = g.rootOf e)
      (hlt : winner < loser) (hne : winner ≠ canonical) :
      Collides canonical g g₁ n 1 ((g₁.merge winner loser).schedule winner)

theorem WellFormed.unionExisting (hg : g.WellFormed) {canonical : Nat}
    (hcanonical : canonical < g.classes.length) (n : L) :
    ∃ g₁ unions g₂, Compressed g g₁ ∧ Collides canonical g g₁ n unions g₂ ∧
      exec (unionExisting canonical (g.canon n)) g = (.ok unions, g₂) := by
  rw [Optimizer.unionExisting, exec_bind_ok (exec_get g)]
  cases hhit : g.hashcons (g.canon n) with
  | none => exact ⟨g, 0, g, .refl hg.descends, .none (by simp [hhit]), rfl⟩
  | some e =>
    obtain ⟨g₁, hrun₁, hc₁⟩ := hg.tryFind (hg.hashcons _ _ hhit)
    have hg₁ := hc₁.wellFormed hg
    rw [exec_bind_ok hrun₁]
    split_ifs with hsame
    · refine ⟨g₁, 0, g₁, hc₁, .none ?_, rfl⟩
      intro e' he'
      rw [hhit] at he'
      cases he'
      exact hsame
    · obtain ⟨g₂, hc₂, hrun₂⟩ := hg₁.tryUnion
        (by rw [hc₁.classes]; exact hg.rootOf_lt (hg.hashcons _ _ hhit))
        (show canonical < g₁.classes.length by rw [hc₁.classes]; exact hcanonical)
      rw [hc₁.root, hc₁.root, hg.rootOf_rootOf] at hrun₂
      have hc := hc₁.trans hc₂
      by_cases hroots : g.rootOf e = g.rootOf canonical
      · rw [if_pos hroots] at hrun₂
        refine ⟨g₂, 1, _, hc, .joined hhit hsame hroots, ?_⟩
        rw [exec_bind_ok hrun₂, if_neg hsame, hroots]
        rfl
      · rw [if_neg hroots] at hrun₂
        rw [exec_bind_ok hrun₂]
        by_cases hwin : min (g.rootOf e) (g.rootOf canonical) = canonical
        · -- the winner is below both roots, so it is the root of this class
          have hroot : g.rootOf canonical = canonical := by omega
          have hlt : canonical < g.rootOf e := by omega
          refine ⟨g₂, 1, _, hc, .wins hhit hroot hlt, ?_⟩
          rw [if_pos hwin, hwin, hroot, max_eq_left hlt.le]
          rfl
        · refine ⟨g₂, 1, _, hc, .loses hhit ?_ (min_lt_max.mpr hroots) hwin, ?_⟩
          · rcases lt_or_gt_of_ne hroots with hlt | hlt
            · exact .inl ⟨min_eq_left hlt.le, max_eq_right hlt.le⟩
            · exact .inr ⟨min_eq_right hlt.le, max_eq_left hlt.le⟩
          · rw [if_neg hwin]
            rfl

theorem WellFormed.rebuildNode [DecidableEq L] (hg : g.WellFormed) {canonical : Nat}
    (hcanonical : canonical < g.classes.length) {n : L}
    (hn : g.Covers n) :
    ∃ g₁ unions g₂, Compressed g g₁ ∧ Collides canonical g g₁ n unions g₂ ∧
      exec (rebuildNode canonical n) g
        = (.ok (g.canon n, unions), g₂.insertKey (g.canon n) canonical) := by
  obtain ⟨g₁, unions, g₂, hc, hcollides, hrun⟩ := hg.unionExisting hcanonical n
  refine ⟨g₁, unions, g₂, hc, hcollides, ?_⟩
  rw [Optimizer.rebuildNode, exec_bind_ok (exec_get g), hg.tryCanonicalize hn,
    exec_bind_ok (exec_liftExcept _ g), exec_bind_ok hrun]
  rfl

/-! ## Counting -/

def roots (g : EGraph L) : Nat :=
  ((Finset.range g.classes.length).filter fun i => g.rootOf i = i).card

omit [ENodeLang L] in
theorem Compressed.roots {g' : EGraph L} (h : Compressed g g') : g'.roots = g.roots := by
  rw [EGraph.roots, EGraph.roots, h.classes]
  simp only [h.root]

omit [ENodeLang L] in
theorem Compressed.total {g' : EGraph L} (h : Compressed g g') : g'.total = g.total := by
  rw [EGraph.total, EGraph.total, h.classes]

theorem WellFormed.roots_merge (hg : g.WellFormed) {winner loser : Nat} (hlt : winner < loser)
    (hw : g.rootOf winner = winner) (hl : g.rootOf loser = loser)
    (hlen : loser < g.classes.length) : (g.merge winner loser).roots + 1 = g.roots := by
  have hclasses : (g.merge winner loser).classes.length = g.classes.length := by simp [EGraph.merge]
  have herase :
      ((Finset.range g.classes.length).filter fun i => (g.merge winner loser).rootOf i = i)
      = ((Finset.range g.classes.length).filter fun i => g.rootOf i = i).erase loser := by
    ext i
    simp only [Finset.mem_filter, Finset.mem_erase,
      hg.rootOf_merge hlt hw hl hlen]
    constructor
    · rintro ⟨hi, hroot⟩
      split_ifs at hroot with h
      · rw [← hroot] at h
        omega
      · exact ⟨fun heq => h (hroot.trans heq), hi, hroot⟩
    · rintro ⟨hne, hi, hroot⟩
      rw [hroot, if_neg hne]
      exact ⟨hi, rfl⟩
  have hmem : loser ∈ (Finset.range g.classes.length).filter fun i => g.rootOf i = i := by
    simp [hl, hlen]
  rw [EGraph.roots, hclasses, herase, Finset.card_erase_of_mem hmem, EGraph.roots]
  have := Finset.card_pos.mpr ⟨loser, hmem⟩
  omega

end

variable {i : Nat}

theorem sum_set_add (xs : List Nat) (hi : i < xs.length) (v : Nat) :
    (xs.set i v).sum + xs.getD i 0 = xs.sum + v := by
  induction xs generalizing i with
  | nil => cases hi
  | cons x xs ih =>
    cases i with
    | zero =>
      simp only [set_cons_zero, sum_cons, getD_cons_zero]
      omega
    | succ i =>
      have := ih (Nat.lt_of_succ_lt_succ hi)
      simp only [set_cons_succ, sum_cons, getD_cons_succ]
      omega

theorem map_nodes_modify (classes : List (EClass L)) (i : Nat) (f : EClass L → EClass L) :
    (classes.modify i f).map (·.nodes.length) =
      (classes.map (·.nodes.length)).set i (f (classes.getD i {})).nodes.length := by
  apply ext_getElem?
  intro j
  by_cases hj : i = j
  · subst hj
    cases hc : classes[i]? with
    | none => simp [getElem?_eq_none_iff.mp hc]
    | some c =>
      have hi := (List.getElem?_eq_some_iff.mp hc).1
      simp [hi]
  · simp [hj]

theorem getD_length (i : Nat) :
    (g.classes.map (·.nodes.length)).getD i 0 = (g.nodesAt i).length := by
  rw [nodesAt, getD_eq_getElem?_getD, getD_eq_getElem?_getD, getElem?_map]
  cases g.classes[i]? <;> rfl

theorem total_setNodes (hi : i < g.classes.length) (ns : List L) :
    (g.setNodes i ns).total + (g.nodesAt i).length = g.total + ns.length := by
  have := sum_set_add (g.classes.map (·.nodes.length)) (by simpa using hi) ns.length
  rw [getD_length] at this
  rw [total, setNodes, map_nodes_modify]
  exact this

theorem total_merge {winner loser : Nat} (hne : winner ≠ loser)
    (hw : winner < g.classes.length) (hl : loser < g.classes.length) :
    (g.merge winner loser).total = g.total := by
  have hkeep : (g.classes.set loser {}).getD winner {} = g.classes.getD winner {} := by
    simp [getElem?_set_ne hne.symm]
  have hfirst := sum_set_add (g.classes.map (·.nodes.length)) (by simpa using hl) 0
  have hsecond := sum_set_add ((g.classes.map (·.nodes.length)).set loser 0)
    (show winner < _ by simpa using hw) ((g.nodesAt winner).length + (g.nodesAt loser).length)
  have hsame : ((g.classes.map (·.nodes.length)).set loser 0).getD winner 0
      = (g.nodesAt winner).length := by
    rw [← getD_length]
    simp [getElem?_set_ne hne.symm]
  rw [getD_length] at hfirst
  have hmap : (g.merge winner loser).classes.map (·.nodes.length)
      = ((g.classes.map (·.nodes.length)).set loser 0).set winner
        ((g.nodesAt winner).length + (g.nodesAt loser).length) := by
    rw [merge, map_nodes_modify, hkeep]
    simp [nodesAt]
  rw [total, hmap, total]
  omega

theorem length_setNodes (i : Nat) (ns : List L) :
    (g.setNodes i ns).classes.length = g.classes.length := by
  simp [setNodes]

theorem nodesAt_setNodes (hi : i < g.classes.length) (ns : List L) (j : Nat) :
    (g.setNodes i ns).nodesAt j = if j = i then ns else g.nodesAt j := by
  simp only [nodesAt, setNodes]
  by_cases hj : j = i
  · subst hj
    simp [hi]
  · simp [hj, Ne.symm hj]

theorem WellFormed.setNodes [ENodeLang L] {g : EGraph L} (hg : g.WellFormed)
    (hi : i < g.classes.length) {ns : List L}
    (hns : ∀ n ∈ ns, g.Covers n) :
    (g.setNodes i ns).WellFormed := by
  have hlen := length_setNodes g i ns
  refine ⟨?_, hg.descends, ?_, ?_, ?_⟩
  · rw [hlen]
    exact hg.length
  · rw [hlen]
    exact hg.hashcons
  · intro j n hn
    rw [Covers, hlen]
    rw [nodesAt_setNodes g hi] at hn
    split_ifs at hn with hj
    · exact hns n hn
    · exact hg.children j n hn
  · rw [hlen]
    exact hg.pending

end EGraph

/-! ## A rule for rebuilding -/

open EGraph

variable [ENodeLang L]

/-- A property of graphs that rebuilding keeps: `Good` says what is known of the
nodes of a class, also while they are taken out of it. -/
structure RebuildRule (J : EGraph L → Prop) (Good : Nat → L → Prop) [DecidableEq L] : Prop where
  stored : ∀ {g i n}, J g → n ∈ g.nodesAt i → Good i n
  compressed : ∀ {g g'}, J g → Compressed g g' → J g'
  pending : ∀ {g} (pending : List Nat), J g → J { g with pending }
  setNodes : ∀ {g i ns}, J g → i < g.classes.length → (∀ n ∈ ns, Good i n) → J (g.setNodes i ns)
  canon : ∀ {g i n}, J g → g.WellFormed → Good i n → Good i (g.canon n)
  insertKey : ∀ {g i k}, J g → Good i k → J (g.insertKey k i)
  merge : ∀ {g n canonical e winner loser}, J g → g.WellFormed → canonical < g.classes.length →
    Good canonical n → g.hashcons (g.canon n) = some e →
    (winner = g.rootOf e ∧ loser = g.rootOf canonical ∨
      winner = g.rootOf canonical ∧ loser = g.rootOf e) →
    winner < loser → J (g.merge winner loser)

section Rule

variable [DecidableEq L]

/-- The state of the loop over the `m` nodes taken from a class, with `k` of them
still to come. A class that is not a root any more may schedule others twice for
each of them, which the root that is gone pays for. -/
structure Progress (J : EGraph L → Prop) (T m bound canonical k : Nat) (g : EGraph L) : Prop where
  wf : g.WellFormed
  holds : J g
  canonical_lt : canonical < g.classes.length
  total : g.total + m ≤ T
  queue : g.pending.length + (2 * T + 3) * g.roots +
    (if g.rootOf canonical = canonical then 0 else 2 * k + 1) ≤ bound

variable {J : EGraph L → Prop} {Good : Nat → L → Prop} {T m bound canonical k : Nat}

variable {n : L} {len : Nat}

theorem Progress.collides (hJ : RebuildRule J Good) (hk : k < m) {g g₁ g₂ : EGraph L} {unions : Nat}
    (h : Progress J T m bound canonical (k + 1) g) (hn : Good canonical n) (hc : Compressed g g₁)
    (hcollides : Collides canonical g g₁ n unions g₂) :
    Progress J T m bound canonical k g₂ ∧ g₂.classes.length = g.classes.length := by
  have hwf₁ := hc.wellFormed h.wf
  have hJ₁ := hJ.compressed h.holds hc
  have hqueue := h.queue
  rw [← hc.pending, ← hc.roots, ← hc.root] at hqueue
  have hlt₁ : canonical < g₁.classes.length := by
    rw [hc.classes]
    exact h.canonical_lt
  have htotal₁ : g₁.total + m ≤ T := by
    rw [hc.total]
    exact h.total
  -- the two representatives are different roots
  have hmerge : ∀ {e winner loser : Nat}, g.hashcons (g.canon n) = some e →
      (winner = g.rootOf e ∧ loser = g.rootOf canonical ∨
        winner = g.rootOf canonical ∧ loser = g.rootOf e) → winner < loser →
      g₁.rootOf winner = winner ∧ g₁.rootOf loser = loser ∧ loser < g₁.classes.length ∧
        J (g₁.merge winner loser) := by
    intro e winner loser he hor hlt
    have hJm : J (g₁.merge winner loser) := by
      refine hJ.merge hJ₁ hwf₁ hlt₁ hn (e := e) (by rw [hc.hashcons, hc.canon]; exact he) ?_ hlt
      rw [hc.root, hc.root]
      exact hor
    have hroot : ∀ id, g₁.rootOf (g.rootOf id) = g.rootOf id := fun id => by
      rw [hc.root, h.wf.rootOf_rootOf]
    have he_lt := h.wf.rootOf_lt (h.wf.hashcons _ _ he)
    have hc_lt := h.wf.rootOf_lt h.canonical_lt
    rw [hc.classes]
    rcases hor with ⟨rfl, rfl⟩ | ⟨rfl, rfl⟩
    · exact ⟨hroot _, hroot _, hc_lt, hJm⟩
    · exact ⟨hroot _, hroot _, he_lt, hJm⟩
  cases hcollides with
  | none hno =>
    refine ⟨⟨hwf₁, hJ₁, hlt₁, htotal₁, ?_⟩, by rw [hc.classes]⟩
    split_ifs at hqueue ⊢ <;> omega
  | joined he hne heq =>
    have hnot : g₁.rootOf canonical ≠ canonical := by
      rw [hc.root, ← heq]
      exact hne
    have hlt : g.rootOf canonical < g₁.classes.length := by
      rw [hc.classes]
      exact h.wf.rootOf_lt h.canonical_lt
    refine ⟨⟨hwf₁.schedule hlt, hJ.pending _ hJ₁, hlt₁, htotal₁, ?_⟩, by rw [← hc.classes]; rfl⟩
    rw [if_neg hnot] at hqueue
    show (g.rootOf canonical :: g₁.pending).length + (2 * T + 3) * g₁.roots +
      (if g₁.rootOf canonical = canonical then 0 else 2 * k + 1) ≤ bound
    rw [if_neg hnot, length_cons]
    omega
  | @wins e he hroot hlt =>
    obtain ⟨hw, hl, hlen, hJm⟩ := hmerge he (.inr ⟨hroot.symm, rfl⟩) hlt
    have hone := hwf₁.roots_merge hlt hw hl hlen
    have hmerged := hwf₁.rootOf_merge hlt hw hl hlen canonical
    rw [hw, if_neg hlt.ne] at hmerged
    have hclasses : (g₁.merge canonical (g.rootOf e)).classes.length = g.classes.length := by
      simp [EGraph.merge, hc.classes]
    refine ⟨⟨hwf₁.merge hlt hlen, hJm, by rw [hclasses]; exact h.canonical_lt, ?_, ?_⟩, hclasses⟩
    · rw [total_merge g₁ hlt.ne hlt₁ hlen]
      exact htotal₁
    · show (canonical :: g₁.pending).length + _ + _ ≤ bound
      rw [← hone, Nat.mul_succ] at hqueue
      rw [if_pos hmerged, length_cons]
      omega
  | @loses e winner loser he hor hlt hne =>
    obtain ⟨hw, hl, hlen, hJm⟩ := hmerge he hor hlt
    have hone := hwf₁.roots_merge hlt hw hl hlen
    have hmerged := hwf₁.rootOf_merge hlt hw hl hlen canonical
    -- the new root is the winner, whichever class this one was in
    have hnot : (g₁.merge winner loser).rootOf canonical ≠ canonical := by
      rw [hmerged, hc.root]
      rcases hor with ⟨-, rfl⟩ | ⟨rfl, -⟩
      · rw [if_pos rfl]
        exact hne
      · rw [if_neg hlt.ne]
        exact hne
    have hclasses : (g₁.merge winner loser).classes.length = g.classes.length := by
      simp [EGraph.merge, hc.classes]
    refine ⟨⟨(hwf₁.merge hlt hlen).schedule ?_, hJ.pending _ hJm, ?_, ?_, ?_⟩, hclasses⟩
    · rw [hclasses, ← hc.classes]
      exact hlt.trans hlen
    · show canonical < (g₁.merge winner loser).classes.length
      rw [hclasses]
      exact h.canonical_lt
    · show (g₁.merge winner loser).total + m ≤ T
      rw [total_merge g₁ hlt.ne (hlt.trans hlen) hlen]
      exact htotal₁
    · show (winner :: winner :: g₁.pending).length + (2 * T + 3) * (g₁.merge winner loser).roots +
        (if (g₁.merge winner loser).rootOf canonical = canonical then 0 else 2 * k + 1) ≤ bound
      rw [← hone, Nat.mul_succ] at hqueue
      rw [if_neg hnot, length_cons, length_cons]
      split_ifs at hqueue <;> omega

def Taken (Good : Nat → L → Prop) (len canonical : Nat) (n : L) : Prop :=
  Good canonical n ∧ ∀ c ∈ ENodeLang.children n, c < len

variable [LawfulENodeLang L]

theorem Progress.rebuildNode (hJ : RebuildRule J Good) (hk : k < m)
    (hn : Taken Good len canonical n) :
    Ensures (fun g => Progress J T m bound canonical (k + 1) g ∧ g.classes.length = len)
      (rebuildNode canonical n)
      fun r g => (Progress J T m bound canonical k g ∧ g.classes.length = len) ∧
        Taken Good len canonical r.1 := by
  rintro g ⟨h, rfl⟩
  obtain ⟨g₁, unions, g₂, hc, hcollides, hrun⟩ := h.wf.rebuildNode h.canonical_lt hn.2
  obtain ⟨h₂, hlen⟩ := h.collides hJ hk hn.1 hc hcollides
  have hgood := hJ.canon h.holds h.wf hn.1
  refine ⟨_, _, hrun, ⟨⟨h₂.wf.insertKey h₂.canonical_lt, hJ.insertKey h₂.holds hgood,
    h₂.canonical_lt, h₂.total, h₂.queue⟩, hlen⟩, hgood, h.wf.canon_lt hn.2⟩

theorem Progress.rebuildNodes (hJ : RebuildRule J Good) {ns : List L}
    (hns : ∀ n ∈ ns, Taken Good len canonical n) :
    Ensures
      (fun g => Progress J T ns.length bound canonical ns.length g ∧ g.classes.length = len)
      (ns.mapM (Optimizer.rebuildNode canonical))
      fun rs g => (Progress J T ns.length bound canonical 0 g ∧ g.classes.length = len) ∧
        rs.length = ns.length ∧ ∀ r ∈ rs, Taken Good len canonical r.1 := by
  intro g hg
  obtain ⟨rs, g', hrun, hend, hrs⟩ := Ensures.mapM
    (I := fun k g => Progress J T ns.length bound canonical k g ∧ g.classes.length = len) ns
    (fun n hn k hk => Progress.rebuildNode hJ hk (hns n hn)) g hg
  refine ⟨rs, g', hrun, hend, hrs.length_eq.symm, ?_⟩
  intro r hr
  obtain ⟨i, hi, rfl⟩ := getElem_of_mem hr
  exact (forall₂_iff_get.mp hrs).2 i (by rw [hrs.length_eq]; exact hi) hi

omit [LawfulENodeLang L] in
theorem mem_dedupEnodesByHash {ns : List L} : n ∈ dedupEnodesByHash ns ↔ n ∈ ns := by
  rw [dedupEnodesByHash, mem_dedup, mem_insertionSort]

omit [LawfulENodeLang L] in
theorem length_dedupEnodesByHash_le (ns : List L) : (dedupEnodesByHash ns).length ≤ ns.length := by
  exact (dedup_sublist _).length_le.trans_eq (length_insertionSort _ _)

structure Queued (J : EGraph L → Prop) (T bound len : Nat) (g : EGraph L) : Prop where
  wf : g.WellFormed
  holds : J g
  length : g.classes.length = len
  total : g.total ≤ T
  queue : g.pending.length + (2 * T + 3) * g.roots ≤ bound

theorem Queued.rebuildClass (hJ : RebuildRule J Good) {classId : Nat} (hid : classId < len) :
    Ensures (Queued J T bound len) (rebuildClass classId) fun _ => Queued J T bound len := by
  rintro g ⟨hwf, hholds, rfl, htotal, hqueue⟩
  obtain ⟨g₁, hrun₁, hc⟩ := hwf.tryFind hid
  have hwf₁ := hc.wellFormed hwf
  have hJ₁ := hJ.compressed hholds hc
  have hlt := hwf.rootOf_lt hid
  have hroot : g₁.rootOf (g.rootOf classId) = g.rootOf classId :=
    (hc.root _).trans (hwf.rootOf_rootOf classId)
  rw [← hc.classes] at hlt
  generalize g.rootOf classId = canonical at hrun₁ hlt hroot
  have hidx : eclassIndex canonical g₁.classes.length "egraph rebuild" = .ok canonical := by
    rw [eclassIndex, if_pos hlt]
  -- the nodes are taken out of the class
  have htaken : ∀ n ∈ g₁.nodesAt canonical, Taken Good g₁.classes.length canonical n :=
    fun n hn => ⟨hJ.stored hJ₁ hn, hwf₁.children _ n hn⟩
  have hcount := total_setNodes g₁ hlt []
  rw [hc.total, length_nil] at hcount
  have hstart : Progress J T (g₁.nodesAt canonical).length bound canonical
      (g₁.nodesAt canonical).length (g₁.setNodes canonical []) := by
    refine ⟨hwf₁.setNodes hlt (by simp), hJ.setNodes hJ₁ hlt (by simp), ?_, by omega, ?_⟩
    · rw [length_setNodes]
      exact hlt
    · have hroots : (g₁.setNodes canonical []).roots = g.roots := by
        rw [← hc.roots, EGraph.roots, length_setNodes]
        rfl
      show g₁.pending.length + _ + (if g₁.rootOf canonical = canonical then _ else _) ≤ bound
      rw [if_pos hroot, hroots, hc.pending]
      exact hqueue
  obtain ⟨rs, g₂, hrun₂, ⟨hend, hlen⟩, hcountRs, hrs⟩ :=
    Progress.rebuildNodes hJ htaken _ ⟨hstart, length_setNodes _ _ _⟩
  -- and the canonical ones are put back
  have hback :
      ∀ n ∈ dedupEnodesByHash (rs.map (·.1)), Taken Good g₂.classes.length canonical n := by
    intro n hn
    obtain ⟨r, hr, rfl⟩ := mem_map.mp (mem_dedupEnodesByHash.mp hn)
    rw [hlen]
    exact hrs r hr
  have hlt₂ := hend.canonical_lt
  have hcount₂ := total_setNodes g₂ hlt₂ (dedupEnodesByHash (rs.map (·.1)))
  have hshort := length_dedupEnodesByHash_le (rs.map (·.1))
  rw [length_map] at hshort
  have htotal₂ := hend.total
  refine ⟨(rs.map (·.2)).sum, g₂.setNodes canonical (dedupEnodesByHash (rs.map (·.1))), ?_,
    hend.wf.setNodes hlt₂ fun n hn => (hback n hn).2,
    hJ.setNodes hend.holds hlt₂ fun n hn => (hback n hn).1, ?_, by omega, ?_⟩
  · rw [Optimizer.rebuildClass, exec_bind_ok hrun₁, exec_bind_ok (exec_get g₁), hidx,
      exec_bind_ok (exec_liftExcept _ g₁), exec_bind_ok (exec_set _ g₁), exec_bind_ok hrun₂]
    rfl
  · rw [length_setNodes, hlen, hc.classes]
  · have hroots : (g₂.setNodes canonical (dedupEnodesByHash (rs.map (·.1)))).roots = g₂.roots := by
      rw [EGraph.roots, length_setNodes]
      rfl
    have := hend.queue
    rw [hroots]
    show g₂.pending.length + _ ≤ bound
    omega

theorem Queued.rebuildLoop (hJ : RebuildRule J Good) {fuel : Nat} (newUnions : Nat)
    (hbound : bound < fuel) :
    Ensures (Queued J T bound len) (rebuildLoop fuel newUnions)
      fun _ g => Queued J T bound len g ∧ g.pending = [] := by
  induction fuel generalizing bound newUnions with
  | zero => omega
  | succ fuel ih =>
    intro g hg
    rw [Optimizer.rebuildLoop]
    cases hp : g.pending with
    | nil =>
      refine ⟨newUnions, g, ?_, hg, hp⟩
      rw [exec_bind_ok (exec_get g)]
      simp only [hp]
      rfl
    | cons classId rest =>
      have hqueue := hg.queue
      rw [hp, length_cons] at hqueue
      have hid := hg.wf.pending classId (by rw [hp]; simp)
      have hpopped : Queued J T (bound - 1) len { g with pending := rest } := by
        refine ⟨⟨hg.wf.length, hg.wf.descends, hg.wf.hashcons, hg.wf.children, ?_⟩,
          hJ.pending rest hg.holds, hg.length, hg.total, ?_⟩
        · intro i hi
          exact hg.wf.pending i (by rw [hp]; exact mem_cons_of_mem classId hi)
        · show rest.length + (2 * T + 3) * g.roots ≤ bound - 1
          omega
      obtain ⟨more, g₁, hrun₁, hg₁⟩ :=
        Queued.rebuildClass hJ (by rw [← hg.length]; exact hid) _ hpopped
      obtain ⟨n, g₂, hrun₂, hg₂, hend⟩ := ih (newUnions + more) (by omega) g₁ hg₁
      refine ⟨n, g₂, ?_, ⟨hg₂.wf, hg₂.holds, hg₂.length, hg₂.total, ?_⟩, hend⟩
      · rw [exec_bind_ok (exec_get g)]
        simp only [hp]
        rw [exec_bind_ok (exec_set _ g), exec_bind_ok hrun₁]
        exact hrun₂
      · have := hg₂.queue
        omega

theorem tryRebuild_ok (hJ : RebuildRule J Good) {g : EGraph L} (hwf : g.WellFormed) (hg : J g) :
    ∃ newUnions g', exec tryRebuild g = (.ok newUnions, g') ∧ g'.WellFormed ∧ J g' ∧
      g'.classes.length = g.classes.length ∧ g'.pending = [] := by
  have hroots : g.roots ≤ g.classes.length :=
    (Finset.card_filter_le _ _).trans_eq (Finset.card_range _)
  have hqueue : g.pending.length + (2 * g.total + 3) * g.roots
      ≤ g.pending.length + (2 * g.total + 3) * g.classes.length := by
    have := Nat.mul_le_mul_left (2 * g.total + 3) hroots
    omega
  obtain ⟨n, g', hrun, hend, hp⟩ := Queued.rebuildLoop hJ 0 (Nat.lt_succ_self _) g
    ⟨hwf, hg, rfl, le_rfl, hqueue⟩
  refine ⟨n, g', ?_, hend.wf, hend.holds, hend.length, hp⟩
  exact hrun

end Rule

end Vyre.Optimizer
