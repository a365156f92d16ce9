import Vyre.Optimizer.Congruence

/-!
# When rebuilding restores congruence

`rebuild` looks at the nodes of the merged classes and not at those above them,
and when it joins two classes in the middle of its loop it drops the nodes of one
of them. It restores congruence, and keeps every node, when the requested unions
are closed under congruence already.
-/

namespace Vyre.Optimizer

open ExceptState EGraph List ENodeLang Session

variable {L : Type} [ENodeLang L]

namespace EGraph

def iterNodes (g : EGraph L) : List (Nat × L) :=
  (range g.classes.length).flatMap fun idx =>
    if g.parent.getD idx idx = idx then (g.nodesAt idx).map (idx, ·) else []

/-- Stored nodes with the same operator and equal representatives of children are
in one class. -/
def CongruenceClosed (g : EGraph L) : Prop :=
  ∀ i j n m, (i, n) ∈ g.iterNodes → (j, m) ∈ g.iterNodes →
    Matches (fun a b => g.tryFindImmut a = g.tryFindImmut b) n m → i = j

/-- Every node of the list is still in the class of its id, in some form. -/
def Lists (g : EGraph L) (added : List (L × Nat)) : Prop :=
  ∀ n i, (n, i) ∈ added → ∃ r, g.tryFindImmut i = .ok r ∧
    ∃ m, (r, m) ∈ g.iterNodes ∧ g.tryCanonicalize m = g.tryCanonicalize n

end EGraph

def Requested (unions : List (Nat × Nat)) : Nat → Nat → Prop :=
  Relation.EqvGen fun a b => (a, b) ∈ unions

def ClosedUnions (s : Session L) : Prop :=
  ∀ n m i j, (n, i) ∈ s.created → (m, j) ∈ s.created → Matches (Requested s.unions) n m →
    Requested s.unions i j

/-- No node of a class that a union has joined has a child in such a class. -/
def FlatUnions (s : Session L) : Prop :=
  ∀ n i, (n, i) ∈ s.created → (∃ j, j ≠ i ∧ Requested s.unions i j) →
    ∀ c ∈ children n, ∀ d, Requested s.unions c d → d = c

def Alone (unions : List (Nat × Nat)) (id : Nat) : Prop := ∀ d, Requested unions id d → d = id

/-- Before a rebuild: representatives are what was requested, and a node is in
the class of its id, in the form it was inserted with. -/
structure Fresh (created : List (L × Nat)) (unions : List (Nat × Nat)) (g : EGraph L) : Prop where
  wf : g.WellFormed
  root : ∀ a b, g.rootOf a = g.rootOf b ↔ Requested unions a b
  stored : ∀ n i, (n, i) ∈ created → ∃ k ∈ g.nodesAt (g.rootOf i), g.canon k = g.canon n
  hashcons : ∀ k i, g.hashcons k = some i → ∃ n, (n, i) ∈ created ∧ g.canon k = g.canon n ∧
    ((∀ c ∈ children n, Alone unions c) → k = n)
  origin : ∀ c, ∀ k ∈ g.nodesAt c, g.rootOf c = c ∧ ∃ i, g.hashcons k = some i ∧ g.rootOf i = c
  pending : ∀ c ∈ g.pending, ¬ Alone unions c

/-- Every added node is in the class of one of the nodes with a class of their
own. -/
def Covered (created added : List (L × Nat)) (g : EGraph L) : Prop :=
  ∀ n i, (n, i) ∈ added → i < g.classes.length ∧
    (∀ c ∈ children n, c < g.classes.length) ∧
    ∃ m j, (m, j) ∈ created ∧ g.rootOf j = g.rootOf i ∧ g.canon m = g.canon n

section Fresh

variable {created : List (L × Nat)} {unions : List (Nat × Nat)} {g g' : EGraph L}

variable {a b : Nat} {n : L}

omit [ENodeLang L] in
theorem Requested.mono {unions' : List (Nat × Nat)} (h : unions ⊆ unions')
    (hab : Requested unions a b) : Requested unions' a b :=
  Relation.EqvGen.mono (fun a b (hx : (a, b) ∈ unions) => (h hx : (a, b) ∈ unions')) a b hab

omit [ENodeLang L] in
theorem Requested.rootOf_eq (h : ∀ x y, (x, y) ∈ unions → g.rootOf x = g.rootOf y)
    (hab : Requested unions a b) : g.rootOf a = g.rootOf b :=
  (eq_equivalence.comap g.rootOf).eqvGen_iff.mp (Relation.EqvGen.mono h a b hab)

omit [ENodeLang L] in
theorem Alone.of_subset {unions' : List (Nat × Nat)} (h : unions ⊆ unions') {id : Nat}
    (hid : Alone unions' id) : Alone unions id :=
  fun d hd => hid d (hd.mono h)

theorem Fresh.compressed (h : Fresh created unions g) (hc : Compressed g g') :
    Fresh created unions g' := by
  refine ⟨hc.wellFormed h.wf, ?_, ?_, ?_, ?_, ?_⟩
  · simpa only [hc.root] using h.root
  · simpa only [hc.root, hc.nodesAt, hc.canon] using h.stored
  · simpa only [hc.hashcons, hc.canon] using h.hashcons
  · simpa only [hc.root, hc.nodesAt, hc.hashcons] using h.origin
  · simpa only [hc.pending] using h.pending

theorem Covered.compressed {added : List (L × Nat)} (h : Covered created added g)
    (hc : Compressed g g') : Covered created added g' := by
  simpa only [Covered, hc.classes, hc.root, hc.canon] using h

section

variable (h : Fresh created unions g)

include h

theorem Fresh.rootOf_alone {id : Nat} (hid : Alone unions id) :
    g.rootOf id = id :=
  hid _ ((h.root _ _).mp (h.wf.rootOf_rootOf id).symm)

theorem Fresh.canon_alone [LawfulENodeLang L]
    (hn : ∀ c ∈ children n, Alone unions c) : g.canon n = n := by
  have hmap : (children n).map g.rootOf = (children n).map id :=
    map_congr_left fun c hc => h.rootOf_alone (hn c hc)
  rw [canon, hmap, map_id]
  exact LawfulENodeLang.withChildren_children n

theorem Fresh.insertClass [LawfulENodeLang L] [DecidableEq L]
    (hn : ∀ c ∈ children n, c < g.classes.length) (hmiss : g.hashcons (g.canon n) = none)
    (indices : List Nat) :
    Fresh (created ++ [(n, g.classes.length)]) unions
      (g.insertClass (g.canon n) g.classes.length indices) := by
  have hroot : ∀ id, (g.insertClass (g.canon n) g.classes.length indices).rootOf id = g.rootOf id :=
    rootOf_insertClass h.wf.length.symm _ _
  have hcanon : ∀ k : L, (g.insertClass (g.canon n) g.classes.length indices).canon k = g.canon k :=
    canon_congr hroot
  have hself : g.rootOf g.classes.length = g.classes.length := by
    apply Forest.root_of_fixed
    simp [parentOf, h.wf.length]
  have hkey : ∀ k i, (g.insertClass (g.canon n) g.classes.length indices).hashcons k = some i ↔
      k = g.canon n ∧ i = g.classes.length ∨ g.hashcons k = some i := by
    intro k i
    by_cases hk : k = g.canon n
    · simp [EGraph.insertClass, hk, hmiss, eq_comm]
    · simp [EGraph.insertClass, hk]
  refine ⟨h.wf.insertClass (h.wf.canon_lt hn) indices, ?_, ?_, ?_, ?_, h.pending⟩
  · simpa only [hroot] using h.root
  · intro m i hm
    rw [hroot]
    rcases mem_append.mp hm with hm | hm
    · obtain ⟨k, hk, heq⟩ := h.stored m i hm
      refine ⟨k, ?_, by rw [hcanon, hcanon, heq]⟩
      rw [nodesAt_insertClass, if_neg]
      · exact hk
      · -- the class of a stored node is there already
        intro hlen
        rw [hlen, nodesAt_nil_of_le le_rfl] at hk
        cases hk
    · obtain ⟨rfl, rfl⟩ := Prod.mk.inj (mem_singleton.mp hm)
      refine ⟨g.canon m, ?_, by rw [hcanon, hcanon, h.wf.canon_canon]⟩
      rw [nodesAt_insertClass, if_pos hself]
      simp
  · intro k i hk
    simp only [hcanon]
    rcases (hkey k i).mp hk with ⟨rfl, rfl⟩ | hk
    · exact ⟨n, by simp, h.wf.canon_canon n, h.canon_alone⟩
    · obtain ⟨m, hm, heq, halone⟩ := h.hashcons k i hk
      exact ⟨m, mem_append_left _ hm, heq, halone⟩
  · intro c k hk
    rw [nodesAt_insertClass] at hk
    simp only [hroot, hkey]
    split_ifs at hk with hc
    · obtain rfl := mem_singleton.mp hk
      rw [hc]
      exact ⟨hself, _, .inl ⟨rfl, rfl⟩, hself⟩
    · obtain ⟨hrc, i, hi, hic⟩ := h.origin c k hk
      exact ⟨hrc, i, .inr hi, hic⟩

end

theorem canon_coarser [LawfulENodeLang L] (hg : g.WellFormed) (hg' : g'.WellFormed)
    (hroot : ∀ a b, g.rootOf a = g.rootOf b → g'.rootOf a = g'.rootOf b) {m : L}
    (h : g.canon n = g.canon m) : g'.canon n = g'.canon m :=
  (canon_eq_iff hg').mpr (((canon_eq_iff hg).mp h).imp hroot)

section

variable (h : Fresh created unions g)

include h

theorem Fresh.rootOf_eq
    (hroot : ∀ x y, g.rootOf x = g.rootOf y → g'.rootOf x = g'.rootOf y)
    (hab : g'.rootOf a = g'.rootOf b) {x y : Nat} (hxy : Requested (unions ++ [(a, b)]) x y) :
    g'.rootOf x = g'.rootOf y := by
  refine hxy.rootOf_eq fun x y hmem => ?_
  rcases mem_append.mp hmem with hmem | hmem
  · exact hroot x y ((h.root x y).mpr (.rel _ _ hmem))
  · obtain ⟨rfl, rfl⟩ := Prod.mk.inj (mem_singleton.mp hmem)
    exact hab

theorem Fresh.request (hab : g.rootOf a = g.rootOf b) :
    Fresh created (unions ++ [(a, b)]) g := by
  have hsub : unions ⊆ unions ++ [(a, b)] := subset_append_left _ _
  refine ⟨h.wf, ?_, h.stored, ?_, h.origin, ?_⟩
  · exact fun x y => ⟨fun hxy => ((h.root x y).mp hxy).mono hsub, h.rootOf_eq (fun _ _ => id) hab⟩
  · intro k i hk
    obtain ⟨n, hn, heq, halone⟩ := h.hashcons k i hk
    exact ⟨n, hn, heq, fun hc => halone fun c hcc => (hc c hcc).of_subset hsub⟩
  · intro c hc halone
    exact h.pending c hc (halone.of_subset hsub)

/-- A requested union of two classes, `winner` and `loser` their roots. -/
theorem Fresh.merge [LawfulENodeLang L] {winner loser : Nat}
    (hlt : winner < loser) (hlen : loser < g.classes.length)
    (hor : winner = g.rootOf a ∧ loser = g.rootOf b ∨ winner = g.rootOf b ∧ loser = g.rootOf a) :
    Fresh created (unions ++ [(a, b)]) (g.merge winner loser) := by
  have hsub : unions ⊆ unions ++ [(a, b)] := subset_append_left _ _
  have hw : g.rootOf winner = winner := by
    rcases hor with ⟨rfl, -⟩ | ⟨rfl, -⟩ <;> exact h.wf.rootOf_rootOf _
  have hl : g.rootOf loser = loser := by
    rcases hor with ⟨-, rfl⟩ | ⟨-, rfl⟩ <;> exact h.wf.rootOf_rootOf _
  have hroot := h.wf.rootOf_merge hlt hw hl hlen
  have hnodes := nodesAt_merge hlt.ne (hlt.trans hlen) hlen
  have hwf := h.wf.merge hlt hlen
  have hcoarse : ∀ x y, g.rootOf x = g.rootOf y →
      (g.merge winner loser).rootOf x = (g.merge winner loser).rootOf y := by
    intro x y hxy
    rw [hroot, hroot, hxy]
  have hjoined : (g.merge winner loser).rootOf a = (g.merge winner loser).rootOf b := by
    rw [hroot, hroot]
    rcases hor with ⟨hwa, hlb⟩ | ⟨hwb, hla⟩
    · rw [← hwa, ← hlb, if_neg hlt.ne, if_pos rfl]
    · rw [← hwb, ← hla, if_neg hlt.ne, if_pos rfl]
  have hasked : Requested (unions ++ [(a, b)]) winner loser := by
    have hold : ∀ x, Requested (unions ++ [(a, b)]) x (g.rootOf x) := fun x =>
      ((h.root _ _).mp (h.wf.rootOf_rootOf x).symm).mono hsub
    have hab : Requested (unions ++ [(a, b)]) a b := .rel _ _ (by simp)
    rcases hor with ⟨rfl, rfl⟩ | ⟨rfl, rfl⟩
    · exact .trans _ _ _ (.symm _ _ (hold a)) (.trans _ _ _ hab (hold b))
    · exact .trans _ _ _ (.symm _ _ (hold b)) (.trans _ _ _ (.symm _ _ hab) (hold a))
  -- every class is below its new root by what was requested
  have hbelow : ∀ x, Requested (unions ++ [(a, b)]) x ((g.merge winner loser).rootOf x) := by
    intro x
    have hx := ((h.root _ _).mp (h.wf.rootOf_rootOf x).symm).mono hsub
    rw [hroot]
    split_ifs with hxl
    · rw [hxl] at hx
      exact .trans _ _ _ hx (.symm _ _ hasked)
    · exact hx
  refine ⟨hwf, ?_, ?_, ?_, ?_, ?_⟩
  · refine fun x y => ⟨fun hxy => ?_, h.rootOf_eq hcoarse hjoined⟩
    have hy := hbelow y
    rw [← hxy] at hy
    exact .trans _ _ _ (hbelow x) (.symm _ _ hy)
  · intro n i hn
    obtain ⟨k, hk, heq⟩ := h.stored n i hn
    refine ⟨k, ?_, canon_coarser h.wf hwf hcoarse heq⟩
    grind
  · intro k i hk
    obtain ⟨n, hn, heq, halone⟩ := h.hashcons k i hk
    exact ⟨n, hn, canon_coarser h.wf hwf hcoarse heq,
      fun hc => halone fun c hcc => (hc c hcc).of_subset hsub⟩
  · intro c k hk
    rw [hnodes] at hk
    split_ifs at hk with hcw hcl
    · rcases mem_append.mp hk with hk | hk <;> obtain ⟨-, i, hi, hic⟩ := h.origin _ k hk <;>
        exact ⟨by rw [hcw, hroot, hw, if_neg hlt.ne], i, hi, by simp [hroot, hcw, hic]⟩
    · cases hk
    · obtain ⟨hrc, i, hi, hic⟩ := h.origin c k hk
      exact ⟨by rw [hroot, hrc, if_neg hcl], i, hi, by rw [hroot, hic, if_neg hcl]⟩
  · intro c hc halone
    rcases mem_cons.mp hc with rfl | hc
    · exact hlt.ne' (halone loser hasked)
    · exact h.pending c hc (halone.of_subset hsub)

end

variable [LawfulENodeLang L]

theorem Covered.coarser {added : List (L × Nat)} (h : Covered created added g) (hg : g.WellFormed)
    (hg' : g'.WellFormed) (hlen : g.classes.length ≤ g'.classes.length)
    (hroot : ∀ a b, g.rootOf a = g.rootOf b → g'.rootOf a = g'.rootOf b) :
    Covered created added g' := by
  intro n i hn
  obtain ⟨hi, hch, m, j, hm, hji, heq⟩ := h n i hn
  exact ⟨hi.trans_le hlen, fun c hc => (hch c hc).trans_le hlen, m, j, hm, hroot j i hji,
    canon_coarser hg hg' hroot heq⟩

variable [DecidableEq L]

theorem fresh_add {s : Session L} (h : Fresh s.created s.unions s.graph)
    (hcov : Covered s.created s.added s.graph) (n : L) :
    Fresh (s.step (.add n)).created (s.step (.add n)).unions (s.step (.add n)).graph ∧
      Covered (s.step (.add n)).created (s.step (.add n)).added (s.step (.add n)).graph := by
  rcases add_cases h.wf n with ⟨e, hrun⟩ | ⟨id, g', hn, hhit, hrun, hc⟩ |
    ⟨indices, g', hn, hmiss, hc, hrun⟩
  · simp only [step, hrun]
    exact ⟨h, hcov⟩
  · have hid := h.wf.rootOf_lt (h.wf.hashcons _ _ hhit)
    simp only [step, hrun, if_neg hid.ne]
    refine ⟨h.compressed hc, ?_⟩
    intro m i hm
    rcases mem_append.mp hm with hm | hm
    · exact hcov.compressed hc m i hm
    · obtain ⟨rfl, rfl⟩ := Prod.mk.inj (mem_singleton.mp hm)
      obtain ⟨k, hk, heq, -⟩ := h.hashcons _ _ hhit
      rw [hc.classes]
      refine ⟨hid, hn, k, id, hk, ?_, ?_⟩
      · rw [hc.root, hc.root, h.wf.rootOf_rootOf]
      · rw [hc.canon, hc.canon, ← heq, h.wf.canon_canon]
  · simp only [step, hrun]
    have hfresh := (h.compressed hc).insertClass (by rw [hc.classes]; exact hn)
      (by rw [hc.hashcons, hc.canon]; exact hmiss) indices
    have hlen : (g'.insertClass (s.graph.canon n) g'.classes.length indices).classes.length
        = s.graph.classes.length + 1 := by rw [length_insertClass, hc.classes]
    rw [hc.canon] at hfresh
    have hcov' := (hcov.compressed hc).coarser (hc.wellFormed h.wf) hfresh.wf
      (by rw [hlen, hc.classes]; omega) fun a b hab => by
        rw [rootOf_insertClass (hc.wellFormed h.wf).length.symm,
          rootOf_insertClass (hc.wellFormed h.wf).length.symm]
        exact hab
    rw [hc.classes] at hfresh hcov' ⊢
    refine ⟨hfresh, ?_⟩
    intro m i hm
    rcases mem_append.mp hm with hm | hm
    · obtain ⟨hi, hch, k, j, hk, hji, heq⟩ := hcov' m i hm
      exact ⟨hi, hch, k, j, mem_append_left _ hk, hji, heq⟩
    · obtain ⟨rfl, rfl⟩ := Prod.mk.inj (mem_singleton.mp hm)
      rw [hc.classes] at hlen
      exact ⟨by omega, fun c hcc => by have := hn c hcc; omega, m, _, by simp, rfl, rfl⟩

theorem fresh_union {s : Session L} (h : Fresh s.created s.unions s.graph)
    (hcov : Covered s.created s.added s.graph) (a b : Nat) :
    Fresh (s.step (.union a b)).created (s.step (.union a b)).unions (s.step (.union a b)).graph ∧
      Covered (s.step (.union a b)).created (s.step (.union a b)).added
        (s.step (.union a b)).graph := by
  rcases union_cases h.wf a b with ⟨e, g', hrun, hc⟩ | ⟨g', hrun, heq, hc⟩ |
    ⟨winner, loser, g', hlt, hlen, hor, hrun, hc⟩
  · simp only [step, hrun]
    exact ⟨h.compressed hc, hcov.compressed hc⟩
  · simp only [step, hrun]
    exact ⟨(h.request heq).compressed hc, hcov.compressed hc⟩
  · simp only [step, hrun]
    have hfresh : Fresh s.created (s.unions ++ [(a, b)]) (g'.merge winner loser) := by
      refine (h.compressed hc).merge hlt (by rw [hc.classes]; exact hlen) ?_
      rw [hc.root, hc.root]
      exact hor
    refine ⟨hfresh, (hcov.compressed hc).coarser (hc.wellFormed h.wf) hfresh.wf ?_ ?_⟩
    · simp [EGraph.merge]
    · intro x y hxy
      rw [(h.compressed hc).root] at hxy
      rw [hfresh.root]
      exact hxy.mono (subset_append_left _ _)

theorem fresh_run (calls : List (Call L)) (hno : Call.rebuild ∉ calls) :
    Fresh (run calls).created (run calls).unions (run calls).graph ∧
      Covered (run calls).created (run calls).added (run calls).graph := by
  induction calls using calls_induction with
  | nil =>
    have hroot : ∀ id, (run ([] : List (Call L))).graph.rootOf id = id :=
      fun id => Forest.root_of_fixed rfl
    refine ⟨⟨(sound_run []).wf,
      fun a b => ⟨fun hab => ?_, fun hab => hab.rootOf_eq fun _ _ h => by cases h⟩,
      fun _ _ => nofun, fun _ _ => nofun, fun _ _ => nofun, fun _ => nofun⟩, fun _ _ => nofun⟩
    rw [hroot, hroot] at hab
    exact hab ▸ .refl a
  | snoc calls call ih =>
    rw [mem_append, not_or] at hno
    obtain ⟨hfresh, hcov⟩ := ih hno.1
    rw [run_append]
    cases call with
    | add n => exact fresh_add hfresh hcov n
    | union a b => exact fresh_union hfresh hcov a b
    | rebuild => exact absurd (mem_singleton.mpr rfl) hno.2

end Fresh

/-! ## Rebuilding without collisions -/

/-- The nodes of the scheduled classes meet no other class, neither in the
hashcons nor among themselves. -/
structure Quiet (g : EGraph L) : Prop where
  key : ∀ c ∈ g.pending, ∀ n ∈ g.nodesAt (g.rootOf c), ∀ e,
    g.hashcons (g.canon n) = some e → g.rootOf e = g.rootOf c
  apart : ∀ c ∈ g.pending, ∀ d ∈ g.pending, ∀ n ∈ g.nodesAt (g.rootOf c),
    ∀ m ∈ g.nodesAt (g.rootOf d), g.canon n = g.canon m → g.rootOf c = g.rootOf d

def KeyOf (g : EGraph L) (k : L) (c : Nat) : Prop :=
  (∃ e, g.hashcons k = some e ∧ g.rootOf e = c) ∨
    ∃ d ∈ g.pending, g.rootOf d = c ∧ ∃ n ∈ g.nodesAt c, g.canon n = k

section Quiet

variable {g₀ : EGraph L}

variable {d : Nat}

theorem Quiet.class_eq (h : Quiet g₀) (hd : d ∈ g₀.pending) {n : L}
    (hn : n ∈ g₀.nodesAt (g₀.rootOf d)) {c : Nat} (hc : KeyOf g₀ (g₀.canon n) c) :
    c = g₀.rootOf d := by
  rcases hc with ⟨e, he, rfl⟩ | ⟨d', hd', rfl, m, hm, heq⟩
  · exact h.key d hd n hn e he
  · exact h.apart d' hd' d hd m hm n hn heq

/-- The state of the loop over the nodes of a class: as in `base`, but for path
compression and the hashcons. -/
structure Working (g₀ base g : EGraph L) : Prop where
  wf : g.WellFormed
  root : ∀ id, g.rootOf id = g₀.rootOf id
  hashcons : ∀ k e, g.hashcons k = some e → KeyOf g₀ k (g₀.rootOf e)
  classes : g.classes = base.classes
  pending : g.pending = base.pending

variable [DecidableEq L]

theorem Working.rebuildNode (h : Quiet g₀) (hwf : g₀.WellFormed) {base : EGraph L}
    (hd : d ∈ g₀.pending) (hlt : g₀.rootOf d < base.classes.length) {n : L}
    (hn : ∃ m ∈ g₀.nodesAt (g₀.rootOf d), g₀.canon m = g₀.canon n)
    (hch : ∀ c ∈ children n, c < base.classes.length) :
    Ensures (Working g₀ base) (rebuildNode (g₀.rootOf d) n)
      fun r g => Working g₀ base g ∧ r = (g₀.canon n, 0) := by
  intro g hg
  obtain ⟨m, hm, heq⟩ := hn
  have hcanon : g.canon n = g₀.canon n := canon_congr hg.root n
  have hroot : g.rootOf (g₀.rootOf d) = g₀.rootOf d := by rw [hg.root, hwf.rootOf_rootOf]
  -- the hashcons names this class or none
  have hkey : ∀ e, g.hashcons (g.canon n) = some e → g.rootOf e = g₀.rootOf d := by
    intro e he
    rw [hg.root]
    have hknown := hg.hashcons _ e he
    rw [hcanon, ← heq] at hknown
    exact h.class_eq hd hm hknown
  rw [← hg.classes] at hlt hch
  obtain ⟨g₁, unions, g₂, hc, hcollides, hrun⟩ := hg.wf.rebuildNode hlt hch
  cases hcollides with
  | none _ =>
    refine ⟨_, _, hrun, ⟨?_, ?_, ?_, ?_, ?_⟩, by rw [hcanon]⟩
    · exact (hc.wellFormed hg.wf).insertKey (by rw [hc.classes]; exact hlt)
    · intro id
      show g₁.rootOf id = _
      rw [hc.root, hg.root]
    · intro k e hk
      by_cases hkn : k = g.canon n
      · have he : g₀.rootOf d = e := by simpa [EGraph.insertKey, hkn] using hk
        rw [← he, hwf.rootOf_rootOf]
        exact .inr ⟨d, hd, rfl, m, hm, by rw [heq, hkn, hcanon]⟩
      · refine hg.hashcons k e ?_
        rw [← hc.hashcons]
        simpa [EGraph.insertKey, hkn] using hk
    · show g₁.classes = _
      rw [hc.classes, hg.classes]
    · show g₁.pending = _
      rw [hc.pending, hg.pending]
  | joined he hne => exact absurd (hkey _ he) hne
  | wins he _ hlt => exact absurd (hkey _ he) hlt.ne'
  | loses he hor hlt _ =>
    rw [hkey _ he, hroot] at hor
    rcases hor with ⟨rfl, rfl⟩ | ⟨rfl, rfl⟩ <;> exact absurd hlt (lt_irrefl _)

/-- Between two classes of the queue: the representatives are as before, and the
classes hold the same nodes in canonical form. -/
structure Settled (g₀ g : EGraph L) : Prop where
  wf : g.WellFormed
  root : ∀ id, g.rootOf id = g₀.rootOf id
  length : g.classes.length = g₀.classes.length
  hashcons : ∀ k e, g.hashcons k = some e → KeyOf g₀ k (g₀.rootOf e)
  nodes : ∀ c k, (∃ n ∈ g.nodesAt c, g₀.canon n = k) ↔ ∃ n ∈ g₀.nodesAt c, g₀.canon n = k

variable [LawfulENodeLang L]

theorem Settled.rebuildClass (h : Quiet g₀) (hwf : g₀.WellFormed) (hd : d ∈ g₀.pending)
    {rest : List Nat} :
    Ensures (fun g => Settled g₀ g ∧ g.pending = rest) (rebuildClass d)
      fun _ g => Settled g₀ g ∧ g.pending = rest := by
  rintro g ⟨hg, rfl⟩
  have hd_lt : d < g.classes.length := by
    rw [hg.length]
    exact hwf.pending d hd
  obtain ⟨g₁, hrun₁, hc⟩ := hg.wf.tryFind hd_lt
  have hwf₁ := hc.wellFormed hg.wf
  have hlt := hg.wf.rootOf_lt hd_lt
  rw [← hc.classes] at hlt
  rw [hg.root] at hrun₁ hlt
  have hidx : eclassIndex (g₀.rootOf d) g₁.classes.length "egraph rebuild" = .ok (g₀.rootOf d) := by
    rw [eclassIndex, if_pos hlt]
  have hstart : Working g₀ (g₁.setNodes (g₀.rootOf d) []) (g₁.setNodes (g₀.rootOf d) []) := by
    refine ⟨hwf₁.setNodes hlt (by simp), fun id => (hc.root id).trans (hg.root id), ?_, rfl, rfl⟩
    show ∀ k e, g₁.hashcons k = some e → _
    rw [hc.hashcons]
    exact hg.hashcons
  obtain ⟨rs, g₂, hrun₂, hend, hrs⟩ := Ensures.mapM
    (I := fun _ => Working g₀ (g₁.setNodes (g₀.rootOf d) [])) (g₁.nodesAt (g₀.rootOf d))
    (fun n hn _ _ => Working.rebuildNode h hwf hd (by rw [length_setNodes]; exact hlt)
      ((hg.nodes _ _).mp ⟨n, by rwa [hc.nodesAt] at hn, rfl⟩)
      (by rw [length_setNodes]; exact hwf₁.children _ n hn)) _ hstart
  have hresults : (g₁.nodesAt (g₀.rootOf d)).map g₀.canon = rs.map (·.1) := by
    rw [← forall₂_eq_eq_eq, forall₂_map_left_iff, forall₂_map_right_iff]
    exact hrs.imp fun n r hr => by rw [hr]
  have hlt₂ : g₀.rootOf d < g₂.classes.length := by
    rw [hend.classes, length_setNodes]
    exact hlt
  have hnodes₂ : ∀ c, g₂.nodesAt c = if c = g₀.rootOf d then [] else g.nodesAt c := by
    intro c
    rw [nodesAt, hend.classes, ← hc.nodesAt]
    exact nodesAt_setNodes g₁ hlt [] c
  refine ⟨(rs.map (·.2)).sum,
    g₂.setNodes (g₀.rootOf d) (dedupEnodesByHash (rs.map (·.1))), ?_,
      ⟨?_, hend.root, ?_, ?_, ?_⟩, ?_⟩
  · rw [Optimizer.rebuildClass, exec_bind_ok hrun₁, exec_bind_ok (exec_get g₁), hidx,
      exec_bind_ok (exec_liftExcept _ g₁), exec_bind_ok (exec_set _ g₁), exec_bind_ok hrun₂]
    rfl
  · refine hend.wf.setNodes hlt₂ ?_
    intro k hk
    rw [mem_dedupEnodesByHash, ← hresults] at hk
    obtain ⟨n, hn, rfl⟩ := mem_map.mp hk
    rw [Covers, hend.classes, length_setNodes,
      ← canon_congr (fun id => (hc.root id).trans (hg.root id))]
    exact hwf₁.canon_lt (hwf₁.children _ n hn)
  · rw [length_setNodes, hend.classes, length_setNodes, hc.classes, hg.length]
  · exact hend.hashcons
  · intro c k
    rw [nodesAt_setNodes g₂ hlt₂, ← hg.nodes]
    split_ifs with hcd
    · -- the canonical nodes have the canonical forms of the nodes
      subst hcd
      simp only [mem_dedupEnodesByHash, ← hresults, hc.nodesAt, mem_map]
      constructor
      · rintro ⟨m, ⟨n, hn, rfl⟩, rfl⟩
        exact ⟨n, hn, (hwf.canon_canon n).symm⟩
      · rintro ⟨n, hn, rfl⟩
        exact ⟨g₀.canon n, ⟨n, hn, rfl⟩, hwf.canon_canon n⟩
    · rw [hnodes₂, if_neg hcd]
  · show g₂.pending = g.pending
    rw [hend.pending]
    exact hc.pending

theorem Settled.rebuildLoop (h : Quiet g₀) (hwf : g₀.WellFormed) {fuel newUnions : Nat}
    {g : EGraph L} (hg : Settled g₀ g) (hsub : ∀ c ∈ g.pending, c ∈ g₀.pending)
    (hfuel : g.pending.length < fuel) :
    ∃ n g', exec (rebuildLoop fuel newUnions) g = (.ok n, g') ∧ Settled g₀ g' := by
  induction fuel generalizing newUnions g with
  | zero => omega
  | succ fuel ih =>
    rw [Optimizer.rebuildLoop, exec_bind_ok (exec_get g)]
    cases hp : g.pending with
    | nil => exact ⟨newUnions, g, rfl, hg⟩
    | cons d rest =>
      rw [hp] at hsub hfuel
      have hpopped : Settled g₀ { g with pending := rest } := by
        refine ⟨⟨hg.wf.length, hg.wf.descends, hg.wf.hashcons, hg.wf.children, ?_⟩, hg.root,
          hg.length, hg.hashcons, hg.nodes⟩
        intro c hc
        exact hg.wf.pending c (by rw [hp]; exact mem_cons_of_mem d hc)
      obtain ⟨more, g₁, hrun₁, hg₁, hrest⟩ :=
        Settled.rebuildClass h hwf (hsub d (by simp)) _ ⟨hpopped, rfl⟩
      obtain ⟨n, g₂, hrun₂, hg₂⟩ := ih hg₁
        (by rw [hrest]; exact fun c hc => hsub c (mem_cons_of_mem d hc))
        (show g₁.pending.length < fuel by rw [hrest]; simpa using hfuel)
      refine ⟨n, g₂, ?_, hg₂⟩
      rw [exec_bind_ok (exec_set _ g), exec_bind_ok hrun₁]
      exact hrun₂

theorem Quiet.tryRebuild (h : Quiet g₀) (hwf : g₀.WellFormed) :
    ∃ n g', exec tryRebuild g₀ = (.ok n, g') ∧ Settled g₀ g' := by
  have hself : Settled g₀ g₀ :=
    ⟨hwf, fun _ => rfl, rfl, fun k e hk => .inl ⟨e, hk, rfl⟩, fun _ _ => Iff.rfl⟩
  have hfuel : g₀.pending.length
      < g₀.pending.length + (2 * g₀.total + 3) * g₀.classes.length + 1 := by omega
  exact Settled.rebuildLoop h hwf hself (fun _ hc => hc) hfuel

end Quiet

/-! ## When it restores congruence -/

section Restores

variable {g : EGraph L}

theorem mem_iterNodes (hg : g.WellFormed) {i : Nat} {n : L} :
    (i, n) ∈ g.iterNodes ↔ g.rootOf i = i ∧ n ∈ g.nodesAt i := by
  have hfixed : g.rootOf i = i ↔ g.parent.getD i i = i := hg.descends.root_eq_self_iff
  have hlt : n ∈ g.nodesAt i → i < g.classes.length := by
    intro hn
    by_contra hle
    rw [nodesAt_nil_of_le (not_lt.mp hle)] at hn
    cases hn
  rw [iterNodes]
  grind

theorem Settled.lists {s : Session L} (h : Fresh s.created s.unions s.graph)
    (hcov : Covered s.created s.added s.graph) (hg : Settled s.graph g) : g.Lists s.added := by
  intro n i hn
  obtain ⟨hi, hch, m, j, hm, hji, heq⟩ := hcov n i hn
  obtain ⟨k, hk, hkm⟩ := h.stored m j hm
  rw [hji] at hk
  obtain ⟨l, hl, hlk⟩ := (hg.nodes _ _).mpr ⟨k, hk, rfl⟩
  rw [← hg.length] at hi hch
  refine ⟨g.rootOf i, hg.wf.tryFindImmut hi, l, ?_, ?_⟩
  · rw [hg.root]
    exact (mem_iterNodes hg.wf).mpr ⟨by rw [hg.root, h.wf.rootOf_rootOf], hl⟩
  · rw [hg.wf.tryCanonicalize (hg.wf.children _ l hl), hg.wf.tryCanonicalize hch,
      canon_congr hg.root, canon_congr hg.root, hlk, hkm, heq]

variable [LawfulENodeLang L]

theorem congruenceClosed_iff (hg : g.WellFormed) :
    g.CongruenceClosed ↔ ∀ i j k, g.rootOf i = i → g.rootOf j = j →
      (∃ n ∈ g.nodesAt i, g.canon n = k) → (∃ m ∈ g.nodesAt j, g.canon m = k) → i = j := by
  -- children of stored nodes are in range, so both searches succeed
  have hfind : ∀ {i j : Nat} {n m : L}, n ∈ g.nodesAt i → m ∈ g.nodesAt j →
      (Matches (fun a b => g.tryFindImmut a = g.tryFindImmut b) n m ↔ g.canon n = g.canon m) := by
    intro i j n m hn hm
    have hiff : ∀ p ∈ (children n).zip (children m),
        (g.tryFindImmut p.1 = g.tryFindImmut p.2 ↔ g.rootOf p.1 = g.rootOf p.2) := by
      intro p hp
      obtain ⟨h₁, h₂⟩ := of_mem_zip hp
      rw [hg.tryFindImmut (hg.children i n hn _ h₁), hg.tryFindImmut (hg.children j m hm _ h₂),
        Except.ok.injEq]
    rw [canon_eq_iff hg]
    exact and_congr_right fun _ => forall₂_congr hiff
  constructor
  · rintro h i j _ hi hj ⟨n, hn, rfl⟩ ⟨m, hm, heq⟩
    exact h i j n m ((mem_iterNodes hg).mpr ⟨hi, hn⟩) ((mem_iterNodes hg).mpr ⟨hj, hm⟩)
      ((hfind hn hm).mpr heq.symm)
  · intro h i j n m hi hj hmatch
    obtain ⟨hi, hn⟩ := (mem_iterNodes hg).mp hi
    obtain ⟨hj, hm⟩ := (mem_iterNodes hg).mp hj
    exact h i j _ hi hj ⟨n, hn, (hfind hn hm).mp hmatch⟩ ⟨m, hm, rfl⟩

variable {s : Session L}

theorem Settled.congruenceClosed_iff {g₀ : EGraph L} (h : Settled g₀ g) (hwf : g₀.WellFormed) :
    g.CongruenceClosed ↔ g₀.CongruenceClosed := by
  rw [Optimizer.congruenceClosed_iff h.wf, Optimizer.congruenceClosed_iff hwf]
  simp only [canon_congr h.root, h.root, h.nodes]

variable (h : Fresh s.created s.unions s.graph)

include h

theorem Fresh.canon_eq_iff {n m : L} :
    s.graph.canon n = s.graph.canon m ↔ Matches (Requested s.unions) n m := by
  rw [Optimizer.canon_eq_iff h.wf]
  exact ⟨Matches.imp fun a b => (h.root a b).mp, Matches.imp fun a b => (h.root a b).mpr⟩

theorem Fresh.congruenceClosed_iff :
    s.graph.CongruenceClosed ↔ ClosedUnions s := by
  rw [Optimizer.congruenceClosed_iff h.wf]
  constructor
  · intro hclosed n m i j hn hm hmatch
    have hj := h.stored m j hm
    rw [← h.canon_eq_iff.mpr hmatch] at hj
    exact (h.root i j).mp (hclosed _ _ _ (h.wf.rootOf_rootOf i) (h.wf.rootOf_rootOf j)
      (h.stored n i hn) hj)
  · rintro hclosed i j _ - - ⟨k, hk, rfl⟩ ⟨l, hl, heq⟩
    obtain ⟨-, a, ha, rfl⟩ := h.origin i k hk
    obtain ⟨-, b, hb, rfl⟩ := h.origin j l hl
    obtain ⟨n, hn, hkn, -⟩ := h.hashcons k a ha
    obtain ⟨m, hm, hlm, -⟩ := h.hashcons l b hb
    refine (h.root a b).mpr (hclosed n m a b hn hm (h.canon_eq_iff.mp ?_))
    rw [← hkn, ← hlm, heq]

theorem Fresh.quiet_of_closed (hclosed : ClosedUnions s) :
    Quiet s.graph := by
  have hnodes := (Optimizer.congruenceClosed_iff h.wf).mp (h.congruenceClosed_iff.mpr hclosed)
  refine ⟨?_, ?_⟩
  · intro c _ n hn e he
    obtain ⟨m, hm, heq, -⟩ := h.hashcons _ e he
    have hstored := h.stored m e hm
    rw [← heq, h.wf.canon_canon] at hstored
    exact hnodes _ _ _ (h.wf.rootOf_rootOf e) (h.wf.rootOf_rootOf c) hstored ⟨n, hn, rfl⟩
  · intro c _ d _ n hn m hm heq
    exact hnodes _ _ _ (h.wf.rootOf_rootOf c) (h.wf.rootOf_rootOf d) ⟨n, hn, heq⟩ ⟨m, hm, rfl⟩

theorem Fresh.canon_of_flat (hflat : FlatUnions s) {c : Nat}
    (hc : c ∈ s.graph.pending) {k : L} (hk : k ∈ s.graph.nodesAt (s.graph.rootOf c)) :
    s.graph.canon k = k := by
  obtain ⟨-, i, hi, hic⟩ := h.origin _ k hk
  obtain ⟨n, hn, -, hform⟩ := h.hashcons k i hi
  have hrequested : Requested s.unions i c := (h.root i c).mp hic
  -- the class was joined with another, so the id of the node is not alone
  have hjoined : ∃ j, j ≠ i ∧ Requested s.unions i j := by
    by_cases hci : c = i
    · subst hci
      have hnot := h.pending c hc
      simp only [Alone, not_forall] at hnot
      obtain ⟨j, hj, hne⟩ := hnot
      exact ⟨j, hne, hj⟩
    · exact ⟨c, hci, hrequested⟩
  have halone := hflat n i hn hjoined
  rw [hform halone]
  exact h.canon_alone halone

theorem Fresh.quiet_of_flat (hflat : FlatUnions s) :
    Quiet s.graph := by
  refine ⟨?_, ?_⟩
  · intro c hc n hn e he
    rw [h.canon_of_flat hflat hc hn] at he
    obtain ⟨-, i, hi, hic⟩ := h.origin _ n hn
    rw [hi] at he
    cases he
    exact hic
  · intro c hc d hd n hn m hm heq
    rw [h.canon_of_flat hflat hc hn, h.canon_of_flat hflat hd hm] at heq
    subst heq
    obtain ⟨-, i, hi, hic⟩ := h.origin _ n hn
    obtain ⟨-, j, hj, hjd⟩ := h.origin _ n hm
    rw [hi] at hj
    cases hj
    exact hic.symm.trans hjd

end Restores

/-- After additions and unions, rebuilding restores congruence and keeps every
added node when the requested unions are closed under congruence; where no node of
a joined class is above another joined class, only then. -/
theorem rebuild_restores_iff [LawfulENodeLang L] [DecidableEq L] (calls : List (Call L))
    (hno : Call.rebuild ∉ calls) :
    (ClosedUnions (run calls) →
      (run (calls ++ [.rebuild])).graph.CongruenceClosed ∧
      (run (calls ++ [.rebuild])).graph.Lists (run calls).added) ∧
    (FlatUnions (run calls) →
      (run (calls ++ [.rebuild])).graph.CongruenceClosed ∧
      (run (calls ++ [.rebuild])).graph.Lists (run calls).added →
      ClosedUnions (run calls)) := by
  obtain ⟨hfresh, hcov⟩ := fresh_run calls hno
  have hrun : ∀ {n g'}, exec tryRebuild (run calls).graph = (.ok n, g') →
      (run (calls ++ [.rebuild])).graph = g' := by
    intro n g' h
    rw [run_append]
    show (exec tryRebuild (run calls).graph).2 = g'
    rw [h]
  constructor
  · intro hclosed
    obtain ⟨n, g', hok, hsettled⟩ := (hfresh.quiet_of_closed hclosed).tryRebuild hfresh.wf
    rw [hrun hok]
    exact ⟨(hsettled.congruenceClosed_iff hfresh.wf).mpr (hfresh.congruenceClosed_iff.mpr hclosed),
      Settled.lists hfresh hcov hsettled⟩
  · intro hflat hend
    obtain ⟨n, g', hok, hsettled⟩ := (hfresh.quiet_of_flat hflat).tryRebuild hfresh.wf
    rw [hrun hok] at hend
    exact hfresh.congruenceClosed_iff.mp ((hsettled.congruenceClosed_iff hfresh.wf).mp hend.1)

/-- Two constants and their doubles, with the doubles made equal too. -/
def closedCalls : List (Call Arith) :=
  [.add (.const 1), .add (.const 2), .add (.add 0 0), .add (.add 1 1), .union 0 1, .union 2 3]

theorem rebuild_restores_closed :
    Call.rebuild ∉ closedCalls ∧ ClosedUnions (run closedCalls) ∧
      (run (closedCalls ++ [.rebuild])).graph.CongruenceClosed ∧
      (run (closedCalls ++ [.rebuild])).graph.Lists (run closedCalls).added := by
  have hno : Call.rebuild ∉ closedCalls := by simp [closedCalls]
  have hcreated : (run closedCalls).created
      = [(.const 1, 0), (.const 2, 1), (.add 0 0, 2), (.add 1 1, 3)] := by decide
  have hunions : (run closedCalls).unions = [(0, 1), (2, 3)] := by decide
  have hclosed : ClosedUnions (run closedCalls) := by
    intro n m i j hn hm hmatch
    have hdoubles : Requested (run closedCalls).unions 2 3 := by
      rw [hunions]
      exact .rel _ _ (by simp)
    rw [hcreated] at hn hm
    simp only [mem_cons, not_mem_nil, or_false] at hn hm
    rcases hn with ⟨rfl, rfl⟩ | ⟨rfl, rfl⟩ | ⟨rfl, rfl⟩ | ⟨rfl, rfl⟩ <;>
      rcases hm with ⟨rfl, rfl⟩ | ⟨rfl, rfl⟩ | ⟨rfl, rfl⟩ | ⟨rfl, rfl⟩ <;>
      first
        | exact .refl _
        | exact absurd hmatch.1.1 (by decide)
        | exact hdoubles
        | exact .symm _ _ hdoubles
  exact ⟨hno, hclosed, (rebuild_restores_iff closedCalls hno).1 hclosed⟩

def doubledCalls : List (Call Arith) :=
  [.add (.const 1), .add (.const 2), .add (.add 0 0), .add (.add 1 1), .union 0 1]

/-- The same, and the second node made equal to a third constant. -/
def droppedCalls : List (Call Arith) :=
  [.add (.const 1), .add (.const 2), .add (.add 0 0), .add (.add 1 1), .add (.const 4),
    .union 0 1, .union 3 4]

/-- The nodes above the merged constants stay in two classes; and when a
collision does join them, the third constant is no longer in its class. -/
theorem rebuild_incomplete :
    ¬ (run (doubledCalls ++ [.rebuild])).graph.CongruenceClosed ∧
      ¬ (run (droppedCalls ++ [.rebuild])).graph.Lists (run droppedCalls).added := by
  constructor
  · intro hclosed
    have hnodes : (run (doubledCalls ++ [.rebuild])).graph.iterNodes
        = [(0, .const 1), (0, .const 2), (2, .add 0 0), (3, .add 1 1)] := by decide
    have hsame : (run (doubledCalls ++ [.rebuild])).graph.tryFindImmut 0
        = (run (doubledCalls ++ [.rebuild])).graph.tryFindImmut 1 := by
      rfl
    refine absurd (hclosed 2 3 (.add 0 0) (.add 1 1) (by simp [hnodes]) (by simp [hnodes]) ?_)
      (by decide)
    refine ⟨⟨rfl, rfl⟩, fun p hp => ?_⟩
    obtain rfl : p = (0, 1) := by simpa [children] using hp
    exact hsame
  · intro hlists
    have hadded : (.const 4, 4) ∈ (run droppedCalls).added := by decide
    have hnodes : (run (droppedCalls ++ [.rebuild])).graph.iterNodes
        = [(0, .const 1), (0, .const 2), (2, .add 0 0)] := by decide +kernel
    have hparent : (run (droppedCalls ++ [.rebuild])).graph.parent = [0, 0, 2, 2, 2] := by
      decide +kernel
    obtain ⟨r, hr, m, hm, hcanon⟩ := hlists (.const 4) 4 hadded
    rw [tryFindImmut, hparent] at hr
    cases hr
    obtain rfl : m = .add 0 0 := by simpa [hnodes] using hm
    have hforms : ((run (droppedCalls ++ [.rebuild])).graph.tryCanonicalize
          (.add 0 0)).toOption
        ≠ ((run (droppedCalls ++ [.rebuild])).graph.tryCanonicalize (.const 4)).toOption := by
      decide +kernel
    exact hforms (congrArg Except.toOption hcanon)

end Vyre.Optimizer
