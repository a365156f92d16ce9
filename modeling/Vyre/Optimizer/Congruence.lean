import Vyre.Optimizer.Rebuild

/-!
# What an e-graph equates

Sessions of `add`, `union` and `rebuild` calls, and the smallest congruence that
contains the requested unions. Every class a session builds is justified by that
congruence (`find_congruent`).
-/

namespace Vyre.Optimizer

open ExceptState EGraph List ENodeLang

variable {L : Type} [ENodeLang L]

/-- `m` is `n` with other children. -/
def SameOp (n m : L) : Prop :=
  withChildren n (children m) = m ∧
    (children n).length = (children m).length

def ChildrenRel (R : Nat → Nat → Prop) (n m : L) : Prop :=
  ∀ p ∈ (children n).zip (children m), R p.1 p.2

def Matches (R : Nat → Nat → Prop) (n m : L) : Prop := SameOp n m ∧ ChildrenRel R n m

section Matches

variable {R : Nat → Nat → Prop} {n m k : L}

omit [ENodeLang L] in
theorem zip_self_eq (xs : List Nat) : ∀ p ∈ xs.zip xs, p.1 = p.2 := by
  induction xs with
  | nil => simp
  | cons x xs ih =>
    exact forall_mem_cons.mpr ⟨rfl, ih⟩

theorem Matches.imp {S : Nat → Nat → Prop} (h : ∀ a b, R a b → S a b) (hm : Matches R n m) :
    Matches S n m :=
  ⟨hm.1, fun p hp => h _ _ (hm.2 p hp)⟩

variable [LawfulENodeLang L]

theorem SameOp.refl (n : L) : SameOp n n := ⟨LawfulENodeLang.withChildren_children n, rfl⟩

theorem SameOp.withChildren (h : SameOp n m) {ids : List Nat}
    (hids : ids.length = (children n).length) :
    withChildren m ids = withChildren n ids := by
  rw [← h.1]
  exact LawfulENodeLang.withChildren_withChildren n _ _ h.2.symm hids

theorem SameOp.symm (h : SameOp n m) : SameOp m n := by
  refine ⟨?_, h.2.symm⟩
  rw [h.withChildren rfl]
  exact LawfulENodeLang.withChildren_children n

theorem SameOp.trans (h : SameOp n m) (h' : SameOp m k) : SameOp n k := by
  refine ⟨?_, h.2.trans h'.2⟩
  rw [← h.withChildren (h.2.trans h'.2).symm]
  exact h'.1

theorem Matches.refl (hR : ∀ a, R a a) (n : L) : Matches R n n := by
  refine ⟨.refl n, fun p hp => ?_⟩
  rw [zip_self_eq _ p hp]
  exact hR p.2

theorem Matches.symm (hR : ∀ a b, R a b → R b a) (h : Matches R n m) : Matches R m n := by
  refine ⟨h.1.symm, fun p hp => hR _ _ (h.2 (p.2, p.1) ?_)⟩
  rw [← zip_swap, mem_map] at hp
  obtain ⟨q, hq, rfl⟩ := hp
  exact hq

omit [ENodeLang L] [LawfulENodeLang L] in
theorem zip_trans {xs ys zs : List Nat} (hR : ∀ a b c, R a b → R b c → R a c)
    (hlen : xs.length = ys.length) (hxy : ∀ p ∈ xs.zip ys, R p.1 p.2)
    (hyz : ∀ p ∈ ys.zip zs, R p.1 p.2) : ∀ p ∈ xs.zip zs, R p.1 p.2 := by
  induction xs generalizing ys zs with
  | nil => simp
  | cons x xs ih =>
    cases ys with
    | nil => cases hlen
    | cons y ys =>
      cases zs with
      | nil => simp
      | cons z zs =>
        simp only [zip_cons_cons, forall_mem_cons] at hxy hyz ⊢
        exact ⟨hR _ _ _ hxy.1 hyz.1, ih (by simpa using hlen) hxy.2 hyz.2⟩

theorem Matches.trans (hR : ∀ a b c, R a b → R b c → R a c) (h : Matches R n m)
    (h' : Matches R m k) : Matches R n k :=
  ⟨h.1.trans h'.1, zip_trans hR h.1.2 h.2 h'.2⟩

theorem matches_canon {g : EGraph L} (hR : ∀ id, R id (g.rootOf id)) (n : L) :
    Matches R n (g.canon n) := by
  have hch := children_canon g n
  refine ⟨⟨by rw [hch]; rfl, by rw [hch, length_map]⟩, fun p hp => ?_⟩
  rw [hch, zip_map_right, mem_map] at hp
  obtain ⟨q, hq, rfl⟩ := hp
  have hsame := zip_self_eq _ q hq
  show R q.1 (g.rootOf q.2)
  rw [hsame]
  exact hR q.2

theorem canon_eq_iff {g : EGraph L} (hg : g.WellFormed) :
    g.canon n = g.canon m ↔ Matches (fun a b => g.rootOf a = g.rootOf b) n m := by
  have hcanon : ∀ n : L, Matches (fun a b => g.rootOf a = g.rootOf b) n (g.canon n) :=
    matches_canon fun id => (hg.rootOf_rootOf id).symm
  constructor
  · intro h
    have hn := hcanon n
    rw [h] at hn
    exact hn.trans (fun _ _ _ => Eq.trans) ((hcanon m).symm fun _ _ => Eq.symm)
  · rintro ⟨hop, hch⟩
    have hmap : ∀ xs ys : List Nat, xs.length = ys.length →
        (∀ p ∈ xs.zip ys, g.rootOf p.1 = g.rootOf p.2) → xs.map g.rootOf = ys.map g.rootOf := by
      intro xs
      induction xs with
      | nil =>
        intro ys hlen _
        rw [length_eq_zero_iff.mp hlen.symm]
      | cons x xs ih =>
        intro ys hlen h
        cases ys with
        | nil => cases hlen
        | cons y ys =>
          simp only [zip_cons_cons, forall_mem_cons] at h
          rw [map_cons, map_cons, h.1, ih ys (by simpa using hlen) h.2]
    rw [canon, canon, hmap _ _ hop.2 hch, hop.withChildren (by rw [length_map, hop.2])]

end Matches

inductive Call (L : Type) where
  | add (node : L)
  | union (a b : Nat)
  | rebuild

/-- A graph with what was asked of it: the nodes added with the ids returned, the
nodes among them that got a class of their own, and the unions between ids of the
graph. -/
structure Session (L : Type) where
  graph : EGraph L
  added : List (L × Nat)
  created : List (L × Nat)
  unions : List (Nat × Nat)

namespace Session

variable [DecidableEq L]

def step (s : Session L) : Call L → Session L
  | .add node =>
      match exec (tryAdd node) s.graph with
      | (.ok id, graph) =>
          { s with
            graph
            added := s.added ++ [(node, id)]
            created :=
              if id = s.graph.classes.length then s.created ++ [(node, id)] else s.created }
      | (.error _, graph) => { s with graph }
  | .union a b =>
      match exec (tryUnion a b) s.graph with
      | (.ok _, graph) => { s with graph, unions := s.unions ++ [(a, b)] }
      | (.error _, graph) => { s with graph }
  | .rebuild => { s with graph := (exec tryRebuild s.graph).2 }

def run (calls : List (Call L)) : Session L := calls.foldl step ⟨.new, [], [], []⟩

theorem run_append (calls : List (Call L)) (call : Call L) :
    run (calls ++ [call]) = (run calls).step call := by
  rw [run, foldl_append]
  rfl

omit [ENodeLang L] [DecidableEq L] in
theorem calls_induction {P : List (Call L) → Prop} (nil : P [])
    (snoc : ∀ calls call, P calls → P (calls ++ [call])) (calls : List (Call L)) : P calls :=
  reverseRecOn calls nil snoc

end Session

/-! ## Soundness -/

/-- The smallest congruence that contains the unions: nodes of their own class
with the same operator and congruent children are congruent. -/
inductive Congruent (created : List (L × Nat)) (unions : List (Nat × Nat)) : Nat → Nat → Prop
  | refl (a : Nat) : Congruent created unions a a
  | symm {a b : Nat} : Congruent created unions a b → Congruent created unions b a
  | trans {a b c : Nat} : Congruent created unions a b → Congruent created unions b c →
      Congruent created unions a c
  | union {a b : Nat} : (a, b) ∈ unions → Congruent created unions a b
  | congr {n m : L} {i j : Nat} : (n, i) ∈ created → (m, j) ∈ created → SameOp n m →
      (∀ p ∈ (children n).zip (children m), Congruent created unions p.1 p.2) →
      Congruent created unions i j

def Denotes (created : List (L × Nat)) (unions : List (Nat × Nat)) (n : L) (id : Nat) : Prop :=
  ∃ m i, (m, i) ∈ created ∧ Matches (Congruent created unions) m n ∧ Congruent created unions i id

section Soundness

variable {created created' : List (L × Nat)} {unions unions' : List (Nat × Nat)}

variable {a b id : Nat} {n : L} {g : EGraph L}

theorem Congruent.mono (hc : created ⊆ created') (hu : unions ⊆ unions')
    (h : Congruent created unions a b) : Congruent created' unions' a b := by
  induction h with
  | refl a => exact .refl a
  | symm _ ih => exact .symm ih
  | trans _ _ ih ih' => exact .trans ih ih'
  | union hab => exact .union (hu hab)
  | congr hn hm hop _ ih => exact .congr (hc hn) (hc hm) hop ih

theorem Denotes.mono (hc : created ⊆ created') (hu : unions ⊆ unions')
    (h : Denotes created unions n id) : Denotes created' unions' n id := by
  obtain ⟨m, i, hm, hmatch, hi⟩ := h
  exact ⟨m, i, hc hm, hmatch.imp fun _ _ => .mono hc hu, hi.mono hc hu⟩

theorem Denotes.congruent (h : Denotes created unions n a) (hab : Congruent created unions a b) :
    Denotes created unions n b := by
  obtain ⟨m, i, hm, hmatch, hi⟩ := h
  exact ⟨m, i, hm, hmatch, hi.trans hab⟩

variable [LawfulENodeLang L]

theorem Denotes.of_matches {k : L} (h : Denotes created unions n id)
    (hk : Matches (Congruent created unions) n k) : Denotes created unions k id := by
  obtain ⟨m, i, hm, hmatch, hi⟩ := h
  exact ⟨m, i, hm, hmatch.trans (fun _ _ _ => .trans) hk, hi⟩

theorem Denotes.unique (ha : Denotes created unions n a) (hb : Denotes created unions n b) :
    Congruent created unions a b := by
  obtain ⟨m, i, hm, hmatch, hi⟩ := ha
  obtain ⟨m', j, hm', hmatch', hj⟩ := hb
  have hmm := hmatch.trans (fun _ _ _ => .trans) (hmatch'.symm fun _ _ => .symm)
  exact hi.symm.trans ((Congruent.congr hm hm' hmm.1 hmm.2).trans hj)

structure Justified (created : List (L × Nat)) (unions : List (Nat × Nat)) (g : EGraph L) :
    Prop where
  root : ∀ id, Congruent created unions id (g.rootOf id)
  hashcons : ∀ k id, g.hashcons k = some id → Denotes created unions k id
  stored : ∀ i, ∀ n ∈ g.nodesAt i, Denotes created unions n i

omit [LawfulENodeLang L] in
theorem Justified.mono (hc : created ⊆ created') (hu : unions ⊆ unions')
    (h : Justified created unions g) : Justified created' unions' g :=
  ⟨fun id => (h.root id).mono hc hu, fun k id hk => (h.hashcons k id hk).mono hc hu,
    fun i n hn => (h.stored i n hn).mono hc hu⟩

omit [LawfulENodeLang L] in
theorem Justified.compressed {g' : EGraph L} (h : Justified created unions g)
    (hc : Compressed g g') : Justified created unions g' where
  root := fun id => by
    rw [hc.root]
    exact h.root id
  hashcons := by
    rw [hc.hashcons]
    exact h.hashcons
  stored := fun i n hn => h.stored i n (by rwa [hc.nodesAt] at hn)

theorem Justified.canon (h : Justified created unions g) (hn : Denotes created unions n id) :
    Denotes created unions (g.canon n) id :=
  hn.of_matches (matches_canon h.root n)

omit [LawfulENodeLang L] in
theorem Justified.merge (h : Justified created unions g) (hwf : g.WellFormed) {winner loser : Nat}
    (hlt : winner < loser) (hlen : loser < g.classes.length) (hw : g.rootOf winner = winner)
    (hl : g.rootOf loser = loser) (heq : Congruent created unions winner loser) :
    Justified created unions (g.merge winner loser) where
  root := by
    intro id
    rw [hwf.rootOf_merge hlt hw hl hlen]
    split_ifs with hid
    · have := h.root id
      rw [hid] at this
      exact this.trans heq.symm
    · exact h.root id
  hashcons := h.hashcons
  stored := by
    intro i n hn
    rw [nodesAt_merge hlt.ne (hlt.trans hlen) hlen] at hn
    split_ifs at hn with hiw hil
    · rw [hiw]
      rcases mem_append.mp hn with hn | hn
      · exact h.stored winner n hn
      · exact (h.stored loser n hn).congruent heq.symm
    · cases hn
    · exact h.stored i n hn

theorem justified_rebuild [DecidableEq L] (created : List (L × Nat)) (unions : List (Nat × Nat)) :
    RebuildRule (Justified created unions) fun i n => Denotes created unions n i where
  stored := fun h hn => h.stored _ _ hn
  compressed := Justified.compressed
  pending := fun _ h => ⟨h.root, h.hashcons, h.stored⟩
  setNodes := fun {g i ns} h hi hns => by
    refine ⟨h.root, h.hashcons, ?_⟩
    intro j n hn
    rw [nodesAt_setNodes g hi] at hn
    split_ifs at hn with hj
    · rw [hj]
      exact hns n hn
    · exact h.stored j n hn
  canon := fun h _ hn => h.canon hn
  insertKey := fun {g i k} h hk => by
    refine ⟨h.root, ?_, h.stored⟩
    intro k' id hk'
    by_cases hkk : k' = k
    · have : i = id := by simpa [EGraph.insertKey, hkk] using hk'
      rw [hkk, ← this]
      exact hk
    · exact h.hashcons k' id (by simpa [EGraph.insertKey, hkk] using hk')
  merge := fun {g n canonical e winner loser} h hwf hlen hn he hor hlt => by
    -- both classes hold the canonical form of the node
    have hsame : Congruent created unions e canonical := (h.hashcons _ _ he).unique (h.canon hn)
    have hroots : Congruent created unions (g.rootOf e) (g.rootOf canonical) :=
      (h.root e).symm.trans (hsame.trans (h.root canonical))
    have he_lt := hwf.rootOf_lt (hwf.hashcons _ _ he)
    have hc_lt := hwf.rootOf_lt hlen
    rcases hor with ⟨rfl, rfl⟩ | ⟨rfl, rfl⟩
    · exact h.merge hwf hlt hc_lt (hwf.rootOf_rootOf _) (hwf.rootOf_rootOf _) hroots
    · exact h.merge hwf hlt he_lt (hwf.rootOf_rootOf _) (hwf.rootOf_rootOf _) hroots.symm

end Soundness

/-! ### Calls -/

section Calls

theorem union_cases {g : EGraph L} (hg : g.WellFormed) (a b : Nat) :
    (∃ e g', exec (tryUnion a b) g = (.error e, g') ∧ Compressed g g') ∨
    (∃ g', exec (tryUnion a b) g = (.ok (g.rootOf a), g') ∧ g.rootOf a = g.rootOf b ∧
      Compressed g g') ∨
    ∃ winner loser g', winner < loser ∧ loser < g.classes.length ∧
      (winner = g.rootOf a ∧ loser = g.rootOf b ∨ winner = g.rootOf b ∧ loser = g.rootOf a) ∧
      exec (tryUnion a b) g = (.ok winner, g'.merge winner loser) ∧ Compressed g g' := by
  by_cases hab : a < g.classes.length ∧ b < g.classes.length
  · obtain ⟨g', hc, hrun⟩ := hg.tryUnion hab.1 hab.2
    have ha := hg.rootOf_lt hab.1
    have hb := hg.rootOf_lt hab.2
    split_ifs at hrun with heq
    · exact .inr (.inl ⟨g', hrun, heq, hc⟩)
    · refine .inr (.inr ⟨_, _, g', min_lt_max.mpr heq, max_lt ha hb, ?_, hrun, hc⟩)
      rcases lt_or_gt_of_ne heq with hlt | hlt
      · exact .inl ⟨min_eq_left hlt.le, max_eq_right hlt.le⟩
      · exact .inr ⟨min_eq_right hlt.le, max_eq_left hlt.le⟩
  · have hout : g.classes.length ≤ a ∨ g.classes.length ≤ b := by omega
    exact .inl (hg.tryUnion_error hout)

variable [DecidableEq L] [LawfulENodeLang L]

theorem add_cases {g : EGraph L} (hg : g.WellFormed) (n : L) :
    (∃ e, exec (tryAdd n) g = (.error e, g)) ∨
    (∃ id g', (∀ c ∈ children n, c < g.classes.length) ∧
      g.hashcons (g.canon n) = some id ∧
      exec (tryAdd n) g = (.ok (g.rootOf id), g') ∧ Compressed g g') ∨
    ∃ indices g', (∀ c ∈ children n, c < g.classes.length) ∧
      g.hashcons (g.canon n) = none ∧ Compressed g g' ∧ exec (tryAdd n) g
        = (.ok g.classes.length, g'.insertClass (g.canon n) g'.classes.length indices) := by
  by_cases hn : ∀ c ∈ children n, c < g.classes.length
  · cases hhit : g.hashcons (g.canon n) with
    | some id =>
      obtain ⟨g', hrun, hc⟩ := hg.tryAdd_hit hn hhit
      exact .inr (.inl ⟨id, g', hn, rfl, hrun, hc⟩)
    | none =>
      by_cases hlen : g.classes.length < 2 ^ 32
      · obtain ⟨indices, g', hrun, hc⟩ := hg.tryAdd_miss hn hhit hlen
        refine .inr (.inr ⟨indices, g', hn, rfl, hc, ?_⟩)
        rw [hc.classes]
        exact hrun
      · exact .inl (hg.tryAdd_error (.inr ⟨hn, hhit, not_lt.mp hlen⟩))
  · push Not at hn
    exact .inl (hg.tryAdd_error (.inl hn))

structure Sound (s : Session L) : Prop where
  wf : s.graph.WellFormed
  justified : Justified s.created s.unions s.graph
  added : ∀ e ∈ s.added, Denotes s.created s.unions e.1 e.2

theorem sound_add {s : Session L} (h : Sound s) (n : L) : Sound (s.step (.add n)) := by
  rcases add_cases h.wf n with ⟨e, hrun⟩ | ⟨id, g', -, hhit, hrun, hc⟩ |
    ⟨indices, g', hn, hmiss, hc, hrun⟩
  · simp only [Session.step, hrun]
    exact h
  · -- the known node is congruent to the added one
    have hold : s.graph.rootOf id ≠ s.graph.classes.length :=
      (h.wf.rootOf_lt (h.wf.hashcons _ _ hhit)).ne
    have hdenotes : Denotes s.created s.unions n (s.graph.rootOf id) := by
      have hcanon := (h.justified.hashcons _ _ hhit).congruent (h.justified.root id)
      exact hcanon.of_matches ((matches_canon h.justified.root n).symm fun _ _ => .symm)
    simp only [Session.step, hrun, if_neg hold]
    refine ⟨hc.wellFormed h.wf, h.justified.compressed hc, ?_⟩
    intro e he
    rcases mem_append.mp he with he | he
    · exact h.added e he
    · obtain rfl := mem_singleton.mp he
      exact hdenotes
  · simp only [Session.step, hrun]
    have hsub : s.created ⊆ s.created ++ [(n, s.graph.classes.length)] := subset_append_left _ _
    have hwf := hc.wellFormed h.wf
    have hjust := (h.justified.compressed hc).mono hsub (List.Subset.refl s.unions)
    -- the new class holds the canonical form of the node
    have hnew :
        ∀ k : L, Matches (Congruent (s.created ++ [(n, s.graph.classes.length)]) s.unions) n k →
        Denotes (s.created ++ [(n, s.graph.classes.length)]) s.unions k s.graph.classes.length :=
      fun k hk => ⟨n, s.graph.classes.length, by simp, hk, .refl _⟩
    have hcanon := hnew (g'.canon n) (matches_canon hjust.root n)
    rw [hc.canon] at hcanon
    refine ⟨hwf.insertClass (by rw [Covers, hc.classes]; exact h.wf.canon_lt hn) indices,
      ⟨?_, ?_, ?_⟩, ?_⟩
    · intro id
      rw [rootOf_insertClass hwf.length.symm]
      exact hjust.root id
    · intro k id hk
      by_cases hkn : k = s.graph.canon n
      · have : g'.classes.length = id := by simpa [EGraph.insertClass, hkn] using hk
        rw [hkn, ← this, hc.classes]
        exact hcanon
      · exact hjust.hashcons k id (by simpa [EGraph.insertClass, hkn] using hk)
    · intro i m hm
      rw [nodesAt_insertClass] at hm
      split_ifs at hm with hi
      · obtain rfl := mem_singleton.mp hm
        rw [hi, hc.classes]
        exact hcanon
      · exact hjust.stored i m hm
    · intro e he
      rcases mem_append.mp he with he | he
      · exact (h.added e he).mono hsub (List.Subset.refl _)
      · obtain rfl := mem_singleton.mp he
        exact hnew n (.refl (fun _ => .refl _) n)

omit [LawfulENodeLang L] in
theorem sound_union {s : Session L} (h : Sound s) (a b : Nat) : Sound (s.step (.union a b)) := by
  have hsub : s.unions ⊆ s.unions ++ [(a, b)] := subset_append_left _ _
  have hadded : ∀ e ∈ s.added, Denotes s.created (s.unions ++ [(a, b)]) e.1 e.2 :=
    fun e he => (h.added e he).mono (List.Subset.refl _) hsub
  rcases union_cases h.wf a b with ⟨e, g', hrun, hc⟩ | ⟨g', hrun, heq, hc⟩ |
    ⟨winner, loser, g', hlt, hlen, hor, hrun, hc⟩
  · simp only [Session.step, hrun]
    exact ⟨hc.wellFormed h.wf, h.justified.compressed hc, h.added⟩
  · simp only [Session.step, hrun]
    exact ⟨hc.wellFormed h.wf, (h.justified.compressed hc).mono (List.Subset.refl _) hsub, hadded⟩
  · simp only [Session.step, hrun]
    have hwf := hc.wellFormed h.wf
    have hjust := (h.justified.compressed hc).mono (List.Subset.refl s.created) hsub
    have hasked :
        Congruent s.created (s.unions ++ [(a, b)]) (s.graph.rootOf a) (s.graph.rootOf b) := by
      rw [← hc.root, ← hc.root]
      exact (hjust.root a).symm.trans ((Congruent.union (by simp)).trans (hjust.root b))
    have hroot : ∀ id, g'.rootOf (s.graph.rootOf id) = s.graph.rootOf id := fun id => by
      rw [hc.root, h.wf.rootOf_rootOf]
    rw [← hc.classes] at hlen
    refine ⟨hwf.merge hlt hlen, ?_, hadded⟩
    rcases hor with ⟨rfl, rfl⟩ | ⟨rfl, rfl⟩
    · exact hjust.merge hwf hlt hlen (hroot a) (hroot b) hasked
    · exact hjust.merge hwf hlt hlen (hroot b) (hroot a) hasked.symm

theorem sound_run (calls : List (Call L)) : Sound (Session.run calls) := by
  induction calls using Session.calls_induction with
  | nil =>
    have hparent : ∀ id, parentOf [] id = id := fun _ => rfl
    refine ⟨⟨rfl, fun id => (hparent id).le, by simp [Session.run, EGraph.new],
      ?_, by simp [Session.run, EGraph.new]⟩,
      ⟨?_, by simp [Session.run, EGraph.new], ?_⟩, by simp [Session.run]⟩
    · intro i n hn
      cases hn
    · intro id
      have hroot : (Session.run ([] : List (Call L))).graph.rootOf id = id :=
        Forest.root_of_fixed (hparent id)
      rw [hroot]
      exact .refl id
    · intro i n hn
      cases hn
  | snoc calls call ih =>
    rw [Session.run_append]
    cases call with
    | add n => exact sound_add ih n
    | union a b => exact sound_union ih a b
    | rebuild =>
      obtain ⟨k, g', hrun, hwf, hjust, -, -⟩ :=
        tryRebuild_ok (justified_rebuild _ _) ih.wf ih.justified
      simp only [Session.step, hrun]
      exact ⟨hwf, hjust, ih.added⟩

end Calls

/-- Two ids with one representative are congruent, and so is a node with the
class that adding it returned. -/
theorem find_congruent [LawfulENodeLang L] [DecidableEq L] (calls : List (Call L)) :
    (∀ a b r, (exec (tryFind a) (Session.run calls).graph).1 = .ok r →
      (exec (tryFind b) (Session.run calls).graph).1 = .ok r →
      Congruent (Session.run calls).created (Session.run calls).unions a b) ∧
    ∀ e ∈ (Session.run calls).added,
      Denotes (Session.run calls).created (Session.run calls).unions e.1 e.2 := by
  have hsound := sound_run calls
  have hroot : ∀ a r, (exec (tryFind a) (Session.run calls).graph).1 = .ok r →
      (Session.run calls).graph.rootOf a = r := by
    intro a r h
    by_cases ha : a < (Session.run calls).graph.classes.length
    · obtain ⟨g', hrun, -⟩ := hsound.wf.tryFind ha
      rw [hrun] at h
      cases h
      rfl
    · rw [hsound.wf.tryFind_error (not_lt.mp ha)] at h
      cases h
  refine ⟨fun a b r ha hb => ?_, hsound.added⟩
  have hjoin := (hsound.justified.root b).symm
  rw [hroot b r hb, ← hroot a r ha] at hjoin
  exact (hsound.justified.root a).trans hjoin

inductive Arith where
  | const (value : UInt32)
  | add (left right : Nat)
  | mul (left right : Nat)
  deriving DecidableEq

instance : ENodeLang Arith where
  children
    | .const _ => []
    | .add left right | .mul left right => [left, right]
  withChildren
    | .const value, _ => .const value
    | .add _ _, ids => .add (ids.getD 0 0) (ids.getD 1 0)
    | .mul _ _, ids => .mul (ids.getD 0 0) (ids.getD 1 0)
  hash := fun _ => 0

instance : LawfulENodeLang Arith where
  withChildren_children := by
    intro n
    cases n <;> rfl
  children_withChildren := by
    intro n ids h
    cases n with
    | const value => exact (length_eq_zero_iff.mp h).symm
    | add left right | mul left right =>
      obtain ⟨x, y, rfl⟩ := length_eq_two.mp h
      rfl
  withChildren_withChildren := by
    intro n ids ids' _ _
    cases n <;> rfl

/-- Two doubles of constants that were made equal are congruent. -/
theorem find_congruent_doubles : ∃ calls : List (Call Arith),
    calls =
      [.add (.const 1), .add (.const 2), .union 0 1, .add (.add 0 0), .add (.add 1 1), .rebuild] ∧
    (Session.run calls).added = [(.const 1, 0), (.const 2, 1), (.add 0 0, 2), (.add 1 1, 2)] ∧
    (∀ a b r, (exec (tryFind a) (Session.run calls).graph).1 = .ok r →
      (exec (tryFind b) (Session.run calls).graph).1 = .ok r →
      Congruent (Session.run calls).created (Session.run calls).unions a b) ∧
    Denotes (Session.run calls).created (Session.run calls).unions (.add 1 1) 2 := by
  refine ⟨_, rfl, by decide, (find_congruent _).1, (find_congruent _).2 (Arith.add 1 1, 2) ?_⟩
  decide

end Vyre.Optimizer
