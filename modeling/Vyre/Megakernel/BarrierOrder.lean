import Vyre.Megakernel.BarrierPaths

/-!
# What barrier elision keeps of the order

Invocations of a workgroup pass the same barriers one after another. Two
accesses of different invocations are separated by a barrier, in every schedule
of the workgroup, when the invocations have passed different numbers of barriers
before them.

Elision judges a barrier by its two neighbours. Between two barriers that stay,
accesses that were separated may come together, from arms further apart, from
the code around the arms or from another iteration. The module shows that order
is kept exactly when the accesses that come together do not conflict.
-/

namespace Vyre.Megakernel

open List

/-- What the invocations of a workgroup have done so far. They have come through
the same barriers, some further than others. -/
structure Run (eff : Effects) (entry : List Node) (n : Nat) where
  path : Fin n → List Event
  isPath : ∀ i, ∃ q, Path eff (startPoint entry) (path i) q
  aligned : ∀ i j, barriers (path i) <+: barriers (path j) ∨ barriers (path j) <+: barriers (path i)

/-- A barrier lies between what follows the events in one invocation and what
follows those in another. -/
def Separated (before before' : List Event) : Prop :=
  (barriers before).length ≠ (barriers before').length

open Event

/-- What the invocations do in the elided program, when they take the same
branches. -/
structure Elides {eff : Effects} {p : Program} {n : Nat} (run : Run eff p.entry n)
    (left : Fin n → List Event) : Prop where
  isPath : ∀ i, ∃ q, Path eff (startPoint (elideValueFlowBarriers p).1.entry) (left i) q
  same : ∀ i, (left i).map seen = seenAfter (run.path i)

/-- Conflicting accesses that a barrier separates are still separated after
elision. -/
def KeepsOrder (eff : Effects) (p : Program) : Prop :=
  ∀ (n : Nat) (run : Run eff p.entry n) (left : Fin n → List Event), Elides run left →
    ∀ i j, i ≠ j → ∀ before a after before' b after',
      run.path i = before ++ .access a :: after → run.path j = before' ++ .access b :: after' →
      a.Conflicts b → Separated before before' →
      ∀ leftBefore leftBefore', leftBefore <+: left i → leftBefore' <+: left j →
        leftBefore.map seen = seenAfter before → leftBefore'.map seen = seenAfter before' →
        Separated leftBefore leftBefore'

def IsSegmentStart (eff : Effects) (entry : List Node) (evs : List Event) (p : Point) : Prop :=
  (evs = [] ∧ p = startPoint entry) ∨
    ∃ before removed, evs = before ++ [.barrier removed p] ∧ Path eff (startPoint entry) evs p

/-- Whatever is accessed before the next barrier does not conflict with what is
accessed after it, up to the next barrier that stays. -/
def SegmentsIndependent (eff : Effects) (entry : List Node) : Prop :=
  ∀ evs p, IsSegmentStart eff entry evs p → ∀ before a after q before' b after' q',
    Path eff p (before ++ .access a :: after) q → barriers before = [] →
    Path eff p (before' ++ .access b :: after') q' → barriers before' ≠ [] →
    (barriers before').all (·.1) = true → ¬a.Conflicts b

/-! ## Counting barriers -/

theorem length_barriers (evs : List Event) : (barriers evs).length = (evs.map seen).count none := by
  induction evs with
  | nil => rfl
  | cons e evs ih =>
    cases e with
    | access a | barrier removed point => simpa [barriers, seen] using ih

theorem count_seenAfter (evs : List Event) :
    (seenAfter evs).count none = ((barriers evs).filter fun b => !b.1).length := by
  induction evs with
  | nil => rfl
  | cons e evs ih =>
    cases e with
    | access a =>
      show (some a :: seenAfter evs).count none = ((barriers evs).filter fun b => !b.1).length
      simpa using ih
    | barrier removed point =>
      cases removed with
      | true => exact ih
      | false =>
        show (none :: seenAfter evs).count none = ((barriers evs).filter fun b => !b.1).length + 1
        simpa using ih

theorem exists_cut {evs : List Event} {bs mid : List (Bool × Point)} {removed : Bool}
    {point : Point}
    (h : barriers evs = bs ++ (removed, point) :: mid) :
    ∃ x y, evs = x ++ .barrier removed point :: y ∧ barriers x = bs ∧ barriers y = mid := by
  obtain ⟨x, z, rfl, hx, hz⟩ := filterMap_eq_append_iff.mp h
  obtain ⟨y₁, e, y₂, rfl, hnone, he, hy⟩ := filterMap_eq_cons_iff.mp hz
  cases e with
  | access a => cases he
  | barrier removed' point' =>
    cases he
    refine ⟨x ++ y₁, y₂, by simp, ?_, hy⟩
    have hy₁ : barriers y₁ = [] := filterMap_eq_nil_iff.mpr hnone
    rw [barriers_append, hy₁, append_nil]
    exact hx

section Order

variable {eff : Effects}

theorem Path.upto_access {p q : Point} {evs : List Event} (h : Path eff p evs q)
    {before after : List Event}
    {a : Access} (heq : evs = before ++ .access a :: after) :
    ∃ (as : List Access) (q' : Point), Path eff p (before ++ .access a :: as.map .access) q' := by
  induction h generalizing before with
  | refl p => simp at heq
  | @step p q r evs evs' hmove hrest ih =>
    obtain ⟨before', rfl, hrest'⟩ | ⟨tail, hbefore, haccess⟩ := append_eq_append_iff.mp heq
    · obtain ⟨as, q', hpath⟩ := ih hrest'
      refine ⟨as, q', ?_⟩
      rw [append_assoc]
      exact .step hmove hpath
    · cases tail with
      | nil =>
        rw [append_nil] at hbefore
        obtain ⟨as, q', hpath⟩ := ih (show evs' = [] ++ _ from haccess.symm)
        rw [← hbefore]
        exact ⟨as, q', .step hmove hpath⟩
      | cons e tail =>
        obtain ⟨rfl, -⟩ := haccess
        -- The access is one of this statement, which is no barrier.
        obtain ⟨as, has⟩ | ⟨removed, hbarrier⟩ := hmove.events
        · obtain ⟨as₁, as₂, -, -, htail⟩ := map_eq_append_iff.mp (has.symm.trans hbefore)
          obtain ⟨c, cs, -, -, rfl⟩ := map_eq_cons_iff.mp htail
          exact ⟨cs, q, hbefore ▸ hmove.path⟩
        · rw [hbarrier] at hbefore
          have hmem : access a ∈ [barrier removed q] := by
            rw [hbefore]
            simp
          simp at hmem

theorem Run.exists_elides {p : Program} {n : Nat} (run : Run eff p.entry n) :
    ∃ left, Elides run left := by
  have hone : ∀ i, ∃ left, (∃ q, Path eff (startPoint (elideValueFlowBarriers p).1.entry) left q) ∧
      left.map seen = seenAfter (run.path i) := by
    intro i
    obtain ⟨q, hpath⟩ := run.isPath i
    have hstart : Shrinks (startPoint p.entry) (startPoint (elideValueFlowBarriers p).1.entry) := by
      rw [entry_elideValueFlowBarriers]
      exact .nodes none none p.entry .nil
    obtain ⟨left, q', hleft, -, hseen⟩ := hpath.elided hstart
    exact ⟨left, ⟨q', hleft⟩, hseen⟩
  choose left hpath hsame using hone
  exact ⟨left, hpath, hsame⟩

/-- Two accesses behind a common part of the barriers, the second further on. If
they come together, they are in one segment. -/
theorem not_conflicts_of_segments {entry : List Node} (hseg : SegmentsIndependent eff entry)
    {before after before' after' : List Event} {a b : Access} {q q' : Point}
    (hpath : Path eff (startPoint entry) (before ++ .access a :: after) q)
    (hpath' : Path eff (startPoint entry) (before' ++ .access b :: after') q')
    {mid : List (Bool × Point)} (hmid : barriers before' = barriers before ++ mid) (hne : mid ≠ [])
    (hall : mid.all (·.1) = true) : ¬a.Conflicts b := by
  cases hlast : (barriers before).reverse with
  | nil =>
    have hnone : barriers before = [] := reverse_eq_nil_iff.mp hlast
    rw [hnone] at hmid
    exact hseg [] _ (.inl ⟨rfl, rfl⟩) before a after q before' b after' q' hpath hnone hpath'
      (by rwa [hmid]) (by rwa [hmid])
  | cons last bs =>
    -- Both paths are cut at the last barrier that both have passed.
    obtain ⟨removed, point⟩ := last
    have hbefore : barriers before = bs.reverse ++ (removed, point) :: [] := by
      rw [← reverse_reverse (barriers before), hlast, reverse_cons]
    have hbefore' : barriers before' = bs.reverse ++ (removed, point) :: mid := by
      rw [hmid, hbefore, append_assoc]
      rfl
    obtain ⟨x, y, rfl, -, hy⟩ := exists_cut hbefore
    obtain ⟨x', y', rfl, -, hy'⟩ := exists_cut hbefore'
    obtain ⟨hstart, hrest⟩ := hpath.after_barrier (append_assoc x _ _)
    obtain ⟨-, hrest'⟩ := hpath'.after_barrier (append_assoc x' _ _)
    exact hseg _ point (.inr ⟨x, removed, rfl, hstart⟩) y a after q y' b after' q' hrest hy hrest'
      (by rwa [hy']) (by rwa [hy'])

theorem not_conflicts_of_lt {entry : List Node} (hseg : SegmentsIndependent eff entry) {n : Nat}
    (run : Run eff entry n) {i j : Fin n} {before after before' after' : List Event} {a b : Access}
    (hi : run.path i = before ++ .access a :: after)
    (hj : run.path j = before' ++ .access b :: after')
    (hlt : (barriers before).length < (barriers before').length)
    (hkept : (seenAfter before).count none = (seenAfter before').count none) : ¬a.Conflicts b := by
  have hbefore : barriers before <+: barriers (run.path i) := by
    rw [hi, barriers_append]
    exact prefix_append _ _
  have hbefore' : barriers before' <+: barriers (run.path j) := by
    rw [hj, barriers_append]
    exact prefix_append _ _
  have hle : barriers before <+: barriers before' := by
    obtain hij | hji := run.aligned i j
    · exact prefix_of_prefix_length_le (hbefore.trans hij) hbefore' hlt.le
    · exact prefix_of_prefix_length_le hbefore (hbefore'.trans hji) hlt.le
  obtain ⟨mid, hmid⟩ := hle
  have hne : mid ≠ [] := by
    intro h
    rw [← hmid, h, append_nil] at hlt
    exact lt_irrefl _ hlt
  have hall : mid.all (·.1) = true := by
    rw [count_seenAfter, count_seenAfter, ← hmid, filter_append, length_append] at hkept
    have hnone : (mid.filter fun b => !b.1) = [] := length_eq_zero_iff.mp (by omega)
    simpa using hnone
  obtain ⟨q, hpath⟩ := run.isPath i
  obtain ⟨q', hpath'⟩ := run.isPath j
  rw [hi] at hpath
  rw [hj] at hpath'
  exact not_conflicts_of_segments hseg hpath hpath' hmid.symm hne hall

theorem keepsOrder_of_segments {p : Program} (hseg : SegmentsIndependent eff p.entry) :
    KeepsOrder eff p := by
  intro n run left _ i j _ before a after before' b after' hi hj hconflict hsep
    leftBefore leftBefore'
    _ _ hsame hsame' hequal
  rw [length_barriers, length_barriers, hsame, hsame'] at hequal
  obtain hlt | hgt := Nat.lt_or_gt_of_ne hsep
  · exact not_conflicts_of_lt hseg run hi hj hlt hequal hconflict
  · exact not_conflicts_of_lt hseg run hj hi hgt hequal.symm hconflict.symm

def Run.pair {entry : List Node} {evs evs' : List Event} {q q' : Point}
    (hpath : Path eff (startPoint entry) evs q) (hpath' : Path eff (startPoint entry) evs' q')
    (hshorter : barriers evs <+: barriers evs') : Run eff entry 2 where
  path i := if i = 0 then evs else evs'
  isPath := by
    intro i
    split_ifs with hi
    · exact ⟨q, hpath⟩
    · exact ⟨q', hpath'⟩
  aligned := by
    intro i j
    by_cases hi : i = 0 <;> by_cases hj : j = 0 <;> simp [hi, hj, hshorter]

theorem exists_leftBefore {left before rest : List Event}
    (h : left.map seen = seenAfter (before ++ rest)) :
    ∃ leftBefore, leftBefore <+: left ∧ leftBefore.map seen = seenAfter before := by
  rw [seenAfter_append] at h
  obtain ⟨l₁, l₂, rfl, h₁, -⟩ := map_eq_append_iff.mp h
  exact ⟨l₁, prefix_append _ _, h₁⟩

theorem segments_of_keepsOrder {p : Program} (hkeeps : KeepsOrder eff p) :
    SegmentsIndependent eff p.entry := by
  intro evs point hstart before a after q before' b after' q' hpath hnone hpath' hne hall hconflict
  have hfirst : Path eff (startPoint p.entry) evs point := by
    obtain ⟨rfl, rfl⟩ | ⟨_, _, -, hpath⟩ := hstart
    · exact .refl _
    · exact hpath
  -- One invocation stops at the first access, the other goes on to the second.
  obtain ⟨as, q₁, hshort⟩ := hpath.upto_access rfl
  have hone := hfirst.trans hshort
  have htwo := hfirst.trans hpath'
  rw [← append_assoc] at hone htwo
  have hshorter : barriers (evs ++ before ++ .access a :: as.map .access) <+:
      barriers (evs ++ before' ++ .access b :: after') := by
    have haccess : barriers (.access a :: as.map .access) = [] := barriers_access (a :: as)
    rw [barriers_append, barriers_append, haccess, hnone, append_nil, append_nil,
      barriers_append, barriers_append, append_assoc]
    exact prefix_append _ _
  obtain ⟨left, hleft⟩ := (Run.pair hone htwo hshorter).exists_elides
  obtain ⟨leftBefore, hle, hsame⟩ := exists_leftBefore
    (show (left 0).map seen = seenAfter (evs ++ before ++ _) from hleft.same 0)
  obtain ⟨leftBefore', hle', hsame'⟩ := exists_leftBefore
    (show (left 1).map seen = seenAfter (evs ++ before' ++ _) from hleft.same 1)
  refine hkeeps 2 (Run.pair hone htwo hshorter) left hleft 0 1 (by decide) (evs ++ before) a _
    (evs ++ before') b after' rfl rfl hconflict ?_ leftBefore leftBefore' hle hle' hsame hsame' ?_
  · rw [Separated, barriers_append, barriers_append, hnone, append_nil, length_append]
    have hpos := length_pos_iff.mpr hne
    omega
  · have hgone : ((barriers before').filter fun b => !b.1) = [] := by
      rw [filter_eq_nil_iff]
      intro x hx
      simp [all_eq_true.mp hall x hx]
    rw [length_barriers, length_barriers, hsame, hsame', count_seenAfter, count_seenAfter,
      barriers_append, barriers_append, hnone, append_nil, filter_append, hgone, append_nil]

/-- Elision keeps the order of conflicting accesses exactly in programs whose
segments are independent. -/
theorem elideValueFlowBarriers_keepsOrder_iff (eff : Effects) (p : Program) :
    KeepsOrder eff p ↔ SegmentsIndependent eff p.entry :=
  ⟨segments_of_keepsOrder, keepsOrder_of_segments⟩

end Order

def noEffects : Effects where
  expr _ := []
  node _ := []
  waits _ _ := True

def writeArm (buffer : Ident) : Node := .block [.store buffer (.litU32 0) (.litU32 1)]

def readArm (buffer : Ident) : Node := .block [.letBind "x" (.load buffer (.litU32 0))]

/-- `a` is written, then `b`, then `a` is read, with barriers between. -/
def chained : Program where
  buffers := [.readWrite "a" 0 .u32, .readWrite "b" 1 .u32]
  workgroupSize := (64, 1, 1)
  entry := [writeArm "a", .barrier .seqCst, writeArm "b", .barrier .seqCst, readArm "a"]

theorem arm_path {eff : Effects} {n : Node} {as : List Access} (htouch : Touches eff n as)
    (previous : Option Node) (rest : List Node) (k : Point) :
    Path eff (.nodes previous (.block [n] :: rest) :: k) (as.map .access)
      (.nodes (some (.block [n])) rest :: k) := by
  have hone := Path.step (.block previous [n] rest k)
    ((Moves.simple none [] _ htouch).path.trans (Moves.leave _ _).path)
  rw [append_nil] at hone
  exact hone

/-- Both barriers are removed, so that the write and the read of `a` are no
longer separated. -/
theorem elideValueFlowBarriers_joins_chain :
    (elideValueFlowBarriers chained).1.entry = [writeArm "a", writeArm "b", readArm "a"] ∧
      ¬KeepsOrder noEffects chained := by
  refine ⟨rfl, fun hkeeps => ?_⟩
  have hseg := segments_of_keepsOrder hkeeps
  have hwrite :
      ∀ buffer, Touches noEffects (.store buffer (.litU32 0) (.litU32 1)) [⟨buffer, true⟩] :=
    fun buffer => .store buffer (.litU32 0) (.litU32 1)
  have hread : Touches noEffects (.letBind "x" (.load "a" (.litU32 0))) [⟨"a", false⟩] :=
    .letBind _ _
  have hfirst := arm_path (hwrite "a") none
    [.barrier .seqCst, writeArm "b", .barrier .seqCst, readArm "a"] []
  have hsecond := arm_path (hwrite "b") (some (.barrier .seqCst)) [.barrier .seqCst, readArm "a"] []
  have hthird := arm_path hread (some (.barrier .seqCst)) [] []
  have hlong := ((hfirst.trans (Moves.barrier _ _ _ _).path).trans
    (hsecond.trans (Moves.barrier _ _ _ _).path)).trans hthird
  exact hseg [] _ (.inl ⟨rfl, rfl⟩) [] ⟨"a", true⟩ [] _
    [.access ⟨"a", true⟩, .barrier true _, .access ⟨"b", true⟩, .barrier true _] ⟨"a", false⟩ [] _
    hfirst rfl hlong (by simp [barriers]) rfl ⟨rfl, .inl rfl⟩

end Vyre.Megakernel
