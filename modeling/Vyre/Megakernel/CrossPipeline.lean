import Mathlib.Algebra.Order.Ring.Nat
import Mathlib.Data.List.Basic

/-!
# Cross-pipeline fusion

Which consecutive pipelines are launched as one segment
(`planner/cross_pipeline.rs`, over `pipeline_fusion.rs` and
`arm_independence.rs` of the driver). The planner compares each pipeline with
the one before it.
-/

namespace Vyre.Megakernel

open List

/-- `BindingSlotSet`: `insert` keeps the slots in ascending order. -/
structure BindingSlotSet where
  slots : List UInt32
  sorted : slots.Pairwise (· < ·)

namespace BindingSlotSet

variable (s other : BindingSlotSet)

/-- The binary search of an ascending list. -/
def contains (slot : UInt32) : Bool := slot ∈ s.slots

def intersects : Bool :=
  if s.slots.length ≤ other.slots.length then s.slots.any other.contains
  else other.slots.any s.contains

theorem intersects_iff : s.intersects other = true ↔ ∃ slot ∈ s.slots, slot ∈ other.slots := by
  unfold intersects contains
  split
  · simp
  · simp [and_comm]

end BindingSlotSet

structure ArmBindingSummary where
  reads : BindingSlotSet
  writes : BindingSlotSet

inductive ArmConflict where
  | writeWriteConflict
  | readAfterWrite
  | writeAfterRead

inductive ArmIndependenceVerdict where
  | independent
  | serializeRequired (reason : ArmConflict)

def canDispatchConcurrently (a b : ArmBindingSummary) : ArmIndependenceVerdict :=
  if a.writes.intersects b.writes then .serializeRequired .writeWriteConflict
  else if a.writes.intersects b.reads then .serializeRequired .readAfterWrite
  else if a.reads.intersects b.writes then .serializeRequired .writeAfterRead
  else .independent

inductive CrossPipelineConflict where
  | writeWriteConflict
  | readAfterWrite
  | writeAfterRead

inductive CrossPipelineFusionDecision where
  | fuse
  | keepSeparate (reason : CrossPipelineConflict)

def decideCrossPipelineFusion (earlier later : ArmBindingSummary) : CrossPipelineFusionDecision :=
  match canDispatchConcurrently earlier later with
  | .independent => .fuse
  | .serializeRequired .writeWriteConflict => .keepSeparate .writeWriteConflict
  | .serializeRequired .readAfterWrite => .keepSeparate .readAfterWrite
  | .serializeRequired .writeAfterRead => .keepSeparate .writeAfterRead

/-- The pipelines from `start` to before `stop`. -/
structure PipelineFusionSegment where
  start : Nat
  stop : Nat
  deriving DecidableEq

structure PipelineFusionBreak where
  earlier : Nat
  later : Nat
  reason : CrossPipelineConflict

structure CrossPipelineFusionPlan where
  segments : List PipelineFusionSegment
  breaks : List PipelineFusionBreak

/-- The rounds from `idx` on: `prev` is the pipeline before it, and `start` the
first one of the open segment. -/
def planFrom (start idx : Nat) (prev : ArmBindingSummary) :
    List ArmBindingSummary → CrossPipelineFusionPlan
  | [] => ⟨[⟨start, idx⟩], []⟩
  | next :: rest =>
      match decideCrossPipelineFusion prev next with
      | .fuse => planFrom start (idx + 1) next rest
      | .keepSeparate reason =>
          let plan := planFrom idx (idx + 1) next rest
          ⟨⟨start, idx⟩ :: plan.segments, ⟨idx - 1, idx, reason⟩ :: plan.breaks⟩

def planCrossPipelineFusion : List ArmBindingSummary → CrossPipelineFusionPlan
  | [] => ⟨[], []⟩
  | first :: rest => planFrom 0 1 first rest

/-- A slot that both write, or that one writes and the other reads. -/
def Conflict (a b : ArmBindingSummary) : Prop :=
  (∃ slot ∈ a.writes.slots, slot ∈ b.writes.slots) ∨
    (∃ slot ∈ a.writes.slots, slot ∈ b.reads.slots) ∨ ∃ slot ∈ a.reads.slots, slot ∈ b.writes.slots

theorem decide_cases (a b : ArmBindingSummary) :
    (decideCrossPipelineFusion a b = .fuse ∧ ¬ Conflict a b) ∨
      (∃ reason, decideCrossPipelineFusion a b = .keepSeparate reason) ∧ Conflict a b := by
  unfold decideCrossPipelineFusion canDispatchConcurrently Conflict
  simp only [← BindingSlotSet.intersects_iff]
  split_ifs <;> simp [*]

/-- Each segment starts where the one before it stops. -/
def Tiles (stop : Nat) : Nat → List PipelineFusionSegment → Prop
  | start, [] => start = stop
  | start, s :: rest => s.start = start ∧ s.start < s.stop ∧ Tiles stop s.stop rest

variable {summaries rest : List ArmBindingSummary} {prev : ArmBindingSummary}
  {segments : List PipelineFusionSegment} {start k i n : Nat}

theorem Tiles.exists_segment (h : Tiles n start segments) (hi : start ≤ i) (hn : i < n) :
    ∃ s ∈ segments, s.start ≤ i ∧ i < s.stop := by
  induction segments generalizing start with
  | nil => exact absurd (hi.trans_lt hn) (h ▸ lt_irrefl _)
  | cons s segments ih =>
    obtain ⟨hstart, -, h⟩ := h
    by_cases hstop : i < s.stop
    · exact ⟨s, mem_cons_self, by omega, hstop⟩
    · obtain ⟨s', hs', hin⟩ := ih h (by omega)
      exact ⟨s', mem_cons_of_mem _ hs', hin⟩

/-- The pipeline at `i` and the next one conflict. -/
def BreaksAfter (summaries : List ArmBindingSummary) (i : Nat) : Prop :=
  ∃ a b, summaries[i]? = some a ∧ summaries[i + 1]? = some b ∧ Conflict a b

/-- Neighbours inside a segment do not conflict, and it stops only at a conflict. -/
structure Closed (summaries : List ArmBindingSummary) (s : PipelineFusionSegment) : Prop where
  inside : ∀ i, s.start ≤ i → i + 1 < s.stop → ¬ BreaksAfter summaries i
  edge : s.stop < summaries.length → BreaksAfter summaries (s.stop - 1)

theorem planFrom_spec (hrest : summaries.drop k = prev :: rest) (hstart : start ≤ k)
    (hopen : ∀ i, start ≤ i → i < k → ¬ BreaksAfter summaries i) :
    Tiles summaries.length start (planFrom start (k + 1) prev rest).segments ∧
      ∀ s ∈ (planFrom start (k + 1) prev rest).segments, Closed summaries s := by
  -- `hopen` is the invariant of the open segment.
  induction rest generalizing start k prev with
  | nil =>
    have hlength := congrArg length hrest
    simp only [length_drop, length_cons, length_nil] at hlength
    refine ⟨⟨rfl, Nat.lt_succ_of_le hstart, show k + 1 = _ by omega⟩, fun s hs => ?_⟩
    obtain rfl := mem_singleton.mp hs
    exact ⟨fun i hi hk => hopen i hi (Nat.lt_of_succ_lt_succ hk),
      fun hlt => absurd hlt (by dsimp only; omega)⟩
  | cons next rest ih =>
    have hnext : summaries.drop (k + 1) = next :: rest := by
      rw [← drop_drop, hrest, drop_one, tail_cons]
    have hprev : summaries[k]? = some prev := by rw [← head?_drop, hrest, head?_cons]
    have hnext' : summaries[k + 1]? = some next := by rw [← head?_drop, hnext, head?_cons]
    obtain ⟨hd, hfree⟩ | ⟨⟨reason, hd⟩, hconflict⟩ := decide_cases prev next
    · simp only [planFrom, hd]
      refine ih hnext (by omega) fun i hi hk => ?_
      obtain hk | rfl := Nat.lt_succ_iff_lt_or_eq.mp hk
      · exact hopen i hi hk
      · rintro ⟨a, b, ha, hb, hab⟩
        rw [hprev, Option.some_inj] at ha
        rw [hnext', Option.some_inj] at hb
        exact hfree (ha ▸ hb ▸ hab)
    · simp only [planFrom, hd]
      obtain ⟨htiles, hclosed⟩ := ih hnext (Nat.le_refl _) fun i hi hk => absurd hi (by omega)
      refine ⟨⟨rfl, Nat.lt_succ_of_le hstart, htiles⟩, forall_mem_cons.mpr ⟨⟨?_, ?_⟩, hclosed⟩⟩
      · exact fun i hi hk => hopen i hi (Nat.lt_of_succ_lt_succ hk)
      · exact fun _ => ⟨prev, next, hprev, hnext', hconflict⟩

theorem planCrossPipelineFusion_spec (summaries : List ArmBindingSummary) :
    Tiles summaries.length 0 (planCrossPipelineFusion summaries).segments ∧
      ∀ s ∈ (planCrossPipelineFusion summaries).segments, Closed summaries s := by
  cases summaries with
  | nil => exact ⟨rfl, nofun⟩
  | cons first rest => exact planFrom_spec rfl (Nat.le_refl 0) nofun

def ConflictFree (summaries : List ArmBindingSummary) (s : PipelineFusionSegment) : Prop :=
  ∀ i j a b, s.start ≤ i → i < j → j < s.stop → summaries[i]? = some a → summaries[j]? = some b →
    ¬ Conflict a b

/-- The segments cut the sequence in order. They are free of conflicts exactly
when two pipelines that conflict always have two neighbours between them, or
are two neighbours, that conflict. -/
theorem plannedSegments_conflictFree_iff (summaries : List ArmBindingSummary) :
    Tiles summaries.length 0 (planCrossPipelineFusion summaries).segments ∧
    ((∀ s ∈ (planCrossPipelineFusion summaries).segments, ConflictFree summaries s) ↔
      ∀ i j a b, i < j → summaries[i]? = some a → summaries[j]? = some b → Conflict a b →
        ∃ k, i ≤ k ∧ k < j ∧ BreaksAfter summaries k) := by
  obtain ⟨htiles, hclosed⟩ := planCrossPipelineFusion_spec summaries
  refine ⟨htiles, fun hfree i j a b hij ha hb hab => ?_,
    fun hsep s hs i j a b hi hij hj ha hb hab => ?_⟩
  · have hj := (List.getElem?_eq_some_iff.mp hb).1
    obtain ⟨s, hs, hi, hstop⟩ := htiles.exists_segment (Nat.zero_le i) (hij.trans hj)
    by_cases hin : j < s.stop
    · exact absurd hab (hfree s hs i j a b hi hij hin ha hb)
    · exact ⟨s.stop - 1, by omega, by omega, (hclosed s hs).edge (by omega)⟩
  · obtain ⟨k, hik, hkj, hk⟩ := hsep i j a b hij ha hb hab
    exact (hclosed s hs).inside k (by omega) (by omega) hk

/-- A pipeline that writes one slot. -/
def writesOnly (slot : UInt32) : ArmBindingSummary := ⟨⟨[], .nil⟩, ⟨[slot], pairwise_singleton _ _⟩⟩

/-- The first and the third pipeline write slot 1 in one segment. -/
theorem fused_segment_conflicts :
    (planCrossPipelineFusion [writesOnly 1, writesOnly 2, writesOnly 1]).segments = [⟨0, 3⟩] ∧
      ¬ ConflictFree [writesOnly 1, writesOnly 2, writesOnly 1] ⟨0, 3⟩ := by
  refine ⟨by decide, fun hfree => ?_⟩
  exact hfree 0 2 _ _ (Nat.le_refl 0) (by decide) (by decide) rfl rfl
    (.inl ⟨1, mem_singleton_self 1, mem_singleton_self 1⟩)

end Vyre.Megakernel
