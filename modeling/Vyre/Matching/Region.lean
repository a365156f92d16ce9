import Mathlib.Data.List.Basic
import Mathlib.Data.List.Pairwise
import Mathlib.Logic.Relation
import Mathlib.Order.Lattice
import Mathlib.Tactic.Common

/-!
# Merging of match regions

`dedup_regions_inplace` of `matching/region.rs` sorts the regions by pattern id and position and
merges overlapping or touching neighbours in place, with a read and a write cursor. Ids and
offsets are only compared, so they are natural numbers here.
-/

namespace Vyre.Matching

/-- The bytes `[start, stop)` matched by pattern `pid` (`stop` is the source's `end`). -/
structure RegionTriple where
  pid : Nat
  start : Nat
  stop : Nat
deriving Inhabited

namespace RegionTriple

/-- By `pid`, then `start`, then `end`: a total order in which only equal regions are equivalent,
so that the unstable sort has one result. -/
def le (r s : RegionTriple) : Bool :=
  r.pid < s.pid || r.pid = s.pid && (r.start < s.start || r.start = s.start && r.stop ≤ s.stop)

def Inside (r o : RegionTriple) : Prop :=
  r.pid = o.pid ∧ o.start ≤ r.start ∧ r.stop ≤ o.stop

def Touches (r s : RegionTriple) : Prop :=
  r.pid = s.pid ∧ r.start ≤ s.stop ∧ s.start ≤ r.stop

def Covers (r : RegionTriple) (pid x : Nat) : Prop :=
  r.pid = pid ∧ r.start ≤ x ∧ x < r.stop

/-- A region as its bytes and the boundaries between and around them: `2 * x + 1` is byte `x`,
`2 * x` the boundary in front of it. Regions that touch have a boundary in common. -/
def Holds (r : RegionTriple) (pid y : Nat) : Prop :=
  r.pid = pid ∧ 2 * r.start ≤ y ∧ y ≤ 2 * r.stop

/-- In order, and of different patterns or with a gap between them. -/
def Before (r s : RegionTriple) : Prop :=
  r.pid < s.pid ∨ r.pid = s.pid ∧ r.stop < s.start

def grown (last next : RegionTriple) : RegionTriple :=
  { last with stop := max last.stop next.stop }

end RegionTriple

open RegionTriple

/-- One turn of the loop, on the vector and the write cursor. -/
def dedupStep (s : List RegionTriple × Nat) (read : Nat) : List RegionTriple × Nat :=
  let next := s.1.getD read default
  let last := s.1.getD (s.2 - 1) default
  if next.pid = last.pid ∧ next.start ≤ last.stop then
    if last.stop < next.stop then (s.1.set (s.2 - 1) { last with stop := next.stop }, s.2) else s
  else (s.1.set s.2 next, s.2 + 1)

def dedupRegionsInplace (input : List RegionTriple) : List RegionTriple :=
  if input.isEmpty then input
  else
    let (regions, write) :=
      (List.range' 1 (input.length - 1)).foldl dedupStep (input.mergeSort le, 1)
    regions.take write

/-- The merge of a sorted list whose first region is `last`. -/
def mergeFrom (last : RegionTriple) : List RegionTriple → List RegionTriple
  | [] => [last]
  | next :: rest =>
    if next.pid = last.pid ∧ next.start ≤ last.stop then mergeFrom (last.grown next) rest
    else last :: mergeFrom next rest

variable {l out : List RegionTriple} {last next : RegionTriple}

theorem dedupStep_append (gap rest : List RegionTriple) :
    dedupStep (out ++ last :: (gap ++ next :: rest), out.length + 1)
        (out.length + 1 + gap.length) =
      if next.pid = last.pid ∧ next.start ≤ last.stop then
        (out ++ last.grown next :: (gap ++ next :: rest), out.length + 1)
      else (out ++ last :: (gap ++ next :: rest).set 0 next, out.length + 2) := by
  have hnext : (out ++ last :: (gap ++ next :: rest)).getD (out.length + 1 + gap.length) default =
      next := by
    simp [Nat.add_assoc, Nat.add_comm 1]
  have hlast : (out ++ last :: (gap ++ next :: rest)).getD out.length default = last := by simp
  simp only [dedupStep, hnext, hlast, Nat.add_sub_cancel, grown]
  split
  · split
    · simp [Nat.max_eq_right (Nat.le_of_lt ‹_›)]
    · simp [Nat.max_eq_left (Nat.le_of_not_lt ‹_›)]
  · simp

/-- What the loop leaves in front of the write cursor: between the cursors lie `gap` dead slots. -/
theorem foldl_dedupStep (rest : List RegionTriple) :
    ∀ (out gap : List RegionTriple) (last : RegionTriple), ∃ tail,
      (List.range' (out.length + 1 + gap.length) rest.length).foldl dedupStep
        (out ++ last :: (gap ++ rest), out.length + 1) =
      (out ++ mergeFrom last rest ++ tail, (out ++ mergeFrom last rest).length) := by
  induction rest with
  | nil =>
    intro out gap last
    exact ⟨gap, by simp [mergeFrom]⟩
  | cons next rest ih =>
    intro out gap last
    rw [List.length_cons, List.range'_succ, List.foldl_cons, dedupStep_append, mergeFrom]
    split
    · have := ih out (gap ++ [next]) (last.grown next)
      simpa [Nat.add_assoc] using this
    · cases gap with
      | nil => simpa using ih (out ++ [last]) [] next
      | cons g gap =>
        have := ih (out ++ [last]) (gap ++ [next]) next
        simpa [Nat.add_comm, Nat.add_left_comm] using this

theorem dedupRegionsInplace_eq {input rest : List RegionTriple} {first : RegionTriple}
    (h : input.mergeSort le = first :: rest) :
    dedupRegionsInplace input = mergeFrom first rest := by
  have hlen : input.length = rest.length + 1 := by
    rw [← (List.mergeSort_perm input le).length_eq, h, List.length_cons]
  have hne : input.isEmpty = false := by
    cases input with
    | nil => cases hlen
    | cons => rfl
  obtain ⟨tail, hloop⟩ := foldl_dedupStep rest [] [] first
  simp only [List.length_nil, List.nil_append] at hloop
  simp only [dedupRegionsInplace, hne, h, hlen, Nat.add_sub_cancel, hloop]
  simp

structure Merged (l out : List RegionTriple) : Prop where
  separated : out.Pairwise Before
  ordered : ∀ o ∈ out, o.start ≤ o.stop
  same : ∀ pid y, (∃ o ∈ out, o.Holds pid y) ↔ ∃ r ∈ l, r.Holds pid y

theorem mergeFrom_merged (rest : List RegionTriple) : ∀ last : RegionTriple,
    (last :: rest).Pairwise (fun r s => r.pid < s.pid ∨ r.pid = s.pid ∧ r.start ≤ s.start) →
      (∀ r ∈ last :: rest, r.start ≤ r.stop) → Merged (last :: rest) (mergeFrom last rest) := by
  induction rest with
  | nil =>
    intro last _ hle
    exact ⟨by simp [mergeFrom], hle, fun _ _ => Iff.rfl⟩
  | cons next rest ih =>
    intro last hsorted hle
    obtain ⟨hfirst, htail⟩ := List.pairwise_cons.mp hsorted
    obtain ⟨hlast, hles⟩ := List.forall_mem_cons.mp hle
    have hnext := hfirst next (by simp)
    rw [mergeFrom]
    split
    · obtain ⟨hpid, htouch⟩ := ‹_ ∧ _›
      obtain ⟨hnextAll, hrest⟩ := List.pairwise_cons.mp htail
      obtain ⟨hsep, hordered, hsame⟩ := ih (last.grown next)
        (List.pairwise_cons.mpr ⟨fun r hr => hfirst r (by simp [hr]), hrest⟩)
        (List.forall_mem_cons.mpr
          ⟨hlast.trans (le_max_left _ _), fun r hr => hles r (by simp [hr])⟩)
      refine ⟨hsep, hordered, fun pid y => (hsame pid y).trans ?_⟩
      have hgrown : (last.grown next).Holds pid y ↔ last.Holds pid y ∨ next.Holds pid y := by
        simp only [Holds, grown]
        omega
      simp only [List.exists_mem_cons_iff, hgrown, or_assoc]
    · have hgap := ‹¬(_ ∧ _)›
      obtain ⟨hsep, hordered, hsame⟩ := ih next htail hles
      refine ⟨List.pairwise_cons.mpr ⟨fun o ho => ?_, hsep⟩,
        List.forall_mem_cons.mpr ⟨hlast, hordered⟩, fun pid y => ?_⟩
      · -- the boundary in front of an output belongs to a region that comes after `next`
        have hole := hordered o ho
        obtain ⟨r, hr, hholds⟩ := (hsame o.pid (2 * o.start)).mp
          ⟨o, ho, rfl, le_rfl, Nat.mul_le_mul_left 2 hole⟩
        have hafter : next.pid < r.pid ∨ next.pid = r.pid ∧ next.start ≤ r.start := by
          rcases List.mem_cons.mp hr with rfl | hr
          · exact .inr ⟨rfl, le_rfl⟩
          · exact (List.pairwise_cons.mp htail).1 r hr
        simp only [Before, Holds] at hholds ⊢
        omega
      · rw [List.exists_mem_cons_iff, List.exists_mem_cons_iff, hsame]

theorem mergeFrom_of_separated (rest : List RegionTriple) : ∀ last : RegionTriple,
    (last :: rest).Pairwise Before → mergeFrom last rest = last :: rest := by
  induction rest with
  | nil => intro last _; rfl
  | cons next rest ih =>
    intro last h
    obtain ⟨hfirst, htail⟩ := List.pairwise_cons.mp h
    have hnext := hfirst next (by simp)
    rw [mergeFrom, if_neg (by simp only [Before] at hnext; omega), ih next htail]

section Merged

variable {o : RegionTriple} (h : Merged l out)

include h

theorem Merged.eq_of_holds {o' : RegionTriple} {y : Nat} (ho : o ∈ out) (ho' : o' ∈ out)
    (hy : o.Holds o.pid y) (hy' : o'.Holds o.pid y) : o = o' := by
  by_contra hne
  have : Std.Symm fun r s : RegionTriple => r.Before s ∨ s.Before r := ⟨fun _ _ => Or.symm⟩
  have hsep := (h.separated.imp Or.inl).forall (R := fun r s => r.Before s ∨ s.Before r) ho ho' hne
  simp only [Holds, Before] at hy hy' hsep
  omega

theorem Merged.inside {r : RegionTriple} (hr : r ∈ l) (hle : r.start ≤ r.stop) :
    ∃ o ∈ out, r.Inside o := by
  obtain ⟨o, ho, hy⟩ := (h.same r.pid (2 * r.start)).mpr ⟨r, hr, rfl, le_rfl, by omega⟩
  refine ⟨o, ho, hy.1.symm, ?_⟩
  -- if it went on behind `o`, the byte there would be in another output
  by_contra hout
  simp only [Holds] at hy
  obtain ⟨o', ho', hy'⟩ := (h.same r.pid (2 * o.stop + 1)).mpr ⟨r, hr, rfl, by omega, by omega⟩
  simp only [Holds] at hy'
  have heq :=
    h.eq_of_holds (y := 2 * o.stop) ho ho' ⟨rfl, by omega, le_rfl⟩ ⟨by omega, by omega, by omega⟩
  rw [← heq] at hy'
  omega

variable (hle : ∀ r ∈ l, r.start ≤ r.stop)

include hle

theorem Merged.member {y : Nat} (ho : o ∈ out) (hy : o.Holds o.pid y) :
    ∃ r ∈ l, r.Inside o ∧ r.Holds o.pid y := by
  obtain ⟨r, hr, hry⟩ := (h.same o.pid y).mp ⟨o, ho, hy⟩
  obtain ⟨o', ho', hin⟩ := h.inside hr (hle r hr)
  have heq := h.eq_of_holds ho ho' hy (by simp only [Holds, Inside] at hry hin ⊢; omega)
  exact ⟨r, hr, heq ▸ hin, hry⟩

theorem Merged.closed (ho : o ∈ out) :
    ∀ r ∈ l, r.Inside o → ∀ s ∈ l, r.Touches s → s.Inside o := by
  intro r hr hrin s hs htouch
  obtain ⟨o', ho', hsin⟩ := h.inside hs (hle s hs)
  have hrle := hle r hr
  have hsle := hle s hs
  simp only [Inside, Touches] at hrin hsin htouch
  have heq := h.eq_of_holds (y := 2 * max r.start s.start) ho ho' ⟨rfl, by omega, by omega⟩
    ⟨by omega, by omega, by omega⟩
  rwa [heq]

end Merged

/-- Regions of `l` that hang together by overlaps and touches. -/
def Linked (l : List RegionTriple) : RegionTriple → RegionTriple → Prop :=
  Relation.EqvGen fun r s => r ∈ l ∧ s ∈ l ∧ r.Touches s

/-- The regions of `l` inside `o` hang together, no other touches one of them, and `o` reaches from
the first start to the last end. -/
structure MaximalCluster (l : List RegionTriple) (o : RegionTriple) : Prop where
  start : ∃ r ∈ l, r.Inside o ∧ r.start = o.start
  stop : ∃ r ∈ l, r.Inside o ∧ r.stop = o.stop
  linked : ∀ r ∈ l, r.Inside o → ∀ s ∈ l, s.Inside o → Linked l r s
  closed : ∀ r ∈ l, r.Inside o → ∀ s ∈ l, r.Touches s → s.Inside o

theorem Merged.maximalCluster {o : RegionTriple} (h : Merged l out)
    (hle : ∀ r ∈ l, r.start ≤ r.stop) (ho : o ∈ out) : MaximalCluster l o := by
  have hole := h.ordered o ho
  obtain ⟨first, hfirst, hin, hstart⟩ := h.member hle ho ⟨rfl, le_rfl, Nat.mul_le_mul_left 2 hole⟩
  obtain ⟨final, hfinal, hin', hstop⟩ := h.member hle ho ⟨rfl, Nat.mul_le_mul_left 2 hole, le_rfl⟩
  -- from a region back to one that holds the byte before it, until the first is reached
  have hback :
      ∀ (n : Nat) (r : RegionTriple), r ∈ l → r.Inside o → r.start = n → Linked l first r := by
    intro n
    induction n using Nat.strongRecOn with
    | ind n ih =>
      intro r hr hrin hn
      have hrle := hle r hr
      simp only [Inside, Holds] at hin hrin hstart
      by_cases hearly : r.start ≤ o.start
      · refine .rel _ _ ⟨hfirst, hr, ?_⟩
        simp only [Touches]
        omega
      · obtain ⟨s, hs, hsin, hy⟩ := h.member (y := 2 * r.start - 1) hle ho ⟨rfl, by omega, by omega⟩
        simp only [Holds] at hy
        refine .trans _ _ _ (ih s.start (by omega) s hs hsin rfl) (.rel _ _ ⟨hs, hr, ?_⟩)
        simp only [Touches]
        omega
  refine ⟨⟨first, hfirst, hin, ?_⟩, ⟨final, hfinal, hin', ?_⟩, ?_, h.closed hle ho⟩
  · simp only [Inside, Holds] at hin hstart
    omega
  · simp only [Inside, Holds] at hin' hstop
    omega
  · intro r hr hrin s hs hsin
    exact .trans _ _ _ (.symm _ _ (hback r.start r hr hrin rfl)) (hback s.start s hs hsin rfl)

theorem mergeSort_sorted (input : List RegionTriple) : (input.mergeSort le).Pairwise (le · ·) := by
  refine List.pairwise_mergeSort (fun r s t hrs hst => ?_) (fun r s => ?_) input
  · simp only [le, Bool.or_eq_true, Bool.and_eq_true, decide_eq_true_eq] at *
    omega
  · simp only [le, Bool.or_eq_true, Bool.and_eq_true, decide_eq_true_eq]
    omega

theorem dedupRegionsInplace_merged {input : List RegionTriple}
    (hle : ∀ r ∈ input, r.start ≤ r.stop) : Merged input (dedupRegionsInplace input) := by
  have hmem : ∀ r, r ∈ input.mergeSort le ↔ r ∈ input := fun r => List.mem_mergeSort
  have hsorted := mergeSort_sorted input
  cases hsort : input.mergeSort le with
  | nil =>
    have hnil : input = [] := List.eq_nil_iff_forall_not_mem.mpr fun r hr => by
      simpa [hsort] using (hmem r).mpr hr
    rw [hnil]
    exact ⟨by simp [dedupRegionsInplace], nofun, fun _ _ => Iff.rfl⟩
  | cons first rest =>
    rw [hsort] at hsorted hmem
    obtain ⟨hsep, hordered, hsame⟩ := mergeFrom_merged rest first (hsorted.imp fun hrs => by
      simp only [le, Bool.or_eq_true, Bool.and_eq_true, decide_eq_true_eq] at hrs
      omega) fun r hr => hle r ((hmem r).mp hr)
    rw [dedupRegionsInplace_eq hsort]
    exact ⟨hsep, hordered, fun pid y => (hsame pid y).trans (by simp only [hmem])⟩

theorem dedupRegionsInplace_of_separated (hsep : out.Pairwise Before)
    (hle : ∀ o ∈ out, o.start ≤ o.stop) : dedupRegionsInplace out = out := by
  cases out with
  | nil => rfl
  | cons first rest =>
    have hsorted : (first :: rest).mergeSort le = first :: rest := by
      refine List.mergeSort_of_pairwise (hsep.imp_of_mem fun hr _ hrs => ?_)
      have := hle _ hr
      simp only [le, Before, Bool.or_eq_true, Bool.and_eq_true, decide_eq_true_eq] at hrs ⊢
      omega
    rw [dedupRegionsInplace_eq hsorted, mergeFrom_of_separated rest first hsep]

/-- The result is sorted with gaps between regions of one pattern, has the union of the input for
each pattern and every region of the input inside one of its own (those without bytes too),
consists of the maximal clusters of the input and is left alone by a second call. -/
theorem dedupRegionsInplace_exact (input : List RegionTriple)
    (hle : ∀ r ∈ input, r.start ≤ r.stop) :
    (dedupRegionsInplace input).Pairwise Before ∧
      (∀ pid x, (∃ o ∈ dedupRegionsInplace input, o.Covers pid x) ↔
        ∃ r ∈ input, r.Covers pid x) ∧
      (∀ r ∈ input, ∃ o ∈ dedupRegionsInplace input, r.Inside o) ∧
      (∀ o ∈ dedupRegionsInplace input, MaximalCluster input o) ∧
      dedupRegionsInplace (dedupRegionsInplace input) = dedupRegionsInplace input := by
  have h := dedupRegionsInplace_merged hle
  refine ⟨h.separated, fun pid x => ?_, fun r hr => h.inside hr (hle r hr),
    fun o ho => h.maximalCluster hle ho,
    dedupRegionsInplace_of_separated h.separated h.ordered⟩
  have hbyte : ∀ r : RegionTriple, r.Covers pid x ↔ r.Holds pid (2 * x + 1) := by
    intro r
    simp only [Covers, Holds]
    omega
  simp only [hbyte]
  exact h.same pid (2 * x + 1)

theorem dedupRegionsInplace_exact_touching :
    (∀ r ∈ [⟨0, 7, 9⟩, ⟨0, 2, 7⟩, (⟨1, 3, 3⟩ : RegionTriple)], r.start ≤ r.stop) ∧
      (∃ o ∈ dedupRegionsInplace [⟨0, 7, 9⟩, ⟨0, 2, 7⟩, ⟨1, 3, 3⟩], Inside ⟨1, 3, 3⟩ o) ∧
      dedupRegionsInplace (dedupRegionsInplace [⟨0, 7, 9⟩, ⟨0, 2, 7⟩, ⟨1, 3, 3⟩]) =
        dedupRegionsInplace [⟨0, 7, 9⟩, ⟨0, 2, 7⟩, ⟨1, 3, 3⟩] := by
  have hle : ∀ r ∈ [⟨0, 7, 9⟩, ⟨0, 2, 7⟩, (⟨1, 3, 3⟩ : RegionTriple)], r.start ≤ r.stop := by decide
  obtain ⟨-, -, hinside, -, htwice⟩ := dedupRegionsInplace_exact _ hle
  exact ⟨hle, hinside _ (by simp), htwice⟩

end Vyre.Matching
