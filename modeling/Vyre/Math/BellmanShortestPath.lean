import Mathlib.Data.Finset.Max
import Mathlib.Data.Fintype.Card
import Mathlib.Data.Fintype.Pi
import Mathlib.Order.Bounds.Defs
import Mathlib.Tactic.Common

/-!
# Shortest paths by synchronous relaxation

`cpu_ref_into` of `math/bellman_shortest_path.rs`. A distance is the value of its word; a node
without one starts at the greatest word, and an edge with an endpoint out of range is skipped.
-/

namespace Vyre.Bellman

open Function

def u32Max : Nat := 2 ^ 32 - 1

/-- `u32::saturating_add`. -/
def saturatingAdd (x y : Nat) : Nat := min (x + y) u32Max

abbrev Edge := UInt32 × UInt32 × UInt32

variable {n : Nat}

def relaxEdge (current next : Fin n → Nat) (e : Edge) : Fin n → Nat :=
  if h : e.1.toNat < n ∧ e.2.1.toNat < n then
    let du := current ⟨e.1.toNat, h.1⟩
    if du ≠ u32Max then
      let v : Fin n := ⟨e.2.1.toNat, h.2⟩
      update next v (min (next v) (saturatingAdd du e.2.2.toNat))
    else next
  else next

/-- A round starts with both vectors equal. -/
def relaxAll (edges : List Edge) (current : Fin n → Nat) : Fin n → Nat :=
  edges.foldl (relaxEdge current) current

/-- The rounds from `iter` on, when `left` are allowed: the distances and the rounds made. -/
def relaxRounds (edges : List Edge) : Nat → Nat → (Fin n → Nat) → (Fin n → Nat) × Nat
  | 0, iter, current => (current, iter)
  | left + 1, iter, current =>
    if relaxAll edges current = current then (current, iter)
    else relaxRounds edges left (iter + 1) (relaxAll edges current)

def initial (dist : List UInt32) (n : Nat) (v : Fin n) : Nat := (dist[v]?.map (·.toNat)).getD u32Max

/-- Only as many edges as the shortest of the three lists has. -/
def cpuRefInto (src dst weight dist : List UInt32) (nNodes maxIterations : UInt32) :
    (Fin nNodes.toNat → Nat) × Nat :=
  relaxRounds (src.zip (dst.zip weight)) maxIterations.toNat 0 (initial dist nNodes.toNat)

/-- A walk that ends at the node has this saturating sum. -/
inductive WalkSum (edges : List Edge) (start : Fin n → Nat) : Fin n → Nat → Prop
  | nil (v : Fin n) : WalkSum edges start v (start v)
  | extend {u v : Fin n} {s : Nat} {e : Edge} : WalkSum edges start u s → e ∈ edges →
      e.1.toNat = u → e.2.1.toNat = v → WalkSum edges start v (saturatingAdd s e.2.2.toNat)

variable {edges : List Edge} {current next start : Fin n → Nat} {u v : Fin n}

theorem relaxEdge_cases (current next : Fin n → Nat) (e : Edge) (v : Fin n) :
    relaxEdge current next e v = next v ∨ ∃ u : Fin n, e.1.toNat = u ∧ e.2.1.toNat = v ∧
      relaxEdge current next e v = min (next v) (saturatingAdd (current u) e.2.2.toNat) := by
  unfold relaxEdge
  split
  · rename_i hrange
    dsimp only
    split
    · by_cases hv : v = ⟨e.2.1.toNat, hrange.2⟩
      · subst hv
        exact .inr ⟨_, rfl, rfl, update_self _ _ _⟩
      · exact .inl (update_of_ne hv _ _)
    · exact .inl rfl
  · exact .inl rfl

theorem relaxEdge_le (current next : Fin n → Nat) (e : Edge) : relaxEdge current next e ≤ next := by
  intro v
  rcases relaxEdge_cases current next e v with heq | ⟨u, -, -, heq⟩
  · exact heq.le
  · exact heq.trans_le (min_le_left _ _)

theorem foldl_relaxEdge_le (es : List Edge) (next : Fin n → Nat) :
    es.foldl (relaxEdge current) next ≤ next := by
  induction es generalizing next with
  | nil => exact le_rfl
  | cons e es ih => exact (ih _).trans (relaxEdge_le current next e)

theorem foldl_relaxEdge_le_edge (current : Fin n → Nat) {e : Edge} {es : List Edge} (he : e ∈ es)
    (hu : e.1.toNat = u) (hv : e.2.1.toNat = v) (hmax : next v ≤ u32Max) :
    es.foldl (relaxEdge current) next v ≤ saturatingAdd (current u) e.2.2.toNat := by
  induction es generalizing next with
  | nil => cases he
  | cons e' es ih =>
    rcases List.mem_cons.mp he with rfl | he
    · refine (foldl_relaxEdge_le es _ v).trans ?_
      have hrange : e.1.toNat < n ∧ e.2.1.toNat < n := by omega
      have hu' : (⟨e.1.toNat, hrange.1⟩ : Fin n) = u := Fin.ext hu
      have hv' : (⟨e.2.1.toNat, hrange.2⟩ : Fin n) = v := Fin.ext hv
      simp only [relaxEdge, hrange, and_self, dite_true, hu', hv']
      split
      · rw [update_self]
        exact min_le_right _ _
      · -- an edge from a node that was not reached yields nothing
        simp only [saturatingAdd]
        omega
    · exact ih he ((relaxEdge_le current next e' v).trans hmax)

theorem foldl_relaxEdge_walk {es : List Edge} (hsub : es ⊆ edges)
    (hcurrent : ∀ v, WalkSum edges start v (current v))
    (hnext : ∀ v, WalkSum edges start v (next v)) :
    ∀ v, WalkSum edges start v (es.foldl (relaxEdge current) next v) := by
  induction es generalizing next with
  | nil => exact hnext
  | cons e es ih =>
    obtain ⟨he, hes⟩ := List.cons_subset.mp hsub
    refine ih hes fun v => ?_
    rcases relaxEdge_cases current next e v with heq | ⟨u, hu, hv, heq⟩
    · exact heq ▸ hnext v
    · rcases min_choice (next v) (saturatingAdd (current u) e.2.2.toNat) with hmin | hmin
      · exact (heq.trans hmin) ▸ hnext v
      · exact (heq.trans hmin) ▸ .extend (hcurrent u) he hu hv

theorem relaxAll_le (edges : List Edge) (current : Fin n → Nat) :
    relaxAll edges current ≤ current :=
  foldl_relaxEdge_le edges current

/-! ## The rounds reach the least sums -/

/-- The distances are sums of walks and bounded. -/
structure Sound (edges : List Edge) (start current : Fin n → Nat) : Prop where
  walk : ∀ v, WalkSum edges start v (current v)
  le_start : current ≤ start
  le_max : ∀ v, current v ≤ u32Max

theorem Sound.round (h : Sound edges start current) : Sound edges start (relaxAll edges current) :=
  ⟨foldl_relaxEdge_walk (List.Subset.refl _) h.walk h.walk, (relaxAll_le _ _).trans h.le_start,
    fun v => (relaxAll_le edges current v).trans (h.le_max v)⟩

/-- No walk to the node has a smaller sum. -/
def Settled (edges : List Edge) (start current : Fin n → Nat) (v : Fin n) : Prop :=
  ∀ s, WalkSum edges start v s → current v ≤ s

theorem Settled.round (h : Settled edges start current v) :
    Settled edges start (relaxAll edges current) v :=
  fun s hs => (relaxAll_le edges current v).trans (h s hs)

/-- A round that settles no node finds all of them settled. -/
theorem settled_of_no_progress (h : Sound edges start current)
    (hstop : ∀ v, Settled edges start (relaxAll edges current) v → Settled edges start current v) :
    ∀ v, Settled edges start current v := by
  -- along a walk whose sum is least at its end, so that it is least all along it or saturates
  have hwalk : ∀ {v s}, WalkSum edges start v s → (∀ s', WalkSum edges start v s' → s ≤ s') →
      current v ≤ s := by
    intro v s hs
    induction hs with
    | nil v => exact fun _ => h.le_start v
    | @extend u v s e hs he hu hv ih =>
      intro hleast
      by_cases hsat : u32Max ≤ s + e.2.2.toNat
      · rw [saturatingAdd, min_eq_right hsat]
        exact h.le_max v
      · have hbefore : ∀ s', WalkSum edges start u s' → s ≤ s' := by
          intro s' hs'
          have := hleast _ (.extend hs' he hu hv)
          simp only [saturatingAdd] at this
          omega
        have hedge := foldl_relaxEdge_le_edge current he hu hv (h.le_max v)
        have hcurrent := ih hbefore
        have hround : relaxAll edges current v ≤ saturatingAdd s e.2.2.toNat := by
          refine le_trans hedge ?_
          simp only [saturatingAdd]
          omega
        exact hstop v (fun s' hs' => hround.trans (hleast s' hs')) _ (.extend hs he hu hv)
  intro v s hs
  classical
  have hex : ∃ s, WalkSum edges start v s := ⟨s, hs⟩
  exact (hwalk (Nat.find_spec hex) fun s' hs' => Nat.find_min' hex hs').trans (Nat.find_min' hex hs)

theorem exists_start_le {s : Nat} (hmax : ∀ v, start v ≤ u32Max) (h : WalkSum edges start v s) :
    ∃ u, start u ≤ s := by
  induction h with
  | nil v => exact ⟨v, le_rfl⟩
  | extend _ _ _ _ ih =>
    obtain ⟨u, hu⟩ := ih
    have := hmax u
    exact ⟨u, by simp only [saturatingAdd]; omega⟩

theorem Sound.fixed_of_settled (h : Sound edges start current)
    (hall : ∀ v, Settled edges start current v) : relaxAll edges current = current :=
  le_antisymm (relaxAll_le edges current) fun v => hall v _ (h.round.walk v)

open Classical in
/-- The nodes whose distance a later round lowers. -/
noncomputable def unsettled (edges : List Edge) (start current : Fin n → Nat) : Finset (Fin n) :=
  Finset.univ.filter fun v => ¬Settled edges start current v

theorem card_unsettled_start (edges : List Edge) (hn : 0 < n) (hmax : ∀ v, start v ≤ u32Max) :
    (unsettled edges start start).card < n := by
  obtain ⟨v, -, hv⟩ := Finset.exists_min_image Finset.univ start ⟨⟨0, hn⟩, Finset.mem_univ _⟩
  have hsettled : Settled edges start start v := by
    intro s hs
    obtain ⟨u, hu⟩ := exists_start_le hmax hs
    exact (hv u (Finset.mem_univ u)).trans hu
  have hlt := Finset.card_lt_univ_of_notMem (s := unsettled edges start start) (x := v)
    (by simpa [unsettled] using hsettled)
  rwa [Fintype.card_fin] at hlt

/-- A round that changes a distance settles a node. -/
theorem Sound.card_unsettled_lt (h : Sound edges start current)
    (hne : relaxAll edges current ≠ current) :
    (unsettled edges start (relaxAll edges current)).card <
      (unsettled edges start current).card := by
  obtain ⟨v, hnew, hold⟩ : ∃ v, Settled edges start (relaxAll edges current) v ∧
      ¬Settled edges start current v := by
    by_contra hno
    refine hne (h.fixed_of_settled (settled_of_no_progress h fun v hv => ?_))
    by_contra hold
    exact hno ⟨v, hv, hold⟩
  refine Finset.card_lt_card (Finset.ssubset_iff_subset_ne.mpr ⟨?_, fun heq => ?_⟩)
  · intro u hu
    simp only [unsettled, Finset.mem_filter, Finset.mem_univ, true_and] at hu ⊢
    exact fun hsettled => hu hsettled.round
  · have hmem : v ∈ unsettled edges start current := by simpa [unsettled] using hold
    rw [← heq] at hmem
    simp [unsettled, hnew] at hmem

theorem relaxRounds_spec (left iter : Nat) (h : Sound edges start current)
    (hleft : (unsettled edges start current).card < left) :
    (relaxRounds edges left iter current).2 < iter + left ∧ ∀ v,
      IsLeast {s | WalkSum edges start v s} ((relaxRounds edges left iter current).1 v) := by
  induction left generalizing iter current with
  | zero => omega
  | succ left ih =>
    rw [relaxRounds]
    split
    · rename_i hfixed
      refine ⟨by simp, fun v => ⟨h.walk v, ?_⟩⟩
      exact settled_of_no_progress h (fun v hv => hfixed ▸ hv) v
    · rename_i hne
      have hlt := h.card_unsettled_lt hne
      obtain ⟨hiter, hleast⟩ := ih (iter + 1) h.round (by omega)
      exact ⟨by omega, hleast⟩

theorem initial_le (dist : List UInt32) (n : Nat) (v : Fin n) : initial dist n v ≤ u32Max := by
  unfold initial
  cases dist[v.val]? with
  | none => exact le_rfl
  | some d => exact Nat.le_sub_one_of_lt d.toNat_lt

/-- With a cap of at least the number of nodes the reference stops before the cap, and every
distance is the least saturating sum of a walk to the node. -/
theorem cpuRefInto_exact (src dst weight dist : List UInt32) (nNodes maxIterations : UInt32)
    (hn : 0 < nNodes.toNat) (hcap : nNodes.toNat ≤ maxIterations.toNat) :
    (cpuRefInto src dst weight dist nNodes maxIterations).2 < maxIterations.toNat ∧
      ∀ v, IsLeast {s | WalkSum (src.zip (dst.zip weight)) (initial dist nNodes.toNat) v s}
        ((cpuRefInto src dst weight dist nNodes maxIterations).1 v) := by
  have hmax := initial_le dist nNodes.toNat
  have hcard := card_unsettled_start (src.zip (dst.zip weight)) hn hmax
  simpa [cpuRefInto] using
    relaxRounds_spec maxIterations.toNat 0 ⟨.nil, le_rfl, hmax⟩ (hcard.trans_le hcap)

theorem cpuRefInto_exact_triangle :
    0 < (3 : UInt32).toNat ∧
      (cpuRefInto [0, 1, 0] [1, 2, 2] [1, 1, 5] [0] 3 3).2 < (3 : UInt32).toNat :=
  ⟨by decide, (cpuRefInto_exact _ _ _ _ _ _ (by decide) (by decide)).1⟩

end Vyre.Bellman
