import Vyre.Megakernel.Barriers
import Vyre.Reference.Uniformity

/-!
# Control paths and their barriers

The control paths of a program: the statements one invocation may execute one
after another, whatever its data, with the buffers they access and the barriers
they wait at. A barrier event says whether elision removes the barrier, and
where the invocation goes on after it.

The module shows that the paths of the elided program are the paths of the
program without the removed barriers, and that the reference interpreter
follows a control path in each invocation.
-/

namespace Vyre.Megakernel

open List

structure Access where
  buffer : Ident
  isWrite : Bool
  deriving DecidableEq

def Access.Conflicts (a b : Access) : Prop :=
  a.buffer = b.buffer ∧ (a.isWrite = true ∨ b.isWrite = true)

instance (a b : Access) : Decidable (a.Conflicts b) := inferInstanceAs (Decidable (_ ∧ _))

theorem Access.Conflicts.symm {a b : Access} (h : a.Conflicts b) : b.Conflicts a :=
  ⟨h.1.symm, h.2.symm⟩

/-- What the text does not tell: the accesses of extensions, and the buffers
that a transfer may write when its tag is waited for. -/
structure Effects where
  expr : ExprExtension → List Access
  node : NodeExtension → List Access
  waits : Ident → Ident → Prop

def exprAccesses (eff : Effects) (e : Expr) : List Access :=
  e.collect fun
    | .load buffer _ => [⟨buffer, false⟩]
    | .atomic _ buffer _ _ _ _ => [⟨buffer, false⟩, ⟨buffer, true⟩]
    | .ext extension => eff.expr extension
    | _ => []

/-- The accesses of a statement after which the next one is executed. The
destination of a transfer is written when it is waited for. -/
inductive Touches (eff : Effects) : Node → List Access → Prop where
  | letBind (name : Ident) (value : Expr) :
      Touches eff (.letBind name value) (exprAccesses eff value)
  | assign (name : Ident) (value : Expr) : Touches eff (.assign name value) (exprAccesses eff value)
  | store (buffer : Ident) (index value : Expr) :
      Touches eff (.store buffer index value)
        (exprAccesses eff index ++ exprAccesses eff value ++ [⟨buffer, true⟩])
  | indirectDispatch (countBuffer : Ident) (countOffset : UInt64) :
      Touches eff (.indirectDispatch countBuffer countOffset) [⟨countBuffer, false⟩]
  | asyncLoad (source destination : Ident) (offset size : Expr) (tag : Ident) :
      Touches eff (.asyncLoad source destination offset size tag)
        (exprAccesses eff offset ++ exprAccesses eff size ++ [⟨source, false⟩])
  | asyncStore (source destination : Ident) (offset size : Expr) (tag : Ident) :
      Touches eff (.asyncStore source destination offset size tag)
        (exprAccesses eff offset ++ exprAccesses eff size ++ [⟨source, false⟩])
  | asyncWait {tag destination : Ident} (h : eff.waits tag destination) :
      Touches eff (.asyncWait tag) [⟨destination, true⟩]
  | resume (tag : Ident) : Touches eff (.resume tag) []
  | allReduce (buffer : Ident) (op : CollectiveOp) (group : UInt32) :
      Touches eff (.allReduce buffer op group) [⟨buffer, false⟩, ⟨buffer, true⟩]
  | allGather (input output : Ident) (group : UInt32) :
      Touches eff (.allGather input output group) [⟨input, false⟩, ⟨output, true⟩]
  | reduceScatter (input output : Ident) (op : CollectiveOp) (group : UInt32) :
      Touches eff (.reduceScatter input output op group) [⟨input, false⟩, ⟨output, true⟩]
  | broadcast (buffer : Ident) (root group : UInt32) :
      Touches eff (.broadcast buffer root group) [⟨buffer, false⟩, ⟨buffer, true⟩]
  | ext (extension : NodeExtension) : Touches eff (.ext extension) (eff.node extension)

/-- What is left to execute of a list of siblings, after the one before, or a
loop that may run again. -/
inductive PathFrame where
  | nodes (previous : Option Node) (rest : List Node)
  | loop (body : List Node)

/-- Where an invocation is, the innermost frame first. -/
abbrev Point := List PathFrame

inductive Event where
  | access (a : Access)
  /-- A barrier, with the point after it. -/
  | barrier (removed : Bool) (point : Point)

inductive Moves (eff : Effects) : Point → List Event → Point → Prop where
  | leave (previous : Option Node) (k : Point) : Moves eff (.nodes previous [] :: k) [] k
  | simple {n : Node} {as : List Access} (previous : Option Node) (rest : List Node) (k : Point)
      (h : Touches eff n as) :
      Moves eff (.nodes previous (n :: rest) :: k) (as.map .access) (.nodes (some n) rest :: k)
  | barrier (previous : Option Node) (ordering : MemoryOrdering) (rest : List Node) (k : Point) :
      Moves eff (.nodes previous (.barrier ordering :: rest) :: k)
        [.barrier (removable previous rest.head?) (.nodes (some (.barrier ordering)) rest :: k)]
        (.nodes (some (.barrier ordering)) rest :: k)
  | thenBranch (previous : Option Node) (cond : Expr) (thenNodes otherwise rest : List Node)
      (k : Point) :
      Moves eff (.nodes previous (.ifThen cond thenNodes otherwise :: rest) :: k)
        ((exprAccesses eff cond).map .access)
        (.nodes none thenNodes :: .nodes (some (.ifThen cond thenNodes otherwise)) rest :: k)
  | elseBranch (previous : Option Node) (cond : Expr) (thenNodes otherwise rest : List Node)
      (k : Point) :
      Moves eff (.nodes previous (.ifThen cond thenNodes otherwise :: rest) :: k)
        ((exprAccesses eff cond).map .access)
        (.nodes none otherwise :: .nodes (some (.ifThen cond thenNodes otherwise)) rest :: k)
  | enterLoop (previous : Option Node) (var : Ident) (lo hi : Expr) (body rest : List Node)
      (k : Point) :
      Moves eff (.nodes previous (.loop var lo hi body :: rest) :: k)
        ((exprAccesses eff lo ++ exprAccesses eff hi).map .access)
        (.loop body :: .nodes (some (.loop var lo hi body)) rest :: k)
  | iterate (body : List Node) (k : Point) :
      Moves eff (.loop body :: k) [] (.nodes none body :: .loop body :: k)
  | leaveLoop (body : List Node) (k : Point) : Moves eff (.loop body :: k) [] k
  | block (previous : Option Node) (body rest : List Node) (k : Point) :
      Moves eff (.nodes previous (.block body :: rest) :: k) []
        (.nodes none body :: .nodes (some (.block body)) rest :: k)
  | region (previous : Option Node) (generator : Ident) (sourceRegion : Option String)
      (body rest : List Node) (k : Point) :
      Moves eff (.nodes previous (.region generator sourceRegion body :: rest) :: k) []
        (.nodes none body :: .nodes (some (.region generator sourceRegion body)) rest :: k)
  | ret (previous : Option Node) (rest : List Node) (k : Point) :
      Moves eff (.nodes previous (.ret :: rest) :: k) [] []
  | trap (previous : Option Node) (address : Expr) (tag : Ident) (rest : List Node) (k : Point) :
      Moves eff (.nodes previous (.trap address tag :: rest) :: k)
        ((exprAccesses eff address).map .access) []

inductive Path (eff : Effects) : Point → List Event → Point → Prop where
  | refl (p : Point) : Path eff p [] p
  | step {p q r : Point} {evs evs' : List Event} (h : Moves eff p evs q)
      (rest : Path eff q evs' r) :
      Path eff p (evs ++ evs') r

def startPoint (entry : List Node) : Point := [.nodes none entry]

section Path

variable {eff : Effects}

variable {p q : Point} {evs : List Event}

theorem Moves.path (h : Moves eff p evs q) : Path eff p evs q := by
  have hpath := Path.step h (.refl q)
  rwa [append_nil] at hpath

theorem Path.trans {r : Point} {evs' : List Event} (h : Path eff p evs q) (h' : Path eff q evs' r) :
    Path eff p (evs ++ evs') r := by
  induction h with
  | refl p => exact h'
  | step hmove _ ih =>
    rw [append_assoc]
    exact .step hmove (ih h')

theorem Moves.events (h : Moves eff p evs q) :
    (∃ as : List Access, evs = as.map .access) ∨ ∃ removed, evs = [.barrier removed q] := by
  cases h with
  | barrier => exact .inr ⟨_, rfl⟩
  | leave | iterate | leaveLoop | block | region | ret => exact .inl ⟨[], rfl⟩
  | _ => exact .inl ⟨_, rfl⟩

theorem Path.after_barrier {r : Point} (h : Path eff p evs r) {removed : Bool} {point : Point}
    {before after : List Event} (heq : evs = before ++ .barrier removed point :: after) :
    Path eff p (before ++ [.barrier removed point]) point ∧ Path eff point after r := by
  induction h generalizing before with
  | refl p => simp at heq
  | @step p q r evs evs' hmove hrest ih =>
    obtain ⟨as, rfl⟩ | ⟨first, rfl⟩ := hmove.events
    · obtain ⟨before', rfl, hrest'⟩ | ⟨tail, hbefore, hbarrier⟩ := append_eq_append_iff.mp heq
      · obtain ⟨hpath, hafter⟩ := ih hrest'
        rw [append_assoc]
        exact ⟨.step hmove hpath, hafter⟩
      · cases tail with
        | nil =>
          rw [append_nil] at hbefore
          obtain ⟨hpath, hafter⟩ := ih (show evs' = [] ++ _ from hbarrier.symm)
          rw [← hbefore]
          exact ⟨.step hmove hpath, hafter⟩
        | cons e tail =>
          -- The accesses of a statement hold no barrier.
          rw [cons_append, cons.injEq] at hbarrier
          have hmem : Event.barrier removed point ∈ as.map Event.access := by
            rw [hbefore, hbarrier.1]
            simp
          simp at hmem
    · cases before with
      | nil =>
        obtain ⟨⟨rfl, rfl⟩, rfl⟩ := heq
        exact ⟨hmove.path, hrest⟩
      | cons e before =>
        simp only [cons_append, cons.injEq] at heq
        obtain ⟨rfl, hevs⟩ := heq
        obtain ⟨hpath, hafter⟩ := ih hevs
        exact ⟨hmove.path.trans hpath, hafter⟩

end Path

/-! ## Paths of the elided program -/

namespace Event

def stays : Event → Bool
  | .barrier removed _ => !removed
  | .access _ => true

def seen : Event → Option Access
  | .access a => some a
  | .barrier _ _ => none

end Event

def seenAfter (evs : List Event) : List (Option Access) := (evs.filter Event.stays).map Event.seen

@[simp] theorem seenAfter_append (evs evs' : List Event) :
    seenAfter (evs ++ evs') = seenAfter evs ++ seenAfter evs' := by
  simp [seenAfter]

@[simp] theorem seenAfter_access (as : List Access) :
    seenAfter (as.map .access) = (as.map Event.access).map Event.seen := by
  have hall : (as.map Event.access).filter Event.stays = as.map .access := by
    rw [filter_eq_self]
    intro e he
    obtain ⟨a, -, rfl⟩ := mem_map.mp he
    rfl
  rw [seenAfter, hall]

/-- The point of the elided program that stands for a point of the program. -/
inductive Shrinks : Point → Point → Prop where
  | nil : Shrinks [] []
  | nodes {k k' : Point} (previous previous' : Option Node) (rest : List Node) (h : Shrinks k k') :
      Shrinks (.nodes previous rest :: k) (.nodes previous' (elideFrom previous rest) :: k')
  | loop {k k' : Point} (body : List Node) (h : Shrinks k k') :
      Shrinks (.loop body :: k) (.loop (elideFrom none body) :: k')

theorem elideFrom_kept {n : Node} (previous : Option Node) (rest : List Node)
    (h : (isBarrier n && removable previous rest.head?) = false) :
    elideFrom previous (n :: rest) = (rewriteNode n).1 :: elideFrom (some n) rest := by
  rw [elideFrom, if_neg (by simp [h])]

theorem Touches.rewriteNode_eq {eff : Effects} {n : Node} {as : List Access}
    (h : Touches eff n as) :
    (rewriteNode n).1 = n ∧ isBarrier n = false := by
  cases h <;> exact ⟨rfl, rfl⟩

section Elided

variable {eff : Effects} {p p' : Point}

theorem Moves.elided {q : Point} {evs : List Event} (h : Moves eff p evs q) (hp : Shrinks p p') :
    ∃ evs' q', Path eff p' evs' q' ∧ Shrinks q q' ∧ evs'.map Event.seen = seenAfter evs := by
  cases hp with
  | nil => cases h
  | loop body hk =>
    cases h with
    | iterate => exact ⟨_, _, (Moves.iterate _ _).path, .nodes _ _ _ (.loop _ hk), rfl⟩
    | leaveLoop => exact ⟨_, _, (Moves.leaveLoop _ _).path, hk, rfl⟩
  | nodes previous previous' _ hk =>
    cases h with
    | leave => exact ⟨[], _, (Moves.leave previous' _).path, hk, rfl⟩
    | simple _ rest _ htouch =>
      obtain ⟨hsame, hnot⟩ := htouch.rewriteNode_eq
      rw [elideFrom_kept previous rest (by simp [hnot]), hsame]
      exact ⟨_, _, (Moves.simple previous' _ _ htouch).path, .nodes _ _ _ hk,
        (seenAfter_access _).symm⟩
    | barrier _ ordering rest =>
      by_cases hremove : removable previous rest.head? = true
      · have hskip : elideFrom previous (.barrier ordering :: rest) =
            elideFrom (some (.barrier ordering)) rest := by
          rw [elideFrom, if_pos (by simp [hremove, isBarrier])]
        rw [hskip]
        refine ⟨[], _, .refl _, .nodes _ _ _ hk, ?_⟩
        simp [seenAfter, Event.stays, hremove]
      · rw [elideFrom_kept previous rest (by simp [hremove])]
        refine ⟨_, _, (Moves.barrier previous' ordering _ _).path, .nodes _ _ _ hk, ?_⟩
        simp [seenAfter, Event.stays, hremove, Event.seen]
    | thenBranch =>
      rw [elideFrom_kept _ _ rfl, rewriteNode_fst]
      exact ⟨_, _, (Moves.thenBranch previous' _ _ _ _ _).path, .nodes _ _ _ (.nodes _ _ _ hk),
        (seenAfter_access _).symm⟩
    | elseBranch =>
      rw [elideFrom_kept _ _ rfl, rewriteNode_fst]
      exact ⟨_, _, (Moves.elseBranch previous' _ _ _ _ _).path, .nodes _ _ _ (.nodes _ _ _ hk),
        (seenAfter_access _).symm⟩
    | enterLoop =>
      rw [elideFrom_kept _ _ rfl, rewriteNode_fst]
      exact ⟨_, _, (Moves.enterLoop previous' _ _ _ _ _ _).path, .loop _ (.nodes _ _ _ hk),
        (seenAfter_access _).symm⟩
    | block =>
      rw [elideFrom_kept _ _ rfl, rewriteNode_fst]
      exact ⟨_, _, (Moves.block previous' _ _ _).path, .nodes _ _ _ (.nodes _ _ _ hk), rfl⟩
    | region =>
      rw [elideFrom_kept _ _ rfl, rewriteNode_fst]
      exact ⟨_, _, (Moves.region previous' _ _ _ _ _).path, .nodes _ _ _ (.nodes _ _ _ hk), rfl⟩
    | ret => exact ⟨_, _, (Moves.ret previous' _ _).path, .nil, rfl⟩
    | trap =>
      exact ⟨_, _, (Moves.trap previous' _ _ _ _).path, .nil, (seenAfter_access _).symm⟩

theorem Path.elided {q : Point} {evs : List Event} (h : Path eff p evs q) (hp : Shrinks p p') :
    ∃ evs' q', Path eff p' evs' q' ∧ Shrinks q q' ∧ evs'.map Event.seen = seenAfter evs := by
  induction h generalizing p' with
  | refl p => exact ⟨[], p', .refl p', hp, rfl⟩
  | step hmove _ ih =>
    obtain ⟨evs₁, q₁, hpath₁, hq₁, hseen₁⟩ := hmove.elided hp
    obtain ⟨evs₂, q₂, hpath₂, hq₂, hseen₂⟩ := ih hq₁
    exact ⟨evs₁ ++ evs₂, q₂, hpath₁.trans hpath₂, hq₂, by simp [hseen₁, hseen₂]⟩

theorem exists_skip (previous : Option Node) (rest : List Node) (k : Point) :
    ∃ previous₁ rest₁ evs, Path eff (.nodes previous rest :: k) evs (.nodes previous₁ rest₁ :: k) ∧
      seenAfter evs = [] ∧ elideFrom previous₁ rest₁ = elideFrom previous rest ∧
      ∀ n r, rest₁ = n :: r → (isBarrier n && removable previous₁ r.head?) = false := by
  induction rest generalizing previous with
  | nil => exact ⟨previous, [], [], .refl _, rfl, rfl, fun n r h => by cases h⟩
  | cons n rest ih =>
    by_cases hremove : (isBarrier n && removable previous rest.head?) = true
    · obtain ⟨previous₁, rest₁, evs, hpath, hseen, helide, hkept⟩ := ih (some n)
      cases n with
      | barrier ordering =>
        have hflag : removable previous rest.head? = true := by simpa [isBarrier] using hremove
        refine ⟨previous₁, rest₁, _, .step (.barrier previous ordering rest k) hpath, ?_, ?_, hkept⟩
        · rw [seenAfter_append, hseen]
          simp [seenAfter, Event.stays, hflag]
        · rw [helide, elideFrom, if_pos hremove]
      | _ => cases hremove
    · refine ⟨previous, n :: rest, [], .refl _, rfl, rfl, ?_⟩
      intro m r hmr
      cases hmr
      simpa using hremove

theorem Moves.restored {n : Node} {previous previous' : Option Node} {rest : List Node}
    {k k' q' : Point}
    {evs' : List Event} (hk : Shrinks k k')
    (hkept : (isBarrier n && removable previous rest.head?) = false)
    (h : Moves eff (.nodes previous' ((rewriteNode n).1 :: elideFrom (some n) rest) :: k') evs'
      q') :
    ∃ evs q, Moves eff (.nodes previous (n :: rest) :: k) evs q ∧ Shrinks q q' ∧
      evs'.map Event.seen = seenAfter evs := by
  rw [rewriteNode_fst] at h
  cases n <;> cases h
  case ifThen.thenBranch =>
    exact ⟨_, _, .thenBranch _ _ _ _ _ _, .nodes _ _ _ (.nodes _ _ _ hk), (seenAfter_access _).symm⟩
  case ifThen.elseBranch =>
    exact ⟨_, _, .elseBranch _ _ _ _ _ _, .nodes _ _ _ (.nodes _ _ _ hk), (seenAfter_access _).symm⟩
  case loop.enterLoop =>
    exact ⟨_, _, .enterLoop _ _ _ _ _ _ _, .loop _ (.nodes _ _ _ hk), (seenAfter_access _).symm⟩
  case block.block => exact ⟨_, _, .block _ _ _ _, .nodes _ _ _ (.nodes _ _ _ hk), rfl⟩
  case region.region => exact ⟨_, _, .region _ _ _ _ _ _, .nodes _ _ _ (.nodes _ _ _ hk), rfl⟩
  case ret.ret => exact ⟨_, _, .ret _ _ _, .nil, rfl⟩
  case trap.trap => exact ⟨_, _, .trap _ _ _ _ _, .nil, (seenAfter_access _).symm⟩
  case barrier.barrier =>
    have hflag : removable previous rest.head? = false := by simpa [isBarrier] using hkept
    refine ⟨_, _, .barrier _ _ _ _, .nodes _ _ _ hk, ?_⟩
    simp [seenAfter, Event.stays, hflag, Event.seen]
  -- The other statements go to the next one; none of the above is among them.
  all_goals
    rename_i htouch
    first
    | exact ⟨_, _, .simple _ _ _ htouch, .nodes _ _ _ hk, (seenAfter_access _).symm⟩
    | cases htouch

theorem Path.restored {q' : Point} {evs' : List Event} (h : Path eff p' evs' q')
    (hp : Shrinks p p') :
    ∃ evs q, Path eff p evs q ∧ Shrinks q q' ∧ evs'.map Event.seen = seenAfter evs := by
  induction h generalizing p with
  | refl p' => exact ⟨[], p, .refl p, hp, rfl⟩
  | @step p' q₁' r evs₁' evs₂' hmove _ ih =>
    have hone :
        ∃ evs q, Path eff p evs q ∧ Shrinks q q₁' ∧ evs₁'.map Event.seen = seenAfter evs := by
      cases hp with
      | nil => cases hmove
      | loop body hk =>
        cases hmove with
        | iterate => exact ⟨[], _, (Moves.iterate _ _).path, .nodes _ _ _ (.loop _ hk), rfl⟩
        | leaveLoop => exact ⟨[], _, (Moves.leaveLoop _ _).path, hk, rfl⟩
      | @nodes k k' previous previous' rest hk =>
        obtain ⟨previous₁, rest₁, evs, hskip, hnothing, hsame, hkept⟩ :=
          @exists_skip eff previous rest k
        rw [← hsame] at hmove
        cases rest₁ with
        | nil =>
          cases hmove with
          | leave =>
            refine ⟨evs ++ [], k, hskip.trans (Moves.leave previous₁ k).path, hk, ?_⟩
            simp [hnothing]
        | cons n r =>
          rw [elideFrom_kept previous₁ r (hkept n r rfl)] at hmove
          obtain ⟨evs₁, q, hmove, hq, hseen⟩ := hmove.restored hk (hkept n r rfl)
          exact ⟨evs ++ evs₁, q, hskip.trans hmove.path,
            hq, by rw [seenAfter_append, hnothing, hseen, nil_append]⟩
    obtain ⟨evs₁, q₁, hpath₁, hq₁, hseen₁⟩ := hone
    obtain ⟨evs₂, q₂, hpath₂, hq₂, hseen₂⟩ := ih hq₁
    exact ⟨evs₁ ++ evs₂, q₂, hpath₁.trans hpath₂, hq₂, by simp [hseen₁, hseen₂]⟩

/-- What the invocations of the elided program access and where they wait: the
same as without elision, the removed barriers left out. -/
theorem elided_paths_iff (p : Program) (seen : List (Option Access)) :
    (∃ evs q, Path eff (startPoint (elideValueFlowBarriers p).1.entry) evs q ∧
      evs.map Event.seen = seen) ↔
      ∃ evs q, Path eff (startPoint p.entry) evs q ∧ seenAfter evs = seen := by
  have hstart : Shrinks (startPoint p.entry) (startPoint (elideValueFlowBarriers p).1.entry) := by
    rw [entry_elideValueFlowBarriers]
    exact .nodes none none p.entry .nil
  constructor
  · rintro ⟨evs, q, hpath, rfl⟩
    obtain ⟨evs', q', hpath', -, hseen⟩ := hpath.restored hstart
    exact ⟨evs', q', hpath', hseen.symm⟩
  · rintro ⟨evs, q, hpath, rfl⟩
    obtain ⟨evs', q', hpath', -, hseen⟩ := hpath.elided hstart
    exact ⟨evs', q', hpath', hseen⟩

end Elided

/-! ## The interpreter -/

open Vyre.Reference

inductive At : List ControlFrame → Point → Prop where
  | nil : At [] []
  | nodes {frames : List ControlFrame} {k : Point} (previous : Option Node) (rest : List Node)
      (label : Nat) (isScoped : Bool) (h : At frames k) :
      At (.nodes rest label isScoped :: frames) (.nodes previous rest :: k)
  | loop {frames : List ControlFrame} {k : Point} (var : Ident) (left : Nat) (body : List Node)
      (label : Nat) (h : At frames k) :
      At (.loop var left body label :: frames) (.loop body :: k)

def barriers (evs : List Event) : List (Bool × Point) :=
  evs.filterMap fun
    | .barrier removed point => some (removed, point)
    | .access _ => none

@[simp] theorem barriers_append (evs evs' : List Event) :
    barriers (evs ++ evs') = barriers evs ++ barriers evs' := filterMap_append

@[simp] theorem barriers_access (as : List Access) : barriers (as.map .access) = [] := by
  simp [barriers]

section Interpreter

variable {eff : Effects} {host : Host} {snapshots : List Lane}

variable {inv inv' : Invocation} {memory memory' : Memory} {invs : List Invocation}

theorem waiting_of_released {released : List Invocation}
    (h : releaseBarrierIfReady invs = some released) :
    ∀ inv ∈ invs, inv.done = false → inv.waitingAtBarrier = true := by
  simp only [releaseBarrierIfReady] at h
  split at h
  · rename_i hcount
    have hall : (invs.filter fun inv => !inv.done).countP (·.waitingAtBarrier) =
        (invs.filter fun inv => !inv.done).length := by
      rw [countP_filter, ← countP_eq_length_filter, hcount.2, liveWaitingCount]
      simp only [Bool.and_comm]
    intro inv hinv hlive
    exact countP_eq_length.mp hall inv (mem_filter.mpr ⟨hinv, by simp [hlive]⟩)
  · cases h

variable (hwaits : ∀ tag destination, eff.waits tag destination)
include hwaits

/-- A statement of the interpreter is a statement of a path, and leaves the
invocation waiting exactly at a barrier. -/
theorem executeNode_moves {label : Nat} {n : Node} (previous : Option Node) {rest : List Node}
    {k : Point}
    (h : executeNode host snapshots inv label n memory = .ok (inv', memory'))
    (hat : At inv.control.frames (.nodes (some n) rest :: k))
    (hrunning : inv.waitingAtBarrier = false) :
    ∃ evs q, Moves eff (.nodes previous (n :: rest) :: k) evs q ∧ At inv'.control.frames q ∧
      (barriers evs).length = if inv'.waitingAtBarrier then 1 else 0 := by
  obtain ⟨d, hd, hsome, hcontrol, -⟩ := executeNode_control h
  have hwaiting : inv'.waitingAtBarrier = (inv.control.afterNode label n d).waiting := by
    rw [← hcontrol]
    rfl
  rw [hwaiting, hcontrol]
  have hkept : inv.control.waiting = false := hrunning
  have hnone : ∀ as : List Access, (barriers (as.map .access)).length = if inv.control.waiting
      then 1 else 0 := by
    intro as
    rw [barriers_access, hkept]
    rfl
  cases n with
  | ifThen cond thenNodes otherwise =>
    simp only [nodeDecision] at hd
    split at hd
    · subst hd
      rename_i v _ _
      cases v.truthy host.floats with
      | true => exact ⟨_, _, .thenBranch _ _ _ _ _ _, .nodes _ _ _ _ hat, hnone _⟩
      | false => exact ⟨_, _, .elseBranch _ _ _ _ _ _, .nodes _ _ _ _ hat, hnone _⟩
    · subst hd
      cases hsome
  | loop var lo hi body =>
    simp only [nodeDecision] at hd
    split at hd
    · subst hd
      exact ⟨_, _, .enterLoop _ _ _ _ _ _ _, .loop _ _ _ _ hat, hnone _⟩
    · subst hd
      cases hsome
  | ret => exact ⟨_, _, .ret _ _ _, .nil, hnone []⟩
  | block body => exact ⟨_, _, .block _ _ _ _, .nodes _ _ _ _ hat, hnone []⟩
  | region _ _ body =>
    exact ⟨_, _, .region _ _ _ _ _ _, .nodes _ _ _ _ hat, hnone []⟩
  | barrier ordering => exact ⟨_, _, .barrier _ _ _ _, hat, rfl⟩
  | trap address tag =>
    simp only [executeNode, StateExcept.bind_eq_ok] at h
    obtain ⟨_, _, -, _, _, -, h⟩ := h
    cases h
  | asyncWait tag => exact ⟨_, _, .simple _ _ _ (.asyncWait (hwaits tag tag)), hat, hnone _⟩
  | _ => exact ⟨_, _, .simple _ _ _ (by constructor), hat, hnone _⟩

theorem step_path {p : Point} (hat : At inv.control.frames p)
    (hrunning : inv.waitingAtBarrier = false)
    (h : step host snapshots inv memory = .ok (inv', memory')) :
    ∃ evs q, Path eff p evs q ∧ At inv'.control.frames q ∧
      (barriers evs).length = if inv'.waitingAtBarrier then 1 else 0 := by
  suffices hframes : ∀ frames, At (frames.map Frame.control) p →
      stepFrames host snapshots inv frames memory = .ok (inv', memory') →
      ∃ evs q, Path eff p evs q ∧ At inv'.control.frames q ∧
        (barriers evs).length = if inv'.waitingAtBarrier then 1 else 0 from hframes _ hat h
  clear h hat
  intro frames hat h
  fun_induction stepFrames host snapshots inv frames generalizing p with
  | case1 =>
    cases h
    cases hat
    exact ⟨[], [], .refl _, .nil, by simp [barriers, hrunning]⟩
  | case2 frames label ih =>
    cases hat with
    | nodes previous _ _ _ hk =>
      obtain ⟨evs, q, hpath, hq, hcount⟩ := ih hk h
      exact ⟨evs, q, .step (.leave previous _) hpath, hq, hcount⟩
  | case3 frames label =>
    cases h
    cases hat with
    | nodes previous _ _ _ hk =>
      exact ⟨[], _, (Moves.leave previous _).path, hk, by simp [barriers, hrunning]⟩
  | case4 n rest label isScoped frames =>
    cases hat with
    | nodes previous _ _ _ hk =>
      obtain ⟨evs, q, hmove, hq, hcount⟩ :=
        executeNode_moves hwaits previous h (.nodes (some n) rest _ isScoped hk) hrunning
      exact ⟨evs, q, hmove.path, hq, hcount⟩
  | case5 var next stop body label frames =>
    obtain ⟨hloop, rfl⟩ := lift_eq_ok.mp h
    have hwaiting : inv'.waitingAtBarrier = inv'.control.waiting := rfl
    have hkept : inv.control.waiting = false := hrunning
    rw [hwaiting, (stepLoop_control hloop).1]
    cases hat with
    | @loop _ k _ _ _ _ hk =>
      cases hleft : stop.toNat - next.toNat with
      | zero =>
        simp only [Frame.control, hleft, Control.afterFrames, hkept]
        exact ⟨[], k, (Moves.leaveLoop body k).path, hk, rfl⟩
      | succ left =>
        simp only [Frame.control, hleft, Control.afterFrames, hkept]
        exact ⟨[], _, (Moves.iterate body k).path, .nodes none _ _ _ (.loop _ _ _ _ hk), rfl⟩

/-- The invocation has come along a path, through as many barriers as released
so far, and the one it waits at. -/
def InPhase (eff : Effects) (entry : List Node) (phase : Nat) (inv : Invocation) : Prop :=
  ∃ evs p, Path eff (startPoint entry) evs p ∧ At inv.control.frames p ∧
    (barriers evs).length = phase + if inv.waitingAtBarrier then 1 else 0

theorem InPhase.step {entry : List Node} {phase : Nat} (hin : InPhase eff entry phase inv)
    (hrunning : inv.waitingAtBarrier = false)
    (h : step host snapshots inv memory = .ok (inv', memory')) : InPhase eff entry phase inv' := by
  obtain ⟨evs, p, hpath, hat, hcount⟩ := hin
  obtain ⟨evs', q, hpath', hat', hcount'⟩ := step_path hwaits hat hrunning h
  refine ⟨evs ++ evs', q, hpath.trans hpath', hat', ?_⟩
  rw [barriers_append, length_append, hcount, hcount', hrunning]
  simp

theorem inPhase_stepAll {entry : List Node} {phase : Nat} {invs' : List Invocation}
    (hin : ∀ inv ∈ invs, inv.done = false → InPhase eff entry phase inv)
    (h : stepAll host snapshots invs memory = .ok (invs', memory')) :
    ∀ inv ∈ invs', inv.done = false → InPhase eff entry phase inv := by
  induction invs generalizing invs' memory memory' with
  | nil =>
    cases h
    intro inv hinv
    cases hinv
  | cons inv invs ih =>
    rw [stepAll, mapM_cons] at h
    simp only [StateExcept.bind_eq_ok] at h
    obtain ⟨inv₁, m₁, hone, rest, m₂, hrest, heq⟩ := h
    cases heq
    have htail := ih (fun i hi => hin i (mem_cons_of_mem inv hi)) hrest
    intro i hi hlive
    obtain rfl | hi := mem_cons.mp hi
    · split_ifs at hone with hrun
      · simp only [Invocation.runnable, Bool.and_eq_true, Bool.not_eq_true'] at hrun
        exact .step hwaits (hin inv mem_cons_self hrun.1) hrun.2 hone
      · cases hone
        exact hin inv mem_cons_self hlive
    · exact htail i hi hlive

/-- At every moment of a run the live invocations are on paths through equally
many barriers, but for the one they may wait at. -/
theorem inPhase_of_reachable {program : Program} {workgroup : Dim3}
    (hinvs : createInvocations program workgroup = .ok invs)
    {usesSubgroupOps : Bool} {c : Config} (h : Reachable host usesSubgroupOps ⟨memory, invs⟩ c) :
    ∃ phase, ∀ inv ∈ c.invocations, inv.done = false → InPhase eff program.entry phase inv := by
  induction h with
  | start =>
    refine ⟨0, ?_⟩
    intro inv hinv _
    obtain ⟨ids, index, -, rfl⟩ := new_of_createInvocations hinvs hinv
    exact ⟨[], _, .refl _, .nodes none _ _ _ .nil, rfl⟩
  | round _ _ hround ih =>
    obtain ⟨phase, hphase⟩ := ih
    obtain ⟨invs', hstep, hrelease⟩ := Config.round_eq_ok hround
    have hnext := inPhase_stepAll hwaits hphase hstep
    cases hrelease with
    | inl hsame => exact ⟨phase, hsame ▸ hnext⟩
    | inr hreleased =>
      refine ⟨phase + 1, ?_⟩
      intro inv hinv hlive
      rw [releaseBarrierIfReady_eq_some hreleased] at hinv
      obtain ⟨old, hold, rfl⟩ := mem_map.mp hinv
      obtain ⟨evs, p, hpath, hat, hcount⟩ := hnext old hold hlive
      rw [waiting_of_released hreleased old hold hlive] at hcount
      exact ⟨evs, p, hpath, hat, hcount⟩

end Interpreter

theorem inPhase_of_reachable_branchInLoop :
    ∃ invs c, Reachable integerHost false ⟨emptyMemory, invs⟩ c ∧
    ∃ phase, ∀ inv ∈ c.invocations, inv.done = false →
      InPhase ⟨fun _ => [], fun _ => [], fun _ _ => True⟩ (branchInLoop (.litBool true)).entry
        phase inv := by
  obtain ⟨invs, c, hinvs, hc⟩ :
    ∃ invs c, createInvocations (branchInLoop (.litBool true)) (0, 0, 0) = .ok invs ∧
      Reachable integerHost false ⟨emptyMemory, invs⟩ c := ⟨_, _, rfl, .round .start rfl rfl⟩
  exact ⟨invs, c, hc, inPhase_of_reachable (fun _ _ => trivial) hinvs hc⟩

end Vyre.Megakernel
