import Vyre.Megakernel.Publish
import Vyre.Reference.Simulation

/-!
# Opcode handlers

The block with which the device executes an operation (`dispatch_opcode_body`,
`handlers.rs`): it counts the opcode, tries the built-in operations and then the
handlers of the caller. The built-in operations work on the control words and the
debug log, so they leave the slot as it is.
-/

namespace Vyre.Megakernel

open Reference StateExcept List

namespace Control

def shutdown : UInt32 := 0

def metricsBase : UInt32 := 96

def metricsSlots : UInt32 := 32

def epoch : UInt32 := metricsBase + metricsSlots

def observableBase : UInt32 := 160

end Control

namespace Debug

def cursorWord : UInt32 := 0

def recordsBase : UInt32 := 1

def recordWords : UInt32 := 4

def recordCapacity : UInt32 := 64

def bufferWords : UInt32 := recordsBase + recordCapacity * recordWords

end Debug

def atomicLoadRelaxed (buffer : Ident) (index : Expr) : Expr := .atomicAdd buffer index (.u32 0)

def atomicStoreRelaxed (name buffer : Ident) (index value : Expr) : Node :=
  .letBind name (.atomicExchange buffer index value)

/-- An opcode that the caller adds, and what it executes. -/
structure OpcodeHandler where
  opcode : UInt32
  body : List Node

def opcodeIf (op : UInt32) (body : List Node) : Node :=
  .ifThen (.eq (.var "opcode") (.u32 op)) body []

def storeU32Body : List Node :=
  [atomicStoreRelaxed "store_u32_prev" "control" (.var "arg1") (.var "arg0")]

def atomicAddBody : List Node :=
  [.letBind "atomic_add_prev" (.atomicAdd "control" (.var "arg1") (.var "arg0"))]

def shutdownBody : List Node :=
  [.letBind "shutdown_prev" (.atomicExchange "control" (.u32 Control.shutdown) (.u32 1))]

/-- Reserves a record of the debug log and writes it, when there is room. -/
def printfBody : List Node :=
  [.letBind "printf_base"
    (.add (.atomicAdd "debug_log" (.u32 Debug.cursorWord) (.u32 Debug.recordWords))
      (.u32 Debug.recordsBase)),
   .ifThen (.le (.add (.var "printf_base") (.u32 Debug.recordWords)) (.u32 Debug.bufferWords))
    [atomicStoreRelaxed "printf_fmt_prev" "debug_log" (.var "printf_base") (.var "arg0"),
     atomicStoreRelaxed "printf_arg1_prev" "debug_log" (.add (.var "printf_base") (.u32 1))
      (.var "arg1"),
     atomicStoreRelaxed "printf_arg2_prev" "debug_log" (.add (.var "printf_base") (.u32 2))
      (.var "arg2"),
     atomicStoreRelaxed "printf_slot_prev" "debug_log" (.add (.var "printf_base") (.u32 3))
      (.var "slot_base")] []]

def loadU32Body : List Node :=
  [atomicStoreRelaxed "load_u32_observable_prev" "control"
    (.add (.u32 Control.observableBase) (.var "arg1")) (atomicLoadRelaxed "control" (.var "arg0"))]

def compareSwapBody : List Node :=
  [.letBind "cas_prev"
    (.atomicCompareExchange "control" (.var "arg0") (.var "arg1") (.var "arg2")),
   atomicStoreRelaxed "cas_observable_prev" "control"
    (.add (.u32 Control.observableBase) (.var "arg0")) (.var "cas_prev")]

def memcpyBody : List Node :=
  [.loop "copy_i" (.u32 0) (.var "arg2")
    [atomicStoreRelaxed "memcpy_dst_prev" "control" (.add (.var "arg1") (.var "copy_i"))
      (atomicLoadRelaxed "control" (.add (.var "arg0") (.var "copy_i")))]]

def batchFenceBody : List Node :=
  [.letBind "epoch_prev" (.atomicAdd "control" (.u32 Control.epoch) (.u32 1)),
   atomicStoreRelaxed "fence_observable_prev" "control" (.u32 Control.observableBase) (.var "arg1")]

/-- What `dispatch_opcode_body` begins with. -/
def builtinOpcodes : List Node :=
  [.ifThen (.lt (.var "opcode") (.u32 Control.metricsSlots))
    [.letBind "metric_prev"
      (.atomicAdd "control" (.add (.u32 Control.metricsBase) (.var "opcode")) (.u32 1))] [],
   opcodeIf Opcode.storeU32 storeU32Body,
   opcodeIf Opcode.atomicAdd atomicAddBody,
   opcodeIf Opcode.loadU32 loadU32Body,
   opcodeIf Opcode.compareSwap compareSwapBody,
   opcodeIf Opcode.memcpy memcpyBody,
   opcodeIf Opcode.batchFence batchFenceBody,
   opcodeIf Opcode.printf printfBody,
   opcodeIf Opcode.shutdown shutdownBody]

def dispatchOpcodeBody (opcodes : List OpcodeHandler) : List Node :=
  builtinOpcodes ++ opcodes.map fun handler => opcodeIf handler.opcode handler.body

/-! ## What a dispatch leaves alone -/

/-- A dispatch block that goes on, leaves the ring and does not assign the
names the body still reads. -/
def KeepsSlot (host : Host) (dispatch : List Node) : Prop :=
  ∀ t m out m', runNode host (.block dispatch) t m = .ok (out, m') →
    ∃ t', out = .next t' ∧ t'.vals "slot_base" = t.vals "slot_base" ∧
      t'.vals "packed_metadata_words" = t.vals "packed_metadata_words" ∧
      m'.find "ring_buffer" = m.find "ring_buffer"

/-- The names a round still reads after the dispatch. -/
def IsSlotName (name : Ident) : Prop := name = "slot_base" ∨ name = "packed_metadata_words"

def SameRing (m m' : Memory) : Prop := m'.find "ring_buffer" = m.find "ring_buffer"

instance : Std.Refl SameRing := ⟨fun _ => rfl⟩

instance : IsTrans Memory SameRing := ⟨fun _ _ _ h h' => Eq.trans h' h⟩

/-- The same for a statement. -/
def Steady (host : Host) (n : Node) : Prop :=
  ∀ t m out m', runNode host n t m = .ok (out, m') →
    ∃ t', out = .next t' ∧ Kept IsSlotName t t' ∧ SameRing m m'

/-- A statement that binds, branches or writes, but not to the ring. -/
def SparesRing : Node → Prop
  | .letBind _ _ | .ifThen _ _ _ | .loop _ _ _ _ => True
  | .store buffer _ _ => buffer ≠ "ring_buffer"
  | _ => False

def AtomicSparesRing : Expr → Prop
  | .atomic _ buffer _ _ _ _ => buffer ≠ "ring_buffer"
  | _ => True

variable {host : Host} {n : Node} {ns : List Node}

theorem atomicsKeep_ring {e : Expr} (h : AtomicSparesRing e) : AtomicsKeep SameRing e := by
  cases e with
  | atomic _ _ _ _ _ _ =>
    intro i x v m r m' hrun
    obtain ⟨target, -, ⟨-, -, rfl⟩ | ⟨old, p, -, -, -, rfl⟩⟩ := atomicRmw_eq_ok.mp hrun
    · rfl
    · simp [SameRing, Memory.find, setBuffer, Ne.symm h]
  | _ => trivial

theorem sim_sparesRing (h : n.Forall AtomicSparesRing SparesRing) (m₀ : Memory) (π : Plan)
    (t : Thread) : Sim False (fun m m' => m = m' ∧ SameRing m₀ m) Eq
      (runNode (Route.on host π) n t) (runNode (Route.on host π) n t) := by
  have hexpr : ∀ {e : Expr} {lane : Lane}, e.Forall AtomicSparesRing →
      Respects (fun m m' => m = m' ∧ SameRing m₀ m) (evalExpr host [lane] e lane) :=
    fun he => (keeps_evalExpr (he.imp fun _ => atomicsKeep_ring) _).respects m₀
  have hbody : ∀ {ns : List Node} {π : Plan} {t t₀ : Thread}, (∀ n ∈ ns, ∀ π t,
      Sim False (fun m m' => m = m' ∧ SameRing m₀ m) Eq (runNode (Route.on host π) n t)
        (runNode (Route.on host π) n t)) →
      Sim False (fun m m' => m = m' ∧ SameRing m₀ m) (fun u u' => t₀.leave u = t₀.leave u')
        (runNodes (Route.on host π) ns t) (runNodes (Route.on host π) ns t) :=
    fun ih => (Sim.self (fun n hn π u u' hu => hu ▸ ih n hn π u) rfl).imp
      fun u u' _ hu => congrArg _ hu
  induction n generalizing π t with
  | letBind name value => exact Sim.letBind (hexpr h.2) fun _ hnone => ⟨hnone, rfl⟩
  | store buffer index value =>
    refine Sim.plain (g := id) rfl ⟨hexpr h.2.1, hexpr h.2.2⟩ (fun idx v => ?_) rfl fun _ => rfl
    refine Keeps.respects (fun m u m' hrun => ?_) m₀
    obtain ⟨b, -, rfl⟩ := storeElement_eq_ok.mp hrun
    rw [SameRing, Memory.find_update, if_neg (Ne.symm h.1)]
  | ifThen cond thenNodes otherwise iht iho =>
    exact Sim.ifThen (hexpr h.2.1) rfl id
      (hbody fun n hn => iht n hn (Node.forallList_iff.mp h.2.2.1 n hn))
      (hbody fun n hn => iho n hn (Node.forallList_iff.mp h.2.2.2 n hn))
  | loop var lo hi body ih =>
    refine Sim.loop (hexpr h.2.1) (hexpr h.2.2.1) rfl ?_
    rintro t _ k - rfl hnone
    exact ⟨hnone, hbody fun n hn => ih n hn (Node.forallList_iff.mp h.2.2.2 n hn)⟩
  | _ => first | exact h.elim | exact h.1.elim

theorem steady_of_sparesRing (h : n.Forall AtomicSparesRing SparesRing) : Steady host n := by
  intro t m out m' hrun
  obtain ⟨_, _, -, hout, rfl, hring⟩ := sim_sparesRing h m _ t m m out m' ⟨rfl, rfl⟩ hrun
  obtain ⟨t', _, rfl, -, -⟩ := hout.next
  have hassigns : n.Forall (fun _ => True) (AssignsIn fun x => ¬ IsSlotName x) :=
    h.imp (fun _ _ => trivial) fun n hn => by cases n <;> trivial
  exact ⟨t', rfl, kept_node (ρ := host) hassigns _ t m t' m' hrun, hring⟩

theorem KeepsSlot.steady (h : KeepsSlot host ns) : Steady host (.block ns) := by
  intro t m out m' hrun
  obtain ⟨t', rfl, hbase, hwords, hring⟩ := h t m out m' hrun
  have hkept := keepsBound_node host _ (.block ns) t m t' m' hrun
  refine ⟨t', rfl, ⟨hkept.ids, hkept.index, hkept.bound, ?_⟩, hring⟩
  rintro name (rfl | rfl) -
  exacts [hbase, hwords]

theorem steady_opcodeIf (op : UInt32) (h : KeepsSlot host ns) : Steady host (opcodeIf op ns) := by
  intro t m out m' hrun
  have hpure : (Expr.eq (.var "opcode") (.u32 op)).Forall
      (AtomicsKeep (Eq : Memory → Memory → Prop)) := ⟨trivial, trivial, trivial⟩
  obtain ⟨v, m₁, hv, hrun⟩ := bind_eq_ok.mp hrun
  obtain rfl := keeps_evalExpr hpure t.lane m v m₁ hv
  obtain ⟨_, m₂, hcheck, hrun⟩ := bind_eq_ok.mp hrun
  obtain rfl := Route.check_memory hcheck
  cases htruthy : v.truthy host.floats with
  | true =>
    rw [htruthy] at hrun
    exact h.steady t m₂ out m' hrun
  | false =>
    rw [htruthy] at hrun
    cases hrun
    exact ⟨_, rfl, (Kept.refl t).leave fun _ => id, rfl⟩

theorem runNodes_steady (h : ∀ n ∈ ns, Steady host n) {t : Thread} {m m' : Memory}
    {out : Outcome Thread} (hrun : runNodes host ns t m = .ok (out, m')) :
    ∃ t', out = .next t' ∧ Kept IsSlotName t t' ∧ SameRing m m' := by
  induction ns generalizing t m with
  | nil =>
    cases hrun
    exact ⟨t, rfl, .refl t, rfl⟩
  | cons n ns ih =>
    obtain ⟨head, m₁, hn, hrest⟩ := bind_eq_ok.mp hrun
    obtain ⟨t₁, rfl, hkept, hring⟩ := h n (by simp) t m head m₁ hn
    rw [Route.after_free] at hrest
    obtain ⟨t', rfl, hkept', hring'⟩ := ih (fun n hn => h n (by simp [hn])) hrest
    exact ⟨t', rfl, hkept.trans hkept', hring'.trans hring⟩

theorem keepsSlot_of_steady (h : ∀ n ∈ ns, Steady host n) : KeepsSlot host ns := by
  intro t m out m' hrun
  obtain ⟨inner, m₁, hinner, hout⟩ := map_eq_ok.mp hrun
  obtain ⟨t', rfl, hkept, hring⟩ := runNodes_steady h hinner
  cases hout
  have hname : ∀ name, IsSlotName name → (t.leave t').vals name = t.vals name := by
    intro name hname
    rw [Thread.leave_vals]
    split_ifs with hbound
    · exact hkept.same name hname hbound
    · exact (by simpa using hbound : t.vals name = none).symm
  exact ⟨_, rfl, hname _ (.inl rfl), hname _ (.inr rfl), hring⟩

theorem sparesRing_builtinOpcodes : ∀ n ∈ builtinOpcodes, n.Forall AtomicSparesRing SparesRing := by
  simp [builtinOpcodes, opcodeIf, storeU32Body, atomicAddBody, loadU32Body, compareSwapBody,
    memcpyBody, batchFenceBody, printfBody, shutdownBody, atomicStoreRelaxed, atomicLoadRelaxed,
    Node.Forall, Node.ForallList, Expr.Forall, Expr.ForallExpected, SparesRing, AtomicSparesRing]

/-- The dispatch block leaves the slot alone when the handlers of the caller do. -/
theorem keepsSlot_dispatchOpcodeBody {opcodes : List OpcodeHandler}
    (h : ∀ handler ∈ opcodes, KeepsSlot host handler.body) :
    KeepsSlot host (dispatchOpcodeBody opcodes) := by
  refine keepsSlot_of_steady (forall_mem_append.mpr ⟨fun n hn => ?_, fun n hn => ?_⟩)
  · exact steady_of_sparesRing (sparesRing_builtinOpcodes n hn)
  · obtain ⟨handler, hmem, rfl⟩ := mem_map.mp hn
    exact steady_opcodeIf _ (h handler hmem)

end Vyre.Megakernel
