/-!
# Reserving scratch space

`reserve_graph_items` (`graph/scratch.rs`). Whether `Vec::try_reserve` succeeds is up to the
allocator, which is a parameter of the models that reserve.
-/

namespace Vyre

/-- What `Vec::try_reserve` answers to a request for a number of items: nothing, or the text of
the failure. The requests of a function are told apart by their context. -/
abbrev Allocator := (context : String) → (additional : Nat) → Option String

def Allocator.Grants (alloc : Allocator) : Prop :=
  ∀ context additional, alloc context additional = none

def reserveGraphItems (alloc : Allocator) (additional : Nat) (owner context : String) :
    Except String Unit :=
  match alloc context additional with
  | none => .ok ()
  | some error => .error s!"Fix: {owner} could not reserve {additional} item(s) for {context}: {error}. Split the graph batch or reuse a smaller scratch buffer."

theorem reserveGraphItems_of_grants {alloc : Allocator} (h : alloc.Grants) (additional : Nat)
    (owner context : String) : reserveGraphItems alloc additional owner context = .ok () := by
  rw [reserveGraphItems, h]

end Vyre
