/-!
# State ids

A state is named by a natural number. The number is local to the automaton that allocated it, and
carries no meaning beyond being different from the others.
-/

namespace FiniteAutomata

/-- The name of a state. -/
@[ext] structure StateId where
  val : Nat
deriving DecidableEq, Repr

namespace StateId

instance : Inhabited StateId := ⟨⟨0⟩⟩

instance (n : Nat) : OfNat StateId n := ⟨⟨n⟩⟩

instance : HAdd StateId Nat StateId := ⟨fun s n => ⟨s.val + n⟩⟩

instance : LE StateId := ⟨fun s t => s.val ≤ t.val⟩

instance (s t : StateId) : Decidable (s ≤ t) := inferInstanceAs (Decidable (s.val ≤ t.val))

instance : Max StateId := maxOfLe

/-- The ids in ascending order, each as often as it is given. -/
def sort (l : List StateId) : List StateId := l.mergeSort fun s t => decide (s ≤ t)

/-- The first `n` ids, in ascending order. -/
def below (n : Nat) : List StateId := (List.range n).map StateId.mk

@[simp] theorem length_below (n : Nat) : (below n).length = n := by simp [below]

@[simp] theorem mem_below {s : StateId} {n : Nat} : s ∈ below n ↔ s.val < n := by
  simp [below, StateId.ext_iff]

theorem nodup_below (n : Nat) : (below n).Nodup :=
  List.pairwise_map.2 (List.nodup_range.imp fun hne h => hne (congrArg StateId.val h))

end StateId

end FiniteAutomata
