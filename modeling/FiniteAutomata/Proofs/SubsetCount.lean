import FiniteAutomata.Proofs.SubsetStates
import FiniteAutomata.Proofs.Worklist

/-!
# How long determinization takes

The blocks that the search meets list their states in the order of the state list, so no two of them
are the same set, and the empty set is none of them. The loop that takes blocks from the queue until
none waits therefore comes to its end after fewer steps than there are sets of states. It takes every
block once, and every block becomes one state, so it makes as many steps as there are states in the
end. On its way it follows silent steps, in loops that end as well, whether or not these steps run in
circles.
-/

namespace FiniteAutomata.Automaton

universe u

variable {L : Type u} [BEq L] {A : Automaton L} {b : StateSet}

theorem mem_universe_of_mem_blocks (hb : b ∈ A.blocks) : b ∈ A.blockUniverse :=
  Search.mem_universe_of_mem_run _ (fun _ => mem_universe_of_mem_firstBlock)
    (fun _ _ _ => mem_universe_of_mem_targets) b hb

theorem empty_not_mem_blocks [EquivBEq L] : (∅ : StateSet) ∉ A.blocks := by
  intro h
  obtain ⟨w, hlive, hempty⟩ := mem_blocks_iff.1 h
  rw [live_iff_isEmpty_blockAfter, hempty] at hlive
  cases hlive

/-- There are fewer blocks than sets of states, for the empty set is no block. -/
theorem length_blocks_lt [EquivBEq L] (A : Automaton L) : A.blocks.length < 2 ^ A.numStates := by
  have hnodup : (∅ :: A.blocks).Nodup := List.nodup_cons.2 ⟨empty_not_mem_blocks, nodup_blocks⟩
  have hempty : (∅ : StateSet) ∈ A.blockUniverse :=
    List.mem_map.2 ⟨[], List.mem_sublists.2 (List.nil_sublist _), rfl⟩
  have hsubset : ∅ :: A.blocks ⊆ A.blockUniverse :=
    List.cons_subset.2 ⟨hempty, fun b hb => mem_universe_of_mem_blocks hb⟩
  calc A.blocks.length + 1 = (∅ :: A.blocks).length := rfl
    _ ≤ A.blockUniverse.length := hnodup.length_le_of_subset hsubset
    _ ≤ 2 ^ A.numStates := length_blockUniverse A

/-- The blocks of a list as sets, in their order. -/
def asSets (blocks : List StateSet) : List (Set StateId) := blocks.map fun b => {s | s ∈ b}

theorem nodup_asSets_blocks [EquivBEq L] : (asSets A.blocks).Nodup :=
  List.Nodup.map_on (fun _ hb _ hc h => injOn_blocks hb hc h) nodup_blocks

theorem mem_asSets_blocks_iff [EquivBEq L] {S : Set StateId} :
    S ∈ asSets A.blocks ↔ S ∈ A.frontiers := by
  rw [frontiers_eq_image, asSets, List.mem_map]
  rfl

/-- The loop of the subset construction comes to its end. It takes every set of states that some word
leads to, each once and the empty one never, so it makes as many steps as there are states in the end,
and fewer than there are sets of states. The silent closures on the way are loops that end too. -/
theorem determinize_ends [EquivBEq L] (A : Automaton L) :
    (∃ taken last, Search.Exhausts A.targets A.firstBlock taken last ∧
      A.determinize = A.ofBlocks last.found.toList ∧
      (asSets taken).Nodup ∧ (∀ S, S ∈ asSets taken ↔ S ∈ A.frontiers) ∧
      taken.length = A.determinize.numStates ∧ taken.length ≤ 2 ^ A.numStates - 1) ∧
    ∀ core, ∃ taken last, Search.Exhausts (A.successors Transition.isSilent) core taken last ∧
      last.found = A.silentClosure core := by
  constructor
  · have hrun : Search.Exhausts A.targets A.firstBlock A.blocks A.blockSearch :=
      Search.exhausts_explore (waiting_blockSearch A)
    have hless := length_blocks_lt A
    refine ⟨A.blocks, A.blockSearch, hrun, rfl, nodup_asSets_blocks,
      fun S => mem_asSets_blocks_iff, numStates_determinize.symm, ?_⟩
    omega
  · intro core
    exact ⟨_, _, Search.exhausts_explore waiting_search, rfl⟩

/-- A silent circle and a label on which two states are entered at once. Every non-empty set of states
is a block. -/
def everySubset : Automaton Char where
  initials := OrderedSet.ofList [0]
  transitions := OrderedSet.ofList
    [⟨0, none, 0⟩, ⟨0, some 'a', 0⟩, ⟨0, some 'a', 1⟩, ⟨1, some 'b', 1⟩]
  finals := OrderedSet.ofList [1]
  frontier := none
  nextId := 2

theorem determinize_ends_everySubset :
    ∃ taken last, Search.Exhausts everySubset.targets everySubset.firstBlock taken last ∧
      taken.length = 3 ∧ 2 ^ everySubset.numStates - 1 = 3 := by
  obtain ⟨⟨taken, last, hrun, -, -, -, hlength, -⟩, -⟩ := determinize_ends everySubset
  have hthree : everySubset.determinize.numStates = 3 := by decide +kernel
  exact ⟨taken, last, hrun, hlength.trans hthree, by decide +kernel⟩

end FiniteAutomata.Automaton
