import FiniteAutomata.Proofs.SubsetConstruction
import FiniteAutomata.Report.Operations
import Mathlib.Data.Set.Card

/-!
# The states of the deterministic automaton

A match of the deterministic automaton is in the state that stands for the frontier of the original
one, and in no state once that frontier is empty. Equal frontiers, in whatever order they were
found, have one state, and different ones have different states. Every state stands for the frontier
after some word, so there are as many states as there are non-empty frontiers.
-/

namespace FiniteAutomata.Automaton

universe u

variable {L : Type u} [BEq L] {A : Automaton L} {s q : StateId} {v w : List L}

/-! ### One state for each frontier -/

theorem after_eq_empty_iff : A.after w = ∅ ↔ ¬ A.Live w := by
  rw [live_iff_isEmpty, Bool.not_eq_false, OrderedSet.isEmpty, List.isEmpty_iff,
    OrderedSet.ext_iff]
  exact Iff.rfl

theorem mem_after_determinize_iff [EquivBEq L] :
    s ∈ A.determinize.after w ↔ A.Live w ∧ A.stateAfter w = s := by
  rw [mem_after_iff, leadsTo_determinize_iff]

theorem toList_after_determinize [EquivBEq L] (h : A.Live w) :
    (A.determinize.after w).toList = [A.stateAfter w] := by
  refine List.perm_singleton.1 (OrderedSet.perm_of_mem_iff (List.nodup_singleton _) fun s => ?_)
  rw [mem_after_determinize_iff, List.mem_singleton, eq_comm (a := s)]
  exact and_iff_right h

theorem after_determinize_eq_empty_iff [EquivBEq L] :
    A.determinize.after w = ∅ ↔ A.after w = ∅ := by
  rw [after_eq_empty_iff, after_eq_empty_iff, live_determinize_iff]

theorem exists_mem_after_iff : (∃ s ∈ A.after w, s ∈ A.finals) ↔ A.Accepts w := by
  rw [accepts_iff_exists_leadsTo]
  exact exists_congr fun t => and_comm.trans (and_congr_right fun _ => mem_after_iff)

theorem stateAfter_mem_finals_iff [EquivBEq L] :
    A.stateAfter w ∈ A.determinize.finals ↔ A.Accepts w := by
  rw [mem_finals_determinize_iff]
  refine ⟨fun hfinal => ?_, fun hw => ⟨w, hw, rfl⟩⟩
  obtain ⟨v, hv, heq⟩ := hfinal
  exact hv.congr ((stateAfter_inj hv.live).1 heq)

theorem after_determinize_eq_iff [EquivBEq L] :
    A.determinize.after v = A.determinize.after w ↔ ∀ s, s ∈ A.after v ↔ s ∈ A.after w := by
  simp only [mem_after_iff]
  rw [← blockAfter_eq_iff]
  by_cases hv : A.Live v
  · rw [OrderedSet.ext_iff, toList_after_determinize hv]
    refine ⟨fun h => ?_, fun h => ?_⟩
    · have hmem : A.stateAfter v ∈ A.determinize.after w := by
        rw [OrderedSet.mem_iff, ← h]
        exact List.mem_singleton_self _
      obtain ⟨-, heq⟩ := mem_after_determinize_iff.1 hmem
      exact (stateAfter_inj hv).1 heq.symm
    · rw [toList_after_determinize (hv.congr h), (stateAfter_inj hv).2 h]
  · have hnone := after_eq_empty_iff.2 hv
    rw [after_determinize_eq_empty_iff.2 hnone, eq_comm, after_determinize_eq_empty_iff,
      after_eq_empty_iff]
    refine ⟨fun hw => ?_, fun h hw => hv (hw.congr h.symm)⟩
    refine blockAfter_eq_iff.2 fun s => ⟨fun hs => absurd ⟨s, hs⟩ hv, fun hs => absurd ⟨s, hs⟩ hw⟩

/-! ### As many states as frontiers -/

theorem mem_states_determinize_iff [EquivBEq L] :
    s ∈ A.determinize.states ↔ ∃ b ∈ A.blocks, blockId A.blocks b = s := by
  refine ⟨fun hs => ?_, fun h => ?_⟩
  · obtain ⟨w, hw⟩ := accessible_determinize s hs
    obtain ⟨hlive, rfl⟩ := leadsTo_determinize_iff.1 hw
    exact ⟨_, mem_blocks_iff.2 ⟨w, hlive, rfl⟩, rfl⟩
  · obtain ⟨b, hb, rfl⟩ := h
    obtain ⟨w, hlive, rfl⟩ := mem_blocks_iff.1 hb
    exact (leadsTo_determinize_iff.2 ⟨hlive, rfl⟩).mem_states

theorem nodup_blocks : A.blocks.Nodup := OrderedSet.nodup_toList _

theorem numStates_determinize [EquivBEq L] : A.determinize.numStates = A.blocks.length := by
  refine OrderedSet.size_eq_of_mem_iff_image (t := A.blockSearch.found) (f := blockId A.blocks)
    (fun b hb c _ h => ?_) fun s => mem_states_determinize_iff
  exact (blockId_inj hb).1 h

/-- The non-empty sets of states that words lead to. -/
def frontiers (A : Automaton L) : Set (Set StateId) :=
  {S | S.Nonempty ∧ ∃ w, ∀ s, s ∈ S ↔ s ∈ A.after w}

theorem frontiers_eq_image [EquivBEq L] :
    A.frontiers = (fun b : StateSet => {s | s ∈ b}) '' {b | b ∈ A.blocks} := by
  ext S
  refine ⟨fun h => ?_, fun h => ?_⟩
  · obtain ⟨⟨s, hs⟩, w, hw⟩ := h
    have hlive : A.Live w := ⟨s, mem_after_iff.1 ((hw s).1 hs)⟩
    refine ⟨_, mem_blocks_iff.2 ⟨w, hlive, rfl⟩, Set.ext fun s => ?_⟩
    exact mem_blockAfter_iff.trans (mem_after_iff.symm.trans (hw s).symm)
  · obtain ⟨b, hb, rfl⟩ := h
    obtain ⟨w, hlive, rfl⟩ := mem_blocks_iff.1 hb
    have hmem : ∀ s, s ∈ {s | s ∈ A.blockAfter w} ↔ s ∈ A.after w :=
      fun s => mem_blockAfter_iff.trans mem_after_iff.symm
    obtain ⟨s, hs⟩ := hlive
    exact ⟨⟨s, mem_blockAfter_iff.2 hs⟩, w, hmem⟩

/-- Blocks list their states in one order, so different blocks are different sets. -/
theorem injOn_blocks [EquivBEq L] :
    Set.InjOn (fun b : StateSet => {s | s ∈ b}) {b | b ∈ A.blocks} := by
  intro b hb c hc h
  obtain ⟨v, -, rfl⟩ := mem_blocks_iff.1 hb
  obtain ⟨w, -, rfl⟩ := mem_blocks_iff.1 hc
  refine blockAfter_eq_iff.2 fun s => ?_
  rw [← mem_blockAfter_iff, ← mem_blockAfter_iff]
  exact Set.ext_iff.1 h s

theorem encard_frontiers [EquivBEq L] : A.frontiers.encard = A.determinize.numStates := by
  rw [frontiers_eq_image, injOn_blocks.encard_image, numStates_determinize, ← List.coe_toFinset,
    Set.encard_coe_eq_coe_finsetCard, List.toFinset_card_of_nodup nodup_blocks]

theorem getLast?_records_determinizeReported {L : Type} [BEq L] [EquivBEq L] {ε : Type}
    (A : Automaton L) :
    (A.determinizeReported : Reported ε (Automaton L)).records.getLast? =
      some (.determinized A.numStates A.determinize.numStates A.determinize.transitions.size) := by
  rw [numStates_determinize]
  exact List.getLast?_concat

/-- A match of the deterministic automaton tells the frontiers of the original one apart, and nothing
else: it is in one state while a state is left there, in the same one exactly if the frontier is the
same set, in a final one exactly if a final state is among them, and no state is there without such
a frontier. Their number is the one reported. -/
theorem determinize_after_exact {L : Type} [BEq L] [EquivBEq L] (ε : Type) (A : Automaton L) :
    (∀ (B : Automaton L) (u : List L), (B.reset.feed u).frontier = some (B.after u)) ∧
      (∀ u, A.determinize.after u = ∅ ↔ A.after u = ∅) ∧
      (∀ u, A.after u ≠ ∅ → ∃ q, (A.determinize.after u).toList = [q] ∧
        (q ∈ A.determinize.finals ↔ ∃ s ∈ A.after u, s ∈ A.finals)) ∧
      (∀ u v, A.determinize.after u = A.determinize.after v ↔
        ∀ s, s ∈ A.after u ↔ s ∈ A.after v) ∧
      A.frontiers.encard = A.determinize.numStates ∧
      ∃ before transitions, (A.determinizeReported : Reported ε (Automaton L)).records.getLast? =
        some (.determinized before A.determinize.numStates transitions) := by
  refine ⟨fun B u => ?_, fun u => after_determinize_eq_empty_iff, fun u hne => ?_,
    fun u v => after_determinize_eq_iff, encard_frontiers, ?_⟩
  · rw [feed_reset]
  · have hlive : A.Live u := not_not.1 (mt after_eq_empty_iff.2 hne)
    refine ⟨A.stateAfter u, toList_after_determinize hlive, ?_⟩
    rw [stateAfter_mem_finals_iff, exists_mem_after_iff]
  · exact ⟨_, _, getLast?_records_determinizeReported A⟩

/-- Two labels lead to the same states in either order; the state 3 cannot be reached. -/
def eitherOrder : Automaton Char where
  initials := OrderedSet.ofList [0]
  transitions := OrderedSet.ofList
    [⟨0, some 'a', 1⟩, ⟨0, some 'a', 2⟩, ⟨0, some 'b', 2⟩, ⟨0, some 'b', 1⟩, ⟨3, some 'a', 0⟩]
  finals := OrderedSet.ofList [2]
  frontier := none
  nextId := 4

theorem determinize_after_exact_eitherOrder :
    eitherOrder.after ['a'] ≠ eitherOrder.after ['b'] ∧
      eitherOrder.determinize.after ['a'] = eitherOrder.determinize.after ['b'] ∧
      eitherOrder.determinize.after ['a', 'a'] = ∅ ∧ eitherOrder.frontiers.encard = 2 := by
  obtain ⟨-, hempty, -, hsame, hcard, -⟩ := determinize_after_exact Empty eitherOrder
  have ha : eitherOrder.after ['a'] = OrderedSet.ofList [1, 2] := by decide +kernel
  have hb : eitherOrder.after ['b'] = OrderedSet.ofList [2, 1] := by decide +kernel
  have hnum : eitherOrder.determinize.numStates = 2 := by decide +kernel
  refine ⟨by decide +kernel, (hsame _ _).2 fun s => ?_, (hempty _).2 (by decide +kernel), ?_⟩
  · rw [ha, hb, OrderedSet.mem_ofList, OrderedSet.mem_ofList]
    exact (List.Perm.swap _ _ _).mem_iff
  · rw [hcard, hnum]
    rfl

end FiniteAutomata.Automaton
