import FiniteAutomata.Automaton.Placement
import FiniteAutomata.Proofs.Renaming
import Mathlib.Data.List.Basic

/-!
# Placed copies

The states of a placed automaton get different new ids, none of which the host has used before.
So the steps of the copy are all new to the host: they are appended in their order, and no two of
them become one. For an empty host this makes the copy a renaming of the automaton.
-/

namespace FiniteAutomata.Automaton

universe u

variable {L : Type u} [BEq L] {A host : Automaton L} {order : StateSet} {first s r : StateId}

/-! ### New ids -/

theorem val_renumber : (renumber order first s).val = first.val + order.toList.idxOf s := rfl

theorem renumber_inj (hs : s ∈ order) :
    renumber order first s = renumber order first r ↔ s = r := by
  rw [StateId.ext_iff, val_renumber, val_renumber, Nat.add_left_cancel_iff]
  exact List.idxOf_inj hs

theorem val_le_val_renumber : first.val ≤ (renumber order first s).val :=
  Nat.le_add_right _ _

theorem val_renumber_lt_add (hs : s ∈ order) :
    (renumber order first s).val < first.val + order.size :=
  Nat.add_lt_add_left (List.idxOf_lt_length_of_mem hs) _

/-- Every id of the range is given to a state. -/
theorem exists_renumber_eq (hfirst : first.val ≤ r.val) (hlt : r.val < first.val + order.size) :
    ∃ s ∈ order, renumber order first s = r := by
  have hplace : r.val - first.val < order.toList.length := Nat.sub_lt_left_of_lt_add hfirst hlt
  refine ⟨order.toList[r.val - first.val], List.getElem_mem hplace, ?_⟩
  rw [StateId.ext_iff, val_renumber, order.nodup_toList.idxOf_getElem]
  exact Nat.add_sub_cancel' hfirst

theorem bijOn_renumber (order : StateSet) (first : StateId) :
    Set.BijOn (renumber order first) {s | s ∈ order}
      {r | first.val ≤ r.val ∧ r.val < first.val + order.size} := by
  refine ⟨fun s hs => ?_, fun s hs r _ h => ?_, fun r hr => ?_⟩
  · exact ⟨val_le_val_renumber, val_renumber_lt_add hs⟩
  · exact (renumber_inj hs).1 h
  · exact exists_renumber_eq hr.1 hr.2

/-- Renumbering makes no two states of a set one, and keeps their order. -/
theorem toList_map_renumber {S : StateSet} (hS : ∀ s ∈ S, s ∈ order) :
    (S.map (renumber order first)).toList = S.toList.map (renumber order first) := by
  apply OrderedSet.toList_map_of_distinct
  intro s hs r _ h
  rw [beq_iff_eq] at h ⊢
  exact (renumber_inj (hS s hs)).1 h

/-- Every id at the end of a step has been allocated. -/
def Allocated (host : Automaton L) : Prop :=
  ∀ t ∈ host.transitions,
    t.source.val < host.nextId.val ∧ t.destination.val < host.nextId.val

theorem allocated_empty : (∅ : Automaton L).Allocated := fun _ ht => nomatch ht

/-- The steps of the copy come after those of the host, in their order and all of them. -/
theorem toList_transitions_place (hhost : host.Allocated) :
    (A.place host).1.transitions.toList =
      host.transitions.toList ++
        A.transitions.toList.map (·.mapStates (renumber A.states host.nextId)) := by
  refine OrderedSet.toList_insertAll_of_distinct (List.pairwise_append.2 ⟨?_, ?_, ?_⟩)
  · exact host.transitions.distinct
  · refine List.pairwise_map.2 (A.transitions.distinct.imp_of_mem fun {t u} ht hu hne => ?_)
    refine Bool.eq_false_iff.2 fun heq => Bool.eq_false_iff.1 hne ?_
    obtain ⟨hsource, hlabel, hdestination⟩ := Transition.beq_iff.1 heq
    exact Transition.beq_iff.2 ⟨(renumber_inj (source_mem_states ht)).1 hsource, hlabel,
      (renumber_inj (destination_mem_states ht)).1 hdestination⟩
  · intro t ht u hu
    obtain ⟨u, -, rfl⟩ := List.mem_map.1 hu
    refine Bool.eq_false_iff.2 fun heq => ?_
    have hsource : t.source = renumber A.states host.nextId u.source :=
      (Transition.beq_iff.1 heq).1
    have hnew : host.nextId.val ≤ t.source.val := hsource ▸ val_le_val_renumber
    exact absurd (hhost t ht).1 (Nat.not_lt.2 hnew)

/-! ### Copies -/

/-- A state in the automaton's copy. -/
def copyId (A : Automaton L) (s : StateId) : StateId := renumber A.states 0 s

theorem toList_transitions_copy :
    A.copy.transitions.toList = A.transitions.toList.map (·.mapStates A.copyId) :=
  toList_transitions_place allocated_empty

theorem copyId_inj (hs : s ∈ A.states) : A.copyId s = A.copyId r ↔ s = r := renumber_inj hs

theorem renaming_copy [EquivBEq L] (A : Automaton L) : Renaming A A.copy A.copyId :=
  renaming_of_toList_eq (fun _ hs _ _ h => (copyId_inj hs).1 h) (fun _ => OrderedSet.mem_map)
    (fun _ => OrderedSet.mem_map) toList_transitions_copy

end FiniteAutomata.Automaton
