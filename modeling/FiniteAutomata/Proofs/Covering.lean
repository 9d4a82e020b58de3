import FiniteAutomata.Automaton.Isomorphism
import FiniteAutomata.Proofs.Determinism
import Mathlib.Data.List.Nodup

/-!
# Automata that cover one another

In a deterministic automaton whose states all have a word, a state is known by the words that lead to
it. One automaton covers another when it has a state for every word for which the other has one, and
brings no two words together that the other keeps apart. Then the states that a word leads to in the
two automata are companions, no state is a companion of two, and the covered automaton is not larger
than the covering one. Two automata that cover each other and accept the same words are isomorphic.
-/

namespace FiniteAutomata

universe u v

/-- A set is not larger than another if its elements have different partners there. -/
theorem OrderedSet.size_le_of_partners {α : Type u} {β : Type v} [BEq α] [ReflBEq α] [BEq β]
    {s : OrderedSet α} {t : OrderedSet β} {R : α → β → Prop}
    (hpartner : ∀ a ∈ s, ∃ b ∈ t, R a b)
    (hdifferent : ∀ a ∈ s, ∀ a' ∈ s, ∀ b, R a b → R a' b → a = a') : s.size ≤ t.size := by
  choose f hmem hrel using hpartner
  have hnodup : (s.toList.pmap f fun _ h => h).Nodup :=
    s.nodup_toList.pmap fun a ha a' ha' heq =>
      hdifferent a ha a' ha' _ (hrel a ha) (heq ▸ hrel a' ha')
  have hsubset : s.toList.pmap f (fun _ h => h) ⊆ t.toList := by
    intro b hb
    obtain ⟨a, ha, rfl⟩ := List.mem_pmap.1 hb
    exact hmem a ha
  have hlength := hnodup.length_le_of_subset hsubset
  rwa [List.length_pmap] at hlength

namespace Automaton

variable {L : Type u} [BEq L] {M N : Automaton L} {s s' q q' : StateId} {v w : List L}
  {t : Transition L}

/-- Two words lead to one state. -/
def Meet (M : Automaton L) (v w : List L) : Prop := ∃ s, M.LeadsTo v s ∧ M.LeadsTo w s

/-- `N` has a state for every word for which `M` has one, and brings no two of these words together
that `M` keeps apart. -/
structure Covers (N M : Automaton L) : Prop where
  live : ∀ w, M.Live w → N.Live w
  meet : ∀ v w, M.Live v → M.Live w → N.Meet v w → M.Meet v w

/-- Some word leads to the one state in `M` and to the other in `N`. -/
def Companion (M N : Automaton L) (s q : StateId) : Prop := ∃ w, M.LeadsTo w s ∧ N.LeadsTo w q

theorem Companion.symm (h : Companion M N s q) : Companion N M q s := by
  obtain ⟨w, hs, hq⟩ := h
  exact ⟨w, hq, hs⟩

/-! ### Companions of states and steps -/

theorem Covers.exists_companion (h : N.Covers M) (hacc : M.Accessible) (hs : s ∈ M.states) :
    ∃ q ∈ N.states, Companion M N s q := by
  obtain ⟨w, hw⟩ := hacc s hs
  obtain ⟨q, hq⟩ := h.live w ⟨s, hw⟩
  exact ⟨q, hq.mem_states, w, hw, hq⟩

section Deterministic

variable [EquivBEq L] (hM : M.isDeterministic = true)

include hM

theorem Covers.eq_of_companion (h : N.Covers M) (hs : Companion M N s q)
    (hs' : Companion M N s' q) : s = s' := by
  obtain ⟨v, hvs, hvq⟩ := hs
  obtain ⟨w, hws, hwq⟩ := hs'
  obtain ⟨r, hvr, hwr⟩ := h.meet v w ⟨s, hvs⟩ ⟨s', hws⟩ ⟨q, hvq, hwq⟩
  obtain rfl := hvs.eq_of_isDeterministic hM hvr
  exact hwr.eq_of_isDeterministic hM hws

/-- Companions accept the same words if their automata do. -/
theorem Companion.acceptsFrom_iff (hN : N.isDeterministic = true)
    (hwords : ∀ w, M.Accepts w ↔ N.Accepts w) (h : Companion M N s q) :
    M.AcceptsFrom s w ↔ N.AcceptsFrom q w := by
  obtain ⟨v, hs, hq⟩ := h
  rw [hs.acceptsFrom_iff hM, hq.acceptsFrom_iff hN, hwords]

/-- Every step has a companion, which carries an equal label between companions of its ends. -/
theorem Covers.exists_companion_step (hN : N.isDeterministic = true) (h : N.Covers M)
    (hacc : M.Accessible) (ht : t ∈ M.transitions) :
    ∃ u ∈ N.transitions, Companion M N t.source u.source ∧ (t.label == u.label) = true ∧
      Companion M N t.destination u.destination := by
  obtain ⟨s, label, r⟩ := t
  cases label with
  | none => exact absurd ht (silent_not_mem_of_isDeterministic hM)
  | some symbol =>
      obtain ⟨w, hs⟩ := hacc s (source_mem_states ht)
      have hr : M.LeadsTo (w ++ [symbol]) r := hs.append (.read ht BEq.rfl (.nil r))
      obtain ⟨q', hq'⟩ := h.live _ ⟨r, hr⟩
      obtain ⟨q, hq, hpath⟩ := leadsTo_append_iff.1 hq'
      obtain ⟨label, hu, hlabel⟩ := (path_singleton_iff_of_isDeterministic hN).1 hpath
      exact ⟨_, hu, ⟨w, hs, hq⟩, PartialEquivBEq.symm (α := L) hlabel, w ++ [symbol], hr, hq'⟩

/-! ### Sizes -/

theorem Covers.numStates_le (h : N.Covers M) (hacc : M.Accessible) :
    M.numStates ≤ N.numStates :=
  OrderedSet.size_le_of_partners (fun _ hs => h.exists_companion hacc hs)
    fun _ _ _ _ _ hs hs' => h.eq_of_companion hM hs hs'

theorem Covers.size_transitions_le (hN : N.isDeterministic = true) (hcover : N.Covers M)
    (hacc : M.Accessible) : M.transitions.size ≤ N.transitions.size := by
  refine OrderedSet.size_le_of_partners
    (R := fun t u => Companion M N t.source u.source ∧ (t.label == u.label) = true) ?_ ?_
  · intro t ht
    obtain ⟨u, hu, hsource, hlabel, -⟩ := hcover.exists_companion_step hM hN hacc ht
    exact ⟨u, hu, hsource, hlabel⟩
  · intro t ht t' ht' u h h'
    obtain ⟨hsource, hlabel⟩ := h
    obtain ⟨hsource', hlabel'⟩ := h'
    -- The steps leave one state on equal labels, which a deterministic automaton has once.
    exact (isDeterministic_iff_clash.1 hM).2.2 t ht t' ht'
      ⟨hcover.eq_of_companion hM hsource hsource',
        PartialEquivBEq.trans hlabel (PartialEquivBEq.symm hlabel')⟩

/-! ### Isomorphism -/

theorem Companion.mem_initials (hN : N.isDeterministic = true) (hcover : N.Covers M)
    (hcover' : M.Covers N) (h : Companion M N s q) (hs : s ∈ M.initials) : q ∈ N.initials := by
  have hleads := (mem_initials_iff_of_isDeterministic hM).1 hs
  obtain ⟨q', hq'⟩ := hcover.live [] ⟨s, hleads⟩
  have hsame : q' = q := hcover'.eq_of_companion hN ⟨[], hq', hleads⟩ h.symm
  exact hsame ▸ (mem_initials_iff_of_isDeterministic hN).2 hq'

theorem Companion.mem_finals (hN : N.isDeterministic = true)
    (hwords : ∀ w, M.Accepts w ↔ N.Accepts w) (h : Companion M N s q) (hs : s ∈ M.finals) :
    q ∈ N.finals := by
  rw [mem_finals_iff_of_isDeterministic hM] at hs
  exact (mem_finals_iff_of_isDeterministic hN).2 ((h.acceptsFrom_iff hM hN hwords).1 hs)

theorem Covers.eq_image_of_companion (hcover : N.Covers M) {f : StateId → StateId}
    (hf : ∀ q ∈ N.states, Companion N M q (f q)) (h : Companion N M q s) : f q = s := by
  obtain ⟨w, hq, hs⟩ := h
  exact hcover.eq_of_companion hM (hf q hq.mem_states).symm ⟨w, hs, hq⟩

/-- A renaming that gives every state its companion. -/
theorem renaming_of_companion (hN : N.isDeterministic = true) (hMacc : M.Accessible)
    (hNacc : N.Accessible) (hcover : N.Covers M) (hcover' : M.Covers N)
    (hwords : ∀ w, M.Accepts w ↔ N.Accepts w) {f : StateId → StateId}
    (hf : ∀ s ∈ M.states, Companion M N s (f s)) : Renaming M N f where
  injective s hs t ht heq := hcover.eq_of_companion hM (hf s hs) (heq ▸ hf t ht)
  initials q := by
    refine ⟨fun hq => ?_, fun h => ?_⟩
    · obtain ⟨s, -, hs⟩ := hcover'.exists_companion hNacc (mem_states_of_mem_initials hq)
      exact ⟨s, hs.mem_initials hN hM hcover' hcover hq, hcover'.eq_image_of_companion hN hf hs.symm⟩
    · obtain ⟨s, hs, rfl⟩ := h
      exact (hf s (mem_states_of_mem_initials hs)).mem_initials hM hN hcover hcover' hs
  finals q := by
    refine ⟨fun hq => ?_, fun h => ?_⟩
    · obtain ⟨s, -, hs⟩ := hcover'.exists_companion hNacc (mem_states_of_mem_finals hq)
      exact ⟨s, hs.mem_finals hN hM (fun w => (hwords w).symm) hq,
        hcover'.eq_image_of_companion hN hf hs.symm⟩
    · obtain ⟨s, hs, rfl⟩ := h
      exact (hf s (mem_states_of_mem_finals hs)).mem_finals hM hN hwords hs
  transition_of_mem t ht := by
    obtain ⟨u, hu, hsource, hlabel, hdestination⟩ := hcover.exists_companion_step hM hN hMacc ht
    have hsource' := hcover'.eq_image_of_companion hN hf hsource
    have hdestination' := hcover'.eq_image_of_companion hN hf hdestination
    exact OrderedSet.contains_iff_exists.2 ⟨u, hu, Transition.beq_iff.2
      ⟨hsource'.symm, PartialEquivBEq.symm hlabel, hdestination'.symm⟩⟩
  exists_of_transition u hu := by
    obtain ⟨t, ht, hsource, hlabel, hdestination⟩ := hcover'.exists_companion_step hN hM hNacc hu
    have hsource' := hcover'.eq_image_of_companion hN hf hsource.symm
    have hdestination' := hcover'.eq_image_of_companion hN hf hdestination.symm
    exact ⟨t, ht, Transition.beq_iff.2 ⟨hsource', PartialEquivBEq.symm hlabel, hdestination'⟩⟩

theorem isomorphic_of_covers (hN : N.isDeterministic = true) (hMacc : M.Accessible)
    (hNacc : N.Accessible) (hcover : N.Covers M) (hcover' : M.Covers N)
    (hwords : ∀ w, M.Accepts w ↔ N.Accepts w) : Isomorphic M N := by
  have hpartner : ∀ s, ∃ q, s ∈ M.states → Companion M N s q := by
    intro s
    by_cases hs : s ∈ M.states
    · obtain ⟨q, -, hq⟩ := hcover.exists_companion hMacc hs
      exact ⟨q, fun _ => hq⟩
    · exact ⟨s, fun h => absurd h hs⟩
  choose f hf using hpartner
  exact ⟨f, renaming_of_companion hM hN hMacc hNacc hcover hcover' hwords hf⟩

end Deterministic

end Automaton

end FiniteAutomata
