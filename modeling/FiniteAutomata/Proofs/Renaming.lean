import FiniteAutomata.Automaton.Isomorphism
import FiniteAutomata.Proofs.Embedding
import Mathlib.Data.Set.Function

/-!
# Renamed automata

A renaming carries the states of one automaton one to one onto those of the other, and paths onto
paths that spell the same words. So a state and its image have the same two languages, and isomorphic
automata accept the same words.
-/

namespace FiniteAutomata.Automaton

universe u

variable {L : Type u} [BEq L] {A B : Automaton L} {f : StateId → StateId} {s r x y : StateId}
  {w : List L}

namespace Renaming

/-- An automaton under other names is embedded, with nothing beside it. -/
theorem embedding (hf : Renaming A B f) : Embedding A B f where
  injective := hf.injective
  transition_of_mem := hf.transition_of_mem
  exists_of_touching u hu _ _ _ := hf.exists_of_transition u hu

/-! ### States -/

theorem exists_transition_of_mem (hf : Renaming A B f) {u : Transition L}
    (hu : u ∈ B.transitions) :
    ∃ t ∈ A.transitions, f t.source = u.source ∧ (t.label == u.label) = true ∧
      f t.destination = u.destination := by
  obtain ⟨t, ht, heq⟩ := hf.exists_of_transition u hu
  exact ⟨t, ht, Transition.beq_iff.1 heq⟩

/-- The states of the one automaton are the images of the states of the other. -/
theorem mem_states_iff (hf : Renaming A B f) : r ∈ B.states ↔ ∃ s ∈ A.states, f s = r := by
  refine ⟨fun hr => ?_, fun h => ?_⟩
  · rcases Automaton.mem_states_iff.1 hr with hr | ⟨u, hu, hr⟩ | hr
    · obtain ⟨s, hs, hfs⟩ := (hf.initials r).1 hr
      exact ⟨s, mem_states_of_mem_initials hs, hfs⟩
    · obtain ⟨t, ht, hsource, -, hdestination⟩ := hf.exists_transition_of_mem hu
      rcases hr with rfl | rfl
      · exact ⟨t.source, source_mem_states ht, hsource⟩
      · exact ⟨t.destination, destination_mem_states ht, hdestination⟩
    · obtain ⟨s, hs, hfs⟩ := (hf.finals r).1 hr
      exact ⟨s, mem_states_of_mem_finals hs, hfs⟩
  · obtain ⟨s, hs, rfl⟩ := h
    rcases Automaton.mem_states_iff.1 hs with hs | ⟨t, ht, hs⟩ | hs
    · exact mem_states_of_mem_initials ((hf.initials _).2 ⟨s, hs, rfl⟩)
    · obtain ⟨u, hu, hsource, -, hdestination⟩ := hf.embedding.exists_image_of_mem ht
      rcases hs with rfl | rfl
      · exact hsource ▸ source_mem_states hu
      · exact hdestination ▸ destination_mem_states hu
    · exact mem_states_of_mem_finals ((hf.finals _).2 ⟨s, hs, rfl⟩)

theorem bijOn (hf : Renaming A B f) : Set.BijOn f {s | s ∈ A.states} {s | s ∈ B.states} := by
  refine ⟨fun s hs => hf.mem_states_iff.2 ⟨s, hs, rfl⟩, fun s hs t ht => ?_, fun r hr => ?_⟩
  · exact hf.injective s hs t ht
  · exact hf.mem_states_iff.1 hr

/-! ### Paths -/

section Path

variable [EquivBEq L]

theorem path (hf : Renaming A B f) (h : A.Path s w r) : B.Path (f s) w (f r) :=
  hf.embedding.path h

/-- A path between images comes from a path between states. -/
theorem exists_path (hf : Renaming A B f) (h : B.Path x w y) (hs : s ∈ A.states) (hx : f s = x) :
    ∃ r ∈ A.states, f r = y ∧ A.Path s w r :=
  hf.embedding.exists_path h hs hx

theorem leadsTo_iff (hf : Renaming A B f) (hs : s ∈ A.states) :
    B.LeadsTo w (f s) ↔ A.LeadsTo w s := by
  refine ⟨fun h => ?_, fun h => ?_⟩
  · obtain ⟨x, hx, hpath⟩ := h
    obtain ⟨i, hi, hfi⟩ := (hf.initials x).1 hx
    obtain ⟨r, hr, hfr, hpath'⟩ := hf.exists_path hpath (mem_states_of_mem_initials hi) hfi
    obtain rfl := hf.injective r hr s hs hfr
    exact ⟨i, hi, hpath'⟩
  · obtain ⟨i, hi, hpath⟩ := h
    exact ⟨f i, (hf.initials _).2 ⟨i, hi, rfl⟩, hf.path hpath⟩

theorem acceptsFrom_iff (hf : Renaming A B f) (hs : s ∈ A.states) :
    B.AcceptsFrom (f s) w ↔ A.AcceptsFrom s w := by
  refine ⟨fun h => ?_, fun h => ?_⟩
  · obtain ⟨y, hy, hpath⟩ := h
    obtain ⟨r, hr, hfr, hpath'⟩ := hf.exists_path hpath hs rfl
    obtain ⟨t, ht, hft⟩ := (hf.finals y).1 hy
    obtain rfl := hf.injective t (mem_states_of_mem_finals ht) r hr (hft.trans hfr.symm)
    exact ⟨t, ht, hpath'⟩
  · obtain ⟨t, ht, hpath⟩ := h
    exact ⟨f t, (hf.finals _).2 ⟨t, ht, rfl⟩, hf.path hpath⟩

theorem accepts_iff (hf : Renaming A B f) : B.Accepts w ↔ A.Accepts w := by
  rw [accepts_iff_exists_leadsTo, accepts_iff_exists_leadsTo]
  refine ⟨fun h => ?_, fun h => ?_⟩
  · obtain ⟨y, hy, hleads⟩ := h
    obtain ⟨t, ht, rfl⟩ := (hf.finals y).1 hy
    exact ⟨t, ht, (hf.leadsTo_iff (mem_states_of_mem_finals ht)).1 hleads⟩
  · obtain ⟨t, ht, hleads⟩ := h
    exact ⟨f t, (hf.finals _).2 ⟨t, ht, rfl⟩,
      (hf.leadsTo_iff (mem_states_of_mem_finals ht)).2 hleads⟩

end Path

end Renaming

/-- A renaming may be given by the list of the renamed steps. -/
theorem renaming_of_toList_eq [EquivBEq L]
    (hinj : ∀ s ∈ A.states, ∀ t ∈ A.states, f s = f t → s = t)
    (hinitials : ∀ r, r ∈ B.initials ↔ ∃ s ∈ A.initials, f s = r)
    (hfinals : ∀ r, r ∈ B.finals ↔ ∃ s ∈ A.finals, f s = r)
    (hsteps : B.transitions.toList = A.transitions.toList.map (·.mapStates f)) : Renaming A B f where
  injective := hinj
  initials := hinitials
  finals := hfinals
  transition_of_mem t ht := by
    apply OrderedSet.contains_of_mem
    rw [OrderedSet.mem_iff, hsteps]
    exact List.mem_map_of_mem ht
  exists_of_transition u hu := by
    rw [OrderedSet.mem_iff, hsteps] at hu
    obtain ⟨t, ht, rfl⟩ := List.mem_map.1 hu
    exact ⟨t, ht, BEq.rfl⟩

end FiniteAutomata.Automaton
