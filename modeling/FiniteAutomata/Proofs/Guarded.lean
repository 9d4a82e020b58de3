import FiniteAutomata.Proofs.Composition
import FiniteAutomata.Proofs.Repetition
import FiniteAutomata.Proofs.Reversal

/-!
# Guarded automata

The automaton of one label is guarded and has ends of both kinds, and union, concatenation, copying
and reversal of such automata give such automata. So repetition is the Kleene star of whatever these
operations build. Repetition itself enters initial states, and determinization may.
-/

namespace FiniteAutomata.Automaton

universe u

variable {L : Type u} [BEq L] {A B C : Automaton L} {f : StateId → StateId} {part : Ends}
  {parts : List Ends} {operands : List (Automaton L)} {initials finals : StateSet}
  {first next : Nat} {t : Transition L} {p q : StateId}

/-! ### Embedded and renamed automata -/

/-- A step that enters the image of an initial state, or leaves that of a final one, does so in the
embedded automaton as well. -/
theorem Embedding.guarded (hf : Embedding A B f) (hA : A.Guarded)
    (hinitials : ∀ x ∈ initials, ∃ s ∈ A.initials, f s = x)
    (hfinals : ∀ x ∈ finals, ∃ s ∈ A.finals, f s = x) (ht : t ∈ B.transitions) :
    t.destination ∉ initials ∧ t.source ∉ finals := by
  refine ⟨fun hinitial => ?_, fun hfinal => ?_⟩
  · obtain ⟨s, hs, hfs⟩ := hinitials _ hinitial
    have hmem := mem_states_of_mem_initials hs
    obtain ⟨u, hu, heq⟩ := hf.exists_of_touching t ht s hmem (.inr hfs.symm)
    obtain rfl := hf.destination_eq hu heq hmem hfs.symm
    exact (hA u hu).1 hs
  · obtain ⟨s, hs, hfs⟩ := hfinals _ hfinal
    have hmem := mem_states_of_mem_finals hs
    obtain ⟨u, hu, heq⟩ := hf.exists_of_touching t ht s hmem (.inl hfs.symm)
    obtain rfl := hf.source_eq hu heq hmem hfs.symm
    exact (hA u hu).2 hs

theorem CopiedAs.guarded (h : CopiedAs A B part first next f) (hA : A.Guarded)
    (ht : t ∈ B.transitions) : t.destination ∉ part.initials ∧ t.source ∉ part.finals :=
  h.embedding.guarded hA (fun x => (h.initials x).1) (fun x => (h.finals x).1) ht

theorem Renaming.guarded (hf : Renaming A B f) (hA : A.Guarded) : B.Guarded := by
  intro t ht
  exact hf.embedding.guarded hA (fun x => (hf.initials x).1) (fun x => (hf.finals x).1) ht

theorem CopiedAs.exists_initial (h : CopiedAs A B part first next f) (hA : A.HasEnds) :
    ∃ x, x ∈ part.initials :=
  (OrderedSet.exists_mem_iff_of_image h.initials).2 hA.1

theorem CopiedAs.exists_final (h : CopiedAs A B part first next f) (hA : A.HasEnds) :
    ∃ x, x ∈ part.finals :=
  (OrderedSet.exists_mem_iff_of_image h.finals).2 hA.2

/-! ### The operations -/

/-- Guarded, with an initial state and a final one. -/
structure Repeatable (A : Automaton L) : Prop where
  guarded : A.Guarded
  hasEnds : A.HasEnds

theorem repeatable_ofLabel (label : Option L) : (ofLabel label).Repeatable where
  guarded t ht := by
    obtain rfl := mem_transitions_ofLabel_iff.1 ht
    refine ⟨fun h => ?_, fun h => ?_⟩
    · cases mem_initials_ofLabel_iff.1 h
    · cases mem_finals_ofLabel_iff.1 h
  hasEnds := ⟨⟨0, mem_initials_ofLabel_iff.2 rfl⟩, 1, mem_finals_ofLabel_iff.2 rfl⟩

variable [EquivBEq L]

theorem Repeatable.copy (h : A.Repeatable) : A.copy.Repeatable where
  guarded := (renaming_copy A).guarded h.guarded
  hasEnds := (renaming_copy A).hasEnds_iff.2 h.hasEnds

/-- Turning steps around exchanges the two conditions. -/
theorem Repeatable.reverse (h : A.Repeatable) : A.reverse.Repeatable where
  guarded _ ht := (h.copy.guarded _ (mem_transitions_reverse_iff.1 ht)).symm
  hasEnds := h.copy.hasEnds.symm

theorem repeatable_union (hne : operands ≠ []) (hall : ∀ A ∈ operands, A.Repeatable) :
    (union operands).Repeatable := by
  have hparts := parts_empty operands
  refine ⟨fun t ht => ?_, ?_⟩
  · rw [transitions_union] at ht
    rw [mem_initials_union_iff, mem_finals_union_iff]
    refine ⟨fun hinitial => ?_, fun hfinal => ?_⟩
    · obtain ⟨part, hpart, hmem⟩ := hinitial
      obtain ⟨A, hA, lower, upper, f, hcopy⟩ := hparts.exists_copiedAs hpart
      exact (hcopy.guarded (hall A hA).guarded ht).1 hmem
    · obtain ⟨part, hpart, hmem⟩ := hfinal
      obtain ⟨A, hA, lower, upper, f, hcopy⟩ := hparts.exists_copiedAs hpart
      exact (hcopy.guarded (hall A hA).guarded ht).2 hmem
  · obtain ⟨A, operands, rfl⟩ := List.exists_cons_of_ne_nil hne
    have hends := (hall A List.mem_cons_self).hasEnds
    have hcopy := copiedAs_place A operands allocated_empty
    obtain ⟨x, hx⟩ := hcopy.exists_initial hends
    obtain ⟨y, hy⟩ := hcopy.exists_final hends
    exact ⟨⟨x, mem_initials_union_iff.2 ⟨_, List.mem_cons_self, hx⟩⟩,
      y, mem_finals_union_iff.2 ⟨_, List.mem_cons_self, hy⟩⟩

omit [EquivBEq L] in
theorem Parts.not_mem_initials_of_linked (h : Parts B first operands (part :: parts))
    (hpq : Linked (part :: parts) p q) : q ∉ part.initials := by
  cases h with
  | cons hcopy hrest =>
      intro hinitial
      have hbelow := (hcopy.mem_range_of_initial hinitial).2
      have habove := hrest.first_le_target hpq
      omega

omit [EquivBEq L] in
/-- No silent step of a concatenation leaves the last part. -/
theorem Parts.not_mem_finals_of_linked (h : Parts B first operands (part :: parts))
    (hpq : Linked (part :: parts) p q) : p ∉ (parts.getLastD part).finals := by
  induction parts generalizing part first operands with
  | nil => cases hpq
  | cons part' parts ih =>
      cases h with
      | cons hcopy hrest =>
          rw [List.getLastD_cons]
          rcases hpq with ⟨hp, -⟩ | hpq
          · intro hlast
            have hbelow := (hcopy.mem_range_of_final hp).2
            have habove := hrest.first_le_of_final List.getLastD_mem_cons hlast
            omega
          · exact ih hrest hpq

theorem repeatable_concat (h : concat operands = .ok C) (hall : ∀ A ∈ operands, A.Repeatable) :
    C.Repeatable := by
  cases operands with
  | nil => cases h
  | cons A operands =>
      rw [concat_cons] at h
      obtain rfl := Except.ok.inj h
      have hparts := parts_empty (A :: operands)
      have hfirst := copiedAs_place A operands allocated_empty
      have hA := hall A List.mem_cons_self
      obtain ⟨Z, hZ, lower, upper, f, hlast⟩ := hparts.exists_copiedAs List.getLastD_mem_cons
      refine ⟨fun t ht => ?_, ?_⟩
      · rw [initials_chain, finals_chain]
        rcases (joined_chain _ _ t).1 ht with ht | ⟨p, q, hpq, rfl⟩
        · exact ⟨(hfirst.guarded hA.guarded ht).1, (hlast.guarded (hall Z hZ).guarded ht).2⟩
        · exact ⟨hparts.not_mem_initials_of_linked hpq, hparts.not_mem_finals_of_linked hpq⟩
      · rw [HasEnds, initials_chain, finals_chain]
        exact ⟨hfirst.exists_initial hA.hasEnds, hlast.exists_final (hall Z hZ).hasEnds⟩

end FiniteAutomata.Automaton
