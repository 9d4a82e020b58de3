import FiniteAutomata.Proofs.Placement
import Mathlib.Data.List.Forall2

/-!
# Copies side by side

Union and concatenation place a copy of each operand in one host, one after the other. Every copy is
embedded, with all its ids below those of the next one, so a path stays in the copy in which it
begins. Each statement about a list of operands is then an induction on the list: the first copy is
below a bound and the others are above it.
-/

namespace FiniteAutomata.Automaton

universe u

variable {L : Type u} [BEq L] {A B host : Automaton L} {f : StateId → StateId} {s x y : StateId}
  {part : Ends} {parts : List Ends} {operands : List (Automaton L)} {first next : Nat}
  {t : Transition L} {w : List L}

/-- The part is a copy of `A` in `B`, with ids from `first` on and below `next`. -/
structure CopiedAs (A B : Automaton L) (part : Ends) (first next : Nat)
    (f : StateId → StateId) : Prop where
  embedding : Embedding A B f
  initials : ∀ x, x ∈ part.initials ↔ ∃ s ∈ A.initials, f s = x
  finals : ∀ x, x ∈ part.finals ↔ ∃ s ∈ A.finals, f s = x
  first_le_next : first ≤ next
  first_le : ∀ s ∈ A.states, first ≤ (f s).val
  lt_next : ∀ s ∈ A.states, (f s).val < next

/-- The parts are copies of the operands, in order, with ids from `first` on. -/
inductive Parts (B : Automaton L) : Nat → List (Automaton L) → List Ends → Prop where
  | nil (first : Nat) : Parts B first [] []
  | cons {A : Automaton L} {part : Ends} {operands : List (Automaton L)} {parts : List Ends}
      {first next : Nat} {f : StateId → StateId} (hcopy : CopiedAs A B part first next f)
      (hrest : Parts B next operands parts) : Parts B first (A :: operands) (part :: parts)

/-! ### One copy -/

theorem CopiedAs.mem_range_of_initial (h : CopiedAs A B part first next f)
    (hx : x ∈ part.initials) : first ≤ x.val ∧ x.val < next := by
  obtain ⟨s, hs, rfl⟩ := (h.initials x).1 hx
  have hs := mem_states_of_mem_initials hs
  exact ⟨h.first_le s hs, h.lt_next s hs⟩

theorem CopiedAs.mem_range_of_final (h : CopiedAs A B part first next f)
    (hx : x ∈ part.finals) : first ≤ x.val ∧ x.val < next := by
  obtain ⟨s, hs, rfl⟩ := (h.finals x).1 hx
  have hs := mem_states_of_mem_finals hs
  exact ⟨h.first_le s hs, h.lt_next s hs⟩

section Path

variable [EquivBEq L]

/-- A path from an initial state of the copy stays in it. -/
theorem CopiedAs.mem_range_of_path (h : CopiedAs A B part first next f) (hx : x ∈ part.initials)
    (hpath : B.Path x w y) : first ≤ y.val ∧ y.val < next := by
  obtain ⟨s, hs, hfs⟩ := (h.initials x).1 hx
  obtain ⟨r, hr, rfl, -⟩ := h.embedding.exists_path hpath (mem_states_of_mem_initials hs) hfs
  exact ⟨h.first_le r hr, h.lt_next r hr⟩

theorem CopiedAs.accepts_iff (h : CopiedAs A B part first next f) :
    A.Accepts w ↔ ∃ x ∈ part.initials, ∃ y ∈ part.finals, B.Path x w y := by
  refine ⟨fun haccepts => ?_, fun hpath => ?_⟩
  · obtain ⟨s, hs, r, hr, hpath⟩ := haccepts
    exact ⟨f s, (h.initials _).2 ⟨s, hs, rfl⟩, f r, (h.finals _).2 ⟨r, hr, rfl⟩,
      h.embedding.path hpath⟩
  · obtain ⟨x, hx, y, hy, hpath⟩ := hpath
    obtain ⟨s, hs, hfs⟩ := (h.initials x).1 hx
    obtain ⟨r, hr, hfr, hpath'⟩ :=
      h.embedding.exists_path hpath (mem_states_of_mem_initials hs) hfs
    obtain ⟨t, ht, hft⟩ := (h.finals y).1 hy
    obtain rfl := h.embedding.injective t (mem_states_of_mem_finals ht) r hr (hft.trans hfr.symm)
    exact ⟨s, hs, t, ht, hpath'⟩

end Path

/-! ### All copies -/

theorem Parts.first_le_of_final (h : Parts B first operands parts) (hpart : part ∈ parts)
    (hx : x ∈ part.finals) : first ≤ x.val := by
  induction h with
  | nil => cases hpart
  | cons hcopy _ ih =>
      rcases List.mem_cons.1 hpart with rfl | hpart
      · exact (hcopy.mem_range_of_final hx).1
      · exact hcopy.first_le_next.trans (ih hpart)

theorem Parts.exists_copiedAs (h : Parts B first operands parts) (hpart : part ∈ parts) :
    ∃ A ∈ operands, ∃ lower upper f, CopiedAs A B part lower upper f := by
  induction h with
  | nil => cases hpart
  | cons hcopy _ ih =>
      rcases List.mem_cons.1 hpart with rfl | hpart
      · exact ⟨_, List.mem_cons_self, _, _, _, hcopy⟩
      · obtain ⟨A, hA, hcopied⟩ := ih hpart
        exact ⟨A, List.mem_cons_of_mem _ hA, hcopied⟩

/-! ### Placing -/

theorem val_nextId_place :
    (A.place host).1.nextId.val = host.nextId.val + A.states.toList.length := rfl

theorem val_renumber_lt (host : Automaton L) (hs : s ∈ A.states) :
    (renumber A.states host.nextId s).val < (A.place host).1.nextId.val :=
  val_renumber_lt_add hs

theorem mem_transitions_place (hhost : host.Allocated) :
    t ∈ (A.place host).1.transitions ↔ t ∈ host.transitions ∨
      ∃ u ∈ A.transitions, u.mapStates (renumber A.states host.nextId) = t := by
  rw [OrderedSet.mem_iff, toList_transitions_place hhost, List.mem_append, List.mem_map]
  rfl

theorem allocated_place (A : Automaton L) (hhost : host.Allocated) : (A.place host).1.Allocated := by
  intro t ht
  rcases (mem_transitions_place hhost).1 ht with ht | ⟨u, hu, rfl⟩
  · obtain ⟨hsource, hdestination⟩ := hhost t ht
    rw [val_nextId_place]
    omega
  · exact ⟨val_renumber_lt host (source_mem_states hu),
      val_renumber_lt host (destination_mem_states hu)⟩

theorem embedding_place [EquivBEq L] (hhost : host.Allocated) :
    Embedding A (A.place host).1 (renumber A.states host.nextId) where
  injective s hs t _ h := (renumber_inj hs).1 h
  transition_of_mem t ht := by
    apply OrderedSet.contains_of_mem
    exact (mem_transitions_place hhost).2 (.inr ⟨t, ht, rfl⟩)
  exists_of_touching u hu s _ htouch := by
    rcases (mem_transitions_place hhost).1 hu with hu | ⟨t, ht, rfl⟩
    · obtain ⟨hsource, hdestination⟩ := hhost u hu
      have hnew : host.nextId.val ≤ (renumber A.states host.nextId s).val := val_le_val_renumber
      rcases htouch with htouch | htouch
      · rw [htouch] at hsource
        omega
      · rw [htouch] at hdestination
        omega
    · exact ⟨t, ht, BEq.rfl⟩

/-- Later copies have new ids at the ends of all their steps. -/
theorem exists_toList_placeAll (operands : List (Automaton L)) (hhost : host.Allocated) :
    ∃ l, (placeAll operands host).1.transitions.toList = host.transitions.toList ++ l ∧
      ∀ u ∈ l, host.nextId.val ≤ u.source.val ∧ host.nextId.val ≤ u.destination.val := by
  induction operands generalizing host with
  | nil => exact ⟨[], (List.append_nil _).symm, nofun⟩
  | cons A operands ih =>
      obtain ⟨l, hl, hnew⟩ := ih (allocated_place A hhost)
      rw [toList_transitions_place hhost, List.append_assoc] at hl
      refine ⟨_, hl, fun u hu => ?_⟩
      rcases List.mem_append.1 hu with hu | hu
      · obtain ⟨t, -, rfl⟩ := List.mem_map.1 hu
        exact ⟨val_le_val_renumber, val_le_val_renumber⟩
      · obtain ⟨hsource, hdestination⟩ := hnew u hu
        rw [val_nextId_place] at hsource hdestination
        omega

theorem copiedAs_place [EquivBEq L] (A : Automaton L) (operands : List (Automaton L))
    (hhost : host.Allocated) :
    CopiedAs A (placeAll operands (A.place host).1).1 (A.place host).2 host.nextId.val
      (A.place host).1.nextId.val (renumber A.states host.nextId) where
  embedding := by
    obtain ⟨l, hl, hnew⟩ := exists_toList_placeAll operands (allocated_place A hhost)
    refine (embedding_place hhost).extend hl fun u hu s hs => ?_
    obtain ⟨hsource, hdestination⟩ := hnew u hu
    have hlt := val_renumber_lt host hs
    refine ⟨fun h => ?_, fun h => ?_⟩
    · rw [h] at hsource
      omega
    · rw [h] at hdestination
      omega
  initials x := OrderedSet.mem_map
  finals x := OrderedSet.mem_map
  first_le_next := Nat.le_add_right _ _
  first_le s _ := val_le_val_renumber
  lt_next s hs := val_renumber_lt host hs

theorem parts_placeAll [EquivBEq L] (hhost : host.Allocated) :
    Parts (placeAll operands host).1 host.nextId.val operands (placeAll operands host).2 := by
  induction operands generalizing host with
  | nil => exact .nil _
  | cons A operands ih => exact .cons (copiedAs_place A operands hhost) (ih (allocated_place A hhost))

end FiniteAutomata.Automaton
