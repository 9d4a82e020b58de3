import FiniteAutomata.Proofs.History
import FiniteAutomata.Proofs.Numbering
import FiniteAutomata.Proofs.RepetitionTwice
import FiniteAutomata.Proofs.Reversal
import FiniteAutomata.Proofs.Union

/-!
# Ids that have been allocated

Joining may name any states at all, so an automaton can mention ids at or above its next one. An operand
of that kind does no harm. A copy is numbered by places in the operand's list of states, counted from the
host's next id, and every id that is renumbered has such a place. Only the host has to keep its ids below
its next one, and then no new id meets an old one.

Every composition begins with a host that mentions no id. Placing keeps the bound, and so does joining
states that are below it. Determinization counts its states from zero up to its next id. So the bound
holds of every result.
-/

namespace FiniteAutomata.Automaton

universe u

variable {L : Type u} [BEq L] {A B host : Automaton L} {part : Ends} {parts : List Ends}
  {operands : List (Automaton L)} {sources destinations : StateSet} {s : StateId} {limit limit' : Nat}

/-- Every id that the automaton mentions is below its next one. -/
def FullyAllocated (A : Automaton L) : Prop := ∀ s ∈ A.states, s.val < A.nextId.val

instance (A : Automaton L) : Decidable A.FullyAllocated :=
  inferInstanceAs (Decidable (∀ s ∈ A.states, s.val < A.nextId.val))

theorem fullyAllocated_iff : A.FullyAllocated ↔
    A.Allocated ∧ (∀ s ∈ A.initials, s.val < A.nextId.val) ∧ ∀ s ∈ A.finals, s.val < A.nextId.val := by
  constructor
  · intro h
    refine ⟨fun t ht => ?_, fun s hs => ?_, fun s hs => ?_⟩
    · exact ⟨h _ (source_mem_states ht), h _ (destination_mem_states ht)⟩
    · exact h s (mem_states_of_mem_initials hs)
    · exact h s (mem_states_of_mem_finals hs)
  · rintro ⟨hsteps, hinitials, hfinals⟩ s hs
    rcases mem_states_iff.1 hs with hs | ⟨t, ht, rfl | rfl⟩ | hs
    · exact hinitials s hs
    · exact (hsteps t ht).1
    · exact (hsteps t ht).2
    · exact hfinals s hs

theorem fullyAllocated_of_toList_states (h : A.states.toList = StateId.below A.nextId.val) :
    A.FullyAllocated := by
  intro s hs
  rwa [OrderedSet.mem_iff, h, StateId.mem_below] at hs

/-! ### One copy -/

theorem fullyAllocated_place (A : Automaton L) (hhost : host.FullyAllocated) :
    (A.place host).1.FullyAllocated := by
  obtain ⟨hsteps, hinitials, hfinals⟩ := fullyAllocated_iff.1 hhost
  have hnext : host.nextId.val ≤ (A.place host).1.nextId.val := Nat.le_add_right _ _
  refine fullyAllocated_iff.2 ⟨allocated_place A hsteps, fun s hs => ?_, fun s hs => ?_⟩
  · exact (hinitials s hs).trans_le hnext
  · exact (hfinals s hs).trans_le hnext

/-- A copy of `A` in `host` makes it `placed`. The states of `A` go by the names that `rename` gives, and
the copy has the ends `ends`. -/
structure AddsCopy (A host placed : Automaton L) (ends : Ends) (rename : StateId → StateId) :
    Prop where
  /-- Whatever is renamed is among the states listed. -/
  listed : (∀ s ∈ A.initials, s ∈ A.states) ∧
    (∀ t ∈ A.transitions, t.source ∈ A.states ∧ t.destination ∈ A.states) ∧
      ∀ s ∈ A.finals, s ∈ A.states
  /-- The states get the next ids of the host, in the order of their list. -/
  ids : A.states.toList.map rename = (List.range A.numStates).map (host.nextId + ·)
  bijOn : Set.BijOn rename {s | s ∈ A.states}
    {r | host.nextId.val ≤ r.val ∧ r.val < host.nextId.val + A.numStates}
  /-- No state of the host has one of these ids. -/
  apart : ∀ s ∈ A.states, rename s ∉ host.states
  /-- The steps come after those of the host, each of them. -/
  transitions : placed.transitions.toList =
    host.transitions.toList ++ A.transitions.toList.map (·.mapStates rename)
  initials : ends.initials.toList = A.initials.toList.map rename
  finals : ends.finals.toList = A.finals.toList.map rename
  nextId : placed.nextId.val = host.nextId.val + A.numStates
  /-- Matches begin and end where they did, and the one in progress goes on. -/
  kept : placed.initials = host.initials ∧ placed.finals = host.finals ∧
    placed.frontier = host.frontier
  /-- The next copy may be placed in the same way. -/
  fullyAllocated : placed.FullyAllocated

theorem addsCopy_place (A : Automaton L) (hhost : host.FullyAllocated) :
    AddsCopy A host (A.place host).1 (A.place host).2 (renumber A.states host.nextId) where
  listed := by
    refine ⟨fun s hs => ?_, fun t ht => ?_, fun s hs => ?_⟩
    · exact mem_states_of_mem_initials hs
    · exact ⟨source_mem_states ht, destination_mem_states ht⟩
    · exact mem_states_of_mem_finals hs
  ids := map_renumber A.states host.nextId
  bijOn := bijOn_renumber A.states host.nextId
  apart s _ hmem := by
    have hold := hhost _ hmem
    have hnew : host.nextId.val ≤ (renumber A.states host.nextId s).val := val_le_val_renumber
    omega
  transitions := toList_transitions_place (fullyAllocated_iff.1 hhost).1
  initials := toList_map_renumber fun _ => mem_states_of_mem_initials
  finals := toList_map_renumber fun _ => mem_states_of_mem_finals
  nextId := rfl
  kept := ⟨rfl, rfl, rfl⟩
  fullyAllocated := fullyAllocated_place A hhost

/-! ### Copies of all operands -/

/-- The ids of both ends are below `limit`. -/
def EndsBelow (limit : Nat) (part : Ends) : Prop :=
  (∀ s ∈ part.initials, s.val < limit) ∧ ∀ s ∈ part.finals, s.val < limit

theorem EndsBelow.mono (h : EndsBelow limit part) (hle : limit ≤ limit') : EndsBelow limit' part :=
  ⟨fun s hs => (h.1 s hs).trans_le hle, fun s hs => (h.2 s hs).trans_le hle⟩

theorem endsBelow_place (A host : Automaton L) :
    EndsBelow (A.place host).1.nextId.val (A.place host).2 := by
  constructor
  · intro r hr
    obtain ⟨s, hs, rfl⟩ := OrderedSet.mem_map.1 hr
    exact val_renumber_lt host (mem_states_of_mem_initials hs)
  · intro r hr
    obtain ⟨s, hs, rfl⟩ := OrderedSet.mem_map.1 hr
    exact val_renumber_lt host (mem_states_of_mem_finals hs)

theorem endsBelow_placeAll (operands : List (Automaton L)) (host : Automaton L) :
    ∀ part ∈ (placeAll operands host).2, EndsBelow (placeAll operands host).1.nextId.val part := by
  induction operands generalizing host with
  | nil => exact fun _ hpart => nomatch hpart
  | cons A operands ih =>
      -- Later copies only raise the next id, so the ends of this one stay below it.
      have hraised : (A.place host).1.nextId.val ≤
          (placeAll operands (A.place host).1).1.nextId.val := by
        rw [val_nextId_placeAll]
        exact Nat.le_add_right _ _
      intro part hpart
      rcases List.mem_cons.1 hpart with rfl | hpart
      · exact (endsBelow_place A host).mono hraised
      · exact ih (A.place host).1 part hpart

/-! ### Joined states -/

section Results

variable [EquivBEq L]

theorem fullyAllocated_fuse (hA : A.FullyAllocated) (hsources : ∀ s ∈ sources, s.val < A.nextId.val)
    (hdestinations : ∀ s ∈ destinations, s.val < A.nextId.val) :
    (A.fuse sources destinations).FullyAllocated := by
  obtain ⟨hsteps, hinitials, hfinals⟩ := fullyAllocated_iff.1 hA
  refine fullyAllocated_iff.2 ⟨fun t ht => ?_, hinitials, hfinals⟩
  rcases (joined_fuse A sources destinations t).1 ht with ht | ⟨p, q, ⟨hp, hq⟩, rfl⟩
  · exact hsteps t ht
  · exact ⟨hsources p hp, hdestinations q hq⟩

theorem fullyAllocated_chain (hhost : host.FullyAllocated)
    (hparts : ∀ part ∈ parts, EndsBelow host.nextId.val part) :
    (chain parts host).FullyAllocated := by
  induction parts generalizing host with
  | nil => exact hhost
  | cons part parts ih =>
      cases parts with
      | nil => exact hhost
      | cons next parts =>
          obtain ⟨hpart, hrest⟩ := List.forall_mem_cons.1 hparts
          have hnext := hrest next List.mem_cons_self
          exact ih (fullyAllocated_fuse hhost hpart.2 hnext.1) hrest

/-! ### Results of operations -/

theorem fullyAllocated_of_concat (h : concat operands = .ok A) : A.FullyAllocated := by
  cases operands with
  | nil => cases h
  | cons B operands =>
      rw [concat_cons] at h
      obtain rfl := Except.ok.inj h
      have hparts := endsBelow_placeAll (B :: operands) ∅
      have hsteps := allocated_placeAll (B :: operands) allocated_empty
      -- Matches get their ends before the parts are linked, so the bound holds by then.
      refine fullyAllocated_chain (fullyAllocated_iff.2 ⟨hsteps, ?_, ?_⟩) hparts
      · exact (hparts _ List.mem_cons_self).1
      · exact (hparts _ List.getLastD_mem_cons).2

theorem fullyAllocated_union (operands : List (Automaton L)) : (union operands).FullyAllocated := by
  have hnext : (union operands).nextId.val = (operands.map numStates).sum := by
    rw [union, foldl_join, val_nextId_placeAll]
    exact Nat.zero_add _
  intro s hs
  rw [hnext]
  exact mem_states_union_iff_lt.1 hs

theorem fullyAllocated_reverse (A : Automaton L) : A.reverse.FullyAllocated := by
  intro r hr
  obtain ⟨s, hs, rfl⟩ := mem_states_reverse_iff.1 hr
  exact val_renumber_lt ∅ hs

theorem fullyAllocated_determinize (A : Automaton L) : A.determinize.FullyAllocated :=
  fullyAllocated_of_toList_states (toList_states_determinize A)

theorem Built.fullyAllocated (h : A.Built) : A.FullyAllocated := by
  cases h with
  | empty => exact fullyAllocated_of_toList_states rfl
  | ofLabel label => exact fullyAllocated_of_toList_states rfl
  | union operands => exact fullyAllocated_union operands
  | concat h => exact fullyAllocated_of_concat h
  | seq A B => exact fullyAllocated_of_concat (concat_pair A B)
  | alt A B => exact fullyAllocated_union [A, B]
  | star A =>
      apply fullyAllocated_of_toList_states
      rw [toList_states_star, val_nextId_star]
  | reverse A => exact fullyAllocated_reverse A
  | copy A =>
      apply fullyAllocated_of_toList_states
      rw [toList_states_copy, val_nextId_copy]
  | determinize A => exact fullyAllocated_determinize A
  | minimize A => exact fullyAllocated_determinize A.reverse.determinize.reverse

/-- A copy of any automaton, placed in a host whose ids are all below its next one, takes the next ids of
the host for its states, in their order, and none that the host has. Its steps are added after the
host's, its ends are handed back, and the rest of the host stays. So every result of an operation keeps
its ids below its next one, and has no match in progress, whatever its operands are. -/
theorem place_in_fresh_ids :
    (∀ A host : Automaton L, host.FullyAllocated →
      AddsCopy A host (A.place host).1 (A.place host).2 (renumber A.states host.nextId)) ∧
      ∀ A : Automaton L, A.Built → A.FullyAllocated ∧ A.frontier = none := by
  constructor
  · intro A host hhost
    exact addsCopy_place A hhost
  · intro A hA
    exact ⟨hA.fullyAllocated, hA.frontier⟩

end Results

/-- A one and then a two, with its final state joined to a state that has not been allocated. -/
def strayed : Automaton Nat :=
  (seq (atom 1) (atom 2)).fuse (OrderedSet.ofList [3]) (OrderedSet.ofList [9])

/-- Placed in a host with a match in progress, the stray state gets the last of the new ids. -/
theorem place_in_fresh_ids_strayed :
    let host := (atom 5).reset
    ¬ strayed.FullyAllocated ∧ host.FullyAllocated ∧
      strayed.states.toList.map (renumber strayed.states host.nextId) = [2, 3, 4, 5, 6] ∧
      (strayed.place host).1.transitions.toList =
        [⟨0, some 5, 1⟩, ⟨2, some 1, 3⟩, ⟨4, some 2, 5⟩, ⟨3, none, 4⟩, ⟨5, none, 6⟩] ∧
      (strayed.place host).1.frontier = some (OrderedSet.ofList [0]) ∧
      (strayed.seq strayed).FullyAllocated ∧ (strayed.seq strayed).numStates = 10 := by
  intro host
  obtain ⟨hplace, hbuilt⟩ := place_in_fresh_ids (L := Nat)
  have hhost : host.FullyAllocated := by decide +kernel
  have hcopy := hplace strayed host hhost
  refine ⟨by decide +kernel, hhost, hcopy.ids.trans (by decide +kernel),
    hcopy.transitions.trans (by decide +kernel), hcopy.kept.2.2.trans (by decide +kernel),
    (hbuilt _ (.seq strayed strayed)).1, by decide +kernel⟩

end FiniteAutomata.Automaton
