import FiniteAutomata.Proofs.Composition
import Mathlib.Algebra.GroupWithZero.Nat

/-!
# Union, operand by operand

A union gives its ids out in order: those of the first copy, then those of the second, and so on
without a gap. The copy of the operand at place `k` therefore begins at the number of states of all
the operands before it, and every id below the total belongs to one state of one operand. So nothing
is shared and nothing is left over: the states and the steps of a union are as many as those of its
operands, and a path from a state of one operand is a path of that operand.
-/

namespace FiniteAutomata.Automaton

universe u

variable {L : Type u} [BEq L] {A B host : Automaton L} {operands : List (Automaton L)} {part : Ends}
  {s x y : StateId} {j k first : Nat} {w : List L}

/-! ### Where the copies begin -/

/-- The number of states of the operands before a place in the list. -/
def statesBefore : List (Automaton L) → Nat → Nat
  | [], _ => 0
  | _ :: _, 0 => 0
  | A :: operands, k + 1 => A.numStates + statesBefore operands k

/-- The id, in a union, of a state of the operand at place `k`. -/
def unionId (operands : List (Automaton L)) (k : Nat) (s : StateId) : StateId :=
  renumber ((operands[k]?.map states).getD ∅) ⟨statesBefore operands k⟩ s

theorem unionId_eq (hk : operands[k]? = some A) (s : StateId) :
    unionId operands k s = renumber A.states ⟨statesBefore operands k⟩ s := by
  rw [unionId, hk]
  rfl

theorem statesBefore_length : statesBefore operands operands.length =
    (operands.map numStates).sum := by
  induction operands with
  | nil => rfl
  | cons A operands ih => exact congrArg (A.numStates + ·) ih

/-- A copy ends before any later one begins. -/
theorem statesBefore_succ_le (operands : List (Automaton L)) (hjk : j < k) :
    statesBefore operands (j + 1) ≤ statesBefore operands k := by
  induction operands generalizing j k with
  | nil => exact Nat.le_refl _
  | cons A operands ih =>
      cases k with
      | zero => exact absurd hjk (Nat.not_lt_zero j)
      | succ k =>
          cases j with
          | zero =>
              cases operands <;> exact Nat.add_le_add_left (Nat.zero_le _) _
          | succ j => exact Nat.add_le_add_left (ih (Nat.lt_of_succ_lt_succ hjk)) _

/-- Every id below the total belongs to a state of some operand. -/
theorem exists_operand_of_lt (hfirst : first ≤ x.val)
    (hlt : x.val < first + (operands.map numStates).sum) :
    ∃ k A, operands[k]? = some A ∧
      ∃ s ∈ A.states, renumber A.states ⟨first + statesBefore operands k⟩ s = x := by
  induction operands generalizing first with
  | nil => exact absurd hlt (Nat.not_lt.2 hfirst)
  | cons A operands ih =>
      rw [List.map_cons, List.sum_cons] at hlt
      rcases Nat.lt_or_ge x.val (first + A.numStates) with hx | hx
      · have hfound : ∃ s ∈ A.states, renumber A.states ⟨first⟩ s = x :=
          exists_renumber_eq hfirst hx
        exact ⟨0, A, rfl, hfound⟩
      · obtain ⟨k, B, hk, s, hs, hname⟩ := ih hx (by omega)
        refine ⟨k + 1, B, hk, s, hs, ?_⟩
        rw [← hname, Nat.add_assoc]
        rfl

/-! ### The copies -/

theorem length_placeAll (operands : List (Automaton L)) (host : Automaton L) :
    (placeAll operands host).2.length = operands.length := by
  induction operands generalizing host with
  | nil => rfl
  | cons A operands ih => exact congrArg (· + 1) (ih (A.place host).1)

theorem val_nextId_empty : (∅ : Automaton L).nextId.val = 0 := rfl

theorem val_nextId_placeAll (operands : List (Automaton L)) (host : Automaton L) :
    (placeAll operands host).1.nextId.val = host.nextId.val + (operands.map numStates).sum := by
  induction operands generalizing host with
  | nil => rfl
  | cons A operands ih =>
      rw [placeAll_cons, ih, val_nextId_place, List.map_cons, List.sum_cons, Nat.add_assoc]
      rfl

theorem allocated_placeAll (operands : List (Automaton L)) (hhost : host.Allocated) :
    (placeAll operands host).1.Allocated := by
  induction operands generalizing host with
  | nil => exact hhost
  | cons A operands ih => exact ih (allocated_place A hhost)

theorem lt_of_mem_transitions_placeAll {t : Transition L}
    (ht : t ∈ (placeAll operands ∅).1.transitions) :
    t.source.val < (operands.map numStates).sum ∧
      t.destination.val < (operands.map numStates).sum := by
  have hends := allocated_placeAll operands allocated_empty t ht
  rwa [val_nextId_placeAll, val_nextId_empty, Nat.zero_add] at hends

theorem size_transitions_placeAll (operands : List (Automaton L)) (hhost : host.Allocated) :
    (placeAll operands host).1.transitions.size =
      host.transitions.size + (operands.map (·.transitions.size)).sum := by
  induction operands generalizing host with
  | nil => rfl
  | cons A operands ih =>
      have hplaced : (A.place host).1.transitions.size =
          host.transitions.size + A.transitions.size := by
        rw [OrderedSet.size, toList_transitions_place hhost, List.length_append, List.length_map]
        rfl
      rw [placeAll_cons, ih (allocated_place A hhost), hplaced, List.map_cons, List.sum_cons,
        Nat.add_assoc]

variable [EquivBEq L]

/-- The part at place `k` is a copy of the operand at that place. -/
theorem copiedAs_placeAll (hhost : host.Allocated) (hk : operands[k]? = some A)
    (hpart : (placeAll operands host).2[k]? = some part) :
    CopiedAs A (placeAll operands host).1 part (host.nextId.val + statesBefore operands k)
      (host.nextId.val + statesBefore operands (k + 1))
      (renumber A.states ⟨host.nextId.val + statesBefore operands k⟩) := by
  induction operands generalizing host k with
  | nil => cases hk
  | cons B operands ih =>
      cases k with
      | zero =>
          obtain rfl : B = A := Option.some.inj hk
          obtain rfl : (B.place host).2 = part := Option.some.inj hpart
          have hnext : statesBefore (B :: operands) 1 = B.numStates := by
            cases operands <;> rfl
          rw [hnext]
          exact copiedAs_place B operands hhost
      | succ k =>
          have hcopy := ih (allocated_place B hhost) hk hpart
          rw [val_nextId_place, Nat.add_assoc, Nat.add_assoc] at hcopy
          exact hcopy

theorem copiedAs_union (hk : operands[k]? = some A)
    (hpart : (placeAll operands ∅).2[k]? = some part) :
    CopiedAs A (placeAll operands ∅).1 part (statesBefore operands k) (statesBefore operands (k + 1))
      (unionId operands k) := by
  have hcopy := copiedAs_placeAll allocated_empty hk hpart
  rw [val_nextId_empty, Nat.zero_add, Nat.zero_add] at hcopy
  rw [show unionId operands k = _ from funext (unionId_eq hk)]
  exact hcopy

theorem exists_copiedAs_of_operand (hk : operands[k]? = some A) :
    ∃ part ∈ (placeAll operands ∅).2, CopiedAs A (placeAll operands ∅).1 part
      (statesBefore operands k) (statesBefore operands (k + 1)) (unionId operands k) := by
  have hlt : k < (placeAll operands ∅).2.length := by
    rw [length_placeAll]
    exact (List.getElem?_eq_some_iff.1 hk).1
  exact ⟨_, List.getElem_mem hlt, copiedAs_union hk (List.getElem?_eq_getElem hlt)⟩

theorem exists_copiedAs_of_part (hpart : part ∈ (placeAll operands ∅).2) :
    ∃ k A, operands[k]? = some A ∧ CopiedAs A (placeAll operands ∅).1 part
      (statesBefore operands k) (statesBefore operands (k + 1)) (unionId operands k) := by
  obtain ⟨k, hk⟩ := List.mem_iff_getElem?.1 hpart
  have hlt : k < operands.length := by
    rw [← length_placeAll operands ∅]
    exact (List.getElem?_eq_some_iff.1 hk).1
  exact ⟨k, operands[k], List.getElem?_eq_getElem hlt,
    copiedAs_union (List.getElem?_eq_getElem hlt) hk⟩

/-! ### Side by side -/

/-- `U` is made of the operands and of nothing else, with the names that `f k` gives to the states of
the operand at place `k`. -/
structure SideBySide (operands : List (Automaton L)) (U : Automaton L)
    (f : Nat → StateId → StateId) : Prop where
  /-- No name is given to two states. -/
  apart : ∀ j A k B, operands[j]? = some A → operands[k]? = some B →
    ∀ s ∈ A.states, ∀ r ∈ B.states, f j s = f k r → j = k ∧ s = r
  states : ∀ x, x ∈ U.states ↔ ∃ k A, operands[k]? = some A ∧ ∃ s ∈ A.states, f k s = x
  initials : ∀ x, x ∈ U.initials ↔ ∃ k A, operands[k]? = some A ∧ ∃ s ∈ A.initials, f k s = x
  finals : ∀ x, x ∈ U.finals ↔ ∃ k A, operands[k]? = some A ∧ ∃ s ∈ A.finals, f k s = x
  transitions : ∀ u, U.transitions.contains u = true ↔ ∃ (k : Nat) (A : Automaton L),
    operands[k]? = some A ∧ ∃ t ∈ A.transitions, (t.mapStates (f k) == u) = true
  /-- A path from a state of an operand is a path of that operand. -/
  path : ∀ k A, operands[k]? = some A → ∀ s ∈ A.states, ∀ w y,
    U.Path (f k s) w y ↔ ∃ r ∈ A.states, f k r = y ∧ A.Path s w r

theorem unionId_inj (hj : operands[j]? = some A) (hk : operands[k]? = some B) (hs : s ∈ A.states)
    (hr : x ∈ B.states) (h : unionId operands j s = unionId operands k x) : j = k ∧ s = x := by
  obtain ⟨_, -, hcopy⟩ := exists_copiedAs_of_operand hj
  obtain ⟨_, -, hcopy'⟩ := exists_copiedAs_of_operand hk
  have hrange := And.intro (hcopy.first_le s hs) (hcopy.lt_next s hs)
  have hrange' := And.intro (hcopy'.first_le x hr) (hcopy'.lt_next x hr)
  rw [h] at hrange
  rcases Nat.lt_trichotomy j k with hjk | rfl | hjk
  · have hbefore := statesBefore_succ_le operands hjk
    omega
  · obtain rfl : A = B := Option.some.inj (hj.symm.trans hk)
    exact ⟨rfl, hcopy.embedding.injective s hs x hr h⟩
  · have hbefore := statesBefore_succ_le operands hjk
    omega

/-- What the copies have at one of their ends, said of the operands. -/
theorem exists_part_iff {ends : Ends → StateSet} {own : Automaton L → StateSet}
    (hends : ∀ A part first next f, CopiedAs A (placeAll operands ∅).1 part first next f →
      (x ∈ ends part ↔ ∃ s ∈ own A, f s = x)) :
    (∃ part ∈ (placeAll operands ∅).2, x ∈ ends part) ↔
      ∃ k A, operands[k]? = some A ∧ ∃ s ∈ own A, unionId operands k s = x := by
  refine ⟨fun h => ?_, fun h => ?_⟩
  · obtain ⟨part, hpart, hx⟩ := h
    obtain ⟨k, A, hk, hcopy⟩ := exists_copiedAs_of_part hpart
    exact ⟨k, A, hk, (hends _ _ _ _ _ hcopy).1 hx⟩
  · obtain ⟨k, A, hk, hs⟩ := h
    obtain ⟨part, hpart, hcopy⟩ := exists_copiedAs_of_operand hk
    exact ⟨part, hpart, (hends _ _ _ _ _ hcopy).2 hs⟩

theorem mem_initials_union_iff_unionId : x ∈ (union operands).initials ↔
    ∃ k A, operands[k]? = some A ∧ ∃ s ∈ A.initials, unionId operands k s = x :=
  mem_initials_union_iff.trans (exists_part_iff fun _ _ _ _ _ hcopy => hcopy.initials x)

theorem mem_finals_union_iff_unionId : x ∈ (union operands).finals ↔
    ∃ k A, operands[k]? = some A ∧ ∃ s ∈ A.finals, unionId operands k s = x :=
  mem_finals_union_iff.trans (exists_part_iff fun _ _ _ _ _ hcopy => hcopy.finals x)

theorem unionId_mem_states (hk : operands[k]? = some A) (hs : s ∈ A.states) :
    unionId operands k s ∈ (union operands).states := by
  rcases mem_states_iff.1 hs with hs | ⟨t, ht, hs⟩ | hs
  · exact mem_states_of_mem_initials (mem_initials_union_iff_unionId.2 ⟨k, A, hk, s, hs, rfl⟩)
  · obtain ⟨_, -, hcopy⟩ := exists_copiedAs_of_operand hk
    obtain ⟨u, hu, hsource, -, hdestination⟩ := hcopy.embedding.exists_image_of_mem ht
    rw [← transitions_union] at hu
    rcases hs with rfl | rfl
    · exact hsource ▸ source_mem_states hu
    · exact hdestination ▸ destination_mem_states hu
  · exact mem_states_of_mem_finals (mem_finals_union_iff_unionId.2 ⟨k, A, hk, s, hs, rfl⟩)

omit [EquivBEq L] in
theorem exists_operand_of_lt_union (hlt : x.val < (operands.map numStates).sum) :
    ∃ k A, operands[k]? = some A ∧ ∃ s ∈ A.states, unionId operands k s = x := by
  rw [← Nat.zero_add (operands.map numStates).sum] at hlt
  obtain ⟨k, A, hk, s, hs, hname⟩ := exists_operand_of_lt (Nat.zero_le _) hlt
  rw [Nat.zero_add] at hname
  exact ⟨k, A, hk, s, hs, (unionId_eq hk s).trans hname⟩

/-- The ids of a union are those below the number of states of its operands. -/
theorem mem_states_union_iff_lt :
    x ∈ (union operands).states ↔ x.val < (operands.map numStates).sum := by
  refine ⟨fun h => ?_, fun h => ?_⟩
  · have hbelow : ∀ k A s, operands[k]? = some A → s ∈ A.states →
        (unionId operands k s).val < (operands.map numStates).sum := by
      intro k A s hk hs
      obtain ⟨_, -, hcopy⟩ := exists_copiedAs_of_operand hk
      have hlt := hcopy.lt_next s hs
      have hlast := statesBefore_succ_le operands (List.getElem?_eq_some_iff.1 hk).1
      rw [statesBefore_length] at hlast
      omega
    rcases mem_states_iff.1 h with hx | ⟨t, ht, hx⟩ | hx
    · obtain ⟨k, A, hk, s, hs, rfl⟩ := mem_initials_union_iff_unionId.1 hx
      exact hbelow k A s hk (mem_states_of_mem_initials hs)
    · have hends := lt_of_mem_transitions_placeAll (transitions_union operands ▸ ht)
      rcases hx with rfl | rfl
      · exact hends.1
      · exact hends.2
    · obtain ⟨k, A, hk, s, hs, rfl⟩ := mem_finals_union_iff_unionId.1 hx
      exact hbelow k A s hk (mem_states_of_mem_finals hs)
  · obtain ⟨k, A, hk, s, hs, rfl⟩ := exists_operand_of_lt_union h
    exact unionId_mem_states hk hs

theorem sideBySide_union (operands : List (Automaton L)) :
    SideBySide operands (union operands) (unionId operands) where
  apart _ _ _ _ hj hk _ hs _ hr h := unionId_inj hj hk hs hr h
  states x := by
    refine ⟨fun h => exists_operand_of_lt_union (mem_states_union_iff_lt.1 h), fun h => ?_⟩
    obtain ⟨k, A, hk, s, hs, rfl⟩ := h
    exact unionId_mem_states hk hs
  initials _ := mem_initials_union_iff_unionId
  finals _ := mem_finals_union_iff_unionId
  transitions u := by
    rw [transitions_union]
    refine ⟨fun h => ?_, fun h => ?_⟩
    · obtain ⟨u', hu', heq⟩ := OrderedSet.contains_iff_exists.1 h
      have hsource := (lt_of_mem_transitions_placeAll hu').1
      obtain ⟨k, A, hk, s, hs, hname⟩ := exists_operand_of_lt_union hsource
      obtain ⟨_, -, hcopy⟩ := exists_copiedAs_of_operand hk
      obtain ⟨t, ht, ht'⟩ := hcopy.embedding.exists_of_touching u' hu' s hs (.inl hname.symm)
      exact ⟨k, A, hk, t, ht, PartialEquivBEq.trans ht' heq⟩
    · obtain ⟨k, A, hk, t, ht, heq⟩ := h
      obtain ⟨_, -, hcopy⟩ := exists_copiedAs_of_operand hk
      obtain ⟨u', hu', ht'⟩ :=
        OrderedSet.contains_iff_exists.1 (hcopy.embedding.transition_of_mem t ht)
      exact OrderedSet.contains_iff_exists.2 ⟨u', hu', PartialEquivBEq.trans ht' heq⟩
  path k A hk s hs w y := by
    obtain ⟨_, -, hcopy⟩ := exists_copiedAs_of_operand hk
    rw [path_congr (transitions_union operands)]
    refine ⟨fun h => hcopy.embedding.exists_path h hs rfl, fun h => ?_⟩
    obtain ⟨r, -, rfl, hpath⟩ := h
    exact hcopy.embedding.path hpath

/-! ### What union does -/

theorem numStates_union (operands : List (Automaton L)) :
    (union operands).numStates = (operands.map numStates).sum := by
  have hperm := OrderedSet.perm_of_mem_iff (s := (union operands).states) (StateId.nodup_below _)
    fun _ => mem_states_union_iff_lt.trans StateId.mem_below.symm
  rw [numStates, OrderedSet.size, hperm.length_eq, StateId.length_below]

omit [EquivBEq L] in
theorem size_transitions_union (operands : List (Automaton L)) :
    (union operands).transitions.size = (operands.map (·.transitions.size)).sum := by
  rw [transitions_union, size_transitions_placeAll operands allocated_empty]
  exact Nat.zero_add _

/-- A union accepts what one of its operands accepts. Its states and transitions are those of the
operands, none shared and none lost, and a match that begins in one operand stays there. -/
theorem union_exact (operands : List (Automaton L)) :
    (∀ w, (union operands).accepts w = true ↔ ∃ A ∈ operands, A.accepts w = true) ∧
      (union operands).numStates = (operands.map numStates).sum ∧
      (union operands).transitions.size = (operands.map (·.transitions.size)).sum ∧
      SideBySide operands (union operands) (unionId operands) := by
  refine ⟨fun w => ?_, numStates_union operands, size_transitions_union operands,
    sideBySide_union operands⟩
  simp only [accepts_iff]
  exact accepts_union_iff

/-- A one, with ids that are not those the automaton would allocate, a final state beside the path and
a match in progress elsewhere. -/
def gappedOne : Automaton Nat where
  initials := OrderedSet.ofList [5]
  transitions := OrderedSet.ofList [⟨5, some 1, 3⟩, ⟨3, none, 9⟩]
  finals := OrderedSet.ofList [9, 2]
  frontier := some (OrderedSet.ofList [7])
  nextId := 0

/-- An operand that occurs twice has two copies, and a word cannot go on from one into the other. -/
theorem union_exact_gappedOne :
    (union [gappedOne, atom 2, gappedOne]).accepts [1] = true ∧
      (union [gappedOne, atom 2, gappedOne]).accepts [1, 1] = false ∧
      (union [gappedOne, atom 2, gappedOne]).numStates = 10 ∧
      (union [gappedOne, atom 2, gappedOne]).transitions.size = 5 ∧
      unionId [gappedOne, atom 2, gappedOne] 0 3 ≠ unionId [gappedOne, atom 2, gappedOne] 2 3 ∧
      ∀ w, ¬ (union ([] : List (Automaton Nat))).accepts w = true := by
  obtain ⟨hwords, hstates, hsteps, hbeside⟩ := union_exact [gappedOne, atom 2, gappedOne]
  refine ⟨(hwords _).2 ⟨gappedOne, List.mem_cons_self, by decide +kernel⟩, by decide +kernel,
    hstates.trans (by decide +kernel), hsteps.trans (by decide +kernel), fun h => ?_, fun w h => ?_⟩
  · have hmem : (3 : StateId) ∈ gappedOne.states := by decide +kernel
    obtain ⟨hplace, -⟩ := hbeside.apart 0 gappedOne 2 gappedOne rfl rfl 3 hmem 3 hmem h
    exact absurd hplace (by decide)
  · obtain ⟨A, hA, -⟩ := ((union_exact []).1 w).1 h
    exact List.not_mem_nil hA

end FiniteAutomata.Automaton
