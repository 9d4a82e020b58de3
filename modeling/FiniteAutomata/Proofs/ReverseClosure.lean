import FiniteAutomata.Proofs.Reachability

/-!
# The reverse closure

The reverse closure of some states is not the set of states that silently come to them. It takes the
whole silent closure of every reachable state that does, so it also holds states beside the way: two
states belong together as soon as one reachable state silently comes to both. States that cannot be
reached never count, and an id that no reachable state silently comes to adds nothing. Silent paths do
not leave the result, and what it holds for two sets together is what it holds for either.
-/

namespace FiniteAutomata.Automaton

universe u

variable {L : Type u} [BEq L] {A : Automaton L} {core : StateSet} {s r : StateId}

theorem mem_silentClosure_singleton_iff :
    s ∈ A.silentClosure (OrderedSet.ofList [r]) ↔ A.Path r [] s := by
  simp [mem_silentClosure_iff]

theorem meets_silentClosure_singleton_iff :
    (A.silentClosure (OrderedSet.ofList [r])).meets core = true ↔ ∃ c ∈ core, A.Path r [] c := by
  simp only [OrderedSet.meets_iff, mem_silentClosure_singleton_iff]
  constructor
  · rintro ⟨c, hpath, hc⟩
    exact ⟨c, hc, hpath⟩
  · rintro ⟨c, hc, hpath⟩
    exact ⟨c, hpath, hc⟩

theorem mem_reverseClosure_iff :
    s ∈ A.reverseClosure core ↔ ∃ r, A.Reachable r ∧ A.Path r [] s ∧ ∃ c ∈ core, A.Path r [] c := by
  simp only [reverseClosure, OrderedSet.mem_ofList, List.mem_flatMap, List.mem_filter, List.mem_map]
  constructor
  · rintro ⟨closure, ⟨⟨r, hr, rfl⟩, hmeets⟩, hs⟩
    exact ⟨r, mem_reachable_iff.1 hr, mem_silentClosure_singleton_iff.1 hs,
      meets_silentClosure_singleton_iff.1 hmeets⟩
  · rintro ⟨r, hr, hs, hcore⟩
    exact ⟨_, ⟨⟨r, mem_reachable_iff.2 hr, rfl⟩, meets_silentClosure_singleton_iff.2 hcore⟩,
      mem_silentClosure_singleton_iff.2 hs⟩

theorem mem_reverseClosure_of_path (hs : A.Reachable s) (hr : r ∈ core) (hpath : A.Path s [] r) :
    s ∈ A.reverseClosure core :=
  mem_reverseClosure_iff.2 ⟨s, hs, .nil s, r, hr, hpath⟩

theorem reachable_of_mem_reverseClosure (h : s ∈ A.reverseClosure core) : A.Reachable s := by
  obtain ⟨r, hr, hpath, -⟩ := mem_reverseClosure_iff.1 h
  exact hr.of_path hpath

theorem silentClosed_reverseClosure : A.SilentClosed (A.reverseClosure core) := by
  intro s hs t hpath
  obtain ⟨r, hr, hsilent, hcore⟩ := mem_reverseClosure_iff.1 hs
  exact mem_reverseClosure_iff.2 ⟨r, hr, hsilent.append hpath, hcore⟩

theorem mem_reverseClosure_append_iff {l m : List StateId} :
    s ∈ A.reverseClosure (OrderedSet.ofList (l ++ m)) ↔
      s ∈ A.reverseClosure (OrderedSet.ofList l) ∨ s ∈ A.reverseClosure (OrderedSet.ofList m) := by
  simp only [mem_reverseClosure_iff, OrderedSet.mem_ofList, List.mem_append, or_and_right, exists_or,
    and_or_left]

/-- The reverse closure of a list of ids, whatever they are, holds the states that some reachable
state silently comes to together with an id of the list. So it holds the reachable states whose silent
closure has such an id, none that cannot be reached, and whatever its states silently lead to; and two
lists joined have what either has. -/
theorem reverseClosure_exact (A : Automaton L) (core : List StateId) :
    let back := A.reverseClosure (OrderedSet.ofList core)
    (∀ s, s ∈ back ↔ ∃ r, A.Reachable r ∧ A.Path r [] s ∧ ∃ c ∈ core, A.Path r [] c) ∧
      (∀ s, A.Reachable s → ∀ c ∈ core, c ∈ A.silentClosure (OrderedSet.ofList [s]) → s ∈ back) ∧
      (∀ s ∈ back, A.Reachable s) ∧
      (∀ t ∈ A.transitions, t.isSilent = true → t.source ∈ back → t.destination ∈ back) ∧
      ∀ (core' : List StateId) (s : StateId),
        s ∈ A.reverseClosure (OrderedSet.ofList (core ++ core')) ↔
          s ∈ back ∨ s ∈ A.reverseClosure (OrderedSet.ofList core') := by
  intro back
  refine ⟨fun s => ?_, fun s hs c hc hclosure => ?_, fun s => reachable_of_mem_reverseClosure,
    fun t ht hsilent hsource => ?_, fun core' s => ?_⟩
  · simp only [back, mem_reverseClosure_iff, OrderedSet.mem_ofList]
  · have hpath := mem_silentClosure_singleton_iff.1 hclosure
    exact mem_reverseClosure_of_path hs (OrderedSet.mem_ofList.2 hc) hpath
  · have hstep : A.Path t.source [] t.destination := path_nil_iff.2 ⟨1, .cons ht hsilent (.nil _)⟩
    exact silentClosed_reverseClosure t.source hsource t.destination hstep
  · exact mem_reverseClosure_append_iff

/-- Silent steps fork at the initial state, join a circle behind a step on a letter, and come from a
state that cannot be reached. -/
def silentFork : Automaton Char where
  initials := OrderedSet.ofList [0]
  transitions := OrderedSet.ofList
    [⟨0, none, 1⟩, ⟨0, none, 2⟩, ⟨2, some 'a', 3⟩, ⟨3, none, 4⟩, ⟨4, none, 3⟩, ⟨5, none, 1⟩]
  finals := OrderedSet.ofList [4]
  frontier := none
  nextId := 6

/-- The state 2 does not come to the state 1 silently and is in its reverse closure; the state 5 does
and is not. -/
theorem reverseClosure_exact_silentFork :
    2 ∈ silentFork.reverseClosure (OrderedSet.ofList [1, 7, 1]) ∧
      (∀ c ∈ [1, 7, 1], c ∉ silentFork.silentClosure (OrderedSet.ofList [2])) ∧
      5 ∉ silentFork.reverseClosure (OrderedSet.ofList [1, 7, 1]) ∧
      1 ∈ silentFork.silentClosure (OrderedSet.ofList [5]) ∧
      2 ∈ silentFork.reverseClosure (OrderedSet.ofList ([1, 7, 1] ++ [4])) := by
  obtain ⟨-, hmeets, hreachable, hclosed, hunion⟩ := reverseClosure_exact silentFork [1, 7, 1]
  have hzero : 0 ∈ silentFork.reverseClosure (OrderedSet.ofList [1, 7, 1]) :=
    hmeets 0 (by decide +kernel) 1 (by decide) (by decide +kernel)
  have htwo : 2 ∈ silentFork.reverseClosure (OrderedSet.ofList [1, 7, 1]) :=
    hclosed ⟨0, none, 2⟩ (by decide +kernel) rfl hzero
  refine ⟨htwo, by decide +kernel, fun h => ?_, by decide +kernel, (hunion [4] 2).2 (.inl htwo)⟩
  exact absurd (hreachable 5 h) (by decide +kernel)

end FiniteAutomata.Automaton
