import FiniteAutomata.Proofs.History
import FiniteAutomata.Proofs.Traversal
import FiniteAutomata.Proofs.Worklist

/-!
# The silent closure

A silent closure is the result of a search, so it holds what silent walks reach, it begins with the
ids that it was given, and it has nearer states earlier. No silent step leaves it, and a search whose
start no step leaves finds nothing else. So a closure is its own closure, with its states in the same
places.

Every frontier of a match is a closure of something: actions make no other frontiers, and the one that
adds transitions ends the match. The closure that is taken when a match is asked for its answer
therefore changes nothing.
-/

namespace FiniteAutomata.Automaton

universe u

variable {L : Type u} [BEq L] {A : Automaton L} {core sources : StateSet} {s : StateId}

/-! ### Closing twice -/

theorem silentClosure_of_silentClosed (h : A.SilentClosed sources) :
    A.silentClosure sources = sources := by
  apply Search.found_explore_of_closed
  intro s hs r hr
  obtain ⟨t, ht, rfl, hsilent, rfl⟩ := mem_successors_iff.1 hr
  exact h t.source hs t.destination (path_nil_iff.2 ⟨1, .cons ht hsilent (.nil _)⟩)

theorem silentClosure_silentClosure : A.silentClosure (A.silentClosure core) = A.silentClosure core :=
  silentClosure_of_silentClosed silentClosed_silentClosure

theorem mem_silentClosure_append_iff {l m : List StateId} :
    s ∈ A.silentClosure (OrderedSet.ofList (l ++ m)) ↔
      s ∈ A.silentClosure (OrderedSet.ofList l) ∨ s ∈ A.silentClosure (OrderedSet.ofList m) := by
  simp only [mem_silentClosure_iff, OrderedSet.mem_ofList, List.mem_append, or_and_right, exists_or]

/-! ### The frontier of a match -/

/-- The frontier is its own silent closure, if a match is in progress. -/
def Settled (A : Automaton L) : Prop := ∀ F, A.frontier = some F → A.silentClosure F = F

theorem settled_of_frontier_eq_none (h : A.frontier = none) : A.Settled := by
  intro F hF
  rw [h] at hF
  cases hF

theorem settled_silentClosure (A : Automaton L) (core : StateSet) :
    { A with frontier := some (A.silentClosure core) }.Settled := by
  intro F hF
  obtain rfl := Option.some.inj hF
  exact silentClosure_silentClosure

theorem Settled.silentClosure_current (h : A.Settled) : A.silentClosure A.current = A.current := by
  cases hF : A.frontier with
  | none =>
      rw [current, hF]
      exact silentClosure_silentClosure
  | some F =>
      rw [current, hF]
      exact h F hF

theorem Settled.feed (h : A.Settled) (w : List L) : (A.feed w).Settled := by
  induction w generalizing A with
  | nil => exact h
  | cons symbol w ih => exact ih (settled_silentClosure A _)

theorem Settled.apply (h : A.Settled) (action : Action L) : (Action.apply A action).Settled := by
  cases action with
  | reset => exact settled_silentClosure A A.initials
  | consume symbol => exact settled_silentClosure A _
  | isAccepting =>
      intro F hF
      obtain rfl := Option.some.inj hF
      exact h.silentClosure_current
  | accepts w => exact Settled.feed (settled_silentClosure A A.initials) w
  | fuse sources destinations => exact settled_of_frontier_eq_none rfl
  | clone => exact h

theorem Settled.foldl (h : A.Settled) (history : List (Action L)) :
    (history.foldl Action.apply A).Settled := by
  induction history generalizing A with
  | nil => exact h
  | cons action history ih => exact ih (h.apply action)

theorem Settled.isAccepting_eq (h : A.Settled) : A.isAccepting = A.current.meets A.finals := by
  rw [isAccepting, h.silentClosure_current]

/-! ### What the closure of a list of ids is -/

/-- The search behind a closure comes to its end. The closure holds, each once, the states that silent
walks reach from the given ids: these ids first, in their order, and nearer states before others.
Closing it again leaves it as it is, in particular when a match is asked for its answer, and two lists
joined have what either has. -/
theorem silentClosure_exact (A : Automaton L) (core : List StateId) :
    let closure := A.silentClosure (OrderedSet.ofList core)
    Search.Exhausts (A.successors Transition.isSilent) (OrderedSet.ofList core) closure.toList
        (A.search Transition.isSilent (OrderedSet.ofList core)) ∧
      closure.toList.Nodup ∧
      (∀ s, s ∈ closure ↔ ∃ c ∈ core, ∃ n, A.Walk Transition.isSilent n c s) ∧
      core.eraseDups <+: closure.toList ∧
      (closure.toList.Pairwise fun s r =>
        A.distance Transition.isSilent (OrderedSet.ofList core) s ≤
          A.distance Transition.isSilent (OrderedSet.ofList core) r) ∧
      A.silentClosure (OrderedSet.ofList closure.toList) = closure ∧
      (∀ history : List (Action L),
        let B := history.foldl Action.apply { A with frontier := none }
        B.silentClosure B.current = B.current ∧ B.isAccepting = B.current.meets B.finals) ∧
      ∀ (core' : List StateId) (s : StateId),
        s ∈ A.silentClosure (OrderedSet.ofList (core ++ core')) ↔
          s ∈ closure ∨ s ∈ A.silentClosure (OrderedSet.ofList core') := by
  intro closure
  have hbegin : core.eraseDups <+: closure.toList := by
    rw [← OrderedSet.toList_ofList_eq_eraseDups]
    apply Search.start_isPrefix_explore
  refine ⟨Search.exhausts_explore waiting_search, closure.nodup_toList, ?_, hbegin,
    pairwise_distance_search A _ _, ?_, ?_, fun core' s => mem_silentClosure_append_iff⟩
  · intro s
    rw [mem_silentClosure_iff]
    simp only [OrderedSet.mem_ofList, path_nil_iff]
  · rw [OrderedSet.ofList_toList]
    exact silentClosure_silentClosure
  · intro history B
    have hsettled : B.Settled := (settled_of_frontier_eq_none rfl).foldl history
    exact ⟨hsettled.silentClosure_current, hsettled.isAccepting_eq⟩

end FiniteAutomata.Automaton
