import FiniteAutomata.Automaton.Matching
import FiniteAutomata.Proofs.Path
import FiniteAutomata.Search.Lemmas

/-!
# Frontiers and paths

A search along the steps of an automaton finds what walks along those steps reach. For silent steps
such a walk is a path that spells nothing, so a silent closure is closed under these paths, and one
move of a frontier follows the paths that spell one symbol. By induction on the word, the frontier
after a word holds the states that the word leads to, and a match accepts what `Accepts` says.
-/

namespace FiniteAutomata.Automaton

universe u

variable {L : Type u} [BEq L] {A : Automaton L} {p : Transition L → Bool} {s r : StateId}
  {core sources : StateSet} {symbol : L} {w : List L} {n : Nat}

/-! ### Walks -/

theorem mem_successors_iff :
    r ∈ A.successors p s ↔ ∃ t ∈ A.transitions, t.source = s ∧ p t = true ∧ t.destination = r := by
  simp [successors, OrderedSet.mem_iff, and_assoc]

/-- Walks are chains of successors, counted from the other end. -/
theorem walk_iff_chain : A.Walk p n s r ↔ Search.Chain (A.successors p) n s r := by
  refine ⟨fun h => ?_, fun h => ?_⟩
  · induction h with
    | nil s => exact .nil s
    | cons hstep hp _ ih => exact ih.cons (mem_successors_iff.2 ⟨_, hstep, rfl, hp, rfl⟩)
  · induction h with
    | nil s => exact .nil s
    | snoc _ hstep ih =>
        obtain ⟨t, ht, rfl, hp, rfl⟩ := mem_successors_iff.1 hstep
        exact ih.snoc ht hp

/-- Beyond its start a search meets only destinations, which makes its bound sufficient. -/
theorem mem_universe_of_mem_successors (core : StateSet) (h : r ∈ A.successors p s) :
    r ∈ core.toList ++ A.transitions.toList.map (·.destination) := by
  obtain ⟨t, ht, -, -, rfl⟩ := mem_successors_iff.1 h
  exact List.mem_append_right _ (List.mem_map_of_mem ht)

theorem length_universe (A : Automaton L) (core : StateSet) :
    (core.toList ++ A.transitions.toList.map (·.destination)).length ≤
      core.size + A.transitions.size := by
  simp [OrderedSet.size]

theorem waiting_search : (A.search p core).waiting = [] :=
  Search.waiting_explore (fun _ hs => List.mem_append_left _ hs)
    (fun _ _ _ hr => mem_universe_of_mem_successors core hr) (length_universe A core)

/-- What a search finds. -/
theorem mem_search_iff :
    r ∈ (A.search p core).found ↔ ∃ s ∈ core, ∃ n, A.Walk p n s r := by
  simp only [walk_iff_chain]
  exact Search.mem_explore (fun _ hs => List.mem_append_left _ hs)
    (fun _ _ _ hr => mem_universe_of_mem_successors core hr) (length_universe A core)

/-! ### Silent closure -/

theorem path_nil_iff : A.Path s [] r ↔ ∃ n, A.Walk Transition.isSilent n s r := by
  refine ⟨fun h => ?_, fun h => ?_⟩
  · generalize hw : ([] : List L) = w at h
    induction h with
    | nil s => exact ⟨0, .nil s⟩
    | silent hstep _ ih =>
        obtain ⟨n, hwalk⟩ := ih hw
        exact ⟨n + 1, .cons hstep rfl hwalk⟩
    | read => cases hw
  · obtain ⟨n, h⟩ := h
    induction h with
    | nil s => exact .nil s
    | @cons n t r hstep hp _ ih =>
        obtain ⟨s, label, d⟩ := t
        obtain rfl : label = none := Option.isNone_iff_eq_none.1 hp
        exact .silent hstep ih

theorem mem_silentClosure_iff : r ∈ A.silentClosure core ↔ ∃ s ∈ core, A.Path s [] r := by
  simp only [silentClosure, mem_search_iff, path_nil_iff]

/-- No silent path leaves the set. -/
def SilentClosed (A : Automaton L) (sources : StateSet) : Prop :=
  ∀ s ∈ sources, ∀ r, A.Path s [] r → r ∈ sources

theorem silentClosed_silentClosure : A.SilentClosed (A.silentClosure core) := by
  intro s hs r hpath
  obtain ⟨i, hi, hsilent⟩ := mem_silentClosure_iff.1 hs
  exact mem_silentClosure_iff.2 ⟨i, hi, hsilent.append hpath⟩

theorem silentClosed_start : A.SilentClosed A.start := silentClosed_silentClosure

theorem silentClosed_move : A.SilentClosed (A.move sources symbol) := silentClosed_silentClosure

/-! ### Moving a frontier -/

theorem mem_destinations_iff {label : Option L} :
    r ∈ A.destinations sources label ↔
      ∃ t ∈ A.transitions, t.source ∈ sources ∧ (t.label == label) = true ∧ t.destination = r := by
  simp only [destinations, Transition.hasLabel, OrderedSet.mem_ofList, List.mem_map,
    List.mem_filter, Bool.and_eq_true, OrderedSet.contains_iff, and_assoc]
  rfl

theorem mem_move_iff :
    r ∈ A.move sources symbol ↔
      ∃ t ∈ A.transitions, t.source ∈ sources ∧ (t.label == some symbol) = true ∧
        A.Path t.destination [] r := by
  rw [move, mem_silentClosure_iff]
  refine ⟨fun h => ?_, fun h => ?_⟩
  · obtain ⟨d, hd, hpath⟩ := h
    obtain ⟨t, ht, hsource, hlabel, rfl⟩ := mem_destinations_iff.1 hd
    exact ⟨t, ht, hsource, hlabel, hpath⟩
  · obtain ⟨t, ht, hsource, hlabel, hpath⟩ := h
    exact ⟨_, mem_destinations_iff.2 ⟨t, ht, hsource, hlabel, rfl⟩, hpath⟩

/-- A path that spells one symbol reads it in one step, with silent paths on both sides. -/
theorem path_singleton_iff :
    A.Path s [symbol] r ↔
      ∃ t ∈ A.transitions, A.Path s [] t.source ∧ (t.label == some symbol) = true ∧
        A.Path t.destination [] r := by
  refine ⟨fun h => ?_, fun h => ?_⟩
  · generalize hw : [symbol] = w at h
    induction h with
    | nil => cases hw
    | silent hstep _ ih =>
        obtain ⟨t, ht, hbefore, hlabel, hafter⟩ := ih hw
        exact ⟨t, ht, .silent hstep hbefore, hlabel, hafter⟩
    | read hstep hlabel hrest =>
        obtain ⟨rfl, rfl⟩ := List.cons.inj hw
        exact ⟨_, hstep, .nil _, hlabel, hrest⟩
  · obtain ⟨⟨source, label, destination⟩, ht, hbefore, hlabel, hafter⟩ := h
    cases label with
    | none => cases hlabel
    | some label => exact hbefore.append (.read ht hlabel hafter)

/-- Where silent paths do not leave the sources, a move follows the paths that spell its symbol. -/
theorem mem_move_iff_path (hclosed : A.SilentClosed sources) :
    r ∈ A.move sources symbol ↔ ∃ s ∈ sources, A.Path s [symbol] r := by
  rw [mem_move_iff]
  refine ⟨fun h => ?_, fun h => ?_⟩
  · obtain ⟨t, ht, hsource, hlabel, hafter⟩ := h
    exact ⟨t.source, hsource, path_singleton_iff.2 ⟨t, ht, .nil _, hlabel, hafter⟩⟩
  · obtain ⟨s, hs, hpath⟩ := h
    obtain ⟨t, ht, hbefore, hlabel, hafter⟩ := path_singleton_iff.1 hpath
    exact ⟨t, ht, hclosed s hs _ hbefore, hlabel, hafter⟩

theorem mem_foldl_move_iff (hclosed : A.SilentClosed sources) :
    r ∈ w.foldl A.move sources ↔ ∃ s ∈ sources, A.Path s w r := by
  induction w generalizing sources with
  | nil =>
      refine ⟨fun hr => ⟨r, hr, .nil r⟩, fun h => ?_⟩
      obtain ⟨s, hs, hpath⟩ := h
      exact hclosed s hs r hpath
  | cons symbol w ih =>
      rw [List.foldl_cons, ih silentClosed_move]
      refine ⟨fun h => ?_, fun h => ?_⟩
      · obtain ⟨s, hs, hrest⟩ := h
        obtain ⟨i, hi, hfirst⟩ := (mem_move_iff_path hclosed).1 hs
        exact ⟨i, hi, hfirst.append hrest⟩
      · obtain ⟨i, hi, hpath⟩ := h
        obtain ⟨s, hfirst, hrest⟩ := path_append_iff (v := [symbol]).1 hpath
        exact ⟨s, (mem_move_iff_path hclosed).2 ⟨i, hi, hfirst⟩, hrest⟩

/-! ### The frontier after a word -/

/-- The frontier of a match that has read a word. -/
def after (A : Automaton L) (w : List L) : StateSet := w.foldl A.move A.start

theorem after_append_singleton : A.after (w ++ [symbol]) = A.move (A.after w) symbol := by
  simp [after]

/-- A match is in the states that its word leads to. -/
theorem mem_after_iff : r ∈ A.after w ↔ A.LeadsTo w r := by
  rw [after, mem_foldl_move_iff silentClosed_start]
  refine ⟨fun h => ?_, fun h => ?_⟩
  · obtain ⟨s, hs, hrest⟩ := h
    obtain ⟨i, hi, hsilent⟩ := mem_silentClosure_iff.1 hs
    exact ⟨i, hi, hsilent.append hrest⟩
  · obtain ⟨i, hi, hpath⟩ := h
    exact ⟨i, mem_silentClosure_iff.2 ⟨i, hi, .nil i⟩, hpath⟩

/-- Reading symbols changes nothing but the frontier. -/
theorem feed_of_frontier (A : Automaton L) (F : StateSet) (w : List L) :
    { A with frontier := some F }.feed w = { A with frontier := some (w.foldl A.move F) } := by
  induction w generalizing F with
  | nil => rfl
  | cons symbol w ih => exact ih (A.move F symbol)

theorem feed_reset (A : Automaton L) (w : List L) :
    A.reset.feed w = { A with frontier := some (A.after w) } :=
  feed_of_frontier A A.start w

/-- From the states that a word leads to, a symbol moves to those that the longer word leads to. -/
theorem mem_move_iff_leadsTo (h : ∀ s, s ∈ sources ↔ A.LeadsTo w s) :
    r ∈ A.move sources symbol ↔ A.LeadsTo (w ++ [symbol]) r := by
  have hclosed : A.SilentClosed sources := by
    intro s hs t hpath
    have ht := ((h s).1 hs).append hpath
    rw [List.append_nil] at ht
    exact (h t).2 ht
  rw [mem_move_iff_path hclosed, leadsTo_append_iff]
  exact exists_congr fun s => and_congr_left fun _ => h s

/-- A final state is among the states that a word leads to exactly if the word is accepted. -/
theorem meets_silentClosure_iff (h : ∀ s, s ∈ sources ↔ A.LeadsTo w s) :
    (A.silentClosure sources).meets A.finals = true ↔ A.Accepts w := by
  rw [OrderedSet.meets_iff, accepts_iff_exists_leadsTo]
  refine ⟨fun hmeets => ?_, fun haccepts => ?_⟩
  · obtain ⟨t, ht, hfinal⟩ := hmeets
    obtain ⟨s, hs, hsilent⟩ := mem_silentClosure_iff.1 ht
    refine ⟨t, hfinal, ?_⟩
    simpa using ((h s).1 hs).append hsilent
  · obtain ⟨t, hfinal, hleads⟩ := haccepts
    exact ⟨t, mem_silentClosure_iff.2 ⟨t, (h t).2 hleads, .nil t⟩, hfinal⟩

/-- A match accepts exactly the words that label a path from an initial to a final state. -/
theorem accepts_iff : A.accepts w = true ↔ A.Accepts w := by
  rw [accepts, feed_reset]
  exact meets_silentClosure_iff (A := A) fun _ => mem_after_iff

end FiniteAutomata.Automaton
