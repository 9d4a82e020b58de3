import FiniteAutomata.Proofs.Copies
import FiniteAutomata.Proofs.Reachability
import FiniteAutomata.Proofs.SubsetStates

/-!
# How a deterministic automaton is numbered

Determinization numbers the blocks in the order in which it finds them and lists the steps block by
block in the same order, so the search that visits its states goes side by side with the search for
the blocks and visits them in the order of their numbers. The list of the states mentions both ends of
each step, the source first. Where the steps are listed in visiting order, a source has been mentioned
by the time its steps are reached, and the list of the states is the visiting order too. An automaton
whose states are listed in the order of their numbers is its own copy.
-/

namespace FiniteAutomata.Automaton

universe u v

variable {L : Type u} [BEq L] {A : Automaton L} {b c : StateSet} {s : StateId} {t : Transition L}

/-! ### Automata listed in visiting order -/

/-- The transitions are listed source by source, in the order in which the sources are visited. -/
def InVisitingOrder (A : Automaton L) : Prop :=
  A.transitions.toList = A.reachable.toList.flatMap fun s => A.transitions.toList.filter (·.source == s)

theorem successors_eq_map (A : Automaton L) (s : StateId) :
    A.successors (fun _ => true) s =
      (A.transitions.toList.filter (·.source == s)).map (·.destination) := by
  simp only [successors, Bool.and_true]

/-- The ends of the steps, source by source in visiting order, mention the states in that order. -/
theorem reachable_eq_insertAll (A : Automaton L) :
    A.reachable = A.initials.insertAll (A.reachable.toList.flatMap fun s =>
      (A.transitions.toList.filter (·.source == s)).flatMap fun t => [t.source, t.destination]) := by
  have hends : ∀ s, (A.successors (fun _ => true) s).flatMap (fun r => [s, r]) =
      (A.transitions.toList.filter (·.source == s)).flatMap fun t => [t.source, t.destination] := by
    intro s
    rw [successors_eq_map, List.flatMap_map]
    refine List.flatMap_congr fun t ht => ?_
    rw [beq_iff_eq.1 (List.mem_filter.1 ht).2]
  have hfound : A.reachable = A.initials.insertAll (A.reachable.toList.flatMap fun s =>
      (A.successors (fun _ => true) s).flatMap fun r => [s, r]) :=
    Search.found_explore_eq_insertAll waiting_search
  simpa only [hends] using hfound

theorem InVisitingOrder.states_eq (h : A.InVisitingOrder)
    (hfinals : ∀ s ∈ A.finals, s ∈ A.reachable) : A.states = A.reachable := by
  have hends : A.initials.insertAll
      (A.transitions.toList.flatMap fun t => [t.source, t.destination]) = A.reachable := by
    rw [h, List.flatMap_assoc]
    exact (reachable_eq_insertAll A).symm
  rw [states, hends]
  exact OrderedSet.insertAll_of_mem hfinals

theorem foldl_note (l : List StateId) : l.foldl (fun visited s => visited ++ [s]) [] = l := by
  rw [List.foldl_append_eq_append, List.nil_append]
  exact List.flatMap_singleton' l

/-- A traversal that notes what it visits notes the states that can be reached. -/
theorem traverse_note (A : Automaton L) :
    A.traverse (fun visited s _ => visited ++ [s]) [] = A.reachable.toList :=
  foldl_note A.reachable.toList

/-! ### Steps, block by block -/

theorem source_of_mem_stepsFrom (h : t ∈ A.stepsFrom b) : t.source = blockId A.blocks b := by
  obtain ⟨symbol, -, hstep⟩ := List.mem_filterMap.1 h
  obtain ⟨c, -, rfl⟩ := Option.map_eq_some_iff.1 hstep
  rfl

theorem map_destination_stepsFrom (A : Automaton L) (b : StateSet) :
    (A.stepsFrom b).map (·.destination) = (A.targets b).map (blockId A.blocks) := by
  simp [stepsFrom, targets, List.map_filterMap, Function.comp_def]

/-- No step is made twice: the symbols are different, and so are the blocks. -/
theorem toList_transitions_determinize (A : Automaton L) :
    A.determinize.transitions.toList = A.blocks.flatMap A.stepsFrom := by
  refine OrderedSet.toList_ofList_of_distinct (List.pairwise_flatMap.2 ⟨fun b _ => ?_, ?_⟩)
  · refine List.pairwise_filterMap.2 (A.symbols.distinct.imp fun hne t ht u hu => ?_)
    obtain ⟨c, -, rfl⟩ := Option.map_eq_some_iff.1 ht
    obtain ⟨d, -, rfl⟩ := Option.map_eq_some_iff.1 hu
    refine Bool.eq_false_iff.2 fun heq => Bool.eq_false_iff.1 hne ?_
    exact (Transition.beq_iff.1 heq).2.1
  · refine nodup_blocks.imp_of_mem fun {b c} hb _ hne t ht u hu => Bool.eq_false_iff.2 fun heq => ?_
    have hsource := (Transition.beq_iff.1 heq).1
    rw [source_of_mem_stepsFrom ht, source_of_mem_stepsFrom hu] at hsource
    exact hne ((blockId_inj hb).1 hsource)

omit [BEq L] in
/-- What all elements but one contribute nothing to is what that one contributes. -/
theorem flatMap_eq_of_nodup {α : Type u} {β : Type v} {l : List α} {g : α → List β} {a : α}
    (hl : l.Nodup) (ha : a ∈ l) (hothers : ∀ c ∈ l, c ≠ a → g c = []) : l.flatMap g = g a := by
  induction l with
  | nil => cases ha
  | cons c l ih =>
      obtain ⟨hc, hl⟩ := List.nodup_cons.1 hl
      have hrest : ∀ d ∈ l, d ≠ a → g d = [] := fun d hd => hothers d (List.mem_cons_of_mem c hd)
      rw [List.flatMap_cons]
      rcases List.mem_cons.1 ha with rfl | ha
      · have hnil : l.flatMap g = [] :=
          List.flatMap_eq_nil_iff.2 fun d hd => hrest d hd fun h => hc (h ▸ hd)
        rw [hnil, List.append_nil]
      · rw [hothers c List.mem_cons_self fun h => hc (h ▸ ha), List.nil_append, ih hl ha hrest]

theorem filter_source_determinize (hb : b ∈ A.blocks) :
    A.determinize.transitions.toList.filter (·.source == blockId A.blocks b) = A.stepsFrom b := by
  have hother : ∀ c ∈ A.blocks, c ≠ b →
      (A.stepsFrom c).filter (·.source == blockId A.blocks b) = [] := by
    intro c hc hne
    refine List.filter_eq_nil_iff.2 fun t ht heq => hne ?_
    rw [beq_iff_eq, source_of_mem_stepsFrom ht] at heq
    exact (blockId_inj hc).1 heq
  rw [toList_transitions_determinize, List.filter_flatMap, flatMap_eq_of_nodup nodup_blocks hb hother]
  exact List.filter_eq_self.2 fun t ht => beq_iff_eq.2 (source_of_mem_stepsFrom ht)

/-! ### The order of the states -/

/-- The block is one of those found, and the state has its number. -/
def Numbered (A : Automaton L) (b : StateSet) (s : StateId) : Prop :=
  b ∈ A.blocks ∧ blockId A.blocks b = s

theorem faithful_numbered (A : Automaton L) : Faithful A.Numbered :=
  faithful_image fun _ _ hb _ h => (blockId_inj hb).1 h

theorem forall₂_numbered {l : List StateSet} (hl : ∀ b ∈ l, b ∈ A.blocks) :
    List.Forall₂ A.Numbered l (l.map (blockId A.blocks)) :=
  forall₂_image hl

/-- The numbers of the blocks are their places. -/
theorem map_blockId_blocks (A : Automaton L) :
    A.blocks.map (blockId A.blocks) = StateId.below A.blocks.length :=
  map_idxOf_eq_below nodup_blocks

theorem mem_blocks_of_mem_targets (hb : b ∈ A.blocks) (hc : c ∈ A.targets b) : c ∈ A.blocks := by
  obtain ⟨a, ha, n, hchain⟩ := mem_blocks_iff_exists_chain.1 hb
  exact mem_blocks_iff_exists_chain.2 ⟨a, ha, n + 1, .snoc hchain hc⟩

/-- The visit of the states goes side by side with the search for the blocks. -/
theorem toList_reachable_determinize (A : Automaton L) :
    A.determinize.reachable.toList = StateId.below A.blocks.length := by
  have hnext : ∀ b s, A.Numbered b s →
      List.Forall₂ A.Numbered (A.targets b) (A.determinize.successors (fun _ => true) s) := by
    rintro b s ⟨hb, rfl⟩
    rw [successors_eq_map, filter_source_determinize hb, map_destination_stepsFrom]
    exact forall₂_numbered fun c hc => mem_blocks_of_mem_targets hb hc
  have hstart : List.Forall₂ A.Numbered A.firstBlock.toList A.determinize.initials.toList := by
    have hfirst := OrderedSet.forall₂_ofList A.faithful_numbered
      (forall₂_numbered fun b (hb : b ∈ A.blocks.take 1) => List.mem_of_mem_take hb)
    have hbegin : OrderedSet.ofList (A.blocks.take 1) = A.firstBlock := by
      rw [take_one_blocks, OrderedSet.ofList_toList]
    rw [hbegin] at hfirst
    exact hfirst
  have hvisited := Search.forall₂_explore A.faithful_numbered hnext hstart A.waiting_blockSearch
    waiting_search
  have hnumbers : A.blocks.map (blockId A.blocks) = A.determinize.reachable.toList.map id :=
    map_eq_map_of_forall₂ (fun _ _ hbs => hbs.2) hvisited
  rw [← map_blockId_blocks, hnumbers, List.map_id]

theorem inVisitingOrder_determinize (A : Automaton L) : A.determinize.InVisitingOrder := by
  rw [InVisitingOrder, toList_reachable_determinize, ← map_blockId_blocks, List.flatMap_map]
  rw [List.flatMap_congr fun b hb => filter_source_determinize hb]
  exact toList_transitions_determinize A

variable [EquivBEq L]

theorem toList_states_determinize (A : Automaton L) :
    A.determinize.states.toList = StateId.below A.determinize.nextId.val := by
  have hfinals : ∀ s ∈ A.determinize.finals, s ∈ A.determinize.reachable := by
    intro s hs
    obtain ⟨w, hw⟩ := accessible_determinize s (mem_states_of_mem_finals hs)
    exact mem_reachable_iff.2 (reachable_iff_exists_leadsTo.2 ⟨w, hw⟩)
  rw [(inVisitingOrder_determinize A).states_eq hfinals]
  exact toList_reachable_determinize A

theorem copy_determinize (A : Automaton L) : A.determinize.copy = A.determinize :=
  copy_eq_self (toList_states_determinize A) rfl

/-- Every result of determinization is deterministic, has no silent step and no match in progress, and
is numbered from 0 in the order in which its states are listed and in which a traversal visits them,
so renumbering it changes nothing. -/
theorem determinize_numbered_in_order (A : Automaton L) :
    let D := A.determinize
    D.isDeterministic = true ∧ (∀ t ∈ D.transitions, t.isSilent = false) ∧ D.frontier = none ∧
      (∀ s ∈ D.states, D.Reachable s) ∧
      D.states.toList = StateId.below D.nextId.val ∧
      D.traverse (fun visited s _ => visited ++ [s]) [] = StateId.below D.nextId.val ∧
      D.copy = D := by
  intro D
  have hdet : D.isDeterministic = true := isDeterministic_determinize
  refine ⟨hdet, (isDeterministic_iff_clash.1 hdet).2.1, rfl,
    accessible_iff_reachable.1 accessible_determinize, toList_states_determinize A, ?_,
    copy_determinize A⟩
  rw [traverse_note]
  exact toList_reachable_determinize A

/-- Ids out of order, two initial states, a silent step and a match in progress in a foreign state. -/
def outOfOrder : Automaton Char where
  initials := OrderedSet.ofList [6, 2]
  transitions := OrderedSet.ofList
    [⟨2, some 'b', 9⟩, ⟨6, some 'a', 2⟩, ⟨9, none, 6⟩, ⟨6, some 'a', 4⟩, ⟨4, some 'b', 4⟩]
  finals := OrderedSet.ofList [4]
  frontier := some (OrderedSet.ofList [1])
  nextId := 3

theorem determinize_numbered_in_order_outOfOrder :
    outOfOrder.determinize.states.toList = [0, 1, 2, 3, 4] ∧
      outOfOrder.determinize.traverse (fun visited s _ => visited ++ [s]) [] = [0, 1, 2, 3, 4] ∧
      outOfOrder.determinize.copy = outOfOrder.determinize ∧ outOfOrder.copy ≠ outOfOrder := by
  obtain ⟨-, -, -, -, hstates, hvisited, hcopy⟩ := determinize_numbered_in_order outOfOrder
  have hnext : StateId.below outOfOrder.determinize.nextId.val = [0, 1, 2, 3, 4] := by decide +kernel
  refine ⟨hstates.trans hnext, hvisited.trans hnext, hcopy, fun h => ?_⟩
  have hfirst : outOfOrder.copy.initials = outOfOrder.initials := by rw [h]
  exact absurd hfirst (by decide +kernel)

end FiniteAutomata.Automaton
