import FiniteAutomata.Label
import FiniteAutomata.Proofs.Determinism
import Mathlib.Data.List.Induction
import Mathlib.Data.List.Sublists

/-!
# The subset construction

Every block is the set of states that some word leads to, so the states of the deterministic
automaton are named by words: `stateAfter w` stands for the states that `w` leads to. Words that lead
to the same states name the same state, other words name other states, and only words after which a
state is left name one at all. In these names each part of the deterministic automaton has a short
description, and the words that lead to `stateAfter w` are those with the same block as `w`.
-/

namespace FiniteAutomata.Automaton

universe u

variable {L : Type u} [BEq L] {A : Automaton L} {F G b c : StateSet} {s : StateId}
  {symbol symbol' : L} {v w : List L} {t : Transition L}

/-! ### Blocks -/

theorem mem_block_iff : s ∈ A.block F ↔ s ∈ A.states ∧ s ∈ F := by
  simp [block]

/-- A block does not depend on the order in which a frontier was found. -/
theorem block_congr (h : ∀ s ∈ A.states, s ∈ F ↔ s ∈ G) : A.block F = A.block G := by
  refine OrderedSet.ext (List.filter_congr fun s hs => ?_)
  rw [Bool.eq_iff_iff, OrderedSet.contains_iff, OrderedSet.contains_iff]
  exact h s hs

/-- Only states have steps, so a frontier moves like its block. -/
theorem move_block : A.move (A.block F) symbol = A.move F symbol := by
  have hdestinations : A.destinations (A.block F) (some symbol) = A.destinations F (some symbol) := by
    refine congrArg (fun l : List (Transition L) => OrderedSet.ofList (l.map (·.destination))) ?_
    refine List.filter_congr fun t ht => ?_
    have hsource : (A.block F).contains t.source = F.contains t.source := by
      rw [Bool.eq_iff_iff, OrderedSet.contains_iff, OrderedSet.contains_iff, mem_block_iff]
      exact and_iff_right (source_mem_states ht)
    rw [hsource]
  rw [move, move, hdestinations]

theorem move_congr [EquivBEq L] (h : (symbol == symbol') = true) :
    A.move F symbol = A.move F symbol' := by
  have hlabel (t : Transition L) : t.hasLabel (some symbol) = t.hasLabel (some symbol') :=
    BEq.congr_right (α := Option L) h
  simp only [move, destinations, hlabel]

/-- The states that a word leads to, as a block. -/
def blockAfter (A : Automaton L) (w : List L) : StateSet := A.block (A.after w)

@[simp] theorem mem_blockAfter_iff : s ∈ A.blockAfter w ↔ A.LeadsTo w s := by
  rw [blockAfter, mem_block_iff, mem_after_iff]
  exact and_iff_right_of_imp LeadsTo.mem_states

theorem blockAfter_eq_of_forall_mem (h : ∀ s ∈ A.states, A.LeadsTo v s ↔ A.LeadsTo w s) :
    A.blockAfter v = A.blockAfter w := by
  refine block_congr fun s hs => ?_
  rw [mem_after_iff, mem_after_iff, h s hs]

theorem blockAfter_eq_iff :
    A.blockAfter v = A.blockAfter w ↔ ∀ s, A.LeadsTo v s ↔ A.LeadsTo w s := by
  refine ⟨fun h s => ?_, fun h => blockAfter_eq_of_forall_mem fun s _ => h s⟩
  rw [← mem_blockAfter_iff, h, mem_blockAfter_iff]

theorem blockAfter_append_singleton :
    A.blockAfter (w ++ [symbol]) = A.block (A.move (A.blockAfter w) symbol) := by
  rw [blockAfter, after_append_singleton, blockAfter, move_block]

theorem blockAfter_append_congr [EquivBEq L] (h : A.blockAfter v = A.blockAfter w)
    (hsymbol : (symbol == symbol') = true) :
    A.blockAfter (v ++ [symbol]) = A.blockAfter (w ++ [symbol']) := by
  rw [blockAfter_append_singleton, blockAfter_append_singleton, h, move_congr hsymbol]

theorem live_iff_isEmpty : A.Live w ↔ (A.after w).isEmpty = false := by
  simp only [Live, ← mem_after_iff]
  exact OrderedSet.isEmpty_eq_false_iff.symm

theorem live_iff_isEmpty_blockAfter : A.Live w ↔ (A.blockAfter w).isEmpty = false := by
  simp only [Live, ← mem_blockAfter_iff]
  exact OrderedSet.isEmpty_eq_false_iff.symm

theorem meets_blockAfter_iff : (A.blockAfter w).meets A.finals = true ↔ A.Accepts w := by
  rw [OrderedSet.meets_iff, accepts_iff_exists_leadsTo]
  simp only [mem_blockAfter_iff, and_comm]

theorem Live.congr (h : A.Live v) (heq : A.blockAfter v = A.blockAfter w) : A.Live w := by
  obtain ⟨s, hs⟩ := h
  exact ⟨s, (blockAfter_eq_iff.1 heq s).1 hs⟩

theorem Accepts.congr (h : A.Accepts v) (heq : A.blockAfter v = A.blockAfter w) : A.Accepts w := by
  obtain ⟨t, hfinal, ht⟩ := accepts_iff_exists_leadsTo.1 h
  exact accepts_iff_exists_leadsTo.2 ⟨t, hfinal, (blockAfter_eq_iff.1 heq t).1 ht⟩

/-! ### The search for blocks -/

/-- The block of a word has, on a symbol, the block of the longer word as its target. -/
theorem target?_blockAfter_eq_some_iff :
    A.target? (A.blockAfter w) symbol = some c ↔
      A.Live (w ++ [symbol]) ∧ A.blockAfter (w ++ [symbol]) = c := by
  have hmove : A.move (A.blockAfter w) symbol = A.after (w ++ [symbol]) := by
    rw [blockAfter, move_block, after_append_singleton]
  rw [target?, hmove, live_iff_isEmpty]
  cases (A.after (w ++ [symbol])).isEmpty with
  | true => simp
  | false => simp [blockAfter]

theorem target?_blockAfter_eq_none_iff :
    A.target? (A.blockAfter w) symbol = none ↔ ¬ A.Live (w ++ [symbol]) := by
  refine ⟨fun hnone hlive => ?_, fun hlive => ?_⟩
  · rw [target?_blockAfter_eq_some_iff.2 ⟨hlive, rfl⟩] at hnone
    cases hnone
  · exact Option.eq_none_iff_forall_ne_some.2 fun c hc =>
      hlive (target?_blockAfter_eq_some_iff.1 hc).1

/-- A symbol that a match can read occurs among the labels, if perhaps in another spelling. -/
theorem exists_symbol_of_live [EquivBEq L] (h : A.Live (w ++ [symbol])) :
    ∃ label ∈ A.symbols, (label == symbol) = true := by
  obtain ⟨s, hs⟩ := h
  obtain ⟨r, -, hpath⟩ := leadsTo_append_iff.1 hs
  obtain ⟨t, ht, -, hlabel, -⟩ := path_singleton_iff.1 hpath
  obtain ⟨label, hsome, hsymbol⟩ : ∃ label, t.label = some label ∧ (label == symbol) = true := by
    cases ht : t.label with
    | none => rw [ht] at hlabel; cases hlabel
    | some label => exact ⟨label, rfl, by rwa [ht] at hlabel⟩
  have hmem : label ∈ A.transitions.toList.filterMap (·.label) :=
    List.mem_filterMap.2 ⟨t, ht, hsome⟩
  obtain ⟨label', hlabel', heq⟩ :=
    OrderedSet.contains_iff_exists.1 (OrderedSet.contains_ofList hmem)
  exact ⟨label', hlabel', PartialEquivBEq.trans heq hsymbol⟩

/-- The universe of the search: a block is one of the sublists of the state list. -/
def blockUniverse (A : Automaton L) : List StateSet :=
  A.states.toList.sublists.map OrderedSet.ofList

theorem block_mem_universe : A.block F ∈ A.blockUniverse :=
  List.mem_map.2 ⟨(A.block F).toList, List.mem_sublists.2 List.filter_sublist,
    OrderedSet.ofList_toList _⟩

theorem length_blockUniverse (A : Automaton L) :
    A.blockUniverse.length ≤ Nat.pow 2 A.numStates := by
  rw [blockUniverse, List.length_map, List.length_sublists]
  exact Nat.le_refl _

theorem mem_firstBlock_iff : b ∈ A.firstBlock ↔ A.Live [] ∧ A.blockAfter [] = b := by
  rw [firstBlock, OrderedSet.mem_filter, OrderedSet.mem_ofList, List.mem_singleton, Bool.not_eq_true',
    live_iff_isEmpty_blockAfter]
  refine ⟨fun h => ?_, fun h => ?_⟩
  · obtain ⟨rfl, hne⟩ := h
    exact ⟨hne, rfl⟩
  · obtain ⟨hne, rfl⟩ := h
    exact ⟨rfl, hne⟩

theorem mem_targets_iff : c ∈ A.targets b ↔ ∃ symbol ∈ A.symbols, A.target? b symbol = some c :=
  List.mem_filterMap

theorem mem_universe_of_mem_firstBlock (h : b ∈ A.firstBlock) : b ∈ A.blockUniverse := by
  obtain ⟨-, rfl⟩ := mem_firstBlock_iff.1 h
  exact block_mem_universe

theorem mem_universe_of_mem_targets (h : c ∈ A.targets b) : c ∈ A.blockUniverse := by
  obtain ⟨symbol, -, htarget⟩ := mem_targets_iff.1 h
  rw [target?] at htarget
  split at htarget
  · cases htarget
  · exact Option.some.inj htarget ▸ block_mem_universe

/-- The bound of the search suffices, for it meets members of the universe only. -/
theorem waiting_blockSearch (A : Automaton L) : A.blockSearch.waiting = [] :=
  Search.waiting_explore (fun _ => mem_universe_of_mem_firstBlock)
    (fun _ _ _ => mem_universe_of_mem_targets) (length_blockUniverse A)

theorem mem_blocks_iff_exists_chain :
    b ∈ A.blocks ↔ ∃ a ∈ A.firstBlock, ∃ n, Search.Chain A.targets n a b :=
  Search.mem_explore (fun _ => mem_universe_of_mem_firstBlock)
    (fun _ _ _ => mem_universe_of_mem_targets) (length_blockUniverse A)

/-- The blocks are the non-empty sets of states that words lead to. -/
theorem mem_blocks_iff [EquivBEq L] : b ∈ A.blocks ↔ ∃ w, A.Live w ∧ A.blockAfter w = b := by
  rw [mem_blocks_iff_exists_chain]
  refine ⟨fun h => ?_, fun h => ?_⟩
  · obtain ⟨a, ha, n, hchain⟩ := h
    induction hchain with
    | nil a => exact ⟨[], mem_firstBlock_iff.1 ha⟩
    | snoc _ hstep ih =>
        obtain ⟨w, -, rfl⟩ := ih ha
        obtain ⟨symbol, -, htarget⟩ := mem_targets_iff.1 hstep
        exact ⟨w ++ [symbol], target?_blockAfter_eq_some_iff.1 htarget⟩
  · obtain ⟨w, hlive, rfl⟩ := h
    induction w using List.reverseRecOn with
    | nil => exact ⟨_, mem_firstBlock_iff.2 ⟨hlive, rfl⟩, 0, .nil _⟩
    | append_singleton w symbol ih =>
        obtain ⟨a, ha, n, hchain⟩ := ih hlive.of_append
        -- The search tries the label in the spelling that the automaton has met first.
        obtain ⟨label, hlabel, heq⟩ := exists_symbol_of_live hlive
        have hblock := blockAfter_append_congr (A := A) (v := w) rfl heq
        refine ⟨a, ha, n + 1, .snoc hchain (mem_targets_iff.2 ⟨label, hlabel, ?_⟩)⟩
        exact target?_blockAfter_eq_some_iff.2 ⟨hlive.congr hblock.symm, hblock⟩

theorem blockId_inj (hb : b ∈ A.blocks) : blockId A.blocks b = blockId A.blocks c ↔ b = c := by
  rw [blockId, blockId, StateId.mk.injEq]
  exact List.idxOf_inj hb

/-! ### States named by words -/

/-- The state that stands for the block of a word. -/
def stateAfter (A : Automaton L) (w : List L) : StateId := blockId A.blocks (A.blockAfter w)

/-- Words name the same state exactly if they lead to the same states. -/
theorem stateAfter_inj [EquivBEq L] (hv : A.Live v) :
    A.stateAfter v = A.stateAfter w ↔ A.blockAfter v = A.blockAfter w :=
  blockId_inj (mem_blocks_iff.2 ⟨v, hv, rfl⟩)

/-- The block at which the search begins is the first that it finds, if it begins at all. -/
theorem take_one_blocks (A : Automaton L) : A.blocks.take 1 = A.firstBlock.toList := by
  obtain ⟨l, hl⟩ := Search.start_isPrefix_explore A.targets (Nat.pow 2 A.numStates) A.firstBlock
  have hblocks : A.blocks = A.firstBlock.toList ++ l := hl.symm
  have hfirst : A.firstBlock.toList = [A.block A.start].filter (!·.isEmpty) := rfl
  cases hempty : (A.block A.start).isEmpty with
  | false =>
      rw [List.filter_cons_of_pos (by rw [hempty]; rfl)] at hfirst
      rw [hblocks, hfirst]
      rfl
  | true =>
      -- A search that begins nowhere finds nothing.
      have hnil : A.firstBlock.toList = [] := by
        rw [hfirst, List.filter_cons_of_neg (by rw [hempty]; decide), List.filter_nil]
      have hsearch : A.blockSearch = { found := A.firstBlock, expanded := 0 } :=
        Search.run_of_waiting_eq_nil hnil
      rw [blocks, hsearch, hnil, List.take_nil]

theorem mem_initials_determinize_iff [EquivBEq L] :
    s ∈ A.determinize.initials ↔ A.Live [] ∧ A.stateAfter [] = s := by
  rw [determinize, ofBlocks, OrderedSet.mem_ofList, List.mem_map, take_one_blocks]
  refine ⟨fun h => ?_, fun h => ?_⟩
  · obtain ⟨b, hb, rfl⟩ := h
    obtain ⟨hlive, rfl⟩ := mem_firstBlock_iff.1 hb
    exact ⟨hlive, rfl⟩
  · obtain ⟨hlive, rfl⟩ := h
    exact ⟨_, mem_firstBlock_iff.2 ⟨hlive, rfl⟩, rfl⟩

theorem mem_finals_determinize_iff [EquivBEq L] :
    s ∈ A.determinize.finals ↔ ∃ w, A.Accepts w ∧ A.stateAfter w = s := by
  rw [determinize, ofBlocks, OrderedSet.mem_ofList, List.mem_map]
  refine ⟨fun h => ?_, fun h => ?_⟩
  · obtain ⟨b, hb, rfl⟩ := h
    obtain ⟨hmem, hmeets⟩ := List.mem_filter.1 hb
    obtain ⟨w, -, rfl⟩ := mem_blocks_iff.1 hmem
    exact ⟨w, meets_blockAfter_iff.1 hmeets, rfl⟩
  · obtain ⟨w, hw, rfl⟩ := h
    exact ⟨_, List.mem_filter.2 ⟨mem_blocks_iff.2 ⟨w, hw.live, rfl⟩, meets_blockAfter_iff.2 hw⟩, rfl⟩

/-- The steps from the state that stands for a block, in the order of the symbols. -/
def stepsFrom (A : Automaton L) (b : StateSet) : List (Transition L) :=
  A.symbols.toList.filterMap fun symbol =>
    (A.target? b symbol).map fun c => ⟨blockId A.blocks b, some symbol, blockId A.blocks c⟩

/-- The steps that the construction lists, before equal ones are put together. -/
theorem mem_steps_iff [EquivBEq L] :
    t ∈ A.blocks.flatMap A.stepsFrom ↔
      ∃ w, ∃ symbol ∈ A.symbols, A.Live (w ++ [symbol]) ∧
        ⟨A.stateAfter w, some symbol, A.stateAfter (w ++ [symbol])⟩ = t := by
  simp only [stepsFrom, List.mem_flatMap, List.mem_filterMap, Option.map_eq_some_iff]
  refine ⟨fun h => ?_, fun h => ?_⟩
  · obtain ⟨b, hb, symbol, hsymbol, c, hc, rfl⟩ := h
    obtain ⟨w, -, rfl⟩ := mem_blocks_iff.1 hb
    obtain ⟨hlive, rfl⟩ := target?_blockAfter_eq_some_iff.1 hc
    exact ⟨w, symbol, hsymbol, hlive, rfl⟩
  · obtain ⟨w, symbol, hsymbol, hlive, rfl⟩ := h
    exact ⟨_, mem_blocks_iff.2 ⟨w, hlive.of_append, rfl⟩, symbol, hsymbol, _,
      target?_blockAfter_eq_some_iff.2 ⟨hlive, rfl⟩, rfl⟩

theorem exists_of_mem_transitions_determinize [EquivBEq L]
    (h : t ∈ A.determinize.transitions) :
    ∃ w symbol, A.Live (w ++ [symbol]) ∧
      ⟨A.stateAfter w, some symbol, A.stateAfter (w ++ [symbol])⟩ = t := by
  obtain ⟨w, symbol, -, hlive, ht⟩ := mem_steps_iff.1 (OrderedSet.mem_of_mem_ofList h)
  exact ⟨w, symbol, hlive, ht⟩

theorem contains_transitions_determinize [EquivBEq L] (h : A.Live (w ++ [symbol])) :
    A.determinize.transitions.contains
      ⟨A.stateAfter w, some symbol, A.stateAfter (w ++ [symbol])⟩ = true := by
  obtain ⟨label, hlabel, heq⟩ := exists_symbol_of_live h
  have hblock := blockAfter_append_congr (A := A) (v := w) rfl heq
  obtain ⟨t, ht, hkept⟩ := OrderedSet.contains_iff_exists.1 (OrderedSet.contains_ofList
    (mem_steps_iff.2 ⟨w, label, hlabel, h.congr hblock.symm, rfl⟩))
  refine OrderedSet.contains_iff_exists.2 ⟨t, ht, PartialEquivBEq.trans hkept ?_⟩
  exact Transition.beq_iff.2 ⟨rfl, heq, congrArg (blockId A.blocks) hblock⟩

/-! ### The deterministic automaton -/

theorem frontier_determinize : A.determinize.frontier = none := rfl

theorem isDeterministic_determinize [EquivBEq L] : A.determinize.isDeterministic = true := by
  refine isDeterministic_iff_clash.2 ⟨?_, fun t ht => ?_, fun t ht u hu hclash => ?_⟩
  · refine (OrderedSet.size_ofList_le _).trans ?_
    rw [List.length_map]
    exact List.length_take_le 1 _
  · obtain ⟨w, symbol, -, rfl⟩ := exists_of_mem_transitions_determinize ht
    rfl
  · obtain ⟨v, symbol, hv, rfl⟩ := exists_of_mem_transitions_determinize ht
    obtain ⟨w, symbol', hw, rfl⟩ := exists_of_mem_transitions_determinize hu
    obtain ⟨hsource, hlabel⟩ := hclash
    have hblock := (stateAfter_inj hv.of_append).1 hsource
    have hdestination := congrArg (blockId A.blocks) (blockAfter_append_congr hblock hlabel)
    exact OrderedSet.eq_of_beq_of_mem ht hu (Transition.beq_iff.2 ⟨hsource, hlabel, hdestination⟩)

/-- A word leads to the state it names, and to no other. -/
theorem leadsTo_determinize_iff [EquivBEq L] :
    A.determinize.LeadsTo w s ↔ A.Live w ∧ A.stateAfter w = s := by
  have hnamed : ∀ w, A.Live w → A.determinize.LeadsTo w (A.stateAfter w) := by
    intro w hlive
    induction w using List.reverseRecOn with
    | nil => exact ⟨_, mem_initials_determinize_iff.2 ⟨hlive, rfl⟩, .nil _⟩
    | append_singleton w symbol ih =>
        refine (ih hlive.of_append).append ?_
        exact Path.step_of_contains (contains_transitions_determinize hlive)
          ⟨symbol, rfl, BEq.rfl⟩ (.nil _)
  refine ⟨fun h => ?_, fun h => ?_⟩
  · suffices hlive : A.Live w from
      ⟨hlive, (hnamed w hlive).eq_of_isDeterministic isDeterministic_determinize h⟩
    induction w using List.reverseRecOn generalizing s with
    | nil =>
        obtain ⟨i, hi, -⟩ := h
        exact (mem_initials_determinize_iff.1 hi).1
    | append_singleton w symbol ih =>
        obtain ⟨r, hr, hpath⟩ := leadsTo_append_iff.1 h
        obtain ⟨label, hstep, hlabel⟩ :=
          (path_singleton_iff_of_isDeterministic isDeterministic_determinize).1 hpath
        obtain ⟨v, label', hv, ht⟩ := exists_of_mem_transitions_determinize hstep
        obtain ⟨hsource, hsome, -⟩ := Transition.mk.inj ht
        obtain rfl := Option.some.inj hsome
        have hw := ih hr
        have hr' := (hnamed w hw).eq_of_isDeterministic isDeterministic_determinize hr
        have hblock := (stateAfter_inj hv.of_append).1 (hsource.trans hr'.symm)
        exact hv.congr (blockAfter_append_congr hblock hlabel)
  · obtain ⟨hlive, rfl⟩ := h
    exact hnamed w hlive

theorem live_determinize_iff [EquivBEq L] : A.determinize.Live w ↔ A.Live w := by
  constructor
  · rintro ⟨s, hs⟩
    exact (leadsTo_determinize_iff.1 hs).1
  · intro hlive
    exact ⟨_, leadsTo_determinize_iff.2 ⟨hlive, rfl⟩⟩

theorem accessible_determinize [EquivBEq L] : A.determinize.Accessible := by
  intro s h
  rcases mem_states_iff.1 h with hs | ⟨t, ht, hs⟩ | hs
  · exact ⟨[], s, hs, .nil s⟩
  · obtain ⟨w, symbol, hlive, rfl⟩ := exists_of_mem_transitions_determinize ht
    rcases hs with rfl | rfl
    · exact ⟨w, leadsTo_determinize_iff.2 ⟨hlive.of_append, rfl⟩⟩
    · exact ⟨w ++ [symbol], leadsTo_determinize_iff.2 ⟨hlive, rfl⟩⟩
  · obtain ⟨w, hw, rfl⟩ := mem_finals_determinize_iff.1 hs
    exact ⟨w, leadsTo_determinize_iff.2 ⟨hw.live, rfl⟩⟩

theorem accepts_determinize_iff [EquivBEq L] : A.determinize.Accepts w ↔ A.Accepts w := by
  rw [accepts_iff_exists_leadsTo]
  refine ⟨fun h => ?_, fun hw => ?_⟩
  · obtain ⟨t, hfinal, hleads⟩ := h
    obtain ⟨v, hv, rfl⟩ := mem_finals_determinize_iff.1 hfinal
    obtain ⟨hlive, heq⟩ := leadsTo_determinize_iff.1 hleads
    exact hv.congr ((stateAfter_inj hlive).1 heq).symm
  · exact ⟨_, mem_finals_determinize_iff.2 ⟨w, hw, rfl⟩, leadsTo_determinize_iff.2 ⟨hw.live, rfl⟩⟩

/-- Determinization changes the answer to no word, whatever match is in progress. -/
theorem accepts_determinize [EquivBEq L] (A : Automaton L) (w : List L) :
    A.determinize.accepts w = A.accepts w := by
  rw [Bool.eq_iff_iff, accepts_iff, accepts_iff]
  exact accepts_determinize_iff

/-- Two initial states, a silent cycle, an isolated final state and a match in progress elsewhere; the
label that the cycle leaves on is spelled in two ways. -/
def twoSpellings : Automaton CaselessText where
  initials := OrderedSet.ofList [0, 7]
  transitions := OrderedSet.ofList
    [⟨0, none, 1⟩, ⟨1, none, 0⟩, ⟨1, some ⟨"A"⟩, 2⟩, ⟨7, some ⟨"a"⟩, 3⟩]
  finals := OrderedSet.ofList [3, 5]
  frontier := some (OrderedSet.ofList [9])
  nextId := 4

theorem accepts_determinize_twoSpellings :
    twoSpellings.determinize.accepts [⟨"A"⟩] = true :=
  (accepts_determinize twoSpellings [⟨"A"⟩]).trans (by decide +kernel)

end FiniteAutomata.Automaton
