import FiniteAutomata.Proofs.Correspondence
import FiniteAutomata.Proofs.Reversal
import FiniteAutomata.Proofs.SubsetConstruction

/-!
# Renamed automata, determinized

A block is named by a word that leads to it. Automata in which the same words lead to something, lead
to the same and are accepted therefore have corresponding blocks, whatever names and what order their
states have. Where they try equal symbols in the same order, the two searches meet corresponding
blocks at the same time and number them alike, so the deterministic automata are one and the same but
for the spelling of labels. Renamed automata are of that kind, and so are their reversals: a state is
known by the words it accepts as well as by those that lead to it. Both determinizations of the
minimization come out the same in turn.
-/

namespace FiniteAutomata.Automaton

universe u

variable {L : Type u} [BEq L] {A B : Automaton L} {f : StateId → StateId} {s : StateId}
  {b c : StateSet} {symbol symbol' : L} {v w : List L}

/-! ### Automata with the same frontiers -/

/-- Words cannot tell the frontiers of the one automaton from those of the other. -/
structure SameFrontiers (A B : Automaton L) : Prop where
  live : ∀ w, A.Live w ↔ B.Live w
  /-- Words that lead to the same states of the one lead to the same states of the other. -/
  block : ∀ v w, A.blockAfter v = A.blockAfter w ↔ B.blockAfter v = B.blockAfter w
  accepts : ∀ w, A.Accepts w ↔ B.Accepts w

/-- The blocks that one word leads to. -/
def SameWord (A B : Automaton L) (b c : StateSet) : Prop :=
  ∃ w, A.blockAfter w = b ∧ B.blockAfter w = c

/-- For every state of `B` there is one in `A` that the same words lead to. -/
def Matches (A B : Automaton L) : Prop := ∀ r ∈ B.states, ∃ s, ∀ w, A.LeadsTo w s ↔ B.LeadsTo w r

theorem Matches.live (h : Matches A B) (hlive : B.Live w) : A.Live w := by
  obtain ⟨r, hr⟩ := hlive
  obtain ⟨s, hsame⟩ := h r hr.mem_states
  exact ⟨s, (hsame w).2 hr⟩

theorem Matches.blockAfter_eq (h : Matches A B) (heq : A.blockAfter v = A.blockAfter w) :
    B.blockAfter v = B.blockAfter w := by
  refine blockAfter_eq_of_forall_mem fun r hr => ?_
  obtain ⟨s, hsame⟩ := h r hr
  rw [← hsame, ← hsame]
  exact blockAfter_eq_iff.1 heq s

theorem sameFrontiers_of_matches (hAB : Matches A B) (hBA : Matches B A)
    (haccepts : ∀ w, A.Accepts w ↔ B.Accepts w) : SameFrontiers A B where
  live _ := ⟨hBA.live, hAB.live⟩
  block _ _ := ⟨hAB.blockAfter_eq, hBA.blockAfter_eq⟩
  accepts := haccepts

namespace SameFrontiers

theorem faithful (h : SameFrontiers A B) : Faithful (SameWord A B) := by
  refine faithful_of_eq_iff fun b c b' c' hbc hbc' => ?_
  obtain ⟨v, rfl, rfl⟩ := hbc
  obtain ⟨w, rfl, rfl⟩ := hbc'
  exact h.block v w

theorem meets_iff (h : SameFrontiers A B) (hbc : SameWord A B b c) :
    b.meets A.finals = true ↔ c.meets B.finals = true := by
  obtain ⟨w, rfl, rfl⟩ := hbc
  rw [meets_blockAfter_iff, meets_blockAfter_iff]
  exact h.accepts w

theorem forall₂_firstBlock (h : SameFrontiers A B) :
    List.Forall₂ (SameWord A B) A.firstBlock.toList B.firstBlock.toList := by
  have hbegin : List.Forall₂ (SameWord A B) [A.block A.start] [B.block B.start] :=
    .cons ⟨[], rfl, rfl⟩ .nil
  refine List.rel_filter (fun b c hbc => ?_) hbegin
  obtain ⟨w, rfl, rfl⟩ := hbc
  simp only [Bool.not_eq_true', ← live_iff_isEmpty_blockAfter]
  exact h.live w

variable [EquivBEq L]

/-- On equal symbols, the blocks of one word have as targets the blocks of one longer word, or none. -/
theorem rel_target? (h : SameFrontiers A B) (hbc : SameWord A B b c)
    (hsymbol : (symbol == symbol') = true) :
    Option.Rel (SameWord A B) (A.target? b symbol) (B.target? c symbol') := by
  obtain ⟨w, rfl, rfl⟩ := hbc
  have hblock : B.blockAfter (w ++ [symbol]) = B.blockAfter (w ++ [symbol']) :=
    blockAfter_append_congr rfl hsymbol
  by_cases hlive : A.Live (w ++ [symbol])
  · have hlive' : B.Live (w ++ [symbol']) := ((h.live _).1 hlive).congr hblock
    rw [target?_blockAfter_eq_some_iff.2 ⟨hlive, rfl⟩,
      target?_blockAfter_eq_some_iff.2 ⟨hlive', rfl⟩]
    exact .some ⟨w ++ [symbol], rfl, hblock⟩
  · have hlive' : ¬ B.Live (w ++ [symbol']) := fun hlive' =>
      hlive ((h.live _).2 (hlive'.congr hblock.symm))
    rw [target?_blockAfter_eq_none_iff.2 hlive, target?_blockAfter_eq_none_iff.2 hlive']
    exact .none

/-! ### Two searches, side by side -/

variable (hsymbols : List.Forall₂ (· == ·) A.symbols.toList B.symbols.toList)

include hsymbols

/-- The two searches find corresponding blocks in the same order. -/
theorem forall₂_blocks (h : SameFrontiers A B) :
    List.Forall₂ (SameWord A B) A.blocks B.blocks := by
  have hnext : ∀ b c, SameWord A B b c → List.Forall₂ (SameWord A B) (A.targets b) (B.targets c) :=
    fun b c hbc => List.rel_filterMap (fun _ _ hsymbol => h.rel_target? hbc hsymbol) hsymbols
  exact Search.forall₂_explore h.faithful hnext h.forall₂_firstBlock A.waiting_blockSearch
    B.waiting_blockSearch

theorem blockId_eq (h : SameFrontiers A B) (hbc : SameWord A B b c) :
    blockId A.blocks b = blockId B.blocks c :=
  congrArg StateId.mk (idxOf_eq_idxOf h.faithful (h.forall₂_blocks hsymbols) hbc)

theorem map_blockId_eq (h : SameFrontiers A B) {l m : List StateSet}
    (hlm : List.Forall₂ (SameWord A B) l m) :
    l.map (blockId A.blocks) = m.map (blockId B.blocks) :=
  map_eq_map_of_forall₂ (fun _ _ hbc => h.blockId_eq hsymbols hbc) hlm

theorem forall₂_stepsFrom (h : SameFrontiers A B) (hbc : SameWord A B b c) :
    List.Forall₂ (· == ·) (A.stepsFrom b) (B.stepsFrom c) := by
  refine List.rel_filterMap (fun symbol symbol' hsymbol => ?_) hsymbols
  have htarget := h.rel_target? hbc hsymbol
  generalize A.target? b symbol = x, B.target? c symbol' = y at htarget ⊢
  cases htarget with
  | some hcd =>
      exact .some (Transition.beq_iff.2
        ⟨h.blockId_eq hsymbols hbc, hsymbol, h.blockId_eq hsymbols hcd⟩)
  | none => exact .none

/-- Determinization sees nothing of an automaton but its frontiers and the order of its symbols. -/
theorem respelled_determinize (h : SameFrontiers A B) :
    Respelled A.determinize B.determinize where
  initials := by
    have hfirst := List.forall₂_take 1 (h.forall₂_blocks hsymbols)
    exact congrArg OrderedSet.ofList (h.map_blockId_eq hsymbols hfirst)
  transitions := by
    have hsteps : List.Forall₂ (· == ·) (A.blocks.flatMap A.stepsFrom) (B.blocks.flatMap B.stepsFrom) :=
      List.rel_flatMap (h.forall₂_blocks hsymbols) fun _ _ => h.forall₂_stepsFrom hsymbols
    exact OrderedSet.forall₂_ofList faithful_beq hsteps
  finals := by
    have hfinal := List.rel_filter (fun _ _ hbc => h.meets_iff hbc) (h.forall₂_blocks hsymbols)
    exact congrArg OrderedSet.ofList (h.map_blockId_eq hsymbols hfinal)
  frontier := frontier_determinize.trans frontier_determinize.symm
  nextId := congrArg StateId.mk (h.forall₂_blocks hsymbols).length_eq

end SameFrontiers

/-! ### Renamed automata -/

section Renaming

variable [EquivBEq L]

theorem Renaming.sameFrontiers (hf : Renaming A B f) : SameFrontiers A B := by
  refine sameFrontiers_of_matches (fun r hr => ?_) (fun s hs => ?_) fun w => hf.accepts_iff.symm
  · obtain ⟨s, hs, rfl⟩ := hf.mem_states_iff.1 hr
    exact ⟨s, fun w => (hf.leadsTo_iff hs).symm⟩
  · exact ⟨f s, fun w => hf.leadsTo_iff hs⟩

/-- What leads to a state of the reversal is what the state accepts, read backwards. -/
theorem Renaming.leadsTo_reverse_iff (hf : Renaming A B f) (hs : s ∈ A.states) :
    B.reverse.LeadsTo w (B.copyId (f s)) ↔ A.reverse.LeadsTo w (A.copyId s) := by
  rw [Automaton.leadsTo_reverse_iff hs,
    Automaton.leadsTo_reverse_iff (hf.mem_states_iff.2 ⟨s, hs, rfl⟩), hf.acceptsFrom_iff hs]

theorem Renaming.sameFrontiers_reverse (hf : Renaming A B f) :
    SameFrontiers A.reverse B.reverse := by
  refine sameFrontiers_of_matches (fun r hr => ?_) (fun r hr => ?_) fun w => ?_
  · obtain ⟨q, hq, rfl⟩ := mem_states_reverse_iff.1 hr
    obtain ⟨s, hs, rfl⟩ := hf.mem_states_iff.1 hq
    exact ⟨A.copyId s, fun w => (hf.leadsTo_reverse_iff hs).symm⟩
  · obtain ⟨s, hs, rfl⟩ := mem_states_reverse_iff.1 hr
    exact ⟨B.copyId (f s), fun w => hf.leadsTo_reverse_iff hs⟩
  · rw [accepts_reverse_iff, accepts_reverse_iff, hf.accepts_iff]

omit [EquivBEq L] in
theorem symbols_reverse (A : Automaton L) : A.reverse.symbols = A.symbols := by
  rw [symbols, symbols, toList_transitions_reverse, toList_transitions_copy]
  simp only [List.filterMap_map]
  rfl

end Renaming

/-! ### Respelled automata -/

section Respelled

variable [EquivBEq L]

theorem Respelled.contains_eq (h : Respelled A B) (t : Transition L) :
    A.transitions.contains t = B.transitions.contains t :=
  any_beq_eq faithful_beq h.transitions BEq.rfl

theorem Respelled.renaming (h : Respelled A B) : Renaming A B id where
  injective _ _ _ _ heq := heq
  initials t := by simp [h.initials]
  finals t := by simp [h.finals]
  transition_of_mem t ht := by
    rw [← h.contains_eq]
    exact OrderedSet.contains_of_mem ht
  exists_of_transition u hu := by
    have hcontains : A.transitions.contains u = true := by
      rw [h.contains_eq]
      exact OrderedSet.contains_of_mem hu
    exact OrderedSet.contains_iff_exists.1 hcontains

theorem Respelled.symbols (h : Respelled A B) :
    List.Forall₂ (· == ·) A.symbols.toList B.symbols.toList := by
  have hlabel : ∀ t u : Transition L, (t == u) = true → Option.Rel (· == ·) t.label u.label := by
    intro t u htu
    have heq := (Transition.beq_iff.1 htu).2.1
    generalize t.label = x, u.label = y at heq ⊢
    cases x <;> cases y
    · exact .none
    · cases heq
    · cases heq
    · exact .some heq
  exact OrderedSet.forall₂_ofList faithful_beq (List.rel_filterMap hlabel h.transitions)

end Respelled

/-! ### What the names do not change -/

variable [EquivBEq L]

/-- The deterministic and the minimized automaton depend on nothing but the order of the symbols: from
renamed automata, with other spellings of equal labels, both come out the same, name by name and
transition by transition, and only labels may be spelled differently. -/
theorem respelled_determinize_minimize (hf : Renaming A B f)
    (hsymbols : List.Forall₂ (· == ·) A.symbols.toList B.symbols.toList) :
    Respelled A.determinize B.determinize ∧ Respelled A.minimize B.minimize := by
  refine ⟨hf.sameFrontiers.respelled_determinize hsymbols, ?_⟩
  have hfirst : Respelled A.reverse.determinize B.reverse.determinize := by
    refine hf.sameFrontiers_reverse.respelled_determinize ?_
    rwa [symbols_reverse, symbols_reverse]
  refine hfirst.renaming.sameFrontiers_reverse.respelled_determinize ?_
  rw [symbols_reverse, symbols_reverse]
  exact hfirst.symbols

/-- A cycle of three states and a way back within it. -/
def roundTrip : Automaton CaselessText where
  initials := OrderedSet.ofList [0, 1]
  transitions := OrderedSet.ofList
    [⟨0, some ⟨"a"⟩, 1⟩, ⟨1, some ⟨"b"⟩, 2⟩, ⟨2, none, 0⟩, ⟨2, none, 1⟩]
  finals := OrderedSet.ofList [2]
  frontier := none
  nextId := 3

/-- The same with its states renamed, in other orders, with another spelling of a label and a match in
progress in a foreign state. -/
def roundTripRenamed : Automaton CaselessText where
  initials := OrderedSet.ofList [4, 9]
  transitions := OrderedSet.ofList
    [⟨5, none, 4⟩, ⟨5, none, 9⟩, ⟨9, some ⟨"A"⟩, 4⟩, ⟨4, some ⟨"b"⟩, 5⟩]
  finals := OrderedSet.ofList [5]
  frontier := some (OrderedSet.ofList [1])
  nextId := 2

/-- The states 0, 1 and 2 become 9, 4 and 5. -/
def roundTripName (s : StateId) : StateId := if s = 0 then 9 else if s = 1 then 4 else 5

theorem respelled_determinize_minimize_roundTrip :
    Renaming roundTrip roundTripRenamed roundTripName ∧
      List.Forall₂ (· == ·) roundTrip.symbols.toList roundTripRenamed.symbols.toList ∧
      Respelled roundTrip.determinize roundTripRenamed.determinize ∧
      Respelled roundTrip.minimize roundTripRenamed.minimize := by
  have hf : Renaming roundTrip roundTripRenamed roundTripName := by decide +kernel
  have hsymbols : List.Forall₂ (· == ·) roundTrip.symbols.toList roundTripRenamed.symbols.toList := by
    decide +kernel
  obtain ⟨hdeterminize, hminimize⟩ := respelled_determinize_minimize hf hsymbols
  exact ⟨hf, hsymbols, hdeterminize, hminimize⟩

end FiniteAutomata.Automaton
