import FiniteAutomata.Automaton.Action
import FiniteAutomata.Automaton.Built
import FiniteAutomata.Proofs.Frontier

/-!
# Histories of a match

A history of actions tells which word the match in progress has read, if there is one. The frontier
agrees with what is told: it holds the states that this word leads to along the transitions that the
automaton has by then. Every action keeps that agreement. Those that read symbols move the frontier
along paths, and joining states, which could add paths, ends the match. So the agreement holds after
any history that begins without a match, and every question is answered by the word alone.
-/

namespace FiniteAutomata.Automaton

universe u

variable {L : Type u} [BEq L] {A : Automaton L} {F : StateSet} {s : StateId} {symbol : L}
  {word : Option (List L)} {w : List L}

/-- No match is in progress if none is told of; otherwise the frontier holds, each once, the states
that the word told of leads to. -/
def Tracks (A : Automaton L) : Option (List L) → Prop
  | none => A.frontier = none
  | some w => ∃ F, A.frontier = some F ∧ F.toList.Nodup ∧ ∀ s, s ∈ F ↔ A.LeadsTo w s

/-! ### Actions -/

/-- Paths do not depend on the frontier. -/
theorem leadsTo_frontier_iff {frontier : Option StateSet} :
    { A with frontier := frontier }.LeadsTo w s ↔ A.LeadsTo w s :=
  exists_congr fun _ => and_congr_right fun _ => path_congr rfl

theorem tracks_frontier (h : ∀ s, s ∈ F ↔ A.LeadsTo w s) :
    { A with frontier := some F }.Tracks (some w) :=
  ⟨F, rfl, F.nodup_toList, fun s => (h s).trans leadsTo_frontier_iff.symm⟩

/-- The frontier of the match, or of the one that would begin, holds what the word leads to. -/
theorem Tracks.mem_current_iff (h : A.Tracks word) :
    s ∈ A.current ↔ A.LeadsTo (word.getD []) s := by
  cases word with
  | none =>
      have hnone : A.frontier = none := h
      rw [current, hnone]
      exact mem_after_iff (w := [])
  | some w =>
      obtain ⟨F, hF, -, hleads⟩ := h
      rw [current, hF]
      exact hleads s

theorem Tracks.apply (h : A.Tracks word) (action : Action L) :
    (Action.apply A action).Tracks (Action.spelled word action) := by
  cases action with
  | reset => exact tracks_frontier fun s => mem_after_iff (w := [])
  | consume symbol =>
      exact tracks_frontier fun s => mem_move_iff_leadsTo fun r => h.mem_current_iff
  | isAccepting => exact tracks_frontier fun s => h.mem_current_iff
  | accepts w =>
      rw [Action.apply, feed_reset]
      exact tracks_frontier fun s => mem_after_iff
  | fuse sources destinations => exact rfl
  | clone => exact h

theorem Tracks.isAccepting_iff (h : A.Tracks word) :
    A.isAccepting = true ↔ A.Accepts (word.getD []) :=
  meets_silentClosure_iff fun _ => h.mem_current_iff

/-- Only joining states changes anything but the frontier. -/
theorem apply_frontier (A : Automaton L) (action : Action L)
    (h : ∀ sources destinations, action ≠ .fuse sources destinations) :
    { Action.apply A action with frontier := A.frontier } = A := by
  cases action with
  | accepts w => rw [Action.apply, feed_reset]
  | fuse sources destinations => exact absurd rfl (h sources destinations)
  | _ => rfl

theorem Tracks.foldl (h : A.Tracks word) (history : List (Action L)) :
    (history.foldl Action.apply A).Tracks (history.foldl Action.spelled word) := by
  induction history generalizing A word with
  | nil => exact h
  | cons action history ih => exact ih (h.apply action)

/-! ### Built automata -/

theorem frontier_join (host A : Automaton L) : (host.join A).frontier = host.frontier := rfl

theorem frontier_union (operands : List (Automaton L)) : (union operands).frontier = none := by
  suffices h : ∀ host : Automaton L, (operands.foldl join host).frontier = host.frontier from h ∅
  intro host
  induction operands generalizing host with
  | nil => rfl
  | cons A operands ih => rw [List.foldl_cons, ih, frontier_join]

theorem frontier_placeAll (operands : List (Automaton L)) (host : Automaton L) :
    (placeAll operands host).1.frontier = host.frontier := by
  induction operands generalizing host with
  | nil => rfl
  | cons A operands ih => exact ih (A.place host).1

theorem frontier_chain {parts : List Ends} {host : Automaton L} (h : host.frontier = none) :
    (chain parts host).frontier = none := by
  induction parts generalizing host with
  | nil => exact h
  | cons part parts ih =>
      cases parts with
      | nil => exact h
      | cons next parts => exact ih rfl

theorem frontier_of_concat {operands : List (Automaton L)} (h : concat operands = .ok A) :
    A.frontier = none := by
  rw [concat] at h
  split at h
  · cases h
  next host first parts hplaced =>
    obtain rfl := Except.ok.inj h
    have hhost := frontier_placeAll operands ∅
    rw [hplaced] at hhost
    exact frontier_chain hhost

/-- No operation returns an automaton with a match in progress. -/
theorem Built.frontier (h : A.Built) : A.frontier = none := by
  cases h with
  | union operands => exact frontier_union operands
  | alt A B => exact frontier_union [A, B]
  | concat h => exact frontier_of_concat h
  | _ => rfl

/-! ### Histories of built automata -/

/-- After any history that begins at a built automaton, the frontier is that of the word told of,
each question is answered by paths of the automaton at that point, and no action but joining states
changes anything else. -/
theorem tracks_of_built (hA : A.Built) (history : List (Action L)) :
    let B := history.foldl Action.apply A
    let word := history.foldl Action.spelled none
    B.Tracks word ∧
      (∃ b, Action.answer? B .isAccepting = some b ∧ (b = true ↔ B.Accepts (word.getD []))) ∧
      (∀ w, ∃ b, Action.answer? B (.accepts w) = some b ∧ (b = true ↔ B.Accepts w)) ∧
      ∀ action : Action L, (∀ sources destinations, action ≠ .fuse sources destinations) →
        { Action.apply B action with frontier := B.frontier } = B := by
  intro B word
  have hstart : A.Tracks none := hA.frontier
  have htracks : B.Tracks word := hstart.foldl history
  refine ⟨htracks, ⟨B.isAccepting, rfl, htracks.isAccepting_iff⟩, fun w => ?_, apply_frontier B⟩
  exact ⟨B.accepts w, rfl, accepts_iff⟩

/-- A match that is dropped where states are joined, and one that begins with the next symbol and
takes the new step. -/
def joinedMidway : List (Action Char) :=
  [.consume 'a', .fuse (OrderedSet.ofList [1]) (OrderedSet.ofList [2]), .clone, .consume 'a',
    .consume 'b']

theorem tracks_of_built_joinedMidway :
    let B := joinedMidway.foldl Action.apply (alt (atom 'a') (atom 'b'))
    B.Tracks (some ['a', 'b']) ∧ B.frontier = some (OrderedSet.ofList [3]) ∧
      B.Accepts ['a', 'b'] ∧ ¬ B.Accepts ['b', 'a'] ∧ B.reset.frontier ≠ B.frontier ∧
      { B.reset with frontier := B.frontier } = B := by
  intro B
  obtain ⟨htracks, ⟨b, hb, haccepting⟩, hanswers, hframe⟩ :=
    tracks_of_built (.alt (atom 'a') (atom 'b')) joinedMidway
  obtain ⟨c, hc, haccepts⟩ := hanswers ['b', 'a']
  have hyes : Action.answer? B .isAccepting = some true := by decide +kernel
  have hno : Action.answer? B (.accepts ['b', 'a']) = some false := by decide +kernel
  refine ⟨htracks, by decide +kernel, ?_, fun h => ?_, by decide +kernel, ?_⟩
  · exact haccepting.1 (Option.some.inj (hb.symm.trans hyes))
  · exact Bool.false_ne_true (Option.some.inj (hno.symm.trans hc) ▸ haccepts.2 h)
  · exact hframe .reset fun _ _ h => nomatch h

end FiniteAutomata.Automaton
