import FiniteAutomata.Automaton.Regular
import FiniteAutomata.Proofs.Frontier
import FiniteAutomata.Proofs.Joining
import FiniteAutomata.Proofs.Parts

/-!
# One label, union and concatenation

The automaton of one label takes its only step or none. The union has the copies of its operands and
no other step, so an accepting path is one of a single operand. The concatenation has silent steps
from the final states of each copy to the initial states of the next one. Its paths begin in the
first copy and can only go on to the next, so an accepting path passes through every copy, in order,
and spells a word of each. Linking the parts and choosing where matches begin and end do not interfere,
so two automata give one value whichever is done first, and one automaton gives its copy.
-/

namespace FiniteAutomata.Automaton

universe u

variable {L : Type u} [BEq L] {A A' B C host : Automaton L} {label : Option L}
  {t : Transition L} {f : StateId → StateId} {x y p q : StateId} {part part' : Ends}
  {parts : List Ends} {operands : List (Automaton L)} {first next : Nat} {w : List L}
  {R : StateId → StateId → Prop}

/-! ### No label and one label -/

theorem not_accepts_empty : ¬ (∅ : Automaton L).Accepts w := by
  rintro ⟨x, hx, -⟩
  cases hx

theorem mem_initials_ofLabel_iff : x ∈ (ofLabel label).initials ↔ x = 0 := List.mem_singleton

theorem mem_finals_ofLabel_iff : x ∈ (ofLabel label).finals ↔ x = 1 := List.mem_singleton

theorem mem_transitions_ofLabel_iff : t ∈ (ofLabel label).transitions ↔ t = ⟨0, label, 1⟩ :=
  List.mem_singleton

/-- No step leaves the state that the only one enters, so a path takes at most one step. -/
theorem path_ofLabel (h : (ofLabel label).Path x w y) :
    (w = [] ∧ x = y) ∨ Transition.Spells ⟨0, label, 1⟩ w ∧ x = 0 ∧ y = 1 := by
  induction h using Path.step_induction with
  | nil x => exact .inl ⟨rfl, rfl⟩
  | step t v w y ht hv _ ih =>
      obtain rfl := mem_transitions_ofLabel_iff.1 ht
      rcases ih with ⟨rfl, rfl⟩ | ⟨-, hsource, -⟩
      · exact .inr ⟨(List.append_nil v).symm ▸ hv, rfl, rfl⟩
      · cases hsource

theorem accepts_ofLabel_iff : (ofLabel label).Accepts w ↔ Transition.Spells ⟨0, label, 1⟩ w := by
  refine ⟨fun h => ?_, fun h => ?_⟩
  · obtain ⟨x, hx, y, hy, hpath⟩ := h
    obtain rfl := mem_initials_ofLabel_iff.1 hx
    obtain rfl := mem_finals_ofLabel_iff.1 hy
    rcases path_ofLabel hpath with ⟨-, hends⟩ | ⟨hw, -⟩
    · cases hends
    · exact hw
  · exact ⟨0, mem_initials_ofLabel_iff.2 rfl, 1, mem_finals_ofLabel_iff.2 rfl,
      .single (mem_transitions_ofLabel_iff.2 rfl) h⟩

/-! ### Union -/

theorem placeAll_cons :
    placeAll (A :: operands) host =
      ((placeAll operands (A.place host).1).1,
        (A.place host).2 :: (placeAll operands (A.place host).1).2) := rfl

/-- Copies are placed without regard to where matches begin and end. -/
theorem placeAll_ends (operands : List (Automaton L)) (host : Automaton L)
    (initials finals : StateSet) :
    placeAll operands { host with initials := initials, finals := finals } =
      ({ (placeAll operands host).1 with initials := initials, finals := finals },
        (placeAll operands host).2) := by
  induction operands generalizing host with
  | nil => rfl
  | cons A operands ih =>
      exact congrArg (fun placed => (placed.1, (A.place host).2 :: placed.2)) (ih (A.place host).1)

theorem foldl_join (operands : List (Automaton L)) (host : Automaton L) :
    operands.foldl join host =
      { (placeAll operands host).1 with
        initials := host.initials.insertAll
          ((placeAll operands host).2.flatMap (·.initials.toList))
        finals := host.finals.insertAll ((placeAll operands host).2.flatMap (·.finals.toList)) } := by
  induction operands generalizing host with
  | nil => rfl
  | cons A operands ih =>
      have hplaced : placeAll operands (host.join A) = _ :=
        placeAll_ends operands (A.place host).1 (host.join A).initials (host.join A).finals
      rw [List.foldl_cons, ih, hplaced, placeAll_cons, List.flatMap_cons, List.flatMap_cons,
        OrderedSet.insertAll_append, OrderedSet.insertAll_append]
      rfl

theorem transitions_union (operands : List (Automaton L)) :
    (union operands).transitions = (placeAll operands ∅).1.transitions := by
  rw [union, foldl_join]

theorem mem_initials_union_iff :
    x ∈ (union operands).initials ↔ ∃ part ∈ (placeAll operands ∅).2, x ∈ part.initials := by
  rw [union, foldl_join]
  show x ∈ OrderedSet.ofList _ ↔ _
  rw [OrderedSet.mem_ofList, List.mem_flatMap]
  rfl

theorem mem_finals_union_iff :
    x ∈ (union operands).finals ↔ ∃ part ∈ (placeAll operands ∅).2, x ∈ part.finals := by
  rw [union, foldl_join]
  show x ∈ OrderedSet.ofList _ ↔ _
  rw [OrderedSet.mem_ofList, List.mem_flatMap]
  rfl

section Paths

variable [EquivBEq L]

theorem parts_empty (operands : List (Automaton L)) :
    Parts (placeAll operands ∅).1 0 operands (placeAll operands ∅).2 :=
  parts_placeAll allocated_empty

/-- A path from a copy stays above the ids of the copies before. -/
theorem Parts.first_le_of_path (h : Parts B first operands parts) (hpart : part ∈ parts)
    (hx : x ∈ part.initials) (hpath : B.Path x w y) : first ≤ y.val := by
  induction h with
  | nil => cases hpart
  | cons hcopy _ ih =>
      rcases List.mem_cons.1 hpart with rfl | hpart
      · exact (hcopy.mem_range_of_path hx hpath).1
      · exact hcopy.first_le_next.trans (ih hpart)

/-- A path from an initial to a final state of the copies is one of a single copy. -/
theorem Parts.exists_path_iff (h : Parts B first operands parts) :
    (∃ x y, (∃ part ∈ parts, x ∈ part.initials) ∧ (∃ part ∈ parts, y ∈ part.finals) ∧
      B.Path x w y) ↔ ∃ A ∈ operands, A.Accepts w := by
  induction h with
  | nil => simp
  | @cons A part operands parts first next f hcopy hrest ih =>
      rw [List.exists_mem_cons_iff, ← ih, hcopy.accepts_iff]
      refine ⟨fun h => ?_, fun h => ?_⟩
      · obtain ⟨x, y, ⟨p, hp, hx⟩, ⟨q, hq, hy⟩, hpath⟩ := h
        rcases List.mem_cons.1 hp with rfl | hp
        · have hbelow := (hcopy.mem_range_of_path hx hpath).2
          rcases List.mem_cons.1 hq with rfl | hq
          · exact .inl ⟨x, hx, y, hy, hpath⟩
          · have habove := hrest.first_le_of_final hq hy
            omega
        · have habove := hrest.first_le_of_path hp hx hpath
          rcases List.mem_cons.1 hq with rfl | hq
          · have hbelow := (hcopy.mem_range_of_final hy).2
            omega
          · exact .inr ⟨x, y, ⟨p, hp, hx⟩, ⟨q, hq, hy⟩, hpath⟩
      · rcases h with ⟨x, hx, y, hy, hpath⟩ | ⟨x, y, ⟨p, hp, hx⟩, ⟨q, hq, hy⟩, hpath⟩
        · exact ⟨x, y, ⟨part, List.mem_cons_self, hx⟩, ⟨part, List.mem_cons_self, hy⟩, hpath⟩
        · exact ⟨x, y, ⟨p, List.mem_cons_of_mem _ hp, hx⟩, ⟨q, List.mem_cons_of_mem _ hq, hy⟩, hpath⟩

theorem accepts_union_iff : (union operands).Accepts w ↔ ∃ A ∈ operands, A.Accepts w := by
  rw [← (parts_empty operands).exists_path_iff]
  refine ⟨fun h => ?_, fun h => ?_⟩
  · obtain ⟨x, hx, y, hy, hpath⟩ := h
    exact ⟨x, y, mem_initials_union_iff.1 hx, mem_finals_union_iff.1 hy,
      (path_congr (transitions_union operands)).1 hpath⟩
  · obtain ⟨x, y, hx, hy, hpath⟩ := h
    exact ⟨x, mem_initials_union_iff.2 hx, y, mem_finals_union_iff.2 hy,
      (path_congr (transitions_union operands)).2 hpath⟩

theorem accepts_alt_iff : (A.alt B).Accepts w ↔ A.Accepts w ∨ B.Accepts w := by
  rw [alt, accepts_union_iff]
  simp

end Paths

/-! ### Concatenation -/

/-- A word of each automaton, one after the other. -/
def InTurn (operands : List (Automaton L)) : Language L :=
  fun w => ∃ ws, List.Forall₂ (fun A u => A.Accepts u) operands ws ∧ w = ws.flatten

theorem inTurn_nil : InTurn ([] : List (Automaton L)) w ↔ w = [] := by
  simp [InTurn]

theorem inTurn_cons :
    InTurn (A :: operands) w ↔ Language.product A.Accepts (InTurn operands) w := by
  refine ⟨fun h => ?_, fun h => ?_⟩
  · obtain ⟨_, hall, rfl⟩ := h
    obtain ⟨u, ws, hu, hws, rfl⟩ := List.forall₂_cons_left_iff.1 hall
    exact ⟨u, ws.flatten, List.flatten_cons, hu, ws, hws, rfl⟩
  · obtain ⟨u, _, rfl, hu, ws, hws, rfl⟩ := h
    exact ⟨u :: ws, .cons hu hws, List.flatten_cons.symm⟩

theorem inTurn_singleton : InTurn [A] w ↔ A.Accepts w := by
  simp [inTurn_cons, Language.product, inTurn_nil]

/-- The silent steps of a concatenation: from the final states of each part to the initial states of
the next one. -/
def Linked : List Ends → StateId → StateId → Prop
  | part :: next :: parts, p, q =>
    p ∈ part.finals ∧ q ∈ next.initials ∨ Linked (next :: parts) p q
  | _, _, _ => False

/-- Links do not depend on where matches begin and end, nor do they change it. -/
theorem chain_ends (parts : List Ends) (host : Automaton L) (initials finals : StateSet) :
    chain parts { host with initials := initials, finals := finals } =
      { chain parts host with initials := initials, finals := finals } := by
  induction parts generalizing host with
  | nil => rfl
  | cons part parts ih =>
      cases parts with
      | nil => rfl
      | cons next parts => exact ih (host.fuse part.finals next.initials)

theorem initials_chain (parts : List Ends) (host : Automaton L) :
    (chain parts host).initials = host.initials := by
  have hends := chain_ends parts host host.initials host.finals
  exact (congrArg Automaton.initials hends :)

theorem finals_chain (parts : List Ends) (host : Automaton L) :
    (chain parts host).finals = host.finals := by
  have hends := chain_ends parts host host.initials host.finals
  exact (congrArg Automaton.finals hends :)

section Paths

variable [EquivBEq L]

theorem joined_chain (parts : List Ends) (host : Automaton L) :
    Joined (Linked parts) host (chain parts host) := by
  induction parts generalizing host with
  | nil => exact joined_self host fun _ _ h => h
  | cons part parts ih =>
      cases parts with
      | nil => exact joined_self host fun _ _ h => h
      | cons next parts => exact (joined_fuse host part.finals next.initials).trans (ih _)

omit [EquivBEq L] in
theorem Parts.first_le_source (h : Parts B first operands parts) (hpq : Linked parts p q) :
    first ≤ p.val := by
  induction h with
  | nil => cases hpq
  | @cons A part operands parts first next f hcopy hrest ih =>
      cases parts with
      | nil => cases hpq
      | cons part' parts =>
          rcases hpq with ⟨hp, -⟩ | hpq
          · exact (hcopy.mem_range_of_final hp).1
          · exact hcopy.first_le_next.trans (ih hpq)

omit [EquivBEq L] in
/-- No silent step of a concatenation leads into the first part. -/
theorem Parts.first_le_target (h : Parts B first operands parts) (hpq : Linked (part :: parts) p q) :
    first ≤ q.val := by
  induction h generalizing part with
  | nil => cases hpq
  | @cons A part' operands parts first next f hcopy hrest ih =>
      rcases hpq with ⟨-, hq⟩ | hpq
      · exact (hcopy.mem_range_of_initial hq).1
      · exact hcopy.first_le_next.trans (ih hpq)

/-- A path from the first of two or more copies to the last one passes on to the second copy, after a
word of the first. The silent steps `R` may link further parts as long as their ids are lower. -/
theorem CopiedAs.exists_path_chain_iff (hcopy : CopiedAs A B part first next f)
    (hrest : Parts B next (A' :: operands) (part' :: parts)) (hC : Joined R B C)
    (hR : ∀ p q, first ≤ p.val → (R p q ↔ Linked (part :: part' :: parts) p q)) :
    (∃ x ∈ part.initials, ∃ y ∈ (parts.getLastD part').finals, C.Path x w y) ↔
      ∃ u v, w = u ++ v ∧ A.Accepts u ∧
        ∃ x ∈ part'.initials, ∃ y ∈ (parts.getLastD part').finals, C.Path x v y := by
  refine ⟨fun h => ?_, fun h => ?_⟩
  · obtain ⟨x, hx, y, hy, hpath⟩ := h
    rcases hC.path_iff_first.1 hpath with hpath | ⟨u, v, p, q, rfl, hu, hpq, hv⟩
    · have hbelow := (hcopy.mem_range_of_path hx hpath).2
      have habove := hrest.first_le_of_final List.getLastD_mem_cons hy
      omega
    · obtain ⟨hlow, hbelow⟩ := hcopy.mem_range_of_path hx hu
      rcases (hR p q hlow).1 hpq with ⟨hp, hq⟩ | hpq
      · exact ⟨u, v, rfl, hcopy.accepts_iff.2 ⟨x, hx, p, hp, hu⟩, q, hq, y, hy, hv⟩
      · have habove := hrest.first_le_source hpq
        omega
  · obtain ⟨u, v, rfl, hu, q, hq, y, hy, hv⟩ := h
    obtain ⟨x, hx, p, hp, hpath⟩ := hcopy.accepts_iff.1 hu
    have hlow := (hcopy.mem_range_of_final hp).1
    exact ⟨x, hx, y, hy, hC.path_iff_first.2
      (.inr ⟨u, v, p, q, rfl, hpath, (hR p q hlow).2 (.inl ⟨hp, hq⟩), hv⟩)⟩

/-- An accepting path passes through every copy and spells a word of each. -/
theorem Parts.exists_path_chain_iff (h : Parts B first (A :: operands) (part :: parts))
    (hC : Joined R B C) (hR : ∀ p q, first ≤ p.val → (R p q ↔ Linked (part :: parts) p q)) :
    (∃ x ∈ part.initials, ∃ y ∈ (parts.getLastD part).finals, C.Path x w y) ↔
      InTurn (A :: operands) w := by
  induction operands generalizing A part parts first w with
  | nil =>
      cases h with
      | cons hcopy hrest =>
          cases hrest
          rw [inTurn_singleton, hcopy.accepts_iff, List.getLastD_nil]
          refine exists_congr fun x => and_congr_right fun hx => ?_
          refine exists_congr fun y => and_congr_right fun _ => ?_
          rw [hC.path_iff_first]
          refine or_iff_left ?_
          rintro ⟨u, v, p, q, -, hu, hpq, -⟩
          exact (hR p q (hcopy.mem_range_of_path hx hu).1).1 hpq
  | cons A' operands ih =>
      cases h with
      | @cons _ _ _ _ _ next f hcopy hrest =>
          cases parts with
          | nil => cases hrest
          | cons part' parts =>
              -- The links out of the first copy begin below `next`, so the others keep the rest.
              have hR' : ∀ p q, next ≤ p.val → (R p q ↔ Linked (part' :: parts) p q) := by
                intro p q hp
                rw [hR p q (hcopy.first_le_next.trans hp)]
                refine or_iff_right fun hlink => ?_
                have hbelow := (hcopy.mem_range_of_final hlink.1).2
                omega
              rw [List.getLastD_cons, hcopy.exists_path_chain_iff hrest hC hR, inTurn_cons]
              refine exists_congr fun u => exists_congr fun v => and_congr_right fun _ => ?_
              exact and_congr_right fun _ => ih hrest hR'

omit [EquivBEq L] in
theorem concat_cons (A : Automaton L) (operands : List (Automaton L)) :
    let placed := placeAll operands (A.place ∅).1
    concat (A :: operands) = .ok (chain ((A.place ∅).2 :: placed.2)
      { placed.1 with
        initials := (A.place ∅).2.initials
        finals := (placed.2.getLastD (A.place ∅).2).finals }) := rfl

omit [EquivBEq L] in
theorem exists_concat_of_ne_nil (hne : operands ≠ []) : ∃ C, concat operands = .ok C := by
  obtain ⟨A, operands, rfl⟩ := List.exists_cons_of_ne_nil hne
  exact ⟨_, concat_cons A operands⟩

theorem accepts_concat_iff (h : concat operands = .ok C) : C.Accepts w ↔ InTurn operands w := by
  cases operands with
  | nil => cases h
  | cons A operands =>
      rw [concat_cons] at h
      obtain rfl := Except.ok.inj h
      rw [Accepts, initials_chain, finals_chain]
      exact (parts_empty (A :: operands)).exists_path_chain_iff (joined_chain _ _)
        fun _ _ _ => Iff.rfl

omit [EquivBEq L] in
theorem concat_pair (A B : Automaton L) : concat [A, B] = .ok (A.seq B) := by
  -- A list of parts gets its ends before the parts are linked, a pair gets them afterwards.
  rw [concat_cons, chain_ends]
  rfl

theorem accepts_seq_iff : (A.seq B).Accepts w ↔ Language.product A.Accepts B.Accepts w := by
  rw [accepts_concat_iff (concat_pair A B), inTurn_cons]
  simp only [Language.product, inTurn_singleton]

/-! ### What concatenation accepts -/

/-- Concatenation refuses an empty list and nothing else. Its result accepts the words that are made
of one accepted word of each operand, in order. -/
theorem accepts_concat (operands : List (Automaton L)) :
    (∀ e, concat operands = .error e ↔ operands = [] ∧
      e = .invalidArgument "Cannot concatenate an empty list of automata") ∧
      (operands ≠ [] → ∃ C, concat operands = .ok C ∧ ∀ w, C.accepts w = true ↔
        ∃ ws, w = ws.flatten ∧ List.Forall₂ (fun A u => A.accepts u = true) operands ws) := by
  refine ⟨fun e => ⟨fun h => ?_, fun h => ?_⟩, fun hne => ?_⟩
  · cases operands with
    | nil => exact ⟨rfl, (Except.error.inj h).symm⟩
    | cons A operands => cases h
  · obtain ⟨rfl, rfl⟩ := h
    rfl
  · obtain ⟨C, hC⟩ := exists_concat_of_ne_nil hne
    refine ⟨C, hC, fun w => ?_⟩
    rw [accepts_iff, accepts_concat_iff hC]
    simp only [InTurn, accepts_iff, and_comm]

/-- Ones, any number of them. The only step on a one leaves and enters the initial state, silent
steps lead from there to the final state and back, and the ids are not those that the automaton
would allocate. -/
def ones : Automaton Nat where
  initials := OrderedSet.ofList [7]
  transitions := OrderedSet.ofList [⟨7, some 1, 7⟩, ⟨7, none, 4⟩, ⟨4, none, 7⟩]
  finals := OrderedSet.ofList [4]
  frontier := some (OrderedSet.ofList [9])
  nextId := 0

/-- An operand that occurs twice is entered twice, with the other one between. -/
theorem accepts_concat_ones :
    (∃ C, concat [ones, atom 2, ones] = .ok C ∧ C.accepts [1, 1, 2, 1] = true ∧
      C.accepts [1, 1] = false) ∧ concat ([] : List (Automaton Nat)) = .error .emptyConcatenation := by
  obtain ⟨-, hbuilt⟩ := accepts_concat [ones, atom 2, ones]
  obtain ⟨C, hC, hwords⟩ := hbuilt (List.cons_ne_nil _ _)
  have hmissing : (concat [ones, atom 2, ones]).toOption.any (·.accepts [1, 1]) = false := by
    decide +kernel
  rw [hC] at hmissing
  refine ⟨⟨C, hC, (hwords _).2 ⟨[[1, 1], [2], [1]], rfl, ?_⟩, hmissing⟩, ?_⟩
  · exact .cons (by decide +kernel) (.cons (by decide +kernel) (.cons (by decide +kernel) .nil))
  · exact ((accepts_concat []).1 _).2 ⟨rfl, rfl⟩

end Paths

/-! ### One and two operands -/

theorem concat_singleton (A : Automaton L) : concat [A] = .ok A.copy := concat_cons A []

/-- The ends of the only operand are added to none. -/
theorem union_singleton (A : Automaton L) : union [A] = A.copy := by
  have hinitials : (union [A]).initials = A.copy.initials := OrderedSet.ofList_toList _
  have hfinals : (union [A]).finals = A.copy.finals := OrderedSet.ofList_toList _
  exact Automaton.ext hinitials rfl hfinals rfl rfl

/-- Two automata are concatenated to the same value as a list of the two, and a list of one automaton
is concatenated, and united, to the value that its copy is: the same sets in the same order, the same
next id and no match in progress. -/
theorem concat_eq_seq_and_copy (A B : Automaton L) :
    concat [A, B] = .ok (A.seq B) ∧ concat [A] = .ok A.copy ∧ union [A] = A.copy := by
  refine ⟨?_, ?_, ?_⟩
  · exact concat_pair A B
  · exact concat_singleton A
  · exact union_singleton A

end FiniteAutomata.Automaton
