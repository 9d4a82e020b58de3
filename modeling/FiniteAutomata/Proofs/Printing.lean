import FiniteAutomata.Graphviz.Printer

/-!
# Lines of the printer

The printer puts each statement on a line of its own, but it copies names and labels as they are. So
a statement stays on its line when the texts it has copied have no line feed, and a digraph of such
statements falls back into the lines that were put together.
-/

namespace FiniteAutomata

variable {lines : List String} {x y : String}

/-! ### Lines -/

/-- The text has no line feed. -/
def OneLine (text : String) : Prop := '\n' ∉ text.toList

instance (text : String) : Decidable (OneLine text) := inferInstanceAs (Decidable (_ ∉ _))

theorem oneLine_append : OneLine (x ++ y) ↔ OneLine x ∧ OneLine y := by
  simp [OneLine]

theorem oneLine_intercalate (hx : OneLine x) (h : ∀ line ∈ lines, OneLine line) :
    OneLine (x.intercalate lines) := by
  induction lines with
  | nil => simp [OneLine]
  | cons line lines ih =>
      obtain ⟨hline, hlines⟩ := List.forall_mem_cons.1 h
      cases lines with
      | nil => simpa using hline
      | cons next lines =>
          rw [String.intercalate_cons_cons, oneLine_append, oneLine_append]
          exact ⟨⟨hline, hx⟩, ih hlines⟩

/-- Lines that are put together can be told apart. -/
theorem splitOn_unlines (h : ∀ line ∈ lines, OneLine line) :
    (unlines lines).toList.splitOn '\n' = lines.map String.toList ++ [[]] := by
  induction lines with
  | nil => simp [unlines]
  | cons line lines ih =>
      obtain ⟨hline, hlines⟩ := List.forall_mem_cons.1 h
      have hcons :
          (unlines (line :: lines)).toList = line.toList ++ '\n' :: (unlines lines).toList := by
        simp [unlines]
      rw [hcons, List.splitOn_append_cons_self_of_not_mem hline, ih hlines, List.map_cons,
        List.cons_append]

/-! ### Numbers -/

theorem isDigit_of_mem_toString {n : Nat} {c : Char} (h : c ∈ (toString n).toList) :
    c.isDigit = true := by
  rw [Nat.toString_eq_ofList_toDigits, String.toList_ofList] at h
  exact Nat.isDigit_of_mem_toDigits (by decide) (by decide) h

theorem oneLine_toString (n : Nat) : OneLine (toString n) := by
  intro h
  have hdigit := isDigit_of_mem_toString h
  cases hdigit

/-! ### Statements -/

namespace Printer

/-- The texts that the printer copies as they are. -/
def Attribute.copied : Attribute → List String
  | .label text => [text]
  | .leftToRight | .circle | .color _ | .penWidth _ => []

/-- The texts that the printer copies as they are. -/
def Statement.copied : Statement → List String
  | .digraph a => a.copied
  | .node name attributes => name :: attributes.flatMap Attribute.copied
  | .edge source destination attributes =>
      source :: destination :: attributes.flatMap Attribute.copied

variable {a : Attribute} {attributes : List Attribute} {s : Statement} {statements : List Statement}

theorem oneLine_attribute (h : ∀ text ∈ a.copied, OneLine text) : OneLine a.spelling := by
  cases a with
  | label text =>
      have htext : OneLine text := h text List.mem_cons_self
      simp only [Attribute.spelling, quoted, oneLine_append, htext, and_true]
      decide
  | leftToRight => decide
  | circle => decide
  | color c => cases c <;> decide
  | penWidth width => exact oneLine_append.2 ⟨by decide, oneLine_toString width⟩

theorem oneLine_bracketed (h : ∀ text ∈ attributes.flatMap Attribute.copied, OneLine text) :
    OneLine (bracketed attributes) := by
  have hitems : OneLine (", ".intercalate (attributes.map Attribute.spelling)) := by
    refine oneLine_intercalate (by decide) (List.forall_mem_map.2 fun a ha => ?_)
    exact oneLine_attribute fun text htext => h text (List.mem_flatMap_of_mem ha htext)
  simp only [bracketed, oneLine_append, hitems, and_true]
  decide

theorem oneLine_line (h : ∀ text ∈ s.copied, OneLine text) : OneLine (line s) := by
  have hspelling : OneLine s.spelling := by
    cases s with
    | digraph a => exact oneLine_attribute h
    | node name attributes =>
        obtain ⟨hname, hattributes⟩ := List.forall_mem_cons.1 h
        exact oneLine_append.2 ⟨hname, oneLine_bracketed hattributes⟩
    | edge source destination attributes =>
        obtain ⟨hsource, hrest⟩ := List.forall_mem_cons.1 h
        obtain ⟨hdestination, hattributes⟩ := List.forall_mem_cons.1 hrest
        simp only [Statement.spelling, oneLine_append, hsource, hdestination,
          oneLine_bracketed hattributes, and_true, true_and]
        decide
  simp only [line, oneLine_append, hspelling, and_true]
  decide

theorem splitOn_text (h : ∀ s ∈ statements, ∀ text ∈ s.copied, OneLine text) :
    (text statements).toList.splitOn '\n' =
      (Printer.lines statements).map String.toList ++ [[]] := by
  apply splitOn_unlines
  rw [Printer.lines, List.forall_mem_append, List.forall_mem_append, List.forall_mem_map,
    List.forall_mem_singleton, List.forall_mem_singleton]
  exact ⟨⟨by decide, fun s hs => oneLine_line (h s hs)⟩, by decide⟩

end Printer

end FiniteAutomata
