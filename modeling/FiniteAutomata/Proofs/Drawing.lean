import FiniteAutomata.Graphviz
import FiniteAutomata.Proofs.Escapes
import FiniteAutomata.Proofs.Printing

/-!
# Reading a drawing

No text that the printer copies has a line feed if the title has none: ids are digits, and the text
of an edge is escaped. So the drawing falls back into the lines that were put together.

An edge line is read from left to right, a number, another one, and a quoted text. The text is the
mark of a silent step or printable ASCII, and the mark itself is not ASCII. So a silent step is told
from a label that is spelled like its mark, and whatever a label is made of, its line gives it back.
-/

namespace FiniteAutomata

universe u

variable {before rest : List Char}

/-! ### Ids -/

theorem toList_text (s : StateId) : s.text.toList = Nat.toDigits 10 s.val := by
  rw [StateId.text, Nat.toString_eq_ofList_toDigits, String.toList_ofList]

theorem toList_text_ne_nil (s : StateId) : s.text.toList ≠ [] := by
  rw [toList_text]
  exact Nat.toDigits_ne_nil

theorem isDigit_of_mem_text {s : StateId} {c : Char} (h : c ∈ s.text.toList) : c.isDigit = true :=
  isDigit_of_mem_toString h

theorem oneLine_text (s : StateId) : OneLine s.text := oneLine_toString s.val

/-- Passes over what is no digit and reads the number that follows. -/
def readNumber (line : List Char) : Nat × List Char :=
  let start := line.dropWhile fun c => !c.isDigit
  (Nat.ofDigitChars 10 (start.takeWhile Char.isDigit) 0, start.dropWhile Char.isDigit)

theorem readNumber_text (s : StateId) (hbefore : ∀ c ∈ before, c.isDigit = false)
    (hrest : ∀ c ∈ rest.head?, c.isDigit = false) :
    readNumber (before ++ (s.text.toList ++ rest)) = (s.val, rest) := by
  have hdigits : ∀ c ∈ s.text.toList, c.isDigit = true := fun c => isDigit_of_mem_text
  have hskip : (before ++ (s.text.toList ++ rest)).dropWhile (fun c => !c.isDigit) =
      s.text.toList ++ rest := by
    rw [List.dropWhile_append_of_pos (by simpa using hbefore)]
    cases htext : s.text.toList with
    | nil => exact absurd htext (toList_text_ne_nil s)
    | cons d digits =>
        rw [htext] at hdigits
        simp [hdigits d List.mem_cons_self]
  have hstop : rest.takeWhile Char.isDigit = [] ∧ rest.dropWhile Char.isDigit = rest := by
    cases rest with
    | nil => exact ⟨rfl, rfl⟩
    | cons c rest => simp [hrest c rfl]
  have hnumber : (s.text.toList ++ rest).takeWhile Char.isDigit = Nat.toDigits 10 s.val := by
    rw [List.takeWhile_append_of_pos hdigits, hstop.1, List.append_nil, toList_text]
  have hleft : (s.text.toList ++ rest).dropWhile Char.isDigit = rest := by
    rw [List.dropWhile_append_of_pos hdigits, hstop.2]
  simp only [readNumber, hskip, hnumber, hleft, Nat.ofDigitChars_ten_toDigits]

namespace Automaton

open Escape

/-! ### Statements -/

theorem oneLine_nodeName (s : StateId) : OneLine (nodeName s) :=
  oneLine_append.2 ⟨by decide, oneLine_text s⟩

/-- The first quoted value of a line, and what is left behind it. -/
def quotedValue (line : List Char) : Option (List Char × List Char) :=
  readQuoted false ((line.dropWhile (· != '\x22')).drop 1)

/-! ### Nodes -/

section Nodes

variable {L : Type u} [BEq L]

theorem oneLine_of_mem_copied_nodeStatement (A : Automaton L) (s : StateId) :
    ∀ text ∈ (A.nodeStatement s).copied, OneLine text := by
  have hcopied : (A.nodeStatement s).copied = [nodeName s, s.text] := by
    unfold nodeStatement
    split <;> split <;> rfl
  rw [hcopied, List.forall_mem_cons, List.forall_mem_singleton]
  exact ⟨oneLine_nodeName s, oneLine_text s⟩

theorem readNumber_nodeLine (A : Automaton L) (s : StateId) :
    (readNumber (A.nodeLine s).toList).1 = s.val := by
  have hindent : ∀ c ∈ "  node_".toList, c.isDigit = false := by simp
  have hline : ∃ rest, (A.nodeLine s).toList =
      "  node_".toList ++ (s.text.toList ++ " [".toList ++ rest) := by
    simp [nodeLine, nodeStatement, nodeName, Printer.line, Printer.Statement.spelling,
      Printer.bracketed]
  obtain ⟨rest, hrest⟩ := hline
  rw [hrest, List.append_assoc, readNumber_text s hindent (by simp)]

end Nodes

/-! ### Edges -/

section Edges

variable {L : Type u} [Label L]

theorem toList_silentMark : silentMark.toList = ['ε'] := by decide

theorem toList_edgeText_some (label : L) :
    (edgeText (some label)).toList = ascii (Label.text label).toList :=
  String.toList_ofList

theorem quotable_edgeText (label : Option L) : Quotable (edgeText label).toList := by
  cases label with
  | none =>
      rw [edgeText, toList_silentMark]
      exact .bare (by decide) (by decide) .nil
  | some label =>
      rw [toList_edgeText_some]
      apply quotable_ascii

theorem eq_or_printable_of_mem_edgeText {label : Option L} {c : Char}
    (h : c ∈ (edgeText label).toList) : c = 'ε' ∨ Printable c := by
  cases label with
  | none =>
      rw [edgeText, toList_silentMark, List.mem_singleton] at h
      exact .inl h
  | some label =>
      rw [toList_edgeText_some] at h
      exact .inr (printable_of_mem_ascii h)

theorem oneLine_edgeText (label : Option L) : OneLine (edgeText label) := by
  intro h
  exact absurd (eq_or_printable_of_mem_edgeText h) (by decide)

theorem oneLine_of_mem_copied_edgeStatement (t : Transition L) :
    ∀ text ∈ (edgeStatement t).copied, OneLine text := by
  have hcopied : (edgeStatement t).copied =
      [nodeName t.source, nodeName t.destination, edgeText t.label] := rfl
  rw [hcopied, List.forall_mem_cons, List.forall_mem_cons, List.forall_mem_singleton]
  exact ⟨oneLine_nodeName t.source, oneLine_nodeName t.destination, oneLine_edgeText t.label⟩

theorem toList_edgeLine (t : Transition L) :
    (edgeLine t).toList =
      "  node_".toList ++ (t.source.text.toList ++ (" -> node_".toList ++
        (t.destination.text.toList ++ (" [label=".toList ++
          '\x22' :: ((edgeText t.label).toList ++ '\x22' :: "];".toList))))) := by
  simp [edgeLine, edgeStatement, nodeName, Printer.line, Printer.Statement.spelling,
    Printer.bracketed, Printer.Attribute.spelling, Printer.quoted]

/-- No label ends its quotes: they end where the statement does. -/
theorem quotedValue_edgeLine (t : Transition L) :
    quotedValue (edgeLine t).toList = some ((edgeText t.label).toList, "];".toList) := by
  have hid : ∀ (s : StateId), ∀ c ∈ s.text.toList, (c != '\x22') = true := by
    intro s c hc
    rw [bne_iff_ne]
    rintro rfl
    exact absurd (isDigit_of_mem_text hc) (by decide)
  have hindent : ∀ c ∈ "  node_".toList, (c != '\x22') = true := by simp
  have harrow : ∀ c ∈ " -> node_".toList, (c != '\x22') = true := by simp
  have hopening : ∀ c ∈ " [label=".toList, (c != '\x22') = true := by simp
  rw [quotedValue, toList_edgeLine, List.dropWhile_append_of_pos hindent,
    List.dropWhile_append_of_pos (hid t.source), List.dropWhile_append_of_pos harrow,
    List.dropWhile_append_of_pos (hid t.destination), List.dropWhile_append_of_pos hopening]
  exact readQuoted_of_quotable (quotable_edgeText t.label)

/-- What the text of an edge says of the label, if there is one. -/
def readLabel (body : List Char) : Option String :=
  if body = silentMark.toList then none else some (String.ofList (unescape .nothing body))

theorem readLabel_edgeText (label : Option L) :
    readLabel (edgeText label).toList = label.map Label.text := by
  cases label with
  | none => exact if_pos rfl
  | some label =>
      have hmark : (edgeText (some label)).toList ≠ silentMark.toList := by
        intro h
        have hprintable : Printable 'ε' := by
          apply printable_of_mem_ascii
          rw [← toList_edgeText_some label, h]
          decide
        exact absurd hprintable (by decide)
      rw [readLabel, if_neg hmark, toList_edgeText_some, unescape_ascii, String.ofList_toList,
        Option.map_some]

/-- Reads the transition off an edge line. -/
def readEdge (line : List Char) : Option (Transition String) :=
  let source := readNumber line
  let destination := readNumber source.2
  (quotedValue line).map fun value => ⟨⟨source.1⟩, readLabel value.1, ⟨destination.1⟩⟩

theorem readEdge_edgeLine (t : Transition L) :
    readEdge (edgeLine t).toList = some ⟨t.source, t.label.map Label.text, t.destination⟩ := by
  have hindent : ∀ c ∈ "  node_".toList, c.isDigit = false := by simp
  have harrow : ∀ c ∈ " -> node_".toList, c.isDigit = false := by simp
  rw [readEdge, quotedValue_edgeLine, toList_edgeLine, readNumber_text t.source hindent (by simp),
    readNumber_text t.destination harrow (by simp), Option.map_some, readLabel_edgeText]

end Edges

theorem readEdge_edgeLine_of_text (t : Transition String) :
    readEdge (edgeLine t).toList = some t := by
  have htext : t.label.map Label.text = t.label := Option.map_id'
  rw [readEdge_edgeLine, htext]

theorem edgeLine_inj (t u : Transition String) (h : edgeLine t = edgeLine u) : t = u := by
  have hread := congrArg (fun line => readEdge line.toList) h
  simpa only [readEdge_edgeLine_of_text, Option.some.injEq] using hread

example : readEdge "  node_3 -> node_14 [label=\"\\u\x7b3b5\x7d\"];".toList =
    some ⟨3, some "ε", 14⟩ := by decide +kernel

/-! ### The drawing -/

section Drawing

variable {L : Type u} [BEq L] [Label L]

theorem oneLine_of_mem_copied_drawing (A : Automaton L) {title : String} (htitle : OneLine title) :
    ∀ s ∈ A.drawing title, ∀ text ∈ s.copied, OneLine text := by
  rw [drawing, List.forall_mem_append, List.forall_mem_append, List.forall_mem_map,
    List.forall_mem_map, List.forall_mem_cons, List.forall_mem_singleton]
  refine ⟨⟨⟨?_, ?_⟩, fun s _ => oneLine_of_mem_copied_nodeStatement A s⟩,
    fun t _ => oneLine_of_mem_copied_edgeStatement t⟩
  · exact List.forall_mem_singleton.2 htitle
  · exact fun text htext => nomatch htext

theorem graphvizLines_eq (A : Automaton L) (title : String) :
    A.graphvizLines title =
      ["digraph \x7b", Printer.line (.digraph (.label title)),
          Printer.line (.digraph .leftToRight)] ++
        A.states.toList.map A.nodeLine ++ A.transitions.toList.map edgeLine ++ ["\x7d"] := by
  rw [graphvizLines, drawing, Printer.lines, List.map_append, List.map_append, List.map_map,
    List.map_map]
  simp only [← List.append_assoc]
  rfl

end Drawing

/-- A drawing falls into its lines: three at the top, one for each state and one for each transition,
both in their orders, and one at the end. The line for a state begins with its id. On the line for a
transition the quotes around the text of the edge end where the statement does, for the text has no
line feed and no quote mark of its own; and the transition can be read off the line, so that equal
edge lines draw equal transitions. -/
theorem graphviz_exact (A : Automaton String) (title : String) (htitle : '\n' ∉ title.toList) :
    (A.graphviz title).toList.splitOn '\n' = (A.graphvizLines title).map String.toList ++ [[]] ∧
      (A.graphvizLines title).length = 4 + A.numStates + A.transitions.size ∧
      (∃ top, top.length = 3 ∧ A.graphvizLines title =
        top ++ A.states.toList.map A.nodeLine ++ A.transitions.toList.map edgeLine ++ ["\x7d"]) ∧
      (∀ s ∈ A.states, (readNumber (A.nodeLine s).toList).1 = s.val) ∧
      (∀ t ∈ A.transitions,
        quotedValue (edgeLine t).toList = some ((edgeText t.label).toList, "];".toList) ∧
          Quotable (edgeText t.label).toList ∧
          '\n' ∉ (edgeText t.label).toList ∧
          ∀ c ∈ (edgeText t.label).toList, c = 'ε' ∨ Printable c) ∧
      (∀ t ∈ A.transitions, readEdge (edgeLine t).toList = some t) ∧
      ∀ B : Automaton String,
        A.transitions.toList.map edgeLine = B.transitions.toList.map edgeLine →
          A.transitions = B.transitions := by
  refine ⟨Printer.splitOn_text (oneLine_of_mem_copied_drawing A htitle), ?_,
    ⟨_, ?_, graphvizLines_eq A title⟩, ?_, ?_, ?_, ?_⟩
  · simp only [graphvizLines_eq, List.length_append, List.length_map, List.length_cons,
      List.length_nil, numStates, OrderedSet.size]
    omega
  · rfl
  · intro s _
    exact readNumber_nodeLine A s
  · intro t _
    exact ⟨quotedValue_edgeLine t, quotable_edgeText t.label, oneLine_edgeText t.label,
      fun c => eq_or_printable_of_mem_edgeText⟩
  · intro t _
    exact readEdge_edgeLine_of_text t
  · intro B h
    exact OrderedSet.ext ((List.map_inj_right edgeLine_inj).1 h)

/-- Labels with a quote mark, a backslash and line ends, a label spelled like the mark of a silent
step and one spelled like its escaped form. -/
def awkwardLabels : Automaton String where
  initials := OrderedSet.ofList [12]
  transitions := OrderedSet.ofList
    [⟨12, some "\"];", 1⟩, ⟨12, some "\\", 1⟩, ⟨1, some "\r\n", 2⟩, ⟨2, none, 1⟩, ⟨1, some "ε", 2⟩,
      ⟨1, some "\\u\x7b3b5\x7d", 2⟩]
  finals := OrderedSet.ofList [2]
  frontier := none
  nextId := 13

/-- The same with a step on the letter in place of the silent step. -/
def awkwardLetters : Automaton String :=
  { awkwardLabels with
    transitions := awkwardLabels.transitions.map fun t => { t with label := some (t.label.getD "ε") } }

theorem graphviz_exact_awkwardLabels :
    ((awkwardLabels.graphviz "labels").toList.splitOn '\n').length = 4 + 3 + 6 + 1 ∧
      awkwardLabels.transitions.toList.map edgeLine ≠
        awkwardLetters.transitions.toList.map edgeLine := by
  obtain ⟨hlines, hlength, -, -, -, -, hedges⟩ := graphviz_exact awkwardLabels "labels" (by decide)
  constructor
  · have hstates : awkwardLabels.numStates = 3 := by decide +kernel
    have htransitions : awkwardLabels.transitions.size = 6 := by decide +kernel
    rw [hlines, List.length_append, List.length_map, hlength, hstates, htransitions]
    rfl
  · intro h
    exact absurd (hedges awkwardLetters h) (by decide +kernel)

end Automaton

end FiniteAutomata
