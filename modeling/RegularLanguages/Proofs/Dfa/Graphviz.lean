import Mathlib.Data.List.Permutation
import RegularLanguages.Dfa.Drawing
import RegularLanguages.Proofs.Dfa.Reordering
import RegularLanguages.Proofs.Text.Quoted

/-! # Drawings are unambiguous

Every line of a drawing is read as the statement that it was written for, whatever
the names and symbols in it are, so the statements are read back
(`readDrawing_graphviz`).  They tell the start, the names in order, which of them
accept and the transitions (`graphviz_unambiguous`). -/
set_option autoImplicit false
namespace RegularLanguages.Dfa

variable {d m : Dfa} {line : String} {sketch : Sketch} {statement : Statement}
  {shape rest plain : List Char} {texts : List String}

/-! ## Reading a line -/

theorem readLine_quoted (text : String) (read : readLine rest = some ⟨shape, texts⟩) :
    readLine ((Text.quoted text).toList ++ rest) =
      some ⟨"\"\"".toList ++ shape, text :: texts⟩ := by
  obtain ⟨body, chars⟩ : ∃ body, (Text.quoted text).toList = '"' :: body := by
    simp [Text.quoted]
  have whole := Text.readQuoted_quoted text rest
  rw [chars, List.cons_append] at whole ⊢
  rw [readLine, if_pos rfl]
  split
  · next quotedText after found =>
    rw [whole] at found
    cases found
    rw [read]
    rfl
  · next found =>
    rw [whole] at found
    cases found

theorem readLine_append (clear : '"' ∉ plain) (read : readLine rest = some ⟨shape, texts⟩) :
    readLine (plain ++ rest) = some ⟨plain ++ shape, texts⟩ := by
  induction plain with
  | nil => exact read
  | cons c plain ih =>
      obtain ⟨notQuote, clear⟩ := List.ne_and_not_mem_of_not_mem_cons clear
      rw [List.cons_append, readLine, if_neg (Ne.symm notQuote), ih clear]
      rfl

theorem readLine_plain (clear : '"' ∉ plain) : readLine plain = some ⟨plain, []⟩ := by
  have ending : readLine [] = some ⟨[], []⟩ := by rw [readLine]
  have read := readLine_append clear ending
  simpa using read

theorem readLine_intercalate (ids : List String) (read : readLine rest = some ⟨shape, texts⟩) :
    readLine ((" ".intercalate (ids.map Text.quoted)).toList ++ rest) =
      some ⟨[' '].intercalate (List.replicate ids.length ['"', '"']) ++ shape, ids ++ texts⟩ := by
  induction ids with
  | nil => simpa using read
  | cons id ids ih =>
      -- The last text has no blank behind it.
      cases ids with
      | nil => simpa using readLine_quoted id read
      | cons next ids =>
          have blank : '"' ∉ [' '] := by decide
          have line := readLine_quoted id (readLine_append blank ih)
          simpa [List.replicate_succ] using line

/-! ## The statements of a drawing -/

/-- The text is one line, which is read as the statement. -/
structure ReadsAs (line : String) (statement : Statement) : Prop where
  lineBreak_notMem : '\n' ∉ line.toList
  read : readStatement line.toList = some statement

theorem readStatement_of_readLine (read : readLine rest = some sketch)
    (means : Statement.ofSketch sketch = statement) : readStatement rest = some statement := by
  rw [readStatement, read, Option.map_some, means]

theorem readsAs_state (id : String) : ReadsAs (Text.quoted id ++ ";") (.state id) where
  lineBreak_notMem := by simp [Text.lineBreak_notMem_quoted]
  read := by
    have after : readLine ";".toList = some ⟨";".toList, []⟩ := readLine_plain (by decide)
    rw [String.toList_append]
    exact readStatement_of_readLine (readLine_quoted id after) rfl

theorem readsAs_start (id : String) :
    ReadsAs ("START -> " ++ Text.quoted id ++ ";") (.start id) where
  lineBreak_notMem := by simp [Text.lineBreak_notMem_quoted]
  read := by
    have before : '"' ∉ "START -> ".toList := by decide
    have after : readLine ";".toList = some ⟨";".toList, []⟩ := readLine_plain (by decide)
    rw [String.toList_append, String.toList_append, List.append_assoc]
    exact readStatement_of_readLine (readLine_append before (readLine_quoted id after)) rfl

theorem readsAs_edgeLine (d : Dfa) (e : Edge) : ReadsAs (d.edgeLine e) (.edge (d.row e)) where
  lineBreak_notMem := by simp [edgeLine, quotedId, Text.lineBreak_notMem_quoted]
  read := by
    have arrow : '"' ∉ " -> ".toList := by decide
    have label : '"' ∉ " [ label=".toList := by decide
    have after : readLine " ];".toList = some ⟨" ];".toList, []⟩ := readLine_plain (by decide)
    have symbol := readLine_quoted e.symbol.toString after
    have target := readLine_quoted (d.idOf e.target) (readLine_append label symbol)
    have line := readLine_quoted (d.idOf e.source) (readLine_append arrow target)
    simp only [edgeLine, quotedId, String.toList_append, List.append_assoc]
    exact readStatement_of_readLine line rfl

theorem lineBreak_notMem_intercalate (ids : List String) :
    '\n' ∉ (" ".intercalate (ids.map Text.quoted)).toList := by
  induction ids with
  | nil => simp
  | cons id ids ih =>
      have first := Text.lineBreak_notMem_quoted id
      cases ids with
      | nil => simpa using first
      | cons next ids =>
          rw [List.map_cons] at ih
          simp only [List.map_cons, String.intercalate_cons_cons, String.toList_append,
            List.mem_append, not_or]
          exact ⟨⟨first, by decide⟩, ih⟩

theorem readsAs_accepting (ids : List String) :
    ReadsAs ("node [shape = doublecircle]; " ++ " ".intercalate (ids.map Text.quoted) ++ ";")
      (.accepting ids) where
  lineBreak_notMem := by
    have between := lineBreak_notMem_intercalate ids
    simp only [String.toList_append, List.mem_append, not_or]
    exact ⟨⟨by decide, between⟩, by decide⟩
  read := by
    have before : '"' ∉ "node [shape = doublecircle]; ".toList := by decide
    have after : readLine ";".toList = some ⟨";".toList, []⟩ := readLine_plain (by decide)
    have line := readLine_append before (readLine_intercalate ids after)
    have all : acceptingShape ids.length =
        "node [shape = doublecircle]; ".toList ++
          ([' '].intercalate (List.replicate ids.length ['"', '"']) ++ ";".toList) :=
      List.append_assoc _ _ _
    rw [String.toList_append, String.toList_append, List.append_assoc]
    rw [List.append_nil, ← all] at line
    exact readStatement_of_readLine line (if_pos rfl)

theorem readsAs_opening :
    List.Forall₂ ReadsAs
      ["digraph finite_state_machine \x7b", "fontname=\"Helvetica,Arial,sans-serif\"",
        "node [fontname=\"Helvetica,Arial,sans-serif\"]",
        "edge [fontname=\"Helvetica,Arial,sans-serif\"]", "rankdir=LR;",
        "node [shape=point,label=\"\"]START"]
      (opening.map .other) := by
  refine .cons ?_ (.cons ?_ (.cons ?_ (.cons ?_ (.cons ?_ (.cons ?_ .nil)))))
  all_goals exact ⟨by decide, by decide +kernel⟩

theorem readsAs_acceptingLine (d : Dfa) :
    List.Forall₂ ReadsAs d.acceptingLine d.acceptingStatement := by
  have line := readsAs_accepting (d.acceptingStates.map d.idOf)
  rw [List.map_map] at line
  unfold acceptingLine acceptingStatement
  cases accepting : d.acceptingStates with
  | nil => exact .nil
  | cons q states =>
      rw [accepting] at line
      exact .cons line .nil

theorem readsAs_map {α : Type} {write : α → String} {means : α → Statement}
    (each : ∀ a, ReadsAs (write a) (means a)) (items : List α) :
    List.Forall₂ ReadsAs (items.map write) (items.map means) := by
  rw [List.forall₂_map_left_iff, List.forall₂_map_right_iff, List.forall₂_same]
  intro item _
  exact each item

theorem readsAs_graphvizLines (d : Dfa) : List.Forall₂ ReadsAs d.graphvizLines d.statements := by
  have circles : ReadsAs "node [shape = circle];" (.other ⟨"node [shape = circle];".toList, []⟩) :=
    ⟨by decide, by decide +kernel⟩
  have closing : ReadsAs "\x7d" (.other ⟨['\x7d'], []⟩) :=
    ⟨by decide, by decide +kernel⟩
  have states := readsAs_map (fun q => readsAs_state (d.idOf q)) (List.range d.size)
  have start := readsAs_start (d.idOf 0)
  have edges := readsAs_map (readsAs_edgeLine d) (d.transitions.mergeSort Edge.le)
  have head := List.rel_append readsAs_opening (readsAs_acceptingLine d)
  have nodes := List.rel_append (List.rel_append head (.cons circles .nil)) states
  have arrows := List.rel_append (List.rel_append nodes (.cons start .nil)) edges
  exact List.rel_append arrows (.cons closing .nil)

theorem linesOf_append (line text : String) (one : '\n' ∉ line.toList) :
    linesOf (line ++ "\n" ++ text) = line.toList :: linesOf text := by
  have chars : (line ++ "\n" ++ text).toList = line.toList ++ '\n' :: text.toList := by simp
  rw [linesOf, chars, List.splitOn_append_cons_self_of_not_mem one,
    List.dropLast_cons_of_ne_nil (List.splitOn_ne_nil _ _)]
  rfl

theorem readDrawing_join {lines : List String} {statements : List Statement}
    (all : List.Forall₂ ReadsAs lines statements) :
    readDrawing (String.join (lines.map (· ++ "\n"))) = some statements := by
  induction all with
  | nil => rfl
  | cons head _ ih =>
      rw [readDrawing] at ih ⊢
      rw [List.map_cons, String.join_cons, linesOf_append _ _ head.lineBreak_notMem,
        List.mapM_cons, head.read, ih]
      rfl

/-- A drawing is read as the statements that it was made of. -/
theorem readDrawing_graphviz (d : Dfa) : readDrawing d.graphviz = some d.statements :=
  readDrawing_join (readsAs_graphvizLines d)

/-! ## What the statements tell -/

section Tells

variable {α : Type} {tells : Statement → List α}

theorem flatMap_acceptingStatement (nobody : tells (.accepting []) = []) (d : Dfa) :
    d.acceptingStatement.flatMap tells = tells (.accepting (d.acceptingStates.map d.idOf)) := by
  unfold acceptingStatement
  cases d.acceptingStates with
  | nil => exact nobody.symm
  | cons q states => simp

theorem flatMap_statements (quiet : ∀ line, tells (.other line) = [])
    (nobody : tells (.accepting []) = []) (d : Dfa) :
    d.statements.flatMap tells =
      tells (.accepting (d.acceptingStates.map d.idOf)) ++
        (List.range d.size).flatMap (fun q => tells (.state (d.idOf q))) ++
        tells (.start (d.idOf 0)) ++
        (d.transitions.mergeSort Edge.le).flatMap (fun e => tells (.edge (d.row e))) := by
  simp [statements, List.flatMap_append, List.flatMap_map, flatMap_acceptingStatement nobody, quiet]

end Tells

theorem flatMap_nothing {α β : Type} (items : List α) :
    items.flatMap (fun _ => ([] : List β)) = [] :=
  List.flatMap_eq_nil_iff.2 fun _ _ => rfl

theorem flatMap_states_statements (d : Dfa) : d.statements.flatMap Statement.states = d.ids := by
  rw [flatMap_statements (fun _ => rfl) rfl, ids_eq_map_range]
  simp [Statement.states, flatMap_nothing, ← List.map_eq_flatMap]

theorem flatMap_starts_statements (d : Dfa) :
    d.statements.flatMap Statement.starts = [d.idOf 0] := by
  rw [flatMap_statements (fun _ => rfl) rfl]
  simp [Statement.starts, flatMap_nothing]

theorem flatMap_acceptingIds_statements (d : Dfa) :
    d.statements.flatMap Statement.acceptingIds = d.acceptingStates.map d.idOf := by
  rw [flatMap_statements (fun _ => rfl) rfl]
  simp [Statement.acceptingIds, flatMap_nothing]

theorem flatMap_rows_statements (d : Dfa) :
    d.statements.flatMap Statement.rows = (d.transitions.mergeSort Edge.le).map d.row := by
  rw [flatMap_statements (fun _ => rfl) rfl]
  simp [Statement.rows, flatMap_nothing, ← List.map_eq_flatMap]

structure DrawnAlike (d m : Dfa) : Prop where
  start : d.idOf 0 = m.idOf 0
  ids : d.ids = m.ids
  accepting : d.acceptingStates.map d.idOf = m.acceptingStates.map m.idOf
  transitions : (d.transitions.map d.named).Perm (m.transitions.map m.named)

theorem drawnAlike_of_statements_eq (same : d.statements = m.statements) : DrawnAlike d m where
  start := by
    have starts := congrArg (List.flatMap Statement.starts) same
    rw [flatMap_starts_statements, flatMap_starts_statements] at starts
    exact List.singleton_inj.1 starts
  ids := by
    have states := congrArg (List.flatMap Statement.states) same
    rwa [flatMap_states_statements, flatMap_states_statements] at states
  accepting := by
    have accepting := congrArg (List.flatMap Statement.acceptingIds) same
    rwa [flatMap_acceptingIds_statements, flatMap_acceptingIds_statements] at accepting
  transitions := by
    have rows := congrArg (List.flatMap Statement.rows) same
    rw [flatMap_rows_statements, flatMap_rows_statements] at rows
    -- Sorting forgets the order in which the edges were added.
    have unsorted : ∀ d : Dfa, ((d.transitions.mergeSort Edge.le).map d.row).Perm
        ((d.transitions.map d.named).map NamedEdge.row) := by
      intro d
      rw [List.map_map]
      exact (d.transitions.mergeSort_perm Edge.le).map d.row
    apply (List.map_perm_map_iff NamedEdge.row_injective).1
    apply (unsorted d).symm.trans
    rw [rows]
    exact unsorted m

/-- A quoted text is read whole, whatever it says and whatever stands after it, so
every line of a drawing is read as its own statement.  Automata with the same
drawing therefore have the same start, the same names in the same order, the same
accepting states and the same transitions. -/
theorem graphviz_unambiguous :
    (∀ text rest, Text.readQuoted ((Text.quoted text).toList ++ rest) = some (text, rest)) ∧
    (∀ d : Dfa, List.Forall₂ ReadsAs d.graphvizLines d.statements) ∧
    (∀ d : Dfa, readDrawing d.graphviz = some d.statements) ∧
    ∀ d m : Dfa, d.graphviz = m.graphviz → DrawnAlike d m := by
  refine ⟨Text.readQuoted_quoted, readsAs_graphvizLines, readDrawing_graphviz, ?_⟩
  intro d m same
  have read := readDrawing_graphviz d
  rw [same, readDrawing_graphviz m] at read
  exact drawnAlike_of_statements_eq (Option.some.inj read).symm

/-- Between bare quotes the name of the start would end its line and make `q` the
start. -/
def intruder : Dfa :=
  ⟨[⟨"p\";\nSTART -> \"q", false⟩, ⟨"q", true⟩], [⟨0, '\\', 0⟩, ⟨0, '"', 1⟩], ['"', '\\']⟩

def intruderReversed : Dfa := { intruder with edges := intruder.edges.reverse }

theorem graphviz_unambiguous_intruder :
    intruder ≠ intruderReversed ∧ intruder.graphviz = intruderReversed.graphviz ∧
      readDrawing intruder.graphviz = some intruder.statements ∧
      DrawnAlike intruder intruderReversed := by
  obtain ⟨-, -, read, alike⟩ := graphviz_unambiguous
  have sorted : intruderReversed.transitions.mergeSort Edge.le =
      intruder.transitions.mergeSort Edge.le := by cbv
  have same : intruder.graphviz = intruderReversed.graphviz := by
    unfold graphviz graphvizLines
    rw [sorted]
    rfl
  exact ⟨by decide, same, read intruder, alike _ _ same⟩

end RegularLanguages.Dfa
