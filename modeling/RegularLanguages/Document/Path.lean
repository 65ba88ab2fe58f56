import RegularLanguages.Document
import RegularLanguages.Nfa.Label

/-! # Paths through written automata

A path follows listed transitions from name to name and spells what their
labels read.  In the document of a deterministic automaton a label reads the
character it consists of; in that of an automaton with free choice some labels
read nothing and one reads any character. -/
set_option autoImplicit false
namespace RegularLanguages

/-- A path over listed transitions, where `reads` tells what a label reads. -/
inductive Row.Path (reads : String → List Char → Prop) (rows : List Row) :
    String → List Char → String → Prop where
  | stay (state : String) : Path reads rows state [] state
  | follow {row : Row} {u v : List Char} {state : String} :
      row ∈ rows → reads row.symbol u → Path reads rows row.target v state →
        Path reads rows row.source (u ++ v) state

theorem Row.Path.mono {reads : String → List Char → Prop} {rows others : List Row}
    {source target : String} {word : List Char} (sub : ∀ row ∈ rows, row ∈ others)
    (path : Path reads rows source word target) : Path reads others source word target := by
  induction path with
  | stay state => exact .stay state
  | follow mem reads _ ih => exact .follow (sub _ mem) reads ih

def readsLiterally (label : String) (word : List Char) : Prop :=
  ∃ c, label.toList = [c] ∧ word = [c]

/-- A label in the table form of labels, over an alphabet. -/
def readsAsLabel (alphabet : List Char) (text : String) (word : List Char) : Prop :=
  match Label.ofText text with
  | .ok .epsilon => word = []
  | .ok label => ∃ c ∈ alphabet, label.reads c = true ∧ word = [c]
  | .error _ => False

/-- The table names the character, on a transition or in its alphabet.  Three
characters stand there for something else. -/
def Document.Names (doc : Document) (c : Char) : Prop :=
  c ∉ ['.', 'ε', 'λ'] ∧
    ((∃ row ∈ doc.transitions, row.symbol.toList = [c]) ∨
      ∃ entry ∈ doc.alphabet, entry.toList = [c])

def Document.Accepts (reads : String → List Char → Prop) (doc : Document) (word : List Char) :
    Prop :=
  ∃ state ∈ doc.accepting, Row.Path reads doc.transitions doc.start word state

end RegularLanguages
