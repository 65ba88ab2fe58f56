import RegularLanguages.Dfa.Table

/-! # The written form of a deterministic automaton

All lists are sorted, names by their characters and transitions by source,
symbol and target, so automata that differ only in the order of their parts are
written alike.  Reading checks the document as a table; its alphabet may name
characters that no transition uses. -/
set_option autoImplicit false
namespace RegularLanguages

namespace Dfa

def row (d : Dfa) (e : Edge) : Row := ⟨d.idOf e.source, e.symbol.toString, d.idOf e.target⟩

def document (d : Dfa) : Document where
  alphabet := d.alphabet.map Char.toString
  states := (d.states.map (·.id)).mergeSort (· ≤ ·)
  start := d.idOf 0
  accepting := (d.acceptingStates.map d.idOf).mergeSort (· ≤ ·)
  transitions := (d.transitions.map d.row).mergeSort Row.le

/-- What a document says as a table, whose symbols are those of its
transitions. -/
def tableOf (doc : Document) : Table where
  states := doc.states
  start := some doc.start
  accepting := doc.accepting
  transitions := doc.transitions

def addSymbolText (d : Dfa) (text : String) : Dfa :=
  match text.toList with
  | [c] => d.addSymbol c
  | _ => d

def ofDocument (doc : Document) : Except TableError Dfa :=
  match ofTable (tableOf doc) with
  | .error e => .error e
  | .ok d => .ok (doc.alphabet.foldl addSymbolText d)

end Dfa

end RegularLanguages
