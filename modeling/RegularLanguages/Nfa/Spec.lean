import RegularLanguages.Fault
import RegularLanguages.Nfa.Document

/-! # What is said of automata with free choice

`Built n` says that `n` comes from the single start state by adding states, edges
between its states, characters, and accepting states of its own.

A path spells the characters that the labels on its edges read, one after the
other; an edge that reads nothing adds nothing.  Paths that meet can be joined,
and the joined path spells both words.

A document is checked in a fixed order.  Several targets for one state and label
are allowed, and an empty label is one that reads nothing.

Two documents are alike under a renaming of states if it takes the start to the
start and each part of the one to the same part of the other.  Lists count as
sets, labels by what they read, and of the alphabet only the entries that are a
character. -/
set_option autoImplicit false
namespace RegularLanguages.Nfa

inductive Built : Nfa → Prop where
  | new : Built new
  | addState {n : Nfa} : Built n → Built n.addState
  | addSymbol {n : Nfa} (c : Char) : Built n → Built (n.addSymbol c)
  | addEdge {n : Nfa} {e : Edge} :
      Built n → n.has e.source = true → n.has e.target = true → Built (n.addEdge e)
  | setAccepting {n : Nfa} {q : Nat} : Built n → n.has q = true → Built (n.setAccepting q)

/-! ## Paths -/

/-- Some path over the edges leads from one state to another and spells a
word. -/
inductive Path (edges : List Edge) : Nat → List Char → Nat → Prop where
  | stay (q : Nat) : Path edges q [] q
  | silent {p q r : Nat} {w : List Char} :
      ⟨p, .epsilon, q⟩ ∈ edges → Path edges q w r → Path edges p w r
  | read {p q r : Nat} {label : Label} {c : Char} {w : List Char} :
      ⟨p, label, q⟩ ∈ edges → label.reads c = true → Path edges q w r → Path edges p (c :: w) r

def HasAcceptingPath (n : Nfa) (word : List Char) : Prop :=
  ∃ q, n.isAccepting q = true ∧ Path n.edges 0 word q

namespace Path

variable {edges others : List Edge} {p q r : Nat} {u v : List Char}

theorem append (h : Path edges p u q) (g : Path edges q v r) : Path edges p (u ++ v) r := by
  induction h with
  | stay => exact g
  | silent edge _ ih => exact .silent edge (ih g)
  | read edge reads _ ih => exact .read edge reads (ih g)

theorem mono (h : Path edges p u q) (sub : edges ⊆ others) : Path others p u q := by
  induction h with
  | stay => exact .stay _
  | silent edge _ ih => exact .silent (sub edge) ih
  | read edge reads _ ih => exact .read (sub edge) reads ih

end Path

/-! ## Documents -/

def rowChecks (states : List String) (index : Nat) (row : Row) : List Check :=
  [⟨row.source = "" ∨ row.target = "", .incompleteTransition index⟩,
    ⟨1 < row.symbol.length, .invalidSymbol row.symbol⟩,
    ⟨row.source ∉ states, .unknownSource row.source⟩,
    ⟨row.target ∉ states, .unknownTarget row.target⟩]

def checks (doc : Document) : List Check :=
  [⟨doc.states = [], .noStates⟩,
    ⟨doc.start = "", .missingStart⟩,
    ⟨doc.start ∉ doc.states, .unknownStart doc.start⟩] ++
  doc.accepting.map (fun state => ⟨state ∉ doc.states, .unknownAccepting state⟩) ++
  (doc.transitions.mapIdx (rowChecks doc.states)).flatten

structure Step where
  source : String
  label : Label
  target : String

def HasStep (doc : Document) (s : Step) : Prop :=
  ∃ row ∈ doc.transitions,
    row.source = s.source ∧ row.target = s.target ∧ Label.ofText row.symbol = .ok s.label

def listedSymbols (doc : Document) : List Char := doc.alphabet.filterMap symbolOfText?

structure Alike (rename : String → String) (a b : Document) : Prop where
  injective : ∀ s ∈ a.states, ∀ t ∈ a.states, rename s = rename t → s = t
  start : rename a.start = b.start
  states : ∀ t, t ∈ b.states ↔ ∃ s ∈ a.states, rename s = t
  accepting : ∀ t, t ∈ b.accepting ↔ ∃ s ∈ a.accepting, rename s = t
  steps : ∀ t, HasStep b t ↔ ∃ s, HasStep a s ∧ t = ⟨rename s.source, s.label, rename s.target⟩
  symbols : ∀ c, c ∈ listedSymbols b ↔ c ∈ listedSymbols a

end RegularLanguages.Nfa
