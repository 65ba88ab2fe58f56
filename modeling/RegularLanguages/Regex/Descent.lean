import RegularLanguages.Regex.Derivation
import RegularLanguages.Regex.Parser

/-! # Reading a pattern rule by rule

One function for each rule of the grammar.  It takes from the front of a text
what its rule derives and hands on the rest; a `Reading` holds both and knows
that together they are the text.  A term goes on until the text ends or a bar or
a closing parenthesis follows, a factor as long as operators follow.

Where a term goes on an atom is asked for, and there an atom can begin or the
pattern has a mistake.  `Stop.noAtom` is what asking for one anywhere else would
end with. -/
set_option autoImplicit false
namespace RegularLanguages.Regex

inductive Stop where
  | mistake (cause : ParseError)
  /-- An atom is asked for at the end of the text, at a bar or at a closing
  parenthesis. -/
  | noAtom (position : Nat)
deriving DecidableEq

/-! ## What follows a part -/

def Repetition.ofChar? : Char → Option Repetition
  | '*' => some star
  | '+' => some plus
  | '?' => some opt
  | _ => none

theorem Repetition.char_of_ofChar? {c : Char} {operator : Repetition}
    (stands : ofChar? c = some operator) : operator.char = c := by
  rw [ofChar?.eq_def] at stands
  split at stands <;> cases stands <;> rfl

/-- Whether a text is at its end or goes on with one of some characters. -/
def Follows (allowed : Char → Prop) (rest : List Char) : Prop := ∀ c ∈ rest.head?, allowed c

/-! `EndsExpr`, `EndsTerm` and `EndsFactor` hold of the characters that may stand
after an expression, a term and a factor. -/

def EndsExpr (c : Char) : Prop := c = ')'

def EndsTerm (c : Char) : Prop := c = '|' ∨ c = ')'

instance (c : Char) : Decidable (EndsTerm c) := inferInstanceAs (Decidable (c = '|' ∨ c = ')'))

def EndsFactor (c : Char) : Prop := Repetition.ofChar? c = none

@[simp]
theorem follows_nil (allowed : Char → Prop) : Follows allowed [] := fun _ mem => nomatch mem

@[simp]
theorem follows_cons {allowed : Char → Prop} {c : Char} {rest : List Char} :
    Follows allowed (c :: rest) ↔ allowed c := by
  simp [Follows]

/-! ## Reading -/

structure Reading {α : Type} (chars : α → List Char) (ends : Char → Prop) (text : List Char) where
  part : α
  rest : List Char
  spells : chars part ++ rest = text
  follows : Follows ends rest

theorem AtomDerivation.chars_ne_nil (a : AtomDerivation) : a.chars ≠ [] := by
  cases a <;> simp [chars]

theorem FactorDerivation.chars_ne_nil (f : FactorDerivation) : f.chars ≠ [] := by
  cases f <;> simp [chars, AtomDerivation.chars_ne_nil]

theorem Reading.rest_lt {text : List Char} (r : Reading FactorDerivation.chars EndsFactor text) :
    r.rest.length < text.length := by
  have taken := List.length_pos_iff.2 r.part.chars_ne_nil
  have both := congrArg List.length r.spells
  rw [List.length_append] at both
  omega

def readOperators {text : List Char} (factor : FactorDerivation) :
    (rest : List Char) → factor.chars ++ rest = text →
      Reading FactorDerivation.chars EndsFactor text
  | [], spells => ⟨factor, [], spells, follows_nil _⟩
  | c :: rest, spells =>
      match stands : Repetition.ofChar? c with
      | none => ⟨factor, c :: rest, spells, follows_cons.2 stands⟩
      | some operator =>
          readOperators (.repeated factor operator) rest
            (by simpa [FactorDerivation.chars, Repetition.char_of_ofChar? stands] using spells)

mutual
def readExpr (position : Nat) (text : List Char) :
    Except Stop (Reading ExprDerivation.chars EndsExpr text) :=
  match readTerm position text with
  | .error stop => .error stop
  | .ok ⟨term, [], spells, _⟩ => .ok ⟨.single term, [], spells, follows_nil _⟩
  | .ok ⟨term, c :: rest, spells, follows⟩ =>
      if bar : c = '|' then
        match readExpr (position + term.chars.length + 1) rest with
        | .error stop => .error stop
        | .ok others =>
            .ok ⟨.choice term others.part, others.rest,
              by simp [ExprDerivation.chars, others.spells, ← spells, bar], others.follows⟩
      else
        .ok ⟨.single term, c :: rest, spells,
          follows_cons.2 ((follows_cons.1 follows).resolve_left bar)⟩
termination_by (text.length, 3)
decreasing_by
  · exact .right _ (by decide)
  · exact .left _ _ (by simp [← spells]; omega)

def readTerm (position : Nat) :
    (text : List Char) → Except Stop (Reading TermDerivation.chars EndsTerm text)
  | [] => .ok ⟨.empty, [], rfl, follows_nil _⟩
  | c :: rest =>
      if ends : EndsTerm c then .ok ⟨.empty, c :: rest, rfl, follows_cons.2 ends⟩
      else
        match readFactor position (c :: rest) with
        | .error stop => .error stop
        | .ok factor =>
            match readTerm (position + factor.part.chars.length) factor.rest with
            | .error stop => .error stop
            | .ok others =>
                .ok ⟨.cons factor.part others.part, others.rest,
                  by rw [TermDerivation.chars, List.append_assoc, others.spells, factor.spells],
                  others.follows⟩
termination_by text => (text.length, 2)
decreasing_by
  · exact .right _ (by decide)
  · exact .left _ _ factor.rest_lt

def readFactor (position : Nat) (text : List Char) :
    Except Stop (Reading FactorDerivation.chars EndsFactor text) :=
  match readAtom position text with
  | .error stop => .error stop
  | .ok atom => .ok (readOperators (.atom atom.part) atom.rest atom.spells)
termination_by (text.length, 1)
decreasing_by
  · exact .right _ (by decide)

def readAtom (position : Nat) :
    (text : List Char) → Except Stop (Reading AtomDerivation.chars (fun _ => True) text)
  | [] => .error (.noAtom position)
  | '(' :: inside =>
      match readExpr (position + 1) inside with
      | .error stop => .error stop
      | .ok ⟨part, [], _, _⟩ =>
          .error (.mistake (.missingClose (position + 1 + part.chars.length) none))
      | .ok ⟨part, c :: rest, spells, follows⟩ =>
          .ok ⟨.group part, rest, by
            obtain rfl : c = ')' := show EndsExpr c from follows_cons.1 follows
            simp [AtomDerivation.chars, ← spells], fun _ _ => trivial⟩
  | '.' :: rest => .ok ⟨.any, rest, rfl, fun _ _ => trivial⟩
  | '\\' :: [] => .error (.mistake (.incompleteEscape position))
  | '\\' :: c :: rest => .ok ⟨.escaped c, rest, rfl, fun _ _ => trivial⟩
  | c :: rest =>
      if plain : c ∉ metacharacters then .ok ⟨.literal c plain, rest, rfl, fun _ _ => trivial⟩
      else if EndsTerm c then .error (.noAtom position)
      else .error (.mistake (.unexpected c position))
termination_by text => (text.length, 0)
decreasing_by
  · exact .left _ _ (by simp)
end

def descend (pattern : String) : Except Stop ExprDerivation :=
  match readExpr 0 pattern.toList with
  | .error stop => .error stop
  | .ok ⟨part, [], _, _⟩ => .ok part
  | .ok ⟨part, _ :: _, _, _⟩ => .error (.mistake (.unmatchedClose part.chars.length))

end RegularLanguages.Regex
