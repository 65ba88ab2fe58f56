import RegularLanguages.Dfa.Basic
import RegularLanguages.Nfa.Run
import RegularLanguages.Text.Quoted

/-! # Comparing two languages word by word

The words of a length come in the order of the alphabet, position by position;
shorter words come before longer ones.  Two recognizers are compared on the words
over the characters that either of them knows, up to a given length. -/
set_option autoImplicit false
namespace RegularLanguages

def wordsOfLength (alphabet : List Char) : Nat → List (List Char)
  | 0 => [[]]
  | length + 1 =>
      let shorter := wordsOfLength alphabet length
      alphabet.flatMap fun c => shorter.map (c :: ·)

def words (alphabet : List Char) (maxLength : Nat) : List (List Char) :=
  (List.range (maxLength + 1)).flatMap (wordsOfLength alphabet)

def findWord? (alphabet : List Char) (maxLength : Nat) (p : List Char → Bool) :
    Option (List Char) :=
  (List.range (maxLength + 1)).findSome? fun length => (wordsOfLength alphabet length).find? p

/-! ## Recognizers -/

/-- A language with a decision procedure, and the characters it is about. -/
structure Recognizer where
  alphabet : List Char
  accepts : List Char → Bool

def Dfa.recognizer (d : Dfa) : Recognizer := ⟨d.alphabet, d.accepts⟩

def Nfa.recognizer (n : Nfa) : Recognizer := ⟨n.alphabet, n.accepts⟩

structure Difference where
  word : List Char
  first : Bool
  second : Bool
deriving DecidableEq

def Difference.message (d : Difference) : String :=
  "Languages differ on " ++ Text.bracketed (d.word.map Text.quotedChar) ++
    ": first accepts = " ++ toString d.first ++ ", second accepts = " ++ toString d.second

namespace Recognizer

def jointAlphabet (a b : Recognizer) : List Char := OrderedSet.ofList (a.alphabet ++ b.alphabet)

def findDifference (a b : Recognizer) (alphabet : List Char) (maxLength : Nat) :
    Option (List Char) :=
  findWord? alphabet maxLength fun word => a.accepts word != b.accepts word

def difference? (a b : Recognizer) (maxLength : Nat) : Option Difference :=
  (a.findDifference b (a.jointAlphabet b) maxLength).map fun word =>
    ⟨word, a.accepts word, b.accepts word⟩

def sameLanguage (a b : Recognizer) (maxLength : Nat) : Bool :=
  (a.findDifference b (a.jointAlphabet b) maxLength).isNone

end Recognizer

end RegularLanguages
