import RegularLanguages.Text.Character

/-! # Quoted text

Text between quotes, in which every character that would not show as itself is
written as an escape: the quote and the backslash, the line breaks, the tab and
the null character with a letter of their own, and the other characters that
have no printed form, may be left out in print or attach to the one before them
by their code points. -/
set_option autoImplicit false
namespace RegularLanguages.Text

def escapeLetter? (quote c : Char) : Option Char :=
  if c = quote then some quote
  else match c with
    | '\\' => some '\\'
    | '\n' => some 'n'
    | '\r' => some 'r'
    | '\t' => some 't'
    | '\x00' => some '0'
    | _ => none

def needsCodePoint (c : Char) : Bool :=
  if c.toNat < 0x7f then c.toNat < 0x20
  else isUnprintable c || isExtender c || isIgnorable c

def quoteChar (quote c : Char) : List Char :=
  match escapeLetter? quote c with
  | some letter => ['\\', letter]
  | none =>
      if needsCodePoint c then '\\' :: 'u' :: '\x7b' :: Nat.toDigits 16 c.toNat ++ ['\x7d'] else [c]

def quoted (text : String) : String :=
  String.ofList ('"' :: text.toList.flatMap (quoteChar '"') ++ ['"'])

def quotedChar (c : Char) : String := String.ofList ('\'' :: quoteChar '\'' c ++ ['\''])

def bracketed (items : List String) : String := "[" ++ ", ".intercalate items ++ "]"

end RegularLanguages.Text
