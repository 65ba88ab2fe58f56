import RegularLanguages.Text.Character

/-! # Reading quoted text

A quoted text ends at the first quote that no backslash escapes.  What stands
between the quotes is read escape by escape: a backslash comes with a letter, or
with a code point in hexadecimal digits between braces. -/
set_option autoImplicit false
namespace RegularLanguages.Text

/-- What stands before the first quote that is not escaped, as it is written, and
what comes after that quote. -/
def untilQuote : List Char → Option (List Char × List Char)
  | [] => none
  | '"' :: rest => some ([], rest)
  | '\\' :: c :: rest => (untilQuote rest).map fun read => ('\\' :: c :: read.1, read.2)
  | c :: rest => (untilQuote rest).map fun read => (c :: read.1, read.2)

def unescaped? : Char → Option Char
  | '"' => some '"'
  | '\\' => some '\\'
  | 'n' => some '\n'
  | 'r' => some '\r'
  | 't' => some '\t'
  | '0' => some '\x00'
  | _ => none

/-- The characters that were written with escapes.  A number is the code point of
an escape as far as its digits were read. -/
def unescape : Option Nat → List Char → Option (List Char)
  | none, [] => some []
  | some _, [] => none
  | some code, c :: rest =>
      if c = '\x7d' then (unescape none rest).map (Char.ofNat code :: ·)
      else
        match hexDigit? c with
        | some digit => unescape (some (16 * code + digit)) rest
        | none => none
  | none, '\\' :: 'u' :: '\x7b' :: rest => unescape (some 0) rest
  | none, '\\' :: letter :: rest =>
      match unescaped? letter with
      | some c => (unescape none rest).map (c :: ·)
      | none => none
  | none, c :: rest => (unescape none rest).map (c :: ·)

def readQuoted : List Char → Option (String × List Char)
  | '"' :: rest =>
      match untilQuote rest with
      | some (body, after) => (unescape none body).map fun text => (String.ofList text, after)
      | none => none
  | _ => none

theorem length_untilQuote_lt {cs : List Char} {read : List Char × List Char}
    (found : untilQuote cs = some read) : read.2.length < cs.length := by
  fun_induction untilQuote cs generalizing read with
  | case1 => cases found
  | case2 rest =>
      cases found
      simp
  | case3 c rest ih =>
      obtain ⟨_, later, rfl⟩ := Option.map_eq_some_iff.1 found
      have shorter := ih later
      simp only [List.length_cons]
      omega
  | case4 c rest _ _ ih =>
      obtain ⟨_, later, rfl⟩ := Option.map_eq_some_iff.1 found
      have shorter := ih later
      simp only [List.length_cons]
      omega

theorem length_readQuoted_lt {cs : List Char} {read : String × List Char}
    (found : readQuoted cs = some read) : read.2.length < cs.length := by
  unfold readQuoted at found
  split at found
  · next rest =>
    split at found
    · next body after ends =>
      obtain ⟨_, -, rfl⟩ := Option.map_eq_some_iff.1 found
      have shorter : after.length < rest.length := length_untilQuote_lt ends
      simp only [List.length_cons]
      omega
    · cases found
  · cases found

end RegularLanguages.Text
