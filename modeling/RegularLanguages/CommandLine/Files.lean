/-! # Files

What the files hold is given as a function from paths.  A path that leads to
no text says why. -/
set_option autoImplicit false
namespace RegularLanguages

inductive FileError where
  | missing
  | isFolder
  | notFolder
  /-- A file stands where a folder is to be made. -/
  | occupied
  | notText
deriving DecidableEq

def FileError.message : FileError → String
  | missing => "No such file or directory (os error 2)"
  | isFolder => "Is a directory (os error 21)"
  | notFolder => "Not a directory (os error 20)"
  | occupied => "File exists (os error 17)"
  | notText => "stream did not contain valid UTF-8"

abbrev Files := String → Except FileError String

def Files.hasFile (files : Files) (path : String) : Bool :=
  match files path with
  | .ok _ => true
  | .error .notText => true
  | .error _ => false

end RegularLanguages
