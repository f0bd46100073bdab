import Dispatch.Text.Offset
/-!
# Files

What a path leads to. A path is followed name by name, from the root or from the working
directory, and the first name that cannot be followed says why the file cannot be read.
-/
namespace Dispatch.Shell

/-- Why a file cannot be read. -/
inductive ReadFault where
  /-- Nothing has that name. -/
  | missing
  /-- Something other than a directory stands where names are to follow. -/
  | notDirectory
  /-- The path ends at a directory. -/
  | isDirectory
  /-- A name, or the whole path, is longer than one may be. -/
  | nameTooLong
  /-- The file is closed to the reader. -/
  | denied
  /-- The file holds bytes that are no text. -/
  | notText
  /-- Something else went wrong. -/
  | other (reason : String)
  deriving DecidableEq, Repr

/-- The fault as shown, with its number if it has one. -/
def ReadFault.message : ReadFault → String
  | missing => "No such file or directory (os error 2)"
  | notDirectory => "Not a directory (os error 20)"
  | isDirectory => "Is a directory (os error 21)"
  | nameTooLong => "File name too long (os error 36)"
  | denied => "Permission denied (os error 13)"
  | notText => "stream did not contain valid UTF-8"
  | other reason => reason

/-- What stands under a name. -/
inductive Entry where
  /-- A file and its text; `none` for bytes that are no text. -/
  | file (text : Option String)
  | directory (entries : List (String × Entry))
  deriving Inhabited

namespace Entry

/-- How many bytes a name may have. -/
def nameLimit : Nat := 255

/-- The entry that names lead to. `above` are the directories above this one, nearest first;
the root stands above itself. An empty name, as between two slashes, stays where it is, but
like every other it needs a directory. -/
def follow (here : Entry) (above : List Entry) : List String → Except ReadFault Entry
  | [] => .ok here
  | name :: names =>
    match here with
    | file _ => .error .notDirectory
    | directory entries =>
      if name = "" ∨ name = "." then follow here above names
      else if name = ".." then
        match above with
        | [] => follow here [] names
        | parent :: further => follow parent further names
      else if nameLimit < Text.size name then .error .nameTooLong
      else match entries.lookup name with
        | none => .error .missing
        | some entry => follow entry (here :: above) names

/-- What reading an entry gives. -/
def text? : Entry → Except ReadFault String
  | file (some text) => .ok text
  | file none => .error .notText
  | directory _ => .error .isDirectory

end Entry

/-- The files that a program finds. -/
structure Files where
  root : Entry
  /-- The names that lead from the root to the working directory. -/
  workingDirectory : List String := []

namespace Files

/-- How many bytes a path may have. -/
def pathLimit : Nat := 4095

/-- The names of a path from the root on. -/
def namesOf (files : Files) (path : String) : List String :=
  let names := path.splitOn "/"
  if path.startsWith "/" then names else files.workingDirectory ++ names

/-- The text of the file that a path leads to. -/
def read (files : Files) (path : String) : Except ReadFault String :=
  if path.isEmpty then .error .missing
  else if pathLimit < Text.size path then .error .nameTooLong
  else
    match files.root.follow [] (files.namesOf path) with
    | .error fault => .error fault
    | .ok entry => entry.text?

end Files
end Dispatch.Shell
