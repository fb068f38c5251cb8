/-!
# Reading files

A file is read as bytes, or the system says why it cannot be: in words and
with a number.  `Folder` is a folder whose files are known, so that looking a
path up in it is a plain function.
-/

namespace Idl.Command

structure FileError where
  reason : String
  code : Nat
  deriving DecidableEq, Repr

namespace FileError

def notFound : FileError := ⟨"No such file or directory", 2⟩

def notFolder : FileError := ⟨"Not a directory", 20⟩

def isFolder : FileError := ⟨"Is a directory", 21⟩

def denied : FileError := ⟨"Permission denied", 13⟩

/-- The error of the given number.  The words of the common ones are fixed;
for any other they are taken as given. -/
def ofCode (code : Nat) (reason : String) : FileError :=
  ([notFound, denied, notFolder, isFolder].find? (·.code == code)).getD
    ⟨reason, code⟩

def text (e : FileError) : String :=
  e.reason ++ " (os error " ++ e.code.repr ++ ")"

end FileError

/-- The files of a folder, each with its path inside the folder. -/
structure Folder where
  files : List (String × List UInt8)
  deriving DecidableEq, Repr

namespace Folder

def components (path : String) : List String :=
  path.splitOn "/"

def file? (f : Folder) (place : List String) : Option (List UInt8) :=
  (f.files.find? fun file => components file.1 == place).map Prod.snd

/-- Some file lies below the given place. -/
def holds (f : Folder) (place : List String) : Bool :=
  f.files.any fun file =>
    place.isPrefixOf (components file.1) && components file.1 != place

def staysPut (name : String) : Bool := name == "" || name == "."

/-- Outside of the folder there are other folders, but no known file. -/
def outside (names : List String) : FileError :=
  if names.all fun name => staysPut name || name == ".." then
    .isFolder
  else
    .notFound

/-- Follows the names of a path from a place inside the folder. -/
def follow (f : Folder) (place : List String) :
    List String → Except FileError (List UInt8)
  | [] => .error .isFolder
  | name :: rest =>
    if staysPut name then
      f.follow place rest
    else if name = ".." then
      if place = [] then .error (outside rest)
      else f.follow place.dropLast rest
    else
      match f.file? (place ++ [name]) with
      | some content =>
        if rest = [] then .ok content else .error .notFolder
      | none =>
        if f.holds (place ++ [name]) then
          f.follow (place ++ [name]) rest
        else
          .error .notFound

def read (f : Folder) (path : String) : Except FileError (List UInt8) :=
  if path = "" then
    .error .notFound
  else if path.toList.head? = some '/' then
    .error (outside (components path))
  else
    f.follow [] (components path)

end Folder

end Idl.Command
