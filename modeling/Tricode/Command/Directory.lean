import Tricode.Text.Utf8

/-!
# Files by name

A directory is given by its files, each with its path from there. `Directory.read` resolves a name
step by step, as a file system does: a step through a file, or through a name that is not there,
fails at once, whatever follows. A step of more than 255 bytes is no name, and a path of more than
4095 bytes is no path.
-/

namespace Tricode.Command

open Text (Bytes)

/-- Why a file cannot be read. -/
inductive ReadError where
  | notFound
  | notADirectory
  | isADirectory
  | nameTooLong
  | undecodable (e : Text.Utf8.Error)
deriving DecidableEq, Repr

/-- The error in words, for a file of the given name. -/
def ReadError.message (name : String) : ReadError → String
  | notFound => s!"[Errno 2] No such file or directory: {Text.quoted name}"
  | notADirectory => s!"[Errno 20] Not a directory: {Text.quoted name}"
  | isADirectory => s!"[Errno 21] Is a directory: {Text.quoted name}"
  | nameTooLong => s!"[Errno 36] File name too long: {Text.quoted name}"
  | undecodable e => e.message

/-- The files of a directory and of those below it. -/
structure Directory where
  files : List (String × Bytes)

namespace Directory

/-- The steps of a path: what stands between its slashes. -/
def steps : List Char → List (List Char)
  | [] => [[]]
  | c :: cs =>
    if c = '/' then [] :: steps cs
    else match steps cs with
      | s :: ss => (c :: s) :: ss
      | [] => [[c]]

/-- How many bytes a step may have. -/
def maxStep : Nat := 255

/-- How many bytes a path may have. -/
def maxPath : Nat := 4095

/-- The number of bytes of a step or a path. -/
def size (cs : List Char) : Nat :=
  (String.ofList cs).utf8ByteSize

/-- The steps that lead somewhere: all but empty ones and single dots. -/
def realSteps (path : String) : List (List Char) :=
  (steps path.toList).filter fun s => !s.isEmpty && s != ['.']

/-- The file with the given steps; of several the last. -/
def file? (d : Directory) (place : List (List Char)) : Option Bytes :=
  (d.files.reverse.find? fun (name, _) => realSteps name == place).map Prod.snd

/-- Whether some file lies below these steps. -/
def isDirectory (d : Directory) (place : List (List Char)) : Bool :=
  d.files.any fun (name, _) => place.isPrefixOf (realSteps name)

/-- Goes on from a place inside the directory, or outside of it if there is none, through the
remaining steps. Of the places outside nothing is known but that they are directories. -/
def walk (d : Directory) : Option (List (List Char)) → List (List Char) → Except ReadError Bytes
  | _, [] => .error .isADirectory
  | place, [] :: rest => walk d place rest
  | place, ['.'] :: rest => walk d place rest
  | place, ['.', '.'] :: rest =>
    match place with
    | some (s :: ss) => walk d (some (s :: ss).dropLast) rest
    | _ => walk d none rest
  | none, s :: _ => if size s > maxStep then .error .nameTooLong else .error .notFound
  | some place, s :: rest =>
    let here := place ++ [s]
    if size s > maxStep then .error .nameTooLong
    else match d.file? here with
    | some bytes => if rest.isEmpty then .ok bytes else .error .notADirectory
    | none => if d.isDirectory here then walk d (some here) rest else .error .notFound

/-- The contents of a file. -/
def read (d : Directory) (name : String) : Except ReadError Bytes :=
  if size name.toList > maxPath then .error .nameTooLong
  else match name.toList with
  | '/' :: rest => walk d none (steps rest)
  | path => walk d (some []) (steps path)

end Directory

end Tricode.Command
