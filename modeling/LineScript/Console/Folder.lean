import LineScript.Error

/-! # Folders

A tree of folders and files, in which a path is followed from the folder where a program is
started. Nothing is known about the folders above that one, so they hold nothing else.
-/

namespace LineScript

inductive Node where
  | file (bytes : ByteArray)
  | folder (entries : List (Text × Node))

inductive ReadFailure where
  | notFound
  | notFolder
  | isFolder
  | notText
  | other (reason : Text)
  deriving DecidableEq, Repr

namespace ReadFailure

private def wording : ReadFailure → String
  | notFound => "No such file or directory (os error 2)"
  | notFolder => "Not a directory (os error 20)"
  | isFolder => "Is a directory (os error 21)"
  | notText => "stream did not contain valid UTF-8"
  | other _ => ""

def message (f : ReadFailure) : Text :=
  match f with
  | other reason => reason
  | _ => f.wording.toList

def toError (f : ReadFailure) (path : Text) : Error where
  kind := if f = .notFound then .fileNotFound else .internal
  detail := path ++ ':' :: ' ' :: f.message

end ReadFailure

/-- Reads bytes as text, if they are well-formed UTF-8. -/
def decodeText (bytes : ByteArray) : Except ReadFailure Text :=
  match String.fromUTF8? bytes with
  | some s => .ok s.toList
  | none => .error .notText

namespace Node

def components (path : Text) : List Text :=
  path.foldr (fun c ps =>
    if c = '/' then [] :: ps
    else match ps with
      | [] => [[c]]
      | p :: ps => (c :: p) :: ps) [[]]

/-- Follows names from a node; `above` are the folders it lies in, nearest first. -/
def walk (here : Node) (above : List Node) : List Text → Except ReadFailure Node
  | [] => .ok here
  | name :: path =>
    match here with
    | .file _ => .error .notFolder
    | .folder entries =>
      if name = [] ∨ name = ['.'] then walk here above path
      else if name = ['.', '.'] then
        match above with
        | [] => walk here [] path
        | up :: above => walk up above path
      else match entries.lookup name with
        | none => .error .notFound
        | some n => walk n (here :: above) path

/-- Reads the text file at a path, which starts in this folder unless it begins with a slash. -/
def readText (here : Node) (path : Text) : Except ReadFailure Text :=
  let top := Node.folder []
  let node : Except ReadFailure Node := match path with
    | [] => .error .notFound
    | '/' :: _ => walk top [] (components path)
    | _ => walk here [top] (components path)
  node.bind fun
    | .folder _ => .error .isFolder
    | .file bytes => decodeText bytes

/-- Reads a program, with the error that a user sees when that fails. -/
def load (here : Node) (path : Text) : Except Error Text :=
  (here.readText path).mapError (·.toError path)

end Node

end LineScript
