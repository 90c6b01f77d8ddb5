/-!
# Paths

Paths are texts, whose parts are separated by slashes. Empty parts and single dots say nothing.
Joining and taking the parent work on the text and keep its spelling; `Path.normalise` brings all
spellings of a path to one.
-/

namespace RelaxSchema.Path

/-! ### Parts -/

/-- The parts of a text between its slashes; there is always one. -/
def split : List Char → List (List Char)
  | [] => [[]]
  | c :: rest =>
    if c = '/' then [] :: split rest
    else
      match split rest with
      | [] => [[c]]
      | part :: parts => (c :: part) :: parts

/-- The text of some parts with slashes between them. -/
def unsplit : List (List Char) → List Char
  | [] => []
  | [part] => part
  | part :: parts => part ++ '/' :: unsplit parts

/-- Whether a part says nothing. -/
def isVoid (part : List Char) : Bool := part.isEmpty || part = ['.']

/-- The part that leads to the directory above. -/
def up : List Char := ['.', '.']

/-- Whether a path begins at the root. -/
def isAbsolute (path : String) : Bool := path.toList.head? = some '/'

/-! ### Normal form -/

/-- Adds a part to the normal form of those before it, which is in reverse: it says nothing, or
takes back an ordinary part, or stays. -/
def reduce (reversed : List (List Char)) (part : List Char) : List (List Char) :=
  if isVoid part then reversed
  else if part = up then
    match reversed with
    -- At the front there is nothing to take back.
    | [] => [up]
    | last :: before => if last = up then up :: last :: before else before
  else part :: reversed

/-- The parts of a path in normal form. -/
def normalParts (path : List Char) : List (List Char) := ((split path).foldl reduce []).reverse

/-- The normal form of a path, relative to the root: no empty parts and dots, and steps upward only
at the front. -/
def normalise (path : String) : String := String.ofList (unsplit (normalParts path.toList))

/-! ### Joining and taking apart -/

/-- The path `path` seen from a directory. An absolute path is the same from everywhere. -/
def join (directory path : String) : String :=
  if isAbsolute path then path
  else
    match directory.toList.getLast? with
    | none => path
    | some '/' => directory ++ path
    | some _ => directory ++ "/" ++ path

/-- The parts without those at the end that say nothing. -/
def dropVoid (parts : List (List Char)) : List (List Char) :=
  (parts.reverse.dropWhile isVoid).reverse

/-- The beginning of a path that is kept as it is, and the parts behind it: the root, or the dot
that a path may begin with. -/
def anchor (path : List Char) : List Char × List (List Char) :=
  match path with
  | '/' :: rest => (['/'], split rest)
  | _ =>
    match split path with
    | ['.'] :: parts => (['.'], parts)
    | parts => ([], parts)

/-- A beginning and the parts behind it as one text. -/
def withAnchor (start : List Char) (parts : List (List Char)) : List Char :=
  if start = ['.'] then start ++ parts.flatMap fun part => '/' :: part
  else start ++ unsplit parts

/-- The text of a path up to its last part, without the parts before that which say nothing. -/
def parentText (path : List Char) : List Char :=
  let (start, parts) := anchor path
  match dropVoid parts with
  | [] => []
  | parts => withAnchor start (dropVoid parts.dropLast)

/-- The directory that a path is in; the present one, if the path does not tell. -/
def parent (path : String) : String :=
  match parentText path.toList with
  | [] => "."
  | text => String.ofList text

/-- The last part of a path that says something. -/
def lastPart (path : String) : Option (List Char) := (dropVoid (anchor path.toList).2).getLast?

/-- What stands behind the last dot of a part, unless the part begins with it. -/
def partExtension (part : List Char) : Option (List Char) :=
  let reversed := part.reverse
  match reversed.dropWhile (· ≠ '.') with
  | [] => none
  | [_] => none
  | _ => some (reversed.takeWhile (· ≠ '.')).reverse

/-- Whether the name of a file ends in a dot and an extension, whose letters are small here and may
be capital ones there. -/
def hasExtension (path : String) (extension : String) : Bool :=
  match lastPart path with
  | none => false
  | some part =>
    part ≠ up && (partExtension part).any fun found =>
      String.ofList (found.map Char.toLower) = extension

end RelaxSchema.Path
