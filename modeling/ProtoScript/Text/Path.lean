/-! # File paths

A path is a list of components divided by slashes. Empty components and the component `.`
do not count.
-/

namespace ProtoScript.Path

def split (separator : Char) : List Char → List (List Char)
  | [] => [[]]
  | c :: rest =>
    if c = separator then [] :: split separator rest
    else match split separator rest with
      | [] => [[c]]
      | first :: others => (c :: first) :: others

def components (path : List Char) : List (List Char) :=
  (split '/' path).filter fun component => component ≠ [] ∧ component ≠ ['.']

/-- The last component of a path, unless it leads to the parent directory. -/
def fileName? (path : List Char) : Option (List Char) :=
  (components path).getLast?.filter (· ≠ ['.', '.'])

def beforeLastDot? : List Char → Option (List Char)
  | [] => none
  | c :: rest =>
    match beforeLastDot? rest with
    | some stem => some (c :: stem)
    | none => if c = '.' then some [] else none

/-- A file name without its extension. A dot in front of a name starts no extension. -/
def withoutExtension (name : List Char) : List Char :=
  match beforeLastDot? name with
  | none | some [] => name
  | some stem => stem

def stem (path : String) : String :=
  match fileName? path.toList with
  | some name => String.ofList (withoutExtension name)
  | none => path

end ProtoScript.Path
