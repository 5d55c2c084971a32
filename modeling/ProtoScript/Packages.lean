import ProtoScript.Schema.File

/-! # Packages and namespaces

The packages that a compilation knows are tracked with the JavaScript namespaces that they
become. A reference is moved from the longest tracked package around it into its namespace.
-/

namespace ProtoScript

/-- The tracked packages, each with its namespace. -/
structure Packages where
  bindings : Dictionary := {}
  deriving DecidableEq, Repr

namespace Packages

/-- Track a package. Nothing is tracked if the package, without the dots around it, or the
namespace is empty. -/
def track (packages : Packages) (package target : String) : Packages :=
  let package := Dotted.trim package
  if package.isEmpty || target.isEmpty then packages
  else ⟨packages.bindings.insert package target⟩

def trackFile (packages : Packages) (file : File) : Packages :=
  packages.track file.package file.targetNamespace

/-- Track the packages of files one after the other, so that of one package the last counts. -/
def trackFiles (packages : Packages) (files : List File) : Packages :=
  files.foldl trackFile packages

def ofFiles (files : List File) : Packages :=
  ({} : Packages).trackFiles files

def toList (packages : Packages) : List (String × String) := packages.bindings.entries

def size (packages : Packages) : Nat := packages.toList.length

def isEmpty (packages : Packages) : Bool := packages.toList.isEmpty

def get? (packages : Packages) (package : String) : Option String :=
  packages.bindings.get? package

def contains (packages : Packages) (package : String) : Bool :=
  (packages.get? package).isSome

def longer (best : Option (String × String)) (binding : String × String) :
    Option (String × String) :=
  match best with
  | some b => if binding.1.length < b.1.length then some b else some binding
  | none => some binding

/-- The longest tracked package that is a dotted prefix of a reference, with its namespace. -/
def enclosing? (packages : Packages) (reference : String) : Option (String × String) :=
  (packages.toList.filter fun b => (Dotted.rest? b.1 reference).isSome).foldl longer none

def isTarget (packages : Packages) (reference : String) : Bool :=
  packages.toList.any fun b => Dotted.within b.2 reference

/-- The JavaScript name of a reference in a tracked package. A reference that already lies in
the namespace of one is its own name. -/
def locate? (packages : Packages) (reference : String) : Option String :=
  match packages.get? reference with
  | some target => some target
  | none =>
    match packages.enclosing? reference with
    | some (package, target) => some (target ++ Dotted.dropScope package reference)
    | none => if packages.isTarget reference then some reference else none

end Packages

end ProtoScript
