import ProtoScript.Metadata

/-! # Registrations

An extension field is registered on the message that it extends, under a name that includes its
scope.
-/

namespace ProtoScript

structure Registration where
  target : String
  number : UInt32
  metadata : Metadata
  deriving DecidableEq, Repr

/-- The call that registers an extension, each line behind an indent. -/
def Registration.render (runtime indent : String) (r : Registration) : String :=
  indent ++ runtime ++ ".extend(" ++ r.target ++ ", \x7b\n" ++
    indent ++ "  " ++ Decimal.ofInt r.number.toNat ++ ": " ++ r.metadata.render ++ "\n" ++
    indent ++ "\x7d);\n\n"

def Registration.renderAll (runtime : String) (registrations : List Registration) : String :=
  String.join (registrations.map (render runtime ""))

def Extension.register (packages : Packages) (extension : Extension) : Build Registration := do
  let field := extension.field
  let target ← packages.resolve ("extendee of extension field '" ++ field.name ++ "'")
    extension.target
  let metadata ← field.metadata packages (Dotted.qualify extension.scope field.name)
  return { target, number := field.number, metadata }

/-- The registrations of all recorded extensions, of which none is left. -/
def Build.registerExtensions (packages : Packages) : Build (List Registration) := do
  let extensions ← Build.takeExtensions
  extensions.toList.mapM (Extension.register packages)

end ProtoScript
