import ProtoScript.Dictionary
import ProtoScript.Schema.Field
import ProtoScript.Text.Dotted
import ProtoScript.Text.Path

/-! # Files and what they declare

A file declares enumerations, messages and extension fields in a package. Messages may declare
all of these again.
-/

namespace ProtoScript

structure EnumValue where
  name : String
  number : Int32
  deriving DecidableEq, Repr

structure Enumeration where
  name : String
  values : List EnumValue := []
  deriving DecidableEq, Repr

structure Message where
  name : String
  fields : List Field := []
  messages : List Message := []
  enums : List Enumeration := []
  extensions : List Field := []
  deriving Repr

namespace Message

mutual

def decEq : (a b : Message) → Decidable (a = b)
  | ⟨name, fields, messages, enums, extensions⟩, ⟨name', fields', messages', enums', extensions'⟩ =>
    have := decEqList messages messages'
    decidable_of_iff (name = name' ∧ fields = fields' ∧ messages = messages' ∧ enums = enums' ∧
      extensions = extensions') (by simp)

def decEqList : (as bs : List Message) → Decidable (as = bs)
  | [], [] => isTrue rfl
  | [], _ :: _ => isFalse nofun
  | _ :: _, [] => isFalse nofun
  | a :: as, b :: bs =>
    have := decEq a b
    have := decEqList as bs
    decidable_of_iff (a = b ∧ as = bs) (by simp)

end

instance : DecidableEq Message := decEq

/-- Induction over messages and all messages in them. -/
@[elab_as_elim] theorem forest_induction {motive : List Message → Prop} (nil : motive [])
    (cons : ∀ message rest, motive message.messages → motive rest → motive (message :: rest)) :
    ∀ messages, motive messages
  | [] => nil
  | ⟨_, _, messages, _, _⟩ :: rest =>
    cons _ rest (forest_induction nil cons messages) (forest_induction nil cons rest)

def hasExtensions (message : Message) : Bool := !message.extensions.isEmpty

end Message

structure File where
  name : String
  package : String := ""
  options : Dictionary := {}
  enums : List Enumeration := []
  messages : List Message := []
  extensions : List Field := []
  deriving DecidableEq, Repr

namespace File

def namespaceOption? (file : File) : Option String := file.options.get? "json.namespace"

/-- The older option for the namespace, which counts if the newer one is not set. -/
def packageOption? (file : File) : Option String := file.options.get? "json.package"

def suffixOption? (file : File) : Option String := file.options.get? "json.suffix"

/-- The JavaScript namespace of a file, which is its package unless an option says otherwise. -/
def targetNamespace (file : File) : String :=
  Dotted.trim ((file.namespaceOption?.or file.packageOption?).getD file.package)

def suffix (file : File) (default : String) : String :=
  file.suffixOption?.getD default

/-- The name of a file without its directory and its extension. -/
def stem (file : File) : String := Path.stem file.name

end File

end ProtoScript
