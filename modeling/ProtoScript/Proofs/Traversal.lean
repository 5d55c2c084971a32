import ProtoScript.Declaration
import ProtoScript.Proofs.Fields

/-! # Traversal of nested messages

Messages are visited depth first. A visit enters a message, visits the messages in it and leaves
it. Declarations are made and references resolved on entering a message, and extensions are
recorded on leaving it.
-/

namespace ProtoScript

namespace Message

section Visit

variable {α β : Type} (enter leave : String → Message → List α)

mutual

def visit (scope : String) : Message → List α
  | ⟨name, fields, messages, enums, extensions⟩ =>
    enter scope ⟨name, fields, messages, enums, extensions⟩ ++
      visitAll (Dotted.child scope name) messages ++
      leave scope ⟨name, fields, messages, enums, extensions⟩

/-- Visit messages that are declared in a scope, one after the other. -/
def visitAll (scope : String) : List Message → List α
  | [] => []
  | message :: rest => visit scope message ++ visitAll scope rest

end

@[simp] theorem visitAll_nil (scope : String) : visitAll enter leave scope [] = [] := rfl

@[simp] theorem visitAll_cons (scope : String) (message : Message) (rest : List Message) :
    visitAll enter leave scope (message :: rest) =
      enter scope message ++
        visitAll enter leave (Dotted.child scope message.name) message.messages ++
        leave scope message ++ visitAll enter leave scope rest := by
  cases message
  rfl

theorem visitAll_append (scope : String) (messages others : List Message) :
    visitAll enter leave scope (messages ++ others) =
      visitAll enter leave scope messages ++ visitAll enter leave scope others := by
  induction messages with
  | nil => rfl
  | cons message messages ih => simp [ih]

theorem filterMap_visitAll (f : α → Option β) (scope : String) (messages : List Message) :
    (visitAll enter leave scope messages).filterMap f =
      visitAll (fun scope message => (enter scope message).filterMap f)
        (fun scope message => (leave scope message).filterMap f) scope messages := by
  induction messages using forest_induction generalizing scope with
  | nil => rfl
  | cons message rest ih ih' => simp [ih, ih']

end Visit

/-- The messages in a scope, each with its own scope, every message before those in it. -/
def preorder (scope : String) (messages : List Message) : List (String × Message) :=
  visitAll (fun scope message => [(scope, message)]) (fun _ _ => []) scope messages

theorem visitAll_eq_flatMap_preorder {α : Type} (enter : String → Message → List α)
    (scope : String) (messages : List Message) :
    visitAll enter (fun _ _ => []) scope messages =
      (preorder scope messages).flatMap fun m => enter m.1 m.2 := by
  induction messages using forest_induction generalizing scope with
  | nil => rfl
  | cons message rest ih ih' =>
    simp only [preorder] at ih ih'
    simp [preorder, ih, ih']

def table (packages : Packages) (message : Message) : List (UInt32 × Metadata) :=
  message.fields.map fun field => (field.number, field.entry packages field.name)

/-- The constructor of a message, the accessors of its fields and its enumerations. -/
def own (packages : Packages) (scope : String) (message : Message) : List Declaration :=
  .message scope message.name (message.table packages) ::
    (message.fields.flatMap (Field.methodsIn packages)).map
      (.accessor (Dotted.child scope message.name)) ++
    message.enums.map (Enumeration.declare (Dotted.child scope message.name))

def ownExtensions (scope : String) (message : Message) : List Extension :=
  message.extensions.map (Extension.mk (Dotted.child scope message.name))

def declarations (packages : Packages) (scope : String) (messages : List Message) :
    List Declaration :=
  (preorder scope messages).flatMap fun m => m.2.own packages m.1

def references (scope : String) (messages : List Message) : List Reference :=
  (preorder scope messages).flatMap fun m => m.2.fields.flatMap Field.references

/-- The extensions that messages declare, each behind those of the messages in it. -/
def collected (scope : String) (messages : List Message) : List Extension :=
  visitAll (fun _ _ => []) ownExtensions scope messages

def events (scope : String) (messages : List Message) : List Event :=
  visitAll (fun _ message => message.fields.flatMap Field.events)
    (fun scope message => (message.ownExtensions scope).map .record) scope messages

theorem collected_cons (scope : String) (message : Message) (rest : List Message) :
    collected scope (message :: rest) =
      collected (Dotted.child scope message.name) message.messages ++ message.ownExtensions scope ++
        collected scope rest := by
  simp [collected]

theorem events_cons (scope : String) (message : Message) (rest : List Message) :
    events scope (message :: rest) = (message.fields.flatMap Field.events ++
        (events (Dotted.child scope message.name) message.messages ++
          (message.ownExtensions scope).map .record)) ++ events scope rest := by
  simp [events]

theorem events_singleton (scope : String) (message : Message) :
    events scope [message] = message.fields.flatMap Field.events ++
      (events (Dotted.child scope message.name) message.messages ++
        (message.ownExtensions scope).map .record) := by
  rw [events_cons]
  exact List.append_nil _

theorem references_events (scope : String) (messages : List Message) :
    Event.references (events scope messages) = references scope messages := by
  rw [references, ← visitAll_eq_flatMap_preorder fun _ message =>
    message.fields.flatMap Field.references, Event.references, events, filterMap_visitAll]
  simp only [← Event.references.eq_def, Field.references_flatMap_events,
    Event.references_map_record]

theorem recorded_events (scope : String) (messages : List Message) :
    Event.recorded (events scope messages) = collected scope messages := by
  rw [Event.recorded, events, filterMap_visitAll, collected]
  simp only [← Event.recorded.eq_def, Field.recorded_flatMap_events, Event.recorded_map_record]

end Message

theorem Event.foldl_after_map_record (packages : Packages) (extensions : List Extension)
    (progress : Progress) :
    (extensions.map record).foldl (after packages) progress =
      { progress with extensions := extensions.foldl Extensions.record progress.extensions } := by
  induction extensions generalizing progress with
  | nil => rfl
  | cons extension extensions ih => rw [List.map_cons, List.foldl_cons, ih, after, List.foldl_cons]

theorem Build.recordExtensions_eq_yield (packages : Packages) (scope : String)
    (fields : List Field) :
    Build.recordExtensions scope fields =
      Build.yield packages ((fields.map (Extension.mk scope)).map .record) () := by
  refine Build.ext fun progress => ?_
  rw [Build.runFrom_yield, Event.findSome?_failure?, Event.references_map_record,
    Event.foldl_after_map_record, ← Extensions.recordAll_eq_foldl]
  rfl

namespace Message

theorem declare_eq (packages : Packages) (scope : String) (message : Message) :
    message.declare packages scope = (do
      let table ← message.fields.mapM fun field =>
        return (field.number, ← field.metadata packages field.name)
      let accessors ← message.fields.mapM (Field.accessors packages)
      let nested ← declareAll packages (Dotted.child scope message.name) message.messages
      Build.recordExtensions (Dotted.child scope message.name) message.extensions
      return .message scope message.name table ::
        accessors.flatten.map (.accessor (Dotted.child scope message.name)) ++
        message.enums.map (Enumeration.declare (Dotted.child scope message.name)) ++ nested) := by
  cases message
  rw [declare]

theorem mapM_metadata_eq_yield (packages : Packages) (message : Message) :
    (message.fields.mapM fun field =>
        return (field.number, ← field.metadata packages field.name)) =
      Build.yield packages (message.fields.flatMap Field.events) (message.table packages) := by
  refine Build.mapM_eq_yield (fun field => ?_) message.fields
  rw [Field.metadata_eq_yield]
  exact Build.yield_bind_pure rfl

theorem mem_flatMap_events_of_accessorEvents {fields : List Field} {event : Event}
    (h : event ∈ fields.flatMap Field.accessorEvents) :
    event ∈ fields.flatMap Field.events ∧ ∃ reference, event = .resolve reference := by
  obtain ⟨field, hf, he⟩ := List.mem_flatMap.mp h
  have hm := Field.mem_events_of_mem_accessorEvents he
  exact ⟨List.mem_flatMap.mpr ⟨field, hf, hm⟩, Field.exists_resolve_of_mem_events hm⟩

theorem declare_eq_yield {packages : Packages} {scope : String} {message : Message}
    (h : declareAll packages (Dotted.child scope message.name) message.messages =
      Build.yield packages (events (Dotted.child scope message.name) message.messages)
        (declarations packages (Dotted.child scope message.name) message.messages)) :
    message.declare packages scope = Build.yield packages
      (message.fields.flatMap Field.events ++
        (events (Dotted.child scope message.name) message.messages ++
          (message.ownExtensions scope).map .record))
      (message.own packages scope ++
        declarations packages (Dotted.child scope message.name) message.messages) := by
  rw [declare_eq, h, mapM_metadata_eq_yield,
    Build.mapM_eq_yield (Field.accessors_eq_yield packages),
    Build.recordExtensions_eq_yield packages,
    ← Build.yield_append_of_resolved packages _ _ fun _ => mem_flatMap_events_of_accessorEvents]
  refine Build.yield_bind (Build.yield_bind (Build.yield_bind (Build.yield_bind_pure ?_)))
  rw [← List.flatMap_def]
  rfl

/-- Messages are declared by performing their events and yielding their declarations. -/
theorem declareAll_eq_yield (packages : Packages) (scope : String) (messages : List Message) :
    declareAll packages scope messages =
      Build.yield packages (events scope messages) (declarations packages scope messages) := by
  induction messages using forest_induction generalizing scope with
  | nil => rfl
  | cons message rest ih ih' =>
    have hd : declarations packages scope (message :: rest) = (message.own packages scope ++
        declarations packages (Dotted.child scope message.name) message.messages) ++
          declarations packages scope rest := by
      simp [declarations, preorder]
    rw [declareAll, ih', declare_eq_yield (ih _), events_cons, hd]
    exact Build.yield_bind (Build.yield_bind_pure rfl)

end Message

end ProtoScript
