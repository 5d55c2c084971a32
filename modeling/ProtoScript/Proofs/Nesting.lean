import ProtoScript.Proofs.Compilation

/-! # Messages at any depth

A message stands inside the messages that enclose it, from the outermost to the one that declares
it. Traversals reach exactly the messages that stand somewhere inside a file, and what the check of
a file demands holds of each of them.
-/

namespace ProtoScript

namespace Message

open Dotted

/-- Among the messages stands one inside others of the given names. -/
inductive At : List Message → List String → Message → Prop where
  | here {messages : List Message} {message : Message} : message ∈ messages → At messages [] message
  | inside {messages : List Message} {outer message : Message} {names : List String} :
      outer ∈ messages → At outer.messages names message →
        At messages (outer.name :: names) message

theorem at_nil_iff {names : List String} {message : Message} : At [] names message ↔ False := by
  constructor
  · rintro (h | ⟨h, _⟩) <;> simp at h
  · exact False.elim

theorem at_cons_iff {outer message : Message} {rest : List Message} {names : List String} :
    At (outer :: rest) names message ↔
      (names = [] ∧ message = outer) ∨
        (∃ inner, names = outer.name :: inner ∧ At outer.messages inner message) ∨
        At rest names message := by
  constructor
  · rintro (h | ⟨h, ha⟩)
    · rcases List.mem_cons.mp h with rfl | h
      · exact .inl ⟨rfl, rfl⟩
      · exact .inr (.inr (.here h))
    · rcases List.mem_cons.mp h with rfl | h
      · exact .inr (.inl ⟨_, rfl, ha⟩)
      · exact .inr (.inr (.inside h ha))
  · rintro (⟨rfl, rfl⟩ | ⟨inner, rfl, ha⟩ | h)
    · exact .here List.mem_cons_self
    · exact .inside List.mem_cons_self ha
    · cases h with
      | here h => exact .here (List.mem_cons_of_mem _ h)
      | inside h ha => exact .inside (List.mem_cons_of_mem _ h) ha

/-- A traversal visits the messages at all depths, each in the scope of those around it. -/
theorem mem_visitAll {α : Type} {enter leave : String → Message → List α} {scope : String}
    {messages : List Message} {a : α} :
    a ∈ visitAll enter leave scope messages ↔ ∃ names message, At messages names message ∧
      (a ∈ enter (descend scope names) message ∨ a ∈ leave (descend scope names) message) := by
  induction messages using forest_induction generalizing scope with
  | nil => simp [at_nil_iff]
  | cons message rest ih ih' =>
    simp only [visitAll_cons, List.mem_append, ih, ih', at_cons_iff]
    constructor
    · rintro (((h | ⟨names, inner, ha, h⟩) | h) | ⟨names, inner, ha, h⟩)
      · exact ⟨[], message, .inl ⟨rfl, rfl⟩, .inl h⟩
      · exact ⟨message.name :: names, inner, .inr (.inl ⟨names, rfl, ha⟩), h⟩
      · exact ⟨[], message, .inl ⟨rfl, rfl⟩, .inr h⟩
      · exact ⟨names, inner, .inr (.inr ha), h⟩
    · rintro ⟨names, inner, ⟨rfl, rfl⟩ | ⟨names, rfl, ha⟩ | ha, h⟩
      · exact .inl (h.imp .inl id)
      · exact .inl (.inl (.inr ⟨names, inner, ha, h⟩))
      · exact .inr ⟨names, inner, ha, h⟩

theorem mem_preorder {scope path : String} {messages : List Message} {message : Message} :
    (path, message) ∈ preorder scope messages ↔
      ∃ names, At messages names message ∧ path = descend scope names := by
  simp only [preorder, mem_visitAll, List.mem_singleton, Prod.mk.injEq, List.not_mem_nil, or_false]
  constructor
  · rintro ⟨names, _, ha, rfl, rfl⟩
    exact ⟨names, ha, rfl⟩
  · rintro ⟨names, ha, rfl⟩
    exact ⟨names, message, ha, rfl, rfl⟩

theorem mem_collected {scope : String} {messages : List Message} {extension : Extension} :
    extension ∈ collected scope messages ↔ ∃ names message, At messages names message ∧
      extension ∈ message.ownExtensions (descend scope names) := by
  simp [collected, mem_visitAll]

end Message

section Checks

variable {ε α : Type}

theorem seq_eq_ok_iff {first second : Except ε Unit} :
    (first >>= fun _ => second) = .ok () ↔ first = .ok () ∧ second = .ok () := by
  cases first with
  | error error => exact iff_of_false nofun fun h => nomatch h.1
  | ok => exact (and_iff_right rfl).symm

theorem forM_eq_ok_iff {check : α → Except ε Unit} {as : List α} :
    as.forM check = .ok () ↔ ∀ a ∈ as, check a = .ok () := by
  induction as with
  | nil => exact iff_of_true rfl (by simp)
  | cons a as ih =>
    rw [List.forall_mem_cons, ← ih]
    exact seq_eq_ok_iff

end Checks

namespace Message

/-- What the check of a message demands of the message itself. -/
structure Valid (path : String) (message : Message) : Prop where
  fields : Field.checkMembers path [] message.fields = .ok ()
  enums : ∀ enum ∈ message.enums, enum.check path = .ok ()
  extensions : ∀ field ∈ message.extensions, field.checkExtension path = .ok ()

theorem checkAll_cons_eq_ok_iff {scope : String} {message : Message} {rest : List Message} :
    checkAll scope (message :: rest) = .ok () ↔
      Valid (Dotted.qualify scope message.name) message ∧
        checkAll (Dotted.qualify scope message.name) message.messages = .ok () ∧
        checkAll scope rest = .ok () := by
  cases message
  rw [checkAll, seq_eq_ok_iff, check, seq_eq_ok_iff, seq_eq_ok_iff, seq_eq_ok_iff,
    forM_eq_ok_iff, forM_eq_ok_iff]
  constructor
  · rintro ⟨⟨hf, he, hm, hx⟩, hr⟩
    exact ⟨⟨hf, he, hx⟩, hm, hr⟩
  · rintro ⟨⟨hf, he, hx⟩, hm, hr⟩
    exact ⟨⟨hf, he, hm, hx⟩, hr⟩

theorem valid_of_at {scope : String} {messages : List Message} {names : List String}
    {message : Message} (hc : checkAll scope messages = .ok ()) (ha : At messages names message) :
    ∃ path, Valid path message := by
  induction messages using forest_induction generalizing scope names with
  | nil => exact absurd ha at_nil_iff.mp
  | cons outer rest ih ih' =>
    obtain ⟨hv, hm, hr⟩ := checkAll_cons_eq_ok_iff.mp hc
    rcases at_cons_iff.mp ha with ⟨_, rfl⟩ | ⟨inner, _, hi⟩ | hi
    · exact ⟨_, hv⟩
    · exact ih hm hi
    · exact ih' hr hi

end Message

end ProtoScript
