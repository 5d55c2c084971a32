import ProtoScript.Proofs.Traversal

/-! # Interrupted declarations

A declaration of a message stops at the first reference that is not fully qualified. By then it has
performed exactly the events in front of that reference. It is inside the message with the reference
and inside all messages around that one, and has recorded none of their extensions. The extensions
of the messages that it has left stay recorded.
-/

namespace ProtoScript

theorem append_eq_append_cons {α : Type} {first second before rest : List α} {a : α}
    (h : first ++ second = before ++ a :: rest) :
    (∃ more, first = before ++ a :: more) ∨
      ∃ more, before = first ++ more ∧ second = more ++ a :: rest := by
  rcases List.append_eq_append_iff.mp h with ⟨more, hb, hs⟩ | ⟨more, hf, hr⟩
  · exact .inr ⟨more, hb, hs⟩
  · rcases List.cons_eq_append_iff.mp hr with ⟨rfl, hs⟩ | ⟨more, rfl, _⟩
    · exact .inr ⟨[], by simpa using hf.symm, hs⟩
    · exact .inl ⟨more, hf⟩

namespace Message

/-- In the course of the traversal of a message another one is entered, at any depth. It and the
messages around it, from the inside out, have been entered but not left. The extensions are those
of the messages that have been left. -/
inductive Enters : String → Message → List (String × Message) → List Extension → Prop where
  | self (scope : String) (message : Message) : Enters scope message [(scope, message)] []
  | nested {scope : String} {message inner : Message} {earlier later : List Message}
      {unfinished : List (String × Message)} {completed : List Extension} :
      message.messages = earlier ++ inner :: later →
      Enters (Dotted.child scope message.name) inner unfinished completed →
        Enters scope message (unfinished ++ [(scope, message)])
          (collected (Dotted.child scope message.name) earlier ++ completed)

variable {scope : String} {message : Message}

theorem collected_singleton (scope : String) (message : Message) :
    collected scope [message] = collected (Dotted.child scope message.name) message.messages ++
      message.ownExtensions scope := by
  rw [collected_cons]
  exact List.append_nil _

theorem Enters.exists_remaining {unfinished : List (String × Message)}
    {completed : List Extension} (h : Enters scope message unfinished completed) :
    ∃ remaining, collected scope [message] = completed ++ remaining ∧
      (unfinished.flatMap fun m => m.2.ownExtensions m.1).Sublist remaining := by
  induction h with
  | self scope message =>
    refine ⟨collected scope [message], rfl, ?_⟩
    rw [collected_singleton, List.flatMap_singleton]
    exact List.sublist_append_right _ _
  | @nested scope message inner earlier later unfinished completed hm _ ih =>
    obtain ⟨remaining, hc, hs⟩ := ih
    refine ⟨remaining ++ collected (Dotted.child scope message.name) later ++
      message.ownExtensions scope, ?_, ?_⟩
    · have hl : collected (Dotted.child scope message.name) message.messages =
          collected (Dotted.child scope message.name) earlier ++
            (collected (Dotted.child scope message.name) [inner] ++
              collected (Dotted.child scope message.name) later) := by
        rw [hm, ← List.singleton_append]
        simp only [collected, visitAll_append]
      rw [collected_singleton, hl, hc]
      simp only [List.append_assoc]
    · rw [List.flatMap_append, List.flatMap_singleton]
      exact (hs.trans (List.sublist_append_left _ _)).append (List.Sublist.refl _)

theorem exists_enters_of_events_eq {messages : List Message} {before rest : List Event}
    {reference : Reference} (h : events scope messages = before ++ .resolve reference :: rest) :
    ∃ earlier message later failing outer completed, messages = earlier ++ message :: later ∧
      Enters scope message (failing :: outer) completed ∧
      reference ∈ failing.2.fields.flatMap Field.references ∧
      Event.recorded before = collected scope earlier ++ completed := by
  induction messages using forest_induction generalizing scope before rest with
  | nil => simp [events] at h
  | cons message siblings ih ih' =>
    rw [events_cons] at h
    rcases append_eq_append_cons h with ⟨_, hown⟩ | ⟨others, rfl, hsiblings⟩
    · rcases append_eq_append_cons hown with ⟨_, hfields⟩ | ⟨others, rfl, hinside⟩
      · have hr := congrArg Event.references hfields
        have he := congrArg Event.recorded hfields
        rw [Field.references_flatMap_events, Event.references_append,
          Event.references_resolve] at hr
        rw [Field.recorded_flatMap_events, Event.recorded_append] at he
        refine ⟨[], message, siblings, _, [], [], rfl, .self scope message, ?_, ?_⟩
        · rw [hr]
          exact List.mem_append_right _ List.mem_cons_self
        · exact (List.append_eq_nil_iff.mp he.symm).1
      · rcases append_eq_append_cons hinside with ⟨_, hnested⟩ | ⟨_, _, hx⟩
        · obtain ⟨earlier, inner, later, failing, outer, completed, hm, hi, hr, hb⟩ := ih hnested
          refine ⟨[], message, siblings, failing, _, _, rfl, .nested hm hi, hr, ?_⟩
          rw [Event.recorded_append, Field.recorded_flatMap_events, hb]
          rfl
        · have hm : Event.resolve reference ∈ (message.ownExtensions scope).map Event.record := by
            simp [hx]
          simp at hm
    · obtain ⟨earlier, inner, later, failing, outer, completed, hm, hi, hr, hb⟩ := ih' hsiblings
      refine ⟨message :: earlier, inner, later, failing, outer, completed, ?_, hi, hr, ?_⟩
      · rw [hm, List.cons_append]
      · simp only [Event.recorded_append, Field.recorded_flatMap_events, recorded_events,
          Event.recorded_map_record, hb, collected_cons, List.nil_append, List.append_assoc]

/-- When a reference of a message is resolved, the extensions recorded by then are those of the
messages that have been left. Those of the messages that have not been left remain to be
recorded. -/
theorem exists_enters {before rest : List Event} {reference : Reference}
    (h : events scope [message] = before ++ .resolve reference :: rest) :
    ∃ failing outer remaining,
      Enters scope message (failing :: outer) (Event.recorded before) ∧
      reference ∈ failing.2.fields.flatMap Field.references ∧
      collected scope [message] = Event.recorded before ++ remaining ∧
      ((failing :: outer).flatMap fun m => m.2.ownExtensions m.1).Sublist remaining := by
  obtain ⟨earlier, entered, later, failing, outer, completed, hm, hi, hf, hb⟩ :=
    exists_enters_of_events_eq h
  rcases List.cons_eq_append_iff.mp hm with ⟨rfl, he⟩ | ⟨_, _, he⟩
  · obtain ⟨rfl, _⟩ := List.cons.inj he
    obtain rfl : Event.recorded before = completed := hb
    obtain ⟨remaining, hc, hs⟩ := hi.exists_remaining
    exact ⟨failing, outer, remaining, hi, hf, hc, hs⟩
  · simp at he

/-- A message is declared by performing its events: on entering it the references of its fields are
resolved, then follow the events of the messages in it, and on leaving it its extensions are
recorded. At the first reference that is not fully qualified the declaration fails, and what has
been collected is what the events in front of it collect. Of the extensions, those of the messages
left by then stay recorded. Those of the message with the reference and of the messages around it
are among the remaining ones. -/
theorem declare_stops_at_first_unqualified (packages : Packages) (scope : String)
    (message : Message) (progress : Progress) :
    let all := message.fields.flatMap Field.events ++
      (events (Dotted.child scope message.name) message.messages ++
        (message.ownExtensions scope).map .record)
    let run := (message.declare packages scope).runFrom progress
    ((∀ reference ∈ Event.references all, reference.isQualified) →
      (∃ declarations, run.1 = .ok declarations) ∧
        (Build.performAll packages all).runFrom progress = (.ok (), run.2)) ∧
    ∀ before reference rest, all = before ++ .resolve reference :: rest →
      (∀ earlier ∈ Event.references before, earlier.isQualified) → ¬ reference.isQualified →
        run.1 = .error reference.error ∧
        (Build.performAll packages before).runFrom progress = (.ok (), run.2) ∧
        ∃ failing outer completed remaining,
          Enters scope message (failing :: outer) completed ∧
          reference ∈ failing.2.fields.flatMap Field.references ∧
          run.2.extensions = completed.foldl Extensions.record progress.extensions ∧
          collected scope [message] = completed ++ remaining ∧
          ((failing :: outer).flatMap fun m => m.2.ownExtensions m.1).Sublist remaining := by
  intro all run
  have hd : run = (Build.yield packages all (message.own packages scope ++
      declarations packages (Dotted.child scope message.name) message.messages)).runFrom progress :=
    congrArg (Build.runFrom · progress) (declare_eq_yield (declareAll_eq_yield packages _ _))
  constructor
  · intro hq
    rw [hd, Build.runFrom_yield_of_qualified packages _ hq]
    exact ⟨⟨_, rfl⟩, Build.runFrom_performAll_of_qualified packages hq progress⟩
  · intro before reference rest hs hq hu
    have he : events scope [message] = before ++ .resolve reference :: rest := by
      rw [events_cons, ← hs]
      exact List.append_nil _
    obtain ⟨failing, outer, remaining, hi, hf, hc, hx⟩ := exists_enters he
    rw [hd, hs, Build.runFrom_yield_of_unqualified packages _ hq hu]
    exact ⟨rfl, Build.runFrom_performAll_of_qualified packages hq progress,
      failing, outer, _, remaining, hi, hf, Event.extensions_foldl_after .., hc, hx⟩

def completeMessage : Message where
  name := "Done"
  fields := [{ name := "y", number := 1, type := .message, typeName := some ".x.Y" }]
  extensions := [{ name := "a", number := 100, type := .bool, extendee := some ".p.M" }]

/-- A message that is nested in another one behind a complete one, and has a reference that is not
fully qualified in front of a message of its own. -/
def interruptedMessage : Message where
  name := "Failing"
  fields := [
    { name := "z", number := 1, type := .message, typeName := some ".x.Z" },
    { name := "m", number := 2, type := .message, typeName := some "p.M" }]
  messages := [completeMessage]
  extensions := [{ name := "b", number := 101, type := .bool, extendee := some ".p.M" }]

theorem declare_stops_at_first_unqualified_interruptedMessage :
    let packages := ({} : Packages).track "p" "js"
    let outer : Message := { name := "Outer", messages := [completeMessage, interruptedMessage] }
    let before : List Event := [
      .resolve ⟨".x.Y", "type of field 'y'"⟩,
      .record ⟨"js.Outer.Done", completeMessage.extensions.head (by decide)⟩,
      .resolve ⟨".x.Z", "type of field 'z'"⟩]
    let run := (outer.declare packages "js").runFrom {}
    (∃ declarations, ((completeMessage.declare packages "js").runFrom {}).1 = .ok declarations) ∧
      run.1 = .error (.unqualifiedReference "p.M" "type of field 'm'") ∧
      (Build.performAll packages before).runFrom {} = (.ok (), run.2) ∧
      run.2.untracked = ["x.Y", "x.Z"] ∧
      run.2.extensions.toList.map (·.scope) = ["js.Outer.Done"] ∧
      ∃ failing outers completed, Enters "js" outer (failing :: outers) completed ∧
        run.2.extensions = completed.foldl Extensions.record {} := by
  intro packages outer before run
  have hc := (declare_stops_at_first_unqualified packages "js" completeMessage {}).1
    (by decide +kernel)
  obtain ⟨he, hp, failing, outers, completed, _, hi, _, hx, _⟩ :=
    (declare_stops_at_first_unqualified packages "js" outer {}).2 before
      ⟨"p.M", "type of field 'm'"⟩ (events "js.Outer.Failing" [completeMessage] ++
        (interruptedMessage.ownExtensions "js.Outer").map .record)
      (by decide +kernel) (by decide +kernel) (by decide +kernel)
  have hs : run.2 = ((Build.performAll packages before).runFrom {}).2 := by rw [hp]
  refine ⟨hc.1, he, hp, ?_, ?_, failing, outers, completed, hi, hx⟩
  · rw [hs]
    decide +kernel
  · rw [hs]
    decide +kernel

end Message

end ProtoScript
