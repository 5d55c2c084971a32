import Mathlib.Data.List.Nodup
import ProtoScript.Proofs.Nesting
import ProtoScript.Proofs.Statements

/-! # Names of methods

The name of a method is a verb and a noun. The noun is the suffix of the field, with `List` behind
it for the method that returns all values of a repeated field. The methods of one field have
different names. Two fields share a method exactly if they have the same suffix, or if the suffix of
one is the noun for the list of the other. Then one assignment to the prototype overwrites the
other.
-/

namespace ProtoScript

namespace Accessor.Kind

def verb : Kind → String
  | .has => "has"
  | .get | .getItem | .getList => "get"
  | .set => "set"
  | .add => "add"
  | .clear => "clear"

/-- What the method of a field with the given suffix is about. -/
def noun : Kind → String → String
  | .getList, suffix => suffix ++ "List"
  | _, suffix => suffix

variable {kind other : Kind} {suffix suffix' : String}

theorem method_eq_append (kind : Kind) (suffix : String) :
    kind.method suffix = kind.verb ++ kind.noun suffix := by
  cases kind with
  | getList => exact String.append_assoc
  | _ => rfl

theorem head?_verb_append (kind : Kind) (text : String) :
    (kind.verb ++ text).toList.head? = kind.verb.toList.head? := by
  cases kind <;> simp [verb]

theorem verb_eq_of_head?_eq (h : kind.verb.toList.head? = other.verb.toList.head?) :
    kind.verb = other.verb := by
  cases kind <;> cases other <;> simp [verb] at h ⊢

theorem verb_append_inj {text text' : String} (h : kind.verb ++ text = other.verb ++ text') :
    kind.verb = other.verb ∧ text = text' := by
  have hh := congrArg (·.toList.head?) h
  simp only [head?_verb_append] at hh
  have hv := verb_eq_of_head?_eq hh
  rw [hv] at h
  exact ⟨hv, (String.append_right_inj _).mp h⟩

theorem method_eq_method_iff : kind.method suffix = other.method suffix' ↔
    kind.verb = other.verb ∧ kind.noun suffix = other.noun suffix' := by
  rw [method_eq_append, method_eq_append]
  constructor
  · exact verb_append_inj
  · rintro ⟨hv, hn⟩
    rw [hv, hn]

theorem noun_cases (kind : Kind) (suffix : String) :
    kind.noun suffix = suffix ∨ kind = .getList ∧ kind.noun suffix = suffix ++ "List" := by
  cases kind with
  | getList => exact .inr ⟨rfl, rfl⟩
  | _ => exact .inl rfl

theorem getList_mem_ofField {field : Field} : .getList ∈ ofField field ↔ field.isRepeated := by
  rw [ofField]
  split <;> simp [*]

theorem has_mem_ofField (field : Field) : .has ∈ ofField field := by
  rw [ofField]
  split <;> simp

end Accessor.Kind

theorem append_list_ne (text : String) : text ++ "List" ≠ text := by
  rw [ne_eq, String.append_eq_left_iff]
  decide

namespace Field

open Accessor

/-- Some methods of two fields have the same name: the fields have the same suffix, or one of them
is repeated and its suffix followed by `List` is that of the other. -/
def Clash (field other : Field) : Prop :=
  suffix field.name = suffix other.name ∨
    (field.isRepeated ∧ suffix other.name = suffix field.name ++ "List") ∨
    (other.isRepeated ∧ suffix field.name = suffix other.name ++ "List")

instance (field other : Field) : Decidable (Clash field other) :=
  inferInstanceAs (Decidable (_ ∨ _ ∨ _))

variable {field other : Field} {name : String}

theorem mem_methods : name ∈ field.methods ↔
    ∃ kind ∈ Kind.ofField field, kind.method (suffix field.name) = name :=
  List.mem_map

theorem nodup_methods (field : Field) : field.methods.Nodup := by
  have hl := append_list_ne (suffix field.name)
  have hl' := hl.symm
  rw [methods, Kind.ofField]
  split <;> simp [Kind.method_eq_method_iff, Kind.verb, Kind.noun, hl, hl']

theorem exists_mem_methods_iff :
    (∃ name, name ∈ field.methods ∧ name ∈ other.methods) ↔ field.Clash other := by
  constructor
  · rintro ⟨name, hf, ho⟩
    obtain ⟨kind, hk, rfl⟩ := mem_methods.mp hf
    obtain ⟨kind', hk', h⟩ := mem_methods.mp ho
    have hn := (Kind.method_eq_method_iff.mp h).2
    rcases kind.noun_cases (suffix field.name) with hs | ⟨rfl, hs⟩ <;>
      rcases kind'.noun_cases (suffix other.name) with hs' | ⟨rfl, hs'⟩ <;> rw [hs, hs'] at hn
    · exact .inl hn.symm
    · exact .inr (.inr ⟨Kind.getList_mem_ofField.mp hk', hn.symm⟩)
    · exact .inr (.inl ⟨Kind.getList_mem_ofField.mp hk, hn⟩)
    · exact .inl ((String.append_left_inj _).mp hn).symm
  · rintro (h | ⟨hr, h⟩ | ⟨hr, h⟩)
    · exact ⟨_, mem_methods.mpr ⟨_, Kind.has_mem_ofField field, rfl⟩,
        mem_methods.mpr ⟨_, Kind.has_mem_ofField other, by rw [h]⟩⟩
    · obtain ⟨getter, hg, hm, _⟩ := Kind.exists_getter other
      refine ⟨_, mem_methods.mpr ⟨_, Kind.getList_mem_ofField.mpr hr, rfl⟩,
        mem_methods.mpr ⟨getter, hg, ?_⟩⟩
      rw [hm, h]
      exact String.append_assoc.symm
    · obtain ⟨getter, hg, hm, _⟩ := Kind.exists_getter field
      refine ⟨_, mem_methods.mpr ⟨getter, hg, ?_⟩,
        mem_methods.mpr ⟨_, Kind.getList_mem_ofField.mpr hr, rfl⟩⟩
      rw [hm, h]
      exact String.append_assoc.symm

theorem nodup_flatMap_methods_iff {fields : List Field} :
    (fields.flatMap methods).Nodup ↔ fields.Pairwise fun field other => ¬ field.Clash other := by
  have hd : ∀ field other : Field,
      Function.onFun List.Disjoint methods field other ↔ ¬ field.Clash other := by
    intro field other
    rw [← exists_mem_methods_iff]
    exact ⟨fun h ⟨_, hf, ho⟩ => h hf ho, fun h _ hf ho => h ⟨_, hf, ho⟩⟩
  rw [List.nodup_flatMap, List.Pairwise.iff hd]
  exact and_iff_right fun field _ => field.nodup_methods

theorem map_method_methodsIn (packages : Packages) (field : Field) :
    (field.methodsIn packages).map Accessor.method = field.methods := by
  rw [methodsIn, methods, List.map_map]
  rfl

end Field

/-- The method that a declaration assigns on the prototype of a message. -/
def Declaration.methodOn? (owner : String) : Declaration → Option String
  | .accessor path a => if path = owner then some a.method else none
  | _ => none

theorem Declaration.assignsMethod_of_methodOn? {declaration : Declaration} {owner method : String}
    (h : declaration.methodOn? owner = some method) (runtime : String) :
    Text.AssignsMethod (declaration.render runtime) owner method := by
  cases declaration with
  | accessor path a =>
    rw [methodOn?] at h
    split at h
    · next hp =>
      obtain rfl := hp
      obtain rfl := Option.some.inj h
      exact a.assignsMethod_render path
    · simp at h
  | _ => simp [methodOn?] at h

namespace Message

variable {packages : Packages} {scope : String} {message : Message}

theorem filterMap_methodOn?_own (packages : Packages) (scope owner : String) (message : Message) :
    (message.own packages scope).filterMap (Declaration.methodOn? owner) =
      if Dotted.child scope message.name = owner then message.fields.flatMap Field.methods
      else [] := by
  have he : (message.enums.map (Enumeration.declare (Dotted.child scope message.name))).filterMap
      (Declaration.methodOn? owner) = [] := by
    simp [Enumeration.declare, Declaration.methodOn?]
  rw [own, List.cons_append, List.filterMap_cons_none rfl, List.filterMap_append, he,
    List.append_nil, List.filterMap_map]
  split
  · next h =>
    have hm : Declaration.methodOn? owner ∘ Declaration.accessor (Dotted.child scope message.name) =
        some ∘ Accessor.method := funext fun a => if_pos h
    rw [hm, List.filterMap_eq_map, List.map_flatMap]
    simp only [Field.map_method_methodsIn]
  · next h =>
    rw [List.filterMap_eq_nil_iff]
    exact fun a _ => if_neg h

theorem filterMap_methodOn?_declarations (packages : Packages) (scope : String)
    (messages : List Message) :
    (declarations packages scope messages).filterMap (Declaration.methodOn? scope) = [] := by
  rw [declarations, List.filterMap_flatMap, List.flatMap_eq_nil_iff]
  rintro ⟨path, message⟩ hm
  obtain ⟨names, _, rfl⟩ := mem_preorder.mp hm
  have hb : Dotted.Below scope (Dotted.descend scope (names ++ [message.name])) :=
    Dotted.below_descend scope (by simp)
  rw [filterMap_methodOn?_own, if_neg]
  intro h
  rw [Dotted.descend_concat, h] at hb
  exact absurd hb.length_lt (Nat.lt_irrefl _)

theorem filterMap_methodOn?_of_declare {declarations : List Declaration} {progress after : Progress}
    (h : (message.declare packages scope).runFrom progress = (.ok declarations, after)) :
    declarations.filterMap (Declaration.methodOn? (Dotted.child scope message.name)) =
      message.fields.flatMap Field.methods := by
  rw [declare_eq_yield (declareAll_eq_yield packages _ _)] at h
  obtain ⟨rfl, _⟩ := Build.eq_of_runFrom_yield_eq_ok h
  rw [List.filterMap_append, filterMap_methodOn?_own, if_pos rfl,
    filterMap_methodOn?_declarations, List.append_nil]

/-- The methods of one field have different names, and two fields share a method exactly if they
clash. Hence a declared message assigns different methods on its prototype exactly if no two of its
fields, at different positions, clash. Each of them is assigned as a function in the text of the
message. -/
theorem assigned_methods_distinct_iff (message : Message) :
    (∀ field ∈ message.fields, field.methods.Nodup) ∧
    (∀ field ∈ message.fields, ∀ other ∈ message.fields,
      (∃ name, name ∈ field.methods ∧ name ∈ other.methods) ↔ field.Clash other) ∧
    ∀ (packages : Packages) (scope : String) (progress after : Progress)
      (declarations : List Declaration),
      (message.declare packages scope).runFrom progress = (.ok declarations, after) →
        let assigned := declarations.filterMap
          (Declaration.methodOn? (Dotted.child scope message.name))
        assigned = message.fields.flatMap Field.methods ∧
        (assigned.Nodup ↔ message.fields.Pairwise fun field other => ¬ field.Clash other) ∧
        ∀ runtime, ∀ declaration ∈ declarations, ∀ method,
          declaration.methodOn? (Dotted.child scope message.name) = some method →
            Text.AssignsMethod (declaration.render runtime) (Dotted.child scope message.name)
              method ∧
            Text.Contains (Declaration.renderAll runtime declarations)
              (declaration.render runtime) := by
  refine ⟨fun field _ => field.nodup_methods, fun field _ other _ => Field.exists_mem_methods_iff,
    ?_⟩
  intro packages scope progress after declarations h assigned
  have ha : assigned = message.fields.flatMap Field.methods := filterMap_methodOn?_of_declare h
  refine ⟨ha, ?_, fun runtime declaration hd method hm => ⟨?_, ?_⟩⟩
  · rw [ha]
    exact Field.nodup_flatMap_methods_iff
  · exact Declaration.assignsMethod_of_methodOn? hm runtime
  · exact Text.contains_join (List.mem_map_of_mem hd)

def overwritingMessage : Message where
  name := "M"
  fields := [
    { name := "x", number := 1, label := .repeated, type := .int32 },
    { name := "xList", number := 2, type := .bool }]

theorem assigned_methods_distinct_iff_overwritingMessage :
    let run := (overwritingMessage.declare {} "js").runFrom {}
    let declarations := overwritingMessage.own {} "js"
    let assigned := declarations.filterMap (Declaration.methodOn? (Dotted.child "js" "M"))
    run = (.ok declarations, {}) ∧
      assigned = ["hasX", "getX", "getXList", "addX", "clearX",
        "hasXList", "getXList", "setXList", "clearXList"] ∧
      ¬ assigned.Nodup ∧
      ∃ text, Text.AssignsMethod text "js.M" "getXList" ∧
        Text.Contains (Declaration.renderAll "ProtoJson" declarations) text := by
  intro run declarations assigned
  have hr : run = (.ok declarations, {}) := by decide +kernel
  obtain ⟨ha, hn, ht⟩ := (assigned_methods_distinct_iff overwritingMessage).2.2 {} "js" {} {} _ hr
  refine ⟨hr, ha.trans (by decide +kernel), fun h => absurd (hn.mp h) ?_, _,
    ht "ProtoJson" (.accessor "js.M" ⟨.getList, "x", 1, "Int"⟩) ?_ "getXList" ?_⟩
  all_goals decide +kernel

end Message

end ProtoScript
