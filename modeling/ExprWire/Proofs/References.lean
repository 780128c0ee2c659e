import ExprWire.Operator.Objects
import ExprWire.Proofs.Growth
import ExprWire.Proofs.Units
/-!
References into a registry of operators. A reference is made for an older object, so a chain of
references ends, at an operator that is none; the references of the chain have copied its signature
and documentation, and inference reaches it through them. As objects stay what they are and names
stay bound, a reference means the same forever.
-/

namespace ExprWire

def Operator.IsReference : Operator → Prop
  | .registered _ _ => True
  | _ => False

theorem Operator.resolved_own (operator : Operator) : ¬operator.resolved.IsReference := by
  induction operator with
  | registered name target ih => exact ih
  | _ => exact id

theorem Operator.resolved_signature (operator : Operator) :
    operator.resolved.signature = operator.signature := by
  induction operator with
  | registered name target ih => exact ih
  | _ => rfl

theorem Operator.resolved_doc (operator : Operator) : operator.resolved.doc = operator.doc := by
  induction operator with
  | registered name target ih => exact ih
  | _ => rfl

theorem Operator.resolved_infer [Extension] (operator : Operator) (inputs : List Attributes) :
    operator.resolved.infer inputs = operator.infer inputs := by
  induction operator with
  | registered name target ih => exact ih
  | _ => rfl

namespace OperatorObject

variable {objects more : List OperatorObject} {position target : Nat} {operator : Operator}
  {object : OperatorObject} {name : String}

inductive Ends (objects : List OperatorObject) : Nat → Operator → Prop where
  | own {position : Nat} {operator : Operator} (held : objects[position]? = some (.own operator)) :
      Ends objects position operator.resolved
  | reference {position : Nat} {name : String} {signature : Signature} {doc : String}
      {target : Nat} {operator : Operator}
      (held : objects[position]? = some (.reference name signature doc target))
      (further : Ends objects target operator) : Ends objects position operator

section

variable {signature : Signature} {doc : String} {inputs : List Attributes} {attributes : Attributes}

theorem ends_own_iff (held : objects[position]? = some (.own operator)) {other : Operator} :
    Ends objects position other ↔ other = operator.resolved := by
  constructor
  · intro ended
    cases ended with
    | own held' =>
        rw [held, Option.some.injEq, OperatorObject.own.injEq] at held'
        rw [held']
    | reference held' => rw [held] at held'; cases held'
  · rintro rfl
    exact .own held

theorem ends_reference_iff
    (held : objects[position]? = some (.reference name signature doc target)) :
    Ends objects position operator ↔ Ends objects target operator := by
  refine ⟨fun ended => ?_, .reference held⟩
  cases ended with
  | own held' => rw [held] at held'; cases held'
  | reference held' further => rw [held] at held'; cases held'; exact further

theorem infers_own_iff [Extension] (held : objects[position]? = some (.own operator)) :
    Infers objects inputs position attributes ↔ attributes = operator.infer inputs := by
  constructor
  · intro inferred
    cases inferred with
    | own held' =>
        rw [held, Option.some.injEq, OperatorObject.own.injEq] at held'
        rw [held']
    | reference held' => rw [held] at held'; cases held'
  · rintro rfl
    exact .own held

theorem infers_reference_iff [Extension]
    (held : objects[position]? = some (.reference name signature doc target)) :
    Infers objects inputs position attributes ↔ Infers objects inputs target attributes := by
  refine ⟨fun inferred => ?_, .reference held⟩
  cases inferred with
  | own held' => rw [held] at held'; cases held'
  | reference held' passed => rw [held] at held'; cases held'; exact passed

end

/-- That an object stands for an operator: the chain that starts there ends at the operator, and
nowhere else; the object has its signature and documentation, and infers what it does. -/
structure Stands [Extension] (objects : List OperatorObject) (position : Nat) (operator : Operator) :
    Prop where
  ends : ∀ other, Ends objects position other ↔ other = operator
  own : ¬operator.IsReference
  copied : ∃ object, objects[position]? = some object ∧
    object.signature = operator.signature ∧ object.doc = operator.doc
  infers : ∀ inputs attributes,
    Infers objects inputs position attributes ↔ attributes = operator.infer inputs

theorem stands_own [Extension] (held : objects[position]? = some (.own operator)) :
    Stands objects position operator.resolved where
  ends _ := ends_own_iff held
  own := operator.resolved_own
  copied := ⟨_, held, operator.resolved_signature.symm, operator.resolved_doc.symm⟩
  infers inputs _ := by
    rw [operator.resolved_infer]
    exact infers_own_iff held

theorem stands_reference [Extension]
    (held : objects[position]? = some (.reference name object.signature object.doc target))
    (made : objects[target]? = some object) (stands : Stands objects target operator) :
    Stands objects position operator where
  ends other := (ends_reference_iff held).trans (stands.ends other)
  own := stands.own
  copied := by
    obtain ⟨object', held', signature, doc⟩ := stands.copied
    rw [made, Option.some.injEq] at held'
    subst held'
    exact ⟨_, held, signature, doc⟩
  infers inputs attributes := (infers_reference_iff held).trans (stands.infers inputs attributes)

/-- That references are made for older objects, and have copied from them. -/
def Sound (objects : List OperatorObject) : Prop :=
  ∀ (position : Nat) (name : String) (signature : Signature) (doc : String) (target : Nat),
    objects[position]? = some (.reference name signature doc target) →
      target < position ∧ ∃ object, objects[target]? = some object ∧
        signature = object.signature ∧ doc = object.doc

def valueAt (objects : List OperatorObject) (position : Nat) : Operator :=
  match objects[position]? with
  | some (.own operator) => operator
  | some (.reference name _ _ target) =>
      if target < position then .registered name (valueAt objects target) else default
  | none => default
termination_by position

theorem valueAt_own (held : objects[position]? = some (.own operator)) :
    valueAt objects position = operator := by
  rw [valueAt, held]

theorem valueAt_reference {signature : Signature} {doc : String} (older : target < position)
    (held : objects[position]? = some (.reference name signature doc target)) :
    valueAt objects position = .registered name (valueAt objects target) := by
  rw [valueAt, held]
  exact if_pos older

theorem valueAt_append (inside : position < objects.length) :
    valueAt (objects ++ more) position = valueAt objects position := by
  induction position using Nat.strongRecOn with
  | ind position ih =>
      rw [valueAt, valueAt, List.getElem?_append_left inside]
      split
      · rfl
      · rename_i name signature doc target held
        by_cases older : target < position
        · rw [if_pos older, if_pos older, ih target older (Nat.lt_trans older inside)]
        · rw [if_neg older, if_neg older]
      · rfl

theorem Sound.stands [Extension] (sound : Sound objects) (inside : position < objects.length) :
    Stands objects position (valueAt objects position).resolved := by
  induction position using Nat.strongRecOn with
  | ind position ih =>
      cases held : objects[position] with
      | own operator =>
          have held := List.getElem?_eq_some_iff.mpr ⟨inside, held⟩
          rw [valueAt_own held]
          exact stands_own held
      | reference name signature doc target =>
          have held := List.getElem?_eq_some_iff.mpr ⟨inside, held⟩
          obtain ⟨older, object, made, rfl, rfl⟩ := sound _ _ _ _ _ held
          rw [valueAt_reference older held]
          exact stands_reference held made (ih target older (Nat.lt_trans older inside))

theorem Sound.push_own (sound : Sound objects) (operator : Operator) :
    Sound (objects ++ [.own operator]) := by
  intro position name signature doc target held
  rcases getElem?_push.mp held with held | ⟨-, same⟩
  · obtain ⟨older, object, made, copied⟩ := sound _ _ _ _ _ held
    exact ⟨older, object, getElem?_append_of_some made, copied⟩
  · cases same

theorem Sound.push_reference (sound : Sound objects) (made : objects[target]? = some object)
    (name : String) :
    Sound (objects ++ [.reference name object.signature object.doc target]) := by
  intro position name signature doc target held
  rcases getElem?_push.mp held with held | ⟨rfl, same⟩
  · obtain ⟨older, object, made, copied⟩ := sound _ _ _ _ _ held
    exact ⟨older, object, getElem?_append_of_some made, copied⟩
  · cases same
    exact ⟨(List.getElem?_eq_some_iff.mp made).1, object, getElem?_append_of_some made, rfl, rfl⟩

end OperatorObject

inductive RegistryRequest (ref : Type) where
  | create (operator : Operator)
  | register (name : String) (implementation : ref)
  | lookup (name : String)
  | target (name : String)
  | has (name : String)
  | names
  | freeze

inductive RegistryAnswer (ref : Type) where
  | operator (reference : ref)
  | known (bound : Bool)
  | names (texts : List String)
  | done

def RegistryRequest.map {ref ref' : Type} (f : ref → ref') :
    RegistryRequest ref → RegistryRequest ref'
  | .create operator => .create operator
  | .register name implementation => .register name (f implementation)
  | .lookup name => .lookup name
  | .target name => .target name
  | .has name => .has name
  | .names => .names
  | .freeze => .freeze

def RegistryAnswer.map {ref ref' : Type} (f : ref → ref') : RegistryAnswer ref → RegistryAnswer ref'
  | .operator reference => .operator (f reference)
  | .known bound => .known bound
  | .names texts => .names texts
  | .done => .done

def answerWith {ref registry : Type} (before : registry) :
    Outcome (ref × registry) → Outcome (RegistryAnswer ref) × registry
  | .ok (reference, after) => (.ok (.operator reference), after)
  | .error problem => (.error problem, before)

def OperatorRegistry.respond (registry : OperatorRegistry) :
    RegistryRequest Operator → Outcome (RegistryAnswer Operator) × OperatorRegistry
  | .create operator => (.ok (.operator operator), registry)
  | .register name operator => answerWith registry (registry.register name operator)
  | .lookup name => ((registry.lookup name).map .operator, registry)
  | .target name => ((registry.target name).map .operator, registry)
  | .has name => (.ok (.known (registry.has name)), registry)
  | .names => (.ok (.names registry.names), registry)
  | .freeze => (.ok .done, registry.freeze)

namespace ObjectRegistry

def respond (registry : ObjectRegistry) :
    RegistryRequest Nat → Outcome (RegistryAnswer Nat) × ObjectRegistry
  | .create operator => (registry.add (.own operator)).map (.ok ∘ .operator) id
  | .register name position => (registry.register name position).map (.map .operator) id
  | .lookup name => (registry.lookup name).map (.map .operator) id
  | .target name => ((registry.target name).map .operator, registry)
  | .has name => (.ok (.known (registry.has name)), registry)
  | .names => (.ok (.names registry.names), registry)
  | .freeze => (.ok .done, registry.freeze)

def Allows (registry : ObjectRegistry) : RegistryRequest Nat → Prop
  | .register _ position => position < registry.objects.length
  | _ => True

instance (registry : ObjectRegistry) : (request : RegistryRequest Nat) →
    Decidable (registry.Allows request)
  | .register _ position => inferInstanceAs (Decidable (position < registry.objects.length))
  | .create _ | .lookup _ | .target _ | .has _ | .names | .freeze => .isTrue trivial

variable {registry before middle after : ObjectRegistry} {request : RegistryRequest Nat}
  {result : Outcome (RegistryAnswer Nat)} {name : String} {position : Nat}

/-- All that a request can do. -/
inductive Effect (before : ObjectRegistry) :
    RegistryRequest Nat → Outcome (RegistryAnswer Nat) → ObjectRegistry → Prop where
  | failed {request : RegistryRequest Nat} (problem : Problem) (fallible : request ≠ .freeze) :
      Effect before request (.error problem) before
  | found {name : String} {position : Nat} (bound : before.find? name = some position) :
      Effect before (.target name) (.ok (.operator position)) before
  | told (name : String) : Effect before (.has name) (.ok (.known (before.has name))) before
  | listed : Effect before .names (.ok (.names before.names)) before
  | frozen : Effect before .freeze (.ok .done) before.freeze
  | created (operator : Operator) :
      Effect before (.create operator) (.ok (.operator before.objects.length))
        { before with objects := before.objects ++ [.own operator] }
  | referred {name : String} {position : Nat} (bound : before.find? name = some position) :
      Effect before (.lookup name) (.ok (.operator before.objects.length))
        (before.refer name position).2
  | registered {name : String} {position : Nat} (unfrozen : before.frozen = false)
      (fresh : before.find? name = none) :
      Effect before (.register name position) (.ok (.operator before.objects.length))
        (refer { before with bindings := before.bindings ++ [(name, position)] } name position).2

theorem find?_bound (fresh : before.find? name = none) :
    { before with bindings := before.bindings ++ [(name, position)] }.find? name = some position :=
  (lookup_push fresh).mpr (.inr ⟨rfl, rfl⟩)

theorem effect (before : ObjectRegistry) (request : RegistryRequest Nat) :
    Effect before request (before.respond request).1 (before.respond request).2 := by
  cases request with
  | create operator => exact .created operator
  | register name position =>
      simp only [respond, register]
      split
      · exact .failed _ nofun
      rename_i unfrozen
      split
      · exact .failed _ nofun
      split
      · exact .failed _ nofun
      rename_i fresh
      have fresh : before.find? name = none := Option.not_isSome_iff_eq_none.mp fresh
      rw [lookup, target, find?_bound fresh]
      exact .registered (Bool.eq_false_iff.mpr unfrozen) fresh
  | lookup name =>
      simp only [respond, lookup, target]
      cases bound : before.find? name with
      | none => exact .failed _ nofun
      | some position => exact .referred bound
  | target name =>
      simp only [respond, target]
      cases bound : before.find? name with
      | none => exact .failed _ nofun
      | some position => exact .found bound
  | has name => exact .told name
  | names => exact .listed
  | freeze => exact .frozen

structure Grows (before after : ObjectRegistry) : Prop where
  objects : before.objects <+: after.objects
  bindings : before.bindings <+: after.bindings
  frozen : before.frozen = true → after.frozen = true ∧ after.bindings = before.bindings

theorem Grows.refl (registry : ObjectRegistry) : Grows registry registry :=
  ⟨List.prefix_refl _, List.prefix_refl _, fun frozen => ⟨frozen, rfl⟩⟩

theorem Grows.trans (first : Grows before middle) (second : Grows middle after) :
    Grows before after where
  objects := first.objects.trans second.objects
  bindings := first.bindings.trans second.bindings
  frozen frozen := by
    obtain ⟨frozen, same⟩ := first.frozen frozen
    obtain ⟨frozen, same'⟩ := second.frozen frozen
    exact ⟨frozen, same'.trans same⟩

theorem Effect.grows (moved : Effect before request result after) : Grows before after := by
  cases moved with
  | frozen => exact ⟨List.prefix_refl _, List.prefix_refl _, fun _ => ⟨rfl, rfl⟩⟩
  | created operator =>
      exact ⟨List.prefix_append _ _, List.prefix_refl _, fun frozen => ⟨frozen, rfl⟩⟩
  | referred bound =>
      exact ⟨List.prefix_append _ _, List.prefix_refl _, fun frozen => ⟨frozen, rfl⟩⟩
  | registered unfrozen fresh =>
      exact ⟨List.prefix_append _ _, List.prefix_append _ _,
        fun frozen => absurd (unfrozen.symm.trans frozen) nofun⟩
  | _ => exact .refl before

/-- That references have copied from older objects, and that every name is bound once, to an
object. -/
structure Sound (registry : ObjectRegistry) : Prop where
  objects : OperatorObject.Sound registry.objects
  bound : ∀ entry ∈ registry.bindings, entry.2 < registry.objects.length
  once : (registry.bindings.map Prod.fst).Nodup

theorem sound_empty : Sound empty :=
  ⟨fun _ _ _ _ _ held => absurd held nofun, fun _ listed => absurd listed List.not_mem_nil,
    List.nodup_nil⟩

theorem Sound.add (sound : Sound registry) {object : OperatorObject}
    (objects : OperatorObject.Sound (registry.objects ++ [object])) :
    Sound (registry.add object).2 where
  objects := objects
  bound entry listed := by
    rw [ObjectRegistry.add, List.length_append]
    exact Nat.lt_add_right _ (sound.bound entry listed)
  once := sound.once

theorem Sound.refer (sound : Sound registry) (inside : position < registry.objects.length)
    (name : String) : Sound (registry.refer name position).2 := by
  have held := List.getElem?_eq_getElem inside
  have made := sound.objects.push_reference held name
  refine sound.add ?_
  rwa [held, Option.getD_some]

theorem Sound.bind (sound : Sound registry) (fresh : registry.find? name = none)
    (inside : position < registry.objects.length) :
    Sound { registry with bindings := registry.bindings ++ [(name, position)] } where
  objects := sound.objects
  bound entry listed := by
    rcases List.mem_append.mp listed with listed | last
    · exact sound.bound entry listed
    · rw [List.mem_singleton.mp last]
      exact inside
  once := by
    rw [List.map_append, List.map_singleton]
    refine List.nodup_append.mpr ⟨sound.once, List.pairwise_singleton _ _, ?_⟩
    rintro other listed _ last rfl
    obtain ⟨entry, stored, rfl⟩ := List.mem_map.mp listed
    have apart := List.lookup_eq_none_iff.mp fresh entry stored
    rw [List.mem_singleton.mp last, bne_self_eq_false] at apart
    cases apart

theorem Sound.inside (sound : Sound registry) (bound : registry.find? name = some position) :
    position < registry.objects.length :=
  sound.bound _ (mem_of_lookup bound)

theorem Effect.sound (moved : Effect before request result after) (allowed : before.Allows request)
    (sound : Sound before) : Sound after := by
  cases moved with
  | frozen => exact ⟨sound.objects, sound.bound, sound.once⟩
  | created operator => exact sound.add (sound.objects.push_own operator)
  | referred bound => exact sound.refer (sound.inside bound) _
  | registered unfrozen fresh => exact (sound.bind fresh allowed).refer allowed _
  | _ => exact sound

inductive Run (first : ObjectRegistry) :
    List (RegistryRequest Nat × Outcome (RegistryAnswer Nat)) → ObjectRegistry → Prop where
  | start : Run first [] first
  | request {trace : List (RegistryRequest Nat × Outcome (RegistryAnswer Nat))}
      {registry : ObjectRegistry} {request : RegistryRequest Nat} (earlier : Run first trace registry)
      (allowed : registry.Allows request) :
      Run first (trace ++ [(request, (registry.respond request).1)]) (registry.respond request).2

variable {first last : ObjectRegistry}
  {trace later : List (RegistryRequest Nat × Outcome (RegistryAnswer Nat))}

theorem Run.grows (run : Run first trace registry) : Grows first registry := by
  induction run with
  | start => exact .refl first
  | request _ _ ih => exact ih.trans (effect _ _).grows

theorem Run.sound (run : Run first trace registry) (sound : Sound first) : Sound registry := by
  induction run with
  | start => exact sound
  | request _ allowed ih => exact (effect _ _).sound allowed ih

theorem Run.exists_effect (run : Run first trace registry)
    {call : RegistryRequest Nat × Outcome (RegistryAnswer Nat)} (listed : call ∈ trace) :
    ∃ before after, Effect before call.1 call.2 after ∧ Grows after registry := by
  induction run with
  | start => exact absurd listed List.not_mem_nil
  | @request trace registry request earlier allowed ih =>
      have moved := effect registry request
      rcases List.mem_append.mp listed with listed | last
      · obtain ⟨before, after, made, grows⟩ := ih listed
        exact ⟨before, after, made, grows.trans moved.grows⟩
      · obtain rfl := List.mem_singleton.mp last
        exact ⟨registry, _, moved, .refl _⟩

def Returned (trace : List (RegistryRequest Nat × Outcome (RegistryAnswer Nat))) (name : String)
    (position : Nat) : Prop :=
  (.lookup name, .ok (.operator position)) ∈ trace ∨
    ∃ implementation, (.register name implementation, .ok (.operator position)) ∈ trace

/-- That an object is a reference to what is bound to the name. -/
def Refers (registry : ObjectRegistry) (name : String) (position : Nat) : Prop :=
  ∃ target signature doc, registry.find? name = some target ∧
    registry.objects[position]? = some (.reference name signature doc target)

theorem Grows.refers (grows : Grows before after) (refers : before.Refers name position) :
    after.Refers name position := by
  obtain ⟨target, signature, doc, bound, held⟩ := refers
  exact ⟨target, signature, doc, lookup_of_prefixOf grows.bindings bound,
    getElem?_of_prefixOf grows.objects held⟩

theorem refers_refer (bound : registry.find? name = some position) :
    (registry.refer name position).2.Refers name registry.objects.length :=
  ⟨position, _, _, bound, List.getElem?_concat_length⟩

theorem Run.refers (run : Run first trace registry) (returned : Returned trace name position) :
    registry.Refers name position := by
  rcases returned with listed | ⟨implementation, listed⟩
  · obtain ⟨before, after, moved, grows⟩ := run.exists_effect listed
    cases moved with
    | referred bound => exact grows.refers (refers_refer bound)
  · obtain ⟨before, after, moved, grows⟩ := run.exists_effect listed
    cases moved with
    | registered unfrozen fresh => exact grows.refers (refers_refer (find?_bound fresh))

def valueAt (registry : ObjectRegistry) (position : Nat) : Operator :=
  OperatorObject.valueAt registry.objects position

def view (registry : ObjectRegistry) : OperatorRegistry :=
  ⟨registry.bindings.map fun entry => (entry.1, registry.valueAt entry.2), registry.frozen⟩

theorem find?_view (registry : ObjectRegistry) (name : String) :
    registry.view.find? name = (registry.find? name).map registry.valueAt :=
  lookup_map_snd registry.valueAt registry.bindings name

theorem has_view (registry : ObjectRegistry) (name : String) :
    registry.view.has name = registry.has name := by
  rw [OperatorRegistry.has, find?_view, Option.isSome_map, has]

theorem target_view (registry : ObjectRegistry) (name : String) :
    registry.view.target name = (registry.target name).map registry.valueAt := by
  rw [OperatorRegistry.target, find?_view, target]
  cases registry.find? name <;> rfl

theorem names_view (registry : ObjectRegistry) : registry.view.names = registry.names := by
  rw [OperatorRegistry.names, view, List.map_map, names]
  rfl

theorem view_add (sound : Sound registry) (object : OperatorObject) :
    (registry.add object).2.view = registry.view := by
  rw [view, view]
  congr 1
  refine List.map_congr_left fun entry listed => ?_
  exact congrArg _ (OperatorObject.valueAt_append (sound.bound entry listed))

theorem valueAt_refer (inside : position < registry.objects.length) (name : String) :
    (registry.refer name position).2.valueAt registry.objects.length =
      .registered name (registry.valueAt position) := by
  refine (OperatorObject.valueAt_reference inside List.getElem?_concat_length).trans ?_
  exact congrArg _ (OperatorObject.valueAt_append inside)

theorem view_bind (registry : ObjectRegistry) (name : String) (position : Nat) :
    { registry with bindings := registry.bindings ++ [(name, position)] }.view =
      { registry.view with
        entries := registry.view.entries ++ [(name, registry.valueAt position)] } := by
  rw [view, List.map_append]
  rfl

theorem respond_view (sound : Sound registry) (allowed : registry.Allows request) :
    registry.view.respond (request.map registry.valueAt) =
      ((registry.respond request).1.map
          (RegistryAnswer.map (registry.respond request).2.valueAt),
        (registry.respond request).2.view) := by
  cases request with
  | create operator =>
      have same : (registry.add (.own operator)).2.valueAt registry.objects.length = operator :=
        OperatorObject.valueAt_own List.getElem?_concat_length
      refine Prod.ext (congrArg (Except.ok ∘ RegistryAnswer.operator) same.symm) ?_
      exact (view_add sound _).symm
  | register name position =>
      simp only [RegistryRequest.map, OperatorRegistry.respond, respond,
        OperatorRegistry.register, register, has_view]
      by_cases frozen : registry.frozen = true
      · rw [if_pos frozen, if_pos (show registry.view.frozen = true from frozen)]
        rfl
      rw [if_neg frozen, if_neg (show ¬registry.view.frozen = true from frozen)]
      by_cases unnamed : name = ""
      · rw [if_pos unnamed, if_pos unnamed]
        rfl
      rw [if_neg unnamed, if_neg unnamed]
      by_cases taken : registry.has name = true
      · rw [if_pos taken, if_pos taken]
        rfl
      -- The new name is bound before the reference is made, so both steps have to be followed.
      have fresh : registry.find? name = none := Option.not_isSome_iff_eq_none.mp taken
      have bound : Sound { registry with bindings := registry.bindings ++ [(name, position)] } :=
        sound.bind fresh allowed
      rw [if_neg taken, if_neg taken, lookup, target, find?_bound fresh]
      refine Prod.ext (congrArg (Except.ok ∘ RegistryAnswer.operator) ?_) ?_
      · exact (valueAt_refer allowed name).symm
      · exact ((view_add bound _).trans (view_bind registry name position)).symm
  | lookup name =>
      simp only [RegistryRequest.map, OperatorRegistry.respond, respond, OperatorRegistry.lookup,
        lookup, target_view]
      cases found : registry.find? name with
      | none =>
          rw [target, found]
          rfl
      | some position =>
          rw [target, found]
          refine Prod.ext (congrArg (Except.ok ∘ RegistryAnswer.operator) ?_) ?_
          · exact (valueAt_refer (sound.inside found) name).symm
          · exact (view_add sound _).symm
  | target name =>
      simp only [RegistryRequest.map, OperatorRegistry.respond, respond, target_view]
      cases registry.target name <;> rfl
  | has name =>
      simp only [RegistryRequest.map, OperatorRegistry.respond, respond, has_view]
      rfl
  | names =>
      simp only [RegistryRequest.map, OperatorRegistry.respond, respond, names_view]
      rfl
  | freeze => rfl

theorem Sound.names_strict (sound : Sound registry) :
    registry.names.Pairwise fun a b => Text.units a < Text.units b :=
  Text.sortByUnits_strict sound.once

theorem mem_names_iff : name ∈ registry.names ↔ registry.has name = true := by
  rw [names, Text.mem_sortByUnits, has, find?, List.lookup_isSome_iff, List.mem_map]
  exact exists_congr fun entry => and_congr_right fun _ => eq_comm.trans beq_iff_eq.symm

theorem Effect.unchanged {problem : Problem} (moved : Effect before request (.error problem) after) :
    after = before := by
  cases moved
  rfl

theorem Grows.valueAt_eq (grows : Grows before after) (inside : position < before.objects.length) :
    after.valueAt position = before.valueAt position := by
  obtain ⟨more, same⟩ := grows.objects
  rw [valueAt, ← same]
  exact OperatorObject.valueAt_append inside

theorem Refers.stands [Extension] (refers : registry.Refers name position) (sound : Sound registry)
    {target : Nat} (bound : registry.find? name = some target) :
    OperatorObject.Stands registry.objects position (registry.valueAt target).resolved := by
  obtain ⟨target', signature, doc, bound', held⟩ := refers
  obtain rfl := Option.some.inj (bound'.symm.trans bound)
  have stands := sound.objects.stands (List.getElem?_eq_some_iff.mp held).1
  rwa [OperatorObject.valueAt_reference (sound.objects _ _ _ _ _ held).1 held] at stands

theorem Refers.stands_later [Extension] (refers : before.Refers name position)
    (sound : Sound before) (grows : Grows before after) (sound' : Sound after) {target : Nat}
    (bound : before.find? name = some target) :
    OperatorObject.Stands after.objects position (before.valueAt target).resolved := by
  have stands := (grows.refers refers).stands sound' (lookup_of_prefixOf grows.bindings bound)
  rwa [grows.valueAt_eq (sound.inside bound)] at stands

/-- References mean the same forever. Whatever requests are made to a registry, and whatever follows
them: a name stays bound to the object that it was first bound to; once the registry is frozen
nothing is bound; a request that fails changes nothing; the bound names are listed strictly upwards
in the order of their units. Every reference that was an answer, and every later reference by the
same name, stands for one operator, which is no reference, before and after. All answers are those
of the registry of values. -/
theorem references_final [Extension] (run : Run .empty trace registry)
    (further : Run registry later last) :
    (∀ name position, registry.find? name = some position → last.find? name = some position) ∧
    (∀ name position answer, (.register name position, .ok answer) ∈ trace →
      registry.find? name = some position) ∧
    (∀ answer, (.freeze, answer) ∈ trace → last.bindings = registry.bindings) ∧
    (∀ request problem, (last.respond request).1 = .error problem →
      (last.respond request).2 = last) ∧
    (last.names.Pairwise (fun a b => Text.units a < Text.units b) ∧
      ∀ name, name ∈ last.names ↔ last.has name = true) ∧
    (∀ name position, Returned trace name position → ∃ operator,
      OperatorObject.Stands registry.objects position operator ∧
      OperatorObject.Stands last.objects position operator ∧
      ∃ other after, last.respond (.lookup name) = (.ok (.operator other), after) ∧
        OperatorObject.Stands after.objects other operator) ∧
    ∀ request, last.Allows request → last.view.respond (request.map last.valueAt) =
      ((last.respond request).1.map (RegistryAnswer.map (last.respond request).2.valueAt),
        (last.respond request).2.view) := by
  have sound := run.sound sound_empty
  have sound' := further.sound sound
  have grows := further.grows
  refine ⟨fun name position bound => lookup_of_prefixOf grows.bindings bound, ?_, ?_, ?_,
    ⟨sound'.names_strict, fun name => mem_names_iff⟩, ?_, fun request => respond_view sound'⟩
  · intro name position answer listed
    obtain ⟨_, _, moved, grows⟩ := run.exists_effect listed
    cases moved with
    | registered unfrozen fresh => exact lookup_of_prefixOf grows.bindings (find?_bound fresh)
  · intro answer listed
    obtain ⟨_, _, moved, grown⟩ := run.exists_effect listed
    cases moved with
    | failed problem fallible => exact absurd rfl fallible
    | frozen => exact (grows.frozen (grown.frozen rfl).1).2
  · intro request problem failed
    have moved := last.effect request
    rw [failed] at moved
    exact moved.unchanged
  · intro name position returned
    have refers := run.refers returned
    obtain ⟨target, -, -, bound, -⟩ := id refers
    have bound' : last.find? name = some target := lookup_of_prefixOf grows.bindings bound
    have inside := sound.inside bound
    refine ⟨_, refers.stands sound bound, refers.stands_later sound grows sound' bound,
      last.objects.length, (last.refer name target).2, ?_, ?_⟩
    · rw [respond, lookup, ObjectRegistry.target, bound']
      rfl
    · have made : Effect last (.lookup name) _ (last.refer name target).2 := .referred bound'
      have stands := (refers_refer bound').stands (sound'.refer (sound'.inside bound') name) bound'
      rwa [made.grows.valueAt_eq (sound'.inside bound'), grows.valueAt_eq inside] at stands

def aliased : ObjectRegistry where
  objects := [.own .makeTuple, .reference "a" Operator.tupleSignature Operator.makeTuple.doc 0,
    .reference "b" Operator.tupleSignature Operator.makeTuple.doc 1]
  bindings := [("a", 0), ("b", 1)]
  frozen := true

theorem references_final_aliased :
    Run .empty [(.create .makeTuple, .ok (.operator 0)), (.register "a" 0, .ok (.operator 1)),
      (.register "b" 1, .ok (.operator 2)), (.freeze, .ok .done)] aliased ∧
    Run aliased [(.register "c" 0, raise (.operatorsFrozen "c")), (.lookup "b", .ok (.operator 3))]
      (aliased.refer "b" 1).2 ∧
    (aliased.refer "b" 1).2.find? "b" = some 1 ∧
    OperatorObject.Stands (aliased.refer "b" 1).2.objects 2 .makeTuple := by
  have run : Run .empty [(.create .makeTuple, .ok (.operator 0)),
      (.register "a" 0, .ok (.operator 1)), (.register "b" 1, .ok (.operator 2)),
      (.freeze, .ok .done)] aliased := by
    refine .request (.request (.request (.request .start ?_) ?_) ?_) ?_
    all_goals decide
  have further : Run aliased [(.register "c" 0, raise (.operatorsFrozen "c")),
      (.lookup "b", .ok (.operator 3))] (aliased.refer "b" 1).2 := by
    refine .request (.request .start ?_) ?_
    all_goals decide
  obtain ⟨stays, -, -, -, -, stands, -⟩ := references_final run further
  obtain ⟨operator, before, after, -⟩ := stands "b" 2 (.inr ⟨1, by simp⟩)
  have own : OperatorObject.Ends aliased.objects 0 Operator.makeTuple.resolved := .own rfl
  have same : Operator.makeTuple = operator :=
    (before.ends _).mp (.reference rfl (.reference rfl own))
  exact ⟨run, further, stays "b" 1 rfl, same ▸ after⟩

end ObjectRegistry

end ExprWire
