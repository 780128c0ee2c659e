import ExprWire.Proofs.Dedup
import ExprWire.Proofs.Intact
import ExprWire.Proofs.Lockstep
/-!
Where decoded things come from. The effects of a run make a ledger with one item for each step.
Whatever the decoder holds is in it, with everything that it is made of and the codec that it was
decoded with: what a step refers to stands at an earlier position, whatever the steps are. So there
are no more things to store than there were steps.
-/

namespace ExprWire

namespace Item

def needs : Item → List Item
  | .value v => .codec v.codecName :: v.fields.map .value
  | .node e => e.deps.map .node ++ (e.content?.map .value).toList
  | _ => []

def Native (operators : OperatorRegistry) (options : Options) : Item → Prop
  | .value v => v.Native operators
  | .node e => options.safe = true → e.Counted
  | _ => True

end Item

namespace Effect

def item : Effect → Item
  | .value v => .value v
  | .expr e => .node e
  | .codec loaded => .codec loaded.name
  | .outputValue _ | .outputExpr _ => .marker

/-- What an effect needs to be there: what it stores needs it, or it is what it marks. -/
def needs : Effect → List Item
  | .outputValue v => [.value v]
  | .outputExpr e => [.node e]
  | effect => effect.item.needs

end Effect

namespace Ledger

variable {items more : Ledger} {roots : Roots}

/-- That everything stands in a ledger together with what it needs. -/
def Closed (items : Ledger) : Prop := ∀ item ∈ items, ∀ other ∈ item.needs, other ∈ items

theorem Closed.push (closed : items.Closed) {item : Item}
    (needs : ∀ other ∈ item.needs, other ∈ items) : Closed (items ++ [item]) := by
  intro known present other needed
  rcases mem_push present with old | rfl
  · exact List.mem_append_left _ (closed known old other needed)
  · exact List.mem_append_left _ (needs other needed)

theorem Closed.node_mem (closed : items.Closed) {e part : Expr} (present : .node e ∈ items)
    (inside : part ∈ e.parts) : .node part ∈ items := by
  induction e using Expr.byDeps with
  | step e ih =>
      rcases Expr.mem_parts_iff.mp inside with rfl | ⟨dep, direct, within⟩
      · exact present
      · have needed : .node dep ∈ (Item.node e).needs :=
          List.mem_append_left _ (List.mem_map_of_mem direct)
        exact ih dep direct (closed _ present _ needed) within

theorem Closed.value_mem (closed : items.Closed) {v part : Value} (present : .value v ∈ items)
    (inside : part ∈ v.parts) : .value part ∈ items := by
  refine mem_values.mp (Value.mem_of_mem_parts ?_ (mem_values.mpr present) inside)
  intro u stored field nested
  have needed : .value field ∈ (Item.value u).needs :=
    List.mem_cons_of_mem _ (List.mem_map_of_mem nested)
  exact mem_values.mpr (closed _ (mem_values.mp stored) _ needed)

structure Covers (roots : Roots) (items : Ledger) : Prop where
  values : ∀ v ∈ roots.values, .value v ∈ items
  exprs : ∀ e ∈ roots.exprs, .node e ∈ items

theorem Covers.nodes (covers : Covers roots items) (closed : items.Closed) :
    ∀ e ∈ roots.nodes, .node e ∈ items := by
  intro e present
  obtain ⟨root, given, inside⟩ := List.mem_flatMap.mp present
  exact closed.node_mem (covers.exprs root given) inside

theorem Covers.contents (covers : Covers roots items) (closed : items.Closed) :
    ∀ v ∈ roots.contents, .value v ∈ items := by
  intro v present
  obtain ⟨root, listed, inside⟩ := List.mem_flatMap.mp present
  rcases List.mem_append.mp listed with given | carried
  · exact closed.value_mem (covers.values root given) inside
  · obtain ⟨e, node, content⟩ := List.mem_filterMap.mp carried
    have needed : .value root ∈ (Item.node e).needs := by
      refine List.mem_append_right _ ?_
      rw [content]
      exact List.mem_singleton_self _
    exact closed.value_mem (closed _ (covers.nodes closed e node) _ needed) inside

theorem length_kinds_le (items : Ledger) :
    items.values.length + items.nodes.length + items.codecs.length ≤ items.length := by
  induction items with
  | nil => exact Nat.le_refl 0
  | cons item items ih =>
      rw [values, nodes, codecs] at ih ⊢
      cases item <;>
        simp only [List.filterMap_cons, Item.value?, Item.node?, Item.codec?, List.length_cons] <;>
        omega

theorem Covers.stepCount_le (covers : Covers roots items) (closed : items.Closed) :
    roots.stepCount ≤ items.length := by
  have card_le {α : Type} [DecidableEq α] {reached stored : List α}
      (subset : ∀ a ∈ reached, a ∈ stored) : reached.toFinset.card ≤ stored.length :=
    Nat.le_trans (card_le_of_subset subset) (List.toFinset_card_le stored)
  have values : roots.valuePrints.toFinset.card ≤ items.values.length := by
    rw [← List.length_map Value.fingerprint]
    refine card_le fun print listed => ?_
    obtain ⟨v, present, rfl⟩ := List.mem_map.mp listed
    exact List.mem_map_of_mem (mem_values.mpr (covers.contents closed v present))
  have nodes : roots.nodePrints.toFinset.card ≤ items.nodes.length := by
    rw [← List.length_map Expr.fingerprint]
    refine card_le fun print listed => ?_
    obtain ⟨e, present, rfl⟩ := List.mem_map.mp listed
    exact List.mem_map_of_mem (mem_nodes.mpr (covers.nodes closed e present))
  have codecs : roots.codecNames.toFinset.card ≤ items.codecs.length := by
    refine card_le fun name listed => ?_
    obtain ⟨v, present, rfl⟩ := List.mem_map.mp listed
    exact mem_codecs.mpr (closed _ (covers.contents closed v present) _ List.mem_cons_self)
  have kinds := items.length_kinds_le
  rw [Roots.stepCount]
  omega

end Ledger

def Decoded.roots (decoded : Decoded) : Roots := ⟨decoded.values, decoded.exprs⟩

namespace Decoder

open Ledger (Covers)

variable {operators : OperatorRegistry} {options : Options} {decoder after : Decoder}
  {items : Ledger} {step : Step} {steps : List Step} {effect : Effect}

/-- That a ledger has all that a decoder holds. -/
structure Recorded (decoder : Decoder) (items : Ledger) : Prop where
  values : ∀ position v, (decoder.slot position).value = some v → .value v ∈ items
  exprs : ∀ position e, (decoder.slot position).expr = some e → .node e ∈ items
  codecs : ∀ codec ∈ decoder.codecs.toList, .codec codec.name ∈ items
  outputs : Covers decoder.marked.roots items

namespace Recorded

variable (recorded : decoder.Recorded items)
include recorded

theorem valueAt {index : Number} {v : Value} (held : decoder.ValueAt index v) :
    .value v ∈ items := by
  obtain ⟨position, -, held⟩ := held
  exact recorded.values position v held

theorem exprAt {index : Number} {e : Expr} (held : decoder.ExprAt index e) : .node e ∈ items := by
  obtain ⟨position, -, held⟩ := held
  exact recorded.exprs position e held

theorem valuesAt {indices : List Number} {vs : List Value}
    (held : List.Forall₂ decoder.ValueAt indices vs) : ∀ v ∈ vs, .value v ∈ items := by
  intro v listed
  obtain ⟨index, here⟩ := Ledger.exists_of_forall₂ held.flip listed
  exact recorded.valueAt here

theorem exprsAt {indices : List Number} {es : List Expr}
    (held : List.Forall₂ decoder.ExprAt indices es) : ∀ e ∈ es, .node e ∈ items := by
  intro e listed
  obtain ⟨index, here⟩ := Ledger.exists_of_forall₂ held.flip listed
  exact recorded.exprAt here

theorem grow (needs : ∀ other ∈ effect.needs, other ∈ items) :
    (decoder.grow effect).Recorded (items ++ [effect.item]) := by
  have kept {item : Item} (present : item ∈ items) : item ∈ items ++ [effect.item] :=
    List.mem_append_left _ present
  have last : effect.item ∈ items ++ [effect.item] :=
    List.mem_append_right _ (List.mem_singleton_self _)
  refine ⟨fun position v held => ?_, fun position e held => ?_, fun codec present => ?_, ?_, ?_⟩
  · by_cases here : position = decoder.size
    · rw [here, slot_grow_last] at held
      cases effect with
      | value u => exact Option.some.inj held ▸ last
      | _ => exact absurd held nofun
    · exact kept (recorded.values position v (slot_grow_of_ne here ▸ held))
  · by_cases here : position = decoder.size
    · rw [here, slot_grow_last] at held
      cases effect with
      | expr d => exact Option.some.inj held ▸ last
      | _ => exact absurd held nofun
    · exact kept (recorded.exprs position e (slot_grow_of_ne here ▸ held))
  · rcases mem_codecs_grow.mp present with old | rfl
    · exact kept (recorded.codecs codec old)
    · exact last
  · intro v named
    cases effect with
    | outputValue u =>
        rcases List.mem_append.mp named with old | new
        · exact kept (recorded.outputs.values v old)
        · exact kept (needs _ (List.mem_singleton.mpr (congrArg _ (List.mem_singleton.mp new))))
    | _ => exact kept (recorded.outputs.values v named)
  · intro e named
    cases effect with
    | outputExpr d =>
        rcases List.mem_append.mp named with old | new
        · exact kept (recorded.outputs.exprs e old)
        · exact kept (needs _ (List.mem_singleton.mpr (congrArg _ (List.mem_singleton.mp new))))
    | _ => exact kept (recorded.outputs.exprs e named)

theorem yields {outputValues outputExprs : List Number} {decoded : Decoded}
    (yields : decoder.Yields decoder.marked outputValues outputExprs decoded) :
    Covers decoded.roots items := by
  obtain ⟨vs, es, values, exprs, rfl⟩ := yields
  constructor
  · intro v given
    rcases List.mem_append.mp given with marked | listed
    · exact recorded.outputs.values v marked
    · exact recorded.valuesAt values v listed
  · intro e given
    rcases List.mem_append.mp given with marked | listed
    · exact recorded.outputs.exprs e marked
    · exact recorded.exprsAt exprs e listed

end Recorded

/-- That a ledger has all that a decoder holds, with all that is needed for it. -/
structure Traced (operators : OperatorRegistry) (decoder : Decoder) (items : Ledger) : Prop where
  equipped : decoder.Equipped operators
  recorded : decoder.Recorded items
  closed : items.Closed
  native : ∀ item ∈ items, item.Native operators decoder.options

theorem traced_start (operators : OperatorRegistry) (options : Options) :
    Traced operators (.start (CodecRegistry.standard operators).lookup options) [] where
  equipped := equipped_start operators options
  recorded :=
    ⟨fun _ _ held => absurd held nofun, fun _ _ held => absurd held nofun,
      fun _ present => absurd present List.not_mem_nil,
      fun _ named => absurd named List.not_mem_nil, fun _ named => absurd named List.not_mem_nil⟩
  closed _ present := absurd present List.not_mem_nil
  native _ present := absurd present List.not_mem_nil

variable [Extension]

theorem Traced.settles (traced : Traced operators decoder items)
    (settles : decoder.Settles decoder.size step effect) :
    (∀ other ∈ effect.needs, other ∈ items) ∧
      effect.item.Native operators decoder.options := by
  have recorded := traced.recorded
  cases settles with
  | @literal index v loaded free =>
      refine ⟨fun other needed => ?_, fun _ => trivial⟩
      rw [List.mem_singleton.mp needed]
      exact recorded.valueAt (loadValue_size_eq_ok_iff.mp loaded)
  | leaf key free => exact ⟨fun _ needed => absurd needed List.not_mem_nil, fun _ => trivial⟩
  | placeholder key free =>
      exact ⟨fun _ needed => absurd needed List.not_mem_nil, fun _ => trivial⟩
  | @apply operator deps e applied free =>
      obtain ⟨op, loaded, ds, loaded', made⟩ := applyOperator_eq_ok_iff.mp applied
      obtain ⟨counted, rfl⟩ := Options.application_eq_ok_iff.mp made
      refine ⟨fun other needed => ?_, counted⟩
      rcases List.mem_append.mp needed with direct | content
      · obtain ⟨d, listed, rfl⟩ := List.mem_map.mp direct
        exact recorded.exprsAt (loadExprs_size_eq_ok_iff.mp loaded') d listed
      · rw [List.mem_singleton.mp content]
        exact recorded.valueAt (loadValue_size_eq_ok_iff.mp loaded)
  | @value payload chosen values exprs vs es v loaded loaded' decoded free =>
      obtain ⟨codec, present, restored⟩ := traced.equipped.exists_codec decoded
      obtain ⟨fields, named, native⟩ := traced.equipped.restored present restored
      refine ⟨fun other needed => ?_, native⟩
      rcases List.mem_cons.mp needed with rfl | nested
      · rw [named]
        exact recorded.codecs codec present
      · obtain ⟨field, listed, rfl⟩ := List.mem_map.mp nested
        exact recorded.valuesAt (loadValues_size_eq_ok_iff.mp loaded) field (fields ▸ listed)
  | codec vacant found => exact ⟨fun _ needed => absurd needed List.not_mem_nil, trivial⟩
  | outputValue loaded =>
      refine ⟨fun other needed => ?_, trivial⟩
      rw [List.mem_singleton.mp needed]
      exact recorded.valueAt (loadValue_size_eq_ok_iff.mp loaded)
  | outputExpr loaded =>
      refine ⟨fun other needed => ?_, trivial⟩
      rw [List.mem_singleton.mp needed]
      exact recorded.exprAt (loadExpr_size_eq_ok_iff.mp loaded)

theorem Traced.grow (traced : Traced operators decoder items)
    (settles : decoder.Settles decoder.size step effect) :
    Traced operators (decoder.grow effect) (items ++ [effect.item]) := by
  obtain ⟨needs, native⟩ := traced.settles settles
  have stored : ∀ other ∈ effect.item.needs, other ∈ items := by
    cases effect with
    | outputValue v => exact fun _ needed => absurd needed List.not_mem_nil
    | outputExpr e => exact fun _ needed => absurd needed List.not_mem_nil
    | _ => exact needs
  refine ⟨traced.equipped.grow settles, traced.recorded.grow needs, traced.closed.push stored, ?_⟩
  intro item present
  rw [options_grow]
  rcases Ledger.mem_push present with old | rfl
  · exact traced.native item old
  · exact native

theorem Traced.run (traced : Traced operators decoder items) (run : Run decoder steps after) :
    ∃ more, more.length = steps.length ∧ Traced operators after (items ++ more) := by
  induction run generalizing items with
  | done decoder => exact ⟨[], rfl, (List.append_nil items).symm ▸ traced⟩
  | @next decoder after step steps effect settles rest ih =>
      obtain ⟨more, length, traced'⟩ := ih (traced.grow settles)
      refine ⟨effect.item :: more, congrArg Nat.succ length, ?_⟩
      rwa [List.append_assoc, List.singleton_append] at traced'

theorem Run.options_eq (run : Run decoder steps after) : after.options = decoder.options := by
  induction run with
  | done decoder => rfl
  | @next _ _ _ _ effect _ _ ih => exact ih.trans (options_grow effect)

end Decoder

theorem Container.exists_ledger [Extension] {operators : OperatorRegistry} {options : Options}
    {container : Container} {decoded : Decoded}
    (decodes : container.decode (CodecRegistry.standard operators).lookup options = .ok decoded) :
    ∃ items : Ledger, items.length = container.steps.length ∧ items.Closed ∧
      Ledger.Covers decoded.roots items ∧ ∀ item ∈ items, item.Native operators options := by
  obtain ⟨-, after, run, yields⟩ := decode_iff_run.mp decodes
  obtain ⟨items, length, traced⟩ := (Decoder.traced_start operators options).run run
  have native := traced.native
  rw [run.options_eq] at native
  exact ⟨items, length, traced.closed, traced.recorded.yields yields, native⟩

end ExprWire
