import ExprWire.Proofs.Encoding
import ExprWire.Proofs.Intact
import ExprWire.Proofs.Lockstep
/-!
What a decoder makes of a ledger's steps. Each slot holds what the ledger says of its position, in
full for values and but for the attributes for expressions; so the outputs are the roots.
-/

namespace ExprWire

open Ledger (Spells Spelled Builds Reached)

/-- That an effect stores an item, attributes aside. -/
inductive Effect.Stores : Effect → Item → Prop where
  | codec (loaded : LoadedCodec) : Stores (.codec loaded) (.codec loaded.name)
  | value (v : Value) : Stores (.value v) (.value v)
  | node {d e : Expr} (same : e.bare = d.bare) : Stores (.expr e) (.node d)

namespace Decoder

variable {decoder : Decoder} {position : Nat}

/-- That a decoder holds what a ledger says, attributes aside. -/
structure Mirrors (operators : OperatorRegistry) (options : Options) (decoder : Decoder)
    (items : Ledger) : Prop where
  options : decoder.options = options
  lookup : decoder.lookup = (CodecRegistry.standard operators).lookup
  usable : decoder.failed = false
  values : ∀ position u, items[position]? = some (Item.value u) →
    decoder.slot position = ⟨some u, none, none⟩
  nodes : ∀ position d, items[position]? = some (Item.node d) →
    ∃ e, decoder.slot position = ⟨none, some e, none⟩ ∧ e.bare = d.bare
  codecs : decoder.codecs.toList.map LoadedCodec.name = items.codecs
  loaded : ∀ codec ∈ decoder.codecs.toList, decoder.lookup codec.name = .ok codec.decode
  unmarked : decoder.outputValues = [] ∧ decoder.outputExprs = []

namespace Mirrors

variable {operators : OperatorRegistry} {options : Options} {roots : Roots} {items : Ledger}
  {limit : Nat}

theorem start (operators : OperatorRegistry) (options : Options) :
    Mirrors operators options (.start (CodecRegistry.standard operators).lookup options) [] where
  options := rfl
  lookup := rfl
  usable := rfl
  values _ _ found := absurd found nofun
  nodes _ _ found := absurd found nofun
  codecs := rfl
  loaded _ present := absurd present List.not_mem_nil
  unmarked := ⟨rfl, rfl⟩

theorem grow [Extension] (mirrors : Mirrors operators options decoder items)
    (size : decoder.size = items.length) {step : Step} {effect : Effect} {item : Item}
    (settles : decoder.Settles decoder.size step effect) (stores : effect.Stores item) :
    Mirrors operators options (decoder.grow effect) (items ++ [item]) := by
  have old {place : Nat} {other : Item} (found : items[place]? = some other) :
      (decoder.grow effect).slot place = decoder.slot place := by
    have inside : place < items.length := (List.getElem?_eq_some_iff.mp found).choose
    exact slot_grow_of_ne (by omega)
  have last : (decoder.grow effect).slot items.length = effect.store .empty := by
    rw [← size, slot_grow_last]
  refine ⟨(options_grow effect).trans mirrors.options, (lookup_grow effect).trans mirrors.lookup,
    (failed_grow effect).trans mirrors.usable, ?values, ?nodes, ?codecs, ?loaded, ?unmarked⟩
  case values =>
    intro place u found
    rcases getElem?_push.mp found with earlier | ⟨rfl, here⟩
    · rw [old earlier, mirrors.values place u earlier]
    · rw [last]
      cases stores with
      | value v => exact Item.value.inj here ▸ rfl
      | _ => exact absurd here nofun
  case nodes =>
    intro place d found
    rcases getElem?_push.mp found with earlier | ⟨rfl, here⟩
    · rw [old earlier]
      exact mirrors.nodes place d earlier
    · rw [last]
      cases stores with
      | @node _ e same => exact ⟨e, rfl, Item.node.inj here ▸ same⟩
      | _ => exact absurd here nofun
  case codecs =>
    rw [Ledger.codecs_append, ← mirrors.codecs]
    cases stores with
    | codec loaded =>
        change (decoder.codecs.push loaded).toList.map LoadedCodec.name = _
        rw [Array.toList_push, List.map_append]
        rfl
    | _ => exact (List.append_nil _).symm
  case loaded =>
    intro codec present
    rw [lookup_grow]
    rcases mem_codecs_grow.mp present with earlier | rfl
    · exact mirrors.loaded codec earlier
    · cases settles with
      | codec vacant found => exact found
  case unmarked => cases stores <;> exact mirrors.unmarked

theorem valueAt (mirrors : Mirrors operators options decoder items) (told : roots.Told)
    (restorable : roots.Restorable operators options) (reached : Reached roots items) {v : Value}
    (present : v ∈ roots.contents) (stored : items.HasValue v position) :
    decoder.ValueAt (.ofNat position) v := by
  obtain ⟨u, found, same⟩ := stored
  have equal : u = v :=
    told.value_eq restorable.contents (reached.values u (List.mem_of_getElem? found)) present same
  rw [valueAt_ofNat, mirrors.values position u found, equal]

theorem exprAt (mirrors : Mirrors operators options decoder items) (told : roots.Told)
    (restorable : roots.Restorable operators options) (reached : Reached roots items) {e : Expr}
    (present : e ∈ roots.nodes) (stored : items.HasNode e position) :
    ∃ d, decoder.ExprAt (.ofNat position) d ∧ d.bare = e.bare := by
  obtain ⟨known, found, same⟩ := stored
  have equal : known.bare = e.bare :=
    told.bare_eq restorable.contents (reached.nodes known (List.mem_of_getElem? found)) present same
  obtain ⟨d, held, bare⟩ := mirrors.nodes position known found
  exact ⟨d, exprAt_ofNat.mpr (by rw [held]), bare.trans equal⟩

theorem valuesAt (mirrors : Mirrors operators options decoder items) (told : roots.Told)
    (restorable : roots.Restorable operators options) (reached : Reached roots items)
    {vs : List Value} {positions : List Nat} (present : ∀ v ∈ vs, v ∈ roots.contents)
    (stored : List.Forall₂ items.HasValue vs positions) :
    List.Forall₂ decoder.ValueAt (positions.map Number.ofNat) vs := by
  induction stored with
  | nil => exact .nil
  | cons first _ ih =>
      have head := mirrors.valueAt told restorable reached (present _ List.mem_cons_self) first
      exact .cons head (ih fun v listed => present v (List.mem_cons_of_mem _ listed))

theorem exprsAt (mirrors : Mirrors operators options decoder items) (told : roots.Told)
    (restorable : roots.Restorable operators options) (reached : Reached roots items)
    {es : List Expr} {positions : List Nat} (present : ∀ e ∈ es, e ∈ roots.nodes)
    (stored : List.Forall₂ items.HasNode es positions) :
    ∃ ds, List.Forall₂ decoder.ExprAt (positions.map Number.ofNat) ds ∧
      ds.map Expr.bare = es.map Expr.bare := by
  induction stored with
  | nil => exact ⟨[], .nil, rfl⟩
  | cons first _ ih =>
      obtain ⟨d, head, same⟩ :=
        mirrors.exprAt told restorable reached (present _ List.mem_cons_self) first
      obtain ⟨ds, tail, others⟩ := ih fun e listed => present e (List.mem_cons_of_mem _ listed)
      refine ⟨d :: ds, .cons head tail, ?_⟩
      rw [List.map_cons, List.map_cons, same, others]

theorem decodeValue (mirrors : Mirrors operators options decoder items) {v : Value}
    {payload : Bytes} {slot : Nat} (intact : v.Intact operators) (stored : v.payload = .ok payload)
    (declared : items.codecs[slot]? = some v.codecName) :
    decoder.decodeValue (some (.ofNat slot)) payload v.fields [] = .ok v := by
  rw [← mirrors.codecs, List.getElem?_map, Option.map_eq_some_iff] at declared
  obtain ⟨codec, found, name⟩ := declared
  obtain ⟨decode, looked, decoded⟩ := Value.decode_payload intact.kept stored
  have loaded := mirrors.loaded codec (List.mem_of_getElem? found)
  rw [mirrors.lookup, name, looked] at loaded
  rw [Array.getElem?_toList] at found
  exact decodeValue_some_eq_ok_iff.mpr ⟨slot, codec, rfl, found, Except.ok.inj loaded ▸ decoded⟩

theorem applyOperator [Extension] (mirrors : Mirrors operators options decoder items)
    (told : roots.Told)
    (restorable : roots.Restorable operators options) (reached : Reached roots items)
    {op : Operator} {deps : List Expr} {attributes : Attributes} {positions : List Nat}
    (present : .apply op deps attributes ∈ roots.nodes)
    (content : items.HasValue (.operator op) position)
    (direct : List.Forall₂ items.HasNode deps positions) :
    ∃ e, decoder.applyOperator decoder.size (.ofNat position) (positions.map Number.ofNat) =
      .ok e ∧ e.bare = (Expr.apply op deps attributes).bare := by
  have operator := mirrors.valueAt told restorable reached
    (Roots.content_mem_contents present rfl) content
  obtain ⟨ds, loaded, same⟩ := mirrors.exprsAt told restorable reached
    (fun dep listed => Roots.dep_mem_nodes present listed) direct
  change ds.map Expr.bare = deps.map Expr.bare at same
  have count : ds.length = deps.length := by
    simpa using congrArg List.length same
  have counted (safe : decoder.options.safe = true) :
      op.signature.arity.accepts ds.length = true :=
    count ▸ restorable.counted (mirrors.options ▸ safe) _ present
  refine ⟨_, applyOperator_eq_ok_iff.mpr ⟨op, loadValue_size_eq_ok_iff.mpr operator, ds,
    loadExprs_size_eq_ok_iff.mpr loaded, Options.application_eq_ok_iff.mpr ⟨counted, rfl⟩⟩, ?_⟩
  simp only [Expr.bare, Expr.bareAll_eq, same]

theorem settles [Extension] (mirrors : Mirrors operators options decoder items) (told : roots.Told)
    (restorable : roots.Restorable operators options) {item : Item}
    (reached : Reached roots (items ++ [item])) {step : Step} (spells : Spells items item step)
    (unmarked : item ≠ .marker)
    (known : ∀ name, item = .codec name → ∃ decode, decoder.lookup name = .ok decode) :
    ∃ effect, decoder.Settles decoder.size step effect ∧ effect.Stores item := by
  have earlier : Reached roots items := reached.subset fun _ => List.mem_append_left _
  have last : item ∈ items ++ [item] := List.mem_append_right _ List.mem_cons_self
  have empty : decoder.slot decoder.size = .empty := slot_of_size_le (Nat.le_refl _)
  have free : (decoder.slot decoder.size).isFree = true := by
    rw [empty]
    rfl
  cases spells with
  | @codec name fresh =>
      obtain ⟨decode, found⟩ := known name rfl
      have vacant : (decoder.slot decoder.size).codec = none := by
        rw [empty]
        rfl
      exact ⟨_, .codec vacant found, .codec ⟨name, decode⟩⟩
  | @value v payload slot positions _ stored declared nested =>
      have fields := mirrors.valuesAt told restorable earlier
        (fun field listed => Roots.field_mem_contents (reached.values v last) listed) nested
      have decoded := mirrors.decodeValue (restorable.contents v (reached.values v last)) stored
        declared
      exact ⟨_, .value (loadValues_size_eq_ok_iff.mpr fields) rfl decoded free, .value v⟩
  | outputValue => exact absurd rfl unmarked
  | outputExpr => exact absurd rfl unmarked
  | @node e _ fresh builds =>
      have present := reached.nodes e last
      cases builds with
      | @literal v place content =>
          have loaded := mirrors.valueAt told restorable earlier
            (Roots.content_mem_contents present rfl) content
          exact ⟨_, .literal (loadValue_size_eq_ok_iff.mpr loaded) free, .node rfl⟩
      | leaf key => exact ⟨_, .leaf key free, .node rfl⟩
      | placeholder key => exact ⟨_, .placeholder key free, .node rfl⟩
      | apply content direct =>
          obtain ⟨e, applied, same⟩ :=
            mirrors.applyOperator told restorable earlier present content direct
          exact ⟨_, .apply applied free, .node same⟩

end Mirrors

theorem run_mirrors [Extension] {operators : OperatorRegistry} {options : Options} {roots : Roots}
    {items : Ledger} {steps : List Step} (told : roots.Told)
    (restorable : roots.Restorable operators options)
    (spelled : Spelled items steps) (reached : Reached roots items) (unmarked : .marker ∉ items)
    (known : ∀ name, .codec name ∈ items →
      ∃ decode, (CodecRegistry.standard operators).lookup name = .ok decode) :
    ∃ after, Run (start (CodecRegistry.standard operators).lookup options) steps after ∧
      Mirrors operators options after items ∧ after.size = items.length := by
  induction spelled with
  | nil => exact ⟨_, .done _, .start operators options, rfl⟩
  | @snoc items steps item step earlier spells ih =>
      have last : item ∈ items ++ [item] := List.mem_append_right _ List.mem_cons_self
      obtain ⟨middle, run, mirrors, size⟩ := ih
        (reached.subset fun _ => List.mem_append_left _)
        (fun present => unmarked (List.mem_append_left _ present))
        (fun name present => known name (List.mem_append_left _ present))
      obtain ⟨effect, settles, stores⟩ := mirrors.settles told restorable reached spells
        (fun same => unmarked (same ▸ last))
        (fun name same => mirrors.lookup ▸ known name (same ▸ last))
      refine ⟨middle.grow effect, run_append_iff.mpr ⟨middle, run, .next settles (.done _)⟩,
        mirrors.grow size settles stores, ?_⟩
      rw [size_grow, size, List.length_append, List.length_singleton]

end Decoder

theorem Value.exists_decoder (operators : OperatorRegistry) (v : Value) :
    ∃ decode, (CodecRegistry.standard operators).lookup v.codecName = .ok decode := by
  cases v <;> exact ⟨_, rfl⟩

theorem Container.Holds.restore [Extension] {operators : OperatorRegistry} {options : Options}
    {roots : Roots} {items : Ledger} {container : Container} (holds : container.Holds roots items)
    (told : roots.Told) (restorable : roots.Restorable operators options) :
    ∃ decoded, container.decode (CodecRegistry.standard operators).lookup options = .ok decoded ∧
      decoded.values = roots.values ∧ decoded.exprs.map Expr.bare = roots.exprs.map Expr.bare := by
  have known : ∀ name, .codec name ∈ items →
      ∃ decode, (CodecRegistry.standard operators).lookup name = .ok decode := by
    intro name declared
    obtain ⟨u, -, same⟩ := holds.growth.used name declared
    rw [← same]
    exact u.exists_decoder operators
  obtain ⟨decoder, run, mirrors, -⟩ := Decoder.run_mirrors told restorable holds.spelled
    holds.reached holds.growth.unmarked known
  obtain ⟨positions, outputs, stored⟩ := holds.values
  obtain ⟨positions', outputs', stored'⟩ := holds.exprs
  have values := mirrors.valuesAt told restorable holds.reached
    (fun v given => Roots.parts_subset_contents given v v.self_mem_parts) stored
  obtain ⟨exprs, loaded, same⟩ := mirrors.exprsAt told restorable holds.reached
    (fun e given => Roots.parts_subset_nodes given e e.self_mem_parts) stored'
  have unmarked : decoder.marked = ⟨[], []⟩ := by
    rw [Decoder.marked, mirrors.unmarked.1, mirrors.unmarked.2]
  refine ⟨⟨roots.values, exprs⟩, decode_iff_run.mpr ⟨holds.version, decoder, run, ?_⟩, rfl, same⟩
  rw [unmarked, outputs, outputs']
  exact ⟨roots.values, exprs, values, loaded, rfl⟩

theorem Container.Holds.decode [Extension] {operators : OperatorRegistry} {roots : Roots}
    {items : Ledger}
    {container : Container} (holds : container.Holds roots items) (told : roots.Told)
    (intact : roots.Intact operators) (options : Options) :
    ∃ decoded, container.decode (CodecRegistry.standard operators).lookup options = .ok decoded ∧
      decoded.values = roots.values ∧ decoded.exprs.map Expr.bare = roots.exprs.map Expr.bare :=
  holds.restore told (intact.restorable options)

end ExprWire
