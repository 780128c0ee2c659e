import ExprWire.Proofs.Inference
import ExprWire.Proofs.Support
/-!
Attributes on the way through a container. They are not stored: under the default options decoding
builds every expression anew with inference on. So what was built that way is restored in full, with
its attributes.
-/

namespace ExprWire

namespace Decoder

variable {decoder after : Decoder} {step : Step} {steps : List Step} {effect : Effect}

variable [Extension]

/-- That a decoder infers, and that all expressions that it holds were built. -/
structure Builds (decoder : Decoder) : Prop where
  options : decoder.options = .default
  exprs : ∀ position e, (decoder.slot position).expr = some e → e.Built
  outputs : ∀ e ∈ decoder.outputExprs, e.Built

theorem builds_start (lookup : CodecLookup) : Builds (.start lookup .default) where
  options := rfl
  exprs position e held := by
    have empty : (start lookup .default).slot position = .empty :=
      slot_of_size_le (Nat.zero_le position)
    rw [empty] at held
    cases held
  outputs e listed := absurd listed List.not_mem_nil

namespace Builds

variable (builds : decoder.Builds)
include builds

theorem exprAt {index : Number} {e : Expr} (held : decoder.ExprAt index e) : e.Built := by
  obtain ⟨position, -, held⟩ := held
  exact builds.exprs position e held

theorem exprsAt {indices : List Number} {es : List Expr}
    (held : List.Forall₂ decoder.ExprAt indices es) : ∀ e ∈ es, e.Built := by
  intro e listed
  obtain ⟨index, here⟩ := Ledger.exists_of_forall₂ held.flip listed
  exact builds.exprAt here

theorem settles (settles : decoder.Settles decoder.size step effect) :
    ∀ e, effect = .expr e ∨ effect = .outputExpr e → e.Built := by
  intro e given
  cases settles with
  | @literal index v loaded free =>
      have same : Expr.literal v = e := by simpa using given
      exact same ▸ .literal v
  | leaf key free =>
      have same : Expr.leaf key = e := by simpa using given
      exact same ▸ .leaf key
  | placeholder key free =>
      have same : Expr.placeholder key = e := by simpa using given
      exact same ▸ .placeholder key
  | @apply operator deps made applied free =>
      have same : made = e := by simpa using given
      obtain ⟨op, loaded, ds, loaded', called⟩ := applyOperator_eq_ok_iff.mp applied
      rw [builds.options, same] at called
      exact .call (builds.exprsAt (loadExprs_size_eq_ok_iff.mp loaded')) called
  | @outputExpr index marked loaded =>
      have same : marked = e := by simpa using given
      exact same ▸ builds.exprAt (loadExpr_size_eq_ok_iff.mp loaded)
  | value loaded loaded' decoded free => simp at given
  | codec vacant found => simp at given
  | outputValue loaded => simp at given

theorem grow (settles : decoder.Settles decoder.size step effect) :
    (decoder.grow effect).Builds where
  options := (options_grow effect).trans builds.options
  exprs position e held := by
    by_cases here : position = decoder.size
    · rw [here, slot_grow_last] at held
      cases effect with
      | expr stored => exact builds.settles settles e (.inl (congrArg _ (Option.some.inj held)))
      | _ => cases held
    · rw [slot_grow_of_ne here] at held
      exact builds.exprs position e held
  outputs e listed := by
    cases effect with
    | outputExpr marked =>
        cases List.mem_append.mp listed with
        | inl earlier => exact builds.outputs e earlier
        | inr last =>
            exact builds.settles settles e (.inr (congrArg _ (List.mem_singleton.mp last).symm))
    | _ => exact builds.outputs e listed

theorem yields {outputValues outputExprs : List Number} {decoded : Decoded}
    (yields : decoder.Yields decoder.marked outputValues outputExprs decoded) :
    ∀ e ∈ decoded.exprs, e.Built := by
  obtain ⟨vs, es, -, exprs, same⟩ := yields
  intro e given
  rw [same] at given
  cases List.mem_append.mp given with
  | inl marked => exact builds.outputs e marked
  | inr listed => exact builds.exprsAt exprs e listed

end Builds

theorem Run.builds (run : Run decoder steps after) (builds : decoder.Builds) : after.Builds := by
  induction run with
  | done decoder => exact builds
  | next settles rest ih => exact ih (builds.grow settles)

end Decoder

theorem Container.built_of_decode [Extension] {lookup : CodecLookup} {container : Container}
    {decoded : Decoded} (decodes : container.decode lookup .default = .ok decoded) :
    ∀ e ∈ decoded.exprs, e.Built := by
  obtain ⟨-, after, run, yields⟩ := decode_iff_run.mp decodes
  exact (run.builds (Decoder.builds_start lookup)).yields yields

namespace Roots

/-- Whether storing loses nothing of the values in some roots: references are those of the registry,
no zero of 32 bits has a sign, and no text, operator name or doc begins with a byte order mark. -/
structure Lossless (operators : OperatorRegistry) (roots : Roots) : Prop where
  bound : ∀ name target, .operator (.registered name target) ∈ roots.contents →
    operators.find? name = some target
  unsigned : .int32 .minusZero ∉ roots.contents
  unmarked : ∀ v ∈ roots.contents, v.Unmarked

variable {operators : OperatorRegistry} {roots : Roots}

theorem Lossless.native (lossless : roots.Lossless operators) (supports : Supports roots.contents)
    {v : Value} (present : v ∈ roots.contents) : v.Native operators := by
  cases v with
  | int32 n =>
      intro zero
      exact lossless.unsigned (zero ▸ present)
  | operator op =>
      cases op with
      | registered name target => exact lossless.bound name target present
      | _ => exact supports _ present
  | _ => trivial

theorem counted_of_built [Extension] (built : ∀ e ∈ roots.exprs, e.Built) :
    ∀ e ∈ roots.nodes, e.Counted := by
  intro e present
  obtain ⟨root, given, inside⟩ := List.mem_flatMap.mp present
  exact ((built root given).sound e inside).counted

theorem eq_of_bare_eq [Extension] {ds es : List Expr} (built : ∀ d ∈ ds, d.Built)
    (built' : ∀ e ∈ es, e.Built) (same : ds.map Expr.bare = es.map Expr.bare) : ds = es := by
  apply eq_of_map_eq same
  intro d listed e listed' alike
  exact (built d listed).inferred.eq_of_bare_eq (built' e listed').inferred alike

theorem restored_of_lossless [Extension] (faithful : Fingerprint.Faithful roots.hashed)
    (lossless : roots.Lossless operators) (supports : Supports roots.contents)
    (built : ∀ e ∈ roots.exprs, e.Built) {container : Container}
    (accepted : serialize (.standard operators) roots.values roots.exprs = .ok container) :
    ∃ decoded, deserialize (.standard operators) .default container = .ok decoded ∧
      decoded.values = roots.values ∧ decoded.exprs = roots.exprs := by
  have restorable : roots.Restorable operators .default :=
    restorable_of_native faithful (fun _ => lossless.native supports)
      (fun _ => counted_of_built built) lossless.unmarked
  obtain ⟨decoded, decodes, restores, -⟩ :=
    Container.serialize_again (Roots.told faithful) restorable accepted
  have exprs : decoded.exprs = roots.exprs :=
    eq_of_bare_eq (Container.built_of_decode decodes) built restores.exprs
  exact ⟨decoded, decodes, restores.values, exprs⟩

def packing : OperatorRegistry := ⟨[("pack", .makeTuple)], false⟩

def packed : Expr :=
  .apply (.registered "pack" .makeTuple) [.literal (.int32 (.word 1))]
    ⟨some (.tuple [.int32]), some (.tuple [.int32 (.word 1)])⟩

def packings : Roots where
  values := []
  exprs := [.apply .makeTuple [packed, .leaf "x", packed] .unknown,
    .apply (.registered "pack" .makeTuple) [packed]
      ⟨some (.tuple [.tuple [.int32]]), some (.tuple [.tuple [.int32 (.word 1)]])⟩]

theorem contents_packings : ∀ v ∈ packings.contents, v = .int32 (.word 1) ∨
    v = .operator .makeTuple ∨ v = .operator (.registered "pack" .makeTuple) := by
  have contents : packings.contents = [.operator .makeTuple,
      .operator (.registered "pack" .makeTuple), .int32 (.word 1),
      .operator (.registered "pack" .makeTuple), .int32 (.word 1),
      .operator (.registered "pack" .makeTuple),
      .operator (.registered "pack" .makeTuple), .int32 (.word 1)] := rfl
  rw [contents]
  intro v present
  simp only [List.mem_cons, List.not_mem_nil, or_false] at present
  grind

theorem nodes_packings : ∀ e ∈ packings.nodes, e ∈ packings.exprs ∨ e = packed ∨
    e = .literal (.int32 (.word 1)) ∨ e = .leaf "x" := by
  have nodes : packings.nodes =
      packings.exprs.take 1 ++ [packed, .literal (.int32 (.word 1)), .leaf "x", packed,
        .literal (.int32 (.word 1))] ++ packings.exprs.drop 1 ++
        [packed, .literal (.int32 (.word 1))] := rfl
  rw [nodes]
  intro e present
  simp only [List.mem_append, List.mem_cons, List.not_mem_nil, or_false] at present
  rcases present with ((first | inner) | second) | inner
  · exact .inl (List.mem_of_mem_take first)
  · grind
  · exact .inl (List.mem_of_mem_drop second)
  · grind

def packingsDescriptions : List Fingerprint.Description :=
  [⟨"TypedValue", [.text "INT32", .number (Integer32.word 1).toBinary64]⟩,
    Operator.makeTuple.description,
    (Operator.registered "pack" .makeTuple).description,
    ⟨"TypedValue", [.text "EXPR_OPERATOR", .digits "5fab2eb290057fa2e7c207a1f3329155"]⟩,
    ⟨"TypedValue", [.text "EXPR_OPERATOR", .digits "16aed673b717207a63e22389161ea137"]⟩,
    ⟨"LiteralNode", [.digits "06bc184b99d07607003429f6b09e114c"]⟩,
    ⟨"OperatorNode", [.digits "16aed673b717207a63e22389161ea137",
      .digits "20ac980e312cc1b390e059b804d02ab4"]⟩,
    ⟨"LeafNode", [.text "x"]⟩,
    ⟨"OperatorNode", [.digits "5fab2eb290057fa2e7c207a1f3329155",
      .digits "0cbd16573929b88bbe88e18eaa001763", .digits "58e3a2adb49c136fadd522ee5bfaab55",
      .digits "0cbd16573929b88bbe88e18eaa001763"]⟩,
    ⟨"OperatorNode", [.digits "16aed673b717207a63e22389161ea137",
      .digits "0cbd16573929b88bbe88e18eaa001763"]⟩]

theorem packings_fingerprints :
    packingsDescriptions.map Fingerprint.Description.fingerprint =
      [⟨"06bc184b99d07607003429f6b09e114c"⟩, ⟨"5fab2eb290057fa2e7c207a1f3329155"⟩,
        ⟨"16aed673b717207a63e22389161ea137"⟩, ⟨"a3db4cb0acb4e4997e62953c2abd5c39"⟩,
        ⟨"d7e2090e366f23a9eadb4263a28c6c84"⟩, ⟨"20ac980e312cc1b390e059b804d02ab4"⟩,
        ⟨"0cbd16573929b88bbe88e18eaa001763"⟩, ⟨"58e3a2adb49c136fadd522ee5bfaab55"⟩,
        ⟨"7c93eaa316e0147f41dc0a25ce35b30a"⟩, ⟨"113fea050e8e15dc8b3ed3b30112ea76"⟩] := by
  unfold Fingerprint.Description.fingerprint Fingerprint.ofPreimage
  decide +kernel

theorem faithful_packingsDescriptions : Fingerprint.Faithful packingsDescriptions :=
  .of_prints (by decide) packings_fingerprints (by decide)

theorem fingerprints_packings :
    Operator.makeTuple.fingerprint = ⟨"5fab2eb290057fa2e7c207a1f3329155"⟩ ∧
    (Operator.registered "pack" .makeTuple).fingerprint = ⟨"16aed673b717207a63e22389161ea137"⟩ ∧
    (Value.int32 (.word 1)).fingerprint = ⟨"06bc184b99d07607003429f6b09e114c"⟩ ∧
    (Expr.literal (.int32 (.word 1))).fingerprint = ⟨"20ac980e312cc1b390e059b804d02ab4"⟩ ∧
    packed.fingerprint = ⟨"0cbd16573929b88bbe88e18eaa001763"⟩ ∧
    (Expr.leaf "x").fingerprint = ⟨"58e3a2adb49c136fadd522ee5bfaab55"⟩ := by
  have prints := packings_fingerprints
  simp only [packingsDescriptions, List.map_cons, List.map_nil, List.cons.injEq, and_true] at prints
  obtain ⟨number, tuple, reference, -, -, literal, apply, leaf, -⟩ := prints
  have number' : (Value.int32 (.word 1)).fingerprint = ⟨"06bc184b99d07607003429f6b09e114c"⟩ := by
    rw [Value.fingerprint_eq, Value.description, Value.type]
    exact number
  have reference' := (Operator.registered "pack" .makeTuple).fingerprint_eq.trans reference
  have literal' : (Expr.literal (.int32 (.word 1))).fingerprint =
      ⟨"20ac980e312cc1b390e059b804d02ab4"⟩ := by
    rw [Expr.fingerprint_eq, Expr.description, number']
    exact literal
  refine ⟨Operator.makeTuple.fingerprint_eq.trans tuple, reference', number', literal', ?_, ?_⟩
  · rw [Expr.fingerprint_eq, packed, Expr.description, reference', List.map_cons, literal']
    exact apply
  · rw [Expr.fingerprint_eq]
    exact leaf

theorem faithful_packings : Fingerprint.Faithful packings.hashed := by
  obtain ⟨tuple, reference, number, literal, apply, leaf⟩ := fingerprints_packings
  refine faithful_packingsDescriptions.subset fun d hashed => ?_
  rcases List.mem_append.mp hashed with value | node
  · obtain ⟨v, present, described⟩ := List.mem_flatMap.mp value
    rcases contents_packings v present with rfl | rfl | rfl <;>
      simp only [Value.descriptions, Value.operator?, Value.description, Value.covered, Value.type,
        tuple, reference, Option.map_some, Option.map_none, Option.toList_some, Option.toList_none,
        List.mem_cons, List.not_mem_nil, or_false, Fingerprint.Field.ofFingerprint] at described
    · exact described ▸ by simp [packingsDescriptions, ValueType.name]
    · rcases described with rfl | rfl <;> simp [packingsDescriptions, ValueType.name]
    · rcases described with rfl | rfl <;> simp [packingsDescriptions, ValueType.name]
  · obtain ⟨e, present, rfl⟩ := List.mem_map.mp node
    rcases nodes_packings e present with root | rfl | rfl | rfl
    · simp only [packings, List.mem_cons, List.not_mem_nil, or_false] at root
      rcases root with rfl | rfl <;>
        simp [Expr.description, tuple, reference, apply, leaf, packingsDescriptions,
          Fingerprint.Field.ofFingerprint]
    · rw [packed, Expr.description, reference, List.map_cons, literal]
      simp [packingsDescriptions, Fingerprint.Field.ofFingerprint]
    · rw [Expr.description, number]
      simp [packingsDescriptions, Fingerprint.Field.ofFingerprint]
    · simp [Expr.description, packingsDescriptions]

theorem built_packings : ∀ e ∈ packings.exprs, e.Built := by
  have shared : packed.Built := by
    have known : Expr.attributes (.literal (.int32 (.word 1))) =
        ⟨some .int32, some (.int32 (.word 1))⟩ := by
      rw [Expr.attributes, Attributes.ofValue, Value.type]
    have made : Expr.call (.registered "pack" .makeTuple) [.literal (.int32 (.word 1))] =
        .ok packed := by
      refine Expr.call_eq_ok_iff.mpr ⟨rfl, ?_⟩
      rw [if_pos rfl, List.map_singleton, known]
      rfl
    refine .call (fun dep listed => ?_) made
    rw [List.mem_singleton.mp listed]
    exact .literal _
  intro e given
  simp only [packings, List.mem_cons, List.not_mem_nil, or_false] at given
  rcases given with rfl | rfl
  · refine .call (fun dep listed => ?_) (Expr.call_eq_ok_iff.mpr ⟨by decide, rfl⟩)
    simp only [List.mem_cons, List.not_mem_nil, or_false] at listed
    rcases listed with rfl | rfl | rfl
    · exact shared
    · exact .leaf "x"
    · exact shared
  · refine .call (fun dep listed => ?_) (Expr.call_eq_ok_iff.mpr ⟨rfl, rfl⟩)
    rw [List.mem_singleton.mp listed]
    exact shared

theorem supports_packings : Supports packings.contents := by
  intro op present
  rcases contents_packings _ present with same | same | same
  · cases same
  · rw [Value.operator.inj same]
    trivial
  · rw [Value.operator.inj same]
    trivial

theorem unmarked_makeTuple : (Value.operator .makeTuple).Unmarked :=
  (by decide : Text.Unmarked "core.make_tuple" ∧ Text.Unmarked "Returns a tuple of the inputs.")

theorem lossless_packings : packings.Lossless packing where
  bound name target present := by
    rcases contents_packings _ present with same | same | same
    · cases same
    · cases same
    · cases same
      rfl
  unsigned present := by
    rcases contents_packings _ present with same | same | same <;> cases same
  unmarked v present := by
    rcases contents_packings v present with rfl | rfl | rfl
    · trivial
    · exact unmarked_makeTuple
    · exact (by decide : Text.Unmarked "pack")

end Roots

namespace Expr

def nullary : Expr := .apply .makeTuple [] ⟨some (.tuple []), some (.tuple [])⟩

/-- The impostor's application, of which nothing is inferred. -/
def masked : Expr := .apply .impostor [] .unknown

/-- A genuine application and the impostor's under one that needs to know both. -/
def mixed : Expr := .apply .makeTuple [nullary, masked] .unknown

def unmixed : Expr :=
  .apply .makeTuple [nullary, nullary]
    ⟨some (.tuple [.tuple [], .tuple []]), some (.tuple [.tuple [], .tuple []])⟩

theorem fingerprint_masked : masked.fingerprint = nullary.fingerprint :=
  fingerprint_eq_of_plain rfl

theorem fingerprint_mixed : mixed.fingerprint = unmixed.fingerprint :=
  fingerprint_eq_of_plain rfl

theorem renderWith_masked : renderWith masked = renderWith nullary := by
  change remembered masked.fingerprint _ = remembered nullary.fingerprint _
  rw [fingerprint_masked]
  rfl

theorem renderWith_mixed : renderWith mixed = renderWith unmixed := by
  have deps : renderAllWith [nullary, masked] = renderAllWith [nullary, nullary] := by
    simp only [renderAllWith, renderWith_masked]
  change remembered mixed.fingerprint (do return applied _ (← renderAllWith [nullary, masked])) = _
  rw [fingerprint_mixed, deps]
  rfl

theorem postOrder_twins {twin : Expr} (same : twin.fingerprint = nullary.fingerprint)
    {attributes : Attributes} (acyclic : Acyclic (.apply .makeTuple [nullary, twin] attributes)) :
    postOrder (.apply .makeTuple [nullary, twin] attributes) =
      [nullary, .apply .makeTuple [nullary, twin] attributes] := by
  have fresh {e : Expr} : e.fingerprint ∉ prints [] := List.not_mem_nil
  have first : depthFirst nullary [] = [nullary] := by
    rw [depthFirst_eq, if_neg fresh]
    rfl
  have known : twin.fingerprint ∈ prints [nullary] := List.mem_singleton.mpr same
  have second : depthFirst twin [nullary] = [nullary] := by
    rw [depthFirst_eq, if_pos known]
  rw [postOrder_eq acyclic, depthFirst_eq, if_neg fresh, deps, depthFirstAll, depthFirstAll,
    depthFirstAll, first, second]
  rfl

end Expr

namespace Encoding

open ExprWire.Expr (nullary masked mixed unmixed)

theorem find_congr {d e : Expr} (prints : d.fingerprint = e.fingerprint)
    (rendered : Expr.renderWith d = Expr.renderWith e) : find d = find e := by
  rw [find, find, prints, Expr.render, Expr.render, rendered]

theorem find_mixed : find mixed = find unmixed :=
  find_congr Expr.fingerprint_mixed Expr.renderWith_mixed

theorem visit_mixed (encode : ValueEncoder) : visit encode mixed = visit encode unmixed := by
  -- the encoder sees no more of a dependency than its fingerprint and its rendering
  have deps : [nullary, masked].mapM find = [nullary, nullary].mapM find := by
    simp only [List.mapM_cons, find_congr Expr.fingerprint_masked Expr.renderWith_masked]
  have emitted : node encode mixed = node encode unmixed := by
    rw [mixed, unmixed, node, node, deps]
  rw [visit, visit, Expr.fingerprint_mixed, emitted]

theorem expr_mixed (encode : ValueEncoder) (acyclic : mixed.Acyclic) (acyclic' : unmixed.Acyclic) :
    expr encode mixed = expr encode unmixed := by
  have listed : mixed.postOrder = [nullary, mixed] :=
    Expr.postOrder_twins Expr.fingerprint_masked acyclic
  have listed' : unmixed.postOrder = [nullary, unmixed] := Expr.postOrder_twins rfl acyclic'
  have visited : [nullary, mixed].forM (visit encode) = [nullary, unmixed].forM (visit encode) := by
    simp only [List.forM, visit_mixed]
  rw [expr, expr, listed, listed', find_mixed, Expr.fingerprint_mixed, visited]

end Encoding

namespace Roots

open ExprWire.Expr (nullary masked mixed unmixed)

def mixedDescriptions : List Fingerprint.Description :=
  [⟨"TypedValue", [.text "EXPR_OPERATOR", .digits "5fab2eb290057fa2e7c207a1f3329155"]⟩,
    Operator.makeTuple.description,
    ⟨"OperatorNode", [.digits "5fab2eb290057fa2e7c207a1f3329155"]⟩,
    ⟨"OperatorNode", [.digits "5fab2eb290057fa2e7c207a1f3329155",
      .digits "9412076b1b9bf1bac7d9022e0785ab65", .digits "9412076b1b9bf1bac7d9022e0785ab65"]⟩]

theorem mixed_fingerprints : mixedDescriptions.map Fingerprint.Description.fingerprint =
    [⟨"a3db4cb0acb4e4997e62953c2abd5c39"⟩, ⟨"5fab2eb290057fa2e7c207a1f3329155"⟩,
      ⟨"9412076b1b9bf1bac7d9022e0785ab65"⟩, ⟨"7b1e86e404e429e822cb041ef428bd03"⟩] := by
  unfold Fingerprint.Description.fingerprint Fingerprint.ofPreimage
  decide +kernel

theorem faithful_mixedDescriptions : Fingerprint.Faithful mixedDescriptions :=
  .of_prints (by decide) mixed_fingerprints (by decide)

theorem description_nullary {op : Operator} {attributes : Attributes}
    (same : op.description = Operator.makeTuple.description) :
    (Expr.apply op [] attributes).description =
      ⟨"OperatorNode", [.digits "5fab2eb290057fa2e7c207a1f3329155"]⟩ := by
  rw [Expr.description, op.fingerprint_eq, same, ← Operator.fingerprint_eq, makeTuple_fingerprint]
  rfl

theorem fingerprint_nullary {op : Operator} {attributes : Attributes}
    (same : op.description = Operator.makeTuple.description) :
    (Expr.apply op [] attributes).fingerprint = ⟨"9412076b1b9bf1bac7d9022e0785ab65"⟩ := by
  have prints := mixed_fingerprints
  simp only [mixedDescriptions, List.map_cons, List.map_nil, List.cons.injEq, and_true] at prints
  rw [Expr.fingerprint_eq, description_nullary same]
  exact prints.2.2.1

def twins (op : Operator) (known inner : Attributes) : Roots :=
  ⟨[], [.apply .makeTuple [nullary, .apply op [] inner] known]⟩

theorem contents_twins {op : Operator} {known inner : Attributes} :
    (twins op known inner).contents =
      [.operator .makeTuple, .operator .makeTuple, .operator op] := rfl

theorem nodes_twins {op : Operator} {known inner : Attributes} : (twins op known inner).nodes =
    [.apply .makeTuple [nullary, .apply op [] inner] known, nullary, .apply op [] inner] := rfl

theorem faithful_twins {op : Operator} {known inner : Attributes}
    (same : op.description = Operator.makeTuple.description) :
    Fingerprint.Faithful (twins op known inner).hashed := by
  have print : op.fingerprint = ⟨"5fab2eb290057fa2e7c207a1f3329155"⟩ := by
    rw [op.fingerprint_eq, same, ← Operator.fingerprint_eq, makeTuple_fingerprint]
  have outer : (Expr.apply .makeTuple [nullary, .apply op [] inner] known).description =
      ⟨"OperatorNode", [.digits "5fab2eb290057fa2e7c207a1f3329155",
        .digits "9412076b1b9bf1bac7d9022e0785ab65",
        .digits "9412076b1b9bf1bac7d9022e0785ab65"]⟩ := by
    rw [Expr.description, makeTuple_fingerprint, List.map_cons, List.map_singleton, nullary,
      fingerprint_nullary rfl, fingerprint_nullary same]
    rfl
  refine faithful_mixedDescriptions.subset fun d hashed => ?_
  have genuine : nullary.description = _ := description_nullary rfl
  rw [Roots.hashed, contents_twins, nodes_twins, List.map_cons, List.map_cons, List.map_singleton,
    outer, genuine, description_nullary same] at hashed
  simp only [Value.descriptions, Value.operator?, Value.description, Value.covered, Value.type, same,
    print, makeTuple_fingerprint, Fingerprint.Field.ofFingerprint, Option.map_some,
    Option.toList_some, List.flatMap_cons, List.flatMap_nil, List.cons_append, List.nil_append,
    List.append_nil, List.mem_cons, List.not_mem_nil, or_false] at hashed
  simp only [mixedDescriptions, List.mem_cons, List.not_mem_nil, or_false]
  grind [ValueType.name]

theorem built_twins [Extension] {op : Operator} {known inner : Attributes}
    (made : Expr.call op [] = .ok (.apply op [] inner))
    (paired : Expr.call .makeTuple [nullary, .apply op [] inner] =
      .ok (.apply .makeTuple [nullary, .apply op [] inner] known)) :
    ∀ e ∈ (twins op known inner).exprs, e.Built := by
  have none : ∀ dep ∈ ([] : List Expr), dep.Built := fun _ listed => absurd listed List.not_mem_nil
  have first : Expr.call .makeTuple [] = .ok nullary :=
    Expr.call_eq_ok_iff.mpr ⟨by decide, rfl⟩
  intro e given
  rw [List.mem_singleton.mp given]
  refine .call (fun dep listed => ?_) paired
  simp only [List.mem_cons, List.not_mem_nil, or_false] at listed
  rcases listed with rfl | rfl
  · exact .call none first
  · exact .call none made

theorem lossless_twins {op : Operator} {known inner : Attributes} {operators : OperatorRegistry}
    (own : ∀ name target, op ≠ .registered name target)
    (plain : (Value.operator op).Unmarked) : (twins op known inner).Lossless operators where
  bound name target present := by
    rw [contents_twins] at present
    simp only [List.mem_cons, List.not_mem_nil, or_false, Value.operator.injEq, reduceCtorEq,
      false_or] at present
    exact absurd present.symm (own name target)
  unsigned present := by simp [contents_twins] at present
  unmarked v present := by
    rw [contents_twins] at present
    simp only [List.mem_cons, List.not_mem_nil, or_false] at present
    rcases present with rfl | rfl | rfl
    · exact unmarked_makeTuple
    · exact unmarked_makeTuple
    · exact plain

/-- The impostor beside the tuple constructor. -/
def mispaired : Roots := twins .impostor .unknown .unknown

def paired : Roots := twins .makeTuple unmixed.attributes nullary.attributes

theorem faithful_mispaired : Fingerprint.Faithful mispaired.hashed :=
  faithful_twins Operator.description_impostor

theorem faithful_paired : Fingerprint.Faithful paired.hashed := faithful_twins rfl

theorem supports_paired : Supports paired.contents := by
  intro op present
  simp only [paired, contents_twins, List.mem_cons, List.not_mem_nil, or_false, or_self,
    Value.operator.injEq] at present
  rw [present]
  trivial

theorem serialize_mispaired (operators : OperatorRegistry) :
    serialize (.standard operators) mispaired.values mispaired.exprs =
      serialize (.standard operators) paired.values paired.exprs := by
  have here : mixed ∈ mispaired.nodes := List.mem_cons_self
  have there : unmixed ∈ paired.nodes := List.mem_cons_self
  have same := Encoding.expr_mixed (CodecRegistry.standard operators).encoder
    ((told faithful_mispaired).acyclic here) ((told faithful_paired).acyclic there)
  change serialize (.standard operators) [] [mixed] = serialize (.standard operators) [] [unmixed]
  simp only [serialize, Container.encode, Encoding.rootExprs, same]

theorem built_mispaired : ∀ e ∈ mispaired.exprs, e.Built :=
  built_twins (Expr.call_eq_ok_iff.mpr ⟨by decide, rfl⟩) (Expr.call_eq_ok_iff.mpr ⟨by decide, rfl⟩)

theorem built_paired : ∀ e ∈ paired.exprs, e.Built :=
  built_twins (Expr.call_eq_ok_iff.mpr ⟨by decide, rfl⟩) (Expr.call_eq_ok_iff.mpr ⟨by decide, rfl⟩)

end Roots

end ExprWire
