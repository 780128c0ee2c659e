import ExprWire.Proofs.Admission
/-!
What encoding does to the books. Encoding a value or an expression adds to the ledger what is not in
it yet, and fails exactly if it halts at a payload that cannot be made.
-/

namespace ExprWire

open Ledger (Spells Spelled Builds Reached HasValue HasNode)

namespace Encoding

variable {α β : Type} {encoding : Encoding α} {next : α → Encoding β} {before : Encoder}
  {good : α → Encoder → Prop} {bad : Problem → Prop}

/-- What holds of the result and the encoder afterwards, or else of the failure. -/
def Ensures (encoding : Encoding α) (before : Encoder) (good : α → Encoder → Prop)
    (bad : Problem → Prop) : Prop :=
  match encoding.run before with
  | (.ok a, after) => good a after
  | (.error problem, _) => bad problem

theorem ensures_pure {a : α} (held : good a before) : Ensures (pure a) before good bad := held

theorem ensures_bind {good : β → Encoder → Prop}
    (first : Ensures encoding before (fun a middle => Ensures (next a) middle good bad) bad) :
    Ensures (encoding >>= next) before good bad := by
  unfold Ensures at first ⊢
  have opened : (encoding >>= next).run before =
      ExceptT.bindCont next (encoding.run before).1 (encoding.run before).2 := rfl
  rw [opened]
  generalize encoding.run before = ran at first ⊢
  rcases ran with ⟨result, middle⟩
  cases result with
  | ok a => exact first
  | error problem => exact first

theorem ensures_mono {good' : α → Encoder → Prop} {bad' : Problem → Prop}
    (held : Ensures encoding before good bad) (better : ∀ a after, good a after → good' a after)
    (worse : ∀ problem, bad problem → bad' problem) : Ensures encoding before good' bad' := by
  unfold Ensures at held ⊢
  generalize encoding.run before = ran at held ⊢
  rcases ran with ⟨result, after⟩
  cases result with
  | ok a => exact better a after held
  | error problem => exact worse problem held

theorem run_get_bind (next : Encoder → Encoding β) (encoder : Encoder) :
    (get >>= next).run encoder = (next encoder).run encoder := rfl

theorem ensures_get {next : Encoder → Encoding β} {good : β → Encoder → Prop}
    (held : Ensures (next before) before good bad) :
    Ensures (get >>= next) before good bad := held

theorem ensures_outcome {outcome : Outcome α} {next : α → Encoding β} {good : β → Encoder → Prop}
    (success : ∀ a, outcome = .ok a → Ensures (next a) before good bad)
    (failure : ∀ problem, outcome = .error problem → bad problem) :
    Ensures (do next (← outcome)) before good bad := by
  cases outcome with
  | ok a => exact success a rfl
  | error problem => exact failure problem rfl

theorem Ensures.of_run {a : α} {after : Encoder} (held : Ensures encoding before good bad)
    (run : encoding.run before = (.ok a, after)) : good a after := by
  unfold Ensures at held
  rwa [run] at held

theorem Ensures.exists_run (held : Ensures encoding before good bad)
    (never : ∀ problem, ¬bad problem) :
    ∃ a after, encoding.run before = (.ok a, after) ∧ good a after := by
  unfold Ensures at held
  split at held <;> rename_i ran
  · exact ⟨_, _, ran, held⟩
  · exact absurd held (never _)

theorem Ensures.of_failure {problem : Problem} {after : Encoder}
    (held : Ensures encoding before good bad)
    (failed : encoding.run before = (.error problem, after)) :
    bad problem := by
  unfold Ensures at held
  rwa [failed] at held

end Encoding

namespace Encoding

open Encoder (Books)
open Ledger (Growth Supply)

variable {roots : Roots} {encoder : Encoder} {items : Ledger}

theorem ensures_declare (books : Books roots encoder items) (name : String) :
    Ensures (declare name) encoder
      (fun slot after => ∃ more, Books roots after (items ++ more) ∧
        (items ++ more).codecs[slot]? = some name ∧ (more = [] ∨ more = [.codec name]))
      (fun _ => False) := by
  refine ensures_get ?_
  cases found : encoder.codecs.idxOf? name with
  | some slot =>
      rcases List.idxOf?_eq_some_iff.mp found with ⟨inside, same, -⟩
      refine ⟨[], by rwa [List.append_nil], ?_, .inl rfl⟩
      rw [List.append_nil, ← books.codecs, List.getElem?_eq_getElem inside, same]
  | none =>
      rw [books.codecs] at found
      have fresh : name ∉ items.codecs := List.idxOf?_eq_none_iff.mp found
      refine ⟨[.codec name], books.push_codec fresh, ?_, .inr rfl⟩
      rw [Ledger.codecs_append, books.codecs]
      exact List.getElem?_concat_length

theorem value_eq (encode : ValueEncoder) (v : Value) :
    value encode v = valueOnce encode v (fields encode v) := by
  cases v <;> rfl

/-- What encoding a value comes to: it stands somewhere, all of it has come up, and only parts of it
were added. -/
def Stores (roots : Roots) (items : Ledger) (v : Value) (position : Nat) (after : Encoder) : Prop :=
  ∃ more, Books roots after (items ++ more) ∧ (items ++ more).HasValue v position ∧
    Supply v.parts more ∧ Meets items more v.order

def StoresAll (roots : Roots) (items : Ledger) (vs : List Value) (positions : List Nat)
    (after : Encoder) : Prop :=
  ∃ more, Books roots after (items ++ more) ∧ List.Forall₂ (items ++ more).HasValue vs positions ∧
    Supply (vs.flatMap Value.parts) more ∧ Meets items more (vs.flatMap Value.order)

theorem forall₂_append {vs : List Value} {positions : List Nat} {more : Ledger}
    (stored : List.Forall₂ items.HasValue vs positions) :
    List.Forall₂ (items ++ more).HasValue vs positions :=
  stored.imp fun _ _ held => held.append

variable {operators : OperatorRegistry}

def Encodes (roots : Roots) (operators : OperatorRegistry) (v : Value) : Prop :=
  ∀ encoder items, Books roots encoder items →
    Ensures (value (CodecRegistry.standard operators).encoder v) encoder
      (Stores roots items v) (Halts items.valuePrints v.order)

theorem ensures_values {vs : List Value}
    (single : ∀ v ∈ vs, Encodes roots operators v)
    (books : Books roots encoder items) :
    Ensures (values (CodecRegistry.standard operators).encoder vs) encoder
      (StoresAll roots items vs) (Halts items.valuePrints (vs.flatMap Value.order)) := by
  induction vs generalizing encoder items with
  | nil =>
      rw [values]
      exact ensures_pure ⟨[], by rwa [List.append_nil], .nil, .nil, .of_values_eq_nil rfl⟩
  | cons v vs ih =>
      rw [values]
      refine ensures_bind (ensures_mono (single v List.mem_cons_self encoder items books) ?_ ?_)
      · intro position middle ensured
        rcases ensured with ⟨more, books, stored, supply, meets⟩
        refine ensures_bind (ensures_mono
          (ih (fun u present => single u (List.mem_cons_of_mem _ present)) books) ?_ ?_)
        · intro positions after ensured
          rcases ensured with ⟨later, books, others, supply', meets'⟩
          rw [List.append_assoc] at books others
          refine ensures_pure ⟨more ++ later, books, .cons ?_ others, supply.append supply',
            meets.append meets'⟩
          rw [← List.append_assoc]
          exact stored.append
        · exact fun problem halts => meets.halts halts
      · exact fun problem halts => halts_append.mpr (.inl halts)

def Follows (roots : Roots) (items : Ledger) (v : Value)
    (content : Bytes × Option Number × List Nat) (after : Encoder) : Prop :=
  ∃ declared more slot, content.2.1 = some (Number.ofNat slot) ∧
    Books roots after (items ++ (declared ++ more)) ∧
    (declared = [] ∨ declared = [.codec v.codecName]) ∧
    (items ++ (declared ++ more)).codecs[slot]? = some v.codecName ∧
    v.payload = .ok content.1 ∧
    List.Forall₂ (items ++ (declared ++ more)).HasValue v.fields content.2.2 ∧
    Supply (v.fields.flatMap Value.parts) more ∧
    Meets items (declared ++ more) (v.fields.flatMap Value.order)

theorem ensures_fields {v : Value}
    (single : ∀ field ∈ v.fields, Encodes roots operators field)
    (books : Books roots encoder items) :
    Ensures (if v.isTuple then fields (CodecRegistry.standard operators).encoder v else pure [])
      encoder (StoresAll roots items v.fields)
      (Halts items.valuePrints (v.fields.flatMap Value.order)) := by
  cases v with
  | tuple fields => exact ensures_values single books
  | _ => exact ensures_pure ⟨[], by rwa [List.append_nil], .nil, .nil, .of_values_eq_nil rfl⟩

theorem follow_eq (recipe : Recipe) (fields : Encoding (List Nat)) :
    follow recipe fields = declareFor recipe >>= fun slot =>
      (if recipe.fields then fields else pure []) >>= fun inputs => do
        return (← recipe.payload, slot, inputs) := by
  rcases recipe with ⟨codec, nested, payload⟩
  cases nested <;> rfl

theorem ensures_follow {v : Value}
    (single : ∀ field ∈ v.fields, Encodes roots operators field)
    (fresh : v.fingerprint ∉ items.valuePrints ++ Value.prints (v.fields.flatMap Value.order))
    (books : Books roots encoder items) :
    Ensures (follow ⟨some v.codecName, v.isTuple, v.payload⟩
      (fields (CodecRegistry.standard operators).encoder v)) encoder
      (Follows roots items v) (Halts items.valuePrints v.order) := by
  rw [follow_eq]
  refine ensures_bind (ensures_bind (ensures_mono (ensures_declare books v.codecName) ?_ nofun))
  intro slot middle ensured
  rcases ensured with ⟨declared, books, found, origin⟩
  have bare : Meets items declared [] := by
    rcases origin with rfl | rfl <;> exact .of_values_eq_nil rfl
  refine ensures_pure (ensures_bind (ensures_mono (ensures_fields single books) ?_ ?_))
  · intro positions after ensured
    rcases ensured with ⟨more, books, nested, supply, meets⟩
    rw [List.append_assoc] at books nested
    -- the payload is made last, so a halt at the value itself comes behind those at its fields
    refine ensures_outcome (fun payload stored => ?_) (fun problem refused => ?_)
    · refine ensures_pure ⟨declared, more, slot, rfl, books, origin, ?_, stored, nested, supply,
        bare.append meets⟩
      rw [← List.append_assoc, Ledger.codecs_append]
      exact getElem?_append_of_some found
    · exact ⟨v.fields.flatMap Value.order, v, [], v.order_eq, refused, fresh⟩
  · intro problem halts
    rw [Value.order_eq]
    exact halts_append.mpr (.inl (bare.halts halts))

theorem fresh_of_fields (told : roots.Told) {v : Value} (present : v ∈ roots.contents)
    (fresh : v.fingerprint ∉ items.valuePrints) :
    v.fingerprint ∉ items.valuePrints ++ Value.prints (v.fields.flatMap Value.order) := by
  intro taken
  rcases List.mem_append.mp taken with old | new
  · exact fresh old
  · obtain ⟨u, listed, same⟩ := List.mem_map.mp new
    obtain ⟨field, nested, inside⟩ := List.mem_flatMap.mp listed
    exact told.part_ne present nested (Value.mem_order_iff.mp inside) same

theorem meets_of_hasValue (told : roots.Told) (books : Books roots encoder items) {v : Value}
    (present : v ∈ roots.contents) {position : Nat} (stored : items.HasValue v position) :
    Meets items [] v.order :=
  .of_known fun u listed => Ledger.mem_valuePrints.mpr
    (stored.parts told books.spelled books.reached present u (Value.mem_order_iff.mp listed))

theorem ensures_value (told : roots.Told) {v : Value} (present : v ∈ roots.contents)
    (books : Books roots encoder items) :
    Ensures (value (CodecRegistry.standard operators).encoder v) encoder
      (Stores roots items v) (Halts items.valuePrints v.order) := by
  induction v using Value.byFields generalizing encoder items with
  | step v ih =>
      rw [value_eq]
      refine ensures_get ?_
      cases known : encoder.values[v.fingerprint]? with
      | some position =>
          have stored := books.value_known.mp known
          exact ⟨[], by rwa [List.append_nil], by rwa [List.append_nil], .nil,
            meets_of_hasValue told books present stored⟩
      | none =>
          have single : ∀ field ∈ v.fields, Encodes roots operators field :=
            fun field nested _ _ books =>
              ih field nested (Roots.field_mem_contents present nested) books
          have unmet := fresh_of_fields told present (books.value_fresh known)
          refine ensures_outcome (fun recipe chosen => ?_) fun problem failed => by
            cases (Value.standard_encoder operators v).symm.trans failed
          rw [← Except.ok.inj ((Value.standard_encoder operators v).symm.trans chosen)]
          refine ensures_bind (ensures_mono (ensures_follow single unmet books) ?_
            fun _ failed => failed)
          intro ensured after ensured'
          rcases ensured with ⟨payload, slot, inputs⟩
          rcases ensured' with
            ⟨declared, more, place, rfl, books', origin, found, stored, nested, supply, meets⟩
          have fresh : v.fingerprint ∉ (items ++ (declared ++ more)).valuePrints :=
            fun taken => unmet ((meets.prints _).mp taken)
          have spells := Spells.value fresh stored found nested
          refine ⟨declared ++ more ++ [.value v], ?_, ?_, supply.close origin, ?_⟩
          · rw [← List.append_assoc]
            exact books'.push_value present spells
          · rw [← List.append_assoc, books'.size_eq]
            exact Ledger.hasValue_last _ v
          · rw [Value.order_eq]
            exact meets.append (.value stored)

def StoresNode (roots : Roots) (items : Ledger) (met : List Value) (e : Expr) (position : Nat)
    (after : Encoder) : Prop :=
  ∃ more, Books roots after (items ++ more) ∧ (items ++ more).HasNode e position ∧ Growth more ∧
    Meets items more met

/-- What is emitted for a new expression, before its position is kept. -/
def Emits (roots : Roots) (items : Ledger) (e : Expr) (position : Nat) (after : Encoder) : Prop :=
  ∃ middle more step, after = { middle with steps := middle.steps.push step } ∧
    position = middle.steps.size ∧ Books roots middle (items ++ more) ∧
    Builds (items ++ more) e step ∧ Supply e.carried more ∧ Meets items more e.own

theorem ensures_find {e : Expr} (books : Books roots encoder items)
    (stored : ∃ place, items.HasNode e place) :
    Ensures (find e) encoder (fun position after => after = encoder ∧ items.HasNode e position)
      (fun _ => False) := by
  rcases stored with ⟨place, held⟩
  refine ensures_get ?_
  rw [books.node_known.mpr held]
  exact ensures_pure ⟨rfl, held⟩

theorem ensures_finds {deps : List Expr} (books : Books roots encoder items)
    (stored : ∀ dep ∈ deps, ∃ place, items.HasNode dep place) :
    Ensures (deps.mapM find) encoder
      (fun positions after => after = encoder ∧ List.Forall₂ items.HasNode deps positions)
      (fun _ => False) := by
  induction deps with
  | nil => exact ensures_pure ⟨rfl, .nil⟩
  | cons dep deps ih =>
      rw [List.mapM_cons]
      refine ensures_bind (ensures_mono (ensures_find books (stored dep List.mem_cons_self)) ?_ nofun)
      intro position _ ensured
      rcases ensured with ⟨rfl, held⟩
      refine ensures_bind (ensures_mono
        (ih fun other present => stored other (List.mem_cons_of_mem _ present)) ?_ nofun)
      intro positions _ ensured
      rcases ensured with ⟨rfl, others⟩
      exact ensures_pure ⟨rfl, .cons held others⟩

theorem own_eq {e : Expr} {v : Value} (content : e.content? = some v) : e.own = v.order := by
  rw [Expr.own, content, Option.toList_some, List.flatMap_singleton]

theorem carried_eq {e : Expr} {v : Value} (content : e.content? = some v) :
    e.carried = v.parts := by
  rw [Expr.carried, content, Option.toList_some, List.flatMap_singleton]

theorem ensures_node (told : roots.Told) {e : Expr} (present : e ∈ roots.nodes)
    (books : Books roots encoder items)
    (deps : ∀ dep ∈ e.deps, ∃ place, items.HasNode dep place) :
    Ensures (node (CodecRegistry.standard operators).encoder e) encoder (Emits roots items e)
      (Halts items.valuePrints e.own) := by
  cases e with
  | leaf key =>
      exact ⟨encoder, [], .leaf key, rfl, rfl, by rwa [List.append_nil], .leaf key, .nil,
        .of_values_eq_nil rfl⟩
  | placeholder key =>
      exact ⟨encoder, [], .placeholder key, rfl, rfl, by rwa [List.append_nil], .placeholder key,
        .nil, .of_values_eq_nil rfl⟩
  | literal v =>
      have content := Roots.content_mem_contents present (v := v) rfl
      rw [own_eq (v := v) rfl]
      refine ensures_bind (ensures_mono (ensures_value told content books) ?_ fun _ halts => halts)
      intro position middle ensured
      rcases ensured with ⟨more, books, held, supply, meets⟩
      refine ⟨middle, more, _, rfl, rfl, books, .literal held, ?_, ?_⟩
      · rwa [carried_eq (v := v) rfl]
      · rwa [own_eq (v := v) rfl]
  | apply op deps attributes =>
      have content := Roots.content_mem_contents present (v := .operator op) rfl
      rw [own_eq (v := .operator op) rfl]
      refine ensures_bind (ensures_mono (ensures_value told content books) ?_ fun _ halts => halts)
      intro position middle ensured
      rcases ensured with ⟨more, books, held, supply, meets⟩
      refine ensures_bind (ensures_mono (ensures_finds books ?_) ?_ nofun)
      · intro dep direct
        rcases deps dep direct with ⟨place, stored⟩
        exact ⟨place, stored.append⟩
      · intro positions _ ensured
        rcases ensured with ⟨rfl, paired⟩
        refine ⟨_, more, _, rfl, rfl, books, .apply held paired, ?_, ?_⟩
        · rwa [carried_eq (v := .operator op) rfl]
        · rwa [own_eq (v := .operator op) rfl]

theorem meets_own_of_hasNode (told : roots.Told) (books : Books roots encoder items) {e : Expr}
    (present : e ∈ roots.nodes) {position : Nat} (stored : items.HasNode e position) :
    Meets items [] e.own := by
  refine .of_known fun u listed => ?_
  obtain ⟨v, content, part⟩ := Expr.mem_carried.mp (Expr.mem_own_iff.mp listed)
  obtain ⟨place, held⟩ := stored.content told books.spelled books.reached present content
  exact Ledger.mem_valuePrints.mpr (held.parts told books.spelled books.reached
    (Roots.content_mem_contents present content) u part)

theorem ensures_visit (told : roots.Told) {e : Expr} (present : e ∈ roots.nodes)
    (books : Books roots encoder items)
    (deps : ∀ dep ∈ e.deps, ∃ place, items.HasNode dep place) :
    Ensures (visit (CodecRegistry.standard operators).encoder e) encoder
      (fun _ after => ∃ place, StoresNode roots items e.own e place after)
      (Halts items.valuePrints e.own) := by
  refine ensures_get ?_
  rw [Std.TreeMap.contains_eq_isSome_getElem?]
  cases known : encoder.exprs[e.fingerprint]? with
  | some position =>
      have stored := books.node_known.mp known
      exact ⟨position, [], by rwa [List.append_nil], by rwa [List.append_nil], .nil,
        meets_own_of_hasNode told books present stored⟩
  | none =>
      refine ensures_bind (ensures_mono (ensures_node told present books deps) ?_ fun _ held => held)
      intro position after ensured
      rcases ensured with ⟨middle, more, step, rfl, rfl, books', builds, supply, meets⟩
      -- the values before an expression add no expression
      have fresh : e.fingerprint ∉ (items ++ more).nodePrints := by
        intro taken
        rcases Ledger.mem_nodePrints.mp taken with ⟨position, d, at_position, same⟩
        rcases List.mem_append.mp (List.mem_of_getElem? at_position) with old | new
        · exact books.node_fresh known (by
            rw [← same, Ledger.nodePrints]
            exact List.mem_map_of_mem (Ledger.mem_nodes.mpr old))
        · exact supply.flat d new
      refine ⟨(items ++ more).length, more ++ [.node e], ?_, ?_,
        supply.toGrowth.append (.node e), ?_⟩
      · rw [← List.append_assoc]
        exact books'.push_node present (.node fresh builds)
      · rw [← List.append_assoc]
        exact Ledger.hasNode_last _ e
      · rw [← List.append_nil e.own]
        exact meets.append (.of_values_eq_nil rfl)

theorem ensures_visits (told : roots.Told) {es : List Expr} (ordered : Expr.Ordered es)
    (present : ∀ e ∈ es, e ∈ roots.nodes) (books : Books roots encoder items) :
    Ensures (es.forM (visit (CodecRegistry.standard operators).encoder)) encoder
      (fun _ after => ∃ more, Books roots after (items ++ more) ∧
        (∀ e ∈ es, ∃ place, (items ++ more).HasNode e place) ∧ Growth more ∧
        Meets items more (es.flatMap Expr.own))
      (Halts items.valuePrints (es.flatMap Expr.own)) := by
  induction ordered with
  | nil =>
      exact ensures_pure ⟨[], by rwa [List.append_nil], fun _ listed =>
        absurd listed List.not_mem_nil, .nil, .of_values_eq_nil rfl⟩
  | @snoc es e _ deps _ ih =>
      -- the dependencies stand among the expressions before, so they are found
      rw [List.forM_eq_forM, List.forM_append, List.flatMap_append, List.flatMap_singleton]
      refine ensures_bind (ensures_mono
        (ih fun d listed => present d (List.mem_append_left _ listed)) ?_
        fun _ halts => halts_append.mpr (.inl halts))
      intro _ middle ensured
      rcases ensured with ⟨more, books, stored, growth, meets⟩
      have direct : ∀ dep ∈ e.deps, ∃ place, (items ++ more).HasNode dep place := by
        intro dep listed
        rcases List.mem_map.mp (deps dep listed) with ⟨d, earlier, same⟩
        rcases stored d earlier with ⟨place, found⟩
        rcases found with ⟨w, at_place, print⟩
        exact ⟨place, w, at_place, print.trans same⟩
      have last : e ∈ roots.nodes := present e (List.mem_append_right _ List.mem_cons_self)
      refine ensures_bind (ensures_mono (ensures_visit told last books direct) ?_
        fun _ halts => meets.halts halts)
      intro _ after ensured
      rcases ensured with ⟨place, later, books, held, growth', meets'⟩
      rw [List.append_assoc] at books held
      refine ensures_pure ⟨more ++ later, books, ?_, growth.append growth', meets.append meets'⟩
      intro d listed
      rcases List.mem_append.mp listed with earlier | here
      · rcases stored d earlier with ⟨place, found⟩
        exact ⟨place, by rw [← List.append_assoc]; exact found.append⟩
      · rw [List.mem_singleton.mp here]
        exact ⟨place, held⟩

theorem meets_of_hasNode (told : roots.Told) (books : Books roots encoder items) {e : Expr}
    (present : e ∈ roots.nodes) {position : Nat} (stored : items.HasNode e position) :
    Meets items [] e.order := by
  refine .of_known fun u listed => ?_
  obtain ⟨part, inside, carried⟩ := List.mem_flatMap.mp (Expr.mem_order_iff.mp listed)
  obtain ⟨place, held⟩ := stored.parts told books.spelled books.reached present part inside
  have own := (meets_own_of_hasNode told books (Roots.node_of_mem_parts present inside) held).prints
    u.fingerprint
  rw [List.append_nil] at own
  exact own.mpr (List.mem_append_right _ (List.mem_map_of_mem (Expr.mem_own_iff.mpr carried)))

theorem ensures_expr (told : roots.Told) {e : Expr} (present : ∀ part ∈ e.parts, part ∈ roots.nodes)
    (books : Books roots encoder items) :
    Ensures (expr (CodecRegistry.standard operators).encoder e) encoder
      (StoresNode roots items e.order e) (Halts items.valuePrints e.order) := by
  refine ensures_get ?_
  cases known : encoder.exprs[e.fingerprint]? with
  | some position =>
      have stored := books.node_known.mp known
      exact ⟨[], by rwa [List.append_nil], by rwa [List.append_nil], .nil,
        meets_of_hasNode told books (present e e.self_mem_parts) stored⟩
  | none =>
      have order := Expr.appended_postOrder (told.acyclic (present e e.self_mem_parts))
      have alike := alike_postOrder told present
      rcases order.extends_listed with ⟨listed, grown, parts⟩
      have inner : ∀ d ∈ e.postOrder, d ∈ e.parts := by
        intro d inside
        rw [grown, List.nil_append] at inside
        rcases parts d inside with ⟨root, single, within⟩
        rwa [List.mem_singleton.mp single] at within
      refine ensures_bind (ensures_mono (ensures_visits told order.ordered
        (fun d inside => present d (inner d inside)) books) ?_
        fun problem halts => (alike.halts _ problem).mp halts)
      intro _ middle ensured
      rcases ensured with ⟨more, books, stored, growth, meets⟩
      rcases List.mem_map.mp (order.lists e (List.mem_singleton_self _)) with ⟨d, found, same⟩
      rcases stored d found with ⟨place, w, at_place, print⟩
      refine ensures_mono (ensures_find books ⟨place, w, at_place, print.trans same⟩) ?_ nofun
      intro position _ ensured
      rcases ensured with ⟨rfl, held⟩
      exact ⟨more, books, held, growth, meets.congr alike⟩

def Refused (roots : Roots) : Prop := ∃ u ∈ roots.contents, ∃ problem, u.payload = .error problem

/-- That all of some values can be stored. -/
def Storable (given : List Value) : Prop := ∀ u ∈ given, u.Supported ∧ u.Fits

theorem Storable.payload_ne {given : List Value} (storable : Storable given) {u : Value}
    (listed : u ∈ given) (problem : Problem) : u.payload ≠ .error problem := by
  rcases storable u listed with ⟨supported, fits⟩
  rcases Value.payload_eq supported fits with ⟨content, stored⟩
  rw [stored]
  exact nofun

theorem Storable.passes {given vs : List Value} (storable : Storable given)
    (included : ∀ u ∈ vs, u ∈ given) (known : List Fingerprint) : Passes known vs := by
  intro problem halts
  obtain ⟨u, listed, refused⟩ := halts.exists_refused
  exact storable.payload_ne (included u listed) problem refused

theorem ensures_noting {α : Type} {encoding : Encoding α} {good : α → Encoder → Prop}
    {bad : Problem → Prop} {note : Note} (held : Ensures encoding encoder good bad) :
    Ensures (noting note encoding) encoder good
      (fun problem => ∃ cause, problem = .fault (cause.withNote note) ∧ bad cause) := by
  have opened : (noting note encoding).run encoder =
      (annotate note (encoding.run encoder).1, (encoding.run encoder).2) := rfl
  unfold Ensures at held ⊢
  rw [opened]
  generalize encoding.run encoder = ran at held ⊢
  rcases ran with ⟨result, after⟩
  cases result with
  | ok a => exact held
  | error problem => exact ⟨problem, rfl, held⟩

section

variable {α : Type} {loop : Nat → List α → Encoding (List Nat)} {single : α → Encoding Nat}
  {note : Nat → Note}

structure Loops (loop : Nat → List α → Encoding (List Nat)) (single : α → Encoding Nat)
    (note : Nat → Note) : Prop where
  nil (index : Nat) : loop index [] = pure []
  cons (index : Nat) (a : α) (as : List α) : loop index (a :: as) = do
    let position ← noting (note index) (single a)
    let positions ← loop (index + 1) as
    return position :: positions

theorem loops_values (encode : ValueEncoder) :
    Loops (rootValues encode) (value encode) .encodingValue :=
  ⟨fun _ => rfl, fun _ _ _ => rfl⟩

theorem loops_exprs (encode : ValueEncoder) :
    Loops (rootExprs encode) (expr encode) .encodingExpr :=
  ⟨fun _ => rfl, fun _ _ _ => rfl⟩

/-- How a loop fails: at a root where it halts, behind roots where it does not. -/
def Stops (known : List Fingerprint) (order : α → List Value) (note : Nat → Note) (index : Nat)
    (as : List α) (problem : Problem) : Prop :=
  ∃ before a behind, as = before ++ a :: behind ∧ Passes known (before.flatMap order) ∧
    ∃ cause, problem = .fault (cause.withNote (note (index + before.length))) ∧
      Halts (known ++ Value.prints (before.flatMap order)) (order a) cause

theorem Stops.congr {known known' : List Fingerprint} {order : α → List Value} {index : Nat}
    {as : List α} {problem : Problem} (stops : Stops known order note index as problem)
    (same : ∀ print, print ∈ known' ↔ print ∈ known) : Stops known' order note index as problem := by
  obtain ⟨before, a, behind, split, passes, cause, noted, halts⟩ := stops
  refine ⟨before, a, behind, split, fun problem halts => ?_, cause, noted, ?_⟩
  · exact passes problem (halts.congr fun print => (same print).symm)
  · refine halts.congr fun print => ?_
    rw [List.mem_append, same, ← List.mem_append]

theorem Loops.ensures (loops : Loops loop single note) (has : Ledger → α → Nat → Prop)
    (order : α → List Value) {as : List α}
    (keeps : ∀ {items more : Ledger} {a position}, has items a position →
      has (items ++ more) a position)
    (each : ∀ a ∈ as, ∀ encoder items, Books roots encoder items →
      Ensures (single a) encoder (fun position after => ∃ more, Books roots after (items ++ more) ∧
        has (items ++ more) a position ∧ Growth more ∧ Meets items more (order a))
        (Halts items.valuePrints (order a)))
    (index : Nat) (books : Books roots encoder items) :
    Ensures (loop index as) encoder
      (fun positions after => ∃ more, Books roots after (items ++ more) ∧
        List.Forall₂ (has (items ++ more)) as positions ∧ Growth more ∧
        Meets items more (as.flatMap order))
      (Stops items.valuePrints order note index as) := by
  induction as generalizing index encoder items with
  | nil =>
      rw [loops.nil]
      exact ensures_pure ⟨[], by rwa [List.append_nil], .nil, .nil, .of_values_eq_nil rfl⟩
  | cons a as ih =>
      rw [loops.cons]
      have first := each a List.mem_cons_self encoder items books
      refine ensures_bind (ensures_mono (ensures_noting first) ?_ ?_)
      · intro position middle ensured
        rcases ensured with ⟨more, books', stored, growth, meets⟩
        have others := ih (fun b listed => each b (List.mem_cons_of_mem _ listed)) (index + 1) books'
        refine ensures_bind (ensures_mono others ?_ ?_)
        · intro positions after ensured
          rcases ensured with ⟨later, books'', stored', growth', meets'⟩
          rw [List.append_assoc] at books'' stored'
          refine ensures_pure ⟨more ++ later, books'', .cons ?_ stored', growth.append growth',
            meets.append meets'⟩
          rw [← List.append_assoc]
          exact keeps stored
        · -- a later root is counted from the first one, and halts behind this one too
          intro problem stopped
          rcases stopped with ⟨before, b, behind, rfl, passes, cause, same, halts⟩
          refine ⟨a :: before, b, behind, rfl, ?_, cause, ?_, ?_⟩
          · exact meets.passes_append passes
          · rw [same, List.length_cons, Nat.add_right_comm, Nat.add_assoc]
          · rw [List.flatMap_cons, Value.prints_append, ← List.append_assoc]
            refine halts.congr fun print => ?_
            rw [List.mem_append, ← meets.prints, ← List.mem_append]
      · intro problem failed
        rcases failed with ⟨cause, same, halts⟩
        refine ⟨[], a, as, rfl, fun _ => not_halts_nil, cause, same, ?_⟩
        rwa [List.flatMap_nil, Value.prints_nil, List.append_nil]

end

theorem ensures_rootValues (told : roots.Told) (books : Books roots encoder items) :
    Ensures (rootValues (CodecRegistry.standard operators).encoder 0 roots.values) encoder
      (fun positions after => ∃ more, Books roots after (items ++ more) ∧
        List.Forall₂ (items ++ more).HasValue roots.values positions ∧ Growth more ∧
        Meets items more (roots.values.flatMap Value.order))
      (Stops items.valuePrints Value.order .encodingValue 0 roots.values) := by
  refine (loops_values _).ensures HasValue Value.order (fun held => held.append) ?_ 0 books
  intro v given encoder items books
  have present := Roots.parts_subset_contents given v v.self_mem_parts
  refine ensures_mono (ensures_value told present books) ?_ fun _ halts => halts
  intro position after ensured
  rcases ensured with ⟨more, books, stored, supply, meets⟩
  exact ⟨more, books, stored, supply.toGrowth, meets⟩

theorem ensures_rootExprs (told : roots.Told) (books : Books roots encoder items) :
    Ensures (rootExprs (CodecRegistry.standard operators).encoder 0 roots.exprs) encoder
      (fun positions after => ∃ more, Books roots after (items ++ more) ∧
        List.Forall₂ (items ++ more).HasNode roots.exprs positions ∧ Growth more ∧
        Meets items more (roots.exprs.flatMap Expr.order))
      (Stops items.valuePrints Expr.order .encodingExpr 0 roots.exprs) :=
  (loops_exprs _).ensures HasNode _ (fun held => held.append)
    (fun _ given _ _ books => ensures_expr told (Roots.parts_subset_nodes given) books) 0 books

/-- How encoding some roots fails: at a value, or at an expression behind all the values. -/
def Stopped (roots : Roots) (problem : Problem) : Prop :=
  Stops [] Value.order .encodingValue 0 roots.values problem ∨
    Passes [] (roots.values.flatMap Value.order) ∧
      Stops (Value.prints (roots.values.flatMap Value.order)) Expr.order .encodingExpr 0 roots.exprs
        problem

theorem Stops.exists_refused {α : Type} {known : List Fingerprint} {order : α → List Value}
    {note : Nat → Note} {index : Nat} {as : List α} {problem : Problem}
    (stops : Stops known order note index as problem) :
    ∃ a ∈ as, ∃ u ∈ order a, ∃ cause, u.payload = .error cause := by
  obtain ⟨before, a, behind, rfl, -, cause, -, halts⟩ := stops
  obtain ⟨u, listed, refused⟩ := halts.exists_refused
  exact ⟨a, List.mem_append_right _ List.mem_cons_self, u, listed, cause, refused⟩

theorem Stopped.refused {problem : Problem} (stopped : Stopped roots problem) : Refused roots := by
  rcases stopped with stops | ⟨-, stops⟩
  · obtain ⟨v, given, u, listed, refused⟩ := stops.exists_refused
    exact ⟨u, Roots.parts_subset_contents given u (Value.mem_order_iff.mp listed), refused⟩
  · obtain ⟨e, given, u, listed, refused⟩ := stops.exists_refused
    exact ⟨u, Roots.expr_contents_subset (Roots.parts_subset_nodes given) u
      (Expr.mem_order_iff.mp listed), refused⟩

end Encoding

/-- What a container of some roots is: steps that a ledger of just these roots is spelled by, and
the positions of the roots. -/
structure Container.Holds (roots : Roots) (container : Container) (items : Ledger) : Prop where
  version : container.version = some currentVersion
  spelled : Spelled items container.steps
  reached : Reached roots items
  growth : items.Growth
  values : ∃ positions, container.outputValues = positions.map Number.ofNat ∧
    List.Forall₂ items.HasValue roots.values positions
  exprs : ∃ positions, container.outputExprs = positions.map Number.ofNat ∧
    List.Forall₂ items.HasNode roots.exprs positions

theorem Container.encode_stops (operators : OperatorRegistry) {roots : Roots} (told : roots.Told) :
    match encode (CodecRegistry.standard operators).encoder roots.values roots.exprs with
    | .ok container => (∃ items, container.Holds roots items) ∧ Encoding.Passes [] roots.order
    | .error problem => Encoding.Stopped roots problem := by
  have ensured : Encoding.Ensures (do
      let outputValues ← Encoding.rootValues (CodecRegistry.standard operators).encoder 0 roots.values
      let outputExprs ← Encoding.rootExprs (CodecRegistry.standard operators).encoder 0 roots.exprs
      return (outputValues, outputExprs)) .empty
      (fun positions after => ∃ items, Encoder.Books roots after items ∧ items.Growth ∧
        List.Forall₂ items.HasValue roots.values positions.1 ∧
        List.Forall₂ items.HasNode roots.exprs positions.2 ∧ Encoding.Passes [] roots.order)
      (Encoding.Stopped roots) := by
    refine Encoding.ensures_bind (Encoding.ensures_mono
      (Encoding.ensures_rootValues told (.start roots)) ?_ fun _ stopped => .inl stopped)
    intro positions middle ensured
    rcases ensured with ⟨more, books, stored, growth, meets⟩
    refine Encoding.ensures_bind (Encoding.ensures_mono (Encoding.ensures_rootExprs told books) ?_
      fun _ stopped => .inr ⟨meets.passes, ?_⟩)
    · intro positions' after ensured
      rcases ensured with ⟨later, books, stored', growth', meets'⟩
      exact Encoding.ensures_pure ⟨_, books, growth.append growth',
        Encoding.forall₂_append stored, stored', (meets.append meets').passes⟩
    · exact stopped.congr fun print => (meets.prints print).symm
  unfold Encoding.Ensures at ensured
  unfold encode
  split at ensured <;> rename_i ran <;> simp only [ran]
  · rcases ensured with ⟨items, books, growth, values, exprs, passes⟩
    exact ⟨⟨items, rfl, books.spelled, books.reached, growth, ⟨_, rfl, values⟩, ⟨_, rfl, exprs⟩⟩,
      passes⟩
  · exact ensured

theorem Container.encode_holds (operators : OperatorRegistry) {roots : Roots} (told : roots.Told) :
    match encode (CodecRegistry.standard operators).encoder roots.values roots.exprs with
    | .ok container => ∃ items, container.Holds roots items
    | .error _ => Encoding.Refused roots := by
  have held := encode_stops operators told
  generalize encode _ roots.values roots.exprs = outcome at held ⊢
  cases outcome with
  | ok container => exact held.1
  | error problem => exact held.refused

end ExprWire
