import Mathlib.Data.Finset.Card
import ExprWire.Proofs.Emission
/-!
Exact deduplication. A container has one step for each fingerprint among the values its roots reach,
one for each among their expressions, one for each codec in use, and no other; so its length is
determined by the set of roots. What has been encoded is found again and adds nothing.
-/

namespace ExprWire

open Fingerprint (Faithful)
open Ledger (Spells Spelled Reached)
open Step (PointsTo)

namespace Roots

variable {roots others : Roots}

def valuePrints (roots : Roots) : List Fingerprint := roots.contents.map Value.fingerprint

def nodePrints (roots : Roots) : List Fingerprint := roots.nodes.map Expr.fingerprint

def codecNames (roots : Roots) : List String := roots.contents.map Value.codecName

def stepCount (roots : Roots) : Nat :=
  roots.valuePrints.toFinset.card + roots.nodePrints.toFinset.card + roots.codecNames.toFinset.card

def plain (roots : Roots) : Roots := ⟨roots.values.map Value.plain, roots.exprs.map Expr.plain⟩

theorem nodes_plain (roots : Roots) : roots.plain.nodes = roots.nodes.map Expr.plain := by
  have parts : (fun e : Expr => e.plain.parts) = fun e => e.parts.map Expr.plain :=
    funext Expr.parts_plain
  rw [nodes, nodes, plain, List.flatMap_map, List.map_flatMap, parts]

theorem contents_plain (roots : Roots) : roots.plain.contents = roots.contents.map Value.plain := by
  have parts : (fun v : Value => v.plain.parts) = fun v => v.parts.map Value.plain :=
    funext Value.parts_plain
  have carried : (fun e : Expr => e.plain.content?) = fun e => e.content?.map Value.plain :=
    funext Expr.content?_plain
  have listed : roots.plain.values ++ roots.plain.nodes.filterMap Expr.content? =
      (roots.values ++ roots.nodes.filterMap Expr.content?).map Value.plain := by
    rw [nodes_plain, List.filterMap_map, List.map_append, List.map_filterMap]
    exact congrArg (fun content => _ ++ roots.nodes.filterMap content) carried
  rw [contents, listed, contents, List.flatMap_map, List.map_flatMap, parts]

theorem valuePrints_plain (roots : Roots) : roots.plain.valuePrints = roots.valuePrints := by
  rw [valuePrints, contents_plain, List.map_map]
  exact List.map_congr_left fun v _ => v.fingerprint_plain

theorem nodePrints_plain (roots : Roots) : roots.plain.nodePrints = roots.nodePrints := by
  rw [nodePrints, nodes_plain, List.map_map]
  exact List.map_congr_left fun e _ => e.fingerprint_plain

theorem codecNames_plain (roots : Roots) : roots.plain.codecNames = roots.codecNames := by
  rw [codecNames, contents_plain, List.map_map]
  exact List.map_congr_left fun v _ => v.codecName_plain

/-- That the same fingerprints occur among the roots, whatever their order and repetition. -/
structure Alike (roots others : Roots) : Prop where
  values : ∀ print, print ∈ roots.values.map Value.fingerprint ↔
    print ∈ others.values.map Value.fingerprint
  exprs : ∀ print, print ∈ roots.exprs.map Expr.fingerprint ↔
    print ∈ others.exprs.map Expr.fingerprint

theorem Alike.symm (alike : roots.Alike others) : others.Alike roots :=
  ⟨fun print => (alike.values print).symm, fun print => (alike.exprs print).symm⟩

def both (roots others : Roots) : Roots :=
  ⟨roots.values ++ others.values, roots.exprs ++ others.exprs⟩

theorem Alike.plain_values (alike : roots.Alike others) {joint : Roots} (told : joint.Told)
    (left : ∀ v ∈ roots.values, v ∈ joint.values) (right : ∀ v ∈ others.values, v ∈ joint.values) :
    ∀ v ∈ roots.plain.values, v ∈ others.plain.values := by
  intro v present
  rcases List.mem_map.mp present with ⟨u, given, rfl⟩
  obtain ⟨w, given', same⟩ := List.mem_map.mp
    ((alike.values u.fingerprint).mp (List.mem_map_of_mem given))
  refine List.mem_map.mpr ⟨w, given', ?_⟩
  exact told.values w (parts_subset_contents (right w given') w w.self_mem_parts) u
    (parts_subset_contents (left u given) u u.self_mem_parts) same

theorem Alike.plain_exprs (alike : roots.Alike others) {joint : Roots} (told : joint.Told)
    (left : ∀ e ∈ roots.exprs, e ∈ joint.exprs) (right : ∀ e ∈ others.exprs, e ∈ joint.exprs) :
    ∀ e ∈ roots.plain.exprs, e ∈ others.plain.exprs := by
  intro e present
  rcases List.mem_map.mp present with ⟨d, given, rfl⟩
  obtain ⟨f, given', same⟩ := List.mem_map.mp
    ((alike.exprs d.fingerprint).mp (List.mem_map_of_mem given))
  refine List.mem_map.mpr ⟨f, given', ?_⟩
  exact told.nodes f (parts_subset_nodes (right f given') f f.self_mem_parts) d
    (parts_subset_nodes (left d given) d d.self_mem_parts) same

theorem Alike.subset (alike : roots.Alike others) {joint : Roots} (told : joint.Told)
    (left : (∀ v ∈ roots.values, v ∈ joint.values) ∧ ∀ e ∈ roots.exprs, e ∈ joint.exprs)
    (right : (∀ v ∈ others.values, v ∈ joint.values) ∧ ∀ e ∈ others.exprs, e ∈ joint.exprs) :
    roots.valuePrints ⊆ others.valuePrints ∧ roots.nodePrints ⊆ others.nodePrints ∧
      roots.codecNames ⊆ others.codecNames := by
  have values := alike.plain_values told left.1 right.1
  have exprs := alike.plain_exprs told left.2 right.2
  have contents := contents_subset values exprs
  have nodes : ∀ e ∈ roots.plain.nodes, e ∈ others.plain.nodes := nodes_subset exprs
  rw [← valuePrints_plain roots, ← valuePrints_plain others, ← nodePrints_plain roots,
    ← nodePrints_plain others, ← codecNames_plain roots, ← codecNames_plain others]
  exact ⟨List.map_subset _ contents, List.map_subset _ nodes, List.map_subset _ contents⟩

end Roots

namespace Ledger

variable {roots : Roots} {items : Ledger} {steps : List Step}

theorem Spelled.countP_eq {α : Type} {kind : Step → Bool} {part : Item → Option α}
    (each : ∀ {items item step}, Spells items item step → kind step = (part item).isSome)
    (spelled : Spelled items steps) : steps.countP kind = (items.filterMap part).length := by
  induction spelled with
  | nil => rfl
  | @snoc items steps item step _ spells ih =>
      have last : [step].countP kind = ([item].filterMap part).length := by
        rw [List.countP_singleton, each spells, List.filterMap_cons, List.filterMap_nil]
        cases part item <;> rfl
      rw [List.countP_append, ih, List.filterMap_append, List.length_append, last]

theorem Spelled.count_values (spelled : Spelled items steps) :
    steps.countP Step.isValue = items.valuePrints.length := by
  rw [valuePrints, List.length_map]
  refine spelled.countP_eq fun spells => ?_
  cases spells with
  | node _ builds => cases builds <;> rfl
  | _ => rfl

theorem Spelled.count_exprs (spelled : Spelled items steps) :
    steps.countP Step.isExpr = items.nodePrints.length := by
  rw [nodePrints, List.length_map]
  refine spelled.countP_eq fun spells => ?_
  cases spells with
  | node _ builds => cases builds <;> rfl
  | _ => rfl

theorem Spelled.length_of_unmarked (spelled : Spelled items steps) (unmarked : .marker ∉ items) :
    steps.length = steps.countP Step.isValue + steps.countP Step.isExpr +
      (steps.filterMap Step.codecName?).length := by
  induction spelled with
  | nil => rfl
  | @snoc items steps item step _ spells ih =>
      have earlier := ih fun present => unmarked (List.mem_append_left _ present)
      have last : ([step] : List Step).length = [step].countP Step.isValue +
          [step].countP Step.isExpr + ([step].filterMap Step.codecName?).length := by
        cases spells with
        | node _ builds => cases builds <;> rfl
        | outputValue => exact absurd (List.mem_append_right _ List.mem_cons_self) unmarked
        | outputExpr => exact absurd (List.mem_append_right _ List.mem_cons_self) unmarked
        | _ => rfl
      rw [List.length_append, List.countP_append, List.countP_append, List.filterMap_append,
        List.length_append]
      omega

theorem getElem?_take_of_lt {α : Type} {xs : List α} {index count : Nat} {a : α}
    (found : xs[index]? = some a) (inside : index < count) : (xs.take count)[index]? = some a := by
  rw [List.getElem?_take_of_lt inside, found]

theorem position_unique {stored : Nat → Prop}
    (once : ∀ {first second}, first < second → stored first → ¬stored second)
    {position other : Nat} (here : stored position) (there : stored other) : position = other := by
  rcases Nat.lt_trichotomy position other with before | same | behind
  · exact absurd there (once before here)
  · exact same
  · exact absurd here (once behind there)

theorem Spelled.value_unique (spelled : Spelled items steps) {v : Value} {position other : Nat}
    (stored : items.HasValue v position) (stored' : items.HasValue v other) :
    position = other := by
  refine position_unique (fun before early late => ?_) stored stored'
  rcases early with ⟨x, found', same'⟩
  rcases late with ⟨w, found, same⟩
  rcases spelled.spells_at found with ⟨step, -, spells⟩
  cases spells with
  | value fresh =>
      exact fresh (mem_valuePrints.mpr
        ⟨_, x, getElem?_take_of_lt found' before, same'.trans same.symm⟩)

theorem Spelled.node_unique (spelled : Spelled items steps) {e : Expr} {position other : Nat}
    (stored : items.HasNode e position) (stored' : items.HasNode e other) :
    position = other := by
  refine position_unique (fun before early late => ?_) stored stored'
  rcases early with ⟨x, found', same'⟩
  rcases late with ⟨w, found, same⟩
  rcases spelled.spells_at found with ⟨step, -, spells⟩
  cases spells with
  | node fresh =>
      exact fresh (mem_nodePrints.mpr
        ⟨_, x, getElem?_take_of_lt found' before, same'.trans same.symm⟩)

theorem HasValue.declared (told : roots.Told) (spelled : Spelled items steps)
    (reached : Reached roots items) {v : Value} {position : Nat} (present : v ∈ roots.contents)
    (stored : items.HasValue v position) : v.codecName ∈ items.codecs := by
  rcases stored.exists_spells told spelled reached present with ⟨u, step, plains, -, spells⟩
  cases spells with
  | value _ _ declared =>
      have earlier := mem_codecs.mp (List.mem_of_getElem? declared)
      have named : u.codecName = v.codecName := calc
        u.codecName = u.plain.codecName := u.codecName_plain.symm
        _ = v.plain.codecName := congrArg Value.codecName plains
        _ = v.codecName := v.codecName_plain
      rw [← named]
      exact mem_codecs.mpr (List.mem_of_mem_take earlier)

theorem hasNode_of_roots (told : roots.Told) (spelled : Spelled items steps)
    (reached : Reached roots items) (exprs : ∀ e ∈ roots.exprs, ∃ position, items.HasNode e position)
    {e : Expr} (present : e ∈ roots.nodes) : ∃ position, items.HasNode e position := by
  rcases List.mem_flatMap.mp present with ⟨root, given, inside⟩
  rcases exprs root given with ⟨position, stored⟩
  exact stored.parts told spelled reached
    (Roots.parts_subset_nodes given root root.self_mem_parts) e inside

theorem hasValue_of_roots (told : roots.Told) (spelled : Spelled items steps)
    (reached : Reached roots items)
    (values : ∀ v ∈ roots.values, ∃ position, items.HasValue v position)
    (exprs : ∀ e ∈ roots.exprs, ∃ position, items.HasNode e position)
    {v : Value} (present : v ∈ roots.contents) : ∃ position, items.HasValue v position := by
  rcases List.mem_flatMap.mp present with ⟨root, listed, inside⟩
  have stored : ∃ position, items.HasValue root position := by
    rcases List.mem_append.mp listed with given | carried
    · exact values root given
    · rcases List.mem_filterMap.mp carried with ⟨e, node, content⟩
      rcases hasNode_of_roots told spelled reached exprs node with ⟨position, stored⟩
      exact stored.content told spelled reached node content
  rcases stored with ⟨position, stored⟩
  exact stored.parts told spelled reached
    (List.mem_flatMap.mpr ⟨root, listed, root.self_mem_parts⟩) v inside

end Ledger

namespace Container.Holds

variable {roots : Roots} {container : Container} {items : Ledger}

theorem hasNode (told : roots.Told) (holds : container.Holds roots items) {e : Expr}
    (present : e ∈ roots.nodes) : ∃ position, items.HasNode e position := by
  rcases holds.exprs with ⟨positions, -, paired⟩
  exact Ledger.hasNode_of_roots told holds.spelled holds.reached
    (fun _ given => Ledger.exists_of_forall₂ paired given) present

theorem hasValue (told : roots.Told) (holds : container.Holds roots items) {v : Value}
    (present : v ∈ roots.contents) : ∃ position, items.HasValue v position := by
  rcases holds.values with ⟨positions, -, paired⟩
  rcases holds.exprs with ⟨positions', -, paired'⟩
  exact Ledger.hasValue_of_roots told holds.spelled holds.reached
    (fun _ given => Ledger.exists_of_forall₂ paired given)
    (fun _ given => Ledger.exists_of_forall₂ paired' given) present

theorem mem_valuePrints_iff (told : roots.Told) (holds : container.Holds roots items)
    (print : Fingerprint) : print ∈ items.valuePrints ↔ print ∈ roots.valuePrints := by
  constructor
  · intro stored
    rcases List.mem_map.mp stored with ⟨v, listed, rfl⟩
    exact List.mem_map_of_mem (holds.reached.values v (Ledger.mem_values.mp listed))
  · intro reached
    rcases List.mem_map.mp reached with ⟨v, present, rfl⟩
    exact Ledger.mem_valuePrints.mpr (holds.hasValue told present)

theorem mem_nodePrints_iff (told : roots.Told) (holds : container.Holds roots items)
    (print : Fingerprint) : print ∈ items.nodePrints ↔ print ∈ roots.nodePrints := by
  constructor
  · intro stored
    rcases List.mem_map.mp stored with ⟨e, listed, rfl⟩
    exact List.mem_map_of_mem (holds.reached.nodes e (Ledger.mem_nodes.mp listed))
  · intro reached
    rcases List.mem_map.mp reached with ⟨e, present, rfl⟩
    exact Ledger.mem_nodePrints.mpr (holds.hasNode told present)

theorem mem_codecs_iff (told : roots.Told) (holds : container.Holds roots items) (name : String) :
    name ∈ items.codecs ↔ name ∈ roots.codecNames := by
  constructor
  · intro declared
    rcases holds.growth.used name (Ledger.mem_codecs.mp declared) with ⟨u, stored, rfl⟩
    exact List.mem_map_of_mem (holds.reached.values u stored)
  · intro used
    rcases List.mem_map.mp used with ⟨v, present, rfl⟩
    rcases holds.hasValue told present with ⟨position, stored⟩
    exact stored.declared told holds.spelled holds.reached present

end Container.Holds

theorem length_eq_card {α : Type} [DecidableEq α] {stored reached : List α}
    (distinct : stored.Nodup)
    (same : ∀ a, a ∈ stored ↔ a ∈ reached) : stored.length = reached.toFinset.card := by
  rw [← List.toFinset_card_of_nodup distinct]
  refine congrArg Finset.card (Finset.ext fun a => ?_)
  rw [List.mem_toFinset, List.mem_toFinset, same]

/-- That steps store what the roots reach, all of it, each thing once, and do nothing else. -/
structure Deduplicated (roots : Roots) (steps : List Step) : Prop where
  /-- Each value and each expression has one step, among steps that stand for nothing else. -/
  labels : ∃ items, Spelled items steps ∧ Reached roots items ∧
    (∀ v ∈ roots.contents, ∃! position, items.HasValue v position) ∧
    ∀ e ∈ roots.nodes, ∃! position, items.HasNode e position
  values : steps.countP Step.isValue = roots.valuePrints.toFinset.card
  exprs : steps.countP Step.isExpr = roots.nodePrints.toFinset.card
  codecs : (steps.filterMap Step.codecName?).Nodup ∧
    ∀ name, name ∈ steps.filterMap Step.codecName? ↔ name ∈ roots.codecNames
  only : steps.length = roots.stepCount

theorem card_le_of_subset {α : Type} [DecidableEq α] {xs ys : List α} (subset : xs ⊆ ys) :
    xs.toFinset.card ≤ ys.toFinset.card :=
  Finset.card_le_card fun _ present => List.mem_toFinset.mpr (subset (List.mem_toFinset.mp present))

theorem Deduplicated.length_le {roots others : Roots} {steps more : List Step}
    (stored : Deduplicated roots steps) (stored' : Deduplicated others more)
    (subset : roots.valuePrints ⊆ others.valuePrints ∧ roots.nodePrints ⊆ others.nodePrints ∧
      roots.codecNames ⊆ others.codecNames) : steps.length ≤ more.length := by
  rcases subset with ⟨values, exprs, codecs⟩
  calc
    steps.length = roots.stepCount := stored.only
    _ ≤ others.stepCount := Nat.add_le_add
      (Nat.add_le_add (card_le_of_subset values) (card_le_of_subset exprs))
      (card_le_of_subset codecs)
    _ = more.length := stored'.only.symm

theorem Container.Holds.deduplicated {roots : Roots} {container : Container} {items : Ledger}
    (told : roots.Told) (holds : container.Holds roots items) :
    Deduplicated roots container.steps := by
  have spelled := holds.spelled
  have values : container.steps.countP Step.isValue = roots.valuePrints.toFinset.card := by
    rw [spelled.count_values]
    exact length_eq_card spelled.nodup_valuePrints (holds.mem_valuePrints_iff told)
  have exprs : container.steps.countP Step.isExpr = roots.nodePrints.toFinset.card := by
    rw [spelled.count_exprs]
    exact length_eq_card spelled.nodup_nodePrints (holds.mem_nodePrints_iff told)
  have codecs := holds.mem_codecs_iff told
  have distinct := spelled.nodup_codecs
  rw [spelled.codecs_eq] at codecs distinct
  refine ⟨⟨items, spelled, holds.reached, ?_, ?_⟩, values, exprs, ⟨distinct, codecs⟩, ?_⟩
  · intro v present
    rcases holds.hasValue told present with ⟨position, stored⟩
    exact ⟨position, stored, fun other stored' => spelled.value_unique stored' stored⟩
  · intro e present
    rcases holds.hasNode told present with ⟨position, stored⟩
    exact ⟨position, stored, fun other stored' => spelled.node_unique stored' stored⟩
  · rw [spelled.length_of_unmarked holds.growth.unmarked, values, exprs,
      length_eq_card distinct codecs, Roots.stepCount]

/-- That what a session has encoded is found again, with all its parts, and nothing is emitted. -/
structure Settled (encode : ValueEncoder) (trace : Trace) (encoder : Encoder) : Prop where
  value : ∀ v position, (.value v, position) ∈ trace →
    (Encoding.value encode v).run encoder = (.ok position, encoder)
  expr : ∀ e position, (.expr e, position) ∈ trace →
    (Encoding.expr encode e).run encoder = (.ok position, encoder)
  content : ∀ v ∈ trace.roots.contents, ∃ position,
    PointsTo encoder.steps.toList (·.isValue) (.ofNat position) ∧
    (Encoding.value encode v).run encoder = (.ok position, encoder)
  node : ∀ e ∈ trace.roots.nodes, ∃ position,
    PointsTo encoder.steps.toList (·.isExpr) (.ofNat position) ∧
    (Encoding.expr encode e).run encoder = (.ok position, encoder)

theorem Session.settled {operators : OperatorRegistry} {trace : Trace} {encoder : Encoder}
    (session : Session (CodecRegistry.standard operators).encoder trace encoder)
    (told : trace.roots.Told) :
    Settled (CodecRegistry.standard operators).encoder trace encoder := by
  rcases session.exists_account told (Session.covered trace) with ⟨items, account⟩
  have books := account.books
  have values : ∀ v ∈ trace.roots.values, ∃ position, items.HasValue v position := by
    intro v given
    rcases List.mem_filterMap.mp given with ⟨⟨call, position⟩, listed, content⟩
    cases call with
    | value u =>
        rw [← Option.some.inj content]
        exact ⟨position, account.values u position listed⟩
    | _ => exact absurd content nofun
  have exprs : ∀ e ∈ trace.roots.exprs, ∃ position, items.HasNode e position := by
    intro e given
    rcases List.mem_filterMap.mp given with ⟨⟨call, position⟩, listed, content⟩
    cases call with
    | expr d =>
        rw [← Option.some.inj content]
        exact ⟨position, account.exprs d position listed⟩
    | _ => exact absurd content nofun
  refine ⟨fun v position listed => ?_, fun e position listed => ?_, fun v present => ?_,
    fun e present => ?_⟩
  · exact Session.run_value_again _ books (account.values v position listed)
  · exact Session.run_expr_again _ books (account.exprs e position listed)
  · obtain ⟨position, stored⟩ := Ledger.hasValue_of_roots told books.spelled books.reached values
      exprs present
    exact ⟨position, stored.pointsTo books.spelled, Session.run_value_again _ books stored⟩
  · obtain ⟨position, stored⟩ := Ledger.hasNode_of_roots told books.spelled books.reached exprs
      present
    exact ⟨position, stored.pointsTo books.spelled, Session.run_expr_again _ books stored⟩

namespace Container

variable {operators : OperatorRegistry} {roots others : Roots} {container other : Container}

theorem deduplicated_of_encode (told : roots.Told)
    (accepted : encode (CodecRegistry.standard operators).encoder roots.values roots.exprs =
      .ok container) : Deduplicated roots container.steps := by
  have held := encode_holds operators told
  rw [accepted] at held
  rcases held with ⟨items, holds⟩
  exact holds.deduplicated told

theorem exists_encode (operators : OperatorRegistry) (told : roots.Told)
    (storable : Encoding.Storable roots.contents) :
    ∃ container, encode (CodecRegistry.standard operators).encoder roots.values roots.exprs =
      .ok container := by
  have held := encode_holds operators told
  split at held <;> rename_i ran
  · exact ⟨_, ran⟩
  · rcases held with ⟨u, listed, problem, refused⟩
    exact absurd refused (storable.payload_ne listed problem)

theorem length_eq_of_alike (alike : roots.Alike others)
    (faithful : Faithful (roots.both others).hashed) (left : Deduplicated roots container.steps)
    (right : Deduplicated others other.steps) : other.steps.length = container.steps.length := by
  have told := Roots.told faithful
  have here : (∀ v ∈ roots.values, v ∈ (roots.both others).values) ∧
      ∀ e ∈ roots.exprs, e ∈ (roots.both others).exprs :=
    ⟨fun _ => List.mem_append_left _, fun _ => List.mem_append_left _⟩
  have there : (∀ v ∈ others.values, v ∈ (roots.both others).values) ∧
      ∀ e ∈ others.exprs, e ∈ (roots.both others).exprs :=
    ⟨fun _ => List.mem_append_right _, fun _ => List.mem_append_right _⟩
  exact Nat.le_antisymm (right.length_le left (alike.symm.subset told there here))
    (left.length_le right (alike.subset told here there))

/-- Accepted roots are stored without repetition, in as many steps as any alike ones; and whatever
an encoder has encoded is found again. -/
theorem encode_deduplicates (faithful : Faithful roots.hashed)
    (accepted : encode (CodecRegistry.standard operators).encoder roots.values roots.exprs =
      .ok container) :
    Deduplicated roots container.steps ∧
    (∀ others other, roots.Alike others → Faithful (roots.both others).hashed →
      encode (CodecRegistry.standard operators).encoder others.values others.exprs = .ok other →
      other.steps.length = container.steps.length) ∧
    ∀ trace encoder, Session (CodecRegistry.standard operators).encoder trace encoder →
      Faithful trace.roots.hashed →
      Settled (CodecRegistry.standard operators).encoder trace encoder := by
  have stored := deduplicated_of_encode (Roots.told faithful) accepted
  refine ⟨stored, fun others other alike joint accepted' => ?_, fun trace encoder session faithful =>
    session.settled (Roots.told faithful)⟩
  have told : others.Told := Roots.told (joint.subset (Roots.hashed_subset
    (fun _ => List.mem_append_right _) fun _ => List.mem_append_right _))
  exact length_eq_of_alike alike joint stored (deduplicated_of_encode told accepted')

theorem alike_doubled (roots : Roots) : roots.Alike (roots.both roots) where
  values print := by rw [Roots.both, List.map_append, List.mem_append, or_self]
  exprs print := by rw [Roots.both, List.map_append, List.mem_append, or_self]

theorem encode_deduplicates_sharing :
    ∃ container other trace encoder,
      encode (CodecRegistry.standard .empty).encoder Roots.sharing.values Roots.sharing.exprs =
        .ok container ∧
      encode (CodecRegistry.standard .empty).encoder (Roots.sharing.both Roots.sharing).values
        (Roots.sharing.both Roots.sharing).exprs = .ok other ∧
      container.steps.length = 8 ∧ other.steps.length = 8 ∧
      trace.roots = Roots.sharing ∧
      Settled (CodecRegistry.standard .empty).encoder trace encoder := by
  have faithful := Roots.faithful_sharing
  have within : ∀ v ∈ (Roots.sharing.both Roots.sharing).values, v ∈ Roots.sharing.values :=
    fun _ given => (List.mem_append.mp given).elim id id
  have within' : ∀ e ∈ (Roots.sharing.both Roots.sharing).exprs, e ∈ Roots.sharing.exprs :=
    fun _ given => (List.mem_append.mp given).elim id id
  have doubled : Faithful (Roots.sharing.both Roots.sharing).hashed :=
    faithful.subset (Roots.hashed_subset within within')
  have joint : Faithful (Roots.sharing.both (Roots.sharing.both Roots.sharing)).hashed :=
    faithful.subset (Roots.hashed_subset
      (fun v given => (List.mem_append.mp given).elim id (within v))
      fun e given => (List.mem_append.mp given).elim id (within' e))
  obtain ⟨container, accepted⟩ := exists_encode .empty (Roots.told faithful)
    Session.storable_sharing
  obtain ⟨other, accepted'⟩ := exists_encode .empty (Roots.told doubled)
    fun v present => Session.storable_sharing v (Roots.contents_subset within within' v present)
  rcases Session.exists_sharing .empty with ⟨trace, encoder, session, roots, -⟩
  rcases encode_deduplicates faithful accepted with ⟨stored, alike, settled⟩
  have length : container.steps.length = 8 := by
    rw [stored.only, Roots.stepCount, Roots.valuePrints, Roots.nodePrints,
      Roots.fingerprints_sharing.1, Roots.fingerprints_sharing.2]
    rfl
  refine ⟨container, other, trace, encoder, accepted, accepted', length, ?_, roots, ?_⟩
  · rw [alike _ other (alike_doubled _) joint accepted', length]
  · exact settled trace encoder session (roots ▸ faithful)

end Container

end ExprWire
