import ExprWire.Serialize
import ExprWire.Proofs.Dedup
import ExprWire.Proofs.Layout
import ExprWire.Proofs.Replay
/-!
The way to a container and back, directly and by way of bytes. Both ways lead to the same values,
and to the same expressions but for their attributes.
-/

namespace ExprWire

open Fingerprint (Faithful)
open Ledger (Spells Spelled Builds Reached)

def Expr.key? : Expr → Option String
  | .leaf key | .placeholder key => some key
  | _ => none

namespace Roots

/-- Whether every count and every length that is written behind the payloads' own has 32 bits. -/
structure Short (roots : Roots) : Prop where
  payloads : ∀ v ∈ roots.contents, ∀ payload, v.payload = .ok payload →
    payload.length ≤ Varint.limit
  fields : ∀ v ∈ roots.contents, v.fields.length ≤ Varint.limit
  keys : ∀ e ∈ roots.nodes, ∀ key ∈ e.key?, (Text.utf8 key).length ≤ Varint.limit
  deps : ∀ e ∈ roots.nodes, e.deps.length ≤ Varint.limit
  values : roots.values.length ≤ Varint.limit
  exprs : roots.exprs.length ≤ Varint.limit
  steps : roots.stepCount ≤ Varint.limit

/-- Whether no key begins with a byte order mark. -/
def Unmarked (roots : Roots) : Prop := ∀ e ∈ roots.nodes, ∀ key ∈ e.key?, Text.Unmarked key

end Roots

theorem Value.codecName_short (v : Value) : (Text.utf8 v.codecName).length ≤ Varint.limit := by
  cases v with
  | tuple fields => exact TupleCodec.short_name
  | operator op => exact OperatorCodec.short_name
  | _ => exact ScalarCodec.short_name

theorem Value.dropMark_codecName (v : Value) : Text.dropMark v.codecName = v.codecName := by
  cases v with
  | tuple fields => exact TupleCodec.plain_name
  | operator op => exact OperatorCodec.plain_name
  | _ => exact ScalarCodec.plain_name

namespace Ledger

variable {roots : Roots} {items : Ledger}

theorem HasValue.fits {v : Value} {position : Nat} (small : items.length ≤ Varint.limit)
    (stored : items.HasValue v position) : (Number.ofNat position).Fits := by
  rcases stored with ⟨u, found, -⟩
  have inside := (List.getElem?_eq_some_iff.mp found).choose
  exact Number.fits_ofNat.mpr (by omega)

theorem HasNode.fits {e : Expr} {position : Nat} (small : items.length ≤ Varint.limit)
    (stored : items.HasNode e position) : (Number.ofNat position).Fits := by
  rcases stored with ⟨d, found, -⟩
  have inside := (List.getElem?_eq_some_iff.mp found).choose
  exact Number.fits_ofNat.mpr (by omega)

theorem allFit_positions {α : Type} {stored : α → Nat → Prop} {xs : List α} {positions : List Nat}
    (paired : List.Forall₂ stored xs positions) (short : xs.length ≤ Varint.limit)
    (fits : ∀ x position, stored x position → (Number.ofNat position).Fits) :
    Number.AllFit (positions.map Number.ofNat) := by
  constructor
  · rw [List.length_map, ← paired.length_eq]
    exact short
  · clear short
    induction paired with
    | nil => exact fun _ present => absurd present List.not_mem_nil
    | cons first _ ih =>
        intro index present
        rcases List.mem_cons.mp present with rfl | later
        · exact fits _ _ first
        · exact ih index later

theorem Spells.formed {item : Item} {step : Step} (spells : Spells items item step) :
    step.Formed := by
  cases spells with
  | node _ builds => cases builds <;> trivial
  | _ => trivial

theorem Spells.fits (short : roots.Short) {item : Item} {step : Step}
    (reached : Reached roots (items ++ [item])) (small : items.length ≤ Varint.limit)
    (spells : Spells items item step)
    (used : ∀ name, item = .codec name → ∃ u : Value, u.codecName = name) : step.Fits := by
  have last : item ∈ items ++ [item] := List.mem_append_right _ List.mem_cons_self
  cases spells with
  | @codec name fresh =>
      rcases used name rfl with ⟨u, same⟩
      rw [← same]
      exact u.codecName_short
  | @value v payload slot positions _ stored declared nested =>
      have present := reached.values v last
      have place : (Number.ofNat slot).Fits := by
        have inside : slot < items.codecs.length := (List.getElem?_eq_some_iff.mp declared).choose
        have fewer : items.codecs.length ≤ items.length := List.length_filterMap_le _ _
        exact Number.fits_ofNat.mpr (by omega)
      refine ⟨short.payloads v present payload stored, ?_, ?_, ?_⟩
      · intro index same
        rw [← Option.some.inj same]
        exact place
      · exact allFit_positions nested (short.fields v present) fun _ _ held => held.fits small
      · exact ⟨Nat.zero_le _, fun _ present => absurd present List.not_mem_nil⟩
  | outputValue marked => exact marked.fits small
  | outputExpr marked => exact marked.fits small
  | @node e _ _ builds =>
      have present := reached.nodes e last
      cases builds with
      | literal content => exact content.fits small
      | leaf key => exact short.keys _ present key rfl
      | placeholder key => exact short.keys _ present key rfl
      | apply content direct =>
          have deps := allFit_positions direct (short.deps _ present) fun _ _ held => held.fits small
          exact ⟨content.fits small, deps⟩

theorem Spells.unmarked_eq (plain : roots.Unmarked) {item : Item} {step : Step}
    (reached : Reached roots (items ++ [item])) (spells : Spells items item step)
    (used : ∀ name, item = .codec name → ∃ u : Value, u.codecName = name) :
    step.unmarked = step := by
  have last : item ∈ items ++ [item] := List.mem_append_right _ List.mem_cons_self
  cases spells with
  | @codec name fresh =>
      rcases used name rfl with ⟨u, same⟩
      rw [← same]
      exact congrArg Step.codec u.dropMark_codecName
  | @node e _ _ builds =>
      have present := reached.nodes e last
      cases builds with
      | leaf key =>
          exact congrArg Step.leaf (Text.dropMark_eq_self_iff.mpr (plain _ present key rfl))
      | placeholder key =>
          exact congrArg Step.placeholder (Text.dropMark_eq_self_iff.mpr (plain _ present key rfl))
      | _ => rfl
  | _ => rfl

end Ledger

namespace Container.Holds

variable {roots : Roots} {container : Container} {items : Ledger}

theorem exists_spells (holds : container.Holds roots items) {step : Step}
    (present : step ∈ container.steps) : ∃ earlier item, Spells earlier item step ∧
      Reached roots (earlier ++ [item]) ∧ earlier.length ≤ items.length ∧
      ∀ name, item = .codec name → ∃ u : Value, u.codecName = name := by
  rcases List.mem_iff_getElem?.mp present with ⟨position, found⟩
  rcases holds.spelled.getElem? found with ⟨item, here, spells⟩
  have member : item ∈ items := List.mem_of_getElem? here
  have inside : ∀ other ∈ items.take position ++ [item], other ∈ items := by
    intro other listed
    rcases List.mem_append.mp listed with early | last
    · exact List.mem_of_mem_take early
    · rwa [List.mem_singleton.mp last]
  refine ⟨items.take position, item, spells, holds.reached.subset inside,
    List.length_take_le' _ _, fun name same => ?_⟩
  rcases holds.growth.used name (same ▸ member) with ⟨u, -, named⟩
  exact ⟨u, named⟩

theorem formed (holds : container.Holds roots items) : container.Formed := by
  intro step present
  rcases holds.exists_spells present with ⟨earlier, item, spells, -, -, -⟩
  exact spells.formed

theorem fits (holds : container.Holds roots items) (told : roots.Told) (short : roots.Short) :
    container.Fits := by
  have count : container.steps.length ≤ Varint.limit := by
    rw [(holds.deduplicated told).only]
    exact short.steps
  have small : items.length ≤ Varint.limit := by
    rw [holds.spelled.length_eq]
    exact count
  rcases holds.values with ⟨positions, outputs, stored⟩
  rcases holds.exprs with ⟨positions', outputs', stored'⟩
  refine ⟨⟨currentVersion, holds.version, by decide⟩, count, ?_, ?_, ?_⟩
  · intro step present
    rcases holds.exists_spells present with ⟨earlier, item, spells, reached, fewer, used⟩
    exact spells.fits short reached (Nat.le_trans fewer small) used
  · rw [outputs]
    exact Ledger.allFit_positions stored short.values fun _ _ held => held.fits small
  · rw [outputs']
    exact Ledger.allFit_positions stored' short.exprs fun _ _ held => held.fits small

theorem unmarked_eq (holds : container.Holds roots items) (plain : roots.Unmarked) :
    container.unmarked = container := by
  have each : ∀ step ∈ container.steps, step.unmarked = id step := by
    intro step present
    rcases holds.exists_spells present with ⟨earlier, item, spells, reached, -, used⟩
    exact spells.unmarked_eq plain reached used
  rw [Container.unmarked, List.map_congr_left each, List.map_id]

end Container.Holds

/-- That decoding has given the roots: the values in full, the expressions but for attributes. -/
structure Decoded.Restores (decoded : Decoded) (roots : Roots) : Prop where
  values : decoded.values = roots.values
  exprs : decoded.exprs.map Expr.bare = roots.exprs.map Expr.bare
  prints : decoded.exprs.map Expr.fingerprint = roots.exprs.map Expr.fingerprint

theorem Expr.fingerprints_eq_of_bare {ds es : List Expr} (same : ds.map bare = es.map bare) :
    ds.map fingerprint = es.map fingerprint := by
  apply map_eq_of_map_eq same
  intro d _ e _ alike
  calc
    d.fingerprint = d.bare.fingerprint := d.fingerprint_bare.symm
    _ = e.bare.fingerprint := congrArg fingerprint alike
    _ = e.fingerprint := e.fingerprint_bare

namespace Roots

variable {operators : OperatorRegistry} {roots : Roots}

theorem Intact.storable (intact : roots.Intact operators) : Encoding.Storable roots.contents :=
  fun u present => ⟨(intact.contents u present).supported, (intact.contents u present).fits⟩

theorem exists_container [Extension] (options : Options) (faithful : Faithful roots.hashed)
    (intact : roots.Intact operators) :
    ∃ container decoded, serialize (.standard operators) roots.values roots.exprs = .ok container ∧
      deserialize (.standard operators) options container = .ok decoded ∧
      decoded.Restores roots := by
  have told := Roots.told faithful
  rcases Container.exists_encode operators told intact.storable with ⟨container, accepted⟩
  have held := Container.encode_holds operators told
  rw [accepted] at held
  rcases held with ⟨items, holds⟩
  rcases holds.decode told intact options with ⟨decoded, replayed, values, exprs⟩
  exact ⟨container, decoded, accepted, replayed, values, exprs,
    Expr.fingerprints_eq_of_bare exprs⟩

/-- Whatever the options, what has been serialized is restored from the container, and from the
bytes if everything in the container is short enough to be written. -/
theorem round_trip [Extension] (options : Options) (faithful : Faithful roots.hashed)
    (intact : roots.Intact operators) (plain : roots.Unmarked) :
    ∃ decoded, decoded.Restores roots ∧
      (serialize (.standard operators) roots.values roots.exprs >>=
        deserialize (.standard operators) options) = .ok decoded ∧
      (roots.Short → (serializeToBytes (.standard operators) roots.values roots.exprs >>=
        deserializeFromBytes (.standard operators) options) = .ok decoded) := by
  have told := Roots.told faithful
  rcases Container.exists_encode operators told intact.storable with ⟨container, accepted⟩
  have held := Container.encode_holds operators told
  rw [accepted] at held
  rcases held with ⟨items, holds⟩
  rcases holds.decode told intact options with ⟨decoded, replayed, values, exprs⟩
  have direct : serialize (.standard operators) roots.values roots.exprs = .ok container := accepted
  refine ⟨decoded, ⟨values, exprs, Expr.fingerprints_eq_of_bare exprs⟩, ?_, ?_⟩
  · rw [direct]
    exact replayed
  · intro short
    rcases Container.read_write (holds.fits told short) holds.formed with ⟨bytes, written, back⟩
    rw [holds.unmarked_eq plain] at back
    have packed : serializeToBytes (.standard operators) roots.values roots.exprs = .ok bytes := by
      rw [serializeToBytes, direct]
      exact written
    rw [packed]
    change deserializeFromBytes (.standard operators) options bytes = .ok decoded
    rw [deserializeFromBytes, back]
    exact replayed

theorem intact_sharing (operators : OperatorRegistry) : sharing.Intact operators where
  contents := by
    rw [contents_sharing]
    intro v listed
    simp only [List.mem_cons, List.not_mem_nil, or_false] at listed
    rcases listed with rfl | rfl | rfl | rfl <;> exact ⟨trivial, trivial, trivial⟩
  counted := by
    rw [nodes_sharing]
    intro e listed
    simp only [List.mem_cons, List.not_mem_nil, or_false] at listed
    rcases listed with rfl | rfl | rfl
    · exact (by decide : Operator.makeTuple.signature.arity.accepts 2 = true)
    · trivial
    · trivial

theorem unmarked_sharing : sharing.Unmarked := by
  have plain : Text.Unmarked "x" := by decide
  rw [Unmarked, nodes_sharing]
  intro e listed key held
  simp only [List.mem_cons, List.not_mem_nil, or_false] at listed
  rcases listed with rfl | rfl | rfl
  · exact absurd held nofun
  · exact Option.some.inj held ▸ plain
  · exact Option.some.inj held ▸ plain

theorem payloads_sharing : ∀ v ∈ sharing.contents, ∀ payload, v.payload = .ok payload →
    payload.length ≤ Varint.limit := by
  have tuple : (Spelling.text TupleCodec.name).length ≤ Varint.limit := by
    rw [Spelling.length_text (by decide)]
    decide
  have supported : OperatorCodec.Supported .makeTuple := trivial
  have fits : OperatorCodec.Fits .makeTuple := trivial
  have unit : Value.unit.payload = .ok (Spelling.text ScalarCodec.name ++ ([8] ++ [])) := by
    change ScalarCodec.payload ((ScalarCodec.code? Value.unit.type).getD 0) .unit = _
    rw [Value.type]
    exact ScalarCodec.payload_eq (v := .unit) trivial
  have operator : OperatorCodec.payload .makeTuple =
      .ok (Spelling.text OperatorCodec.name ++ [3]) := OperatorCodec.payload_eq supported fits
  rw [contents_sharing]
  intro v listed payload stored
  simp only [List.mem_cons, List.not_mem_nil, or_false] at listed
  rcases listed with rfl | rfl | rfl | rfl
  · rw [← Except.ok.inj (TupleCodec.payload_eq.symm.trans stored)]
    exact tuple
  · rw [← Except.ok.inj (unit.symm.trans stored), List.length_append,
      Spelling.length_text (by decide)]
    decide
  · rw [← Except.ok.inj (unit.symm.trans stored), List.length_append,
      Spelling.length_text (by decide)]
    decide
  · rw [← Except.ok.inj (operator.symm.trans stored), List.length_append,
      Spelling.length_text (by decide)]
    decide

theorem short_sharing : sharing.Short where
  payloads := payloads_sharing
  fields := by
    rw [contents_sharing]
    intro v listed
    simp only [List.mem_cons, List.not_mem_nil, or_false] at listed
    rcases listed with rfl | rfl | rfl | rfl <;> decide
  keys := by
    rw [nodes_sharing]
    intro e listed key held
    simp only [List.mem_cons, List.not_mem_nil, or_false] at listed
    rcases listed with rfl | rfl | rfl
    · exact absurd held nofun
    · rw [← Option.some.inj held]
      decide
    · rw [← Option.some.inj held]
      decide
  deps := by
    rw [nodes_sharing]
    intro e listed
    simp only [List.mem_cons, List.not_mem_nil, or_false] at listed
    rcases listed with rfl | rfl | rfl <;> decide
  values := by decide
  exprs := by decide
  steps := by
    rw [stepCount, valuePrints, nodePrints, fingerprints_sharing.1, fingerprints_sharing.2]
    decide

theorem round_trip_sharing :
    ∃ decoded, decoded.Restores sharing ∧
      (serialize (.standard .empty) sharing.values sharing.exprs >>=
        deserialize (.standard .empty) .default) = .ok decoded ∧
      (serializeToBytes (.standard .empty) sharing.values sharing.exprs >>=
        deserializeFromBytes (.standard .empty) .default) = .ok decoded := by
  rcases round_trip .default faithful_sharing (intact_sharing .empty) unmarked_sharing with
    ⟨decoded, restores, direct, bytes⟩
  exact ⟨decoded, restores, direct, bytes short_sharing⟩

end Roots

end ExprWire
