import ExprWire.Proofs.Bare
import ExprWire.Proofs.Origins
import ExprWire.Proofs.RoundTrip
/-!
Serializing what has been decoded. Whatever a container decodes to is stored again, in no more steps
than that container has. The new container is a fixed point of decoding and serializing unless a
byte order mark in front of a text is lost on the way.
-/

namespace ExprWire

open Fingerprint (Description Faithful)

theorem Operator.Native.supported {operators : OperatorRegistry} {op : Operator}
    (native : op.Native operators) : OperatorCodec.Supported op := by
  cases op with
  | registered name target => trivial
  | _ => exact native

namespace Value

/-- Whether no text, operator name or doc begins with a byte order mark, the fields of tuples
apart. Of a reference it is the name that counts. -/
def Unmarked : Value → Prop
  | .text content => Text.Unmarked content
  | .operator (.registered name _) => Text.Unmarked name
  | .operator op => Text.Unmarked op.name ∧ Text.Unmarked op.doc
  | _ => True

variable {operators : OperatorRegistry} {v : Value}

theorem Native.supported (native : v.Native operators) : v.Supported := by
  cases v with
  | operator op => exact Operator.Native.supported native
  | _ => trivial

theorem Native.kept (native : v.Native operators) (plain : v.Unmarked) : v.Kept operators := by
  cases v with
  | int32 n => exact native
  | text content => exact plain
  | operator op =>
      cases op with
      | registered name target => exact ⟨native, plain⟩
      | backend name signature doc output => exact plain
      | _ => trivial
  | _ => trivial

theorem fits_of_short (short : ∀ d ∈ v.descriptions, d.Short) : v.Fits := by
  have within {d : Description} (digested : d ∈ v.descriptions) {field : Fingerprint.Field}
      (listed : field ∈ d.fields) : field.length ≤ Varint.limit :=
    Nat.le_of_lt_succ (short d digested field (List.mem_cons_of_mem _ listed))
  cases v with
  | text content =>
      exact within List.mem_cons_self (List.mem_cons_of_mem _ (List.mem_singleton_self _))
  | bytes content =>
      exact within List.mem_cons_self (List.mem_cons_of_mem _ (List.mem_singleton_self _))
  | operator op =>
      have digested : op.description ∈ (operator op).descriptions :=
        List.mem_cons_of_mem _ (List.mem_singleton_self _)
      have listed (place : Nat) {field : Fingerprint.Field}
          (found : op.description.fields[place]? = some field) : field ∈ op.description.fields :=
        List.mem_of_getElem? found
      cases op with
      | registered name target => exact within digested (List.mem_singleton_self _)
      | backend name signature doc output =>
          exact ⟨within digested (listed 1 rfl), within digested (listed 2 rfl),
            within digested (listed 3 rfl)⟩
      | _ => trivial
  | _ => trivial

end Value

namespace Roots

variable {operators : OperatorRegistry} {options : Options} {roots : Roots} {items : Ledger}

theorem fits_of_faithful (faithful : Faithful roots.hashed) {v : Value}
    (present : v ∈ roots.contents) : v.Fits :=
  Value.fits_of_short fun d digested => faithful.short d (mem_hashed_of_value present digested)

theorem storable_of_native (faithful : Faithful roots.hashed)
    (native : ∀ v ∈ roots.contents, v.Native operators) : Encoding.Storable roots.contents :=
  fun v present => ⟨(native v present).supported, fits_of_faithful faithful present⟩

theorem restorable_of_native (faithful : Faithful roots.hashed)
    (native : ∀ v ∈ roots.contents, v.Native operators)
    (counted : options.safe = true → ∀ e ∈ roots.nodes, e.Counted)
    (plain : ∀ v ∈ roots.contents, v.Unmarked) : roots.Restorable operators options where
  contents v present :=
    ⟨(native v present).supported, fits_of_faithful faithful present,
      (native v present).kept (plain v present)⟩
  counted := counted

end Roots

theorem Container.serialize_again [Extension] {operators : OperatorRegistry} {options : Options}
    {roots : Roots}
    {container : Container} (told : roots.Told) (restorable : roots.Restorable operators options)
    (accepted : serialize (.standard operators) roots.values roots.exprs = .ok container) :
    ∃ again, deserialize (.standard operators) options container = .ok again ∧
      again.Restores roots ∧
      serialize (.standard operators) again.values again.exprs = .ok container := by
  have held := encode_holds operators told
  rw [serialize] at accepted
  rw [accepted] at held
  obtain ⟨items, holds⟩ := held
  obtain ⟨again, decodes, values, exprs⟩ := holds.restore told restorable
  refine ⟨again, decodes, ⟨values, exprs, Expr.fingerprints_eq_of_bare exprs⟩, ?_⟩
  rw [serialize, values, ← encode_bare, exprs, encode_bare]
  exact accepted

/-- Serializing what a container decodes to succeeds, and takes no more steps than the container
has. Unless a text, or the name or the doc of an operator, begins with a byte order mark, what is
serialized decodes to the same but for attributes, and is a fixed point of decoding and
serializing. -/
theorem reserialization_minimal [Extension] {operators : OperatorRegistry} {options : Options}
    {container : Container} {decoded : Decoded}
    (decodes : deserialize (.standard operators) options container = .ok decoded)
    (faithful : Faithful decoded.roots.hashed) :
    ∃ smaller, serialize (.standard operators) decoded.values decoded.exprs = .ok smaller ∧
      smaller.steps.length ≤ container.steps.length ∧
      ((∀ v ∈ decoded.roots.contents, v.Unmarked) →
        ∃ again, deserialize (.standard operators) options smaller = .ok again ∧
          again.Restores decoded.roots ∧
          serialize (.standard operators) again.values again.exprs = .ok smaller) := by
  obtain ⟨items, length, closed, covers, native⟩ := Container.exists_ledger decodes
  have told := Roots.told faithful
  have contents : ∀ v ∈ decoded.roots.contents, v.Native operators :=
    fun v present => native _ (covers.contents closed v present)
  have counted : options.safe = true → ∀ e ∈ decoded.roots.nodes, e.Counted :=
    fun safe e present => native _ (covers.nodes closed e present) safe
  obtain ⟨smaller, accepted⟩ := Container.exists_encode operators told
    (Roots.storable_of_native faithful contents)
  refine ⟨smaller, accepted, ?_, fun plain => ?_⟩
  · calc
      smaller.steps.length = decoded.roots.stepCount :=
        (Container.deduplicated_of_encode told accepted).only
      _ ≤ items.length := covers.stepCount_le closed
      _ = container.steps.length := length
  · exact Container.serialize_again told
      (Roots.restorable_of_native faithful contents counted plain) accepted

theorem Container.decode_idle [Extension] {lookup : CodecLookup} {options : Options}
    {container : Container}
    {decoded : Decoded} (key : String) (decodes : container.decode lookup options = .ok decoded) :
    Container.decode lookup options
      { container with steps := container.steps ++ [.leaf key] } = .ok decoded := by
  obtain ⟨current, after, run, vs, es, values, exprs, same⟩ := decode_iff_run.mp decodes
  have free : (after.slot after.size).isFree = true := by
    rw [Decoder.slot_of_size_le (Nat.le_refl _)]
    rfl
  have keeps : after.Keeps (after.grow (.expr (.leaf key))) := Decoder.keeps_grow _
  refine decode_iff_run.mpr ⟨current, after.grow (.expr (.leaf key)),
    Decoder.run_append_iff.mpr ⟨after, run, .next (.leaf key free) (.done _)⟩, vs, es, ?_, ?_, same⟩
  · exact values.imp fun _ _ => keeps.valueAt
  · exact exprs.imp fun _ _ => keeps.exprAt

theorem reserialization_minimal_sharing : ∃ container decoded smaller again,
    deserialize (.standard .empty) .default container = .ok decoded ∧
    serialize (.standard .empty) decoded.values decoded.exprs = .ok smaller ∧
    smaller.steps.length < container.steps.length ∧
    deserialize (.standard .empty) .default smaller = .ok again ∧
    again.Restores decoded.roots ∧
    serialize (.standard .empty) again.values again.exprs = .ok smaller := by
  obtain ⟨stored, ⟨values, exprs⟩, accepted, decodes, restores⟩ := Roots.exists_container .default
    Roots.faithful_sharing (Roots.intact_sharing .empty)
  obtain rfl : values = Roots.sharing.values := restores.values
  have bare := restores.exprs
  have hashed : Roots.hashed ⟨Roots.sharing.values, exprs⟩ = Roots.sharing.hashed := by
    rw [← Roots.hashed_bare, bare, Roots.hashed_bare]
  have contents : Roots.contents ⟨Roots.sharing.values, exprs⟩ = Roots.sharing.contents := by
    rw [← Roots.contents_bare, bare, Roots.contents_bare]
  have faithful : Faithful (Roots.hashed ⟨Roots.sharing.values, exprs⟩) :=
    hashed ▸ Roots.faithful_sharing
  have plain : ∀ v ∈ Roots.contents ⟨Roots.sharing.values, exprs⟩, v.Unmarked := by
    rw [contents, Roots.contents_sharing]
    intro v listed
    simp only [List.mem_cons, List.not_mem_nil, or_false] at listed
    rcases listed with rfl | rfl | rfl | rfl
    · trivial
    · trivial
    · trivial
    · exact (by decide : Text.Unmarked "core.make_tuple" ∧
        Text.Unmarked "Returns a tuple of the inputs.")
  obtain ⟨smaller, accepted', -, fixed⟩ := reserialization_minimal
    (Container.decode_idle "y" decodes) faithful
  obtain ⟨again, decodes', restored, accepted''⟩ := fixed plain
  have same : smaller = stored := by
    have equal : serialize (.standard .empty) Roots.sharing.values exprs =
        serialize (.standard .empty) Roots.sharing.values Roots.sharing.exprs := by
      rw [serialize, serialize, ← Container.encode_bare, bare, Container.encode_bare]
    exact Except.ok.inj (accepted'.symm.trans (equal.trans accepted))
  refine ⟨_, _, smaller, again, Container.decode_idle "y" decodes, accepted', ?_, decodes',
    restored, accepted''⟩
  rw [same, List.length_append]
  exact Nat.lt_succ_self _

end ExprWire
