import ExprWire.Proofs.Identity
import ExprWire.Proofs.Reserialization
/-!
What the codecs lose. A scalar comes back as it was unless it is the negative zero of 32 bits, which
loses its sign, or a text with a leading byte order mark, which loses the mark. An operator comes
back as it was unless its name or its doc loses such a mark: then it has another fingerprint, and a
reference leads to whatever is bound to the name that is left, or nowhere.
-/

namespace ExprWire

open Fingerprint (Faithful)

namespace ScalarCodec

theorem exists_code_of_mem_scalars {type : ValueType} (listed : type ∈ ValueType.scalars) :
    ∃ code, code? type = some code := by
  simp only [ValueType.scalars, List.mem_cons, List.not_mem_nil, or_false] at listed
  rcases listed with rfl | rfl | rfl | rfl | rfl | rfl | rfl | rfl <;> exact ⟨_, rfl⟩

theorem payload_eq_ok_iff {code : UInt8} {v : Value} {bytes : Bytes} :
    payload code v = .ok bytes ↔
      Fits v ∧ bytes = Spelling.text name ++ ([code] ++ content v) := by
  by_cases fits : Fits v
  · rw [payload_eq fits, Except.ok.injEq, eq_comm]
    exact (and_iff_right fits).symm
  · have refusal : ∃ fault, payload code v = .error (.fault fault) ∧
        fault.status = .invalidArgument := payload_refused fits
    rcases refusal with ⟨fault, refused, -⟩
    rw [refused]
    exact ⟨nofun, fun held => absurd held.1 fits⟩

theorem kept_of_description_eq {v : Value} (same : (restored v).description = v.description) :
    Kept v := by
  have covered := (List.cons.inj (Fingerprint.Description.mk.inj same).2).2
  cases v with
  | int32 n =>
      cases n with
      | word n => exact nofun
      | minusZero =>
          have zeros := Fingerprint.Field.number.inj (List.cons.inj covered).1
          exact absurd (Integer32.toBinary64_injective zeros) nofun
  | text text =>
      exact Text.dropMark_eq_self_iff.mp (Fingerprint.Field.text.inj (List.cons.inj covered).1)
  | _ => trivial

/-- A scalar is stored if its length has 32 bits, and what is restored has its type. It is the same
scalar, with the same fingerprint, exactly if it is neither the negative zero of 32 bits nor a text
with a leading byte order mark. -/
theorem scalar_restored {v : Value} (scalar : v.type ∈ ValueType.scalars) :
    ∃ stored, encode v = .ok ⟨some name, false, stored⟩ ∧
      ((∃ bytes, stored = .ok bytes) ↔ Fits v) ∧
      ∀ bytes, stored = .ok bytes →
        decode bytes [] [] = .ok (some (restored v)) ∧
        (restored v).type = v.type ∧
        (restored v = v ↔ Kept v) ∧
        (Faithful [(restored v).description, v.description] →
          ((restored v).fingerprint = v.fingerprint ↔ Kept v)) := by
  obtain ⟨code, coded⟩ := exists_code_of_mem_scalars scalar
  refine ⟨payload code v, by rw [encode, coded], ?_, fun bytes stored => ?_⟩
  · simp only [payload_eq_ok_iff, exists_and_left, exists_eq, and_true]
  · obtain ⟨fits, rfl⟩ := payload_eq_ok_iff.mp stored
    refine ⟨decode_spelled coded fits, type_restored v, restored_eq_self_iff, fun faithful => ?_⟩
    constructor
    · intro same
      rw [Value.fingerprint_eq, Value.fingerprint_eq] at same
      exact kept_of_description_eq (faithful.eq_of_fingerprint_eq List.mem_cons_self
        (List.mem_cons_of_mem _ List.mem_cons_self) same)
    · exact fun kept => congrArg Value.fingerprint (restored_eq_self_iff.mpr kept)

theorem faithful_zeros :
    Faithful [(Value.int32 (.word 0)).description, (Value.int32 .minusZero).description] := by
  simp only [Value.description, Value.type]
  refine .of_pairwise (by decide) ?_
  rw [List.pairwise_pair]
  unfold Fingerprint.Description.fingerprint Fingerprint.ofPreimage
  decide +kernel

theorem faithful_marked :
    Faithful [(Value.text "x").description, (Value.text "\uFEFFx").description] := by
  simp only [Value.description, Value.type]
  refine .of_pairwise (by decide) ?_
  rw [List.pairwise_pair]
  unfold Fingerprint.Description.fingerprint Fingerprint.ofPreimage
  decide +kernel

theorem scalar_restored_lossy :
    (∃ bytes, encode (.int32 .minusZero) = .ok ⟨some name, false, .ok bytes⟩ ∧
      decode bytes [] [] = .ok (some (.int32 (.word 0)))) ∧
    (Value.int32 (.word 0)).fingerprint ≠ (Value.int32 .minusZero).fingerprint ∧
    (∃ bytes, encode (.text "\uFEFFx") = .ok ⟨some name, false, .ok bytes⟩ ∧
      decode bytes [] [] = .ok (some (.text "x"))) ∧
    (Value.text "x").fingerprint ≠ (Value.text "\uFEFFx").fingerprint := by
  obtain ⟨stored, encoded, stores, gives⟩ := scalar_restored (v := .int32 .minusZero)
    (by rw [Value.type]; decide)
  obtain ⟨stored', encoded', stores', gives'⟩ := scalar_restored (v := .text "\uFEFFx")
    (by rw [Value.type]; decide)
  obtain ⟨bytes, rfl⟩ := stores.mpr trivial
  obtain ⟨bytes', rfl⟩ := stores'.mpr
    (show (Text.utf8 "\uFEFFx").length ≤ Varint.limit by decide)
  obtain ⟨decoded, -, -, prints⟩ := gives bytes rfl
  obtain ⟨decoded', -, -, prints'⟩ := gives' bytes' rfl
  refine ⟨⟨bytes, encoded, decoded⟩, ?_, ⟨bytes', encoded', decoded'⟩, ?_⟩
  · exact fun same => (prints faithful_zeros).mp same rfl
  · exact fun same => (prints' faithful_marked).mp same rfl

end ScalarCodec

def Operator.output? : Operator → Option (Option ValueType)
  | .backend _ _ _ output => some output
  | _ => none

namespace OperatorCodec

variable {operators : OperatorRegistry} {op again : Operator}

theorem payload_eq_ok_iff {bytes : Bytes} : payload op = .ok bytes ↔
    (Supported op ∧ Fits op) ∧ bytes = Spelling.text name ++ content op := by
  by_cases storable : Supported op ∧ Fits op
  · rw [payload_eq storable.1 storable.2, Except.ok.injEq, eq_comm]
    exact (and_iff_right storable).symm
  · rcases payload_refused storable with ⟨fault, refused, -⟩
    rw [refused]
    exact ⟨nofun, fun held => absurd held.1 storable⟩

theorem reread_agrees (supported : Supported op) (gives : reread operators op = .ok again) :
    again.Native operators ∧ again.family = op.family ∧ again.name = Text.dropMark op.name ∧
      (op.reference? = none → again.signature = op.signature ∧
        again.doc = Text.dropMark op.doc ∧ again.output? = op.output?) := by
  cases op with
  | custom => exact supported.elim
  | registered name target =>
      obtain ⟨other, bound, rfl⟩ := OperatorRegistry.lookup_eq_ok_iff.mp gives
      exact ⟨bound, rfl, rfl, fun plain => absurd plain (Option.some_ne_none name)⟩
  | backend name signature doc output =>
      rw [← Except.ok.inj gives]
      exact ⟨supported, rfl, rfl, fun _ => ⟨rfl, rfl, rfl⟩⟩
  | makeTuple =>
      rw [← Except.ok.inj gives]
      exact ⟨trivial, rfl, by decide, fun _ => ⟨rfl, by decide, rfl⟩⟩

theorem reread_fails {problem : Problem} (failed : reread operators op = .error problem) :
    op.reference? = some op.name ∧ operators.find? (Text.dropMark op.name) = none ∧
      problem = .of (.operatorNotFound (Text.dropMark op.name)) := by
  cases op with
  | registered name target => exact ⟨rfl, OperatorRegistry.lookup_eq_error_iff.mp failed⟩
  | _ => cases failed

theorem unmarked_of_description_eq (gives : reread operators op = .ok again)
    (supported : Supported op) (same : again.description = op.description) :
    (Value.operator op).Unmarked := by
  have told := Operator.same_iff.mpr (Operator.plain_eq_of_description_eq same)
  cases op with
  | custom => exact supported.elim
  | makeTuple =>
      exact (by decide : Text.Unmarked Operator.makeTuple.name ∧
        Text.Unmarked Operator.makeTuple.doc)
  | registered name target =>
      obtain ⟨other, -, rfl⟩ := OperatorRegistry.lookup_eq_ok_iff.mp gives
      cases told with
      | reference named named' =>
          exact Text.dropMark_eq_self_iff.mp (Option.some.inj (named.trans named'.symm))
      | described plain => exact absurd plain (Option.some_ne_none _)
  | backend name signature doc output =>
      obtain ⟨-, -, names, described⟩ := reread_agrees supported gives
      cases told with
      | reference named named' => exact absurd named'.symm (Option.some_ne_none _)
      | described plain plain' families sameNames signatures docs =>
          exact ⟨Text.dropMark_eq_self_iff.mp (names.symm.trans sameNames),
            Text.dropMark_eq_self_iff.mp ((described rfl).2.1.symm.trans docs)⟩

section

variable (bound : ∀ name target, op = .registered name target → operators.find? name = some target)

include bound

theorem reread_eq_self_iff (supported : Supported op) :
    reread operators op = .ok op ↔ (Value.operator op).Unmarked := by
  constructor
  · exact fun same => unmarked_of_description_eq same supported rfl
  · intro plain
    refine reread_of_kept ?_
    cases op with
    | registered name target => exact ⟨bound name target rfl, plain⟩
    | backend name signature doc output => exact plain
    | _ => trivial

theorem fingerprint_reread_iff (supported : Supported op) (gives : reread operators op = .ok again)
    (faithful : Faithful [again.description, op.description]) :
    again.fingerprint = op.fingerprint ↔ (Value.operator op).Unmarked := by
  constructor
  · intro same
    rw [Operator.fingerprint_eq, Operator.fingerprint_eq] at same
    exact unmarked_of_description_eq gives supported
      (faithful.eq_of_fingerprint_eq List.mem_cons_self
        (List.mem_cons_of_mem _ List.mem_cons_self) same)
  · intro plain
    have restored := (reread_eq_self_iff bound supported).mpr plain
    rw [Except.ok.inj (gives.symm.trans restored)]

/-- An operator is stored if it is of a kind that can be stored and its lengths have 32 bits. It is
restored exactly if no mark is lost. What comes back otherwise is of the same family and says the
same of itself but for the mark, so it has another fingerprint; but a reference leads to whatever is
bound to the name that is left, and decoding fails if nothing is. -/
theorem operator_reread :
    encode (.operator op) = .ok ⟨some name, false, payload op⟩ ∧
    ((∃ bytes, payload op = .ok bytes) ↔ Supported op ∧ Fits op) ∧
    ∀ bytes, payload op = .ok bytes →
      (decode operators bytes [] [] = .ok (some (.operator op)) ↔ (Value.operator op).Unmarked) ∧
      (∀ result, decode operators bytes [] [] = .ok result →
        ∃ again, result = some (.operator again) ∧ again.Native operators ∧
          again.family = op.family ∧ again.name = Text.dropMark op.name ∧
          (op.reference? = none → again.signature = op.signature ∧
            again.doc = Text.dropMark op.doc ∧ again.output? = op.output?) ∧
          (Faithful [again.description, op.description] →
            (again.fingerprint = op.fingerprint ↔ (Value.operator op).Unmarked))) ∧
      ∀ problem, decode operators bytes [] [] = .error problem →
        op.reference? = some op.name ∧ operators.find? (Text.dropMark op.name) = none ∧
          problem = .of (.operatorNotFound (Text.dropMark op.name)) := by
  refine ⟨rfl, by simp only [payload_eq_ok_iff, exists_and_left, exists_eq, and_true], ?_⟩
  intro bytes stored
  obtain ⟨⟨supported, fits⟩, rfl⟩ := payload_eq_ok_iff.mp stored
  rw [decode_spelled supported fits, ← reread_eq_self_iff bound supported]
  refine ⟨?_, fun result given => ?_, fun problem failed => ?_⟩
  · cases reread operators op with
    | ok again => simp [Except.map]
    | error problem => simp [Except.map]
  · cases outcome : reread operators op with
    | error problem =>
        rw [outcome] at given
        cases given
    | ok again =>
        rw [outcome] at given
        obtain ⟨native, family, name, described⟩ := reread_agrees supported outcome
        refine ⟨again, (Except.ok.inj given).symm, native, family, name, described, ?_⟩
        intro faithful
        rw [fingerprint_reread_iff bound supported outcome faithful,
          ← reread_eq_self_iff bound supported, outcome]
  · exact reread_fails (map_eq_error_iff.mp failed)

end

def rivals : OperatorRegistry :=
  ⟨[("add", .backend "add" Operator.tupleSignature "" none), ("\uFEFFadd", .makeTuple)], false⟩

theorem faithful_rivals :
    Faithful [(Operator.registered "add"
        (.backend "add" Operator.tupleSignature "" none)).description,
      (Operator.registered "\uFEFFadd" .makeTuple).description] := by
  refine .of_pairwise (by decide) ?_
  rw [List.pairwise_pair]
  unfold Operator.description Fingerprint.Description.fingerprint Fingerprint.ofPreimage
  decide +kernel

theorem operator_reread_rivals : ∃ bytes,
    payload (.registered "\uFEFFadd" .makeTuple) = .ok bytes ∧
    decode rivals bytes [] [] = .ok (some (.operator
      (.registered "add" (.backend "add" Operator.tupleSignature "" none)))) ∧
    (Operator.registered "add" (.backend "add" Operator.tupleSignature "" none)).fingerprint ≠
      (Operator.registered "\uFEFFadd" .makeTuple).fingerprint := by
  have bound : ∀ name target, Operator.registered "\uFEFFadd" .makeTuple = .registered name target →
      rivals.find? name = some target := by
    rintro _ _ ⟨⟩
    rfl
  have short : Fits (.registered "\uFEFFadd" .makeTuple) :=
    show (Text.utf8 "\uFEFFadd").length ≤ Varint.limit by decide
  have supported : Supported (.registered "\uFEFFadd" .makeTuple) := trivial
  have stored := payload_eq supported short
  have decoded : decode rivals _ [] [] = .ok (some (.operator (.registered "add" _))) :=
    decode_spelled supported short
  obtain ⟨-, -, gives⟩ := operator_reread bound
  obtain ⟨-, restores, -⟩ := gives _ stored
  obtain ⟨again, same, -, -, -, -, prints⟩ := restores _ decoded
  obtain rfl := Value.operator.inj (Option.some.inj same)
  refine ⟨_, stored, decoded, fun equal => ?_⟩
  exact absurd ((prints faithful_rivals).mp equal) (by decide : ¬Text.Unmarked "\uFEFFadd")

end OperatorCodec

end ExprWire
