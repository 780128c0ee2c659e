import ExprWire.Codec.Registry
import ExprWire.Proofs.Content
import ExprWire.Proofs.Spelling
/-!
The payloads of values. A payload is the name of its codec and what the codec spells behind it; the
codec of that name restores the value from it, unless the value holds a negative zero of 32 bits, a
text with a leading byte order mark, or an operator that is bound elsewhere.
-/

namespace ExprWire

open Buffer (Writes Refuses)
open Reader (Reads Finishes Ends)

namespace ScalarCodec

def content : Value → Bytes
  | .float32 x => Bytes.littleEndian 4 x.bits.toNat
  | .float64 x => Bytes.littleEndian 8 x.bits.toNat
  | .int32 n => Bytes.littleEndian 4 (n.toInt % (1 <<< (8 * 4) : Nat)).toNat
  | .int64 n => Bytes.littleEndian 8 (n.toInt % (1 <<< (8 * 8) : Nat)).toNat
  | .boolean b => [if b then 1 else 0]
  | .text text => Spelling.text text
  | .bytes bytes => Spelling.blob bytes
  | _ => []

def Fits : Value → Prop
  | .text text => (Text.utf8 text).length ≤ Varint.limit
  | .bytes bytes => bytes.length ≤ Varint.limit
  | _ => True

theorem short_name : (Text.utf8 name).length ≤ Varint.limit := by decide

theorem plain_name : Text.dropMark name = name := by decide

theorem writes_content {v : Value} (fits : Fits v) : Writes (writeContent · v) (content v) := by
  cases v with
  | text text => exact Buffer.writes_text fits
  | bytes bytes => exact Buffer.writes_blob fits
  | unit | tuple fields | operator op => exact Buffer.writes_nothing
  | _ => exact Buffer.writes_append _

theorem refuses_content {v : Value} (unfit : ¬Fits v) : Refuses (writeContent · v) := by
  cases v with
  | text text => exact Buffer.refuses_blob unfit
  | bytes bytes => exact Buffer.refuses_blob unfit
  | _ => exact absurd trivial unfit

theorem payload_eq {code : UInt8} {v : Value} (fits : Fits v) :
    payload code v = .ok (Spelling.text name ++ ([code] ++ content v)) := by
  have run := ((Buffer.writes_text short_name).andThen
    ((Buffer.writes_append [code]).andThen (writes_content fits))).run 32
  rwa [bind_assoc] at run

theorem payload_refused {code : UInt8} {v : Value} (unfit : ¬Fits v) :
    ∃ fault, payload code v = .error (.fault fault) ∧ fault.status = .invalidArgument := by
  have run := ((Buffer.writes_text short_name).andRefuses
    ((Buffer.writes_append [code]).andRefuses (refuses_content unfit))).run 32
  rwa [bind_assoc] at run

def Kept : Value → Prop
  | .int32 n => n ≠ .minusZero
  | .text text => Text.Unmarked text
  | _ => True

def restored : Value → Value
  | .int32 .minusZero => .int32 (.word 0)
  | .text text => .text (Text.dropMark text)
  | v => v

theorem restored_eq_self_iff {v : Value} : restored v = v ↔ Kept v := by
  cases v with
  | int32 n => cases n <;> simp [restored, Kept]
  | text text => exact Value.text.injEq .. ▸ Text.dropMark_eq_self_iff
  | _ => exact ⟨fun _ => trivial, fun _ => rfl⟩

theorem type_restored (v : Value) : (restored v).type = v.type := by
  cases v with
  | int32 n => cases n <;> simp only [restored, Value.type]
  | text text => simp only [restored, Value.type]
  | _ => rfl

theorem reads_value {code : UInt8} {v : Value} (scalar : code? v.type = some code)
    (fits : Fits v) : Reads readValue ([code] ++ content v) (restored v) := by
  cases v <;> simp only [Value.type, code?, Option.some.injEq, reduceCtorEq] at scalar <;>
    subst scalar
  case float32 x => exact (Reader.reads_byte 1).bind (Reader.reads_float32 x).map
  case float64 x => exact (Reader.reads_byte 2).bind (Reader.reads_float64 x).map
  case int32 n =>
    cases n with
    | minusZero => exact (Reader.reads_byte 3).bind (Reader.reads_int32 0).map
    | word n => exact (Reader.reads_byte 3).bind (Reader.reads_int32 n).map
  case int64 n => exact (Reader.reads_byte 4).bind (Reader.reads_int64 n).map
  case boolean b =>
    cases b with
    | false => exact (Reader.reads_byte 5).bind ((Reader.reads_byte 0).bind (Reads.pure false)).map
    | true => exact (Reader.reads_byte 5).bind ((Reader.reads_byte 1).bind (Reads.pure true)).map
  case text text => exact (Reader.reads_byte 6).bind (Reader.reads_text fits).map
  case bytes bytes => exact (Reader.reads_byte 7).bind (Reader.reads_blob fits).map
  case unit => exact (Reader.reads_byte 8).bind (Reads.pure _)

theorem decode_spelled {code : UInt8} {v : Value} (scalar : code? v.type = some code)
    (fits : Fits v) :
    decode (Spelling.text name ++ ([code] ++ content v)) [] [] = .ok (some (restored v)) := by
  have last := (reads_value scalar fits).finish_end (f := some)
  exact ((Reader.reads_tag short_name plain_name).finish last).parse

end ScalarCodec

namespace TupleCodec

theorem short_name : (Text.utf8 name).length ≤ Varint.limit := by decide

theorem plain_name : Text.dropMark name = name := by decide

theorem payload_eq : payload = .ok (Spelling.text name) := (Buffer.writes_text short_name).run 32

theorem decode_payload (fields : List Value) :
    decode (Spelling.text name) fields [] = .ok (some (.tuple fields)) := by
  have last : Finishes (do
      Reader.expectEnd
      return some (Value.tuple fields) : Reader (Option Value)) [] (some (Value.tuple fields)) :=
    Reader.finishes_end (Reader.finishes_pure _)
  have whole := (Reader.reads_tag short_name plain_name).finish (k := fun found => do
    if found then
      Reader.expectEnd
      return some (Value.tuple fields)
    else return none) last
  rw [List.append_nil] at whole
  exact whole.parse

end TupleCodec

theorem Signature.unmarked_spec (signature : Signature) : Text.Unmarked signature.spec := by
  rw [Text.Unmarked, toList_spec]
  cases parts : written signature.positional signature.variadic with
  | nil => exact nofun
  | cons part rest =>
      have solid := solid_written signature
      rw [parts] at solid
      rcases (Text.intercalate_ends solid).1 with ⟨c, head, black⟩
      intro mark
      rw [Option.mem_def.mp head] at mark
      rw [Option.some.inj mark] at black
      exact absurd black (by decide)

namespace OperatorRegistry

variable {operators : OperatorRegistry} {name : String}

theorem lookup_eq_ok_iff {op : Operator} : operators.lookup name = .ok op ↔
    ∃ target, operators.find? name = some target ∧ op = .registered name target := by
  rw [lookup, target]
  cases operators.find? name with
  | none => exact ⟨nofun, fun ⟨_, found, _⟩ => absurd found nofun⟩
  | some bound =>
      constructor
      · exact fun looked => ⟨bound, rfl, (Except.ok.inj looked).symm⟩
      · rintro ⟨_, found, rfl⟩
        rw [← Option.some.inj found]
        rfl

theorem lookup_eq_error_iff {problem : Problem} : operators.lookup name = .error problem ↔
    operators.find? name = none ∧ problem = .of (.operatorNotFound name) := by
  rw [lookup, target]
  cases operators.find? name with
  | none =>
      constructor
      · exact fun failed => ⟨rfl, (Except.error.inj failed).symm⟩
      · rintro ⟨-, rfl⟩
        rfl
  | some bound => exact ⟨nofun, fun ⟨found, _⟩ => absurd found nofun⟩

end OperatorRegistry

namespace OperatorCodec

def Supported : Operator → Prop
  | .backend _ _ _ output => ∀ type ∈ output, (ValueType.ofName? type.name).isSome = true
  | .custom .. => False
  | _ => True

def Fits : Operator → Prop
  | .registered name _ => (Text.utf8 name).length ≤ Varint.limit
  | .backend name signature doc _ =>
      (Text.utf8 name).length ≤ Varint.limit ∧
        (Text.utf8 signature.spec).length ≤ Varint.limit ∧ (Text.utf8 doc).length ≤ Varint.limit
  | _ => True

def content : Operator → Bytes
  | .registered name _ => [1] ++ Spelling.text name
  | .backend name signature doc output =>
      [2] ++ (Spelling.text name ++ (Spelling.text signature.spec ++ (Spelling.text doc ++
        Spelling.text ((output.map ValueType.name).getD ""))))
  | .makeTuple => [3]
  | .custom .. => []

theorem short_name : (Text.utf8 name).length ≤ Varint.limit := by decide

theorem plain_name : Text.dropMark name = name := by decide

theorem plain_of_ofName? {type : ValueType} (found : (ValueType.ofName? type.name).isSome = true) :
    type ∈ ValueType.operator :: ValueType.scalars ∧ ValueType.ofName? type.name = some type := by
  rcases Option.isSome_iff_exists.mp found with ⟨other, search⟩
  have matched : (other.name == type.name) = true :=
    List.find?_some (p := fun candidate : ValueType => candidate.name == type.name) search
  have same : other = type := ValueType.name_injective (eq_of_beq matched)
  rw [same] at search
  exact ⟨List.mem_of_find?_eq_some search, search⟩

theorem plain_type_name {type : ValueType} (plain : type ∈ ValueType.operator :: ValueType.scalars) :
    (Text.utf8 type.name).length ≤ Varint.limit ∧ Text.Unmarked type.name ∧ type.name ≠ "" := by
  have table : ∀ type ∈ ValueType.operator :: ValueType.scalars,
      (Text.utf8 type.name).length ≤ Varint.limit ∧ Text.Unmarked type.name ∧ type.name ≠ "" := by
    decide
  exact table type plain

theorem output_name (op : String) {output : Option ValueType}
    (supported : ∀ type ∈ output, (ValueType.ofName? type.name).isSome = true) :
    outputName op output = .ok ((output.map ValueType.name).getD "") ∧
      (Text.utf8 ((output.map ValueType.name).getD "")).length ≤ Varint.limit ∧
      Text.Unmarked ((output.map ValueType.name).getD "") ∧
      outputType ((output.map ValueType.name).getD "") = .ok output := by
  cases output with
  | none => exact ⟨rfl, by decide, by decide, rfl⟩
  | some type =>
      have found := supported type rfl
      rcases plain_of_ofName? found with ⟨plain, search⟩
      rcases plain_type_name plain with ⟨short, unmarked, nonempty⟩
      rw [Option.map_some, Option.getD_some]
      refine ⟨?_, short, unmarked, ?_⟩
      · rw [outputName, if_pos found]
      · rw [outputType, if_neg nonempty, search]

theorem writes_operator {op : Operator} (supported : Supported op) (fits : Fits op) :
    Writes (writeOperator · op) (content op) := by
  cases op with
  | makeTuple => exact Buffer.writes_append [3]
  | registered name target => exact (Buffer.writes_append [1]).andThen (Buffer.writes_text fits)
  | custom => exact supported.elim
  | backend name signature doc output =>
      rcases output_name name supported with ⟨stored, short, -, -⟩
      have texts := (Buffer.writes_text fits.1).andThen ((Buffer.writes_text fits.2.1).andThen
        ((Buffer.writes_text fits.2.2).andThen (Buffer.writes_text short)))
      intro buffer
      rcases ((Buffer.writes_append [2]).andThen texts) buffer with ⟨after, run, written⟩
      refine ⟨after, ?_, written⟩
      change writeOperator buffer _ = _
      rw [writeOperator, stored]
      exact run

theorem payload_eq {op : Operator} (supported : Supported op) (fits : Fits op) :
    payload op = .ok (Spelling.text name ++ content op) := by
  have run := ((Buffer.writes_text short_name).andThen (writes_operator supported fits)).run 64
  rwa [bind_assoc] at run

theorem refuses_operator {op : Operator} (supported : Supported op) (unfit : ¬Fits op) :
    Refuses (writeOperator · op) := by
  cases op with
  | makeTuple => exact absurd trivial unfit
  | custom => exact supported.elim
  | registered name target => exact Buffer.Refuses.behind (Buffer.refuses_blob unfit) 1
  | backend name signature doc output =>
      rcases output_name name supported with ⟨stored, -, -, -⟩
      -- The first text that is too long is refused, behind those that are written.
      have texts : Refuses fun buffer => buffer.text name >>= fun buffer =>
          buffer.text signature.spec >>= fun buffer => buffer.text doc >>= fun buffer =>
            buffer.text ((output.map ValueType.name).getD "") := by
        by_cases first : (Text.utf8 name).length ≤ Varint.limit
        · refine (Buffer.writes_text first).andRefuses ?_
          by_cases second : (Text.utf8 signature.spec).length ≤ Varint.limit
          · refine (Buffer.writes_text second).andRefuses ?_
            have long : ¬(Text.utf8 doc).length ≤ Varint.limit :=
              fun held => unfit ⟨first, second, held⟩
            exact (Buffer.refuses_blob long).andThen
          · exact (Buffer.refuses_blob second).andThen
        · exact (Buffer.refuses_blob first).andThen
      intro buffer
      rcases Buffer.Refuses.behind texts 2 buffer with ⟨fault, run, status⟩
      refine ⟨fault, ?_, status⟩
      change writeOperator buffer _ = _
      rw [writeOperator, stored]
      exact run

theorem exists_unsupported {op : Operator} (unsupported : ¬Supported op) :
    ∃ fault, (∀ buffer, writeOperator buffer op = .error (.fault fault)) ∧
      fault.status = .unimplemented := by
  cases op with
  | makeTuple => exact absurd trivial unsupported
  | registered => exact absurd trivial unsupported
  | custom family name signature doc => exact ⟨⟨.unsupportedOperator name, []⟩, fun _ => rfl, rfl⟩
  | backend name signature doc output =>
      cases output with
      | none => exact absurd nofun unsupported
      | some type =>
          have unknown : ¬(ValueType.ofName? type.name).isSome = true := by
            intro known
            refine unsupported fun other same => ?_
            rw [← Option.some.inj same]
            exact known
          refine ⟨⟨.unsupportedOutput name type.name, []⟩, fun buffer => ?_, rfl⟩
          rw [writeOperator, outputName, if_neg unknown]
          rfl

theorem payload_unsupported {op : Operator} (unsupported : ¬Supported op) :
    ∃ fault, payload op = .error (.fault fault) ∧ fault.status = .unimplemented := by
  rcases exists_unsupported unsupported with ⟨fault, refused, status⟩
  rcases Buffer.writes_text short_name (.withCapacity 64) with ⟨buffer, started, -⟩
  have opened : payload op = (do return (← writeOperator buffer op).bytes) := by
    have started' : (Buffer.withCapacity 64).text OperatorCodec.name = .ok buffer := started
    rw [payload, started']
    rfl
  refine ⟨fault, ?_, status⟩
  rw [opened, refused buffer]
  rfl

theorem payload_refused {op : Operator} (unfit : ¬(Supported op ∧ Fits op)) :
    ∃ fault, payload op = .error (.fault fault) ∧
      (fault.status = .invalidArgument ∨ fault.status = .unimplemented) := by
  by_cases supported : Supported op
  · have long : ¬Fits op := fun fits => unfit ⟨supported, fits⟩
    rcases ((Buffer.writes_text short_name).andRefuses (refuses_operator supported long)).run 64
      with ⟨fault, run, status⟩
    rw [bind_assoc] at run
    exact ⟨fault, run, .inl status⟩
  · rcases payload_unsupported supported with ⟨fault, refused, status⟩
    exact ⟨fault, refused, .inr status⟩

/-- Whether decoding with a registry of operators restores an operator: a reference is bound there,
and no text begins with the byte order mark. -/
def Kept (operators : OperatorRegistry) : Operator → Prop
  | .registered name target => operators.find? name = some target ∧ Text.Unmarked name
  | .backend name _ doc _ => Text.Unmarked name ∧ Text.Unmarked doc
  | _ => True

/-- What becomes of an operator when it is read back: its name and its doc lose a leading byte order
mark, and a reference is looked up by the name that is left. -/
def reread (operators : OperatorRegistry) : Operator → Outcome Operator
  | .registered name _ => operators.lookup (Text.dropMark name)
  | .backend name signature doc output =>
      .ok (.backend (Text.dropMark name) signature (Text.dropMark doc) output)
  | op => .ok op

theorem reread_of_kept {operators : OperatorRegistry} {op : Operator} (kept : Kept operators op) :
    reread operators op = .ok op := by
  cases op with
  | registered name target =>
      rw [reread, Text.dropMark_eq_self_iff.mpr kept.2]
      exact OperatorRegistry.lookup_eq_ok_iff.mpr ⟨target, kept.1, rfl⟩
  | backend name signature doc output =>
      rw [reread, Text.dropMark_eq_self_iff.mpr kept.1, Text.dropMark_eq_self_iff.mpr kept.2]
  | _ => rfl

theorem ends_operator {operators : OperatorRegistry} {op : Operator} (supported : Supported op)
    (fits : Fits op) : Ends (readOperator operators) (content op) (reread operators op) := by
  have unmarked {text : String} (short : (Text.utf8 text).length ≤ Varint.limit)
      (plain : Text.Unmarked text) : Reads Reader.text (Spelling.text text) text := by
    have read := Reader.reads_text short
    rwa [Text.dropMark_eq_self_iff.mpr plain] at read
  cases op with
  | custom => exact supported.elim
  | makeTuple => exact (Reader.reads_byte 3).ends (Reader.ends_end (Reader.finishes_pure _))
  | registered name target =>
      have last : Ends (do
          Reader.expectEnd
          operators.lookup (Text.dropMark name) : Reader Operator) []
          (operators.lookup (Text.dropMark name)) :=
        Reader.ends_end (Reader.ends_lift _)
      have whole := (Reader.reads_text fits).ends (k := fun name => do
        Reader.expectEnd
        operators.lookup name) last
      rw [List.append_nil] at whole
      exact (Reader.reads_byte 1).ends whole
  | backend name signature doc output =>
      rcases output_name name supported with ⟨-, short, plain, denoted⟩
      have last : Finishes (do
          Reader.expectEnd
          let output ← outputType ((output.map ValueType.name).getD "")
          let signature ← Signature.parse signature.spec
          return .backend (Text.dropMark name) signature (Text.dropMark doc) output :
            Reader Operator) []
          (.backend (Text.dropMark name) signature (Text.dropMark doc) output) :=
        Reader.finishes_end (Finishes.lift denoted (Finishes.lift signature.parse_spec
          (Reader.finishes_pure _)))
      have whole := (unmarked short plain).finish (k := fun word => do
        Reader.expectEnd
        let output ← outputType word
        let signature ← Signature.parse signature.spec
        return Operator.backend (Text.dropMark name) signature (Text.dropMark doc) output) last
      rw [List.append_nil] at whole
      exact (Reader.reads_byte 2).ends ((Reader.reads_text fits.1).ends
        ((unmarked fits.2.1 signature.unmarked_spec).ends
          ((Reader.reads_text fits.2.2).ends whole)))

theorem decode_spelled {operators : OperatorRegistry} {op : Operator} (supported : Supported op)
    (fits : Fits op) :
    decode operators (Spelling.text name ++ content op) [] [] =
      (reread operators op).map fun op => some (.operator op) := by
  have ends : Ends (readOperator operators) (content op) _ := ends_operator supported fits
  have last := ends.andReturn (f := fun op => some (Value.operator op))
  exact (Reader.reads_tag short_name plain_name).ends last 0

end OperatorCodec

namespace Value

def codecName : Value → String
  | .tuple _ => TupleCodec.name
  | .operator _ => OperatorCodec.name
  | _ => ScalarCodec.name

theorem codecName_plain (v : Value) : v.plain.codecName = v.codecName := by
  cases v <;> rfl

def payload : Value → Outcome Bytes
  | .tuple _ => TupleCodec.payload
  | .operator op => OperatorCodec.payload op
  | v => ScalarCodec.payload ((ScalarCodec.code? v.type).getD 0) v

/-- Whether a value is no operator, or one that can be stored. -/
def Supported : Value → Prop
  | .operator op => OperatorCodec.Supported op
  | _ => True

def Fits : Value → Prop
  | .operator op => OperatorCodec.Fits op
  | v => ScalarCodec.Fits v

/-- Whether decoding with a registry of operators restores a value. -/
def Kept (operators : OperatorRegistry) : Value → Prop
  | .operator op => OperatorCodec.Kept operators op
  | v => ScalarCodec.Kept v

def isTuple : Value → Bool
  | .tuple _ => true
  | _ => false

structure Scalar (v : Value) : Prop where
  coded : (ScalarCodec.code? v.type).isSome = true
  name : v.codecName = ScalarCodec.name
  fields : v.fields = []
  stored : v.payload = ScalarCodec.payload ((ScalarCodec.code? v.type).getD 0) v
  supported : v.Supported
  fits : v.Fits = ScalarCodec.Fits v
  kept : ∀ operators, v.Kept operators = ScalarCodec.Kept v

theorem Scalar.exists_code {v : Value} (scalar : v.Scalar) :
    ∃ code, ScalarCodec.code? v.type = some code ∧ v.payload = ScalarCodec.payload code v := by
  rcases Option.isSome_iff_exists.mp scalar.coded with ⟨code, coded⟩
  exact ⟨code, coded, by rw [scalar.stored, coded, Option.getD_some]⟩

theorem tuple_or_operator_or_scalar (v : Value) :
    (∃ fields, v = .tuple fields) ∨ (∃ op, v = .operator op) ∨ v.Scalar := by
  cases v with
  | tuple fields => exact .inl ⟨fields, rfl⟩
  | operator op => exact .inr (.inl ⟨op, rfl⟩)
  | _ =>
      refine .inr (.inr ⟨?_, rfl, rfl, rfl, trivial, rfl, fun _ => rfl⟩)
      rw [type]
      rfl

theorem payload_eq {v : Value} (supported : v.Supported) (fits : v.Fits) :
    ∃ content, v.payload = .ok (Spelling.text v.codecName ++ content) := by
  rcases v.tuple_or_operator_or_scalar with ⟨fields, rfl⟩ | ⟨op, rfl⟩ | scalar
  · exact ⟨[], by rw [List.append_nil]; exact TupleCodec.payload_eq⟩
  · exact ⟨_, OperatorCodec.payload_eq supported fits⟩
  · rcases scalar.exists_code with ⟨code, -, stored⟩
    rw [scalar.fits] at fits
    exact ⟨_, by rw [stored, scalar.name, ScalarCodec.payload_eq fits]⟩

theorem payload_refused {v : Value} (unfit : ¬(v.Supported ∧ v.Fits)) :
    ∃ fault, v.payload = .error (.fault fault) ∧
      (fault.status = .invalidArgument ∨ fault.status = .unimplemented) := by
  rcases v.tuple_or_operator_or_scalar with ⟨fields, rfl⟩ | ⟨op, rfl⟩ | scalar
  · exact absurd ⟨trivial, trivial⟩ unfit
  · exact OperatorCodec.payload_refused unfit
  · rcases scalar.exists_code with ⟨code, -, stored⟩
    have long : ¬ScalarCodec.Fits v := fun held =>
      unfit ⟨scalar.supported, by rw [scalar.fits]; exact held⟩
    rcases ScalarCodec.payload_refused long with ⟨fault, refused, status⟩
    exact ⟨fault, stored.trans refused, .inl status⟩

theorem status_of_refused {v : Value} {problem : Problem} (refused : v.payload = .error problem) :
    ∃ fault, problem = .fault fault ∧
      (fault.status = .invalidArgument ∨ fault.status = .unimplemented) := by
  by_cases storable : v.Supported ∧ v.Fits
  · rcases payload_eq storable.1 storable.2 with ⟨content, stored⟩
    exact absurd (refused.symm.trans stored) nofun
  · rcases payload_refused storable with ⟨fault, refused', status⟩
    exact ⟨fault, Except.error.inj (refused.symm.trans refused'), status⟩

theorem storable_of_payload {v : Value} {bytes : Bytes} (stored : v.payload = .ok bytes) :
    v.Supported ∧ v.Fits := by
  by_cases storable : v.Supported ∧ v.Fits
  · exact storable
  · rcases payload_refused storable with ⟨fault, refused, -⟩
    exact absurd (stored.symm.trans refused) nofun

theorem unsupported_of_refused {v : Value} {problem : Problem} (fits : v.Fits)
    (refused : v.payload = .error problem) :
    ∃ op, v = .operator op ∧ ¬OperatorCodec.Supported op ∧
      ∃ fault, problem = .fault fault ∧ fault.status = .unimplemented := by
  have unsupported : ¬v.Supported := by
    intro supported
    rcases payload_eq supported fits with ⟨content, stored⟩
    exact absurd (refused.symm.trans stored) nofun
  cases v with
  | operator op =>
      rcases OperatorCodec.payload_unsupported unsupported with ⟨fault, refused', status⟩
      exact ⟨op, rfl, unsupported, fault, Except.error.inj (refused.symm.trans refused'), status⟩
  | _ => exact absurd trivial unsupported

theorem tag_payload {v : Value} {bytes : Bytes} (stored : v.payload = .ok bytes) :
    (Reader.tag v.codecName).parse bytes = .ok true := by
  rcases storable_of_payload stored with ⟨supported, fits⟩
  rcases payload_eq supported fits with ⟨content, spelled⟩
  rw [Except.ok.inj (stored.symm.trans spelled)]
  have names : (Text.utf8 v.codecName).length ≤ Varint.limit ∧
      Text.dropMark v.codecName = v.codecName := by
    rcases v.tuple_or_operator_or_scalar with ⟨fields, rfl⟩ | ⟨op, rfl⟩ | scalar
    · exact ⟨TupleCodec.short_name, TupleCodec.plain_name⟩
    · exact ⟨OperatorCodec.short_name, OperatorCodec.plain_name⟩
    · rw [scalar.name]
      exact ⟨ScalarCodec.short_name, ScalarCodec.plain_name⟩
  exact congrArg Prod.fst (Reader.reads_tag names.1 names.2 0 content)

theorem decode_payload {operators : OperatorRegistry} {v : Value} {bytes : Bytes}
    (kept : v.Kept operators) (stored : v.payload = .ok bytes) :
    ∃ decode, (CodecRegistry.standard operators).lookup v.codecName = .ok decode ∧
      decode bytes v.fields [] = .ok (some v) := by
  rcases storable_of_payload stored with ⟨supported, fits⟩
  rcases v.tuple_or_operator_or_scalar with ⟨fields, rfl⟩ | ⟨op, rfl⟩ | scalar
  · refine ⟨TupleCodec.decode, rfl, ?_⟩
    rw [Except.ok.inj (stored.symm.trans TupleCodec.payload_eq)]
    exact TupleCodec.decode_payload fields
  · refine ⟨OperatorCodec.decode operators, rfl, ?_⟩
    rw [Except.ok.inj (stored.symm.trans (OperatorCodec.payload_eq supported fits))]
    refine (OperatorCodec.decode_spelled supported fits).trans ?_
    rw [OperatorCodec.reread_of_kept kept]
    rfl
  · rcases scalar.exists_code with ⟨code, coded, written⟩
    rw [scalar.fits] at fits
    rw [scalar.kept] at kept
    refine ⟨ScalarCodec.decode, by rw [scalar.name]; rfl, ?_⟩
    rw [Except.ok.inj (stored.symm.trans (written.trans (ScalarCodec.payload_eq fits))),
      scalar.fields]
    exact (ScalarCodec.decode_spelled coded fits).trans
      (congrArg (fun v => Except.ok (some v)) (ScalarCodec.restored_eq_self_iff.mpr kept))

theorem standard_encoder (operators : OperatorRegistry) (v : Value) :
    (CodecRegistry.standard operators).encoder v = .ok ⟨some v.codecName, v.isTuple, v.payload⟩ := by
  cases v with
  | tuple fields =>
      have unlisted : (CodecRegistry.standard operators).byType.lookup
          (.tuple (fields.map fun field => field.type)) = none := by
        rw [List.lookup_eq_none_iff]
        intro entry present
        simp only [CodecRegistry.standard, ValueType.scalars, List.map_cons, List.map_nil,
          List.cons_append, List.nil_append, List.mem_cons, List.not_mem_nil, or_false] at present
        rcases present with rfl | rfl | rfl | rfl | rfl | rfl | rfl | rfl | rfl <;>
          exact bne_iff_ne.mpr (by simp)
      rw [CodecRegistry.encoder, CodecRegistry.encoderFor?, Value.type, unlisted]
      rfl
  | operator op => rw [CodecRegistry.encoder, CodecRegistry.encoderFor?, Value.type]; rfl
  | _ =>
      rw [CodecRegistry.encoder, CodecRegistry.encoderFor?, Value.type]
      change ScalarCodec.encode _ = .ok ⟨_, _, ScalarCodec.payload ((ScalarCodec.code?
        (Value.type _)).getD 0) _⟩
      rw [ScalarCodec.encode, Value.type]
      rfl

end Value

end ExprWire
