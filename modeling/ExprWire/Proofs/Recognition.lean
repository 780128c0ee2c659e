import ExprWire.Proofs.History
import ExprWire.Proofs.Payload
import ExprWire.Proofs.Streaming
/-!
How payloads are recognised. A standard codec looks first at the text in front of a payload and
declines the payload unless it finds its own name there, whatever else it is given. So no two codecs
claim the same payload, and a decoder that has loaded standard codecs finds the one that does,
wherever it stands in the table.
-/

namespace ExprWire

namespace Reader

variable {α β : Type} {reader : Reader α} {k : α → Reader β} {cursor : Cursor} {a b : α} {c : β}

def Gives (reader : Reader α) (cursor : Cursor) (a : α) : Prop :=
  ∃ after, reader.run cursor = (.ok a, after)

theorem gives_bind_iff : Gives (reader >>= k) cursor c ↔
    ∃ a after, reader.run cursor = (.ok a, after) ∧ (k a).Gives after c := by
  cases run : reader.run cursor with
  | mk result after =>
      cases result with
      | ok a =>
          rw [Gives, run_bind_ok run]
          constructor
          · exact fun given => ⟨a, after, rfl, given⟩
          · rintro ⟨_, _, same, given⟩
            cases same
            exact given
      | error problem =>
          rw [Gives, run_bind_error run]
          exact ⟨fun ⟨_, same⟩ => absurd same nofun, fun ⟨_, _, same, _⟩ => absurd same nofun⟩

theorem gives_pure_iff : Gives (pure a) cursor b ↔ a = b := by
  constructor
  · rintro ⟨after, run⟩
    exact Except.ok.inj (Prod.mk.inj run).1
  · rintro rfl
    exact ⟨cursor, rfl⟩

theorem not_gives_raise {cause : Cause} : ¬Gives (raise cause : Reader α) cursor a :=
  fun ⟨_, run⟩ => absurd run nofun

theorem gives_lift_iff {outcome : Outcome α} :
    Gives (liftM outcome) cursor a ↔ outcome = .ok a := by
  constructor
  · rintro ⟨after, run⟩
    exact (Prod.mk.inj run).1
  · rintro rfl
    exact ⟨cursor, rfl⟩

end Reader

def Bytes.label? (payload : Bytes) : Option String := (Reader.text.parse payload).toOption

theorem Reader.parse_tagged {α : Type} (name : String) (rest : Reader (Option α))
    (payload : Bytes) :
    (Bytes.label? payload ≠ some name ∧
      parse (do if ← tag name then rest else return none) payload = .ok none) ∨
    (Bytes.label? payload = some name ∧
      ∃ cursor, text.run (.start payload) = (.ok name, cursor) ∧
        parse (do if ← tag name then rest else return none) payload = (rest.run cursor).1) := by
  have label : Bytes.label? payload = (text.run (.start payload)).1.toOption := rfl
  have looked : (tag name).run (.start payload) = tag name (.start payload) := rfl
  rw [tag] at looked
  rw [label]
  cases read : text.run (.start payload) with
  | mk result after =>
      rw [read] at looked
      cases result with
      | error problem =>
          refine .inl ⟨fun named => ?_, ?_⟩
          · cases named
          · rw [parse, run_bind_ok looked]
            rfl
      | ok found =>
          dsimp only at looked
          by_cases same : found = name
          · subst same
            rw [if_pos rfl] at looked
            refine .inr ⟨rfl, after, rfl, ?_⟩
            rw [parse, run_bind_ok looked]
            rfl
          · rw [if_neg same] at looked
            refine .inl ⟨fun named => same (Option.some.inj named), ?_⟩
            rw [parse, run_bind_ok looked]
            rfl

/-- Whether an operator is one that decoding gives: a reference is bound to what it leads to. -/
def Operator.Native (operators : OperatorRegistry) : Operator → Prop
  | .registered name target => operators.find? name = some target
  | op => OperatorCodec.Supported op

/-- Whether a value is one that decoding gives, its fields apart. -/
def Value.Native (operators : OperatorRegistry) : Value → Prop
  | .int32 n => n ≠ .minusZero
  | .operator op => op.Native operators
  | _ => True

/-- What a codec with a name does: it declines what does not bear its name, and makes of the rest a
value that is stored with this codec and with the values given as its fields. Of the expressions it
sees no more than whether there are any. -/
structure Recognises (operators : OperatorRegistry) (name : String) (decode : ValueDecoder) :
    Prop where
  declines {payload : Bytes} (other : Bytes.label? payload ≠ some name) (vs : List Value)
    (es : List Expr) : decode payload vs es = .ok none
  restores {payload : Bytes} {vs : List Value} {es : List Expr} {result : Option Value}
    (own : Bytes.label? payload = some name) (decoded : decode payload vs es = .ok result) :
    ∃ v, result = some v ∧ v.fields = vs ∧ v.codecName = name ∧ v.Native operators
  blind (payload : Bytes) (vs : List Value) {ds es : List Expr} (same : ds.isEmpty = es.isEmpty) :
    decode payload vs ds = decode payload vs es

theorem Recognises.of_tagged {operators : OperatorRegistry} {name : String} {decode : ValueDecoder}
    {rest : List Value → List Expr → Reader (Option Value)}
    (tagged : ∀ payload vs es, decode payload vs es =
      Reader.parse (do if ← Reader.tag name then rest vs es else return none) payload)
    (restores : ∀ {vs es cursor result}, (rest vs es).Gives cursor result →
      ∃ v, result = some v ∧ v.fields = vs ∧ v.codecName = name ∧ v.Native operators)
    (blind : ∀ vs {ds es}, ds.isEmpty = es.isEmpty → rest vs ds = rest vs es) :
    Recognises operators name decode where
  declines {payload} other vs es := by
    rcases Reader.parse_tagged name (rest vs es) payload with ⟨-, declined⟩ | ⟨own, -⟩
    · exact (tagged payload vs es).trans declined
    · exact absurd own other
  restores {payload vs es result} own decoded := by
    rcases Reader.parse_tagged name (rest vs es) payload with
      ⟨other, -⟩ | ⟨-, cursor, -, claimed⟩
    · exact absurd own other
    · rw [tagged, claimed] at decoded
      exact restores ⟨_, Prod.ext decoded rfl⟩
  blind payload vs ds es same := by
    rw [tagged, tagged, blind vs same]

theorem ScalarCodec.native_of_readValue {operators : OperatorRegistry} {cursor : Cursor} {v : Value}
    (read : readValue.Gives cursor v) :
    v.fields = [] ∧ v.codecName = ScalarCodec.name ∧ v.Native operators := by
  rw [readValue, Reader.gives_bind_iff] at read
  obtain ⟨code, after, -, read⟩ := read
  split at read
  case h_8 =>
    cases Reader.gives_pure_iff.mp read
    exact ⟨rfl, rfl, trivial⟩
  case h_9 => exact absurd read Reader.not_gives_raise
  all_goals
    obtain ⟨x, _, -, made⟩ := Reader.gives_bind_iff.mp read
    cases Reader.gives_pure_iff.mp made
    exact ⟨rfl, rfl, by simp [Value.Native]⟩

theorem ScalarCodec.recognises (operators : OperatorRegistry) :
    Recognises operators name decode := by
  refine .of_tagged (fun payload vs es => rfl) ?_ fun vs ds es same => by rw [same]
  intro vs es cursor result given
  cases vs with
  | cons v vs => exact absurd given Reader.not_gives_raise
  | nil =>
      cases es with
      | cons e es => exact absurd given Reader.not_gives_raise
      | nil =>
          obtain ⟨v, after, run, ended⟩ := Reader.gives_bind_iff.mp given
          obtain ⟨_, _, -, made⟩ := Reader.gives_bind_iff.mp ended
          have read : readValue.Gives cursor v := ⟨after, run⟩
          exact ⟨v, (Reader.gives_pure_iff.mp made).symm, native_of_readValue read⟩

theorem TupleCodec.recognises (operators : OperatorRegistry) :
    Recognises operators name decode := by
  refine .of_tagged (fun payload vs es => rfl) ?_ fun vs ds es same => by rw [same]
  intro vs es cursor result given
  obtain ⟨_, _, -, ended⟩ := Reader.gives_bind_iff.mp given
  cases es with
  | cons e es => exact absurd ended Reader.not_gives_raise
  | nil => exact ⟨.tuple vs, (Reader.gives_pure_iff.mp ended).symm, rfl, rfl, trivial⟩

theorem OperatorCodec.supported_of_outputType {word : String} {output : Option ValueType}
    (typed : outputType word = .ok output) :
    ∀ type ∈ output, (ValueType.ofName? type.name).isSome = true := by
  intro type held
  rw [Option.mem_def.mp held, outputType] at typed
  by_cases empty : word = ""
  · rw [if_pos empty] at typed
    cases typed
  · rw [if_neg empty] at typed
    cases found : ValueType.ofName? word with
    | none =>
        rw [found] at typed
        cases typed
    | some other =>
        rw [found] at typed
        have same : other = type := Option.some.inj (Except.ok.inj typed)
        have named : (other.name == word) = true :=
          List.find?_some (p := fun candidate : ValueType => candidate.name == word) found
        rw [← same, eq_of_beq named, found]
        rfl

theorem OperatorCodec.native_of_readOperator {operators : OperatorRegistry} {cursor : Cursor}
    {op : Operator} (read : (readOperator operators).Gives cursor op) : op.Native operators := by
  rw [readOperator, Reader.gives_bind_iff] at read
  obtain ⟨kind, after, -, read⟩ := read
  split at read
  case h_1 =>
    obtain ⟨name, _, -, ended⟩ := Reader.gives_bind_iff.mp read
    obtain ⟨_, _, -, found⟩ := Reader.gives_bind_iff.mp ended
    have looked := Reader.gives_lift_iff.mp found
    obtain ⟨target, bound, rfl⟩ := OperatorRegistry.lookup_eq_ok_iff.mp looked
    exact bound
  case h_2 =>
    obtain ⟨name, _, -, read⟩ := Reader.gives_bind_iff.mp read
    obtain ⟨spec, _, -, read⟩ := Reader.gives_bind_iff.mp read
    obtain ⟨doc, _, -, read⟩ := Reader.gives_bind_iff.mp read
    obtain ⟨word, _, -, read⟩ := Reader.gives_bind_iff.mp read
    obtain ⟨_, _, -, read⟩ := Reader.gives_bind_iff.mp read
    obtain ⟨output, _, typed, read⟩ := Reader.gives_bind_iff.mp read
    obtain ⟨signature, _, -, made⟩ := Reader.gives_bind_iff.mp read
    rw [← Reader.gives_pure_iff.mp made]
    exact supported_of_outputType (Reader.gives_lift_iff.mp ⟨_, typed⟩)
  case h_3 =>
    obtain ⟨_, _, -, made⟩ := Reader.gives_bind_iff.mp read
    rw [← Reader.gives_pure_iff.mp made]
    exact trivial
  case h_4 => exact absurd read Reader.not_gives_raise

theorem OperatorCodec.recognises (operators : OperatorRegistry) :
    Recognises operators name (decode operators) := by
  refine .of_tagged (fun payload vs es => rfl) ?_ fun vs ds es same => by rw [same]
  intro vs es cursor result given
  cases vs with
  | cons v vs => exact absurd given Reader.not_gives_raise
  | nil =>
      cases es with
      | cons e es => exact absurd given Reader.not_gives_raise
      | nil =>
          obtain ⟨op, after, run, made⟩ := Reader.gives_bind_iff.mp given
          have native := native_of_readOperator ⟨after, run⟩
          exact ⟨.operator op, (Reader.gives_pure_iff.mp made).symm, rfl, rfl, native⟩

theorem CodecRegistry.lookup_standard {operators : OperatorRegistry} {name : String}
    {decode : ValueDecoder} (found : (standard operators).lookup name = .ok decode)
    {motive : String → ValueDecoder → Prop}
    (scalar : motive ScalarCodec.name ScalarCodec.decode)
    (tuple : motive TupleCodec.name TupleCodec.decode)
    (operator : motive OperatorCodec.name (OperatorCodec.decode operators)) :
    motive name decode := by
  rw [lookup] at found
  cases listed : (standard operators).decoders.lookup name with
  | none => exact absurd (listed ▸ found) nofun
  | some other =>
      rw [listed] at found
      rw [← Except.ok.inj found]
      obtain ⟨before, behind, entries, -⟩ := List.lookup_eq_some_iff.mp listed
      have entry : (name, other) ∈ (standard operators).decoders := by
        rw [entries]
        exact List.mem_append_right _ List.mem_cons_self
      simp only [standard, List.mem_cons, List.not_mem_nil, or_false, Prod.mk.injEq] at entry
      rcases entry with ⟨rfl, rfl⟩ | ⟨rfl, rfl⟩ | ⟨rfl, rfl⟩
      · exact scalar
      · exact tuple
      · exact operator

theorem recognises_of_lookup {operators : OperatorRegistry} {name : String} {decode : ValueDecoder}
    (found : (CodecRegistry.standard operators).lookup name = .ok decode) :
    Recognises operators name decode :=
  CodecRegistry.lookup_standard found (ScalarCodec.recognises operators)
    (TupleCodec.recognises operators) (OperatorCodec.recognises operators)

namespace Decoder

variable {operators : OperatorRegistry} {decoder after : Decoder} {step : Step} {steps : List Step}
  {effect : Effect} {payload : Bytes} {vs : List Value} {es : List Expr} {v : Value}

structure Equipped (operators : OperatorRegistry) (decoder : Decoder) : Prop where
  lookup : decoder.lookup = (CodecRegistry.standard operators).lookup
  loaded : ∀ codec ∈ decoder.codecs.toList,
    (CodecRegistry.standard operators).lookup codec.name = .ok codec.decode

theorem equipped_start (operators : OperatorRegistry) (options : Options) :
    Equipped operators (.start (CodecRegistry.standard operators).lookup options) :=
  ⟨rfl, fun _ present => absurd present List.not_mem_nil⟩

theorem mem_codecs_grow {codec : LoadedCodec} : codec ∈ (decoder.grow effect).codecs.toList ↔
    codec ∈ decoder.codecs.toList ∨ effect = .codec codec := by
  cases effect with
  | codec loaded =>
      change codec ∈ (decoder.codecs.push loaded).toList ↔ _
      simp [eq_comm]
  | _ => exact (or_iff_left nofun).symm

theorem Equipped.grow [Extension] (equipped : Equipped operators decoder)
    (settles : decoder.Settles decoder.size step effect) :
    Equipped operators (decoder.grow effect) := by
  refine ⟨(lookup_grow effect).trans equipped.lookup, fun codec present => ?_⟩
  rcases mem_codecs_grow.mp present with old | rfl
  · exact equipped.loaded codec old
  · cases settles with
    | codec vacant found => exact equipped.lookup ▸ found

theorem Equipped.run [Extension] (equipped : Equipped operators decoder)
    (run : Run decoder steps after) :
    Equipped operators after := by
  induction run with
  | done decoder => exact equipped
  | next settles rest ih => exact ih (equipped.grow settles)

theorem tryCodec_eq_ok_iff {slot : Nat} {codec : LoadedCodec} {result : Option Value} :
    tryCodec slot codec payload vs es = .ok result ↔ codec.decode payload vs es = .ok result :=
  annotate_eq_ok_iff

theorem decodeValue_some_eq_ok_iff {index : Number} :
    decoder.decodeValue (some index) payload vs es = .ok v ↔
      ∃ slot codec, index = .ofNat slot ∧ decoder.codecs[slot]? = some codec ∧
        codec.decode payload vs es = .ok (some v) := by
  rw [decodeValue]
  constructor
  · intro decoded
    cases chosen : index.toNat?.bind fun slot => decoder.codecs[slot]?.map (slot, ·) with
    | none =>
        simp only [chosen] at decoded
        cases decoded
    | some entry =>
        obtain ⟨slot, denoted, found⟩ := Option.bind_eq_some_iff.mp chosen
        obtain ⟨codec, held, rfl⟩ := Option.map_eq_some_iff.mp found
        simp only [chosen] at decoded
        obtain ⟨result, tried, rest⟩ := bind_eq_ok_iff.mp decoded
        cases result with
        | none => cases rest
        | some u =>
            rw [Except.ok.inj rest] at tried
            exact ⟨slot, codec, Number.toNat?_eq_some_iff.mp denoted, held,
              tryCodec_eq_ok_iff.mp tried⟩
  · rintro ⟨slot, codec, rfl, held, decoded⟩
    have chosen : ((Number.ofNat slot).toNat?.bind fun slot =>
        decoder.codecs[slot]?.map (slot, ·)) = some (slot, codec) := by
      rw [Number.toNat?_eq_some_iff.mpr rfl, Option.bind_some, held, Option.map_some]
    simp only [chosen]
    exact bind_eq_ok_iff.mpr ⟨some v, tryCodec_eq_ok_iff.mpr decoded, rfl⟩

theorem tryCodecs_eq_ok_iff {codecs : List LoadedCodec}
    (standard : ∀ codec ∈ codecs,
      (CodecRegistry.standard operators).lookup codec.name = .ok codec.decode) (slot : Nat) :
    tryCodecs payload vs es slot codecs = .ok v ↔
      ∃ codec ∈ codecs, codec.decode payload vs es = .ok (some v) := by
  induction codecs generalizing slot with
  | nil => exact ⟨nofun, fun ⟨_, present, _⟩ => absurd present List.not_mem_nil⟩
  | cons codec codecs ih =>
      have others := ih (fun other present => standard other (List.mem_cons_of_mem _ present))
        (slot + 1)
      have recognises := recognises_of_lookup (standard codec List.mem_cons_self)
      rw [tryCodecs]
      by_cases own : Bytes.label? payload = some codec.name
      · constructor
        · intro decoded
          obtain ⟨result, tried, rest⟩ := bind_eq_ok_iff.mp decoded
          have here := tryCodec_eq_ok_iff.mp tried
          obtain ⟨u, rfl, -⟩ := recognises.restores own here
          rw [Except.ok.inj rest] at here
          exact ⟨codec, List.mem_cons_self, here⟩
        · rintro ⟨other, present, decoded⟩
          -- A codec that restores the payload has the name that the payload bears.
          have named : other.name = codec.name := by
            by_contra apart
            have declined := (recognises_of_lookup (standard other present)).declines
              (fun label => apart (Option.some.inj (label.symm.trans own))) vs es
            exact absurd (declined.symm.trans decoded) nofun
          have same : other.decode = codec.decode := Except.ok.inj <|
            (standard other present).symm.trans
              ((congrArg _ named).trans (standard codec List.mem_cons_self))
          rw [same] at decoded
          exact bind_eq_ok_iff.mpr ⟨some v, tryCodec_eq_ok_iff.mpr decoded, rfl⟩
      · have declined := recognises.declines own vs es
        have skipped : tryCodec slot codec payload vs es = .ok none :=
          tryCodec_eq_ok_iff.mpr declined
        rw [skipped]
        refine others.trans ⟨?_, ?_⟩
        · rintro ⟨other, present, decoded⟩
          exact ⟨other, List.mem_cons_of_mem _ present, decoded⟩
        · rintro ⟨other, present, decoded⟩
          rcases List.mem_cons.mp present with rfl | later
          · exact absurd (declined.symm.trans decoded) nofun
          · exact ⟨other, later, decoded⟩

theorem Equipped.decodeValue_none_eq_ok_iff (equipped : Equipped operators decoder) :
    decoder.decodeValue none payload vs es = .ok v ↔
      ∃ codec ∈ decoder.codecs.toList, codec.decode payload vs es = .ok (some v) :=
  tryCodecs_eq_ok_iff equipped.loaded 0

theorem Equipped.exists_codec (equipped : Equipped operators decoder) {chosen : Option Number}
    (decoded : decoder.decodeValue chosen payload vs es = .ok v) :
    ∃ codec ∈ decoder.codecs.toList, codec.decode payload vs es = .ok (some v) := by
  cases chosen with
  | none => exact equipped.decodeValue_none_eq_ok_iff.mp decoded
  | some index =>
      obtain ⟨slot, codec, -, held, decodes⟩ := decodeValue_some_eq_ok_iff.mp decoded
      exact ⟨codec, Array.mem_toList_iff.mpr (Array.mem_of_getElem? held), decodes⟩

theorem Equipped.restored (equipped : Equipped operators decoder) {codec : LoadedCodec}
    (present : codec ∈ decoder.codecs.toList)
    (decoded : codec.decode payload vs es = .ok (some v)) :
    v.fields = vs ∧ v.codecName = codec.name ∧ v.Native operators := by
  have recognises := recognises_of_lookup (equipped.loaded codec present)
  by_cases own : Bytes.label? payload = some codec.name
  · obtain ⟨u, same, known⟩ := recognises.restores own decoded
    rw [Option.some.inj same]
    exact known
  · exact absurd ((recognises.declines own vs es).symm.trans decoded) nofun

theorem Equipped.decodeValue_blind (equipped : Equipped operators decoder) {ds : List Expr}
    (same : ds.isEmpty = es.isEmpty) (chosen : Option Number)
    (decoded : decoder.decodeValue chosen payload vs ds = .ok v) :
    decoder.decodeValue chosen payload vs es = .ok v := by
  have blind {codec : LoadedCodec} (present : codec ∈ decoder.codecs.toList) :
      codec.decode payload vs ds = codec.decode payload vs es :=
    (recognises_of_lookup (equipped.loaded codec present)).blind payload vs same
  cases chosen with
  | none =>
      obtain ⟨codec, present, decodes⟩ := equipped.decodeValue_none_eq_ok_iff.mp decoded
      exact equipped.decodeValue_none_eq_ok_iff.mpr ⟨codec, present, blind present ▸ decodes⟩
  | some index =>
      obtain ⟨slot, codec, denoted, held, decodes⟩ := decodeValue_some_eq_ok_iff.mp decoded
      have present := Array.mem_toList_iff.mpr (Array.mem_of_getElem? held)
      exact decodeValue_some_eq_ok_iff.mpr
        ⟨slot, codec, denoted, held, blind present ▸ decodes⟩

end Decoder

end ExprWire
