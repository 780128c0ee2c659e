import ExprWire.Container.Json
import ExprWire.Proofs.Base64
import ExprWire.Proofs.Layout
/-!
The JSON form of containers. What a container of integers is rendered to is read as that container,
and nothing is read but containers of integers.
-/

namespace ExprWire

def Number.Whole (x : Number) : Prop := ∃ n : Int, x = .whole n

def Step.Integral (step : Step) : Prop := step.Formed ∧ ∀ x ∈ step.numbers, x.Whole

/-- Whether all steps are of known kinds and all numbers are integers. -/
def Container.Integral (container : Container) : Prop :=
  container.Formed ∧ ∀ x ∈ container.numbers, x.Whole

namespace Schema

variable {α : Type} {check : Json → Checked α} {toJson : α → Json}

theorem items_map {as : List α} (index : Nat) (each : ∀ a ∈ as, check (toJson a) = .ok a) :
    items check index (as.map toJson) = .ok as := by
  induction as generalizing index with
  | nil => rfl
  | cons a as ih =>
      have others := ih (index + 1) fun other later => each other (List.mem_cons_of_mem _ later)
      rw [List.map_cons, items, each a List.mem_cons_self]
      change (items check (index + 1) (as.map toJson) >>= fun as => Except.ok (a :: as)) = _
      rw [others]
      rfl

theorem list_map {as : List α} (each : ∀ a ∈ as, check (toJson a) = .ok a) :
    list check (.array (as.map toJson)) = .ok as :=
  items_map 0 each

theorem integer_number {x : Number} (whole : x.Whole) : integer (.number x) = .ok x := by
  rcases whole with ⟨n, rfl⟩
  rfl

theorem optional_number {x? : Option Number} (whole : ∀ x ∈ x?, x.Whole) :
    optional integer (x?.map .number) = .ok x? := by
  cases x? with
  | none => rfl
  | some x =>
      rcases whole x rfl with ⟨n, rfl⟩
      rfl

theorem indices_ofNumbers {xs : List Number} (whole : ∀ x ∈ xs, x.Whole) :
    indices (some (.ofNumbers xs)) = .ok xs :=
  list_map fun x listed => integer_number (whole x listed)

theorem base64_text (text : String) : base64 (.text text) =
    (Text.Base64.decode? text).elim (refuse .notBase64) .ok := by
  simp only [base64, Schema.text, bind, Except.bind]
  cases Text.Base64.decode? text <;> rfl

theorem base64_eq_ok_iff {text : String} {payload : Bytes} :
    base64 (.text text) = .ok payload ↔ Text.Base64.decode? text = some payload := by
  rw [base64_text]
  cases Text.Base64.decode? text <;> simp [refuse]

theorem member_bind {β : Type} {json : Json} {name : String} {check : Option Json → Checked α}
    {a : α} (rest : α → Checked β) (read : check (json.member? name) = .ok a) :
    (member json name check >>= rest) = rest a := by
  rw [member, read]
  rfl

theorem step_toJson {step : Step} (integral : step.Integral) :
    Schema.step step.toJson = .ok step := by
  rcases integral with ⟨formed, whole⟩
  cases step with
  | malformed kind => exact formed.elim
  | codec text | leaf text | placeholder text => rfl
  | literal index | outputValue index | outputExpr index =>
      exact member_bind _ (integer_number (whole index List.mem_cons_self))
  | apply operator deps =>
      rcases List.forall_mem_cons.mp whole with ⟨operatorWhole, depsWhole⟩
      exact (member_bind _ (integer_number operatorWhole)).trans
        (member_bind _ (indices_ofNumbers depsWhole))
  | value payload slot values exprs =>
      simp only [Step.numbers, List.forall_mem_append, Option.mem_toList] at whole
      rcases whole with ⟨slotWhole, valuesWhole, exprsWhole⟩
      have payloadRead := base64_eq_ok_iff.mpr (Text.Base64.decode?_encode payload)
      have slotRead := optional_number slotWhole
      have valuesRead := indices_ofNumbers valuesWhole
      have exprsRead := indices_ofNumbers exprsWhole
      -- Whether there is a slot decides where the lists stand among the members.
      cases slot <;>
        exact (member_bind _ payloadRead).trans ((member_bind _ slotRead).trans
          ((member_bind _ valuesRead).trans (member_bind _ exprsRead)))

theorem container_toJson {container : Container} (integral : container.Integral) :
    Schema.container container.toJson = .ok container := by
  rcases container with ⟨version, steps, outputValues, outputExprs⟩
  rcases integral with ⟨formed, whole⟩
  simp only [Container.numbers, List.forall_mem_append, List.forall_mem_flatMap,
    Option.mem_toList] at whole
  rcases whole with ⟨versionWhole, stepsWhole, valuesWhole, exprsWhole⟩
  have versionRead := optional_number versionWhole
  have stepsRead : list Schema.step (.array (steps.map Step.toJson)) = .ok steps :=
    list_map fun step present => step_toJson ⟨formed step present, stepsWhole step present⟩
  have valuesRead := indices_ofNumbers valuesWhole
  have exprsRead := indices_ofNumbers exprsWhole
  cases version <;>
    exact (member_bind _ versionRead).trans ((member_bind _ stepsRead).trans
      ((member_bind _ valuesRead).trans (member_bind _ exprsRead)))

end Schema

namespace Schema

variable {α β : Type} {P : α → Prop} {Q : β → Prop}

def Yields (P : α → Prop) (checked : Checked α) : Prop := ∀ a, checked = .ok a → P a

theorem yields_error (issue : Issue) : Yields P (.error issue) := nofun

theorem yields_pure {a : α} (held : P a) : Yields P (pure a) := by
  rintro _ ⟨⟩
  exact held

theorem Yields.bind {checked : Checked α} {next : α → Checked β} (first : Yields P checked)
    (others : ∀ a, P a → Yields Q (next a)) : Yields Q (checked >>= next) := by
  cases checked with
  | error issue => exact yields_error issue
  | ok a => exact others a (first a rfl)

theorem Yields.inside {place : Place} {checked : Checked α} (held : Yields P checked) :
    Yields P (inside place checked) := by
  cases checked with
  | error issue => exact yields_error (issue.under place)
  | ok a => exact held

section

variable {check : Json → Checked α} (each : ∀ json, Yields P (check json))

include each

theorem yields_items (index : Nat) (jsons : List Json) :
    Yields (fun as => ∀ a ∈ as, P a) (items check index jsons) := by
  induction jsons generalizing index with
  | nil => exact yields_pure (List.forall_mem_nil _)
  | cons json jsons ih =>
      exact (each json).inside.bind fun a first => (ih (index + 1)).bind fun as others =>
        yields_pure (List.forall_mem_cons.mpr ⟨first, others⟩)

theorem yields_list (found : Option Json) :
    Yields (fun as => ∀ a ∈ as, P a) (withDefault [] (list check) found) := by
  cases found with
  | none => exact yields_pure (List.forall_mem_nil _)
  | some json =>
      cases json with
      | array jsons => exact yields_items each 0 jsons
      | _ => exact yields_error _

theorem yields_required (label : String) (found : Option Json) :
    Yields P (required label check found) := by
  cases found with
  | none => exact yields_error _
  | some json => exact each json

theorem yields_optional (found : Option Json) :
    Yields (fun a? => ∀ a ∈ a?, P a) (optional check found) := by
  cases found with
  | none => exact yields_pure (by simp)
  | some json =>
      refine (each json).bind fun a held => yields_pure ?_
      rintro _ ⟨⟩
      exact held

end

theorem yields_integer (json : Json) : Yields Number.Whole (integer json) := by
  unfold integer
  split
  · exact yields_pure ⟨_, rfl⟩
  · exact yields_error _
  · exact yields_error _

theorem yields_textStep {checked : Checked String} {toStep : String → Step}
    (shape : ∀ text, (toStep text).Formed ∧ (toStep text).numbers = []) :
    Yields Step.Integral (checked >>= fun text => pure (toStep text)) := by
  refine Yields.bind (fun _ _ => trivial) fun text (_ : True) => yields_pure ⟨(shape text).1, ?_⟩
  rw [(shape text).2]
  exact List.forall_mem_nil _

theorem yields_numberStep {checked : Checked Number} {toStep : Number → Step}
    (read : Yields Number.Whole checked)
    (shape : ∀ x, (toStep x).Formed ∧ (toStep x).numbers = [x]) :
    Yields Step.Integral (checked >>= fun x => pure (toStep x)) := by
  refine read.bind fun x whole => yields_pure ⟨(shape x).1, ?_⟩
  rw [(shape x).2]
  exact List.forall_mem_singleton.mpr whole

theorem yields_step (json : Json) : Yields Step.Integral (Schema.step json) := by
  have position (label : String) (found : Option Json) :=
    yields_required yields_integer label found
  have positions (found : Option Json) := yields_list yields_integer found
  cases json with
  | object members =>
      dsimp only [Schema.step]
      split
      · exact yields_textStep fun name => ⟨trivial, rfl⟩
      · refine Yields.bind (fun _ _ => trivial) fun payload (_ : True) => ?_
        refine (yields_optional yields_integer _).inside.bind fun slot slotWhole => ?_
        refine (positions _).inside.bind fun values valuesWhole => ?_
        refine (positions _).inside.bind fun exprs exprsWhole => yields_pure ⟨trivial, ?_⟩
        simp only [Step.numbers, List.forall_mem_append, Option.mem_toList]
        exact ⟨slotWhole, valuesWhole, exprsWhole⟩
      · exact yields_numberStep (position _ _).inside fun index => ⟨trivial, rfl⟩
      · exact yields_textStep fun key => ⟨trivial, rfl⟩
      · exact yields_textStep fun key => ⟨trivial, rfl⟩
      · refine (position _ _).inside.bind fun operator operatorWhole => ?_
        refine (positions _).inside.bind fun deps depsWhole => yields_pure ⟨trivial, ?_⟩
        exact List.forall_mem_cons.mpr ⟨operatorWhole, depsWhole⟩
      · exact yields_numberStep (position _ _).inside fun index => ⟨trivial, rfl⟩
      · exact yields_numberStep (position _ _).inside fun index => ⟨trivial, rfl⟩
      · exact yields_error _
  | _ => exact yields_error _

theorem yields_container (json : Json) : Yields Container.Integral (Schema.container json) := by
  have positions (found : Option Json) := yields_list yields_integer found
  cases json with
  | object members =>
      dsimp only [Schema.container]
      refine (yields_optional yields_integer _).inside.bind fun version versionWhole => ?_
      refine (yields_list yields_step _).inside.bind fun steps held => ?_
      refine (positions _).inside.bind fun values valuesWhole => ?_
      refine (positions _).inside.bind fun exprs exprsWhole => yields_pure ⟨?_, ?_⟩
      · exact fun step present => (held step present).1
      · simp only [Container.numbers, List.forall_mem_append, List.forall_mem_flatMap,
          Option.mem_toList]
        exact ⟨versionWhole, fun step present => (held step present).2, valuesWhole, exprsWhole⟩
  | _ => exact yields_error _

end Schema

namespace Container

theorem ofJson_eq_ok_iff {json : Json} {container : Container} :
    ofJson (some json) = .ok container ↔ Schema.container json = .ok container := by
  rw [ofJson]
  cases Schema.container json with
  | error issue => simp
  | ok other => simp

/-- A container is rendered to JSON that is read as that container exactly if its steps are of known
kinds and its numbers are integers. Payloads of every length survive in base64, which is read in
whole groups of digits and in no other texts. -/
theorem render_then_parse (container : Container) :
    (ofJson (some container.toJson) = .ok container ↔
      container.Formed ∧ ∀ x ∈ container.numbers, x.Whole) ∧
    (∀ payload : Bytes, Text.Base64.Groups (Text.Base64.encode payload).toList ∧
      Schema.base64 (.text (Text.Base64.encode payload)) = .ok payload) ∧
    ∀ text : String, (∃ payload, Schema.base64 (.text text) = .ok payload) ↔
      Text.Base64.Groups text.toList := by
  refine ⟨ofJson_eq_ok_iff.trans ⟨?_, ?_⟩, fun payload => ⟨?_, ?_⟩, fun text => ?_⟩
  · exact Schema.yields_container _ container
  · exact Schema.container_toJson
  · exact Text.Base64.groups_encode payload
  · exact Schema.base64_eq_ok_iff.mpr (Text.Base64.decode?_encode payload)
  · simp only [Schema.base64_eq_ok_iff]
    exact Text.Base64.exists_decode?_iff text

end Container

end ExprWire
