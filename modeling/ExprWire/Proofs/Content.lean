import ExprWire.Expr
import ExprWire.Proofs.Framing
import ExprWire.Proofs.Rounding
import ExprWire.Proofs.SignatureGrammar
import ExprWire.Proofs.TypeNames
/-!
What values and expressions consist of, and what of it their fingerprints cover. `parts` lists a
thing with everything nested in it; `plain` forgets what no fingerprint covers, which is the target
of a reference and the attributes of an application. Under a faithful digest, things with the same
fingerprint are plainly the same.
-/

namespace ExprWire

open Fingerprint (Description)

namespace Operator

/-- What a fingerprint covers of an operator: of a reference its name, of others what they describe
themselves by, whichever class they are of. -/
def plain : Operator → Operator
  | .registered name _ => .registered name .makeTuple
  | operator =>
      .custom operator.family operator.name operator.signature operator.doc operator.ownFields

def description : Operator → Description
  | .registered name _ => ⟨"RegisteredOperator", [.text name]⟩
  | operator =>
      ⟨"ExprOperator", .text operator.family :: .text operator.name ::
        .text operator.signature.spec :: .text operator.doc :: operator.ownFields⟩

theorem fingerprint_eq (operator : Operator) :
    operator.fingerprint = operator.description.fingerprint := by
  cases operator <;> rfl

theorem description_plain (operator : Operator) :
    operator.plain.description = operator.description := by
  cases operator <;> rfl

theorem fingerprint_plain (operator : Operator) :
    operator.plain.fingerprint = operator.fingerprint := by
  rw [fingerprint_eq, fingerprint_eq, description_plain]

theorem outputName_injective {left right : Option ValueType}
    (same : (left.map ValueType.name).getD "" = (right.map ValueType.name).getD "") :
    left = right := by
  have nonempty (type : ValueType) : type.name ≠ "" := by
    intro empty
    have := type.name_head_ne (.inl rfl) [','] []
    rw [empty] at this
    exact this rfl
  cases left with
  | none =>
      cases right with
      | none => rfl
      | some type => exact absurd same.symm (nonempty type)
  | some type =>
      cases right with
      | none => exact absurd same (nonempty type)
      | some other => exact congrArg some (ValueType.name_injective same)

theorem plain_backend_iff {name other : String} {signature signature' : Signature}
    {doc doc' : String} {output output' : Option ValueType} :
    (backend name signature doc output).plain = (backend other signature' doc' output').plain ↔
      backend name signature doc output = backend other signature' doc' output' := by
  refine ⟨fun same => ?_, congrArg plain⟩
  obtain ⟨-, names, signatures, docs, own, -⟩ := custom.inj same
  have outputs := outputName_injective (Fingerprint.Field.text.inj (List.cons.inj own).1)
  rw [backend.injEq]
  exact ⟨names, signatures, docs, outputs⟩

theorem plain_eq_of_description_eq {left right : Operator}
    (same : left.description = right.description) : left.plain = right.plain := by
  cases left <;> cases right <;>
    simp only [description, Description.mk.injEq, List.cons.injEq, Fingerprint.Field.text.injEq,
      String.reduceEq, and_true, false_and, true_and] at same
  case registered.registered => exact congrArg (registered · makeTuple) same
  case makeTuple.makeTuple => rfl
  all_goals
    rcases same with ⟨families, names, specs, docs, own⟩
    simp only [plain, families, names, Signature.spec_injective specs, docs, own]

end Operator

theorem map_eq_of_map_eq {α β γ : Type} {f : α → β} {g : α → γ} {xs ys : List α}
    (same : xs.map f = ys.map f) (finer : ∀ x ∈ xs, ∀ y ∈ ys, f x = f y → g x = g y) :
    xs.map g = ys.map g := by
  induction xs generalizing ys with
  | nil =>
      cases ys with
      | nil => rfl
      | cons y ys => exact absurd same.symm (List.cons_ne_nil _ _)
  | cons x xs ih =>
      cases ys with
      | nil => exact absurd same (List.cons_ne_nil _ _)
      | cons y ys =>
          rcases List.cons.inj same with ⟨heads, tails⟩
          have later := ih tails fun a left b right =>
            finer a (List.mem_cons_of_mem _ left) b (List.mem_cons_of_mem _ right)
          rw [List.map_cons, List.map_cons, later,
            finer x List.mem_cons_self y List.mem_cons_self heads]

theorem eq_of_map_eq {α β : Type} {f : α → β} {xs ys : List α} (same : xs.map f = ys.map f)
    (finer : ∀ x ∈ xs, ∀ y ∈ ys, f x = f y → x = y) : xs = ys := by
  simpa using map_eq_of_map_eq (g := id) same finer

theorem Fingerprint.Field.ofFingerprint_injective {left right : Fingerprint}
    (same : Field.ofFingerprint left = Field.ofFingerprint right) : left = right := by
  cases left
  cases right
  exact congrArg Fingerprint.mk (Field.digits.inj same)

namespace Value

def fields : Value → List Value
  | .tuple fields => fields
  | _ => []

def operator? : Value → Option Operator
  | .operator op => some op
  | _ => none

theorem byFields {motive : Value → Prop}
    (step : ∀ v, (∀ field ∈ v.fields, motive field) → motive v) (v : Value) : motive v := by
  have single (v : Value) (none : v.fields = []) : motive v :=
    step v fun field present => absurd (none ▸ present) List.not_mem_nil
  exact Value.rec (motive_1 := motive) (motive_2 := fun vs => ∀ field ∈ vs, motive field)
    (fun _ => single _ rfl) (fun _ => single _ rfl) (fun _ => single _ rfl) (fun _ => single _ rfl)
    (fun _ => single _ rfl) (fun _ => single _ rfl) (fun _ => single _ rfl) (single _ rfl)
    (fun _ known => step _ known) (fun _ => single _ rfl)
    (fun _ present => absurd present List.not_mem_nil)
    (fun _ _ first others field present => by
      rcases List.mem_cons.mp present with rfl | later
      · exact first
      · exact others field later)
    v

mutual

def parts : Value → List Value
  | .tuple fields => .tuple fields :: partsAll fields
  | v => [v]

def partsAll : List Value → List Value
  | [] => []
  | v :: vs => parts v ++ partsAll vs

end

theorem partsAll_eq (vs : List Value) : partsAll vs = vs.flatMap parts := by
  induction vs with
  | nil => rfl
  | cons v vs ih => rw [partsAll, ih, List.flatMap_cons]

theorem parts_eq (v : Value) : v.parts = v :: v.fields.flatMap parts := by
  cases v with
  | tuple fields => rw [parts, partsAll_eq, Value.fields]
  | _ => rfl

theorem self_mem_parts (v : Value) : v ∈ v.parts := by
  rw [parts_eq]
  exact List.mem_cons_self

theorem mem_parts_of_field {v field u : Value} (nested : field ∈ v.fields) (part : u ∈ field.parts) :
    u ∈ v.parts := by
  rw [parts_eq]
  exact List.mem_cons_of_mem _ (List.mem_flatMap.mpr ⟨field, nested, part⟩)

theorem mem_of_mem_parts {values : List Value}
    (closed : ∀ v ∈ values, ∀ field ∈ v.fields, field ∈ values) {v u : Value} (present : v ∈ values)
    (part : u ∈ v.parts) : u ∈ values := by
  induction v using byFields with
  | step v ih =>
      rw [parts_eq] at part
      rcases List.mem_cons.mp part with rfl | nested
      · exact present
      · rcases List.mem_flatMap.mp nested with ⟨field, listed, inside⟩
        exact ih field listed (closed v present field listed) inside

theorem fields_mem_parts {v u field : Value} (part : u ∈ v.parts) (nested : field ∈ u.fields) :
    field ∈ v.parts := by
  induction v using byFields with
  | step v ih =>
      rw [parts_eq] at part
      rcases List.mem_cons.mp part with rfl | inside
      · exact mem_parts_of_field nested field.self_mem_parts
      · rcases List.mem_flatMap.mp inside with ⟨outer, listed, inside⟩
        exact mem_parts_of_field listed (ih outer listed inside)

theorem length_parts_field_lt {v field : Value} (nested : field ∈ v.fields) :
    field.parts.length < v.parts.length := by
  have piece := (List.sublist_flatten_of_mem (List.mem_map_of_mem (f := parts) nested)).length_le
  rw [parts_eq v, List.length_cons, List.flatMap_def]
  omega

theorem length_parts_le {v u : Value} (part : u ∈ v.parts) : u.parts.length ≤ v.parts.length := by
  induction v using byFields with
  | step v ih =>
      rw [parts_eq] at part
      rcases List.mem_cons.mp part with rfl | inside
      · exact Nat.le_refl _
      · rcases List.mem_flatMap.mp inside with ⟨field, listed, inside⟩
        have := ih field listed inside
        have := length_parts_field_lt listed
        omega

mutual

/-- What a fingerprint covers of a value. -/
def plain : Value → Value
  | .tuple fields => .tuple (plainAll fields)
  | .operator op => .operator op.plain
  | v => v

def plainAll : List Value → List Value
  | [] => []
  | v :: vs => plain v :: plainAll vs

end

theorem plainAll_eq (vs : List Value) : plainAll vs = vs.map plain := by
  induction vs with
  | nil => rfl
  | cons v vs ih => rw [plainAll, ih, List.map_cons]

theorem fields_plain (v : Value) : v.plain.fields = v.fields.map plain := by
  cases v with
  | tuple fields => rw [plain, plainAll_eq, Value.fields, Value.fields]
  | _ => rfl

theorem parts_plain (v : Value) : v.plain.parts = v.parts.map plain := by
  induction v using byFields with
  | step v ih =>
      have nested : v.fields.map (fun field => field.plain.parts) =
          v.fields.map (fun field => field.parts.map plain) := List.map_congr_left ih
      rw [parts_eq, parts_eq v, fields_plain, List.map_cons, List.flatMap_map, List.map_flatMap,
        List.flatMap_def, nested, List.flatMap_def]

theorem length_parts_plain (v : Value) : v.plain.parts.length = v.parts.length := by
  rw [parts_plain, List.length_map]

def covered : Value → List Fingerprint.Field
  | .float32 x => [.number x.widen]
  | .float64 x => [.number x]
  | .int32 n => [.number n.toBinary64]
  | .int64 n => [.integer n.toInt]
  | .boolean b => [.number (.ofInt b.toInt)]
  | .text content => [.text content]
  | .bytes content => [.bytes content]
  | .unit => []
  | .tuple fields => fields.map fun field => .ofFingerprint field.fingerprint
  | .operator op => [.ofFingerprint op.fingerprint]

def description (v : Value) : Description := ⟨"TypedValue", .text v.type.name :: v.covered⟩

theorem fingerprint_eq (v : Value) : v.fingerprint = v.description.fingerprint := by
  cases v <;> rw [fingerprint, description, type] <;> rfl

theorem type_plain (v : Value) : v.plain.type = v.type := by
  induction v using byFields with
  | step v ih =>
      cases v with
      | tuple fields =>
          rw [plain, plainAll_eq, type, type, List.map_map]
          exact congrArg ValueType.tuple (List.map_congr_left ih)
      | operator op => rw [plain, type, type]
      | _ => rfl

theorem fingerprint_plain (v : Value) : v.plain.fingerprint = v.fingerprint := by
  induction v using byFields with
  | step v ih =>
      rw [fingerprint_eq, fingerprint_eq, description, description, type_plain]
      cases v with
      | tuple fields =>
          rw [plain, plainAll_eq, covered, covered, List.map_map]
          exact congrArg (fun fields => (Description.mk "TypedValue" (_ :: fields)).fingerprint)
            (List.map_congr_left fun field nested =>
              congrArg Fingerprint.Field.ofFingerprint (ih field nested))
      | operator op => rw [plain, covered, covered, Operator.fingerprint_plain]
      | _ => rfl

theorem fingerprint_eq_of_plain {u v : Value} (same : u.plain = v.plain) :
    u.fingerprint = v.fingerprint := calc
  u.fingerprint = u.plain.fingerprint := u.fingerprint_plain.symm
  _ = v.plain.fingerprint := congrArg fingerprint same
  _ = v.fingerprint := v.fingerprint_plain

def descriptions (v : Value) : List Description :=
  v.description :: (v.operator?.map Operator.description).toList

theorem plain_eq_of_description_eq {left right : Value}
    (same : left.description = right.description)
    (nested : ∀ f ∈ left.fields, ∀ g ∈ right.fields, f.fingerprint = g.fingerprint →
      f.plain = g.plain)
    (operators : ∀ o ∈ left.operator?, ∀ p ∈ right.operator?, o.fingerprint = p.fingerprint →
      o.plain = p.plain) : left.plain = right.plain := by
  rcases Description.mk.inj same with ⟨_, fields⟩
  rcases List.cons.inj fields with ⟨names, contents⟩
  have types := ValueType.name_injective (Fingerprint.Field.text.inj names)
  cases left <;> cases right <;> simp only [type, reduceCtorEq] at types <;>
    simp only [covered, List.cons.injEq, and_true, Fingerprint.Field.number.injEq,
      Fingerprint.Field.integer.injEq, Fingerprint.Field.text.injEq,
      Fingerprint.Field.bytes.injEq] at contents
  case float32.float32 => exact congrArg float32 (Binary32.widen_injective contents)
  case float64.float64 => exact congrArg float64 contents
  case int32.int32 => exact congrArg int32 (Integer32.toBinary64_injective contents)
  case int64.int64 => exact congrArg int64 (Int64.toInt_inj.mp contents)
  case boolean.boolean => exact congrArg boolean (Binary64.ofInt_bool_injective contents)
  case text.text => exact congrArg text contents
  case bytes.bytes => exact congrArg bytes contents
  case unit.unit => rfl
  case tuple.tuple left right =>
    rw [plain, plain, plainAll_eq, plainAll_eq]
    exact congrArg tuple (map_eq_of_map_eq contents fun f inLeft g inRight equal =>
      nested f inLeft g inRight (Fingerprint.Field.ofFingerprint_injective equal))
  case operator.operator left right =>
    exact congrArg operator (operators left rfl right rfl
      (Fingerprint.Field.ofFingerprint_injective contents))

end Value

namespace Expr

def content? : Expr → Option Value
  | .literal v => some v
  | .apply op _ _ => some (.operator op)
  | _ => none

theorem byDeps {motive : Expr → Prop}
    (step : ∀ e, (∀ dep ∈ e.deps, motive dep) → motive e) (e : Expr) : motive e := by
  have single (e : Expr) (none : e.deps = []) : motive e :=
    step e fun dep present => absurd (none ▸ present) List.not_mem_nil
  exact Expr.rec (motive_1 := motive) (motive_2 := fun es => ∀ dep ∈ es, motive dep)
    (fun _ => single _ rfl) (fun _ => single _ rfl) (fun _ => single _ rfl)
    (fun _ _ _ known => step _ known)
    (fun _ present => absurd present List.not_mem_nil)
    (fun _ _ first others dep present => by
      rcases List.mem_cons.mp present with rfl | later
      · exact first
      · exact others dep later)
    e

mutual

def parts : Expr → List Expr
  | .apply op deps attributes => .apply op deps attributes :: partsAll deps
  | e => [e]

def partsAll : List Expr → List Expr
  | [] => []
  | e :: es => parts e ++ partsAll es

end

theorem partsAll_eq (es : List Expr) : partsAll es = es.flatMap parts := by
  induction es with
  | nil => rfl
  | cons e es ih => rw [partsAll, ih, List.flatMap_cons]

theorem parts_eq (e : Expr) : e.parts = e :: e.deps.flatMap parts := by
  cases e with
  | apply op deps attributes => rw [parts, partsAll_eq, Expr.deps]
  | _ => rfl

theorem self_mem_parts (e : Expr) : e ∈ e.parts := by
  rw [parts_eq]
  exact List.mem_cons_self

theorem mem_parts_of_dep {e dep part : Expr} (direct : dep ∈ e.deps) (inside : part ∈ dep.parts) :
    part ∈ e.parts := by
  rw [parts_eq]
  exact List.mem_cons_of_mem _ (List.mem_flatMap.mpr ⟨dep, direct, inside⟩)

theorem mem_parts_iff {e part : Expr} :
    part ∈ e.parts ↔ part = e ∨ ∃ dep ∈ e.deps, part ∈ dep.parts := by
  rw [parts_eq, List.mem_cons, List.mem_flatMap]

theorem forall_parts_iff {motive : Expr → Prop} {e : Expr} : (∀ part ∈ e.parts, motive part) ↔
    motive e ∧ ∀ dep ∈ e.deps, ∀ part ∈ dep.parts, motive part := by
  rw [parts_eq, List.forall_mem_cons, List.forall_mem_flatMap]

theorem deps_mem_parts {e part dep : Expr} (inside : part ∈ e.parts) (direct : dep ∈ part.deps) :
    dep ∈ e.parts := by
  induction e using byDeps with
  | step e ih =>
      rcases mem_parts_iff.mp inside with rfl | ⟨outer, listed, within⟩
      · exact mem_parts_of_dep direct dep.self_mem_parts
      · exact mem_parts_of_dep listed (ih outer listed within)

theorem parts_trans {e inner part : Expr} (outer : inner ∈ e.parts) (inside : part ∈ inner.parts) :
    part ∈ e.parts := by
  induction e using byDeps with
  | step e ih =>
      rcases mem_parts_iff.mp outer with rfl | ⟨dep, listed, within⟩
      · exact inside
      · exact mem_parts_of_dep listed (ih dep listed within)

theorem length_parts_dep_lt {e dep : Expr} (direct : dep ∈ e.deps) :
    dep.parts.length < e.parts.length := by
  have piece := (List.sublist_flatten_of_mem (List.mem_map_of_mem (f := parts) direct)).length_le
  rw [parts_eq e, List.length_cons, List.flatMap_def]
  omega

theorem length_parts_le {e part : Expr} (inside : part ∈ e.parts) :
    part.parts.length ≤ e.parts.length := by
  induction e using byDeps with
  | step e ih =>
      rcases mem_parts_iff.mp inside with rfl | ⟨dep, listed, within⟩
      · exact Nat.le_refl _
      · have := ih dep listed within
        have := length_parts_dep_lt listed
        omega

mutual

/-- What a fingerprint covers of an expression. -/
def plain : Expr → Expr
  | .literal v => .literal v.plain
  | .apply op deps _ => .apply op.plain (plainAll deps) .unknown
  | e => e

def plainAll : List Expr → List Expr
  | [] => []
  | e :: es => plain e :: plainAll es

end

theorem plainAll_eq (es : List Expr) : plainAll es = es.map plain := by
  induction es with
  | nil => rfl
  | cons e es ih => rw [plainAll, ih, List.map_cons]

theorem deps_plain (e : Expr) : e.plain.deps = e.deps.map plain := by
  cases e with
  | apply op deps attributes => rw [plain, plainAll_eq, Expr.deps, Expr.deps]
  | _ => rfl

theorem content?_plain (e : Expr) : e.plain.content? = e.content?.map Value.plain := by
  cases e <;> rfl

theorem parts_plain (e : Expr) : e.plain.parts = e.parts.map plain := by
  induction e using byDeps with
  | step e ih =>
      have nested : e.deps.map (fun dep => dep.plain.parts) =
          e.deps.map (fun dep => dep.parts.map plain) := List.map_congr_left ih
      rw [parts_eq, parts_eq e, deps_plain, List.map_cons, List.flatMap_map, List.map_flatMap,
        List.flatMap_def, nested, List.flatMap_def]

theorem length_parts_plain (e : Expr) : e.plain.parts.length = e.parts.length := by
  rw [parts_plain, List.length_map]

theorem plain_ne_of_dep {e dep part : Expr} (direct : dep ∈ e.deps) (inside : part ∈ dep.parts) :
    part.plain ≠ e.plain := by
  intro plains
  have sizes : part.parts.length = e.parts.length := calc
    part.parts.length = part.plain.parts.length := part.length_parts_plain.symm
    _ = e.plain.parts.length := by rw [plains]
    _ = e.parts.length := e.length_parts_plain
  have smaller : part.parts.length < e.parts.length := calc
    part.parts.length ≤ dep.parts.length := length_parts_le inside
    _ < e.parts.length := length_parts_dep_lt direct
  exact Nat.ne_of_lt smaller sizes

def description : Expr → Description
  | .literal v => ⟨"LiteralNode", [.ofFingerprint v.fingerprint]⟩
  | .leaf key => ⟨"LeafNode", [.text key]⟩
  | .placeholder key => ⟨"PlaceholderNode", [.text key]⟩
  | .apply op deps _ =>
      ⟨"OperatorNode", .ofFingerprint op.fingerprint ::
        deps.map fun dep => .ofFingerprint dep.fingerprint⟩

theorem fingerprint_eq (e : Expr) : e.fingerprint = e.description.fingerprint := by
  cases e <;> rw [fingerprint, description] <;> rfl

theorem fingerprint_plain (e : Expr) : e.plain.fingerprint = e.fingerprint := by
  induction e using byDeps with
  | step e ih =>
      rw [fingerprint_eq, fingerprint_eq]
      cases e with
      | literal v => rw [plain, description, description, Value.fingerprint_plain]
      | apply op deps attributes =>
          rw [plain, plainAll_eq, description, description, List.map_map,
            Operator.fingerprint_plain]
          exact congrArg (fun fields => (Description.mk "OperatorNode" (_ :: fields)).fingerprint)
            (List.map_congr_left fun dep direct =>
              congrArg Fingerprint.Field.ofFingerprint (ih dep direct))
      | _ => rfl

theorem fingerprint_eq_of_plain {d e : Expr} (same : d.plain = e.plain) :
    d.fingerprint = e.fingerprint := calc
  d.fingerprint = d.plain.fingerprint := d.fingerprint_plain.symm
  _ = e.plain.fingerprint := congrArg fingerprint same
  _ = e.fingerprint := e.fingerprint_plain

theorem plain_eq_of_description_eq {left right : Expr} (same : left.description = right.description)
    (direct : ∀ d ∈ left.deps, ∀ e ∈ right.deps, d.fingerprint = e.fingerprint → d.plain = e.plain)
    (carried : ∀ u ∈ left.content?, ∀ v ∈ right.content?, u.fingerprint = v.fingerprint →
      u.plain = v.plain) : left.plain = right.plain := by
  rcases Description.mk.inj same with ⟨salts, fields⟩
  cases left <;> cases right <;> simp only [String.reduceEq] at salts
  case literal.literal u v =>
    have contents := Fingerprint.Field.ofFingerprint_injective (List.cons.inj fields).1
    exact congrArg literal (carried u rfl v rfl contents)
  case leaf.leaf => exact congrArg leaf (Fingerprint.Field.text.inj (List.cons.inj fields).1)
  case placeholder.placeholder =>
    exact congrArg placeholder (Fingerprint.Field.text.inj (List.cons.inj fields).1)
  case apply.apply op deps _ other others _ =>
    rcases List.cons.inj fields with ⟨operators, dependencies⟩
    have values : (Value.operator op).fingerprint = (Value.operator other).fingerprint := by
      rw [Value.fingerprint, Value.fingerprint, Fingerprint.Field.ofFingerprint_injective operators]
    have plains := Value.operator.inj (carried _ rfl _ rfl values)
    rw [plain, plain, plainAll_eq, plainAll_eq, plains,
      map_eq_of_map_eq dependencies fun d left e right equal =>
        direct d left e right (Fingerprint.Field.ofFingerprint_injective equal)]

end Expr

end ExprWire
