import Mathlib.Data.List.Forall2
import ExprWire.Proofs.Reach
/-!
What a fingerprint identifies. Two things are the same if they are built alike from the same parts,
whatever a fingerprint is: references by name, other operators by what they say of themselves,
values by type and payload, expressions by kind, payload and dependencies. Under a faithful digest
this is what equal fingerprints mean.
-/

namespace ExprWire

open Fingerprint (Faithful)

namespace Operator

/-- The name of a reference. -/
def reference? : Operator → Option String
  | .registered name _ => some name
  | _ => none

/-- That operators are told by the same: both are references with the same name, or neither is a
reference and they agree in all that they say of themselves. -/
inductive Same (left right : Operator) : Prop where
  | reference {name : String} (named : left.reference? = some name)
      (named' : right.reference? = some name)
  | described (plain : left.reference? = none) (plain' : right.reference? = none)
      (families : left.family = right.family) (names : left.name = right.name)
      (signatures : left.signature = right.signature) (docs : left.doc = right.doc)
      (own : left.ownFields = right.ownFields)

theorem plain_of_reference?_eq_none {operator : Operator} (none : operator.reference? = none) :
    operator.plain = .custom operator.family operator.name operator.signature operator.doc
      operator.ownFields := by
  cases operator with
  | registered name target => cases none
  | _ => rfl

theorem same_iff {left right : Operator} : left.Same right ↔ left.plain = right.plain := by
  constructor
  · rintro (⟨named, named'⟩ | ⟨plain, plain', families, names, signatures, docs, own⟩)
    · cases left <;> cases right <;> simp_all [reference?, Operator.plain]
    · rw [plain_of_reference?_eq_none plain, plain_of_reference?_eq_none plain', families, names,
        signatures, docs, own]
  · intro same
    cases left <;> cases right <;>
      simp only [plain, reduceCtorEq, registered.injEq, custom.injEq, and_true] at same
    case registered.registered => exact .reference rfl (congrArg some same.symm)
    case makeTuple.makeTuple => exact .described rfl rfl rfl rfl rfl rfl rfl
    all_goals
      obtain ⟨families, names, signatures, docs, own⟩ := same
      exact .described rfl rfl families names signatures docs own

theorem same_backend_iff {name other : String} {signature signature' : Signature}
    {doc doc' : String} {output output' : Option ValueType} :
    (backend name signature doc output).Same (backend other signature' doc' output') ↔
      backend name signature doc output = backend other signature' doc' output' :=
  same_iff.trans plain_backend_iff

end Operator

theorem forall₂_iff_map_eq {α β : Type} {related : α → α → Prop} {f : α → β} {xs ys : List α}
    (meaning : ∀ x ∈ xs, ∀ y, related x y ↔ f x = f y) :
    List.Forall₂ related xs ys ↔ xs.map f = ys.map f := by
  induction xs generalizing ys with
  | nil => cases ys <;> simp
  | cons x xs ih =>
      cases ys with
      | nil => simp
      | cons y ys =>
          rw [List.forall₂_cons, List.map_cons, List.map_cons, List.cons.injEq,
            meaning x List.mem_cons_self,
            ih fun z listed => meaning z (List.mem_cons_of_mem _ listed)]

theorem Binary64.eq_of_bits_eq {x y : Binary64} (same : x.bits = y.bits) : x = y := by
  cases x
  cases y
  exact congrArg Binary64.mk same

namespace Value

/-- That values are told by the same: the same type, and numbers with the same 64 bits, the same
integers, texts or bytes, fields that are pairwise the same, or the same operator. -/
inductive Same : Value → Value → Prop where
  | float32 {x y : Binary32} (bits : x.widen.bits = y.widen.bits) : Same (.float32 x) (.float32 y)
  | float64 {x y : Binary64} (bits : x.bits = y.bits) : Same (.float64 x) (.float64 y)
  | int32 {n m : Integer32} (bits : n.toBinary64.bits = m.toBinary64.bits) :
      Same (.int32 n) (.int32 m)
  | int64 (n : Int64) : Same (.int64 n) (.int64 n)
  | boolean (b : Bool) : Same (.boolean b) (.boolean b)
  | text (content : String) : Same (.text content) (.text content)
  | bytes (content : Bytes) : Same (.bytes content) (.bytes content)
  | unit : Same .unit .unit
  | tuple {us vs : List Value} (fields : List.Forall₂ Same us vs) : Same (.tuple us) (.tuple vs)
  | operator {op other : Operator} (same : op.Same other) : Same (.operator op) (.operator other)

theorem same_iff {u v : Value} : u.Same v ↔ u.plain = v.plain := by
  induction u using byFields generalizing v with
  | step u ih =>
      have nested : ∀ field ∈ u.fields, ∀ other, field.Same other ↔ field.plain = other.plain :=
        fun field listed _ => ih field listed
      constructor
      · intro same
        cases same with
        | float32 bits =>
            exact congrArg Value.float32 (Binary32.widen_injective (Binary64.eq_of_bits_eq bits))
        | float64 bits => exact congrArg Value.float64 (Binary64.eq_of_bits_eq bits)
        | int32 bits =>
            have equal := Integer32.toBinary64_injective (Binary64.eq_of_bits_eq bits)
            exact congrArg Value.int32 equal
        | @tuple us vs fields =>
            rw [plain, plain, plainAll_eq, plainAll_eq]
            exact congrArg tuple ((forall₂_iff_map_eq nested).mp fields)
        | operator same => exact congrArg Value.operator (Operator.same_iff.mp same)
        | _ => rfl
      · intro same
        cases u with
        | tuple us =>
            cases v with
            | tuple vs =>
                rw [plain, plain, plainAll_eq, plainAll_eq, tuple.injEq] at same
                exact .tuple ((forall₂_iff_map_eq nested).mpr same)
            | _ => cases same
        | operator op =>
            cases v with
            | operator other => exact .operator (Operator.same_iff.mpr (operator.inj same))
            | _ => cases same
        | _ =>
            cases v with
            | tuple vs => cases same
            | operator other => cases same
            | _ => cases same <;> constructor <;> rfl

theorem Same.type_eq {u v : Value} (same : u.Same v) : u.type = v.type := by
  rw [← u.type_plain, same_iff.mp same, v.type_plain]

end Value

namespace Expr

/-- That expressions are told by the same: the same kind with the same value, key or operator, and
dependencies that are pairwise the same. -/
inductive Same : Expr → Expr → Prop where
  | literal {u v : Value} (same : u.Same v) : Same (.literal u) (.literal v)
  | leaf (key : String) : Same (.leaf key) (.leaf key)
  | placeholder (key : String) : Same (.placeholder key) (.placeholder key)
  | apply {op other : Operator} {ds es : List Expr} {attributes attributes' : Attributes}
      (same : op.Same other) (deps : List.Forall₂ Same ds es) :
      Same (.apply op ds attributes) (.apply other es attributes')

theorem same_iff {d e : Expr} : d.Same e ↔ d.plain = e.plain := by
  induction d using byDeps generalizing e with
  | step d ih =>
      have direct : ∀ dep ∈ d.deps, ∀ other, dep.Same other ↔ dep.plain = other.plain :=
        fun dep listed _ => ih dep listed
      constructor
      · intro same
        cases same with
        | literal same => exact congrArg literal (Value.same_iff.mp same)
        | apply same deps =>
            rw [plain, plain, plainAll_eq, plainAll_eq, Operator.same_iff.mp same]
            exact congrArg (apply _ · _) ((forall₂_iff_map_eq direct).mp deps)
        | _ => rfl
      · intro same
        cases d with
        | literal u =>
            cases e with
            | literal v => exact .literal (Value.same_iff.mpr (literal.inj same))
            | _ => cases same
        | apply op ds attributes =>
            cases e with
            | apply other es attributes' =>
                simp only [plain, plainAll_eq, apply.injEq, and_true] at same
                exact .apply (Operator.same_iff.mpr same.1) ((forall₂_iff_map_eq direct).mpr same.2)
            | _ => cases same
        | _ =>
            cases e with
            | literal v => cases same
            | apply other es attributes' => cases same
            | _ => cases same <;> constructor

/-- Among these expressions, those with the same fingerprint are the same. -/
def Uncollided (es : List Expr) : Prop :=
  ∀ d ∈ es, ∀ e ∈ es, d.fingerprint = e.fingerprint → d.Same e

theorem Uncollided.subset {es others : List Expr} (uncollided : Uncollided others)
    (fewer : ∀ e ∈ es, e ∈ others) : Uncollided es :=
  fun d left e right => uncollided d (fewer d left) e (fewer e right)

theorem Uncollided.dep_ne {e dep part : Expr} (uncollided : Uncollided e.parts)
    (direct : dep ∈ e.deps) (inside : part ∈ dep.parts) : part.fingerprint ≠ e.fingerprint := by
  intro same
  have alike := uncollided part (mem_parts_of_dep direct inside) e e.self_mem_parts same
  exact plain_ne_of_dep direct inside (same_iff.mp alike)

end Expr

namespace Roots

theorem Told.uncollided {roots : Roots} (told : roots.Told) : Expr.Uncollided roots.nodes :=
  fun d left e right same => Expr.same_iff.mpr (told.nodes d left e right same)

end Roots

def Expr.pair : Expr := .apply .makeTuple [.leaf "x", .leaf "x"] .unknown

theorem Expr.uncollided_pair : Uncollided [pair, .leaf "x"] := by
  apply (Roots.told Roots.faithful_sharing).uncollided.subset
  intro e listed
  rw [Roots.nodes_sharing]
  simpa [pair] using listed

end ExprWire
