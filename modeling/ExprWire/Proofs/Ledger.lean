import Mathlib.Data.List.Forall2
import ExprWire.Container
import ExprWire.Proofs.Growth
import ExprWire.Proofs.Payload
import ExprWire.Proofs.Reach
/-!
Ledgers. A ledger says of every step what it stands for; it is spelled by the steps if each of them
refers to the positions and the codec slot of what it needs among the earlier ones, and stores
nothing that is stored already.
-/

namespace ExprWire

/-- What a step stands for. -/
inductive Item where
  | codec (name : String)
  | value (v : Value)
  | node (e : Expr)
  | marker

namespace Item

def codec? : Item → Option String
  | .codec name => some name
  | _ => none

def value? : Item → Option Value
  | .value v => some v
  | _ => none

def node? : Item → Option Expr
  | .node e => some e
  | _ => none

theorem codec?_eq_some_iff {item : Item} {name : String} :
    item.codec? = some name ↔ item = .codec name := by
  cases item <;> simp [codec?]

theorem value?_eq_some_iff {item : Item} {v : Value} :
    item.value? = some v ↔ item = .value v := by
  cases item <;> simp [value?]

theorem node?_eq_some_iff {item : Item} {e : Expr} : item.node? = some e ↔ item = .node e := by
  cases item <;> simp [node?]

end Item

abbrev Ledger := List Item

namespace Ledger

variable {items more : Ledger}

def codecs (items : Ledger) : List String := items.filterMap Item.codec?

def values (items : Ledger) : List Value := items.filterMap Item.value?

def nodes (items : Ledger) : List Expr := items.filterMap Item.node?

def valuePrints (items : Ledger) : List Fingerprint := items.values.map Value.fingerprint

def nodePrints (items : Ledger) : List Fingerprint := items.nodes.map Expr.fingerprint

/-- Whether a value with the fingerprint of the given one stands at a position. -/
def HasValue (items : Ledger) (v : Value) (position : Nat) : Prop :=
  ∃ u, items[position]? = some (.value u) ∧ u.fingerprint = v.fingerprint

/-- Whether an expression with the fingerprint of the given one stands at a position. -/
def HasNode (items : Ledger) (e : Expr) (position : Nat) : Prop :=
  ∃ d, items[position]? = some (.node d) ∧ d.fingerprint = e.fingerprint

theorem codecs_append : (items ++ more).codecs = items.codecs ++ more.codecs :=
  List.filterMap_append

theorem valuePrints_append :
    (items ++ more).valuePrints = items.valuePrints ++ more.valuePrints := by
  rw [valuePrints, values, List.filterMap_append, List.map_append]
  rfl

theorem nodePrints_append : (items ++ more).nodePrints = items.nodePrints ++ more.nodePrints := by
  rw [nodePrints, nodes, List.filterMap_append, List.map_append]
  rfl

theorem mem_filterMap_iff {α : Type} {part : Item → Option α} {whole : α → Item}
    (parted : ∀ {item a}, part item = some a ↔ item = whole a) {a : α} :
    a ∈ items.filterMap part ↔ whole a ∈ items := by
  rw [List.mem_filterMap]
  constructor
  · intro taken
    rcases taken with ⟨item, present, content⟩
    rwa [parted.mp content] at present
  · exact fun present => ⟨whole a, present, parted.mpr rfl⟩

theorem mem_values {v : Value} : v ∈ items.values ↔ .value v ∈ items :=
  mem_filterMap_iff Item.value?_eq_some_iff

theorem mem_nodes {e : Expr} : e ∈ items.nodes ↔ .node e ∈ items :=
  mem_filterMap_iff Item.node?_eq_some_iff

theorem mem_codecs {name : String} : name ∈ items.codecs ↔ .codec name ∈ items :=
  mem_filterMap_iff Item.codec?_eq_some_iff

theorem mem_valuePrints {v : Value} :
    v.fingerprint ∈ items.valuePrints ↔ ∃ position, items.HasValue v position := by
  rw [valuePrints, List.mem_map]
  constructor
  · intro given
    rcases given with ⟨u, stored, same⟩
    rcases List.mem_iff_getElem?.mp (mem_values.mp stored) with ⟨position, found⟩
    exact ⟨position, u, found, same⟩
  · intro stored
    rcases stored with ⟨position, u, found, same⟩
    exact ⟨u, mem_values.mpr (List.mem_of_getElem? found), same⟩

theorem mem_nodePrints {e : Expr} :
    e.fingerprint ∈ items.nodePrints ↔ ∃ position, items.HasNode e position := by
  rw [nodePrints, List.mem_map]
  constructor
  · intro given
    rcases given with ⟨d, stored, same⟩
    rcases List.mem_iff_getElem?.mp (mem_nodes.mp stored) with ⟨position, found⟩
    exact ⟨position, d, found, same⟩
  · intro stored
    rcases stored with ⟨position, d, found, same⟩
    exact ⟨d, mem_nodes.mpr (List.mem_of_getElem? found), same⟩

theorem HasValue.append {v : Value} {position : Nat} (stored : items.HasValue v position) :
    (items ++ more).HasValue v position := by
  rcases stored with ⟨u, found, same⟩
  exact ⟨u, getElem?_append_of_some found, same⟩

theorem HasNode.append {e : Expr} {position : Nat} (stored : items.HasNode e position) :
    (items ++ more).HasNode e position := by
  rcases stored with ⟨d, found, same⟩
  exact ⟨d, getElem?_append_of_some found, same⟩

theorem entered_push {α : Type} {whole : α → Item} {print : α → Fingerprint}
    (distinct : ∀ {a b}, whole a = whole b → a = b) {a : α} {key : Fingerprint} {position : Nat} :
    (∃ b, (items ++ [whole a])[position]? = some (whole b) ∧ print b = key) ↔
      (∃ b, items[position]? = some (whole b) ∧ print b = key) ∨
        position = items.length ∧ print a = key := by
  constructor
  · intro entered
    rcases entered with ⟨b, found, same⟩
    rcases getElem?_push.mp found with old | ⟨last, own⟩
    · exact .inl ⟨b, old, same⟩
    · exact .inr ⟨last, distinct own ▸ same⟩
  · intro entered
    rcases entered with ⟨b, found, same⟩ | ⟨last, same⟩
    · exact ⟨b, getElem?_push.mpr (.inl found), same⟩
    · exact ⟨a, getElem?_push.mpr (.inr ⟨last, rfl⟩), same⟩

theorem mem_push {item other : Item} (present : other ∈ items ++ [item]) :
    other ∈ items ∨ other = item := by
  rcases List.mem_append.mp present with old | last
  · exact .inl old
  · exact .inr (List.mem_singleton.mp last)

theorem hasValue_last (items : Ledger) (v : Value) :
    HasValue (items ++ [.value v]) v items.length :=
  ⟨v, List.getElem?_concat_length, rfl⟩

theorem hasNode_last (items : Ledger) (e : Expr) :
    HasNode (items ++ [.node e]) e items.length :=
  ⟨e, List.getElem?_concat_length, rfl⟩

inductive Builds (earlier : Ledger) : Expr → Step → Prop where
  | literal {v : Value} {position : Nat} (content : earlier.HasValue v position) :
      Builds earlier (.literal v) (.literal (.ofNat position))
  | leaf (key : String) : Builds earlier (.leaf key) (.leaf key)
  | placeholder (key : String) : Builds earlier (.placeholder key) (.placeholder key)
  | apply {op : Operator} {deps : List Expr} {attributes : Attributes} {position : Nat}
      {positions : List Nat} (content : earlier.HasValue (.operator op) position)
      (direct : List.Forall₂ earlier.HasNode deps positions) :
      Builds earlier (.apply op deps attributes)
        (.apply (.ofNat position) (positions.map Number.ofNat))

/-- That a step stands for an item behind the items of the earlier steps. -/
inductive Spells (earlier : Ledger) : Item → Step → Prop where
  | codec {name : String} (fresh : name ∉ earlier.codecs) :
      Spells earlier (.codec name) (.codec name)
  | value {v : Value} {payload : Bytes} {slot : Nat} {positions : List Nat}
      (fresh : v.fingerprint ∉ earlier.valuePrints)
      (stored : v.payload = .ok payload) (declared : earlier.codecs[slot]? = some v.codecName)
      (nested : List.Forall₂ earlier.HasValue v.fields positions) :
      Spells earlier (.value v)
        (.value payload (some (.ofNat slot)) (positions.map Number.ofNat) [])
  | node {e : Expr} {step : Step} (fresh : e.fingerprint ∉ earlier.nodePrints)
      (builds : Builds earlier e step) : Spells earlier (.node e) step
  | outputValue {v : Value} {position : Nat} (marked : earlier.HasValue v position) :
      Spells earlier .marker (.outputValue (.ofNat position))
  | outputExpr {e : Expr} {position : Nat} (marked : earlier.HasNode e position) :
      Spells earlier .marker (.outputExpr (.ofNat position))

inductive Spelled : Ledger → List Step → Prop where
  | nil : Spelled [] []
  | snoc {items : Ledger} {steps : List Step} {item : Item} {step : Step}
      (earlier : Spelled items steps) (last : Spells items item step) :
      Spelled (items ++ [item]) (steps ++ [step])

namespace Spelled

variable {steps : List Step}

theorem length_eq (spelled : Spelled items steps) : items.length = steps.length := by
  induction spelled with
  | nil => rfl
  | snoc _ _ ih => rw [List.length_append, List.length_append, ih]; rfl

theorem getElem? (spelled : Spelled items steps) {position : Nat} {step : Step}
    (found : steps[position]? = some step) :
    ∃ item, items[position]? = some item ∧ Spells (items.take position) item step := by
  induction spelled with
  | nil => exact absurd found nofun
  | @snoc items steps item last earlier spells ih =>
      have lengths := earlier.length_eq
      by_cases old : position < steps.length
      · rw [List.getElem?_append_left old] at found
        rcases ih found with ⟨known, present, means⟩
        refine ⟨known, getElem?_append_of_some present, ?_⟩
        rwa [List.take_append_of_le_length (by omega)]
      · have bound := (List.getElem?_eq_some_iff.mp found).choose
        rw [List.length_append, List.length_singleton] at bound
        have here : position = items.length := by omega
        subst here
        rw [lengths, List.getElem?_concat_length] at found
        refine ⟨item, List.getElem?_concat_length, ?_⟩
        rw [List.take_left]
        exact Option.some.inj found ▸ spells

theorem spells_at (spelled : Spelled items steps) {position : Nat} {item : Item}
    (found : items[position]? = some item) :
    ∃ step, steps[position]? = some step ∧ Spells (items.take position) item step := by
  have bound : position < steps.length := by
    rw [← spelled.length_eq]
    exact (List.getElem?_eq_some_iff.mp found).choose
  rcases spelled.getElem? (List.getElem?_eq_getElem bound) with ⟨known, present, means⟩
  rw [Option.some.inj (found.symm.trans present)]
  exact ⟨_, List.getElem?_eq_getElem bound, means⟩

theorem take (spelled : Spelled items steps) (count : Nat) :
    Spelled (items.take count) (steps.take count) := by
  induction spelled with
  | nil =>
      rw [List.take_nil, List.take_nil]
      exact .nil
  | @snoc items steps item step earlier spells ih =>
      have lengths := earlier.length_eq
      by_cases inside : count ≤ items.length
      · rwa [List.take_append_of_le_length inside,
          List.take_append_of_le_length (by rwa [← lengths])]
      · have whole : (items ++ [item]).length ≤ count := by
          rw [List.length_append, List.length_singleton]
          omega
        have whole' : (steps ++ [step]).length ≤ count := by
          rw [List.length_append, List.length_singleton]
          omega
        rw [List.take_of_length_le whole, List.take_of_length_le whole']
        exact earlier.snoc spells

theorem nodup_codecs (spelled : Spelled items steps) : items.codecs.Nodup := by
  induction spelled with
  | nil => exact List.nodup_nil
  | @snoc items steps item step _ spells ih =>
      rw [codecs_append, List.nodup_append]
      cases spells with
      | @codec name fresh =>
          refine ⟨ih, List.pairwise_singleton _ _, ?_⟩
          intro other declared last single same
          rw [List.mem_singleton.mp single] at same
          exact fresh (same ▸ declared)
      | _ => exact ⟨ih, List.nodup_nil, fun _ _ _ last => absurd last List.not_mem_nil⟩

theorem nodup_valuePrints (spelled : Spelled items steps) : items.valuePrints.Nodup := by
  induction spelled with
  | nil => exact List.nodup_nil
  | @snoc items steps item step _ spells ih =>
      rw [valuePrints_append, List.nodup_append]
      cases spells with
      | @value v _ _ _ fresh =>
          refine ⟨ih, List.pairwise_singleton _ _, ?_⟩
          intro other stored last single same
          rw [List.mem_singleton.mp single] at same
          exact fresh (same ▸ stored)
      | _ => exact ⟨ih, List.nodup_nil, fun _ _ _ last => absurd last List.not_mem_nil⟩

theorem nodup_nodePrints (spelled : Spelled items steps) : items.nodePrints.Nodup := by
  induction spelled with
  | nil => exact List.nodup_nil
  | @snoc items steps item step _ spells ih =>
      rw [nodePrints_append, List.nodup_append]
      cases spells with
      | @node e _ fresh =>
          refine ⟨ih, List.pairwise_singleton _ _, ?_⟩
          intro other stored last single same
          rw [List.mem_singleton.mp single] at same
          exact fresh (same ▸ stored)
      | _ => exact ⟨ih, List.nodup_nil, fun _ _ _ last => absurd last List.not_mem_nil⟩

end Spelled

/-- That a ledger holds nothing that the roots do not reach. -/
structure Reached (roots : Roots) (items : Ledger) : Prop where
  values : ∀ v, .value v ∈ items → v ∈ roots.contents
  nodes : ∀ e, .node e ∈ items → e ∈ roots.nodes

theorem Reached.subset (reached : Reached roots items) (within : ∀ item ∈ more, item ∈ items) :
    Reached roots more where
  values v present := reached.values v (within _ present)
  nodes e present := reached.nodes e (within _ present)

theorem Reached.push (reached : Reached roots items) {item : Item}
    (value : ∀ v, item = .value v → v ∈ roots.contents)
    (node : ∀ e, item = .node e → e ∈ roots.nodes) : Reached roots (items ++ [item]) where
  values v present := by
    rcases mem_push present with old | last
    · exact reached.values v old
    · exact value v last.symm
  nodes e present := by
    rcases mem_push present with old | last
    · exact reached.nodes e old
    · exact node e last.symm

theorem exists_of_forall₂ {α β : Type} {related : α → β → Prop} {xs : List α} {ys : List β}
    (paired : List.Forall₂ related xs ys) {x : α} (present : x ∈ xs) : ∃ y, related x y := by
  induction paired with
  | nil => exact absurd present List.not_mem_nil
  | cons first _ ih =>
      rcases List.mem_cons.mp present with rfl | later
      · exact ⟨_, first⟩
      · exact ih later

theorem HasValue.of_take {v : Value} {position count : Nat}
    (stored : Ledger.HasValue (items.take count) v position) : items.HasValue v position := by
  have whole : items.take count ++ items.drop count = items := List.take_append_drop _ _
  rw [← whole]
  exact stored.append

theorem HasNode.of_take {e : Expr} {position count : Nat}
    (stored : Ledger.HasNode (items.take count) e position) : items.HasNode e position := by
  have whole : items.take count ++ items.drop count = items := List.take_append_drop _ _
  rw [← whole]
  exact stored.append

variable {roots : Roots} {steps : List Step}

theorem HasValue.exists_spells (told : roots.Told) (spelled : Spelled items steps)
    (reached : Reached roots items) {v : Value} {position : Nat} (present : v ∈ roots.contents)
    (stored : items.HasValue v position) : ∃ u step, u.plain = v.plain ∧
      steps[position]? = some step ∧ Spells (items.take position) (.value u) step := by
  rcases stored with ⟨u, found, same⟩
  rcases spelled.spells_at found with ⟨step, at_position, spells⟩
  have reached' : u ∈ roots.contents := reached.values u (List.mem_of_getElem? found)
  exact ⟨u, step, told.values u reached' v present same, at_position, spells⟩

theorem HasNode.exists_spells (told : roots.Told) (spelled : Spelled items steps)
    (reached : Reached roots items) {e : Expr} {position : Nat} (present : e ∈ roots.nodes)
    (stored : items.HasNode e position) : ∃ d step, d.plain = e.plain ∧
      steps[position]? = some step ∧ Spells (items.take position) (.node d) step := by
  rcases stored with ⟨d, found, same⟩
  rcases spelled.spells_at found with ⟨step, at_position, spells⟩
  have reached' : d ∈ roots.nodes := reached.nodes d (List.mem_of_getElem? found)
  exact ⟨d, step, told.nodes d reached' e present same, at_position, spells⟩

theorem HasValue.parts (told : roots.Told) (spelled : Spelled items steps)
    (reached : Reached roots items) {v : Value} {position : Nat} (present : v ∈ roots.contents)
    (stored : items.HasValue v position) : ∀ part ∈ v.parts, ∃ place, items.HasValue part place := by
  induction v using Value.byFields generalizing position with
  | step v ih =>
      intro part inside
      rw [Value.parts_eq] at inside
      rcases List.mem_cons.mp inside with rfl | nested
      · exact ⟨position, stored⟩
      · rcases List.mem_flatMap.mp nested with ⟨field, listed, within⟩
        rcases stored.exists_spells told spelled reached present with ⟨u, step, plains, -, spells⟩
        -- the stored value is plainly the same, so it has a field with the same fingerprint
        have fields := congrArg Value.fields plains
        rw [Value.fields_plain, Value.fields_plain] at fields
        have listed' : field.plain ∈ u.fields.map Value.plain := by
          rw [fields]
          exact List.mem_map_of_mem listed
        rcases List.mem_map.mp listed' with ⟨other, nested', alike⟩
        cases spells with
        | value _ _ _ paired =>
            rcases exists_of_forall₂ paired nested' with ⟨place, w, at_place, print⟩
            have stored : items.HasValue field place :=
              HasValue.of_take ⟨w, at_place, print.trans (Value.fingerprint_eq_of_plain alike)⟩
            exact ih field listed (Roots.field_mem_contents present listed) stored part within

theorem HasNode.content (told : roots.Told) (spelled : Spelled items steps)
    (reached : Reached roots items) {e : Expr} {position : Nat} (present : e ∈ roots.nodes)
    (stored : items.HasNode e position) {v : Value} (carried : e.content? = some v) :
    ∃ place, items.HasValue v place := by
  rcases stored.exists_spells told spelled reached present with ⟨d, step, plains, -, spells⟩
  have contents := congrArg Expr.content? plains
  rw [Expr.content?_plain, Expr.content?_plain, carried] at contents
  rcases Option.map_eq_some_iff.mp contents with ⟨u, carried', alike⟩
  have print := Value.fingerprint_eq_of_plain alike
  cases spells with
  | node _ builds =>
      cases builds with
      | @literal w place content =>
          rcases content.of_take with ⟨x, at_place, same⟩
          rw [Option.some.inj carried'] at same
          exact ⟨place, x, at_place, same.trans print⟩
      | @apply op deps attributes place _ content =>
          rcases content.of_take with ⟨x, at_place, same⟩
          rw [Option.some.inj carried'] at same
          exact ⟨place, x, at_place, same.trans print⟩
      | leaf key => exact absurd carried' nofun
      | placeholder key => exact absurd carried' nofun

theorem HasNode.parts (told : roots.Told) (spelled : Spelled items steps)
    (reached : Reached roots items) {e : Expr} {position : Nat} (present : e ∈ roots.nodes)
    (stored : items.HasNode e position) : ∀ part ∈ e.parts, ∃ place, items.HasNode part place := by
  induction e using Expr.byDeps generalizing position with
  | step e ih =>
      intro part inside
      rcases Expr.mem_parts_iff.mp inside with rfl | ⟨dep, listed, within⟩
      · exact ⟨position, stored⟩
      · rcases stored.exists_spells told spelled reached present with ⟨d, step, plains, -, spells⟩
        have deps := congrArg Expr.deps plains
        rw [Expr.deps_plain, Expr.deps_plain] at deps
        have listed' : dep.plain ∈ d.deps.map Expr.plain := by
          rw [deps]
          exact List.mem_map_of_mem listed
        rcases List.mem_map.mp listed' with ⟨other, direct, alike⟩
        have stored : ∃ place, items.HasNode dep place := by
          cases spells with
          | node _ builds =>
              cases builds with
              | apply _ paired =>
                  rcases exists_of_forall₂ paired direct with ⟨place, w, at_place, print⟩
                  have print' := print.trans (Expr.fingerprint_eq_of_plain alike)
                  exact ⟨place, HasNode.of_take ⟨w, at_place, print'⟩⟩
              | _ => exact absurd direct List.not_mem_nil
        rcases stored with ⟨place, stored⟩
        exact ih dep listed (Roots.dep_mem_nodes present listed) stored part within

end Ledger

end ExprWire
