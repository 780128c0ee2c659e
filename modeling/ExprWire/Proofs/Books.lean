import ExprWire.Encoder
import ExprWire.Proofs.Ledger
/-!
The books of an encoder: its steps and tables are those of a ledger. Whatever is emitted is entered
behind what stands there, and brings its codec with it.
-/

namespace ExprWire

open Ledger (Spells Spelled Reached)

/-- That an encoder's steps and tables are those of a ledger, which holds only what the roots
reach. -/
structure Encoder.Books (roots : Roots) (encoder : Encoder) (items : Ledger) : Prop where
  spelled : Spelled items encoder.steps.toList
  codecs : encoder.codecs = items.codecs
  values : ∀ print position, encoder.values[print]? = some position ↔
    ∃ u, items[position]? = some (Item.value u) ∧ u.fingerprint = print
  exprs : ∀ print position, encoder.exprs[print]? = some position ↔
    ∃ d, items[position]? = some (Item.node d) ∧ d.fingerprint = print
  reached : Reached roots items

namespace Encoder.Books

variable {roots : Roots} {encoder : Encoder} {items : Ledger}

theorem size_eq (books : Books roots encoder items) : encoder.steps.size = items.length := by
  rw [books.spelled.length_eq, Array.length_toList]

theorem start (roots : Roots) : Books roots .empty [] where
  spelled := .nil
  codecs := rfl
  values print position := by
    rw [show Encoder.empty.values[print]? = none from Std.TreeMap.getElem?_emptyc]
    exact ⟨nofun, fun ⟨_, found, _⟩ => absurd found nofun⟩
  exprs print position := by
    rw [show Encoder.empty.exprs[print]? = none from Std.TreeMap.getElem?_emptyc]
    exact ⟨nofun, fun ⟨_, found, _⟩ => absurd found nofun⟩
  reached := ⟨fun _ present => absurd present List.not_mem_nil,
    fun _ present => absurd present List.not_mem_nil⟩

theorem push_codec (books : Books roots encoder items) {name : String}
    (fresh : name ∉ items.codecs) :
    Books roots { encoder with
      steps := encoder.steps.push (.codec name)
      codecs := encoder.codecs ++ [name] } (items ++ [.codec name]) where
  spelled := by
    rw [Array.toList_push]
    exact books.spelled.snoc (.codec fresh)
  codecs := by
    rw [Ledger.codecs_append, books.codecs]
    rfl
  values print position := by
    simp only [books.values, getElem?_push, reduceCtorEq, and_false, or_false]
  exprs print position := by
    simp only [books.exprs, getElem?_push, reduceCtorEq, and_false, or_false]
  reached := books.reached.push nofun nofun

theorem push_marker (books : Books roots encoder items) {step : Step}
    (spells : Spells items .marker step) :
    Books roots { encoder with steps := encoder.steps.push step } (items ++ [.marker]) where
  spelled := by
    rw [Array.toList_push]
    exact books.spelled.snoc spells
  codecs := by
    rw [Ledger.codecs_append, books.codecs]
    exact (List.append_nil _).symm
  values print position := by
    simp only [books.values, getElem?_push, reduceCtorEq, and_false, or_false]
  exprs print position := by
    simp only [books.exprs, getElem?_push, reduceCtorEq, and_false, or_false]
  reached := books.reached.push nofun nofun

theorem insert_iff {table : Std.TreeMap Fingerprint Nat} {key print : Fingerprint}
    {size position : Nat} {known : Prop} (before : table[print]? = some position ↔ known)
    (fresh : key = print → ¬known) :
    (table.insert key size)[print]? = some position ↔ known ∨ position = size ∧ key = print := by
  rw [Std.TreeMap.getElem?_insert]
  by_cases same : key = print
  · rw [if_pos (Std.LawfulEqOrd.compare_eq_iff_eq.mpr same)]
    constructor
    · exact fun entered => .inr ⟨(Option.some.inj entered).symm, same⟩
    · intro entered
      rcases entered with old | ⟨rfl, -⟩
      · exact absurd old (fresh same)
      · rfl
  · rw [if_neg fun equal => same (Std.LawfulEqOrd.compare_eq_iff_eq.mp equal), before]
    exact ⟨.inl, fun held => held.resolve_right fun last => same last.2⟩

theorem push_value (books : Books roots encoder items) {v : Value} {step : Step}
    (present : v ∈ roots.contents) (spells : Spells items (.value v) step) :
    Books roots { encoder with
      steps := encoder.steps.push step
      values := encoder.values.insert v.fingerprint encoder.steps.size } (items ++ [.value v]) where
  spelled := by
    rw [Array.toList_push]
    exact books.spelled.snoc spells
  codecs := by
    rw [Ledger.codecs_append, books.codecs]
    exact (List.append_nil _).symm
  values print position := by
    have fresh : v.fingerprint = print →
        ¬∃ u, items[position]? = some (Item.value u) ∧ u.fingerprint = print := by
      intro equal entered
      subst equal
      rcases entered with ⟨u, found, same⟩
      cases spells with
      | value fresh => exact fresh (Ledger.mem_valuePrints.mpr ⟨position, u, found, same⟩)
    rw [insert_iff (books.values print position) fresh, books.size_eq]
    exact (Ledger.entered_push Item.value.inj).symm
  exprs print position := by
    simp only [books.exprs, getElem?_push, reduceCtorEq, and_false, or_false]
  reached := books.reached.push (fun _ same => Item.value.inj same ▸ present) nofun

theorem push_node (books : Books roots encoder items) {e : Expr} {step : Step}
    (present : e ∈ roots.nodes) (spells : Spells items (.node e) step) :
    Books roots { encoder with
      steps := encoder.steps.push step
      exprs := encoder.exprs.insert e.fingerprint encoder.steps.size } (items ++ [.node e]) where
  spelled := by
    rw [Array.toList_push]
    exact books.spelled.snoc spells
  codecs := by
    rw [Ledger.codecs_append, books.codecs]
    exact (List.append_nil _).symm
  values print position := by
    simp only [books.values, getElem?_push, reduceCtorEq, and_false, or_false]
  exprs print position := by
    have fresh : e.fingerprint = print →
        ¬∃ d, items[position]? = some (Item.node d) ∧ d.fingerprint = print := by
      intro equal entered
      subst equal
      rcases entered with ⟨d, found, same⟩
      cases spells with
      | node fresh => exact fresh (Ledger.mem_nodePrints.mpr ⟨position, d, found, same⟩)
    rw [insert_iff (books.exprs print position) fresh, books.size_eq]
    exact (Ledger.entered_push Item.node.inj).symm
  reached := books.reached.push nofun fun _ same => Item.node.inj same ▸ present

theorem value_known (books : Books roots encoder items) {v : Value} {position : Nat} :
    encoder.values[v.fingerprint]? = some position ↔ items.HasValue v position :=
  books.values v.fingerprint position

theorem node_known (books : Books roots encoder items) {e : Expr} {position : Nat} :
    encoder.exprs[e.fingerprint]? = some position ↔ items.HasNode e position :=
  books.exprs e.fingerprint position

theorem value_fresh (books : Books roots encoder items) {v : Value}
    (unknown : encoder.values[v.fingerprint]? = none) : v.fingerprint ∉ items.valuePrints := by
  intro stored
  rcases Ledger.mem_valuePrints.mp stored with ⟨position, held⟩
  rw [books.value_known.mpr held] at unknown
  exact absurd unknown nofun

theorem node_fresh (books : Books roots encoder items) {e : Expr}
    (unknown : encoder.exprs[e.fingerprint]? = none) : e.fingerprint ∉ items.nodePrints := by
  intro stored
  rcases Ledger.mem_nodePrints.mp stored with ⟨position, held⟩
  rw [books.node_known.mpr held] at unknown
  exact absurd unknown nofun

end Encoder.Books

namespace Ledger

/-- That there is no marker among what is added, and every added codec is used by an added value. -/
structure Growth (more : Ledger) : Prop where
  unmarked : .marker ∉ more
  used : ∀ name, .codec name ∈ more → ∃ u, .value u ∈ more ∧ u.codecName = name

structure Supply (given : List Value) (more : Ledger) : Prop extends Growth more where
  flat : ∀ e, .node e ∉ more
  among : ∀ u, .value u ∈ more → u ∈ given

variable {more later : Ledger} {given others : List Value}

theorem Growth.nil : Growth [] where
  unmarked := List.not_mem_nil
  used _ present := absurd present List.not_mem_nil

theorem Growth.append (growth : Growth more) (growth' : Growth later) : Growth (more ++ later) where
  unmarked present := (List.mem_append.mp present).elim growth.unmarked growth'.unmarked
  used name present := by
    rcases List.mem_append.mp present with early | late
    · rcases growth.used name early with ⟨u, stored, same⟩
      exact ⟨u, List.mem_append_left _ stored, same⟩
    · rcases growth'.used name late with ⟨u, stored, same⟩
      exact ⟨u, List.mem_append_right _ stored, same⟩

theorem Growth.node (e : Expr) : Growth [.node e] where
  unmarked present := absurd (List.mem_singleton.mp present) nofun
  used _ present := absurd (List.mem_singleton.mp present) nofun

theorem Supply.nil : Supply given [] where
  toGrowth := .nil
  flat _ present := absurd present List.not_mem_nil
  among _ present := absurd present List.not_mem_nil

theorem Supply.append (supply : Supply given more) (supply' : Supply others later) :
    Supply (given ++ others) (more ++ later) where
  toGrowth := supply.toGrowth.append supply'.toGrowth
  flat e present := (List.mem_append.mp present).elim (supply.flat e) (supply'.flat e)
  among u present := by
    rcases List.mem_append.mp present with early | late
    · exact List.mem_append_left _ (supply.among u early)
    · exact List.mem_append_right _ (supply'.among u late)

theorem mem_closed {v : Value} {item : Item} (declared : more = [] ∨ more = [.codec v.codecName])
    (present : item ∈ more ++ later ++ [.value v]) :
    item = .codec v.codecName ∨ item ∈ later ∨ item = .value v := by
  rcases List.mem_append.mp present with old | last
  · rcases List.mem_append.mp old with early | late
    · rcases declared with rfl | rfl
      · exact absurd early List.not_mem_nil
      · exact .inl (List.mem_singleton.mp early)
    · exact .inr (.inl late)
  · exact .inr (.inr (List.mem_singleton.mp last))

theorem Supply.close {v : Value} (declared : more = [] ∨ more = [.codec v.codecName])
    (supply : Supply (v.fields.flatMap Value.parts) later) :
    Supply v.parts (more ++ later ++ [.value v]) where
  unmarked present := by
    rcases mem_closed declared present with own | late | last
    · exact absurd own nofun
    · exact supply.unmarked late
    · exact absurd last nofun
  used name present := by
    rcases mem_closed declared present with own | late | last
    · exact ⟨v, List.mem_append_right _ (List.mem_singleton_self _), (Item.codec.inj own).symm⟩
    · rcases supply.used name late with ⟨u, stored, same⟩
      exact ⟨u, List.mem_append_left _ (List.mem_append_right _ stored), same⟩
    · exact absurd last nofun
  flat e present := by
    rcases mem_closed declared present with own | late | last
    · exact absurd own nofun
    · exact supply.flat e late
    · exact absurd last nofun
  among u present := by
    rw [Value.parts_eq]
    rcases mem_closed declared present with own | late | last
    · exact absurd own nofun
    · exact List.mem_cons_of_mem _ (supply.among u late)
    · rw [Item.value.inj last]
      exact List.mem_cons_self

end Ledger

end ExprWire
