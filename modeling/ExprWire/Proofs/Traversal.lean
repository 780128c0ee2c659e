import Mathlib.Data.List.Induction
import ExprWire.Proofs.PostOrder
import ExprWire.Proofs.Units
/-!
The walk over an expression whose fingerprints do not collide. It lists every fingerprint that is
reached, once, behind those it depends on, as the plain recursive walk does. The keys it finds are
those of all leaves and placeholders.
-/

namespace ExprWire.Expr

theorem prints_append (es others : List Expr) :
    prints (es ++ others) = prints es ++ prints others :=
  List.map_append

theorem Ordered.init {es : List Expr} {e : Expr} (ordered : Ordered (es ++ [e])) :
    Ordered es ∧ ∀ dep ∈ e.deps, dep.fingerprint ∈ prints es := by
  generalize whole : es ++ [e] = listed at ordered
  cases ordered with
  | nil => simp at whole
  | @snoc earlier last ordered deps fresh =>
      have ends := List.append_inj' whole rfl
      rw [ends.1, List.singleton_inj.mp ends.2]
      exact ⟨ordered, deps⟩

theorem Ordered.deps_before {before after : List Expr} {node : Expr}
    (ordered : Ordered (before ++ node :: after)) :
    ∀ dep ∈ node.deps, dep.fingerprint ∈ prints before := by
  induction after using List.reverseRecOn with
  | nil => exact ordered.init.2
  | append_singleton after last ih =>
      rw [← List.cons_append, ← List.append_assoc] at ordered
      exact ih ordered.init.1

theorem Ordered.deps_listed {es : List Expr} {node dep : Expr} (ordered : Ordered es)
    (listed : node ∈ es) (direct : dep ∈ node.deps) : dep.fingerprint ∈ prints es := by
  obtain ⟨before, after, split⟩ := List.append_of_mem listed
  rw [split] at ordered ⊢
  rw [prints_append]
  exact List.mem_append_left _ (ordered.deps_before dep direct)

theorem Same.dep_print {d e dep : Expr} (same : d.Same e) (direct : dep ∈ e.deps) :
    ∃ other ∈ d.deps, other.fingerprint = dep.fingerprint := by
  have plains : d.deps.map plain = e.deps.map plain := by
    rw [← deps_plain, ← deps_plain, same_iff.mp same]
  have listed : dep.plain ∈ d.deps.map plain := plains ▸ List.mem_map_of_mem direct
  obtain ⟨other, member, alike⟩ := List.mem_map.mp listed
  exact ⟨other, member, fingerprint_eq_of_plain alike⟩

/-- A list of the distinct parts of an expression, each behind its dependencies. -/
structure Topological (e : Expr) (es : List Expr) : Prop where
  once : (prints es).Nodup
  parts : ∀ node ∈ es, node ∈ e.parts
  reached : ∀ print, print ∈ prints es ↔ ∃ part ∈ e.parts, part.fingerprint = print
  deps_before : ∀ before node after, es = before ++ node :: after →
    ∀ dep ∈ node.deps, dep.fingerprint ∈ prints before
  last : es.getLast? = some e

section

variable {e : Expr} (uncollided : Uncollided e.parts)
include uncollided

theorem Ordered.parts_listed {es : List Expr} (ordered : Ordered es)
    (inside : ∀ node ∈ es, node ∈ e.parts) {inner : Expr} (present : inner ∈ e.parts)
    (listed : inner.fingerprint ∈ prints es) :
    ∀ part ∈ inner.parts, part.fingerprint ∈ prints es := by
  induction inner using byDeps with
  | step inner ih =>
      intro part nested
      cases mem_parts_iff.mp nested with
      | inl self => exact self ▸ listed
      | inr below =>
          obtain ⟨dep, direct, within⟩ := below
          obtain ⟨node, member, print⟩ := List.mem_map.mp listed
          -- The listed expression with this fingerprint is the same, so its dependencies stand in
          -- for those of the expression itself.
          have same : node.Same inner := uncollided node (inside node member) inner present print
          obtain ⟨other, direct', alike⟩ := same.dep_print direct
          have known : dep.fingerprint ∈ prints es := alike ▸ ordered.deps_listed member direct'
          exact ih dep direct (deps_mem_parts present direct) known part within

theorem topological_postOrder : Topological e e.postOrder := by
  have order := appended_postOrder uncollided.acyclic
  have parts : ∀ node ∈ e.postOrder, node ∈ e.parts := by
    obtain ⟨more, grown, nested⟩ := order.extends_listed
    intro node listed
    rw [grown, List.nil_append] at listed
    obtain ⟨root, single, inside⟩ := nested node listed
    exact List.mem_singleton.mp single ▸ inside
  have root : e.fingerprint ∈ prints e.postOrder := order.lists e (List.mem_singleton_self e)
  refine ⟨order.ordered.nodup, parts, fun print => ?reached, ?deps_before, ?last⟩
  case reached =>
    constructor
    · intro listed
      obtain ⟨node, member, same⟩ := List.mem_map.mp listed
      exact ⟨node, parts node member, same⟩
    · intro found
      obtain ⟨part, inside, same⟩ := found
      exact same ▸ order.ordered.parts_listed uncollided parts e.self_mem_parts root part inside
  case deps_before =>
    intro before node after split
    exact (split ▸ order.ordered).deps_before
  case last =>
    have fresh : e.fingerprint ∉ prints [] := List.not_mem_nil
    rw [postOrder_eq uncollided.acyclic, depthFirst_eq, if_neg fresh]
    exact List.getLast?_concat

theorem mem_postOrder_iff {part : Expr} (alone : ∀ node : Expr, node.Same part → node = part) :
    part ∈ e.postOrder ↔ part ∈ e.parts := by
  have order := topological_postOrder uncollided
  constructor
  · exact order.parts part
  · intro inside
    have known := (order.reached part.fingerprint).mpr ⟨part, inside, rfl⟩
    obtain ⟨node, listed, print⟩ := List.mem_map.mp known
    have same := uncollided node (order.parts node listed) part inside print
    exact alone node same ▸ listed

end

theorem mem_sortedKeys {key : String} {keys : List String} :
    key ∈ sortedKeys keys ↔ key ∈ keys := by
  rw [sortedKeys, Text.mem_sortByUnits, List.mem_eraseDups]

theorem sortedKeys_strict (keys : List String) :
    (sortedKeys keys).Pairwise fun a b => Text.units a < Text.units b :=
  Text.sortByUnits_strict (nodup_eraseDups keys)

theorem mem_keys_iff {e : Expr} (uncollided : Uncollided e.parts) {key? : Expr → Option String}
    {form : String → Expr} (reads : ∀ node key, key? node = some key ↔ node = form key)
    (alone : ∀ node key, Same node (form key) → node = form key) (key : String) :
    key ∈ sortedKeys (e.postOrder.filterMap key?) ↔ form key ∈ e.parts := calc
  key ∈ sortedKeys (e.postOrder.filterMap key?) ↔ ∃ node ∈ e.postOrder, key? node = some key := by
    rw [mem_sortedKeys, List.mem_filterMap]
  _ ↔ form key ∈ e.postOrder := by simp only [reads, exists_eq_right]
  _ ↔ form key ∈ e.parts := mem_postOrder_iff uncollided fun node => alone node key

theorem mem_leafKeys {e : Expr} (uncollided : Uncollided e.parts) (key : String) :
    key ∈ e.leafKeys ↔ .leaf key ∈ e.parts := by
  apply mem_keys_iff uncollided
  · intro node key
    cases node <;> simp
  · intro node key same
    cases same
    rfl

theorem mem_placeholderKeys {e : Expr} (uncollided : Uncollided e.parts) (key : String) :
    key ∈ e.placeholderKeys ↔ .placeholder key ∈ e.parts := by
  apply mem_keys_iff uncollided
  · intro node key
    cases node <;> simp
  · intro node key same
    cases same
    rfl

/-- Unless fingerprints collide, the walk is a topological order of the distinct parts, the one of
the plain recursive walk, and the keys found are those of all leaves and placeholders, each once and
in the order of the 16-bit units. -/
theorem postOrder_lists_parts {e : Expr} (uncollided : Uncollided e.parts) :
    Topological e e.postOrder ∧ e.postOrder = depthFirst e [] ∧
    (∀ key, key ∈ e.leafKeys ↔ .leaf key ∈ e.parts) ∧
    (∀ key, key ∈ e.placeholderKeys ↔ .placeholder key ∈ e.parts) ∧
    (e.leafKeys.Pairwise fun a b => Text.units a < Text.units b) ∧
    e.placeholderKeys.Pairwise fun a b => Text.units a < Text.units b :=
  ⟨topological_postOrder uncollided, postOrder_eq uncollided.acyclic,
    mem_leafKeys uncollided, mem_placeholderKeys uncollided, sortedKeys_strict _,
    sortedKeys_strict _⟩

theorem postOrder_lists_parts_pair : Uncollided pair.parts ∧
    pair.postOrder = [.leaf "x", pair] ∧ pair.leafKeys = ["x"] := by
  have uncollided : Uncollided pair.parts := by
    apply uncollided_pair.subset
    simp [pair, parts, partsAll]
  have order : pair.postOrder = [.leaf "x", pair] := by
    rw [(postOrder_lists_parts uncollided).2.1]
    simp [pair, depthFirst, depthFirstAll]
  refine ⟨uncollided, order, ?_⟩
  rw [leafKeys, order]
  simp [pair, sortedKeys, Text.sortByUnits, List.eraseDups_cons]

end ExprWire.Expr
