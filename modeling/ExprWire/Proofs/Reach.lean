import ExprWire.Proofs.Content
/-!
What a list of values and a list of expressions reach. Under a faithful digest the fingerprints of
all this tell it apart, and nothing has the fingerprint of something it is nested in.
-/

namespace ExprWire

open Fingerprint (Description Faithful)

def Expr.carried (e : Expr) : List Value := e.content?.toList.flatMap Value.parts

theorem Expr.mem_carried {e : Expr} {u : Value} :
    u ∈ e.carried ↔ ∃ v, e.content? = some v ∧ u ∈ v.parts := by
  simp only [carried, List.mem_flatMap, Option.mem_toList]

def Expr.contents (e : Expr) : List Value := e.parts.flatMap carried

/-- Values and expressions that are stored together. -/
structure Roots where
  values : List Value
  exprs : List Expr

namespace Roots

variable {roots : Roots}

def nodes (roots : Roots) : List Expr := roots.exprs.flatMap Expr.parts

def contents (roots : Roots) : List Value :=
  (roots.values ++ roots.nodes.filterMap Expr.content?).flatMap Value.parts

/-- Whatever is digested for the fingerprints of all this. -/
def hashed (roots : Roots) : List Description :=
  roots.contents.flatMap Value.descriptions ++ roots.nodes.map Expr.description

theorem parts_subset_contents {v : Value} (root : v ∈ roots.values) :
    ∀ part ∈ v.parts, part ∈ roots.contents := by
  intro part inside
  exact List.mem_flatMap.mpr ⟨v, List.mem_append_left _ root, inside⟩

theorem parts_subset_nodes {e : Expr} (root : e ∈ roots.exprs) :
    ∀ part ∈ e.parts, part ∈ roots.nodes := by
  intro part inside
  exact List.mem_flatMap.mpr ⟨e, root, inside⟩

theorem field_mem_contents {v field : Value} (present : v ∈ roots.contents)
    (nested : field ∈ v.fields) : field ∈ roots.contents := by
  rcases List.mem_flatMap.mp present with ⟨root, listed, inside⟩
  exact List.mem_flatMap.mpr ⟨root, listed, Value.fields_mem_parts inside nested⟩

theorem dep_mem_nodes {e dep : Expr} (present : e ∈ roots.nodes) (direct : dep ∈ e.deps) :
    dep ∈ roots.nodes := by
  rcases List.mem_flatMap.mp present with ⟨root, listed, inside⟩
  exact List.mem_flatMap.mpr ⟨root, listed, Expr.deps_mem_parts inside direct⟩

theorem node_of_mem_parts {e part : Expr} (present : e ∈ roots.nodes) (inside : part ∈ e.parts) :
    part ∈ roots.nodes := by
  rcases List.mem_flatMap.mp present with ⟨root, listed, within⟩
  exact List.mem_flatMap.mpr ⟨root, listed, Expr.parts_trans within inside⟩

theorem content_mem_contents {e : Expr} {v : Value} (present : e ∈ roots.nodes)
    (carried : e.content? = some v) : v ∈ roots.contents := by
  have listed : v ∈ roots.nodes.filterMap Expr.content? :=
    List.mem_filterMap.mpr ⟨e, present, carried⟩
  exact List.mem_flatMap.mpr ⟨v, List.mem_append_right _ listed, v.self_mem_parts⟩

theorem carried_subset_contents {e : Expr} (present : e ∈ roots.nodes) :
    ∀ u ∈ e.carried, u ∈ roots.contents := by
  intro u inside
  rcases Expr.mem_carried.mp inside with ⟨v, carried, part⟩
  exact Value.mem_of_mem_parts (fun _ present _ nested => field_mem_contents present nested)
    (content_mem_contents present carried) part

theorem expr_contents_subset {e : Expr} (inside : ∀ part ∈ e.parts, part ∈ roots.nodes) :
    ∀ u ∈ e.contents, u ∈ roots.contents := by
  intro u held
  rcases List.mem_flatMap.mp held with ⟨part, listed, carried⟩
  exact carried_subset_contents (inside part listed) u carried

theorem mem_hashed_of_value {v : Value} {d : Description} (present : v ∈ roots.contents)
    (listed : d ∈ v.descriptions) : d ∈ roots.hashed :=
  List.mem_append_left _ (List.mem_flatMap.mpr ⟨v, present, listed⟩)

theorem mem_hashed_of_node {e : Expr} (present : e ∈ roots.nodes) :
    e.description ∈ roots.hashed :=
  List.mem_append_right _ (List.mem_map_of_mem present)

variable {others : Roots}

theorem nodes_subset (exprs : ∀ e ∈ roots.exprs, e ∈ others.exprs) :
    ∀ e ∈ roots.nodes, e ∈ others.nodes := by
  intro e present
  rcases List.mem_flatMap.mp present with ⟨root, listed, inside⟩
  exact parts_subset_nodes (exprs root listed) e inside

theorem contents_subset (values : ∀ v ∈ roots.values, v ∈ others.values)
    (exprs : ∀ e ∈ roots.exprs, e ∈ others.exprs) :
    ∀ v ∈ roots.contents, v ∈ others.contents := by
  intro v present
  rcases List.mem_flatMap.mp present with ⟨root, listed, inside⟩
  refine List.mem_flatMap.mpr ⟨root, ?_, inside⟩
  rcases List.mem_append.mp listed with given | carried
  · exact List.mem_append_left _ (values root given)
  · rcases List.mem_filterMap.mp carried with ⟨e, node, content⟩
    exact List.mem_append_right _
      (List.mem_filterMap.mpr ⟨e, nodes_subset exprs e node, content⟩)

theorem hashed_subset (values : ∀ v ∈ roots.values, v ∈ others.values)
    (exprs : ∀ e ∈ roots.exprs, e ∈ others.exprs) :
    ∀ d ∈ roots.hashed, d ∈ others.hashed := by
  intro d present
  rcases List.mem_append.mp present with value | node
  · rcases List.mem_flatMap.mp value with ⟨v, reached, listed⟩
    exact mem_hashed_of_value (contents_subset values exprs v reached) listed
  · rcases List.mem_map.mp node with ⟨e, reached, rfl⟩
    exact mem_hashed_of_node (nodes_subset exprs e reached)

/-- Things with the same fingerprint are plainly the same, among all that the roots reach. -/
structure Told (roots : Roots) : Prop where
  values : ∀ u ∈ roots.contents, ∀ v ∈ roots.contents, u.fingerprint = v.fingerprint →
    u.plain = v.plain
  nodes : ∀ d ∈ roots.nodes, ∀ e ∈ roots.nodes, d.fingerprint = e.fingerprint → d.plain = e.plain

theorem told_values (faithful : Faithful roots.hashed) :
    ∀ u ∈ roots.contents, ∀ v ∈ roots.contents, u.fingerprint = v.fingerprint →
      u.plain = v.plain := by
  intro u
  induction u using Value.byFields with
  | step u ih =>
      intro left v right same
      rw [Value.fingerprint_eq, Value.fingerprint_eq] at same
      have described := faithful.eq_of_fingerprint_eq
        (mem_hashed_of_value left List.mem_cons_self) (mem_hashed_of_value right List.mem_cons_self)
        same
      refine Value.plain_eq_of_description_eq described ?fields ?operators
      case fields =>
        intro f nested g nested'
        exact ih f nested (field_mem_contents left nested) g (field_mem_contents right nested')
      case operators =>
        intro o held p held' equal
        have digested {w : Value} {op : Operator} (reached : w ∈ roots.contents)
            (held : op ∈ w.operator?) : op.description ∈ roots.hashed := by
          refine mem_hashed_of_value reached (List.mem_cons_of_mem _ ?_)
          rw [Option.mem_def.mp held]
          exact List.mem_singleton_self _
        rw [Operator.fingerprint_eq, Operator.fingerprint_eq] at equal
        exact Operator.plain_eq_of_description_eq
          (faithful.eq_of_fingerprint_eq (digested left held) (digested right held') equal)

theorem told_nodes (faithful : Faithful roots.hashed) :
    ∀ d ∈ roots.nodes, ∀ e ∈ roots.nodes, d.fingerprint = e.fingerprint → d.plain = e.plain := by
  intro d
  induction d using Expr.byDeps with
  | step d ih =>
      intro left e right same
      rw [Expr.fingerprint_eq, Expr.fingerprint_eq] at same
      have described := faithful.eq_of_fingerprint_eq (mem_hashed_of_node left)
        (mem_hashed_of_node right) same
      refine Expr.plain_eq_of_description_eq described ?deps ?contents
      case deps =>
        intro f direct g direct'
        exact ih f direct (dep_mem_nodes left direct) g (dep_mem_nodes right direct')
      case contents =>
        intro u carried v carried'
        exact told_values faithful u (content_mem_contents left carried) v
          (content_mem_contents right carried')

theorem told (faithful : Faithful roots.hashed) : roots.Told :=
  ⟨told_values faithful, told_nodes faithful⟩

namespace Told

variable (told : roots.Told)
include told

theorem part_ne {v field part : Value} (present : v ∈ roots.contents) (nested : field ∈ v.fields)
    (inside : part ∈ field.parts) : part.fingerprint ≠ v.fingerprint := by
  intro same
  have reached : part ∈ roots.contents :=
    Value.mem_of_mem_parts (fun _ present _ nested => field_mem_contents present nested)
      (field_mem_contents present nested) inside
  have plains := told.values part reached v present same
  have sizes : part.parts.length = v.parts.length := calc
    part.parts.length = part.plain.parts.length := part.length_parts_plain.symm
    _ = v.plain.parts.length := by rw [plains]
    _ = v.parts.length := v.length_parts_plain
  have smaller : part.parts.length < v.parts.length := calc
    part.parts.length ≤ field.parts.length := Value.length_parts_le inside
    _ < v.parts.length := Value.length_parts_field_lt nested
  exact Nat.ne_of_lt smaller sizes

end Told

def sharing : Roots :=
  ⟨[.tuple [.unit, .unit]], [.apply .makeTuple [.leaf "x", .leaf "x"] .unknown]⟩

theorem contents_sharing :
    sharing.contents = [.tuple [.unit, .unit], .unit, .unit, .operator .makeTuple] := rfl

theorem nodes_sharing : sharing.nodes =
    [.apply .makeTuple [.leaf "x", .leaf "x"] .unknown, .leaf "x", .leaf "x"] := rfl

def sharingDescriptions : List Description :=
  [⟨"TypedValue", [.text "UNIT"]⟩,
    ⟨"TypedValue", [.text "tuple<UNIT,UNIT>", .digits "79afe2d6a0bb125575e073ecf38ab6ff",
      .digits "79afe2d6a0bb125575e073ecf38ab6ff"]⟩,
    Operator.makeTuple.description,
    ⟨"TypedValue", [.text "EXPR_OPERATOR", .digits "5fab2eb290057fa2e7c207a1f3329155"]⟩,
    ⟨"LeafNode", [.text "x"]⟩,
    ⟨"OperatorNode", [.digits "5fab2eb290057fa2e7c207a1f3329155",
      .digits "58e3a2adb49c136fadd522ee5bfaab55", .digits "58e3a2adb49c136fadd522ee5bfaab55"]⟩]

theorem sharing_fingerprints : sharingDescriptions.map Description.fingerprint =
    [⟨"79afe2d6a0bb125575e073ecf38ab6ff"⟩, ⟨"1d3a35b01a446e9f1920f0a7d9f6f707"⟩,
      ⟨"5fab2eb290057fa2e7c207a1f3329155"⟩, ⟨"a3db4cb0acb4e4997e62953c2abd5c39"⟩,
      ⟨"58e3a2adb49c136fadd522ee5bfaab55"⟩, ⟨"9e4d531e8f39989b282859de5adac7f8"⟩] := by
  unfold Description.fingerprint Fingerprint.ofPreimage
  decide +kernel

theorem makeTuple_fingerprint :
    Operator.makeTuple.fingerprint = ⟨"5fab2eb290057fa2e7c207a1f3329155"⟩ := by
  have prints := sharing_fingerprints
  simp only [sharingDescriptions, List.map_cons, List.cons.injEq] at prints
  exact Operator.makeTuple.fingerprint_eq.trans prints.2.2.1

theorem faithful_sharingDescriptions : Faithful sharingDescriptions :=
  .of_prints (by decide) sharing_fingerprints (by decide)

theorem fingerprints_sharing :
    sharing.contents.map Value.fingerprint =
      [⟨"1d3a35b01a446e9f1920f0a7d9f6f707"⟩, ⟨"79afe2d6a0bb125575e073ecf38ab6ff"⟩,
        ⟨"79afe2d6a0bb125575e073ecf38ab6ff"⟩, ⟨"a3db4cb0acb4e4997e62953c2abd5c39"⟩] ∧
    sharing.nodes.map Expr.fingerprint =
      [⟨"9e4d531e8f39989b282859de5adac7f8"⟩, ⟨"58e3a2adb49c136fadd522ee5bfaab55"⟩,
        ⟨"58e3a2adb49c136fadd522ee5bfaab55"⟩] := by
  have prints := sharing_fingerprints
  simp only [sharingDescriptions, List.map_cons, List.map_nil, List.cons.injEq, and_true] at prints
  rcases prints with ⟨unit, tuple, -, held, leaf, apply⟩
  have unit' : Value.unit.fingerprint = ⟨"79afe2d6a0bb125575e073ecf38ab6ff"⟩ := by
    rw [Value.fingerprint_eq, Value.description, Value.type]
    exact unit
  have leaf' : (Expr.leaf "x").fingerprint = ⟨"58e3a2adb49c136fadd522ee5bfaab55"⟩ := by
    rw [Expr.fingerprint_eq]
    exact leaf
  have tuple' : (Value.tuple [.unit, .unit]).fingerprint = ⟨"1d3a35b01a446e9f1920f0a7d9f6f707"⟩ := by
    have type : (Value.tuple [.unit, .unit]).type.name = "tuple<UNIT,UNIT>" := by
      simp only [Value.type, List.map_cons, List.map_nil]
      rfl
    rw [Value.fingerprint_eq, Value.description, type, Value.covered, List.map_cons, List.map_cons,
      unit']
    exact tuple
  have held' : (Value.operator .makeTuple).fingerprint = ⟨"a3db4cb0acb4e4997e62953c2abd5c39"⟩ := by
    rw [Value.fingerprint_eq, Value.description, Value.covered, Value.type, makeTuple_fingerprint]
    exact held
  have apply' : (Expr.apply .makeTuple [.leaf "x", .leaf "x"] .unknown).fingerprint =
      ⟨"9e4d531e8f39989b282859de5adac7f8"⟩ := by
    rw [Expr.fingerprint_eq, Expr.description, makeTuple_fingerprint, List.map_cons, List.map_cons, leaf']
    exact apply
  rw [contents_sharing, nodes_sharing]
  simp only [List.map_cons, List.map_nil, unit', leaf', tuple', held', apply', and_self]

theorem faithful_sharing : Faithful sharing.hashed := by
  have prints := fingerprints_sharing
  rw [contents_sharing, nodes_sharing] at prints
  simp only [List.map_cons, List.map_nil, List.cons.injEq, and_true] at prints
  rcases prints with ⟨⟨-, unit, -, -⟩, -, leaf, -⟩
  refine faithful_sharingDescriptions.subset ?_
  rw [hashed, contents_sharing, nodes_sharing]
  simp only [List.flatMap_cons, List.flatMap_nil, Value.descriptions, Value.operator?,
    Value.description, Value.covered, Value.type, Expr.description, List.map_cons,
    List.map_nil, unit, leaf, makeTuple_fingerprint, Fingerprint.Field.ofFingerprint]
  decide

end Roots

end ExprWire
