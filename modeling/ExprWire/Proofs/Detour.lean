import ExprWire.Proofs.Marks
/-!
The way by bytes beside the direct way. The bytes decode to the same values and expressions, except
that keys of leaves and placeholders lose a leading byte order mark; so the two ways agree exactly
if no decoded key has one.
-/

namespace ExprWire

open Fingerprint (Faithful)

namespace Decoded

variable {decoded : Decoded}

/-- Whether no decoded key begins with a byte order mark. -/
def Unmarked (decoded : Decoded) : Prop := ∀ e ∈ decoded.exprs, e.Unmarked

theorem unmarked_eq_self (plain : decoded.Unmarked) : decoded.unmarked = decoded := by
  have same : decoded.exprs.map Expr.unmarked = decoded.exprs.map id :=
    List.map_congr_left fun e listed => Expr.unmarked_eq_self (plain e listed)
  rw [unmarked, same, List.map_id]

def bothWays (decoded : Decoded) : Roots :=
  ⟨decoded.values, decoded.exprs ++ decoded.unmarked.exprs⟩

theorem prints_unmarked_iff (faithful : Faithful decoded.bothWays.hashed) :
    decoded.unmarked.exprs.map Expr.fingerprint = decoded.exprs.map Expr.fingerprint ↔
      decoded.Unmarked := by
  constructor
  · intro same e listed
    rw [unmarked, List.map_map] at same
    have told := Roots.told faithful
    have left : e.unmarked ∈ decoded.bothWays.nodes :=
      Roots.parts_subset_nodes (List.mem_append_right _ (List.mem_map_of_mem listed)) _
        (Expr.self_mem_parts _)
    have right : e ∈ decoded.bothWays.nodes :=
      Roots.parts_subset_nodes (List.mem_append_left _ listed) _ e.self_mem_parts
    exact Expr.unmarked_of_plain_eq
      (told.nodes _ left _ right (List.map_inj_left.mp same e listed))
  · intro plain
    rw [unmarked_eq_self plain]

end Decoded

theorem Expr.unmarked_bare_iff {e : Expr} : e.bare.Unmarked ↔ e.Unmarked := by
  induction e using byDeps with
  | step e ih =>
      cases e with
      | apply op deps attributes =>
          constructor
          · intro plain part inside key held
            rcases mem_parts_iff.mp inside with own | ⟨dep, direct, within⟩
            · rw [own] at held
              cases held
            · have listed : dep.bare ∈ (Expr.apply op deps attributes).bare.deps := by
                rw [bare, bareAll_eq]
                exact List.mem_map_of_mem direct
              exact (ih dep direct).mp (plain.dep listed) part within key held
          · intro plain part inside key held
            rcases mem_parts_iff.mp inside with own | ⟨other, direct, within⟩
            · rw [own] at held
              cases held
            · rw [bare, bareAll_eq] at direct
              rcases List.mem_map.mp direct with ⟨dep, listed, same⟩
              rw [← same] at within
              exact (ih dep listed).mpr (plain.dep listed) part within key held
      | _ => exact Iff.rfl

theorem Decoded.unmarked_iff_of_bare {decoded : Decoded} {roots : Roots}
    (same : decoded.exprs.map Expr.bare = roots.exprs.map Expr.bare) :
    decoded.Unmarked ↔ roots.Unmarked := by
  have bare (es : List Expr) : (∀ e ∈ es, e.Unmarked) ↔ ∀ e ∈ es.map Expr.bare, e.Unmarked := by
    constructor
    · intro plain e listed
      rcases List.mem_map.mp listed with ⟨d, listed', rfl⟩
      exact Expr.unmarked_bare_iff.mpr (plain d listed')
    · intro plain e listed
      exact Expr.unmarked_bare_iff.mp (plain e.bare (List.mem_map_of_mem listed))
  have spread : roots.Unmarked ↔ ∀ e ∈ roots.exprs, e.Unmarked := by
    constructor
    · intro plain e given part inside
      exact plain part (Roots.parts_subset_nodes given part inside)
    · intro plain part present
      rcases List.mem_flatMap.mp present with ⟨e, given, inside⟩
      exact plain e given part inside
  rw [spread, bare roots.exprs, ← same, ← bare]
  exact Iff.rfl

/-- What has been serialized and can be decoded is written exactly if every count and every length
in it has 32 bits. The bytes decode to the same values and the same expressions, without the marks
of their keys; so the fingerprints are the same exactly if no key is marked. -/
theorem detour_drops_marks [Extension] {operators : OperatorRegistry} {options : Options}
    {roots : Roots} {container : Container} {decoded : Decoded}
    (accepted : serialize (.standard operators) roots.values roots.exprs = .ok container)
    (decodes : deserialize (.standard operators) options container = .ok decoded) :
    ((∃ bytes, serializeToBytes (.standard operators) roots.values roots.exprs = .ok bytes) ↔
      container.Fits) ∧
    (container.Fits → (serializeToBytes (.standard operators) roots.values roots.exprs >>=
      deserializeFromBytes (.standard operators) options) = .ok decoded.unmarked) ∧
    (decoded.Unmarked → decoded.unmarked = decoded) ∧
    (Faithful decoded.bothWays.hashed →
      (decoded.unmarked.exprs.map Expr.fingerprint = decoded.exprs.map Expr.fingerprint ↔
        decoded.Unmarked)) ∧
    (Faithful roots.hashed → roots.Intact operators → (decoded.Unmarked ↔ roots.Unmarked)) := by
  have packed : serializeToBytes (.standard operators) roots.values roots.exprs =
      container.write := by
    rw [serializeToBytes, accepted]
    rfl
  rw [packed]
  refine ⟨Container.write_isOk_iff, ?_, Decoded.unmarked_eq_self, Decoded.prints_unmarked_iff, ?_⟩
  · intro fits
    rcases Container.decode_unmarked decodes with ⟨decodes', formed⟩
    rcases Container.read_write fits formed with ⟨bytes, written, back⟩
    rw [written]
    change deserializeFromBytes (.standard operators) options bytes = .ok decoded.unmarked
    rw [deserializeFromBytes, back]
    exact decodes'
  · intro faithful intact
    have told := Roots.told faithful
    have held := Container.encode_holds operators told
    rw [show Container.encode _ roots.values roots.exprs = .ok container from accepted] at held
    rcases held with ⟨items, holds⟩
    rcases holds.decode told intact options with ⟨other, decodes', -, exprs⟩
    have same : decoded = other := Except.ok.inj (decodes.symm.trans decodes')
    rw [same]
    exact Decoded.unmarked_iff_of_bare exprs

namespace Roots

def markedLeaf : Roots := ⟨[], [.leaf "\uFEFFx"]⟩

theorem fingerprints_leaves :
    (Expr.leaf "\uFEFFx").fingerprint = ⟨"c0d2202bb41d2cd819b957402df6b1a6"⟩ ∧
      (Expr.leaf "x").fingerprint = ⟨"58e3a2adb49c136fadd522ee5bfaab55"⟩ := by
  rw [Expr.fingerprint_eq, Expr.fingerprint_eq]
  unfold Expr.description Fingerprint.Description.fingerprint Fingerprint.ofPreimage
  decide +kernel

theorem faithful_leaves :
    Faithful [(Expr.leaf "\uFEFFx").description, (Expr.leaf "x").description] := by
  refine .of_pairwise (by decide) ?_
  rw [List.pairwise_pair, ← Expr.fingerprint_eq, ← Expr.fingerprint_eq, fingerprints_leaves.1,
    fingerprints_leaves.2]
  decide

theorem faithful_markedLeaf : Faithful markedLeaf.hashed := by
  refine faithful_leaves.subset ?_
  intro d listed
  exact List.mem_cons.mpr (.inl (List.mem_singleton.mp listed))

theorem intact_markedLeaf (operators : OperatorRegistry) : markedLeaf.Intact operators where
  contents _ present := absurd present List.not_mem_nil
  counted e listed := by
    rw [List.mem_singleton.mp listed]
    trivial

theorem short_markedLeaf : markedLeaf.Short where
  payloads _ present := absurd present List.not_mem_nil
  fields _ present := absurd present List.not_mem_nil
  keys e listed key held := by
    rw [List.mem_singleton.mp listed] at held
    rw [← Option.some.inj held]
    decide
  deps e listed := by
    rw [List.mem_singleton.mp listed]
    decide
  values := by decide
  exprs := by decide
  steps := by
    have nodes : markedLeaf.nodePrints = [(Expr.leaf "\uFEFFx").fingerprint] := rfl
    rw [stepCount, nodes, fingerprints_leaves.1]
    decide

end Roots

theorem detour_drops_marks_markedLeaf :
    ∃ container, serialize (.standard .empty) [] [.leaf "\uFEFFx"] = .ok container ∧
      deserialize (.standard .empty) .default container = .ok ⟨[], [.leaf "\uFEFFx"]⟩ ∧
      (serializeToBytes (.standard .empty) [] [.leaf "\uFEFFx"] >>=
        deserializeFromBytes (.standard .empty) .default) = .ok ⟨[], [.leaf "x"]⟩ ∧
      (Expr.leaf "x").fingerprint ≠ (Expr.leaf "\uFEFFx").fingerprint := by
  have told := Roots.told Roots.faithful_markedLeaf
  have intact := Roots.intact_markedLeaf .empty
  have short := Roots.short_markedLeaf
  rcases Container.exists_encode .empty told intact.storable with ⟨container, accepted⟩
  have held := Container.encode_holds .empty told
  rw [accepted] at held
  rcases held with ⟨items, holds⟩
  rcases holds.decode told intact .default with ⟨⟨values, exprs⟩, decodes, noValues, sameExprs⟩
  have leaf : exprs = [.leaf "\uFEFFx"] := by
    cases exprs with
    | nil => exact absurd sameExprs nofun
    | cons e es =>
        rcases List.cons.inj sameExprs with ⟨first, others⟩
        rw [List.map_eq_nil_iff.mp others]
        cases e with
        | apply op deps attributes => exact absurd first nofun
        | _ => exact congrArg (fun e => [e]) first
  have empty : values = [] := noValues
  subst leaf
  subst empty
  have unmarked : Decoded.unmarked ⟨[], [.leaf "\uFEFFx"]⟩ = ⟨[], [.leaf "x"]⟩ := by
    have dropped : Text.dropMark "\uFEFFx" = "x" := by decide
    rw [Decoded.unmarked, List.map_singleton, Expr.unmarked, dropped]
  rcases detour_drops_marks accepted decodes with ⟨-, detour, -, prints, -⟩
  rw [unmarked] at detour
  refine ⟨container, accepted, decodes, detour (holds.fits told short), fun same => ?_⟩
  have faithful : Faithful (Decoded.bothWays ⟨[], [.leaf "\uFEFFx"]⟩).hashed := by
    rw [Decoded.bothWays, unmarked]
    exact Roots.faithful_leaves
  have plain := (prints faithful).mp (by rw [unmarked]; exact congrArg (fun print => [print]) same)
  exact absurd (plain _ List.mem_cons_self _ (Expr.self_mem_parts _) _ rfl) (by decide)

end ExprWire
