import Mathlib.Data.List.Forall2
import ExprWire.Encoder
import ExprWire.Proofs.Intact
/-!
What does not depend on attributes. Fingerprints, renderings and orders of expressions are the same
without the attributes of applications, and so are the steps that expressions are encoded as.
-/

namespace ExprWire

open Fingerprint (Description)

namespace Expr

theorem bare_eq_self_iff {e : Expr} : e.bare = e ↔
    ∀ op deps attributes, .apply op deps attributes ∈ e.parts → attributes = .unknown := by
  induction e using byDeps with
  | step e ih =>
      have direct {dep : Expr} (listed : dep ∈ e.deps) (part : Expr) (inside : part ∈ dep.parts) :
          part ∈ e.parts := mem_parts_of_dep listed inside
      constructor
      · intro bare op deps attributes inside
        rcases mem_parts_iff.mp inside with rfl | ⟨dep, listed, within⟩
        · exact (apply.inj bare).2.2.symm
        · cases e with
          | apply op' deps' attributes' =>
              have kept := (apply.inj bare).2.1
              rw [bareAll_eq] at kept
              have same : dep.bare = dep :=
                List.map_inj_left.mp (kept.trans (List.map_id deps').symm) dep listed
              exact (ih dep listed).mp same op deps attributes within
          | _ => exact absurd listed List.not_mem_nil
      · intro unknown
        cases e with
        | apply op deps attributes =>
            have same : deps.map bare = deps.map id := List.map_congr_left fun dep listed =>
              (ih dep listed).mpr fun op' deps' attributes' inside =>
                unknown op' deps' attributes' (direct listed _ inside)
            rw [bare, bareAll_eq, same, List.map_id, unknown op deps attributes (self_mem_parts _)]
        | _ => rfl

theorem deps_bare (e : Expr) : e.bare.deps = e.deps.map bare := by
  cases e with
  | apply op deps attributes => rw [bare, bareAll_eq, Expr.deps, Expr.deps]
  | _ => rfl

theorem content?_bare (e : Expr) : e.bare.content? = e.content? := by
  cases e <;> rfl

theorem parts_bare (e : Expr) : e.bare.parts = e.parts.map bare := by
  induction e using byDeps with
  | step e ih =>
      have nested : e.deps.map (fun dep => dep.bare.parts) =
          e.deps.map (fun dep => dep.parts.map bare) := List.map_congr_left ih
      rw [parts_eq, parts_eq e, deps_bare, List.map_cons, List.flatMap_map, List.map_flatMap,
        List.flatMap_def, nested, List.flatMap_def]

theorem description_bare (e : Expr) : e.bare.description = e.description := by
  cases e with
  | apply op deps attributes =>
      rw [bare, bareAll_eq, description, description, List.map_map]
      exact congrArg (fun fields => Description.mk "OperatorNode" (_ :: fields))
        (List.map_congr_left fun dep _ =>
          congrArg Fingerprint.Field.ofFingerprint dep.fingerprint_bare)
  | _ => rfl

def Frame.bare (frame : Frame) : Frame := ⟨frame.expr.bare, frame.rest.map Expr.bare⟩

theorem walk_bare (seen : Seen) (stack : List Frame) (finished : List Expr) :
    walk seen (stack.map Frame.bare) (finished.map bare) = (walk seen stack finished).map bare := by
  induction seen, stack, finished using walk.induct with
  | case1 seen finished => rw [walk, List.map_nil, walk]
  | case2 seen finished e below ih =>
      rw [walk, ← ih, List.map_cons]
      exact walk.eq_2 seen _ e.bare _
  | case3 seen finished e dep rest below known ih =>
      rw [walk, if_pos known, ← ih, List.map_cons, Frame.bare, List.map_cons, walk,
        fingerprint_bare, if_pos known]
      rfl
  | case4 seen finished e dep rest below unknown ih =>
      rw [walk, if_neg unknown, ← ih, List.map_cons, Frame.bare, List.map_cons, walk,
        fingerprint_bare, if_neg unknown, deps_bare]
      rfl

theorem postOrder_bare (e : Expr) : e.bare.postOrder = e.postOrder.map bare := by
  rw [postOrder, postOrder, List.map_reverse, ← walk_bare, fingerprint_bare, deps_bare]
  rfl

theorem renderAllWith_congr {ds es : List Expr}
    (same : List.Forall₂ (fun d e => renderWith d = renderWith e) ds es) :
    renderAllWith ds = renderAllWith es := by
  induction same with
  | nil => rfl
  | cons first _ ih => rw [renderAllWith, renderAllWith, first, ih]

theorem renderWith_bare (e : Expr) : renderWith e.bare = renderWith e := by
  induction e using byDeps with
  | step e ih =>
      cases e with
      | apply op deps attributes =>
          have print := (apply op deps attributes).fingerprint_bare
          have args : renderAllWith (deps.map bare) = renderAllWith deps :=
            renderAllWith_congr (List.forall₂_map_left_iff.mpr (List.forall₂_same.mpr ih))
          rw [bare, bareAll_eq] at print ⊢
          rw [renderWith, renderWith, print, args]
      | _ => rfl

theorem render_bare (e : Expr) : e.bare.render = e.render := by
  rw [render, render, renderWith_bare]

end Expr

namespace Encoding

variable (encode : ValueEncoder)

theorem find_bare (e : Expr) : find e.bare = find e := by
  rw [find, find, e.fingerprint_bare, e.render_bare]

theorem node_bare (e : Expr) : node encode e.bare = node encode e := by
  cases e with
  | apply op deps attributes =>
      have inputs : (deps.map Expr.bare).mapM find = deps.mapM find := by
        rw [List.mapM_map]
        exact congrArg (deps.mapM ·) (funext find_bare)
      rw [Expr.bare, Expr.bareAll_eq, node, node, inputs]
  | _ => rfl

theorem visit_bare (e : Expr) : visit encode e.bare = visit encode e := by
  rw [visit, visit, e.fingerprint_bare, node_bare]

theorem expr_bare (e : Expr) : expr encode e.bare = expr encode e := by
  have visits : (e.postOrder.map Expr.bare).forM (visit encode) =
      e.postOrder.forM (visit encode) := by
    induction e.postOrder with
    | nil => rfl
    | cons first others ih =>
        change (visit encode first.bare >>= fun _ =>
          (others.map Expr.bare).forM (visit encode)) = _
        rw [visit_bare, ih]
        rfl
  rw [expr, expr, e.fingerprint_bare, e.postOrder_bare, visits, find_bare]

theorem rootExprs_bare (index : Nat) (es : List Expr) :
    rootExprs encode index (es.map Expr.bare) = rootExprs encode index es := by
  induction es generalizing index with
  | nil => rfl
  | cons e es ih => rw [List.map_cons, rootExprs, rootExprs, expr_bare, ih]

end Encoding

theorem Container.encode_bare (encode : ValueEncoder) (vs : List Value) (es : List Expr) :
    Container.encode encode vs (es.map Expr.bare) = Container.encode encode vs es := by
  simp only [Container.encode, Encoding.rootExprs_bare]

namespace Roots

theorem nodes_bare (vs : List Value) (es : List Expr) :
    nodes ⟨vs, es.map Expr.bare⟩ = (nodes ⟨vs, es⟩).map Expr.bare := by
  have parts : (fun e : Expr => e.bare.parts) = fun e => e.parts.map Expr.bare :=
    funext Expr.parts_bare
  rw [nodes, nodes, List.flatMap_map, List.map_flatMap, parts]

theorem contents_bare (vs : List Value) (es : List Expr) :
    contents ⟨vs, es.map Expr.bare⟩ = contents ⟨vs, es⟩ := by
  have carried : Expr.content? ∘ Expr.bare = Expr.content? := funext Expr.content?_bare
  rw [contents, contents, nodes_bare, List.filterMap_map, carried]

theorem hashed_bare (vs : List Value) (es : List Expr) :
    hashed ⟨vs, es.map Expr.bare⟩ = hashed ⟨vs, es⟩ := by
  rw [hashed, hashed, contents_bare, nodes_bare, List.map_map]
  exact congrArg (_ ++ ·) (List.map_congr_left fun e _ => e.description_bare)

end Roots

end ExprWire
