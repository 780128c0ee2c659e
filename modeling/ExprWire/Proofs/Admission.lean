import ExprWire.Proofs.Books
import ExprWire.Proofs.Traversal
/-!
What comes up in encoding, in order: the fields of a tuple before the tuple, the dependencies of an
expression before what it carries itself. Encoding halts where no payload can be made, unless
something with the same fingerprint has come up before. That expressions are merged by fingerprint
makes no difference to where it halts.
-/

namespace ExprWire

namespace Value

mutual

def order : Value → List Value
  | .tuple fields => orderAll fields ++ [.tuple fields]
  | v => [v]

def orderAll : List Value → List Value
  | [] => []
  | v :: vs => order v ++ orderAll vs

end

theorem orderAll_eq (vs : List Value) : orderAll vs = vs.flatMap order := by
  induction vs with
  | nil => rfl
  | cons v vs ih => rw [orderAll, ih, List.flatMap_cons]

theorem order_eq (v : Value) : v.order = v.fields.flatMap order ++ [v] := by
  cases v with
  | tuple fields => rw [order, orderAll_eq, Value.fields]
  | _ => rfl

theorem mem_order_iff {v u : Value} : u ∈ v.order ↔ u ∈ v.parts := by
  induction v using byFields with
  | step v ih =>
      rw [order_eq, parts_eq, List.mem_append, List.mem_singleton, List.mem_cons, or_comm,
        List.mem_flatMap, List.mem_flatMap]
      exact or_congr_right (exists_congr fun field => and_congr_right fun nested => ih field nested)

def prints (vs : List Value) : List Fingerprint := vs.map fingerprint

theorem prints_nil : prints [] = [] := rfl

theorem prints_append (vs others : List Value) :
    prints (vs ++ others) = prints vs ++ prints others :=
  List.map_append

end Value

namespace Expr

def own (e : Expr) : List Value := e.content?.toList.flatMap Value.order

mutual

def order : Expr → List Value
  | .literal v => v.order
  | .apply op deps _ => orderAll deps ++ [.operator op]
  | _ => []

def orderAll : List Expr → List Value
  | [] => []
  | e :: es => order e ++ orderAll es

end

theorem orderAll_eq (es : List Expr) : orderAll es = es.flatMap order := by
  induction es with
  | nil => rfl
  | cons e es ih => rw [orderAll, ih, List.flatMap_cons]

theorem order_eq (e : Expr) : e.order = e.deps.flatMap order ++ e.own := by
  cases e with
  | literal v => simp [order, own, content?, deps]
  | apply op deps attributes => simp [order, orderAll_eq, own, content?, Expr.deps, Value.order]
  | _ => rfl

theorem mem_own_iff {e : Expr} {u : Value} : u ∈ e.own ↔ u ∈ e.carried := by
  simp only [own, carried, List.mem_flatMap, Value.mem_order_iff]

theorem mem_order_iff {e : Expr} {u : Value} : u ∈ e.order ↔ u ∈ e.contents := by
  induction e using byDeps with
  | step e ih =>
      rw [order_eq, contents, parts_eq, List.flatMap_cons, List.mem_append, List.mem_append,
        mem_own_iff, or_comm, List.flatMap_assoc, List.mem_flatMap, List.mem_flatMap]
      exact or_congr_right (exists_congr fun dep => and_congr_right fun direct => ih dep direct)

end Expr

def Roots.order (roots : Roots) : List Value :=
  roots.values.flatMap Value.order ++ roots.exprs.flatMap Expr.order

theorem Roots.mem_order_iff {roots : Roots} {u : Value} : u ∈ roots.order ↔ u ∈ roots.contents := by
  have carried : u ∈ (roots.nodes.filterMap Expr.content?).flatMap Value.parts ↔
      ∃ e ∈ roots.exprs, u ∈ e.contents := by
    simp only [nodes, Expr.contents, List.mem_flatMap, List.mem_filterMap, Expr.mem_carried]
    grind
  rw [order, contents, List.mem_append, List.flatMap_append, List.mem_append, carried,
    List.mem_flatMap, List.mem_flatMap, List.mem_flatMap]
  simp only [Value.mem_order_iff, Expr.mem_order_iff]

namespace Encoding

open Value (prints)

variable {known : List Fingerprint} {vs ws : List Value} {v : Value} {problem : Problem}

/-- That no payload can be made of one of some values, whose fingerprint is not known and not that
of a value before it. -/
def Halts (known : List Fingerprint) (vs : List Value) (problem : Problem) : Prop :=
  ∃ before u behind, vs = before ++ u :: behind ∧ u.payload = .error problem ∧
    u.fingerprint ∉ known ++ prints before

def Passes (known : List Fingerprint) (vs : List Value) : Prop := ∀ problem, ¬Halts known vs problem

theorem not_halts_nil : ¬Halts known [] problem := by
  rintro ⟨before, u, behind, split, -⟩
  exact List.append_ne_nil_of_right_ne_nil _ (List.cons_ne_nil _ _) split.symm

theorem halts_append : Halts known (vs ++ ws) problem ↔
    Halts known vs problem ∨ Halts (known ++ prints vs) ws problem := by
  constructor
  · rintro ⟨before, u, behind, split, refused, fresh⟩
    rcases List.append_eq_append_iff.mp split with ⟨more, rfl, rest⟩ | ⟨more, rfl, rest⟩
    · rw [Value.prints_append, ← List.append_assoc] at fresh
      exact .inr ⟨more, u, behind, rest, refused, fresh⟩
    · cases more with
      | nil =>
          rw [List.append_nil]
          refine .inr ⟨[], u, behind, rest.symm, refused, ?_⟩
          rwa [Value.prints_nil, List.append_nil]
      | cons first more =>
          obtain ⟨rfl, -⟩ := List.cons.inj rest
          exact .inl ⟨before, u, more, rfl, refused, fresh⟩
  · rintro (⟨before, u, behind, rfl, refused, fresh⟩ | ⟨before, u, behind, rfl, refused, fresh⟩)
    · exact ⟨before, u, behind ++ ws, by rw [List.append_assoc, List.cons_append], refused, fresh⟩
    · refine ⟨vs ++ before, u, behind, (List.append_assoc _ _ _).symm, refused, ?_⟩
      rwa [Value.prints_append, ← List.append_assoc]

theorem halts_singleton :
    Halts known [v] problem ↔ v.payload = .error problem ∧ v.fingerprint ∉ known := by
  constructor
  · rintro ⟨before, u, behind, split, refused, fresh⟩
    rcases List.cons_eq_append_iff.mp split with ⟨rfl, same⟩ | ⟨more, -, rest⟩
    · obtain ⟨rfl, -⟩ := List.cons.inj same
      rw [Value.prints_nil, List.append_nil] at fresh
      exact ⟨refused, fresh⟩
    · exact absurd rest.symm (List.append_ne_nil_of_right_ne_nil _ (List.cons_ne_nil _ _))
  · rintro ⟨refused, fresh⟩
    refine ⟨[], v, [], rfl, refused, ?_⟩
    rwa [Value.prints_nil, List.append_nil]

theorem Halts.congr {known' : List Fingerprint} (halts : Halts known vs problem)
    (same : ∀ print, print ∈ known' ↔ print ∈ known) : Halts known' vs problem := by
  obtain ⟨before, u, behind, split, refused, fresh⟩ := halts
  refine ⟨before, u, behind, split, refused, ?_⟩
  rwa [List.mem_append, same, ← List.mem_append]

theorem Halts.exists_refused (halts : Halts known vs problem) :
    ∃ u ∈ vs, u.payload = .error problem := by
  obtain ⟨before, u, behind, rfl, refused, -⟩ := halts
  exact ⟨u, List.mem_append_right _ List.mem_cons_self, refused⟩

theorem passes_of_known (stored : ∀ u ∈ vs, u.fingerprint ∈ known) : Passes known vs := by
  rintro problem ⟨before, u, behind, rfl, -, fresh⟩
  exact fresh (List.mem_append_left _ (stored u (List.mem_append_right _ List.mem_cons_self)))

theorem Passes.append (passes : Passes known vs) (passes' : Passes (known ++ prints vs) ws) :
    Passes known (vs ++ ws) :=
  fun problem halts => (halts_append.mp halts).elim (passes problem) (passes' problem)

/-- That some values come up without a halt and are known behind what a ledger is extended by. -/
structure Meets (items more : Ledger) (vs : List Value) : Prop where
  passes : Passes items.valuePrints vs
  prints : ∀ print, print ∈ (items ++ more).valuePrints ↔ print ∈ items.valuePrints ++ prints vs

variable {items more later : Ledger}

theorem Meets.of_known (stored : ∀ u ∈ vs, u.fingerprint ∈ items.valuePrints) :
    Meets items [] vs where
  passes := passes_of_known stored
  prints print := by
    rw [List.append_nil, List.mem_append, Value.prints]
    refine ⟨.inl, fun listed => listed.elim id fun met => ?_⟩
    obtain ⟨u, present, rfl⟩ := List.mem_map.mp met
    exact stored u present

theorem Meets.of_values_eq_nil (none : more.values = []) : Meets items more [] where
  passes _ := not_halts_nil
  prints print := by
    have unchanged : (items ++ more).valuePrints = items.valuePrints := by
      rw [Ledger.valuePrints_append, Ledger.valuePrints.eq_1 more, none, List.map_nil,
        List.append_nil]
    rw [unchanged, Value.prints_nil, List.append_nil]

theorem Meets.value {payload : Bytes} (stored : v.payload = .ok payload) :
    Meets items [.value v] [v] where
  passes problem halts := by
    cases stored.symm.trans (halts_singleton.mp halts).1
  prints print := by
    rw [Ledger.valuePrints_append]
    rfl

theorem Meets.halts (meets : Meets items more vs)
    (halts : Halts (items ++ more).valuePrints ws problem) :
    Halts items.valuePrints (vs ++ ws) problem :=
  halts_append.mpr (.inr (halts.congr fun print => (meets.prints print).symm))

theorem Meets.passes_append (meets : Meets items more vs)
    (passes : Passes (items ++ more).valuePrints ws) : Passes items.valuePrints (vs ++ ws) :=
  meets.passes.append fun problem halts => passes problem (halts.congr meets.prints)

theorem Meets.append (meets : Meets items more vs) (meets' : Meets (items ++ more) later ws) :
    Meets items (more ++ later) (vs ++ ws) where
  passes := meets.passes_append meets'.passes
  prints print := by
    rw [← List.append_assoc, meets'.prints, List.mem_append, meets.prints, ← List.mem_append,
      Value.prints_append, List.append_assoc]

/-- Whether the same comes of two lists, whatever is known. -/
structure Alike (vs ws : List Value) : Prop where
  halts : ∀ known problem, Halts known vs problem ↔ Halts known ws problem
  prints : ∀ print, print ∈ prints vs ↔ print ∈ prints ws

theorem Alike.rfl : Alike vs vs := ⟨fun _ _ => Iff.rfl, fun _ => Iff.rfl⟩

theorem Alike.trans {us : List Value} (alike : Alike us vs) (alike' : Alike vs ws) :
    Alike us ws where
  halts known problem := (alike.halts known problem).trans (alike'.halts known problem)
  prints print := (alike.prints print).trans (alike'.prints print)

theorem Alike.append (alike : Alike vs ws) (us : List Value) : Alike (vs ++ us) (ws ++ us) where
  halts known problem := by
    have same : ∀ print, print ∈ known ++ Value.prints vs ↔ print ∈ known ++ Value.prints ws := by
      intro print
      rw [List.mem_append, alike.prints, ← List.mem_append]
    rw [halts_append, halts_append, alike.halts]
    exact or_congr_right ⟨fun halts => halts.congr fun print => (same print).symm,
      fun halts => halts.congr same⟩
  prints print := by
    rw [Value.prints_append, Value.prints_append, List.mem_append, alike.prints, ← List.mem_append]

theorem Alike.of_repeated (repeated : ∀ w ∈ ws, w.fingerprint ∈ Value.prints vs) :
    Alike vs (vs ++ ws) where
  halts known problem := by
    have passes : Passes (known ++ Value.prints vs) ws :=
      passes_of_known fun w listed => List.mem_append_right _ (repeated w listed)
    rw [halts_append, or_iff_left (passes problem)]
  prints print := by
    rw [Value.prints_append, List.mem_append, or_iff_left_of_imp]
    intro met
    obtain ⟨w, listed, rfl⟩ := List.mem_map.mp met
    exact repeated w listed

theorem Meets.congr (alike : Alike vs ws) (meets : Meets items more vs) : Meets items more ws where
  passes problem halts := meets.passes problem ((alike.halts _ _).mpr halts)
  prints print := by
    rw [meets.prints, List.mem_append, alike.prints, ← List.mem_append]

section

variable {roots : Roots} (told : roots.Told) {root : Expr}
  (reached : ∀ part ∈ root.parts, part ∈ roots.nodes)

include told reached

theorem prints_own {d e : Expr} (inside : d ∈ root.parts) (inside' : e ∈ root.parts)
    (same : d.fingerprint = e.fingerprint) : ∀ u ∈ e.own, u.fingerprint ∈ prints d.own := by
  intro u met
  obtain ⟨v, content, part⟩ := Expr.mem_carried.mp (Expr.mem_own_iff.mp met)
  have plains := told.nodes d (reached d inside) e (reached e inside') same
  have contents := congrArg Expr.content? plains
  rw [Expr.content?_plain, Expr.content?_plain, content] at contents
  obtain ⟨w, content', alike⟩ := Option.map_eq_some_iff.mp contents
  have listed : u.plain ∈ w.parts.map Value.plain := by
    rw [← Value.parts_plain, alike, Value.parts_plain]
    exact List.mem_map_of_mem part
  obtain ⟨x, part', alike'⟩ := List.mem_map.mp listed
  rw [← Value.fingerprint_eq_of_plain alike']
  exact List.mem_map_of_mem
    (Expr.mem_own_iff.mpr (Expr.mem_carried.mpr ⟨w, content', part'⟩))

theorem alike_depthFirstAll {es listed : List Expr} (inside : ∀ e ∈ es, e ∈ root.parts)
    (ordered : Expr.Ordered listed) (listed' : ∀ d ∈ listed, d ∈ root.parts)
    (single : ∀ e ∈ es, ∀ listed, Expr.Ordered listed → (∀ d ∈ listed, d ∈ root.parts) →
      Alike ((e.depthFirst listed).flatMap Expr.own) (listed.flatMap Expr.own ++ e.order)) :
    Alike ((Expr.depthFirstAll es listed).flatMap Expr.own)
      (listed.flatMap Expr.own ++ es.flatMap Expr.order) := by
  induction es generalizing listed with
  | nil =>
      rw [Expr.depthFirstAll, List.flatMap_nil, List.append_nil]
      exact .rfl
  | cons e es ih =>
      have here := inside e List.mem_cons_self
      have walked := Expr.appended_depthFirst (told.acyclic (reached e here)) ordered
      have nested : ∀ d ∈ e.depthFirst listed, d ∈ root.parts := by
        intro d held
        obtain ⟨more, grown, parts⟩ := walked.extends_listed
        rw [grown] at held
        rcases List.mem_append.mp held with old | new
        · exact listed' d old
        · obtain ⟨top, only, part⟩ := parts d new
          rw [List.mem_singleton.mp only] at part
          exact Expr.parts_trans here part
      have first := single e List.mem_cons_self listed ordered listed'
      have others := ih (fun d held => inside d (List.mem_cons_of_mem _ held)) walked.ordered nested
        fun d held => single d (List.mem_cons_of_mem _ held)
      rw [Expr.depthFirstAll, List.flatMap_cons, ← List.append_assoc]
      exact others.trans (first.append _)

theorem alike_depthFirst {e : Expr} (inside : e ∈ root.parts) {listed : List Expr}
    (ordered : Expr.Ordered listed) (listed' : ∀ d ∈ listed, d ∈ root.parts) :
    Alike ((e.depthFirst listed).flatMap Expr.own) (listed.flatMap Expr.own ++ e.order) := by
  induction e using Expr.byDeps generalizing listed with
  | step e ih =>
      rw [Expr.depthFirst_eq]
      by_cases known : e.fingerprint ∈ Expr.prints listed
      · -- what is listed under its fingerprint is the same, so all its parts have come up already
        rw [if_pos known]
        refine .of_repeated fun u met => ?_
        obtain ⟨part, nested, held⟩ := List.mem_flatMap.mp (Expr.mem_order_iff.mp met)
        have found := ordered.parts_listed (told.uncollided.subset reached) listed' inside known part
          nested
        obtain ⟨d, present, same⟩ := List.mem_map.mp found
        have print := prints_own told reached (listed' d present) (Expr.parts_trans inside nested)
          same u (Expr.mem_own_iff.mpr held)
        obtain ⟨w, own, same⟩ := List.mem_map.mp print
        rw [← same]
        exact List.mem_map_of_mem (List.mem_flatMap.mpr ⟨d, present, own⟩)
      · rw [if_neg known, List.flatMap_append, List.flatMap_singleton, e.order_eq,
          ← List.append_assoc]
        exact (alike_depthFirstAll told reached
          (fun dep direct => Expr.deps_mem_parts inside direct) ordered listed'
          fun dep direct _ ordered listed' =>
            ih dep direct (Expr.deps_mem_parts inside direct) ordered listed').append _

theorem alike_postOrder : Alike (root.postOrder.flatMap Expr.own) root.order := by
  have here := root.self_mem_parts
  rw [Expr.postOrder_eq (told.acyclic (reached root here))]
  exact alike_depthFirst told reached here .nil fun _ held => absurd held List.not_mem_nil

end

end Encoding

end ExprWire
