import ExprWire.Expr.Order
import ExprWire.Proofs.Identity
/-!
The walk over the sub-expressions. The walk with a stack lists what the plain recursive walk lists,
and that list has every fingerprint once and each dependency before its dependents.
-/

namespace ExprWire.Expr

def prints (es : List Expr) : List Fingerprint := es.map fingerprint

/-- No expression under another has its fingerprint. -/
def Acyclic (e : Expr) : Prop :=
  ∀ inner ∈ e.parts, ∀ dep ∈ inner.deps, ∀ part ∈ dep.parts, part.fingerprint ≠ inner.fingerprint

theorem Acyclic.dep {e dep : Expr} (acyclic : e.Acyclic) (direct : dep ∈ e.deps) : dep.Acyclic :=
  fun inner inside => acyclic inner (mem_parts_of_dep direct inside)

theorem Acyclic.dep_ne {e dep part : Expr} (acyclic : e.Acyclic) (direct : dep ∈ e.deps)
    (inside : part ∈ dep.parts) : part.fingerprint ≠ e.fingerprint :=
  acyclic e e.self_mem_parts dep direct part inside

theorem Uncollided.acyclic {e : Expr} (uncollided : Uncollided e.parts) : e.Acyclic := by
  intro inner inside dep direct part nested
  have narrowed : Uncollided inner.parts := uncollided.subset fun _ => parts_trans inside
  exact narrowed.dep_ne direct nested

/-- Every expression has a fingerprint of its own and stands behind its dependencies. -/
inductive Ordered : List Expr → Prop where
  | nil : Ordered []
  | snoc {es : List Expr} {e : Expr} (earlier : Ordered es)
      (deps : ∀ dep ∈ e.deps, dep.fingerprint ∈ prints es) (fresh : e.fingerprint ∉ prints es) :
      Ordered (es ++ [e])

theorem Ordered.nodup {es : List Expr} (ordered : Ordered es) : (prints es).Nodup := by
  induction ordered with
  | nil => exact List.nodup_nil
  | @snoc es e _ _ fresh ih =>
      rw [prints, List.map_append, List.map_singleton, List.nodup_append]
      refine ⟨ih, List.pairwise_singleton _ _, ?_⟩
      intro print listed other single same
      rw [List.mem_singleton.mp single] at same
      exact fresh (same ▸ listed)

theorem depthFirst_eq (e : Expr) (listed : List Expr) : depthFirst e listed =
    if e.fingerprint ∈ prints listed then listed else depthFirstAll e.deps listed ++ [e] := by
  have asked : (listed.any fun other => other.fingerprint = e.fingerprint) = true ↔
      e.fingerprint ∈ prints listed := by
    simp only [List.any_eq_true, decide_eq_true_eq, prints, List.mem_map]
  have unfolded : depthFirst e listed =
      if listed.any fun other => other.fingerprint = e.fingerprint then listed
      else depthFirstAll e.deps listed ++ [e] := by
    cases e <;> rfl
  rw [unfolded]
  by_cases known : e.fingerprint ∈ prints listed
  · rw [if_pos (asked.mpr known), if_pos known]
  · rw [if_neg (fun held => known (asked.mp held)), if_neg known]

/-- What a walk appends to the listed expressions: parts of the given ones, in order. -/
structure Appended (given listed after : List Expr) : Prop where
  extends_listed : ∃ more, after = listed ++ more ∧ ∀ part ∈ more, ∃ e ∈ given, part ∈ e.parts
  ordered : Ordered after
  lists : ∀ e ∈ given, e.fingerprint ∈ prints after

theorem Appended.keeps {given listed after : List Expr} (appended : Appended given listed after)
    {print : Fingerprint} (known : print ∈ prints listed) : print ∈ prints after := by
  rcases appended.extends_listed with ⟨more, rfl, -⟩
  rw [prints, List.map_append]
  exact List.mem_append_left _ known

theorem appended_depthFirstAll {es listed : List Expr} (ordered : Ordered listed)
    (single : ∀ e ∈ es, ∀ listed, Ordered listed → Appended [e] listed (depthFirst e listed)) :
    Appended es listed (depthFirstAll es listed) := by
  induction es generalizing listed with
  | nil =>
      refine ⟨⟨[], (List.append_nil _).symm, fun _ present => absurd present List.not_mem_nil⟩,
        ordered, fun _ present => absurd present List.not_mem_nil⟩
  | cons e es ih =>
      have first := single e List.mem_cons_self listed ordered
      have others := ih first.ordered fun e present => single e (List.mem_cons_of_mem _ present)
      rw [depthFirstAll]
      refine ⟨?extends_listed, others.ordered, ?lists⟩
      case extends_listed =>
        rcases first.extends_listed with ⟨more, grown, parts⟩
        rcases others.extends_listed with ⟨later, grown', parts'⟩
        refine ⟨more ++ later, by rw [grown', grown, List.append_assoc], ?_⟩
        intro part present
        rcases List.mem_append.mp present with early | late
        · rcases parts part early with ⟨_, same, inside⟩
          rw [List.mem_singleton.mp same] at inside
          exact ⟨e, List.mem_cons_self, inside⟩
        · rcases parts' part late with ⟨other, listed, inside⟩
          exact ⟨other, List.mem_cons_of_mem _ listed, inside⟩
      case lists =>
        intro other present
        rcases List.mem_cons.mp present with rfl | later
        · exact others.keeps (first.lists _ (List.mem_singleton_self _))
        · exact others.lists other later

theorem appended_depthFirst {e : Expr} (acyclic : e.Acyclic) {listed : List Expr}
    (ordered : Ordered listed) : Appended [e] listed (depthFirst e listed) := by
  induction e using byDeps generalizing listed with
  | step e ih =>
      rw [depthFirst_eq]
      by_cases known : e.fingerprint ∈ prints listed
      · rw [if_pos known]
        refine ⟨⟨[], (List.append_nil _).symm, fun _ present => absurd present List.not_mem_nil⟩,
          ordered, ?_⟩
        intro other single
        rw [List.mem_singleton.mp single]
        exact known
      · rw [if_neg known]
        have below := appended_depthFirstAll ordered fun dep direct _ ordered =>
          ih dep direct (acyclic.dep direct) ordered
        rcases below.extends_listed with ⟨more, grown, parts⟩
        have fresh : e.fingerprint ∉ prints (depthFirstAll e.deps listed) := by
          rw [grown, prints, List.map_append, List.mem_append]
          intro held
          rcases held with earlier | new
          · exact known earlier
          · rcases List.mem_map.mp new with ⟨part, listed, same⟩
            rcases parts part listed with ⟨dep, direct, inside⟩
            exact acyclic.dep_ne direct inside same
        refine ⟨?extends_listed, below.ordered.snoc below.lists fresh, ?lists⟩
        case extends_listed =>
          refine ⟨more ++ [e], by rw [grown, List.append_assoc], ?_⟩
          intro part present
          refine ⟨e, List.mem_singleton_self _, ?_⟩
          rcases List.mem_append.mp present with nested | last
          · rcases parts part nested with ⟨dep, direct, inside⟩
            exact mem_parts_of_dep direct inside
          · rw [List.mem_singleton.mp last]
            exact e.self_mem_parts
        case lists =>
          intro other single
          rw [List.mem_singleton.mp single, prints, List.map_append]
          exact List.mem_append_right _ (List.mem_singleton_self _)

/-- The marked fingerprints are those of the listed expressions and of the unfinished ones. -/
def Marks (seen : Seen) (listed : List Expr) (unfinished : List Fingerprint) : Prop :=
  ∀ print, seen.contains print = true ↔ print ∈ prints listed ∨ print ∈ unfinished

theorem Marks.insert {seen : Seen} {listed : List Expr} {unfinished : List Fingerprint}
    (marks : Marks seen listed unfinished) (print : Fingerprint) :
    Marks (seen.insert print) listed (print :: unfinished) := by
  intro other
  rw [Std.TreeSet.contains_insert, Bool.or_eq_true, marks other, beq_iff_eq,
    Std.LawfulEqOrd.compare_eq_iff_eq, List.mem_cons]
  constructor
  · intro held
    rcases held with same | listed | open'
    · exact .inr (.inl same.symm)
    · exact .inl listed
    · exact .inr (.inr open')
  · intro held
    rcases held with listed | same | open'
    · exact .inr (.inl listed)
    · exact .inl same.symm
    · exact .inr (.inr open')

theorem Marks.finish {seen : Seen} {listed : List Expr} {e : Expr} {unfinished : List Fingerprint}
    (marks : Marks seen listed (e.fingerprint :: unfinished)) :
    Marks seen (listed ++ [e]) unfinished := by
  intro print
  rw [marks print, prints, prints, List.map_append, List.mem_append, List.mem_cons,
    List.map_singleton, List.mem_singleton, or_assoc]

def Visits (e : Expr) : Prop :=
  ∀ top rest below seen listed unfinished, Marks seen listed unfinished →
    (∀ part ∈ e.parts, part.fingerprint ∉ unfinished) →
    ∃ seen', walk seen (⟨top, e :: rest⟩ :: below) listed.reverse =
        walk seen' (⟨top, rest⟩ :: below) (depthFirst e listed).reverse ∧
      Marks seen' (depthFirst e listed) unfinished

theorem walk_deps {deps : List Expr} (visits : ∀ dep ∈ deps, dep.Visits) (top : Expr)
    (below : List Frame) {seen : Seen} {listed : List Expr} {unfinished : List Fingerprint}
    (marks : Marks seen listed unfinished)
    (apart : ∀ dep ∈ deps, ∀ part ∈ dep.parts, part.fingerprint ∉ unfinished) :
    ∃ seen', walk seen (⟨top, deps⟩ :: below) listed.reverse =
        walk seen' (⟨top, []⟩ :: below) (depthFirstAll deps listed).reverse ∧
      Marks seen' (depthFirstAll deps listed) unfinished := by
  induction deps generalizing seen listed with
  | nil => exact ⟨seen, rfl, marks⟩
  | cons dep deps ih =>
      obtain ⟨middle, first, marks⟩ := visits dep List.mem_cons_self top deps below seen listed
        unfinished marks (apart dep List.mem_cons_self)
      obtain ⟨seen', others, marks⟩ := ih
        (fun dep present => visits dep (List.mem_cons_of_mem _ present)) marks
        (fun dep present => apart dep (List.mem_cons_of_mem _ present))
      exact ⟨seen', first.trans others, marks⟩

theorem visits {e : Expr} (acyclic : e.Acyclic) : e.Visits := by
  induction e using byDeps with
  | step e ih =>
      intro top rest below seen listed unfinished marks apart
      rw [walk, depthFirst_eq]
      by_cases known : e.fingerprint ∈ prints listed
      · rw [if_pos ((marks _).mpr (.inl known)), if_pos known]
        exact ⟨seen, rfl, marks⟩
      · have unmarked : ¬seen.contains e.fingerprint = true := by
          rw [marks]
          intro held
          rcases held with listed | open'
          · exact known listed
          · exact apart e e.self_mem_parts open'
        rw [if_neg unmarked, if_neg known]
        obtain ⟨seen', under, marks⟩ := walk_deps
          (fun dep direct => ih dep direct (acyclic.dep direct)) e (⟨top, rest⟩ :: below)
          (marks.insert e.fingerprint)
          (by
            intro dep direct part inside open'
            rcases List.mem_cons.mp open' with same | outer
            · exact acyclic.dep_ne direct inside same
            · exact apart part (mem_parts_of_dep direct inside) outer)
        refine ⟨seen', ?_, marks.finish⟩
        rw [under, walk, List.reverse_append, List.reverse_singleton, List.singleton_append]

theorem postOrder_eq {e : Expr} (acyclic : e.Acyclic) : e.postOrder = depthFirst e [] := by
  have marks : Marks (Std.TreeSet.empty.insert e.fingerprint) [] [e.fingerprint] := by
    refine Marks.insert (fun print => ?_) _
    have unmarked : (Std.TreeSet.empty : Seen).contains print = false :=
      Std.TreeSet.contains_emptyc
    rw [unmarked]
    exact ⟨nofun, nofun⟩
  obtain ⟨seen', under, _⟩ := walk_deps
    (fun dep direct => visits (acyclic.dep direct)) e [] marks
    (by
      intro dep direct part inside open'
      exact acyclic.dep_ne direct inside (List.mem_singleton.mp open'))
  rw [List.reverse_nil] at under
  rw [postOrder, under, walk, walk, depthFirst_eq,
    if_neg (show e.fingerprint ∉ prints [] from List.not_mem_nil), List.reverse_cons,
    List.reverse_reverse]

theorem appended_postOrder {e : Expr} (acyclic : e.Acyclic) : Appended [e] [] e.postOrder := by
  rw [postOrder_eq acyclic]
  exact appended_depthFirst acyclic .nil

end ExprWire.Expr

namespace ExprWire.Roots.Told

theorem acyclic {roots : Roots} (told : roots.Told) {e : Expr} (present : e ∈ roots.nodes) :
    e.Acyclic := by
  obtain ⟨root, listed, outer⟩ := List.mem_flatMap.mp present
  have reached : ∀ part ∈ e.parts, part ∈ roots.nodes := fun _ inside =>
    Roots.parts_subset_nodes listed _ (Expr.parts_trans outer inside)
  exact (told.uncollided.subset reached).acyclic

end ExprWire.Roots.Told
