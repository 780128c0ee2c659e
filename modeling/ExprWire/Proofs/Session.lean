import ExprWire.Proofs.Encoding
/-!
Sessions: any calls to one encoder, one after the other. What a session has returned stays true of
the encoder, which is that of a ledger throughout.
-/

namespace ExprWire

open Encoder (Books)
open Ledger (Spells Spelled)

/-- A call to an encoder. A marker names a position that another call has returned. -/
inductive Call where
  | codec (name : String)
  | value (v : Value)
  | expr (e : Expr)
  | markValue (position : Nat)
  | markExpr (position : Nat)

abbrev Trace := List (Call × Nat)

namespace Call

def run (encode : ValueEncoder) : Call → Encoding Nat
  | .codec name => Encoding.declare name
  | .value v => Encoding.value encode v
  | .expr e => Encoding.expr encode e
  | .markValue position => Encoding.emit (.outputValue (.ofNat position))
  | .markExpr position => Encoding.emit (.outputExpr (.ofNat position))

/-- Whether a call may come after others. -/
def Allowed (trace : Trace) : Call → Prop
  | .markValue position => ∃ v, (.value v, position) ∈ trace
  | .markExpr position => ∃ e, (.expr e, position) ∈ trace
  | _ => True

def value? : Call → Option Value
  | .value v => some v
  | _ => none

def expr? : Call → Option Expr
  | .expr e => some e
  | _ => none

end Call

def Trace.roots (trace : Trace) : Roots :=
  ⟨trace.filterMap fun entry => entry.1.value?, trace.filterMap fun entry => entry.1.expr?⟩

/-- The successful calls to a new encoder, and the encoder after them. -/
inductive Session (encode : ValueEncoder) : Trace → Encoder → Prop where
  | start : Session encode [] .empty
  | call {trace : Trace} {before after : Encoder} {call : Call} {result : Nat}
      (earlier : Session encode trace before) (allowed : call.Allowed trace)
      (ran : (call.run encode).run before = (.ok result, after)) :
      Session encode (trace ++ [(call, result)]) after

namespace Session

variable {roots : Roots} {trace : Trace} {encoder : Encoder} {items : Ledger}
  {operators : OperatorRegistry}

structure Covered (roots : Roots) (trace : Trace) : Prop where
  values : ∀ v position, (.value v, position) ∈ trace → ∀ part ∈ v.parts, part ∈ roots.contents
  exprs : ∀ e position, (.expr e, position) ∈ trace → ∀ part ∈ e.parts, part ∈ roots.nodes

theorem covered (trace : Trace) : Covered trace.roots trace where
  values _ _ present :=
    Roots.parts_subset_contents (List.mem_filterMap.mpr ⟨_, present, rfl⟩)
  exprs _ _ present :=
    Roots.parts_subset_nodes (List.mem_filterMap.mpr ⟨_, present, rfl⟩)

/-- That an encoder's books are kept, and hold what the calls have returned. -/
structure Account (roots : Roots) (trace : Trace) (encoder : Encoder) (items : Ledger) : Prop where
  books : Books roots encoder items
  values : ∀ v position, (.value v, position) ∈ trace → items.HasValue v position
  exprs : ∀ e position, (.expr e, position) ∈ trace → items.HasNode e position

theorem mem_snoc {entry : Call × Nat} {call : Call} {result : Nat}
    (present : entry ∈ trace ++ [(call, result)]) : entry ∈ trace ∨ entry = (call, result) := by
  rcases List.mem_append.mp present with old | last
  · exact .inl old
  · exact .inr (List.mem_singleton.mp last)

theorem Account.extend {more : Ledger} {after : Encoder} {call : Call} {result : Nat}
    (account : Account roots trace encoder items) (books : Books roots after (items ++ more))
    (value : ∀ v, call = .value v → (items ++ more).HasValue v result)
    (expr : ∀ e, call = .expr e → (items ++ more).HasNode e result) :
    Account roots (trace ++ [(call, result)]) after (items ++ more) where
  books := books
  values v position present := by
    rcases mem_snoc present with old | last
    · exact (account.values v position old).append
    · rcases Prod.mk.inj last with ⟨rfl, rfl⟩
      exact value v rfl
  exprs e position present := by
    rcases mem_snoc present with old | last
    · exact (account.exprs e position old).append
    · rcases Prod.mk.inj last with ⟨rfl, rfl⟩
      exact expr e rfl

theorem Account.call (told : roots.Told) (account : Account roots trace encoder items)
    {call : Call} {result : Nat} {after : Encoder}
    (covered : Covered roots (trace ++ [(call, result)])) (allowed : call.Allowed trace)
    (ran : (call.run (CodecRegistry.standard operators).encoder).run encoder =
      (.ok result, after)) :
    ∃ items, Account roots (trace ++ [(call, result)]) after items := by
  have last : (call, result) ∈ trace ++ [(call, result)] :=
    List.mem_append_right _ (List.mem_singleton_self _)
  cases call with
  | codec name =>
      rcases (Encoding.ensures_declare account.books name).of_run ran with ⟨more, books, -⟩
      exact ⟨_, account.extend books nofun nofun⟩
  | value v =>
      have present := covered.values v result last v v.self_mem_parts
      obtain ⟨more, books, stored, -⟩ :=
        (Encoding.ensures_value told present account.books).of_run ran
      refine ⟨_, account.extend books (fun u same => ?_) nofun⟩
      rwa [← Call.value.inj same]
  | expr e =>
      obtain ⟨more, books, stored, -⟩ :=
        (Encoding.ensures_expr told (covered.exprs e result last) account.books).of_run ran
      refine ⟨_, account.extend books nofun fun d same => ?_⟩
      rwa [← Call.expr.inj same]
  | markValue position =>
      rcases allowed with ⟨v, returned⟩
      rcases Prod.mk.inj ran with ⟨-, rfl⟩
      exact ⟨_, account.extend (account.books.push_marker
        (.outputValue (account.values v position returned))) nofun nofun⟩
  | markExpr position =>
      rcases allowed with ⟨e, returned⟩
      rcases Prod.mk.inj ran with ⟨-, rfl⟩
      exact ⟨_, account.extend (account.books.push_marker
        (.outputExpr (account.exprs e position returned))) nofun nofun⟩

theorem exists_account (told : roots.Told)
    (session : Session (CodecRegistry.standard operators).encoder trace encoder)
    (covered : Covered roots trace) : ∃ items, Account roots trace encoder items := by
  induction session with
  | start =>
      exact ⟨[], .start roots, fun _ _ present => absurd present List.not_mem_nil,
        fun _ _ present => absurd present List.not_mem_nil⟩
  | call earlier allowed ran ih =>
      obtain ⟨items, account⟩ := ih
        ⟨fun v position present => covered.values v position (List.mem_append_left _ present),
          fun e position present => covered.exprs e position (List.mem_append_left _ present)⟩
      exact account.call told covered allowed ran

theorem exists_value (told : roots.Told) (storable : Encoding.Storable roots.contents)
    (session : Session (CodecRegistry.standard operators).encoder trace encoder)
    (covered : Covered roots trace) {v : Value} (inside : ∀ part ∈ v.parts, part ∈ roots.contents) :
    ∃ position after, Session (CodecRegistry.standard operators).encoder
      (trace ++ [(.value v, position)]) after := by
  rcases session.exists_account told covered with ⟨items, account⟩
  obtain ⟨position, after, ran, -⟩ := (Encoding.ensures_value told (inside v v.self_mem_parts)
    account.books).exists_run (storable.passes (fun u listed =>
      inside u (Value.mem_order_iff.mp listed)) _)
  exact ⟨position, after, session.call trivial ran⟩

theorem exists_expr (told : roots.Told) (storable : Encoding.Storable roots.contents)
    (session : Session (CodecRegistry.standard operators).encoder trace encoder)
    (covered : Covered roots trace) {e : Expr} (inside : ∀ part ∈ e.parts, part ∈ roots.nodes) :
    ∃ position after, Session (CodecRegistry.standard operators).encoder
      (trace ++ [(.expr e, position)]) after := by
  rcases session.exists_account told covered with ⟨items, account⟩
  obtain ⟨position, after, ran, -⟩ := (Encoding.ensures_expr told inside
    account.books).exists_run (storable.passes (fun u listed =>
      Roots.expr_contents_subset inside u (Expr.mem_order_iff.mp listed)) _)
  exact ⟨position, after, session.call trivial ran⟩

theorem exists_markValue {encode : ValueEncoder} (session : Session encode trace encoder)
    {v : Value} {position : Nat} (returned : (.value v, position) ∈ trace) :
    ∃ result after, Session encode (trace ++ [(.markValue position, result)]) after :=
  ⟨_, _, session.call ⟨v, returned⟩ rfl⟩

theorem exists_markExpr {encode : ValueEncoder} (session : Session encode trace encoder) {e : Expr}
    {position : Nat} (returned : (.expr e, position) ∈ trace) :
    ∃ result after, Session encode (trace ++ [(.markExpr position, result)]) after :=
  ⟨_, _, session.call ⟨e, returned⟩ rfl⟩

theorem storable_sharing : Encoding.Storable Roots.sharing.contents := by
  rw [Roots.contents_sharing]
  intro u listed
  simp only [List.mem_cons, List.not_mem_nil, or_false] at listed
  rcases listed with rfl | rfl | rfl | rfl <;> exact ⟨trivial, trivial⟩

theorem exists_sharing (operators : OperatorRegistry) : ∃ trace encoder,
    Session (CodecRegistry.standard operators).encoder trace encoder ∧
      trace.roots = Roots.sharing ∧ trace.length = 4 := by
  have told := Roots.told Roots.faithful_sharing
  have values : ∀ part ∈ (Value.tuple [.unit, .unit]).parts, part ∈ Roots.sharing.contents :=
    Roots.parts_subset_contents List.mem_cons_self
  have exprs : ∀ part ∈ (Expr.apply .makeTuple [.leaf "x", .leaf "x"] .unknown).parts,
      part ∈ Roots.sharing.nodes := Roots.parts_subset_nodes List.mem_cons_self
  obtain ⟨position, first, session⟩ := exists_value told storable_sharing .start
    ⟨fun _ _ present => absurd present List.not_mem_nil,
      fun _ _ present => absurd present List.not_mem_nil⟩ values
  obtain ⟨position', second, session⟩ := exists_expr told storable_sharing session
    ⟨fun v place present => by
      rcases Prod.mk.inj (List.mem_singleton.mp present) with ⟨same, -⟩
      rw [Call.value.inj same]
      exact values,
      fun e place present => absurd (List.mem_singleton.mp present) nofun⟩ exprs
  rcases session.exists_markValue List.mem_cons_self with ⟨_, _, session⟩
  rcases session.exists_markExpr (List.mem_cons_of_mem _ List.mem_cons_self) with ⟨_, _, session⟩
  exact ⟨_, _, session, rfl, rfl⟩

theorem run_value_again (encode : ValueEncoder) (books : Books roots encoder items) {v : Value}
    {position : Nat} (stored : items.HasValue v position) :
    (Encoding.value encode v).run encoder = (.ok position, encoder) := by
  rw [Encoding.value_eq, Encoding.valueOnce, Encoding.run_get_bind,
    books.value_known.mpr stored]
  rfl

theorem run_expr_again (encode : ValueEncoder) (books : Books roots encoder items) {e : Expr}
    {position : Nat} (stored : items.HasNode e position) :
    (Encoding.expr encode e).run encoder = (.ok position, encoder) := by
  rw [Encoding.expr, Encoding.run_get_bind, books.node_known.mpr stored]
  rfl

end Session

end ExprWire
