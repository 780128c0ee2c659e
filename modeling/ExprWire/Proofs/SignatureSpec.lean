import ExprWire.Signature
/-!
Parameters as they are written. None has a comma or blanks at the ends, and the parts of a
specification are accepted if they are those of a signature.
-/

namespace ExprWire

namespace Text

/-- Characters without a comma and without blanks at the ends. -/
structure Solid (cs : List Char) : Prop where
  noComma : ',' ∉ cs
  first : ∃ c ∈ cs.head?, isBlank c = false
  last : ∃ c ∈ cs.getLast?, isBlank c = false

theorem dropWhile_isBlank {cs : List Char} (first : ∃ c ∈ cs.head?, isBlank c = false) :
    cs.dropWhile isBlank = cs := by
  rcases first with ⟨c, head, black⟩
  cases cs with
  | nil => cases head
  | cons d ds =>
      have same : d = c := Option.some.inj head
      subst d
      exact List.dropWhile_cons_of_neg (by rw [black]; exact Bool.false_ne_true)

theorem trim_eq_self {cs : List Char} (first : ∃ c ∈ cs.head?, isBlank c = false)
    (last : ∃ c ∈ cs.getLast?, isBlank c = false) : trim cs = cs := by
  rw [trim, dropWhile_isBlank first, dropWhile_isBlank, List.reverse_reverse]
  rwa [List.head?_reverse]

theorem Solid.trim {cs : List Char} (solid : Solid cs) : trim cs = cs :=
  trim_eq_self solid.first solid.last

theorem commaParts_ne_nil (cs : List Char) : commaParts cs ≠ [] := by
  cases cs with
  | nil => exact List.cons_ne_nil _ _
  | cons c cs =>
      unfold commaParts
      split <;> exact List.cons_ne_nil _ _

theorem commaParts_comma (cs : List Char) : commaParts (',' :: cs) = [] :: commaParts cs := by
  rw [commaParts]

theorem commaParts_cons {c : Char} {cs part : List Char} {parts : List (List Char)}
    (plain : c ≠ ',')
    (parted : commaParts cs = part :: parts) : commaParts (c :: cs) = (c :: part) :: parts := by
  unfold commaParts
  split
  · exact absurd rfl plain
  · rename_i empty
    exact absurd empty (commaParts_ne_nil cs)
  · rename_i equal
    rcases List.cons.inj (parted.symm.trans equal) with ⟨rfl, rfl⟩
    rfl

theorem commaParts_append {cs rest part : List Char} {parts : List (List Char)}
    (noComma : ',' ∉ cs) (parted : commaParts rest = part :: parts) :
    commaParts (cs ++ rest) = (cs ++ part) :: parts := by
  induction cs with
  | nil => exact parted
  | cons c cs ih =>
      have plain : c ≠ ',' := fun same => noComma (same ▸ List.mem_cons_self)
      exact commaParts_cons plain (ih fun present => noComma (List.mem_cons_of_mem _ present))

theorem intercalate_ends {part : List Char} {parts : List (List Char)}
    (solid : ∀ cs ∈ part :: parts, Solid cs) :
    (∃ c ∈ ([',', ' '].intercalate (part :: parts)).head?, isBlank c = false) ∧
      ∃ c ∈ ([',', ' '].intercalate (part :: parts)).getLast?, isBlank c = false := by
  induction parts generalizing part with
  | nil =>
      have solid := solid part List.mem_cons_self
      rw [List.intercalate_singleton]
      exact ⟨solid.first, solid.last⟩
  | cons next parts ih =>
      rcases (solid part List.mem_cons_self).first with ⟨c, head, black⟩
      rcases (ih fun cs present => solid cs (List.mem_cons_of_mem _ present)).2 with
        ⟨d, last, black'⟩
      rw [List.intercalate_cons_cons]
      refine ⟨⟨c, ?_, black⟩, ⟨d, ?_, black'⟩⟩
      · rw [List.append_assoc, List.head?_append, Option.mem_def.mp head]
        rfl
      · rw [List.getLast?_append, Option.mem_def.mp last]
        rfl

end Text

namespace Signature

theorem isNameChar_range {c : Char} (legal : isNameChar c = true) :
    48 ≤ c.toNat ∧ c.toNat ≤ 122 := by
  have start {low high : Char} (between : (decide (low ≤ c) && decide (c ≤ high)) = true) :
      low.toNat ≤ c.toNat ∧ c.toNat ≤ high.toNat := by
    rw [Bool.and_eq_true, decide_eq_true_eq, decide_eq_true_eq] at between
    exact between
  simp only [isNameChar, isNameStart, Bool.or_eq_true] at legal
  rcases legal with ((upper | lower) | underscore) | digit
  · have := start upper
    exact ⟨Nat.le_trans (by decide) this.1, Nat.le_trans this.2 (by decide)⟩
  · have := start lower
    exact ⟨Nat.le_trans (by decide) this.1, Nat.le_trans this.2 (by decide)⟩
  · rw [beq_iff_eq.mp underscore]
    decide
  · have := start digit
    exact ⟨Nat.le_trans (by decide) this.1, Nat.le_trans this.2 (by decide)⟩

theorem isNameChar_black {c : Char} (legal : isNameChar c = true) : Text.isBlank c = false := by
  have range := isNameChar_range legal
  have black : ∀ n : Nat, 48 ≤ n → n ≤ 122 →
      ((9 ≤ n && n ≤ 13) || n == 0x20 || n == 0xA0 || n == 0x1680 || (0x2000 ≤ n && n ≤ 0x200A) ||
        n == 0x2028 || n == 0x2029 || n == 0x202F || n == 0x205F || n == 0x3000 || n == 0xFEFF) =
          false := by
    intro n low high
    simp only [Bool.or_eq_false_iff, Bool.and_eq_false_iff, decide_eq_false_iff_not,
      beq_eq_false_iff_ne]
    omega
  exact black c.toNat range.1 range.2

theorem isNameChar_of_start {c : Char} (legal : isNameStart c = true) : isNameChar c = true := by
  rw [isNameChar, legal, Bool.true_or]

theorem legal_name {name : String} (legal : isParameterName name = true) :
    ∃ c cs, name.toList = c :: cs ∧ ∀ d ∈ c :: cs, isNameChar d = true := by
  unfold isParameterName at legal
  split at legal
  · exact absurd legal (by decide)
  · rename_i c cs spelled
    rw [Bool.and_eq_true, List.all_eq_true] at legal
    refine ⟨c, cs, spelled, ?_⟩
    intro d present
    rcases List.mem_cons.mp present with rfl | later
    · exact isNameChar_of_start legal.1
    · exact legal.2 d later

theorem solid_of_legal {cs : List Char} {c : Char} (legal : ∀ d ∈ c :: cs, isNameChar d = true) :
    Text.Solid (c :: cs) where
  noComma present := by
    have := isNameChar_range (legal ',' present)
    exact absurd this.1 (by decide)
  first := ⟨c, rfl, isNameChar_black (legal c List.mem_cons_self)⟩
  last := by
    have last := List.getLast?_eq_some_getLast (List.cons_ne_nil c cs)
    exact ⟨_, last, isNameChar_black (legal _ (List.getLast_mem _))⟩

theorem solid_name {name : String} (legal : isParameterName name = true) :
    Text.Solid name.toList := by
  rcases legal_name legal with ⟨c, cs, spelled, legal⟩
  exact spelled ▸ solid_of_legal legal

theorem solid_starred {name : String} (legal : isParameterName name = true) :
    Text.Solid ('*' :: name.toList) := by
  have solid := solid_name legal
  refine ⟨?_, ⟨'*', rfl, by decide⟩, ?_⟩
  · intro present
    rcases List.mem_cons.mp present with same | later
    · exact absurd same (by decide)
    · exact solid.noComma later
  · rcases legal_name legal with ⟨c, cs, spelled, _⟩
    rw [spelled, List.getLast?_cons_cons, ← spelled]
    exact solid.last

theorem head_ne_star {name : String} (legal : isParameterName name = true) :
    (name.toList.head? == some '*') = false := by
  rcases legal_name legal with ⟨c, cs, spelled, legal⟩
  have range := isNameChar_range (legal c List.mem_cons_self)
  rw [spelled, List.head?_cons, beq_eq_false_iff_ne]
  intro same
  rw [Option.some.inj same] at range
  exact absurd range.1 (by decide)

variable {signature : Signature}

theorem addParts_positional (spec : String) (fixed : signature.variadic = none) {name : String}
    (legal : isParameterName name = true) (fresh : name ∉ signature.positional)
    (rest : List (List Char)) :
    addParts spec signature fixed (name.toList :: rest) =
      addParts spec (signature.addPositional fixed name legal fresh) rfl rest := by
  rw [addParts]
  simp only [head_ne_star legal, Bool.false_eq_true, if_false, String.ofList_toList, legal, fresh,
    dite_true, dite_false]

theorem addParts_variadic (spec : String) (fixed : signature.variadic = none) {name : String}
    (legal : isParameterName name = true) (fresh : name ∉ signature.positional) :
    addParts spec signature fixed ['*' :: name.toList] =
      .ok (signature.addVariadic fixed name legal fresh) := by
  rw [addParts]
  simp only [List.head?_cons, beq_self_eq_true, if_true, List.tail_cons, String.ofList_toList, legal,
    fresh, dite_true, dite_false, List.isEmpty_nil]

def written (positional : List String) (variadic : Option String) : List (List Char) :=
  positional.map String.toList ++ (variadic.map fun name => '*' :: name.toList).toList

theorem addParts_written (spec : String) (signature : Signature) (fixed : signature.variadic = none)
    {names : List String} {variadic : Option String}
    (legal : ∀ name ∈ names ++ variadic.toList, isParameterName name = true)
    (distinct : (signature.positional ++ (names ++ variadic.toList)).Nodup) :
    ∃ read, addParts spec signature fixed (written names variadic) = .ok read ∧
      read.positional = signature.positional ++ names ∧ read.variadic = variadic := by
  induction names generalizing signature with
  | nil =>
      cases variadic with
      | none =>
          refine ⟨signature, ?_, (List.append_nil _).symm, fixed⟩
          simp only [written, List.map_nil, Option.map_none, Option.toList_none, List.append_nil]
          rw [addParts]
      | some name =>
          have fresh : name ∉ signature.positional := by
            intro present
            exact (List.nodup_append.mp distinct).2.2 name present name (by simp) rfl
          have added := addParts_variadic spec fixed (legal name (by simp)) fresh
          exact ⟨_, added, (List.append_nil _).symm, rfl⟩
  | cons name names ih =>
      have fresh : name ∉ signature.positional := by
        intro present
        exact (List.nodup_append.mp distinct).2.2 name present name List.mem_cons_self rfl
      have known := legal name List.mem_cons_self
      have split : signature.positional ++ (name :: names ++ variadic.toList) =
          (signature.addPositional fixed name known fresh).positional ++
            (names ++ variadic.toList) := by
        simp only [addPositional, List.cons_append, List.append_assoc, List.nil_append]
      obtain ⟨read, parsed, positional, last⟩ := ih
        (signature.addPositional fixed name known fresh) rfl
          (fun other present => legal other (List.mem_cons_of_mem _ present)) (split ▸ distinct)
      refine ⟨read, ?_, ?_, last⟩
      · exact (addParts_positional spec fixed known fresh _).trans parsed
      · rw [positional, addPositional, List.append_assoc]
        rfl

theorem eq_of_parameters {left right : Signature} (positional : left.positional = right.positional)
    (variadic : left.variadic = right.variadic) : left = right := by
  cases left
  cases right
  subst positional
  subst variadic
  rfl

theorem map_toList_parameters (signature : Signature) :
    signature.parameters.map String.toList = written signature.positional signature.variadic := by
  rw [parameters, written, List.map_append]
  cases signature.variadic with
  | none => rfl
  | some name => exact congrArg _ (congrArg (fun cs => [cs]) String.toList_append)

theorem toList_spec (signature : Signature) :
    signature.spec.toList =
      [',', ' '].intercalate (written signature.positional signature.variadic) := by
  rw [spec, String.toList_intercalate, map_toList_parameters]
  rfl

theorem solid_written (signature : Signature) :
    ∀ cs ∈ written signature.positional signature.variadic, Text.Solid cs := by
  intro cs present
  rcases List.mem_append.mp present with present | present
  · rcases List.mem_map.mp present with ⟨name, listed, rfl⟩
    exact solid_name (signature.legal name (List.mem_append_left _ listed))
  · rcases Option.map_eq_some_iff.mp (Option.mem_toList.mp present) with ⟨name, listed, rfl⟩
    exact solid_starred (signature.legal name
      (List.mem_append_right _ (Option.mem_toList.mpr listed)))

end Signature

end ExprWire
