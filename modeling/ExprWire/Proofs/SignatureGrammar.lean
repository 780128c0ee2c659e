import Mathlib.Data.List.TakeWhile
import ExprWire.Proofs.Outcome
import ExprWire.Proofs.SignatureSpec
/-!
The grammar of specifications. A specification is blank, or it has parameters between commas, each
with blanks around it or none: identifiers that are all different, the last of them starred perhaps.
Exactly these parse, and what they parse to is what they spell.
-/

namespace ExprWire

namespace Text

variable {cs core before after : List Char}

def Blank (cs : List Char) : Prop := ∀ c ∈ cs, isBlank c = true

def Padded (core cs : List Char) : Prop :=
  ∃ before after, Blank before ∧ Blank after ∧ cs = before ++ core ++ after

theorem blank_nil : Blank [] := fun _ present => absurd present List.not_mem_nil

theorem Blank.noComma (blank : Blank cs) : ',' ∉ cs := fun present =>
  absurd (blank ',' present) (by decide)

theorem padded_trim (cs : List Char) : Padded (trim cs) cs := by
  have inner := List.takeWhile_append_dropWhile (p := isBlank) (l := (cs.dropWhile isBlank).reverse)
  refine ⟨cs.takeWhile isBlank, ((cs.dropWhile isBlank).reverse.takeWhile isBlank).reverse,
    fun c present => List.mem_takeWhile_imp present,
    fun c present => List.mem_takeWhile_imp (List.mem_reverse.mp present), ?_⟩
  rw [trim, List.append_assoc, ← List.reverse_append, inner, List.reverse_reverse,
    List.takeWhile_append_dropWhile]

theorem Padded.trim_eq (padded : Padded core cs) : trim cs = trim core := by
  obtain ⟨before, after, blank, blank', rfl⟩ := padded
  rw [trim, trim, List.append_assoc, List.dropWhile_append_of_pos blank, List.dropWhile_append]
  split
  · rename_i empty
    rw [List.isEmpty_iff.mp empty, List.dropWhile_eq_nil_iff.mpr blank']
  · rw [List.reverse_append, List.dropWhile_append_of_pos]
    exact fun c present => blank' c (List.mem_reverse.mp present)

theorem trim_eq_nil_iff : trim cs = [] ↔ Blank cs := by
  constructor
  · intro empty
    obtain ⟨before, after, blank, blank', same⟩ := padded_trim cs
    rw [empty, List.append_nil] at same
    intro c present
    rw [same] at present
    exact (List.mem_append.mp present).elim (blank c) (blank' c)
  · intro blank
    have padded : Padded [] cs := ⟨cs, [], blank, blank_nil, by simp⟩
    rw [padded.trim_eq]
    rfl

theorem commaParts_eq_splitOn (cs : List Char) : commaParts cs = cs.splitOn ',' := by
  induction cs with
  | nil => rfl
  | cons c cs ih =>
      rw [List.splitOn, List.splitOnP_cons_eq_if_modifyHead, ← List.splitOn, ← ih]
      by_cases comma : c = ','
      · subst comma
        exact commaParts_comma cs
      · rw [if_neg (fun same => comma (beq_iff_eq.mp same))]
        cases parted : commaParts cs with
        | nil => exact absurd parted (commaParts_ne_nil cs)
        | cons part parts => exact commaParts_cons comma parted

theorem intercalate_commaParts (cs : List Char) : [','].intercalate (commaParts cs) = cs := by
  rw [commaParts_eq_splitOn, List.intercalate_splitOn]

theorem commaParts_intercalate_comma {parts : List (List Char)}
    (noComma : ∀ part ∈ parts, ',' ∉ part) (some : parts ≠ []) :
    commaParts ([','].intercalate parts) = parts := by
  rw [commaParts_eq_splitOn, List.splitOn_intercalate ',' noComma some]

theorem Blank.commaParts_eq (blank : Blank cs) : commaParts cs = [cs] := by
  have single : commaParts (cs ++ []) = [cs ++ []] := commaParts_append blank.noComma rfl
  rwa [List.append_nil] at single

theorem commaParts_append_blank (blank : Blank after) (cs : List Char) :
    List.Forall₂ (fun part longer => ∃ more, Blank more ∧ longer = part ++ more)
      (commaParts cs) (commaParts (cs ++ after)) := by
  induction cs with
  | nil =>
      rw [List.nil_append, blank.commaParts_eq]
      exact .cons ⟨after, blank, rfl⟩ .nil
  | cons c cs ih =>
      by_cases comma : c = ','
      · subst comma
        rw [List.cons_append, commaParts_comma, commaParts_comma]
        exact .cons ⟨[], blank_nil, rfl⟩ ih
      · cases parted : commaParts cs with
        | nil => exact absurd parted (commaParts_ne_nil cs)
        | cons part parts =>
            rw [parted] at ih
            cases parted' : commaParts (cs ++ after) with
            | nil => exact absurd parted' (commaParts_ne_nil _)
            | cons longer others =>
                rw [parted'] at ih
                obtain ⟨⟨more, blank, rfl⟩, rest⟩ := List.forall₂_cons.mp ih
                rw [List.cons_append, commaParts_cons comma parted, commaParts_cons comma parted']
                exact .cons ⟨more, blank, rfl⟩ rest

theorem map_trim_commaParts_padded (padded : Padded core cs) :
    (commaParts cs).map trim = (commaParts core).map trim := by
  obtain ⟨before, after, blank, blank', rfl⟩ := padded
  have behind : List.Forall₂ (fun part longer => trim longer = trim part)
      (commaParts core) (commaParts (core ++ after)) :=
    (commaParts_append_blank blank' core).imp fun part _ ⟨more, blank, same⟩ =>
      Padded.trim_eq ⟨[], more, blank_nil, blank, same⟩
  -- The blanks in front belong to the first part, those behind to the last one.
  rw [List.append_assoc]
  cases parted : commaParts (core ++ after) with
  | nil => exact absurd parted (commaParts_ne_nil _)
  | cons part parts =>
      have padded : Padded part (before ++ part) := ⟨before, [], blank, blank_nil, by simp⟩
      rw [commaParts_append blank.noComma parted, List.map_cons, padded.trim_eq, ← List.map_cons,
        ← parted]
      exact List.forall₂_eq_eq_eq ▸ List.forall₂_map_left_iff.mpr
        (List.forall₂_map_right_iff.mpr behind.flip)

theorem intercalate_comma_space (part : List Char) (parts : List (List Char)) :
    [',', ' '].intercalate (part :: parts) =
      [','].intercalate (part :: parts.map (' ' :: ·)) := by
  induction parts generalizing part with
  | nil => rfl
  | cons next parts ih =>
      have moved : [','].intercalate ((' ' :: next) :: parts.map (' ' :: ·)) =
          ' ' :: [','].intercalate (next :: parts.map (' ' :: ·)) := by
        cases parts <;> rfl
      rw [List.intercalate_cons_cons, ih, List.map_cons, List.intercalate_cons_cons, moved,
        List.append_assoc, List.append_assoc]
      rfl

theorem parts_of_solid {cores parts : List (List Char)} (solid : ∀ core ∈ cores, Solid core)
    (padded : List.Forall₂ Padded cores parts) :
    parts.map trim = cores ∧ ∀ part ∈ parts, ',' ∉ part := by
  induction padded with
  | nil => exact ⟨rfl, fun _ listed => absurd listed List.not_mem_nil⟩
  | @cons core part cores parts padded _ ih =>
      obtain ⟨trimmed, others⟩ := ih fun other listed => solid other (List.mem_cons_of_mem _ listed)
      have known := solid core List.mem_cons_self
      refine ⟨by rw [List.map_cons, padded.trim_eq, known.trim, trimmed], ?_⟩
      rw [List.forall_mem_cons]
      refine ⟨?_, others⟩
      obtain ⟨before, after, blank, blank', rfl⟩ := padded
      simp only [List.mem_append, not_or]
      exact ⟨⟨blank.noComma, known.noComma⟩, blank'.noComma⟩

end Text

namespace Signature

variable {positional : List String} {variadic : Option String} {signature : Signature}

def IsIdentifier (cs : List Char) : Prop :=
  ∃ first rest, cs = first :: rest ∧ (first.isAlpha = true ∨ first = '_') ∧
    ∀ c ∈ rest, c.isAlphanum = true ∨ c = '_'

/-- Parameters that there may be together. -/
structure Legal (positional : List String) (variadic : Option String) : Prop where
  identifiers : ∀ name ∈ positional ++ variadic.toList, IsIdentifier name.toList
  distinct : (positional ++ variadic.toList).Nodup

/-- What a specification says. -/
inductive Spells : List Char → List String → Option String → Prop where
  | blank {cs : List Char} (blank : Text.Blank cs) : Spells cs [] none
  | parts {positional : List String} {variadic : Option String} {parts : List (List Char)}
      (padded : List.Forall₂ Text.Padded (written positional variadic) parts) :
      Spells ([','].intercalate parts) positional variadic

theorem isNameStart_iff {c : Char} : isNameStart c = true ↔ c.isAlpha = true ∨ c = '_' := by
  have upper : c.isUpper = true ↔ 'A' ≤ c ∧ c ≤ 'Z' := decide_eq_true_iff
  have lower : c.isLower = true ↔ 'a' ≤ c ∧ c ≤ 'z' :=
    Bool.and_eq_true_iff.trans (and_congr decide_eq_true_iff decide_eq_true_iff)
  have alpha : c.isAlpha = true ↔ c.isUpper = true ∨ c.isLower = true := Bool.or_eq_true_iff
  rw [alpha, upper, lower]
  simp only [isNameStart, Bool.or_eq_true, Bool.and_eq_true, decide_eq_true_eq, beq_iff_eq]

theorem isNameChar_iff {c : Char} : isNameChar c = true ↔ c.isAlphanum = true ∨ c = '_' := by
  have digit : c.isDigit = true ↔ '0' ≤ c ∧ c ≤ '9' :=
    Bool.and_eq_true_iff.trans (and_congr decide_eq_true_iff decide_eq_true_iff)
  have alphanum : c.isAlphanum = true ↔ c.isAlpha = true ∨ c.isDigit = true := Bool.or_eq_true_iff
  rw [alphanum, digit, or_right_comm, ← isNameStart_iff]
  simp only [isNameChar, Bool.or_eq_true, Bool.and_eq_true, decide_eq_true_eq]

theorem isParameterName_iff {name : String} :
    isParameterName name = true ↔ IsIdentifier name.toList := by
  unfold isParameterName
  cases name.toList with
  | nil => exact ⟨nofun, fun ⟨_, _, same, _⟩ => absurd same nofun⟩
  | cons c cs =>
      simp only [Bool.and_eq_true, List.all_eq_true, isNameStart_iff, isNameChar_iff]
      constructor
      · exact fun ⟨start, others⟩ => ⟨c, cs, rfl, start, others⟩
      · rintro ⟨_, _, ⟨⟩, start, others⟩
        exact ⟨start, others⟩

theorem legal_iff : Legal positional variadic ↔
    ∃ signature : Signature, signature.positional = positional ∧ signature.variadic = variadic := by
  constructor
  · intro legal
    exact ⟨⟨positional, variadic,
      fun name listed => isParameterName_iff.mpr (legal.identifiers name listed),
      legal.distinct⟩, rfl, rfl⟩
  · rintro ⟨signature, rfl, rfl⟩
    exact ⟨fun name listed => isParameterName_iff.mp (signature.legal name listed),
      signature.distinct⟩

theorem written_of_addParts {spec : String} {fixed : signature.variadic = none}
    {parts : List (List Char)} {read : Signature}
    (parsed : addParts spec signature fixed parts = .ok read) :
    ∃ names, read.positional = signature.positional ++ names ∧
      parts = written names read.variadic := by
  induction parts generalizing signature with
  | nil =>
      rw [addParts] at parsed
      obtain rfl := Except.ok.inj parsed
      exact ⟨[], (List.append_nil _).symm, by rw [fixed]; rfl⟩
  | cons part rest ih =>
      rw [addParts] at parsed
      cases starred : part.head? == some '*' with
      | true =>
          obtain ⟨cs, rfl⟩ := List.head?_eq_some_iff.mp (beq_iff_eq.mp starred)
          simp only [starred, if_true, List.tail_cons] at parsed
          split_ifs at parsed with legal fresh last
          · cases parsed
          · obtain rfl := Except.ok.inj parsed
            refine ⟨[], (List.append_nil _).symm, ?_⟩
            rw [List.isEmpty_iff.mp last]
            simp [written, addVariadic]
          · cases parsed
          · cases parsed
      | false =>
          simp only [starred, Bool.false_eq_true, if_false] at parsed
          split at parsed
          · split at parsed
            · cases parsed
            · obtain ⟨names, positional, rfl⟩ := ih parsed
              refine ⟨String.ofList part :: names, ?_, ?_⟩
              · rw [positional, addPositional, List.append_assoc]
                rfl
              · simp [written]
          · cases parsed

theorem addParts_empty_iff {spec : String} {parts : List (List Char)} :
    addParts spec empty rfl parts = .ok signature ↔
      parts = written signature.positional signature.variadic := by
  constructor
  · intro parsed
    obtain ⟨names, positional, same⟩ := written_of_addParts parsed
    rw [same, positional]
    rfl
  · rintro rfl
    obtain ⟨read, parsed, positional, variadic⟩ :=
      addParts_written spec empty rfl signature.legal signature.distinct
    rw [parsed, eq_of_parameters positional variadic]

theorem parse_of_spells {spec : String}
    (spelled : Spells spec.toList signature.positional signature.variadic) :
    parse spec = .ok signature := by
  have parsed : addParts spec empty rfl (written signature.positional signature.variadic) =
      .ok signature := addParts_empty_iff.mpr rfl
  have solid := signature.solid_written
  rw [parse]
  generalize spec.toList = cs, positional : signature.positional = names,
    variadic : signature.variadic = last at spelled parsed solid
  cases spelled with
  | blank blank =>
      rw [Text.trim_eq_nil_iff.mpr blank]
      exact congrArg Except.ok (eq_of_parameters positional.symm variadic.symm)
  | @parts _ _ parts padded =>
      obtain ⟨trimmed, noComma⟩ := Text.parts_of_solid solid padded
      obtain rfl | some := eq_or_ne parts []
      · rw [← trimmed] at parsed
        exact parsed
      have parted := Text.commaParts_intercalate_comma noComma some
      split
      · -- Blanks alone are one empty part, but no parameter is empty.
        rename_i blank
        have single := (Text.trim_eq_nil_iff.mp blank).commaParts_eq
        rw [parted] at single
        rw [single, List.map_singleton, blank] at trimmed
        obtain ⟨c, none, -⟩ := (solid [] (trimmed ▸ List.mem_singleton_self _)).first
        cases none
      · rwa [← Text.map_trim_commaParts_padded (Text.padded_trim _), parted, trimmed]

theorem parse_eq_ok_iff {spec : String} : parse spec = .ok signature ↔
    Spells spec.toList signature.positional signature.variadic := by
  refine ⟨fun parsed => ?_, parse_of_spells⟩
  rw [parse] at parsed
  split at parsed
  · rename_i empty
    obtain rfl := Except.ok.inj parsed
    exact .blank (Text.trim_eq_nil_iff.mp empty)
  · have same := addParts_empty_iff.mp parsed
    rw [← Text.map_trim_commaParts_padded (Text.padded_trim _)] at same
    have spelled : Spells ([','].intercalate (Text.commaParts spec.toList)) _ _ :=
      .parts (same ▸ List.forall₂_map_left_iff.mpr
        (List.forall₂_same.mpr fun part _ => Text.padded_trim part))
    rwa [Text.intercalate_commaParts] at spelled

theorem spells_spec (signature : Signature) :
    Spells signature.spec.toList signature.positional signature.variadic := by
  rw [toList_spec]
  cases parts : written signature.positional signature.variadic with
  | nil =>
      change Spells ([','].intercalate []) _ _
      refine .parts ?_
      rw [parts]
      exact .nil
  | cons part rest =>
      rw [Text.intercalate_comma_space]
      refine .parts ?_
      rw [parts]
      refine .cons ⟨[], [], Text.blank_nil, Text.blank_nil, by simp⟩ ?_
      refine List.forall₂_map_right_iff.mpr (List.forall₂_same.mpr fun cs _ => ?_)
      exact ⟨[' '], [], by simp [Text.Blank, Text.isBlank], Text.blank_nil, by simp⟩

theorem parse_spec (signature : Signature) : parse signature.spec = .ok signature :=
  parse_of_spells signature.spells_spec

theorem spec_injective {left right : Signature} (same : left.spec = right.spec) : left = right := by
  have parsed := parse_spec left
  rw [same, parse_spec right] at parsed
  exact (Except.ok.inj parsed).symm

theorem failsFor_addParts (spec : String) (signature : Signature)
    (fixed : signature.variadic = none) (parts : List (List Char)) :
    FailsFor Cause.OfInput (addParts spec signature fixed parts) := by
  induction parts generalizing signature with
  | nil => exact failsFor_ok signature
  | cons part rest ih =>
      rw [addParts]
      split_ifs
      · exact failsFor_raise rfl
      · exact failsFor_ok _
      · exact failsFor_raise rfl
      · exact failsFor_raise rfl
      · exact failsFor_raise rfl
      · exact ih _ rfl
      · exact failsFor_raise rfl

theorem failsFor_parse (spec : String) : FailsFor Cause.OfInput (parse spec) := by
  rw [parse]
  split
  · exact failsFor_ok empty
  · exact failsFor_addParts spec empty rfl _

theorem failsFor_checkCount (signature : Signature) (count : Nat) :
    FailsFor Cause.OfInput (signature.checkCount count) := by
  rw [checkCount]
  split
  · exact failsFor_ok ()
  · exact failsFor_raise rfl

theorem checkCount_eq_ok_iff {count : Nat} : signature.checkCount count = .ok () ↔
    count = signature.parameters.length ∨
      signature.variadic.isSome = true ∧ signature.positional.length ≤ count := by
  have accepted : signature.checkCount count = .ok () ↔
      signature.arity.accepts count = true := by
    rw [checkCount]
    split
    · rename_i accepted
      exact ⟨fun _ => accepted, fun _ => rfl⟩
    · rename_i refused
      exact ⟨nofun, fun accepted => absurd accepted refused⟩
  rw [accepted, arity, Arity.accepts, parameters, List.length_append]
  cases signature.variadic with
  | none => simp
  | some name =>
      simp only [Option.isSome_some, if_true, decide_eq_true_eq, Option.map_some,
        Option.toList_some, List.length_singleton, true_and]
      omega

/-- Parsing accepts exactly the grammar, and rendering inverts it. A specification parses to the
signature with the parameters that it spells, if they are legal together; any other one is an
invalid argument. Every choice of legal parameters is that of a signature, whose rendering parses
to it. So an accepted specification can be replaced by the rendering of what it parses to; and the
dependencies that this admits are as many as its parameters, or enough for all but the variadic
one. -/
theorem parses_exactly (spec : String) :
    (∀ signature, parse spec = .ok signature ↔
      Spells spec.toList signature.positional signature.variadic) ∧
    ((∃ signature, parse spec = .ok signature) ↔
      ∃ positional variadic, Legal positional variadic ∧ Spells spec.toList positional variadic) ∧
    ((∃ signature, parse spec = .ok signature) ∨
      ∃ problem, parse spec = .error problem ∧ problem.hasStatus .invalidArgument = true) ∧
    (∀ positional variadic, Legal positional variadic → ∃ signature : Signature,
      signature.positional = positional ∧ signature.variadic = variadic ∧
        parse signature.spec = .ok signature) ∧
    ∀ signature, parse spec = .ok signature →
      parse signature.spec = .ok signature ∧
      (parse signature.spec).map Signature.spec = .ok signature.spec ∧
      ∀ count, signature.checkCount count = .ok () ↔ count = signature.parameters.length ∨
        signature.variadic.isSome = true ∧ signature.positional.length ≤ count := by
  refine ⟨fun signature => parse_eq_ok_iff, ?_, ?_, ?_, ?_⟩
  · constructor
    · rintro ⟨signature, parsed⟩
      exact ⟨_, _, legal_iff.mpr ⟨signature, rfl, rfl⟩, parse_eq_ok_iff.mp parsed⟩
    · rintro ⟨positional, variadic, legal, spelled⟩
      obtain ⟨signature, rfl, rfl⟩ := legal_iff.mp legal
      exact ⟨signature, parse_of_spells spelled⟩
  · cases parsed : parse spec with
    | ok signature => exact .inl ⟨signature, rfl⟩
    | error problem =>
        obtain ⟨fault, rfl, blamed⟩ := failsFor_parse spec problem parsed
        exact .inr ⟨_, rfl, decide_eq_true blamed.status_eq⟩
  · intro positional variadic legal
    obtain ⟨signature, rfl, rfl⟩ := legal_iff.mp legal
    exact ⟨signature, rfl, rfl, signature.parse_spec⟩
  · intro signature parsed
    exact ⟨signature.parse_spec, by rw [signature.parse_spec]; rfl,
      fun count => checkCount_eq_ok_iff⟩

example : (parse " x,\ty , *args").map spec = .ok "x, y, *args" := by decide

example : parse "x," = raise (.illegalParameter "" "x,") := by decide

end Signature

end ExprWire
