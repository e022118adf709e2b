import Stencil.Node.Data
import Stencil.Proofs.Expression.Depth
import Stencil.Proofs.Expression.Weight
import Stencil.Resolution.Marker

namespace Stencil

open Lexemes Lexeme Grammar

/-! The parser undoes the printer where no abbreviation is lost, and nowhere else. So an
unresolved expression survives in a document that is written and read again. -/

variable {place : List String}

/-! ## Sources -/

namespace Expression

/-- The parser reads the lexemes of the source as the grammar does. -/
theorem parse_eq_ok_iff {source : String} {read : Expression} :
    parse source place = .ok read ↔
      ∃ lexemes, scan source = .ok lexemes ∧ ReadsAll place lexemes read := by
  constructor
  · intro parses
    rcases ok_of_bind parses with ⟨lexemes, scans, parses⟩
    have ended := (scanFrom_scanned scans).ended
    exact ⟨lexemes, scans, (parseLexemes_eq_ok_iff ended).mp parses⟩
  · rintro ⟨lexemes, scans, reads⟩
    have ended := (scanFrom_scanned scans).ended
    unfold parse
    rw [scans]
    exact (parseLexemes_eq_ok_iff ended).mpr reads

/-- What the parser reads. -/
theorem shape_of_parse {source : String} {read : Expression}
    (parses : parse source place = .ok read) :
    read.IsLegible ∧ read.StandsAlone ∧ (read.IsFaithful → read.IsLayered place) := by
  rcases parse_eq_ok_iff.mp parses with ⟨lexemes, scans, rest, reads, _⟩
  rcases reads.shaped (scanFrom_scanned scans) with ⟨shape, stands, _⟩
  exact ⟨shape.legible, stands, shape.layered⟩

/-- A well-layered expression is read from its printed form. -/
theorem parse_print_of_isLayered {expression : Expression} (legible : expression.IsLegible)
    (stands : expression.StandsAlone) (layered : expression.IsLayered place) :
    parse expression.print place = .ok expression := by
  rcases scan_print legible with ⟨lexemes, scans, alike⟩
  have reads : Reads place (.expression expression)
      (expression.written false ++ [sign .finish false]) [sign .finish false] :=
    (readsBack legible layered).closed legible stands rfl (fun _ => by decide) false false
  have ended := (scanFrom_scanned scans).ended
  rcases reads.similar (alike.similar ended _).symm with ⟨rest, same, reads⟩
  exact parse_eq_ok_iff.mpr ⟨lexemes, scans, rest, reads, same.peek.symm⟩

/-- Nothing that is read from its printed form has lost an abbreviation in it. -/
theorem isFaithful_of_parse_print {expression : Expression} (legible : expression.IsLegible)
    (parses : parse expression.print place = .ok expression) : expression.IsFaithful := by
  rcases scan_print legible with ⟨lexemes, scans, alike⟩
  rcases parse_eq_ok_iff.mp parses with ⟨lexemes', scans', rest, reads, finish⟩
  cases scans.symm.trans scans'
  have scanned := scanFrom_scanned scans
  rcases (reads.shaped scanned).1.scanned.of_finish finish with ⟨last, token, rfl⟩
  have same := alike.weight
  rw [weight_append, weight_cons, token_sign, weight_nil] at same
  refine (reads.lighter scanned).kept ?_
  rw [same, weight_cons, token, weight_nil]
  exact Int.le_refl _

end Expression

/-! ## Documents -/

namespace Text

/-- Text that neither starts nor ends with white space. -/
structure Trimmed (characters : List Char) : Prop where
  first : ∃ character rest, characters = character :: rest ∧ isBlank character = false
  last : ∃ front character, characters = front ++ [character] ∧ isBlank character = false

theorem Trimmed.of_all {characters : List Char} (some : characters ≠ [])
    (all : ∀ character ∈ characters, isBlank character = false) : Trimmed characters where
  first := by
    cases characters with
    | nil => exact absurd rfl some
    | cons first rest => exact ⟨first, rest, rfl, all first List.mem_cons_self⟩
  last :=
    ⟨characters.dropLast, characters.getLast some, (List.dropLast_append_getLast some).symm,
      all _ (List.getLast_mem some)⟩

/-- A text between double parentheses embeds the source inside them. -/
theorem embedded?_of_trimmed {source : String} (trimmed : Trimmed source.toList) :
    embedded? ("(( " ++ source ++ " ))") = some source := by
  have characters : ("(( " ++ source ++ " ))").toList =
      '(' :: '(' :: ' ' :: (source.toList ++ [' ', ')', ')']) := by
    simp
  have start : trimStart (' ' :: (source.toList ++ [' '])) = source.toList ++ [' '] := by
    rcases trimmed.first with ⟨first, rest, same, other⟩
    rw [same, trimStart, List.dropWhile_cons_of_pos rfl, List.cons_append,
      List.dropWhile_cons_of_neg (by simp [other])]
  have finish : trimEnd (source.toList ++ [' ']) = source.toList := by
    rcases trimmed.last with ⟨front, last, same, other⟩
    rw [same, trimEnd, List.reverse_append, List.reverse_singleton, List.singleton_append,
      List.dropWhile_cons_of_pos rfl, List.reverse_append, List.reverse_singleton,
      List.singleton_append, List.dropWhile_cons_of_neg (by simp [other]), List.reverse_cons,
      List.reverse_reverse]
  unfold embedded?
  rw [characters]
  simp [closing?, start, finish]

end Text

open Text

/-- White space is no part of a name. -/
theorem not_isBlank_of_nameLength {characters : List Char}
    (whole : nameLength characters = characters.length) :
    ∀ character ∈ characters, isBlank character = false := by
  induction characters with
  | nil => exact nofun
  | cons first rest induction =>
      refine List.forall_mem_cons.mpr ?_
      by_cases dash : first = '-'
      · subst dash
        rw [nameLength_dash] at whole
        split at whole
        · exact ⟨rfl, induction (by simpa using whole)⟩
        · simp at whole
      · cases part : isNamePart first with
        | false =>
            rw [nameLength_other part dash] at whole
            simp at whole
        | true =>
            rw [nameLength_part part] at whole
            exact ⟨not_isBlank_of_isNamePart part, induction (by simpa using whole)⟩

theorem Token.trimmed {token : Token} (writable : token.isWritable) :
    Trimmed token.characters := by
  cases token with
  | integer value =>
      have positive : 0 ≤ value.toInt := writable
      rw [characters, toString_of_nonneg positive]
      refine .of_all Nat.toDigits_ne_nil fun digit member => not_isBlank_of_isNamePart ?_
      have digit := Nat.isDigit_of_mem_toDigits (by decide) (by decide) member
      simp [isNamePart, Char.isAlphanum, digit]
  | identifier name =>
      rcases isName_iff.mp writable with ⟨first, others, same, start, whole⟩
      rw [characters, same]
      have part := not_isBlank_of_isNamePart (isNamePart_of_isNameStart start)
      exact .of_all (List.cons_ne_nil _ _)
        (List.forall_mem_cons.mpr ⟨part, not_isBlank_of_nameLength whole⟩)
  | text value => exact ⟨⟨_, _, rfl, rfl⟩, ⟨_, _, rfl, rfl⟩⟩
  | finish => exact writable.elim
  | _ =>
      refine .of_all (List.cons_ne_nil _ _) fun character member => ?_
      exact Bool.eq_false_iff.mpr (List.any_eq_false.mp (by decide) character member)

/-- The text of tokens in a row ends as the last token. -/
theorem Lexemes.characters_last {lexemes : List Lexeme} (apart : Apart lexemes)
    (more : lexemes ≠ []) : ∃ front last,
      Lexemes.characters lexemes = front ++ [last] ∧ isBlank last = false := by
  induction lexemes with
  | nil => exact absurd rfl more
  | cons lexeme rest induction =>
      cases rest with
      | nil =>
          rcases (Token.trimmed apart.1.1).last with ⟨front, last, same, other⟩
          refine ⟨(if lexeme.spaced then [' '] else []) ++ front, last, ?_, other⟩
          rw [Lexemes.characters_cons, Lexeme.characters, same]
          simp
      | cons next rest =>
          rcases induction apart.2 (List.cons_ne_nil _ _) with ⟨front, last, same, other⟩
          refine ⟨lexeme.characters ++ front, last, ?_, other⟩
          rw [Lexemes.characters_cons, same, List.append_assoc]

namespace Expression

theorem print_trimmed {expression : Expression} (legible : expression.IsLegible) :
    Trimmed expression.print.toList := by
  have apart : Apart (expression.written false ++ []) :=
    apart_written false legible trivial (by simp [endsName])
  have characters := characters_written false legible
  rw [blank_false, List.nil_append] at characters
  rw [List.append_nil] at apart
  rcases written_starts legible with ⟨token, tail, _, same⟩
  rw [same] at apart characters
  refine ⟨?_, characters ▸ Lexemes.characters_last apart (List.cons_ne_nil _ _)⟩
  rcases (Token.trimmed apart.1.1).first with ⟨first, rest, starts, other⟩
  refine ⟨first, rest ++ Lexemes.characters tail, ?_, other⟩
  rw [← characters, Lexemes.characters_cons, Lexeme.characters_sign, blank_false,
    List.nil_append]
  exact congrArg (· ++ _) starts

/-- The source of an expression in a document is its printed form. -/
theorem embedded?_printEmbedded {expression : Expression} (legible : expression.IsLegible) :
    embedded? expression.printEmbedded = some expression.print :=
  embedded?_of_trimmed (print_trimmed legible)

/-- An expression in a document that is written and read again is what is read from its
printed form. -/
theorem expression?_ofTree {expression : Expression} (legible : expression.IsLegible)
    {node : Node} (holds : node.value = .expression expression) (source : Option String)
    (place : List String) {read : Expression} :
    (Node.ofTree source node.tree).expression? place = some (.ok read) ↔
      parse expression.print place = .ok read := by
  obtain ⟨value, annotations⟩ := node
  cases holds
  have again : ((Node.ofTree source (Node.mk (.expression expression) annotations).tree)).value =
      .text expression.printEmbedded := rfl
  rw [Node.expression?, again]
  simp only [embedded?_printEmbedded legible, Option.map_some, Option.some.injEq]
  cases parse expression.print place with
  | error error => exact ⟨nofun, nofun⟩
  | ok found => simp only [Except.ok.injEq]

/-- Whatever the parser reads, it reads from the printed form again if and only if no
abbreviation is lost in print; and then so does a document in which it stands unresolved. -/
theorem parse_print_iff {source : String} {read : Expression}
    (parses : parse source place = .ok read) :
    (parse read.print place = .ok read ↔ read.IsFaithful) ∧
      ∀ (node : Node) (input : Option String), node.value = .expression read →
        ((Node.ofTree input node.tree).expression? place = some (.ok read) ↔
          read.IsFaithful) := by
  rcases shape_of_parse parses with ⟨legible, stands, layered⟩
  have printed : parse read.print place = .ok read ↔ read.IsFaithful :=
    ⟨isFaithful_of_parse_print legible,
      fun faithful => parse_print_of_isLayered legible stands (layered faithful)⟩
  refine ⟨printed, fun node input holds => ?_⟩
  rw [expression?_ofTree legible holds]
  exact printed

/-- A product is read from its printed form. -/
theorem parse_print_product :
    parse "a * 2" ["x"] = .ok (.binary .multiply (.reference ["a"]) (.integer 2)) ∧
      parse (Expression.binary .multiply (.reference ["a"]) (.integer 2)).print ["x"] =
        .ok (.binary .multiply (.reference ["a"]) (.integer 2)) ∧
      (Node.ofTree none (Node.ofSource none (.expression
        (.binary .multiply (.reference ["a"]) (.integer 2)))).tree).expression? ["x"] =
          some (.ok (.binary .multiply (.reference ["a"]) (.integer 2))) := by
  have parses : parse "a * 2" ["x"] =
      .ok (.binary .multiply (.reference ["a"]) (.integer 2)) := by cbv
  have faithful : (Expression.binary .multiply (.reference ["a"]) (.integer 2)).IsFaithful :=
    ⟨trivial, trivial, by simp [isNegation], by simp [isNegation]⟩
  have printed := parse_print_iff parses
  exact ⟨parses, printed.1.mpr faithful, (printed.2 _ none rfl).mpr faithful⟩

/-- A negation that is a factor is printed without the parentheses that it needs. -/
theorem parse_print_negation :
    ¬ ∀ (source : String) (place : List String) (read : Expression),
      parse source place = .ok read → parse read.print place = .ok read := by
  intro returns
  have parses : parse "a * -b" [] = .ok (.binary .multiply (.reference ["a"])
      (.binary .subtract (.integer 0) (.reference ["b"]))) := by cbv
  have printed : parse "a * 0 - b" [] = .ok (.binary .subtract
      (.binary .multiply (.reference ["a"]) (.integer 0)) (.reference ["b"])) := by cbv
  cases printed.symm.trans (returns _ _ _ parses)

end Expression

end Stencil
