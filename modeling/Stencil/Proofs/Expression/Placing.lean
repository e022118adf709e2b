import Stencil.Proofs.Expression.RoundTrip
import Stencil.Proofs.Node.Elementary

namespace Stencil

open Lexemes

/-! The place of an expression goes into its `auto` and into each `merge` that has no path of
its own, and nowhere else. -/

mutual
/-- The same expression at another place. -/
def Expression.moved (place : List String) : Expression → Expression
  | .merge path redirected replacing =>
      .merge (if redirected then path else place) redirected replacing
  | .auto _ => .auto place
  | .list entries => .list (allMoved place entries)
  | .group inner => .group (inner.moved place)
  | .binary operator left right => .binary operator (left.moved place) (right.moved place)
  | .not operand => .not (operand.moved place)
  | .conditional condition consequence alternative =>
      .conditional (condition.moved place) (consequence.moved place) (alternative.moved place)
  | .call function arguments => .call (function.moved place) (allMoved place arguments)
  | .lambda parameters body => .lambda parameters (body.moved place)
  | .mapping collection function => .mapping (collection.moved place) (function.moved place)
  | .prefer inner => .prefer (inner.moved place)
  | expression => expression

def allMoved (place : List String) : List Expression → List Expression
  | [] => []
  | entry :: entries => entry.moved place :: allMoved place entries
end

namespace Grammar

def Phrase.moved (place : List String) : Phrase → Phrase
  | .expression read => .expression (read.moved place)
  | .conditional read => .conditional (read.moved place)
  | .chain level read => .chain level (read.moved place)
  | .chainRest level left read => .chainRest level (left.moved place) (read.moved place)
  | .operand level read => .operand level (read.moved place)
  | .unary read => .unary (read.moved place)
  | .calls function read => .calls (function.moved place) (read.moved place)
  | .separated enclosure read => .separated enclosure (allMoved place read)
  | .entries enclosure read => .entries enclosure (allMoved place read)
  | .primary read => .primary (read.moved place)
  | .lambda read => .lambda (read.moved place)
  | .mapping read => .mapping (read.moved place)
  | .mapped read => .mapped (read.moved place)

theorem Reads.moved {place place' : List String} {phrase : Phrase} {lexemes rest : List Lexeme}
    (reads : Reads place phrase lexemes rest) : Reads place' (phrase.moved place') lexemes rest := by
  induction reads with
  | preferred starts _ inner => exact .preferred starts inner
  | expression starts _ inner => exact .expression starts inner
  | conditional _ question _ colon _ first second third =>
      exact .conditional first question second colon third
  | unconditional _ question inner => exact .unconditional inner question
  | chain _ _ first others => exact .chain first others
  | chainOver halt => exact .chainOver halt
  | chainMore sign _ _ next others => exact .chainMore sign next others
  | tighter below _ inner => exact .tighter below inner
  | tightest below _ inner => exact .tightest below inner
  | not bang _ operand => exact .not bang operand
  | negative minus number touches => exact .negative minus number touches
  | minus minus number _ operand => exact .minus minus number operand
  | applied bang minus _ _ first others => exact .applied bang minus first others
  | called parenthesis touches _ _ inside others =>
      exact .called parenthesis touches inside others
  | callsOver halt => exact .callsOver halt
  | nothing close => exact .nothing close
  | something close _ inner => exact .something close inner
  | last _ close entry => exact .last entry close
  | more _ comma _ first others => exact .more first comma others
  | integer number => exact .integer number
  | text literal => exact .text literal
  | group parenthesis _ close inner => exact .group parenthesis inner close
  | list bracket _ inside => exact .list bracket inside
  | root dot touches steps => exact .root dot touches steps
  | nil word => exact .nil word
  | yes word => exact .yes word
  | no word => exact .no word
  | auto word => exact .auto word
  | redirected word key steps => exact .redirected word key steps
  | merge word key => exact .merge word key
  | lambda starts _ inner => exact .lambda starts inner
  | mapping starts _ inner => exact .mapping starts inner
  | reference word free lambda mapping steps => exact .reference word free lambda mapping steps
  | bare bars arrow _ body => exact .bare bars arrow body
  | named bar names arrow _ body => exact .named bar names arrow body
  | mappingOf _ bar _ close first second => exact .mappingOf first bar second close
  | short names arrow _ body => exact .short names arrow body
  | full names _ inner => exact .full names inner

end Grammar

/-- At another place the parser reads the same expression, but for its place. -/
theorem Expression.parse_moved {source : String} {place : List String} {read : Expression}
    (parses : parse source place = .ok read) (place' : List String) :
    parse source place' = .ok (read.moved place') := by
  rcases parse_eq_ok_iff.mp parses with ⟨lexemes, scans, rest, reads, finish⟩
  exact parse_eq_ok_iff.mpr ⟨lexemes, scans, rest, reads.moved, finish⟩

/-! In an elementary expression there is no place. -/

mutual
theorem Expression.moved_of_isElementary (place : List String) :
    ∀ expression : Expression, expression.isElementary → expression.moved place = expression
  | .nil, _ | .boolean _, _ | .integer _, _ | .text _, _ | .reference _, _ => rfl
  | .list entries, elementary => by
      rw [Expression.moved, allMoved_of_elementary place entries elementary]
  | .group inner, elementary | .not inner, elementary | .prefer inner, elementary => by
      rw [Expression.moved, inner.moved_of_isElementary place elementary]
  | .binary _ left right, elementary => by
      rw [Expression.isElementary, Bool.and_eq_true] at elementary
      rw [Expression.moved, left.moved_of_isElementary place elementary.1,
        right.moved_of_isElementary place elementary.2]
  | .conditional condition consequence alternative, elementary => by
      rw [Expression.isElementary, Bool.and_eq_true, Bool.and_eq_true] at elementary
      rw [Expression.moved, condition.moved_of_isElementary place elementary.1.1,
        consequence.moved_of_isElementary place elementary.1.2,
        alternative.moved_of_isElementary place elementary.2]
  | .merge _ _ _, elementary | .auto _, elementary | .call _ _, elementary
  | .lambda _ _, elementary | .mapping _ _, elementary => by cases elementary

theorem allMoved_of_elementary (place : List String) :
    ∀ entries : List Expression, allElementary entries → allMoved place entries = entries
  | [], _ => rfl
  | entry :: entries, elementary => by
      rw [allElementary, Bool.and_eq_true] at elementary
      rw [allMoved, entry.moved_of_isElementary place elementary.1,
        allMoved_of_elementary place entries elementary.2]
end

/-- So a node holds the same elementary expression at every place. -/
theorem Node.expression?_moved {node : Node} {place : List String} {expression : Expression}
    (holds : node.expression? place = some (.ok expression))
    (elementary : expression.isElementary) (place' : List String) :
    node.expression? place' = some (.ok expression) := by
  rcases node with ⟨value, annotations⟩
  cases value with
  | expression held => exact holds
  | text text =>
      cases embedded : Text.embedded? text with
      | none =>
          simp only [expression?, value_mk, embedded, Option.map_none] at holds
          cases holds
      | some source =>
          simp only [expression?, value_mk, embedded, Option.map_some, Option.some.injEq] at holds ⊢
          cases parsed : Expression.parse source place with
          | error error =>
              rw [parsed] at holds
              cases holds
          | ok read =>
              rw [parsed] at holds
              cases holds
              rw [Expression.parse_moved parsed place',
                Expression.moved_of_isElementary place' _ elementary]
  | _ => cases holds

end Stencil
