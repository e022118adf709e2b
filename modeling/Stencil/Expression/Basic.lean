namespace Stencil

/-! Operators that stand between two operands. Concatenation has no symbol: its
operands simply stand side by side. -/

inductive Operator where
  | add
  | subtract
  | multiply
  | divide
  | modulo
  | equal
  | notEqual
  | less
  | lessOrEqual
  | greater
  | greaterOrEqual
  | and
  | or
  | concatenation
  | fallback
deriving DecidableEq, Repr

/-! Expressions. A reference is a path of steps, and an empty first step
addresses the document root. `merge` and `auto` hold the path of the node they
were written at; a `merge` with a path of its own is redirected to it. -/

inductive Expression where
  | nil
  | boolean (value : Bool)
  | integer (value : Int64)
  | text (value : String)
  | list (entries : List Expression)
  | reference (path : List String)
  | merge (path : List String) (redirected replacing : Bool)
  | auto (path : List String)
  | group (inner : Expression)
  | binary (operator : Operator) (left right : Expression)
  | not (operand : Expression)
  | conditional (condition consequence alternative : Expression)
  | call (function : Expression) (arguments : List Expression)
  | lambda (parameters : List String) (body : Expression)
  | mapping (collection function : Expression)
  | prefer (inner : Expression)
deriving Repr

/-! Expressions are equal when they are built in the same way from the same parts. -/

mutual
def Expression.same : Expression → Expression → Bool
  | .nil, .nil => true
  | .boolean left, .boolean right => left == right
  | .integer left, .integer right => left == right
  | .text left, .text right => left == right
  | .list left, .list right => allSame left right
  | .reference left, .reference right => left == right
  | .merge path redirected replacing, .merge path' redirected' replacing' =>
      path == path' && redirected == redirected' && replacing == replacing'
  | .auto left, .auto right => left == right
  | .group left, .group right => left.same right
  | .binary operator left right, .binary operator' left' right' =>
      operator == operator' && left.same left' && right.same right'
  | .not left, .not right => left.same right
  | .conditional condition consequence alternative,
      .conditional condition' consequence' alternative' =>
      condition.same condition' && consequence.same consequence' && alternative.same alternative'
  | .call function arguments, .call function' arguments' =>
      function.same function' && allSame arguments arguments'
  | .lambda parameters body, .lambda parameters' body' =>
      parameters == parameters' && body.same body'
  | .mapping collection function, .mapping collection' function' =>
      collection.same collection' && function.same function'
  | .prefer left, .prefer right => left.same right
  | _, _ => false
termination_by structural left => left

def allSame : List Expression → List Expression → Bool
  | [], [] => true
  | left :: lefts, right :: rights => left.same right && allSame lefts rights
  | _, _ => false
termination_by structural lefts => lefts
end

instance : BEq Expression := ⟨Expression.same⟩

mutual
theorem Expression.same_self : ∀ expression : Expression, expression.same expression
  | .nil => rfl
  | .boolean _ | .integer _ | .text _ | .reference _ | .auto _ => by simp [Expression.same]
  | .merge _ _ _ => by simp [Expression.same]
  | .list entries => allSame_self entries
  | .group inner | .not inner | .prefer inner => inner.same_self
  | .lambda _ body => by simp [Expression.same, body.same_self]
  | .binary _ left right => by simp [Expression.same, left.same_self, right.same_self]
  | .mapping collection function => by
      simp [Expression.same, collection.same_self, function.same_self]
  | .conditional condition consequence alternative => by
      simp [Expression.same, condition.same_self, consequence.same_self, alternative.same_self]
  | .call function arguments => by
      simp [Expression.same, function.same_self, allSame_self arguments]

theorem allSame_self : ∀ entries : List Expression, allSame entries entries
  | [] => rfl
  | entry :: entries => by simp [allSame, entry.same_self, allSame_self entries]
end

theorem Expression.eq_of_same {left right : Expression} : left.same right → left = right := by
  apply Expression.same.induct (fun left right => left.same right → left = right)
    (fun lefts rights => allSame lefts rights → lefts = rights)
  all_goals
    intros
    simp_all [Expression.same, allSame]

instance : LawfulBEq Expression where
  rfl := Expression.same_self _
  eq_of_beq := Expression.eq_of_same

namespace Expression

/-- Marked with `prefer`, at the top or inside grouping: no stub overrides it. -/
def isPreferred : Expression → Bool
  | .prefer _ => true
  | .group inner => inner.isPreferred
  | _ => false

end Expression

end Stencil
