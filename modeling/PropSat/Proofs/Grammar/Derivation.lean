import PropSat.Grammar.Token

/-!
# Derivations

Expressions are operands, or an expression, a connective and an operand; operands are names, negated
operands, and expressions in parentheses.  A derivation is read from left to right through partial
derivations, which have one hole for an operand or stop behind an expression that may go on.  Every
token has at most one place in a partial derivation, so a list of tokens has at most one derivation.
-/

namespace PropSat
namespace Grammar

mutual

/-- A derivation of an expression. -/
inductive Expression where
  | operand (only : Operand)
  | chain (left : Expression) (connective : Connective) (right : Operand)

/-- A derivation of an operand. -/
inductive Operand where
  | name (text : String)
  | not (inner : Operand)
  | group (inner : Expression)

end

mutual

/-- The tokens that an expression derives. -/
def Expression.tokens : Expression → List Token
  | .operand only => only.tokens
  | .chain left connective right => left.tokens ++ .connective connective :: right.tokens

/-- The tokens that an operand derives. -/
def Operand.tokens : Operand → List Token
  | .name text => [.name text]
  | .not inner => .not :: inner.tokens
  | .group inner => .leftParen :: (inner.tokens ++ [.rightParen])

end

mutual

/-- The formula of an expression: all connectives bind alike and associate to the left. -/
def Expression.formula (atomOf : String → Nat) : Expression → Formula
  | .operand only => only.formula atomOf
  | .chain left connective right =>
      .bin connective (left.formula atomOf) (right.formula atomOf)

/-- The formula of an operand. -/
def Operand.formula (atomOf : String → Nat) : Operand → Formula
  | .name text => .var (atomOf text)
  | .not inner => .neg (inner.formula atomOf)
  | .group inner => inner.formula atomOf

end

mutual

/-- A place for an expression. -/
inductive Site where
  /-- The text as a whole. -/
  | whole
  /-- Between parentheses that form an operand. -/
  | group (outer : Hole)

/-- A place for an operand. -/
inductive Hole where
  /-- The first operand of an expression. -/
  | first (site : Site)
  /-- The operand on the right of a connective. -/
  | right (site : Site) (left : Expression) (connective : Connective)
  /-- The operand of a negation. -/
  | negand (outer : Hole)

end

mutual

/-- The tokens on the left of a place for an expression. -/
def Site.tokens : Site → List Token
  | .whole => []
  | .group outer => outer.tokens ++ [.leftParen]

/-- The tokens on the left of a place for an operand. -/
def Hole.tokens : Hole → List Token
  | .first site => site.tokens
  | .right site left connective => site.tokens ++ left.tokens ++ [.connective connective]
  | .negand outer => outer.tokens ++ [.not]

end

/-- A partial derivation. -/
inductive Position where
  /-- An operand has to follow. -/
  | expecting (hole : Hole)
  /-- An expression stands at a place, and may go on. -/
  | complete (site : Site) (expression : Expression)

namespace Position

/-- Put an operand into a hole, and complete the negations that it completes. -/
def close : Hole → Operand → Position
  | .first site, operand => complete site (.operand operand)
  | .right site left connective, operand => complete site (.chain left connective operand)
  | .negand outer, operand => close outer (.not operand)

/-- The tokens read so far. -/
def tokens : Position → List Token
  | expecting hole => hole.tokens
  | complete site expression => site.tokens ++ expression.tokens

/-- Extend a partial derivation by a token, if it fits. -/
def step? : Position → Token → Option Position
  | expecting hole, .name text => some (close hole (.name text))
  | expecting hole, .not => some (expecting (.negand hole))
  | expecting hole, .leftParen => some (expecting (.first (.group hole)))
  | complete site expression, .connective connective =>
      some (expecting (.right site expression connective))
  | complete (.group outer) expression, .rightParen => some (close outer (.group expression))
  | _, _ => none

/-- Extend a partial derivation by tokens in turn. -/
def run? : Position → List Token → Option Position
  | position, [] => some position
  | position, token :: rest =>
      match position.step? token with
      | some next => next.run? rest
      | none => none

/-- Nothing read, and the whole expression to come. -/
def start : Position := expecting (.first .whole)

theorem tokens_close :
    ∀ (hole : Hole) (operand : Operand),
      (close hole operand).tokens = hole.tokens ++ operand.tokens
  | .first _, _ => rfl
  | .right site left connective, operand => by
      simp only [close, tokens, Expression.tokens, Hole.tokens, List.append_assoc,
        List.singleton_append]
  | .negand outer, operand => by
      rw [close, tokens_close outer, Operand.tokens, Hole.tokens, List.append_assoc,
        List.singleton_append]

/-- A step reads its token. -/
theorem tokens_of_step? {before after : Position} {token : Token}
    (stepped : before.step? token = some after) : after.tokens = before.tokens ++ [token] := by
  cases before with
  | expecting hole =>
      cases token with
      | name text =>
          cases stepped
          exact tokens_close hole (.name text)
      | not =>
          cases stepped
          rfl
      | leftParen =>
          cases stepped
          rfl
      | rightParen => cases stepped
      | connective connective => cases stepped
  | complete site expression =>
      cases token with
      | name text => cases site <;> cases stepped
      | not => cases site <;> cases stepped
      | leftParen => cases site <;> cases stepped
      | rightParen =>
          cases site with
          | whole => cases stepped
          | group outer =>
              cases stepped
              rw [tokens_close]
              simp only [tokens, Site.tokens, Operand.tokens, List.append_assoc, List.cons_append,
                List.nil_append]
      | connective connective =>
          cases site <;> cases stepped <;> rfl

/-- A run reads its tokens. -/
theorem tokens_of_run? {before after : Position} {read : List Token}
    (ran : before.run? read = some after) : after.tokens = before.tokens ++ read := by
  induction read generalizing before with
  | nil =>
      cases ran
      rw [List.append_nil]
  | cons token rest induction =>
      rw [run?] at ran
      split at ran
      · rename_i next stepped
        rw [induction ran, tokens_of_step? stepped, List.append_assoc, List.singleton_append]
      · cases ran

theorem run?_append {before middle : Position} {front : List Token}
    (ran : before.run? front = some middle) (back : List Token) :
    before.run? (front ++ back) = middle.run? back := by
  induction front generalizing before with
  | nil =>
      cases ran
      rfl
  | cons token rest induction =>
      rw [List.cons_append]
      rw [run?] at ran ⊢
      split at ran
      · exact induction ran
      · cases ran

end Position

mutual

/-- An expression is read at every place where its first operand is expected. -/
theorem Expression.run?_tokens (site : Site) :
    ∀ expression : Expression,
      (Position.expecting (.first site)).run? expression.tokens =
        some (.complete site expression)
  | .operand only => Operand.run?_tokens (.first site) only
  | .chain left connective right => by
      rw [Expression.tokens, Position.run?_append (Expression.run?_tokens site left)]
      cases site <;> exact Operand.run?_tokens _ right

/-- An operand is read in every hole. -/
theorem Operand.run?_tokens (hole : Hole) :
    ∀ operand : Operand,
      (Position.expecting hole).run? operand.tokens = some (.close hole operand)
  | .name text => rfl
  | .not inner => Operand.run?_tokens (.negand hole) inner
  | .group inner => by
      have inside := Expression.run?_tokens (.group hole) inner
      have reading : (Position.expecting hole).run? (Operand.group inner).tokens =
          (Position.expecting (.first (.group hole))).run? (inner.tokens ++ [.rightParen]) := rfl
      rw [reading, Position.run?_append inside]
      rfl

end

/-- A list of tokens has at most one derivation. -/
theorem Expression.tokens_inj {left right : Expression} (same : left.tokens = right.tokens) :
    left = right := by
  have left_read := Expression.run?_tokens .whole left
  rw [same, Expression.run?_tokens .whole right] at left_read
  cases left_read
  rfl

/-- A run from the start ends behind a whole expression exactly when the tokens derive it. -/
theorem Position.run?_start_iff {read : List Token} {expression : Expression} :
    start.run? read = some (complete .whole expression) ↔ expression.tokens = read := by
  constructor
  · exact tokens_of_run?
  · rintro rfl
    exact Expression.run?_tokens .whole expression

end Grammar
end PropSat
