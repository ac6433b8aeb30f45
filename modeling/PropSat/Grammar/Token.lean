import PropSat.Fault
import PropSat.Formula.Basic

/-!
# Tokens

A text is cut into tokens from left to right.  Names are runs of ASCII letters and digits, taken as
long as possible, and ASCII blanks may stand between tokens.  Cutting stops at the first character
that starts no token; what it lacks is kept, for a reader that gets that far.
-/

namespace PropSat
namespace Grammar

/-- The smallest meaningful parts of a text. -/
inductive Token where
  /-- A variable. -/
  | name (text : String)
  | not
  | leftParen
  | rightParen
  | connective (connective : Connective)
  deriving DecidableEq

/-- How a token is written. -/
def Token.text : Token → String
  | name text => text
  | not => "!"
  | leftParen => "("
  | rightParen => ")"
  | connective binary => binary.symbol

/-- Characters that may stand between tokens: blank, tabulator, line feed, form feed and carriage
return. -/
def isBlank (character : Char) : Bool :=
  character = ' ' || character = '\t' || character = '\n' || character = '\x0c' || character = '\r'

/-- A token, or the fault of a character that starts none, as it shows where a connective is due. -/
inductive Lexeme where
  | token (token : Token)
  | stray (fault : SyntaxFault)
  deriving DecidableEq

/-- A lexeme together with the number of bytes before it. -/
structure Placed where
  /-- Offset of the lexeme in bytes. -/
  position : Nat
  /-- What stands there. -/
  lexeme : Lexeme
  deriving DecidableEq

/-- Cut one token off a text that starts with `first` at some position.  Of an arrow, the first
character that is missing is at fault. -/
def cut (position : Nat) (first : Char) (rest : List Char) :
    Except SyntaxFault (Token × List Char) :=
  match first, rest with
  | '!', rest => .ok (.not, rest)
  | '(', rest => .ok (.leftParen, rest)
  | ')', rest => .ok (.rightParen, rest)
  | '&', rest => .ok (.connective .and, rest)
  | '|', rest => .ok (.connective .or, rest)
  | '-', '>' :: rest => .ok (.connective .implies, rest)
  | '-', _ => .error { position := position + 1, expected := .character '>' }
  | '<', '-' :: '>' :: rest => .ok (.connective .iff, rest)
  | '<', '-' :: _ => .error { position := position + 2, expected := .character '>' }
  | '<', _ => .error { position := position + 1, expected := .character '-' }
  | first, rest =>
      if first.isAlphanum then
        .ok (.name (.ofList (first :: rest.takeWhile Char.isAlphanum)),
          rest.dropWhile Char.isAlphanum)
      else
        .error { position, expected := .connective }

theorem length_dropWhile_le (test : Char → Bool) (text : List Char) :
    (text.dropWhile test).length ≤ text.length :=
  (List.dropWhile_sublist test).length_le

theorem cut_length_le {position : Nat} {first : Char} {rest remaining : List Char} {token : Token}
    (found : cut position first rest = .ok (token, remaining)) :
    remaining.length ≤ rest.length := by
  unfold cut at found
  split at found
  all_goals try cases found
  all_goals try (simp only [List.length_cons]; omega)
  all_goals try exact Nat.le_refl _
  split at found
  · cases found
    exact length_dropWhile_le _ _
  · cases found

/-- Lexemes of a text that starts at some position, after the ones found before, latest first. -/
def lexOnto (found : List Placed) (position : Nat) : List Char → List Placed
  | [] => found.reverse
  | first :: rest =>
      if isBlank first then
        lexOnto found (position + 1) rest
      else
        match _ : cut position first rest with
        | .ok (token, remaining) =>
            lexOnto ({ position, lexeme := .token token } :: found)
              (position + token.text.utf8ByteSize) remaining
        | .error fault => ({ position, lexeme := .stray fault } :: found).reverse
  termination_by text => text.length
  decreasing_by
    · simp
    · rename_i outcome
      have shorter := cut_length_le outcome
      simp only [List.length_cons]
      omega

/-- Lexemes of a whole text. -/
def lex (text : String) : List Placed := lexOnto [] 0 text.toList

end Grammar
end PropSat
