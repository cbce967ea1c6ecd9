import Switching.Formula

/-! # The grammar of expressions

The rules by which tokens in the usual order spell a syntax tree. There is one level for each
strength of binding; a connective has an operand of its own level on its left, so that chains are
grouped from the left.
-/

namespace Switching

/-- The levels of the grammar, from the loosest binding to the tightest. -/
inductive Level where
  /-- Disjunctions. -/
  | sum
  /-- Exclusive disjunctions. -/
  | parity
  /-- Conjunctions, written or juxtaposed. -/
  | product
  /-- Negations written before their operand. -/
  | negated
  /-- Negations written after their operand. -/
  | marked
  /-- Constants, variables and expressions in parentheses. -/
  | primary
deriving DecidableEq, Repr

/-- Tokens spell a syntax tree at a level of the grammar. -/
inductive Spells : Level → List Token → Formula → Prop where
  | constant (value : Bool) : Spells .primary [.constant value] (.constant value)
  | var (name : Char) : Spells .primary [.var name] (.var name)
  | paren {tokens f} : Spells .sum tokens f →
      Spells .primary (.openParen :: tokens ++ [.closeParen]) f
  | primary {tokens f} : Spells .primary tokens f → Spells .marked tokens f
  | marked {tokens f} : Spells .marked tokens f → Spells .negated tokens f
  | negated {tokens f} : Spells .negated tokens f → Spells .product tokens f
  | product {tokens f} : Spells .product tokens f → Spells .parity tokens f
  | parity {tokens f} : Spells .parity tokens f → Spells .sum tokens f
  | notAfter {tokens f} : Spells .marked tokens f →
      Spells .marked (tokens ++ [.operator (.not .after)]) (.not .after f)
  | notBefore {tokens f} : Spells .negated tokens f →
      Spells .negated (.operator (.not .before) :: tokens) (.not .before f)
  | and {left right f g} : Spells .product left f → Spells .negated right g →
      Spells .product (left ++ .operator (.binary .and) :: right) (.binary .and f g)
  | juxtapose {left right f g} : Spells .product left f → Spells .negated right g →
      Spells .product (left ++ right) (.binary .and f g)
  | xor {left right f g} : Spells .parity left f → Spells .product right g →
      Spells .parity (left ++ .operator (.binary .xor) :: right) (.binary .xor f g)
  | or {left right f g} : Spells .sum left f → Spells .parity right g →
      Spells .sum (left ++ .operator (.binary .or) :: right) (.binary .or f g)

end Switching
