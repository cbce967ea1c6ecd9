import Switching.Proofs.Expression.Derivation
import Switching.Proofs.Formula.Chain
import Switching.Proofs.Token.Writing

/-! # Texts and their trees

The rules of the grammar for characters instead of tokens. A text that follows them is read, and
becomes the postorder of its tree (`Phrase.parse_eq`).
-/

namespace Switching

open Token

/-- Characters write tokens that spell a tree. -/
def Phrase (level : Level) (chars : List Char) (f : Formula) : Prop :=
  ∃ tokens, Writes chars tokens ∧ Spells level tokens f

/-- The level of the grammar at which a connective joins. -/
def Connective.level : Connective → Level
  | and => .product
  | or => .sum
  | xor => .parity

/-- The level of the right operand of a connective. -/
def Connective.operand : Connective → Level
  | and => .negated
  | or => .parity
  | xor => .product

namespace Phrase

variable {level low high : Level} {chars left right : List Char} {f g : Formula} {name : Char}

theorem loosen (spelled : ∀ {tokens}, Spells high tokens f → Spells low tokens f)
    (phrase : Phrase high chars f) : Phrase low chars f := by
  obtain ⟨tokens, writes, spells⟩ := phrase
  exact ⟨tokens, writes, spelled spells⟩

/-- What needs no parentheses anywhere is a phrase at every level. -/
theorem of_primary (phrase : Phrase .primary chars f) : Phrase level chars f := by
  have marked : Phrase .marked chars f := phrase.loosen .primary
  have negated : Phrase .negated chars f := marked.loosen .marked
  have product : Phrase .product chars f := negated.loosen .negated
  have parity : Phrase .parity chars f := product.loosen .product
  cases level with
  | sum => exact parity.loosen .parity
  | parity => exact parity
  | product => exact product
  | negated => exact negated
  | marked => exact marked
  | primary => exact phrase

theorem constant (value : Bool) : Phrase .primary [Text.bit value] (.constant value) :=
  ⟨_, .singleton (by cases value <;> rfl), .constant value⟩

theorem var (upper : name.isUpper = true) : Phrase .primary [name] (.var name) := by
  have meaning := ofChar?_letter (isAlpha_of_isUpper upper)
  rw [toUpper_of_isUpper upper] at meaning
  exact ⟨_, .singleton meaning, .var name⟩

theorem notAfter (upper : name.isUpper = true) :
    Phrase .marked [name, '\''] (.not .after (.var name)) := by
  have writes := Writes.marked (isAlpha_of_isUpper upper)
  rw [toUpper_of_isUpper upper] at writes
  exact ⟨_, writes, .notAfter (.primary (.var name))⟩

theorem notBefore (phrase : Phrase .negated chars f) :
    Phrase .negated ('!' :: chars) (.not .before f) := by
  obtain ⟨tokens, writes, spells⟩ := phrase
  exact ⟨_, (Writes.singleton rfl).append writes, .notBefore spells⟩

theorem paren (phrase : Phrase .sum chars f) : Phrase .primary ('(' :: chars ++ [')']) f := by
  obtain ⟨tokens, writes, spells⟩ := phrase
  have opened : Writes ['('] [.openParen] := .singleton rfl
  exact ⟨_, (opened.append writes).append (.singleton rfl), .paren spells⟩

/-- What stands between two phrases that a connective joins. -/
def IsJoint (connective : Connective) (joint : List Char) : Prop :=
  ∀ {left right f g}, Phrase connective.level left f → Phrase connective.operand right g →
    Phrase connective.level (left ++ joint ++ right) (.binary connective f g)

theorem isJoint_of_writes {connective : Connective} {joint : List Char} {tokens : List Token}
    (writes : Writes joint tokens)
    (joins : ∀ {left right f g}, Spells connective.level left f → Spells connective.operand right g →
      Spells connective.level (left ++ tokens ++ right) (.binary connective f g)) :
    IsJoint connective joint := by
  rintro left right f g ⟨first, leftWrites, leftSpells⟩ ⟨second, rightWrites, rightSpells⟩
  exact ⟨_, (leftWrites.append writes).append rightWrites, joins leftSpells rightSpells⟩

theorem isJoint_juxtaposed : IsJoint .and [] := by
  apply isJoint_of_writes .nil
  intro left right f g first second
  exact Spells.product_join (.inl rfl) first second

/-- An operator can stand between blanks. -/
theorem writes_operator {c : Char} {operator : Operator}
    (meaning : ofChar? c = some (.operator operator)) :
    Writes [' ', c, ' '] [.operator operator] :=
  ((Writes.blank rfl).append (.singleton meaning)).append (.blank rfl)

theorem isJoint_and {c : Char} (meaning : ofChar? c = some (.operator (.binary .and))) :
    IsJoint .and [' ', c, ' '] := by
  apply isJoint_of_writes (writes_operator meaning)
  intro left right f g first second
  exact Spells.product_join (.inr rfl) first second

theorem isJoint_or {c : Char} (meaning : ofChar? c = some (.operator (.binary .or))) :
    IsJoint .or [' ', c, ' '] := by
  apply isJoint_of_writes (writes_operator meaning)
  intro left right f g first second
  have joined := first.or second
  rw [List.append_assoc]
  exact joined

theorem of_operand {connective : Connective} (phrase : Phrase connective.operand chars f) :
    Phrase connective.level chars f := by
  cases connective with
  | and => exact phrase.loosen .negated
  | or => exact phrase.loosen .parity
  | xor => exact phrase.loosen .product

theorem intercalate_cons {α : Type} (joint first : List α) (rest : List (List α)) :
    joint.intercalate (first :: rest) = first ++ rest.flatMap (joint ++ ·) := by
  induction rest generalizing first with
  | nil => rw [List.intercalate_singleton, List.flatMap_nil, List.append_nil]
  | cons second rest ih =>
    rw [List.intercalate_cons_cons, ih, List.flatMap_cons, List.append_assoc, List.append_assoc]

/-- Operands with joints between them are a phrase of the chain of their trees. -/
theorem intercalate {α : Type} {connective : Connective} {joint : List Char}
    (isJoint : IsJoint connective joint) {items : List α} {text : α → List Char}
    {tree : α → Formula} (phrases : ∀ a ∈ items, Phrase connective.operand (text a) (tree a))
    (nonempty : items ≠ []) :
    Phrase connective.level (joint.intercalate (items.map text))
      (.chain connective (items.map tree)) := by
  have extend (rest : List α) (operands : ∀ a ∈ rest, Phrase connective.operand (text a) (tree a))
      {chars : List Char} {f : Formula} (start : Phrase connective.level chars f) :
      Phrase connective.level (chars ++ (rest.map text).flatMap (joint ++ ·))
        ((rest.map tree).foldl (.binary connective) f) := by
    induction rest generalizing chars f with
    | nil => simpa using start
    | cons a rest ih =>
      have longer := isJoint start (operands a (List.mem_cons_self ..))
      have all := ih (fun b member => operands b (List.mem_cons_of_mem _ member)) longer
      simpa only [List.map_cons, List.flatMap_cons, List.foldl_cons, List.append_assoc] using all
  cases items with
  | nil => exact absurd rfl nonempty
  | cons a items =>
    rw [List.map_cons, intercalate_cons]
    exact extend items (fun b member => phrases b (List.mem_cons_of_mem _ member))
      (of_operand (phrases a (List.mem_cons_self ..)))

/-- A phrase is read as the postorder of its tree. -/
theorem parse_eq {text : String} (phrase : Phrase .sum text.toList f) :
    Expression.parse text = .ok ⟨f.postorder⟩ := by
  obtain ⟨tokens, writes, spells⟩ := phrase
  rw [Expression.parse, readAll_of_writes writes]
  exact spells.ofInfix_eq

end Phrase

end Switching
