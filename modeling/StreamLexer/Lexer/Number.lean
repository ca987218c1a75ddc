import StreamLexer.Lexer.Error

/-!
# Unsigned numbers

Digits, then perhaps a point and more digits, then perhaps an `E`, a sign that may be left out,
and more digits.
-/

namespace StreamLexer

inductive NumberState where
  | integer
  /-- Behind the point. -/
  | fractionStart
  | fraction
  /-- Behind the `E`. -/
  | exponentStart
  /-- Behind the sign of the exponent. -/
  | exponentSign
  | exponent
deriving DecidableEq, Repr

namespace NumberState

def step (q : NumberState) (b : Byte) : Option NumberState :=
  match q with
  | .integer =>
    if b.isDigit then some .integer
    else if b = '.'.toUInt8 then some .fractionStart
    else if b = 'E'.toUInt8 then some .exponentStart
    else none
  | .fractionStart => if b.isDigit then some .fraction else none
  | .fraction =>
    if b.isDigit then some .fraction
    else if b = 'E'.toUInt8 then some .exponentStart
    else none
  | .exponentStart =>
    if b.isDigit then some .exponent
    else if b.isSign then some .exponentSign
    else none
  | .exponentSign => if b.isDigit then some .exponent else none
  | .exponent => if b.isDigit then some .exponent else none

/-- What the state still needs; nothing where a number may end. -/
def expectation : NumberState → Option Expectation
  | .integer => none
  | .fractionStart => some ⟨.fraction, "a digit after '.'"⟩
  | .fraction => none
  | .exponentStart => some ⟨.exponent, "a digit or sign after 'E'"⟩
  | .exponentSign => some ⟨.exponent, "a digit in the exponent"⟩
  | .exponent => none

end NumberState

end StreamLexer
