import Lisplet.Double.Basic

set_option autoImplicit false

/-! # Arithmetic on doubles

The four operations and the three comparisons are those of binary64: a quotient by zero is infinite
or NaN, NaN compares false with everything, and the two zeros are equal. -/

namespace Lisplet

namespace Double

/-- The same number as a machine word for arithmetic. -/
def toFloat (d : Double) : Float := Float.ofBits d.bits

/-- The bits of an arithmetic result. -/
def ofFloat (x : Float) : Double := ⟨x.toBits⟩

def zero : Double := ⟨0⟩

def one : Double := ⟨0x3ff0000000000000⟩

def add (a b : Double) : Double := ofFloat (a.toFloat + b.toFloat)

def sub (a b : Double) : Double := ofFloat (a.toFloat - b.toFloat)

def mul (a b : Double) : Double := ofFloat (a.toFloat * b.toFloat)

def div (a b : Double) : Double := ofFloat (a.toFloat / b.toFloat)

def neg (a : Double) : Double := ofFloat (-a.toFloat)

def lt (a b : Double) : Bool := a.toFloat < b.toFloat

def gt (a b : Double) : Bool := b.lt a

/-- Equality of values: unlike equality of bits it identifies the zeros and separates a NaN from
    itself. -/
def eqv (a b : Double) : Bool := a.toFloat == b.toFloat

end Double

end Lisplet
