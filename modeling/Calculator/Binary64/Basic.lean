/-!
Doubles taken apart: a finite double is `± mantissa · 2 ^ exponent` with `mantissa < 2 ^ 53`, and
`-1074 ≤ exponent`. Exact statements about doubles go through these parts.
-/
namespace Calculator.Binary64

/-- A finite double as a signed multiple of a power of two. -/
structure Parts where
  /-- Whether the sign bit is set; zeros have a sign too. -/
  negative : Bool
  mantissa : Nat
  /-- The power of two of the significand's unit. -/
  exponent : Int
deriving DecidableEq, Repr

def minExponent : Int := -1074

/-- The number of doubles with one exponent field, `2 ^ 52`. -/
def binadeSize : Nat := 4503599627370496

def specialField : Nat := 2047

def infinityBits : Nat := specialField * binadeSize

def infinity : Float := .ofBits 0x7FF0000000000000

def nan : Float := .ofBits 0x7FF8000000000000

/-- The value with these bits below the sign, and this sign. -/
def ofMagnitude (negative : Bool) (magnitude : Nat) : Float :=
  .ofBits (UInt64.ofNat (if negative then magnitude + 9223372036854775808 else magnitude))

def parts? (x : Float) : Option Parts :=
  let bits := x.toBits.toNat
  let field := bits / binadeSize % 2048
  let fraction := bits % binadeSize
  let negative := decide (9223372036854775808 ≤ bits)
  if field = specialField then none
  else if field = 0 then some ⟨negative, fraction, minExponent⟩
  else some ⟨negative, fraction + binadeSize, minExponent + (field - 1 : Nat)⟩

def signedZero (negative : Bool) : Float :=
  ofMagnitude negative 0

def signedInfinity (negative : Bool) : Float :=
  ofMagnitude negative infinityBits

end Calculator.Binary64
