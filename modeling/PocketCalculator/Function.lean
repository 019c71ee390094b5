import PocketCalculator.Fault
import PocketCalculator.Elementary.Exponential
import PocketCalculator.Elementary.Circular

/-! # Functions of one number

The functions that an expression can apply, on doubles.  Angles are in degrees.  An argument outside
the domain is a fault, and so is a power that leaves the range of doubles; infinite arguments and
those that are no number pass through otherwise. -/

namespace PocketCalculator

/-! ### Names -/

/-- A function of one number. -/
inductive Function where
  | root
  | marker (m : Marker)
  | suffix (s : Suffix)
  | circular (f : CircularFunction)
  /-- A name that is no function. -/
  | unknown (name : Text)
  deriving DecidableEq, Repr

namespace Function

/-- The name of a function. -/
def text : Function → Text
  | root => [rootSymbol]
  | marker m => m.text
  | suffix s => s.text
  | circular f => f.text
  | unknown name => name

/-- The functions that have a meaning. -/
def all : List Function :=
  root :: ([.log, .ln, .tenPower, .exp] : List Marker).map marker ++
    ([.square, .cube, .reciprocal, .factorial, .percent] : List Suffix).map suffix ++
    CircularFunction.all.map circular

/-- The function of a name. -/
def ofText (name : Text) : Function :=
  (all.find? fun f => f.text = name).getD (unknown name)

end Function

/-! ### Angles -/

/-- The circle constant as a double. -/
def circleConstant : Float := 3.141592653589793

/-- Degrees to radians: the factor is computed first, as a double. -/
def radians (x : Float) : Float :=
  x * (circleConstant / 180)

/-- Radians to degrees. -/
def degrees (x : Float) : Float :=
  x * (180 / circleConstant)

/-- A circular function of an angle in degrees. -/
def Circular.apply (c : Circular) (x : Float) : Except Fault Float :=
  if x.isInf then .error (.infiniteAngle c.text x)
  else
    let angle := radians x
    .ok <| match c with
      | sin => sinDouble angle
      | cos => cosDouble angle
      | tan => tanDouble angle

/-- Whether a double lies between -1 and 1. -/
def isRatioOfSides (x : Float) : Bool :=
  -1 ≤ x && x ≤ 1

/-- An inverse circular function, in degrees.  Sine and cosine have an inverse from -1 to 1 only. -/
def Circular.applyInverse : Circular → Float → Except Fault Float
  | sin, x => if isRatioOfSides x then .ok (degrees (arcsinDouble x)) else .error .inverseOutOfRange
  | cos, x => if isRatioOfSides x then .ok (degrees (arccosDouble x)) else .error .inverseOutOfRange
  | tan, x => .ok (degrees (arctanDouble x))

/-- The circular function of a name, which must not name an inverse. -/
def applyCircularNamed (name : Text) (x : Float) : Except Fault Float :=
  match Circular.ofText? name with
  | some c => c.apply x
  | none => .error (.unknownFunction name)

/-- The inverse circular function of a name, which must name an inverse. -/
def applyInverseNamed (name : Text) (x : Float) : Except Fault Float :=
  match Circular.all.find? fun c => CircularFunction.text ⟨c, true⟩ = name with
  | some c => c.applyInverse x
  | none => .error (.unknownFunction name)

/-! ### The other functions -/

/-- A value that must not have become infinite, unless its argument was. -/
def boundedPower (argument value : Float) : Except Fault Float :=
  if value.isInf && argument.isFinite then .error .tooBig else .ok value

/-- A marker applied to its operand. -/
def Marker.apply : Marker → Float → Except Fault Float
  | log, x => if x ≤ 0 then .error .logarithmOfNonPositive else .ok (log10Double x)
  | ln, x => if x ≤ 0 then .error .logarithmOfNonPositive else .ok (lnDouble x)
  | tenPower, x => boundedPower x (tenPowerDouble x)
  | exp, x => boundedPower x (expDouble x)

/-- The greatest number whose factorial is a double. -/
def greatestFactorial : Nat := 170

/-- The product of the numbers from two to `n`, in ascending order. -/
def productUpTo (n : Nat) : Float :=
  (List.range (n - 1)).foldl (fun product i => product * Float.ofNat (i + 2)) 1

/-- The factorial of a natural number. -/
def factorial (x : Float) : Except Fault Float :=
  match Dyadic.ofFloat? x with
  | none => .error .factorialOfNonNatural
  | some d =>
    if x < 0 || !d.isWhole then .error .factorialOfNonNatural
    else if greatestFactorial < d.magnitude.floor then .error .tooBig
    else .ok (productUpTo d.magnitude.floor)

/-- A suffix applied to its operand. -/
def Suffix.apply : Suffix → Float → Except Fault Float
  | square, x => .ok (x * x)
  | cube, x => .ok (x * x * x)
  | reciprocal, x => if x == 0 then .error .reciprocalOfZero else .ok (1 / x)
  | factorial, x => PocketCalculator.factorial x
  | percent, x => .ok (x / 100)

/-- The square root. -/
def squareRoot (x : Float) : Except Fault Float :=
  if x < 0 then .error .negativeRoot else .ok x.sqrt

/-- A function applied to a number. -/
def Function.apply : Function → Float → Except Fault Float
  | root, x => squareRoot x
  | marker m, x => m.apply x
  | suffix s, x => s.apply x
  | circular f, x => if f.inverse then f.base.applyInverse x else f.base.apply x
  | unknown name, _ => .error (.unknownFunction name)

end PocketCalculator
