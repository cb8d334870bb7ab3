/-
  The conversions of task05 (part01/converter.c), the module that exchange.c of part02 took
  them over from.

  A conversion returns what it stores through the pointers `l` and `r`. As in exchange.c an
  `int` is kept in the range of 32 bits, products wrap, and the result is `none` where the
  division faults. The texts printed are left out.
-/
import KernelBasecamp.Lib.CInt

namespace KernelBasecamp.Currency.Converter

open Lib.CInt

def uah_to_eu (amount rate : Int) : Option (Int × Int) := do
  let n ← divide 32 (wrap 32 (100 * amount)) rate
  some (n.tdiv 100, n.tmod 100)

def eu_to_uah (amount rate : Int) : Int × Int :=
  let n := wrap 32 (wrap 32 (100 * amount) * rate)
  (n.tdiv 100, n.tmod 100)

/-- The initial `exchange_rate`. -/
def exchange_rate : Int := 31

/-- What `ex01_init` prints: 1000 uah in eu and 100 eu in uah. -/
def ex01_init (exchange_rate : Int) : Option ((Int × Int) × (Int × Int)) := do
  let uah := 1000
  let eu := 100
  let converted ← uah_to_eu uah exchange_rate
  some (converted, eu_to_uah eu exchange_rate)

example : ex01_init exchange_rate = some ((32, 25), (3100, 0)) := by decide

end KernelBasecamp.Currency.Converter
