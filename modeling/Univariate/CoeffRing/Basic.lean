import Univariate.Primality

/-!
# Coefficient rings

A *coefficient ring* is the ring of the integers or the ring of the integers modulo some `m ≥ 2`.
It is a value, passed to the operations that compute in it: the elements are plain integers, and
the ring says which integers stand for the same element (see `Univariate.CoeffRing.Arithmetic`).

A modular ring carries a mark telling whether its modulus was declared prime. The mark is part of
the identity of the ring and of its text, and no arithmetic depends on it.

* `CoeffRing.ofModulus` builds a modular ring, refusing a modulus below `2` and a modulus that is
  declared prime but composite. Primality is only checked below `2 ^ 64`.
-/

namespace Univariate

/-- The integers, or the integers modulo `m`. -/
inductive CoeffRing where
  /-- The ring of all integers. -/
  | integers
  /-- The integers modulo `m`, marked `prime` when `m` was declared prime. -/
  | modular (m : Nat) (prime : Bool) (two_le : 2 ≤ m)
  deriving DecidableEq

/-- Why there is no ring with the given modulus. -/
inductive RingRefusal where
  /-- The modulus is below `2`. -/
  | modulusTooSmall (m : Int)
  /-- The modulus was declared prime and is composite. -/
  | modulusComposite (m : Int)
  deriving DecidableEq

/-- The text that says why there is no ring. -/
def RingRefusal.message : RingRefusal → String
  | .modulusTooSmall m => s!"Invalid modulus: {m} - modulus must be at least 2"
  | .modulusComposite m => s!"Modulus {m} was declared prime but is composite"

namespace CoeffRing

/-- The bound below which a modulus declared prime is checked by trial division. -/
def primalityBound : Int := UInt64.size

/-- The ring of the integers modulo `m`, with the mark `prime`. -/
def ofModulus (m : Int) (prime : Bool) : Except RingRefusal CoeffRing :=
  if h : m < 2 then
    .error (.modulusTooSmall m)
  else if prime && decide (m < primalityBound) && !isPrime m.toNat then
    .error (.modulusComposite m)
  else
    .ok (.modular m.toNat prime (by omega))

/-- Whether the ring is the ring of all integers. -/
def isIntegers : CoeffRing → Bool
  | integers => true
  | modular .. => false

/-- The modulus, if there is one. -/
def modulus? : CoeffRing → Option Nat
  | integers => none
  | modular m _ _ => some m

/-- Whether the ring is marked as having a prime modulus. -/
def isMarkedPrime : CoeffRing → Bool
  | integers => false
  | modular _ prime _ => prime

/-- The text of a ring: `Z`, `Z mod 6`, `Z mod 7 (prime)`. -/
def text : CoeffRing → String
  | integers => "Z"
  | modular m prime _ => s!"Z mod {m}" ++ if prime then " (prime)" else ""

end CoeffRing

end Univariate
