/-!
This module contains a reproducible source of random numbers: a linear congruential generator of 64
bits whose upper halves are put together to numbers of any size.
-/

namespace Residual

structure Source where
  state : UInt64
deriving DecidableEq, Repr

namespace Source

def word (s : Source) : UInt32 × Source :=
  let state := s.state * 6364136223846793005 + 1442695040888963407
  ((state >>> 32).toUInt32, ⟨state⟩)

def bits (n : Nat) (s : Source) : Nat × Source :=
  let (w, s) := s.word
  if n ≤ 32 then (w.toNat >>> (32 - n), s)
  else
    let (high, s) := bits (n - 32) s
    (w.toNat + UInt32.size * high, s)
termination_by n

def reject (n : Nat) (h : 0 < n) : Nat → Source → Fin n × Source
  | 0, s => (⟨0, h⟩, s)
  | attempts + 1, s =>
    let (x, s) := s.bits (Nat.log2 n + 1)
    if hx : x < n then (⟨x, hx⟩, s) else reject n h attempts s

/--
A random number below `n`. The source has 2⁶⁴ states, so there is no point in more attempts than
that.
-/
def below (n : Nat) (h : 0 < n) (s : Source) : Fin n × Source := reject n h UInt64.size s

end Source

end Residual
