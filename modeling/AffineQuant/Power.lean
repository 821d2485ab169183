/-!
# Powers of two

Significands, codes and machine words are all counted by powers of two. The bounds of a signed
word follow from the number of its bits.
-/

namespace AffineQuant

/-- The number of values of `n` bits. -/
def pow2 (n : Nat) : Nat := Nat.pow 2 n

/-- The least number of a signed word of the given width. -/
def leastInt (width : Nat) : Int := -(pow2 (width - 1) : Int)

/-- The greatest number of a signed word of the given width. -/
def greatestInt (width : Nat) : Int := (pow2 (width - 1) : Int) - 1

end AffineQuant
