/-!
# The hash functors of the Bloom filter (`bloom-filter/bloomfilter.h`)

A `std::string` is the list of its characters. `size_t` has 64 bits, and the conversion of a
signed `char` to it copies the sign bit.
-/

namespace LinuxBase

/-- The conversion of a `char` to `size_t`. -/
def charToSize (v : BitVec 8) : BitVec 64 := v.signExtend 64

/-- `HashBKDR::operator()`. -/
def hashBKDR (s : List (BitVec 8)) : BitVec 64 :=
  s.foldl (fun value v => (value + charToSize v) * 131) 0

/-- The loop of `HashAP::operator()` from the index `i`. -/
def hashAPLoop : List (BitVec 8) → Nat → BitVec 64 → BitVec 64
  | [], _, hash => hash
  | c :: s, i, hash =>
    let ch := charToSize c
    if i % 1 == 0 then hashAPLoop s (i + 1) (hash ^^^ ((hash <<< 7) ^^^ ch ^^^ (hash >>> 3)))
    else hashAPLoop s (i + 1) (hash ^^^ (~~~(hash <<< 11) ^^^ ch ^^^ (hash >>> 5)))

/-- `HashAP::operator()`. -/
def hashAP (s : List (BitVec 8)) : BitVec 64 := hashAPLoop s 0 0

/-- `HashDJB::operator()`. -/
def hashDJB (s : List (BitVec 8)) : BitVec 64 :=
  s.foldl (fun hash v => hash + ((hash <<< 5) + charToSize v)) 5381

end LinuxBase
