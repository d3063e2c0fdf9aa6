/-!
Digests of messages of 32-bit words, by SHA-256. Two different messages with one digest are not
known, so that in practice equal digests come from equal messages.
-/

namespace Prediction

structure Digest where
  a : UInt32
  b : UInt32
  c : UInt32
  d : UInt32
  e : UInt32
  f : UInt32
  g : UInt32
  h : UInt32
deriving DecidableEq

namespace Digest

def words (x : Digest) : List UInt32 :=
  [x.a, x.b, x.c, x.d, x.e, x.f, x.g, x.h]

/-- Rotation towards the low end. -/
def rotate (x amount : UInt32) : UInt32 :=
  (x >>> amount) ||| (x <<< (32 - amount))

/-- The second or the third word, bit by bit as the first one says. -/
def choose (x y z : UInt32) : UInt32 :=
  (x &&& y) ^^^ (~~~x &&& z)

def majority (x y z : UInt32) : UInt32 :=
  (x &&& y) ^^^ (x &&& z) ^^^ (y &&& z)

/-- One word for each round: the first bits of the fractional parts of the cube roots of the first
primes. -/
def roundWords : List UInt32 :=
  [0x428A2F98, 0x71374491, 0xB5C0FBCF, 0xE9B5DBA5, 0x3956C25B, 0x59F111F1, 0x923F82A4, 0xAB1C5ED5,
   0xD807AA98, 0x12835B01, 0x243185BE, 0x550C7DC3, 0x72BE5D74, 0x80DEB1FE, 0x9BDC06A7, 0xC19BF174,
   0xE49B69C1, 0xEFBE4786, 0x0FC19DC6, 0x240CA1CC, 0x2DE92C6F, 0x4A7484AA, 0x5CB0A9DC, 0x76F988DA,
   0x983E5152, 0xA831C66D, 0xB00327C8, 0xBF597FC7, 0xC6E00BF3, 0xD5A79147, 0x06CA6351, 0x14292967,
   0x27B70A85, 0x2E1B2138, 0x4D2C6DFC, 0x53380D13, 0x650A7354, 0x766A0ABB, 0x81C2C92E, 0x92722C85,
   0xA2BFE8A1, 0xA81A664B, 0xC24B8B70, 0xC76C51A3, 0xD192E819, 0xD6990624, 0xF40E3585, 0x106AA070,
   0x19A4C116, 0x1E376C08, 0x2748774C, 0x34B0BCB5, 0x391C0CB3, 0x4ED8AA4A, 0x5B9CCA4F, 0x682E6FF3,
   0x748F82EE, 0x78A5636F, 0x84C87814, 0x8CC70208, 0x90BEFFFA, 0xA4506CEB, 0xBEF9A3F7, 0xC67178F2]

/-- The state before the first block: the first bits of the fractional parts of the square roots of
the first primes. -/
def initial : Digest :=
  ⟨0x6A09E667, 0xBB67AE85, 0x3C6EF372, 0xA54FF53A,
    0x510E527F, 0x9B05688C, 0x1F83D9AB, 0x5BE0CD19⟩

def round (x : Digest) (roundWord messageWord : UInt32) : Digest :=
  let mixedHigh := rotate x.e 6 ^^^ rotate x.e 11 ^^^ rotate x.e 25
  let mixedLow := rotate x.a 2 ^^^ rotate x.a 13 ^^^ rotate x.a 22
  let incoming := x.h + mixedHigh + choose x.e x.f x.g + roundWord + messageWord
  ⟨incoming + mixedLow + majority x.a x.b x.c, x.a, x.b, x.c, x.d + incoming, x.e, x.f, x.g⟩

/-- The word that follows sixteen words of a schedule. -/
def nextWord (window : List UInt32) : UInt32 :=
  let early := window.getD 1 0
  let late := window.getD 14 0
  window.getD 0 0 + (rotate early 7 ^^^ rotate early 18 ^^^ (early >>> 3)) +
    window.getD 9 0 + (rotate late 17 ^^^ rotate late 19 ^^^ (late >>> 10))

/-- The rounds with the given round words, from sixteen words of the schedule on. -/
def rounds : List UInt32 → List UInt32 → Digest → Digest
  | k :: ks, w :: ws, x => rounds ks (ws ++ [nextWord (w :: ws)]) (round x k w)
  | _, _, x => x

def add (x y : Digest) : Digest :=
  ⟨x.a + y.a, x.b + y.b, x.c + y.c, x.d + y.d, x.e + y.e, x.f + y.f, x.g + y.g, x.h + y.h⟩

/-- Takes in a number of blocks of sixteen words. -/
def absorb : Nat → List UInt32 → Digest → Digest
  | 0, _, x => x
  | n + 1, ws, x => absorb n (ws.drop 16) (x.add (rounds roundWords (ws.take 16) x))

/-- Fills up the last block: a single bit, zeros, and the length of the message in bits. -/
def pad (message : List UInt32) : List UInt32 :=
  let bits := UInt64.ofNat (32 * message.length)
  let zeros := (29 - message.length % 16) % 16
  let filling : List UInt32 := 0x80000000 :: List.replicate zeros 0
  message ++ filling ++ [(bits >>> 32).toUInt32, bits.toUInt32]

def ofWords (message : List UInt32) : Digest :=
  absorb ((pad message).length / 16) (pad message) initial

end Digest

end Prediction
