import ChartNet.Json.Printer

/-!
# Digests

Generated names hold a short **digest** of the parts that they depend on: the first eight
hexadecimal digits of the SHA-256 digest of the JSON text of the parts.
-/

namespace ChartNet.Digest

/-- The first thirty-two bits of the fractional parts of the cube roots of the first sixty-four
primes. -/
def roundConstants : Array UInt32 := #[
  0x428a2f98, 0x71374491, 0xb5c0fbcf, 0xe9b5dba5, 0x3956c25b, 0x59f111f1, 0x923f82a4, 0xab1c5ed5,
  0xd807aa98, 0x12835b01, 0x243185be, 0x550c7dc3, 0x72be5d74, 0x80deb1fe, 0x9bdc06a7, 0xc19bf174,
  0xe49b69c1, 0xefbe4786, 0x0fc19dc6, 0x240ca1cc, 0x2de92c6f, 0x4a7484aa, 0x5cb0a9dc, 0x76f988da,
  0x983e5152, 0xa831c66d, 0xb00327c8, 0xbf597fc7, 0xc6e00bf3, 0xd5a79147, 0x06ca6351, 0x14292967,
  0x27b70a85, 0x2e1b2138, 0x4d2c6dfc, 0x53380d13, 0x650a7354, 0x766a0abb, 0x81c2c92e, 0x92722c85,
  0xa2bfe8a1, 0xa81a664b, 0xc24b8b70, 0xc76c51a3, 0xd192e819, 0xd6990624, 0xf40e3585, 0x106aa070,
  0x19a4c116, 0x1e376c08, 0x2748774c, 0x34b0bcb5, 0x391c0cb3, 0x4ed8aa4a, 0x5b9cca4f, 0x682e6ff3,
  0x748f82ee, 0x78a5636f, 0x84c87814, 0x8cc70208, 0x90befffa, 0xa4506ceb, 0xbef9a3f7, 0xc67178f2]

/-- The eight words of a digest under construction. -/
structure Words where
  a : UInt32
  b : UInt32
  c : UInt32
  d : UInt32
  e : UInt32
  f : UInt32
  g : UInt32
  h : UInt32

/-- The first thirty-two bits of the fractional parts of the square roots of the first eight
primes. -/
def start : Words :=
  ⟨0x6a09e667, 0xbb67ae85, 0x3c6ef372, 0xa54ff53a, 0x510e527f, 0x9b05688c, 0x1f83d9ab, 0x5be0cd19⟩

/-- A word rotated to the right. -/
def rotate (x : UInt32) (n : UInt32) : UInt32 :=
  (x >>> n) ||| (x <<< (32 - n))

/-- One round with a word of the schedule and a round constant. -/
def Words.round (w : Words) (word constant : UInt32) : Words :=
  let s₁ := rotate w.e 6 ^^^ rotate w.e 11 ^^^ rotate w.e 25
  let choice := (w.e &&& w.f) ^^^ (~~~w.e &&& w.g)
  let t₁ := w.h + s₁ + choice + constant + word
  let s₀ := rotate w.a 2 ^^^ rotate w.a 13 ^^^ rotate w.a 22
  let majority := (w.a &&& w.b) ^^^ (w.a &&& w.c) ^^^ (w.b &&& w.c)
  { a := t₁ + (s₀ + majority), b := w.a, c := w.b, d := w.c
    e := w.d + t₁, f := w.e, g := w.f, h := w.g }

/-- The words added one by one. -/
def Words.add (v w : Words) : Words :=
  ⟨v.a + w.a, v.b + w.b, v.c + w.c, v.d + w.d, v.e + w.e, v.f + w.f, v.g + w.g, v.h + w.h⟩

/-- The schedule of a block grown by one word. -/
def extend (schedule : Array UInt32) : Array UInt32 :=
  let n := schedule.size
  let word (k : Nat) : UInt32 := schedule.getD (n - k) 0
  let x := word 15
  let y := word 2
  let s₀ := rotate x 7 ^^^ rotate x 18 ^^^ (x >>> 3)
  let s₁ := rotate y 17 ^^^ rotate y 19 ^^^ (y >>> 10)
  schedule.push (word 16 + s₀ + word 7 + s₁)

/-- The digest after one block of sixteen words. -/
def Words.block (w : Words) (words : List UInt32) : Words :=
  let schedule := (List.range 48).foldl (fun s _ => extend s) words.toArray
  w.add ((schedule.zip roundConstants).foldl (fun v p => v.round p.1 p.2) w)

/-- The words of some bytes, four bytes each, most significant first. -/
def wordsOf : List UInt8 → List UInt32
  | a :: b :: c :: d :: rest =>
    ((a.toUInt32 <<< 24) ||| (b.toUInt32 <<< 16) ||| (c.toUInt32 <<< 8) ||| d.toUInt32) ::
      wordsOf rest
  | _ => []

/-- The eight bytes of a number, most significant first. -/
def lengthBytes (n : Nat) : List UInt8 :=
  (List.range 8).map fun k => UInt8.ofNat (n / Nat.pow 256 (7 - k))

/-- A message filled up to whole blocks of sixty-four bytes: a one bit, zeros and its length in
bits. -/
def padded (bytes : List UInt8) : List UInt8 :=
  let n := bytes.length
  bytes ++ [0x80] ++ List.replicate ((119 - n % 64) % 64) 0 ++ lengthBytes (8 * n)

/-- The digest after all whole blocks of some words; `n` is the number of blocks. -/
def blocks : Nat → Words → List UInt32 → Words
  | 0, w, _ => w
  | n + 1, w, words => blocks n (w.block (words.take 16)) (words.drop 16)

/-- The SHA-256 digest of some bytes. -/
def sha256 (bytes : List UInt8) : Words :=
  let words := wordsOf (padded bytes)
  blocks (words.length / 16) start words

/-- The eight hexadecimal digits of a word. -/
def hex (w : UInt32) : String :=
  String.ofList ((List.range 8).map fun k => Nat.digitChar (w.toNat / Nat.pow 16 (7 - k) % 16))

end ChartNet.Digest

namespace ChartNet

/-- The **digest** of some parts: the first word of the SHA-256 digest of their JSON text. -/
def digest (parts : List Json) : String :=
  Digest.hex (Digest.sha256 (Json.arr parts).compact.toUTF8.data.toList).a

end ChartNet
