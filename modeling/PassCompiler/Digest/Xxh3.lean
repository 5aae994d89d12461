import PassCompiler.Text.Bytes

/-! The digest XXH3 of 64 bits, with seed zero and the default secret. Texts of up to 240 bytes
are mixed directly; longer ones are absorbed in stripes of 64 bytes into eight lanes. -/
namespace PassCompiler.Xxh3

def secret : Bytes :=
  [0xB8, 0xFE, 0x6C, 0x39, 0x23, 0xA4, 0x4B, 0xBE, 0x7C, 0x01, 0x81, 0x2C,
   0xF7, 0x21, 0xAD, 0x1C, 0xDE, 0xD4, 0x6D, 0xE9, 0x83, 0x90, 0x97, 0xDB,
   0x72, 0x40, 0xA4, 0xA4, 0xB7, 0xB3, 0x67, 0x1F, 0xCB, 0x79, 0xE6, 0x4E,
   0xCC, 0xC0, 0xE5, 0x78, 0x82, 0x5A, 0xD0, 0x7D, 0xCC, 0xFF, 0x72, 0x21,
   0xB8, 0x08, 0x46, 0x74, 0xF7, 0x43, 0x24, 0x8E, 0xE0, 0x35, 0x90, 0xE6,
   0x81, 0x3A, 0x26, 0x4C, 0x3C, 0x28, 0x52, 0xBB, 0x91, 0xC3, 0x00, 0xCB,
   0x88, 0xD0, 0x65, 0x8B, 0x1B, 0x53, 0x2E, 0xA3, 0x71, 0x64, 0x48, 0x97,
   0xA2, 0x0D, 0xF9, 0x4E, 0x38, 0x19, 0xEF, 0x46, 0xA9, 0xDE, 0xAC, 0xD8,
   0xA8, 0xFA, 0x76, 0x3F, 0xE3, 0x9C, 0x34, 0x3F, 0xF9, 0xDC, 0xBB, 0xC7,
   0xC7, 0x0B, 0x4F, 0x1D, 0x8A, 0x51, 0xE0, 0x4B, 0xCD, 0xB4, 0x59, 0x31,
   0xC8, 0x9F, 0x7E, 0xC9, 0xD9, 0x78, 0x73, 0x64, 0xEA, 0xC5, 0xAC, 0x83,
   0x34, 0xD3, 0xEB, 0xC3, 0xC5, 0x81, 0xA0, 0xFF, 0xFA, 0x13, 0x63, 0xEB,
   0x17, 0x0D, 0xDD, 0x51, 0xB7, 0xF0, 0xDA, 0x49, 0xD3, 0x16, 0x55, 0x26,
   0x29, 0xD4, 0x68, 0x9E, 0x2B, 0x16, 0xBE, 0x58, 0x7D, 0x47, 0xA1, 0xFC,
   0x8F, 0xF8, 0xB8, 0xD1, 0x7A, 0xD0, 0x31, 0xCE, 0x45, 0xCB, 0x3A, 0x8F,
   0x95, 0x16, 0x04, 0x28, 0xAF, 0xD7, 0xFB, 0xCA, 0xBB, 0x4B, 0x40, 0x7E]

def prime32a : UInt64 := 0x9E3779B1
def prime32b : UInt64 := 0x85EBCA77
def prime32c : UInt64 := 0xC2B2AE3D
def prime64a : UInt64 := 0x9E3779B185EBCA87
def prime64b : UInt64 := 0xC2B2AE3D27D4EB4F
def prime64c : UInt64 := 0x165667B19E3779F9
def prime64d : UInt64 := 0x85EBCA77C2B2AE63
def prime64e : UInt64 := 0x27D4EB2F165667C5
def mixerA : UInt64 := 0x165667919E3779F9
def mixerB : UInt64 := 0x9FB21C651E98DF25

def littleEndian (text : Bytes) : UInt64 := text.foldr (fun b n => n <<< 8 ||| b.toUInt64) 0

def word (text : Bytes) (offset : Nat) : UInt64 := littleEndian ((text.drop offset).take 8)

def halfWord (text : Bytes) (offset : Nat) : UInt64 := littleEndian ((text.drop offset).take 4)

def words (text : Bytes) : (count : Nat) → List UInt64
  | 0 => []
  | n + 1 => word text 0 :: words (text.drop 8) n

def byteSwap (x : UInt64) : UInt64 :=
  (List.range 8).foldl (fun y i => y <<< 8 ||| (x >>> (8 * i).toUInt64 &&& 0xFF)) 0

def rotate (x r : UInt64) : UInt64 := x <<< r ||| x >>> (64 - r)

/-- The two halves of the product of 128 bits, combined. -/
def foldedProduct (x y : UInt64) : UInt64 :=
  let product := x.toNat * y.toNat
  product.toUInt64 ^^^ (product / UInt64.size).toUInt64

def avalanche (h : UInt64) : UInt64 :=
  let h := (h ^^^ h >>> 37) * mixerA
  h ^^^ h >>> 32

/-- The avalanche for the shortest texts. -/
def strongAvalanche (h : UInt64) : UInt64 :=
  let h := (h ^^^ h >>> 33) * prime64b
  let h := (h ^^^ h >>> 29) * prime64c
  h ^^^ h >>> 32

/-- Mixes the 16 bytes at `offset` with those of the secret at `key`. -/
def mix (text : Bytes) (offset key : Nat) : UInt64 :=
  foldedProduct (word text offset ^^^ word secret key)
    (word text (offset + 8) ^^^ word secret (key + 8))

/-- The digest of up to 3 bytes. -/
def ofFew (text : Bytes) : UInt64 :=
  match text, text[text.length / 2]?, text.getLast? with
  | first :: _, some middle, some last =>
    let combined := first.toUInt64 <<< 16 ||| middle.toUInt64 <<< 24 ||| last.toUInt64 |||
      text.length.toUInt64 <<< 8
    strongAvalanche (combined ^^^ (halfWord secret 0 ^^^ halfWord secret 4))
  | _, _, _ => strongAvalanche (word secret 56 ^^^ word secret 64)

/-- The digest of 4 to 8 bytes. -/
def upTo8 (text : Bytes) : UInt64 :=
  let keyed := (halfWord text (text.length - 4) + halfWord text 0 <<< 32) ^^^
    (word secret 8 ^^^ word secret 16)
  let h := (keyed ^^^ (rotate keyed 49 ^^^ rotate keyed 24)) * mixerB
  let h := (h ^^^ (h >>> 35 + text.length.toUInt64)) * mixerB
  h ^^^ h >>> 28

/-- The digest of 9 to 16 bytes. -/
def upTo16 (text : Bytes) : UInt64 :=
  let low := word text 0 ^^^ (word secret 24 ^^^ word secret 32)
  let high := word text (text.length - 8) ^^^ (word secret 40 ^^^ word secret 48)
  avalanche (text.length.toUInt64 + byteSwap low + high + foldedProduct low high)

def seed (text : Bytes) : UInt64 := text.length.toUInt64 * prime64a

/-- The digest of 17 to 128 bytes, mixed from both ends inwards. -/
def upTo128 (text : Bytes) : UInt64 :=
  let parts := (List.range ((text.length - 1) / 32 + 1)).map fun i =>
    mix text (16 * i) (32 * i) + mix text (text.length - 16 * (i + 1)) (32 * i + 16)
  avalanche (parts.foldl (· + ·) (seed text))

/-- The digest of 129 to 240 bytes. -/
def upTo240 (text : Bytes) : UInt64 :=
  let first := (List.range 8).map fun i => mix text (16 * i) (16 * i)
  let later := (List.range (text.length / 16 - 8)).map fun i =>
    mix text (16 * (i + 8)) (16 * i + 3)
  let h := later.foldl (· + ·) (avalanche (first.foldl (· + ·) (seed text)))
  avalanche (h + mix text (text.length - 16) 119)

/-- Every second word put before the one that precedes it. -/
def swapPairs : List UInt64 → List UInt64
  | x :: y :: rest => y :: x :: swapPairs rest
  | rest => rest

def keyedProduct (word key : UInt64) : UInt64 :=
  let x := word ^^^ key
  x.toUInt32.toUInt64 * (x >>> 32)

/-- Takes a stripe into the lanes, with the secret at `key`. -/
def absorb (lanes : List UInt64) (stripe : Bytes) (key : Nat) : List UInt64 :=
  let data := words stripe 8
  List.zipWith (· + ·) (List.zipWith (· + ·) lanes (swapPairs data))
    (List.zipWith keyedProduct data (words (secret.drop key) 8))

def scrambleLane (lane key : UInt64) : UInt64 := (lane ^^^ lane >>> 47 ^^^ key) * prime32a

/-- Mixes the lanes behind a block of 16 stripes. -/
def scramble (lanes : List UInt64) : List UInt64 :=
  List.zipWith scrambleLane lanes (words (secret.drop 128) 8)

/-- Takes `count` stripes into the lanes, of which the first is number `index`. -/
def absorbAll (lanes : List UInt64) (index : Nat) (text : Bytes) : (count : Nat) → List UInt64
  | 0 => lanes
  | n + 1 =>
    let lanes := absorb lanes (text.take 64) (8 * (index % 16))
    let lanes := if index % 16 = 15 then scramble lanes else lanes
    absorbAll lanes (index + 1) (text.drop 64) n

def initialLanes : List UInt64 :=
  [prime32c, prime64a, prime64b, prime64c, prime64d, prime32b, prime64e, prime32a]

/-- The folded products of the pairs of lanes, with `key` as the secret. -/
def pairProducts : List UInt64 → Bytes → List UInt64
  | x :: y :: rest, key =>
    foldedProduct (x ^^^ word key 0) (y ^^^ word key 8) :: pairProducts rest (key.drop 16)
  | _, _ => []

/-- The digest of more than 240 bytes. The last stripe is the last 64 bytes, and may overlap the
one before it. -/
def ofMany (text : Bytes) : UInt64 :=
  let lanes := absorbAll initialLanes 0 text ((text.length - 1) / 64)
  let lanes := absorb lanes (text.drop (text.length - 64)) 121
  avalanche ((pairProducts lanes (secret.drop 11)).foldl (· + ·) (seed text))

def digest (text : Bytes) : UInt64 :=
  if text.length ≤ 3 then ofFew text
  else if text.length ≤ 8 then upTo8 text
  else if text.length ≤ 16 then upTo16 text
  else if text.length ≤ 128 then upTo128 text
  else if text.length ≤ 240 then upTo240 text
  else ofMany text

end PassCompiler.Xxh3
