/-
Module: UCache.Core.Xxh3
Purpose: The 64-bit hash that column-store files seal their envelopes, anchor and pages with, over
  natural numbers below 2^64.
Trusted boundary: none
Main exports: xxh3_64
-/
import UCache.Core.MetaFile
import UCache.Lib.Bytes
import UCache.Lib.Endian

namespace UCache

open Lib

namespace Xxh3

/-! ### Constants -/

def kPrime32_1 : Nat := 0x9E3779B1

def kPrime32_2 : Nat := 0x85EBCA77

def kPrime32_3 : Nat := 0xC2B2AE3D

def kPrime64_1 : Nat := 0x9E3779B185EBCA87

def kPrime64_2 : Nat := 0xC2B2AE3D27D4EB4F

def kPrime64_3 : Nat := 0x165667B19E3779F9

def kPrime64_4 : Nat := 0x85EBCA77C2B2AE63

def kPrime64_5 : Nat := 0x27D4EB2F165667C5

def kPrimeMx1 : Nat := 0x165667919E3779F9

def kPrimeMx2 : Nat := 0x9FB21C651E98DF25

/-- [SRC xxh3.cc:34-47] -/
def kSecret : Bytes :=
   [0xb8, 0xfe, 0x6c, 0x39, 0x23, 0xa4, 0x4b, 0xbe, 0x7c, 0x01, 0x81, 0x2c, 0xf7, 0x21, 0xad, 0x1c,
    0xde, 0xd4, 0x6d, 0xe9, 0x83, 0x90, 0x97, 0xdb, 0x72, 0x40, 0xa4, 0xa4, 0xb7, 0xb3, 0x67, 0x1f,
    0xcb, 0x79, 0xe6, 0x4e, 0xcc, 0xc0, 0xe5, 0x78, 0x82, 0x5a, 0xd0, 0x7d, 0xcc, 0xff, 0x72, 0x21,
    0xb8, 0x08, 0x46, 0x74, 0xf7, 0x43, 0x24, 0x8e, 0xe0, 0x35, 0x90, 0xe6, 0x81, 0x3a, 0x26, 0x4c,
    0x3c, 0x28, 0x52, 0xbb, 0x91, 0xc3, 0x00, 0xcb, 0x88, 0xd0, 0x65, 0x8b, 0x1b, 0x53, 0x2e, 0xa3,
    0x71, 0x64, 0x48, 0x97, 0xa2, 0x0d, 0xf9, 0x4e, 0x38, 0x19, 0xef, 0x46, 0xa9, 0xde, 0xac, 0xd8,
    0xa8, 0xfa, 0x76, 0x3f, 0xe3, 0x9c, 0x34, 0x3f, 0xf9, 0xdc, 0xbb, 0xc7, 0xc7, 0x0b, 0x4f, 0x1d,
    0x8a, 0x51, 0xe0, 0x4b, 0xcd, 0xb4, 0x59, 0x31, 0xc8, 0x9f, 0x7e, 0xc9, 0xd9, 0x78, 0x73, 0x64,
    0xea, 0xc5, 0xac, 0x83, 0x34, 0xd3, 0xeb, 0xc3, 0xc5, 0x81, 0xa0, 0xff, 0xfa, 0x13, 0x63, 0xeb,
    0x17, 0x0d, 0xdd, 0x51, 0xb7, 0xf0, 0xda, 0x49, 0xd3, 0x16, 0x55, 0x26, 0x29, 0xd4, 0x68, 0x9e,
    0x2b, 0x16, 0xbe, 0x58, 0x7d, 0x47, 0xa1, 0xfc, 0x8f, 0xf8, 0xb8, 0xd1, 0x7a, 0xd0, 0x31, 0xce,
    0x45, 0xcb, 0x3a, 0x8f, 0x95, 0x16, 0x04, 0x28, 0xaf, 0xd7, 0xfb, 0xca, 0xbb, 0x4b, 0x40, 0x7e]

/-! ### Mixing -/

def mul64 (a b : Nat) : Nat := a * b % 2 ^ 64

/-- A little-endian load of `n` bytes. -/
def rd (n : Nat) (p : Bytes) (off : Nat) : Nat := ofLe (slice p off n)

def secret64 (off : Nat) : Nat := rd 8 kSecret off

def swap64 (v : Nat) : Nat := ofBe (le 8 v)

def rotl64 (v r : Nat) : Nat := (v <<< r) % 2 ^ 64 ||| v >>> (64 - r)

/-- The halves of the 128-bit product, xored. -/
def mul128Fold64 (a b : Nat) : Nat := (a * b) % 2 ^ 64 ^^^ (a * b) >>> 64

def xorshift64 (v shift : Nat) : Nat := v ^^^ v >>> shift

def avalanche (h : Nat) : Nat := xorshift64 (mul64 (xorshift64 h 37) kPrimeMx1) 32

/-- The older finalizer. -/
def avalanche64 (h : Nat) : Nat :=
  xorshift64 (mul64 (xorshift64 (mul64 (xorshift64 h 33) kPrime64_2) 29) kPrime64_3) 32

def rrmxmx (h len : Nat) : Nat :=
  let h₁ := mul64 (h ^^^ (rotl64 h 49 ^^^ rotl64 h 24)) kPrimeMx2
  xorshift64 (mul64 (h₁ ^^^ add64 (h₁ >>> 35) len) kPrimeMx2) 28

def mix16B (p : Bytes) (off secretOff : Nat) : Nat :=
  mul128Fold64 (rd 8 p off ^^^ secret64 secretOff) (rd 8 p (off + 8) ^^^ secret64 (secretOff + 8))

/-- A 64-bit sum of mixes of 16 bytes, each at an offset with an offset of the secret. -/
def addMixes (p : Bytes) (acc : Nat) (at_ : List (Nat × Nat)) : Nat :=
  at_.foldl (fun acc o => add64 acc (mix16B p o.1 o.2)) acc

/-! ### By length -/

/-- [SRC xxh3.cc:123-142] -/
def len0to16 (p : Bytes) : Nat :=
  let len := p.length
  if 8 < len then
    let lo := rd 8 p 0 ^^^ (secret64 24 ^^^ secret64 32)
    let hi := rd 8 p (len - 8) ^^^ (secret64 40 ^^^ secret64 48)
    avalanche ((len + swap64 lo + hi + mul128Fold64 lo hi) % 2 ^ 64)
  else if 4 ≤ len then
    let bitflip := secret64 8 ^^^ secret64 16
    rrmxmx (add64 (rd 4 p (len - 4)) (rd 4 p 0 <<< 32) ^^^ bitflip) len
  else if len ≠ 0 then
    let combined := (rd 1 p 0 <<< 16) ||| (rd 1 p (len / 2) <<< 24) ||| rd 1 p (len - 1) |||
      (len <<< 8)
    avalanche64 (combined ^^^ (rd 4 kSecret 0 ^^^ rd 4 kSecret 4))
  else avalanche64 (secret64 56 ^^^ secret64 64)

/-- [SRC xxh3.cc:144-161] -/
def len17to128 (p : Bytes) : Nat :=
  let len := p.length
  avalanche (addMixes p (mul64 len kPrime64_1)
    ((if 96 < len then [(48, 96), (len - 64, 112)] else []) ++
      (if 64 < len then [(32, 64), (len - 48, 80)] else []) ++
      (if 32 < len then [(16, 32), (len - 32, 48)] else []) ++ [(0, 0), (len - 16, 16)]))

/-- [SRC xxh3.cc:163-172] -/
def len129to240 (p : Bytes) : Nat :=
  let len := p.length
  let acc := avalanche (addMixes p (mul64 len kPrime64_1)
    ((List.range 8).map fun i => (16 * i, 16 * i)))
  avalanche (addMixes p acc
    (((List.range' 8 (len / 16 - 8)).map fun i => (16 * i, 16 * (i - 8) + 3)) ++
      [(len - 16, 136 - 17)]))

/-- [SRC xxh3.cc:174-181] The 64 bytes at `off`; adjacent lanes are swapped on purpose. -/
def accumulate512 (p : Bytes) (acc : List Nat) (o : Nat × Nat) : List Nat :=
  (List.range 8).map fun i =>
    let key := rd 8 p (o.1 + 8 * i) ^^^ secret64 (o.2 + 8 * i)
    (acc.getD i 0 + rd 8 p (o.1 + 8 * (i ^^^ 1)) + key % 2 ^ 32 * (key >>> 32)) % 2 ^ 64

def scramble (acc : List Nat) (secretOff : Nat) : List Nat :=
  (List.range 8).map fun i =>
    mul64 (xorshift64 (acc.getD i 0) 47 ^^^ secret64 (secretOff + 8 * i)) kPrime32_1

def mergeAccs (acc : List Nat) (secretOff start : Nat) : Nat :=
  avalanche ((List.range 4).foldl (fun r i => add64 r (mul128Fold64
    (acc.getD (2 * i) 0 ^^^ secret64 (secretOff + 16 * i))
    (acc.getD (2 * i + 1) 0 ^^^ secret64 (secretOff + 16 * i + 8)))) start)

/-- `n` stripes of a block from `off`. -/
def stripes (p : Bytes) (acc : List Nat) (off n : Nat) : List Nat :=
  ((List.range n).map fun s => (off + s * 64, s * 8)).foldl (accumulate512 p) acc

/-- [SRC xxh3.cc:196-220] A block is 16 stripes; the last stripe may read bytes again. -/
def hashLong (p : Bytes) : Nat :=
  let len := p.length
  let start := [kPrime32_3, kPrime64_1, kPrime64_2, kPrime64_3, kPrime64_4, kPrime32_2, kPrime64_5,
    kPrime32_1]
  let blocks := (len - 1) / 1024
  let acc :=
    (List.range blocks).foldl (fun acc n => scramble (stripes p acc (n * 1024) 16) 128) start
  let tail := stripes p acc (blocks * 1024) ((len - 1 - 1024 * blocks) / 64)
  mergeAccs (accumulate512 p tail (len - 64, 192 - 64 - 7)) 11 (mul64 len kPrime64_1)

end Xxh3

/-- [SRC xxh3.cc:224-230] -/
def xxh3_64 (p : Bytes) : UInt64 :=
  UInt64.ofNat <|
    if p.length ≤ 16 then Xxh3.len0to16 p
    else if p.length ≤ 128 then Xxh3.len17to128 p
    else if p.length ≤ 240 then Xxh3.len129to240 p
    else Xxh3.hashLong p

-- the known answers for a ramp of bytes, on either side of the boundaries in length
example : [0, 3, 8, 16, 17, 64].map (fun n => xxh3_64 ((List.range n).map UInt8.ofNat)) =
    [0x2d06800538d394c2, 0x5f4299fc161c9cbb, 0x3a1c2d7c85af88f8, 0x8355e3a6f61770db,
      0x9ef341a99de37328, 0x6187eb9089b0ed55] := by
  decide +kernel

example : [128, 129, 240, 241].map (fun n => xxh3_64 ((List.range n).map UInt8.ofNat)) =
    [0x85c6174c7ff4c46b, 0xec7642b431ba3e5a, 0x375a384d957fe865, 0x02e8cd95421c6d02] := by
  decide +kernel

end UCache
