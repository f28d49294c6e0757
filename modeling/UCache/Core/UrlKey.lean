/-
Module: UCache.Core.UrlKey
Purpose: The cache key of a URL: scheme, host and port, the path normalised, and the parameters a
  keep list names.
Trusted boundary: none
Main exports: KeyParts, parse, normalizePath
-/
import UCache.Core.ObsRecord
import UCache.Lib.Cuts
import UCache.Lib.SortedMap
import Mathlib.Data.List.Lex

namespace UCache

open CText Lib

/-- [SRC UrlKey.h:18-22] A key with the parts it is matched by; its hash is left out. -/
structure KeyParts where
  key : Bytes
  scheme : Bytes
  host : Bytes
deriving DecidableEq

namespace UrlKey

/-- Texts are compared byte by byte. -/
scoped instance linearOrderUInt8 : LinearOrder UInt8 where
  le_refl := UInt8.le_refl
  le_trans := fun _ _ _ => UInt8.le_trans
  le_antisymm := fun _ _ => UInt8.le_antisymm
  le_total := UInt8.le_total
  lt_iff_le_not_ge := fun a b => by
    rw [UInt8.lt_iff_toNat_lt, UInt8.le_iff_toNat_le, UInt8.le_iff_toNat_le]
    omega
  toDecidableLE := inferInstance
  toDecidableLT := inferInstance
  toDecidableEq := inferInstance

/-! ### Parts of a URL -/

/-- [SRC UrlKey.cc:14-18] -/
def lowerByte (b : UInt8) : UInt8 := if 65 ≤ b ∧ b ≤ 90 then b + 32 else b

def toLower (s : Bytes) : Bytes := s.map lowerByte

/-- [SRC UrlKey.cc:20-28] -/
def defaultPort (scheme : Bytes) : Int :=
  if scheme = ascii "root" ∨ scheme = ascii "xroot" ∨ scheme = ascii "roots" ∨
      scheme = ascii "xroots" then 1094
  else if scheme = ascii "http" then 80
  else if scheme = ascii "https" then 443 else 0

/-- [SRC UrlKey.cc:36-43] -/
def addSegment (segs : List Bytes) (seg : Bytes) : List Bytes :=
  if seg = [] ∨ seg = [46] then segs
  else if seg = [46, 46] then segs.dropLast else segs ++ [seg]

/-- [SRC UrlKey.cc:31-49] -/
def normalizePath (path : Bytes) : Bytes :=
  let segs := (getlines 47 path).foldl addSegment []
  let out := segs.flatMap (47 :: ·)
  if out = [] then [47] else out

/-- `"://"`. -/
def schemeMark : Bytes := [58, 47, 47]

/-- [SRC UrlKey.cc:55-66] The scheme, the authority up to the first slash, and what is behind it. -/
def cutUrl (url : Bytes) : Option (Bytes × Bytes × Bytes) :=
  match cutAt schemeMark url with
  | none => none
  | some (scheme, behind) =>
      if scheme = [] then none
      else
        match cutFirst 47 behind with
        | none => none
        | some (auth, rest) => if auth = [] then none else some (scheme, auth, rest)

/-- [SRC UrlKey.cc:68-69] -/
def dropUserinfo (auth : Bytes) : Bytes :=
  match cutLast 64 auth with
  | some (_, host) => host
  | none => auth

/-- [SRC UrlKey.cc:71-84] -/
def hostPort (scheme auth : Bytes) : Option (Bytes × Int) :=
  if auth.head? = some 91 then
    match cutFirst 93 auth with
    | none => none
    | some (inner, behind) =>
        some (inner ++ [93],
          if behind.head? = some 58 then atoi behind.tail else defaultPort scheme)
  else
    match cutLast 58 auth with
    | some (host, port) => some (host, atoi port)
    | none => some (auth, defaultPort scheme)

/-- [SRC UrlKey.cc:89-94] What is before and what is behind the first question mark. -/
def splitQuery (rest : Bytes) : Bytes × Bytes := (cutFirst 63 rest).getD (rest, [])

/-- [SRC UrlKey.cc:104-107] A parameter's name and its value. -/
def param (kv : Bytes) : Bytes × Bytes := (cutFirst 61 kv).getD (kv, [])

/-- [SRC UrlKey.cc:99-109] -/
def keptParams (keepCgi : List Bytes) (cgi : Bytes) : List (Bytes × Bytes) :=
  if keepCgi ≠ [] ∧ cgi ≠ [] then
    (getlines 38 cgi).foldl
      (fun kept kv =>
        if (param kv).1 ∈ keepCgi then assign (param kv).1 (param kv).2 kept else kept) []
  else []

/-- The parameters of a query that a keep list names, in their order. -/
def namedParams (keepCgi : List Bytes) (query : Bytes) : List (Bytes × Bytes) :=
  ((getlines 38 query).map param).filter fun p => p.1 ∈ keepCgi

/-- [SRC UrlKey.cc:110-111] -/
def keptText (kept : List (Bytes × Bytes)) : Bytes :=
  kept.foldl (fun text p => text ++ (if text = [] then 63 else 38) :: p.1 ++ 61 :: p.2) []

/-- [SRC UrlKey.cc:53-119] -/
def parse (url : Bytes) (keepCgi : List Bytes) : Option KeyParts :=
  match cutUrl url with
  | none => none
  | some (rawScheme, rawAuth, behind) =>
      let scheme := toLower rawScheme
      match hostPort scheme (dropUserinfo rawAuth) with
      | none => none
      | some (rawHost, port) =>
          let host := toLower rawHost
          if host = [] ∨ port ≤ 0 then none
          else
            let rest := splitQuery (47 :: behind)
            some { key := scheme ++ schemeMark ++ host ++ 58 :: decimal port.toNat ++
                     normalizePath rest.1 ++ keptText (keptParams keepCgi rest.2)
                   scheme := scheme
                   host := host }

end UrlKey

end UCache
