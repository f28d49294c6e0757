/-
Module: UCache.Transpose.UntrustedBuild
Purpose: Building from a tree file that nobody vouches for: when the builders and the fill layout stay
  inside of their buffers, and a file with which they do not.
Trusted boundary: none
Main exports: StaysInside, untrusted_build_inside, long_key_header_outside
-/
import UCache.Transpose.FillSafe

namespace UCache

open Lib

/-- A source of a parse, as one of baskets. -/
def ByteSource.baskets (src : ByteSource) : BasketSource where
  has := src.has
  read := src.read
  read_length := src.read_length

section Build

variable (D : Decoders) (E : Encoder) (fm : FileMeta) (src : BasketSource) (zstdVersion : Nat)
  (hot : List Bytes) (fileSize : Nat) (header treeKeyHeader keysList : Bytes)
  (codecs : List String) (slotFactor100 : Nat) (record : Bytes) (slotLen : Nat)

/-- The overlay, the fill layout and a converted basket are computed with a result or an error, and
never with an access outside of a buffer or a negative length. -/
structure StaysInside : Prop where
  overlay : buildOverlay D E fm src zstdVersion hot ≠ .error .outside
  layout : layoutForFillIn E fm fileSize header treeKeyHeader keysList codecs slotFactor100 ≠
    .error .outside
  basket : convertBasketIn D E record slotLen codecs ≠ .error .outside

/-- From a file that parses, whatever its source holds, the builders stay inside of their buffers
exactly when the key headers of the baskets and of the tree that a build comes to fit their records,
and a converted basket has room for its length. -/
theorem untrusted_build_inside {fileSource : ByteSource} {fsz : Int} {tree : Bytes}
    (hparse : parseTreeFrom D fileSource fsz tree = some (.ok fm)) :
    StaysInside D E fm src zstdVersion hot fileSize header treeKeyHeader keysList codecs
        slotFactor100 record slotLen ↔
      BuildFits D E fm src hot ∧ ConvertFits D record slotLen codecs := by
  have hin := parseTreeFrom_inside hparse
  constructor
  · intro h
    exact ⟨(avoids_buildOverlay hin).1 h.overlay, avoids_convertBasketIn.1 h.basket⟩
  · rintro ⟨hbuild, hconvert⟩
    refine ⟨(avoids_buildOverlay hin).2 hbuild, ?_, avoids_convertBasketIn.2 hconvert⟩
    rw [layoutForFillIn_eq hin]
    exact avoids_declined _

end Build

/-! ### A file with one basket -/

namespace OneBasket

/-- A key of 32-bit seeks that says that its header has `keylen` bytes. -/
def key (nbytes objlen keylen seek : Nat) (cls name : String) : Bytes :=
  be 4 nbytes ++ be 2 4 ++ be 4 objlen ++ be 4 0 ++ be 2 keylen ++ be 2 1 ++ be 4 seek ++
    be 4 100 ++ (UInt8.ofNat cls.length :: ascii cls) ++ (UInt8.ofNat name.length :: ascii name) ++
      [0]

def treeAt : Nat := 600

def keysAt : Nat := 1100

/-- The basket's key says that its header has `keylen` bytes, and that what is behind it is
compressed. -/
def basket (keylen : Nat) : Bytes :=
  key 48 5 keylen basketAt "TBasket" "b" ++ List.replicate 11 0

def treeKey : Bytes := key (35 + tree.length) tree.length 35 treeAt "TTree" "t"

def keysList : Bytes :=
  key (29 + 4 + treeKey.length) (4 + treeKey.length) 29 keysAt "" "" ++ be 4 1 ++ treeKey

def size : Nat := keysAt + keysList.length

def fileHead : Bytes :=
  let front := ascii "root" ++ be 4 62400 ++ be 4 100 ++ be 4 size ++ be 84 0 ++
    key 90 61 29 100 "" "" ++ [0] ++ [0] ++ be 2 5 ++ be 24 0 ++ be 4 keysAt
  front ++ be (512 - front.length) 0

def file (keylen : Nat) : ByteSource :=
  .ofSegments size
    [(0, fileHead), (basketAt, basket keylen), (treeAt, treeKey ++ tree), (keysAt, keysList)]

/-- What the file parses to: the basket's record is not looked at. -/
def fileMeta : FileMeta where
  fend := 1168
  keyslistSeek := 1100
  dirSeekKeysOff := 157
  headerSeekWidth := 4
  dirSeekWidth := 4
  treeKey :=
    { nbytes := 415
      ver := 4
      objlen := 380
      keylen := 35
      cycle := 1
      seekkey := 600
      cls := ascii "TTree"
      name := ascii "t" }
  treeBlob := tree
  entries := 7
  autoFlush := 3
  autoFlushOff := 130
  zipBytesOff := 46
  branches :=
    [{ name := ascii "b"
       writeBasket := 1
       maxBaskets := 1
       entries := 7
       basketSeek := [520]
       basketBytes := [48]
       basketEntry := [0, 7]
       seekArrayOff := 371
       bytesArrayOff := 357
       compress := 101
       zipBytesOff := 292 }]

end OneBasket

open OneBasket TwoColumns in
/-- A basket whose key says that its header is longer than the record: the length of its payload would
be negative. -/
theorem long_key_header_outside :
    ¬ ∀ (D : Decoders) (E : Encoder) (src : ByteSource) (fsz : Int) (tree : Bytes) (fm : FileMeta),
      parseTreeFrom D src fsz tree = some (.ok fm) →
        ∀ zstdVersion hot fileSize header treeKeyHeader keysList codecs slotFactor100 record slotLen,
          StaysInside D E fm src.baskets zstdVersion hot fileSize header treeKeyHeader keysList codecs
            slotFactor100 record slotLen := by
  intro h
  have hstays := h noDecoders rawBlocks (OneBasket.file 1000) OneBasket.size (ascii "t")
    OneBasket.fileMeta (by decide +kernel) 10505 [ascii "b"] 0 [] [] [] [] 0 [] 0
  exact hstays.overlay (by decide +kernel)

open TwoColumns in
/-- The build of a file with one basket, whose image lies where a share says. -/
theorem one_basket_inside :
    StaysInside noDecoders rawBlocks OneBasket.fileMeta (OneBasket.file 37).baskets 10505 [ascii "b"]
        0 [] [] [] [] 0 [] 0 ↔
      BuildFits noDecoders rawBlocks OneBasket.fileMeta (OneBasket.file 37).baskets [ascii "b"] ∧
        ConvertFits noDecoders [] 0 [] :=
  untrusted_build_inside noDecoders rawBlocks OneBasket.fileMeta (OneBasket.file 37).baskets 10505
    [ascii "b"] 0 [] [] [] [] 0 [] 0
    (show parseTreeFrom noDecoders (OneBasket.file 37) OneBasket.size (ascii "t") =
      some (.ok OneBasket.fileMeta) by decide +kernel)

end UCache
