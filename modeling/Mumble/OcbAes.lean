import Mumble.Lib.Run
import Mumble.Lib.OffsetCodebook

/-! The OCB2 mode of `ocb_aes.c`. An output pointer is the list of the bytes
written through it, whose room is checked where the output array is declared.
Input and output are different arrays at every call. -/
namespace Mumble
open CExec

/-- `AES_BLOCK_SIZE` bytes. -/
structure Block where
  bytes : Vector UInt8 16
  deriving DecidableEq

/-- `AES_KEY_SIZE` bytes. -/
abbrev Key := Vector UInt8 16

/-- The block permutation of `AES_encrypt` under each key, inverted by `AES_decrypt`. -/
abbrev Aes := Key → Equiv.Perm Block

/-- An `ivlen` beyond the IV arrays would overflow them, so no state has one.
The `taglen` that the source also stores is never read. -/
structure OcbAes where
  key : Key
  encIv : Block
  decIv : Block
  ivlen : UInt8
  fits : ivlen ≤ 16
  deriving DecidableEq

namespace Block

def toList (b : Block) : List UInt8 := b.bytes.toList

def ofList (bytes : List UInt8) (size : bytes.length = 16) : Block := ⟨⟨bytes.toArray, size⟩⟩

def byte (b : Block) (i : Fin 16) : UInt8 := b.bytes[i]

/-- An assignment to the byte at `AES_BLOCK_SIZE - 1`. -/
def setLast (b : Block) (value : UInt8) : Block := ⟨b.bytes.set 15 value⟩

/-- `memcpy` of `bytes` over the first bytes of the block. -/
def overlay (b : Block) (bytes : List UInt8) : Block :=
  ⟨.ofFn fun i => bytes[i.val]?.getD (b.byte i)⟩

end Block

def zeroBlock : Block := ⟨.ofFn fun _ => 0⟩

/-- The sixteen bytes that a pointer to a block refers to. -/
def loadBlock (p : List UInt8) : Run Block :=
  if size : (p.take 16).length = 16 then .ok (.ofList (p.take 16) size) else .error .outOfBounds

def ocbAesSetKeys (ctx : OcbAes) (key encIv decIv : List UInt8) (ivlen : Int) : Run OcbAes := do
  let key ← loadBlock key
  -- a negative length is a huge `size_t`
  if h : 0 ≤ ivlen ∧ ivlen ≤ 16 then
    let enc ← slice encIv ivlen.toNat
    let dec ← slice decIv ivlen.toNat
    .ok { key := key.bytes, encIv := ctx.encIv.overlay enc, decIv := ctx.decIv.overlay dec,
          ivlen := .ofNat ivlen.toNat,
          fits := by rw [UInt8.le_iff_toNat_le, UInt8.toNat_ofNat']; change _ ≤ 16; omega }
  else .error .outOfBounds

/-- The byte that `left_shift` writes to `out[i]`. The backfill shift is taken in
`int`, so that eight positions empty the byte. -/
def shiftedByte (in_ : Vector UInt8 n) (bits i : Nat) : UInt8 :=
  let index := i + bits / 8
  if inside : index < n then
    let out := in_[index] <<< UInt8.ofNat (bits % 8)
    if next : index + 1 < n then
      let nextByte := in_[index + 1]
      let nextBits := UInt8.ofNat (nextByte.toNat >>> (8 - bits % 8))
      out ||| nextBits
    else out
  else 0x00

/-- The index is a sum of `int`s. -/
def leftShift (in_ : Vector UInt8 n) (bits : Nat) : Run (Vector UInt8 n) :=
  Vector.ofFnM fun i => do
    require (i.val + bits / 8 < 2 ^ 31) .overflow
    .ok (shiftedByte in_ bits i.val)

/-- All bytes that `left_shift` writes where no index overflows. -/
def shifted (in_ : Vector UInt8 n) (bits : Nat) : Vector UInt8 n :=
  .ofFn fun i => shiftedByte in_ bits i.val

theorem leftShift_ok (in_ : Vector UInt8 n) (fits : n + bits / 8 ≤ 2 ^ 31) :
    leftShift in_ bits = .ok (shifted in_ bits) :=
  ofFnM_require fun i => (Nat.add_lt_add_right i.isLt _).trans_le fits

theorem leftShift_block (b : Block) : leftShift b.bytes 1 = .ok (shifted b.bytes 1) :=
  leftShift_ok b.bytes (by decide)

-- by `leftShift_block` no index overflows
def doubleBlock (in_ : Block) : Block :=
  let out : Block := ⟨shifted in_.bytes 1⟩
  if in_.byte 0 &&& 0x80 ≠ 0 then out.setLast (out.byte 15 ^^^ 0x87) else out

def xorBlockEx (a b : List UInt8) (blockSize : Nat) : Run (List UInt8) := do
  let a ← slice a blockSize
  let b ← slice b blockSize
  .ok (List.zipWith (· ^^^ ·) a b)

def xorBlock (a b : Block) : Block := ⟨.ofFn fun i => a.byte i ^^^ b.byte i⟩

def tripleBlock (in_ : Block) : Block :=
  let temp := doubleBlock in_
  xorBlock in_ temp

section
variable (aes : Aes)

def aesEncrypt (key : Key) (in_ : Block) : Block := aes key in_

def aesDecrypt (key : Key) (in_ : Block) : Block := (aes key).symm in_

/-- The arrays `delta` and `checksum` that a call threads through its blocks. -/
abbrev Ocb2 := OffsetCodebook.State Block

def ocb2EncryptBlock (ctx : OcbAes) (in_ : Block) (s : Ocb2) : Block × Ocb2 :=
  let deltaNew := doubleBlock s.delta
  let xorIn := xorBlock deltaNew in_
  let encrypted := aesEncrypt aes ctx.key xorIn
  let out := xorBlock encrypted deltaNew
  let checksumNew := xorBlock s.checksum in_
  (out, ⟨deltaNew, checksumNew⟩)

def ocb2DecryptBlock (ctx : OcbAes) (in_ : Block) (s : Ocb2) : Block × Ocb2 :=
  let deltaNew := doubleBlock s.delta
  let deltaXorIn := xorBlock deltaNew in_
  let deciphered := aesDecrypt aes ctx.key deltaXorIn
  let out := xorBlock deciphered deltaNew
  let checksumNew := xorBlock s.checksum out
  (out, ⟨deltaNew, checksumNew⟩)

/-- The output, the tag and the checksum left behind. Only the first half of the
32-byte `pad` is ever written, so a read of the second half is out of bounds too. -/
def ocb2EncryptBlockFinal (ctx : OcbAes) (in_ : List UInt8) (inl : UInt8) (s : Ocb2) :
    Run (List UInt8 × Block × Block) := do
  let deltaNew := doubleBlock s.delta
  let zeroAndSize := zeroBlock.setLast (inl * 8)
  let sizeXorDelta := xorBlock zeroAndSize deltaNew
  let pad := aesEncrypt aes ctx.key sizeXorDelta
  let out ← xorBlockEx in_ pad.toList inl.toNat
  let in_ ← slice in_ inl.toNat
  let pad := pad.overlay in_
  let checksumNew := xorBlock pad s.checksum
  let deltaTag := tripleBlock deltaNew
  let tagIn := xorBlock deltaTag checksumNew
  .ok (out, aesEncrypt aes ctx.key tagIn, checksumNew)

/-- The loops over full blocks: the bytes written, and `in` after them. -/
def ocb2Blocks (step : Block → Ocb2 → Block × Ocb2) :
    Nat → List UInt8 → Ocb2 → Run (List UInt8 × List UInt8 × Ocb2)
  | 0, in_, s => .ok ([], in_, s)
  | count + 1, in_, s => do
    let block ← loadBlock in_
    let (out, s) := step block s
    let (outs, rest, s) ← ocb2Blocks step count (in_.drop 16) s
    .ok (out.toList ++ outs, rest, s)

/-- The conversion of an `int` argument to `uchar`. -/
def uchar (i : Int) : UInt8 := ⟨.ofInt 8 i⟩

/-- The return value, the bytes of `out` and the tag. -/
def ocb2AesEncrypt (ctx : OcbAes) (in_ : List UInt8) (inl : Int) : Run (Int × List UInt8 × Block) := do
  let delta := aesEncrypt aes ctx.key ctx.encIv
  let i := (inl.tdiv 16).toNat
  let (out, rest, s) ← ocb2Blocks (ocb2EncryptBlock aes ctx) i in_ ⟨delta, zeroBlock⟩
  let (last, tag, _) ← ocb2EncryptBlockFinal aes ctx rest (uchar (inl - i * 16)) s
  .ok (0, out ++ last, tag)

/-- The bytes of `out` and the tag. The function ends without a `return`. -/
def ocb2AesDecrypt (ctx : OcbAes) (in_ : List UInt8) (inl : Int) : Run (List UInt8 × Block) := do
  let delta := aesEncrypt aes ctx.key ctx.decIv
  let i := (inl.tdiv 16).toNat
  let (out, rest, s) ← ocb2Blocks (ocb2DecryptBlock aes ctx) i in_ ⟨delta, zeroBlock⟩
  let (last, tag, _) ← ocb2EncryptBlockFinal aes ctx rest (uchar (inl - i * 16)) s
  .ok (out ++ last, tag)

end

end Mumble
