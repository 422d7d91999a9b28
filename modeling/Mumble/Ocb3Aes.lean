import Mumble.OcbAes

/-! The OCB3 mode of `ocb_aes.c`, of which only the encryption is written. The
associated data are its `plain`. -/
namespace Mumble
open CExec

/-- A round of `ntz`: the position is shifted down if it has a bit under the mask. -/
def ntzStep (s : Nat × Nat) (b : Nat) (shift : Nat) : Nat × Nat :=
  if s.1 &&& b ≠ 0 then (s.1 >>> shift, s.2 ||| shift) else s

/-- The position of the highest bit, for an `int` that is not negative. -/
def ntz (i : Nat) : Nat :=
  let s := ntzStep (i, 0) 0xFFFF0000 16
  let s := ntzStep s 0xFF00 8
  let s := ntzStep s 0xF0 4
  let s := ntzStep s 0xC 2
  let s := ntzStep s 0x2 1
  s.2

/-- The prefix byte and `AES_IV_SIZE` bytes of the IV. -/
def nonceInit (ctx : OcbAes) : Block :=
  zeroBlock.overlay ([0, 0, 0, 0x01] ++ ctx.encIv.toList.take 12)

theorem half_lt : 8 < 16 := by decide

theorem last_lt : 15 < 16 := by decide

/-- The first half of `ktop` against the bytes one further, behind all of it. -/
def stretchInit (ktop : Block) : Vector UInt8 (16 + 8) :=
  let xorOut : Vector UInt8 8 := .ofFn fun i =>
    ktop.byte ⟨i.val, i.isLt.trans half_lt⟩ ^^^ ktop.byte ⟨i.val + 1, Nat.lt_of_le_of_lt i.isLt half_lt⟩
  ktop.bytes ++ xorOut

theorem leftShift_stretch (stretch : Vector UInt8 (16 + 8)) (bottom : UInt8) :
    leftShift stretch bottom.toNat = .ok (shifted stretch bottom.toNat) := by
  have byte := bottom.toNat_lt
  exact leftShift_ok stretch (by omega)

section
variable (aes : Aes)

def ktopInit (ctx : OcbAes) (nonce : Block) : Block :=
  aesEncrypt aes ctx.key (nonce.setLast (nonce.byte ⟨15, last_lt⟩ &&& 0xC0))

-- by `leftShift_stretch` no index overflows
def offsetInit (ctx : OcbAes) : Block :=
  let nonce := nonceInit ctx
  let bottom := nonce.byte ⟨15, last_lt⟩ &&& 0x1F
  let stretch := stretchInit (ktopInit aes ctx nonce)
  zeroBlock.overlay (shifted stretch bottom.toNat).toList

def keyvarInit (key : Key) : Block :=
  doubleBlock (doubleBlock (aesEncrypt aes key zeroBlock))

/-- The `log2` and the `keyvar` of a loop, bumped at the index `i`. -/
def bumpKeyvar (i : Nat) (s : Nat × Block) : Nat × Block :=
  if s.1 < ntz i then (ntz i, doubleBlock s.2) else s

/-- The `offset` and the `checksum` of the message, or the `sum` of the data. -/
structure Ocb3 where
  offset : Block
  checksum : Block
  deriving DecidableEq

def ocb3EncryptBlock (ctx : OcbAes) (block keyvar : Block) (s : Ocb3) : Block × Ocb3 :=
  let offsetNext := xorBlock s.offset keyvar
  let cipherIn := xorBlock block offsetNext
  let cipher := aesEncrypt aes ctx.key cipherIn
  let out := xorBlock offsetNext cipher
  (out, ⟨offsetNext, xorBlock s.checksum block⟩)

def ocb3HashBlock (ctx : OcbAes) (plaintext keyvar : Block) (s : Ocb3) : Ocb3 :=
  let offsetNext := xorBlock s.offset keyvar
  let xoredPlaintext := xorBlock plaintext offsetNext
  let enciphered := aesEncrypt aes ctx.key xoredPlaintext
  ⟨offsetNext, xorBlock enciphered s.checksum⟩

/-- The loop over the full blocks of the message from the index `i` on. -/
def ocb3Blocks (ctx : OcbAes) : Nat → Nat → List UInt8 → Nat × Block → Ocb3 → Run (List UInt8 × Ocb3)
  | 0, _, _, _, s => .ok ([], s)
  | count + 1, i, in_, bumped, s => do
    let block ← loadBlock in_
    let bumped := bumpKeyvar i bumped
    let (out, s) := ocb3EncryptBlock aes ctx block bumped.2 s
    let (outs, s) ← ocb3Blocks ctx count (i + 1) (in_.drop 16) bumped s
    .ok (out.toList ++ outs, s)

/-- The loop over the full blocks of the data, whose index counts their bytes. -/
def ocb3HashBlocks (ctx : OcbAes) : Nat → Nat → List UInt8 → Nat × Block → Ocb3 → Run Ocb3
  | 0, _, _, _, s => .ok s
  | count + 1, i, plaintext, bumped, s => do
    let block ← loadBlock plaintext
    let bumped := bumpKeyvar i bumped
    ocb3HashBlocks ctx count (i + 16) (plaintext.drop 16) bumped (ocb3HashBlock aes ctx block bumped.2 s)

/-- Bytes in a block of zeros, with `0x80` behind them. -/
def padded (bytes : List UInt8) : Block := zeroBlock.overlay (bytes ++ [0x80])

def ocb3HashBlockFinal (ctx : OcbAes) (plaintext : List UInt8) (size : Int) (s : Ocb3) : Run Ocb3 := do
  let keyvar := aesEncrypt aes ctx.key zeroBlock
  let bytes ← slice plaintext size.toNat
  require (size < 16) .outOfBounds
  .ok (ocb3HashBlock aes ctx (padded bytes) keyvar s)

/-- The last bytes are taken from the start of the data. -/
def ocb3HashPlaintext (ctx : OcbAes) (plaintext : List UInt8) (plaintextl : Int) : Run Block := do
  let count := ((plaintextl - plaintextl.tmod 16).tdiv 16).toNat
  let s ← ocb3HashBlocks aes ctx count 0 plaintext (ntz 0, keyvarInit aes ctx.key) ⟨zeroBlock, zeroBlock⟩
  if (count * 16 : Int) < plaintextl then do
    let s ← ocb3HashBlockFinal aes ctx plaintext (plaintextl - count * 16) s
    .ok s.checksum
  else .ok s.checksum

def ocb3ComputeTag (ctx : OcbAes) (checksum offset : Block) (plain : List UInt8) (plainl : Int) :
    Run Block := do
  let keyvar := doubleBlock (aesEncrypt aes ctx.key zeroBlock)
  let chksumXorOffset := xorBlock checksum offset
  let enciphered := aesEncrypt aes ctx.key (xorBlock chksumXorOffset keyvar)
  let hash ← ocb3HashPlaintext aes ctx plain plainl
  .ok (xorBlock hash enciphered)

/-- The bytes written behind the full blocks, and the tag. -/
def ocb3EncryptBlockFinal (ctx : OcbAes) (blockCurrent : List UInt8) (size : Int) (s : Ocb3)
    (plain : List UInt8) (plainl : Int) : Run (List UInt8 × Block) :=
  if 0 < size then do
    let offsetNext := xorBlock (aesEncrypt aes ctx.key zeroBlock) s.offset
    let pad := aesEncrypt aes ctx.key offsetNext
    let out ← xorBlockEx pad.toList blockCurrent size.toNat
    let bytes ← slice blockCurrent size.toNat
    require (size < 16) .outOfBounds
    let checksumNext := xorBlock s.checksum (padded bytes)
    let tag ← ocb3ComputeTag aes ctx checksumNext offsetNext plain plainl
    .ok (out, tag)
  else do
    let tag ← ocb3ComputeTag aes ctx s.checksum s.offset plain plainl
    .ok ([], tag)

/-- The return value, the bytes of `out` and the tag. -/
def ocb3AesEncrypt (ctx : OcbAes) (in_ : List UInt8) (inl : Int) (plain : List UInt8) (plainl : Int) :
    Run (Int × List UInt8 × Block) := do
  let i := (inl.tdiv 16).toNat
  let (out, s) ← ocb3Blocks aes ctx i 0 in_ (ntz 0, keyvarInit aes ctx.key) ⟨offsetInit aes ctx, zeroBlock⟩
  let (last, tag) ← ocb3EncryptBlockFinal aes ctx (in_.drop (16 * i)) (inl - i * 16) s plain plainl
  .ok (0, out ++ last, tag)

end

end Mumble
