import Mumble.Ocb2
import Mumble.Ocb3Aes
import Mumble.Lib.OffsetSchedule

/-! The OCB3 mode itself, with tags of 128 bits and nonces of twelve bytes. Message
and associated data are enciphered block by block under offsets that the trailing
zeros of the block numbers advance. -/
namespace Mumble
open CExec Bytes OffsetSchedule

/-- The block of a number modulo `2 ^ 128`, in big-endian order. -/
def Block.ofNat (n : Nat) : Block := .ofList (ofBigEndian 16 n) (ofBigEndian_length 16 n)

section
variable (E : Equiv.Perm Block)

/-- `L_i`: two doublings lead from `L_*`, the encipherment of zero, over `L_$` to `L_0`. -/
noncomputable def ocb3L (i : Nat) : Block := GF128.double^[i + 2] (E 0)

/-- What the offset grows by before each block. The first block has the number one. -/
noncomputable def ocb3Schedule (t : Nat) : Block := ocb3L E (padicValNat 2 (t + 1))

/-- The stretched block of 192 bits. -/
def stretchNumber (ktop : Nat) : Nat := ktop * 2 ^ 64 + (ktop / 2 ^ 64 ^^^ ktop / 2 ^ 56 % 2 ^ 64)

/-- The offset before the first block, `bottom` bits into the stretched block. -/
def ocb3Start (nonce bottom : Nat) : Block :=
  let ktop := E (Block.ofNat (nonce - nonce % 64))
  Block.ofNat (stretchNumber ktop.toNat / 2 ^ (64 - bottom))

/-- The ciphertext of full blocks and fewer than sixteen bytes, and the tag of these. -/
noncomputable def ocb3Seal (schedule : Nat → Block) (start : Block) (bs : List Block)
    (last : List UInt8) : List UInt8 × Block :=
  let ciphertext := flat (encipher E schedule start bs)
  let offset := offset schedule start bs.length
  if last = [] then (ciphertext, E (bs.sum + offset + GF128.double (E 0)))
  else
    let offset := offset + E 0
    (ciphertext ++ mask (E offset) last, E (bs.sum + padded last + offset + GF128.double (E 0)))

/-- The hash of full blocks of associated data and fewer than sixteen bytes. -/
def ocb3Hash (schedule : Nat → Block) (bs : List Block) (last : List UInt8) : Block :=
  let sum := ((points schedule 0 bs).map E).sum
  if last = [] then sum
  else sum + E (padded last + (offset schedule 0 bs.length + E 0))

/-- The ciphertext and the tag. Of the nonce's block the length of the tag, which is
taken modulo 128, sets no bit. -/
noncomputable def ocb3Encrypt (nonce data message : List UInt8) : List UInt8 × Block :=
  let number := 2 ^ 96 + bigEndian nonce
  let m := message.length / 16
  let a := data.length / 16
  let (ciphertext, tag) := ocb3Seal E (ocb3Schedule E) (ocb3Start E number (number % 64))
    (blocks m message) (message.drop (16 * m))
  (ciphertext, tag + ocb3Hash E (ocb3Schedule E) (blocks a data) (data.drop (16 * a)))

end

end Mumble
