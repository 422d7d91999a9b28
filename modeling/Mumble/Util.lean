import Mumble.Lib.Run

/-! The varint of `util.c`. A C `int` is a two's-complement `BitVec 32` where
the code shifts and combines bits, and the operands `buf[++position]` are taken
from left to right. -/
namespace Mumble
open CExec

/-- The integer promotion of a `uint8_t` operand. -/
def int (b : UInt8) : BitVec 32 := b.toBitVec.setWidth 32

/-- The conversion of an `int` to `uint64_t`, which extends its sign. -/
def u64 (x : BitVec 32) : UInt64 := ⟨x.signExtend 64⟩

/-- `depth` bounds the nested calls. The recursive call of the `0xF8` form gets
`buf + position` and `size - position` with `position` still zero, so it is
the same call again. -/
def varintDecodeRec : Nat → List UInt8 → Int → UInt64 → Run (Int × UInt64)
  | 0, _, _, _ => .error .endless
  | depth + 1, buf, size, result =>
    if size = 0 then .ok (0, result)
    else do
      let b0 ← load buf 0
      if b0 &&& 0x80 = 0x00 then
        .ok (1, (b0 &&& 0x7F).toUInt64)
      else if b0 &&& 0xC0 = 0x80 then
        if size < 2 then .ok (-1, 0)
        else do
          let b1 ← load buf 1
          .ok (2, u64 (((int b0 &&& 0x3F) <<< 8) ||| int b1))
      else if b0 &&& 0xF0 = 0xF0 then
        if b0 &&& 0xFC = 0xF0 then do
          let b1 ← load buf 1
          let b2 ← load buf 2
          let b3 ← load buf 3
          let b4 ← load buf 4
          .ok (5, u64 ((int b1 <<< 24) ||| (int b2 <<< 16) ||| (int b3 <<< 8) ||| int b4))
        else if b0 &&& 0xFC = 0xF4 then do
          let b1 ← load buf 1
          let b2 ← load buf 2
          let b3 ← load buf 3
          let b4 ← load buf 4
          let b5 ← load buf 5
          let b6 ← load buf 6
          let b7 ← load buf 7
          let b8 ← load buf 8
          -- only the first four operands are cast before they are shifted
          .ok (9, (b1.toUInt64 <<< 56) ||| (b2.toUInt64 <<< 48) ||| (b3.toUInt64 <<< 40) |||
            (b4.toUInt64 <<< 32) ||| u64 (int b5 <<< 24) ||| u64 (int b6 <<< 16) |||
            u64 (int b7 <<< 8) ||| u64 (int b8))
        else if b0 &&& 0xFC = 0xF8 then do
          let position := 0
          let (r_result, value) ← varintDecodeRec depth (buf.drop position) (size - position) 0
          if r_result ≠ 0 then .ok (r_result, value) else .ok (1, ~~~value)
        else if b0 &&& 0xFC = 0xFC then
          .ok (1, ~~~(b0 &&& 0x03).toUInt64)
        else .ok (-2, 0)
      else if b0 &&& 0xF0 = 0xE0 then do
        let b1 ← load buf 1
        let b2 ← load buf 2
        let b3 ← load buf 3
        .ok (4, u64 (((int b0 &&& 0x0F) <<< 24) ||| (int b1 <<< 16) ||| (int b2 <<< 8) ||| int b3))
      else if b0 &&& 0xE0 = 0xC0 then do
        let b1 ← load buf 1
        let b2 ← load buf 2
        .ok (3, u64 (((int b0 &&& 0x1F) <<< 16) ||| (int b1 <<< 8) ||| int b2))
      else .ok (1, 0)

/-- The returned count and the final `*result`, given the initial one. -/
def varintDecode (buf : List UInt8) (size : Int) (result : UInt64) : Run (Int × UInt64) :=
  varintDecodeRec (buf.length + 1) buf size result

/-- The range ladder at the end of `varint_encode_size`. -/
def varintRangeSize (source : UInt64) : Int :=
  if source < 0x80 then 1
  else if source < 0x4000 then 2
  else if source < 0x200000 then 3
  else if source < 0x10000000 then 4
  else if source < 0x100000000 then 5
  else 9

/-- The comparison `source < 0` is between unsigned values. -/
def varintEncodeSize (source : UInt64) : Int :=
  if source < 0 then
    if ~~~source < 0x4 then 1 else 1 + varintRangeSize (~~~source)
  else varintRangeSize source

/-- The buffer, `pos` and `*written` that `write_buf` updates. -/
structure WriteBuf where
  buf : List UInt8
  pos : Nat
  written : Int
  deriving DecidableEq

def writeBuf (s : WriteBuf) (value : UInt8) : Run WriteBuf :=
  if s.pos < s.buf.length then .ok ⟨s.buf.set s.pos value, s.pos + 1, s.written + 1⟩
  else .error .outOfBounds

/-- The writes of the range ladder at the end of `varint_encode`. -/
def varintWrite (source : UInt64) (s : WriteBuf) : Run WriteBuf :=
  if source < 0x80 then writeBuf s source.toUInt8
  else if source < 0x4000 then do
    let s ← writeBuf s ((source >>> 8) ||| 0x80).toUInt8
    writeBuf s (source &&& 0xFF).toUInt8
  else if source < 0x200000 then do
    let s ← writeBuf s ((source >>> 16) ||| 0xC0).toUInt8
    let s ← writeBuf s ((source >>> 8) &&& 0xFF).toUInt8
    writeBuf s (source &&& 0xFF).toUInt8
  else if source < 0x10000000 then do
    let s ← writeBuf s ((source >>> 24) ||| 0xE0).toUInt8
    let s ← writeBuf s ((source >>> 16) &&& 0xFF).toUInt8
    let s ← writeBuf s ((source >>> 8) &&& 0xFF).toUInt8
    writeBuf s (source &&& 0xFF).toUInt8
  else if source < 0x100000000 then do
    let s ← writeBuf s 0xF0
    let s ← writeBuf s ((source >>> 24) &&& 0xFF).toUInt8
    let s ← writeBuf s ((source >>> 16) &&& 0xFF).toUInt8
    let s ← writeBuf s ((source >>> 8) &&& 0xFF).toUInt8
    writeBuf s (source &&& 0xFF).toUInt8
  else do
    let s ← writeBuf s 0xF4
    let s ← writeBuf s ((source >>> 56) &&& 0xFF).toUInt8
    let s ← writeBuf s ((source >>> 48) &&& 0xFF).toUInt8
    let s ← writeBuf s ((source >>> 40) &&& 0xFF).toUInt8
    let s ← writeBuf s ((source >>> 32) &&& 0xFF).toUInt8
    let s ← writeBuf s ((source >>> 24) &&& 0xFF).toUInt8
    let s ← writeBuf s ((source >>> 16) &&& 0xFF).toUInt8
    let s ← writeBuf s ((source >>> 8) &&& 0xFF).toUInt8
    writeBuf s (source &&& 0xFF).toUInt8

/-- The return value, the buffer after the writes and the final `*written`. -/
def varintEncode (source : UInt64) (buf : List UInt8) (size written : Int) :
    Run (Int × List UInt8 × Int) :=
  if size < varintEncodeSize source then .ok (1, buf, written)
  else if source < 0 then
    if ~~~source < 0x4 then do
      let s ← writeBuf ⟨buf, 0, 0⟩ ((0xFC : UInt64) ||| ~~~source).toUInt8
      .ok (0, s.buf, s.written)
    else do
      let s ← writeBuf ⟨buf, 0, 0⟩ 0xF8
      let s ← varintWrite (~~~source) s
      .ok (0, s.buf, s.written)
  else do
    let s ← varintWrite source ⟨buf, 0, 0⟩
    .ok (0, s.buf, s.written)

end Mumble
