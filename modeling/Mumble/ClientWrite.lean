import Mumble.FrameRoundTrip
import Mumble.TcpPoolProofs
import Mumble.Lib.Chunking
import Mumble.Lib.Contract

/-! The way of a message to the network. The frame encoder, TLS and the pool of the
connection each have a limit of their own, and they meet in the copy of a record to
a buffer of the pool. -/
namespace Mumble
open CExec Chunking

/-- `mumble_client_write`, on the parts of the client that it works with. -/
def mumbleClientWrite {σ α μ : Type} (p : Protobuf μ) (api : SslApi σ) (tryWrite : List UInt8 → Int)
    (encoder : FrameEncoder) (socket : UvTcpSsl σ α) (message : μ) :
    Run (FrameEncoder × UvTcpSsl σ α) := do
  let encoder ← mumbleFrameEncode p encoder message
  let socket ← mumbleUvSslWrite api tryWrite socket encoder.written
  .ok (encoder, socket)

/-- The largest plaintext of a TLS record. -/
def maxPlaintext : Nat := 2 ^ 14

/-- The plaintexts of an `SSL_write`, all full but the last. -/
def plaintexts (data : List UInt8) : List (List UInt8) :=
  chunks maxPlaintext data ++
    if leftover maxPlaintext data = [] then [] else [leftover maxPlaintext data]

/-- What is relied on of `SSL_write`: every record reaches the write BIO in one piece,
which is longer than its plaintext. The `overhead` of a record may depend on the
connection, on the size of the data and on the records before it. -/
structure SslApi.WritesRecords {σ : Type} (api : SslApi σ) (overhead : σ → Nat → Nat → Nat) : Prop where
  positive : ∀ ssl size k, 0 < overhead ssl size k
  output : ∀ ssl data, (api.write ssl data).output.map List.length =
    (plaintexts data).mapIdx fun k plaintext => plaintext.length + overhead ssl data.length k

theorem plaintexts_short {data : List UInt8} (some : data ≠ []) (short : data.length < maxPlaintext) :
    plaintexts data = [data] := by
  rw [plaintexts, chunks_short short, leftover_short short, if_neg some, List.nil_append]

/-- The first plaintext is full unless it is the only one. -/
theorem plaintexts_long {data : List UInt8} (long : maxPlaintext ≤ data.length) :
    ∃ first rest, plaintexts data = first :: rest ∧ first.length = maxPlaintext := by
  have positive : 0 < maxPlaintext := Nat.two_pow_pos 14
  have size : (data.take maxPlaintext).length = maxPlaintext := List.length_take_of_le long
  have blocks := chunks_block positive size (data.drop maxPlaintext)
  rw [List.take_append_drop] at blocks
  exact ⟨_, _, by rw [plaintexts, blocks, List.cons_append], size⟩

section
variable {μ : Type} {p : Protobuf μ} {encoder encoded : FrameEncoder} {message : μ}

theorem mumbleFrameEncode_accepts (encoder : FrameEncoder) (lawful : p.Lawful)
    (typed : p.descriptor message = p.generated t) (fits : 6 + p.packedSize message ≤ frameMaxSize) :
    ∃ encoded, mumbleFrameEncode p encoder message = .ok encoded := by
  have limit : frameMaxSize = 2 ^ 20 := rfl
  obtain ⟨f, type, payload⟩ := exists_message_frame lawful t message (by omega)
  have size : f.wire.length ≤ frameMaxSize := by
    rw [frame_wire_length, payload, lawful.packedSize]
    exact fits
  obtain ⟨encoded, run, -⟩ := mumbleFrameEncode_written encoder lawful typed f type payload size
  exact ⟨encoded, run⟩

/-- A frame that was encoded has all of its bytes in the allocation. -/
theorem mumbleFrameEncode_size (packed : (p.pack message).length = p.packedSize message)
    (accepted : mumbleFrameEncode p encoder message = .ok encoded) :
    encoded.written.length = 6 + p.packedSize message := by
  obtain ⟨type, -, accepted⟩ := bind_eq_ok.mp accepted
  obtain ⟨_, -, accepted⟩ := bind_eq_ok.mp accepted
  obtain ⟨_, -, accepted⟩ := bind_eq_ok.mp accepted
  obtain ⟨first, -, accepted⟩ := bind_eq_ok.mp accepted
  obtain ⟨second, -, accepted⟩ := bind_eq_ok.mp accepted
  obtain ⟨third, stored, accepted⟩ := bind_eq_ok.mp accepted
  cases accepted
  have limit : frameMaxSize = 2 ^ 20 := rfl
  have room : 2 + 4 + (p.pack message).length ≤ frameMaxSize := by
    rw [← second.allocated]
    unfold FrameEncoder.write at stored
    split at stored
    case isTrue inside => exact inside
    case isFalse => cases stored
  have total : toSize (2 + 4 + (p.packedSize message : Int)) = 6 + p.packedSize message := by
    rw [toSize]
    omega
  have unsigned : toUnsigned ((6 + p.packedSize message : Nat) : Int) = 6 + p.packedSize message := by
    rw [toUnsigned_natCast]
    omega
  rw [FrameEncoder.written, List.length_take, third.allocated]
  dsimp only
  rw [total, unsigned]
  omega

end

section
variable {σ α : Type} {api : SslApi σ} {overhead : σ → Nat → Nat → Nat} {tryWrite : List UInt8 → Int}
  {ssl : σ} {app : α} {pool : BufferPool} {socket : UvTcpSsl σ α}

theorem uvSslWbioCb_copies (free : pool.inUse < pool.buffers.length)
    {argp : List UInt8} (fits : argp.length ≤ pool.size) :
    Avoids .outOfBounds (uvSslWbioCb tryWrite ⟨ssl, app, pool⟩ argp) fun _ => True := by
  obtain ⟨base, held, acquired, size, -, -, released⟩ := bufferPoolAcquire_free free
  rw [uvSslWbioCb, acquired]
  dsimp only
  rw [size, require_true fits, ok_bind, released]
  exact .require (by decide) fun _ => .ok trivial

theorem uvSslWbioCb_overruns (free : pool.inUse < pool.buffers.length)
    {argp : List UInt8} (long : pool.size < argp.length) :
    uvSslWbioCb tryWrite ⟨ssl, app, pool⟩ argp = .error .outOfBounds := by
  obtain ⟨base, held, acquired, size, -⟩ := bufferPoolAcquire_free free
  rw [uvSslWbioCb, acquired]
  dsimp only
  rw [size, require_false (Nat.not_le_of_lt long), error_bind]

/-- Without a free buffer the assert stops before the copy. -/
theorem uvSslWbioCb_exhausted (used : ¬ pool.inUse < pool.buffers.length)
    (argp : List UInt8) : uvSslWbioCb tryWrite ⟨ssl, app, pool⟩ argp = .error .assertion := by
  rw [uvSslWbioCb, bufferPoolAcquire, dif_neg used]

/-- The first piece of a write decides, when one that fits is the only one. -/
theorem mumbleUvSslWrite_bounds (free : socket.bufferPool.inUse < socket.bufferPool.buffers.length)
    {buf piece : List UInt8} {rest : List (List UInt8)}
    (output : (api.write socket.ssl buf).output = piece :: rest)
    (only : piece.length ≤ socket.bufferPool.size → rest = []) :
    mumbleUvSslWrite api tryWrite socket buf ≠ .error .outOfBounds ↔
      piece.length ≤ socket.bufferPool.size := by
  rw [mumbleUvSslWrite, callSsl, output, List.foldlM_cons]
  by_cases fits : piece.length ≤ socket.bufferPool.size
  · rw [only fits]
    refine iff_of_true (Avoids.ne (?_ : Avoids _ _ fun _ => True)) fits
    refine Avoids.bind (?_ : Avoids _ _ fun _ => True) fun s _ => ?_
    · exact (uvSslWbioCb_copies free fits).bind fun _ _ => trivial
    · exact .require (by decide) fun _ => .ok trivial
  · rw [uvSslWbioCb_overruns free (Nat.lt_of_not_le fits)]
    exact iff_of_false (fun other => other rfl) fits

theorem mumbleUvSslWrite_exhausted
    (used : ¬ socket.bufferPool.inUse < socket.bufferPool.buffers.length)
    {buf piece : List UInt8} {rest : List (List UInt8)}
    (output : (api.write socket.ssl buf).output = piece :: rest) :
    mumbleUvSslWrite api tryWrite socket buf = .error .assertion := by
  rw [mumbleUvSslWrite, callSsl, output, List.foldlM_cons, uvSslWbioCb_exhausted used]
  rfl

/-- A first piece has the overhead on top of its plaintext, and is the only one if
that is not full. -/
theorem SslApi.WritesRecords.first (records : api.WritesRecords overhead) (ssl : σ) {data : List UInt8}
    (some : data ≠ []) :
    ∃ piece rest, (api.write ssl data).output = piece :: rest ∧
      piece.length = min data.length maxPlaintext + overhead ssl data.length 0 ∧
      (data.length < maxPlaintext → rest = []) := by
  have lengths := records.output ssl data
  by_cases short : data.length < maxPlaintext
  · rw [plaintexts_short some short, List.mapIdx_cons, List.mapIdx_nil] at lengths
    obtain ⟨piece, rest, output, size, none⟩ := List.map_eq_cons_iff.mp lengths
    refine ⟨piece, rest, output, ?_, fun _ => List.map_eq_nil_iff.mp none⟩
    rw [size]
    omega
  · obtain ⟨first, more, split, full⟩ := plaintexts_long (Nat.le_of_not_lt short)
    rw [split, List.mapIdx_cons] at lengths
    obtain ⟨piece, rest, output, size, -⟩ := List.map_eq_cons_iff.mp lengths
    refine ⟨piece, rest, output, ?_, fun other => absurd other short⟩
    rw [size, full]
    omega

section
variable {μ : Type} {p : Protobuf μ} {encoder encoded : FrameEncoder} {message : μ}

theorem mumbleClientWrite_eq (accepted : mumbleFrameEncode p encoder message = .ok encoded) :
    mumbleClientWrite p api tryWrite encoder socket message =
      (mumbleUvSslWrite api tryWrite socket encoded.written).map fun after => (encoded, after) := by
  rw [mumbleClientWrite, accepted, ok_bind, bind_ok_eq_map]

/-- The first record of a frame fits a buffer as large as its plaintext if it has
room for the overhead, and is the only one then. -/
theorem SslApi.WritesRecords.frame (records : api.WritesRecords overhead) (ssl : σ)
    (packed : (p.pack message).length = p.packedSize message)
    (accepted : mumbleFrameEncode p encoder message = .ok encoded) :
    ∃ piece rest, (api.write ssl encoded.written).output = piece :: rest ∧
      (piece.length ≤ 16 * 1024 → rest = []) ∧
      (piece.length ≤ 16 * 1024 ↔
        6 + p.packedSize message + overhead ssl (6 + p.packedSize message) 0 ≤ 16 * 1024) := by
  have size := mumbleFrameEncode_size packed accepted
  have some : encoded.written ≠ [] := List.ne_nil_of_length_pos (by omega)
  obtain ⟨piece, rest, output, length, only⟩ := records.first ssl some
  have added := records.positive ssl encoded.written.length 0
  have full : maxPlaintext = 16 * 1024 := rfl
  refine ⟨piece, rest, output, fun fits => only (by omega), ?_⟩
  rw [← size]
  omega

end

/-- The frame of a message goes out in copies that fit if and only if it fits a buffer
together with what its record adds, or there is no buffer to copy to. -/
theorem client_write_copy_iff {μ : Type} (p : Protobuf μ) (records : api.WritesRecords overhead)
    (size : socket.bufferPool.size = 16 * 1024) (encoder : FrameEncoder) {encoded : FrameEncoder}
    {message : μ} (packed : (p.pack message).length = p.packedSize message)
    (accepted : mumbleFrameEncode p encoder message = .ok encoded) (tryWrite : List UInt8 → Int) :
    mumbleClientWrite p api tryWrite encoder socket message ≠ .error .outOfBounds ↔
      6 + p.packedSize message + overhead socket.ssl (6 + p.packedSize message) 0 ≤ 16 * 1024 ∨
        ¬ socket.bufferPool.inUse < socket.bufferPool.buffers.length := by
  obtain ⟨piece, rest, output, only, room⟩ := records.frame socket.ssl packed accepted
  rw [mumbleClientWrite_eq accepted]
  by_cases free : socket.bufferPool.inUse < socket.bufferPool.buffers.length
  · have bounds := @mumbleUvSslWrite_bounds _ _ _ tryWrite _ free _ _ _ output (size.symm ▸ only)
    rw [size, room] at bounds
    rw [or_iff_left (not_not_intro free), ← bounds, Ne, Ne, map_eq_error]
  · rw [mumbleUvSslWrite_exhausted free output]
    exact iff_of_true (error_ne_error (by decide)) (.inr free)

end

/-- OpenSSL with a cipher that adds 29 bytes to a record. -/
def sealingSsl : SslApi Unit :=
  { idleSsl with
    write := fun _ data => ⟨(), data.length, (plaintexts data).map (List.replicate 29 0 ++ ·)⟩ }

theorem sealingSsl_records : sealingSsl.WritesRecords fun _ _ _ => 29 where
  positive _ _ _ := Nat.succ_pos 28
  output ssl data := by
    change ((plaintexts data).map (List.replicate 29 0 ++ ·)).map List.length = _
    rw [List.map_map]
    apply List.ext_getElem?
    intro k
    rw [List.getElem?_map, List.getElem?_mapIdx]
    refine congrArg (Option.map · _) (funext fun plaintext => ?_)
    rw [Function.comp_apply, List.length_append, List.length_replicate, Nat.add_comm]

def freshEncoder : FrameEncoder := ⟨List.replicate frameMaxSize 0, 0, List.length_replicate⟩

/-- A message of nothing but a text whose length takes two bytes as a varint. -/
structure TextMessage where
  message : List UInt8
  long : 128 ≤ message.length
  short : message.length < 2 ^ 14

/-- The text is field 5 of `TextMessage`. -/
def TextMessage.pack (text : TextMessage) : List UInt8 :=
  [0x2A, .ofNat (text.message.length % 128 + 128), .ofNat (text.message.length / 128)] ++ text.message

def TextMessage.unpack (data : List UInt8) : Option TextMessage :=
  if size : 128 ≤ (data.drop 3).length ∧ (data.drop 3).length < 2 ^ 14 then
    some ⟨data.drop 3, size.1, size.2⟩
  else none

def textMessages : Protobuf TextMessage where
  generated t := ⟨t.fullName, "MumbleProto"⟩
  descriptorSize := 120
  descriptor _ := ⟨MessageType.textMessage.fullName, "MumbleProto"⟩
  packedSize text := 3 + text.message.length
  pack := TextMessage.pack
  unpack _ len data := TextMessage.unpack (data.take len)

theorem textMessages_size (text : TextMessage) : textMessages.packedSize text = 3 + text.message.length :=
  rfl

theorem textMessages_packed (text : TextMessage) :
    (textMessages.pack text).length = textMessages.packedSize text := by
  change ([_, _, _] ++ text.message).length = _
  rw [List.length_append, textMessages_size]
  rfl

theorem textMessages_lawful : textMessages.Lawful where
  packageName _ := rfl
  distinct := fullName_injective
  descriptorSize := Nat.succ_pos 119
  packedSize := textMessages_packed
  unpack text rest := by
    change TextMessage.unpack ((textMessages.pack text ++ rest).take (textMessages.packedSize text)) = _
    rw [← textMessages_packed, List.take_left]
    exact dif_pos ⟨text.long, text.short⟩

/-- The record of this text fills a buffer to its last byte. -/
def edgeText : TextMessage where
  message := List.replicate 16346 97
  long := by rw [List.length_replicate]; decide
  short := by rw [List.length_replicate]; decide

theorem edgeText_size : textMessages.packedSize edgeText = 16 * 1024 - 29 - 6 := by
  have size : edgeText.message.length = 16346 := List.length_replicate
  rw [textMessages_size, size]

theorem edgeText_accepted : ∃ encoded,
    mumbleFrameEncode textMessages freshEncoder edgeText = .ok encoded :=
  mumbleFrameEncode_accepts freshEncoder textMessages_lawful rfl (by rw [edgeText_size]; decide)

theorem client_write_copy_sample : textMessages.packedSize edgeText = 16 * 1024 - 29 - 6 ∧
    mumbleClientWrite textMessages sealingSsl (fun data => data.length) freshEncoder (idleSocket 0)
      edgeText ≠ .error .outOfBounds := by
  obtain ⟨encoded, accepted⟩ := edgeText_accepted
  have room : 6 + textMessages.packedSize edgeText + 29 ≤ 16 * 1024 := by
    rw [edgeText_size]
  exact ⟨edgeText_size, (client_write_copy_iff textMessages sealingSsl_records rfl
    freshEncoder (textMessages_packed edgeText) accepted _).mpr (.inl room)⟩

/-- The frame of this text fills a record. -/
def fullText : TextMessage where
  message := List.replicate 16375 97
  long := by rw [List.length_replicate]; decide
  short := by rw [List.length_replicate]; decide

theorem fullText_size : textMessages.packedSize fullText = 16378 := by
  have size : fullText.message.length = 16375 := List.length_replicate
  rw [textMessages_size, size]

theorem fullText_accepted : ∃ encoded,
    mumbleFrameEncode textMessages freshEncoder fullText = .ok encoded :=
  mumbleFrameEncode_accepts freshEncoder textMessages_lawful rfl (by rw [fullText_size]; decide)

/-- The copy of a full record runs over its buffer by what the record adds. -/
theorem client_write_overruns : sealingSsl.WritesRecords (fun _ _ _ => 29) ∧
    (∃ encoded, mumbleFrameEncode textMessages freshEncoder fullText = .ok encoded) ∧
    mumbleClientWrite textMessages sealingSsl (fun data => data.length) freshEncoder (idleSocket 0)
      fullText = .error .outOfBounds := by
  refine ⟨sealingSsl_records, fullText_accepted, ?_⟩
  obtain ⟨encoded, accepted⟩ := fullText_accepted
  obtain ⟨piece, rest, output, only, room⟩ :=
    sealingSsl_records.frame () (textMessages_packed fullText) accepted
  rw [fullText_size] at room
  have long : ¬ piece.length ≤ 16 * 1024 := fun fits => absurd (room.mp fits) (by decide)
  rw [mumbleClientWrite_eq accepted, map_eq_error]
  by_contra copied
  have free : (idleSocket 0).bufferPool.inUse < (idleSocket 0).bufferPool.buffers.length := Nat.succ_pos 3
  exact long ((mumbleUvSslWrite_bounds free output only).mp copied)

end Mumble
