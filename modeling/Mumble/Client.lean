import Mumble.FrameDecoder

/-! The dispatch of the control stream in `mumble_client.c`. -/
namespace Mumble
open CExec

/-- What the adapter calls on a frame, with all that these calls can change as a
state. An audio frame is passed as the decoder's whole window. -/
structure Handlers (σ μ : Type) where
  audioDecode : σ → List UInt8 → Int → Run σ
  unpack : σ → Int → Nat → List UInt8 → Run (σ × Option μ)
  messageInternal : σ → Int → Option μ → Run σ
  onMessage : Option (σ → Int → Option μ → Run σ)

structure Client (σ : Type) where
  decoder : FrameDecoder
  state : σ
  deriving DecidableEq

section
variable {σ μ : Type} (h : Handlers σ μ)

/-- One round of the loop of `mumble_message_cb_adapter`. -/
def adapterRound (client : Client σ) : Run (Client σ) :=
  if mumbleFrameIsAudio client.decoder then do
    let state ← h.audioDecode client.state client.decoder.buffer (toInt client.decoder.buffer.length)
    let (_, decoder) := mumbleFramePop client.decoder
    .ok { decoder, state }
  else do
    let (type, decoder, state, message) ← mumbleFrameDecode client.decoder h.unpack client.state none
    if 0 ≤ type then do
      let state ← h.messageInternal state type message
      match h.onMessage with
      | none => .ok { decoder, state }
      | some cb => do
        let state ← cb state type message
        .ok { decoder, state }
    else .ok { decoder, state }

/-- `rounds` bounds the rounds: out of them, one has left the window as it was,
and so do all later ones. -/
def adapterLoop : Nat → Client σ → Run (Client σ)
  | 0, _ => .error .endless
  | rounds + 1, client =>
    if mumbleFrameReady client.decoder then do
      let client ← adapterRound h client
      adapterLoop rounds client
    else .ok client

def mumbleMessageCbAdapter (client : Client σ) (buf : List UInt8) (size : Int) : Run (Client σ) := do
  let (_, decoder) ← mumbleFrameAppend client.decoder buf (toUnsigned size)
  adapterLoop h (decoder.buffer.length + 1) { client with decoder }

/-- The chunks of one read after another. -/
def receiveAll (client : Client σ) : List (List UInt8) → Run (Client σ)
  | [] => .ok client
  | chunk :: chunks => do
    let client ← mumbleMessageCbAdapter h client chunk chunk.length
    receiveAll client chunks

end

theorem adapterLoop_idle {σ μ : Type} {h : Handlers σ μ} {client : Client σ}
    (idle : mumbleFrameReady client.decoder = false) (rounds : Nat) :
    adapterLoop h (rounds + 1) client = .ok client := by
  rw [adapterLoop, if_neg (Bool.eq_false_iff.mp idle)]

end Mumble
