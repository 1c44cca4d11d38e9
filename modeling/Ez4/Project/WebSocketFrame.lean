import Ez4.Library.WebSocket

/-! # Frames of WebSocket connections

`WebSocketFrame` (`utils/websocket.ts`): frames are decoded in place, from a
buffer that is a view of allocated memory, and encoded into memory with any
content. Lengths are natural numbers: no buffer is long enough for a sum of
offsets that has no number. -/
namespace Ez4.Project.WebSocket
open Ez4.Library.WebSocket

/-! ## Buffers -/

/-- The bytes of each allocation. -/
abbrev Memory := List (List UInt8)

structure Buffer where
  allocation : Nat
  offset : Nat
  length : Nat
deriving DecidableEq, Repr

namespace Buffer

def content (buffer : Buffer) (memory : Memory) : List UInt8 :=
  ((memory.getD buffer.allocation []).drop buffer.offset).take buffer.length

def subarray (buffer : Buffer) (start stop : Nat) : Buffer where
  allocation := buffer.allocation
  offset := buffer.offset + min start buffer.length
  length := min stop buffer.length - min start buffer.length

/-- `Buffer.concat`, with the bytes of a chunk -/
def concat (buffer : Buffer) (chunk : List UInt8) (memory : Memory) : Memory × Buffer :=
  let bytes := buffer.content memory ++ chunk
  (memory ++ [bytes], ⟨memory.length, 0, bytes.length⟩)

end Buffer

/-- Bytes are written over others. -/
def write (bytes : List UInt8) (offset : Nat) (data : List UInt8) : List UInt8 :=
  bytes.take offset ++ data ++ bytes.drop (offset + data.length)

/-! ## Opcodes -/

def opcodeMask : UInt8 := 0x0f

def lengthMask : UInt8 := 0x7f

def hugeCode : UInt8 := lengthMask

def regularCode : UInt8 := lengthMask - 1

def finCode : UInt8 := 0x80

def regularSize : Nat := 65535

def tinySize : Nat := 125

def hugeBytes : Nat := 8

def regularBytes : Nat := 2

def headerBytes : Nat := 10

def maskBytes : Nat := 4

inductive WebSocketOpcode
  | continue_
  | text
  | binary
  | close
  | ping
  | pong
deriving DecidableEq, Repr

namespace WebSocketOpcode

def code : WebSocketOpcode → UInt8
  | continue_ => 0x00
  | text => 0x01
  | binary => 0x02
  | close => 0x08
  | ping => 0x09
  | pong => 0x0a

end WebSocketOpcode

/-- `isHeaderOpcode`, with the opcode -/
def headerOpcode? (code : UInt8) : Option WebSocketOpcode :=
  [.continue_, .text, .binary, .close, .ping, .pong].find? fun opcode => opcode.code = code

/-! ## Decoding -/

structure HeaderFrame where
  frameLength : Nat
  dataOffset : Nat
  maskOffset : Nat
  opcode : WebSocketOpcode
deriving DecidableEq, Repr

/-- `readUInt16BE` and `readBigUInt64BE` -/
def readUInt (header : List UInt8) (offset size : Nat) : Nat :=
  readNumber ((header.drop offset).take size)

def decodeFrameHeader (header : List UInt8) : Option HeaderFrame :=
  let code := header.getD 0 0 &&& opcodeMask
  let length := header.getD 1 0 &&& lengthMask
  let offset := 2
  match headerOpcode? code with
  | none => none
  | some opcode =>
    if length.toNat ≤ tinySize then
      let maskOffset := offset + maskBytes
      some { frameLength := maskOffset + length.toNat, dataOffset := offset, maskOffset, opcode }
    else if length = regularCode then
      let nextOffset := offset + regularBytes
      if nextOffset ≤ header.length then
        let maskOffset := nextOffset + maskBytes
        some {
          frameLength := maskOffset + readUInt header offset regularBytes
          dataOffset := nextOffset
          maskOffset
          opcode }
      else none
    else if length = hugeCode then
      let nextOffset := offset + hugeBytes
      if nextOffset ≤ header.length then
        let maskOffset := nextOffset + maskBytes
        some {
          frameLength := maskOffset + readUInt header offset hugeBytes
          dataOffset := nextOffset
          maskOffset
          opcode }
      else none
    else none

structure DecodedFrame where
  length : Nat
  payload : Buffer
  opcode : WebSocketOpcode
deriving DecidableEq, Repr

/-- The loop of `decodeFrame`, over the memory of the buffer. -/
def unmask (masking payload : Buffer) (bytes : List UInt8) : List UInt8 :=
  (List.range payload.length).foldl (fun bytes index =>
    bytes.set (payload.offset + index)
      (bytes.getD (payload.offset + index) 0 ^^^ bytes.getD (masking.offset + index % 4) 0)) bytes

def decodeFrame (buffer : Buffer) (memory : Memory) : Option (Memory × DecodedFrame) := do
  let { frameLength, dataOffset, maskOffset, opcode } ← decodeFrameHeader (buffer.content memory)
  if buffer.length < frameLength then none
  else
    let masking := buffer.subarray dataOffset maskOffset
    let payload := buffer.subarray maskOffset frameLength
    some (memory.modify buffer.allocation (unmask masking payload),
      { length := frameLength, payload, opcode })

/-! ## Encoding -/

/-- What `Buffer.allocUnsafe(HEADER_BYTES)` gives. -/
abbrev Header := { bytes : List UInt8 // bytes.length = headerBytes }

def encodeFrameHeader (header : Header) (opcode : WebSocketOpcode) (length : Nat) :
    Option (List UInt8) :=
  let bytes := write header.1 0 [finCode ||| opcode.code]
  let offset := 1
  if length ≤ tinySize then
    let bytes := write bytes offset [UInt8.ofNat length]
    some (bytes.take (offset + 1))
  else if length ≤ regularSize then
    let bytes := write bytes offset [regularCode]
    let bytes := write bytes (offset + 1) (writeNumber regularBytes length)
    some (bytes.take (offset + 1 + regularBytes))
  else
    let bytes := write bytes offset [hugeCode]
    -- `writeBigUInt64BE` throws
    if length < 2 ^ 64 then some (write bytes (offset + 1) (writeNumber hugeBytes length))
    else none

/-- `encodeTextFrame`, `encodeBinaryFrame` and `encodePongFrame` -/
def encodeFrame (opcode : WebSocketOpcode) (header : Header) (data : List UInt8) :
    Option (List UInt8) :=
  (encodeFrameHeader header opcode data.length).map (· ++ data)

def encodeTextFrame := encodeFrame .text

def encodeBinaryFrame := encodeFrame .binary

def encodePongFrame := encodeFrame .pong

def encodeCloseFrame : List UInt8 := [finCode ||| WebSocketOpcode.close.code, 0x00]

end Ez4.Project.WebSocket
