import Ez4.Library.Machine
import Ez4.Project.WebSocketFrame

/-! # The data listener of a WebSocket connection

The listener that `upgradeHandler` (`serve/upgrade.ts`) adds for the data of a
socket. Each chunk starts the listener once more; it is suspended while a
message handler runs, and all of them cut the same buffer. Handlers end at any
time, in any order. What the socket does with what is written is left out, as
are its log and the requests before the connection is open. -/
namespace Ez4.Project.WebSocket
open Ez4.Library Ez4.Library.WebSocket

/-- A call of the message handler, with the listener that waits for it. -/
structure Call where
  body : Buffer
  running : Bool
deriving DecidableEq, Repr

structure State where
  memory : Memory := [[]]
  /-- `Buffer.alloc(0)` when the connection is open. -/
  buffer : Buffer := ⟨0, 0, 0⟩
  calls : List Call := []
  /-- What is written to the socket. -/
  written : List (List UInt8) := []
  /-- `socket.destroy()` was called. -/
  destroyed : Bool := false
  /-- `socket.end()` was called. -/
  ended : Bool := false
deriving DecidableEq, Repr

/-- How a message handler ends. -/
inductive Outcome
  /-- With a response, unless it is undefined or empty. -/
  | response (response : Option (List UInt8))
  | error
deriving DecidableEq, Repr

inductive Action
  /-- A chunk comes in. -/
  | data (chunk : List UInt8)
  /-- A call of the message handler ends. -/
  | settle (call : Nat) (outcome : Outcome)
deriving DecidableEq, Repr

variable (allocUnsafe : Nat → Header)

/-- The memory of the next header. -/
def State.header (s : State) : Header := allocUnsafe s.written.length

def State.write (s : State) (bytes : List UInt8) : State :=
  { s with written := s.written ++ [bytes] }

/-- The loop of the listener, until it waits for a message handler or there is
no frame. Each turn takes a frame off the buffer. -/
def listen : (fuel : Nat) → State → State
  | 0, s => s
  | fuel + 1, s =>
    if s.buffer.length < 2 then s
    else
      match decodeFrame s.buffer s.memory with
      | none => s
      | some (memory, frame) =>
        let buffer := s.buffer.subarray frame.length s.buffer.length
        let s := { s with memory, buffer }
        match frame.opcode with
        | .continue_ => listen fuel { s with destroyed := true }
        | .text | .binary => { s with calls := s.calls ++ [⟨frame.payload, true⟩] }
        | .close => listen fuel { s.write encodeCloseFrame with ended := true }
        | .ping =>
          match encodePongFrame (s.header allocUnsafe) (frame.payload.content memory) with
          | some bytes => listen fuel (s.write bytes)
          -- the listener throws
          | none => s
        | .pong => listen fuel s

/-- What the listener does when the handler that it waits for ends. -/
def settle (s : State) : Outcome → State
  | .response none => s
  | .response (some data) =>
    match encodeTextFrame (s.header allocUnsafe) data with
    | some bytes => s.write bytes
    | none => { s with destroyed := true }
  | .error => { s with destroyed := true }

def step (s : State) : Action → Option State
  | .data chunk =>
    let (memory, buffer) := s.buffer.concat chunk s.memory
    some (listen allocUnsafe buffer.length { s with memory, buffer })
  | .settle index outcome =>
    match s.calls[index]? with
    | some { body, running := true } =>
      let s := settle allocUnsafe s outcome
      let s := { s with calls := s.calls.set index { body, running := false } }
      some (listen allocUnsafe s.buffer.length s)
    | _ => none

def listener : Machine State Action where
  init := {}
  step := step allocUnsafe

end Ez4.Project.WebSocket
