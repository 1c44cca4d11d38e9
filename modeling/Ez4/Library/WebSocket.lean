import Mathlib.Algebra.GroupWithZero.Nat
/-! # Frames of WebSocket connections

A frame as the protocol has it: its bytes, and what is read from bytes. Lengths
take the shortest of three forms, and the payload of a masked frame is combined
with the mask byte by byte. -/
namespace Ez4.Library.WebSocket

/-! ## Numbers -/

/-- The number that bytes denote, the most significant one first. -/
def readNumber (bytes : List UInt8) : Nat := bytes.foldl (fun n byte => 256 * n + byte.toNat) 0

/-- The last bytes of a number. -/
def writeNumber : (size : Nat) → Nat → List UInt8
  | 0, _ => []
  | size + 1, n => writeNumber size (n / 256) ++ [UInt8.ofNat n]

@[simp] theorem length_writeNumber (size n : Nat) : (writeNumber size n).length = size := by
  induction size generalizing n with
  | zero => rfl
  | succ size ih => rw [writeNumber, List.length_append, ih, List.length_singleton]

theorem readNumber_writeNumber {size n : Nat} (h : n < 256 ^ size) :
    readNumber (writeNumber size n) = n := by
  induction size generalizing n with
  | zero => exact (Nat.lt_one_iff.mp h).symm
  | succ size ih =>
    have hlt : n / 256 < 256 ^ size := Nat.div_lt_of_lt_mul (by rwa [Nat.pow_succ'] at h)
    have hread := ih hlt
    rw [readNumber] at hread
    rw [writeNumber, readNumber, List.foldl_append, hread, List.foldl_cons, List.foldl_nil,
      UInt8.toNat_ofNat']
    omega

/-! ## Masks -/

abbrev Mask := { bytes : List UInt8 // bytes.length = 4 }

/-- The payload combined with the mask, which repeats. -/
def combine (mask : List UInt8) (payload : List UInt8) : List UInt8 :=
  payload.mapIdx fun index byte => byte ^^^ mask.getD (index % 4) 0

@[simp] theorem length_combine (mask payload : List UInt8) :
    (combine mask payload).length = payload.length := List.length_mapIdx

/-- Combining a second time takes the mask off. -/
theorem combine_combine (mask payload : List UInt8) :
    combine mask (combine mask payload) = payload := by
  refine List.ext_getElem (by simp) fun index _ _ => ?_
  simp only [combine, List.getElem_mapIdx, UInt8.xor_assoc, UInt8.xor_self, UInt8.xor_zero]

/-! ## Frames -/

structure Frame where
  final : Bool
  opcode : Fin 16
  mask : Option Mask
  payload : List UInt8
deriving DecidableEq

namespace Frame

def firstByte (frame : Frame) : UInt8 :=
  UInt8.ofNat ((if frame.final then 128 else 0) + frame.opcode)

/-- The second byte and what follows it of the length. -/
def lengthBytes (frame : Frame) : List UInt8 :=
  let flag := if frame.mask.isSome then 128 else 0
  let length := frame.payload.length
  if length ≤ 125 then [UInt8.ofNat (flag + length)]
  else if length ≤ 65535 then UInt8.ofNat (flag + 126) :: writeNumber 2 length
  else UInt8.ofNat (flag + 127) :: writeNumber 8 length

def maskBytes (frame : Frame) : List UInt8 :=
  match frame.mask with
  | some mask => mask.1
  | none => []

def payloadBytes (frame : Frame) : List UInt8 :=
  match frame.mask with
  | some mask => combine mask.1 frame.payload
  | none => frame.payload

def bytes (frame : Frame) : List UInt8 :=
  frame.firstByte :: frame.lengthBytes ++ frame.maskBytes ++ frame.payloadBytes

@[simp] theorem length_payloadBytes (frame : Frame) :
    frame.payloadBytes.length = frame.payload.length := by
  rw [payloadBytes]
  split
  · exact length_combine _ _
  · rfl

end Frame

/-! ## Reading -/

/-- The mask that is announced, and what is behind it. -/
def readMask (masked : Bool) (bytes : List UInt8) : Option (Option Mask × List UInt8) :=
  if masked then
    if h : (bytes.take 4).length = 4 then some (some ⟨bytes.take 4, h⟩, bytes.drop 4) else none
  else some (none, bytes)

/-- The length that a code announces, and what is behind it. -/
def readLength (code : Nat) (bytes : List UInt8) : Option (Nat × List UInt8) :=
  if code ≤ 125 then some (code, bytes)
  else
    let size := if code = 126 then 2 else 8
    if size ≤ bytes.length then some (readNumber (bytes.take size), bytes.drop size) else none

/-- The first frame of some bytes, with the bytes behind it. -/
def read : List UInt8 → Option (Frame × List UInt8)
  | first :: second :: bytes => do
    -- the reserved bits are not set
    if first.toNat / 16 % 8 ≠ 0 then none
    let (length, bytes) ← readLength (second.toNat % 128) bytes
    let (mask, bytes) ← readMask (128 ≤ second.toNat) bytes
    if bytes.length < length then none
    let payload := bytes.take length
    some ({
      final := 128 ≤ first.toNat
      opcode := ⟨first.toNat % 16, Nat.mod_lt _ (by decide)⟩
      mask
      payload := match mask with
        | some mask => combine mask.1 payload
        | none => payload }, bytes.drop length)
  | _ => none

theorem Frame.toNat_firstByte (frame : Frame) :
    frame.firstByte.toNat = (if frame.final then 128 else 0) + frame.opcode := by
  have := frame.opcode.isLt
  rw [firstByte, UInt8.toNat_ofNat']
  split <;> omega

theorem readLength_writeNumber {code size n : Nat} (hcode : 125 < code)
    (hsize : (if code = 126 then 2 else 8) = size) (hn : n < 256 ^ size) (rest : List UInt8) :
    readLength code (writeNumber size n ++ rest) = some (n, rest) := by
  rw [readLength, if_neg (by omega)]
  simp only [hsize]
  rw [if_pos (by simp), List.take_left' (by simp), List.drop_left' (by simp),
    readNumber_writeNumber hn]

/-- The second byte, its code and what is read of the length. -/
theorem Frame.lengthBytes_eq {frame : Frame} (h : frame.payload.length < 2 ^ 64) :
    ∃ second more code, frame.lengthBytes = second :: more ∧ code < 128 ∧
      second.toNat = (if frame.mask.isSome then 128 else 0) + code ∧
      ∀ rest, readLength code (more ++ rest) = some (frame.payload.length, rest) := by
  rw [lengthBytes]
  generalize hflag : (if frame.mask.isSome then 128 else 0 : Nat) = flag
  have hle : flag ≤ 128 := by
    rw [← hflag]
    split <;> omega
  split
  · rename_i htiny
    refine ⟨_, [], frame.payload.length, rfl, by omega, ?_, fun rest => if_pos htiny⟩
    rw [UInt8.toNat_ofNat']
    omega
  split
  · rename_i hregular
    refine ⟨_, writeNumber 2 frame.payload.length, 126, rfl, by omega, ?_,
      readLength_writeNumber (by omega) rfl (by omega)⟩
    rw [UInt8.toNat_ofNat']
    omega
  · refine ⟨_, writeNumber 8 frame.payload.length, 127, rfl, by omega, ?_,
      readLength_writeNumber (by omega) rfl (by omega)⟩
    rw [UInt8.toNat_ofNat']
    omega

theorem Frame.readMask_maskBytes (frame : Frame) (rest : List UInt8) :
    readMask frame.mask.isSome (frame.maskBytes ++ rest) = some (frame.mask, rest) := by
  rw [maskBytes]
  cases frame.mask with
  | none => rfl
  | some mask =>
    have htake : (mask.1 ++ rest).take 4 = mask.1 := List.take_left' mask.2
    have hdrop : (mask.1 ++ rest).drop 4 = rest := List.drop_left' mask.2
    change readMask true (mask.1 ++ rest) = _
    rw [readMask, if_pos rfl, dif_pos (by rw [htake]; exact mask.2)]
    simp only [htake, hdrop]

/-- What is read of the bytes of a frame is the frame. -/
theorem read_bytes {frame : Frame} (h : frame.payload.length < 2 ^ 64) (rest : List UInt8) :
    read (frame.bytes ++ rest) = some (frame, rest) := by
  obtain ⟨second, more, code, hlength, hcode, hsecond, hread⟩ := Frame.lengthBytes_eq h
  have hfirst := frame.toNat_firstByte
  have hopcode := frame.opcode.isLt
  have hmasked : decide (128 ≤ second.toNat) = frame.mask.isSome := by
    rw [hsecond]
    cases frame.mask.isSome <;> simp <;> omega
  have hfinal : decide (128 ≤ frame.firstByte.toNat) = frame.final := by
    rw [hfirst]
    cases frame.final <;> simp <;> omega
  have hreserved : frame.firstByte.toNat / 16 % 8 = 0 := by
    rw [hfirst]
    split <;> omega
  have hopcode : frame.firstByte.toNat % 16 = frame.opcode := by
    rw [hfirst]
    split <;> omega
  have hcode' : second.toNat % 128 = code := by
    rw [hsecond]
    split <;> omega
  have htake : (frame.payloadBytes ++ rest).take frame.payload.length = frame.payloadBytes :=
    List.take_left' (by simp)
  have hdrop : (frame.payloadBytes ++ rest).drop frame.payload.length = rest :=
    List.drop_left' (by simp)
  have hpayload : (match frame.mask with
      | some mask => combine mask.1 frame.payloadBytes
      | none => frame.payloadBytes) = frame.payload := by
    rw [Frame.payloadBytes]
    cases frame.mask with
    | none => rfl
    | some mask => exact combine_combine _ _
  rw [Frame.bytes, hlength]
  simp only [List.cons_append, List.append_assoc, read, hcode', hread, hmasked,
    frame.readMask_maskBytes, hreserved, hfinal, hopcode, htake, hdrop, hpayload, ne_eq,
    not_true_eq_false, if_false, Option.bind_eq_bind, Option.bind_some, List.length_append,
    Frame.length_payloadBytes]
  rw [if_neg (by omega)]

end Ez4.Library.WebSocket
