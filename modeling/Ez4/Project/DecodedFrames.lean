import Ez4.Project.WebSocketFrame

/-! # What is decoded and encoded

A masked frame at the start of a buffer is decoded to its payload, and nothing
is decoded of a part of it. Memory before the buffer and other memory stays as
it is. Frames that are written are read back. -/
namespace Ez4.Project.WebSocket
open Ez4.Library.WebSocket

/-! ## Memory -/

namespace Buffer

variable {buffer : Buffer} {memory : Memory}

/-- The buffer lies in memory that is allocated. -/
structure Valid (buffer : Buffer) (memory : Memory) : Prop where
  allocated : buffer.allocation < memory.length
  inside : buffer.offset + buffer.length ≤ (memory.getD buffer.allocation []).length

theorem Valid.length_content (h : buffer.Valid memory) :
    (buffer.content memory).length = buffer.length := by
  have := h.inside
  rw [content, List.length_take, List.length_drop]
  omega

/-- The bytes of the memory around the buffer. -/
theorem Valid.split (h : buffer.Valid memory) :
    ∃ before after, before.length = buffer.offset ∧
      memory.getD buffer.allocation [] = before ++ buffer.content memory ++ after := by
  have hinside := h.inside
  generalize hbytes : memory.getD buffer.allocation [] = bytes at hinside
  refine ⟨bytes.take buffer.offset, bytes.drop (buffer.offset + buffer.length), ?_, ?_⟩
  · rw [List.length_take]
    omega
  · rw [content, hbytes, List.append_assoc, ← List.drop_drop, List.take_append_drop,
      List.take_append_drop]

theorem content_eq {before bytes after : List UInt8}
    (h : memory.getD buffer.allocation [] = before ++ bytes ++ after)
    (hoffset : before.length = buffer.offset) (hlength : bytes.length = buffer.length) :
    buffer.content memory = bytes := by
  rw [content, h, List.append_assoc, List.drop_left' hoffset, List.take_left' hlength]

/-- The content is the same where the memory in front of a position is. -/
theorem content_congr {memory' : Memory} {position : Nat}
    (h : (memory'.getD buffer.allocation []).take position =
      (memory.getD buffer.allocation []).take position)
    (hle : buffer.offset + buffer.length ≤ position) :
    buffer.content memory' = buffer.content memory := by
  have hcut : ∀ bytes : List UInt8, (bytes.drop buffer.offset).take buffer.length =
      ((bytes.take position).drop buffer.offset).take buffer.length := by
    intro bytes
    rw [List.drop_take, List.take_take, Nat.min_eq_left (by omega)]
  rw [content, content, hcut, h, ← hcut]

theorem subarray_eq {start stop : Nat} (hstart : start ≤ stop) (hstop : stop ≤ buffer.length) :
    buffer.subarray start stop = ⟨buffer.allocation, buffer.offset + start, stop - start⟩ := by
  rw [subarray, Nat.min_eq_left hstop, Nat.min_eq_left (Nat.le_trans hstart hstop)]

end Buffer

theorem getD_modify_self {memory : Memory} {index : Nat} (f : List UInt8 → List UInt8)
    (h : index < memory.length) : (memory.modify index f).getD index [] = f (memory.getD index []) := by
  rw [List.getD_eq_getElem?_getD, List.getD_eq_getElem?_getD, List.getElem?_modify_eq,
    List.getElem?_eq_getElem h]
  rfl

theorem getD_modify_of_ne {memory : Memory} {index other : Nat} (f : List UInt8 → List UInt8)
    (h : index ≠ other) : (memory.modify index f).getD other [] = memory.getD other [] := by
  rw [List.getD_eq_getElem?_getD, List.getD_eq_getElem?_getD, List.getElem?_modify_ne f memory h]

/-! ## Masks -/

theorem set_append_cons {left right : List UInt8} {position : Nat} (byte new : UInt8)
    (h : left.length = position) :
    (left ++ byte :: right).set position new = left ++ new :: right := by
  subst h
  rw [List.set_append_right _ _ (Nat.le_refl _), Nat.sub_self, List.set_cons_zero]

theorem combine_concat (mask payload : List UInt8) (byte : UInt8) :
    combine mask (payload ++ [byte]) =
      combine mask payload ++ [byte ^^^ mask.getD (payload.length % 4) 0] :=
  List.mapIdx_concat

/-- The loop takes the mask off the payload and leaves all other bytes. -/
theorem unmask_eq {masking payload : Buffer} {before mask data after : List UInt8}
    (hmask : mask.length = 4) (hmasking : masking.offset = before.length)
    (hpayload : payload.offset = before.length + 4) (hlength : payload.length = data.length) :
    unmask masking payload (before ++ mask ++ data ++ after) =
      before ++ mask ++ combine mask data ++ after := by
  have hloop : ∀ count ≤ data.length, (List.range count).foldl (fun bytes index =>
      bytes.set (payload.offset + index)
        (bytes.getD (payload.offset + index) 0 ^^^ bytes.getD (masking.offset + index % 4) 0))
        (before ++ mask ++ data ++ after) =
      before ++ mask ++ (combine mask (data.take count) ++ data.drop count) ++ after := by
    intro count hcount
    induction count with
    | zero => rfl
    | succ count ih =>
      have hlt : count < data.length := hcount
      rw [List.range_succ, List.foldl_append, ih (by omega), List.foldl_cons, List.foldl_nil,
        List.drop_eq_getElem_cons hlt]
      have hleft : (before ++ mask ++ combine mask (data.take count)).length =
          payload.offset + count := by
        simp only [List.length_append, length_combine, List.length_take]
        omega
      have hmod : count % 4 < mask.length := by omega
      have hcut : before ++ mask ++ (combine mask (data.take count) ++
            data[count] :: data.drop (count + 1)) ++ after =
          (before ++ mask ++ combine mask (data.take count)) ++
            data[count] :: (data.drop (count + 1) ++ after) := by
        simp only [List.append_assoc, List.cons_append]
      have hbyte : ((before ++ mask ++ combine mask (data.take count)) ++
          data[count] :: (data.drop (count + 1) ++ after)).getD (payload.offset + count) 0 =
            data[count] := by
        rw [List.getD_eq_getElem?_getD, List.getElem?_append_right (by omega), hleft, Nat.sub_self]
        rfl
      have hmasked : ((before ++ mask ++ combine mask (data.take count)) ++
          data[count] :: (data.drop (count + 1) ++ after)).getD (masking.offset + count % 4) 0 =
            mask.getD (count % 4) 0 := by
        rw [List.getD_eq_getElem?_getD, List.getD_eq_getElem?_getD, List.append_assoc,
          List.append_assoc, List.getElem?_append_right (by omega), hmasking, Nat.add_sub_cancel_left,
          List.getElem?_append_left hmod]
      have htake : (data.take count).length = count := by
        rw [List.length_take]
        omega
      rw [hcut, set_append_cons _ _ hleft, hbyte, hmasked, ← List.take_append_getElem hlt,
        combine_concat, htake]
      simp only [List.append_assoc, List.cons_append, List.nil_append]
  rw [unmask, hlength, hloop _ (Nat.le_refl _), List.take_length, List.drop_length, List.append_nil]

/-! ## Headers -/

section
variable {frame : Frame} {opcode : WebSocketOpcode}

theorem firstByte_and : frame.firstByte &&& opcodeMask = UInt8.ofNat frame.opcode := by
  have hall : ∀ (final : Bool) (opcode : Fin 16),
      UInt8.ofNat ((if final then 128 else 0) + opcode) &&& opcodeMask = UInt8.ofNat opcode := by
    decide
  exact hall frame.final frame.opcode

theorem secondByte_and {code : Nat} (h : code < 128) :
    UInt8.ofNat (128 + code) &&& lengthMask = UInt8.ofNat code := by
  have hall : ∀ code : Fin 128, UInt8.ofNat (128 + code) &&& lengthMask = UInt8.ofNat code := by
    decide
  exact hall ⟨code, h⟩

/-- What the header of a frame says. -/
def headerOf (frame : Frame) (opcode : WebSocketOpcode) : HeaderFrame where
  frameLength := frame.bytes.length
  dataOffset := 1 + frame.lengthBytes.length
  maskOffset := 1 + frame.lengthBytes.length + 4
  opcode := opcode

theorem length_bytes {mask : Mask} (hmask : frame.mask = some mask) :
    frame.bytes.length = 1 + frame.lengthBytes.length + 4 + frame.payload.length := by
  have hbytes : frame.maskBytes = mask.1 := by rw [Frame.maskBytes, hmask]
  rw [Frame.bytes, List.length_append, List.length_append, hbytes, mask.2,
    Frame.length_payloadBytes, List.length_cons]
  omega

/-- The length that is read of the header, once it is there. -/
theorem readUInt_eq {size n : Nat} {first second : UInt8} {tail rest : List UInt8}
    (hn : n < 256 ^ size) (htail : tail <+: writeNumber size n ++ rest)
    (hsize : size ≤ tail.length) : readUInt (first :: second :: tail) 2 size = n := by
  obtain ⟨more, hmore⟩ := htail
  have htake : tail.take size = writeNumber size n := by
    have := congrArg (List.take size) hmore
    rwa [List.take_append_of_le_length hsize, List.take_left' (length_writeNumber _ _)] at this
  rw [readUInt, List.drop_succ_cons, List.drop_succ_cons, List.drop_zero, htake,
    readNumber_writeNumber hn]

/-- The header with a number of bytes for its length. -/
theorem longHeader_eq {size n : Nat} {first second : UInt8} {tail rest : List UInt8}
    (hn : n < 256 ^ size) (htail : tail <+: writeNumber size n ++ rest) :
    (if 2 + size ≤ (first :: second :: tail).length then
      some ({
        frameLength := 2 + size + maskBytes + readUInt (first :: second :: tail) 2 size
        dataOffset := 2 + size
        maskOffset := 2 + size + maskBytes
        opcode } : HeaderFrame)
    else none) =
      if 1 + (size + 1) ≤ (first :: second :: tail).length then
        some {
          frameLength := 1 + (size + 1) + 4 + n
          dataOffset := 1 + (size + 1)
          maskOffset := 1 + (size + 1) + 4
          opcode }
      else none := by
  have hsize : 1 + (size + 1) = 2 + size := by omega
  rw [hsize]
  by_cases hthere : 2 + size ≤ (first :: second :: tail).length
  · rw [if_pos hthere, if_pos hthere, readUInt_eq hn htail]
    · rfl
    · rw [List.length_cons, List.length_cons] at hthere
      omega
  · rw [if_neg hthere, if_neg hthere]

/-- Of the start of a frame its header is decoded, once all of it is there. -/
theorem decodeFrameHeader_eq {mask : Mask} (hmask : frame.mask = some mask)
    (hopcode : headerOpcode? (UInt8.ofNat frame.opcode) = some opcode)
    (hlt : frame.payload.length < 2 ^ 64) {content rest : List UInt8}
    (hpre : content <+: frame.bytes ++ rest) (htwo : 2 ≤ content.length) :
    decodeFrameHeader content =
      if 1 + frame.lengthBytes.length ≤ content.length then some (headerOf frame opcode)
      else none := by
  obtain ⟨second, more, hlength⟩ : ∃ second more, frame.lengthBytes = second :: more := by
    obtain ⟨second, more, _, hlength, -⟩ := Frame.lengthBytes_eq hlt
    exact ⟨second, more, hlength⟩
  have hbytes := length_bytes hmask
  obtain ⟨first, content, rfl⟩ := List.exists_cons_of_length_pos (by omega : 0 < content.length)
  rw [List.length_cons] at htwo
  obtain ⟨second', tail, rfl⟩ := List.exists_cons_of_length_pos (by omega : 0 < content.length)
  rw [Frame.bytes, hlength, List.cons_append, List.cons_append, List.cons_append,
    List.cons_prefix_cons] at hpre
  obtain ⟨rfl, hpre⟩ := hpre
  rw [List.cons_append, List.cons_append, List.cons_append, List.cons_prefix_cons] at hpre
  obtain ⟨rfl, htail⟩ := hpre
  have hflag : frame.mask.isSome = true := by rw [hmask]; rfl
  have hcases := hlength
  rw [Frame.lengthBytes, hflag] at hcases
  simp only [if_true] at hcases
  simp only [decodeFrameHeader, List.getD_cons_zero, List.getD_cons_succ, firstByte_and, hopcode,
    headerOf, hbytes, hlength]
  by_cases htiny : frame.payload.length ≤ 125
  · rw [if_pos htiny] at hcases
    obtain ⟨rfl, rfl⟩ := List.cons.inj hcases
    have hcode : (UInt8.ofNat (128 + frame.payload.length) &&& lengthMask).toNat =
        frame.payload.length := by
      rw [secondByte_and (by omega), UInt8.toNat_ofNat']
      omega
    have htiny' : frame.payload.length ≤ tinySize := htiny
    rw [hcode, if_pos htiny', if_pos (by simp)]
    rfl
  rw [if_neg htiny] at hcases
  by_cases hregular : frame.payload.length ≤ 65535
  · rw [if_pos hregular] at hcases
    obtain ⟨rfl, rfl⟩ := List.cons.inj hcases
    have hcode : UInt8.ofNat (128 + 126) &&& lengthMask = regularCode := by decide
    have hmore : (UInt8.ofNat (128 + 126) :: writeNumber 2 frame.payload.length).length = 2 + 1 := by
      rw [List.length_cons, length_writeNumber]
    have hbound : frame.payload.length < 256 ^ regularBytes := Nat.lt_succ_of_le hregular
    rw [hcode, if_neg (by decide), if_pos rfl, hmore]
    rw [List.append_assoc, List.append_assoc] at htail
    exact longHeader_eq hbound htail
  · rw [if_neg hregular] at hcases
    obtain ⟨rfl, rfl⟩ := List.cons.inj hcases
    have hcode : UInt8.ofNat (128 + 127) &&& lengthMask = hugeCode := by decide
    have hmore : (UInt8.ofNat (128 + 127) :: writeNumber 8 frame.payload.length).length = 8 + 1 := by
      rw [List.length_cons, length_writeNumber]
    have hbound : frame.payload.length < 256 ^ hugeBytes := hlt
    rw [hcode, if_neg (by decide), if_neg (by decide), if_pos rfl, hmore]
    rw [List.append_assoc, List.append_assoc] at htail
    exact longHeader_eq hbound htail

/-! ## Frames -/

/-- Nothing is decoded of a part of a frame. -/
theorem decodeFrame_part {mask : Mask} (hmask : frame.mask = some mask)
    (hopcode : headerOpcode? (UInt8.ofNat frame.opcode) = some opcode)
    (hlt : frame.payload.length < 2 ^ 64) {buffer : Buffer} {memory : Memory}
    (hvalid : buffer.Valid memory) (hpre : buffer.content memory <+: frame.bytes)
    (htwo : 2 ≤ buffer.length) (hpart : buffer.length < frame.bytes.length) :
    decodeFrame buffer memory = none := by
  rw [← hvalid.length_content] at htwo
  rw [← List.append_nil frame.bytes] at hpre
  rw [decodeFrame, decodeFrameHeader_eq hmask hopcode hlt hpre htwo]
  split
  · exact if_pos hpart
  · rfl

/-- A buffer does not reach into another one, or lies in front of it. -/
def Buffer.Before (first second : Buffer) : Prop :=
  first.allocation = second.allocation → first.offset + first.length ≤ second.offset

/-- What is decoded of a frame at the start of a buffer. -/
structure Decodes (frame : Frame) (rest : List UInt8) (buffer : Buffer) (memory : Memory)
    (memory' : Memory) (decoded : DecodedFrame) : Prop where
  length : decoded.length = frame.bytes.length
  payload : decoded.payload.Valid memory' ∧ decoded.payload.content memory' = frame.payload
  remaining : (buffer.subarray decoded.length buffer.length).Valid memory' ∧
    (buffer.subarray decoded.length buffer.length).content memory' = rest
  taken : decoded.payload.Before (buffer.subarray decoded.length buffer.length)
  kept : ∀ other : Buffer, other.Valid memory → other.Before buffer →
    other.Valid memory' ∧ other.content memory' = other.content memory ∧
      other.Before (buffer.subarray decoded.length buffer.length)

/-- The bytes of a frame are its header, its mask and the masked payload. -/
theorem bytes_eq {mask : Mask} (hmask : frame.mask = some mask) :
    frame.bytes =
      frame.firstByte :: frame.lengthBytes ++ mask.1 ++ combine mask.1 frame.payload := by
  rw [Frame.bytes, Frame.maskBytes, Frame.payloadBytes, hmask]

/-- The payload of a frame in a buffer, behind a header and a mask. -/
def payloadOf (frame : Frame) (buffer : Buffer) : Buffer :=
  buffer.subarray (1 + frame.lengthBytes.length + 4) frame.bytes.length

theorem unmask_frame {mask : Mask} (hmask : frame.mask = some mask) {buffer : Buffer}
    (hle : frame.bytes.length ≤ buffer.length) {before after : List UInt8}
    (hbefore : before.length = buffer.offset) :
    unmask
        (buffer.subarray (1 + frame.lengthBytes.length) (1 + frame.lengthBytes.length + 4))
        (payloadOf frame buffer) (before ++ frame.bytes ++ after) =
      before ++ (frame.firstByte :: frame.lengthBytes ++ mask.1 ++ frame.payload) ++ after := by
  have hbytes := length_bytes hmask
  rw [payloadOf, Buffer.subarray_eq (by omega) (by omega), Buffer.subarray_eq (by omega) (by omega)]
  have hassoc : before ++ frame.bytes ++ after =
      (before ++ frame.firstByte :: frame.lengthBytes) ++ mask.1 ++
        combine mask.1 frame.payload ++ after := by
    rw [bytes_eq hmask]
    simp only [List.append_assoc]
  rw [hassoc, unmask_eq mask.2 (by simp [hbefore]; omega) (by simp [hbefore]; omega)
    (by simp; omega), combine_combine]
  simp only [List.append_assoc]

/-- Once the mask is taken off, the payload and the rest are in their places. -/
theorem decodes_of_unmasked {mask : Mask} (hmask : frame.mask = some mask) {buffer : Buffer}
    {memory memory' : Memory} {before rest after : List UInt8} (hvalid : buffer.Valid memory)
    (hlength : buffer.length = frame.bytes.length + rest.length)
    (hbefore : before.length = buffer.offset)
    (hmemory : memory.getD buffer.allocation [] = before ++ (frame.bytes ++ rest) ++ after)
    (hsize : memory'.length = memory.length)
    (hothers : ∀ index, index ≠ buffer.allocation → memory'.getD index [] = memory.getD index [])
    (hunmasked : memory'.getD buffer.allocation [] =
      before ++ (frame.firstByte :: frame.lengthBytes ++ mask.1 ++ frame.payload) ++ rest ++ after) :
    Decodes frame rest buffer memory memory'
      { length := frame.bytes.length, payload := payloadOf frame buffer, opcode } := by
  have hmask4 := mask.2
  have hbytes := length_bytes hmask
  have hallocated : buffer.allocation < memory'.length := hsize ▸ hvalid.allocated
  have hpayload : payloadOf frame buffer = ⟨buffer.allocation,
      buffer.offset + (1 + frame.lengthBytes.length + 4), frame.payload.length⟩ := by
    rw [payloadOf, Buffer.subarray_eq (by omega) (by omega), hbytes, Nat.add_sub_cancel_left]
  have hremaining : buffer.subarray frame.bytes.length buffer.length =
      ⟨buffer.allocation, buffer.offset + frame.bytes.length, rest.length⟩ := by
    rw [Buffer.subarray_eq (by omega) (Nat.le_refl _), hlength, Nat.add_sub_cancel_left]
  have hall := congrArg List.length hunmasked
  simp only [List.length_append, List.length_cons] at hall
  refine ⟨rfl, ⟨?_, ?_⟩, ⟨?_, ?_⟩, ?_, fun other hother hfirst => ?_⟩
  · rw [hpayload]
    exact ⟨hallocated, by simp only; omega⟩
  · have hplace : memory'.getD buffer.allocation [] =
        (before ++ (frame.firstByte :: frame.lengthBytes) ++ mask.1) ++ frame.payload ++
          (rest ++ after) := by
      rw [hunmasked]
      simp only [List.append_assoc]
    rw [hpayload]
    exact Buffer.content_eq hplace (by simp; omega) rfl
  · rw [hremaining]
    exact ⟨hallocated, by simp only; omega⟩
  · rw [hremaining]
    exact Buffer.content_eq hunmasked (by simp; omega) rfl
  · intro _
    rw [hpayload, hremaining]
    simp only
    omega
  · by_cases hsame : other.allocation = buffer.allocation
    · have hle := hfirst hsame
      have hfront : (memory'.getD other.allocation []).take buffer.offset =
          (memory.getD other.allocation []).take buffer.offset := by
        rw [hsame, hunmasked, hmemory]
        simp only [List.append_assoc, List.take_left' hbefore]
      refine ⟨⟨hsame ▸ hallocated, ?_⟩, Buffer.content_congr hfront hle, fun _ => ?_⟩
      · rw [hsame]
        omega
      · rw [hremaining]
        simp only
        omega
    · have hget := hothers other.allocation hsame
      refine ⟨⟨hsize ▸ hother.allocated, hget ▸ hother.inside⟩, ?_, fun heq => ?_⟩
      · rw [Buffer.content, hget, Buffer.content]
      · rw [hremaining] at heq
        exact absurd heq hsame

theorem decodeFrame_eq {mask : Mask} (hmask : frame.mask = some mask)
    (hopcode : headerOpcode? (UInt8.ofNat frame.opcode) = some opcode)
    (hlt : frame.payload.length < 2 ^ 64) {buffer : Buffer} {memory : Memory}
    (hvalid : buffer.Valid memory) {rest : List UInt8}
    (hcontent : buffer.content memory = frame.bytes ++ rest) :
    ∃ memory' decoded, decodeFrame buffer memory = some (memory', decoded) ∧
      decoded.opcode = opcode ∧ Decodes frame rest buffer memory memory' decoded := by
  have hbytes := length_bytes hmask
  have hlength : buffer.length = frame.bytes.length + rest.length := by
    rw [← hvalid.length_content, hcontent, List.length_append]
  obtain ⟨before, after, hbefore, hmemory⟩ := hvalid.split
  rw [hcontent] at hmemory
  have hpre : buffer.content memory <+: frame.bytes ++ rest := hcontent ▸ List.prefix_refl _
  have hheader : decodeFrameHeader (buffer.content memory) = some (headerOf frame opcode) := by
    rw [decodeFrameHeader_eq hmask hopcode hlt hpre (by rw [hvalid.length_content]; omega),
      if_pos (by rw [hvalid.length_content]; omega)]
  generalize hmodify : unmask
    (buffer.subarray (1 + frame.lengthBytes.length) (1 + frame.lengthBytes.length + 4))
    (payloadOf frame buffer) = modify
  refine ⟨memory.modify buffer.allocation modify,
    { length := frame.bytes.length, payload := payloadOf frame buffer, opcode }, ?_, rfl, ?_⟩
  · rw [decodeFrame, hheader]
    simp only [headerOf, Option.bind_eq_bind, Option.bind_some]
    rw [if_neg (by omega), ← hmodify]
    rfl
  · refine decodes_of_unmasked hmask hvalid hlength hbefore hmemory (List.length_modify ..)
      (fun index hne => getD_modify_of_ne modify (Ne.symm hne)) ?_
    have hassoc : before ++ (frame.bytes ++ rest) ++ after =
        before ++ frame.bytes ++ (rest ++ after) := by
      simp only [List.append_assoc]
    rw [getD_modify_self modify hvalid.allocated, hmemory, hassoc, ← hmodify,
      unmask_frame hmask (by omega) hbefore]
    simp only [List.append_assoc]

end

/-! ## Encoding -/

def WebSocketOpcode.number (opcode : WebSocketOpcode) : Fin 16 :=
  ⟨opcode.code.toNat, by cases opcode <;> decide⟩

theorem headerOpcode?_number (opcode : WebSocketOpcode) :
    headerOpcode? (UInt8.ofNat opcode.number) = some opcode := by
  cases opcode <;> decide

/-- A frame without a mask, as servers send it. -/
def serverFrame (opcode : WebSocketOpcode) (data : List UInt8) : Frame where
  final := true
  opcode := opcode.number
  mask := none
  payload := data

theorem take_write (bytes data : List UInt8) {offset : Nat} (h : offset ≤ bytes.length) :
    (write bytes offset data).take (offset + data.length) = bytes.take offset ++ data := by
  rw [write, List.take_left']
  rw [List.length_append, List.length_take, Nat.min_eq_left h]

theorem length_write {bytes data : List UInt8} {offset : Nat}
    (h : offset + data.length ≤ bytes.length) : (write bytes offset data).length = bytes.length := by
  rw [write, List.length_append, List.length_append, List.length_take, List.length_drop]
  omega

theorem encodeFrameHeader_eq (header : Header) (opcode : WebSocketOpcode) (data : List UInt8) :
    encodeFrameHeader header opcode data.length =
      if data.length < 2 ^ 64 then
        some ((serverFrame opcode data).firstByte :: (serverFrame opcode data).lengthBytes)
      else none := by
  have hfirst : finCode ||| opcode.code = (serverFrame opcode data).firstByte := by
    change finCode ||| opcode.code = UInt8.ofNat (128 + opcode.number)
    cases opcode <;> decide
  have hheader : header.1.length = 10 := header.2
  have hone : (write header.1 0 [finCode ||| opcode.code]).take 1 =
      [(serverFrame opcode data).firstByte] := by
    rw [← hfirst]
    exact take_write header.1 [finCode ||| opcode.code] (Nat.zero_le _)
  have hlength : (write header.1 0 [finCode ||| opcode.code]).length = 10 := by
    rw [length_write (by simp; omega), hheader]
  rw [encodeFrameHeader]
  generalize write header.1 0 [finCode ||| opcode.code] = bytes at hone hlength
  have htwo : ∀ code : UInt8, (write bytes 1 [code]).take 2 =
      (serverFrame opcode data).firstByte :: [code] := by
    intro code
    exact (take_write bytes [code] (by omega)).trans (by rw [hone]; rfl)
  have hlength' : ∀ code : UInt8, (write bytes 1 [code]).length = 10 := by
    intro code
    rw [length_write (by simp; omega), hlength]
  have hlong : ∀ (code : UInt8) (more : List UInt8), (write (write bytes 1 [code]) 2 more).take
      (2 + more.length) = (serverFrame opcode data).firstByte :: code :: more := by
    intro code more
    rw [take_write _ more (by rw [hlength']; decide), htwo]
    rfl
  have hbytes : (serverFrame opcode data).lengthBytes =
      if data.length ≤ 125 then [UInt8.ofNat (0 + data.length)]
      else if data.length ≤ 65535 then UInt8.ofNat (0 + 126) :: writeNumber 2 data.length
      else UInt8.ofNat (0 + 127) :: writeNumber 8 data.length := rfl
  rw [hbytes]
  by_cases htiny : data.length ≤ tinySize
  · have htiny' : data.length ≤ 125 := htiny
    rw [if_pos htiny, if_pos htiny', if_pos (by omega), Nat.zero_add]
    exact congrArg some (htwo _)
  have htiny' : ¬ data.length ≤ 125 := htiny
  rw [if_neg htiny, if_neg htiny']
  by_cases hregular : data.length ≤ regularSize
  · have hregular' : data.length ≤ 65535 := hregular
    have hwrite := hlong regularCode (writeNumber 2 data.length)
    rw [length_writeNumber] at hwrite
    rw [if_pos hregular, if_pos hregular', if_pos (by omega)]
    exact congrArg some hwrite
  · have hregular' : ¬ data.length ≤ 65535 := hregular
    rw [if_neg hregular, if_neg hregular']
    split
    · have hwrite := hlong hugeCode (writeNumber 8 data.length)
      rw [length_writeNumber, List.take_of_length_le] at hwrite
      · exact congrArg some hwrite
      · have hfit : 2 + (writeNumber 8 data.length).length ≤
            (write bytes 1 [hugeCode]).length := by
          simp only [hlength', length_writeNumber, Nat.reduceAdd, Nat.le_refl]
        exact Nat.le_of_eq ((length_write hfit).trans (hlength' hugeCode))
    · rfl

theorem encodeFrame_eq (opcode : WebSocketOpcode) (header : Header) (data : List UInt8) :
    encodeFrame opcode header data =
      if data.length < 2 ^ 64 then some (serverFrame opcode data).bytes else none := by
  rw [encodeFrame, encodeFrameHeader_eq]
  split
  · rw [Option.map_some, Frame.bytes, Frame.maskBytes, Frame.payloadBytes, serverFrame,
      List.append_nil]
  · rfl

/-- A frame that is written is read back, whatever was in the memory of its header. -/
theorem read_encodeFrame (opcode : WebSocketOpcode) (header : Header) (data : List UInt8) :
    (data.length < 2 ^ 64 → (encodeFrame opcode header data).isSome) ∧
      ∀ bytes, encodeFrame opcode header data = some bytes →
        read bytes = some (serverFrame opcode data, []) := by
  rw [encodeFrame_eq]
  constructor
  · intro hlt
    rw [if_pos hlt]
    rfl
  · intro bytes hbytes
    by_cases hlt : data.length < 2 ^ 64
    · rw [if_pos hlt] at hbytes
      rw [← Option.some.inj hbytes, ← List.append_nil (serverFrame opcode data).bytes]
      exact read_bytes hlt []
    · rw [if_neg hlt] at hbytes
      cases hbytes

end Ez4.Project.WebSocket
