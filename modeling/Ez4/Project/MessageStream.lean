import Ez4.Project.Upgrade
import Ez4.Project.DecodedFrames

/-! # Messages of a stream of bytes

However the bytes of client frames are cut into chunks, and however long message
handlers run, the handler is called once for each text or binary frame, in the
order of the stream, and each ping is answered. -/
namespace Ez4.Project.WebSocket
open Ez4.Library Ez4.Library.WebSocket

/-! ## The stream -/

/-- A masked frame that is not fragmented, as a client sends it. -/
structure ClientFrame where
  opcode : WebSocketOpcode
  mask : Mask
  payload : List UInt8
  sent : opcode ∈ [WebSocketOpcode.text, .binary, .ping, .pong]
  bounded : payload.length ≤ 2 ^ 53

namespace ClientFrame

def frame (client : ClientFrame) : Frame where
  final := true
  opcode := client.opcode.number
  mask := some client.mask
  payload := client.payload

def isMessage (client : ClientFrame) : Bool := client.opcode = .text || client.opcode = .binary

def isPing (client : ClientFrame) : Bool := client.opcode = .ping

end ClientFrame

def stream (clients : List ClientFrame) : List UInt8 := clients.flatMap (·.frame.bytes)

def messages (clients : List ClientFrame) : List (List UInt8) :=
  (clients.filter ClientFrame.isMessage).map ClientFrame.payload

def pings (clients : List ClientFrame) : List (List UInt8) :=
  (clients.filter ClientFrame.isPing).map ClientFrame.payload

theorem stream_append (clients more : List ClientFrame) :
    stream (clients ++ more) = stream clients ++ stream more := List.flatMap_append

theorem messages_concat (clients : List ClientFrame) (client : ClientFrame) :
    messages (clients ++ [client]) =
      messages clients ++ if client.isMessage then [client.payload] else [] := by
  rw [messages, List.filter_append, List.map_append, ← messages, List.filter_singleton]
  cases client.isMessage <;> rfl

theorem pings_concat (clients : List ClientFrame) (client : ClientFrame) :
    pings (clients ++ [client]) = pings clients ++ if client.isPing then [client.payload] else [] := by
  rw [pings, List.filter_append, List.map_append, ← pings, List.filter_singleton]
  cases client.isPing <;> rfl

/-- The bytes of the chunks that came in. -/
def delivered (actions : List Action) : List UInt8 :=
  actions.flatMap fun
    | .data chunk => chunk
    | .settle _ _ => []

/-- The payload of a pong, where bytes are one. -/
def pongOf (bytes : List UInt8) : Option (List UInt8) :=
  match read bytes with
  | some (frame, []) => if frame.opcode = WebSocketOpcode.pong.number then some frame.payload else none
  | _ => none

/-! ## What the listener keeps -/

/-- The handler was called with the messages, and still has them, the pings are
answered, and what was not taken of the bytes is in the buffer. -/
structure Kept (taken : List UInt8) (sent answered : List (List UInt8)) (bytes : List UInt8)
    (s : State) : Prop where
  buffer : s.buffer.Valid s.memory
  split : bytes = taken ++ s.buffer.content s.memory
  bodies : s.calls.map (fun call => call.body.content s.memory) = sent
  apart : ∀ call ∈ s.calls, call.body.Valid s.memory ∧ call.body.Before s.buffer
  pongs : s.written.filterMap pongOf = answered

/-- A listener waits for a message handler. -/
def State.Waiting (s : State) : Prop := ∃ call ∈ s.calls, call.running = true

/-- There is no frame in the buffer. -/
def State.Drained (s : State) : Prop := s.buffer.length < 2 ∨ decodeFrame s.buffer s.memory = none

section
variable {taken bytes : List UInt8} {sent answered : List (List UInt8)} {s : State}

/-- A frame is taken off the buffer. -/
theorem Kept.take {client : ClientFrame} {rest : List UInt8} (h : Kept taken sent answered bytes s)
    (hcontent : s.buffer.content s.memory = client.frame.bytes ++ rest) :
    ∃ memory decoded, decodeFrame s.buffer s.memory = some (memory, decoded) ∧
      decoded.opcode = client.opcode ∧
      (decoded.payload.Valid memory ∧ decoded.payload.content memory = client.payload ∧
        decoded.payload.Before (s.buffer.subarray decoded.length s.buffer.length)) ∧
      Kept (taken ++ client.frame.bytes) sent answered bytes
        { s with memory, buffer := s.buffer.subarray decoded.length s.buffer.length } := by
  have hbounded := client.bounded
  obtain ⟨memory, decoded, hdecode, hopcode, hspec⟩ := decodeFrame_eq rfl
    (headerOpcode?_number client.opcode)
    (show client.frame.payload.length < 2 ^ 64 by simp only [ClientFrame.frame]; omega)
    h.buffer hcontent
  refine ⟨memory, decoded, hdecode, hopcode, ⟨hspec.payload.1, hspec.payload.2, hspec.taken⟩, ?_⟩
  refine ⟨hspec.remaining.1, ?_, ?_, fun call hcall => ?_, h.pongs⟩
  · rw [h.split, hcontent, hspec.remaining.2, List.append_assoc]
  · rw [← h.bodies]
    exact List.map_congr_left fun call hcall =>
      (hspec.kept call.body (h.apart call hcall).1 (h.apart call hcall).2).2.1
  · obtain ⟨hvalid, -, hbefore⟩ := hspec.kept call.body (h.apart call hcall).1 (h.apart call hcall).2
    exact ⟨hvalid, hbefore⟩

/-- The message handler is called. -/
theorem Kept.call {body : Buffer} {payload : List UInt8} (h : Kept taken sent answered bytes s)
    (hvalid : body.Valid s.memory) (hcontent : body.content s.memory = payload)
    (hbefore : body.Before s.buffer) :
    Kept taken (sent ++ [payload]) answered bytes
      { s with calls := s.calls ++ [⟨body, true⟩] } := by
  refine ⟨h.buffer, h.split, ?_, ?_, h.pongs⟩
  · simp only [List.map_append, List.map_cons, List.map_nil, h.bodies, hcontent]
  · intro call hcall
    rcases List.mem_append.mp hcall with hcall | hcall
    · exact h.apart call hcall
    · obtain rfl := List.mem_singleton.mp hcall
      exact ⟨hvalid, hbefore⟩

theorem Kept.write (h : Kept taken sent answered bytes s) (written : List UInt8) :
    Kept taken sent (answered ++ (pongOf written).toList) bytes (s.write written) := by
  refine ⟨h.buffer, h.split, h.bodies, h.apart, ?_⟩
  rw [State.write, List.filterMap_append, h.pongs]
  cases hpong : pongOf written <;> simp [hpong]

theorem getD_append_left {memory : Memory} {index : Nat} (more : Memory) (h : index < memory.length) :
    (memory ++ more).getD index [] = memory.getD index [] := by
  rw [List.getD_eq_getElem?_getD, List.getD_eq_getElem?_getD, List.getElem?_append_left h]

/-- A chunk comes in. -/
theorem Kept.concat (h : Kept taken sent answered bytes s) (chunk : List UInt8) :
    Kept taken sent answered (bytes ++ chunk)
      { s with
        memory := (s.buffer.concat chunk s.memory).1
        buffer := (s.buffer.concat chunk s.memory).2 } := by
  generalize hjoined : s.buffer.content s.memory ++ chunk = joined
  have hconcat : s.buffer.concat chunk s.memory =
      (s.memory ++ [joined], ⟨s.memory.length, 0, joined.length⟩) := by
    rw [Buffer.concat, hjoined]
  have hnew : (s.memory ++ [joined]).getD s.memory.length [] = [] ++ joined ++ [] := by
    rw [List.getD_eq_getElem?_getD, List.getElem?_concat_length, List.append_nil]
    rfl
  have hold : ∀ call ∈ s.calls,
      call.body.content (s.memory ++ [joined]) = call.body.content s.memory := fun call hcall => by
    rw [Buffer.content, getD_append_left _ (h.apart call hcall).1.allocated, Buffer.content]
  rw [hconcat]
  refine ⟨⟨by simp, by simp only [hnew]; simp⟩, ?_, ?_, fun call hcall => ⟨⟨?_, ?_⟩, ?_⟩, h.pongs⟩
  · rw [h.split, List.append_assoc, hjoined]
    exact congrArg (taken ++ ·) (Buffer.content_eq hnew rfl rfl).symm
  · rw [← h.bodies]
    exact List.map_congr_left hold
  · have := (h.apart call hcall).1.allocated
    simp only [List.length_append, List.length_singleton]
    omega
  · simp only [getD_append_left _ (h.apart call hcall).1.allocated]
    exact (h.apart call hcall).1.inside
  · intro heq
    have := (h.apart call hcall).1.allocated
    simp only at heq
    omega

/-! ## The loop -/

variable (allocUnsafe : Nat → Header)

theorem pongOf_encodeFrame {opcode : WebSocketOpcode} {header : Header} {data written : List UInt8}
    (h : encodeFrame opcode header data = some written) :
    pongOf written = if opcode = .pong then some data else none := by
  rw [pongOf, (read_encodeFrame opcode header data).2 written h]
  cases opcode <;> rfl

/-- The frame at the start of the buffer, if all of it is there. -/
theorem Kept.first {client : ClientFrame} {clients : List ClientFrame}
    (h : Kept taken sent answered bytes s)
    (hpre : s.buffer.content s.memory <+: client.frame.bytes ++ stream clients)
    (htwo : 2 ≤ s.buffer.length) :
    decodeFrame s.buffer s.memory = none ∨
      ∃ rest, s.buffer.content s.memory = client.frame.bytes ++ rest := by
  have hbounded := client.bounded
  by_cases hpart : s.buffer.length < client.frame.bytes.length
  · rw [← h.buffer.length_content] at hpart
    refine .inl (decodeFrame_part rfl (headerOpcode?_number client.opcode)
      (show client.frame.payload.length < 2 ^ 64 by simp only [ClientFrame.frame]; omega) h.buffer
      ?_ htwo (h.buffer.length_content ▸ hpart))
    exact List.prefix_of_prefix_length_le hpre (List.prefix_append _ _)
      (Nat.le_of_lt hpart)
  · obtain ⟨rest, hrest⟩ := List.prefix_of_prefix_length_le (List.prefix_append _ _) hpre
      (by rw [h.buffer.length_content]; omega)
    exact .inr ⟨rest, hrest.symm⟩

/-- The loop takes off the frames that are there, in turn, until it waits or
none is left. -/
theorem listen_kept {clients : List ClientFrame} (hpre : bytes <+: stream clients) (fuel : Nat) :
    ∀ (s : State) (done : List ClientFrame), done <+: clients →
      Kept (stream done) (messages done) (pings done) bytes s →
      ∃ done', done' <+: clients ∧
        Kept (stream done') (messages done') (pings done') bytes (listen allocUnsafe fuel s) ∧
        (s.buffer.length ≤ fuel →
          (listen allocUnsafe fuel s).Waiting ∨ (listen allocUnsafe fuel s).Drained) := by
  induction fuel with
  | zero =>
    intro s done hdone h
    exact ⟨done, hdone, h, fun hle => .inr (.inl (by rw [listen]; omega))⟩
  | succ fuel ih =>
    intro s done hdone h
    rw [listen]
    by_cases htwo : s.buffer.length < 2
    · rw [if_pos htwo]
      exact ⟨done, hdone, h, fun _ => .inr (.inl htwo)⟩
    rw [if_neg htwo]
    obtain ⟨todo, rfl⟩ := hdone
    have htodo : s.buffer.content s.memory <+: stream todo := by
      rw [h.split, stream_append] at hpre
      exact (List.prefix_append_right_inj _).mp hpre
    cases todo with
    | nil =>
      have hempty := congrArg List.length (List.prefix_nil.mp htodo)
      rw [h.buffer.length_content, List.length_nil] at hempty
      omega
    | cons client todo =>
      rcases h.first htodo (by omega) with hnone | ⟨rest, hrest⟩
      · rw [hnone]
        exact ⟨done, List.prefix_append _ _, h, fun _ => .inr (.inr hnone)⟩
      · obtain ⟨memory, decoded, hdecode, hopcode, ⟨hvalid, hpayload, hbefore⟩, hkept⟩ :=
          h.take hrest
        rw [hdecode]
        simp only [hopcode, hpayload]
        have hdone : done ++ [client] <+: done ++ client :: todo :=
          (List.prefix_append_right_inj done).mpr (List.prefix_append [client] todo)
        have hshorter : s.buffer.length ≤ fuel + 1 →
            (s.buffer.subarray decoded.length s.buffer.length).length ≤ fuel := by
          intro hle
          have hlength := congrArg List.length (h.split.symm.trans hkept.split)
          rw [List.append_assoc, List.length_append, List.length_append, List.length_append,
            h.buffer.length_content, hkept.buffer.length_content, Frame.bytes] at hlength
          simp only [List.length_append, List.length_cons] at hlength
          omega
        have hstream : stream done ++ client.frame.bytes = stream (done ++ [client]) := by
          rw [stream_append, stream, stream, List.flatMap_singleton]
        rw [hstream] at hkept
        have hmessages := messages_concat done client
        have hpings := pings_concat done client
        have hsent := client.sent
        rw [ClientFrame.isMessage] at hmessages
        rw [ClientFrame.isPing] at hpings
        cases hop : client.opcode with
        | continue_ | close => rw [hop] at hsent; simp at hsent
        | text | binary =>
          rw [hop] at hmessages hpings
          refine ⟨done ++ [client], hdone, ?_,
            fun _ => .inl ⟨_, List.mem_append_right _ (List.mem_singleton_self _), rfl⟩⟩
          rw [hmessages, hpings]
          simpa using hkept.call hvalid hpayload hbefore
        | ping =>
          rw [hop] at hmessages hpings
          have hbounded := client.bounded
          obtain ⟨written, hwritten⟩ := Option.isSome_iff_exists.mp
            ((read_encodeFrame .pong (s.header allocUnsafe) client.payload).1 (by omega))
          have hpong := hkept.write written
          rw [pongOf_encodeFrame hwritten] at hpong
          obtain ⟨done', hdone', hkept', hend⟩ := ih _ (done ++ [client]) hdone (by
            rw [hmessages, hpings]
            simpa using hpong)
          dsimp only
          split
          · rename_i written' hwritten'
            obtain rfl := Option.some.inj (hwritten.symm.trans hwritten')
            exact ⟨done', hdone', hkept', fun hle => hend (hshorter hle)⟩
          · rename_i hnone
            cases hwritten.symm.trans hnone
        | pong =>
          rw [hop] at hmessages hpings
          obtain ⟨done', hdone', hkept', hend⟩ := ih _ (done ++ [client]) hdone (by
            rw [hmessages, hpings]
            simpa using hkept)
          exact ⟨done', hdone', hkept', fun hle => hend (hshorter hle)⟩

/-! ## Runs -/

/-- A response and an error leave the messages and the pongs. -/
theorem Kept.settle (h : Kept taken sent answered bytes s) (outcome : Outcome) :
    Kept taken sent answered bytes (settle allocUnsafe s outcome) := by
  cases outcome with
  | error => exact ⟨h.buffer, h.split, h.bodies, h.apart, h.pongs⟩
  | response response =>
    cases response with
    | none => exact h
    | some data =>
      rw [WebSocket.settle]
      split
      · rename_i written hwritten
        have hwrite := h.write written
        rw [pongOf_encodeFrame hwritten] at hwrite
        simpa using hwrite
      · exact ⟨h.buffer, h.split, h.bodies, h.apart, h.pongs⟩

theorem settle_calls (s : State) (outcome : Outcome) :
    (settle allocUnsafe s outcome).calls = s.calls := by
  cases outcome with
  | error => rfl
  | response response =>
    cases response with
    | none => rfl
    | some data =>
      rw [WebSocket.settle]
      split <;> rfl

/-- A call is marked as ended. -/
theorem Kept.set (h : Kept taken sent answered bytes s) {index : Nat} {call : Call}
    (hcall : s.calls[index]? = some call) :
    Kept taken sent answered bytes
      { s with calls := s.calls.set index { call with running := false } } := by
  obtain ⟨hlt, hget⟩ := List.getElem?_eq_some_iff.mp hcall
  refine ⟨h.buffer, h.split, ?_, fun other hother => ?_, h.pongs⟩
  · rw [← h.bodies, List.map_set]
    refine List.ext_getElem? fun position => ?_
    rw [List.getElem?_set]
    split
    · rename_i heq
      subst heq
      rw [List.length_map, if_pos hlt, List.getElem?_map, hcall]
      rfl
    · rfl
  · rcases List.mem_or_eq_of_mem_set hother with hmem | rfl
    · exact h.apart other hmem
    · exact h.apart call (List.mem_of_getElem? hcall)

/-- Some of the frames are taken off, and the listeners wait or are done. -/
def Progress (clients : List ClientFrame) (bytes : List UInt8) (s : State) : Prop :=
  (∃ done, done <+: clients ∧ Kept (stream done) (messages done) (pings done) bytes s) ∧
    (s.Waiting ∨ s.Drained)

theorem progress_step {clients : List ClientFrame} {action : Action} {t : State}
    (h : Progress clients bytes s) (hpre : bytes ++ delivered [action] <+: stream clients)
    (hstep : step allocUnsafe s action = some t) :
    Progress clients (bytes ++ delivered [action]) t := by
  obtain ⟨⟨done, hdone, hkept⟩, -⟩ := h
  cases action with
  | data chunk =>
    have hchunk : delivered [.data chunk] = chunk := List.append_nil _
    rw [hchunk] at hpre ⊢
    obtain rfl := Option.some.inj hstep
    obtain ⟨done', hdone', hkept', hend⟩ :=
      listen_kept allocUnsafe hpre _ _ done hdone (hkept.concat chunk)
    exact ⟨⟨done', hdone', hkept'⟩, hend (Nat.le_refl _)⟩
  | settle index outcome =>
    have hnone : delivered [.settle index outcome] = [] := rfl
    rw [hnone, List.append_nil] at hpre ⊢
    rw [step] at hstep
    split at hstep
    · rename_i body hcall
      obtain rfl := Option.some.inj hstep
      have hsettled := hkept.settle allocUnsafe outcome
      have hcall' : (settle allocUnsafe s outcome).calls[index]? = some ⟨body, true⟩ := by
        rw [settle_calls]
        exact hcall
      have hset := hsettled.set hcall'
      obtain ⟨done', hdone', hkept', hend⟩ :=
        listen_kept allocUnsafe hpre _ _ done hdone hset
      exact ⟨⟨done', hdone', hkept'⟩, hend (Nat.le_refl _)⟩
    · cases hstep

theorem progress_run {clients : List ClientFrame} {actions : List Action} {t : State}
    (h : Progress clients bytes s) (hpre : bytes ++ delivered actions <+: stream clients)
    (hrun : (listener allocUnsafe).run actions s = some t) :
    Progress clients (bytes ++ delivered actions) t := by
  induction actions generalizing s bytes with
  | nil =>
    obtain rfl := Option.some.inj hrun
    rwa [delivered, List.flatMap_nil, List.append_nil]
  | cons action actions ih =>
    obtain ⟨u, hstep, hrun⟩ := Machine.run_cons.mp hrun
    have hcons : bytes ++ delivered (action :: actions) =
        (bytes ++ delivered [action]) ++ delivered actions := by
      rw [List.append_assoc, delivered, delivered, delivered, ← List.flatMap_append]
      rfl
    rw [hcons] at hpre ⊢
    exact ih (progress_step allocUnsafe h ((List.prefix_append _ _).trans hpre) hstep) hpre hrun

theorem progress_init (clients : List ClientFrame) :
    Progress clients [] (listener allocUnsafe).init :=
  ⟨⟨[], List.nil_prefix, ⟨⟨Nat.zero_lt_one, Nat.le_refl _⟩, rfl, rfl, by simp [listener], rfl⟩⟩,
    .inr (.inl Nat.zero_lt_two)⟩

/-- Once all bytes came in and no handler runs, all frames are taken off. -/
theorem Progress.all {clients : List ClientFrame} (h : Progress clients (stream clients) s)
    (hwaiting : ¬ s.Waiting) :
    Kept (stream clients) (messages clients) (pings clients) (stream clients) s := by
  obtain ⟨⟨done, ⟨todo, rfl⟩, hkept⟩, hend⟩ := h
  cases todo with
  | nil => simpa using hkept
  | cons client todo =>
    have hcontent : s.buffer.content s.memory = client.frame.bytes ++ stream todo := by
      have hsplit := hkept.split
      rw [stream_append] at hsplit
      exact (List.append_cancel_left hsplit).symm
    obtain ⟨memory, decoded, hdecode, -⟩ := hkept.take hcontent
    rcases hend.resolve_left hwaiting with hshort | hnone
    · have hlength := congrArg List.length hcontent
      rw [hkept.buffer.length_content, Frame.bytes] at hlength
      have := client.mask.2
      simp only [List.length_append, List.length_cons, Frame.maskBytes, ClientFrame.frame] at hlength
      omega
    · rw [hdecode] at hnone
      cases hnone

/-- What is written is read back, without a mask. Only what no buffer is long
enough for is not written. -/
def ReadBack (opcode : WebSocketOpcode) (data : List UInt8) : Option (List UInt8) → Prop
  | some bytes => read bytes = some (serverFrame opcode data, [])
  | none => 2 ^ 64 ≤ data.length

theorem readBack_encodeFrame (opcode : WebSocketOpcode) (header : Header) (data : List UInt8) :
    ReadBack opcode data (encodeFrame opcode header data) := by
  obtain ⟨hsome, hread⟩ := read_encodeFrame opcode header data
  cases hwritten : encodeFrame opcode header data with
  | some bytes => exact hread bytes hwritten
  | none =>
    rw [hwritten] at hsome
    exact Nat.le_of_not_lt fun hlt => by simpa using hsome hlt

/-- However the bytes of client frames are cut and however long the handlers
run, the handler was called with the payloads of the messages that came in, in
their order, the pings are answered, and each byte is taken once or still in the
buffer. Once all bytes came in and no handler runs, that is all of them, and
nothing is left. What is written is read back. -/
theorem messages_survive (clients : List ClientFrame) :
    (∀ actions s, (listener allocUnsafe).run actions (listener allocUnsafe).init = some s →
      delivered actions <+: stream clients →
      (∃ done, done <+: clients ∧
        delivered actions = stream done ++ s.buffer.content s.memory ∧
        s.calls.map (fun call => call.body.content s.memory) = messages done ∧
        s.written.filterMap pongOf = pings done) ∧
      (delivered actions = stream clients → ¬ s.Waiting →
        s.calls.map (fun call => call.body.content s.memory) = messages clients ∧
        s.written.filterMap pongOf = pings clients ∧ s.buffer.length = 0)) ∧
    ∀ (header : Header) (data : List UInt8),
      ReadBack .text data (encodeTextFrame header data) ∧
      ReadBack .binary data (encodeBinaryFrame header data) ∧
      ReadBack .pong data (encodePongFrame header data) := by
  refine ⟨fun actions s hrun hpre => ?_, fun header data =>
    ⟨readBack_encodeFrame .text header data, readBack_encodeFrame .binary header data,
      readBack_encodeFrame .pong header data⟩⟩
  have hprogress := progress_run allocUnsafe (progress_init allocUnsafe clients) hpre hrun
  rw [List.nil_append] at hprogress
  refine ⟨?_, fun hall hwaiting => ?_⟩
  · obtain ⟨⟨done, hdone, hkept⟩, -⟩ := hprogress
    exact ⟨done, hdone, hkept.split, hkept.bodies, hkept.pongs⟩
  · rw [hall] at hprogress
    have hkept := hprogress.all hwaiting
    refine ⟨hkept.bodies, hkept.pongs, ?_⟩
    have hempty := congrArg List.length hkept.split
    rw [List.length_append, hkept.buffer.length_content] at hempty
    omega

end

namespace Sample

def mask : Mask := ⟨[1, 2, 3, 4], rfl⟩

def clients : List ClientFrame :=
  [⟨.text, mask, [104, 105], by decide, by decide⟩, ⟨.ping, mask, [7], by decide, by decide⟩,
    ⟨.binary, mask, [1, 2, 3], by decide, by decide⟩]

def header : Header := ⟨List.replicate 10 255, rfl⟩

/-- The first header is cut, and the second handler starts while the first one runs. -/
def actions : List Action :=
  [.data ((stream clients).take 1), .data (((stream clients).drop 1).take 12),
    .data ((stream clients).drop 13), .settle 1 .error, .settle 0 (.response (some [33]))]

/-- The handler is called twice and the ping is answered. -/
theorem actions_survive : ∃ s,
    (listener fun _ => header).run actions (listener fun _ => header).init = some s ∧
      s.calls.map (fun call => call.body.content s.memory) = [[104, 105], [1, 2, 3]] ∧
      s.written.filterMap pongOf = [[7]] ∧ s.buffer.length = 0 := by
  have hrun : ((listener fun _ => header).run actions (listener fun _ => header).init).map
      (fun s => s.calls.map Call.running) = some [false, false] := by
    decide
  obtain ⟨s, hs, hrunning⟩ := Option.map_eq_some_iff.mp hrun
  have hwaiting : ¬ s.Waiting := by
    rintro ⟨call, hcall, hrun⟩
    have hmem : call.running ∈ [false, false] := hrunning ▸ List.mem_map_of_mem hcall
    rw [hrun] at hmem
    simp at hmem
  have hall : delivered actions = stream clients := by decide
  exact ⟨s, hs, ((messages_survive (fun _ => header) clients).1 actions s hs
    (hall ▸ List.prefix_refl _)).2 hall hwaiting⟩

end Sample

end Ez4.Project.WebSocket
