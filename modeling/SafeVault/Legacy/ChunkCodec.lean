import SafeVault.Lib.LittleEndian

/-!
# Framed payloads

Before a payload is encrypted it is framed: a method byte, and either the payload as it is or its
length with a compressed stream, whichever is smaller by a margin. The compressor is a library; what
is used of it is a parameter, and so is the little that is relied on.

The reader bounds the length that a stream may claim before it makes room for it. The bound is that
of the compression method, so no frame that was written runs into it.
-/

namespace SafeVault

/-- The vendored compressor, on whole buffers. `compress` is given the room for its output, and
`inflate` the length it is to produce. -/
structure Deflate where
  compress : List UInt8 → ℕ → Option (List UInt8)
  inflate : List UInt8 → ℕ → Option (List UInt8)
  inflate_compress : ∀ {payload stream room}, compress payload room = some stream →
    inflate stream payload.length = some payload
  /-- The output is within the room. -/
  length_le_room : ∀ {payload stream room}, compress payload room = some stream →
    stream.length ≤ room
  /-- The method expands no stream by more than this factor. -/
  expansion : ∀ {payload stream room}, compress payload room = some stream →
    payload.length ≤ stream.length * 1032

namespace ChunkCodec

def methodRaw : UInt8 := 0

def methodDeflate : UInt8 := 1

def rawHdr : ℕ := 1

def deflateHdr : ℕ := 1 + 8

def maxInflateRatio : ℕ := 1032

def inflateSlack : ℕ := 64

/-- The largest length the library's type can hold. -/
def mzLenMax : ℕ := 2 ^ 64 - 1

def uint32Max : ℕ := 2 ^ 32 - 1

/-- The room that suffices for any compressed payload of a length. -/
def compressBound (n : ℕ) : ℕ := max (128 + n * 110 / 100) (128 + n + (n / (31 * 1024) + 1) * 5)

variable (D : Deflate)

/-- `try_deflate`: the stream, if there is one and it is worth it. -/
def tryDeflate (payload : List UInt8) : Option (List UInt8) :=
  if payload = [] ∨ mzLenMax < payload.length then none
  else if uint32Max < payload.length ∨ uint32Max < compressBound payload.length then none
  else do
    let stream ← D.compress payload (compressBound payload.length)
    if stream ≠ [] ∧ (deflateHdr + stream.length) * 100 ≤ (rawHdr + payload.length) * 95 then
      some stream
    else none

def encodeFrame (payload : List UInt8) : List UInt8 :=
  match tryDeflate D payload with
  | some stream => methodDeflate :: (LittleEndian.encode 8 payload.length ++ stream)
  | none => methodRaw :: payload

/-- The frame of a compressed payload, after the method byte. -/
def decodeDeflated (rest : List UInt8) : Option (List UInt8) :=
  let origLen := LittleEndian.decode (rest.take 8)
  let stream := rest.drop 8
  if stream = [] then none
  else if stream.length * maxInflateRatio + inflateSlack < origLen then none
  else if mzLenMax < origLen ∨ origLen = 0 then none
  else if uint32Max < stream.length ∨ uint32Max < origLen then none
  else do
    let payload ← D.inflate stream origLen
    if payload.length = origLen then some payload else none

def decodeFrame : List UInt8 → Option (List UInt8)
  | [] => none
  | method :: rest =>
    if method = methodRaw then some rest
    else if method = methodDeflate then decodeDeflated D rest
    else none

/-- What is known about a stream that was kept. -/
theorem tryDeflate_eq_some {payload stream : List UInt8} (h : tryDeflate D payload = some stream) :
    payload ≠ [] ∧ payload.length ≤ uint32Max ∧ compressBound payload.length ≤ uint32Max ∧
      stream ≠ [] ∧ (deflateHdr + stream.length) * 100 ≤ (rawHdr + payload.length) * 95 ∧
      D.compress payload (compressBound payload.length) = some stream := by
  rw [tryDeflate] at h
  split_ifs at h with hempty hlong
  obtain ⟨stream', hrun, hkeep⟩ := Option.bind_eq_some_iff.mp h
  split_ifs at hkeep with hworth
  cases hkeep
  push Not at hempty hlong
  exact ⟨hempty.1, hlong.1, hlong.2, hworth.1, hworth.2, hrun⟩

/-- A frame begins with its method and is longer than its payload by a byte at most. -/
theorem encodeFrame_eq_cons (payload : List UInt8) :
    ∃ method rest, encodeFrame D payload = method :: rest ∧ method ≤ 1 ∧
      rest.length ≤ payload.length := by
  rw [encodeFrame]
  rcases htry : tryDeflate D payload with _ | stream
  · exact ⟨methodRaw, payload, rfl, by decide, le_rfl⟩
  · obtain ⟨-, -, -, -, hworth, -⟩ := tryDeflate_eq_some D htry
    refine ⟨methodDeflate, _, rfl, by decide, ?_⟩
    rw [List.length_append, LittleEndian.length_encode]
    rw [deflateHdr, rawHdr] at hworth
    omega

/-- **A frame holds its payload.** -/
theorem decodeFrame_encodeFrame (payload : List UInt8) :
    decodeFrame D (encodeFrame D payload) = some payload := by
  rw [encodeFrame]
  cases htry : tryDeflate D payload with
  | none => rfl
  | some stream =>
    obtain ⟨hne, hlen, hbound, hstream, -, hrun⟩ := tryDeflate_eq_some D htry
    have hpos := List.length_pos_of_ne_nil hne
    have hroom := D.length_le_room hrun
    have hratio := D.expansion hrun
    have hword : (LittleEndian.encode 8 payload.length).length = 8 := LittleEndian.length_encode _ _
    have horig : LittleEndian.decode (LittleEndian.encode 8 payload.length) = payload.length := by
      rw [LittleEndian.decode_encode, Nat.mod_eq_of_lt]
      exact hlen.trans_lt (by decide)
    change decodeDeflated D _ = _
    simp only [decodeDeflated, List.take_left' hword, List.drop_left' hword, horig, if_neg hstream,
      maxInflateRatio, inflateSlack, mzLenMax]
    rw [uint32Max] at *
    rw [if_neg (by omega), if_neg (by omega), if_neg (by omega), D.inflate_compress hrun]
    exact if_pos rfl

/-! ## What a frame claims -/

/-- The length that a frame says its payload has: that of the rest of a raw frame, the one written
in a compressed one. -/
def declaredLength : List UInt8 → Option ℕ
  | [] => none
  | method :: rest =>
    if method = methodRaw then some rest.length
    else if method = methodDeflate then some (LittleEndian.decode (rest.take 8))
    else none

/-- The guard of the reader against frames that would blow up. -/
def guardRejects : List UInt8 → Bool
  | [] => false
  | method :: rest =>
    method == methodDeflate && decide ((rest.drop 8).length * maxInflateRatio + inflateSlack <
      LittleEndian.decode (rest.take 8))

/-- A frame that runs into the guard is not accepted. -/
theorem decodeFrame_of_guardRejects {frame : List UInt8} (h : guardRejects frame = true) :
    decodeFrame D frame = none := by
  rcases frame with _ | ⟨method, rest⟩
  · rfl
  rw [guardRejects, Bool.and_eq_true, beq_iff_eq, decide_eq_true_iff] at h
  obtain ⟨rfl, hlong⟩ := h
  change decodeDeflated D rest = none
  rw [decodeDeflated]
  split_ifs
  · rfl
  · rfl

theorem length_of_decodeFrame {frame payload : List UInt8} (h : decodeFrame D frame = some payload) :
    declaredLength frame = some payload.length := by
  rcases frame with _ | ⟨method, rest⟩
  · exact absurd h nofun
  rw [decodeFrame] at h
  rw [declaredLength]
  split_ifs at h ⊢ with hraw hdeflate
  · rw [Option.some_inj.mp h]
  · rw [decodeDeflated] at h
    split_ifs at h
    obtain ⟨out, -, hkeep⟩ := Option.bind_eq_some_iff.mp h
    split_ifs at hkeep with hlen
    cases hkeep
    rw [hlen]

/-- **The codec of frames.** Whatever the compressor does, a payload is read back from its frame, the
guard lets that frame pass, and the length an accepted frame claims is that of what it yields. -/
theorem frame_faithful : (∀ payload, decodeFrame D (encodeFrame D payload) = some payload ∧
      guardRejects (encodeFrame D payload) = false) ∧
    ∀ frame payload, decodeFrame D frame = some payload →
      declaredLength frame = some payload.length := by
  refine ⟨fun payload ↦ ⟨decodeFrame_encodeFrame D payload, ?_⟩, fun _ _ ↦ length_of_decodeFrame D⟩
  by_contra hguard
  have hnone := decodeFrame_of_guardRejects D (Bool.not_eq_false _ ▸ hguard)
  exact absurd ((decodeFrame_encodeFrame D payload).symm.trans hnone) nofun

/-- A compressor that knows one payload, of zeros, and the stream for it. -/
def zerosDeflate : Deflate where
  compress payload room :=
    if payload = List.replicate 64 0 ∧ 12 ≤ room then
      some [120, 156, 99, 96, 160, 12, 0, 0, 0, 64, 0, 1] else none
  inflate stream n :=
    if stream = [120, 156, 99, 96, 160, 12, 0, 0, 0, 64, 0, 1] ∧ n = 64 then
      some (List.replicate 64 0) else none
  inflate_compress {payload stream room} h := by
    split_ifs at h with hzeros
    obtain rfl := Option.some_inj.mp h
    rw [hzeros.1]
    rfl
  length_le_room {payload stream room} h := by
    split_ifs at h with hzeros
    obtain rfl := Option.some_inj.mp h
    exact hzeros.2
  expansion {payload stream room} h := by
    split_ifs at h with hzeros
    obtain rfl := Option.some_inj.mp h
    rw [hzeros.1]
    decide

theorem frame_faithful_zeros :
    (encodeFrame zerosDeflate (List.replicate 64 0)).length = 21 ∧
    decodeFrame zerosDeflate (encodeFrame zerosDeflate (List.replicate 64 0)) =
      some (List.replicate 64 0) :=
  ⟨by decide +kernel, ((frame_faithful zerosDeflate).1 _).1⟩

end ChunkCodec

end SafeVault
