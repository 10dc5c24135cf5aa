import FacetQL.Crypto
import FacetQL.Storage.Wal

/-!
# Frames of the write-ahead log

The lines of the log (`storage/wal.rs`): a record is sealed, framed with its
length and its checksum, and written as one line of hex digits.

* `decodeHex_exact_iff`: the lines that are decoded as their digits say.
-/

namespace FacetQL

variable {μ ι : Type}

/-! ## Frames -/

/-- The first bytes of every frame: `FQW1`. -/
def walFrameMagic : Bytes := [0x46, 0x51, 0x57, 0x31]

/-- The version of the frame. -/
def walFrameVersion : Nat := 1

/-- The magic, the version, the length and the checksum. -/
def walFrameHeaderLen : Nat := 4 + 2 + 4 + 4

/-- The largest payload of a frame. -/
def maxWalPayloadLen : Nat := 64 * 1024 * 1024

/-- The frame around a payload. -/
def walFrame (payload : Bytes) : Bytes :=
  walFrameMagic ++ leBytes 2 walFrameVersion ++ leBytes 4 payload.length ++
    leBytes 4 (crc32 payload) ++ payload

/-- The line of a record, without its newline. -/
def encodeFrame (codec : Codec ι (WalRecord μ)) (nonce : ι) (record : WalRecord μ) :
    Except IoError (List Char) :=
  match codec.serialize record with
  | .error e => .error ⟨.invalidData, e⟩
  | .ok bytes =>
    let payload := codec.encrypt nonce bytes
    if maxWalPayloadLen < payload.length then
      .error ⟨.invalidData, "WAL payload of " ++ toString payload.length ++
        " bytes exceeds the maximum of " ++ toString maxWalPayloadLen ++ " bytes"⟩
    else .ok (encodeHex (walFrame payload))

/-- What a line is: a record, a part of a frame, a damaged frame, or one that ends the process. -/
inductive FrameOutcome (μ : Type)
  | durable (record : WalRecord μ)
  | torn (detail : String)
  | corrupt (detail : String)
  | panic
  deriving DecidableEq, Repr

/-- The record of a complete frame. -/
def decodeRecord (codec : Codec ι (WalRecord μ)) (payload : Bytes) : FrameOutcome μ :=
  match codec.decrypt payload with
  | .error e => .corrupt ("frame failed authentication/decryption: " ++ e)
  | .ok plaintext =>
    match codec.deserialize plaintext with
    | .error e => .corrupt ("frame contains an invalid record: " ++ e)
    | .ok record =>
      if record.formatVersion ≠ walFormatVersion then
        .corrupt ("unsupported WAL record format version " ++ toString record.formatVersion)
      else if record.sequence = 0 then .corrupt "record has invalid sequence 0"
      else if record.operationId = 0 then .corrupt "record has invalid operation ID 0"
      else .durable record

/-- The bytes of a line. -/
def decodeRaw (codec : Codec ι (WalRecord μ)) (raw : Bytes) : FrameOutcome μ :=
  if raw.length < walFrameHeaderLen then
    .torn ("frame header truncated: " ++ toString raw.length ++ " of " ++
      toString walFrameHeaderLen ++ " header bytes present")
  else if raw.take 4 ≠ walFrameMagic then
    .corrupt ("frame magic mismatch: expected \"FQW1\" (" ++
      String.ofList (encodeHex walFrameMagic) ++ "), found 0x" ++
      String.ofList (encodeHex (raw.take 4)) ++ ". This line carries no frame header, which " ++
      "means the WAL predates the frame envelope (or was written by another tool). It cannot " ++
      "be replayed safely and must be recovered or removed by an operator.")
  else
    let frameVersion := ofLeBytes ((raw.drop 4).take 2)
    if frameVersion ≠ walFrameVersion then
      .corrupt ("unsupported WAL frame version " ++ toString frameVersion)
    else
      let payloadLen := ofLeBytes ((raw.drop 6).take 4)
      if maxWalPayloadLen < payloadLen then
        .corrupt ("frame declares a payload of " ++ toString payloadLen ++
          " bytes, above the maximum of " ++ toString maxWalPayloadLen ++ " bytes")
      else
        let declaredCrc := ofLeBytes ((raw.drop 10).take 4)
        let available := raw.length - walFrameHeaderLen
        if available < payloadLen then
          .torn ("frame payload truncated: " ++ toString available ++ " of " ++
            toString payloadLen ++ " bytes present")
        else if payloadLen < available then
          .corrupt ("frame has " ++ toString (available - payloadLen) ++
            " trailing byte(s) beyond declared payload length")
        else if crc32 (raw.drop walFrameHeaderLen) ≠ declaredCrc then
          .corrupt "frame checksum mismatch"
        else decodeRecord codec (raw.drop walFrameHeaderLen)

/-- What a line is. Whether it is cut is decided before anything in it is trusted. -/
def decodeFrame (codec : Codec ι (WalRecord μ)) (line : List Char) : FrameOutcome μ :=
  match decodeHex line with
  | .error .panic => .panic
  | .error e => .torn ("frame is not valid hex: " ++ e.message)
  | .ok raw => decodeRaw codec raw

/-! ### Cuts of a frame -/

section Frame

variable {codec : Codec ι (WalRecord μ)} {nonce : ι} {record : WalRecord μ} {text : List Char}

theorem length_walFrame (payload : Bytes) :
    (walFrame payload).length = walFrameHeaderLen + payload.length := by
  simp [walFrame, walFrameMagic, walFrameHeaderLen]
  omega

theorem decodeRaw_header {payload : Bytes} (hlen : payload.length ≤ maxWalPayloadLen) (rest : Bytes) :
    decodeRaw codec (walFrameMagic ++ leBytes 2 walFrameVersion ++ leBytes 4 payload.length ++
        leBytes 4 (crc32 payload) ++ rest) =
      if rest.length < payload.length then
        .torn ("frame payload truncated: " ++ toString rest.length ++ " of " ++
          toString payload.length ++ " bytes present")
      else if payload.length < rest.length then
        .corrupt ("frame has " ++ toString (rest.length - payload.length) ++
          " trailing byte(s) beyond declared payload length")
      else if crc32 rest ≠ crc32 payload then .corrupt "frame checksum mismatch"
      else decodeRecord codec rest := by
  have hpow : payload.length < 256 ^ 4 := hlen.trans_lt (by decide)
  have hlength : ofLeBytes (leBytes 4 payload.length) = payload.length := ofLeBytes_leBytes hpow
  have hcrc : ofLeBytes (leBytes 4 (crc32 payload)) = crc32 payload := ofLeBytes_leBytes (crc32_lt _)
  generalize hraw : walFrameMagic ++ leBytes 2 walFrameVersion ++ leBytes 4 payload.length ++
    leBytes 4 (crc32 payload) ++ rest = raw
  -- The fields of the header, read back at their offsets.
  have htotal : raw.length = walFrameHeaderLen + rest.length := by
    simp [← hraw, walFrameMagic, walFrameHeaderLen]
    omega
  have hmagic : raw.take 4 = walFrameMagic := by simp [← hraw, walFrameMagic, List.take_append]
  have hversion : (raw.drop 4).take 2 = leBytes 2 walFrameVersion := by
    simp [← hraw, walFrameMagic, List.drop_append]
  have hpayload : (raw.drop 6).take 4 = leBytes 4 payload.length := by
    simp [← hraw, walFrameMagic]
  have hdeclared : (raw.drop 10).take 4 = leBytes 4 (crc32 payload) := by
    simp [← hraw, walFrameMagic, List.take_append, List.drop_append]
  have hrest : raw.drop walFrameHeaderLen = rest := by
    rw [← hraw]
    exact List.drop_left' (by simp [walFrameMagic, walFrameHeaderLen])
  rw [decodeRaw, if_neg (by omega), if_neg (not_not.2 hmagic), hversion, hpayload, hdeclared, hlength,
    hcrc, hrest, htotal, Nat.add_sub_cancel_left]
  have hsame : ofLeBytes (leBytes 2 walFrameVersion) = walFrameVersion := by decide
  simp only [hsame, ne_eq, not_true_eq_false, if_false, hlen.not_gt]

theorem decodeRaw_magic {raw : Bytes} (hlen : walFrameHeaderLen ≤ raw.length)
    (hmagic : raw.take 4 ≠ walFrameMagic) : ∃ detail, decodeRaw codec raw = .corrupt detail :=
  ⟨_, (if_neg hlen.not_gt).trans (if_pos hmagic)⟩

/-- A frame that is cut anywhere is torn. -/
theorem decodeRaw_take {payload : Bytes} (hlen : payload.length ≤ maxWalPayloadLen) {n : Nat}
    (hn : n < (walFrame payload).length) :
    ∃ detail, decodeRaw codec ((walFrame payload).take n) = .torn detail := by
  rw [length_walFrame] at hn
  by_cases hheader : n < walFrameHeaderLen
  · refine ⟨_, if_pos ?_⟩
    rw [List.length_take]
    exact (min_le_left _ _).trans_lt hheader
  have hsplit : (walFrame payload).take n = walFrameMagic ++ leBytes 2 walFrameVersion ++
      leBytes 4 payload.length ++ leBytes 4 (crc32 payload) ++
      payload.take (n - walFrameHeaderLen) := by
    have hpre : (walFrameMagic ++ leBytes 2 walFrameVersion ++ leBytes 4 payload.length ++
        leBytes 4 (crc32 payload)).length = walFrameHeaderLen := by
      simp [walFrameMagic, walFrameHeaderLen]
    rw [walFrame, List.take_append, hpre, List.take_of_length_le (by omega)]
  rw [hsplit, decodeRaw_header hlen, if_pos (by rw [List.length_take]; omega)]
  exact ⟨_, rfl⟩

/-- The numbers that a record gets from the counters are legal. -/
def WalRecord.Numbered (record : WalRecord μ) : Prop :=
  record.formatVersion = walFormatVersion ∧ record.sequence ≠ 0 ∧ record.operationId ≠ 0

theorem encodeFrame_eq_ok : encodeFrame codec nonce record = .ok text ↔
    ∃ bytes, codec.serialize record = .ok bytes ∧
      (codec.encrypt nonce bytes).length ≤ maxWalPayloadLen ∧
      text = encodeHex (walFrame (codec.encrypt nonce bytes)) := by
  rw [encodeFrame]
  rcases codec.serialize record with e | bytes
  · simp
  by_cases hlen : maxWalPayloadLen < (codec.encrypt nonce bytes).length
  · simp [hlen, hlen.not_ge]
  · simp [hlen, not_lt.1 hlen, eq_comm]

section

variable (h : encodeFrame codec nonce record = .ok text)
include h

theorem isHexDigit_encodeFrame : ∀ c ∈ text, IsHexDigit c := by
  obtain ⟨bytes, -, -, rfl⟩ := encodeFrame_eq_ok.1 h
  exact isHexDigit_encodeHex

theorem encodeFrame_ne_nil : text ≠ [] := by
  obtain ⟨bytes, -, -, rfl⟩ := encodeFrame_eq_ok.1 h
  refine List.ne_nil_of_length_pos ?_
  rw [length_encodeHex, length_walFrame, walFrameHeaderLen]
  omega

/-- The line of a record is read as the record. -/
theorem decodeFrame_encodeFrame (hnumbered : record.Numbered) :
    decodeFrame codec text = .durable record := by
  obtain ⟨bytes, hbytes, hlen, rfl⟩ := encodeFrame_eq_ok.1 h
  obtain ⟨hversion, hsequence, hoperation⟩ := hnumbered
  simp only [decodeFrame, decodeHex_encodeHex]
  rw [walFrame, decodeRaw_header hlen]
  simp [decodeRecord, codec.decrypt_encrypt, codec.deserialize_serialize _ _ hbytes, hversion,
    hsequence, hoperation]

/-- What every cut of a line is taken for. -/
theorem decodeFrame_take {n : Nat} (hn : n < text.length) :
    ∃ detail, decodeFrame codec (text.take n) = .torn detail := by
  obtain ⟨bytes, -, hlen, rfl⟩ := encodeFrame_eq_ok.1 h
  rw [length_encodeHex] at hn
  rw [decodeFrame, decodeHex_take _ hn.le]
  split_ifs with heven
  · exact decodeRaw_take hlen (Nat.div_lt_of_lt_mul hn)
  · exact ⟨_, rfl⟩

end

/-- A line that is read as a record holds legal numbers. -/
theorem numbered_of_decodeFrame (h : decodeFrame codec text = .durable record) : record.Numbered := by
  have hrecord : ∀ payload, decodeRecord codec payload = .durable record → record.Numbered := by
    intro payload h
    unfold decodeRecord at h
    split at h
    · cases h
    split at h
    · cases h
    · split_ifs at h with hversion hsequence hoperation
      cases h
      exact ⟨not_not.1 hversion, hsequence, hoperation⟩
  unfold decodeFrame at h
  split at h
  · cases h
  · cases h
  · unfold decodeRaw at h
    dsimp only at h
    split_ifs at h
    exact hrecord _ h

theorem decodeFrame_eq_panic : decodeFrame codec text = .panic ↔ decodeHex text = .error .panic := by
  have hrecord : ∀ payload, decodeRecord codec payload ≠ .panic := by
    intro payload
    unfold decodeRecord
    repeat' split
    all_goals simp
  have hraw : ∀ raw, decodeRaw codec raw ≠ .panic := by
    intro raw
    unfold decodeRaw
    dsimp only
    split_ifs
    all_goals first | exact hrecord _ | simp
  unfold decodeFrame
  split
  · exact iff_of_true rfl (by assumption)
  · exact iff_of_false (by simp) (by simp_all)
  · exact iff_of_false (hraw _) (by simp_all)

/-- When a line is decoded as its hex digits say and never ends the process. -/
theorem decodeHex_exact_iff (codec : Codec ι (WalRecord μ)) (text : List Char) :
    (decodeHex text ≠ .error .panic ∧ decodeFrame codec text ≠ .panic ∧
      ∀ bytes, decodeHex text = .ok bytes ↔
        ReadsPairs (trim text) bytes ∧ ∀ c ∈ trim text, (toDigit c).isSome) ↔
    (asBytes (trim text)).length % 2 ≠ 0 ∨
      ∀ good rest bytes, trim text = good ++ rest → ReadsPairs good bytes →
        ¬ CutsChar rest ∧ (rest = [] → '+' ∉ good) := by
  rw [← decodeHex_spec_iff, Ne, Ne, decodeFrame_eq_panic, and_self_left]

end Frame

/-! ## A codec for records of a few bytes -/

/-- A record in five bytes, as far as its fields fit. -/
def sampleBytes (r : WalRecord Unit) : Except String Bytes :=
  if r.formatVersion < 256 ∧ r.sequence < 256 ∧ r.transactionId < 256 ∧ r.operationId < 256 then
    .ok [Fin.ofNat 256 r.formatVersion, Fin.ofNat 256 r.sequence, Fin.ofNat 256 r.transactionId,
      Fin.ofNat 256 r.operationId, match r.operation with
        | .begin => 0
        | .commit => 1
        | .abort => 2
        | .mutation () => 3]
  else .error "a field does not fit"

def sampleOfBytes : Bytes → Except String (WalRecord Unit)
  | [version, sequence, transaction, operation, tag] =>
    let record := WalRecord.mk version.val sequence.val transaction.val operation.val
    if tag = 0 then .ok (record .begin)
    else if tag = 1 then .ok (record .commit)
    else if tag = 2 then .ok (record .abort)
    else .ok (record (.mutation ()))
  | _ => .error "not a record"

theorem sampleOfBytes_sampleBytes (r : WalRecord Unit) (bytes : Bytes)
    (h : sampleBytes r = .ok bytes) : sampleOfBytes bytes = .ok r := by
  obtain ⟨version, sequence, transaction, operation, op⟩ := r
  rw [sampleBytes] at h
  split_ifs at h with hfits
  obtain ⟨hversion, hsequence, htransaction, hoperation⟩ := hfits
  cases h
  cases op <;> simp_all [sampleOfBytes, Nat.mod_eq_of_lt]

/-- Records of small numbers, one byte each. -/
def sampleCodec : Codec Unit (WalRecord Unit) :=
  .plain sampleBytes sampleOfBytes sampleOfBytes_sampleBytes

/-- A pair of bytes that cuts a character ends the process, and a sign is taken for a digit. -/
theorem decodeHex_inexact : decodeHex "aéb".toList = .error .panic ∧
    decodeFrame sampleCodec "aéb".toList = .panic ∧ decodeHex "+f".toList = .ok [15] ∧
    ¬ ∀ text bytes, decodeHex text = .ok bytes → ∀ c ∈ trim text, (toDigit c).isSome :=
  ⟨by decide +kernel, by decide +kernel, by decide +kernel,
    fun h => absurd (h "+f".toList [15] (by decide +kernel) '+' (by decide +kernel)) (by decide)⟩

end FacetQL
