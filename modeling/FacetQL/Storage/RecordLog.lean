import FacetQL.Crypto

/-!
# Append-only record logs

The logs of users and of the definitions of indexes, text indexes and references
(`storage/binary.rs`): sealed records, each framed with its length and its checksum,
one after the other. A process reads the whole log when it starts, and appends to it.

* `torn_log_usable`: when a log is read as its records over whole runs;
* `log_prefix_law`: every beginning of a log is read as the records that it holds whole.
-/

namespace FacetQL.RecordLog

open Relation

variable {α ι : Type}

/-- The first bytes of every frame: `FQR1`. -/
def recordMagic : Bytes := [0x46, 0x51, 0x52, 0x31]

/-- The version of the frame. -/
def recordFormatVersion : Byte := 2

/-- The magic, the version, the length and the checksum. -/
def frameHeaderLen : Nat := 4 + 1 + 4 + 4

/-- The largest payload of a frame. -/
def maxRecordPayloadLen : Nat := 64 * 1024 * 1024

/-- What a log ends with. -/
inductive TailState
  | clean
  | truncated (offset : Nat) (detail : String)
  deriving DecidableEq, Repr

/-- What a frame is. -/
inductive FrameOutcome
  | record (payload : Bytes) (consumed : Nat)
  | truncated (detail : String)
  | corrupt (detail : String)
  | unsupportedVersion (found : Byte) (offset : Nat)
  deriving DecidableEq, Repr

/-- A number in eight hex digits. -/
def hexWord (n : Nat) : String := "0x" ++ String.ofList ((Nat.toDigits 16 n).leftpad 8 '0')

/-- A frame of another version of the format. -/
def unsupportedVersionError (path : String) (found : Byte) (offset : Nat) : IoError :=
  let version := toString found.val
  let current := toString recordFormatVersion.val
  ⟨.invalidData, path ++ " holds a v" ++ version ++ " record frame at offset " ++ toString offset ++
    ", but this build reads and writes v" ++ current ++ ". The on-disk record format changed. " ++
    "There is no in-place upgrade for this: stop the server and recreate the data directory (or " ++
    "restore a backup taken with a matching build). Nothing here is corrupt — refusing to read is " ++
    "deliberate, because a v" ++ version ++ " payload decoded as v" ++ current ++
    " would not fail, it would quietly mean the wrong thing."⟩

/-- The frame around a payload. -/
def encodeFrame (payload : Bytes) : Except IoError Bytes :=
  if maxRecordPayloadLen < payload.length then
    .error ⟨.invalidData, "record payload of " ++ toString payload.length ++
      " bytes exceeds the maximum of " ++ toString maxRecordPayloadLen ++
      " bytes; refusing to write a record the read path would reject as corrupt"⟩
  else if 2 ^ 32 - 1 < payload.length then
    .error ⟨.invalidInput, "record payload of " ++ toString payload.length ++ " bytes exceeds the " ++
      toString (2 ^ 32 - 1) ++ "-byte frame limit"⟩
  else
    .ok (recordMagic ++ [recordFormatVersion] ++ leBytes 4 payload.length ++
      leBytes 4 (crc32 payload) ++ payload)

/-- The frame at an offset, of which `rest` are the bytes up to the end of the file. -/
def readOneFrame (offset : Nat) (rest : Bytes) : FrameOutcome :=
  if rest.length < frameHeaderLen then
    .truncated ("record header at offset " ++ toString offset ++ " is truncated: " ++
      toString rest.length ++ " of " ++ toString frameHeaderLen ++ " header bytes present")
  else
    let header := rest.take frameHeaderLen
    if header.take 4 ≠ recordMagic then
      .corrupt ("bad record magic at offset " ++ toString offset ++ ": expected " ++
        toString (recordMagic.map Fin.val) ++ ", found " ++ toString ((header.take 4).map Fin.val))
    else
      let version := header.getD 4 0
      if version ≠ recordFormatVersion then .unsupportedVersion version offset
      else
        let payloadLen := ofLeBytes ((header.drop 5).take 4)
        let storedCrc := ofLeBytes ((header.drop 9).take 4)
        if maxRecordPayloadLen < payloadLen then
          .corrupt ("record at offset " ++ toString offset ++ " declares a payload of " ++
            toString payloadLen ++ " bytes, over the " ++ toString maxRecordPayloadLen ++
            "-byte maximum — the length prefix is corrupt (no record this build writes can be " ++
            "that large)")
        else
          let payloadAvailable := rest.length - frameHeaderLen
          if payloadAvailable < payloadLen then
            .truncated ("record payload at offset " ++ toString offset ++
              " is truncated: header declares " ++ toString payloadLen ++ " bytes but only " ++
              toString payloadAvailable ++ " remain")
          else
            let payload := (rest.drop frameHeaderLen).take payloadLen
            if crc32 payload ≠ storedCrc then
              .corrupt ("record checksum mismatch at offset " ++ toString offset ++ ": stored " ++
                hexWord storedCrc ++ ", computed " ++ hexWord (crc32 payload) ++
                " — payload corrupted")
            else .record payload (frameHeaderLen + payloadLen)

theorem readOneFrame_consumed {offset consumed : Nat} {rest payload : Bytes}
    (h : readOneFrame offset rest = .record payload consumed) : 0 < consumed := by
  unfold readOneFrame at h
  dsimp only at h
  split_ifs at h
  cases h
  exact Nat.add_pos_left (by decide) _

/-- The records from an offset on, of which `rest` are the bytes up to the end of the file. -/
def readFrames (codec : Codec ι α) (path : String) (offset : Nat) (rest : Bytes) :
    Except IoError (List (Nat × α) × TailState) :=
  if rest = [] then .ok ([], .clean)
  else
    match _hframe : readOneFrame offset rest with
    | .record payload consumed =>
      match codec.decrypt payload with
      | .error e =>
        .error ⟨.invalidData, "failed to decrypt record at offset " ++ toString offset ++ " in " ++
          path ++ ": " ++ e ++ " — wrong FACETQL_MASTER_KEY, or this file predates encryption at rest"⟩
      | .ok decrypted =>
        match codec.deserialize decrypted with
        | .error e =>
          .error ⟨.invalidData, "failed to deserialize record at offset " ++ toString offset ++
            " in " ++ path ++ ": " ++ e ++ " — file may be corrupted"⟩
        | .ok record =>
          (readFrames codec path (offset + consumed) (rest.drop consumed)).map
            fun r => ((offset, record) :: r.1, r.2)
    | .truncated detail => .ok ([], .truncated offset detail)
    | .corrupt detail =>
      .error ⟨.invalidData, "corrupt record in " ++ path ++ " at offset " ++ toString offset ++ ": " ++
        detail⟩
    | .unsupportedVersion found offset => .error (unsupportedVersionError path found offset)
termination_by rest.length
decreasing_by
  have hpos := readOneFrame_consumed _hframe
  have hne : 0 < rest.length := List.length_pos_of_ne_nil (by assumption)
  rw [List.length_drop]
  omega

/-- Every record of a log, with its offset, and what the log ends with. -/
def readAllRecordsFramed (codec : Codec ι α) (path : String) :
    (file : Option Bytes) → Except IoError (List (Nat × α) × TailState)
  | none => .ok ([], .clean)
  | some bytes => readFrames codec path 0 bytes

/-- Every record of a log, with its offset. A torn tail is left where it is. -/
def readAllRecords (codec : Codec ι α) (path : String) (file : Option Bytes) :
    Except IoError (List (Nat × α)) :=
  (readAllRecordsFramed codec path file).map Prod.fst

/-- The frame of a record. -/
def frameRecord (codec : Codec ι α) (nonce : ι) (record : α) : Except IoError Bytes :=
  match codec.serialize record with
  | .error e => .error ⟨.invalidData, "failed to serialize record: " ++ e⟩
  | .ok bytes => encodeFrame (codec.encrypt nonce bytes)

/-- Append a record. Returns the offset of its frame. -/
def appendRecord (codec : Codec ι α) (nonce : ι) (record : α) (file : Option Bytes) :
    Except IoError Nat × Option Bytes :=
  match frameRecord codec nonce record with
  | .error e => (.error e, file)
  | .ok frame =>
    let bytes := file.getD []
    (.ok bytes.length, some (bytes ++ frame))

/-! ## Frames and their cuts -/

section Frame

variable {codec : Codec ι α} {nonce : ι} {record : α} {frame payload : Bytes}

/-- The header of the frame around a payload. -/
def frameHeader (payload : Bytes) : Bytes :=
  recordMagic ++ [recordFormatVersion] ++ leBytes 4 payload.length ++ leBytes 4 (crc32 payload)

theorem length_frameHeader (payload : Bytes) : (frameHeader payload).length = frameHeaderLen := by
  simp [frameHeader, recordMagic, frameHeaderLen]

theorem frameRecord_eq_ok : frameRecord codec nonce record = .ok frame ↔
    ∃ bytes, codec.serialize record = .ok bytes ∧
      (codec.encrypt nonce bytes).length ≤ maxRecordPayloadLen ∧
      frame = frameHeader (codec.encrypt nonce bytes) ++ codec.encrypt nonce bytes := by
  rw [frameRecord]
  rcases codec.serialize record with e | bytes
  · simp
  by_cases hlen : maxRecordPayloadLen < (codec.encrypt nonce bytes).length
  · simp [encodeFrame, hlen, hlen.not_ge]
  -- The bound of the length field is never the one that is hit.
  have hword : ¬ 2 ^ 32 - 1 < (codec.encrypt nonce bytes).length :=
    not_lt.2 ((not_lt.1 hlen).trans (by decide))
  simp only [encodeFrame, hlen, hword, if_false, Except.ok.injEq, not_lt.1 hlen, true_and,
    exists_eq_left', frameHeader, eq_comm]

section

variable (hlen : payload.length ≤ maxRecordPayloadLen)
include hlen

theorem readOneFrame_header (offset : Nat) (rest : Bytes) :
    readOneFrame offset (frameHeader payload ++ rest) =
      if rest.length < payload.length then
        .truncated ("record payload at offset " ++ toString offset ++
          " is truncated: header declares " ++ toString payload.length ++ " bytes but only " ++
          toString rest.length ++ " remain")
      else if crc32 (rest.take payload.length) ≠ crc32 payload then
        .corrupt ("record checksum mismatch at offset " ++ toString offset ++ ": stored " ++
          hexWord (crc32 payload) ++ ", computed " ++ hexWord (crc32 (rest.take payload.length)) ++
          " — payload corrupted")
      else .record (rest.take payload.length) (frameHeaderLen + payload.length) := by
  have hpow : payload.length < 256 ^ 4 := hlen.trans_lt (by decide)
  have hlength : ofLeBytes (leBytes 4 payload.length) = payload.length := ofLeBytes_leBytes hpow
  have hcrc : ofLeBytes (leBytes 4 (crc32 payload)) = crc32 payload := ofLeBytes_leBytes (crc32_lt _)
  have hheader := length_frameHeader payload
  have htotal : (frameHeader payload ++ rest).length = frameHeaderLen + rest.length := by
    rw [List.length_append, hheader]
  -- The fields of the header, read back at their offsets.
  have hmagic : (frameHeader payload).take 4 = recordMagic := by
    simp [frameHeader, recordMagic]
  have hversion : (frameHeader payload).getD 4 0 = recordFormatVersion := by
    simp [frameHeader, recordMagic]
  have hpayload : ((frameHeader payload).drop 5).take 4 = leBytes 4 payload.length := by
    simp [frameHeader, recordMagic]
  have hstored : ((frameHeader payload).drop 9).take 4 = leBytes 4 (crc32 payload) := by
    simp [frameHeader, recordMagic]
  rw [readOneFrame, if_neg (by omega), List.take_left' hheader, List.drop_left' hheader]
  simp only [hmagic, hversion, hpayload, hstored, hlength, hcrc, htotal, Nat.add_sub_cancel_left,
    ne_eq, not_true_eq_false, if_false, hlen.not_gt]

/-- A frame is read as its record. -/
theorem readOneFrame_frame (offset : Nat) (rest : Bytes) :
    readOneFrame offset (frameHeader payload ++ payload ++ rest) =
      .record payload (frameHeaderLen + payload.length) := by
  rw [List.append_assoc, readOneFrame_header hlen, List.take_left]
  simp

/-- What every cut of a frame is taken for. -/
theorem readOneFrame_take (offset : Nat) {n : Nat}
    (hn : n < (frameHeader payload ++ payload).length) :
    ∃ detail, readOneFrame offset ((frameHeader payload ++ payload).take n) = .truncated detail := by
  have hheader := length_frameHeader payload
  rw [List.length_append, hheader] at hn
  by_cases hshort : n < frameHeaderLen
  · refine ⟨_, if_pos ?_⟩
    rw [List.length_take]
    exact (min_le_left _ _).trans_lt hshort
  · rw [List.take_append, hheader, List.take_of_length_le (by omega), readOneFrame_header hlen,
      if_pos (by rw [List.length_take]; omega)]
    exact ⟨_, rfl⟩

end

theorem readFrames_record {path : String} {offset consumed : Nat} {rest decrypted : Bytes}
    (hone : readOneFrame offset rest = .record payload consumed)
    (hdecrypt : codec.decrypt payload = .ok decrypted)
    (hrecord : codec.deserialize decrypted = .ok record) :
    readFrames codec path offset rest =
      (readFrames codec path (offset + consumed) (rest.drop consumed)).map
        fun r => ((offset, record) :: r.1, r.2) := by
  have hne : rest ≠ [] := by
    rintro rfl
    cases hone
  rw [readFrames, if_neg hne]
  split
  case h_1 payload' consumed' hframe =>
    cases hone.symm.trans hframe
    simp only [hdecrypt, hrecord]
  all_goals
    rename_i hframe
    cases hone.symm.trans hframe

/-- The frame of a record in front of others. -/
theorem readFrames_frame (h : frameRecord codec nonce record = .ok frame) (path : String) (offset : Nat)
    (rest : Bytes) :
    readFrames codec path offset (frame ++ rest) =
      (readFrames codec path (offset + frame.length) rest).map
        fun r => ((offset, record) :: r.1, r.2) := by
  obtain ⟨bytes, hbytes, hlen, rfl⟩ := frameRecord_eq_ok.1 h
  have hlength : (frameHeader (codec.encrypt nonce bytes) ++ codec.encrypt nonce bytes).length =
      frameHeaderLen + (codec.encrypt nonce bytes).length := by
    rw [List.length_append, length_frameHeader]
  rw [readFrames_record (readOneFrame_frame hlen offset rest) (codec.decrypt_encrypt nonce bytes)
    (codec.deserialize_serialize _ _ hbytes), List.drop_left' hlength, hlength]

/-- A part of a frame is left where it is. -/
theorem readFrames_take (h : frameRecord codec nonce record = .ok frame) (path : String) (offset : Nat)
    {n : Nat} (hpos : n ≠ 0) (hn : n < frame.length) :
    ∃ detail, readFrames codec path offset (frame.take n) = .ok ([], .truncated offset detail) := by
  obtain ⟨bytes, -, hlen, rfl⟩ := frameRecord_eq_ok.1 h
  obtain ⟨detail, hone⟩ := readOneFrame_take hlen offset hn
  have hne : (frameHeader (codec.encrypt nonce bytes) ++ codec.encrypt nonce bytes).take n ≠ [] := by
    simp [hpos, frameHeader]
  refine ⟨detail, ?_⟩
  rw [readFrames, if_neg hne]
  split
  case h_2 detail' hframe =>
    cases hone.symm.trans hframe
    rfl
  all_goals
    rename_i hframe
    cases hone.symm.trans hframe

theorem readFrames_nil (codec : Codec ι α) (path : String) (offset : Nat) :
    readFrames codec path offset [] = .ok ([], .clean) := by
  rw [readFrames, if_pos rfl]

/-- Bytes that do not start as a frame does are damaged. -/
theorem readFrames_magic (codec : Codec ι α) (path : String) (offset : Nat) {rest : Bytes}
    (hlen : frameHeaderLen ≤ rest.length) (hmagic : (rest.take frameHeaderLen).take 4 ≠ recordMagic) :
    ∃ e, readFrames codec path offset rest = .error e := by
  have hne : rest ≠ [] := List.ne_nil_of_length_pos ((by decide : 0 < frameHeaderLen).trans_le hlen)
  obtain ⟨detail, hone⟩ : ∃ detail, readOneFrame offset rest = .corrupt detail :=
    ⟨_, (if_neg hlen.not_gt).trans (if_pos hmagic)⟩
  rw [readFrames, if_neg hne]
  split
  case h_3 => exact ⟨_, rfl⟩
  all_goals
    rename_i hframe
    cases hone.symm.trans hframe

/-- The frames of a list of records. -/
def Frames (codec : Codec ι α) (frames : List Bytes) (records : List α) : Prop :=
  List.Forall₂ (fun frame record => ∃ nonce, frameRecord codec nonce record = .ok frame) frames records

/-- Frames are read as their records, and what follows them as what it is. -/
theorem readFrames_frames {frames : List Bytes} {records : List α} (h : Frames codec frames records)
    (path : String) (offset : Nat) (rest : Bytes) :
    ∃ pairs : List (Nat × α), pairs.map Prod.snd = records ∧
      readFrames codec path offset (frames.flatten ++ rest) =
        (readFrames codec path (offset + frames.flatten.length) rest).map
          fun r => (pairs ++ r.1, r.2) := by
  induction h generalizing offset with
  | nil =>
    refine ⟨[], rfl, ?_⟩
    change readFrames codec path offset rest = (readFrames codec path offset rest).map id
    cases readFrames codec path offset rest <;> rfl
  | @cons frame record frames records hframe _ ih =>
    obtain ⟨nonce, hframe⟩ := hframe
    obtain ⟨pairs, hpairs, hread⟩ := ih (offset + frame.length)
    refine ⟨(offset, record) :: pairs, by simp [hpairs], ?_⟩
    rw [List.flatten_cons, List.append_assoc, readFrames_frame hframe, hread, List.length_append,
      ← Nat.add_assoc]
    cases readFrames codec path (offset + frame.length + frames.flatten.length) rest <;> rfl

end Frame

/-! ## Runs -/

/-- A log: its file, and the records that have been written completely. -/
structure Log (α : Type) where
  file : Option Bytes
  written : List α

/-- A record is appended, by a mutation or by recovery, or the process ends meanwhile. -/
inductive Step (codec : Codec ι α) : Log α → Log α → Prop
  | append {s : Log α} {nonce : ι} {record : α} {offset : Nat} {file : Option Bytes}
      (h : appendRecord codec nonce record s.file = (.ok offset, file)) :
      Step codec s ⟨file, s.written ++ [record]⟩
  | refuse {s : Log α} {nonce : ι} {record : α} {e : IoError} {file : Option Bytes}
      (h : appendRecord codec nonce record s.file = (.error e, file)) :
      Step codec s ⟨file, s.written⟩
  | crash {s : Log α} {nonce : ι} {record : α} {frame : Bytes} {n : Nat}
      (h : frameRecord codec nonce record = .ok frame) (hn : n < frame.length) :
      Step codec s ⟨some (s.file.getD [] ++ frame.take n), s.written⟩
  | load {s : Log α} : Step codec s s

/-- The file is made of the frames of the records and of nothing more: no part of another frame. -/
def Clean (codec : Codec ι α) (s : Log α) : Prop :=
  ∃ frames, Frames codec frames s.written ∧ s.file.getD [] = frames.flatten

/-- A step that writes only to a log without a torn part. -/
def CleanStep (codec : Codec ι α) (s s' : Log α) : Prop :=
  Step codec s s' ∧ (s'.file ≠ s.file → Clean codec s)

/-- The file is the frames of the records, and perhaps a part of another frame. -/
def Sound (codec : Codec ι α) (s : Log α) : Prop :=
  ∃ frames part, Frames codec frames s.written ∧ s.file.getD [] = frames.flatten ++ part ∧
    (part = [] ∨ ∃ nonce record frame n, frameRecord codec nonce record = .ok frame ∧
      part = frame.take n ∧ n ≠ 0 ∧ n < frame.length)

section Runs

variable {codec : Codec ι α} {s s' : Log α}

theorem readAllRecordsFramed_getD (codec : Codec ι α) (path : String) (file : Option Bytes) :
    readAllRecordsFramed codec path file = readFrames codec path 0 (file.getD []) := by
  rcases file with _ | bytes
  · exact (readFrames_nil codec path 0).symm
  · rfl

/-- A sound log is read as the records that were written. -/
theorem Sound.read (h : Sound codec s) (path : String) : ∃ pairs tail,
    readAllRecordsFramed codec path s.file = .ok (pairs, tail) ∧ pairs.map Prod.snd = s.written := by
  obtain ⟨frames, part, hframes, hfile, hpart⟩ := h
  obtain ⟨pairs, hpairs, hread⟩ := readFrames_frames hframes path 0 part
  rw [readAllRecordsFramed_getD, hfile, hread]
  rcases hpart with rfl | ⟨nonce, record, frame, n, hframe, rfl, hpos, hn⟩
  · rw [readFrames_nil]
    exact ⟨pairs ++ [], .clean, rfl, by simpa using hpairs⟩
  · obtain ⟨detail, htake⟩ := readFrames_take hframe path (0 + frames.flatten.length) hpos hn
    rw [htake]
    exact ⟨pairs ++ [], _, rfl, by simpa using hpairs⟩

theorem appendRecord_of_frame {nonce : ι} {record : α} {frame : Bytes}
    (h : frameRecord codec nonce record = .ok frame) (file : Option Bytes) :
    appendRecord codec nonce record file =
      (.ok (file.getD []).length, some (file.getD [] ++ frame)) := by
  simp only [appendRecord, h]

theorem appendRecord_eq_ok {nonce : ι} {record : α} {offset : Nat} {file file' : Option Bytes}
    (h : appendRecord codec nonce record file = (.ok offset, file')) :
    ∃ frame, frameRecord codec nonce record = .ok frame ∧ file' = some (file.getD [] ++ frame) := by
  rcases hframe : frameRecord codec nonce record with e | frame
  · simp [appendRecord, hframe] at h
  rw [appendRecord_of_frame hframe, Prod.mk.injEq] at h
  exact ⟨frame, rfl, h.2.symm⟩

theorem frame_ne_nil {nonce : ι} {record : α} {frame : Bytes}
    (h : frameRecord codec nonce record = .ok frame) : frame ≠ [] := by
  obtain ⟨bytes, -, -, rfl⟩ := frameRecord_eq_ok.1 h
  simp [frameHeader]

/-- A step that writes only to a clean log keeps it sound. -/
theorem Sound.step (h : Sound codec s) (hstep : CleanStep codec s s') : Sound codec s' := by
  obtain ⟨hstep, hclean⟩ := hstep
  cases hstep with
  | @append nonce record offset file happend =>
    obtain ⟨frame, hframe, rfl⟩ := appendRecord_eq_ok happend
    have hwrites : some (s.file.getD [] ++ frame) ≠ s.file := by
      intro heq
      have := congrArg (fun file => (file.getD []).length) heq
      simp [frame_ne_nil hframe] at this
    obtain ⟨frames, hframes, hfile⟩ := hclean hwrites
    refine ⟨frames ++ [frame], [], ?_, by simp [hfile], .inl rfl⟩
    exact List.rel_append hframes (.cons ⟨nonce, hframe⟩ .nil)
  | @refuse nonce record e file happend =>
    have hsame : file = s.file := by
      rcases hframe : frameRecord codec nonce record with e' | frame
      · simp only [appendRecord, hframe, Prod.mk.injEq] at happend
        exact happend.2.symm
      · simp [appendRecord_of_frame hframe] at happend
    rw [hsame]
    exact h
  | @crash nonce record frame n hframe hn =>
    by_cases hsame : some (s.file.getD [] ++ frame.take n) = s.file
    · rw [hsame]
      exact h
    obtain ⟨frames, hframes, hfile⟩ := hclean hsame
    refine ⟨frames, frame.take n, hframes, by simp [hfile], ?_⟩
    rcases Nat.eq_zero_or_pos n with rfl | hpos
    · exact .inl rfl
    · exact .inr ⟨nonce, record, frame, n, hframe, rfl, hpos.ne', hn⟩
  | load => exact h

theorem Sound.steps (h : Sound codec s) (hrun : ReflTransGen (CleanStep codec) s s') :
    Sound codec s' := by
  induction hrun with
  | refl => exact h
  | tail _ hstep ih => exact ih.step hstep

end Runs

/-- A log to which nothing is written while its tail is torn is read, at every point of
    every run, as the records that were completely written, in order. -/
theorem torn_log_usable (codec : Codec ι α) (path : String) (s : Log α)
    (hrun : ReflTransGen (CleanStep codec) ⟨none, []⟩ s) :
    ∃ pairs, readAllRecords codec path s.file = .ok pairs ∧ pairs.map Prod.snd = s.written := by
  have hsound : Sound codec (⟨none, []⟩ : Log α) := ⟨[], [], .nil, rfl, .inl rfl⟩
  obtain ⟨pairs, tail, hread, hpairs⟩ := (hsound.steps hrun).read path
  exact ⟨pairs, by rw [readAllRecords, hread]; rfl, hpairs⟩

/-- Records that are byte strings, and no encryption. -/
def plainCodec : Codec Unit Bytes := .plain .ok .ok fun _ _ h => h.symm

def plainFrame (bytes : Bytes) : Bytes := frameHeader bytes ++ bytes

theorem frameRecord_plainCodec {bytes : Bytes} (hlen : bytes.length ≤ maxRecordPayloadLen) :
    frameRecord plainCodec () bytes = .ok (plainFrame bytes) :=
  frameRecord_eq_ok.2 ⟨bytes, rfl, hlen, rfl⟩

theorem step_plainCodec (s : Log Bytes) {bytes : Bytes} (hlen : bytes.length ≤ maxRecordPayloadLen) :
    Step plainCodec s ⟨some (s.file.getD [] ++ plainFrame bytes), s.written ++ [bytes]⟩ :=
  .append (appendRecord_of_frame (frameRecord_plainCodec hlen) s.file)

/-- A record, the first byte of the frame of another one, and a third. -/
def splicedLog : Log Bytes :=
  ⟨some (plainFrame [1] ++ [0x46] ++ plainFrame [3]), [[1], [3]]⟩

/-- After a crash has left a part of a frame, the next record is appended to it, and then the
    log cannot be read. -/
theorem torn_log_not_usable :
    ReflTransGen (Step plainCodec) ⟨none, []⟩ splicedLog ∧
      ∃ e, readAllRecords plainCodec "facetql.users" splicedLog.file = .error e := by
  constructor
  · have hcrash : Step plainCodec ⟨some (plainFrame [1]), [[1]]⟩
        ⟨some (plainFrame [1] ++ [0x46]), [[1]]⟩ :=
      .crash (frameRecord_plainCodec (by decide : ([2] : Bytes).length ≤ maxRecordPayloadLen))
        (by decide : 1 < (plainFrame [2]).length)
    exact ((ReflTransGen.single (step_plainCodec ⟨none, []⟩ (by decide))).tail hcrash).tail
      (step_plainCodec ⟨some (plainFrame [1] ++ [0x46]), [[1]]⟩ (by decide))
  · obtain ⟨e, he⟩ : ∃ e, readFrames plainCodec "facetql.users" (0 + (plainFrame [1]).length)
        ([0x46] ++ plainFrame [3]) = .error e :=
      readFrames_magic plainCodec _ _ (by decide) (by decide)
    refine ⟨e, ?_⟩
    rw [readAllRecords, splicedLog, readAllRecordsFramed, List.append_assoc,
      readFrames_frame (frameRecord_plainCodec (by decide)), he]
    rfl

/-- A run that ends in a crash. -/
theorem torn_log_usable_after_crash :
    ∃ s : Log Bytes, ReflTransGen (CleanStep plainCodec) ⟨none, []⟩ s ∧
      s.file = some (plainFrame [1] ++ [0x46]) ∧
      ∃ pairs, readAllRecords plainCodec "facetql.users" s.file = .ok pairs ∧
        pairs.map Prod.snd = [[1]] := by
  have hempty : Clean plainCodec ⟨none, []⟩ := ⟨[], .nil, rfl⟩
  have hframe := frameRecord_plainCodec (by decide : ([1] : Bytes).length ≤ maxRecordPayloadLen)
  have hone : Clean plainCodec ⟨some (plainFrame [1]), [[1]]⟩ :=
    ⟨[plainFrame [1]], .cons ⟨(), hframe⟩ .nil, by simp⟩
  have hcrash : Step plainCodec ⟨some (plainFrame [1]), [[1]]⟩
      ⟨some (plainFrame [1] ++ [0x46]), [[1]]⟩ :=
    .crash (frameRecord_plainCodec (by decide : ([2] : Bytes).length ≤ maxRecordPayloadLen))
      (by decide : 1 < (plainFrame [2]).length)
  have hrun : ReflTransGen (CleanStep plainCodec) ⟨none, []⟩
      ⟨some (plainFrame [1] ++ [0x46]), [[1]]⟩ :=
    (ReflTransGen.single ⟨step_plainCodec ⟨none, []⟩ (by decide), fun _ => hempty⟩).tail
      ⟨hcrash, fun _ => hone⟩
  exact ⟨_, hrun, rfl, torn_log_usable plainCodec "facetql.users" _ hrun⟩

/-! ## Cuts of a log -/

/-- A record in a log, and the bytes that its frame takes. -/
structure Placed (α : Type) where
  offset : Nat
  stop : Nat
  record : α

/-- A record with its offset. -/
def Placed.entry (w : Placed α) : Nat × α := (w.offset, w.record)

/-- The records that have been appended to a new log, and its file. -/
inductive Written (codec : Codec ι α) : List (Placed α) → Option Bytes → Prop
  | nil : Written codec [] none
  | append {ws : List (Placed α)} {file file' : Option Bytes} {nonce : ι} {record : α} {offset : Nat}
      (h : Written codec ws file)
      (happend : appendRecord codec nonce record file = (.ok offset, file')) :
      Written codec (ws ++ [⟨offset, (file'.getD []).length, record⟩]) file'

section Cuts

variable {codec : Codec ι α} {ws : List (Placed α)} {file : Option Bytes}

theorem Written.stop_le (h : Written codec ws file) : ∀ w ∈ ws, w.stop ≤ (file.getD []).length := by
  induction h with
  | nil => simp
  | append _ happend ih =>
    obtain ⟨frame, -, rfl⟩ := appendRecord_eq_ok happend
    intro w hw
    rcases List.mem_append.1 hw with hw | hw
    · exact (ih w hw).trans (by simp)
    · rw [List.mem_singleton.1 hw]

theorem Written.read_append (h : Written codec ws file) (path : String) (rest : Bytes) :
    readFrames codec path 0 (file.getD [] ++ rest) =
      (readFrames codec path (file.getD []).length rest).map
        fun r => (ws.map Placed.entry ++ r.1, r.2) := by
  induction h generalizing rest with
  | nil =>
    change readFrames codec path 0 rest = (readFrames codec path 0 rest).map id
    cases readFrames codec path 0 rest <;> rfl
  | append _ happend ih =>
    obtain ⟨frame, hframe, rfl⟩ := appendRecord_eq_ok happend
    rw [appendRecord_of_frame hframe] at happend
    cases happend
    rw [Option.getD_some, List.append_assoc, ih, readFrames_frame hframe, List.length_append]
    cases readFrames codec path _ rest <;> simp [Except.map, Placed.entry]

end Cuts

/-- Every beginning of a log is read as the records whose frames it holds, with their
    offsets, and its tail is torn exactly when it ends inside a frame. -/
theorem log_prefix_law (codec : Codec ι α) (path : String) (ws : List (Placed α))
    (file : Option Bytes) (h : Written codec ws file) (n : Nat) :
    ∃ tail, readAllRecordsFramed codec path (some ((file.getD []).take n)) =
        .ok ((ws.filter fun w => w.stop ≤ n).map Placed.entry, tail) ∧
      ∀ offset, (∃ detail, tail = .truncated offset detail) ↔
        ∃ w ∈ ws, w.offset = offset ∧ offset < n ∧ n < w.stop := by
  induction h with
  | nil => exact ⟨.clean, by simp [readAllRecordsFramed, readFrames_nil], by simp⟩
  | @append ws file _ nonce record offset h happend ih =>
    obtain ⟨frame, hframe, rfl⟩ := appendRecord_eq_ok happend
    rw [appendRecord_of_frame hframe] at happend
    cases happend
    have hpos : 0 < frame.length := List.length_pos_of_ne_nil (frame_ne_nil hframe)
    rw [Option.getD_some, List.filter_append, List.length_append]
    rcases le_or_gt n (file.getD []).length with hn | hn
    · -- The cut is before the last frame.
      obtain ⟨tail, hread, htail⟩ := ih
      refine ⟨tail, ?_, fun at' => (htail at').trans ?_⟩
      · have hout : ¬ (file.getD []).length + frame.length ≤ n := by omega
        rw [List.take_append_of_le_length hn, hread]
        simp [hout]
      · simp only [List.mem_append, List.mem_singleton, or_and_right, exists_or, exists_eq_left]
        exact ⟨.inl, fun h => h.resolve_right (by omega)⟩
    -- The frames before the last one are in the beginning, whole.
    have hall : ws.filter (fun w => w.stop ≤ n) = ws :=
      List.filter_eq_self.2 fun w hw => decide_eq_true ((h.stop_le w hw).trans hn.le)
    have hold : ∀ w ∈ ws, ¬ n < w.stop := fun w hw => not_lt.2 ((h.stop_le w hw).trans hn.le)
    rw [readAllRecordsFramed, List.take_append, List.take_of_length_le hn.le, h.read_append, hall]
    rcases le_or_gt ((file.getD []).length + frame.length) n with hwhole | hcut
    · refine ⟨.clean, ?_, fun at' => ?_⟩
      · have hread := readFrames_frame hframe path (file.getD []).length []
        rw [List.append_nil, readFrames_nil] at hread
        rw [List.take_of_length_le (by omega), hread]
        simp [Except.map, Placed.entry, hwhole]
      constructor
      · rintro ⟨_, heq⟩
        cases heq
      rintro ⟨w, hw, -, -, hin⟩
      rcases List.mem_append.1 hw with hw | hw
      · exact absurd hin (hold w hw)
      · rw [List.mem_singleton.1 hw] at hin
        exact absurd hin hwhole.not_gt
    · obtain ⟨detail, hread⟩ := readFrames_take hframe path (file.getD []).length
        (Nat.sub_ne_zero_of_lt hn) (by omega)
      refine ⟨.truncated (file.getD []).length detail, ?_, fun at' => ?_⟩
      · rw [hread]
        simp [Except.map, hcut]
      constructor
      · rintro ⟨_, heq⟩
        cases heq
        exact ⟨_, List.mem_append_right _ List.mem_cons_self, rfl, hn, hcut⟩
      rintro ⟨w, hw, rfl, -, hin⟩
      rcases List.mem_append.1 hw with hw | hw
      · exact absurd hin (hold w hw)
      · rw [List.mem_singleton.1 hw]
        exact ⟨detail, rfl⟩

theorem log_prefix_law_second_cut :
    Written plainCodec [⟨0, 14, [1]⟩, ⟨14, 28, [2]⟩] (some (plainFrame [1] ++ plainFrame [2])) ∧
      ∃ tail, readAllRecordsFramed plainCodec "facetql.users"
          (some ((plainFrame [1] ++ plainFrame [2]).take 20)) = .ok ([(0, [1])], tail) ∧
        ∀ offset, (∃ detail, tail = .truncated offset detail) ↔
          ∃ w ∈ ([⟨0, 14, [1]⟩, ⟨14, 28, [2]⟩] : List (Placed Bytes)), w.offset = offset ∧ offset < 20 ∧ 20 < w.stop :=
  have hframe : ∀ bytes ∈ [[1], [2]], frameRecord plainCodec () bytes = .ok (plainFrame bytes) :=
    fun bytes hbytes => frameRecord_plainCodec (by revert bytes; decide)
  have hfirst := Written.nil.append (appendRecord_of_frame (hframe [1] (by decide)) none)
  have hsecond := hfirst.append (appendRecord_of_frame (hframe [2] (by decide)) _)
  ⟨hsecond, log_prefix_law plainCodec "facetql.users" _ _ hsecond 20⟩

end FacetQL.RecordLog
