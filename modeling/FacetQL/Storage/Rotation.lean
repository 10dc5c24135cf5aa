import FacetQL.Lib.Replace
import FacetQL.Storage.TornTail
import FacetQL.Storage.Commit

/-!
# Rotation

Dropping the records of the log that no recovery needs any more (`rotate` of
`storage/wal.rs`): the records above the checkpoint are framed again, and the file
is replaced by one that holds them.

* `rotation_preserves_recovery`: recovery applies the same from the rotated log, at every step.
-/

namespace FacetQL

variable {μ ι σ : Type}

/-- The lines of records, each with its newline. -/
def encodeLines (codec : Codec ι (WalRecord μ)) : List (ι × WalRecord μ) → Except IoError Bytes
  | [] => .ok []
  | (nonce, record) :: rest =>
    match encodeFrame codec nonce record with
    | .error e => .error e
    | .ok text => (encodeLines codec rest).map fun body => asBytes text ++ [newline] ++ body

/-- Records with the nonces they are framed under. -/
def withNonces (nonce : Nat → ι) (records : List (WalRecord μ)) : List (ι × WalRecord μ) :=
  records.zipIdx.map fun r => (nonce r.2, r.1)

/-- Drop the records up to the checkpoint: how many are carried over, and the steps. -/
def rotateOps (codec : Codec ι (WalRecord μ)) (nonce : Nat → ι) (durableCheckpoint : Nat)
    (file : Option Bytes) : Except IoError (Nat × List (FileOp Byte)) :=
  if file = none then .ok (0, [])
  else
    match readAll codec file with
    | .error e => .error e
    | .ok (_, .torn _ detail) =>
      .error ⟨.invalidData, "refusing to rotate the WAL: its tail is torn (" ++ detail ++ "). A tear " ++
        "is repaired during startup recovery, so one here means the log changed underneath a " ++
        "running process."⟩
    | .ok (records, .clean) =>
      let kept := rotate durableCheckpoint records
      -- Every record is still live.
      if kept.length = records.length then .ok (kept.length, [])
      else (encodeLines codec (withNonces nonce kept)).map fun body => (kept.length, replaceOps body)

section Rotation

variable {codec : Codec ι (WalRecord μ)} {records : List (WalRecord μ)} {ws : List (ι × WalRecord μ)}

theorem map_snd_withNonces (nonce : Nat → ι) (records : List (WalRecord μ)) :
    (withNonces nonce records).map Prod.snd = records := by
  rw [withNonces, List.map_map]
  exact List.zipIdx_map_fst 0 records

theorem encodeLines_eq_ok {body : Bytes} (h : encodeLines codec ws = .ok body) :
    body = joinLines (ws.map (lineBytes codec)) ∧
      ∀ w ∈ ws, ∃ text, encodeFrame codec w.1 w.2 = .ok text := by
  induction ws generalizing body with
  | nil =>
    cases h
    simp
  | cons w ws ih =>
    obtain ⟨nonce, record⟩ := w
    rw [encodeLines] at h
    rcases hencode : encodeFrame codec nonce record with e | text
    · simp [hencode] at h
    simp only [hencode] at h
    obtain ⟨_, hrest, rfl⟩ := Except.map_eq_ok.1 h
    obtain ⟨rfl, htexts⟩ := ih hrest
    refine ⟨?_, List.forall_mem_cons.2 ⟨⟨text, hencode⟩, htexts⟩⟩
    simp [joinLines, lineBytes, hencode]

/-- Lines that are written read as their records. -/
theorem readAll_encodeLines {body : Bytes} (h : encodeLines codec ws = .ok body)
    (hnumbered : ∀ w ∈ ws, w.2.Numbered) :
    readAll codec (some body) = .ok (ws.map Prod.snd, .clean) := by
  obtain ⟨rfl, htexts⟩ := encodeLines_eq_ok h
  exact (ended_joinLines hnumbered htexts).read

/-! ## Recovery from a rotated log -/

/-- Recovery applies to the engine the same from a rotated log. -/
theorem recover_rotate (engine : Replayer μ σ) (c : Nat) (s : σ)
    (hnumbered : ∀ r ∈ records, r.Numbered) (hasc : Ascending records) :
    recover engine c (some (rotate c records)) s = recover engine c (some records) s := by
  have hvalid : validateRecords records = .ok () := validateRecords_eq_ok.2 hnumbered
  have hvalid' : validateRecords (liveRecords c records) = .ok () :=
    validateRecords_eq_ok.2 fun r hr => hnumbered r (List.mem_filter.1 hr).1
  have hsequence : validateSequence records = .ok () := validateSequence_eq_ok.2 hasc
  have hsequence' : validateSequence (liveRecords c records) = .ok () :=
    validateSequence_eq_ok.2 (hasc.filter _)
  rw [show rotate c records = liveRecords c records from rfl]
  simp only [recover, hvalid, hvalid', hsequence, hsequence', liveRecords_liveRecords]

/-- What `rotate` does: the log is replaced by its records above the checkpoint, or left. -/
theorem rotateOps_eq_ok {nonce : Nat → ι} {c kept : Nat} {bytes : Bytes} {ops : List (FileOp Byte)}
    (h : rotateOps codec nonce c (some bytes) = .ok (kept, ops)) :
    ∃ records, readAll codec (some bytes) = .ok (records, .clean) ∧ kept = (rotate c records).length ∧
      (ops = [] ∧ rotate c records = records ∨ ∃ body, ops = replaceOps body ∧
        readAll codec (some body) = .ok (rotate c records, .clean)) := by
  rw [rotateOps, if_neg (Option.some_ne_none _)] at h
  split at h
  · cases h
  · cases h
  rename_i records hread
  refine ⟨records, hread, ?_⟩
  dsimp only at h
  split_ifs at h with hall
  · cases h
    exact ⟨rfl, .inl ⟨rfl, (List.filter_sublist).eq_of_length hall⟩⟩
  obtain ⟨body, hbody, ⟨⟩⟩ := Except.map_eq_ok.1 h
  refine ⟨rfl, .inr ⟨body, rfl, ?_⟩⟩
  have hnumbered : ∀ w ∈ withNonces nonce (rotate c records), w.2.Numbered := by
    intro w hw
    have hmem := List.mem_map_of_mem (f := Prod.snd) hw
    rw [map_snd_withNonces] at hmem
    exact numbered_of_readAll hread _ (List.mem_filter.1 hmem).1
  have := readAll_encodeLines hbody hnumbered
  rwa [map_snd_withNonces] at this

end Rotation

/-- Rotation keeps exactly the records above the checkpoint, in their order; recovery from
    that checkpoint applies the same from the rotated log, for which every log of the writers
    is fit; and at every step, the log reads as the old records or the new ones. When the
    system fails with the process, what it leaves is all of the new log, or what it would
    have left of the old one, which is all of it when that has been flushed. -/
theorem rotation_preserves_recovery (codec : Codec ι (WalRecord μ)) (nonce : Nat → ι) (c kept : Nat)
    (log : Inode Byte) (temp : Option (Inode Byte)) (ops : List (FileOp Byte))
    (hrotate : rotateOps codec nonce c (some log.bytes) = .ok (kept, ops)) :
    ∃ records rotated, readAll codec (some log.bytes) = .ok (records, .clean) ∧
      rotated = records.filter (fun r => c < r.sequence) ∧
      readAll codec (some (runOps ops ⟨log, none, temp⟩).file.bytes) = .ok (rotated, .clean) ∧
      (∀ (σ : Type) (engine : Replayer μ σ) (s : σ), validateSequence records = .ok () →
        recover engine c (some rotated) s = recover engine c (some records) s) ∧
      (∀ w : Writer μ, Writer.Steps .empty w → w.log = records → validateSequence records = .ok ()) ∧
      ∀ d, Reaches ops ⟨log, none, temp⟩ d →
        (readAll codec (some d.file.bytes) = .ok (records, .clean) ∨
          readAll codec (some d.file.bytes) = .ok (rotated, .clean)) ∧
        ∀ left, d.Survives left → readAll codec (some left) = .ok (rotated, .clean) ∨
          log.Survives left ∧ (log.bytes.length ≤ log.stable →
            readAll codec (some left) = .ok (records, .clean)) := by
  obtain ⟨records, hread, -, hops⟩ := rotateOps_eq_ok hrotate
  have hold : ∀ left, log.Survives left → log.Survives left ∧ (log.bytes.length ≤ log.stable →
      readAll codec (some left) = .ok (records, .clean)) := fun left h =>
    ⟨h, fun hstable => h.eq hstable ▸ hread⟩
  refine ⟨records, _, hread, rfl, ?_, ?_, ?_, ?_⟩
  · rcases hops with ⟨rfl, hall⟩ | ⟨body, rfl, hbody⟩
    · rw [← hall] at hread
      exact hread
    · rw [replace_run]
      exact hbody
  · intro σ engine s hsequence
    exact recover_rotate engine c s (numbered_of_readAll hread) (validateSequence_eq_ok.1 hsequence)
  · rintro w hw rfl
    exact validateSequence_eq_ok.2 (Writer.inv_empty.steps hw).log.asc
  · intro d hreach
    rcases hops with ⟨rfl, -⟩ | ⟨body, rfl, hbody⟩
    · -- Nothing is done to the directory.
      cases hreach
      refine ⟨.inl hread, fun left hleft => .inr (hold left ?_)⟩
      rcases hleft with h | ⟨f, hf, -⟩
      · exact h
      · cases hf
    · refine ⟨?_, fun left hleft => ?_⟩
      · rcases replace_reaches hreach with ⟨hfile, -⟩ | ⟨hfile, -⟩
        · exact .inl (hfile ▸ hread)
        · exact .inr (hfile ▸ hbody)
      · rcases replace_crash hreach hleft with h | rfl
        · exact .inr (hold left h)
        · exact .inl hbody

/-- Two records, of which the checkpoint covers the first. -/
def rotatedFile : Bytes :=
  joinLines ([((), sampleRecord 1), ((), sampleRecord 2)].map (lineBytes sampleCodec))

theorem rotation_preserves_recovery_first_dropped :
    ∃ kept ops, rotateOps sampleCodec (fun _ => ()) 1 (some rotatedFile) = .ok (kept, ops) ∧
      readAll sampleCodec (some (runOps ops ⟨⟨rotatedFile, 0⟩, none, none⟩).file.bytes) =
        .ok ([sampleRecord 2], .clean) := by
  have hread : readAll sampleCodec (some rotatedFile) =
      .ok ([sampleRecord 1, sampleRecord 2], .clean) := by
    refine (ended_joinLines ?_ ?_).read
    · simp [WalRecord.Numbered, sampleRecord]
    · exact List.forall_mem_cons.2 ⟨⟨_, rfl⟩, List.forall_mem_singleton.2 ⟨_, rfl⟩⟩
  obtain ⟨text, htext⟩ : ∃ text, encodeFrame sampleCodec () (sampleRecord 2) = .ok text := ⟨_, rfl⟩
  have hkept : rotate 1 [sampleRecord 1, sampleRecord 2] = [sampleRecord 2] := rfl
  have hrotate : rotateOps sampleCodec (fun _ => ()) 1 (some rotatedFile) =
      .ok (1, replaceOps (asBytes text ++ [newline] ++ [])) := by
    simp [rotateOps, hread, hkept, withNonces, encodeLines, htext, Except.map]
  obtain ⟨records, rotated, hrecords, rfl, hrotated, -⟩ :=
    rotation_preserves_recovery sampleCodec (fun _ => ()) 1 1 ⟨rotatedFile, 0⟩ none _ hrotate
  rw [hread, Except.ok.injEq, Prod.mk.injEq] at hrecords
  rw [← hrecords.1] at hrotated
  exact ⟨1, _, hrotate, hrotated⟩

end FacetQL
