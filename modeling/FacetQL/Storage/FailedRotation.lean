import FacetQL.Storage.Rotation

/-!
# Rotations that fail

A rotation of which a step fails returns with the error, and the process goes on. The handle that
is kept open is dropped at the end of a rotation, so that the next append opens the file that has
the name of the log from then on. A rotation that fails after the rename does not get there: the
name stands for the rotated log, and the handle is open on a file that has lost its name.

* `failed_rotation_keeps`: when what is appended afterwards is read after a restart;
* `failed_rotation_loses`: not if the flush of the directory has failed.
-/

namespace FacetQL

variable {μ ι : Type}

/-- The log of a process, and the named file when the handle is open on another one. -/
structure OpenLog where
  log : WalLog
  renamed : Option Bytes
  deriving DecidableEq, Repr

namespace OpenLog

/-- The file that has the name of the log. -/
def file (p : OpenLog) : Option Bytes := p.renamed.or p.log.file

/-- Append records, none of which fails: they go where the handle is open. -/
def appendAll (codec : Codec ι (WalRecord μ)) (ws : List (ι × WalRecord μ)) (p : OpenLog) :
    Except IoError OpenLog :=
  (p.log.appendAll codec ws).map fun log => { p with log }

end OpenLog

/-- A step that renames the temporary file. -/
def FileOp.isRename {β : Type} : FileOp β → Bool
  | .rename => true
  | _ => false

/-- The log after a rotation that failed at step `i`. The handle stays open on its file. -/
def failedRotation (ops : List (FileOp Byte)) (i : Nat) (log : WalLog) : OpenLog :=
  let left := (runOps (ops.take i) ⟨⟨log.bytes, 0⟩, none, none⟩).file.bytes
  if (ops.take i).any FileOp.isRename then
    match log.handle with
    | none => ⟨.reopen (some left), none⟩
    | some _ => ⟨log, some left⟩
  else ⟨log, none⟩

section FailedRotation

variable {codec : Codec ι (WalRecord μ)} {log : WalLog} {records : List (WalRecord μ)}
  {ws : List (ι × WalRecord μ)} {ops : List (FileOp Byte)} {nonce : Nat → ι} {c i kept : Nat}
  {p : OpenLog}

/-- Only the flush of the directory comes after the rename. -/
theorem failedRotation_replaceOps (body : Bytes) (log : WalLog)
    (hi : i < (replaceOps body).length) :
    (replaceOps body)[i]? ≠ some .syncDirectory ∧
      failedRotation (replaceOps body) i log = ⟨log, none⟩ ∨
    (replaceOps body)[i]? = some .syncDirectory ∧ failedRotation (replaceOps body) i log =
      match log.handle with
      | none => ⟨.reopen (some body), none⟩
      | some _ => ⟨log, some body⟩ := by
  match i with
  | 0 | 1 | 2 | 3 =>
    refine .inl ⟨by simp [replaceOps], ?_⟩
    simp [failedRotation, replaceOps, FileOp.isRename]
  | 4 =>
    refine .inr ⟨rfl, ?_⟩
    simp [failedRotation, replaceOps, FileOp.isRename, runOps, FileOp.run]
  | i + 5 => simp [replaceOps] at hi

theorem OpenLog.appendAll_eq_ok {p p' : OpenLog} (h : p.appendAll codec ws = .ok p') :
    p.log.appendAll codec ws = .ok p'.log ∧ p'.renamed = p.renamed := by
  obtain ⟨log, hlog, rfl⟩ := Except.map_eq_ok.1 h
  exact ⟨hlog, rfl⟩

/-- After a restart, the log reads as its records above the checkpoint, and those appended since. -/
def ReadsOn (codec : Codec ι (WalRecord μ)) (c : Nat) (records appended : List (WalRecord μ))
    (file : Option Bytes) : Prop :=
  ∃ old, readAll codec file = .ok (old ++ appended, .clean) ∧ rotate c old = rotate c records

/-- What is appended through a handle on the file under the name is read. -/
theorem Ready.readsOn {old : List (WalRecord μ)} {log' : WalLog} (h : Ready codec log old)
    (hold : rotate c old = rotate c records) (hnumbered : ∀ w ∈ ws, w.2.Numbered)
    (happend : log.appendAll codec ws = .ok log') :
    ReadsOn codec c records (ws.map Prod.snd) log'.file :=
  ⟨old, (h.appendAll hnumbered happend).read, hold⟩

theorem rotate_rotate (c : Nat) (records : List (WalRecord μ)) :
    rotate c (rotate c records) = rotate c records := by
  simp [rotate, List.filter_filter]

theorem readsOn_renamed {body : Bytes} {appended : List (WalRecord μ)}
    (hbody : readAll codec (some body) = .ok (rotate c records, .clean)) :
    ReadsOn codec c records appended (some body) ↔ appended = [] := by
  constructor
  · rintro ⟨old, hold, hkept⟩
    have hall : old ++ appended = rotate c records := by
      rw [hbody] at hold
      exact (congrArg Prod.fst (Except.ok.inj hold)).symm
    -- What has been appended is above the checkpoint, and nothing above it has been added.
    have hsplit : rotate c old ++ rotate c appended = rotate c old :=
      calc rotate c old ++ rotate c appended
          = rotate c (old ++ appended) := (List.filter_append ..).symm
        _ = rotate c (rotate c records) := by rw [hall]
        _ = rotate c old := by rw [rotate_rotate, hkept]
    have hnone : rotate c appended = [] := List.append_right_eq_self.1 hsplit
    by_contra hne
    obtain ⟨r, hr⟩ := List.exists_mem_of_ne_nil appended hne
    have hmem : r ∈ rotate c records := hall ▸ List.mem_append_right _ hr
    have hlive : r ∈ rotate c appended := List.mem_filter.2 ⟨hr, (List.mem_filter.1 hmem).2⟩
    rw [hnone] at hlive
    cases hlive
  · rintro rfl
    exact ⟨rotate c records, by rw [hbody, List.append_nil], rotate_rotate c records⟩

end FailedRotation

/-- A rotation of which a step fails loses nothing, whatever is appended later, just when the
    step is not the flush of the directory, or no handle was open, or nothing is appended. -/
theorem failed_rotation_keeps (codec : Codec ι (WalRecord μ)) (nonce : Nat → ι) (c kept i : Nat)
    (log : WalLog) (records : List (WalRecord μ)) (hready : Ready codec log records)
    (ops : List (FileOp Byte)) (hrotate : rotateOps codec nonce c log.file = .ok (kept, ops))
    (hi : i < ops.length) (ws : List (ι × WalRecord μ)) (hnumbered : ∀ w ∈ ws, w.2.Numbered)
    (p : OpenLog) (happend : (failedRotation ops i log).appendAll codec ws = .ok p) :
    ReadsOn codec c records (ws.map Prod.snd) p.file ↔
      ops[i]? ≠ some .syncDirectory ∨ log.handle = none ∨ ws = [] := by
  rcases hfile : log.file with _ | bytes
  · rw [hfile, rotateOps, if_pos rfl] at hrotate
    cases hrotate
    exact absurd hi (Nat.not_lt_zero i)
  rw [hfile] at hrotate
  obtain ⟨records', hread, -, ⟨rfl, -⟩ | ⟨body, rfl, hbody⟩⟩ := rotateOps_eq_ok hrotate
  · exact absurd hi (Nat.not_lt_zero i)
  have hrecords : records' = records := by
    have hsame := hready.read
    rw [hfile, hread] at hsame
    exact congrArg Prod.fst (Except.ok.inj hsame)
  subst hrecords
  obtain ⟨hlog, hrenamed⟩ := OpenLog.appendAll_eq_ok happend
  rcases failedRotation_replaceOps body log hi with ⟨hstep, hfailed⟩ | ⟨hstep, hfailed⟩
  · -- The name still stands for the old log, and so does the handle.
    rw [hfailed] at hlog hrenamed
    refine iff_of_true ?_ (.inl hstep)
    rw [OpenLog.file, hrenamed]
    exact hready.readsOn rfl hnumbered hlog
  · rcases hhandle : log.handle with _ | handle
    · rw [hfailed, hhandle] at hlog hrenamed
      refine iff_of_true ?_ (.inr (.inl rfl))
      rw [OpenLog.file, hrenamed]
      exact (ready_reopen hbody).readsOn (rotate_rotate c _) hnumbered hlog
    rw [hfailed, hhandle] at hrenamed
    have hname : p.file = some body := by rw [OpenLog.file, hrenamed, Option.some_or]
    rw [hname, readsOn_renamed hbody, List.map_eq_nil_iff]
    constructor
    · exact fun h => .inr (.inr h)
    · rintro (h | h | h)
      · exact absurd hstep h
      · cases h
      · exact h

/-- The log of a process that has written the two records itself. -/
def rotatingLog : WalLog := ⟨some rotatedFile, some ⟨false⟩⟩

theorem rotatingLog_ready : Ready sampleCodec rotatingLog [sampleRecord 1, sampleRecord 2] := by
  have hbytes : rotatingLog.bytes ++ rotatingLog.separator = rotatedFile :=
    List.append_nil rotatedFile
  rw [Ready, hbytes]
  refine ended_joinLines ?_ ?_
  · simp [WalRecord.Numbered, sampleRecord]
  · exact List.forall_mem_cons.2 ⟨⟨_, rfl⟩, List.forall_mem_singleton.2 ⟨_, rfl⟩⟩

/-- Its rotation under the checkpoint 1. -/
theorem rotateOps_rotatingLog : ∃ body,
    rotateOps sampleCodec (fun _ => ()) 1 rotatingLog.file = .ok (1, replaceOps body) ∧
      readAll sampleCodec (some body) = .ok ([sampleRecord 2], .clean) := by
  have hread : readAll sampleCodec (some rotatedFile) = _ := rotatingLog_ready.read
  obtain ⟨text, htext⟩ : ∃ text, encodeFrame sampleCodec () (sampleRecord 2) = .ok text := ⟨_, rfl⟩
  have hkept : rotate 1 [sampleRecord 1, sampleRecord 2] = [sampleRecord 2] := rfl
  have hbody : encodeLines sampleCodec [((), sampleRecord 2)] =
      .ok (asBytes text ++ [newline] ++ []) := by
    simp [encodeLines, htext, Except.map]
  refine ⟨asBytes text ++ [newline] ++ [], ?_, readAll_encodeLines hbody ?_⟩
  · simp [rotatingLog, rotateOps, hread, hkept, withNonces, encodeLines, htext, Except.map]
  · simp [WalRecord.Numbered, sampleRecord]

/-- A third record is appended to it after the rename has failed. -/
theorem failed_rotation_keeps_rename : ∃ ops p,
    (failedRotation ops 3 rotatingLog).appendAll sampleCodec [((), sampleRecord 3)] = .ok p ∧
      ReadsOn sampleCodec 1 [sampleRecord 1, sampleRecord 2] [sampleRecord 3] p.file := by
  obtain ⟨body, hrotate, -⟩ := rotateOps_rotatingLog
  obtain ⟨p, hp⟩ : ∃ p, (failedRotation (replaceOps body) 3 rotatingLog).appendAll sampleCodec
    [((), sampleRecord 3)] = .ok p := ⟨_, rfl⟩
  have hkeeps := failed_rotation_keeps sampleCodec (fun _ => ()) 1 1 3 rotatingLog _
    rotatingLog_ready _ hrotate (by simp [replaceOps]) [((), sampleRecord 3)]
    (by simp [WalRecord.Numbered, sampleRecord]) p hp
  exact ⟨_, p, hp, hkeeps.2 (.inl (by simp [replaceOps]))⟩

/-- A third record is appended to it after the flush of the directory has failed: after a restart
    it is gone. -/
theorem failed_rotation_loses : ¬ ∀ (log : WalLog) (records : List (WalRecord Unit))
    (ops : List (FileOp Byte)) (c kept i : Nat) (ws : List (Unit × WalRecord Unit)) (p : OpenLog),
    Ready sampleCodec log records →
    rotateOps sampleCodec (fun _ => ()) c log.file = .ok (kept, ops) →
    i < ops.length → (∀ w ∈ ws, w.2.Numbered) →
    (failedRotation ops i log).appendAll sampleCodec ws = .ok p →
    ReadsOn sampleCodec c records (ws.map Prod.snd) p.file := by
  intro hall
  obtain ⟨body, hrotate, hbody⟩ := rotateOps_rotatingLog
  obtain ⟨p, hp⟩ : ∃ p, (failedRotation (replaceOps body) 4 rotatingLog).appendAll sampleCodec
    [((), sampleRecord 3)] = .ok p := ⟨_, rfl⟩
  have hlost := hall rotatingLog _ _ 1 1 4 [((), sampleRecord 3)] p rotatingLog_ready hrotate
    (by simp [replaceOps]) (by simp [WalRecord.Numbered, sampleRecord]) hp
  obtain ⟨-, hrenamed⟩ := OpenLog.appendAll_eq_ok hp
  have hname : p.file = some body := by
    rw [OpenLog.file, hrenamed]
    simp [failedRotation, rotatingLog, replaceOps, FileOp.isRename, runOps, FileOp.run]
  have hkept : rotate 1 [sampleRecord 1, sampleRecord 2] = [sampleRecord 2] := rfl
  rw [← hkept] at hbody
  rw [hname, readsOn_renamed hbody] at hlost
  cases hlost

end FacetQL
