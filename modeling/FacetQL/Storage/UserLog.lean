import FacetQL.Lib.Fallible
import FacetQL.Lib.Replace
import FacetQL.Storage.RecordLog
import FacetQL.Storage.Users

/-!
# The log of users, in bytes

`load`, `compact_user_log` and the operations on users of `storage/engine.rs`, with
`rewrite_records` of `storage/binary.rs`. A log that has grown far past the users in the
table is replaced by one record for each of them.

* `compaction_preserves_users`: a log is read as the same table at every step of it.
-/

namespace FacetQL

open RecordLog

variable {ι : Type}

/-- The bytes of the log, the table, and the number of records in the log. -/
structure UserLog where
  file : Bytes
  users : UserTable
  userLogRecords : Nat

/-- The contents that `rewrite_records` writes. -/
def RecordLog.encodeRecords {α : Type} (codec : Codec ι α) : List (ι × α) → Except IoError Bytes
  | [] => .ok []
  | (nonce, record) :: records =>
    match frameRecord codec nonce record with
    | .error e => .error e
    | .ok frame => (encodeRecords codec records).map (frame ++ ·)

namespace UserLog

variable (codec : Codec ι UserOpRecord) (path : String)

/-- Read the log at the start of a process. -/
def load (file : Bytes) : Except IoError UserLog :=
  (readAllRecords codec path (some file)).map fun log =>
    ⟨file, loadUsers (log.map Prod.snd), log.length⟩

/-- Apply an operation. One whose record cannot be written changes nothing. -/
def applyOperation (s : UserLog) (nonce : ι) (op : UserOpRecord) : Except IoError Unit × UserLog :=
  match appendRecord codec nonce op (some s.file) with
  | (.error e, _) => (.error e, s)
  | (.ok _, file) => (.ok (), ⟨file.getD [], op.apply s.users, s.userLogRecords + 1⟩)

/-- The answers of a list of calls, and what they leave. -/
def applyAll : List (ι × UserOpRecord) → UserLog → List (Except IoError Unit) × UserLog
  | [], s => ([], s)
  | (nonce, op) :: calls, s =>
    let (answer, s) := s.applyOperation codec nonce op
    let (answers, s) := applyAll calls s
    (answer :: answers, s)

/-- The steps of `compact_user_log`, and what it leaves. The users come in any order. -/
def compactUserLog (s : UserLog) (live : List (ι × UserRecord)) :
    Except IoError (List (FileOp Byte) × UserLog) :=
  if s.userLogRecords ≤ max (live.length * 4) 64 then .ok ([], s)
  else
    (encodeRecords codec (live.map fun (nonce, user) => (nonce, .put user))).map fun body =>
      (replaceOps body, { s with file := body, userLogRecords := live.length })

/-- The table is what a process that starts now rebuilds. -/
def Loads (s : UserLog) : Prop := ∃ n, load codec path s.file = .ok { s with userLogRecords := n }

/-- The table is what the log is read as, which ends with a whole record. -/
def Clean (s : UserLog) : Prop :=
  ∃ pairs, readAllRecordsFramed codec path (some s.file) = .ok (pairs, .clean) ∧
    s.users = loadUsers (pairs.map Prod.snd)

end UserLog

/-! ## Reading a log that has been appended to -/

namespace RecordLog

variable {α : Type} {codec : Codec ι α} {path : String}

theorem readOneFrame_append {offset consumed : Nat} {rest payload : Bytes}
    (h : readOneFrame offset rest = .record payload consumed) (more : Bytes) :
    readOneFrame offset (rest ++ more) = .record payload consumed ∧ consumed ≤ rest.length := by
  unfold readOneFrame at h ⊢
  dsimp only at h ⊢
  split_ifs at h with hshort hmagic hversion hlong htorn hcrc
  cases h
  have hheader : (rest ++ more).take frameHeaderLen = rest.take frameHeaderLen :=
    List.take_append_of_le_length (not_lt.1 hshort)
  have hdrop : (rest ++ more).drop frameHeaderLen = rest.drop frameHeaderLen ++ more :=
    List.drop_append_of_le_length (not_lt.1 hshort)
  rw [hheader, hdrop, List.take_append_of_le_length (by rw [List.length_drop]; omega),
    List.length_append, if_neg (by omega), if_neg hmagic, if_neg hversion, if_neg hlong,
    if_neg (by omega), if_neg hcrc]
  exact ⟨rfl, by omega⟩

/-- What follows a log with a clean tail is read after it. -/
theorem readFrames_append {offset : Nat} {bytes : Bytes} {pairs : List (Nat × α)}
    (h : readFrames codec path offset bytes = .ok (pairs, .clean)) (rest : Bytes) :
    readFrames codec path offset (bytes ++ rest) =
      (readFrames codec path (offset + bytes.length) rest).map fun r => (pairs ++ r.1, r.2) := by
  fun_induction readFrames codec path offset bytes generalizing pairs with
  | case1 offset =>
    cases h
    change readFrames codec path offset rest = (readFrames codec path offset rest).map id
    cases readFrames codec path offset rest <;> rfl
  | case4 offset bytes hne payload consumed hframe decrypted hdecrypt record hrecord ih =>
    obtain ⟨hone, hle⟩ := readOneFrame_append hframe rest
    rcases hread : readFrames codec path (offset + consumed) (bytes.drop consumed) with e | ⟨xs, tail⟩
    · rw [hread] at h
      cases h
    rw [hread] at h
    cases h
    rw [readFrames_record hone hdecrypt hrecord, List.drop_append_of_le_length hle, ih hread]
    have hlength : offset + consumed + (bytes.drop consumed).length = offset + bytes.length := by
      rw [List.length_drop]
      omega
    rw [hlength]
    cases readFrames codec path (offset + bytes.length) rest <;> rfl
  | _ => simp at h

theorem encodeRecords_eq_ok {records : List (ι × α)} {body : Bytes}
    (h : encodeRecords codec records = .ok body) :
    ∃ frames, Frames codec frames (records.map Prod.snd) ∧ body = frames.flatten := by
  induction records generalizing body with
  | nil =>
    cases h
    exact ⟨[], .nil, rfl⟩
  | cons x records ih =>
    obtain ⟨nonce, record⟩ := x
    rw [encodeRecords] at h
    rcases hframe : frameRecord codec nonce record with e | frame
    · simp [hframe] at h
    rw [hframe] at h
    obtain ⟨rest, hrest, rfl⟩ := Except.map_eq_ok.1 h
    obtain ⟨frames, hframes, rfl⟩ := ih hrest
    exact ⟨frame :: frames, .cons ⟨nonce, hframe⟩ hframes, rfl⟩

theorem Frames.read {frames : List Bytes} {records : List α} (h : Frames codec frames records)
    (path : String) : ∃ pairs : List (Nat × α), pairs.map Prod.snd = records ∧
      readAllRecordsFramed codec path (some frames.flatten) = .ok (pairs, .clean) := by
  obtain ⟨pairs, hpairs, hread⟩ := readFrames_frames h path 0 []
  refine ⟨pairs, hpairs, ?_⟩
  rw [readFrames_nil, List.append_nil] at hread
  rw [readAllRecordsFramed, hread]
  simp [Except.map]

end RecordLog

namespace UserLog

variable {codec : Codec ι UserOpRecord} {path : String} {s s' : UserLog}

theorem Clean.loads (h : s.Clean codec path) : s.Loads codec path := by
  obtain ⟨pairs, hread, husers⟩ := h
  refine ⟨pairs.length, ?_⟩
  rw [load, readAllRecords, hread, husers]
  rfl

theorem Loads.keyed (h : s.Loads codec path) :
    ∀ hash user, s.users hash = some user → user.tokenHash = hash := by
  obtain ⟨n, hload⟩ := h
  rcases hread : readAllRecords codec path (some s.file) with e | pairs
  · rw [load, hread] at hload
    cases hload
  rw [load, hread] at hload
  have husers : loadUsers (pairs.map Prod.snd) = s.users := congrArg users (Except.ok.inj hload)
  rw [← husers]
  generalize pairs.map Prod.snd = records
  induction records using List.reverseRecOn with
  | nil => exact nofun
  | append_singleton records op ih =>
    rw [UserStore.loadUsers_concat]
    exact UserStore.keyed_apply ih

theorem Clean.apply (h : s.Clean codec path) (nonce : ι) (op : UserOpRecord) :
    (s.applyOperation codec nonce op).2.Clean codec path := by
  obtain ⟨pairs, hread, husers⟩ := h
  rw [applyOperation]
  rcases hframe : frameRecord codec nonce op with e | frame
  · simp only [appendRecord, hframe]
    exact ⟨pairs, hread, husers⟩
  rw [appendRecord_of_frame hframe]
  have hlast := readFrames_frame hframe path (0 + s.file.length) []
  rw [readFrames_nil, List.append_nil] at hlast
  refine ⟨pairs ++ [(0 + s.file.length, op)], ?_, ?_⟩
  · exact (readFrames_append hread frame).trans (by rw [hlast]; rfl)
  · rw [List.map_append, List.map_singleton, UserStore.loadUsers_concat, ← husers]

theorem Clean.applyAll (h : s.Clean codec path) (calls : List (ι × UserOpRecord)) :
    (UserLog.applyAll codec calls s).2.Clean codec path := by
  induction calls generalizing s with
  | nil => exact h
  | cons call calls ih => exact ih (h.apply call.1 call.2)

/-- A call does not look at what the log holds. -/
theorem applyAll_congr (husers : s'.users = s.users) (calls : List (ι × UserOpRecord)) :
    (applyAll codec calls s').1 = (applyAll codec calls s).1 ∧
      (applyAll codec calls s').2.users = (applyAll codec calls s).2.users := by
  induction calls generalizing s s' with
  | nil => exact ⟨rfl, husers⟩
  | cons call calls ih =>
    obtain ⟨nonce, op⟩ := call
    have hstep : (s'.applyOperation codec nonce op).1 = (s.applyOperation codec nonce op).1 ∧
        (s'.applyOperation codec nonce op).2.users = (s.applyOperation codec nonce op).2.users := by
      rw [applyOperation, applyOperation]
      rcases hframe : frameRecord codec nonce op with e | frame
      · simp only [appendRecord, hframe]
        exact ⟨trivial, husers⟩
      · rw [appendRecord_of_frame hframe, appendRecord_of_frame hframe]
        exact ⟨rfl, congrArg op.apply husers⟩
    obtain ⟨hanswers, hafter⟩ := ih hstep.2
    exact ⟨congrArg₂ List.cons hstep.1 hanswers, hafter⟩

/-- Rewriting the log changes neither the table, nor what the log is read as, nor what later
    calls do; and a crash at any step of it leaves a log that is read as the same table. -/
theorem compaction_preserves_users {live : List (ι × UserRecord)} {ops : List (FileOp Byte)}
    (hload : s.Loads codec path)
    (hlive : ∀ user, user ∈ live.map Prod.snd ↔ ∃ hash, s.users hash = some user)
    (hcompact : s.compactUserLog codec live = .ok (ops, s')) :
    (runOps ops ⟨⟨s.file, s.file.length⟩, none, none⟩).file.bytes = s'.file ∧
      s'.users = s.users ∧ s'.Loads codec path ∧
      (∀ d left, Reaches ops ⟨⟨s.file, s.file.length⟩, none, none⟩ d → d.Survives left →
        Loads codec path { s with file := left }) ∧
      ∀ calls, (applyAll codec calls s').1 = (applyAll codec calls s).1 ∧
        (applyAll codec calls s').2.users = (applyAll codec calls s).2.users ∧
        (s.Clean codec path ∨ s' ≠ s → (applyAll codec calls s').2.Loads codec path) ∧
        (s.Clean codec path → (applyAll codec calls s).2.Loads codec path) := by
  rw [compactUserLog] at hcompact
  split_ifs at hcompact with hfew
  · cases hcompact
    refine ⟨rfl, rfl, hload, fun d left hreach hleft => ?_, fun calls => ⟨rfl, rfl, ?_, ?_⟩⟩
    · cases hreach
      rcases hleft with h | ⟨_, h, -⟩
      · exact h.eq le_rfl ▸ hload
      · cases h
    · rintro (h | h)
      · exact (h.applyAll calls).loads
      · exact absurd rfl h
    · exact fun h => (h.applyAll calls).loads
  rcases hbody : encodeRecords codec (live.map fun x => (x.1, .put x.2)) with e | body
  · rw [hbody] at hcompact
    cases hcompact
  rw [hbody] at hcompact
  cases hcompact
  obtain ⟨frames, hframes, rfl⟩ := encodeRecords_eq_ok hbody
  obtain ⟨pairs, hpairs, hread⟩ := hframes.read path
  have husers : s.users = loadUsers (pairs.map Prod.snd) := by
    rw [hpairs, List.map_map, ← UserStore.loadUsers_live hload.keyed hlive, List.map_map]
    rfl
  have hclean (n : Nat) : Clean codec path ⟨frames.flatten, s.users, n⟩ := ⟨pairs, hread, husers⟩
  refine ⟨by rw [replace_run], rfl, (hclean _).loads, fun d left hreach hleft => ?_, fun calls => ?_⟩
  · rcases replace_crash hreach hleft with h | rfl
    · exact h.eq le_rfl ▸ hload
    · exact (hclean _).loads
  · have hsame : (⟨frames.flatten, s.users, live.length⟩ : UserLog).users = s.users := rfl
    exact ⟨(applyAll_congr hsame calls).1, (applyAll_congr hsame calls).2,
      fun _ => ((hclean _).applyAll calls).loads, fun h => (h.applyAll calls).loads⟩

def alice : UserRecord := ⟨"a", "alice", .user⟩

/-- The bytes of a text, behind their number. -/
def textBytes (text : String) : Bytes :=
  leBytes 8 (asBytes text.toList).length ++ asBytes text.toList

def readText (bytes : Bytes) : Option (String × Bytes) :=
  let n := ofLeBytes (bytes.take 8)
  (fromUtf8 ((bytes.drop 8).take n)).map fun text => (String.ofList text, (bytes.drop 8).drop n)

/-- The number of bytes of a text fits in the eight bytes before them. -/
abbrev Fits (text : String) : Prop := (asBytes text.toList).length < 256 ^ 8

theorem readText_textBytes {text : String} (h : Fits text) (rest : Bytes) :
    readText (textBytes text ++ rest) = some (text, rest) := by
  have hdrop : (textBytes text ++ rest).drop 8 = asBytes text.toList ++ rest := by
    rw [textBytes, List.append_assoc, List.drop_left' (length_leBytes 8 _)]
  have hcount : ofLeBytes ((textBytes text ++ rest).take 8) = (asBytes text.toList).length := by
    rw [textBytes, List.append_assoc, List.take_left' (length_leBytes 8 _), ofLeBytes_leBytes h]
  rw [readText, hcount, hdrop]
  simp [fromUtf8_asBytes]

/-- An operation on the users as a tag and its texts. -/
def userBytes : UserOpRecord → Except String Bytes
  | .put user =>
    if Fits user.tokenHash ∧ Fits user.owner then
      .ok ((if user.role = .admin then 1 else 0) :: (textBytes user.tokenHash ++ textBytes user.owner))
    else .error "a text does not fit"
  | .revoke tokenHash =>
    if Fits tokenHash then .ok (2 :: textBytes tokenHash) else .error "a text does not fit"

def userOfBytes : Bytes → Except String UserOpRecord
  | [] => .error "no tag"
  | tag :: bytes =>
    match readText bytes with
    | none => .error "no text"
    | some (tokenHash, bytes) =>
      if tag = 2 then .ok (.revoke tokenHash)
      else
        match readText bytes with
        | none => .error "no text"
        | some (owner, _) => .ok (.put ⟨tokenHash, owner, if tag = 1 then .admin else .user⟩)

theorem userOfBytes_userBytes (op : UserOpRecord) (bytes : Bytes) (h : userBytes op = .ok bytes) :
    userOfBytes bytes = .ok op := by
  cases op with
  | put user =>
    obtain ⟨tokenHash, owner, role⟩ := user
    rw [userBytes] at h
    split_ifs at h with hfits hrole <;> cases h
    · have hadmin : role = .admin := hrole
      have howner := readText_textBytes hfits.2 []
      rw [List.append_nil] at howner
      simp [userOfBytes, readText_textBytes hfits.1, howner, hadmin]
    · have huser : role = .user := by cases role <;> simp_all
      have howner := readText_textBytes hfits.2 []
      rw [List.append_nil] at howner
      simp [userOfBytes, readText_textBytes hfits.1, howner, huser]
  | revoke tokenHash =>
    rw [userBytes] at h
    split_ifs at h with hfits
    cases h
    have htext := readText_textBytes hfits []
    rw [List.append_nil] at htext
    simp [userOfBytes, htext]

/-- The operations on users, without a cipher. -/
def userCodec : Codec Unit UserOpRecord := .plain userBytes userOfBytes userOfBytes_userBytes

def aliceFrame : Bytes := plainFrame (0 :: (textBytes "a" ++ textBytes "alice"))

theorem frameRecord_alice : frameRecord userCodec () (.put alice) = .ok aliceFrame := by
  refine frameRecord_eq_ok.2 ⟨_, ?_, by decide +kernel, rfl⟩
  have hfits : Fits alice.tokenHash ∧ Fits alice.owner := by decide +kernel
  change userBytes (.put alice) = _
  rw [userBytes, if_pos hfits]
  rfl

/-- A log in which the same user has been written often. -/
def longLog : UserLog :=
  ⟨(List.replicate 65 aliceFrame).flatten, (UserOpRecord.put alice).apply fun _ => none, 65⟩

theorem compaction_preserves_users_long :
    longLog.compactUserLog userCodec [((), alice)] =
        .ok (replaceOps aliceFrame, { longLog with file := aliceFrame, userLogRecords := 1 }) ∧
      Loads userCodec "facetql.users"
        { longLog with file := aliceFrame, userLogRecords := 1 } := by
  have hframes (n : Nat) : Frames userCodec (List.replicate n aliceFrame)
      (List.replicate n (.put alice)) := by
    induction n with
    | zero => exact .nil
    | succ n ih => exact .cons ⟨(), frameRecord_alice⟩ ih
  have husers (n : Nat) : loadUsers (List.replicate (n + 1) (.put alice)) = longLog.users := by
    induction n with
    | zero => rfl
    | succ n ih =>
      rw [List.replicate_succ', UserStore.loadUsers_concat, ih]
      exact Function.update_idem _ _ _
  obtain ⟨pairs, hpairs, hread⟩ := (hframes 65).read "facetql.users"
  have hload : longLog.Loads userCodec "facetql.users" :=
    Clean.loads ⟨pairs, hread, by rw [hpairs, husers]⟩
  have hlive : ∀ user, user ∈ [((), alice)].map Prod.snd ↔
      ∃ hash, longLog.users hash = some user := by
    intro user
    simp [longLog, UserOpRecord.apply, Function.update_apply, eq_comm]
  have hcompact : longLog.compactUserLog userCodec [((), alice)] =
      .ok (replaceOps aliceFrame,
        { longLog with file := aliceFrame, userLogRecords := 1 }) := by
    simp only [compactUserLog, longLog, List.map_cons, List.map_nil, encodeRecords, frameRecord_alice]
    rfl
  exact ⟨hcompact, (compaction_preserves_users hload hlive hcompact).2.2.1⟩

end UserLog

end FacetQL
