import FacetQL.Storage.WalFile

/-!
# Torn tails

What is left of the file of the log when a process ends while it writes, and when a
write fails and the process goes on.

* `torn_tail_law`: what every beginning of a written file reads as;
* `append_failure_harmless`: when failed writes are harmless.
-/

namespace FacetQL

variable {μ ι : Type}

section Cuts

variable {codec : Codec ι (WalRecord μ)} {records : List (WalRecord μ)} {bytes : Bytes}
  {log log' : WalLog}

/-! ## The lines of a log that is written from its beginning -/

/-- The line of a record, without its newline. -/
def lineBytes (codec : Codec ι (WalRecord μ)) (w : ι × WalRecord μ) : Bytes :=
  match encodeFrame codec w.1 w.2 with
  | .ok text => asBytes text
  | .error _ => []

/-- Where a line starts. -/
def lineStart (lines : List Bytes) (i : Nat) : Nat := (joinLines (lines.take i)).length

variable {ws : List (ι × WalRecord μ)} {lines : List Bytes} {i : Nat}

theorem appendAll_eq_ok (hsep : log.withHandle.needsSeparator = false)
    (h : log.appendAll codec ws = .ok log') :
    log'.bytes = log.bytes ++ joinLines (ws.map (lineBytes codec)) ∧
      ∀ w ∈ ws, ∃ text, encodeFrame codec w.1 w.2 = .ok text := by
  induction ws generalizing log with
  | nil =>
    cases h
    simp
  | cons w ws ih =>
    obtain ⟨nonce, record⟩ := w
    rw [WalLog.appendAll, WalLog.append] at h
    rcases hencode : encodeFrame codec nonce record with e | text
    · simp [hencode] at h
    simp only [hencode, WalLog.writeLine] at h
    obtain ⟨hbytes, htexts⟩ := ih rfl h
    refine ⟨?_, List.forall_mem_cons.2 ⟨⟨text, hencode⟩, htexts⟩⟩
    rw [hbytes]
    simp [WalLog.bytes, WalHandle.line, hsep, lineBytes, hencode, joinLines]

theorem lineStart_succ {line : Bytes} (h : lines[i]? = some line) :
    lineStart lines (i + 1) = lineStart lines i + line.length + 1 := by
  rw [lineStart, List.take_add_one, h, joinLines_append, List.length_append]
  simp [joinLines, lineStart, Nat.add_assoc]

theorem lineStart_mono (lines : List Bytes) {j : Nat} (hij : i ≤ j) :
    lineStart lines i ≤ lineStart lines j := by
  rw [lineStart, lineStart, ← Nat.add_sub_of_le hij, List.take_add, joinLines_append, List.length_append]
  exact Nat.le_add_right _ _

theorem isPrefix_joinLines {cut : Bytes} (h : cut <+: joinLines lines) :
    ∃ k ≤ lines.length, ∃ part, cut = joinLines (lines.take k) ++ part ∧
      (part = [] ∨ ∃ line, lines[k]? = some line ∧ part <+: line) := by
  induction lines generalizing cut with
  | nil => exact ⟨0, le_rfl, [], by simpa using h, .inl rfl⟩
  | cons line lines ih =>
    have hjoin : joinLines (line :: lines) = (line ++ [newline]) ++ joinLines lines := rfl
    rw [hjoin] at h
    rcases List.prefix_or_prefix_of_prefix h (List.prefix_append _ _) with hcut | ⟨cut, rfl⟩
    · rcases List.prefix_concat_iff.1 hcut with rfl | hcut
      · exact ⟨1, by simp, [], by simp [joinLines], .inl rfl⟩
      · exact ⟨0, Nat.zero_le _, cut, rfl, .inr ⟨line, rfl, hcut⟩⟩
    · obtain ⟨k, hk, part, rfl, hpart⟩ := ih ((List.prefix_append_right_inj _).1 h)
      refine ⟨k + 1, by simpa using hk, part, ?_, by simpa using hpart⟩
      simp [joinLines]

/-- A beginning of a file: `k` whole lines, and a cut one. -/
theorem lt_iff_lineStart_le {k n : Nat} {line : Bytes} (hk : lineStart lines k ≤ n + 1)
    (hnext : ∀ next, lines[k]? = some next → n < lineStart lines k + next.length)
    (hi : lines[i]? = some line) : i < k ↔ lineStart lines i + line.length ≤ n := by
  constructor
  · intro hik
    have := lineStart_mono lines (Nat.succ_le_of_lt hik)
    rw [Nat.succ_eq_add_one, lineStart_succ hi] at this
    omega
  intro hle
  by_contra hki
  rcases Nat.eq_or_lt_of_le (not_lt.1 hki) with rfl | hki
  · exact absurd hle (not_le.2 (hnext line hi))
  obtain ⟨next, hget⟩ : ∃ next, lines[k]? = some next :=
    ⟨_, List.getElem?_eq_getElem (hki.trans (List.getElem?_eq_some_iff.1 hi).1)⟩
  have := lineStart_mono lines (Nat.succ_le_of_lt hki)
  rw [Nat.succ_eq_add_one, lineStart_succ hget] at this
  have := hnext next hget
  omega

/-- The lines of records that were written read as the records. -/
theorem ended_joinLines (hnumbered : ∀ w ∈ ws, w.2.Numbered)
    (htexts : ∀ w ∈ ws, ∃ text, encodeFrame codec w.1 w.2 = .ok text) :
    Ended codec (joinLines (ws.map (lineBytes codec))) (ws.map Prod.snd) := by
  induction ws using List.reverseRecOn with
  | nil => exact Ended.nil
  | append_singleton ws w ih =>
    obtain ⟨text, htext⟩ := htexts w (by simp)
    have hline := (ih (fun v hv => hnumbered v (List.mem_append_left _ hv))
      fun v hv => htexts v (List.mem_append_left _ hv)).line htext (hnumbered w (by simp))
    have hbytes : lineBytes codec w = asBytes text := by simp [lineBytes, htext]
    rw [List.map_append, List.map_append, joinLines_append, List.map_singleton, joinLines_singleton,
      hbytes]
    exact hline

theorem ready_truncate {part : Bytes} (h : Ended codec bytes records) (detail : String) :
    Ready codec ((WalLog.reopen (some (bytes ++ part))).repair (.torn bytes.length detail)) records := by
  have hfile : (WalLog.reopen (some (bytes ++ part))).repair (.torn bytes.length detail) =
      WalLog.reopen (some bytes) := by
    simp [WalLog.repair, WalLog.truncateTornTail, WalLog.reopen]
  rw [hfile]
  exact ready_reopen h.read

/-- What a beginning of a written file reads as, and the log after the repair. -/
theorem read_cut (hnumbered : ∀ w ∈ ws, w.2.Numbered)
    (htexts : ∀ w ∈ ws, ∃ text, encodeFrame codec w.1 w.2 = .ok text)
    (hlines : lines = ws.map (lineBytes codec)) {cut : Bytes} (hcut : cut <+: joinLines lines) :
    ∃ k tail, readAll codec (some cut) = .ok ((ws.map Prod.snd).take k, tail) ∧
      (∀ i line, lines[i]? = some line → (i < k ↔ lineStart lines i + line.length ≤ cut.length)) ∧
      (tail = .clean ∧ cut.length ≤ lineStart lines k ∨
        lineStart lines k < cut.length ∧ ∃ detail, tail = .torn (lineStart lines k) detail) ∧
      Ready codec ((WalLog.reopen (some cut)).repair tail) ((ws.map Prod.snd).take k) := by
  have hline : ∀ (k : Nat) line, lines[k]? = some line → ∃ w ∈ ws, ws[k]? = some w ∧ ∃ text,
      encodeFrame codec w.1 w.2 = .ok text ∧ line = asBytes text := by
    intro k line hk
    rw [hlines, List.getElem?_map, Option.map_eq_some_iff] at hk
    obtain ⟨w, hw, rfl⟩ := hk
    obtain ⟨text, htext⟩ := htexts w (List.mem_of_getElem? hw)
    exact ⟨w, List.mem_of_getElem? hw, hw, text, htext, by simp [lineBytes, htext]⟩
  obtain ⟨k, -, part, rfl, hpart⟩ := isPrefix_joinLines hcut
  have hended : Ended codec (joinLines (lines.take k)) ((ws.map Prod.snd).take k) := by
    rw [hlines, ← List.map_take, ← List.map_take]
    exact ended_joinLines (fun w hw => hnumbered w (List.mem_of_mem_take hw))
      fun w hw => htexts w (List.mem_of_mem_take hw)
  have hlength : (joinLines (lines.take k) ++ part).length = lineStart lines k + part.length :=
    List.length_append
  by_cases hnil : part = []
  · -- The file was cut after a newline.
    subst hnil
    rw [List.append_nil] at hlength ⊢
    refine ⟨k, .clean, hended.read, fun i line hi => lt_iff_lineStart_le (by omega) ?_ hi,
      .inl ⟨rfl, hlength.le⟩, ready_reopen hended.read⟩
    intro next hnext
    obtain ⟨w, -, -, text, htext, rfl⟩ := hline k next hnext
    have := List.length_pos_of_ne_nil (encodeFrame_ne_nil htext)
    rw [hlength, length_asBytes (isHexDigit_encodeFrame htext)]
    simpa using this
  · obtain ⟨line, hget, hpre⟩ := hpart.resolve_left hnil
    obtain ⟨w, hmem, hw, text, htext, rfl⟩ := hline k line hget
    have hle := hpre.length_le
    rcases Nat.eq_or_lt_of_le hle with hwhole | hshort
    · -- Only the newline of the line is missing.
      obtain rfl := hpre.eq_of_length hwhole
      have hread := hended.read_text htext (hnumbered w hmem)
      have htake : (ws.map Prod.snd).take (k + 1) = (ws.map Prod.snd).take k ++ [w.2] := by
        simp [List.take_add_one, hw]
      rw [← htake] at hread
      have hsucc := lineStart_succ hget
      refine ⟨k + 1, .clean, hread, fun i line hi => lt_iff_lineStart_le (by omega) ?_ hi,
        .inl ⟨rfl, by omega⟩, ready_reopen hread⟩
      intro next _
      omega
    · -- The line is cut.
      have htake : part = (asBytes text).take part.length := List.prefix_iff_eq_take.1 hpre
      have hpos : part.length ≠ 0 := fun h => hnil (List.length_eq_zero_iff.1 h)
      obtain ⟨detail, hread⟩ := hended.read_take htext hpos
        (by rwa [length_asBytes (isHexDigit_encodeFrame htext)] at hshort)
      rw [← htake] at hread
      refine ⟨k, _, hread, fun i line hi => lt_iff_lineStart_le (by omega) ?_ hi,
        .inr ⟨by omega, detail, rfl⟩, ready_truncate hended detail⟩
      intro next hnext
      rw [hget, Option.some.injEq] at hnext
      rw [hlength, ← hnext]
      omega

end Cuts

/-- Every beginning of a file that was written with `append` reads as the records whose
    whole line is in it, and ends cleanly or in a torn line that starts where it says. No
    cut of a line is taken for a record or for damage. After the repair of the tail, what
    is appended is read after the records that were left. -/
theorem torn_tail_law (codec : Codec ι (WalRecord μ)) (ws : List (ι × WalRecord μ))
    (hnumbered : ∀ w ∈ ws, w.2.Numbered) (log : WalLog)
    (hwritten : (WalLog.reopen none).appendAll codec ws = .ok log) :
    (∀ cut, cut <+: log.bytes → ∃ k tail,
      readAll codec (some cut) = .ok ((ws.map Prod.snd).take k, tail) ∧
      (∀ i line, (ws.map (lineBytes codec))[i]? = some line →
        (i < k ↔ lineStart (ws.map (lineBytes codec)) i + line.length ≤ cut.length)) ∧
      (tail = .clean ∧ cut.length ≤ lineStart (ws.map (lineBytes codec)) k ∨
        lineStart (ws.map (lineBytes codec)) k < cut.length ∧
          ∃ detail, tail = .torn (lineStart (ws.map (lineBytes codec)) k) detail) ∧
      ∀ more log', (∀ w ∈ more, w.2.Numbered) →
        ((WalLog.reopen (some cut)).repair tail).appendAll codec more = .ok log' →
        readAll codec log'.file = .ok ((ws.map Prod.snd).take k ++ more.map Prod.snd, .clean)) ∧
    ∀ nonce record text part, encodeFrame codec nonce record = .ok text → part <+: text →
      part ≠ [] → part ≠ text → ∃ detail, decodeFrame codec part = .torn detail := by
  obtain ⟨hbytes, htexts⟩ := appendAll_eq_ok rfl hwritten
  constructor
  · intro cut hcut
    rw [hbytes] at hcut
    obtain ⟨k, tail, hread, hwhole, htail, hready⟩ := read_cut hnumbered htexts rfl hcut
    refine ⟨k, tail, hread, hwhole, htail, fun more log' hmore happend => ?_⟩
    exact (hready.appendAll hmore happend).read
  · intro nonce record text part hencode hpre _ hne
    rw [List.prefix_iff_eq_take.1 hpre]
    refine decodeFrame_take hencode (lt_of_le_of_ne hpre.length_le fun h => ?_)
    exact hne (hpre.eq_of_length h)

/-- A record that fits the codec for records of a few bytes. -/
def sampleRecord (n : Nat) : WalRecord Unit :=
  ⟨walFormatVersion, n, standaloneTransactionId, n, .mutation ()⟩

/-- Two records, and the file cut in the second line. -/
theorem torn_tail_law_second_line :
    (∀ w ∈ [((), sampleRecord 1), ((), sampleRecord 2)], w.2.Numbered) ∧
      ∃ log, (WalLog.reopen none).appendAll sampleCodec [((), sampleRecord 1), ((), sampleRecord 2)] =
        .ok log ∧ ∃ k tail, readAll sampleCodec (some (log.bytes.take 45)) =
          .ok ([sampleRecord 1, sampleRecord 2].take k, tail) := by
  have hnumbered : ∀ w ∈ [((), sampleRecord 1), ((), sampleRecord 2)], w.2.Numbered := by
    simp [WalRecord.Numbered, sampleRecord]
  have hwritten : (WalLog.reopen none).appendAll sampleCodec
      [((), sampleRecord 1), ((), sampleRecord 2)] = .ok _ := rfl
  obtain ⟨k, tail, hread, -⟩ := (torn_tail_law sampleCodec _ hnumbered _ hwritten).1 _
    (List.take_prefix 45 _)
  exact ⟨hnumbered, _, hwritten, k, tail, hread⟩

/-! ## Writes that fail -/

/-- One call of `append` in a process that goes on whether it fails or not. -/
structure Attempt (μ ι : Type) where
  nonce : ι
  record : WalRecord μ
  /-- The write fails after so many bytes. -/
  failure : Option Nat

namespace WalLog

/-- Append records, some of which fail. Returns the records that were acknowledged. -/
def attempts (codec : Codec ι (WalRecord μ)) :
    List (Attempt μ ι) → WalLog → List (WalRecord μ) × WalLog
  | [], log => ([], log)
  | a :: rest, log =>
    match log.append codec a.nonce a.record a.failure with
    | (.ok _, log') =>
      let (acknowledged, log'') := attempts codec rest log'
      (a.record :: acknowledged, log'')
    | (.error _, log') => attempts codec rest log'

end WalLog

/-- The call succeeds, or fails before the text of its line or after the whole line. -/
def LeavesNoText (codec : Codec ι (WalRecord μ)) (log : WalLog) (a : Attempt μ ι) : Prop :=
  ∀ n text, a.failure = some n → encodeFrame codec a.nonce a.record = .ok text →
    n ≤ log.separator.length ∨ (log.withHandle.line text).length ≤ n

/-- No call leaves a part of its line's text, unless nothing is written after it. -/
def Harmless (codec : Codec ι (WalRecord μ)) : WalLog → List (Attempt μ ι) → Prop
  | _, [] => True
  | log, a :: rest =>
    LeavesNoText codec log a ∧ Harmless codec (log.append codec a.nonce a.record a.failure).2 rest ∨
      ∀ b ∈ rest, b.failure = some 0

section Failures

variable {codec : Codec ι (WalRecord μ)} {nonce : ι} {record : WalRecord μ} {text : List Char}
  {records : List (WalRecord μ)} {bytes : Bytes} {log log' : WalLog} {a : Attempt μ ι}

theorem readAll_bytes (codec : Codec ι (WalRecord μ)) (log : WalLog) :
    readAll codec log.file = readAll codec (some log.bytes) := by
  rcases hfile : log.file with _ | bytes
  · rw [WalLog.bytes, hfile]
    exact Ended.nil.read.symm
  · rw [WalLog.bytes, hfile, Option.getD_some]

theorem WalHandle.line_eq (log : WalLog) (text : List Char) :
    log.withHandle.line text = log.separator ++ (asBytes text ++ [newline]) := by
  rw [WalHandle.line, WalLog.separator, List.append_assoc]

theorem Ended.read_part (h : Ended codec bytes records)
    (hencode : encodeFrame codec nonce record = .ok text) (hnumbered : record.Numbered) (m : Nat) :
    ∃ recs tail, readAll codec (some (bytes ++ (asBytes text ++ [newline]).take m)) = .ok (recs, tail) ∧
      records.Sublist recs := by
  have hlength := length_asBytes (isHexDigit_encodeFrame hencode)
  rcases lt_trichotomy m text.length with hm | rfl | hm
  · rw [List.take_append_of_le_length (by omega)]
    by_cases hzero : m = 0
    · subst hzero
      exact ⟨records, .clean, by simpa using h.read, List.Sublist.refl _⟩
    · obtain ⟨detail, hread⟩ := h.read_take hencode hzero hm
      exact ⟨records, _, hread, List.Sublist.refl _⟩
  · rw [← hlength, List.take_left]
    exact ⟨_, _, h.read_text hencode hnumbered, List.sublist_append_left ..⟩
  · rw [List.take_of_length_le (by rw [List.length_append, hlength]; exact hm)]
    exact ⟨_, _, (h.line hencode hnumbered).read, List.sublist_append_left ..⟩

theorem WalLog.append_failure {n : Nat} (hencode : encodeFrame codec nonce record = .ok text) :
    log.append codec nonce record (some n) =
      (.error writeError, ⟨some (log.bytes ++ (log.separator ++ (asBytes text ++ [newline])).take n),
        some log.withHandle⟩) := by
  simp only [WalLog.append, hencode, WalLog.writeLine, WalHandle.line_eq]

/-- What a call acknowledges. -/
def acknowledged (codec : Codec ι (WalRecord μ)) (log : WalLog) (a : Attempt μ ι) :
    List (WalRecord μ) :=
  match (log.append codec a.nonce a.record a.failure).1 with
  | .ok _ => [a.record]
  | .error _ => []

theorem attempts_cons (codec : Codec ι (WalRecord μ)) (a : Attempt μ ι) (rest : List (Attempt μ ι))
    (log : WalLog) :
    log.attempts codec (a :: rest) =
      (acknowledged codec log a ++
        ((log.append codec a.nonce a.record a.failure).2.attempts codec rest).1,
        ((log.append codec a.nonce a.record a.failure).2.attempts codec rest).2) := by
  rw [WalLog.attempts, acknowledged]
  rcases log.append codec a.nonce a.record a.failure with ⟨_ | _, log'⟩ <;> rfl

/-- A write that fails with no part of the text written. -/
theorem Ready.fail_separator (h : Ready codec log records) {n : Nat} (hn : n ≤ log.separator.length) :
    Ready codec ⟨some (log.bytes ++ log.separator.take n), some log.withHandle⟩ records := by
  change Ended codec ((log.bytes ++ log.separator.take n) ++ log.separator) records
  rw [Ready] at h
  rcases Nat.eq_zero_or_pos n with rfl | hpos
  · rwa [List.take_zero, List.append_nil]
  -- The newline that was written is followed by another one.
  have hsep : log.separator = [newline] := by
    rw [WalLog.separator] at hn ⊢
    split_ifs at hn ⊢ with hneeds
    · rfl
    · exact absurd hpos (Nat.not_lt.2 hn)
  rw [hsep] at h hn ⊢
  rw [List.take_of_length_le hpos]
  exact h.blank

/-- A write that fails after its whole line. -/
theorem Ready.fail_whole (h : Ready codec log records) (hencode : encodeFrame codec nonce record = .ok text)
    (hnumbered : record.Numbered) :
    Ready codec ⟨some (log.bytes ++ (log.separator ++ (asBytes text ++ [newline]))),
      some log.withHandle⟩ (records ++ [record]) := by
  have hline := Ended.line h hencode hnumbered
  rw [List.append_assoc] at hline
  change Ended codec ((log.bytes ++ _) ++ log.separator) _
  rw [WalLog.separator] at hline ⊢
  split_ifs at hline ⊢
  · exact hline.blank
  · simpa using hline

theorem acknowledged_failure {n : Nat} (hfailure : a.failure = some n)
    (hencode : encodeFrame codec a.nonce a.record = .ok text) : acknowledged codec log a = [] := by
  rw [acknowledged, hfailure, WalLog.append_failure hencode]

theorem acknowledged_error (log : WalLog) {e : IoError} (hencode : encodeFrame codec a.nonce a.record = .error e) :
    acknowledged codec log a = [] ∧ (log.append codec a.nonce a.record a.failure).2 = log := by
  have happend : log.append codec a.nonce a.record a.failure = (.error e, log) := by
    simp only [WalLog.append, hencode]
  rw [acknowledged, happend]
  exact ⟨rfl, rfl⟩

theorem Ready.attempt_success (h : Ready codec log records) (hnumbered : a.record.Numbered)
    (hencode : encodeFrame codec a.nonce a.record = .ok text) (hfailure : a.failure = none) :
    Ready codec (log.append codec a.nonce a.record a.failure).2
      (records ++ acknowledged codec log a) := by
  have happend : log.append codec a.nonce a.record none =
      (.ok (), (log.append codec a.nonce a.record none).2) := by
    simp only [WalLog.append, hencode, WalLog.writeLine]
  have hack : acknowledged codec log a = [a.record] := by rw [acknowledged, hfailure, happend]
  rw [hack, hfailure]
  exact h.append hnumbered happend

/-- A call that leaves no part of its text leaves a log that can be written to. -/
theorem Ready.attempt (h : Ready codec log records) (hnumbered : a.record.Numbered)
    (hno : LeavesNoText codec log a) :
    ∃ recs, Ready codec (log.append codec a.nonce a.record a.failure).2 recs ∧
      (records ++ acknowledged codec log a).Sublist recs := by
  rcases hencode : encodeFrame codec a.nonce a.record with e | text
  · obtain ⟨hack, hlog⟩ := acknowledged_error log hencode
    rw [hack, hlog]
    exact ⟨records, h, by simp⟩
  rcases hfailure : a.failure with _ | n
  · exact ⟨_, hfailure ▸ h.attempt_success hnumbered hencode hfailure, List.Sublist.refl _⟩
  rw [acknowledged_failure hfailure hencode, WalLog.append_failure hencode, List.append_nil]
  rcases hno n text hfailure hencode with hn | hn
  · rw [List.take_append_of_le_length hn]
    exact ⟨records, h.fail_separator hn, List.Sublist.refl _⟩
  · rw [WalHandle.line_eq] at hn
    rw [List.take_of_length_le hn]
    exact ⟨_, h.fail_whole hencode hnumbered, List.sublist_append_left ..⟩

/-- A call leaves a log with the records before it, and with its own if acknowledged. -/
theorem Ready.read_attempt (h : Ready codec log records) (hnumbered : a.record.Numbered) :
    ∃ recs tail, readAll codec (log.append codec a.nonce a.record a.failure).2.file = .ok (recs, tail) ∧
      (records ++ acknowledged codec log a).Sublist recs := by
  by_cases hno : LeavesNoText codec log a
  · obtain ⟨recs, hready, hsub⟩ := h.attempt hnumbered hno
    exact ⟨recs, .clean, hready.read, hsub⟩
  rw [LeavesNoText] at hno
  push Not at hno
  obtain ⟨n, text, hfailure, hencode, hn, -⟩ := hno
  obtain ⟨recs, tail, hread, hsub⟩ := Ended.read_part h hencode hnumbered (n - log.separator.length)
  rw [acknowledged_failure hfailure hencode, hfailure, WalLog.append_failure hencode,
    List.take_append, List.take_of_length_le hn.le, ← List.append_assoc, List.append_nil]
  exact ⟨recs, tail, hread, hsub⟩

/-- Calls that write nothing. -/
theorem attempts_nothing (codec : Codec ι (WalRecord μ)) {rest : List (Attempt μ ι)}
    (hrest : ∀ b ∈ rest, b.failure = some 0) (log : WalLog) :
    (log.attempts codec rest).1 = [] ∧ (log.attempts codec rest).2.bytes = log.bytes := by
  induction rest generalizing log with
  | nil => exact ⟨rfl, rfl⟩
  | cons b rest ih =>
    obtain ⟨hb, hrest⟩ := List.forall_mem_cons.1 hrest
    obtain ⟨hack, hbytes⟩ := ih hrest (log.append codec b.nonce b.record b.failure).2
    rw [attempts_cons, hack, hbytes, List.append_nil]
    rcases hencode : encodeFrame codec b.nonce b.record with e | text
    · obtain ⟨hnone, hlog⟩ := acknowledged_error log hencode
      rw [hnone, hlog]
      exact ⟨rfl, rfl⟩
    rw [acknowledged_failure hb hencode, hb, WalLog.append_failure hencode]
    simp [WalLog.bytes]

theorem Ready.attempts {rest : List (Attempt μ ι)} (h : Ready codec log records)
    (hnumbered : ∀ a ∈ rest, a.record.Numbered) (hharmless : Harmless codec log rest) :
    ∃ recs tail, readAll codec (log.attempts codec rest).2.file = .ok (recs, tail) ∧
      (records ++ (log.attempts codec rest).1).Sublist recs := by
  induction rest generalizing log records with
  | nil => exact ⟨records, .clean, h.read, by simp [WalLog.attempts]⟩
  | cons a rest ih =>
    obtain ⟨ha, hnumbered⟩ := List.forall_mem_cons.1 hnumbered
    rw [attempts_cons, ← List.append_assoc]
    rcases hharmless with ⟨hno, hharmless⟩ | hnothing
    · obtain ⟨recs, hready, hsub⟩ := h.attempt ha hno
      obtain ⟨recs', tail, hread, hsub'⟩ := ih hready hnumbered hharmless
      exact ⟨recs', tail, hread, (hsub.append_right _).trans hsub'⟩
    obtain ⟨recs, tail, hread, hsub⟩ := h.read_attempt ha
    obtain ⟨hack, hbytes⟩ := attempts_nothing codec hnothing
      (log.append codec a.nonce a.record a.failure).2
    rw [hack, readAll_bytes, hbytes, ← readAll_bytes, List.append_nil]
    exact ⟨recs, tail, hread, hsub⟩

end Failures

/-- Whatever writes fail, the log is read with every record that was acknowledged, as long
    as no write that leaves a part of a line's text is followed by another one. -/
theorem append_failure_harmless (codec : Codec ι (WalRecord μ)) (file : Option Bytes)
    (records : List (WalRecord μ)) (hfile : readAll codec file = .ok (records, .clean))
    (calls : List (Attempt μ ι)) (hnumbered : ∀ a ∈ calls, a.record.Numbered)
    (hharmless : Harmless codec (WalLog.reopen file) calls) :
    ∃ recs tail, readAll codec ((WalLog.reopen file).attempts codec calls).2.file = .ok (recs, tail) ∧
      (records ++ ((WalLog.reopen file).attempts codec calls).1).Sublist recs :=
  (ready_reopen hfile).attempts hnumbered hharmless

/-- A write that fails after the first byte of its frame, and one that succeeds. -/
def splicedCalls : List (Attempt Unit Unit) :=
  [⟨(), sampleRecord 1, some 2⟩, ⟨(), sampleRecord 2, none⟩]

/-- The record that is written after a part of a line is acknowledged, and then nothing can
    be read. -/
theorem append_failure_splices :
    ((WalLog.reopen none).attempts sampleCodec splicedCalls).1 = [sampleRecord 2] ∧
      ∃ e, readAll sampleCodec ((WalLog.reopen none).attempts sampleCodec splicedCalls).2.file = .error e := by
  refine ⟨rfl, ?_⟩
  let spliced : List Char := '4' :: '6' :: encodeHex (walFrame [3, 2, 0, 2, 3])
  have hfile : ((WalLog.reopen none).attempts sampleCodec splicedCalls).2.file =
      some (joinLines [asBytes spliced] ++ []) := by decide +kernel
  have hhex : ∀ c ∈ spliced, IsHexDigit c := List.forall_mem_cons.2
    ⟨⟨4, rfl⟩, List.forall_mem_cons.2 ⟨⟨6, rfl⟩, isHexDigit_encodeHex⟩⟩
  have hraw : decodeHex spliced = .ok (0x46 :: walFrame [3, 2, 0, 2, 3]) := by decide +kernel
  obtain ⟨detail, hdecode⟩ : ∃ detail, decodeFrame sampleCodec spliced = .corrupt detail := by
    rw [decodeFrame, hraw]
    exact decodeRaw_magic (by decide) (by decide)
  have hread : readAll sampleCodec (some (joinLines [asBytes spliced] ++ [])) = _ :=
    readAll_joinLines (List.forall_mem_singleton.2 (newline_not_mem_asBytes hhex)) List.not_mem_nil
  rw [hfile, hread, readLines, readSegment_text hhex (List.cons_ne_nil _ _), readText, hdecode]
  exact ⟨_, rfl⟩

/-- A log whose only line has lost its newline. -/
def unendedFile : Option Bytes := some (asBytes (encodeHex (walFrame [3, 1, 0, 1, 3])))

/-- Writes that leave the separator only, nothing, the whole line, and one that succeeds. -/
def sparedCalls : List (Attempt Unit Unit) :=
  [⟨(), sampleRecord 2, some 1⟩, ⟨(), sampleRecord 3, some 0⟩, ⟨(), sampleRecord 4, some 100⟩,
    ⟨(), sampleRecord 5, none⟩]

theorem sparedCalls_harmless : Harmless sampleCodec (WalLog.reopen unendedFile) sparedCalls := by
  refine .inl ⟨?_, .inl ⟨?_, .inl ⟨?_, .inl ⟨?_, trivial⟩⟩⟩⟩
  · rintro n text ⟨⟩ -
    exact .inl (by decide +kernel)
  · rintro n text ⟨⟩ -
    exact .inl (Nat.zero_le _)
  · rintro n text ⟨⟩ hencode
    have htext : encodeFrame sampleCodec () (sampleRecord 4) =
        .ok (encodeHex (walFrame [3, 4, 0, 4, 3])) := by decide +kernel
    obtain rfl := Except.ok.inj (htext.symm.trans hencode)
    exact .inr (by decide +kernel)
  · rintro n text ⟨⟩

theorem append_failure_harmless_spared :
    readAll sampleCodec unendedFile = .ok ([sampleRecord 1], .clean) ∧
      Harmless sampleCodec (WalLog.reopen unendedFile) sparedCalls ∧
      ∃ recs tail,
        readAll sampleCodec ((WalLog.reopen unendedFile).attempts sampleCodec sparedCalls).2.file =
          .ok (recs, tail) ∧ [sampleRecord 1, sampleRecord 5].Sublist recs := by
  have hfile : readAll sampleCodec unendedFile = .ok ([sampleRecord 1], .clean) := by decide +kernel
  exact ⟨hfile, sparedCalls_harmless, append_failure_harmless sampleCodec _ _ hfile _
    (by simp [sparedCalls, WalRecord.Numbered, sampleRecord]) sparedCalls_harmless⟩

end FacetQL
