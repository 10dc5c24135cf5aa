import FacetQL.Lib.Fallible
import FacetQL.Storage.WalFrame

/-!
# The file of the write-ahead log

The bytes of the log (`storage/wal.rs`). Writing is through a handle that is kept
open, and that was told once, when it was opened, whether the file ended inside a
line. A write that fails leaves any part of what it was to write.
-/

namespace FacetQL

variable {μ ι : Type}

/-! ## Reading the file -/

/-- The byte that ends a line. -/
def newline : Byte := 0x0A

/-- What the file ends with. -/
inductive WalTail
  | clean
  | torn (durableLen : Nat) (detail : String)
  deriving DecidableEq, Repr

/-- The walk of `readAll`: records, next offset and line number, and a torn frame. -/
structure ReadState (μ : Type) where
  records : List (WalRecord μ)
  offset : Nat
  lineNumber : Nat
  torn : Option (Nat × Nat × String)
  deriving DecidableEq, Repr

namespace ReadState

/-- The start of the file. -/
def start : ReadState μ := ⟨[], 0, 1, none⟩

/-- What has been read. -/
def result (st : ReadState μ) : List (WalRecord μ) × WalTail :=
  match st.torn with
  | some (durableLen, _, detail) => (st.records, .torn durableLen detail)
  | none => (st.records, .clean)

end ReadState

/-- A line of the file that is not blank. -/
def readText (codec : Codec ι (WalRecord μ)) (lineStart : Nat) (text : List Char)
    (st : ReadState μ) : Except IoError (ReadState μ) :=
  match st.torn with
  | some (_, tornLine, detail) =>
    .error ⟨.invalidData, "WAL line " ++ toString tornLine ++ " is a torn frame (" ++ detail ++
      ") but line " ++ toString st.lineNumber ++ " follows it; a torn frame is only valid as the " ++
      "final line, so this is mid-log corruption rather than a crash tail and must be recovered " ++
      "by an operator"⟩
  | none =>
    match decodeFrame codec text with
    | .durable record => .ok { st with records := st.records ++ [record] }
    | .torn detail => .ok { st with torn := some (lineStart, st.lineNumber, detail) }
    | .corrupt detail =>
      .error ⟨.invalidData, "WAL line " ++ toString st.lineNumber ++ " at byte offset " ++
        toString lineStart ++ " is corrupt: " ++ detail⟩
    | .panic => .error ⟨.other, HexError.panic.message⟩

/-- A line of the file, with a newline after it or not. -/
def readSegment (codec : Codec ι (WalRecord μ)) (terminated : Bool) (segment : Bytes)
    (st : ReadState μ) : Except IoError (ReadState μ) :=
  match fromUtf8 segment with
  | none =>
    .error ⟨.invalidData, "WAL line " ++ toString st.lineNumber ++ " at byte offset " ++
      toString st.offset ++ " is not valid UTF-8; the log contains bytes no WAL writer " ++
      "produces and must be recovered or removed by an operator"⟩
  | some text =>
    let text := trim text
    (if text = [] then .ok st else readText codec st.offset text st).map fun st' =>
      { st' with
        offset := st.offset + segment.length + (if terminated then 1 else 0)
        lineNumber := st.lineNumber + 1 }

/-- The lines of the file, the last one without a newline. -/
def readSegments (codec : Codec ι (WalRecord μ)) :
    List Bytes → ReadState μ → Except IoError (ReadState μ)
  | [], st => .ok st
  | segment :: rest, st =>
    (readSegment codec (!rest.isEmpty) segment st).bind (readSegments codec rest)

/-- Read every record of the log, and what the file ends with. -/
def readAll (codec : Codec ι (WalRecord μ)) :
    (file : Option Bytes) → Except IoError (List (WalRecord μ) × WalTail)
  | none => .ok ([], .clean)
  | some bytes =>
    (readSegments codec (bytes.splitOnP (· == newline)) ReadState.start).map ReadState.result

/-! ## Writing the file -/

/-- The open file. -/
structure WalHandle where
  /-- The file ended inside a line when it was opened. -/
  needsSeparator : Bool
  deriving DecidableEq, Repr

/-- Open the file. -/
def WalHandle.openFile (bytes : Bytes) : WalHandle :=
  ⟨match bytes.getLast? with
    | some last => last != newline
    | none => false⟩

/-- The bytes of a line, after a newline if the file ends inside a line. -/
def WalHandle.line (handle : WalHandle) (encoded : List Char) : Bytes :=
  (if handle.needsSeparator then [newline] else []) ++ asBytes encoded ++ [newline]

/-- The log of a process: the file, if it exists, and the handle, once it is open. -/
structure WalLog where
  file : Option Bytes
  handle : Option WalHandle
  deriving DecidableEq, Repr

/-- A write that the system refuses. -/
def writeError : IoError := ⟨.other, "failed to write the WAL"⟩

namespace WalLog

/-- The bytes of the file. -/
def bytes (log : WalLog) : Bytes := log.file.getD []

/-- The handle, opened if it is not. -/
def withHandle (log : WalLog) : WalHandle := log.handle.getD (WalHandle.openFile log.bytes)

/-- Write a line. With a `failure`, only that many bytes are written, and the handle stays. -/
def writeLine (log : WalLog) (encoded : List Char) (failure : Option Nat) :
    Except IoError Unit × WalLog :=
  match failure with
  | none => (.ok (), ⟨some (log.bytes ++ log.withHandle.line encoded), some ⟨false⟩⟩)
  | some n =>
    (.error writeError,
      ⟨some (log.bytes ++ (log.withHandle.line encoded).take n), some log.withHandle⟩)

/-- Append a record. -/
def append (codec : Codec ι (WalRecord μ)) (nonce : ι) (record : WalRecord μ)
    (failure : Option Nat) (log : WalLog) : Except IoError Unit × WalLog :=
  match encodeFrame codec nonce record with
  | .error e => (.error e, log)
  | .ok encoded => log.writeLine encoded failure

/-- Append records, none of which fails. -/
def appendAll (codec : Codec ι (WalRecord μ)) : List (ι × WalRecord μ) → WalLog → Except IoError WalLog
  | [], log => .ok log
  | (nonce, record) :: rest, log =>
    match log.append codec nonce record none with
    | (.ok _, log') => appendAll codec rest log'
    | (.error e, _) => .error e

/-- The log that a new process finds. -/
def reopen (file : Option Bytes) : WalLog := ⟨file, none⟩

/-- Cut the file at the end of the durable records. -/
def truncateTornTail (durableLen : Nat) (log : WalLog) : Except IoError Unit × WalLog :=
  match log.file with
  | none => (.error ⟨.notFound, "No such file or directory"⟩, reopen none)
  | some bytes => (.ok (), reopen (some (bytes.take durableLen ++
      List.replicate (durableLen - bytes.length) 0)))

/-- What a start does with the file before it uses it: a torn tail is cut off. -/
def repair (tail : WalTail) (log : WalLog) : WalLog :=
  match tail with
  | .clean => log
  | .torn durableLen _ => (log.truncateTornTail durableLen).2

end WalLog

/-! ## Files as lines -/

/-- Lines with the newline after each. -/
def joinLines (lines : List Bytes) : Bytes := lines.flatMap (· ++ [newline])

@[simp]
theorem joinLines_nil : joinLines [] = [] := rfl

theorem joinLines_append (lines lines' : List Bytes) :
    joinLines (lines ++ lines') = joinLines lines ++ joinLines lines' := List.flatMap_append

theorem joinLines_singleton (line : Bytes) : joinLines [line] = line ++ [newline] :=
  List.flatMap_singleton ..

theorem length_joinLines (lines : List Bytes) :
    (joinLines lines).length = (lines.map fun line => line.length + 1).sum := by
  simp [joinLines, List.length_flatMap]

theorem splitOnP_joinLines {lines : List Bytes} {last : Bytes} (hlines : ∀ l ∈ lines, newline ∉ l)
    (hlast : newline ∉ last) :
    (joinLines lines ++ last).splitOnP (· == newline) = lines ++ [last] := by
  have hone : ∀ {l : Bytes}, newline ∉ l → l.splitOnP (· == newline) = [l] := fun {l} hl =>
    List.splitOnP_eq_singleton fun b hb => beq_eq_false_iff_ne.2 fun h => hl (h ▸ hb)
  induction lines with
  | nil => exact hone hlast
  | cons line lines ih =>
    obtain ⟨hline, hlines⟩ := List.forall_mem_cons.1 hlines
    have hshape : joinLines (line :: lines) ++ last = line ++ newline :: (joinLines lines ++ last) := by
      simp [joinLines]
    rw [hshape, List.splitOnP_append_cons (p := (· == newline)) _ _ (beq_self_eq_true newline),
      hone hline, ih hlines]
    rfl

theorem exists_joinLines (bytes : Bytes) : ∃ lines last, (∀ l ∈ lines, newline ∉ l) ∧ newline ∉ last ∧
    bytes = joinLines lines ++ last := by
  induction bytes with
  | nil => exact ⟨[], [], by simp, by simp, rfl⟩
  | cons b bytes ih =>
    obtain ⟨lines, last, hlines, hlast, rfl⟩ := ih
    by_cases hb : newline = b
    · exact ⟨[] :: lines, last, by simpa using hlines, hlast, by simp [joinLines, hb]⟩
    -- The byte belongs to the first line, which may be the last part.
    rcases lines with _ | ⟨line, lines⟩
    · exact ⟨[], b :: last, by simp, by simp [hb, hlast], rfl⟩
    obtain ⟨hline, hlines⟩ := List.forall_mem_cons.1 hlines
    refine ⟨(b :: line) :: lines, last, List.forall_mem_cons.2 ⟨by simp [hb, hline], hlines⟩, hlast,
      rfl⟩

section Reading

variable {codec : Codec ι (WalRecord μ)} {nonce : ι} {record : WalRecord μ} {text : List Char}
  {lines : List Bytes} {st st' : ReadState μ} {records : List (WalRecord μ)} {bytes last : Bytes}

/-- Lines that all have a newline after them. -/
def readLines (codec : Codec ι (WalRecord μ)) :
    List Bytes → ReadState μ → Except IoError (ReadState μ)
  | [], st => .ok st
  | line :: rest, st => (readSegment codec true line st).bind (readLines codec rest)

theorem readLines_append (lines lines' : List Bytes) (st : ReadState μ) :
    readLines codec (lines ++ lines') st = (readLines codec lines st).bind (readLines codec lines') := by
  induction lines generalizing st with
  | nil => rfl
  | cons line lines ih =>
    simp only [List.cons_append, readLines]
    rcases readSegment codec true line st with e | st'
    · rfl
    · exact ih st'

theorem readSegments_concat (lines : List Bytes) (last : Bytes) (st : ReadState μ) :
    readSegments codec (lines ++ [last]) st =
      (readLines codec lines st).bind (readSegment codec false last) := by
  induction lines generalizing st with
  | nil =>
    change (readSegment codec false last st).bind (readSegments codec []) = readSegment codec false last st
    cases readSegment codec false last st <;> rfl
  | cons line lines ih =>
    have hmore : (lines ++ [last]).isEmpty = false := by simp
    simp only [List.cons_append, readSegments, readLines, hmore, Bool.not_false]
    rcases readSegment codec true line st with e | st'
    · rfl
    · exact ih st'

theorem readAll_joinLines (hlines : ∀ l ∈ lines, newline ∉ l) (hlast : newline ∉ last) :
    readAll codec (some (joinLines lines ++ last)) =
      ((readLines codec lines ReadState.start).bind (readSegment codec false last)).map
        ReadState.result := by
  rw [readAll, splitOnP_joinLines hlines hlast, readSegments_concat]

theorem readSegment_terminated (segment : Bytes) (st : ReadState μ) :
    readSegment codec true segment st =
      (readSegment codec false segment st).map fun st' => { st' with offset := st'.offset + 1 } := by
  simp only [readSegment]
  rcases fromUtf8 segment with _ | text
  · rfl
  dsimp only
  cases (if trim text = [] then .ok st else readText codec st.offset (trim text) st) <;> rfl

theorem readSegment_eq_ok {terminated : Bool} {segment : Bytes}
    (h : readSegment codec terminated segment st = .ok st') :
    ∃ text s, (if text = [] then .ok st else readText codec st.offset text st) = .ok s ∧
      st' = { s with
        offset := st.offset + segment.length + (if terminated then 1 else 0)
        lineNumber := st.lineNumber + 1 } := by
  unfold readSegment at h
  split at h
  · cases h
  obtain ⟨s, hs, rfl⟩ := Except.map_eq_ok.1 h
  exact ⟨_, s, hs, rfl⟩

theorem readLines_offset (h : readLines codec lines st = .ok st') :
    st'.offset = st.offset + (joinLines lines).length := by
  induction lines generalizing st with
  | nil =>
    cases h
    simp
  | cons line lines ih =>
    obtain ⟨_, hline, h⟩ := Except.bind_eq_ok.1 h
    obtain ⟨_, s, -, rfl⟩ := readSegment_eq_ok hline
    rw [ih h]
    simp [length_joinLines]
    omega

/-- A blank line. -/
theorem readSegment_nil (terminated : Bool) (st : ReadState μ) :
    readSegment codec terminated [] st = .ok { st with
      offset := st.offset + (if terminated then 1 else 0), lineNumber := st.lineNumber + 1 } := by
  have hblank : fromUtf8 [] = some [] := fromUtf8_asBytes []
  rw [readSegment, hblank]
  rfl

theorem newline_not_mem_asBytes (hhex : ∀ c ∈ text, IsHexDigit c) : newline ∉ asBytes text := by
  have hdigit : ∀ d : Fin 16, Fin.ofNat 256 (Nat.digitChar d).toNat ≠ newline := by decide
  rw [asBytes_hex hhex]
  intro hmem
  obtain ⟨c, hc, heq⟩ := List.mem_map.1 hmem
  obtain ⟨d, rfl⟩ := hhex c hc
  exact hdigit d heq

/-- A line of hex digits. -/
theorem readSegment_text (hhex : ∀ c ∈ text, IsHexDigit c) (hne : text ≠ []) (terminated : Bool)
    (st : ReadState μ) :
    readSegment codec terminated (asBytes text) st = (readText codec st.offset text st).map fun st' =>
      { st' with
        offset := st.offset + (asBytes text).length + (if terminated then 1 else 0)
        lineNumber := st.lineNumber + 1 } := by
  rw [readSegment, fromUtf8_asBytes]
  dsimp only
  rw [trim_eq_self fun c hc => (hhex c hc).isWhitespace, if_neg hne]

/-- The file ends with a line, or is empty, and reads as the records. -/
def Ended (codec : Codec ι (WalRecord μ)) (bytes : Bytes) (records : List (WalRecord μ)) : Prop :=
  ∃ lines st, (∀ l ∈ lines, newline ∉ l) ∧ bytes = joinLines lines ∧
    readLines codec lines ReadState.start = .ok st ∧ st.records = records ∧ st.torn = none

theorem Ended.nil : Ended codec [] [] := ⟨[], .start, by simp, rfl, rfl, rfl, rfl⟩

/-- One more line, of which the walk makes `st'`. -/
theorem ended_append {line : Bytes} (hlines : ∀ l ∈ lines, newline ∉ l) (hline : newline ∉ line)
    (hst : readLines codec lines ReadState.start = .ok st)
    (hst' : readSegment codec true line st = .ok st') (hrecords : st'.records = records)
    (htorn : st'.torn = none) : Ended codec (joinLines lines ++ (line ++ [newline])) records := by
  refine ⟨lines ++ [line], st', ?_, ?_, ?_, hrecords, htorn⟩
  · intro l hl
    rcases List.mem_append.1 hl with hl | hl
    · exact hlines l hl
    · rw [List.mem_singleton.1 hl]
      exact hline
  · rw [joinLines_append, joinLines_singleton]
  · rw [readLines_append, hst]
    change (readSegment codec true line st).bind (readLines codec []) = _
    rw [hst']
    rfl

section

variable (h : Ended codec bytes records)
include h

/-- A blank line changes nothing. -/
theorem Ended.blank : Ended codec (bytes ++ [newline]) records := by
  obtain ⟨lines, st, hlines, rfl, hst, rfl, htorn⟩ := h
  exact ended_append hlines List.not_mem_nil hst (readSegment_nil true st) rfl htorn

/-- The line of a record adds the record. -/
theorem Ended.line (hencode : encodeFrame codec nonce record = .ok text)
    (hnumbered : record.Numbered) :
    Ended codec (bytes ++ (asBytes text ++ [newline])) (records ++ [record]) := by
  obtain ⟨lines, st, hlines, rfl, hst, rfl, htorn⟩ := h
  have hhex := isHexDigit_encodeFrame hencode
  have hread : readSegment codec true (asBytes text) st = _ :=
    readSegment_text hhex (encodeFrame_ne_nil hencode) true st
  rw [readText, htorn, decodeFrame_encodeFrame hencode hnumbered] at hread
  exact ended_append hlines (newline_not_mem_asBytes hhex) hst hread rfl rfl

/-- What follows the last newline of a file. -/
theorem Ended.read_last (hlast : newline ∉ last) :
    ∃ st, st.records = records ∧ st.torn = none ∧ st.offset = bytes.length ∧
      readAll codec (some (bytes ++ last)) =
        (readSegment codec false last st).map ReadState.result := by
  obtain ⟨lines, st, hlines, rfl, hst, hrecords, htorn⟩ := h
  refine ⟨st, hrecords, htorn, ?_, ?_⟩
  · rw [readLines_offset hst]
    exact Nat.zero_add _
  · rw [readAll_joinLines hlines hlast, hst]
    rfl

theorem Ended.read : readAll codec (some bytes) = .ok (records, .clean) := by
  obtain ⟨st, rfl, htorn, -, hread⟩ := h.read_last (@List.not_mem_nil _ newline)
  rw [List.append_nil] at hread
  rw [hread, readSegment_nil]
  simp [Except.map, ReadState.result, htorn]

/-- A whole line without its newline is read as its record. -/
theorem Ended.read_text (hencode : encodeFrame codec nonce record = .ok text)
    (hnumbered : record.Numbered) :
    readAll codec (some (bytes ++ asBytes text)) = .ok (records ++ [record], .clean) := by
  have hhex := isHexDigit_encodeFrame hencode
  obtain ⟨st, rfl, htorn, -, hread⟩ := h.read_last (newline_not_mem_asBytes hhex)
  rw [hread, readSegment_text hhex (encodeFrame_ne_nil hencode), readText, htorn,
    decodeFrame_encodeFrame hencode hnumbered]
  simp [Except.map, ReadState.result]

/-- A line that is cut is torn, where it starts. -/
theorem Ended.read_take (hencode : encodeFrame codec nonce record = .ok text) {n : Nat}
    (hpos : n ≠ 0) (hn : n < text.length) : ∃ detail,
      readAll codec (some (bytes ++ (asBytes text).take n)) = .ok (records, .torn bytes.length detail) := by
  have hhex : ∀ c ∈ text.take n, IsHexDigit c := fun c hc =>
    isHexDigit_encodeFrame hencode c (List.mem_of_mem_take hc)
  have hne : text.take n ≠ [] := by simpa [hpos] using encodeFrame_ne_nil hencode
  obtain ⟨detail, hdetail⟩ := decodeFrame_take hencode hn
  obtain ⟨st, rfl, htorn, hoffset, hread⟩ := h.read_last (newline_not_mem_asBytes hhex)
  refine ⟨detail, ?_⟩
  rw [← asBytes_take (isHexDigit_encodeFrame hencode), hread, readSegment_text hhex hne, readText, htorn,
    hdetail, hoffset]
  rfl

end

theorem needsSeparator_openFile (lines : List Bytes) (hlast : newline ∉ last) :
    (WalHandle.openFile (joinLines lines ++ last)).needsSeparator = !last.isEmpty := by
  rw [WalHandle.openFile]
  rcases List.eq_nil_or_concat last with rfl | ⟨front, b, rfl⟩
  · rcases List.eq_nil_or_concat lines with rfl | ⟨lines, line, rfl⟩
    · rfl
    · rw [List.concat_eq_append, joinLines_append, joinLines_singleton, List.append_nil,
        ← List.append_assoc, List.getLast?_concat]
      rfl
  · have hb : b ≠ newline := fun h => hlast (by simp [h])
    have hne : (front ++ [b]).isEmpty = false := List.isEmpty_eq_false_iff.2 (by simp)
    rw [List.concat_eq_append, ← List.append_assoc, List.getLast?_concat, hne]
    exact bne_iff_ne.2 hb

theorem map_result_eq_ok {e : Except IoError (ReadState μ)} {records : List (WalRecord μ)}
    (h : e.map ReadState.result = .ok (records, .clean)) :
    ∃ st, e = .ok st ∧ st.records = records ∧ st.torn = none := by
  obtain ⟨st, rfl, hresult⟩ := Except.map_eq_ok.1 h
  rw [ReadState.result] at hresult
  split at hresult
  · cases hresult
  · exact ⟨st, rfl, congrArg Prod.fst hresult, ‹_›⟩

/-- A file that reads to its end ends with a line, given a newline if it needs one. -/
theorem ended_of_readAll (h : readAll codec (some bytes) = .ok (records, .clean)) :
    Ended codec (bytes ++ if (WalHandle.openFile bytes).needsSeparator then [newline] else []) records := by
  obtain ⟨lines, last, hlines, hlast, rfl⟩ := exists_joinLines bytes
  rw [readAll_joinLines hlines hlast] at h
  obtain ⟨st', hread, rfl, htorn⟩ := map_result_eq_ok h
  obtain ⟨st, hst, hst'⟩ := Except.bind_eq_ok.1 hread
  rw [needsSeparator_openFile lines hlast]
  by_cases hempty : last = []
  · subst hempty
    rw [readSegment_nil] at hst'
    cases hst'
    exact ⟨lines, st, hlines, by simp, hst, rfl, htorn⟩
  · have hread : readSegment codec true last st = _ := readSegment_terminated last st
    rw [hst'] at hread
    rw [List.isEmpty_eq_false_iff.2 hempty, List.append_assoc]
    exact ended_append hlines hlast hst hread rfl htorn

/-! ### What is read -/

theorem numbered_of_readSegment {terminated : Bool} {segment : Bytes}
    (h : readSegment codec terminated segment st = .ok st') (hst : ∀ r ∈ st.records, r.Numbered) :
    ∀ r ∈ st'.records, r.Numbered := by
  obtain ⟨text, s, hs, rfl⟩ := readSegment_eq_ok h
  split_ifs at hs
  · exact Except.ok.inj hs ▸ hst
  unfold readText at hs
  split at hs
  · cases hs
  split at hs
  · rename_i record hdecode
    cases hs
    exact List.forall_mem_append.2 ⟨hst, List.forall_mem_singleton.2 (numbered_of_decodeFrame hdecode)⟩
  · cases hs
    exact hst
  · cases hs
  · cases hs

/-- Every record that is read has legal numbers. -/
theorem numbered_of_readAll {file : Option Bytes} {tail : WalTail}
    (h : readAll codec file = .ok (records, tail)) : ∀ r ∈ records, r.Numbered := by
  have hsegments : ∀ segments (st st' : ReadState μ), readSegments codec segments st = .ok st' →
      (∀ r ∈ st.records, r.Numbered) → ∀ r ∈ st'.records, r.Numbered := by
    intro segments
    induction segments with
    | nil =>
      intro st st' h hst
      cases h
      exact hst
    | cons segment rest ih =>
      intro st st' h hst
      obtain ⟨s, hsegment, h⟩ := Except.bind_eq_ok.1 h
      exact ih s st' h (numbered_of_readSegment hsegment hst)
  rcases file with _ | bytes
  · cases h
    simp
  obtain ⟨st, hread, hresult⟩ := Except.map_eq_ok.1 h
  have hrecords : st.records = records := by
    rw [ReadState.result] at hresult
    split at hresult <;> exact congrArg Prod.fst hresult
  exact hrecords ▸ hsegments _ _ _ hread (by simp [ReadState.start])

end Reading

/-! ## Logs that can be written to -/

section Writing

variable {codec : Codec ι (WalRecord μ)} {nonce : ι} {record : WalRecord μ} {text : List Char}
  {records : List (WalRecord μ)} {bytes : Bytes} {log log' : WalLog}

theorem Ended.read_of_newline (h : Ended codec (bytes ++ [newline]) records) :
    readAll codec (some bytes) = .ok (records, .clean) := by
  obtain ⟨lines, st, hlines, hbytes, hst, rfl, htorn⟩ := h
  rcases List.eq_nil_or_concat lines with rfl | ⟨lines, line, rfl⟩
  · simp at hbytes
  rw [List.concat_eq_append] at hlines hbytes hst
  have hline : newline ∉ line := hlines line (by simp)
  have hlines : ∀ l ∈ lines, newline ∉ l := fun l hl => hlines l (List.mem_append_left _ hl)
  rw [joinLines_append, joinLines_singleton, ← List.append_assoc] at hbytes
  rw [List.append_cancel_right hbytes, readAll_joinLines hlines hline]
  rw [readLines_append] at hst
  obtain ⟨s, hfirst, hst⟩ := Except.bind_eq_ok.1 hst
  obtain ⟨_, hlast, ⟨⟩⟩ := Except.bind_eq_ok.1 hst
  rw [readSegment_terminated] at hlast
  obtain ⟨s', hshort, rfl⟩ := Except.map_eq_ok.1 hlast
  rw [hfirst]
  change (readSegment codec false line s).map ReadState.result = _
  rw [hshort]
  simp only [ReadState.result, Except.map] at htorn ⊢
  rw [htorn]

/-- What the handle writes before the next line. -/
def WalLog.separator (log : WalLog) : Bytes := if log.withHandle.needsSeparator then [newline] else []

/-- The log reads as the records, and the next line can be written. -/
def Ready (codec : Codec ι (WalRecord μ)) (log : WalLog) (records : List (WalRecord μ)) : Prop :=
  Ended codec (log.bytes ++ log.separator) records

theorem Ready.read (h : Ready codec log records) : readAll codec log.file = .ok (records, .clean) := by
  have hsome : readAll codec (some log.bytes) = .ok (records, .clean) := by
    rw [Ready, WalLog.separator] at h
    split_ifs at h
    · exact h.read_of_newline
    · rw [List.append_nil] at h
      exact h.read
  rcases hfile : log.file with _ | bytes
  · rw [WalLog.bytes, hfile] at hsome
    rw [← hsome]
    exact (Ended.nil.read).symm
  · rwa [WalLog.bytes, hfile] at hsome

theorem ready_reopen {file : Option Bytes} (h : readAll codec file = .ok (records, .clean)) :
    Ready codec (WalLog.reopen file) records := by
  rcases file with _ | bytes
  · cases h
    exact Ended.nil
  · exact ended_of_readAll h

theorem Ready.append (h : Ready codec log records) (hnumbered : record.Numbered)
    (happend : log.append codec nonce record none = (.ok (), log')) :
    Ready codec log' (records ++ [record]) := by
  rw [WalLog.append] at happend
  rcases hencode : encodeFrame codec nonce record with e | text
  · simp [hencode] at happend
  simp only [hencode, WalLog.writeLine, Prod.mk.injEq, true_and] at happend
  have hline := h.line hencode hnumbered
  rw [List.append_assoc, ← List.append_assoc log.separator] at hline
  rw [← happend, Ready]
  exact (List.append_nil _).symm ▸ hline

theorem Ready.appendAll {ws : List (ι × WalRecord μ)} (h : Ready codec log records)
    (hnumbered : ∀ w ∈ ws, w.2.Numbered) (happend : log.appendAll codec ws = .ok log') :
    Ready codec log' (records ++ ws.map Prod.snd) := by
  induction ws generalizing log records with
  | nil =>
    cases happend
    simpa using h
  | cons w ws ih =>
    obtain ⟨nonce, record⟩ := w
    obtain ⟨hrecord, hws⟩ := List.forall_mem_cons.1 hnumbered
    rw [WalLog.appendAll] at happend
    rcases hone : log.append codec nonce record none with ⟨_ | _, log₁⟩
    · simp [hone] at happend
    · rw [hone] at happend
      have := ih (h.append hrecord hone) hws happend
      rwa [List.append_assoc] at this

end Writing

end FacetQL
