import FacetQL.Core
import FacetQL.EventFeed
import FacetQL.Storage.Units

/-!
# The scan for changes

`storage/changes.rs`: a scan of the log reports the committed changes of nodes after a
position, page by page. A position is an operation id. The scan refuses a position that
is older than what the log still holds, leaves out what the caller may not see, and
stops before a frame that may still be committed.
-/

namespace FacetQL

namespace Audience

/-- May the caller be told? -/
def admits (audience : Audience) (owner : String) (isAdmin : Bool) : Bool :=
  match audience with
  | .everyone => true
  | .owner only => isAdmin || only == owner

/-- Public nodes are announced to everyone, private ones to their owner. -/
def forNode (node : Node) : Audience :=
  match node.visibility with
  | .pub => .everyone
  | .priv => .owner node.owner

end Audience

/-- What has happened to a node. -/
inductive ChangeKind
  | created
  | updated
  | deleted
  deriving DecidableEq, Repr

/-- A change as a caller is told of it. -/
structure ChangeRecord where
  seq : Nat
  change : ChangeKind
  address : String
  kind : String
  deriving DecidableEq, Repr

/-- A page of changes. -/
structure ChangePage where
  changes : List ChangeRecord
  /-- Where to resume. -/
  next : Nat
  complete : Bool
  deriving DecidableEq, Repr

/-- The refusal of a position that the log no longer reaches back to. -/
structure ScanTooOld where
  requested : Nat
  earliest : Nat
  retained : Nat
  deriving DecidableEq, Repr

/-- Why a scan fails. -/
inductive ScanError
  | tooOld (refusal : ScanTooOld)
  | log (error : IoError)
  deriving DecidableEq, Repr

/-- Who is looking, and from where. -/
structure Lens where
  after : Nat
  owner : String
  isAdmin : Bool
  deriving DecidableEq, Repr

/-- One change, if the caller may be shown it. -/
def Lens.admitChange (lens : Lens) (seq : Nat) (change : ChangeKind) (subject : Node) (address : String) :
    Option ChangeRecord :=
  if seq ≤ lens.after then none
  else if (Audience.forNode subject).admits lens.owner lens.isAdmin then
    some ⟨seq, change, address, subject.kind⟩
  else none

/-- The changes of a unit that the caller may see, after the archives so far of each address. -/
def emitUnit (lens : Lens) (archived : String → Option Node) :
    List (WalRecord Operation) → List ChangeRecord
  | [] => []
  | r :: rs =>
    match r.operation with
    | .mutation (.archive entry) =>
      emitUnit lens (Function.update archived entry.address (some entry.node)) rs
    | .mutation (.insert node) =>
      let change := if (archived node.address).isSome then .updated else .created
      (lens.admitChange r.operationId change node node.address).toList ++ emitUnit lens archived rs
    | .mutation (.delete address) =>
      ((archived address).bind fun previous =>
        lens.admitChange r.operationId .deleted previous address).toList ++
        emitUnit lens (Function.update archived address none) rs
    | _ => emitUnit lens archived rs

/-- The oldest position that the log can be scanned from. -/
def horizon (scanHorizon : Nat) (records : List (WalRecord Operation)) : Nat :=
  match records with
  | first :: _ => if first.sequence = 1 then 0 else first.operationId
  | [] => scanHorizon

/-- Refuse a log whose operation ids do not ascend. -/
def validatePositions : List (WalRecord Operation) → Except IoError Unit
  | previous :: record :: records =>
    if record.operationId ≤ previous.operationId then
      .error ⟨.invalidData, "WAL operation ID " ++ toString record.operationId ++ " follows " ++
        toString previous.operationId ++ " at sequence " ++ toString record.sequence ++
        "; the change scan pages by position and requires file order and position order to be " ++
        "the same order"⟩
    else validatePositions (record :: records)
  | _ => .ok ()

/-- How far a unit of the log has got. -/
inductive FrameState
  | committed
  | terminal
  | inFlight
  deriving DecidableEq, Repr

/-- What a unit is to the scan. -/
def frameState (committed : List (Nat × Nat)) (isTail : Bool) (unit : List (WalRecord Operation)) :
    FrameState :=
  match unit with
  | [] => .terminal
  | first :: _ =>
    if first.transactionId = standaloneTransactionId then .committed
    else if committed.any fun entry => entry.1 = first.transactionId then .committed
    else if (unit.any fun r => r.operation = .abort) || !isTail then .terminal
    else .inFlight

/-- The position of the last record of a unit. -/
def lastPosition (unit : List (WalRecord Operation)) : Nat :=
  (unit.getLast?.map WalRecord.operationId).getD 0

/-- Walk the units of the log. -/
def walk (lens : Lens) (limit : Nat) (committed : List (Nat × Nat)) (page : ChangePage) :
    List (List (WalRecord Operation)) → ChangePage
  | [] => page
  | unit :: rest =>
    match frameState committed rest.isEmpty unit with
    | .inFlight => page
    | .terminal => walk lens limit committed page rest
    | .committed =>
      if lastPosition unit ≤ lens.after then walk lens limit committed page rest
      else
        let changes := page.changes ++ emitUnit lens (fun _ => none) unit
        let next := (changes.getLast?.map ChangeRecord.seq).getD page.next
        if limit ≤ changes.length ∧ rest ≠ [] then ⟨changes, next, false⟩
        else walk lens limit committed ⟨changes, next, page.complete⟩ rest

/-- Scan the log for changes after a position. -/
def scan (scanHorizon : Nat) (records : List (WalRecord Operation)) (limit : Nat) (lens : Lens) :
    Except ScanError ChangePage :=
  let earliest := horizon scanHorizon records
  if lens.after < earliest then .error (.tooOld ⟨lens.after, earliest, records.length⟩)
  else match validatePositions records with
    | .error e => .error (.log e)
    | .ok () =>
      match classifyTransactions records with
      | .error e => .error (.log e)
      | .ok committed =>
        .ok (walk lens limit committed ⟨[], lens.after, true⟩ (durableUnits records))

/-! ## The changes of a unit -/

section Emit

variable {lens : Lens} {u : List (WalRecord Operation)} {change : ChangeRecord}

/-- The changes of a unit have the positions of the records that make them, in their order. -/
theorem emitUnit_sublist (lens : Lens) (archived : String → Option Node)
    (u : List (WalRecord Operation)) :
    ((emitUnit lens archived u).map ChangeRecord.seq).Sublist (u.map WalRecord.operationId) := by
  have hone (seq : Nat) (kind : ChangeKind) (subject : Node) (address : String) :
      ((lens.admitChange seq kind subject address).toList.map ChangeRecord.seq).Sublist [seq] := by
    rw [Lens.admitChange]
    split_ifs
    · exact List.nil_sublist _
    · exact .refl _
    · exact List.nil_sublist _
  induction u generalizing archived with
  | nil => exact .slnil
  | cons r u ih =>
    simp only [emitUnit, List.map_cons]
    split
    · exact (ih _).cons _
    · rw [List.map_append]
      exact (hone _ _ _ _).append (ih _)
    · rename_i address _
      rw [List.map_append]
      rcases archived address with _ | previous
      · exact (ih _).cons _
      · exact (hone _ _ _ _).append (ih _)
    · exact (ih _).cons _

theorem mem_emitUnit {archived : String → Option Node} (h : change ∈ emitUnit lens archived u) :
    ∃ r ∈ u, change.seq = r.operationId := by
  obtain ⟨r, hr, heq⟩ := List.mem_map.1 ((emitUnit_sublist lens archived u).subset
    (List.mem_map_of_mem h))
  exact ⟨r, hr, heq.symm⟩

/-- A position leaves out the changes at and before it. -/
theorem emitUnit_filter (lens : Lens) (archived : String → Option Node)
    (u : List (WalRecord Operation)) :
    emitUnit lens archived u =
      (emitUnit { lens with after := 0 } archived u).filter fun c => lens.after < c.seq := by
  have hadmitted (seq : Nat) (kind : ChangeKind) (subject : Node) (address : String) :
      (lens.admitChange seq kind subject address).toList =
        (Lens.admitChange { lens with after := 0 } seq kind subject address).toList.filter
          fun c => lens.after < c.seq := by
    simp only [Lens.admitChange]
    by_cases hafter : seq ≤ lens.after
    · split_ifs <;> simp [hafter]
    · split_ifs <;> simp_all
  induction u generalizing archived with
  | nil => rfl
  | cons r u ih =>
    simp only [emitUnit]
    split
    · exact ih _
    · rw [List.filter_append, ← hadmitted, ← ih]
    · rename_i address _
      rw [List.filter_append, ← ih]
      rcases archived address with _ | previous
      · rfl
      · rw [Option.bind_some, Option.bind_some, hadmitted]
    · exact ih _

theorem after_lt_of_mem_emitUnit {archived : String → Option Node}
    (h : change ∈ emitUnit lens archived u) : lens.after < change.seq := by
  rw [emitUnit_filter, List.mem_filter] at h
  exact of_decide_eq_true h.2

/-- Every change of a unit that the caller may see. -/
def unitChanges (owner : String) (isAdmin : Bool) (u : List (WalRecord Operation)) :
    List ChangeRecord :=
  emitUnit ⟨0, owner, isAdmin⟩ (fun _ => none) u

/-- A unit after the position is reported whole. -/
theorem emitUnit_eq (hafter : ∀ r ∈ u, lens.after < r.operationId) :
    emitUnit lens (fun _ => none) u = unitChanges lens.owner lens.isAdmin u := by
  rw [emitUnit_filter, unitChanges, List.filter_eq_self]
  intro c hc
  obtain ⟨r, hr, hseq⟩ := mem_emitUnit hc
  exact decide_eq_true (hseq ▸ hafter r hr)

end Emit

/-! ## The walk -/

section Walk

variable {lens : Lens} {limit : Nat} {committed : List (Nat × Nat)} {page : ChangePage}
  {us : List (List (WalRecord Operation))}

/-- A unit that is committed, to the scan. -/
def Reported (committed : List (Nat × Nat)) (u : List (WalRecord Operation)) : Prop :=
  ∀ isTail, frameState committed isTail u = .committed

/-- What a unit is matters to the walk only at the end of the log, and there to an open frame. -/
theorem reported_iff {u : List (WalRecord Operation)} (isTail : Bool) :
    Reported committed u ↔ frameState committed isTail u = .committed := by
  refine ⟨fun h => h isTail, fun h isTail' => ?_⟩
  rcases u with _ | ⟨first, u⟩
  · cases h
  simp only [frameState] at h ⊢
  split_ifs at h ⊢
  all_goals rfl

/-- The changes of the committed ones of some units. -/
def changesOf (lens : Lens) (committed : List (Nat × Nat)) (us : List (List (WalRecord Operation))) :
    List ChangeRecord :=
  us.flatMap fun u =>
    if frameState committed true u = .committed then emitUnit lens (fun _ => none) u else []

theorem mem_changesOf {c : ChangeRecord} : c ∈ changesOf lens committed us ↔
    ∃ u ∈ us, Reported committed u ∧ c ∈ emitUnit lens (fun _ => none) u := by
  rw [changesOf, List.mem_flatMap]
  refine exists_congr fun u => and_congr_right fun _ => ?_
  rw [reported_iff true]
  split_ifs with h <;> simp [h]

theorem changesOf_append (us vs : List (List (WalRecord Operation))) :
    changesOf lens committed (us ++ vs) = changesOf lens committed us ++ changesOf lens committed vs :=
  List.flatMap_append

/-- Where to resume after some changes. -/
def resumeAt (after : Nat) (changes : List ChangeRecord) : Nat :=
  (changes.getLast?.map ChangeRecord.seq).getD after

/-- A walk through `walked` has ended: at the end, before a frame in flight, or with a full page. -/
structure Walked (lens : Lens) (limit : Nat) (committed : List (Nat × Nat)) (before : List ChangeRecord)
    (page : ChangePage) (walked rest : List (List (WalRecord Operation))) : Prop where
  changes : page.changes = before ++ changesOf lens committed walked
  next : page.next = resumeAt lens.after page.changes
  stop : page.complete = true ∧
      (rest = [] ∨ ∃ u, rest = [u] ∧ frameState committed true u = .inFlight) ∨
    page.complete = false ∧ rest ≠ [] ∧ limit ≤ page.changes.length ∧
      ∃ u ∈ walked.getLast?, Reported committed u ∧ lens.after < lastPosition u
  last : rest = [] → ∀ u ∈ walked.getLast?, frameState committed true u ≠ .inFlight
  /-- The page has not been full before. -/
  first : ∀ x u y, walked = x ++ u :: y → y ≠ [] ∨ page.complete = true ∧ rest ≠ [] →
    Reported committed u → lens.after < lastPosition u →
    (before ++ changesOf lens committed (x ++ [u])).length < limit

theorem Walked.cons {before : List ChangeRecord} {page : ChangePage} {u : List (WalRecord Operation)}
    {walked rest : List (List (WalRecord Operation))}
    (h : Walked lens limit committed (before ++ changesOf lens committed [u]) page walked rest)
    (hflight : walked ++ rest = [] → frameState committed true u ≠ .inFlight)
    (hroom : walked ++ rest ≠ [] → Reported committed u → lens.after < lastPosition u →
      (before ++ changesOf lens committed [u]).length < limit) :
    Walked lens limit committed before page (u :: walked) rest where
  changes := by rw [h.changes, List.append_assoc, ← changesOf_append, List.singleton_append]
  next := h.next
  stop := by
    refine h.stop.imp_right (And.imp_right (And.imp_right (And.imp_right ?_)))
    rintro ⟨v, hv, hlast⟩
    refine ⟨v, ?_, hlast⟩
    rcases walked with _ | ⟨w, walked⟩
    · cases hv
    · exact hv
  last hrest v hv := by
    rcases walked with _ | ⟨w, walked⟩
    · obtain rfl : u = v := Option.some.inj hv
      exact hflight hrest
    · exact h.last hrest v hv
  first x v y hsplit hy hv hafter := by
    rcases x with _ | ⟨w, x⟩
    · obtain ⟨rfl, rfl⟩ := List.cons.inj hsplit
      refine hroom (fun hnil => ?_) hv hafter
      obtain ⟨hwalked, hrest⟩ := List.append_eq_nil_iff.1 hnil
      exact hy.elim (absurd hwalked) fun hend => hend.2 hrest
    obtain ⟨rfl, rfl⟩ := List.cons.inj hsplit
    have hfirst := h.first x v y rfl hy hv hafter
    rwa [List.append_assoc, ← changesOf_append, List.singleton_append] at hfirst

theorem frameState_inFlight {isTail : Bool} {u : List (WalRecord Operation)}
    (h : frameState committed isTail u = .inFlight) : isTail = true := by
  rcases u with _ | ⟨first, u⟩
  · cases h
  simp only [frameState] at h
  split_ifs at h with _ _ hne
  simp only [Bool.or_eq_true, Bool.not_eq_true', not_or, Bool.not_eq_false] at hne
  exact hne.2

/-- The last record of a unit has its highest position. -/
def Rising (u : List (WalRecord Operation)) : Prop := ∀ r ∈ u, r.operationId ≤ lastPosition u

theorem Rising.emitUnit_eq_nil {u : List (WalRecord Operation)} (h : Rising u)
    (hlast : lastPosition u ≤ lens.after) : emitUnit lens (fun _ => none) u = [] := by
  refine List.eq_nil_iff_forall_not_mem.2 fun c hc => ?_
  obtain ⟨r, hr, hseq⟩ := mem_emitUnit hc
  exact absurd (after_lt_of_mem_emitUnit hc) (hseq ▸ ((h r hr).trans hlast).not_gt)

theorem exists_walked (hus : ∀ u ∈ us, Rising u) (hnext : page.next = resumeAt lens.after page.changes)
    (hcomplete : page.complete = true) :
    ∃ walked rest, us = walked ++ rest ∧
      Walked lens limit committed page.changes (walk lens limit committed page us) walked rest := by
  induction us generalizing page with
  | nil =>
    refine ⟨[], [], rfl, (List.append_nil _).symm, hnext, .inl ⟨hcomplete, .inl rfl⟩, ?_, ?_⟩
    · exact fun _ _ h => absurd h (Option.not_mem_none _)
    · exact fun x u y h => absurd h (List.append_ne_nil_of_right_ne_nil _ (List.cons_ne_nil _ _)).symm
  | cons u us ih =>
    obtain ⟨hu, hus⟩ := List.forall_mem_cons.1 hus
    -- The walk goes on behind a unit that adds nothing.
    have hskip (hnil : changesOf lens committed [u] = [])
        (hpast : Reported committed u → lastPosition u ≤ lens.after)
        (hstate : frameState committed us.isEmpty u ≠ .inFlight) : ∃ walked rest,
        u :: us = walked ++ rest ∧
          Walked lens limit committed page.changes (walk lens limit committed page us) walked rest := by
      obtain ⟨walked, rest, rfl, hwalked⟩ := ih hus hnext hcomplete
      rw [← List.append_nil page.changes, ← hnil] at hwalked
      refine ⟨u :: walked, rest, rfl, hwalked.cons (fun hend => ?_) fun _ hr hafter => ?_⟩
      · rwa [hend] at hstate
      · exact absurd (hpast hr) hafter.not_ge
    rw [walk]
    cases hstate : frameState committed us.isEmpty u with
    | inFlight =>
      obtain rfl : us = [] := List.isEmpty_iff.1 (frameState_inFlight hstate)
      refine ⟨[], [u], rfl, (List.append_nil _).symm, hnext, .inl ⟨hcomplete, .inr ⟨u, rfl, hstate⟩⟩,
        fun h => absurd h (List.cons_ne_nil _ _), fun x v y h => ?_⟩
      exact absurd h (List.append_ne_nil_of_right_ne_nil _ (List.cons_ne_nil _ _)).symm
    | terminal =>
      have hno : ¬ Reported committed u := fun hr => nomatch (hr _).symm.trans hstate
      refine hskip ?_ (fun hr => absurd hr hno) (hstate ▸ by decide)
      simp [changesOf, mt (reported_iff true).2 hno]
    | committed =>
      have hr := (reported_iff _).2 hstate
      have hone : changesOf lens committed [u] = emitUnit lens (fun _ => none) u := by
        simp [changesOf, hr true]
      dsimp only
      split
      · rename_i hpast
        exact hskip (hone.trans (hu.emitUnit_eq_nil hpast)) (fun _ => hpast) (hstate ▸ by decide)
      rename_i hafter
      rw [← hone]
      have hresume : ((page.changes ++ changesOf lens committed [u]).getLast?.map ChangeRecord.seq).getD
          page.next = resumeAt lens.after (page.changes ++ changesOf lens committed [u]) := by
        rw [resumeAt]
        rcases hlast : (page.changes ++ changesOf lens committed [u]).getLast? with _ | c
        · have hnil := (List.append_eq_nil_iff.1 (List.getLast?_eq_none_iff.1 hlast)).1
          rw [hnext, hnil]
          rfl
        · rfl
      rw [hresume]
      split
      · rename_i hfull
        refine ⟨[u], us, rfl, rfl, rfl, .inr ⟨rfl, hfull.2, hfull.1, u, rfl, hr, Nat.lt_of_not_le hafter⟩,
          fun hnil => absurd hnil hfull.2, fun x v y hsplit hy => ?_⟩
        rcases x with _ | ⟨w, x⟩
        · exact hy.elim (absurd (List.cons.inj hsplit).2.symm) fun hend => nomatch hend.1
        · simp at hsplit
      · rename_i hfull
        obtain ⟨walked, rest, rfl, hwalked⟩ := @ih ⟨page.changes ++ changesOf lens committed [u],
          resumeAt lens.after (page.changes ++ changesOf lens committed [u]), page.complete⟩ hus rfl
          hcomplete
        refine ⟨u :: walked, rest, rfl, hwalked.cons (fun hend => ?_) fun hne _ _ => ?_⟩
        · rw [hend] at hstate
          exact hstate ▸ by decide
        · exact Nat.lt_of_not_le fun hle => hfull ⟨hle, hne⟩

/-- A page ends with the position it was asked from, or with that of a record. -/
theorem Walked.next_cases {walked rest : List (List (WalRecord Operation))}
    (h : Walked lens limit committed [] page walked rest) :
    page.next = lens.after ∨ ∃ r ∈ walked.flatten, page.next = r.operationId := by
  rw [h.next, resumeAt]
  rcases hlast : page.changes.getLast? with _ | c
  · exact .inl rfl
  have hc := List.mem_of_getLast? hlast
  rw [h.changes, List.nil_append, mem_changesOf] at hc
  obtain ⟨u, hu, -, hc⟩ := hc
  obtain ⟨r, hr, hseq⟩ := mem_emitUnit hc
  exact .inr ⟨r, List.mem_flatten.2 ⟨u, hu, hr⟩, hseq⟩

/-- Positions that ascend along the log ascend within its units. -/
theorem rising_of_positions {records : List (WalRecord Operation)}
    (h : records.Pairwise (·.operationId < ·.operationId)) : ∀ u ∈ durableUnits records, Rising u := by
  intro u hu r hr
  rw [← flatten_durableUnits records, List.pairwise_flatten] at h
  rcases List.eq_nil_or_concat' u with rfl | ⟨body, last, rfl⟩
  · cases hr
  · rw [lastPosition, List.getLast?_concat]
    rcases List.mem_append.1 hr with hr | hr
    · exact ((List.pairwise_append.1 (h.1 _ hu)).2.2 r hr last List.mem_cons_self).le
    · exact (congrArg WalRecord.operationId (List.mem_singleton.1 hr)).le

end Walk

/-! ## The scan of a log that recovery accepts -/

section Scan

variable {records : List (WalRecord Operation)} {counters : Counters}

theorem validatePositions_eq_ok (h : records.Pairwise (·.operationId < ·.operationId)) :
    validatePositions records = .ok () := by
  induction records with
  | nil => rfl
  | cons previous records ih =>
    obtain ⟨hprevious, hrest⟩ := List.pairwise_cons.1 h
    rcases records with _ | ⟨record, records⟩
    · rfl
    rw [validatePositions, if_neg (hprevious record List.mem_cons_self).not_ge]
    exact ih hrest

theorem SoundLog.scan_eq (hlog : SoundLog records counters)
    (hpositions : records.Pairwise (·.operationId < ·.operationId)) :
    ∃ committed, (∀ u, IsUnit u → u ⊆ records → Reported committed u) ∧
      (∀ id, (∀ r ∈ records, r.transactionId = id → r.operation ≠ .commit) →
        ∀ entry ∈ committed, entry.1 ≠ id) ∧
      ∀ scanHorizon limit lens, scan scanHorizon records limit lens =
        if lens.after < horizon scanHorizon records then
          .error (.tooOld ⟨lens.after, horizon scanHorizon records, records.length⟩)
        else .ok (walk lens limit committed ⟨[], lens.after, true⟩ (FacetQL.durableUnits records)) := by
  obtain ⟨committed, hok, hmem⟩ := hlog.accepted
  refine ⟨committed, fun u hu hsub isTail => ?_, fun id hno entry hentry heq => ?_,
    fun scanHorizon limit lens => ?_⟩
  · cases hu with
    | standalone r hid hop => simp only [frameState, if_pos hid]
    | frame b c body hid hbegin hbody hclose hcommit =>
      have hentry : (b.transactionId, c.sequence) ∈ committed :=
        (hmem _ _).2 ⟨c, hsub (by simp), hclose, hcommit, rfl⟩
      have hany : (committed.any fun entry => entry.1 = b.transactionId) = true :=
        List.any_eq_true.2 ⟨_, hentry, by simp⟩
      simp only [frameState, if_neg hid, if_pos hany]
  · obtain ⟨r, hr, hid, hcommit, -⟩ := (hmem entry.1 entry.2).1 hentry
    exact hno r hr (hid.trans heq) hcommit
  · rw [scan, validatePositions_eq_ok hpositions, hok]

/-- A frame that is not committed, and has no ABORT, is in flight at the end of the log. -/
theorem frameState_open {committed : List (Nat × Nat)} {u : List (WalRecord Operation)} {id : Nat}
    (hne : u ≠ []) (hid : id ≠ standaloneTransactionId) (hsame : ∀ r ∈ u, r.transactionId = id)
    (habort : ∀ r ∈ u, r.operation ≠ .abort) (hno : ∀ entry ∈ committed, entry.1 ≠ id) :
    frameState committed true u = .inFlight := by
  rcases u with _ | ⟨first, u⟩
  · exact absurd rfl hne
  have hfirst := hsame first List.mem_cons_self
  have hany : ¬ (committed.any fun entry => entry.1 = first.transactionId) = true := by
    rw [List.any_eq_true]
    rintro ⟨entry, hentry, heq⟩
    exact hno entry hentry ((of_decide_eq_true heq).trans hfirst)
  have haborted : ¬ (((first :: u).any fun r => r.operation = .abort) || !true) = true := by
    simp only [Bool.not_true, Bool.or_false, List.any_eq_true]
    rintro ⟨r, hr, heq⟩
    exact habort r hr (of_decide_eq_true heq)
  simp only [frameState]
  rw [if_neg (hfirst ▸ hid), if_neg hany, if_neg haborted]

end Scan

end FacetQL
