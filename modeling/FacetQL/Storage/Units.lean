import FacetQL.Storage.OperationId

/-!
# Durable units

The log as a sequence of units: a standalone record, or the records of one frame. What is
committed is a standalone mutation, or a frame from its BEGIN to its COMMIT; since every
mutation holds the writer lock, its records lie next to each other, and an open frame is
at the end of the log.
-/

namespace FacetQL

variable {μ : Type}

/-- The records of a committed unit: a standalone mutation, or a frame up to its COMMIT. -/
inductive IsUnit : List (WalRecord μ) → Prop
  | standalone (r : WalRecord μ) (hid : r.transactionId = standaloneTransactionId)
      (hop : r.operation.isControl = false) : IsUnit [r]
  | frame (b c : WalRecord μ) (body : List (WalRecord μ))
      (hid : b.transactionId ≠ standaloneTransactionId) (hbegin : b.operation = .begin)
      (hbody : ∀ r ∈ body, r.transactionId = b.transactionId ∧ r.operation.isControl = false)
      (hclose : c.transactionId = b.transactionId) (hcommit : c.operation = .commit) :
      IsUnit (b :: (body ++ [c]))

/-- The unit that begins with a record, and what comes after it. -/
def durableUnit (r : WalRecord μ) (rs : List (WalRecord μ)) :
    List (WalRecord μ) × List (WalRecord μ) :=
  if r.transactionId = standaloneTransactionId then ([r], rs)
  else
    (r :: rs.takeWhile fun r' => r'.transactionId = r.transactionId,
      rs.dropWhile fun r' => r'.transactionId = r.transactionId)

theorem length_durableUnit (r : WalRecord μ) (rs : List (WalRecord μ)) :
    (durableUnit r rs).2.length < (r :: rs).length := by
  rw [durableUnit]
  split
  · exact Nat.lt_succ_self _
  · exact Nat.lt_succ_of_le (List.dropWhile_suffix _).length_le

/-- A log, cut into its units. -/
def durableUnits : List (WalRecord μ) → List (List (WalRecord μ))
  | [] => []
  | r :: rs => (durableUnit r rs).1 :: durableUnits (durableUnit r rs).2
termination_by records => records.length
decreasing_by exact length_durableUnit r rs

section Units

variable {r : WalRecord μ} {records u v : List (WalRecord μ)}

theorem durableUnit_append (r : WalRecord μ) (rs : List (WalRecord μ)) :
    (durableUnit r rs).1 ++ (durableUnit r rs).2 = r :: rs := by
  rw [durableUnit]
  split
  · rfl
  · rw [List.cons_append, List.takeWhile_append_dropWhile]

theorem flatten_durableUnits (records : List (WalRecord μ)) :
    (durableUnits records).flatten = records := by
  fun_induction durableUnits records with
  | case1 => rfl
  | case2 r rs ih => rw [List.flatten_cons, ih, durableUnit_append]

theorem subset_of_mem_durableUnits {records u : List (WalRecord μ)} (h : u ∈ durableUnits records) :
    u ⊆ records := fun r hr => by
  rw [← flatten_durableUnits records]
  exact List.mem_flatten.2 ⟨u, h, hr⟩

/-- No frame of one part of the log goes on at the beginning of the next. -/
def Separate (u v : List (WalRecord μ)) : Prop :=
  ∀ x ∈ u, ∀ y ∈ v.head?, x.transactionId = y.transactionId →
    x.transactionId = standaloneTransactionId

/-- Nothing of what follows is taken if it begins with an element without the property. -/
theorem span_append {α : Type} {p : α → Bool} {ys : List α} (hys : ∀ y ∈ ys.head?, p y = false)
    (xs : List α) : (xs ++ ys).takeWhile p = xs.takeWhile p ∧
      (xs ++ ys).dropWhile p = xs.dropWhile p ++ ys := by
  induction xs with
  | nil =>
    rcases ys with _ | ⟨y, ys⟩
    · exact ⟨rfl, rfl⟩
    have hy := hys y rfl
    simp [hy]
  | cons x xs ih =>
    cases hx : p x with
    | false => simp [hx]
    | true => simp [hx, ih]

theorem durableUnits_append (hsep : Separate u v) :
    durableUnits (u ++ v) = durableUnits u ++ durableUnits v := by
  fun_induction durableUnits u with
  | case1 => rfl
  | case2 r rs ih =>
    have hstop : durableUnit r (rs ++ v) = ((durableUnit r rs).1, (durableUnit r rs).2 ++ v) := by
      by_cases hid : r.transactionId = standaloneTransactionId
      · simp only [durableUnit, if_pos hid]
      · have hv : ∀ y ∈ v.head?, decide (y.transactionId = r.transactionId) = false := fun y hy =>
          decide_eq_false fun heq => hid (hsep r List.mem_cons_self y hy heq.symm)
        obtain ⟨htake, hdrop⟩ := span_append hv rs
        simp only [durableUnit, if_neg hid, htake, hdrop]
    rw [List.cons_append, durableUnits, hstop, ih, List.cons_append]
    intro x hx y hy
    refine hsep x ?_ y hy
    have hmem := List.mem_append_right (durableUnit r rs).1 hx
    rwa [durableUnit_append] at hmem

/-- The records of one frame are one unit. -/
theorem durableUnits_of_same {id : Nat} (hid : id ≠ standaloneTransactionId)
    (hsame : ∀ r ∈ u, r.transactionId = id) (hne : u ≠ []) : durableUnits u = [u] := by
  rcases u with _ | ⟨r, rs⟩
  · exact absurd rfl hne
  obtain ⟨hr, hrs⟩ := List.forall_mem_cons.1 hsame
  have hall : ∀ r' ∈ rs, decide (r'.transactionId = r.transactionId) = true :=
    fun r' hr' => decide_eq_true ((hrs r' hr').trans hr.symm)
  rw [durableUnits, durableUnit, if_neg (hr ▸ hid), List.takeWhile_eq_self_iff.2 hall,
    List.dropWhile_eq_nil_iff.2 hall, durableUnits]

theorem IsUnit.ne_nil (hu : IsUnit u) : u ≠ [] := by
  cases hu <;> exact List.cons_ne_nil _ _

theorem IsUnit.durableUnits (hu : IsUnit u) : durableUnits u = [u] := by
  cases hu with
  | standalone r hid hop => rw [FacetQL.durableUnits, durableUnit, if_pos hid, FacetQL.durableUnits]
  | frame b c body hid hbegin hbody hclose hcommit =>
    refine durableUnits_of_same hid (List.forall_mem_cons.2 ⟨rfl, fun r hr => ?_⟩)
      (List.cons_ne_nil _ _)
    rcases List.mem_append.1 hr with hr | hr
    · exact (hbody r hr).1
    · exact List.mem_singleton.1 hr ▸ hclose

theorem IsUnit.getLast (hu : IsUnit u) : ∃ body last, u = body ++ [last] ∧
    (last.transactionId = standaloneTransactionId ∨ last.operation = .commit) := by
  cases hu with
  | standalone r hid hop => exact ⟨[], r, rfl, .inl hid⟩
  | frame b c body hid hbegin hbody hclose hcommit => exact ⟨b :: body, c, rfl, .inr hcommit⟩

theorem SoundLog.frameOf_outside {n : Counters} (hlog : SoundLog records n) {b c : WalRecord μ}
    {body x y : List (WalRecord μ)} (hrecords : records = x ++ (b :: (body ++ [c]) ++ y))
    (hid : b.transactionId ≠ standaloneTransactionId) (hbegin : b.operation = .begin)
    (hclose : c.transactionId = b.transactionId) (hcommit : c.operation = .commit) :
    frameOf x b.transactionId = [] ∧ frameOf y b.transactionId = [] := by
  have hpiece := hlog.pieces b.transactionId hid
  constructor
  · -- BEGIN is the first record of its frame.
    have hframe : frameOf records b.transactionId = frameOf x b.transactionId ++
        b :: frameOf (body ++ [c] ++ y) b.transactionId := by
      rw [hrecords, frameOf_append, List.cons_append]
      simp [frameOf]
    rcases hpiece with ⟨b', rest, outcome, heq, -, hclosed⟩ | hno
    · rw [hframe] at heq
      rcases hx : frameOf x b.transactionId with _ | ⟨z, zs⟩
      · rfl
      rw [hx, List.cons_append] at heq
      obtain ⟨-, rfl⟩ := List.cons.inj heq
      exact absurd hbegin (hclosed.no_begin b (List.mem_append_right _ List.mem_cons_self))
    · rw [hframe] at hno
      exact absurd hbegin (hno b (List.mem_append_right _ List.mem_cons_self)).1
  · obtain ⟨outcome, hf⟩ := hpiece.frame
    have hc : records = (x ++ b :: body) ++ c :: y := by simp [hrecords]
    rcases outcome with _ | e
    · have hmem : c ∈ frameOf records b.transactionId := mem_frameOf.2 ⟨by simp [hc], hclose⟩
      exact absurd hcommit (hf.no_commit c hmem)
    rw [hc, ← hclose] at hf
    exact hclose ▸ (hf.at_commit hcommit).2.1

theorem SoundLog.separate {n : Counters} (hlog : SoundLog records n) {x y : List (WalRecord μ)}
    (hrecords : records = x ++ (u ++ y)) (hu : IsUnit u) : Separate x (u ++ y) ∧ Separate u y := by
  cases hu with
  | standalone r hid hop =>
    refine ⟨fun a _ z hz heq => ?_, fun a ha z _ _ => (List.mem_singleton.1 ha) ▸ hid⟩
    obtain rfl : r = z := Option.some.inj hz
    exact heq.trans hid
  | frame b c body hid hbegin hbody hclose hcommit =>
    obtain ⟨hx, hy⟩ := hlog.frameOf_outside hrecords hid hbegin hclose hcommit
    constructor
    · intro a ha z hz heq
      obtain rfl : b = z := Option.some.inj hz
      exact absurd (mem_frameOf.2 ⟨ha, heq⟩) (hx ▸ List.not_mem_nil)
    intro a ha z hz heq
    have hsame : a.transactionId = b.transactionId := by
      rcases List.mem_cons.1 ha with rfl | ha
      · rfl
      · rcases List.mem_append.1 ha with ha | ha
        · exact (hbody a ha).1
        · exact List.mem_singleton.1 ha ▸ hclose
    exact absurd (mem_frameOf.2 ⟨List.mem_of_mem_head? hz, heq.symm.trans hsame⟩)
      (hy ▸ List.not_mem_nil)

theorem SoundLog.durableUnits {c : Counters} (hlog : SoundLog records c) {x y : List (WalRecord μ)}
    (hrecords : records = x ++ (u ++ y)) (hu : IsUnit u) :
    durableUnits records = FacetQL.durableUnits x ++ u :: FacetQL.durableUnits y := by
  obtain ⟨hleft, hright⟩ := hlog.separate hrecords hu
  rw [hrecords, durableUnits_append hleft, durableUnits_append hright, hu.durableUnits]
  rfl

end Units

/-- A unit that ends with the record that is appended. -/
theorem IsUnit.at_end {h pre u post : List (WalRecord μ)} {r : WalRecord μ} (hu : IsUnit u)
    (heq : h ++ [r] = pre ++ (u ++ post)) (hlen : h.length < pre.length + u.length) :
    ∃ body, u = body ++ [r] ∧ h = pre ++ body := by
  obtain ⟨body, last, rfl, -⟩ := hu.getLast
  have hpost : post = [] := by
    have hlengths := congrArg List.length heq
    simp only [List.length_append, List.length_singleton] at hlengths hlen
    exact List.eq_nil_of_length_eq_zero (by omega)
  rw [hpost, List.append_nil, ← List.append_assoc] at heq
  obtain ⟨hh, hr⟩ := List.append_inj' heq rfl
  exact ⟨body, List.singleton_inj.1 hr ▸ rfl, hh⟩

/-- A frame that is completed at the end of the log has no more than its own records. -/
theorem IsUnit.start_le {x muts pre body : List (WalRecord μ)} {b c : WalRecord μ}
    (hu : IsUnit (body ++ [c])) (hbegin : b.operation = .begin) (heq : x ++ b :: muts = pre ++ body) :
    x.length ≤ pre.length := by
  by_contra hlt
  -- The BEGIN of the frame would be in the middle of the unit.
  obtain ⟨rest, hx, hbody⟩ : ∃ rest, x = pre ++ rest ∧ body = rest ++ b :: muts := by
    rcases List.append_eq_append_iff.1 heq with ⟨rest, hpre, -⟩ | ⟨rest, hx, hbody⟩
    · exact absurd (hpre ▸ by simp) hlt
    · exact ⟨rest, hx, hbody⟩
  have hrest : rest ≠ [] := by
    rintro rfl
    exact hlt (by simp [hx])
  obtain ⟨z, zs, rfl⟩ := List.exists_cons_of_ne_nil hrest
  generalize hwhole : body ++ [c] = whole at hu
  rw [hbody, List.cons_append, List.cons_append] at hwhole
  cases hu with
  | standalone r hid hop => simp at hwhole
  | frame b' c' body' hid hbegin' hbody' hclose hcommit =>
    obtain ⟨-, htail⟩ := List.cons.inj hwhole
    have hmem : b ∈ body' := by
      obtain ⟨hbodies, -⟩ := List.append_inj' htail rfl
      exact hbodies ▸ List.mem_append_right _ List.mem_cons_self
    have hcontrol := (hbody' b hmem).2
    rw [hbegin] at hcontrol
    cases hcontrol

namespace Writer

variable {w w' : Writer μ}

/-- The records of a frame that is still open. -/
def openRecords (w : Writer μ) : List (WalRecord μ) :=
  match w.frame with
  | some f => if f.commitSequence = none then frameOf w.log f.transactionId else []
  | none => []

/-- How many records of the log are no part of a frame that is still open. -/
def settled (w : Writer μ) : Nat := w.log.length - w.openRecords.length

/-- Operation ids ascend along the log, and a frame that is still open ends it. -/
structure Placed (w : Writer μ) : Prop where
  opened : w.openRecords <:+ w.log
  positions : w.log.Pairwise (·.operationId < ·.operationId)
  below : ∀ r ∈ w.log, r.operationId < w.counters.operationId

theorem placed_empty : Placed (empty : Writer μ) := ⟨List.suffix_rfl, .nil, nofun⟩

theorem openRecords_of_none (hframe : w.frame = none) : w.openRecords = [] := by
  rw [openRecords, hframe]

theorem openRecords_of_some {f : StagedCommit} (hframe : w.frame = some f)
    (hopen : f.commitSequence = none) : w.openRecords = frameOf w.log f.transactionId := by
  rw [openRecords, hframe]
  exact if_pos hopen

theorem openRecords_of_committed {f : StagedCommit} {c : Nat} (hframe : w.frame = some f)
    (hcommit : f.commitSequence = some c) : w.openRecords = [] := by
  rw [openRecords, hframe]
  exact if_neg (hcommit ▸ Option.some_ne_none c)

theorem settled_le (w : Writer μ) : w.settled ≤ w.log.length := Nat.sub_le _ _

theorem Placed.settled_add (h : w.Placed) : w.settled + w.openRecords.length = w.log.length :=
  Nat.sub_add_cancel h.opened.length_le

/-- The log with a record appended. -/
structure Appends (w w' : Writer μ) (r : WalRecord μ) : Prop where
  log : w'.log = w.log ++ [r]
  sequence : r.sequence = w.counters.sequence
  position : r.operationId = w.counters.operationId
  counter : w.counters.operationId < w'.counters.operationId
  /-- A unit that it completes does not begin before the frame that was open. -/
  unit : ∀ {h pre body : List (WalRecord μ)}, IsUnit (body ++ [r]) → h ++ w.log = pre ++ body →
    h.length + w.settled ≤ pre.length
  /-- A COMMIT completes the unit that ends the log. -/
  closes : r.operation = .commit → ∃ pre body, w.log = pre ++ body ∧ IsUnit (body ++ [r])

theorem Placed.append (h : w.Placed) {r : WalRecord μ} (happend : Appends w w' r)
    (hopened : w'.openRecords <:+ w'.log) : w'.Placed := by
  have hbelow : ∀ r' ∈ w'.log, r'.operationId < w'.counters.operationId := by
    intro r' hr'
    rw [happend.log, List.mem_append, List.mem_singleton] at hr'
    rcases hr' with hr' | rfl
    · exact (h.below r' hr').trans happend.counter
    · exact happend.position ▸ happend.counter
  refine ⟨hopened, ?_, hbelow⟩
  rw [happend.log, List.pairwise_append]
  refine ⟨h.positions, List.pairwise_singleton _ _, fun r' hr' x hx => ?_⟩
  rw [List.mem_singleton.1 hx, happend.position]
  exact h.below r' hr'

/-! ## The steps of a process -/

theorem settled_of_none (hframe : w.frame = none) : w.settled = w.log.length := by
  rw [settled, openRecords_of_none hframe]
  rfl

theorem not_isUnit_concat {body : List (WalRecord μ)} {r : WalRecord μ}
    (hid : r.transactionId ≠ standaloneTransactionId) (hop : r.operation ≠ .commit) :
    ¬ IsUnit (body ++ [r]) := by
  intro hu
  obtain ⟨body', last, heq, hlast⟩ := hu.getLast
  obtain ⟨-, hr⟩ := List.append_inj' heq rfl
  rw [← List.singleton_inj.1 hr] at hlast
  exact hlast.elim hid hop

theorem appends_control (w w' : Writer μ) (id : Nat) (op : WalOperation μ)
    (hid : id ≠ standaloneTransactionId) (hop : op ≠ .commit) (hlog : w'.log = (w.append id op).log)
    (hcounter : w'.counters.operationId = w.counters.operationId + 1) :
    ∃ r, Appends w w' r ∧ r.transactionId = id ∧ r.operation = op :=
  ⟨_, ⟨hlog, rfl, rfl, hcounter ▸ Nat.lt_succ_self _, fun hu _ => absurd hu (not_isUnit_concat hid hop),
    fun hcommit => absurd hcommit hop⟩, rfl, rfl⟩

theorem appends_standalone (hframe : w.frame = none) (op : μ) (succeeds : Bool) :
    ∃ r, Appends w (w.standalone op succeeds) r := by
  have hlog : (w.standalone op succeeds).log = (w.append standaloneTransactionId (.mutation op)).log := by
    cases succeeds <;> rfl
  have hcounters : (w.standalone op succeeds).counters.operationId = w.counters.operationId + 1 := by
    cases succeeds <;> rfl
  refine ⟨_, hlog, rfl, rfl, hcounters ▸ Nat.lt_succ_self _, fun {h pre body} hu heq => ?_, nofun⟩
  -- It is a unit of its own.
  have hbody : body = [] := by
    generalize hwhole : body ++ [_] = whole at hu
    cases hu with
    | standalone r hid hop =>
      rcases List.append_eq_singleton_iff.1 hwhole with hone | hone
      · exact hone.1
      · cases hone.2
    | frame b c body' hid hbegin hbody' hclose hcommit =>
      rw [← List.cons_append] at hwhole
      obtain ⟨-, hc⟩ := List.append_inj' hwhole rfl
      rw [← List.singleton_inj.1 hc] at hclose
      exact absurd hclose.symm hid
  rw [settled_of_none hframe, ← List.length_append, heq, hbody, List.append_nil]

theorem OpenFrame.tail {f : StagedCommit} (hopen : w.OpenFrame f) (h : w.Placed)
    (hframe : w.frame = some f) (hnone : f.commitSequence = none) :
    ∃ x b muts, w.log = x ++ b :: muts ∧ b.operation = .begin ∧ w.openRecords = b :: muts ∧
      x.length = w.settled ∧ ∀ r ∈ muts, r.operation.isControl = false := by
  obtain ⟨b, muts, hrecords, hbegin, -, hmuts⟩ := hopen.records
  have hopened := h.opened
  have hsettled := h.settled_add
  rw [openRecords_of_some hframe hnone, hrecords] at hopened hsettled
  obtain ⟨x, hx⟩ := hopened
  refine ⟨x, b, muts, hx.symm, hbegin, (openRecords_of_some hframe hnone).trans hrecords, ?_, hmuts⟩
  have hlength := congrArg List.length hx
  rw [List.length_append] at hlength
  omega

theorem appends_commit (h : w.Placed) {f : StagedCommit} (hopen : w.OpenFrame f)
    (hframe : w.frame = some f) (hnone : f.commitSequence = none) :
    ∃ r, Appends w (w.commit f) r := by
  obtain ⟨x, b, muts, hlog, hbegin, hrecords, hx, hmuts⟩ := hopen.tail h hframe hnone
  refine ⟨_, rfl, rfl, rfl, Nat.lt_succ_self _, fun {h pre body} hu heq => ?_, fun hcommit => ?_⟩
  · rw [hlog, ← List.append_assoc] at heq
    have hstart := hu.start_le hbegin heq
    rwa [List.length_append, hx] at hstart
  have hsame : ∀ r ∈ b :: muts, r.transactionId = f.transactionId := fun r hr =>
    (mem_frameOf.1 (openRecords_of_some hframe hnone ▸ hrecords ▸ hr)).2
  obtain ⟨hb, hids⟩ := List.forall_mem_cons.1 hsame
  refine ⟨x, b :: muts, hlog, .frame b _ muts (hb ▸ hopen.id_ne) hbegin (fun r hr => ?_) hb.symm hcommit⟩
  exact ⟨(hids r hr).trans hb.symm, hmuts r hr⟩

/-- A step that leaves the log alone, and may close the frame. -/
theorem Placed.same (h : w.Placed) (w' : Writer μ) (hlog : w'.log = w.log)
    (hcounter : w.counters.operationId ≤ w'.counters.operationId)
    (hopened : w'.openRecords = [] ∨ w'.openRecords = w.openRecords) :
    w'.Placed ∧ w.settled ≤ w'.settled := by
  refine ⟨⟨?_, hlog ▸ h.positions, fun r hr => (h.below r (hlog ▸ hr)).trans_le hcounter⟩, ?_⟩
  · rcases hopened with hopened | hopened
    · exact hopened ▸ List.nil_suffix
    · exact hopened ▸ hlog ▸ h.opened
  · rw [settled, settled, hlog]
    rcases hopened with hopened | hopened
    · exact hopened ▸ Nat.sub_le _ _
    · rw [hopened]

theorem Placed.step (hinv : w.Inv) (h : w.Placed) (hstep : ProcessStep w w')
    (hgrows : w.log <+: w'.log) : w'.Placed ∧ w.settled ≤ w'.settled ∧
      ((w'.log = w.log ∧ w.counters.operationId ≤ w'.counters.operationId) ∨
        ∃ r, Appends w w' r) := by
  cases hstep with
  | standalone hframe op succeeds =>
    obtain ⟨r, happend⟩ := appends_standalone hframe op succeeds
    have hframe' : (w.standalone op succeeds).frame = none := by cases succeeds <;> exact hframe
    refine ⟨h.append happend ?_, ?_, .inr ⟨r, happend⟩⟩
    · rw [openRecords_of_none hframe']
      exact List.nil_suffix
    · rw [settled_of_none hframe, settled_of_none hframe', happend.log, List.length_append]
      exact Nat.le_add_right _ _
  | openFrame hframe =>
    obtain ⟨r, happend, hid, -⟩ := appends_control w w.openFrame w.counters.transactionId .begin
      hinv.log.positive.2.1.ne' (by simp) rfl rfl
    have hopened : w.openFrame.openRecords = [r] := by
      rw [openRecords_of_some rfl rfl, happend.log]
      change frameOf (w.log ++ [r]) w.counters.transactionId = [r]
      rw [frameOf_append, hinv.log.frameOf_next, frameOf_singleton, if_pos hid]
      rfl
    refine ⟨h.append happend ?_, ?_, .inr ⟨r, happend⟩⟩
    · rw [hopened, happend.log]
      exact List.suffix_append _ _
    · rw [settled_of_none hframe, settled, hopened, happend.log, List.length_append]
      exact (Nat.add_sub_cancel _ _).ge
  | @stage f hframe hopen op =>
    obtain ⟨r, happend, hid, -⟩ := appends_control w (w.stage f op) f.transactionId (.mutation op)
      (hinv.frame f hframe hopen).id_ne (by simp) rfl rfl
    have hopened : (w.stage f op).openRecords = w.openRecords ++ [r] := by
      rw [openRecords_of_some (w := w.stage f op) hframe hopen, openRecords_of_some hframe hopen,
        happend.log, frameOf_append, frameOf_singleton, if_pos hid]
    refine ⟨h.append happend ?_, ?_, .inr ⟨r, happend⟩⟩
    · rw [hopened, happend.log]
      obtain ⟨x, hx⟩ := h.opened
      exact ⟨x, by rw [← List.append_assoc, hx]⟩
    · rw [settled, settled, hopened, happend.log, List.length_append, List.length_append]
      exact (Nat.add_sub_add_right _ _ _).ge
  | @commit f hframe hopen =>
    obtain ⟨r, happend⟩ := appends_commit h (hinv.frame f hframe hopen) hframe hopen
    have hopened : (w.commit f).openRecords = [] := openRecords_of_committed rfl rfl
    refine ⟨h.append happend ?_, ?_, .inr ⟨r, happend⟩⟩
    · rw [hopened]
      exact List.nil_suffix
    · rw [settled, settled, hopened, happend.log, List.length_append]
      exact (Nat.sub_le _ _).trans (Nat.le_add_right _ _)
  | settle hframe hcommit =>
    obtain ⟨hplaced, hsettled⟩ := h.same (w.settle _ _) rfl le_rfl (.inl (openRecords_of_none rfl))
    exact ⟨hplaced, hsettled, .inl ⟨rfl, le_rfl⟩⟩
  | @drop f hframe aborts =>
    rcases hcommit : f.commitSequence with _ | c
    · have hdrop : w.drop f aborts = if aborts then
          { w with fences := w.fences.erase f.beginSequence, frame := none }.append f.transactionId .abort
          else { w with fences := w.fences.erase f.beginSequence, frame := none } := by
        rw [Writer.drop, hcommit]
      cases aborts with
      | false =>
        rw [hdrop]
        obtain ⟨hplaced, hsettled⟩ := h.same
          ({ w with fences := w.fences.erase f.beginSequence, frame := none }) rfl le_rfl
          (.inl (openRecords_of_none rfl))
        exact ⟨hplaced, hsettled, .inl ⟨rfl, le_rfl⟩⟩
      | true =>
        rw [hdrop]
        obtain ⟨r, happend, -⟩ := appends_control w ({ w with
          fences := w.fences.erase f.beginSequence
          frame := none }.append f.transactionId .abort) f.transactionId .abort
          (hinv.frame f hframe hcommit).id_ne (by simp) rfl rfl
        refine ⟨h.append happend ?_, ?_, .inr ⟨r, happend⟩⟩
        · rw [if_pos rfl, openRecords_of_none rfl]
          exact List.nil_suffix
        · rw [if_pos rfl]
          refine w.settled_le.trans ?_
          rw [settled_of_none rfl, happend.log, List.length_append]
          exact Nat.le_add_right _ _
    have hdrop : w.drop f aborts = { w with frame := none } := by rw [Writer.drop, hcommit]
    rw [hdrop]
    obtain ⟨hplaced, hsettled⟩ := h.same { w with frame := none } rfl le_rfl
      (.inl (openRecords_of_none rfl))
    exact ⟨hplaced, hsettled, .inl ⟨rfl, le_rfl⟩⟩
  | advance =>
    rw [advance_eq]
    obtain ⟨hplaced, hsettled⟩ := h.same { w with checkpoint := w.advance.checkpoint } rfl le_rfl
      (.inr rfl)
    exact ⟨hplaced, hsettled, .inl ⟨rfl, le_rfl⟩⟩
  | rotate =>
    have hsame : FacetQL.rotate w.checkpoint w.log = w.log :=
      (hgrows.eq_of_length_le (List.length_filter_le _ _)).symm
    rw [hsame]
    exact ⟨h, le_rfl, .inl ⟨rfl, le_rfl⟩⟩
  | burn c hsequence htransaction hoperation =>
    obtain ⟨hplaced, hsettled⟩ := h.same { w with counters := c } rfl hoperation (.inr rfl)
    exact ⟨hplaced, hsettled, .inl ⟨rfl, hoperation⟩⟩

/-! ## Rotation and restart -/

theorem rotate_append {log : List (WalRecord μ)} (hasc : Ascending log) (checkpoint : Nat) :
    (log.filter fun r => r.sequence ≤ checkpoint) ++ rotate checkpoint log = log := by
  induction log with
  | nil => rfl
  | cons r log ih =>
    obtain ⟨hr, hasc⟩ := List.pairwise_cons.1 hasc
    by_cases hle : r.sequence ≤ checkpoint
    · rw [rotate, List.filter_cons_of_pos (by simpa using hle),
        List.filter_cons_of_neg (by simpa using hle), List.cons_append]
      exact congrArg (r :: ·) (ih hasc)
    -- Nothing after it is dropped.
    have hkeep : ∀ r' ∈ r :: log, checkpoint < r'.sequence := by
      refine List.forall_mem_cons.2 ⟨Nat.lt_of_not_le hle, fun r' hr' => ?_⟩
      exact (Nat.lt_of_not_le hle).trans (hr r' hr')
    rw [rotate, List.filter_eq_nil_iff.2 fun r' hr' => by simpa using hkeep r' hr',
      List.filter_eq_self.2 fun r' hr' => by simpa using hkeep r' hr', List.nil_append]

/-- A rotation drops nothing of a frame that is still open. -/
theorem Inv.openRecords_rotate (hinv : w.Inv) :
    openRecords { w with log := FacetQL.rotate w.checkpoint w.log } = w.openRecords := by
  rcases hframe : w.frame with _ | f
  · rw [openRecords_of_none hframe, openRecords_of_none rfl]
  rcases hcommit : f.commitSequence with _ | c
  · rw [openRecords_of_some hframe hcommit, openRecords_of_some rfl hcommit]
    have hopen := hinv.frame f hframe hcommit
    obtain ⟨b, muts, hrecords, -, hbegin, -⟩ := hopen.records
    have habove : ∀ r ∈ frameOf w.log f.transactionId, w.checkpoint < r.sequence := by
      have hasc := frameOf_ascending hinv.log.asc f.transactionId
      have hb : w.checkpoint < b.sequence := hbegin ▸ hopen.marks _ (.inl rfl)
      rw [hrecords] at hasc ⊢
      exact List.forall_mem_cons.2 ⟨hb, fun r hr => hb.trans ((List.pairwise_cons.1 hasc).1 r hr)⟩
    rw [frameOf, FacetQL.rotate, List.filter_filter, frameOf]
    refine List.filter_congr fun r hr => ?_
    by_cases hid : r.transactionId = f.transactionId
    · simp [hid, habove r (mem_frameOf.2 ⟨hr, hid⟩)]
    · simp [hid]
  · rw [openRecords_of_committed hframe hcommit, openRecords_of_committed rfl hcommit]

theorem Placed.rotate (hinv : w.Inv) (h : w.Placed) :
    Placed { w with log := FacetQL.rotate w.checkpoint w.log } ∧
    (w.log.filter fun r => r.sequence ≤ w.checkpoint).length +
      settled { w with log := FacetQL.rotate w.checkpoint w.log } = w.settled := by
  have hopened := hinv.openRecords_rotate
  have happend := rotate_append hinv.log.asc w.checkpoint
  have hsub : w.openRecords.length ≤ (FacetQL.rotate w.checkpoint w.log).length := by
    rw [← hopened, openRecords]
    split
    · split
      · exact List.length_filter_le _ _
      · exact Nat.zero_le _
    · exact Nat.zero_le _
  have hsuffix : w.openRecords <:+ FacetQL.rotate w.checkpoint w.log :=
    List.suffix_of_suffix_length_le h.opened ⟨_, happend⟩ hsub
  refine ⟨⟨hopened ▸ hsuffix, h.positions.filter _, fun r hr => ?_⟩, ?_⟩
  · exact h.below r (List.mem_filter.1 hr).1
  · rw [settled, settled, hopened, ← Nat.add_sub_assoc hsub, ← List.length_append, happend]

theorem Placed.restart (h : w.Placed) (keep : Nat) : (w.restart keep).Placed := by
  refine ⟨List.nil_suffix, h.positions.sublist (List.take_sublist _ _), fun r hr => ?_⟩
  exact lt_restart_iff.2 (.inr ⟨r, hr, le_rfl⟩)

end Writer

end FacetQL
