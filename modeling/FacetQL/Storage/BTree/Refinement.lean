import FacetQL.Storage.BTree.Steps

/-!
# A tree is a sorted map

The purpose of a tree is a map from keys to values, with an order on the keys.
Here the map is a function, and what the reads of a tree have to answer is said
in terms of it.

* `refines_of_puts_lt`: a tree answers what the map says, as long as there are page ids;
* `not_refines`: without that bound it does not.
-/

namespace FacetQL

namespace BTree

open Function SortedMap

/-! ## The abstract map -/

/-- A map from keys to values. -/
abbrev KeyMap := Bytes → Option Bytes

namespace Call

/-- What a call does to the map. -/
def apply : Call → KeyMap → KeyMap
  | put key value, f => update f key (some value)
  | remove key, f => update f key none
  | commit, f => f

/-- What a call has to answer. -/
def reply : Call → KeyMap → Reply
  | remove key, f => .removed (f key).isSome
  | _, _ => .done

end Call

/-- The map after some calls. A put that is refused leaves it as it is. -/
def applyCalls (cs : List Call) (f : KeyMap) : KeyMap :=
  cs.foldl (fun f c => if c.Accepted then c.apply f else f) f

/-- What the calls of a run have to answer. -/
def replies : List Call → KeyMap → List Reply
  | [], _ => []
  | c :: cs, f => c.reply f :: replies cs (c.apply f)

/-- The keys a seek from `key` looks at. -/
def SeekMode.Side : SeekMode → (key other : Bytes) → Prop
  | .ge, key, other => key ≤ other
  | .gt, key, other => key < other
  | .le, key, other => other ≤ key
  | .lt, key, other => other < key

/-- The first key is as near to the key of the seek as the second one. -/
def SeekMode.Nearer (mode : SeekMode) (a b : Bytes) : Prop := if mode.forward then a ≤ b else b ≤ a

/-- The answer of a seek: the nearest live entry on its side, or none when there is none. -/
def Nearest (f : KeyMap) (mode : SeekMode) (key : Bytes) : Option (Bytes × Bytes) → Prop
  | none => ∀ other, mode.Side key other → f other = none
  | some (found, value) => f found = some value ∧ mode.Side key found ∧
      ∀ other, mode.Side key other → (f other).isSome → mode.Nearer found other

/-- The live entries with the prefix strictly past `startAfter`, once each, in the scan's
    direction. -/
structure Range (f : KeyMap) (pre : Bytes) (startAfter : Option Bytes) (reverse : Bool)
    (l : List (Bytes × Bytes)) : Prop where
  mem : ∀ k v, (k, v) ∈ l ↔ f k = some v ∧ pre <+: k ∧
    ∀ c ∈ startAfter, if reverse then k < c else c < k
  ordered : l.Pairwise fun a b => if reverse then b.1 < a.1 else a.1 < b.1

/-- The reads answer from the map, and leave the tree as it is; a scan ends with one turn more
    than it has entries to visit. A read makes no page id, however wide these are. -/
structure Answers (m : Machine) (f : KeyMap) : Prop where
  get : ∀ key, m.run (get key) = (.ok (f key), m)
  len : m.run len = (.ok {key | (f key).isSome}.ncard, m)
  seek : ∀ key mode, ∃ r, m.run (seek key mode) = (.ok r, m) ∧ Nearest f mode key r
  range : ∀ pre startAfter reverse, (∀ c ∈ startAfter, pre <+: c) →
    ∃ l, Range f pre startAfter reverse l ∧
      ∀ (β : Type) (visit : Bytes → Bytes → β → Except IoError (Bool × β)) (b : β) (turns : Nat),
        l.length < turns → m.run (forEachRange visit pre startAfter reverse turns b) =
          ((visitAll visit l b).map some, m)

/-! ## The entries and the map -/

/-- The entries are those of the map. -/
def Represents (l : List (Bytes × Bytes)) (f : KeyMap) : Prop := ∀ k, find k l = f k

variable {m m' : Machine} {h h' : Nat} {f : KeyMap} {l : List (Bytes × Bytes)} {k v : Bytes}

theorem Represents.mem (hr : Represents l f) (hs : Sorted l) : (k, v) ∈ l ↔ f k = some v := by
  rw [← hr k, hs.find_eq_some]

theorem Represents.edit (hr : Represents l f) (hs : Sorted l) (c : Call) :
    Represents (c.edit l) (c.apply f) := by
  intro k
  cases c with
  | put key value =>
    by_cases hk : k = key
    · rw [hk, Call.edit, Call.apply, hs.find_insert_self, update_self]
    · rw [Call.edit, Call.apply, hs.find_insert_of_ne hk, update_of_ne hk, hr k]
  | remove key =>
    by_cases hk : k = key
    · rw [hk, Call.edit, Call.apply, find_erase_self, update_self]
    · rw [Call.edit, Call.apply, hs.find_erase_of_ne hk, update_of_ne hk, hr k]
  | commit => exact hr k

theorem Represents.replyOf (hr : Represents l f) (c : Call) : c.replyOf l = c.reply f := by
  cases c with
  | remove key => rw [Call.replyOf, Call.reply, hr key]
  | _ => rfl

/-- The number of entries is the number of live keys. -/
theorem Represents.ncard (hr : Represents l f) (hs : Sorted l) :
    {key | (f key).isSome}.ncard = l.length := by
  have hkeys : {key | (f key).isSome} = ↑(l.map Prod.fst).toFinset := by
    ext key
    simp only [Set.mem_ofPred_eq, Option.isSome_iff_exists, List.coe_toFinset, List.mem_map]
    constructor
    · rintro ⟨v, hv⟩
      exact ⟨(key, v), (hr.mem hs).2 hv, rfl⟩
    · rintro ⟨⟨_, v⟩, hv, rfl⟩
      exact ⟨v, (hr.mem hs).1 hv⟩
  have hnodup : (l.map Prod.fst).Nodup := List.pairwise_map.2 (hs.imp fun hab => hab.ne)
  rw [hkeys, Set.ncard_coe_finset, List.toFinset_card_of_nodup hnodup, List.length_map]

/-- The first live entry on the side of a seek, in its direction, is the nearest one. -/
theorem nearest_head {mode : SeekMode} {key : Bytes} {es : List (Bytes × Bytes)}
    (hmem : ∀ k v, (k, v) ∈ es ↔ f k = some v ∧ mode.Side key k)
    (hord : es.Pairwise fun a b => mode.Nearer a.1 b.1) : Nearest f mode key es.head? := by
  rcases es with _ | ⟨e, es⟩
  · intro other hside
    by_contra hlive
    obtain ⟨v, hv⟩ := Option.ne_none_iff_exists'.1 hlive
    simpa using (hmem other v).2 ⟨hv, hside⟩
  obtain ⟨hfirst, -⟩ := List.pairwise_cons.1 hord
  obtain ⟨hlive, hside⟩ := (hmem e.1 e.2).1 (by simp)
  refine ⟨hlive, hside, fun other hother hsome => ?_⟩
  obtain ⟨v, hv⟩ := Option.isSome_iff_exists.1 hsome
  rcases List.mem_cons.1 ((hmem other v).2 ⟨hv, hother⟩) with he | he
  · rw [SeekMode.Nearer, ← he]
    split_ifs <;> exact le_rfl
  · exact hfirst _ he

/-- The entry a tree answers a seek with is the nearest one. -/
theorem Represents.nearest (hr : Represents l f) (hs : Sorted l) (mode : SeekMode) (key : Bytes) :
    Nearest f mode key (nearest mode key l) := by
  -- Backward, the candidates are looked at from the last one on.
  cases mode with
  | ge =>
    refine nearest_head (fun k v => ?_) ((hs.filter _).imp le_of_lt)
    simp [SeekMode.Side, hr.mem hs]
  | gt =>
    refine nearest_head (fun k v => ?_) (hs.above.imp le_of_lt)
    simp [SeekMode.Side, hr.mem hs]
  | le =>
    rw [BTree.nearest, atMost, ← List.head?_reverse]
    refine nearest_head (fun k v => ?_) (List.pairwise_reverse.2 ((hs.filter _).imp le_of_lt))
    simp [SeekMode.Side, hr.mem hs]
  | lt =>
    rw [BTree.nearest, ← List.head?_reverse]
    refine nearest_head (fun k v => ?_) (List.pairwise_reverse.2 (hs.below.imp le_of_lt))
    simp [SeekMode.Side, hr.mem hs]

theorem Represents.range (hr : Represents l f) (hs : Sorted l) (pre : Bytes)
    (startAfter : Option Bytes) (reverse : Bool) :
    Range f pre startAfter reverse (inRange pre startAfter reverse l) := by
  have hpast : Sorted (past reverse startAfter l) := by
    cases reverse <;> cases startAfter
    exacts [hs, hs.above, hs, hs.below]
  rcases reverse with _ | _
  · refine ⟨fun k v => ?_, ?_⟩
    · cases startAfter <;> simp [inRange, past, hr.mem hs, and_comm, and_assoc, and_left_comm]
    · simpa [inRange] using hpast.filter _
  refine ⟨fun k v => ?_, ?_⟩
  · cases startAfter <;> simp [inRange, past, hr.mem hs, and_comm, and_assoc, and_left_comm]
  · exact List.pairwise_reverse.2 (hpast.filter _)

/-- The reads answer from a map that holds the tree's entries, if no descent is too deep. -/
theorem represents_answers (hinv : TreeInv m h) (hh : h < maxTreeDepth)
    (hr : Represents (contents m h) f) : Answers m f where
  get key := by rw [run_get hinv hh key, hr key]
  len := by rw [run_len hinv, hr.ncard hinv.sorted]
  seek key mode := ⟨_, run_seek hinv hh key mode, hr.nearest hinv.sorted mode key⟩
  range pre startAfter reverse hstart := ⟨_, hr.range hinv.sorted pre startAfter reverse,
    fun _ visit b turns hturns => run_withSnapshot (run_forEachRangeAt (m := pinned m) visit hinv.wf
      hh pre reverse turns startAfter b hstart hturns)⟩

/-! ## Runs -/

/-- The puts of a run. -/
def puts (cs : List Call) : Nat := cs.countP Call.isPut

theorem six_pow_le_grown (n : Nat) : 6 ^ n ≤ grown (n + 1) := by
  rw [grown, Finset.sum_range_succ]
  omega

theorem level_le {n d : Nat} (hspent : spent m h ≤ maxBranchCell * n) (hn : n < 6 ^ d) : h ≤ d := by
  by_contra hh
  have hgrown : maxBranchCell * grown h ≤ maxBranchCell * n := (Nat.le_add_left _ _).trans hspent
  have hle : grown h ≤ n := Nat.le_of_mul_le_mul_left hgrown (by decide)
  have hpow : 6 ^ d ≤ grown h := (six_pow_le_grown d).trans (grown_mono (not_le.1 hh))
  omega

theorem level_lt_maxTreeDepth {n : Nat} (hspent : spent m h ≤ maxBranchCell * n) (hn : n < 6 ^ 63) :
    h < maxTreeDepth :=
  Nat.lt_succ_of_le (level_le hspent hn)

/-- In a run with too few puts to be too deep, the tree holds the map and accepted calls answer. -/
theorem runCalls_refines (cs : List Call) {n : Nat} (hinv : TreeInv m h)
    (hr : Represents (contents m h) f) (hspent : spent m h ≤ maxBranchCell * n)
    (hn : n + puts cs < 6 ^ 63) : ∃ m' h', (runCalls cs m).2 = m' ∧
      ((∀ c ∈ cs, c.Accepted) → (runCalls cs m).1 = (replies cs f).map .ok) ∧ TreeInv m' h' ∧
      spent m' h' ≤ maxBranchCell * (n + puts cs) ∧
      Represents (contents m' h') (applyCalls cs f) := by
  induction cs generalizing m h f n with
  | nil => exact ⟨m, h, rfl, fun _ => rfl, hinv, hspent, hr⟩
  | cons c cs ih =>
    have hputs : puts (c :: cs) = puts cs + if c.isPut then 1 else 0 := List.countP_cons
    by_cases hacc : c.Accepted
    · have hh : h < maxTreeDepth := level_lt_maxTreeDepth hspent (by omega)
      rcases run_call hinv c with ⟨m₁, h₁, hrun, hcall⟩ | ⟨-, hrefused | ⟨-, hdeep⟩⟩
      · have hr₁ : Represents (contents m₁ h₁) (c.apply f) := by
          rw [hcall.contents]
          exact hr.edit hinv.sorted c
        have hspent₁ : spent m₁ h₁ ≤ maxBranchCell * (n + if c.isPut then 1 else 0) := by
          refine (hcall.spent.trans (Nat.add_le_add_right hspent _)).trans_eq ?_
          split_ifs <;> rfl
        obtain ⟨m', h', hruns, hreplies, hinv', hspent', hr'⟩ := ih hcall.inv hr₁ hspent₁ (by omega)
        refine ⟨m', h', ?_, fun hok => ?_, hinv', ?_, ?_⟩
        · rw [runCalls, hrun, hruns]
        · rw [runCalls, hrun, hreplies fun d hd => hok d (List.mem_cons_of_mem c hd), hr.replyOf]
          rfl
        · rwa [hputs, Nat.add_comm (puts cs), ← Nat.add_assoc]
        · rwa [applyCalls, List.foldl_cons, if_pos hacc]
      · exact absurd hacc hrefused
      · omega
    · obtain ⟨e, hrun⟩ := run_refused (m := m) hacc
      obtain ⟨m', h', hruns, -, hinv', hspent', hr'⟩ := ih hinv hr hspent (by omega)
      refine ⟨m', h', ?_, fun hok => absurd (hok c List.mem_cons_self) hacc, hinv', ?_, ?_⟩
      · rw [runCalls, hrun, hruns]
      · exact hspent'.trans (Nat.mul_le_mul_left _ (by omega))
      · rwa [applyCalls, List.foldl_cons, if_neg hacc]

/-- A new tree is in order and empty. -/
theorem openTree_fresh (file : Machine) (hfile : file.pager.pageCount < firstDataPage)
    (path : String) : ∃ m, file.run (openTree path) = (.ok (), m) ∧ TreeInv m 0 ∧
      contents m 0 = [] := by
  obtain ⟨hinv, hempty⟩ := startedTree_inv file
  obtain ⟨hinv', hcontents, -, -⟩ := hinv.committed
  exact ⟨_, run_openTree_fresh hfile path, hinv', hcontents.trans hempty⟩

/-- So it is with a run of calls on a new file. -/
theorem openTree_runCalls {file : Machine} (hfile : file.pager.pageCount < firstDataPage)
    (path : String) {cs : List Call} (hputs : puts cs < 6 ^ 63) :
    ∃ m m' h, file.run (openTree path) = (.ok (), m) ∧ (runCalls cs m).2 = m' ∧
      ((∀ c ∈ cs, c.Accepted) → (runCalls cs m).1 = (replies cs fun _ => none).map .ok) ∧
      TreeInv m' h ∧ spent m' h ≤ maxBranchCell * puts cs ∧
      Represents (contents m' h) (applyCalls cs fun _ => none) := by
  obtain ⟨m, hopen, hinv, hempty⟩ := openTree_fresh file hfile path
  have hspent : spent m 0 ≤ maxBranchCell * 0 := by simp [spent, excessAt, grown]
  obtain ⟨m', h, hrun, hreplies, hinv', hspent', hr⟩ :=
    runCalls_refines cs (f := fun _ => none) hinv (by rw [hempty]; exact fun _ => rfl) hspent
      (by omega)
  exact ⟨m, m', h, hopen, hrun, hreplies, hinv', by rwa [Nat.zero_add] at hspent', hr⟩

/-- The file is still below the limit of the page ids after a run of calls on it. -/
abbrev StaysRoomy (file : Machine) (path : String) (cs : List Call) : Prop :=
  Roomy (runCalls cs (file.run (openTree path)).2).2

/-- A run of accepted calls on a new file that stays below the limit of the page ids. -/
theorem openTree_execCalls {file : Machine} (hfile : file.pager.pageCount < firstDataPage)
    {path : String} {cs : List Call} (hok : ∀ c ∈ cs, c.Accepted) (hputs : puts cs < 6 ^ 63)
    (hroom : StaysRoomy file path cs) :
    ∃ m m' h, file.exec (openTree path) = (.ok (), m) ∧
      execCalls cs m = ((replies cs fun _ => none).map .ok, m') ∧ TreeInv m' h ∧
      spent m' h ≤ maxBranchCell * puts cs ∧
      Represents (contents m' h) (applyCalls cs fun _ => none) := by
  obtain ⟨m, m', h, hopen, rfl, hreplies, hinv, hspent, hr⟩ := openTree_runCalls hfile path hputs
  rw [StaysRoomy, hopen] at hroom
  refine ⟨m, _, h, (exec_openTree file path).trans hopen, ?_, hinv, hspent, hr⟩
  rw [execCalls_eq cs hroom, ← hreplies hok]

/-- A run of calls on a new file answers what the sorted map says, and so do the reads after it. -/
def Refines (file : Machine) (path : String) (cs : List Call) : Prop :=
  ∃ m m', file.exec (openTree path) = (.ok (), m) ∧
    execCalls cs m = ((replies cs fun _ => none).map .ok, m') ∧
    Answers m' (applyCalls cs fun _ => none)

/-- A tree on a new file refines a sorted map, in every run of puts, removals and commits with
    fewer than `6 ^ 63` puts in which the file stays below `2 ^ 32` pages. -/
theorem refines_of_puts_lt (file : Machine) (hfile : file.pager.pageCount < firstDataPage)
    (path : String) (cs : List Call) (hok : ∀ c ∈ cs, c.Accepted) (hputs : puts cs < 6 ^ 63)
    (hroom : StaysRoomy file path cs) : Refines file path cs := by
  obtain ⟨m, m', h, hopen, hrun, hinv, hspent, hr⟩ := openTree_execCalls hfile hok hputs hroom
  exact ⟨m, m', hopen, hrun, represents_answers hinv (level_lt_maxTreeDepth hspent hputs) hr⟩

def newFile : Machine := ⟨⟨"index", 0, fun _ => none, []⟩, ⟨0, 0, 0, [], ∅, []⟩⟩

theorem refines_put_put_remove : Refines newFile "index"
    [.put [1] [7], .put [2] [8], .commit, .remove [1]] :=
  refines_of_puts_lt newFile (by decide) "index" _ (by decide) (by decide)
    (by decide)

theorem length_lt_of_fits {α : Type} {len : α → Nat} {cells : List α} (hfits : Page.fits len cells) :
    cells.length < 2 ^ 14 := by
  have hused : cells.length * slotLen ≤ Page.used len cells := by
    have hle : ∀ x ∈ cells.map fun c => len c + slotLen, slotLen ≤ x := by
      simp only [List.mem_map]
      rintro _ ⟨c, -, rfl⟩
      exact Nat.le_add_left _ _
    have hsum := List.card_nsmul_le_sum _ slotLen hle
    rwa [List.length_map, smul_eq_mul] at hsum
  have hcap : maxCellLen + slotLen < 2 ^ 14 * slotLen := by decide
  exact Nat.lt_of_mul_lt_mul_right ((hused.trans hfits).trans_lt hcap)

/-- The pages of the file have ids of 32 bits, and their leaves are made ones. -/
def Narrow (m : Machine) : Prop :=
  ∀ id page, (id, page) ∈ m.pager.pending ∨ m.pager.disk id = some page →
    id < pageLimit ∧ Made True page

theorem mem_of_lookup {ws : List (PageId × TreePage)} {id : PageId} {page : TreePage}
    (h : ws.lookup id = some page) : (id, page) ∈ ws := by
  obtain ⟨pre, post, rfl, -⟩ := List.lookup_eq_some_iff.1 h
  simp

theorem Narrow.page? (hm : Narrow m) {id : PageId} {page : TreePage}
    (hpage : m.pager.page? id = some page) : id < pageLimit ∧ Made True page := by
  refine hm id page ?_
  unfold Pager.page? at hpage
  split at hpage
  next hlookup => exact .inl (mem_of_lookup (hlookup.trans hpage))
  · split_ifs at hpage
    exact .inr hpage

theorem Narrow.readsMade (hm : Narrow m) (op : PagerOp) : ReadsMade True op (m.answer op).1 := by
  cases op with
  | read id => exact fun page hread => (hm.page? (Pager.read_eq_ok.1 hread)).2
  | _ => trivial

theorem Narrow.answer (hm : Narrow m) {op : PagerOp} (hop : Quiet True op) :
    Narrow (m.answer op).2 := by
  cases op with
  | write id page =>
    rintro id' page' (hmem | hdisk)
    · rcases List.mem_cons.1 hmem with heq | hmem
      · obtain ⟨rfl, rfl⟩ := Prod.mk.inj heq
        exact ⟨Nat.mod_lt _ (by decide), hop⟩
      · exact hm id' page' (.inl hmem)
    · exact hm id' page' (.inr hdisk)
  | flush | setPageCount pages => exact hop.elim
  | _ => exact hm

theorem Narrow.exec {α : Type} {p : TreeProgram α} {Q : α → Prop} (hm : Narrow m)
    (hp : Quietly True Q p) : Narrow (m.exec p).2 :=
  (hp.run (I := Narrow) (fun op _ h => h.readsMade op) (fun _ _ hop h => h.answer hop) hm).1

theorem Narrow.execCalls (hm : Narrow m) {cs : List Call} (hcs : ∀ c ∈ cs, c ≠ .commit) :
    Narrow (execCalls cs m).2 := by
  induction cs generalizing m with
  | nil => exact hm
  | cons c cs ih =>
    exact ih (hm.exec (Call.program_quietly (hcs c List.mem_cons_self)))
      fun d hd => hcs d (List.mem_cons_of_mem c hd)

/-- A read answers with the page of the file. -/
def ReadsFile (m : Machine) : (op : PagerOp) → op.Answer → Prop
  | .read id, r => ∀ page, r = .ok page → m.pager.page? id = some page
  | _, _ => True

/-- A value that a read finds stands in a leaf of the file. -/
theorem exists_cell_of_get {key value : Bytes} (hget : (m.run (get key)).1 = .ok (some value)) :
    ∃ id page, m.pager.page? id = some page ∧ ∃ cell ∈ leafCells page, cell.value = value := by
  have hrun : (m.run (get key)).1 = ((pinned m).run (getAt m.state.root key)).1 := by
    rw [get, withSnapshot, Machine.run_bind_ok (run_snapshot m)]
    simp only [Machine.run, Program.run_bind, Program.run_attempt, Program.run_ofExcept]
    rfl
  have hmeets : (getAt m.state.root key).Meets (ReadsFile m) (fun op => ∃ id, op = .read id)
      fun r => ∀ v, r = some v →
        ∃ id page, m.pager.page? id = some page ∧ ∃ cell ∈ leafCells page, cell.value = v := by
    have hP : ∀ id, ∃ id', PagerOp.read id = .read id' := fun id => ⟨id, rfl⟩
    refine (descend_meets hP _ _ _).bind fun leaf _ => (readPage_meets hP fun _ h => h).bind
      fun page hpage => ?_
    split
    · intro v hv
      obtain ⟨cell, hcell, rfl⟩ := Option.map_eq_some_iff.1 hv
      exact ⟨leaf, page, hpage, cell, List.mem_of_getElem? hcell, rfl⟩
    · rintro v ⟨⟩
  refine (hmeets.run (I := fun m' => m'.pager = m.pager) (s := pinned m) ?_ ?_ rfl).2 _
    (hrun ▸ hget) value rfl
  · rintro (_ | _) m' hm'
    all_goals first | trivial | exact fun page hread => hm' ▸ Pager.read_eq_ok.1 hread
  · rintro _ m' ⟨id, rfl⟩ hm'
    exact hm'

/-- Puts of some keys of 6 bytes, with the key as its value. -/
def putSelf (ks : List (Fin 6 → Byte)) : List Call :=
  ks.map fun k => .put (List.ofFn k) (List.ofFn k)

variable {ks : List (Fin 6 → Byte)}

theorem exists_of_mem_putSelf {c : Call} (hc : c ∈ putSelf ks) :
    ∃ k : Fin 6 → Byte, c = .put (List.ofFn k) (List.ofFn k) := by
  obtain ⟨k, -, rfl⟩ := List.mem_map.1 hc
  exact ⟨k, rfl⟩

theorem putSelf_accepted : ∀ c ∈ putSelf ks, c.Accepted := by
  intro c hc
  obtain ⟨k, rfl⟩ := exists_of_mem_putSelf hc
  have hlen : (List.ofFn k).length = 6 := List.length_ofFn
  exact ⟨List.length_pos_iff.1 (by omega), by rw [hlen]; decide, by rw [hlen]; decide⟩

theorem applyCalls_putSelf {k : Fin 6 → Byte}
    (hk : k ∈ ks ∨ f (List.ofFn k) = some (List.ofFn k)) :
    applyCalls (putSelf ks) f (List.ofFn k) = some (List.ofFn k) := by
  induction ks generalizing f with
  | nil => exact hk.resolve_left List.not_mem_nil
  | cons key ks ih =>
    have hacc := @putSelf_accepted (key :: ks) _ List.mem_cons_self
    rw [putSelf, List.map_cons, applyCalls, List.foldl_cons, if_pos hacc]
    refine ih ?_
    by_cases hkey : k = key
    · exact .inr (by rw [hkey, Call.apply, update_self])
    · rw [Call.apply, update_of_ne fun heq => hkey (List.ofFn_injective heq)]
      exact hk.imp_left fun hk => (List.mem_cons.1 hk).resolve_left hkey

noncomputable def allKeys (n : Nat) : List (Fin n → Byte) := Finset.univ.toList

theorem mem_allKeys {n : Nat} (k : Fin n → Byte) : k ∈ allKeys n :=
  Finset.mem_toList.2 (Finset.mem_univ k)

theorem pow_le_of_injective {n pages slots : Nat} {f : (Fin n → Byte) → Fin pages × Fin slots}
    (hf : Injective f) : 256 ^ n ≤ pages * slots := by
  simpa using Fintype.card_le_of_injective f hf

theorem narrow_newFile : Narrow (newFile.exec (openTree "index")).2 := by
  rw [exec_openTree, run_openTree_fresh (by decide)]
  rintro id page (hmem | hdisk)
  · exact absurd hmem List.not_mem_nil
  -- The file has the meta page and the empty leaf.
  rcases Option.or_eq_some_iff.1 hdisk with h | ⟨-, h⟩
  · obtain ⟨rfl, rfl⟩ := Prod.mk.inj (List.mem_singleton.1 (mem_of_lookup h))
    exact ⟨by decide, made_of_nil rfl⟩
  rcases Option.or_eq_some_iff.1 h with h | ⟨-, h⟩
  · obtain ⟨rfl, rfl⟩ := Prod.mk.inj (List.mem_singleton.1 (mem_of_lookup h))
    exact ⟨by decide, made_of_nil rfl⟩
  · cases h

/-- Some key does not have its value: `2 ^ 32` pages have no room for `256 ^ 6` of them. -/
theorem exists_get_ne (hm : Narrow m) : ∃ k : Fin 6 → Byte,
    (m.run (get (List.ofFn k))).1 ≠ .ok (some (List.ofFn k)) := by
  by_contra! hall
  have hcell : ∀ k : Fin 6 → Byte, ∃ (id : Fin pageLimit) (slot : Fin (2 ^ 14)),
      ((m.pager.page? id).bind fun page => ((leafCells page)[slot.val]?).map LeafCell.value) =
        some (List.ofFn k) := by
    intro k
    obtain ⟨id, page, hpage, cell, hmem, hvalue⟩ := exists_cell_of_get (hall k)
    obtain ⟨slot, hslot, hget⟩ := List.mem_iff_getElem.1 hmem
    obtain ⟨hid, hmade⟩ := hm.page? hpage
    have hlt : slot < 2 ^ 14 := hslot.trans (length_lt_of_fits (hmade trivial).fits)
    exact ⟨⟨id, hid⟩, ⟨slot, hlt⟩, by simp [hpage, List.getElem?_eq_getElem hslot, hget, hvalue]⟩
  choose id slot hvalue using hcell
  have hinj : Injective fun k => (id k, slot k) := by
    intro k k' heq
    obtain ⟨hid, hslot⟩ := Prod.mk.inj heq
    exact List.ofFn_injective (Option.some.inj ((hvalue k).symm.trans (hid ▸ hslot ▸ hvalue k')))
  exact absurd (pow_le_of_injective hinj) (by norm_num [pageLimit])

theorem narrow_putAll : Narrow (execCalls (putSelf (allKeys 6)) (newFile.exec (openTree "index")).2).2 := by
  refine narrow_newFile.execCalls fun c hc => ?_
  obtain ⟨k, rfl⟩ := exists_of_mem_putSelf hc
  exact nofun

/-- Without a bound on the pages, a tree does not refine a sorted map. -/
theorem not_refines : ¬ ∀ (file : Machine) (path : String) (cs : List Call),
    file.pager.pageCount < firstDataPage → (∀ c ∈ cs, c.Accepted) → Refines file path cs := by
  intro hall
  obtain ⟨m, m', hopen, hrun, hans⟩ :=
    hall newFile "index" (putSelf (allKeys 6)) (by decide) putSelf_accepted
  have hnarrow := narrow_putAll
  rw [hopen, hrun] at hnarrow
  obtain ⟨k, hk⟩ := exists_get_ne hnarrow
  rw [hans.get, applyCalls_putSelf (.inl (mem_allKeys k))] at hk
  exact hk rfl

end BTree

end FacetQL
