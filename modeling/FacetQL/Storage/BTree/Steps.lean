import FacetQL.Storage.BTree.Calls

/-!
# Between two calls of the pager

A put or a removal can be observed, by a reader or by a crash, between any two of
its calls of the pager. Until the next commit nothing is flushed: the written
pages pile up on the pending ones, so that what is pending in the middle of a
call is part of what is pending at its end.
-/

namespace FacetQL

open Program (Calls Meets meets_ofExcept meets_perform)

namespace BTree

section Reads

variable {A : (op : PagerOp) → op.Answer → Prop} {P : PagerOp → Prop} (hP : ∀ id, P (.read id))
include hP

theorem readPage_meets {id : PageId} {Q : TreePage → Prop}
    (hA : ∀ r, A (.read id) r → ∀ page, r = .ok page → Q page) : (readPage id).Meets A P Q :=
  (meets_perform (hP id) hA).bind fun r hr => meets_ofExcept r hr

theorem descend_meets (levels : Nat) (id : PageId) (key : Bytes) :
    (descend levels id key).Meets A P fun _ => True := by
  induction levels generalizing id with
  | zero => trivial
  | succ levels ih =>
    refine (readPage_meets hP fun _ _ _ _ => trivial).bind fun page _ => ?_
    cases page with
    | leaf cells | metaPage record => trivial
    | branch extra cells => exact ih _

theorem getAt_meets (root : PageId) (key : Bytes) :
    (getAt root key).Meets A P fun _ => True := by
  refine (descend_meets hP _ _ _).bind fun leaf _ =>
    (readPage_meets hP fun _ _ _ _ => trivial).bind fun page _ => ?_
  split <;> trivial

end Reads

section Quiet

variable (strict : Prop)

/-- The cells of a leaf are ones that the operations on pages make, if `strict` holds. -/
def Made (page : TreePage) : Prop := strict → Page.Built LeafCell.len (leafCells page)

/-- The pages that a call reads are made ones. -/
def ReadsMade : (op : PagerOp) → op.Answer → Prop
  | .read _, r => ∀ page, r = .ok page → Made strict page
  | _, _ => True

/-- A call that flushes nothing, does not shorten the file, and writes a made page. -/
def Quiet : PagerOp → Prop
  | .flush => False
  | .setPageCount _ => False
  | .write _ page => Made strict page
  | _ => True

/-- A program makes quiet calls, and ends in `Q`, as long as the pages it reads are made ones. -/
abbrev Quietly {α : Type} (Q : α → Prop) (p : TreeProgram α) : Prop :=
  p.Meets (ReadsMade strict) (Quiet strict) Q

variable {strict} {α : Type} (id : PageId) (key : Bytes)

theorem made_of_nil {page : TreePage} (h : leafCells page = []) : Made strict page :=
  fun _ => h ▸ .new

theorem readPage_quiet : Quietly strict (Made strict) (readPage id) :=
  readPage_meets (fun _ => trivial) fun _ h => h

theorem state_quiet : Quietly strict (fun _ => True) (perform .state) := ⟨trivial, fun _ _ => trivial⟩

theorem writePage_quiet {page : TreePage} (h : Made strict page) :
    Quietly strict (fun _ => True) (writePage id page) := ⟨h, fun _ _ => trivial⟩

theorem writePage_return_quiet {page : TreePage} (h : Made strict page) (a : α) :
    Quietly strict (fun _ => True) (do writePage id page; return a) := ⟨h, fun _ _ => trivial⟩

theorem modifyState_quiet (f : TreeState → TreeState) :
    Quietly strict (fun _ => True) (modifyState f) := ⟨trivial, fun _ _ => ⟨trivial, fun _ _ => trivial⟩⟩

theorem withLock_quiet {p : TreeProgram α} {Q : α → Prop} (hp : Quietly strict Q p) :
    Quietly strict Q (withLock p) :=
  ⟨trivial, fun _ _ => hp.attempt.bind fun r hr => ⟨trivial, fun _ _ => meets_ofExcept r hr⟩⟩

theorem allocate_quiet : Quietly strict (fun _ => True) allocate := by
  refine state_quiet.bind fun s _ => ?_
  split <;> exact ⟨trivial, fun _ _ => trivial⟩

theorem cow_quiet : Quietly strict (fun copy => Made strict copy.2) (cow id) := by
  refine (readPage_quiet id).bind fun page hpage => state_quiet.bind fun s _ => ?_
  split_ifs
  · exact hpage
  · exact allocate_quiet.bind fun _ _ => (modifyState_quiet _).bind fun _ _ =>
      (modifyState_quiet _).bind fun _ _ => hpage

theorem get_quiet : Quietly strict (fun _ => True) (get key) := by
  have hsnap : Quietly strict (fun _ => True) snapshot :=
    withLock_quiet (state_quiet.bind fun _ _ => ⟨trivial, fun _ _ => trivial⟩)
  exact hsnap.bind fun snap _ => (getAt_meets (fun _ => trivial) _ _).attempt.bind fun r _ =>
    (withLock_quiet (modifyState_quiet _)).bind fun _ _ => meets_ofExcept r fun _ _ => trivial

theorem rebuild_quiet (len : α → Nat) (cells : List α) :
    Quietly strict (Page.Built len) (rebuild len cells) := by
  unfold rebuild
  split
  next built hbuild => exact Page.built_of_buildPage hbuild
  · trivial

/-- Publish the two halves of a page. -/
theorem halves_quiet {left right : TreePage} (hleft : Made strict left)
    (hright : Made strict right) (out : PageId → Insert) :
    Quietly strict (fun _ => True) (do
      let rightId ← allocate
      markDirty rightId
      writePage id left
      writePage rightId right
      return out rightId) :=
  allocate_quiet.bind fun _ _ => (modifyState_quiet _).bind fun _ _ =>
    (writePage_quiet _ hleft).bind fun _ _ => writePage_return_quiet _ hright _

theorem splitLeaf_quiet (cells : List LeafCell) :
    Quietly strict (fun _ => True) (splitLeaf id cells) := by
  unfold splitLeaf
  split
  · trivial
  · refine (rebuild_quiet _ _).bind fun _ hleft => (rebuild_quiet _ _).bind fun _ hright =>
      halves_quiet _ ?_ ?_ _
    exacts [fun _ => hleft, fun _ => hright]

theorem insertIntoLeaf_quiet (value : Bytes) :
    Quietly strict (fun _ => True) (insertIntoLeaf id key value) := by
  refine (cow_quiet id).bind fun ⟨id', page⟩ hpage => ?_
  dsimp only
  split <;> split
  · refine writePage_return_quiet _ ?_ _
    exact fun hs => .replace _ _ (hpage hs)
  · exact splitLeaf_quiet _ _
  · refine writePage_return_quiet _ (fun hs => ?_) _
    rcases hins : Page.insertCell LeafCell.len (leafCells page) _ _ with _ | cells
    · exact hpage hs
    · exact .insert (hpage hs) hins
  · exact splitLeaf_quiet _ _

theorem splitBranch_quiet (extra : PageId) (cells : List BranchCell) :
    Quietly strict (fun _ => True) (splitBranch id extra cells) := by
  unfold splitBranch
  split
  · trivial
  · exact (rebuild_quiet _ _).bind fun _ _ => (rebuild_quiet _ _).bind fun _ _ =>
      halves_quiet _ (made_of_nil rfl) (made_of_nil rfl) _

theorem replaceChild_quiet (slot : Nat) (child : PageId) (out : Insert) :
    Quietly strict (fun _ => True) (replaceChild id slot child out) := by
  cases out with
  | kept newChild =>
    rw [replaceChild]
    split_ifs
    · trivial
    · exact (cow_quiet id).bind fun _ _ => writePage_return_quiet _ (made_of_nil rfl) _
  | split left separator right =>
    refine (cow_quiet id).bind fun copy _ => ?_
    obtain ⟨id', page⟩ := copy
    dsimp only
    split_ifs
    · exact writePage_return_quiet _ (made_of_nil rfl) _
    · exact splitBranch_quiet _ _ _

theorem insertInto_quiet (value : Bytes) (levels : Nat) (id : PageId) :
    Quietly strict (fun _ => True) (insertInto key value levels id) := by
  induction levels generalizing id with
  | zero => trivial
  | succ levels ih =>
    refine (readPage_quiet id).bind fun page _ => ?_
    cases page with
    | leaf cells => exact insertIntoLeaf_quiet _ _ _
    | branch extra cells =>
      exact (readPage_quiet id).bind fun _ _ => (ih _).bind fun _ _ => replaceChild_quiet _ _ _ _
    | metaPage record => trivial

theorem installRoot_quiet (out : Insert) : Quietly strict (fun _ => True) (installRoot out) := by
  cases out with
  | kept page => exact modifyState_quiet _
  | split left separator right =>
    rw [installRoot]
    split
    · trivial
    · exact allocate_quiet.bind fun _ _ => (modifyState_quiet _).bind fun _ _ =>
        (writePage_quiet _ (made_of_nil rfl)).bind fun _ _ => modifyState_quiet _

theorem put_quiet (value : Bytes) : Quietly strict (fun _ => True) (put key value) := by
  unfold put
  split_ifs
  · trivial
  · trivial
  refine (get_quiet key).bind fun existed _ => withLock_quiet <| state_quiet.bind fun s _ =>
    (insertInto_quiet _ _ _ _).bind fun out _ => (installRoot_quiet out).bind fun _ _ => ?_
  split_ifs
  · trivial
  · exact modifyState_quiet _

theorem updateChild_quiet (slot : Nat) (outcome : Removal) :
    Quietly strict (fun _ => True) (updateChild id slot outcome) := by
  refine (cow_quiet id).bind fun ⟨id', page⟩ _ => ?_
  dsimp only
  have hwrite : ∀ extra cells (r : Removal), Quietly strict (fun _ => True) (do
      writePage id' (.branch extra cells); return r) :=
    fun _ _ _ => writePage_return_quiet _ (made_of_nil rfl) _
  split_ifs
  · exact (modifyState_quiet _).bind fun _ _ => hwrite _ _ _
  · exact (modifyState_quiet _).bind fun _ _ => hwrite _ _ _
  · exact hwrite _ _ _

theorem removeFrom_quiet (levels : Nat) (id : PageId) :
    Quietly strict (fun _ => True) (removeFrom key levels id) := by
  induction levels generalizing id with
  | zero => trivial
  | succ levels ih =>
    refine (readPage_quiet id).bind fun page _ => ?_
    cases page with
    | leaf cells =>
      dsimp only
      split
      · trivial
      · refine (cow_quiet id).bind fun _ hpage => writePage_return_quiet _ ?_ _
        exact fun hs => .remove _ (hpage hs)
    | branch extra cells =>
      refine (ih _).bind fun outcome _ => ?_
      split_ifs
      · exact updateChild_quiet _ _ _
      · trivial
    | metaPage record => trivial

theorem collapseRoot_quiet (turns : Nat) :
    Quietly strict (fun _ => True) (collapseRoot turns) := by
  induction turns with
  | zero => trivial
  | succ turns ih =>
    refine state_quiet.bind fun s _ => (readPage_quiet _).bind fun page _ => ?_
    split
    · exact (modifyState_quiet _).bind fun _ _ => (modifyState_quiet _).bind fun _ _ => ih
    · trivial

theorem remove_quiet : Quietly strict (fun _ => True) (remove key) := by
  refine withLock_quiet <| state_quiet.bind fun s _ =>
    (removeFrom_quiet _ _ _).bind fun outcome _ => ?_
  split_ifs
  · exact (modifyState_quiet _).bind fun _ _ => (collapseRoot_quiet _).bind fun _ _ => trivial
  · trivial

theorem Call.program_quietly {c : Call} (hc : c ≠ .commit) :
    Quietly strict (fun _ => True) c.program := by
  cases c with
  | put key value => exact (put_quiet key value).bind fun _ _ => trivial
  | remove key => exact (remove_quiet key).bind fun _ _ => trivial
  | commit => exact absurd rfl hc

/-- A program that makes quiet calls, whatever pages it reads. -/
abbrev QuietProgram (p : TreeProgram α) : Prop := p.Calls (Quiet False)

theorem readsMade_false (op : PagerOp) (r : op.Answer) : ReadsMade False op r := by
  cases op with
  | read id => exact fun _ _ => False.elim
  | _ => trivial

theorem Call.program_quiet {c : Call} (hc : c ≠ .commit) : QuietProgram c.program :=
  (Call.program_quietly hc).calls readsMade_false fun _ => id

end Quiet

/-- Pages have been written and the file has grown, and nothing has been flushed. -/
structure Grown (m m' : Machine) : Prop where
  path : m'.pager.path = m.pager.path
  disk : m'.pager.disk = m.pager.disk
  pending : ∃ ws, m'.pager.pending = ws ++ m.pager.pending
  pageCount : m.pager.pageCount ≤ m'.pager.pageCount

theorem Grown.refl (m : Machine) : Grown m m := ⟨rfl, rfl, ⟨[], rfl⟩, le_rfl⟩

theorem Grown.trans {m m' m'' : Machine} (h : Grown m m') (h' : Grown m' m'') : Grown m m'' := by
  obtain ⟨ws, hws⟩ := h.pending
  obtain ⟨ws', hws'⟩ := h'.pending
  exact ⟨h'.path.trans h.path, h'.disk.trans h.disk, ⟨ws' ++ ws, by rw [hws', hws, List.append_assoc]⟩,
    h.pageCount.trans h'.pageCount⟩

theorem Quiet.grown {op : PagerOp} (hop : Quiet False op) (m : Machine) : Grown m (m.act op).2 := by
  cases op with
  | write id page => exact ⟨rfl, rfl, ⟨[(id, page)], rfl⟩, le_max_left _ _⟩
  | allocate => exact ⟨rfl, rfl, ⟨[], rfl⟩, Nat.le_succ _⟩
  | flush | setPageCount pages => exact hop.elim
  | _ => exact ⟨rfl, rfl, ⟨[], rfl⟩, le_rfl⟩

variable {m m' : Machine} {W : Set PageId} {L L' : Multiset PageId} {α : Type} {p : TreeProgram α}

/-- The tree after some calls of a program. -/
abbrev after (n : Nat) (p : TreeProgram α) (m : Machine) : Machine :=
  (Program.advance Machine.act n p m).2

/-- A quiet program only adds to the pager, up to any of its calls and from there on. -/
theorem grown_after (hp : QuietProgram p) (n : Nat) (m : Machine) :
    Grown m (after n p m) ∧ Grown (after n p m) (m.run p).2 :=
  hp.advance_rel Grown.refl Grown.trans (fun _ s hop => hop.grown s) n m

/-! ## Page ids of 32 bits -/

/-- A call that does not shorten the file. -/
def Lasting : PagerOp → Prop
  | .setPageCount _ => False
  | _ => True

/-- The file has fewer pages than there are page ids. -/
abbrev Roomy (m : Machine) : Prop := m.pager.pageCount < pageLimit

theorem commit_lasting : commit.Calls Lasting := by
  rw [commit_eq]
  exact ⟨trivial, fun _ _ => ⟨trivial, fun _ _ => ⟨trivial, fun _ _ => ⟨trivial, fun _ _ =>
    ⟨trivial, fun _ _ => ⟨trivial, fun _ _ => ⟨trivial, fun _ _ => ⟨trivial, fun _ _ =>
    trivial⟩⟩⟩⟩⟩⟩⟩⟩

theorem Call.program_lasting (c : Call) : c.program.Calls Lasting := by
  by_cases hc : c = .commit
  · subst hc
    exact commit_lasting.bind fun _ _ => trivial
  · refine (Call.program_quietly hc).calls readsMade_false fun op hop => ?_
    cases op with
    | setPageCount pages => exact hop
    | _ => trivial

theorem Lasting.pageCount_le {op : PagerOp} (hop : Lasting op) (m : Machine) :
    m.pager.pageCount ≤ (m.act op).2.pager.pageCount := by
  cases op with
  | write id page => exact le_max_left _ _
  | allocate => exact Nat.le_succ _
  | setPageCount pages => exact hop.elim
  | _ => exact le_rfl

theorem Lasting.roomy {op : PagerOp} (hop : Lasting op) (hroom : Roomy (m.act op).2) : Roomy m :=
  (hop.pageCount_le m).trans_lt hroom

/-- The width of the page ids makes no difference to a program that leaves the file with room. -/
theorem exec_eq (hp : p.Calls Lasting) (hroom : Roomy (m.run p).2) : m.exec p = m.run p := by
  refine hp.run_congr (I := Roomy) ?_ ?_ hroom
  exacts [fun _ _ hop => hop.roomy, fun _ _ _ => Machine.answer_eq]

/-- The tree after some calls of a program, with page ids of 32 bits. -/
def execAfter (n : Nat) (p : TreeProgram α) (m : Machine) : Machine :=
  (Program.advance Machine.answer n p m).2

theorem execAfter_eq (hp : p.Calls Lasting) {n : Nat} (hroom : Roomy (after n p m)) :
    execAfter n p m = after n p m := by
  refine congrArg Prod.snd (hp.advance_congr (I := Roomy) ?_ ?_ n hroom)
  exacts [fun _ _ hop => hop.roomy, fun _ _ _ => Machine.answer_eq]

theorem roomy_of_run (hp : p.Calls Lasting) (hroom : Roomy (m.run p).2) : Roomy m :=
  (hp.run_rel (R := fun m m' => m.pager.pageCount ≤ m'.pager.pageCount) (fun _ => le_rfl) le_trans
    (fun _ s hop => hop.pageCount_le s) m).trans_lt hroom

/-- Run calls one after the other, with page ids of 32 bits. -/
def execCalls : List Call → Machine → List (Except IoError Reply) × Machine
  | [], m => ([], m)
  | c :: cs, m => ((m.exec c.program).1 :: (execCalls cs (m.exec c.program).2).1,
      (execCalls cs (m.exec c.program).2).2)

theorem roomy_of_runCalls (cs : List Call) (hroom : Roomy (runCalls cs m).2) : Roomy m := by
  induction cs generalizing m with
  | nil => exact hroom
  | cons c cs ih => exact roomy_of_run c.program_lasting (ih hroom)

/-- The width of the page ids makes no difference to calls that leave the file with room. -/
theorem execCalls_eq (cs : List Call) (hroom : Roomy (runCalls cs m).2) :
    execCalls cs m = runCalls cs m := by
  induction cs generalizing m with
  | nil => rfl
  | cons c cs ih =>
    rw [execCalls, exec_eq c.program_lasting (roomy_of_runCalls cs hroom), ih hroom, runCalls]

/-- A call that the width of the page ids makes no difference to. -/
def Plain (op : PagerOp) : Prop := ∀ m, Machine.answer op m = Machine.act op m

theorem readMeta_plain (slot : PageId) : (readMeta slot).Calls Plain := by
  refine (readPage_meets (fun _ _ => rfl) fun _ _ _ _ => trivial).attempt.bind fun r _ => ?_
  split <;> trivial

/-- Nor does it to opening a file, which allocates the first pages of a new tree at most. -/
theorem exec_openTree (file : Machine) (path : String) :
    file.exec (openTree path) = file.run (openTree path) := by
  by_cases hfile : file.pager.pageCount < firstDataPage
  · have hstart : file.exec (openTree path) = (startedTree file).exec commit := by
      have hcond : (Machine.answer .pageCount file).1 < firstDataPage := hfile
      rw [Machine.exec, openTree, Program.run_perform_bind, if_pos hcond]
      rfl
    have hroom : Roomy ((startedTree file).run commit).2 := by
      rw [run_commit, Roomy, pageCount_committed (startedTree_inv file).1.own.start]
      exact (by decide : max (firstDataPage + 1) (firstDataPage + 1) < pageLimit)
    rw [hstart, exec_eq commit_lasting hroom, run_commit, run_openTree_fresh hfile]
  · have hcond : ¬ (Machine.answer .pageCount file).1 < firstDataPage := hfile
    have hcond' : ¬ (Machine.act .pageCount file).1 < firstDataPage := hfile
    rw [Machine.exec, Machine.run, openTree, Program.run_perform_bind, Program.run_perform_bind,
      if_neg hcond, if_neg hcond']
    refine Calls.run_congr (P := Plain) (I := fun _ => True) (fun _ _ _ => id)
      (fun _ s hop _ => hop s) ?_ trivial
    refine (readMeta_plain _).bind fun a _ => (readMeta_plain _).bind fun b _ => ?_
    split
    · trivial
    · exact ⟨fun _ => rfl, fun _ _ => ⟨fun _ => rfl, fun _ _ => trivial⟩⟩

end BTree

end FacetQL
