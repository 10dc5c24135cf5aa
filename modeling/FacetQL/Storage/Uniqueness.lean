import FacetQL.Storage.Declarations

/-!
# Unique indexes

A batch is checked against the unique indexes before anything of it is applied: each value that it
writes may be held only by nodes that the batch itself writes or removes, and no two of its writes may
claim one value. While the batch is being applied two nodes can share a value for a moment, if one of
them is still to be overwritten or removed; between the mutations none do.

* `unique_values`: the invariant, over whole runs;
* `unique_accepted_iff`: which batches that would leave it are accepted.
-/

namespace FacetQL

open SecondaryIndex

variable {st : Settings}

/-- The encoding of the value that a node holds in an index. -/
def IndexDef.encoded (st : Settings) (decl : IndexDef) (node : Node) : Bytes :=
  Keys.encodeOrderValue st.json (st.json.dataField node.data decl.field)

/-- Two nodes hold one value of an index. -/
structure IndexDef.Share (st : Settings) (decl : IndexDef) (x y : Node) : Prop where
  left : x.kind = decl.kind
  right : y.kind = decl.kind
  value : decl.encoded st x = decl.encoded st y

theorem IndexDef.Share.symm {decl : IndexDef} {x y : Node} (h : decl.Share st x y) : decl.Share st y x :=
  ⟨h.right, h.left, h.value.symm⟩

namespace View

variable {v v' : View} {ops : List Operation}

/-- No two stored nodes share a value of a unique index. -/
def Unique (st : Settings) (v : View) : Prop :=
  ∀ key decl, (key, decl) ∈ v.decls → decl.unique = true →
    ∀ x ∈ v.live, ∀ y ∈ v.live, decl.Share st x y → x = y

/-! ## What the check of a batch comes to -/

/-- Who holds a value in an index, apart from a node and the released ones. -/
def holderOf (st : Settings) (address : String) (released : List String) (key : Bytes) :
    Option String :=
  ((Keys.addressFromDataKey key).map st.fromUtf8Lossy).filter fun holder =>
    !decide (holder = address ∨ holder ∈ released)

theorem otherHolder_eq (tree : Entries Unit) (pre : Bytes) (address : String)
    (released : List String) : otherHolder st tree pre address released =
      .ok ((tree.inRange pre none false).findSome? fun e =>
        (holderOf st address released e.1).map some).join := by
  rw [otherHolder, Entries.forEachRange]
  refine (visitAll_search (fun key => (holderOf st address released key).map some)
    (fun key _ found => ?_) _ _).trans ?_
  · rw [holderOf]
    rcases (Keys.addressFromDataKey key).map st.fromUtf8Lossy with _ | holder
    · rfl
    by_cases hskip : holder = address ∨ holder ∈ released
    · simp [Option.filter, hskip]
    · simp [Option.filter, hskip]
  · cases List.findSome? _ _ <;> rfl

variable {node : Node} {released : List String} {index : DataIndex}

variable {address : String} {x : Node}

theorem otherHolder_eq_none {tree : Entries Unit} {pre : Bytes} :
    otherHolder st tree pre address released = .ok none ↔
      ∀ key, (key, ()) ∈ tree → pre.isPrefixOf key = true → holderOf st address released key = none := by
  rw [otherHolder_eq, Except.ok.injEq]
  constructor
  · intro h key hkey hpre
    have hmem : (key, ()) ∈ tree.inRange pre none false := List.mem_filter.2 ⟨hkey, hpre⟩
    cases hfind : (tree.inRange pre none false).findSome? fun e =>
        (holderOf st address released e.1).map some with
    | none => exact Option.map_eq_none_iff.1 (List.findSome?_eq_none_iff.1 hfind _ hmem)
    | some found =>
      -- A key that answers names a holder.
      obtain ⟨e, -, he⟩ := List.exists_of_findSome?_eq_some hfind
      obtain ⟨holder, -, rfl⟩ := Option.map_eq_some_iff.1 he
      rw [hfind] at h
      cases h
  · intro h
    rw [List.findSome?_eq_none_iff.2]
    · rfl
    · rintro ⟨key, ⟨⟩⟩ hmem
      obtain ⟨hkey, hpre⟩ := List.mem_filter.1 hmem
      rw [h key hkey hpre, Option.map_none]

/-- A value is claimed only if no other claim of it has been made, and nobody else holds it. -/
theorem claimValue_iff {claimed claimed' : Claimed} :
    claimValue st released node claimed index = .ok claimed' ↔
      claimed' = claimed ++ [(index.decl.name, index.decl.encoded st node, node.address)] ∧
      (∀ c ∈ claimed, ¬ (c.1 = index.decl.name ∧ c.2.1 = index.decl.encoded st node)) ∧
      otherHolder st index.tree (index.decl.encoded st node) node.address released = .ok none := by
  have hfind : (claimed.find? fun c => c.1 == index.decl.name && c.2.1 == index.decl.encoded st node) =
      none ↔ ∀ c ∈ claimed, ¬ (c.1 = index.decl.name ∧ c.2.1 = index.decl.encoded st node) := by
    simp only [List.find?_eq_none, Bool.and_eq_true, beq_iff_eq]
  rw [← hfind]
  simp only [claimValue, IndexDef.encoded]
  split
  · rename_i hsome
    simp [hsome]
  rename_i hnone
  simp only [hnone, true_and]
  split
  all_goals
    rename_i hholder
    simp [hholder, eq_comm]

/-- No key stands with two values. -/
def Functional {K A : Type} (entries : List (K × A)) : Prop :=
  ∀ e ∈ entries, ∀ e' ∈ entries, e.1 = e'.1 → e.2 = e'.2

theorem Functional.append {K A : Type} {entries : List (K × A)} (h : Functional entries) {key : K}
    (hfree : ∀ e ∈ entries, e.1 ≠ key) (a : A) : Functional (entries ++ [(key, a)]) := by
  intro e he e' he' heq
  rcases List.mem_append.1 he with he | he <;> rcases List.mem_append.1 he' with he' | he'
  · exact h e he e' he' heq
  · obtain rfl := List.mem_singleton.1 he'
    exact absurd heq (hfree e he)
  · obtain rfl := List.mem_singleton.1 he
    exact absurd heq.symm (hfree e' he')
  · rw [List.mem_singleton.1 he, List.mem_singleton.1 he']

/-- The unique indexes over a kind. -/
def uniqueForKind (v : View) (kind : String) : List DataIndex :=
  (v.dataForKind kind).filter fun index => index.decl.unique

theorem mem_uniqueForKind {kind : String} : index ∈ v.uniqueForKind kind ↔
    (∃ key, (key, index) ∈ v.data) ∧ index.decl.kind = kind ∧ index.decl.unique = true := by
  simp only [uniqueForKind, dataForKind, List.mem_filter, List.mem_map, Prod.exists,
    exists_eq_right, beq_iff_eq, and_assoc]

/-- The values that a batch claims, in the order of its check. -/
def claimsOf (v : View) (ops : List Operation) : List (Node × DataIndex) :=
  ops.flatMap fun
    | .insert node => (v.uniqueForKind node.kind).map fun index => (node, index)
    | _ => []

theorem mem_claimsOf : (node, index) ∈ v.claimsOf ops ↔
    .insert node ∈ ops ∧ index ∈ v.uniqueForKind node.kind := by
  rw [claimsOf, List.mem_flatMap]
  constructor
  · rintro ⟨op, hop, hmem⟩
    cases op with
    | insert node' =>
      obtain ⟨index', hindex, heq⟩ := List.mem_map.1 hmem
      obtain ⟨rfl, rfl⟩ := Prod.mk.inj heq
      exact ⟨hop, hindex⟩
    | _ => cases hmem
  · rintro ⟨hop, hindex⟩
    exact ⟨_, hop, List.mem_map_of_mem hindex⟩

theorem checkUnique_eq_ok : v.checkUnique st ops = .ok () ↔
    ∃ claimed, (v.claimsOf ops).foldlM (fun claimed claim =>
      claimValue st (releasedBy ops) claim.1 claimed claim.2) [] = .ok claimed := by
  have hfold : (v.claimsOf ops).foldlM (fun claimed claim =>
      claimValue st (releasedBy ops) claim.1 claimed claim.2) [] =
      ops.foldlM (fun claimed op => match op with
        | .insert node => (v.uniqueForKind node.kind).foldlM (claimValue st (releasedBy ops) node) claimed
        | _ => .ok claimed) [] := by
    rw [claimsOf, List.foldlM_flatMap]
    congr 1
    funext claimed op
    cases op with
    | insert node => exact List.foldlM_map
    | _ => rfl
  rw [hfold]
  exact Except.bind_eq_ok.trans ⟨fun ⟨claimed, h, _⟩ => ⟨claimed, h⟩, fun ⟨claimed, h⟩ => ⟨claimed, h, rfl⟩⟩

/-! ## Batches -/

theorem mem_releasedBy :
    address ∈ releasedBy ops ↔ ∃ op ∈ ops, ∃ slot, op.nodeWrite = some (address, slot) := by
  rw [releasedBy, List.mem_filterMap]
  refine exists_congr fun op => and_congr_right fun _ => ?_
  cases op <;> simp [Operation.nodeWrite]

theorem notMem_releasedBy_cons {op : Operation} :
    address ∉ releasedBy (op :: ops) ↔
      (∀ slot, op.nodeWrite ≠ some (address, slot)) ∧ address ∉ releasedBy ops := by
  simp only [mem_releasedBy, not_exists, not_and, List.forall_mem_cons, ne_eq]

/-- A node stored after operations was there before, and is untouched, or one of them writes it. -/
theorem mem_live_applyAll (h : v.WellFormed) (hall : v.applyAll st ops = (.ok (), v'))
    (hx : x ∈ v'.live) : x ∈ v.live ∧ x.address ∉ releasedBy ops ∨ .insert x ∈ ops := by
  induction ops generalizing v with
  | nil =>
    obtain rfl := congrArg Prod.snd hall
    exact .inl ⟨hx, List.not_mem_nil⟩
  | cons op ops ih =>
    obtain ⟨next, happly, hall⟩ := applyAll_cons_ok hall
    rcases ih (h.apply happly) hall with ⟨hnext, huntouched⟩ | hinsert
    · rw [live_apply h happly] at hnext
      rcases hwrite : op.nodeWrite with _ | ⟨address, slot⟩
      · rw [hwrite] at hnext
        exact .inl ⟨hnext, notMem_releasedBy_cons.2 ⟨by simp [hwrite], huntouched⟩⟩
      rw [hwrite] at hnext
      rcases hnext with ⟨hlive, hne⟩ | hslot
      · refine .inl ⟨hlive, notMem_releasedBy_cons.2 ⟨fun slot' hslot => ?_, huntouched⟩⟩
        rw [hwrite] at hslot
        exact hne (Prod.mk.inj (Option.some.inj hslot)).1.symm
      · have hop : op = .insert x := Operation.eq_insert_of_nodeWrite (hwrite.trans (by rw [hslot]))
        exact .inr (hop ▸ List.mem_cons_self)
    · exact .inr (List.mem_cons_of_mem _ hinsert)

/-- Nobody else holds a value: whoever does is the node itself, or released. -/
theorem Consistent.otherHolder_iff (hv : v.Consistent st) {key : Bytes}
    (hindex : (key, index) ∈ v.data) (hkind : x.kind = index.decl.kind) :
    otherHolder st index.tree (index.decl.encoded st x) x.address released = .ok none ↔
      ∀ y ∈ v.live, index.decl.Share st x y → y.address = x.address ∨ y.address ∈ released := by
  have hholder (y : Node) : holderOf st x.address released (index.decl.keyOf st y) = none ↔
      (y.address = x.address ∨ y.address ∈ released) := by
    rw [holderOf, IndexDef.keyOf, Keys.addressFromDataKey_dataKey, Option.map_some,
      Settings.fromUtf8Lossy_utf8]
    simp [Option.filter, or_iff_not_imp_left]
  rw [otherHolder_eq_none]
  constructor
  · intro h y hy hshare
    refine (hholder y).1 (h _ ((hv.data hindex).mem.2 ⟨y, hy, ?_⟩) ?_)
    · exact IndexDef.mem_keys.2 ⟨hshare.right.symm, rfl⟩
    · exact Keys.encodeOrderValue_isPrefixOf.2 hshare.value
  · intro h entry hentry hpre
    obtain ⟨y, hy, hkeys⟩ := (hv.data hindex).mem.1 hentry
    obtain ⟨hkind', rfl⟩ := IndexDef.mem_keys.1 hkeys
    exact (hholder y).2 (h y hy ⟨hkind, hkind'.symm, Keys.encodeOrderValue_isPrefixOf.1 hpre⟩)

theorem Consistent.index_eq_of_name (hv : v.Consistent st) {key key' : Bytes} {i j : DataIndex}
    (hi : (key, i) ∈ v.data) (hj : (key', j) ∈ v.data) (hname : i.decl.name = j.decl.name) : i = j := by
  have hkey : key = key' := by rw [hv.name hi, hv.name hj, hname]
  exact (Prod.mk.inj (hv.declared.eq_of_key_eq hi hj hkey)).2

theorem Consistent.pairwise_name (hv : v.Consistent st) :
    (v.data.map Prod.snd).Pairwise fun i j => i.decl.name ≠ j.decl.name := by
  refine List.pairwise_map.2 (hv.declared.imp_of_mem fun {a b} ha hb hlt hname => ?_)
  rw [hv.name ha, hv.name hb, hname] at hlt
  exact lt_irrefl _ hlt

/-- A batch passes if its inserts give no value twice, nor one that an untouched node holds. -/
theorem Consistent.checkUnique_iff (hv : v.Consistent st) : v.checkUnique st ops = .ok () ↔
    ∀ key decl, (key, decl) ∈ v.decls → decl.unique = true →
      (ops.Pairwise fun a b => ∀ x y, a = .insert x → b = .insert y → ¬ decl.Share st x y) ∧
      ∀ x, .insert x ∈ ops → ∀ y ∈ v.live, decl.Share st x y → y.address ∈ releasedBy ops := by
  rw [checkUnique_eq_ok, List.foldlM_claim (f := fun claimed (claim : Node × DataIndex) =>
    claimValue st (releasedBy ops) claim.1 claimed claim.2) fun _ _ _ => claimValue_iff]
  constructor
  · rintro ⟨-, hapart, hfree⟩ key decl hdecl hunique
    obtain ⟨index, hindex, rfl⟩ := mem_decls.1 hdecl
    have hmem {x : Node} (hkind : x.kind = index.decl.kind) : index ∈ v.uniqueForKind x.kind :=
      mem_uniqueForKind.2 ⟨⟨key, hindex⟩, hkind.symm, hunique⟩
    refine ⟨(List.pairwise_flatMap.1 hapart).2.imp ?_, fun x hx y hy hshare => ?_⟩
    · rintro _ _ hpair x y rfl rfl hshare
      exact hpair _ (List.mem_map_of_mem (hmem hshare.left)) _ (List.mem_map_of_mem (hmem hshare.right))
        ⟨rfl, hshare.value⟩
    · have hholder := hfree _ (mem_claimsOf.2 ⟨hx, hmem hshare.left⟩)
      rcases (hv.otherHolder_iff hindex hshare.left).1 hholder y hy hshare with haddress | hreleased
      · exact mem_releasedBy.2 ⟨_, hx, some x, by rw [haddress]; rfl⟩
      · exact hreleased
  · intro h
    refine ⟨nofun, ?_, ?_⟩
    · refine List.pairwise_flatMap.2 ⟨fun op _ => ?_, List.pairwise_iff_forall_sublist.2 fun {a b} hsub => ?_⟩
      · cases op with
        | insert node =>
          exact List.pairwise_map.2 (((hv.pairwise_name.filter _).filter _).imp fun hne heq => hne heq.1)
        | _ => exact .nil
      rintro ⟨x, i⟩ hx ⟨y, j⟩ hy ⟨hname, hvalue⟩
      obtain ⟨ha, hi⟩ := mem_claimsOf.1 (List.mem_flatMap.2 ⟨a, List.mem_singleton_self a, hx⟩)
      obtain ⟨hb, hj⟩ := mem_claimsOf.1 (List.mem_flatMap.2 ⟨b, List.mem_singleton_self b, hy⟩)
      obtain ⟨⟨key, hi⟩, hkind, hunique⟩ := mem_uniqueForKind.1 hi
      obtain ⟨⟨key', hj⟩, hkind', -⟩ := mem_uniqueForKind.1 hj
      obtain rfl : i = j := hv.index_eq_of_name hi hj hname
      have hpair := (h key _ (mem_decls.2 ⟨i, hi, rfl⟩) hunique).1
      exact List.pairwise_iff_forall_sublist.1 hpair hsub x y (List.mem_singleton.1 ha).symm
        (List.mem_singleton.1 hb).symm ⟨hkind.symm, hkind'.symm, hvalue⟩
    · rintro ⟨x, index⟩ hclaim
      obtain ⟨hx, hindex⟩ := mem_claimsOf.1 hclaim
      obtain ⟨⟨key, hindex⟩, hkind, hunique⟩ := mem_uniqueForKind.1 hindex
      have hdecl : (key, index.decl) ∈ v.decls := mem_decls.2 ⟨index, hindex, rfl⟩
      exact (hv.otherHolder_iff hindex hkind.symm).2 fun y hy hshare =>
        .inr ((h key _ hdecl hunique).2 x hx y hy hshare)

theorem Unique.applyAll (hunique : v.Unique st) (hv : v.Consistent st)
    (hcheck : v.checkUnique st ops = .ok ()) (hall : v.applyAll st ops = (.ok (), v')) :
    v'.Unique st := by
  intro key decl hdecl' hunique' x hx y hy hshare
  have hdecls : (v.applyAll st ops).2.decls = v.decls := decls_applyAll v ops
  rw [hall] at hdecls
  have hdecl : (key, decl) ∈ v.decls := hdecls ▸ hdecl'
  obtain ⟨hapart, hfree⟩ := hv.checkUnique_iff.1 hcheck key decl hdecl hunique'
  have hwell := hv.toWellFormed
  rcases mem_live_applyAll hwell hall hx with ⟨hx', hx⟩ | hx' <;>
    rcases mem_live_applyAll hwell hall hy with ⟨hy', hy⟩ | hy'
  · exact hunique key _ hdecl hunique' x hx' y hy' hshare
  · exact absurd (hfree y hy' x hx' hshare.symm) hx
  · exact absurd (hfree x hx' y hy' hshare) hy
  · by_contra hne
    have : Std.Symm fun a b : Operation => ∀ x y, a = .insert x → b = .insert y → ¬ decl.Share st x y :=
      ⟨fun a b h x y ha hb hshare => h y x hb ha hshare.symm⟩
    exact hapart.forall hx' hy' (fun heq => hne (Operation.insert.inj heq)) x y rfl rfl hshare

/-- While a batch is applied, nodes share a value only if the rest of it touches one of them. -/
def UniqueBut (st : Settings) (v : View) (rest : List Operation) : Prop :=
  ∀ key decl, (key, decl) ∈ v.decls → decl.unique = true →
    ∀ x ∈ v.live, ∀ y ∈ v.live, decl.Share st x y →
      x = y ∨ x.address ∈ releasedBy rest ∨ y.address ∈ releasedBy rest

theorem mem_live_of_untouched (hv : v.WellFormed) (hx : x ∈ v.live)
    (hfree : x.address ∉ releasedBy ops) : x ∈ (v.applyAll st ops).2.live := by
  rw [mem_live, readNode_applyAll hv fun op hop slot hwrite =>
    hfree (mem_releasedBy.2 ⟨op, hop, slot, hwrite⟩)]
  exact hx

/-- What a batch inserts is stored after it, unless it touches the address again. -/
theorem mem_live_of_inserted (hv : v.WellFormed) {pre post : List Operation}
    (hall : v.applyAll st (pre ++ .insert x :: post) = (.ok (), v'))
    (hfree : x.address ∉ releasedBy post) : x ∈ v'.live := by
  have hmid : (v.applyAll st pre).2.WellFormed := hv.applyAll pre
  obtain ⟨mid, hpre, hall⟩ := applyAll_append_ok hall
  obtain ⟨next, happly, hall⟩ := applyAll_cons_ok hall
  rw [hpre] at hmid
  have hx : x ∈ next.live := by
    rw [live_apply hmid happly]
    exact .inr rfl
  have hlast : x ∈ (next.applyAll st post).2.live :=
    mem_live_of_untouched (hmid.apply happly) hx hfree
  rwa [hall] at hlast

theorem Unique.before {rest : List Operation} (hv : v.WellFormed)
    (hunique : (v.applyAll st rest).2.Unique st) : v.UniqueBut st rest := by
  intro key decl hdecl hunique' x hx y hy hshare
  by_contra hne
  simp only [not_or] at hne
  exact hne.1 (hunique key decl (by rwa [decls_applyAll]) hunique' x
    (mem_live_of_untouched hv hx hne.2.1) y (mem_live_of_untouched hv hy hne.2.2) hshare)

/-! ## Declarations -/

/-- A walk that breaks off at the first failure has taken every step, if it reports none. -/
theorem foldlM_of_visitNodes {σ : Type} (step : Node → σ → Except String σ)
    {visit : Node → σ × Option String → Except IoError (Bool × σ × Option String)}
    (hvisit : ∀ node seen, visit node (seen, none) = match step node seen with
      | .error e => .ok (false, seen, some e)
      | .ok seen => .ok (true, seen, none)) {nodes : List Node} {seen seen' : σ}
    (h : visitNodes visit nodes (seen, none) = .ok (seen', none)) :
    nodes.foldlM (fun seen node => step node seen) seen = .ok seen' := by
  induction nodes generalizing seen with
  | nil =>
    obtain ⟨rfl, -⟩ := Prod.mk.inj (Except.ok.inj h)
    rfl
  | cons node nodes ih =>
    rw [visitNodes, hvisit] at h
    rw [List.foldlM_cons]
    rcases hstep : step node seen with e | next
    · simp [hstep] at h
    simp only [hstep] at h
    exact ih h

/-- A node that is measured against a unique index has a value of its own. -/
theorem backfillStep_ok {decl : IndexDef} (hunique : decl.unique = true) {node : Node}
    {seen seen' : List (Bytes × String)} (h : backfillStep st decl node seen = .ok seen') :
    seen' = seen ++ [(decl.encoded st node, node.address)] ∧
      ∀ e ∈ seen, e.1 ≠ decl.encoded st node := by
  rw [backfillStep] at h
  split at h
  · cases h
  rw [if_pos hunique] at h
  simp only at h
  split at h
  · cases h
  · rename_i hfind
    refine ⟨(Except.ok.inj h).symm, fun e he heq => ?_⟩
    exact List.find?_eq_none.1 hfind e he (beq_iff_eq.2 heq)

/-- The nodes of a kind, if they can all be put into a unique index, hold different values. -/
theorem Consistent.unique_of_backfill (hv : v.Consistent st) {decl : IndexDef}
    (hunique : decl.unique = true) (hcheck : v.checkBackfillAdmissible st decl = .ok ()) {y : Node}
    (hx : x ∈ v.live) (hy : y ∈ v.live) (hshare : decl.Share st x y) : x = y := by
  simp only [checkBackfillAdmissible, hv.scanCandidates] at hcheck
  split at hcheck
  · cases hcheck
  · cases hcheck
  rename_i seen hwalk
  have hfold := foldlM_of_visitNodes (backfillStep st decl)
    (fun node seen => by simp only; cases backfillStep st decl node seen <;> rfl) hwalk
  -- Each node that is passed leaves its value with its address, and a value is left only once.
  obtain ⟨hapart, hall⟩ := List.foldlM_ok_all (P := Functional)
    (Q := fun node seen => (decl.encoded st node, node.address) ∈ seen)
    (fun e he => absurd he List.not_mem_nil) (fun node hnode seen seen' hseen hstep => by
      obtain ⟨rfl, hfree⟩ := backfillStep_ok hunique hstep
      exact ⟨hseen.append hfree _, List.mem_append_right _ List.mem_cons_self,
        fun _ => List.mem_append_left _⟩) hfold
  have hseen {z : Node} (hz : z ∈ v.live) (hkind : z.kind = decl.kind) :
      (decl.encoded st z, z.address) ∈ seen := by
    refine hall z ?_
    simpa [pastNodes, scanFilter, hv.mem_nodes] using ⟨hz, hkind⟩
  exact live_eq_of_address hx hy
    (hapart _ (hseen hx hshare.left) _ (hseen hy hshare.right) hshare.value)

end View

/-! ## Runs -/

/-- A mutation that can change what the unique indexes hold. -/
inductive Mutation (st : Settings)
  | insert (node : Node)
  | insertWithEdges (node : Node) (targets : List (String × String)) (isAdmin : Bool)
  | claim (address worker : String)
  | sequenceNext (name : String) (count : Nat) (owner : String) (isAdmin : Bool)
  | delete (address : String)
  | executeTransaction (ops : List (TxOperation st.json))
  | createIndex (decl : IndexDef)
  | dropIndex (name : String)

namespace GraphStore

section

variable (st) (stamp : Stamp) (db : GraphStore)

/-- The database after a mutation. -/
def mutate : Mutation st → GraphStore
  | .insert node => (db.insert st stamp node).2
  | .insertWithEdges node targets isAdmin => (db.insertWithEdges st stamp node targets isAdmin).2
  | .claim address worker => (db.claim st stamp address worker).2
  | .sequenceNext name count owner isAdmin => (db.sequenceNext st stamp name count owner isAdmin).2
  | .delete address => (db.delete st stamp address).2
  | .executeTransaction ops => (db.executeTransaction st stamp ops).2
  | .createIndex decl => (db.createIndex st decl).2
  | .dropIndex name => (db.dropIndex st name).2

/-- Operations, if they pass every check. -/
def admitted (ops : List Operation) : Option (List Operation) :=
  match (do db.checkBatch st ops; ops.forM (db.view.validate st)) with
  | .ok () => some ops
  | .error _ => none

/-- The operations by which a node is written. -/
def insertBatch (node : Node) : Option (List Operation) :=
  match db.view.readNode node.address with
  | .ok previous => db.admitted st (lowerInsert stamp previous node).operations
  | .error _ => none

/-- The operations that a mutation applies one after the other, if it is accepted. -/
def batch : Mutation st → Option (List Operation)
  | .insert node => db.insertBatch st stamp node
  | .insertWithEdges node targets isAdmin =>
    match db.lowerWithEdges stamp node targets isAdmin with
    | .ok (b, _) => db.admitted st b.operations
    | .error _ => none
  | .claim address worker =>
    match db.view.readNode address with
    | .ok (some node) =>
      if node.claimedBy.isSome then none
      else db.insertBatch st stamp { node with claimedBy := some worker }
    | _ => none
  | .sequenceNext name count owner isAdmin =>
    if count = 0 ∨ maxSequenceBlock < count then none
    else if name.isEmpty ∨ maxSequenceName < name.utf8ByteSize ∨ ':' ∈ name.toList then none
    else
      match db.sequenceBlock st name count owner isAdmin with
      | .ok (node, _) => db.insertBatch st stamp node
      | .error _ => none
  | .delete address =>
    match db.view.readNode address with
    | .ok none => db.admitted st [.delete address]
    | .ok (some node) =>
      match db.view.lowerDeleteClosure st db.references [node] (.start stamp) with
      | .ok b => db.admitted st b.operations
      | .error _ => none
    | .error _ => none
  | .executeTransaction ops =>
    match db.view.lowerTransaction st db.references stamp ops with
    | .ok lowered => if st.maxTransactionOps < lowered.length then none else db.admitted st lowered
    | .error _ => none
  | .createIndex _ => none
  | .dropIndex _ => none

/-- The database after operations, if there are any. -/
def applied (ops : Option (List Operation)) : GraphStore :=
  match ops with
  | some ops => { db with view := (db.view.applyAll st ops).2 }
  | none => db

end

variable {stamp : Stamp} {db : GraphStore} {ops : List Operation}

theorem admitted_some {batch : List Operation} (h : db.admitted st ops = some batch) :
    batch = ops ∧ db.checkBatch st ops = .ok () ∧ ∀ op ∈ ops, db.view.validate st op = .ok () := by
  rw [admitted] at h
  split at h
  · rename_i hchecks
    obtain ⟨⟨⟩, hbatch, hvalid⟩ := Except.bind_eq_ok.1 hchecks
    exact ⟨(Option.some.inj h).symm, hbatch, List.forM_ok.1 hvalid⟩
  · cases h

theorem commit_eq_applied (hcheck : db.checkBatch st ops = .ok ()) :
    (db.commit st ops).2 = db.applied st (db.admitted st ops) := by
  rw [commit, admitted, hcheck]
  rcases hvalid : ops.forM (db.view.validate st) with message | _
  · rfl
  · rfl

theorem admitted_none {message : String} (hcheck : db.checkBatch st ops = .error message) :
    db.admitted st ops = none := by
  rw [admitted, hcheck]
  rfl

theorem applyAtomic_eq_applied (ops : List Operation) :
    (db.applyAtomic st ops).2 = db.applied st (db.admitted st ops) := by
  rcases hcheck : db.checkBatch st ops with message | _
  · rw [admitted_none hcheck]
    rcases ops with _ | ⟨op, _ | ⟨next, rest⟩⟩
    · rfl
    · rw [applyAtomic, hcheck]
      cases db.view.validate st op <;> rfl
    · simp only [applyAtomic, hcheck, applied]
  rw [← commit_eq_applied hcheck]
  rcases ops with _ | ⟨op, _ | ⟨next, rest⟩⟩
  · rfl
  · rw [applyAtomic, hcheck]
    rcases hvalid : db.view.validate st op with message | _
    · -- The check of the operation is repeated when it is committed.
      rw [commit, List.forM, hvalid]
      rfl
    · rfl
  · simp only [applyAtomic, hcheck]

theorem insert_eq_applied (node : Node) :
    (db.insert st stamp node).2 = db.applied st (db.insertBatch st stamp node) := by
  rw [insert, insertBatch]
  rcases db.view.readNode node.address with e | previous
  · rfl
  · exact applyAtomic_eq_applied _

theorem mutate_eq_applied (m : Mutation st) (hm : (∀ decl, m ≠ .createIndex decl) ∧
    ∀ name, m ≠ .dropIndex name) : db.mutate st stamp m = db.applied st (db.batch st stamp m) := by
  cases m with
  | insert node => exact insert_eq_applied node
  | insertWithEdges node targets isAdmin =>
    rw [mutate, insertWithEdges, batch]
    rcases db.lowerWithEdges stamp node targets isAdmin with message | pair
    · rfl
    · exact applyAtomic_eq_applied _
  | claim address worker =>
    rw [mutate, claim, batch]
    rcases db.view.readNode address with e | _ | node
    · rfl
    · rfl
    · simp only
      rcases node.claimedBy with _ | existing
      · exact insert_eq_applied _
      · rfl
  | sequenceNext name count owner isAdmin =>
    rw [mutate, sequenceNext, batch]
    split_ifs
    · rfl
    · rfl
    · rcases db.sequenceBlock st name count owner isAdmin with e | pair
      · rfl
      · exact insert_eq_applied _
  | delete address =>
    rw [mutate, delete, batch]
    rcases db.view.readNode address with e | _ | node
    · rfl
    · exact applyAtomic_eq_applied _
    · simp only
      rcases db.view.lowerDeleteClosure st db.references [node] (.start stamp) with e | b
      · rfl
      · exact applyAtomic_eq_applied _
  | executeTransaction ops =>
    rw [mutate, executeTransaction, batch]
    rcases db.view.lowerTransaction st db.references stamp ops with e | lowered
    · rfl
    simp only [bind, Except.bind, checkTransaction]
    split_ifs
    · rfl
    rcases hcheck : db.checkBatch st lowered with message | _
    · rw [admitted_none hcheck]
      rfl
    · exact commit_eq_applied hcheck
  | createIndex decl => exact absurd rfl (hm.1 decl)
  | dropIndex name => exact absurd rfl (hm.2 name)

/-! ### The invariant -/

/-- The indexes are consistent, and the unique ones are unique. -/
structure Sound (st : Settings) (db : GraphStore) : Prop where
  consistent : db.view.Consistent st
  unique : db.view.Unique st

theorem Sound.applied (h : db.Sound st) (hcheck : db.checkBatch st ops = .ok ())
    (hvalid : ∀ op ∈ ops, db.view.validate st op = .ok ()) : (db.applied st (some ops)).Sound st := by
  obtain ⟨⟨⟩, hunique, -⟩ := Except.bind_eq_ok.1 hcheck
  obtain ⟨v', hall, hv'⟩ := h.consistent.exists_applyAll hvalid
  have hview : (db.applied st (some ops)).view = v' := by rw [GraphStore.applied, hall]
  exact ⟨hview ▸ hv', hview ▸ View.Unique.applyAll h.unique h.consistent hunique hall⟩

/-- A batch that is being applied. -/
theorem Sound.during (h : db.Sound st) {done rest : List Operation}
    (hcheck : db.checkBatch st (done ++ rest) = .ok ())
    (hvalid : ∀ op ∈ done ++ rest, db.view.validate st op = .ok ()) :
    (db.view.applyAll st done).2.UniqueBut st rest := by
  have hend := (h.applied hcheck hvalid).unique
  have hvalid' : ∀ op ∈ done, db.view.validate st op = .ok () :=
    fun op hop => hvalid op (List.mem_append_left _ hop)
  obtain ⟨mid, hdone, hmid⟩ := h.consistent.exists_applyAll hvalid'
  rw [GraphStore.applied, View.applyAll_append, hdone] at hend
  rw [hdone]
  exact View.Unique.before hmid.toWellFormed hend

theorem Sound.createIndex (h : db.Sound st) (decl : IndexDef) : (db.createIndex st decl).2.Sound st := by
  rw [GraphStore.createIndex]
  split
  · exact h
  split
  · split_ifs <;> exact h
  rename_i hnew
  split
  · exact h
  split
  · exact h
  split
  · exact h
  rename_i hcheck
  rw [applyDeclaration]
  rcases happly : db.view.apply st (.createIndex decl) with e | v
  · exact h
  refine ⟨h.consistent.createIndex hnew happly, fun key decl' hdecl hunique x hx y hy => ?_⟩
  obtain ⟨hdecls, hlive⟩ := View.decls_createIndex happly
  rw [hlive] at hx hy
  rw [hdecls] at hdecl
  rcases SortedMap.mem_insert.1 hdecl with heq | hold
  · obtain ⟨-, rfl⟩ := Prod.mk.inj heq
    exact h.consistent.unique_of_backfill hunique hcheck hx hy
  · exact h.unique key decl' hold.1 hunique x hx y hy

theorem Sound.dropIndex (h : db.Sound st) (name : String) : (db.dropIndex st name).2.Sound st := by
  rw [GraphStore.dropIndex]
  split
  · split_ifs
    · exact ⟨h.consistent.dropTextIndex rfl, h.unique⟩
    · exact h
  split
  · exact h
  have happly : db.view.apply st (.dropIndex name) = .ok (db.view.dropData name) := rfl
  refine ⟨h.consistent.dropIndex happly, fun key decl hdecl hunique x hx y hy => ?_⟩
  obtain ⟨hdecls, hlive⟩ := View.decls_dropIndex happly
  have hold := hdecls ▸ hdecl
  exact h.unique key decl (SortedMap.mem_erase.1 hold).1 hunique x (hlive ▸ hx) y (hlive ▸ hy)

theorem insertBatch_checked {node : Node} (h : db.insertBatch st stamp node = some ops) :
    db.checkBatch st ops = .ok () ∧ ∀ op ∈ ops, db.view.validate st op = .ok () := by
  rw [insertBatch] at h
  split at h
  · obtain ⟨rfl, hchecked⟩ := admitted_some h
    exact hchecked
  · cases h

/-- What a mutation applies has passed every check. -/
theorem batch_checked {m : Mutation st} (h : db.batch st stamp m = some ops) :
    db.checkBatch st ops = .ok () ∧ ∀ op ∈ ops, db.view.validate st op = .ok () := by
  have hadmitted {ops' : List Operation} (h : db.admitted st ops' = some ops) :
      db.checkBatch st ops = .ok () ∧ ∀ op ∈ ops, db.view.validate st op = .ok () := by
    obtain ⟨rfl, hchecked⟩ := admitted_some h
    exact hchecked
  -- Every way through a mutation ends in a refusal, in an insert or in a batch that is admitted.
  cases m <;> rw [batch] at h <;> repeat' split at h
  all_goals first
    | exact absurd h (Option.some_ne_none ops).symm
    | exact insertBatch_checked h
    | exact hadmitted h

theorem Sound.mutate (h : db.Sound st) (m : Mutation st) : (db.mutate st stamp m).Sound st := by
  have hbatch : (db.applied st (db.batch st stamp m)).Sound st := by
    rcases hops : db.batch st stamp m with _ | ops
    · exact h
    obtain ⟨hcheck, hvalid⟩ := batch_checked hops
    exact h.applied hcheck hvalid
  cases m with
  | createIndex decl => exact h.createIndex decl
  | dropIndex name => exact h.dropIndex name
  | _ =>
    rw [mutate_eq_applied _ ⟨by simp, by simp⟩]
    exact hbatch

end GraphStore

/-- What runs of mutations lead to from the empty database, under any references. -/
inductive MutationRun (st : Settings) : GraphStore → Prop
  | start : MutationRun st .empty
  | declare {db : GraphStore} (references : References) : MutationRun st db →
    MutationRun st { db with references := references }
  | mutate {db : GraphStore} (stamp : Stamp) (m : Mutation st) : MutationRun st db →
    MutationRun st (db.mutate st stamp m)

theorem MutationRun.sound {db : GraphStore} (h : MutationRun st db) : db.Sound st := by
  induction h with
  | start => exact ⟨.empty, nofun⟩
  | declare references _ ih => exact ⟨ih.consistent, ih.unique⟩
  | mutate stamp m _ ih => exact ih.mutate m

/-- In every run of mutations, no two nodes share a value of a unique index between the mutations; and
    while the operations of a mutation are being applied, two nodes do so only if one of them is still
    to be overwritten or removed by the rest of the operations. -/
theorem unique_values {db : GraphStore} (hrun : MutationRun st db) :
    db.view.Unique st ∧ ∀ stamp m done rest, db.batch st stamp m = some (done ++ rest) →
      (db.view.applyAll st done).2.UniqueBut st rest := by
  refine ⟨hrun.sound.unique, fun stamp m done rest hbatch => ?_⟩
  obtain ⟨hcheck, hvalid⟩ := GraphStore.batch_checked hbatch
  exact hrun.sound.during hcheck hvalid

namespace Uniqueness

/-- A node with this value in its field. -/
def valued (address data : String) : Node :=
  { address := address, coordinate := ⟨0, 0, 0, 0⟩, value := 0, kind := "user", data := data,
    owner := "alice", claimedBy := none, visibility := .priv }

def byMail : IndexDef := ⟨"by_mail", "user", "mail", true⟩

def one : String := "\x7b\"mail\":1\x7d"

def two : String := "\x7b\"mail\":2\x7d"

/-- Two users with their mail, which is unique. -/
def twoUsers : GraphStore :=
  ((GraphStore.empty.mutate .textual ⟨0, 0⟩ (.createIndex byMail)).mutate .textual ⟨0, 0⟩
    (.insert (valued "a" one))).mutate .textual ⟨0, 0⟩ (.insert (valued "b" two))

theorem twoUsers_run : MutationRun .textual twoUsers := .mutate _ _ (.mutate _ _ (.mutate _ _ .start))

def exchange : Mutation .textual :=
  .executeTransaction [.insertNode (valued "a" two), .insertNode (valued "b" one)]

/-- The first user takes the mail of the second. -/
def exchanged : List Operation :=
  [.archive ⟨"a", 0, valued "a" one, 0⟩, .insert (valued "a" two)]

/-- The second user takes the mail of the first. -/
def toExchange : List Operation :=
  [.archive ⟨"b", 0, valued "b" two, 1⟩, .insert (valued "b" one)]

theorem exchange_batch : twoUsers.batch .textual ⟨0, 0⟩ exchange = some (exchanged ++ toExchange) := by
  decide +kernel

end Uniqueness

open Uniqueness in
theorem unique_values_exchange :
    (twoUsers.view.applyAll .textual exchanged).2.UniqueBut .textual toExchange :=
  (unique_values twoUsers_run).2 ⟨0, 0⟩ exchange exchanged toExchange exchange_batch

open Uniqueness in
/-- While two values are being exchanged, both nodes hold the same one. -/
theorem value_shared_midway : ¬∀ db : GraphStore, MutationRun .textual db → ∀ stamp m done rest,
    db.batch .textual stamp m = some (done ++ rest) →
      (db.view.applyAll .textual done).2.Unique .textual := by
  intro h
  have hunique := h twoUsers twoUsers_run ⟨0, 0⟩ exchange exchanged toExchange exchange_batch
  have ha : valued "a" two ∈ (twoUsers.view.applyAll .textual exchanged).2.live := by
    rw [View.mem_live]
    decide +kernel
  have hb : valued "b" two ∈ (twoUsers.view.applyAll .textual exchanged).2.live := by
    rw [View.mem_live]
    decide +kernel
  have heq := hunique (utf8 "by_mail") byMail (by decide +kernel) rfl _ ha _ hb ⟨rfl, rfl, rfl⟩
  exact absurd heq (by decide)

/-! ## Batches that are refused -/

/-- A batch that would leave no two nodes with one value is accepted if and only if no two of its
    inserts give one value, be it to one node, and no insert that the batch itself supersedes gives a
    value that a node it leaves alone holds. -/
theorem unique_accepted_iff {v v' : View} {ops : List Operation} (hv : v.Consistent st)
    (hall : v.applyAll st ops = (.ok (), v')) (hnet : v'.Unique st) :
    v.checkUnique st ops = .ok () ↔ ∀ key decl, (key, decl) ∈ v.decls → decl.unique = true →
      (ops.Pairwise fun a b => ∀ x y, a = .insert x → b = .insert y → ¬ decl.Share st x y) ∧
      ∀ pre x post, ops = pre ++ .insert x :: post → x.address ∈ View.releasedBy post →
        ∀ y ∈ v.live, decl.Share st x y → y.address ∈ View.releasedBy ops := by
  rw [hv.checkUnique_iff]
  refine forall₄_congr fun key decl hdecl hunique => and_congr_right fun _ => ⟨?_, ?_⟩
  · rintro h pre x post rfl - y hy hshare
    exact h x (List.mem_append_right _ List.mem_cons_self) y hy hshare
  intro h x hx y hy hshare
  obtain ⟨pre, post, hops⟩ := List.append_of_mem hx
  by_cases hlast : x.address ∈ View.releasedBy post
  · exact h pre x post hops hlast y hy hshare
  -- Both would be stored after the batch.
  by_contra hfree
  have hx' : x ∈ v'.live := View.mem_live_of_inserted hv.toWellFormed (hops ▸ hall) hlast
  have hy' : y ∈ v'.live := by
    have hstays : y ∈ (v.applyAll st ops).2.live :=
      View.mem_live_of_untouched hv.toWellFormed hy hfree
    rwa [hall] at hstays
  have hdecls : (v.applyAll st ops).2.decls = v.decls := View.decls_applyAll v ops
  rw [hall] at hdecls
  have heq := hnet key decl (hdecls ▸ hdecl) hunique x hx' y hy' hshare
  exact hfree (View.mem_releasedBy.2 ⟨_, hx, some x, by rw [← heq]; rfl⟩)

namespace Uniqueness

def noUsers : GraphStore := GraphStore.empty.mutate .textual ⟨0, 0⟩ (.createIndex byMail)

/-- A user is written twice, with the same mail. -/
def written : List Operation :=
  [.insert (valued "a" one), .archive ⟨"a", 0, valued "a" one, 0⟩, .insert (valued "a" one)]

end Uniqueness

open Uniqueness in
theorem unique_accepted_iff_exchange :
    twoUsers.view.checkUnique .textual (exchanged ++ toExchange) = .ok () ∧
    (exchanged ++ toExchange).Pairwise fun a b => ∀ x y, a = .insert x → b = .insert y →
      ¬ byMail.Share .textual x y := by
  have hsound : twoUsers.Sound .textual := twoUsers_run.sound
  have hcheck : twoUsers.view.checkUnique .textual (exchanged ++ toExchange) = .ok () := by decide +kernel
  have hok : (twoUsers.view.applyAll .textual (exchanged ++ toExchange)).1 = .ok () := by decide +kernel
  have hall : twoUsers.view.applyAll .textual (exchanged ++ toExchange) =
    (.ok (), (twoUsers.view.applyAll .textual (exchanged ++ toExchange)).2) := by rw [← hok]
  have hnet := hsound.unique.applyAll hsound.consistent hcheck hall
  exact ⟨hcheck, ((unique_accepted_iff hsound.consistent hall hnet).1 hcheck (utf8 "by_mail") byMail
    (by decide +kernel) rfl).1⟩

open Uniqueness in
/-- A transaction that writes a user twice is refused. -/
theorem unique_refused : ¬∀ db : GraphStore, MutationRun .textual db → ∀ stamp ops lowered v',
    db.view.lowerTransaction .textual db.references stamp ops = .ok lowered →
    db.view.applyAll .textual lowered = (.ok (), v') → v'.Unique .textual →
      db.view.checkUnique .textual lowered = .ok () := by
  intro h
  have hrun : MutationRun .textual noUsers := .mutate _ _ .start
  have hlower : noUsers.view.lowerTransaction .textual noUsers.references ⟨0, 0⟩
    [.insertNode (valued "a" one), .insertNode (valued "a" one)] = .ok written := by decide +kernel
  have hok : (noUsers.view.applyAll .textual written).1 = .ok () := by decide +kernel
  have hall : noUsers.view.applyAll .textual written =
    (.ok (), (noUsers.view.applyAll .textual written).2) := by rw [← hok]
  have hstored : ∀ x ∈ (noUsers.view.applyAll .textual written).2.live, x = valued "a" one := by
    intro x hx
    rcases View.mem_live_applyAll hrun.sound.consistent.toWellFormed hall hx with ⟨hx, -⟩ | hx
    · rw [View.mem_live, View.readNode, show noUsers.view.primary = [] by decide +kernel] at hx
      cases hx
    · simpa [written] using hx
  have hunique : (noUsers.view.applyAll .textual written).2.Unique .textual :=
    fun key decl _ _ x hx y hy _ => (hstored x hx).trans (hstored y hy).symm
  have hrefused : noUsers.view.checkUnique .textual written ≠ .ok () := by decide +kernel
  exact hrefused (h noUsers hrun _ _ written _ hlower hall hunique)

end FacetQL
