import FacetQL.Api.EdgeOwnership

/-!
# Who may make an edge

An edge is a write to its source and reveals its target: whoever makes it must be able to write the one
and to read the other. `create_edge` and `execute_transaction` ask `authorize_edge`, which looks at what
is committed; a transaction may have rewritten the ends by the time the edge is applied. `create_node`
does not ask.

* `edges_authorized`: the edges of a request are authorized, but for those of `create_node`.
-/

namespace FacetQL

open Ownership EdgeOwnership
open GraphStore (act ofNodes_wellFormed staged_lowerInsert wrote_of_reached)

variable {st : Settings}

namespace EdgeAuthorization

/-- The owner can write the source of the edge and can read its target. -/
def Authorized (owner : String) (v : View) (edge : Edge) : Prop :=
  (∃ source, v.readNode edge.source = .ok (some source) ∧ source.canWrite owner = true) ∧
    ∃ target, v.readNode edge.target = .ok (some target) ∧ target.canRead owner = true

/-- Each edge that a request, handled alone, makes is, at the moment it is applied, as `Q` says. -/
def AlongRequest (stamp : Stamp) (Q : View → Edge → Prop) : Handler st → GraphStore → Prop
  | .done _, _ => True
  | .fail _, _ => True
  | .call op next, db =>
    (accepted op (db.act st stamp op).1 = true → ∀ ops, db.lowered stamp op = some ops →
      AlongEdges st Q db.view ops) ∧
    AlongRequest stamp Q (next (db.act st stamp op).1) (db.act st stamp op).2

/-- The targets of a `create_node`, other than the node itself, can be read by who makes it. -/
def Readable (db : GraphStore) : Request st → Prop
  | .createNode identity payload => ∀ target kind, (target, kind) ∈ payload.edges →
    target ≠ payload.address →
    ∃ node, db.view.readNode target = .ok (some node) ∧ node.canRead identity.owner = true
  | _ => True

/-- The ends of an edge are, as far as they are there, such that this owner may make it. -/
structure Permitted (owner : String) (v : View) (source target : String) : Prop where
  readable : (∃ slot, v.readNode source = .ok slot) ∧ ∃ slot, v.readNode target = .ok slot
  source : ∀ node, v.readNode source = .ok (some node) → node.canWrite owner = true
  target : ∀ node, v.readNode target = .ok (some node) → node.canRead owner = true

/-! ## The ends of an edge within a transaction -/

/-- A node that is the owner's, or that has kept the owner and the visibility of what was there. -/
def Kin (owner : String) (v : View) (address : String) (node : Node) : Prop :=
  node.owner = owner ∨ ∃ old, v.readNode address = .ok (some old) ∧ node.owner = old.owner ∧
    node.visibility = old.visibility

/-- What a batch has staged is the owner's, or has kept its owner and its visibility. -/
structure Kindred (st : Settings) (owner : String) (v : View) (b : Batch) : Prop where
  applies : Applies st v b
  slots : ∀ address slot, SortedMap.find address b.staged = some slot →
    ∀ node ∈ slot, Kin owner v address node

variable {owner address : String} {v v' : View} {b : Batch} {node : Node}

theorem Kindred.of_staged (h : Kindred st owner v b)
    (hstaged : v.stagedNode b address = .ok (some node)) : Kin owner v address node :=
  (stagedNode_cases hstaged).elim (fun hread => .inr ⟨node, hread, rfl, rfl⟩)
    fun hfind => h.slots address _ hfind node rfl

theorem Kindred.archive (hv : v.WellFormed) (h : Kindred st owner v b) (node : Node) :
    Kindred st owner v (b.archive node) :=
  ⟨h.applies.archive hv node, h.slots⟩

theorem Kindred.push (h : Kindred st owner v b) {b' : Batch} (happlies : Applies st v b')
    {slot : Option Node} (hstaged : b'.staged = SortedMap.insert address slot b.staged)
    (hslot : ∀ node ∈ slot, Kin owner v address node) : Kindred st owner v b' :=
  ⟨happlies, h.applies.slots h.slots hstaged hslot⟩

theorem Kindred.put (hv : v.WellFormed) (h : Kindred st owner v b)
    (hread : ∃ old, v.readNode node.address = .ok old) (hnode : Kin owner v node.address node) :
    Kindred st owner v (b.put node.address node) :=
  h.push (h.applies.put hv hread) rfl fun _ hslot => Option.some.inj hslot ▸ hnode

theorem Kindred.drop (hv : v.WellFormed) (h : Kindred st owner v b)
    (hread : ∃ old, v.readNode address = .ok old) : Kindred st owner v (b.drop address) :=
  h.push (h.applies.drop hv hread) rfl fun _ hslot => by cases hslot

/-- What is known of the nodes that a batch removes. -/
def KinThere (owner : String) (v : View) (node : Node) : Prop :=
  (∃ old, v.readNode node.address = .ok old) ∧ Kin owner v node.address node

theorem Kindred.there (hv : v.WellFormed) (h : Kindred st owner v b)
    (hstaged : v.stagedNode b address = .ok (some node)) : KinThere owner v node := by
  obtain rfl := h.applies.address_eq hv hstaged
  exact ⟨h.applies.readable hstaged, h.of_staged hstaged⟩

/-- A transaction of a user stages nodes of that user, and nodes that keep owner and visibility. -/
theorem keeps_kindred {references : References} (hv : v.WellFormed)
    {txs : List (TxOperation st.json)} (hby : ∀ op ∈ txs, By owner op) :
    Keeps st references v txs (Kindred st owner v) (KinThere owner v) fun _ => KinThere owner v where
  remove hb hnode := (hb.archive hv _).drop hv hnode.1
  child hb _ _ _ _ hstaged := hb.there hv hstaged
  loses hb _ _ _ _ hstaged := hb.there hv hstaged
  clear hb hchild hcleared := by
    obtain ⟨data, rfl⟩ := withFieldNull_ok hcleared
    exact (hb.archive hv _).put hv hchild.1 hchild.2
  write hb hop hstaged := hb.put hv (hb.applies.readable hstaged) (.inl (hby _ hop))
  overwrite hb hop hstaged _ := (hb.archive hv _).put hv (hb.applies.readable hstaged) (.inl (hby _ hop))
  set hb _ hstaged _ hnext := by
    obtain ⟨data, rfl⟩ := setIfNext_ok hnext
    obtain ⟨hread, hkin⟩ := hb.there hv hstaged
    obtain rfl := hb.applies.address_eq hv hstaged
    exact (hb.archive hv _).put hv hread hkin
  named hb _ hstaged := hb.there hv hstaged
  selected hb _ hstaged _ := hb.there hv hstaged
  putEdge hb _ _ _ := ⟨hb.applies.putEdge hv _, hb.slots⟩
  dropEdge hb _ _ _ := ⟨hb.applies.dropEdge hv _, hb.slots⟩

theorem Kin.canWrite (h : Kin owner v address node)
    (hpermitted : ∀ old, v.readNode address = .ok (some old) → old.canWrite owner = true) :
    node.canWrite owner = true := by
  rcases h with howner | ⟨old, hold, howner, -⟩
  · simpa [Node.canWrite] using howner
  · simpa [Node.canWrite, howner] using hpermitted old hold

theorem Kin.canRead (h : Kin owner v address node)
    (hpermitted : ∀ old, v.readNode address = .ok (some old) → old.canRead owner = true) :
    node.canRead owner = true := by
  rcases h with howner | ⟨old, hold, howner, hvisibility⟩
  · simp [Node.canRead, howner]
  · simpa [Node.canRead, howner, hvisibility] using hpermitted old hold

/-- The edges of a user's transaction are authorized, if `authorize_edge` has let them pass. -/
theorem authorized_lowerTransaction {references : References} (hv : v.WellFormed) {stamp : Stamp}
    {txs : List (TxOperation st.json)} (hby : ∀ op ∈ txs, By owner op)
    (hpermitted : ∀ edge, .insertEdge edge ∈ txs → Permitted owner v edge.source edge.target)
    {ops : List Operation} (hlower : v.lowerTransaction st references stamp txs = .ok ops) :
    AlongEdges st (Authorized owner) v ops := by
  have hkindred : Keeps st references v txs (Kindred st owner v) _ _ := keeps_kindred hv hby
  have hkeeps := hkindred.along (Q := Authorized owner) (fun hb => hb.applies)
    fun {b edge v' source target} hb hop hreached hsource htarget =>
      ⟨⟨source, hsource, (hb.of_staged (hreached.nodes _ ▸ hsource)).canWrite
        (hpermitted edge hop).source⟩, target, htarget,
        (hb.of_staged (hreached.nodes _ ▸ htarget)).canRead (hpermitted edge hop).target⟩
  have hstart : Kindred st owner v (.start stamp) :=
    ⟨⟨_, .start stamp⟩, fun _ _ hfind => by cases hfind⟩
  obtain ⟨b, ⟨-, halong⟩, rfl⟩ := hkeeps.lowerTransaction ⟨hstart, trivial⟩ hlower
  exact halong

/-! ## What a handler has found when it writes -/

variable {db : GraphStore} {stamp : Stamp} {Q : View → Edge → Prop}

theorem accepted_of_reads {call : Call st} (h : Ownership.writes call = false) (answer : call.Result) :
    accepted call answer = false := by
  cases call <;> first | rfl | cases h

/-- What only reads makes no edge. -/
theorem alongRequest_bind {α : Type} {P : α → Prop} {p : Calls st α} (hp : Reads P p)
    {f : α → Handler st} (hf : ∀ a, P a → p.run (act st stamp) db = (.ok a, db) →
      AlongRequest stamp Q (f a) db) : AlongRequest stamp Q (p >>= f) db := by
  induction p with
  | done a => exact hf a hp rfl
  | fail e => exact e.elim
  | call op next ih =>
    refine ⟨fun h => ?_, ?_⟩
    · rw [accepted_of_reads hp.1] at h
      cases h
    · rw [act_of_reads hp.1]
      refine ih _ (hp.2 _) fun a ha hrun => hf a ha ?_
      rw [Program.run, act_of_reads hp.1]
      exact hrun

theorem permitted_of_authorizeEdge {identity : Identity} (huser : identity.isAdmin = false)
    {source target : String}
    (h : (authorizeEdge st identity source target).run (act st stamp) db = (.ok none, db)) :
    Permitted identity.owner db.view source target := by
  have hget (address : String) :
      act st stamp (.get address) db = (db.view.readNode address, db) := rfl
  simp only [authorizeEdge, huser, Bool.false_eq_true, if_false, Program.run, hget] at h
  rcases hsource : db.view.readNode source with e | existing
  · simp only [hsource, Program.run] at h
    cases h
  simp only [hsource] at h
  split at h
  · cases h
  split at h
  · cases h
  rename_i hwrite
  simp only [Program.run, hget] at h
  rcases htarget : db.view.readNode target with e | existing'
  · simp only [htarget, Program.run] at h
    cases h
  simp only [htarget] at h
  split at h
  · cases h
  rename_i hread
  refine ⟨⟨⟨_, hsource⟩, _, htarget⟩, fun node hnode => ?_, fun node hnode => ?_⟩
  · obtain rfl := Except.ok.inj (hsource.symm.trans hnode)
    simpa using hwrite
  · obtain rfl := Except.ok.inj (htarget.symm.trans hnode)
    simpa using hread

section User

variable {identity : Identity} (huser : identity.isAdmin = false)

include huser

/-- The edges that have been resolved may be made, and so the transaction makes authorized edges. -/
theorem authorized_resolve (hdb : db.WellFormed) {requests : List (TxOpRequest st)}
    {ops : List (TxOperation st.json)} (hops : ∀ op ∈ ops, By identity.owner op)
    (hedges : ∀ edge, .insertEdge edge ∈ ops →
      Permitted identity.owner db.view edge.source edge.target) :
    AlongRequest stamp (Authorized identity.owner)
      (executeTransaction.resolve st identity requests ops) db := by
  induction requests generalizing ops with
  | nil =>
    refine ⟨fun _ lowered hlowered => ?_, trivial⟩
    rw [GraphStore.lowered] at hlowered
    rcases hlower : db.view.lowerTransaction st db.references stamp ops with e | lowered'
    · simp [hlower, Except.toOption] at hlowered
    obtain rfl : lowered' = lowered := by simpa [hlower, Except.toOption] using hlowered
    exact authorized_lowerTransaction hdb hops hedges hlower
  | cons request requests ih =>
    have hby {op : TxOperation st.json} (hop : By identity.owner op) :
        ∀ op' ∈ ops ++ [op], By identity.owner op' := by
      simpa [or_imp, forall_and] using ⟨hops, hop⟩
    have hpermitted {op : TxOperation st.json} (hop : ∀ edge, op = .insertEdge edge →
        Permitted identity.owner db.view edge.source edge.target) :
        ∀ edge, .insertEdge edge ∈ ops ++ [op] →
          Permitted identity.owner db.view edge.source edge.target := by
      intro edge hedge
      rcases List.mem_append.1 hedge with hedge | hedge
      · exact hedges edge hedge
      · exact hop edge (List.mem_singleton.1 hedge).symm
    cases request with
    | insertEdge id =>
      rw [executeTransaction.resolve, resolveOperation, Program.bind_bind]
      refine alongRequest_bind (reads_authorizeEdge identity id.source id.target) ?_
      rintro (_ | refusal) - hrun
      · refine ih (hby rfl) (hpermitted ?_)
        rintro edge ⟨⟩
        exact permitted_of_authorizeEdge huser hrun
      · trivial
    | _ =>
      rw [executeTransaction.resolve]
      refine alongRequest_bind (reads_resolveOperation huser) ?_
      rintro (refusal | op) hop -
      · trivial
      · obtain ⟨hown, -, hmakes⟩ := hop op rfl
        refine ih (hby hown) (hpermitted fun edge hedge => ?_)
        obtain ⟨id, hrequest⟩ := hmakes edge hedge
        cases hrequest

omit huser in
theorem exists_of_containsNode {v : View} {address : String} (h : v.containsNode address)
    (hread : ∃ slot, v.readNode address = .ok slot) : ∃ node, v.readNode address = .ok (some node) := by
  obtain ⟨_ | node, hslot⟩ := hread
  · exact absurd hslot (containsNode_iff.1 h)
  · exact ⟨node, hslot⟩

theorem authorized_createEdge (id : EdgeId) :
    AlongRequest stamp (Authorized identity.owner) (createEdge st identity id) db := by
  refine alongRequest_bind (reads_authorizeEdge identity id.source id.target) ?_
  rintro (_ | refusal) - hrun
  · obtain ⟨hreadable, hsource, htarget⟩ := permitted_of_authorizeEdge huser hrun
    refine alongRequest_bind (reads_publicEndpoints id.source id.target) ?_
    rintro (e | isPublic) - hpublic
    · trivial
    refine ⟨fun haccepted ops hops => ?_, trivial⟩
    obtain rfl := Option.some.inj hops
    refine ⟨?_, fun _ _ => trivial⟩
    rintro edge ⟨⟩
    rcases insertEdge_cases st db ⟨id.source, id.target, id.kind, identity.owner⟩ with
      ⟨message, h⟩ | ⟨hlawful, -⟩
    · rw [act, h] at haccepted
      cases haccepted
    -- Both ends are there, and they are what `authorize_edge` has seen.
    obtain ⟨hthere, hthere'⟩ := hlawful.joins.1 _ rfl
    obtain ⟨node, hnode⟩ := exists_of_containsNode hthere hreadable.1
    obtain ⟨node', hnode'⟩ := exists_of_containsNode hthere' hreadable.2
    exact ⟨⟨node, hnode, hsource node hnode⟩, node', hnode', htarget node' hnode'⟩
  · trivial

end User

/-! ## The edges of a new node -/

theorem alongEdges_of_append {ops more : List Operation} (h : AlongEdges st Q v (ops ++ more))
    (hall : v.applyAll st ops = (.ok (), v')) : AlongEdges st Q v' more := by
  induction ops generalizing v with
  | nil =>
    obtain rfl := congrArg Prod.snd hall
    exact h
  | cons op ops ih =>
    obtain ⟨next, hnext, hall⟩ := View.applyAll_cons_ok hall
    exact ih (h.2 next hnext) hall

/-- What is said of nodes only can be said of every edge in the state before the first of them. -/
theorem forall_of_alongEdges
    (hQ : ∀ v v' edge, (∀ address, v'.readNode address = v.readNode address) → Q v' edge → Q v edge)
    (hv : v.WellFormed) {edges : List Edge} (h : AlongEdges st Q v (edges.map .insertEdge)) :
    ∀ edge ∈ edges, Q v edge := by
  induction edges generalizing v with
  | nil => simp
  | cons edge edges ih =>
    obtain ⟨next, hnext⟩ : ∃ next, v.apply st (.write (.insertEdge edge)) = .ok next := ⟨_, rfl⟩
    have hnodes : ∀ address, next.readNode address = v.readNode address := fun address => by
      rw [View.readNode_apply hv hnext]
      rfl
    refine List.forall_mem_cons.2 ⟨h.1 edge rfl, fun other hother => ?_⟩
    exact hQ v next other hnodes (ih (hv.apply hnext) (h.2 next hnext) other hother)

/-- The edges of a new node are authorized exactly where their targets can be read. -/
theorem authorized_lowerWithEdges (hdb : db.WellFormed) {node : Node}
    {targets : List (String × String)} {isAdmin : Bool} {edges : List Edge}
    (hlower : db.lowerWithEdges stamp node targets isAdmin = .ok (b, edges)) :
    AlongEdges st (Authorized node.owner) db.view b.operations ↔
      ∀ target kind, (target, kind) ∈ targets → target ≠ node.address →
        ∃ there, db.view.readNode target = .ok (some there) ∧ there.canRead node.owner = true := by
  obtain ⟨previous, hread, -, hlink, rfl⟩ := GraphStore.lowerWithEdges_ok hlower
  obtain ⟨hedges, -⟩ := linkTargets_ok hlink
  have happlies : Applies st db.view (GraphStore.lowerInsert stamp previous node) :=
    GraphStore.lowerInsert_applies hdb hread stamp
  constructor
  · intro h target kind htarget hne
    obtain ⟨v', hreached⟩ := happlies
    rw [operations_putEdges] at h
    have hlinks : AlongEdges st (Authorized node.owner) v' (edges.map .insertEdge) :=
      alongEdges_of_append h hreached.applied
    have hmem : (⟨node.address, target, kind, node.owner⟩ : Edge) ∈ edges := by
      rw [hedges]
      exact List.mem_map.2 ⟨_, htarget, rfl⟩
    have hauthorized : Authorized node.owner v' ⟨node.address, target, kind, node.owner⟩ :=
      forall_of_alongEdges (Q := Authorized node.owner)
        (fun _ _ _ hnodes h => by rwa [Authorized, ← hnodes, ← hnodes]) (hreached.wellFormed hdb)
        hlinks _ hmem
    obtain ⟨-, there, hthere, hcan⟩ := hauthorized
    have hwrote : db.Wrote node { db with view := v' } :=
      wrote_of_reached (staged_lowerInsert stamp previous node) hreached
    exact ⟨there, (hwrote.others target hne).symm.trans hthere, hcan⟩
  · intro h
    refine alongEdges_putEdges hdb happlies
      (alongEdges_of_no_edge insertEdge_not_mem_lowerInsert) ?_
    intro b' v' hstaged hreached edge hedge
    rw [staged_lowerInsert] at hstaged
    have hwrote : db.Wrote node { db with view := v' } := wrote_of_reached hstaged hreached
    rw [hedges] at hedge
    obtain ⟨⟨target, kind⟩, htarget, rfl⟩ := List.mem_map.1 hedge
    refine ⟨⟨node, hwrote.written, by simp [Node.canWrite]⟩, ?_⟩
    by_cases hself : target = node.address
    · exact ⟨node, hself ▸ hwrote.written, by simp [Node.canRead]⟩
    · obtain ⟨there, hthere, hcan⟩ := h target kind htarget hself
      exact ⟨there, (hwrote.others target hself).trans hthere, hcan⟩

theorem alongRequest_createNode (hdb : db.WellFormed) {identity : Identity}
    {payload : CreateNodeRequest} (h : Readable db (.createNode identity payload : Request st)) :
    AlongRequest stamp (Authorized identity.owner) (createNode st identity payload) db := by
  refine ⟨fun h => (by cases h), ?_⟩
  rcases (act st stamp (.get payload.address) db).1 with e | existing
  · trivial
  simp only
  split
  · trivial
  refine ⟨fun _ ops hops => ?_, trivial⟩
  simp only [GraphStore.lowered] at hops
  split at hops
  · rename_i b edges hlower
    obtain rfl := Option.some.inj hops
    exact (authorized_lowerWithEdges hdb hlower).2 h
  · cases hops

theorem readable_of_alongRequest (hdb : db.WellFormed) {identity : Identity}
    {payload : CreateNodeRequest} {body : Body}
    (hcreated : ((createNode st identity payload).run (act st stamp) db).1 =
      .ok ⟨.created, body⟩)
    (h : AlongRequest stamp (Authorized identity.owner) (createNode st identity payload) db) :
    Readable db (.createNode identity payload : Request st) := by
  have hget : act st stamp (.get payload.address) db =
    (db.view.readNode payload.address, db) := rfl
  replace h := h.2
  rw [createNode, Program.run, hget] at hcreated
  rw [hget] at h
  rcases hread : db.view.readNode payload.address with e | existing
  · simp only [hread, Program.run, Except.ok.injEq] at hcreated
    have hstatus : (storageFailure e).status = .created := congrArg Response.status hcreated
    exact absurd hstatus (storageFailure_status e (by decide) (by decide))
  simp only [hread] at h hcreated
  split at hcreated
  · cases hcreated
  rename_i hproceed
  rw [if_neg hproceed] at h
  simp only [Program.run, Except.ok.injEq] at hcreated
  replace h := h.1
  rw [act] at h hcreated
  cases hlower : db.lowerWithEdges stamp (payload.node identity.owner) payload.edges
      identity.isAdmin with
  | error message =>
    simp only [GraphStore.insertWithEdges, hlower] at hcreated
    exact absurd (congrArg Response.status hcreated) createNode.answer_status
  | ok pair =>
    cases hinsert : (db.insertWithEdges st stamp (payload.node identity.owner) payload.edges
        identity.isAdmin).1 with
    | error e =>
      rw [hinsert] at hcreated
      exact absurd (congrArg Response.status hcreated) createNode.answer_status
    | ok edges =>
      rw [hinsert] at h
      exact (authorized_lowerWithEdges hdb hlower).1 (h rfl _ (by rw [GraphStore.lowered, hlower]))

/-- A request that makes no edge. -/
theorem alongRequest_of_calls {handler : Handler st}
    (h : handler.Calls fun op => ∀ answer, accepted op answer = false) :
    AlongRequest stamp Q handler db := by
  induction handler generalizing db with
  | done response | fail e => trivial
  | call op next ih =>
    refine ⟨fun haccepted => ?_, ih _ (h.2 _ trivial)⟩
    rw [h.1] at haccepted
    cases haccepted

end EdgeAuthorization

open EdgeAuthorization

/-- For every state and every request of a user that is handled alone: each edge that it makes has,
    when it is applied, a source that the user can write and a target that the user can read, if a
    `create_node` names no target that the user cannot read, and otherwise not, unless the request is
    refused. -/
theorem edges_authorized {db : GraphStore} (hdb : db.WellFormed) (request : Request st)
    (huser : request.identity.isAdmin = false) (stamp : Stamp) :
    (Readable db request →
      AlongRequest stamp (Authorized request.identity.owner) request.handler db) ∧
    (∀ body, (request.handler.run (act st stamp) db).1 = .ok ⟨.created, body⟩ →
      AlongRequest stamp (Authorized request.identity.owner) request.handler db →
      Readable db request) := by
  cases request with
  | createEdge identity id =>
    exact ⟨fun _ => authorized_createEdge huser id, fun _ _ _ => trivial⟩
  | executeTransaction identity operations =>
    exact ⟨fun _ => authorized_resolve huser hdb nofun nofun, fun _ _ _ => trivial⟩
  | createNode identity payload =>
    exact ⟨alongRequest_createNode hdb, fun _ => readable_of_alongRequest hdb⟩
  | updateNode identity address payload | deleteNode identity address | claimNode identity address =>
    refine ⟨fun _ => alongRequest_of_calls ⟨fun _ => rfl, fun answer _ => ?_⟩, fun _ _ _ => trivial⟩
    rcases answer with e | _ | existing <;> dsimp only <;> (try split)
    all_goals first | trivial | exact ⟨fun _ => rfl, fun _ _ => trivial⟩

namespace EdgeAuthorization

/-- A database with a private node of `bob` and a public one. -/
def town : GraphStore :=
  .ofNodes [nodeOf "hidden" "bob" "", { nodeOf "open" "bob" "" with visibility := .pub }]

/-- `alice` creates a node with an edge to this one. -/
def links (target : String) : Request .plain :=
  .createNode ⟨"alice", .user⟩ ⟨"a", "note", ⟨0, 0, 0, 0⟩, "", none, [(target, "knows")], false⟩

end EdgeAuthorization

theorem edge_unauthorized :
    ((links "hidden").handler.run (act .plain ⟨0, 0⟩) town).1 =
      .ok ⟨.created, .created "a" [⟨"a", "hidden", "knows", "alice"⟩]⟩ ∧
    ¬ AlongRequest ⟨0, 0⟩ (Authorized "alice") (links "hidden").handler town := by
  have hcreated : ((links "hidden").handler.run (act .plain ⟨0, 0⟩) town).1 =
      .ok ⟨.created, .created "a" [⟨"a", "hidden", "knows", "alice"⟩]⟩ := by decide +kernel
  have hread : town.view.readNode "hidden" = .ok (some (nodeOf "hidden" "bob" "")) := by
    decide +kernel
  refine ⟨hcreated, fun h => ?_⟩
  have hreadable : Readable town (links "hidden") :=
    readable_of_alongRequest (ofNodes_wellFormed _) hcreated h
  obtain ⟨node, hnode, hcan⟩ := hreadable "hidden" "knows" List.mem_cons_self (by decide)
  obtain rfl := Option.some.inj (Except.ok.inj (hread.symm.trans hnode))
  exact absurd hcan (by decide)

theorem edges_authorized_open :
    AlongRequest ⟨0, 0⟩ (Authorized "alice") (links "open").handler town := by
  refine (edges_authorized (ofNodes_wellFormed _) (links "open") rfl ⟨0, 0⟩).1 ?_
  intro target kind htarget _
  obtain ⟨rfl, rfl⟩ : target = "open" ∧ kind = "knows" := by simpa using htarget
  exact ⟨{ nodeOf "open" "bob" "" with visibility := .pub }, by decide +kernel, by decide⟩

end FacetQL
