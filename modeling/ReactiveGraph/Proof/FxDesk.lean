import ReactiveGraph.Model.FxService
import ReactiveGraph.Proof.Linearization
import ReactiveGraph.Proof.TypedRefs

/-!
# What the engine has of the trades

A trade is merged as a whole and dropped as a whole, but the counts of its nodes do not go up and
down together. A merge counts each of the five once. A drop takes one from each, and what goes takes
its dependencies along: the trade's own spread goes, and takes the mean a second time; the mean, if
that was its last count, takes the spot rates a second time.

A `Desk` keeps these counts and knows nothing of engines. The engine's table is what the desk says,
and all of it is active (`Books`), whatever is created and removed in whatever order.

- `Distinct` is what makes the ids of nodes tell them apart: trades have ids of their own, and no
  two keys of the trades share a hash. The types of the nodes are different, so only the keys can
  collide.
- `Desk.apply` is what a deal does to the counts, with the second release in it. A mean that had one
  or two counts goes, and then its spot rates lose two each.
- `Books.create` and `Books.remove` are the two steps. A creation counts each node once more and
  finds the publisher the one sink; a removal is the release of five ids, taken apart node by node
  (`Books.release_eq`).
- `Books.handle` puts them under the loop's commands, which is how the rest of the service sees the
  engine.

What the counts come to over a run of the service is in `Proof/FxBooks.lean`. The invariant does not
say that a trade that is there has all its nodes, since it need not.
-/

namespace ReactiveGraph

namespace EventLoop

variable {V : Type*} (s : Iteration V)

theorem engine_handle_merge (subgraph : Subgraph V) (reply : ℕ) :
    (handle s (.merge subgraph reply)).engine = subgraph.nodeIds.foldl Engine.activateIfSink
      (s.engine.registerAll subgraph.descriptors) := rfl

theorem engine_handle_remove (nodeIds : List NodeId) :
    (handle s (.remove nodeIds)).engine = s.engine.release nodeIds := rfl

end EventLoop

namespace FxPricing

open Engine

variable {R : Type*}

/-! ## The nodes of a trade -/

/-- The nodes of the graph, as what they stand for. Spot rates and means are a pair's, and trades on
one pair share them; spreads and publishers are a trade's own. -/
inductive Node (R : Type*) where
  | spot (pair : CurrencyPair) (side : Side)
  | mid (pair : CurrencyPair)
  | spread (trade : ClientSpread R)
  | publisher (trade : ClientSpread R)

/-- The nodes that a trade registers, in the order of its subgraph. -/
def ClientSpread.nodes (t : ClientSpread R) : List (Node R) :=
  [.spot t.pair .bid, .spot t.pair .ask, .mid t.pair, .spread t, .publisher t]

/-- The nodes of some trades. -/
def nodesOf (ts : List (ClientSpread R)) : List (Node R) := ts.flatMap ClientSpread.nodes

variable {ts : List (ClientSpread R)}

theorem mem_nodesOf {t : ClientSpread R} (ht : t ∈ ts) {n : Node R} (hn : n ∈ t.nodes) :
    n ∈ nodesOf ts := List.mem_flatMap.mpr ⟨t, ht, hn⟩

/-- A node of one trade only is that trade's. -/
theorem mem_of_node {t : ClientSpread R} {n : Node R} (hn : n ∈ nodesOf ts)
    (h : n = .spread t ∨ n = .publisher t) : t ∈ ts := by
  obtain ⟨t', ht', hmem⟩ := List.mem_flatMap.mp hn
  rcases h with rfl | rfl
  · simp only [ClientSpread.nodes, List.mem_cons, List.not_mem_nil, or_false, reduceCtorEq,
      Node.spread.injEq, false_or] at hmem
    rwa [hmem]
  · simp only [ClientSpread.nodes, List.mem_cons, List.not_mem_nil, or_false, reduceCtorEq,
      Node.publisher.injEq, false_or] at hmem
    rwa [hmem]

section Nodes

variable [Rate R]

/-- The builder call that makes the node, as `build_trade_subgraph` has it. -/
def Node.build (hash : Key → UInt64) : Node R → Build output Key (Value R)
  | .spot pair side => SpotRate.build ⟨pair, side⟩
  | .mid pair => MidRate.build ⟨pair⟩
      [(SpotRate.build ⟨pair, .bid⟩ : Build output Key (Value R)).nodeRef hash,
        (SpotRate.build ⟨pair, .ask⟩ : Build output Key (Value R)).nodeRef hash]
  | .spread t => t.build [⟨NodeId.fromKey hash midRate.typeId (.pair t.pair), f64⟩]
  | .publisher t => PricePublisher.build ⟨t.tradeId⟩
      [⟨NodeId.fromKey hash clientSpread.typeId (.trade t.tradeId), spreadQuote⟩]

def Node.desc (hash : Key → UInt64) (n : Node R) : NodeDescriptor (Value R) :=
  (n.build hash).descriptor hash

def Node.id (hash : Key → UInt64) (n : Node R) : NodeId := (n.desc hash).id

variable {hash : Key → UInt64}

theorem tradeNodes_eq (t : ClientSpread R) :
    tradeNodes hash t = t.nodes.map (Node.build hash) := rfl

/-- The ids that the handle of a trade lists, each once. -/
def ClientSpread.nodeIds (hash : Key → UInt64) (t : ClientSpread R) : List NodeId :=
  t.nodes.map (Node.id hash)

/-- The nodes that a trade has registered. -/
def ClientSpread.descs (hash : Key → UInt64) (t : ClientSpread R) :
    List (NodeDescriptor (Value R)) :=
  t.nodes.map (Node.desc hash)

theorem ClientSpread.map_id_descs (hash : Key → UInt64) (t : ClientSpread R) :
    (t.descs hash).map NodeDescriptor.id = t.nodeIds hash := by
  rw [descs, List.map_map]
  rfl

/-- Trades with ids of their own, whose keys do not collide. The service draws an id for each
request, and relies on the hash. -/
structure Distinct (hash : Key → UInt64) (ts : List (ClientSpread R)) : Prop where
  ids : ∀ t ∈ ts, ∀ t' ∈ ts, t.tradeId = t'.tradeId → t = t'
  hashes : NoCollision hash (ts.flatMap (tradeNodes hash))

theorem Distinct.key_eq (h : Distinct hash ts) {n n' : Node R} (hn : n ∈ nodesOf ts)
    (hn' : n' ∈ nodesOf ts) (hid : n.id hash = n'.id hash) :
    (n.build hash).key = (n'.build hash).key := by
  obtain ⟨t, ht, hn⟩ := List.mem_flatMap.mp hn
  obtain ⟨t', ht', hn'⟩ := List.mem_flatMap.mp hn'
  refine h.hashes _ (List.mem_flatMap.mpr ⟨t, ht, ?_⟩) _ (List.mem_flatMap.mpr ⟨t', ht', ?_⟩)
    (NodeId.mk.inj hid).2
  · rw [tradeNodes_eq]
    exact List.mem_map_of_mem hn
  · rw [tradeNodes_eq]
    exact List.mem_map_of_mem hn'

/-- **Different nodes have different ids.** The types tell the four kinds apart, and within a kind
the keys do, whose hashes are different. -/
theorem Distinct.id_inj (h : Distinct hash ts) {n n' : Node R} (hn : n ∈ nodesOf ts)
    (hn' : n' ∈ nodesOf ts) (hid : n.id hash = n'.id hash) : n = n' := by
  have hkey := h.key_eq hn hn' hid
  have hscope := (NodeId.mk.inj hid).1
  cases n with
  | spot pair side =>
    cases n' with
    | spot =>
      obtain ⟨rfl, rfl⟩ := Key.spot.inj hkey
      rfl
    | _ => exact Key.noConfusion hkey
  | mid pair =>
    cases n' with
    | mid =>
      obtain rfl := Key.pair.inj hkey
      rfl
    | _ => exact Key.noConfusion hkey
  | spread t =>
    cases n' with
    | spread t' =>
      rw [h.ids t (mem_of_node hn (.inl rfl)) t' (mem_of_node hn' (.inl rfl)) (Key.trade.inj hkey)]
    -- the two have one key, scoped by different types
    | publisher =>
      exact absurd (show clientSpread.typeId = pricePublisher.typeId from hscope) (by decide)
    | _ => exact Key.noConfusion hkey
  | publisher t =>
    cases n' with
    | publisher t' =>
      rw [h.ids t (mem_of_node hn (.inr rfl)) t' (mem_of_node hn' (.inr rfl)) (Key.trade.inj hkey)]
    | spread =>
      exact absurd (show pricePublisher.typeId = clientSpread.typeId from hscope) (by decide)
    | _ => exact Key.noConfusion hkey

theorem Distinct.mem_nodeIds (h : Distinct hash ts) {t : ClientSpread R} (ht : t ∈ ts) {n : Node R}
    (hn : n ∈ nodesOf ts) : n.id hash ∈ t.nodeIds hash ↔ n ∈ t.nodes := by
  refine ⟨fun hmem => ?_, List.mem_map_of_mem⟩
  obtain ⟨n', hn', hid⟩ := List.mem_map.mp hmem
  rwa [h.id_inj hn (mem_nodesOf ht hn') hid.symm]

theorem Distinct.nodup_nodeIds (h : Distinct hash ts) {t : ClientSpread R} (ht : t ∈ ts) :
    (t.nodeIds hash).Nodup := by
  refine List.Nodup.map_on (fun n hn n' hn' => h.id_inj (mem_nodesOf ht hn) (mem_nodesOf ht hn')) ?_
  simp [ClientSpread.nodes]

theorem Distinct.descriptors (h : Distinct hash ts) {t : ClientSpread R} (ht : t ∈ ts) :
    (buildTradeSubgraph hash t.tradeId t.pair t.client t.spreadBps).descriptors = t.descs hash :=
  SubgraphBuilder.descriptors_ofList (h.nodup_nodeIds ht)

theorem nodeIds_buildTradeSubgraph (t : ClientSpread R) :
    (buildTradeSubgraph hash t.tradeId t.pair t.client t.spreadBps).nodeIds = t.nodeIds hash :=
  SubgraphBuilder.nodeIds_ofList _

end Nodes

/-! ## The desk -/

/-- What the service has the engine do: a trade is created or removed, as a whole. -/
inductive Deal (R : Type*) where
  | create (trade : ClientSpread R)
  | remove (trade : ClientSpread R)

structure Desk where
  /-- The trades, by id. -/
  live : Finset String
  /-- What either spot rate of a pair counts. -/
  spot : CurrencyPair → ℕ
  /-- What the mean of a pair counts. -/
  mid : CurrencyPair → ℕ

namespace Desk

def init : Desk := ⟨∅, fun _ => 0, fun _ => 0⟩

/-- What a removal takes from each spot rate: a mean that goes takes its spot rates along. It goes
when it has one count or two, since a removal takes two. -/
def taken (d : Desk) (pair : CurrencyPair) : ℕ := if d.mid pair = 1 ∨ d.mid pair = 2 then 2 else 1

def apply (d : Desk) : Deal R → Desk
  | .create t =>
    { live := insert t.tradeId d.live
      spot := Function.update d.spot t.pair (d.spot t.pair + 1)
      mid := Function.update d.mid t.pair (d.mid t.pair + 1) }
  | .remove t =>
    { live := d.live.erase t.tradeId
      spot := Function.update d.spot t.pair (d.spot t.pair - d.taken t.pair)
      mid := Function.update d.mid t.pair (d.mid t.pair - 2) }

/-- What a node counts. A trade's own nodes count one while the trade is there. -/
def count (d : Desk) : Node R → ℕ
  | .spot pair _ => d.spot pair
  | .mid pair => d.mid pair
  | .spread t | .publisher t => if t.tradeId ∈ d.live then 1 else 0

/-- A trade is created that is not there, or one is removed that is. The service sees to both. -/
def Allows (ts : List (ClientSpread R)) (d : Desk) : Deal R → Prop
  | .create t => t ∈ ts ∧ t.tradeId ∉ d.live
  | .remove t => t ∈ ts ∧ t.tradeId ∈ d.live

/-- A mean never counts more than its spot rates: each deal that counts or discounts it does at
least as much to them. -/
def Covers (d : Desk) : Prop := ∀ pair, d.mid pair ≤ d.spot pair

theorem Covers.apply {d : Desk} (h : d.Covers) (deal : Deal R) : (d.apply deal).Covers := by
  intro pair
  have hpair := h pair
  cases deal with
  | create t =>
    simp only [Desk.apply, Function.update_apply]
    split
    · next heq =>
      rw [heq] at hpair
      omega
    · exact hpair
  | remove t =>
    simp only [Desk.apply, Function.update_apply]
    split
    · next heq =>
      rw [heq] at hpair
      unfold taken
      split <;> omega
    · exact hpair

end Desk

/-! ## The books -/

section Books

variable [Rate R]

/-- The entry of a node that has been counted so often: none, if it has not. -/
def Node.counted (hash : Key → UInt64) (n : Node R) (k : ℕ) : Option (NodeEntry (Value R)) :=
  if k = 0 then none else some ⟨(n.desc hash).kind, (n.desc hash).deps, k, (n.desc hash).nodeImpl⟩

/-- The engine has what the desk says: each node with its count, nothing else, and everything
active. That the wiring is what the registry says and that no removal is deferred comes with it. -/
structure Books (hash : Key → UInt64) (ts : List (ClientSpread R)) (d : Desk)
    (e : Engine (Value R)) : Prop where
  covers : d.Covers
  entry : ∀ n ∈ nodesOf ts, e.graph.entries.get (n.id hash) = n.counted hash (d.count n)
  only : ∀ id ∈ e.graph.entries.keys, ∃ n ∈ nodesOf ts, n.id hash = id
  active : e.active = e.graph.entries.keys
  wired : Wired e
  drained : e.pendingRemovals = []

variable {hash : Key → UInt64} {ts : List (ClientSpread R)} {d : Desk} {e : Engine (Value R)}

theorem Node.counted_eq_some {n : Node R} {k : ℕ} {entry : NodeEntry (Value R)}
    (h : n.counted hash k = some entry) :
    k ≠ 0 ∧ entry = ⟨(n.desc hash).kind, (n.desc hash).deps, k, (n.desc hash).nodeImpl⟩ := by
  unfold Node.counted at h
  split at h
  · exact absurd h.symm (Option.some_ne_none _)
  · next hk => exact ⟨hk, (Option.some.inj h).symm⟩

theorem Node.counted_of_pos {n : Node R} {k : ℕ} (hk : k ≠ 0) : n.counted hash k =
    some ⟨(n.desc hash).kind, (n.desc hash).deps, k, (n.desc hash).nodeImpl⟩ := if_neg hk

@[simp] theorem Node.counted_zero (n : Node R) : n.counted hash 0 = none := if_pos rfl

theorem Books.mem_keys (h : Books hash ts d e) {n : Node R} (hn : n ∈ nodesOf ts) :
    n.id hash ∈ e.graph.entries.keys ↔ d.count n ≠ 0 := by
  rw [FinMap.mem_keys, h.entry n hn]
  by_cases hk : d.count n = 0
  · simp [hk]
  · simp [Node.counted_of_pos hk, hk]

/-! ## A trade is created -/

variable {t : ClientSpread R}

theorem Distinct.count_of_mem (h : Distinct hash ts) (ht : t ∈ ts) {n : Node R} (hn : n ∈ t.nodes) :
    (t.nodeIds hash).count (n.id hash) = 1 :=
  List.count_eq_one_of_mem (h.nodup_nodeIds ht) (List.mem_map_of_mem hn)

theorem Distinct.count_of_notMem (h : Distinct hash ts) (ht : t ∈ ts) {n : Node R}
    (hn : n ∈ nodesOf ts) (hnot : n ∉ t.nodes) : (t.nodeIds hash).count (n.id hash) = 0 :=
  List.count_eq_zero.mpr fun hmem => hnot ((h.mem_nodeIds ht hn).mp hmem)

/-- A node of other trades only has nothing to do with a trade's deals: a deal changes what it says
of its own id and its own pair. -/
theorem Desk.count_of_notMem (h : Distinct hash ts) (ht : t ∈ ts) {n : Node R} (hn : n ∈ nodesOf ts)
    (hmem : n ∉ t.nodes) {d' : Desk} (hlive : ∀ id ≠ t.tradeId, id ∈ d'.live ↔ id ∈ d.live)
    (hspot : ∀ pair ≠ t.pair, d'.spot pair = d.spot pair)
    (hmid : ∀ pair ≠ t.pair, d'.mid pair = d.mid pair) : d'.count n = d.count n := by
  cases n with
  | spot pair side =>
    refine hspot pair ?_
    rintro rfl
    cases side <;> simp [ClientSpread.nodes] at hmem
  | mid pair =>
    refine hmid pair ?_
    rintro rfl
    simp [ClientSpread.nodes] at hmem
  | spread t' =>
    have hne : t'.tradeId ≠ t.tradeId := by
      intro hid
      rw [h.ids t' (mem_of_node hn (.inl rfl)) t ht hid] at hmem
      simp [ClientSpread.nodes] at hmem
    simp only [Desk.count, hlive _ hne]
  | publisher t' =>
    have hne : t'.tradeId ≠ t.tradeId := by
      intro hid
      rw [h.ids t' (mem_of_node hn (.inr rfl)) t ht hid] at hmem
      simp [ClientSpread.nodes] at hmem
    simp only [Desk.count, hlive _ hne]

/-- The desk counts each node of the new trade once more. -/
theorem Desk.count_create (h : Distinct hash ts) (hd : d.Allows ts (.create t)) {n : Node R}
    (hn : n ∈ nodesOf ts) :
    (d.apply (.create t)).count n = d.count n + (t.nodeIds hash).count (n.id hash) := by
  obtain ⟨ht, hfresh⟩ := hd
  by_cases hmem : n ∈ t.nodes
  · rw [h.count_of_mem ht hmem]
    simp only [ClientSpread.nodes, List.mem_cons, List.not_mem_nil, or_false] at hmem
    rcases hmem with rfl | rfl | rfl | rfl | rfl <;> simp [Desk.apply, Desk.count, hfresh]
  · rw [h.count_of_notMem ht hn hmem]
    exact Desk.count_of_notMem h ht hn hmem (fun id hid => by simp [Desk.apply, hid])
      (fun pair hp => Function.update_of_ne hp _ _) fun pair hp => Function.update_of_ne hp _ _

theorem Desk.count_remove_of_notMem (h : Distinct hash ts) (hd : d.Allows ts (.remove t))
    {n : Node R} (hn : n ∈ nodesOf ts) (hmem : n ∉ t.nodes) :
    (d.apply (.remove t)).count n = d.count n :=
  Desk.count_of_notMem h hd.1 hn hmem (fun id hid => by simp [Desk.apply, hid])
    (fun pair hp => Function.update_of_ne hp _ _) fun pair hp => Function.update_of_ne hp _ _

/-- Registration counts each node of the trade once more, new or not: the first registration of an
id decides, and here all of them agree. -/
theorem Distinct.registeredEntry (h : Distinct hash ts) (ht : t ∈ ts) {n : Node R}
    (hn : n ∈ nodesOf ts) (k : ℕ) :
    Engine.registeredEntry (n.counted hash k) (t.descs hash) (n.id hash) =
      n.counted hash (k + (t.nodeIds hash).count (n.id hash)) := by
  have hids := t.map_id_descs hash
  by_cases hk : k = 0
  · subst hk
    rw [Node.counted_zero, Engine.registeredEntry, hids]
    by_cases hmem : n ∈ t.nodes
    · obtain ⟨desc, hfind⟩ := Option.isSome_iff_exists.mp
        (List.find?_isSome.mpr
          ⟨_, List.mem_map_of_mem (f := Node.desc hash) hmem, decide_eq_true rfl⟩ :
          ((t.descs hash).find? (·.id = n.id hash)).isSome)
      obtain ⟨n', hn', rfl⟩ := List.mem_map.mp (List.mem_of_find?_eq_some hfind)
      have hid : (n'.desc hash).id = n.id hash := by simpa using List.find?_some hfind
      obtain rfl := h.id_inj (mem_nodesOf ht hn') hn hid
      rw [hfind, h.count_of_mem ht hn']
      rfl
    · rw [h.count_of_notMem ht hn hmem, List.find?_eq_none.mpr]
      · rfl
      · intro desc hdesc
        obtain ⟨n', hn', rfl⟩ := List.mem_map.mp hdesc
        simp only [decide_eq_true_eq]
        exact fun hid => hmem (h.id_inj (mem_nodesOf ht hn') hn hid ▸ hn')
  · rw [Node.counted_of_pos hk, Node.counted_of_pos (by omega), Engine.registeredEntry, hids]

theorem Books.entry_create (h : Books hash ts d e) (hap : Distinct hash ts)
    (hd : d.Allows ts (.create t)) {n : Node R} (hn : n ∈ nodesOf ts) :
    (e.registerAll (t.descs hash)).graph.entries.get (n.id hash) =
      n.counted hash ((d.apply (.create t)).count n) := by
  rw [get_registerAll, h.entry n hn, hap.registeredEntry hd.1 hn, Desk.count_create hap hd hn]

theorem Books.depsOf_create (h : Books hash ts d e) (hap : Distinct hash ts)
    (hd : d.Allows ts (.create t)) {n : Node R} (hn : n ∈ t.nodes) :
    (e.registerAll (t.descs hash)).graph.depsOf (n.id hash) = (n.desc hash).deps := by
  have hn' := mem_nodesOf hd.1 hn
  refine Graph.depsOf_of_get ((h.entry_create hap hd hn').trans (Node.counted_of_pos ?_))
  rw [Desk.count_create hap hd hn', hap.count_of_mem hd.1 hn]
  omega

/-- A new node sees to it that what it reads is visited: what is not active yet is walked
through. -/
theorem Books.visits_dep (h : Books hash ts d e) (hap : Distinct hash ts)
    (hd : d.Allows ts (.create t)) {n n' : Node R} (hn : n ∈ t.nodes) (hzero : d.count n = 0)
    (hdep : n'.id hash ∈ (n.desc hash).deps) :
    (e.registerAll (t.descs hash)).Visits (n.id hash) (n'.id hash) := by
  refine .single ⟨fun hact => ?_, ?_⟩
  · have hact' : n.id hash ∈ e.active := hact
    rw [h.active, h.mem_keys (mem_nodesOf hd.1 hn)] at hact'
    exact hact' hzero
  · rw [Reads, h.depsOf_create hap hd hn]
    exact hdep

/-- The new nodes of a trade are visited from its publisher, the mean through the spread and the
rates through the mean. -/
theorem Books.visits_create (h : Books hash ts d e) (hap : Distinct hash ts)
    (hd : d.Allows ts (.create t)) {n : Node R} (hn : n ∈ t.nodes) (hzero : d.count n = 0) :
    (e.registerAll (t.descs hash)).Visits ((Node.publisher t).id hash) (n.id hash) := by
  have htoSpread : (e.registerAll (t.descs hash)).Visits ((Node.publisher t).id hash)
      ((Node.spread t).id hash) :=
    h.visits_dep hap hd (by simp [ClientSpread.nodes]) (if_neg hd.2) List.mem_cons_self
  have htoMid : (e.registerAll (t.descs hash)).Visits ((Node.publisher t).id hash)
      ((Node.mid t.pair : Node R).id hash) :=
    (h.visits_dep (n := .spread t) hap hd (by simp [ClientSpread.nodes]) (if_neg hd.2)
      List.mem_cons_self).trans htoSpread
  -- where a spot rate is new, so is the mean
  have htoSpot : ∀ side, d.spot t.pair = 0 → (e.registerAll (t.descs hash)).Visits
      ((Node.publisher t).id hash) ((Node.spot t.pair side : Node R).id hash) := by
    intro side hspot
    have hmid : d.mid t.pair = 0 := Nat.le_zero.mp (hspot ▸ h.covers t.pair)
    refine (h.visits_dep (n := .mid t.pair) hap hd (by simp [ClientSpread.nodes]) hmid ?_).trans
      htoMid
    cases side
    · exact List.mem_cons_self
    · exact List.mem_cons_of_mem _ List.mem_cons_self
  simp only [ClientSpread.nodes, List.mem_cons, List.not_mem_nil, or_false] at hn
  rcases hn with rfl | rfl | rfl | rfl | rfl
  · exact htoSpot .bid hzero
  · exact htoSpot .ask hzero
  · exact htoMid
  · exact htoSpread
  · exact .refl

/-- **A trade that is merged is counted, and active with all it needs.** What was active stays so,
and a node that was not there is visited from the publisher. -/
theorem Books.create (h : Books hash ts d e) (hap : Distinct hash ts)
    (hd : d.Allows ts (.create t)) : Books hash ts (d.apply (.create t))
      ((t.nodeIds hash).foldl activateIfSink (e.registerAll (t.descs hash))) := by
  have hp : (e.registerAll (t.descs hash)).pendingRemovals = [] := h.drained
  obtain ⟨hgrown, -, hrest⟩ := grown_activateSinks (t.nodeIds hash) hp
  have hnodes := t.map_id_descs hash
  refine ⟨h.covers.apply _, fun n hn => ?_, fun id hid => ?_, ?_,
    wired_activateSinks _ hp (h.wired.registerAll _), hrest.pendingRemovals.trans hp⟩
  · rw [hgrown.entries]
    exact h.entry_create hap hd hn
  · rw [hgrown.entries, mem_keys_registerAll, hnodes] at hid
    rcases hid with hid | hid
    · exact h.only id hid
    · obtain ⟨n, hn, rfl⟩ := List.mem_map.mp hid
      exact ⟨n, mem_nodesOf hd.1 hn, rfl⟩
  · have hactive : (e.registerAll (t.descs hash)).active = e.graph.entries.keys := h.active
    ext v
    rw [mem_active_activateSinks hp, hgrown.entries, hactive]
    refine ⟨fun hv => hv.elim (fun hv => mem_keys_registerAll.mpr (.inl hv)) And.left, fun hv => ?_⟩
    -- what was registered was active before; what is new is visited from the publisher
    by_cases hold : v ∈ e.graph.entries.keys
    · exact .inl hold
    · have hnew := (mem_keys_registerAll.mp hv).resolve_left hold
      rw [hnodes] at hnew
      obtain ⟨n, hn, rfl⟩ := List.mem_map.mp hnew
      have hzero : d.count n = 0 := not_not.mp (mt (h.mem_keys (mem_nodesOf hd.1 hn)).mpr hold)
      have hpublisher : Node.publisher t ∈ t.nodes := by simp [ClientSpread.nodes]
      refine .inr ⟨hv, (Node.publisher t).id hash, List.mem_map_of_mem hpublisher, ?_,
        h.visits_create hap hd hn hzero⟩
      refine ⟨_, (h.entry_create hap hd (mem_nodesOf hd.1 hpublisher)).trans
        (Node.counted_of_pos ?_), rfl⟩
      rw [Desk.count_create hap hd (mem_nodesOf hd.1 hpublisher), hap.count_of_mem hd.1 hpublisher]
      omega

/-! ## A trade is removed -/

theorem Distinct.id_eq (h : Distinct hash ts) {n n' : Node R} (hn : n ∈ nodesOf ts)
    (hn' : n' ∈ nodesOf ts) : n.id hash = n'.id hash ↔ n = n' :=
  ⟨h.id_inj hn hn', fun heq => heq ▸ rfl⟩

theorem Books.positive (h : Books hash ts d e) : RefCount.Positive e.graph.entries := by
  intro id entry hentry
  obtain ⟨n, hn, rfl⟩ := h.only id (FinMap.mem_keys_of_get hentry)
  rw [h.entry n hn] at hentry
  obtain ⟨hk, rfl⟩ := Node.counted_eq_some hentry
  exact Nat.pos_of_ne_zero hk

/-- Taking from a count: what is left of it, or no entry, if nothing is. -/
theorem Node.take_counted (n : Node R) (k j : ℕ) :
    ((n.counted hash k).bind fun c =>
      if j < Counted.count c then some (Counted.withCount c (Counted.count c - j)) else none) =
    n.counted hash (k - j) := by
  by_cases hk : k = 0
  · subst hk
    rw [Node.counted_zero, Nat.zero_sub, Node.counted_zero]
    rfl
  · rw [Node.counted_of_pos hk, Option.bind_some]
    show (if j < k then some (⟨(n.desc hash).kind, (n.desc hash).deps, k - j,
      (n.desc hash).nodeImpl⟩ : NodeEntry (Value R)) else none) = _
    split
    · rw [Node.counted_of_pos (by omega)]
    · rw [Nat.sub_eq_zero_of_le (by omega), Node.counted_zero]

/-- The table when a trade has gone: its own nodes are out of it, the mean has lost two, and the
spot rates as many as the desk says. -/
def ClientSpread.leave (hash : Key → UInt64) (t : ClientSpread R) (k : ℕ)
    (m : FinMap NodeId (NodeEntry (Value R))) : FinMap NodeId (NodeEntry (Value R)) :=
  RefCount.take k ((Node.spot t.pair .bid : Node R).id hash)
    (RefCount.take k ((Node.spot t.pair .ask : Node R).id hash)
      (RefCount.take 2 ((Node.mid t.pair : Node R).id hash)
        ((m.remove ((Node.publisher t).id hash)).remove ((Node.spread t).id hash))))

/-- What is left counts what the desk says. A node is the trade's own, shared on its pair, or of
another pair. -/
theorem Books.get_leave (h : Books hash ts d e) (hap : Distinct hash ts)
    (hd : d.Allows ts (.remove t)) {n : Node R} (hn : n ∈ nodesOf ts) :
    (t.leave hash (d.taken t.pair) e.graph.entries).get (n.id hash) =
      n.counted hash ((d.apply (.remove t)).count n) := by
  have hnodes : ∀ n ∈ t.nodes, n ∈ nodesOf ts := fun n hn => mem_nodesOf hd.1 hn
  by_cases hmem : n ∈ t.nodes
  · simp only [ClientSpread.nodes, List.mem_cons, List.not_mem_nil, or_false, forall_eq_or_imp,
      forall_eq] at hmem hnodes
    obtain ⟨hbid, hask, hmid, hspread, hpublisher⟩ := hnodes
    rcases hmem with rfl | rfl | rfl | rfl | rfl <;>
      simp only [ClientSpread.leave, RefCount.get_take, FinMap.get_remove, hap.id_eq, hbid, hask,
        hmid, hspread, hpublisher, h.entry, Node.take_counted, reduceCtorEq, Node.spot.injEq,
        if_true, if_false, and_false, Desk.apply, Desk.count, Function.update_self, Desk.taken,
        Finset.mem_erase, ne_eq, not_true, false_and, Node.counted_zero]
  · -- a node of other trades only
    have hne : ∀ n' ∈ t.nodes, n.id hash ≠ n'.id hash := fun n' hn' hid =>
      hmem (hap.id_inj hn (hnodes n' hn') hid ▸ hn')
    have hcount := Desk.count_remove_of_notMem hap hd hn hmem
    simp only [ClientSpread.nodes, List.mem_cons, List.not_mem_nil, or_false, forall_eq_or_imp,
      forall_eq] at hne
    obtain ⟨hbid, hask, hmid, hspread, hpublisher⟩ := hne
    simp only [ClientSpread.leave, RefCount.get_take, FinMap.get_remove, hbid, hask, hmid, hspread,
      hpublisher, if_false, h.entry n hn, hcount]

section Release

variable {m : FinMap NodeId (NodeEntry (Value R))} {n : Node R} {k j : ℕ}

/-- A node that is released as often as it counts goes, and releases what it reads. -/
theorem Node.release_of_le (h : m.get (n.id hash) = n.counted hash k) (hk : k ≠ 0) (hj : k ≤ j) :
    RefCount.release (List.replicate j (n.id hash)) m =
      RefCount.release (n.desc hash).deps (m.remove (n.id hash)) :=
  RefCount.release_replicate_of_le (h.trans (Node.counted_of_pos hk)) (Nat.pos_of_ne_zero hk) hj

/-- Else it stays, and only its count is less. -/
theorem Node.release_of_lt (h : m.get (n.id hash) = n.counted hash k) (hj : k = 0 ∨ j < k) :
    RefCount.release (List.replicate j (n.id hash)) m = RefCount.take j (n.id hash) m := by
  rcases hj with rfl | hj
  · rw [Node.counted_zero] at h
    rw [← List.nil_append (List.replicate _ _), RefCount.release_of_absent h, RefCount.release_nil,
      RefCount.take, h]
  · exact RefCount.release_replicate_of_lt (h.trans (Node.counted_of_pos (by omega))) hj

theorem Node.take_of_le (h : m.get (n.id hash) = n.counted hash k) (hk : k ≠ 0) (hj : k ≤ j) :
    RefCount.take j (n.id hash) m = m.remove (n.id hash) := by
  have hle : ¬ j < k := by omega
  rw [RefCount.take, h, Node.counted_of_pos hk]
  exact if_neg hle

theorem Node.linksOf_eq (h : m.get (n.id hash) = n.counted hash k)
    (hdeps : (n.desc hash).deps = []) : RefCount.linksOf m (n.id hash) = [] := by
  rw [RefCount.linksOf, h]
  by_cases hk : k = 0
  · rw [hk, Node.counted_zero]
    rfl
  · rw [Node.counted_of_pos hk]
    exact hdeps

/-- Spot rates read nothing, so they are released one after the other. -/
theorem Node.release_spots {pair : CurrencyPair} (hpos : RefCount.Positive m)
    (hbid : m.get ((Node.spot pair .bid : Node R).id hash) =
      (Node.spot pair .bid : Node R).counted hash k)
    (hask : m.get ((Node.spot pair .ask : Node R).id hash) =
      (Node.spot pair .ask : Node R).counted hash k)
    (hne : (Node.spot pair .bid : Node R).id hash ≠ (Node.spot pair .ask : Node R).id hash)
    (j : ℕ) : RefCount.release (List.replicate j ((Node.spot pair .ask : Node R).id hash) ++
        List.replicate j ((Node.spot pair .bid : Node R).id hash)) m =
      RefCount.take j ((Node.spot pair .bid : Node R).id hash)
        (RefCount.take j ((Node.spot pair .ask : Node R).id hash) m) := by
  rw [RefCount.release_append, RefCount.release_replicate_of_leaf hpos (Node.linksOf_eq hask rfl)]
  refine RefCount.release_replicate_of_leaf (hpos.take j _) (Node.linksOf_eq (k := k) ?_ rfl) j
  rw [RefCount.get_take, if_neg hne, hbid]

end Release

/-- **The release of a trade's handle.** The publisher goes and releases the spread; the spread goes
and releases the mean, which the list releases as well; and the mean, if it goes, releases the spot
rates, which the list releases as well. -/
theorem Books.release_eq (h : Books hash ts d e) (hap : Distinct hash ts)
    (hd : d.Allows ts (.remove t)) :
    RefCount.release (t.nodeIds hash).reverse e.graph.entries =
      t.leave hash (d.taken t.pair) e.graph.entries := by
  have hnodes : ∀ n ∈ t.nodes, n ∈ nodesOf ts := fun n hn => mem_nodesOf hd.1 hn
  simp only [ClientSpread.nodes, List.mem_cons, List.not_mem_nil, or_false, forall_eq_or_imp,
    forall_eq] at hnodes
  obtain ⟨hbid, hask, hmid, hspread, hpublisher⟩ := hnodes
  have hone : ∀ n : Node R, n = .spread t ∨ n = .publisher t → d.count n = 1 := by
    rintro n (rfl | rfl) <;> exact if_pos hd.2
  -- `spread` and `publisher` have gone
  let m₁ := e.graph.entries.remove ((Node.publisher t).id hash)
  let m₂ := m₁.remove ((Node.spread t).id hash)
  have hrel₁ : RefCount.release [(Node.publisher t).id hash] e.graph.entries =
      RefCount.release [(Node.spread t).id hash] m₁ :=
    Node.release_of_le (j := 1) ((h.entry _ hpublisher).trans (by rw [hone _ (.inr rfl)]))
      Nat.one_ne_zero le_rfl
  have hrel₂ : RefCount.release [(Node.spread t).id hash, (Node.spread t).id hash] m₁ =
      RefCount.release [(Node.mid t.pair : Node R).id hash] m₂ := by
    refine Node.release_of_le (j := 2) (k := 1) ?_ Nat.one_ne_zero (by omega)
    rw [FinMap.get_remove_of_ne _ (mt (hap.id_inj hspread hpublisher) (by simp)),
      h.entry _ hspread, hone _ (.inl rfl)]
  have hothers : ∀ {n : Node R}, n ∈ nodesOf ts → n ≠ .spread t → n ≠ .publisher t →
      m₂.get (n.id hash) = n.counted hash (d.count n) := by
    intro n hn hne hne'
    rw [FinMap.get_remove_of_ne _ (mt (hap.id_inj hn hspread) hne),
      FinMap.get_remove_of_ne _ (mt (hap.id_inj hn hpublisher) hne'), h.entry _ hn]
  have hmid₂ : m₂.get ((Node.mid t.pair : Node R).id hash) =
      (Node.mid t.pair : Node R).counted hash (d.mid t.pair) := hothers hmid (by simp) (by simp)
  let m₃ := RefCount.take 2 ((Node.mid t.pair : Node R).id hash) m₂
  have hspots : ∀ side, (Node.spot t.pair side : Node R) ∈ nodesOf ts →
      m₃.get ((Node.spot t.pair side : Node R).id hash) =
        (Node.spot t.pair side : Node R).counted hash (d.spot t.pair) := by
    intro side hside
    rw [RefCount.get_take, if_neg (mt (hap.id_inj hside hmid) (by simp)),
      hothers hside (by simp) (by simp)]
    rfl
  have hpos : RefCount.Positive m₃ := ((h.positive.remove _).remove _).take 2 _
  have hleaves := Node.release_spots hpos (hspots .bid hbid) (hspots .ask hask)
    (mt (hap.id_inj hbid hask) (by simp))
  rw [show (t.nodeIds hash).reverse = [(Node.publisher t).id hash, (Node.spread t).id hash,
      (Node.mid t.pair : Node R).id hash, (Node.spot t.pair .ask : Node R).id hash,
      (Node.spot t.pair .bid : Node R).id hash] from rfl, RefCount.release_chain hrel₁ hrel₂]
  by_cases htaken : d.mid t.pair = 1 ∨ d.mid t.pair = 2
  · -- the mean goes
    have hgoes := Node.release_of_le (j := 2) hmid₂ (by omega) (by omega)
    have htake : m₂.remove ((Node.mid t.pair : Node R).id hash) = m₃ :=
      (Node.take_of_le hmid₂ (by omega) (by omega)).symm
    rw [htake] at hgoes
    rw [Desk.taken, if_pos htaken]
    refine Eq.trans ?_ (hleaves 2)
    refine (congrArg _ hgoes).trans ((RefCount.release_append _ _ m₃).symm.trans ?_)
    exact RefCount.release_perm (@List.perm_append_comm _ [_] [_, _, _]) hpos
  · have htwo : d.mid t.pair = 0 ∨ 2 < d.mid t.pair := by omega
    rw [show [(Node.mid t.pair : Node R).id hash, (Node.mid t.pair : Node R).id hash] =
      List.replicate 2 _ from rfl, Node.release_of_lt hmid₂ htwo, Desk.taken, if_neg htaken]
    exact hleaves 1

/-- **A trade that is dropped is discounted**, and what goes is inactive. The release is that of the
table, and active is what is left of it. -/
theorem Books.remove (h : Books hash ts d e) (hap : Distinct hash ts)
    (hd : d.Allows ts (.remove t)) :
    Books hash ts (d.apply (.remove t)) (e.release (t.nodeIds hash)) where
  covers := h.covers.apply _
  entry n hn := by rw [entries_release, h.release_eq hap hd, h.get_leave hap hd hn]
  only id hid := by
    rw [entries_release] at hid
    exact h.only id (RefCount.keys_release_subset _ _ hid)
  active := by
    ext v
    rw [h.wired.mem_active_release, h.active, and_iff_right_iff_imp, entries_release]
    exact fun hv => RefCount.keys_release_subset _ _ hv
  wired := h.wired.release _
  drained := (pendingRemovals_release _ _).trans h.drained

/-! ## Commands -/

theorem Books.congr (h : Books hash ts d e) {e' : Engine (Value R)} (hs : SameStructure e e') :
    Books hash ts d e' where
  covers := h.covers
  entry n hn := by rw [hs.entries, h.entry n hn]
  only id hid := h.only id (hs.entries ▸ hid)
  active := by rw [hs.active, hs.entries, h.active]
  wired := h.wired.congr hs.topology hs.active hs.entries
  drained := hs.pendingRemovals.trans h.drained

theorem Books.init : Books hash ts .init (EventLoop.start : Engine (Value R)) where
  covers _ := le_rfl
  entry n _ := by cases n <;> simp [EventLoop.start, Graph.new, Desk.count, Desk.init]
  only id hid := absurd hid (by simp [EventLoop.start, Graph.new])
  active := rfl
  wired := Wired.congr Ok.new.wired rfl rfl rfl
  drained := rfl

/-- The command is that of the deal. -/
def Deal.Is (hash : Key → UInt64) : Deal R → Command (Value R) → Prop
  | .create t, c => ∃ channel,
      c = .merge (buildTradeSubgraph hash t.tradeId t.pair t.client t.spreadBps) channel
  | .remove t, c => c = .remove (t.nodeIds hash)

/-- **What the loop does with a deal's command is the deal.** A merge is answered and a removal is
not, but that is not for the engine. -/
theorem Books.handle {s : Iteration (Value R)} (h : Books hash ts d s.engine)
    (hap : Distinct hash ts) {deal : Deal R} (hd : d.Allows ts deal) {c : Command (Value R)}
    (hc : deal.Is hash c) : Books hash ts (d.apply deal) (EventLoop.handle s c).engine := by
  cases deal with
  | create t =>
    obtain ⟨channel, rfl⟩ := hc
    rw [EventLoop.engine_handle_merge, hap.descriptors hd.1, nodeIds_buildTradeSubgraph]
    exact h.create hap hd
  | remove t =>
    subst hc
    rw [EventLoop.engine_handle_remove]
    exact h.remove hap hd

end Books

end FxPricing

end ReactiveGraph
