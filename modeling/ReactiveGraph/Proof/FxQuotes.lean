import ReactiveGraph.Proof.FxBooks
import ReactiveGraph.Proof.UpToDate

/-!
# What the clients are shown

A service that keeps its promise — no removal takes a shared node from under another trade — keeps
the engine's as well: each merge brings its dependencies along, and no removal leaves a node behind
whose dependencies have gone. So the engine is coherent in such a run, and what an active publisher
has been shown last is the quote for the rates that the engine has now.

**This joins the two halves of the development.** The books say which nodes there are
(`Proof/FxBooks.lean`), and coherence says what nodes have and have been called with
(`Proof/Coherence.lean`). Coherence asks of every command that it comes at a good moment: a merge
with dependencies that are registered, a removal that leaves a closed graph. `Trading.orderly` finds
that of the commands of a service whose trades are whole after the step.

**What the result leaves out.** It is about a publisher that is active and a moment when no cycle is
under way, and it is about the rates that the engine has, which may be behind those that were
published: a value may be on its way over the bridge. A publisher that has not been called yet has
been shown nothing, and then nothing is said of it.

- `createdIds` and `gone_of_removed`: trades that have gone do not come back, so a publisher that
  remains was never taken.
- `Serves`, `exists_move`: an event of the service is at most one move of the threads, and no rate
  goes in a command.
- `Quoting` is the invariant, carried along a run by the rule for the service.
-/

namespace ReactiveGraph

open Engine

namespace FxPricing

variable {R : Type*} [Rate R] {hash : Key → UInt64} {ts used : List (ClientSpread R)}

/-! ## Trades as subgraphs that fit -/

/-- Which kind of node an id is that of: the type in the id tells, since each type of node is of one
kind. -/
def kindOf (id : NodeId) : NodeKind :=
  if id.typeId = spotRate.typeId then .source
  else if id.typeId = pricePublisher.typeId then .sink
  else .compute

theorem Node.fits (hash : Key → UInt64) (n : Node R) : (n.desc hash).Fits kindOf := by
  cases n with
  | spot | publisher =>
    exact ⟨rfl, ⟨fun _ _ _ => rfl, fun _ _ => rfl⟩, fun _ _ _ => rfl⟩
  | mid | spread => exact ⟨rfl, pure_closureComputeNode rfl _, fun _ _ _ => rfl⟩

theorem Node.compute_mid {pair : CurrencyPair} {store : ValueStore (Value R)} {bid ask : R}
    (hbid : store.getById ((Node.spot pair .bid : Node R).id hash) = some (.rate bid))
    (hask : store.getById ((Node.spot pair .ask : Node R).id hash) = some (.rate ask)) :
    ((Node.mid pair).desc hash).nodeImpl.compute ((Node.mid pair : Node R).desc hash).deps store =
      some (.rate (MidRate.compute bid ask)) := by
  show (extract [f64, f64] [(Node.spot pair .bid : Node R).id hash,
    (Node.spot pair .ask : Node R).id hash] store).map MidRate.call = _
  simp only [extract, hbid, hask]
  rfl

theorem Node.compute_spread {t : ClientSpread R} {store : ValueStore (Value R)} {mid : R}
    (hmid : store.getById ((Node.mid t.pair : Node R).id hash) = some (.rate mid)) :
    ((Node.spread t).desc hash).nodeImpl.compute ((Node.spread t).desc hash).deps store =
      some (.quote (t.compute mid)) := by
  show (extract [f64] [(Node.mid t.pair : Node R).id hash] store).map t.call = _
  simp only [extract, hmid]
  rfl

theorem ClientSpread.depsFirst (hash : Key → UInt64) (t : ClientSpread R) :
    DepsFirst ∅ (t.descs hash) := by
  refine ⟨fun d hd => absurd hd List.not_mem_nil, fun d hd => absurd hd List.not_mem_nil,
    fun d hd => ?_, fun d hd => ?_, fun d hd => ?_, trivial⟩
  · rcases List.mem_cons.mp hd with rfl | hd
    · exact Finset.mem_insert_of_mem (Finset.mem_insert_self _ _)
    · rw [List.mem_singleton.mp hd]
      exact Finset.mem_insert_self _ _
  · rw [List.mem_singleton.mp hd]
    exact Finset.mem_insert_self _ _
  · rw [List.mem_singleton.mp hd]
    exact Finset.mem_insert_self _ _

theorem Distinct.contained (h : Distinct hash ts) {t : ClientSpread R} (ht : t ∈ ts) :
    (buildTradeSubgraph hash t.tradeId t.pair t.client t.spreadBps).Contained kindOf where
  fits desc hdesc := by
    rw [h.descriptors ht] at hdesc
    obtain ⟨n, -, rfl⟩ := List.mem_map.mp hdesc
    exact n.fits hash
  depsFirst := by
    rw [h.descriptors ht]
    exact t.depsFirst hash

/-- Whole trades have all they read: a node that counts belongs to a trade that is there, or is a
spot rate, which reads nothing. -/
theorem Books.closed {d : Desk} {e : Engine (Value R)} (h : Books hash ts d e) (hw : d.Whole ts) :
    Closed e.graph := by
  intro v hv u hu
  obtain ⟨n, hn, rfl⟩ := h.only v hv
  have hcount := (h.mem_keys hn).mp hv
  rw [Graph.depsOf_of_get ((h.entry n hn).trans (Node.counted_of_pos hcount))] at hu
  obtain ⟨t, ht, hmem⟩ := List.mem_flatMap.mp hn
  have hdep : ∀ n' ∈ t.nodes, d.count n' ≠ 0 → n'.id hash ∈ e.graph.entries.keys :=
    fun n' hn' => (h.mem_keys (mem_nodesOf ht hn')).mpr
  simp only [ClientSpread.nodes, List.mem_cons, List.not_mem_nil, or_false] at hmem
  have hlive : n = .spread t ∨ n = .publisher t → t.tradeId ∈ d.live := by
    rintro (rfl | rfl) <;> by_contra hnot <;> exact hcount (if_neg hnot)
  -- a spot rate reads nothing, and the others read a node of the same trade
  rcases hmem with rfl | rfl | rfl | rfl | rfl
  · exact absurd hu List.not_mem_nil
  · exact absurd hu List.not_mem_nil
  · have hspot : d.spot t.pair ≠ 0 :=
      ((Nat.pos_of_ne_zero hcount).trans_le (h.covers t.pair)).ne'
    rcases List.mem_cons.mp hu with rfl | hu
    · exact hdep (.spot t.pair .bid) (by simp [ClientSpread.nodes]) hspot
    · rw [List.mem_singleton.mp hu]
      exact hdep (.spot t.pair .ask) (by simp [ClientSpread.nodes]) hspot
  · rw [List.mem_singleton.mp hu]
    exact hdep (.mid t.pair) (by simp [ClientSpread.nodes]) (hw t ht (hlive (.inl rfl))).ne'
  · rw [List.mem_singleton.mp hu]
    refine hdep (.spread t) (by simp [ClientSpread.nodes]) ?_
    rw [Desk.count, if_pos (hlive (.inr rfl))]
    exact Nat.one_ne_zero

/-! ## Commands at a good moment -/

variable {t : Threads (Value R)} {posted handled : List (Command (Value R))}
  {done waiting : List (Deal R)}

/-- A command of the service: no value is sent in one. Rates go over the bridge. -/
def Served (c : Command (Value R)) : Prop := ∀ id value, c ≠ .sourceUpdate id value

/-- **A step after which the trades are whole handles its command at a good moment.** A merge is
that of a trade, with all its nodes in order, and a removal leaves the graph that the desk
describes. -/
theorem Trading.orderly (h : Trading hash ts t posted handled done waiting) (hap : Distinct hash ts)
    (hproper : t.engine.Proper kindOf) (hserved : ∀ c ∈ t.loop.collected, Served c)
    {o : CycleOrder} (hwhole : Whole hash ts (t.apply (.loop o)).engine) :
    t.Orderly kindOf (.loop o) := by
  simp only [Threads.Orderly]
  split
  · next c commands hasUpdates shouldShutdown hpc =>
    have hcollected : t.loop.collected = c :: commands := by rw [hpc]; rfl
    have hhandles : t.handles (.loop o) = [c] := by
      simp only [Threads.handles, hpc]
    have hhas := h.has
    rw [hcollected] at hhas
    cases c with
    | sourceUpdate id value =>
      exact absurd rfl (hserved (.sourceUpdate id value) (by simp [hcollected]) id value)
    | asyncComplete | sourceReady | shutdown => trivial
    | merge subgraph channel =>
      rw [List.cons_append, List.filter_cons_of_pos rfl] at hhas
      obtain ⟨deal, waiting', hdeal, -, rfl⟩ := List.forall₂_cons_right_iff.mp hhas
      have hallowed := (Runs.AllSteps.append.mp h.allowed).2.1
      cases deal with
      | remove t' => exact absurd hdeal (by simp [Deal.Is])
      | create t' =>
        obtain ⟨channel', heq⟩ := hdeal
        obtain ⟨rfl, -⟩ := Command.merge.inj heq
        exact Command.Promised.orderly (c := .merge _ channel) (hap.contained hallowed.1) hproper
    | remove nodeIds =>
      rw [List.cons_append, List.filter_cons_of_pos rfl] at hhas
      obtain ⟨deal, waiting', hdeal, -, rfl⟩ := List.forall₂_cons_right_iff.mp hhas
      have hallowed := (Runs.AllSteps.append.mp h.allowed).2.1
      cases deal with
      | create t' =>
        obtain ⟨channel', heq⟩ := hdeal
        exact absurd heq (by simp)
      | remove t' =>
        obtain rfl := Command.remove.inj hdeal
        -- what the removal makes of the books is what they are after the step
        have hlin := h.linear.apply (.loop o)
        rw [hhandles] at hlin
        have hafter : Books hash ts ((deskOf done).apply (.remove t'))
            (t.apply (.loop o)).engine := by
          have hbooks := h.books.handle hap hallowed (c := .remove (t'.nodeIds hash)) rfl
          rw [← EventLoop.handleAll_snoc] at hbooks
          exact hbooks.congr hlin.wiring
        exact ((h.books.congr h.linear.wiring).remove hap hallowed).closed
          (hafter.whole_iff.mp hwhole)
  · trivial

/-! ## Trades that have gone -/

/-- The ids of the trades that are created, in the order of the deals. -/
def createdIds (deals : List (Deal R)) : List String :=
  deals.filterMap fun
    | .create t => some t.tradeId
    | .remove _ => none

omit [Rate R] in
/-- A trade that has been removed is not there, and does not come back. By induction on the deals
from their end, with the trades there as the other half of the statement. -/
theorem gone_of_removed {deals : List (Deal R)}
    (hd : Runs.AllSteps Desk.apply (Desk.Allows ts) Desk.init deals)
    (hn : (createdIds deals).Nodup) :
    (∀ id ∈ (deskOf deals).live, id ∈ createdIds deals) ∧
      ∀ t, .remove t ∈ deals → t.tradeId ∈ createdIds deals ∧ t.tradeId ∉ (deskOf deals).live := by
  induction deals using List.reverseRecOn with
  | nil =>
    exact ⟨fun id hid => absurd hid (Finset.notMem_empty id),
      fun t ht => absurd ht List.not_mem_nil⟩
  | append_singleton deals deal ih =>
    obtain ⟨hd, hlast, -⟩ := Runs.AllSteps.append.mp hd
    rw [createdIds, List.filterMap_append] at hn
    obtain ⟨hlive, hgone⟩ := ih hd hn.of_append_left
    rw [deskOf_snoc, createdIds, List.filterMap_append]
    cases deal with
    | create t' =>
      -- an id is drawn once, so the new trade is none of those that have gone
      have hnew : t'.tradeId ∉ createdIds deals := fun hmem =>
        (List.nodup_append.mp hn).2.2 _ hmem _ (List.mem_singleton_self _) rfl
      refine ⟨fun id hid => ?_, fun t ht => ?_⟩
      · rcases Finset.mem_insert.mp hid with rfl | hid
        · exact List.mem_append_right _ (List.mem_singleton_self _)
        · exact List.mem_append_left _ (hlive id hid)
      · have hold : .remove t ∈ deals := by simpa using ht
        obtain ⟨hcreated, hnot⟩ := hgone t hold
        refine ⟨List.mem_append_left _ hcreated, fun hmem => ?_⟩
        rcases Finset.mem_insert.mp hmem with heq | hmem
        · exact hnew (heq ▸ hcreated)
        · exact hnot hmem
    | remove t' =>
      refine ⟨fun id hid => List.mem_append_left _ (hlive id (Finset.mem_of_mem_erase hid)),
        fun t ht => ?_⟩
      rcases List.mem_append.mp ht with ht | ht
      · obtain ⟨hcreated, hnot⟩ := hgone t ht
        exact ⟨List.mem_append_left _ hcreated, fun hmem => hnot (Finset.mem_of_mem_erase hmem)⟩
      · obtain rfl := Deal.remove.inj (List.mem_singleton.mp ht)
        exact ⟨List.mem_append_left _ (hlive _ hlast.2), Finset.notMem_erase _ _⟩

/-- The publisher of a trade that the engine has not removed. What is said of publishers is about
these. -/
def Remains (hash : Key → UInt64) (ts : List (ClientSpread R)) (done : List (Deal R))
    (v : NodeId) : Prop :=
  ∃ t ∈ ts, v = (Node.publisher t).id hash ∧ .remove t ∉ done

theorem Onward.remains {done' : List (Deal R)} (h : Onward done done') {v : NodeId}
    (hv : Remains hash ts done' v) : Remains hash ts done v := by
  obtain ⟨t, ht, heq, hnot⟩ := hv
  refine ⟨t, ht, heq, fun hmem => hnot ?_⟩
  rcases h with rfl | ⟨deal, rfl⟩
  · exact hmem
  · exact List.mem_append_left _ hmem

theorem Onward.keeps {done' : List (Deal R)} (h : Onward done done') (hap : Distinct hash ts)
    (hd : Runs.AllSteps Desk.apply (Desk.Allows ts) Desk.init done') {e e' : Engine (Value R)}
    (hb : Books hash ts (deskOf done) e) (hb' : Books hash ts (deskOf done') e') {v : NodeId}
    (hv : Remains hash ts done' v) (hmem : v ∈ e.graph.entries.keys) :
    v ∈ e'.graph.entries.keys := by
  obtain ⟨t, ht, rfl, hnot⟩ := hv
  have hn : Node.publisher t ∈ nodesOf ts := mem_nodesOf ht (by simp [ClientSpread.nodes])
  rw [hb.mem_keys hn] at hmem
  rw [hb'.mem_keys hn]
  rcases h with rfl | ⟨deal, rfl⟩
  · exact hmem
  · have hlive : t.tradeId ∈ (deskOf done).live := by
      by_contra hne
      exact hmem (if_neg hne)
    suffices hlive' : t.tradeId ∈ (deskOf (done ++ [deal])).live by simp [Desk.count, hlive']
    rw [deskOf_snoc]
    cases deal with
    | create t' => exact Finset.mem_insert_of_mem hlive
    | remove t' =>
      refine Finset.mem_erase.mpr ⟨fun hid => hnot ?_, hlive⟩
      have hallowed := (Runs.AllSteps.append.mp hd).2.1
      rw [hap.ids t ht t' hallowed.1 hid]
      simp

/-! ## The service's moves -/

/-- A move that the service makes: rates go to sources, and none goes in a command. -/
def Serves : Move (Value R) → Prop
  | .send id _ => kindOf id = .source
  | .updateSource .. => False
  | _ => True

omit [Rate R] in
theorem served_posts {m : Move (Value R)} (hm : Serves m) : ∀ c ∈ t.posts m, Served c := by
  intro c hc id value heq
  subst heq
  cases m with
  | updateSource => exact hm
  | bridge | notify | dropHandle =>
    rw [Threads.posts] at hc
    split at hc <;> simp at hc
  | merge | shutdown => exact absurd (List.mem_singleton.mp hc) (by simp)
  | loop | complete | send => exact absurd hc List.not_mem_nil

namespace AppState

variable {s : AppState R} {deals : List (Deal R)}

/-- An event is at most one move. A trade that is put down in the table is no matter of the
engine. -/
theorem exists_move (s : AppState R) (ev : Event R) :
    (s.apply hash ev).engine = s.engine ∨
      ∃ m, Serves m ∧ (s.apply hash ev).engine = s.engine.apply m := by
  cases ev with
  | loop o => exact .inr ⟨.loop o, trivial, rfl⟩
  | bridge => exact .inr ⟨.bridge, trivial, rfl⟩
  | shutdown => exact .inr ⟨.shutdown, trivial, rfl⟩
  | published pair side rate =>
    simp only [AppState.apply, AppState.published]
    split
    · exact .inr ⟨.send _ _, (rfl : kindOf _ = .source), rfl⟩
    · exact .inl rfl
  | createTrade tradeId req =>
    simp only [AppState.apply, AppState.createTrade]
    cases CurrencyPair.fromStr req.pair with
    | error message => exact .inl rfl
    | ok pair => exact .inr ⟨.merge _ _, trivial, rfl⟩
  | created channel =>
    simp only [AppState.apply, AppState.created]
    cases s.creating.get channel with
    | none => exact .inl rfl
    | some info =>
      cases s.merged channel with
      | none => exact .inl rfl
      | some handle =>
        cases hget : s.trades.get info.tradeId with
        | none => exact .inl (by simp only [hget])
        -- the record of the old trade is overwritten, and its handle dropped
        | some old => exact .inr ⟨.dropHandle old.handle, trivial, by simp only [hget]⟩
  | abandoned channel =>
    simp only [AppState.apply, AppState.abandoned]
    cases s.creating.get channel with
    | none => exact .inl rfl
    | some info =>
      cases s.merged channel with
      | none => exact .inl rfl
      | some handle => exact .inr ⟨.dropHandle _, trivial, rfl⟩
  | removeTrade id =>
    simp only [AppState.apply, AppState.removeTrade]
    cases s.trades.get id with
    | none => exact .inl rfl
    | some record => exact .inr ⟨.dropHandle _, trivial, rfl⟩

/-- The engine is coherent, with the publishers that remain. Which values were received, and which
are in the store, is left open here. -/
structure Quoting (hash : Key → UInt64) (ts : List (ClientSpread R)) (s : AppState R)
    (done : List (Deal R)) : Prop where
  awake : s.engine.Awake
  coherent : ∃ ss rs fs, s.engine.Coherent kindOf (Remains hash ts done) ss rs fs
  served : ∃ posted handled, s.engine.Linear posted handled ∧ ∀ c ∈ posted, Served c

theorem Quoting.new : Quoting hash ts (new : AppState R) [] where
  awake := .init
  coherent := ⟨[], [], [], .init⟩
  served := ⟨[], [], .init, fun _ h => absurd h List.not_mem_nil⟩

/-- **Events that leave the trades whole leave the engine coherent.** The one move of the event is
orderly: it handles no command, or one at a good moment. -/
theorem Quoting.apply (h : Quoting hash ts s done) (hap : Distinct hash ts)
    (ht : Tidy hash ts used s posted deals done) {ev : Event R} {used' : List (ClientSpread R)}
    {posted' : List (Command (Value R))} {deals' done' : List (Deal R)}
    (honward : Onward done done')
    (ht' : Tidy hash ts used' (s.apply hash ev) posted' deals' done')
    (hwhole : Whole hash ts (s.apply hash ev).engine.engine) :
    Quoting hash ts (s.apply hash ev) done' := by
  obtain ⟨ss, rs, fs, hcoh⟩ := h.coherent
  obtain ⟨posted₀, handled₀, hlin, hserved⟩ := h.served
  rcases s.exists_move ev with heq | ⟨m, hm, heq⟩
  · refine ⟨heq ▸ h.awake, ⟨ss, rs, fs, heq ▸ hcoh.mono fun v hv => honward.remains hv⟩,
      posted₀, handled₀, heq ▸ hlin, hserved⟩
  · have horderly : s.engine.Orderly kindOf m := by
      cases m with
      | send id value => exact hm
      | loop o =>
        obtain ⟨handled, waiting, -, htrading⟩ := ht.trading
        refine htrading.orderly hap hcoh.proper (fun c hc => hserved c ?_) (heq ▸ hwhole)
        simp [hlin.fifo, hc]
      | bridge | complete | notify | updateSource | merge | dropHandle | shutdown => trivial
    -- a publisher that remains is not the one of a deal done in this step
    have hkeeps : ∀ v, Remains hash ts done' v → Remains hash ts done v ∧
        (v ∈ s.engine.engine.graph.entries.keys →
          v ∈ (s.engine.apply m).engine.graph.entries.keys) := by
      intro v hv
      refine ⟨honward.remains hv, honward.keeps hap ht'.allowed ht.books ?_ hv⟩
      rw [← heq]
      exact ht'.books
    refine ⟨heq ▸ h.awake.apply m, ⟨_, _, _, heq ▸ hcoh.apply h.awake m horderly hkeeps⟩,
      _, _, heq ▸ hlin.apply m, fun c hc => ?_⟩
    rcases List.mem_append.mp hc with hc | hc
    · exact hserved c hc
    · exact served_posts hm c hc

theorem Quoting.snoc {es : List (Event R)} {ev : Event R} {used' : List (ClientSpread R)}
    {posted' : List (Command (Value R))} {deals' done' : List (Deal R)}
    (hq : (∀ bs, bs <+: es → Whole hash ts (run hash bs).engine.engine) →
      Quoting hash ts (run hash es) done) (hap : Distinct hash ts)
    (h : Tidy hash ts used (run hash es) posted deals done) (honward : Onward done done')
    (h' : Tidy hash ts used' (run hash (es ++ [ev])) posted' deals' done')
    (hwhole : ∀ bs, bs <+: es ++ [ev] → Whole hash ts (run hash bs).engine.engine) :
    Quoting hash ts (run hash (es ++ [ev])) done' := by
  have hrun : run hash (es ++ [ev]) = (run hash es).apply hash ev := Runs.run_append _ _ _ _
  have hlast := hwhole _ (List.prefix_refl _)
  rw [hrun] at h' hlast ⊢
  exact (hq fun bs hbs => hwhole bs (hbs.trans (List.prefix_append _ _))).apply hap h honward h'
    hlast

omit [Rate R] in
theorem createdIds_append (deals deals' : List (Deal R)) :
    createdIds (deals ++ deals') = createdIds deals ++ createdIds deals' :=
  List.filterMap_append

omit [Rate R] in
theorem createdIds_create (l : List (ClientSpread R)) :
    createdIds (l.map Deal.create) = l.map ClientSpread.tradeId := by
  induction l with
  | nil => rfl
  | cons t l ih => exact congrArg (t.tradeId :: ·) ih

omit [Rate R] in
theorem createdIds_remove (l : List (ClientSpread R)) : createdIds (l.map Deal.remove) = [] := by
  induction l with
  | nil => rfl
  | cons t l ih => exact ih

omit [Rate R] in
theorem createdIds_deals (s : AppState R) (ev : Event R) :
    createdIds (s.deals ev) = ev.trades.map ClientSpread.tradeId := by
  cases ev with
  | createTrade tradeId req => exact createdIds_create _
  | removeTrade id =>
    simp only [AppState.deals, Event.trades, List.map_nil]
    cases s.trades.get id with
    | none => rfl
    | some record =>
      simp only
      split
      · rfl
      · exact createdIds_remove _
  | abandoned channel =>
    simp only [AppState.deals, Event.trades, List.map_nil]
    cases s.creating.get channel with
    | none => rfl
    | some info =>
      cases s.merged channel with
      | none => rfl
      | some handle =>
        simp only
        split
        · rfl
        · exact createdIds_remove _
  | loop | bridge | published | created | shutdown => rfl

/-- The trades are created in the order of their requests: each request with a pair that can be read
asks for one. -/
theorem createdIds_trace (es : List (Event R)) :
    createdIds (Runs.trace (AppState.apply hash) AppState.deals new es) =
      (es.flatMap Event.trades).map ClientSpread.tradeId := by
  induction es using List.reverseRecOn with
  | nil => rfl
  | append_singleton es ev ih =>
    rw [Runs.trace_snoc, createdIds_append, ih, createdIds_deals, List.flatMap_append,
      List.map_append, List.flatMap_singleton]

/-- **Every client has been shown the quote of the moment.** The spread has the quote for the rates
in the store, and what the publisher was shown last, if it was ever shown anything, is that quote.

From coherence at the trade's nodes: the mean has what its `compute` gives on the two rates, the
spread what its own gives on the mean, and the publisher was called with what the spread has now.
The trade's nodes are there since it is whole. -/
theorem quotes_kept {es : List (Event R)}
    (hids : ((es.flatMap Event.trades).map ClientSpread.tradeId).Nodup)
    (hhash : NoCollision hash ((es.flatMap Event.trades).flatMap (tradeNodes hash)))
    (hwhole : ∀ bs, bs <+: es →
      Whole hash (es.flatMap Event.trades) (run hash bs).engine.engine)
    (hidle : (run hash es).engine.loop.midCycle = false) {t : ClientSpread R}
    (ht : t ∈ es.flatMap Event.trades)
    (hactive : (Node.publisher t).id hash ∈ (run hash es).engine.engine.active) {bid ask : R}
    (hbid : (run hash es).engine.engine.graph.valueStore.getById
      ((Node.spot t.pair .bid : Node R).id hash) = some (.rate bid))
    (hask : (run hash es).engine.engine.graph.valueStore.getById
      ((Node.spot t.pair .ask : Node R).id hash) = some (.rate ask)) :
    (run hash es).engine.engine.graph.valueStore.getById ((Node.spread t).id hash) =
        some (.quote (t.compute (MidRate.compute bid ask))) ∧
      ∀ reads, lastSent (seen (run hash es).engine.engine.effects) ((Node.publisher t).id hash) =
        some reads → reads = [some (.quote (t.compute (MidRate.compute bid ask)))] := by
  have hap := distinct_of_nodup hids hhash
  obtain ⟨posted, done, h, hquoting⟩ :=
    exists_tidy (Q := fun es' done =>
        (∀ bs, bs <+: es' → Whole hash (es.flatMap Event.trades) (run hash bs).engine.engine) →
          Quoting hash (es.flatMap Event.trades) (run hash es') done) hap (fun _ => .new)
      (fun _ _ _ _ _ _ _ _ _ _ h honward h' hq => Quoting.snoc hq hap h honward h') es
      (List.Subset.refl _) hids
  obtain ⟨ss, rs, fs, hcoh⟩ := (hquoting hwhole).coherent
  obtain ⟨hupdated, hresults⟩ := LoopPc.updated_of_not_midCycle hidle
  have hcurrent := hcoh.idle hupdated hresults
  have hbooks := h.books
  have hall := hwhole es (List.prefix_refl es) t ht hactive
  have hlive : t.tradeId ∈ (deskOf done).live := by
    by_contra hnot
    have hn : Node.publisher t ∈ t.nodes := by simp [ClientSpread.nodes]
    rw [hbooks.active, hbooks.mem_keys (mem_nodesOf ht hn)] at hactive
    exact hactive (if_neg hnot)
  -- an active node of the trade has the entry that it was registered with
  have hentry : ∀ n ∈ t.nodes, ∃ k, (run hash es).engine.engine.graph.entries.get (n.id hash) =
      some ⟨(n.desc hash).kind, (n.desc hash).deps, k, (n.desc hash).nodeImpl⟩ := by
    intro n hn
    have hmem := hall _ (List.mem_map_of_mem hn)
    rw [hbooks.active, hbooks.mem_keys (mem_nodesOf ht hn)] at hmem
    exact ⟨_, (hbooks.entry n (mem_nodesOf ht hn)).trans (Node.counted_of_pos hmem)⟩
  have hmid : (run hash es).engine.engine.graph.valueStore.getById
      ((Node.mid t.pair : Node R).id hash) = some (.rate (MidRate.compute bid ask)) := by
    have hn : Node.mid t.pair ∈ t.nodes := by simp [ClientSpread.nodes]
    obtain ⟨k, hget⟩ := hentry _ hn
    refine hcurrent.recomputed _ _ _ (hall _ (List.mem_map_of_mem hn)) hget rfl ?_
    exact Node.compute_mid hbid hask
  have hspread : (run hash es).engine.engine.graph.valueStore.getById
      ((Node.spread t).id hash) = some (.quote (t.compute (MidRate.compute bid ask))) := by
    have hn : Node.spread t ∈ t.nodes := by simp [ClientSpread.nodes]
    obtain ⟨k, hget⟩ := hentry _ hn
    refine hcurrent.recomputed _ _ _ (hall _ (List.mem_map_of_mem hn)) hget rfl ?_
    exact Node.compute_spread hmid
  refine ⟨hspread, fun reads hreads => ?_⟩
  have hn : Node.publisher t ∈ t.nodes := by simp [ClientSpread.nodes]
  obtain ⟨k, hget⟩ := hentry _ hn
  have hremains : Remains hash (es.flatMap Event.trades) done ((Node.publisher t).id hash) := by
    refine ⟨t, ht, rfl, fun hremoved => ?_⟩
    obtain ⟨handled, waiting, hdeals, -⟩ := h.trading
    have hnodup := hids
    rw [← @createdIds_trace R _ hash es, ← hdeals, createdIds_append] at hnodup
    exact ((gone_of_removed h.allowed hnodup.of_append_left).2 t hremoved).2 hlive
  rw [(hcurrent.called _ reads hremains (.inl rfl) hreads).2, Graph.depsOf_of_get hget]
  exact congrArg (fun quote => [quote]) hspread

end AppState

namespace SampleTrades

/-- Of three trades on one pair one is removed, and both rates come in. Three counts on the mean are
enough for one removal. -/
def spared : List (Event ℚ) :=
  [.createTrade "a" ⟨"eurusd", 10, "acme"⟩, .createTrade "b" ⟨"EURUSD", 20, "globex"⟩,
    .createTrade "c" ⟨"EurUsd", 30, "initech"⟩] ++ List.replicate 12 (.loop default) ++
  [.created 0, .created 1, .created 2, .published .eurusd .bid 1] ++ List.replicate 3 .bridge ++
    [.published .eurusd .ask 3] ++ List.replicate 3 .bridge ++ [.removeTrade "a"] ++
  List.replicate 17 (.loop default)

end SampleTrades

open SampleTrades

namespace AppState

theorem whole_spared : ∀ bs, bs <+: spared →
    Whole keyHash (spared.flatMap Event.trades) (run keyHash bs).engine.engine := by
  have hall : ∀ bs ∈ spared.inits, ∀ t ∈ spared.flatMap Event.trades,
      (Node.publisher t).id keyHash ∈ (run keyHash bs).engine.engine.active →
        ∀ id ∈ t.nodeIds keyHash, id ∈ (run keyHash bs).engine.engine.active := by
    decide +kernel
  exact fun bs hbs => hall bs (List.mem_inits bs spared |>.mpr hbs)

theorem quotes_kept_spared :
    (run keyHash spared).engine.engine.graph.valueStore.getById
        ((Node.spread stays).id keyHash) =
        some (.quote (stays.compute (MidRate.compute 1 3))) ∧
      ∀ reads, lastSent (seen (run keyHash spared).engine.engine.effects)
        ((Node.publisher stays).id keyHash) = some reads →
          reads = [some (.quote (stays.compute (MidRate.compute 1 3)))] :=
  quotes_kept (by decide +kernel) (by decide +kernel) whole_spared (by decide +kernel)
    (by decide +kernel) (by decide +kernel) (by decide +kernel) (by decide +kernel)

end AppState

end FxPricing

end ReactiveGraph
