import ReactiveGraph.Proof.FxDesk

/-!
# The service's books

Requests are handled side by side, the engine runs on its own, and a trade is created in two halves.
Still the table, the calls that wait and the engine are about the same trades: the deals the service
has asked for stand in the command channel in order, the engine has done the first of them and has
what these come to (`Books`), and what all of them come to is in the table or about to be put there.

**What can come in between.** A request to create a trade posts its merge and waits; in the meantime
other requests come, rates are published, the bridge, the tasks and the loop take their steps. When
the reply has come the call puts the trade in the table, or, if the client has gone, the handle is
dropped unseen, and that posts the removal of a trade nobody was ever told of. A removal is asked
for by dropping the handle that is in the table, so it can be asked for only of a trade that has
been put there.

The invariant comes in two parts.

- `Trading` is between the channel and the engine: which deals have been done and which wait. It
  rests on the loop being a sequence of commands (`Proof/Linearization.lean`), and every move of the
  threads keeps it.
- `Tidy` is between the table and the channel: a trade the deals leave is in the table, or a call
  waits for it. It has one lemma for each thing the service does.

After the loop has stopped a call gets no reply, so its handle is empty, and dropping it posts
nothing; `records` and `kept` say so.
-/

namespace ReactiveGraph

open Engine

variable {V : Type*}

/-- The command changes what is registered. The others bring values, or ask the loop to run or to
stop. -/
def Command.isStructural : Command V → Bool
  | .merge .. | .remove _ => true
  | _ => false

namespace EventLoop

theorem sameStructure_handle {s : Iteration V} {c : Command V} (h : c.isStructural = false) :
    SameStructure s.engine (handle s c).engine := by
  cases c with
  | merge | remove => exact absurd h (by simp [Command.isStructural])
  | sourceUpdate | asyncComplete | sourceReady | shutdown => exact ⟨rfl, rfl, rfl, rfl, rfl, rfl⟩

/-- Whatever is replied is the reply to a merge. -/
theorem mem_replies_handleAll {e : Engine V} {commands : List (Command V)} {reply : ℕ × List NodeId}
    (h : reply ∈ (handleAll e commands).replies) :
    ∃ subgraph, .merge subgraph reply.1 ∈ commands ∧ reply.2 = subgraph.nodeIds := by
  induction commands using List.reverseRecOn with
  | nil => exact absurd h List.not_mem_nil
  | append_singleton commands c ih =>
    rw [handleAll_snoc] at h
    have hold : reply ∈ (handleAll e commands).replies →
        ∃ subgraph, .merge subgraph reply.1 ∈ commands ++ [c] ∧ reply.2 = subgraph.nodeIds := by
      intro hmem
      obtain ⟨subgraph, hsub, heq⟩ := ih hmem
      exact ⟨subgraph, List.mem_append_left _ hsub, heq⟩
    cases c with
    | merge subgraph channel =>
      rcases List.mem_append.mp h with h | h
      · exact hold h
      · obtain rfl := List.mem_singleton.mp h
        exact ⟨subgraph, by simp, rfl⟩
    | sourceUpdate | remove | asyncComplete | sourceReady | shutdown => exact hold h

end EventLoop

namespace Threads

variable {t : Threads V}

/-- A move handles one command at most. -/
theorem handles_cases (t : Threads V) (m : Move V) :
    t.handles m = [] ∨ ∃ c, t.handles m = [c] := by
  unfold handles
  split
  · split
    · exact .inr ⟨_, rfl⟩
    · exact .inl rfl
  · exact .inl rfl

theorem stopped_apply (h : t.loop = .stopped) (m : Move V) : (t.apply m).loop = .stopped := by
  cases m with
  | loop o => simp only [apply, loopStep, h]
  | bridge =>
    simp only [apply, bridgeStep]
    split
    · split <;> exact h
    · exact h
    · exact h
  | notify =>
    simp only [apply, notifyStep]
    split <;> exact h
  | dropHandle nodeIds =>
    simp only [apply]
    split <;> exact h
  | complete | send | updateSource | merge | shutdown => exact h

end Threads

namespace FxPricing

variable {R : Type*} [Rate R] {hash : Key → UInt64} {ts : List (ClientSpread R)}

/-! ## Deals on their way -/

/-- What some deals come to, starting from an empty desk. -/
def deskOf (deals : List (Deal R)) : Desk := Runs.run Desk.apply Desk.init deals

omit [Rate R] in
theorem deskOf_snoc (deals : List (Deal R)) (deal : Deal R) :
    deskOf (deals ++ [deal]) = (deskOf deals).apply deal := by
  rw [deskOf, Runs.run_append]
  rfl

/-- The engine has done the deals in `done`, and has those in `waiting` before it. The commands
between are those of the deals, in order, and the desk allows each when its time comes. -/
structure Trading (hash : Key → UInt64) (ts : List (ClientSpread R)) (t : Threads (Value R))
    (posted handled : List (Command (Value R))) (done waiting : List (Deal R)) : Prop where
  linear : t.Linear posted handled
  did : List.Forall₂ (Deal.Is hash) done (handled.filter Command.isStructural)
  has : List.Forall₂ (Deal.Is hash) waiting
    ((t.loop.collected ++ t.commands).filter Command.isStructural)
  allowed : Runs.AllSteps Desk.apply (Desk.Allows ts) Desk.init (done ++ waiting)
  books : Books hash ts (deskOf done) (EventLoop.handleAll EventLoop.start handled).engine

variable {t : Threads (Value R)} {posted handled : List (Command (Value R))}
  {done waiting : List (Deal R)}

theorem Trading.init : Trading hash ts (.init : Threads (Value R)) [] [] [] [] :=
  ⟨.init, .nil, .nil, trivial, .init⟩

/-- One deal more is done, if any. -/
def Onward (done done' : List (Deal R)) : Prop := done' = done ∨ ∃ deal, done' = done ++ [deal]

/-- **Whoever moves, the deals are done in order.** A move posts the commands of some deals, mostly
of none, or handles one command, which may be a deal's. -/
theorem Trading.apply (h : Trading hash ts t posted handled done waiting) (hap : Distinct hash ts)
    (m : Move (Value R)) {l : List (Deal R)}
    (hl : List.Forall₂ (Deal.Is hash) l ((t.posts m).filter Command.isStructural))
    (hallowed : Runs.AllSteps Desk.apply (Desk.Allows ts) (deskOf (done ++ waiting)) l) :
    ∃ done' waiting', Onward done done' ∧ done' ++ waiting' = done ++ waiting ++ l ∧
      Trading hash ts (t.apply m) (posted ++ t.posts m) (handled ++ t.handles m) done'
        waiting' := by
  have hlin := h.linear.apply m
  have hall : Runs.AllSteps Desk.apply (Desk.Allows ts) Desk.init (done ++ waiting ++ l) :=
    Runs.AllSteps.append.mpr ⟨h.allowed, hallowed⟩
  -- what is before the engine afterwards, with what it has handled, is what was, and what is new
  have hrest : t.handles m ++ ((t.apply m).loop.collected ++ (t.apply m).commands) =
      (t.loop.collected ++ t.commands) ++ t.posts m := by
    have hfifo := hlin.fifo
    rw [h.linear.fifo] at hfifo
    simpa only [List.append_assoc, List.append_cancel_left_eq] using hfifo.symm
  have hwaiting : List.Forall₂ (Deal.Is hash) (waiting ++ l)
      ((t.handles m).filter Command.isStructural ++
        ((t.apply m).loop.collected ++ (t.apply m).commands).filter Command.isStructural) := by
    rw [← List.filter_append, hrest, List.filter_append]
    exact List.rel_append h.has hl
  rcases t.handles_cases m with hnone | ⟨c, hc⟩
  · rw [hnone] at hwaiting hlin ⊢
    refine ⟨done, waiting ++ l, .inl rfl, (List.append_assoc ..).symm, hlin, ?_, hwaiting, ?_, ?_⟩
    · rw [List.append_nil]
      exact h.did
    · rwa [← List.append_assoc]
    · rw [List.append_nil]
      exact h.books
  · rw [hc] at hwaiting hlin ⊢
    cases hstruct : c.isStructural with
    | false =>
      rw [List.filter_cons_of_neg (by simp [hstruct])] at hwaiting
      refine ⟨done, waiting ++ l, .inl rfl, (List.append_assoc ..).symm, hlin, ?_, hwaiting, ?_,
        ?_⟩
      · rw [List.filter_append, List.filter_cons_of_neg (by simp [hstruct])]
        simpa using h.did
      · rwa [← List.append_assoc]
      · rw [EventLoop.handleAll_snoc]
        exact h.books.congr (EventLoop.sameStructure_handle hstruct)
    | true =>
      rw [List.filter_cons_of_pos hstruct, List.filter_nil, List.singleton_append] at hwaiting
      obtain ⟨deal, waiting', hdeal, hwaiting', heq⟩ := List.forall₂_cons_right_iff.mp hwaiting
      have hdeals : done ++ waiting ++ l = done ++ deal :: waiting' := by
        rw [List.append_assoc, heq]
      rw [hdeals] at hall
      refine ⟨done ++ [deal], waiting', .inr ⟨deal, rfl⟩, by simp [hdeals], hlin, ?_, hwaiting',
        by simpa using hall, ?_⟩
      · rw [List.filter_append, List.filter_cons_of_pos hstruct]
        exact List.rel_append h.did (.cons hdeal .nil)
      · have hallowed' := (Runs.AllSteps.append.mp hall).2.1
        rw [EventLoop.handleAll_snoc, deskOf, Runs.run_append]
        exact h.books.handle hap hallowed' hdeal

/-! ## The service -/

/-- The trade that a request or a record is about, if its pair is one that can be read. At most
one. -/
def TradeInfo.trades (info : TradeInfo R) : List (ClientSpread R) :=
  match CurrencyPair.fromStr info.pair with
  | .ok pair => [⟨info.tradeId, pair, info.client, info.spreadBps⟩]
  | .error _ => []

/-- The trade that a request creates. Other events create none. -/
def Event.trades : Event R → List (ClientSpread R)
  | .createTrade tradeId req => (TradeInfo.mk tradeId req.pair req.client req.spreadBps).trades
  | _ => []

/-- What is put down of a trade. -/
def ClientSpread.info (t : ClientSpread R) : TradeInfo R :=
  ⟨t.tradeId, t.pair.toString, t.client, t.spreadBps⟩

omit [Rate R] in
theorem ClientSpread.trades_info (t : ClientSpread R) : t.info.trades = [t] := by
  rw [TradeInfo.trades, info, CurrencyPair.fromStr_toString]

namespace AppState

/-- The deals that an event asks of the engine. A handle that lists nothing is dropped silently. -/
def deals (s : AppState R) : Event R → List (Deal R)
  | .createTrade tradeId req =>
    (TradeInfo.mk tradeId req.pair req.client req.spreadBps).trades.map .create
  | .removeTrade id =>
    match s.trades.get id with
    | some record => if record.handle = [] then [] else record.info.trades.map .remove
    | none => []
  | .abandoned channel =>
    match s.creating.get channel, s.merged channel with
    | some info, some handle => if handle = [] then [] else info.trades.map .remove
    | _, _ => []
  | _ => []

/-- The table and the calls that wait are about the trades that the deals leave. `used` are the
trades asked for so far, and `ts` those of the whole run. -/
structure Tidy (hash : Key → UInt64) (ts used : List (ClientSpread R)) (s : AppState R)
    (posted : List (Command (Value R))) (deals done : List (Deal R)) : Prop where
  trading : ∃ handled waiting, done ++ waiting = deals ∧
    Trading hash ts s.engine posted handled done waiting
  channels : ∀ subgraph channel, .merge subgraph channel ∈ posted → channel < s.channels
  lives : ∀ id ∈ (deskOf deals).live, ∃ t ∈ used, t.tradeId = id
  creating : ∀ channel info, s.creating.get channel = some info → channel < s.channels ∧
    ∃ t ∈ used, info = t.info ∧ t.tradeId ∈ (deskOf deals).live ∧ s.trades.get t.tradeId = none ∧
      ∀ subgraph, .merge subgraph channel ∈ posted →
        subgraph = buildTradeSubgraph hash t.tradeId t.pair t.client t.spreadBps
  calls : ∀ channel channel' info info', s.creating.get channel = some info →
    s.creating.get channel' = some info' → info.tradeId = info'.tradeId → channel = channel'
  records : ∀ id record, s.trades.get id = some record → ∃ t ∈ used, t.tradeId = id ∧
    record.info = t.info ∧ id ∈ (deskOf deals).live ∧
      (record.handle = t.nodeIds hash ∨ record.handle = [] ∧ s.engine.loop = .stopped)
  kept : s.engine.loop ≠ .stopped → ∀ id ∈ (deskOf deals).live,
    (∃ record, s.trades.get id = some record) ∨
      ∃ channel info, s.creating.get channel = some info ∧ info.tradeId = id

variable {used : List (ClientSpread R)} {s : AppState R} {deals : List (Deal R)}

theorem Tidy.new : Tidy hash ts [] (new : AppState R) [] [] [] where
  trading := ⟨[], [], rfl, .init⟩
  channels _ _ h := absurd h List.not_mem_nil
  lives id h := absurd h (Finset.notMem_empty id)
  creating channel info h := absurd h (by simp [AppState.new])
  calls channel _ info _ h := absurd h (by simp [AppState.new])
  records id record h := absurd h (by simp [AppState.new])
  kept _ id h := absurd h (Finset.notMem_empty id)

/-- A move that posts neither a merge nor a removal: nothing happens to the table, and the engine
may do one deal more. -/
theorem Tidy.move (h : Tidy hash ts used s posted deals done) (hap : Distinct hash ts)
    {m : Move (Value R)} (hm : ∀ c ∈ s.engine.posts m, c.isStructural = false) :
    ∃ done', Onward done done' ∧
      Tidy hash ts used { s with engine := s.engine.apply m } (posted ++ s.engine.posts m) deals
        done' := by
  obtain ⟨handled, waiting, rfl, htrading⟩ := h.trading
  have hnone : (s.engine.posts m).filter Command.isStructural = [] :=
    List.filter_eq_nil_iff.mpr fun c hc => by simp [hm c hc]
  obtain ⟨done', waiting', honward, heq, htrading'⟩ :=
    htrading.apply hap m (l := []) (hnone ▸ .nil) trivial
  have hmerge : ∀ {subgraph channel}, .merge subgraph channel ∈ posted ++ s.engine.posts m →
      .merge subgraph channel ∈ posted := fun hmem => (List.mem_append.mp hmem).resolve_right
    fun hmem => absurd (hm _ hmem) (by simp [Command.isStructural])
  refine ⟨done', honward, ⟨_, waiting', by rw [heq, List.append_nil], htrading'⟩,
    fun subgraph channel hmem => h.channels subgraph channel (hmerge hmem), h.lives,
    fun channel info hinfo => ?_, h.calls, fun id record hrecord => ?_,
    fun hrun => h.kept fun hst => hrun (Threads.stopped_apply hst m)⟩
  · obtain ⟨hlt, t, ht, hi, hlive, hnone, hsub⟩ := h.creating channel info hinfo
    exact ⟨hlt, t, ht, hi, hlive, hnone, fun subgraph hmem => hsub subgraph (hmerge hmem)⟩
  · obtain ⟨t, ht, hid, hi, hlive, hhandle⟩ := h.records id record hrecord
    exact ⟨t, ht, hid, hi, hlive,
      hhandle.imp_right (And.imp_right fun hst => Threads.stopped_apply hst m)⟩

/-- **A new trade**: its merge is posted, and a call waits for it. Its id is new, so nothing in the
table and no other call has it. -/
theorem Tidy.create (h : Tidy hash ts used s posted deals done) (hap : Distinct hash ts)
    {t : ClientSpread R} (ht : t ∈ ts) (hfresh : ∀ t' ∈ used, t'.tradeId ≠ t.tradeId) :
    ∃ posted' done', Onward done done' ∧ Tidy hash ts (used ++ [t]) { s with
        engine := s.engine.apply
          (.merge (buildTradeSubgraph hash t.tradeId t.pair t.client t.spreadBps) s.channels)
        creating := s.creating.insert s.channels t.info
        channels := s.channels + 1 } posted' (deals ++ [.create t]) done' := by
  have hlive : (deskOf (deals ++ [.create t])).live = insert t.tradeId (deskOf deals).live := by
    rw [deskOf_snoc]
    rfl
  have hnone : s.trades.get t.tradeId = none := by
    cases hget : s.trades.get t.tradeId with
    | none => rfl
    | some record =>
      obtain ⟨t', ht', hid, -⟩ := h.records _ _ hget
      exact absurd hid (hfresh t' ht')
  obtain ⟨handled, waiting, rfl, htrading⟩ := h.trading
  have hnot : t.tradeId ∉ (deskOf (done ++ waiting)).live := fun hmem => by
    obtain ⟨t', ht', hid⟩ := h.lives _ hmem
    exact hfresh t' ht' hid
  obtain ⟨done', waiting', honward, heq, htrading'⟩ := htrading.apply hap
    (.merge (buildTradeSubgraph hash t.tradeId t.pair t.client t.spreadBps) s.channels)
    (l := [.create t]) (.cons ⟨_, rfl⟩ .nil) ⟨⟨ht, hnot⟩, trivial⟩
  refine ⟨_, done', honward, ⟨_, waiting', heq, htrading'⟩, fun subgraph channel hmem => ?_,
    fun id hid => ?_, fun channel info hinfo => ?_,
    fun channel channel' info info' hinfo hinfo' heq => ?_, fun id record hrecord => ?_,
    fun hrun id hid => ?_⟩
  · rcases List.mem_append.mp hmem with hmem | hmem
    · exact (h.channels subgraph channel hmem).trans (Nat.lt_succ_self _)
    · rw [(Command.merge.inj (List.mem_singleton.mp hmem)).2]
      exact Nat.lt_succ_self _
  · rw [hlive] at hid
    rcases Finset.mem_insert.mp hid with rfl | hid
    · exact ⟨t, by simp, rfl⟩
    · obtain ⟨t', ht', heq⟩ := h.lives id hid
      exact ⟨t', List.mem_append_left _ ht', heq⟩
  · rw [hlive]
    obtain ⟨rfl, rfl⟩ | ⟨hne, hinfo⟩ := FinMap.get_insert_eq_some.mp hinfo
    · refine ⟨Nat.lt_succ_self _, t, by simp, rfl, Finset.mem_insert_self _ _, hnone,
        fun subgraph hmem => ?_⟩
      rcases List.mem_append.mp hmem with hmem | hmem
      · exact absurd (h.channels subgraph _ hmem) (Nat.lt_irrefl _)
      · exact (Command.merge.inj (List.mem_singleton.mp hmem)).1
    · obtain ⟨hlt, t', ht', hi, hl, hn, hsub⟩ := h.creating channel info hinfo
      refine ⟨hlt.trans (Nat.lt_succ_self _), t', List.mem_append_left _ ht', hi,
        Finset.mem_insert_of_mem hl, hn, fun subgraph hmem => ?_⟩
      rcases List.mem_append.mp hmem with hmem | hmem
      · exact hsub subgraph hmem
      · exact absurd (Command.merge.inj (List.mem_singleton.mp hmem)).2 hne
  · -- the new call's trade is none of the others'
    have hother : ∀ channel info, s.creating.get channel = some info →
        info.tradeId ≠ t.tradeId := by
      intro channel info hinfo
      obtain ⟨-, t', ht', rfl, -⟩ := h.creating channel info hinfo
      exact hfresh t' ht'
    obtain ⟨rfl, rfl⟩ | ⟨-, hinfo⟩ := FinMap.get_insert_eq_some.mp hinfo
    · obtain ⟨rfl, -⟩ | ⟨-, hinfo'⟩ := FinMap.get_insert_eq_some.mp hinfo'
      · rfl
      · exact absurd heq.symm (hother _ _ hinfo')
    · obtain ⟨-, rfl⟩ | ⟨-, hinfo'⟩ := FinMap.get_insert_eq_some.mp hinfo'
      · exact absurd heq (hother _ _ hinfo)
      · exact h.calls _ _ _ _ hinfo hinfo' heq
  · obtain ⟨t', ht', hid, hi, hl, hhandle⟩ := h.records id record hrecord
    rw [hlive]
    exact ⟨t', List.mem_append_left _ ht', hid, hi, Finset.mem_insert_of_mem hl,
      hhandle.imp_right (And.imp_right fun hst => Threads.stopped_apply hst _)⟩
  · rw [hlive] at hid
    rcases Finset.mem_insert.mp hid with rfl | hid
    · exact .inr ⟨s.channels, t.info, FinMap.get_insert_self _ _ _, rfl⟩
    · refine (h.kept (fun hst => hrun (Threads.stopped_apply hst _)) id hid).imp_right ?_
      rintro ⟨channel, info, hinfo, heq⟩
      have hlt := (h.creating channel info hinfo).1
      exact ⟨channel, info, (FinMap.get_insert_of_ne _ _ (by omega)).trans hinfo, heq⟩

/-- A waiting call gets the list of its trade's nodes, or nothing if the loop has stopped. The reply
has been given to the merge that was posted on the call's channel. -/
theorem Tidy.merged_eq (h : Tidy hash ts used s posted deals done) {channel : ℕ}
    {t : ClientSpread R} (hsub : ∀ subgraph, .merge subgraph channel ∈ posted →
      subgraph = buildTradeSubgraph hash t.tradeId t.pair t.client t.spreadBps)
    {handle : List NodeId} (hmerged : s.merged channel = some handle) :
    handle = t.nodeIds hash ∨ handle = [] ∧ s.engine.loop = .stopped := by
  unfold merged at hmerged
  split at hmerged
  · next reply hfind =>
    obtain ⟨handled, waiting, rfl, htrading⟩ := h.trading
    have hmem : reply ∈ (EventLoop.handleAll EventLoop.start handled).replies := by
      rw [← htrading.linear.replies]
      exact List.mem_append_left _ (List.mem_of_find?_eq_some hfind)
    obtain ⟨subgraph, hposted, hids⟩ := EventLoop.mem_replies_handleAll hmem
    have hchannel : reply.1 = channel := by simpa using List.find?_some hfind
    rw [hchannel] at hposted
    have hsubgraph := hsub subgraph (by simp [htrading.linear.fifo, hposted])
    left
    rw [← Option.some.inj hmerged, hids, hsubgraph, nodeIds_buildTradeSubgraph]
  · split at hmerged
    · next hstopped =>
      refine .inr ⟨(Option.some.inj hmerged).symm, ?_⟩
      by_contra hne
      rw [LoopPc.isStopped_of_ne hne] at hstopped
      exact Bool.noConfusion hstopped
    · exact absurd hmerged (Option.some_ne_none _).symm

/-- **A trade is put down** when its merge is answered: from the calls that wait it moves to the
table. -/
theorem Tidy.created (h : Tidy hash ts used s posted deals done) (channel : ℕ) :
    Tidy hash ts used (s.created channel).1 posted deals done := by
  unfold AppState.created
  split
  · next info handle hinfo hmerged =>
    obtain ⟨hlt, t, ht, rfl, hl, hn, hsub⟩ := h.creating channel info hinfo
    have hhandle := h.merged_eq hsub hmerged
    have hnone : s.trades.get t.info.tradeId = none := hn
    simp only [hnone]
    refine ⟨h.trading, h.channels, h.lives, fun channel' info' hinfo' => ?_,
      fun c c' i i' hi hi' heq => ?_, fun id record hrecord => ?_, fun hrun id hid => ?_⟩
    · obtain ⟨hne, hinfo'⟩ := FinMap.get_remove_eq_some.mp hinfo'
      obtain ⟨hlt', t', ht', rfl, hl', hn', hsub'⟩ := h.creating channel' info' hinfo'
      -- one call for a trade, so this one is about another
      have hother : t'.tradeId ≠ t.tradeId := fun heq =>
        hne (h.calls channel' channel _ _ hinfo' hinfo heq)
      exact ⟨hlt', t', ht', rfl, hl', (FinMap.get_insert_of_ne _ _ hother).trans hn', hsub'⟩
    · exact h.calls c c' i i' (FinMap.get_remove_eq_some.mp hi).2
        (FinMap.get_remove_eq_some.mp hi').2 heq
    · obtain ⟨rfl, rfl⟩ | ⟨-, hrecord⟩ := FinMap.get_insert_eq_some.mp hrecord
      · exact ⟨t, ht, rfl, rfl, hl, hhandle⟩
      · exact h.records id record hrecord
    -- the trade put down is now in the table, and the others are where they were
    · by_cases hidt : id = t.tradeId
      · subst hidt
        exact .inl ⟨_, FinMap.get_insert_self _ _ _⟩
      · rcases h.kept hrun id hid with ⟨record, hrecord⟩ | ⟨channel', info', hinfo', heq⟩
        · exact .inl ⟨record, (FinMap.get_insert_of_ne _ _ hidt).trans hrecord⟩
        · refine .inr ⟨channel', info', (FinMap.get_remove_of_ne _ ?_).trans hinfo', heq⟩
          rintro rfl
          rw [hinfo] at hinfo'
          exact hidt (heq ▸ Option.some.inj hinfo' ▸ rfl)
  · exact h

/-- **A handle is dropped**, and its trade is nowhere to be found, neither in the table nor among
the calls. Both ways of losing a handle are this. -/
theorem Tidy.drop (h : Tidy hash ts used s posted deals done) (hap : Distinct hash ts)
    {t : ClientSpread R} (ht : t ∈ ts) (hl : t.tradeId ∈ (deskOf deals).live) {handle : List NodeId}
    (hhandle : handle = t.nodeIds hash ∨ handle = [] ∧ s.engine.loop = .stopped)
    {trades : FinMap String (TradeRecord R)} {creating : FinMap ℕ (TradeInfo R)}
    (htrades : ∀ id record, trades.get id = some record ↔
      id ≠ t.tradeId ∧ s.trades.get id = some record)
    (hcreating : ∀ channel info, creating.get channel = some info ↔
      info.tradeId ≠ t.tradeId ∧ s.creating.get channel = some info) :
    ∃ posted' done', Onward done done' ∧ Tidy hash ts used { s with
        engine := s.engine.apply (.dropHandle handle)
        trades := trades
        creating := creating } posted'
      (deals ++ if handle = [] then [] else [.remove t]) done' := by
  have hcalls : ∀ channel channel' info info', creating.get channel = some info →
      creating.get channel' = some info' → info.tradeId = info'.tradeId → channel = channel' :=
    fun channel channel' info info' hinfo hinfo' =>
      h.calls channel channel' info info' ((hcreating _ _).mp hinfo).2 ((hcreating _ _).mp hinfo').2
  have hnone : ∀ id, s.trades.get id = none → trades.get id = none := fun id hid => by
    by_contra hne
    obtain ⟨record, hrecord⟩ := Option.ne_none_iff_exists'.mp hne
    rw [((htrades id record).mp hrecord).2] at hid
    exact Option.some_ne_none _ hid
  by_cases hnil : handle = []
  · -- the loop had stopped before the merge was answered
    have hstopped : s.engine.loop = .stopped := by
      refine (hhandle.resolve_left fun heq => ?_).2
      rw [heq] at hnil
      exact absurd hnil (by simp [ClientSpread.nodeIds, ClientSpread.nodes])
    have hengine : s.engine.apply (.dropHandle handle) = s.engine := if_pos hnil
    rw [if_pos hnil, List.append_nil, hengine]
    refine ⟨posted, done, .inl rfl, h.trading, h.channels, h.lives, fun channel info hinfo => ?_,
      hcalls, fun id record hrecord => h.records id record ((htrades _ _).mp hrecord).2,
      fun hrun => absurd hstopped hrun⟩
    obtain ⟨hlt, t', ht', hi, hl', hn, hsub⟩ := h.creating _ _ ((hcreating _ _).mp hinfo).2
    exact ⟨hlt, t', ht', hi, hl', hnone _ hn, hsub⟩
  · have hids : handle = t.nodeIds hash := hhandle.resolve_right fun hr => hnil hr.1
    have hposts : s.engine.posts (.dropHandle handle) = [.remove (t.nodeIds hash)] := by
      rw [Threads.posts, if_neg hnil, hids]
    have hlive : (deskOf (deals ++ [.remove t])).live = (deskOf deals).live.erase t.tradeId := by
      rw [deskOf_snoc]
      rfl
    rw [if_neg hnil]
    obtain ⟨handled, waiting, rfl, htrading⟩ := h.trading
    obtain ⟨done', waiting', honward, heq, htrading'⟩ := htrading.apply hap (.dropHandle handle)
      (l := [.remove t]) (by rw [hposts]; exact .cons rfl .nil) ⟨⟨ht, hl⟩, trivial⟩
    rw [hposts] at htrading'
    refine ⟨_, done', honward, ⟨_, waiting', heq, htrading'⟩, fun subgraph channel hmem => ?_,
      fun id hid => ?_, fun channel info hinfo => ?_, hcalls, fun id record hrecord => ?_,
      fun hrun id hid => ?_⟩
    · rcases List.mem_append.mp hmem with hmem | hmem
      · exact h.channels subgraph channel hmem
      · exact absurd (List.mem_singleton.mp hmem) (by simp)
    · rw [hlive] at hid
      exact h.lives id (Finset.mem_of_mem_erase hid)
    · rw [hlive]
      obtain ⟨hne, hinfo⟩ := (hcreating _ _).mp hinfo
      obtain ⟨hlt, t', ht', rfl, hl', hn, hsub⟩ := h.creating channel info hinfo
      refine ⟨hlt, t', ht', rfl, Finset.mem_erase.mpr ⟨hne, hl'⟩, hnone _ hn,
        fun subgraph hmem => ?_⟩
      rcases List.mem_append.mp hmem with hmem | hmem
      · exact hsub subgraph hmem
      · exact absurd (List.mem_singleton.mp hmem) (by simp)
    · obtain ⟨hne, hrecord⟩ := (htrades _ _).mp hrecord
      obtain ⟨t', ht', hid, hi, hl', hh'⟩ := h.records id record hrecord
      rw [hlive]
      exact ⟨t', ht', hid, hi, Finset.mem_erase.mpr ⟨hne, hl'⟩,
        hh'.imp_right (And.imp_right fun hst => Threads.stopped_apply hst _)⟩
    · rw [hlive] at hid
      obtain ⟨hne, hid⟩ := Finset.mem_erase.mp hid
      rcases h.kept (fun hst => hrun (Threads.stopped_apply hst _)) id hid with
        ⟨record, hrecord⟩ | ⟨channel, info, hinfo, rfl⟩
      · exact .inl ⟨record, (htrades _ _).mpr ⟨hne, hrecord⟩⟩
      · exact .inr ⟨channel, info, (hcreating _ _).mpr ⟨hne, hinfo⟩, rfl⟩

/-- A trade is removed, and with its record the handle. -/
theorem Tidy.removeTrade (h : Tidy hash ts used s posted deals done) (hap : Distinct hash ts)
    (hused : used ⊆ ts) (id : String) :
    ∃ posted' done', Onward done done' ∧ Tidy hash ts used (s.removeTrade id).1 posted'
      (deals ++ s.deals (.removeTrade id)) done' := by
  simp only [AppState.removeTrade, AppState.deals]
  cases hget : s.trades.get id with
  | none =>
    simp only [List.append_nil]
    exact ⟨posted, done, .inl rfl, h⟩
  | some record =>
    obtain ⟨t, ht, rfl, hi, hl, hhandle⟩ := h.records id record hget
    simp only [hi, ClientSpread.trades_info, List.map_singleton]
    refine h.drop hap (hused ht) hl hhandle (fun id' record' => FinMap.get_remove_eq_some)
      fun channel info => ⟨fun hinfo => ⟨?_, hinfo⟩, And.right⟩
    -- whoever waits is about another trade
    obtain ⟨-, t', -, rfl, -, hn, -⟩ := h.creating channel info hinfo
    intro heq
    rw [show t'.tradeId = t.tradeId from heq, hget] at hn
    exact Option.some_ne_none _ hn

/-- The merge of a call that was given up is answered: nobody takes the handle, so it is dropped at
once. -/
theorem Tidy.abandoned (h : Tidy hash ts used s posted deals done) (hap : Distinct hash ts)
    (hused : used ⊆ ts) (channel : ℕ) :
    ∃ posted' done', Onward done done' ∧ Tidy hash ts used (s.abandoned channel) posted'
      (deals ++ s.deals (.abandoned channel)) done' := by
  have hnothing : ∃ posted' done', Onward done done' ∧
      Tidy hash ts used s posted' (deals ++ []) done' := by
    rw [List.append_nil]
    exact ⟨posted, done, .inl rfl, h⟩
  cases hinfo : s.creating.get channel with
  | none =>
    simp only [AppState.abandoned, AppState.deals, hinfo]
    exact hnothing
  | some info =>
    cases hmerged : s.merged channel with
    | none =>
      simp only [AppState.abandoned, AppState.deals, hinfo, hmerged]
      exact hnothing
    | some handle =>
      obtain ⟨-, t, ht, rfl, hl, hn, hsub⟩ := h.creating channel info hinfo
      simp only [AppState.abandoned, AppState.deals, hinfo, hmerged, ClientSpread.trades_info,
        List.map_singleton]
      refine h.drop hap (hused ht) hl (h.merged_eq hsub hmerged)
        (fun id record => ⟨fun hrecord => ⟨?_, hrecord⟩, And.right⟩) fun channel' info' => ?_
      -- while a call waits for its merge, a trade is not in the table
      · rintro rfl
        rw [hn] at hrecord
        exact Option.some_ne_none _ hrecord.symm
      · rw [FinMap.get_remove_eq_some, and_congr_left_iff]
        refine fun hinfo' => ⟨fun hne heq => hne (h.calls _ _ _ _ hinfo' hinfo heq), ?_⟩
        rintro hne rfl
        rw [hinfo] at hinfo'
        exact hne (Option.some.inj hinfo' ▸ rfl)

end AppState

end FxPricing

end ReactiveGraph
