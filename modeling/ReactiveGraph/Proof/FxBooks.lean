import ReactiveGraph.Proof.FxService

/-!
# The books over a run of the service

Every event keeps the service tidy, so a run of any requests, rates and steps of the threads does:
what the table says, what the engine has and what is on its way between them agree (`books_kept`).

The counts themselves are another matter. The documentation has the nodes that trades share stay as
long as a trade uses them. A mean counts one for each trade that came and loses two with each that
goes, so it goes when half of them have gone. `shared_kept_iff` says exactly in which runs this does
not show: every removal found more than two counts on the mean, or no other trade on the pair. The
counts are those of the desk, before the removal, so a client who knew all the trades could tell.

**What the two theorems assume.** The ids of the trades in a run are different, which is what the
service draws them for, and the keys of their nodes do not collide. Nothing is assumed of the order
of events, of how far the engine has got, of calls that are given up, or of when the loop is asked
to stop; the table is compared while it runs.

`exists_tidy` is the rule for runs: what an event keeps, together with being tidy, holds after all
of them. The quotes are carried along a run by the same rule (`Proof/FxQuotes.lean`).
-/

namespace ReactiveGraph

open Engine

namespace FxPricing

variable {R : Type*} [Rate R] {hash : Key → UInt64} {ts used : List (ClientSpread R)}

/-! ## Trades that are whole -/

/-- A trade that is there has its mean, and then its spot rates too, which count at least as
much. -/
def Desk.Whole (ts : List (ClientSpread R)) (d : Desk) : Prop :=
  ∀ t ∈ ts, t.tradeId ∈ d.live → 0 < d.mid t.pair

/-- A removal that takes the mean is that of the last trade on the pair. A condition on the counts
before the removal. -/
def Desk.Spares (ts : List (ClientSpread R)) (d : Desk) : Deal R → Prop
  | .create _ => True
  | .remove t => 2 < d.mid t.pair ∨
      ∀ t' ∈ ts, t'.pair = t.pair → t'.tradeId ∈ d.live → t'.tradeId = t.tradeId

omit [Rate R] in
theorem Desk.Whole.apply {d : Desk} (h : d.Whole ts) (hids : ∀ t ∈ ts, ∀ t' ∈ ts,
    t.tradeId = t'.tradeId → t = t') {deal : Deal R} (hd : d.Allows ts deal)
    (hs : d.Spares ts deal) : (d.apply deal).Whole ts := by
  intro t' ht' hlive
  cases deal with
  | create t =>
    simp only [Desk.apply, Function.update_apply]
    split
    · omega
    · next hne =>
      refine h t' ht' ((Finset.mem_insert.mp hlive).resolve_left fun hid => hne ?_)
      rw [hids t' ht' t hd.1 hid]
  | remove t =>
    obtain ⟨hne, hlive⟩ := Finset.mem_erase.mp hlive
    simp only [Desk.apply, Function.update_apply]
    split
    · next heq =>
      have hmid := hs.resolve_right fun hlast => hne (hlast t' ht' heq hlive)
      omega
    · exact h t' ht' hlive

omit [Rate R] in
theorem Desk.not_whole_apply {d : Desk} {deal : Deal R} (hs : ¬ d.Spares ts deal) :
    ¬ (d.apply deal).Whole ts := by
  intro h
  cases deal with
  | create t => exact hs trivial
  | remove t =>
    simp only [Desk.Spares, not_or, not_forall, not_lt] at hs
    obtain ⟨hmid, t', ht', hpair, hlive, hne⟩ := hs
    have hpos := h t' ht' (Finset.mem_erase.mpr ⟨hne, hlive⟩)
    simp only [Desk.apply, hpair, Function.update_self] at hpos
    omega

omit [Rate R] in
/-- **Every trade is whole all along exactly if no removal takes the mean from under another.** A
trade comes with its mean, so only a removal can take it; one that does takes it from every other
trade on the pair. -/
theorem Desk.whole_iff_spares (hids : ∀ t ∈ ts, ∀ t' ∈ ts, t.tradeId = t'.tradeId → t = t')
    {deals : List (Deal R)} (hd : Runs.AllSteps Desk.apply (Desk.Allows ts) Desk.init deals) :
    Runs.Always Desk.apply (Desk.Whole ts) Desk.init deals ↔
      Runs.AllSteps Desk.apply (Desk.Spares ts) Desk.init deals :=
  Runs.always_iff_allSteps (fun _ h => h) (fun _ _ h hd hs => h.apply hids hd hs)
    (fun _ _ _ _ hs => Desk.not_whole_apply hs) (fun _ _ h => absurd h (Finset.notMem_empty _)) hd

/-- While the publisher of a trade is active, all the trade's nodes are: what the documentation says
of trades that use a node. -/
def Whole (hash : Key → UInt64) (ts : List (ClientSpread R)) (e : Engine (Value R)) : Prop :=
  ∀ t ∈ ts, (Node.publisher t).id hash ∈ e.active → ∀ id ∈ t.nodeIds hash, id ∈ e.active

theorem Books.whole_iff {d : Desk} {e : Engine (Value R)} (h : Books hash ts d e) :
    Whole hash ts e ↔ d.Whole ts := by
  have hactive : ∀ {t : ClientSpread R}, t ∈ ts → ∀ {n : Node R}, n ∈ t.nodes →
      (n.id hash ∈ e.active ↔ d.count n ≠ 0) := fun ht n hn =>
    h.active ▸ h.mem_keys (mem_nodesOf ht hn)
  constructor
  · intro hw t ht hlive
    have hpublisher := (hactive ht (n := .publisher t) (by simp [ClientSpread.nodes])).mpr
      (by simp [Desk.count, hlive])
    have hmid : Node.mid t.pair ∈ t.nodes := by simp [ClientSpread.nodes]
    have hmem := hw t ht hpublisher _ (List.mem_map_of_mem hmid)
    exact Nat.pos_of_ne_zero ((hactive ht hmid).mp hmem)
  · intro hw t ht hpublisher id hid
    have hlive : t.tradeId ∈ d.live := by
      by_contra hnot
      exact (hactive ht (n := .publisher t) (by simp [ClientSpread.nodes])).mp hpublisher
        (if_neg hnot)
    have hmid := hw t ht hlive
    -- a mean that counts has rates that count at least as much
    have hspot := hmid.trans_le (h.covers t.pair)
    obtain ⟨n, hn, rfl⟩ := List.mem_map.mp hid
    rw [hactive ht hn]
    simp only [ClientSpread.nodes, List.mem_cons, List.not_mem_nil, or_false] at hn
    rcases hn with rfl | rfl | rfl | rfl | rfl <;> simp [Desk.count, hlive] <;> omega

namespace AppState

variable {s : AppState R} {posted : List (Command (Value R))} {deals done : List (Deal R)}

/-- **An event keeps the books tidy.** One case for each: requests are the lemmas above, and the
steps of the threads and the rates that come in are moves that ask for no deal. -/
theorem Tidy.apply (h : Tidy hash ts used s posted deals done) (hap : Distinct hash ts)
    (ev : Event R) (hused : used ++ ev.trades ⊆ ts)
    (hfresh : ∀ t ∈ ev.trades, ∀ t' ∈ used, t'.tradeId ≠ t.tradeId) :
    ∃ posted' done', Onward done done' ∧ Tidy hash ts (used ++ ev.trades) (s.apply hash ev) posted'
      (deals ++ s.deals ev) done' := by
  -- a move of the threads that is neither a merge nor a removal
  have hmove : ∀ m : Move (Value R), (∀ c ∈ s.engine.posts m, c.isStructural = false) →
      ∃ posted' done', Onward done done' ∧ Tidy hash ts (used ++ [])
        { s with engine := s.engine.apply m } posted' (deals ++ []) done' := by
    intro m hm
    obtain ⟨done', honward, h'⟩ := h.move hap hm
    rw [List.append_nil, List.append_nil]
    exact ⟨_, done', honward, h'⟩
  have hstay : ∃ posted' done', Onward done done' ∧ Tidy hash ts (used ++ []) s posted'
      (deals ++ []) done' := by
    rw [List.append_nil, List.append_nil]
    exact ⟨posted, done, .inl rfl, h⟩
  cases ev with
  | loop o => exact hmove (.loop o) (by simp [Threads.posts])
  | bridge =>
    refine hmove .bridge fun c hc => ?_
    rw [Threads.posts] at hc
    split at hc
    · rw [List.mem_singleton.mp hc]
      rfl
    · exact absurd hc List.not_mem_nil
  | published pair side rate =>
    simp only [AppState.apply, AppState.published]
    split
    · exact hmove (.send _ _) (by simp [Threads.posts])
    · exact hstay
  | shutdown => exact hmove .shutdown (by simp [Threads.posts, Command.isStructural])
  | createTrade tradeId req =>
    simp only [Event.trades, TradeInfo.trades] at hused hfresh
    simp only [AppState.apply, AppState.createTrade, Event.trades, TradeInfo.trades, AppState.deals]
    cases hpair : CurrencyPair.fromStr req.pair with
    | error message => exact hstay
    | ok pair =>
      simp only [hpair] at hused hfresh
      exact h.create hap (t := ⟨tradeId, pair, req.client, req.spreadBps⟩) (hused (by simp))
        (hfresh _ (List.mem_singleton_self _))
  | created channel =>
    simp only [AppState.apply, Event.trades, AppState.deals, List.append_nil]
    exact ⟨posted, done, .inl rfl, h.created channel⟩
  | abandoned channel =>
    simp only [Event.trades, List.append_nil] at hused ⊢
    exact h.abandoned hap hused channel
  | removeTrade id =>
    simp only [Event.trades, List.append_nil] at hused ⊢
    exact h.removeTrade hap hused id

theorem Tidy.allowed (h : Tidy hash ts used s posted deals done) :
    Runs.AllSteps Desk.apply (Desk.Allows ts) Desk.init done := by
  obtain ⟨handled, waiting, -, htrading⟩ := h.trading
  exact (Runs.AllSteps.append.mp htrading.allowed).1

theorem Tidy.books (h : Tidy hash ts used s posted deals done) :
    Books hash ts (deskOf done) s.engine.engine := by
  obtain ⟨handled, waiting, -, htrading⟩ := h.trading
  exact htrading.books.congr htrading.linear.wiring

/-- **The rule for runs of the service**: a run keeps it tidy, and whatever else tidy steps keep. By
induction on the run from its end; the deals the engine has done grow by one at most with each
event. -/
theorem exists_tidy {Q : List (Event R) → List (Deal R) → Prop} (hap : Distinct hash ts)
    (nil : Q [] [])
    (snoc : ∀ es ev used used' posted posted' deals deals' done done',
      Tidy hash ts used (run hash es) posted deals done → Onward done done' →
        Tidy hash ts used' (run hash (es ++ [ev])) posted' deals' done' → Q es done →
          Q (es ++ [ev]) done') (es : List (Event R)) (hes : es.flatMap Event.trades ⊆ ts)
    (hids : ((es.flatMap Event.trades).map ClientSpread.tradeId).Nodup) :
    ∃ posted done, Tidy hash ts (es.flatMap Event.trades) (run hash es) posted
      (Runs.trace (AppState.apply hash) AppState.deals new es) done ∧ Q es done := by
  induction es using List.reverseRecOn with
  | nil => exact ⟨[], [], Tidy.new, nil⟩
  | append_singleton es ev ih =>
    rw [List.flatMap_append, List.flatMap_singleton] at hes hids ⊢
    obtain ⟨posted, done, h, hQ⟩ := ih (fun t ht => hes (List.mem_append_left _ ht))
      ((List.map_append ▸ hids).of_append_left)
    obtain ⟨posted', done', honward, h'⟩ := h.apply hap ev hes fun t ht t' ht' heq => by
      rw [List.map_append, List.nodup_append] at hids
      exact hids.2.2 _ (List.mem_map_of_mem ht') _ (List.mem_map_of_mem ht) heq
    have hrun : run hash (es ++ [ev]) = (run hash es).apply hash ev := Runs.run_append _ _ _ _
    rw [← hrun] at h'
    exact ⟨posted', done', Runs.trace_snoc new es ev ▸ h', snoc _ _ _ _ _ _ _ _ _ _ h honward h' hQ⟩

theorem distinct_of_nodup (hids : (ts.map ClientSpread.tradeId).Nodup)
    (hhash : NoCollision hash (ts.flatMap (tradeNodes hash))) : Distinct hash ts :=
  ⟨fun _ ht _ ht' heq => List.inj_on_of_nodup_map hids ht ht' heq, hhash⟩

/-- The commands that wait to be handled are those of the deals, in order: collected by the loop, or
still in the channel. -/
def Waits (hash : Key → UInt64) (s : AppState R) (waiting : List (Deal R)) : Prop :=
  List.Forall₂ (Deal.Is hash) waiting
    ((s.engine.loop.collected ++ s.engine.commands).filter Command.isStructural)

/-- While the loop runs, the trades that the desk has are those in the table, each with the ids of
its nodes, and those whose merge a call waits for. -/
def Lists (hash : Key → UInt64) (ts : List (ClientSpread R)) (s : AppState R) (d : Desk) : Prop :=
  s.engine.loop ≠ .stopped → ∀ t ∈ ts, t.tradeId ∈ d.live ↔
    s.trades.get t.tradeId = some ⟨t.info, t.nodeIds hash⟩ ∨
      ∃ channel, s.creating.get channel = some t.info

/-- **The engine, the command channel and the table are about the same trades**, in every run: of
the deals that the service has asked for, the last ones wait, the engine has what the others come
to, and the table, with the calls that wait for a merge, what all of them come to.

The invariant is `Tidy`; the engine's half of it is about the commands handled so far, and carries
over since handling commands is all that changes the structure. -/
theorem books_kept {es : List (Event R)}
    (hids : ((es.flatMap Event.trades).map ClientSpread.tradeId).Nodup)
    (hhash : NoCollision hash ((es.flatMap Event.trades).flatMap (tradeNodes hash))) :
    ∃ done waiting, Runs.trace (AppState.apply hash) AppState.deals new es = done ++ waiting ∧
      (run hash es).Waits hash waiting ∧
      Books hash (es.flatMap Event.trades) (deskOf done) (run hash es).engine.engine ∧
      (run hash es).Lists hash (es.flatMap Event.trades) (deskOf (done ++ waiting)) := by
  have hap := distinct_of_nodup hids hhash
  obtain ⟨posted, done, h, -⟩ :=
    exists_tidy (Q := fun _ _ => True) hap trivial (fun _ _ _ _ _ _ _ _ _ _ _ _ _ _ => trivial) es
      (List.Subset.refl _) hids
  obtain ⟨handled, waiting, hdeals, htrading⟩ := h.trading
  refine ⟨done, waiting, hdeals.symm, htrading.has, h.books, fun hrun t ht => ?_⟩
  rw [hdeals]
  constructor
  · intro hlive
    rcases h.kept hrun _ hlive with ⟨⟨info, handle⟩, hrecord⟩ | ⟨channel, info, hinfo, hid⟩
    · obtain ⟨t', ht', hid, rfl, -, hhandle⟩ := h.records _ _ hrecord
      obtain rfl := hap.ids t' ht' t ht hid
      -- a handle is empty only after the loop has stopped
      obtain rfl := hhandle.resolve_right fun hr => hrun hr.2
      exact .inl hrecord
    · obtain ⟨-, t', ht', rfl, -⟩ := h.creating _ _ hinfo
      obtain rfl := hap.ids t' ht' t ht hid
      exact .inr ⟨channel, hinfo⟩
  · rintro (hrecord | ⟨channel, hinfo⟩)
    · obtain ⟨-, -, -, -, hlive, -⟩ := h.records _ _ hrecord
      exact hlive
    · obtain ⟨-, t', -, heq, hlive, -⟩ := h.creating _ _ hinfo
      rwa [show t.tradeId = t'.tradeId from congrArg TradeInfo.tradeId heq]

/-- **What a client is shown of the table is the table**, in every run: each trade in it once, under
its own id and as it was asked for. In which order they come is up to the hash table. -/
theorem listTrades_run {es : List (Event R)}
    (hids : ((es.flatMap Event.trades).map ClientSpread.tradeId).Nodup)
    (hhash : NoCollision hash ((es.flatMap Event.trades).flatMap (tradeNodes hash)))
    {iter : Finset String → List String} (hiter : ∀ s id, id ∈ iter s → id ∈ s) :
    ((run hash es).listTrades iter).map TradeInfo.tradeId = iter (run hash es).trades.keys ∧
      ∀ info ∈ (run hash es).listTrades iter, ∃ t ∈ es.flatMap Event.trades, info = t.info := by
  obtain ⟨posted, done, h, -⟩ :=
    exists_tidy (Q := fun _ _ => True) (distinct_of_nodup hids hhash) trivial
      (fun _ _ _ _ _ _ _ _ _ _ _ _ _ _ => trivial) es (List.Subset.refl _) hids
  have hshown : ∀ id ∈ iter (run hash es).trades.keys, ∃ t ∈ es.flatMap Event.trades,
      ((run hash es).trades.get id).map TradeRecord.info = some t.info ∧ t.info.tradeId = id := by
    intro id hid
    obtain ⟨record, hrecord⟩ := FinMap.exists_get_of_mem_keys (hiter _ id hid)
    obtain ⟨t, ht, htid, hinfo, -⟩ := h.records id record hrecord
    exact ⟨t, ht, by rw [hrecord, Option.map_some, hinfo], htid⟩
  constructor
  · rw [listTrades, List.map_filterMap]
    refine (List.filterMap_congr fun id hid => ?_).trans List.filterMap_some
    obtain ⟨t, -, hinfo, htid⟩ := hshown id hid
    rw [hinfo, Option.map_some, htid]
  · intro info hinfo
    obtain ⟨id, hid, hget⟩ := List.mem_filterMap.mp hinfo
    obtain ⟨t, ht, hshow, -⟩ := hshown id hid
    exact ⟨t, ht, Option.some.inj (hget.symm.trans hshow)⟩

end AppState

namespace SampleTrades

instance : Rate ℚ where

/-- A hash that tells the keys of the runs below apart. -/
def keyHash : Key → UInt64
  | .spot _ .bid => 0
  | .spot _ .ask => 1
  | .pair _ => 2
  | .trade tradeId => if tradeId = "a" then 3 else if tradeId = "b" then 4 else 5

/-- Two trades on one pair are created side by side, and one is removed. -/
def crossed : List (Event ℚ) :=
  [.createTrade "a" ⟨"eurusd", 10, "acme"⟩, .createTrade "b" ⟨"EURUSD", 20, "globex"⟩] ++
    List.replicate 8 (.loop default) ++ [.created 0, .created 1, .removeTrade "a"] ++
    List.replicate 5 (.loop default)

/-- The trade that stays. -/
def stays : ClientSpread ℚ := ⟨"b", .eurusd, "globex", 20⟩

end SampleTrades

open SampleTrades

namespace AppState

theorem books_kept_crossed :
    ∃ done waiting, Runs.trace (AppState.apply keyHash) AppState.deals new crossed =
        done ++ waiting ∧
      (run keyHash crossed).Waits keyHash waiting ∧
      Books keyHash (crossed.flatMap Event.trades) (deskOf done)
        (run keyHash crossed).engine.engine ∧
      (run keyHash crossed).Lists keyHash (crossed.flatMap Event.trades)
        (deskOf (done ++ waiting)) :=
  books_kept (by decide +kernel) (by decide +kernel)

/-- The trades were whole all along, as far as the books go. What the engine shows at any time of
the run is what the deals done until then come to. -/
def WholeAlong (hash : Key → UInt64) (ts : List (ClientSpread R)) (es : List (Event R))
    (done : List (Deal R)) : Prop :=
  (∀ bs, bs <+: es → Whole hash ts (run hash bs).engine.engine) ↔
    Runs.Always Desk.apply (Desk.Whole ts) Desk.init done

theorem WholeAlong.nil : WholeAlong hash ts [] [] := by
  simp only [WholeAlong, List.prefix_nil, forall_eq]
  exact Tidy.new.books.whole_iff

theorem WholeAlong.snoc {es : List (Event R)} {ev : Event R} {done' : List (Deal R)}
    (h : WholeAlong hash ts es done) (honward : Onward done done')
    (hbooks : Books hash ts (deskOf done') (run hash (es ++ [ev])).engine.engine) :
    WholeAlong hash ts (es ++ [ev]) done' := by
  have hlast : Whole hash ts (run hash (es ++ [ev])).engine.engine ↔ (deskOf done').Whole ts :=
    hbooks.whole_iff
  rw [WholeAlong] at h
  simp only [WholeAlong, List.prefix_concat_iff, or_imp, forall_and, forall_eq]
  rw [hlast, h]
  rcases honward with rfl | ⟨deal, rfl⟩
  · exact and_iff_right_of_imp Runs.Always.last
  · exact and_comm.trans Runs.Always.snoc.symm

/-- **Shared nodes stay as long as a trade uses them** — exactly if every removal that the engine
has done found more than two counts on the mean of the trade's pair, or no other trade on it.

The engine does one deal at a time, so what it shows along the run is the desk after each deal; the
rest is about desks. -/
theorem shared_kept_iff {es : List (Event R)}
    (hids : ((es.flatMap Event.trades).map ClientSpread.tradeId).Nodup)
    (hhash : NoCollision hash ((es.flatMap Event.trades).flatMap (tradeNodes hash))) :
    ∃ done waiting, Runs.trace (AppState.apply hash) AppState.deals new es = done ++ waiting ∧
      (run hash es).Waits hash waiting ∧
      ((∀ bs, bs <+: es → Whole hash (es.flatMap Event.trades) (run hash bs).engine.engine) ↔
        Runs.AllSteps Desk.apply (Desk.Spares (es.flatMap Event.trades)) Desk.init done) := by
  have hap := distinct_of_nodup hids hhash
  obtain ⟨posted, done, h, hwhole⟩ :=
    exists_tidy hap WholeAlong.nil
      (fun _ _ _ _ _ _ _ _ _ _ _ honward h' hQ => hQ.snoc honward h'.books) es
      (List.Subset.refl _) hids
  obtain ⟨handled, waiting, hdeals, htrading⟩ := h.trading
  refine ⟨done, waiting, hdeals.symm, htrading.has, hwhole.trans ?_⟩
  exact Desk.whole_iff_spares hap.ids h.allowed

/-- The removal has taken the mean along, from under the trade that stays: two trades, two
counts. -/
theorem shared_kept_iff_crossed :
    (∃ done waiting, Runs.trace (AppState.apply keyHash) AppState.deals new crossed =
        done ++ waiting ∧
      (run keyHash crossed).Waits keyHash waiting ∧
      ((∀ bs, bs <+: crossed →
          Whole keyHash (crossed.flatMap Event.trades) (run keyHash bs).engine.engine) ↔
        Runs.AllSteps Desk.apply (Desk.Spares (crossed.flatMap Event.trades)) Desk.init done)) ∧
      (Node.publisher stays).id keyHash ∈ (run keyHash crossed).engine.engine.active ∧
      (Node.mid stays.pair : Node ℚ).id keyHash ∉ (run keyHash crossed).engine.engine.active :=
  ⟨shared_kept_iff (by decide +kernel) (by decide +kernel), by decide +kernel, by decide +kernel⟩

end AppState

end FxPricing

end ReactiveGraph
