import ReactiveGraph.Model.FxPricing
import ReactiveGraph.Model.Senders

/-!
# The pricing service

An engine on its own thread, and an HTTP interface that has trades created, listed and removed. A
handler that creates a trade waits for the engine to merge the trade's subgraph, and only then puts
the trade down in a table, with the handle; one that removes a trade takes it out of the table, and
with the record the handle is dropped. Handlers run side by side: between the two halves of one
another may run, and so may the engine.

Requests come parsed from JSON. The id of a new trade is drawn at random; here it comes with the
request. A client that hangs up has its handler dropped, at the wait for the merge if it was a call
of `create_trade`; the merge goes on all the same, and its handle is dropped when it returns.

**A handler between its halves** is an entry of `creating`, under the channel on which it waits.
Channels are numbered as they are made, so no two waiting handlers have the same one, and a reply
finds the handler it is for. The table is behind a lock in the source, which a handler takes for one
operation at a time; each of these operations is in one event here, so what the lock guarantees is
built in.

**The engine is that of `Threads.lean`**, with all its moves: an event of the loop or of the bridge
is one move of theirs. It is given no async tasks, and nobody but the sources' threads sends to it.
So results about every interleaving of threads apply, and the service's own are about the table and
what it has to do with the engine: which trades are there, which nodes they hold, and what is
displayed for them.

HTTP itself, apart from the status that a `Response` stands for, and the connection to Redis are
left out; so is a lock that is poisoned by a panic.
-/

namespace ReactiveGraph

namespace FxPricing

/-- The body of a request. The pair is a string that may be no pair's name. -/
structure TradeRequest (R : Type*) where
  pair : String
  spreadBps : R
  client : String

/-- A `TradeInfo` or a `TradeResponse`: they have the same fields. -/
structure TradeInfo (R : Type*) where
  tradeId : String
  pair : String
  client : String
  spreadBps : R
  deriving DecidableEq

/-- What the table has of a trade. The handle is not looked at; it is there to be dropped with the
record. -/
structure TradeRecord (R : Type*) where
  info : TradeInfo R
  /-- The node ids of `_handle`. -/
  handle : List NodeId

/-- The engine, the table, and the handlers that are waiting. -/
structure AppState (R : Type*) where
  engine : Threads (Value R)
  trades : FinMap String (TradeRecord R)
  /-- What the calls of `create_trade` that wait for a merge are to put down, each by the channel on
  which it waits for the reply. -/
  creating : FinMap ℕ (TradeInfo R)
  /-- How many reply channels there have been. -/
  channels : ℕ

/-- One step of a thread of the engine, of a source's thread, or of a handler. -/
inductive Event (R : Type*) where
  /-- The loop's thread takes a step; `o` is how it walks hash sets in it. -/
  | loop (o : CycleOrder)
  | bridge
  /-- A rate is published on the channel of a pair and a side. -/
  | published (pair : CurrencyPair) (side : Side) (rate : R)
  /-- `create_trade`, up to the wait for the merge. -/
  | createTrade (tradeId : String) (req : TradeRequest R)
  /-- The rest of a `create_trade`. -/
  | created (channel : ℕ)
  /-- The merge of a `create_trade` returns, and nobody waits for it. -/
  | abandoned (channel : ℕ)
  | removeTrade (id : String)
  | shutdown

/-- The answer to a request. -/
inductive Response (R : Type*) where
  | created (response : TradeInfo R)
  | badRequest (message : String)
  | noContent
  | notFound

namespace AppState

variable {R : Type*}

/-- `AppState::new`, with an engine just started. -/
def new : AppState R := ⟨.init, ∅, ∅, 0⟩

/-- What the call of `EngineHandle::merge` that waits on the channel gets: the reply, if one has
come, and the empty list if none can come any more. -/
def merged (s : AppState R) (channel : ℕ) : Option (List NodeId) :=
  match s.engine.replies.find? (·.1 = channel) with
  | some reply => some reply.2
  -- `unwrap_or_default`, when the command has gone with the loop
  | none => if s.engine.loop.isStopped then some [] else none

/-- The rest of `create_trade`: the trade is put down. It is put down also when the engine is gone,
with an empty handle, since the source does not tell the two apart. -/
def created (s : AppState R) (channel : ℕ) : AppState R × Option (Response R) :=
  match s.creating.get channel, s.merged channel with
  | some info, some handle =>
    ({ s with
        -- `insert` returns the record that was there, and its handle is dropped
        engine :=
          match s.trades.get info.tradeId with
          | some old => s.engine.apply (.dropHandle old.handle)
          | none => s.engine
        trades := s.trades.insert info.tradeId ⟨info, handle⟩
        creating := s.creating.remove channel },
      some (.created info))
  | _, _ => (s, none)

/-- The handler is gone. The merge returns to nobody, and the handle is dropped, so the engine ends
up without the trade's own nodes. -/
def abandoned (s : AppState R) (channel : ℕ) : AppState R :=
  match s.creating.get channel, s.merged channel with
  | some _, some handle =>
    { s with
      engine := s.engine.apply (.dropHandle handle)
      creating := s.creating.remove channel }
  | _, _ => s

/-- Take the trade out of the table; its handle goes with the record. What the engine holds is gone
only when the loop has processed the command this sends. -/
def removeTrade (s : AppState R) (id : String) : AppState R × Response R :=
  match s.trades.get id with
  | some record =>
    ({ s with
        engine := s.engine.apply (.dropHandle record.handle)
        trades := s.trades.remove id },
      .noContent)
  | none => (s, .notFound)

/-- `list_trades`; `iter` is how the table is walked. -/
def listTrades (s : AppState R) (iter : Finset String → List String) : List (TradeInfo R) :=
  (iter s.trades.keys).filterMap fun id => (s.trades.get id).map TradeRecord.info

variable [Rate R]

/-- `create_trade`, up to the wait for the merge. A pair that is none is refused before anything is
sent. -/
def createTrade (hash : Key → UInt64) (s : AppState R) (tradeId : String) (req : TradeRequest R) :
    AppState R × Option (Response R) :=
  match CurrencyPair.fromStr req.pair with
  | .error message => (s, some (.badRequest message))
  | .ok pair =>
    ({ s with
        engine := s.engine.apply (.merge
          (buildTradeSubgraph hash tradeId pair req.client req.spreadBps) s.channels)
        creating := s.creating.insert s.channels
          ⟨tradeId, pair.toString, req.client, req.spreadBps⟩
        channels := s.channels + 1 },
      none)

/-- A rate that is published reaches the source's thread if there is one: activation starts it, and
the guard's drop ends it. -/
def published (hash : Key → UInt64) (s : AppState R) (pair : CurrencyPair) (side : Side)
    (rate : R) : AppState R :=
  let id := ((SpotRate.build ⟨pair, side⟩ : Build output Key (Value R)).nodeRef hash).id
  if id ∈ s.engine.engine.guards then { s with engine := s.engine.apply (.send id (.rate rate)) }
  else s

def apply (hash : Key → UInt64) (s : AppState R) : Event R → AppState R
  | .loop o => { s with engine := s.engine.apply (.loop o) }
  | .bridge => { s with engine := s.engine.apply .bridge }
  | .published pair side rate => s.published hash pair side rate
  | .createTrade tradeId req => (s.createTrade hash tradeId req).1
  | .created channel => (s.created channel).1
  | .abandoned channel => s.abandoned channel
  | .removeTrade id => (s.removeTrade id).1
  | .shutdown => { s with engine := s.engine.apply .shutdown }

/-- Where a run of the service ends. -/
def run (hash : Key → UInt64) (es : List (Event R)) : AppState R := Runs.run (apply hash) new es

end AppState

end FxPricing

end ReactiveGraph
