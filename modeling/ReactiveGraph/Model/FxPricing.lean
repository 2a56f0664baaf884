import ReactiveGraph.Model.Typed

/-!
# Trades as subgraphs

The pricing example makes a subgraph of each trade. The bid and the ask of its currency pair are
sources, fed by threads that listen to Redis; their mean is computed from them, a client's quote
from the mean, and a sink prints the quote. The first three have the pair for a key, so trades on
one pair share them; the others have the trade's id.

Rates are `f64` in the source; here they are numbers of any type with its four operations and the
constants of the formulas. No law is asked of the operations, so what is proved of a quote is that
it is the formulas' value at the last rates, in whatever arithmetic, rounding included. What a
source's thread does with Redis, and how a quote is printed, is left out.

**What the example adds to the engine** is a use of it: four node types with their keys, and one
list of builder calls for each trade. Nothing of the engine is modelled again. The four functions
are written with the types they have in the source, and boxed by a `call` each, which is where a
value that is no rate would have to be dealt with; `extract` lets none through.

The hash of a key is a parameter, as everywhere. Two keys of different pairs may collide, and then
two trades would share nodes they should not: the results about the service name this as a
hypothesis instead of assuming a hash without collisions.

Parsing a currency pair is modelled to the character, since a request is refused by it and the
refusal carries the text.
-/

namespace ReactiveGraph

namespace FxPricing

/-- What the formulas need of `f64`. The default is for the branches that no run takes. -/
class Rate (R : Type*) extends Add R, Sub R, Mul R, Div R, NatCast R, Inhabited R

/-! ## Types -/

inductive CurrencyPair where
  | eurusd
  | gbpusd
  | usdjpy
  | audusd
  deriving DecidableEq

inductive Side where
  | bid
  | ask
  deriving DecidableEq

/-- A client's quote: the trade's own data, and the four numbers. -/
structure SpreadQuote (R : Type*) where
  pair : CurrencyPair
  client : String
  tradeId : String
  bid : R
  ask : R
  mid : R
  spreadBps : R
  deriving DecidableEq

/-- `Display`. -/
def CurrencyPair.toString : CurrencyPair → String
  | .eurusd => "EURUSD"
  | .gbpusd => "GBPUSD"
  | .usdjpy => "USDJPY"
  | .audusd => "AUDUSD"

/-- `to_uppercase`, as far as a comparison with the four names goes: of the characters that are not
ASCII, `ſ` is the only one that becomes a letter of theirs and nothing else. -/
def toUppercase (s : String) : String := s.map fun c => if c = 'ſ' then 'S' else c.toUpper

/-- `FromStr`. The text of the error has the string as it came, not in capitals. -/
def CurrencyPair.fromStr (s : String) : Except String CurrencyPair :=
  let upper := toUppercase s
  if upper = "EURUSD" then .ok .eurusd
  else if upper = "GBPUSD" then .ok .gbpusd
  else if upper = "USDJPY" then .ok .usdjpy
  else if upper = "AUDUSD" then .ok .audusd
  else .error ("Unknown currency pair: " ++ s)

/-- What a name is printed as, is parsed as that name. By evaluation of the four. -/
theorem CurrencyPair.fromStr_toString (pair : CurrencyPair) : fromStr pair.toString = .ok pair := by
  cases pair <;> decide +kernel

/-! ## Values and keys -/

/-- What the nodes hold. -/
inductive Value (R : Type*) where
  | rate (rate : R)
  | quote (quote : SpreadQuote R)
  deriving DecidableEq

/-- The type `f64`. -/
def f64 : TypeId := 5

/-- The type `SpreadQuote`. -/
def spreadQuote : TypeId := 6

instance {R : Type*} : AnyValue (Value R) where
  typeId
    | .rate _ => f64
    | .quote _ => spreadQuote

/-- The keys of the nodes. Which type they are scoped by is up to the node type: the mean of a pair
has the pair for a key, and so has no other node. -/
inductive Key where
  | spot (pair : CurrencyPair) (side : Side)
  | pair (pair : CurrencyPair)
  | trade (tradeId : String)
  deriving DecidableEq

/-! ## Nodes -/

def spotRate : NodeType := ⟨7, by decide⟩

def midRate : NodeType := ⟨8, by decide⟩

def clientSpread : NodeType := ⟨9, by decide⟩

def pricePublisher : NodeType := ⟨10, by decide⟩

/-- `Node::Output`. The sink's is `()`. -/
def output (type : NodeType) : TypeId :=
  if type = spotRate ∨ type = midRate then f64
  else if type = clientSpread then spreadQuote
  else unitType

structure SpotRate where
  pair : CurrencyPair
  side : Side

structure MidRate where
  pair : CurrencyPair

structure ClientSpread (R : Type*) where
  tradeId : String
  pair : CurrencyPair
  client : String
  spreadBps : R
  deriving DecidableEq

structure PricePublisher where
  tradeId : String

variable {R : Type*}

def SpotRate.key (node : SpotRate) : Key := .spot node.pair node.side

def MidRate.key (node : MidRate) : Key := .pair node.pair

def ClientSpread.key (node : ClientSpread R) : Key := .trade node.tradeId

def PricePublisher.key (node : PricePublisher) : Key := .trade node.tradeId

section Compute

variable [Rate R]

/-- The mean of a bid and an ask. -/
def MidRate.compute (bid ask : R) : R := (bid + ask) / (2 : ℕ)

/-- A quote around the mean. The spread is in basis points of it, half of it to each side. -/
def ClientSpread.compute (node : ClientSpread R) (mid : R) : SpreadQuote R :=
  let halfSpread := mid * node.spreadBps / (10000 : ℕ) / (2 : ℕ)
  { pair := node.pair
    client := node.client
    tradeId := node.tradeId
    bid := mid - halfSpread
    ask := mid + halfSpread
    mid := mid
    spreadBps := node.spreadBps }

/-- `MidRate::compute` of what `extract` finds; it finds nothing but two rates, and the other branch
is there for the function to be total. -/
def MidRate.call : List (Value R) → Value R
  | [.rate bid, .rate ask] => .rate (MidRate.compute bid ask)
  | _ => .rate default

/-- `ClientSpread::compute` of the one rate that `extract` finds. -/
def ClientSpread.call (node : ClientSpread R) : List (Value R) → Value R
  | [.rate mid] => .quote (node.compute mid)
  | _ => .quote (node.compute default)

theorem MidRate.typeId_call (args : List (Value R)) :
    AnyValue.typeId (MidRate.call args) = output midRate := by
  unfold MidRate.call
  split <;> rfl

theorem ClientSpread.typeId_call (node : ClientSpread R) (args : List (Value R)) :
    AnyValue.typeId (node.call args) = output clientSpread := by
  unfold ClientSpread.call
  split <;> rfl

/-- `add_source`. The callback starts the thread, which sends later: it has sent nothing when it
returns. -/
def SpotRate.build (node : SpotRate) : Build output Key (Value R) :=
  .source spotRate node.key ⟨[], by simp⟩

def MidRate.build (node : MidRate) (deps : List NodeRef) : Build output Key (Value R) :=
  .compute midRate node.key deps ⟨MidRate.call, MidRate.typeId_call⟩

def ClientSpread.build (node : ClientSpread R) (deps : List NodeRef) :
    Build output Key (Value R) :=
  .compute clientSpread node.key deps ⟨node.call, node.typeId_call⟩

def PricePublisher.build (node : PricePublisher) (deps : List NodeRef) :
    Build output Key (Value R) :=
  .sink pricePublisher node.key deps

/-! ## The subgraph of a trade -/

/-- The calls of `build_trade_subgraph`, each with the references that the ones before return. The
first three are made again for every trade on the pair, and registered once. -/
def tradeNodes (hash : Key → UInt64) (trade : ClientSpread R) : List (Build output Key (Value R)) :=
  -- shared by the trades on the pair
  let bid : Build output Key (Value R) := SpotRate.build ⟨trade.pair, .bid⟩
  let ask : Build output Key (Value R) := SpotRate.build ⟨trade.pair, .ask⟩
  let mid := MidRate.build ⟨trade.pair⟩ [bid.nodeRef hash, ask.nodeRef hash]
  -- the trade's own
  let spread := trade.build [mid.nodeRef hash]
  [bid, ask, mid, spread, PricePublisher.build ⟨trade.tradeId⟩ [spread.nodeRef hash]]

/-- The subgraph of a trade. Its handle lists all five nodes, and so holds a reference to each of
the shared ones. -/
def buildTradeSubgraph (hash : Key → UInt64) (tradeId : String) (pair : CurrencyPair)
    (client : String) (spreadBps : R) : Subgraph (Value R) :=
  SubgraphBuilder.ofList
    ((tradeNodes hash ⟨tradeId, pair, client, spreadBps⟩).map (Build.descriptor hash))

end Compute

end FxPricing

end ReactiveGraph
