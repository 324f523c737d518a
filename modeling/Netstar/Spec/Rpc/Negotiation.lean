import Mathlib.Data.List.Basic

/-!
# `Netstar.Spec.Rpc.Negotiation`: features and compressors of a connection

The client sends its features, the server answers with its own, and each end decides for itself
which compressor it uses. A `feature_map` is a list here, in the order of the feature numbers.

A factory for one algorithm takes a feature string only if it is its own name. A
`multi_algo_compressor_factory` joins the names of its factories with commas, and splits the string
of the other side at the commas. A compressor is given by the name of its algorithm.
-/

set_option autoImplicit false

namespace Netstar.Spec.Rpc

/-- `sstring`. -/
abbrev SString := List UInt8

/-- The character `,`. -/
def comma : UInt8 := 44

/-- The name of an algorithm. It has no comma. -/
structure AlgoName where
  bytes : SString
  comma_free : comma ∉ bytes
  deriving DecidableEq

/-- `compressor::factory`: one for a single algorithm such as `lz4_compressor::factory`, or a
`multi_algo_compressor_factory` over factories for different algorithms. -/
inductive CompressorFactory where
  | single (name : AlgoName)
  | multi (names : List AlgoName) (distinct : names.Nodup)

namespace CompressorFactory

/-- `supported`. -/
def supported : CompressorFactory → SString
  | .single name => name.bytes
  | .multi names _ => [comma].intercalate (names.map AlgoName.bytes)

/-- `negotiate` of a factory for one algorithm. -/
def negotiateSingle (name : AlgoName) (feature : SString) : Option AlgoName :=
  if feature = name.bytes then some name else none

/-- `negotiate`. -/
def negotiate (f : CompressorFactory) (feature : SString) (isServer : Bool) : Option AlgoName :=
  match f with
  | .single name => negotiateSingle name feature
  | .multi factories _ =>
    let names := feature.splitOn comma
    if isServer then
      names.findSome? fun n => factories.findSome? fun f => negotiateSingle f n
    else
      factories.findSome? fun f => names.findSome? fun n => negotiateSingle f n

/-- The algorithms of the factory, in its order. -/
def algorithms : CompressorFactory → List AlgoName
  | .single name => [name]
  | .multi names _ => names

end CompressorFactory

/-- `protocol_features`. A peer can send a number that has no meaning here. -/
inductive ProtocolFeature where
  | compress
  | timeout
  | unknown (id : UInt32)
  deriving DecidableEq, Repr

/-- `feature_map`. -/
abbrev FeatureMap := List (ProtocolFeature × SString)

/-- `client_options`. -/
structure ClientOptions where
  compressorFactory : Option CompressorFactory
  sendTimeoutData : Bool

/-- `server_options`. -/
structure ServerOptions where
  compressorFactory : Option CompressorFactory

/-- What a connection knows after the negotiation. -/
structure Connection where
  compressor : Option AlgoName
  timeoutNegotiated : Bool
  deriving DecidableEq

/-- A connection before the negotiation. -/
def Connection.create : Connection := ⟨none, false⟩

/-- The features that `client::client` sends. -/
def ClientOptions.features (options : ClientOptions) : FeatureMap :=
  (match options.compressorFactory with
    | some f => [(.compress, f.supported)]
    | none => []) ++
  if options.sendTimeoutData then [(.timeout, [])] else []

/-- The round of `server::connection::negotiate` for one feature. -/
def ServerOptions.negotiateFeature (options : ServerOptions) (c : Connection × FeatureMap)
    (e : ProtocolFeature × SString) : Connection × FeatureMap :=
  match e.1 with
  | .compress =>
    match options.compressorFactory with
    | some f => ({ c.1 with compressor := f.negotiate e.2 true }, c.2 ++ [(.compress, f.supported)])
    | none => c
  | .timeout => ({ c.1 with timeoutNegotiated := true }, c.2 ++ [(.timeout, [])])
  | .unknown _ => c

/-- `server::connection::negotiate`: the connection, and the features of the answer. -/
def ServerOptions.negotiate (options : ServerOptions) (requested : FeatureMap) :
    Connection × FeatureMap :=
  requested.foldl options.negotiateFeature (Connection.create, [])

/-- The round of `client::negotiate` for one feature. -/
def ClientOptions.negotiateFeature (options : ClientOptions) (c : Connection)
    (e : ProtocolFeature × SString) : Connection :=
  match e.1 with
  | .compress =>
    match options.compressorFactory with
    | some f => { c with compressor := f.negotiate e.2 false }
    | none => c
  | .timeout => { c with timeoutNegotiated := true }
  | .unknown _ => c

/-- `client::negotiate`. -/
def ClientOptions.negotiate (options : ClientOptions) (provided : FeatureMap) : Connection :=
  provided.foldl options.negotiateFeature Connection.create

/-- The two ends after the frame of the client and the answer of the server. -/
structure Ends where
  client : Connection
  server : Connection
  deriving DecidableEq

/-- The negotiation of a client and a server. -/
def negotiateProtocol (client : ClientOptions) (server : ServerOptions) : Ends :=
  let answer := server.negotiate client.features
  ⟨client.negotiate answer.2, answer.1⟩

end Netstar.Spec.Rpc
