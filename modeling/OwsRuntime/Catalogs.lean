import OwsRuntime.Dsl.Definition
import OwsRuntime.Engine.Http
import OwsRuntime.Graph.Discovery
import OwsRuntime.Stores.Tables

/-! Catalogs: collections of reusable components behind endpoints. Before a definition is
compiled, its catalogs are resolved and their components merged into its own. -/
namespace OwsRuntime

/-- A hash map. Its rows come in the order in which it iterates. -/
abbrev HashMap (α : Type) := Tables.Keyed String (String × α) Prod.fst

def HashMap.get {α : Type} (map : HashMap α) (key : String) : Option α := (map.select key).map Prod.snd

def HashMap.keys {α : Type} (map : HashMap α) : List String := map.rows.map Prod.fst

inductive OneOfEndpointDefinitionOrUri where
  | uri (uri : String)
  | endpoint (uri : String)
deriving DecidableEq, Repr

structure CatalogDefinition where
  endpoint : OneOfEndpointDefinitionOrUri
deriving DecidableEq, Repr

/-- A collection of components, with its catalogs and its authentication policies, which are
kept as they are serialized. -/
structure ComponentCollection where
  authentications : Option (HashMap Value)
  errors : Option (HashMap ErrorDefinition)
  functions : Option (HashMap TaskDefinition)
  retries : Option (HashMap RetryPolicyDefinition)
  timeouts : Option (HashMap DurationDefinition)
  catalogs : Option (HashMap CatalogDefinition)
  secrets : Option (List String)
  extensions : Option (List (List (String × ExtensionDefinition)))

def ComponentCollection.empty : ComponentCollection :=
  { authentications := none, errors := none, functions := none, retries := none, timeouts := none
    catalogs := none, secrets := none, extensions := none }

/-- What the compiler reads of a collection. -/
def ComponentCollection.toUse (c : ComponentCollection) : ComponentDefinitionCollection :=
  { errors := c.errors.map (·.rows), functions := c.functions.map (·.rows)
    retries := c.retries.map (·.rows), timeouts := c.timeouts.map (·.rows)
    secrets := c.secrets, extensions := c.extensions }

/-- A definition with all of its own components. -/
structure SourceDefinition where
  definition : WorkflowDefinition
  use_ : Option ComponentCollection
  agrees : definition.use_ = use_.map ComponentCollection.toUse

def SourceDefinition.withUse (source : SourceDefinition) (merged : ComponentCollection) :
    SourceDefinition :=
  { definition := { source.definition with use_ := some merged.toUse }, use_ := some merged
    agrees := rfl }

/-- The components of a definition. -/
def SourceDefinition.components (source : SourceDefinition) : ComponentCollection :=
  source.use_.getD .empty

/-- A resolver of catalogs, which answers every endpoint in the same way each time. -/
structure CatalogResolver where
  resolve : String → Except WorkflowError ComponentCollection
  requiresNetwork : Bool

def catalogEndpointUri : OneOfEndpointDefinitionOrUri → String
  | .uri uri => uri
  | .endpoint uri => uri

/-- The endpoints of the catalogs of a collection, in the order of its map. -/
def ComponentCollection.catalogUris (c : ComponentCollection) : List String :=
  match c.catalogs with
  | some catalogs => catalogs.rows.map fun entry => catalogEndpointUri entry.2.endpoint
  | none => []

def extendMap {α : Type} (dst src : Option (HashMap α)) : Option (HashMap α) :=
  match src with
  | some m => some ((dst.getD (.empty _)).extend m.rows)
  | none => dst

def extendVec {α : Type} (dst src : Option (List α)) : Option (List α) :=
  match src with
  | some v => some (dst.getD [] ++ v)
  | none => dst

/-- Merges components imported from a catalog into `dst`. -/
def mergeComponents (dst src : ComponentCollection) : ComponentCollection :=
  { authentications := extendMap dst.authentications src.authentications
    errors := extendMap dst.errors src.errors
    functions := extendMap dst.functions src.functions
    retries := extendMap dst.retries src.retries
    timeouts := extendMap dst.timeouts src.timeouts
    catalogs := extendMap dst.catalogs src.catalogs
    secrets := extendVec dst.secrets src.secrets
    extensions := extendVec dst.extensions src.extensions }

def isHttpUri (uri : String) : Bool :=
  "http://".toList.isPrefixOf uri.toList || "https://".toList.isPrefixOf uri.toList

/-- The catalogs as a graph of endpoints. The network policy applies to those that are
fetched over the network. -/
def catalogSource (env : RuntimeInner) (resolver : CatalogResolver) :
    Graph.Source String ComponentCollection WorkflowError where
  permit uri :=
    if resolver.requiresNetwork ∧ isHttpUri uri then env.enforceNetworkPolicy uri else .ok ()
  fetch uri := resolver.resolve uri
  next collection := collection.catalogUris

/-- The endpoints with which the resolution of a definition starts. -/
def SourceDefinition.catalogUris (source : SourceDefinition) : List String :=
  source.components.catalogUris

/-- `Runtime::resolve_definition`. The pending endpoints are a stack, of which the last
one pushed is the first here. -/
def resolveDefinition (env : RuntimeInner) (catalog : Option CatalogResolver) (fuel : Nat)
    (source : SourceDefinition) : Graph.Discovery String WorkflowError SourceDefinition :=
  match source.use_ with
  | none => .finished [] source
  | some use_ =>
      if (use_.catalogs.map fun catalogs => catalogs.rows.isEmpty).getD true then .finished [] source
      else
        match catalog with
        | none => .finished [] source
        | some resolver =>
            ((catalogSource env resolver).discover mergeComponents fuel use_.catalogUris.reverse []
              use_).map source.withUse

inductive ComponentKind where
  | authentication
  | error
  | function
  | retry
  | timeout
  | catalog
  | secret
  | extension
deriving DecidableEq, Repr

/-- The names of the components of a kind. -/
def ComponentCollection.names (c : ComponentCollection) : ComponentKind → List String
  | .authentication => (c.authentications.map HashMap.keys).getD []
  | .error => (c.errors.map HashMap.keys).getD []
  | .function => (c.functions.map HashMap.keys).getD []
  | .retry => (c.retries.map HashMap.keys).getD []
  | .timeout => (c.timeouts.map HashMap.keys).getD []
  | .catalog => (c.catalogs.map HashMap.keys).getD []
  | .secret => c.secrets.getD []
  | .extension => (c.extensions.getD []).flatMap fun entry => entry.map Prod.fst

end OwsRuntime
