import OwsRuntime.Catalogs
import OwsRuntime.Engine.Runs
import OwsRuntime.CompileScopes

/-! Closure of the catalogs. From finitely many endpoints the resolution of a definition
ends, fetches no endpoint twice, fails when one of them has no collection, and otherwise
gathers the components of all of them. -/
namespace OwsRuntime

open Graph

theorem mem_keys_extendMap {α : Type} {dst src : Option (HashMap α)} {name : String} :
    name ∈ ((extendMap dst src).map HashMap.keys).getD [] ↔
      name ∈ (dst.map HashMap.keys).getD [] ∨ name ∈ (src.map HashMap.keys).getD [] := by
  cases src with
  | none => simp [extendMap]
  | some m =>
      have hExtend := Tables.Keyed.key_mem_extend (dst.getD (.empty _)) m.rows name
      cases dst with
      | none => simpa [extendMap, HashMap.keys, Tables.Keyed.empty] using hExtend
      | some d => simpa [extendMap, HashMap.keys] using hExtend

theorem getD_extendVec {α : Type} (dst src : Option (List α)) :
    (extendVec dst src).getD [] = dst.getD [] ++ src.getD [] := by
  cases src <;> simp [extendVec]

/-- Merging keeps the names of both collections, and adds no others. -/
theorem mem_names_mergeComponents {dst src : ComponentCollection} {kind : ComponentKind}
    {name : String} : name ∈ (mergeComponents dst src).names kind ↔
      name ∈ dst.names kind ∨ name ∈ src.names kind := by
  cases kind with
  | authentication => exact mem_keys_extendMap
  | error => exact mem_keys_extendMap
  | function => exact mem_keys_extendMap
  | retry => exact mem_keys_extendMap
  | timeout => exact mem_keys_extendMap
  | catalog => exact mem_keys_extendMap
  | secret =>
      simp only [ComponentCollection.names, mergeComponents, getD_extendVec, List.mem_append]
  | extension =>
      simp only [ComponentCollection.names, mergeComponents, getD_extendVec, List.flatMap_append,
        List.mem_append]

theorem mem_names_foldl {collections : List ComponentCollection} {use_ : ComponentCollection}
    {kind : ComponentKind} {name : String} :
    name ∈ (collections.foldl mergeComponents use_).names kind ↔
      name ∈ use_.names kind ∨ ∃ c ∈ collections, name ∈ c.names kind := by
  induction collections generalizing use_ with
  | nil => simp
  | cons c rest ih =>
      rw [List.foldl_cons, ih, mem_names_mergeComponents]
      simp [or_assoc]

/-- The endpoints that can be reached from those of a definition. -/
def SourceDefinition.ReachesUri (source : SourceDefinition) (env : RuntimeInner)
    (resolver : CatalogResolver) (uri : String) : Prop :=
  (catalogSource env resolver).Reachable source.catalogUris uri

/-- An endpoint has no collection: it is denied, or its resolution fails. -/
def Unavailable (env : RuntimeInner) (resolver : CatalogResolver) (uri : String) : Prop :=
  (catalogSource env resolver).content? uri = none

/-- A component is declared in the definition or in a collection that can be reached. -/
def SourceDefinition.Declares (source : SourceDefinition) (env : RuntimeInner)
    (resolver : CatalogResolver) (kind : ComponentKind) (name : String) : Prop :=
  name ∈ source.components.names kind ∨ ∃ uri c, source.ReachesUri env resolver uri ∧
    (catalogSource env resolver).content? uri = some c ∧ name ∈ c.names kind

/-- What is expected of the resolution of a definition, given how often each endpoint that
can be reached is to be resolved. -/
structure Closes (env : RuntimeInner) (resolver : CatalogResolver) (source : SourceDefinition)
    (times : Discovery String WorkflowError SourceDefinition → Prop)
    (outcome : Discovery String WorkflowError SourceDefinition) : Prop where
  terminates : outcome ≠ .unfinished
  resolved : times outcome
  fails : (∃ e fetched, outcome = .failed e fetched) ↔
    ∃ uri, source.ReachesUri env resolver uri ∧ Unavailable env resolver uri
  names : ∀ fetched result, outcome = .finished fetched result →
    ∀ kind name, name ∈ result.components.names kind ↔ source.Declares env resolver kind name

/-- Each endpoint that can be reached is resolved once. -/
def ResolvesOnce (env : RuntimeInner) (resolver : CatalogResolver) (source : SourceDefinition)
    (outcome : Discovery String WorkflowError SourceDefinition) : Prop :=
  ∀ uri, source.ReachesUri env resolver uri → outcome.fetched.count uri = 1

/-- No endpoint is resolved twice and only such that can be reached are, and all of these
unless the resolution fails. -/
def ResolvesUntilFailure (env : RuntimeInner) (resolver : CatalogResolver) (source : SourceDefinition)
    (outcome : Discovery String WorkflowError SourceDefinition) : Prop :=
  (∀ uri, outcome.fetched.count uri ≤ 1) ∧
  (∀ uri ∈ outcome.fetched, source.ReachesUri env resolver uri) ∧
  ((∃ fetched result, outcome = .finished fetched result) →
    ResolvesOnce env resolver source outcome)

section Outcomes

variable {env : RuntimeInner} {resolver : CatalogResolver} {source : SourceDefinition} {fuel : Nat}

/-- A definition without catalogs is left as it is. The endpoints of any other one are explored. -/
theorem resolveDefinition_eq : resolveDefinition env (some resolver) fuel source =
    if source.catalogUris = [] then .finished [] source
    else ((catalogSource env resolver).discover mergeComponents fuel source.catalogUris.reverse []
      source.components).map source.withUse := by
  cases hUse : source.use_ with
  | none =>
      have hNone : source.catalogUris = [] := by
        rw [SourceDefinition.catalogUris, SourceDefinition.components, hUse]
        rfl
      rw [resolveDefinition, hUse, if_pos hNone]
  | some use_ =>
      have hComponents : source.components = use_ := by
        rw [SourceDefinition.components, hUse]
        rfl
      rw [resolveDefinition, hUse, SourceDefinition.catalogUris, hComponents]
      dsimp only
      rw [ComponentCollection.catalogUris]
      cases use_.catalogs with
      | none => rfl
      | some catalogs =>
          obtain ⟨rows, unique⟩ := catalogs
          cases rows <;> rfl

theorem reachesUri_iff (uri : String) : source.ReachesUri env resolver uri ↔
    (catalogSource env resolver).Reachable source.catalogUris.reverse uri := by
  simp [SourceDefinition.ReachesUri, Source.Reachable]

/-- Without catalogs there is nothing to resolve, and what is closed already is returned as it was.
-/
theorem closes_of_no_catalogs (hNone : source.catalogUris = []) :
    Closes env resolver source (ResolvesUntilFailure env resolver source) (.finished [] source) := by
  have hNobody : ∀ uri, ¬ source.ReachesUri env resolver uri := by
    rintro uri ⟨root, hRoot, -⟩
    rw [hNone] at hRoot
    cases hRoot
  refine ⟨by simp, ⟨by simp [Discovery.fetched], by simp [Discovery.fetched], ?_⟩, ?_, ?_⟩
  · exact fun _ uri reaches => absurd reaches (hNobody uri)
  · constructor
    · rintro ⟨e, fetched, hFailed⟩
      cases hFailed
    · rintro ⟨uri, reaches, -⟩
      exact absurd reaches (hNobody uri)
  · rintro fetched result ⟨⟩ kind name
    constructor
    · exact Or.inl
    · rintro (hOwn | ⟨uri, c, reaches, -⟩)
      · exact hOwn
      · exact absurd reaches (hNobody uri)

/-- The exploration of the endpoints ends as expected. The cases are its two ends. -/
theorem closes_of_ends {outcome : Discovery String WorkflowError ComponentCollection}
    (ends : Source.Ends (catalogSource env resolver) mergeComponents source.catalogUris.reverse []
      source.components outcome) :
    Closes env resolver source (ResolvesUntilFailure env resolver source)
      (outcome.map source.withUse) := by
  cases ends with
  | @finished later contents hNodup hContents hPending hEdges hReachable =>
      rw [List.append_nil] at *
      have hAll : ∀ uri, source.ReachesUri env resolver uri → uri ∈ later := by
        intro uri reaches
        exact Source.mem_of_reachable (by simpa using hPending) (by simpa using hEdges)
          ((reachesUri_iff uri).mp reaches)
      refine ⟨by simp [Discovery.map], ⟨?_, ?_, ?_⟩, ?_, ?_⟩
      · exact List.nodup_iff_count_le_one.mp hNodup
      · exact fun uri hMem => (reachesUri_iff uri).mpr (hReachable uri hMem)
      · exact fun _ uri reaches => List.count_eq_one_of_mem hNodup (hAll uri reaches)
      · constructor
        · rintro ⟨e, fetched, hFailed⟩
          cases hFailed
        · rintro ⟨uri, reaches, unavailable⟩
          exact absurd unavailable (Source.content?_isSome_of_mem hContents (hAll uri reaches))
      · rintro fetched result ⟨⟩ kind name
        show name ∈ (contents.foldl mergeComponents source.components).names kind ↔ _
        rw [mem_names_foldl, SourceDefinition.Declares]
        refine or_congr_right ?_
        constructor
        · rintro ⟨c, hMem, hName⟩
          obtain ⟨uri, hUri, hContent⟩ := (Source.mem_contents hContents).mp hMem
          exact ⟨uri, c, (reachesUri_iff uri).mpr (hReachable uri hUri), hContent, hName⟩
        · rintro ⟨uri, c, reaches, hContent, hName⟩
          exact ⟨c, (Source.mem_contents hContents).mpr ⟨uri, hAll uri reaches, hContent⟩, hName⟩
  | @failed e later hNodup hReachable hFails =>
      rw [List.append_nil] at *
      refine ⟨by simp [Discovery.map], ⟨?_, ?_, ?_⟩, ?_, ?_⟩
      · exact List.nodup_iff_count_le_one.mp hNodup
      · exact fun uri hMem => (reachesUri_iff uri).mpr (hReachable uri hMem)
      · rintro ⟨fetched, result, hFinished⟩
        cases hFinished
      · obtain ⟨uri, reachable, hNone⟩ := hFails
        exact ⟨fun _ => ⟨uri, (reachesUri_iff uri).mpr reachable, hNone⟩, fun _ => ⟨e, later, rfl⟩⟩
      · rintro fetched result ⟨⟩

end Outcomes

/-- The closure of the catalogs of a definition, from finitely many endpoints. -/
theorem catalogs_close (env : RuntimeInner) (resolver : CatalogResolver) (source : SourceDefinition)
    (uris : List String) (hFinite : ∀ uri, source.ReachesUri env resolver uri → uri ∈ uris) :
    ∃ bound, ∀ fuel, bound ≤ fuel →
      Closes env resolver source (ResolvesUntilFailure env resolver source)
        (resolveDefinition env (some resolver) fuel source) := by
  have hWithin : ∀ uri, (catalogSource env resolver).Reachable source.catalogUris.reverse uri →
      uri ∈ uris := fun uri reachable => hFinite uri ((reachesUri_iff uri).mpr reachable)
  have hBound : ∃ bound, ∀ fuel, bound ≤ fuel →
      Source.Ends (catalogSource env resolver) mergeComponents source.catalogUris.reverse []
        source.components ((catalogSource env resolver).discover mergeComponents fuel
          source.catalogUris.reverse [] source.components) := Source.discover_ends_of_finite hWithin
  obtain ⟨bound, hEnds⟩ := hBound
  refine ⟨bound, fun fuel hFuel => ?_⟩
  rw [resolveDefinition_eq]
  split
  · rename_i hNone
    exact closes_of_no_catalogs hNone
  · exact closes_of_ends (hEnds fuel hFuel)

namespace Sample

def catalogMap (entries : List (String × String)) : HashMap CatalogDefinition :=
  (Tables.Keyed.empty _).extend (entries.map fun entry => (entry.1, ⟨.uri entry.2⟩))

/-- A collection of catalogs and secrets. -/
def linking (catalogs : List (String × String)) (secrets : List String) : ComponentCollection :=
  { ComponentCollection.empty with catalogs := some (catalogMap catalogs), secrets := some secrets }

def importing (use_ : ComponentCollection) : SourceDefinition :=
  { definition := { definition [] with use_ := some use_.toUse }, use_ := some use_, agrees := rfl }

/-- Two endpoints which lead to each other. -/
def cyclicResolver : CatalogResolver where
  resolve uri :=
    if uri = "file:///a" then .ok (linking [("b", "file:///b")] ["first"])
    else if uri = "file:///b" then .ok (linking [("a", "file:///a"), ("self", "file:///b")] ["second"])
    else .error (communicationError 500 ("no static catalog registered for `" ++ uri ++ "`"))
  requiresNetwork := false

/-- The same endpoint under two names. -/
def cyclicDefinition : SourceDefinition :=
  importing (linking [("one", "file:///a"), ("two", "file:///a")] ["own"])

def failingResolver : CatalogResolver where
  resolve _ := .error (communicationError 500 "Communication Error")
  requiresNetwork := false

def twoCatalogs : SourceDefinition :=
  importing (linking [("a", "file:///a"), ("b", "file:///b")] [])

theorem cyclicDefinition_reaches {uri : String}
    (reaches : cyclicDefinition.ReachesUri runtime cyclicResolver uri) :
    uri ∈ ["file:///a", "file:///b"] := by
  have hRoots : ∀ uri ∈ cyclicDefinition.catalogUris, uri ∈ ["file:///a", "file:///b"] := by
    decide +kernel
  have hEdges : ∀ uri ∈ ["file:///a", "file:///b"],
      ∀ next ∈ (catalogSource runtime cyclicResolver).edges uri,
        next ∈ ["file:///a", "file:///b"] := by decide +kernel
  exact Source.mem_of_reachable hRoots hEdges reaches

theorem twoCatalogs_reaches {uri : String}
    (reaches : twoCatalogs.ReachesUri runtime failingResolver uri) :
    uri ∈ ["file:///a", "file:///b"] := by
  have hRoots : ∀ uri ∈ twoCatalogs.catalogUris, uri ∈ ["file:///a", "file:///b"] := by
    decide +kernel
  have hEdges : ∀ uri ∈ ["file:///a", "file:///b"],
      ∀ next ∈ (catalogSource runtime failingResolver).edges uri,
        next ∈ ["file:///a", "file:///b"] := by decide +kernel
  exact Source.mem_of_reachable hRoots hEdges reaches

end Sample

/-- Endpoints that lead to each other are resolved, and the secrets of both gathered. -/
theorem catalogs_close_cyclic : ∃ bound, ∀ fuel, bound ≤ fuel →
    Closes Sample.runtime Sample.cyclicResolver Sample.cyclicDefinition
      (ResolvesUntilFailure Sample.runtime Sample.cyclicResolver Sample.cyclicDefinition)
      (resolveDefinition Sample.runtime (some Sample.cyclicResolver) fuel Sample.cyclicDefinition) :=
  catalogs_close Sample.runtime Sample.cyclicResolver Sample.cyclicDefinition
    ["file:///a", "file:///b"] fun _ reaches => Sample.cyclicDefinition_reaches reaches

/-- The endpoint that stands behind the one which fails is never resolved. -/
theorem twoCatalogs_unresolved : ¬ ∀ (env : RuntimeInner) (resolver : CatalogResolver)
    (source : SourceDefinition) (uris : List String),
    (∀ uri, source.ReachesUri env resolver uri → uri ∈ uris) →
      ∃ bound, ∀ fuel, bound ≤ fuel → Closes env resolver source (ResolvesOnce env resolver source)
        (resolveDefinition env (some resolver) fuel source) := by
  intro hAll
  obtain ⟨bound, hCloses⟩ := hAll Sample.runtime Sample.failingResolver Sample.twoCatalogs
    ["file:///a", "file:///b"] fun _ reaches => Sample.twoCatalogs_reaches reaches
  have hOnce := (hCloses (bound + 2) (Nat.le_add_right _ _)).resolved "file:///a"
    ⟨"file:///a", by decide +kernel, Relation.ReflTransGen.refl⟩
  have hFetched : (resolveDefinition Sample.runtime (some Sample.failingResolver) (bound + 2)
      Sample.twoCatalogs).fetched = ["file:///b"] := rfl
  rw [hFetched] at hOnce
  revert hOnce
  decide

end OwsRuntime
