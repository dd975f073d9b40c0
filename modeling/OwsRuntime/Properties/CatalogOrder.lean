import OwsRuntime.Properties.CatalogClosure

/-! The order of catalogs. A merge replaces the definition of a name, so that what is
returned for a name depends on the order in which endpoints are visited, unless all
declarations of it agree. -/
namespace OwsRuntime

open Graph

/-- One of the maps of a collection. -/
structure MapField where
  α : Type
  get : ComponentCollection → Option (HashMap α)

def mapFields : List MapField :=
  [⟨_, (·.authentications)⟩, ⟨_, (·.errors)⟩, ⟨_, (·.functions)⟩, ⟨_, (·.retries)⟩,
    ⟨_, (·.timeouts)⟩, ⟨_, (·.catalogs)⟩]

def MapField.lookup (field : MapField) (c : ComponentCollection) (name : String) : Option field.α :=
  (field.get c).bind fun map => map.get name

theorem get_extendMap {α : Type} (dst src : Option (HashMap α)) (name : String) :
    ((extendMap dst src).bind fun map => map.get name) =
      (src.bind fun map => map.get name).or (dst.bind fun map => map.get name) := by
  cases src with
  | none => simp [extendMap]
  | some m =>
      simp only [extendMap, Option.bind_some, HashMap.get, Tables.Keyed.select_extend]
      cases dst with
      | none => cases m.select name <;> rfl
      | some d => cases m.select name <;> rfl

/-- What is imported comes before what was there. -/
theorem lookup_mergeComponents {field : MapField} (hField : field ∈ mapFields)
    (dst src : ComponentCollection) (name : String) :
    field.lookup (mergeComponents dst src) name =
      (field.lookup src name).or (field.lookup dst name) := by
  simp only [mapFields, List.mem_cons, List.not_mem_nil, or_false] at hField
  rcases hField with rfl | rfl | rfl | rfl | rfl | rfl <;> exact get_extendMap _ _ name

section Orders

/-- The same components, with the catalogs in any order. -/
structure Reorders (c c' : ComponentCollection) : Prop where
  rest : { c' with catalogs := c.catalogs } = c
  catalogs : Option.Rel (fun map map' => map.rows.Perm map'.rows) c.catalogs c'.catalogs

/-- The same answers, with the catalogs of each collection in any order. -/
structure CatalogResolver.Reorders (resolver resolver' : CatalogResolver) : Prop where
  requiresNetwork : resolver'.requiresNetwork = resolver.requiresNetwork
  ok : ∀ uri c, resolver.resolve uri = .ok c →
    ∃ c', resolver'.resolve uri = .ok c' ∧ OwsRuntime.Reorders c c'
  error : ∀ uri e, resolver.resolve uri = .error e → resolver'.resolve uri = .error e

/-- The components that two resolutions return for each name are the same. -/
structure SameComponents (c c' : ComponentCollection) : Prop where
  maps : ∀ field ∈ mapFields, ∀ name, field.lookup c name = field.lookup c' name
  secrets : ∀ secret, secret ∈ c.secrets.getD [] ↔ secret ∈ c'.secrets.getD []
  extensions : ∀ extension, extension ∈ c.extensions.getD [] ↔ extension ∈ c'.extensions.getD []

/-- The components of the first collection are those of the second. -/
structure KeepsComponents (c c' : ComponentCollection) : Prop where
  maps : ∀ field ∈ mapFields, ∀ name d, field.lookup c name = some d → field.lookup c' name = some d
  secrets : ∀ secret ∈ c.secrets.getD [], secret ∈ c'.secrets.getD []
  extensions : ∀ extension ∈ c.extensions.getD [], extension ∈ c'.extensions.getD []

/-- The components returned do not depend on the order of the catalogs. -/
def CatalogOrderFree (env : RuntimeInner) (resolver : CatalogResolver) (source : SourceDefinition) :
    Prop :=
  ∀ source' resolver', Reorders source.components source'.components → resolver.Reorders resolver' →
    ∀ fuel fuel' fetched fetched' result result',
      resolveDefinition env (some resolver) fuel source = .finished fetched result →
      resolveDefinition env (some resolver') fuel' source' = .finished fetched' result' →
        SameComponents result.components result'.components

/-- The components of a definition are kept. -/
def LocalWins (env : RuntimeInner) (resolver : CatalogResolver) (source : SourceDefinition) : Prop :=
  ∀ fuel fetched result, resolveDefinition env (some resolver) fuel source = .finished fetched result →
    KeepsComponents source.components result.components

/-- A component that is declared in the definition or in a collection that can be reached. -/
def SourceDefinition.DeclaresAs (source : SourceDefinition) (env : RuntimeInner)
    (resolver : CatalogResolver) (field : MapField) (name : String) (d : field.α) : Prop :=
  field.lookup source.components name = some d ∨ ∃ uri c, source.ReachesUri env resolver uri ∧
    (catalogSource env resolver).content? uri = some c ∧ field.lookup c name = some d

/-- No name is declared with two definitions. -/
def NoClash (env : RuntimeInner) (resolver : CatalogResolver) (source : SourceDefinition) : Prop :=
  ∀ field ∈ mapFields, ∀ name d d', source.DeclaresAs env resolver field name d →
    source.DeclaresAs env resolver field name d' → d = d'

end Orders

section Merges

variable {field : MapField} {name : String} {use_ : ComponentCollection}
  {contents : List ComponentCollection}

/-- What is declared after merging is declared in one of the collections. -/
theorem lookup_foldl (hField : field ∈ mapFields) {d : field.α}
    (hFound : field.lookup (contents.foldl mergeComponents use_) name = some d) :
    ∃ c ∈ use_ :: contents, field.lookup c name = some d := by
  induction contents generalizing use_ with
  | nil => exact ⟨use_, List.mem_cons_self, hFound⟩
  | cons c rest ih =>
      obtain ⟨found, hMem, hSome⟩ := ih hFound
      rcases List.mem_cons.mp hMem with rfl | hRest
      · rw [lookup_mergeComponents hField, Option.or_eq_some_iff] at hSome
        rcases hSome with hImported | ⟨-, hOld⟩
        · exact ⟨c, by simp, hImported⟩
        · exact ⟨use_, by simp, hOld⟩
      · exact ⟨found, by simp [hRest], hSome⟩

/-- A merge replaces a definition by another one. -/
def Overwrites (dst src : ComponentCollection) : Prop :=
  ∃ field ∈ mapFields, ∃ name d d', field.lookup dst name = some d ∧ field.lookup src name = some d' ∧
    d ≠ d'

/-- One of the merges replaces a definition by another one. -/
def SomeOverwrites (use_ : ComponentCollection) (contents : List ComponentCollection) : Prop :=
  ∃ before c later, contents = before ++ c :: later ∧ Overwrites (before.foldl mergeComponents use_) c

/-- Without a replacement, a definition that has been declared stays. By induction on the
collections that are merged. -/
theorem lookup_foldl_of_kept (hField : field ∈ mapFields) (hKept : ¬ SomeOverwrites use_ contents)
    {c : ComponentCollection} (hMem : c ∈ use_ :: contents) {d : field.α}
    (hDeclared : field.lookup c name = some d) :
    field.lookup (contents.foldl mergeComponents use_) name = some d := by
  induction contents generalizing use_ c with
  | nil => rwa [List.mem_singleton.mp hMem] at hDeclared
  | cons first rest ih =>
      have hRest : ¬ SomeOverwrites (mergeComponents use_ first) rest := by
        rintro ⟨before, found, later, rfl, hOverwrites⟩
        exact hKept ⟨first :: before, found, later, rfl, hOverwrites⟩
      have hFirst : ¬ Overwrites use_ first := fun hOverwrites => hKept ⟨[], first, rest, rfl, hOverwrites⟩
      rcases List.mem_cons.mp hMem with rfl | hMem
      · refine ih hRest List.mem_cons_self ?_
        rw [lookup_mergeComponents hField]
        cases hNew : field.lookup first name with
        | none => exact hDeclared
        | some d' =>
            by_contra hOther
            exact hFirst ⟨field, hField, name, d, d', hDeclared, hNew, fun hSame => hOther (by simp [hSame])⟩
      · rcases List.mem_cons.mp hMem with rfl | hMem
        · refine ih hRest List.mem_cons_self ?_
          rw [lookup_mergeComponents hField, hDeclared]
          rfl
        · exact ih hRest (List.mem_cons_of_mem _ hMem) hDeclared

/-- Merges replace no definition exactly when all declarations of a name agree. -/
theorem not_someOverwrites_iff : ¬ SomeOverwrites use_ contents ↔
    ∀ field ∈ mapFields, ∀ name, ∀ c ∈ use_ :: contents, ∀ c' ∈ use_ :: contents, ∀ d d',
      field.lookup c name = some d → field.lookup c' name = some d' → d = d' := by
  constructor
  · intro hKept field hField name c hC c' hC' d d' hD hD'
    have hFirst := lookup_foldl_of_kept hField hKept hC hD
    have hSecond := lookup_foldl_of_kept hField hKept hC' hD'
    exact Option.some.inj (hFirst.symm.trans hSecond)
  · rintro hAgree ⟨before, c, later, rfl, field, hField, name, d, d', hOld, hNew, hNe⟩
    obtain ⟨found, hMem, hFound⟩ := lookup_foldl hField hOld
    refine hNe (hAgree field hField name found ?_ c (by simp) d d' hFound hNew)
    rcases List.mem_cons.mp hMem with rfl | hBefore
    · exact List.mem_cons_self
    · simp [hBefore]

end Merges

section Runs

variable {env : RuntimeInner} {resolver resolver' : CatalogResolver} {source source' : SourceDefinition}
  {fuel : Nat} {fetched : List String} {result : SourceDefinition} {c c' : ComponentCollection}

/-- The collections of the endpoints that have been fetched, in the order of the fetches. -/
def fetchedCollections (env : RuntimeInner) (resolver : CatalogResolver) (fetched : List String) :
    List ComponentCollection :=
  fetched.reverse.filterMap (catalogSource env resolver).content?

/-- A resolution that finishes has merged the collections of all endpoints that can be reached. -/
theorem resolved_of_finished
    (hFinished : resolveDefinition env (some resolver) fuel source = .finished fetched result) :
    result.components = (fetchedCollections env resolver fetched).foldl mergeComponents source.components ∧
      ∀ c, c ∈ fetchedCollections env resolver fetched ↔
        ∃ uri, source.ReachesUri env resolver uri ∧ (catalogSource env resolver).content? uri = some c := by
  rw [resolveDefinition_eq] at hFinished
  split at hFinished
  · rename_i hNone
    cases hFinished
    refine ⟨rfl, fun c => ?_⟩
    have hNobody : ∀ uri, ¬ source.ReachesUri env resolver uri := by
      rintro uri ⟨root, hRoot, -⟩
      rw [hNone] at hRoot
      cases hRoot
    simp [fetchedCollections, hNobody]
  · have hNodup : ([] : List String).Nodup := List.nodup_nil
    cases hOutcome : (catalogSource env resolver).discover mergeComponents fuel
        source.catalogUris.reverse [] source.components with
    | unfinished =>
        rw [hOutcome] at hFinished
        cases hFinished
    | failed e found =>
        rw [hOutcome] at hFinished
        cases hFinished
    | finished found merged =>
        have ends : Source.Ends (catalogSource env resolver) mergeComponents
            source.catalogUris.reverse [] source.components ((catalogSource env resolver).discover
              mergeComponents fuel source.catalogUris.reverse [] source.components) :=
          Source.discover_ends hNodup (by rw [hOutcome]; simp)
        rw [hOutcome] at hFinished ends
        cases hFinished
        cases ends with
        | @finished later contents _ hContents hPending hEdges hReachable =>
            rw [List.append_nil] at *
            have hAll : ∀ uri, source.ReachesUri env resolver uri → uri ∈ later := by
              intro uri reaches
              exact Source.mem_of_reachable (by simpa using hPending) (by simpa using hEdges)
                ((reachesUri_iff uri).mp reaches)
            have hSame : fetchedCollections env resolver later = contents := by
              have hMap := congrArg (List.filterMap id) hContents
              simpa [List.filterMap_map, Function.comp_def, fetchedCollections] using hMap
            rw [hSame]
            refine ⟨rfl, fun c => (Source.mem_contents hContents).trans ?_⟩
            constructor
            · rintro ⟨uri, hUri, hContent⟩
              exact ⟨uri, (reachesUri_iff uri).mpr (hReachable uri hUri), hContent⟩
            · rintro ⟨uri, reaches, hContent⟩
              exact ⟨uri, hAll uri reaches, hContent⟩

/-- What is declared in the components of a definition and in the collections that have been
fetched. -/
theorem declaresAs_iff
    (hFinished : resolveDefinition env (some resolver) fuel source = .finished fetched result)
    {field : MapField} {name : String} {d : field.α} :
    source.DeclaresAs env resolver field name d ↔
      ∃ c ∈ source.components :: fetchedCollections env resolver fetched,
        field.lookup c name = some d := by
  have hCollections := (resolved_of_finished hFinished).2
  rw [SourceDefinition.DeclaresAs]
  constructor
  · rintro (hOwn | ⟨uri, c, reaches, hContent, hFound⟩)
    · exact ⟨_, List.mem_cons_self, hOwn⟩
    · exact ⟨c, List.mem_cons_of_mem _ ((hCollections c).mpr ⟨uri, reaches, hContent⟩), hFound⟩
  · rintro ⟨c, hMem, hFound⟩
    rcases List.mem_cons.mp hMem with rfl | hRest
    · exact Or.inl hFound
    · obtain ⟨uri, reaches, hContent⟩ := (hCollections c).mp hRest
      exact Or.inr ⟨uri, c, reaches, hContent, hFound⟩

/-- The merges of a resolution replace no definition exactly when no two declarations clash. -/
theorem noClash_iff
    (hFinished : resolveDefinition env (some resolver) fuel source = .finished fetched result) :
    NoClash env resolver source ↔
      ¬ SomeOverwrites source.components (fetchedCollections env resolver fetched) := by
  rw [not_someOverwrites_iff]
  constructor
  · intro noClash field hField name c hC c' hC' d d' hD hD'
    exact noClash field hField name d d' ((declaresAs_iff hFinished).mpr ⟨c, hC, hD⟩)
      ((declaresAs_iff hFinished).mpr ⟨c', hC', hD'⟩)
  · intro hAgree field hField name d d' hD hD'
    obtain ⟨c, hC, hFound⟩ := (declaresAs_iff hFinished).mp hD
    obtain ⟨c', hC', hFound'⟩ := (declaresAs_iff hFinished).mp hD'
    exact hAgree field hField name c hC c' hC' d d' hFound hFound'

/-- Without clashes, what is returned for a name is what is declared for it. -/
theorem lookup_result_iff (noClash : NoClash env resolver source)
    (hFinished : resolveDefinition env (some resolver) fuel source = .finished fetched result)
    {field : MapField} (hField : field ∈ mapFields) {name : String} {d : field.α} :
    field.lookup result.components name = some d ↔ source.DeclaresAs env resolver field name d := by
  rw [(resolved_of_finished hFinished).1, declaresAs_iff hFinished]
  constructor
  · exact lookup_foldl hField
  · rintro ⟨c, hMem, hFound⟩
    exact lookup_foldl_of_kept hField ((noClash_iff hFinished).mp noClash) hMem hFound

theorem mem_secrets_foldl {contents : List ComponentCollection} {use_ : ComponentCollection}
    {secret : String} : secret ∈ (contents.foldl mergeComponents use_).secrets.getD [] ↔
      secret ∈ use_.secrets.getD [] ∨ ∃ c ∈ contents, secret ∈ c.secrets.getD [] := by
  have hNames : secret ∈ (contents.foldl mergeComponents use_).names .secret ↔
      secret ∈ use_.names .secret ∨ ∃ c ∈ contents, secret ∈ c.names .secret := mem_names_foldl
  exact hNames

theorem mem_extensions_foldl {contents : List ComponentCollection} {use_ : ComponentCollection}
    {extension : List (String × ExtensionDefinition)} :
    extension ∈ (contents.foldl mergeComponents use_).extensions.getD [] ↔
      extension ∈ use_.extensions.getD [] ∨ ∃ c ∈ contents, extension ∈ c.extensions.getD [] := by
  induction contents generalizing use_ with
  | nil => simp
  | cons c rest ih =>
      rw [List.foldl_cons, ih, mergeComponents, getD_extendVec, List.mem_append]
      simp [or_assoc]

theorem localWins_of_noClash (noClash : NoClash env resolver source) :
    LocalWins env resolver source := by
  intro fuel fetched result hFinished
  refine ⟨?_, ?_, ?_⟩
  · intro field hField name d hOwn
    exact (lookup_result_iff noClash hFinished hField).mpr (Or.inl hOwn)
  · intro secret hOwn
    rw [(resolved_of_finished hFinished).1, mem_secrets_foldl]
    exact Or.inl hOwn
  · intro extension hOwn
    rw [(resolved_of_finished hFinished).1, mem_extensions_foldl]
    exact Or.inl hOwn

end Runs

section Reorderings

variable {env : RuntimeInner} {resolver resolver' : CatalogResolver} {source source' : SourceDefinition}
  {c c' : ComponentCollection} {uri : String}

theorem Reorders.symm (reorders : Reorders c c') : Reorders c' c := by
  obtain ⟨hRest, hCatalogs⟩ := reorders
  refine ⟨?_, ?_⟩
  · rw [← hRest]
  · generalize c.catalogs = rows at hCatalogs
    generalize c'.catalogs = rows' at hCatalogs
    cases hCatalogs with
    | none => exact Option.Rel.none
    | some hPerm => exact Option.Rel.some hPerm.symm

/-- If one resolver answers as another one but for the order of the catalogs, so does the other one.
-/
theorem CatalogResolver.Reorders.symm (reorders : resolver.Reorders resolver') :
    resolver'.Reorders resolver := by
  refine ⟨reorders.requiresNetwork.symm, ?_, ?_⟩
  · intro uri c' hOk
    cases hFirst : resolver.resolve uri with
    | ok c =>
        obtain ⟨found, hFound, hReorders⟩ := reorders.ok uri c hFirst
        rw [hOk] at hFound
        cases hFound
        exact ⟨c, rfl, hReorders.symm⟩
    | error e =>
        rw [reorders.error uri e hFirst] at hOk
        cases hOk
  · intro uri e hError
    cases hFirst : resolver.resolve uri with
    | ok c =>
        obtain ⟨found, hFound, -⟩ := reorders.ok uri c hFirst
        rw [hError] at hFound
        cases hFound
    | error found =>
        rw [reorders.error uri found hFirst] at hError
        cases hError
        rfl

theorem Reorders.secrets (reorders : Reorders c c') : c.secrets = c'.secrets := by
  rw [← reorders.rest]

theorem Reorders.extensions (reorders : Reorders c c') : c.extensions = c'.extensions := by
  rw [← reorders.rest]

/-- The order of the catalogs makes no difference for what is found under a name. -/
theorem Reorders.lookup (reorders : Reorders c c') {field : MapField} (hField : field ∈ mapFields)
    (name : String) : field.lookup c name = field.lookup c' name := by
  obtain ⟨hRest, hCatalogs⟩ := reorders
  simp only [mapFields, List.mem_cons, List.not_mem_nil, or_false] at hField
  rcases hField with rfl | rfl | rfl | rfl | rfl | rfl
  · rw [← hRest]; rfl
  · rw [← hRest]; rfl
  · rw [← hRest]; rfl
  · rw [← hRest]; rfl
  · rw [← hRest]; rfl
  · show (c.catalogs.bind fun map => map.get name) = c'.catalogs.bind fun map => map.get name
    generalize c.catalogs = rows at hCatalogs
    generalize c'.catalogs = rows' at hCatalogs
    cases hCatalogs with
    | none => rfl
    | some hPerm =>
        simp only [Option.bind_some, HashMap.get]
        rw [Tables.Keyed.select_congr fun row => hPerm.mem_iff]

theorem Reorders.mem_catalogUris (reorders : Reorders c c') :
    uri ∈ c.catalogUris ↔ uri ∈ c'.catalogUris := by
  have hCatalogs := reorders.catalogs
  rw [ComponentCollection.catalogUris, ComponentCollection.catalogUris]
  generalize c.catalogs = rows at hCatalogs
  generalize c'.catalogs = rows' at hCatalogs
  cases hCatalogs with
  | none => rfl
  | some hPerm => exact (hPerm.map _).mem_iff

/-- An endpoint has the same collection for both resolvers, up to the order of its catalogs. -/
theorem CatalogResolver.Reorders.content? (reorders : resolver.Reorders resolver')
    (hContent : (catalogSource env resolver).content? uri = some c) :
    ∃ c', (catalogSource env resolver').content? uri = some c' ∧ OwsRuntime.Reorders c c' := by
  obtain ⟨hAdmit, hFetch⟩ := Source.content?_eq_some hContent
  obtain ⟨c', hFound, hReorders⟩ := reorders.ok uri c hFetch
  refine ⟨c', ?_, hReorders⟩
  have hSame : (catalogSource env resolver').permit uri = .ok () := by
    rw [← hAdmit, catalogSource, catalogSource]
    simp only [reorders.requiresNetwork]
  have hFetch' : (catalogSource env resolver').fetch uri = .ok c' := hFound
  rw [Source.content?, hSame, hFetch']
  rfl

theorem CatalogResolver.Reorders.mem_edges (reorders : resolver.Reorders resolver') {next : String}
    (hEdge : next ∈ (catalogSource env resolver).edges uri) :
    next ∈ (catalogSource env resolver').edges uri := by
  rw [Source.edges] at hEdge ⊢
  cases hContent : (catalogSource env resolver).content? uri with
  | none =>
      rw [hContent] at hEdge
      cases hEdge
  | some c =>
      obtain ⟨c', hContent', hReorders⟩ := reorders.content? hContent
      rw [hContent] at hEdge
      rw [hContent']
      exact hReorders.mem_catalogUris.mp hEdge

/-- The same endpoints can be reached. -/
theorem reachesUri_reorder (hSource : Reorders source.components source'.components)
    (hResolver : resolver.Reorders resolver') (reaches : source.ReachesUri env resolver uri) :
    source'.ReachesUri env resolver' uri := by
  obtain ⟨root, hRoot, path⟩ := reaches
  refine ⟨root, hSource.mem_catalogUris.mp hRoot, ?_⟩
  exact Relation.ReflTransGen.mono (fun _ _ hEdge => hResolver.mem_edges hEdge) _ _ path

/-- The same components are declared. -/
theorem declaresAs_reorder (hSource : Reorders source.components source'.components)
    (hResolver : resolver.Reorders resolver') {field : MapField} (hField : field ∈ mapFields)
    {name : String} {d : field.α} (declares : source.DeclaresAs env resolver field name d) :
    source'.DeclaresAs env resolver' field name d := by
  rcases declares with hOwn | ⟨uri, c, reaches, hContent, hFound⟩
  · exact Or.inl (by rwa [← hSource.lookup hField])
  · obtain ⟨c', hContent', hReorders⟩ := hResolver.content? hContent
    refine Or.inr ⟨uri, c', reachesUri_reorder hSource hResolver reaches, hContent', ?_⟩
    rwa [← hReorders.lookup hField]

theorem noClash_reorder (hSource : Reorders source.components source'.components)
    (hResolver : resolver.Reorders resolver') (noClash : NoClash env resolver source) :
    NoClash env resolver' source' := by
  intro field hField name d d' hD hD'
  exact noClash field hField name d d' (declaresAs_reorder hSource.symm hResolver.symm hField hD)
    (declaresAs_reorder hSource.symm hResolver.symm hField hD')

/-- Where no two catalogs bring an entry under one name, the resolution has the same outcome in
every order of them: whatever one adds, none of the others replaces. -/
theorem orderIndependent_of_noClash (noClash : NoClash env resolver source) :
    CatalogOrderFree env resolver source := by
  intro source' resolver' hSource hResolver fuel fuel' fetched fetched' result result' hFirst hSecond
  have hCollections := (resolved_of_finished hFirst).2
  have hCollections' := (resolved_of_finished hSecond).2
  -- Both runs have merged the same collections, up to the order of their catalogs.
  have hForth : ∀ c ∈ fetchedCollections env resolver fetched,
      ∃ c' ∈ fetchedCollections env resolver' fetched', Reorders c c' := by
    intro c hC
    obtain ⟨uri, reaches, hContent⟩ := (hCollections c).mp hC
    obtain ⟨c', hContent', hReorders⟩ := hResolver.content? hContent
    exact ⟨c', (hCollections' c').mpr ⟨uri, reachesUri_reorder hSource hResolver reaches, hContent'⟩,
      hReorders⟩
  have hBack : ∀ c' ∈ fetchedCollections env resolver' fetched',
      ∃ c ∈ fetchedCollections env resolver fetched, Reorders c' c := by
    intro c' hC'
    obtain ⟨uri, reaches, hContent⟩ := (hCollections' c').mp hC'
    obtain ⟨c, hContent', hReorders⟩ := hResolver.symm.content? hContent
    exact ⟨c, (hCollections c).mpr
      ⟨uri, reachesUri_reorder hSource.symm hResolver.symm reaches, hContent'⟩, hReorders⟩
  refine ⟨?_, ?_, ?_⟩
  · intro field hField name
    apply Option.ext
    intro d
    rw [lookup_result_iff noClash hFirst hField,
      lookup_result_iff (noClash_reorder hSource hResolver noClash) hSecond hField]
    exact ⟨declaresAs_reorder hSource hResolver hField,
      declaresAs_reorder hSource.symm hResolver.symm hField⟩
  · intro secret
    rw [(resolved_of_finished hFirst).1, (resolved_of_finished hSecond).1, mem_secrets_foldl,
      mem_secrets_foldl, hSource.secrets]
    refine or_congr_right ⟨?_, ?_⟩
    · rintro ⟨c, hC, hMem⟩
      obtain ⟨c', hC', hReorders⟩ := hForth c hC
      exact ⟨c', hC', by rwa [← hReorders.secrets]⟩
    · rintro ⟨c', hC', hMem⟩
      obtain ⟨c, hC, hReorders⟩ := hBack c' hC'
      exact ⟨c, hC, by rwa [← hReorders.secrets]⟩
  · intro extension
    rw [(resolved_of_finished hFirst).1, (resolved_of_finished hSecond).1, mem_extensions_foldl,
      mem_extensions_foldl, hSource.extensions]
    refine or_congr_right ⟨?_, ?_⟩
    · rintro ⟨c, hC, hMem⟩
      obtain ⟨c', hC', hReorders⟩ := hForth c hC
      exact ⟨c', hC', by rwa [← hReorders.extensions]⟩
    · rintro ⟨c', hC', hMem⟩
      obtain ⟨c, hC, hReorders⟩ := hBack c' hC'
      exact ⟨c, hC, by rwa [← hReorders.extensions]⟩

end Reorderings

/-- Without clashes the order of the catalogs makes no difference and the components of a
definition are kept. With a clash, every resolution that finishes has replaced a definition
by another one. -/
theorem catalog_order (env : RuntimeInner) (resolver : CatalogResolver) (source : SourceDefinition) :
    (NoClash env resolver source →
      CatalogOrderFree env resolver source ∧ LocalWins env resolver source) ∧
    ∀ fuel fetched result,
      resolveDefinition env (some resolver) fuel source = .finished fetched result →
        (NoClash env resolver source ↔
          ¬ SomeOverwrites source.components (fetchedCollections env resolver fetched)) :=
  ⟨fun noClash => ⟨orderIndependent_of_noClash noClash, localWins_of_noClash noClash⟩,
    fun _ _ _ hFinished => noClash_iff hFinished⟩

namespace Sample

/-- A collection with one authentication policy. -/
def authenticating (policy : String) : ComponentCollection :=
  { ComponentCollection.empty with
    authentications := some ((Tables.Keyed.empty _).upsert ("auth", .string policy)) }

/-- Two endpoints which declare the same name. -/
def clashingResolver : CatalogResolver where
  resolve uri := .ok (authenticating uri)
  requiresNetwork := false

/-- A policy of its own, and catalogs in a given order. -/
def clashing (catalogs : List (String × String)) : SourceDefinition :=
  importing { authenticating "own" with catalogs := some (catalogMap catalogs) }

def authField : MapField := ⟨Value, (·.authentications)⟩

end Sample

/-- The policy that is returned is that of the catalog visited last, and never the own one. -/
theorem clashing_overwritten :
    (¬ ∀ env resolver source, CatalogOrderFree env resolver source) ∧
      ¬ ∀ env resolver source, LocalWins env resolver source := by
  have hField : Sample.authField ∈ mapFields := List.mem_cons_self
  constructor
  · intro hAll
    have hReorders : Reorders (Sample.clashing [("a", "file:///a"), ("b", "file:///b")]).components
        (Sample.clashing [("b", "file:///b"), ("a", "file:///a")]).components :=
      ⟨rfl, Option.Rel.some (List.Perm.swap _ _ _)⟩
    have hSame : Sample.clashingResolver.Reorders Sample.clashingResolver :=
      ⟨rfl, fun _ c hOk => ⟨c, hOk, rfl, by cases c.catalogs <;> constructor; exact List.Perm.refl _⟩,
        fun _ _ hError => hError⟩
    have hPolicies : some (Value.string "file:///a") = some (.string "file:///b") := (hAll Sample.runtime Sample.clashingResolver
      (Sample.clashing [("a", "file:///a"), ("b", "file:///b")]) _ _ hReorders hSame 2 2 _ _ _ _ rfl
        rfl).maps _ hField "auth"
    exact absurd hPolicies (by decide)
  · intro hAll
    have hKept : some (Value.string "file:///a") = some (.string "own") := (hAll Sample.runtime Sample.clashingResolver (Sample.clashing [("a", "file:///a")]) 1
      _ _ rfl).maps _ hField "auth" (.string "own") rfl
    exact absurd hKept (by decide)

end OwsRuntime
