import OwsRuntime.Core.Equality
import OwsRuntime.Engine.Placeholders
import OwsRuntime.Engine.Runs

/-! The placeholders of a URI and of the path of an OpenAPI operation. Values are put in for
them one template after another, each in the text which the ones before it have left. -/
namespace OwsRuntime

/-- The placeholders of a name that are left when some names have been put in. -/
def placesLeft (ps : List Part) (names : List String) (name : String) : Nat :=
  if name ∈ names then 0 else ps.count (.place name)

/-- In the text in which some of the values have been put in for their placeholders, the
template of the next name stands for the placeholders of that name and nowhere else. -/
def TemplatesApart (ps : List Part) (order : List (String × String)) : Prop :=
  ∀ before name value after, order = before ++ (name, value) :: after →
    occurrences (template name) (substitute (List.lookup · before) ps) =
      placesLeft ps (before.map Prod.fst) name

/-- Each replacement is made in the text that is there, and finds its template where the original
text has a placeholder and nowhere else. -/
def ReplacesOnce (ps : List Part) (order : List (String × String)) : Prop :=
  ∀ before name value after, order = before ++ (name, value) :: after →
    occurrences (template name) (expandPath (sourceText ps) before) =
      placesLeft ps (before.map Prod.fst) name

section Orders

variable {ps : List Part} {order before : List (String × String)} {name value : String}

theorem expandPath_append (url : List Char) (before after : List (String × String)) :
    expandPath url (before ++ after) = expandPath (expandPath url before) after := by
  induction before generalizing url with
  | nil => rfl
  | cons entry before ih => exact ih _

theorem expandPath_snoc (url : List Char) :
    expandPath url (before ++ [(name, value)]) =
      replaced (template name) value.toList (expandPath url before) := by
  rw [expandPath_append]
  rfl

/-- What one more name leaves of a text in which its template is apart. -/
theorem replaced_substitute
    (hApart : occurrences (template name) (substitute (List.lookup · before) ps) =
      placesLeft ps (before.map Prod.fst) name) :
    replaced (template name) value.toList (substitute (List.lookup · before) ps) =
      substitute (List.lookup · (before ++ [(name, value)])) ps := by
  have hOnly : occurrences (template name) (sourceText (putAll before ps)) =
      (putAll before ps).count (.place name) := by
    rw [sourceText_putAll, count_putAll]
    exact hApart
  have hPut : putAll (before ++ [(name, value)]) ps = putIn name value (putAll before ps) := by
    clear hApart hOnly
    induction before generalizing ps with
    | nil => rfl
    | cons entry before ih => exact ih
  rw [← sourceText_putAll, replaced_sourceText hOnly, ← hPut, sourceText_putAll]

/-- A run of replacements, at a point in it. Each step may use what the ones before it left. -/
theorem expandPath_before {after : List (String × String)} (hOrder : order = before ++ after)
    (hNext : ∀ before name value after, order = before ++ (name, value) :: after →
      expandPath (sourceText ps) before = substitute (List.lookup · before) ps →
        occurrences (template name) (substitute (List.lookup · before) ps) =
          placesLeft ps (before.map Prod.fst) name) :
    expandPath (sourceText ps) before = substitute (List.lookup · before) ps := by
  induction before using List.reverseRecOn generalizing after with
  | nil => exact substitute_none.symm
  | append_singleton before entry ih =>
      obtain ⟨name, value⟩ := entry
      rw [List.append_assoc] at hOrder
      have hBefore := ih hOrder
      rw [expandPath_snoc, hBefore]
      exact replaced_substitute (hNext before name value after hOrder hBefore)

theorem expandPath_of_apart (hApart : TemplatesApart ps order) :
    expandPath (sourceText ps) order = substitute (List.lookup · order) ps :=
  expandPath_before (List.append_nil order).symm fun before name value after hOrder _ =>
    hApart before name value after hOrder

/-- The replacements find what they should exactly when the templates are apart. -/
theorem replacesOnce_iff : ReplacesOnce ps order ↔ TemplatesApart ps order := by
  constructor
  · intro hOnce before name value after hOrder
    have hBefore : expandPath (sourceText ps) before = substitute (List.lookup · before) ps := by
      refine expandPath_before hOrder fun before name value after hOrder hBefore => ?_
      rw [← hBefore]
      exact hOnce before name value after hOrder
    rw [← hBefore]
    exact hOnce before name value after hOrder
  · intro hApart before name value after hOrder
    have hBefore : expandPath (sourceText ps) before = substitute (List.lookup · before) ps :=
      expandPath_before hOrder fun before name value after hOrder _ =>
        hApart before name value after hOrder
    rw [hBefore]
    exact hApart before name value after hOrder

theorem substitute_congr {value other : String → Option String}
    (hSame : ∀ name, Part.place name ∈ ps → value name = other name) :
    substitute value ps = substitute other ps := by
  induction ps with
  | nil => rfl
  | cons p ps ih =>
      rw [substitute_cons, substitute_cons, ih fun name hMem => hSame name (List.mem_cons_of_mem _ hMem)]
      congr 1
      cases p with
      | char c => rfl
      | place name => rw [Part.fill, Part.fill, hSame name List.mem_cons_self]

end Orders

/-- The texts in which the replacements of a run are made, each with the name. -/
def textsSoFar : List (String × String) → List Char → List (String × List Char)
  | [], _ => []
  | (name, value) :: order, text =>
      (name, text) :: textsSoFar order (replaced (template name) value.toList text)

/-- To look at every text on the way is to look at the template after each beginning of the order.
The induction is on the order. -/
theorem textsSoFar_forall {order : List (String × String)} {text : List Char}
    {holds : List String → String → List Char → Prop} :
    (∀ before name now after, textsSoFar order text = before ++ (name, now) :: after →
      holds (before.map Prod.fst) name now) ↔
    ∀ before name value after, order = before ++ (name, value) :: after →
      holds (before.map Prod.fst) name (expandPath text before) := by
  induction order generalizing text holds with
  | nil =>
      refine iff_of_true ?_ ?_
      · intro before name now after hNil
        exact absurd hNil.symm (List.append_ne_nil_of_right_ne_nil _ (List.cons_ne_nil _ _))
      · intro before name value after hNil
        exact absurd hNil.symm (List.append_ne_nil_of_right_ne_nil _ (List.cons_ne_nil _ _))
  | cons entry order ih =>
      obtain ⟨first, value⟩ := entry
      have hRest := @ih (replaced (template first) value.toList text)
        fun names => holds (first :: names)
      constructor
      · intro hAll before name value' after hOrder
        cases before with
        | nil =>
            cases hOrder
            exact hAll [] first text _ rfl
        | cons entry before =>
            cases hOrder
            refine hRest.mp ?_ before name value' after rfl
            intro before name now after hTexts
            exact hAll ((first, text) :: before) name now after (congrArg _ hTexts)
      · intro hAll before name now after hTexts
        cases before with
        | nil =>
            cases hTexts
            exact hAll [] first value order rfl
        | cons entry before =>
            obtain ⟨rfl, hTail⟩ := List.cons.inj hTexts
            refine hRest.mpr ?_ before name now after hTail
            intro before name value' after hOrder
            exact hAll ((first, value) :: before) name value' after (congrArg _ hOrder)

namespace RuntimeInner

section Uri

variable (env : RuntimeInner)

/-- The text of a field of the workflow's input. -/
def inputText (workflow : Value) (name : String) : Option String :=
  ((workflow.get? "input").bind (·.get? name)).map env.textOf

/-- The placeholders whose names are fields of the input, with the texts of these. -/
def inputPlaces (workflow : Value) (ps : List Part) : List (String × String) :=
  ps.filterMap fun
    | .char _ => none
    | .place name => (env.inputText workflow name).map (name, ·)

/-- The replacements of `expand_uri_template`: the name of each, and the text `out` in which it
is made. -/
def replacementsFrom (input : Option Value) :
    Nat → List Char → List Char → List (String × List Char)
  | 0, _, _ => []
  | _ + 1, [], _ => []
  | fuel + 1, c :: rest, out =>
      if c = '\x7b' ∧ '\x7d' ∈ rest then
        let name := rest.takeWhile (· ≠ '\x7d')
        let next := (rest.dropWhile (· ≠ '\x7d')).drop 1
        match input.bind (·.get? (String.ofList name)) with
        | some v =>
            (String.ofList name, out) :: replacementsFrom input fuel next
              (replaceAll ('\x7b' :: name ++ ['\x7d']) (env.textOf v).toList (out.length + 1) out)
        | none => replacementsFrom input fuel next out
      else replacementsFrom input fuel rest out

def replacements (uri : String) (workflow : Value) : List (String × List Char) :=
  env.replacementsFrom (workflow.get? "input") (uri.length + 1) uri.toList uri.toList

/-- The URI is its text with the fields of the input in the places for them, and no replacement
is made anywhere else. -/
structure ExpandsOnce (uri : String) (workflow : Value) : Prop where
  result : env.expandUriTemplate uri workflow =
    String.ofList (substitute (env.inputText workflow) (parts uri.toList))
  once : ∀ before name text after,
    env.replacements uri workflow = before ++ (name, text) :: after →
      occurrences (template name) text =
        placesLeft (parts uri.toList) (before.map Prod.fst) name

variable {env} {uri : String} {workflow : Value} {fuel : Nat} {scan out : List Char}

theorem inputPlaces_place {name : String} {ps : List Part} :
    env.inputPlaces workflow (.place name :: ps) =
      match (workflow.get? "input").bind (·.get? name) with
      | some v => (name, env.textOf v) :: env.inputPlaces workflow ps
      | none => env.inputPlaces workflow ps := by
  cases hField : (workflow.get? "input").bind (·.get? name) with
  | none => simp only [inputPlaces, inputText, hField, List.filterMap_cons, Option.map_none]
  | some v => simp only [inputPlaces, inputText, hField, List.filterMap_cons, Option.map_some]

/-- The scan puts in the fields of the input in the order of their placeholders. -/
theorem expandFrom_eq : env.expandFrom (workflow.get? "input") fuel scan out =
    expandPath out (env.inputPlaces workflow (partsFrom fuel scan)) := by
  induction fuel generalizing scan out with
  | zero => rfl
  | succ fuel ih =>
      cases scan with
      | nil => rfl
      | cons c rest =>
          rw [expandFrom, partsFrom]
          split
          next hPlace =>
              rw [inputPlaces_place]
              cases hField : (workflow.get? "input").bind
                  (·.get? (String.ofList (rest.takeWhile (· ≠ '\x7d')))) with
              | none =>
                  simp only [hField]
                  exact ih
              | some v =>
                  simp only [hField, expandPath, template, String.toList_ofList]
                  exact ih
          next => exact ih

/-- The replacements that a scan collects are the texts of the placeholders it finds, after what had
been collected before. -/
theorem replacementsFrom_eq : env.replacementsFrom (workflow.get? "input") fuel scan out =
    textsSoFar (env.inputPlaces workflow (partsFrom fuel scan)) out := by
  induction fuel generalizing scan out with
  | zero => rfl
  | succ fuel ih =>
      cases scan with
      | nil => rfl
      | cons c rest =>
          rw [replacementsFrom, partsFrom]
          split
          next hPlace =>
              rw [inputPlaces_place]
              cases hField : (workflow.get? "input").bind
                  (·.get? (String.ofList (rest.takeWhile (· ≠ '\x7d')))) with
              | none =>
                  simp only [hField]
                  exact ih
              | some v =>
                  simp only [hField, textsSoFar, replaced, template, String.toList_ofList]
                  exact congrArg _ ih
          next => exact ih

/-- A placeholder of the template is filled with the text of the input under its name, if the input
has one, wherever the placeholder stands. -/
theorem lookup_inputPlaces {ps : List Part} {name : String} (hMem : Part.place name ∈ ps) :
    (env.inputPlaces workflow ps).lookup name = env.inputText workflow name := by
  cases hText : env.inputText workflow name with
  | none =>
      refine List.lookup_eq_none_iff.mpr fun entry hEntry => ?_
      obtain ⟨p, _, hPlace⟩ := List.mem_filterMap.mp hEntry
      cases p with
      | char c => cases hPlace
      | place other =>
          obtain ⟨text, hOther, rfl⟩ := Option.map_eq_some_iff.mp hPlace
          refine bne_iff_ne.mpr fun hSame : name = other => ?_
          rw [← hSame, hText] at hOther
          cases hOther
  | some text =>
      have hEntry : (name, text) ∈ env.inputPlaces workflow ps :=
        List.mem_filterMap.mpr ⟨_, hMem, by simp [hText]⟩
      cases hLookup : (env.inputPlaces workflow ps).lookup name with
      | none =>
          have hNever := List.lookup_eq_none_iff.mp hLookup (name, text) hEntry
          exact absurd rfl (bne_iff_ne.mp hNever)
      | some other =>
          obtain ⟨before, after, hSplit, _⟩ := List.lookup_eq_some_iff.mp hLookup
          have hOther : (name, other) ∈ env.inputPlaces workflow ps := by
            rw [hSplit]
            exact List.mem_append_right _ List.mem_cons_self
          obtain ⟨p, _, hPlace⟩ := List.mem_filterMap.mp hOther
          cases p with
          | char c => cases hPlace
          | place third =>
              obtain ⟨text', hText', hPair⟩ := Option.map_eq_some_iff.mp hPlace
              cases hPair
              rw [hText] at hText'
              exact hText'.symm

/-- A URI is expanded once exactly when its templates are apart: at each replacement, the template
stands for the placeholders of its name and nowhere else. -/
theorem expandsOnce_iff : env.ExpandsOnce uri workflow ↔
    TemplatesApart (parts uri.toList) (env.inputPlaces workflow (parts uri.toList)) := by
  have hSource : sourceText (parts uri.toList) = uri.toList := sourceText_parts _
  have hFuel : uri.toList.length = uri.length := String.length_toList
  have hOnce : (∀ before name text after,
      env.replacements uri workflow = before ++ (name, text) :: after →
        occurrences (template name) text =
          placesLeft (parts uri.toList) (before.map Prod.fst) name) ↔
      ReplacesOnce (parts uri.toList) (env.inputPlaces workflow (parts uri.toList)) := by
    rw [ReplacesOnce, hSource, replacements, replacementsFrom_eq, ← hFuel]
    exact @textsSoFar_forall _ _ fun names name text =>
      occurrences (template name) text = placesLeft (parts uri.toList) names name
  constructor
  · intro expands
    exact replacesOnce_iff.mp (hOnce.mp expands.once)
  · intro hApart
    refine ⟨?_, hOnce.mpr (replacesOnce_iff.mpr hApart)⟩
    have hExpanded := expandPath_of_apart hApart
    rw [hSource] at hExpanded
    rw [expandUriTemplate, expandFrom_eq, ← hFuel]
    refine congrArg String.ofList (hExpanded.trans (substitute_congr fun name hMem => ?_))
    exact lookup_inputPlaces hMem

end Uri

section Path

variable (env : RuntimeInner) (net : Surroundings) (req : FunctionRequest)
  (docUri operationId : String) (spec : Value) (path : String) (params : Map)

/-- The parameters of the path, in the order in which they are visited. -/
def pathParams (path : String) (entries : Map) : List (String × String) :=
  (entries.map fun entry => (entry.1, env.textOf entry.2)).filter fun entry =>
    containsText path.toList (template entry.1)

/-- The text of the server, without the slashes at its end. -/
def serverText (docUri : String) (spec : Value) : List Char :=
  (trimEndSlashes (serverUrl spec docUri)).toList

/-- The parts of the URL. Only the path has placeholders. -/
def urlParts (docUri : String) (spec : Value) (path : String) : List Part :=
  chars (serverText docUri spec) ++ parts path.toList

/-- The URL is the server's and then the path with its parameters in the places for them, in
whichever order they are visited, and no replacement is made anywhere else. -/
def FillsPathOnce : Prop :=
  ∀ net : Surroundings, (∀ entries, (net.iteration entries).Perm entries) →
    ∃ request, env.operationRequest net req docUri operationId spec = .ok request ∧
      request.uri = String.ofList (serverText docUri spec ++
        substitute (fun name => (params.lookup name).map env.textOf) (parts path.toList)) ∧
      ReplacesOnce (urlParts docUri spec path) (env.pathParams path (net.iteration params))

variable {env net req docUri operationId spec path params} {method name : String}

theorem lookup_of_perm {entries : Map} (hKeys : (params.map Prod.fst).Nodup)
    (hPerm : entries.Perm params) : entries.lookup name = params.lookup name := by
  have hOther : (entries.map Prod.fst).Nodup := (hPerm.map Prod.fst).nodup_iff.mpr hKeys
  cases hLookup : params.lookup name with
  | none =>
      rw [List.lookup_eq_none_iff] at hLookup ⊢
      exact fun entry hMem => hLookup entry (hPerm.mem_iff.mp hMem)
  | some value =>
      obtain ⟨before, after, hSplit, _⟩ := List.lookup_eq_some_iff.mp hLookup
      have hMem : (name, value) ∈ params := by
        rw [hSplit]
        exact List.mem_append_right _ List.mem_cons_self
      exact Map.lookup_of_mem hOther (hPerm.mem_iff.mpr hMem)

/-- The template of a placeholder stands in the path, and so its parameter is one of the path. -/
theorem lookup_pathParams {entries : Map} (hMem : Part.place name ∈ parts path.toList) :
    (env.pathParams path entries).lookup name = (entries.lookup name).map env.textOf := by
  have hContains : containsText path.toList (template name) = true := by
    have hCount := List.count_pos_iff.mpr hMem
    have hLeast : (parts path.toList).count (.place name) ≤
        occurrences (template name) (sourceText (parts path.toList)) := count_le_occurrences
    rw [sourceText_parts] at hLeast
    exact containsText_of_occurrences (by omega)
  induction entries with
  | nil => rfl
  | cons entry entries ih =>
      rw [pathParams] at ih ⊢
      rw [List.map_cons, List.filter_cons, List.lookup_cons]
      by_cases hSame : name = entry.1
      · have hBeq : (name == entry.1) = true := beq_iff_eq.mpr hSame
        rw [← hSame, if_pos hContains, List.lookup_cons_self, hSame, beq_self_eq_true]
        rfl
      · have hBeq : (name == entry.1) = false := beq_false_of_ne hSame
        rw [hBeq]
        split
        · rw [List.lookup_cons, hBeq, ih]
        · exact ih

theorem operationRequest_eq (net : Surroundings) (docUri : String)
    (hFound : findOperation spec operationId = some (method, path))
    (hParams : env.interpolateParams req.context req.args = .ok params) :
    ∃ request, env.operationRequest net req docUri operationId spec = .ok request ∧
      request.uri = String.ofList (expandPath (sourceText (urlParts docUri spec path))
        (env.pathParams path (net.iteration params))) := by
  have hSource : sourceText (urlParts docUri spec path) =
      (trimEndSlashes (serverUrl spec docUri) ++ path).toList := by
    rw [urlParts, sourceText_append, sourceText_chars, sourceText_parts, String.toList_append,
      serverText]
  rw [operationRequest, hFound, hSource]
  simp only [hParams, List.partition_eq_filter_filter]
  exact ⟨_, rfl, rfl⟩

/-- The path is filled once exactly when its templates are apart in every order. -/
theorem fillsPathOnce_iff (hFound : findOperation spec operationId = some (method, path))
    (hParams : env.interpolateParams req.context req.args = .ok params)
    (hKeys : (params.map Prod.fst).Nodup) :
    env.FillsPathOnce req docUri operationId spec path params ↔
      ∀ entries : Map, entries.Perm params →
        TemplatesApart (urlParts docUri spec path) (env.pathParams path entries) := by
  constructor
  · intro fills entries hPerm
    let net : Surroundings :=
      { answer := fun _ _ => .error "", redirected := fun _ _ => none
        iteration := fun other => if other = params then entries else other
        broker := fun _ => .ok .null }
    have hIterates (other : Map) : (net.iteration other).Perm other := by
      by_cases hSame : other = params
      · rw [show net.iteration other = entries from if_pos hSame, hSame]
        exact hPerm
      · rw [show net.iteration other = other from if_neg hSame]
    obtain ⟨_, _, _, hOnce⟩ := fills net hIterates
    rw [show net.iteration params = entries from if_pos rfl] at hOnce
    exact replacesOnce_iff.mp hOnce
  · intro hApart net hIterates
    have hOrder := hApart (net.iteration params) (hIterates params)
    obtain ⟨request, hRequest, hUri⟩ := operationRequest_eq net docUri hFound hParams
    refine ⟨request, hRequest, ?_, replacesOnce_iff.mpr hOrder⟩
    rw [hUri, expandPath_of_apart hOrder, urlParts, substitute_append, substitute_chars]
    refine congrArg (fun text => String.ofList (serverText docUri spec ++ text))
      (substitute_congr fun name hMem => ?_)
    rw [lookup_pathParams hMem, lookup_of_perm hKeys (hIterates params)]

end Path

end RuntimeInner

namespace Sample

/-- A document with one operation, which has a path. -/
def pathSpec (path : String) : Value :=
  .object [("paths", .object [(path, .object [("get", .object [("operationId", .string "show")])])]),
    ("servers", .array [.object [("url", .string "https://x/")]])]

def paramsCall (params : Map) : FunctionRequest :=
  { name := "openapi", args := [("parameters", .object params)]
    context := { context := .null, input := .null, output := .null, secrets := [], authorization := none
                 task := none, workflow := none, runtime := none, extraVars := [] } }

def petPath : String := "/pet/\x7bpetId\x7d"

/-- Two placeholders. The value of the first is the template of the second. -/
def pairPath : String := "/\x7ba\x7d\x7bb\x7d"

def pairParams : Map := [("a", .string "\x7bb\x7d"), ("b", .string "1")]

def visitedInOrder : Surroundings :=
  { answer := fun _ _ => .error "", redirected := fun _ _ => none, iteration := id
    broker := fun _ => .ok .null }

end Sample

end OwsRuntime
