import Mathlib.Data.Set.Finite.Basic
import OwsRuntime.Properties.NetworkPolicy

/-! Policies that allow fewer hosts or schemes. They permit less as long as no list is
emptied: an empty list allows everything. -/
namespace OwsRuntime

/-- Removes entries from the allow lists of a runtime. -/
def RuntimeInner.narrowed (env : RuntimeInner) (hosts schemes : List String) : RuntimeInner :=
  { env with policy := { env.policy with allowedHosts := hosts, allowedSchemes := schemes } }

/-- The lower case letters of ASCII. -/
def isLowerLetter (c : Char) : Bool := 'a' ≤ c ∧ c ≤ 'z'

def isSchemeChar (c : Char) : Bool :=
  isLowerLetter c || ('0' ≤ c ∧ c ≤ '9') || c == '+' || c == '-' || c == '.'

/-- A scheme, as the URL parser gives it back. -/
def isScheme (scheme : String) : Bool :=
  match scheme.toList with
  | [] => false
  | c :: rest => isLowerLetter c && rest.all isSchemeChar

/-- A name of letters, which is a host for every scheme. -/
def isHostWord (host : String) : Bool :=
  !host.isEmpty && host.toList.all isLowerLetter && host != "localhost"

/-- The schemes whose hosts are not taken as they are. -/
def specialSchemes : List String := ["http", "https", "ws", "wss", "ftp", "file"]

/-- What the URL parser promises of schemes and hosts. -/
structure UrlParser (parseUrl : String → Except String (String × Option String)) : Prop where
  scheme : ∀ {uri scheme host}, parseUrl uri = .ok (scheme, host) → isScheme scheme = true
  word : ∀ {scheme host}, isScheme scheme = true → isHostWord host = true →
    parseUrl (scheme ++ "://" ++ host ++ "/") = .ok (scheme, some host)
  /-- The host of a URL may stand after every scheme that is not a special one. -/
  opaqueHost : ∀ {uri scheme host other}, parseUrl uri = .ok (scheme, host) →
    isScheme other = true → other ∉ specialSchemes → ∃ uri', parseUrl uri' = .ok (other, host)

section Fresh

/-- A word of so many letters. -/
def letters (n : Nat) : String := String.ofList (List.replicate n 'a')

theorem letters_injective : Function.Injective letters := by
  intro m n hSame
  have hLists : List.replicate m 'a' = List.replicate n 'a' := String.ofList_injective hSame
  simpa using congrArg List.length hLists

theorem exists_letters_notMem (texts : List String) : ∃ n, letters (n + 1) ∉ texts := by
  have hInfinite := Set.infinite_range_of_injective (letters_injective.comp Nat.succ_injective)
  obtain ⟨text, ⟨n, rfl⟩, hNot⟩ := hInfinite.exists_notMem_finite texts.finite_toSet
  exact ⟨n, hNot⟩

theorem isScheme_letters (n : Nat) : isScheme (letters (n + 1)) = true := by
  simp [isScheme, letters, List.replicate_succ, isSchemeChar, isLowerLetter]

theorem isHostWord_letters {n : Nat} (hNot : letters (n + 1) ≠ "localhost") :
    isHostWord (letters (n + 1)) = true := by
  have hEmpty : (letters (n + 1)).isEmpty = false := by
    rw [Bool.eq_false_iff, ne_eq, String.isEmpty_iff]
    intro hSame
    have hLength := congrArg String.length hSame
    simp [letters] at hLength
  have hLetters : (letters (n + 1)).toList.all isLowerLetter = true := by
    simp [letters, isLowerLetter]
  rw [isHostWord, hEmpty, hLetters, bne_iff_ne.mpr hNot]
  rfl

end Fresh

section Lists

variable {policy : RuntimePolicy} {host scheme : String}

/-- An entry of the allowed hosts covers a host: the host itself, or a domain above it. -/
def CoversHost (allowed host : String) : Prop :=
  host = allowed ∨ ("." ++ allowed).toList <:+ host.toList

theorem hostAllowed_iff : policy.hostAllowed host = true ↔
    policy.allowNetwork = true ∧
      (policy.allowedHosts = [] ∨ ∃ allowed ∈ policy.allowedHosts, CoversHost allowed host) := by
  simp [RuntimePolicy.hostAllowed, CoversHost]

theorem schemeAllowed_iff : policy.schemeAllowed scheme = true ↔
    policy.allowNetwork = true ∧ (policy.allowedSchemes = [] ∨ scheme ∈ policy.allowedSchemes) := by
  simp [RuntimePolicy.schemeAllowed]

/-- A word has no domain above it. -/
theorem not_coversHost_letters {n : Nat} {allowed : String} (hNot : letters n ≠ allowed) :
    ¬ CoversHost allowed (letters n) := by
  rintro (hSame | ⟨before, hSuffix⟩)
  · exact hNot hSame
  · have hDot : '.' ∈ (letters n).toList := by
      rw [← hSuffix]
      simp
    simp [letters] at hDot

end Lists

section Narrowing

variable {env : RuntimeInner} {hosts schemes : List String} {uri : String}

theorem accepts_iff : env.Accepts uri ↔ ∃ scheme host, env.parseUrl uri = .ok (scheme, host) ∧
    env.policy.schemeAllowed scheme = true ∧ env.policy.hostAllowed (host.getD "") = true := by
  rw [RuntimeInner.Accepts, RuntimeInner.enforceNetworkPolicy]
  cases hParse : env.parseUrl uri with
  | error e => simp
  | ok parsed =>
      obtain ⟨scheme, host⟩ := parsed
      cases hScheme : env.policy.schemeAllowed scheme <;>
        cases hHost : env.policy.hostAllowed (host.getD "") <;> simp [hScheme, hHost]

theorem accepts_of_parse (env : RuntimeInner) {scheme : String} {host : Option String}
    (hParse : env.parseUrl uri = .ok (scheme, host)) : env.Accepts uri ↔
      env.policy.schemeAllowed scheme = true ∧ env.policy.hostAllowed (host.getD "") = true := by
  rw [accepts_iff]
  constructor
  · rintro ⟨other, otherHost, hOther, hAllowed⟩
    cases hParse.symm.trans hOther
    exact hAllowed
  · exact fun hAllowed => ⟨scheme, host, hParse, hAllowed⟩

/-- A list that is not emptied allows less when entries are removed. -/
theorem accepts_of_narrowed (hHosts : hosts ⊆ env.policy.allowedHosts)
    (hSchemes : schemes ⊆ env.policy.allowedSchemes)
    (keepHosts : hosts = [] → env.policy.allowedHosts = [])
    (keepSchemes : schemes = [] → env.policy.allowedSchemes = [])
    (accepts : (env.narrowed hosts schemes).Accepts uri) : env.Accepts uri := by
  obtain ⟨scheme, host, hParse, hScheme, hHost⟩ := accepts_iff.mp accepts
  obtain ⟨hNetwork, hScheme⟩ := schemeAllowed_iff.mp hScheme
  obtain ⟨_, hHost⟩ := hostAllowed_iff.mp hHost
  refine accepts_iff.mpr ⟨scheme, host, hParse, ?_, ?_⟩
  · exact schemeAllowed_iff.mpr ⟨hNetwork, hScheme.imp keepSchemes fun hMem => hSchemes hMem⟩
  · refine hostAllowed_iff.mpr ⟨hNetwork, hHost.imp keepHosts ?_⟩
    exact fun ⟨allowed, hMem, hCovers⟩ => ⟨allowed, hHosts hMem, hCovers⟩

/-- With the hosts emptied, a host that was not allowed is reached by an allowed scheme. -/
theorem exists_enlarged_host (url : UrlParser env.parseUrl)
    (hNetwork : env.policy.allowNetwork = true)
    (hAllowed : env.policy.allowedHosts ≠ [])
    (hScheme : schemes = [] ∨ ∃ scheme ∈ schemes, isScheme scheme = true) :
    ∃ uri, (env.narrowed [] schemes).Accepts uri ∧ ¬ env.Accepts uri := by
  obtain ⟨scheme, hScheme, hListed⟩ :
      ∃ scheme, isScheme scheme = true ∧ (schemes = [] ∨ scheme ∈ schemes) := by
    rcases hScheme with hNone | ⟨scheme, hMem, hScheme⟩
    · exact ⟨"http", by decide, Or.inl hNone⟩
    · exact ⟨scheme, hScheme, Or.inr hMem⟩
  obtain ⟨n, hFresh⟩ := exists_letters_notMem ("localhost" :: env.policy.allowedHosts)
  rw [List.mem_cons, not_or] at hFresh
  have hParse := url.word hScheme (isHostWord_letters hFresh.1)
  refine ⟨_, (accepts_of_parse (env.narrowed [] schemes) hParse).mpr ⟨?_, ?_⟩, fun accepts => ?_⟩
  · exact schemeAllowed_iff.mpr ⟨hNetwork, hListed⟩
  · exact hostAllowed_iff.mpr ⟨hNetwork, Or.inl rfl⟩
  · obtain ⟨_, hNone | ⟨allowed, hMem, hCovers⟩⟩ :=
      hostAllowed_iff.mp ((accepts_of_parse env hParse).mp accepts).2
    · exact hAllowed hNone
    · exact not_coversHost_letters (fun hSame => hFresh.2 (hSame ▸ hMem)) hCovers

/-- With the schemes emptied, a host that is allowed is reached by a scheme that was not. -/
theorem exists_enlarged_scheme (url : UrlParser env.parseUrl)
    (hNetwork : env.policy.allowNetwork = true) (hAllowed : env.policy.allowedSchemes ≠ [])
    {scheme : String} {host : Option String} (hParse : env.parseUrl uri = .ok (scheme, host))
    (hHost : (env.narrowed hosts []).policy.hostAllowed (host.getD "") = true) :
    ∃ uri, (env.narrowed hosts []).Accepts uri ∧ ¬ env.Accepts uri := by
  obtain ⟨n, hFresh⟩ := exists_letters_notMem (specialSchemes ++ env.policy.allowedSchemes)
  rw [List.mem_append, not_or] at hFresh
  obtain ⟨uri', hOther⟩ := url.opaqueHost hParse (isScheme_letters n) hFresh.1
  refine ⟨uri', (accepts_of_parse (env.narrowed hosts []) hOther).mpr ⟨?_, hHost⟩,
    fun accepts => ?_⟩
  · exact schemeAllowed_iff.mpr ⟨hNetwork, Or.inl rfl⟩
  · obtain ⟨_, hNone | hMem⟩ := schemeAllowed_iff.mp ((accepts_of_parse env hOther).mp accepts).1
    · exact hAllowed hNone
    · exact hFresh.2 hMem

/-- The entries that are left allow nothing: no URL has one of these schemes, or no URL
has one of these hosts. -/
def RuntimeInner.Barred (env : RuntimeInner) (hosts schemes : List String) : Prop :=
  (schemes ≠ [] ∧ ∀ scheme ∈ schemes, isScheme scheme = false) ∨
    (hosts ≠ [] ∧ ∀ uri scheme host, env.parseUrl uri = .ok (scheme, host) →
      ∀ allowed ∈ hosts, ¬ CoversHost allowed (host.getD ""))

theorem not_accepts_of_barred (url : UrlParser env.parseUrl) (barred : env.Barred hosts schemes) :
    ¬ (env.narrowed hosts schemes).Accepts uri := by
  intro accepts
  obtain ⟨scheme, host, hParse, hScheme, hHost⟩ := accepts_iff.mp accepts
  rcases barred with ⟨hSome, hNone⟩ | ⟨hSome, hNone⟩
  · obtain ⟨_, hEmpty | hMem⟩ := schemeAllowed_iff.mp hScheme
    · exact hSome hEmpty
    · exact Bool.false_ne_true ((hNone scheme hMem).symm.trans (url.scheme hParse))
  · obtain ⟨_, hEmpty | ⟨allowed, hMem, hCovers⟩⟩ := hostAllowed_iff.mp hHost
    · exact hSome hEmpty
    · exact hNone uri scheme host hParse allowed hMem hCovers

/-- Removing entries from the allow lists permits nothing new if and only if the network is
off, no list is emptied that was not empty, or what is left allows no URL at all. -/
theorem narrowing_iff (url : UrlParser env.parseUrl) (hHosts : hosts ⊆ env.policy.allowedHosts)
    (hSchemes : schemes ⊆ env.policy.allowedSchemes) :
    (∀ uri, (env.narrowed hosts schemes).Accepts uri → env.Accepts uri) ↔
      env.policy.allowNetwork = false ∨
        ((hosts = [] → env.policy.allowedHosts = []) ∧
          (schemes = [] → env.policy.allowedSchemes = [])) ∨
        env.Barred hosts schemes := by
  constructor
  · intro hSmaller
    by_contra hNot
    simp only [not_or, Bool.not_eq_false, RuntimeInner.Barred, not_and, not_forall,
      Bool.not_eq_false, not_not] at hNot
    obtain ⟨hNetwork, hEmptied, hScheme, hHost⟩ := hNot
    have hScheme : schemes = [] ∨ ∃ scheme ∈ schemes, isScheme scheme = true := by
      by_cases hNone : schemes = []
      · exact Or.inl hNone
      · obtain ⟨scheme, hMem, hIs⟩ := hScheme hNone
        exact Or.inr ⟨scheme, hMem, hIs⟩
    by_cases keepHosts : hosts = [] → env.policy.allowedHosts = []
    · obtain ⟨rfl, hAllowed⟩ := hEmptied keepHosts
      obtain ⟨uri, scheme, host, hParse, hReached⟩ : ∃ uri scheme host,
          env.parseUrl uri = .ok (scheme, host) ∧
            (env.narrowed hosts []).policy.hostAllowed (host.getD "") = true := by
        by_cases hNone : hosts = []
        · have hScheme : isScheme "http" = true := by decide
          have hWord : isHostWord "a" = true := by decide
          exact ⟨_, _, _, url.word hScheme hWord, hostAllowed_iff.mpr ⟨hNetwork, Or.inl hNone⟩⟩
        · obtain ⟨uri, scheme, host, hParse, allowed, hMem, hCovers⟩ := hHost hNone
          exact ⟨uri, scheme, host, hParse,
            hostAllowed_iff.mpr ⟨hNetwork, Or.inr ⟨allowed, hMem, hCovers⟩⟩⟩
      obtain ⟨other, hAccepts, hDenied⟩ :=
        exists_enlarged_scheme url hNetwork hAllowed hParse hReached
      exact hDenied (hSmaller other hAccepts)
    · obtain ⟨rfl, hAllowed⟩ := Classical.not_imp.mp keepHosts
      obtain ⟨other, hAccepts, hDenied⟩ := exists_enlarged_host url hNetwork hAllowed hScheme
      exact hDenied (hSmaller other hAccepts)
  · rintro (hOff | ⟨keepHosts, keepSchemes⟩ | barred) uri accepts
    · obtain ⟨_, _, _, hScheme, _⟩ := accepts_iff.mp accepts
      exact absurd (hOff.symm.trans (schemeAllowed_iff.mp hScheme).1) Bool.false_ne_true
    · exact accepts_of_narrowed hHosts hSchemes keepHosts keepSchemes accepts
    · exact absurd accepts (not_accepts_of_barred url barred)

end Narrowing

/-- URLs that are a scheme and perhaps a host, which ends at a slash. -/
def plainUrl (url : String) : Except String (String × Option String) :=
  let scheme := url.toList.takeWhile (· ≠ ':')
  if isScheme (String.ofList scheme) then
    match url.toList.drop scheme.length with
    | ':' :: '/' :: '/' :: rest =>
        .ok (String.ofList scheme, some (String.ofList (rest.takeWhile (· ≠ '/'))))
    | ':' :: _ => .ok (String.ofList scheme, none)
    | _ => .error "relative URL without a base"
  else .error "relative URL without a base"

theorem colon_notMem_of_isScheme {scheme : String} (hScheme : isScheme scheme = true) :
    ':' ∉ scheme.toList := by
  unfold isScheme at hScheme
  split at hScheme
  · cases hScheme
  · rename_i c rest hList
    obtain ⟨hFirst, hRest⟩ := Bool.and_eq_true_iff.mp hScheme
    rw [hList]
    intro hMem
    rcases List.mem_cons.mp hMem with rfl | hMem
    · exact absurd hFirst (by decide)
    · exact absurd (List.all_eq_true.mp hRest ':' hMem) (by decide)

theorem plainUrl_append {scheme : String} {rest : List Char} (hScheme : isScheme scheme = true) :
    plainUrl (String.ofList (scheme.toList ++ ':' :: rest)) =
      match rest with
      | '/' :: '/' :: more => .ok (scheme, some (String.ofList (more.takeWhile (· ≠ '/'))))
      | _ => .ok (scheme, none) := by
  have hColon := colon_notMem_of_isScheme hScheme
  have hTake : (scheme.toList ++ ':' :: rest).takeWhile (· ≠ ':') = scheme.toList := by
    rw [List.takeWhile_append_of_pos]
    · simp
    · intro c hMem
      simpa using fun hSame : c = ':' => hColon (hSame ▸ hMem)
  simp only [plainUrl, String.toList_ofList, hTake, String.ofList_toList, hScheme, if_true,
    List.drop_left]
  split <;> simp_all

/-- The parser of the sample has the properties on which the policy relies, with the schemes in
lower case and the hosts as they stand. -/
theorem plainUrl_parses : UrlParser plainUrl where
  scheme := by
    intro uri scheme host hParse
    simp only [plainUrl] at hParse
    split at hParse
    · rename_i hScheme
      split at hParse
      · cases hParse
        exact hScheme
      · cases hParse
        exact hScheme
      · cases hParse
    · cases hParse
  word := by
    intro scheme host hScheme hHost
    simp only [isHostWord, Bool.and_eq_true, List.all_eq_true] at hHost
    have hText : scheme ++ "://" ++ host ++ "/" =
        String.ofList (scheme.toList ++ ':' :: '/' :: '/' :: (host.toList ++ ['/'])) := by
      apply String.toList_injective
      simp
    have hTake : (host.toList ++ ['/']).takeWhile (· ≠ '/') = host.toList := by
      rw [List.takeWhile_append_of_pos]
      · simp
      · intro c hMem
        have hLetter := hHost.1.2 c hMem
        simp only [ne_eq, decide_not, Bool.not_eq_eq_eq_not, Bool.not_true, decide_eq_false_iff_not]
        rintro rfl
        exact absurd hLetter (by decide)
    rw [hText, plainUrl_append hScheme]
    simp only [hTake, String.ofList_toList]
  opaqueHost := by
    intro uri scheme host other hParse hOther _
    cases host with
    | none => exact ⟨_, @plainUrl_append other [] hOther⟩
    | some host =>
        refine ⟨_, (@plainUrl_append other ('/' :: '/' :: host.toList) hOther).trans ?_⟩
        have hSlash : '/' ∉ host.toList := by
          simp only [plainUrl] at hParse
          split at hParse
          · split at hParse
            · cases hParse
              intro hMem
              rw [String.toList_ofList] at hMem
              exact absurd (List.mem_takeWhile_imp hMem) (by simp)
            · cases hParse
            · cases hParse
          · cases hParse
        have hTake : host.toList.takeWhile (· ≠ '/') = host.toList := by
          rw [List.takeWhile_eq_self_iff]
          intro c hMem
          simpa using fun hSame : c = '/' => hSlash (hSame ▸ hMem)
        simp only [hTake, String.ofList_toList]

/-- A runtime that may reach two hosts. -/
def listedRuntime : RuntimeInner :=
  { Sample.runtime with
    policy := { RuntimePolicy.default with
      allowNetwork := true, allowedHosts := ["docs.example", "api.example"]
      allowedSchemes := ["https"] }
    parseUrl := plainUrl }

/-- One of the two hosts is removed. -/
theorem narrowing_listed :
    (listedRuntime.narrowed ["api.example"] ["https"]).Accepts "https://api.example/" ∧
      listedRuntime.Accepts "https://api.example/" := by
  have hParse : (listedRuntime.narrowed ["api.example"] ["https"]).parseUrl
      "https://api.example/" = .ok ("https", some "api.example") := by decide +kernel
  have hAccepts := (accepts_of_parse _ hParse).mpr ⟨by decide, by decide +kernel⟩
  have hSmaller := (@narrowing_iff listedRuntime ["api.example"] ["https"] plainUrl_parses
    (List.subset_cons_self _ _) (List.Subset.refl _)).mpr
      (Or.inr (Or.inl ⟨fun hNone => absurd hNone (by decide),
        fun hNone => absurd hNone (by decide)⟩))
  exact ⟨hAccepts, hSmaller _ hAccepts⟩

/-- Both hosts are removed, and every host is allowed. -/
theorem emptied_list_enlarges : ¬ ∀ (env : RuntimeInner) (hosts schemes : List String),
    UrlParser env.parseUrl → hosts ⊆ env.policy.allowedHosts →
      schemes ⊆ env.policy.allowedSchemes →
        ∀ uri, (env.narrowed hosts schemes).Accepts uri → env.Accepts uri := by
  intro hAll
  have hSmaller := hAll listedRuntime [] ["https"] plainUrl_parses (List.nil_subset _)
    (List.Subset.refl _) "https://internal.example/"
  have hParse : listedRuntime.parseUrl "https://internal.example/" =
      .ok ("https", some "internal.example") := by decide +kernel
  have hNarrowed : (listedRuntime.narrowed [] ["https"]).parseUrl "https://internal.example/" =
      .ok ("https", some "internal.example") := hParse
  have hAccepts := (accepts_of_parse _ hNarrowed).mpr ⟨by decide, by decide⟩
  have hDenied := ((accepts_of_parse _ hParse).mp (hSmaller hAccepts)).2
  exact absurd hDenied (by decide +kernel)

end OwsRuntime
