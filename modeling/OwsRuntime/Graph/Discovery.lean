import Mathlib.Data.List.Dedup
import OwsRuntime.Graph.Worklist

/-! Exploration of a graph that is discovered on the way. Fetching a node yields its
content, and with it the nodes it leads to; a node may not be admitted, and fetching it
may fail, which ends the exploration. -/
namespace Graph

variable {α β ε σ : Type}

/-- How a graph is discovered: which nodes are admitted, what they contain, and where the
content leads. -/
structure Source (α β ε : Type) where
  permit : α → Except ε Unit
  fetch : α → Except ε β
  next : β → List α

/-- The state of an exploration, or its end. The nodes fetched so far come last first. -/
inductive Discovery (α ε σ : Type) where
  | unfinished
  | failed (error : ε) (fetched : List α)
  | finished (fetched : List α) (result : σ)

namespace Discovery

def fetched : Discovery α ε σ → List α
  | unfinished => []
  | failed _ fetched => fetched
  | finished fetched _ => fetched

def map {τ : Type} (f : σ → τ) : Discovery α ε σ → Discovery α ε τ
  | unfinished => unfinished
  | failed e fetched => failed e fetched
  | finished fetched result => finished fetched (f result)

end Discovery

namespace Source

/-- Takes the first pending node. A new one is fetched, its content absorbed, and the nodes
it leads to are put in front. -/
def discover [DecidableEq α] (source : Source α β ε) (absorb : σ → β → σ) :
    Nat → List α → List α → σ → Discovery α ε σ
  | _, [], fetched, acc => .finished fetched acc
  | 0, _ :: _, _, _ => .unfinished
  | fuel + 1, a :: pending, fetched, acc =>
      if a ∈ fetched then discover source absorb fuel pending fetched acc
      else
        match source.permit a with
        | .error e => .failed e fetched
        | .ok () =>
            match source.fetch a with
            | .error e => .failed e (a :: fetched)
            | .ok b =>
                discover source absorb fuel ((source.next b).reverse ++ pending) (a :: fetched)
                  (absorb acc b)

/-- The content of a node that is admitted and can be fetched. -/
def content? (source : Source α β ε) (a : α) : Option β :=
  match source.permit a with
  | .error _ => none
  | .ok () => (source.fetch a).toOption

/-- Where a node leads. -/
def edges (source : Source α β ε) (a : α) : List α := ((source.content? a).map source.next).getD []

/-- The nodes to which a path leads from the first ones. -/
def Reachable (source : Source α β ε) (roots : List α) (a : α) : Prop :=
  ∃ root ∈ roots, Relation.ReflTransGen (fun a b => b ∈ source.edges a) root a

variable {source : Source α β ε} {absorb : σ → β → σ} {nodes pending fetched roots : List α}
  {acc : σ} {a b : α} {fuel : Nat}

theorem Reachable.root (hRoot : a ∈ roots) : source.Reachable roots a :=
  ⟨a, hRoot, Relation.ReflTransGen.refl⟩

theorem Reachable.step (reachable : source.Reachable roots a) (hEdge : b ∈ source.edges a) :
    source.Reachable roots b := by
  obtain ⟨root, hRoot, path⟩ := reachable
  exact ⟨root, hRoot, path.tail hEdge⟩

theorem content?_eq_none (hNone : source.content? a = none) :
    (∃ e, source.permit a = .error e) ∨ ∃ e, source.permit a = .ok () ∧ source.fetch a = .error e := by
  rw [content?] at hNone
  cases hAdmit : source.permit a with
  | error e => exact Or.inl ⟨e, rfl⟩
  | ok _ =>
      rw [hAdmit] at hNone
      cases hFetch : source.fetch a with
      | error e => exact Or.inr ⟨e, rfl, rfl⟩
      | ok b =>
          rw [hFetch] at hNone
          cases hNone

theorem content?_eq_some {c : β} (hSome : source.content? a = some c) :
    source.permit a = .ok () ∧ source.fetch a = .ok c := by
  rw [content?] at hSome
  cases hAdmit : source.permit a with
  | error e =>
      rw [hAdmit] at hSome
      cases hSome
  | ok _ =>
      rw [hAdmit] at hSome
      cases hFetch : source.fetch a with
      | error e =>
          rw [hFetch] at hSome
          cases hSome
      | ok found =>
          rw [hFetch] at hSome
          cases hSome
          exact ⟨rfl, rfl⟩

/-- What can be reached from the nodes to which a pending one leads can be reached from it. -/
theorem reachable_of_edges (h : source.Reachable ((source.edges a).reverse ++ pending) b) :
    source.Reachable (a :: pending) b := by
  obtain ⟨root, hRoot, path⟩ := h
  rcases List.mem_append.mp hRoot with hEdge | hPending
  · rw [List.mem_reverse] at hEdge
    exact ⟨a, List.mem_cons_self, path.head hEdge⟩
  · exact ⟨root, List.mem_cons_of_mem _ hPending, path⟩

theorem reachable_of_tail (h : source.Reachable pending b) : source.Reachable (a :: pending) b := by
  obtain ⟨root, hRoot, path⟩ := h
  exact ⟨root, List.mem_cons_of_mem _ hRoot, path⟩

/-- What an exploration which ends has done: it has fetched no node twice, and either every
pending node and what it leads to, absorbing the contents in the order of the fetches, or
some node that can be reached has no content. -/
inductive Ends (source : Source α β ε) (absorb : σ → β → σ) (pending fetched : List α) (acc : σ) :
    Discovery α ε σ → Prop where
  | finished {later : List α} {contents : List β} (hNodup : (later ++ fetched).Nodup)
      (hContents : later.reverse.map source.content? = contents.map some)
      (hPending : ∀ a ∈ pending, a ∈ later ++ fetched)
      (hEdges : ∀ a ∈ later, ∀ b ∈ source.edges a, b ∈ later ++ fetched)
      (hReachable : ∀ a ∈ later, source.Reachable pending a) :
      Ends source absorb pending fetched acc (.finished (later ++ fetched) (contents.foldl absorb acc))
  | failed {e : ε} {later : List α} (hNodup : (later ++ fetched).Nodup)
      (hReachable : ∀ a ∈ later, source.Reachable pending a)
      (hFails : ∃ a, source.Reachable pending a ∧ source.content? a = none) :
      Ends source absorb pending fetched acc (.failed e (later ++ fetched))

theorem Ends.nil (hFetched : fetched.Nodup) :
    Ends source absorb [] fetched acc (.finished fetched acc) := by
  have hNodup : (([] : List α) ++ fetched).Nodup := hFetched
  have hContents : ([] : List α).reverse.map source.content? = ([] : List β).map some := rfl
  exact Ends.finished hNodup hContents (by simp) (by simp) (by simp)

/-- An exploration that has finished has fetched every node that can be reached. -/
theorem mem_of_reachable {later : List α} (hPending : ∀ a ∈ roots, a ∈ later)
    (hEdges : ∀ a ∈ later, ∀ b ∈ source.edges a, b ∈ later) (reachable : source.Reachable roots a) :
    a ∈ later := by
  obtain ⟨root, hRoot, path⟩ := reachable
  induction path with
  | refl => exact hPending root hRoot
  | tail _ hEdge ih => exact hEdges _ ih _ hEdge

/-- The contents are those of the nodes that have been fetched. -/
theorem mem_contents {later : List α} {contents : List β} {c : β}
    (hContents : later.reverse.map source.content? = contents.map some) :
    c ∈ contents ↔ ∃ a ∈ later, source.content? a = some c := by
  have hMem : some c ∈ contents.map some ↔ c ∈ contents := by simp
  rw [← hMem, ← hContents]
  simp

theorem content?_isSome_of_mem {later : List α} {contents : List β}
    (hContents : later.reverse.map source.content? = contents.map some) (hMem : a ∈ later) :
    source.content? a ≠ none := by
  have hHere : source.content? a ∈ contents.map some := by
    rw [← hContents]
    exact List.mem_map_of_mem (List.mem_reverse.mpr hMem)
  obtain ⟨c, -, hSome⟩ := List.mem_map.mp hHere
  rw [← hSome]
  exact Option.some_ne_none c

/-- A node that has been fetched before makes no difference. -/
theorem Ends.old {result : Discovery α ε σ} (hOld : a ∈ fetched)
    (ends : Ends source absorb pending fetched acc result) :
    Ends source absorb (a :: pending) fetched acc result := by
  cases ends with
  | finished hNodup hContents hPending hEdges hReachable =>
      refine Ends.finished hNodup hContents ?_ hEdges
        fun b hB => reachable_of_tail (hReachable b hB)
      intro b hB
      rcases List.mem_cons.mp hB with rfl | hRest
      · exact List.mem_append_right _ hOld
      · exact hPending b hRest
  | failed hNodup hReachable hFails =>
      obtain ⟨b, hB, hNone⟩ := hFails
      exact Ends.failed hNodup (fun c hC => reachable_of_tail (hReachable c hC))
        ⟨b, reachable_of_tail hB, hNone⟩

/-- A new node with a content is the first of those fetched. -/
theorem Ends.new {result : Discovery α ε σ} {c : β} (hContent : source.content? a = some c)
    (ends : Ends source absorb ((source.edges a).reverse ++ pending) (a :: fetched) (absorb acc c)
      result) : Ends source absorb (a :: pending) fetched acc result := by
  have hHere : source.Reachable (a :: pending) a := Reachable.root List.mem_cons_self
  have hSplit : ∀ later : List α, later ++ a :: fetched = (later ++ [a]) ++ fetched := by simp
  cases ends with
  | @finished later contents hNodup hContents hPending hEdges hReachable =>
      simp only [hSplit] at hNodup hPending hEdges ⊢
      rw [← List.foldl_cons]
      refine Ends.finished hNodup ?_ ?_ ?_ ?_
      · simp [hContents, hContent]
      · intro b hB
        rcases List.mem_cons.mp hB with rfl | hRest
        · simp
        · exact hPending b (List.mem_append_right _ hRest)
      · intro d hD b hB
        rcases List.mem_append.mp hD with hLater | hSingle
        · exact hEdges d hLater b hB
        · rw [List.mem_singleton.mp hSingle] at hB
          exact hPending b (List.mem_append_left _ (List.mem_reverse.mpr hB))
      · intro d hD
        rcases List.mem_append.mp hD with hLater | hSingle
        · exact reachable_of_edges (hReachable d hLater)
        · rw [List.mem_singleton.mp hSingle]
          exact hHere
  | @failed e later hNodup hReachable hFails =>
      obtain ⟨b, hB, hNone⟩ := hFails
      rw [hSplit] at hNodup ⊢
      refine Ends.failed hNodup ?_ ⟨b, reachable_of_edges hB, hNone⟩
      intro d hD
      rcases List.mem_append.mp hD with hLater | hSingle
      · exact reachable_of_edges (hReachable d hLater)
      · rw [List.mem_singleton.mp hSingle]
        exact hHere

/-- A new node without a content is the last one. -/
theorem Ends.last {e : ε} (hNew : a ∉ fetched) (hFetched : fetched.Nodup)
    (hContent : source.content? a = none) :
    Ends source absorb (a :: pending) fetched acc (.failed e fetched) ∧
      Ends source absorb (a :: pending) fetched acc (.failed e (a :: fetched)) := by
  have hHere : source.Reachable (a :: pending) a := Reachable.root List.mem_cons_self
  have hNone : (([] : List α) ++ fetched).Nodup := hFetched
  have hOne : ([a] ++ fetched).Nodup := List.nodup_cons.mpr ⟨hNew, hFetched⟩
  exact ⟨Ends.failed hNone (by simp) ⟨a, hHere, hContent⟩,
    Ends.failed hOne (by simpa using hHere) ⟨a, hHere, hContent⟩⟩

variable [DecidableEq α]

theorem discover_old (hOld : a ∈ fetched) :
    source.discover absorb (fuel + 1) (a :: pending) fetched acc =
      source.discover absorb fuel pending fetched acc := by
  rw [discover, if_pos hOld]

theorem discover_new (hNew : a ∉ fetched) {c : β} (hContent : source.content? a = some c) :
    source.discover absorb (fuel + 1) (a :: pending) fetched acc =
      source.discover absorb fuel ((source.edges a).reverse ++ pending) (a :: fetched)
        (absorb acc c) := by
  obtain ⟨hAdmit, hFetch⟩ := content?_eq_some hContent
  simp only [discover, if_neg hNew, hAdmit, hFetch, edges, hContent, Option.map_some,
    Option.getD_some]

/-- A node without content ends the exploration. It has been fetched if it was admitted. -/
theorem discover_failed (hNew : a ∉ fetched) (hContent : source.content? a = none) :
    ∃ e, source.discover absorb (fuel + 1) (a :: pending) fetched acc = .failed e fetched ∨
      source.discover absorb (fuel + 1) (a :: pending) fetched acc = .failed e (a :: fetched) := by
  rcases content?_eq_none hContent with ⟨e, hAdmit⟩ | ⟨e, hAdmit, hFetch⟩
  · refine ⟨e, Or.inl ?_⟩
    simp only [discover, if_neg hNew, hAdmit]
  · refine ⟨e, Or.inr ?_⟩
    simp only [discover, if_neg hNew, hAdmit, hFetch]

/-- An exploration ends as described, unless it runs out of fuel. By induction on the fuel. -/
theorem discover_ends (hFetched : fetched.Nodup)
    (hEnded : source.discover absorb fuel pending fetched acc ≠ .unfinished) :
    Ends source absorb pending fetched acc (source.discover absorb fuel pending fetched acc) := by
  induction fuel generalizing pending fetched acc with
  | zero =>
      cases pending with
      | nil => exact Ends.nil hFetched
      | cons a pending => exact absurd rfl hEnded
  | succ fuel ih =>
      cases pending with
      | nil =>
          rw [discover]
          exact Ends.nil hFetched
      | cons a pending =>
          by_cases hOld : a ∈ fetched
          · rw [discover_old hOld] at hEnded ⊢
            exact (ih hFetched hEnded).old hOld
          · cases hContent : source.content? a with
            | none =>
                have hLast : ∀ e,
                    Ends source absorb (a :: pending) fetched acc (.failed e fetched) ∧
                      Ends source absorb (a :: pending) fetched acc (.failed e (a :: fetched)) :=
                  fun e => Ends.last hOld hFetched hContent
                rcases discover_failed hOld hContent with ⟨e, hFailed | hFailed⟩
                · rw [hFailed]
                  exact (hLast e).1
                · rw [hFailed]
                  exact (hLast e).2
            | some c =>
                rw [discover_new hOld hContent] at hEnded ⊢
                exact (ih (List.nodup_cons.mpr ⟨hOld, hFetched⟩) hEnded).new hContent

/-- With fuel for the pending nodes and the edges still to be added, an exploration within
finitely many nodes does not run out of it. -/
theorem discover_ne_unfinished (hNodes : nodes.Nodup)
    (hWithin : ∀ a, source.Reachable pending a → a ∈ nodes)
    (hFuel : pending.length + pushes source.edges nodes fetched ≤ fuel) :
    source.discover absorb fuel pending fetched acc ≠ .unfinished := by
  induction fuel generalizing pending fetched acc with
  | zero =>
      have hNone : pending = [] := List.length_eq_zero_iff.mp (by omega)
      subst hNone
      simp [discover]
  | succ fuel ih =>
      cases pending with
      | nil => simp [discover]
      | cons a pending =>
          rw [List.length_cons] at hFuel
          by_cases hOld : a ∈ fetched
          · rw [discover_old hOld]
            exact ih (fun b hB => hWithin b (reachable_of_tail hB)) (by omega)
          · cases hContent : source.content? a with
            | none =>
                rcases discover_failed hOld hContent with ⟨e, hFailed | hFailed⟩
                · rw [hFailed]
                  simp
                · rw [hFailed]
                  simp
            | some c =>
                rw [discover_new hOld hContent]
                have hMem : a ∈ nodes := hWithin a (Reachable.root List.mem_cons_self)
                have hPushes : pushes source.edges nodes (a :: fetched) + (source.edges a).length =
                    pushes source.edges nodes fetched := pushes_cons hNodes hMem hOld
                apply ih fun b hB => hWithin b (reachable_of_edges hB)
                rw [List.length_append, List.length_reverse]
                omega

/-- From finitely many nodes that can be reached, enough fuel leads to the end. -/
theorem discover_ends_of_finite (hFinite : ∀ a, source.Reachable roots a → a ∈ nodes) :
    ∃ bound, ∀ fuel, bound ≤ fuel →
      Ends source absorb roots [] acc (source.discover absorb fuel roots [] acc) := by
  refine ⟨roots.length + pushes source.edges nodes.dedup [], fun fuel hFuel => ?_⟩
  refine discover_ends List.nodup_nil (discover_ne_unfinished nodes.nodup_dedup ?_ hFuel)
  intro a hA
  exact List.mem_dedup.mpr (hFinite a hA)

end Source

end Graph
