import Mathlib.Algebra.GroupWithZero.Nat
import Mathlib.Data.List.Nodup
import Mathlib.Logic.Relation

/-! Exploration of a finite graph with a list of pending nodes. -/
namespace Graph

variable {α : Type} {inside : α → Prop} {next : α → List α} {nodes found pending : List α}
  {a b : α}

/-- The nodes found from the pending ones. Each round takes the first pending
node, and adds its edges when it is inside the graph and new. -/
def explore [DecidableEq α] (inside : α → Prop) [DecidablePred inside] (next : α → List α) :
    Nat → List α → List α → List α
  | 0, found, _ => found
  | _ + 1, found, [] => found
  | fuel + 1, found, a :: pending =>
      if ¬ inside a ∨ a ∈ found then explore inside next fuel found pending
      else explore inside next fuel (a :: found) ((next a).reverse ++ pending)

/-- The result holds what was found and what was pending, and the edges of the
nodes it has added stay within it. -/
structure Closes (inside : α → Prop) (next : α → List α) (found pending result : List α) :
    Prop where
  kept : ∀ a ∈ found, a ∈ result
  added : ∀ a ∈ pending, inside a → a ∈ result
  edges : ∀ a ∈ result, a ∉ found → ∀ b ∈ next a, inside b → b ∈ result

theorem Closes.of_nil : Closes inside next found [] found :=
  ⟨fun _ h => h, fun _ h => (by cases h), fun _ h hNew => absurd h hNew⟩

variable [DecidableEq α] [DecidablePred inside]

/-- How many edges are still to be added. -/
def pushes (next : α → List α) (nodes found : List α) : Nat :=
  ((nodes.filter (· ∉ found)).map fun a => (next a).length).sum

theorem pushes_node_cons :
    pushes next (b :: nodes) found =
      (if b ∈ found then 0 else (next b).length) + pushes next nodes found := by
  by_cases hFound : b ∈ found <;> simp [pushes, hFound]

theorem pushes_cons_of_notMem (hMem : a ∉ nodes) :
    pushes next nodes (a :: found) = pushes next nodes found := by
  have hFilter : nodes.filter (· ∉ a :: found) = nodes.filter (· ∉ found) := by
    apply List.filter_congr
    intro b hB
    have hNe : b ≠ a := fun h => hMem (h ▸ hB)
    simp [hNe]
  rw [pushes, hFilter, pushes]

/-- A new node adds its edges once. -/
theorem pushes_cons (hNodup : nodes.Nodup) (hMem : a ∈ nodes) (hNew : a ∉ found) :
    pushes next nodes (a :: found) + (next a).length = pushes next nodes found := by
  induction nodes with
  | nil => cases hMem
  | cons b rest ih =>
      rw [List.nodup_cons] at hNodup
      rw [pushes_node_cons, pushes_node_cons]
      by_cases hHead : b = a
      · subst hHead
        rw [pushes_cons_of_notMem hNodup.1]
        simp [hNew]
        omega
      · have hRest := ih hNodup.2 ((List.mem_cons.mp hMem).resolve_left (Ne.symm hHead))
        simp only [List.mem_cons, hHead, false_or]
        omega

/-- By induction on the fuel, which suffices when it covers the pending nodes and
the edges still to be added. -/
theorem explore_closes (hNodup : nodes.Nodup) (hInside : ∀ a, inside a → a ∈ nodes) {fuel : Nat}
    (hFuel : pending.length + pushes next nodes found ≤ fuel) :
    Closes inside next found pending (explore inside next fuel found pending) := by
  induction fuel generalizing found pending with
  | zero =>
      have hNone : pending = [] := List.length_eq_zero_iff.mp (by omega)
      subst hNone
      exact Closes.of_nil
  | succ fuel ih =>
      cases pending with
      | nil => exact Closes.of_nil
      | cons a pending =>
          rw [List.length_cons] at hFuel
          by_cases hSkip : ¬ inside a ∨ a ∈ found
          · rw [explore, if_pos hSkip]
            have hLess : pending.length + pushes next nodes found ≤ fuel := by omega
            have closes := ih hLess
            refine ⟨closes.kept, ?_, closes.edges⟩
            intro b hB hIn
            rcases List.mem_cons.mp hB with rfl | hRest
            · exact closes.kept b (hSkip.resolve_left fun hOut => hOut hIn)
            · exact closes.added b hRest hIn
          · rw [explore, if_neg hSkip]
            rw [not_or, not_not] at hSkip
            have hPushes : pushes next nodes (a :: found) + (next a).length =
                pushes next nodes found := pushes_cons hNodup (hInside a hSkip.1) hSkip.2
            have hLess : ((next a).reverse ++ pending).length + pushes next nodes (a :: found) ≤ fuel := by
              rw [List.length_append, List.length_reverse]
              omega
            have closes := ih hLess
            refine ⟨?_, ?_, ?_⟩
            · intro b hB
              exact closes.kept b (List.mem_cons_of_mem _ hB)
            · intro b hB hIn
              rcases List.mem_cons.mp hB with rfl | hRest
              · exact closes.kept b List.mem_cons_self
              · exact closes.added b (List.mem_append_right _ hRest) hIn
            · intro b hB hNew c hC hIn
              by_cases hHead : b = a
              · subst hHead
                exact closes.added c (List.mem_append_left _ (List.mem_reverse.mpr hC)) hIn
              · exact closes.edges b hB (by simp [hHead, hNew]) c hC hIn

/-- With enough fuel, every node is found to which a path leads within the graph. -/
theorem mem_explore_of_path (hNodup : nodes.Nodup) (hInside : ∀ a, inside a → a ∈ nodes)
    {fuel : Nat} (hFuel : 1 + pushes next nodes [] ≤ fuel) (hStart : inside a)
    (path : Relation.ReflTransGen (fun a b => b ∈ next a ∧ inside b) a b) :
    b ∈ explore inside next fuel [] [a] := by
  have closes : Closes inside next [] [a] (explore inside next fuel [] [a]) :=
    explore_closes hNodup hInside hFuel
  induction path with
  | refl => exact closes.added a List.mem_cons_self hStart
  | tail _ hEdge ih => exact closes.edges _ ih List.not_mem_nil _ hEdge.1 hEdge.2

/-- Every node found was there before, or a path within the graph leads to it from a
pending one. -/
theorem path_of_mem_explore {fuel : Nat} (hMem : b ∈ explore inside next fuel found pending) :
    b ∈ found ∨ ∃ a ∈ pending, inside a ∧
      Relation.ReflTransGen (fun a b => b ∈ next a ∧ inside b) a b := by
  induction fuel generalizing found pending with
  | zero => exact Or.inl hMem
  | succ fuel ih =>
      cases pending with
      | nil => exact Or.inl hMem
      | cons a pending =>
          rw [explore] at hMem
          split at hMem
          · rcases ih hMem with hFound | ⟨c, hC, path⟩
            · exact Or.inl hFound
            · exact Or.inr ⟨c, List.mem_cons_of_mem _ hC, path⟩
          · rename_i hNew
            have hInside : inside a := not_not.mp fun hOut => hNew (Or.inl hOut)
            rcases ih hMem with hFound | ⟨c, hC, hInsideC, path⟩
            · rcases List.mem_cons.mp hFound with rfl | hOld
              · exact Or.inr ⟨b, List.mem_cons_self, hInside, Relation.ReflTransGen.refl⟩
              · exact Or.inl hOld
            · rcases List.mem_append.mp hC with hNext | hPending
              · rw [List.mem_reverse] at hNext
                exact Or.inr ⟨a, List.mem_cons_self, hInside, path.head ⟨hNext, hInsideC⟩⟩
              · exact Or.inr ⟨c, List.mem_cons_of_mem _ hPending, hInsideC, path⟩

end Graph
