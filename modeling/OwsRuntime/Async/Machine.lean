import OwsRuntime.Async.Program

/-! The executor of asynchronous programs. A turn runs one task from a
suspension point to its next one; which task takes the next turn, which alarm
goes off and what the environment does in between is chosen by the run. -/
namespace Async

/-- How a request divides the code around it. A `sync` request is performed
within the turn. Other tasks may run before a `preempt` or an `await` request,
and a future may be dropped only while it waits at an `await` request. -/
inductive Mode where
  | sync
  | preempt
  | await
deriving DecidableEq, Repr

/-- The meaning of requests and alarms. A request for which `perform` has no
result waits until the storage changes, and an alarm may go off when `fires`
says so. The environment acts on the world only. -/
structure Handler (sig : Signature) where
  mode : sig.Act → Mode
  perform : (a : sig.Act) → State sig → Option (sig.Resp a × State sig)
  fires : sig.Alarm → sig.World → Bool
  Env : Type
  disturb : Env → sig.World → sig.World

/-- Which part of a program takes a turn. `expire` sets off an alarm, `crash` lets a
branch panic, and `here` performs the pending request or joins the branches. -/
inductive Move where
  | here
  | expire
  | inner (move : Move)
  | branch (index : Nat) (move : Move)
  | crash (index : Nat)
deriving DecidableEq, Repr

abbrev Config (sig : Signature) (α : Type) := Program sig α × State sig

namespace State

variable {sig : Signature}

/-- The storage a region sees when its own parts are `loc` and `shared`. -/
def enter (σ : State sig) (loc : sig.Local) (shared : sig.Shared) : State sig :=
  ⟨loc, shared, σ.world⟩

/-- The storage outside a region whose inner storage is `inner`. -/
def leave (σ inner : State sig) : State sig := { σ with world := inner.world }

/-- The storage a branch sees. Branches share everything but `loc`. -/
def fork (σ : State sig) (loc : sig.Local) : State sig := { σ with loc := loc }

def mapWorld (f : sig.World → sig.World) (σ : State sig) : State sig :=
  { σ with world := f σ.world }

end State

namespace Handler

variable {sig : Signature} {α β γ : Type} (h : Handler sig)

open Program

/-- Runs a program until it has to wait. -/
def advance {α : Type} : Program sig α → State sig → Config sig α
  | done value, σ => (done value, σ)
  | act a next, σ =>
      if h.mode a = .sync then
        match h.perform a σ with
        | some (reply, σ') => advance (next reply) σ'
        | none => (act a next, σ)
      else (act a next, σ)
  | race alarm body next, σ =>
      match (advance body σ).1.value? with
      | some b => advance (next (some b)) (advance body σ).2
      | none => (race alarm (advance body σ).1 next, (advance body σ).2)
  | region loc shared body next, σ =>
      match (advance body (σ.enter loc shared)).1.value? with
      | some b => advance (next b) (σ.leave (advance body (σ.enter loc shared)).2)
      | none =>
          (region (advance body (σ.enter loc shared)).2.loc
            (advance body (σ.enter loc shared)).2.shared
            (advance body (σ.enter loc shared)).1 next,
            σ.leave (advance body (σ.enter loc shared)).2)
  | par count need locs branches finished next, σ =>
      (par count need locs branches finished next, σ)

attribute [grind =] advance

/-- Goes on with `f` when the program under way has returned. -/
def continueWith (f : α → Program sig β) (c : Config sig α) : Config sig β :=
  match c.1.value? with
  | some value => h.advance (f value) c.2
  | none => (c.1.bind f, c.2)

/-- Whether every task of the program waits at a point where it may be dropped. -/
def droppable {α : Type} : Program sig α → Bool
  | done _ => true
  | act a _ => h.mode a = .await
  | race _ body _ => droppable body
  | region _ _ body _ => droppable body
  | par count _ _ branches finished _ =>
      decide (∀ i : Fin count, i ∈ finished.map Prod.fst ∨ droppable (branches i) = true)

/-- Every task of the program has started and waits for something. -/
def Waiting {α : Type} : Program sig α → Prop
  | done _ => False
  | act a _ => h.mode a ≠ .sync
  | race _ body _ => Waiting body
  | region _ _ body _ => Waiting body
  | par count _ _ branches finished _ =>
      ∀ i : Fin count, i ∉ finished.map Prod.fst → Waiting (branches i)

/-- Puts the body of a race back, or goes on when the body has returned. -/
def closeRace (alarm : sig.Alarm) (next : Option β → Program sig α) (c : Config sig β) :
    Config sig α :=
  match c.1.value? with
  | some b => h.advance (next (some b)) c.2
  | none => (race alarm c.1 next, c.2)

/-- Puts a region's body back, or goes on when the body has returned. -/
def closeRegion (σ : State sig) (next : β → Program sig α) (c : Config sig β) :
    Config sig α :=
  match c.1.value? with
  | some b => h.advance (next b) (σ.leave c.2)
  | none => (region c.2.loc c.2.shared c.1 next, σ.leave c.2)

/-- Puts a branch back, and reports it when it has returned. -/
def closeBranch {count : Nat} (σ : State sig) (need : Nat) (locs : Fin count → sig.Local)
    (branches : Fin count → Program sig β) (finished : List (Fin count × Option β))
    (next : List (Fin count × Option β) → Program sig α) (i : Fin count) (c : Config sig β) :
    Config sig α :=
  (par count need (Function.update locs i c.2.loc) (Function.update branches i c.1)
    (match c.1.value? with
      | some b => finished ++ [(i, some b)]
      | none => finished) next,
    c.2.fork σ.loc)

/-- One turn. -/
def step {α : Type} : Program sig α → Move → State sig → Option (Config sig α)
  | act a next, .here, σ => (h.perform a σ).map fun r => h.advance (next r.1) r.2
  | race alarm body next, .expire, σ =>
      if h.fires alarm σ.world ∧ h.droppable body then some (h.advance (next none) σ) else none
  | race alarm body next, .inner move, σ =>
      (step body move σ).map (h.closeRace alarm next)
  | region loc shared body next, .inner move, σ =>
      (step body move (σ.enter loc shared)).map (h.closeRegion σ next)
  | par count need _ branches finished next, .here, σ =>
      if need ≤ finished.length ∧
          ∀ i : Fin count, i ∈ finished.map Prod.fst ∨ h.droppable (branches i) = true then
        some (h.advance (next finished) σ)
      else none
  | par count need locs branches finished next, .branch index move, σ =>
      if bound : index < count then
        if (⟨index, bound⟩ : Fin count) ∈ finished.map Prod.fst then none
        else
          (step (branches ⟨index, bound⟩) move (σ.fork (locs ⟨index, bound⟩))).map
            (closeBranch σ need locs branches finished next ⟨index, bound⟩)
      else none
  | par count need locs branches finished next, .crash index, σ =>
      if bound : index < count then
        if (⟨index, bound⟩ : Fin count) ∈ finished.map Prod.fst ∨
            h.droppable (branches ⟨index, bound⟩) = false then none
        else some (par count need locs branches (finished ++ [(⟨index, bound⟩, none)]) next, σ)
      else none
  | _, _, _ => none

/-- What a run chooses: an act of the environment, or the next turn. -/
inductive Choice where
  | env (e : h.Env)
  | turn (move : Move)

def choose (c : Config sig α) : h.Choice → Option (Config sig α)
  | .env e => some (c.1, c.2.mapWorld (h.disturb e))
  | .turn move => h.step c.1 move c.2

/-- A run, as the sequence of its choices. -/
def run (c : Config sig α) (choices : List h.Choice) : Option (Config sig α) :=
  choices.foldlM h.choose c

/-- Some run leads from one configuration to the other. -/
def Reaches (c d : Config sig α) : Prop := ∃ choices, h.run c choices = some d

/-- Some run ends the program with this result, in this storage. -/
def Finishes (c : Config sig α) (value : α) (σ : State sig) : Prop :=
  h.Reaches c (done value, σ)

@[simp] theorem run_nil (c : Config sig α) : h.run c [] = some c := rfl

@[simp] theorem run_cons (c : Config sig α) (choice : h.Choice) (choices : List h.Choice) :
    h.run c (choice :: choices) = (h.choose c choice).bind fun d => h.run d choices := by
  simp only [run, List.foldlM_cons]
  rfl

theorem run_append (c : Config sig α) (first second : List h.Choice) :
    h.run c (first ++ second) = (h.run c first).bind fun d => h.run d second := by
  simp only [run, List.foldlM_append]
  rfl

theorem Reaches.refl (c : Config sig α) : h.Reaches c c := ⟨[], rfl⟩

variable {h}

theorem Reaches.trans {c d e : Config sig α} (first : h.Reaches c d) (second : h.Reaches d e) :
    h.Reaches c e := by
  obtain ⟨choices, hFirst⟩ := first
  obtain ⟨more, hSecond⟩ := second
  refine ⟨choices ++ more, ?_⟩
  rw [run_append, hFirst]
  exact hSecond

/-- Extend a run by one choice at its front. -/
theorem Reaches.head {c d e : Config sig α} {choice : h.Choice} (first : h.choose c choice = some d)
    (rest : h.Reaches d e) : h.Reaches c e := by
  obtain ⟨choices, hRest⟩ := rest
  refine ⟨choice :: choices, ?_⟩
  rw [run_cons, first]
  exact hRest

/-- An invariant of every choice is an invariant of every run. -/
theorem Reaches.induction (Inv : Config sig α → Prop) {c d : Config sig α}
    (reached : h.Reaches c d) (start : Inv c)
    (keep : ∀ c choice d, Inv c → h.choose c choice = some d → Inv d) : Inv d := by
  obtain ⟨choices, hRun⟩ := reached
  induction choices generalizing c with
  | nil =>
      cases hRun
      exact start
  | cons choice choices ih =>
      rw [run_cons, Option.bind_eq_some_iff] at hRun
      obtain ⟨next, hNext, hRest⟩ := hRun
      exact ih (keep c choice next start hNext) hRest

variable (h)

@[simp] theorem advance_done (value : α) (σ : State sig) :
    h.advance (done value) σ = (done value, σ) := rfl

theorem advance_race (alarm : sig.Alarm) (body : Program sig β)
    (next : Option β → Program sig α) (σ : State sig) :
    h.advance (race alarm body next) σ =
      h.closeRace alarm next (h.advance body σ) := by
  rw [advance]
  rfl

theorem advance_region (loc : sig.Local) (shared : sig.Shared) (body : Program sig β)
    (next : β → Program sig α) (σ : State sig) :
    h.advance (region loc shared body next) σ =
      h.closeRegion σ next (h.advance body (σ.enter loc shared)) := by
  rw [advance]
  rfl

theorem advance_act_sync {a : sig.Act} (next : sig.Resp a → Program sig α) {σ σ' : State sig}
    {reply : sig.Resp a} (hMode : h.mode a = .sync) (hPerform : h.perform a σ = some (reply, σ')) :
    h.advance (act a next) σ = h.advance (next reply) σ' := by
  rw [advance, if_pos hMode, hPerform]

theorem advance_act_of_ne {a : sig.Act} (next : sig.Resp a → Program sig α) (σ : State sig)
    (hMode : h.mode a ≠ .sync) : h.advance (act a next) σ = (act a next, σ) := by
  rw [advance, if_neg hMode]

@[simp] theorem continueWith_done (f : α → Program sig β) (value : α) (σ : State sig) :
    h.continueWith f (done value, σ) = h.advance (f value) σ := rfl

theorem continueWith_of_none (f : α → Program sig β) {c : Config sig α}
    (hRunning : c.1.value? = none) : h.continueWith f c = (c.1.bind f, c.2) := by
  simp only [continueWith, hRunning]

/-- Advancing a composition advances its first part, and the second one when
the first has returned. -/
theorem advance_bind (p : Program sig α) (f : α → Program sig β) (σ : State sig) :
    h.advance (p.bind f) σ = h.continueWith f (h.advance p σ) := by
  induction p generalizing σ with
  | done value => rfl
  | act a next ih =>
      by_cases hMode : h.mode a = .sync
      · cases hPerform : h.perform a σ with
        | none => simp [Program.bind, advance, hMode, hPerform, continueWith]
        | some r =>
            rw [Program.bind, advance_act_sync h _ hMode hPerform,
              advance_act_sync h _ hMode hPerform]
            exact ih r.1 f r.2
      · rw [Program.bind, advance_act_of_ne h _ _ hMode, advance_act_of_ne h _ _ hMode]
        rfl
  | race alarm body next _ ih =>
      rw [Program.bind, advance_race, advance_race]
      cases hBody : (h.advance body σ).1.value? with
      | none => simp [closeRace, hBody, continueWith, Program.bind]
      | some b =>
          simp only [closeRace, hBody]
          exact ih (some b) f _
  | region loc shared body next _ ih =>
      rw [Program.bind, advance_region, advance_region]
      cases hBody : (h.advance body (σ.enter loc shared)).1.value? with
      | none => simp [closeRegion, hBody, continueWith, Program.bind]
      | some b =>
          simp only [closeRegion, hBody]
          exact ih b f _
  | par count need locs branches finished next _ _ => rfl

theorem closeRace_bind (alarm : sig.Alarm) (next : Option γ → Program sig α)
    (f : α → Program sig β) (c : Config sig γ) :
    h.closeRace alarm (fun reply => (next reply).bind f) c =
      h.continueWith f (h.closeRace alarm next c) := by
  cases hBody : c.1.value? with
  | none => simp [closeRace, hBody, continueWith, Program.bind]
  | some b => simp only [closeRace, hBody, advance_bind]

theorem closeRegion_bind (σ : State sig) (next : γ → Program sig α) (f : α → Program sig β)
    (c : Config sig γ) :
    h.closeRegion σ (fun reply => (next reply).bind f) c =
      h.continueWith f (h.closeRegion σ next c) := by
  cases hBody : c.1.value? with
  | none => simp [closeRegion, hBody, continueWith, Program.bind]
  | some b => simp only [closeRegion, hBody, advance_bind]

/-- A turn of a composition is a turn of its first part. -/
theorem step_bind (p : Program sig α) (f : α → Program sig β) (move : Move) (σ : State sig)
    (hRunning : p.value? = none) :
    h.step (p.bind f) move σ = (h.step p move σ).map (h.continueWith f) := by
  cases p with
  | done value => simp at hRunning
  | act a next =>
      cases move <;> simp [Program.bind, step, advance_bind, Function.comp_def]
  | race alarm body next =>
      cases move with
      | expire =>
          by_cases hDrop : h.fires alarm σ.world = true ∧ h.droppable body = true
          · simp [Program.bind, step, hDrop, advance_bind]
          · simp only [Program.bind, step, if_neg hDrop, Option.map_none]
      | inner move =>
          simp only [Program.bind, step, Option.map_map]
          congr 1
          funext c
          exact h.closeRace_bind alarm next f c
      | _ => simp [Program.bind, step]
  | region loc shared body next =>
      cases move with
      | inner move =>
          simp only [Program.bind, step, Option.map_map]
          congr 1
          funext c
          exact h.closeRegion_bind σ next f c
      | _ => simp [Program.bind, step]
  | par count need locs branches finished next =>
      cases move with
      | here =>
          simp only [Program.bind, step]
          split
          · simp [advance_bind]
          · rfl
      | branch index move =>
          simp only [Program.bind, step]
          split
          · split
            · rfl
            · rw [Option.map_map]
              rfl
          · rfl
      | crash index =>
          simp only [Program.bind, step]
          split
          · split <;> rfl
          · rfl
      | _ => simp [Program.bind, step]

/-- A program that has returned takes no more turns. -/
theorem step_done (value : α) (move : Move) (σ : State sig) :
    h.step (done value) move σ = none := by
  cases move <;> rfl

end Handler
end Async
