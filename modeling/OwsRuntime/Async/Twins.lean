import OwsRuntime.Async.Requests
import Mathlib.Data.List.Forall2

/-! Two programs side by side. Programs are twins when they make requests that stand for
each other, whatever corresponding replies they get. Twins that start in corresponding
storage take the same turns, and end in corresponding storage with corresponding values. -/
namespace Async

open Program Handler

variable {sig : Signature} {h : Handler sig} {α β ε : Type}

/-- The requests whose replies a program waits for, those of its own turn apart. -/
def Handler.awaits (h : Handler sig) {α : Type} : Program sig α → List sig.Act
  | done _ => []
  | act a _ => if h.mode a = .sync then [] else [a]
  | race _ body _ => h.awaits body
  | region _ _ body _ => h.awaits body
  | par count _ _ branches finished _ =>
      ((List.finRange count).filter fun i => !(finished.map Prod.fst).contains i).flatMap fun i =>
        h.awaits (branches i)

/-- What a program awaits is not answered at once. -/
theorem Handler.mode_of_mem_awaits {p : Program sig α} {a : sig.Act} (hMem : a ∈ h.awaits p) :
    h.mode a ≠ .sync := by
  induction p with
  | done value => cases hMem
  | act b next _ =>
      rw [Handler.awaits] at hMem
      split at hMem
      · cases hMem
      · rename_i hMode
        obtain rfl := List.mem_singleton.mp hMem
        exact hMode
  | race alarm body next ihBody _ => exact ihBody hMem
  | region loc shared body next ihBody _ => exact ihBody hMem
  | par count need locs branches finished next ihBranch _ =>
      obtain ⟨i, _, hBranch⟩ := List.mem_flatMap.mp hMem
      exact ihBranch i hBranch

/-- The two parts of the storage that a task sees correspond. -/
structure State.Alike (locals : sig.Local → sig.Local → Prop)
    (shareds : sig.Shared → sig.Shared → Prop) (worlds : sig.World → sig.World → Prop)
    (σ τ : State sig) : Prop where
  loc : locals σ.loc τ.loc
  shared : shareds σ.shared τ.shared
  world : worlds σ.world τ.world

/-- How two runs are compared: which requests stand for each other, which replies to them
do, and which storage does. The environment does only what is `allowed`. -/
structure Coupling (h : Handler sig) where
  pairs : sig.Act → sig.Act → Prop
  replies : (a b : sig.Act) → sig.Resp a → sig.Resp b → Prop
  locals : sig.Local → sig.Local → Prop
  shareds : sig.Shared → sig.Shared → Prop
  worlds : sig.World → sig.World → Prop
  allowed : h.Env → Prop
  mode_eq : ∀ {a b}, pairs a b → h.mode a = h.mode b
  perform : ∀ {a b σ τ}, pairs a b → State.Alike locals shareds worlds σ τ →
    Option.Rel (fun x y => replies a b x.1 y.1 ∧ State.Alike locals shareds worlds x.2 y.2)
      (h.perform a σ) (h.perform b τ)
  fires : ∀ {alarm v w}, worlds v w → h.fires alarm v = h.fires alarm w
  disturb : ∀ {e v w}, allowed e → worlds v w → worlds (h.disturb e v) (h.disturb e w)

namespace Coupling

variable (C : Coupling h)

abbrev Alike : State sig → State sig → Prop := State.Alike C.locals C.shareds C.worlds

/-- The same branches have finished, in the same order and with corresponding values. -/
def FinishedAlike {count : Nat} (R : β → β → Prop) :
    List (Fin count × Option β) → List (Fin count × Option β) → Prop :=
  List.Forall₂ fun x y => x.1 = y.1 ∧ Option.Rel R x.2 y.2

/-- The two programs make corresponding requests, and return values with `R`. -/
def Twins {α : Type} : Program sig α → Program sig α → (α → α → Prop) → Prop
  | done value, q, R => ∃ other, q = done other ∧ R value other
  | act a next, q, R => ∃ b next', q = act b next' ∧ C.pairs a b ∧
      ∀ reply reply', C.replies a b reply reply' → Twins (next reply) (next' reply') R
  | @race _ _ β alarm body next, q, R => ∃ (body' : Program sig β) (next' : Option β → Program sig α)
      (S : β → β → Prop), q = race alarm body' next' ∧ Twins body body' S ∧
        (∀ b b', S b b' → Twins (next (some b)) (next' (some b')) R) ∧
        Twins (next none) (next' none) R
  | @region _ _ β loc shared body next, q, R => ∃ (loc' : sig.Local) (shared' : sig.Shared)
      (body' : Program sig β) (next' : β → Program sig α) (S : β → β → Prop),
        q = region loc' shared' body' next' ∧ C.locals loc loc' ∧ C.shareds shared shared' ∧
        Twins body body' S ∧ ∀ b b', S b b' → Twins (next b) (next' b') R
  | @par _ _ β count need locs branches finished next, q, R =>
      ∃ (locs' : Fin count → sig.Local) (branches' : Fin count → Program sig β)
        (finished' : List (Fin count × Option β))
        (next' : List (Fin count × Option β) → Program sig α) (S : β → β → Prop),
        q = par count need locs' branches' finished' next' ∧ (∀ i, C.locals (locs i) (locs' i)) ∧
        (∀ i, Twins (branches i) (branches' i) S) ∧ FinishedAlike S finished finished' ∧
        ∀ f f', FinishedAlike S f f' → Twins (next f) (next' f') R

variable {C} {p q : Program sig α} {R S : α → α → Prop} {σ τ : State sig}

section Rules

/-- Two related values are returned at once. -/
theorem Twins.done {value other : α} (hR : R value other) :
    C.Twins (done value) (done other) R := ⟨other, rfl, hR⟩

/-- Twins are twins for every weaker relation of their values. The induction is on the program. -/
theorem Twins.mono (twins : C.Twins p q R) (hRS : ∀ a b, R a b → S a b) : C.Twins p q S := by
  induction p with
  | done value =>
      obtain ⟨other, rfl, hR⟩ := twins
      exact ⟨other, rfl, hRS _ _ hR⟩
  | act a next ih =>
      obtain ⟨b, next', rfl, hPairs, hNext⟩ := twins
      exact ⟨b, next', rfl, hPairs, fun reply reply' hReply => ih reply (hNext _ _ hReply) hRS⟩
  | race alarm body next _ ih =>
      obtain ⟨body', next', T, rfl, hBody, hSome, hNone⟩ := twins
      exact ⟨body', next', T, rfl, hBody, fun b b' hT => ih (some b) (hSome b b' hT) hRS,
        ih none hNone hRS⟩
  | region loc shared body next _ ih =>
      obtain ⟨loc', shared', body', next', T, rfl, hLoc, hShared, hBody, hNext⟩ := twins
      exact ⟨loc', shared', body', next', T, rfl, hLoc, hShared, hBody,
        fun b b' hT => ih b (hNext b b' hT) hRS⟩
  | par count need locs branches finished next _ ih =>
      obtain ⟨locs', branches', finished', next', T, rfl, hLocs, hBranches, hFinished, hNext⟩ := twins
      exact ⟨locs', branches', finished', next', T, rfl, hLocs, hBranches, hFinished,
        fun f f' hT => ih f (hNext f f' hT) hRS⟩

/-- Twins one after the other are twins: the second ones start from related values, after the same
moves. -/
theorem Twins.bind {f g : α → Program sig β} {T : β → β → Prop} (first : C.Twins p q R)
    (second : ∀ a b, R a b → C.Twins (f a) (g b) T) : C.Twins (p.bind f) (q.bind g) T := by
  induction p with
  | done value =>
      obtain ⟨other, rfl, hR⟩ := first
      exact second _ _ hR
  | act a next ih =>
      obtain ⟨b, next', rfl, hPairs, hNext⟩ := first
      exact ⟨b, _, rfl, hPairs, fun reply reply' hReply => ih reply (hNext _ _ hReply) second⟩
  | race alarm body next _ ih =>
      obtain ⟨body', next', S, rfl, hBody, hSome, hNone⟩ := first
      exact ⟨body', _, S, rfl, hBody, fun b b' hS => ih (some b) (hSome b b' hS) second,
        ih none hNone second⟩
  | region loc shared body next _ ih =>
      obtain ⟨loc', shared', body', next', S, rfl, hLoc, hShared, hBody, hNext⟩ := first
      exact ⟨loc', shared', body', _, S, rfl, hLoc, hShared, hBody,
        fun b b' hS => ih b (hNext b b' hS) second⟩
  | par count need locs branches finished next _ ih =>
      obtain ⟨locs', branches', finished', next', S, rfl, hLocs, hBranches, hFinished, hNext⟩ := first
      exact ⟨locs', branches', finished', _, S, rfl, hLocs, hBranches, hFinished,
        fun f f' hS => ih f (hNext f f' hS) second⟩

/-- What is known of the values which the first of two twins returns. -/
theorem Twins.and {L : Law h} {may : sig.Act → Prop} {P : α → Prop} (twins : C.Twins p q R)
    (hFits : ∀ {a b reply reply'}, C.replies a b reply reply' → L.fits a reply)
    (asks : L.Asks p may P) : C.Twins p q fun a b => R a b ∧ P a := by
  induction p generalizing may with
  | done value =>
      obtain ⟨other, rfl, hR⟩ := twins
      exact .done ⟨hR, asks⟩
  | act a next ih =>
      obtain ⟨b, next', rfl, hPairs, hNext⟩ := twins
      exact ⟨b, next', rfl, hPairs, fun reply reply' hReply =>
        ih reply (hNext _ _ hReply) (asks.2 reply (hFits hReply))⟩
  | race alarm body next ihBody ih =>
      obtain ⟨body', next', S, rfl, hBody, hSome, hNone⟩ := twins
      exact ⟨body', next', _, rfl, ihBody hBody asks.1,
        fun b b' hBoth => ih (some b) (hSome b b' hBoth.1) hBoth.2, ih none hNone asks.2⟩
  | region loc shared body next ihBody ih =>
      obtain ⟨loc', shared', body', next', S, rfl, hLoc, hShared, hBody, hNext⟩ := twins
      exact ⟨loc', shared', body', next', _, rfl, hLoc, hShared, ihBody hBody asks.2,
        fun b b' hBoth => ih b (hNext b b' hBoth.1) hBoth.2⟩
  | par count need locs branches finished next _ ih =>
      obtain ⟨locs', branches', finished', next', S, rfl, hLocs, hBranches, hFinished, hNext⟩ := twins
      exact ⟨locs', branches', finished', next', S, rfl, hLocs, hBranches, hFinished,
        fun f f' hAlike => ih f (hNext f f' hAlike) (asks.2 f)⟩

end Rules

section Reflexive

/-- Every request and every storage corresponds to itself, and every reply to no other. -/
structure Reflexive (C : Coupling h) : Prop where
  pairs : ∀ a, C.pairs a a
  replies : ∀ {a reply reply'}, C.replies a a reply reply' → reply = reply'
  locals : ∀ loc, C.locals loc loc
  shareds : ∀ shared, C.shareds shared shared

/-- Branches that have finished alike, with equal values, are equal. -/
theorem FinishedAlike.eq {count : Nat} {f f' : List (Fin count × Option α)}
    (alike : FinishedAlike Eq f f') : f = f' := by
  induction alike with
  | nil => rfl
  | @cons x y _ _ hHead _ ih =>
      obtain ⟨i, a⟩ := x
      obtain ⟨j, b⟩ := y
      obtain ⟨hIndex, hValue⟩ := hHead
      cases hIndex
      rw [ih]
      generalize a = a, b = b at hValue
      cases hValue with
      | none => rfl
      | some hEq => rw [hEq]

/-- They are alike to themselves. -/
theorem FinishedAlike.refl {count : Nat} (f : List (Fin count × Option α)) :
    FinishedAlike Eq f f := by
  refine List.forall₂_same.mpr fun x _ => ⟨rfl, ?_⟩
  cases x.2 with
  | none => exact .none
  | some a => exact .some rfl

/-- Every program is a twin of its own, when each request corresponds to itself. The induction is on
the program. -/
theorem Twins.refl (reflexive : C.Reflexive) (p : Program sig α) : C.Twins p p Eq := by
  induction p with
  | done value => exact .done rfl
  | act a next ih =>
      refine ⟨a, next, rfl, reflexive.pairs a, fun reply reply' hReply => ?_⟩
      rw [reflexive.replies hReply]
      exact ih reply'
  | race alarm body next ihBody ih =>
      refine ⟨body, next, Eq, rfl, ihBody, fun b b' hEq => ?_, ih none⟩
      rw [hEq]
      exact ih (some b')
  | region loc shared body next ihBody ih =>
      refine ⟨loc, shared, body, next, Eq, rfl, reflexive.locals loc, reflexive.shareds shared,
        ihBody, fun b b' hEq => ?_⟩
      rw [hEq]
      exact ih b'
  | par count need locs branches finished next ihBranch ih =>
      refine ⟨locs, branches, finished, next, Eq, rfl, fun i => reflexive.locals _, ihBranch,
        .refl finished, fun f f' hAlike => ?_⟩
      rw [hAlike.eq]
      exact ih f'

end Reflexive

section Turns

/-- The same branches have finished, -/
theorem FinishedAlike.map_fst {count : Nat} {f f' : List (Fin count × Option α)}
    (alike : FinishedAlike R f f') : f.map Prod.fst = f'.map Prod.fst := by
  induction alike with
  | nil => rfl
  | cons hHead _ ih => rw [List.map_cons, List.map_cons, hHead.1, ih]

/-- also when one more has. -/
theorem FinishedAlike.snoc {count : Nat} {f f' : List (Fin count × Option α)}
    (alike : FinishedAlike R f f') (i : Fin count) {x y : Option α} (hRel : Option.Rel R x y) :
    FinishedAlike R (f ++ [(i, x)]) (f' ++ [(i, y)]) :=
  List.rel_append alike (.cons ⟨rfl, hRel⟩ .nil)

/-- Alike states stay so when an execution is entered in both, -/
theorem Alike.enter {loc loc' : sig.Local} {shared shared' : sig.Shared} (alike : C.Alike σ τ)
    (hLoc : C.locals loc loc') (hShared : C.shareds shared shared') :
    C.Alike (σ.enter loc shared) (τ.enter loc' shared') := ⟨hLoc, hShared, alike.world⟩

/-- when it is left again, -/
theorem Alike.leave {inner inner' : State sig} (alike : C.Alike σ τ) (hInner : C.Alike inner inner') :
    C.Alike (σ.leave inner) (τ.leave inner') := ⟨alike.loc, alike.shared, hInner.world⟩

/-- and when a branch gets storage of its own. -/
theorem Alike.fork {loc loc' : sig.Local} (alike : C.Alike σ τ) (hLoc : C.locals loc loc') :
    C.Alike (σ.fork loc) (τ.fork loc') := ⟨hLoc, alike.shared, alike.world⟩

/-- Configurations of twins in corresponding storage. -/
structure ConfigTwins (C : Coupling h) (R : α → α → Prop) (c d : Config sig α) : Prop where
  twins : C.Twins c.1 d.1 R
  alike : C.Alike c.2 d.2

/-- Twins return together. -/
theorem Twins.value (twins : C.Twins p q R) : Option.Rel R p.value? q.value? := by
  cases p with
  | done value =>
      obtain ⟨other, rfl, hR⟩ := twins
      exact .some hR
  | act a next =>
      obtain ⟨b, next', rfl, _⟩ := twins
      exact .none
  | race alarm body next =>
      obtain ⟨body', next', T, rfl, _⟩ := twins
      exact .none
  | region loc shared body next =>
      obtain ⟨loc', shared', body', next', T, rfl, _⟩ := twins
      exact .none
  | par count need locs branches finished next =>
      obtain ⟨locs', branches', finished', next', T, rfl, _⟩ := twins
      exact .none

/-- A race ends alike on both sides: with related values, or with the alarm. -/
theorem ConfigTwins.closeRace {alarm : sig.Alarm} {next next' : Option β → Program sig α}
    {S : β → β → Prop} {c d : Config sig β} (body : ConfigTwins C S c d)
    (hSome : ∀ b b', S b b' → C.Twins (next (some b)) (next' (some b')) R)
    (hNone : C.Twins (next none) (next' none) R)
    (hAdvance : ∀ b b' σ τ, S b b' → C.Alike σ τ →
      ConfigTwins C R (h.advance (next (some b)) σ) (h.advance (next' (some b')) τ)) :
    ConfigTwins C R (h.closeRace alarm next c) (h.closeRace alarm next' d) := by
  have hValue := body.twins.value
  rw [Handler.closeRace, Handler.closeRace]
  generalize c.1.value? = x at hValue
  generalize d.1.value? = y at hValue
  cases hValue with
  | some hS => exact hAdvance _ _ _ _ hS body.alike
  | none => exact ⟨⟨d.1, next', S, rfl, body.twins, hSome, hNone⟩, body.alike⟩

/-- So does an execution within another one. -/
theorem ConfigTwins.closeRegion {next next' : β → Program sig α} {S : β → β → Prop}
    {c d : Config sig β} (body : ConfigTwins C S c d) (outer : C.Alike σ τ)
    (hNext : ∀ b b', S b b' → C.Twins (next b) (next' b') R)
    (hAdvance : ∀ b b' σ τ, S b b' → C.Alike σ τ →
      ConfigTwins C R (h.advance (next b) σ) (h.advance (next' b') τ)) :
    ConfigTwins C R (h.closeRegion σ next c) (h.closeRegion τ next' d) := by
  have hValue := body.twins.value
  rw [Handler.closeRegion, Handler.closeRegion]
  generalize c.1.value? = x at hValue
  generalize d.1.value? = y at hValue
  cases hValue with
  | some hS => exact hAdvance _ _ _ _ hS (outer.leave body.alike)
  | none =>
      exact ⟨⟨_, _, d.1, next', S, rfl, body.alike.loc, body.alike.shared, body.twins, hNext⟩,
        outer.leave body.alike⟩

/-- Twins that run until they have to wait stay twins. Whatever is answered at once is answered
alike, so both come to corresponding requests or to related values. -/
theorem Twins.advance (twins : C.Twins p q R) (alike : C.Alike σ τ) :
    ConfigTwins C R (h.advance p σ) (h.advance q τ) := by
  induction p generalizing σ τ with
  | done value =>
      obtain ⟨other, rfl, hR⟩ := twins
      exact ⟨.done hR, alike⟩
  | act a next ih =>
      obtain ⟨b, next', rfl, hPairs, hNext⟩ := twins
      have hPerform := C.perform hPairs alike
      rw [Handler.advance, Handler.advance, C.mode_eq hPairs]
      split
      · generalize h.perform a σ = x at hPerform
        generalize h.perform b τ = y at hPerform
        cases hPerform with
        | none => exact ⟨⟨b, next', rfl, hPairs, hNext⟩, alike⟩
        | some hBoth => exact ih _ (hNext _ _ hBoth.1) hBoth.2
      · exact ⟨⟨b, next', rfl, hPairs, hNext⟩, alike⟩
  | race alarm body next ihBody ih =>
      obtain ⟨body', next', S, rfl, hBody, hSome, hNone⟩ := twins
      rw [advance_race, advance_race]
      exact (ihBody hBody alike).closeRace hSome hNone fun b b' _ _ hS later =>
        ih (some b) (hSome b b' hS) later
  | region loc shared body next ihBody ih =>
      obtain ⟨loc', shared', body', next', S, rfl, hLoc, hShared, hBody, hNext⟩ := twins
      rw [advance_region, advance_region]
      exact (ihBody hBody (alike.enter hLoc hShared)).closeRegion alike hNext
        fun b b' _ _ hS later => ih b (hNext b b' hS) later
  | par count need locs branches finished next _ _ =>
      obtain ⟨locs', branches', finished', next', S, rfl, hRest⟩ := twins
      exact ⟨⟨locs', branches', finished', next', S, rfl, hRest⟩, alike⟩

/-- Twins can be dropped at the same points: they wait for corresponding requests, and where one has
branches so has the other. -/
theorem Twins.droppable_eq (twins : C.Twins p q R) : h.droppable p = h.droppable q := by
  induction p with
  | done value =>
      obtain ⟨other, rfl, _⟩ := twins
      rfl
  | act a next _ =>
      obtain ⟨b, next', rfl, hPairs, _⟩ := twins
      rw [Handler.droppable, Handler.droppable, C.mode_eq hPairs]
  | race alarm body next ihBody _ =>
      obtain ⟨body', next', S, rfl, hBody, _⟩ := twins
      exact ihBody hBody
  | region loc shared body next ihBody _ =>
      obtain ⟨loc', shared', body', next', S, rfl, _, _, hBody, _⟩ := twins
      exact ihBody hBody
  | par count need locs branches finished next ihBranch _ =>
      obtain ⟨locs', branches', finished', next', S, rfl, _, hBranches, hFinished, _⟩ := twins
      have hEach : ∀ i, h.droppable (branches i) = h.droppable (branches' i) :=
        fun i => ihBranch i (hBranches i)
      simp only [Handler.droppable, hFinished.map_fst, hEach]

/-- After a branch of both programs has taken its turn, their storage still corresponds, and the
branch has finished in both or in neither. -/
theorem ConfigTwins.closeBranch {count need : Nat} {locs locs' : Fin count → sig.Local}
    {branches branches' : Fin count → Program sig β} {finished finished' : List (Fin count × Option β)}
    {next next' : List (Fin count × Option β) → Program sig α} {S : β → β → Prop} {i : Fin count}
    {c d : Config sig β} (branch : ConfigTwins C S c d) (outer : C.Alike σ τ)
    (hLocs : ∀ i, C.locals (locs i) (locs' i)) (hBranches : ∀ i, C.Twins (branches i) (branches' i) S)
    (hFinished : FinishedAlike S finished finished')
    (hNext : ∀ f f', FinishedAlike S f f' → C.Twins (next f) (next' f') R) :
    ConfigTwins C R (Handler.closeBranch σ need locs branches finished next i c)
      (Handler.closeBranch τ need locs' branches' finished' next' i d) := by
  refine ⟨⟨_, _, _, next', S, rfl, fun j => ?_, fun j => ?_, ?_, hNext⟩, ?_⟩
  · by_cases hSame : j = i
    · subst hSame
      rw [Function.update_self, Function.update_self]
      exact branch.alike.loc
    · rw [Function.update_of_ne hSame, Function.update_of_ne hSame]
      exact hLocs j
  · by_cases hSame : j = i
    · subst hSame
      rw [Function.update_self, Function.update_self]
      exact branch.twins
    · rw [Function.update_of_ne hSame, Function.update_of_ne hSame]
      exact hBranches j
  · have hValue := branch.twins.value
    generalize c.1.value? = x at hValue
    generalize d.1.value? = y at hValue
    cases hValue with
    | none => exact hFinished
    | some hS => exact hFinished.snoc i (.some hS)
  · exact branch.alike.fork outer.loc

/-- Programs whose branches are twins take the same turns, when the branches do: they are joined
alike, the same branch takes a turn in both, or the same one is lost. -/
theorem Twins.step_par {count need : Nat} {locs locs' : Fin count → sig.Local}
    {branches branches' : Fin count → Program sig β} {finished finished' : List (Fin count × Option β)}
    {next next' : List (Fin count × Option β) → Program sig α} {S : β → β → Prop}
    (hLocs : ∀ i, C.locals (locs i) (locs' i)) (hBranches : ∀ i, C.Twins (branches i) (branches' i) S)
    (hFinished : FinishedAlike S finished finished')
    (hNext : ∀ f f', FinishedAlike S f f' → C.Twins (next f) (next' f') R)
    (hTurn : ∀ (i : Fin count) (move : Move) {σ τ : State sig}, C.Alike σ τ →
      Option.Rel (ConfigTwins C S) (h.step (branches i) move σ) (h.step (branches' i) move τ))
    (move : Move) (alike : C.Alike σ τ) :
    Option.Rel (ConfigTwins C R) (h.step (par count need locs branches finished next) move σ)
      (h.step (par count need locs' branches' finished' next') move τ) := by
  have hLength := hFinished.length_eq
  have hMembers := hFinished.map_fst
  have hDrop : ∀ i, h.droppable (branches i) = h.droppable (branches' i) :=
    fun i => (hBranches i).droppable_eq
  cases move with
  | here =>
      simp only [Handler.step, hLength, hMembers, hDrop]
      split
      · exact .some ((hNext _ _ hFinished).advance alike)
      · exact .none
  | branch index move =>
      simp only [Handler.step, hMembers]
      split
      · rename_i bound
        split
        · exact .none
        · have hStep := hTurn ⟨index, bound⟩ move (alike.fork (hLocs ⟨index, bound⟩))
          generalize h.step (branches ⟨index, bound⟩) move _ = x at hStep
          generalize h.step (branches' ⟨index, bound⟩) move _ = y at hStep
          cases hStep with
          | none => exact .none
          | some inner => exact .some (inner.closeBranch alike hLocs hBranches hFinished hNext)
      · exact .none
  | crash index =>
      simp only [Handler.step, hMembers, hDrop]
      split
      · rename_i bound
        split
        · exact .none
        · exact .some ⟨⟨locs', branches', _, next', S, rfl, hLocs, hBranches,
            hFinished.snoc _ .none, hNext⟩, alike⟩
      · exact .none
  | _ => exact .none

/-- Twins take the same turns, and stay twins. The induction is on the program: corresponding
requests are answered, the same race elapses, or corresponding parts of both take the turn. -/
theorem Twins.step (twins : C.Twins p q R) (move : Move) (alike : C.Alike σ τ) :
    Option.Rel (ConfigTwins C R) (h.step p move σ) (h.step q move τ) := by
  induction p generalizing σ τ move with
  | done value =>
      obtain ⟨other, rfl, _⟩ := twins
      rw [step_done, step_done]
      exact .none
  | act a next _ =>
      obtain ⟨b, next', rfl, hPairs, hNext⟩ := twins
      have hPerform := C.perform hPairs alike
      cases move with
      | here =>
          rw [Handler.step, Handler.step]
          generalize h.perform a σ = x at hPerform
          generalize h.perform b τ = y at hPerform
          cases hPerform with
          | none => exact .none
          | some hBoth => exact .some ((hNext _ _ hBoth.1).advance hBoth.2)
      | _ => exact .none
  | race alarm body next ihBody _ =>
      obtain ⟨body', next', S, rfl, hBody, hSome, hNone⟩ := twins
      cases move with
      | expire =>
          rw [Handler.step, Handler.step, C.fires alike.world, hBody.droppable_eq]
          split
          · exact .some (hNone.advance alike)
          · exact .none
      | inner move =>
          have hStep := ihBody hBody move alike
          rw [Handler.step, Handler.step]
          generalize h.step body move σ = x at hStep
          generalize h.step body' move τ = y at hStep
          cases hStep with
          | none => exact .none
          | some inner =>
              exact .some (inner.closeRace hSome hNone fun b b' _ _ hS later =>
                (hSome b b' hS).advance later)
      | _ => exact .none
  | region loc shared body next ihBody _ =>
      obtain ⟨loc', shared', body', next', S, rfl, hLoc, hShared, hBody, hNext⟩ := twins
      cases move with
      | inner move =>
          have hStep := ihBody hBody move (alike.enter hLoc hShared)
          rw [Handler.step, Handler.step]
          generalize h.step body move (σ.enter loc shared) = x at hStep
          generalize h.step body' move (τ.enter loc' shared') = y at hStep
          cases hStep with
          | none => exact .none
          | some inner =>
              exact .some (inner.closeRegion alike hNext fun b b' _ _ hS later =>
                (hNext b b' hS).advance later)
      | _ => exact .none
  | par count need locs branches finished next ihBranch _ =>
      obtain ⟨locs', branches', finished', next', S, rfl, hLocs, hBranches, hFinished, hNext⟩ := twins
      exact Twins.step_par hLocs hBranches hFinished hNext
        (fun i move _ _ later => ihBranch i (hBranches i) move later) move alike

/-- Twins wait for corresponding replies: whoever watches one of them from outside sees requests
that stand for those of the other. -/
theorem Twins.awaits (twins : C.Twins p q R) : List.Forall₂ C.pairs (h.awaits p) (h.awaits q) := by
  induction p with
  | done value =>
      obtain ⟨other, rfl, _⟩ := twins
      exact .nil
  | act a next _ =>
      obtain ⟨b, next', rfl, hPairs, _⟩ := twins
      rw [Handler.awaits, Handler.awaits, C.mode_eq hPairs]
      split
      · exact .nil
      · exact .cons hPairs .nil
  | race alarm body next ihBody _ =>
      obtain ⟨body', next', S, rfl, hBody, _⟩ := twins
      exact ihBody hBody
  | region loc shared body next ihBody _ =>
      obtain ⟨loc', shared', body', next', S, rfl, _, _, hBody, _⟩ := twins
      exact ihBody hBody
  | par count need locs branches finished next ihBranch _ =>
      obtain ⟨locs', branches', finished', next', S, rfl, _, hBranches, hFinished, _⟩ := twins
      rw [Handler.awaits, Handler.awaits, hFinished.map_fst]
      have hIndices : ∀ indices : List (Fin count), List.Forall₂ Eq indices indices :=
        fun indices => List.forall₂_refl indices
      refine List.rel_flatMap (hIndices _) fun i j hSame => ?_
      rw [← hSame]
      exact ihBranch i (hBranches i)

/-- A choice of which the environment's part is allowed. -/
def Permits (C : Coupling h) : h.Choice → Prop
  | .env e => C.allowed e
  | .turn _ => True

/-- One choice of a run leads twins to twins, or is refused by both. -/
theorem ConfigTwins.choose {c d : Config sig α} (twins : ConfigTwins C R c d) {choice : h.Choice}
    (hPermits : C.Permits choice) :
    Option.Rel (ConfigTwins C R) (h.choose c choice) (h.choose d choice) := by
  cases choice with
  | env e =>
      exact .some ⟨twins.twins,
        ⟨twins.alike.loc, twins.alike.shared, C.disturb hPermits twins.alike.world⟩⟩
  | turn move => exact twins.twins.step move twins.alike

/-- Twins run abreast: a sequence of choices is a run of both or of neither. -/
theorem ConfigTwins.run {c d : Config sig α} (twins : ConfigTwins C R c d) {choices : List h.Choice}
    (hPermits : ∀ choice ∈ choices, C.Permits choice) :
    Option.Rel (ConfigTwins C R) (h.run c choices) (h.run d choices) := by
  induction choices generalizing c d with
  | nil => exact .some twins
  | cons choice rest ih =>
      have hFirst := twins.choose (hPermits choice List.mem_cons_self)
      rw [run_cons, run_cons]
      generalize h.choose c choice = x at hFirst
      generalize h.choose d choice = y at hFirst
      cases hFirst with
      | none => exact .none
      | some next => exact ih next fun x hMem => hPermits x (List.mem_cons_of_mem _ hMem)

end Turns

section Failures

/-- Both computations fail with the same error, or return values with `R`. -/
inductive Outcome (R : α → α → Prop) : Except ε α → Except ε α → Prop where
  | ok {a b : α} (hR : R a b) : Outcome R (.ok a) (.ok b)
  | error (e : ε) : Outcome R (.error e) (.error e)

variable (C) in
/-- Twins that may fail, and then do so in the same way. -/
def TwinRuns (x y : ExceptT ε (Program sig) α) (R : α → α → Prop) : Prop :=
  C.Twins x.run y.run (Outcome R)

variable {x y : ExceptT ε (Program sig) α}

/-- Outcomes that are alike, with equal values, are equal. -/
theorem Outcome.eq {result other : Except ε α} (outcome : Outcome Eq result other) :
    result = other := by
  cases outcome with
  | ok hEq => rw [hEq]
  | error e => rfl

/-- An outcome is like itself. -/
theorem Outcome.refl (result : Except ε α) : Outcome Eq result result := by
  cases result with
  | ok value => exact .ok rfl
  | error e => exact .error e

/-- Fallible programs return related values, -/
theorem TwinRuns.pure {a b : α} (hR : R a b) :
    C.TwinRuns (Pure.pure a : ExceptT ε (Program sig) α) (Pure.pure b) R := .done (.ok hR)

/-- or the same error, -/
theorem TwinRuns.throw {e : ε} :
    C.TwinRuns (throw e : ExceptT ε (Program sig) α) (throw e) R := .done (.error e)

/-- or outcomes that are alike. -/
theorem TwinRuns.mk {result other : Except ε α} (hOutcome : Outcome R result other) :
    C.TwinRuns (ExceptT.mk (Program.done result)) (ExceptT.mk (Program.done other)) R :=
  .done hOutcome

/-- One after the other, they fail alike or go on from related values. -/
theorem TwinRuns.seq {f g : α → ExceptT ε (Program sig) β} {T : β → β → Prop}
    (first : C.TwinRuns x y R) (second : ∀ a b, R a b → C.TwinRuns (f a) (g b) T) :
    C.TwinRuns (x >>= f) (y >>= g) T := by
  apply Twins.bind first
  intro result other hOutcome
  cases hOutcome with
  | ok hR => exact second _ _ hR
  | error e => exact TwinRuns.throw

/-- Infallible twins are twins among the fallible ones. -/
theorem TwinRuns.lift (twins : C.Twins p q R) :
    C.TwinRuns (liftM p : ExceptT ε (Program sig) α) (liftM q) R :=
  Twins.bind twins fun _ _ hR => .done (.ok hR)

/-- The outcomes of twins, for their callers to look at. -/
theorem TwinRuns.outcome (twins : C.TwinRuns x y R) :
    C.TwinRuns (ExceptT.lift x.run : ExceptT ε (Program sig) (Except ε α)) (ExceptT.lift y.run)
      (Outcome R) := TwinRuns.lift twins

end Failures

end Coupling
end Async
