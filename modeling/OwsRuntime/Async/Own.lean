import OwsRuntime.Async.Inversion
import OwsRuntime.Async.Requests

/-! What a program does to the storage of its own task. Regions and branches have storage
of their own, so that only the requests of the task itself matter here, whatever the other
tasks do meanwhile. -/
namespace Async

open Program Handler

variable {sig : Signature} {h : Handler sig} {α β ε : Type}

/-- A predicate of the world which nothing that may happen makes false. -/
structure Lasting (h : Handler sig) (P : sig.World → Prop) : Prop where
  perform : ∀ {a σ reply τ}, P σ.world → h.perform a σ = some (reply, τ) → P τ.world
  disturb : ∀ {w} e, P w → P (h.disturb e w)

namespace Lasting

variable {P : sig.World → Prop} (lasting : Lasting h P)

include lasting

/-- A property of the world which no request of the program destroys holds wherever it comes to
within a turn. The induction is on the program. -/
theorem advance (p : Program sig α) {σ : State sig} (hP : P σ.world) :
    P (h.advance p σ).2.world := by
  induction p generalizing σ with
  | done value => exact hP
  | act a next ih =>
      rw [Handler.advance]
      split
      · split
        · rename_i reply τ hPerform
          exact ih reply (lasting.perform hP hPerform)
        · exact hP
      · exact hP
  | race alarm body next ihBody ih =>
      rw [Handler.advance]
      split
      · exact ih _ (ihBody hP)
      · exact ihBody hP
  | region loc shared body next ihBody ih =>
      rw [Handler.advance]
      split
      · exact ih _ (ihBody hP)
      · exact ihBody hP
  | par count need locs branches finished next _ _ => exact hP

/-- A property of the world which no request of the program and nothing around it destroys holds
after each step. The induction is on the program, as a step may be one of any part of it. -/
theorem step {p : Program sig α} {move : Move} {σ : State sig} {d : Config sig α}
    (hP : P σ.world) (hStep : h.step p move σ = some d) : P d.2.world := by
  induction p generalizing σ move with
  | done value => cases (h.step_done value move σ).symm.trans hStep
  | act a next _ =>
      cases move with
      | here =>
          obtain ⟨⟨reply, τ⟩, hPerform, rfl⟩ := Option.map_eq_some_iff.mp hStep
          exact lasting.advance (next reply) (lasting.perform hP hPerform)
      | _ => cases hStep
  | race alarm body next ihBody _ =>
      cases move with
      | expire =>
          rw [Handler.step] at hStep
          split at hStep <;> cases hStep
          exact lasting.advance (next none) hP
      | inner move =>
          obtain ⟨c, hInner, rfl⟩ := Option.map_eq_some_iff.mp hStep
          have hBody := ihBody hP hInner
          unfold closeRace
          split
          · exact lasting.advance _ hBody
          · exact hBody
      | _ => cases hStep
  | region loc shared body next ihBody _ =>
      cases move with
      | inner move =>
          obtain ⟨c, hInner, rfl⟩ := Option.map_eq_some_iff.mp hStep
          have hBody := @ihBody _ (σ.enter loc shared) _ hP hInner
          unfold closeRegion
          split
          · exact lasting.advance _ hBody
          · exact hBody
      | _ => cases hStep
  | par count need locs branches finished next ihBranch _ =>
      cases move with
      | here =>
          rw [Handler.step] at hStep
          split at hStep <;> cases hStep
          exact lasting.advance _ hP
      | branch index move =>
          rw [Handler.step] at hStep
          split at hStep
          · rename_i bound
            split at hStep
            · cases hStep
            · obtain ⟨c, hInner, rfl⟩ := Option.map_eq_some_iff.mp hStep
              exact @ihBranch _ _ (σ.fork (locs ⟨index, bound⟩)) _ hP hInner
          · cases hStep
      | crash index =>
          rw [Handler.step] at hStep
          split at hStep
          · split at hStep <;> cases hStep
            exact hP
          · cases hStep
      | _ => cases hStep

theorem follows {allowed : h.Choice → Prop} {c d : Config sig α}
    (follows : Follows allowed c d) (hP : P c.2.world) : P d.2.world := by
  apply follows.induction (fun c => P c.2.world) hP
  intro c choice d hKept _ hChoose
  cases choice with
  | env e =>
      cases hChoose
      exact lasting.disturb e hKept
  | turn move => exact lasting.step hKept hChoose

end Lasting

/-- How a request may change the storage of the task that makes it. `inv` ties this storage
to the world, whatever other tasks do. -/
structure Effect (h : Handler sig) where
  inv : sig.Local → sig.World → Prop
  lasting : ∀ l, Lasting h (inv l)
  may : (a : sig.Act) → sig.Resp a → sig.Local → sig.Local → Prop
  perform_may : ∀ {a σ reply τ}, inv σ.loc σ.world → h.perform a σ = some (reply, τ) →
    may a reply σ.loc τ.loc ∧ inv τ.loc τ.world

namespace Effect

variable (E : Effect h)

/-- From the storage `l` on, `I` holds wherever the program may be dropped, and `Q` of its
result and the storage then. -/
def Leaves {α : Type} (I : sig.Local → Prop) :
    Program sig α → (α → sig.Local → Prop) → sig.Local → Prop
  | done value, Q, l => Q value l
  | act a next, Q, l =>
      (h.mode a = .await → I l) ∧ ∀ reply m, E.may a reply l m → Leaves I (next reply) Q m
  | race _ body next, Q, l =>
      Leaves I body (fun b m => Leaves I (next (some b)) Q m) l ∧
        ∀ m, I m → Leaves I (next none) Q m
  | region _ _ _ next, Q, l => I l ∧ ∀ b, Leaves I (next b) Q l
  | par _ _ _ _ _ next, Q, l => I l ∧ ∀ finished, Leaves I (next finished) Q l

variable {E} {I : sig.Local → Prop} {l : sig.Local}

theorem Leaves.mono {p : Program sig α} {Q R : α → sig.Local → Prop} (leaves : E.Leaves I p Q l)
    (hQR : ∀ value m, Q value m → R value m) : E.Leaves I p R l := by
  induction p generalizing l with
  | done value => exact hQR value l leaves
  | act a next ih => exact ⟨leaves.1, fun reply m hMay => ih reply (leaves.2 reply m hMay) hQR⟩
  | race alarm body next ihBody ih =>
      refine ⟨ihBody leaves.1 fun b m hNext => ih (some b) hNext hQR, fun m hI => ?_⟩
      exact ih none (leaves.2 m hI) hQR
  | region loc shared body next _ ih => exact ⟨leaves.1, fun b => ih b (leaves.2 b) hQR⟩
  | par count need locs branches finished next _ ih =>
      exact ⟨leaves.1, fun finished => ih finished (leaves.2 finished) hQR⟩

/-- What holds wherever the program is dropped adds to what holds of its result. -/
theorem Leaves.and {p : Program sig α} {Q R : α → sig.Local → Prop} (first : E.Leaves I p Q l)
    (second : E.Leaves (fun _ => True) p R l) :
    E.Leaves I p (fun value m => Q value m ∧ R value m) l := by
  induction p generalizing l with
  | done value => exact ⟨first, second⟩
  | act a next ih =>
      exact ⟨first.1, fun reply m hMay => ih reply (first.2 reply m hMay) (second.2 reply m hMay)⟩
  | race alarm body next ihBody ih =>
      refine ⟨(ihBody first.1 second.1).mono fun b m hNext => ih (some b) hNext.1 hNext.2, ?_⟩
      exact fun m hI => ih none (first.2 m hI) (second.2 m trivial)
  | region loc shared body next _ ih =>
      exact ⟨first.1, fun b => ih b (first.2 b) (second.2 b)⟩
  | par count need locs branches finished next _ ih =>
      exact ⟨first.1, fun finished => ih finished (first.2 finished) (second.2 finished)⟩

theorem Leaves.any (p : Program sig α) : E.Leaves (fun _ => True) p (fun _ _ => True) l := by
  induction p generalizing l with
  | done value => trivial
  | act a next ih => exact ⟨fun _ => trivial, fun reply _ _ => ih reply⟩
  | race alarm body next ihBody ih =>
      exact ⟨ihBody.mono fun b _ _ => ih (some b), fun _ _ => ih none⟩
  | region loc shared body next _ ih => exact ⟨trivial, fun b => ih b⟩
  | par count need locs branches finished next _ ih => exact ⟨trivial, fun finished => ih finished⟩

theorem Leaves.bind {p : Program sig α} {f : α → Program sig β} {Q : β → sig.Local → Prop}
    (leaves : E.Leaves I p (fun value m => E.Leaves I (f value) Q m) l) :
    E.Leaves I (p.bind f) Q l := by
  induction p generalizing l with
  | done value => exact leaves
  | act a next ih => exact ⟨leaves.1, fun reply m hMay => ih reply (leaves.2 reply m hMay)⟩
  | race alarm body next _ ih =>
      refine ⟨leaves.1.mono fun b m hNext => ih (some b) hNext, fun m hI => ?_⟩
      exact ih none (leaves.2 m hI)
  | region loc shared body next _ ih => exact ⟨leaves.1, fun b => ih b (leaves.2 b)⟩
  | par count need locs branches finished next _ ih =>
      exact ⟨leaves.1, fun finished => ih finished (leaves.2 finished)⟩

/-- Composition, with what is known of the first result. -/
theorem Leaves.then_ {p : Program sig α} {f : α → Program sig β} {R : α → sig.Local → Prop}
    {Q : β → sig.Local → Prop} (first : E.Leaves I p R l)
    (second : ∀ value m, R value m → E.Leaves I (f value) Q m) : E.Leaves I (p >>= f) Q l :=
  (first.mono second).bind

/-- A program that may fail, and then another one. -/
theorem Leaves.seq {p : ExceptT ε (Program sig) α} {f : α → ExceptT ε (Program sig) β}
    {R : Except ε α → sig.Local → Prop} {Q : Except ε β → sig.Local → Prop}
    (first : E.Leaves I p.run R l)
    (hOk : ∀ value m, R (.ok value) m → E.Leaves I (f value).run Q m)
    (hError : ∀ e m, R (.error e) m → Q (.error e) m) : E.Leaves I (p >>= f).run Q l := by
  apply first.then_
  intro result m hR
  cases result with
  | ok value => exact hOk value m hR
  | error e => exact hError e m hR

/-- A program that cannot fail, and then one that may. -/
theorem Leaves.lift {p : Program sig α} {f : α → ExceptT ε (Program sig) β}
    {R : α → sig.Local → Prop} {Q : Except ε β → sig.Local → Prop} (first : E.Leaves I p R l)
    (second : ∀ value m, R value m → E.Leaves I (f value).run Q m) :
    E.Leaves I ((liftM p : ExceptT ε (Program sig) α) >>= f).run Q l := by
  show E.Leaves I ((p.bind (Program.done ∘ Except.ok)).bind (ExceptT.bindCont f)) Q l
  rw [bind_assoc]
  exact (first.mono second).bind

theorem Leaves.request {a : sig.Act} {Q : sig.Resp a → sig.Local → Prop}
    (hAwait : h.mode a = .await → I l) (hMay : ∀ reply m, E.may a reply l m → Q reply m) :
    E.Leaves I (Program.request a) Q l := ⟨hAwait, hMay⟩

/-- The environment does not break the invariant. -/
theorem inv_drift {allowed : h.Choice → Prop} {v w : sig.World} (hInv : E.inv l v)
    (hDrift : Drifts allowed v w) : E.inv l w := by
  induction hDrift with
  | refl => exact hInv
  | tail _ hLast ih =>
      obtain ⟨e, _, rfl⟩ := hLast
      exact (E.lasting l).disturb e ih

/-- In every run, `I` holds wherever the program may be dropped, and `Q` of its result and
the storage of its task then. -/
theorem Leaves.follows {allowed : h.Choice → Prop} {p : Program sig α}
    {Q : α → sig.Local → Prop} {σ : State sig} (leaves : E.Leaves I p Q σ.loc)
    (hInv : E.inv σ.loc σ.world) {d : Config sig α} (follows : Follows allowed (h.advance p σ) d) :
    E.inv d.2.loc d.2.world ∧ (∀ value, d.1.value? = some value → Q value d.2.loc) ∧
      (d.1.value? = none → h.droppable d.1 = true → I d.2.loc) := by
  induction p generalizing σ allowed with
  | done value =>
      obtain ⟨w, hWorld, rfl⟩ := Follows.done_cases follows
      refine ⟨inv_drift hInv hWorld, ?_, fun hRunning => (by cases hRunning)⟩
      intro other hOther
      cases hOther
      exact leaves
  | act a next ih =>
      have hWaits : ∀ c : Config sig _, Follows allowed (act a next, σ) c →
          E.inv c.2.loc c.2.world ∧ (∀ value, c.1.value? = some value → Q value c.2.loc) ∧
            (c.1.value? = none → h.droppable c.1 = true → I c.2.loc) := by
        intro c hFollows
        rcases hFollows.act_cases with ⟨w, hWorld, rfl⟩ | ⟨w, reply, τ, hWorld, hPerform, hRest⟩
        · refine ⟨inv_drift hInv hWorld, fun value hValue => (by cases hValue), fun _ hDrop => ?_⟩
          exact leaves.1 (of_decide_eq_true hDrop)
        · have hMay := @Effect.perform_may _ _ E a { σ with world := w } reply τ
            (inv_drift hInv hWorld) hPerform
          exact ih reply (leaves.2 reply τ.loc hMay.1) hMay.2 hRest
      by_cases hMode : h.mode a = .sync
      · cases hPerform : h.perform a σ with
        | none =>
            rw [advance, if_pos hMode, hPerform] at follows
            exact hWaits d follows
        | some r =>
            obtain ⟨reply, τ⟩ := r
            rw [h.advance_act_sync next hMode hPerform] at follows
            have hMay := E.perform_may hInv hPerform
            exact ih reply (leaves.2 reply τ.loc hMay.1) hMay.2 follows
      · rw [h.advance_act_of_ne next σ hMode] at follows
        exact hWaits d follows
  | race alarm body next ihBody ih =>
      rw [h.advance_race] at follows
      rcases follows.race_cases with
        ⟨e, hInner, hRunning, rfl⟩ | ⟨b, τ, hInner, hRest⟩ | ⟨e, hInner, ⟨hRunning, hDrop, _⟩, hRest⟩
      · obtain ⟨hKept, _, hWaits⟩ := ihBody leaves.1 hInv hInner
        exact ⟨hKept, fun value hValue => (by cases hValue), fun _ hDrop => hWaits hRunning hDrop⟩
      · obtain ⟨hKept, hNext, _⟩ := ihBody leaves.1 hInv hInner
        exact ih (some b) (hNext b rfl) hKept hRest
      · obtain ⟨hKept, _, hWaits⟩ := ihBody leaves.1 hInv hInner
        exact ih none (leaves.2 _ (hWaits hRunning hDrop)) hKept hRest
  | region loc shared body next _ ih =>
      have hBody := @Lasting.advance _ _ _ _ (E.lasting σ.loc) body (σ.enter loc shared) hInv
      rw [h.advance_region] at follows
      rcases follows.region_cases with ⟨e, hInner, _, rfl⟩ | ⟨b, τ, hInner, hRest⟩
      · have hKept := (E.lasting σ.loc).follows hInner hBody
        exact ⟨hKept, fun value hValue => (by cases hValue), fun _ _ => leaves.1⟩
      · exact @ih b _ _ (σ.leave τ) (leaves.2 b) ((E.lasting σ.loc).follows hInner hBody) d hRest
  | par count need locs branches finished next _ ih =>
      rcases Follows.par_cases follows with
        ⟨_, _, _, τ, hLoc, rfl⟩ | ⟨_, _, finished', τ, hLoc, hFirst, hRest⟩
      · have hKept := (E.lasting σ.loc).follows follows hInv
        refine ⟨hLoc ▸ hKept, fun value hValue => (by cases hValue), fun _ _ => ?_⟩
        rw [hLoc]
        exact leaves.1
      · have hKept := (E.lasting σ.loc).follows hFirst hInv
        refine ih finished' ?_ (hLoc ▸ hKept) hRest
        rw [hLoc]
        exact leaves.2 finished'

/-- A program that enters no region and asks only for what keeps `I` keeps it. -/
theorem Leaves.of_asks {L : Law h} {may : sig.Act → Prop} {p : Program sig α} {Q : α → Prop}
    (asks : L.Asks p may Q) (hFits : ∀ a reply, L.fits a reply) (hNone : ∀ s, ¬ L.enters s)
    (hMay : ∀ a reply l m, may a → E.may a reply l m → I l → I m) (hI : I l) :
    E.Leaves I p (fun value m => Q value ∧ I m) l := by
  induction p generalizing l with
  | done value => exact ⟨asks, hI⟩
  | act a next ih =>
      refine ⟨fun _ => hI, fun reply m hEffect => ?_⟩
      exact ih reply (asks.2 reply (hFits a reply)) (hMay a reply l m asks.1 hEffect hI)
  | race alarm body next ihBody ih =>
      constructor
      · apply (ihBody asks.1 hI).mono
        intro b m hNext
        exact ih (some b) hNext.1 hNext.2
      · intro m hm
        exact ih none asks.2 hm
  | region loc shared body next _ ih => exact absurd asks.1 (hNone shared)
  | par count need locs branches finished next _ ih =>
      exact ⟨hI, fun finished => ih finished (asks.2 finished) hI⟩

end Effect

end Async
