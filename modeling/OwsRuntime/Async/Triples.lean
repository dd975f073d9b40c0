import OwsRuntime.Async.Inversion
import OwsRuntime.Async.Requests

/-! Triples about runs. Besides what holds once a program has returned, a triple tells
what holds at every suspension point, since the program may be dropped there. -/
namespace Async.Handler

variable {sig : Signature} {h : Handler sig} {α β ε : Type} {allowed : h.Choice → Prop}

open Program

/-- In every run of allowed choices, `I` holds of each state between two turns, and `Q` of
the result and the states after it. -/
def Ensures (allowed : h.Choice → Prop) (I : State sig → Prop) {α : Type}
    (Q : α → State sig → Prop) (p : Program sig α) (σ : State sig) : Prop :=
  ∀ d, Follows allowed (h.advance p σ) d → I d.2 ∧ ∀ value, d.1.value? = some value → Q value d.2

variable {I J : State sig → Prop} {Q R : α → State sig → Prop} {σ : State sig}

theorem Ensures.start {p : Program sig α} (ensures : Ensures allowed I Q p σ) :
    I (h.advance p σ).2 :=
  (ensures _ (.refl _)).1

theorem Ensures.mono {p : Program sig α} (ensures : Ensures allowed I Q p σ)
    (hI : ∀ τ, I τ → J τ) (hQ : ∀ value τ, I τ → Q value τ → R value τ) :
    Ensures allowed J R p σ := by
  intro d follows
  obtain ⟨hInv, hPost⟩ := ensures d follows
  exact ⟨hI _ hInv, fun value hValue => hQ value _ hInv (hPost value hValue)⟩

theorem Ensures.and {p : Program sig α} (first : Ensures allowed I Q p σ)
    (second : Ensures allowed J R p σ) :
    Ensures allowed (fun τ => I τ ∧ J τ) (fun value τ => Q value τ ∧ R value τ) p σ := by
  intro d follows
  obtain ⟨hI, hQ⟩ := first d follows
  obtain ⟨hJ, hR⟩ := second d follows
  exact ⟨⟨hI, hJ⟩, fun value hValue => ⟨hQ value hValue, hR value hValue⟩⟩

theorem Ensures.done {value : α} (hDrift : ∀ w, Drifts allowed σ.world w →
    I { σ with world := w } ∧ Q value { σ with world := w }) :
    Ensures allowed I Q (done value) σ := by
  intro d follows
  obtain ⟨w, hWorld, rfl⟩ := Follows.done_cases follows
  refine ⟨(hDrift w hWorld).1, ?_⟩
  rintro other hOther
  cases hOther
  exact (hDrift w hWorld).2

theorem Ensures.bind {p : Program sig α} {f : α → Program sig β} {Q : β → State sig → Prop}
    (ensures : Ensures allowed I (fun value τ => Ensures allowed I Q (f value) τ) p σ) :
    Ensures allowed I Q (p.bind f) σ := by
  intro d follows
  rw [h.advance_bind] at follows
  rcases follows.bind_cases with ⟨e, hFirst, hRunning, rfl⟩ | ⟨value, τ, hFirst, hSecond⟩
  · have hStill : (e.1.bind f).value? = none := by
      cases hProgram : e.1 <;> rw [hProgram] at hRunning <;> first | rfl | cases hRunning
    refine ⟨(ensures e hFirst).1, fun value hValue => ?_⟩
    rw [hStill] at hValue
    cases hValue
  · exact (ensures _ hFirst).2 value rfl d hSecond

/-- A request is performed after some acts of the environment: what is to hold at every point has to
survive them, and the rest of the program takes over with the reply. -/
theorem Ensures.act {a : sig.Act} {next : sig.Resp a → Program sig α}
    (hDrift : ∀ w, Drifts allowed σ.world w → I { σ with world := w } ∧
      ∀ reply τ, h.perform a { σ with world := w } = some (reply, τ) →
        Ensures allowed I Q (next reply) τ) :
    Ensures allowed I Q (act a next) σ := by
  have hAwait : ∀ d, Follows allowed (Program.act a next, σ) d →
      I d.2 ∧ ∀ value, d.1.value? = some value → Q value d.2 := by
    intro d follows
    rcases follows.act_cases with ⟨w, hWorld, rfl⟩ | ⟨w, reply, τ, hWorld, hPerform, hRest⟩
    · exact ⟨(hDrift w hWorld).1, fun value hValue => (by cases hValue)⟩
    · exact (hDrift w hWorld).2 reply τ hPerform d hRest
  intro d follows
  by_cases hMode : h.mode a = .sync
  · cases hPerform : h.perform a σ with
    | none =>
        apply hAwait d
        rw [advance, if_pos hMode, hPerform] at follows
        exact follows
    | some r =>
        obtain ⟨reply, τ⟩ := r
        rw [h.advance_act_sync next hMode hPerform] at follows
        exact (hDrift σ.world .refl).2 reply τ hPerform d follows
  · rw [h.advance_act_of_ne next σ hMode] at follows
    exact hAwait d follows

/-- A request of the program's own turn is performed at once. -/
theorem Ensures.sync {a : sig.Act} {next : sig.Resp a → Program sig α} {reply : sig.Resp a}
    {τ : State sig} (hMode : h.mode a = .sync) (hPerform : h.perform a σ = some (reply, τ))
    (ensures : Ensures allowed I Q (next reply) τ) :
    Ensures allowed I Q (Program.act a next) σ := by
  intro d follows
  rw [h.advance_act_sync next hMode hPerform] at follows
  exact ensures d follows

/-- A single request. -/
theorem Ensures.request {a : sig.Act} {Q : sig.Resp a → State sig → Prop}
    (hDrift : ∀ w, Drifts allowed σ.world w → I { σ with world := w } ∧
      ∀ reply τ, h.perform a { σ with world := w } = some (reply, τ) →
        ∀ x, Drifts allowed τ.world x → I { τ with world := x } ∧ Q reply { τ with world := x }) :
    Ensures allowed I Q (Program.request a) σ := by
  apply Ensures.act
  intro w hWorld
  refine ⟨(hDrift w hWorld).1, fun reply τ hPerform => ?_⟩
  exact Ensures.done ((hDrift w hWorld).2 reply τ hPerform)

/-- The body of a race may be dropped at any suspension point. -/
theorem Ensures.race {alarm : sig.Alarm} {body : Program sig β}
    {next : Option β → Program sig α}
    (hBody : Ensures (allowed ∘ Choice.within) I
      (fun b τ => Ensures allowed I Q (next (some b)) τ) body σ)
    (hDropped : allowed (.turn .expire) → ∀ τ, I τ → Ensures allowed I Q (next none) τ) :
    Ensures allowed I Q (race alarm body next) σ := by
  intro d follows
  rw [h.advance_race] at follows
  rcases follows.race_cases with
    ⟨e, hInner, _, rfl⟩ | ⟨b, τ, hInner, hRest⟩ | ⟨e, hInner, ⟨_, _, hExpire⟩, hRest⟩
  · exact ⟨(hBody e hInner).1, fun value hValue => (by cases hValue)⟩
  · exact (hBody _ hInner).2 b rfl d hRest
  · exact hDropped hExpire e.2 (hBody e hInner).1 d hRest

/-- The body of a region has a triple of its own. -/
theorem Ensures.region {loc : sig.Local} {shared : sig.Shared} {body : Program sig β}
    {next : β → Program sig α}
    (hBody : Ensures (allowed ∘ Choice.within) J
      (fun b τ => Ensures allowed I Q (next b) (σ.leave τ)) body (σ.enter loc shared))
    (hInner : ∀ τ, J τ → I (σ.leave τ)) :
    Ensures allowed I Q (region loc shared body next) σ := by
  intro d follows
  rw [h.advance_region] at follows
  rcases follows.region_cases with ⟨e, hFollows, _, rfl⟩ | ⟨b, τ, hFollows, hRest⟩
  · exact ⟨hInner _ (hBody e hFollows).1, fun value hValue => (by cases hValue)⟩
  · exact (hBody _ hFollows).2 b rfl d hRest

/-- A program that may fail, and then another one. -/
theorem Ensures.seq {p : ExceptT ε (Program sig) α} {f : α → ExceptT ε (Program sig) β}
    {R : Except ε α → State sig → Prop} {Q : Except ε β → State sig → Prop}
    (first : Ensures allowed I R p.run σ)
    (hOk : ∀ value τ, I τ → R (.ok value) τ → Ensures allowed I Q (f value).run τ)
    (hError : ∀ e τ, I τ → R (.error e) τ → Ensures allowed I Q (Program.done (.error e)) τ) :
    Ensures allowed I Q (p >>= f).run σ := by
  apply Ensures.bind
  refine Ensures.mono first (fun _ hI => hI) fun result τ hI hR => ?_
  cases result with
  | ok value => exact hOk value τ hI hR
  | error e => exact hError e τ hI hR

/-- A program that cannot fail, and then one that may. -/
theorem Ensures.lift {p : Program sig α} {f : α → ExceptT ε (Program sig) β}
    {Q : Except ε β → State sig → Prop}
    (ensures : Ensures allowed I (fun value τ => Ensures allowed I Q (f value).run τ) p σ) :
    Ensures allowed I Q ((liftM p : ExceptT ε (Program sig) α) >>= f).run σ := by
  show Ensures allowed I Q ((p.bind (Program.done ∘ Except.ok)).bind (ExceptT.bindCont f)) σ
  rw [bind_assoc]
  exact Ensures.bind ensures

/-- What a law gives is a triple. -/
theorem ensures_of_asks {L : Law h} {U : L.Upheld} {may : sig.Act → Prop} {p : Program sig α}
    {Q : α → Prop} (asks : L.Asks p may Q) (fit : U.Fit may σ) :
    Ensures allowed (fun τ => U.Fit may τ ∧ U.moves σ.world τ.world) (fun value _ => Q value) p σ := by
  intro d follows
  obtain ⟨hFit, hMoves, hValue⟩ := asks.reaches fit follows.reaches
  exact ⟨⟨hFit, hMoves⟩, hValue⟩

end Async.Handler
