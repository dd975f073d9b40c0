import OwsRuntime.Async.Rules

/-! What asynchronous programs ask for, whatever replies they get. A law is about
the requests alone, so that a program is checked against it without regard to
the states in which it runs. A law that is upheld gives a discipline. -/
namespace Async

open Program

variable {sig : Signature} {h : Handler sig} {α β γ ε : Type}

/-- What the tasks of each region may ask for. `fits` tells which replies they can
get, and `enters` with which shared storage a region may begin. -/
structure Law (h : Handler sig) where
  may : sig.Shared → sig.Act → Prop
  fits : (a : sig.Act) → sig.Resp a → Prop
  enters : sig.Shared → Prop

namespace Law

variable (L : Law h)

/-- Every request of the program satisfies `may`, those of its regions satisfy the
law, and the program returns only values with `Q`. -/
def Asks {α : Type} : Program sig α → (sig.Act → Prop) → (α → Prop) → Prop
  | done value, _, Q => Q value
  | act a next, may, Q => may a ∧ ∀ reply, L.fits a reply → Asks (next reply) may Q
  | race _ body next, may, Q =>
      Asks body may (fun b => Asks (next (some b)) may Q) ∧ Asks (next none) may Q
  | region _ shared body next, may, Q =>
      L.enters shared ∧ Asks body (L.may shared) fun b => Asks (next b) may Q
  | par count _ _ branches _ next, may, Q =>
      (∀ i : Fin count, h.Waiting (branches i) ∧ Asks (branches i) may fun _ => True) ∧
        ∀ finished, Asks (next finished) may Q

variable {L} {may other : sig.Act → Prop}

theorem Asks.mono {p : Program sig α} {Q R : α → Prop} (asks : L.Asks p may Q)
    (hQR : ∀ value, Q value → R value) : L.Asks p may R := by
  induction p generalizing may with
  | done value => exact hQR value asks
  | act a next ih => exact ⟨asks.1, fun reply hFits => ih reply (asks.2 reply hFits) hQR⟩
  | race alarm body next ihBody ih =>
      exact ⟨ihBody asks.1 fun b hNext => ih (some b) hNext hQR, ih none asks.2 hQR⟩
  | region loc shared body next ihBody ih =>
      exact ⟨asks.1, ihBody asks.2 fun b hNext => ih b hNext hQR⟩
  | par count need locs branches finished next _ ih =>
      exact ⟨asks.1, fun finished => ih finished (asks.2 finished) hQR⟩

theorem Asks.bind {p : Program sig α} {f : α → Program sig β} {Q : β → Prop}
    (asks : L.Asks p may fun value => L.Asks (f value) may Q) : L.Asks (p.bind f) may Q := by
  induction p with
  | done value => exact asks
  | act a next ih => exact ⟨asks.1, fun reply hFits => ih reply (asks.2 reply hFits)⟩
  | race alarm body next _ ih =>
      exact ⟨asks.1.mono fun b hNext => ih (some b) hNext, ih none asks.2⟩
  | region loc shared body next _ ih => exact ⟨asks.1, asks.2.mono fun b hNext => ih b hNext⟩
  | par count need locs branches finished next _ ih =>
      exact ⟨asks.1, fun finished => ih finished (asks.2 finished)⟩

/-- Composition, with what is known of the first result. -/
theorem Asks.seq {p : Program sig α} {f : α → Program sig β} {R : α → Prop} {Q : β → Prop}
    (first : L.Asks p may R) (second : ∀ value, R value → L.Asks (f value) may Q) :
    L.Asks (p >>= f) may Q :=
  (first.mono second).bind

theorem Asks.request {a : sig.Act} (hMay : may a) :
    L.Asks (Program.request a) may fun reply => L.fits a reply :=
  ⟨hMay, fun _ hFits => hFits⟩

variable (L) in
/-- What a program that may fail asks for. Nothing is said of failures. -/
def AsksOk (p : ExceptT ε (Program sig) α) (may : sig.Act → Prop) (Q : α → Prop) : Prop :=
  L.Asks p.run may fun result => ∀ value, result = .ok value → Q value

theorem AsksOk.mono {p : ExceptT ε (Program sig) α} {Q R : α → Prop} (asks : L.AsksOk p may Q)
    (hQR : ∀ value, Q value → R value) : L.AsksOk p may R :=
  Asks.mono asks fun _ hQ value hOk => hQR value (hQ value hOk)

theorem AsksOk.pure {value : α} {Q : α → Prop} (hQ : Q value) :
    L.AsksOk (Pure.pure value : ExceptT ε (Program sig) α) may Q := by
  intro other hOther
  cases hOther
  exact hQ

theorem AsksOk.throw {e : ε} {Q : α → Prop} :
    L.AsksOk (throw e : ExceptT ε (Program sig) α) may Q := by
  intro other hOther
  cases hOther

theorem AsksOk.mk {result : Except ε α} {Q : α → Prop} (hQ : ∀ value, result = .ok value → Q value) :
    L.AsksOk (ExceptT.mk (Program.done result)) may Q := hQ

theorem AsksOk.seq {p : ExceptT ε (Program sig) α} {f : α → ExceptT ε (Program sig) β}
    {R : α → Prop} {Q : β → Prop} (first : L.AsksOk p may R)
    (second : ∀ value, R value → L.AsksOk (f value) may Q) : L.AsksOk (p >>= f) may Q := by
  apply Asks.seq first
  intro result hResult
  cases result with
  | ok value => exact second value (hResult value rfl)
  | error e => exact AsksOk.throw

theorem AsksOk.lift {p : Program sig α} {Q : α → Prop} (asks : L.Asks p may Q) :
    L.AsksOk (liftM p : ExceptT ε (Program sig) α) may Q := by
  apply Asks.seq asks
  intro value hQ other hOther
  cases hOther
  exact hQ

/-- A law which the handler upholds: what it keeps of the storage, and how the world
moves meanwhile. -/
structure Upheld (L : Law h) where
  inv : sig.Shared → Prop
  stable : sig.World → Prop
  moves : sig.World → sig.World → Prop
  moves_refl : ∀ w, moves w w
  moves_trans : ∀ {v w x}, moves v w → moves w x → moves v x
  inv_of_enters : ∀ {s}, L.enters s → inv s
  may_perform : ∀ {a σ reply τ}, h.perform a σ = some (reply, τ) → L.may τ.shared = L.may σ.shared
  perform_ok : ∀ {a σ reply τ}, inv σ.shared → stable σ.world → L.may σ.shared a →
    h.perform a σ = some (reply, τ) →
      L.fits a reply ∧ inv τ.shared ∧ stable τ.world ∧ moves σ.world τ.world
  env_ok : ∀ {w} e, stable w → stable (h.disturb e w) ∧ moves w (h.disturb e w)
  sync_ok : ∀ {a σ}, h.mode a = .sync → L.may σ.shared a → (h.perform a σ).isSome

namespace Upheld

variable (U : L.Upheld)

/-- The discipline of a law. -/
def discipline : Discipline h where
  inv := U.inv
  locInv _ _ := True
  relS s t := L.may t = L.may s
  relW v w := U.stable v → U.stable w ∧ U.moves v w
  pre a σ := L.may σ.shared a ∧ U.stable σ.world
  relS_refl _ := rfl
  relS_trans first second := second.trans first
  relW_refl w hStable := ⟨hStable, U.moves_refl w⟩
  relW_trans first second hStable :=
    have hFirst := first hStable
    have hSecond := second hFirst.1
    ⟨hSecond.1, U.moves_trans hFirst.2 hSecond.2⟩
  locInv_mono _ _ := trivial
  env_ok e _ := U.env_ok e
  act_ok hInv _ hPre hPerform :=
    have kept := U.perform_ok hInv hPre.2 hPre.1 hPerform
    ⟨U.may_perform hPerform, fun _ => kept.2.2, kept.2.1, trivial⟩
  sync_ok hMode _ _ hPre := U.sync_ok hMode hPre.1

end Upheld

section Safety

variable (U : L.Upheld) {σ τ : State sig}

/-- What a law asks of a storage before a program goes on in it. -/
structure Upheld.Fit (may : sig.Act → Prop) (σ : State sig) : Prop where
  may : L.may σ.shared = may
  inv : U.inv σ.shared
  stable : U.stable σ.world

variable {U}

theorem Upheld.Fit.moved (fit : U.Fit may σ) (moved : U.discipline.Moved σ τ) : U.Fit may τ :=
  ⟨moved.shared.trans fit.may, moved.inv, (moved.world fit.stable).1⟩

theorem Upheld.Fit.meets {a : sig.Act} (fit : U.Fit may σ) (meets : U.discipline.Meets a σ τ) :
    U.Fit may τ := by
  unfold Discipline.Meets at meets
  split at meets
  · rw [meets]
    exact fit
  · exact fit.moved meets.2

/-- A program that obeys a law is safe for every discipline that grants what the law allows. The
induction is on the program, with the same discipline for each of its parts. -/
theorem Asks.safe {p : Program sig α} {Q : α → Prop} (asks : L.Asks p may Q)
    (fit : U.Fit may σ) : U.discipline.Safe p (fun value _ => Q value) σ := by
  induction p generalizing may σ with
  | done value => exact asks
  | act a next ih =>
      intro τ meets
      have fitτ := fit.meets meets
      have hMay : L.may τ.shared a := by
        rw [fitτ.may]
        exact asks.1
      refine ⟨⟨hMay, fitτ.stable⟩, fun reply υ hPerform => ?_⟩
      obtain ⟨hFits, hInv, hStable, _⟩ := U.perform_ok fitτ.inv fitτ.stable hMay hPerform
      exact ih reply (asks.2 reply hFits) ⟨(U.may_perform hPerform).trans fitτ.may, hInv, hStable⟩
  | race alarm body next ihBody ih =>
      constructor
      · refine (ihBody asks.1 fit).weaken ⟨fit.inv, trivial⟩ fun b τ hNext moved _ => ?_
        exact ih (some b) hNext (fit.moved moved)
      · intro τ moved _
        exact ih none asks.2 (fit.moved moved)
  | region loc shared body next ihBody ih =>
      have inside : U.Fit (L.may shared) (σ.enter loc shared) :=
        ⟨rfl, U.inv_of_enters asks.1, fit.stable⟩
      refine ⟨⟨inside.inv, trivial⟩, (ihBody asks.2 inside).mono fun b inner hNext τ later _ => ?_⟩
      exact ih b hNext (fit.moved later.2)
  | par count need locs branches finished next ihBranch ih =>
      constructor
      · intro i _
        refine ⟨trivial, (asks.1 i).1, fun τ moved => ?_⟩
        refine (ihBranch i (asks.1 i).2 (σ := τ.fork (locs i)) ?_).mono fun _ _ _ => trivial
        have fitτ := fit.moved moved
        exact ⟨fitτ.may, fitτ.inv, fitτ.stable⟩
      · intro finished τ later
        exact ih finished (asks.2 finished) (fit.moved later.2)

/-- In every run of a program that obeys a law, the storage stays fit, the world moves
as the law says, and a finished program has returned a value with `Q`. -/
theorem Asks.reaches {p : Program sig α} {Q : α → Prop} (asks : L.Asks p may Q)
    (fit : U.Fit may σ) {d : Config sig α} (reached : h.Reaches (h.advance p σ) d) :
    U.Fit may d.2 ∧ U.moves σ.world d.2.world ∧ ∀ value, d.1.value? = some value → Q value := by
  have good : U.discipline.Good σ := ⟨fit.inv, trivial⟩
  obtain ⟨keeps, moved⟩ := (asks.safe fit).advance good
  obtain ⟨hKeeps, hMoved⟩ := keeps.reaches (fun _ _ _ hQ _ => hQ) reached
  have hAll := moved.trans hMoved
  exact ⟨fit.moved hAll, (hAll.world fit.stable).2, fun value hDone => hKeeps.post hDone⟩

/-- So does the storage of every region under way. -/
theorem Asks.regions {p : Program sig α} {Q : α → Prop} (asks : L.Asks p may Q)
    (fit : U.Fit may σ) {d : Config sig α} (reached : h.Reaches (h.advance p σ) d) :
    d.1.AllRegions U.inv := by
  have good : U.discipline.Good σ := ⟨fit.inv, trivial⟩
  obtain ⟨keeps, _⟩ := (asks.safe fit).advance good
  obtain ⟨hKeeps, _⟩ := keeps.reaches (fun _ _ _ hQ _ => hQ) reached
  exact Discipline.Safe.regions hKeeps.good hKeeps.safe

end Safety

end Law
end Async
