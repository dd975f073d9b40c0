import OwsRuntime.Async.Safety

/-! Rules for programs that may be started at any later time. A specification
speaks of every state which the storage may move to, so that it is not affected
by what other tasks do. -/
namespace Async.Discipline

open Program

variable {sig : Signature} {h : Handler sig} {D : Discipline h} {α β γ ε : Type}

variable (D) in
/-- From every state to which the storage may move, the program keeps the
discipline and returns only values and states with `Q`. -/
def Holds (σ : State sig) (p : Program sig α) (Q : α → State sig → Prop) : Prop :=
  ∀ τ, D.Moved σ τ → D.Good τ → D.Safe p Q τ

theorem Holds.mono {p : Program sig α} {Q : α → State sig → Prop} {σ τ : State sig}
    (holds : D.Holds σ p Q) (moved : D.Moved σ τ) : D.Holds τ p Q :=
  fun υ hMoved hGood => holds υ (moved.trans hMoved) hGood

theorem Holds.weaken {p : Program sig α} {Q R : α → State sig → Prop} {σ : State sig}
    (holds : D.Holds σ p Q)
    (hQR : ∀ value τ, D.Moved σ τ → D.Good τ → Q value τ → R value τ) : D.Holds σ p R := by
  intro τ moved hGood
  refine (holds τ moved hGood).weaken hGood fun value υ hQ hMoved hGood' => ?_
  exact hQR value υ (moved.trans hMoved) hGood' hQ

theorem Holds.trivial {p : Program sig α} {Q : α → State sig → Prop} {σ : State sig}
    (holds : D.Holds σ p Q) : D.Holds σ p fun _ _ => True :=
  holds.weaken fun _ _ _ _ _ => True.intro

theorem Holds.done {value : α} {Q : α → State sig → Prop} {σ : State sig}
    (hQ : ∀ τ, D.Moved σ τ → D.Good τ → Q value τ) : D.Holds σ (done value) Q := hQ

theorem Holds.bind {p : Program sig α} {f : α → Program sig β} {Q : α → State sig → Prop}
    {R : β → State sig → Prop} {σ : State sig} (first : D.Holds σ p Q)
    (second : ∀ value τ, D.Moved σ τ → D.Good τ → Q value τ → D.Holds τ (f value) R) :
    D.Holds σ (p.bind f) R := by
  intro τ moved hGood
  refine (first τ moved hGood).seq hGood fun value υ hQ hMoved hGood' => ?_
  exact second value υ (moved.trans hMoved) hGood' hQ υ (Moved.refl hGood'.inv) hGood'

/-- A request, however it divides the code around it. -/
theorem Holds.request {a : sig.Act} {Q : sig.Resp a → State sig → Prop} {σ : State sig}
    (hPre : ∀ τ, D.Moved σ τ → D.Good τ → D.pre a τ)
    (hPost : ∀ τ reply υ, D.Moved σ τ → D.Good τ → h.perform a τ = some (reply, υ) → Q reply υ) :
    D.Holds σ (Program.request a) Q := by
  intro τ moved hGood υ meets
  have later := meets.later hGood
  have hMoved := moved.trans later.2
  have good := later.good hGood
  exact ⟨hPre υ hMoved good, fun reply υ' hPerform => hPost υ reply υ' hMoved good hPerform⟩

theorem Holds.race {alarm : sig.Alarm} {body : Program sig β} {next : Option β → Program sig α}
    {Q : β → State sig → Prop} {R : α → State sig → Prop} {σ : State sig}
    (hBody : D.Holds σ body Q)
    (hSome : ∀ b τ, D.Moved σ τ → D.Good τ → Q b τ → D.Holds τ (next (some b)) R)
    (hNone : D.Holds σ (next none) R) : D.Holds σ (race alarm body next) R := by
  intro τ moved hGood
  constructor
  · refine (hBody τ moved hGood).weaken hGood fun b υ hQ hMoved hGood' => ?_
    exact hSome b υ (moved.trans hMoved) hGood' hQ υ (Moved.refl hGood'.inv) hGood'
  · intro υ hMoved hLoc
    exact hNone υ (moved.trans hMoved) ⟨hMoved.inv, hLoc⟩

theorem Holds.region {loc : sig.Local} {shared : sig.Shared} {body : Program sig β}
    {next : β → Program sig α} {R : α → State sig → Prop} {σ : State sig}
    (hInside : D.Good (σ.enter loc shared))
    (hBody : D.Holds (σ.enter loc shared) body fun _ _ => True)
    (hNext : ∀ b, D.Holds σ (next b) R) : D.Holds σ (region loc shared body next) R := by
  intro τ moved hGood
  have inside : D.Good (τ.enter loc shared) := ⟨hInside.inv, hInside.locInv⟩
  have hMoved : D.Moved (σ.enter loc shared) (τ.enter loc shared) :=
    ⟨D.relS_refl _, moved.world, hInside.inv⟩
  refine ⟨inside, (hBody _ hMoved inside).mono fun b _ _ υ later _ => ?_⟩
  exact hNext b υ (moved.trans later.2) (later.good hGood)

/-- Branches start with a copy of the storage of the task that spawns them. -/
theorem Holds.par {count need : Nat} {loc : sig.Local} {branches : Fin count → Program sig β}
    {next : List (Fin count × Option β) → Program sig α} {R : α → State sig → Prop}
    {σ : State sig} (hLoc : D.locInv loc σ.shared)
    (hWaiting : ∀ i, h.Waiting (branches i))
    (hBranches : ∀ i, D.Holds σ (branches i) fun _ _ => True)
    (hNext : ∀ finished, D.Holds σ (next finished) R) :
    D.Holds σ (par count need (fun _ => loc) branches [] next) R := by
  intro τ moved hGood
  have hLocτ : D.locInv loc τ.shared := D.locInv_mono hLoc moved.shared
  constructor
  · intro i _
    refine ⟨hLocτ, hWaiting i, fun υ hMoved => ?_⟩
    refine hBranches i _ ⟨?_, ?_, hMoved.inv⟩ ⟨hMoved.inv, ?_⟩
    · exact (moved.trans hMoved).shared
    · exact (moved.trans hMoved).world
    · exact D.locInv_mono hLocτ hMoved.shared
  · intro finished υ later
    exact hNext finished υ (moved.trans later.2) (later.good hGood)

variable (D) in
/-- The specification of a program that may fail. Nothing is said of failures. -/
def HoldsOk (σ : State sig) (p : ExceptT ε (Program sig) α) (Q : α → State sig → Prop) : Prop :=
  D.Holds σ p.run fun result τ => ∀ value, result = .ok value → Q value τ

theorem HoldsOk.mono {p : ExceptT ε (Program sig) α} {Q : α → State sig → Prop} {σ τ : State sig}
    (holds : D.HoldsOk σ p Q) (moved : D.Moved σ τ) : D.HoldsOk τ p Q :=
  Holds.mono holds moved

theorem HoldsOk.weaken {p : ExceptT ε (Program sig) α} {Q R : α → State sig → Prop}
    {σ : State sig} (holds : D.HoldsOk σ p Q)
    (hQR : ∀ value τ, D.Moved σ τ → D.Good τ → Q value τ → R value τ) : D.HoldsOk σ p R :=
  Holds.weaken holds fun _ τ moved hGood hQ value hOk => hQR value τ moved hGood (hQ value hOk)

theorem HoldsOk.pure {value : α} {Q : α → State sig → Prop} {σ : State sig}
    (hQ : ∀ τ, D.Moved σ τ → D.Good τ → Q value τ) :
    D.HoldsOk σ (Pure.pure value : ExceptT ε (Program sig) α) Q := by
  intro τ moved hGood other hOther
  cases hOther
  exact hQ τ moved hGood

theorem HoldsOk.throw {e : ε} {Q : α → State sig → Prop} {σ : State sig} :
    D.HoldsOk σ (throw e : ExceptT ε (Program sig) α) Q := by
  intro τ _ _ other hOther
  cases hOther

/-- A result that is there already. -/
theorem HoldsOk.mk {result : Except ε α} {Q : α → State sig → Prop} {σ : State sig}
    (hQ : ∀ value τ, result = .ok value → D.Moved σ τ → D.Good τ → Q value τ) :
    D.HoldsOk σ (ExceptT.mk (Program.done result)) Q :=
  fun τ moved hGood value hOk => hQ value τ hOk moved hGood

theorem HoldsOk.bind {p : ExceptT ε (Program sig) α} {f : α → ExceptT ε (Program sig) β}
    {Q : α → State sig → Prop} {R : β → State sig → Prop} {σ : State sig}
    (first : D.HoldsOk σ p Q)
    (second : ∀ value τ, D.Moved σ τ → D.Good τ → Q value τ → D.HoldsOk τ (f value) R) :
    D.HoldsOk σ (p >>= f) R := by
  refine Holds.bind first fun result τ moved hGood hQ => ?_
  cases result with
  | ok value => exact second value τ moved hGood (hQ value rfl)
  | error e => exact HoldsOk.throw

/-- A program that cannot fail, as part of one that can. -/
theorem HoldsOk.lift {p : Program sig α} {Q : α → State sig → Prop} {σ : State sig}
    (holds : D.Holds σ p Q) : D.HoldsOk σ (liftM p : ExceptT ε (Program sig) α) Q := by
  intro τ moved hGood
  refine Safe.seq hGood (holds τ moved hGood) fun value υ hQ _ _ other hOther => ?_
  cases hOther
  exact hQ

/-- A program whose result, good or bad, goes to the caller. -/
theorem HoldsOk.outcome {p : ExceptT ε (Program sig) α} {Q : α → State sig → Prop}
    {σ : State sig} (holds : D.HoldsOk σ p Q) :
    D.HoldsOk σ (ExceptT.lift p.run : ExceptT ε (Program sig) (Except ε α))
      fun result τ => ∀ value, result = .ok value → Q value τ :=
  HoldsOk.lift holds

end Async.Discipline
