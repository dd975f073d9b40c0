import Mathlib.Logic.Function.Basic
import Mathlib.Data.Fin.Basic

/-! Asynchronous programs, cut at the requests they make. A program is a
resumption tree: it returns, asks its surroundings for something and goes on
with the reply, runs a future under an alarm, enters a region which has storage
of its own, or spawns branches and waits for some of them. -/
namespace Async

/-- What programs may ask for, what may interrupt them, and the three kinds of
storage they see. `Local`
belongs to one task of the executor, `Shared` to all the tasks of one region,
and `World` to everybody. -/
structure Signature where
  Act : Type
  Resp : Act → Type
  Alarm : Type
  Local : Type
  Shared : Type
  World : Type

/-- The part of the storage that one task sees. -/
structure State (sig : Signature) where
  loc : sig.Local
  shared : sig.Shared
  world : sig.World

/-- A program over a signature, as a resumption tree. The nodes `race`,
`region` and `par` also represent a program that is under way: `body` and
`branches` are then what is left to run. -/
inductive Program (sig : Signature) : Type → Type 1 where
  | done {α : Type} (value : α) : Program sig α
  | act {α : Type} (request : sig.Act) (next : sig.Resp request → Program sig α) : Program sig α
  /-- Runs `body` under an alarm. The reply is `none` when the alarm goes off
  first, and `body` is dropped then. -/
  | race {α β : Type} (alarm : sig.Alarm) (body : Program sig β)
      (next : Option β → Program sig α) : Program sig α
  /-- Runs `body` with local and shared storage of its own. -/
  | region {α β : Type} (loc : sig.Local) (shared : sig.Shared) (body : Program sig β)
      (next : β → Program sig α) : Program sig α
  /-- Waits until `need` of the spawned branches have finished. `finished` lists
  them in the order in which they did; `none` marks a branch that panicked. -/
  | par {α β : Type} (count need : Nat) (locs : Fin count → sig.Local)
      (branches : Fin count → Program sig β) (finished : List (Fin count × Option β))
      (next : List (Fin count × Option β) → Program sig α) : Program sig α

namespace Program

variable {sig : Signature} {α β γ : Type}

/-- Sequential composition. Futures under way keep their state, so only the
continuation grows. -/
def bind {α β : Type} : Program sig α → (α → Program sig β) → Program sig β
  | done value, f => f value
  | act request next, f => act request fun reply => bind (next reply) f
  | race alarm body next, f => race alarm body fun reply => bind (next reply) f
  | region loc shared body next, f => region loc shared body fun reply => bind (next reply) f
  | par count need locs branches finished next, f =>
      par count need locs branches finished fun reply => bind (next reply) f

instance : Monad (Program sig) where
  pure := done
  bind := bind

@[simp] theorem pure_eq (value : α) : (pure value : Program sig α) = done value := rfl

@[simp] theorem bind_eq (p : Program sig α) (f : α → Program sig β) : p >>= f = bind p f := rfl

@[simp] theorem done_bind (value : α) (f : α → Program sig β) : bind (done value) f = f value := rfl

theorem bind_done (p : Program sig α) : bind p done = p := by
  induction p with
  | done value => rfl
  | act request next ih => exact congrArg (act request) (funext ih)
  | race alarm body next _ ih => exact congrArg (race alarm body) (funext ih)
  | region loc shared body next _ ih => exact congrArg (region loc shared body) (funext ih)
  | par count need locs branches finished next _ ih =>
      exact congrArg (par count need locs branches finished) (funext ih)

theorem bind_assoc (p : Program sig α) (f : α → Program sig β) (g : β → Program sig γ) :
    bind (bind p f) g = bind p fun a => bind (f a) g := by
  induction p with
  | done value => rfl
  | act request next ih => exact congrArg (act request) (funext fun reply => ih reply f)
  | race alarm body next _ ih =>
      exact congrArg (race alarm body) (funext fun reply => ih reply f)
  | region loc shared body next _ ih =>
      exact congrArg (region loc shared body) (funext fun reply => ih reply f)
  | par count need locs branches finished next _ ih =>
      exact congrArg (par count need locs branches finished) (funext fun reply => ih reply f)

instance : LawfulMonad (Program sig) :=
  LawfulMonad.mk' _ (fun p => bind_done p) (fun _ _ => rfl) bind_assoc

/-- A single request. -/
def request (a : sig.Act) : Program sig (sig.Resp a) := act a done

/-- The value of a finished program. -/
def value? : Program sig α → Option α
  | done value => some value
  | _ => none

@[simp] theorem value?_done (value : α) : (done value : Program sig α).value? = some value := rfl

@[simp] theorem value?_act (a : sig.Act) (next : sig.Resp a → Program sig α) :
    (act a next).value? = none := rfl

@[simp] theorem value?_race (alarm : sig.Alarm) (body : Program sig β)
    (next : Option β → Program sig α) : (race alarm body next).value? = none := rfl

@[simp] theorem value?_region (loc : sig.Local) (shared : sig.Shared) (body : Program sig β)
    (next : β → Program sig α) : (region loc shared body next).value? = none := rfl

@[simp] theorem value?_par (count need : Nat) (locs : Fin count → sig.Local)
    (branches : Fin count → Program sig β) (finished : List (Fin count × Option β))
    (next : List (Fin count × Option β) → Program sig α) :
    (par count need locs branches finished next).value? = none := rfl

theorem eq_done_of_value? {p : Program sig α} {value : α} (h : p.value? = some value) :
    p = done value := by
  cases p <;> simp_all

/-- A predicate of the shared storage of every region inside the program. -/
def AllRegions (P : sig.Shared → Prop) {α : Type} : Program sig α → Prop
  | done _ => True
  | act _ _ => True
  | race _ body _ => AllRegions P body
  | region _ shared body _ => P shared ∧ AllRegions P body
  | par count _ _ branches finished _ =>
      ∀ i : Fin count, i ∉ finished.map Prod.fst → AllRegions P (branches i)

/-- Some region under way within the program has this shared storage. -/
def HasRegion (s : sig.Shared) {α : Type} : Program sig α → Prop
  | done _ => False
  | act _ _ => False
  | race _ body _ => HasRegion s body
  | region _ shared body _ => s = shared ∨ HasRegion s body
  | par count _ _ branches finished _ =>
      ∃ i : Fin count, i ∉ finished.map Prod.fst ∧ HasRegion s (branches i)

/-- The outermost region under way has this shared storage. -/
def Outermost (s : sig.Shared) {α : Type} : Program sig α → Prop
  | race _ body _ => Outermost s body
  | region _ shared _ _ => s = shared
  | _ => False

theorem AllRegions.of_hasRegion {P : sig.Shared → Prop} {p : Program sig α} {s : sig.Shared}
    (all : AllRegions P p) (hRegion : HasRegion s p) : P s := by
  induction p with
  | done value => exact hRegion.elim
  | act a next _ => exact hRegion.elim
  | race alarm body next ihBody _ => exact ihBody all hRegion
  | region loc shared body next ihBody _ =>
      rcases hRegion with rfl | hInner
      · exact all.1
      · exact ihBody all.2 hInner
  | par count need locs branches finished next ihBranch _ =>
      obtain ⟨i, hRunning, hBranch⟩ := hRegion
      exact ihBranch i (all i hRunning) hBranch

end Program
end Async
