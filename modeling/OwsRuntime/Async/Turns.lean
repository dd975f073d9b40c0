import OwsRuntime.Async.Machine

/-! Programs that return within a turn, and what follows them then. -/
namespace Async.Handler

variable {sig : Signature} {α β ε : Type} {h : Handler sig} {σ τ : State sig}

theorem advance_bind_of_done {p : Program sig α} {f : α → Program sig β} {a : α}
    (hDone : h.advance p σ = (.done a, τ)) : h.advance (p.bind f) σ = h.advance (f a) τ := by
  rw [advance_bind, hDone, continueWith_done]

theorem advance_bind_of_ok {x : ExceptT ε (Program sig) α} {f : α → ExceptT ε (Program sig) β}
    {a : α} (hOk : h.advance x.run σ = (.done (.ok a), τ)) :
    h.advance (x >>= f).run σ = h.advance (f a).run τ := advance_bind_of_done hOk

theorem advance_bind_of_error {x : ExceptT ε (Program sig) α} {f : α → ExceptT ε (Program sig) β}
    {e : ε} (hError : h.advance x.run σ = (.done (.error e), τ)) :
    h.advance (x >>= f).run σ = (.done (.error e), τ) := advance_bind_of_done hError

theorem advance_lift_of_done {p : Program sig α} {a : α} (hDone : h.advance p σ = (.done a, τ)) :
    h.advance (ExceptT.lift p : ExceptT ε (Program sig) α).run σ = (.done (.ok a), τ) := by
  show h.advance (p.bind fun a => .done (Except.ok a)) σ = _
  rw [advance_bind_of_done hDone, advance_done]

/-- A race whose body returns at once leaves its alarm no time. -/
theorem advance_race_of_done {alarm : sig.Alarm} {body : Program sig β}
    {next : Option β → Program sig α} {b : β} (hDone : h.advance body σ = (.done b, τ)) :
    h.advance (.race alarm body next) σ = h.advance (next (some b)) τ := by
  rw [advance_race, hDone]
  rfl

end Async.Handler
