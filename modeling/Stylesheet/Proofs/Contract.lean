import Stylesheet.Compile.Store

/-!
# Contracts of the compiler

A computation of the compiler ends with a result or with an error, and leaves a
store either way. A contract says from one store on what holds of the result and
the store, and what holds of the error and the store. Nothing is lost in the
error case: the store that an error leaves is the one at the point of the error.

The rules below take a computation apart at its steps. Proofs about the compiler
use them and the contracts of its parts, and never run it.
-/

namespace Stylesheet

variable {α β : Type} {x : CompileM α} {s : Store}
variable {post post' : α → Store → Prop} {fail fail' : Error → Store → Prop}

theorem run_bind_ok {σ : Type} {x : ExceptT Error (StateM σ) α} {f : α → ExceptT Error (StateM σ) β}
    {s t : σ} {a : α} (h : x.run.run s = (.ok a, t)) : (x >>= f).run.run s = (f a).run.run t := by
  change (x.run >>= ExceptT.bindCont f).run s = _
  rw [StateT.run_bind, h]
  rfl

theorem run_bind_error {σ : Type} {x : ExceptT Error (StateM σ) α}
    {f : α → ExceptT Error (StateM σ) β} {s t : σ} {e : Error} (h : x.run.run s = (.error e, t)) :
    (x >>= f).run.run s = (.error e, t) := by
  change (x.run >>= ExceptT.bindCont f).run s = _
  rw [StateT.run_bind, h]
  rfl

theorem run_bind_lift {σ : Type} (x : StateM σ α) (f : α → ExceptT Error (StateM σ) β) (s : σ) :
    (liftM x >>= f).run.run s = (f (x.run s).1).run.run (x.run s).2 := rfl

theorem run_bind_congr {σ : Type} {x y : ExceptT Error (StateM σ) α}
    {f : α → ExceptT Error (StateM σ) β} {s : σ} (h : y.run.run s = x.run.run s) :
    (y >>= f).run.run s = (x >>= f).run.run s := by
  change (y.run >>= ExceptT.bindCont f).run s = (x.run >>= ExceptT.bindCont f).run s
  rw [StateT.run_bind, StateT.run_bind, h]

/-- A computation that gives something has a first step that gives something. -/
theorem exists_run_of_toOption_bind {f : α → CompileM β} {b : β}
    (h : ((x >>= f).run.run s).1.toOption = some b) :
    ∃ a t, x.run.run s = (.ok a, t) ∧ ((f a).run.run t).1.toOption = some b := by
  cases hx : x.run.run s with
  | mk result t =>
    cases result with
    | error e =>
      rw [run_bind_error hx] at h
      cases h
    | ok a => exact ⟨a, t, rfl, by rwa [run_bind_ok hx] at h⟩

/-- From the store `s` on, the computation ends with `post` or fails with `fail`. -/
def Ensures (x : CompileM α) (s : Store) (post : α → Store → Prop)
    (fail : Error → Store → Prop) : Prop :=
  match x.run.run s with
  | (.ok a, t) => post a t
  | (.error e, t) => fail e t

theorem Ensures.mono (h : Ensures x s post fail) (hpost : ∀ a t, post a t → post' a t)
    (hfail : ∀ e t, fail e t → fail' e t) : Ensures x s post' fail' := by
  unfold Ensures at h ⊢
  split
  · rename_i a t hx
    rw [hx] at h
    exact hpost a t h
  · rename_i e t hx
    rw [hx] at h
    exact hfail e t h

/-- Two contracts of one computation hold together. -/
theorem Ensures.and (h : Ensures x s post fail) (h' : Ensures x s post' fail') :
    Ensures x s (fun a t => post a t ∧ post' a t) (fun e t => fail e t ∧ fail' e t) := by
  unfold Ensures at h h' ⊢
  split
  · rename_i a t hx
    rw [hx] at h h'
    exact ⟨h, h'⟩
  · rename_i e t hx
    rw [hx] at h h'
    exact ⟨h, h'⟩

theorem ensures_of_forall (hpost : ∀ a t, post a t) (hfail : ∀ e t, fail e t) :
    Ensures x s post fail := by
  unfold Ensures
  split
  · exact hpost _ _
  · exact hfail _ _

/-- What a contract says of a computation that ended with a result. -/
theorem Ensures.of_ok {a : α} {t : Store} (h : Ensures x s post fail)
    (hx : x.run.run s = (.ok a, t)) : post a t := by
  rwa [Ensures, hx] at h

/-- What a contract says of a computation that failed. -/
theorem Ensures.of_error {e : Error} {t : Store} (h : Ensures x s post fail)
    (hx : x.run.run s = (.error e, t)) : fail e t := by
  rwa [Ensures, hx] at h

/-- A computation that cannot fail ends with a result. -/
theorem Ensures.exists_ok (h : Ensures x s post fun _ _ => False) :
    ∃ a t, x.run.run s = (.ok a, t) ∧ post a t := by
  unfold Ensures at h
  split at h
  · rename_i a t hx
    exact ⟨a, t, hx, h⟩
  · exact h.elim

/-- A computation has the contract that it runs as it does. -/
theorem Ensures.run (x : CompileM α) (s : Store) :
    Ensures x s (fun a t => x.run.run s = (.ok a, t)) (fun e t => x.run.run s = (.error e, t)) := by
  unfold Ensures
  split
  · assumption
  · assumption

@[simp] theorem ensures_pure {a : α} : Ensures (pure a) s post fail ↔ post a s := Iff.rfl

@[simp] theorem ensures_throw {e : Error} : Ensures (throw e) s post fail ↔ fail e s := Iff.rfl

@[simp] theorem ensures_bind {f : β → CompileM α} {y : CompileM β} :
    Ensures (y >>= f) s post fail ↔
      Ensures y s (fun b t => Ensures (f b) t post fail) fail := by
  unfold Ensures
  cases hy : y.run.run s with
  | mk result t =>
    cases result with
    | ok b => rw [run_bind_ok hy]
    | error e => rw [run_bind_error hy]

@[simp] theorem ensures_lift {y : StateM Store α} :
    Ensures (liftM y) s post fail ↔ post (y.run s).1 (y.run s).2 := Iff.rfl

@[simp] theorem ensures_get {post : Store → Store → Prop} :
    Ensures get s post fail ↔ post s s := Iff.rfl

theorem ensures_ofExcept {y : Except Error α} :
    Ensures (ofExcept y) s post fail ↔
      (∀ a, y = .ok a → post a s) ∧ ∀ e, y = .error e → fail e s := by
  cases y with
  | ok a => simp [ofExcept]
  | error e => simp [ofExcept]

theorem ensures_ofExcept_of_ok {y : Except Error α} {a : α} (h : y = .ok a) :
    Ensures (ofExcept y) s post fail ↔ post a s := by
  subst h
  exact Iff.rfl

end Stylesheet
