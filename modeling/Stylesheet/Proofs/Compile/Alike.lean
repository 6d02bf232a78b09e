import Stylesheet.Proofs.Compile.Reported
import Stylesheet.Proofs.Compile.Steps

/-!
# Two runs at once

Many statements about the compiler are about two runs at once, of the same steps with
different expanders or evaluators inside. The second run does exactly as the first one
does, and the first one ends as it should or with an error that is reported. Such
statements are put together step by step, like contracts of a single run. With the
same computation twice they are such contracts.
-/

namespace Stylesheet

variable {α β : Type}

/-- From the store `s` on, `y` runs as `x` does, which ends with `post` or with an error that is
reported. -/
structure Alike (x y : CompileM α) (s : Store) (post : α → Store → Prop) : Prop where
  run_eq : y.run.run s = x.run.run s
  ensures : Ensures x s post fun e _ => e.isReported = true

namespace Alike

variable {x y : CompileM α} {s : Store} {post post' : α → Store → Prop}

theorem of_ensures (h : Ensures x s post fun e _ => e.isReported = true) : Alike x x s post :=
  ⟨rfl, h⟩

theorem mono (h : Alike x y s post) (hpost : ∀ a t, post a t → post' a t) : Alike x y s post' :=
  ⟨h.run_eq, h.ensures.mono hpost fun _ _ he => he⟩

/-- What else is known of the first run holds as well. -/
theorem and (h : Alike x y s post) (h' : Ensures x s post' fun _ _ => True) :
    Alike x y s fun a t => post a t ∧ post' a t :=
  ⟨h.run_eq, (h.ensures.and h').mono (fun _ _ h => h) fun _ _ h => h.1⟩

theorem pure {a : α} (h : post a s) : Alike (Pure.pure a) (Pure.pure a) s post := of_ensures h

theorem throw {e : Error} (h : e.isReported = true) :
    Alike (MonadExcept.throw e) (MonadExcept.throw e) s post := of_ensures h

theorem lift {x : StateM Store α} (h : post (x.run s).1 (x.run s).2) :
    Alike (liftM x) (liftM x) s post := of_ensures h

theorem bind {f g : α → CompileM β} {post : β → Store → Prop} {mid : α → Store → Prop}
    (hx : Alike x y s mid) (hf : ∀ a t, mid a t → Alike (f a) (g a) t post) :
    Alike (x >>= f) (y >>= g) s post := by
  obtain ⟨hrun, hensures⟩ := hx
  cases hx : x.run.run s with
  | mk result t =>
    rw [hx] at hrun
    cases result with
    | ok a =>
      obtain ⟨hrun', hensures'⟩ := hf a t (hensures.of_ok hx)
      refine ⟨?_, ?_⟩
      · rw [run_bind_ok hx, run_bind_ok hrun, hrun']
      · rw [Ensures, run_bind_ok hx]
        exact hensures'
    | error e =>
      refine ⟨?_, ?_⟩
      · rw [run_bind_error hx, run_bind_error hrun]
      · rw [Ensures, run_bind_error hx]
        exact hensures.of_error hx

theorem of_except {y : Except Error α} (s : Store)
    (h : ∀ e, y = .error e → e.isReported = true) :
    Alike (ofExcept y) (ofExcept y) s fun a t => y = .ok a ∧ t = s :=
  of_ensures (ensures_ofExcept.2 ⟨fun _ ha => ⟨ha, rfl⟩, h⟩)

/-- The first run is known to end as it does. -/
theorem run (h : Alike x y s post) :
    Alike x y s fun a t => post a t ∧ x.run.run s = (.ok a, t) :=
  h.and ((Ensures.run x s).mono (fun _ _ hrun => hrun) fun _ _ _ => trivial)

theorem record (e : Event) (s : Store) :
    Alike (liftM (Stylesheet.record e)) (liftM (Stylesheet.record e)) s fun _ t => t = s.record e :=
  lift rfl

/-- A ruleset is built around some rules without much ado. -/
theorem build (header : Header) (rules : List Node) (source : Option Nat) (s : Store) :
    Alike (liftM (Ruleset.build header rules source)) (liftM (Ruleset.build header rules source)) s
      fun r t => (Ruleset.build header rules source).run s = (r, t) ∧ r.header = header ∧
        r.rules = rules ∧ s.Quiet t :=
  lift ⟨rfl, rfl, rfl, KeepsBooks.build header rules source s⟩

theorem get {f g : Store → CompileM β} {post : β → Store → Prop} (h : Alike (f s) (g s) s post) :
    Alike (MonadState.get >>= f) (MonadState.get >>= g) s post := ⟨h.run_eq, h.ensures⟩

end Alike

end Stylesheet
