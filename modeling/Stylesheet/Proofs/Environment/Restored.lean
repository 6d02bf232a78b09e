import Stylesheet.Proofs.Environment.Agreement

/-!
# What compiling leaves of the environment

Whatever is compiled and however it ends, the environment has its frames, its
selectors, its import stack, its pending variables and its depth back, the sources
are the same, and the store has only grown.

The computations with the environment have the outcomes of the compiler and leave
its stores, so this is a statement about what the compiler computes.
-/

namespace Stylesheet.Environment

variable {α : Type}

/-- What an environment keeps while something is compiled in it. -/
structure Restored (before after : Environment) : Prop where
  frames : after.scope.frames = before.scope.frames
  selectors : after.scope.selectors = before.scope.selectors
  importing : after.scope.importing = before.scope.importing
  pending : after.scope.pending = before.scope.pending
  depth : after.scope.depth = before.scope.depth
  options : after.scope.options = before.scope.options
  sources : after.scope.sources = before.scope.sources
  blocks : before.store.blocks <+: after.store.blocks
  /-- The earlier blocks are also written out as before, with all blocks that they refer to. -/
  contents : before.store.contents <+: after.store.contents
  imported : before.store.imported ⊆ after.store.imported

/-- In the environment, `x` ends as `y` does with the store, and the environment is restored. -/
def Restores (env : Environment) (x : EnvironmentM α) (y : CompileM α) : Prop :=
  (x.run.run env).1 = (y.run.run env.store).1 ∧
    (x.run.run env).2.store = (y.run.run env.store).2 ∧
    Restored env (x.run.run env).2

/-- The store that is left when the computation ends, in whichever way, has only grown. -/
theorem grows_run {y : CompileM α} (h : GrowsStore y) (s : Store) : s.Grows (y.run.run s).2 := by
  have hs := h s
  unfold Ensures at hs
  split at hs
  · rename_i hy
    rwa [hy]
  · rename_i hy
    rwa [hy]

theorem restores_of_runsAt {env : Environment} {x : EnvironmentM α} {y : CompileM α}
    (h : RunsAt env.scope x y) (hgrows : GrowsStore y) : Restores env x y := by
  have hrun : x.run.run env =
      ((y.run.run env.store).1, ⟨env.scope, (y.run.run env.store).2⟩) := h env.store
  have hstore := grows_run hgrows env.store
  rw [Restores, hrun]
  exact ⟨rfl, rfl, rfl, rfl, rfl, rfl, rfl, rfl, rfl, hstore.blocks, hstore.contents,
    hstore.imported.subset⟩

/-- Every operation of the compiler restores the environment, whether it succeeds or fails, and has
the outcome of the compiler. -/
theorem environment_restored (env : Environment) :
    (∀ r, Restores env (compileRuleset r) (r.compile env.scope)) ∧
    (∀ node, Restores env (compileNode node) (node.compile env.scope)) ∧
    (∀ call, Restores env (compileCall call) (call.compile env.scope)) ∧
    (∀ i, Restores env (compileImport i) (i.compile env.scope)) ∧
    (∀ t, Restores env (selector t) (ofExcept (env.scope.selector t))) ∧
    (∀ v span, Restores env (value v span) (ofExcept (env.scope.value v span))) ∧
    ∀ name span, Restores env (resolve name span) (ofExcept (env.scope.resolve name span)) := by
  have hexpand : ∀ sc call args c, GrowsStore (env.scope.expander sc call args c) :=
    GrowsStore.upTo env.scope.budget
  refine ⟨?_, ?_, ?_, ?_, ?_, ?_, ?_⟩
  · exact fun r => restores_of_runsAt (runsAt_compileRuleset r) (GrowsStore.compiler hexpand _ r)
  · exact fun node => restores_of_runsAt (runsAt_compileNode node)
      (GrowsStore.node (GrowsStore.compiler hexpand) _ node)
  · exact fun call => restores_of_runsAt (runsAt_compileCall call) (GrowsStore.call hexpand _ call)
  · exact fun i => restores_of_runsAt (runsAt_compileImport i) (GrowsStore.importCompile _ i)
  · exact fun t => restores_of_runsAt (readsAt_selector t).runsAt (GrowsStore.of_except _)
  · exact fun v span => restores_of_runsAt (readsAt_value v span).runsAt (GrowsStore.of_except _)
  · exact fun name span =>
      restores_of_runsAt (readsAt_resolve name span).runsAt (GrowsStore.of_except _)

end Stylesheet.Environment
