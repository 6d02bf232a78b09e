import Stylesheet.Proofs.Compile.Lookup

/-!
# The store only grows

Whatever is compiled and however it ends, the blocks that were there before are
there afterwards, in front and unchanged, and no path is forgotten that was
imported. Later blocks are still changed when they are wrapped or marked, but the
steps that do so start at the number of blocks at an earlier point of the same
computation, so nothing from before the computation is touched.

This needs no assumption on the scope, the store or the tree.
-/

namespace Stylesheet

variable {α β : Type}

/-- Where each entry of a list is found from those before it, a longer list has the same entries in
front. -/
theorem prefix_foldl_concat {f : List β → α → β} {xs ys : List α} (h : xs <+: ys) :
    xs.foldl (fun acc x => acc ++ [f acc x]) [] <+:
      ys.foldl (fun acc x => acc ++ [f acc x]) [] := by
  have hadded : ∀ (more : List α) (acc : List β),
      acc <+: more.foldl (fun acc x => acc ++ [f acc x]) acc := by
    intro more
    induction more with
    | nil => exact fun acc => List.prefix_rfl
    | cons x more ih => exact fun acc => (List.prefix_append _ _).trans (ih _)
  obtain ⟨more, rfl⟩ := h
  rw [List.foldl_append]
  exact hadded more _

theorem length_foldl_concat (f : List β → α → β) (xs : List α) (acc : List β) :
    (xs.foldl (fun acc x => acc ++ [f acc x]) acc).length = acc.length + xs.length := by
  induction xs generalizing acc with
  | nil => rfl
  | cons x xs ih =>
    rw [List.foldl_cons, ih]
    simp only [List.length_append, List.length_cons, List.length_nil]
    omega

theorem getElem?_foldl_concat {f : List β → α → β} {xs : List α} {x : α} {index : Nat}
    (h : xs[index]? = some x) :
    (xs.foldl (fun acc x => acc ++ [f acc x]) [])[index]? =
      some (f ((xs.foldl (fun acc x => acc ++ [f acc x]) []).take index) x) := by
  obtain ⟨hindex, -⟩ := List.getElem?_eq_some_iff.1 h
  have hsplit : xs.take index ++ [x] <+: xs := by
    have htake : xs.take (index + 1) = xs.take index ++ [x] := by
      rw [List.take_add_one, h]
      rfl
    exact htake ▸ List.take_prefix (index + 1) xs
  obtain ⟨more, hmore⟩ := prefix_foldl_concat (f := f) hsplit
  rw [List.foldl_append, List.foldl_cons, List.foldl_nil] at hmore
  have hlength : ((xs.take index).foldl (fun acc x => acc ++ [f acc x]) []).length = index := by
    rw [length_foldl_concat, List.length_nil, Nat.zero_add,
      List.length_take_of_le (Nat.le_of_lt hindex)]
  rw [← hmore, List.append_assoc, List.take_left' hlength,
    List.getElem?_append_right (Nat.le_of_eq hlength), hlength, Nat.sub_self]
  rfl

/-- Where each entry of a list is found from those before it, what holds of an entry once it holds
of those before it holds of all of them. -/
theorem forall_foldl_concat {f : List β → α → β} {P : Nat → β → Prop} {xs : List α}
    (h : ∀ acc x, xs[acc.length]? = some x → (∀ i y, acc[i]? = some y → P i y) →
      P acc.length (f acc x)) :
    ∀ i y, (xs.foldl (fun acc x => acc ++ [f acc x]) [])[i]? = some y → P i y := by
  have hrest : ∀ (rest : List α) (acc : List β), (∀ k, xs[acc.length + k]? = rest[k]?) →
      (∀ i y, acc[i]? = some y → P i y) →
      ∀ i y, (rest.foldl (fun acc x => acc ++ [f acc x]) acc)[i]? = some y → P i y := by
    intro rest
    induction rest with
    | nil => exact fun acc _ hacc => hacc
    | cons x rest ih =>
      intro acc hget hacc
      refine ih (acc ++ [f acc x]) ?_ ?_
      · intro k
        have hk := hget (k + 1)
        rw [List.getElem?_cons_succ] at hk
        rw [← hk, List.length_append, List.length_singleton, Nat.add_assoc, Nat.add_comm 1]
      · intro i y hy
        by_cases hi : i < acc.length
        · rw [List.getElem?_append_left hi] at hy
          exact hacc i y hy
        · rw [List.getElem?_append_right (by omega)] at hy
          obtain rfl := List.mem_singleton.1 (List.mem_of_getElem? hy)
          obtain rfl : i = acc.length := by
            have hlt := (List.getElem?_eq_some_iff.1 hy).1
            simp only [List.length_singleton] at hlt
            omega
          exact h acc x (by simpa using hget 0) hacc
  exact hrest xs [] (by simp) (by simp)

namespace Store

/-- What the second store has in front of what it adds is the first. -/
structure Grows (s t : Store) : Prop where
  blocks : s.blocks <+: t.blocks
  inherited : t.inherited = s.inherited
  imported : s.imported <:+ t.imported

variable {s t u : Store}

theorem Grows.refl (s : Store) : s.Grows s := ⟨List.prefix_rfl, rfl, List.suffix_rfl⟩

theorem Grows.trans (h : s.Grows t) (h' : t.Grows u) : s.Grows u :=
  ⟨h.blocks.trans h'.blocks, h'.inherited.trans h.inherited, h.imported.trans h'.imported⟩

theorem Grows.length_le (h : s.Grows t) : s.blocks.length ≤ t.blocks.length := h.blocks.length_le

theorem Grows.getElem? (h : s.Grows t) {index : Nat} (hindex : index < s.blocks.length) :
    t.blocks[index]? = s.blocks[index]? := by
  obtain ⟨more, hmore⟩ := h.blocks
  rw [← hmore, List.getElem?_append_left hindex]

theorem Quiet.grows (h : s.Quiet t) : s.Grows t :=
  ⟨h.blocks ▸ List.prefix_rfl, h.inherited, h.imported ▸ List.suffix_rfl⟩

/-- Replacing blocks that were added does not show in what was there before. -/
theorem Grows.reworks {first : Nat} {R : Block → Block → Prop} (h : s.Grows t)
    (hfirst : s.blocks.length ≤ first) (h' : t.Reworks first R u) : s.Grows u := by
  obtain ⟨new, hnew, -⟩ := h'.blocks
  refine ⟨?_, h'.inherited.trans h.inherited, h'.imported ▸ h.imported⟩
  rw [hnew]
  exact (List.prefix_take_iff.2 ⟨h.blocks, hfirst⟩).trans (List.prefix_append _ _)

/-- Blocks that are added do not show in what the blocks before them are written out as. -/
theorem Grows.contents (h : s.Grows t) : s.contents <+: t.contents := prefix_foldl_concat h.blocks

end Store

/-- The computation only adds to the store, also when it fails. -/
def GrowsStore (x : CompileM α) : Prop :=
  ∀ s : Store, Ensures x s (fun _ t => s.Grows t) (fun _ t => s.Grows t)

namespace GrowsStore

theorem pure (a : α) : GrowsStore (Pure.pure a) := fun s => Store.Grows.refl s

theorem throw (e : Error) : GrowsStore (MonadExcept.throw e : CompileM α) :=
  fun s => Store.Grows.refl s

theorem of_except (y : Except Error α) : GrowsStore (ofExcept y) := by
  cases y with
  | ok a => exact pure a
  | error e => exact throw e

theorem bind {x : CompileM α} {f : α → CompileM β} (hx : GrowsStore x)
    (hf : ∀ a, GrowsStore (f a)) : GrowsStore (x >>= f) := by
  intro s
  rw [ensures_bind]
  refine (hx s).mono ?_ fun _ _ h => h
  intro a t hst
  exact (hf a t).mono (fun _ _ htu => hst.trans htu) fun _ _ htu => hst.trans htu

theorem lift {x : StateM Store α} (hx : ∀ s : Store, s.Grows (x.run s).2) :
    GrowsStore (liftM x) := hx

theorem lift_books {x : StateM Store α} (hx : KeepsBooks x) : GrowsStore (liftM x) :=
  fun s => (hx s).grows

end GrowsStore

theorem Store.Learns.grows {s t : Store} (h : s.Learns t) : s.Grows t :=
  ⟨h.blocks ▸ List.prefix_rfl, h.inherited, h.imported ▸ List.suffix_rfl⟩

/-- Handing out a source adds its path to the imported ones, at most once. -/
theorem grows_load (path : String) (rules : List Rule) (s : Store) :
    s.Grows ((load path rules).run s).2 := by
  by_cases h : path ∈ s.imported
  · rw [run_load_of_imported h]
    exact (s.quiet_record _).grows
  · obtain ⟨next, t, hload, hblocks, hinherited, -, himported, -⟩ := run_load_of_new h rules
    rw [hload]
    exact ⟨hblocks ▸ List.prefix_rfl, hinherited, himported ▸ List.suffix_cons path s.imported⟩

namespace GrowsStore

theorem replaceImports {replace : Import → CompileM (List Node)}
    (h : ∀ i, GrowsStore (replace i)) (nodes : List Node) :
    GrowsStore (Stylesheet.replaceImports replace nodes) := by
  induction nodes with
  | nil => exact pure []
  | cons node nodes ih =>
    cases node with
    | inclusion i => exact (h i).bind fun _ => ih.bind fun _ => pure _
    | _ => exact ih.bind fun _ => pure _

theorem importCompile (sc : Scope) (i : Import) : GrowsStore (i.compile sc) := by
  induction sc, i using Import.compile.induct with
  | case1 sc i hcss =>
    rw [Import.compile_of_css hcss]
    exact pure _
  | case2 sc i hcss hi =>
    rw [Import.compile_of_importing hcss hi]
    exact throw _
  | case3 sc i hcss hi hs =>
    rw [Import.compile_of_no_sources hcss hi hs]
    exact pure _
  | case4 sc i hcss hi sources hs hlookup =>
    rw [Import.compile_of_not_found hcss hi hs hlookup]
    exact throw _
  | case5 sc i hcss hi sources hs rules hlookup ih =>
    rw [Import.compile_of_found hcss hi hs hlookup]
    refine bind (lift (grows_load _ _)) ?_
    rintro (_ | nodes)
    · exact pure _
    · exact replaceImports ih nodes

theorem expandAll {expand : Candidate → CompileM (List Node)} (h : ∀ c, GrowsStore (expand c))
    (candidates : List Candidate) : GrowsStore (Stylesheet.expandAll expand candidates) := by
  induction candidates with
  | nil => exact pure []
  | cons c candidates ih => exact (h c).bind fun _ => ih.bind fun _ => pure _

theorem call {expand : Expander} (h : ∀ sc call args c, GrowsStore (expand sc call args c))
    (sc : Scope) (c : MixinCall) : GrowsStore (c.compileWith expand sc) := by
  refine bind (of_except _) fun args => bind (lift fun s => (learns_mixin sc _ s).grows) ?_
  rintro (_ | candidates)
  · exact throw _
  · show GrowsStore (if _ then _ else _)
    split
    · exact throw _
    · exact bind (expandAll (h sc c args) _) fun nodes =>
        bind (lift fun s => (s.quiet_record _).grows) fun _ => pure _

/-- A mixin is expanded against the blocks there are when its rules start to be compiled, so marking
them as important leaves all earlier ones alone. -/
theorem ofCompiler {compile : Compiler} (h : ∀ sc r, GrowsStore (compile sc r)) (sc : Scope)
    (call : MixinCall) (args : List Value) (c : Candidate) :
    GrowsStore (Expander.ofCompiler compile sc call args c) := by
  refine bind (lift fun s => (s.quiet_record _).grows) fun _ => bind (of_except _) fun bindings =>
    bind (lift_books (KeepsBooks.build _ _ _)) fun frame =>
    bind (lift_books (KeepsBooks.build _ _ _)) fun body => ?_
  intro s
  rw [ensures_bind, ensures_get, ensures_bind]
  refine (h _ body s).mono ?_ fun _ _ hst => hst
  intro compiled t hst
  split
  · exact hst.reworks (Nat.le_refl _) (reworks_markImportant _ _ t)
  · exact hst

theorem expandCalls {expand : Expander} (h : ∀ sc call args c, GrowsStore (expand sc call args c))
    (inside : Ruleset → Scope) (nodes : List Node) (frame : Ruleset) (done : List Slot) :
    GrowsStore (Stylesheet.expandCalls expand inside frame done nodes) := by
  induction nodes generalizing frame done with
  | nil => exact pure _
  | cons node nodes ih =>
    cases node with
    | call c =>
      exact bind (call h _ c) fun results => bind (lift_books (KeepsBooks.build _ _ _))
        fun frame => ih frame _
    | _ => exact ih frame _

theorem compileBody {compile : Compiler} (h : ∀ sc r, GrowsStore (compile sc r)) (sc : Scope)
    (rules : List Node) : GrowsStore (Stylesheet.compileBody compile sc rules) :=
  bind (lift_books (KeepsBooks.build _ _ _)) fun body => bind (h sc body) fun _ => pure _

theorem compileMedia {compile : Compiler} (h : ∀ sc r, GrowsStore (compile sc r)) (sc : Scope)
    (head : MediaHead) (rules : List Node) :
    GrowsStore (Stylesheet.compileMedia compile sc head rules) := by
  refine bind (compileBody h sc rules) fun rules s => ?_
  exact ⟨List.prefix_append _ _, rfl, List.suffix_rfl⟩

theorem node {compile : Compiler} (h : ∀ sc r, GrowsStore (compile sc r)) (sc : Scope)
    (node : Node) : GrowsStore (node.compileWith compile sc) := by
  cases node with
  | declaration d => exact bind (of_except _) fun _ => pure _
  | ruleset r => exact bind (h sc r) fun _ => pure _
  | media head rules => exact compileMedia h sc head rules
  | block index =>
    intro s
    rw [Node.compileWith, ensures_bind, ensures_get]
    cases s.blocks[index]? with
    | none => exact pure (Node.block index) s
    | some b => exact compileMedia h sc b.head b.rules s
  | directive head rules =>
    cases rules with
    | none => exact pure _
    | some rules => exact bind (compileBody h sc rules) fun _ => pure _
  | call c => exact throw _
  | definition d => exact pure _
  | inclusion i => exact pure _
  | comment c => exact pure _

theorem compileSlots {compile : NodeCompiler} (h : ∀ sc n, GrowsStore (compile sc n))
    (inside : Ruleset → Scope) (slots : List Slot) (frame : Ruleset) (done : List Node) :
    GrowsStore (Stylesheet.compileSlots compile inside frame done slots) := by
  induction slots generalizing frame done with
  | nil => exact pure _
  | cons slot slots ih =>
    cases slot with
    | expanded n => exact ih frame _
    | own n =>
      by_cases hn : ∃ d, n = .definition d
      · obtain ⟨d, rfl⟩ := hn
        exact ih frame _
      · rw [compileSlots_own fun d hd => hn ⟨d, hd⟩]
        refine bind (h _ n) fun compiled => ?_
        cases compiled with
        | ruleset r => exact bind (lift_books (KeepsBooks.build _ _ _)) fun frame => ih frame _
        | _ => exact ih frame _

/-- The blocks are wrapped from the number on that there are when the calls start to be expanded,
so those of before are left alone. -/
theorem fillFrame {expand : Expander} {compile : List Slot → NodeCompiler}
    (hexpand : ∀ sc call args c, GrowsStore (expand sc call args c))
    (hcompile : ∀ slots sc n, GrowsStore (compile slots sc n)) (sc : Scope)
    (selectors : List Selector) (frame : Ruleset) :
    GrowsStore (frame.fillFrame expand compile sc selectors) := by
  intro s
  rw [Ruleset.fillFrame, ensures_bind, ensures_get, ensures_bind]
  refine (expandCalls hexpand _ _ _ _ s).mono ?_ fun _ _ hst => hst
  rintro ⟨frame, slots⟩ t hst
  rw [ensures_bind]
  refine (compileSlots (hcompile slots) _ slots frame [] t).mono ?_ fun _ _ htu => hst.trans htu
  rintro ⟨frame, rules⟩ u htu
  have hsu := hst.trans htu
  exact (hsu.reworks (Nat.le_refl _) (reworks_bubble selectors _ u)).trans
    (Store.quiet_nextSerial _ (Nat.le_succ _)).grows

theorem homeFrame (sc : Scope) (r : Ruleset) (selectors : List Selector) :
    GrowsStore (r.homeFrame sc selectors) := by
  refine bind (lift_books (KeepsBooks.build _ _ _)) fun frame => ?_
  split
  · exact bind (replaceImports (importCompile _) _) fun _ => lift_books (KeepsBooks.build _ _ _)
  · exact pure _

theorem compileWith {expand : Expander} {compile : Compiler}
    (hexpand : ∀ sc call args c, GrowsStore (expand sc call args c))
    (hcompile : ∀ sc r, GrowsStore (compile sc r)) (sc : Scope) (r : Ruleset) :
    GrowsStore (Ruleset.compileWith expand compile sc r) := by
  rw [Ruleset.compileWith_eq]
  exact bind (of_except _) fun selectors => bind (lift fun s => (s.quiet_record _).grows) fun _ =>
    bind (homeFrame sc r selectors) fun home => bind (lift_books (KeepsBooks.build _ _ _))
      fun frame => fillFrame hexpand (fun _ => node hcompile) sc selectors frame

theorem nested {expand : Expander} (h : ∀ sc call args c, GrowsStore (expand sc call args c))
    (levels : Nat) (sc : Scope) (r : Ruleset) : GrowsStore (expand.nested levels sc r) := by
  induction levels generalizing sc r with
  | zero => exact throw _
  | succ levels ih => exact compileWith h ih sc r

theorem compiler {expand : Expander} (h : ∀ sc call args c, GrowsStore (expand sc call args c))
    (sc : Scope) (r : Ruleset) : GrowsStore (expand.compiler sc r) := by
  intro s
  rw [Expander.compiler, ensures_bind, ensures_get]
  exact nested h _ sc r s

theorem upTo (budget : Nat) (sc : Scope) (call : MixinCall) (args : List Value) (c : Candidate) :
    GrowsStore (Expander.upTo budget sc call args c) := by
  induction budget generalizing sc call args c with
  | zero => exact throw _
  | succ budget ih => exact ofCompiler (fun sc r => compiler ih sc r) sc call args c

end GrowsStore

end Stylesheet
