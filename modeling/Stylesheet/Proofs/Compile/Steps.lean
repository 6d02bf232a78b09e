import Stylesheet.Compile.Basic
import Stylesheet.Proofs.Contract
import Stylesheet.Proofs.Except
import Stylesheet.Proofs.Node.Numbering
import Mathlib.Data.List.Forall2

/-!
# The small steps of the compiler

What the steps that only keep the books do to the store: recording an event,
giving out numbers, and building rulesets. They leave the blocks, the imported
paths and the remembered lookups alone, and so does any sequence of them.
-/

namespace Stylesheet

variable {α β : Type}

theorem run_bind_eq (x : StateM Store α) (f : α → StateM Store β) (s : Store) :
    (x >>= f).run s = (f (x.run s).1).run (x.run s).2 := rfl

theorem run_get (s : Store) : (get : StateM Store Store).run s = (s, s) := rfl

theorem run_numberRules (rules : List Rule) (s : Store) :
    (numberRules rules).run s =
      (((Node.ofRules rules).run s.nextSerial).1,
        { s with nextSerial := ((Node.ofRules rules).run s.nextSerial).2 }) := rfl

theorem run_load_of_imported {path : String} {s : Store} (h : path ∈ s.imported)
    (rules : List Rule) : (load path rules).run s = (none, s.record (.skipping path)) := by
  have hcontains : s.imported.contains path = true := by simpa using h
  rw [load, run_bind_eq, run_get]
  simp only [hcontains, if_true]
  rfl

/-- A source that is new is numbered, and its path is noted. -/
theorem run_load_of_new {path : String} {s : Store} (h : path ∉ s.imported) (rules : List Rule) :
    ∃ next t, (load path rules).run s = (some ((Node.ofRules rules).run next).1, t) ∧
      t.blocks = s.blocks ∧ t.inherited = s.inherited ∧ t.memo = s.memo ∧
      t.imported = path :: s.imported ∧ s.nextSerial ≤ next ∧
      s.nextSerial ≤ t.nextSerial := by
  have hcontains : s.imported.contains path = false := by simpa using h
  refine ⟨s.nextSerial, ((load path rules).run s).2, ?_⟩
  rw [load, run_bind_eq, run_get]
  simp only [hcontains]
  exact ⟨rfl, rfl, rfl, rfl, rfl, Nat.le_refl _, Node.le_next_ofRules rules s.nextSerial⟩

namespace Store

/-- The two stores differ at most in the numbers given out and in the record. -/
structure Quiet (s t : Store) : Prop where
  blocks : t.blocks = s.blocks
  inherited : t.inherited = s.inherited
  imported : t.imported = s.imported
  memo : t.memo = s.memo
  nextSerial : s.nextSerial ≤ t.nextSerial

theorem Quiet.refl (s : Store) : Quiet s s := ⟨rfl, rfl, rfl, rfl, Nat.le_refl _⟩

theorem Quiet.trans {s t u : Store} (h : Quiet s t) (h' : Quiet t u) : Quiet s u :=
  ⟨h'.blocks.trans h.blocks, h'.inherited.trans h.inherited, h'.imported.trans h.imported,
    h'.memo.trans h.memo, Nat.le_trans h.nextSerial h'.nextSerial⟩

theorem quiet_record (s : Store) (e : Event) : Quiet s (s.record e) :=
  ⟨rfl, rfl, rfl, rfl, Nat.le_refl _⟩

theorem quiet_nextSerial (s : Store) {next : Nat} (h : s.nextSerial ≤ next) :
    Quiet s { s with nextSerial := next } :=
  ⟨rfl, rfl, rfl, rfl, h⟩

end Store

/-- The computation leaves everything but the numbers and the record as it is. -/
def KeepsBooks (x : StateM Store α) : Prop := ∀ s : Store, s.Quiet (x.run s).2

namespace KeepsBooks

theorem pure (a : α) : KeepsBooks (Pure.pure a) := fun s => Store.Quiet.refl s

theorem bind {x : StateM Store α} {f : α → StateM Store β} (hx : KeepsBooks x)
    (hf : ∀ a, KeepsBooks (f a)) : KeepsBooks (x >>= f) := by
  intro s
  exact (hx s).trans (hf _ _)

theorem mapM {f : α → StateM Store β} (hf : ∀ a, KeepsBooks (f a)) (xs : List α) :
    KeepsBooks (xs.mapM f) := by
  induction xs with
  | nil => exact KeepsBooks.pure []
  | cons x xs ih =>
    rw [List.mapM_cons]
    exact (hf x).bind fun b => ih.bind fun bs => KeepsBooks.pure _

theorem numbering {number : StateM Nat α} (h : ∀ next, next ≤ (number.run next).2) :
    KeepsBooks (Stylesheet.numbering number) :=
  fun s => s.quiet_nextSerial (h s.nextSerial)

theorem build (header : Header) (rules : List Node) (source : Option Nat) :
    KeepsBooks (Ruleset.build header rules source) :=
  fun s => s.quiet_nextSerial (Nat.le_succ s.nextSerial)

theorem renewNodes (nodes : List Node) : KeepsBooks (Stylesheet.renewNodes nodes) :=
  numbering (Node.le_next_renewAll nodes)

theorem renewBlock (b : Block) : KeepsBooks b.renew :=
  bind (renewNodes b.rules) fun _ => KeepsBooks.pure _

theorem markBlock (b : Block) : KeepsBooks b.markImportant :=
  bind (renewBlock b) fun _ => KeepsBooks.pure _

theorem wrapBlock (selectors : List Selector) (b : Block) : KeepsBooks (b.wrap selectors) :=
  bind (build _ _ _) fun _ => KeepsBooks.pure _

end KeepsBooks

/-- A frame around other rules is built without much ado. -/
theorem ensures_rebuild {frame : Ruleset} {rules : List Node} {s : Store}
    {post : Ruleset → Store → Prop} {fail : Error → Store → Prop}
    (h : ∀ next t, next.header = frame.header → next.rules = rules → s.Quiet t → post next t) :
    Ensures (liftM (frame.rebuild rules)) s post fail :=
  ensures_lift.2 (h _ _ rfl rfl (KeepsBooks.build _ _ _ s))

/-- Each result of a computation over a list is a result at its member, from some later store. -/
theorem forall₂_run_mapM {f : α → StateM Store β} (hf : ∀ x, KeepsBooks (f x)) (xs : List α)
    (s : Store) :
    List.Forall₂ (fun x y => ∃ t, s.Quiet t ∧ y = ((f x).run t).1) xs ((xs.mapM f).run s).1 := by
  induction xs generalizing s with
  | nil => exact .nil
  | cons x xs ih =>
    rw [List.mapM_cons]
    refine .cons ⟨s, .refl s, rfl⟩ ((ih _).imp ?_)
    rintro x y ⟨t, hquiet, rfl⟩
    exact ⟨t, (hf _ s).trans hquiet, rfl⟩

namespace Store

/-- The second store has each block from `first` on replaced by a related one, and otherwise differs
at most in the numbers given out and in the record. -/
structure Reworks (first : Nat) (R : Block → Block → Prop) (s t : Store) : Prop where
  blocks : ∃ new, t.blocks = s.blocks.take first ++ new ∧ List.Forall₂ R (s.blocks.drop first) new
  inherited : t.inherited = s.inherited
  imported : t.imported = s.imported
  memo : t.memo = s.memo
  nextSerial : s.nextSerial ≤ t.nextSerial

namespace Reworks

variable {first : Nat} {R : Block → Block → Prop} {s t : Store}

theorem length_eq (h : s.Reworks first R t) : t.blocks.length = s.blocks.length := by
  obtain ⟨new, hblocks, hnew⟩ := h.blocks
  rw [hblocks, List.length_append, ← hnew.length_eq, ← List.length_append, List.take_append_drop]

theorem imp {R' : Block → Block → Prop} (h : s.Reworks first R t)
    (hR : ∀ b b', R b b' → R' b b') : s.Reworks first R' t := by
  obtain ⟨new, hblocks, hnew⟩ := h.blocks
  exact ⟨⟨new, hblocks, hnew.imp hR⟩, h.inherited, h.imported, h.memo, h.nextSerial⟩

/-- A block from the given one on is replaced by a related one. -/
theorem getElem?_of_le (h : s.Reworks first R t) {index : Nat} {old : Block} (hle : first ≤ index)
    (hold : s.blocks[index]? = some old) : ∃ b, t.blocks[index]? = some b ∧ R old b := by
  obtain ⟨new, hblocks, hnew⟩ := h.blocks
  have hlt := (List.getElem?_eq_some_iff.1 hold).1
  have htake : (s.blocks.take first).length = first := by simp; omega
  have hdrop : (s.blocks.drop first)[index - first]? = some old := by
    rw [List.getElem?_drop, Nat.add_sub_cancel' hle, hold]
  obtain ⟨b, hb, hrel⟩ := exists_of_getElem?_left hnew hdrop
  refine ⟨b, ?_, hrel⟩
  rw [hblocks, List.getElem?_append_right (by omega), htake, hb]

/-- A block is as it was before, or stands in for a related one. -/
theorem getElem? (h : s.Reworks first R t) {index : Nat} {b : Block}
    (hb : t.blocks[index]? = some b) :
    s.blocks[index]? = some b ∨
      first ≤ index ∧ ∃ old, s.blocks[index]? = some old ∧ R old b := by
  have hlt : index < s.blocks.length := by
    rw [← h.length_eq]
    exact (List.getElem?_eq_some_iff.1 hb).1
  obtain ⟨new, hblocks, hnew⟩ := h.blocks
  rw [hblocks] at hb
  by_cases hfirst : index < first
  · rw [List.getElem?_append_left (by simp; omega), List.getElem?_take_of_lt hfirst] at hb
    exact .inl hb
  · have htake : (s.blocks.take first).length = first := by simp; omega
    rw [List.getElem?_append_right (by omega), htake] at hb
    obtain ⟨old, hold, hrel⟩ := exists_of_getElem?_right hnew hb
    rw [List.getElem?_drop, Nat.add_sub_cancel' (by omega)] at hold
    exact .inr ⟨by omega, old, hold, hrel⟩

end Reworks

end Store

/-- Marking renews the blocks from the given one on and marks their declarations. -/
theorem reworks_markImportant (first : Nat) (nodes : List Node) (s : Store) :
    s.Reworks first
      (fun b b' => ∃ n, s.nextSerial ≤ n ∧
        b' = { b with rules := Node.markAllImportant ((Node.renewAll b.rules).run n).1 })
      ((markImportant first nodes).run s).2 := by
  have hrenewed := KeepsBooks.renewNodes nodes s
  have hquiet := hrenewed.trans (KeepsBooks.mapM KeepsBooks.markBlock (s.blocks.drop first)
    ((renewNodes nodes).run s).2)
  have hmarked := forall₂_run_mapM KeepsBooks.markBlock (s.blocks.drop first)
    ((renewNodes nodes).run s).2
  refine ⟨⟨_, ?_, hmarked.imp ?_⟩, hquiet.inherited, hquiet.imported, hquiet.memo,
    hquiet.nextSerial⟩
  · exact congrArg (·.take first ++ _) hquiet.blocks
  · rintro b b' ⟨t, ht, rfl⟩
    exact ⟨t.nextSerial, (hrenewed.trans ht).nextSerial, rfl⟩

theorem run_markImportant (first : Nat) (nodes : List Node) (s : Store) :
    ((markImportant first nodes).run s).1 =
      Node.markAllImportant ((Node.renewAll nodes).run s.nextSerial).1 := rfl

theorem run_bubble_nil (first : Nat) (s : Store) : (bubble [] first).run s = ((), s) := rfl

theorem run_bubble_of_le {selectors : List Selector} {first : Nat} {s : Store}
    (h : s.blocks.length ≤ first) : (bubble selectors first).run s = ((), s) := by
  change (if (selectors.isEmpty || decide (s.blocks.length ≤ first)) = true then pure ()
    else _ : StateM Store Unit).run s = _
  rw [decide_eq_true h, Bool.or_true, if_pos rfl]
  rfl

theorem run_bubble_of_lt {selectors : List Selector} (h : selectors ≠ []) {first : Nat} {s : Store}
    (hlength : ¬s.blocks.length ≤ first) :
    (bubble selectors first).run s =
      let wrapped := ((s.blocks.drop first).mapM (Block.wrap selectors)).run
        (s.record (.bubbling (s.blocks.length - first) selectors.length))
      ((), { wrapped.2 with blocks := s.blocks.take first ++ wrapped.1 }) := by
  have hsome : ¬(selectors.isEmpty || decide (s.blocks.length ≤ first)) = true := by
    simp [h, hlength]
  change (if (selectors.isEmpty || decide (s.blocks.length ≤ first)) = true then pure ()
    else _ : StateM Store Unit).run s = _
  rw [if_neg hsome]
  rfl

/-- Bubbling wraps the blocks from the given one on in the selectors. -/
theorem reworks_bubble_of_ne_nil {selectors : List Selector} (h : selectors ≠ []) (first : Nat)
    (s : Store) :
    s.Reworks first
      (fun b b' => ∃ n, s.nextSerial ≤ n ∧
        b' = { b with rules := [.ruleset ⟨n, none, { selectors }, b.rules⟩] })
      ((bubble selectors first).run s).2 := by
  by_cases hlength : s.blocks.length ≤ first
  · rw [run_bubble_of_le hlength]
    refine ⟨⟨[], ?_, ?_⟩, rfl, rfl, rfl, Nat.le_refl _⟩
    · rw [List.take_of_length_le hlength, List.append_nil]
    · rw [List.drop_eq_nil_of_le hlength]
      exact .nil
  · have hquiet := KeepsBooks.mapM (KeepsBooks.wrapBlock selectors) (s.blocks.drop first)
      (s.record (.bubbling (s.blocks.length - first) selectors.length))
    have hwrapped := forall₂_run_mapM (KeepsBooks.wrapBlock selectors) (s.blocks.drop first)
      (s.record (.bubbling (s.blocks.length - first) selectors.length))
    rw [run_bubble_of_lt h hlength]
    refine ⟨⟨_, rfl, hwrapped.imp ?_⟩, hquiet.inherited, hquiet.imported, hquiet.memo,
      hquiet.nextSerial⟩
    rintro b b' ⟨t, ht, rfl⟩
    exact ⟨t.nextSerial, ht.nextSerial, rfl⟩

/-- Bubbling wraps the blocks from the given one on, unless there are no selectors. -/
theorem reworks_bubble (selectors : List Selector) (first : Nat) (s : Store) :
    s.Reworks first
      (fun b b' => b' = b ∨
        ∃ n, s.nextSerial ≤ n ∧
          b' = { b with rules := [.ruleset ⟨n, none, { selectors }, b.rules⟩] })
      ((bubble selectors first).run s).2 := by
  by_cases hnone : selectors = []
  · subst hnone
    rw [run_bubble_nil]
    refine ⟨⟨s.blocks.drop first, (List.take_append_drop first s.blocks).symm, ?_⟩, rfl, rfl, rfl,
      Nat.le_refl _⟩
    exact List.forall₂_same.2 fun b _ => .inl rfl
  · exact (reworks_bubble_of_ne_nil hnone first s).imp fun b b' h => .inr h

/-- Renewing a ruleset gives new numbers to the rulesets in some of the blocks. -/
theorem forall₂_blocks_renew (r : Ruleset) (s : Store) :
    List.Forall₂ (fun b b' : Block => b' = b ∨
        ∃ next, b' = { b with rules := ((Node.renewAll b.rules).run next).1 })
      s.blocks (r.renew.run s).2.blocks := by
  have hbooks : ∀ entry : Block × Nat, KeepsBooks
      (if (s.reachable r.rules).contains entry.2 then entry.1.renew else pure entry.1) := by
    intro entry
    split
    · exact KeepsBooks.renewBlock entry.1
    · exact KeepsBooks.pure entry.1
  have hall := forall₂_run_mapM hbooks s.blocks.zipIdx ((renewNodes r.rules).run s).2
  have hrenewed : List.Forall₂ (fun (entry : Block × Nat) (b' : Block) => b' = entry.1 ∨
        ∃ next, b' = { entry.1 with rules := ((Node.renewAll entry.1.rules).run next).1 })
      s.blocks.zipIdx (r.renew.run s).2.blocks := by
    refine List.Forall₂.imp ?_ hall
    rintro entry b ⟨t, -, rfl⟩
    split
    · exact .inr ⟨t.nextSerial, rfl⟩
    · exact .inl rfl
  have hfst : s.blocks.zipIdx.map Prod.fst = s.blocks := List.zipIdx_map_fst 0 s.blocks
  rw [← hfst]
  exact List.forall₂_map_left_iff.2 hrenewed

namespace Scope

variable {sc : Scope} {name : String} {d : Declaration}

theorem resolve_of_unbound (h : sc.binding? name = none) (span : Span) :
    sc.resolve name span = .error (.undefinedVariable name span) := by
  rw [Scope.resolve]
  split
  · rfl
  · rename_i hd
    rw [h] at hd
    cases hd

theorem resolve_of_pending (h : sc.binding? name = some d) (hp : name ∈ sc.pending) (span : Span) :
    sc.resolve name span = .error (.recursiveVariable name span) := by
  rw [Scope.resolve]
  split
  · rename_i hd
    rw [h] at hd
    cases hd
  · rw [dif_pos hp]

theorem resolve_of_bound (h : sc.binding? name = some d) (hp : name ∉ sc.pending) (span : Span) :
    sc.resolve name span =
      d.value.fill ({ sc with pending := name :: sc.pending }.lookup d.span) := by
  rw [Scope.resolve]
  split
  · rename_i hd
    rw [h] at hd
    cases hd
  · rename_i d' hd
    obtain rfl : d = d' := Option.some.inj (h.symm.trans hd)
    rw [dif_neg hp]
    rfl

/-- The value of a variable depends on the variables in the frames and on what is being resolved,
and on nothing else of the scope. -/
theorem resolve_congr {sc' : Scope} (hbinding : ∀ name, sc'.binding? name = sc.binding? name)
    (hpending : sc'.pending = sc.pending) (name : String) (span : Span) :
    sc'.resolve name span = sc.resolve name span := by
  induction sc, name, span using Scope.resolve.induct generalizing sc' with
  | case1 sc name span hd =>
    have hd' : sc'.binding? name = none := (hbinding name).trans hd
    rw [resolve_of_unbound hd, resolve_of_unbound hd']
  | case2 sc name span d hd hp =>
    have hd' : sc'.binding? name = some d := (hbinding name).trans hd
    rw [resolve_of_pending hd hp, resolve_of_pending hd' (hpending ▸ hp)]
  | case3 sc name span d hd hp ih =>
    have hd' : sc'.binding? name = some d := (hbinding name).trans hd
    rw [resolve_of_bound hd hp, resolve_of_bound hd' (hpending ▸ hp)]
    congr 1
    funext inner
    have hinner : { sc' with pending := name :: sc'.pending }.resolve inner d.span =
        { sc with pending := name :: sc.pending }.resolve inner d.span :=
      ih inner hbinding (congrArg (name :: ·) hpending)
    rw [lookup, lookup, hinner]

theorem lookup_congr {sc' : Scope} (hbinding : ∀ name, sc'.binding? name = sc.binding? name)
    (hpending : sc'.pending = sc.pending) (span : Span) : sc'.lookup span = sc.lookup span := by
  funext name
  rw [lookup, lookup, resolve_congr hbinding hpending]

theorem value_congr {sc' : Scope} (hbinding : ∀ name, sc'.binding? name = sc.binding? name)
    (hpending : sc'.pending = sc.pending) (v : Value) (span : Span) :
    sc'.value v span = sc.value v span := by
  rw [value, value, lookup_congr hbinding hpending]

end Scope

namespace Import

variable {sc : Scope} {i : Import} {sources : Sources}

theorem compile_of_css (hcss : i.css = true) : i.compile sc = pure [.inclusion i] := by
  rw [Import.compile, if_pos hcss]

theorem compile_of_importing (hcss : ¬i.css = true) (hi : i.path ∈ sc.importing) :
    i.compile sc = throw (.importFailed i.path .recursive i.span) := by
  rw [Import.compile, if_neg hcss, dif_pos hi]

theorem compile_of_no_sources (hcss : ¬i.css = true) (hi : i.path ∉ sc.importing)
    (hs : sc.sources = none) : i.compile sc = pure [.inclusion i] := by
  rw [Import.compile, if_neg hcss, dif_neg hi]
  split
  · rfl
  · rename_i hsome
    rw [hs] at hsome
    cases hsome

theorem compile_of_not_found (hcss : ¬i.css = true) (hi : i.path ∉ sc.importing)
    (hs : sc.sources = some sources) (h : sources.lookup i.path = none) :
    i.compile sc = throw (.importFailed i.path .notFound i.span) := by
  rw [Import.compile, if_neg hcss, dif_neg hi]
  split
  · rename_i hnone
    rw [hs] at hnone
    cases hnone
  · rename_i table htable
    obtain rfl : sources = table := Option.some.inj (hs.symm.trans htable)
    split
    · rfl
    · rename_i hrules
      rw [h] at hrules
      cases hrules

theorem compile_of_found {rules : List Rule} (hcss : ¬i.css = true) (hi : i.path ∉ sc.importing)
    (hs : sc.sources = some sources) (h : sources.lookup i.path = some rules) :
    i.compile sc = (do
      match ← load i.path rules with
      | none => return []
      | some nodes =>
        replaceImports (Import.compile { sc with importing := i.path :: sc.importing }) nodes) := by
  rw [Import.compile, if_neg hcss, dif_neg hi]
  split
  · rename_i hnone
    rw [hs] at hnone
    cases hnone
  · rename_i table htable
    obtain rfl : sources = table := Option.some.inj (hs.symm.trans htable)
    split
    · rename_i hnone
      rw [h] at hnone
      cases hnone
    · rename_i found hfound
      obtain rfl : rules = found := Option.some.inj (h.symm.trans hfound)
      rfl

end Import

/-- A slot of the ruleset itself is compiled, unless it holds a mixin definition. -/
theorem compileSlots_own {compile : NodeCompiler} {inside : Ruleset → Scope} {frame : Ruleset}
    {done : List Node} {node : Node} {slots : List Slot} (h : ∀ d, node ≠ .definition d) :
    compileSlots compile inside frame done (.own node :: slots) = (do
      let compiled ← compile (inside frame) node
      match compiled with
      | .ruleset _ => do
        let frame ← frame.rebuild (done ++ [compiled] ++ slots.map Slot.node)
        compileSlots compile inside frame (done ++ [compiled]) slots
      | _ => compileSlots compile inside frame (done ++ [compiled]) slots) := by
  cases node with
  | definition d => exact absurd rfl (h d)
  | _ => rfl

/-- Slots with expanded nodes stay as they are. -/
theorem compileSlots_expanded (compile : NodeCompiler) (inside : Ruleset → Scope) (frame : Ruleset)
    (done nodes : List Node) (slots : List Slot) :
    compileSlots compile inside frame done (nodes.map .expanded ++ slots) =
      compileSlots compile inside frame (done ++ nodes) slots := by
  induction nodes generalizing done with
  | nil => rw [List.map_nil, List.nil_append, List.append_nil]
  | cons n nodes ih =>
    rw [List.map_cons, List.cons_append, compileSlots, ih, List.append_assoc, List.singleton_append]

/-- The node declares the variable. -/
def Node.Declares (name : String) (n : Node) : Prop := ∃ d, n.binding? = some d ∧ d.name = name

theorem ensures_declares_of_compileMedia (compile : Compiler) (sc : Scope) (head : MediaHead)
    (rules : List Node) (s : Store) (n : Node) :
    Ensures (compileMedia compile sc head rules) s
      (fun m _ => ∀ name, m.Declares name → n.Declares name) fun _ _ => True := by
  refine ensures_bind.2 (ensures_of_forall ?_ fun _ _ => trivial)
  rintro rules t name ⟨d, ⟨⟩, -⟩

/-- What a node is compiled to declares no other variable than the node does. -/
theorem ensures_declares_of_compile (compile : Compiler) (sc : Scope) (n : Node) (s : Store) :
    Ensures (n.compileWith compile sc) s (fun m _ => ∀ name, m.Declares name → n.Declares name)
      fun _ _ => True := by
  cases n with
  | declaration d =>
    refine ensures_bind.2 (ensures_ofExcept.2 ⟨fun d' hd' => ?_, fun _ _ => trivial⟩)
    obtain ⟨value, -, ⟨⟩⟩ := bind_eq_ok_iff.1 hd'
    rintro name ⟨b, hb, rfl⟩
    rw [Node.binding?] at hb
    split at hb
    · rename_i hvariable
      cases hb
      exact ⟨d, if_pos hvariable, rfl⟩
    · cases hb
  | ruleset r =>
    refine ensures_bind.2 (ensures_of_forall ?_ fun _ _ => trivial)
    rintro r' t name ⟨d, ⟨⟩, -⟩
  | media head rules => exact ensures_declares_of_compileMedia compile sc head rules s _
  | block index =>
    rw [Node.compileWith, ensures_bind, ensures_get]
    cases s.blocks[index]? with
    | none => exact fun name h => h
    | some b => exact ensures_declares_of_compileMedia compile sc b.head b.rules s _
  | directive head rules =>
    cases rules with
    | none => exact fun name h => h
    | some rules =>
      refine ensures_bind.2 (ensures_of_forall ?_ fun _ _ => trivial)
      rintro rules' t name ⟨d, ⟨⟩, -⟩
  | call c => trivial
  | _ => exact fun name h => h

theorem map_node_append_expanded (slots : List Slot) (nodes : List Node) :
    (slots ++ nodes.map Slot.expanded).map Slot.node = slots.map Slot.node ++ nodes := by
  simp [Function.comp_def, Slot.node]

/-- The scope that the rules of a candidate are compiled in. Its parameters are seen first, then the
frames that it brings along, and then those of the call. -/
def Scope.inBody (sc : Scope) (params : Ruleset) (c : Candidate) : Scope :=
  { sc with frames := params :: (c.closure ++ sc.frames), depth := sc.depth + 1 }

namespace Expander

/-- Compile the rules of a candidate in the scope that they are expanded in. The number of blocks at
that point comes with the result. -/
def body (compile : Compiler) (sc : Scope) (call : MixinCall) (args : List Value) (c : Candidate) :
    CompileM (Nat × List Node) := do
  record (.expanding call.selector (sc.depth + 1))
  let bindings ← ofExcept (c.bindings sc call.span args)
  let frame ← Ruleset.build {} (bindings.map .declaration) none
  let body ← Ruleset.build {} c.rules none
  let first := (← get).blocks.length
  let compiled ← compile (sc.inBody frame c) body
  return (first, compiled.rules)

theorem ofCompiler_eq (compile : Compiler) (sc : Scope) (call : MixinCall) (args : List Value)
    (c : Candidate) :
    ofCompiler compile sc call args c = (do
      let (first, nodes) ← body compile sc call args c
      if call.important then markImportant first nodes else return nodes) := by
  simp only [ofCompiler, body, Scope.inBody, bind_assoc, pure_bind]

end Expander

namespace Ruleset

/-- The frame of a ruleset before its definitions take hold of the frames around them: its rules
with the imports replaced, where they are. -/
def homeFrame (sc : Scope) (r : Ruleset) (selectors : List Selector) : CompileM Ruleset := do
  let frame ← Ruleset.build { r.header with selectors, paths := [] } r.rules (some r.serial)
  if sc.replacesImports r.header then
    let rules ← replaceImports (Import.compile (sc.enter frame selectors)) frame.rules
    frame.rebuild rules
  else pure frame

/-- The rest of compiling a ruleset from its frame on: the calls, the other nodes, the blocks. How
the other nodes are compiled may depend on what became of the calls. -/
def fillFrame (expand : Expander) (compile : List Slot → NodeCompiler) (sc : Scope)
    (selectors : List Selector) (frame : Ruleset) : CompileM Ruleset := do
  let first := (← get).blocks.length
  let (frame, slots) ← expandCalls expand (sc.enter · selectors) frame [] frame.rules
  let (frame, rules) ← compileSlots (compile slots) (sc.enter · selectors) frame [] slots
  bubble selectors first
  frame.rebuild rules

/-- Compile a ruleset, by way of its home frame and the frame with captured definitions. -/
def compileBy (expand : Expander) (compile : List Slot → NodeCompiler) : Compiler := fun sc r => do
  let selectors ← ofExcept (r.header.selectors.mapM sc.selector)
  record (.compiling selectors r.rules.length)
  let home ← r.homeFrame sc selectors
  let frame ← home.rebuild (captureFrames (home :: sc.frames) home.rules)
  frame.fillFrame expand compile sc selectors

theorem compileWith_eq (expand : Expander) (compile : Compiler) :
    Ruleset.compileWith expand compile =
      Ruleset.compileBy expand fun _ => Node.compileWith compile := by
  funext sc r
  unfold Ruleset.compileWith compileBy homeFrame fillFrame
  refine bind_congr fun selectors => bind_congr fun _ => ?_
  rw [bind_assoc]
  refine bind_congr fun frame => ?_
  split
  · rw [bind_assoc]
    rfl
  · rfl

end Ruleset

end Stylesheet
