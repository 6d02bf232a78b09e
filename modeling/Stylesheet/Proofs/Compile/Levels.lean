import Stylesheet.Proofs.Compile.Expansion
import Stylesheet.Proofs.Compile.Soundness
import Stylesheet.Proofs.Node.Layers

/-!
# The number of levels does not matter

The compiler counts levels of nesting, so that it can be defined. It starts with as many as
the rules can need. Whatever is nested in a ruleset is compiled with the levels that are
left, which may be more than it would be given on its own. That makes no difference as
long as nodes refer only to blocks that there are, and blocks only to blocks before them:
two compilers run alike if both have enough levels.

So the compiler is what it was meant to be: a ruleset is compiled with the compiler itself for
what is nested in it.
-/

namespace Stylesheet

/-- Some nodes refer only to blocks before the given one, and each of these refers only to blocks
before it. -/
structure Node.Grounded (bound : Nat) (s : Store) (nodes : List Node) : Prop where
  bound_le : bound ≤ s.blocks.length
  refer : Node.ReferWithin 0 bound nodes
  layered : ∀ index b, index < bound → s.blocks[index]? = some b →
    Node.ReferWithin 0 index b.rules

namespace Node

variable {bound : Nat} {n : Node} {nodes : List Node} {s t : Store}

theorem mem_allBlockIndices {index : Nat} :
    index ∈ allBlockIndices nodes ↔ ∃ n ∈ nodes, index ∈ n.blockIndices := by
  induction nodes with
  | nil => simp [allBlockIndices]
  | cons n nodes ih => simp [allBlockIndices, ih]

theorem referWithin_iff :
    ReferWithin 0 bound nodes ↔ ∀ n ∈ nodes, ∀ i ∈ n.blockIndices, i < bound := by
  constructor
  · exact fun h n hn i hi => (h i (mem_allBlockIndices.2 ⟨n, hn, hi⟩)).2
  · intro h i hi
    obtain ⟨n, hn, hi⟩ := mem_allBlockIndices.1 hi
    exact ⟨Nat.zero_le i, h n hn i hi⟩

section Heights

variable {tops tops' : List Nat}

mutual

/-- The height of a node depends only on the blocks that it refers to. -/
theorem height_eq_of_indices : ∀ n : Node, (∀ i ∈ n.blockIndices, tops[i]? = tops'[i]?) →
    n.height tops = n.height tops'
  | .block index, h => congrArg (Option.getD · 0) (h index (List.mem_singleton.2 rfl))
  | .ruleset ⟨_, _, _, rules⟩, h | .media _ rules, h | .directive _ (some rules), h =>
    congrArg (· + 1) (heights_eq_of_indices rules h)
  | .declaration _, _ | .definition _, _ | .call _, _ | .inclusion _, _ | .comment _, _
  | .directive _ none, _ => rfl

theorem heights_eq_of_indices : ∀ nodes : List Node,
    (∀ i ∈ allBlockIndices nodes, tops[i]? = tops'[i]?) → heights tops nodes = heights tops' nodes
  | [], _ => rfl
  | n :: nodes, h => by
    rw [allBlockIndices, List.forall_mem_append] at h
    rw [heights, heights, height_eq_of_indices n h.1, heights_eq_of_indices nodes h.2]

end

end Heights

namespace Grounded

theorem getElem?_of_grows (hgrows : s.Grows t) {index : Nat} (h : index < s.blocks.length) :
    t.blocks[index]? = s.blocks[index]? := by
  obtain ⟨more, hmore⟩ := hgrows.blocks
  rw [← hmore, List.getElem?_append_left h]

theorem later (h : Grounded bound s nodes) (hgrows : s.Grows t) : Grounded bound t nodes where
  bound_le := Nat.le_trans h.bound_le hgrows.length_le
  refer := h.refer
  layered index b hindex hb := by
    rw [getElem?_of_grows hgrows (Nat.lt_of_lt_of_le hindex h.bound_le)] at hb
    exact h.layered index b hindex hb

/-- What the store adds does not make such nodes higher. -/
theorem heights_eq (h : Grounded bound s nodes) (hgrows : s.Grows t) :
    t.heights nodes = s.heights nodes := by
  refine heights_eq_of_indices nodes fun i hi => ?_
  obtain ⟨added, hadded⟩ := hgrows.blockHeights
  have hi' : i < s.blockHeights.length := by
    rw [Store.length_blockHeights]
    exact Nat.lt_of_lt_of_le (h.refer i hi).2 h.bound_le
  rw [← hadded, List.getElem?_append_left hi']

theorem of_refer (h : Grounded bound s nodes) {more : List Node}
    (hrefer : ReferWithin 0 bound more) : Grounded bound s more :=
  ⟨h.bound_le, hrefer, h.layered⟩

theorem of_mem (h : Grounded bound s nodes) (hn : n ∈ nodes) : Grounded bound s [n] :=
  h.of_refer (referWithin_iff.2 (List.forall_mem_singleton.2 (referWithin_iff.1 h.refer n hn)))

/-- The rules of a block that such nodes refer to are such nodes again, and one lower. -/
theorem block {index : Nat} (h : Grounded bound s [.block index]) :
    ∃ b, s.blocks[index]? = some b ∧ Grounded bound s b.rules ∧
      height s.blockHeights (.block index) = s.heights b.rules + 1 := by
  have hindex : index < bound := (h.refer index (by simp [allBlockIndices, blockIndices])).2
  have hb := List.getElem?_eq_getElem (Nat.lt_of_lt_of_le hindex h.bound_le)
  have hrules := h.layered index _ hindex hb
  refine ⟨_, hb, h.of_refer fun i hi => ⟨Nat.zero_le i, ?_⟩, ?_⟩
  · exact Nat.lt_trans (hrules i hi).2 hindex
  · rw [height, Store.blockHeights_of_getElem? hb, Option.getD_some, Store.heights]
    refine congrArg (· + 1) (heights_eq_of_indices _ fun i hi => ?_)
    exact List.getElem?_take_of_lt (hrules i hi).2

end Grounded

end Node

section Runs

variable {α β : Type}

/-- Two computations run alike if their first steps do, and then their second ones. -/
theorem run_bind_eq_of_run_eq {x y : CompileM α} {f g : α → CompileM β} {s : Store}
    (hx : y.run.run s = x.run.run s)
    (hf : ∀ a t, x.run.run s = (.ok a, t) → (g a).run.run t = (f a).run.run t) :
    (y >>= g).run.run s = (x >>= f).run.run s := by
  cases hrun : x.run.run s with
  | mk result t =>
    rw [hrun] at hx
    cases result with
    | ok a => rw [run_bind_ok hrun, run_bind_ok hx, hf a t hrun]
    | error e => rw [run_bind_error hrun, run_bind_error hx]

end Runs

/-- Both compilers run alike on rulesets that need at most so many levels. -/
def Compiler.Agree (levels : Nat) (compile compile' : Compiler) : Prop :=
  ∀ bound sc r s, Node.Grounded bound s r.rules → RoomFor levels sc s r.rules →
    (compile' sc r).run.run s = (compile sc r).run.run s

section Nodes

variable {levels bound : Nat} {compile compile' : Compiler} {sc : Scope} {s t : Store}
  {rules : List Node}

/-- There is room later if there is room now. -/
theorem Node.Grounded.roomFor (h : Node.Grounded bound s rules) (hgrows : s.Grows t)
    (hroom : RoomFor levels sc s rules) : RoomFor levels sc t rules := by
  have hless := sc.unread_le_of_grows hgrows
  rw [RoomFor, h.heights_eq hgrows]
  exact Nat.le_trans (by omega) hroom

namespace Compiler.Agree

theorem compileBody (h : Compiler.Agree levels compile compile')
    (hrules : Node.Grounded bound s rules) (hroom : RoomFor levels sc s rules) :
    (compileBody compile' sc rules).run.run s = (compileBody compile sc rules).run.run s := by
  have hgrows := (KeepsBooks.build {} rules none s).grows
  exact run_bind_congr (h bound sc _ _ (hrules.later hgrows) (hrules.roomFor hgrows hroom))

theorem compileMedia (h : Compiler.Agree levels compile compile')
    (hrules : Node.Grounded bound s rules) (hroom : RoomFor levels sc s rules)
    (head : MediaHead) :
    (compileMedia compile' sc head rules).run.run s =
      (compileMedia compile sc head rules).run.run s :=
  run_bind_congr (h.compileBody hrules hroom)

/-- Nodes are compiled alike if nested rulesets are. -/
theorem node (h : Compiler.Agree levels compile compile') {n : Node}
    (hn : Node.Grounded bound s [n])
    (hroom : Node.height s.blockHeights n + sc.unread s ≤ levels) :
    (n.compileWith compile' sc).run.run s = (n.compileWith compile sc).run.run s := by
  have hrefer : ∀ {nodes : List Node}, Node.allBlockIndices nodes = n.blockIndices →
      Node.Grounded bound s nodes := by
    intro nodes hnodes
    refine hn.of_refer fun i hi => hn.refer i ?_
    rwa [Node.allBlockIndices, Node.allBlockIndices, List.append_nil, ← hnodes]
  cases n with
  | ruleset r =>
    obtain ⟨serial, source, header, rules⟩ := r
    exact run_bind_congr (h bound sc _ s (hrefer rfl) hroom)
  | media head rules => exact h.compileMedia (hrefer rfl) hroom head
  | block index =>
    obtain ⟨b, hb, hrules, hheight⟩ := hn.block
    have hget : (get : CompileM Store).run.run s = (.ok s, s) := rfl
    rw [Node.compileWith, Node.compileWith, run_bind_ok hget, run_bind_ok hget, hb]
    exact h.compileMedia hrules (by rwa [RoomFor, ← hheight]) b.head
  | directive head rules =>
    cases rules with
    | none => rfl
    | some rules => exact run_bind_congr (h.compileBody (hrefer rfl) hroom)
  | _ => rfl

end Compiler.Agree

end Nodes

section Rulesets

variable {levels bound : Nat} {sc : Scope} {s : Store} {selectors : List Selector}
  {inside : Ruleset → Scope} {expand : Expander} {compile compile' : NodeCompiler}

/-- The slots of a ruleset are compiled alike if the nodes in them are, from then on. -/
theorem run_compileSlots_eq {slots : List Slot} (hgrows : ∀ sc n, GrowsStore (compile sc n))
    (h : ∀ frame n t, .own n ∈ slots → s.Grows t →
      (compile' (inside frame) n).run.run t = (compile (inside frame) n).run.run t)
    (frame : Ruleset) (done : List Node) :
    (compileSlots compile' inside frame done slots).run.run s =
      (compileSlots compile inside frame done slots).run.run s := by
  induction slots generalizing frame done s with
  | nil => rfl
  | cons slot slots ih =>
    have hrest : ∀ frame n t, .own n ∈ slots → s.Grows t →
        (compile' (inside frame) n).run.run t = (compile (inside frame) n).run.run t :=
      fun frame n t hn => h frame n t (List.mem_cons_of_mem _ hn)
    cases slot with
    | expanded n => exact ih hrest frame _
    | own n =>
      by_cases hdefinition : ∃ d, n = .definition d
      · obtain ⟨d, rfl⟩ := hdefinition
        exact ih hrest frame _
      · have hother : ∀ d, n ≠ .definition d := fun d hd => hdefinition ⟨d, hd⟩
        rw [compileSlots_own hother, compileSlots_own hother]
        refine run_bind_eq_of_run_eq (h frame n s List.mem_cons_self (.refl s)) ?_
        intro compiled t hrun
        have hst := (hgrows (inside frame) n s).of_ok hrun
        have hlater : ∀ u, t.Grows u → ∀ frame n v, .own n ∈ slots → u.Grows v →
            (compile' (inside frame) n).run.run v = (compile (inside frame) n).run.run v :=
          fun u htu frame n v hn huv => hrest frame n v hn ((hst.trans htu).trans huv)
        cases compiled with
        | ruleset r =>
          rw [run_bind_lift, run_bind_lift]
          exact ih (hlater _ (KeepsBooks.build _ _ _ t).grows) _ _
        | _ => exact ih (hlater t (.refl t)) frame _

theorem run_finish_eq {w : Unrolled} (hgrows : ∀ sc n, GrowsStore (compile sc n))
    (h : ∀ frame n t, .own n ∈ w.slots → s.Grows t →
      (compile' (sc.enter frame w.selectors) n).run.run t =
        (compile (sc.enter frame w.selectors) n).run.run t) :
    (w.finish compile' sc).run.run s = (w.finish compile sc).run.run s :=
  run_bind_congr (run_compileSlots_eq hgrows h w.frame [])

end Rulesets

/-- The store grows over runs that let it grow. -/
theorem Store.Passes.grows {s t : Store} {runs : List (Store × Store)} (h : s.Passes runs t)
    (hruns : ∀ run ∈ runs, run.1.Grows run.2) : s.Grows t := by
  induction h with
  | nil hquiet => exact hquiet.grows
  | cons hquiet _ ih =>
    obtain ⟨hrun, hrest⟩ := List.forall_mem_cons.1 hruns
    exact hquiet.grows.trans (hrun.trans (ih hrest))

theorem Node.referWithin_captureFrames {bound : Nat} (frames : List Ruleset) {nodes : List Node}
    (h : Node.ReferWithin 0 bound nodes) :
    Node.ReferWithin 0 bound (captureFrames frames nodes) := by
  rw [Node.referWithin_iff] at h ⊢
  intro n hn
  obtain ⟨m, hm, rfl⟩ := List.mem_map.1 hn
  split
  · simp [Node.blockIndices]
  · exact h m hm

section Unrolling

variable {levels bound : Nat} {sc : Scope} {s t : Store} {expand : Expander} {r : Ruleset}
  {turns : List Turn} {w : Unrolled}

/-- While the calls of a ruleset are expanded, the store grows. -/
theorem Unrolls.grows {inside : Ruleset → Scope} {shown nodes : List Node}
    (hexpand : ∀ sc call args c, GrowsStore (expand sc call args c))
    (h : Unrolls expand inside shown nodes turns) :
    ∀ run ∈ turns.flatMap Turn.runs, run.1.Grows run.2 := by
  intro run hrun
  obtain ⟨turn, hturn, hrun⟩ := List.mem_flatMap.1 hrun
  cases turn with
  | own node => cases hrun
  | expanded e =>
    obtain rfl := List.mem_singleton.1 hrun
    exact (GrowsStore.call hexpand _ e.call e.start).of_ok (h.returned e hturn)

/-- A node that waits is one of the ruleset itself. -/
theorem Unrolls.mem_of_own {inside : Ruleset → Scope} {shown nodes : List Node} {n : Node}
    (h : Unrolls expand inside shown nodes turns) (hn : .own n ∈ turns.flatMap Turn.slots) :
    n ∈ nodes := by
  obtain ⟨turn, hturn, hn⟩ := List.mem_flatMap.1 hn
  rw [← h.sources]
  cases turn with
  | own node =>
    cases List.mem_singleton.1 hn
    exact List.mem_map.2 ⟨_, hturn, rfl⟩
  | expanded e =>
    obtain ⟨m, -, hm⟩ := List.mem_map.1 hn
    cases hm

/-- Once the calls are expanded, there are enough levels for each node that waits. -/
theorem Unrolled.Records.room (h : w.Records expand sc r s turns t)
    (hexpand : ∀ sc call args c, GrowsStore (expand sc call args c))
    (hr : Node.Grounded bound s r.rules) (hroom : RoomFor (levels + 1) sc s r.rules) {n : Node}
    (hn : .own n ∈ w.slots) :
    Node.Grounded bound t [n] ∧ Node.height t.blockHeights n + sc.unread t ≤ levels := by
  obtain ⟨u, hhome, hpasses, -⟩ := h.home
  have himports : sc.Imports fun n => ∀ i ∈ n.blockIndices, i < bound := by
    refine ⟨fun i => by simp [Node.blockIndices], fun table _ entry _ next => ?_⟩
    refine Node.referWithin_iff.1 fun i hi => ?_
    rw [Node.allBlockIndices_ofRules] at hi
    cases hi
  have hquiet := s.quiet_record (.compiling w.selectors r.rules.length)
  obtain ⟨-, hput⟩ := (ensures_homeFrame himports (Node.referWithin_iff.1 hr.refer) w.selectors
    _).of_ok hhome
  have hput' := hput.between hquiet.loads (.refl u)
  have hmem := h.unrolls.mem_of_own (h.slots ▸ hn)
  have hnodes : Node.Grounded bound u (captureFrames (w.home :: sc.frames) w.home.rules) :=
    (hr.later hput'.loads.grows).of_refer
      (Node.referWithin_captureFrames _ (Node.referWithin_iff.2 hput.good))
  have hgrows : u.Grows t := hpasses.grows (h.unrolls.grows hexpand)
  refine ⟨(hnodes.of_mem hmem).later hgrows, ?_⟩
  have hheight : Node.height t.blockHeights n ≤ u.heights w.home.rules := by
    have hcaptured : u.heights (captureFrames (w.home :: sc.frames) w.home.rules) =
        u.heights w.home.rules := heights_captureFrames _ _ _
    rw [← hcaptured, ← hnodes.heights_eq hgrows]
    exact Node.height_le_heights hmem
  have hless := sc.unread_le_of_grows hgrows
  have hputRoom := hput'.room
  have hsame := hquiet.loads.heights_eq r.rules
  have hgiven : s.heights r.rules + 1 + sc.unread s ≤ levels + 1 := hroom
  omega

/-- One level of nesting is used up by the ruleset itself. -/
theorem run_compileWith_eq {compile compile' : Compiler}
    (hexpand : ∀ sc call args c, GrowsStore (expand sc call args c))
    (hgrows : ∀ sc r, GrowsStore (compile sc r))
    (hcompile : Compiler.Agree levels compile compile')
    (hr : Node.Grounded bound s r.rules) (hroom : RoomFor (levels + 1) sc s r.rules) :
    (Ruleset.compileWith expand compile' sc r).run.run s =
      (Ruleset.compileWith expand compile sc r).run.run s := by
  rw [Ruleset.compileWith_eq_unroll, Ruleset.compileWith_eq_unroll]
  refine run_bind_eq_of_run_eq rfl fun w t hrun => ?_
  obtain ⟨turns, hrecords⟩ := (ensures_unroll expand sc r s).of_ok hrun
  refine run_finish_eq (GrowsStore.node hgrows) fun frame n u hn htu => ?_
  obtain ⟨hgrounded, hheight⟩ := hrecords.room hexpand hr hroom hn
  have hsame : Node.height u.blockHeights n = Node.height t.blockHeights n := by
    simpa [Store.heights, Node.heights] using hgrounded.heights_eq htu
  have hless := sc.unread_le_of_grows htu
  have hroom' : Node.height u.blockHeights n + sc.unread u ≤ levels := by omega
  exact hcompile.node (hgrounded.later htu) hroom'

end Unrolling

section Knot

variable {bound : Nat} {expand : Expander} {sc : Scope} {r : Ruleset} {s : Store}

/-- Two numbers of levels make no difference where both are enough. -/
theorem agree_nested (hexpand : ∀ sc call args c, GrowsStore (expand sc call args c))
    {levels k m : Nat} (hk : levels ≤ k) (hm : levels ≤ m) :
    Compiler.Agree levels (expand.nested k) (expand.nested m) := by
  induction levels generalizing k m with
  | zero =>
    intro bound sc r s _ hroom
    exact absurd hroom (by rw [RoomFor]; omega)
  | succ levels ih =>
    obtain ⟨k, rfl⟩ : ∃ j, k = j + 1 := ⟨k - 1, by omega⟩
    obtain ⟨m, rfl⟩ : ∃ j, m = j + 1 := ⟨m - 1, by omega⟩
    intro bound sc r s hr hroom
    exact run_compileWith_eq hexpand (GrowsStore.nested hexpand k)
      (ih (Nat.le_of_succ_le_succ hk) (Nat.le_of_succ_le_succ hm)) hr hroom

/-- The compiler that counts the levels anew agrees with one that has enough of them. -/
theorem agree_compiler (hexpand : ∀ sc call args c, GrowsStore (expand sc call args c))
    (levels : Nat) : Compiler.Agree levels (expand.nested levels) expand.compiler := by
  intro bound sc r s hr hroom
  exact agree_nested hexpand hroom (sc.heights_add_unread_le_levels s r.rules) bound sc r s hr
    (Nat.le_refl _)

/-- A ruleset is compiled with the compiler itself for what is nested in it. -/
theorem run_compile_eq (hr : Node.Grounded bound s r.rules) :
    (r.compile sc).run.run s = (do
      let w ← r.unroll sc.expander sc
      w.finish Node.compile sc : CompileM Ruleset).run.run s := by
  have hexpand : ∀ sc' call args c, GrowsStore (sc.expander sc' call args c) :=
    GrowsStore.upTo sc.budget
  obtain ⟨levels, hlevels⟩ : ∃ levels, sc.levels s r.rules = levels + 1 :=
    ⟨s.heights r.rules + (sc.sources.map Sources.height).getD 0, by rw [Scope.levels]; omega⟩
  have hroom : RoomFor (levels + 1) sc s r.rules :=
    hlevels ▸ sc.heights_add_unread_le_levels s r.rules
  have hnested := run_compileWith_eq hexpand (GrowsStore.nested hexpand levels)
    (agree_compiler hexpand levels) hr hroom
  change (sc.expander.nested (sc.levels s r.rules) sc r).run.run s = _
  rw [hlevels, Expander.nested, ← hnested, Ruleset.compileWith_eq_unroll]
  refine run_bind_eq_of_run_eq rfl fun w t _ => ?_
  have hsame : ∀ frame n, Node.compile (sc.enter frame w.selectors) n =
      n.compileWith sc.expander.compiler (sc.enter frame w.selectors) := fun _ _ => rfl
  exact (run_finish_eq (GrowsStore.node (GrowsStore.compiler hexpand))
    fun frame n u _ _ => by rw [hsame]).symm

end Knot

end Stylesheet
