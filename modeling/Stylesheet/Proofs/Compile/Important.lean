import Stylesheet.Proofs.Compile.Levels
import Stylesheet.Proofs.Compile.NormalForm
import Stylesheet.Proofs.Compile.Resumed
import Stylesheet.Proofs.Node.Layers

/-!
# Important calls

A mixin call that is important gives the same as the call without the mark, with every declaration
marked. What a candidate expands to is marked once it is done, and the next candidate is
expanded from a store in which numbers were used up and the blocks that were added are marked. It
does not lead to any of these, since it stands in rules that are older than the call. So the
candidates are expanded in lockstep, one after the other, with and without the mark.
-/

namespace Stylesheet

namespace Node

variable {tops : List Nat}

mutual

theorem height_markImportant : ∀ n : Node, n.markImportant.height tops = n.height tops
  | .ruleset ⟨_, _, _, rules⟩ | .media _ rules | .directive _ (some rules) =>
    congrArg (· + 1) (heights_markAllImportant rules)
  | .declaration _ | .definition _ | .call _ | .inclusion _ | .comment _ | .block _
  | .directive _ none => rfl

/-- Marking leaves nodes as high as they were. -/
theorem heights_markAllImportant : ∀ nodes : List Node,
    heights tops (markAllImportant nodes) = heights tops nodes
  | [] => rfl
  | n :: nodes => by
    rw [markAllImportant, heights, heights, height_markImportant n, heights_markAllImportant nodes]

end

mutual

theorem height_renew : ∀ (n : Node) (next : Nat),
    ((renew n).run next).1.height tops = n.height tops
  | .ruleset ⟨_, _, _, rules⟩, next => congrArg (· + 1) (heights_renewAll rules (next + 1))
  | .media _ rules, next | .directive _ (some rules), next =>
    congrArg (· + 1) (heights_renewAll rules next)
  | .declaration _, _ | .definition _, _ | .call _, _ | .inclusion _, _ | .comment _, _
  | .block _, _ | .directive _ none, _ => rfl

/-- New numbers leave nodes as high as they were. -/
theorem heights_renewAll : ∀ (nodes : List Node) (next : Nat),
    heights tops ((renewAll nodes).run next).1 = heights tops nodes
  | [], _ => rfl
  | n :: nodes, next => by
    change max (height tops ((renew n).run next).1)
      (heights tops ((renewAll nodes).run ((renew n).run next).2).1) = _
    rw [height_renew n, heights_renewAll nodes, heights]

end

/-- A node in normal form refers only to blocks with the property. -/
theorem Normal.of_mem_blockIndices {lenient : Prop} {block : Nat → Prop} {n : Node}
    (h : n.Normal lenient block) : ∀ index ∈ n.blockIndices, block index := by
  induction h with
  | @ruleset r _ _ ih =>
    obtain ⟨serial, source, header, rules⟩ := r
    intro index hindex
    obtain ⟨m, hm, hmem⟩ := mem_allBlockIndices.1 hindex
    exact ih m hm index hmem
  | media _ ih =>
    intro index hindex
    obtain ⟨m, hm, hmem⟩ := mem_allBlockIndices.1 hindex
    exact ih m hm index hmem
  | @directive head rules _ ih =>
    intro index hindex
    cases rules with
    | none => cases hindex
    | some rules =>
      obtain ⟨m, hm, hmem⟩ := mem_allBlockIndices.1 hindex
      exact ih rules rfl m hm index hmem
  | block h =>
    intro index hindex
    exact List.mem_singleton.1 hindex ▸ h
  | _ => exact fun index hindex => by cases hindex

end Node

section Marking

variable {first : Nat} {s : Store}

/-- Marking marks what the blocks read as from the given one on, if these refer to no others. What
no block has is not changed by a mark. -/
theorem readBlocks_markImportant (nodes : List Node)
    (hblocks : ∀ index b, first ≤ index → s.blocks[index]? = some b →
      ∀ i ∈ Node.allBlockIndices b.rules, first ≤ i) {index : Nat} (hindex : first ≤ index) :
    readBlocks ((markImportant first nodes).run s).2.blocks index =
      (readBlocks s.blocks index).markImportant := by
  have hreworks := reworks_markImportant first nodes s
  induction index using Nat.strongRecOn with
  | ind index ih =>
    cases hb : s.blocks[index]? with
    | none =>
      have hle := List.getElem?_eq_none_iff.1 hb
      rw [readBlocks_of_le hle, readBlocks_of_le (hreworks.length_eq ▸ hle)]
      rfl
    | some b =>
      obtain ⟨b', hb', next, -, rfl⟩ := hreworks.getElem?_of_le hindex hb
      rw [readBlocks_of_getElem? hb, readBlocks_of_getElem? hb', Rule.markImportant]
      refine congrArg (Rule.media b.head)
        (Node.readAll_markAllImportant_renewAll next fun i hi => ?_)
      by_cases hlt : i < index
      · rw [lookBelow_of_lt _ hlt, lookBelow_of_lt _ hlt, ih i hlt (hblocks index b hindex hb i hi)]
      · rw [lookBelow_of_le _ (Nat.not_lt.1 hlt), lookBelow_of_le _ (Nat.not_lt.1 hlt)]
        rfl

theorem levels_markImportant (nodes : List Node) :
    List.Forall₂ Block.Levels ((markImportant first nodes).run s).2.blocks s.blocks := by
  obtain ⟨new, hnew, hrel⟩ := (reworks_markImportant first nodes s).blocks
  rw [hnew]
  conv => rhs; rw [← List.take_append_drop first s.blocks]
  refine List.rel_append (List.forall₂_same.2 fun _ _ _ => rfl) (hrel.flip.imp ?_)
  rintro _ b ⟨next, -, rfl⟩ tops
  rw [Node.heights_markAllImportant, Node.heights_renewAll]

end Marking

section Expansion

variable {compile : Compiler} {sc : Scope} {call : MixinCall} {args : List Value} {c : Candidate}
  {s t : Store} {nodes : List Node} {budget : Nat}

/-- The blocks that an expansion adds come after those that there are when it starts. -/
theorem ensures_body_first (compile : Compiler) (sc : Scope) (call : MixinCall)
    (args : List Value) (c : Candidate) (s : Store) :
    Ensures (Expander.body compile sc call args c) s (fun result _ => result.1 = s.blocks.length)
      fun _ _ => True := by
  unfold Expander.body
  refine ensures_bind.2 (ensures_lift.2 (ensures_bind.2 (ensures_ofExcept.2 ⟨fun bindings _ => ?_,
    fun _ _ => trivial⟩)))
  refine ensures_bind.2 (ensures_lift.2 (ensures_bind.2 (ensures_lift.2 (ensures_bind.2
    (ensures_get.2 (ensures_bind.2 (ensures_of_forall (fun compiled _ => ?_)
      fun _ _ => trivial)))))))
  rfl

/-- An important call marks what the call without the mark expands to. -/
theorem run_upTo_important_of_ok
    (h : (Expander.upTo budget sc { call with important := false } args c).run.run s =
      (.ok nodes, t)) :
    (Expander.upTo budget sc { call with important := true } args c).run.run s =
      (.ok ((markImportant s.blocks.length nodes).run t).1,
        ((markImportant s.blocks.length nodes).run t).2) := by
  cases budget with
  | zero => cases h
  | succ budget =>
    rw [Expander.upTo, Expander.ofCompiler_eq] at h ⊢
    have hfirst := ensures_body_first (Expander.upTo budget).compiler sc
      { call with important := false } args c s
    cases hbody : (Expander.body (Expander.upTo budget).compiler sc
        { call with important := false } args c).run.run s with
    | mk result u =>
      cases result with
      | error e =>
        rw [run_bind_error hbody] at h
        cases h
      | ok result =>
        obtain ⟨first, nodes'⟩ := result
        obtain rfl : first = s.blocks.length := hfirst.of_ok hbody
        rw [run_bind_ok hbody] at h
        cases h
        exact run_bind_ok hbody

theorem run_upTo_important_of_error {e : Error}
    (h : (Expander.upTo budget sc { call with important := false } args c).run.run s =
      (.error e, t)) :
    (Expander.upTo budget sc { call with important := true } args c).run.run s = (.error e, t) := by
  cases budget with
  | zero => exact h
  | succ budget =>
    rw [Expander.upTo, Expander.ofCompiler_eq] at h ⊢
    cases hbody : (Expander.body (Expander.upTo budget).compiler sc
        { call with important := false } args c).run.run s with
    | mk result u =>
      cases result with
      | error e' =>
        rw [run_bind_error hbody] at h
        cases h
        exact run_bind_error hbody
      | ok result =>
        rw [run_bind_ok hbody] at h
        cases h

/-- What a candidate expands to refers only to blocks that the expansion adds, and so do these. -/
theorem refer_of_run_upTo (h : (Expander.upTo budget sc call args c).run.run s = (.ok nodes, t)) :
    (∀ i ∈ Node.allBlockIndices nodes, s.blocks.length ≤ i) ∧
      ∀ index b, s.blocks.length ≤ index → t.blocks[index]? = some b →
        ∀ i ∈ Node.allBlockIndices b.rules, s.blocks.length ≤ i := by
  let start : Start := ⟨False, ⟨fun _ => True, fun _ => True⟩, s.blocks.length⟩
  have hs : s.Tidy start := by
    refine ⟨Nat.le_refl _, fun index b hindex hb => ?_, False.elim⟩
    rw [List.getElem?_eq_none hindex] at hb
    cases hb
  obtain ⟨hnodes, ht⟩ :=
    (tidies_upTo budget sc call args c False.elim False.elim s hs).of_ok h
  refine ⟨fun i hi => ?_, fun index b hindex hb i hi => ?_⟩
  · obtain ⟨n, hn, hmem⟩ := Node.mem_allBlockIndices.1 hi
    exact (hnodes n hn).normal.of_mem_blockIndices i hmem
  · obtain ⟨n, hn, hmem⟩ := Node.mem_allBlockIndices.1 hi
    exact (ht.blocks index b hindex hb n hn).of_mem_blockIndices i hmem

end Expansion

section Stores

variable {start : Extent} {u t : Store}

/-- The first store is like the second one, except that more numbers may be used up, and that the
blocks that were added since the start are marked as important. -/
structure Store.Marks (start : Extent) (u t : Store) : Prop where
  left : u.Since start
  right : t.Since start
  nextSerial : t.nextSerial ≤ u.nextSerial
  levels : List.Forall₂ Block.Levels u.blocks t.blocks
  old : ∀ index, index < start.blocks → u.blocks[index]? = t.blocks[index]?
  within : ∀ index b, index < start.blocks → t.blocks[index]? = some b →
    ∀ n ∈ b.rules, n.Within start
  imported : t.imported = u.imported
  memo : ∀ serial key, serial < start.rulesets →
    u.remembered? serial key = t.remembered? serial key
  marked : ∀ index, start.blocks ≤ index →
    readBlocks u.blocks index = (readBlocks t.blocks index).markImportant

theorem Store.Marks.length_eq (h : u.Marks start t) : u.blocks.length = t.blocks.length :=
  h.levels.length_eq

/-- A compilation cannot tell the stores apart if it leads only to what is as old as the start. -/
theorem Store.Marks.trimsTo (h : u.Marks start t) (limit : Nat) :
    u.TrimsTo (.resuming start t.extent (u.nextSerial - t.nextSerial) limit) t where
  next := by
    intro k
    have hpast : t.extent.rulesets ≤ t.nextSerial + k := Nat.le_add_right _ _
    have hle := h.nextSerial
    rw [Comparison.number_resuming_of_le hpast]
    omega
  meets := fun serial hserial => .inr hserial
  shows := by
    rintro index hindex ⟨-, hlt⟩
    rw [h.length_eq] at hindex
    exact Nat.not_lt.2 hindex hlt
  levels := h.levels
  blocks := by
    intro index hindex
    by_cases hold : index < start.blocks
    · rw [h.old index hold]
      cases hb : t.blocks[index]? with
      | none => exact .none
      | some b =>
        refine .some ⟨rfl, Aligned.of_forall fun n hn => ?_⟩
        exact (h.within index b hold hb n hn).trimsTo _ _ h.right.le
    · have hle : t.blocks.length ≤ index :=
        Nat.not_lt.1 fun hlt => hindex ⟨Nat.not_lt.1 hold, hlt⟩
      rw [List.getElem?_eq_none hle, List.getElem?_eq_none (h.length_eq ▸ hle)]
      exact .none
  imported := h.imported
  memo := by
    rintro serial key (hlt | hle)
    · rw [Comparison.number_resuming_of_lt h.right.le hlt, h.memo serial key hlt]
      cases hfound : t.remembered? serial key with
      | none => exact .none
      | some found =>
        refine .some (List.forall₂_same.2 fun c hc => ?_)
        exact (h.right.old serial key found hfound hlt c hc).trimsTo _ _ h.right.le
    · -- the numbers past both stores are free, so there are no answers for them
      have hle' : t.nextSerial ≤ serial := hle
      have hright : t.remembered? serial key = none :=
        Option.eq_none_iff_forall_not_mem.2 fun found hfound =>
          Nat.not_lt.2 hle' (h.right.serial serial key found hfound)
      have hleft : u.remembered? (serial + (u.nextSerial - t.nextSerial)) key = none :=
        Option.eq_none_iff_forall_not_mem.2 fun found hfound => by
          have hlt := h.left.serial _ key found hfound
          omega
      rw [Comparison.number_resuming_of_le hle, hright, hleft]
      exact .none

/-- Where the blocks added since the start are marked, the nodes read as the others marked. -/
def Node.ReadMarked (first : Nat) (nodes plain : List Node) : Prop :=
  ∀ look look' : Nat → Rule, (∀ index, first ≤ index → look' index = (look index).markImportant) →
    Node.readAll look' nodes = Rule.markAllImportant (Node.readAll look plain)

theorem Node.ReadMarked.append {first : Nat} {l l' m m' : List Node}
    (h : Node.ReadMarked first l l') (h' : Node.ReadMarked first m m') :
    Node.ReadMarked first (l ++ m) (l' ++ m') := by
  intro look look' hlook
  have hl := h look look' hlook
  have hm := h' look look' hlook
  simp only [Node.readAll_eq_map, Rule.markAllImportant_eq_map, List.map_append] at hl hm ⊢
  rw [hl, hm]

variable {sc : Scope} {c : Candidate} {budget : Nat} {u' t' : Store} {nodes : List Node}

theorem Block.Levels.trans {b c d : Block} (h : b.Levels c) (h' : c.Levels d) : b.Levels d :=
  fun tops => (h' tops).trans (h tops)

theorem forall₂_trans {α : Type} {R : α → α → Prop} {l m n : List α} (h : List.Forall₂ R l m)
    (h' : List.Forall₂ R m n) (hR : ∀ a b c, R a b → R b c → R a c) : List.Forall₂ R l n := by
  induction h generalizing n with
  | nil => exact h'
  | cons h _ ih =>
    cases h' with
    | cons h' hrest => exact .cons (hR _ _ _ h h') (ih hrest)

/-- Both stores have grown alike, and what the first one has gained is marked. -/
theorem Store.Marks.mark (h : u.Marks start t) {limit : Nat} (hu : u.Grows u') (ht : t.Grows t')
    (hu' : u'.Since start) (ht' : t'.Since start) (hle : t.nextSerial ≤ t'.nextSerial)
    (hst : u'.TrimsTo (.resuming start t.extent (u.nextSerial - t.nextSerial) limit) t')
    (hnodes : ∀ n ∈ nodes, n.Since start u'.extent)
    (hrefer : ∀ index b, u.blocks.length ≤ index → u'.blocks[index]? = some b →
      ∀ i ∈ Node.allBlockIndices b.rules, u.blocks.length ≤ i) :
    ((markImportant u.blocks.length nodes).run u').2.Marks start t' := by
  have hreworks := reworks_markImportant u.blocks.length nodes u'
  have hgrows := hu.reworks (Nat.le_refl _) hreworks
  have hstart : start ≤ t.extent := h.right.le
  have hlt : ∀ {index}, index < start.blocks → index < t.blocks.length :=
    fun hindex => Nat.lt_of_lt_of_le hindex hstart.2
  exact
    { left := (StepsSince.markImportant _ hnodes u' hu' (le_refl _)).1
      right := ht'
      nextSerial := by
        have hnext : _ = u'.nextSerial := hst.next 0
        rw [Nat.add_zero, Comparison.number_resuming_of_le hle] at hnext
        exact Nat.le_trans (by omega) hreworks.nextSerial
      levels := forall₂_trans (levels_markImportant nodes) hst.levels fun _ _ _ =>
        Block.Levels.trans
      old := by
        intro index hindex
        rw [hgrows.getElem? (h.length_eq ▸ hlt hindex), h.old index hindex,
          ht.getElem? (hlt hindex)]
      within := by
        intro index b hindex hb
        rw [ht.getElem? (hlt hindex)] at hb
        exact h.within index b hindex hb
      imported := by rw [hst.imported, hreworks.imported]
      memo := by
        intro serial key hserial
        rw [← hst.remembered?_eq hstart ht' hserial, Store.remembered?, hreworks.memo,
          Store.remembered?]
      marked := by
        intro index hindex
        by_cases hnew : index < u.blocks.length
        · rw [readBlocks_of_extends hgrows.blocks hnew, h.marked index hindex,
            readBlocks_of_extends ht.blocks (h.length_eq ▸ hnew)]
        · rw [readBlocks_markImportant nodes hrefer (Nat.not_lt.1 hnew),
            hst.readBlocks_eq not_false fun hhides => hnew (h.length_eq ▸ hhides.2)] }

/-- From stores of which the first one is marked since the start, the computations fail with one
error, or lead to such stores and to nodes that read as marked. -/
def RunsMarked (start : Extent) (x y : CompileM (List Node)) : Prop :=
  ∀ u t : Store, u.Marks start t →
    (∃ e u' t', x.run.run u = (.error e, u') ∧ y.run.run t = (.error e, t')) ∨
    ∃ nodes u' plain t', x.run.run u = (.ok nodes, u') ∧ y.run.run t = (.ok plain, t') ∧
      u'.Marks start t' ∧ Node.ReadMarked start.blocks nodes plain

/-- One step: a candidate as old as the start is expanded with and without the mark. -/
theorem runsMarked_upTo (call : MixinCall) (args : List Value)
    (hsc : ∀ frame ∈ sc.frames, (Node.ruleset frame).Within start) (hc : c.node.Within start) :
    RunsMarked start (Expander.upTo budget sc { call with important := true } args c)
      (Expander.upTo budget sc { call with important := false } args c) := by
  intro u t h
  have hle : start ≤ t.extent := h.right.le
  have hscope := Scope.trimsTo_resuming hle hsc (u.nextSerial - t.nextSerial)
  have hsince : ∀ e : Extent, start ≤ e → sc.Since start e :=
    fun e hle frame hframe => (hsc frame hframe).since hle
  rcases runs_upTo (Nat.le_refl budget) (fun _ => rfl) sc sc { call with important := false } args c
      c hscope (hc.trimsTo _ _ hle) u t (h.trimsTo _) with
    ⟨nodes, u', plain, t', hu, ht, hst, hnodes⟩ | ⟨e, u', t', hu, ht⟩ | ⟨hlt, -⟩
  · obtain ⟨hu', -, hnodes'⟩ := (runs_upTo_since start budget u.extent sc _ args c
      (hsince _ h.left.le) (hc.since h.left.le) u h.left (le_refl _)).of_ok hu
    obtain ⟨ht', hle', -⟩ := (runs_upTo_since start budget t.extent sc _ args c
      (hsince _ hle) (hc.since hle) t h.right (le_refl _)).of_ok ht
    obtain ⟨hrefer, hrefer'⟩ := refer_of_run_upTo hu
    refine .inr ⟨_, _, plain, t', run_upTo_important_of_ok hu, ht, ?_, ?_⟩
    · exact h.mark ((GrowsStore.upTo budget sc _ args c u).of_ok hu)
        ((GrowsStore.upTo budget sc _ args c t).of_ok ht) hu' ht' hle'.1 hst hnodes' hrefer'
    · intro look look' hlook
      rw [run_markImportant, Node.readAll_markAllImportant_renewAll _ fun i hi =>
        hlook i (Nat.le_trans h.left.le.2 (hrefer i hi)),
        hnodes.readAll_eq not_false fun _ _ => rfl]
  · exact .inl ⟨e, u', t', run_upTo_important_of_error hu, ht⟩
  -- the limits are the same, so neither side stops before the other
  · exact absurd hlt (Nat.lt_irrefl _)

/-- The whole run: candidates are expanded one after the other. -/
theorem RunsMarked.expandAll {f g : Candidate → CompileM (List Node)} {candidates : List Candidate}
    (h : ∀ c ∈ candidates, RunsMarked start (f c) (g c)) :
    RunsMarked start (Stylesheet.expandAll f candidates) (Stylesheet.expandAll g candidates) := by
  induction candidates with
  | nil => exact fun u t h => .inr ⟨[], u, [], t, rfl, rfl, h, fun _ _ _ => rfl⟩
  | cons c candidates ih =>
    intro u t hmarks
    obtain ⟨hc, hrest⟩ := List.forall_mem_cons.1 h
    rcases hc u t hmarks with
      ⟨e, u', t', hu, ht⟩ | ⟨nodes, u', plain, t', hu, ht, hmarks', hread⟩
    · exact .inl ⟨e, u', t', run_bind_error hu, run_bind_error ht⟩
    rcases ih hrest u' t' hmarks' with
      ⟨e, u'', t'', hu', ht'⟩ | ⟨more, u'', plainMore, t'', hu', ht', hmarks'', hread'⟩
    · exact .inl ⟨e, u'', t'', (run_bind_ok hu).trans (run_bind_error hu'),
        (run_bind_ok ht).trans (run_bind_error ht')⟩
    · exact .inr ⟨nodes ++ more, u'', plain ++ plainMore, t'',
        (run_bind_ok hu).trans (run_bind_ok hu'), (run_bind_ok ht).trans (run_bind_ok ht'),
        hmarks'', hread.append hread'⟩

theorem Store.Marks.record (h : u.Marks start t) (e e' : Event) :
    (u.record e).Marks start (t.record e') where
  left := h.left.quiet (u.quiet_record e)
  right := h.right.quiet (t.quiet_record e')
  nextSerial := h.nextSerial
  levels := h.levels
  old := h.old
  within := h.within
  imported := h.imported
  memo := h.memo
  marked := h.marked

theorem RunsMarked.throw (e : Error) :
    RunsMarked start (MonadExcept.throw e) (MonadExcept.throw e) :=
  fun u t _ => .inl ⟨e, u, t, rfl, rfl⟩

theorem RunsMarked.bind_record {x y : CompileM (List Node)} (h : RunsMarked start x y)
    (event : List Node → Event) :
    RunsMarked start (x >>= fun nodes => do Stylesheet.record (event nodes); return nodes)
      (y >>= fun nodes => do Stylesheet.record (event nodes); return nodes) := by
  intro u t hmarks
  rcases h u t hmarks with ⟨e, u', t', hu, ht⟩ | ⟨nodes, u', plain, t', hu, ht, hmarks', hread⟩
  · exact .inl ⟨e, u', t', run_bind_error hu, run_bind_error ht⟩
  · exact .inr ⟨nodes, _, plain, _, run_bind_ok hu, run_bind_ok ht, hmarks'.record _ _, hread⟩

end Stores

section Calls

variable {sc : Scope} {s : Store}

/-- A scope finds what is as old as the store it lives in, and then nothing is marked yet. -/
theorem Scope.LivesIn.mixin (h : sc.LivesIn s) (query : Selector) :
    ((sc.mixin query).run s).2.Marks s.extent ((sc.mixin query).run s).2 ∧
      ∀ candidates, ((sc.mixin query).run s).1 = some candidates →
        ∀ c ∈ candidates, c.node.Within s.extent := by
  obtain ⟨⟨hsince, -⟩, hfound⟩ :
      Store.SinceAt s.extent s.extent ((sc.mixin query).run s).2 ∧ _ :=
    (findKeeps_within s.extent s.extent).answers_frames
      (fun frame hframe => ⟨(h.frames frame hframe).own.serial, (h.frames frame hframe).rules⟩)
      ⟨h.since, rfl⟩
  have hlearns := learns_mixin sc query s
  refine ⟨⟨hsince, hsince, Nat.le_refl _, List.forall₂_same.2 fun _ _ _ => rfl, fun _ _ => rfl, ?_,
    rfl, fun _ _ _ => rfl, ?_⟩, hfound⟩
  · intro index b _ hb
    rw [hlearns.blocks] at hb
    exact h.blocks b (List.mem_of_getElem? hb)
  · intro index hindex
    rw [readBlocks_of_le (hlearns.blocks ▸ hindex)]
    rfl

/-- With and without the mark, a call is compiled alike, up to the marks. -/
theorem MixinCall.runs_important (h : sc.LivesIn s) (call : MixinCall) :
    (∃ e u t, ({ call with important := true }.compile sc).run.run s = (.error e, u) ∧
      ({ call with important := false }.compile sc).run.run s = (.error e, t)) ∨
    ∃ nodes u plain t, ({ call with important := true }.compile sc).run.run s = (.ok nodes, u) ∧
      ({ call with important := false }.compile sc).run.run s = (.ok plain, t) ∧
      u.Marks s.extent t ∧ Node.ReadMarked s.blocks.length nodes plain := by
  unfold MixinCall.compile MixinCall.compileWith
  cases hargs : call.args.mapM fun arg => sc.value arg call.span with
  | error e => exact .inl ⟨e, s, s, rfl, rfl⟩
  | ok args =>
    obtain ⟨hmarks, hwithin⟩ := h.mixin call.selector
    have hok : (ofExcept (.ok args) : CompileM (List Value)).run.run s = (.ok args, s) := rfl
    rw [run_bind_ok hok, run_bind_ok hok, run_bind_lift, run_bind_lift]
    refine (?_ : RunsMarked s.extent _ _) _ _ hmarks
    generalize ((sc.mixin call.selector).run s).1 = found at hwithin ⊢
    cases found with
    | none => exact .throw _
    | some candidates =>
      dsimp only
      split
      · exact .throw _
      · refine RunsMarked.bind_record (.expandAll fun c hc => ?_) _
        exact runsMarked_upTo call args h.frames
          (hwithin candidates rfl c (List.mem_of_mem_filter hc))

/-- The blocks that were added are written out as those of the other store, marked. -/
theorem Store.Marks.contents {start : Extent} {u t : Store} (h : u.Marks start t) :
    Node.toRules (u.contents.drop start.blocks) =
      Rule.markAllImportant (Node.toRules (t.contents.drop start.blocks)) := by
  have hlength : u.contents.length = t.contents.length := by
    have hu : u.contents.length = u.blocks.length := length_contents u.blocks
    have ht : t.contents.length = t.blocks.length := length_contents t.blocks
    rw [hu, ht, h.length_eq]
  rw [Node.toRules_eq_map, Node.toRules_eq_map, Rule.markAllImportant_eq_map, List.map_map]
  refine List.ext_getElem (by simp [hlength]) fun index hu ht => ?_
  have hmarked := h.marked (start.blocks + index) (Nat.le_add_right _ _)
  simp only [List.length_map, List.length_drop] at hu ht
  have hread : ∀ s : Store, ∀ hs : start.blocks + index < s.contents.length,
      readBlocks s.blocks (start.blocks + index) = s.contents[start.blocks + index].toRule := by
    intro s hs
    have hget : (Store.contents { blocks := s.blocks })[start.blocks + index]? =
        some s.contents[start.blocks + index] := List.getElem?_eq_getElem hs
    rw [readBlocks, hget]
    rfl
  rw [hread u (by omega), hread t (by omega)] at hmarked
  simpa using hmarked

/-- An important call succeeds exactly if the call without the mark does, and fails with the same
error otherwise. Its result is that of the other call, where every declaration is marked, through
nested rulesets, media blocks and the bodies of directives, and nothing else is changed. The media
blocks that it adds are those of the other call, marked alike, and what was there before stays. -/
theorem MixinCall.compile_important {sc : Scope} {s : Store} (h : sc.LivesIn s)
    (call : MixinCall) :
    (∃ e t u, ({ call with important := false }.compile sc).run.run s = (.error e, t) ∧
      ({ call with important := true }.compile sc).run.run s = (.error e, u)) ∨
    ∃ plain t marked u, ({ call with important := false }.compile sc).run.run s = (.ok plain, t) ∧
      ({ call with important := true }.compile sc).run.run s = (.ok marked, u) ∧
      u.rulesOf marked = Rule.markAllImportant (t.rulesOf plain) ∧
      s.blocks <+: t.blocks ∧ s.blocks <+: u.blocks ∧
      Node.toRules (u.contents.drop s.blocks.length) =
        Rule.markAllImportant (Node.toRules (t.contents.drop s.blocks.length)) ∧
      u.imported = t.imported := by
  rcases MixinCall.runs_important h call with
    ⟨e, u, t, hu, ht⟩ | ⟨marked, u, plain, t, hu, ht, hmarks, hread⟩
  · exact .inl ⟨e, t, u, ht, hu⟩
  · have hgrows := fun important => GrowsStore.call (GrowsStore.upTo sc.budget) sc
      { call with important } s
    refine .inr ⟨plain, t, marked, u, ht, hu, ?_, ((hgrows false).of_ok ht).blocks,
      ((hgrows true).of_ok hu).blocks, hmarks.contents, hmarks.imported.symm⟩
    rw [Store.rulesOf_eq_readAll, Store.rulesOf_eq_readAll]
    exact hread _ _ hmarks.marked

/-- A call that expands a mixin definition and a ruleset, which have media blocks, a nested ruleset
and a definition of their own. -/
theorem MixinCall.compile_important_two_candidates :
    let name (text : String) : Selector := { elements := [{ value := text }] }
    let assign (property text : String) : Rule :=
      .declaration { name := property, value := .read text }
    let rules : List Rule := [
      .definition { name := name ".m", params := [⟨"@w", some (.read "1px")⟩] }
        [assign "width" "@w", .media { features := "print" } [assign "top" "@w"]],
      .ruleset { selectors := [name ".m"] }
        [.definition { name := name ".k" } [assign "left" "0"],
          .ruleset { selectors := [name ".n"] }
            [assign "color" "red", .media { features := "screen" } [assign "right" "0"]]]]
    let call : MixinCall := { selector := name ".m" }
    ∃ root s plain t marked u, (numberRules rules >>= Ruleset.document).run {} = (root, s) ∧
      ({ call with important := false }.compile (Scope.enter {} root [])).run.run s =
        (.ok plain, t) ∧
      ({ call with important := true }.compile (Scope.enter {} root [])).run.run s =
        (.ok marked, u) ∧
      u.rulesOf marked = Rule.markAllImportant (t.rulesOf plain) ∧ t.blocks.length = 2 := by
  intro name assign rules call
  let built := (numberRules rules >>= Ruleset.document).run {}
  let sc : Scope := Scope.enter {} built.1 []
  have hlives : sc.LivesIn built.2 :=
    Scope.livesIn_document rfl (rfl : (numberRules rules >>= Ruleset.document).run {} = _) []
  have hok : (({ call with important := false }.compile sc).run.run built.2).1.toOption.isSome =
      true := by
    decide +kernel
  have hblocks : (({ call with important := false }.compile sc).run.run built.2).2.blocks.length =
      2 := by
    decide +kernel
  rcases MixinCall.compile_important hlives call with
    ⟨e, t, u, ht, -⟩ | ⟨plain, t, marked, u, ht, hu, hrules, -⟩
  · rw [ht] at hok
    cases hok
  · rw [ht] at hblocks
    exact ⟨built.1, built.2, plain, t, marked, u, rfl, ht, hu, hrules, hblocks⟩

end Calls

end Stylesheet
