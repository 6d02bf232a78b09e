import Stylesheet.Proofs.Node.Layers
import Stylesheet.Proofs.Rule.Literal

/-!
# Bubbling restores the selectors around media blocks

A media block that is nested in rulesets leaves them: its content is wrapped in the selectors of
each ruleset around it, from the inside out. For rules without mixin calls and imports this gives
every block the whole chain of selectors around its source, each link once and in order, also
where blocks are nested in blocks or in at-rules.

The contract of the compiler says that such rules are settled, that only blocks are added which
refer to each other, and that rules in which nothing is left to be filled in cannot fail while there
are levels of nesting left.
-/

namespace Stylesheet

namespace Store

/-- What compiling rules without calls and imports does to the store. It adds blocks that refer
only to each other, and uses up numbers. -/
structure Adds (s t : Store) : Prop where
  blocks : s.blocks <+: t.blocks
  layered : LayeredFrom s.blocks.length t.blocks
  nextSerial : s.nextSerial ≤ t.nextSerial

variable {s t u : Store} {first : Nat} {nodes : List Node} {n : Node}

theorem Adds.trans (h : s.Adds t) (h' : t.Adds u) : s.Adds u where
  blocks := h.blocks.trans h'.blocks
  layered := h.layered.trans h.blocks.length_le h'.blocks h'.layered
  nextSerial := Nat.le_trans h.nextSerial h'.nextSerial

theorem Quiet.adds (h : s.Quiet t) : s.Adds t where
  blocks := h.blocks ▸ List.prefix_rfl
  layered := h.blocks ▸ layeredFrom_length s.blocks
  nextSerial := h.nextSerial

@[simp] theorem rulesOf_nil (s : Store) : s.rulesOf [] = [] := rfl

theorem rulesOf_cons (s : Store) (n : Node) (nodes : List Node) :
    s.rulesOf (n :: nodes) = n.read (readBlocks s.blocks) :: s.rulesOf nodes := by
  rw [rulesOf_eq_readAll, rulesOf_eq_readAll, Node.readAll]

/-- What is added does not change what nodes read as. -/
theorem Adds.rulesOf (h : s.Adds t) (hnodes : Node.ReferWithin first s.blocks.length nodes) :
    t.rulesOf nodes = s.rulesOf nodes := by
  rw [rulesOf_eq_readAll, rulesOf_eq_readAll]
  exact readAll_of_extends h.blocks hnodes

end Store

namespace Store.Adds

variable {s t u : Store} {nodes : List Node}

/-- What was added may be changed, as long as it refers only to each other. -/
theorem reworks {R : Block → Block → Prop} (h : s.Adds t) (hst : t.Reworks s.blocks.length R u)
    (hR : ∀ b b', R b b' → ∀ index, Node.AllHoisted s.blocks.length index b.rules →
      Node.AllHoisted s.blocks.length index b'.rules) : s.Adds u where
  blocks := by
    obtain ⟨new, hnew, -⟩ := hst.blocks
    rw [hnew]
    exact (List.prefix_take_iff.2 ⟨h.blocks, Nat.le_refl _⟩).trans (List.prefix_append _ _)
  layered := h.layered.reworks hst hR
  nextSerial := Nat.le_trans h.nextSerial hst.nextSerial

/-- Bubbling wraps what was added, and leaves the rest alone. -/
theorem bubble {selectors : List Selector} (h : s.Adds t)
    (hnodes : Node.AllHoisted s.blocks.length t.blocks.length nodes) (hne : selectors ≠ []) :
    s.Adds ((bubble selectors s.blocks.length).run t).2 ∧
      Node.AllHoisted s.blocks.length
        ((bubble selectors s.blocks.length).run t).2.blocks.length nodes ∧
      ((bubble selectors s.blocks.length).run t).2.rulesOf nodes =
        Rule.bubbleAll selectors (t.rulesOf nodes) := by
  have hst := reworks_bubble_of_ne_nil hne s.blocks.length t
  have hread := readAll_of_bubble hne h.layered hnodes
  rw [← rulesOf_eq_readAll, ← rulesOf_eq_readAll] at hread
  refine ⟨h.reworks hst ?_, hst.length_eq ▸ hnodes, hread⟩
  rintro b b' ⟨n, -, rfl⟩ index hb
  exact ⟨hb, trivial⟩

/-- Marking marks what was added, and leaves the rest alone. -/
theorem markImportant (h : s.Adds t)
    (hnodes : Node.AllHoisted s.blocks.length t.blocks.length nodes) :
    s.Adds ((markImportant s.blocks.length nodes).run t).2 ∧
      Node.AllHoisted s.blocks.length
        ((markImportant s.blocks.length nodes).run t).2.blocks.length
        ((markImportant s.blocks.length nodes).run t).1 ∧
      ((markImportant s.blocks.length nodes).run t).2.rulesOf
          ((markImportant s.blocks.length nodes).run t).1 =
        Rule.markAllImportant (t.rulesOf nodes) := by
  have hst := reworks_markImportant s.blocks.length nodes t
  have hread := readAll_of_markImportant h.layered hnodes
  rw [← rulesOf_eq_readAll, ← rulesOf_eq_readAll] at hread
  refine ⟨h.reworks hst ?_, ?_, hread⟩
  · rintro b b' ⟨n, -, rfl⟩ index hb
    exact (hb.renewAll n).markAllImportant
  · rw [hst.length_eq, run_markImportant]
    exact (hnodes.renewAll _).markAllImportant

end Store.Adds

/-- The nodes can be compiled without mixins and imports, and the blocks that they refer to are in
layers from `base` on. -/
structure Node.Ready (base : Nat) (s : Store) (nodes : List Node) : Prop where
  base_le : base ≤ s.blocks.length
  layered : LayeredFrom base s.blocks
  refer : Node.ReferWithin base s.blocks.length nodes
  alone : Rule.allStandAlone (s.rulesOf nodes) = true

/-- The nodes on the right are compiled from those on the left, from the first store to the
second, inside rulesets with the given chain. -/
structure Node.SettleTo (chain : List (List Selector)) (s : Store) (nodes compiled : List Node)
    (t : Store) : Prop where
  adds : s.Adds t
  memo : t.memo = s.memo
  hoisted : Node.AllHoisted s.blocks.length t.blocks.length compiled
  settled : Rule.Settled chain (s.rulesOf nodes) (t.rulesOf compiled)

/-- The ruleset on the right is compiled from the one on the left, from the first store to the
second, and has a number of its own. -/
structure Ruleset.SettlesTo (s : Store) (r compiled : Ruleset) (t : Store) : Prop where
  le_serial : s.nextSerial ≤ compiled.serial
  serial_lt : compiled.serial < t.nextSerial
  settled : ∃ sc selectors, r.header.selectors.mapM (Scope.selector sc) = .ok selectors ∧
    compiled.header = { r.header with selectors, paths := [] } ∧
      Node.SettleTo (Rule.link selectors) s r.rules compiled.rules t

/-- Rules with nothing left to be filled in that are nested at most so deep. -/
def Rule.Shallow (levels : Nat) (rules : List Rule) : Prop :=
  AllFilled rules ∧ heights rules ≤ levels

/-- The compiler settles rulesets without calls and imports. It cannot fail on those with
nothing left to be filled in for which there are enough levels of nesting. -/
def Compiler.SettlesRules (compile : Compiler) (levels : Nat) : Prop :=
  ∀ (base : Nat) (sc : Scope) (r : Ruleset) (s : Store), Node.Ready base s r.rules →
    Ensures (compile sc r) s (r.SettlesTo s) fun _ _ =>
      ¬((∀ σ ∈ r.header.selectors, σ.IsLiteral) ∧ Rule.AllFilled (s.rulesOf r.rules) ∧
        Rule.heights (s.rulesOf r.rules) < levels)

namespace Node

variable {base : Nat} {chain : List (List Selector)} {s t u : Store} {n m : Node}
variable {nodes compiled : List Node}

theorem Ready.adds (h : Ready base s nodes) (hst : s.Adds t) : Ready base t nodes where
  base_le := Nat.le_trans h.base_le hst.blocks.length_le
  layered := h.layered.trans h.base_le hst.blocks hst.layered
  refer i hi := ⟨(h.refer i hi).1, Nat.lt_of_lt_of_le (h.refer i hi).2 hst.blocks.length_le⟩
  alone := by rw [hst.rulesOf h.refer, h.alone]

theorem ready_cons_iff :
    Ready base s (n :: nodes) ↔ Ready base s [n] ∧ Ready base s nodes := by
  have hrefer : ReferWithin base s.blocks.length (n :: nodes) ↔
      ReferWithin base s.blocks.length [n] ∧ ReferWithin base s.blocks.length nodes := by
    simp only [ReferWithin, allBlockIndices, List.append_nil, List.forall_mem_append]
  have halone : Rule.allStandAlone (s.rulesOf (n :: nodes)) = true ↔
      Rule.allStandAlone (s.rulesOf [n]) = true ∧ Rule.allStandAlone (s.rulesOf nodes) = true := by
    simp [Store.rulesOf_cons, Rule.allStandAlone]
  constructor
  · rintro ⟨hbase, hlayered, hnodes, hall⟩
    obtain ⟨hn, hnodes⟩ := hrefer.1 hnodes
    obtain ⟨hone, hall⟩ := halone.1 hall
    exact ⟨⟨hbase, hlayered, hn, hone⟩, hbase, hlayered, hnodes, hall⟩
  · rintro ⟨hn, hnodes⟩
    exact ⟨hn.base_le, hn.layered, hrefer.2 ⟨hn.refer, hnodes.refer⟩,
      halone.2 ⟨hn.alone, hnodes.alone⟩⟩

theorem Ready.standsAlone (h : Ready base s nodes) :
    ∀ n ∈ nodes, (n.read (readBlocks s.blocks)).standsAlone = true := by
  induction nodes with
  | nil =>
    intro n hn
    cases hn
  | cons n nodes ih =>
    obtain ⟨hn, hnodes⟩ := ready_cons_iff.1 h
    refine List.forall_mem_cons.2 ⟨?_, ih hnodes⟩
    have halone := hn.alone
    rwa [Store.rulesOf_cons, Store.rulesOf_nil, Rule.allStandAlone, Rule.allStandAlone,
      Bool.and_true] at halone

/-- The rules inside a node are ready if the node is. -/
theorem Ready.inside (h : Ready base s [n]) (hrefer : ReferWithin base s.blocks.length nodes)
    (halone : (n.read (readBlocks s.blocks)).standsAlone =
      Rule.allStandAlone (s.rulesOf nodes)) : Ready base s nodes := by
  refine ⟨h.base_le, h.layered, hrefer, ?_⟩
  rw [← halone]
  exact h.standsAlone n (List.mem_singleton.2 rfl)

/-- Definitions that take hold of the frames around them are ready as before. -/
theorem Ready.captureFrames (h : Ready base s nodes) (frames : List Ruleset) :
    Ready base s (captureFrames frames nodes) ∧
      s.rulesOf (captureFrames frames nodes) = s.rulesOf nodes := by
  have hread (look : Nat → Rule) :
      readAll look (Stylesheet.captureFrames frames nodes) = readAll look nodes := by
    rw [readAll_eq_map, readAll_eq_map, Stylesheet.captureFrames, List.map_map]
    refine List.map_congr_left fun n _ => ?_
    rcases n with _ | _ | ⟨_, _, _ | _⟩ | _ | _ | _ | _ | _ | _ <;> rfl
  have hindices : allBlockIndices (Stylesheet.captureFrames frames nodes) =
      allBlockIndices nodes := by
    clear hread h
    induction nodes with
    | nil => rfl
    | cons n nodes ih =>
      rw [Stylesheet.captureFrames, List.map_cons, allBlockIndices, allBlockIndices]
      refine congr (congrArg _ ?_) ih
      rcases n with _ | _ | ⟨_, _, _ | _⟩ | _ | _ | _ | _ | _ | _ <;> rfl
  have hrules : s.rulesOf (Stylesheet.captureFrames frames nodes) = s.rulesOf nodes := by
    rw [Store.rulesOf_eq_readAll, Store.rulesOf_eq_readAll, hread]
  refine ⟨⟨h.base_le, h.layered, ?_, ?_⟩, hrules⟩
  · rw [ReferWithin, hindices]
    exact h.refer
  · rw [hrules, h.alone]

theorem SettleTo.quiet (h : SettleTo chain s nodes compiled t) (htu : t.Quiet u) :
    SettleTo chain s nodes compiled u where
  adds := h.adds.trans htu.adds
  memo := htu.memo.trans h.memo
  hoisted := htu.blocks ▸ h.hoisted
  settled := htu.adds.rulesOf h.hoisted.referWithin ▸ h.settled

/-- Nothing is lost if a computation starts later with the same rules. -/
theorem SettleTo.after_quiet {source : List Node} (h : SettleTo chain t nodes compiled u)
    (hst : s.Quiet t) (hrules : t.rulesOf nodes = s.rulesOf source) :
    SettleTo chain s source compiled u where
  adds := hst.adds.trans h.adds
  memo := h.memo.trans hst.memo
  hoisted := hst.blocks ▸ h.hoisted
  settled := hrules ▸ h.settled

/-- What was compiled is ready to be compiled again. -/
theorem SettleTo.ready (h : SettleTo chain s nodes compiled t)
    (halone : Rule.allStandAlone (t.rulesOf compiled) = true) :
    Ready s.blocks.length t compiled where
  base_le := h.adds.blocks.length_le
  layered := h.adds.layered
  refer := h.hoisted.referWithin
  alone := halone

/-- Bubbling puts the selectors in front of the chain of every block. -/
theorem SettleTo.bubble (h : SettleTo [] s nodes compiled t) (selectors : List Selector) :
    SettleTo (Rule.link selectors) s nodes compiled
      ((bubble selectors s.blocks.length).run t).2 := by
  by_cases hne : selectors = []
  · subst hne
    exact h
  · have hlink : Rule.link selectors = [selectors] := if_neg (by simpa using hne)
    obtain ⟨hadds, hhoisted, hread⟩ := h.adds.bubble h.hoisted hne
    refine ⟨hadds, ?_, hhoisted, ?_⟩
    · exact (reworks_bubble selectors s.blocks.length t).memo.trans h.memo
    rw [hlink, hread]
    exact h.settled.bubbleAll selectors

/-- Nodes are settled one after the other. -/
theorem SettleTo.cons (h : SettleTo chain s [n] [m] t)
    (hrest : SettleTo chain t nodes compiled u)
    (hnodes : ReferWithin base s.blocks.length nodes) :
    SettleTo chain s (n :: nodes) (m :: compiled) u where
  adds := h.adds.trans hrest.adds
  memo := hrest.memo.trans h.memo
  hoisted := by
    have hle := hrest.adds.blocks.length_le
    exact ⟨h.hoisted.1.mono (Nat.le_refl _) hle,
      hrest.hoisted.mono h.adds.blocks.length_le (Nat.le_refl _)⟩
  settled := by
    have hm : u.rulesOf [m] = t.rulesOf [m] := hrest.adds.rulesOf h.hoisted.referWithin
    have hsettled := h.settled.append (h.adds.rulesOf hnodes ▸ hrest.settled)
    rw [← hm] at hsettled
    simpa [Store.rulesOf_cons] using hsettled

end Node

section Steps

variable {compile : Compiler} {levels base : Nat} {sc : Scope} {s : Store} {nodes : List Node}

/-- A body without selectors is settled. -/
theorem Compiler.SettlesRules.compileBody (h : Compiler.SettlesRules compile levels)
    (hnodes : Node.Ready base s nodes) :
    Ensures (Stylesheet.compileBody compile sc nodes) s (Node.SettleTo [] s nodes) fun _ _ =>
      ¬(Rule.AllFilled (s.rulesOf nodes) ∧ Rule.heights (s.rulesOf nodes) < levels) := by
  have hquiet := KeepsBooks.build {} nodes none s
  rw [Stylesheet.compileBody, ensures_bind]
  refine ensures_lift.2 ?_
  rw [ensures_bind]
  refine (h base sc _ _ (hnodes.adds hquiet.adds)).mono ?_ ?_
  · intro compiled t hcompiled
    obtain ⟨sc', selectors, hselectors, -, hsettled⟩ := hcompiled.settled
    obtain ⟨⟩ := hselectors
    exact hsettled.after_quiet hquiet rfl
  · intro e t hfail hsure
    exact hfail ⟨fun σ hσ => (List.not_mem_nil hσ).elim, hsure⟩

/-- A media block is settled, and joins the blocks after those inside it. -/
theorem Compiler.SettlesRules.compileMedia (h : Compiler.SettlesRules compile levels)
    (hnodes : Node.Ready base s nodes) (head : MediaHead) {n : Node}
    (hn : n.read (readBlocks s.blocks) = .media head (s.rulesOf nodes)) :
    Ensures (Stylesheet.compileMedia compile sc head nodes) s (fun m => Node.SettleTo [] s [n] [m])
      fun _ _ =>
        ¬(Rule.AllFilled (s.rulesOf nodes) ∧ Rule.heights (s.rulesOf nodes) < levels) := by
  rw [Stylesheet.compileMedia, ensures_bind]
  refine (h.compileBody hnodes).mono ?_ fun _ _ hfail => hfail
  intro compiled t hcompiled
  show Node.SettleTo [] s [n] [.block t.blocks.length]
    { t with blocks := t.blocks ++ [⟨head, compiled⟩] }
  refine ⟨⟨?_, ?_, hcompiled.adds.nextSerial⟩, hcompiled.memo, ?_, ?_⟩
  · exact hcompiled.adds.blocks.trans (List.prefix_append _ _)
  · exact hcompiled.adds.layered.concat hcompiled.hoisted
  · refine ⟨⟨hcompiled.adds.blocks.length_le, ?_⟩, trivial⟩
    rw [List.length_append]
    exact Nat.lt_succ_self _
  · have hread := readBlocks_concat t.blocks ⟨head, compiled⟩
    rw [← Store.rulesOf_eq_readAll] at hread
    rw [Store.rulesOf_cons, Store.rulesOf_cons, hn, Node.read, hread]
    exact .media head hcompiled.settled .nil

/-- A node without calls and imports is settled. -/
theorem Compiler.SettlesRules.node (h : Compiler.SettlesRules compile levels) {n : Node}
    (hn : Node.Ready base s [n]) :
    Ensures (n.compileWith compile sc) s (fun m => Node.SettleTo [] s [n] [m]) fun _ _ =>
      ¬Rule.Shallow levels (s.rulesOf [n]) := by
  have hrefl : s.Adds s := (Store.Quiet.refl s).adds
  have hindices : Node.allBlockIndices [n] = n.blockIndices := List.append_nil _
  have hrefer := hn.refer
  rw [Node.ReferWithin, hindices] at hrefer
  have hrule : s.rulesOf [n] = [n.read (readBlocks s.blocks)] := s.rulesOf_cons n []
  rw [hrule]
  cases n with
  | declaration d =>
    rw [Node.compileWith, ensures_bind, ensures_ofExcept]
    refine ⟨fun d' hd' => ⟨hrefl, rfl, ⟨trivial, trivial⟩, .declaration sc hd' .nil⟩, ?_⟩
    rintro e he ⟨⟨hvalue, -⟩, -⟩
    rw [sc.declaration_of_isResolved hvalue] at he
    cases he
  | ruleset r =>
    obtain ⟨serial, source, header, rules⟩ := r
    have hread : Node.read (readBlocks s.blocks) (.ruleset ⟨serial, source, header, rules⟩) =
        .ruleset header (s.rulesOf rules) := by rw [Node.read, Store.rulesOf_eq_readAll]
    rw [Node.compileWith, ensures_bind]
    have hready := hn.inside hrefer (by rw [hread]; rfl)
    refine (h base sc ⟨serial, source, header, rules⟩ s hready).mono ?_ ?_
    · intro compiled t hcompiled
      obtain ⟨sc', selectors, hselectors, hheader, hsettled⟩ := hcompiled.settled
      obtain ⟨serial', source', header', rules'⟩ := compiled
      obtain rfl := hheader
      refine ⟨hsettled.adds, hsettled.memo, ⟨hsettled.hoisted, trivial⟩, ?_⟩
      rw [hrule, hread, Store.rulesOf_cons, Node.read, ← Store.rulesOf_eq_readAll]
      exact .ruleset sc' hselectors hsettled.settled .nil
    · rw [hread]
      rintro e t hfail ⟨⟨⟨hselectors, hrules⟩, -⟩, hheight⟩
      exact hfail ⟨hselectors, hrules, Nat.le_trans (Nat.le_max_left _ _) hheight⟩
  | media head rules =>
    have hread : Node.read (readBlocks s.blocks) (.media head rules) =
        .media head (s.rulesOf rules) := by rw [Node.read, Store.rulesOf_eq_readAll]
    refine (h.compileMedia (hn.inside hrefer (by rw [hread]; rfl)) head hread).mono
      (fun _ _ hm => hm) ?_
    rw [hread]
    rintro e t hfail ⟨⟨hrules, -⟩, hheight⟩
    exact hfail ⟨hrules, Nat.le_trans (Nat.le_max_left _ _) hheight⟩
  | block index =>
    obtain ⟨hlo, hhi⟩ := hrefer index (List.mem_singleton.2 rfl)
    have hb := List.getElem?_eq_getElem hhi
    have hread : Node.read (readBlocks s.blocks) (.block index) =
        .media s.blocks[index].head (s.rulesOf s.blocks[index].rules) := by
      rw [Node.read, hn.layered.readBlocks_eq hlo hb, Store.rulesOf_eq_readAll]
    have hinside : Node.ReferWithin base s.blocks.length s.blocks[index].rules :=
      ((hn.layered index _ hlo hb).mono (Nat.le_refl base) (Nat.le_of_lt hhi)).referWithin
    rw [Node.compileWith, ensures_bind, ensures_get, hb]
    refine (h.compileMedia (hn.inside hinside (by rw [hread]; rfl)) _ hread).mono
      (fun _ _ hm => hm) ?_
    rw [hread]
    rintro e t hfail ⟨⟨hrules, -⟩, hheight⟩
    exact hfail ⟨hrules, Nat.le_trans (Nat.le_max_left _ _) hheight⟩
  | directive head rules =>
    cases rules with
    | none => exact ⟨hrefl, rfl, ⟨trivial, trivial⟩, .directive head .nil⟩
    | some rules =>
      have hread : Node.read (readBlocks s.blocks) (.directive head (some rules)) =
          .directive head (some (s.rulesOf rules)) := by rw [Node.read, Store.rulesOf_eq_readAll]
      rw [Node.compileWith, ensures_bind]
      refine (h.compileBody (hn.inside hrefer (by rw [hread]; rfl))).mono ?_ ?_
      · intro compiled t hcompiled
        refine ⟨hcompiled.adds, hcompiled.memo, ⟨hcompiled.hoisted, trivial⟩, ?_⟩
        rw [hrule, hread, Store.rulesOf_cons, Node.read, ← Store.rulesOf_eq_readAll]
        exact .directiveBlock head hcompiled.settled .nil
      · rw [hread]
        rintro e t hfail ⟨⟨hrules, -⟩, hheight⟩
        exact hfail ⟨hrules, Nat.le_trans (Nat.le_max_left _ _) hheight⟩
  | definition d =>
    obtain ⟨signature, rules, closure⟩ := d
    exact ⟨hrefl, rfl, ⟨trivial, trivial⟩, .definition signature _ .nil⟩
  | comment c => exact ⟨hrefl, rfl, ⟨trivial, trivial⟩, .comment c .nil⟩
  | call c => cases hn.alone
  | inclusion i => cases hn.alone

/-- The nodes of a ruleset are settled from left to right. -/
theorem Compiler.SettlesRules.compileSlots (h : Compiler.SettlesRules compile levels)
    {inside : Ruleset → Scope} {frame : Ruleset} {done : List Node}
    (hnodes : Node.Ready base s nodes) :
    Ensures (Stylesheet.compileSlots (Node.compileWith compile) inside frame done
        (nodes.map Slot.own)) s
      (fun result t => result.1.header = frame.header ∧
        ∃ new, result.2 = done ++ new ∧ Node.SettleTo [] s nodes new t)
      fun _ _ => ¬Rule.Shallow levels (s.rulesOf nodes) := by
  induction nodes generalizing s frame done with
  | nil =>
    refine ⟨rfl, [], (List.append_nil done).symm, (Store.Quiet.refl s).adds, rfl, trivial, .nil⟩
  | cons n nodes ih =>
    obtain ⟨hn, hrest⟩ := Node.ready_cons_iff.1 hnodes
    have hshallow : Rule.Shallow levels (s.rulesOf (n :: nodes)) →
        Rule.Shallow levels (s.rulesOf [n]) ∧ Rule.Shallow levels (s.rulesOf nodes) := by
      rw [Store.rulesOf_cons, Store.rulesOf_cons, Store.rulesOf_nil]
      rintro ⟨⟨hfilled, hall⟩, hheight⟩
      obtain ⟨hone, hmore⟩ := Nat.max_le.1 hheight
      exact ⟨⟨⟨hfilled, trivial⟩, Nat.max_le.2 ⟨hone, Nat.zero_le _⟩⟩, hall, hmore⟩
    -- The rest of the nodes, once the first one has become `m`.
    have hmore : ∀ {m : Node} {t : Store} {frame' : Ruleset}, frame'.header = frame.header →
        Node.SettleTo [] s [n] [m] t →
        Ensures (Stylesheet.compileSlots (Node.compileWith compile) inside frame' (done ++ [m])
            (nodes.map Slot.own)) t
          (fun result u => result.1.header = frame.header ∧
            ∃ new, result.2 = done ++ new ∧ Node.SettleTo [] s (n :: nodes) new u)
          fun _ _ => ¬Rule.Shallow levels (s.rulesOf (n :: nodes)) := by
      intro m t frame' hheader hm
      refine (ih (hrest.adds hm.adds)).mono ?_ ?_
      · rintro result u ⟨hresult, new, hnew, hsettle⟩
        refine ⟨hresult.trans hheader, m :: new, ?_, hm.cons hsettle hrest.refer⟩
        rw [hnew, List.append_assoc, List.singleton_append]
      · intro e u hfail hall
        rw [hm.adds.rulesOf hrest.refer] at hfail
        exact hfail (hshallow hall).2
    by_cases hdefinition : ∃ d, n = .definition d
    · obtain ⟨d, rfl⟩ := hdefinition
      have hsame : Ensures (Node.compileWith compile (inside frame) (.definition d)) s _ _ :=
        h.node hn
      exact hmore rfl (hsame.of_ok rfl)
    · rw [List.map_cons, compileSlots_own fun d hd => hdefinition ⟨d, hd⟩, ensures_bind]
      refine (h.node hn).mono ?_ fun e t hfail hall => hfail (hshallow hall).1
      intro m t hm
      cases m with
      | ruleset r =>
        rw [ensures_bind]
        exact ensures_lift.2 (hmore rfl (hm.quiet (KeepsBooks.build _ _ _ t)))
      | _ => exact hmore rfl hm

/-- Nodes without calls are all left to be compiled. -/
theorem expandCalls_of_no_call (expand : Expander) (inside : Ruleset → Scope) (frame : Ruleset)
    (done : List Slot) (hnodes : ∀ n ∈ nodes, ∀ c, n ≠ .call c) :
    expandCalls expand inside frame done nodes = pure (frame, done ++ nodes.map Slot.own) := by
  induction nodes generalizing done with
  | nil => rw [expandCalls, List.map_nil, List.append_nil]
  | cons n nodes ih =>
    obtain ⟨hn, hrest⟩ := List.forall_mem_cons.1 hnodes
    have hnext : expandCalls expand inside frame done (n :: nodes) =
        expandCalls expand inside frame (done ++ [.own n]) nodes := by
      cases n with
      | call c => exact absurd rfl (hn c)
      | _ => rfl
    rw [hnext, ih _ hrest, List.append_assoc, List.map_cons, List.singleton_append]

/-- Nodes without imports stay as they are. -/
theorem replaceImports_of_no_import (replace : Import → CompileM (List Node))
    (hnodes : ∀ n ∈ nodes, ∀ i, n ≠ .inclusion i) :
    replaceImports replace nodes = pure nodes := by
  induction nodes with
  | nil => rfl
  | cons n nodes ih =>
    obtain ⟨hn, hrest⟩ := List.forall_mem_cons.1 hnodes
    have hnext : replaceImports replace (n :: nodes) =
        (do return n :: (← replaceImports replace nodes)) := by
      cases n with
      | inclusion i => exact absurd rfl (hn i)
      | _ => rfl
    rw [hnext, ih hrest, pure_bind]

/-- The home frame of a ruleset without imports has its rules. -/
theorem ensures_homeFrame_of_no_import {r : Ruleset}
    (himports : ∀ n ∈ r.rules, ∀ i, n ≠ .inclusion i) (selectors : List Selector) :
    Ensures (r.homeFrame sc selectors) s
      (fun home t => s.Quiet t ∧ home.rules = r.rules ∧ home.source = some r.serial ∧
        home.header = { r.header with selectors, paths := [] })
      fun _ _ => False := by
  have hquiet := KeepsBooks.build { r.header with selectors, paths := [] } r.rules
    (some r.serial) s
  rw [Ruleset.homeFrame, ensures_bind]
  refine ensures_lift.2 ?_
  have hrules : ((Ruleset.build { r.header with selectors, paths := [] } r.rules
      (some r.serial)).run s).1.rules = r.rules := rfl
  split
  · rw [hrules, replaceImports_of_no_import _ himports, pure_bind]
    exact ensures_lift.2 ⟨hquiet.trans (KeepsBooks.build _ _ _ _), rfl, rfl, rfl⟩
  · exact ⟨hquiet, rfl, rfl, rfl⟩

/-- From its frame on, a ruleset is settled: its nodes are, and then bubbling puts its selectors
in front of the chain of every block. -/
theorem Compiler.SettlesRules.fillFrame (h : Compiler.SettlesRules compile levels) {frame : Ruleset}
    (hframe : Node.Ready base s frame.rules) (expand : Expander) (selectors : List Selector) :
    Ensures (frame.fillFrame expand (fun _ => Node.compileWith compile) sc selectors) s
      (fun compiled t => s.nextSerial ≤ compiled.serial ∧ compiled.serial < t.nextSerial ∧
        compiled.header = frame.header ∧
          Node.SettleTo (Rule.link selectors) s frame.rules compiled.rules t)
      fun _ _ => ¬Rule.Shallow levels (s.rulesOf frame.rules) := by
  have hcalls : ∀ n ∈ frame.rules, ∀ c, n ≠ .call c := by
    rintro n hn c rfl
    cases hframe.standsAlone _ hn
  rw [Ruleset.fillFrame, ensures_bind, ensures_get, expandCalls_of_no_call _ _ _ _ hcalls,
    pure_bind, ensures_bind]
  refine (h.compileSlots hframe).mono ?_ fun _ _ hfail => hfail
  rintro ⟨frame', rules⟩ t ⟨hheader, new, hnew, hsettle⟩
  obtain rfl : rules = new := hnew
  rw [ensures_bind]
  refine ensures_lift.2 (ensures_lift.2 ?_)
  have hbubbled := hsettle.bubble selectors
  exact ⟨hbubbled.adds.nextSerial, Nat.lt_succ_self _, hheader,
    hbubbled.quiet (KeepsBooks.build _ _ _ _)⟩

/-- One level of nesting more. -/
theorem Compiler.SettlesRules.compileWith (h : Compiler.SettlesRules compile levels)
    (expand : Expander) :
    Compiler.SettlesRules (Ruleset.compileWith expand compile) (levels + 1) := by
  intro base sc r s hr
  rw [Ruleset.compileWith_eq, Ruleset.compileBy, ensures_bind, ensures_ofExcept]
  constructor
  · intro selectors hselectors
    have himports : ∀ n ∈ r.rules, ∀ i, n ≠ .inclusion i := by
      rintro n hn i rfl
      cases hr.standsAlone _ hn
    have hrecord := s.quiet_record (.compiling selectors r.rules.length)
    rw [ensures_bind]
    refine ensures_lift.2 ?_
    rw [ensures_bind]
    refine (ensures_homeFrame_of_no_import himports selectors).mono ?_ fun _ _ hfail => hfail.elim
    rintro home t ⟨hquiet, hrules, -, hheader⟩
    have hready : Node.Ready base t home.rules :=
      hrules ▸ hr.adds (hrecord.trans hquiet).adds
    obtain ⟨hcaptured, hread⟩ := hready.captureFrames (home :: sc.frames)
    generalize captureFrames (home :: sc.frames) home.rules = captured at hcaptured hread
    have hbuild := KeepsBooks.build home.header captured home.source t
    have hstart := (hrecord.trans hquiet).trans hbuild
    have hsource : ((home.rebuild captured).run t).2.rulesOf
        ((home.rebuild captured).run t).1.rules = s.rulesOf r.rules := by
      show t.rulesOf captured = s.rulesOf r.rules
      rw [hread, hrules, (hrecord.trans hquiet).adds.rulesOf hr.refer]
    rw [ensures_bind]
    refine ensures_lift.2 ?_
    refine (h.fillFrame (hcaptured.adds hbuild.adds) expand selectors).mono ?_ ?_
    · rintro compiled u ⟨hle, hlt, hsame, hsettle⟩
      refine ⟨Nat.le_trans hstart.nextSerial hle, hlt, sc, selectors, hselectors,
        hsame.trans hheader, hsettle.after_quiet hstart hsource⟩
    · intro e u hfail hsure
      rw [hsource] at hfail
      exact hfail ⟨hsure.2.1, Nat.le_of_lt_succ hsure.2.2⟩
  · rintro e he ⟨hliteral, -⟩
    rw [mapM_selector_of_isLiteral sc hliteral] at he
    cases he

theorem Compiler.SettlesRules.nested (expand : Expander) (levels : Nat) :
    Compiler.SettlesRules (expand.nested levels) levels := by
  induction levels with
  | zero => exact fun base sc r s hr ⟨_, _, hlevels⟩ => absurd hlevels (Nat.not_lt_zero _)
  | succ levels ih => exact ih.compileWith expand

/-- Rulesets without calls and imports are settled. Those with nothing left to be filled in cannot
fail. -/
theorem ensures_compiler_settles (expand : Expander) {r : Ruleset}
    (hr : Node.Ready base s r.rules) :
    Ensures (expand.compiler sc r) s (r.SettlesTo s) fun _ _ =>
      ¬((∀ σ ∈ r.header.selectors, σ.IsLiteral) ∧ Rule.AllFilled (s.rulesOf r.rules)) := by
  rw [Expander.compiler, ensures_bind, ensures_get]
  refine (Compiler.SettlesRules.nested expand _ base sc r s hr).mono (fun _ _ h => h) ?_
  rintro e t hfail ⟨hselectors, hrules⟩
  refine hfail ⟨hselectors, hrules, ?_⟩
  have hheights := hr.layered.heights_rulesOf_le hr.refer
  rw [Scope.levels]
  omega

end Steps

/-- Rules that were only numbered are ready if they stand alone. -/
theorem Node.ready_ofRules {rules : List Rule} (h : Rule.allStandAlone rules = true) (next : Nat)
    (s : Store) : Node.Ready s.blocks.length s ((Node.ofRules rules).run next).1 := by
  refine ⟨Nat.le_refl _, layeredFrom_length s.blocks, ?_, ?_⟩
  · intro i hi
    rw [allBlockIndices_ofRules] at hi
    cases hi
  · rw [Store.rulesOf_eq_readAll, readAll_ofRules, h]

theorem ensures_compileTree_restored {rules : List Rule}
    (halone : Rule.allStandAlone rules = true) (sc : Scope) (next : Nat) (s : Store) :
    Ensures (compileTree sc ((Node.ofRules rules).run next).1) s
      (fun root t => Rule.Restored [] [] rules (t.rulesOf root.rules)) fun _ _ => True := by
  have hread (u : Store) : u.rulesOf ((Node.ofRules rules).run next).1 = rules := by
    rw [Store.rulesOf_eq_readAll, Node.readAll_ofRules]
  have hready (u : Store) := Node.ready_ofRules halone next u
  generalize ((Node.ofRules rules).run next).1 = nodes at hread hready
  rw [compileTree, ensures_bind]
  refine ensures_lift.2 ?_
  rw [ensures_bind]
  refine (ensures_compiler_settles sc.expander (hready _)).mono ?_ fun _ _ _ => trivial
  intro compiled t hcompiled
  obtain ⟨sc', selectors, hselectors, hheader, hsettle⟩ := hcompiled.settled
  obtain ⟨⟩ := hselectors
  have hsettled : Rule.Settled [] (((Ruleset.document nodes).run s).2.rulesOf nodes)
      (t.rulesOf compiled.rules) := hsettle.settled
  rw [hread] at hsettled
  split
  · rw [ensures_bind]
    refine ensures_lift.2 ((ensures_join_rulesOf compiled _).mono ?_ fun _ _ h => h)
    rintro root u ⟨paths, inner, hpaths, -, hjoined⟩
    -- A document passes on the context it has, which is none.
    rw [hheader] at hpaths
    obtain ⟨⟩ := hpaths
    exact hsettled.restored (fun l hl => by cases hl) hjoined
  · exact ensures_throw.2 trivial

/-- Bubbling restores the selectors around media blocks. In a document without calls and imports
that was compiled and joined, the content of every media block is its own compiled body in nested
rulesets, one for each ruleset with selectors around its source, from the outermost on. -/
theorem compileTree_restored {sc : Scope} {rules : List Rule} {next : Nat} {s t : Store}
    {root : Ruleset} (halone : Rule.allStandAlone rules = true)
    (h : (compileTree sc ((Node.ofRules rules).run next).1).run.run s = (.ok root, t)) :
    Rule.Restored [] [] rules (t.rulesOf root.rules) :=
  (ensures_compileTree_restored halone sc next s).of_ok h

/-- Two media blocks inside each other, under two rulesets and an at-rule. -/
theorem compileTree_restored_nested :
    let body : List Rule := [
      .declaration { name := "color", value := .read "red" },
      .media { features := "(min-width: 1px)" }
        [.declaration { name := "top", value := .read "0" }]]
    let rules : List Rule := [
      .ruleset { selectors := [{ elements := [⟨.compound, ".a"⟩] }] }
        [.directive { name := "@supports" } (some
          [.ruleset { selectors := [{ elements := [⟨.compound, "&"⟩, ⟨.compound, ":hover"⟩] }] }
            [.media { features := "print" } body]])]]
    let nodes := ((Node.ofRules rules).run 0).1
    let css := "@supports\x7b@media print\x7b.a:hover\x7bcolor:red\x7d" ++
      "@media (min-width: 1px)\x7b.a:hover\x7btop:0\x7d\x7d\x7d\x7d"
    ∃ root t, (compileTree {} nodes).run.run { nextSerial := 2 } = (.ok root, t) ∧
      t.css true root = css ∧ Rule.Restored [] [] rules (t.rulesOf root.rules) := by
  intro body rules nodes css
  have hcss : ((do
      let root ← compileTree {} nodes
      return (← get).css true root : CompileM String).run.run { nextSerial := 2 }).1.toOption =
        some css := by
    decide +kernel
  cases hrun : (compileTree {} nodes).run.run { nextSerial := 2 } with
  | mk result t =>
    cases result with
    | error e =>
      rw [run_bind_error hrun] at hcss
      cases hcss
    | ok root =>
      rw [run_bind_ok hrun] at hcss
      exact ⟨root, t, rfl, Option.some.inj hcss, compileTree_restored rfl hrun⟩

end Stylesheet
