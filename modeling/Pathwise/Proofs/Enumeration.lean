import Mathlib.Data.List.Lex
import Pathwise.Proofs.Coverable.Run
import Pathwise.Proofs.Segmentation.Form

/-!
# Pathwise.Proofs.Enumeration

Which paths a form has, said without the walk that finds them. A path follows edges
from the entry; it enters no block of the graph twice, and it ends with an edge to
an exit or back to a block that it has entered (`Form.Maximal`). `Form.paths_exact`
says that an enumeration lists exactly these paths, in the order of their edges.

The walk comes to an end since a path leaves no block twice: the start of a block
is entered once, and any other segment only from the one before it, so that to come
there again the path must have been in all earlier segments again
(`Form.Progress`). No assumption on the loops of the graph is needed.
-/

namespace Pathwise

/-! ## edges -/

namespace Edge

/-- The block of the graph that an edge enters at its start. -/
def entered? (e : Edge) : Option Nat :=
  if e.target.segment = 0 then
    match e.target.index with
    | .node n => some n
    | _ => none
  else none

/-- How an edge ends a path that has entered some blocks of the graph. -/
inductive Ends (e : Edge) (entered : List Nat) : ExitKind → Prop where
  | returned (h : e.target = .regularExit) : Ends e entered .returned
  | thrown (h : e.target = .exceptionalExit) (hc : e.condition = .always) : Ends e entered .thrown
  | fault {group : FaultGroup} {kind : FaultKind} (h : e.target = .exceptionalExit)
      (hc : e.condition = .fault group) (hk : group.fault = some kind) :
      Ends e entered (.fault kind group.offset)
  | loopBound {n : Nat} (h : e.target = .node n) (hn : n ∈ entered) : Ends e entered .loopBound

/-- Where an edge of a block can lead: out of the method by a return, a throw or a fault, to the
start of a block of the graph, or to the next segment. -/
inductive LeadsOn (e : Edge) (source : BlockId) : Prop where
  | returned (h : e.target = .regularExit)
  | thrown (h : e.target = .exceptionalExit) (hc : e.condition = .always)
  | fault {group : FaultGroup} {kind : FaultKind} (h : e.target = .exceptionalExit)
      (hc : e.condition = .fault group) (hk : group.fault = some kind)
  | enter {n : Nat} (h : e.target = .node n)
  | next {n : Nat} (hs : source.index = .node n) (h : e.target = ⟨.node n, source.segment + 1⟩)

variable {e : Edge} {n : Nat}

theorem entered?_of_node (h : e.target = .node n) : e.entered? = some n := by
  simp [entered?, h, BlockId.node]

theorem entered?_of_segment {k : Nat} (h : e.target = ⟨.node n, k + 1⟩) : e.entered? = none := by
  simp [entered?, h]

end Edge

namespace Form

variable {steps : List PathStep} {id : BlockId} {e : Edge} {onPath : List BlockIndex}
  {edges : List Edge} {before : List Nat}

/-! ## turns -/

/-- The blocks that a walk keeps are those that were entered. -/
def Tracks (onPath : List BlockIndex) (entered : List Nat) : Prop :=
  ∀ i, i ∈ onPath ↔ ∃ n ∈ entered, i = .node n

theorem Tracks.node_mem_iff {entered : List Nat} (h : Tracks onPath entered) {n : Nat} :
    .node n ∈ onPath ↔ n ∈ entered := by
  rw [h]
  constructor
  · rintro ⟨m, hm, heq⟩
    exact BlockIndex.node.inj heq ▸ hm
  · exact fun hn => ⟨n, hn, rfl⟩

/-- Entering a block is tracked. -/
theorem Tracks.cons {entered : List Nat} (h : Tracks onPath entered) (n : Nat) :
    Tracks (.node n :: onPath) (entered ++ [n]) := by
  intro i
  simp only [List.mem_cons, h i, List.mem_append, List.not_mem_nil, or_false]
  constructor
  · rintro (rfl | ⟨m, hm, rfl⟩)
    · exact ⟨n, Or.inr rfl, rfl⟩
    · exact ⟨m, Or.inl hm, rfl⟩
  · rintro ⟨m, hm | rfl, rfl⟩
    · exact Or.inr ⟨m, hm, rfl⟩
    · exact Or.inl rfl

section

variable {e : Edge} {source : BlockId} {onPath onPath' : List BlockIndex} {entered : List Nat}
  {exit : ExitKind} {n : Nat}

theorem turn_regularExit (h : e.target = .regularExit) : turn onPath e = .leave .returned := by
  simp [turn, h, BlockId.regularExit]

theorem turn_exceptionalExit (h : e.target = .exceptionalExit) :
    turn onPath e = .leave (.ofCondition e.condition) := by
  simp [turn, h, BlockId.exceptionalExit]

theorem turn_node (h : e.target = .node n) :
    turn onPath e = if .node n ∈ onPath then .leave .loopBound else .go (.node n :: onPath) := by
  simp [turn, h, BlockId.node]

theorem turn_segment {k : Nat} (h : e.target = ⟨.node n, k + 1⟩) : turn onPath e = .go onPath := by
  simp [turn, h]

/-- **Where a path ends**, and how, is decided by its last edge. -/
theorem turn_eq_leave_iff (he : e.LeadsOn source) (ht : Tracks onPath entered) :
    turn onPath e = .leave exit ↔ e.Ends entered exit := by
  constructor
  · intro h
    cases he with
    | returned htarget =>
        rw [turn_regularExit htarget] at h
        obtain rfl := Turn.leave.inj h
        exact .returned htarget
    | thrown htarget hc =>
        rw [turn_exceptionalExit htarget, hc] at h
        obtain rfl := Turn.leave.inj h
        exact .thrown htarget hc
    | fault htarget hc hk =>
        rw [turn_exceptionalExit htarget, hc, ExitKind.ofCondition, hk] at h
        obtain rfl := Turn.leave.inj h
        exact .fault htarget hc hk
    | @enter n htarget =>
        rw [turn_node htarget] at h
        split at h
        · next hn =>
            obtain rfl := Turn.leave.inj h
            exact .loopBound htarget (ht.node_mem_iff.1 hn)
        · contradiction
    | next _ htarget =>
        rw [turn_segment htarget] at h
        contradiction
  · intro h
    cases h with
    | returned htarget => exact turn_regularExit htarget
    | thrown htarget hc => rw [turn_exceptionalExit htarget, hc]; rfl
    | fault htarget hc hk => rw [turn_exceptionalExit htarget, hc, ExitKind.ofCondition, hk]
    | loopBound htarget hn => rw [turn_node htarget, if_pos (ht.node_mem_iff.2 hn)]

/-- A path goes on along an edge to no exit, if it does not enter a block again. -/
theorem exists_go_iff (he : e.LeadsOn source) (ht : Tracks onPath entered) :
    (∃ onPath', turn onPath e = .go onPath') ↔ e.target ≠ .regularExit ∧
      e.target ≠ .exceptionalExit ∧ ∀ n ∈ e.entered?, n ∉ entered := by
  cases he with
  | returned htarget => simp [turn_regularExit htarget, htarget]
  | thrown htarget hc => simp [turn_exceptionalExit htarget, htarget]
  | fault htarget hc hk => simp [turn_exceptionalExit htarget, htarget]
  | @enter n htarget =>
      simp only [turn_node htarget, Edge.entered?_of_node htarget, ht.node_mem_iff, htarget]
      by_cases hn : n ∈ entered <;>
        simp [hn, BlockId.node, BlockId.regularExit, BlockId.exceptionalExit]
  | next _ htarget =>
      simp [turn_segment htarget, Edge.entered?_of_segment htarget, htarget, BlockId.regularExit,
        BlockId.exceptionalExit]

/-- Going on is tracked. -/
theorem tracks_of_turn_eq_go (he : e.LeadsOn source) (ht : Tracks onPath entered)
    (h : turn onPath e = .go onPath') : Tracks onPath' (entered ++ e.entered?.toList) := by
  cases he with
  | returned htarget => simp [turn_regularExit htarget] at h
  | thrown htarget hc => simp [turn_exceptionalExit htarget] at h
  | fault htarget hc hk => simp [turn_exceptionalExit htarget] at h
  | @enter n htarget =>
      rw [turn_node htarget] at h
      rw [Edge.entered?_of_node htarget]
      split at h
      · contradiction
      · obtain rfl := Turn.go.inj h
        exact ht.cons n
  | next _ htarget =>
      rw [turn_segment htarget] at h
      obtain rfl := Turn.go.inj h
      simpa [Edge.entered?_of_segment htarget] using ht

end

/-! ## paths -/

/-- Edges followed one after the other from a block on, and the steps taken. -/
inductive Follows (f : Form) : BlockId → List PathStep → List Edge → Prop where
  | nil (id : BlockId) : Follows f id [] []
  | cons {id : BlockId} {b : Block} {k : Nat} {e : Edge} {steps : List PathStep}
      {edges : List Edge} (hb : f.block? id = some b) (he : b.successors[k]? = some e)
      (rest : Follows f e.target steps edges) : Follows f id (⟨id, k⟩ :: steps) (e :: edges)

/-- The blocks of the graph that edges enter, in order. -/
def entered (edges : List Edge) : List Nat := edges.filterMap Edge.entered?

/-- **The paths of a form**: they start at the entry, follow edges, enter no block of the graph
twice, and end with an edge to an exit or back to a block that was entered. -/
def Maximal (f : Form) (s : Skeleton) : Prop :=
  ∃ edges last, f.Follows .entry s.steps (edges ++ [last]) ∧ (entered edges).Nodup ∧
    last.Ends (entered edges) s.exit

/-- A form whose edges lead on as those of encoded graphs do. -/
structure Orderly (f : Form) : Prop where
  walkable : f.Walkable
  edges : ∀ b ∈ f.blocks, ∀ e ∈ b.successors, e.LeadsOn b.id
  exits : ∀ b ∈ f.blocks, b.id = .regularExit ∨ b.id = .exceptionalExit → b.successors = []

theorem entered_cons (e : Edge) (edges : List Edge) :
    entered (e :: edges) = e.entered?.toList ++ entered edges := by
  unfold entered
  cases h : e.entered? <;> simp [h]

theorem nodup_append_entered_iff :
    (before ++ e.entered?.toList).Nodup ↔ before.Nodup ∧ ∀ n ∈ e.entered?, n ∉ before := by
  cases e.entered? with
  | none => simp
  | some n => simp [List.nodup_append, List.forall_mem_ne']

variable {f : Form}

/-- Edges lead on. -/
theorem Orderly.leadsOn (hf : f.Orderly) {b : Block} (hb : f.block? id = some b) {k : Nat}
    (he : b.successors[k]? = some e) : e.LeadsOn id := by
  obtain ⟨hmem, rfl⟩ := of_block?_eq_some hb
  exact hf.edges b hmem e (List.mem_of_getElem? he)

/-- No path goes on from an exit. -/
theorem Orderly.ne_exit (hf : f.Orderly) (h : f.Follows id steps (e :: edges)) :
    id ≠ .regularExit ∧ id ≠ .exceptionalExit := by
  cases h with
  | cons hb he _ =>
      obtain ⟨hmem, rfl⟩ := of_block?_eq_some hb
      have hne := List.ne_nil_of_mem (List.mem_of_getElem? he)
      exact ⟨fun hid => hne (hf.exits _ hmem (Or.inl hid)),
        fun hid => hne (hf.exits _ hmem (Or.inr hid))⟩

theorem Orderly.ne_exit_of_append (hf : f.Orderly) {last : Edge}
    (h : f.Follows id steps (edges ++ [last])) :
    id ≠ .regularExit ∧ id ≠ .exceptionalExit := by
  cases edges with
  | nil => exact hf.ne_exit h
  | cons e edges => exact hf.ne_exit h

/-- **Trails are paths**: what is left of a path that has entered some blocks. -/
theorem Orderly.trail_iff (hf : f.Orderly) (ht : Tracks onPath before) (hbefore : before.Nodup)
    {exit : ExitKind} :
    Trail f onPath id steps exit ↔ ∃ edges last, f.Follows id steps (edges ++ [last]) ∧
      (before ++ entered edges).Nodup ∧ last.Ends (before ++ entered edges) exit := by
  constructor
  · intro h
    induction h generalizing before with
    | @leave onPath id b k e exit hb he hturn =>
        have hends := (turn_eq_leave_iff (hf.leadsOn hb he) ht).1 hturn
        exact ⟨[], e, .cons hb he (.nil _), by simpa [entered] using hbefore,
          by simpa [entered] using hends⟩
    | @go onPath onPath' id b k e steps exit hb he hturn _ ih =>
        have hleads := hf.leadsOn hb he
        have hnew := ((exists_go_iff hleads ht).1 ⟨_, hturn⟩).2.2
        obtain ⟨edges, last, hfollows, hnodup, hends⟩ :=
          ih (tracks_of_turn_eq_go hleads ht hturn) (nodup_append_entered_iff.2 ⟨hbefore, hnew⟩)
        rw [List.append_assoc, ← entered_cons] at hnodup hends
        exact ⟨e :: edges, last, .cons hb he hfollows, hnodup, hends⟩
  · rintro ⟨edges, last, hfollows, hnodup, hends⟩
    induction edges generalizing id steps onPath before with
    | nil =>
        cases hfollows with
        | cons hb he rest =>
            cases rest
            refine .leave hb he ((turn_eq_leave_iff (hf.leadsOn hb he) ht).2 ?_)
            simpa [entered] using hends
    | cons e edges ih =>
        cases hfollows with
        | @cons _ b k _ steps _ hb he rest =>
            have hleads := hf.leadsOn hb he
            rw [entered_cons, ← List.append_assoc] at hnodup hends
            have hfresh := (List.nodup_append.1 hnodup).1
            have hnew := (nodup_append_entered_iff.1 hfresh).2
            have hexit := hf.ne_exit_of_append rest
            obtain ⟨onPath', hturn⟩ := (exists_go_iff hleads ht).2 ⟨hexit.1, hexit.2, hnew⟩
            exact .go hb he hturn
              (ih (tracks_of_turn_eq_go hleads ht hturn) hfresh rest hnodup hends)

/-! ## progress -/

/-- A path is at a block, has left some blocks and entered some of the graph: it has left none
twice, and no segment before the ones before it. -/
structure Progress (entered : List Nat) (passed : List BlockId) (id : BlockId) : Prop where
  nodup : (id :: passed).Nodup
  earlier : ∀ n k, ⟨.node n, k + 1⟩ ∈ id :: passed → ⟨.node n, k⟩ ∈ passed
  starts : ∀ n, .node n ∈ id :: passed → n ∈ entered

theorem progress_entry : Progress [] [] .entry where
  nodup := List.nodup_singleton _
  earlier n k h := by simp [BlockId.entry] at h
  starts n h := by simp [BlockId.entry, BlockId.node] at h

/-- **Progress**: along an edge to no exit, which enters no block again, a path comes to a block
that it has not left before. -/
theorem Progress.step {entered : List Nat} {passed : List BlockId} (h : Progress entered passed id)
    (he : e.LeadsOn id) (hexit : e.target ≠ .regularExit ∧ e.target ≠ .exceptionalExit)
    (hnew : ∀ n ∈ e.entered?, n ∉ entered) :
    Progress (entered ++ e.entered?.toList) (id :: passed) e.target := by
  cases he with
  | returned htarget => exact absurd htarget hexit.1
  | thrown htarget => exact absurd htarget hexit.2
  | fault htarget => exact absurd htarget hexit.2
  | @enter n htarget =>
      rw [htarget, Edge.entered?_of_node htarget]
      have hn : n ∉ entered := hnew n (Edge.entered?_of_node htarget)
      refine ⟨List.nodup_cons.2 ⟨fun hmem => hn (h.starts n hmem), h.nodup⟩, fun m k hmem => ?_,
        fun m hmem => ?_⟩
      · refine List.mem_cons_of_mem id (h.earlier m k ((List.mem_cons.1 hmem).resolve_left ?_))
        simp [BlockId.node]
      · cases List.mem_cons.1 hmem with
        | inl heq => simp_all [BlockId.node]
        | inr hmem => exact List.mem_append_left _ (h.starts m hmem)
  | @next n hs htarget =>
      rw [htarget, Edge.entered?_of_segment htarget, Option.toList_none, List.append_nil]
      obtain ⟨index, segment⟩ := id
      obtain rfl : index = .node n := hs
      refine ⟨List.nodup_cons.2 ⟨fun hmem => ?_, h.nodup⟩, fun m k hmem => ?_, fun m hmem => ?_⟩
      · -- the path would have left this segment before
        exact (List.nodup_cons.1 h.nodup).1 (h.earlier n segment hmem)
      · cases List.mem_cons.1 hmem with
        | inl heq => simp_all
        | inr hmem => exact List.mem_cons_of_mem _ (h.earlier m k hmem)
      · refine h.starts m ((List.mem_cons.1 hmem).resolve_left ?_)
        simp [BlockId.node]

/-- A path leaves no block twice. -/
theorem Follows.length_le (hf : f.Orderly) {last : Edge} (h : f.Follows id steps (edges ++ [last]))
    {passed : List BlockId} (hprogress : Progress before passed id)
    (hpassed : passed ⊆ f.blocks.map (·.id)) (hnodup : (before ++ entered edges).Nodup) :
    passed.length + steps.length ≤ f.blocks.length := by
  induction edges generalizing id steps before passed with
  | nil =>
      cases h with
      | cons hb _ rest =>
          cases rest
          obtain ⟨hmem, rfl⟩ := of_block?_eq_some hb
          have hsub := List.cons_subset.2 ⟨List.mem_map_of_mem hmem, hpassed⟩
          simpa using (hprogress.nodup.subperm hsub).length_le
  | cons e edges ih =>
      cases h with
      | @cons _ b k _ steps _ hb he rest =>
          obtain ⟨hmem, rfl⟩ := of_block?_eq_some hb
          rw [entered_cons, ← List.append_assoc] at hnodup
          have hnew := (nodup_append_entered_iff.1 (List.nodup_append.1 hnodup).1).2
          have hstep := hprogress.step (hf.leadsOn hb he) (hf.ne_exit_of_append rest) hnew
          have hsub := List.cons_subset.2 ⟨List.mem_map_of_mem hmem, hpassed⟩
          have hle := ih rest hstep hsub hnodup
          simp only [List.length_cons] at hle ⊢
          omega

/-- Paths have no more steps than blocks. -/
theorem Maximal.length_le (hf : f.Orderly) {s : Skeleton} (hs : f.Maximal s) :
    s.steps.length ≤ f.blocks.length := by
  obtain ⟨edges, last, hfollows, hnodup, -⟩ := hs
  simpa using hfollows.length_le hf progress_entry (List.nil_subset _) hnodup

end Form

/-! ## encoded forms -/

theorem Lowering.leadsOn_of_lowerBlock {c : Lowering} {visible : List Slot}
    {source : MethodGraph.Block} {segments : List Block}
    (h : c.lowerBlock visible source = .ok segments) {b : Block} (hb : b ∈ segments) {e : Edge}
    (he : e ∈ b.successors) : e.LeadsOn b.id := by
  have hindex := index_of_mem_lowerBlock h hb
  obtain ⟨complete, last, rfl, hcomplete, hexits⟩ := split_lowerBlock h
  rcases List.mem_append.1 hb with hb | hb
  · obtain ⟨k, hk, rfl⟩ := List.getElem_of_mem hb
    have hends : c.EndsWith _ complete[k] := hcomplete.get (hcomplete.length_eq ▸ hk) hk
    rw [hends.edges] at he
    cases List.mem_cons.1 he with
    | inl heq =>
        obtain rfl := heq
        -- behind the last number the next segment takes the place of the first
        by_cases hwrap : (complete[k].id.segment + 1) % 65536 = 0
        · exact .enter (n := source.index) (by simp [BlockId.next, BlockId.node, hindex, hwrap])
        · have hsegment : complete[k].id.segment < 65536 := by
            have hget : (complete ++ [last])[k]? = some complete[k] := by
              rw [List.getElem?_append_left hk, List.getElem?_eq_getElem hk]
            rw [id_of_getElem?_lowerBlock h hget]
            exact Nat.mod_lt _ (by omega)
          refine .next hindex ?_
          rw [BlockId.next, hindex, Nat.mod_eq_of_lt (by omega)]
    | inr he =>
        obtain ⟨q, -, rfl⟩ := List.mem_map.1 he
        exact .fault rfl rfl rfl
  · obtain rfl := List.mem_singleton.1 hb
    generalize b.successors = edges at he hexits
    cases leftBy_of_exits hexits with
    | branch =>
        simp only [List.mem_cons, List.not_mem_nil, or_false] at he
        rcases he with rfl | rfl <;> exact .enter rfl
    | ret =>
        obtain rfl := List.mem_singleton.1 he
        exact .returned rfl
    | throw =>
        obtain rfl := List.mem_singleton.1 he
        exact .thrown rfl rfl
    | jump =>
        obtain rfl := List.mem_singleton.1 he
        exact .enter rfl
    | none =>
        obtain rfl := List.mem_singleton.1 he
        exact .returned rfl

namespace Form

variable {f : Form}

/-- Forms are orderly. -/
theorem orderly_of_ofGraph {lookup : SentenceLookup} {g : MethodGraph}
    (h : Form.ofGraph lookup g = .ok f) : f.Orderly where
  walkable := walkable_of_ofGraph h
  exits b hb hid := successors_of_exit h hb hid
  edges b hb e he := by
    obtain ⟨bare, preds, rfl, hbare⟩ := mem_blocks_of_ofGraph h hb
    obtain hentry | ⟨n, -, source, visible, segments, -, hs, hbare⟩ | rfl | rfl := hbare
    · obtain ⟨declared, rfl, -, -⟩ := Lowering.lowerEntry_eq_ok hentry
      obtain rfl := List.mem_singleton.1 he
      exact .enter rfl
    · exact Lowering.leadsOn_of_lowerBlock hs hbare he
    · contradiction
    · contradiction

theorem orderly_empty (m : MethodRef) : (Form.empty m).Orderly where
  walkable := walkable_empty m
  edges b hb e he := by
    simp only [Form.empty, List.mem_cons, List.not_mem_nil, or_false] at hb
    obtain rfl | rfl := hb
    · exact .returned (List.mem_singleton.1 he ▸ rfl)
    · contradiction
  exits b hb hid := by
    simp only [Form.empty, List.mem_cons, List.not_mem_nil, or_false] at hb
    obtain rfl | rfl := hb
    · rcases hid with hid | hid <;> contradiction
    · rfl

/-! ## the enumeration -/

/-- What is explored with enough fuel are the paths of the form. -/
theorem Orderly.mem_explore_iff (hf : f.Orderly) {fuel : Nat} (hfuel : f.blocks.length ≤ fuel)
    {s : Skeleton} : s ∈ f.explore fuel .entry [] ↔ f.Maximal s := by
  have htracks : Tracks [] [] := by simp [Tracks]
  have htrail : Trail f [] .entry s.steps s.exit ↔ f.Maximal s :=
    hf.trail_iff htracks List.nodup_nil
  constructor
  · exact fun hs => htrail.1 (trail_of_mem_explore hs)
  · exact fun hs => mem_explore_of_trail (htrail.2 hs) ((hs.length_le hf).trans hfuel)

end Form

namespace Skeleton

variable {a b : Skeleton}

/-- The order of paths by the edges that they follow. -/
def Before (a b : Skeleton) : Prop :=
  List.Lex (· < ·) (a.steps.map (·.edge)) (b.steps.map (·.edge))

theorem Precedes.before (h : a.Precedes b) : a.Before b := by
  obtain ⟨common, block, j, k, as, bs, hjk, ha, hb⟩ := h
  rw [Before, ha, hb, List.map_append, List.map_append]
  exact List.Lex.append_left _ (.rel hjk) _

/-- The order is asymmetric. -/
theorem Before.asymm (h : a.Before b) : ¬b.Before a :=
  Std.Asymm.asymm (r := List.Lex (· < ·)) _ _ h

theorem Before.ne (h : a.Before b) : a ≠ b := by
  rintro rfl
  exact h.asymm h

end Skeleton

namespace Form

variable {f : Form}

/-- Paths are found in order. -/
theorem pairwise_before_explore (f : Form) (fuel : Nat) (id : BlockId)
    (onPath : List BlockIndex) : (f.explore fuel id onPath).Pairwise Skeleton.Before :=
  (f.pairwise_precedes_explore fuel id onPath).imp Skeleton.Precedes.before

/-- More fuel than there are blocks makes no difference. -/
theorem Orderly.explore_eq (hf : f.Orderly) {fuel fuel' : Nat} (h : f.blocks.length ≤ fuel)
    (h' : f.blocks.length ≤ fuel') : f.explore fuel .entry [] = f.explore fuel' .entry [] := by
  have hnodup : ∀ fuel, (f.explore fuel .entry []).Nodup := fun fuel =>
    (f.pairwise_before_explore fuel .entry []).imp Skeleton.Before.ne
  have hperm := (List.perm_ext_iff_of_nodup (hnodup fuel) (hnodup fuel')).2 fun s => by
    rw [hf.mem_explore_iff h, hf.mem_explore_iff h']
  exact hperm.eq_of_pairwise (fun a b _ _ hab hba => absurd hba hab.asymm)
    (f.pairwise_before_explore fuel .entry []) (f.pairwise_before_explore fuel' .entry [])

/-- **Paths are enumerated exactly**: for the form of a graph, and for that of a method that is left
out, there is one list of all paths, ordered by their edges. An enumeration returns it if it is not
longer than allowed, and otherwise fails. The walk is bounded by the number of blocks: no way
through the form that enters no block twice has more steps, and with more fuel than that the walk
finds the same. -/
theorem paths_exact (hf : (∃ lookup g, Form.ofGraph lookup g = .ok f) ∨ ∃ m, f = Form.empty m) :
    (∃ all : List Skeleton, (∀ s, s ∈ all ↔ f.Maximal s) ∧
      all.Pairwise (fun s t => List.Lex (· < ·) (s.steps.map (·.edge)) (t.steps.map (·.edge))) ∧
      ∀ limit, f.paths limit =
        if all.length ≤ limit then .ok all else .error (.pathLimit f.method limit)) ∧
    (∀ steps edges, f.Follows .entry steps edges → (entered edges).Nodup →
      steps.length ≤ f.blocks.length) ∧
    ∀ limit fuel, f.blocks.length < fuel →
      (f.walk limit fuel .entry [] [] #[]).map Array.toList = f.paths limit := by
  have horderly : f.Orderly := by
    obtain ⟨lookup, g, h⟩ | ⟨m, rfl⟩ := hf
    · exact orderly_of_ofGraph h
    · exact orderly_empty m
  have hpaths := fun limit => (f.paths_eq_walk limit).trans
    (toList_walk_entry horderly.walkable limit (f.blocks.length + 1))
  refine ⟨⟨_, fun s => horderly.mem_explore_iff (Nat.le_succ _), f.pairwise_before_explore _ _ _,
    hpaths⟩, fun steps edges hfollows hnodup => ?_, fun limit fuel hfuel => ?_⟩
  · obtain rfl | ⟨edges, last, rfl⟩ := List.eq_nil_or_concat' edges
    · cases hfollows
      exact Nat.zero_le _
    · have hinit : (entered edges).Nodup := hnodup.sublist
        ((List.sublist_append_left edges [last]).filterMap _)
      simpa using hfollows.length_le horderly progress_entry (List.nil_subset _) hinit
  · rw [hpaths, toList_walk_entry horderly.walkable,
      horderly.explore_eq (Nat.le_of_lt hfuel) (Nat.le_succ _)]

end Form

namespace Sample.Weave

/-- A method with a loop. -/
def method : MethodRef :=
  .static (.named "Sample" "Loops" []) "Weave" [.array .int32, .bool] .void

def array : Variable := ⟨.parameter 0, .array .int32⟩
/-- Whether to enter the loop, and to stay in it. -/
def again : Variable := ⟨.parameter 1, .bool⟩

/-- A loop of two blocks that is entered at either of them; one of them can fault. -/
def graph : MethodGraph :=
  { method
    blocks := [
      { index := 0, instructions := [⟨0, .branch .ifTrue, none, [again]⟩], successors := [1, 2] },
      { index := 1
        instructions := [⟨1, .arrayLength, some ⟨.stack 0, .int32⟩, [array]⟩, ⟨2, .jump, none, []⟩]
        successors := [2] },
      { index := 2, instructions := [⟨3, .branch .ifTrue, none, [again]⟩], successors := [1, 3] },
      { index := 3, instructions := [⟨4, .ret, none, []⟩], successors := [] } ] }

/-- The form of the graph. -/
def form : Form := (Form.ofGraph (Program.empty.lookup none) graph).toOption.getD default

theorem form_eq : Form.ofGraph (Program.empty.lookup none) graph = .ok form := by decide

/-- The edges and the exits of the paths. -/
def outline : List (List Nat × ExitKind) :=
  [([0, 0, 0, 0, 0], .loopBound), ([0, 0, 0, 0, 1, 0], .returned),
    ([0, 0, 1], .fault .nullReference 1), ([0, 1, 0, 0, 0], .loopBound),
    ([0, 1, 0, 1], .fault .nullReference 1), ([0, 1, 1, 0], .returned)]

theorem outline_paths : (form.paths 6).map (·.map fun s => (s.steps.map (·.edge), s.exit)) =
    .ok outline := by decide

theorem paths_form : ∃ all, form.paths 6 = .ok all ∧ (∀ s, s ∈ all ↔ form.Maximal s) ∧
    all.map (fun s => (s.steps.map (·.edge), s.exit)) = outline ∧
    form.paths 5 = .error (.pathLimit form.method 5) := by
  obtain ⟨⟨all, hall, -, hpaths⟩, -⟩ :=
    Form.paths_exact (Or.inl ⟨Program.empty.lookup none, graph, form_eq⟩)
  have houtline := outline_paths
  rw [hpaths] at houtline
  split at houtline
  · next hle =>
      have hmap := Except.ok.inj houtline
      have hlength : all.length = 6 := by
        simpa [outline] using congrArg List.length hmap
      exact ⟨all, by rw [hpaths, if_pos hle], hall, hmap, by rw [hpaths, hlength]; rfl⟩
  · contradiction

end Sample.Weave

end Pathwise
