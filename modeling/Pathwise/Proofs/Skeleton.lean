import Mathlib.Data.List.Basic
import Pathwise.Coverage.Path

/-!
# Pathwise.Proofs.Skeleton

The paths of a form, in two views.

* `Form.explore` lists them by recursion on the edges, without limit and without
  an accumulator; an enumeration that succeeds returns exactly this list
  (`paths_eq_explore`).
* `Form.Trail` says what one path is: it follows edges until an edge leaves the
  method or leads back into a block of the graph that was entered before.

With enough fuel the two agree (`trail_of_mem_explore`, `mem_explore_of_trail`). Two
paths of one enumeration part at some block, which the earlier one leaves along an
earlier edge (`pairwise_precedes_explore`).
-/

namespace Pathwise

/-- A path behind the steps that lead to it. -/
def Skeleton.after (front : List PathStep) (s : Skeleton) : Skeleton :=
  { s with steps := front ++ s.steps }

@[simp]
theorem Skeleton.after_steps (front : List PathStep) (s : Skeleton) :
    (s.after front).steps = front ++ s.steps := rfl

@[simp]
theorem Skeleton.after_exit (front : List PathStep) (s : Skeleton) :
    (s.after front).exit = s.exit := rfl

namespace Form

variable {onPath : List BlockIndex} {steps : List PathStep} {f : Form} {id : BlockId}
  {exit : ExitKind} {limit : Nat}

/-! ## following an edge -/

/-- What an edge means for a path: it ends, or goes on with more blocks entered. -/
inductive Turn where
  | leave (exit : ExitKind)
  | go (onPath : List BlockIndex)

/-- Follow an edge on a path that has entered the blocks `onPath` of the graph. -/
def turn (onPath : List BlockIndex) (e : Edge) : Turn :=
  match e.target.index with
  | .regularExit => .leave .returned
  | .exceptionalExit => .leave (.ofCondition e.condition)
  | index =>
    if e.target.segment ≠ 0 then .go onPath
    else if index ∈ onPath then .leave .loopBound
    else .go (index :: onPath)

/-- The paths that go on from a block, as their remaining steps. -/
def explore (f : Form) : (fuel : Nat) → BlockId → List BlockIndex → List Skeleton
  | 0, _, _ => []
  | fuel + 1, id, onPath =>
    match f.block? id with
    | none => []
    | some b =>
      b.successors.zipIdx.flatMap fun (e, k) =>
        let onward : List Skeleton :=
          match turn onPath e with
          | .leave exit => [⟨[], exit⟩]
          | .go onPath => explore f fuel e.target onPath
        onward.map (Skeleton.after [⟨id, k⟩])

/-- A path from a block on: its steps and how it leaves the method. -/
inductive Trail (f : Form) : List BlockIndex → BlockId → List PathStep → ExitKind → Prop where
  | leave {onPath : List BlockIndex} {id : BlockId} {b : Block} {k : Nat} {e : Edge}
      {exit : ExitKind} (hb : f.block? id = some b) (he : b.successors[k]? = some e)
      (ht : turn onPath e = .leave exit) : Trail f onPath id [⟨id, k⟩] exit
  | go {onPath onPath' : List BlockIndex} {id : BlockId} {b : Block} {k : Nat} {e : Edge}
      {steps : List PathStep} {exit : ExitKind} (hb : f.block? id = some b)
      (he : b.successors[k]? = some e) (ht : turn onPath e = .go onPath')
      (rest : Trail f onPath' e.target steps exit) : Trail f onPath id (⟨id, k⟩ :: steps) exit

/-! ## the enumeration -/

/-- A loop that can fail and appends to an array at each step appends all in order. -/
theorem toList_of_foldlM_eq_ok {α β ε : Type} {step : Array β → α → Except ε (Array β)}
    {add : α → List β}
    (hstep : ∀ acc x out, step acc x = .ok out → out.toList = acc.toList ++ add x)
    {l : List α} {acc out : Array β} (h : l.foldlM step acc = .ok out) :
    out.toList = acc.toList ++ l.flatMap add := by
  induction l generalizing acc with
  | nil =>
      obtain rfl : acc = out := by simpa [pure, Except.pure] using h
      simp
  | cons x l ih =>
      rw [List.foldlM_cons] at h
      cases hx : step acc x with
      | error err =>
          rw [hx] at h
          contradiction
      | ok mid =>
          rw [hx] at h
          rw [ih h, hstep acc x mid hx, List.flatMap_cons, List.append_assoc]

theorem toList_of_finish_eq_ok {paths out : Array Skeleton}
    (h : f.finish limit paths steps exit = .ok out) :
    out.toList = paths.toList ++ [⟨steps.reverse, exit⟩] := by
  unfold finish at h
  split at h
  · contradiction
  · obtain rfl := Except.ok.inj h
    simp

/-- Complete a path, or continue the walk at the target of an edge. -/
def walkTurn (f : Form) (limit fuel : Nat) (target : BlockId) (steps : List PathStep)
    (paths : Array Skeleton) : Turn → Except CoverageError (Array Skeleton)
  | .leave exit => f.finish limit paths steps exit
  | .go onPath => f.walk limit fuel target steps onPath paths

theorem walk_succ {limit fuel : Nat} {b : Block} (hb : f.block? id = some b) (steps : List PathStep)
    (onPath : List BlockIndex) (paths : Array Skeleton) :
    f.walk limit (fuel + 1) id steps onPath paths = b.successors.zipIdx.foldlM
      (fun paths x => f.walkTurn limit fuel x.1.target (⟨id, x.2⟩ :: steps) paths
        (turn onPath x.1)) paths := by
  simp only [walk, hb]
  congr 1
  funext paths x
  obtain ⟨e, k⟩ := x
  unfold turn
  cases hi : e.target.index with
  | regularExit => rfl
  | exceptionalExit => rfl
  | _ =>
      simp only
      split
      · rfl
      · split <;> rfl

/-- A walk that succeeds adds the explored paths behind the steps that led to its start. -/
theorem toList_of_walk_eq_ok {limit fuel : Nat} {paths out : Array Skeleton}
    (h : f.walk limit fuel id steps onPath paths = .ok out) :
    out.toList = paths.toList ++
      (f.explore fuel id onPath).map (Skeleton.after steps.reverse) := by
  induction fuel generalizing id steps onPath paths out with
  | zero =>
      obtain rfl : paths = out := Except.ok.inj h
      simp [explore]
  | succ fuel ih =>
      cases hb : f.block? id with
      | none =>
          rw [walk, hb] at h
          contradiction
      | some b =>
          rw [walk_succ hb] at h
          simp only [explore, hb, List.map_flatMap]
          refine toList_of_foldlM_eq_ok ?_ h
          rintro acc ⟨e, k⟩ next hnext
          dsimp only at hnext ⊢
          cases hturn : turn onPath e with
          | leave exit =>
              rw [hturn] at hnext
              rw [toList_of_finish_eq_ok hnext]
              simp [Skeleton.after]
          | go onPath' =>
              rw [hturn] at hnext
              rw [ih hnext]
              simp [Skeleton.after]

/-- **The enumeration**: if it stays within the limit, it lists the explored paths in order. -/
theorem paths_eq_explore {ps : List Skeleton} (h : f.paths limit = .ok ps) :
    ps = f.explore (f.blocks.length + 1) .entry [] := by
  unfold paths at h
  cases hw : f.walk limit (f.blocks.length + 1) .entry [] [] #[] with
  | error err =>
      rw [hw] at h
      contradiction
  | ok out =>
      rw [hw] at h
      obtain rfl := Except.ok.inj h
      have hlist := toList_of_walk_eq_ok hw
      have hnil : Skeleton.after ([] : List PathStep) = id := rfl
      simpa [hnil] using hlist

/-! ## explored paths are trails -/

/-- Every explored path is a trail. -/
theorem trail_of_mem_explore {fuel : Nat} {s : Skeleton} (h : s ∈ f.explore fuel id onPath) :
    Trail f onPath id s.steps s.exit := by
  induction fuel generalizing id onPath s with
  | zero => simp [explore] at h
  | succ fuel ih =>
      unfold explore at h
      cases hb : f.block? id with
      | none =>
          rw [hb] at h
          simp at h
      | some b =>
          rw [hb] at h
          obtain ⟨⟨e, k⟩, hek, hs⟩ := List.mem_flatMap.1 h
          have he : b.successors[k]? = some e := List.mk_mem_zipIdx_iff_getElem?.1 hek
          obtain ⟨t, ht, rfl⟩ := List.mem_map.1 hs
          cases hturn : turn onPath e with
          | leave exit =>
              simp only [hturn, List.mem_singleton] at ht
              subst ht
              exact .leave hb he hturn
          | go onPath' =>
              simp only [hturn] at ht
              exact .go hb he hturn (ih ht)

/-- Every step of a trail follows an edge of its block. -/
theorem Trail.exists_edge (h : Trail f onPath id steps exit) {step : PathStep}
    (hstep : step ∈ steps) :
    ∃ b e, f.block? step.block = some b ∧ b.successors[step.edge]? = some e := by
  induction h with
  | leave hb he _ =>
      rw [List.mem_singleton.1 hstep]
      exact ⟨_, _, hb, he⟩
  | go hb he _ _ ih =>
      cases List.mem_cons.1 hstep with
      | inl heq =>
          rw [heq]
          exact ⟨_, _, hb, he⟩
      | inr hmem => exact ih hmem

/-- A trail is explored if there is fuel for its steps. -/
theorem mem_explore_of_trail (h : Trail f onPath id steps exit) {fuel : Nat}
    (hfuel : steps.length ≤ fuel) :
    ⟨steps, exit⟩ ∈ f.explore fuel id onPath := by
  induction h generalizing fuel with
  | @leave onPath id b k e exit hb he ht =>
      cases fuel with
      | zero => simp at hfuel
      | succ fuel =>
          simp only [explore, hb, List.mem_flatMap]
          refine ⟨(e, k), List.mk_mem_zipIdx_iff_getElem?.2 he,
            List.mem_map.2 ⟨⟨[], exit⟩, ?_, rfl⟩⟩
          simp [ht]
  | @go onPath onPath' id b k e steps exit hb he ht _ ih =>
      cases fuel with
      | zero => simp at hfuel
      | succ fuel =>
          have hrest := ih (Nat.le_of_succ_le_succ hfuel)
          simp only [explore, hb, List.mem_flatMap]
          refine ⟨(e, k), List.mk_mem_zipIdx_iff_getElem?.2 he,
            List.mem_map.2 ⟨⟨steps, exit⟩, ?_, rfl⟩⟩
          simpa [ht] using hrest

theorem trail_of_mem_paths {ps : List Skeleton} {s : Skeleton} (h : f.paths limit = .ok ps)
    (hs : s ∈ ps) : Trail f [] .entry s.steps s.exit := by
  rw [paths_eq_explore h] at hs
  exact trail_of_mem_explore hs

end Form

/-! ## different paths part -/

namespace Skeleton

variable {a b : Skeleton}

/-- Two paths go the same way up to a block that they leave along different edges. -/
def Forked (a b : Skeleton) : Prop :=
  ∃ common block j k as bs, j ≠ k ∧ a.steps = common ++ ⟨block, j⟩ :: as ∧
    b.steps = common ++ ⟨block, k⟩ :: bs

theorem Forked.symm (h : Forked a b) : Forked b a := by
  obtain ⟨common, block, j, k, as, bs, hjk, ha, hb⟩ := h
  exact ⟨common, block, k, j, bs, as, hjk.symm, hb, ha⟩

instance : Std.Symm Forked := ⟨fun _ _ h => h.symm⟩

/-- Two paths go the same way up to a block that the first one leaves along an earlier edge. -/
def Precedes (a b : Skeleton) : Prop :=
  ∃ common block j k as bs, j < k ∧ a.steps = common ++ ⟨block, j⟩ :: as ∧
    b.steps = common ++ ⟨block, k⟩ :: bs

theorem Precedes.forked (h : Precedes a b) : Forked a b := by
  obtain ⟨common, block, j, k, as, bs, hjk, ha, hb⟩ := h
  exact ⟨common, block, j, k, as, bs, Nat.ne_of_lt hjk, ha, hb⟩

theorem Precedes.after (h : Precedes a b) (front : List PathStep) :
    Precedes (a.after front) (b.after front) := by
  obtain ⟨common, block, j, k, as, bs, hjk, ha, hb⟩ := h
  exact ⟨front ++ common, block, j, k, as, bs, hjk, by simp [ha], by simp [hb]⟩

end Skeleton

namespace Form

/-- Paths are explored in the order of their edges. -/
theorem pairwise_precedes_explore (f : Form) (fuel : Nat) (id : BlockId)
    (onPath : List BlockIndex) : (f.explore fuel id onPath).Pairwise Skeleton.Precedes := by
  induction fuel generalizing id onPath with
  | zero => simp [explore]
  | succ fuel ih =>
      unfold explore
      cases f.block? id with
      | none => simp
      | some b =>
          simp only
          rw [List.pairwise_flatMap]
          constructor
          · rintro ⟨e, k⟩ -
            rw [List.pairwise_map]
            refine List.Pairwise.imp (fun h => Skeleton.Precedes.after h _) ?_
            simp only
            cases turn onPath e with
            | leave exit => simp
            | go onPath' => exact ih e.target onPath'
          · have hidx : b.successors.zipIdx.Pairwise fun x y => x.2 < y.2 := by
              rw [← List.pairwise_map, List.zipIdx_map_snd]
              exact List.pairwise_lt_range'
            refine hidx.imp ?_
            rintro ⟨e, j⟩ ⟨e', k⟩ hjk s hs t ht
            obtain ⟨s', -, rfl⟩ := List.mem_map.1 hs
            obtain ⟨t', -, rfl⟩ := List.mem_map.1 ht
            exact ⟨[], id, j, k, s'.steps, t'.steps, hjk, rfl, rfl⟩

/-- **Different paths part**: any two paths of one enumeration leave some block along different
edges. -/
theorem pairwise_forked_explore (f : Form) (fuel : Nat) (id : BlockId)
    (onPath : List BlockIndex) : (f.explore fuel id onPath).Pairwise Skeleton.Forked :=
  (f.pairwise_precedes_explore fuel id onPath).imp Skeleton.Precedes.forked

end Form

end Pathwise
