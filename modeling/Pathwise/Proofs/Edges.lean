import Pathwise.Form.OfGraph
import Std.Data.TreeMap.Lemmas
import Std.Data.TreeSet.Lemmas

/-!
# Pathwise.Proofs.Edges

The tables that the edges of a form are entered in. Looking into them is looking
through the blocks: `Form.withPredecessors_eq` for the predecessors that are
noted, and `Form.danglingEdge?_eq_none` for edges that lead nowhere.
-/

namespace Pathwise

/-- Dropping repeats leaves none. -/
theorem nodup_eraseDups {α : Type} [BEq α] [LawfulBEq α] (l : List α) : l.eraseDups.Nodup := by
  match l with
  | [] => exact List.nodup_nil
  | a :: l =>
      rw [List.eraseDups_cons, List.nodup_cons]
      exact ⟨by simp [List.mem_eraseDups], nodup_eraseDups _⟩
termination_by l.length
decreasing_by
  exact Nat.lt_succ_of_le (List.length_filter_le _ l)

/-! ## order of ids -/

/-- Ranks tell indices apart. -/
theorem BlockIndex.rank_inj {i j : BlockIndex} (h : i.rank = j.rank) : i = j := by
  cases i <;> cases j <;> simp_all [rank]

/-- Ids that compare as equal are equal. -/
theorem BlockId.eq_of_compare {a b : BlockId} (h : compare a b = .eq) : a = b := by
  change compareLex _ _ a b = .eq at h
  simp only [compareLex_eq_eq, compareOn, Nat.compare_eq_eq] at h
  obtain ⟨hkind, hnumber, hsegment⟩ := h
  have hindex := BlockIndex.rank_inj (Prod.ext hkind hnumber)
  cases a
  cases b
  simp_all

instance : Std.TransOrd BlockId := inferInstanceAs (Std.TransCmp (compareLex _ _))

instance : Std.LawfulEqOrd BlockId := ⟨BlockId.eq_of_compare⟩

namespace Form

/-! ## predecessors -/

/-- The blocks with an edge to a block. -/
def predecessorsOf (blocks : List Block) (id : BlockId) : List BlockId :=
  (blocks.filter fun b => b.successors.any (·.target = id)).map (·.id)

/-- Entering a block under the targets of its edges changes nothing for other ids. -/
theorem getD_foldl_alter (source : BlockId) {targets : List BlockId} (h : targets.Nodup)
    (table : Std.TreeMap BlockId (List BlockId)) (id : BlockId) :
    (targets.foldl (fun table id =>
      table.alter id fun ids => some (source :: ids.getD [])) table).getD id [] =
      if id ∈ targets then source :: table.getD id [] else table.getD id [] := by
  induction targets generalizing table with
  | nil => simp
  | cons target targets ih =>
      obtain ⟨hnot, hrest⟩ := List.nodup_cons.1 h
      rw [List.foldl_cons, ih hrest, Std.TreeMap.getD_alter]
      by_cases hid : target = id
      · subst hid
        simp [hnot, Std.TreeMap.getD_eq_getD_getElem?]
      · simp [hid, Ne.symm hid]

/-- Sources are gathered last first. -/
theorem getD_sources (blocks : List Block) (id : BlockId) :
    (sources blocks).getD id [] = (predecessorsOf blocks id).reverse := by
  suffices h : ∀ table : Std.TreeMap BlockId (List BlockId),
      (blocks.foldl (fun table b =>
        (b.successors.map (·.target)).eraseDups.foldl (fun table id =>
          table.alter id fun ids => some (b.id :: ids.getD [])) table) table).getD id [] =
        (predecessorsOf blocks id).reverse ++ table.getD id [] by
    simpa [sources] using h ∅
  induction blocks with
  | nil => simp [predecessorsOf]
  | cons b blocks ih =>
      intro table
      rw [List.foldl_cons, ih, getD_foldl_alter _ (nodup_eraseDups _)]
      have hmem : id ∈ (b.successors.map (·.target)).eraseDups ↔
          b.successors.any (·.target = id) := by
        simp [List.mem_eraseDups]
      by_cases hb : b.successors.any (·.target = id)
      · rw [if_pos (hmem.2 hb), predecessorsOf, predecessorsOf, List.filter_cons, if_pos hb]
        simp
      · rw [if_neg (mt hmem.1 hb), predecessorsOf, predecessorsOf, List.filter_cons, if_neg hb]

/-- The predecessors that are noted are the blocks with an edge to the block. -/
theorem withPredecessors_eq (blocks : List Block) :
    withPredecessors blocks =
      blocks.map fun b => { b with predecessors := predecessorsOf blocks b.id } := by
  simp [withPredecessors, getD_sources]

/-- Only predecessors are filled in. -/
theorem exists_of_mem_withPredecessors {blocks : List Block} {b : Block}
    (hb : b ∈ withPredecessors blocks) :
    ∃ bare ∈ blocks, ∃ predecessors, b = { bare with predecessors } := by
  obtain ⟨bare, hbare, rfl⟩ := List.mem_map.1 hb
  exact ⟨bare, hbare, _, rfl⟩

/-- Blocks keep their ids. -/
@[simp]
theorem ids_withPredecessors (blocks : List Block) :
    (withPredecessors blocks).map (·.id) = blocks.map (·.id) := by
  simp [withPredecessors]

/-! ## dangling edges -/

/-- No edge dangles if all lead to blocks. -/
theorem danglingEdge?_eq_none {blocks : List Block}
    (h : ∀ b ∈ blocks, ∀ e ∈ b.successors, ∃ b' ∈ blocks, b'.id = e.target) :
    danglingEdge? blocks = none := by
  simp only [danglingEdge?, List.findSome?_eq_none_iff, Option.map_eq_none_iff, List.find?_eq_none,
    Std.TreeSet.contains_ofList]
  intro b hb e he
  simpa using h b hb e he

end Form

end Pathwise
