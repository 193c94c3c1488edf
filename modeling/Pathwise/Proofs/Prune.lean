import Mathlib.Data.List.Induction
import Mathlib.Data.List.Nodup
import Pathwise.Coverage

/-!
# Pathwise.Proofs.Prune

Which groups `PathGroup.prune` keeps, said without the order in which it goes
through them: a group stays unless another group with the same exit asserts the
same and more, or an earlier one asserts exactly the same (`prune_eq_filter`).

Where overlapping groups are always equal, pruning therefore does no more than
drop repeats (`prune_eq_eraseDups`). In any case what it keeps cannot be compared,
and what it drops begins something that it keeps (`prune_keeps_maximal`).
-/

namespace Pathwise

namespace PathGroup

variable {groups : List PathGroup} {a : PathGroup} {i : Nat} {x y : Entry}

/-- Another group with the same exit asserts the same and more, or an earlier one asserts the
same. -/
def outdone (groups : List PathGroup) (a : PathGroup) (i : Nat) : Bool :=
  groups.zipIdx.any fun (b, j) =>
    b.exit = a.exit && a.assertions.isPrefixOf b.assertions &&
      (a.assertions ≠ b.assertions || j < i)

theorem outdone_eq_true_iff :
    outdone groups a i = true ↔
      ∃ b j, groups[j]? = some b ∧ b.exit = a.exit ∧ a.assertions <+: b.assertions ∧
        (a.assertions ≠ b.assertions ∨ j < i) := by
  simp only [outdone, List.any_eq_true, Prod.exists, List.mk_mem_zipIdx_iff_getElem?,
    Bool.and_eq_true, Bool.or_eq_true, decide_eq_true_eq, List.isPrefixOf_iff_prefix, and_assoc]

/-! ## one pass over sorted groups -/

/-- What `accept` goes through: a group with its assertions, and its position. -/
abbrev Entry := (PathGroup × List Line) × Nat

/-- Against a group with at least as many assertions, overlapping is being a beginning of it. -/
theorem overlaps_iff_of_length_le {x y : PathGroup × List Line} (h : x.2.length ≤ y.2.length) :
    overlaps x.1.exit x.2 y = true ↔ y.1.exit = x.1.exit ∧ x.2 <+: y.2 := by
  simp only [overlaps, Bool.and_eq_true, Bool.or_eq_true, decide_eq_true_eq,
    List.isPrefixOf_iff_prefix]
  constructor
  · rintro ⟨hexit, hxy | hyx⟩
    · exact ⟨hexit, hxy⟩
    · have heq : y.2 = x.2 := hyx.eq_of_length_le h
      exact ⟨hexit, heq ▸ List.prefix_rfl⟩
  · rintro ⟨hexit, hxy⟩
    exact ⟨hexit, Or.inl hxy⟩

/-- What overlaps with a group that a longer one has replaced overlaps with that one too. -/
theorem overlaps_trans {x y z : PathGroup × List Line} (hxy : x.2.length ≤ y.2.length)
    (hyz : y.2.length ≤ z.2.length) (h₁ : overlaps x.1.exit x.2 y = true)
    (h₂ : overlaps y.1.exit y.2 z = true) : overlaps x.1.exit x.2 z = true := by
  obtain ⟨he₁, hp₁⟩ := (overlaps_iff_of_length_le hxy).1 h₁
  obtain ⟨he₂, hp₂⟩ := (overlaps_iff_of_length_le hyz).1 h₂
  exact (overlaps_iff_of_length_le (Nat.le_trans hxy hyz)).2 ⟨he₂.trans he₁, hp₁.trans hp₂⟩

/-- The order in which `accept` goes through entries: those with more assertions first, and of
equally many the earlier one. -/
def Before (a b : Entry) : Prop :=
  b.1.2.length < a.1.2.length ∨ b.1.2.length = a.1.2.length ∧ a.2 < b.2

theorem Before.asymm {a b : Entry} (h : Before a b) : ¬ Before b a := by
  unfold Before at *
  omega

theorem Before.length_le {a b : Entry} (h : Before a b) : b.1.2.length ≤ a.1.2.length := by
  unfold Before at h
  omega

/-- `accept` keeps an entry if it overlaps with none before it, kept or not. -/
theorem mem_accept {l kept : List Entry} (hl : l.Pairwise Before)
    (hk : ∀ k ∈ kept, ∀ a ∈ l, a.1.2.length ≤ k.1.2.length) :
    x ∈ accept kept l ↔ x ∈ kept ∨ x ∈ l ∧
      (∀ k ∈ kept, overlaps x.1.1.exit x.1.2 k.1 = false) ∧
      ∀ y ∈ l, Before y x → overlaps x.1.1.exit x.1.2 y.1 = false := by
  induction l generalizing kept with
  | nil => simp [accept]
  | cons g rest ih =>
      obtain ⟨hg, hrest⟩ := List.pairwise_cons.1 hl
      unfold accept
      split
      · next hany =>
          obtain ⟨k, hkm, hgk⟩ := List.any_eq_true.1 hany
          rw [ih hrest fun k hk' a ha => hk k hk' a (List.mem_cons_of_mem g ha)]
          refine or_congr_right ⟨?_, ?_⟩
          · rintro ⟨hx, hkept, hbefore⟩
            refine ⟨List.mem_cons_of_mem g hx, hkept, fun y hy hyx => ?_⟩
            rcases List.mem_cons.1 hy with rfl | hy
            · -- `y` is dropped because of `k`, which overlaps with whatever `y` overlaps with
              rw [← Bool.not_eq_true]
              intro hxy
              have hxk := overlaps_trans hyx.length_le (hk k hkm y List.mem_cons_self) hxy hgk
              rw [hkept k hkm] at hxk
              contradiction
            · exact hbefore y hy hyx
          · rintro ⟨hx, hkept, hbefore⟩
            rcases List.mem_cons.1 hx with rfl | hx
            · rw [hkept k hkm] at hgk
              contradiction
            · exact ⟨hx, hkept, fun y hy => hbefore y (List.mem_cons_of_mem g hy)⟩
      · next hany =>
          have hnone : ∀ k ∈ kept, overlaps g.1.1.exit g.1.2 k.1 = false := by
            intro k hkm
            rw [← Bool.not_eq_true]
            exact fun h => hany (List.any_eq_true.2 ⟨k, hkm, h⟩)
          have hlong : ∀ k ∈ g :: kept, ∀ a ∈ rest, a.1.2.length ≤ k.1.2.length :=
            List.forall_mem_cons.2 ⟨fun a ha => (hg a ha).length_le,
              fun k hkm a ha => hk k hkm a (List.mem_cons_of_mem g ha)⟩
          rw [ih hrest hlong]
          constructor
          · rintro (hx | ⟨hx, hkept, hbefore⟩)
            · rcases List.mem_cons.1 hx with rfl | hx
              · refine Or.inr ⟨List.mem_cons_self, hnone, fun y hy hyx => ?_⟩
                rcases List.mem_cons.1 hy with rfl | hy
                · exact absurd hyx hyx.asymm
                · exact absurd hyx (hg y hy).asymm
              · exact Or.inl hx
            · obtain ⟨hxg, hkept⟩ := List.forall_mem_cons.1 hkept
              exact Or.inr ⟨List.mem_cons_of_mem g hx, hkept,
                List.forall_mem_cons.2 ⟨fun _ => hxg, hbefore⟩⟩
          · rintro (hx | ⟨hx, hkept, hbefore⟩)
            · exact Or.inl (List.mem_cons_of_mem g hx)
            · obtain ⟨hxg, hbefore⟩ := List.forall_mem_cons.1 hbefore
              rcases List.mem_cons.1 hx with rfl | hx
              · exact Or.inl List.mem_cons_self
              · exact Or.inr ⟨hx, List.forall_mem_cons.2 ⟨hxg (hg x hx), hkept⟩, hbefore⟩

theorem subset_accept (kept l : List Entry) : kept ⊆ accept kept l := by
  induction l generalizing kept with
  | nil => exact List.Subset.refl kept
  | cons g rest ih =>
      unfold accept
      split
      · exact ih kept
      · exact List.Subset.trans (List.subset_cons_self g kept) (ih (g :: kept))

/-- What `accept` drops overlaps with something at least as long that it keeps. -/
theorem exists_accepted {l kept : List Entry} (hl : l.Pairwise Before)
    (hk : ∀ k ∈ kept, ∀ a ∈ l, a.1.2.length ≤ k.1.2.length) (hx : x ∈ l) :
    ∃ k ∈ accept kept l, x.1.2.length ≤ k.1.2.length ∧ overlaps x.1.1.exit x.1.2 k.1 = true := by
  induction l generalizing kept with
  | nil => contradiction
  | cons g rest ih =>
      obtain ⟨hg, hrest⟩ := List.pairwise_cons.1 hl
      have hkept : ∀ k ∈ kept, ∀ a ∈ rest, a.1.2.length ≤ k.1.2.length :=
        fun k hkm a ha => hk k hkm a (List.mem_cons_of_mem g ha)
      unfold accept
      split
      · next hany =>
          cases List.mem_cons.1 hx with
          | inl heq =>
              obtain ⟨k, hkm, hov⟩ := List.any_eq_true.1 hany
              exact ⟨k, subset_accept kept rest hkm, hk k hkm x hx, heq ▸ hov⟩
          | inr hx => exact ih hrest hkept hx
      · cases List.mem_cons.1 hx with
        | inl heq =>
            refine ⟨g, subset_accept (g :: kept) rest List.mem_cons_self,
              Nat.le_of_eq (by rw [heq]), ?_⟩
            rw [heq, overlaps_iff_of_length_le (Nat.le_refl _)]
            exact ⟨rfl, List.prefix_rfl⟩
        | inr hx =>
            exact ih hrest (List.forall_mem_cons.2 ⟨fun a ha => (hg a ha).length_le, hkept⟩) hx

/-! ## the sorted groups -/

/-- Groups with their assertions and positions. -/
def entries (groups : List PathGroup) : List Entry :=
  (groups.map fun g => (g, g.assertions)).zipIdx

/-- The entries, those with the most assertions first. -/
def longestFirst (groups : List PathGroup) : List Entry :=
  (entries groups).mergeSort fun a b => b.1.2.length ≤ a.1.2.length

theorem mem_entries_iff :
    x ∈ entries groups ↔ groups[x.2]? = some x.1.1 ∧ x.1.2 = x.1.1.assertions := by
  rw [entries, List.mem_zipIdx_iff_getElem?, List.getElem?_map, Option.map_eq_some_iff]
  constructor
  · rintro ⟨g, hg, heq⟩
    rw [← heq]
    exact ⟨hg, rfl⟩
  · rintro ⟨hg, heq⟩
    exact ⟨x.1.1, hg, Prod.ext rfl heq.symm⟩

theorem eq_of_snd_eq (hx : x ∈ entries groups) (hy : y ∈ entries groups) (h : x.2 = y.2) :
    x = y := by
  obtain ⟨hgx, hsx⟩ := mem_entries_iff.1 hx
  obtain ⟨hgy, hsy⟩ := mem_entries_iff.1 hy
  have hg : x.1.1 = y.1.1 := Option.some.inj (hgx.symm.trans (h ▸ hgy))
  exact Prod.ext (Prod.ext hg (by rw [hsx, hsy, hg])) h

theorem nodup_entries (groups : List PathGroup) : (entries groups).Nodup := by
  apply List.Nodup.of_map Prod.snd
  rw [entries, List.zipIdx_map_snd]
  exact List.nodup_range'

theorem nodup_longestFirst (groups : List PathGroup) : (longestFirst groups).Nodup :=
  (List.mergeSort_perm _ _).nodup_iff.2 (nodup_entries groups)

/-- Sorting is stable: of two groups with equally many assertions the earlier one stays first. -/
theorem pair_sublist_longestFirst (hx : x ∈ entries groups) (hy : y ∈ entries groups)
    (hxy : x.2 < y.2) (hlen : y.1.2.length ≤ x.1.2.length) :
    [x, y].Sublist (longestFirst groups) := by
  apply List.pair_sublist_mergeSort (by simp only [decide_eq_true_eq]; omega) (by simp; omega)
    (by simpa using hlen)
  have hgx : (entries groups)[x.2]? = some x := by
    rw [entries] at hx ⊢
    rw [List.getElem?_zipIdx, List.mem_zipIdx_iff_getElem?.1 hx]
    simp
  have hgy : (entries groups)[y.2]? = some y := by
    rw [entries] at hy ⊢
    rw [List.getElem?_zipIdx, List.mem_zipIdx_iff_getElem?.1 hy]
    simp
  have hxt : x ∈ (entries groups).take y.2 :=
    List.mem_of_getElem? (i := x.2) (by rw [List.getElem?_take_of_lt hxy]; exact hgx)
  have hyd : y ∈ (entries groups).drop y.2 :=
    List.mem_of_getElem? (i := 0) (by rw [List.getElem?_drop]; simpa using hgy)
  rw [← List.take_append_drop y.2 (entries groups)]
  exact (List.singleton_sublist.2 hxt).append (List.singleton_sublist.2 hyd)

/-- In a list without repeats two elements come in one order only. -/
theorem not_pair_sublist_swap {l : List Entry} (hl : l.Nodup) (h : [x, y].Sublist l) :
    ¬ [y, x].Sublist l := by
  intro h'
  induction l with
  | nil => exact absurd (h.subset List.mem_cons_self) List.not_mem_nil
  | cons a l ih =>
      obtain ⟨ha, hnodup⟩ := List.nodup_cons.1 hl
      obtain hxy | ⟨r, hr, hy⟩ := List.sublist_cons_iff.1 h
      · obtain hyx | ⟨r, hr, -⟩ := List.sublist_cons_iff.1 h'
        · exact ih hnodup hxy hyx
        · obtain ⟨rfl, -⟩ := List.cons.inj hr
          exact ha (hxy.subset (by simp))
      · obtain ⟨rfl, rfl⟩ := List.cons.inj hr
        obtain hyx | ⟨r, hr, -⟩ := List.sublist_cons_iff.1 h'
        · exact ha (hyx.subset (by simp))
        · obtain ⟨rfl, -⟩ := List.cons.inj hr
          exact ha (hy.subset (by simp))

theorem pairwise_before_longestFirst (groups : List PathGroup) :
    (longestFirst groups).Pairwise Before := by
  have hsorted := @List.pairwise_mergeSort Entry (fun a b => b.1.2.length ≤ a.1.2.length)
    (by simp only [decide_eq_true_eq]; omega) (by simp; omega) (entries groups)
  rw [List.pairwise_iff_forall_sublist] at hsorted ⊢
  intro x y hxy
  have hlen : y.1.2.length ≤ x.1.2.length := of_decide_eq_true (hsorted hxy)
  have hentry : ∀ z ∈ [x, y], z ∈ entries groups := fun z hz => List.mem_mergeSort.1 (hxy.subset hz)
  have hx := hentry x (by simp)
  have hy := hentry y (by simp)
  by_contra hbefore
  have hle : x.1.2.length ≤ y.1.2.length ∧ y.2 ≤ x.2 := by
    unfold Before at hbefore
    omega
  obtain heq | hlt := Nat.eq_or_lt_of_le hle.2
  · have hsame : y = x := eq_of_snd_eq hy hx heq
    rw [hsame] at hxy
    simpa using (nodup_longestFirst groups).sublist hxy
  · exact not_pair_sublist_swap (nodup_longestFirst groups) hxy
      (pair_sublist_longestFirst hy hx hlt hle.1)

/-! ## what is kept -/

/-- An entry is kept exactly if it overlaps with none before it. -/
theorem mem_accept_longestFirst :
    x ∈ accept [] (longestFirst groups) ↔ x ∈ entries groups ∧
      ∀ y ∈ entries groups, Before y x → overlaps x.1.1.exit x.1.2 y.1 = false := by
  rw [mem_accept (pairwise_before_longestFirst groups) (by simp)]
  simp [longestFirst, List.mem_mergeSort]

/-- A group whose assertions begin those of another comes after it if it asserts less, or stands
later. -/
theorem before_iff_of_begins {a b : PathGroup} {i j : Nat} (h : a.assertions <+: b.assertions) :
    Before ((b, b.assertions), j) ((a, a.assertions), i) ↔
      a.assertions ≠ b.assertions ∨ j < i := by
  have hlen := h.length_le
  have heq : a.assertions = b.assertions ↔ a.assertions.length = b.assertions.length :=
    ⟨congrArg List.length, h.eq_of_length⟩
  simp only [Before, ne_eq, heq]
  omega

/-- The position of a group is kept exactly if the group is not outdone. -/
theorem mem_kept_iff (ha : groups[i]? = some a) :
    i ∈ (accept [] (longestFirst groups)).map (·.2) ↔ outdone groups a i = false := by
  have hx : ((a, a.assertions), i) ∈ entries groups := mem_entries_iff.2 ⟨ha, rfl⟩
  rw [← Bool.not_eq_true, outdone_eq_true_iff]
  constructor
  · rintro hkept ⟨b, j, hb, hexit, hpre, hless⟩
    obtain ⟨x, hxk, hi⟩ := List.mem_map.1 hkept
    obtain ⟨hxe, hnone⟩ := mem_accept_longestFirst.1 hxk
    obtain rfl : x = ((a, a.assertions), i) := eq_of_snd_eq hxe hx hi
    have hno := hnone _ (mem_entries_iff.2 ⟨hb, rfl⟩) ((before_iff_of_begins hpre).2 hless)
    rw [(overlaps_iff_of_length_le hpre.length_le).2 ⟨hexit, hpre⟩] at hno
    contradiction
  · intro hout
    refine List.mem_map.2 ⟨_, mem_accept_longestFirst.2 ⟨hx, ?_⟩, rfl⟩
    rintro ⟨⟨b, bs⟩, j⟩ hy hbefore
    obtain ⟨hb, hbs⟩ := mem_entries_iff.1 hy
    obtain rfl : bs = b.assertions := hbs
    rw [← Bool.not_eq_true]
    intro hov
    obtain ⟨hexit, hpre⟩ := (overlaps_iff_of_length_le hbefore.length_le).1 hov
    exact hout ⟨b, j, hb, hexit, hpre, (before_iff_of_begins hpre).1 hbefore⟩

/-- **What pruning keeps**: the groups that are not outdone, in their order. -/
theorem prune_eq_filter (groups : List PathGroup) :
    prune groups =
      (groups.zipIdx.filter fun g => !outdone groups g.1 g.2).map (·.1) := by
  change (groups.zipIdx.filter fun g => g.2 ∈ (accept [] (longestFirst groups)).map (·.2)).map
    (·.1) = _
  congr 1
  apply List.filter_congr
  rintro ⟨a, i⟩ hai
  have hiff := mem_kept_iff (List.mk_mem_zipIdx_iff_getElem?.1 hai)
  by_cases hout : outdone groups a i = true
  · have hni : i ∉ (accept [] (longestFirst groups)).map (·.2) := by
      rw [hiff, hout]
      simp
    simp only [hout, Bool.not_true, hni, decide_false]
  · rw [Bool.not_eq_true] at hout
    have hin := hiff.2 hout
    simp only [hout, Bool.not_false, hin, decide_true]

/-! ## pruning without loss -/

/-- Dropping repeats keeps each element where it comes first. -/
theorem eraseDups_eq_filter (l : List PathGroup) :
    l.eraseDups = (l.zipIdx.filter fun g => g.1 ∉ l.take g.2).map (·.1) := by
  induction l using List.reverseRecOn with
  | nil => rfl
  | append_singleton l a ih =>
      have hfront : (l.zipIdx.filter fun g => g.1 ∉ (l ++ [a]).take g.2) =
          l.zipIdx.filter fun g => g.1 ∉ l.take g.2 := by
        apply List.filter_congr
        rintro ⟨b, j⟩ hb
        have hj : j < l.length := by simpa using List.snd_lt_of_mem_zipIdx hb
        simp only [List.take_append_of_le_length (Nat.le_of_lt hj)]
      rw [List.eraseDups_append, ih, List.zipIdx_append, List.filter_append, List.map_append,
        hfront]
      by_cases ha : a ∈ l
      · simp [List.removeAll, ha]
      · simp [List.removeAll, ha, List.eraseDups_cons]

/-- Two groups with the same exit, of which one asserts what the other begins with, are equal. -/
def Separated (groups : List PathGroup) : Prop :=
  ∀ a ∈ groups, ∀ b ∈ groups, a.exit = b.exit → a.assertions <+: b.assertions → a = b

/-- **Pruning without loss**: where overlapping groups are equal, only repeats are dropped. -/
theorem prune_eq_eraseDups (h : Separated groups) :
    prune groups = groups.eraseDups := by
  rw [prune_eq_filter, eraseDups_eq_filter]
  congr 1
  apply List.filter_congr
  rintro ⟨a, i⟩ hai
  have ha : groups[i]? = some a := List.mk_mem_zipIdx_iff_getElem?.1 hai
  have hiff : outdone groups a i = true ↔ a ∈ groups.take i := by
    rw [outdone_eq_true_iff, List.mem_take_iff_getElem]
    constructor
    · rintro ⟨b, j, hb, hexit, hpre, hless⟩
      have hab : a = b :=
        h a (List.mem_of_getElem? ha) b (List.mem_of_getElem? hb) hexit.symm hpre
      subst hab
      obtain ⟨hj, hget⟩ := List.getElem?_eq_some_iff.1 hb
      exact ⟨j, Nat.lt_min.2 ⟨hless.resolve_left fun hne => hne rfl, hj⟩, hget⟩
    · rintro ⟨j, hj, hget⟩
      obtain ⟨hji, hjl⟩ := Nat.lt_min.1 hj
      exact ⟨a, j, List.getElem?_eq_some_iff.2 ⟨hjl, hget⟩, rfl, List.prefix_rfl, Or.inr hji⟩
  by_cases hin : a ∈ groups.take i
  · simp [hiff.2 hin, hin]
  · have hout : outdone groups a i = false := by
      rw [← Bool.not_eq_true, hiff]
      exact hin
    simp [hout, hin]

/-! ## the kept groups -/

/-- The positions of the groups that are not outdone. -/
def keptPositions (groups : List PathGroup) : List Nat :=
  (groups.zipIdx.filter fun g => !outdone groups g.1 g.2).map (·.2)

theorem mem_keptPositions_iff (ha : groups[i]? = some a) :
    i ∈ keptPositions groups ↔ outdone groups a i = false := by
  simp only [keptPositions, List.mem_map, List.mem_filter, Prod.exists, exists_eq_right,
    List.mk_mem_zipIdx_iff_getElem?, Bool.not_eq_true']
  constructor
  · rintro ⟨b, hb, hout⟩
    rwa [Option.some.inj (ha.symm.trans hb)]
  · exact fun hout => ⟨a, ha, hout⟩

theorem pairwise_keptPositions (groups : List PathGroup) :
    (keptPositions groups).Pairwise (· < ·) := by
  have hsnd : (groups.zipIdx.map (·.2)).Pairwise (· < ·) := by
    rw [List.zipIdx_map_snd]
    exact List.pairwise_lt_range'
  exact hsnd.sublist (List.filter_sublist.map _)

theorem map_some_prune (groups : List PathGroup) :
    (prune groups).map some = (keptPositions groups).map (groups[·]?) := by
  rw [prune_eq_filter, keptPositions, List.map_map, List.map_map]
  refine List.map_congr_left fun g hg => ?_
  exact (List.mem_zipIdx_iff_getElem?.1 (List.mem_filter.1 hg).1).symm

/-- **Nothing is lost**: every group begins one that is kept. -/
theorem exists_kept (ha : groups[i]? = some a) :
    ∃ j ∈ keptPositions groups, ∃ b, groups[j]? = some b ∧ b.exit = a.exit ∧
      a.assertions <+: b.assertions := by
  have hmem : ((a, a.assertions), i) ∈ longestFirst groups :=
    List.mem_mergeSort.2 (mem_entries_iff.2 ⟨ha, rfl⟩)
  obtain ⟨k, hk, hlen, hov⟩ :=
    exists_accepted (pairwise_before_longestFirst groups)
      (fun k hk => absurd hk List.not_mem_nil) hmem
  obtain ⟨hget, hassert⟩ := mem_entries_iff.1 (mem_accept_longestFirst.1 hk).1
  obtain ⟨hexit, hbegins⟩ := (overlaps_iff_of_length_le hlen).1 hov
  have hkept := (mem_kept_iff hget).1 (List.mem_map_of_mem hk)
  exact ⟨k.2, (mem_keptPositions_iff hget).2 hkept, k.1.1, hget, hexit, hassert ▸ hbegins⟩

/-- Two groups with the same exit of which neither asserts what the other begins with. -/
def Incomparable (a b : PathGroup) : Prop :=
  a.exit = b.exit → ¬a.assertions <+: b.assertions ∧ ¬b.assertions <+: a.assertions

theorem incomparable_of_not_outdone {a b : PathGroup} {i j : Nat} (ha : groups[i]? = some a)
    (hb : groups[j]? = some b) (hij : i < j) (hna : outdone groups a i = false)
    (hnb : outdone groups b j = false) : Incomparable a b := by
  rw [← Bool.not_eq_true, outdone_eq_true_iff] at hna hnb
  intro hexit
  constructor
  · intro hpre
    by_cases heq : a.assertions = b.assertions
    · exact hnb ⟨a, i, ha, hexit, heq ▸ List.prefix_rfl, Or.inr hij⟩
    · exact hna ⟨b, j, hb, hexit.symm, hpre, Or.inl heq⟩
  · intro hpre
    exact hnb ⟨a, i, ha, hexit, hpre, Or.inr hij⟩

theorem pairwise_incomparable_prune (groups : List PathGroup) :
    (prune groups).Pairwise Incomparable := by
  rw [prune_eq_filter, List.pairwise_map]
  have hidx : groups.zipIdx.Pairwise fun x y => x.2 < y.2 := by
    rw [← List.pairwise_map, List.zipIdx_map_snd]
    exact List.pairwise_lt_range'
  refine (hidx.filter _).imp_of_mem fun {x y} hx hy hxy => ?_
  obtain ⟨hx, hnx⟩ := List.mem_filter.1 hx
  obtain ⟨hy, hny⟩ := List.mem_filter.1 hy
  exact incomparable_of_not_outdone (List.mem_zipIdx_iff_getElem?.1 hx)
    (List.mem_zipIdx_iff_getElem?.1 hy) hxy (by simpa using hnx) (by simpa using hny)

/-- Where no two groups can be compared, all are kept. -/
theorem prune_eq_self (h : groups.Pairwise Incomparable) :
    prune groups = groups := by
  have hall : ∀ g ∈ groups.zipIdx, (!outdone groups g.1 g.2) = true := by
    rintro ⟨a, i⟩ hai
    obtain ⟨hi, rfl⟩ := List.getElem?_eq_some_iff.1 (List.mk_mem_zipIdx_iff_getElem?.1 hai)
    rw [Bool.not_eq_true', ← Bool.not_eq_true, outdone_eq_true_iff]
    rintro ⟨b, j, hb, hexit, hpre, hless⟩
    obtain ⟨hj, rfl⟩ := List.getElem?_eq_some_iff.1 hb
    rw [List.pairwise_iff_getElem] at h
    obtain hij | rfl | hji := Nat.lt_trichotomy i j
    · exact (h i j hi hj hij hexit.symm).1 hpre
    · exact hless.elim (fun hne => hne rfl) (Nat.lt_irrefl i)
    · exact (h j i hj hi hji hexit).2 hpre
  rw [prune_eq_filter, List.filter_eq_self.2 hall, List.zipIdx_map_fst]

/-- One group asserts what another does, and then more. -/
def StrictlyExtends (b a : PathGroup) : Prop :=
  ∃ more, more ≠ [] ∧ b.assertions = a.assertions ++ more

theorem outdone_eq_false_iff :
    outdone groups a i = false ↔
      (¬∃ b ∈ groups, b.exit = a.exit ∧ b.StrictlyExtends a) ∧
      ¬∃ j < i, ∃ b, groups[j]? = some b ∧ b.exit = a.exit ∧ b.assertions = a.assertions := by
  rw [← Bool.not_eq_true, outdone_eq_true_iff, ← not_or, not_iff_not]
  constructor
  · rintro ⟨b, j, hb, hexit, ⟨more, hmore⟩, hless⟩
    by_cases hnil : more = []
    · have heq : b.assertions = a.assertions := by rw [← hmore, hnil, List.append_nil]
      exact Or.inr ⟨j, hless.resolve_left fun hne => hne heq.symm, b, hb, hexit, heq⟩
    · exact Or.inl ⟨b, List.mem_of_getElem? hb, hexit, more, hnil, hmore.symm⟩
  · rintro (⟨b, hb, hexit, more, hmore, heq⟩ | ⟨j, hj, b, hb, hexit, heq⟩)
    · obtain ⟨j, hj⟩ := List.mem_iff_getElem?.1 hb
      refine ⟨b, j, hj, hexit, ⟨more, heq.symm⟩, Or.inl fun hsame => hmore ?_⟩
      exact List.append_right_eq_self.1 (heq.symm.trans hsame.symm)
    · exact ⟨b, j, hb, hexit, heq ▸ List.prefix_rfl, Or.inr hj⟩

/-- **Pruning keeps exactly the maximal groups**: the group at a position is kept if and only if no
group with the same exit strictly extends it and no earlier one with the same exit asserts the same.
What is kept stays in order and cannot be compared, what is dropped begins a kept group with the
same exit, and pruning again changes nothing. -/
theorem prune_keeps_maximal (groups : List PathGroup) :
    (∃ kept : List Nat, kept.Pairwise (· < ·) ∧
      (prune groups).map some = kept.map (groups[·]?) ∧
      (∀ i a, groups[i]? = some a →
        (i ∈ kept ↔ (¬∃ b ∈ groups, b.exit = a.exit ∧ b.StrictlyExtends a) ∧
          ¬∃ j < i, ∃ b, groups[j]? = some b ∧ b.exit = a.exit ∧ b.assertions = a.assertions)) ∧
      ∀ i a, groups[i]? = some a → i ∉ kept →
        ∃ j ∈ kept, ∃ b, groups[j]? = some b ∧ b.exit = a.exit ∧ a.assertions <+: b.assertions) ∧
    (prune groups).Pairwise (fun a b => a.exit = b.exit →
      ¬a.assertions <+: b.assertions ∧ ¬b.assertions <+: a.assertions) ∧
    prune (prune groups) = prune groups := by
  refine ⟨⟨keptPositions groups, pairwise_keptPositions groups, map_some_prune groups,
    fun i a ha => ?_, fun i a ha _ => exists_kept ha⟩, pairwise_incomparable_prune groups,
    prune_eq_self (pairwise_incomparable_prune groups)⟩
  rw [mem_keptPositions_iff ha, outdone_eq_false_iff]

end PathGroup

namespace Sample.Overlaps

open PathGroup (prune)

/-- A group that asserts some constants. -/
def group (exit : ExitKind) (constants : List String) : PathGroup :=
  { method := .static (.named "Sample" "Groups" []) "Overlap" [] .void
    site := default
    lines := constants.map fun c => .assert (.atom c)
    exit
    returnValue := none
    returnOrigin := none }

/-- Two groups are contained in others, or repeat them. -/
def groups : List PathGroup :=
  [group .returned ["a"], group .returned ["a", "b"], group .thrown ["a"], group .returned ["c"],
    group .returned ["a", "b"]]

theorem prune_groups :
    prune groups = [group .returned ["a", "b"], group .thrown ["a"], group .returned ["c"]] ∧
    prune (prune groups) = prune groups ∧
    ∃ kept : List Nat, (prune groups).map some = kept.map (groups[·]?) ∧ 0 ∉ kept ∧ 4 ∉ kept ∧
      ∃ j ∈ kept, ∃ b, groups[j]? = some b ∧ b.exit = .returned ∧
        (group .returned ["a"]).assertions <+: b.assertions := by
  obtain ⟨⟨kept, -, hkept, hiff, hdropped⟩, -, hagain⟩ := PathGroup.prune_keeps_maximal groups
  have hfirst : 0 ∉ kept := fun h =>
    ((hiff 0 _ rfl).1 h).1 ⟨group .returned ["a", "b"], by decide, rfl, [.assert (.atom "b")],
      by decide, rfl⟩
  have hlast : 4 ∉ kept := fun h =>
    ((hiff 4 _ rfl).1 h).2 ⟨1, by decide, group .returned ["a", "b"], rfl, rfl, rfl⟩
  exact ⟨by rw [PathGroup.prune_eq_filter]; decide, hagain, kept, hkept, hfirst, hlast,
    hdropped 0 _ rfl hfirst⟩

end Sample.Overlaps

end Pathwise
