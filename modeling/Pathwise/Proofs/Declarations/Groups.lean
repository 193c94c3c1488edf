import Pathwise.Proofs.Components
import Pathwise.Proofs.Encoding

/-!
# Pathwise.Proofs.Declarations.Groups

The stored sentences of a repository, in the groups in which they are declared.
`TypeRepository.Grouping` says what the groups are: all stored sentences, each in
one group, those together that lead to each other, and no group before one that a
sentence of it has to come after (`TypeRepository.grouping_groups`).

A group of several sentences holds neither scalars nor arrays
(`Grouping.single_or_datatypes`): nothing leads on from a scalar, and what leads to
an array are arrays of arrays only.
-/

namespace Pathwise.TypeRepository

open Relation (ReflTransGen)
open TypeRef (HasDatatype)

variable {s : Sentence}

/-- Repositories that hold encodings of types. Each may be from a program of its own. -/
inductive Built : TypeRepository → Prop where
  | empty : Built .empty
  | insert {r : TypeRepository} (h : r.Built) {exceptionBase : Option TypeRef} {p : Program}
      {t : TypeRef} {s : Sentence} (hs : Sentence.encode exceptionBase p t = .ok s) :
      Built (r.insert s)

/-- One type is linked to another: its declaration names it, or has it as its base. -/
def Links (r : TypeRepository) (t u : TypeRef) : Prop := ∃ s, r.find? t = some s ∧ u ∈ precursors s

/-- Two types each of which leads to the other through links. -/
def Entwined (r : TypeRepository) (t u : TypeRef) : Prop :=
  ReflTransGen r.Links t u ∧ ReflTransGen r.Links u t

/-- What the declarations of a repository rely on. -/
structure Declarable (r : TypeRepository) : Prop where
  built : r.Built
  closed : ∀ t s, r.find? t = some s → ∀ d ∈ s.dependencies, r.contains d = true
  symbols : ∀ t u, r.contains t = true → r.contains u = true → t.symbol = u.symbol → t = u
  bases : ∀ t s b, r.find? t = some s → s.base = some b → b.HasDatatype

variable {r : TypeRepository}

/-! ## stored sentences -/

/-- Every sentence is the encoding of the type it is stored under. -/
theorem Built.encoded (h : r.Built) {t : TypeRef} (hs : r.find? t = some s) :
    s.type = t ∧ s.Encoded := by
  induction h with
  | empty => simp [TypeRepository.empty, find?] at hs
  | @insert r _ _ _ _ s' hencode ih =>
      simp only [find?, TypeRepository.insert, Table.find?_insertNew] at hs
      split at hs
      · next htype =>
          subst htype
          rcases hold : r.sentences.find? s'.type with _ | x
          · rw [hold] at hs
            obtain rfl := Option.some.inj hs
            exact ⟨rfl, (Sentence.encoded_of_encode hencode).2⟩
          · rw [hold] at hs
            obtain rfl := Option.some.inj hs
            exact ih hold
      · exact ih hs

theorem Built.nodup_keys (h : r.Built) : r.sentences.keys.Nodup := by
  induction h with
  | empty => exact List.nodup_nil
  | @insert r _ _ _ _ s _ ih =>
      unfold TypeRepository.insert Table.insertNew
      split
      · exact ih
      · next hnew =>
          refine List.nodup_cons.2 ⟨fun hmem => hnew ?_, ih⟩
          obtain ⟨entry, hentry, htype : entry.1 = s.type⟩ := List.mem_map.1 hmem
          rw [← htype]
          exact Table.contains_of_mem_entries hentry

theorem Built.find?_of_mem_entries (h : r.Built) {t : TypeRef}
    (hmem : (t, s) ∈ r.sentences.entries) : r.find? t = some s := by
  have hkeys := h.nodup_keys
  unfold find? Table.find? Table.keys at *
  generalize r.sentences.entries = entries at *
  induction entries with
  | nil => contradiction
  | cons entry entries ih =>
      rw [List.map_cons, List.nodup_cons] at hkeys
      rw [List.find?_cons]
      cases List.mem_cons.1 hmem with
      | inl heq => simp [← heq]
      | inr hmem =>
          have hne : entry.1 ≠ t := fun heq => hkeys.1 (heq ▸ List.mem_map_of_mem hmem)
          simp only [hne, decide_false]
          exact ih hmem hkeys.2

theorem Built.mem_sorted (h : r.Built) : s ∈ r.sorted ↔ r.find? s.type = some s := by
  unfold sorted Table.values
  rw [List.mem_mergeSort, List.mem_map]
  constructor
  · rintro ⟨⟨t, s⟩, hmem, rfl⟩
    have hfind := h.find?_of_mem_entries hmem
    rwa [(h.encoded hfind).1]
  · intro hfind
    exact ⟨(s.type, s), Table.mem_entries_of_find? hfind, rfl⟩

theorem Built.nodup_types (h : r.Built) : (r.sorted.map (·.type)).Nodup := by
  have htypes : r.sentences.values.map (·.type) = r.sentences.keys := by
    unfold Table.values Table.keys
    rw [List.map_map]
    refine List.map_congr_left fun entry hentry => ?_
    exact (h.encoded (h.find?_of_mem_entries hentry)).1
  refine ((List.mergeSort_perm _ _).map _).nodup_iff.2 ?_
  rw [htypes]
  exact h.nodup_keys

/-! ## the graph of the stored sentences -/

section Graph

variable {l : List Sentence}

theorem getElem?_of_findIdx {t : TypeRef} (h : l.findIdx (·.type = t) < l.length) :
    ∃ x, l[l.findIdx (·.type = t)]? = some x ∧ x.type = t :=
  ⟨_, List.getElem?_eq_getElem h, by simpa using List.findIdx_getElem (w := h)⟩

theorem findIdx_eq_of_getElem? (hl : (l.map (·.type)).Nodup) {j : Nat} {x : Sentence}
    (hx : l[j]? = some x) : l.findIdx (·.type = x.type) = j := by
  obtain ⟨hj, rfl⟩ := List.getElem?_eq_some_iff.1 hx
  refine (List.findIdx_eq hj).2 ⟨by simp, fun k hk => ?_⟩
  have hne := (List.pairwise_iff_getElem.1 hl) k j (by simp; omega) (by simpa using hj) hk
  simpa using hne

/-- There is an edge to a sentence from each of the others that it has to come after. -/
theorem mem_edges_digraph (hl : (l.map (·.type)).Nodup) {i j : Nat} :
    (j, i) ∈ (digraph l).edges ↔
      j ≠ i ∧ ∃ s x, l[i]? = some s ∧ l[j]? = some x ∧ x.type ∈ precursors s := by
  simp only [digraph, List.mem_flatMap, List.mem_filterMap, Prod.exists]
  constructor
  · rintro ⟨s, i', hs, t, ht, hedge⟩
    split at hedge
    · next hj =>
        obtain ⟨rfl, rfl⟩ := Prod.mk.inj (Option.some.inj hedge)
        obtain ⟨x, hx, rfl⟩ := getElem?_of_findIdx hj.1
        exact ⟨hj.2, s, x, List.mem_zipIdx_iff_getElem?.1 hs, hx, ht⟩
    · contradiction
  · rintro ⟨hne, s, x, hs, hx, ht⟩
    refine ⟨s, i, List.mem_zipIdx_iff_getElem?.2 hs, x.type, ht, ?_⟩
    rw [findIdx_eq_of_getElem? hl hx]
    exact if_pos ⟨(List.getElem?_eq_some_iff.1 hx).1, hne⟩

theorem bounded_digraph (hl : (l.map (·.type)).Nodup) : (digraph l).Bounded := by
  intro j i hedge
  obtain ⟨-, s, x, hs, -, -⟩ := (mem_edges_digraph hl).1 hedge
  exact (List.getElem?_eq_some_iff.1 hs).1

theorem bounded_flip_digraph (hl : (l.map (·.type)).Nodup) : (digraph l).flip.Bounded := by
  intro i j hedge
  have hedge' : (j, i) ∈ (digraph l).edges := by simpa [Digraph.flip] using hedge
  obtain ⟨-, s, x, -, hx, -⟩ := (mem_edges_digraph hl).1 hedge'
  exact (List.getElem?_eq_some_iff.1 hx).1

end Graph

namespace Declarable

variable (hr : r.Declarable)

include hr

theorem contains_innermost {t : TypeRef} (h : r.contains t = true) :
    r.contains t.innermost = true := by
  fun_induction TypeRef.innermost t with
  | case1 e ih =>
      obtain ⟨s, hs⟩ := Option.isSome_iff_exists.1 h
      obtain ⟨htype, hencoded⟩ := hr.built.encoded hs
      refine ih (hr.closed _ s hs e ?_)
      cases hencoded with
      | scalar ht _ =>
          subst htype
          exact absurd (by simp [TypeRef.IsReference]) ht
      | array e' =>
          obtain rfl := TypeRef.array.inj htype
          exact Sentence.mem_dependencies_reference.2 (Or.inl ⟨by simp, e'.ne_array_self⟩)
      | plain base ht _ => exact absurd htype (ht.2 e)
      | composite fields isValueType base ht => exact absurd htype (ht.2 e)
  | case2 t _ => exact h

/-- Everything that a stored sentence has to come after is stored. -/
theorem exists_of_mem_precursors {t u : TypeRef} {s : Sentence} (hs : r.find? t = some s)
    (hu : u ∈ precursors s) : ∃ x, r.find? u = some x := by
  have hencoded := (hr.built.encoded hs).2
  refine Option.isSome_iff_exists.1 ?_
  cases List.mem_append.1 hu with
  | inl hu =>
      obtain ⟨-, d, hd, rfl | rfl⟩ := hencoded.exists_dependency hu
      · exact hr.closed t s hs u hd
      · exact hr.contains_innermost (hr.closed t s hs d hd)
  | inr hu => exact hr.closed t s hs u (hencoded.base_mem (Option.mem_toList.1 hu))

/-- Sentences are connected if and only if their types lead to each other. -/
theorem reaches_digraph_iff {i j : Nat} {s x : Sentence} (hs : r.sorted[i]? = some s)
    (hx : r.sorted[j]? = some x) :
    (digraph r.sorted).Reaches j i ↔ ReflTransGen r.Links s.type x.type := by
  have hl := hr.built.nodup_types
  have hfind : ∀ {k y}, r.sorted[k]? = some y → r.find? y.type = some y :=
    fun hy => hr.built.mem_sorted.1 (List.mem_of_getElem? hy)
  constructor
  · intro h
    induction h generalizing s with
    | refl =>
        obtain rfl := Option.some.inj (hs.symm.trans hx)
        exact .refl
    | tail _ hedge ih =>
        obtain ⟨-, s', y, hs', hy, hmem⟩ := (mem_edges_digraph hl).1 hedge
        obtain rfl := Option.some.inj (hs'.symm.trans hs)
        exact (ih hy).head ⟨s', hfind hs', hmem⟩
  · intro h
    generalize hstart : s.type = t at h
    induction h using ReflTransGen.head_induction_on generalizing i s with
    | refl =>
        have hi := findIdx_eq_of_getElem? hl hs
        have hj := findIdx_eq_of_getElem? hl hx
        rw [hstart] at hi
        rw [← hi, ← hj]
        exact .refl
    | head hlink _ ih =>
        obtain ⟨s', hs', hu⟩ := hlink
        subst hstart
        obtain rfl := Option.some.inj ((hfind hs).symm.trans hs')
        obtain ⟨y, hy⟩ := hr.exists_of_mem_precursors hs' hu
        obtain ⟨rfl, -⟩ := hr.built.encoded hy
        obtain ⟨k, hk⟩ := List.getElem?_of_mem (hr.built.mem_sorted.2 hy)
        have hjk := ih hk rfl
        by_cases heq : k = i
        · exact heq ▸ hjk
        · exact hjk.tail ((mem_edges_digraph hl).2 ⟨heq, s, y, hs, hk, hu⟩)

end Declarable

/-! ## groups -/

/-- The stored sentences in the groups in which they are declared. -/
def groups (r : TypeRepository) : List (List Sentence) :=
  (digraph r.sorted).orderedComponents.map fun component => component.filterMap (r.sorted[·]?)

theorem declarations_eq (r : TypeRepository) :
    r.declarations = preamble ++ r.groups.flatMap jointDeclarations := by
  unfold declarations groups
  rw [List.flatMap_map]

/-- Groups of all stored sentences in an order in which they can be declared. -/
structure Grouping (r : TypeRepository) (groups : List (List Sentence)) : Prop where
  perm : groups.flatten.Perm r.sorted
  nonempty : ∀ X ∈ groups, X ≠ []
  entwined : ∀ X ∈ groups, ∀ s ∈ X, ∀ x ∈ r.sorted, x ∈ X ↔ r.Entwined s.type x.type
  order : groups.Pairwise fun X Y => ∀ x ∈ X, ∀ y ∈ Y, y.type ∉ precursors x

/-- Every stored sentence is in one group. -/
theorem Built.perm_groups (hr : r.Built) : r.groups.flatten.Perm r.sorted := by
  have hl := hr.nodup_types
  have hcs := Digraph.partitions_orderedComponents (bounded_digraph hl) (bounded_flip_digraph hl)
  have hperm : (digraph r.sorted).orderedComponents.flatten.Perm (List.range r.sorted.length) := by
    refine (List.perm_ext_iff_of_nodup hcs.nodup List.nodup_range).2 fun i => ?_
    rw [hcs.mem, List.mem_range]
    simp [digraph]
  have h := hperm.filterMap (r.sorted[·]?)
  rwa [Digraph.filterMap_range_getElem?, List.filterMap_flatten] at h

theorem grouping_groups (hr : r.Declarable) : r.Grouping r.groups := by
  have hl := hr.built.nodup_types
  have hg := bounded_digraph hl
  have hflip := bounded_flip_digraph hl
  have hcs := Digraph.partitions_orderedComponents hg hflip
  refine ⟨hr.built.perm_groups, fun X hX => ?_, fun X hX s hs x hx => ?_, ?_⟩
  · obtain ⟨C, hC, rfl⟩ := List.mem_map.1 hX
    obtain ⟨n, hn, -⟩ := hcs.component C hC
    have hsize : n < r.sorted.length := ((hcs.mem n).1 (List.mem_flatten.2 ⟨C, hC, hn⟩)).1
    exact List.ne_nil_of_mem (List.mem_filterMap.2 ⟨n, hn, List.getElem?_eq_getElem hsize⟩)
  · obtain ⟨C, hC, rfl⟩ := List.mem_map.1 hX
    obtain ⟨i, hi, hs⟩ := List.mem_filterMap.1 hs
    obtain ⟨j, hj⟩ := List.getElem?_of_mem hx
    have hmem : x ∈ C.filterMap (r.sorted[·]?) ↔ j ∈ C := by
      rw [List.mem_filterMap]
      constructor
      · rintro ⟨k, hk, hx'⟩
        rwa [← findIdx_eq_of_getElem? hl hj, findIdx_eq_of_getElem? hl hx']
      · intro hmem
        exact ⟨j, hmem, hj⟩
    rw [hmem, (hcs.component C hC).mem_iff hi]
    unfold Digraph.Connected Entwined
    rw [hr.reaches_digraph_iff hj hs, hr.reaches_digraph_iff hs hj, and_comm]
  · have hdisjoint := (List.nodup_flatten.1 hcs.nodup).2
    have hforward := Digraph.pairwise_orderedComponents hg hflip
    refine List.pairwise_map.2 ((hdisjoint.and hforward).imp ?_)
    rintro C D ⟨hdisjoint, hforward⟩ x hx y hy hyx
    obtain ⟨i, hi, hx⟩ := List.mem_filterMap.1 hx
    obtain ⟨j, hj, hy⟩ := List.mem_filterMap.1 hy
    have hne : j ≠ i := fun heq => hdisjoint hi (heq ▸ hj)
    exact hforward i hi j hj ((mem_edges_digraph hl).2 ⟨hne, x, y, hx, hy, hyx⟩)

/-! ## entwined types -/

/-- What leads to an array is an array of more dimensions. -/
theorem Declarable.eq_or_sizeOf_lt (hr : r.Declarable) {t u : TypeRef}
    (h : ReflTransGen r.Links t u) (hu : ∃ e, u = .array e) :
    t = u ∨ sizeOf u < sizeOf t ∧ ∃ e, t = .array e := by
  induction h using ReflTransGen.head_induction_on with
  | refl => exact Or.inl rfl
  | @head t v hlink _ ih =>
      have hv : ∃ e, v = .array e := by
        obtain rfl | ⟨-, hv⟩ := ih
        · exact hu
        · exact hv
      obtain ⟨e, rfl⟩ := hv
      obtain ⟨s, hs, hmem⟩ := hlink
      obtain ⟨rfl, hencoded⟩ := hr.built.encoded hs
      have htype : s.type = .array (.array e) := by
        cases List.mem_append.1 hmem with
        | inl hmem => exact hencoded.type_of_array_mem_references hmem
        | inr hmem => exact absurd rfl ((hr.bases _ s _ hs (Option.mem_toList.1 hmem)).2 e)
      have hless : sizeOf (TypeRef.array e) < sizeOf s.type := by
        rw [htype, TypeRef.array.sizeOf_spec (.array e)]
        omega
      refine Or.inr ⟨?_, _, htype⟩
      obtain heq | ⟨hlt, -⟩ := ih
      · exact heq ▸ hless
      · omega

/-- Different types that lead to each other have datatypes. -/
theorem Declarable.hasDatatype_of_entwined (hr : r.Declarable) {t u : TypeRef}
    (hs : r.find? t = some s) (htu : t ≠ u) (h : r.Entwined t u) : s.hasDatatype = true := by
  obtain ⟨rfl, hencoded⟩ := hr.built.encoded hs
  have hreference : s.isReference = true := by
    obtain heq | ⟨v, ⟨x, hx, hmem⟩, -⟩ := h.1.cases_head
    · exact absurd heq htu
    · obtain rfl := Option.some.inj (hs.symm.trans hx)
      exact hencoded.isReference_of_mem_precursors hmem
  refine hencoded.hasDatatype_iff.2 ⟨hencoded.isReference_iff.1 hreference, fun e harray => ?_⟩
  obtain heq | ⟨hless, hu⟩ := hr.eq_or_sizeOf_lt h.2 ⟨e, harray⟩
  · exact htu heq.symm
  · obtain heq | ⟨hless', -⟩ := hr.eq_or_sizeOf_lt h.1 hu
    · exact htu heq
    · omega

namespace Grouping

variable {groups : List (List Sentence)} (hgroups : r.Grouping groups) {X : List Sentence}

include hgroups

theorem find?_of_mem (hr : r.Declarable) (hX : X ∈ groups) {s : Sentence} (hs : s ∈ X) :
    r.find? s.type = some s :=
  hr.built.mem_sorted.1 (hgroups.perm.mem_iff.1 (List.mem_flatten.2 ⟨X, hX, hs⟩))

theorem exists_mem (hr : r.Declarable) {t : TypeRef} {s : Sentence} (hs : r.find? t = some s) :
    ∃ X ∈ groups, s ∈ X := by
  obtain ⟨rfl, -⟩ := hr.built.encoded hs
  exact List.mem_flatten.1 (hgroups.perm.mem_iff.2 (hr.built.mem_sorted.2 hs))

/-- Sentences that share a group all have datatypes. -/
theorem hasDatatype_of_mem (hr : r.Declarable) (hX : X ∈ groups) {s x : Sentence} (hs : s ∈ X)
    (hx : x ∈ X) (hne : s ≠ x) : s.hasDatatype = true := by
  have hfinds := hgroups.find?_of_mem hr hX hs
  have hfindx := hgroups.find?_of_mem hr hX hx
  refine hr.hasDatatype_of_entwined hfinds (fun htype => hne ?_)
    ((hgroups.entwined X hX s hs x (hr.built.mem_sorted.2 hfindx)).1 hx)
  exact Option.some.inj (hfinds.symm.trans (htype ▸ hfindx))

/-- A group is a single sentence, or several that have datatypes. -/
theorem single_or_datatypes (hr : r.Declarable) (hX : X ∈ groups) :
    (∃ s, X = [s]) ∨ (∀ s, X ≠ [s]) ∧ ∀ s ∈ X, s.hasDatatype = true := by
  have hnodup : X.Nodup := by
    have hall := hgroups.perm.nodup_iff.2 hr.built.nodup_types.of_map
    exact (List.nodup_flatten.1 hall).1 X hX
  rcases X with _ | ⟨a, _ | ⟨b, rest⟩⟩
  · exact absurd rfl (hgroups.nonempty [] hX)
  · exact Or.inl ⟨a, rfl⟩
  · refine Or.inr ⟨fun s => by simp, fun s hs => ?_⟩
    have hab : a ≠ b := fun heq => (List.nodup_cons.1 hnodup).1 (heq ▸ List.mem_cons_self)
    by_cases hsa : s = a
    · exact hgroups.hasDatatype_of_mem hr hX hs (x := b) (by simp) (hsa ▸ hab)
    · exact hgroups.hasDatatype_of_mem hr hX hs (x := a) (by simp) hsa

end Grouping

end Pathwise.TypeRepository
